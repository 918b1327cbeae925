import SentioCore.ProgressInvariant
import SentioCore.TaskOrder
import SentioCore.SparsifyGrowth
import SentioCore.CheckpointRetry
import SentioCore.TemplateBounds
import SentioCore.EntityRuns
import SentioCore.ChainStoreRuns
import SentioCore.LogQuery
import SentioCore.TemplateStart
import SentioCore.TemplateHoles
import SentioCore.DimensionSafety
import SentioCore.SlotLeftovers
import SentioCore.TransferRuns
import SentioCore.VersionedRuns
import SentioCore.EstimateSearch
import SentioCore.LatestSlotRuns
import SentioCore.BlockLinkRuns
import SentioCore.LatestQueue
import SentioCore.LruCache
import SentioCore.ForkTrace
import SentioCore.ClientPoolPriority
import SentioCore.ClientPoolSelection
import SentioCore.FormulaContext
import SentioCore.MirrorRuns
import SentioCore.BcsRoundTrip
import SentioCore.ConvertAgreement
import SentioCore.AptosComplete
import SentioCore.AptosChanges
import SentioCore.FuelQuery
import SentioCore.SuiObjects
import SentioCore.RangeWindows
import SentioCore.EntitySeries
import SentioCore.TupleColumn
import SentioCore.IntegerFields
import SentioCore.BlockRangeSlices
import SentioCore.ResourceRuns
import SentioCore.FileMirror
import SentioCore.Pager
import SentioCore.SeriesLimit
import SentioCore.BigIntBytes
import SentioCore.ContractStart
