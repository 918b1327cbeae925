import SentioCore.KeyedRows
import SentioCore.RangeHoles
import SentioCore.Transition

/-!
# The block fetcher

A loop queries one range of blocks after the other into a buffer, halving the
range when a query fails and growing it when queries are small. Readers wait
until their block is below the start of the next query, and consumed blocks are
dropped from the front. Each critical section is one step, and a query is
outside of all of them. The growing of the query size uses floating point and
the clock; it is a parameter here.
-/

namespace Sentio.FetcherModel
open RangeModel

section
variable {α : Type}

structure BlockMap (α : Type) where
  rows : List (UInt64 × α)
  distinct : (rows.map Prod.fst).Nodup

structure Config (α : Type) where
  size : α → ℤ
  minQuerySize : UInt64
  targetKeepDataSize : ℤ
  maxReadyBlockCount : UInt64
  maxRetry : ℤ
  nextFetchSize : UInt64 → ℤ → ℤ → UInt64

def sumSize (size : α → ℤ) (rows : List (UInt64 × α)) : ℤ := (rows.map (fun e => size e.2)).sum

def lookup (rows : List (UInt64 × α)) (n : UInt64) : Option α :=
  (KeyedRows.lookup Prod.fst rows n).map Prod.snd

structure Growing where
  start : UInt64
  stop : UInt64
  latest : UInt64
  retry : ℤ
  deriving DecidableEq

structure Query (α : Type) where
  start : UInt64
  stop : UInt64
  result : List (UInt64 × α)
  deriving DecidableEq

/-- A `Get` that returned without an error, and whether its block belonged to
the full range at that moment. -/
structure Answer (α : Type) where
  block : UInt64
  entry : Option α
  inFull : Bool
  deriving DecidableEq

structure Fetcher (α : Type) where
  full : Range
  fetchingStart : UInt64
  fetchingEnd : UInt64
  fetchingFailed : Bool
  broken : Bool
  latest : UInt64
  data : List (UInt64 × α)
  totalSize : ℤ
  growing : Option Growing
  rejected : Bool
  waiting : List UInt64
  queries : List (Query α)
  answers : List (Answer α)
  deriving DecidableEq

def atMost (n : UInt64) : Option UInt64 → UInt64
  | none => n
  | some stop => min n stop

def windowEnd (full : Range) (latest start size : UInt64) : UInt64 :=
  atMost (min (start+size-1) latest) full.stop

variable (cfg : Config α)

def newFetcher (full : Range) (latest : UInt64) : Fetcher α where
  full := full
  fetchingStart := full.start
  fetchingEnd := windowEnd full latest full.start cfg.minQuerySize
  fetchingFailed := false
  broken := false
  latest := latest
  data := []
  totalSize := 0
  growing := none
  rejected := false
  waiting := []
  queries := []
  answers := []

variable (f : Fetcher α)

def bufferFull : Bool :=
  cfg.targetKeepDataSize ≤ f.totalSize ||
    (0 < cfg.maxReadyBlockCount && cfg.maxReadyBlockCount ≤ f.fetchingStart-f.full.start)

def reject : Fetcher α := {f with growing := none, rejected := true}

/-- The end of the retry loop without data; the error is absent when the loop
was never entered. -/
def giveUp (stop : UInt64) (failed : Bool) : Fetcher α :=
  reject {f with fetchingEnd := stop, fetchingFailed := failed}

def startGrowing (stop : UInt64) : Fetcher α :=
  if cfg.maxRetry < 0 then giveUp f stop false
  else {f with growing := some ⟨f.fetchingStart,stop,f.latest,cfg.maxRetry⟩}

/-- The first critical section of `growth`; a pause leaves everything alone. -/
def growth : Fetcher α :=
  if f.fetchingFailed then reject f
  else if f.full.stop.any (fun stop => stop < f.fetchingStart) then reject f
  else if bufferFull cfg f then f
  else if f.fetchingStart ≤ f.fetchingEnd then startGrowing cfg f f.fetchingEnd
  else if f.fetchingStart ≤ f.latest then
    startGrowing cfg f (windowEnd f.full f.latest f.fetchingStart cfg.minQuerySize)
  else f

def fetchSize (g : Growing) : UInt64 := g.stop-g.start+1

/-- The query returned data for the whole range. -/
def succeed (g : Growing) (result : BlockMap α) (used : ℤ) :
    Fetcher α :=
  let size := sumSize cfg.size result.rows
  let start := g.stop+1
  {f with
    totalSize := f.totalSize+size
    data := result.rows.foldl (KeyedRows.upsert Prod.fst) f.data
    fetchingStart := start
    fetchingEnd := windowEnd f.full f.latest start (cfg.nextFetchSize (fetchSize g) size used)
    growing := none
    queries := f.queries++[⟨g.start,g.stop,result.rows⟩]}

/-- The query failed: the range is halved, or one retry is used up. A permanent
error leaves no retry. -/
def fail (g : Growing) (permanent : Bool) : Fetcher α :=
  let retry := if permanent then -1 else g.retry
  let size := fetchSize g
  let next : Growing := if cfg.minQuerySize < size then
      {g with stop := g.start+max cfg.minQuerySize (size/2)-1, retry := retry}
    else {g with retry := retry-1}
  if 0 ≤ next.retry then {f with growing := some next} else giveUp f next.stop true

def moveStart (start : UInt64) : Fetcher α :=
  if start < f.full.start then f
  else
    let start := if f.fetchingStart < start then f.fetchingStart else start
    let consumed := fun e : UInt64 × α => f.full.start ≤ e.1 && e.1 < start
    {f with
      full := {f.full with start := start}
      data := f.data.filter (fun e => !consumed e)
      totalSize := f.totalSize-sumSize cfg.size (f.data.filter consumed)}

def answer (n : UInt64) (entry : Option α) : Fetcher α :=
  {f with answers := f.answers++[⟨n,entry,f.full.contains n⟩]}

/-- One round of the loop in `Get`. -/
def tryGet (n : UInt64) : Fetcher α :=
  if f.broken then f
  else if f.fetchingStart ≤ n then
    if f.fetchingFailed then f else {f with waiting := n::f.waiting}
  else answer f n (lookup f.data n)

inductive Event (α : Type) where
  | growth
  | succeed (result : BlockMap α) (used : ℤ)
  | fail (permanent : Bool)
  | cancel
  | moveStart (start : UInt64)
  | updateLatest (latest : UInt64)
  | broken
  | get (block : UInt64)
  | wake (block : UInt64)
  | leave (block : UInt64)

/-- Moving the latest block back panics. -/
def step : Event α → Option (Fetcher α)
  | .growth => if f.growing.isSome || f.rejected then none else some (growth cfg f)
  | .succeed result used => f.growing.map (fun g => succeed cfg f g result used)
  | .fail permanent => f.growing.map (fun g => fail cfg f g permanent)
  | .cancel => f.growing.map (fun _ => reject f)
  | .moveStart start => some (moveStart cfg f start)
  | .updateLatest latest => if latest < f.latest then none else some {f with latest := latest}
  | .broken => some {f with broken := true}
  | .get n => some (if f.full.contains n then tryGet f n else answer f n none)
  | .wake n => if n ∈ f.waiting then some (tryGet {f with waiting := f.waiting.erase n} n) else none
  | .leave n => if n ∈ f.waiting then some {f with waiting := f.waiting.erase n} else none

end
end Sentio.FetcherModel
