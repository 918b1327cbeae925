import SentioCore.OrderedMap
import SentioCore.DecimalArith
import SentioCore.BcsModel
import Mathlib.Data.Char

/-!
# Converting time-series results to rows

Every loop over a Go map meets the entries in an order of its own, which is asked
for by the place of the loop. Maps are listed by ascending keys; loops over sorted
keys follow the list. Results become rows of datasets, event attributes and metric
labels become columns beside the system columns.
-/

namespace Sentio.ConvertModel
open OrderedMap
open BcsModel (Text atoi)
open DecimalArith (Decimal)

def text (s : String) : Text := s.toList

/-- The orders in which the loops of one run meet the entries of maps. -/
structure Order where
  arrange {V : Type} (place : List Text) (m : List (Text × V)) : List (Text × V)
  arrange_perm {V : Type} (place : List Text) (m : List (Text × V)) : (arrange place m).Perm m

inductive FieldType where
  | string
  | bool
  | time
  | int
  | bigInt
  | float
  | bigFloat
  | json
  | array
  | token
  deriving DecidableEq

inductive FieldRole where
  | none
  | chainID
  | timestamp
  | slotNumber
  | aggInterval
  | seriesLabel
  | seriesValue
  deriving DecidableEq

inductive MetaType where
  | gauge
  | counter
  | event
  deriving DecidableEq

def MetaType.name : MetaType → Text
  | .gauge => text "gauge"
  | .counter => text "counter"
  | .event => text "event"

inductive Err where
  | panic
  | metaName (name : Text)
  | fieldName (name : Text)
  | reservedSuffix (name : Text)
  | outOfRange (column : Text)
  | invalidType (column : Text)
  | unknownValue
  | notUniform (column : Text) (before after : FieldType)
  deriving DecidableEq

inductive CoinID where
  | unset
  | symbol (name : Text)
  | address (address chain : Text)
  deriving DecidableEq

structure Token where
  token : Option CoinID
  amount : Decimal
  specifiedAt : Option ℤ
  deriving DecidableEq

section
variable (F : Type)

mutual

/-- Times are nanoseconds; a value may be missing. -/
inductive RichValue where
  | unset
  | null
  | string (s : Text)
  | bytes (b : List UInt8)
  | bool (b : Bool)
  | int (i : ℤ)
  | int64 (i : ℤ)
  | timestamp (t : ℤ)
  | float (f : F)
  | bigint (i : ℤ)
  | bigdecimal (d : Decimal)
  | token (t : Token)
  | list (values : RichList)
  | struct (fields : RichFields)

inductive RichList where
  | nil
  | cons (v : RichValue) (rest : RichList)

inductive RichFields where
  | nil
  | cons (name : Text) (v : RichValue) (rest : RichFields)

end

inductive Any where
  | text (s : Text)
  | bool (b : Bool)
  | int (i : ℤ)
  | time (t : ℤ)
  | float (f : F)
  | bigInt (i : ℤ)
  | decimal (d : Decimal)
  | list (values : List Any)
  | map (entries : List (Text × Any))

/-- What is left to the libraries: floats, texts of numbers and times, and JSON, whose text may
follow the order in which the entries of maps are met. -/
structure Formats where
  zero : F
  ofInt : ℤ → F
  ofBigInt : ℤ → Option F
  ofDecimal : Decimal → F
  parseFloat : Text → Option F
  floatText : F → Text
  timestampText : ℤ → Text
  decimalText : Decimal → Text
  marshal : Order → List Text → List (Text × Any F) → Text

end

section
variable {F : Type}

def RichValue.isNull : RichValue F → Bool
  | .null => true
  | _ => false

def RichFields.names : RichFields F → List Text
  | .nil => []
  | .cons name _ rest => name::rest.names

mutual

/-- The fields of a struct are listed by ascending names. -/
def RichValue.Legal : RichValue F → Prop
  | .list values => values.Legal
  | .struct fields => fields.names.Pairwise (· < ·) ∧ fields.Legal
  | _ => True

def RichList.Legal : RichList F → Prop
  | .nil => True
  | .cons v rest => v.Legal ∧ rest.Legal

def RichFields.Legal : RichFields F → Prop
  | .nil => True
  | .cons _ v rest => v.Legal ∧ rest.Legal

end

def hexDigit (n : ℕ) : Char := (text "0123456789abcdef").getD n '0'

def hexEncode (b : List UInt8) : Text :=
  '0':: 'x'::b.flatMap (fun x => [hexDigit (x.toNat/16),hexDigit (x.toNat%16)])

def getTokenPrice (t : Token) (defaultTimestamp : ℤ) : Except Err (List (Text × Any F)) :=
  let common := [(text "amount",Any.decimal t.amount),
    (text "timestamp",.time (t.specifiedAt.getD defaultTimestamp))]
  match t.token with
  | none => .error .panic
  | some .unset => .ok []
  | some (.symbol name) =>
    .ok (putAll [] ([(text "address",.text []),(text "chain",.text []),
      (text "symbol",.text name)]++common))
  | some (.address address chain) =>
    .ok (putAll [] ([(text "address",.text address),(text "chain",.text chain),
      (text "symbol",.text [])]++common))

def buildMap (entries : List (Text × Except Err (Any F))) : Except Err (List (Text × Any F)) :=
  entries.foldlM (fun m e => do
    let v ← e.2
    pure (put e.1 v m)) []

section
variable (order : Order) (defaultTimestamp : ℤ)

mutual

def richValueToAny (place : List Text) : RichValue F → Except Err (Any F × FieldType)
  | .int i | .int64 i => .ok (.int i,.int)
  | .float f => .ok (.float f,.float)
  | .bytes b => .ok (.text (hexEncode b),.string)
  | .bool b => .ok (.bool b,.bool)
  | .string s => .ok (.text s,.string)
  | .timestamp t => .ok (.time t,.time)
  | .bigint i => .ok (.bigInt i,.bigInt)
  | .bigdecimal d => .ok (.decimal d,.bigFloat)
  | .list values => do
    let l ← listToAny (text "list"::place) values
    pure (.list l,.array)
  | .struct fields => do
    let m ← buildMap (order.arrange place (fieldsToAny place fields))
    pure (.map m,.json)
  | .token t => do
    let m ← getTokenPrice t defaultTimestamp
    pure (.map m,.token)
  | .null | .unset => .error .unknownValue

def listToAny (place : List Text) : RichList F → Except Err (List (Any F))
  | .nil => .ok []
  | .cons v rest => do
    let a ← richValueToAny place v
    let l ← listToAny (text "next"::place) rest
    pure (a.1::l)

def fieldsToAny (place : List Text) : RichFields F → List (Text × Except Err (Any F))
  | .nil => []
  | .cons name v rest =>
    (name,(richValueToAny (name::place) v).map Prod.fst)::fieldsToAny place rest

end

structure NestedRow (F : Type) where
  row : List (Text × Any F)
  structSchema : List (Text × FieldType)

def emptyRow : NestedRow F := ⟨[],[]⟩

def nestedName (pre name : Text) : Text := if pre = [] then name else pre++ '.'::name

def NestedRow.set (r : NestedRow F) (pre name : Text) (a : Any F × FieldType) : NestedRow F where
  row := if pre = [] then put name a.1 r.row else r.row
  structSchema := put (nestedName pre name) a.2 r.structSchema

/-- Names are taken in ascending order; only those of the outermost struct become keys of the row. -/
def NestedRow.update (place : List Text) (pre : Text) :
    RichFields F → NestedRow F → Except Err (NestedRow F)
  | .nil, r => .ok r
  | .cons _ .null rest, r => NestedRow.update place pre rest r
  | .cons name (.struct fields) rest, r => do
    let a ← richValueToAny order defaultTimestamp (name::place) (.struct fields)
    let inner ← NestedRow.update (text "struct"::name::place) (nestedName pre name) fields
      (r.set pre name a)
    NestedRow.update place pre rest inner
  | .cons name v rest, r => do
    let a ← richValueToAny order defaultTimestamp (name::place) v
    NestedRow.update place pre rest (r.set pre name a)

end

def int256Min : ℤ := -2^255

def int256Max : ℤ := 2^255-1

/-- The absolute value is above the greatest number with 76 digits, 30 of them decimals. -/
def decimalOutOfRange (d : Decimal) : Bool :=
  decide (((10^76-1 : ℤ) : ℚ)/10^30 < |d.toRat|)

/-- Log levels are 32-bit numbers. -/
def logLevelName (n : ℤ) : Text :=
  match n.emod 4294967296 with
  | 0 => text "DEBUG"
  | 1 => text "INFO"
  | 2 => text "WARNING"
  | 3 => text "ERROR"
  | 4 => text "CRITICAL"
  | _ => []

def systemFieldPrefix : Text := text "meta."

def system (name : String) : Text := systemFieldPrefix++text name

def reservedFieldEscapePrefix : Text := text "u."

def metricValueFieldName : Text := text "value"

def metricAggIntervalFieldName : Text := system "aggregation_interval"

def systemUserID : Text := text "distinctId"

def systemTimestamp : Text := text "timestamp"

def escaped (name : Text) : Text := reservedFieldEscapePrefix++name

def eventAllowOverwriteField (name : Text) : Bool :=
  name = systemUserID || name = system "severity"

def severityText (value : Text) : Text :=
  match atoi value with
  | none => value
  | some n => logLevelName n

def isLetter (c : Char) : Bool := c.isAlpha || c = '_'

def isWord (c : Char) : Bool := c.isAlphanum || c = '_'

/-- A letter, and then a word, inside of which further characters may stand. -/
def matchesName (inner : Char → Bool) : Text → Bool
  | [] => false
  | c::rest => isLetter c && rest.all (fun x => isWord x || inner x) && rest.getLast?.all isWord

def metaNameExpr (name : Text) : Bool := matchesName (fun c => c = '-' || c = ' ') name

def fieldNameExpr (name : Text) : Bool := matchesName (fun c => c = '.') name

def eventlogsCustomFieldNameExpr (name : Text) : Bool := matchesName (fun _ => false) name

structure Field where
  name : Text
  type : FieldType
  role : FieldRole := .none
  nestedStructSchema : List (Text × FieldType) := []
  builtIn : Bool := false
  index : Bool := false
  nestedIndex : List (Text × FieldType) := []
  deriving DecidableEq

namespace Field

def schemaClash (f other : Field) : Option (Text × FieldType × FieldType) :=
  f.nestedStructSchema.findSome? (fun e =>
    match find other.nestedStructSchema e.1 with
    | some t => if t ≠ e.2 then some (e.1,e.2,t) else none
    | none => none)

def compatible (f other : Field) : Bool :=
  f.name = other.name && f.type = other.type && f.role = other.role &&
    (schemaClash f other).isNone

def compatibleDiff (f other : Field) : Text × FieldType × FieldType :=
  if f.type ≠ other.type then (f.name,f.type,other.type)
  else match schemaClash f other with
    | some (k,before,after) => (f.name++ '.'::k,before,after)
    | none => ([],.string,.string)

def mergeMapIfNotExist (dst data : List (Text × FieldType)) : List (Text × FieldType) :=
  data.foldl (fun m e => if has m e.1 then m else put e.1 e.2 m) dst

def merge (order : Order) (place : List Text) (f other : Field) : Field :=
  if f.compatible other then
    {f with
      builtIn := f.builtIn || other.builtIn
      nestedStructSchema := mergeMapIfNotExist f.nestedStructSchema
        (order.arrange (text "schema"::place) other.nestedStructSchema)
      nestedIndex := mergeMapIfNotExist f.nestedIndex
        (order.arrange (text "index"::place) other.nestedIndex)}
  else f

end Field

/-- What is put into an event's row for a value that is not null. -/
structure Stored (F : Type) where
  type : FieldType
  value : Any F
  nestedStructSchema : List (Text × FieldType)

section
variable (formats : Formats F) (order : Order) (blockTime : ℤ)

def wrapped (v : RichValue F) : RichFields F := .cons (text "_wrapped_value_") v .nil

variable (place : List Text)

def wrappedValue (v : RichValue F) : Except Err (Any F) := do
  let r ← NestedRow.update order blockTime place [] (wrapped v) emptyRow
  pure ((find r.row (text "_wrapped_value_")).getD (.text []))

def structText (fields : RichFields F) :
    Except Err (Text × List (Text × FieldType)) := do
  let r ← NestedRow.update order blockTime place [] fields emptyRow
  pure (formats.marshal order place r.row,r.structSchema)

def eventValue (column : Text) : RichValue F → Except Err (Stored F)
  | .string s =>
    .ok ⟨.string,.text (if column = system "severity" then severityText s else s),[]⟩
  | .bytes b => .ok ⟨.string,.text (hexEncode b),[]⟩
  | .bool b => .ok ⟨.bool,.bool b,[]⟩
  | .int i | .int64 i => .ok ⟨.int,.int i,[]⟩
  | .timestamp t => .ok ⟨.time,.time t,[]⟩
  | .float f => .ok ⟨.float,.float f,[]⟩
  | .bigint i =>
    if i < int256Min ∨ int256Max < i then .error (.outOfRange column)
    else .ok ⟨.bigInt,.bigInt i,[]⟩
  | .bigdecimal d =>
    if decimalOutOfRange d then .error (.outOfRange column) else .ok ⟨.bigFloat,.decimal d,[]⟩
  | .list values => do
    let a ← wrappedValue order blockTime place (.list values)
    pure ⟨.array,a,[]⟩
  | .token t => do
    let a ← wrappedValue order blockTime place (.token t)
    pure ⟨.token,a,[]⟩
  | .struct fields => do
    let t ← structText formats order blockTime place fields
    pure ⟨.json,.text t.1,t.2⟩
  | .null | .unset => .error (.invalidType column)

def renameEvent (name : Text) : Except Err (Text × Bool) :=
  if name = text "severity" then .ok (system "severity",true)
  else if name = text "distinctEntityId" then .ok (systemUserID,true)
  else if name = systemUserID then .ok (name,true)
  else if eventlogsCustomFieldNameExpr name then .ok (name,false)
  else .error (.fieldName name)

def eventColumn (row : List (Text × Any F)) (name : Text) : Text :=
  if has row name && !eventAllowOverwriteField name then escaped name else name

def mergeField (fields : List (Text × Field)) (field : Field) : Except Err (List (Text × Field)) :=
  match find fields field.name with
  | none => .ok (put field.name field fields)
  | some exist =>
    if exist.compatible field then
      .ok (put field.name (exist.merge order [field.name] field) fields)
    else
      let diff := exist.compatibleDiff field
      .error (.notUniform diff.1 diff.2.1 diff.2.2)

structure Draft (F : Type) where
  row : List (Text × Any F)
  fields : List (Text × Field)

def updateEvent (d : Draft F) (e : Text × RichValue F) : Except Err (Draft F) := do
  let renamed ← renameEvent e.1
  let column := eventColumn d.row renamed.1
  if e.2.isNull then pure d
  else
    let stored ← eventValue formats order blockTime [e.1] column e.2
    let fields ← mergeField order d.fields
      {name := column, type := stored.type, builtIn := renamed.2,
        nestedStructSchema := stored.nestedStructSchema}
    pure ⟨put column stored.value d.row,fields⟩

def updateEvents (data : List (Text × RichValue F)) (d : Draft F) : Except Err (Draft F) :=
  (order.arrange [] data).foldlM (updateEvent formats order blockTime) d

end

section
variable (formats : Formats F)

def getFloat : RichValue F → Option F
  | .int i | .int64 i => some (formats.ofInt i)
  | .bigint i => formats.ofBigInt i
  | .float f => some f
  | .bigdecimal d => some (formats.ofDecimal d)
  | .string s => formats.parseFloat s
  | _ => none

def intText (i : ℤ) : Text := text (toString i)

def getString : RichValue F → Text
  | .null => text "<null>"
  | .string s => s
  | .bytes b => hexEncode b
  | .bool b => if b then text "true" else text "false"
  | .int i | .int64 i => intText i
  | .timestamp t => formats.timestampText t
  | .float f => formats.floatText f
  | .bigint i => intText i
  | .bigdecimal d => formats.decimalText d
  | _ => []

def labelColumn (row : List (Text × Any F)) (name : Text) : Text :=
  if has row name then escaped name else name

def updateMetric (d : Draft F) (e : Text × RichValue F) : Draft F :=
  if e.1 = metricValueFieldName then
    {d with
      row := put metricValueFieldName (.float ((getFloat formats e.2).getD formats.zero)) d.row}
  else
    let column := labelColumn d.row e.1
    if e.2.isNull then d
    else ⟨put column (.text (getString formats e.2)) d.row,
      put column {name := column, type := .string, role := .seriesLabel} d.fields⟩

def startMetric (d : Draft F) : Draft F where
  row := put metricValueFieldName (.float formats.zero) d.row
  fields := put metricValueFieldName
    {name := metricValueFieldName, type := .float, role := .seriesValue} d.fields

def updateMetrics (order : Order) (data : List (Text × RichValue F)) (d : Draft F) : Draft F :=
  (order.arrange [] data).foldl (updateMetric formats) (startMetric formats d)

end

structure Metadata where
  name : Text
  blockNumber : ℕ
  transactionHash : Text
  transactionIndex : ℤ
  logIndex : ℤ
  address : Text
  contractName : Text

structure TimeseriesResult (F : Type) where
  metadata : Metadata
  type : Option MetaType
  data : List (Text × RichValue F)
  sorted : Sorted data
  legal : ∀ e ∈ data, e.2.Legal

structure Block where
  chainID : Text
  number : ℕ
  hash : Text
  time : ℤ

structure Aggregation where
  source : Text
  intervals : List ℕ
  function : Text
  deriving DecidableEq

structure Meta where
  type : MetaType
  name : Text
  fields : List (Text × Field)
  aggregation : Option Aggregation
  deriving DecidableEq

def fullName (type : MetaType) (name : Text) : Text := type.name++ '.'::name

structure Dataset (F : Type) where
  «meta» : Meta
  rows : List (List (Text × Any F))

def buildFields (fields : List Field) : List (Text × Field) :=
  putAll [] (fields.map (fun f => (f.name,f)))

def initialFields : List (Text × Field) :=
  buildFields [
    {name := systemTimestamp, type := .time, role := .timestamp, builtIn := true},
    {name := systemUserID, type := .string, builtIn := true},
    {name := system "chain", type := .string, role := .chainID, builtIn := true},
    {name := system "block_number", type := .int, role := .slotNumber, builtIn := true},
    {name := system "block_hash", type := .string, builtIn := true},
    {name := system "transaction_hash", type := .string, builtIn := true},
    {name := system "transaction_index", type := .int, builtIn := true},
    {name := system "log_index", type := .int, builtIn := true},
    {name := system "address", type := .string, role := .seriesLabel, builtIn := true},
    {name := system "contract", type := .string, role := .seriesLabel, builtIn := true},
    {name := system "severity", type := .string, builtIn := true}]

def toInt64 (n : ℕ) : ℤ := if n%2^64 < 2^63 then n%2^64 else (n%2^64 : ℤ)-2^64

def initialRow (block : Block) (m : Metadata) : List (Text × Any F) :=
  putAll [] [
    (systemTimestamp,.time block.time),
    (systemUserID,.text []),
    (system "chain",.text block.chainID),
    (system "block_number",.int (toInt64 block.number)),
    (system "block_hash",.text block.hash),
    (system "transaction_hash",.text m.transactionHash),
    (system "transaction_index",.int m.transactionIndex),
    (system "log_index",.int m.logIndex),
    (system "address",.text m.address),
    (system "contract",.text m.contractName),
    (system "severity",.text [])]

inductive AggregationType where
  | count
  | sum
  | avg
  | min
  | max
  | last
  deriving DecidableEq

def AggregationType.name : AggregationType → Text
  | .count => text "count"
  | .sum => text "sum"
  | .avg => text "avg"
  | .min => text "min"
  | .max => text "max"
  | .last => text "last"

def aggregationTypes : List AggregationType := [.count,.sum,.avg,.min,.max,.last]

def reservedMetricNameSuffix : List Text := aggregationTypes.map (fun t => '_'::t.name)

def containsReservedMetricNameSuffix (name : Text) : Bool :=
  reservedMetricNameSuffix.any (fun suffix => suffix.isSuffixOf name)

structure MetricConfig where
  name : Text
  intervals : List ℕ
  types : List AggregationType

section
variable (formats : Formats F) (block : Block)

def checkNames (order : Order) (data : List (Text × RichValue F)) : Except Err Unit :=
  (order.arrange [text "names"] data).forM (fun e =>
    if fieldNameExpr e.1 then pure () else .error (.fieldName e.1))

def datasetOf (datasets : List (Text × Dataset F)) (type : MetaType) (name : Text) : Dataset F :=
  (find datasets (fullName type name)).getD ⟨⟨type,name,initialFields,none⟩,[]⟩

def drafted (order : Order) (r : TimeseriesResult F) (type : MetaType)
    (fields : List (Text × Field)) : Except Err (Draft F) :=
  let d : Draft F := ⟨initialRow block r.metadata,fields⟩
  match type with
  | .event => updateEvents formats order block.time r.data d
  | _ =>
    if containsReservedMetricNameSuffix r.metadata.name then
      .error (.reservedSuffix r.metadata.name)
    else pure (updateMetrics formats order r.data d)

def convertOne (order : Order) (datasets : List (Text × Dataset F)) (r : TimeseriesResult F) :
    Except Err (List (Text × Dataset F)) := do
  if !metaNameExpr r.metadata.name then .error (.metaName r.metadata.name)
  else
    checkNames order r.data
    if r.metadata.blockNumber ≠ block.number then .error .panic
    else match r.type with
      | none => pure datasets
      | some type =>
        let ds := datasetOf datasets type r.metadata.name
        let d ← drafted formats block order r type ds.meta.fields
        pure (put (fullName type r.metadata.name)
          ⟨{ds.meta with fields := d.fields},ds.rows++[d.row]⟩ datasets)

/-- Results are numbered from one; each is converted with orders of its own. -/
def convertAll (orders : ℕ → Order) (i : ℕ) (datasets : List (Text × Dataset F)) :
    List (TimeseriesResult F) → Except Err (List (Text × Dataset F))
  | [] => .ok datasets
  | r::rest => do
    let next ← convertOne formats block (orders i) datasets r
    convertAll orders (i+1) next rest

def fieldsByRole (fields : List (Text × Field)) (role : FieldRole) : List Field :=
  (fields.map Prod.snd).filter (fun f => f.role = role)

def aggregationFields (m : Meta) : List Field :=
  [{name := systemTimestamp, type := .time, role := .timestamp},
    {name := system "chain", type := .string, role := .chainID},
    {name := system "block_number", type := .int, role := .slotNumber},
    {name := metricAggIntervalFieldName, type := .string, role := .aggInterval},
    {name := metricValueFieldName, type := .float, role := .seriesValue}]++
  fieldsByRole m.fields .seriesLabel

variable (metricConfigs : MetaType → Text → Option MetricConfig)

def aggregations (ds : Dataset F) :
    List (Dataset F) :=
  match metricConfigs ds.meta.type ds.meta.name with
  | none => []
  | some config =>
    if config.intervals.isEmpty then []
    else config.types.map (fun t =>
      ⟨⟨ds.meta.type,config.name++ '_'::t.name,buildFields (aggregationFields ds.meta),
        some ⟨ds.meta.name,config.intervals,t.name⟩⟩,[]⟩)

def convert (orders : ℕ → Order)
    (data : List (TimeseriesResult F)) : Except Err (List (Dataset F)) := do
  let datasets ← convertAll formats block orders 1 [] data
  pure (((orders 0).arrange [] datasets).flatMap (fun e => e.2::aggregations metricConfigs e.2))

end
end
end Sentio.ConvertModel
