import SentioCore.MoveTypes
import SentioCore.SqlQuery

/-!
# Queries of the Aptos store

A transaction is stored as one row: `fromRawTransaction` fills the columns that
queries look at, and the transaction is read back from the others. A filter is
applied twice, as a condition on the columns and by `check` on what was read. An
account address stands for its text, as it is written into the columns and into
the arguments of a query; an event or a change in a column stands for its JSON.
-/

namespace Sentio.AptosModel
open LikePattern MoveTypes SqlText SqlQuery

abbrev Address := Text

inductive InnerPayload where
  | entryFunction (function : Text) (typeArguments : List Text)
  | script (typeArguments : List Text)
  | other

inductive Payload where
  | entryFunction (function : Text) (typeArguments : List Text)
  | script (typeArguments : List Text)
  | multisig (inner : Option InnerPayload)
  | other

inductive PayloadType where
  | entryFunction
  | script
  | multisig
  | unknown
  deriving DecidableEq

def Payload.type : Payload → PayloadType
  | .entryFunction _ _ => .entryFunction
  | .script _ => .script
  | .multisig _ => .multisig
  | .other => .unknown

inductive Body where
  | user (sender : Address) (payload : Payload)
  | genesis (payload : Payload)
  | other

def Body.payload : Body → Option Payload
  | .user _ payload | .genesis payload => some payload
  | .other => none

def Body.sender : Body → Option Address
  | .user sender _ => some sender
  | _ => none

structure Event where
  type : Text
  accountAddress : Option Address
  deriving DecidableEq

inductive Change where
  | writeResource (address : Option Address) (data : Option Text)
  | deleteResource (address : Option Address)
  | writeModule (address : Option Address)
  | deleteModule (address : Option Address)
  | other
  deriving DecidableEq

def Change.address : Change → Option Address
  | .writeResource a _ | .deleteResource a | .writeModule a | .deleteModule a => a
  | .other => none

/-- `GetChangeResourceType`: the type of a written resource, in its normal form. -/
def Change.resourceType : Change → Option Text
  | .writeResource _ data => data.map trimTypeString
  | _ => none

structure Transaction where
  version : ℕ
  success : Bool
  body : Body
  events : List Event
  changes : List Change

namespace Transaction

variable (tx : Transaction)

def entryFunction : Text :=
  match tx.body.payload with
  | some (.entryFunction f _) | some (.multisig (some (.entryFunction f _))) => f
  | _ => []

def entryFunctionTypeArguments : List Text :=
  match tx.body.payload with
  | some (.entryFunction _ args) | some (.multisig (some (.entryFunction _ args))) => args
  | _ => []

def payloadType : PayloadType :=
  match tx.body.payload with
  | some payload => payload.type
  | none => .unknown

end Transaction

/-- The columns that conditions look at; a transaction without a payload has an empty
`payload_type`. -/
structure Row where
  transactionVersion : ℕ
  success : Bool
  payloadType : Option PayloadType
  sender : Option Address
  entryFunction : Text
  entryFunctionTypeArguments : List Text
  events : List Event
  eventRawTypes : List Text
  eventCount : ℕ
  changeAddresses : List Text
  resourceRawTypes : List Text

def parsePayload : Payload → Text × List Text
  | .entryFunction f args => (f,args)
  | .script args => ([],args)
  | .multisig (some (.entryFunction f args)) => (f,args)
  | .multisig (some (.script args)) => ([],args)
  | .multisig _ | .other => ([],[])

def fromRawTransaction (tx : Transaction) : Row where
  transactionVersion := tx.version
  success := tx.success
  payloadType := tx.body.payload.map Payload.type
  sender := tx.body.sender
  entryFunction := ((tx.body.payload.map parsePayload).getD ([],[])).1
  entryFunctionTypeArguments := ((tx.body.payload.map parsePayload).getD ([],[])).2
  events := tx.events
  eventRawTypes := tx.events.map fun ev => removeTypeArgs ev.type
  eventCount := tx.events.length
  changeAddresses := tx.changes.map fun c => c.address.getD []
  resourceRawTypes := tx.changes.map fun c => removeTypeArgs (c.resourceType.getD [])

structure EventFilter where
  type : MoveType
  guiAccountAddress : Option Address

namespace EventFilter

def isEmpty (f : EventFilter) : Bool := f.type.isAny && f.guiAccountAddress.isNone

def checkEvent (f : EventFilter) (ev : Event) : Bool :=
  includeTypeString f.type (some ev.type) &&
    match f.guiAccountAddress with
    | none => true
    | some a => ev.accountAddress = some a

def check (f : EventFilter) (tx : Transaction) : Bool := tx.events.any f.checkEvent

end EventFilter

structure FunctionFilter where
  functionPattern : MoveType
  checkTypeArguments : Bool
  typedArguments : List Text
  sender : Option Address

namespace FunctionFilter

def isEmpty (f : FunctionFilter) : Bool :=
  f.functionPattern.isAny && !f.checkTypeArguments && f.sender.isNone

def check (f : FunctionFilter) (tx : Transaction) : Bool :=
  includeTypeString f.functionPattern (some tx.entryFunction) &&
    (!f.checkTypeArguments || tx.entryFunctionTypeArguments = f.typedArguments) &&
    match f.sender with
    | none => true
    | some s => tx.body.sender = some s

end FunctionFilter

structure TransactionFilter where
  eventFilters : List EventFilter
  functionFilters : List FunctionFilter
  failedIsOK : Bool
  multiSigTxnIsOK : Bool

def TransactionFilter.check (f : TransactionFilter) (tx : Transaction) : Bool :=
  (f.failedIsOK || tx.success) && (f.multiSigTxnIsOK || tx.payloadType ≠ .multisig) &&
    (f.eventFilters.any (·.check tx) || f.functionFilters.any (·.check tx))

structure TransactionFetchConfig where
  needAllEvents : Bool
  changeResourceTypes : List MoveType

def TransactionFetchConfig.pruneTransaction (config : TransactionFetchConfig)
    (tx : Transaction) (eventFilters : List EventFilter) : Transaction where
  version := tx.version
  success := tx.success
  body := tx.body
  events := if config.needAllEvents then tx.events
    else tx.events.filter fun ev => eventFilters.any (·.checkEvent ev)
  changes := tx.changes.filter fun c =>
    config.changeResourceTypes.any (includeTypeString · c.resourceType)

inductive RequestError where
  | outOfRange
  | emptyEventFilter
  deriving DecidableEq

inductive Arg where
  | num (n : ℕ)
  | text (s : Text)
  | texts (l : List Text)
  | payload (p : PayloadType)

abbrev Reader := Arg → Option (Row → Bool)

def versionFrom : Reader
  | .num n => some fun r => n ≤ r.transactionVersion
  | _ => none

def versionTo : Reader
  | .num n => some fun r => r.transactionVersion ≤ n
  | _ => none

def payloadTypeIsNot : Reader
  | .payload p => some fun r => r.payloadType ≠ some p
  | _ => none

def entryFunctionLike : Reader
  | .text s => (like s).map fun test r => test r.entryFunction
  | _ => none

def entryFunctionIs : Reader
  | .text s => some fun r => r.entryFunction = s
  | _ => none

def typeArgumentsAre : Reader
  | .texts l => some fun r => r.entryFunctionTypeArguments = l
  | _ => none

def senderIs : Reader
  | .text s => some fun r => r.sender = some s
  | _ => none

def eventTypeLike : Reader
  | .text s => (like s).map fun test r => r.eventRawTypes.any test
  | _ => none

def hasEventType : Reader
  | .text s => some fun r => r.eventRawTypes.any (· = s)
  | _ => none

/-- `JSONExtractString` gives the empty text for an event without an account address. -/
def eventAddressIs : Reader
  | .text s => some fun r => r.events.any fun ev => ev.accountAddress.getD [] = s
  | _ => none

def hasAnyChangeAddress : Reader
  | .texts l => some fun r => r.changeAddresses.any l.contains
  | _ => none

def hasAnyResourceType : Reader
  | .texts l => some fun r => r.resourceRawTypes.any l.contains
  | _ => none

def rangeParts (fromVersion toVersion : ℕ) : List (Part Arg Row) :=
  [.ofHole versionFrom (.num fromVersion),.ofHole versionTo (.num toVersion)]

def baseParts (filter : TransactionFilter) (fromVersion toVersion : ℕ) : List (Part Arg Row) :=
  rangeParts fromVersion toVersion++
    (if filter.failedIsOK then [] else [.ofPlain (·.success)])++
    (if filter.multiSigTxnIsOK then [] else [.ofHole payloadTypeIsNot (.payload .multisig)])++
    (if filter.eventFilters.isEmpty then [] else [.ofPlain fun r => 0 < r.eventCount])

def functionParts (ff : FunctionFilter) : List (Part Arg Row) :=
  (if ff.functionPattern.isAny then []
    else if ff.functionPattern.hasAny then
      [.ofHole entryFunctionLike (.text (likeText ff.functionPattern.string))]
    else [.ofHole entryFunctionIs (.text ff.functionPattern.string)])++
    (if ff.checkTypeArguments then [.ofHole typeArgumentsAre (.texts ff.typedArguments)]
      else [])++
    match ff.sender with
    | none => []
    | some s => [.ofHole senderIs (.text s)]

def eventParts (ef : EventFilter) : List (Part Arg Row) :=
  (if ef.type.isAny then []
    else if ef.type.mainHasAny then [.ofHole eventTypeLike (.text (likeText ef.type.main))]
    else [.ofHole hasEventType (.text ef.type.main)])++
    match ef.guiAccountAddress with
    | none => []
    | some a => [.ofHole eventAddressIs (.text a)]

/-- The loop over the function filters, which an empty one ends without taking back the
arguments that are there already. -/
def addFunctionFilters : List FunctionFilter → List (Cond Arg Row) → List Arg →
    List (Cond Arg Row) × List Arg
  | [], filters, args => (filters,args)
  | ff::rest, filters, args =>
    if ff.isEmpty then ([],args)
    else addFunctionFilters rest (filters++ [join .and ((functionParts ff).map Part.text)])
      (args++(functionParts ff).flatMap Part.args)

def addEventFilters : List EventFilter → List (Cond Arg Row) → List Arg →
    Except RequestError (List (Cond Arg Row) × List Arg)
  | [], filters, args => .ok (filters,args)
  | ef::rest, filters, args =>
    if ef.isEmpty then .error .emptyEventFilter
    else addEventFilters rest (filters++ [join .and ((eventParts ef).map Part.text)])
      (args++(eventParts ef).flatMap Part.args)

def whereCondition (filter : TransactionFilter) (fromVersion toVersion : ℕ) :
    Except RequestError (Cond Arg Row × List Arg) := do
  let base := baseParts filter fromVersion toVersion
  let first := addFunctionFilters filter.functionFilters [] (base.flatMap Part.args)
  let (filters,args) ← addEventFilters filter.eventFilters first.1 first.2
  let texts := base.map Part.text
  .ok (join .and (if filters.isEmpty then texts else texts++ [join .or filters]),args)

structure VersionRange where
  start : ℕ
  stop : ℕ

def VersionRange.contains (range : VersionRange) (version : ℕ) : Bool :=
  range.start ≤ version && version ≤ range.stop

structure GetTransactionsRequest where
  fromVersion : ℕ
  toVersion : ℕ
  filter : TransactionFilter
  fetchConfig : TransactionFetchConfig

def selected (req : GetTransactionsRequest) (tx : Transaction) : Transaction where
  version := tx.version
  success := tx.success
  body := tx.body
  events := if req.fetchConfig.needAllEvents || !req.filter.eventFilters.isEmpty
    then tx.events else []
  changes := if req.fetchConfig.changeResourceTypes.isEmpty then [] else tx.changes

def postFilter (req : GetTransactionsRequest) (tx : Transaction) : Option Transaction :=
  if req.filter.check (selected req tx) then
    some (req.fetchConfig.pruneTransaction (selected req tx) req.filter.eventFilters)
  else none

def queryTransactions (stored : VersionRange) (transactions : List Transaction)
    (req : GetTransactionsRequest) (limit : ℕ) :
    Except (QueryError RequestError) (List Transaction) :=
  if stored.contains req.fromVersion && stored.contains req.toVersion then
    match whereCondition req.filter req.fromVersion req.toVersion with
    | .error reason => .error (.request reason)
    | .ok (condition,args) =>
      query transactions fromRawTransaction condition args limit (postFilter req)
  else .error (.request .outOfRange)

/-- No address means any address, no resource type means that no change is taken. -/
structure ChangeFilter where
  address : List Address
  resourceTypes : List MoveType

def ChangeFilter.check (f : ChangeFilter) (c : Change) : Bool :=
  (f.address.isEmpty || match c.address with
    | none => false
    | some a => f.address.contains a) &&
    f.resourceTypes.any (includeTypeString · c.resourceType)

structure TransactionWithChanges where
  version : ℕ
  changes : List Change
  deriving DecidableEq

def changeParts (filter : ChangeFilter) (fromVersion toVersion : ℕ) : List (Part Arg Row) :=
  rangeParts fromVersion toVersion++
    (if filter.address.isEmpty then [] else [.ofHole hasAnyChangeAddress (.texts filter.address)])++
    (if filter.resourceTypes.isEmpty then []
      else [.ofHole hasAnyResourceType (.texts (filter.resourceTypes.map MoveType.main))])

def acceptedChanges (filter : ChangeFilter) (tx : Transaction) : Option TransactionWithChanges :=
  if tx.changes.filter filter.check = [] then none
  else some ⟨tx.version,tx.changes.filter filter.check⟩

def queryResourceChanges (stored : VersionRange) (transactions : List Transaction)
    (fromVersion toVersion : ℕ) (filter : ChangeFilter) (limit : ℕ) :
    Except (QueryError RequestError) (List TransactionWithChanges) :=
  if stored.contains fromVersion && stored.contains toVersion then
    let parts := changeParts filter fromVersion toVersion
    query transactions fromRawTransaction (join .and (parts.map Part.text))
      (parts.flatMap Part.args) limit (acceptedChanges filter)
  else .error (.request .outOfRange)

end Sentio.AptosModel
