import SentioCore.MoveTypes
import SentioCore.SqlQuery

/-!
# Queries of the Sui checkpoint store

Transactions and object changes are stored with index columns, and their filters
are applied as a condition on these columns and again on the record. The
condition is nested: `mergeCondition` joins parts by ` AND ` or ` OR ` and puts
brackets around more than one, so no parts at all give a pair of brackets with
nothing in between. Kinds of transactions and owners are given by their names.
What the fetch configuration keeps of a transaction is a parameter. The records
of a table are listed by checkpoint and transaction index.
-/

namespace Sentio.SuiModel
open LikePattern MoveTypes SqlText SqlQuery

structure MoveCall where
  package : Text
  moduleName : Text
  function : Text

/-- A command that is not a call answers with empty texts. -/
abbrev Command := Option MoveCall

def Command.package (cmd : Command) : Text := (cmd.map MoveCall.package).getD []

def Command.moduleName (cmd : Command) : Text := (cmd.map MoveCall.moduleName).getD []

def Command.function (cmd : Command) : Text := (cmd.map MoveCall.function).getD []

structure Event where
  eventType : Text
  sender : Text

abbrev Signature := Option (List (List UInt8))

structure Transaction where
  checkpoint : ℕ
  txIndex : ℕ
  kind : Text
  sender : Text
  commands : List Command
  signatures : List Signature
  success : Bool
  events : List Event
  balanceChanges : List Text

structure CommandFilter where
  callPackage : Option Text
  callModule : Option Text
  callFunction : Option Text

def textIs (wanted : Option Text) (actual : Text) : Bool :=
  match wanted with
  | none => true
  | some s => actual = s

def CommandFilter.checkGrpcCommand (f : CommandFilter) (cmd : Command) : Bool :=
  textIs f.callPackage cmd.package && textIs f.callModule cmd.moduleName &&
    textIs f.callFunction cmd.function

def CommandFilter.isEmpty (f : CommandFilter) : Bool :=
  f.callPackage.isNone && f.callModule.isNone && f.callFunction.isNone

def hexDigit (c : Char) : Option UInt8 :=
  if c.isDigit then some (UInt8.ofNat (c.toNat-48))
  else if 'a' ≤ c && c ≤ 'f' then some (UInt8.ofNat (c.toNat-87))
  else if 'A' ≤ c && c ≤ 'F' then some (UInt8.ofNat (c.toNat-55))
  else none

def decodeHex : Text → Option (List UInt8)
  | [] => some []
  | [_] => none
  | a::b::rest => do
    let high ← hexDigit a
    let low ← hexDigit b
    let later ← decodeHex rest
    some ((high*16+low)::later)

def trimHexPrefix (s : Text) : Text :=
  match s with
  | '0':: 'x'::rest => rest
  | _ => s

/-- The transaction has one signature, a multisig with a key that starts with the bytes. -/
def checkMultiSig (keyPrefix : Text) (signatures : List Signature) : Bool :=
  match decodeHex (trimHexPrefix keyPrefix), signatures with
  | some bytes, [some keys] => keys.any fun key => bytes.isPrefixOf key
  | _, _ => false

structure FunctionFilter where
  kind : Option Text
  commandFilter : Option CommandFilter
  multiSigPublicKeyPrefix : Option Text
  sender : Option Text
  receiver : Option Text
  failedIsOK : Bool

def FunctionFilter.checkGrpcTx (f : FunctionFilter) (tx : Transaction) : Bool :=
  textIs f.kind tx.kind &&
    f.commandFilter.all (fun c => tx.commands.any c.checkGrpcCommand) &&
    f.multiSigPublicKeyPrefix.all (fun p => checkMultiSig p tx.signatures) &&
    textIs f.sender tx.sender && f.receiver.all tx.balanceChanges.contains &&
    (f.failedIsOK || tx.success)

structure EventFilter where
  typePattern : List MoveType
  sender : Option Text

def EventFilter.checkGrpcEvent (f : EventFilter) (ev : Event) : Bool :=
  textIs f.sender ev.sender &&
    (f.typePattern.isEmpty || match buildType ev.eventType with
      | none => false
      | some t => f.typePattern.any (·.includes t))

def EventFilter.checkGrpcTx (f : EventFilter) (tx : Transaction) : Bool :=
  tx.events.any f.checkGrpcEvent

structure TransactionFilter where
  functionFilters : List FunctionFilter
  eventFilters : List EventFilter
  failedIsOK : Bool

def TransactionFilter.checkGrpcTx (f : TransactionFilter) (tx : Transaction) : Bool :=
  (f.failedIsOK || tx.success) &&
    (f.functionFilters.any (·.checkGrpcTx tx) || f.eventFilters.any (·.checkGrpcTx tx))

def mainType (s : Text) : Text := ((buildType s).map MoveType.main).getD []

structure TransactionRow where
  checkpoint : ℕ
  kind : Text
  sender : Text
  moveCallsPackage : List Text
  moveCallsModule : List Text
  moveCallsFunction : List Text
  success : Bool
  eventsSender : List Text
  eventsMainType : List Text
  balanceChangesAddress : List Text
  signatureCount : ℕ

/-- The index columns as `convert` fills them. -/
def convert (tx : Transaction) : TransactionRow where
  checkpoint := tx.checkpoint
  kind := tx.kind
  sender := tx.sender
  moveCallsPackage := tx.commands.filterMap fun cmd => cmd.map MoveCall.package
  moveCallsModule := tx.commands.filterMap fun cmd => cmd.map MoveCall.moduleName
  moveCallsFunction := tx.commands.filterMap fun cmd => cmd.map MoveCall.function
  success := tx.success
  eventsSender := tx.events.map Event.sender
  eventsMainType := tx.events.map fun ev => mainType ev.eventType
  balanceChangesAddress := tx.balanceChanges
  signatureCount := tx.signatures.length

inductive Arg where
  | num (n : ℕ)
  | text (s : Text)
  | texts (l : List Text)

abbrev Reader (R : Type) := Arg → Option (R → Bool)

variable {R : Type}

def numberFrom (column : R → ℕ) : Reader R
  | .num n => some fun r => n ≤ column r
  | _ => none

def numberTo (column : R → ℕ) : Reader R
  | .num n => some fun r => column r ≤ n
  | _ => none

variable (column : R → Text)

def equals : Reader R
  | .text s => some fun r => column r = s
  | _ => none

def isLike : Reader R
  | .text s => (like s).map fun test r => test (column r)
  | _ => none

def isIn : Reader R
  | .texts l => some fun r => l.contains (column r)
  | _ => none

variable (column : R → List Text)

def has : Reader R
  | .text s => some fun r => (column r).contains s
  | _ => none

def hasAny : Reader R
  | .texts l => some fun r => (column r).any l.contains
  | _ => none

def existsLike : Reader R
  | .text s => (like s).map fun test r => (column r).any test
  | _ => none

def mergeCondition (parts : List (Part Arg R)) (link : Link) : Part Arg R :=
  .linked link parts

def optionalPart (read : Reader R) : Option Text → List (Part Arg R)
  | none => []
  | some s => [.ofHole read (.text s)]

def checkpointParts (column : R → ℕ) (fromBlock toBlock : ℕ) : List (Part Arg R) :=
  [.ofHole (numberFrom column) (.num fromBlock),.ofHole (numberTo column) (.num toBlock)]

/-- The exact types in one comparison, then one for every pattern. -/
def typeConds (patterns : List MoveType) : List (Part Arg TransactionRow) :=
  let exactTypes := (patterns.filter (!·.mainHasAny)).map MoveType.main
  let likePatterns := (patterns.filter (·.mainHasAny)).map fun t => likeText t.main
  (if exactTypes.isEmpty then [] else
    [.ofHole (hasAny TransactionRow.eventsMainType) (.texts exactTypes)])++
    likePatterns.map fun p => .ofHole (existsLike TransactionRow.eventsMainType) (.text p)

def eventParts (ff : EventFilter) : List (Part Arg TransactionRow) :=
  (if !ff.typePattern.isEmpty && !ff.typePattern.any MoveType.mainIsAny
    then [mergeCondition (typeConds ff.typePattern) .or] else [])++
    optionalPart (has TransactionRow.eventsSender) ff.sender

def eventPart (ff : EventFilter) : Part Arg TransactionRow :=
  mergeCondition (if (eventParts ff).isEmpty
    then [.ofPlain fun r => !r.eventsMainType.isEmpty] else eventParts ff) .and

def commandParts (c : CommandFilter) : List (Part Arg TransactionRow) :=
  optionalPart (has TransactionRow.moveCallsPackage) c.callPackage++
    optionalPart (has TransactionRow.moveCallsModule) c.callModule++
    optionalPart (has TransactionRow.moveCallsFunction) c.callFunction

def callParts : Option CommandFilter → List (Part Arg TransactionRow)
  | none => []
  | some c => if c.isEmpty then [] else commandParts c

def functionParts (ff : FunctionFilter) : List (Part Arg TransactionRow) :=
  optionalPart (equals TransactionRow.kind) ff.kind++callParts ff.commandFilter++
    (if ff.multiSigPublicKeyPrefix.isSome
      then [.ofPlain fun r => r.signatureCount = 1] else [])++
    optionalPart (equals TransactionRow.sender) ff.sender++
    optionalPart (has TransactionRow.balanceChangesAddress) ff.receiver++
    if ff.failedIsOK then [] else [.ofPlain TransactionRow.success]

def filterParts (filter : TransactionFilter) : List (Part Arg TransactionRow) :=
  (if filter.eventFilters.isEmpty then []
    else [mergeCondition (filter.eventFilters.map eventPart) .or])++
    filter.functionFilters.map fun ff => mergeCondition (functionParts ff) .and

def transactionParts (filter : TransactionFilter) (fromBlock toBlock : ℕ) :
    List (Part Arg TransactionRow) :=
  checkpointParts TransactionRow.checkpoint fromBlock toBlock++
    (if filter.failedIsOK then [] else [.ofPlain TransactionRow.success])++
    if (filterParts filter).isEmpty then [] else [mergeCondition (filterParts filter) .or]

/-- The checkpoints that the store covers; it is empty when it stops before it starts. -/
structure CheckpointRange where
  start : ℕ
  stop : ℕ

def checkRange (stored : CheckpointRange) (fromBlock toBlock : ℕ) : Bool :=
  if fromBlock = 0 then stored.start ≤ toBlock && toBlock ≤ stored.stop
  else toBlock < fromBlock || (stored.start ≤ fromBlock && toBlock ≤ stored.stop)

inductive RequestError where
  | outOfRange
  deriving DecidableEq

/-- The scan of `queryTransactions` and `queryObjectChanges`. -/
def queryRecords {R X T : Type} (stored : CheckpointRange) (records : List X) (columns : X → R)
    (conditions : List (Part Arg R)) (fromBlock toBlock limit : ℕ) (post : X → Option T) :
    Except (QueryError RequestError) (List T) :=
  if checkRange stored fromBlock toBlock then
    query records columns (join .and (conditions.map Part.text)) (conditions.flatMap Part.args)
      limit post
  else .error (.request .outOfRange)

def postFilter {T : Type} (filter : TransactionFilter) (prune : Transaction → T)
    (tx : Transaction) : Option T :=
  if filter.checkGrpcTx tx then some (prune tx) else none

def queryTransactions {T : Type} (stored : CheckpointRange) (transactions : List Transaction)
    (fromBlock toBlock : ℕ) (filter : TransactionFilter) (prune : Transaction → T)
    (limit : ℕ) : Except (QueryError RequestError) (List T) :=
  queryRecords stored transactions convert (transactionParts filter fromBlock toBlock) fromBlock
    toBlock limit (postFilter filter prune)

structure Owner where
  kind : Text
  address : Text
  deriving DecidableEq

structure Object where
  checkpoint : ℕ
  txIndex : ℕ
  isCreated : Bool
  isDeleted : Bool
  objectID : Text
  owner : Owner
  preOwner : Owner
  objectType : Text
  objectMainType : Text
  deriving DecidableEq

structure ExtendedChangedObject where
  checkpoint : ℕ
  txIndex : ℕ
  objectId : Text
  inputOwner : Option Owner
  outputOwner : Option Owner
  objectType : Text

/-- A created object has no owner before the change, a deleted one none after it. -/
def Object.toChangedObject (obj : Object) : ExtendedChangedObject where
  checkpoint := obj.checkpoint
  txIndex := obj.txIndex
  objectId := obj.objectID
  inputOwner := if obj.isCreated then none else some obj.preOwner
  outputOwner := if obj.isDeleted then none else some obj.owner
  objectType := obj.objectType

structure OwnerFilter where
  ownerID : List Text
  ownerType : List Text

def OwnerFilter.checkerGrpc (f : OwnerFilter) (oc : ExtendedChangedObject) : Bool :=
  !f.ownerID.isEmpty && (f.ownerID.contains oc.objectId ||
    oc.inputOwner.any (fun o => f.ownerID.contains o.address && f.ownerType.contains o.kind) ||
    oc.outputOwner.any fun o => f.ownerID.contains o.address && f.ownerType.contains o.kind)

structure ObjectChangeFilter where
  typePattern : List MoveType
  ownerFilter : Option OwnerFilter
  objectIDIn : List Text

def ObjectChangeFilter.checkerGrpc (f : ObjectChangeFilter) (oc : ExtendedChangedObject) : Bool :=
  f.typePattern.any (includeTypeString · (some oc.objectType)) ||
    f.ownerFilter.any (·.checkerGrpc oc) || f.objectIDIn.contains oc.objectId

def ownerParts (f : OwnerFilter) : List (Part Arg Object) :=
  if f.ownerID.isEmpty then [] else
    [.ofHole (isIn Object.objectID) (.texts f.ownerID)]++
      if f.ownerType.isEmpty then [] else
        [.linked .and
          [.linked .or [.ofHole (isIn fun o => o.owner.address) (.texts f.ownerID),
              .ofHole (isIn fun o => o.preOwner.address) (.texts f.ownerID)],
            .linked .or [.ofHole (isIn fun o => o.owner.kind) (.texts f.ownerType),
              .ofHole (isIn fun o => o.preOwner.kind) (.texts f.ownerType)]]]

def ownerFilterParts : Option OwnerFilter → List (Part Arg Object)
  | none => []
  | some f => ownerParts f

def typePart (t : MoveType) : Part Arg Object :=
  if t.hasArgs && !t.hasAny then .ofHole (equals Object.objectType) (.text t.string)
  else if !t.mainHasAny then .ofHole (equals Object.objectMainType) (.text t.main)
  else .ofHole (isLike Object.objectMainType) (.text (likeText t.main))

variable (filter : ObjectChangeFilter)

def objectFilterParts : List (Part Arg Object) :=
  ownerFilterParts filter.ownerFilter++filter.typePattern.map typePart++
    if filter.objectIDIn.isEmpty then []
      else [.ofHole (isIn Object.objectID) (.texts filter.objectIDIn)]

def objectParts (fromBlock toBlock : ℕ) : List (Part Arg Object) :=
  checkpointParts Object.checkpoint fromBlock toBlock++
    if (objectFilterParts filter).isEmpty then []
      else [mergeCondition (objectFilterParts filter) .or]

def objectPostFilter (obj : Object) : Option ExtendedChangedObject :=
  if filter.checkerGrpc obj.toChangedObject then some obj.toChangedObject else none

def queryObjectChanges (stored : CheckpointRange) (objects : List Object)
    (fromBlock toBlock : ℕ) (filter : ObjectChangeFilter) (limit : ℕ) :
    Except (QueryError RequestError) (List ExtendedChangedObject) :=
  queryRecords stored objects id (objectParts filter fromBlock toBlock) fromBlock toBlock limit
    (objectPostFilter filter)

end Sentio.SuiModel
