import SentioCore.MoveTypes
import SentioCore.SqlQuery

/-!
# Queries of the Fuel store

A filter has optional parts for calls, coin transfers, logs and transfer
receipts, all of which a transaction has to meet; a list of filters takes what
one of them takes. In a row the values of each kind that a transaction mentions
are collected in a column. With one filter the query asks for the filter's value
in every column it constrains, with several filters for one of their values in
every column that any of them constrains. Addresses stand for their texts, the
rows of a table are listed by height and index.
-/

namespace Sentio.FuelModel
open MoveTypes (Text)
open SqlText SqlQuery

inductive ReceiptType where
  | call
  | log
  | logData
  | transfer
  | other
  deriving DecidableEq

structure Receipt where
  receiptType : ReceiptType
  id : Option Text
  toAddress : Option Text
  assetId : Option Text
  param1 : Option ℕ
  ra : Option ℕ
  rb : Option ℕ
  rc : Option ℕ
  rd : Option ℕ

inductive StatusType where
  | success
  | failure
  | other
  deriving DecidableEq

/-- Only a transaction that succeeded or failed has receipts. -/
inductive Status where
  | success (receipts : List Receipt)
  | failure (receipts : List Receipt)
  | other

def Status.typeName : Status → StatusType
  | .success _ => .success
  | .failure _ => .failure
  | .other => .other

def getTxnReceipt : Status → List Receipt
  | .success receipts | .failure receipts => receipts
  | .other => []

inductive Input where
  | inputCoin (assetId owner : Text)
  | other

/-- The coin, change and variable outputs send an asset to an owner. -/
inductive Output where
  | coinOutput (assetId recipient : Text)
  | changeOutput (assetId recipient : Text)
  | variableOutput (assetId recipient : Text)
  | other

structure Transaction where
  status : Status
  inputs : List Input
  outputs : List Output

/-- `strings.EqualFold` on hexadecimal texts. -/
def equalFold (s t : Text) : Bool := s.map Char.toLower = t.map Char.toLower

structure CallFilter where
  contractID : Text
  function : Option ℕ

def CallFilter.checkOne (f : CallFilter) (r : Receipt) : Bool :=
  r.receiptType = .call && r.toAddress.isSome && r.param1.isSome &&
    (f.contractID = [] || r.toAddress = some f.contractID) &&
    (f.function.isNone || f.function = r.param1)

/-- The index of the first receipt that the filter takes. -/
def CallFilter.check (f : CallFilter) (receipts : List Receipt) : Option ℕ :=
  receipts.findIdx? f.checkOne

structure TransferFilter where
  assetID : Text
  fromAddress : Text
  toAddress : Text

def Input.pair : Input → Option (Text × Text)
  | .inputCoin assetId owner => some (assetId,owner)
  | .other => none

def Output.pair : Output → Option (Text × Text)
  | .coinOutput assetId recipient => some (assetId,recipient)
  | .changeOutput assetId recipient | .variableOutput assetId recipient => some (assetId,recipient)
  | .other => none

/-- An empty text in the target matches everything. -/
def contains (pairs : List (Text × Text)) (assetID owner : Text) : Bool :=
  pairs.any fun p => (assetID = [] || assetID = p.1) && (owner = [] || owner = p.2)

def TransferFilter.check (f : TransferFilter) (tx : Transaction) : Bool :=
  let inputs := tx.inputs.filterMap Input.pair
  let outputs := tx.outputs.filterMap Output.pair
  (f.assetID = [] || contains inputs f.assetID [] || contains outputs f.assetID []) &&
    (f.fromAddress = [] || contains inputs f.assetID f.fromAddress) &&
    (f.toAddress = [] || contains outputs f.assetID f.toAddress)

structure LogFilter where
  contractID : Text
  logRa : Option ℕ
  logRb : Option ℕ
  logRc : Option ℕ
  logRd : Option ℕ

def registerIs (wanted actual : Option ℕ) : Bool := wanted.isNone || actual = wanted

def LogFilter.checkOne (f : LogFilter) (r : Receipt) : Bool :=
  (r.receiptType = .log || r.receiptType = .logData) &&
    (f.contractID = [] || r.id.any (equalFold f.contractID)) &&
    registerIs f.logRa r.ra && registerIs f.logRb r.rb && registerIs f.logRc r.rc &&
    registerIs f.logRd r.rd

structure ReceiptTransferFilter where
  assetID : Text
  fromAddress : Text
  toAddress : Text

def ReceiptTransferFilter.checkOne (f : ReceiptTransferFilter) (r : Receipt) : Bool :=
  r.receiptType = .transfer && (f.assetID = [] || r.assetId.any (equalFold f.assetID)) &&
    (f.fromAddress = [] || r.id.any (equalFold f.fromAddress)) &&
    (f.toAddress = [] || r.toAddress.any (equalFold f.toAddress))

def indexes (check : Receipt → Bool) (receipts : List Receipt) : List ℕ :=
  (receipts.zipIdx.filter fun p => check p.1).map Prod.snd

structure TransactionFilter where
  callFilter : Option CallFilter
  transferFilter : Option TransferFilter
  logFilter : Option LogFilter
  receiptTransferFilter : Option ReceiptTransferFilter
  excludeFailed : Bool

variable (f : TransactionFilter) (tx : Transaction)

def TransactionFilter.check : Bool :=
  let receipts := getTxnReceipt tx.status
  (!f.excludeFailed || tx.status.typeName = .success) &&
    f.callFilter.all (fun c => (c.check receipts).isSome) &&
    f.transferFilter.all (·.check tx) &&
    f.logFilter.all (fun l => !(indexes l.checkOne receipts).isEmpty) &&
    f.receiptTransferFilter.all fun t => !(indexes t.checkOne receipts).isEmpty

def checkTransaction (filters : List TransactionFilter) : Bool :=
  filters.isEmpty || filters.any (·.check tx)

inductive Column where
  | callContracts
  | callFunctions
  | assets
  | assetInputOwners
  | assetOutputOwners
  | logRaSet
  | logRbSet
  | logRcSet
  | logRdSet
  deriving DecidableEq

def columns : List Column :=
  [.callContracts,.callFunctions,.assets,.assetInputOwners,.assetOutputOwners,.logRaSet,
    .logRbSet,.logRcSet,.logRdSet]

inductive Value where
  | text (s : Text)
  | num (n : ℕ)
  deriving DecidableEq

structure Row where
  blockHeight : ℕ
  transactionIndex : ℕ
  status : StatusType
  values : Column → List Value

def logValues (register : Receipt → Option ℕ) (receipts : List Receipt) : List Value :=
  (receipts.filter fun r => r.receiptType = .log || r.receiptType = .logData).filterMap
    fun r => (register r).map .num

/-- What `Convert` writes into each column; map keys are given without their order. -/
def columnValues : Column → List Value
  | .callContracts => ((getTxnReceipt tx.status).filter (·.receiptType = .call)).filterMap
      fun r => r.toAddress.map .text
  | .callFunctions => ((getTxnReceipt tx.status).filter (·.receiptType = .call)).filterMap
      fun r => r.param1.map .num
  | .assets => ((tx.inputs.filterMap Input.pair++tx.outputs.filterMap Output.pair).map
      fun p => Value.text p.1).dedup
  | .assetInputOwners => ((tx.inputs.filterMap Input.pair).map fun p => Value.text p.2).dedup
  | .assetOutputOwners => ((tx.outputs.filterMap Output.pair).map fun p => Value.text p.2).dedup
  | .logRaSet => logValues Receipt.ra (getTxnReceipt tx.status)
  | .logRbSet => logValues Receipt.rb (getTxnReceipt tx.status)
  | .logRcSet => logValues Receipt.rc (getTxnReceipt tx.status)
  | .logRdSet => logValues Receipt.rd (getTxnReceipt tx.status)

structure WrappedTransaction where
  blockHeight : ℕ
  transactionIndex : ℕ
  transaction : Transaction

def convert (w : WrappedTransaction) : Row :=
  ⟨w.blockHeight,w.transactionIndex,w.transaction.status.typeName,columnValues w.transaction⟩

def someText (s : Text) : Option Value := if s = [] then none else some (.text s)

def wanted : Column → Option Value
  | .callContracts => f.callFilter.bind fun c => someText c.contractID
  | .callFunctions => f.callFilter.bind fun c => c.function.map .num
  | .assets => f.transferFilter.bind fun t => someText t.assetID
  | .assetInputOwners => f.transferFilter.bind fun t => someText t.fromAddress
  | .assetOutputOwners => f.transferFilter.bind fun t => someText t.toAddress
  | .logRaSet => f.logFilter.bind fun l => l.logRa.map .num
  | .logRbSet => f.logFilter.bind fun l => l.logRb.map .num
  | .logRcSet => f.logFilter.bind fun l => l.logRc.map .num
  | .logRdSet => f.logFilter.bind fun l => l.logRd.map .num

inductive Arg where
  | height (n : ℕ)
  | value (v : Value)
  | values (l : List Value)

abbrev Reader := Arg → Option (Row → Bool)

def heightFrom : Reader
  | .height n => some fun r => n ≤ r.blockHeight
  | _ => none

def heightTo : Reader
  | .height n => some fun r => r.blockHeight ≤ n
  | _ => none

def has (c : Column) : Reader
  | .value v => some fun r => (r.values c).contains v
  | _ => none

def hasAny (c : Column) : Reader
  | .values l => some fun r => (r.values c).any l.contains
  | _ => none

def singleParts : List (Part Arg Row) :=
  (if f.excludeFailed then [.ofPlain fun r => r.status = .success] else [])++
    columns.flatMap fun c => match wanted f c with
      | none => []
      | some v => [.ofHole (has c) (.value v)]

variable (filters : List TransactionFilter)

def collected (c : Column) : List Value :=
  filters.filterMap fun f => wanted f c

def severalParts : List (Part Arg Row) :=
  columns.flatMap fun c => if (collected filters c).isEmpty then []
    else [.ofHole (hasAny c) (.values (collected filters c))]

def filterParts : List TransactionFilter → List (Part Arg Row)
  | [] => []
  | [f] => singleParts f
  | f::g::rest => severalParts (f::g::rest)

def whereParts (startBlock endBlock : ℕ) : List (Part Arg Row) :=
  [.ofHole heightFrom (.height startBlock),.ofHole heightTo (.height endBlock)]++
    filterParts filters

/-- `toWrappedTransaction` on the columns that are selected: the index is not one of them. -/
def toWrappedTransaction (w : WrappedTransaction) : WrappedTransaction :=
  ⟨w.blockHeight,0,w.transaction⟩

def postFilter (w : WrappedTransaction) :
    Option WrappedTransaction :=
  if checkTransaction w.transaction filters then some (toWrappedTransaction w) else none

/-- The query makes no check of its own on the request. -/
def queryTransactions (stored : List WrappedTransaction) (startBlock endBlock : ℕ)
    (filters : List TransactionFilter) (limit : ℕ) :
    Except (QueryError Empty) (List WrappedTransaction) :=
  let parts := whereParts filters startBlock endBlock
  query stored convert (join .and (parts.map Part.text)) (parts.flatMap Part.args) limit
    (postFilter filters)

end Sentio.FuelModel
