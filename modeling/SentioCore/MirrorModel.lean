import SentioCore.MirrorMap

/-!
# The network state and its mirror

A plain state holds the indexers, processor allocations, processors, databases,
table schemas, permissions and operators of the network. The mirrored state pairs
it with seven mappings for other readers. Each operation changes the plain state
and sends the mirror a difference; a full synchronisation adds what the state
holds, and a replacement sends the difference between two states. Go visits the
allocations of a processor in any order.
-/

namespace Sentio.MirrorModel
open MirrorMap

structure IndexerInfo where
  indexerId : UInt64
  indexerUrl : String
  computeNodeRpcPort : UInt16
  storageNodeRpcPort : UInt16
  clickhouseProxyPort : UInt16
  signer : String
  deriving DecidableEq

structure ProcessorAllocation where
  processorId : String
  indexerId : UInt64
  deriving DecidableEq

structure ProcessorInfo where
  processorId : String
  entitySchema : String
  entitySchemaVersion : Int32
  deriving DecidableEq

inductive DatabaseType where
  | user
  | processor
  deriving DecidableEq

structure TableInfo where
  tableId : String
  tableType : String
  schemaVersion : UInt32
  schemaHash : String
  deriving DecidableEq

structure TableSchemaInfo where
  databaseId : String
  tableId : String
  version : UInt32
  schemaHash : String
  schemaJson : String
  deriving DecidableEq

structure DatabaseInfo where
  databaseId : String
  dbType : DatabaseType
  indexerId : UInt64
  processorId : String
  pendingDelete : Bool
  tables : List TableInfo
  deriving DecidableEq

structure PlainState where
  lastBlock : UInt64
  processorAllocations : Map String (Map UInt64 ProcessorAllocation)
  processorInfos : Map String ProcessorInfo
  indexerInfos : Map UInt64 IndexerInfo
  hostedProcessors : Map String Bool
  databases : Map String DatabaseInfo
  tableSchemas : Map String TableSchemaInfo
  databasePermissions : Map String (Map String String)
  operators : Map String (Map String Bool)

structure Mirror where
  indexerInfos : Map String IndexerInfo
  processorAllocations : Map String (List ProcessorAllocation)
  processorInfos : Map String ProcessorInfo
  databases : Map String DatabaseInfo
  tableSchemas : Map String TableSchemaInfo
  databasePermissions : Map String (Map String String)
  operators : Map String (List String)

structure StateMirrored where
  inner : PlainState
  mirror : Mirror

def decimal (n : UInt64) : String := String.ofList (Nat.toDigits 10 n.toNat)

theorem decimal_injective : Function.Injective decimal := by
  intro a b h
  have hl : Nat.toDigits 10 a.toNat = Nat.toDigits 10 b.toNat := by
    simpa [decimal] using congrArg String.toList h
  apply UInt64.toNat_inj.mp
  rw [← Nat.ofDigitChars_ten_toDigits (n := a.toNat),hl,Nat.ofDigitChars_ten_toDigits]

def tableSchemaKey (databaseId tableId : String) (version : UInt32) : String :=
  databaseId ++ "/" ++ tableId ++ "@" ++ toString version.toNat

section
variable {κ V : Type} [DecidableEq κ]

def isEmptyMap (m : Map κ V) : Bool := m.entries.isEmpty

def values (m : Map κ V) : List V := m.entries.map Sigma.snd

def nonEmpty (m : Map κ V) : Option (Map κ V) := if isEmptyMap m then none else some m

/-- Deletion from the map of a key; a map that becomes empty is dropped. -/
def deleteNested {ι : Type} [DecidableEq ι] (m : Map κ (Map ι V)) (k : κ) (inner : Map ι V)
    (i : ι) : Map κ (Map ι V) :=
  if isEmptyMap (inner.erase i) then m.erase k else m.insert k (inner.erase i)

end

namespace PlainState

variable (s : PlainState)

def upsertIndexerInfo (info : IndexerInfo) : PlainState :=
  {s with indexerInfos := s.indexerInfos.insert info.indexerId info}

def deleteIndexerInfo (indexerId : UInt64) : PlainState :=
  {s with indexerInfos := s.indexerInfos.erase indexerId}

def upsertProcessorAllocation (a : ProcessorAllocation) : PlainState :=
  {s with
    processorAllocations := s.processorAllocations.insert a.processorId
      (((s.processorAllocations.lookup a.processorId).getD ∅).insert a.indexerId a)}

/-- A processor without allocations makes the deletion panic. -/
def deleteProcessorAllocation (processorId : String) (indexerId : UInt64) :
    Option PlainState :=
  (s.processorAllocations.lookup processorId).map (fun m =>
    {s with processorAllocations := deleteNested s.processorAllocations processorId m indexerId})

def upsertProcessorInfo (info : ProcessorInfo) : PlainState :=
  {s with processorInfos := s.processorInfos.insert info.processorId info}

def deleteProcessorInfo (processorId : String) : PlainState :=
  {s with processorInfos := s.processorInfos.erase processorId}

def upsertHostedProcessor (processorId : String) : PlainState :=
  {s with hostedProcessors := s.hostedProcessors.insert processorId true}

def deleteHostedProcessor (processorId : String) : PlainState :=
  {s with hostedProcessors := s.hostedProcessors.erase processorId}

def upsertDatabase (info : DatabaseInfo) : PlainState :=
  {s with databases := s.databases.insert info.databaseId info}

/-- The permissions on the database go with it. -/
def dropPermission (databaseId : String) (perms : Map String String) : Option (Map String String) :=
  if databaseId ∈ perms.keys then nonEmpty (perms.erase databaseId) else some perms

def deleteDatabase (databaseId : String) : PlainState :=
  {s with
    databases := s.databases.erase databaseId
    databasePermissions :=
      filterMapValues (fun _ perms => dropPermission databaseId perms) s.databasePermissions}

def changeDatabase (databaseId : String) (f : DatabaseInfo → DatabaseInfo) :
    Option PlainState :=
  (s.databases.lookup databaseId).map (fun info =>
    {s with databases := s.databases.insert databaseId (f info)})

def markDatabasePendingDelete (databaseId : String) : Option PlainState :=
  s.changeDatabase databaseId (fun info => {info with pendingDelete := true})

def upsertTable (table : TableInfo) : List TableInfo → List TableInfo
  | [] => [table]
  | t::rest => if t.tableId = table.tableId then table::rest else t::upsertTable table rest

def upsertDatabaseTable (databaseId : String) (table : TableInfo) :
    Option PlainState :=
  s.changeDatabase databaseId (fun info => {info with tables := upsertTable table info.tables})

/-- A missing database is no error here. -/
def deleteDatabaseTable (databaseId tableId : String) : PlainState :=
  (s.changeDatabase databaseId (fun info =>
    {info with tables := info.tables.filter (fun t => t.tableId ≠ tableId)})).getD s

def upsertTableSchema (info : TableSchemaInfo) : PlainState :=
  {s with tableSchemas :=
    s.tableSchemas.insert (tableSchemaKey info.databaseId info.tableId info.version) info}

def setDatabasePermission (account databaseId permission : String) : PlainState :=
  {s with
    databasePermissions := s.databasePermissions.insert account
      (((s.databasePermissions.lookup account).getD ∅).insert databaseId permission)}

def deleteDatabasePermission (account databaseId : String) : PlainState :=
  match s.databasePermissions.lookup account with
  | none => s
  | some perms =>
    {s with databasePermissions := deleteNested s.databasePermissions account perms databaseId}

def isOperator (account signer : String) : Bool :=
  if account = "" ∨ signer = "" then false
  else if account = signer then true
  else ((s.operators.lookup account).bind (fun ops => ops.lookup signer)).getD false

def addOperator (account signer : String) : PlainState :=
  {s with
    operators := s.operators.insert account
      (((s.operators.lookup account).getD ∅).insert signer true)}

def removeOperator (account signer : String) : PlainState :=
  match s.operators.lookup account with
  | none => s
  | some ops => {s with operators := deleteNested s.operators account ops signer}

end PlainState

/-- An order in which the loop over the allocations of a processor may visit them. -/
abbrev Iteration : Type :=
  {visit : List ProcessorAllocation → List ProcessorAllocation // ∀ l, (visit l).Perm l}

def sortStrings (l : List String) : List String := l.mergeSort (fun a b => a ≤ b)

/-- The signers of an account, sorted; an account without signers is left out. -/
def flattenSigners (ops : Map String Bool) : Option (List String) :=
  if isEmptyMap ops then none else some (sortStrings ops.keys)

def flattenOperators (m : Map String (Map String Bool)) : Map String (List String) :=
  filterMapValues (fun _ ops => flattenSigners ops) m

def stringKeyMap (m : Map UInt64 IndexerInfo) : Map String IndexerInfo :=
  mapKeys decimal decimal_injective m

def flattenAllocations (order : String → Iteration)
    (m : Map String (Map UInt64 ProcessorAllocation)) : Map String (List ProcessorAllocation) :=
  filterMapValues (fun processorId byIndexer => some ((order processorId).1 (values byIndexer))) m

/-- The mirror that shows the state. -/
def PlainState.projection (s : PlainState) (order : String → Iteration) : Mirror :=
  ⟨stringKeyMap s.indexerInfos,flattenAllocations order s.processorAllocations,s.processorInfos,
    s.databases,s.tableSchemas,s.databasePermissions,flattenOperators s.operators⟩

/-- The mappings in the order in which a replacement visits them. -/
inductive Mapping where
  | indexerInfos
  | processorAllocations
  | processorInfos
  | databases
  | tableSchemas
  | databasePermissions
  | operators

abbrev Mapping.Value : Mapping → Type
  | indexerInfos => IndexerInfo
  | processorAllocations => List ProcessorAllocation
  | processorInfos => ProcessorInfo
  | databases => DatabaseInfo
  | tableSchemas => TableSchemaInfo
  | databasePermissions => Map String String
  | operators => List String

def Mirror.get (m : Mirror) : (x : Mapping) → Map String x.Value
  | .indexerInfos => m.indexerInfos
  | .processorAllocations => m.processorAllocations
  | .processorInfos => m.processorInfos
  | .databases => m.databases
  | .tableSchemas => m.tableSchemas
  | .databasePermissions => m.databasePermissions
  | .operators => m.operators

/-- A call of `ReplaceInner` that fails after `ran` commands, two for each mapping. -/
structure Attempt where
  ps : PlainState
  before : String → Iteration
  after : String → Iteration
  ran : ℕ

namespace StateMirrored

variable (s : StateMirrored)

def syncProcessorAllocations (order : Iteration) (processorId : String) :
    StateMirrored :=
  let allocations := order.1
    (((s.inner.processorAllocations.lookup processorId).map values).getD [])
  {s with
    mirror.processorAllocations := syncKey s.mirror.processorAllocations processorId
      (if allocations.isEmpty then none else some allocations)}

def syncOperatorsForAccount (account : String) : StateMirrored :=
  {s with
    mirror.operators := syncKey s.mirror.operators account
      ((s.inner.operators.lookup account).bind flattenSigners)}

def syncAccountDatabasePermissions (account : String) : StateMirrored :=
  {s with
    mirror.databasePermissions := syncKey s.mirror.databasePermissions account
      ((s.inner.databasePermissions.lookup account).bind nonEmpty)}

def syncDatabase (databaseId : String) : StateMirrored :=
  {s with
    mirror.databases := syncKey s.mirror.databases databaseId
      (s.inner.databases.lookup databaseId)}

def syncTableSchema (key : String) : StateMirrored :=
  {s with
    mirror.tableSchemas := syncKey s.mirror.tableSchemas key
      (s.inner.tableSchemas.lookup key)}

/-- Six mappings are only added to; the table schemas are replaced. -/
def syncMirror (order : String → Iteration) : StateMirrored :=
  {s with mirror :=
    { indexerInfos := apply s.mirror.indexerInfos ⟨stringKeyMap s.inner.indexerInfos,[]⟩
      processorAllocations := apply s.mirror.processorAllocations
        ⟨flattenAllocations order s.inner.processorAllocations,[]⟩
      processorInfos := apply s.mirror.processorInfos ⟨s.inner.processorInfos,[]⟩
      databases := apply s.mirror.databases ⟨s.inner.databases,[]⟩
      tableSchemas := s.inner.tableSchemas
      databasePermissions := apply s.mirror.databasePermissions
        ⟨s.inner.databasePermissions,[]⟩
      operators := apply s.mirror.operators ⟨flattenOperators s.inner.operators,[]⟩ }}

def replaceInner (ps : PlainState) (before after : String → Iteration) :
    StateMirrored :=
  { inner := ps
    mirror :=
    { indexerInfos := apply s.mirror.indexerInfos
        (diff (stringKeyMap s.inner.indexerInfos) (stringKeyMap ps.indexerInfos))
      processorAllocations := apply s.mirror.processorAllocations
        (diff (flattenAllocations before s.inner.processorAllocations)
          (flattenAllocations after ps.processorAllocations))
      processorInfos := apply s.mirror.processorInfos
        (diff s.inner.processorInfos ps.processorInfos)
      databases := apply s.mirror.databases (diff s.inner.databases ps.databases)
      tableSchemas := apply s.mirror.tableSchemas (diff s.inner.tableSchemas ps.tableSchemas)
      databasePermissions := apply s.mirror.databasePermissions
        (diff s.inner.databasePermissions ps.databasePermissions)
      operators := apply s.mirror.operators
        (diff (flattenOperators s.inner.operators) (flattenOperators ps.operators)) }}

def diffPart (a : Attempt) (x : Mapping) : Map String x.Value :=
  applyPart (a.ran-2*x.ctorIdx) (s.mirror.get x)
    (diff ((s.inner.projection a.before).get x) ((a.ps.projection a.after).get x))

/-- The inner state is replaced only after the last mapping. -/
def failReplace (a : Attempt) : StateMirrored :=
  {s with mirror := ⟨s.diffPart a .indexerInfos,s.diffPart a .processorAllocations,
    s.diffPart a .processorInfos,s.diffPart a .databases,s.diffPart a .tableSchemas,
    s.diffPart a .databasePermissions,s.diffPart a .operators⟩}

/-- The accounts with a permission on the database. -/
def affectedAccounts (databaseId : String) : List String :=
  (s.inner.databasePermissions.entries.filter
    (fun e => databaseId ∈ e.2.keys)).map Sigma.fst

def deleteDatabase (databaseId : String) : StateMirrored :=
  (s.affectedAccounts databaseId).foldl syncAccountDatabasePermissions
    (syncDatabase {s with inner := s.inner.deleteDatabase databaseId} databaseId)

end StateMirrored

def newStateMirrored (state : PlainState) (mirror : Mirror) (order : String → Iteration) :
    StateMirrored :=
  StateMirrored.syncMirror ⟨state,mirror⟩ order

inductive Op where
  | updateLastBlock (block : UInt64)
  | upsertIndexerInfo (info : IndexerInfo)
  | deleteIndexerInfo (indexerId : UInt64)
  | upsertProcessorAllocation (allocation : ProcessorAllocation) (order : Iteration)
  | deleteProcessorAllocation (processorId : String) (indexerId : UInt64) (order : Iteration)
  | upsertProcessorInfo (info : ProcessorInfo)
  | deleteProcessorInfo (processorId : String)
  | upsertHostedProcessor (processorId : String)
  | deleteHostedProcessor (processorId : String)
  | upsertDatabase (info : DatabaseInfo)
  | deleteDatabase (databaseId : String)
  | markDatabasePendingDelete (databaseId : String)
  | upsertDatabaseTable (databaseId : String) (table : TableInfo)
  | deleteDatabaseTable (databaseId tableId : String)
  | upsertTableSchema (info : TableSchemaInfo)
  | setDatabasePermission (account databaseId permission : String)
  | deleteDatabasePermission (account databaseId : String)
  | addOperator (account signer : String)
  | removeOperator (account signer : String)
  | syncMirror (order : String → Iteration)
  | replaceInner (ps : PlainState) (before after : String → Iteration)

/-- An operation that fails or panics has no successor here. -/
def step (s : StateMirrored) : Op → Option StateMirrored
  | .updateLastBlock block => some {s with inner.lastBlock := block}
  | .upsertIndexerInfo info => some
    { inner := s.inner.upsertIndexerInfo info
      mirror := {s.mirror with
        indexerInfos := syncKey s.mirror.indexerInfos (decimal info.indexerId) (some info)} }
  | .deleteIndexerInfo indexerId => some
    { inner := s.inner.deleteIndexerInfo indexerId
      mirror := {s.mirror with
        indexerInfos := syncKey s.mirror.indexerInfos (decimal indexerId) none} }
  | .upsertProcessorAllocation a order => some
    (StateMirrored.syncProcessorAllocations {s with inner := s.inner.upsertProcessorAllocation a}
      order a.processorId)
  | .deleteProcessorAllocation processorId indexerId order =>
    (s.inner.deleteProcessorAllocation processorId indexerId).map (fun inner =>
      StateMirrored.syncProcessorAllocations {s with inner := inner} order processorId)
  | .upsertProcessorInfo info => some
    { inner := s.inner.upsertProcessorInfo info
      mirror := {s.mirror with
        processorInfos := syncKey s.mirror.processorInfos info.processorId (some info)} }
  | .deleteProcessorInfo processorId => some
    { inner := s.inner.deleteProcessorInfo processorId
      mirror := {s.mirror with
        processorInfos := syncKey s.mirror.processorInfos processorId none} }
  | .upsertHostedProcessor processorId =>
    some {s with inner := s.inner.upsertHostedProcessor processorId}
  | .deleteHostedProcessor processorId =>
    some {s with inner := s.inner.deleteHostedProcessor processorId}
  | .upsertDatabase info =>
    some (StateMirrored.syncDatabase {s with inner := s.inner.upsertDatabase info} info.databaseId)
  | .deleteDatabase databaseId => some (s.deleteDatabase databaseId)
  | .markDatabasePendingDelete databaseId =>
    (s.inner.markDatabasePendingDelete databaseId).map (fun inner =>
      StateMirrored.syncDatabase {s with inner := inner} databaseId)
  | .upsertDatabaseTable databaseId table =>
    (s.inner.upsertDatabaseTable databaseId table).map (fun inner =>
      StateMirrored.syncDatabase {s with inner := inner} databaseId)
  | .deleteDatabaseTable databaseId tableId => some
    (StateMirrored.syncDatabase
      {s with inner := s.inner.deleteDatabaseTable databaseId tableId} databaseId)
  | .upsertTableSchema info => some
    (StateMirrored.syncTableSchema {s with inner := s.inner.upsertTableSchema info}
      (tableSchemaKey info.databaseId info.tableId info.version))
  | .setDatabasePermission account databaseId permission => some
    (StateMirrored.syncAccountDatabasePermissions
      {s with inner := s.inner.setDatabasePermission account databaseId permission} account)
  | .deleteDatabasePermission account databaseId => some
    (StateMirrored.syncAccountDatabasePermissions
      {s with inner := s.inner.deleteDatabasePermission account databaseId} account)
  | .addOperator account signer => some
    (StateMirrored.syncOperatorsForAccount
      {s with inner := s.inner.addOperator account signer} account)
  | .removeOperator account signer => some
    (StateMirrored.syncOperatorsForAccount
      {s with inner := s.inner.removeOperator account signer} account)
  | .syncMirror order => some (s.syncMirror order)
  | .replaceInner ps before after => some (s.replaceInner ps before after)

end Sentio.MirrorModel
