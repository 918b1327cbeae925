import Mathlib.Data.String.Basic
import SentioCore.KeyedRows
import SentioCore.Transition

/-!
# The ClickHouse chain store and its caches

An entity table is the list of the rows written to it, oldest first. The queries
of the store read it as their SQL does: mutable types answer with the row of the
highest block of an id, immutable types read the rows themselves. For a
versioned collapsing table the list holds the rows of positive sign. Over the
tables the chain store keeps three caches: a least-recently-used cache of single
entities, the complete set of ids of a type, and the complete data of a sparse
type. What the first one evicts, and when, is left open: `Call.evict` may drop
any entry at any time. Every cache is keyed by the entity's name first, so that
the table and the caches of one entity are one record and a call acts on the
record of its entity.
-/

namespace Sentio.ChainStoreModel
open KeyedRows Function

structure EntityType where
  declaredImmutable : Bool
  timeSeries : Bool
  sparse : Bool
  int64ID : Bool
  dataSize : ℕ
deriving DecidableEq

def EntityType.isImmutable (t : EntityType) : Bool := t.timeSeries || t.declaredImmutable

structure EntityBox (δ : Type) where
  id : String
  data : Option δ
  genBlockNumber : ℕ
deriving DecidableEq

structure Options where
  versionedCollapsing : Bool
  batchInsertSizeLimit : ℕ
  defaultBatchInsertSize : ℕ
  fullCacheDataLimit : ℕ
  fullIDCacheMaxCount : ℕ
deriving Repr

def Options.batchSize (o : Options) : ℕ :=
  if o.batchInsertSizeLimit = 0 then o.defaultBatchInsertSize else o.batchInsertSizeLimit

def useVersionedCollapsingTable (o : Options) (t : EntityType) : Bool :=
  o.versionedCollapsing && !t.isImmutable

def fullCacheLimit (o : Options) (t : EntityType) : ℕ := o.fullCacheDataLimit / t.dataSize

section
variable {δ : Type}

def live (b : EntityBox δ) : Bool := b.data.isSome

def newest : List (EntityBox δ) → Option (EntityBox δ)
  | [] => none
  | b::rest =>
    match newest rest with
    | none => some b
    | some c => if c.genBlockNumber < b.genBlockNumber then some b else some c

variable (t : EntityType) (table : List (EntityBox δ))

/-- The query of `Store.getEntity`: without `ORDER BY` the scan keeps the last row. -/
def getRow (id : String) : Option (EntityBox δ) :=
  if t.isImmutable then lastOf EntityBox.id table id
  else newest (table.filter (fun b => b.id = id))

def grouped : List (EntityBox δ) :=
  if t.isImmutable then table else (table.map EntityBox.id).dedup.filterMap (getRow t table)

def selectRows (keep : EntityBox δ → Bool)
    (excludeDeleted : Bool) : List (EntityBox δ) :=
  (grouped t table).filter (fun b => (!excludeDeleted || live b) && keep b)

/-- `ORDER BY id`: by value where the id column is an integer. -/
def IdOrder (numericLe : String → String → Bool) (t : EntityType) (a b : EntityBox δ) : Prop :=
  if t.int64ID then numericLe a.id b.id = true else a.id ≤ b.id

instance (numericLe : String → String → Bool) (t : EntityType) :
    DecidableRel (IdOrder (δ := δ) numericLe t) := fun a b => by
  unfold IdOrder
  infer_instance

def listRows (numericLe : String → String → Bool) (t : EntityType) (table : List (EntityBox δ))
    (keep : EntityBox δ → Bool) (excludeDeleted : Bool) (limit : ℕ) : List (EntityBox δ) :=
  ((selectRows t table keep excludeDeleted).insertionSort (IdOrder numericLe t)).take limit

def countEntity (excludeDeleted : Bool) : ℕ :=
  if t.isImmutable then table.length
  else (selectRows t table (fun _ => true) excludeDeleted).length

def getAllID : List String :=
  if t.isImmutable then table.map EntityBox.id
  else (selectRows t table (fun _ => true) true).map EntityBox.id

def queryExistEntity (id : String) : Bool :=
  table.any (fun b => b.id = id)

structure Insertion (δ : Type) where
  table : List (EntityBox δ)
  doneIds : List String
  created : ℕ

def flush (t : EntityType) (existing : List (EntityBox δ) → String → Bool)
    (queue : List (EntityBox δ)) (p : Insertion δ) : Option (Insertion δ) :=
  let ids := (queue.map EntityBox.id).dedup
  let newIds := ids.filter (fun id => !p.doneIds.contains id)
  let existingInBatch := newIds.filter (existing p.table)
  if t.isImmutable && (newIds.length != ids.length || !existingInBatch.isEmpty) then none
  else some
    { table := p.table++queue
      doneIds := p.doneIds++newIds
      created := p.created+(newIds.length-existingInBatch.length) }

/-- The batches written so far stay written when a later one is refused. -/
def insertAll (t : EntityType) (existing : List (EntityBox δ) → String → Bool) (batchSize : ℕ) :
    List (EntityBox δ) → List (EntityBox δ) → Insertion δ → Insertion δ × Bool
  | queue, [], p =>
    if queue.isEmpty then (p,true)
    else match flush t existing queue p with
      | none => (p,false)
      | some q => (q,true)
  | queue, box::rest, p =>
    if batchSize ≤ queue.length+1 then
      match flush t existing (queue++[box]) p with
      | none => (p,false)
      | some q => insertAll t existing batchSize [] rest q
    else insertAll t existing batchSize (queue++[box]) rest p

def histories (order : List String) (boxes : List (EntityBox δ)) : List (EntityBox δ) :=
  order.flatMap (fun id => (boxes.filter (fun b => b.id = id)).insertionSort
    (fun a b => a.genBlockNumber ≤ b.genBlockNumber))

end

structure EntityStore (δ : Type) where
  table : List (EntityBox δ)
  lruCache : String → Option (EntityBox δ)
  fullIDCache : Option (List String)
  fullIDCacheRefused : Bool
  fullCache : Option (List (EntityBox δ))
  fullCacheRefused : Bool

section
variable {δ : Type}

def newEntityStore (table : List (EntityBox δ)) : EntityStore δ where
  table := table
  lruCache := fun _ => none
  fullIDCache := none
  fullIDCacheRefused := false
  fullCache := none
  fullCacheRefused := false

def purgeCache (s : EntityStore δ) : EntityStore δ := newEntityStore s.table

structure Loading (δ : Type) where
  store : EntityStore δ
  has : Bool
  loaded : Bool
  knownCount : Option ℕ

variable (o : Options) (t : EntityType) (s : EntityStore δ)

def tryLoadFullCache : Loading δ :=
  if s.fullCacheRefused || !t.sparse then ⟨s,false,false,none⟩
  else if s.fullCache.isSome then ⟨s,true,true,none⟩
  else
    let excludeDeleted := !useVersionedCollapsingTable o t
    let count := countEntity t s.table excludeDeleted
    if fullCacheLimit o t < count then
      ⟨{ s with fullCacheRefused := true },false,false,some count⟩
    else
      let rows := selectRows t s.table (fun _ => true) excludeDeleted
      ⟨{ s with fullCache := some (collapse EntityBox.id rows) },true,false,some count⟩

def tryLoadFullIDCache (knownCount : Option ℕ)
    (s : EntityStore δ) : EntityStore δ × Bool :=
  if s.fullIDCacheRefused then (s,false)
  else if s.fullIDCache.isSome then (s,true)
  else if o.fullIDCacheMaxCount < knownCount.getD (countEntity t s.table true) then
    ({ s with fullIDCacheRefused := true },false)
  else ({ s with fullIDCache := some (getAllID t s.table) },false)

def tryLoadCache : EntityStore δ × Bool :=
  let l := tryLoadFullCache o t s
  if l.has then (l.store,l.loaded) else tryLoadFullIDCache o t l.knownCount l.store

structure Reply (δ α : Type) where
  store : EntityStore δ
  answer : α
  fromCache : Bool

def readThrough (t : EntityType) (id : String) (fromCache : Bool) (s : EntityStore δ) :
    Reply δ (Option (EntityBox δ)) :=
  match s.lruCache id with
  | some box => ⟨s,some box,fromCache⟩
  | none =>
    match (getRow t s.table id).filter live with
    | none => ⟨s,none,false⟩
    | some box =>
      ⟨{ s with lruCache := update s.lruCache id (some box) },some box,false⟩

def getEntity (id : String) (s : EntityStore δ) :
    Reply δ (Option (EntityBox δ)) :=
  let l := tryLoadCache o t s
  match l.1.fullCache with
  | some m => ⟨l.1,(lookup EntityBox.id m id).filter live,l.2⟩
  | none =>
    if l.1.fullIDCache.any (fun ids => !ids.contains id) then ⟨l.1,none,l.2⟩
    else readThrough t id l.2 l.1

/-- The loop over the sorted ids of the full cache, with the room left under the limit. -/
def serve (check : EntityBox δ → Option Bool) : ℕ → List (EntityBox δ) → Option (List (EntityBox δ))
  | 0, _ | _, [] => some []
  | room+1, b::rest => (check b).bind fun pass =>
    if pass then (serve check room rest).map (b::·) else serve check (room+1) rest

def serveFullCache (check : EntityBox δ → Option Bool) (limit : ℕ) (m : List (EntityBox δ)) :
    Option (List (EntityBox δ)) :=
  serve check limit ((m.filter live).insertionSort (fun a b => a.id ≤ b.id))

/-- The list comes from the full cache under `CheckFilters` or from the database under the
conditions; `none` is an error. -/
def listEntities (numericLe : String → String → Bool) (o : Options) (t : EntityType)
    (check : EntityBox δ → Option Bool) (conditions : Option (EntityBox δ → Bool)) (limit : ℕ)
    (s : EntityStore δ) : Reply δ (Option (List (EntityBox δ))) :=
  let l := tryLoadFullCache o t s
  if l.has then ⟨l.store,serveFullCache check limit (l.store.fullCache.getD []),l.loaded⟩
  else ⟨l.store,conditions.map fun keep => listRows numericLe t l.store.table keep true limit,
    l.loaded⟩

/-- `knownExistingIDChecker` and `knownPreBoxGetter` where there is one, else the query. -/
def existing (table : List (EntityBox δ))
    (id : String) : Bool :=
  if t.timeSeries then false
  else match s.fullCache with
    | some m => (lookup EntityBox.id m id).any live
    | none =>
      if useVersionedCollapsingTable o t then queryExistEntity table id
      else match s.fullIDCache with
        | some ids => ids.contains id
        | none => queryExistEntity table id

def patchLRU (latest : List (EntityBox δ)) (lru : String → Option (EntityBox δ)) (id : String) :
    Option (EntityBox δ) :=
  match lookup EntityBox.id latest id with
  | some box => if live box then some box else none
  | none => lru id

def patchIDs (ids : List String) (box : EntityBox δ) : List String :=
  if live box then ids.insert box.id else ids.filter (fun id => id ≠ box.id)

def patchFull (versioned : Bool) (m : List (EntityBox δ)) (box : EntityBox δ) :
    List (EntityBox δ) :=
  if versioned || live box then upsert EntityBox.id m box else erase EntityBox.id m box.id

def patchCaches (latest : List (EntityBox δ))
    (s : EntityStore δ) : EntityStore δ :=
  if s.fullCacheRefused || !t.sparse then
    { s with
      lruCache := patchLRU latest s.lruCache
      fullIDCache := s.fullIDCache.map (fun ids => latest.foldl patchIDs ids) }
  else match s.fullCache with
    | none => s
    | some m =>
      let patched := latest.foldl (patchFull (useVersionedCollapsingTable o t)) m
      if fullCacheLimit o t < patched.length then
        { s with fullCache := none, fullCacheRefused := true }
      else { s with fullCache := some patched }

structure Written (δ : Type) where
  store : EntityStore δ
  created : ℕ
  ok : Bool

def setEntities (order : List String)
    (boxes : List (EntityBox δ)) (s : EntityStore δ) : Written δ :=
  let base := if t.timeSeries then s else (tryLoadCache o t s).1
  let p := insertAll t (existing o t base) o.batchSize [] (histories order boxes)
    ⟨base.table,[],0⟩
  let inserted := { base with table := p.1.table }
  if !p.2 || t.timeSeries then ⟨inserted,p.1.created,p.2⟩
  else ⟨patchCaches o t (collapse EntityBox.id boxes) inserted,p.1.created,true⟩

def reorgInTable (blockNumber : ℤ) (table : List (EntityBox δ)) : List (EntityBox δ) :=
  table.filter (fun b => (b.genBlockNumber : ℤ) ≤ blockNumber)

def evict (id : String) (s : EntityStore δ) : EntityStore δ :=
  { s with lruCache := update s.lruCache id none }

end

abbrev ChainStore (δ : Type) := String → EntityStore δ

def reorg {δ : Type} (blockNumber : ℤ) (s : ChainStore δ) : ChainStore δ :=
  fun n => { purgeCache (s n) with table := reorgInTable blockNumber (s n).table }

/-- A chain store over a schema. What filters select is said twice: by the conditions of the SQL
and, for the full cache, by `CheckFilters`. -/
structure Setting (δ φ : Type) where
  options : Options
  schema : String → EntityType
  buildConditions : φ → Option (EntityBox δ → Bool)
  checkFilters : φ → EntityBox δ → Option Bool
  numericLe : String → String → Bool

inductive Call (δ φ : Type) where
  | getEntity (n id : String)
  | listEntities (n : String) (filters : φ) (limit : ℕ)
  | setEntities (n : String) (order : List String) (boxes : List (EntityBox δ))
  | reorg (blockNumber : ℤ)
  | evict (n id : String)
deriving DecidableEq

section
variable {δ φ : Type} (c : Setting δ φ) (s : ChainStore δ)

def getEntityOf (n id : String) : Reply δ (Option (EntityBox δ)) :=
  getEntity c.options (c.schema n) id (s n)

def listEntitiesOf (n : String) (filters : φ) (limit : ℕ) :
    Reply δ (Option (List (EntityBox δ))) :=
  listEntities c.numericLe c.options (c.schema n) (c.checkFilters filters)
    (c.buildConditions filters) limit (s n)

def setEntitiesOf (n : String) (order : List String)
    (boxes : List (EntityBox δ)) : Written δ :=
  setEntities c.options (c.schema n) order boxes (s n)

def step : Call δ φ → Option (ChainStore δ)
  | .getEntity n id => some (update s n (getEntityOf c s n id).store)
  | .listEntities n filters limit =>
    some (update s n (listEntitiesOf c s n filters limit).store)
  | .setEntities n order boxes => some (update s n (setEntitiesOf c s n order boxes).store)
  | .reorg blockNumber => some (reorg blockNumber s)
  | .evict n id => some (update s n (evict id (s n)))

end
end Sentio.ChainStoreModel
