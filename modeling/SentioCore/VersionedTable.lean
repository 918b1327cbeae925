import SentioCore.KeyedRows
import SentioCore.Transition

/-!
# The versioned tables of an entity

Every write of an entity becomes a row of positive sign with the next version,
preceded by a row of negative sign that takes back the version before it. All
rows stay in the raw table. A materialized view copies them to the latest table,
where the database drops pairs of rows that cancel out, whenever it likes. The
pre-values come from the raw table or from the full cache of a chain store. A
reorg deletes the rows of later blocks from both tables, and builds the latest
table anew from the raw one when the counts of the ids differ.
-/

namespace Sentio.VersionedTable
open KeyedRows Function

structure GenBlock where
  number : ℕ
  time : ℤ
  hash : String
  deriving DecidableEq

section
variable {δ ε : Type}

structure Box (δ : Type) where
  id : String
  data : Option δ
  gen : GenBlock
  deriving DecidableEq

structure EntityRow (δ : Type) extends Box δ where
  chain : String
  sign : ℤ
  version : ℕ
  deriving DecidableEq

structure Row (ε : Type) where
  chain : String
  id : String
  data : ε
  deleted : Bool
  gen : GenBlock
  sign : ℤ
  version : ℕ
  deriving DecidableEq

/-- How the fields of an entity become columns and back. -/
structure Kit (δ ε : Type) where
  fieldValuesForSet : δ → ε
  fieldValueFromGet : ε → δ
  zeroData : δ
  batchSize : ℕ

variable (kit : Kit δ ε)

def Kit.valuesForSet (row : EntityRow δ) : Row ε where
  chain := row.chain
  id := row.id
  data := kit.fieldValuesForSet (row.data.getD kit.zeroData)
  deleted := row.data.isNone
  gen := row.gen
  sign := row.sign
  version := row.version

/-- The sign is not among the columns of a query. -/
def Kit.scanOne (row : Row ε) : EntityRow δ where
  id := row.id
  data := if row.deleted then none else some (kit.fieldValueFromGet row.data)
  gen := row.gen
  chain := row.chain
  sign := 0
  version := row.version

variable (rows : List (Row ε))

def rowsAt (chain id : String) (version : ℕ) : List (Row ε) :=
  rows.filter (fun r => r.chain = chain ∧ r.id = id ∧ r.version = version)

def signSum (chain id : String) (version : ℕ) : ℤ :=
  ((rowsAt rows chain id version).map Row.sign).sum

/-- `GROUP BY id, version HAVING SUM(sign) > 0` in one chain. -/
def liveGroups (chain : String) : List (String × ℕ) :=
  ((rows.filter (fun r => r.chain = chain)).map (fun r => (r.id,r.version))).dedup.filter
    (fun g => 0 < signSum rows chain g.1 g.2)

/-- A group is answered with any one of its rows. -/
def listEntities (raw : List (Row ε)) (chain : String) (keep : String → Bool) :
    List (EntityRow δ) :=
  let rows := raw.filter (fun r => keep r.id)
  (liveGroups rows chain).filterMap
    (fun g => (rowsAt rows chain g.1 g.2).head?.map kit.scanOne)

structure CachedEntityBox (δ : Type) where
  box : Box δ
  version : ℕ
  deriving DecidableEq

structure Tables (δ ε : Type) where
  raw : List (Row ε)
  latest : List (Row ε)
  log : List (String × Box δ)

/-- The state of the loop over the batches. -/
structure Insertion (δ ε : Type) where
  tables : Tables δ ε
  preBoxes : String → Option (EntityRow δ)
  doneIds : List String
  created : ℤ
  batchIndex : ℕ

def preparePreBoxes (chain : String)
    (getter : Option (String → Option (CachedEntityBox δ))) (newIds : List String)
    (p : Insertion δ ε) : (String → Option (EntityRow δ)) × ℤ :=
  match getter with
  | some get =>
    let known := fun id => (p.preBoxes id).or (if id ∈ newIds then
      (get id).map (fun c => {c.box with chain := chain, sign := 1, version := c.version}) else none)
    let existing := newIds.filter (fun id => (known id).any (fun r => r.data.isSome))
    (known,newIds.length-existing.length)
  | none =>
    let found := listEntities kit p.tables.raw chain (fun id => id ∈ newIds)
    (fun id => (lastOf (fun r : EntityRow δ => r.id) found id).or (p.preBoxes id),
      newIds.length-found.length)

def writeBox (chain : String) (p : List (Row ε) × (String → Option (EntityRow δ)))
    (box : Box δ) : List (Row ε) × (String → Option (EntityRow δ)) :=
  match p.2 box.id with
  | none =>
    let cur : EntityRow δ := {box with chain := chain, sign := 1, version := 1}
    (p.1++[kit.valuesForSet cur],update p.2 box.id (some cur))
  | some pre =>
    let cur : EntityRow δ := {box with chain := chain, sign := 1, version := pre.version+1}
    let undo : EntityRow δ := {pre with sign := -1, gen := box.gen}
    (p.1++[kit.valuesForSet undo,kit.valuesForSet cur],update p.2 box.id (some cur))

section
variable [DecidableEq ε]

def Cancels (a b : Row ε) : Prop :=
  a.chain = b.chain ∧ a.id = b.id ∧ a.version = b.version ∧ a.sign+b.sign = 0

instance (a b : Row ε) : Decidable (Cancels a b) :=
  inferInstanceAs (Decidable (_ ∧ _ ∧ _ ∧ _))

def collapsePair (rows : List (Row ε)) (pair : Row ε × Row ε) : List (Row ε) :=
  if pair.1 ∈ rows ∧ pair.2 ∈ rows.erase pair.1 ∧ Cancels pair.1 pair.2 then
    (rows.erase pair.1).erase pair.2
  else rows

/-- What the database merges away, pair by pair. -/
def collapse (rows : List (Row ε)) (merges : List (Row ε × Row ε)) : List (Row ε) :=
  merges.foldl collapsePair rows

def flush (kit : Kit δ ε) (chain : String) (getter : Option (String → Option (CachedEntityBox δ)))
    (merges : ℕ → List (Row ε × Row ε)) (queue : List (Box δ)) (p : Insertion δ ε) :
    Insertion δ ε :=
  let ids := (queue.map Box.id).dedup
  let newIds := ids.filter (fun id => id ∉ p.doneIds)
  let prepared := preparePreBoxes kit chain getter newIds p
  let written := queue.foldl (writeBox kit chain) ([],prepared.1)
  { tables :=
      { raw := p.tables.raw++written.1
        latest := collapse (p.tables.latest++written.1) (merges p.batchIndex)
        log := p.tables.log++queue.map (fun b => (chain,b)) }
    preBoxes := written.2
    doneIds := p.doneIds++newIds
    created := p.created+prepared.2
    batchIndex := p.batchIndex+1 }

def insertAll (kit : Kit δ ε) (chain : String)
    (getter : Option (String → Option (CachedEntityBox δ))) (merges : ℕ → List (Row ε × Row ε)) :
    List (Box δ) → List (Box δ) → Insertion δ ε → Insertion δ ε
  | queue, [], p => if queue.isEmpty then p else flush kit chain getter merges queue p
  | queue, box::rest, p =>
    if kit.batchSize ≤ queue.length+1 then
      insertAll kit chain getter merges [] rest
        (flush kit chain getter merges (queue++[box]) p)
    else insertAll kit chain getter merges (queue++[box]) rest p

/-- The boxes by id, in the order in which the ids are met, each id's boxes by block. -/
def histories (order : List String) (boxes : List (Box δ)) : List (Box δ) :=
  order.flatMap (fun id => (boxes.filter (fun b => b.id = id)).insertionSort
    (fun a b => a.gen.number ≤ b.gen.number))

def setEntities (kit : Kit δ ε) (chain : String)
    (getter : Option (String → Option (CachedEntityBox δ))) (merges : ℕ → List (Row ε × Row ε))
    (order : List String) (boxes : List (Box δ)) (t : Tables δ ε) : Tables δ ε × ℤ :=
  let p := insertAll kit chain getter merges [] (histories order boxes)
    ⟨t,fun _ => none,[],0,0⟩
  (p.tables,p.created)

end

/-- The full cache after a write: the box given last, and the version moved by
the number of boxes. -/
def patchFullCache (cache : String → Option (CachedEntityBox δ)) (boxes : List (Box δ))
    (id : String) : Option (CachedEntityBox δ) :=
  match lastOf Box.id boxes id with
  | none => cache id
  | some box => some ⟨box,((cache id).map CachedEntityBox.version).getD 0+
      (boxes.filter (fun b => b.id = id)).length⟩

def loadFullCache (kit : Kit δ ε) (raw : List (Row ε)) (chain id : String) :
    Option (CachedEntityBox δ) :=
  (lastOf (fun r : EntityRow δ => r.id)
    (listEntities kit raw chain (fun _ => true)) id).map
      (fun r => ⟨r.toBox,r.version⟩)

def reorgInTable (blockNumber : ℤ) (chain : String) (rows : List (Row ε)) : List (Row ε) :=
  rows.filter (fun r => ¬((blockNumber < r.gen.number) ∧ r.chain = chain))

def upTo (blockNumber : ℤ) (chain : String) (rows : List (Row ε)) : List (Row ε) :=
  rows.filter (fun r => r.chain = chain ∧ (r.gen.number : ℤ) ≤ blockNumber)

def reorgInVersionedLatestTable [DecidableEq ε] (blockNumber : ℤ) (chain : String)
    (merges : List (Row ε × Row ε)) (table rawTable : List (Row ε)) : List (Row ε) :=
  let kept := collapse (reorgInTable blockNumber chain table) merges
  let expCount := ((upTo blockNumber chain rawTable).map Row.id).dedup.length
  let realCount := (liveGroups (upTo blockNumber chain kept) chain).length
  if expCount = realCount then kept
  else kept.filter (fun r => r.chain ≠ chain)++upTo blockNumber chain rawTable

/-- The tables of one entity and the full caches of its chain stores. -/
structure Store (δ ε : Type) where
  tables : Tables δ ε
  fullCache : String → Option (String → Option (CachedEntityBox δ))

def newStore : Store δ ε := ⟨⟨[],[],[]⟩,fun _ => none⟩

/-- The database may merge rows between any two of its commands. -/
inductive Event (δ ε : Type) where
  | setEntities (chain : String) (order : List String) (boxes : List (Box δ))
      (merges : ℕ → List (Row ε × Row ε))
  | reorg (chain : String) (blockNumber : ℤ) (before after : List (Row ε × Row ε))
  | merge (merges : List (Row ε × Row ε))
  | loadCache (chain : String)
  | dropCache (chain : String)

def step [DecidableEq ε] (kit : Kit δ ε) (s : Store δ ε) : Event δ ε → Option (Store δ ε)
  | .setEntities chain order boxes merges =>
    let getter := s.fullCache chain
    some
      { tables := (setEntities kit chain getter merges order boxes s.tables).1
        fullCache := update s.fullCache chain
          (getter.map (fun cache => patchFullCache cache boxes)) }
  | .reorg chain blockNumber before after =>
    let raw := reorgInTable blockNumber chain s.tables.raw
    some
      { tables :=
          { raw := raw
            latest := reorgInVersionedLatestTable blockNumber chain after
              (collapse s.tables.latest before) raw
            log := s.tables.log.filter
              (fun e => ¬((blockNumber < e.2.gen.number) ∧ e.1 = chain)) }
        fullCache := update s.fullCache chain none }
  | .merge merges =>
    some {s with tables := {s.tables with latest := collapse s.tables.latest merges}}
  | .loadCache chain =>
    let loaded := loadFullCache kit s.tables.raw chain
    some {s with fullCache := update s.fullCache chain (some loaded)}
  | .dropCache chain => some {s with fullCache := update s.fullCache chain none}

end
end Sentio.VersionedTable
