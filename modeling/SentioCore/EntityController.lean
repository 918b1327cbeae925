import SentioCore.EntityHistory
import SentioCore.KeyedMap

/-!
# The entity controller

Uncommitted changes lie over a chain store. Reads and commits resolve the
operators of the boxes up to their block in place, a commit hands the boxes up
to its block to the store, a reorg discards the boxes above its block. Entity
types are not time series. Store calls may fail; a failed call leaves the
state the source leaves.
-/

namespace Sentio.EntityController
open NumericOperator EntityHistory KeyedMap

abbrev Key := String × String

structure ChainStore (σ F : Type) where
  getEntityType : String → EntityType
  checkFieldValue : Field → Value F → Bool
  getEntity : σ → Key → Option (Option (EntityBox F))
  setEntities : σ → String → List (String × EntityBox F) → σ × Option ℕ
  growthAggregation : σ → ℤ → σ × Bool
  reorg : σ → ℤ → σ × Bool

structure Controller (σ F : Type) where
  store : σ
  changes : List (Key × ChangeHistory F)
  committed : Option ℕ

inductive Failure where
  | invalidFieldValue
  | updateImmutable
  | store
  | panic
  deriving DecidableEq

def maxUint64 : ℕ := 18446744073709551615

section
variable {σ F : Type} (N : Numerals F) (S : ChainStore σ F)

def newController (store : σ) : Controller σ F := ⟨store,[],none⟩

def withData (box : UncommittedEntityBox F) (data : FieldMap (Value F)) :
    UncommittedEntityBox F := ⟨⟨some data,box.genBlockNumber⟩,box.operator⟩

def resolved (box : UncommittedEntityBox F) (data : FieldMap (Value F)) :
    UncommittedEntityBox F := ⟨⟨some data,box.genBlockNumber⟩,FieldMap.empty⟩

/-- The loop of `executeEntityOperator` over a history. The data before is that
of the box before, or of the store for the first box; `none` is a failed read. -/
def executeBoxes (t : EntityType) (blockNumber : ℕ) :
    Option (Entity F) → ChangeHistory F → ChangeHistory F × Option Failure
  | _, [] => ([],none)
  | pre, box::rest =>
    if blockNumber < box.genBlockNumber then (box::rest,none)
    else
      match box.data with
      | none =>
        let next := executeBoxes t blockNumber (some none) rest
        (box::next.1,next.2)
      | some data =>
        if hasOperator t box then
          match pre with
          | none => (box::rest,some .store)
          | some preData =>
            match calcFields N t preData data box.operator with
            | none => (box::rest,some .panic)
            | some result =>
              if checkValue S.checkFieldValue t result then
                let next := executeBoxes t blockNumber (some (some result)) rest
                (resolved box result::next.1,next.2)
              else (withData box result::rest,some .invalidFieldValue)
        else
          let next := executeBoxes t blockNumber (some (some data)) rest
          (box::next.1,next.2)

def storedData (store : σ) (key : Key) : Option (Entity F) :=
  (S.getEntity store key).map (fun box => box.bind (fun b => b.data))

def executeEntityOperator (store : σ) (key : Key) (blockNumber : ℕ) (history : ChangeHistory F) :
    ChangeHistory F × Option Failure :=
  executeBoxes N S (S.getEntityType key.1) blockNumber (storedData S store key) history

def executeAllEntityOperator (store : σ) (blockNumber : ℕ) :
    List (Key × ChangeHistory F) → List (Key × ChangeHistory F) × Option Failure
  | [] => ([],none)
  | (key,history)::rest =>
    match executeEntityOperator N S store key blockNumber history with
    | (done,some failure) => ((key,done)::rest,some failure)
    | (done,none) =>
      let next := executeAllEntityOperator store blockNumber rest
      ((key,done)::next.1,next.2)

variable (c : Controller σ F)

def getEntity (key : Key) (blockNumber : ℕ) (inBlock : Bool) :
    Controller σ F × Except Failure (Option (EntityBox F)) :=
  let history := find c.changes key
  match latest history blockNumber with
  | some uctBox =>
    if inBlock && uctBox.genBlockNumber < blockNumber then (c,.ok none)
    else if hasOperator (S.getEntityType key.1) uctBox then
      let done := executeEntityOperator N S c.store key blockNumber history
      let c' := {c with changes := put c.changes key done.1}
      match done.2 with
      | some failure => (c',.error failure)
      | none => (c',.ok ((latest done.1 blockNumber).map (fun box => box.toEntityBox)))
    else (c,.ok (some uctBox.toEntityBox))
  | none =>
    if inBlock then (c,.ok none)
    else
      match S.getEntity c.store key with
      | none => (c,.error .store)
      | some box => (c,.ok box)

def refused (key : Key) : Bool :=
  (latest (find c.changes key) maxUint64).isSome && (S.getEntityType key.1).immutable

def accepted (t : EntityType) (data : Entity F) : Bool :=
  data.all (checkValue S.checkFieldValue t)

/-- A box that was merged stays merged when its values are refused afterwards. -/
def setEntity (key : Key) (box : UncommittedEntityBox F) :
    Controller σ F × Option Failure :=
  let t := S.getEntityType key.1
  if c.committed.any (fun n => box.genBlockNumber ≤ n) then (c,some .panic)
  else if !accepted S t box.data then (c,some .invalidFieldValue)
  else if refused S c key then (c,some .updateImmutable)
  else
    match push N t (find c.changes key) box with
    | none => (c,some .panic)
    | some (history,merged,mergedBox) =>
      let c' := {c with changes := put c.changes key history}
      if merged && !accepted S t mergedBox.data then (c',some .invalidFieldValue) else (c',none)

def splitChanges (changes : List (Key × ChangeHistory F)) (blockNumber : ℕ) :
    List (Key × ChangeHistory F) × List (Key × ChangeHistory F) :=
  (dropEmpty (adjust changes (fun _ history => (split history blockNumber).1)),
    dropEmpty (adjust changes (fun _ history => (split history blockNumber).2)))

def entityNames (changes : List (Key × ChangeHistory F)) : List String :=
  (changes.map (fun e => e.1.1)).dedup

def entityBoxes (changes : List (Key × ChangeHistory F)) (entity : String) :
    List (String × EntityBox F) :=
  (changes.filter (fun e => e.1.1 = entity)).flatMap
    (fun e => e.2.map (fun box => (e.1.2,box.toEntityBox)))

structure Saved where
  entity : String
  created : ℕ
  updated : ℕ
  deriving DecidableEq

def saveEntities (changes : List (Key × ChangeHistory F)) :
    σ → List String → σ × Option (List Saved)
  | store, [] => (store,some [])
  | store, entity::rest =>
    match S.setEntities store entity (entityBoxes changes entity) with
    | (after,none) => (after,none)
    | (after,some created) =>
      let next := saveEntities changes after rest
      (next.1,next.2.map
        (fun l => ⟨entity,created,(entityBoxes changes entity).length-created⟩::l))

def commit (blockNumber : ℕ) (blockTime : ℤ) :
    Controller σ F × Except Failure (List Saved) :=
  match executeAllEntityOperator N S c.store blockNumber c.changes with
  | (changes,some failure) => ({c with changes := changes},.error failure)
  | (changes,none) =>
    let cut := splitChanges changes blockNumber
    match saveEntities S cut.1 c.store (entityNames cut.1) with
    | (store,none) => (⟨store,cut.1,c.committed⟩,.error .store)
    | (store,some saved) =>
      match S.growthAggregation store blockTime with
      | (after,false) => (⟨after,cut.1,c.committed⟩,.error .store)
      | (after,true) => (⟨after,cut.2,some blockNumber⟩,.ok saved)

def reorg (blockNumberGT : ℤ) : Controller σ F × Bool :=
  let done := S.reorg c.store blockNumberGT
  if blockNumberGT < 0 then (⟨done.1,[],none⟩,done.2)
  else
    (⟨done.1,(splitChanges c.changes blockNumberGT.toNat).1,
      c.committed.map (fun n => min n blockNumberGT.toNat)⟩,done.2)

end

inductive Call (F : Type) where
  | setEntity (key : Key) (box : UncommittedEntityBox F)
  | getEntity (key : Key) (blockNumber : ℕ)
  | commit (blockNumber : ℕ) (blockTime : ℤ)
  | reorg (blockNumberGT : ℤ)

/-- The controller with the surviving writes by block; below `settled` every block was read or
committed, below `stored` handed to the store. -/
structure World (σ F : Type) where
  controller : Controller σ F
  log : Key → List (UncommittedEntityBox F)
  settled : ℕ
  stored : ℕ

section
variable {σ F : Type} (N : Numerals F) (S : ChainStore σ F)

def start (store : σ) : World σ F := ⟨newController store,fun _ => [],0,0⟩

def record (log : Key → List (UncommittedEntityBox F)) (key : Key) (box : UncommittedEntityBox F) :
    Key → List (UncommittedEntityBox F) :=
  fun k => if k = key then OrderedLog.insertLast block box (log k) else log k

/-- One call; `none` when the call fails. A write that is refused before it
touches the changes is a call that returns an error and does nothing. -/
def step (w : World σ F) : Call F → Option (World σ F)
  | .setEntity key box =>
    match setEntity N S w.controller key box with
    | (c,none) => some ⟨c,record w.log key box,w.settled,w.stored⟩
    | (_,some .panic) => none
    | (c,some _) => some ⟨c,w.log,w.settled,w.stored⟩
  | .getEntity key blockNumber =>
    match getEntity N S w.controller key blockNumber false with
    | (_,.error _) => none
    | (c,.ok _) => some ⟨c,w.log,max w.settled (blockNumber+1),w.stored⟩
  | .commit blockNumber blockTime =>
    match commit N S w.controller blockNumber blockTime with
    | (_,.error _) => none
    | (c,.ok _) =>
      some ⟨c,w.log,max w.settled (blockNumber+1),max w.stored (blockNumber+1)⟩
  | .reorg blockNumberGT =>
    match reorg S w.controller blockNumberGT with
    | (_,false) => none
    | (c,true) =>
      some ⟨c,fun k => OrderedLog.before block (blockNumberGT+1).toNat (w.log k),
        min w.settled (blockNumberGT+1).toNat,min w.stored (blockNumberGT+1).toNat⟩

end
end Sentio.EntityController
