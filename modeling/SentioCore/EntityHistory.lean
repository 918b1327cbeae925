import SentioCore.NumericOperator
import SentioCore.OrderedLog

/-!
# Uncommitted boxes and change histories

A box holds the values and the pending operators of one entity at one block;
no data means that the entity is deleted. Boxes of the same block are merged
field by field. A history keeps one box per block and finds its place by
binary search. The histories are kept under entity and id, so the id checks of
`Merge` have nothing to compare. A panic of the source is `none`.
-/

namespace Sentio.EntityHistory
open NumericOperator OrderedLog List

structure Field where
  type : FieldType
  nonNull : Bool
  deriving DecidableEq

/-- The fields of an entity type by name, without reverse foreign keys. -/
structure EntityType where
  names : List String
  field : String → Field
  immutable : Bool

abbrev FieldMap (α : Type) : Type := String → Option α

def FieldMap.empty {α : Type} : FieldMap α := fun _ => none

abbrev Entity (F : Type) := Option (FieldMap (Value F))

structure EntityBox (F : Type) where
  data : Entity F
  genBlockNumber : ℕ

structure UncommittedEntityBox (F : Type) extends EntityBox F where
  operator : FieldMap (Operator F)

section
variable {F : Type} (N : Numerals F)

def zeroValue (field : Field) : Value F :=
  if field.nonNull then
    match field.type with
    | .int => .int32 0
    | .int8 => .int64 0
    | .bigInt => .bigInt 0
    | .float => .float N.floatZero
    | .bigDecimal => .decimal (DecimalArith.Decimal.ofInt 0)
    | .other zero => .other zero
  else .null

def collect {α : Type} (t : EntityType) (g : String → Option (Option α)) : Option (FieldMap α) :=
  if t.names.all (fun name => (g name).isSome) then
    some (fun name => if name ∈ t.names then (g name).join else none)
  else none

def checkValue (check : Field → Value F → Bool) (t : EntityType) (data : FieldMap (Value F)) : Bool :=
  t.names.all (fun name => (data name).all (check (t.field name)))

variable (t : EntityType)

def hasOperator (box : UncommittedEntityBox F) : Bool :=
  t.names.any (fun name => (box.operator name).isSome)

/-- The values of operators calculated on the data before, a lost field being
taken at its zero value. -/
def calcFields (pre : Entity F) (data : FieldMap (Value F))
    (operator : FieldMap (Operator F)) : Option (FieldMap (Value F)) :=
  collect t (fun name =>
    match operator name with
    | some op =>
      (calcOperator N (t.field name).type
        ((pre.bind (fun d => d name)).getD (zeroValue N (t.field name))) op).map some
    | none => some (data name))

variable (old new : FieldMap (Value F))

def coveredData : FieldMap (Value F) :=
  fun name => (new name).or (old name)

def mergedData (operator : FieldMap (Operator F)) :
    Option (FieldMap (Value F)) :=
  collect t (fun name =>
    match operator name, coveredData old new name with
    | some op,some origin => (calcOperator N (t.field name).type origin op).map some
    | some _,none => some none
    | none,covered => some covered)

def mergedOperator
    (oldOperator operator : FieldMap (Operator F)) : Option (FieldMap (Operator F)) :=
  collect t (fun name =>
    match operator name, coveredData old new name with
    | some op,none =>
      (mergeOperator N (t.field name).type ((oldOperator name).getD ⟨none⟩) op).map some
    | _,_ => some none)

def merge (e newOne : UncommittedEntityBox F) : Option (UncommittedEntityBox F) :=
  match newOne.data, e.data with
  | none, _ => some ⟨⟨none,newOne.genBlockNumber⟩,FieldMap.empty⟩
  | some new, none => do
    let data ← calcFields N t none new newOne.operator
    some ⟨⟨some data,newOne.genBlockNumber⟩,FieldMap.empty⟩
  | some new, some old => do
    let data ← mergedData N t old new newOne.operator
    let operator ← mergedOperator N t old new e.operator newOne.operator
    some ⟨⟨some data,newOne.genBlockNumber⟩,operator⟩

abbrev block (box : UncommittedEntityBox F) : ℕ := box.genBlockNumber

abbrev ChangeHistory (F : Type) := List (UncommittedEntityBox F)

variable (history : ChangeHistory F)

def latest (blockNumber : ℕ) : Option (UncommittedEntityBox F) :=
  if 0 < count block blockNumber history then history[count block blockNumber history-1]? else none

def split (blockNumber : ℕ) : ChangeHistory F × ChangeHistory F :=
  (history.take (count block blockNumber history),history.drop (count block blockNumber history))

/-- The new history, whether the box was merged, and the box that holds it. -/
def push (nw : UncommittedEntityBox F) :
    Option (ChangeHistory F × Bool × UncommittedEntityBox F) :=
  let i := count block nw.genBlockNumber history
  match latest history nw.genBlockNumber with
  | some last =>
    if last.genBlockNumber = nw.genBlockNumber then
      (merge N t last nw).map (fun box => (history.set (i-1) box,true,box))
    else some (history.take i++nw::history.drop i,false,nw)
  | none => some (history.take i++nw::history.drop i,false,nw)

variable {history : ChangeHistory F}

theorem latest_eq (b : ℕ) (h : Ascending block history) :
    latest history b = (upTo block b history).getLast? := by
  have hs := ascending_sorted block h
  have hsplit := upTo_append_above block b hs
  rw [latest,count_eq block b hs]
  by_cases hpos : 0 < (upTo block b history).length
  · rw [if_pos hpos,getLast?_eq_getElem?]
    nth_rewrite 1 [← hsplit]
    exact getElem?_append_left (by omega)
  have hnil : upTo block b history = [] := length_eq_zero_iff.mp (by omega)
  rw [hnil]
  rfl

theorem split_eq (b : ℕ) (h : Ascending block history) :
    split history b = (upTo block b history,above block b history) := by
  have hs := ascending_sorted block h
  rw [split,take_count block b hs,drop_count block b hs]

variable {nw box : UncommittedEntityBox F}

theorem merge_block {t : EntityType} {e : UncommittedEntityBox F}
    (h : merge N t e nw = some box) : block box = block nw := by
  unfold merge at h
  split at h
  · cases h
    rfl
  · obtain ⟨data,_,hb⟩ := Option.bind_eq_some_iff.mp h
    cases hb
    rfl
  obtain ⟨data,_,hb⟩ := Option.bind_eq_some_iff.mp h
  obtain ⟨operator,_,hc⟩ := Option.bind_eq_some_iff.mp hb
  cases hc
  rfl

theorem set_last {front back : ChangeHistory F} {last box : UncommittedEntityBox F} :
    (front++last::back).set front.length box = front++box::back := by
  simp [set_append_right]

theorem place_fresh (h : Ascending block history) (hno : ∀ e ∈ history, block e ≠ block nw) :
    history.take (count block nw.genBlockNumber history)++
      nw::history.drop (count block nw.genBlockNumber history) = place block nw history := by
  have hs := ascending_sorted block h
  have hbefore := before_append_level block (block nw) hs
  rw [level_eq_nil block hno,append_nil] at hbefore
  rw [take_count block _ hs,drop_count block _ hs,place,hbefore]

theorem place_merged {last : UncommittedEntityBox F}
    (h : Ascending block history) (hmem : last ∈ history) (hb : block box = block last) :
    history.set (count block (block last) history-1) box = place block box history := by
  have hs := ascending_sorted block h
  have hupTo := upTo_eq_before_append block h hmem
  have hsplit : history = before block (block last) history++
      last::above block (block last) history := by
    nth_rewrite 1 [← upTo_append_above block (block last) hs]
    rw [hupTo,append_assoc]
    rfl
  have hlen : count block (block last) history-1 = (before block (block last) history).length := by
    rw [count_eq block _ hs,hupTo,length_append]
    rfl
  rw [place,hb,hlen]
  nth_rewrite 1 [hsplit]
  exact set_last

/-- A push puts a box in the place of its block: the merged one if there is a
box of that block, the new one otherwise. -/
theorem push_eq (t : EntityType) (nw : UncommittedEntityBox F) (h : Ascending block history) :
    (∃ last ∈ history, block last = block nw ∧
      push N t history nw = (merge N t last nw).map (fun box => (place block box history,true,box)))
    ∨ ((∀ e ∈ history, block e ≠ block nw) ∧
      push N t history nw = some (place block nw history,false,nw)) := by
  rw [push,latest_eq nw.genBlockNumber h]
  rcases hl : (upTo block nw.genBlockNumber history).getLast? with _ | last
  · have hnone : ∀ e ∈ history, block e ≠ block nw := by
      intro e he hb
      have hin := (mem_upTo block nw.genBlockNumber history e).mpr ⟨he,hb.le⟩
      rw [getLast?_eq_none_iff.mp hl] at hin
      exact absurd hin not_mem_nil
    exact Or.inr ⟨hnone,by rw [place_fresh h hnone]⟩
  obtain ⟨hmem,hle,hmax⟩ := getLast?_upTo block nw.genBlockNumber last h hl
  by_cases hb : last.genBlockNumber = nw.genBlockNumber
  · left
    refine ⟨last,hmem,hb,?_⟩
    simp only [if_pos hb]
    apply Option.map_congr
    intro box hbox
    have hkey : block box = block last := (merge_block N hbox).trans hb.symm
    rw [← place_merged h hmem hkey,← hb]
  · right
    have hnone : ∀ e ∈ history, block e ≠ block nw := by
      intro e he heq
      exact hb (le_antisymm hle (heq.ge.trans (hmax e he heq.le)))
    exact ⟨hnone,by simp [if_neg hb,place_fresh h hnone]⟩

end
end Sentio.EntityHistory
