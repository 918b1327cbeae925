import SentioCore.EntityController
import SentioCore.EntityMerge
import SentioCore.Transition

/-!
# The entity controller refines the log of its writes

For every entity the store and the pending boxes together hold one box per block
that was written. A stored or resolved box holds the value of the log up to its
block, a pending box stands for the writes of its block.
-/

namespace Sentio.EntityRefinement
open NumericOperator OperatorMerge EntityHistory EntityReference List
open EntityMerge EntityController OrderedLog

section
variable {F : Type} (N : Numerals F) (check : Field → Value F → Bool) (t : EntityType)
  (log : List (UncommittedEntityBox F))

def valueBelow (n : ℕ) : Option (Entity F) :=
  refFold N check t (before block n log) none

def referenceBox (n : ℕ) : Option (EntityBox F) :=
  (before block n log).getLast?.map
    (fun w => ⟨(valueBelow N check t log n).getD none,w.genBlockNumber⟩)

abbrev rowBlock (r : EntityBox F) : ℕ := r.genBlockNumber

/-- The writes of every block fit the value before it. -/
def BlocksFit : Prop :=
  ∀ w ∈ log, ∀ s ∈ valueBelow N check t log (block w), Fit N t s (level block (block w) log)

instance : Decidable (BlocksFit N check t log) := List.decidableBAll _ _

/-- Nothing is pending in the box and it holds the value of the log. -/
def Settled (e : UncommittedEntityBox F) : Prop :=
  hasOperator t e = false ∧ valueBelow N check t log (block e+1) = some e.data

structure KeyInv (rs : List (EntityBox F)) (h log : List (UncommittedEntityBox F))
    (settled stored : ℕ) : Prop where
  rowsAscending : Ascending rowBlock rs
  historyAscending : Ascending block h
  logSorted : Sorted block log
  rowsBelow : ∀ r ∈ rs, rowBlock r < stored
  historyAbove : ∀ e ∈ h, stored ≤ block e
  blocks : ∀ n, (∃ w ∈ log, block w = n) ↔ (∃ r ∈ rs, rowBlock r = n) ∨ ∃ e ∈ h, block e = n
  fit : BlocksFit N check t log
  defined : (refFold N check t log none).isSome
  rowsValue : ∀ r ∈ rs, valueBelow N check t log (rowBlock r+1) = some r.data
  pending : ∀ e ∈ h, StandsFor N check t e (level block (block e) log) ∨
    (block e < settled ∧ Settled N check t log e)

theorem valueBelow_congr {log : List (UncommittedEntityBox F)} {m n : ℕ}
    (h : ∀ w ∈ log, block w < m ↔ block w < n) :
    valueBelow N check t log m = valueBelow N check t log n := by
  rw [valueBelow,before_congr block h,valueBelow]

variable {log : List (UncommittedEntityBox F)}

theorem valueBelow_succ {n : ℕ} (hs : Sorted block log) : valueBelow N check t log (n+1) =
      (valueBelow N check t log n).bind (refFold N check t (level block n log)) := by
  rw [valueBelow,← upTo_eq_before,← before_append_level block n hs,refFold_append]
  rfl

theorem valueBelow_isSome {n : ℕ} (hs : Sorted block log)
    (hd : (refFold N check t log none).isSome) : ∃ s, valueBelow N check t log n = some s := by
  rcases n with _ | n
  · have hnil : before block 0 log = [] := by simp [before]
    exact ⟨none,by rw [valueBelow,hnil]; rfl⟩
  have hsplit := upTo_append_above block n hs
  rw [← hsplit,refFold_append] at hd
  rw [valueBelow,← upTo_eq_before]
  cases hv : refFold N check t (upTo block n log) none with
  | none => rw [hv] at hd; cases hd
  | some s => exact ⟨s,rfl⟩

variable {s : Entity F}

theorem BlocksFit.at {n : ℕ} (hf : BlocksFit N check t log)
    (hv : valueBelow N check t log n = some s) : Fit N t s (level block n log) := by
  by_cases hn : ∃ w ∈ log, block w = n
  · obtain ⟨w,hw,rfl⟩ := hn
    exact hf w hw s hv
  · rw [level_eq_nil block fun w hw heq => hn ⟨w,hw,heq⟩]
    exact fit_nil N t

theorem standsFor_acts {e : UncommittedEntityBox F} {s' : Entity F} (hs : Sorted block log)
    (hf : BlocksFit N check t log) (he : StandsFor N check t e (level block (block e) log))
    (hv : valueBelow N check t log (block e) = some s)
    (hv' : valueBelow N check t log (block e+1) = some s') : refBox N check t e s = some s' := by
  rw [valueBelow_succ N check t hs,hv] at hv'
  exact he.acts s s' (hf.at N check t hv) hv'

end

section
variable {F : Type} {N : Numerals F} {check : Field → Value F → Bool} {t : EntityType}
  {rs : List (EntityBox F)} {h log : List (UncommittedEntityBox F)} {settled stored : ℕ}

section
variable (inv : KeyInv N check t rs h log settled stored)
include inv

theorem KeyInv.value (n : ℕ) : ∃ s, valueBelow N check t log n = some s :=
  valueBelow_isSome N check t inv.logSorted inv.defined

variable (e : UncommittedEntityBox F)

theorem KeyInv.plain_box (he : e ∈ h) (ho : hasOperator t e = false) :
    valueBelow N check t log (block e+1) = some e.data := by
  rcases inv.pending e he with hst | ⟨_,_,hv⟩
  · obtain ⟨s,hs⟩ := inv.value (block e)
    obtain ⟨s',hs'⟩ := inv.value (block e+1)
    have hact := standsFor_acts N check t inv.logSorted inv.fit hst hs hs'
    rw [hs',refBox_values N check t hst.complete ho hact]
  · exact hv

theorem KeyInv.operator_box (he : e ∈ h) (ho : hasOperator t e) (data : FieldMap (Value F))
    (hd : e.data = some data) (s : Entity F) (hs : valueBelow N check t log (block e) = some s) :
    ∃ m, calcFields N t s data e.operator = some m ∧ checkValue check t m ∧
      valueBelow N check t log (block e+1) = some (some m) := by
  rcases inv.pending e he with hst | ⟨_,hno,_⟩
  · obtain ⟨s',hs'⟩ := inv.value (block e+1)
    have hact := standsFor_acts N check t inv.logSorted inv.fit hst hs hs'
    obtain ⟨m,hm,hcalc,hcheck⟩ := calcFields_of_ref N check t hst.complete hd hact
    exact ⟨m,hcalc,hcheck,hm ▸ hs'⟩
  · rw [ho] at hno
    cases hno

theorem KeyInv.deletion_box (he : e ∈ h) (hd : e.data = none) : hasOperator t e = false := by
  rcases inv.pending e he with hst | ⟨_,hno,_⟩
  · have hc := hst.complete
    simp only [Complete,hd] at hc
    simp [hasOperator,hc,FieldMap.empty]
  · exact hno

theorem KeyInv.base_value :
    valueBelow N check t log stored = some (rs.getLast?.bind (fun r => r.data)) := by
  have hlow : ∀ w ∈ log, block w < stored → ∃ r ∈ rs, rowBlock r = block w := by
    intro w hw hlt
    rcases (inv.blocks (block w)).mp ⟨w,hw,rfl⟩ with hr | ⟨e,he,heq⟩
    · exact hr
    · have := inv.historyAbove e he
      omega
  cases hr : rs.getLast? with
  | none =>
    have hnil : before block stored log = [] := by
      apply filter_eq_nil_iff.mpr
      intro w hw hlt
      obtain ⟨r,hr',_⟩ := hlow w hw (by simpa using hlt)
      rw [getLast?_eq_none_iff.mp hr] at hr'
      exact absurd hr' not_mem_nil
    rw [valueBelow,hnil]
    rfl
  | some r =>
    have hmem := mem_of_getLast? hr
    have hbelow := inv.rowsBelow r hmem
    have htop := getLast?_max rowBlock inv.rowsAscending hr
    rw [valueBelow_congr N check t,inv.rowsValue r hmem]
    · rfl
    intro w hw
    constructor
    · intro hlt
      obtain ⟨r',hr',heq⟩ := hlow w hw hlt
      have := htop r' hr'
      omega
    · omega

end

theorem KeyInv.later (inv : KeyInv N check t rs h log settled stored) (n : ℕ) (hn : settled ≤ n) :
    KeyInv N check t rs h log n stored := by
  refine {inv with pending := fun e he => ?_}
  rcases inv.pending e he with hst | ⟨hlt,hs⟩
  · exact .inl hst
  · exact .inr ⟨by omega,hs⟩

/-- Boxes that hold their values may move to the store. -/
theorem KeyInv.commit (inv : KeyInv N check t rs h log settled stored) (b : ℕ)
    (hsettled : ∀ e ∈ h, block e ≤ b → Settled N check t log e) :
    KeyInv N check t (rs++(upTo block b h).map (fun e => e.toEntityBox)) (above block b h) log settled
      (max stored (b+1)) where
  __ := inv
  rowsAscending := by
    apply pairwise_append.mpr
    refine ⟨inv.rowsAscending,?_,?_⟩
    · apply pairwise_map.mpr
      exact List.Pairwise.filter _ inv.historyAscending
    intro r hr r' hr'
    obtain ⟨e,he,rfl⟩ := mem_map.mp hr'
    exact lt_of_lt_of_le (inv.rowsBelow r hr) (inv.historyAbove e ((mem_upTo block b h e).mp he).1)
  historyAscending := List.Pairwise.filter _ inv.historyAscending
  rowsBelow := by
    intro r hr
    rcases mem_append.mp hr with hr | hr
    · exact lt_of_lt_of_le (inv.rowsBelow r hr) (le_max_left _ _)
    · obtain ⟨e,he,rfl⟩ := mem_map.mp hr
      exact lt_of_lt_of_le (Nat.lt_succ_of_le ((mem_upTo block b h e).mp he).2) (le_max_right _ _)
  historyAbove := by
    intro e he
    have hmem := (mem_above block b h e).mp he
    exact max_le (inv.historyAbove e hmem.1) hmem.2
  blocks := by
    intro n
    rw [inv.blocks n]
    constructor
    · rintro (⟨r,hr,heq⟩ | ⟨e,he,heq⟩)
      · exact .inl ⟨r,mem_append_left _ hr,heq⟩
      by_cases hb : block e ≤ b
      · left
        refine ⟨e.toEntityBox,mem_append_right _ ?_,heq⟩
        exact mem_map_of_mem ((mem_upTo block b h e).mpr ⟨he,hb⟩)
      · exact .inr ⟨e,(mem_above block b h e).mpr ⟨he,by omega⟩,heq⟩
    · rintro (⟨r,hr,heq⟩ | ⟨e,he,heq⟩)
      · rcases mem_append.mp hr with hr | hr
        · exact .inl ⟨r,hr,heq⟩
        · obtain ⟨e,he,rfl⟩ := mem_map.mp hr
          exact .inr ⟨e,((mem_upTo block b h e).mp he).1,heq⟩
      · exact .inr ⟨e,((mem_above block b h e).mp he).1,heq⟩
  rowsValue := by
    intro r hr
    rcases mem_append.mp hr with hr | hr
    · exact inv.rowsValue r hr
    obtain ⟨e,he,rfl⟩ := mem_map.mp hr
    have hmem := (mem_upTo block b h e).mp he
    exact (hsettled e hmem.1 hmem.2).2
  pending := fun e he => inv.pending e ((mem_above block b h e).mp he).1

theorem valueBelow_before {m n : ℕ} (hle : m ≤ n) :
    valueBelow N check t (before block n log) m = valueBelow N check t log m := by
  rw [valueBelow,before_before,min_eq_left hle,valueBelow]

/-- Dropping everything from block `n` on leaves what was there without it. -/
theorem KeyInv.reorg (inv : KeyInv N check t rs h log settled stored) (n : ℕ) :
    KeyInv N check t (before rowBlock n rs) (before block n h) (before block n log) (min settled n)
      (min stored n) where
  rowsAscending := List.Pairwise.filter _ inv.rowsAscending
  historyAscending := List.Pairwise.filter _ inv.historyAscending
  logSorted := List.Pairwise.filter _ inv.logSorted
  rowsBelow := by
    intro r hr
    have hmem := (mem_before rowBlock n rs r).mp hr
    exact lt_min (inv.rowsBelow r hmem.1) hmem.2
  historyAbove := by
    intro e he
    exact (min_le_left _ _).trans (inv.historyAbove e ((mem_before block n h e).mp he).1)
  blocks := by
    intro m
    have hm := inv.blocks m
    simp only [mem_before]
    constructor
    · rintro ⟨w,⟨hw,hlt⟩,heq⟩
      rcases hm.mp ⟨w,hw,heq⟩ with ⟨r,hr,hre⟩ | ⟨e,he,hee⟩
      · exact .inl ⟨r,⟨hr,by omega⟩,hre⟩
      · exact .inr ⟨e,⟨he,by omega⟩,hee⟩
    intro hside
    have hany : ∃ w ∈ log, block w = m := by
      rcases hside with ⟨r,⟨hr,_⟩,heq⟩ | ⟨e,⟨he,_⟩,heq⟩
      · exact hm.mpr (.inl ⟨r,hr,heq⟩)
      · exact hm.mpr (.inr ⟨e,he,heq⟩)
    obtain ⟨w,hw,heq⟩ := hany
    exact ⟨w,⟨hw,by omega⟩,heq⟩
  fit := by
    intro w hw s hv
    obtain ⟨hin,hlt⟩ := (mem_before block n log w).mp hw
    rw [valueBelow_before hlt.le] at hv
    rw [level_before block log hlt]
    exact inv.fit w hin s hv
  defined := by
    obtain ⟨s,hs⟩ := inv.value n
    exact Option.isSome_iff_exists.mpr ⟨s,hs⟩
  rowsValue := by
    intro r hr
    have hmem := (mem_before rowBlock n rs r).mp hr
    rw [valueBelow_before (Nat.succ_le_of_lt hmem.2)]
    exact inv.rowsValue r hmem.1
  pending := by
    intro e he
    have hmem := (mem_before block n h e).mp he
    rw [level_before block log hmem.2]
    rcases inv.pending e hmem.1 with hst | ⟨hlt,hno,hv⟩
    · exact .inl hst
    refine .inr ⟨lt_min hlt hmem.2,hno,?_⟩
    rw [valueBelow_before (Nat.succ_le_of_lt hmem.2)]
    exact hv

/-- The conditions on one more write: nothing at or above its block was read or
committed, and the log stays defined with it. -/
structure Writable (N : Numerals F) (check : Field → Value F → Bool) (t : EntityType)
    (log : List (UncommittedEntityBox F)) (settled : ℕ) (w : UncommittedEntityBox F) : Prop where
  fresh : settled ≤ block w
  complete : Complete t w
  fit : BlocksFit N check t (insertLast block w log)
  defined : (refFold N check t (insertLast block w log) none).isSome

theorem valueBelow_insertLast {w : UncommittedEntityBox F} {n : ℕ} (hn : n ≤ block w) :
    valueBelow N check t (insertLast block w log) n = valueBelow N check t log n := by
  rw [valueBelow,before_insertLast block log hn,valueBelow]

/-- Placing the box that stands for the writes of its block keeps the
invariant for the longer log. -/
theorem KeyInv.place (inv : KeyInv N check t rs h log settled stored)
    (w box : UncommittedEntityBox F) (hle : stored ≤ settled)
    (hw : Writable N check t log settled w) (hb : block box = block w)
    (hst : StandsFor N check t box (level block (block w) log++[w])) :
    KeyInv N check t rs (place block box h) (insertLast block w log) settled stored where
  __ := inv
  historyAscending := ascending_place block inv.historyAscending
  logSorted := sorted_insertLast block w inv.logSorted
  historyAbove := by
    intro e he
    rcases (mem_place block box e h).mp he with rfl | ⟨hin,_⟩
    · rw [hb]
      exact hle.trans hw.fresh
    · exact inv.historyAbove e hin
  blocks := by
    intro n
    simp only [mem_insertLast,mem_place]
    constructor
    · rintro ⟨v,rfl | hv,heq⟩
      · exact .inr ⟨box,.inl rfl,hb.trans heq⟩
      rcases (inv.blocks n).mp ⟨v,hv,heq⟩ with hr | ⟨e,he,hee⟩
      · exact .inl hr
      by_cases hsame : block e = block box
      · exact .inr ⟨box,.inl rfl,hsame.symm.trans hee⟩
      · exact .inr ⟨e,.inr ⟨he,hsame⟩,hee⟩
    · rintro (hr | ⟨e,rfl | ⟨he,_⟩,heq⟩)
      · obtain ⟨v,hv,hve⟩ := (inv.blocks n).mpr (.inl hr)
        exact ⟨v,.inr hv,hve⟩
      · exact ⟨w,.inl rfl,hb.symm.trans heq⟩
      · obtain ⟨v,hv,hve⟩ := (inv.blocks n).mpr (.inr ⟨e,he,heq⟩)
        exact ⟨v,.inr hv,hve⟩
  fit := hw.fit
  defined := hw.defined
  rowsValue := by
    intro r hr
    have hlt := inv.rowsBelow r hr
    have hfresh := hw.fresh
    rw [valueBelow_insertLast (by omega)]
    exact inv.rowsValue r hr
  pending := by
    intro e he
    rcases (mem_place block box e h).mp he with rfl | ⟨hin,hne⟩
    · rw [hb,level_insertLast_self]
      exact .inl hst
    rw [level_insertLast_ne block w (fun heq => hne (heq.symm.trans hb.symm)) inv.logSorted]
    rcases inv.pending e hin with hst | ⟨hlt,hno,hv⟩
    · exact .inl hst
    have hfresh := hw.fresh
    refine .inr ⟨hlt,hno,?_⟩
    rw [valueBelow_insertLast (by omega)]
    exact hv

/-- A push goes through, the store accepts the box it leaves, and the history
follows the longer log. -/
theorem KeyInv.push (inv : KeyInv N check t rs h log settled stored) (w : UncommittedEntityBox F)
    (hle : stored ≤ settled) (hw : Writable N check t log settled w) :
    ∃ history merged box, EntityHistory.push N t h w = some (history,merged,box) ∧
      (merged → box.data.all (checkValue check t)) ∧
      KeyInv N check t rs history (insertLast block w log) settled stored := by
  rcases push_eq N t w inv.historyAscending with ⟨last,hlast,hb,hpush⟩ | ⟨hnone,hpush⟩
  · have hst : StandsFor N check t last (level block (block w) log) := by
      rcases inv.pending last hlast with hst | ⟨hlt,_⟩
      · exact hb ▸ hst
      · have hfresh := hw.fresh
        omega
    have hsorted := sorted_insertLast block w inv.logSorted
    obtain ⟨s,hs⟩ := valueBelow_isSome N check t hsorted hw.defined
    obtain ⟨s',hs'⟩ := valueBelow_isSome N check t hsorted hw.defined
    have hfit := hw.fit.at N check t hs
    rw [valueBelow_succ N check t hsorted,hs] at hs'
    rw [level_insertLast_self] at hfit hs'
    obtain ⟨box,hbox,hstands,hcheck⟩ :=
      standsFor_merge N check t hst hw.complete hfit hs'
    refine ⟨_,true,box,by rw [hpush,hbox]; rfl,fun _ => ?_,?_⟩
    · cases hd : box.data with
      | none => rfl
      | some data => exact hcheck data hd
    · exact inv.place w box hle hw (merge_block N hbox) hstands
  · have hlevel : level block (block w) log = [] := by
      apply level_eq_nil
      intro v hv heq
      rcases (inv.blocks (block w)).mp ⟨v,hv,heq⟩ with ⟨r,hr,hre⟩ | ⟨e,he,hee⟩
      · have := inv.rowsBelow r hr
        have := hw.fresh
        omega
      · exact hnone e he hee
    refine ⟨_,false,w,hpush,fun hf => absurd hf (by simp),?_⟩
    apply inv.place w w hle hw rfl
    rw [hlevel]
    exact standsFor_self N check t hw.complete

theorem referenceBox_of_top {n m : ℕ} {data : Entity F} (hs : Sorted block log) (hm : m < n)
    (hin : ∃ w ∈ log, block w = m) (htop : ∀ w ∈ log, block w < n → block w ≤ m)
    (hv : valueBelow N check t log (m+1) = some data) :
    referenceBox N check t log n = some ⟨data,m⟩ := by
  have hcongr : ∀ w ∈ log, block w < n ↔ block w < m+1 := by
    intro w hw
    constructor
    · intro hlt
      have := htop w hw hlt
      omega
    · omega
  have hsplit : before block n log = before block m log++level block m log := by
    rw [before_append_level block m hs,upTo_eq_before]
    exact before_congr block hcongr
  have hlast : ∃ v, (before block n log).getLast? = some v ∧ block v = m := by
    obtain ⟨w,hw,heq⟩ := hin
    have hne : level block m log ≠ [] :=
      ne_nil_of_mem ((mem_level block m log w).mpr ⟨hw,heq⟩)
    refine ⟨(level block m log).getLast hne,?_,?_⟩
    · rw [hsplit,getLast?_append,getLast?_eq_some_getLast hne]
      rfl
    · exact ((mem_level block m log _).mp (getLast_mem hne)).2
  obtain ⟨v,hlast,hvm⟩ := hlast
  rw [referenceBox,hlast,valueBelow_congr N check t hcongr,hv]
  simp [hvm]

theorem referenceBox_of_none {n : ℕ} (h : ∀ w ∈ log, ¬block w < n) :
    referenceBox N check t log n = none := by
  have hnil : before block n log = [] := by
    apply filter_eq_nil_iff.mpr
    intro w hw
    simpa using h w hw
  rw [referenceBox,hnil]
  rfl

/-- The latest pending box up to a block is the reference value there. -/
theorem KeyInv.latest_reference (inv : KeyInv N check t rs h log settled stored) (b : ℕ)
    (e : UncommittedEntityBox F) (hl : latest h b = some e)
    (hv : valueBelow N check t log (block e+1) = some e.data) :
    referenceBox N check t log (max (b+1) stored) = some e.toEntityBox := by
  rw [latest_eq b inv.historyAscending] at hl
  obtain ⟨hmem,hle,hmax⟩ := getLast?_upTo block b e inv.historyAscending hl
  have habove := inv.historyAbove e hmem
  apply referenceBox_of_top inv.logSorted (by omega) ((inv.blocks _).mpr (.inr ⟨e,hmem,rfl⟩)) _ hv
  intro w hw hlt
  rcases (inv.blocks (block w)).mp ⟨w,hw,rfl⟩ with ⟨r,hr,hre⟩ | ⟨e',he',hee⟩
  · have := inv.rowsBelow r hr
    omega
  · have := hmax e' he' (by omega)
    omega

/-- Without a pending box up to a block the store holds the reference value. -/
theorem KeyInv.stored_reference (inv : KeyInv N check t rs h log settled stored) (b : ℕ)
    (hl : latest h b = none) : referenceBox N check t log (max (b+1) stored) = rs.getLast? := by
  rw [latest_eq b inv.historyAscending,getLast?_eq_none_iff] at hl
  have hno : ∀ e ∈ h, ¬block e ≤ b := by
    intro e he hle
    have hin := (mem_upTo block b h e).mpr ⟨he,hle⟩
    rw [hl] at hin
    exact absurd hin not_mem_nil
  have hrow : ∀ w ∈ log, block w < max (b+1) stored → ∃ r ∈ rs, rowBlock r = block w := by
    intro w hw hlt
    rcases (inv.blocks (block w)).mp ⟨w,hw,rfl⟩ with hr | ⟨e,he,hee⟩
    · exact hr
    have := inv.historyAbove e he
    have := hno e he
    omega
  rcases hr : rs.getLast? with _ | r
  · apply referenceBox_of_none
    intro w hw hlt
    obtain ⟨r,hin,_⟩ := hrow w hw hlt
    rw [getLast?_eq_none_iff.mp hr] at hin
    exact absurd hin not_mem_nil
  have hmem := mem_of_getLast? hr
  have hbelow := inv.rowsBelow r hmem
  have htop := getLast?_max rowBlock inv.rowsAscending hr
  apply referenceBox_of_top inv.logSorted (by omega)
    ((inv.blocks _).mpr (.inl ⟨r,hmem,rfl⟩)) _ (inv.rowsValue r hmem)
  intro w hw hlt
  obtain ⟨r',hr',heq⟩ := hrow w hw hlt
  have := htop r' hr'
  omega

end

section
variable {σ F : Type} (N : Numerals F) (S : ChainStore σ F) (t : EntityType)
  {rs : List (EntityBox F)} {h log : List (UncommittedEntityBox F)} {settled stored : ℕ}

def Executed (log l : List (UncommittedEntityBox F)) (b : ℕ)
    (done : ChangeHistory F × Option Failure) : Prop :=
  done.2 = none ∧ done.1.map block = l.map block ∧
    ∀ e ∈ done.1, (block e ≤ b ∧ Settled N S.checkFieldValue t log e) ∨ (b < block e ∧ e ∈ l)

theorem executed_cons {rest : List (UncommittedEntityBox F)} (box after : UncommittedEntityBox F)
    {b : ℕ} {next : ChangeHistory F × Option Failure} (hb : block after = block box)
    (hle : block box ≤ b) (hs : Settled N S.checkFieldValue t log after)
    (hn : Executed N S t log rest b next) :
    Executed N S t log (box::rest) b (after::next.1,next.2) := by
  refine ⟨hn.1,by simp [hb,hn.2.1],fun e he => ?_⟩
  rcases mem_cons.mp he with rfl | he
  · exact .inl ⟨hb ▸ hle,hs⟩
  rcases hn.2.2 e he with hdone | ⟨hgt,hin⟩
  · exact .inl hdone
  · exact .inr ⟨hgt,mem_cons_of_mem _ hin⟩

/-- Resolving goes through without a failure and settles every box up to the
block, starting from the value before the first box. -/
theorem executeBoxes_settles (inv : KeyInv N S.checkFieldValue t rs h log settled stored) (b : ℕ)
    (l : ChangeHistory F) (n : ℕ) (pre : Entity F) (hin : ∀ e ∈ l, e ∈ h)
    (hasc : Ascending block l) (hlow : ∀ e ∈ l, n ≤ block e)
    (hcover : ∀ w ∈ log, n ≤ block w → ∃ e ∈ l, block e = block w)
    (hpre : valueBelow N S.checkFieldValue t log n = some pre) :
    Executed N S t log l b (executeBoxes N S t b (some pre) l) := by
  induction l generalizing n pre with
  | nil => exact ⟨rfl,rfl,fun e he => absurd he not_mem_nil⟩
  | cons box rest ih =>
    have hrest := pairwise_cons.mp hasc
    have hmem : box ∈ h := hin box mem_cons_self
    have hfirst : valueBelow N S.checkFieldValue t log (block box) = some pre := by
      rw [← hpre]
      apply valueBelow_congr
      intro w hw
      have hn := hlow box mem_cons_self
      constructor
      · by_contra hge
        obtain ⟨e,he,heq⟩ := hcover w hw (by omega)
        rcases mem_cons.mp he with rfl | he
        · omega
        · have := hrest.1 e he
          omega
      · omega
    have hnext : ∀ data, valueBelow N S.checkFieldValue t log (block box+1) = some data →
        Executed N S t log rest b (executeBoxes N S t b (some data) rest) := by
      intro data hdata
      apply ih (block box+1) data (fun e he => hin e (mem_cons_of_mem _ he)) hrest.2
        (fun e he => hrest.1 e he) _ hdata
      intro w hw hge
      have hn := hlow box mem_cons_self
      obtain ⟨e,he,heq⟩ := hcover w hw (by omega)
      rcases mem_cons.mp he with rfl | he
      · omega
      · exact ⟨e,he,heq⟩
    rw [executeBoxes]
    by_cases hgt : b < box.genBlockNumber
    · rw [if_pos hgt]
      refine ⟨rfl,rfl,fun e he => .inr ⟨?_,he⟩⟩
      rcases mem_cons.mp he with rfl | he
      · exact hgt
      · exact hgt.trans (hrest.1 e he)
    rw [if_neg hgt]
    have hle : block box ≤ b := not_lt.mp hgt
    rcases hd : box.data with _ | data
    · have hno := inv.deletion_box box hmem hd
      have hval := inv.plain_box box hmem hno
      exact executed_cons N S t box box rfl hle ⟨hno,hval⟩ (hnext none (hd ▸ hval))
    by_cases ho : hasOperator t box
    · obtain ⟨m,hcalc,hcheck,hval⟩ := inv.operator_box box hmem ho data hd pre hfirst
      simp only [if_pos ho,hcalc,if_pos hcheck]
      apply executed_cons N S t box (resolved box m) rfl hle _ (hnext _ hval)
      exact ⟨by simp [hasOperator,resolved,FieldMap.empty],hval⟩
    have hno : hasOperator t box = false := by simpa using ho
    have hval := inv.plain_box box hmem hno
    simp only [hno]
    exact executed_cons N S t box box rfl hle ⟨hno,hval⟩ (hnext _ (hd ▸ hval))

theorem executed_keeps (inv : KeyInv N S.checkFieldValue t rs h log settled stored) {b : ℕ}
    {done : ChangeHistory F × Option Failure} (hd : Executed N S t log h b done) :
    KeyInv N S.checkFieldValue t rs done.1 log (max settled (b+1)) stored where
  __ := inv
  historyAscending := by
    rw [ascending_iff_map,hd.2.1,← ascending_iff_map]
    exact inv.historyAscending
  historyAbove := by
    intro e he
    have hmem : block e ∈ h.map block := hd.2.1 ▸ mem_map_of_mem he
    obtain ⟨e',he',heq⟩ := mem_map.mp hmem
    exact heq ▸ inv.historyAbove e' he'
  blocks := by
    intro n
    rw [inv.blocks n,mem_map_key block h,mem_map_key block done.1,hd.2.1]
  pending := by
    intro e he
    rcases hd.2.2 e he with ⟨hle,hs⟩ | ⟨_,hin⟩
    · exact .inr ⟨by omega,hs⟩
    rcases inv.pending e hin with hst | ⟨hlt,hs⟩
    · exact .inl hst
    · exact .inr ⟨by omega,hs⟩

end

end Sentio.EntityRefinement
