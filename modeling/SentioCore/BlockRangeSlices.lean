import SentioCore.BlockRangeSets
import SentioCore.Slices
import SentioCore.Transition

/-!
# Block range sets that share their holes

The holes of a block range set are a slice, and the operations of the controller
cut it without copying. `Union` then appends a hole behind the end of such a
slice, where another set may have holes of its own. All sets stay what their
operations made them exactly in the runs in which no appended hole falls on a
different hole of another set.
-/

namespace Sentio.BlockRangeSlices
open RangeModel RangeHoles RangeSetAlgebra RangeFind TemplateModel Slices Transition BlockRangeSets
open RangeSet (trimLeft trimRight findLeft findRight leftOf rightOf)

structure BlockRangeSet where
  range : Range
  holes : Slice

namespace BlockRangeSet

variable (m : Memory Hole) (s : BlockRangeSet) (a : Range)

/-- The set as the memory shows it. -/
def load : RangeSet := ⟨s.range,view m s.holes⟩

def withHoles (range : Range) (out : Memory Hole × Slice) : Memory Hole × BlockRangeSet :=
  (out.1,⟨range,out.2⟩)

/-- `Intersection` cuts the holes on the left and then on the right. -/
def intersection : BlockRangeSet :=
  let r := (load m s).intersection a
  let pl := s.holes.len-(trimLeft (s.range.intersection a).start (view m s.holes)).2.length
  ⟨r.range,cut s.holes pl r.holes.length⟩

/-- `Remove` cuts the holes when one side remains. With two sides it appends the
holes of both to a new slice, for which the runtime takes some spare cells. -/
def remove (spare : ℕ) : Memory Hole × BlockRangeSet :=
  let rs := load m s
  let r := rs.remove a
  if a.isEmpty || rs.isEmpty then (m,s)
  else if lessNilAsInf a.stop (some rs.range.start) then (m,s)
  else if lessNilAsInf rs.range.stop (some a.start) then (m,s)
  else if !(rs.leftOf a).isEmpty && !(rs.rightOf a).isEmpty then
    withHoles r.range (fresh m r.holes spare)
  else if (rs.leftOf a).isEmpty then
    (m,⟨r.range,cut s.holes (s.holes.len-r.holes.length) r.holes.length⟩)
  else (m,⟨r.range,cut s.holes 0 r.holes.length⟩)

/-- `Union` keeps the slice of an adjacent operand. A gap on the right is appended
to the slice of the set, a gap on the left is put before a copy without spare
cells, and an operand that overlaps gives a new slice. -/
def union (spare : ℕ) : Memory Hole × BlockRangeSet :=
  let rs := load m s
  let r := rs.union a
  if a.isEmpty then (m,s)
  else if rs.isEmpty then (m,⟨a,.nil⟩)
  else if lessNilAsInf rs.range.stop (some a.start) then
    if rs.range.endOrZero+1 = a.start then (m,⟨r.range,s.holes⟩)
    else withHoles r.range (append m s.holes (rs.range.endOrZero+1,a.start-1) spare)
  else if lessNilAsInf a.stop (some rs.range.start) then
    if a.endOrZero+1 = rs.range.start then (m,⟨r.range,s.holes⟩)
    else withHoles r.range (fresh m r.holes 0)
  else withHoles r.range (fresh m r.holes spare)

/-- The operand lies to the right, with a gap between. -/
def appends : Bool :=
  !a.isEmpty && !s.range.isEmpty && lessNilAsInf s.range.stop (some a.start) &&
    s.range.endOrZero+1 != a.start

/-- `Union` appends a hole in the place of another hole that the slice `t` shows. -/
def UnionOverwrites (t : Slice) : Prop :=
  s.appends a ∧ Overwrites m s.holes (s.range.endOrZero+1,a.start-1) t

instance (t : Slice) : Decidable (s.UnionOverwrites m a t) := inferInstanceAs (Decidable (_ ∧ _))

end BlockRangeSet

open BlockRangeSet

/-- A set in use, and the blocks that it has to contain. -/
structure Held where
  set : BlockRangeSet
  blocks : UInt64 → Bool

structure World where
  memory : Memory Hole
  sets : List Held

/-- A new set from a single range, from `Remove` of two ranges, or by an operation
on one of the sets in use. -/
inductive Call
  | single (r : Range)
  | cut (r a : Range)
  | union (i : ℕ) (a : Range) (spare : ℕ)
  | remove (i : ℕ) (a : Range) (spare : ℕ)
  | intersection (i : ℕ) (a : Range)

namespace Call

def operand : Call → Option Range
  | single _ => none
  | cut _ a | union _ a _ | remove _ a _ | intersection _ a => some a

def made (w : World) : Call → Option (Memory Hole × Held)
  | single r => some (w.memory,⟨⟨r,.nil⟩,r.contains⟩)
  | cut r a =>
    let out := withHoles (r.remove a).range (fresh w.memory (r.remove a).holes 0)
    some (out.1,⟨out.2,fun x => r.contains x && !a.contains x⟩)
  | union i a spare => (w.sets[i]?).map fun h =>
    let out := h.set.union w.memory a spare
    (out.1,⟨out.2,fun x => h.blocks x || a.contains x⟩)
  | remove i a spare => (w.sets[i]?).map fun h =>
    let out := h.set.remove w.memory a spare
    (out.1,⟨out.2,fun x => h.blocks x && !a.contains x⟩)
  | intersection i a => (w.sets[i]?).map fun h =>
    (w.memory,⟨h.set.intersection w.memory a,fun x => h.blocks x && a.contains x⟩)

/-- The call changes what the slice `t` shows. -/
def Harms (w : World) (t : Slice) : Call → Prop
  | union i a _ => ∃ h ∈ w.sets[i]?, h.set.UnionOverwrites w.memory a t
  | _ => False

instance (w : World) (t : Slice) : (call : Call) → Decidable (call.Harms w t)
  | union i _ _ => inferInstanceAs (Decidable (∃ h ∈ w.sets[i]?, _))
  | single _ | cut _ _ | remove _ _ _ | intersection _ _ => .isFalse id

end Call

def step (w : World) (call : Call) : Option World :=
  (call.made w).map (fun out => ⟨out.1,w.sets++[out.2]⟩)

/-- The set keeps the hole invariant and has the blocks it has to have; `Include`
and `Last` say so too. -/
structure Right (rs : RangeSet) (blocks : UInt64 → Bool) : Prop where
  holes : HoleInvariant rs
  contains : ∀ x, rs.contains x = blocks x
  includes : ∀ (a : Range) (stop : UInt64), a.stop = some stop → stop < maxUint64 →
    (includesRange rs a ↔ ∀ x, a.contains x → blocks x)
  last : ∀ x, (last rs).contains x ↔ blocks x ∧
    ∀ y z : UInt64, x.toNat ≤ y.toNat → y.toNat ≤ z.toNat → blocks z → blocks y

def AllRight (w : World) : Prop := ∀ h ∈ w.sets, Right (load w.memory h.set) h.blocks

/-- An appended hole falls on a different hole of a set in use. -/
def Overlays (w : World) (call : Call) : Prop := ∃ h ∈ w.sets, call.Harms w h.set.holes

instance (w : World) (call : Call) : Decidable (Overlays w call) :=
  inferInstanceAs (Decidable (∃ h ∈ w.sets, _))

section holes

variable {first last : ℕ} {g : Hole} {rest : List Hole}

theorem chain_first {n : ℕ} (hc : HoleChain first last (g::rest)) (hn : InHoles (g::rest) n) :
    g.1.toNat ≤ n := by
  obtain ⟨-,hle,-,hrest⟩ := hc
  rcases (inHoles_cons g rest n).mp hn with hg | hr
  · exact hg.1
  · have := chain_above _ _ _ hrest n hr
    omega

theorem chain_gap (hc : HoleChain first last (g::rest)) : ¬InHoles (g::rest) (g.2.toNat+1) := by
  intro hn
  rcases (inHoles_cons g rest _).mp hn with hg | hr
  · omega
  · exact absurd (chain_above _ _ _ hc.2.2.2 _ hr).1 (lt_irrefl _)

/-- The blocks in the holes determine the holes. -/
theorem chain_unique {first' last' : ℕ} (l k : List Hole) (hl : HoleChain first last l)
    (hk : HoleChain first' last' k) (h : ∀ n, InHoles l n ↔ InHoles k n) : l = k := by
  have hin : ∀ (g : Hole) (rest : List Hole), g.1.toNat ≤ g.2.toNat →
      InHoles (g::rest) g.1.toNat := fun g rest hle => (inHoles_cons ..).mpr (.inl ⟨le_rfl,hle⟩)
  induction l generalizing k first first' with
  | nil =>
    cases k with
    | nil => rfl
    | cons b k => exact absurd ((h _).mpr (hin b k hk.2.1)) (inHoles_nil _)
  | cons a l ih =>
    cases k with
    | nil => exact absurd ((h _).mp (hin a l hl.2.1)) (inHoles_nil _)
    | cons b k =>
      have hstart : a.1.toNat = b.1.toNat := le_antisymm
        (chain_first hl ((h _).mpr (hin b k hk.2.1))) (chain_first hk ((h _).mp (hin a l hl.2.1)))
      have hla := hl.2.1
      have hkb := hk.2.1
      -- a hole that went on behind the other one would fill the gap there
      have hend : a.2.toNat = b.2.toNat := by
        rcases lt_trichotomy a.2.toNat b.2.toNat with hlt | heq | hlt
        · exact absurd ((h _).mpr ((inHoles_cons ..).mpr (.inl ⟨by omega,hlt⟩))) (chain_gap hl)
        · exact heq
        · exact absurd ((h _).mp ((inHoles_cons ..).mpr (.inl ⟨by omega,hlt⟩))) (chain_gap hk)
      have hab : a = b := Prod.ext (UInt64.toNat_inj.mp hstart) (UInt64.toNat_inj.mp hend)
      subst hab
      rw [ih k hl.2.2.2 hk.2.2.2]
      intro n
      have hn := h n
      rw [inHoles_cons,inHoles_cons] at hn
      constructor
      · intro hin
        have := chain_above _ _ _ hl.2.2.2 n hin
        exact (hn.mp (.inr hin)).resolve_left (by omega)
      · intro hin
        have := chain_above _ _ _ hk.2.2.2 n hin
        exact (hn.mpr (.inr hin)).resolve_left (by omega)

theorem holes_unique {r : Range} {l k : List Hole} (hl : HoleInvariant ⟨r,l⟩)
    (hk : HoleInvariant ⟨r,k⟩) (h : ∀ x, RangeSet.contains ⟨r,l⟩ x = RangeSet.contains ⟨r,k⟩ x) :
    l = k := by
  have hone : ∀ {l k : List Hole}, HoleInvariant ⟨r,l⟩ →
      (∀ x, RangeSet.contains ⟨r,l⟩ x = RangeSet.contains ⟨r,k⟩ x) →
      ∀ n, InHoles l n → InHoles k n := by
    intro l k hl h n hn
    have hw : r.start.toNat < n ∧ n < top r.stop := chain_above _ _ _ hl n hn
    have htop := top_lt r.stop
    have hnat : (UInt64.ofNat n).toNat = n :=
      UInt64.toNat_ofNat_of_lt' (show n < 2^64 by omega)
    have hx := h (UInt64.ofNat n)
    rw [Bool.eq_iff_iff,contains_iff,contains_iff,hnat] at hx
    by_contra hno
    exact (hx.mpr ⟨⟨hw.1.le,hw.2.le⟩,hno⟩).2 hn
  exact chain_unique l k hl hk fun n => ⟨hone hl h n,hone hk (fun x => (h x).symm) n⟩

theorem trimLeft_suffix (start : UInt64) (holes : List Hole) :
    (trimLeft start holes).2 <:+ holes := by
  have hdrop : holes.dropWhile (fun h => h.2 < start) <:+ holes := List.dropWhile_suffix _
  unfold trimLeft
  split
  · exact List.nil_suffix
  · rename_i h rest heq
    rw [heq] at hdrop
    split
    · exact hdrop
    · exact (List.suffix_cons h rest).trans hdrop

theorem trimRight_front (stop : Option UInt64) (holes : List Hole) :
    (trimRight stop holes).2 <+: holes := by
  have hkept := List.rdropWhile_prefix (fun h : Hole => lessNilAsInf stop (some h.1)) holes
  unfold trimRight
  dsimp only
  split
  · exact List.nil_prefix
  · split
    · exact hkept
    · exact ( List.dropLast_prefix _).trans hkept

theorem findLeft_front (start aStart : UInt64) (holes : List Hole) :
    ∀ left ∈ findLeft start aStart holes, left.holes <+: holes := by
  induction holes with
  | nil => simp [findLeft]
  | cons h rest ih =>
    intro left hl
    simp only [findLeft] at hl
    split at hl
    · cases hl
      exact List.nil_prefix
    split at hl
    · cases hl
      exact List.nil_prefix
    obtain ⟨l,hmem,rfl⟩ := Option.map_eq_some_iff.mp hl
    exact (List.prefix_cons_inj h).mpr (ih l hmem)

theorem findRight_suffix (stop : Option UInt64) (aEnd : UInt64) (holes : List Hole) :
    ∀ right ∈ findRight stop aEnd holes, right.holes <:+ holes := by
  induction holes with
  | nil => simp [findRight]
  | cons h rest ih =>
    intro right hr
    simp only [findRight] at hr
    split at hr
    · cases hr
      exact List.suffix_rfl
    split at hr
    · cases hr
      exact List.suffix_cons h rest
    · exact (ih right hr).trans (List.suffix_cons h rest)

variable (rs : RangeSet) (a : Range)

theorem leftOf_front : (rs.leftOf a).holes <+: rs.holes := by
  unfold leftOf
  split
  · dsimp only
    split
    · exact List.prefix_rfl
    · cases hf : findLeft rs.range.start a.start rs.holes with
      | none => exact List.nil_prefix
      | some left => exact findLeft_front _ _ _ left hf
  · exact List.nil_prefix

theorem rightOf_suffix : (rs.rightOf a).holes <:+ rs.holes := by
  unfold rightOf
  split
  · dsimp only
    split
    · exact List.nil_suffix
    · cases hf : findRight rs.range.stop a.endOrZero rs.holes with
      | none => exact List.nil_suffix
      | some right => exact findRight_suffix _ _ _ right hf
  · exact List.nil_suffix

theorem orEmpty_holes : rs.orEmpty.holes <+: rs.holes := by
  unfold RangeSet.orEmpty
  split
  · exact List.nil_prefix
  · exact List.prefix_rfl

end holes

section operations

/-- The operation gives the set `r`, and changes the slices in `harm` only. -/
structure Gives (m : Memory Hole) (out : Memory Hole × BlockRangeSet) (r : RangeSet)
    (harm : Slice → Prop) : Prop where
  makes : Makes m (out.1,out.2.holes) r.holes harm
  range : out.2.range = r.range

variable {m : Memory Hole} {s : BlockRangeSet} (hs : Valid m s.holes) (a : Range) (spare : ℕ)
include hs

theorem intersection_gives :
    Gives m (m,s.intersection m a) ((load m s).intersection a) (fun _ => False) := by
  refine ⟨makes_cut hs ?_,rfl⟩
  have hdrop := List.suffix_iff_eq_drop.mp
    (trimLeft_suffix (s.range.intersection a).start (view m s.holes))
  rw [length_view] at hdrop
  rw [← hdrop]
  simp only [RangeSet.intersection]
  split
  · exact List.nil_prefix
  · exact (orEmpty_holes _).trans (trimRight_front _ _)

theorem remove_gives :
    Gives m (s.remove m a spare) ((load m s).remove a) (fun _ => False) := by
  have hkept : Gives m (m,s) (load m s) (fun _ => False) := ⟨makes_kept hs,rfl⟩
  unfold BlockRangeSet.remove
  dsimp only
  split
  · rwa [RangeSet.remove,if_pos ‹_›]
  split
  · rwa [RangeSet.remove,if_neg ‹_›,if_pos ‹_›]
  split
  · rwa [RangeSet.remove,if_neg ‹_›,if_neg ‹_›,if_pos ‹_›]
  rename_i h1 h2 h3
  split
  · exact ⟨makes_fresh _ _,rfl⟩
  rename_i h4
  have hr : (load m s).remove a = if ((load m s).leftOf a).isEmpty then
      ((load m s).rightOf a).orEmpty else ((load m s).leftOf a).orEmpty := by
    rw [RangeSet.remove,if_neg h1,if_neg h2,if_neg h3]
    exact if_neg h4
  split
  · rename_i h5
    rw [if_pos h5] at hr
    have hsuffix : ((load m s).remove a).holes <:+ view m s.holes := by
      rw [hr,RangeSet.orEmpty]
      split
      · exact List.nil_suffix
      · exact rightOf_suffix (load m s) a
    have hdrop := List.suffix_iff_eq_drop.mp hsuffix
    rw [length_view] at hdrop
    exact ⟨makes_cut hs (hdrop ▸ List.prefix_rfl),rfl⟩
  · rename_i h5
    rw [if_neg h5] at hr
    refine ⟨makes_cut hs ?_,rfl⟩
    rw [hr]
    exact (orEmpty_holes _).trans (leftOf_front (load m s) a)

theorem union_gives :
    Gives m (s.union m a spare) ((load m s).union a) (s.UnionOverwrites m a) := by
  have hno : ∀ {out r}, Gives m out r (fun _ => False) → s.appends a = false →
      Gives m out r (s.UnionOverwrites m a) := by
    intro out r h hc
    have : s.UnionOverwrites m a = fun _ => False := by
      funext t
      simp only [UnionOverwrites,hc,Bool.false_eq_true,false_and]
    rwa [this]
  unfold BlockRangeSet.union
  dsimp only
  generalize hr : (load m s).union a = r
  split
  · rename_i h1
    rw [RangeSet.union,if_pos h1] at hr
    exact hno (hr ▸ ⟨makes_kept hs,rfl⟩) (by simp [appends,h1])
  rename_i h1
  rw [RangeSet.union,if_neg h1] at hr
  split
  · rename_i h2
    rw [if_pos h2] at hr
    exact hno (hr ▸ ⟨makes_nil,rfl⟩) (by simp [appends,show s.range.isEmpty from h2])
  rename_i h2
  rw [if_neg h2] at hr
  split
  · rename_i h3
    rw [if_pos h3] at hr
    split
    · rename_i h4
      rw [if_pos h4] at hr
      subst hr
      exact hno ⟨makes_kept hs,rfl⟩ (by simp [appends,show s.range.endOrZero+1 = a.start from h4])
    · rename_i h4
      rw [if_neg h4] at hr
      have hc : s.UnionOverwrites m a = Overwrites m s.holes (s.range.endOrZero+1,a.start-1) := by
        funext t
        simp [UnionOverwrites,appends,h1,show ¬s.range.isEmpty from h2,
          show lessNilAsInf s.range.stop (some a.start) from h3,
          show ¬s.range.endOrZero+1 = a.start from h4]
      subst hr
      rw [hc]
      exact ⟨makes_append hs _ spare,rfl⟩
  rename_i h3
  have hc : lessNilAsInf s.range.stop (some a.start) = false := Bool.eq_false_iff.mpr h3
  rw [if_neg h3] at hr
  split
  · rename_i h4
    rw [if_pos h4] at hr
    split
    · rename_i h5
      rw [if_pos h5] at hr
      subst hr
      exact hno ⟨makes_kept hs,rfl⟩ (by simp [appends,hc])
    · exact hno ⟨makes_fresh _ _,rfl⟩ (by simp [appends,hc])
  · exact hno ⟨makes_fresh _ _,rfl⟩ (by simp [appends,hc])

end operations

/-- A set in use that is what its operations made it. -/
structure Sound (m : Memory Hole) (h : Held) : Prop where
  valid : Valid m h.set.holes
  holes : HoleInvariant (load m h.set)
  contains : ∀ x, (load m h.set).contains x = h.blocks x

theorem Sound.right {m : Memory Hole} {h : Held} (hs : Sound m h) :
    Right (load m h.set) h.blocks := by
  refine ⟨hs.holes,hs.contains,fun a stop ha _ => ?_,fun x => ?_⟩
  · simp only [includesRange_iff ha,hs.contains]
  · simp only [last_iff hs.holes,hs.contains]

theorem Sound.of_gives {m : Memory Hole} {out : Memory Hole × BlockRangeSet} {r : RangeSet}
    {harm : Slice → Prop} {blocks : UInt64 → Bool} (h : Gives m out r harm)
    (hr : HoleInvariant r) (hb : ∀ x, r.contains x ↔ blocks x) : Sound out.1 ⟨out.2,blocks⟩ := by
  have hload : load out.1 out.2 = r := by
    cases r
    exact congrArg₂ RangeSet.mk h.range h.makes.shows_values
  refine ⟨h.makes.valid,?_,fun x => ?_⟩
  · exact hload ▸ hr
  · exact hload ▸ Bool.eq_iff_iff.mpr (hb x)

section runs

variable {w : World} {call : Call} {out : Memory Hole × Held}

/-- Whatever the call, the new set is right and only the harmed slices change. -/
theorem made_spec (hw : ∀ h ∈ w.sets, Sound w.memory h) (hb : ∀ a ∈ call.operand, Bounded a)
    (h : call.made w = some out) : Sound out.1 out.2 ∧
    (∀ t, Valid w.memory t → Valid out.1 t) ∧
    ∀ t, Valid w.memory t → (view out.1 t = view w.memory t ↔ ¬call.Harms w t) := by
  have hold : ∀ {i h}, w.sets[i]? = some h → Sound w.memory h :=
    fun hi => hw _ (List.mem_of_getElem? hi)
  cases call with
  | single r =>
    cases h
    have hg : Gives w.memory (w.memory,⟨r,.nil⟩) ⟨r,[]⟩ (fun _ => False) := ⟨makes_nil,rfl⟩
    exact ⟨.of_gives hg trivial fun x => by rw [interval_contains],hg.makes.stays,hg.makes.others⟩
  | cut r a =>
    cases h
    have hg : Gives w.memory (withHoles (r.remove a).range (fresh w.memory (r.remove a).holes 0))
      (r.remove a) _ := ⟨makes_fresh _ 0,rfl⟩
    have ha := hb a rfl
    refine ⟨.of_gives hg (cut_holes ha) fun x => ?_,hg.makes.stays,hg.makes.others⟩
    rw [cut_contains ha]
    simp
  | union i a spare =>
    obtain ⟨o,hi,rfl⟩ := Option.map_eq_some_iff.mp h
    have hg := union_gives (hold hi).valid a spare
    have hk := union_keeps (hold hi).holes (hb a rfl)
    refine ⟨.of_gives hg hk.holes fun x => ?_,hg.makes.stays,fun t ht => ?_⟩
    · rw [hk.contains,(hold hi).contains]
      simp
    · rw [hg.makes.others t ht]
      simp [Call.Harms,hi]
  | remove i a spare =>
    obtain ⟨o,hi,rfl⟩ := Option.map_eq_some_iff.mp h
    have hg := remove_gives (hold hi).valid a spare
    have hk := remove_keeps (hold hi).holes (hb a rfl)
    refine ⟨.of_gives hg hk.holes fun x => ?_,hg.makes.stays,hg.makes.others⟩
    rw [hk.contains,(hold hi).contains]
    simp
  | intersection i a =>
    obtain ⟨o,hi,rfl⟩ := Option.map_eq_some_iff.mp h
    have hg := intersection_gives (hold hi).valid a
    have hk := intersection_keeps (hold hi).holes (hb a rfl)
    refine ⟨.of_gives hg hk.holes fun x => ?_,hg.makes.stays,hg.makes.others⟩
    rw [hk.contains,(hold hi).contains]
    simp

variable {t : World} (hw : ∀ h ∈ w.sets, Sound w.memory h) (hb : ∀ a ∈ call.operand, Bounded a)
include hw hb

theorem step_sound (hno : ¬Overlays w call) (h : step w call = some t) :
    ∀ h ∈ t.sets, Sound t.memory h := by
  obtain ⟨out,hm,rfl⟩ := Option.map_eq_some_iff.mp h
  obtain ⟨hnew,hstays,hothers⟩ := made_spec hw hb hm
  intro h hh
  rcases List.mem_append.mp hh with hold | hlast
  · have hs := hw h hold
    have hview := (hothers _ hs.valid).mpr fun hharm => hno ⟨h,hold,hharm⟩
    have hload : load out.1 h.set = load w.memory h.set := congrArg (RangeSet.mk _) hview
    exact ⟨hstays _ hs.valid,hload ▸ hs.holes,hload ▸ hs.contains⟩
  · rw [List.mem_singleton.mp hlast]
    exact hnew

/-- A set whose holes have changed cannot keep both the hole invariant and its blocks. -/
theorem step_right_iff :
    (∀ t, step w call = some t → AllRight t) ↔ ¬Overlays w call := by
  constructor
  · rintro hright ⟨h,hh,hharm⟩
    have hsome : ∃ out, call.made w = some out := by
      cases call with
      | union i a spare =>
        obtain ⟨o,hi,-⟩ := hharm
        exact ⟨_,Option.map_eq_some_iff.mpr ⟨o,hi,rfl⟩⟩
      | single | cut | remove | intersection => exact hharm.elim
    obtain ⟨out,hm⟩ := hsome
    obtain ⟨-,-,hothers⟩ := made_spec hw hb hm
    have hs := hw h hh
    have hr := hright _ (by rw [step,hm]; rfl) h (List.mem_append_left _ hh)
    refine (hothers _ hs.valid).mp (holes_unique hr.holes hs.holes fun x => ?_) hharm
    exact (hr.contains x).trans (hs.contains x).symm
  · intro hno t ht h hh
    exact (step_sound hw hb hno ht h hh).right

end runs

/-- Along every run all sets keep the hole invariant and their blocks, and answer
`Include` and `Last` by them, exactly when no `Union` appends a hole in the place
of a different hole of a set in use. -/
theorem sets_stay_right_iff (m : Memory Hole) (calls : List Call)
    (hb : ∀ call ∈ calls, ∀ a ∈ call.operand, Bounded a) :
    Throughout step (fun w call => ∀ t, step w call = some t → AllRight t) ⟨m,[]⟩ calls ↔
      Throughout step (fun w call => ¬Overlays w call) ⟨m,[]⟩ calls := by
  exact throughout_iff step (fun w => ∀ h ∈ w.sets, Sound w.memory h)
    (fun w call hw hb => step_right_iff hw hb)
    (fun w call t hw hb hno ht => step_sound hw hb hno ht) _ calls (by simp)
    (throughout_all step _ calls hb)

def blank : Memory Hole := ⟨fun _ _ => (0,0),0⟩

/-- A set with two holes; `spare` cells remain behind them. -/
def twoHoles (spare : ℕ) : List Call :=
  [.single ⟨0,some 100⟩,.remove 0 ⟨10,some 19⟩ 0,.remove 1 ⟨30,some 39⟩ spare]

/-- The holes are appended behind those of the set, and then behind those of the result. -/
theorem sets_stay_right_appended :
    Throughout step (fun w call => ∀ t, step w call = some t → AllRight t) ⟨blank,[]⟩
      (twoHoles 3++[.union 2 ⟨200,some 300⟩ 0,.union 3 ⟨400,some 500⟩ 0,.remove 2 ⟨35,none⟩ 0]) ∧
    ((run step ⟨blank,[]⟩ (twoHoles 3++[.union 2 ⟨200,some 300⟩ 0])).bind
      fun w => (w.sets[3]?).map fun h => load w.memory h.set) =
        some ⟨⟨0,some 300⟩,[(10,19),(30,39),(101,199)]⟩ :=
  ⟨(sets_stay_right_iff blank _ (by decide)).mpr (by decide),by decide⟩

/-- The part up to block 25 keeps the first hole and the room of the second one, in which
`Union` then writes: the set with two holes loses its second hole and its blocks from 40 on. -/
theorem union_overwrites_hole :
    let calls := twoHoles 0++[.intersection 2 ⟨0,some 25⟩,.union 3 ⟨200,some 300⟩ 0]
    (∀ call ∈ calls, ∀ a ∈ call.operand, Bounded a) ∧
    ∃ w h, run step ⟨blank,[]⟩ calls = some w ∧ w.sets[2]? = some h ∧
      load w.memory h.set = ⟨⟨0,some 100⟩,[(10,19),(26,199)]⟩ ∧
      ¬HoleInvariant (load w.memory h.set) ∧
      (load w.memory h.set).contains 50 = false ∧ h.blocks 50 = true :=
  ⟨by decide,_,_,rfl,rfl,by decide,by unfold HoleInvariant; decide,by decide,by decide⟩

end Sentio.BlockRangeSlices
