import SentioCore.RangeHoles

/-!
# Set laws of the range set operations

Each operation is proved to keep the hole invariant together with its
pointwise meaning, since the meaning of the next step needs the invariant of
the last. Finite ends stay below the last word, so no border step wraps.
-/

namespace Sentio.RangeSetAlgebra
open RangeModel RangeHoles WordArith
open RangeSet (trim findLeft leftOf findRight rightOf)

/-- The documented invariant: ascending nonempty holes, pairwise neither
overlapping nor adjacent, with nonempty parts at both ends. -/
def HoleInvariant (rs : RangeSet) : Prop :=
  HoleChain rs.range.start.toNat (top rs.range.stop) rs.holes

structure Canonical (rs : RangeSet) : Prop where
  holes : HoleInvariant rs
  bounded : Bounded rs.range

theorem canonical_empty : Canonical emptyRangeSet := ⟨trivial,by decide⟩

theorem isEmpty_contains (rs : RangeSet) (h : rs.isEmpty) (x : UInt64) : rs.contains x = false := by
  simp [RangeSet.contains,Range.contains,show rs.range.isEmpty from h]

theorem empty_contains (x : UInt64) : emptyRangeSet.contains x = false :=
  isEmpty_contains _ rfl x

theorem not_inRange (r : Range) (h : r.isEmpty) (x : UInt64) :
    r.contains x = false := by simp [Range.contains,h]

variable {r : Range} {x : UInt64}

theorem interval_contains : RangeSet.contains ⟨r,[]⟩ x = r.contains x := by simp [RangeSet.contains]

variable {b : Option UInt64}

theorem min_bounded {a : Option UInt64} (ha : a ≠ some maxUint64) (hb : b ≠ some maxUint64) :
    minNilAsInf a b ≠ some maxUint64 := by
  rcases a with _ | a
  · exact hb
  cases b with
  | none => exact ha
  | some b =>
    have := bounded_top a ha
    exact bounded_some _ (by rw [toNat_min]; omega)

theorem max_bounded {a : Option UInt64} (ha : a ≠ some maxUint64) (hb : b ≠ some maxUint64) :
    maxNilAsInf a b ≠ some maxUint64 := by
  rcases a with _ | a
  · simp [maxNilAsInf]
  cases b with
  | none => simp [maxNilAsInf]
  | some b =>
    have := bounded_top a ha
    have := bounded_top b hb
    exact bounded_some _ (by rw [toNat_max]; omega)

theorem range_intersection_iff (r a : Range) (x : UInt64) :
    (r.intersection a).contains x ↔ r.contains x ∧ a.contains x := by
  by_cases ha : a.isEmpty
  · simp [Range.intersection,ha,not_inRange a ha,not_inRange Range.empty rfl]
  by_cases hr : r.isEmpty
  · simp [Range.intersection,hr,not_inRange r hr,not_inRange Range.empty rfl]
  rw [inRange_iff,inRange_iff,inRange_iff]
  simp only [Range.intersection,ha,hr,Bool.or_self,Bool.false_eq_true,if_false,top_min,toNat_max]
  omega

variable {a : Range}

theorem range_intersection_bounded (hr : Bounded r) (ha : Bounded a) :
    Bounded (r.intersection a) := by
  unfold Range.intersection
  split
  · decide
  · exact min_bounded hr ha

theorem range_intersection_of_nonempty (h : (r.intersection a).isEmpty = false) :
    r.intersection a = ⟨max r.start a.start,minNilAsInf r.stop a.stop⟩ := by
  unfold Range.intersection at h ⊢
  split at h
  · cases h
  · rename_i hn
    simp [hn]

/-- The result of an operation on a set: the hole invariant, no end at the last
word unless the set had it, and the meaning of the operation. -/
structure Keeps (rs result : RangeSet) (meaning : UInt64 → Prop) : Prop where
  holes : HoleInvariant result
  bounded : Bounded rs.range → Bounded result.range
  contains : ∀ x, result.contains x ↔ meaning x

variable {rs result : RangeSet} {meaning : UInt64 → Prop}

theorem Keeps.canonical (h : Keeps rs result meaning) (hr : Canonical rs) :
    Canonical result ∧ ∀ x, result.contains x ↔ meaning x :=
  ⟨⟨h.holes,h.bounded hr.bounded⟩,h.contains⟩

theorem Keeps.orEmpty (h : Keeps rs result meaning) : Keeps rs result.orEmpty meaning := by
  unfold RangeSet.orEmpty
  split
  · rename_i he
    refine ⟨trivial,fun _ => by decide,fun x => ?_⟩
    rw [empty_contains,← h.contains,isEmpty_contains _ he]
  · exact h

theorem trim_keeps {first last : ℕ} {holes : List Hole} (hc : HoleChain first last holes)
    (hl : last < 2^64) (hf : first ≤ r.start.toNat) (ht : top r.stop ≤ last)
    (hb : Bounded rs.range → Bounded r) :
    Keeps rs (trim r holes) (fun x => r.contains x ∧ ¬InHoles holes x.toNat) := by
  obtain ⟨hl,hlx⟩ := trimLeft_spec first last hc hl hf
  obtain ⟨hq,hqb,hqx⟩ := trimRight_spec _ last hl (by omega) ht
  refine ⟨hq,fun h => hqb (hb h),fun x => ?_⟩
  have h1 := hlx x.toNat
  have h2 := hqx x.toNat
  rw [contains_iff,inRange_iff]
  tauto

theorem intersection_keeps (hr : HoleInvariant rs) (ha : Bounded a) :
    Keeps rs (rs.intersection a) (fun x => rs.contains x ∧ a.contains x) := by
  have hx : ∀ x, rs.contains x ∧ a.contains x ↔
      (rs.range.intersection a).contains x ∧ ¬InHoles rs.holes x.toNat := by
    intro x
    rw [range_intersection_iff,contains_iff,inRange_iff rs.range]
    tauto
  simp only [hx,RangeSet.intersection]
  split
  · rename_i he
    refine ⟨trivial,fun _ => by decide,fun x => ?_⟩
    simp [not_inRange _ he,empty_contains]
  rename_i he
  have hi := range_intersection_of_nonempty (by simpa using he)
  exact (trim_keeps hr (top_lt _) (by rw [hi,toNat_max]; omega) (by rw [hi,top_min]; omega)
    (fun hb => range_intersection_bounded hb ha)).orEmpty

theorem leftOf_law (hr : HoleInvariant rs) (h : rs.range.start.toNat < a.start.toNat) :
    (rs.leftOf a).range.start = rs.range.start ∧
      rs.range.start.toNat ≤ top (rs.leftOf a).range.stop ∧
      top (rs.leftOf a).range.stop < a.start.toNat ∧ HoleInvariant (rs.leftOf a) ∧
      ∀ x, x ≤ top (rs.leftOf a).range.stop ∧ ¬InHoles (rs.leftOf a).holes x ↔
        x < a.start.toNat ∧ ¬InHoles rs.holes x := by
  have hs := findLeft_spec rs.range.start a.start _ _ rs.holes hr (top_lt _) le_rfl h
  have he : rs.leftOf a = (findLeft rs.range.start a.start rs.holes).getD
      ⟨⟨rs.range.start,some (a.start-1)⟩,rs.holes⟩ := by
    simp only [leftOf,UInt64.lt_iff_toNat_lt,h]
    rcases hf : findLeft rs.range.start a.start rs.holes with _ | l
    · rfl
    rw [hf,Option.getD_some] at hs
    have hn : l.isEmpty = false := not_isEmpty l.range (by rw [hs.1]; omega)
    simp [hn]
  rw [he]
  refine ⟨hs.1,hs.2.1,hs.2.2.1,?_,hs.2.2.2.2⟩
  unfold HoleInvariant
  rw [hs.1]
  exact hs.2.2.2.1

theorem rightOf_law (hr : HoleInvariant rs) (ha : Bounded a) (h : top a.stop < top rs.range.stop) :
    (rs.rightOf a).range.stop = rs.range.stop ∧
      top a.stop < (rs.rightOf a).range.start.toNat ∧
      (rs.rightOf a).range.start.toNat ≤ top rs.range.stop ∧ HoleInvariant (rs.rightOf a) ∧
      ∀ x, (rs.rightOf a).range.start.toNat ≤ x ∧ ¬InHoles (rs.rightOf a).holes x ↔
        top a.stop < x ∧ ¬InHoles rs.holes x := by
  have hw := top_lt rs.range.stop
  have hz : a.endOrZero.toNat = top a.stop := endOrZero_eq a (by omega)
  have hs := findRight_spec rs.range.stop a.endOrZero _ rs.holes hr (by omega)
  have he : rs.rightOf a = (findRight rs.range.stop a.endOrZero rs.holes).getD
      ⟨⟨a.endOrZero+1,rs.range.stop⟩,[]⟩ := by
    simp only [rightOf,(lessNil_iff _ _ ha).mpr h]
    rcases hf : findRight rs.range.stop a.endOrZero rs.holes with _ | l
    · rfl
    rw [hf,Option.getD_some] at hs
    have hn : l.isEmpty = false := not_isEmpty l.range (by rw [hs.1]; omega)
    simp [hn]
  rw [he]
  rw [hz] at hs
  refine ⟨hs.1,hs.2.1,hs.2.2.1,?_,hs.2.2.2.2⟩
  unfold HoleInvariant
  rw [hs.1]
  exact hs.2.2.2.1

theorem left_contains {l : RangeSet} (hs : l.range.start = rs.range.start)
    (hn : ¬top a.stop < top rs.range.stop) (hl : top l.range.stop ≤ top rs.range.stop)
    (hx : ∀ x, x ≤ top l.range.stop ∧ ¬InHoles l.holes x ↔
      x < a.start.toNat ∧ ¬InHoles rs.holes x) :
    l.contains x ↔ rs.contains x ∧ ¬a.contains x := by
  have := hx x.toNat
  rw [contains_iff,contains_iff,inRange_iff,hs]
  constructor
  · rintro ⟨⟨h1,h2⟩,h3⟩
    obtain ⟨h4,h5⟩ := this.mp ⟨h2,h3⟩
    exact ⟨⟨⟨h1,by omega⟩,h5⟩,by omega⟩
  rintro ⟨⟨⟨h1,h2⟩,h3⟩,h4⟩
  obtain ⟨h5,h6⟩ := this.mpr ⟨by omega,h3⟩
  exact ⟨⟨h1,h5⟩,h6⟩

theorem right_contains {r : RangeSet} (hs : r.range.stop = rs.range.stop)
    (hn : ¬rs.range.start.toNat < a.start.toNat) (hl : rs.range.start.toNat ≤ r.range.start.toNat)
    (hx : ∀ x, r.range.start.toNat ≤ x ∧ ¬InHoles r.holes x ↔
      top a.stop < x ∧ ¬InHoles rs.holes x) :
    r.contains x ↔ rs.contains x ∧ ¬a.contains x := by
  have := hx x.toNat
  rw [contains_iff,contains_iff,inRange_iff,hs]
  constructor
  · rintro ⟨⟨h1,h2⟩,h3⟩
    obtain ⟨h4,h5⟩ := this.mp ⟨h1,h3⟩
    exact ⟨⟨⟨by omega,h2⟩,h5⟩,by omega⟩
  rintro ⟨⟨⟨h1,h2⟩,h3⟩,h4⟩
  obtain ⟨h5,h6⟩ := this.mpr ⟨by omega,h3⟩
  exact ⟨⟨h5,h2⟩,h6⟩

theorem leftOf_empty (h : ¬rs.range.start.toNat < a.start.toNat) : rs.leftOf a = emptyRangeSet := by
  simp [leftOf,UInt64.lt_iff_toNat_lt,h]

theorem rightOf_empty (ha : Bounded a)
    (h : ¬top a.stop < top rs.range.stop) : rs.rightOf a = emptyRangeSet := by
  have : lessNilAsInf a.stop rs.range.stop = false := by
    simpa using mt (lessNil_iff _ _ ha).mp h
  simp [rightOf,this]

section
variable (hr : HoleInvariant rs)
include hr

theorem leftOf_nonempty
    (h : rs.range.start.toNat < a.start.toNat) : (rs.leftOf a).isEmpty = false := by
  obtain ⟨l1,l2,-⟩ := leftOf_law hr h
  apply not_isEmpty
  rw [l1]
  exact l2

theorem rightOf_nonempty (ha : Bounded a)
    (h : top a.stop < top rs.range.stop) : (rs.rightOf a).isEmpty = false := by
  obtain ⟨r1,-,r3,-⟩ := rightOf_law hr ha h
  apply not_isEmpty
  rw [r1]
  exact r3

theorem leftOf_bounded
    (h : rs.range.start.toNat < a.start.toNat) : Bounded (rs.leftOf a).range := by
  obtain ⟨-,-,l3,-⟩ := leftOf_law hr h
  have hwa := word_lt a.start
  cases hst : (rs.leftOf a).range.stop with
  | none =>
    simp only [hst,top_none] at l3
    omega
  | some e =>
    unfold Bounded
    rw [hst] at l3 ⊢
    exact bounded_some e (by simp only [top_some] at l3; omega)

def glued (rs : RangeSet) (a : Range) : RangeSet :=
  ⟨rs.range,(rs.leftOf a).holes ++
    [((rs.leftOf a).range.endOrZero+1,(rs.rightOf a).range.start-1)] ++ (rs.rightOf a).holes⟩

section
variable (ha : Bounded a)
include ha

section
variable (hL : rs.range.start.toNat < a.start.toNat) (hR : top a.stop < top rs.range.stop)
include hL hR

theorem glued_hole :
    ((rs.leftOf a).range.endOrZero+1).toNat = top (rs.leftOf a).range.stop+1 ∧
      ((rs.rightOf a).range.start-1).toNat = (rs.rightOf a).range.start.toNat-1 := by
  obtain ⟨-,-,l3,-⟩ := leftOf_law hr hL
  obtain ⟨-,r2,-⟩ := rightOf_law hr ha hR
  have hwa := word_lt a.start
  exact ⟨endOrZero_inc _ (by omega),toNat_dec _ (by omega)⟩

variable (hae : a.start.toNat ≤ top a.stop)
include hae

theorem glued_holes : HoleInvariant (glued rs a) := by
  obtain ⟨l1,l2,l3,l4,-⟩ := leftOf_law hr hL
  obtain ⟨r1,r2,r3,r4,-⟩ := rightOf_law hr ha hR
  obtain ⟨hi,hd⟩ := glued_hole hr ha hL hR
  unfold HoleInvariant at l4 r4 ⊢
  rw [l1] at l4
  rw [r1] at r4
  rw [glued,List.append_assoc]
  apply (chain_append _ _ _ _ _).mpr
  simp only [hi,hd]
  refine ⟨by simpa using l4,by omega,by omega,by omega,?_⟩
  rwa [Nat.sub_add_cancel (by omega)]

theorem glued_contains :
    (glued rs a).contains x ↔ rs.contains x ∧ ¬a.contains x := by
  obtain ⟨l1,l2,l3,l4,l5⟩ := leftOf_law hr hL
  obtain ⟨r1,r2,r3,r4,r5⟩ := rightOf_law hr ha hR
  obtain ⟨hi,hd⟩ := glued_hole hr ha hL hR
  have hlx := l5 x.toNat
  have hrx := r5 x.toNat
  rw [glued,contains_iff,contains_iff,inRange_iff]
  simp only [inHoles_append,inHoles_cons,inHoles_nil,or_false]
  constructor
  · rintro ⟨⟨g1,g2⟩,g3⟩
    simp only [not_or] at g3
    obtain ⟨⟨g4,g5⟩,g6⟩ := g3
    by_cases hs : x.toNat ≤ top (rs.leftOf a).range.stop
    · have := hlx.mp ⟨hs,g4⟩
      exact ⟨⟨⟨g1,g2⟩,this.2⟩,by omega⟩
    · have := hrx.mp ⟨by omega,g6⟩
      exact ⟨⟨⟨g1,g2⟩,this.2⟩,by omega⟩
  rintro ⟨⟨⟨g1,g2⟩,g3⟩,g4⟩
  refine ⟨⟨g1,g2⟩,?_⟩
  by_cases hs : x.toNat < a.start.toNat
  · have := hlx.mpr ⟨hs,g3⟩
    have hab := chain_above _ _ _ r4 x.toNat
    simp only [not_or]
    exact ⟨⟨this.2,by omega⟩,fun hh => by have := hab hh; omega⟩
  have := hrx.mpr ⟨by omega,g3⟩
  have hab := chain_above _ _ _ l4 x.toNat
  simp only [not_or]
  exact ⟨⟨fun hh => by have := hab hh; omega,by omega⟩,this.2⟩

end

/-- The general branch of `Remove`, where the removed range meets the set:
the two sides are glued around one new hole, or one side alone remains. -/
theorem remove_overlap (hae : a.start.toNat ≤ top a.stop)
    (hl : rs.range.start.toNat ≤ top a.stop) (hq : a.start.toNat ≤ top rs.range.stop)
    (he : (a.isEmpty || rs.isEmpty) = false)
    (h1 : lessNilAsInf a.stop (some rs.range.start) = false)
    (h2 : lessNilAsInf rs.range.stop (some a.start) = false) :
    Keeps rs (rs.remove a) (fun x => rs.contains x ∧ ¬a.contains x) := by
  unfold RangeSet.remove
  simp only [he,h1,h2,Bool.false_eq_true,if_false]
  by_cases hL : rs.range.start.toNat < a.start.toNat
  · have hln := leftOf_nonempty hr hL
    by_cases hR : top a.stop < top rs.range.stop
    · have hrn := rightOf_nonempty hr ha hR
      simp only [hln,hrn]
      exact Keeps.orEmpty ⟨glued_holes hr ha hL hR hae,id,fun x => glued_contains hr ha hL hR hae⟩
    obtain ⟨l1,-,l3,l4,l5⟩ := leftOf_law hr hL
    simp only [rightOf_empty ha hR,hln,show emptyRangeSet.isEmpty from rfl,
      Bool.not_true,Bool.and_false,Bool.false_eq_true,if_false]
    exact Keeps.orEmpty
      ⟨l4,fun _ => leftOf_bounded hr hL,fun x => left_contains l1 hR (by omega) l5⟩
  simp only [leftOf_empty hL,show emptyRangeSet.isEmpty from rfl,Bool.not_true,
    Bool.false_and,Bool.false_eq_true,if_false,if_true]
  by_cases hR : top a.stop < top rs.range.stop
  · obtain ⟨r1,r2,r3,r4,r5⟩ := rightOf_law hr ha hR
    exact Keeps.orEmpty
      ⟨r4,fun hb => by rwa [Bounded,r1],fun x => right_contains r1 hL (by omega) r5⟩
  rw [rightOf_empty ha hR]
  refine Keeps.orEmpty ⟨trivial,fun _ => by decide,fun x => ?_⟩
  rw [empty_contains,contains_iff,inRange_iff]
  constructor
  · simp
  · omega

theorem remove_keeps : Keeps rs (rs.remove a) (fun x => rs.contains x ∧ ¬a.contains x) := by
  by_cases hae : a.isEmpty
  · exact ⟨by simpa [RangeSet.remove,hae] using hr,by simp [RangeSet.remove,hae],
      by simp [RangeSet.remove,hae,not_inRange a hae]⟩
  by_cases hre : rs.isEmpty
  · exact ⟨by simpa [RangeSet.remove,hre] using hr,by simp [RangeSet.remove,hre],
      by simp [RangeSet.remove,hre,isEmpty_contains rs hre]⟩
  have ha' := mt (isEmpty_iff a).mpr hae
  have he : (a.isEmpty || rs.isEmpty) = false := by simp [hae,hre]
  have hapart : top a.stop < rs.range.start.toNat ∨ top rs.range.stop < a.start.toNat →
      Keeps rs rs (fun x => rs.contains x ∧ ¬a.contains x) := by
    intro hlt
    refine ⟨hr,id,fun x => ?_⟩
    rw [contains_iff,inRange_iff]
    exact ⟨fun hh => ⟨hh,by omega⟩,fun hh => hh.1⟩
  by_cases h1 : lessNilAsInf a.stop (some rs.range.start)
  · simp only [RangeSet.remove,he,h1]
    exact hapart (.inl ((less_some_iff _ _).mp h1))
  by_cases h2 : lessNilAsInf rs.range.stop (some a.start)
  · simp only [RangeSet.remove,he,h1,h2]
    exact hapart (.inr ((less_some_iff _ _).mp h2))
  have g1 := mt (less_some_iff _ _).mpr h1
  have g2 := mt (less_some_iff _ _).mpr h2
  exact remove_overlap hr ha (by omega) (by omega) (by omega) he
    (by simpa using h1) (by simpa using h2)

end

end

theorem cover_of_nonempty (hr : r.isEmpty = false) (ha : a.isEmpty = false) :
    r.cover a = ⟨min r.start a.start,maxNilAsInf r.stop a.stop⟩ := by
  simp [Range.cover,hr,ha]

section
variable (hr : HoleInvariant rs)
include hr

section
variable (hae : a.start.toNat ≤ top a.stop) (hre : rs.range.start.toNat ≤ top rs.range.stop)
include hae hre

/-- A set that covers both and has the gap between them as a hole. -/
theorem bridged_contains {u : RangeSet}
    (hs : u.range.start.toNat = min rs.range.start.toNat a.start.toNat)
    (ht : top u.range.stop = max (top rs.range.stop) (top a.stop))
    (hapart : top rs.range.stop < a.start.toNat ∨ top a.stop < rs.range.start.toNat)
    (hu : ∀ x, InHoles u.holes x ↔ InHoles rs.holes x ∨
      top rs.range.stop < x ∧ x < a.start.toNat ∨ top a.stop < x ∧ x < rs.range.start.toNat)
    {x : UInt64} : u.contains x ↔ rs.contains x ∨ a.contains x := by
  have habove := chain_above _ _ _ hr x.toNat
  rw [contains_iff,contains_iff,inRange_iff,hu]
  by_cases hx : InHoles rs.holes x.toNat
  · have := habove hx
    simp only [hx,true_or,not_true_eq_false,and_false,false_or,false_iff]
    omega
  · simp only [hx,false_or,not_false_eq_true,and_true]
    omega

theorem union_right (ha : Bounded a) (h : top rs.range.stop < a.start.toNat) :
    let result : RangeSet := if rs.range.endOrZero+1 = a.start
      then ⟨⟨rs.range.start,a.stop⟩,rs.holes⟩
      else ⟨⟨rs.range.start,a.stop⟩,rs.holes ++ [(rs.range.endOrZero+1,a.start-1)]⟩
    Keeps rs result (fun x => rs.contains x ∨ a.contains x) := by
  have hw := word_lt a.start
  have hi := endOrZero_inc rs.range (by omega)
  have hd : (a.start-1).toNat = a.start.toNat-1 := toNat_dec _ (by omega)
  split
  · rename_i he
    have he' : top rs.range.stop+1 = a.start.toNat := by rw [← hi,he]
    refine ⟨chain_last _ _ hr (by dsimp only; omega),fun _ => ha,?_⟩
    apply bridged_contains hr hae hre (by dsimp only; omega) (by dsimp only; omega) (.inl h)
    exact fun x => (or_iff_left (by omega)).symm
  rename_i he
  have he' := mt UInt64.toNat_inj.mp he
  refine ⟨(chain_append _ _ _ _ _).mpr ?_,fun _ => ha,?_⟩
  · simp only [hi]
    exact ⟨by simpa [HoleInvariant] using hr,by omega,by omega,by omega,trivial⟩
  apply bridged_contains hr hae hre (by dsimp only; omega) (by dsimp only; omega) (.inl h)
  intro x
  simp only [inHoles_append,inHoles_cons,inHoles_nil,or_false]
  exact or_congr_right (by omega)

theorem union_left (h : top a.stop < rs.range.start.toNat) :
    let result : RangeSet := if a.endOrZero+1 = rs.range.start
      then ⟨⟨a.start,rs.range.stop⟩,rs.holes⟩
      else ⟨⟨a.start,rs.range.stop⟩,(a.endOrZero+1,rs.range.start-1)::rs.holes⟩
    Keeps rs result (fun x => rs.contains x ∨ a.contains x) := by
  have hw := word_lt rs.range.start
  have hi := endOrZero_inc a (by omega)
  have hd : (rs.range.start-1).toNat = rs.range.start.toNat-1 := toNat_dec _ (by omega)
  split
  · rename_i he
    have he' : top a.stop+1 = rs.range.start.toNat := by rw [← hi,he]
    refine ⟨chain_first _ _ hr (by dsimp only; omega),id,?_⟩
    apply bridged_contains hr hae hre (by dsimp only; omega) (by dsimp only; omega) (.inr h)
    exact fun x => (or_iff_left (by omega)).symm
  rename_i he
  have he' := mt UInt64.toNat_inj.mp he
  refine ⟨⟨?_,?_,?_,?_⟩,id,?_⟩
  · simp only [hi]; omega
  · simp only [hd]; omega
  · simp only [hd]; omega
  · simp only [hd]
    rw [Nat.sub_add_cancel (by omega)]
    exact hr
  apply bridged_contains hr hae hre (by dsimp only; omega) (by dsimp only; omega) (.inr h)
  intro x
  simp only [inHoles_cons,or_comm (b := InHoles rs.holes x)]
  exact or_congr_right (by omega)

/-- The overlapping branch of `Union`: the holes inside the added range are
filled, and those outside stay. -/
theorem union_overlap (ha : Bounded a)
    (h1 : a.start.toNat ≤ top rs.range.stop) (h2 : rs.range.start.toNat ≤ top a.stop) :
    let result : RangeSet := ⟨a.cover rs.range,RangeSet.fillHoles a rs.holes⟩
    Keeps rs result (fun x => rs.contains x ∨ a.contains x) := by
  have hea := not_isEmpty a hae
  have her := not_isEmpty rs.range hre
  obtain ⟨hf,hx⟩ := fillHoles_spec a _ _ rs.holes hr (top_lt _) hae
  have hab := chain_above _ _ _ hr
  rw [cover_of_nonempty hea her]
  refine ⟨?_,max_bounded ha,fun x => ?_⟩
  · unfold HoleInvariant
    simp only [toNat_min,top_max]
    exact chain_first _ _ (chain_last _ _ hf (by omega)) (by omega)
  rw [contains_iff,contains_iff,inRange_iff]
  simp only [toNat_min,top_max,hx]
  constructor
  · rintro ⟨⟨g1,g2⟩,g3⟩
    by_cases hxa : a.start.toNat ≤ x.toNat ∧ x.toNat ≤ top a.stop
    · exact .inr hxa
    · exact .inl ⟨by omega,fun hh => g3 ⟨hh,hxa⟩⟩
  · rintro (⟨g1,g3⟩ | g1)
    · exact ⟨by omega,fun hh => g3 hh.1⟩
    · exact ⟨by omega,fun hh => hh.2 g1⟩

end

theorem union_keeps (ha : Bounded a) :
    Keeps rs (rs.union a) (fun x => rs.contains x ∨ a.contains x) := by
  by_cases hae : a.isEmpty
  · exact ⟨by simpa [RangeSet.union,hae] using hr,by simp [RangeSet.union,hae],
      by simp [RangeSet.union,hae,not_inRange a hae]⟩
  by_cases hre : rs.isEmpty
  · simp only [RangeSet.union,hae,hre]
    exact ⟨trivial,fun _ => ha,by simp [interval_contains,isEmpty_contains rs hre]⟩
  have ha' := mt (isEmpty_iff a).mpr hae
  have hr' := mt (set_isEmpty_iff rs).mpr hre
  by_cases h1 : lessNilAsInf rs.range.stop (some a.start)
  · have hs := union_right hr (by omega) (by omega) ha ((less_some_iff _ _).mp h1)
    simpa only [RangeSet.union,hae,hre,h1,Bool.false_eq_true,if_false,if_true] using hs
  by_cases h2 : lessNilAsInf a.stop (some rs.range.start)
  · have hs := union_left hr (by omega) (by omega) ((less_some_iff _ _).mp h2)
    simpa only [RangeSet.union,hae,hre,h1,h2,Bool.false_eq_true,if_false,if_true] using hs
  have g1 := mt (less_some_iff _ _).mpr h1
  have g2 := mt (less_some_iff _ _).mpr h2
  have hs := union_overlap hr (by omega) (by omega) ha (by omega) (by omega)
  simpa only [RangeSet.union,hae,hre,h1,h2,Bool.false_eq_true,if_false] using hs

end

theorem intersection_law (a : Range) (hr : Canonical rs) (ha : Bounded a) :
    Canonical (rs.intersection a) ∧
      ∀ x, (rs.intersection a).contains x ↔ rs.contains x ∧ a.contains x :=
  (intersection_keeps hr.holes ha).canonical hr

theorem remove_law (rs : RangeSet) (a : Range) (hr : Canonical rs) (ha : Bounded a) :
    Canonical (rs.remove a) ∧
      ∀ x, (rs.remove a).contains x ↔ rs.contains x ∧ ¬a.contains x :=
  (remove_keeps hr.holes ha).canonical hr

theorem union_law (rs : RangeSet) (a : Range) (hr : Canonical rs) (ha : Bounded a) :
    Canonical (rs.union a) ∧
      ∀ x, (rs.union a).contains x ↔ rs.contains x ∨ a.contains x :=
  (union_keeps hr.holes ha).canonical hr

end Sentio.RangeSetAlgebra
