import SentioCore.RangeFinite
import SentioCore.TemplateModel

/-!
# The block range sets of the controller

What the controller asks a set of blocks with the hole invariant: it includes a
range exactly when it has all blocks of it, and its last part is what lies behind
the last gap.
-/

namespace Sentio.BlockRangeSets
open RangeModel RangeHoles RangeSetAlgebra RangeFind RangeFinite TemplateModel WordArith

variable {rs : RangeSet}

theorem cut_holes {r a : Range} (hb : Bounded a) : HoleInvariant (r.remove a) := by
  rcases remove_shape r a with ⟨left,h⟩ | ⟨_,hne,hs,hless,h⟩
  · rw [h]
    trivial
  have hne := start_le_top hne
  have hw := top_lt r.stop
  rw [lessNil_iff _ _ hb] at hless
  have hend := endOrZero_eq a (by omega)
  rw [h]
  exact ⟨hs,by simpa [hend] using hne,by simpa [hend] using hless,trivial⟩

theorem cut_contains {r a : Range} (hb : Bounded a) (x : UInt64) :
    (r.remove a).contains x ↔ r.contains x ∧ ¬a.contains x := by
  by_cases h1 : r.isEmpty
  · simp [Range.remove,h1,empty_contains,not_inRange r h1]
  by_cases h2 : a.isEmpty
  · simp [Range.remove,h1,h2,interval_contains,not_inRange a h2]
  rw [Bool.not_eq_true] at h1 h2
  have hrem := remove_branches (start_le_top h1) (start_le_top h2)
  have hw := top_lt r.stop
  simp only [lessNil_iff _ _ hb] at hrem
  rw [inRange_iff,inRange_iff]
  rcases hrem with ⟨hx,h⟩ | ⟨hx,h⟩ | ⟨hx,h⟩ | ⟨hx,h⟩ | ⟨hx,h⟩
  · rw [hx,interval_contains,inRange_iff]
    omega
  · simp only [hx,interval_contains,inRange_iff,endOrZero_inc a (by omega)]
    omega
  · rw [hx,empty_contains]
    simp only [Bool.false_eq_true,false_iff]
    omega
  · simp only [hx,contains_iff,inHoles_cons,inHoles_nil,or_false,endOrZero_eq a (by omega)]
  · simp only [hx,interval_contains,inRange_iff,top_some,toNat_dec a.start (by omega)]
    omega

theorem isEmpty_iff_contains {r : Range} : r.isEmpty ↔ ∀ x, r.contains x = false := by
  constructor
  · exact not_inRange r
  intro h
  by_contra he
  have hne := start_le_top ((Bool.not_eq_true _).mp he)
  have := (inRange_iff r r.start).mpr ⟨le_rfl,hne⟩
  rw [h] at this
  cases this

theorem includesRange_iff {a : Range} {stop : UInt64} (hs : a.stop = some stop) :
    includesRange rs a ↔ ∀ x, a.contains x → rs.contains x := by
  by_cases he : a.isEmpty
  · have hno := isEmpty_iff_contains.mp he
    have hcut : ∀ r, (a.intersection r).isEmpty := by
      intro r
      rw [isEmpty_iff_contains]
      intro x
      rw [Bool.eq_false_iff,ne_eq,range_intersection_iff,hno]
      simp
    simp [includesRange,Range.includes,he,hcut,hno]
  have hle := start_le_top ((Bool.not_eq_true _).mp he)
  rw [hs,top_some] at hle
  have hcut : ∀ h ∈ rs.holes, (a.intersection ⟨h.1,some h.2⟩).isEmpty ↔
      ∀ x, a.contains x → ¬(h.1.toNat ≤ x.toNat ∧ x.toNat ≤ h.2.toNat) := by
    intro h _
    rw [isEmpty_iff_contains]
    apply forall_congr'
    intro x
    rw [Bool.eq_false_iff,ne_eq,range_intersection_iff,inRange_iff ⟨h.1,some h.2⟩]
    tauto
  rw [includesRange,Bool.and_eq_true,includes_finite rs.range hs hle,List.all_eq_true]
  constructor
  · rintro ⟨⟨h1,h2⟩,hall⟩ x hx
    rw [inRange_iff] at h1 h2
    rw [contains_iff]
    refine ⟨?_,?_⟩
    · rw [inRange_iff,hs,top_some] at hx
      omega
    · rintro ⟨h,hm,hin⟩
      exact (hcut h hm).mp (hall h hm) x hx hin
  intro hall
  have hends : ∀ x, a.contains x → rs.range.contains x := by
    intro x hx
    rw [inRange_iff]
    exact ((contains_iff rs x).mp (hall x hx)).1
  refine ⟨⟨hends _ ?_,hends _ ?_⟩,fun h hm => (hcut h hm).mpr fun x hx hin => ?_⟩
  · rw [inRange_iff,hs,top_some]
    omega
  · rw [inRange_iff,hs,top_some]
    omega
  · exact ((contains_iff rs x).mp (hall x hx)).2 ⟨h,hm,hin⟩

/-- The last part has the blocks behind which the set has no gap. -/
theorem last_iff (hr : HoleInvariant rs) (x : UInt64) : (last rs).contains x ↔ rs.contains x ∧
    ∀ y z, x.toNat ≤ y.toNat → y.toNat ≤ z.toNat → rs.contains z → rs.contains y := by
  unfold last
  split
  · rename_i he
    simp [isEmpty_contains rs he,not_inRange Range.empty rfl]
  split
  · rename_i hnone
    have hno : rs.holes = [] := List.getLast?_eq_none_iff.mp hnone
    simp only [contains_iff,inRange_iff,hno,inHoles_nil,not_false_eq_true,and_true]
    constructor
    · intro hx
      exact ⟨hx,fun y z hxy hyz hz => by omega⟩
    · exact fun hx => hx.1
  rename_i h hlast
  obtain ⟨front,hsplit⟩ := List.getLast?_eq_some_iff.mp hlast
  have hchain := hr
  rw [HoleInvariant,hsplit,chain_append] at hchain
  obtain ⟨hfront,-,h1,h2,-⟩ := hchain
  have hw := top_lt rs.range.stop
  have hi : (h.2+1).toNat = h.2.toNat+1 := toNat_inc _ (by omega)
  have hbelow : ∀ n, InHoles rs.holes n → n ≤ h.2.toNat := by
    intro n hn
    rw [hsplit,inHoles_append,inHoles_cons] at hn
    rcases hn with hn | hn | hn
    · have := chain_above _ _ _ hfront n hn
      omega
    · exact hn.2
    · exact absurd hn (inHoles_nil n)
  have hhole : InHoles rs.holes h.2.toNat := ⟨h,by simp [hsplit],h1,le_rfl⟩
  simp only [contains_iff,inRange_iff]
  have hstart := chain_above _ _ _ hr _ hhole
  constructor
  · intro hx
    refine ⟨⟨by omega,fun hn => ?_⟩,fun y z hxy hyz hz => ⟨by omega,fun hn => ?_⟩⟩
    · have := hbelow _ hn
      omega
    · have := hbelow _ hn
      omega
  rintro ⟨hx,hall⟩
  by_contra hle
  have hz := hall h.2 (rs.range.stop.getD maxUint64) (by omega)
    (show h.2.toNat ≤ top rs.range.stop by omega)
    ⟨⟨show _ ≤ top rs.range.stop by omega,le_rfl⟩,fun hn => ?_⟩
  · exact hz.2 hhole
  · have := hbelow (top rs.range.stop) hn
    omega

end Sentio.BlockRangeSets
