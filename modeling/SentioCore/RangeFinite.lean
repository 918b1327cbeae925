import SentioCore.RangeFind

/-!
# Finite ranges that may end at the last word

The laws of range sets are stated for ranges that do not end at the last word,
because an infinite range covers the same blocks and compares differently.
-/

namespace Sentio.RangeFinite
open RangeModel RangeHoles RangeSetAlgebra RangeSetMerge RangeFind WordArith Bool RangeSet Option

def openStop (stop : Option UInt64) : Option UInt64 :=
  if stop = some maxUint64 then none else stop

def openEnd (r : Range) : Range := ⟨r.start,openStop r.stop⟩

def openSet (rs : RangeSet) : RangeSet := ⟨openEnd rs.range,rs.holes⟩

structure FiniteSet (rs : RangeSet) : Prop where
  canonical : Canonical (openSet rs)
  finite : rs.range.stop ≠ none

theorem openStop_last : openStop (some maxUint64) = none := by simp [openStop]

variable {stop : Option UInt64}

theorem openStop_below (h : stop ≠ some maxUint64) : openStop stop = stop := by simp [openStop,h]

@[simp] theorem top_openStop : top (openStop stop) = top stop := by
  by_cases h : stop = some maxUint64
  · rw [h]
    rfl
  · rw [openStop_below h]

theorem openStop_bounded : openStop stop ≠ some maxUint64 := by
  by_cases h : stop = some maxUint64
  · rw [h,openStop_last]
    exact nofun
  · rwa [openStop_below h]

variable {r : Range}

theorem openEnd_bounded : Bounded (openEnd r) := openStop_bounded

theorem openEnd_below (h : Bounded r) : openEnd r = r := by
  rw [openEnd,openStop_below h]

variable {x : UInt64}

@[simp] theorem openEnd_contains : (openEnd r).contains x = r.contains x := by
  rw [Bool.eq_iff_iff,inRange_iff,inRange_iff,openEnd,top_openStop]

@[simp] theorem openEnd_isEmpty : (openEnd r).isEmpty = r.isEmpty := by
  rw [Bool.eq_iff_iff,RangeHoles.isEmpty_iff,RangeHoles.isEmpty_iff,openEnd,top_openStop]

@[simp] theorem openSet_contains {rs : RangeSet} : (openSet rs).contains x = rs.contains x := by
  simp [openSet,contains]

variable {n : UInt64}

theorem lessNil_openStop : lessNilAsInf (openStop stop) (some n) = lessNilAsInf stop (some n) := by
  rw [Bool.eq_iff_iff,less_some_iff,less_some_iff,top_openStop]

variable {b : Option UInt64}

theorem max_openStop {a : Option UInt64} (ha : a ≠ none) (hb : b ≠ none) :
    maxNilAsInf (openStop a) (openStop b) = openStop (maxNilAsInf a b) := by
  obtain ⟨a,rfl⟩ := ne_none_iff_exists'.mp ha
  obtain ⟨b,rfl⟩ := ne_none_iff_exists'.mp hb
  have hm : maxUint64.toNat = (2^64-1) := rfl
  by_cases h1 : a = maxUint64
  · have hmax : max a b = maxUint64 := by
      apply UInt64.toNat_inj.mp
      have hw := word_lt b
      rw [toNat_max,h1]
      omega
    rw [maxNilAsInf,hmax,h1]
    cases openStop (some b) <;> rfl
  by_cases h2 : b = maxUint64
  · have hmax : max a b = maxUint64 := by
      apply UInt64.toNat_inj.mp
      have hw := word_lt a
      rw [toNat_max,h2]
      omega
    rw [maxNilAsInf,hmax,h2]
    cases openStop (some a) <;> rfl
  rw [openStop_below (by simpa using h1),openStop_below (by simpa using h2),
    maxNilAsInf,openStop_below]
  have hw1 := bounded_top a (by simpa using h1)
  have hw2 := bounded_top b (by simpa using h2)
  apply bounded_some
  rw [toNat_max]
  omega

variable {a : Range}

/-- Removing from a finite range does not look at an end beyond its own. -/
theorem remove_openEnd {h : Hole} :
    Range.remove ⟨h.1,some h.2⟩ (openEnd a) = Range.remove ⟨h.1,some h.2⟩ a := by
  by_cases hl : a.stop = some maxUint64
  · have hless : ∀ n, lessNilAsInf a.stop (some n) = false := by
      intro n
      have hw := word_lt n
      have hm : maxUint64.toNat = (2^64-1) := rfl
      rw [eq_false_iff,ne_eq,less_some_iff,hl,top_some]
      omega
    have hopen : ∀ n, lessNilAsInf (openEnd a).stop (some n) = false := by
      intro n
      rw [openEnd,lessNil_openStop,hless]
    simp only [Range.remove,openEnd_isEmpty,hless,hopen,false_eq_true,if_false]
    rfl
  · rw [openEnd_below hl]

variable {holes : List Hole}

theorem fillHoles_openEnd : fillHoles (openEnd a) holes = fillHoles a holes := by
  induction holes with
  | nil => rfl
  | cons h rest ih => simp only [fillHoles,remove_openEnd,ih]

variable {rs : RangeSet}

theorem union_openSet (hr : rs.range.stop ≠ none)
    (ha : a.stop ≠ none) : (openSet rs).union (openEnd a) = openSet (rs.union a) := by
  have hset : (openSet rs).isEmpty = rs.isEmpty := openEnd_isEmpty
  have hend : ∀ r : Range, ∀ n, lessNilAsInf r.stop (some n) →
      (openEnd r).endOrZero = r.endOrZero := by
    intro r n h
    have hw := word_lt n
    rw [less_some_iff] at h
    rw [openEnd_below]
    intro hl
    rw [hl,top_some,show maxUint64.toNat = (2^64-1) from rfl] at h
    omega
  simp only [union,openEnd_isEmpty,hset]
  by_cases hae : a.isEmpty
  · simp only [hae,if_true]
  by_cases hre : rs.isEmpty
  · simp only [hae,hre]
    rfl
  have hl1 : lessNilAsInf (openSet rs).range.stop (some (openEnd a).start) =
      lessNilAsInf rs.range.stop (some a.start) := lessNil_openStop
  have hl2 : lessNilAsInf (openEnd a).stop (some (openSet rs).range.start) =
      lessNilAsInf a.stop (some rs.range.start) := lessNil_openStop
  simp only [hae,hre,if_false,false_eq_true,hl1,hl2]
  by_cases h1 : lessNilAsInf rs.range.stop (some a.start)
  · have he : (openSet rs).range.endOrZero = rs.range.endOrZero := hend _ _ h1
    simp only [h1,if_true,he]
    show (if rs.range.endOrZero+1 = a.start then _ else _) = _
    split <;> rfl
  by_cases h2 : lessNilAsInf a.stop (some rs.range.start)
  · have he : (openEnd a).endOrZero = a.endOrZero := hend _ _ h2
    simp only [h1,h2,if_true,if_false,false_eq_true,he]
    show (if a.endOrZero+1 = rs.range.start then _ else _) = _
    split <;> rfl
  have hae' : a.isEmpty = false := by simpa using hae
  have hre' : rs.range.isEmpty = false := eq_false_of_not_eq_true hre
  simp only [h1,h2,if_false,false_eq_true,fillHoles_openEnd]
  rw [cover_of_nonempty (by rw [openEnd_isEmpty,hae'])
    (by rw [openSet,openEnd_isEmpty,hre']),cover_of_nonempty hae' hre']
  simp [openSet,openEnd,max_openStop ha hr]

theorem finite_max {a : Option UInt64} (ha : a ≠ none) (hb : b ≠ none) :
    maxNilAsInf a b ≠ none := by
  obtain ⟨a,rfl⟩ := ne_none_iff_exists'.mp ha
  obtain ⟨b,rfl⟩ := ne_none_iff_exists'.mp hb
  exact nofun

theorem finite_cover (hr : r.stop ≠ none) (ha : a.stop ≠ none) : (r.cover a).stop ≠ none := by
  unfold Range.cover
  split
  · exact ha
  split
  · exact hr
  · exact finite_max hr ha

theorem union_stop (hr : rs.range.stop ≠ none)
    (ha : a.stop ≠ none) : (rs.union a).range.stop ≠ none := by
  unfold union
  split
  · exact hr
  split
  · exact ha
  split
  · split <;> exact ha
  split
  · split <;> exact hr
  · exact finite_cover ha hr

theorem finiteSet_empty : FiniteSet emptyRangeSet := ⟨⟨trivial,by decide⟩,by decide⟩

theorem union_finite (hr : FiniteSet rs) (ha : a.stop ≠ none) : FiniteSet (rs.union a) ∧
      ∀ x, (rs.union a).contains x ↔ rs.contains x ∨ a.contains x := by
  obtain ⟨hc,hx⟩ := union_law (openSet rs) (openEnd a) hr.canonical openEnd_bounded
  rw [union_openSet hr.finite ha] at hc hx
  simp only [openSet_contains,openEnd_contains] at hx
  exact ⟨⟨hc,union_stop hr.finite ha⟩,hx⟩

theorem rangesFrom_openStop (start : UInt64)
    (first : ℕ) {last : ℕ} (h : HoleChain first last holes) :
    rangesFrom start (openStop stop) holes =
      (rangesFrom start stop holes).map openEnd := by
  induction holes generalizing start first with
  | nil => rfl
  | cons g rest ih =>
    have hb : Bounded ⟨start,some (g.1-1)⟩ := by
      have h1 := h.1
      have hw := word_lt g.1
      apply bounded_some
      rw [toNat_dec g.1 (by omega)]
      omega
    rw [rangesFrom,rangesFrom,List.map_cons,ih _ _ h.2.2.2,openEnd_below hb]

theorem getRanges_openSet (h : FiniteSet rs) :
    (openSet rs).getRanges = rs.getRanges.map openEnd := by
  have hset : (openSet rs).isEmpty = rs.isEmpty := openEnd_isEmpty
  rw [getRanges,getRanges,hset]
  by_cases he : rs.isEmpty
  · simp only [he,if_true,List.map_nil]
  · simp only [he]
    exact rangesFrom_openStop _ _ h.canonical.holes

variable {stop : UInt64}

theorem includes_finite (r : Range) (hs : a.stop = some stop) (hne : a.start.toNat ≤ stop.toNat) :
    r.includes a ↔ r.contains a.start ∧ r.contains stop := by
  have ha : a.isEmpty = false := not_isEmpty a (by rw [hs]; exact hne)
  by_cases hr : r.isEmpty
  · simp [Range.includes,ha,hr,not_inRange r hr]
  simp only [Range.includes,ha,hr,false_eq_true,if_false,and_eq_true,
    decide_eq_true_eq,hs,some_lessEqual_iff,inRange_iff,UInt64.le_iff_toNat_le]
  omega

theorem findIn_cases {items : List Range} : findIn r stop items = (zeroRange,false) ∨
      ∃ item ∈ items, item.includes r ∧ findIn r stop items = (item,true) := by
  induction items with
  | nil => exact .inl rfl
  | cons item rest ih =>
    rw [findIn]
    by_cases hinc : item.includes r
    · exact .inr ⟨item,by simp,by simp [hinc]⟩
    by_cases hlt : stop < item.start
    · simp [hinc,hlt]
    simp only [hinc,hlt]
    rcases ih with h | ⟨i,hi,h1,h2⟩
    · exact .inl h
    · exact .inr ⟨i,List.mem_cons_of_mem _ hi,h1,h2⟩

theorem getRanges_finite (h : rs.range.stop ≠ none) {item : Range}
    (hi : item ∈ rs.getRanges) : item.stop ≠ none := by
  have hfrom : ∀ start : UInt64, ∀ holes, item ∈ rangesFrom start rs.range.stop holes →
      item.stop ≠ none := by
    intro start holes
    induction holes generalizing start with
    | nil =>
      intro hi
      rwa [List.mem_singleton.mp hi]
    | cons g rest ih =>
      intro hi
      rcases List.mem_cons.mp hi with rfl | hi
      · exact nofun
      · exact ih _ hi
  unfold getRanges at hi
  split at hi
  · cases hi
  · exact hfrom _ _ hi

/-- A finite seed is found in a finite set with the blocks joined to it, or the
answer is the range of all blocks. -/
theorem findContains_finite (h : FiniteSet rs)
    (hs : r.stop = some stop) (hr : r.start.toNat ≤ stop.toNat) :
    (findContains rs r).1 = zeroRange ∨
      ((findContains rs r).1.stop ≠ none ∧ (findContains rs r).1.contains r.start ∧
        ∀ x, (findContains rs r).1.contains x ↔
          Joined (fun y => rs.contains y) r.start x) := by
  rw [findContains,hs]
  dsimp only
  rcases findIn_cases with hf | ⟨item,hi,hinc,hf⟩
  · exact .inl (by rw [hf])
  rw [hf]
  have hstart := ((includes_finite item hs hr).mp hinc).1
  refine .inr ⟨getRanges_finite h.finite hi,hstart,fun x => ?_⟩
  obtain ⟨hsep,hmem⟩ := getRanges_spec (openSet rs) h.canonical
  rw [getRanges_openSet h] at hsep hmem
  have hj := separated_joined _ 0 hsep (openEnd item) (List.mem_map_of_mem hi) r.start x
    (by rwa [openEnd_contains])
  rw [openEnd_contains] at hj
  rw [hj]
  simp [hmem,openSet_contains]

theorem equal_finite (hr : r.stop ≠ none) (h : equal r a) (x : UInt64) :
    r.contains x ↔ a.contains x := by
  have hsub : ∀ p q : Range, p.includes q → q.stop ≠ none → q.contains x → p.contains x := by
    intro p q hpq hq hx
    obtain ⟨stop,hs⟩ := ne_none_iff_exists'.mp hq
    rw [inRange_iff,hs,top_some] at hx
    have hinc := (includes_finite p hs (by omega)).mp hpq
    rw [inRange_iff,inRange_iff] at hinc
    rw [inRange_iff]
    omega
  rw [equal,and_eq_true] at h
  constructor
  · exact fun hx => hsub a r h.2 hr hx
  intro hx
  by_cases ha : a.stop = none
  · have hinf : r.includes a = false := by
      have hae : a.isEmpty = false := by simp [Range.isEmpty,ha,lessNilAsInf]
      obtain ⟨stop,hs⟩ := ne_none_iff_exists'.mp hr
      simp [Range.includes,hae,ha,hs,lessEqualNilAsInf]
    rw [hinf] at h
    cases h.1
  · exact hsub r a h.1 ha hx

theorem cover_meeting (hr : r.contains n) (ha : a.contains n)
    : (r.cover a).contains x ↔ r.contains x ∨ a.contains x := by
  rw [inRange_iff] at hr ha
  rw [cover_of_nonempty (not_isEmpty r (by omega)) (not_isEmpty a (by omega)),
    inRange_iff,inRange_iff,inRange_iff,toNat_min,top_max]
  omega

end Sentio.RangeFinite
