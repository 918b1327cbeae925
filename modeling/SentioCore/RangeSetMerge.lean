import SentioCore.RangeSetAlgebra

/-!
# Range sets as lists of separated ranges

A canonical set is the union of separated ranges, and a separated list is
rebuilt to a canonical set without any merge.
-/

namespace Sentio.RangeSetMerge
open RangeModel RangeHoles RangeSetAlgebra WordArith RangeSet List

/-- Nonempty ranges from `first` on, with at least one number between two
neighbours. An infinite range can only be the last one. -/
def Separated (first : ℕ) : List Range → Prop
  | [] => True
  | r::rest => first ≤ r.start.toNat ∧ r.start.toNat ≤ top r.stop ∧ Bounded r ∧
      Separated (top r.stop+2) rest

/-- Separated ranges, of which the last one may end with the last word. -/
def Apart (first : ℕ) : List Range → Prop
  | [] => True
  | r::rest => first ≤ r.start.toNat ∧ r.start.toNat ≤ top r.stop ∧ Apart (top r.stop+2) rest

def InRanges (rs : List Range) (x : ℕ) : Prop :=
  ∃ r ∈ rs, r.start.toNat ≤ x ∧ x ≤ top r.stop

@[simp] theorem inRanges_nil (x : ℕ) : ¬InRanges [] x := by simp [InRanges]

variable (r : Range) (rs : List Range)

@[simp] theorem inRanges_cons (x : ℕ) :
    InRanges (r::rs) x ↔ (r.start.toNat ≤ x ∧ x ≤ top r.stop) ∨ InRanges rs x := by
  simp [InRanges]

variable (first : ℕ)

theorem separated_apart {rs : List Range} (hs : Separated first rs) : Apart first rs := by
  induction rs generalizing first with
  | nil => trivial
  | cons r rest ih => exact ⟨hs.1,hs.2.1,ih _ hs.2.2.2⟩

theorem separated_mono (first' : ℕ) {rs : List Range} (hs : Separated first rs)
    (h : first' ≤ first) : Separated first' rs := by
  cases rs with
  | nil => trivial
  | cons r rest => exact ⟨by have := hs.1; omega,hs.2⟩

theorem apart_mono {first' : ℕ} {rs : List Range} (hs : Apart first rs)
    (h : first' ≤ first) : Apart first' rs := by
  cases rs with
  | nil => trivial
  | cons r rest => exact ⟨h.trans hs.1,hs.2⟩

theorem separated_above {rs : List Range} (hs : Separated first rs) (x : ℕ)
    (hx : InRanges rs x) : first ≤ x := by
  induction rs generalizing first with
  | nil => simp at hx
  | cons r rest ih =>
    obtain ⟨h1,h2,h3,h4⟩ := hs
    rcases (inRanges_cons r rest x).mp hx with hr | hr
    · omega
    · have := ih _ h4 hr
      omega

theorem rangesFrom_spec (start : UInt64) {stop : Option UInt64} {holes : List Hole}
    (hc : HoleChain start.toNat (top stop) holes) (hs : start.toNat ≤ top stop)
    (hb : stop ≠ some maxUint64) :
    Separated start.toNat (rangesFrom start stop holes) ∧
      ∀ x, InRanges (rangesFrom start stop holes) x ↔
        (start.toNat ≤ x ∧ x ≤ top stop) ∧ ¬InHoles holes x := by
  induction holes generalizing start with
  | nil =>
    simp only [rangesFrom,inRanges_cons,inRanges_nil,or_false,inHoles_nil,
      not_false_eq_true,and_true,implies_true]
    exact ⟨le_rfl,hs,hb,trivial⟩
  | cons h rest ih =>
    obtain ⟨h1,h2,h3,h4⟩ := hc
    have ht := top_lt stop
    have hi : (h.2+1).toNat = h.2.toNat+1 := toNat_inc _ (by omega)
    have hd : (h.1-1).toNat = h.1.toNat-1 := toNat_dec _ (by omega)
    obtain ⟨i1,i2⟩ := ih (h.2+1) (by rwa [hi]) (by omega)
    constructor
    · refine ⟨le_rfl,?_,bounded_some _ ?_,?_⟩
      · simp only [top_some]; omega
      · omega
      · simp only [top_some]
        exact separated_mono _ _ i1 (by omega)
    intro x
    have hab := chain_above _ _ _ h4 x
    simp only [rangesFrom,inRanges_cons,inHoles_cons,i2,top_some,not_or]
    constructor
    · rintro (hx | ⟨hx,hn⟩)
      · exact ⟨by omega,by omega,fun hh => by have := hab hh; omega⟩
      · exact ⟨by omega,by omega,hn⟩
    rintro ⟨hx,h5,h6⟩
    by_cases hl : x < h.1.toNat
    · exact .inl (by omega)
    · exact .inr ⟨by omega,h6⟩

theorem getRanges_spec (rs : RangeSet) (h : Canonical rs) :
    Separated 0 rs.getRanges ∧ ∀ x : UInt64, InRanges rs.getRanges x.toNat ↔ rs.contains x := by
  by_cases he : rs.isEmpty
  · simp [getRanges,he,isEmpty_contains rs he,Separated]
  have hn := mt (set_isEmpty_iff rs).mpr he
  obtain ⟨h1,h2⟩ := rangesFrom_spec rs.range.start h.holes (by omega)
    h.bounded
  simp only [getRanges,he,Bool.false_eq_true,if_false]
  exact ⟨separated_mono _ _ h1 (by omega),fun x => by rw [h2,contains_iff]⟩

theorem intersection_of_ranges {r a : Range} (hr : r.start.toNat ≤ top r.stop)
    (ha : a.start.toNat ≤ top a.stop) :
    (r.intersection a).start.toNat = max r.start.toNat a.start.toNat ∧
      top (r.intersection a).stop = min (top r.stop) (top a.stop) := by
  have h1 := not_isEmpty r hr
  have h2 := not_isEmpty a ha
  simp [Range.intersection,h1,h2,toNat_max,top_min]

variable (a : Range)

/-- Putting the intersection of the two heads in front of the rest, or leaving
it out when it is empty. -/
theorem separated_step (first : ℕ) {next : ℕ} {later : List Range} (hr : r.start.toNat ≤ top r.stop)
    (ha : a.start.toNat ≤ top a.stop) (hrb : Bounded r) (hab : Bounded a)
    (hf : first ≤ max r.start.toNat a.start.toNat) (hn : min (top r.stop) (top a.stop)+2 ≤ next)
    (hfn : first ≤ next) (hl : Separated next later) :
    Separated first (if (r.intersection a).isEmpty then later else (r.intersection a)::later) ∧
      ∀ x, InRanges (if (r.intersection a).isEmpty then later else (r.intersection a)::later) x ↔
        ((r.start.toNat ≤ x ∧ x ≤ top r.stop) ∧ (a.start.toNat ≤ x ∧ x ≤ top a.stop)) ∨
          InRanges later x := by
  obtain ⟨i1,i2⟩ := intersection_of_ranges hr ha
  by_cases he : (r.intersection a).isEmpty
  · have := (isEmpty_iff _).mp he
    simp only [he]
    refine ⟨separated_mono _ _ hl hfn,fun x => ?_⟩
    constructor
    · exact .inr
    rintro (hx | hx)
    · omega
    · exact hx
  have := mt (isEmpty_iff _).mpr he
  simp only [he,Bool.false_eq_true,if_false]
  refine ⟨⟨by omega,by omega,range_intersection_bounded hrb hab,?_⟩,fun x => ?_⟩
  · exact separated_mono _ _ hl (by omega)
  rw [inRanges_cons]
  constructor
  · rintro (hx | hx)
    · exact .inl (by omega)
    · exact .inr hx
  rintro (hx | hx)
  · exact .inl (by omega)
  · exact .inr hx

variable (rs : List Range)

theorem inRanges_and_of_le {r a : Range} {as : List Range} {x : ℕ}
    (ha : InRanges as x → top a.stop+2 ≤ x) (hle : top r.stop ≤ top a.stop) :
    InRanges (r::rs) x ∧ InRanges (a::as) x ↔
      ((r.start.toNat ≤ x ∧ x ≤ top r.stop) ∧ (a.start.toNat ≤ x ∧ x ≤ top a.stop)) ∨
        (InRanges rs x ∧ InRanges (a::as) x) := by
  rw [inRanges_cons,inRanges_cons]
  constructor
  · rintro ⟨hx | hx,hy⟩
    · rcases hy with hy | hy
      · exact .inl ⟨hx,hy⟩
      · have := ha hy
        omega
    · exact .inr ⟨hx,hy⟩
  · rintro (⟨hx,hy⟩ | ⟨hx,hy⟩)
    · exact ⟨.inl hx,.inl hy⟩
    · exact ⟨.inr hx,hy⟩

theorem inRanges_and_of_eq {r a : Range} {rs as : List Range} {x : ℕ}
    (hr : InRanges rs x → top r.stop+2 ≤ x) (ha : InRanges as x → top a.stop+2 ≤ x)
    (heq : top r.stop = top a.stop) :
    InRanges (r::rs) x ∧ InRanges (a::as) x ↔
      ((r.start.toNat ≤ x ∧ x ≤ top r.stop) ∧ (a.start.toNat ≤ x ∧ x ≤ top a.stop)) ∨
        (InRanges rs x ∧ InRanges as x) := by
  rw [inRanges_and_of_le rs ha heq.le,inRanges_cons a]
  refine or_congr_right (and_congr_right fun hx => or_iff_right ?_)
  have := hr hx
  omega

theorem intersectRanges_spec (as : List Range) (f g : ℕ) (hr : Separated f rs)
    (ha : Separated g as) :
    Separated (max f g) (intersectRanges rs as) ∧
      ∀ x, InRanges (intersectRanges rs as) x ↔ InRanges rs x ∧ InRanges as x := by
  induction hn : rs.length+as.length using Nat.strong_induction_on generalizing rs as f g with
  | h n ih =>
    rcases rs with _ | ⟨r,rs⟩
    · simp [intersectRanges,Separated]
    rcases as with _ | ⟨a,as⟩
    · simp [intersectRanges,Separated]
    have hr' := hr
    have ha' := ha
    obtain ⟨r1,r2,r3,r4⟩ := hr'
    obtain ⟨a1,a2,a3,a4⟩ := ha'
    have hra := separated_above _ r4
    have haa := separated_above _ a4
    simp only [length_cons] at hn
    rw [intersectRanges]
    by_cases h1 : lessNilAsInf r.stop a.stop
    · have hlt := (lessNil_iff _ _ r3).mp h1
      obtain ⟨s1,s2⟩ := ih _ (by simp; omega) rs (a::as) _ _ r4 ha rfl
      obtain ⟨t1,t2⟩ := separated_step r a (max f g) r2 a2 r3 a3 (by omega) (by omega)
        (by omega) s1
      simp only [h1,if_true]
      refine ⟨t1,fun x => ?_⟩
      rw [t2,s2,inRanges_and_of_le rs (haa x) hlt.le]
    have h1' := mt (lessNil_iff _ _ r3).mpr h1
    by_cases h2 : lessNilAsInf a.stop r.stop
    · have hlt := (lessNil_iff _ _ a3).mp h2
      obtain ⟨s1,s2⟩ := ih _ (by simp; omega) (r::rs) as _ _ hr a4 rfl
      obtain ⟨t1,t2⟩ := separated_step r a (max f g) r2 a2 r3 a3 (by omega)
        (by omega) (by omega) s1
      simp only [h1,h2,Bool.false_eq_true,if_false,if_true]
      refine ⟨t1,fun x => ?_⟩
      have h := inRanges_and_of_le as (hra x) hlt.le
      rw [t2,s2,and_comm (b := InRanges (a::as) x),h]
      exact or_congr and_comm and_comm
    · have h2' := mt (lessNil_iff _ _ a3).mpr h2
      obtain ⟨s1,s2⟩ := ih _ (by omega) rs as _ _ r4 a4 rfl
      obtain ⟨t1,t2⟩ := separated_step r a (max f g) r2 a2 r3 a3 (by omega)
        (by omega) (by omega) s1
      simp only [h1,h2,Bool.false_eq_true,if_false]
      refine ⟨t1,fun x => ?_⟩
      rw [t2,s2,inRanges_and_of_eq (hra x) (haa x) (by omega)]

theorem not_sortsBefore (h : r.start.toNat < a.start.toNat) : sortsBefore a r = false := by
  have hne : a.start ≠ r.start := by
    rintro he
    rw [he] at h
    omega
  have hlt : ¬a.start < r.start := by
    rw [UInt64.lt_iff_toNat_lt]
    omega
  simp [sortsBefore,hne,hlt]

theorem apart_sorted {rs : List Range} (h : Apart first rs) :
    rs.Pairwise (fun r a => (!sortsBefore a r)) ∧ ∀ r ∈ rs, first ≤ r.start.toNat := by
  induction rs generalizing first with
  | nil => simp
  | cons r rest ih =>
    obtain ⟨h1,h2,h4⟩ := h
    obtain ⟨i1,i2⟩ := ih _ h4
    constructor
    · rw [pairwise_cons]
      refine ⟨fun a ha => ?_,i1⟩
      have := i2 a ha
      rw [not_sortsBefore r a (by omega)]
      rfl
    intro a ha
    rcases mem_cons.mp ha with rfl | ha
    · exact h1
    · have := i2 a ha
      omega

theorem separated_sorted (h : Separated first rs) :
    rs.Pairwise (fun r a => (!sortsBefore a r)) ∧ ∀ r ∈ rs, first ≤ r.start.toNat :=
  apart_sorted first (separated_apart first h)

theorem sortRanges_apart {first : ℕ} {rs : List Range} (h : Apart first rs) :
    sortRanges rs = rs := mergeSort_of_pairwise (apart_sorted first h).1

theorem not_includes (h : top r.stop+2 ≤ a.start.toNat) (ha : a.start.toNat ≤ top a.stop) :
    r.includes a = false := by
  have h1 : ¬a.isEmpty := by
    rw [RangeHoles.isEmpty_iff]
    omega
  have h2 : ¬lessEqualNilAsInf a.stop r.stop := by
    cases hs : a.stop with
    | none =>
      have := word_lt a.start
      cases ht : r.stop with
      | none =>
        rw [ht,top_none] at h
        omega
      | some e => simp [lessEqualNilAsInf]
    | some e =>
      rw [some_lessEqual_iff]
      rw [hs,top_some] at ha
      omega
  simp [Range.includes,h1,h2]

theorem getDistance_ne_zero (hr : r.start.toNat ≤ top r.stop) (h : top r.stop+2 ≤ a.start.toNat)
    (ha : a.start.toNat ≤ top a.stop) : r.getDistance a ≠ 0 := by
  have h1 : ¬r.isEmpty := by
    rw [RangeHoles.isEmpty_iff]
    omega
  have h2 : ¬a.isEmpty := by
    rw [RangeHoles.isEmpty_iff]
    omega
  have hw := word_lt a.start
  rcases hs : r.stop with _ | e
  · rw [hs,top_none] at h
    omega
  rw [hs,top_some] at h
  have hi : (e+1).toNat = e.toNat+1 := toNat_inc e (by omega)
  have hlt : e+1 < a.start := by
    rw [UInt64.lt_iff_toNat_lt]
    omega
  have hz : (a.start-e-1).toNat = a.start.toNat-e.toNat-1 := by
    have hsub : (a.start-e).toNat = a.start.toNat-e.toNat :=
      UInt64.toNat_sub_of_le _ _ (by rw [UInt64.le_iff_toNat_le]; omega)
    rw [toNat_dec _ (by omega),hsub]
  simp only [Range.getDistance,h1,h2,hs,Range.endOrZero,Bool.or_self,Bool.false_eq_true,
    if_false,Option.any_some,hlt,decide_true,if_true,Option.getD_some]
  intro hc
  rw [hc] at hz
  have : (0 : UInt64).toNat = 0 := rfl
  omega

variable {rest : List Range}

theorem compact_apart (cur : Range)
    (h : Apart first (cur::rest)) : compact cur rest = cur::rest := by
  induction rest generalizing first cur with
  | nil => rfl
  | cons r rest ih =>
    obtain ⟨-,c2,c4⟩ := h
    have hn := not_includes cur r c4.1 c4.2.1
    have hd := getDistance_ne_zero cur r c2 c4.1 c4.2.1
    simp only [compact,hn,Bool.false_eq_true,if_false,hd,ih _ r c4]

def lastStop (r : Range) (rest : List Range) : Option UInt64 :=
  (((r::rest).getLast?).map Range.stop).getD none

@[simp] theorem lastStop_nil : lastStop r [] = r.stop := by simp [lastStop]

@[simp] theorem lastStop_cons :
    lastStop r (a::rest) = lastStop a rest := by simp [lastStop]

theorem holesBetween_spec (r : Range) (h : Separated first (r::rest)) :
    (r.start.toNat ≤ top (lastStop r rest) ∧ lastStop r rest ≠ some maxUint64 ∧
      HoleChain r.start.toNat (top (lastStop r rest)) (holesBetween (r::rest))) ∧
      ∀ x, InRanges (r::rest) x ↔ (r.start.toNat ≤ x ∧ x ≤ top (lastStop r rest)) ∧
        ¬InHoles (holesBetween (r::rest)) x := by
  induction rest generalizing first r with
  | nil =>
    obtain ⟨-,h2,h3,-⟩ := h
    simp only [lastStop_nil,holesBetween,inRanges_cons,inRanges_nil,or_false,inHoles_nil,
      not_false_eq_true,and_true,implies_true]
    exact ⟨h2,h3,trivial⟩
  | cons a rest ih =>
    obtain ⟨-,h2,h3,h4⟩ := h
    obtain ⟨⟨i1,i2,i3⟩,i4⟩ := ih _ a h4
    have h5 := h4.1
    have hw := word_lt a.start
    have hi := endOrZero_inc r (by omega)
    have hd := toNat_dec a.start (by omega)
    simp only [lastStop_cons,holesBetween]
    refine ⟨⟨by omega,i2,?_⟩,fun x => ?_⟩
    · simp only [HoleChain,hd]
      exact ⟨by omega,by omega,by omega,by rwa [Nat.sub_add_cancel (by omega)]⟩
    have hab := chain_above _ _ _ i3 x
    rw [inRanges_cons,i4,inHoles_cons,hi,hd]
    constructor
    · rintro (hx | ⟨hx,hn⟩)
      · refine ⟨by omega,?_⟩
        rintro (hh | hh)
        · omega
        · have := hab hh
          omega
      · refine ⟨by omega,?_⟩
        rintro (hh | hh)
        · omega
        · exact hn hh
    · rintro ⟨hx,hn⟩
      by_cases hl : x ≤ top r.stop
      · exact .inl (by omega)
      refine .inr ⟨⟨?_,by omega⟩,fun hh => hn (.inr hh)⟩
      by_contra hlt
      exact hn (.inl (by omega))

theorem newRangeSet_cons {r : Range} {first : ℕ} (h : Apart first (r::rest)) :
    newRangeSet (r::rest) = ⟨⟨r.start,lastStop r rest⟩,holesBetween (r::rest)⟩ := by
  rcases rest with _ | ⟨a,rest⟩
  · simp [newRangeSet,holesBetween]
  rw [newRangeSet,sortRanges_apart h]
  · simp only [compact_apart first r h]
    rfl
  · simp
  · intro b hb
    simp at hb

/-- A separated list is already sorted and has nothing to merge, so it is
rebuilt as it is. -/
theorem newRangeSet_spec (h : Separated 0 rs) : Canonical (newRangeSet rs) ∧
      ∀ x : UInt64, (newRangeSet rs).contains x ↔ InRanges rs x.toNat := by
  cases rs with
  | nil => exact ⟨canonical_empty,fun x => by simp [newRangeSet,empty_contains]⟩
  | cons r rest =>
    obtain ⟨⟨h1,h2,h3⟩,h4⟩ := holesBetween_spec 0 r h
    rw [newRangeSet_cons (separated_apart 0 h)]
    exact ⟨⟨h3,h2⟩,fun x => by rw [contains_iff,h4]⟩

theorem intersectionSet_law {rs a : RangeSet} (hr : Canonical rs) (ha : Canonical a) :
    Canonical (rs.intersectionSet a) ∧
      ∀ x, (rs.intersectionSet a).contains x ↔ rs.contains x ∧ a.contains x := by
  by_cases he : rs.isEmpty || a.isEmpty
  · simp only [intersectionSet,he,if_true]
    refine ⟨canonical_empty,fun x => ?_⟩
    rw [empty_contains]
    rcases Bool.or_eq_true_iff.mp he with h | h
    · simp [isEmpty_contains rs h]
    · simp [isEmpty_contains a h]
  obtain ⟨r1,r2⟩ := getRanges_spec rs hr
  obtain ⟨a1,a2⟩ := getRanges_spec a ha
  obtain ⟨i1,i2⟩ := intersectRanges_spec _ _ 0 0 r1 a1
  obtain ⟨n1,n2⟩ := newRangeSet_spec _ i1
  simp only [intersectionSet,he,Bool.false_eq_true,if_false]
  exact ⟨n1,fun x => by rw [n2,i2,r2,a2]⟩

theorem separated_bounded (h : Separated first rs) : ∀ r ∈ rs, Bounded r := by
  induction rs generalizing first with
  | nil => simp
  | cons r rest ih =>
    intro a ha
    rcases mem_cons.mp ha with rfl | ha
    · exact h.2.2.1
    · exact ih _ h.2.2.2 a ha

theorem inRanges_iff_contains (x : UInt64) : InRanges rs x.toNat ↔ ∃ r ∈ rs, r.contains x := by
  simp [InRanges,inRange_iff]

variable {ranges : List Range}

theorem foldl_union (rs : RangeSet) (hr : Canonical rs) (hb : ∀ r ∈ ranges, Bounded r) :
    Canonical (ranges.foldl union rs) ∧
      ∀ x, (ranges.foldl union rs).contains x ↔
        rs.contains x ∨ ∃ r ∈ ranges, r.contains x := by
  induction ranges generalizing rs with
  | nil => simp [hr]
  | cons r rest ih =>
    obtain ⟨u1,u2⟩ := union_law rs r hr (hb r (by simp))
    obtain ⟨i1,i2⟩ := ih (rs.union r) u1 (fun a ha => hb a (by simp [ha]))
    refine ⟨i1,fun x => ?_⟩
    rw [foldl_cons,i2,u2]
    simp [or_assoc]

theorem foldl_remove (rs : RangeSet) (hr : Canonical rs) (hb : ∀ r ∈ ranges, Bounded r) :
    Canonical (ranges.foldl remove rs) ∧
      ∀ x, (ranges.foldl remove rs).contains x ↔
        rs.contains x ∧ ¬∃ r ∈ ranges, r.contains x := by
  induction ranges generalizing rs with
  | nil => simp [hr]
  | cons r rest ih =>
    obtain ⟨u1,u2⟩ := remove_law rs r hr (hb r (by simp))
    obtain ⟨i1,i2⟩ := ih (rs.remove r) u1 (fun a ha => hb a (by simp [ha]))
    refine ⟨i1,fun x => ?_⟩
    rw [foldl_cons,i2,u2]
    simp [and_assoc]

theorem unionSet_law {rs a : RangeSet} (hr : Canonical rs) (ha : Canonical a) :
    Canonical (rs.unionSet a) ∧
      ∀ x, (rs.unionSet a).contains x ↔ rs.contains x ∨ a.contains x := by
  obtain ⟨a1,a2⟩ := getRanges_spec a ha
  obtain ⟨u1,u2⟩ := foldl_union rs hr (separated_bounded 0 _ a1)
  refine ⟨u1,fun x => ?_⟩
  rw [unionSet,u2,← inRanges_iff_contains,a2]

theorem removeSet_law {rs a : RangeSet} (hr : Canonical rs) (ha : Canonical a) :
    Canonical (rs.removeSet a) ∧
      ∀ x, (rs.removeSet a).contains x ↔ rs.contains x ∧ ¬a.contains x := by
  obtain ⟨a1,a2⟩ := getRanges_spec a ha
  obtain ⟨u1,u2⟩ := foldl_remove rs hr (separated_bounded 0 _ a1)
  refine ⟨u1,fun x => ?_⟩
  rw [removeSet,u2,← inRanges_iff_contains,a2]

/-- The representation of a set by one range and its holes is closed under the
six operations, and each of them is the pointwise Boolean operation. -/
theorem range_set_operations (rs a : RangeSet) (r : Range) (hr : HoleInvariant rs)
    (hrb : Bounded rs.range) (ha : HoleInvariant a) (hab : Bounded a.range) (hb : Bounded r) :
    (HoleInvariant (rs.union r) ∧ HoleInvariant (rs.remove r) ∧
      HoleInvariant (rs.intersection r) ∧ HoleInvariant (rs.unionSet a) ∧
      HoleInvariant (rs.removeSet a) ∧ HoleInvariant (rs.intersectionSet a)) ∧
    ∀ x : UInt64,
      (rs.union r).contains x = (rs.contains x || r.contains x) ∧
      (rs.remove r).contains x = (rs.contains x && !r.contains x) ∧
      (rs.intersection r).contains x = (rs.contains x && r.contains x) ∧
      (rs.unionSet a).contains x = (rs.contains x || a.contains x) ∧
      (rs.removeSet a).contains x = (rs.contains x && !a.contains x) ∧
      (rs.intersectionSet a).contains x = (rs.contains x && a.contains x) := by
  have hrc : Canonical rs := ⟨hr,hrb⟩
  have hac : Canonical a := ⟨ha,hab⟩
  have hu := union_law rs r hrc hb
  have hm := remove_law rs r hrc hb
  have hi := intersection_law r hrc hb
  have hus := unionSet_law hrc hac
  have hms := removeSet_law hrc hac
  have his := intersectionSet_law hrc hac
  constructor
  · exact ⟨hu.1.holes,hm.1.holes,hi.1.holes,hus.1.holes,hms.1.holes,his.1.holes⟩
  intro x
  refine ⟨?_,?_,?_,?_,?_,?_⟩ <;> rw [Bool.eq_iff_iff]
  · rw [hu.2 x,Bool.or_eq_true]
  · rw [hm.2 x,Bool.and_eq_true,Bool.not_eq_true,Bool.not_eq_true']
  · rw [hi.2 x,Bool.and_eq_true]
  · rw [hus.2 x,Bool.or_eq_true]
  · rw [hms.2 x,Bool.and_eq_true,Bool.not_eq_true,Bool.not_eq_true']
  · rw [his.2 x,Bool.and_eq_true]

theorem range_set_operations_tail :
    (unionSet ⟨⟨0,some 9⟩,[(3,4)]⟩ ⟨⟨4,none⟩,[(12,20)]⟩).contains 15 =
      (contains ⟨⟨0,some 9⟩,[(3,4)]⟩ 15 ||
        contains ⟨⟨4,none⟩,[(12,20)]⟩ 15) :=
  ((range_set_operations ⟨⟨0,some 9⟩,[(3,4)]⟩ ⟨⟨4,none⟩,[(12,20)]⟩ ⟨2,some 30⟩
    (by unfold HoleInvariant; decide) (by decide) (by unfold HoleInvariant; decide) (by decide)
    (by decide)).2 15).2.2.2.1

end Sentio.RangeSetMerge
