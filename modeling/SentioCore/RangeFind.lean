import SentioCore.RangeCut
import SentioCore.RangeSetMerge

/-!
# Finding the part of a range set around a seed

The ranges of a canonical set are its maximal runs of blocks. The range that
`FindContains` finds around a seed therefore holds the blocks that the set joins
to the seed without a gap. When no range includes the seed the answer is the
zero value of a range, which starts at zero and has no end.
-/

namespace Sentio.RangeFind
open RangeModel RangeHoles RangeSetAlgebra RangeSetMerge RangeCut WordArith Bool

def zeroRange : Range := ⟨0,none⟩

def single (n : UInt64) : Range := ⟨n,some n⟩

def equal (r a : Range) : Bool := r.includes a && a.includes r

def first (rs : RangeSet) : Range :=
  if rs.isEmpty then Range.empty
  else match rs.holes with
    | [] => rs.range
    | h::_ => ⟨rs.range.start,some (h.1-1)⟩

def last (rs : RangeSet) : Range :=
  if rs.isEmpty then Range.empty
  else match rs.holes.getLast? with
    | none => rs.range
    | some h => ⟨h.2+1,rs.range.stop⟩

def findIn (r : Range) (stop : UInt64) : List Range → Range × Bool
  | [] => (zeroRange,false)
  | item::rest =>
    if item.includes r then (item,true)
    else if stop < item.start then (zeroRange,false)
    else findIn r stop rest

def findContains (rs : RangeSet) (r : Range) : Range × Bool :=
  match r.stop with
  | none =>
    if rs.range.stop.isSome then (zeroRange,false)
    else if (last rs).includes r then (last rs,true)
    else (zeroRange,false)
  | some stop => findIn r stop rs.getRanges

/-- Every block from `a` to `x`, in either direction. -/
def Joined (has : UInt64 → Prop) (a x : UInt64) : Prop :=
  ∀ y : UInt64, min a.toNat x.toNat ≤ y.toNat → y.toNat ≤ max a.toNat x.toNat → has y

variable {has : UInt64 → Prop}

theorem joined_congr (had : UInt64 → Prop) (h : ∀ y, has y → had y) {a x : UInt64}
    (hj : Joined has a x) : Joined had a x :=
  fun y h1 h2 => h y (hj y h1 h2)

variable {x : UInt64} {a : UInt64}

theorem joined_end (h : Joined has a x) : has x :=
  h x (by omega) (by omega)

theorem joined_range (r : Range) (x : UInt64) (ha : r.contains a)
    (hx : r.contains x) : Joined (fun y => r.contains y) a x := by
  intro y h1 h2
  rw [inRange_iff] at *
  omega

theorem findIn_separated {r item : Range} {stop : UInt64} (hs : r.stop = some stop)
    (hr : r.start.toNat ≤ stop.toNat) (lower : ℕ) {items : List Range} (h : Separated lower items)
    (hi : item ∈ items) (hinc : item.includes r) : findIn r stop items = (item,true) := by
  induction items generalizing lower with
  | nil => cases hi
  | cons p rest ih =>
    obtain ⟨_,h2,h3,h4⟩ := h
    rw [findIn]
    rcases List.mem_cons.mp hi with rfl | hi
    · rw [if_pos hinc]
    have hnonempty : r.start.toNat ≤ top r.stop := by rw [hs]; exact hr
    have hb := separated_bounded _ _ h4 item hi
    have hlow := (separated_sorted _ _ h4).2 item hi
    have hin := (includes_iff item r hb hnonempty).mp hinc
    have hnot : ¬p.includes r := by
      rw [includes_iff p r h3 hnonempty,hs,top_some]
      omega
    have hstop : ¬stop < p.start := by
      rw [UInt64.lt_iff_toNat_lt]
      omega
    rw [if_neg hnot,if_neg hstop]
    exact ih _ h4 hi

variable {rest : List Range} {lower : ℕ} {p : Range}

theorem separated_gap (h : Separated lower (p::rest)) : ¬InRanges (p::rest) (top p.stop+1) := by
  intro hn
  rcases (inRanges_cons _ _ _).mp hn with hn | hn
  · omega
  · have := separated_above _ h.2.2.2 _ hn
    omega

/-- The blocks between two blocks of the list on both sides of the first
range's end would include the block after it. -/
theorem joined_not_past (h : Separated lower (p::rest))
    (hj : Joined (fun y => InRanges (p::rest) y.toNat) a x) :
    (a.toNat ≤ top p.stop ↔ x.toNat ≤ top p.stop) := by
  have hw := word_lt a
  have hx := word_lt x
  by_contra hne
  have hnext : (UInt64.ofNat (top p.stop+1)).toNat = top p.stop+1 := by
    rw [UInt64.toNat_ofNat']
    omega
  apply separated_gap h
  rw [← hnext]
  exact hj _ (by omega) (by omega)

/-- A member of a separated list holds what the list joins to one of its blocks. -/
theorem separated_joined (items : List Range) (lower : ℕ) (h : Separated lower items)
    (item : Range) (hi : item ∈ items) (a x : UInt64) (ha : item.contains a) :
    item.contains x ↔ Joined (fun y => InRanges items y.toNat) a x := by
  constructor
  · intro hx
    apply joined_congr
    · intro y hy
      exact (inRanges_iff_contains items y).mpr ⟨item,hi,hy⟩
    · exact joined_range item x ha hx
  intro hj
  induction items generalizing lower with
  | nil => cases hi
  | cons p rest ih =>
    have h4 := h.2.2.2
    have ha' := (inRange_iff item a).mp ha
    rcases List.mem_cons.mp hi with rfl | hi
    · have hx := (joined_not_past h hj).mp ha'.2
      rw [inRange_iff]
      refine ⟨?_,hx⟩
      rcases (inRanges_cons _ _ _).mp (joined_end hj) with hn | hn
      · exact hn.1
      · have := separated_above _ h4 _ hn
        omega
    have hlow := (separated_sorted _ _ h4).2 item hi
    apply ih _ h4 hi
    intro y hy1 hy2
    rcases (inRanges_cons _ _ _).mp (hj y hy1 hy2) with hn | hn
    · have hjy : Joined (fun y => InRanges (p::rest) y.toNat) a y :=
        fun z hz1 hz2 => hj z (by omega) (by omega)
      have := (joined_not_past h hjy).mpr hn.2
      omega
    · exact hn

variable {r : Range}

theorem findContains_spec {rs : RangeSet} (h : Canonical rs) {stop : UInt64}
    (hs : r.stop = some stop) (hr : r.start.toNat ≤ stop.toNat)
    (hin : ∀ x, r.contains x → rs.contains x) (x : UInt64) :
    (findContains rs r).1.contains x ↔
      Joined (fun y => rs.contains y) r.start x := by
  obtain ⟨hsep,hmem⟩ := getRanges_spec rs h
  have hnonempty : r.start.toNat ≤ top r.stop := by rw [hs]; exact hr
  have hstart : r.contains r.start := by
    rw [inRange_iff]
    omega
  have hstop : r.contains stop := by
    rw [inRange_iff,hs,top_some]
    omega
  obtain ⟨item,hi,hc⟩ := (inRanges_iff_contains _ _).mp ((hmem _).mpr (hin _ hstart))
  have hj := separated_joined _ 0 hsep item hi r.start
  have hend : item.contains stop := by
    rw [hj stop hc]
    apply joined_congr
    · intro y hy
      exact (hmem y).mpr (hin y hy)
    · exact joined_range r stop hstart hstop
  have hinc : item.includes r := by
    rw [includes_iff item r (separated_bounded _ _ hsep item hi) hnonempty,hs,top_some]
    rw [inRange_iff] at hc hend
    omega
  rw [findContains,hs]
  dsimp only
  rw [findIn_separated hs hr 0 hsep hi hinc,hj x hc]
  exact ⟨joined_congr _ (fun y hy => (hmem y).mp hy),
    joined_congr _ (fun y hy => (hmem y).mpr hy)⟩

variable {a : Range}

theorem equal_contains (hr : Bounded r) (ha : Bounded a) (h : equal r a)
    (x : UInt64) : r.contains x ↔ a.contains x := by
  rw [equal,and_eq_true] at h
  exact ⟨fun hx => includes_contains ha hx h.2,fun hx => includes_contains hr hx h.1⟩

/-- A range without the last word is finite and ends below it. -/
theorem finite_of_contents (r : Range) (h : r.contains maxUint64 = false) :
    r.stop ≠ none ∧ Bounded r := by
  rw [eq_false_iff,ne_eq,inRange_iff] at h
  have hm : maxUint64.toNat = (2^64-1) := rfl
  have hs := word_lt r.start
  constructor
  · intro hn
    rw [hn,top_none] at h
    omega
  intro hn
  rw [hn,top_some] at h
  omega

theorem cover_contains (hsub : ∀ x, a.contains x → r.contains x)
    (x : UInt64) : (r.cover a).contains x ↔ r.contains x := by
  by_cases hr : r.isEmpty
  · simp only [Range.cover,hr]
    refine ⟨hsub x,fun hx => ?_⟩
    rw [not_inRange r hr] at hx
    cases hx
  by_cases ha : a.isEmpty
  · simp [Range.cover,hr,ha]
  have ha' := mt (isEmpty_iff a).mpr ha
  have hstart := hsub a.start ((inRange_iff _ _).mpr (by omega))
  have hstop : top a.stop ≤ top r.stop := by
    cases hs : a.stop with
    | none =>
      have hm : maxUint64.toNat = (2^64-1) := rfl
      have hw := word_lt a.start
      have := hsub maxUint64 ((inRange_iff _ _).mpr (by rw [hs,top_none]; omega))
      rw [inRange_iff] at this
      rw [top_none]
      omega
    | some e =>
      rw [hs,top_some] at ha'
      have := hsub e ((inRange_iff _ _).mpr (by rw [hs,top_some]; omega))
      rw [inRange_iff] at this
      exact this.2
  rw [inRange_iff] at hstart
  simp only [Range.cover,hr,ha,false_eq_true,if_false,inRange_iff,top_max,toNat_min]
  omega

theorem first_interval : (first ⟨r,[]⟩).contains x = r.contains x := by
  by_cases h : r.isEmpty
  · rw [first,if_pos (show RangeSet.isEmpty ⟨r,[]⟩ from h),not_inRange r h]
    rfl
  · rw [first,if_neg (show ¬RangeSet.isEmpty ⟨r,[]⟩ from h)]

/-- A removal from a finite range leaves one range, or cuts a hole into it. -/
theorem remove_cases (a : Range) (hr : r.stop ≠ none) : (∃ left : Range, r.remove a = ⟨left,[]⟩ ∧
      ∀ x, left.contains x ↔ r.contains x ∧ ¬a.contains x) ∨
    ∃ stop, r.isEmpty = false ∧ r.remove a = ⟨r,[(a.start,stop)]⟩ ∧
      ∀ x, Range.contains ⟨r.start,some (a.start-1)⟩ x →
        r.contains x ∧ ¬a.contains x := by
  obtain ⟨e,he⟩ := Option.ne_none_iff_exists'.mp hr
  by_cases h1 : r.isEmpty
  · refine .inl ⟨Range.empty,by rw [Range.remove,if_pos h1]; rfl,fun x => ?_⟩
    simp [not_inRange Range.empty (by decide),not_inRange r h1]
  by_cases h2 : a.isEmpty
  · exact .inl ⟨r,by rw [Range.remove,if_neg h1,if_pos h2],fun x => by simp [not_inRange a h2]⟩
  rw [not_eq_true] at h1 h2
  have hw := word_lt e
  have hrem := remove_branches (start_le_top h1) (start_le_top h2)
  simp only [he,less_some_iff,top_some] at hrem
  simp only [inRange_iff,he,top_some]
  rcases hrem with ⟨hx,h⟩ | ⟨hx,h5⟩ | ⟨hx,h5⟩ | ⟨hx,h5⟩ | ⟨hx,h5⟩
  · refine .inl ⟨r,hx,fun x => ?_⟩
    rw [he,top_some]
    omega
  · refine .inl ⟨_,hx,fun x => ?_⟩
    rw [endOrZero_inc a (by omega),top_some]
    omega
  · refine .inl ⟨Range.empty,hx,fun x => ?_⟩
    rw [← inRange_iff Range.empty]
    exact iff_of_false false_ne_true (by omega)
  · refine .inr ⟨_,h1,hx,fun x => ?_⟩
    rw [toNat_dec _ (by omega)]
    omega
  · refine .inl ⟨_,hx,fun x => ?_⟩
    simp only [top_some,toNat_dec a.start (by omega)]
    omega

/-- What is left first of a finite range after a removal is free of the removed
blocks. -/
theorem first_remove (r a : Range) (hr : r.stop ≠ none) (x : UInt64)
    (h : (first (r.remove a)).contains x) : r.contains x ∧ ¬a.contains x := by
  rcases remove_cases a hr with ⟨left,he,hx⟩ | ⟨stop,hn,he,hx⟩
  · rw [he,first_interval] at h
    exact (hx x).mp h
  rw [he,first,if_neg (show ¬RangeSet.isEmpty ⟨r,[(a.start,stop)]⟩ by
    simp [RangeSet.isEmpty,hn])] at h
  exact hx x h

theorem getDistance_comm (hr : r.start.toNat ≤ top r.stop) (hrb : Bounded r)
    (ha : a.start.toNat ≤ top a.stop) (hab : Bounded a) : r.getDistance a = a.getDistance r := by
  simp only [Range.getDistance,not_isEmpty r hr,not_isEmpty a ha]
  by_cases h1 : r.stop.any (fun e => e+1 < a.start)
  · have h2 : ¬a.stop.any (fun e => e+1 < r.start) := by
      obtain ⟨e,he,h1⟩ := (Option.any_eq_true _ _).mp h1
      intro h2
      obtain ⟨d,hd,h2⟩ := (Option.any_eq_true _ _).mp h2
      have ie := toNat_inc e (bounded_top e (he ▸ hrb))
      have id := toNat_inc d (bounded_top d (hd ▸ hab))
      rw [he,top_some] at hr
      rw [hd,top_some] at ha
      simp only [decide_eq_true_eq,UInt64.lt_iff_toNat_lt] at h1 h2
      omega
    rw [if_pos h1,if_neg h2,if_pos h1]
  · rw [if_neg h1]
    by_cases h2 : a.stop.any (fun e => e+1 < r.start)
    · rw [if_pos h2,if_pos h2]
    · rw [if_neg h2,if_neg h2,if_neg h1]

theorem near_of_getDistance (hr : r.start.toNat ≤ top r.stop) (hrb : Bounded r)
    (ha : a.start.toNat ≤ top a.stop) (hab : Bounded a) (h : r.getDistance a = 0) :
    a.start.toNat ≤ top r.stop+1 ∧ r.start.toNat ≤ top a.stop+1 := by
  have h1 := mt (fun hf => getDistance_ne_zero r a hr hf ha) (not_not.mpr h)
  have h2 := mt (fun hf => getDistance_ne_zero a r ha hf hr)
    (not_not.mpr ((getDistance_comm hr hrb ha hab).symm.trans h))
  omega

end Sentio.RangeFind
