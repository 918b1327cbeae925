import SentioCore.RangeModel
import SentioCore.WordArith

/-!
# Hole chains

The invariant of a range set is a chain: each hole leaves a nonempty part on its
left, is nonempty itself, and ends before the last number of the range. A chain
can be cut at any hole into the chains of the two sides.
-/

namespace Sentio.RangeHoles
open RangeModel WordArith RangeSet Option
open UInt64 (lt_iff_toNat_lt le_iff_toNat_le)

/-- The last number of a range; an infinite range ends with the last word. -/
def top (stop : Option UInt64) : ℕ := (stop.getD maxUint64).toNat

def Bounded (r : Range) : Prop := r.stop ≠ some maxUint64

def HoleChain (first last : ℕ) : List Hole → Prop
  | [] => True
  | h::rest => first < h.1.toNat ∧ h.1.toNat ≤ h.2.toNat ∧ h.2.toNat < last ∧
      HoleChain (h.2.toNat+1) last rest

instance (r : Range) : Decidable (Bounded r) := inferInstanceAs (Decidable (r.stop ≠ _))

instance decidableHoleChain (first last : ℕ) : (holes : List Hole) →
    Decidable (HoleChain first last holes)
  | [] => .isTrue trivial
  | h::rest =>
    have := decidableHoleChain (h.2.toNat+1) last rest
    inferInstanceAs (Decidable (_ ∧ _ ∧ _ ∧ _))

def InHoles (holes : List Hole) (x : ℕ) : Prop := ∃ h ∈ holes, h.1.toNat ≤ x ∧ x ≤ h.2.toNat

@[simp] theorem inHoles_nil (x : ℕ) : ¬InHoles [] x := by simp [InHoles]

variable (h : Hole) (holes : List Hole)

@[simp] theorem inHoles_cons (x : ℕ) :
    InHoles (h::holes) x ↔ (h.1.toNat ≤ x ∧ x ≤ h.2.toNat) ∨ InHoles holes x := by
  simp [InHoles]

@[simp] theorem inHoles_append (front back : List Hole) (x : ℕ) :
    InHoles (front++back) x ↔ InHoles front x ∨ InHoles back x := by
  simp [InHoles,or_and_right,exists_or]

variable (e : UInt64)

@[simp] theorem top_some : top (some e) = e.toNat := rfl

@[simp] theorem top_none : top none = (2^64-1) := rfl

theorem top_lt (e : Option UInt64) : top e < 2^64 := word_lt _

theorem bounded_some (h : e.toNat < (2^64-1)) : some e ≠ some maxUint64 := by
  rintro he
  rw [Option.some.inj he] at h
  exact absurd h (by decide)

theorem bounded_top (h : some e ≠ some maxUint64) : e.toNat < (2^64-1) := by
  have hw := word_lt e
  have hm : maxUint64.toNat = (2^64-1) := rfl
  have hne : e.toNat ≠ maxUint64.toNat := fun hh => h (congrArg some (UInt64.toNat_inj.mp hh))
  omega

variable (a b : Option UInt64)

theorem lessNil_iff (ha : a ≠ some maxUint64) : lessNilAsInf a b ↔ top a < top b := by
  cases a with
  | none =>
    have := top_lt b
    simp only [lessNilAsInf,top_none,Bool.false_eq_true,false_iff]
    omega
  | some a =>
    have := bounded_top a ha
    cases b with
    | none => simpa [lessNilAsInf] using this
    | some b => simp [lessNilAsInf,lt_iff_toNat_lt]

theorem less_some_iff (b : UInt64) : lessNilAsInf a (some b) ↔ top a < b.toNat := by
  have := word_lt b
  cases a with
  | none =>
    simp only [lessNilAsInf,top_none,Bool.false_eq_true,false_iff]
    omega
  | some a => simp [lessNilAsInf,lt_iff_toNat_lt]

theorem some_lessEqual_iff (n : UInt64) (b : Option UInt64) :
    lessEqualNilAsInf (some n) b ↔ n.toNat ≤ top b := by
  have := word_lt n
  cases b with
  | none =>
    simp only [lessEqualNilAsInf,top_none,true_iff]
    omega
  | some b => simp [lessEqualNilAsInf,le_iff_toNat_le]

variable (r : Range)

theorem isEmpty_iff : r.isEmpty ↔ top r.stop < r.start.toNat :=
  less_some_iff _ _

theorem not_isEmpty (h : r.start.toNat ≤ top r.stop) : r.isEmpty = false := by
  rw [Bool.eq_false_iff,ne_eq,isEmpty_iff]
  omega

theorem start_le_top {r : Range} (h : r.isEmpty = false) : r.start.toNat ≤ top r.stop := by
  rw [Bool.eq_false_iff,ne_eq,isEmpty_iff] at h
  omega

theorem set_isEmpty_iff (rs : RangeSet) :
    rs.isEmpty ↔ top rs.range.stop < rs.range.start.toNat := isEmpty_iff _

theorem endOrZero_eq (h : top r.stop < (2^64-1)) : r.endOrZero.toNat = top r.stop := by
  cases hs : r.stop with
  | none => simp [hs] at h
  | some e => simp [Range.endOrZero,hs]

theorem endOrZero_inc (h : top r.stop < (2^64-1)) : (r.endOrZero+1).toNat = top r.stop+1 := by
  have hz := endOrZero_eq r h
  rw [toNat_inc _ (by omega),hz]

theorem top_min : top (minNilAsInf a b) = min (top a) (top b) := by
  have ha := top_lt a
  have hb := top_lt b
  rcases a with _ | a
  · simp only [minNilAsInf,top_none]
    omega
  cases b with
  | none =>
    simp only [minNilAsInf,top_none]
    omega
  | some b => simp [minNilAsInf,toNat_min]

theorem top_max : top (maxNilAsInf a b) = max (top a) (top b) := by
  have ha := top_lt a
  have hb := top_lt b
  rcases a with _ | a
  · simp only [maxNilAsInf,top_none]
    omega
  cases b with
  | none =>
    simp only [maxNilAsInf,top_none]
    omega
  | some b => simp [maxNilAsInf,toNat_max]

theorem inRange_iff (n : UInt64) :
    r.contains n ↔ r.start.toNat ≤ n.toNat ∧ n.toNat ≤ top r.stop := by
  by_cases he : r.isEmpty
  · have := (isEmpty_iff r).mp he
    simp only [Range.contains,he,if_true,Bool.false_eq_true,false_iff]
    omega
  · simp [Range.contains,he,some_lessEqual_iff,le_iff_toNat_le]

theorem contains_iff (rs : RangeSet) (n : UInt64) : rs.contains n ↔
      (rs.range.start.toNat ≤ n.toNat ∧ n.toNat ≤ top rs.range.stop) ∧
        ¬InHoles rs.holes n.toNat := by
  rw [contains,Bool.and_eq_true,inRange_iff,List.all_eq_true]
  simp only [InHoles,not_exists,not_and,Bool.not_eq_true',Bool.and_eq_false_imp,
    decide_eq_true_eq,decide_eq_false_iff_not,le_iff_toNat_le]

variable (first last : ℕ)

theorem chain_append (front : List Hole) (h : Hole) (back : List Hole) :
    HoleChain first last (front ++ h::back) ↔
      HoleChain first (h.1.toNat-1) front ∧ first < h.1.toNat ∧ h.1.toNat ≤ h.2.toNat ∧
        h.2.toNat < last ∧ HoleChain (h.2.toNat+1) last back := by
  induction front generalizing first with
  | nil => simp [HoleChain]
  | cons g front ih =>
    simp only [List.cons_append,HoleChain,ih]
    constructor
    · rintro ⟨h1,h2,h3,h4,h5,h6,h7,h8⟩
      exact ⟨⟨h1,h2,by omega,h4⟩,by omega,h6,h7,h8⟩
    · rintro ⟨⟨h1,h2,h3,h4⟩,h5,h6,h7,h8⟩
      exact ⟨h1,h2,by omega,h4,by omega,h6,h7,h8⟩

theorem chain_first {first' last : ℕ} (holes : List Hole) (hc : HoleChain first last holes)
    (h : first' ≤ first) : HoleChain first' last holes := by
  cases holes with
  | nil => trivial
  | cons g rest => exact ⟨by have := hc.1; omega,hc.2⟩

variable {holes : List Hole}

theorem chain_last {last' : ℕ} (hc : HoleChain first last holes)
    (h : last ≤ last') : HoleChain first last' holes := by
  induction holes generalizing first with
  | nil => trivial
  | cons g rest ih =>
    obtain ⟨h1,h2,h3,h4⟩ := hc
    exact ⟨h1,h2,by omega,ih _ h4⟩

theorem chain_above (holes : List Hole) (hc : HoleChain first last holes)
    (x : ℕ) (hx : InHoles holes x) : first < x ∧ x < last := by
  induction holes generalizing first with
  | nil => simp at hx
  | cons g rest ih =>
    obtain ⟨h1,h2,h3,h4⟩ := hc
    rcases (inHoles_cons g rest x).mp hx with hg | hr
    · omega
    · have := ih _ h4 hr
      omega

theorem trimLeft_spec {s : UInt64}
    (hc : HoleChain first last holes) (hl : last < 2^64) (hs : first ≤ s.toNat) :
    HoleChain (trimLeft s holes).1.toNat last (trimLeft s holes).2 ∧
      ∀ x, (trimLeft s holes).1.toNat ≤ x ∧ ¬InHoles (trimLeft s holes).2 x ↔
        s.toNat ≤ x ∧ ¬InHoles holes x := by
  induction holes generalizing first with
  | nil => simp [trimLeft,HoleChain]
  | cons h rest ih =>
    obtain ⟨h1,h2,h3,h4⟩ := hc
    by_cases hd : h.2.toNat < s.toNat
    · have he : trimLeft s (h::rest) = trimLeft s rest := by
        simp [trimLeft,lt_iff_toNat_lt,hd]
      obtain ⟨hi,hx⟩ := ih (h.2.toNat+1) h4 (by omega)
      rw [he]
      refine ⟨hi,fun x => (hx x).trans ?_⟩
      simp only [inHoles_cons,not_or]
      exact ⟨fun hh => ⟨hh.1,by omega,hh.2⟩,fun hh => ⟨hh.1,hh.2.2⟩⟩
    by_cases hb : s.toNat < h.1.toNat
    · have he : trimLeft s (h::rest) = (s,h::rest) := by
        simp [trimLeft,lt_iff_toNat_lt,hd,hb]
      rw [he]
      exact ⟨⟨hb,h2,h3,h4⟩,fun x => Iff.rfl⟩
    have he : trimLeft s (h::rest) = (h.2+1,rest) := by
      simp [trimLeft,lt_iff_toNat_lt,hd,hb]
    rw [he,toNat_inc _ (by omega)]
    refine ⟨h4,fun x => ?_⟩
    simp only [inHoles_cons,not_or]
    exact ⟨fun hh => ⟨by omega,by omega,hh.2⟩,fun hh => ⟨by omega,hh.2.2⟩⟩

theorem trimRight_spec {e : Option UInt64} (hc : HoleChain first last holes)
    (hl : last < 2^64) (he : top e ≤ last) :
    HoleChain first (top (trimRight e holes).1) (trimRight e holes).2 ∧
      (e ≠ some maxUint64 → (trimRight e holes).1 ≠ some maxUint64) ∧
      ∀ x, x ≤ top (trimRight e holes).1 ∧ ¬InHoles (trimRight e holes).2 x ↔
        x ≤ top e ∧ ¬InHoles holes x := by
  induction holes using List.reverseRecOn generalizing last with
  | nil => simp [trimRight,HoleChain]
  | append_singleton holes h ih =>
    obtain ⟨h1,h2,h3,h4,-⟩ := (chain_append first last holes h []).mp hc
    by_cases hd : top e < h.1.toNat
    · have hr : trimRight e (holes++[h]) = trimRight e holes := by
        simp [trimRight,(less_some_iff e h.1).mpr hd]
      obtain ⟨hi,hbd,hx⟩ := ih (h.1.toNat-1) h1 (by omega) (by omega)
      rw [hr]
      refine ⟨hi,hbd,fun x => (hx x).trans ?_⟩
      simp only [inHoles_append,inHoles_cons,inHoles_nil,or_false,not_or]
      exact ⟨fun hh => ⟨hh.1,hh.2,by omega⟩,fun hh => ⟨hh.1,hh.2.1⟩⟩
    have hk : lessNilAsInf e (some h.1) = false := by
      simpa using mt (less_some_iff e h.1).mp hd
    have hlt := lessNil_iff (some h.2) e (bounded_some _ (by omega))
    by_cases hq : h.2.toNat < top e
    · have hr : trimRight e (holes++[h]) = (e,holes++[h]) := by
        simp [trimRight,hk,hlt.mpr hq]
      rw [hr]
      exact ⟨(chain_append first (top e) holes h []).mpr ⟨h1,h2,h3,hq,trivial⟩,id,fun x => Iff.rfl⟩
    have hr : trimRight e (holes++[h]) = (some (h.1-1),holes) := by
      have hf : lessNilAsInf (some h.2) e = false := by simpa using mt hlt.mp hq
      simp [trimRight,hk,hf]
    have hn : (h.1-1).toNat = h.1.toNat-1 := toNat_dec _ (by omega)
    rw [hr]
    simp only [top_some,hn]
    refine ⟨h1,fun _ => bounded_some _ (by have := word_lt h.1; omega),fun x => ?_⟩
    simp only [inHoles_append,inHoles_cons,inHoles_nil,or_false,not_or]
    exact ⟨fun hh => ⟨by omega,hh.2,by omega⟩,fun hh => ⟨by omega,hh.2.1⟩⟩

theorem findLeft_spec (start aStart : UInt64) (first last : ℕ) (holes : List Hole)
    (hc : HoleChain first last holes) (hl : last < 2^64)
    (hs : start.toNat ≤ first) (ha : first < aStart.toNat) :
    let left := (findLeft start aStart holes).getD ⟨⟨start,some (aStart-1)⟩,holes⟩
    left.range.start = start ∧ first ≤ top left.range.stop ∧
      top left.range.stop < aStart.toNat ∧
      HoleChain first (top left.range.stop) left.holes ∧
      ∀ x, x ≤ top left.range.stop ∧ ¬InHoles left.holes x ↔
        x < aStart.toNat ∧ ¬InHoles holes x := by
  induction holes generalizing first with
  | nil =>
    have hd : (aStart-1).toNat = aStart.toNat-1 := toNat_dec _ (by omega)
    simp only [findLeft,getD_none,top_some,hd,inHoles_nil,not_false_eq_true,and_true]
    exact ⟨trivial,by omega,by omega,trivial,fun x => by omega⟩
  | cons h rest ih =>
    obtain ⟨h1,h2,h3,h4⟩ := hc
    have hi : (h.2+1).toNat = h.2.toNat+1 := toNat_inc _ (by omega)
    by_cases hb : aStart.toNat < h.1.toNat
    · have hd : (aStart-1).toNat = aStart.toNat-1 := toNat_dec _ (by omega)
      simp only [findLeft,lt_iff_toNat_lt,hb,if_true,getD_some,top_some,hd,inHoles_nil]
      refine ⟨trivial,by omega,by omega,trivial,fun x => ?_⟩
      simp only [inHoles_cons,not_or,not_false_eq_true,and_true]
      have hr := chain_above _ _ rest h4 x
      exact ⟨fun hh => ⟨by omega,by omega,fun hx => by have := hr hx; omega⟩,by omega⟩
    by_cases hm : aStart.toNat ≤ h.2.toNat+1
    · have hd : (h.1-1).toNat = h.1.toNat-1 := toNat_dec _ (by omega)
      simp only [findLeft,lt_iff_toNat_lt,le_iff_toNat_le,hi,hb,hm,
        if_true,if_false,getD_some,top_some,hd,inHoles_nil]
      refine ⟨trivial,by omega,by omega,trivial,fun x => ?_⟩
      simp only [inHoles_cons,not_or,not_false_eq_true,and_true]
      have hr := chain_above _ _ rest h4 x
      exact ⟨fun hh => ⟨by omega,by omega,fun hx => by have := hr hx; omega⟩,by omega⟩
    have hn := ih (h.2.toNat+1) h4 (by omega) (by omega)
    have he : (findLeft start aStart (h::rest)).getD ⟨⟨start,some (aStart-1)⟩,h::rest⟩ =
        ⟨((findLeft start aStart rest).getD ⟨⟨start,some (aStart-1)⟩,rest⟩).range,
          h::((findLeft start aStart rest).getD ⟨⟨start,some (aStart-1)⟩,rest⟩).holes⟩ := by
      simp only [findLeft,lt_iff_toNat_lt,le_iff_toNat_le,hi,hb,hm,if_false]
      cases findLeft start aStart rest <;> rfl
    rw [he]
    obtain ⟨g1,g2,g3,g4,g5⟩ := hn
    dsimp only
    refine ⟨g1,by omega,g3,⟨h1,h2,by omega,g4⟩,fun x => ?_⟩
    simp only [inHoles_cons,not_or]
    have := g5 x
    tauto

theorem findRight_spec (stop : Option UInt64) (aEnd : UInt64) (first : ℕ) (holes : List Hole)
    (hc : HoleChain first (top stop) holes) (ha : aEnd.toNat < top stop) :
    let right := (findRight stop aEnd holes).getD ⟨⟨aEnd+1,stop⟩,[]⟩
    right.range.stop = stop ∧ aEnd.toNat < right.range.start.toNat ∧
      right.range.start.toNat ≤ top stop ∧
      HoleChain right.range.start.toNat (top stop) right.holes ∧
      ∀ x, right.range.start.toNat ≤ x ∧ ¬InHoles right.holes x ↔
        aEnd.toNat < x ∧ ¬InHoles holes x := by
  have ht := top_lt stop
  have hi : (aEnd+1).toNat = aEnd.toNat+1 := toNat_inc _ (by omega)
  induction holes generalizing first with
  | nil =>
    simp only [findRight,getD_none,inHoles_nil,not_false_eq_true,and_true]
    exact ⟨trivial,by omega,by omega,trivial,fun x => by omega⟩
  | cons h rest ih =>
    obtain ⟨h1,h2,h3,h4⟩ := hc
    have hd : (h.1-1).toNat = h.1.toNat-1 := toNat_dec _ (by omega)
    have hg : (h.2+1).toNat = h.2.toNat+1 := toNat_inc _ (by omega)
    by_cases hb : aEnd.toNat < h.1.toNat-1
    · simp only [findRight,lt_iff_toNat_lt,hd,hb,if_true,getD_some]
      refine ⟨trivial,by omega,by omega,⟨by omega,h2,h3,h4⟩,fun x => ?_⟩
      exact and_congr_left (fun _ => by omega)
    by_cases hm : aEnd.toNat ≤ h.2.toNat
    · simp only [findRight,lt_iff_toNat_lt,le_iff_toNat_le,hd,hb,hm,
        if_true,if_false,getD_some,hg]
      refine ⟨trivial,by omega,by omega,h4,fun x => ?_⟩
      simp only [inHoles_cons,not_or]
      exact ⟨fun hh => ⟨by omega,by omega,hh.2⟩,fun hh => ⟨by omega,hh.2.2⟩⟩
    have he : findRight stop aEnd (h::rest) = findRight stop aEnd rest := by
      simp [findRight,lt_iff_toNat_lt,le_iff_toNat_le,hd,hb,hm]
    obtain ⟨g1,g2,g3,g4,g5⟩ := ih _ h4
    rw [he]
    refine ⟨g1,g2,g3,g4,fun x => (g5 x).trans ?_⟩
    simp only [inHoles_cons,not_or]
    exact ⟨fun hh => ⟨hh.1,by omega,hh.2⟩,fun hh => ⟨hh.1,hh.2.2⟩⟩

/-- What `Remove` leaves of a range that is not empty. -/
theorem remove_branches {r a : Range} (hr : r.start.toNat ≤ top r.stop)
    (ha : a.start.toNat ≤ top a.stop) :
    (r.remove a = ⟨r,[]⟩ ∧ (top a.stop < r.start.toNat ∨ top r.stop < a.start.toNat)) ∨
    (r.remove a = ⟨⟨a.endOrZero+1,r.stop⟩,[]⟩ ∧ a.start.toNat ≤ r.start.toNat ∧
      r.start.toNat ≤ top a.stop ∧ lessNilAsInf a.stop r.stop) ∨
    (r.remove a = emptyRangeSet ∧ a.start.toNat ≤ r.start.toNat ∧
      ¬lessNilAsInf a.stop r.stop) ∨
    (r.remove a = ⟨r,[(a.start,a.endOrZero)]⟩ ∧ r.start.toNat < a.start.toNat ∧
      a.start.toNat ≤ top r.stop ∧ lessNilAsInf a.stop r.stop) ∨
    (r.remove a = ⟨⟨r.start,some (a.start-1)⟩,[]⟩ ∧ r.start.toNat < a.start.toNat ∧
      a.start.toNat ≤ top r.stop ∧ ¬lessNilAsInf a.stop r.stop) := by
  simp only [Range.remove,not_isEmpty r hr,not_isEmpty a ha,le_iff_toNat_le,less_some_iff,
    Bool.false_eq_true,if_false]
  split_ifs with h1 h2 h3 h4 h5
  · exact .inl ⟨rfl,.inl h2⟩
  · exact .inr (.inl ⟨rfl,h1,by omega,h3⟩)
  · exact .inr (.inr (.inl ⟨rfl,h1,h3⟩))
  · exact .inl ⟨rfl,.inr h4⟩
  · exact .inr (.inr (.inr (.inl ⟨rfl,by omega,by omega,h5⟩)))
  · exact .inr (.inr (.inr (.inr ⟨rfl,by omega,by omega,h5⟩)))

theorem remove_shape (r a : Range) : (∃ left, r.remove a = ⟨left,[]⟩) ∨
    r.isEmpty = false ∧ a.isEmpty = false ∧ r.start.toNat < a.start.toNat ∧
      lessNilAsInf a.stop r.stop ∧ r.remove a = ⟨r,[(a.start,a.endOrZero)]⟩ := by
  by_cases h1 : r.isEmpty
  · exact .inl ⟨Range.empty,by rw [Range.remove,if_pos h1]; rfl⟩
  by_cases h2 : a.isEmpty
  · exact .inl ⟨r,by rw [Range.remove,if_neg h1,if_pos h2]⟩
  rw [Bool.not_eq_true] at h1 h2
  rcases remove_branches (start_le_top h1) (start_le_top h2) with
    ⟨h,_⟩ | ⟨h,_⟩ | ⟨h,_⟩ | ⟨h,h3,_,h4⟩ | ⟨h,_⟩
  · exact .inl ⟨_,h⟩
  · exact .inl ⟨_,h⟩
  · exact .inl ⟨_,h⟩
  · exact .inr ⟨h1,h2,h3,h4,h⟩
  · exact .inl ⟨_,h⟩

/-- What `Remove` leaves of one hole: nothing, a single hole, or the two sides
of a filling range that lies strictly inside. -/
theorem fillHoles_cases {a : Range} {h : Hole} {rest : List Hole} (hh : h.1.toNat ≤ h.2.toNat)
    (hw : h.2.toNat < (2^64-1)) (ha : a.start.toNat ≤ top a.stop) :
    (fillHoles a (h::rest) = fillHoles a rest ∧
        a.start.toNat ≤ h.1.toNat ∧ h.2.toNat ≤ top a.stop) ∨
    (∃ g : Hole, fillHoles a (h::rest) = g::fillHoles a rest ∧
        h.1.toNat ≤ g.1.toNat ∧ g.1.toNat ≤ g.2.toNat ∧ g.2.toNat ≤ h.2.toNat ∧
        ∀ x, g.1.toNat ≤ x ∧ x ≤ g.2.toNat ↔
          (h.1.toNat ≤ x ∧ x ≤ h.2.toNat) ∧ ¬(a.start.toNat ≤ x ∧ x ≤ top a.stop)) ∨
    (∃ f g : Hole, fillHoles a (h::rest) = f::g::rest ∧ top a.stop < h.2.toNat ∧
        h.1.toNat = f.1.toNat ∧ f.1.toNat ≤ f.2.toNat ∧ f.2.toNat+1 = a.start.toNat ∧
        g.1.toNat = top a.stop+1 ∧ g.1.toNat ≤ g.2.toNat ∧ g.2.toNat = h.2.toNat) := by
  have hkept : Range.isEmpty ⟨h.1,some h.2⟩ = false := not_isEmpty _ hh
  have hi : top a.stop < h.2.toNat → (a.endOrZero+1).toNat = top a.stop+1 :=
    fun ht => endOrZero_inc a (by omega)
  have hd : h.1.toNat < a.start.toNat → (a.start-1).toNat = a.start.toNat-1 :=
    fun _ => toNat_dec _ (by omega)
  have hrem := remove_branches (r := ⟨h.1,some h.2⟩) hh ha
  simp only [top_some,less_some_iff] at hrem
  rcases hrem with ⟨he,_⟩ | ⟨he,h1,_,h2⟩ | ⟨he,h1,h2⟩ | ⟨he,h1,_,h2⟩ | ⟨he,h1,h2⟩
  · refine .inr (.inl ⟨h,?_,by omega,by omega,by omega,fun x => by omega⟩)
    simp [fillHoles,he,isEmpty,hkept,Range.endOrZero]
  · have hne : Range.isEmpty ⟨a.endOrZero+1,some h.2⟩ = false :=
      not_isEmpty _ (by simp only [top_some]; omega)
    refine .inr (.inl ⟨(a.endOrZero+1,h.2),?_,?_⟩)
    · simp only [fillHoles,he,isEmpty,hne]
      rfl
    · simp only [hi h2]
      exact ⟨by omega,by omega,by omega,fun x => by omega⟩
  · refine .inl ⟨?_,h1,not_lt.mp h2⟩
    simp [fillHoles,he,show emptyRangeSet.isEmpty from rfl]
  · refine .inr (.inr ⟨(h.1,a.start-1),(a.endOrZero+1,h.2),?_,h2,rfl,?_⟩)
    · simp [fillHoles,he,isEmpty,hkept]
    · simp only [hd h1,hi h2]
      exact ⟨by omega,by omega,trivial,by omega,trivial⟩
  have hne : Range.isEmpty ⟨h.1,some (a.start-1)⟩ = false :=
    not_isEmpty _ (by simp only [top_some,hd h1]; omega)
  refine .inr (.inl ⟨(h.1,a.start-1),?_,?_⟩)
  · simp [fillHoles,he,isEmpty,hne,Range.endOrZero]
  · simp only [hd h1]
    exact ⟨by omega,by omega,by omega,fun x => by omega⟩

theorem fillHoles_spec (a : Range) (first last : ℕ) (holes : List Hole)
    (hc : HoleChain first last holes) (hl : last < 2^64) (ha : a.start.toNat ≤ top a.stop) :
    HoleChain first last (fillHoles a holes) ∧
      ∀ x, InHoles (fillHoles a holes) x ↔
        InHoles holes x ∧ ¬(a.start.toNat ≤ x ∧ x ≤ top a.stop) := by
  induction holes generalizing first with
  | nil => simp [fillHoles,HoleChain]
  | cons h rest ih =>
    obtain ⟨h1,h2,h3,h4⟩ := hc
    obtain ⟨i1,i2⟩ := ih _ h4
    rcases fillHoles_cases h2 (by omega) ha with
      ⟨he,c2⟩ | ⟨g,he,c1,c2,c3,c4⟩ | ⟨f,g,he,c1,c2,c3,c4,c5,c6,c7⟩
    · rw [he]
      refine ⟨chain_first _ _ i1 (by omega),fun x => ?_⟩
      rw [i2,inHoles_cons]
      constructor
      · exact fun hh => ⟨.inr hh.1,hh.2⟩
      rintro ⟨hx | hx,hn⟩
      · omega
      · exact ⟨hx,hn⟩
    · rw [he]
      refine ⟨⟨by omega,c2,by omega,chain_first _ _ i1 (by omega)⟩,fun x => ?_⟩
      rw [inHoles_cons,inHoles_cons,i2,c4]
      tauto
    rw [he]
    refine ⟨⟨by omega,c3,by omega,by omega,c6,by omega,by rwa [c7]⟩,fun x => ?_⟩
    simp only [inHoles_cons]
    constructor
    · rintro (hx | hx | hx)
      · exact ⟨.inl (by omega),by omega⟩
      · exact ⟨.inl (by omega),by omega⟩
      · have := chain_above _ _ _ h4 x hx
        exact ⟨.inr hx,by omega⟩
    · rintro ⟨hx | hx,hn⟩
      · omega
      · exact .inr (.inr hx)

end Sentio.RangeHoles
