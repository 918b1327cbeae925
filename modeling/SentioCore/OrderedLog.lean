import Mathlib.Tactic

/-!
# Lists ordered by a numeric key

Binary search, cutting an ordered list at a bound, and inserting behind all
entries of the same key.
-/

namespace Sentio.OrderedLog
open List Bool

def searchFrom (f : ℕ → Bool) : ℕ → ℕ → ℕ → ℕ
  | 0, i, _ => i
  | fuel+1, i, j =>
    if i < j then
      if f ((i+j)/2) then searchFrom f fuel i ((i+j)/2) else searchFrom f fuel ((i+j)/2+1) j
    else i

/-- The least index below `n` at which `f` holds, if `f` never switches back. -/
def search (n : ℕ) (f : ℕ → Bool) : ℕ := searchFrom f n 0 n

theorem searchFrom_eq {f : ℕ → Bool} {fuel : ℕ} (i j : ℕ) {c : ℕ} (hi : i ≤ c) (hj : c ≤ j)
    (hfuel : j ≤ i+fuel) (hf : ∀ k, i ≤ k → k < j → (f k ↔ c ≤ k)) : searchFrom f fuel i j = c := by
  induction fuel generalizing i j with
  | zero =>
    simp only [searchFrom]
    omega
  | succ fuel ih =>
    rw [searchFrom]
    by_cases hlt : i < j
    · rw [if_pos hlt]
      have hmid := hf ((i+j)/2) (by omega) (by omega)
      by_cases hc : f ((i+j)/2)
      · rw [if_pos hc]
        exact ih i _ hi (hmid.mp hc) (by omega) (fun k hk hkj => hf k hk (by omega))
      rw [if_neg hc]
      have hlow : ¬c ≤ (i+j)/2 := fun h => hc (hmid.mpr h)
      exact ih _ j (by omega) hj (by omega) (fun k hk hkj => hf k (by omega) hkj)
    · rw [if_neg hlt]
      omega

theorem search_eq {f : ℕ → Bool} {n c : ℕ} (hc : c ≤ n)
    (hf : ∀ k, k < n → (f k ↔ c ≤ k)) : search n f = c :=
  searchFrom_eq 0 n (Nat.zero_le c) hc (by omega) (fun k _ hk => hf k hk)

section
variable {α : Type} (key : α → ℕ)

def upTo (b : ℕ) (l : List α) : List α := l.filter (fun a => key a ≤ b)

def above (b : ℕ) (l : List α) : List α := l.filter (fun a => b < key a)

def before (n : ℕ) (l : List α) : List α := l.filter (fun a => key a < n)

def level (n : ℕ) (l : List α) : List α := l.filter (fun a => key a = n)

def Ascending (l : List α) : Prop := l.Pairwise (fun a b => key a < key b)

def Sorted (l : List α) : Prop := l.Pairwise (fun a b => key a ≤ key b)

def count (b : ℕ) (l : List α) : ℕ :=
  search l.length (fun i => (l[i]?).any (fun a => b < key a))

def insertLast (w : α) (l : List α) : List α := upTo key (key w) l++w::above key (key w) l

/-- Put an entry in the place of its key, over an entry that stands there. -/
def place (w : α) (l : List α) : List α := before key (key w) l++w::above key (key w) l

@[simp] theorem mem_upTo (b : ℕ) (l : List α) (a : α) : a ∈ upTo key b l ↔ a ∈ l ∧ key a ≤ b := by
  simp [upTo]

@[simp] theorem mem_above (b : ℕ) (l : List α) (a : α) : a ∈ above key b l ↔ a ∈ l ∧ b < key a := by
  simp [above]

@[simp] theorem mem_before (n : ℕ) (l : List α) (a : α) :
    a ∈ before key n l ↔ a ∈ l ∧ key a < n := by
  simp [before]

@[simp] theorem mem_level (n : ℕ) (l : List α) (a : α) : a ∈ level key n l ↔ a ∈ l ∧ key a = n := by
  simp [level]

variable {l : List α}

theorem ascending_sorted (h : Ascending key l) : Sorted key l :=
  h.imp (fun hab => hab.le)

variable (b : ℕ)

section
variable (h : Sorted key l)
include h

/-- A sorted list is its part up to a bound followed by its part above it. -/
theorem upTo_append_above : upTo key b l++above key b l = l := by
  induction l with
  | nil => rfl
  | cons a rest ih =>
    have hrest := pairwise_cons.mp h
    by_cases ha : key a ≤ b
    · have hnot : ¬b < key a := by omega
      simp only [upTo,above,filter_cons,ha,hnot]
      exact congrArg (a::·) (ih hrest.2)
    have hgt : b < key a := by omega
    have hnone : upTo key b rest = [] := by
      apply filter_eq_nil_iff.mpr
      intro c hc
      have := hrest.1 c hc
      simp only [decide_eq_true_eq]
      omega
    have hall : above key b rest = rest := by
      apply filter_eq_self.mpr
      intro c hc
      have := hrest.1 c hc
      simp only [decide_eq_true_eq]
      omega
    simp only [upTo,above,filter_cons,ha,hgt] at hnone hall ⊢
    rw [hnone,hall]
    rfl

theorem count_eq : count key b l = (upTo key b l).length := by
  have hsplit := upTo_append_above key b h
  have hlen : l.length = (upTo key b l).length+(above key b l).length := by
    rw [← length_append,hsplit]
  apply search_eq (by omega)
  intro k hk
  have hget : l[k]? = (upTo key b l++above key b l)[k]? := by rw [hsplit]
  by_cases hlow : k < (upTo key b l).length
  · rw [hget,getElem?_append_left hlow,getElem?_eq_getElem hlow]
    have hmem := (mem_upTo key b l _).mp (getElem_mem hlow)
    simp only [Option.any_some,decide_eq_true_eq]
    omega
  have hhigh : k-(upTo key b l).length < (above key b l).length := by omega
  rw [hget,getElem?_append_right (by omega),getElem?_eq_getElem hhigh]
  have hmem := (mem_above key b l _).mp (getElem_mem hhigh)
  simp only [Option.any_some,decide_eq_true_eq]
  omega

theorem take_count : l.take (count key b l) = upTo key b l := by
  rw [count_eq key b h]
  nth_rewrite 2 [← upTo_append_above key b h]
  exact take_left

theorem drop_count : l.drop (count key b l) = above key b l := by
  rw [count_eq key b h]
  nth_rewrite 2 [← upTo_append_above key b h]
  exact drop_left

end

theorem before_append_level (n : ℕ) (h : Sorted key l) :
    before key n l++level key n l = upTo key n l := by
  have hs : Sorted key (upTo key n l) := List.Pairwise.filter _ h
  rcases n with _ | m
  · have hnone : before key 0 l = [] := by simp [before]
    rw [hnone]
    apply filter_congr
    simp only [decide_eq_decide]
    omega
  have hsplit := upTo_append_above key m hs
  rw [← hsplit]
  congr 1
  · simp only [upTo,filter_filter]
    apply filter_congr
    intro a _
    rw [← decide_and,decide_eq_decide]
    omega
  simp only [above,upTo,filter_filter]
  apply filter_congr
  intro a _
  rw [← decide_and,decide_eq_decide]
  omega

variable {n : ℕ}

theorem before_insertLast {w : α} (l : List α) (h : n ≤ key w) :
    before key n (insertLast key w l) = before key n l := by
  have hw : ¬key w < n := by omega
  simp only [insertLast,before,upTo,above,filter_append,filter_cons,
    filter_filter,hw,decide_false,false_eq_true,if_false]
  have hnone : l.filter (fun a => decide (key a < n) && decide (key w < key a)) = [] := by
    apply filter_eq_nil_iff.mpr
    simp only [and_eq_true,decide_eq_true_eq]
    omega
  rw [hnone,append_nil]
  apply filter_congr
  intro a _
  rw [← decide_and,decide_eq_decide]
  omega

theorem level_insertLast_self (w : α) (l : List α) :
    level key (key w) (insertLast key w l) = level key (key w) l++[w] := by
  simp only [insertLast,level,upTo,above,filter_append,filter_cons,
    filter_filter]
  have hnone : l.filter (fun a => decide (key a = key w) && decide (key w < key a)) = [] := by
    apply filter_eq_nil_iff.mpr
    simp only [and_eq_true,decide_eq_true_eq]
    omega
  rw [hnone]
  congr 1
  apply filter_congr
  intro a _
  rw [← decide_and,decide_eq_decide]
  omega

theorem level_insertLast_ne (w : α) (h : key w ≠ n) (hs : Sorted key l) :
    level key n (insertLast key w l) = level key n l := by
  nth_rewrite 2 [← upTo_append_above key (key w) hs]
  simp [insertLast,level,h]

theorem mem_insertLast (w a : α) (l : List α) : a ∈ insertLast key w l ↔ a = w ∨ a ∈ l := by
  simp only [insertLast,mem_append,mem_cons,mem_upTo,mem_above]
  constructor
  · rintro (h | rfl | h)
    · exact .inr h.1
    · exact .inl rfl
    · exact .inr h.1
  rintro (rfl | h)
  · exact .inr (.inl rfl)
  by_cases hk : key a ≤ key w
  · exact .inl ⟨h,hk⟩
  · exact .inr (.inr ⟨h,by omega⟩)

theorem sorted_insertLast (w : α) (h : Sorted key l) : Sorted key (insertLast key w l) := by
  apply pairwise_append.mpr
  refine ⟨List.Pairwise.filter _ h,pairwise_cons.mpr ⟨?_,List.Pairwise.filter _ h⟩,?_⟩
  · intro a ha
    exact ((mem_above key _ _ _).mp ha).2.le
  intro a ha c hc
  have hle := ((mem_upTo key _ _ _).mp ha).2
  rcases mem_cons.mp hc with rfl | hc
  · exact hle
  · exact hle.trans ((mem_above key _ _ _).mp hc).2.le

theorem mem_place (w a : α) (l : List α) : a ∈ place key w l ↔ a = w ∨ (a ∈ l ∧ key a ≠ key w) := by
  simp only [place,mem_append,mem_cons,mem_before,mem_above]
  constructor
  · rintro (h | rfl | h)
    · exact .inr ⟨h.1,by omega⟩
    · exact .inl rfl
    · exact .inr ⟨h.1,by omega⟩
  rintro (rfl | h)
  · exact .inr (.inl rfl)
  rcases Nat.lt_or_gt_of_ne h.2 with hk | hk
  · exact .inl ⟨h.1,hk⟩
  · exact .inr (.inr ⟨h.1,hk⟩)

theorem ascending_place {w : α} (h : Ascending key l) : Ascending key (place key w l) := by
  apply pairwise_append.mpr
  refine ⟨List.Pairwise.filter _ h,pairwise_cons.mpr ⟨?_,List.Pairwise.filter _ h⟩,?_⟩
  · intro a ha
    exact ((mem_above key _ _ _).mp ha).2
  intro a ha c hc
  have hlt := ((mem_before key _ _ _).mp ha).2
  rcases mem_cons.mp hc with rfl | hc
  · exact hlt
  · exact hlt.trans ((mem_above key _ _ _).mp hc).2

variable {a : α}

theorem ascending_inj (h : Ascending key l) {c : α} (ha : a ∈ l) (hc : c ∈ l)
    (hk : key a = key c) : a = c := by
  induction l with
  | nil => exact absurd ha not_mem_nil
  | cons e rest ih =>
    have hrest := pairwise_cons.mp h
    rcases mem_cons.mp ha with rfl | ha' <;> rcases mem_cons.mp hc with rfl | hc'
    · rfl
    · exact absurd hk (hrest.1 c hc').ne
    · exact absurd hk (hrest.1 a ha').ne'
    · exact ih hrest.2 ha' hc'

theorem level_eq_singleton (h : Ascending key l) (ha : a ∈ l) : level key (key a) l = [a] := by
  have hasc : Ascending key (level key (key a) l) := List.Pairwise.filter _ h
  have hmem : a ∈ level key (key a) l := (mem_level key _ _ _).mpr ⟨ha,rfl⟩
  rcases hl : level key (key a) l with _ | ⟨c,rest⟩
  · exact absurd (hl ▸ hmem) not_mem_nil
  have hall : ∀ d ∈ level key (key a) l, d = a := fun d hd =>
    ascending_inj key h ((mem_level key _ _ _).mp hd).1 ha ((mem_level key _ _ _).mp hd).2
  rw [hl] at hasc hall
  cases rest with
  | nil => rw [hall c mem_cons_self]
  | cons d rest =>
    have hlt := (pairwise_cons.mp hasc).1 d mem_cons_self
    rw [hall c mem_cons_self,hall d (by simp)] at hlt
    exact absurd hlt (lt_irrefl _)

theorem upTo_eq_before_append (h : Ascending key l) (ha : a ∈ l) :
    upTo key (key a) l = before key (key a) l++[a] := by
  rw [← before_append_level key (key a) (ascending_sorted key h),level_eq_singleton key h ha]

theorem level_eq_nil (h : ∀ a ∈ l, key a ≠ n) : level key n l = [] := by
  apply filter_eq_nil_iff.mpr
  intro a ha
  simpa using h a ha

variable {m : ℕ}

theorem before_congr (h : ∀ a ∈ l, key a < m ↔ key a < n) : before key m l = before key n l := by
  apply filter_congr
  intro a ha
  exact decide_eq_decide.mpr (h a ha)

theorem upTo_eq_before (l : List α) : upTo key b l = before key (b+1) l := by
  apply filter_congr
  intro a _
  rw [decide_eq_decide]
  omega

theorem getLast?_max (hs : Ascending key l) (h : l.getLast? = some a) : ∀ c ∈ l, key c ≤ key a := by
  obtain ⟨front,hf⟩ := getLast?_eq_some_iff.mp h
  intro c hc
  have hp : (front++[a]).Pairwise (fun a b => key a < key b) := hf ▸ hs
  rw [hf] at hc
  rcases mem_append.mp hc with hc | hc
  · exact ((pairwise_append.mp hp).2.2 c hc a (by simp)).le
  · rw [mem_singleton.mp hc]

theorem getLast?_upTo (a : α) (hs : Ascending key l)
    (h : (upTo key b l).getLast? = some a) :
    a ∈ l ∧ key a ≤ b ∧ ∀ c ∈ l, key c ≤ b → key c ≤ key a := by
  have hmem := (mem_upTo key b l a).mp (mem_of_getLast? h)
  refine ⟨hmem.1,hmem.2,fun c hc hb => ?_⟩
  exact getLast?_max key (List.Pairwise.filter _ hs) h c ((mem_upTo key b l c).mpr ⟨hc,hb⟩)

theorem mem_map_key (l : List α) (n : ℕ) : (∃ a ∈ l, key a = n) ↔ n ∈ l.map key := by
  simp

theorem ascending_iff_map (l : List α) : Ascending key l ↔ (l.map key).Pairwise (· < ·) := by
  simp [Ascending,pairwise_map]

theorem before_before (m n : ℕ) (l : List α) :
    before key m (before key n l) = before key (min m n) l := by
  simp only [before,filter_filter]
  apply filter_congr
  intro a _
  rw [← decide_and,decide_eq_decide]
  omega

theorem level_before (l : List α) (h : m < n) : level key m (before key n l) = level key m l := by
  simp only [before,level,filter_filter]
  apply filter_congr
  intro a _
  rw [← decide_and,decide_eq_decide]
  omega

end
end Sentio.OrderedLog
