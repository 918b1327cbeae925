import Mathlib.Tactic

/-!
# Binary heaps

The parent of place `i` is `(i-1)/2`. Places behind the last element rank
last, so that no bound on a place is needed. A hole is a place whose element
has still to be moved, to its parent or to its least child.
-/

namespace Sentio.HeapOrder
variable {α : Type} {f : ℕ → α} {n : ℕ}

theorem swap_other {i j k : ℕ} (hi : k ≠ i) (hj : k ≠ j) : (f ∘ Equiv.swap i j) k = f k := by
  rw [Function.comp_apply,Equiv.swap_apply_of_ne_of_ne hi hj]

theorem swap_fst (i j : ℕ) : (f ∘ Equiv.swap i j) i = f j := by simp

theorem swap_snd (i j : ℕ) : (f ∘ Equiv.swap i j) j = f i := by simp

variable [LinearOrder α]

def Heap (f : ℕ → α) : Prop := ∀ i, f ((i-1)/2) ≤ f i

structure Hole (f : ℕ → α) (n : ℕ) : Prop where
  rest : ∀ i, i ≠ n → (i-1)/2 ≠ n → f ((i-1)/2) ≤ f i
  across : ∀ i, 0 < n → (i-1)/2 = n → f ((n-1)/2) ≤ f i

def Above (f : ℕ → α) (n : ℕ) : Prop := ∀ i, (i-1)/2 = n → f n ≤ f i

theorem Heap.root_le (h : Heap f) (i : ℕ) : f 0 ≤ f i := by
  induction i using Nat.strong_induction_on with
  | _ i ih =>
    rcases Nat.eq_zero_or_pos i with rfl | hi
    · exact le_rfl
    · exact (ih ((i-1)/2) (by omega)).trans (h i)

theorem Hole.heap (h : Hole f n) (ha : Above f n) (hn : 0 < n → f ((n-1)/2) ≤ f n) : Heap f := by
  intro i
  by_cases hi : i = n
  · subst hi
    rcases Nat.eq_zero_or_pos i with rfl | hi
    · exact le_rfl
    · exact hn hi
  · by_cases hp : (i-1)/2 = n
    · exact hp ▸ ha i hp
    · exact h.rest i hi hp

theorem Hole.up (h : Hole f n) (hn : 0 < n) (hlt : f n < f ((n-1)/2)) :
    Hole (f ∘ Equiv.swap n ((n-1)/2)) ((n-1)/2) ∧
      Above (f ∘ Equiv.swap n ((n-1)/2)) ((n-1)/2) := by
  have hpn : (n-1)/2 < n := by omega
  generalize hp : (n-1)/2 = p at *
  have hchild : ∀ i, (i-1)/2 = p → i ≠ n → f p ≤ f i :=
    fun i hi hin => hi ▸ h.rest i hin (by omega)
  refine ⟨⟨fun i hi hip => ?_,fun i h0 hi => ?_⟩,fun i hi => ?_⟩
  · have hin : i ≠ n := by rintro rfl; exact hip hp
    rw [swap_other hin hi]
    by_cases hpi : (i-1)/2 = n
    · rw [hpi,swap_fst]
      exact hp ▸ h.across i hn hpi
    · rw [swap_other hpi hip]
      exact h.rest i hin hpi
  · have hup := h.rest p hpn.ne (by omega)
    rw [swap_other (by omega) (by omega)]
    by_cases hin : i = n
    · rwa [hin,swap_fst]
    · rw [swap_other hin (by omega)]
      exact hup.trans (hchild i hi hin)
  rw [swap_snd]
  by_cases hin : i = n
  · rw [hin,swap_fst]
    exact hlt.le
  by_cases hip : i = p
  · rw [hip,swap_snd]
  · rw [swap_other hin hip]
    exact hlt.le.trans (hchild i hi hin)

theorem Hole.down {c : ℕ} (h : Hole f n) (hc : (c-1)/2 = n) (hnc : n < c) (hlt : f c < f n)
    (hleast : ∀ i, n < i → (i-1)/2 = n → f c ≤ f i) :
    Hole (f ∘ Equiv.swap c n) c ∧
      (f ∘ Equiv.swap c n) ((c-1)/2) ≤ (f ∘ Equiv.swap c n) c := by
  refine ⟨⟨fun i hi hip => ?_,fun i _ hi => ?_⟩,?_⟩
  · by_cases hin : i = n
    · rcases Nat.eq_zero_or_pos n with h0 | h0
      · rw [hin,h0]
      · rw [hin,swap_snd,swap_other (by omega) (by omega)]
        exact h.across c h0 hc
    rw [swap_other hi hin]
    by_cases hpi : (i-1)/2 = n
    · rw [hpi,swap_snd]
      exact hleast i (by omega) hpi
    · rw [swap_other hip hpi]
      exact h.rest i hin hpi
  · rw [hc,swap_snd,swap_other (by omega) (by omega)]
    exact hi ▸ h.rest i (by omega) (by omega)
  · rw [hc,swap_snd,swap_fst]
    exact hlt.le

end Sentio.HeapOrder
