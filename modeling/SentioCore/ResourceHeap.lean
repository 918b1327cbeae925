import SentioCore.HeapOrder
import SentioCore.ResourceManager

/-!
# The waiters form a heap

A waiter ranks by its priority and then by its arrival. Sifting only permutes
the waiters, and every operation leaves them in heap order.
-/

namespace Sentio.ResourceManager
open HeapOrder List

def Waiter.key (w : Waiter) : ℤ ×ₗ ℕ := toLex (w.priority,w.index)

def rank (l : List Waiter) (i : ℕ) : WithTop (ℤ ×ₗ ℕ) := l[i]?.elim ⊤ (fun w => w.key)

variable {l : List Waiter} {i j n : ℕ}

theorem inFront_iff {w a : Waiter} : inFront w a ↔ w.key < a.key := by
  unfold inFront Waiter.key
  rw [Prod.Lex.toLex_lt_toLex]
  split
  · simp_all
  · simp_all

theorem rank_some {w : Waiter} (h : l[i]? = some w) : rank l i = w.key := by
  rw [rank,h]
  rfl

theorem rank_top (h : l.length ≤ i) : rank l i = ⊤ := by
  rw [rank,List.getElem?_eq_none h]
  rfl

theorem le_rank {a : WithTop (ℤ ×ₗ ℕ)} (h : l.length ≤ i) : a ≤ rank l i := rank_top h ▸ le_top

theorem ahead_iff (h : j ≤ i) : ahead l i j ↔ rank l i < rank l j := by
  by_cases hi : i < l.length
  · have hj := h.trans_lt hi
    simp [ahead,rank,hi,hj,inFront_iff]
  · rw [rank_top (not_lt.mp hi)]
    simp [ahead,List.getElem?_eq_none (not_lt.mp hi)]

theorem ahead_length (h : j ≤ i) (ha : ahead l i j) : i < l.length := by
  by_contra hi
  rw [ahead_iff h,rank_top (not_lt.mp hi)] at ha
  exact not_top_lt ha

theorem swap_perm (l : List Waiter) (i j : ℕ) : (swap l i j).Perm l := by
  unfold swap
  split
  · rename_i a b ha hb
    obtain ⟨hi,rfl⟩ := List.getElem?_eq_some_iff.mp ha
    obtain ⟨hj,rfl⟩ := List.getElem?_eq_some_iff.mp hb
    exact set_set_perm hi hj
  · rfl

theorem swap_rank (hi : i < l.length) (hj : j < l.length) :
    rank (swap l i j) = rank l ∘ Equiv.swap i j := by
  funext k
  unfold rank
  simp only [swap,List.getElem?_eq_getElem hi,List.getElem?_eq_getElem hj]
  grind

theorem siftUpLoop_perm {rounds : ℕ} {l : List Waiter} {n : ℕ} :
    (siftUpLoop rounds l n).Perm l := by
  induction rounds generalizing l n with
  | zero => rfl
  | succ rounds ih =>
    rw [siftUpLoop]
    split
    · exact ih.trans (swap_perm l _ _)
    · rfl

theorem siftDownLoop_perm {rounds : ℕ} {l : List Waiter} {n : ℕ} :
    (siftDownLoop rounds l n).1.Perm l := by
  induction rounds generalizing l n with
  | zero => rfl
  | succ rounds ih =>
    rw [siftDownLoop]
    split
    · exact ih.trans (swap_perm l _ _)
    · rfl

theorem siftUpLoop_heap {rounds : ℕ} (h : Hole (rank l) n) (ha : Above (rank l) n)
    (hr : n ≤ rounds) : Heap (rank (siftUpLoop rounds l n)) := by
  induction rounds generalizing l n with
  | zero => exact h.heap ha (fun h0 => by omega)
  | succ rounds ih =>
    rw [siftUpLoop]
    split
    · rename_i hc
      rw [Bool.and_eq_true,decide_eq_true_eq] at hc
      obtain ⟨hn,hc⟩ := hc
      have hl := ahead_length (by omega) hc
      have hup := h.up hn ((ahead_iff (by omega)).mp hc)
      rw [← swap_rank hl (by omega)] at hup
      exact ih hup.1 hup.2 (by omega)
    · rename_i hc
      refine h.heap ha (fun hn => not_lt.mp (fun hlt => hc ?_))
      rw [Bool.and_eq_true,decide_eq_true_eq]
      exact ⟨hn,(ahead_iff (by omega)).mpr hlt⟩

theorem nextDown_child : n < nextDown l n ∧ (nextDown l n-1)/2 = n := by
  unfold nextDown
  split <;> omega

theorem nextDown_least (hn : n < i) (hi : (i-1)/2 = n) : rank l (nextDown l n) ≤ rank l i := by
  have hc : i = (n+1)*2 ∨ i = (n+1)*2-1 := by omega
  have ha := ahead_iff (l := l) (i := (n+1)*2) (j := (n+1)*2-1) (by omega)
  unfold nextDown
  split
  · rename_i h
    rcases hc with rfl | rfl
    · exact le_rfl
    · exact (ha.mp h).le
  rename_i h
  rcases hc with rfl | rfl
  · exact not_lt.mp (fun hlt => h (ha.mpr hlt))
  · exact le_rfl

theorem siftDownLoop_heap {rounds : ℕ} (h : Hole (rank l) n) (hr : l.length ≤ n+rounds) :
    (siftDownLoop rounds l n = (l,n) ∧ Above (rank l) n) ∨
      (n < (siftDownLoop rounds l n).2 ∧ Heap (rank (siftDownLoop rounds l n).1)) := by
  induction rounds generalizing l n with
  | zero =>
    refine .inl ⟨rfl,fun i hi => ?_⟩
    exact le_rank (by omega)
  | succ rounds ih =>
    obtain ⟨hn,hp⟩ := nextDown_child
    rw [siftDownLoop]
    split
    · rename_i hc
      have hl := ahead_length hn.le hc
      have hdown := h.down hp hn ((ahead_iff hn.le).mp hc) (fun i => nextDown_least)
      rw [← swap_rank hl (by omega)] at hdown
      have hlen := (swap_perm l (nextDown l n) n).length_eq
      rcases ih hdown.1 (by omega) with ⟨he,ha⟩ | ⟨hlt,hh⟩
      · rw [he]
        exact .inr ⟨hn,hdown.1.heap ha (fun _ => hdown.2)⟩
      · exact .inr ⟨hn.trans hlt,hh⟩
    · rename_i hc
      refine .inl ⟨rfl,fun i hi => ?_⟩
      rcases eq_or_ne i n with rfl | hin
      · exact le_rfl
      · have hle := not_lt.mp (fun hlt => hc ((ahead_iff hn.le).mpr hlt))
        exact hle.trans (nextDown_least (by omega) hi)

theorem add_perm (l : List Waiter) (w : Waiter) :
    (siftUp (l++[w]) ((l++[w]).length-1)).Perm (w::l) :=
  siftUpLoop_perm.trans (perm_append_singleton _ _)

theorem add_heap (w : Waiter) (h : Heap (rank l)) :
    Heap (rank (siftUp (l++[w]) ((l++[w]).length-1))) := by
  have hl : (l++[w]).length = l.length+1 := length_append
  rw [hl,Nat.add_sub_cancel]
  refine siftUpLoop_heap ⟨fun i hi _ => ?_,fun i _ hi => le_rank (by omega)⟩ (fun i hi => ?_) le_rfl
  · by_cases hi : i < l.length
    · have hp : (i-1)/2 < l.length := by omega
      simpa [rank,getElem?_append_left,hi,hp] using h i
    · exact le_rank (by omega)
  · rcases eq_or_ne i l.length with rfl | hil
    · exact le_rfl
    · exact le_rank (by omega)

theorem removeWaiterAt_perm {w : Waiter} (hw : l[i]? = some w) :
    l.Perm (w::removeWaiterAt l i) := by
  have hi := (List.getElem?_eq_some_iff.mp hw).1
  have hlast := List.getElem?_eq_getElem (by omega : l.length-1 < l.length)
  have hs := swap_perm l i (l.length-1)
  have hw' : (swap l i (l.length-1)).getLast? = some w := by
    rw [getLast?_eq_getElem?,hs.length_eq]
    exact swap_second hw hlast
  have hrest : (removeWaiterAt l i).Perm (swap l i (l.length-1)).dropLast := by
    unfold removeWaiterAt
    dsimp only
    split
    · split
      · exact siftDownLoop_perm
      · exact siftUpLoop_perm.trans siftDownLoop_perm
    · rfl
  refine hs.symm.trans ?_
  rw [← dropLast_append_getLast? w hw']
  exact (perm_append_singleton _ _).trans (hrest.symm.cons w)

theorem removeWaiterAt_heap (hi : i < l.length) (h : Heap (rank l)) :
    Heap (rank (removeWaiterAt l i)) := by
  have hlen : (swap l i (l.length-1)).dropLast.length = l.length-1 := by
    rw [length_dropLast,(swap_perm l _ _).length_eq]
  have hsame : ∀ k, k < l.length-1 → k ≠ i →
      rank (swap l i (l.length-1)).dropLast k = rank l k := by
    intro k hk hki
    have hd : rank (swap l i (l.length-1)).dropLast k = rank (swap l i (l.length-1)) k := by
      rw [rank,rank,getElem?_dropLast,(swap_perm l _ _).length_eq,if_pos hk]
    rw [hd,swap_rank hi (by omega),swap_other hki (by omega)]
  unfold removeWaiterAt
  dsimp only
  generalize (swap l i (l.length-1)).dropLast = rest at *
  have hole : Hole (rank rest) i := by
    refine ⟨fun k hk hp => ?_,fun k h0 hp => ?_⟩
    · rcases lt_or_ge k (l.length-1) with hlt | hge
      · rw [hsame k hlt hk,hsame _ (by omega) hp]
        exact h k
      · exact le_rank (by omega)
    rcases lt_or_ge k (l.length-1) with hlt | hge
    · rw [hsame k hlt (by omega),hsame _ (by omega) (by omega)]
      exact (h i).trans (hp ▸ h k)
    · exact le_rank (by omega)
  split
  · rcases siftDownLoop_heap hole (Nat.le_add_left rest.length i) with ⟨he,ha⟩ | ⟨hlt,hh⟩
    · rw [siftDown,he,if_neg (lt_irrefl i)]
      exact siftUpLoop_heap hole ha le_rfl
    · rw [siftDown,if_pos hlt]
      exact hh
  · exact hole.heap (fun k hk => le_rank (by omega)) (fun _ => le_rank (by omega))

end Sentio.ResourceManager
