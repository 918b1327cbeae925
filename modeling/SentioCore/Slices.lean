import Mathlib.Tactic

/-!
# Slices of shared arrays

A slice is a window on an array that other slices may look at too. Cutting it
keeps the array. Appending writes behind the window while the array has room
there and copies only when it has none, so it can change what another slice
shows; every other step leaves all slices alone.
-/

namespace Sentio.Slices

structure Memory (α : Type) where
  cells : ℕ → ℕ → α
  next : ℕ

/-- The `len` cells of the array `arr` from `off` on; `cap` counts the cells from
there to the end of the array. -/
structure Slice where
  arr : ℕ
  off : ℕ
  len : ℕ
  cap : ℕ

namespace Slice

def nil : Slice := ⟨0,0,0,0⟩

def Shows (s : Slice) (arr i : ℕ) : Prop := s.arr = arr ∧ s.off ≤ i ∧ i < s.off+s.len

instance (s : Slice) (arr i : ℕ) : Decidable (s.Shows arr i) :=
  inferInstanceAs (Decidable (_ ∧ _ ∧ _))

end Slice

variable {α : Type} (m : Memory α) (s : Slice)

def view : List α := (List.range s.len).map (fun k => m.cells s.arr (s.off+k))

/-- `n` cells of the window from its cell `k` on; an empty slice is given up. -/
def cut (k n : ℕ) : Slice := if n = 0 then .nil else ⟨s.arr,s.off+k,n,s.cap-k⟩

def write (arr i : ℕ) (x : α) : Memory α :=
  { m with cells := fun b j => if b = arr ∧ j = i then x else m.cells b j }

/-- A new array with some spare cells behind the values; no values need no array. -/
def fresh (xs : List α) (spare : ℕ) : Memory α × Slice :=
  if xs.isEmpty then (m,.nil)
  else (⟨fun b j => if b = m.next then xs.getD j (m.cells b j) else m.cells b j,m.next+1⟩,
    ⟨m.next,0,xs.length,xs.length+spare⟩)

def append (x : α) (spare : ℕ) : Memory α × Slice :=
  if s.len < s.cap then (write m s.arr (s.off+s.len) x,{ s with len := s.len+1 })
  else fresh m (view m s++[x]) spare

structure Valid : Prop where
  room : s.len ≤ s.cap
  known : 0 < s.cap → s.arr < m.next

/-- Appending `x` to `s` writes it over another value that the slice `t` shows. -/
def Overwrites (x : α) (t : Slice) : Prop :=
  s.len < s.cap ∧ t.Shows s.arr (s.off+s.len) ∧ m.cells s.arr (s.off+s.len) ≠ x

instance [DecidableEq α] (x : α) (t : Slice) : Decidable (Overwrites m s x t) :=
  inferInstanceAs (Decidable (_ ∧ _ ∧ _))

/-- What a step that makes a new slice does: the new slice shows the values `xs`,
and among the old slices exactly those in `harm` show something else than before. -/
structure Makes (out : Memory α × Slice) (xs : List α) (harm : Slice → Prop) : Prop where
  shows_values : view out.1 out.2 = xs
  valid : Valid out.1 out.2
  stays : ∀ t, Valid m t → Valid out.1 t
  others : ∀ t, Valid m t → (view out.1 t = view m t ↔ ¬harm t)

variable {m s}

@[simp] theorem length_view : (view m s).length = s.len := by simp [view]

theorem valid_nil : Valid m .nil := ⟨le_rfl,fun h => absurd h (by decide)⟩

theorem makes_kept (hs : Valid m s) : Makes m (m,s) (view m s) (fun _ => False) :=
  ⟨rfl,hs,fun _ ht => ht,fun _ _ => by simp⟩

theorem makes_nil : Makes m (m,.nil) [] (fun _ => False) := makes_kept valid_nil

/-- Cutting shows a part of the values of the slice, in the same array. -/
theorem makes_cut {k : ℕ} {xs : List α} (hs : Valid m s) (h : xs <+: (view m s).drop k) :
    Makes m (m,cut s k xs.length) xs (fun _ => False) := by
  by_cases hx : xs = []
  · simpa [hx,cut] using makes_nil (m := m)
  have hpos : 0 < xs.length := List.length_pos_of_ne_nil hx
  have hlen := h.length_le
  rw [List.length_drop,length_view] at hlen
  have hcut : cut s k xs.length = ⟨s.arr,s.off+k,xs.length,s.cap-k⟩ := if_neg (by omega)
  have hroom := hs.room
  refine ⟨?_,⟨?_,?_⟩,fun _ ht => ht,fun _ _ => by simp⟩
  · rw [hcut]
    apply List.ext_getElem (by simp)
    intro i h1 h2
    simp [h.getElem h2,view,Nat.add_assoc]
  · simp only [hcut]
    omega
  · simp only [hcut]
    exact fun _ => hs.known (by omega)

theorem makes_fresh (xs : List α) (spare : ℕ) :
    Makes m (fresh m xs spare) xs (fun _ => False) := by
  by_cases hx : xs = []
  · simpa [hx,fresh] using makes_nil (m := m)
  have hpos : 0 < xs.length := List.length_pos_of_ne_nil hx
  simp only [fresh,List.isEmpty_iff,hx,if_false]
  refine ⟨?_,⟨by simp,by simp⟩,fun t ht => ⟨ht.room,fun hc => ?_⟩,fun t ht => ?_⟩
  · apply List.ext_getElem (by simp)
    intro i h1 h2
    simp [view,h2]
  · exact Nat.lt_succ_of_lt (ht.known hc)
  · simp only [not_false_eq_true,iff_true]
    apply List.map_congr_left
    intro k hk
    have hroom := ht.room
    rw [List.mem_range] at hk
    have hold := ht.known (by omega)
    exact if_neg (by omega)

/-- A write is seen by the slices that show the cell, unless it writes what was there. -/
theorem view_write {arr i : ℕ} {x : α} :
    view (write m arr i x) s = view m s ↔ ¬(s.Shows arr i ∧ m.cells arr i ≠ x) := by
  constructor
  · rintro h ⟨⟨rfl,hlow,hhigh⟩,hne⟩
    have hcell := (List.map_inj_left.mp h) (i-s.off) (List.mem_range.mpr (by omega))
    simp only [write,Nat.add_sub_cancel' hlow,and_self,if_true] at hcell
    exact hne hcell.symm
  · intro h
    apply List.map_congr_left
    intro k hk
    rw [List.mem_range] at hk
    simp only [write]
    split
    · rename_i heq
      by_contra hne
      refine h ⟨⟨heq.1,by omega,by omega⟩,fun hx => hne ?_⟩
      rw [heq.1,heq.2,hx]
    · rfl

theorem makes_append (hs : Valid m s) (x : α) (spare : ℕ) :
    Makes m (append m s x spare) (view m s++[x]) (Overwrites m s x) := by
  unfold append
  split
  · rename_i hroom
    refine ⟨?_,⟨hroom,hs.known⟩,fun t ht => ⟨ht.room,ht.known⟩,fun t _ => ?_⟩
    · have hold : view (write m s.arr (s.off+s.len) x) s = view m s :=
        view_write.mpr fun h => absurd h.1.2.2 (lt_irrefl _)
      rw [← hold]
      simp [view,List.range_succ,write]
    · simp [view_write,Overwrites,hroom]
  · rename_i hfull
    have hnew := makes_fresh (m := m) (view m s++[x]) spare
    refine ⟨hnew.shows_values,hnew.valid,hnew.stays,fun t ht => ?_⟩
    simpa [Overwrites,hfull] using hnew.others t ht

end Sentio.Slices
