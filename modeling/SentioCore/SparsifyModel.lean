import Mathlib.Data.List.Perm.Basic
import Mathlib.Tactic

/-!
# Thinning a list by block distance

Items are dropped so that the distances between the remaining ones grow
geometrically towards the front. The two loops of the source run over one
descending index: an item is dropped while its left neighbour is still near
enough to the last kept item, and is kept otherwise.
-/

namespace Sentio.SparsifyModel
open List

/-- Indices dropped from position `q` down to `1`; `pn` is the number of the
last kept item. -/
def removeFrom (num : ℕ → UInt64) (distMultiplier : UInt64) : ℕ → UInt64 → UInt64 → List ℕ
  | 0, _, _ => []
  | q+1, pn, distance =>
    if pn-num q ≤ distance then (q+1)::removeFrom num distMultiplier q pn distance
    else removeFrom num distMultiplier q (num (q+1)) (distance*distMultiplier)

section
variable {τ : Type}

def removeWithMultiplier (origin : List τ) (getNum : τ → UInt64)
    (minDist distMultiplier : UInt64) : List ℕ :=
  if origin.length ≤ 2 then []
  else
    let num := fun i => (origin.map getNum).getD i 0
    removeFrom num distMultiplier (origin.length-2) (num (origin.length-1)) minDist

def remove (origin : List τ) (getNum : τ → UInt64) : List ℕ :=
  removeWithMultiplier origin getNum 1 2

def removeByIndex (arr : List τ) (removed : List ℕ) : List τ :=
  (arr.zipIdx.filter (fun item => !removed.contains item.2)).map Prod.fst

def sparsify (origin : List τ) (getNum : τ → UInt64) : List τ :=
  removeByIndex origin (remove origin getNum)

variable {num : ℕ → UInt64} {i q : ℕ} {distMultiplier : UInt64}

theorem removeFrom_bounds (pn distance : UInt64)
    (hi : i ∈ removeFrom num distMultiplier q pn distance) : 1 ≤ i ∧ i ≤ q := by
  induction q generalizing pn distance with
  | zero => simp [removeFrom] at hi
  | succ q ih =>
    simp only [removeFrom] at hi
    split at hi
    · rcases mem_cons.mp hi with rfl | hi
      · omega
      · have := ih _ _ hi
        omega
    · have := ih _ _ hi
      omega

theorem removeFrom_nodup
    (pn distance : UInt64) : (removeFrom num distMultiplier q pn distance).Nodup := by
  induction q generalizing pn distance with
  | zero => simp [removeFrom]
  | succ q ih =>
    simp only [removeFrom]
    split
    · rw [nodup_cons]
      refine ⟨fun hm => ?_,ih _ _⟩
      have := removeFrom_bounds pn distance hm
      omega
    · exact ih _ _

theorem removeWithMultiplier_bounds {origin : List τ} {getNum : τ → UInt64} {minDist : UInt64}
    (hi : i ∈ removeWithMultiplier origin getNum minDist distMultiplier) :
    1 ≤ i ∧ i+1 < origin.length := by
  simp only [removeWithMultiplier] at hi
  split at hi
  · simp at hi
  · have := removeFrom_bounds _ _ hi
    omega

theorem removeWithMultiplier_nodup (origin : List τ) (getNum : τ → UInt64)
    (minDist distMultiplier : UInt64) :
    (removeWithMultiplier origin getNum minDist distMultiplier).Nodup := by
  simp only [removeWithMultiplier]
  split
  · simp
  · exact removeFrom_nodup _ _

theorem removeByIndex_append (front back : List τ) (removed : List ℕ)
    (h : ∀ i ∈ removed, i < front.length) :
    removeByIndex (front++back) removed = removeByIndex front removed++back := by
  have hb : (back.zipIdx (0+front.length)).filter (fun item => !removed.contains item.2) =
      back.zipIdx (0+front.length) := by
    rw [filter_eq_self]
    intro item hm
    have hle := (mem_zipIdx hm).1
    simp only [Bool.not_eq_true',contains_eq_mem,decide_eq_false_iff_not]
    intro hr
    have := h _ hr
    omega
  simp only [removeByIndex]
  rw [zipIdx_append,filter_append,hb,map_append]
  congr 1
  exact zipIdx_map_fst _ _

variable {removed : List ℕ} (arr : List τ)

theorem removeByIndex_head (h : ∀ i ∈ removed, 1 ≤ i) :
    (removeByIndex arr removed).head? = arr.head? := by
  cases arr with
  | nil => rfl
  | cons a rest =>
    have h0 : 0 ∉ removed := fun hm => absurd (h 0 hm) (by decide)
    simp [removeByIndex,h0]

theorem removeByIndex_sublist (removed : List ℕ) : (removeByIndex arr removed).Sublist arr := by
  have h := (filter_sublist (p := fun item => !removed.contains item.2)
    (l := arr.zipIdx)).map Prod.fst
  rwa [zipIdx_map_fst] at h

theorem removeByIndex_length (hn : removed.Nodup) (h : ∀ i ∈ removed, i < arr.length) :
    (removeByIndex arr removed).length+removed.length = arr.length := by
  have hsplit : ((List.range arr.length).filter (fun i => !removed.contains i)).length+
      ((List.range arr.length).filter (fun i => removed.contains i)).length = arr.length := by
    have := length_eq_length_filter_add (fun i => removed.contains i)
      (l := List.range arr.length)
    simp only [length_range] at this
    omega
  have hin : ((List.range arr.length).filter (fun i => removed.contains i)).Perm removed := by
    rw [perm_ext_iff_of_nodup (nodup_range.filter _) hn]
    intro i
    simp only [mem_filter,mem_range,contains_eq_mem,decide_eq_true_eq]
    exact ⟨fun hi => hi.2,fun hi => ⟨h i hi,hi⟩⟩
  have hlen : (removeByIndex arr removed).length =
      ((List.range arr.length).filter (fun i => !removed.contains i)).length := by
    have hr : List.range arr.length = arr.zipIdx.map Prod.snd := by
      rw [zipIdx_map_snd,range_eq_range']
    rw [hr,filter_map,length_map,removeByIndex,length_map]
    rfl
  rw [hlen,← hin.length_eq]
  exact hsplit

theorem sparsify_append_last (front : List τ) (last : τ) (getNum : τ → UInt64) :
    ∃ kept, sparsify (front++[last]) getNum = kept++[last] := by
  refine ⟨_,removeByIndex_append front [last] _ ?_⟩
  intro i hi
  have := (removeWithMultiplier_bounds hi).2
  simp only [length_append,length_singleton] at this
  omega

end
end Sentio.SparsifyModel
