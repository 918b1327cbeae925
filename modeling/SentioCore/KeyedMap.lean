import Mathlib.Tactic

/-!
# Finite maps from keys to lists

An association list without repeated keys; a missing key holds the empty list.
-/

namespace Sentio.KeyedMap
open List

section
variable {κ α : Type}

variable (m : List (κ × List α))

def keys : List κ := m.map Prod.fst

def adjust (f : κ → List α → List α) : List (κ × List α) :=
  m.map (fun e => (e.1,f e.1 e.2))

def dropEmpty : List (κ × List α) := m.filter (fun e => !e.2.isEmpty)

theorem keys_adjust (f : κ → List α → List α) :
    keys (adjust m f) = keys m := by
  simp [keys,adjust]

theorem nodup_dropEmpty {m : List (κ × List α)} (h : (keys m).Nodup) :
    (keys (dropEmpty m)).Nodup := by
  have hsub : (keys (dropEmpty m)).Sublist (keys m) := List.Sublist.map _ filter_sublist
  exact h.sublist hsub

end

section
variable {κ α : Type} [DecidableEq κ]

def find : List (κ × List α) → κ → List α
  | [], _ => []
  | (j,l)::rest, k => if j = k then l else find rest k

def put : List (κ × List α) → κ → List α → List (κ × List α)
  | [], k, l => [(k,l)]
  | (j,old)::rest, k, l => if j = k then (k,l)::rest else (j,old)::put rest k l

theorem find_put (m : List (κ × List α)) (k j : κ) (l : List α) :
    find (put m k l) j = if j = k then l else find m j := by
  induction m with
  | nil =>
    by_cases h : j = k
    · simp [put,find,h]
    · simp [put,find,h,Ne.symm h]
  | cons e rest ih =>
    simp only [put]
    by_cases hk : e.1 = k
    · by_cases h : j = k
      · simp [hk,h,find]
      · simp [hk,h,find,Ne.symm h]
    by_cases hj : e.1 = j
    · have h : j ≠ k := fun h => hk (hj.trans h)
      simp [find,hj,h]
    · simp [if_neg hk,find,if_neg hj,ih]

theorem keys_put {m : List (κ × List α)} {k : κ} {l : List α} {j : κ} :
    j ∈ keys (put m k l) ↔ j = k ∨ j ∈ keys m := by
  induction m with
  | nil => simp [put,keys]
  | cons e rest ih =>
    by_cases hk : e.1 = k
    · simp [put,keys,hk]
    simp only [put,if_neg hk,keys,map_cons,mem_cons] at ih ⊢
    tauto

variable {m : List (κ × List α)}

theorem nodup_put {k : κ} {l : List α} (h : (keys m).Nodup) : (keys (put m k l)).Nodup := by
  induction m with
  | nil => simp [put,keys]
  | cons e rest ih =>
    have hrest := nodup_cons.mp h
    by_cases hk : e.1 = k
    · subst hk
      simpa [put,keys] using h
    simp only [put,if_neg hk]
    apply nodup_cons.mpr
    refine ⟨fun hin => ?_,ih hrest.2⟩
    rcases keys_put.mp hin with he | he
    · exact hk he
    · exact hrest.1 he

variable {k : κ}

theorem find_adjust {f : κ → List α → List α}
    (hf : f k [] = []) : find (adjust m f) k = f k (find m k) := by
  induction m with
  | nil => exact hf.symm
  | cons e rest ih =>
    simp only [adjust,map_cons,find]
    by_cases hk : e.1 = k
    · simp [hk]
    · simp only [if_neg hk]
      exact ih

theorem find_of_notMem (h : k ∉ keys m) : find m k = [] := by
  induction m with
  | nil => rfl
  | cons e rest ih =>
    simp only [keys,map_cons,mem_cons,not_or] at h
    simp only [find,if_neg (Ne.symm h.1)]
    exact ih h.2

theorem find_dropEmpty (k : κ) (h : (keys m).Nodup) : find (dropEmpty m) k = find m k := by
  induction m with
  | nil => rfl
  | cons e rest ih =>
    have hrest := nodup_cons.mp h
    have hstep := ih hrest.2
    by_cases he : e.2.isEmpty
    · simp only [dropEmpty,filter_cons,he,find]
      by_cases hk : e.1 = k
      · rw [if_pos hk,isEmpty_iff.mp he]
        exact hstep.trans (find_of_notMem (hk ▸ hrest.1))
      · rw [if_neg hk]
        exact hstep
    · simp only [dropEmpty,filter_cons,he,Bool.not_false,if_true,find]
      by_cases hk : e.1 = k
      · rw [if_pos hk,if_pos hk]
      · rw [if_neg hk,if_neg hk]
        exact hstep

theorem find_mem {e : κ × List α} (h : (keys m).Nodup) (hmem : e ∈ m) : find m e.1 = e.2 := by
  induction m with
  | nil => exact absurd hmem not_mem_nil
  | cons d rest ih =>
    have hrest := nodup_cons.mp h
    rcases mem_cons.mp hmem with rfl | hin
    · simp [find]
    have hne : d.1 ≠ e.1 := by
      intro he
      have hin' : e.1 ∈ keys rest := mem_map_of_mem hin
      exact hrest.1 (he ▸ hin')
    simp only [find,if_neg hne]
    exact ih hrest.2 hin

/-- Listing the entries of some keys under a tag and keeping those of one tag
gives the list of the one key with that tag. -/
theorem entries_of_tag {β τ : Type} [DecidableEq τ] (p : κ → Bool) (tag : κ → τ) (g : α → β)
    (k : κ) (h : (keys m).Nodup) (hp : p k) (htag : ∀ j, p j → tag j = tag k → j = k) :
    (((m.filter (fun e => p e.1)).flatMap (fun e => e.2.map (fun a => (tag e.1,g a)))).filter
      (fun x => x.1 = tag k)).map Prod.snd = (find m k).map g := by
  induction m with
  | nil => rfl
  | cons e rest ih =>
    have hrest := nodup_cons.mp h
    have hstep := ih hrest.2
    by_cases hk : e.1 = k
    · have hall : ((e.2.map (fun a => (tag e.1,g a))).filter (fun x => x.1 = tag k)).map Prod.snd =
          e.2.map g := by
        rw [filter_eq_self.mpr (by simp [hk])]
        simp
      have hpe : p e.1 := by rw [hk]; exact hp
      rw [find_of_notMem (hk ▸ hrest.1)] at hstep
      simp only [filter_cons,hpe,if_true,flatMap_cons,filter_append,
        map_append,hall,hstep,find,if_pos hk,map_nil,append_nil]
    simp only [find,if_neg hk,← hstep]
    by_cases hpe : p e.1
    · have hnone : (e.2.map (fun a => (tag e.1,g a))).filter (fun x => x.1 = tag k) = [] := by
        apply filter_eq_nil_iff.mpr
        intro x hx
        obtain ⟨a,_,rfl⟩ := mem_map.mp hx
        simp only [decide_eq_true_eq]
        exact fun ht => hk (htag e.1 hpe ht)
      simp only [filter_cons,hpe,if_true,flatMap_cons,filter_append,hnone,nil_append]
    · simp only [filter_cons,hpe,Bool.false_eq_true,if_false]

end
end Sentio.KeyedMap
