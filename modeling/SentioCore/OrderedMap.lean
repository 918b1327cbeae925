import Mathlib.Tactic
import Mathlib.Data.List.Lex

/-!
# Finite maps as sorted lists

A map is listed by ascending keys, so that two maps with the same entries are
equal. Writing distinct keys commutes.
-/

namespace Sentio.OrderedMap
open List Prod

section
variable {κ V : Type} [LinearOrder κ]

def put (k : κ) (v : V) : List (κ × V) → List (κ × V)
  | [] => [(k,v)]
  | e::rest =>
    if k < e.1 then (k,v)::e::rest
    else if k = e.1 then (k,v)::rest
    else e::put k v rest

variable (m : List (κ × V))

def find (k : κ) : Option V := m.lookup k

def has (k : κ) : Bool := (find m k).isSome

def putAll (m entries : List (κ × V)) : List (κ × V) :=
  entries.foldl (fun m e => put e.1 e.2 m) m

def Sorted : Prop := m.Pairwise (fun a b => a.1 < b.1)

theorem find_cons {e : κ × V} {rest : List (κ × V)} {k : κ} :
    find (e::rest) k = if k = e.1 then some e.2 else find rest k := by
  rw [find,lookup_cons]
  by_cases h : k = e.1
  · simp [h]
  · rw [if_neg h,beq_false_of_ne h]
    rfl

theorem find_put (k j : κ) (v : V) :
    find (put k v m) j = if j = k then some v else find m j := by
  induction m with
  | nil => simp [put,find_cons]
  | cons e rest ih =>
    rw [put]
    split
    · rw [find_cons]
    split
    · rename_i h
      by_cases hj : j = k
      · simp [find_cons,hj]
      · have hje : j ≠ e.1 := fun hje => hj (hje.trans h.symm)
        simp [find_cons,hje]
    rename_i hne
    by_cases hj : j = e.1
    · have hjk : j ≠ k := fun hjk => hne (hjk.symm.trans hj)
      rw [find_cons,find_cons,if_pos hj,if_neg hjk,if_pos hj]
    · rw [find_cons,find_cons,if_neg hj,if_neg hj,ih]

theorem has_put {m : List (κ × V)} {k j : κ} {v : V} : has (put k v m) j ↔ j = k ∨ has m j := by
  rw [has,find_put]
  by_cases h : j = k
  · simp [h]
  · simp [h,has]

theorem has_put_other (k j : κ) (v : V) (h : j ≠ k) :
    has (put k v m) j = has m j := by
  rw [has,find_put,if_neg h,has]

variable {k : κ}

theorem put_comm {j : κ} (v w : V) (h : j ≠ k) :
    put j v (put k w m) = put k w (put j v m) := by
  induction m with
  | nil =>
    rcases lt_or_gt_of_ne h with hlt | hlt
    · simp [put,hlt,hlt.ne',not_lt_of_gt hlt]
    · simp [put,hlt,hlt.ne',not_lt_of_gt hlt]
  | cons e rest ih =>
    all_goals
      grind [put]

theorem putAll_perm {m l r : List (κ × V)} (h : l.Perm r) (hn : (l.map fst).Nodup) :
    putAll m l = putAll m r := by
  apply h.foldl_eq'
  intro x hx y hy z
  by_cases hk : x.1 = y.1
  · rw [inj_on_of_nodup_map hn hx hy hk]
  · exact put_comm z y.2 x.2 (Ne.symm hk)

variable {v : V} {m : List (κ × V)} {e : κ × V}

theorem mem_put (h : e ∈ put k v m) : e = (k,v) ∨ e ∈ m := by
  induction m with
  | nil => exact .inl (mem_singleton.mp h)
  | cons a rest ih =>
    rw [put] at h
    split at h
    · exact mem_cons.mp h
    split at h
    · rcases mem_cons.mp h with h | h
      · exact .inl h
      · exact .inr (mem_cons_of_mem a h)
    rcases mem_cons.mp h with h | h
    · exact .inr (h ▸ mem_cons_self)
    · exact (ih h).imp_right (mem_cons_of_mem a)

theorem put_sorted (h : Sorted m) : Sorted (put k v m) := by
  induction m with
  | nil => exact pairwise_singleton _ _
  | cons e rest ih =>
    obtain ⟨hhead,hrest⟩ := pairwise_cons.mp h
    rw [put]
    split
    · rename_i hk
      refine pairwise_cons.mpr ⟨fun a ha => ?_,h⟩
      rcases mem_cons.mp ha with rfl | ha
      · exact hk
      · exact hk.trans (hhead a ha)
    split
    · rename_i hk
      exact pairwise_cons.mpr ⟨fun a ha => hk ▸ hhead a ha,hrest⟩
    rename_i hlt hne
    refine pairwise_cons.mpr ⟨fun a ha => ?_,ih hrest⟩
    rcases mem_put ha with rfl | ha
    · exact lt_of_le_of_ne (not_lt.mp hlt) (Ne.symm hne)
    · exact hhead a ha

theorem sorted_nodup (h : Sorted m) : (m.map fst).Nodup :=
  pairwise_map.mpr (h.imp ne_of_lt)

theorem sorted_unique (l r : List (κ × V)) (hl : Sorted l) (hr : Sorted r) (h : l.Perm r) : l = r :=
  h.eq_of_pairwise (fun _ _ _ _ hab hba => absurd hab (not_lt_of_gt hba)) hl hr

theorem mem_of_find (h : find m k = some v) : (k,v) ∈ m := by
  induction m with
  | nil => cases h
  | cons a rest ih =>
    rw [find_cons] at h
    split at h
    · rename_i hk
      cases h
      rw [hk]
      exact mem_cons_self
    · exact mem_cons_of_mem a (ih h)

theorem has_putAll (m entries : List (κ × V)) (k : κ) :
    has (putAll m entries) k ↔ k ∈ entries.map fst ∨ has m k := by
  induction entries generalizing m with
  | nil => simp [putAll]
  | cons a rest ih =>
    change has (putAll (put a.1 a.2 m) rest) k ↔ _
    rw [ih,has_put,map_cons,mem_cons]
    tauto

variable {entries : List (κ × V)}

theorem find_putAll_other (m : List (κ × V)) (h : k ∉ entries.map fst) :
    find (putAll m entries) k = find m k := by
  induction entries generalizing m with
  | nil => rfl
  | cons a rest ih =>
    rw [map_cons,mem_cons,not_or] at h
    change find (putAll (put a.1 a.2 m) rest) k = _
    rw [ih _ h.2,find_put,if_neg h.1]

theorem find_putAll_of_mem (m : List (κ × V)) (hn : (entries.map fst).Nodup)
    (h : e ∈ entries) : find (putAll m entries) e.1 = some e.2 := by
  induction entries generalizing m with
  | nil => exact absurd h not_mem_nil
  | cons a rest ih =>
    obtain ⟨hnot,hrest⟩ := nodup_cons.mp hn
    change find (putAll (put a.1 a.2 m) rest) e.1 = _
    rcases mem_cons.mp h with rfl | h
    · rw [find_putAll_other _ hnot,find_put,if_pos rfl]
    · exact ih _ hrest h

theorem putAll_append (m l r : List (κ × V)) : putAll m (l++r) = putAll (putAll m l) r :=
  foldl_append

end

theorem filterMap_nodup {α β ι κ : Type} {key : α → ι} {out : β → κ} {f : α → Option β}
    {l : List α} (hn : (l.map key).Nodup)
    (h : ∀ x ∈ l, ∀ y ∈ l, ∀ a b, f x = some a → f y = some b → key x ≠ key y → out a ≠ out b) :
    ((l.filterMap f).map out).Nodup := by
  apply pairwise_map.mpr
  apply pairwise_filterMap.mpr
  refine (pairwise_map.mp hn).imp_of_mem ?_
  intro x y hx hy hne a ha b hb
  exact h x hx y hy a b ha hb hne

theorem filterMap_cons_toList {α β : Type} (f : α → Option β) (a : α) (l : List α) :
    (a::l).filterMap f = (f a).toList++l.filterMap f := by
  cases h : f a <;> simp [h]

section
variable {σ α ε : Type}

theorem toOption_bind {β : Type} (x : Except ε α) (f : α → Except ε β) :
    (x >>= f).toOption = x.toOption.bind (fun a => (f a).toOption) := by
  cases x <;> rfl

def attempts (step : σ → α → Option σ) (l : List α) (s : Option σ) : Option σ :=
  l.foldl (fun o a => o.bind (fun t => step t a)) s

variable {step : σ → α → Option σ} {l : List α}

theorem attempts_none : attempts step l none = none := by
  induction l with
  | nil => rfl
  | cons a rest ih => exact ih

theorem attempts_cons {a : α} {s : σ} :
    attempts step (a::l) (some s) = attempts step l (step s a) := rfl

theorem foldlM_toOption (step : σ → α → Except ε σ) (l : List α) (s : σ) :
    (l.foldlM step s).toOption = attempts (fun t a => (step t a).toOption) l (some s) := by
  induction l generalizing s with
  | nil => rfl
  | cons a rest ih =>
    rw [foldlM_cons,attempts_cons]
    cases hstep : step s a with
    | error e =>
      change none = attempts _ rest none
      rw [attempts_none]
    | ok t => exact ih t

theorem attempts_perm {r : List α} (h : l.Perm r) (hswap : ∀ x ∈ l, ∀ y ∈ l, ∀ s,
      (step s x).bind (fun t => step t y) = (step s y).bind (fun t => step t x))
    (s : Option σ) : attempts step l s = attempts step r s := by
  apply h.foldl_eq'
  intro x hx y hy z
  cases z with
  | none => rfl
  | some t => exact hswap x hx y hy t

theorem attempts_congr (step' : σ → α → Option σ) (l : List α)
    (h : ∀ x ∈ l, ∀ s, step s x = step' s x) (s : Option σ) :
    attempts step l s = attempts step' l s := by
  induction l generalizing s with
  | nil => rfl
  | cons a rest ih =>
    have hrest := ih (fun x hx => h x (mem_cons_of_mem a hx))
    cases s with
    | none => exact hrest none
    | some t =>
      rw [attempts_cons,h a mem_cons_self t]
      exact hrest _

end

end Sentio.OrderedMap
