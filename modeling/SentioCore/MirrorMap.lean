import Mathlib.Data.List.AList
import Mathlib.Data.Finset.Basic
import Mathlib.Tactic

/-!
# Maps that are mirrored by differences

A mirror is a map that is never read back by its writer: it only receives
differences, entries to add or overwrite and keys to delete. What a reader makes
of an entry is a view, which may take an empty entry for an absent one.
-/

namespace Sentio.MirrorMap
open List Option

abbrev Map (κ V : Type) : Type := AList (fun _ : κ => V)

section
variable {κ V W : Type} [DecidableEq κ]

structure Diff (κ V : Type) where
  added : Map κ V
  deleted : List κ

/-- Deletions come first, so a key that is deleted and added stays. -/
def apply (m : Map κ V) (d : Diff κ V) : Map κ V :=
  d.added ∪ d.deleted.foldl (fun m k => m.erase k) m

theorem dlookup_cons_if {j k : κ} {v : V} {rest : List (Sigma (fun _ : κ => V))} :
    List.dlookup k (⟨j,v⟩::rest) = if k = j then some v else List.dlookup k rest := by
  by_cases h : k = j
  · subst h
    rw [dlookup_cons_eq,if_pos rfl]
  · rw [dlookup_cons_ne (β := fun _ => V) rest ⟨j,v⟩ h,if_neg h]

theorem lookup_erase_if (m : Map κ V) (k j : κ) :
    (m.erase k).lookup j = if j = k then none else m.lookup j := by
  by_cases h : j = k
  · subst h
    simp
  · simp [h]

theorem lookup_insert_if (m : Map κ V) (k j : κ) (v : V) :
    (m.insert k v).lookup j = if j = k then some v else m.lookup j := by
  by_cases h : j = k
  · subst h
    simp
  · simp [h]

theorem lookup_eraseAll {keys : List κ} {m : Map κ V} {j : κ} :
    (keys.foldl (fun m k => m.erase k) m).lookup j = if j ∈ keys then none else m.lookup j := by
  induction keys generalizing m with
  | nil => simp
  | cons k rest ih =>
    rw [foldl_cons,ih,lookup_erase_if]
    by_cases hr : j ∈ rest <;> by_cases hk : j = k <;> simp [hr]

theorem lookup_apply {m : Map κ V} {d : Diff κ V} {k : κ} : (apply m d).lookup k =
      (d.added.lookup k).or (if k ∈ d.deleted then none else m.lookup k) := by
  rw [apply,← lookup_eraseAll]
  by_cases h : k ∈ d.added
  · obtain ⟨v,hv⟩ := isSome_iff_exists.mp (AList.lookup_isSome.mpr h)
    simp [hv]
  · rw [AList.lookup_union_right h,AList.lookup_eq_none.mpr h,none_or]

/-- A pipeline that breaks off: the deletions run before the additions. -/
def applyPart (ran : ℕ) (m : Map κ V) (d : Diff κ V) : Map κ V :=
  match ran with
  | 0 => m
  | 1 => apply m ⟨∅,d.deleted⟩
  | _+2 => apply m d

def syncDiff (k : κ) (entry : Option V) : Diff κ V :=
  match entry with
  | some v => ⟨AList.singleton k v,[]⟩
  | none => ⟨∅,[k]⟩

def syncKey (m : Map κ V) (k : κ) (entry : Option V) : Map κ V := apply m (syncDiff k entry)

theorem lookup_singleton_if {k j : κ} {v : V} :
    (AList.singleton k v : Map κ V).lookup j = if j = k then some v else none := by
  by_cases h : j = k
  · subst h
    simp [AList.lookup]
  · rw [if_neg h,AList.lookup_eq_none]
    simpa [AList.mem_keys] using h

theorem lookup_syncKey (m : Map κ V) (k j : κ) (entry : Option V) :
    (syncKey m k entry).lookup j = if j = k then entry else m.lookup j := by
  rw [syncKey,lookup_apply]
  cases entry with
  | none => by_cases h : j = k <;> simp [syncDiff]
  | some v =>
    rw [syncDiff,lookup_singleton_if]
    by_cases h : j = k <;> simp [h]

def diff (old new : Map κ V) : Diff κ V := ⟨new,old.keys.filter (fun k => k ∉ new.keys)⟩

section
variable {m old new : Map κ V} {k : κ}

theorem lookup_apply_diff : (apply m (diff old new)).lookup k =
    if k ∈ new then new.lookup k else if k ∈ old then none else m.lookup k := by
  rw [lookup_apply,diff]
  by_cases hn : k ∈ new
  · obtain ⟨v,hv⟩ := isSome_iff_exists.mp (AList.lookup_isSome.mpr hn)
    simp [hn,hv]
  rw [AList.lookup_eq_none.mpr hn]
  by_cases ho : k ∈ old <;> simp [← AList.mem_keys,hn]

theorem mem_applyPart (ran : ℕ) (h : k ∉ old) :
    k ∈ applyPart ran m (diff old new) ↔ k ∈ m ∨ 1 < ran ∧ k ∈ new := by
  rw [← AList.lookup_isSome]
  match ran with
  | 0 => simp [applyPart,AList.lookup_isSome]
  | 1 => simp [applyPart,lookup_apply,diff,← AList.mem_keys,h,AList.lookup_isSome]
  | n+2 =>
    rw [applyPart,lookup_apply_diff]
    by_cases hn : k ∈ new <;> simp [hn,h,AList.lookup_isSome]

/-- A difference makes the new map exactly if it reaches every key. -/
theorem apply_diff_iff :
    (∀ k, (apply m (diff old new)).lookup k = new.lookup k) ↔ ∀ k ∈ m, k ∈ old ∨ k ∈ new := by
  refine forall_congr' fun k => ?_
  rw [lookup_apply_diff]
  by_cases hn : k ∈ new
  · simp [hn]
  rw [AList.lookup_eq_none.mpr hn]
  by_cases ho : k ∈ old
  · simp [ho]
  · simpa [hn,ho] using AList.lookup_eq_none

end

def filterMapValues (f : κ → V → Option W) (m : Map κ V) : Map κ W where
  entries := m.entries.filterMap (fun e => (f e.1 e.2).map (fun w => ⟨e.1,w⟩))
  nodupKeys := by
    have hsub : (m.entries.filterMap (fun e => (f e.1 e.2).map (fun w => (⟨e.1,w⟩ : Sigma
        (fun _ : κ => W))))).keys.Sublist m.entries.keys := by
      induction m.entries with
      | nil => simp
      | cons e rest ih =>
        cases hf : f e.1 e.2 with
        | none =>
          rw [List.filterMap_cons,hf]
          exact ih.trans (List.sublist_cons_self _ _)
        | some w =>
          rw [List.filterMap_cons,hf]
          exact ih.cons_cons _
    exact List.Nodup.sublist hsub m.nodupKeys

theorem lookup_filterMapValues (f : κ → V → Option W) (m : Map κ V) (k : κ) :
    (filterMapValues f m).lookup k = (m.lookup k).bind (f k) := by
  obtain ⟨entries,hnd⟩ := m
  change List.dlookup (β := fun _ => W) k (entries.filterMap _) =
    (List.dlookup k entries).bind (f k)
  induction entries with
  | nil => rfl
  | cons e rest ih =>
    obtain ⟨j,v⟩ := e
    obtain ⟨hj,hrest⟩ := nodupKeys_cons.mp hnd
    have htail := ih hrest
    by_cases hk : k = j
    · subst hk
      have habsent : List.dlookup k rest = none := dlookup_eq_none.mpr hj
      rw [habsent] at htail
      cases hf : f k v with
      | none => simpa [hf] using htail
      | some w => simp [hf]
    rw [dlookup_cons_if,if_neg hk]
    cases hf : f j v with
    | none => simpa [hf] using htail
    | some w =>
      rw [filterMap_cons,hf,map_some]
      rw [dlookup_cons_if,if_neg hk]
      exact htail

section
variable {R : Type} (view : Option V → R)

/-- A reader sees in the mirror what the source projects. -/
def Mirrors (m : Map κ V) (p : κ → Option V) : Prop := ∀ k, view (m.lookup k) = view (p k)

theorem mirrors_syncKey {m : Map κ V} {p : κ → Option V} (q : κ → Option V) (k : κ) (entry : Option V)
    (h : Mirrors view m p) (hk : view entry = view (q k)) (hq : ∀ j, j ≠ k → q j = p j) :
    Mirrors view (syncKey m k entry) q := by
  intro j
  rw [lookup_syncKey]
  by_cases hj : j = k
  · rw [if_pos hj,hj]
    exact hk
  · rw [if_neg hj,hq j hj]
    exact h j

theorem mirrors_apply_diff {m : Map κ V} {p : κ → Option V} (q : κ → Option V) (old new : Map κ V)
    (h : Mirrors view m p) (hold : ∀ k, k ∉ old → view (p k) = view none) :
    Mirrors view (apply m (diff old new)) q ↔ ∀ k, view (new.lookup k) = view (q k) := by
  have heq : ∀ k, view ((apply m (diff old new)).lookup k) = view (new.lookup k) := by
    intro k
    rw [lookup_apply_diff]
    split
    · rfl
    rename_i hn
    rw [AList.lookup_eq_none.mpr hn]
    split
    · rfl
    rename_i ho
    rw [h k,hold k ho]
  constructor
  · intro hm k
    rw [← heq,hm]
  · intro hq k
    rw [heq,hq]

/-- Entries that are only added leave what else was there. -/
theorem mirrors_add_iff (m : Map κ V) (q : κ → Option V) (new : Map κ V)
    (habsent : ∀ k, k ∉ new → view (q k) = view none) :
    Mirrors view (apply m ⟨new,[]⟩) q ↔
      (∀ k ∈ new, view (new.lookup k) = view (q k)) ∧
      ∀ k, k ∉ new → view (m.lookup k) = view none := by
  have hin : ∀ k ∈ new, (apply m ⟨new,[]⟩).lookup k = new.lookup k := by
    intro k hk
    obtain ⟨v,hv⟩ := isSome_iff_exists.mp (AList.lookup_isSome.mpr hk)
    simp [lookup_apply,hv]
  have hout : ∀ k, k ∉ new → (apply m ⟨new,[]⟩).lookup k = m.lookup k := by
    intro k hk
    simp [lookup_apply,AList.lookup_eq_none.mpr hk]
  constructor
  · intro h
    refine ⟨fun k hk => ?_,fun k hk => ?_⟩
    · rw [← hin k hk,h k]
    · rw [← hout k hk,h k,habsent k hk]
  rintro ⟨hshown,hstale⟩ k
  by_cases hk : k ∈ new
  · rw [hin k hk,hshown k hk]
  · rw [hout k hk,hstale k hk,habsent k hk]

end
end

def mapKeys {κ ι V : Type} (f : κ → ι) (hf : Function.Injective f) (m : Map κ V) : Map ι V where
  entries := m.entries.map (fun e => ⟨f e.1,e.2⟩)
  nodupKeys := by
    have hkeys : (m.entries.map (fun e => (⟨f e.1,e.2⟩ : Sigma (fun _ : ι => V)))).keys =
        m.entries.keys.map f := by
      simp [List.keys,Function.comp_def]
    rw [List.NodupKeys,hkeys]
    exact List.Nodup.map hf m.nodupKeys

theorem lookup_mapKeys {κ ι V : Type} [DecidableEq κ] [DecidableEq ι] {f : κ → ι} (hf : Function.Injective f)
    (m : Map κ V) (k : κ) : (mapKeys f hf m).lookup (f k) = m.lookup k := by
  obtain ⟨entries,hnd⟩ := m
  change List.dlookup (β := fun _ => V) (f k) (entries.map _) = List.dlookup k entries
  clear hnd
  induction entries with
  | nil => rfl
  | cons e rest ih =>
    obtain ⟨j,v⟩ := e
    by_cases hk : k = j
    · subst hk
      simp
    have hfk : f k ≠ f j := fun h => hk (hf h)
    rw [map_cons,dlookup_cons_if,dlookup_cons_if,if_neg hk,if_neg hfk]
    exact ih

theorem lookup_mapKeys_outside {κ ι V : Type} [DecidableEq ι] {f : κ → ι} (hf : Function.Injective f)
    {m : Map κ V} {j : ι} (h : ∀ k, f k ≠ j) : (mapKeys f hf m).lookup j = none := by
  rw [AList.lookup_eq_none]
  intro hmem
  obtain ⟨e,he,rfl⟩ := mem_map.mp hmem
  obtain ⟨a,-,rfl⟩ := mem_map.mp he
  exact h a.1 rfl

end Sentio.MirrorMap
