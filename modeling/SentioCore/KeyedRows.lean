import Mathlib.Tactic
import Mathlib.Data.List.Sort
import Mathlib.Data.List.Perm.Basic

/-!
# Lists of records with a key

A list of records is read in two ways: as a map, in which a key has one record,
and as a log, in which the record of a key is the last one written.
-/

namespace Sentio.KeyedRows
open List (filter_cons_of_neg filter_cons_of_pos map_cons mem_filter nodup_cons mem_cons
  mem_map_of_mem pairwise_cons)

section
variable {κ α : Type} [DecidableEq κ] (key : α → κ)

def lookup (m : List α) (k : κ) : Option α := m.find? (fun a => key a = k)

def erase (m : List α) (k : κ) : List α := m.filter (fun a => key a ≠ k)

def upsert (m : List α) (a : α) : List α := erase key m (key a)++[a]

def lastOf (l : List α) (k : κ) : Option α := (l.filter (fun a => key a = k)).getLast?

/-- The last record of each key, as repeated assignment to a map leaves them. -/
def collapse (l : List α) : List α := l.foldl (upsert key) []

variable {a : α} {m : List α} {k : κ}

theorem lookup_key (h : lookup key m k = some a) : key a = k := by
  simpa using List.find?_some h

theorem lookup_mem (h : lookup key m k = some a) : a ∈ m :=
  List.mem_of_find?_eq_some h

theorem lookup_append (m n : List α) :
    lookup key (m++n) k = (lookup key m k).or (lookup key n k) := by
  simp [lookup]

theorem lookup_erase (m : List α) (k j : κ) :
    lookup key (erase key m k) j = if j = k then none else lookup key m j := by
  induction m with
  | nil => simp [erase,lookup]
  | cons a rest ih =>
    by_cases hk : key a = k
    · have he : erase key (a::rest) k = erase key rest k := by simp [erase,hk]
      rw [he,ih]
      by_cases hj : j = k
      · simp [hj]
      · simp [hk,lookup,Ne.symm hj]
    have he : erase key (a::rest) k = a::erase key rest k := by simp [erase,hk]
    by_cases ha : key a = j
    · have hj : j ≠ k := fun h => hk (ha.trans h)
      simp [he,lookup,ha,hj]
    · have hc : ∀ m, lookup key (a::m) j = lookup key m j := fun m => by simp [lookup,ha]
      rw [he,hc,hc,ih]

theorem lookup_upsert (m : List α) (a : α) (k : κ) :
    lookup key (upsert key m a) k = if k = key a then some a else lookup key m k := by
  rw [upsert,lookup_append,lookup_erase]
  by_cases h : k = key a
  · simp [h,lookup]
  · simp [h,lookup,Ne.symm h]

theorem lookup_drop {p : κ → Bool} :
    lookup key (m.filter (fun a => !p (key a))) k = if p k then none else lookup key m k := by
  induction m with
  | nil => simp [lookup]
  | cons a rest ih =>
    have hc : key a ≠ k → ∀ m, lookup key (a::m) k = lookup key m k :=
      fun hne m => by simp [lookup,hne]
    by_cases hp : p (key a)
    · rw [filter_cons_of_neg (by simp [hp]),ih]
      by_cases hk : key a = k
      · simp [← hk,hp]
      · rw [hc hk]
    rw [filter_cons_of_pos (by simpa using hp)]
    by_cases hk : key a = k
    · simp [lookup,← hk,hp]
    · rw [hc hk,hc hk,ih]

theorem lookup_map (m : List α) {f : α → α} (hf : ∀ a, key (f a) = key a) (k : κ) :
    lookup key (m.map f) k = (lookup key m k).map f := by
  induction m with
  | nil => rfl
  | cons a rest ih =>
    by_cases h : key a = k
    · simp [lookup,hf,h]
    · simp only [lookup,map_cons,List.find?_cons,hf,h] at ih ⊢
      exact ih

theorem nodup_erase (h : (m.map key).Nodup) : ((erase key m k).map key).Nodup :=
  h.sublist (List.Sublist.map _ List.filter_sublist)

theorem nodup_upsert (a : α) (h : (m.map key).Nodup) : ((upsert key m a).map key).Nodup := by
  rw [upsert,List.map_append]
  apply List.Nodup.append (nodup_erase key h) (by simp)
  intro k hk hin
  simp only [map_cons,List.map_nil,List.mem_singleton] at hin
  obtain ⟨b,hb,hbk⟩ := List.mem_map.mp hk
  have hne : key b ≠ key a := by simpa using (mem_filter.mp hb).2
  exact hne (hbk.trans hin)

theorem mem_iff_lookup (h : (m.map key).Nodup) (a : α) : a ∈ m ↔ lookup key m (key a) = some a := by
  constructor
  · intro ha
    induction m with
    | nil => simp at ha
    | cons b rest ih =>
      rw [map_cons,nodup_cons] at h
      rcases mem_cons.mp ha with rfl | hr
      · simp [lookup]
      · have hne : key b ≠ key a := fun he => h.1 (he ▸ mem_map_of_mem hr)
        simpa [lookup,hne] using ih h.2 hr
  · exact lookup_mem key

variable {l : List α}

theorem lookup_perm (h : l.Perm m) (hn : (m.map key).Nodup) (k : κ) :
    lookup key l k = lookup key m k := by
  have hl : (l.map key).Nodup := (h.map key).nodup_iff.mpr hn
  apply Option.ext
  intro a
  constructor
  · intro ha
    obtain rfl := lookup_key key ha
    exact (mem_iff_lookup key hn a).mp (h.mem_iff.mp ((mem_iff_lookup key hl a).mpr ha))
  intro ha
  obtain rfl := lookup_key key ha
  exact (mem_iff_lookup key hl a).mp (h.mem_iff.mpr ((mem_iff_lookup key hn a).mpr ha))

theorem lastOf_append (l r : List α) (k : κ) :
    lastOf key (l++r) k = (lastOf key r k).or (lastOf key l k) := by
  simp [lastOf]

theorem lastOf_concat (l : List α) (a : α) (k : κ) :
    lastOf key (l++[a]) k = if k = key a then some a else lastOf key l k := by
  by_cases h : k = key a
  · simp [lastOf,h]
  · simp [lastOf,h,Ne.symm h]

theorem lastOf_key (h : lastOf key l k = some a) : key a = k := by
  simpa using (mem_filter.mp (List.mem_of_getLast? h)).2

theorem lastOf_mem (h : lastOf key l k = some a) : a ∈ l :=
  (mem_filter.mp (List.mem_of_getLast? h)).1

theorem lastOf_eq_none (l : List α) (k : κ) : lastOf key l k = none ↔ ∀ a ∈ l, key a ≠ k := by
  simp [lastOf]

theorem foldl_upsert_lookup (l m : List α) (k : κ) :
    lookup key (l.foldl (upsert key) m) k = (lastOf key l k).or (lookup key m k) := by
  induction l generalizing m with
  | nil => simp [lastOf]
  | cons a rest ih =>
    rw [List.foldl_cons,ih,lookup_upsert,← List.singleton_append,lastOf_append]
    by_cases h : k = key a
    · simp [h,lastOf]
    · simp [h,lastOf,Ne.symm h]

theorem foldl_upsert_nodup (m : List α) (h : (m.map key).Nodup) :
    ((l.foldl (upsert key) m).map key).Nodup := by
  induction l generalizing m with
  | nil => exact h
  | cons a rest ih => exact ih _ (nodup_upsert key a h)

theorem foldl_upsert_fresh (l m : List α) (hl : (l.map key).Nodup)
    (h : ∀ a ∈ l, ∀ b ∈ m, key a ≠ key b) : l.foldl (upsert key) m = m++l := by
  induction l generalizing m with
  | nil => simp
  | cons a rest ih =>
    have hk : ∀ b ∈ m, key b ≠ key a := fun b hb he => h a (by simp) b hb he.symm
    have hf : upsert key m a = m++[a] := by
      rw [upsert,erase,List.filter_eq_self.mpr (fun b hb => by simpa using hk b hb)]
    rw [map_cons,nodup_cons] at hl
    rw [List.foldl_cons,hf,ih _ hl.2,List.append_assoc,List.singleton_append]
    intro c hc b hb
    rcases List.mem_append.mp hb with hb | hb
    · exact h c (by simp [hc]) b hb
    rw [List.mem_singleton.mp hb]
    intro he
    exact hl.1 (he ▸ mem_map_of_mem hc)

theorem lookup_collapse (l : List α) (k : κ) : lookup key (collapse key l) k = lastOf key l k := by
  rw [collapse,foldl_upsert_lookup]
  simp [lookup]

theorem nodup_collapse (l : List α) : ((collapse key l).map key).Nodup :=
  foldl_upsert_nodup key [] (by simp)

/-- A relation between the records of one key is a relation along each key's records. -/
theorem pairwise_iff_filter {r : α → α → Prop} (l : List α) :
    l.Pairwise (fun a b => key a = key b → r a b) ↔
      ∀ k, (l.filter (fun a => key a = k)).Pairwise r := by
  constructor
  · intro h k
    have hf := h.filter (fun a => decide (key a = k))
    apply hf.imp_of_mem
    intro a b ha hb hr
    have hka := (mem_filter.mp ha).2
    have hkb := (mem_filter.mp hb).2
    exact hr ((of_decide_eq_true hka).trans (of_decide_eq_true hkb).symm)
  intro h
  induction l with
  | nil => exact List.Pairwise.nil
  | cons a rest ih =>
    constructor
    · intro b hb hkey
      have hk := h (key a)
      rw [filter_cons_of_pos (by simp),pairwise_cons] at hk
      exact hk.1 b (mem_filter.mpr ⟨hb,by simp [hkey]⟩)
    apply ih
    intro k
    by_cases hak : key a = k
    · have hk := h k
      rw [filter_cons_of_pos (by simp [hak]),pairwise_cons] at hk
      exact hk.2
    · simpa [hak] using h k

/-- A record after which its key does not occur again is the last one of its key. -/
theorem lastOf_of_unrepeated {good : α → Prop}
    (h : l.Pairwise (fun a b => key a = key b → ¬ good a)) (ha : a ∈ l) (hg : good a) :
    lastOf key l (key a) = some a := by
  induction l with
  | nil => simp at ha
  | cons b rest ih =>
    rw [pairwise_cons] at h
    rw [← List.singleton_append,lastOf_append]
    rcases mem_cons.mp ha with rfl | hr
    · have hnone : lastOf key rest (key a) = none :=
        (lastOf_eq_none key rest (key a)).mpr (fun c hc he => h.1 c hc he.symm hg)
      rw [hnone]
      simp [lastOf]
    · simp [ih h.2 hr]

theorem lastOf_eq_lookup (h : (m.map key).Nodup) (k : κ) : lastOf key m k = lookup key m k := by
  have hpair : m.Pairwise (fun a b => key a = key b → ¬ True) := by
    simpa using List.pairwise_map.mp h
  apply Option.ext
  intro a
  constructor
  · intro ha
    rw [← lastOf_key key ha]
    exact (mem_iff_lookup key h a).mp (lastOf_mem key ha)
  intro ha
  rw [← lookup_key key ha]
  exact lastOf_of_unrepeated key hpair (lookup_mem key ha) trivial

/-- Grouping by key keeps each key's records in their order. -/
theorem filter_flatMap {keys : List κ} {f : κ → List α} (hnd : keys.Nodup)
    (hf : ∀ k, ∀ a ∈ f k, key a = k) (k : κ) :
    (keys.flatMap f).filter (fun a => key a = k) = if k ∈ keys then f k else [] := by
  induction keys with
  | nil => simp
  | cons j rest ih =>
    rw [nodup_cons] at hnd
    rw [List.flatMap_cons,List.filter_append,ih hnd.2]
    by_cases hjk : j = k
    · have hall : (f j).filter (fun a => key a = k) = f j :=
        List.filter_eq_self.mpr (fun a ha => by simp [hf j a ha,hjk])
      have hnot : k ∉ rest := hjk ▸ hnd.1
      rw [hall,if_neg hnot,hjk]
      simp
    · have hnone : (f j).filter (fun a => key a = k) = [] :=
        List.filter_eq_nil_iff.mpr (fun a ha => by simp [hf j a ha,hjk])
      simp [hnone,Ne.symm hjk]

end

section
variable {κ α : Type} [LinearOrder κ] (key : α → κ)

/-- There is one way to write down a set of records with distinct keys in key order. -/
theorem sorted_unique (l r : List α) (hl : l.Pairwise (fun a b => key a ≤ key b))
    (hr : r.Pairwise (fun a b => key a ≤ key b)) (hlk : (l.map key).Nodup)
    (hrk : (r.map key).Nodup) (h : ∀ a, a ∈ l ↔ a ∈ r) : l = r := by
  have hperm : l.Perm r :=
    (List.perm_ext_iff_of_nodup (List.Nodup.of_map key hlk) (List.Nodup.of_map key hrk)).mpr h
  apply List.Perm.eq_of_pairwise _ hl hr hperm
  intro a b ha hb hab hba
  exact List.inj_on_of_nodup_map hrk ((h a).mp ha) hb (le_antisymm hab hba)

theorem sort_pairwise (l : List α) :
    (l.insertionSort (fun a b => key a ≤ key b)).Pairwise (fun a b => key a ≤ key b) := by
  exact List.pairwise_insertionSort _ l

end

variable {α κ : Type} {l : List α}

theorem map_set_key (key : α → κ) {i : ℕ} {a : α} (b : α)
    (h : l[i]? = some a) (hk : key b = key a) : (l.set i b).map key = l.map key := by
  obtain ⟨hi,rfl⟩ := List.getElem?_eq_some_iff.mp h
  rw [List.map_set,hk,← List.getElem_map key (h := by simpa using hi),List.set_getElem_self]

theorem mem_set_key (key : α → κ) (l : List α) (i : ℕ) (a b c : α) (hn : (l.map key).Nodup)
    (h : l[i]? = some a) (hc : c ∈ l.set i b) : c = b ∨ c ∈ l ∧ key c ≠ key a := by
  induction l generalizing i with
  | nil => simp at h
  | cons d rest ih =>
    rw [map_cons,nodup_cons] at hn
    cases i with
    | zero =>
      obtain rfl : d = a := by simpa using h
      rcases mem_cons.mp hc with rfl | hc
      · exact .inl rfl
      · exact .inr ⟨List.mem_cons_of_mem _ hc,fun he => hn.1 (he ▸ mem_map_of_mem hc)⟩
    | succ i =>
      have hi : rest[i]? = some a := by simpa using h
      rcases mem_cons.mp hc with rfl | hc
      · have ha : a ∈ rest := List.mem_of_getElem? hi
        exact .inr ⟨List.mem_cons_self,fun he => hn.1 (he ▸ mem_map_of_mem ha)⟩
      rcases ih i hn.2 hi hc with rfl | ⟨hm,hne⟩
      · exact .inl rfl
      · exact .inr ⟨List.mem_cons_of_mem _ hm,hne⟩

theorem nodup_map {key : α → κ} {m : List α} {f : α → α}
    (hf : ∀ a, key (f a) = key a) (h : (m.map key).Nodup) : ((m.map f).map key).Nodup := by
  have hkeys : key ∘ f = key := funext hf
  rwa [List.map_map,hkeys]

/-- The records in another order, given by their positions. -/
def reorder {α : Type} (order : List ℕ) (l : List α) : List α := order.filterMap (fun i => l[i]?)

theorem reorder_perm {order : List ℕ}
    (h : order.Perm (List.range l.length)) : (reorder order l).Perm l := by
  have hall : (List.range l.length).filterMap (fun i => l[i]?) = l := by
    clear h
    induction l with
    | nil => rfl
    | cons a rest ih =>
      simpa [List.range_succ_eq_map] using ih
  have hp := h.filterMap (fun i => l[i]?)
  rwa [hall] at hp

theorem filter_erase [DecidableEq α] {p : α → Bool} {a : α} :
    (l.erase a).filter p = (l.filter p).erase a := by
  induction l with
  | nil => rfl
  | cons b rest ih =>
    by_cases hb : b = a
    · by_cases hp : p b
      · simp [hb,hb ▸ hp]
      · have hn : a ∉ rest.filter p := fun hm => hp (hb ▸ (mem_filter.mp hm).2)
        rw [filter_cons_of_neg hp,hb,List.erase_cons_head,List.erase_of_not_mem hn]
    rw [List.erase_cons_tail (by simpa using hb)]
    by_cases hp : p b
    · rw [filter_cons_of_pos hp,filter_cons_of_pos hp,ih,List.erase_cons_tail (by simpa using hb)]
    · rw [filter_cons_of_neg hp,filter_cons_of_neg hp,ih]

/-- A condition that is lost for good along a list selects a first part of it. -/
theorem getElem?_filter_of_closed {p : α → Bool} (h : l.Pairwise (fun a b => p b → p a)) (i : ℕ) :
    (l.filter p)[i]? = l[i]?.filter p := by
  induction l generalizing i with
  | nil => rfl
  | cons a rest ih =>
    rw [pairwise_cons] at h
    by_cases hp : p a
    · rw [filter_cons_of_pos hp]
      cases i with
      | zero => simp [Option.filter,hp]
      | succ i => simpa using ih h.2 i
    have hnone : ∀ b ∈ rest, ¬p b := fun b hb hpb => hp (h.1 b hb hpb)
    rw [filter_cons_of_neg hp,List.filter_eq_nil_iff.mpr hnone]
    rcases i with _ | i
    · simp [Option.filter,hp]
    rw [List.getElem?_cons_succ]
    cases hi : rest[i]? with
    | none => rfl
    | some b => simp [Option.filter,hnone b (List.mem_of_getElem? hi)]

theorem sum_filter_split (p : α → Bool) (f : α → ℤ) (l : List α) :
    ((l.filter (fun a => !p a)).map f).sum = (l.map f).sum-((l.filter p).map f).sum := by
  induction l with
  | nil => rfl
  | cons a rest ih =>
    cases hp : p a with
    | true => simp [hp,ih]
    | false =>
      simp only [List.filter_cons,hp,Bool.not_false,if_true,Bool.false_eq_true,if_false,
        map_cons,List.sum_cons]
      omega

theorem filter_eq_singleton (p : α → Bool) (l : List α) (a : α) (ha : a ∈ l) (hp : p a)
    (h : l.Pairwise (fun x y => ¬(p x ∧ p y))) : l.filter p = [a] := by
  induction l with
  | nil => cases ha
  | cons b rest ih =>
    rw [pairwise_cons] at h
    rcases mem_cons.mp ha with rfl | ha
    · rw [filter_cons_of_pos hp,List.filter_eq_nil_iff.mpr (fun c hc hpc => h.1 c hc ⟨hp,hpc⟩)]
    · rw [filter_cons_of_neg (fun hb => h.1 a ha ⟨hb,hp⟩),ih ha h.2]

end Sentio.KeyedRows
