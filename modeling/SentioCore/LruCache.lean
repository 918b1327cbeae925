import SentioCore.KeyedRows

/-!
# Loading a missing key into a full cache

`getOrLoad` puts an entry without access time into the map and evicts before the load runs.
-/

namespace Sentio.LruCache

open KeyedRows

inductive Policy where
  | lru
  | lfu
  | tinyLFU
deriving DecidableEq

/-- An entry that was never loaded has the zero time as its expiry. -/
structure Entry (T : Type) where
  key : String
  value : Option T := none
  expireTime : Option ℤ := none
  lastAccess : ℕ := 0
  accessCount : ℕ := 0
  loading : Bool := false
  loadErr : Option String := none

structure Item (T : Type) where
  key : String
  ttl : ℤ
  reload : Except String T

structure Cache (T : Type) where
  maxSize : ℕ
  policy : Policy
  entries : List (Entry T) := []

variable {T : Type} (c : Cache T) (item : Item T) (order : List (Entry T)) (now done : ℕ)
  (e : Entry T)

def isExpired : Bool := e.expireTime.all (fun t => t < (now : ℤ))

def touch : Entry T :=
  { e with lastAccess := now, accessCount := e.accessCount+1 }

def lower (score : Entry T → ℕ) (v : String × ℕ) (e : Entry T) : String × ℕ :=
  if score e < v.2 then (e.key,score e) else v

/-- The victim of a walk over the map in the order `order`. -/
def victim (policy : Policy) : String × ℕ :=
  match policy with
  | .lfu => order.foldl (lower Entry.accessCount) ("",2^63-1)
  | _ => order.foldl (lower Entry.lastAccess) ("",now)

def evictOldest : Cache T :=
  let key := (victim order now c.policy).1
  if key ≠ "" then { c with entries := erase Entry.key c.entries key } else c

def loaded : Entry T :=
  match item.reload with
  | .error err => { e with loading := false, loadErr := some err }
  | .ok v =>
    { e with
      value := some v, expireTime := some (done+item.ttl), lastAccess := done
      accessCount := 1, loading := false, loadErr := none }

/-- An entry that has left the map is written where nobody finds it. -/
def performLoad : Cache T :=
  if (lookup Entry.key c.entries e.key).isSome then
    { c with entries := upsert Entry.key c.entries (loaded item done e) }
  else c

def placeholder (key : String) : Entry T := { key := key, loading := true }

def create (key : String) : Cache T :=
  let entries := upsert Entry.key c.entries (placeholder key)
  if 0 < c.maxSize ∧ c.maxSize < entries.length then
    evictOldest { c with entries := entries } order now
  else { c with entries := entries }

/-- The call waits, without an answer, while another one loads the entry. -/
def getOrLoad : Option (Cache T × Except String (Option T)) :=
  match lookup Entry.key c.entries item.key with
  | some e =>
    if e.loading then none
    else match e.loadErr with
      | some err => some (c,.error err)
      | none =>
        if !isExpired now e then
          some ({ c with entries := upsert Entry.key c.entries (touch now e) },.ok e.value)
        else some (performLoad c item done e,item.reload.map some)
  | none =>
    some (performLoad (create c order now item.key) item done (placeholder item.key),
      item.reload.map some)

def get : Option (Cache T × Except String (Option T)) :=
  match (lookup Entry.key c.entries item.key).filter (fun e => !isExpired now e) with
  | some e => some ({ c with entries := upsert Entry.key c.entries (touch now e) },.ok e.value)
  | none => getOrLoad c item order now done

variable {l : List (Entry T)} {e z : Entry T} {key k : String}

def Present (l : List (Entry T)) (key : String) : Prop := (lookup Entry.key l key).isSome

/-- One least recently accessed entry has given its place to the loaded key. -/
def EvictsLeastRecent (before after : List (Entry T)) (key : String) : Prop :=
  ∃ v ∈ before, (∀ e ∈ before, v.lastAccess ≤ e.lastAccess) ∧
    ∀ k, Present after k ↔ k = key ∨ Present before k ∧ k ≠ v.key

def firstUntouched : Option (Entry T) :=
  order.find? (fun e => e.lastAccess = 0)

theorem foldl_lower_zero : order.foldl (lower Entry.lastAccess) (key,0) = (key,0) := by
  induction order with
  | nil => rfl
  | cons e rest ih => simpa [lower] using ih

variable {order now}

theorem foldl_lower_first {v : String × ℕ} (hz : firstUntouched order = some z) (hv : 0 < v.2) :
    (order.foldl (lower Entry.lastAccess) v).1 = z.key := by
  induction order generalizing v with
  | nil => simp [firstUntouched] at hz
  | cons e rest ih =>
    rw [List.foldl_cons]
    by_cases he : e.lastAccess = 0
    · obtain rfl : e = z := by simpa [firstUntouched,he] using hz
      rw [lower,if_pos (he ▸ hv),he,foldl_lower_zero]
    apply ih (by simpa [firstUntouched,he] using hz)
    unfold lower
    split
    · exact Nat.pos_of_ne_zero he
    · exact hv

theorem present_erase : Present (erase Entry.key l key) k ↔ k ≠ key ∧ Present l k := by
  unfold Present
  rw [lookup_erase]
  split <;> simp [*]

theorem present_upsert : Present (upsert Entry.key l e) k ↔ k = e.key ∨ Present l k := by
  unfold Present
  rw [lookup_upsert]
  split <;> simp [*]

theorem present_of_mem (h : e ∈ l) : Present l e.key := by
  simp only [Present,lookup,List.find?_isSome]
  exact ⟨e,h,by simp⟩

theorem present_performLoad (e : Entry T) :
    Present (performLoad c item done e).entries k ↔ Present c.entries k := by
  unfold performLoad
  split
  · rename_i h
    have hk : (loaded item done e).key = e.key := by
      unfold loaded
      split <;> rfl
    rw [present_upsert,hk]
    exact or_iff_right_of_imp (fun he => he ▸ h)
  · rfl

theorem present_create {c : Cache T} (hp : c.policy = .lru) (hnow : 0 < now) (hmiss : ¬Present c.entries key)
    (hsize : 0 < c.maxSize) (hfull : c.maxSize ≤ c.entries.length)
    (hz : firstUntouched order = some z) :
    Present (create c order now key).entries k ↔
      (k = key ∨ Present c.entries k) ∧ (z.key ≠ "" → k ≠ z.key) := by
  have hl : (upsert Entry.key c.entries (placeholder key)).length = c.entries.length+1 := by
    rw [upsert,erase,List.filter_eq_self.mpr,List.length_append,List.length_singleton]
    intro e he
    exact decide_eq_true (fun h : e.key = key => hmiss (h ▸ present_of_mem he))
  have hv : (victim order now c.policy).1 = z.key := by
    rw [hp]
    exact foldl_lower_first hz hnow
  simp only [create,hl,hsize,Nat.lt_succ_of_le hfull,and_self,if_true,evictOldest,hv]
  split
  · rename_i h
    rw [present_erase,present_upsert,and_comm]
    simp [placeholder,h]
  rename_i h
  rw [present_upsert]
  simp [placeholder,not_not.mp h]

/-- A walk that meets the new entry first among those never accessed evicts that one. -/
theorem get_evicts_least_recent_iff (c : Cache T) (item : Item T) (order : List (Entry T))
    (now done : ℕ) (hp : c.policy = .lru) (hnow : 0 < now) (hsize : 0 < c.maxSize)
    (hfull : c.maxSize ≤ c.entries.length) (hmiss : ¬Present c.entries item.key)
    (horder : order.Perm (upsert Entry.key c.entries (placeholder item.key))) :
    ∃ c', get c item order now done = some (c',item.reload.map some) ∧
      (EvictsLeastRecent c.entries c'.entries item.key ↔
        ∃ z ∈ c.entries, firstUntouched order = some z ∧ z.key ≠ "") := by
  have hnone : lookup Entry.key c.entries item.key = none := by simpa [Present] using hmiss
  refine ⟨_,by simp only [get,getOrLoad,hnone]; rfl,?_⟩
  obtain ⟨z,hz⟩ : ∃ z, firstUntouched order = some z := by
    apply Option.isSome_iff_exists.mp
    simp only [firstUntouched,List.find?_isSome]
    exact ⟨placeholder item.key,horder.mem_iff.mpr (by simp [upsert]),rfl⟩
  have hafter (k : String) := (present_performLoad (k := k) (create c order now item.key)
    item done (placeholder item.key)).trans (present_create hp hnow hmiss hsize hfull hz)
  have hmem : z ∈ c.entries ∨ z = placeholder item.key := by
    have hin := horder.mem_iff.mp (List.mem_of_find?_eq_some hz)
    simp only [upsert,erase,List.mem_append,List.mem_filter,List.mem_singleton] at hin
    exact hin.imp_left And.left
  constructor
  · rintro ⟨v,hv,-,hk⟩
    have hv' := present_of_mem hv
    have hne : z.key ≠ "" := by
      intro he
      have h := (hk v.key).mp ((hafter v.key).mpr ⟨.inr hv',fun h => absurd he h⟩)
      rcases h with h | h
      · exact hmiss (h ▸ hv')
      · exact h.2 rfl
    rcases hmem with h | rfl
    · exact ⟨z,h,hz,hne⟩
    · exact absurd rfl (((hafter item.key).mp ((hk item.key).mpr (.inl rfl))).2 hne)
  rintro ⟨w,hw,hwz,hne⟩
  obtain rfl := Option.some.inj (hwz.symm.trans hz)
  have hzero : w.lastAccess = 0 := by simpa using List.find?_some hz
  refine ⟨w,hw,fun e _ => hzero ▸ Nat.zero_le _,fun k => ?_⟩
  rw [hafter]
  constructor
  · rintro ⟨h,hk⟩
    exact h.imp_right (fun hp => ⟨hp,hk hne⟩)
  rintro (rfl | h)
  · exact ⟨.inl rfl,fun _ he => hmiss (he ▸ present_of_mem hw)⟩
  · exact ⟨.inr h.1,fun _ => h.2⟩

/-- A full cache with a loaded key and one whose load has failed. -/
def failedLoad : Cache ℕ :=
  ⟨2,.lru,[{ key := "a", value := some 7, expireTime := some 65, lastAccess := 5, accessCount := 1 },
    { key := "b", loadErr := some "timeout" }]⟩

theorem get_evicts_failed_load :
    ∃ c', get failedLoad ⟨"c",60,.ok 8⟩ (failedLoad.entries++[placeholder "c"]) 6 7 =
        some (c',.ok (some 8)) ∧ EvictsLeastRecent failedLoad.entries c'.entries "c" ∧
      c'.entries.map Entry.key = ["a","c"] := by
  obtain ⟨c',h,hiff⟩ := get_evicts_least_recent_iff failedLoad ⟨"c",60,.ok 8⟩
    (failedLoad.entries++[placeholder "c"]) 6 7 rfl (by decide) (by decide) (by decide)
    (by simp [Present,failedLoad,lookup]) (by rfl)
  refine ⟨c',h,hiff.mpr ⟨_,by simp [failedLoad],rfl,by decide⟩,?_⟩
  cases h
  rfl

theorem get_evicts_loaded_key :
    ∃ c c' : Cache ℕ, get ⟨1,.lru,[]⟩ ⟨"a",60,.ok 7⟩ [placeholder "a"] 1 2 =
        some (c,.ok (some 7)) ∧
      get c ⟨"b",60,.ok 8⟩ (c.entries++[placeholder "b"]) 3 4 = some (c',.ok (some 8)) ∧
      c'.entries.map Entry.key = ["a"] ∧ ¬EvictsLeastRecent c.entries c'.entries "b" :=
  ⟨_,_,rfl,rfl,rfl,fun ⟨_,_,_,h⟩ => nomatch (h "b").mpr (.inl rfl)⟩

end Sentio.LruCache
