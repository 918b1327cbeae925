import SentioCore.ClientPoolModel
import SentioCore.Transition

/-!
# Entries and priorities follow the configuration

The manager is the only one that adds, removes, enables or disables entries.
While it applies a configuration, every name that it has still to add or to
remove may differ from the configuration, and no other; while it applies a
priority, the names still to be switched may differ.
-/

namespace Sentio.ClientPoolPriority
open KeyedRows PoolModel ClientPoolModel Transition
open List (mem_map map_cons mem_cons mem_cons_self mem_filter replicate)
open Option (ite_none_left_eq_some ite_none_right_eq_some some.inj some.injEq)

section
variable {CONFIG CLIENT : Type}

/-- An entry stands for a configured endpoint; an entry that was there with an
equal configuration is kept. -/
def Same (env : Env CONFIG) : Option (ClientConfig CONFIG × Bool) → Option (ClientConfig CONFIG) → Prop
  | none, none => True
  | some v, some cc => v.1 = cc ∨ ClientConfig.equal env v.1 cc
  | _, _ => False

def configOf (env : Env CONFIG) (w : World CONFIG CLIENT) (name : String) :
    Option (ClientConfig CONFIG) :=
  lastOf (nameOf env) w.config.clientConfigs name

variable {env : Env CONFIG}

theorem same_priority {v : ClientConfig CONFIG × Bool} {c : Option (ClientConfig CONFIG)}
    (h : Same env (some v) c) : ∃ cc, c = some cc ∧ cc.priority = v.1.priority := by
  rcases c with _ | cc
  · exact h.elim
  refine ⟨cc,rfl,?_⟩
  rcases h with h | h
  · rw [h]
  · simp only [ClientConfig.equal,Bool.and_eq_true,decide_eq_true_eq] at h
    exact h.1.symm

variable {configs : List (ClientConfig CONFIG)}

theorem priorities_eq_nil : priorities configs = [] ↔ configs = [] := by
  rw [priorities,← List.length_eq_zero_iff,List.length_insertionSort,List.length_eq_zero_iff,
    List.dedup_eq_nil,List.map_eq_nil_iff]

theorem mem_priorities {p : UInt32} : p ∈ priorities configs ↔ ∃ cc ∈ configs, cc.priority = p := by
  rw [priorities,List.mem_insertionSort,List.mem_dedup,mem_map]

def Aligned (env : Env CONFIG) (w : World CONFIG CLIENT) (pending gone : List String) : Prop :=
  ∀ name, name ∉ pending → name ∉ gone → Same env (view w.pool name) (configOf env w name)

def Unconfigured (env : Env CONFIG) (w : World CONFIG CLIENT) (gone : List String) : Prop :=
  ∀ name ∈ gone, configOf env w name = none

def Switched (w : World CONFIG CLIENT) (cur : UInt32) (pending : List String) : Prop :=
  ∀ name v, view w.pool name = some v → name ∉ pending → v.2 = decide (v.1.priority ≤ cur)

/-- The configured priority of the listed names is on the given side of the current one. -/
def Sided (env : Env CONFIG) (w : World CONFIG CLIENT) (cur : UInt32) (side : Bool)
    (names : List String) : Prop :=
  ∀ name ∈ names, ∀ cc, configOf env w name = some cc → decide (cc.priority ≤ cur) = side

def ManagerInv (env : Env CONFIG) (w : World CONFIG CLIENT) : Manager CONFIG → Prop
  | .idle => Aligned env w [] [] ∧ ∃ cur, current w = some cur ∧ Switched w cur []
  | .adding rest gone => rest <:+ w.config.clientConfigs ∧
    Aligned env w (rest.map (nameOf env)) gone ∧ Unconfigured env w gone
  | .removing gone => Aligned env w [] gone ∧ Unconfigured env w gone
  | .asking | .searching | .upgrading _ | .moving _ _ =>
    Aligned env w [] [] ∧ w.config.clientConfigs ≠ []
  | .applying => Aligned env w [] []
  | .switching enableList disableList => Aligned env w [] [] ∧ ∃ cur, current w = some cur ∧
    Switched w cur (enableList++disableList) ∧ Sided env w cur true enableList ∧
    Sided env w cur false disableList
  | .panicked _ _ => False

structure WorldInv (env : Env CONFIG) (w : World CONFIG CLIENT) : Prop where
  distinct : Distinct w.pool
  keyed : (w.configEntries.map (nameOf env)).Nodup
  configs : ∀ name, lookup (nameOf env) w.configEntries name = configOf env w name
  listed : w.configPriorities = priorities w.config.clientConfigs
  cursor : w.config.clientConfigs = [] ∨ w.priorityCursor < w.configPriorities.length
  manager : ManagerInv env w w.manager

theorem newClientPool_inv (env : Env CONFIG) :
    WorldInv env (newClientPool : World CONFIG CLIENT) where
  distinct := List.nodup_nil
  keyed := List.nodup_nil
  configs _ := rfl
  listed := rfl
  cursor := .inl rfl
  manager := ⟨fun _ _ _ => trivial,maxUint32,rfl,fun _ _ h => by simp [view,find,lookup,
    newClientPool] at h⟩

structure Kept (w next : World CONFIG CLIENT) : Prop where
  entries : next.configEntries.Perm w.configEntries
  config : next.config = w.config
  listed : next.configPriorities = w.configPriorities

theorem kept_inv (w : World CONFIG CLIENT) {next : World CONFIG CLIENT} (h : Kept w next)
    (hw : WorldInv env w) (hd : Distinct next.pool)
    (hc : w.config.clientConfigs = [] ∨ next.priorityCursor < w.configPriorities.length)
    (hm : ManagerInv env next next.manager) : WorldInv env next where
  distinct := hd
  keyed := (h.entries.map (nameOf env)).nodup_iff.mpr hw.keyed
  configs name := by
    rw [lookup_perm (nameOf env) h.entries hw.keyed,hw.configs,configOf,configOf,h.config]
  listed := by rw [h.listed,hw.listed,h.config]
  cursor := by rw [h.config,h.listed]; exact hc
  manager := hm

variable {w next : World CONFIG CLIENT}

theorem kept_aligned (env : Env CONFIG) (h : Kept w next)
    (hview : ∀ name, view next.pool name = view w.pool name) (pending gone : List String)
    (ha : Aligned env w pending gone) : Aligned env next pending gone := by
  intro name hp hg
  rw [hview,configOf,h.config]
  exact ha name hp hg

/-- What the manager knows is about these parts only. -/
theorem kept_managerInv (h : Kept w next) (hview : ∀ name, view next.pool name = view w.pool name)
    (hcursor : next.priorityCursor = w.priorityCursor) {m : Manager CONFIG}
    (hm : ManagerInv env w m) : ManagerInv env next m := by
  have hconf : configOf env next = configOf env w := by
    funext name
    rw [configOf,configOf,h.config]
  have hcur : current next = current w := by rw [current,current,h.listed,hcursor]
  have haligned := kept_aligned env h hview
  have hunconf : ∀ gone, Unconfigured env w gone → Unconfigured env next gone := by
    intro gone hu
    rwa [Unconfigured,hconf]
  have hswitched : ∀ cur pending, Switched w cur pending → Switched next cur pending := by
    intro cur pending hs name v hv
    exact hs name v (hview name ▸ hv)
  have hsided : ∀ cur side names, Sided env w cur side names → Sided env next cur side names := by
    intro cur side names hs
    rwa [Sided,hconf]
  cases m with
  | idle =>
    obtain ⟨ha,cur,hc,hs⟩ := hm
    exact ⟨haligned _ _ ha,cur,hcur ▸ hc,hswitched _ _ hs⟩
  | adding rest gone => exact ⟨h.config ▸ hm.1,haligned _ _ hm.2.1,hunconf _ hm.2.2⟩
  | removing gone => exact ⟨haligned _ _ hm.1,hunconf _ hm.2⟩
  | asking | searching | upgrading | moving => exact ⟨haligned _ _ hm.1,h.config ▸ hm.2⟩
  | applying => exact haligned _ _ hm
  | switching enableList disableList =>
    obtain ⟨ha,cur,hc,hs,he,hd⟩ := hm
    exact ⟨haligned _ _ ha,cur,hcur ▸ hc,hswitched _ _ hs,hsided _ _ _ he,hsided _ _ _ hd⟩
  | panicked index length => exact hm

/-- A step that leaves the pool, the configuration and the cursor alone. -/
structure Quiet (w next : World CONFIG CLIENT) : Prop where
  pool : next.pool = w.pool
  entries : next.configEntries = w.configEntries
  config : next.config = w.config
  listed : next.configPriorities = w.configPriorities
  cursor : next.priorityCursor = w.priorityCursor

theorem quiet_inv (hw : WorldInv env w)
    (hm : ManagerInv env w next.manager) (h : Quiet w next := by constructor <;> rfl) :
    WorldInv env next := by
  have hkept : Kept w next := ⟨by rw [h.entries],h.config,h.listed⟩
  apply kept_inv w hkept hw
  · rw [h.pool]
    exact hw.distinct
  · rw [h.cursor]
    exact hw.cursor
  · exact kept_managerInv hkept (fun name => by rw [h.pool]) h.cursor hm

variable {pool : Pool (ClientConfig CONFIG) (EntryStatus CLIENT) PoolStatus}

/-- The pool may be replaced by one that shows the same. -/
theorem sameView_inv (hw : WorldInv env w) (hd : Distinct pool)
    (hv : ∀ name, view pool name = view w.pool name) : WorldInv env {w with pool := pool} := by
  have hkept : Kept w {w with pool := pool} := ⟨.rfl,rfl,rfl⟩
  exact kept_inv w hkept hw hd hw.cursor (kept_managerInv hkept hv rfl hw.manager)

theorem current_isSome (hw : WorldInv env w) : ∃ cur, current w = some cur := by
  rw [current]
  split
  · exact ⟨maxUint32,rfl⟩
  rename_i h
  have hne : w.config.clientConfigs ≠ [] := by
    intro hnil
    rw [hw.listed,priorities_eq_nil.mpr hnil] at h
    simp at h
  exact ⟨_,List.getElem?_eq_getElem (hw.cursor.resolve_left hne)⟩

section adding
variable (env : Env CONFIG) (w : World CONFIG CLIENT) (cc : ClientConfig CONFIG)
  (rest : List (ClientConfig CONFIG)) (gone : List String)

def added : World CONFIG CLIENT :=
  {w with
    pool := add (builder w) (ClientConfig.equal env) zeroStatus w.pool (nameOf env cc) cc
    manager := .adding rest gone}

theorem added_aligned (hs : cc::rest <:+ w.config.clientConfigs)
    (ha : Aligned env w ((cc::rest).map (nameOf env)) gone) :
    Aligned env (added env w cc rest gone) (rest.map (nameOf env)) gone := by
  intro name hp hg
  change Same env (view (add _ _ _ _ _ _) name) (configOf env w name)
  rw [view_add]
  by_cases hn : name = nameOf env cc
  · have hnone : lastOf (nameOf env) rest name = none := by
      rw [lastOf_eq_none]
      intro other ho he
      exact hp (mem_map.mpr ⟨other,ho,he⟩)
    have hconf : configOf env w name = some cc := by
      obtain ⟨front,hfront⟩ := hs
      rw [configOf,← hfront,show front++cc::rest = (front++[cc])++rest by simp,lastOf_append,
        hnone,lastOf_concat,if_pos hn]
      rfl
    rw [hconf,← hn]
    rcases hv : view w.pool name with _ | v
    · rw [if_pos ⟨rfl,rfl⟩]
      exact .inl rfl
    cases heq : ClientConfig.equal env v.1 cc with
    | false =>
      rw [if_pos ⟨rfl,heq⟩]
      exact .inl rfl
    | true =>
      rw [if_neg (fun h => by simp [heq] at h)]
      exact .inr heq
  · rw [if_neg (fun h => hn h.1)]
    apply ha name _ hg
    rw [map_cons,mem_cons,not_or]
    exact ⟨hn,hp⟩

theorem added_inv (hw : WorldInv env w) (hm : w.manager = .adding (cc::rest) gone) :
    WorldInv env (added env w cc rest gone) := by
  have hinv := hw.manager
  rw [hm] at hinv
  obtain ⟨hs,ha,hu⟩ := hinv
  have hkept : Kept w (added env w cc rest gone) := ⟨.rfl,rfl,rfl⟩
  have hd : Distinct (added env w cc rest gone).pool := add_distinct hw.distinct
  exact kept_inv w hkept hw hd hw.cursor
    ⟨(List.suffix_cons cc rest).trans hs,added_aligned env w cc rest gone hs ha,hu⟩

end adding

def removed (w : World CONFIG CLIENT) (name : String) (gone : List String) : World CONFIG CLIENT :=
  {w with pool := remove (builder w) w.pool name, manager := .removing gone}

variable {name : String}

theorem removed_inv {gone : List String} (hw : WorldInv env w)
    (hm : w.manager = .removing (name::gone)) : WorldInv env (removed w name gone) := by
  have hinv := hw.manager
  rw [hm] at hinv
  obtain ⟨ha,hu⟩ := hinv
  have hkept : Kept w (removed w name gone) := ⟨.rfl,rfl,rfl⟩
  have hd : Distinct (removed w name gone).pool := remove_distinct hw.distinct
  have haligned : Aligned env (removed w name gone) [] gone := by
    intro k hp hg
    change Same env (view (remove _ _ _) k) (configOf env w k)
    rw [view_remove]
    split
    case isTrue hk =>
      rw [hk,hu name mem_cons_self]
      trivial
    rename_i hk
    apply ha k hp
    rw [mem_cons,not_or]
    exact ⟨hk,hg⟩
  exact kept_inv w hkept hw hd hw.cursor ⟨haligned,fun k hk => hu k (List.mem_cons_of_mem name hk)⟩

theorem enablePriority_inv (hw : WorldInv env w)
    (ha : Aligned env w [] []) : ManagerInv env w (enablePriority env w) := by
  obtain ⟨cur,hcur⟩ := current_isSome hw
  have hfound : ∀ name cc, configOf env w name = some cc → cc ∈ w.configEntries ∧
      nameOf env cc = name := by
    intro name cc hc
    rw [← hw.configs] at hc
    exact ⟨lookup_mem _ hc,lookup_key _ hc⟩
  have hsided : ∀ (side : Bool) (p : ClientConfig CONFIG → Bool),
      (∀ cc, p cc → decide (cc.priority ≤ cur) = side) →
        Sided env w cur side ((w.configEntries.filter p).map (nameOf env)) := by
    intro side p hp name hn cc hc
    obtain ⟨other,ho,hname⟩ := mem_map.mp hn
    obtain ⟨hmem,hside⟩ := mem_filter.mp ho
    rw [← hw.configs,← hname] at hc
    have hother := (mem_iff_lookup (nameOf env) hw.keyed other).mp hmem
    rw [hother] at hc
    obtain rfl := some.inj hc
    exact hp other hside
  rw [enablePriority,hcur]
  refine ⟨ha,cur,hcur,?_,hsided true _ (fun _ h => h),hsided false _ (fun _ h => ?_)⟩
  · intro name v hv hpending
    have hsame := ha name (by simp) (by simp)
    rw [hv] at hsame
    obtain ⟨cc,hcc,-⟩ := same_priority hsame
    obtain ⟨hmem,rfl⟩ := hfound name cc hcc
    apply absurd _ hpending
    rw [List.mem_append]
    cases hle : decide (cc.priority ≤ cur) with
    | true => exact .inl (mem_map.mpr ⟨cc,mem_filter.mpr ⟨hmem,hle⟩,rfl⟩)
    | false => exact .inr (mem_map.mpr ⟨cc,mem_filter.mpr ⟨hmem,by rw [hle]; rfl⟩,rfl⟩)
  · simpa using h

def switched (w : World CONFIG CLIENT) (pool : Pool (ClientConfig CONFIG) (EntryStatus CLIENT)
    PoolStatus) (enableList disableList : List String) : World CONFIG CLIENT :=
  {w with pool := pool, manager := .switching enableList disableList}

/-- Switching one name to its side leaves the other names to be switched. -/
theorem switched_inv {side : Bool} {cur : UInt32} (enableList disableList pending : List String)
    (hw : WorldInv env w) (hv : ∀ k, view pool k =
      if k = name then (view w.pool name).map (fun v => (v.1,side)) else view w.pool k)
    (hd : Distinct pool) (ha : Aligned env w [] []) (hcur : current w = some cur)
    (hs : Switched w cur pending) (hpending : ∀ k ∈ pending, k ≠ name → k ∈ enableList++disableList)
    (hside : ∀ cc, configOf env w name = some cc → decide (cc.priority ≤ cur) = side)
    (he : Sided env w cur true enableList) (hdis : Sided env w cur false disableList) :
    WorldInv env (switched w pool enableList disableList) := by
  have hkept : Kept w (switched w pool enableList disableList) := ⟨.rfl,rfl,rfl⟩
  have hsame : ∀ k, Same env (view w.pool k) (configOf env w k) :=
    fun k => ha k (by simp) (by simp)
  have haligned : Aligned env (switched w pool enableList disableList) [] [] := by
    intro k _ _
    change Same env (view pool k) (configOf env w k)
    rw [hv]
    split
    case isTrue hk =>
      have h := hsame name
      subst hk
      rcases hview : view w.pool k with _ | v
      · rwa [hview] at h
      rw [hview] at h
      cases hc : configOf env w k with
      | none => exact (hc ▸ h : Same env (some v) none).elim
      | some cc => exact (hc ▸ h : Same env (some v) (some cc))
    case isFalse => exact hsame k
  have hswitched : Switched (switched w pool enableList disableList) cur
      (enableList++disableList) := by
    intro k v hview hk
    change view pool k = some v at hview
    rw [hv] at hview
    split at hview
    case isTrue hkn =>
      obtain ⟨old,hold,rfl⟩ := Option.map_eq_some_iff.mp hview
      obtain ⟨cc,hcc,hprio⟩ := same_priority (hold ▸ hsame name)
      exact (hprio ▸ hside cc hcc).symm
    case isFalse hkn =>
      exact hs k v hview (fun hmem => hk (hpending k hmem hkn))
  exact kept_inv w hkept hw hd hw.cursor ⟨haligned,cur,hcur,hswitched,he,hdis⟩

theorem moveCursor_inv {downgrade hasValid : Bool}
    (hw : WorldInv env w) (ha : Aligned env w [] []) (hne : w.config.clientConfigs ≠ []) :
    WorldInv env (moveCursor env w downgrade hasValid) := by
  have hc := hw.cursor.resolve_left hne
  have happly : ∀ i, i < w.configPriorities.length →
      WorldInv env {w with priorityCursor := i, manager := .applying} := by
    intro i hi
    exact kept_inv w ⟨.rfl,rfl,rfl⟩ hw hw.distinct (.inr hi) ha
  have hstay : WorldInv env {w with manager := .applying} := happly w.priorityCursor hc
  rw [moveCursor]
  split
  · split
    case isTrue hlt => exact happly _ hlt
    case isFalse =>
      rw [indexed,if_pos hc]
      exact hstay
  split
  · rw [if_pos (.inl hc)]
    split
    · have hlow : w.priorityCursor-1 < w.configPriorities.length := by omega
      rw [indexed,if_pos hlow]
      exact happly _ hlow
    · exact hstay
  · exact hstay

variable {l : List (ClientConfig CONFIG)}

theorem updateEntries_configEntries (u : Update CONFIG) :
    (l.foldl (updateEntry env) u).configEntries = l.foldl (upsert (nameOf env)) u.configEntries := by
  induction l generalizing u with
  | nil => rfl
  | cons cc rest ih => exact ih (updateEntry env u cc)

theorem updateEntries_existing {u : Update CONFIG} :
    lookup (nameOf env) (l.foldl (updateEntry env) u).existing name =
      if name ∈ l.map (nameOf env) then none else lookup (nameOf env) u.existing name := by
  induction l generalizing u with
  | nil => simp
  | cons cc rest ih =>
    rw [List.foldl_cons,ih,updateEntry,lookup_erase]
    by_cases hn : name = nameOf env cc
    · simp [hn]
    · simp [hn]

theorem lookup_isSome_iff : name ∈ l.map (nameOf env) ↔ lookup (nameOf env) l name ≠ none := by
  rw [ne_eq,lookup]
  simp

theorem lastOf_eq_none_iff : lastOf (nameOf env) l name = none ↔ name ∉ l.map (nameOf env) := by
  rw [lastOf_eq_none]
  simp

theorem updateConfig_inv {c : PoolConfig CONFIG}
    (hw : WorldInv env w) (ha : Aligned env w [] []) : WorldInv env (updateConfig env w c) := by
  have hentries : (updateConfig env w c).configEntries = collapse (nameOf env) c.clientConfigs :=
    updateEntries_configEntries _
  have hgone : ∀ name, name ∈ ((c.clientConfigs.foldl (updateEntry env)
      ⟨[],w.configEntries,w.entryExtra⟩).existing.map (nameOf env)) ↔
        name ∉ c.clientConfigs.map (nameOf env) ∧ configOf env w name ≠ none := by
    intro name
    rw [lookup_isSome_iff,updateEntries_existing,← hw.configs]
    split
    case isTrue h => simp [h]
    case isFalse h => simp [h]
  have hlisted : (updateConfig env w c).configPriorities = priorities c.clientConfigs := rfl
  refine ⟨hw.distinct,?_,?_,hlisted,?_,List.suffix_rfl,?_,?_⟩
  · rw [hentries]
    exact nodup_collapse _ _
  · intro name
    rw [hentries,lookup_collapse]
    rfl
  · by_cases hnil : c.clientConfigs = []
    · exact .inl hnil
    right
    exact List.length_pos_iff.mpr (mt priorities_eq_nil.mp hnil)
  · intro name hp hg
    change Same env (view w.pool name) (lastOf (nameOf env) c.clientConfigs name)
    rw [hgone,not_and,not_not] at hg
    have hsame := ha name (by simp) (by simp)
    rw [hg hp] at hsame
    rwa [lastOf_eq_none_iff.mpr hp]
  · intro name hn
    exact lastOf_eq_none_iff.mpr ((hgone name).mp hn).1

/-- An adjustment starts only while endpoints are configured. -/
def Configured (w : World CONFIG CLIENT) : Event CONFIG CLIENT → Prop
  | .adjustPriority => w.config.clientConfigs.isEmpty = false
  | _ => True

instance (w : World CONFIG CLIENT) (event : Event CONFIG CLIENT) : Decidable (Configured w event) :=
  match event with
  | .adjustPriority => inferInstanceAs (Decidable (_ = _))
  | .tick _ | .updateConfig _ | .manage | .report _ _ | .shuffle _ _ | .useClient _
  | .proceed _ _ => .isTrue trivial

theorem manage_inv (hw : WorldInv env w) (h : manage env w = some next) : WorldInv env next := by
  have hinv := hw.manager
  cases hm : w.manager with
  | idle => simp [manage,hm] at h
  | adding rest gone =>
    cases rest with
    | nil =>
      rw [hm] at hinv
      simp only [manage,hm,some.injEq] at h
      exact h ▸ quiet_inv hw ⟨hinv.2.1,hinv.2.2⟩
    | cons cc rest =>
      simp only [manage,hm,ite_none_left_eq_some] at h
      exact some.inj h.2 ▸ added_inv env w cc rest gone hw hm
  | removing gone =>
    cases gone with
    | nil =>
      rw [hm] at hinv
      simp only [manage,hm,some.injEq] at h
      exact h ▸ quiet_inv hw hinv.1
    | cons name gone =>
      simp only [manage,hm,ite_none_left_eq_some] at h
      exact some.inj h.2 ▸ removed_inv hw hm
  | asking =>
    rw [hm] at hinv
    simp only [manage,hm,ite_none_left_eq_some] at h
    obtain ⟨-,h⟩ := h
    split at h
    · exact some.inj h ▸ quiet_inv hw hinv
    · exact some.inj h ▸ quiet_inv hw hinv
  | searching =>
    rw [hm] at hinv
    simp only [manage,hm,ite_none_left_eq_some] at h
    exact some.inj h.2 ▸ quiet_inv hw hinv
  | upgrading downgrade =>
    rw [hm] at hinv
    simp only [manage,hm] at h
    split at h
    · exact some.inj h ▸ quiet_inv hw hinv
    split at h
    · exact some.inj h ▸ quiet_inv hw hinv
    split at h
    · simp at h
    · exact some.inj h ▸ quiet_inv hw hinv
  | moving downgrade hasValid =>
    rw [hm] at hinv
    simp only [manage,hm,some.injEq] at h
    exact h ▸ moveCursor_inv hw hinv.1 hinv.2
  | applying =>
    rw [hm] at hinv
    simp only [manage,hm,some.injEq] at h
    exact h ▸ quiet_inv hw (enablePriority_inv hw hinv)
  | switching enableList disableList =>
    rw [hm] at hinv
    obtain ⟨ha,cur,hcur,hs,he,hd⟩ := hinv
    cases enableList with
    | nil =>
      rcases disableList with _ | ⟨name,rest⟩
      · simp only [manage,hm,some.injEq] at h
        exact h ▸ quiet_inv hw ⟨ha,cur,hcur,hs⟩
      simp only [manage,hm,ite_none_left_eq_some] at h
      exact some.inj h.2 ▸ switched_inv [] rest (name::rest) hw
        (view_disable w.pool name) (disable_distinct hw.distinct) ha hcur hs
        (fun k hk hne => (mem_cons.mp hk).resolve_left hne)
        (hd name mem_cons_self) (fun _ hk => by simp at hk)
        (fun k hk => hd k (List.mem_cons_of_mem name hk))
    | cons name rest =>
      simp only [manage,hm,ite_none_left_eq_some] at h
      exact some.inj h.2 ▸ switched_inv rest disableList
        (name::rest++disableList) hw (view_enable (builder w) w.pool name)
        (enable_distinct hw.distinct) ha hcur hs
        (fun k hk hne => (mem_cons.mp hk).resolve_left hne) (he name mem_cons_self)
        (fun k hk => he k (List.mem_cons_of_mem name hk)) hd
  | panicked index length => simp [manage,hm] at h

theorem shuffle_inv {map : MapName} {order : List ℕ} (hw : WorldInv env w)
    (h : shuffle w order map = some next) : WorldInv env next := by
  cases map with
  | entries =>
    simp only [shuffle,ite_none_right_eq_some] at h
    obtain ⟨hperm,h⟩ := h
    have hp := reorder_perm (List.isPerm_iff.mp hperm)
    cases h
    refine sameView_inv hw ((hp.map Entry.name).nodup_iff.mpr hw.distinct) ?_
    intro name
    rw [view,find,lookup_perm Entry.name hp hw.distinct]
    rfl
  | configEntries =>
    simp only [shuffle,ite_none_right_eq_some] at h
    obtain ⟨hperm,h⟩ := h
    have hp := reorder_perm (List.isPerm_iff.mp hperm)
    have hkept : Kept w {w with configEntries := reorder order w.configEntries} := ⟨hp,rfl,rfl⟩
    exact some.inj h ▸ kept_inv w hkept hw hw.distinct hw.cursor
      (kept_managerInv hkept (fun _ => rfl) rfl hw.manager)
  | entryExtra =>
    simp only [shuffle,ite_none_right_eq_some] at h
    exact some.inj h.2 ▸ quiet_inv hw hw.manager

theorem idle_manager (h : idle w) : w.manager = .idle := by
  rw [idle] at h
  split at h
  case h_1 hm => exact hm
  case h_2 => simp at h

theorem step_inv (env : Env CONFIG) (w : World CONFIG CLIENT) (event : Event CONFIG CLIENT)
    (next : World CONFIG CLIENT) (hw : WorldInv env w) (hgood : Configured w event)
    (h : step env w event = some next) : WorldInv env next := by
  cases event with
  | tick | useClient => exact some.inj h ▸ quiet_inv hw hw.manager
  | updateConfig c =>
    simp only [step,ite_none_right_eq_some] at h
    obtain ⟨hidle,h⟩ := h
    have hinv := hw.manager
    rw [idle_manager hidle] at hinv
    exact some.inj h ▸ updateConfig_inv hw hinv.1
  | adjustPriority =>
    simp only [step,ite_none_right_eq_some] at h
    obtain ⟨hidle,h⟩ := h
    have hinv := hw.manager
    rw [idle_manager (Bool.and_eq_true_iff.mp hidle).1] at hinv
    have hne : w.config.clientConfigs ≠ [] := by
      intro hnil
      simp [Configured,hnil] at hgood
    cases h
    refine quiet_inv hw ?_
    split
    · exact ⟨hinv.1,hne⟩
    · exact ⟨hinv.1,hne⟩
  | manage => exact manage_inv hw h
  | report ref status =>
    simp only [step,ite_none_left_eq_some] at h
    exact some.inj h.2 ▸ sameView_inv hw (report_distinct hw.distinct)
      (view_report (builder w) w.pool ref status)
  | shuffle map order => exact shuffle_inv hw h
  | proceed i move =>
    simp only [step] at h
    split at h
    · simp at h
    · obtain ⟨moved,-,rfl⟩ := Option.map_eq_some_iff.mp h
      exact quiet_inv hw hw.manager

/-- The manager never used an index outside the priorities; its cursor is at the
priority of an endpoint if there are any; and between two of its operations the
entries are the configured endpoints, switched on up to the current priority. -/
structure Follows (env : Env CONFIG) (w : World CONFIG CLIENT) : Prop where
  safe : ∀ index length, w.manager ≠ .panicked index length
  cursor : w.config.clientConfigs ≠ [] →
    ∃ cc ∈ w.config.clientConfigs, w.configPriorities[w.priorityCursor]? = some cc.priority
  entries : idle w → ∀ name, Same env (view w.pool name)
    (lastOf (nameOf env) w.config.clientConfigs name)
  enabled : idle w → ∀ e ∈ w.pool.entries,
    (e.enable ↔ ∃ cur, w.configPriorities[w.priorityCursor]? = some cur ∧
      e.config.priority ≤ cur)

theorem cursor_priority (hw : WorldInv env w) (hne : w.config.clientConfigs ≠ []) :
    ∃ cc ∈ w.config.clientConfigs, w.configPriorities[w.priorityCursor]? = some cc.priority := by
  obtain ⟨p,hp⟩ : ∃ p, w.configPriorities[w.priorityCursor]? = some p :=
    ⟨_,List.getElem?_eq_getElem (hw.cursor.resolve_left hne)⟩
  have hmem := List.mem_of_getElem? hp
  rw [hw.listed,mem_priorities] at hmem
  obtain ⟨cc,hcc,rfl⟩ := hmem
  exact ⟨cc,hcc,hp⟩

theorem inv_follows (hw : WorldInv env w) : Follows env w := by
  have hinv := hw.manager
  refine ⟨?_,cursor_priority hw,?_,?_⟩
  · intro index length hm
    rw [hm] at hinv
    exact hinv
  · intro hidle name
    rw [idle_manager hidle] at hinv
    exact hinv.1 name (by simp) (by simp)
  intro hidle e he
  rw [idle_manager hidle] at hinv
  obtain ⟨ha,cur,hcur,hs⟩ := hinv
  have hview : view w.pool e.name = some (e.config,e.enable) := by
    rw [view,find,(mem_iff_lookup Entry.name hw.distinct e).mp he]
    rfl
  obtain ⟨cc,hcc,-⟩ := same_priority (hview ▸ ha e.name (by simp) (by simp))
  have hne : w.config.clientConfigs ≠ [] := List.ne_nil_of_mem (lastOf_mem _ hcc)
  have hfull : w.configPriorities.isEmpty = false := by
    rw [hw.listed,List.isEmpty_eq_false_iff]
    exact mt priorities_eq_nil.mp hne
  rw [current,hfull] at hcur
  have hswitch : e.enable = decide (e.config.priority ≤ cur) := hs e.name _ hview (by simp)
  rw [hswitch,decide_eq_true_eq]
  constructor
  · intro hle
    exact ⟨cur,hcur,hle⟩
  rintro ⟨other,hother,hle⟩
  obtain rfl := some.inj (hother.symm.trans hcur)
  exact hle

/-- In every run in which an adjustment starts only while endpoints are
configured, the pool follows the configuration in every state that is reached. -/
theorem pool_follows_config (env : Env CONFIG) (events : List (Event CONFIG CLIENT))
    (w : World CONFIG CLIENT) (hc : Throughout (step env) Configured newClientPool events)
    (h : run (step env) newClientPool events = some w) : Follows env w :=
  inv_follows (run_invariant_throughout (step env) Configured (WorldInv env)
    (fun w event next hw hg hs => step_inv env w event next hw hg hs) events newClientPool w
    (newClientPool_inv env) hc h)

end

section sample

def sampleEnv : Env String := ⟨id,fun a b => a = b, "",[],fun _ _ => 0⟩

def sampleConfig (endpoints : List (ClientConfig String)) : PoolConfig String :=
  ⟨0,0,⟨0,0,0⟩,0,0,0,0,0,endpoints⟩

def adjustedRun : List (Event String Unit) :=
  [.updateConfig (sampleConfig [⟨0,5, "a"⟩,⟨0,1, "b"⟩,⟨0,9, "a"⟩])]++
    replicate 9 .manage++[.adjustPriority]++replicate 7 .manage++
    [.updateConfig (sampleConfig [⟨0,1, "b"⟩,⟨0,1, "c"⟩])]++replicate 9 .manage

def emptiedRun : List (Event String Unit) :=
  [.updateConfig (sampleConfig [])]++replicate 4 .manage++[.adjustPriority]++
    replicate 3 .manage

end sample

theorem pool_follows_two_configs :
    ∃ w, run (step sampleEnv) newClientPool adjustedRun = some w ∧ idle w ∧
      w.pool.entries.map (fun e => (e.name,e.enable)) = [("b",true),("c",true)] ∧
      Follows sampleEnv w := by
  refine ⟨_,rfl,by decide,by decide,?_⟩
  exact pool_follows_config sampleEnv adjustedRun _ (by decide) rfl

/-- Without endpoints the message that the lowest priority is reached reads the
first of no priorities. -/
theorem adjust_without_endpoints_panics :
    ∃ w, run (step sampleEnv) newClientPool emptiedRun = some w ∧
      w.manager = .panicked 0 0 ∧ ¬Follows sampleEnv w := by
  refine ⟨_,rfl,rfl,?_⟩
  intro h
  exact h.safe 0 0 rfl

end Sentio.ClientPoolPriority
