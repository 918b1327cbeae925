import SentioCore.MirrorModel
import SentioCore.Transition

/-!
# What readers of the mirror see

The mirror shows the state when each mapping, read through the view of its
readers, is the projection of the state. Every operation keeps that.
-/

namespace Sentio.MirrorRuns
open MirrorMap MirrorModel Transition AList PlainState

def allocationView (entry : Option (List ProcessorAllocation)) : Multiset ProcessorAllocation :=
  entry.getD []

def permissionView (entry : Option (Map String String)) (databaseId : String) : Option String :=
  entry.bind (fun perms => perms.lookup databaseId)

def operatorView (entry : Option (List String)) : List String := entry.getD []

def allocationsOf (s : PlainState) (processorId : String) : Option (List ProcessorAllocation) :=
  (s.processorAllocations.lookup processorId).map values

def signersOf (ops : Map String Bool) : List String :=
  sortStrings (ops.keys.filter (fun signer => ops.lookup signer = some true))

def operatorsOf (s : PlainState) (account : String) : Option (List String) :=
  (s.operators.lookup account).map signersOf

/-- Every mapping of the mirror shows the projection of the state. -/
structure Mirrored (s : StateMirrored) : Prop where
  indexers : Mirrors id s.mirror.indexerInfos (fun k => (stringKeyMap s.inner.indexerInfos).lookup k)
  allocations : Mirrors allocationView s.mirror.processorAllocations (allocationsOf s.inner)
  processors : Mirrors id s.mirror.processorInfos (fun k => s.inner.processorInfos.lookup k)
  databases : Mirrors id s.mirror.databases (fun k => s.inner.databases.lookup k)
  schemas : Mirrors id s.mirror.tableSchemas (fun k => s.inner.tableSchemas.lookup k)
  permissions : Mirrors permissionView s.mirror.databasePermissions
    (fun k => s.inner.databasePermissions.lookup k)
  operators : Mirrors operatorView s.mirror.operators (operatorsOf s.inner)

def OperatorsSet (s : PlainState) : Prop :=
  ∀ account ops, s.operators.lookup account = some ops →
    ∀ signer ∈ ops.keys, ops.lookup signer = some true

/-- Apart from the table schemas the mirror shows no field that the state does not have. -/
structure NoStale (s : PlainState) (m : Mirror) : Prop where
  indexers : ∀ k, k ∉ stringKeyMap s.indexerInfos → m.indexerInfos.lookup k = none
  allocations : ∀ k, k ∉ s.processorAllocations →
    allocationView (m.processorAllocations.lookup k) = allocationView none
  processors : ∀ k, k ∉ s.processorInfos → m.processorInfos.lookup k = none
  databases : ∀ k, k ∉ s.databases → m.databases.lookup k = none
  permissions : ∀ k, k ∉ s.databasePermissions →
    permissionView (m.databasePermissions.lookup k) = permissionView none
  operators : ∀ k, k ∉ flattenOperators s.operators →
    operatorView (m.operators.lookup k) = operatorView none

variable {κ V : Type} {m : Map κ V}

theorem isEmptyMap_keys (h : isEmptyMap m) : m.keys = [] := by
  have he : m.entries = [] := by simpa [isEmptyMap] using h
  simp [keys,he]

section
variable [DecidableEq κ]

theorem isEmptyMap_lookup (h : isEmptyMap m) {k : κ} : m.lookup k = none := by
  rw [lookup_eq_none,mem_keys]
  have he : m.entries = [] := by simpa [isEmptyMap] using h
  simp [keys,he]

theorem lookup_deleteNested {ι : Type} [DecidableEq ι] {m : Map κ (Map ι V)} {k j : κ}
    {inner : Map ι V} {i : ι} :
    (deleteNested m k inner i).lookup j =
      if j = k then nonEmpty (inner.erase i) else m.lookup j := by
  rw [deleteNested,nonEmpty]
  split
  · rw [lookup_erase_if]
  · rw [lookup_insert_if]

end

theorem permissionView_nonEmpty {entry : Option (Map String String)} :
    permissionView (entry.bind nonEmpty) = permissionView entry := by
  rcases entry with _ | perms
  · rfl
  funext databaseId
  rw [Option.bind_some,nonEmpty]
  split
  · rename_i he
    exact (isEmptyMap_lookup he).symm
  · rfl

theorem operatorView_flatten {entry : Option (Map String Bool)} :
    operatorView (entry.bind flattenSigners) =
      operatorView (entry.map (fun ops => sortStrings ops.keys)) := by
  rcases entry with _ | ops
  · rfl
  rw [Option.bind_some,flattenSigners]
  split
  · rename_i he
    simp [operatorView,isEmptyMap_keys he,sortStrings]
  · rfl

theorem sort_filter_eq_iff {ops : Map String Bool} :
    sortStrings ops.keys = signersOf ops ↔ ∀ signer ∈ ops.keys, ops.lookup signer = some true := by
  constructor
  · intro h
    have hlen : (ops.keys.filter (fun signer => ops.lookup signer = some true)).length =
        ops.keys.length := by
      have := congrArg List.length h
      simpa [sortStrings,signersOf] using this.symm
    have hall := List.length_filter_eq_length_iff.mp hlen
    intro signer hs
    simpa using hall signer hs
  · intro h
    have hfilter : ops.keys.filter (fun signer => ops.lookup signer = some true) = ops.keys :=
      List.filter_eq_self.mpr (fun signer hs => by simpa using h signer hs)
    rw [signersOf,hfilter]

variable {s : PlainState}

/-- The flattened operators show the operators of the state if no signer is switched off. -/
theorem flatten_shows_iff :
    (∀ k, operatorView ((flattenOperators s.operators).lookup k) = operatorView (operatorsOf s k)) ↔
      OperatorsSet s := by
  have hview : ∀ k, operatorView ((flattenOperators s.operators).lookup k) =
      operatorView ((s.operators.lookup k).map (fun ops => sortStrings ops.keys)) := by
    intro k
    rw [flattenOperators,lookup_filterMapValues]
    exact operatorView_flatten
  constructor
  · intro h account ops hops
    have hk := h account
    rw [hview,operatorsOf,hops] at hk
    exact sort_filter_eq_iff.mp hk
  intro h k
  rw [hview,operatorsOf]
  cases hops : s.operators.lookup k with
  | none => rfl
  | some ops => exact sort_filter_eq_iff.mpr (h k ops hops)

variable (order : String → Iteration)

theorem flattenAllocations_shows (k : String) :
    allocationView ((flattenAllocations order s.processorAllocations).lookup k) =
      allocationView (allocationsOf s k) := by
  rw [flattenAllocations,lookup_filterMapValues,allocationsOf]
  cases s.processorAllocations.lookup k with
  | none => rfl
  | some m => exact Multiset.coe_eq_coe.mpr ((order k).2 _)

variable {k : String}

theorem mem_flattenAllocations {m : Map String (Map UInt64 ProcessorAllocation)} :
    k ∈ flattenAllocations order m ↔ k ∈ m := by
  rw [← lookup_isSome,← lookup_isSome,flattenAllocations,lookup_filterMapValues]
  cases m.lookup k <;> simp

theorem shows_absent {R : Type} [DecidableEq κ] {view : Option V → R}
    {p : κ → Option V} (hm : Mirrors view m p) {k : κ} (hk : view (p k) = view none) :
    view (m.lookup k) = view none := by rw [hm k,hk]

theorem operatorsOf_absent (k : String) (h : k ∉ flattenOperators s.operators) :
    operatorView (operatorsOf s k) = operatorView none := by
  have hnone := lookup_eq_none.mpr h
  rw [flattenOperators,lookup_filterMapValues] at hnone
  rw [operatorsOf]
  rcases hops : s.operators.lookup k with _ | ops
  · rfl
  rw [hops,Option.bind_some,flattenSigners] at hnone
  split at hnone
  · rename_i he
    simp [operatorView,signersOf,isEmptyMap_keys he,sortStrings]
  · cases hnone

theorem allocationsOf_absent (h : k ∉ s.processorAllocations) :
    allocationView (allocationsOf s k) = allocationView none := by
  rw [allocationsOf,lookup_eq_none.mpr h]
  rfl

variable (s : StateMirrored)

/-- A full synchronisation brings the mirror to the state exactly if nothing stale is there. -/
theorem syncMirror_iff (order : String → Iteration) :
    Mirrored (s.syncMirror order) ↔ NoStale s.inner s.mirror ∧ OperatorsSet s.inner := by
  have hplain : ∀ {V : Type} (m new : Map String V),
      Mirrors id (apply m ⟨new,[]⟩) (fun k => new.lookup k) ↔
        ∀ k, k ∉ new → m.lookup k = none := by
    intro V m new
    rw [mirrors_add_iff id m _ new (fun k hk => by rw [lookup_eq_none.mpr hk])]
    exact and_iff_right (fun k _ => rfl)
  have halloc : Mirrors allocationView (s.syncMirror order).mirror.processorAllocations
      (allocationsOf s.inner) ↔ ∀ k, k ∉ s.inner.processorAllocations →
        allocationView (s.mirror.processorAllocations.lookup k) = allocationView none := by
    have hadd := mirrors_add_iff allocationView s.mirror.processorAllocations
      (allocationsOf s.inner) (flattenAllocations order s.inner.processorAllocations)
      (fun k hk => allocationsOf_absent
        (fun hin => hk ((mem_flattenAllocations order).mpr hin)))
    refine hadd.trans ?_
    rw [and_iff_right (fun k _ => flattenAllocations_shows order k)]
    simp [mem_flattenAllocations]
  have hperm : Mirrors permissionView (s.syncMirror order).mirror.databasePermissions
      (fun k => s.inner.databasePermissions.lookup k) ↔ ∀ k, k ∉ s.inner.databasePermissions →
        permissionView (s.mirror.databasePermissions.lookup k) = permissionView none := by
    refine (mirrors_add_iff permissionView _ _ _
      (fun k hk => by rw [lookup_eq_none.mpr hk])).trans ?_
    exact and_iff_right (fun k _ => rfl)
  have hops : Mirrors operatorView (s.syncMirror order).mirror.operators (operatorsOf s.inner) ↔
      OperatorsSet s.inner ∧ ∀ k, k ∉ flattenOperators s.inner.operators →
        operatorView (s.mirror.operators.lookup k) = operatorView none := by
    refine (mirrors_add_iff operatorView _ _ _ (fun k hk => operatorsOf_absent k hk)).trans ?_
    rw [← flatten_shows_iff]
    refine and_congr_left (fun _ => ⟨fun h k => ?_,fun h k _ => h k⟩)
    by_cases hk : k ∈ flattenOperators s.inner.operators
    · exact h k hk
    · rw [lookup_eq_none.mpr hk,operatorsOf_absent k hk]
  constructor
  · intro h
    exact ⟨⟨(hplain _ _).mp h.indexers,halloc.mp h.allocations,(hplain _ _).mp h.processors,
      (hplain _ _).mp h.databases,hperm.mp h.permissions,(hops.mp h.operators).2⟩,
      (hops.mp h.operators).1⟩
  rintro ⟨h,hset⟩
  exact ⟨(hplain _ _).mpr h.indexers,halloc.mpr h.allocations,(hplain _ _).mpr h.processors,
    (hplain _ _).mpr h.databases,fun _ => rfl,hperm.mpr h.permissions,
    hops.mpr ⟨hset,h.operators⟩⟩

variable {s}

theorem mirrored_noStale (h : Mirrored s) : NoStale s.inner s.mirror where
  indexers k hk := shows_absent h.indexers (lookup_eq_none.mpr hk)
  allocations k hk :=
    shows_absent h.allocations (allocationsOf_absent hk)
  processors k hk := shows_absent h.processors (lookup_eq_none.mpr hk)
  databases k hk := shows_absent h.databases (lookup_eq_none.mpr hk)
  permissions k hk := shows_absent h.permissions
    (by rw [lookup_eq_none.mpr hk])
  operators k hk :=
    shows_absent h.operators (operatorsOf_absent k hk)

theorem replaceInner_iff {ps : PlainState} {before after : String → Iteration}
    (h : Mirrored s) : Mirrored (s.replaceInner ps before after) ↔ OperatorsSet ps := by
  have hplain : ∀ {V : Type} (m old new : Map String V),
      Mirrors id m (fun k => old.lookup k) →
        Mirrors id (apply m (diff old new)) (fun k => new.lookup k) := by
    intro V m old new hm
    exact (mirrors_apply_diff id _ old new hm
      (fun k hk => lookup_eq_none.mpr hk)).mpr (fun _ => rfl)
  have hops := mirrors_apply_diff operatorView
    (operatorsOf ps) (flattenOperators s.inner.operators) (flattenOperators ps.operators)
    h.operators operatorsOf_absent
  rw [← flatten_shows_iff]
  constructor
  · intro hm
    exact hops.mp hm.operators
  intro hshown
  refine ⟨hplain _ _ _ h.indexers,?_,hplain _ _ _ h.processors,hplain _ _ _ h.databases,
    hplain _ _ _ h.schemas,?_,hops.mpr hshown⟩
  · apply (mirrors_apply_diff allocationView _ _ _ h.allocations _).mpr
    · exact flattenAllocations_shows after
    · intro k hk
      exact allocationsOf_absent (fun hin => hk ((mem_flattenAllocations before).mpr hin))
  apply (mirrors_apply_diff permissionView _ _ _ h.permissions _).mpr
  · intro k
    rfl
  · intro k hk
    rw [lookup_eq_none.mpr hk]

theorem stringKeyMap_change {m n : Map UInt64 IndexerInfo} {id : UInt64}
    (h : ∀ j, j ≠ id → n.lookup j = m.lookup j) {k : String} (hk : k ≠ decimal id) :
    (stringKeyMap n).lookup k = (stringKeyMap m).lookup k := by
  by_cases hj : ∃ j, decimal j = k
  · obtain ⟨j,rfl⟩ := hj
    have hne : j ≠ id := fun he => hk (congrArg decimal he)
    rw [stringKeyMap,stringKeyMap,lookup_mapKeys,lookup_mapKeys,h j hne]
  · have hout : ∀ j, decimal j ≠ k := fun j he => hj ⟨j,he⟩
    rw [stringKeyMap,stringKeyMap,lookup_mapKeys_outside _ hout,lookup_mapKeys_outside _ hout]

theorem upsertIndexerInfo_mirrored (info : IndexerInfo) (h : Mirrored s) :
    Mirrors id (syncKey s.mirror.indexerInfos (decimal info.indexerId) (some info))
      (fun k => (stringKeyMap (s.inner.upsertIndexerInfo info).indexerInfos).lookup k) := by
  apply mirrors_syncKey id _ _ _ h.indexers
  · change some info = (mapKeys _ _ _).lookup (decimal info.indexerId)
    rw [lookup_mapKeys,upsertIndexerInfo,lookup_insert_if,if_pos rfl]
  apply stringKeyMap_change
  intro j hj
  rw [upsertIndexerInfo,lookup_insert_if,if_neg hj]

theorem deleteIndexerInfo_mirrored (indexerId : UInt64) (h : Mirrored s) :
    Mirrors id (syncKey s.mirror.indexerInfos (decimal indexerId) none)
      (fun k => (stringKeyMap (s.inner.deleteIndexerInfo indexerId).indexerInfos).lookup k) := by
  apply mirrors_syncKey id _ _ _ h.indexers
  · change none = (mapKeys _ _ _).lookup (decimal indexerId)
    rw [lookup_mapKeys,deleteIndexerInfo,lookup_erase_if,if_pos rfl]
  apply stringKeyMap_change
  intro j hj
  rw [deleteIndexerInfo,lookup_erase_if,if_neg hj]

variable (inner : PlainState)

/-- An operation that changes the allocations of one processor and sends them. -/
theorem syncProcessorAllocations_mirrored (order : Iteration) (processorId : String)
    (m : Mirrors allocationView s.mirror.processorAllocations (allocationsOf s.inner))
    (hother : ∀ j, j ≠ processorId →
      inner.processorAllocations.lookup j = s.inner.processorAllocations.lookup j) :
    Mirrors allocationView
      (StateMirrored.syncProcessorAllocations {s with inner := inner} order
        processorId).mirror.processorAllocations (allocationsOf inner) := by
  apply mirrors_syncKey allocationView _ _ _ m
  · have hperm := order.2 (((inner.processorAllocations.lookup processorId).map values).getD [])
    split
    · rename_i he
      rw [List.isEmpty_iff.mp he] at hperm
      exact (Multiset.coe_eq_coe.mpr hperm :)
    · exact Multiset.coe_eq_coe.mpr hperm
  · intro j hj
    rw [allocationsOf,allocationsOf,hother j hj]

theorem syncDatabase_mirrored (databaseId : String)
    (m : Mirrors id s.mirror.databases (fun k => s.inner.databases.lookup k))
    (hother : ∀ j, j ≠ databaseId → inner.databases.lookup j = s.inner.databases.lookup j) :
    Mirrors id (StateMirrored.syncDatabase {s with inner := inner} databaseId).mirror.databases
      (fun k => inner.databases.lookup k) :=
  mirrors_syncKey id _ _ _ m rfl hother

variable (account : String)

theorem syncPermissions_mirrored (m : Mirrors permissionView s.mirror.databasePermissions
      (fun k => s.inner.databasePermissions.lookup k)) (hother : ∀ j, j ≠ account →
      inner.databasePermissions.lookup j = s.inner.databasePermissions.lookup j) :
    Mirrors permissionView (StateMirrored.syncAccountDatabasePermissions {s with inner := inner}
      account).mirror.databasePermissions (fun k => inner.databasePermissions.lookup k) :=
  mirrors_syncKey permissionView _ _ _ m permissionView_nonEmpty hother

theorem syncOperators_mirrored
    (m : Mirrors operatorView s.mirror.operators (operatorsOf s.inner)) (hset : OperatorsSet inner)
    (hother : ∀ j, j ≠ account → inner.operators.lookup j = s.inner.operators.lookup j) :
    Mirrors operatorView (StateMirrored.syncOperatorsForAccount {s with inner := inner}
      account).mirror.operators (operatorsOf inner) := by
  apply mirrors_syncKey operatorView _ _ _ m
  · have hshown := flatten_shows_iff.mpr hset account
    rwa [flattenOperators,lookup_filterMapValues] at hshown
  · intro j hj
    rw [operatorsOf,operatorsOf,hother j hj]

variable {f : DatabaseInfo → DatabaseInfo} {databaseId : String}

theorem changeDatabase_spec {s t : PlainState} (h : s.changeDatabase databaseId f = some t) :
    ∃ m, t = {s with databases := m} ∧
      ∀ j, j ≠ databaseId → m.lookup j = s.databases.lookup j := by
  obtain ⟨info,-,rfl⟩ := Option.map_eq_some_iff.mp h
  refine ⟨_,rfl,fun j hj => ?_⟩
  rw [lookup_insert_if,if_neg hj]

theorem changeDatabase_mirrored {t : PlainState} (h : Mirrored s)
    (hc : s.inner.changeDatabase databaseId f = some t) :
    Mirrored (StateMirrored.syncDatabase {s with inner := t} databaseId) := by
  obtain ⟨m,rfl,hother⟩ := changeDatabase_spec hc
  exact {h with databases := syncDatabase_mirrored _ databaseId h.databases hother}

theorem changeDatabase_set {s t : PlainState} (h : OperatorsSet s)
    (hc : s.changeDatabase databaseId f = some t) : OperatorsSet t := by
  obtain ⟨m,rfl,-⟩ := changeDatabase_spec hc
  exact h

variable {accounts : List String}

theorem syncAll_permissions :
    accounts.foldl StateMirrored.syncAccountDatabasePermissions s =
      {s with
        mirror.databasePermissions := accounts.foldl (fun m account =>
          syncKey m account ((s.inner.databasePermissions.lookup account).bind nonEmpty))
            s.mirror.databasePermissions} := by
  induction accounts generalizing s with
  | nil => rfl
  | cons account rest ih =>
    rw [List.foldl_cons,ih]
    rfl

theorem lookup_syncAll {entry : String → Option (Map String String)}
    {m : Map String (Map String String)} :
    (accounts.foldl (fun m account => syncKey m account (entry account)) m).lookup k =
      if k ∈ accounts then entry k else m.lookup k := by
  induction accounts generalizing m with
  | nil => simp
  | cons account rest ih =>
    rw [List.foldl_cons,ih,lookup_syncKey]
    by_cases hr : k ∈ rest
    · simp [hr]
    by_cases hk : k = account
    · simp [hk]
    · simp [hk]

theorem unaffected_permissions {account : String}
    (h : account ∉ s.affectedAccounts databaseId) :
    (s.inner.deleteDatabase databaseId).databasePermissions.lookup account =
      s.inner.databasePermissions.lookup account := by
  rw [deleteDatabase,lookup_filterMapValues]
  rcases hp : s.inner.databasePermissions.lookup account with _ | perms
  · rfl
  have hnot : databaseId ∉ perms.keys := by
    intro hin
    apply h
    have hmem := List.of_mem_dlookup (Option.mem_def.mpr hp)
    exact List.mem_map.mpr ⟨_,List.mem_filter.mpr ⟨hmem,by simpa using hin⟩,rfl⟩
  simp [dropPermission,hnot]

theorem deleteDatabase_mirrored (h : Mirrored s) :
    Mirrored (s.deleteDatabase databaseId) := by
  rw [StateMirrored.deleteDatabase,syncAll_permissions]
  refine {h with databases := ?_, permissions := ?_}
  · apply syncDatabase_mirrored _ databaseId h.databases
    intro j hj
    rw [deleteDatabase,lookup_erase_if,if_neg hj]
  intro account
  refine (congrArg permissionView lookup_syncAll).trans ?_
  split
  · exact permissionView_nonEmpty
  rename_i hin
  refine (h.permissions account).trans ?_
  exact congrArg permissionView (unaffected_permissions hin).symm

theorem addOperator_set {s : PlainState} (account signer : String) (h : OperatorsSet s) :
    OperatorsSet (s.addOperator account signer) := by
  intro a ops hops x hx
  rw [addOperator,lookup_insert_if] at hops
  by_cases ha : a = account
  · rw [if_pos ha] at hops
    cases hops
    rw [lookup_insert_if]
    by_cases hs : x = signer
    · rw [if_pos hs]
    rw [if_neg hs]
    have hx' := (mem_insert _).mp (mem_keys.mpr hx)
    have hin := hx'.resolve_left hs
    cases hold : s.operators.lookup account with
    | none =>
      rw [hold] at hin
      exact absurd hin (notMem_empty x)
    | some old =>
      rw [hold] at hin
      exact h account old hold x (mem_keys.mp hin)
  · rw [if_neg ha] at hops
    exact h a ops hops x hx

theorem removeOperator_set {s : PlainState} (account signer : String) (h : OperatorsSet s) :
    OperatorsSet (s.removeOperator account signer) := by
  intro a ops hops x hx
  rw [removeOperator] at hops
  rcases hold : s.operators.lookup account with _ | old
  · rw [hold] at hops
    exact h a ops hops x hx
  rw [hold] at hops
  rw [lookup_deleteNested] at hops
  by_cases ha : a = account
  · rw [if_pos ha,nonEmpty] at hops
    split at hops
    · cases hops
    cases hops
    obtain ⟨hne,hin⟩ := mem_erase.mp (mem_keys.mpr hx)
    rw [lookup_erase_ne hne]
    exact h account old hold x (mem_keys.mp hin)
  · rw [if_neg ha] at hops
    exact h a ops hops x hx

theorem removeOperator_spec {s : PlainState} {account signer : String} :
    ∃ m, s.removeOperator account signer = {s with operators := m} ∧
      ∀ j, j ≠ account → m.lookup j = s.operators.lookup j := by
  rw [removeOperator]
  cases s.operators.lookup account with
  | none => exact ⟨s.operators,rfl,fun _ _ => rfl⟩
  | some ops =>
    refine ⟨_,rfl,fun j hj => ?_⟩
    rw [lookup_deleteNested,if_neg hj]

theorem deletePermission_spec {s : PlainState} {account : String} :
    ∃ m, s.deleteDatabasePermission account databaseId = {s with databasePermissions := m} ∧
      ∀ j, j ≠ account → m.lookup j = s.databasePermissions.lookup j := by
  rw [deleteDatabasePermission]
  cases s.databasePermissions.lookup account with
  | none => exact ⟨s.databasePermissions,rfl,fun _ _ => rfl⟩
  | some perms =>
    refine ⟨_,rfl,fun j hj => ?_⟩
    rw [lookup_deleteNested,if_neg hj]

/-- The mirror shows the state, and no signer is switched off. -/
structure Sound (s : StateMirrored) : Prop where
  mirrored : Mirrored s
  set : OperatorsSet s.inner

theorem changeDatabase_sound {t : PlainState} (h : Sound s)
    (hc : s.inner.changeDatabase databaseId f = some t) :
    Sound (StateMirrored.syncDatabase {s with inner := t} databaseId) :=
  ⟨changeDatabase_mirrored h.mirrored hc,changeDatabase_set h.set hc⟩

/-- A state that replaces the inner one has no signer switched off. -/
def OpSet : Op → Prop
  | .replaceInner ps _ _ => OperatorsSet ps
  | _ => True

theorem syncMirror_sound {order : String → Iteration} (h : Sound s) : Sound (s.syncMirror order) :=
  ⟨(syncMirror_iff s order).mpr ⟨mirrored_noStale h.mirrored,h.set⟩,h.set⟩

theorem insert_other {m : Map String V} {v : V} (j : String)
    (hj : j ≠ k) : (m.insert k v).lookup j = m.lookup j := lookup_insert_ne hj

theorem erase_other {m : Map String V} (j : String) (hj : j ≠ k) :
    (m.erase k).lookup j = m.lookup j := lookup_erase_ne hj

variable (t : StateMirrored)

theorem step_sound (op : Op) (h : Sound s) (hop : OpSet op) (hs : step s op = some t) : Sound t := by
  have hm := h.mirrored
  cases op with
  | upsertIndexerInfo info =>
    cases hs
    have hnew := upsertIndexerInfo_mirrored info hm
    exact ⟨{hm with indexers := hnew},h.set⟩
  | deleteIndexerInfo indexerId =>
    cases hs
    have hnew := deleteIndexerInfo_mirrored indexerId hm
    exact ⟨{hm with indexers := hnew},h.set⟩
  | upsertProcessorAllocation a order =>
    cases hs
    have hnew := syncProcessorAllocations_mirrored (s.inner.upsertProcessorAllocation a) order
      a.processorId hm.allocations insert_other
    exact ⟨{hm with allocations := hnew},h.set⟩
  | deleteProcessorAllocation processorId indexerId order =>
    obtain ⟨inner,hi,rfl⟩ := Option.map_eq_some_iff.mp hs
    obtain ⟨byIndexer,-,rfl⟩ := Option.map_eq_some_iff.mp hi
    have hother : ∀ j, j ≠ processorId →
        (deleteNested s.inner.processorAllocations processorId byIndexer indexerId).lookup j =
          s.inner.processorAllocations.lookup j := by
      intro j hj
      rw [lookup_deleteNested,if_neg hj]
    have hnew := syncProcessorAllocations_mirrored {s.inner with processorAllocations := _} order
      processorId hm.allocations hother
    exact ⟨{hm with allocations := hnew},h.set⟩
  | upsertProcessorInfo info =>
    cases hs
    have hinfo : (s.inner.upsertProcessorInfo info).processorInfos.lookup info.processorId =
        some info := lookup_insert _
    have hnew := mirrors_syncKey id
      (fun k => (s.inner.upsertProcessorInfo info).processorInfos.lookup k)
      info.processorId (some info) hm.processors hinfo.symm insert_other
    exact ⟨{hm with processors := hnew},h.set⟩
  | deleteProcessorInfo processorId =>
    cases hs
    have hnone : (s.inner.deleteProcessorInfo processorId).processorInfos.lookup processorId =
        none := lookup_erase _ _
    have hnew := mirrors_syncKey id
      (fun k => (s.inner.deleteProcessorInfo processorId).processorInfos.lookup k)
      processorId none hm.processors hnone.symm erase_other
    exact ⟨{hm with processors := hnew},h.set⟩
  | updateLastBlock | upsertHostedProcessor | deleteHostedProcessor =>
    cases hs
    exact ⟨{hm with},h.set⟩
  | upsertDatabase info =>
    cases hs
    have hnew := syncDatabase_mirrored (s.inner.upsertDatabase info) info.databaseId
      hm.databases insert_other
    exact ⟨{hm with databases := hnew},h.set⟩
  | deleteDatabase databaseId =>
    cases hs
    refine ⟨deleteDatabase_mirrored hm,?_⟩
    rw [StateMirrored.deleteDatabase,syncAll_permissions]
    exact h.set
  | markDatabasePendingDelete | upsertDatabaseTable =>
    obtain ⟨inner,hi,rfl⟩ := Option.map_eq_some_iff.mp hs
    exact changeDatabase_sound h hi
  | deleteDatabaseTable databaseId tableId =>
    cases hs
    rw [deleteDatabaseTable]
    cases hc : s.inner.changeDatabase databaseId (fun info =>
        {info with tables := info.tables.filter (fun t => t.tableId ≠ tableId)}) with
    | none =>
      have hnew := syncDatabase_mirrored s.inner databaseId hm.databases (fun _ _ => rfl)
      exact ⟨{hm with databases := hnew},h.set⟩
    | some inner => exact changeDatabase_sound h hc
  | upsertTableSchema info =>
    cases hs
    have hnew := mirrors_syncKey id
      (fun k => (s.inner.upsertTableSchema info).tableSchemas.lookup k)
      (tableSchemaKey info.databaseId info.tableId info.version) _ hm.schemas rfl
      insert_other
    exact ⟨{hm with schemas := hnew},h.set⟩
  | setDatabasePermission account databaseId permission =>
    cases hs
    have hnew := syncPermissions_mirrored
      (s.inner.setDatabasePermission account databaseId permission) account hm.permissions
      insert_other
    exact ⟨{hm with permissions := hnew},h.set⟩
  | deleteDatabasePermission account databaseId =>
    cases hs
    obtain ⟨m,hi,hother⟩ := deletePermission_spec
    rw [hi]
    have hnew := syncPermissions_mirrored {s.inner with databasePermissions := m} account
      hm.permissions hother
    exact ⟨{hm with permissions := hnew},h.set⟩
  | addOperator account signer =>
    cases hs
    have hset := addOperator_set account signer h.set
    have hnew := syncOperators_mirrored (s.inner.addOperator account signer) account
      hm.operators hset insert_other
    exact ⟨{hm with operators := hnew},hset⟩
  | removeOperator account signer =>
    cases hs
    have hset := removeOperator_set account signer h.set
    obtain ⟨m,hi,hother⟩ := removeOperator_spec
    rw [hi] at hset ⊢
    have hnew := syncOperators_mirrored {s.inner with operators := m} account hm.operators hset
      hother
    exact ⟨{hm with operators := hnew},hset⟩
  | syncMirror order =>
    cases hs
    exact syncMirror_sound h
  | replaceInner ps before after =>
    cases hs
    exact ⟨(replaceInner_iff hm).mpr hop,hop⟩

variable {ops : List Op}

theorem run_sound (s : StateMirrored) {t : StateMirrored} (h : Sound s)
    (hops : ∀ op ∈ ops, OpSet op) (hrun : run step s ops = some t) : Sound t := by
  induction ops generalizing s with
  | nil => exact Option.some.inj hrun ▸ h
  | cons op rest ih =>
    obtain ⟨m,hm,hr⟩ := run_cons step s t op rest hrun
    exact ih m (step_sound m op h (hops op (by simp)) hm) (fun o ho => hops o (by simp [ho])) hr

/-- A replacement that leaves the mirror showing the state brings no signer switched off. -/
theorem opSet_of_mirrored {op : Op} (h : Mirrored s) (ht : Mirrored t)
    (hs : step s op = some t) : OpSet op := by
  cases op with
  | replaceInner ps before after =>
    cases hs
    exact (replaceInner_iff h).mp ht
  | _ => trivial

theorem ops_set (hrun : run step s ops = some t)
    (h : ∀ front back u, ops = front++back → run step s front = some u → Mirrored u) :
    ∀ op ∈ ops, OpSet op := by
  induction ops generalizing s with
  | nil => simp
  | cons op rest ih =>
    obtain ⟨m,hm,hr⟩ := run_cons step s t op rest hrun
    have hs : Mirrored s := h [] (op::rest) s rfl rfl
    have hone : run step s [op] = some m := by simp [run,hm]
    have hnext : Mirrored m := h [op] rest m rfl hone
    intro o ho
    rcases List.mem_cons.mp ho with rfl | ho
    · exact opSet_of_mirrored m hs hnext hm
    · refine ih hr (fun front back u hsplit hu => ?_) o ho
      exact h (op::front) back u (by rw [hsplit]; rfl) (by simp [run,hm,hu])

/-- The mirror shows the states exactly if it held nothing stale at the start and no state had a
signer switched off. -/
theorem mirror_follows_state_iff (state : PlainState) (mirror : Mirror)
    (order : String → Iteration) (ops : List Op) (final : StateMirrored)
    (hrun : run step (newStateMirrored state mirror order) ops = some final) :
    (∀ front back s, ops = front++back →
      run step (newStateMirrored state mirror order) front = some s → Mirrored s) ↔
    NoStale state mirror ∧ OperatorsSet state ∧ ∀ op ∈ ops, OpSet op := by
  have hstart := syncMirror_iff ⟨state,mirror⟩ order
  constructor
  · intro h
    obtain ⟨hclean,hset⟩ := hstart.mp (h [] ops _ rfl rfl)
    refine ⟨hclean,hset,?_⟩
    exact ops_set final hrun h
  rintro ⟨hclean,hset,hops⟩ front back s rfl hs
  have hsound : Sound (newStateMirrored state mirror order) :=
    ⟨hstart.mpr ⟨hclean,hset⟩,hset⟩
  have hfront : ∀ op ∈ front, OpSet op := fun op hop => hops op (by simp [hop])
  exact (run_sound _ hsound hfront hs).mirrored

def emptyState : PlainState := ⟨0,∅,∅,∅,∅,∅,∅,∅,∅⟩

def emptyMirror : Mirror := ⟨∅,∅,∅,∅,∅,∅,∅⟩

def sameOrder (_ : String) : Iteration := ⟨id,fun l => List.Perm.refl l⟩

/-- An operator left in the mirror by an earlier state stays visible to readers. -/
theorem stale_operator_stays : (newStateMirrored emptyState
      {emptyMirror with operators := singleton "owner" ["signer"]}
      sameOrder).mirror.operators.lookup "owner" = some ["signer"] ∧
    emptyState.isOperator "owner" "signer" = false := by
  decide +kernel

theorem mirror_follows_state_small :
    ∃ final, run step (newStateMirrored emptyState emptyMirror sameOrder)
      [.addOperator "owner" "signer",.setDatabasePermission "owner" "db" "read",
        .deleteDatabase "db",.removeOperator "owner" "signer"] = some final ∧
    ((∀ front back s, [Op.addOperator "owner" "signer",.setDatabasePermission "owner" "db" "read",
        .deleteDatabase "db",.removeOperator "owner" "signer"] = front++back →
      run step (newStateMirrored emptyState emptyMirror sameOrder) front = some s → Mirrored s) ↔
    NoStale emptyState emptyMirror ∧ OperatorsSet emptyState ∧
      ∀ op ∈ [Op.addOperator "owner" "signer",.setDatabasePermission "owner" "db" "read",
        .deleteDatabase "db",.removeOperator "owner" "signer"], OpSet op) :=
  ⟨_,rfl,mirror_follows_state_iff emptyState emptyMirror sameOrder _ _ rfl⟩

open StateMirrored (failReplace diffPart)

section
variable {x : Mapping}

theorem get_replaceInner {ps : PlainState} {before after : String → Iteration} :
    (s.replaceInner ps before after).mirror.get x =
      apply (s.mirror.get x) (diff ((s.inner.projection before).get x)
        ((ps.projection after).get x)) := by
  cases x <;> rfl

theorem mem_projection {s : PlainState} (order before : String → Iteration) :
    k ∈ (s.projection before).get x ↔ k ∈ (s.projection order).get x := by
  cases x with
  | processorAllocations =>
    exact (mem_flattenAllocations before).trans (mem_flattenAllocations order).symm
  | _ => rfl

theorem attempts_inner {attempts : List Attempt} (s : StateMirrored) :
    (attempts.foldl failReplace s).inner = s.inner := by
  induction attempts generalizing s with
  | nil => rfl
  | cons a rest ih => exact ih (s.failReplace a)

/-- No failed call deletes what an earlier one added. -/
theorem mem_attempts (attempts : List Attempt)
    (hk : k ∉ (s.inner.projection order).get x) :
    k ∈ (attempts.foldl failReplace s).mirror.get x ↔ k ∈ s.mirror.get x ∨
      ∃ a ∈ attempts, 2*x.ctorIdx+1 < a.ran ∧ k ∈ (a.ps.projection a.after).get x := by
  induction attempts generalizing s with
  | nil => simp
  | cons a rest ih =>
    have hget : (s.failReplace a).mirror.get x = s.diffPart a x := by cases x <;> rfl
    have hran : 1 < a.ran-2*x.ctorIdx ↔ 2*x.ctorIdx+1 < a.ran := by omega
    rw [List.foldl_cons,ih (s := s.failReplace a) hk,hget,diffPart,
      mem_applyPart _ (mt (mem_projection order a.before).mp hk),hran]
    simp [or_assoc]

end

/-- A replacement after failed ones brings the mirror to the new state exactly if the old or the
new state has every key that they added. -/
theorem replaceInner_retried_iff (s : StateMirrored) (order before after : String → Iteration)
    (ps : PlainState) (attempts : List Attempt)
    (h : ∀ x k, (s.mirror.get x).lookup k = ((s.inner.projection order).get x).lookup k) :
    (attempts.foldl failReplace s).inner = s.inner ∧
    ((∀ x k, (((attempts.foldl failReplace s).replaceInner ps before after).mirror.get x).lookup k =
        ((ps.projection after).get x).lookup k) ↔
      ∀ a ∈ attempts, ∀ x, 2*x.ctorIdx+1 < a.ran → ∀ k ∈ (a.ps.projection a.after).get x,
        k ∈ (s.inner.projection order).get x ∨ k ∈ (ps.projection after).get x) := by
  refine ⟨attempts_inner s,?_⟩
  simp only [get_replaceInner,apply_diff_iff,attempts_inner,mem_projection order before]
  constructor
  · intro hreach a ha x hran k hk
    by_contra hno
    have hin := (mem_attempts order attempts (not_or.mp hno).1).mpr (.inr ⟨a,ha,hran,hk⟩)
    exact hno (hreach x k hin)
  intro hkeys x k hk
  by_contra hno
  rcases (mem_attempts order attempts (not_or.mp hno).1).mp hk with hm | ⟨a,ha,hran,hin⟩
  · rw [← lookup_isSome,h,lookup_isSome] at hm
    exact hno (.inl hm)
  · exact hno (hkeys a ha x hran k hin)

def oneProcessor : PlainState :=
  {emptyState with processorInfos := singleton "p" ⟨"p","",0⟩}

def broken : StateMirrored :=
  failReplace ⟨emptyState,emptyMirror⟩ ⟨oneProcessor,sameOrder,sameOrder,6⟩

theorem replaceInner_retried_same : (broken.replaceInner oneProcessor sameOrder
      sameOrder).mirror.processorInfos.lookup "p" = some ⟨"p","",0⟩ :=
  (replaceInner_retried_iff ⟨emptyState,emptyMirror⟩ sameOrder sameOrder sameOrder oneProcessor
    [⟨oneProcessor,sameOrder,sameOrder,6⟩] (fun x _ => by cases x <;> rfl)).2.mpr
    (fun _ ha _ _ _ hk => by cases List.mem_singleton.mp ha; exact .inr hk) .processorInfos "p"

/-- The processor of a failed call stays when the next state does not have it. -/
theorem replaceInner_leaves_processor : (broken.replaceInner emptyState sameOrder
      sameOrder).mirror.processorInfos.lookup "p" = some ⟨"p","",0⟩ ∧
    emptyState.processorInfos.lookup "p" = none := by
  decide +kernel

end Sentio.MirrorRuns
