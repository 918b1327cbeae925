import SentioCore.KeyedRows
import SentioCore.ResourceHeap

/-!
# Conservation of the resource

In every run what is free and what is held add up to the maximum, no request
is known twice, and a request that has left is never seen again.
-/

namespace Sentio.ResourceManager
open Transition HeapOrder List Prod

variable (m : Manager)

def waiting : List ℕ := m.waiters.map Waiter.index

def holders : List ℕ := m.held.map fst

def ids : List ℕ := waiting m++holders m

def Grants (act : Action) (t : Manager) (id : ℕ) : Prop :=
  step m act = some t ∧ id ∉ holders m ∧ id ∈ holders t

/-- What is granted next is not granted again in any continuation. -/
def GrantsOnce : Prop :=
  ∀ act t id later u act' v, Grants m act t id → run step t later = some u → ¬Grants u act' v id

/-- A request that is cancelled after its grant gives back its amount, and nothing later. -/
def ReturnsOnce : Prop :=
  ∀ e ∈ m.held, freed m (.cancel e.1) = some (returned m e) ∧
    ∀ t later u, step m (.cancel e.1) = some t → run step t later = some u →
      step u (.release e.1) = none ∧ step u (.cancel e.1) = none

structure Sound (total : ℕ) (m : Manager) : Prop where
  free : 0 ≤ m.curResource
  conserved : m.curResource+(m.held.map snd).sum = total
  heap : Heap (rank m.waiters)
  distinct : (ids m).Nodup
  known : ∀ id ∈ ids m, id < m.count

/-- No old request comes back, to the queue or at all. -/
def Follows (m t : Manager) : Prop :=
  m.count ≤ t.count ∧
    ∀ id < m.count, (id ∈ waiting t → id ∈ waiting m) ∧ (id ∈ ids t → id ∈ ids m)

variable {total : ℕ} {m t u : Manager} {act : Action} {id : ℕ} {e : ℕ × ℕ}

theorem follows_refl : Follows m m := ⟨le_rfl,fun _ _ => ⟨fun h => h,fun h => h⟩⟩

theorem follows_trans (h : Follows m t) (h' : Follows t u) : Follows m u := by
  refine ⟨h.1.trans h'.1,fun i hi => ?_⟩
  have h1 := h.2 i hi
  have h2 := h'.2 i (hi.trans_le h.1)
  exact ⟨fun hu => h1.1 (h2.1 hu),fun hu => h1.2 (h2.2 hu)⟩

theorem ids_returned (he : e ∈ m.held) : (e.1::ids (returned m e)).Perm (ids m) :=
  perm_middle.symm.trans (((perm_cons_erase he).map fst).symm.append_left (waiting m))

section
variable (h : Sound total m)
include h

theorem sound_move {k : ℕ} (gone : List ℕ) (hc : t.count = m.count+k)
    (hp : (gone++ids t).Perm (range' m.count k++ids m))
    (hw : waiting t ⊆ range' m.count k++waiting m) (hfree : 0 ≤ t.curResource)
    (hsum : t.curResource+(t.held.map snd).sum = total) (hheap : Heap (rank t.waiters)) :
    Sound total t ∧ Follows m t := by
  have hnew : ∀ i ∈ range' m.count k, m.count ≤ i ∧ i < m.count+k := by simp
  have hd : (gone++ids t).Nodup := hp.nodup_iff.mpr ((nodup_range' ..).append h.distinct
    (fun i hi hm => (hnew i hi).1.not_gt (h.known i hm)))
  have hin : ∀ i ∈ ids t, i ∈ range' m.count k ∨ i ∈ ids m :=
    fun i hi => mem_append.mp (hp.subset (mem_append_right _ hi))
  refine ⟨⟨hfree,hsum,hheap,hd.of_append_right,fun i hi => ?_⟩,by omega,
    fun i hi => ⟨fun ht => ?_,fun ht => ?_⟩⟩
  · rcases hin i hi with hi | hi
    · exact hc ▸ (hnew i hi).2
    · have := h.known i hi
      omega
  · exact (mem_append.mp (hw ht)).resolve_left (fun hr => (hnew i hr).1.not_gt hi)
  · exact (hin i ht).resolve_left (fun hr => (hnew i hr).1.not_gt hi)

theorem sound_apply (priority : ℤ) (num : ℕ) :
    Sound total (apply m priority num) ∧ Follows m (apply m priority num) := by
  have hsum := h.conserved
  unfold apply
  split
  · exact ⟨h,follows_refl⟩
  split
  · refine sound_move (k := 1) h [] rfl perm_middle (subset_cons_self _ _) ?_ ?_ h.heap
    · dsimp only
      omega
    · simp only [map_cons,sum_cons]
      omega
  · have hw := (add_perm m.waiters ⟨priority,m.count,num⟩).map Waiter.index
    exact sound_move (k := 1) h [] rfl (hw.append_right (holders m)) hw.subset h.free hsum
      (add_heap _ h.heap)

theorem sound_returned (he : e ∈ m.held) :
    Sound total (returned m e) ∧ Follows m (returned m e) := by
  have hfree := h.free
  have hsum := h.conserved
  rw [((perm_cons_erase he).map snd).sum_eq,map_cons,sum_cons] at hsum
  refine sound_move (k := 0) h [e.1] rfl (ids_returned he) (Subset.refl _) ?_ ?_ h.heap
  · dsimp only [returned]
    omega
  · dsimp only [returned]
    omega

theorem sound_freed (hf : freed m act = some t) : Sound total t ∧ Follows m t := by
  have hreturn : ∀ i, (heldBy m i).map (returned m) = some t → Sound total t ∧ Follows m t := by
    intro i hi
    obtain ⟨e,he,rfl⟩ := Option.map_eq_some_iff.mp hi
    exact sound_returned h (mem_of_find?_eq_some he)
  cases act with
  | apply priority num => cases hf
  | release i => exact hreturn i hf
  | cancel i =>
    rw [freed,cancelled] at hf
    split at hf
    · rename_i k hk
      have hk := (findIdx?_eq_some_iff_getElem.mp hk).1
      have hp := (removeWaiterAt_perm (List.getElem?_eq_getElem hk)).map Waiter.index
      cases hf
      exact sound_move (k := 0) h [m.waiters[k].index] rfl (hp.append_right (holders m)).symm
        (fun i hi => hp.symm.subset (mem_cons_of_mem _ hi)) h.free h.conserved
        (removeWaiterAt_heap hk h.heap)
    · exact hreturn i hf

theorem sound_grantLocked : Sound total (grantLocked m) ∧ Follows m (grantLocked m) := by
  unfold grantLocked
  split
  · exact ⟨h,follows_refl⟩
  rename_i w rest hm
  split
  · exact ⟨h,follows_refl⟩
  have hw : m.waiters[0]? = some w := by simp [hm]
  have hp := (removeWaiterAt_perm hw).map Waiter.index
  have hsum := h.conserved
  refine sound_move (k := 0) h [] rfl (perm_middle.trans (hp.append_right (holders m)).symm)
    (fun i hi => hp.symm.subset (mem_cons_of_mem _ hi)) ?_ ?_
    (removeWaiterAt_heap (List.getElem?_eq_some_iff.mp hw).1 h.heap)
  · dsimp only
    omega
  · simp only [map_cons,sum_cons]
    omega

theorem sound_step (hs : step m act = some t) : Sound total t ∧ Follows m t := by
  have hgrant : ∀ act, (freed m act).map grantLocked = some t → Sound total t ∧ Follows m t := by
    intro act ha
    obtain ⟨f,hf,rfl⟩ := Option.map_eq_some_iff.mp ha
    obtain ⟨h1,h2⟩ := sound_freed h hf
    obtain ⟨h3,h4⟩ := sound_grantLocked h1
    exact ⟨h3,follows_trans h2 h4⟩
  cases act with
  | apply priority num => exact Option.some.inj hs ▸ sound_apply h priority num
  | release i => exact hgrant (.release i) hs
  | cancel i => exact hgrant (.cancel i) hs

theorem sound_run {acts : List Action} (hr : run step m acts = some t) :
    Sound total t ∧ Follows m t :=
  run_invariant step (fun t => Sound total t ∧ Follows m t)
    (fun _ _ _ hs ht => ⟨(sound_step hs.1 ht).1,follows_trans hs.2 (sound_step hs.1 ht).2⟩)
    acts m t ⟨h,follows_refl⟩ hr

theorem not_waiting (hi : id ∈ holders m) : id ∉ waiting m :=
  fun hw => disjoint_of_nodup_append h.distinct hw hi

theorem grants_once : GrantsOnce m := by
  rintro act t id later u act' v ⟨hs,-,hid⟩ hr ⟨hs',hu,hv⟩
  have ht := (sound_step h hs).1
  obtain ⟨hsound,hf⟩ := sound_run ht hr
  have hc := ht.known id (mem_append_right _ hid)
  have hold := ((sound_step hsound hs').2.2 id (hc.trans_le hf.1)).2 (mem_append_right _ hv)
  rcases mem_append.mp hold with hw | hh
  · exact not_waiting ht hid ((hf.2 id hc).1 hw)
  · exact hu hh

theorem root_first {w v : Waiter} (hw : w ∈ m.waiters.head?) (hv : v ∈ m.waiters) (hne : v ≠ w) :
    inFront w v := by
  rw [head?_eq_getElem?] at hw
  obtain ⟨i,hi⟩ := mem_iff_getElem?.mp hv
  have hle := h.heap.root_le i
  rw [rank_some hw,rank_some hi,WithTop.coe_le_coe] at hle
  refine inFront_iff.mpr (lt_of_le_of_ne hle (fun hk => hne ?_))
  have hinj := inj_on_of_nodup_map h.distinct.of_append_left
  exact hinj hv (mem_of_getElem? hw) (congrArg (fun k => (ofLex k).2) hk).symm

end

theorem findIdx_none (h : id ∉ waiting m) : m.waiters.findIdx? (fun w => w.index = id) = none := by
  rw [findIdx?_eq_none_iff]
  intro w hw
  exact decide_eq_false (fun hid => h (mem_map.mpr ⟨w,hw,hid⟩))

theorem gone_disabled (h : id ∉ ids m) :
    step m (.release id) = none ∧ step m (.cancel id) = none := by
  have hw := findIdx_none (fun hw => h (mem_append_left _ hw))
  have hh : heldBy m id = none := by
    rw [heldBy,find?_eq_none]
    intro e he hid
    exact h (mem_append_right _ (mem_map.mpr ⟨e,he,of_decide_eq_true hid⟩))
  simp [step,freed,cancelled,hh,hw]

theorem returns_once (h : Sound total m) : ReturnsOnce m := by
  intro e he
  have hid : e.1 ∈ holders m := mem_map_of_mem he
  have hheld : heldBy m e.1 = some e :=
    (KeyedRows.mem_iff_lookup fst h.distinct.of_append_right e).mp he
  have hfreed : freed m (.cancel e.1) = some (returned m e) := by
    simp [freed,cancelled,findIdx_none (not_waiting h hid),hheld]
  refine ⟨hfreed,fun t later u ht hr => gone_disabled (fun hu => ?_)⟩
  obtain ⟨hg,hf⟩ := sound_grantLocked (sound_returned h he).1
  have hn := (nodup_cons.mp ((ids_returned he).nodup_iff.mpr h.distinct)).1
  rw [step,hfreed] at ht
  cases ht
  have hc := h.known e.1 (mem_append_right _ hid)
  exact hn (((follows_trans hf (sound_run hg hr).2).2 e.1 hc).2 hu)

/-- In every state of every run the resource is conserved and the waiters are
in heap order; no request is granted twice or gives back twice. -/
theorem resource_conserved (resourceCount : ℕ) (acts : List Action) (m : Manager)
    (h : run step (newResourceManager resourceCount) acts = some m) :
    0 ≤ m.curResource ∧ m.curResource+(m.held.map snd).sum = resourceCount ∧
      GrantsOnce m ∧ ReturnsOnce m ∧ (∀ i, 0 < i → ahead m.waiters i ((i-1)/2) = false) ∧
      ∀ w ∈ m.waiters.head?, ∀ v ∈ m.waiters, v ≠ w → inFront w v := by
  have hnew : Sound resourceCount (newResourceManager resourceCount) :=
    ⟨Int.natCast_nonneg _,by simp [newResourceManager],fun _ => le_rfl,nodup_nil,
      fun _ h => absurd h not_mem_nil⟩
  have hs := (sound_run hnew h).1
  refine ⟨hs.free,hs.conserved,grants_once hs,returns_once hs,fun i _ => ?_,
    fun w hw v hv => root_first hs hw hv⟩
  rw [← Bool.not_eq_true,ahead_iff (by omega)]
  exact not_lt.mpr (hs.heap i)

/-- A request for one waits behind a request for two and is granted by its release. -/
theorem resource_conserved_granted : ∃ m, run step (newResourceManager 2)
      [.apply 0 2,.apply 0 1,.apply 0 1,.release 0] = some m ∧ m.held = [(1,1)] ∧
      0 ≤ m.curResource ∧ ReturnsOnce m :=
  have h := resource_conserved 2 [.apply 0 2,.apply 0 1,.apply 0 1,.release 0] _ rfl
  ⟨_,rfl,by decide,h.1,h.2.2.2.1⟩

end Sentio.ResourceManager
