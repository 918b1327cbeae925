import SentioCore.TaskModel

/-!
# Reads see the writes of all earlier tasks

Every initialised task that has not succeeded is held by one of the two waiters:
by its index until its partition is announced, by its partition and index
afterwards.
-/

namespace Sentio.TaskOrder
open TaskModel Resource Transition Function
open Option (some.inj some.injEq map_eq_some_iff)

def uncleared : Phase → Bool
  | .initialized | .bound | .partitioned | .registered => true
  | _ => false

def unfinished : Phase → Bool
  | .registered | .announced | .waitingReady _ _ | .recountingReady _ | .processing
  | .waitingFinish _ _ | .recountingFinish _ | .executing => true
  | _ => false

def pastReady : Phase → Bool
  | .waitingReady _ 0 | .processing | .waitingFinish _ _ | .recountingFinish _ | .executing => true
  | _ => false

def pastFinish : Phase → Bool
  | .waitingFinish _ 0 | .executing => true
  | _ => false

def Held (partitionMode : Bool) (ready : ResourceWaiter ℕ) (finish : ResourceWaiter (String × ℕ))
    (t : ℕ) (task : Task) : Prop :=
  (uncleared task.phase → partitionMode → t ∈ ready.notReady) ∧
  (uncleared task.phase → partitionMode = false → (task.partition,t) ∈ finish.notReady) ∧
  (unfinished task.phase → (task.partition,t) ∈ finish.notReady) ∧
  (task.phase = .failed → (partitionMode ∧ t ∈ ready.notReady) ∨
    (task.partition,t) ∈ finish.notReady)

structure Inv (partitionMode : Bool) (base : ℕ) (s : State) : Prop where
  born : ∀ t, (s.tasks t).phase ≠ .unborn ↔ base ≤ t ∧ t < s.next
  held : ∀ t, Held partitionMode s.ready s.finish t (s.tasks t)
  cleared : partitionMode → ∀ t, pastReady (s.tasks t).phase →
    ∀ u < t, u ∉ s.ready.notReady
  free : ∀ t, pastFinish (s.tasks t).phase →
    ∀ u < t, ((s.tasks t).partition,u) ∉ s.finish.notReady
  single : partitionMode = false → ∀ t, (s.tasks t).partition = ""
  unpartitioned : partitionMode = false → ∀ t,
    (s.tasks t).phase ≠ .bound ∧ (s.tasks t).phase ≠ .partitioned

variable {ph : Phase}

theorem pastFinish_pastReady (h : pastFinish ph) : pastReady ph := by
  cases ph <;> simp_all [pastFinish,pastReady]

theorem init_inv (partitionMode : Bool) (base : ℕ) : Inv partitionMode base (init base) where
  born := by
    simp only [init,ne_eq,not_true,false_iff]
    omega
  held := by simp [init,Held,uncleared,unfinished]
  cleared := by simp [init,pastReady]
  free := by simp [init,pastFinish]
  single := by simp [init]
  unpartitioned := by simp [init]

variable {base : ℕ} {partitionMode : Bool} {s : State} {ready : ResourceWaiter ℕ}

/-- Any change of one initialised task that keeps the other tasks held, and
announces at most that task while its index is still uncleared. -/
theorem change_inv {t : ℕ} {task : Task} {finish : ResourceWaiter (String × ℕ)}
    (hi : Inv partitionMode base s) (hb : (s.tasks t).phase ≠ .unborn) (hp : task.phase ≠ .unborn)
    (hr : ∀ u, u ∈ ready.notReady → u ∈ s.ready.notReady)
    (hrk : ∀ u, u ≠ t → u ∈ s.ready.notReady → u ∈ ready.notReady)
    (hf : ∀ q, q ∈ finish.notReady → q ∈ s.finish.notReady ∨
      q.2 = t ∧ partitionMode ∧ t ∈ s.ready.notReady)
    (hfk : ∀ q, q.2 ≠ t → q ∈ s.finish.notReady → q ∈ finish.notReady)
    (hh : Held partitionMode ready finish t task)
    (hc : partitionMode → pastReady task.phase → ∀ u < t, u ∉ ready.notReady)
    (hfr : pastFinish task.phase → ∀ u < t, (task.partition,u) ∉ finish.notReady)
    (hs : partitionMode = false → task.partition = "")
    (hu : partitionMode = false → task.phase ≠ .bound ∧ task.phase ≠ .partitioned) :
    Inv partitionMode base (change s t task ready finish) := by
  have hsame : (change s t task ready finish).tasks t = task := update_self _ _ _
  have hother : ∀ u, u ≠ t → (change s t task ready finish).tasks u = s.tasks u :=
    fun u hu => update_of_ne hu _ _
  constructor
  · intro u
    by_cases he : u = t
    · subst he
      rw [hsame]
      exact ⟨fun _ => (hi.born u).mp hb,fun _ => hp⟩
    · rw [hother u he]
      exact hi.born u
  · intro u
    by_cases he : u = t
    · subst he
      rw [hsame]
      exact hh
    rw [hother u he]
    obtain ⟨h1,h2,h3,h4⟩ := hi.held u
    refine ⟨fun a b => hrk u he (h1 a b),fun a b => hfk _ he (h2 a b),
      fun a => hfk _ he (h3 a),fun a => ?_⟩
    exact (h4 a).imp (fun h => ⟨h.1,hrk u he h.2⟩) (hfk _ he)
  · intro hm u hpu v hv hmem
    by_cases he : u = t
    · subst he
      rw [hsame] at hpu
      exact hc hm hpu v hv hmem
    · rw [hother u he] at hpu
      exact hi.cleared hm u hpu v hv (hr v hmem)
  · intro u hpu v hv hmem
    by_cases he : u = t
    · subst he
      rw [hsame] at hpu hmem
      exact hfr hpu v hv hmem
    rw [hother u he] at hpu hmem
    rcases hf _ hmem with h | ⟨h1,h2,h3⟩
    · exact hi.free u hpu v hv h
    subst h1
    exact hi.cleared h2 u (pastFinish_pastReady hpu) v hv h3
  · intro hm u
    by_cases he : u = t
    · subst he
      rw [hsame]
      exact hs hm
    · rw [hother u he]
      exact hi.single hm u
  intro hm u
  by_cases he : u = t
  · subst he
    rw [hsame]
    exact hu hm
  · rw [hother u he]
    exact hi.unpartitioned hm u

variable {t : ℕ} {finish : ResourceWaiter (String × ℕ)}

theorem held_unfinished {task : Task}
    (hu : uncleared task.phase = false) (hf : task.phase ≠ .failed)
    (hm : (task.partition,t) ∈ finish.notReady) : Held partitionMode ready finish t task :=
  ⟨fun h => by rw [hu] at h; exact absurd h (by simp),
    fun h => by rw [hu] at h; exact absurd h (by simp),fun _ => hm,fun h => absurd h hf⟩

variable {p : String}

section
variable (hi : Inv partitionMode base s)
include hi

/-- A change from one announced phase to another that leaves both sets alone. -/
theorem unfinished_inv {ph' : Phase} (ht : s.tasks t = ⟨ph,p⟩)
    (ho : unfinished ph) (ho' : unfinished ph') (hu : uncleared ph' = false)
    (hre : ready.notReady = s.ready.notReady) (hfe : finish.notReady = s.finish.notReady)
    (hc : pastReady ph ∨ (pastReady ph' → ∀ u < t, u ∉ s.ready.notReady))
    (hfr : pastFinish ph' → ∀ u < t, (p,u) ∉ s.finish.notReady) :
    Inv partitionMode base (change s t ⟨ph',p⟩ ready finish) := by
  have hmem := (hi.held t).2.2.1 (by rw [ht]; exact ho)
  have hs := fun hm => hi.single hm t
  rw [ht] at hmem hs
  have hne : ∀ q : Phase, unfinished q = false → ph' ≠ q := by
    intro q hq he
    rw [he,hq] at ho'
    exact absurd ho' (by simp)
  apply change_inv hi
  · rw [ht]
    intro he
    rw [show ph = .unborn from he] at ho
    exact absurd ho (by simp [unfinished])
  · exact hne _ rfl
  · intro u h
    rwa [hre] at h
  · intro u _ h
    rwa [hre]
  · intro q h
    rw [hfe] at h
    exact .inl h
  · intro q _ h
    rwa [hfe]
  · exact held_unfinished hu (hne _ rfl) (by rw [hfe]; exact hmem)
  · rw [hre]
    intro hm hp
    rcases hc with hc | hc
    · exact hi.cleared hm t (by rw [ht]; exact hc)
    · exact hc hp
  · rw [hfe]
    exact hfr
  · exact hs
  · intro _
    exact ⟨hne _ rfl,hne _ rfl⟩

theorem initTask_inv (hn : base ≤ s.next) : Inv partitionMode base (initTask partitionMode s) := by
  have hsame : (initTask partitionMode s).tasks s.next = ⟨.initialized, ""⟩ :=
    update_self _ _ _
  have hother : ∀ u, u ≠ s.next → (initTask partitionMode s).tasks u = s.tasks u :=
    fun u hu => update_of_ne hu _ _
  have hready : ∀ u, u ∈ (initTask partitionMode s).ready.notReady ↔
      (partitionMode ∧ u = s.next) ∨ u ∈ s.ready.notReady := by
    cases partitionMode <;> simp [initTask,change]
  have hfinish : ∀ q, q ∈ (initTask partitionMode s).finish.notReady ↔
      (partitionMode = false ∧ q = ("",s.next)) ∨ q ∈ s.finish.notReady := by
    cases partitionMode <;> simp [initTask,change]
  have hold : ∀ u, (s.tasks u).phase ≠ .unborn → u ≠ s.next ∧ u < s.next := by
    intro u hu
    have := (hi.born u).mp hu
    omega
  constructor
  · intro u
    show _ ↔ base ≤ u ∧ u < s.next+1
    by_cases he : u = s.next
    · rw [he,hsame]
      exact ⟨fun _ => by omega,fun _ => by simp⟩
    · rw [hother u he,hi.born u]
      omega
  · intro u
    by_cases he : u = s.next
    · rw [he,hsame]
      refine ⟨fun _ hm => ?_,fun _ hm => ?_,fun h => absurd h (by simp [unfinished]),
        fun h => absurd h (by simp)⟩
      · exact (hready _).mpr (.inl ⟨hm,rfl⟩)
      · exact (hfinish _).mpr (.inl ⟨hm,rfl⟩)
    rw [hother u he]
    obtain ⟨h1,h2,h3,h4⟩ := hi.held u
    refine ⟨fun a b => (hready u).mpr (.inr (h1 a b)),
      fun a b => (hfinish _).mpr (.inr (h2 a b)),fun a => (hfinish _).mpr (.inr (h3 a)),
      fun a => ?_⟩
    exact (h4 a).imp (fun h => ⟨h.1,(hready u).mpr (.inr h.2)⟩)
      (fun h => (hfinish _).mpr (.inr h))
  · intro hm u hpu v hv hmem
    by_cases he : u = s.next
    · rw [he,hsame] at hpu
      exact absurd hpu (by simp [pastReady])
    rw [hother u he] at hpu
    rcases (hready v).mp hmem with h | h
    · have := hold u (fun hun => by rw [hun] at hpu; exact absurd hpu (by simp [pastReady]))
      omega
    · exact hi.cleared hm u hpu v hv h
  · intro u hpu v hv hmem
    by_cases he : u = s.next
    · rw [he,hsame] at hpu
      exact absurd hpu (by simp [pastFinish])
    rw [hother u he] at hpu hmem
    rcases (hfinish _).mp hmem with ⟨-,h⟩ | h
    · have := hold u (fun hun => by rw [hun] at hpu; exact absurd hpu (by simp [pastFinish]))
      have := congrArg Prod.snd h
      omega
    · exact hi.free u hpu v hv h
  · intro hm u
    by_cases he : u = s.next
    · rw [he,hsame]
    · rw [hother u he]
      exact hi.single hm u
  intro hm u
  by_cases he : u = s.next
  · rw [he,hsame]
    exact ⟨by simp,by simp⟩
  · rw [hother u he]
    exact hi.unpartitioned hm u

theorem exec_inv (ht : s.tasks t = ⟨.initialized,p⟩) : Inv partitionMode base
      (change s t ⟨if partitionMode then .bound else .processing,p⟩ s.ready s.finish) := by
  obtain ⟨h1,h2,-⟩ := hi.held t
  have hs := fun hm => hi.single hm t
  rw [ht] at h1 h2 hs
  apply change_inv hi
  · simp [ht]
  · cases partitionMode <;> simp
  · exact fun u h => h
  · exact fun u _ h => h
  · exact fun q h => .inl h
  · exact fun q _ h => h
  · cases partitionMode with
    | true => exact ⟨fun _ => h1 rfl,fun _ hm => absurd hm (by simp),
        fun h => absurd h (by simp [unfinished]),fun h => absurd h (by simp)⟩
    | false => exact held_unfinished rfl (by simp) (h2 rfl rfl)
  · intro hm
    simp [hm,pastReady]
  · cases partitionMode <;> simp [pastFinish]
  · exact hs
  · intro hm
    simp [hm]

theorem recvPartition_inv {p' : String} (ht : s.tasks t = ⟨.bound,p⟩) :
    Inv partitionMode base (change s t ⟨.partitioned,p'⟩ s.ready s.finish) := by
  obtain ⟨h1,-⟩ := hi.held t
  have hm : partitionMode := by
    by_contra hn
    exact (hi.unpartitioned (by simpa using hn) t).1 (by rw [ht])
  rw [ht] at h1
  subst hm
  apply change_inv hi
  · simp [ht]
  · simp
  · exact fun u h => h
  · exact fun u _ h => h
  · exact fun q h => .inl h
  · exact fun q _ h => h
  · exact ⟨fun _ => h1 rfl,fun _ hm => absurd hm (by simp),
      fun h => absurd h (by simp [unfinished]),fun h => absurd h (by simp)⟩
  · simp [pastReady]
  · simp [pastFinish]
  · simp
  · simp

theorem newResource_inv (ht : s.tasks t = ⟨.partitioned,p⟩) : Inv partitionMode base
      (change s t ⟨.registered,p⟩ s.ready (newResource s.finish (p,t))) := by
  obtain ⟨h1,-⟩ := hi.held t
  have hm : partitionMode := by
    by_contra hn
    exact (hi.unpartitioned (by simpa using hn) t).2 (by rw [ht])
  rw [ht] at h1
  subst hm
  apply change_inv hi
  · simp [ht]
  · simp
  · exact fun u h => h
  · exact fun u _ h => h
  · intro q h
    rcases mem_newResource.mp h with rfl | h
    · exact .inr ⟨rfl,rfl,h1 rfl rfl⟩
    · exact .inl h
  · intro q _ h
    exact mem_newResource.mpr (.inr h)
  · exact ⟨fun _ => h1 rfl,fun _ hm => absurd hm (by simp),
      fun _ => mem_newResource.mpr (.inl rfl),fun h => absurd h (by simp)⟩
  · simp [pastReady]
  · simp [pastFinish]
  · simp
  · simp

theorem resourceReady_inv
    (ht : s.tasks t = ⟨.registered,p⟩) (hr : resourceReady s.ready t = some ready) :
    Inv partitionMode base (change s t ⟨.announced,p⟩ ready s.finish) := by
  have hmem := (hi.held t).2.2.1 (by rw [ht]; rfl)
  have hs := fun hm => hi.single hm t
  rw [ht] at hmem hs
  apply change_inv hi
  · simp [ht]
  · simp
  · exact fun u h => ((mem_resourceReady hr u).mp h).1
  · exact fun u hne h => (mem_resourceReady hr u).mpr ⟨h,hne⟩
  · exact fun q h => .inl h
  · exact fun q _ h => h
  · exact held_unfinished rfl (by simp) hmem
  · simp [pastReady]
  · simp [pastFinish]
  · exact hs
  · simp

end

theorem succeed_inv
    (hi : Inv partitionMode base s)
    (ht : s.tasks t = ⟨.processing,p⟩) (hf : resourceReady s.finish (p,t) = some finish) :
    Inv partitionMode base (change s t ⟨.succeeded,p⟩ s.ready finish) := by
  have hs := fun hm => hi.single hm t
  rw [ht] at hs
  apply change_inv hi
  · simp [ht]
  · simp
  · exact fun u h => h
  · exact fun u _ h => h
  · exact fun q h => .inl ((mem_resourceReady hf q).mp h).1
  · intro q hne h
    exact (mem_resourceReady hf q).mpr ⟨h,fun he => hne (by rw [he])⟩
  · simp [Held,uncleared,unfinished]
  · simp [pastReady]
  · simp [pastFinish]
  · exact hs
  · simp

theorem held_unless (hi : Inv partitionMode base s) (hb : (s.tasks t).phase ≠ .unborn)
    (hs : (s.tasks t).phase ≠ .succeeded) :
    (partitionMode ∧ t ∈ s.ready.notReady) ∨ ((s.tasks t).partition,t) ∈ s.finish.notReady := by
  obtain ⟨h1,h2,h3,h4⟩ := hi.held t
  by_cases hu : uncleared (s.tasks t).phase
  · cases partitionMode with
    | true => exact .inl ⟨rfl,h1 hu rfl⟩
    | false => exact .inr (h2 hu rfl)
  by_cases ho : unfinished (s.tasks t).phase
  · exact .inr (h3 ho)
  · cases hp : (s.tasks t).phase <;> simp_all [uncleared,unfinished]

theorem fail_inv
    (hi : Inv partitionMode base s)
    (hb : (s.tasks t).phase ≠ .unborn) (hs : (s.tasks t).phase ≠ .succeeded)
    (hre : ready.notReady = s.ready.notReady) (hfe : finish.notReady = s.finish.notReady) :
    Inv partitionMode base (change s t {s.tasks t with phase := .failed} ready finish) := by
  apply change_inv hi hb
  · simp
  · intro u h
    rwa [hre] at h
  · intro u _ h
    rwa [hre]
  · intro q h
    rw [hfe] at h
    exact .inl h
  · intro q _ h
    rwa [hfe]
  · simp only [Held,uncleared,unfinished,hre,hfe]
    exact ⟨by simp,by simp,by simp,fun _ => held_unless hi hb hs⟩
  · simp [pastReady]
  · simp [pastFinish]
  · exact fun hm => hi.single hm t
  · simp

variable {s' : State}

theorem failTask_eq (h : failTask s t = some s') :
    (s.tasks t).phase ≠ .unborn ∧ (s.tasks t).phase ≠ .succeeded ∧ ∃ ready finish,
      ready.notReady = s.ready.notReady ∧ finish.notReady = s.finish.notReady ∧
        s' = change s t {s.tasks t with phase := .failed} ready finish := by
  cases hp : (s.tasks t).phase <;>
    simp only [failTask,hp,some.injEq,reduceCtorEq] at h <;>
    refine ⟨by simp,by simp,_,_,?_,?_,h.symm⟩ <;> rfl

variable {w : ResourceWaiter ℕ}

theorem countMissing_earlier (h : countMissing w (earlier t) = 0) : ∀ u < t, u ∉ w.notReady := by
  intro u hu hm
  have := countMissing_zero w _ h u hm
  simp [earlier,hu] at this

theorem countMissing_earlierIn {w : ResourceWaiter (String × ℕ)}
    (h : countMissing w (earlierIn p t) = 0) : ∀ u < t, (p,u) ∉ w.notReady := by
  intro u hu hm
  have := countMissing_zero w _ h (p,u) hm
  simp [earlierIn,hu] at this

variable {id : ℕ}

/-- A count of zero at the ready waiter is what lets a task past it. -/
theorem waitingReady_clears (h : pastReady (.waitingReady id (countMissing w (earlier t)))) :
    ∀ u < t, u ∉ w.notReady := by
  apply countMissing_earlier
  cases hc : countMissing w (earlier t) with
  | zero => rfl
  | succ m => simp [hc,pastReady] at h

/-- A count of zero at the finish waiter is what lets a request past it. -/
theorem waitingFinish_frees {w : ResourceWaiter (String × ℕ)}
    (h : pastFinish (.waitingFinish id (countMissing w (earlierIn p t)))) :
    ∀ u < t, (p,u) ∉ w.notReady := by
  apply countMissing_earlierIn
  cases hc : countMissing w (earlierIn p t) with
  | zero => rfl
  | succ m => simp [hc,pastFinish] at h

theorem step_inv (partitionMode : Bool) (base : ℕ) (s : State) (act : Action) (s' : State)
    (hi : Inv partitionMode base s ∧ base ≤ s.next) (h : step partitionMode s act = some s') :
    Inv partitionMode base s' ∧ base ≤ s'.next := by
  obtain ⟨hi,hn⟩ := hi
  cases act with
  | init =>
    rw [← some.inj h]
    exact ⟨initTask_inv hi hn,Nat.le_succ_of_le hn⟩
  | exec t =>
    simp only [step] at h
    split at h
    · rename_i p ht
      rw [← some.inj h]
      exact ⟨exec_inv hi ht,hn⟩
    · cases h
  | recvPartition t reported =>
    simp only [step] at h
    split at h
    · rename_i p ht
      rw [← some.inj h]
      exact ⟨recvPartition_inv hi ht,hn⟩
    · cases h
  | newResource t =>
    simp only [step] at h
    split at h
    · rename_i p ht
      rw [← some.inj h]
      exact ⟨newResource_inv hi ht,hn⟩
    · cases h
  | resourceReady t =>
    simp only [step] at h
    split at h
    · rename_i p ht
      obtain ⟨r,hr,rfl⟩ := map_eq_some_iff.mp h
      exact ⟨resourceReady_inv hi ht hr,hn⟩
    · cases h
  | readyWait t | readyRecount t =>
    simp only [step] at h
    split at h
    · rename_i ht
      rw [← some.inj h]
      exact ⟨unfinished_inv hi ht rfl rfl rfl rfl rfl (.inr waitingReady_clears)
        (by simp [pastFinish]),hn⟩
    · cases h
  | readyWake t =>
    simp only [step] at h
    split at h
    · rename_i id m p ht
      obtain ⟨r,hr,rfl⟩ := map_eq_some_iff.mp h
      exact ⟨unfinished_inv hi ht rfl rfl rfl (takeSignal_notReady hr) rfl
        (.inr (by simp [pastReady])) (by simp [pastFinish]),hn⟩
    · cases h
  | start t | execute t =>
    simp only [step] at h
    split at h
    · rename_i ht
      rw [← some.inj h]
      exact ⟨unfinished_inv hi ht rfl rfl rfl rfl rfl (.inl rfl) (by simp [pastFinish]),hn⟩
    · cases h
  | read t | finishRecount t =>
    simp only [step] at h
    split at h
    · rename_i ht
      rw [← some.inj h]
      exact ⟨unfinished_inv hi ht rfl rfl rfl rfl rfl (.inl rfl) waitingFinish_frees,hn⟩
    · cases h
  | finishWake t =>
    simp only [step] at h
    split at h
    · rename_i id m p ht
      obtain ⟨f,hf,rfl⟩ := map_eq_some_iff.mp h
      exact ⟨unfinished_inv hi ht rfl rfl rfl rfl (takeSignal_notReady hf) (.inl rfl)
        (by simp [pastFinish]),hn⟩
    · cases h
  | resume t =>
    simp only [step] at h
    split at h
    · rename_i id p ht
      rw [← some.inj h]
      refine ⟨unfinished_inv hi ht rfl rfl rfl rfl rfl (.inl rfl) (fun _ => ?_),hn⟩
      have := hi.free t (by rw [ht]; rfl)
      rwa [ht] at this
    · cases h
  | succeed t =>
    simp only [step] at h
    split at h
    · rename_i p ht
      obtain ⟨f,hf,rfl⟩ := map_eq_some_iff.mp h
      exact ⟨succeed_inv hi ht hf,hn⟩
    · cases h
  | fail t =>
    obtain ⟨hb,hs,ready,finish,hre,hfe,rfl⟩ := failTask_eq h
    exact ⟨fail_inv hi hb hs hre hfe,hn⟩

theorem run_inv (partitionMode : Bool) (base : ℕ) (acts : List Action) (s : State)
    (h : run (step partitionMode) (init base) acts = some s) :
    Inv partitionMode base s ∧ base ≤ s.next :=
  run_invariant (step partitionMode)
    (fun s => Inv partitionMode base s ∧ base ≤ s.next) (step_inv partitionMode base) acts _ s
    ⟨init_inv partitionMode base,le_rfl⟩ h

variable {u : ℕ}

/-- Each initialised task has succeeded or is held by one of the waiters. -/
theorem held_or_succeeded (hi : Inv partitionMode base s) (hb : base ≤ u) (hu : u < s.next) :
    (s.tasks u).phase = .succeeded ∨ (partitionMode ∧ u ∈ s.ready.notReady) ∨
      ((s.tasks u).partition,u) ∈ s.finish.notReady := by
  by_cases hs : (s.tasks u).phase = .succeeded
  · exact .inl hs
  · exact .inr (held_unless hi ((hi.born u).mpr ⟨hb,hu⟩) hs)

theorem execute_phase
    (h : step partitionMode s (.execute t) = some s') : (s.tasks t).phase = .executing := by
  simp only [step] at h
  split at h
  · rename_i p ht
    rw [ht]
  · cases h

theorem executing_earlier (hi : Inv partitionMode base s) (ht : (s.tasks t).phase = .executing)
    (hb : base ≤ u) (hu : u < t) :
    ((s.tasks u).phase = .succeeded ∨ ((s.tasks u).partition,u) ∈ s.finish.notReady) ∧
      ((s.tasks u).partition = (s.tasks t).partition → (s.tasks u).phase = .succeeded) := by
  have hlt := ((hi.born t).mp (by rw [ht]; simp)).2
  have hknown : (s.tasks u).phase = .succeeded ∨
      ((s.tasks u).partition,u) ∈ s.finish.notReady := by
    rcases held_or_succeeded hi hb (by omega) with h | ⟨hm,h⟩ | h
    · exact .inl h
    · exact absurd h (hi.cleared hm t (by rw [ht]; rfl) u hu)
    · exact .inr h
  refine ⟨hknown,fun hp => ?_⟩
  rcases hknown with h | h
  · exact h
  · rw [hp] at h
    exact absurd h (hi.free t (by rw [ht]; rfl) u hu)

variable {act : Action}

theorem step_change (h : step partitionMode s act = some s') :
    s' = initTask partitionMode s ∨ ∃ t task ready finish,
      s' = change s t task ready finish ∧ (s.tasks t).phase ≠ .failed := by
  cases act with
  | init => exact .inl (some.inj h).symm
  | fail t =>
    cases hp : (s.tasks t).phase <;>
      simp only [step,failTask,hp,some.injEq,reduceCtorEq] at h <;>
      exact .inr ⟨t,_,_,_,h.symm,by simp [hp]⟩
  | _ t =>
    simp only [step] at h
    split at h
    · rename_i ht
      simp only [some.injEq,map_eq_some_iff] at h
      first
        | exact .inr ⟨t,_,_,_,h.symm,by simp [ht]⟩
        | (obtain ⟨w,-,hw⟩ := h
           exact .inr ⟨t,_,_,_,hw.symm,by simp [ht]⟩)
    · cases h

theorem failed_step (hi : Inv partitionMode base s) (hu : (s.tasks u).phase = .failed)
    (h : step partitionMode s act = some s') : s'.tasks u = s.tasks u := by
  rcases step_change h with rfl | ⟨t,task,ready,finish,rfl,ht⟩
  · have := ((hi.born u).mp (by rw [hu]; simp)).2
    exact update_of_ne (by omega) _ _
  apply update_of_ne
  intro he
  rw [← he] at ht
  exact ht hu

theorem failed_run {later : List Action}
    (hi : Inv partitionMode base s ∧ base ≤ s.next) (hu : (s.tasks u).phase = .failed)
    (h : run (step partitionMode) s later = some s') : s'.tasks u = s.tasks u := by
  have := run_invariant (step partitionMode)
    (fun r => (Inv partitionMode base r ∧ base ≤ r.next) ∧ r.tasks u = s.tasks u)
    (fun r act r' hr hs => ⟨step_inv partitionMode base r act r' hr.1 hs,
      (failed_step hr.1.1 (by rw [hr.2]; exact hu) hs).trans hr.2⟩)
    later s s' ⟨hi,rfl⟩ h
  exact this.2

/-- A read is executed only after every earlier task of its partition has succeeded; a failed one
keeps it from ever executing. -/
theorem reads_follow_earlier_tasks (partitionMode : Bool) (base : ℕ) (acts : List Action)
    (s : State) (h : run (step partitionMode) (init base) acts = some s) :
    (partitionMode = false → ∀ u, (s.tasks u).partition = "") ∧
    (∀ t s', step partitionMode s (.execute t) = some s' → ∀ u, base ≤ u → u < t →
      ((s.tasks u).phase = .succeeded ∨ ((s.tasks u).partition,u) ∈ s.finish.notReady) ∧
      ((s.tasks u).partition = (s.tasks t).partition → (s.tasks u).phase = .succeeded)) ∧
    (∀ u, (s.tasks u).phase = .failed →
      ∀ later s', run (step partitionMode) s later = some s' →
        (s'.tasks u).phase = .failed ∧ ∀ t, u < t →
          (s'.tasks t).partition = (s'.tasks u).partition →
            step partitionMode s' (.execute t) = none) := by
  have hi := run_inv partitionMode base acts s h
  refine ⟨hi.1.single,?_,?_⟩
  · intro t s' hs u hb hu
    exact executing_earlier hi.1 (execute_phase hs)
      hb hu
  intro u hf later s' hl
  have hfailed : (s'.tasks u).phase = .failed := by
    rw [failed_run hi hf hl]
    exact hf
  refine ⟨hfailed,fun t hut hp => ?_⟩
  have hi' := run_inv partitionMode base (acts++later) s' (by
    rw [run_append,h]
    exact hl)
  have hb := ((hi.1.born u).mp (by rw [hf]; simp)).1
  by_contra hne
  obtain ⟨s'',hs''⟩ := Option.ne_none_iff_exists'.mp hne
  have := (executing_earlier hi'.1
    (execute_phase hs'') hb hut).2 hp.symm
  rw [hfailed] at this
  cases this

def twoTasks : List Action :=
  [.init,.init,.exec 2,.recvPartition 2 ["a"],.newResource 2,.resourceReady 2,.readyWait 2,
    .exec 1,.recvPartition 1 ["b", "a"],.newResource 1,.resourceReady 1,.readyWake 2,
    .readyRecount 2,.start 2,.read 2,.readyWait 1,.start 1,.succeed 1,.finishWake 2,
    .finishRecount 2,.resume 2]

theorem reads_follow_earlier_tasks_two : ∃ s s', run (step true) (init 1) twoTasks = some s ∧
      step true s (.execute 2) = some s' ∧ (s.tasks 1).phase = .succeeded := by
  have hp : (run (step true) (init 1) twoTasks).map
      (fun s => (s.tasks 2,s.tasks 1)) = some (⟨.executing, "a"⟩,⟨.succeeded, "a"⟩) := by decide
  obtain ⟨s,hs,ht⟩ := map_eq_some_iff.mp hp
  have h2 : s.tasks 2 = ⟨.executing, "a"⟩ := congrArg Prod.fst ht
  have h1 : s.tasks 1 = ⟨.succeeded, "a"⟩ := congrArg Prod.snd ht
  have he : step true s (.execute 2) = some (change s 2 ⟨.processing, "a"⟩ s.ready s.finish) := by
    simp [step,h2]
  exact ⟨s,_,hs,he,((reads_follow_earlier_tasks true 1 twoTasks s hs).2.1 2 _ he 1 le_rfl
    (by decide)).2 (by rw [h1,h2])⟩

end Sentio.TaskOrder
