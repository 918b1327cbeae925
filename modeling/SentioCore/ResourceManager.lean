import SentioCore.Transition

/-!
# The resource manager

Requests ask for an amount of a resource. A request that cannot be served at
once waits in a binary heap, ordered by priority and arrival. A release and a
cancellation grant the head of the heap if the free amount suffices, and only
the head. Every critical section is one step. A request is known by its index;
`held` records what has been granted and not been given back.
-/

namespace Sentio.ResourceManager
open Transition List

structure Waiter where
  priority : ℤ
  index : ℕ
  num : ℕ
  deriving DecidableEq

def inFront (w a : Waiter) : Bool :=
  if w.priority ≠ a.priority then w.priority < a.priority else w.index < a.index

variable (l : List Waiter)

def swap (i j : ℕ) : List Waiter :=
  match l[i]?, l[j]? with
  | some a, some b => (l.set i b).set j a
  | _, _ => l

def ahead (i j : ℕ) : Bool :=
  match l[i]?, l[j]? with
  | some a, some b => inFront a b
  | _, _ => false

/-- The index goes down in every round. -/
def siftUpLoop : ℕ → List Waiter → ℕ → List Waiter
  | 0, l, _ => l
  | rounds+1, l, n =>
    if 0 < n && ahead l n ((n-1)/2) then siftUpLoop rounds (swap l n ((n-1)/2)) ((n-1)/2) else l

def siftUp (n : ℕ) : List Waiter := siftUpLoop n l n

def nextDown (n : ℕ) : ℕ :=
  if ahead l ((n+1)*2) ((n+1)*2-1) then (n+1)*2 else (n+1)*2-1

/-- The index goes up in every round. -/
def siftDownLoop : ℕ → List Waiter → ℕ → List Waiter × ℕ
  | 0, l, n => (l,n)
  | rounds+1, l, n =>
    if ahead l (nextDown l n) n then siftDownLoop rounds (swap l (nextDown l n) n) (nextDown l n)
    else (l,n)

def siftDown (n : ℕ) : List Waiter × ℕ := siftDownLoop l.length l n

def removeWaiterAt (i : ℕ) : List Waiter :=
  let rest := (swap l i (l.length-1)).dropLast
  if i < rest.length then
    let moved := siftDown rest i
    if i < moved.2 then moved.1 else siftUp moved.1 i
  else rest

structure Manager where
  maxResource : ℕ
  curResource : ℤ
  count : ℕ
  waiters : List Waiter
  held : List (ℕ × ℕ)
  deriving DecidableEq

def newResourceManager (resourceCount : ℕ) : Manager := ⟨resourceCount,resourceCount,0,[],[]⟩

variable (m : Manager)

def grantLocked : Manager :=
  match m.waiters with
  | [] => m
  | w::_ =>
    if m.curResource < w.num then m
    else {m with
      curResource := m.curResource-w.num
      waiters := removeWaiterAt m.waiters 0
      held := (w.index,w.num)::m.held}

def apply (priority : ℤ) (num : ℕ) : Manager :=
  if m.maxResource < num then m
  else if num ≤ m.curResource then
    {m with
      curResource := m.curResource-num
      count := m.count+1
      held := (m.count,num)::m.held}
  else
    let waiters := m.waiters++[⟨priority,m.count,num⟩]
    {m with waiters := siftUp waiters (waiters.length-1), count := m.count+1}

/-- The amount of a granted request goes back. -/
def returned (e : ℕ × ℕ) : Manager :=
  {m with curResource := m.curResource+e.2, held := m.held.erase e}

def heldBy (id : ℕ) : Option (ℕ × ℕ) := m.held.find? (fun e => e.1 = id)

/-- A request that is cancelled leaves the queue, or gives back what it was granted. -/
def cancelled (id : ℕ) : Option Manager :=
  match m.waiters.findIdx? (fun w => w.index = id) with
  | some i => some {m with waiters := removeWaiterAt m.waiters i}
  | none => (heldBy m id).map (returned m)

inductive Action where
  | apply (priority : ℤ) (num : ℕ)
  | release (id : ℕ)
  | cancel (id : ℕ)

/-- The state in which a release or a cancellation looks for a waiter to grant. -/
def freed : Action → Option Manager
  | .apply _ _ => none
  | .release id => (heldBy m id).map (returned m)
  | .cancel id => cancelled m id

def step : Action → Option Manager
  | .apply priority num => some (apply m priority num)
  | .release id => (freed m (.release id)).map grantLocked
  | .cancel id => (freed m (.cancel id)).map grantLocked

/-- The head of the queue needs more than what is free. -/
def Parked : Prop := ∀ w ∈ m.waiters.head?, m.curResource < w.num

/-- What is free does not suffice for the head and the one behind it. -/
def GrantsOne (act : Action) : Prop :=
  ∀ f ∈ freed m act, ∀ w ∈ f.waiters.head?, w.num ≤ f.curResource →
    ∀ v ∈ (removeWaiterAt f.waiters 0).head?, f.curResource < w.num+v.num

variable {l : List Waiter}

theorem swap_head {i : ℕ} (j : ℕ) (hi : i ≠ 0) (hj : j ≠ 0) : (swap l i j).head? = l.head? := by
  unfold swap
  split
  · rw [head?_eq_getElem?,head?_eq_getElem?,getElem?_set_ne hj,
      getElem?_set_ne hi]
  · rfl

theorem swap_second {i j : ℕ} {a b : Waiter} (hi : l[i]? = some a) (hj : l[j]? = some b) :
    (swap l i j)[j]? = some a := by
  have hl := (List.getElem?_eq_some_iff.mp hj).1
  simp [swap,hi,hl]

theorem siftUpLoop_head {rounds : ℕ} (n : ℕ) :
    (siftUpLoop rounds l n).head? = l.head? ∨ (siftUpLoop rounds l n).head? = l[n]? := by
  induction rounds generalizing l n with
  | zero => exact .inl rfl
  | succ rounds ih =>
    rw [siftUpLoop]
    split
    · rename_i h
      rw [Bool.and_eq_true,decide_eq_true_eq,ahead] at h
      obtain ⟨hn,h⟩ := h
      split at h
      · rename_i a b ha hb
        have hsecond := swap_second ha hb
        rw [ha,← hsecond]
        rcases ih (l := swap l n ((n-1)/2)) ((n-1)/2) with hh | hh
        · by_cases hup : (n-1)/2 = 0
          · rw [hh,head?_eq_getElem?,hup]
            exact .inr rfl
          · rw [hh,swap_head _ (by omega) hup]
            exact .inl rfl
        · exact .inr hh
      · cases h
    · exact .inl rfl

variable {m : Manager}

theorem apply_parked {priority : ℤ} {num : ℕ} (h : Parked m) : Parked (apply m priority num) := by
  unfold apply
  split
  · exact h
  split
  · intro w hw
    have := h w hw
    dsimp only
    omega
  rename_i hnum
  intro w hw
  dsimp only at hw ⊢
  rw [siftUp] at hw
  rcases siftUpLoop_head _ with hh | hh
  · rw [hh,head?_append] at hw
    cases hm : m.waiters.head? with
    | none =>
      rw [hm] at hw
      cases hw
      exact lt_of_not_ge hnum
    | some u =>
      exact h w (hm ▸ hw)
  · rw [hh,length_append,length_singleton,Nat.add_sub_cancel,
      getElem?_concat_length] at hw
    cases hw
    exact lt_of_not_ge hnum

theorem grantLocked_parked_iff : Parked (grantLocked m) ↔
    ∀ w ∈ m.waiters.head?, w.num ≤ m.curResource →
      ∀ v ∈ (removeWaiterAt m.waiters 0).head?, m.curResource < w.num+v.num := by
  unfold grantLocked Parked
  rcases hm : m.waiters with _ | ⟨w,rest⟩
  · simp [hm]
  by_cases hw : m.curResource < w.num
  · have hn : ¬(w.num : ℤ) ≤ m.curResource := not_le.mpr hw
    simp [hm,hw]
  · simp only [if_neg hw,head?_cons,Option.mem_some_iff,forall_eq',not_lt.mp hw,true_imp_iff]
    exact forall₂_congr fun v _ => by omega

theorem step_parked_iff {act : Action} (h : Parked m) :
    (∀ t, step m act = some t → Parked t) ↔ GrantsOne m act := by
  cases act with
  | apply priority num =>
    simp [step,GrantsOne,freed,apply_parked h]
  | release | cancel =>
    simp [step,GrantsOne,grantLocked_parked_iff]

theorem parked_throughout_iff {acts : List Action} (h : Parked m) :
    Throughout step (fun m act => ∀ t, step m act = some t → Parked t) m acts ↔
      Throughout step GrantsOne m acts := by
  induction acts generalizing m with
  | nil => exact Iff.rfl
  | cons act rest ih =>
    constructor
    · rintro ⟨hp,hr⟩
      exact ⟨(step_parked_iff h).mp hp,fun t ht => (ih (hp t ht)).mp (hr t ht)⟩
    rintro ⟨hg,hr⟩
    have hp := (step_parked_iff h).mpr hg
    exact ⟨hp,fun t ht => (ih (hp t ht)).mpr (hr t ht)⟩

/-- In every run the head of the queue is parked after every step exactly when
no release or cancellation frees enough for two waiters. -/
theorem head_parked_iff (resourceCount : ℕ) (acts : List Action) :
    Throughout step (fun m act => ∀ t, step m act = some t → Parked t)
        (newResourceManager resourceCount) acts ↔
      Throughout step GrantsOne (newResourceManager resourceCount) acts :=
  parked_throughout_iff (fun w hw => by cases hw)

/-- Two requests for one wait behind a request for two; its release grants one of them. -/
theorem head_not_granted : ∃ t, run step (newResourceManager 2)
        [.apply 0 2,.apply 0 1,.apply 0 1,.release 0] = some t ∧
      t.curResource = 1 ∧ t.waiters = [⟨0,2,1⟩] ∧ ¬Parked t :=
  ⟨_,rfl,by decide,by decide,fun h => absurd (h ⟨0,2,1⟩ (by decide)) (by decide)⟩

end Sentio.ResourceManager
