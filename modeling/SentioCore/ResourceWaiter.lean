import SentioCore.Transition

/-!
# Waiting for resources

A waiter registers a selector and counts the matching resources that are not
ready. It returns when a count it took under the lock is zero; a readiness
change only leaves a wakeup signal, and the count is taken again afterwards.
-/

namespace Sentio.Resource

structure Waiter (R : Type) where
  selector : R → Bool
  notify : Bool

structure ResourceWaiter (R : Type) where
  notReady : List R
  waiters : ℕ → Option (Waiter R)
  waiterID : ℕ

section
variable {R : Type}

def newResourceWaiter : ResourceWaiter R := ⟨[],fun _ => none,0⟩

variable (w : ResourceWaiter R)

def wakeMatching (r : R) : ResourceWaiter R :=
  {w with waiters := fun id =>
    (w.waiters id).map (fun wa => if wa.selector r then {wa with notify := true} else wa)}

def newResource [DecidableEq R] (w : ResourceWaiter R) (r : R) : ResourceWaiter R :=
  if r ∈ w.notReady then w else wakeMatching {w with notReady := r::w.notReady} r

/-- Readiness of a resource that was never announced is a panic. -/
def resourceReady [DecidableEq R] (w : ResourceWaiter R) (r : R) : Option (ResourceWaiter R) :=
  if r ∈ w.notReady then
    some (wakeMatching {w with notReady := w.notReady.filter (fun q => q ≠ r)} r)
  else none

def countMissing (selector : R → Bool) : ℕ := w.notReady.countP selector

def register (selector : R → Bool) : ResourceWaiter R :=
  {w with
    waiters := Function.update w.waiters w.waiterID (some ⟨selector,false⟩)
    waiterID := w.waiterID+1}

def takeSignal (id : ℕ) : Option (ResourceWaiter R) :=
  match w.waiters id with
  | some ⟨selector,true⟩ =>
    some {w with waiters := Function.update w.waiters id (some ⟨selector,false⟩)}
  | _ => none

def deregister (id : ℕ) : ResourceWaiter R :=
  {w with waiters := Function.update w.waiters id none}

@[simp] theorem wakeMatching_notReady (r : R) :
    (wakeMatching w r).notReady = w.notReady := rfl

@[simp] theorem mem_newResource [DecidableEq R] {w : ResourceWaiter R} {r q : R} :
    q ∈ (newResource w r).notReady ↔ q = r ∨ q ∈ w.notReady := by
  unfold newResource
  split
  · constructor
    · exact Or.inr
    rintro (rfl | h)
    · assumption
    · exact h
  · simp

theorem mem_resourceReady [DecidableEq R] {w v : ResourceWaiter R} {r : R}
    (h : resourceReady w r = some v) (q : R) : q ∈ v.notReady ↔ q ∈ w.notReady ∧ q ≠ r := by
  simp only [resourceReady,Option.ite_none_right_eq_some,Option.some.injEq] at h
  rw [← h.2]
  simp

@[simp] theorem register_notReady (selector : R → Bool) :
    (register w selector).notReady = w.notReady := rfl

@[simp] theorem deregister_notReady (id : ℕ) :
    (deregister w id).notReady = w.notReady := rfl

theorem takeSignal_notReady {w v : ResourceWaiter R} {id : ℕ} (h : takeSignal w id = some v) :
    v.notReady = w.notReady := by
  unfold takeSignal at h
  split at h
  · rw [← Option.some.inj h]
  · cases h

theorem countMissing_zero (selector : R → Bool)
    (h : countMissing w selector = 0) (r : R) (hr : r ∈ w.notReady) : selector r = false := by
  have := List.countP_eq_zero.mp h r hr
  simpa using this

end
end Sentio.Resource
