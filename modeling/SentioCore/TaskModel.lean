import SentioCore.ResourceWaiter

/-!
# Tasks of one run

The producer initialises tasks in the order of their global index; workers
execute them. With partitions, a task announces its partition before it clears
its index, and starts after every smaller index is cleared. A read request
waits until no unfinished task of the same partition has a smaller index. A
step is one action of one goroutine, and a task may fail at any time.
-/

namespace Sentio.TaskModel
open Resource

inductive Phase where
  | unborn
  | initialized
  | bound
  | partitioned
  | registered
  | announced
  | waitingReady (id missing : ℕ)
  | recountingReady (id : ℕ)
  | processing
  | waitingFinish (id missing : ℕ)
  | recountingFinish (id : ℕ)
  | executing
  | succeeded
  | failed
  deriving DecidableEq

structure Task where
  phase : Phase
  partition : String
  deriving DecidableEq

structure State where
  next : ℕ
  tasks : ℕ → Task
  ready : ResourceWaiter ℕ
  finish : ResourceWaiter (String × ℕ)

inductive Action where
  | init
  | exec (t : ℕ)
  | recvPartition (t : ℕ) (reported : List String)
  | newResource (t : ℕ)
  | resourceReady (t : ℕ)
  | readyWait (t : ℕ)
  | readyWake (t : ℕ)
  | readyRecount (t : ℕ)
  | start (t : ℕ)
  | read (t : ℕ)
  | finishWake (t : ℕ)
  | finishRecount (t : ℕ)
  | resume (t : ℕ)
  | execute (t : ℕ)
  | succeed (t : ℕ)
  | fail (t : ℕ)

def init (base : ℕ) : State := ⟨base,fun _ => ⟨.unborn, ""⟩,newResourceWaiter,newResourceWaiter⟩

def earlier (t u : ℕ) : Bool := u < t

def earlierIn (partition : String) (t : ℕ) (q : String × ℕ) : Bool := q.1 = partition && q.2 < t

def change (s : State) (t : ℕ) (task : Task) (ready : ResourceWaiter ℕ)
    (finish : ResourceWaiter (String × ℕ)) : State :=
  {s with tasks := Function.update s.tasks t task, ready := ready, finish := finish}

def initTask (partitionMode : Bool) (s : State) : State :=
  let t := s.next
  {change s t ⟨.initialized, ""⟩
      (if partitionMode then newResource s.ready t else s.ready)
      (if partitionMode then s.finish else newResource s.finish ("",t)) with next := t+1}

/-- A failing task leaves the waiter it is registered at; its own resources
stay not ready. -/
def failTask (s : State) (t : ℕ) : Option State :=
  let task := s.tasks t
  match task.phase with
  | .unborn | .succeeded | .failed => none
  | .waitingReady id _ | .recountingReady id =>
    some (change s t {task with phase := .failed} (deregister s.ready id) s.finish)
  | .waitingFinish id _ | .recountingFinish id =>
    some (change s t {task with phase := .failed} s.ready (deregister s.finish id))
  | _ => some (change s t {task with phase := .failed} s.ready s.finish)

def step (partitionMode : Bool) (s : State) : Action → Option State
  | .init => some (initTask partitionMode s)
  | .exec t =>
    match s.tasks t with
    | ⟨.initialized,p⟩ =>
      some (change s t ⟨if partitionMode then .bound else .processing,p⟩ s.ready s.finish)
    | _ => none
  | .recvPartition t reported =>
    match s.tasks t with
    | ⟨.bound,p⟩ => some (change s t ⟨.partitioned,reported.getLastD p⟩ s.ready s.finish)
    | _ => none
  | .newResource t =>
    match s.tasks t with
    | ⟨.partitioned,p⟩ => some (change s t ⟨.registered,p⟩ s.ready (newResource s.finish (p,t)))
    | _ => none
  | .resourceReady t =>
    match s.tasks t with
    | ⟨.registered,p⟩ =>
      (resourceReady s.ready t).map (fun r => change s t ⟨.announced,p⟩ r s.finish)
    | _ => none
  | .readyWait t =>
    match s.tasks t with
    | ⟨.announced,p⟩ =>
      some (change s t ⟨.waitingReady s.ready.waiterID (countMissing s.ready (earlier t)),p⟩
        (register s.ready (earlier t)) s.finish)
    | _ => none
  | .readyWake t =>
    match s.tasks t with
    | ⟨.waitingReady id (_+1),p⟩ =>
      (takeSignal s.ready id).map (fun r => change s t ⟨.recountingReady id,p⟩ r s.finish)
    | _ => none
  | .readyRecount t =>
    match s.tasks t with
    | ⟨.recountingReady id,p⟩ =>
      some (change s t ⟨.waitingReady id (countMissing s.ready (earlier t)),p⟩ s.ready s.finish)
    | _ => none
  | .start t =>
    match s.tasks t with
    | ⟨.waitingReady id 0,p⟩ =>
      some (change s t ⟨.processing,p⟩ (deregister s.ready id) s.finish)
    | _ => none
  | .read t =>
    match s.tasks t with
    | ⟨.processing,p⟩ =>
      some (change s t ⟨.waitingFinish s.finish.waiterID (countMissing s.finish (earlierIn p t)),p⟩
        s.ready (register s.finish (earlierIn p t)))
    | _ => none
  | .finishWake t =>
    match s.tasks t with
    | ⟨.waitingFinish id (_+1),p⟩ =>
      (takeSignal s.finish id).map (fun f => change s t ⟨.recountingFinish id,p⟩ s.ready f)
    | _ => none
  | .finishRecount t =>
    match s.tasks t with
    | ⟨.recountingFinish id,p⟩ =>
      some (change s t ⟨.waitingFinish id (countMissing s.finish (earlierIn p t)),p⟩ s.ready
        s.finish)
    | _ => none
  | .resume t =>
    match s.tasks t with
    | ⟨.waitingFinish id 0,p⟩ =>
      some (change s t ⟨.executing,p⟩ s.ready (deregister s.finish id))
    | _ => none
  | .execute t =>
    match s.tasks t with
    | ⟨.executing,p⟩ => some (change s t ⟨.processing,p⟩ s.ready s.finish)
    | _ => none
  | .succeed t =>
    match s.tasks t with
    | ⟨.processing,p⟩ =>
      (resourceReady s.finish (p,t)).map (fun f => change s t ⟨.succeeded,p⟩ s.ready f)
    | _ => none
  | .fail t => failTask s t

end Sentio.TaskModel
