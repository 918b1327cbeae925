import SentioCore.Transition

/-!
# The goroutines of a main controller run

The producer announces blocks and hands their tasks to the workers, the workers
report finished tasks, and one goroutine makes checkpoints from the messages it
receives. A step is one action of one goroutine; a step that would block is not
enabled.
-/

namespace Sentio.ProgressModel

structure BlockPanel (δ : Type) where
  blockNumber : ℕ
  dataSummary : Option δ
  taskCount : ℤ
  deriving DecidableEq

inductive ProgressMessage (δ : Type) where
  | blockStart (panel : BlockPanel δ)
  | blockTaskDone (blockNumber : ℕ)
  | blockAllDone (blockNumber : ℕ)
  deriving DecidableEq

inductive Producer (δ : Type) where
  | fetching
  | starting (panel : BlockPanel δ)
  | dispatching (blockNumber remaining : ℕ)
  | finished
  deriving DecidableEq

/-- Where the checkpoint goroutine stands; `faulted` is the panic of a count
taken from a block that is not in the map. -/
inductive Loop where
  | receiving
  | scanning (bn : ℕ)
  | releasing (bn : ℕ)
  | closed
  | faulted
  deriving DecidableEq

structure State (δ : Type) where
  nextBlock : ℕ
  producer : Producer δ
  executing : List ℕ
  reporting : List ℕ
  progressNotice : List (ProgressMessage δ)
  waitingBlocks : ℕ
  waiting : ℕ → Option (Option (BlockPanel δ))
  loop : Loop
  announced : List (BlockPanel δ)
  finished : List ℕ
  checkpoints : List (ℕ × δ)

inductive Action (δ : Type) where
  | next (blockData : Option (δ × ℕ))
  | start
  | dispatch
  | noMoreData
  | complete (blockNumber : ℕ)
  | report (blockNumber : ℕ)
  | receive
  | scan
  | release

section
variable {δ : Type}

def init (first : ℕ) : State δ :=
  ⟨first,.fetching,[],[],[],0,fun _ => none,.receiving,[],[],[]⟩

def newPanel (blockNumber : ℕ) : Option (δ × ℕ) → BlockPanel δ
  | none => ⟨blockNumber,none,0⟩
  | some (summary,tasks) => ⟨blockNumber,some summary,tasks⟩

def waitingCap : ℕ := 1000

def noticeCap : ℕ := 10000

@[simps] def queued (s : State δ) (m : ProgressMessage δ) : State δ :=
  {s with progressNotice := s.progressNotice++[m]}

variable (s : State δ)

def send (m : ProgressMessage δ) : Option (State δ) :=
  if s.progressNotice.length < noticeCap then some (queued s m) else none

@[simps] def acquired (s : State δ) (panel : BlockPanel δ) : State δ :=
  {s with producer := .starting panel, waitingBlocks := s.waitingBlocks+1}

@[simps] def started (s : State δ) (panel : BlockPanel δ) : State δ :=
  {s with
    producer := .dispatching panel.blockNumber panel.taskCount.toNat
    nextBlock := s.nextBlock+1
    announced := s.announced++[panel]}

@[simps] def dispatched (s : State δ) (bn remaining : ℕ) : State δ :=
  {s with producer := .dispatching bn remaining, executing := bn::s.executing}

@[simps] def completed (s : State δ) (bn : ℕ) : State δ :=
  {s with
    executing := s.executing.erase bn
    reporting := bn::s.reporting
    finished := bn::s.finished}

def isPanel : Option (Option (BlockPanel δ)) → Bool
  | some (some _) => true
  | _ => false

def afterReceive (waiting : ℕ → Option (Option (BlockPanel δ))) (bn : ℕ) : Loop :=
  if 0 < bn && isPanel (waiting (bn-1)) then .receiving else .scanning bn

def place (bn : ℕ) (entry : Option (BlockPanel δ)) : State δ :=
  let waiting := Function.update s.waiting bn (some entry)
  {s with waiting := waiting, loop := afterReceive waiting bn}

def handle : ProgressMessage δ → State δ
  | .blockStart panel => place s panel.blockNumber (some panel)
  | .blockAllDone bn => place s bn none
  | .blockTaskDone bn =>
    match s.waiting bn with
    | some (some panel) => place s bn (some {panel with taskCount := panel.taskCount-1})
    | _ => {s with loop := .faulted}

@[simps] def checkpointed (s : State δ) (bn : ℕ) (panel : BlockPanel δ) : State δ :=
  {s with
    checkpoints := s.checkpoints++(panel.dataSummary.map (fun d => (bn,d))).toList
    waiting := Function.update s.waiting bn none
    loop := .releasing bn}

def scanAt (bn : ℕ) : State δ :=
  match s.waiting bn with
  | some none => {s with loop := .closed}
  | none => {s with loop := .receiving}
  | some (some panel) =>
    if panel.taskCount > 0 then {s with loop := .receiving}
    else checkpointed s bn panel

def step (workers : ℕ) (s : State δ) : Action δ → Option (State δ)
  | .next blockData =>
    match s.producer with
    | .fetching =>
      if s.waitingBlocks < waitingCap then
        some (acquired s (newPanel s.nextBlock blockData))
      else none
    | _ => none
  | .start =>
    match s.producer with
    | .starting panel => send (started s panel) (.blockStart panel)
    | _ => none
  | .dispatch =>
    match s.producer with
    | .dispatching _ 0 => some {s with producer := .fetching}
    | .dispatching bn (remaining+1) =>
      if s.executing.length+s.reporting.length < workers then
        some (dispatched s bn remaining)
      else none
    | _ => none
  | .noMoreData =>
    match s.producer with
    | .fetching => send {s with producer := .finished} (.blockAllDone s.nextBlock)
    | _ => none
  | .complete bn => if bn ∈ s.executing then some (completed s bn) else none
  | .report bn =>
    if bn ∈ s.reporting then
      send {s with reporting := s.reporting.erase bn} (.blockTaskDone bn)
    else none
  | .receive =>
    match s.loop, s.progressNotice with
    | .receiving, m::rest => some (handle {s with progressNotice := rest} m)
    | _, _ => none
  | .scan =>
    match s.loop with
    | .scanning bn => some (scanAt s bn)
    | _ => none
  | .release =>
    match s.loop with
    | .releasing bn =>
      if 0 < s.waitingBlocks then
        some {s with waitingBlocks := s.waitingBlocks-1, loop := .scanning (bn+1)}
      else none
    | _ => none

/-- The `MakeCheckpoint` calls for a list of handled blocks: one for each block
that has data, in order. -/
def checkpointCalls (panels : List (BlockPanel δ)) : List (ℕ × δ) :=
  panels.filterMap (fun p => p.dataSummary.map (fun d => (p.blockNumber,d)))

end
end Sentio.ProgressModel
