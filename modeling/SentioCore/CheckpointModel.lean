import SentioCore.Transition
import SentioCore.SparsifyModel
import SentioCore.TemplateModel

/-!
# The checkpoint controller

The controller is modelled together with what its store and the three data
controllers have accepted. All answers of the store, the commits and the quota
service are inputs of a call, so a failure may occur at every point.
-/

namespace Sentio.CheckpointModel
open SparsifyModel TemplateModel

structure Checkpoint where
  number : UInt64
  time : ℤ
  latestTime : ℤ
  deriving DecidableEq

def watchingDelay : ℤ := 300000000000

def inWatching (ck : Checkpoint) : Bool := ck.latestTime-ck.time < watchingDelay

structure Config where
  saveDelay : ℤ
  saveInterval : ℤ
  maxKeepCheckpointCount : ℕ

structure Controller where
  checkpoints : List Checkpoint
  savedCheckpoints : ℕ
  sparsifyMultiplier : UInt64
  actuallyLastSavedAt : ℤ
  templates : Templates
  unsavedTemplates : Templates
  stopped : Bool
  deriving DecidableEq

/-- One call of the store: what it was handed, what it had accepted before, and
the blocks each data controller had committed since the load. -/
structure StoreCall where
  checkpoints : List Checkpoint
  templates : Templates
  stored : List Checkpoint
  timeSeries : List UInt64
  entity : List UInt64
  webhook : List UInt64
  deriving DecidableEq

/-- A call that has not returned keeps the lock; after a panic no call returns. -/
inductive Status where
  | idle
  | saving
  | panicked
  deriving DecidableEq

structure World where
  controller : Controller
  stored : List Checkpoint
  timeSeries : List UInt64
  entity : List UInt64
  webhook : List UInt64
  calls : List StoreCall
  status : Status
  deriving DecidableEq

inductive StoreAnswer where
  | ok
  | tooBig
  | failed
  deriving DecidableEq

inductive QuotaAnswer where
  | ok
  | overQuota
  | failed
  deriving DecidableEq

/-- The clock readings of one save and the answers it gets; the list holds the
answers to its successive store calls. -/
structure SaveInput where
  clock : ℕ → ℤ
  quota : QuotaAnswer
  timeSeries : Bool
  entity : Bool
  webhook : Bool
  usage : Bool
  store : List StoreAnswer
  savedAt : ℤ

inductive Action where
  | newTemplateInstance (blockNumber : UInt64) (templates : List TemplateInstance)
  | makeCheckpoint (ck : Checkpoint) (cachedTooMuch : Bool) (input : SaveInput)
  | save (saveAll : Bool) (input : SaveInput)
  | cleanCheckpoint (blockNumberGE : UInt64) (answer : StoreAnswer)
  | ready (timeSeries entity webhook : Bool)

def load (checkpoints : List Checkpoint) (templates : Templates) : World :=
  ⟨⟨checkpoints,checkpoints.length,0,0,templates,[],false⟩,checkpoints,[],[],[],[],.idle⟩

def getLatestCheckpoint (c : Controller) (saved : Bool) : Option (Option Checkpoint) :=
  let cc := if saved then c.savedCheckpoints else c.checkpoints.length
  if cc = 0 then some none else (c.checkpoints[cc-1]?).map some

def getTemplates (c : Controller) (savedOnly : Bool) : Option Templates :=
  if savedOnly then
    if c.savedCheckpoints = 0 then some []
    else (c.checkpoints[c.savedCheckpoints-1]?).map (fun ck => upTo c.templates ck.number)
  else some c.templates

variable (w : World)

def crashed : World := {w with status := .panicked}

variable (c : Controller)

def withController : World := {w with controller := c}

def callOf (checkpoints : List Checkpoint) (templates : Templates) : StoreCall :=
  ⟨checkpoints,templates,w.stored,w.timeSeries,w.entity,w.webhook⟩

def callStore (checkpoints : List Checkpoint) (templates : Templates) : World :=
  {w with calls := w.calls++[callOf w checkpoints templates]}

/-- Commits may have been completed partly, so everything unsaved is dropped. -/
def abort : World :=
  let c := {w.controller with
    checkpoints := w.controller.checkpoints.take w.controller.savedCheckpoints}
  match getTemplates c true with
  | none => crashed (withController w c)
  | some templates =>
    withController w {c with templates := templates, unsavedTemplates := [], stopped := true}

def dueFrom (saveDelay : ℤ) (clock : ℕ → ℤ) : ℕ → List Checkpoint → ℕ
  | _, [] => 0
  | i, ck::rest => if clock i-ck.time > saveDelay then dueFrom saveDelay clock (i+1) rest+1 else 0

variable (cfg : Config)

def dueCount (c : Controller) (saveAll : Bool) (clock : ℕ → ℤ) : ℕ :=
  if saveAll then c.checkpoints.length
  else c.savedCheckpoints+dueFrom cfg.saveDelay clock 1 (c.checkpoints.drop c.savedCheckpoints)

def commits (input : SaveInput) (blockNumber : UInt64) : World × Bool :=
  if !input.timeSeries then (w,false)
  else
    let w := {w with timeSeries := blockNumber::w.timeSeries}
    if !input.entity then (w,false)
    else
      let w := {w with entity := blockNumber::w.entity}
      if !input.webhook then (w,false)
      else
        let w := {w with webhook := blockNumber::w.webhook}
        if !input.usage then (w,false) else (w,true)

def thinned (cc : ℕ) : Controller :=
  let multiplier := max c.sparsifyMultiplier 2
  let removed := removeWithMultiplier (c.checkpoints.take cc) Checkpoint.number (multiplier/2)
    multiplier
  {c with
    checkpoints := removeByIndex c.checkpoints removed
    savedCheckpoints := cc-removed.length}

def saveLoop (savedAt : ℤ) : World → ℕ → List StoreAnswer → World
  | w, _, [] => {w with status := .saving}
  | w, cc, answer::rest =>
    let c := thinned w.controller cc
    match getTemplates c true with
    | none => crashed (withController w c)
    | some templates =>
      let list := c.checkpoints.take c.savedCheckpoints
      let w := callStore (withController w c) list templates
      match answer with
      | .ok => {w with
          stored := list
          controller := {c with actuallyLastSavedAt := savedAt}}
      | .tooBig =>
        saveLoop savedAt
          (withController w {c with sparsifyMultiplier := max c.sparsifyMultiplier 2*2})
          c.savedCheckpoints rest
      | .failed => abort w

/-- Of the unsaved checkpoints up to position `cc` only the last one is kept. -/
def skipped (cc : ℕ) : Controller :=
  {c with checkpoints := c.checkpoints.take c.savedCheckpoints++c.checkpoints.drop (cc-1)}

def saveUpTo (cc : ℕ) (cur : Checkpoint) (input : SaveInput) : World :=
  let w := withController w (skipped w.controller cc)
  match input.quota with
  | .ok =>
    let committed := commits w input cur.number
    if committed.2 then
      saveLoop input.savedAt committed.1 (w.controller.savedCheckpoints+1) input.store
    else abort committed.1
  | _ => w

def save (w : World) (saveAll checkInterval : Bool) (input : SaveInput) : World :=
  let c := w.controller
  if c.stopped then w
  else if !saveAll && checkInterval &&
      input.clock 0-c.actuallyLastSavedAt < cfg.saveInterval.tdiv 2 then w
  else
    let cc := dueCount cfg c saveAll input.clock
    if cc = 0 ∨ cc = c.savedCheckpoints then w
    else
      match c.checkpoints[cc-1]? with
      | none => crashed w
      | some cur =>
        if 0 < c.savedCheckpoints ∧ c.checkpoints.length < c.savedCheckpoints then crashed w
        else saveUpTo w cc cur input

def minStartBlock (tpls : List TemplateInstance) : UInt64 :=
  tpls.foldl (fun m t => min m t.blockRange.start) RangeModel.maxUint64

/-- New template instances are confirmed and end the run; the checkpoint of
their block is kept unless one of them starts at this block. -/
def confirmTemplates (ck : Checkpoint) (tpls : List TemplateInstance) :
    Controller :=
  {c with
    templates := put c.templates ck.number tpls
    unsavedTemplates := []
    stopped := true
    checkpoints := if minStartBlock tpls = ck.number then c.checkpoints else c.checkpoints++[ck]}

def makeCheckpoint (w : World) (ck : Checkpoint) (cachedTooMuch : Bool)
    (input : SaveInput) : World :=
  let c := w.controller
  if c.stopped then w
  else
    match lookup c.unsavedTemplates ck.number with
    | some tpls => withController w (confirmTemplates c ck tpls)
    | none =>
      let w := withController w {c with checkpoints := c.checkpoints++[ck]}
      if cfg.saveDelay = 0 && inWatching ck then save cfg w false true input
      else if cfg.maxKeepCheckpointCount ≤ c.checkpoints.length+1 || cachedTooMuch then
        save cfg w false false input
      else w

def newTemplateInstance (blockNumber : UInt64) (tpls : List TemplateInstance) : World :=
  let c := w.controller
  if c.stopped then w
  else
    let existing := orderedInstances c.templates++
      orderedInstances (upTo c.unsavedTemplates blockNumber)
    let accepted := (acceptInstances existing blockNumber tpls).1
    if accepted.isEmpty then w
    else withController w {c with unsavedTemplates := put c.unsavedTemplates blockNumber accepted}

def validCount (blockNumberGE : UInt64) : ℕ :=
  (c.checkpoints.takeWhile (fun ck => ck.number < blockNumberGE)).length

def dropTemplates : Controller :=
  match c.checkpoints.getLast? with
  | none => c
  | some ck => {c with
      templates := upTo c.templates ck.number
      unsavedTemplates := upTo c.unsavedTemplates ck.number}

def cleanCheckpoint (blockNumberGE : UInt64) (answer : StoreAnswer) : World :=
  let c := {w.controller with stopped := true}
  let cc := validCount c blockNumberGE
  if 0 < cc then
    let kept := {c with checkpoints := c.checkpoints.take cc}
    let w := withController w kept
    if cc < c.savedCheckpoints then
      let w := callStore w kept.checkpoints kept.templates
      if answer = .ok then
        {w with
          stored := kept.checkpoints
          controller := dropTemplates {kept with savedCheckpoints := kept.checkpoints.length}}
      else w
    else withController w (dropTemplates kept)
  else
    let w := callStore (withController w c) [] []
    if answer = .ok then
      {w with
        stored := []
        controller := {c with
          checkpoints := []
          savedCheckpoints := 0
          templates := []
          unsavedTemplates := []}}
    else w

/-- What a data controller still has after it was reset to the latest checkpoint. -/
def resetTo (committed : List UInt64) : List UInt64 :=
  match c.checkpoints.getLast? with
  | none => []
  | some ck => committed.filter (· ≤ ck.number)

/-- Each data controller is reset, and each reset may fail. -/
def ready (timeSeries entity webhook : Bool) : World :=
  {w with
    timeSeries := if timeSeries then resetTo w.controller w.timeSeries else w.timeSeries
    entity := if entity then resetTo w.controller w.entity else w.entity
    webhook := if webhook then resetTo w.controller w.webhook else w.webhook
    controller := if timeSeries && entity && webhook then {w.controller with stopped := false}
      else w.controller}

def perform (w : World) : Action → World
  | .newTemplateInstance bn tpls => newTemplateInstance w bn tpls
  | .makeCheckpoint ck cachedTooMuch input => makeCheckpoint cfg w ck cachedTooMuch input
  | .save saveAll input => save cfg w saveAll true input
  | .cleanCheckpoint blockNumberGE answer => cleanCheckpoint w blockNumberGE answer
  | .ready timeSeries entity webhook => ready w timeSeries entity webhook

def step (w : World) (act : Action) : Option World :=
  if w.status = .idle then some (perform cfg w act) else none

end Sentio.CheckpointModel
