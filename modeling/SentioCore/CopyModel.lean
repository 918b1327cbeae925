import SentioCore.DimensionModel
import SentioCore.RangeBlocks

/-!
# Copying slots from one dimension to another

A copy intersects the source range with an interval, and unless it overwrites it
leaves out what the destination has. Each range left is loaded and saved by a
worker of its own. The workers share the recorded range and the slots of the
destination, and every access of one of them is a step, so two workers may
interleave in any way. A slot store that ends without an error has stored what
it received, and has reported all of it when the interval is complete.
-/

namespace Sentio.CopyModel
open RangeModel RangeBlocks DimensionModel

inductive Failure where
  | discontinuous
  | link
  | other
  deriving DecidableEq

/-- The ranges to save; a range that cannot be read is an error. -/
def plan (srcRange curRange : Option Range) (interval : Range) (overwrite : Bool) :
    Except Failure (List Range) :=
  match srcRange with
  | none => .error .other
  | some srcRange =>
    let target := srcRange.intersection interval
    if target.isEmpty then .ok []
    else
      match curRange with
      | none => .error .other
      | some curRange =>
        if 0 < target.getDistance curRange then .error .discontinuous
        else if overwrite then .ok (newRangeSet [target]).getRanges
        else .ok (target.remove curRange).getRanges

inductive Stage where
  | waiting
  | saving (s : Saving)
  | ended (result : Option Failure)
  deriving DecidableEq

/-- The input is what the source has not sent yet. -/
structure Worker where
  target : Range
  input : List Slot
  stage : Stage
  rejection : Option Failure
  deriving DecidableEq

structure System where
  recorded : Range
  slots : List Slot
  workers : List Worker
  deriving DecidableEq

inductive Action where
  | start (getOk headerOk : Bool)
  | receive
  | act (event : Event)
  | finish (ok : Bool)

def config : Config := ⟨true,true⟩

def begin (recorded : Range) (slots : List Slot) (source : Range → List Slot)
    (targets : List Range) : System :=
  ⟨recorded,slots,targets.map (fun target => ⟨target,source target,.waiting,none⟩)⟩

def apart (curRange interval : Range) : Bool :=
  !curRange.isEmpty && !interval.isEmpty && 0 < curRange.getDistance interval

def startWorker (recorded : Range) (slots : List Slot) (target : Range) (getOk headerOk : Bool) :
    Option Stage :=
  match save config ⟨recorded,slots,.idle,[]⟩ target getOk headerOk with
  | none => none
  | some d =>
    match d.phase with
    | .saving s => some (.saving s)
    | _ => some (.ended (some (if getOk && apart recorded target then .discontinuous else .other)))

/-- A slot with the expected number is rejected because of its link. -/
def rejectionOf (s : Saving) (slot : Slot) : Failure :=
  if s.interval.contains slot.number &&
    slot.number = s.interval.start+UInt64.ofNat s.received.length then .link
  else .discontinuous

def takeSlot (w : Worker) (s : Saving) : Option Worker :=
  match w.input with
  | [] => none
  | slot::rest =>
    if s.rejected then none
    else some {w with
      input := rest
      stage := .saving (receive config s slot)
      rejection := if inCheck config s slot then w.rejection else some (rejectionOf s slot)}

def complete (slots : List Slot) (w : Worker) (s : Saving) : Bool :=
  s.cleaned && w.input.isEmpty && s.channel.isEmpty &&
    s.received.all (fun slot => KeyedRows.lookup Slot.number slots slot.number = some slot) &&
    (s.received.length < (blocks s.interval).length ||
      (blocks s.interval).all (fun n => s.taken.any (fun part => part.contains n)))

/-- A worker also ends with an error when the source, a store or the other
worker fails. -/
def finishWorker (slots : List Slot) (w : Worker) (s : Saving) (ok : Bool) : Option Stage :=
  if !ok then some (.ended (some .other))
  else
    match w.rejection with
    | some failure => some (.ended (some failure))
    | none =>
      if s.broken || s.refused then some (.ended (some .other))
      else if complete slots w s then some (.ended none)
      else none

def storeEvent : Event → Bool
  | .clean _ | .cleaned | .store _ | .report _ | .update _ => true
  | _ => false

variable (sys : System)

def act (w : Worker) (s : Saving) (event : Event) :
    Option (Range × List Slot × Worker) :=
  if storeEvent event then
    match DimensionModel.step config ⟨sys.recorded,sys.slots,.saving s,[]⟩ event with
    | none => none
    | some d =>
      match d.phase with
      | .saving t => some (d.recorded,d.slots,{w with stage := .saving t})
      | _ => none
  else none

def work (w : Worker) (action : Action) : Option (Range × List Slot × Worker) :=
  match w.stage, action with
  | .waiting, .start getOk headerOk =>
    (startWorker sys.recorded sys.slots w.target getOk headerOk).map
      (fun stage => (sys.recorded,sys.slots,{w with stage := stage}))
  | .saving s, .receive => (takeSlot w s).map (fun w => (sys.recorded,sys.slots,w))
  | .saving s, .act event => act sys w s event
  | .saving s, .finish ok =>
    (finishWorker sys.slots w s ok).map
      (fun stage => (sys.recorded,sys.slots,{w with stage := stage}))
  | _, _ => none

def step (move : ℕ × Action) : Option System :=
  match sys.workers[move.1]? with
  | none => none
  | some w =>
    (work sys w move.2).map
      (fun after => ⟨after.1,after.2.1,sys.workers.set move.1 after.2.2⟩)

def succeeded : Bool := sys.workers.all (fun w => w.stage = .ended none)

end Sentio.CopyModel
