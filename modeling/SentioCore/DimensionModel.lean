import SentioCore.RangeFind
import SentioCore.Transition

/-!
# A dimension with a recorded range and a slot store

A dimension keeps slots in one store and the range of its complete slots in
another. A save cleans its interval, stores the slots it receives, and is told
of finished parts in any order; each part may extend the recorded range. A
deletion shrinks the range before it touches the slots. Every write to one of
the stores is a step of its own, so a call may fail between any two of them.
-/

namespace Sentio.DimensionModel
open RangeModel RangeHoles RangeFind KeyedRows

structure Slot where
  number : UInt64
  hash : String
  parentHash : String
  deriving DecidableEq

def checkLinkMismatch (left right : Slot) : Bool :=
  left.number+1 = right.number && left.hash ≠ right.parentHash

/-- Whether the slots of the chain are linked by their hashes, and whether the
range store refuses a range without end. -/
structure Config where
  linked : Bool
  refusesInfinity : Bool

/-- One running save. The finished parts are those the range updater has taken and those in its
channel; `old` is the range the save found. -/
structure Saving where
  interval : Range
  old : Range
  seed : Range
  leftPoint : Option Slot
  received : List Slot
  cleaned : Bool
  taken : List Range
  channel : List Range
  completed : RangeSet
  curRange : Range
  rejected : Bool
  broken : Bool
  refused : Bool
  deriving DecidableEq

inductive Phase where
  | idle
  | saving (s : Saving)
  | deleting (target : Range)
  deriving DecidableEq

structure Outcome where
  old : Range
  interval : Range
  parts : List Range
  recorded : Range
  deriving DecidableEq

structure Dimension where
  recorded : Range
  slots : List Slot
  phase : Phase
  outcomes : List Outcome
  deriving DecidableEq

inductive Event where
  | save (interval : Range) (getOk headerOk : Bool)
  | clean (number : UInt64)
  | cleaned
  | receive (slot : Slot)
  | store (number : UInt64)
  | report (part : Range)
  | update (ok : Bool)
  | finish (ok : Bool)
  | delete (target : Range) (ok : Bool)
  | drop (number : UInt64)
  | deleted

def holds (slots : List Slot) (n : UInt64) : Bool := slots.any (fun slot => slot.number = n)

def holdsAll (slots : List Slot) (r : Range) : Bool :=
  (List.range (top r.stop+1-r.start.toNat)).all (fun i => holds slots (r.start+UInt64.ofNat i))

def idleWith (d : Dimension) : Dimension := {d with phase := .idle}

variable (cfg : Config)

def setRange (new : Range) : Option Range :=
  if cfg.refusesInfinity && new.stop.isNone then none else some new

variable (d : Dimension) (interval : Range)

def needsHeader : Bool :=
  cfg.linked && 0 < interval.start && d.recorded.contains (interval.start-1)

def startSaving (leftPoint : Option Slot) : Dimension :=
  {d with phase := .saving {
    interval := interval
    old := d.recorded
    seed := if d.recorded.isEmpty then single interval.start else d.recorded
    leftPoint := leftPoint
    received := []
    cleaned := false
    taken := []
    channel := []
    completed := emptyRangeSet
    curRange := d.recorded
    rejected := false
    broken := false
    refused := false}}

/-- The checks before a save starts; a save of an infinite interval panics. -/
def save (getOk headerOk : Bool) :
    Option Dimension :=
  if !getOk then some d
  else if !d.recorded.isEmpty && !interval.isEmpty && 0 < d.recorded.getDistance interval then some d
  else if needsHeader cfg d interval then
    match lookup Slot.number d.slots (interval.start-1) with
    | none => some d
    | some header =>
      if !headerOk then some d
      else if interval.stop.isNone then none
      else some (startSaving d interval (some header))
  else if interval.stop.isNone then none
  else some (startSaving d interval none)

variable (s : Saving)

/-- The checks of a slot that enters a save. -/
def inCheck (slot : Slot) : Bool :=
  s.interval.contains slot.number &&
    slot.number = s.interval.start+UInt64.ofNat s.received.length &&
    !(cfg.linked && s.leftPoint.any (fun left => checkLinkMismatch left slot))

def receive (slot : Slot) : Saving :=
  if inCheck cfg s slot then
    {s with received := s.received++[slot], leftPoint := if cfg.linked then some slot else none}
  else {s with rejected := true}

/-- Whether the slot store may report the part: its slots are stored, and no
slot is reported twice. -/
def reportable (part : Range) : Bool :=
  s.cleaned && !part.isEmpty && s.interval.includes part &&
    (s.taken++s.channel).all (fun p => (p.intersection part).isEmpty) && holdsAll d.slots part

/-- The range updater takes the next part. The flag of `FindContains` is
ignored, so a seed that is not found yields the range of all blocks. -/
def update (part : Range) (later : List Range)
    (ok : Bool) : Dimension :=
  let completed := s.completed.union part
  let s := {s with taken := s.taken++[part], channel := later, completed := completed}
  let afterRange := (findContains (completed.union s.curRange) s.seed).1
  if equal s.curRange afterRange then {d with phase := .saving s}
  else if !ok then {d with phase := .saving {s with broken := true}}
  else
    match setRange cfg (afterRange.cover d.recorded) with
    | none => {d with phase := .saving {s with refused := true}}
    | some new => {d with recorded := new, phase := .saving {s with curRange := new}}

def finish (ok : Bool) : Dimension :=
  if ok && !s.rejected && !s.broken && (s.channel.isEmpty || s.refused) then
    {d with
      phase := .idle
      outcomes := d.outcomes++[⟨s.old,s.interval,s.taken++s.channel,d.recorded⟩]}
  else idleWith d

def delete (target : Range) (ok : Bool) : Dimension :=
  if !ok then d
  else
    match setRange cfg (first (d.recorded.remove target)) with
    | none => d
    | some new => {d with recorded := new, phase := .deleting target}

def step (event : Event) : Option Dimension :=
  match d.phase, event with
  | .idle, .save interval getOk headerOk => save cfg d interval getOk headerOk
  | .idle, .delete target ok => some (delete cfg d target ok)
  | .saving s, .clean n =>
    if !s.cleaned && s.interval.contains n then
      some {d with slots := erase Slot.number d.slots n}
    else none
  | .saving s, .cleaned =>
    if s.cleaned then none
    else some {d with
      slots := d.slots.filter (fun slot => !s.interval.contains slot.number)
      phase := .saving {s with cleaned := true}}
  | .saving s, .receive slot =>
    if s.rejected then none else some {d with phase := .saving (receive cfg s slot)}
  | .saving s, .store n =>
    match lookup Slot.number s.received n with
    | none => none
    | some slot =>
      if s.cleaned then some {d with slots := upsert Slot.number d.slots slot} else none
  | .saving s, .report part =>
    if reportable d s part then
      some {d with phase := .saving {s with channel := s.channel++[part]}}
    else none
  | .saving s, .update ok =>
    match s.channel with
    | [] => none
    | part::later =>
      if s.broken || s.refused then none else some (update cfg d s part later ok)
  | .saving s, .finish ok => some (finish d s ok)
  | .deleting target, .drop n =>
    if target.contains n then some {d with slots := erase Slot.number d.slots n} else none
  | .deleting _, .deleted => some (idleWith d)
  | _, _ => none

end Sentio.DimensionModel
