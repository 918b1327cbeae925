import SentioCore.RangeBlocks

/-!
# The cache of the latest slots

The cache keeps the slots of one range in memory. A growth round reads the range
of the persistent dimension, fills an empty cache from the level-2 cache, and
then loads the missing slots outside of the lock; as long as the links do not
match it loads again from further left. A repair round replaces slots that
entered incomplete. Every critical section is a step, and what the dimensions
answer is part of the input. A block's hash covers its parent's hash, so slots
with the same hash have the same parent.
-/

namespace Sentio.LatestSlotModel
open RangeModel RangeFind RangeBlocks KeyedRows

structure Slot where
  number : UInt64
  hash : String
  features : List String
  deriving DecidableEq

/-- Lengths are durations in nanoseconds. -/
structure Config where
  linked : Bool
  hasL2 : Bool
  cacheBlockTimeLenMax : Fin 9223372036854775808
  cacheBlockTimeLenMin : Fin 9223372036854775808
  parentOf : String → String

def Config.parentHash (cfg : Config) (slot : Slot) : String := cfg.parentOf slot.hash

def memCacheSize (blockTimeLen : Fin 9223372036854775808) (interval : ℕ) : UInt64 :=
  UInt64.ofNat (blockTimeLen.val/interval)+1

def newRangeByEndAndSize (stop size : UInt64) : Range :=
  if size = 0 then Range.empty
  else if stop+1 < size then ⟨0,some stop⟩
  else ⟨stop+1-size,some stop⟩

def moveLeftBorder (r : Range) (x : UInt64) : Range :=
  if x ≤ r.start then ⟨r.start-x,r.stop⟩ else ⟨0,r.stop⟩

/-- One shifted to the left in a machine word. -/
def shiftOne (round : ℕ) : UInt64 := if round < 64 then UInt64.ofNat (2^round) else 0

def checkLinksMismatch (cfg : Config) : List Slot → Bool
  | left::right::rest =>
    left.number+1 ≠ right.number || left.hash ≠ cfg.parentHash right ||
      checkLinksMismatch cfg (right::rest)
  | _ => false

/-- Where the growth round stands between two critical sections or calls. -/
inductive Growth where
  | idle
  | ranged (extRange : Range) (maxSize minSize : UInt64)
  | l2Loading (extRange : Range) (maxSize minSize : UInt64) (loadRange : Range)
  | loading (curRange newRange loadRange : Range) (round : ℕ)
  | checking (curRange newRange loadRange : Range) (round : ℕ) (loaded : List Slot)
  | writing (curRange newRange : Range) (loaded : List Slot)
  deriving DecidableEq

structure Cache where
  memCache : List Slot
  curRange : Range
  ready : Bool
  growth : Growth
  degraded : List Slot
  failedCount : ℕ
  deriving DecidableEq

def newCache : Cache := ⟨[],Range.empty,false,.idle,[],0⟩

inductive Repaired where
  | failed
  | skipped
  | fixed (slot : Slot)

/-- The answer `none` stands for an error. -/
inductive Event where
  | getRange (extRange : Option Range) (interval : ℕ)
  | l2GetRange (hasRange : Option Range)
  | l2Load (slots : Option (List Slot))
  | load (slots : Option (List Slot))
  | check
  | write
  | scan
  | repairSlot (repaired : Repaired)

def slotAt (slots : List Slot) (n : UInt64) : Option Slot := lookup Slot.number slots n

def Follows (cfg : Config) (left right : Slot) : Prop :=
  left.number.toNat+1 = right.number.toNat ∧ left.hash = cfg.parentHash right

instance (cfg : Config) (left right : Slot) : Decidable (Follows cfg left right) :=
  inferInstanceAs (Decidable (_ ∧ _))

/-- What a dimension answers for a range: its slots in their order. -/
def answers (loadRange : Range) (slots : List Slot) : Bool :=
  slots.map Slot.number = blocks loadRange

/-- The ranges of a growth; without an end the dereference fails. -/
def planGrowth (curRange extRange : Range) (maxSize minSize : UInt64) : Option Growth :=
  match extRange.stop with
  | none => none
  | some extEnd =>
    if curRange.isEmpty then
      let newRange := (newRangeByEndAndSize extEnd minSize).intersection extRange
      some (.loading curRange newRange (last (newRange.remove curRange)) 0)
    else
      match curRange.stop with
      | none => none
      | some curEnd =>
        if extEnd ≤ curEnd then some (.writing curRange curRange [])
        else
          let r := (newRangeByEndAndSize extEnd maxSize).intersection extRange
          let newRange : Range := ⟨max r.start curRange.start,r.stop⟩
          some (.loading curRange newRange (last (newRange.remove curRange)) 0)

variable (c : Cache)

def plan (extRange : Range) (maxSize minSize : UInt64) : Option Cache :=
  (planGrowth c.curRange extRange maxSize minSize).map (fun growth => {c with growth := growth})

/-- The boundary is read only where both ranges reach across it. -/
def needsBoundary (curRange newRange loadRange : Range) : Bool :=
  0 < loadRange.start && curRange.contains (loadRange.start-1) &&
    newRange.contains (loadRange.start-1)

variable (cfg : Config)

def checked (curRange newRange loadRange : Range) (round : ℕ)
    (checking loaded : List Slot) : Growth :=
  if checkLinksMismatch cfg checking then
    .loading curRange newRange ((moveLeftBorder loadRange (shiftOne round)).intersection newRange)
      (round+1)
  else .writing curRange newRange loaded

def check (c : Cache) (curRange newRange loadRange : Range) (round : ℕ)
    (loaded : List Slot) : Option Cache :=
  if needsBoundary curRange newRange loadRange then
    match slotAt c.memCache (loadRange.start-1) with
    | none => none
    | some boundary =>
      some {c with growth := checked cfg curRange newRange loadRange round (boundary::loaded) loaded}
  else some {c with growth := checked cfg curRange newRange loadRange round loaded loaded}

def write (curRange newRange : Range) (loaded : List Slot) : Cache :=
  let toDelRange := first (curRange.remove newRange)
  {c with
    memCache := (loaded.foldl (upsert Slot.number) c.memCache).filter
      (fun slot => !toDelRange.contains slot.number)
    curRange := newRange
    ready := true
    growth := .idle}

def scan : Cache :=
  if !c.ready || c.curRange.isEmpty then c
  else {c with
    degraded := ((blocks c.curRange).filterMap (slotAt c.memCache)).filter
      (fun slot => !slot.features.isEmpty)
    failedCount := 0}

def maxRepairFailuresPerRound : ℕ := 3

def repairSlot (rest : List Slot) : Repaired → Cache
  | .failed =>
    {c with
      degraded := if maxRepairFailuresPerRound ≤ c.failedCount+1 then [] else rest
      failedCount := c.failedCount+1}
  | .skipped => {c with degraded := rest}
  | .fixed slot =>
    if (slotAt c.memCache slot.number).any (fun cur => cur.hash = slot.hash) then
      {c with memCache := upsert Slot.number c.memCache slot, degraded := rest}
    else {c with degraded := rest}

def linkedRun (slots : List Slot) : Bool :=
  !cfg.linked || !checkLinksMismatch cfg slots

def step (c : Cache) (event : Event) : Option Cache :=
  match c.growth, event with
  | .idle, .getRange none _ => some c
  | .idle, .getRange (some extRange) interval =>
    if interval = 0 then none
    else some {c with
      growth := .ranged extRange (memCacheSize cfg.cacheBlockTimeLenMax interval)
        (memCacheSize cfg.cacheBlockTimeLenMin interval)}
  | .ranged extRange maxSize minSize, .l2GetRange hasRange =>
    if !cfg.hasL2 || !c.curRange.isEmpty || extRange.isEmpty then
      plan c extRange maxSize minSize
    else
      match extRange.stop, hasRange with
      | none, _ => none
      | some _, none => plan c extRange maxSize minSize
      | some extEnd, some hasRange =>
        some {c with
          growth := .l2Loading extRange maxSize minSize
            (hasRange.intersection (newRangeByEndAndSize extEnd maxSize))}
  | .l2Loading extRange maxSize minSize _, .l2Load none => plan c extRange maxSize minSize
  | .l2Loading extRange maxSize minSize loadRange, .l2Load (some slots) =>
    if answers loadRange slots && linkedRun cfg slots then
      plan {c with curRange := loadRange, memCache := collapse Slot.number slots}
        extRange maxSize minSize
    else none
  | .loading _ _ _ _, .load none => some {c with growth := .idle}
  | .loading curRange newRange loadRange round, .load (some slots) =>
    if answers loadRange slots then
      some {c with
        growth := if cfg.linked then .checking curRange newRange loadRange round slots
          else .writing curRange newRange slots}
    else none
  | .checking curRange newRange loadRange round loaded, .check =>
    check cfg c curRange newRange loadRange round loaded
  | .writing curRange newRange loaded, .write => some (write c curRange newRange loaded)
  | _, .scan => if c.degraded.isEmpty then some (scan c) else none
  | _, .repairSlot repaired =>
    match c.degraded with
    | [] => none
    | _::rest => some (repairSlot c rest repaired)
  | _, _ => none

def getByNumber (n : UInt64) : Option Slot :=
  if c.ready && c.curRange.contains n then slotAt c.memCache n else none

end Sentio.LatestSlotModel
