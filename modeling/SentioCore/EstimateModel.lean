import SentioCore.BitSearch
import SentioCore.CacheQuery

/-!
# Estimating the block at a date

The block is searched first among the cached slots and then in the store, which
is asked only if what the cache answered leaves the store a chance. The proxy
implementation asks a node for single headers and searches by bisection. Block
times are milliseconds; the store gets the target as a signed number.
-/

namespace Sentio.EstimateModel
open RangeModel CacheQuery BitSearch

/-- A signed word: a number, or a negative value, of which five are tags. -/
inductive BlockNumber where
  | number (n : Fin 9223372036854775808)
  | pending
  | latest
  | finalized
  | safe
  | earliest
  | negative
  deriving DecidableEq

def BlockNumber.ofWord (x : UInt64) : BlockNumber :=
  if h : x.toNat < 9223372036854775808 then .number ⟨x.toNat,h⟩
  else if x = maxUint64 then .pending
  else if x = maxUint64-1 then .latest
  else if x = maxUint64-2 then .finalized
  else if x = maxUint64-3 then .safe
  else if x = maxUint64-4 then .earliest
  else .negative

inductive Mode where
  | le
  | ge
  deriving DecidableEq

def Mode.text : Mode → String
  | .le => "LE"
  | .ge => "GE"

def parseMode (text : String) : Option Mode :=
  if text = "LE" then some .le else if text = "GE" then some .ge else none

inductive Refusal where
  | endBlock (b : BlockNumber)
  | startBlock (b : BlockNumber)
  | invalidMode (text : String)
  | headerNotFound (b : BlockNumber)
  | backend (text : String)
  deriving DecidableEq

structure Slot where
  number : UInt64
  timeMs : UInt64
  deriving DecidableEq

variable (mode : Mode)

def qualifies (target ts : UInt64) : Bool :=
  match mode with
  | .le => ts ≤ target
  | .ge => target ≤ ts

def Mode.better : Mode → UInt64 → UInt64 → UInt64
  | .le => max
  | .ge => min

def updateResult (target : UInt64) (result : Option UInt64) (bn ts : UInt64) :
    Option UInt64 :=
  if qualifies mode target ts then some (result.elim bn (fun r => mode.better r bn)) else result

def storeTarget (target : UInt64) : ℤ :=
  if target.toNat < 9223372036854775808 then target.toNat
  else target.toNat-18446744073709551616

structure Backend where
  rangeStore : Except String Range
  queryDate : ℤ → UInt64 → UInt64 → Bool → Except String (Option UInt64)

/-- Whether the result found so far makes a query of the store needless. -/
def needless (result : Option UInt64) (queryRange : Range) :
    Except (Failure Refusal) Bool :=
  match mode, result with
  | .le, some _ => .ok true
  | .le, none => .ok false
  | .ge, none => .ok true
  | .ge, some r =>
    match queryRange.stop with
    | none => .error .nilEnd
    | some stop => .ok (stop+1 < r)

def queryStore (b : Backend) (target : UInt64) (mode : Mode) (result : Option UInt64)
    (curRange : Range) (start stop : UInt64) :
    Except (Failure Refusal) (Option UInt64 × List UInt64) :=
  if Range.isEmpty ⟨start,some stop⟩ then .ok (result,[])
  else if !curRange.includes ⟨start,some stop⟩ then
    .error (.notInScope ⟨start,some stop⟩ curRange)
  else
    match b.queryDate (storeTarget target) start stop (mode == .le) with
    | .error text => .error (.external (.backend text))
    | .ok found => .ok (found.or result,[])

def loadDate (b : Backend) (target : UInt64) (startBlock : BlockNumber) (mode : Mode)
    (result : Option UInt64) (queryRange : Range) :
    Except (Failure Refusal) (Option UInt64 × List UInt64) :=
  match needless mode result queryRange with
  | .error e => .error e
  | .ok true => .ok (result,[])
  | .ok false =>
    match b.rangeStore with
    | .error text => .error (.external (.backend text))
    | .ok curRange =>
      match queryRange.stop with
      | none => .error .nilEnd
      | some stop =>
        if queryRange.start = 0 ∧ startBlock = .earliest then
          queryStore b target mode result curRange curRange.start stop
        else queryStore b target mode result curRange queryRange.start stop

def endNumber : BlockNumber → Option UInt64
  | .number n => some (UInt64.ofNat n)
  | .latest => some maxUint64
  | _ => none

def startNumber : BlockNumber → Option UInt64
  | .number n => some (UInt64.ofNat n)
  | .earliest => some 0
  | _ => none

def visitSlot (target : UInt64) (result : Option UInt64) (slot : Slot) :
    Except (Failure Refusal) (Option UInt64 × List UInt64) :=
  .ok (updateResult mode target result slot.number slot.timeMs,[])

def estimateBlockNumberAtDate (fuel : ℕ) (w : Window Slot) (b : Backend) (target : UInt64)
    (startBlock endBlock : BlockNumber) (text : String) :
    Option (Except (Failure Refusal) (Option UInt64)) :=
  match endNumber endBlock, startNumber startBlock, parseMode text with
  | none, _, _ => some (.error (.external (.endBlock endBlock)))
  | some _, none, _ => some (.error (.external (.startBlock startBlock)))
  | some _, some _, none => some (.error (.external (.invalidMode text)))
  | some en, some sn, some mode =>
    (queryRangeWithCache fuel ⟨sn,some en⟩ w (visitSlot mode target)
      (loadDate b target startBlock mode) none).map (fun answer => answer.map Prod.fst)

def beyond (target ts : UInt64) : Bool :=
  match mode with
  | .le => target < ts
  | .ge => target ≤ ts

variable (getBlockHeader : BlockNumber → Except (Failure Refusal) Slot)

def searchHeaders (target : UInt64)
    (mode : Mode) (start stop : Slot) (x : UInt64) : Except (Failure Refusal) Bool :=
  if x ≤ start.number then .ok false
  else if stop.number ≤ x then .ok true
  else
    match getBlockHeader (.ofWord x) with
    | .error e => .error e
    | .ok h => .ok (beyond mode target h.timeMs)

def proxySearch (fuel : ℕ)
    (target : UInt64) (mode : Mode) (start stop : Slot) :
    Option (Except (Failure Refusal) (Option UInt64)) :=
  if start.number = stop.number then some (.ok (some start.number))
  else
    match minP2 stop.number with
    | none => none
    | some high =>
      match binarySearch (searchHeaders getBlockHeader target mode start stop) fuel 0 high with
      | none => none
      | some (.error e) => some (.error e)
      | some (.ok (r,_)) =>
        match mode with
        | .le => some (.ok (some (r-1)))
        | .ge => some (.ok (some r))

/-- The result is the word of the block number the source returns. -/
def proxyEstimate (fuel : ℕ)
    (target : UInt64) (startBlock endBlock : BlockNumber) (text : String) :
    Option (Except (Failure Refusal) (Option UInt64)) :=
  match endNumber endBlock, startNumber startBlock, parseMode text with
  | none, _, _ => some (.error (.external (.endBlock endBlock)))
  | some _, none, _ => some (.error (.external (.startBlock startBlock)))
  | some _, some _, none => some (.error (.external (.invalidMode text)))
  | some _, some _, some mode =>
    match getBlockHeader startBlock with
    | .error e => some (.error e)
    | .ok start =>
      if mode = .le ∧ target < start.timeMs then some (.ok none)
      else if mode = .ge ∧ target ≤ start.timeMs then some (.ok (some start.number))
      else
        match getBlockHeader endBlock with
        | .error e => some (.error e)
        | .ok stop =>
          if mode = .ge ∧ stop.timeMs < target then some (.ok none)
          else if mode = .le ∧ stop.timeMs ≤ target then some (.ok (some stop.number))
          else proxySearch getBlockHeader fuel target mode start stop

end Sentio.EstimateModel
