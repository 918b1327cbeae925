import SentioCore.FetcherModel

/-!
# The transferring fetcher

Every block is read from an upstream fetcher and handed to a transfer function
by a worker of its own. Workers finish in any order; the ready end moves over
the finished blocks without a gap, and the lowest failed block is kept. A
growth holds the lock while it starts one worker after the other; apart from
that every critical section is one step, and what a worker does without the
lock is a step for itself. The upstream fetcher is seen through its interface:
it answers a block of its range with its data once that is ready, and a block
outside of its range with nothing.
-/

namespace Sentio.TransferModel
open RangeModel FetcherModel

inductive Err where
  | canceled
  | failed
  deriving DecidableEq

inductive Failure where
  | plain (err : Err)
  | permanent (err : Option Err)
  deriving DecidableEq

def Failure.cause : Failure → Option Err
  | .plain err => some err
  | .permanent err => err

def Failure.retry (retry : ℤ) : Failure → ℤ
  | .plain _ => retry
  | .permanent _ => -1

section
variable {α β : Type}

structure Config (α β : Type) where
  upstream : UInt64 → Option α
  size : β → ℤ
  zero : β
  maxConcurrency : UInt64
  maxKeepDataSize : ℤ
  maxKeepDataNum : ℤ
  maxRetry : ℤ
  retryInterval : ℤ

structure Returned (β : Type) where
  result : β
  has : Bool
  err : Option Failure
  deriving DecidableEq

def Returned.entry (r : Returned β) : Option β := if r.has then some r.result else none

inductive Outcome (β : Type) where
  | failed
  | fetched (entry : Option β)
  deriving DecidableEq

inductive Stage (α β : Type) where
  | reading
  | trying (source : α) (retry : ℤ)
  | leaving (outcome : Outcome β)
  | ended (outcome : Outcome β)
  | canceled
  deriving DecidableEq

structure Worker (α β : Type) where
  block : UInt64
  stage : Stage α β
  deriving DecidableEq

structure Call (α β : Type) where
  block : UInt64
  source : α
  returned : Returned β
  deriving DecidableEq

/-- A `Get` that returned without an error, and whether its block belonged to
the full range at that moment. -/
structure Answer (β : Type) where
  block : UInt64
  entry : Option β
  latest : UInt64
  inFull : Bool
  deriving DecidableEq

structure Upstream where
  full : Range
  ready : UInt64
  deriving DecidableEq

structure Fetcher (α β : Type) where
  upstream : Upstream
  full : Range
  readyEnd : UInt64
  fetchStart : UInt64
  fetched : List UInt64
  fetchFailedAt : Option UInt64
  broken : Bool
  latest : UInt64
  data : List (UInt64 × β)
  totalSize : ℤ
  growing : Option UInt64
  moving : List UInt64
  workers : List (Worker α β)
  calls : List (Call α β)
  answers : List (Answer β)
  deriving DecidableEq

def transferFetcher (upstream : Upstream) (latest : UInt64) : Fetcher α β where
  upstream := upstream
  full := upstream.full
  readyEnd := upstream.full.start
  fetchStart := upstream.full.start
  fetched := []
  fetchFailedAt := none
  broken := false
  latest := latest
  data := []
  totalSize := 0
  growing := none
  moving := []
  workers := []
  calls := []
  answers := []

def Upstream.get (source : UInt64 → Option α) (u : Upstream) (n : UInt64) : Option (Option α) :=
  if !u.full.contains n then some none
  else if n < u.ready then some (source n)
  else none

def Upstream.moveStart (u : Upstream) (start : UInt64) : Upstream :=
  if start < u.full.start then u
  else {u with full := {u.full with start := if u.ready < start then u.ready else start}}

def setFetchFailed (failedAt : Option UInt64) (n : UInt64) : Option UInt64 :=
  match failedAt with
  | none => some n
  | some m => if n < m then some n else some m

variable (cfg : Config α β)

/-- The upstream fetcher returned without an error; the loop of the transfers
is not entered when there are no tries. -/
def afterRead : Option α → Stage α β
  | none => .leaving (.fetched none)
  | some source =>
    if cfg.maxRetry < 0 then .leaving (.fetched (some cfg.zero)) else .trying source cfg.maxRetry

def afterCall (source : α) (retry : ℤ) (r : Returned β) : Stage α β :=
  match r.err with
  | none => .leaving (.fetched r.entry)
  | some failure =>
    if failure.cause = some .canceled then .canceled
    else if 0 ≤ failure.retry retry-1 then .trying source (failure.retry retry-1)
    else if failure.cause = none then .leaving (.fetched r.entry)
    else .leaving .failed

/-- The loop that moves the ready end over the finished blocks; it takes at most
as many rounds as there are blocks being fetched. -/
def advance (fetchStart : UInt64) : ℕ → UInt64 → List UInt64 → UInt64 × List UInt64
  | 0, readyEnd, fetched => (readyEnd,fetched)
  | rounds+1, readyEnd, fetched =>
    if readyEnd < fetchStart ∧ readyEnd ∈ fetched then
      advance fetchStart rounds (readyEnd+1) (fetched.filter (fun n => n ≠ readyEnd))
    else (readyEnd,fetched)

variable (f : Fetcher α β)

def store (n : UInt64) : Outcome β → Fetcher α β
  | .failed => {f with fetchFailedAt := setFetchFailed f.fetchFailedAt n}
  | .fetched none => f
  | .fetched (some result) => {f with
      data := KeyedRows.upsert Prod.fst f.data (n,result)
      totalSize := f.totalSize+cfg.size result}

def finish (i : ℕ) (n : UInt64) (outcome : Outcome β) :
    Fetcher α β :=
  let moved := advance f.fetchStart (f.fetchStart.toNat-f.readyEnd.toNat) f.readyEnd
    (n::f.fetched.filter (fun m => m ≠ n))
  {store cfg f n outcome with
    readyEnd := moved.1
    fetched := moved.2
    workers := f.workers.set i ⟨n,.ended outcome⟩}

def maxFetchBlock : UInt64 :=
  atMost (min (f.readyEnd+cfg.maxConcurrency-1) f.latest) f.full.stop

/-- The part of `growth` before its loop; a pause or a rejection leaves
everything alone. -/
def growth : Fetcher α β :=
  if f.fetchFailedAt.isSome then f
  else if f.full.stop.any (fun stop => stop < f.fetchStart) then f
  else if f.totalSize < cfg.maxKeepDataSize ∧ (f.data.length : ℤ) < cfg.maxKeepDataNum then
    {f with growing := some (maxFetchBlock cfg f)}
  else f

def spawn (last : UInt64) : Fetcher α β :=
  if f.fetchStart ≤ last then
    {f with workers := f.workers++[⟨f.fetchStart,.reading⟩], fetchStart := f.fetchStart+1}
  else {f with growing := none}

def moveStart (start : UInt64) : Fetcher α β :=
  if start < f.full.start then f
  else
    let start := if f.readyEnd < start then f.readyEnd else start
    let consumed := fun e : UInt64 × β => f.full.start ≤ e.1 && e.1 < start
    {f with
      full := {f.full with start := start}
      data := f.data.filter (fun e => !consumed e)
      totalSize := f.totalSize-sumSize cfg.size (f.data.filter consumed)}

/-- One round of the loop in `Get`; the round changes nothing when it waits or
ends with an error. -/
def get (n : UInt64) : Fetcher α β :=
  if !f.full.contains n then {f with answers := f.answers++[⟨n,none,f.latest,false⟩]}
  else if f.broken then f
  else if f.readyEnd ≤ n then f
  else if f.fetchFailedAt.any (fun m => m ≤ n) then f
  else {f with answers := f.answers++[⟨n,lookup f.data n,f.latest,true⟩]}

inductive Work (β : Type) where
  | read
  | refuse
  | call (returned : Returned β)
  | cancel
  | finish

inductive Event (β : Type) where
  | growth
  | spawn
  | upstreamReady (ready : UInt64)
  | work (worker : ℕ) (action : Work β)
  | moveUpstream (start : UInt64)
  | moveStart (start : UInt64)
  | updateLatest (latest : UInt64)
  | broken
  | get (block : UInt64)

/-- The steps with the lock have to wait for a growth. -/
def locked (next : Option (Fetcher α β)) : Option (Fetcher α β) :=
  if f.growing.isSome then none else next

def setStage (calls : List (Call α β)) (i : ℕ) (n : UInt64)
    (stage : Stage α β) : Fetcher α β :=
  {f with calls := calls, workers := f.workers.set i ⟨n,stage⟩}

def workerStep (i : ℕ) (w : Worker α β) :
    Work β → Option (Fetcher α β)
  | .read => match w.stage with
    | .reading => (f.upstream.get cfg.upstream w.block).map
        (fun got => setStage f f.calls i w.block (afterRead cfg got))
    | _ => none
  | .refuse => match w.stage with
    | .reading => some (setStage f f.calls i w.block (.leaving .failed))
    | _ => none
  | .call returned => match w.stage with
    | .trying source retry => some (setStage f (f.calls++[⟨w.block,source,returned⟩]) i w.block
        (afterCall source retry returned))
    | _ => none
  | .cancel => match w.stage with
    | .trying _ retry => if 0 < cfg.retryInterval ∧ retry < cfg.maxRetry
        then some (setStage f f.calls i w.block .canceled) else none
    | _ => none
  | .finish => match w.stage with
    | .leaving outcome => locked f (some (finish cfg f i w.block outcome))
    | _ => none

def step : Event β → Option (Fetcher α β)
  | .growth => locked f (some (growth cfg f))
  | .spawn => f.growing.map (spawn f)
  | .upstreamReady ready => if ready < f.upstream.ready then none
      else some {f with upstream := {f.upstream with ready := ready}}
  | .work i action => f.workers[i]?.bind (fun w => workerStep cfg f i w action)
  | .moveUpstream start => some {f with
      upstream := f.upstream.moveStart start
      moving := start::f.moving}
  | .moveStart start => locked f (if start ∈ f.moving
      then some (moveStart cfg {f with moving := f.moving.erase start} start) else none)
  | .updateLatest latest => locked f (some {f with latest := latest})
  | .broken => locked f (some {f with broken := true})
  | .get n => locked f (some (get f n))

end
end Sentio.TransferModel
