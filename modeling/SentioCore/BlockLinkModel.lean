import SentioCore.CacheQuery

/-!
# Records with the identity of their blocks

The extended log and trace queries answer the matching records of an interval
together with a hash link for its blocks. A request resolves its block tags,
compares its end with the cache head, traverses the cache once, and asks the
store for what is left: first for the recorded range, then for the records, then
for the identities of the blocks. Each of these calls is a step. In between the
cache may grow and the synchronizer may delete rows and insert others; it
removes the rows of a block before it inserts rows with another hash.
-/

namespace Sentio.BlockLinkModel
open RangeModel RangeFind RangeBlocks CacheQuery UInt64

structure BlockLink where
  number : UInt64
  hash : String
  parentHash : String
  timestamp : UInt64
  deriving DecidableEq

structure BlockHashLinkPart where
  linkFromBlock : Option UInt64
  blockHashLink : List String
  blockTimestamp : List UInt64
  deriving DecidableEq

structure Item where
  blockNumber : UInt64
  blockHash : String
  index : ℕ
  deriving DecidableEq

inductive Tag where
  | number (n : Fin 9223372036854775808)
  | latest
  | other
  deriving DecidableEq

inductive Refusal where
  | blockHash
  | unsupportedTag
  | beyondLatest (stop latest : UInt64)
  | reversed (start stop : UInt64)
  | span (start stop : UInt64)
  | traceInvalid (n : UInt64)
  | tooManyResults
  | conflicting (n : UInt64)
  | missing (n : UInt64)
  | notContiguous (n before : UInt64)
  | linkMismatch (before n : UInt64)
  | linkWithoutStart
  | linkShape (hashes timestamps : ℕ)
  | backend
  deriving DecidableEq

def checkLinks : List BlockLink → Option Refusal
  | left::right::rest =>
    if right.number ≠ left.number+1 then some (.notContiguous right.number left.number)
    else if right.parentHash ≠ left.hash then some (.linkMismatch left.number right.number)
    else checkLinks (right::rest)
  | _ => none

def newBlockHashLinkPart (links : List BlockLink) : Except Refusal BlockHashLinkPart :=
  match links with
  | [] => .ok ⟨none,[],[]⟩
  | first::_ =>
    match checkLinks links with
    | some e => .error e
    | none => .ok ⟨some first.number,first.parentHash::links.map BlockLink.hash,
        links.map BlockLink.timestamp⟩

/-- One link for each timestamp; a hash is the parent of the next one. -/
def rebuild (n : UInt64) : List String → List UInt64 → List BlockLink
  | parentHash::hash::hashes, timestamp::timestamps =>
    ⟨n,hash,parentHash,timestamp⟩::rebuild (n+1) (hash::hashes) timestamps
  | _, _ => []

namespace BlockHashLinkPart

variable (p : BlockHashLinkPart)

def links : Except Refusal (List BlockLink) :=
  match p.linkFromBlock with
  | none =>
    if p.blockHashLink = [] ∧ p.blockTimestamp = [] then .ok [] else .error .linkWithoutStart
  | some start =>
    if p.blockHashLink.length ≠ p.blockTimestamp.length+1 then
      .error (.linkShape p.blockHashLink.length p.blockTimestamp.length)
    else .ok (rebuild start p.blockHashLink p.blockTimestamp)

def covers (n : UInt64) : Bool :=
  p.linkFromBlock.any
    (fun start => start ≤ n && n < start+ofNat p.blockTimestamp.length)

def hashAt (n : UInt64) : Option String :=
  p.linkFromBlock.bind (fun start => p.blockHashLink[(n-start).toNat+1]?)

def wireHash (item : Item) : Option String :=
  if p.covers item.blockNumber then none else some item.blockHash

end BlockHashLinkPart

structure Slot where
  link : BlockLink
  items : List Item
  haveTrace : Bool
  own : ∀ item ∈ items, item.blockNumber = link.number ∧ item.blockHash = link.hash

/-- The cache as its readers find it: a slot is kept under its number. -/
structure LatestWindow extends Window Slot where
  keyed : ∀ n, curRange.contains n → (memCache n).link.number = n

structure Store where
  range : Range
  links : List BlockLink
  items : List Item

inductive Method where
  | logs
  | traces
  deriving DecidableEq

structure Request where
  method : Method
  blockHash : Option String
  fromBlock : Option Tag
  toBlock : Option Tag
  sqlFilter : Item → Bool
  checker : Item → Bool
  maxQueryRangeSize : UInt64

structure ExBlock where
  link : Option BlockLink
  items : List Item
  deriving DecidableEq

def collectFromSlot (q : Request) (st : Slot) : Except (Failure Refusal) (List ExBlock) :=
  match q.method with
  | .logs => .ok [⟨some st.link,st.items.filter q.checker⟩]
  | .traces =>
    if !st.haveTrace then .error (.external (.traceInvalid st.link.number))
    else .ok [⟨some st.link,st.items.filter q.checker⟩]

def maxRecords : ℕ := 4000

def rangeQueryLimit (start stop : UInt64) (limit : ℕ) : ℕ := if start = stop then 0 else limit

def storeQueryLimit (limit : ℕ) : ℕ := if limit = 0 then 0 else limit+1

def checkQuerySpan (start stop maxSpan : UInt64) : Option Refusal :=
  if stop < start then some (.reversed start stop)
  else if maxSpan < stop-start then some (.span start stop)
  else none

def queryItems (store : Store) (q : Request) (queryRange : Range) (limit : ℕ) :
    Except Refusal (List Item) :=
  let rows := ((store.items.filter (fun item => q.sqlFilter item &&
    queryRange.contains item.blockNumber)).dedup).insertionSort
      (fun a b => a.blockNumber < b.blockNumber ∨
        (a.blockNumber = b.blockNumber ∧ a.index ≤ b.index))
  if 0 < limit ∧ limit ≤ rows.length then .error .tooManyResults else .ok rows

def queryBlockLinks (store : Store) (queryRange : Range) : List BlockLink :=
  ((store.links.filter (fun link => queryRange.contains link.number)).dedup).insertionSort
    (fun a b => a.number ≤ b.number)

def findConflict (seen : List BlockLink) : List BlockLink → Option UInt64
  | [] => none
  | link::rest =>
    if seen.any (fun prev => prev.number = link.number) then some link.number
    else findConflict (seen++[link]) rest

/-- The scan counts in words: after the last word it starts over. -/
def scanned (r : Range) : List UInt64 :=
  if r.stop = some maxUint64 then blocks r++blocks ⟨0,r.stop⟩ else blocks r

def checkStoreLinks (links : List BlockLink) (r : Range) : Option Refusal :=
  match findConflict [] links with
  | some n => some (.conflicting n)
  | none =>
    match (scanned r).find? (fun n => !links.any (fun link => link.number = n)) with
    | some n => some (.missing n)
    | none => none

def exBlocksFromStore (links : List BlockLink) (items : List Item) : List ExBlock :=
  links.map (fun link => ⟨some link,items.filter (fun item => item.blockNumber = link.number)⟩)

def assembleEx (elems : List ExBlock) : Except Refusal (BlockHashLinkPart × List Item) :=
  match newBlockHashLinkPart (elems.filterMap ExBlock.link) with
  | .error e => .error e
  | .ok part => .ok (part,elems.flatMap ExBlock.items)

def checkTooManyResultsBy (elems : List ExBlock) (limit : ℕ) : Bool :=
  limit = 0 || (elems.map (fun e => e.items.length)).sum ≤ limit

def restRange (interval cachedRange : Range) : Except (Failure Refusal) (Option Range) :=
  let queryRange := first (interval.remove cachedRange)
  if queryRange.isEmpty then .ok none
  else if cachedRange.isEmpty then .ok (some queryRange)
  else
    match cachedRange.stop with
    | none => .error .nilEnd
    | some head => if head < queryRange.start then .ok none else .ok (some queryRange)

theorem loadRest_restRange {α τ : Type} (interval cachedRange : Range)
    (loader : τ → Range → Except (Failure Refusal) (τ × List α)) (st : τ) (cached : List α) :
    loadRest interval cachedRange loader st cached =
      match restRange interval cachedRange with
      | .error e => .error e
      | .ok none => .ok (st,cached)
      | .ok (some queryRange) => loadInFront loader st queryRange cached := by
  unfold loadRest restRange
  dsimp only
  split
  · rfl
  split
  · rfl
  cases cachedRange.stop with
  | none => rfl
  | some head =>
    dsimp only
    split <;> rfl

inductive Phase where
  | received
  | resolved (sn en : UInt64)
  | headed (sn en : UInt64)
  | traversed (sn en : UInt64) (queryRange : Range) (cached : List ExBlock)
  | inScope (sn en : UInt64) (queryRange : Range) (cached : List ExBlock)
  | queried (sn en : UInt64) (queryRange : Range) (cached : List ExBlock) (items : List Item)
  | answered (sn en : UInt64) (part : BlockHashLinkPart) (items : List Item)
  | failed (e : Failure Refusal)

structure World where
  window : LatestWindow
  store : Store
  phase : Phase

inductive Event where
  | advance (ok : Bool)
  | grow (window : LatestWindow)
  | setRange (range : Range)
  | dropLink (link : BlockLink)
  | dropItem (item : Item)
  | insertLink (link : BlockLink)
  | insertItem (item : Item)

variable (w : LatestWindow)

def getRange : Except (Failure Refusal) UInt64 :=
  if !w.ready then .error .notReady
  else
    match w.curRange.stop with
    | none => .error .nilEnd
    | some stop => .ok stop

variable (q : Request)

/-- A missing tag is the latest block. -/
def resolve : Phase :=
  if q.method = .logs ∧ q.blockHash.isSome then .failed (.external .blockHash)
  else
    match q.fromBlock.getD .latest, q.toBlock.getD .latest with
    | .other, _ | _, .other => .failed (.external .unsupportedTag)
    | .number sn, .number en => .resolved (ofNat sn) (ofNat en)
    | start, stop =>
      match getRange w with
      | .error e => .failed e
      | .ok latest =>
        .resolved (match start with | .number sn => ofNat sn | _ => latest)
          (match stop with | .number en => ofNat en | _ => latest)

def checkHead (sn en : UInt64) : Phase :=
  match getRange w with
  | .error e => .failed e
  | .ok latest =>
    if latest < en then .failed (.external (.beyondLatest en latest))
    else if q.maxQueryRangeSize = 0 then .headed sn en
    else
      match checkQuerySpan sn en q.maxQueryRangeSize with
      | some e => .failed (.external e)
      | none => .headed sn en

def finish (sn en : UInt64) (elems : List ExBlock) : Phase :=
  if !checkTooManyResultsBy elems (rangeQueryLimit sn en maxRecords) then
    .failed (.external .tooManyResults)
  else
    match assembleEx elems with
    | .error e => .failed (.external e)
    | .ok (part,items) => .answered sn en part items

/-- The traversal never ends when the last word is cached and asked for. -/
def traverseCache (sn en : UInt64) : Option Phase :=
  let interval : Range := ⟨sn,some en⟩
  if interval.isEmpty then some (finish sn en [])
  else if !w.ready then some (.failed .notReady)
  else
    match (interval.intersection w.curRange).stop with
    | none => some (.failed .nilEnd)
    | some stop =>
      if stop = maxUint64 then none
      else
        match visit w.memCache (stateless (collectFromSlot q))
            (blocks (interval.intersection w.curRange)) () [] with
        | .error e => some (.failed e)
        | .ok (_,cached) =>
          match restRange interval w.curRange with
          | .error e => some (.failed e)
          | .ok none => some (finish sn en cached)
          | .ok (some queryRange) => some (.traversed sn en queryRange cached)

def loadLinks (store : Store) (q : Request) (sn en : UInt64) (queryRange : Range)
    (cached : List ExBlock) (items : List Item) : Phase :=
  let links := queryBlockLinks store queryRange
  match checkStoreLinks links queryRange with
  | some e => .failed (.external e)
  | none => finish sn en (exBlocksFromStore links (items.filter q.checker)++cached)

def advance (w : World) (ok : Bool) : Option Phase :=
  match w.phase with
  | .received => some (resolve w.window q)
  | .resolved sn en => some (checkHead w.window q sn en)
  | .headed sn en => traverseCache w.window q sn en
  | .traversed sn en queryRange cached =>
    if !ok then some (.failed (.external .backend))
    else if w.store.range.includes queryRange then some (.inScope sn en queryRange cached)
    else some (.failed (.notInScope queryRange w.store.range))
  | .inScope sn en queryRange cached =>
    if !ok then some (.failed (.external .backend))
    else
      match queryItems w.store q queryRange
          (storeQueryLimit (rangeQueryLimit sn en maxRecords)) with
      | .error e => some (.failed (.external e))
      | .ok items => some (.queried sn en queryRange cached items)
  | .queried sn en queryRange cached items =>
    if !ok then some (.failed (.external .backend))
    else some (loadLinks w.store q sn en queryRange cached items)
  | .answered _ _ _ _ | .failed _ => none

/-- Rows of one block have one hash when a row is inserted. -/
def fits (store : Store) (number : UInt64) (hash : String) : Bool :=
  store.links.all (fun link => link.number ≠ number || link.hash = hash) &&
    store.items.all (fun item => item.blockNumber ≠ number || item.blockHash = hash)

def step (w : World) : Event → Option World
  | .advance ok => (advance q w ok).map (fun phase => {w with phase := phase})
  | .grow window => some {w with window := window}
  | .setRange range => some {w with store := {w.store with range := range}}
  | .dropLink link => some {w with store := {w.store with links := w.store.links.erase link}}
  | .dropItem item => some {w with store := {w.store with items := w.store.items.erase item}}
  | .insertLink link =>
    if fits w.store link.number link.hash then
      some {w with store := {w.store with links := link::w.store.links}}
    else none
  | .insertItem item =>
    if fits w.store item.blockNumber item.blockHash then
      some {w with store := {w.store with items := item::w.store.items}}
    else none

end Sentio.BlockLinkModel
