import SentioCore.RangeCut

/-!
# Log requirements and log queries

A log filter joins a list of topic sets, an address set and the demand for an
ERC20 address. The driver merges the requirements of a block, asks the node
with lists that are short enough, and filters the answer again by itself. An
address stands for its lower-case text. The client's ERC20 test is supplied and
may fail; a failure is `none`.
-/

namespace Sentio.LogModel
open RangeModel RangeCut

structure Log where
  blockNumber : UInt64
  address : String
  topics : List String
  deriving DecidableEq

structure LogFilter where
  topics : List (List String)
  address : List String
  addressShouldBeERC20 : Bool
  deriving DecidableEq

structure LogRequirement where
  blockRange : Range
  filter : LogFilter
  deriving DecidableEq

def admits (set : List String) (s : String) : Bool := set.isEmpty || set.contains s

/-- The local checker walks the topics of the log, so a set at a position the
log does not have is never consulted. -/
def topicsPass : List (List String) → List String → Bool
  | set::sets, topic::topics => admits set topic && topicsPass sets topics
  | _, _ => true

def buildChecker (isERC20Address : String → Option Bool) (f : LogFilter) (log : Log) :
    Option Bool :=
  if !topicsPass f.topics log.topics then some false
  else if !admits f.address log.address then some false
  else if f.addressShouldBeERC20 then isERC20Address log.address
  else some true

def filterArrWithErr {α : Type} (f : α → Option Bool) : List α → Option (List α)
  | [] => some []
  | a::rest =>
    match f a with
    | none => none
    | some ok => (filterArrWithErr f rest).map (fun r => if ok then a::r else r)

def checkAny (isERC20Address : String → Option Bool) (log : Log) : List LogFilter → Option Bool
  | [] => some false
  | f::rest =>
    match buildChecker isERC20Address f log with
    | none => none
    | some true => some true
    | some false => checkAny isERC20Address log rest

def filterLogs (isERC20Address : String → Option Bool) (logs : List Log)
    (filters : List LogFilter) : Option (List Log) :=
  filterArrWithErr (fun log => checkAny isERC20Address log filters) logs

/-- The union of one list of every filter, where an empty list stands for every
value and a filter without the list makes the whole undefined. -/
def unionOf : List (Option (List String)) → List String → Option (List String)
  | [], s => some s
  | none::_, _ => none
  | some []::_, _ => some []
  | some (t::ts)::rest, s => unionOf rest (s ∪ (t::ts))

def mergeTopics (filters : List LogFilter) : ℕ → ℕ → List (List String)
  | 0, _ => []
  | fuel+1, i =>
    match unionOf (filters.map (fun f => f.topics[i]?)) [] with
    | none => []
    | some s => s::mergeTopics filters fuel (i+1)

/-- The topic loop has no bound in the source; it ends at the latest where the
first filter has no further list. -/
def topicBound : List LogFilter → ℕ
  | [] => 0
  | f::_ => f.topics.length+1

def mergeLogFilers (filters : List LogFilter) : LogFilter :=
  ⟨mergeTopics filters (topicBound filters) 0,
    (unionOf (filters.map (fun f => some f.address)) []).getD [],
    filters.all (fun f => f.addressShouldBeERC20)⟩

def filtersOver (reqs : List LogRequirement) (r : Range) : List LogFilter :=
  (reqs.filter (fun req => req.blockRange.includes r)).map (fun req => req.filter)

def requirementOver (reqs : List LogRequirement) (r : Range) : Option LogRequirement :=
  let filters := filtersOver reqs r
  if filters.isEmpty then none else some ⟨r,mergeLogFilers filters⟩

def mergeLogRequirements (current : UInt64) (reqs : List LogRequirement) : List LogRequirement :=
  (cutRangeSet current (reqs.map (fun req => req.blockRange))).filterMap (requirementOver reqs)

/-- The matching rule of `eth_getLogs`: every non-empty topic list needs a topic
of the log at its position. -/
def topicsMatch : List (List String) → List String → Bool
  | [], _ => true
  | set::sets, [] => set.isEmpty && topicsMatch sets []
  | set::sets, topic::topics => admits set topic && topicsMatch sets topics

def nodeChecker (address : List String) (topics : List (List String)) (log : Log) : Bool :=
  admits address log.address && topicsMatch topics log.topics

def getLogs (chain : List Log) (start stop : UInt64) (address : List String)
    (topics : List (List String)) : List Log :=
  chain.filter (fun log =>
    start ≤ log.blockNumber && log.blockNumber ≤ stop && nodeChecker address topics log)

structure QueryLimits where
  maxAddressLen : ℕ
  maxTopicLen : ℕ

def ethGetLogsLimits : QueryLimits := ⟨200,100⟩

def dropOversized (limit : ℕ) (set : List String) : List String :=
  if limit < set.length then [] else set

/-- The logs kept by the query of `BuildLogFetcher`. Its three ways to the node
send the same lists and filter each answer with the requirement's own filter. -/
def queryLogs (isERC20Address : String → Option Bool) (limits : QueryLimits) (chain : List Log)
    (req : LogRequirement) (start stop : UInt64) : Option (List Log) :=
  filterLogs isERC20Address
    (getLogs chain start stop (dropOversized limits.maxAddressLen req.filter.address)
      (req.filter.topics.map (dropOversized limits.maxTopicLen)))
    [req.filter]

end Sentio.LogModel
