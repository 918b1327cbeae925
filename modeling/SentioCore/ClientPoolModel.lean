import SentioCore.PoolModel
import Mathlib.Data.Rat.Defs

/-!
# The client pool: configuration, priorities and the selection of clients

One manager applies configurations and adjusts the priority; both are a sequence
of calls on the pool of entries. Any number of callers look for a client: they
read the clock, fetch the entries under the lock of the pool, choose one of
those found, and judge it after their callback returned. The tags and bans of
the entries have a lock of their own, which is taken for one entry at a time, so
they may change in the middle of a search. The order in which a map is walked is
left open.
-/

namespace Sentio.ClientPoolModel
open KeyedRows PoolModel Prod

structure Block where
  number : UInt64
  hash : String
  timestamp : ℤ
  deriving DecidableEq

structure EntryStatus (CLIENT : Type) where
  client : Option CLIENT
  initialized : Bool
  latestBlock : Block

structure PoolStatus where
  ready : Bool
  latestBlock : Block
  deriving DecidableEq

structure ClientConfig (CONFIG : Type) where
  index : ℕ
  priority : UInt32
  config : CONFIG

structure BanConfig where
  min : ℤ
  extendMax : ℤ
  extendRate : ℚ

structure PoolConfig (CONFIG : Type) where
  brokenFallBehind : ℤ
  checkSpeedInterval : ℤ
  banConfig : BanConfig
  adjustPriorityInterval : ℤ
  upgradeSensitivity : ℤ
  tagDuration : ℤ
  consumerMaxWait : ℤ
  reInitInterval : ℤ
  clientConfigs : List (ClientConfig CONFIG)

/-- What the pool is instantiated with; `scale` is the product of a duration and
a rate in floating point arithmetic. -/
structure Env (CONFIG : Type) where
  getName : CONFIG → String
  equal : CONFIG → CONFIG → Bool
  zero : CONFIG
  modifiers : List (CONFIG → CONFIG)
  scale : ℤ → ℚ → ℤ

def second : ℤ := 1000000000

def minute : ℤ := 60*second

def select (value default : ℤ) : ℤ := if 0 < value then value else default

structure Ban where
  start : ℤ
  dur : ℤ
  deriving DecidableEq

namespace Ban

def enable (b : Ban) (now : ℤ) : Bool := b.start ≤ now && now-b.start < b.dur

end Ban

structure Extra where
  tags : List (String × ℤ)
  ban : Option Ban
  active : Option ℤ
  deriving DecidableEq

def Extra.none : Extra := ⟨[],Option.none,Option.none⟩

/-- An expired tag is removed when it is looked at. -/
def hasTag (e : Extra) (tag : String) (validFrom : ℤ) : Bool × Extra :=
  match lookup fst e.tags tag with
  | none => (false,e)
  | some (_,lastActiveAt) =>
    if lastActiveAt < validFrom then (false,{e with tags := erase fst e.tags tag})
    else (true,e)

/-- The loops over wanted and over unwanted tags stop at the first failure. -/
def tagsAre (wanted : Bool) (validFrom : ℤ) : List String → Extra → Bool × Extra
  | [], e => (true,e)
  | tag::rest, e =>
    if (hasTag e tag validFrom).1 = wanted then
      tagsAre wanted validFrom rest (hasTag e tag validFrom).2
    else (false,(hasTag e tag validFrom).2)

structure Options (CONFIG : Type) where
  noTags : List String
  withTags : List String
  interruptTags : List String
  maxPriority : Option UInt32
  configFilter : CONFIG → Bool

def Options.none (CONFIG : Type) : Options CONFIG :=
  ⟨[],[],[],Option.none,fun _ => true⟩

structure Result where
  failed : Bool
  broken : Bool
  brokenForTask : Bool
  addTags : List String
  deriving DecidableEq

inductive Report where
  | interrupted
  | noValidClient
  | canceled
  | returned (configName : String) (failed : Bool)
  deriving DecidableEq

inductive Doing where
  | waiting
  | executing
  deriving DecidableEq

inductive MapName where
  | entries
  | configEntries
  | entryExtra
  deriving DecidableEq

inductive Move where
  | next
  | pick (keys : List ℕ)
  | cancel
  | finish (result : Result)

section
variable {CONFIG CLIENT : Type}

abbrev PoolEntry (CONFIG CLIENT : Type) : Type := Entry (ClientConfig CONFIG) (EntryStatus CLIENT)

variable (env : Env CONFIG)

def ClientConfig.equal (a b : ClientConfig CONFIG) : Bool :=
  a.priority = b.priority && env.equal a.config b.config

def nameOf (cc : ClientConfig CONFIG) : String := env.getName cc.config

def trim (c : PoolConfig CONFIG) : PoolConfig CONFIG where
  brokenFallBehind := max c.brokenFallBehind 0
  checkSpeedInterval := select c.checkSpeedInterval minute
  banConfig :=
    ⟨select c.banConfig.min second,select c.banConfig.extendMax (minute*5),
      if 0 < c.banConfig.extendRate then c.banConfig.extendRate else 1/2⟩
  adjustPriorityInterval := select c.adjustPriorityInterval (second*30)
  upgradeSensitivity := select c.upgradeSensitivity (minute*3)
  tagDuration := select c.tagDuration (minute*30)
  consumerMaxWait := select c.consumerMaxWait (minute*2)
  reInitInterval := max c.reInitInterval 0
  clientConfigs := c.clientConfigs.mapIdx (fun index cc =>
    ⟨index,cc.priority,env.modifiers.foldl (fun config modifier => modifier config) cc.config⟩)

def extend (c : BanConfig) (b : Ban) (now : ℤ) : Ban :=
  {b with dur := now-b.start+min (env.scale (now-b.start) c.extendRate) c.extendMax}

/-- The lowest number among the entries that keep up with the highest one; an
entry behind the previous status does not count. -/
def poolStatusBuilder (brokenFallBehind : ℤ) (entries : List (PoolEntry CONFIG CLIENT))
    (pre : PoolStatus) : PoolStatus :=
  let valid := entries.filter (fun e => e.enable && e.status.initialized &&
    pre.latestBlock.number ≤ e.status.latestBlock.number)
  match valid with
  | [] => pre
  | first::rest =>
    let latest := rest.foldl (fun latest e =>
      if latest.number < e.status.latestBlock.number then e.status.latestBlock else latest)
      first.status.latestBlock
    ⟨true,valid.foldl (fun chosen e =>
      if brokenFallBehind < latest.timestamp-e.status.latestBlock.timestamp then chosen
      else if e.status.latestBlock.number < chosen.number then e.status.latestBlock
      else chosen) latest⟩

/-- The check of one entry: whether it is found, whether it counts as a backup,
and what is remembered of it afterwards. -/
def checkEntry (opt : Options CONFIG) (blackList : List String) (now clock tagDuration : ℤ)
    (latest : Block) (extra : Extra) (entry : PoolEntry CONFIG CLIENT) : Bool × Bool × Extra :=
  if blackList.contains entry.name then (false,false,extra)
  else if !opt.configFilter entry.config.config then (false,false,extra)
  else if opt.maxPriority.any (fun most => most < entry.config.priority) then (false,false,extra)
  else
    let wanted := tagsAre true (clock-tagDuration) opt.withTags extra
    if !wanted.1 then (false,false,wanted.2)
    else
      let unwanted := tagsAre false (clock-tagDuration) opt.noTags wanted.2
      if !unwanted.1 then (false,false,unwanted.2)
      else
        (!unwanted.2.ban.any (fun b => b.enable now) && entry.enable && entry.status.initialized &&
          !decide (entry.status.latestBlock.number < latest.number),true,unwanted.2)

/-- The random keys decide between entries of one priority; an unnamed target is
always replaced. -/
def chooseOne (target : Option (PoolEntry CONFIG CLIENT × ℕ)) :
    List (PoolEntry CONFIG CLIENT) → List ℕ → Option (PoolEntry CONFIG CLIENT × ℕ)
  | e::rest, key::keys =>
    match target with
    | none => chooseOne (some (e,key)) rest keys
    | some (t,targetKey) =>
      if t.name = "" ∨ e.config.priority < t.config.priority ∨
          (e.config.priority = t.config.priority ∧ key < targetKey) then
        chooseOne (some (e,key)) rest keys
      else chooseOne target rest keys
  | _, _ => target

inductive Phase (CONFIG CLIENT : Type) where
  | entering
  | searching
  | timed (now : ℤ)
  | fetching (now : ℤ) (rest : List String) (found : List (PoolEntry CONFIG CLIENT)) (backup : ℕ)
  | fetched (found : List (PoolEntry CONFIG CLIENT)) (backup psi : ℕ)
  | waiting (psi : ℕ)
  | executing (ent : PoolEntry CONFIG CLIENT) (startAt : ℤ)
  | tagging (ent : PoolEntry CONFIG CLIENT) (tags : List String) (result : Result)
  | judging (ent : PoolEntry CONFIG CLIENT) (result : Result)
  | left (report : Report)

structure Call (CONFIG CLIENT : Type) where
  opt : Options CONFIG
  enterAt : ℤ
  executedDuration : ℤ
  doing : Option Doing
  blackList : List String
  phase : Phase CONFIG CLIENT

/-- What the manager does next; an index outside the priorities ends the program. -/
inductive Manager (CONFIG : Type) where
  | idle
  | adding (rest : List (ClientConfig CONFIG)) (gone : List String)
  | removing (gone : List String)
  | asking
  | searching
  | upgrading (downgrade : Bool)
  | moving (downgrade hasValidEntryAfterUpgrade : Bool)
  | applying
  | switching (enableList disableList : List String)
  | panicked (index length : ℕ)

structure World (CONFIG CLIENT : Type) where
  clock : ℤ
  pool : Pool (ClientConfig CONFIG) (EntryStatus CLIENT) PoolStatus
  config : PoolConfig CONFIG
  configEntries : List (ClientConfig CONFIG)
  configPriorities : List UInt32
  priorityCursor : ℕ
  entryExtra : List (String × Extra)
  manager : Manager CONFIG
  calls : List (Call CONFIG CLIENT)

inductive Event (CONFIG CLIENT : Type) where
  | tick (passed : ℕ)
  | updateConfig (c : PoolConfig CONFIG)
  | adjustPriority
  | manage
  | report (ref : ℕ) (status : EntryStatus CLIENT)
  | shuffle (map : MapName) (order : List ℕ)
  | useClient (opt : Options CONFIG)
  | proceed (i : ℕ) (move : Move)

def zeroBlock : Block := ⟨0, "",0⟩

def zeroStatus : EntryStatus CLIENT := ⟨none,false,zeroBlock⟩

def newClientPool : World CONFIG CLIENT where
  clock := 0
  pool := ⟨[],⟨false,zeroBlock⟩,0,0⟩
  config := ⟨0,0,⟨0,0,0⟩,0,0,0,0,0,[]⟩
  configEntries := []
  configPriorities := []
  priorityCursor := 0
  entryExtra := []
  manager := .idle
  calls := []

def extraOf (entryExtra : List (String × Extra)) (name : String) : Extra :=
  ((lookup fst entryExtra name).map snd).getD Extra.none

/-- An entry of which nothing is remembered yet is not put into the map. -/
def putBack (entryExtra : List (String × Extra)) (name : String) (extra : Extra) :
    List (String × Extra) :=
  if (lookup fst entryExtra name).isSome then upsert fst entryExtra (name,extra)
  else entryExtra

def anyEntryHasTag (validFrom : ℤ) (tags : List String) :
    List (String × Extra) → Bool × List (String × Extra)
  | [] => (false,[])
  | (name,e)::rest =>
    let looked := tagsAre false validFrom tags e
    if !looked.1 then (true,(name,looked.2)::rest)
    else
      ((anyEntryHasTag validFrom tags rest).1,
        (name,looked.2)::(anyEntryHasTag validFrom tags rest).2)

variable (w : World CONFIG CLIENT)

def builder : List (PoolEntry CONFIG CLIENT) → PoolStatus → PoolStatus :=
  poolStatusBuilder w.config.brokenFallBehind

def findEntries (opt : Options CONFIG) (w : World CONFIG CLIENT) :
    List (PoolEntry CONFIG CLIENT) → List (String × Extra) →
      List (PoolEntry CONFIG CLIENT) × List (String × Extra)
  | [], entryExtra => ([],entryExtra)
  | e::rest, entryExtra =>
    let checked := checkEntry opt [] w.clock w.clock w.config.tagDuration
      w.pool.status.latestBlock (extraOf entryExtra e.name) e
    let later := findEntries opt w rest (putBack entryExtra e.name checked.2.2)
    (if checked.1 then e::later.1 else later.1,later.2)

structure Update (CONFIG : Type) where
  configEntries : List (ClientConfig CONFIG)
  existing : List (ClientConfig CONFIG)
  entryExtra : List (String × Extra)

def updateEntry (u : Update CONFIG) (cc : ClientConfig CONFIG) :
    Update CONFIG where
  configEntries := upsert (nameOf env) u.configEntries cc
  existing := erase (nameOf env) u.existing (nameOf env cc)
  entryExtra :=
    if ClientConfig.equal env
        ((lookup (nameOf env) u.existing (nameOf env cc)).getD ⟨0,0,env.zero⟩) cc then u.entryExtra
    else erase fst u.entryExtra (nameOf env cc)

def priorities (configs : List (ClientConfig CONFIG)) : List UInt32 :=
  ((configs.map ClientConfig.priority).dedup).insertionSort (fun a b => a ≤ b)

def updateConfig (c : PoolConfig CONFIG) :
    World CONFIG CLIENT :=
  let u := c.clientConfigs.foldl (updateEntry env) ⟨[],w.configEntries,w.entryExtra⟩
  {w with
    config := c
    configEntries := u.configEntries
    configPriorities := priorities c.clientConfigs
    priorityCursor := 0
    entryExtra := u.existing.foldl (fun m cc => erase fst m (nameOf env cc)) u.entryExtra
    manager := .adding c.clientConfigs (u.existing.map (nameOf env))}

def maxUint32 : UInt32 := 4294967295

/-- The priorities that are switched on; `none` is an index outside the list. -/
def current : Option UInt32 :=
  if w.configPriorities.isEmpty then some maxUint32 else w.configPriorities[w.priorityCursor]?

def enablePriority : Manager CONFIG :=
  match current w with
  | none => .panicked w.priorityCursor w.configPriorities.length
  | some cur =>
    .switching ((w.configEntries.filter (fun cc => cc.priority ≤ cur)).map (nameOf env))
      ((w.configEntries.filter (fun cc => !decide (cc.priority ≤ cur))).map (nameOf env))

def maxDuration : ℤ := 9223372036854775807

def lastActiveAt : Option ℤ :=
  (w.entryExtra.filter (fun m =>
    some (((lookup (nameOf env) w.configEntries m.1).map ClientConfig.priority).getD 0) =
      w.configPriorities[w.priorityCursor]?)).foldl
        (fun last m =>
          match m.2.active, last with
          | none,_ => last
          | some time,none => some time
          | some time,some t => if t < time then some time else last) none

def indexed (i : ℕ) (next : World CONFIG CLIENT) : World CONFIG CLIENT :=
  if i < w.configPriorities.length then next
  else {w with manager := .panicked i w.configPriorities.length}

def moveCursor
    (downgrade hasValidEntryAfterUpgrade : Bool) : World CONFIG CLIENT :=
  if downgrade then
    if w.priorityCursor+1 < w.configPriorities.length then
      {w with priorityCursor := w.priorityCursor+1, manager := .applying}
    else indexed w w.priorityCursor {w with manager := .applying}
  else if 0 < w.priorityCursor ∧ hasValidEntryAfterUpgrade then
    if w.priorityCursor < w.configPriorities.length ∨ w.entryExtra = [] then
      if w.config.upgradeSensitivity <
          ((lastActiveAt env w).map (fun time => w.clock-time)).getD maxDuration then
        indexed w (w.priorityCursor-1)
          {w with priorityCursor := w.priorityCursor-1, manager := .applying}
      else {w with manager := .applying}
    else {w with manager := .panicked w.priorityCursor w.configPriorities.length}
  else {w with manager := .applying}

variable (call : Call CONFIG CLIENT)

def fetching : Bool :=
  match call.phase with
  | .fetching _ _ _ _ => true
  | _ => false

def locked : Bool := w.calls.any fetching

def manage : Option (World CONFIG CLIENT) :=
  match w.manager with
  | .idle => none
  | .adding [] gone => some {w with manager := .removing gone}
  | .adding (cc::rest) gone =>
    if locked w then none
    else
      some {w with
        pool := add (builder w) (ClientConfig.equal env) zeroStatus w.pool (nameOf env cc) cc
        manager := .adding rest gone}
  | .removing [] => some {w with manager := .applying}
  | .removing (name::gone) =>
    if locked w then none
    else some {w with pool := remove (builder w) w.pool name, manager := .removing gone}
  | .asking =>
    if locked w then none
    else if !w.pool.status.ready ||
        w.config.brokenFallBehind < w.clock-w.pool.status.latestBlock.timestamp then
      some {w with manager := .upgrading true}
    else some {w with manager := .searching}
  | .searching =>
    if locked w then none
    else
      let found := findEntries (Options.none CONFIG) w w.pool.entries w.entryExtra
      some {w with entryExtra := found.2, manager := .upgrading found.1.isEmpty}
  | .upgrading downgrade =>
    match w.configPriorities[w.priorityCursor]? with
    | none => some {w with manager := .moving downgrade false}
    | some cur =>
      if cur = 0 then some {w with manager := .moving downgrade false}
      else if locked w then none
      else
        let found := findEntries {Options.none CONFIG with maxPriority := some (cur-1)} w
          w.pool.entries w.entryExtra
        some {w with entryExtra := found.2, manager := .moving downgrade (!found.1.isEmpty)}
  | .moving downgrade hasValid => some (moveCursor env w downgrade hasValid)
  | .applying => some {w with manager := enablePriority env w}
  | .switching [] [] => some {w with manager := .idle}
  | .switching [] (name::disableList) =>
    if locked w then none
    else some {w with pool := disable w.pool name, manager := .switching [] disableList}
  | .switching (name::enableList) disableList =>
    if locked w then none
    else
      some {w with
        pool := enable (builder w) w.pool name
        manager := .switching enableList disableList}
  | .panicked _ _ => none

/-- Changes what is remembered of an entry as long as it is configured. -/
def remember (name : String) (f : Extra → Extra) :
    List (String × Extra) :=
  if (lookup (nameOf env) w.configEntries name).isSome then
    upsert fst w.entryExtra (name,f (extraOf w.entryExtra name))
  else w.entryExtra

def addTag (clock : ℤ) (tag : String) (e : Extra) : Extra :=
  {e with tags := upsert fst e.tags (tag,clock)}

def setBan (c : BanConfig) (clock : ℤ) (e : Extra) : Extra :=
  match e.ban with
  | none => {e with ban := some ⟨clock,c.min⟩}
  | some b => if b.enable clock then e else {e with ban := some (extend env c b clock)}

def setActive (clock : ℤ) (e : Extra) : Extra := {e with active := some clock, ban := none}

def consumerWaitTooLong : Bool :=
  0 < w.config.consumerMaxWait &&
    w.config.consumerMaxWait < w.clock-call.enterAt-call.executedDuration

def clientBan (name : String) (broken : Bool) :
    List (String × Extra) :=
  if broken then remember env w name (setBan env w.config.banConfig w.clock) else w.entryExtra

def judge
    (ent : PoolEntry CONFIG CLIENT) (result : Result) :
    Call CONFIG CLIENT × List (String × Extra) :=
  if !result.broken && !result.brokenForTask then
    ({call with phase := .left (.returned ent.name result.failed)},
      remember env w ent.name (setActive w.clock))
  else
    ({call with
        blackList := if result.brokenForTask then ent.name::call.blackList else call.blackList
        phase := .entering},
      clientBan env w ent.name result.broken)

def fetchNext (now : ℤ) (name : String)
    (rest : List String) (found : List (PoolEntry CONFIG CLIENT)) (backup : ℕ) :
    Call CONFIG CLIENT × List (String × Extra) :=
  match find w.pool name with
  | none => ({call with phase := .fetching now rest found backup},w.entryExtra)
  | some e =>
    let checked := checkEntry call.opt call.blackList now w.clock w.config.tagDuration
      w.pool.status.latestBlock (extraOf w.entryExtra name) e
    ({call with
        phase := .fetching now rest (if checked.1 then found++[e] else found)
          (if checked.2.1 then backup+1 else backup)},
      putBack w.entryExtra name checked.2.2)

/-- One step of a caller: the caller afterwards, and what is remembered of the entries. -/
def proceed :
    Move → Option (Call CONFIG CLIENT × List (String × Extra))
  | .next =>
    match call.phase with
    | .entering =>
      let asked := anyEntryHasTag (w.clock-w.config.tagDuration) call.opt.interruptTags w.entryExtra
      some ({call with phase := if asked.1 then .left .interrupted else .searching},asked.2)
    | .searching => some ({call with phase := .timed w.clock},w.entryExtra)
    | .timed now =>
      if locked w then none
      else
        some ({call with phase := .fetching now (w.pool.entries.map Entry.name) [] 0},w.entryExtra)
    | .fetching now (name::rest) found backup => some (fetchNext w call now name rest found backup)
    | .fetching _ [] found backup =>
      some ({call with phase := .fetched found backup w.pool.statusIndex},w.entryExtra)
    | .fetched [] backup psi =>
      if backup = 0 || consumerWaitTooLong w call then
        some ({call with phase := .left .noValidClient},w.entryExtra)
      else some ({call with doing := some .waiting, phase := .waiting psi},w.entryExtra)
    | .waiting psi =>
      if psi < w.pool.statusIndex then some ({call with phase := .entering},w.entryExtra) else none
    | .tagging ent (tag::tags) result =>
      some ({call with phase := .tagging ent tags result},
        remember env w ent.name (addTag w.clock tag))
    | .tagging ent [] result => some ({call with phase := .judging ent result},w.entryExtra)
    | .judging ent result => some (judge env w call ent result)
    | _ => none
  | .pick keys =>
    match call.phase with
    | .fetched (e::rest) _ _ =>
      if keys.length < (e::rest).length then none
      else
        (chooseOne none (e::rest) keys).map (fun target =>
          ({call with doing := some .executing, phase := .executing target.1 w.clock},w.entryExtra))
    | _ => none
  | .cancel =>
    match call.phase with
    | .waiting _ => some ({call with phase := .left .canceled},w.entryExtra)
    | _ => none
  | .finish result =>
    match call.phase with
    | .executing ent startAt =>
      some ({call with
          executedDuration := call.executedDuration+(w.clock-startAt)
          phase := .tagging ent result.addTags result},w.entryExtra)
    | _ => none

def isWaiting : Bool :=
  match call.phase with
  | .left _ => false
  | _ => call.doing = some .waiting

def shuffle (order : List ℕ) : MapName → Option (World CONFIG CLIENT)
  | .entries =>
    if order.isPerm (List.range w.pool.entries.length) then
      some {w with pool := {w.pool with entries := reorder order w.pool.entries}}
    else none
  | .configEntries =>
    if order.isPerm (List.range w.configEntries.length) then
      some {w with configEntries := reorder order w.configEntries}
    else none
  | .entryExtra =>
    if order.isPerm (List.range w.entryExtra.length) then
      some {w with entryExtra := reorder order w.entryExtra}
    else none

def idle : Bool :=
  match w.manager with
  | .idle => true
  | _ => false

def step :
    Event CONFIG CLIENT → Option (World CONFIG CLIENT)
  | .tick passed => some {w with clock := w.clock+passed}
  | .updateConfig c => if idle w then some (updateConfig env w (trim env c)) else none
  | .adjustPriority =>
    if idle w && 0 < w.config.adjustPriorityInterval then
      some {w with manager := if w.calls.any isWaiting then .upgrading true else .asking}
    else none
  | .manage => manage env w
  | .report ref status =>
    if locked w then none else some {w with pool := report (builder w) w.pool ref status}
  | .shuffle map order => shuffle w order map
  | .useClient opt =>
    some {w with calls := w.calls++[⟨opt,w.clock,0,none,[],.entering⟩]}
  | .proceed i move =>
    match w.calls[i]? with
    | none => none
    | some call =>
      (proceed env w call move).map (fun moved =>
        {w with calls := w.calls.set i moved.1, entryExtra := moved.2})

end

end Sentio.ClientPoolModel
