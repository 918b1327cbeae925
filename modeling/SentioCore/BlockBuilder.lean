import SentioCore.RangeModel
import SentioCore.SparsifyModel

/-!
# The block builder and its link check

`Next` hands out consecutive blocks. A block with data is compared with the last
recorded header; a parent hash that differs starts a scan of the recorded
headers against the client.
-/

namespace Sentio.BlockBuilder
open RangeModel SparsifyModel

structure BlockHeader where
  number : UInt64
  hash : String
  parentHash : String
  time : ℤ
  deriving DecidableEq

structure Builder where
  checkLink : Bool
  fullBlockRange : Range
  currentBlockNumber : UInt64
  headerList : List BlockHeader
  deriving DecidableEq

inductive Fetched where
  | failed
  | empty
  | data (block : BlockHeader) (latestTime : ℤ)
  deriving DecidableEq

/-- What the fetcher returns to one `Next` call, and what the client would
answer when asked for the header recorded at an index; `none` is an error. -/
structure Input where
  fetched : Fetched
  answer : ℕ → Option BlockHeader

inductive Outcome where
  | outOfRange
  | panicked
  | failed
  | reorg (blockNumber : UInt64)
  | noData
  | accepted (block : BlockHeader)
  deriving DecidableEq

def watchingDelay : ℤ := 300000000000

def start (checkLink : Bool) (checkpoint : Option BlockHeader) (full : Range) : Builder :=
  match checkpoint with
  | none => ⟨checkLink,full,full.start,[]⟩
  | some header => ⟨checkLink,full,header.number+1,if checkLink then [header] else []⟩

/-- The scan over the recorded headers, newest first. -/
def rescan (answer : ℕ → Option BlockHeader) (newest : Bool) :
    List BlockHeader → Option UInt64 → Option UInt64 × Bool
  | [], reorg => (reorg,false)
  | recorded::older, reorg =>
    match answer older.length with
    | none => (reorg,true)
    | some h =>
      if h.hash = recorded.hash then (if newest then reorg else some (h.number+1),false)
      else rescan answer false older (some recorded.number)

def checkReorg (b : Builder) (cur : BlockHeader) (allowScan : Bool)
    (answer : ℕ → Option BlockHeader) : Option UInt64 × Bool :=
  match b.headerList.getLast? with
  | none => (none,false)
  | some pre =>
    if pre.number+1 = cur.number then
      if cur.parentHash = pre.hash then (none,false)
      else rescan answer true b.headerList.reverse none
    else if allowScan then rescan answer true b.headerList.reverse none
    else (none,false)

def advance (b : Builder) : Builder := {b with currentBlockNumber := b.currentBlockNumber+1}

def accept (b : Builder) (cur : BlockHeader) : Builder :=
  if b.checkLink then
    advance {b with headerList := sparsify (b.headerList++[cur]) BlockHeader.number}
  else advance b

def next (b : Builder) (input : Input) : Builder × Outcome :=
  if b.fullBlockRange.contains b.currentBlockNumber then
    match input.fetched with
    | .failed => (b,.failed)
    | .empty => (advance b,.noData)
    | .data cur latestTime =>
      if b.checkLink then
        match checkReorg b cur (latestTime-cur.time < watchingDelay) input.answer with
        | (_,true) => (b,.failed)
        | (some blockNumber,false) => (b,.reorg blockNumber)
        | (none,false) => (accept b cur,.accepted cur)
      else (accept b cur,.accepted cur)
  else if b.currentBlockNumber < b.fullBlockRange.start then (b,.panicked)
  else (b,.outOfRange)

/-- The block recorded last: the starting checkpoint or the last block that was
accepted with data. -/
def record (recorded : Option BlockHeader) : Outcome → Option BlockHeader
  | .accepted block => some block
  | _ => recorded

def Links (recorded : Option BlockHeader) (outcome : Outcome) : Prop :=
  ∀ cur pre, outcome = .accepted cur → recorded = some pre → pre.number+1 = cur.number →
    cur.parentHash = pre.hash

def AllLinked (b : Builder) (recorded : Option BlockHeader) : List Input → Prop
  | [] => True
  | input::rest => Links recorded (next b input).2 ∧
      AllLinked (next b input).1 (record recorded (next b input).2) rest

/-- The client does not confirm the recorded hash of a block whose successor
arrives with another parent hash. -/
def Unconfirmed (b : Builder) (recorded : Option BlockHeader) (input : Input) : Prop :=
  ∀ cur latestTime pre h, b.fullBlockRange.contains b.currentBlockNumber →
    input.fetched = .data cur latestTime → recorded = some pre → pre.number+1 = cur.number →
    cur.parentHash ≠ pre.hash → input.answer (b.headerList.length-1) = some h → h.hash ≠ pre.hash

def AllUnconfirmed (b : Builder) (recorded : Option BlockHeader) : List Input → Prop
  | [] => True
  | input::rest => Unconfirmed b recorded input ∧
      AllUnconfirmed (next b input).1 (record recorded (next b input).2) rest

theorem rescan_reorg (answer : ℕ → Option BlockHeader) (headers : List BlockHeader)
    (blockNumber : UInt64) : ∃ n err, rescan answer false headers (some blockNumber) = (some n,err) := by
  induction headers generalizing blockNumber with
  | nil => exact ⟨blockNumber,false,rfl⟩
  | cons r older ih =>
    simp only [rescan]
    split
    · exact ⟨blockNumber,true,rfl⟩
    split
    · exact ⟨_,false,rfl⟩
    · exact ih r.number

variable {pre : BlockHeader} {answer : ℕ → Option BlockHeader}

theorem rescan_clean_iff {front : List BlockHeader} :
    rescan answer true (front++[pre]).reverse none = (none,false) ↔
      ∃ h, answer front.length = some h ∧ h.hash = pre.hash := by
  rw [List.reverse_append,List.reverse_singleton,List.singleton_append]
  simp only [rescan,List.length_reverse]
  rcases hb : answer front.length with _ | h
  · simp
  by_cases he : h.hash = pre.hash
  · simp [he]
  · obtain ⟨n,err,hr⟩ := rescan_reorg answer front.reverse pre.number
    simp [hr]

variable {b : Builder} {cur : BlockHeader}

theorem checkReorg_adjacent_iff {allowScan : Bool} (hl : b.headerList.getLast? = some pre)
    (ha : pre.number+1 = cur.number) (hm : cur.parentHash ≠ pre.hash) :
    checkReorg b cur allowScan answer = (none,false) ↔
      ∃ h, answer (b.headerList.length-1) = some h ∧ h.hash = pre.hash := by
  obtain ⟨front,hf⟩ := List.getLast?_eq_some_iff.mp hl
  simp only [checkReorg,hl,ha,hm,if_true,if_false]
  rw [hf,rescan_clean_iff]
  simp

variable {input : Input}

theorem next_accepted_iff (hc : b.checkLink) : (next b input).2 = .accepted cur ↔
      b.fullBlockRange.contains b.currentBlockNumber ∧ ∃ latestTime,
        input.fetched = .data cur latestTime ∧
          checkReorg b cur (latestTime-cur.time < watchingDelay) input.answer = (none,false) := by
  unfold next
  split
  · rename_i hr
    cases hf : input.fetched with
    | failed | empty => simp
    | data block latestTime =>
      dsimp only
      split
      · rename_i r hk
        constructor
        · intro h
          cases h
        rintro ⟨-,t,hd,hk'⟩
        cases hd
        simp [hk] at hk'
      · rename_i r hk
        constructor
        · intro h
          cases h
        rintro ⟨-,t,hd,hk'⟩
        cases hd
        simp [hk] at hk'
      rename_i hk
      constructor
      · intro h
        cases h
        exact ⟨hr,latestTime,rfl,hk⟩
      rintro ⟨-,t,hd,-⟩
      cases hd
      rfl
  · rename_i hr
    split <;> simp [hr]

theorem accept_last (cur : BlockHeader) (hc : b.checkLink) :
    (accept b cur).headerList.getLast? = some cur ∧ (accept b cur).checkLink := by
  obtain ⟨kept,hk⟩ := sparsify_append_last b.headerList cur BlockHeader.number
  simp [accept,advance,hc,hk]

section
variable (b : Builder) (recorded : Option BlockHeader) (hc : b.checkLink)
  (hl : b.headerList.getLast? = recorded)
include hc hl

theorem next_recorded :
    (next b input).1.checkLink ∧
      (next b input).1.headerList.getLast? = record recorded (next b input).2 := by
  unfold next
  split
  · cases input.fetched with
    | failed | empty => exact ⟨hc,hl⟩
    | data cur latestTime =>
      have ha := accept_last cur hc
      dsimp only
      split
      · exact ⟨hc,hl⟩
      · exact ⟨hc,hl⟩
      · exact ⟨ha.2,ha.1⟩
  · split
    · exact ⟨hc,hl⟩
    · exact ⟨hc,hl⟩

theorem next_links_iff : Links recorded (next b input).2 ↔ Unconfirmed b recorded input := by
  constructor
  · intro h cur latestTime pre answer hr hf hp ha hm hans hh
    apply hm
    apply h cur pre _ hp ha
    rw [next_accepted_iff hc]
    refine ⟨hr,latestTime,hf,?_⟩
    rw [checkReorg_adjacent_iff (hl.trans hp) ha hm]
    exact ⟨answer,hans,hh⟩
  · intro h cur pre hacc hp ha
    obtain ⟨hr,latestTime,hf,hk⟩ := (next_accepted_iff hc).mp hacc
    by_contra hm
    obtain ⟨answer,hans,hh⟩ := (checkReorg_adjacent_iff (hl.trans hp) ha hm).mp hk
    exact h cur latestTime pre answer hr hf hp ha hm hans hh

theorem run_links_iff {inputs : List Input} :
    AllLinked b recorded inputs ↔ AllUnconfirmed b recorded inputs := by
  induction inputs generalizing b recorded with
  | nil => exact Iff.rfl
  | cons input rest ih =>
    obtain ⟨hc',hl'⟩ := next_recorded b recorded hc hl
    exact and_congr (next_links_iff b recorded hc hl) (ih _ _ hc' hl')

end

/-- A run accepts only blocks that extend the block recorded before them
exactly when the client never confirms a recorded header whose successor does
not name it as its parent. -/
theorem accepted_blocks_link_iff (checkpoint : Option BlockHeader) (full : Range)
    (inputs : List Input) :
    AllLinked (start true checkpoint full) checkpoint inputs ↔
      AllUnconfirmed (start true checkpoint full) checkpoint inputs := by
  apply run_links_iff
  · cases checkpoint <;> rfl
  · cases checkpoint <;> rfl

/-- The client still knows block 10 under its recorded hash, so block 11 of
another branch is accepted. -/
theorem orphan_successor_accepted :
    ¬AllLinked (start true (some ⟨10, "0xa", "0x9",0⟩) ⟨0,none⟩) (some ⟨10, "0xa", "0x9",0⟩)
      [⟨.data ⟨11, "0xb", "0xbad",12⟩ 12,fun _ => some ⟨10, "0xa", "0x9",0⟩⟩] := by
  intro h
  exact absurd (h.1 ⟨11, "0xb", "0xbad",12⟩ ⟨10, "0xa", "0x9",0⟩ (by decide) rfl (by decide))
    (by decide)

end Sentio.BlockBuilder
