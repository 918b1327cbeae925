import SentioCore.RangeFind
import SentioCore.Transition

/-!
# The fixed-size slot cache

The cache keeps one range, a slot under each of its keys and, in memory, the
hashes of the slots it believes to be stored. A deletion lists all keys and
keeps those of the deleted interval, and it leaves the hashes alone; a save
skips a slot whose hash it finds in memory. Foreign keys under the same
namespace are not modelled.
-/

namespace Sentio.SlotCache
open RangeModel RangeHoles RangeSetAlgebra RangeFind WordArith Transition KeyedRows RangeSet

structure Slot where
  number : UInt64
  hash : String
  data : String
  deriving DecidableEq

structure Cache where
  range : Range
  slots : List Slot
  cachedHash : List (UInt64 × String)
  distinct : (slots.map Slot.number).Nodup
  deriving DecidableEq

def empty : Cache := ⟨Range.empty,[],[],List.nodup_nil⟩

/-- Every empty range is written as the same text. -/
def stored (r : Range) : Range := if r.isEmpty then Range.empty else r

variable (c : Cache)

def getRange : Option Range := if c.range.stop.isNone then none else some c.range

def hashOf (n : UInt64) : Option String :=
  (lookup Prod.fst c.cachedHash n).map Prod.snd

def keep (p : UInt64 → Bool) : Cache :=
  {c with
    slots := c.slots.filter (fun slot => p slot.number)
    distinct := c.distinct.sublist (List.filter_sublist.map _)}

/-- What a deletion leaves of the range; more than one part is an error. -/
def remainder (r interval : Range) : Option Range :=
  match (r.remove interval).getRanges with
  | [] => some Range.empty
  | [part] => some part
  | _ => none

def delete (interval : Range) : Option Cache :=
  match getRange c with
  | none => none
  | some cur =>
    match remainder cur interval with
    | none => none
    | some left => some {keep c (fun n => interval.contains n) with range := stored left}

theorem upsert_distinct (slot : Slot) : ((upsert Slot.number c.slots slot).map Slot.number).Nodup :=
  nodup_upsert Slot.number slot c.distinct

def saveSlot (slot : Slot) : Cache :=
  if hashOf c slot.number = some slot.hash then c
  else {c with
    slots := upsert Slot.number c.slots slot
    cachedHash := upsert Prod.fst c.cachedHash (slot.number,slot.hash)
    distinct := upsert_distinct c slot}

/-- The slots of the old range outside the interval are dropped at last, with
their hashes. -/
def dropOld (cur interval : Range) : Cache :=
  {keep c (fun n => !(cur.contains n && !interval.contains n)) with
    cachedHash := c.cachedHash.filter (fun e => !(cur.contains e.1 && !interval.contains e.1))}

/-- The loop over the old range does not end when the range ends at the last word. -/
def save (interval : Range) (slots : List Slot) : Option Cache :=
  match getRange c with
  | none => none
  | some cur =>
    match if cur.isEmpty then delete c zeroRange else some c with
    | none => none
    | some c =>
      if cur.stop = some maxUint64 then none
      else some (dropOld {slots.foldl saveSlot c with range := stored interval} cur interval)

inductive Call where
  | save (interval : Range) (slots : List Slot)
  | delete (interval : Range)

/-- A call that returns an error has changed nothing. -/
def step : Call → Option Cache
  | .save interval slots =>
    if c.range.stop = some maxUint64 then none else some ((save c interval slots).getD c)
  | .delete interval => some ((delete c interval).getD c)

/-- A deletion with a contiguous remainder leaves it with its slots and no slot of the interval,
and a save stores its slots. -/
def Correct : Call → Prop
  | .save interval slots => ∃ t, save c interval slots = some t ∧ ∀ slot ∈ slots, slot ∈ t.slots
  | .delete interval =>
    (remainder c.range interval).isSome →
      ∃ t, delete c interval = some t ∧
        (∀ x, t.range.contains x ↔
          c.range.contains x ∧ ¬interval.contains x) ∧
        (∀ slot ∈ c.slots, t.range.contains slot.number → slot ∈ t.slots) ∧
        ∀ slot ∈ t.slots, ¬interval.contains slot.number

/-- A save gets one slot for a number, none that its interval gives up, and none that is cached
but not stored; a deletion finds no slot stored in its interval or the recorded range. -/
def Careful : Call → Prop
  | .save interval slots =>
    (c.range.stop ≠ none ∧ c.range.stop ≠ some maxUint64) ∧
      (∀ a ∈ slots, ∀ b ∈ slots, a.number = b.number → a = b) ∧
      (∀ slot ∈ slots, c.range.contains slot.number →
        interval.contains slot.number) ∧
      ∀ slot ∈ slots, hashOf c slot.number = some slot.hash → slot ∈ c.slots
  | .delete interval =>
    (remainder c.range interval).isSome →
      c.range.stop ≠ none ∧ ∀ slot ∈ c.slots,
        ¬interval.contains slot.number ∧ ¬c.range.contains slot.number

variable {r : Range}

theorem stored_contains {x : UInt64} : (stored r).contains x = r.contains x := by
  unfold stored
  split
  · rename_i h
    rw [not_inRange r h,not_inRange Range.empty (by decide)]
  · rfl

variable {c : Cache}

theorem getRange_some (h : c.range.stop ≠ none) : getRange c = some c.range := by
  simp [getRange,h]

theorem getRange_none (h : c.range.stop = none) : getRange c = none := by
  simp [getRange,h]

variable {left interval : Range}

theorem remainder_contains (hr : r.stop ≠ none) (h : remainder r interval = some left)
    (x : UInt64) : left.contains x ↔ r.contains x ∧ ¬interval.contains x := by
  rcases remove_cases interval hr with ⟨part,he,hx⟩ | ⟨stop,hn,he,_⟩
  · rw [← hx]
    by_cases hp : part.isEmpty
    · have hl : left = Range.empty := by
        simpa [remainder,he,getRanges,isEmpty,hp] using h.symm
      simp [hl,not_inRange part hp,not_inRange Range.empty (by decide)]
    have hl : left = part := by
      simpa [remainder,he,getRanges,rangesFrom,isEmpty,hp] using h.symm
    rw [hl]
  · simp [remainder,he,getRanges,rangesFrom,isEmpty,hn] at h

theorem delete_eq (hf : c.range.stop ≠ none) (hl : remainder c.range interval = some left) :
    delete c interval =
      some {keep c (fun n => interval.contains n) with range := stored left} := by
  simp [delete,getRange_some hf,hl]

theorem delete_correct_iff : Correct c (.delete interval) ↔ Careful c (.delete interval) := by
  apply imp_congr_right
  intro hsome
  obtain ⟨left,hl⟩ := Option.isSome_iff_exists.mp hsome
  by_cases hf : c.range.stop = none
  · simp [delete,getRange_none hf,hf]
  have hx := remainder_contains hf hl
  rw [delete_eq hf hl]
  constructor
  · rintro ⟨t,ht,_,h2,h3⟩
    cases ht
    simp only [keep,stored_contains,List.mem_filter] at h2 h3
    refine ⟨hf,fun slot hs => ?_⟩
    have hout : ¬interval.contains slot.number := fun hi => h3 slot ⟨hs,hi⟩ hi
    exact ⟨hout,fun hr => hout (h2 slot hs ((hx _).mpr ⟨hr,hout⟩)).2⟩
  intro ⟨_,hnone⟩
  refine ⟨_,rfl,fun x => by rw [stored_contains]; exact hx x,?_,?_⟩
  · intro slot hs hr
    rw [stored_contains,hx] at hr
    exact absurd hr.1 (hnone slot hs).2
  · intro slot hs
    exact (hnone slot (List.mem_filter.mp hs).1).1

variable {n : UInt64}

theorem hashOf_saveSlot_ne (c : Cache) (slot : Slot) (h : slot.number ≠ n) :
    hashOf (saveSlot c slot) n = hashOf c n := by
  unfold saveSlot
  split
  · rfl
  · simp [hashOf,lookup_upsert,h.symm]

variable {a : Slot}

theorem mem_saveSlot_ne (slot : Slot) (h : slot.number ≠ a.number) :
    a ∈ (saveSlot c slot).slots ↔ a ∈ c.slots := by
  unfold saveSlot
  split
  · rfl
  · have hne : a ≠ slot := fun he => h (by rw [he])
    simp [upsert,erase,hne,h.symm]

theorem saveSlot_skip (slot : Slot) (h : hashOf c slot.number = some slot.hash) :
    saveSlot c slot = c := by
  rw [saveSlot,if_pos h]

variable {slot : Slot}

theorem saveSlot_stores (h : hashOf c slot.number ≠ some slot.hash) :
    slot ∈ (saveSlot c slot).slots ∧ hashOf (saveSlot c slot) slot.number = some slot.hash := by
  rw [saveSlot,if_neg h]
  constructor
  · simp [upsert]
  · simp [hashOf,lookup_upsert]

theorem saved_cached (slots : List Slot) (c : Cache)
    (h : hashOf c a.number = some a.hash) (hsame : ∀ b ∈ slots, b.number = a.number → b = a) :
    a ∈ (slots.foldl saveSlot c).slots ↔ a ∈ c.slots := by
  induction slots generalizing c with
  | nil => rfl
  | cons b rest ih =>
    have hrest := fun d hd => hsame d (List.mem_cons_of_mem _ hd)
    rw [List.foldl_cons]
    by_cases hb : b.number = a.number
    · rw [hsame b (by simp) hb,saveSlot_skip a h]
      exact ih c h hrest
    · rw [ih _ ((hashOf_saveSlot_ne c b hb).trans h) hrest,mem_saveSlot_ne b hb]

variable {slots : List Slot}

theorem saved_uncached (c : Cache) (ha : a ∈ slots) (h : hashOf c a.number ≠ some a.hash)
    (hsame : ∀ b ∈ slots, b.number = a.number → b = a) : a ∈ (slots.foldl saveSlot c).slots := by
  induction slots generalizing c with
  | nil => cases ha
  | cons b rest ih =>
    have hrest := fun d hd => hsame d (List.mem_cons_of_mem _ hd)
    rw [List.foldl_cons]
    by_cases hb : b.number = a.number
    · obtain ⟨h1,h2⟩ := saveSlot_stores h
      rw [hsame b (by simp) hb,saved_cached rest _ h2 hrest]
      exact h1
    have hne : a ≠ b := fun he => hb (by rw [he])
    apply ih _ ((List.mem_cons.mp ha).resolve_left hne) _ hrest
    rwa [hashOf_saveSlot_ne c b hb]

theorem zeroRange_contains : zeroRange.contains n := by
  have := word_lt n
  rw [inRange_iff,zeroRange,top_none,UInt64.toNat_zero]
  omega

theorem clean_start (h : c.range.stop ≠ none) :
    ∃ d, (if c.range.isEmpty then delete c zeroRange else some c) = some d ∧
      d.slots = c.slots ∧ d.cachedHash = c.cachedHash := by
  by_cases he : c.range.isEmpty
  · have hl : remainder c.range zeroRange = some Range.empty := by
      simp only [remainder,Range.remove,he]
      rfl
    rw [if_pos he,delete_eq h hl]
    exact ⟨_,rfl,List.filter_eq_self.mpr (fun slot _ => zeroRange_contains),rfl⟩
  · exact ⟨c,by simp [he],rfl,rfl⟩

theorem mem_dropOld {cur : Range} : slot ∈ (dropOld c cur interval).slots ↔
      slot ∈ c.slots ∧ (cur.contains slot.number → interval.contains slot.number) := by
  simp only [dropOld,keep,List.mem_filter]
  cases cur.contains slot.number <;> simp

theorem same_slot {b : Slot} (ha : a ∈ c.slots) (hb : b ∈ c.slots)
    (h : a.number = b.number) : a = b :=
  List.inj_on_of_nodup_map c.distinct ha hb h

theorem save_correct_iff : Correct c (.save interval slots) ↔ Careful c (.save interval slots) := by
  by_cases hf : c.range.stop = none
  · simp [Correct,Careful,save,getRange_none hf,hf]
  obtain ⟨d,hd,hds,hdh⟩ := clean_start hf
  by_cases hm : c.range.stop = some maxUint64
  · simp [Correct,Careful,save,getRange_some hf,hd,hm]
  have hsave : save c interval slots =
      some (dropOld {slots.foldl saveSlot d with range := stored interval} c.range interval) := by
    simp only [save,getRange_some hf,hd,hm,if_false]
  have hcached : ∀ n, hashOf d n = hashOf c n := fun n => by rw [hashOf,hdh,hashOf]
  simp only [Correct,hsave,Option.some.injEq,exists_eq_left',mem_dropOld]
  constructor
  · intro h
    have hone : ∀ a ∈ slots, ∀ b ∈ slots, a.number = b.number → a = b :=
      fun a ha b hb => same_slot (h a ha).1 (h b hb).1
    refine ⟨⟨hf,hm⟩,hone,fun slot hs => (h slot hs).2,fun slot hs hh => ?_⟩
    rw [← hds,← saved_cached slots d ((hcached _).trans hh) (fun b hb hn => hone b hb slot hs hn)]
    exact (h slot hs).1
  intro ⟨_,hone,hin,hst⟩ slot hs
  refine ⟨?_,hin slot hs⟩
  have hsame := fun b hb hn => hone b hb slot hs hn
  by_cases hh : hashOf c slot.number = some slot.hash
  · exact (saved_cached slots d ((hcached _).trans hh) hsame).mpr (hds ▸ hst slot hs hh)
  · exact saved_uncached d hs (by rwa [hcached]) hsame

/-- The calls of a run on a fresh cache are all correct exactly when they are
all careful. -/
theorem cache_calls_correct_iff (calls : List Call) : Throughout step Correct empty calls ↔
      Throughout step Careful empty calls := by
  have hiff : ∀ c call, Correct c call ↔ Careful c call := by
    intro c call
    cases call with
    | save interval slots => exact save_correct_iff
    | delete interval => exact delete_correct_iff
  exact ⟨throughout_mono step (fun c call => (hiff c call).mp) empty calls,
    throughout_mono step (fun c call => (hiff c call).mpr) empty calls⟩

def slotAt (n : UInt64) : Slot := ⟨n,toString n, "block"⟩

/-- The deleted slot is kept, the other one is lost, and a later save of the
lost slot skips it. -/
theorem deletion_keeps_the_wrong_slots :
    ∃ c d e, step empty (.save ⟨5,some 6⟩ [slotAt 5,slotAt 6]) = some c ∧
      step c (.delete ⟨6,some 6⟩) = some d ∧
      d.range = ⟨5,some 5⟩ ∧ d.slots = [slotAt 6] ∧
      step d (.save ⟨5,some 5⟩ [slotAt 5]) = some e ∧ slotAt 5 ∉ e.slots :=
  ⟨_,_,_,rfl,rfl,rfl,rfl,rfl,by decide⟩

end Sentio.SlotCache
