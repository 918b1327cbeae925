import SentioCore.SlotCache

/-!
# What failed saves leave in the slot cache

A save stores its slots, records its interval and deletes the keys of the range
that was recorded before; it may fail at each of these calls. The keys outside
of the recorded range are not looked at by the next save, so they stay unless
the new interval happens to hold them.
-/

namespace Sentio.SlotLeftovers
open RangeModel SlotCache Transition KeyedRows List

variable (c : Cache)

/-- The store answers with an error after it has stored the slot. -/
def storeOnly (slot : Slot) : Cache :=
  {c with
    slots := upsert Slot.number c.slots slot
    distinct := upsert_distinct c slot}

/-- Where a save fails: while some of its slots have been stored, or while some
of the keys to delete have been deleted. -/
inductive Failure where
  | storing (done unanswered : List Slot)
  | deleting (interval : Range) (slots : List Slot) (deleted : List UInt64)

def failedSave : Failure → Cache
  | .storing done unanswered => unanswered.foldl storeOnly (done.foldl saveSlot c)
  | .deleting interval slots deleted =>
    let d := slots.foldl saveSlot c
    {keep d (fun n => !(c.range.contains n && !interval.contains n && deleted.contains n)) with
      range := stored interval
      cachedHash := d.cachedHash.filter
        (fun e => !(c.range.contains e.1 && !interval.contains e.1))}

inductive Event where
  | saved (interval : Range) (slots : List Slot)
  | failed (failure : Failure)

def step : Event → Option Cache
  | .saved interval slots => save c interval slots
  | .failed failure => some (failedSave c failure)

def Holds (n : UInt64) : Prop := ∃ slot ∈ c.slots, slot.number = n

/-- A hash is noted for stored slots only. -/
def Noted : Prop := ∀ n, hashOf c n ≠ none → Holds c n

variable {c : Cache} {slot : Slot}

theorem holds_upsert (slots : List Slot) (n : UInt64) :
    (∃ s ∈ upsert Slot.number slots slot, s.number = n) ↔
      (∃ s ∈ slots, s.number = n) ∨ slot.number = n := by
  by_cases hn : slot.number = n
  · simp [upsert,hn]
  simp only [upsert,erase,mem_append,mem_filter,
    decide_eq_true_eq,mem_singleton,hn,or_false]
  constructor
  · rintro ⟨s,⟨hs,_⟩ | rfl,rfl⟩
    · exact ⟨s,hs,rfl⟩
    · exact absurd rfl hn
  · rintro ⟨s,hs,rfl⟩
    exact ⟨s,.inl ⟨hs,fun h => hn h.symm⟩,rfl⟩

section
variable (h : Noted c)
include h

theorem saveSlot_holds {n : UInt64} : Holds (saveSlot c slot) n ↔ Holds c n ∨ slot.number = n := by
  unfold saveSlot
  split
  · rename_i hh
    constructor
    · exact .inl
    rintro (hn | rfl)
    · exact hn
    · exact h _ (by simp [hh])
  · exact holds_upsert c.slots n

theorem saveSlot_noted : Noted (saveSlot c slot) := by
  intro n hn
  rw [saveSlot_holds h]
  by_cases he : slot.number = n
  · exact .inr he
  · rw [hashOf_saveSlot_ne c slot he] at hn
    exact .inl (h n hn)

theorem saveSlots_holds {slots : List Slot} : Noted (slots.foldl saveSlot c) ∧
      ∀ n, Holds (slots.foldl saveSlot c) n ↔ Holds c n ∨ ∃ slot ∈ slots, slot.number = n := by
  induction slots generalizing c with
  | nil => simpa using h
  | cons slot rest ih =>
    obtain ⟨hnoted,hholds⟩ := ih (saveSlot_noted h)
    refine ⟨hnoted,fun n => ?_⟩
    rw [foldl_cons,hholds,saveSlot_holds h]
    simp [or_assoc]

theorem storeOnly_noted {slots : List Slot} : Noted (slots.foldl storeOnly c) := by
  induction slots generalizing c with
  | nil => exact h
  | cons slot rest ih =>
    apply ih
    intro n hn
    exact (holds_upsert c.slots n).mpr (.inl (h n hn))

/-- Keys may be dropped when their hashes are. -/
theorem noted_dropped {d : Cache} {p : UInt64 → Bool} (hslots : ∀ n, Holds c n → ¬p n → Holds d n)
    (hhash : d.cachedHash = c.cachedHash.filter (fun e => !p e.1)) : Noted d := by
  intro n hn
  rw [hashOf,hhash,lookup_drop] at hn
  by_cases hp : p n
  · simp [hp] at hn
  · rw [if_neg hp] at hn
    exact hslots n (h n hn) hp

theorem failedSave_noted {failure : Failure} : Noted (failedSave c failure) := by
  cases failure with
  | storing done unanswered => exact storeOnly_noted (saveSlots_holds h).1
  | deleting interval slots deleted =>
    refine noted_dropped (p := fun n => c.range.contains n && !interval.contains n)
      (saveSlots_holds h).1 ?_ rfl
    intro n hn hp
    obtain ⟨slot,hslot,rfl⟩ := hn
    have hkept := (Bool.not_eq_true _).mp hp
    refine ⟨slot,mem_filter.mpr ⟨hslot,?_⟩,rfl⟩
    simp [hkept,Bool.false_and,Bool.not_false]

variable {t : Cache} {interval : Range} {slots : List Slot}

/-- What a save leaves: the slots that were there and its own ones, without those
of the old range that the interval does not hold. -/
theorem save_holds (hs : save c interval slots = some t) : Noted t ∧
    ∀ n, Holds t n ↔ (Holds c n ∨ ∃ slot ∈ slots, slot.number = n) ∧
      (c.range.contains n → interval.contains n) := by
  have hf : c.range.stop ≠ none := by
    intro hf
    simp [save,getRange_none hf] at hs
  obtain ⟨d,hd,hds,hdh⟩ := clean_start hf
  simp only [save,getRange_some hf,hd] at hs
  split_ifs at hs
  have hnoted : Noted d := by
    intro n hn
    rw [hashOf,hdh] at hn
    obtain ⟨slot,hslot,rfl⟩ := h n hn
    exact ⟨slot,hds ▸ hslot,rfl⟩
  obtain ⟨hall,hholds⟩ := saveSlots_holds hnoted
  rw [← Option.some.inj hs]
  have hleft : ∀ n, Holds (dropOld {slots.foldl saveSlot d with range := stored interval}
      c.range interval) n ↔ Holds (slots.foldl saveSlot d) n ∧
        (c.range.contains n → interval.contains n) := by
    intro n
    simp only [Holds,mem_dropOld]
    constructor
    · rintro ⟨slot,⟨hslot,hold⟩,rfl⟩
      exact ⟨⟨slot,hslot,rfl⟩,hold⟩
    · rintro ⟨⟨slot,hslot,rfl⟩,hold⟩
      exact ⟨slot,⟨hslot,hold⟩,rfl⟩
  constructor
  · refine noted_dropped (p := fun n => c.range.contains n && !interval.contains n) hall ?_ rfl
    intro n hn hp
    exact (hleft n).mpr ⟨hn,fun hc => by simpa [hc] using hp⟩
  · intro n
    rw [hleft,hholds,Holds,hds,Holds]

end

theorem run_noted {events : List Event} (h : run step empty events = some c) : Noted c := by
  refine run_invariant step Noted ?_ events empty c (fun n hn => absurd rfl hn) h
  intro c event t hc ht
  cases event with
  | saved interval slots => exact (save_holds hc ht).1
  | failed failure => exact Option.some.inj ht ▸ failedSave_noted hc

/-- A successful save leaves exactly the keys of its interval if and only if no stored slot lies
outside both the recorded range and the interval. -/
theorem save_leaves_interval_iff (events : List Event) (c t : Cache) (interval : Range)
    (slots : List Slot) (hrun : run step empty events = some c)
    (hslots : ∀ n, interval.contains n ↔ ∃ slot ∈ slots, slot.number = n)
    (h : save c interval slots = some t) :
    (∀ n, (∃ slot ∈ t.slots, slot.number = n) ↔ interval.contains n) ↔
      ∀ slot ∈ c.slots, c.range.contains slot.number ∨
        interval.contains slot.number := by
  have hholds := (save_holds (run_noted hrun) h).2
  simp only [← hslots] at hholds
  constructor
  · intro hexact slot hs
    by_cases hc : c.range.contains slot.number
    · exact .inl hc
    right
    rw [← hexact]
    exact (hholds _).mpr ⟨.inl ⟨slot,hs,rfl⟩,fun h => absurd h hc⟩
  · intro hleft n
    refine Iff.trans (hholds n) ⟨?_,fun hn => ⟨.inr hn,fun _ => hn⟩⟩
    rintro ⟨⟨slot,hs,rfl⟩ | hn,hold⟩
    · exact (hleft slot hs).elim hold id
    · exact hn

theorem six_to_seven (n : UInt64) : Range.contains ⟨6,some 7⟩ n ↔
    ∃ slot ∈ [slotAt 6,slotAt 7], slot.number = n := by
  have hrange := RangeHoles.inRange_iff ⟨6,some 7⟩ n
  simp only [RangeHoles.top_some,UInt64.reduceToNat] at hrange
  have h6 : 6 = n ↔ 6 = n.toNat := UInt64.toNat_inj.symm
  have h7 : 7 = n ↔ 7 = n.toNat := UInt64.toNat_inj.symm
  rw [hrange]
  simp only [slotAt,mem_cons,not_mem_nil,or_false,exists_eq_or_imp,exists_eq_left,h6,h7]
  omega

/-- A save fails after it has stored a slot of the next interval. -/
theorem save_leaves_interval_at_six : ∃ c t, run step empty [.saved ⟨5,some 6⟩ [slotAt 5,slotAt 6],
        .failed (.storing [slotAt 7] [])] = some c ∧
      save c ⟨6,some 7⟩ [slotAt 6,slotAt 7] = some t ∧
      ((∀ n, (∃ slot ∈ t.slots, slot.number = n) ↔ Range.contains ⟨6,some 7⟩ n) ↔
        ∀ slot ∈ c.slots, c.range.contains slot.number ∨
          Range.contains ⟨6,some 7⟩ slot.number) :=
  ⟨_,_,rfl,rfl,save_leaves_interval_iff
    [.saved ⟨5,some 6⟩ [slotAt 5,slotAt 6],.failed (.storing [slotAt 7] [])] _ _ ⟨6,some 7⟩
    [slotAt 6,slotAt 7] rfl six_to_seven rfl⟩

/-- The slot that a failed save has stored above the next interval stays. -/
theorem save_leaves_leftover : ∃ c t, run step empty [.saved ⟨5,some 6⟩ [slotAt 5,slotAt 6],
        .failed (.storing [slotAt 8] [])] = some c ∧
      save c ⟨6,some 7⟩ [slotAt 6,slotAt 7] = some t ∧
      t.slots.map Slot.number = [6,8,7] :=
  ⟨_,_,rfl,rfl,rfl⟩

end Sentio.SlotLeftovers
