import SentioCore.CopyModel
import SentioCore.RangeFinite

/-!
# Links after a copy

A save checks the links of the slots it receives among themselves and to the
slot on its left. Workers write to ranges that do not touch, so what a worker
has stored stays until the copy ends.
-/

namespace Sentio.CopyLinks
open RangeModel RangeHoles RangeSetAlgebra RangeFind List KeyedRows
open RangeFinite RangeBlocks DimensionModel CopyModel WordArith Transition
open UInt64 (toNat_inj toNat_add toNat_ofNat' lt_iff_toNat_lt ofNat)
open Option (ne_none_iff_exists' map_eq_some_iff some.inj)

def slotAt (slots : List Slot) (n : UInt64) : Option Slot := lookup Slot.number slots n

/-- What a copy starts from: the destination and what the source sends for a
range, which is not more than one slot for every number. -/
structure Job where
  recorded : Range
  slots : List Slot
  source : Range → List Slot
  sendable : ∀ t, (source t).length ≤ 18446744073709551616

def Follows (left right : Slot) : Prop :=
  left.number.toNat+1 = right.number.toNat → left.hash = right.parentHash

instance (left right : Slot) : Decidable (Follows left right) := inferInstanceAs (Decidable (_ → _))

def Linked (recorded : Range) (slots : List Slot) : Prop :=
  ∀ left ∈ slots, ∀ right ∈ slots,
    slotAt slots left.number = some left → slotAt slots right.number = some right →
    recorded.contains left.number → recorded.contains right.number →
    Follows left right

instance (recorded : Range) (slots : List Slot) : Decidable (Linked recorded slots) :=
  inferInstanceAs (Decidable (∀ left ∈ slots, ∀ right ∈ slots, _ → _ → _ → _ → Follows left right))

def Bordered (j : Job) (targets : List Range) : Prop :=
  ∀ t ∈ targets, ∀ last ∈ j.source t, t.stop = some last.number →
    ∀ right ∈ j.slots, slotAt j.slots right.number = some right →
      j.recorded.contains right.number → Follows last right

def borderOf (recorded : Range) (slots : List Slot) (t : Range) : Option Slot :=
  if 0 < t.start && recorded.contains (t.start-1) then slotAt slots (t.start-1) else none

def border (j : Job) (t : Range) : Option Slot := borderOf j.recorded j.slots t

def Mismatched (j : Job) (t : Range) : Prop :=
  ∃ left right, right ∈ j.source t ∧ (left ∈ j.source t ∨ border j t = some left) ∧
    checkLinkMismatch left right

structure Numbered (t : Range) (stream : List Slot) : Prop where
  number : ∀ k slot, stream[k]? = some slot → slot.number.toNat = t.start.toNat+k
  inside : ∀ slot ∈ stream, t.contains slot.number

/-- What a running save has checked, stored and recorded. -/
structure Running (j : Job) (recorded : Range) (slots : List Slot) (w : Worker) (s : Saving) :
    Prop where
  interval : s.interval = w.target
  finite : w.target.stop ≠ none
  rejected : s.rejected = w.rejection.isSome
  refusal : w.rejection = some .link → Mismatched j w.target
  streamed : w.rejection = none → s.received++w.input = j.source w.target
  numbered : Numbered w.target s.received
  linked : ((border j w.target).toList++s.received).IsChain Follows
  left : s.leftPoint = ((border j w.target).toList++s.received).getLast?
  exact : s.cleaned → ∀ n slot, w.target.contains n → slotAt slots n = some slot →
    slot ∈ s.received
  inside : ∀ part ∈ s.taken++s.channel, part.stop ≠ none ∧
    ∀ x, part.contains x → w.target.contains x
  finiteSet : FiniteSet s.completed
  completed : ∀ x, s.completed.contains x ↔ ∃ part ∈ s.taken, part.contains x
  oldFinite : s.old.stop ≠ none
  curFinite : s.curRange.stop ≠ none
  kept : ∀ x, j.recorded.contains x → s.old.contains x
  current : ∀ x, s.old.contains x → s.curRange.contains x
  known : ∀ x, s.curRange.contains x → recorded.contains x
  seed : s.seed = if s.old.isEmpty then single s.interval.start else s.old
  anchored : recorded.isEmpty ∨ recorded.contains s.seed.start
  joined : s.broken = false → s.refused = false → s.old.isEmpty = false →
    ∀ x, Joined (fun y => s.old.contains y ∨ s.completed.contains y) s.seed.start x →
      recorded.contains x

structure Done (j : Job) (recorded : Range) (slots : List Slot) (t : Range) : Prop where
  finite : t.stop ≠ none
  numbered : Numbered t (j.source t)
  linked : ((border j t).toList++j.source t).IsChain Follows
  exact : ∀ n slot, t.contains n → slotAt slots n = some slot → slot ∈ j.source t
  stored : ∀ slot ∈ j.source t, slotAt slots slot.number = some slot
  covered : ∀ last ∈ j.source t, t.stop = some last.number →
    ∀ right : UInt64, last.number.toNat+1 = right.toNat → j.recorded.contains right →
      recorded.contains last.number

def WorkerInv (j : Job) (recorded : Range) (slots : List Slot) (w : Worker) : Prop :=
  match w.stage with
  | .waiting => w.input = j.source w.target ∧ w.rejection = none
  | .saving s => Running j recorded slots w s
  | .ended none => Done j recorded slots w.target
  | .ended (some .link) => Mismatched j w.target
  | .ended (some _) => True

structure Progress (j : Job) (sys : System) (w : Worker) (after : Range × List Slot × Worker) :
    Prop where
  target : after.2.2.target = w.target
  finite : after.1.stop ≠ none
  grows : ∀ x, sys.recorded.contains x → after.1.contains x
  within : ∀ x, after.1.contains x →
    sys.recorded.contains x ∨ w.target.contains x
  outside : ∀ n, w.target.contains n = false → slotAt after.2.1 n = slotAt sys.slots n
  idle : w.target.stop = none → after.1 = sys.recorded ∧ after.2.1 = sys.slots
  inv : WorkerInv j after.1 after.2.1 after.2.2

variable {sys : System} {w : Worker} {j : Job}

theorem unchanged {stage : Stage} (hf : sys.recorded.stop ≠ none)
    (h : WorkerInv j sys.recorded sys.slots {w with stage := stage}) :
    Progress j sys w (sys.recorded,sys.slots,{w with stage := stage}) :=
  ⟨rfl,hf,fun _ hx => hx,fun _ hx => .inl hx,fun _ _ => rfl,fun _ => ⟨rfl,rfl⟩,h⟩

theorem worker_mono {recorded grown : Range} {slots changed : List Slot}
    (h : WorkerInv j recorded slots w) (hne : recorded.isEmpty = false)
    (hgrow : ∀ x, recorded.contains x → grown.contains x)
    (hsame : w.target.stop ≠ none → ∀ n, w.target.contains n → slotAt changed n = slotAt slots n) :
    WorkerInv j grown changed w := by
  unfold WorkerInv at *
  cases hstage : w.stage with
  | waiting => rwa [hstage] at h
  | saving s =>
    rw [hstage] at h
    have hanchor : recorded.contains s.seed.start := by
      rcases h.anchored with he | he
      · rw [he] at hne
        cases hne
      · exact he
    exact {h with
      exact := fun hc n slot hn hs => h.exact hc n slot hn (by rwa [← hsame h.finite n hn])
      known := fun x hx => hgrow x (h.known x hx)
      anchored := .inr (hgrow _ hanchor)
      joined := fun hb hr ho x hx => hgrow x (h.joined hb hr ho x hx)}
  | ended result =>
    rw [hstage] at h
    cases result with
    | none =>
      exact {h with
        exact := fun n slot hn hs => h.exact n slot hn (by rwa [← hsame h.finite n hn])
        stored := fun slot hs => by
          rw [hsame h.finite _ (h.numbered.inside slot hs)]
          exact h.stored slot hs
        covered := fun last hl hstop right hr hrec => hgrow _ (h.covered last hl hstop right hr hrec)}
    | some failure => cases failure <;> exact h

theorem follows_of_check {left right : Slot} (h : checkLinkMismatch left right = false) :
    Follows left right := by
  intro hn
  have hw := word_lt right.number
  have hadd : left.number+1 = right.number := by
    apply toNat_inj.mp
    rw [toNat_add]
    simp only [UInt64.toNat_one]
    omega
  simpa [checkLinkMismatch,hadd] using h

section start

variable {getOk headerOk : Bool}

theorem save_cases {d after : Dimension} {interval : Range}
    (h : save config d interval getOk headerOk = some after) :
    after = d ∨ (interval.stop ≠ none ∧ ∃ left, after = startSaving d interval left ∧
      left = borderOf d.recorded d.slots interval) := by
  unfold borderOf
  unfold save at h
  split at h
  · exact .inl (some.inj h).symm
  split at h
  · exact .inl (some.inj h).symm
  by_cases hn : needsHeader config d interval
  · rw [if_pos hn] at h
    have hneeds : (0 < interval.start && d.recorded.contains (interval.start-1)) := by
      simpa [needsHeader,config] using hn
    rcases hl : lookup Slot.number d.slots (interval.start-1) with _ | header
    · rw [hl] at h
      exact .inl (some.inj h).symm
    rw [hl] at h
    dsimp only at h
    split at h
    · exact .inl (some.inj h).symm
    split at h
    · cases h
    rename_i hstop
    refine .inr ⟨by simpa [Option.isNone_iff_eq_none] using hstop,some header,
      (some.inj h).symm,?_⟩
    rw [if_pos hneeds,slotAt,hl]
  · rw [if_neg hn] at h
    have hneeds : ¬(0 < interval.start && d.recorded.contains (interval.start-1)) := by
      simpa [needsHeader,config] using hn
    split at h
    · cases h
    rename_i hstop
    exact .inr ⟨by simpa [Option.isNone_iff_eq_none] using hstop,none,
      (some.inj h).symm,by rw [if_neg hneeds]⟩

theorem start_progress {stage : Stage} (hf : sys.recorded.stop ≠ none)
    (hkept : ∀ x, j.recorded.contains x → sys.recorded.contains x) (hborder : w.target.stop ≠ none →
      borderOf sys.recorded sys.slots w.target = border j w.target)
    (hinput : w.input = j.source w.target ∧ w.rejection = none)
    (h : startWorker sys.recorded sys.slots w.target getOk headerOk = some stage) :
    Progress j sys w (sys.recorded,sys.slots,{w with stage := stage}) := by
  apply unchanged hf
  unfold startWorker at h
  split at h
  · cases h
  rename_i d hs
  rcases save_cases hs with rfl | ⟨hstop,left,rfl,hleft⟩
  · cases h
    cases getOk && apart sys.recorded w.target <;> trivial
  cases h
  have hl : left = border j w.target := hleft.trans (hborder hstop)
  constructor
  case interval => rfl
  case finite => exact hstop
  case rejected => rw [hinput.2]; rfl
  case refusal => rw [hinput.2]; exact nofun
  case streamed => exact fun _ => hinput.1
  case numbered => exact ⟨by simp,by simp⟩
  case linked => cases border j w.target <;> simp
  case left =>
    rw [hl]
    cases border j w.target <;> rfl
  case exact => exact nofun
  case inside => exact nofun
  case finiteSet => exact finiteSet_empty
  case completed => simp [empty_contains]
  case oldFinite => exact hf
  case curFinite => exact hf
  case kept => exact hkept
  case current => exact fun _ hx => hx
  case known => exact fun _ hx => hx
  case seed => rfl
  case anchored =>
    cases he : sys.recorded.isEmpty with
    | true => exact .inl rfl
    | false =>
      refine .inr ((inRange_iff _ _).mpr ?_)
      have hne := start_le_top he
      simp only [Bool.false_eq_true,if_false]
      omega
  intro _ _ _ x hx
  rcases joined_end hx with hx | hx
  · exact hx
  · cases hx

end start

section receive

theorem numbered_concat {t : Range} {received : List Slot} {slot : Slot} (h : Numbered t received)
    (hlen : received.length < 2^64) (hin : t.contains slot.number)
    (hn : slot.number = t.start+ofNat received.length) : Numbered t (received++[slot]) := by
  have hbound : t.start.toNat+received.length < 2^64 := by
    rw [inRange_iff,hn,toNat_add,toNat_ofNat'] at hin
    omega
  constructor
  · intro k a hk
    rw [getElem?_append] at hk
    split at hk
    · exact h.number k a hk
    rw [getElem?_singleton] at hk
    split at hk
    · cases hk
      rw [hn,toNat_add,toNat_ofNat']
      omega
    · cases hk
  · intro a ha
    rcases mem_append.mp ha with ha | ha
    · exact h.inside a ha
    · rwa [mem_singleton.mp ha]

theorem inCheck_iff {s : Saving} {slot : Slot} : inCheck config s slot ↔
      s.interval.contains slot.number ∧
      slot.number = s.interval.start+ofNat s.received.length ∧
      ∀ left, s.leftPoint = some left → checkLinkMismatch left slot = false := by
  cases hl : s.leftPoint <;> simp [inCheck,config,hl,and_assoc]

theorem receive_progress {after : Worker} {s : Saving}
    (hf : sys.recorded.stop ≠ none) (h : Running j sys.recorded sys.slots w s)
    (htake : takeSlot w s = some after) : Progress j sys w (sys.recorded,sys.slots,after) := by
  unfold takeSlot at htake
  split at htake
  · cases htake
  rename_i slot rest hin
  split at htake
  · cases htake
  rename_i hrej
  cases htake
  refine ⟨rfl,hf,fun _ hx => hx,fun _ hx => .inl hx,fun _ _ => rfl,fun _ => ⟨rfl,rfl⟩,?_⟩
  have hnone : w.rejection = none := by
    have := h.rejected
    rw [(Bool.not_eq_true _).mp hrej] at this
    simpa using this.symm
  have hstream := h.streamed hnone
  rw [hin] at hstream
  have hslot : slot ∈ j.source w.target := by
    rw [← hstream]
    simp
  have hlen : s.received.length < 2^64 := by
    have := j.sendable w.target
    rw [← hstream,length_append,length_cons] at this
    omega
  by_cases hc : inCheck config s slot
  · obtain ⟨hc1,hc2,hc3⟩ := inCheck_iff.mp hc
    rw [h.interval] at hc1 hc2
    have hrun : receive config s slot =
        {s with received := s.received++[slot], leftPoint := some slot} := by
      rw [receive,if_pos hc]
      rfl
    rw [hrun,if_pos hc]
    exact {h with
      streamed := fun _ => by simpa using hstream
      numbered := numbered_concat h.numbered hlen hc1 hc2
      linked := by
        rw [← append_assoc,isChain_append]
        refine ⟨h.linked,isChain_singleton _,?_⟩
        intro left hleft right hright
        rw [← h.left] at hleft
        obtain rfl : slot = right := by simpa using hright
        exact follows_of_check (hc3 left hleft)
      left := by simp
      exact := fun hcl n a hn ha => mem_append_left _ (h.exact hcl n a hn ha)}
  have hrun : receive config s slot = {s with rejected := true} := by
    rw [receive,if_neg hc]
  rw [hrun,if_neg hc]
  refine {h with
    rejected := rfl
    refusal := ?_
    streamed := nofun }
  intro hlink
  have hkind : rejectionOf s slot = .link := some.inj hlink
  have hnum : s.interval.contains slot.number ∧
      slot.number = s.interval.start+ofNat s.received.length := by
    unfold rejectionOf at hkind
    split at hkind
    · rename_i hk
      rwa [Bool.and_eq_true,decide_eq_true_eq] at hk
    · cases hkind
  have hmis : ∃ left, s.leftPoint = some left ∧ checkLinkMismatch left slot := by
    by_contra hno
    apply hc
    rw [inCheck_iff]
    refine ⟨hnum.1,hnum.2,fun left hleft => ?_⟩
    rw [Bool.eq_false_iff]
    exact fun hm => hno ⟨left,hleft,hm⟩
  obtain ⟨left,hleft,hm⟩ := hmis
  rw [h.left] at hleft
  refine ⟨left,slot,hslot,?_,hm⟩
  rcases mem_append.mp (mem_of_getLast? hleft) with hmem | hmem
  · exact .inr (by simpa using hmem)
  left
  rw [← hstream]
  exact mem_append_left _ hmem

end receive

section act

theorem slotAt_erase {slots : List Slot} {n k : UInt64} :
    slotAt (erase Slot.number slots n) k = if k = n then none else slotAt slots k :=
  lookup_erase _ _ _ _

theorem slotAt_upsert {slots : List Slot} {slot : Slot} {k : UInt64} :
    slotAt (upsert Slot.number slots slot) k =
      if k = slot.number then some slot else slotAt slots k :=
  lookup_upsert _ _ _ _

theorem slotAt_filter (slots : List Slot) (r : Range) (k : UInt64) :
    slotAt (slots.filter (fun slot => !r.contains slot.number)) k =
      if r.contains k then none else slotAt slots k :=
  lookup_drop _

variable {n : UInt64} {s : Saving} {part : Range}

section
variable (hf : sys.recorded.stop ≠ none) (h : Running j sys.recorded sys.slots w s)
include hf h

theorem clean_progress (hc : s.cleaned = false) (hn : s.interval.contains n) :
    Progress j sys w
      (sys.recorded,erase Slot.number sys.slots n,{w with stage := .saving s}) := by
  refine ⟨rfl,hf,fun _ hx => hx,fun _ hx => .inl hx,fun k hk => ?_,
    fun hinf => absurd hinf h.finite,?_⟩
  · have hne : k ≠ n := by
      rintro rfl
      rw [h.interval,hk] at hn
      cases hn
    rw [slotAt_erase,if_neg hne]
  exact {h with
    exact := fun hcl => by
      rw [hc] at hcl
      cases hcl }

theorem cleaned_progress :
    Progress j sys w (sys.recorded,sys.slots.filter (fun slot => !s.interval.contains slot.number),
      {w with stage := .saving {s with cleaned := true}}) := by
  refine ⟨rfl,hf,fun _ hx => hx,fun _ hx => .inl hx,fun k hk => ?_,
    fun hinf => absurd hinf h.finite,?_⟩
  · rw [slotAt_filter,h.interval,if_neg (by simp [hk])]
  exact {h with
    exact := fun _ n slot hn hs => by
      rw [slotAt_filter,h.interval,if_pos hn] at hs
      cases hs }

theorem store_progress {slot : Slot} (hs : slot ∈ s.received) (hc : s.cleaned) :
    Progress j sys w
      (sys.recorded,upsert Slot.number sys.slots slot,{w with stage := .saving s}) := by
  refine ⟨rfl,hf,fun _ hx => hx,fun _ hx => .inl hx,fun k hk => ?_,
    fun hinf => absurd hinf h.finite,?_⟩
  · have hne : k ≠ slot.number := by
      rintro rfl
      rw [h.numbered.inside slot hs] at hk
      cases hk
    rw [slotAt_upsert,if_neg hne]
  exact {h with
    exact := fun _ n a hn ha => by
      rw [slotAt_upsert] at ha
      split at ha
      · rwa [← some.inj ha]
      · exact h.exact hc n a hn ha }

theorem report_progress (hne : part.isEmpty = false) (hin : s.interval.includes part) :
    Progress j sys w (sys.recorded,sys.slots,
      {w with stage := .saving {s with channel := s.channel++[part]}}) := by
  apply unchanged hf
  rw [h.interval] at hin
  have hpart : part.stop ≠ none := by
    intro hnone
    obtain ⟨stop,hstop⟩ := ne_none_iff_exists'.mp h.finite
    unfold Range.includes at hin
    simp [hne,hnone,hstop,lessEqualNilAsInf] at hin
  obtain ⟨stop,hstop⟩ := ne_none_iff_exists'.mp hpart
  have hle : part.start.toNat ≤ stop.toNat := by
    have := start_le_top hne
    rw [hstop,top_some] at this
    omega
  have hends := (includes_finite w.target hstop hle).mp hin
  exact {h with
    inside := fun p hp => by
      rw [← append_assoc] at hp
      rcases mem_append.mp hp with hp | hp
      · exact h.inside p hp
      rw [mem_singleton.mp hp]
      refine ⟨hpart,fun x hx => ?_⟩
      show w.target.contains x
      rw [inRange_iff,hstop,top_some] at hx
      rw [inRange_iff,inRange_iff] at hends
      rw [inRange_iff]
      omega }

end

variable {slots : List Slot} {recorded : Range} {later : List Range}

/-- What taking the next part keeps, whatever becomes of the recorded range. -/
theorem take_running {grown : Range} (h : Running j recorded slots w s)
    (hc : s.channel = part::later) {cur : Range} (broken refused : Bool)
    (hcur : cur.stop ≠ none) (hold : ∀ x, s.old.contains x → cur.contains x)
    (hknown : ∀ x, cur.contains x → grown.contains x)
    (hanchor : grown.isEmpty ∨ grown.contains s.seed.start)
    (hjoined : broken = false → refused = false → s.old.isEmpty = false →
      ∀ x, Joined (fun y => s.old.contains y ∨
        (s.completed.union part).contains y) s.seed.start x → grown.contains x) :
    Running j grown slots w {s with
      taken := s.taken++[part]
      channel := later
      completed := s.completed.union part
      curRange := cur
      broken := broken
      refused := refused} := by
  have hparts : (s.taken++[part])++later = s.taken++s.channel := by rw [hc]; simp
  obtain ⟨hu1,hu2⟩ := union_finite h.finiteSet (h.inside part (by simp [hc])).1
  exact {h with
    inside := by
      rw [hparts]
      exact h.inside
    finiteSet := hu1
    completed := fun x => by
      rw [hu2,h.completed]
      simp
    curFinite := hcur
    current := hold
    known := hknown
    anchored := hanchor
    joined := hjoined }

theorem seed_finite
    (h : Running j recorded slots w s) :
    ∃ stop, s.seed.stop = some stop ∧ s.seed.start.toNat ≤ stop.toNat := by
  rw [h.seed]
  cases ho : s.old.isEmpty with
  | true => exact ⟨_,rfl,le_rfl⟩
  | false =>
    obtain ⟨stop,hs⟩ := ne_none_iff_exists'.mp h.oldFinite
    refine ⟨stop,hs,?_⟩
    have := start_le_top ho
    rw [hs,top_some] at this
    simp only [Bool.false_eq_true,if_false]
    omega

/-- The range around the seed after the next part, unless it is not found. -/
theorem after_finite (h : Running j recorded slots w s) (hp : part ∈ s.taken++s.channel) :
    (findContains ((s.completed.union part).union s.curRange) s.seed).1 = zeroRange ∨
      ((findContains ((s.completed.union part).union s.curRange) s.seed).1.stop ≠ none ∧
        (findContains ((s.completed.union part).union s.curRange) s.seed).1.contains
          s.seed.start ∧
        ∀ x, (findContains ((s.completed.union part).union s.curRange) s.seed).1.contains x ↔
          Joined (fun y => (s.completed.union part).contains y ∨
            s.curRange.contains y) s.seed.start x) := by
  obtain ⟨hu1,-⟩ := union_finite h.finiteSet (h.inside part hp).1
  obtain ⟨hv1,hv2⟩ := union_finite hu1 h.curFinite
  obtain ⟨stop,hstop,hle⟩ := seed_finite h
  rcases findContains_finite hv1 hstop hle with hz | ⟨hfin,hseed,hx⟩
  · exact .inl hz
  refine .inr ⟨hfin,hseed,fun x => ?_⟩
  rw [hx]
  simp [hv2]

variable {r : Range}

theorem zero_not_equal (h : r.stop ≠ none) : equal r zeroRange = false := by
  obtain ⟨stop,hs⟩ := ne_none_iff_exists'.mp h
  have hz : zeroRange.isEmpty = false := rfl
  have hinf : lessEqualNilAsInf zeroRange.stop r.stop = false := by rw [hs]; rfl
  simp [equal,Range.includes,hz,hinf]

theorem zero_cover : (zeroRange.cover r).stop = none ∨ r.isEmpty := by
  cases hr : r.isEmpty with
  | true => exact .inr rfl
  | false =>
    left
    rw [cover_of_nonempty rfl hr]
    rfl

theorem zero_refused : setRange config (zeroRange.cover r) = none := by
  have hnone : (zeroRange.cover r).stop = none := by
    rcases zero_cover with h | h
    · exact h
    · rw [Range.cover,if_pos h]
      rfl
  simp [setRange,config,hnone]

theorem cover_anchored {after : Range} (h : after.contains n)
    (hr : recorded.isEmpty ∨ recorded.contains n) (x : UInt64) :
    (after.cover recorded).contains x ↔
      after.contains x ∨ recorded.contains x := by
  rcases hr with hr | hr
  · have hne : after.isEmpty = false := by
      rw [inRange_iff] at h
      exact not_isEmpty after (by omega)
    simp [Range.cover,hne,hr,not_inRange recorded hr]
  · exact cover_meeting h hr

/-- The range updater joins the part to the recorded range, or fails. -/
theorem update_progress (hf : sys.recorded.stop ≠ none) (h : Running j sys.recorded sys.slots w s)
    (hc : s.channel = part::later) {ok : Bool} {t : Saving}
    (ht : (DimensionModel.update config ⟨sys.recorded,sys.slots,.saving s,[]⟩ s part later
      ok).phase = .saving t) :
    Progress j sys w ((DimensionModel.update config ⟨sys.recorded,sys.slots,.saving s,[]⟩ s part
      later ok).recorded,(DimensionModel.update config ⟨sys.recorded,sys.slots,.saving s,[]⟩ s
        part later ok).slots,{w with stage := .saving t}) := by
  have hp : part ∈ s.taken++s.channel := by simp [hc]
  have hafter := after_finite h hp
  obtain ⟨-,hu⟩ := union_finite h.finiteSet (h.inside part hp).1
  have hkeep : ∀ broken refused : Bool, (broken ∨ refused) →
      Running j sys.recorded sys.slots {w with stage := .saving {s with
        taken := s.taken++[part], channel := later, completed := s.completed.union part,
        broken := broken, refused := refused}} {s with
        taken := s.taken++[part], channel := later, completed := s.completed.union part,
        broken := broken, refused := refused} := by
    intro broken refused hbad
    have hrun := take_running h hc broken refused h.curFinite h.current h.known h.anchored
      (fun h1 h2 => by rcases hbad with hbad | hbad <;> simp [hbad] at h1 h2)
    exact {hrun with}
  unfold DimensionModel.update at ht ⊢
  dsimp only at ht ⊢
  generalize hA : (findContains ((s.completed.union part).union s.curRange) s.seed).1 = after at *
  by_cases heq : equal s.curRange after
  · rw [if_pos heq] at ht ⊢
    injection ht with ht
    subst ht
    apply unchanged hf
    have hjoin : ∀ x, s.old.isEmpty = false → Joined (fun y => s.old.contains y ∨
        (s.completed.union part).contains y) s.seed.start x →
        sys.recorded.contains x := by
      intro x _ hx
      rcases hafter with hz | ⟨-,-,hx'⟩
      · rw [hz,zero_not_equal h.curFinite] at heq
        cases heq
      apply h.known
      rw [equal_finite h.curFinite heq,hx']
      exact joined_congr _ (fun y hy => hy.symm.imp id (h.current y)) hx
    have hrun := take_running h hc
      s.broken s.refused h.curFinite h.current h.known h.anchored (fun _ _ ho x => hjoin x ho)
    exact {hrun with}
  rw [if_neg heq] at ht ⊢
  rcases ok with _ | _
  · injection ht with ht
    subst ht
    exact unchanged hf (hkeep true s.refused (.inl rfl))
  rcases hafter with hz | ⟨hfin,hseed,hx'⟩
  · rw [hz,zero_refused] at ht ⊢
    injection ht with ht
    subst ht
    exact unchanged hf (hkeep s.broken true (.inr rfl))
  have hcover := finite_cover hfin hf
  have hset : setRange config (after.cover sys.recorded) = some (after.cover sys.recorded) := by
    obtain ⟨stop,hs⟩ := ne_none_iff_exists'.mp hcover
    simp [setRange,hs]
  rw [hset] at ht ⊢
  injection ht with ht
  subst ht
  have hnew := cover_anchored hseed h.anchored
  have hgrow : ∀ x, sys.recorded.contains x →
      (after.cover sys.recorded).contains x := fun x hx => (hnew x).mpr (.inr hx)
  have hrun := take_running h hc s.broken s.refused hcover
    (fun x hx => hgrow x (h.known x (h.current x hx))) (fun _ hx => hx)
    (.inr ((hnew _).mpr (.inl hseed)))
    (fun _ _ _ x hx => (hnew x).mpr (.inl ((hx' x).mpr
      (joined_congr _ (fun y hy => hy.symm.imp id (h.current y)) hx))))
  refine ⟨rfl,hcover,hgrow,fun x hx => ?_,fun _ _ => rfl,
    fun hinf => absurd hinf h.finite,{hrun with}⟩
  rcases (hnew x).mp hx with hx | hx
  · rcases joined_end ((hx' x).mp hx) with hx | hx
    · right
      rcases (hu x).mp hx with hx | hx
      · obtain ⟨p,hpt,hpx⟩ := (h.completed x).mp hx
        exact (h.inside p (by simp [hpt])).2 x hpx
      · exact (h.inside part hp).2 x hx
    · exact .inl (h.known x hx)
  · exact .inl hx

theorem act_progress (hf : sys.recorded.stop ≠ none) (h : Running j sys.recorded sys.slots w s)
    {event : Event} {after : Range × List Slot × Worker} (hact : act sys w s event = some after) :
    Progress j sys w after := by
  unfold act at hact
  split at hact
  · cases event with
    | clean n =>
      simp only [DimensionModel.step] at hact
      by_cases hc : (!s.cleaned && s.interval.contains n)
      · rw [if_pos hc] at hact
        cases hact
        simp only [Bool.and_eq_true,Bool.not_eq_true'] at hc
        exact clean_progress hf h hc.1 hc.2
      · rw [if_neg hc] at hact
        cases hact
    | cleaned =>
      simp only [DimensionModel.step] at hact
      by_cases hc : s.cleaned
      · rw [if_pos hc] at hact
        cases hact
      rw [if_neg hc] at hact
      cases hact
      exact cleaned_progress hf h
    | store n =>
      simp only [DimensionModel.step] at hact
      rcases hl : lookup Slot.number s.received n with _ | slot
      · rw [hl] at hact
        cases hact
      rw [hl] at hact
      dsimp only at hact
      by_cases hc : s.cleaned
      · rw [if_pos hc] at hact
        cases hact
        exact store_progress hf h (lookup_mem _ hl) hc
      · rw [if_neg hc] at hact
        cases hact
    | report part =>
      simp only [DimensionModel.step] at hact
      by_cases hc : reportable ⟨sys.recorded,sys.slots,.saving s,[]⟩ s part
      · rw [if_pos hc] at hact
        cases hact
        simp only [reportable,Bool.and_eq_true,Bool.not_eq_true'] at hc
        exact report_progress hf h hc.1.1.1.2 hc.1.1.2
      · rw [if_neg hc] at hact
        cases hact
    | update ok =>
      simp only [DimensionModel.step] at hact
      rcases hch : s.channel with _ | ⟨part,later⟩
      · rw [hch] at hact
        cases hact
      rw [hch] at hact
      dsimp only at hact
      by_cases hc : (s.broken || s.refused)
      · rw [if_pos hc] at hact
        cases hact
      rw [if_neg hc] at hact
      dsimp only at hact
      split at hact
      · rename_i t ht
        cases hact
        exact update_progress hf h hch ht
      · cases hact
    | _ => cases ‹storeEvent _ = true›
  · cases hact

end act

section finish

/-- A complete stream that ends next to the old range has been recorded up to there. -/
theorem finish_covered {recorded : Range} {slots : List Slot} {s : Saving}
    (h : Running j recorded slots w s) (hb : s.broken = false) (hr : s.refused = false)
    (hall : s.received.length < (blocks s.interval).length ∨
      ∀ n ∈ blocks s.interval, ∃ part ∈ s.taken, part.contains n)
    {last : Slot} (hl : last ∈ s.received) (hstop : w.target.stop = some last.number)
    {right : UInt64} (hright : last.number.toNat+1 = right.toNat)
    (hrec : j.recorded.contains right) : recorded.contains last.number := by
  have hold := h.kept right hrec
  have hin := h.numbered.inside last hl
  obtain ⟨k,hk⟩ := List.mem_iff_getElem?.mp hl
  have hnum := h.numbered.number k last hk
  have hklen := (List.getElem?_eq_some_iff.mp hk).1
  have hfull : ¬s.received.length < (blocks s.interval).length := by
    rw [h.interval,blocks_length,hstop,top_some]
    omega
  have htaken := hall.resolve_left hfull
  have hne : s.old.isEmpty = false := by
    rw [inRange_iff] at hold
    exact not_isEmpty _ (by omega)
  apply h.joined hb hr hne
  rw [h.seed,hne]
  simp only [Bool.false_eq_true,if_false]
  intro y hy1 hy2
  by_cases hle : last.number.toNat < y.toNat ∨ s.old.start.toNat ≤ y.toNat
  · rw [inRange_iff] at hold ⊢
    omega
  right
  have hy : y = last.number := by
    apply toNat_inj.mp
    omega
  rw [hy,h.completed]
  exact htaken last.number ((mem_blocks _ _).mpr (by rw [h.interval]; exact hin))

theorem finish_progress {s : Saving}
    (hf : sys.recorded.stop ≠ none) (h : Running j sys.recorded sys.slots w s) {ok : Bool}
    {stage : Stage} (hfin : finishWorker sys.slots w s ok = some stage) :
    Progress j sys w (sys.recorded,sys.slots,{w with stage := stage}) := by
  apply unchanged hf
  unfold finishWorker at hfin
  split at hfin
  · cases hfin
    trivial
  cases hrej : w.rejection with
  | some failure =>
    rw [hrej] at hfin
    cases hfin
    cases failure with
    | link => exact h.refusal hrej
    | discontinuous | other => trivial
  | none =>
    rw [hrej] at hfin
    dsimp only at hfin
    split at hfin
    · cases hfin
      trivial
    rename_i hbad
    rw [Bool.not_eq_true,Bool.or_eq_false_iff] at hbad
    split at hfin
    · rename_i hcomplete
      cases hfin
      simp only [complete,Bool.and_eq_true,Bool.or_eq_true,List.isEmpty_iff,
        all_eq_true,any_eq_true,decide_eq_true_eq] at hcomplete
      obtain ⟨⟨⟨⟨hclean,hinput⟩,-⟩,hstored⟩,hall⟩ := hcomplete
      have hsource : s.received = j.source w.target := by
        have := h.streamed hrej
        rwa [hinput,List.append_nil] at this
      constructor
      case finite => exact h.finite
      case numbered => exact hsource ▸ h.numbered
      case linked => exact hsource ▸ h.linked
      case exact => exact fun n slot hn hs => hsource ▸ h.exact hclean n slot hn hs
      case stored => exact fun slot hs => hstored slot (hsource ▸ hs)
      intro last hl hstop right hright hrec
      exact finish_covered h hbad.1 hbad.2 hall (hsource ▸ hl) hstop hright hrec
    · cases hfin

end finish

/-- What a step of a worker does, whatever the action. -/
theorem work_progress (hf : sys.recorded.stop ≠ none)
    (hkept : ∀ x, j.recorded.contains x → sys.recorded.contains x) (hborder : w.target.stop ≠ none →
      borderOf sys.recorded sys.slots w.target = border j w.target)
    (h : WorkerInv j sys.recorded sys.slots w) {action : Action}
    {after : Range × List Slot × Worker} (hwork : work sys w action = some after) :
    Progress j sys w after := by
  unfold work at hwork
  unfold WorkerInv at h
  cases hstage : w.stage with
  | waiting =>
    rw [hstage] at h hwork
    cases action with
    | start getOk headerOk =>
      obtain ⟨stage,hs,rfl⟩ := map_eq_some_iff.mp hwork
      exact start_progress hf hkept hborder h hs
    | _ => cases hwork
  | saving s =>
    rw [hstage] at h hwork
    cases action with
    | start getOk headerOk => cases hwork
    | receive =>
      obtain ⟨next,hs,rfl⟩ := map_eq_some_iff.mp hwork
      exact receive_progress hf h hs
    | act event => exact act_progress hf h hwork
    | finish ok =>
      obtain ⟨stage,hs,rfl⟩ := map_eq_some_iff.mp hwork
      exact finish_progress hf h hs
  | ended result =>
    rw [hstage] at hwork
    cases action <;> cases hwork

def Separate (t u : Range) : Prop :=
  ∀ x y : UInt64, t.contains x → u.contains y →
    x ≠ y ∧ x.toNat+1 ≠ y.toNat ∧ y.toNat+1 ≠ x.toNat

theorem separate_symm {t u : Range} (h : Separate t u) : Separate u t := by
  intro x y hx hy
  obtain ⟨h1,h2,h3⟩ := h y x hy hx
  exact ⟨h1.symm,h3,h2⟩

/-- An infinite range is never saved, so only finite ranges have to be apart. -/
structure Planned (recorded : Range) (targets : List Range) : Prop where
  separate : targets.Pairwise (fun t u => t.stop ≠ none → u.stop ≠ none → Separate t u)
  nonempty : ∀ t ∈ targets, t.isEmpty = false
  together : 1 < targets.length → recorded.isEmpty = false

section plan

variable {recorded r : Range}

theorem planned_interval : Planned recorded (RangeSet.getRanges ⟨r,[]⟩) := by
  unfold RangeSet.getRanges
  split
  · exact ⟨List.Pairwise.nil,nofun,by simp⟩
  rename_i he
  refine ⟨pairwise_singleton _ _,?_,by simp [RangeSet.rangesFrom]⟩
  intro t ht
  rw [mem_singleton.mp ht]
  exact Bool.eq_false_of_not_eq_true he

theorem planned_hole (hr : r.isEmpty = false) (hc : recorded.isEmpty = false)
    (hstart : r.start.toNat < recorded.start.toNat)
    (hstop : lessNilAsInf recorded.stop r.stop) : Planned recorded (RangeSet.getRanges ⟨r,[(recorded.start,recorded.endOrZero)]⟩) := by
  have hne := start_le_top hc
  have hranges : RangeSet.getRanges ⟨r,[(recorded.start,recorded.endOrZero)]⟩ =
      [⟨r.start,some (recorded.start-1)⟩,⟨recorded.endOrZero+1,r.stop⟩] := by
    simp [RangeSet.getRanges,RangeSet.isEmpty,hr,RangeSet.rangesFrom]
  have hd := toNat_dec recorded.start (by omega)
  rw [hranges]
  constructor
  · rw [pairwise_pair]
    intro _ hfinite x y hx hy
    obtain ⟨stop,hs⟩ := ne_none_iff_exists'.mp hfinite
    have hw := word_lt stop
    rw [hs,less_some_iff] at hstop
    rw [inRange_iff,top_some] at hx
    rw [inRange_iff,endOrZero_inc recorded (by omega)] at hy
    refine ⟨fun heq => ?_,by omega⟩
    rw [heq] at hx
    omega
  · intro t ht
    rcases mem_cons.mp ht with rfl | ht
    · apply not_isEmpty
      rw [top_some]
      dsimp only
      omega
    rw [mem_singleton.mp ht]
    rcases hs : r.stop with _ | stop
    · rfl
    have hw := word_lt stop
    rw [hs,less_some_iff] at hstop
    apply not_isEmpty
    rw [top_some,endOrZero_inc recorded (by omega)]
    omega
  · exact fun _ => hc

theorem planned_remove : Planned recorded (r.remove recorded).getRanges := by
  rcases remove_shape r recorded with ⟨left,h⟩ | ⟨hr,hc,hstart,hstop,h⟩
  · rw [h]
    exact planned_interval
  · rw [h]
    exact planned_hole hr hc hstart hstop

theorem plan_planned {srcRange : Option Range} {interval : Range} {overwrite : Bool}
    {targets : List Range} (h : plan srcRange (some recorded) interval overwrite = .ok targets) :
    Planned recorded targets := by
  unfold plan at h
  rcases srcRange with _ | srcRange
  · cases h
  dsimp only at h
  split at h
  · cases h
    exact ⟨List.Pairwise.nil,nofun,by simp⟩
  split at h
  · cases h
  split at h
  · cases h
    exact planned_interval
  · cases h
    exact planned_remove

end plan

section run

def Reached (targets : List Range) (x : UInt64) : Prop :=
  ∃ t ∈ targets, t.stop ≠ none ∧ t.contains x

structure SystemInv (j : Job) (targets : List Range) (sys : System) : Prop where
  planned : sys.workers.map Worker.target = targets
  finite : sys.recorded.stop ≠ none
  kept : ∀ x, j.recorded.contains x → sys.recorded.contains x
  within : ∀ x, sys.recorded.contains x → j.recorded.contains x ∨ Reached targets x
  outside : ∀ n, ¬Reached targets n → slotAt sys.slots n = slotAt j.slots n
  workers : ∀ w ∈ sys.workers, WorkerInv j sys.recorded sys.slots w

theorem begin_inv {targets : List Range} (hf : j.recorded.stop ≠ none) :
    SystemInv j targets (begin j.recorded j.slots j.source targets) := by
  constructor
  case planned => simp [begin,Function.comp_def]
  case finite => exact hf
  case kept => exact fun _ hx => hx
  case within => exact fun _ hx => .inl hx
  case outside => exact fun _ _ => rfl
  intro w hw
  obtain ⟨t,-,rfl⟩ := mem_map.mp hw
  exact ⟨rfl,rfl⟩

variable {recorded t : Range} {targets : List Range} {i k : ℕ}

theorem separate_targets (h : Planned recorded targets)
    (hne : i ≠ k) {u : Range} (ht : targets[i]? = some t) (hu : targets[k]? = some u)
    (htf : t.stop ≠ none) (huf : u.stop ≠ none) : Separate t u := by
  obtain ⟨hi,rfl⟩ := List.getElem?_eq_some_iff.mp ht
  obtain ⟨hk,rfl⟩ := List.getElem?_eq_some_iff.mp hu
  have hp := pairwise_iff_getElem.mp h.separate
  rcases Nat.lt_or_gt_of_ne hne with hlt | hgt
  · exact hp i k hi hk hlt htf huf
  · exact separate_symm (hp k i hk hi hgt huf htf)

/-- No target reaches the neighbours of another. -/
theorem beside_free (h : Planned recorded targets) (ht : t ∈ targets) (hf : t.stop ≠ none)
    {x y : UInt64} (hx : t.contains x) (hy : t.contains y = false)
    (hxy : x.toNat+1 = y.toNat ∨ y.toNat+1 = x.toNat) : ¬Reached targets y := by
  rintro ⟨u,hu,huf,huy⟩
  obtain ⟨i,hi⟩ := mem_iff_getElem?.mp ht
  obtain ⟨k,hk⟩ := mem_iff_getElem?.mp hu
  by_cases hik : i = k
  · obtain rfl : t = u := by
      rw [hik,hk] at hi
      exact (some.inj hi).symm
    rw [hy] at huy
    cases huy
  · obtain ⟨-,h1,h2⟩ := separate_targets h hik hi hk hf huf x y hx huy
    exact hxy.elim h1 h2

theorem left_free (h : Planned recorded targets) (ht : t ∈ targets) (hf : t.stop ≠ none)
    {x : UInt64} (hx : x.toNat+1 = t.start.toNat) : ¬Reached targets x := by
  have hne := start_le_top (h.nonempty t ht)
  refine beside_free h ht hf ((inRange_iff _ t.start).mpr (by omega)) ?_ (.inr hx)
  rw [Bool.eq_false_iff,ne_eq,inRange_iff]
  omega

theorem border_same (hp : Planned j.recorded targets) (h : SystemInv j targets sys)
    (ht : t ∈ targets) (hf : t.stop ≠ none) : borderOf sys.recorded sys.slots t = border j t := by
  unfold border borderOf
  by_cases hpos : 0 < t.start
  · have hlt : 0 < t.start.toNat := lt_iff_toNat_lt.mp hpos
    have hd : (t.start-1).toNat = t.start.toNat-1 := toNat_dec _ hlt
    have hfree := left_free hp ht hf (x := t.start-1) (by omega)
    have hrec : sys.recorded.contains (t.start-1) = j.recorded.contains (t.start-1) := by
      rw [Bool.eq_iff_iff]
      exact ⟨fun hx => (h.within _ hx).resolve_right hfree,h.kept _⟩
    rw [hrec,h.outside _ hfree]
  · simp [hpos]

/-- A step of one worker leaves the others alone. -/
theorem others_inv (hp : Planned j.recorded targets) (h : SystemInv j targets sys) (hne : i ≠ k)
    {v : Worker} (hw : sys.workers[i]? = some w) (hv : sys.workers[k]? = some v)
    {after : Range × List Slot × Worker} (hprog : Progress j sys w after) :
    WorkerInv j after.1 after.2.1 v := by
  have hlen : 1 < targets.length := by
    rw [← h.planned,length_map]
    have h1 := (List.getElem?_eq_some_iff.mp hw).1
    have h2 := (List.getElem?_eq_some_iff.mp hv).1
    omega
  have hnonempty : sys.recorded.isEmpty = false := by
    have hold := hp.together hlen
    have hstart := start_le_top hold
    have hin := h.kept j.recorded.start ((inRange_iff _ _).mpr (by omega))
    rw [inRange_iff] at hin
    exact not_isEmpty _ (by omega)
  have htarget : ∀ (m : ℕ) (u : Worker), sys.workers[m]? = some u → targets[m]? = some u.target := by
    intro m u hu
    rw [← h.planned,getElem?_map,hu]
    rfl
  apply worker_mono (h.workers v (mem_of_getElem? hv)) hnonempty hprog.grows
  intro hvf n hn
  by_cases hwf : w.target.stop = none
  · exact congrArg (fun slots => slotAt slots n) (hprog.idle hwf).2
  apply hprog.outside
  rw [Bool.eq_false_iff]
  intro hc
  exact (separate_targets hp hne (htarget i w hw) (htarget k v hv) hwf hvf n n hc hn).1 rfl

theorem step_inv (j : Job) (targets : List Range) (hp : Planned j.recorded targets)
    (sys : System) (move : ℕ × Action) (next : System) (h : SystemInv j targets sys)
    (hstep : CopyModel.step sys move = some next) : SystemInv j targets next := by
  unfold CopyModel.step at hstep
  split at hstep
  · cases hstep
  rename_i w hw
  obtain ⟨after,hwork,rfl⟩ := map_eq_some_iff.mp hstep
  have hmem : w ∈ sys.workers := mem_of_getElem? hw
  have htarget : targets[move.1]? = some w.target := by
    rw [← h.planned,getElem?_map,hw]
    rfl
  have hin : w.target ∈ targets := mem_of_getElem? htarget
  have hprog := work_progress h.finite h.kept (border_same hp h hin) (h.workers w hmem) hwork
  have hreach : ∀ x, ¬Reached targets x → w.target.stop ≠ none → w.target.contains x = false :=
    fun x hx hf => by
      rw [Bool.eq_false_iff]
      exact fun hc => hx ⟨w.target,hin,hf,hc⟩
  constructor
  case planned =>
    rw [map_set_key Worker.target _ hw hprog.target,h.planned]
  case finite => exact hprog.finite
  case kept => exact fun x hx => hprog.grows x (h.kept x hx)
  case within =>
    intro x hx
    by_cases hf : w.target.stop = none
    · exact h.within x ((hprog.idle hf).1 ▸ hx)
    rcases hprog.within x hx with hx | hx
    · exact h.within x hx
    · exact .inr ⟨w.target,hin,hf,hx⟩
  case outside =>
    intro n hn
    rw [← h.outside n hn]
    by_cases hf : w.target.stop = none
    · exact congrArg (fun slots => slotAt slots n) (hprog.idle hf).2
    · exact hprog.outside n (hreach n hn hf)
  intro v hv
  obtain ⟨k,hk⟩ := mem_iff_getElem?.mp hv
  rw [getElem?_set] at hk
  by_cases hik : move.1 = k
  · obtain ⟨-,rfl⟩ : _ ∧ after.2.2 = v := by simpa [hik] using hk
    exact hprog.inv
  · rw [if_neg hik] at hk
    exact others_inv hp h hik hw hk hprog

theorem run_inv (j : Job) (targets : List Range) (hp : Planned j.recorded targets)
    (hf : j.recorded.stop ≠ none) (moves : List (ℕ × Action)) (sys : System)
    (h : run CopyModel.step (begin j.recorded j.slots j.source targets) moves = some sys) :
    SystemInv j targets sys :=
  run_invariant CopyModel.step (SystemInv j targets)
    (fun s move t hs hst => step_inv j targets hp s move t hs hst) moves _ sys
    (begin_inv hf) h

end run

section links

variable {t : Range} {right left : Slot}

/-- Numbered slots that follow each other are neighbours in the stream. -/
theorem follows_in_stream {front stream : List Slot} (hn : Numbered t stream)
    (hc : (front++stream).IsChain Follows) (hl : left ∈ stream)
    (hr : right ∈ stream) : Follows left right := by
  intro hnum
  obtain ⟨i,hi⟩ := mem_iff_getElem?.mp hl
  obtain ⟨k,hk⟩ := mem_iff_getElem?.mp hr
  have h1 := hn.number i left hi
  have h2 := hn.number k right hk
  obtain rfl : k = i+1 := by omega
  obtain ⟨hi',rfl⟩ := List.getElem?_eq_some_iff.mp hi
  obtain ⟨hk',rfl⟩ := List.getElem?_eq_some_iff.mp hk
  have hstream := (isChain_append.mp hc).2.1
  exact isChain_iff_getElem.mp hstream i hk' hnum

theorem follows_border (hn : Numbered t (j.source t))
    (hc : ((border j t).toList++j.source t).IsChain Follows)
    (hleft : slotAt j.slots left.number = some left) (hrec : j.recorded.contains left.number)
    (hstart : left.number.toNat+1 = t.start.toNat) (hr : right ∈ j.source t) : Follows left right := by
  intro hnum
  obtain ⟨k,hk⟩ := mem_iff_getElem?.mp hr
  have h1 := hn.number k right hk
  obtain rfl : k = 0 := by omega
  have hpos : 0 < t.start := by
    rw [lt_iff_toNat_lt]
    simp only [UInt64.toNat_zero]
    omega
  have hprev : t.start-1 = left.number := by
    apply toNat_inj.mp
    rw [toNat_dec _ (by omega)]
    omega
  have hb : border j t = some left := by
    unfold border borderOf
    rw [hprev,hrec,hleft]
    simp [hpos]
  rw [hb] at hc
  exact (isChain_append.mp hc).2.2 left (by simp) right
    (by rw [head?_eq_getElem?]; exact hk) hnum

variable {targets : List Range}

theorem done_of_succeeded (h : SystemInv j targets sys) (hok : succeeded sys) (t : Range)
    (ht : t ∈ targets) : Done j sys.recorded sys.slots t := by
  rw [← h.planned] at ht
  obtain ⟨w,hw,rfl⟩ := mem_map.mp ht
  have hstage : w.stage = .ended none := by
    simpa using all_eq_true.mp hok w hw
  have hinv := h.workers w hw
  rwa [WorkerInv,hstage] at hinv

theorem linked_of_bordered (hp : Planned j.recorded targets) (h : SystemInv j targets sys)
    (hok : succeeded sys) (hlinked : Linked j.recorded j.slots) (hb : Bordered j targets) :
    Linked sys.recorded sys.slots := by
  intro left _ right _ hleft hright hrl hrr hnum
  have hdone := done_of_succeeded h hok
  by_cases hl : Reached targets left.number
  · obtain ⟨t,ht,hf,htl⟩ := hl
    have hsent := (hdone t ht).exact _ left htl hleft
    rcases htr : t.contains right.number with _ | _
    swap
    · exact follows_in_stream (hdone t ht).numbered (hdone t ht).linked hsent
        ((hdone t ht).exact _ right htr hright) hnum
    have hfree := beside_free hp ht hf htl htr (.inl hnum)
    have hold := (h.within _ hrr).resolve_right hfree
    have hslot : slotAt j.slots right.number = some right := by
      rw [← h.outside _ hfree,hright]
    have hend : t.stop = some left.number := by
      obtain ⟨stop,hs⟩ := ne_none_iff_exists'.mp hf
      have hout := (Bool.not_eq_true _).mpr htr
      rw [inRange_iff,hs,top_some] at hout
      rw [inRange_iff,hs,top_some] at htl
      rw [hs,Option.some.injEq]
      apply toNat_inj.mp
      omega
    exact hb t ht left hsent hend right (lookup_mem _ hslot) hslot hold hnum
  · have hold := (h.within _ hrl).resolve_right hl
    have hslot : slotAt j.slots left.number = some left := by
      rw [← h.outside _ hl,hleft]
    by_cases hr : Reached targets right.number
    · obtain ⟨t,ht,hf,htr⟩ := hr
      have hout : ¬t.contains left.number := fun hc => hl ⟨t,ht,hf,hc⟩
      have hstart : left.number.toNat+1 = t.start.toNat := by
        rw [inRange_iff] at htr hout
        omega
      exact follows_border (hdone t ht).numbered (hdone t ht).linked hslot hold
        hstart ((hdone t ht).exact _ right htr hright) hnum
    · have hrslot : slotAt j.slots right.number = some right := by
        rw [← h.outside _ hr,hright]
      exact hlinked left (lookup_mem _ hslot) right
        (lookup_mem _ hrslot) hslot hrslot hold
        ((h.within _ hrr).resolve_right hr) hnum

theorem bordered_of_linked (hp : Planned j.recorded targets) (h : SystemInv j targets sys)
    (hok : succeeded sys) (hlinked : Linked sys.recorded sys.slots) : Bordered j targets := by
  intro t ht last hlast hstop right _ hright hrec hnum
  have hdone := done_of_succeeded h hok t ht
  have hin := hdone.numbered.inside last hlast
  have hout : t.contains right.number = false := by
    rw [Bool.eq_false_iff,ne_eq,inRange_iff,hstop,top_some]
    omega
  have hfree := beside_free hp ht hdone.finite hin hout (.inl hnum)
  have hslot : slotAt sys.slots right.number = some right := by
    rw [h.outside _ hfree,hright]
  have hstored := hdone.stored last hlast
  exact hlinked last (lookup_mem _ hstored) right (lookup_mem _ hslot) hstored hslot
    (hdone.covered last hlast hstop right.number hnum hrec) (h.kept _ hrec) hnum

end links

/-- After a copy without an error the slots are linked exactly when every saved range links to
what is recorded on its right; a link error names a slot that does not fit. -/
theorem copy_links_iff_bordered (j : Job) (srcRange : Option Range) (interval : Range)
    (overwrite : Bool) (targets : List Range)
    (hplan : plan srcRange (some j.recorded) interval overwrite = .ok targets)
    (hf : j.recorded.stop ≠ none) (hlinked : Linked j.recorded j.slots)
    (moves : List (ℕ × Action)) (sys : System)
    (hrun : run CopyModel.step (begin j.recorded j.slots j.source targets) moves = some sys) :
    (succeeded sys → (Linked sys.recorded sys.slots ↔ Bordered j targets)) ∧
    ∀ w ∈ sys.workers, w.stage = .ended (some .link) → Mismatched j w.target := by
  have hp := plan_planned hplan
  have h := run_inv j targets hp hf moves sys hrun
  constructor
  · intro hok
    exact ⟨bordered_of_linked hp h hok,linked_of_bordered hp h hok hlinked⟩
  intro w hw hstage
  have hinv := h.workers w hw
  rwa [WorkerInv,hstage] at hinv

section sample

def sampleJob (recorded : Range) (slots sent : List Slot) (h : sent.length ≤ 9) : Job where
  recorded := recorded
  slots := slots
  source t := sent.filter (fun slot => t.contains slot.number)
  sendable t := by
    have := List.length_filter_le (fun slot : Slot => t.contains slot.number) sent
    omega

def saveOne (i : ℕ) (n : UInt64) : List (ℕ × Action) :=
  [(i,.start true true),(i,.act .cleaned),(i,.receive),(i,.act (.store n)),
    (i,.act (.report (single n))),(i,.act (.update true)),(i,.finish true)]

def bothSides : Job :=
  sampleJob ⟨2,some 2⟩ [⟨2, "b", "a"⟩] [⟨1, "a", "o"⟩,⟨2, "b", "a"⟩,⟨3, "c", "b"⟩] (by decide)

def bothMoves : List (ℕ × Action) :=
  [(0,.start true true),(1,.start true true)]++(saveOne 1 3).tail++(saveOne 0 1).tail

def leftSide : Job := sampleJob ⟨2,some 2⟩ [⟨2, "b", "a"⟩] [⟨1, "x", "o"⟩] (by decide)

def insideJob : Job :=
  sampleJob ⟨1,some 3⟩ [⟨1, "a", "o"⟩,⟨2, "b", "a"⟩,⟨3, "c", "b"⟩] [⟨2, "x", "a"⟩] (by decide)

end sample

theorem copy_links_both_sides :
    ∃ sys, run CopyModel.step (begin bothSides.recorded bothSides.slots bothSides.source
        [⟨1,some 1⟩,⟨3,some 3⟩]) bothMoves = some sys ∧
      sys.recorded = ⟨1,some 3⟩ ∧ succeeded sys ∧
      (succeeded sys → (Linked sys.recorded sys.slots ↔
        Bordered bothSides [⟨1,some 1⟩,⟨3,some 3⟩])) ∧
      ∀ w ∈ sys.workers, w.stage = .ended (some .link) → Mismatched bothSides w.target := by
  obtain ⟨sys,hrun⟩ := Option.isSome_iff_exists.mp (show (run CopyModel.step
    (begin bothSides.recorded bothSides.slots bothSides.source [⟨1,some 1⟩,⟨3,some 3⟩])
    bothMoves).isSome by decide)
  have hend : (run CopyModel.step (begin bothSides.recorded bothSides.slots bothSides.source
      [⟨1,some 1⟩,⟨3,some 3⟩]) bothMoves).all (fun sys =>
        decide (sys.recorded = ⟨1,some 3⟩) && succeeded sys) := by decide
  rw [hrun,Option.all_some,Bool.and_eq_true,decide_eq_true_eq] at hend
  exact ⟨sys,hrun,hend.1,hend.2,copy_links_iff_bordered bothSides (some ⟨1,some 3⟩)
    ⟨0,some 9⟩ false [⟨1,some 1⟩,⟨3,some 3⟩] (by decide) (by decide) (by decide) bothMoves sys
    hrun⟩

/-- A slot on the left of the recorded ones, or an overwritten one among them,
is not compared with the slot on its right. -/
theorem copy_breaks_right_border :
    (plan (some ⟨1,some 1⟩) (some leftSide.recorded) ⟨1,some 1⟩ false = .ok [⟨1,some 1⟩] ∧
      Linked leftSide.recorded leftSide.slots ∧
      ∃ sys, run CopyModel.step (begin leftSide.recorded leftSide.slots leftSide.source
        [⟨1,some 1⟩]) (saveOne 0 1) = some sys ∧ succeeded sys ∧
        ¬Linked sys.recorded sys.slots) ∧
    (plan (some ⟨1,some 3⟩) (some insideJob.recorded) ⟨2,some 2⟩ true = .ok [⟨2,some 2⟩] ∧
      Linked insideJob.recorded insideJob.slots ∧
      ∃ sys, run CopyModel.step (begin insideJob.recorded insideJob.slots insideJob.source
        [⟨2,some 2⟩]) (saveOne 0 2) = some sys ∧ succeeded sys ∧
        ¬Linked sys.recorded sys.slots) :=
  ⟨⟨by decide,by decide,_,rfl,by decide,by decide⟩,⟨by decide,by decide,_,rfl,by decide,by decide⟩⟩

/-- However the workers take turns, a copy keeps what was recorded, records nothing but its
targets and leaves the slots outside of them alone. -/
theorem copy_keeps_the_rest (j : Job) (srcRange : Option Range) (interval : Range)
    (overwrite : Bool) (targets : List Range)
    (hplan : plan srcRange (some j.recorded) interval overwrite = .ok targets)
    (hf : j.recorded.stop ≠ none) (moves : List (ℕ × Action)) (sys : System)
    (hrun : run CopyModel.step (begin j.recorded j.slots j.source targets) moves = some sys) :
    sys.recorded.stop ≠ none ∧ ∀ n,
      (j.recorded.contains n → sys.recorded.contains n) ∧
      (sys.recorded.contains n → j.recorded.contains n ∨ Reached targets n) ∧
      (¬Reached targets n → slotAt sys.slots n = slotAt j.slots n) := by
  have h := run_inv j targets (plan_planned hplan) hf moves sys hrun
  exact ⟨h.finite,fun n => ⟨h.kept n,h.within n,h.outside n⟩⟩

/-- Two workers in turn, one on each side of the recorded slot. -/
theorem copy_keeps_the_middle :
    ∃ sys, run CopyModel.step (begin bothSides.recorded bothSides.slots bothSides.source
        [⟨1,some 1⟩,⟨3,some 3⟩]) bothMoves = some sys ∧ sys.recorded.contains 2 ∧
      slotAt sys.slots 2 = some ⟨2, "b", "a"⟩ := by
  obtain ⟨sys,hrun⟩ := Option.isSome_iff_exists.mp (show (run CopyModel.step
    (begin bothSides.recorded bothSides.slots bothSides.source [⟨1,some 1⟩,⟨3,some 3⟩])
    bothMoves).isSome by decide)
  obtain ⟨hkept,-,houtside⟩ := (copy_keeps_the_rest bothSides (some ⟨1,some 3⟩) ⟨0,some 9⟩ false
    [⟨1,some 1⟩,⟨3,some 3⟩] (by decide) (by decide) bothMoves sys hrun).2 2
  exact ⟨sys,hrun,hkept (by decide),houtside (show ¬∃ t ∈ _, _ by decide)⟩

end Sentio.CopyLinks
