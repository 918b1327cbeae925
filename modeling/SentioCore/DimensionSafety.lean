import SentioCore.DimensionModel

/-!
# The recorded range of a dimension

While a save runs, the recorded range holds the blocks that the old range and
the finished parts join to the seed.
-/

namespace Sentio.DimensionSafety
open RangeModel RangeHoles RangeSetAlgebra RangeCut RangeFind DimensionModel WordArith Transition KeyedRows List
open Option (some.inj)

def Covers (parts : List Range) (interval : Range) : Prop :=
  ∀ x, interval.contains x → ∃ part ∈ parts, part.contains x

def Extended (o : Outcome) : Prop :=
  Covers o.parts o.interval →
    ∀ x, o.recorded.contains x ↔ o.old.contains x ∨ o.interval.contains x

def Finished (s : Saving) (x : UInt64) : Prop := s.old.contains x ∨ s.completed.contains x

structure SavingInv (range : Range) (slots : List Slot) (s : Saving) : Prop where
  intervalFinite : s.interval.contains maxUint64 = false
  oldFinite : s.old.contains maxUint64 = false
  near : s.old.isEmpty = false → s.interval.isEmpty = false → s.old.getDistance s.interval = 0
  seed : s.seed = if s.old.isEmpty then single s.interval.start else s.old
  clean : s.cleaned = false → s.taken++s.channel = []
  apart : ∀ x, range.contains x → s.interval.contains x → s.cleaned
  canonical : Canonical s.completed
  completed : ∀ x, s.completed.contains x ↔ ∃ part ∈ s.taken, part.contains x
  inside : ∀ part ∈ s.taken++s.channel, ∀ x, part.contains x → s.interval.contains x
  stored : ∀ part ∈ s.taken++s.channel, ∀ x, part.contains x → holds slots x
  begins : s.old.isEmpty → ∀ part rest, s.taken++s.channel = part::rest →
    part.contains s.interval.start
  current : s.curRange = range
  recorded : s.broken = false →
    ∀ x, range.contains x ↔ Joined (Finished s) s.seed.start x
  notRefused : s.refused = false

def PhaseInv (d : Dimension) : Prop :=
  match d.phase with
  | .idle => True
  | .saving s => SavingInv d.recorded d.slots s
  | .deleting target => ∀ x, d.recorded.contains x → ¬target.contains x

structure Sound (d : Dimension) : Prop where
  finite : d.recorded.contains maxUint64 = false
  stored : ∀ x, d.recorded.contains x → holds d.slots x
  outcomes : ∀ o ∈ d.outcomes, Extended o
  phase : PhaseInv d

/-- A save ends below the last word and does not meet the recorded range; the first part saved
into an empty dimension begins its interval. -/
def Orderly (d : Dimension) : Event → Prop
  | .save interval _ _ => Bounded interval ∧ (d.recorded.intersection interval).isEmpty
  | .report part =>
    match d.phase with
    | .saving s => s.old.isEmpty → s.taken++s.channel = [] →
        part.contains s.interval.start
    | _ => True
  | _ => True

theorem holds_iff {slots : List Slot} {n : UInt64} :
    holds slots n ↔ ∃ slot ∈ slots, slot.number = n := by
  simp [holds]

variable {r : Range} {x : UInt64} {slots : List Slot}

theorem holdsAll_spec (h : holdsAll slots r) (hx : r.contains x) : holds slots x := by
  rw [inRange_iff] at hx
  have hi := all_eq_true.mp h (x.toNat-r.start.toNat) (mem_range.mpr (by omega))
  have he : r.start+UInt64.ofNat (x.toNat-r.start.toNat) = x := by
    have hw := word_lt x
    apply UInt64.toNat_inj.mp
    rw [UInt64.toNat_add,UInt64.toNat_ofNat']
    omega
  rwa [he] at hi

variable {n : UInt64}

theorem holds_erase (h : holds slots x) (hne : x ≠ n) : holds (erase Slot.number slots n) x := by
  obtain ⟨slot,hs,rfl⟩ := holds_iff.mp h
  exact holds_iff.mpr ⟨slot,mem_filter.mpr ⟨hs,by simpa using hne⟩,rfl⟩

theorem holds_upsert {slot : Slot} (h : holds slots x) :
    holds (upsert Slot.number slots slot) x := by
  by_cases hx : x = slot.number
  · exact holds_iff.mpr ⟨slot,by simp [upsert],hx.symm⟩
  have := holds_erase h hx
  obtain ⟨a,ha,he⟩ := holds_iff.mp this
  exact holds_iff.mpr ⟨a,by simp [upsert,ha],he⟩

theorem holds_filter (h : holds slots x) (hx : ¬r.contains x) :
    holds (slots.filter (fun slot => !r.contains slot.number)) x := by
  obtain ⟨slot,hs,rfl⟩ := holds_iff.mp h
  exact holds_iff.mpr ⟨slot,mem_filter.mpr ⟨hs,by simpa using hx⟩,rfl⟩

theorem single_contains : (single n).contains x ↔ x = n := by
  rw [inRange_iff,← UInt64.toNat_inj]
  simp only [single,top_some]
  omega

theorem nonempty_contains (h : r.isEmpty = false) : r.contains r.start := by
  have := start_le_top h
  rw [inRange_iff]
  omega

theorem contains_nonempty (h : r.contains x) : r.isEmpty = false := by
  rw [inRange_iff] at h
  exact not_isEmpty r (by omega)

variable {d : Dimension} {s : Saving}

section
variable (h : SavingInv d.recorded d.slots s)
include h

theorem part_bounded {part : Range} (hp : part ∈ s.taken++s.channel) : Bounded part := by
  refine (finite_of_contents part ?_).2
  rw [Bool.eq_false_iff]
  intro hm
  have := h.inside part hp _ hm
  rw [h.intervalFinite] at this
  cases this

theorem seed_of_nonempty (ho : s.old.isEmpty = false) : s.seed = s.old := by
  rw [h.seed,ho]
  rfl

theorem seed_of_empty (ho : s.old.isEmpty) : s.seed = single s.interval.start := by
  rw [h.seed,ho]
  rfl

end

theorem seed_finite (h : SavingInv d.recorded d.slots s) :
    ∃ stop, s.seed.stop = some stop ∧ s.seed.start.toNat ≤ stop.toNat := by
  cases ho : s.old.isEmpty with
  | true =>
    rw [seed_of_empty h ho]
    exact ⟨_,rfl,le_rfl⟩
  | false =>
    rw [seed_of_nonempty h ho]
    obtain ⟨stop,hs⟩ := Option.ne_none_iff_exists'.mp (finite_of_contents _ h.oldFinite).1
    refine ⟨stop,hs,?_⟩
    have := start_le_top ho
    rw [hs,top_some] at this
    omega

variable {later : List Range} {part : Range} {e : Dimension}

section
variable (h : SavingInv d.recorded d.slots s)
include h

/-- From the seed every block of the old range is reached within the old range. -/
theorem old_joined {has : UInt64 → Prop} (hhas : ∀ y, s.old.contains y → has y)
    (hx : s.old.contains x) : Joined has s.seed.start x := by
  have ho := contains_nonempty hx
  rw [seed_of_nonempty h ho]
  exact joined_congr _ hhas (joined_range s.old x (nonempty_contains ho) hx)

/-- The range that the updater finds after the next part has been added. -/
theorem after_contains (hfin : d.recorded.contains maxUint64 = false) (hb : s.broken = false)
    (hc : s.channel = part::later) (x : UInt64) :
    (findContains ((s.completed.union part).union s.curRange) s.seed).1.contains x ↔
      Joined (fun y => s.old.contains y ∨ (s.completed.union part).contains y)
        s.seed.start x := by
  have hpart : part ∈ s.taken++s.channel := by simp [hc]
  obtain ⟨hc1,hu1⟩ := union_law s.completed part h.canonical (part_bounded h hpart)
  have hcur := h.current ▸ h.recorded hb
  obtain ⟨hc2,hu2⟩ := union_law (s.completed.union part) s.curRange hc1
    (h.current ▸ (finite_of_contents _ hfin).2)
  obtain ⟨stop,hstop,hle⟩ := seed_finite h
  have hsub : ∀ y, ((s.completed.union part).union s.curRange).contains y ↔
      s.old.contains y ∨ (s.completed.union part).contains y := by
    intro y
    rw [hu2,hcur]
    constructor
    · rintro (hy | hy)
      · exact .inr hy
      · exact (joined_end hy).imp id (fun hy => (hu1 y).mpr (.inl hy))
    rintro (hy | hy)
    · exact .inr (old_joined h (fun z hz => .inl hz) hy)
    · exact .inl hy
  have hseed : ∀ y, s.seed.contains y → ((s.completed.union part).union s.curRange).contains y := by
    intro y hy
    rw [hsub]
    rcases ho : s.old.isEmpty with _ | _
    · rw [seed_of_nonempty h ho] at hy
      exact .inl hy
    rw [seed_of_empty h ho,single_contains] at hy
    subst hy
    refine .inr ((hu1 _).mpr ?_)
    cases ht : s.taken with
    | nil => exact .inr (h.begins ho part later (by rw [ht,hc]; rfl))
    | cons p rest =>
      refine .inl ((h.completed _).mpr ⟨p,by simp [ht],?_⟩)
      exact h.begins ho p (rest++s.channel) (by rw [ht]; rfl)
  rw [findContains_spec hc2 hstop hle hseed]
  exact ⟨joined_congr _ (fun y => (hsub y).mp),joined_congr _ (fun y => (hsub y).mpr)⟩

theorem finished_finite (hp : part ∈ s.taken++s.channel)
    (hm : s.old.contains maxUint64 ∨ (s.completed.union part).contains maxUint64) : False := by
  obtain ⟨_,hu⟩ := union_law s.completed part h.canonical (part_bounded h hp)
  rcases hm with hm | hm
  · rw [h.oldFinite] at hm
    cases hm
  have hin : s.interval.contains maxUint64 := by
    rcases (hu _).mp hm with hm | hm
    · obtain ⟨p,hp,hpm⟩ := (h.completed _).mp hm
      exact h.inside p (by simp [hp]) _ hpm
    · exact h.inside part hp _ hm
  rw [h.intervalFinite] at hin
  cases hin

theorem savingInv_take (hc : s.channel = part::later)
    {cur : Range} {broken : Bool} (hslots : e.slots = d.slots) (hcur : cur = e.recorded)
    (happart : s.cleaned) (hrec : broken = false → ∀ x, e.recorded.contains x ↔
      Joined (fun y => s.old.contains y ∨ (s.completed.union part).contains y)
        s.seed.start x) :
    SavingInv e.recorded e.slots {s with
      taken := s.taken++[part]
      channel := later
      completed := s.completed.union part
      curRange := cur
      broken := broken} := by
  have hparts : (s.taken++[part])++later = s.taken++s.channel := by rw [hc]; simp
  obtain ⟨hu1,hu2⟩ := union_law s.completed part h.canonical (part_bounded h (by simp [hc]))
  refine {h with
    clean := ?_, apart := fun _ _ _ => happart, canonical := hu1, completed := ?_, inside := ?_,
    stored := ?_, begins := ?_, current := hcur, recorded := hrec}
  · intro hf
    rw [happart] at hf
    cases hf
  · intro x
    rw [hu2,h.completed]
    simp
  · rw [hparts]
    exact h.inside
  · rw [hparts,hslots]
    exact h.stored
  rw [hparts]
  exact h.begins

theorem cleaned_of_part (hc : s.channel = part::later) : s.cleaned := by
  by_contra hn
  have := h.clean (by simpa using hn)
  simp [hc] at this

end

theorem savingInv_of_phase (h : Sound d) (hp : d.phase = .saving s) :
    SavingInv d.recorded d.slots s := by
  have := h.phase
  rwa [PhaseInv,hp] at this

variable {cfg : Config} {ok : Bool}

theorem update_sound (h : Sound d) (hp : d.phase = .saving s) (hc : s.channel = part::later)
    (hb : s.broken = false) : Sound (update cfg d s part later ok) := by
  have hs := savingInv_of_phase h hp
  have hclean := cleaned_of_part hs hc
  have hmem : part ∈ s.taken++s.channel := by simp [hc]
  have hafter := after_contains hs h.finite hb hc
  obtain ⟨hu1,hu2⟩ := union_law s.completed part hs.canonical (part_bounded hs hmem)
  unfold update
  dsimp only
  generalize hA : (findContains ((s.completed.union part).union s.curRange) s.seed).1 = after at *
  have hfin : after.contains maxUint64 = false := by
    rw [Bool.eq_false_iff]
    intro hm
    exact finished_finite hs hmem (joined_end ((hafter _).mp hm))
  have hsub : ∀ x, d.recorded.contains x → after.contains x := by
    intro x hx
    rw [hafter]
    exact joined_congr _ (fun y hy => hy.imp id (fun hy => (hu2 y).mpr (.inl hy)))
      ((hs.recorded hb x).mp hx)
  have hstored : ∀ x, after.contains x → holds d.slots x := by
    intro x hx
    rcases joined_end ((hafter x).mp hx) with ho | ho
    · exact h.stored x ((hs.recorded hb x).mpr (old_joined hs (fun y hy => .inl hy) ho))
    rcases (hu2 x).mp ho with ho | ho
    · obtain ⟨p,hp,hpx⟩ := (hs.completed x).mp ho
      exact hs.stored p (by simp [hp]) x hpx
    · exact hs.stored part hmem x ho
  by_cases heq : equal s.curRange after
  · rw [if_pos heq]
    have hcur := equal_contains (hs.current ▸ (finite_of_contents _ h.finite).2)
      (finite_of_contents _ hfin).2 heq
    refine {h with phase := ?_}
    exact savingInv_take hs hc rfl hs.current hclean (fun _ x => by rw [← hafter,← hcur,hs.current])
  rw [if_neg heq]
  rcases ok with _ | _
  · refine {h with phase := ?_}
    exact savingInv_take hs hc rfl hs.current hclean (fun hf => by cases hf)
  have hcover := cover_contains hsub
  have hcfin : (after.cover d.recorded).contains maxUint64 = false := by
    rw [Bool.eq_false_iff]
    intro hm
    rw [(hcover _).mp hm] at hfin
    cases hfin
  have hset : setRange cfg (after.cover d.recorded) = some (after.cover d.recorded) := by
    simp [setRange,(finite_of_contents _ hcfin).1]
  simp only [hset,Bool.not_true,Bool.false_eq_true]
  refine ⟨hcfin,fun x hx => hstored x ((hcover x).mp hx),h.outcomes,?_⟩
  exact savingInv_take hs hc rfl rfl hclean (fun _ x => by rw [← hafter]; exact hcover x)

variable {interval : Range}

theorem startSaving_sound (h : Sound d) {leftPoint : Option Slot} (hb : Bounded interval)
    (hstop : interval.stop ≠ none) (hi : (d.recorded.intersection interval).isEmpty)
    (hdist : d.recorded.isEmpty = false → interval.isEmpty = false →
      d.recorded.getDistance interval = 0) : Sound (startSaving d interval leftPoint) := by
  have hapart : ∀ x, d.recorded.contains x → interval.contains x → False := by
    intro x hx hix
    have := (range_intersection_iff d.recorded interval x).mpr ⟨hx,hix⟩
    rw [not_inRange _ hi] at this
    cases this
  have hfinite : interval.contains maxUint64 = false := by
    obtain ⟨stop,hs⟩ := Option.ne_none_iff_exists'.mp hstop
    have := bounded_top stop (hs ▸ hb)
    have hm : maxUint64.toNat = (2^64-1) := rfl
    rw [Bool.eq_false_iff,ne_eq,inRange_iff,hs,top_some]
    omega
  have hrecorded : ∀ x, d.recorded.contains x ↔
      Joined (fun y => d.recorded.contains y ∨ emptyRangeSet.contains y)
        (if d.recorded.isEmpty then single interval.start else d.recorded).start x := by
    intro x
    constructor
    · intro hx
      have hne := contains_nonempty hx
      rw [hne]
      exact joined_congr _ (fun y hy => .inl hy)
        (joined_range d.recorded x (nonempty_contains hne) hx)
    intro hj
    rcases joined_end hj with hx | hx
    · exact hx
    · cases hx
  refine {h with phase := ?_}
  exact ⟨hfinite,h.finite,hdist,rfl,fun _ => rfl,fun x hx hix => (hapart x hx hix).elim,
    canonical_empty,by simp [empty_contains],by simp,by simp,by simp,rfl,
    fun _ => hrecorded,rfl⟩

theorem save_sound (h : Sound d)
    {getOk headerOk : Bool} (ho : Orderly d (.save interval getOk headerOk))
    (he : save cfg d interval getOk headerOk = some e) : Sound e := by
  unfold save at he
  split at he
  · exact some.inj he ▸ h
  split at he
  · exact some.inj he ▸ h
  rename_i hdist
  have hnear : d.recorded.isEmpty = false → interval.isEmpty = false →
      d.recorded.getDistance interval = 0 := by
    intro h1 h2
    have hz : ¬0 < d.recorded.getDistance interval := by simpa [h1,h2] using hdist
    rw [UInt64.lt_iff_toNat_lt] at hz
    exact UInt64.toNat_inj.mp (by simpa using hz)
  have started : ∀ leftPoint, ¬interval.stop.isNone →
      Sound (startSaving d interval leftPoint) := fun leftPoint hstop =>
    startSaving_sound h ho.1 (by simpa using hstop) ho.2 hnear
  split at he
  · split at he
    · exact some.inj he ▸ h
    split at he
    · exact some.inj he ▸ h
    split at he
    · cases he
    · rename_i hstop
      exact some.inj he ▸ started _ hstop
  · split at he
    · cases he
    · rename_i hstop
      exact some.inj he ▸ started _ hstop

theorem savingInv_slots {range : Range} {slots' : List Slot} (h : SavingInv range slots s)
    (hs : ∀ part ∈ s.taken++s.channel, ∀ x, part.contains x → holds slots' x) :
    SavingInv range slots' s :=
  {h with stored := hs}

section
variable (h : Sound d)
include h

section
variable (hp : d.phase = .saving s)
include hp

theorem clean_sound (hc : s.cleaned = false) (hn : s.interval.contains n) :
    Sound {d with slots := erase Slot.number d.slots n} := by
  have hs := savingInv_of_phase h hp
  refine ⟨h.finite,fun x hx => ?_,h.outcomes,?_⟩
  · apply holds_erase (h.stored x hx)
    rintro rfl
    rw [hs.apart x hx hn] at hc
    cases hc
  · rw [hp]
    exact savingInv_slots hs (by simp [hs.clean hc])

theorem cleaned_sound (hc : s.cleaned = false) : Sound {d with
      slots := d.slots.filter (fun slot => !s.interval.contains slot.number)
      phase := .saving {s with cleaned := true}} := by
  have hs := savingInv_of_phase h hp
  have hnone := hs.clean hc
  refine ⟨h.finite,fun x hx => ?_,h.outcomes,?_⟩
  · apply holds_filter (h.stored x hx)
    intro hn
    rw [hs.apart x hx hn] at hc
    cases hc
  · exact {hs with clean := by simp, apart := fun _ _ _ => rfl, stored := by simp [hnone]}

theorem receive_sound {slot : Slot} :
    Sound {d with phase := .saving (receive cfg s slot)} := by
  have hs := savingInv_of_phase h hp
  refine {h with phase := ?_}
  unfold receive
  split
  · exact {hs with}
  · exact {hs with}

theorem store_sound {slot : Slot} : Sound {d with slots := upsert Slot.number d.slots slot} := by
  have hs := savingInv_of_phase h hp
  refine ⟨h.finite,fun x hx => holds_upsert (h.stored x hx),h.outcomes,?_⟩
  rw [hp]
  exact savingInv_slots hs (fun part hpart x hx =>
    holds_upsert (hs.stored part hpart x hx))

theorem report_sound (ho : Orderly d (.report part)) (hr : reportable d s part) :
    Sound {d with phase := .saving {s with channel := s.channel++[part]}} := by
  have hs := savingInv_of_phase h hp
  simp only [reportable,Bool.and_eq_true] at hr
  obtain ⟨⟨⟨⟨hclean,_⟩,hinc⟩,_⟩,hall⟩ := hr
  have hmem : ∀ p ∈ s.taken++(s.channel++[part]), p ∈ s.taken++s.channel ∨ p = part := by
    simp [or_assoc]
  refine {h with phase := ?_}
  refine {hs with clean := ?_, inside := ?_, stored := ?_, begins := ?_}
  · intro hf
    rw [show s.cleaned from hclean] at hf
    cases hf
  · intro p hpm x hx
    rcases hmem p hpm with hpm | rfl
    · exact hs.inside p hpm x hx
    · exact includes_contains (finite_of_contents _ hs.intervalFinite).2 hx hinc
  · intro p hpm x hx
    rcases hmem p hpm with hpm | rfl
    · exact hs.stored p hpm x hx
    · exact holdsAll_spec hall hx
  intro hold p rest hcons
  rw [← append_assoc] at hcons
  cases hparts : s.taken++s.channel with
  | nil =>
    rw [hparts] at hcons
    rw [← (cons.inj hcons).1]
    rw [Orderly,hp] at ho
    exact ho hold hparts
  | cons q later =>
    rw [hparts] at hcons
    rw [← (cons.inj hcons).1]
    exact hs.begins hold q later hparts

end

end

/-- Once the taken parts cover the interval, every block of the old range and of
the interval is joined to the seed. -/
theorem covered_extended (h : SavingInv d.recorded d.slots s)
    (hb : s.broken = false) (hcov : Covers s.taken s.interval) :
    d.recorded.contains x ↔ s.old.contains x ∨ s.interval.contains x := by
  have hall : ∀ y, Finished s y ↔ s.old.contains y ∨ s.interval.contains y := by
    intro y
    refine or_congr Iff.rfl ?_
    rw [h.completed]
    exact ⟨fun ⟨p,hp,hy⟩ => h.inside p (by simp [hp]) y hy,hcov y⟩
  rw [h.recorded hb]
  constructor
  · intro hj
    exact (hall x).mp (joined_end hj)
  intro hx
  apply joined_congr _ (fun y => (hall y).mpr)
  intro y hy1 hy2
  cases ho : s.old.isEmpty with
  | true =>
    have hx : s.interval.contains x := by
      rcases hx with hx | hx
      · rw [not_inRange _ ho] at hx
        cases hx
      · exact hx
    rw [seed_of_empty h ho] at hy1 hy2
    right
    exact joined_range s.interval x (nonempty_contains (contains_nonempty hx)) hx y hy1 hy2
  | false =>
    rw [seed_of_nonempty h ho] at hy1 hy2
    have hold := nonempty_contains ho
    cases hi : s.interval.isEmpty with
    | true =>
      have hx : s.old.contains x := by
        rcases hx with hx | hx
        · exact hx
        · rw [not_inRange _ hi] at hx
          cases hx
      left
      exact joined_range s.old x hold hx y hy1 hy2
    | false =>
      have hint := nonempty_contains hi
      have hnear := near_of_getDistance
        (by rw [inRange_iff] at hold; omega) (finite_of_contents _ h.oldFinite).2
        (by rw [inRange_iff] at hint; omega) (finite_of_contents _ h.intervalFinite).2
        (h.near ho hi)
      simp only [inRange_iff] at hx hold hint ⊢
      omega

theorem finish_sound (h : Sound d) (hp : d.phase = .saving s) : Sound (finish d s ok) := by
  have hs := savingInv_of_phase h hp
  unfold finish
  split
  · rename_i hok
    simp only [Bool.and_eq_true,Bool.or_eq_true,hs.notRefused,Bool.false_eq_true,or_false,
      List.isEmpty_iff,Bool.not_eq_true'] at hok
    refine ⟨h.finite,h.stored,?_,trivial⟩
    intro o hmem
    rcases List.mem_append.mp hmem with hmem | hmem
    · exact h.outcomes o hmem
    rw [List.mem_singleton.mp hmem]
    intro hcov x
    apply covered_extended hs hok.1.2
    rwa [hok.2,List.append_nil] at hcov
  · exact {h with phase := trivial}

variable {target : Range}

theorem delete_sound (h : Sound d) : Sound (delete cfg d target ok) := by
  unfold delete
  split
  · exact h
  split
  · exact h
  rename_i new hset
  have hnew : first (d.recorded.remove target) = new := by
    unfold setRange at hset
    split at hset
    · cases hset
    · exact some.inj hset
  have hfirst := fun x hx => first_remove d.recorded target
    (finite_of_contents _ h.finite).1 x (hnew ▸ hx)
  refine ⟨?_,fun x hx => h.stored x (hfirst x hx).1,h.outcomes,fun x hx => (hfirst x hx).2⟩
  rw [Bool.eq_false_iff]
  intro hm
  exact absurd (hfirst _ hm).1 (by simp [h.finite])

theorem drop_sound (h : Sound d) (hp : d.phase = .deleting target) (hn : target.contains n) :
    Sound {d with slots := erase Slot.number d.slots n} := by
  have hphase := h.phase
  rw [PhaseInv,hp] at hphase
  refine ⟨h.finite,fun x hx => ?_,h.outcomes,?_⟩
  · apply holds_erase (h.stored x hx)
    rintro rfl
    exact hphase x hx hn
  · rw [hp]
    exact hphase

theorem step_sound (event : Event) (h : Sound d)
    (ho : Orderly d event) (hs : step cfg d event = some e) : Sound e := by
  unfold step at hs
  split at hs
  · exact save_sound h ho hs
  · exact some.inj hs ▸ delete_sound h
  · rename_i s n hp
    split_ifs at hs with hg
    rw [Bool.and_eq_true,Bool.not_eq_true'] at hg
    exact some.inj hs ▸ clean_sound h hp hg.1 hg.2
  · rename_i s hp
    split_ifs at hs with hg
    exact some.inj hs ▸ cleaned_sound h hp (by simpa using hg)
  · rename_i s slot hp
    split_ifs at hs
    exact some.inj hs ▸ receive_sound h hp
  · rename_i s n hp
    split at hs
    · cases hs
    · split_ifs at hs
      exact some.inj hs ▸ store_sound h hp
  · rename_i s part hp
    split_ifs at hs with hg
    exact some.inj hs ▸ report_sound h hp ho hg
  · rename_i s ok hp
    split at hs
    · cases hs
    rename_i part later hc
    split_ifs at hs with hg
    rw [Bool.or_eq_true,not_or] at hg
    exact some.inj hs ▸ update_sound h hp hc (by simpa using hg.1)
  · rename_i s ok hp
    exact some.inj hs ▸ finish_sound h hp
  · rename_i target n hp
    split_ifs at hs with hg
    exact some.inj hs ▸ drop_sound h hp hg
  · exact some.inj hs ▸ {h with phase := trivial}
  · cases hs

/-- A dimension at rest, with a recorded range all of whose slots are stored. -/
structure Rest (d : Dimension) : Prop where
  idle : d.phase = .idle
  fresh : d.outcomes = []
  finite : d.recorded.stop ≠ none
  bounded : Bounded d.recorded
  stored : ∀ x, d.recorded.contains x → holds d.slots x

theorem rest_sound (h : Rest d) : Sound d := by
  refine ⟨?_,h.stored,by simp [h.fresh],?_⟩
  · obtain ⟨stop,hs⟩ := Option.ne_none_iff_exists'.mp h.finite
    have := bounded_top stop (hs ▸ h.bounded)
    have hm : maxUint64.toNat = (2^64-1) := rfl
    rw [Bool.eq_false_iff,ne_eq,inRange_iff,hs,top_some]
    omega
  · rw [PhaseInv,h.idle]
    trivial

/-- In every orderly run the recorded range is finite with all its slots stored, and grows by the
intervals whose parts are covered. -/
theorem recorded_range_complete (cfg : Config) (d e : Dimension) (events : List Event)
    (hd : Rest d) (ho : Throughout (step cfg) Orderly d events)
    (h : run (step cfg) d events = some e) :
    e.recorded.stop ≠ none ∧
      (∀ x, e.recorded.contains x → holds e.slots x) ∧
      ∀ o ∈ e.outcomes, Extended o := by
  have hs := run_invariant_throughout (step cfg) Orderly Sound
    (fun d event e hd ho he => step_sound event hd ho he) events d e (rest_sound hd) ho h
  exact ⟨(finite_of_contents _ hs.finite).1,hs.stored,hs.outcomes⟩

instance (d : Dimension) : ∀ event, Decidable (Orderly d event)
  | .save interval _ _ => inferInstanceAs
      (Decidable (interval.stop ≠ some maxUint64 ∧ (d.recorded.intersection interval).isEmpty))
  | .report part =>
    match h : d.phase with
    | .saving s => decidable_of_iff
        (s.old.isEmpty → s.taken++s.channel = [] → part.contains s.interval.start)
        (by simp [Orderly,h])
    | .idle | .deleting _ => isTrue (by simp [Orderly,h])
  | .clean _ | .cleaned | .receive _ | .store _ | .update _ | .finish _ | .delete _ _ | .drop _
  | .deleted => isTrue trivial

def linkedStore : Config := ⟨true,true⟩

def slotAt (n : UInt64) (hash parent : String) : Slot := ⟨n,hash,parent⟩

def afterFive : Dimension := ⟨⟨5,some 5⟩,[slotAt 5 "a" ""],.idle,[]⟩

theorem afterFive_rest : Rest afterFive := by
  refine ⟨rfl,rfl,by decide,by decide,fun x hx => ?_⟩
  rw [single_contains.mp hx]
  rfl

def outOfOrder : List Event :=
  [.save ⟨6,some 7⟩ true true,.clean 6,.cleaned,.receive (slotAt 6 "b" "a"),
    .receive (slotAt 7 "c" "b"),.store 7,.report ⟨7,some 7⟩,.update true,.store 6,
    .report ⟨6,some 6⟩,.update true,.finish true]

theorem recorded_range_out_of_order : ∃ e, run (step linkedStore) afterFive outOfOrder = some e ∧
      e.recorded = ⟨5,some 7⟩ ∧ e.outcomes = [⟨⟨5,some 5⟩,⟨6,some 7⟩,
        [⟨7,some 7⟩,⟨6,some 6⟩],⟨5,some 7⟩⟩] ∧
      (e.recorded.stop ≠ none ∧
        (∀ x, e.recorded.contains x → holds e.slots x) ∧
        ∀ o ∈ e.outcomes, Extended o) :=
  ⟨_,rfl,rfl,rfl,recorded_range_complete linkedStore afterFive _ outOfOrder afterFive_rest
    (by decide) rfl⟩

def emptyDimension : Dimension := ⟨Range.empty,[],.idle,[]⟩

def secondFirst : List Event :=
  [.save ⟨5,some 6⟩ true true,.cleaned,.receive (slotAt 5 "a" ""),.receive (slotAt 6 "b" "a"),
    .store 5,.store 6,.report ⟨6,some 6⟩,.update true,.report ⟨5,some 5⟩,.finish true]

/-- Without the check all blocks are recorded, with it none, and an overlapping save removes
recorded slots. -/
theorem recorded_range_incomplete :
    (∃ e, run (step ⟨true,false⟩) emptyDimension secondFirst = some e ∧
      e.recorded = ⟨0,none⟩) ∧
    (∃ e, run (step linkedStore) emptyDimension secondFirst = some e ∧
      e.outcomes = [⟨Range.empty,⟨5,some 6⟩,[⟨6,some 6⟩,⟨5,some 5⟩],Range.empty⟩]) ∧
    ∃ e, run (step linkedStore) afterFive
        [.save ⟨5,some 6⟩ true true,.clean 5] = some e ∧
      e.recorded.contains 5 ∧ holds e.slots 5 = false :=
  ⟨⟨_,rfl,rfl⟩,⟨_,rfl,rfl⟩,⟨_,rfl,rfl,rfl⟩⟩

end Sentio.DimensionSafety
