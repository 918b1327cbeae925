import SentioCore.WordArith

/-!
# Walking a range in adaptive pages

The size of the next page follows the density of the last one. A page that was
too big is tried again with half of its units. Words wrap around, so a page is a
part of the range only while its size is not zero and its end is a word.
-/

namespace Sentio.Pager
open WordArith List
open UInt64 (le_iff_toNat_le lt_iff_toNat_lt toNat_add toNat_sub toNat_one toNat_inj toNat_zero)

structure Config where
  target : UInt64
  min : UInt64
  max : UInt64
  step : UInt64
  initial : UInt64
deriving DecidableEq

variable (c : Config)

def snap (n : UInt64) : UInt64 := (n+c.step/2)/c.step*c.step

def clamp (n : UInt64) : UInt64 := min (max n c.min) c.max

def normalize : Config :=
  let c := if c.step = 0 then {c with step := 1} else c
  let c := if c.min = 0 then {c with min := c.step} else c
  let c := if c.max < c.min then {c with max := c.min} else c
  let c := if c.initial = 0 then {c with initial := c.min} else c
  let c := {c with min := snap c c.min}
  let c := {c with max := snap c c.max}
  {c with initial := clamp c (snap c c.initial)}

def nextSize (span records : UInt64) : UInt64 :=
  let c := normalize c
  let desired := if records = 0 ∨ c.target = 0 then c.max else span*c.target/records
  clamp c (snap c desired)

structure Returned (ε : Type) where
  records : UInt64
  tooBig : Bool
  err : Option ε

structure Call (ε : Type) where
  start : UInt64
  stop : UInt64
  returned : Returned ε

inductive Err (ε : Type)
  | process (err : ε)
  | unsplittable (cur : UInt64)

structure State (ε : Type) where
  cur : UInt64
  size : UInt64
  calls : List (Call ε)

/-- The arguments of a walk; `process` is also given the number of the call. -/
structure Walk (ε : Type) where
  first : UInt64
  last : UInt64
  cfg : Config
  process : ℕ → UInt64 → UInt64 → Returned ε

section
variable {ε : Type} (w : Walk ε) (s : State ε)

def Walk.page : Call ε :=
  let stop := min (s.cur+s.size-1) w.last
  ⟨s.cur,stop,w.process s.calls.length s.cur stop⟩

def Walk.span : UInt64 := (w.page s).stop-s.cur+1

/-- One round of the loop, or the calls and the error it ends with. -/
def Walk.round : Except (List (Call ε) × Option (Err ε)) (State ε) :=
  if s.cur ≤ w.last then
    let c := w.page s
    let calls := s.calls++[c]
    let span := w.span s
    match c.returned.err with
    | some err => .error (calls,some (.process err))
    | none =>
      if c.returned.tooBig then
        if span ≤ 1 then .error (calls,some (.unsplittable s.cur))
        else .ok ⟨s.cur,max 1 (span/2),calls⟩
      else .ok ⟨c.stop+1,nextSize (normalize w.cfg) span c.returned.records,calls⟩
  else .error (s.calls,none)

def Walk.begin : State ε := ⟨w.first,(normalize w.cfg).initial,[]⟩

def Call.accepted (c : Call ε) : Bool := c.returned.err.isNone && !c.returned.tooBig

/-- Every page is a part of the range that starts at the first unit not yet done:
the accepted ones follow one another from `n` up to `next`. -/
def Pages (last : UInt64) : ℕ → List (Call ε) → ℕ → Prop
  | n, [], next => n = next
  | n, c::rest, next => c.start.toNat = n ∧ c.start ≤ c.stop ∧ c.stop ≤ last ∧
      Pages last (if c.accepted then c.stop.toNat+1 else n) rest next

def Walk.Reaches : State ε → State ε → Prop := Relation.ReflTransGen (fun s t => w.round s = .ok t)

def Walk.Succeeds : Prop :=
  ∃ s calls err, w.Reaches w.begin s ∧ w.round s = .error (calls,err) ∧
    ∃ next, Pages w.last w.first.toNat calls next ∧
      ((∀ c ∈ calls, c.returned.err = none) → err = none ∧ w.last.toNat < next)

/-- The page has units and its end is a word, and the last of all words ends a page
only if the page fails or can be halved. -/
def Walk.Fits : Prop :=
  s.cur ≤ w.last → (s.cur.toNat+s.size.toNat ≤ 2^64 ∧ s.size ≠ 0 ∨ s.cur = 0 ∧ s.size = 0) ∧
    ((w.page s).stop.toNat = 2^64-1 →
      (w.page s).returned.err.isSome ∨ (w.page s).returned.tooBig ∧ s.cur ≠ 0)

instance (s : State ε) : Decidable (w.Fits s) := inferInstanceAs (Decidable (_ → _))

/-- With the sizes that `normalize` gives, the smallest one is not zero, no page from the
range has an end that is no word, and snapping them once more does not wrap. -/
def Walk.Bounded : Prop :=
  let c := normalize w.cfg
  c.min ≠ 0 ∧ c.min ≤ c.max ∧ w.last.toNat+c.max.toNat < 2^64 ∧
    c.max.toNat+c.step.toNat/2 < 2^64

instance : Decidable w.Bounded := inferInstanceAs (Decidable (_ ∧ _))

/-- The units that are left count more than the units of the page. -/
def Walk.remaining : ℕ :=
  (w.last.toNat+1-s.cur.toNat)*2^65+((w.page s).stop.toNat+1-s.cur.toNat)

variable {w} {s t : State ε} {calls : List (Call ε)} {n next : ℕ} {err : Option (Err ε)}

theorem page_le_stop (hs : s.cur ≤ w.last) : s.cur ≤ (w.page s).stop ↔
    s.cur.toNat+s.size.toNat ≤ 2^64 ∧ s.size ≠ 0 ∨ s.cur = 0 ∧ s.size = 0 := by
  have hz := word_lt s.size
  rw [le_iff_toNat_le] at hs
  simp only [Walk.page,le_iff_toNat_le,toNat_min,toNat_sub,toNat_add,toNat_one,ne_eq,
    ← toNat_inj,toNat_zero]
  omega

theorem page_stop_le (w : Walk ε) (s : State ε) : (w.page s).stop ≤ w.last := by
  rw [le_iff_toNat_le,Walk.page,toNat_min]
  omega

theorem span_toNat (h : s.cur ≤ (w.page s).stop) : (w.span s).toNat =
    ((w.page s).stop.toNat+1-s.cur.toNat)%2^64 := by
  have := word_lt (w.page s).stop
  rw [le_iff_toNat_le] at h
  rw [Walk.span,toNat_add,toNat_sub,toNat_one]
  omega

/-- What a round does that is not the last one. -/
theorem round_ok (h : w.round s = .ok t) : s.cur ≤ w.last ∧ (w.page s).returned.err = none ∧
    t.calls = s.calls++[w.page s] ∧
    (((w.page s).returned.tooBig ∧ 1 < w.span s ∧ t.cur = s.cur ∧
      t.size = max 1 (w.span s/2)) ∨
    ((w.page s).accepted ∧ t.cur = (w.page s).stop+1 ∧
      t.size = nextSize (normalize w.cfg) (w.span s) (w.page s).returned.records)) := by
  simp only [Walk.round] at h
  split at h
  case isFalse => cases h
  case isTrue hs =>
    split at h
    case h_1 => cases h
    case h_2 herr =>
      refine ⟨hs,herr,?_⟩
      split at h
      case isTrue hbig =>
        split at h
        case isTrue => cases h
        case isFalse hspan =>
          cases h
          exact ⟨rfl,.inl ⟨hbig,UInt64.not_le.mp hspan,rfl,rfl⟩⟩
      case isFalse hbig =>
        cases h
        exact ⟨rfl,.inr ⟨by simp [Call.accepted,herr,hbig],rfl,rfl⟩⟩

theorem round_error (h : w.round s = .error (calls,err)) :
    (w.last < s.cur ∧ calls = s.calls ∧ err = none) ∨
      s.cur ≤ w.last ∧ calls = s.calls++[w.page s] ∧ err ≠ none ∧
        ((w.page s).returned.err ≠ none ∨
          (w.page s).returned.tooBig ∧ w.span s ≤ 1) := by
  unfold Walk.round at h
  grind

theorem pages_append {last : UInt64} {later : List (Call ε)} : Pages last n (calls++later) next ↔
    ∃ m, Pages last n calls m ∧ Pages last m later next := by
  induction calls generalizing n with
  | nil => simp [Pages]
  | cons c rest ih => simp [Pages,ih,and_assoc]

section
variable (hp : Pages w.last n s.calls s.cur.toNat) (hf : w.Fits s)
include hp hf

theorem pages_concat (hs : s.cur ≤ w.last) : Pages w.last n (s.calls++[w.page s])
      (if (w.page s).accepted then (w.page s).stop.toNat+1 else s.cur.toNat) :=
  pages_append.mpr ⟨_,hp,rfl,(page_le_stop hs).mpr (hf hs).1,page_stop_le w s,rfl⟩

theorem round_next (h : w.round s = .ok t) :
    Pages w.last n t.calls t.cur.toNat ∧ w.remaining t < w.remaining s := by
  obtain ⟨hs,herr,hcalls,hnext⟩ := round_ok h
  have hpages := pages_concat hp hf hs
  have hle := (page_le_stop hs).mpr (hf hs).1
  have hlen := span_toNat hle
  have hstop := page_stop_le w s
  have hend := page_stop_le w t
  have hword := word_lt w.last
  rw [le_iff_toNat_le] at hle hstop hend
  rw [hcalls]
  rcases hnext with ⟨hbig,hspan,hcur,hsize⟩ | ⟨hacc,hcur,-⟩
  · have hno : (w.page s).accepted = false := by simp [Call.accepted,hbig]
    rw [hno] at hpages
    rw [lt_iff_toNat_lt,toNat_one] at hspan
    have hhalf : t.size.toNat = ((w.page s).stop.toNat+1-s.cur.toNat)/2 := by
      rw [hsize,toNat_max,UInt64.toNat_div]
      change max 1 (_/2) = _
      omega
    have hless : (w.page t).stop.toNat+1-s.cur.toNat < (w.page s).stop.toNat+1-s.cur.toNat := by
      rw [Walk.page,toNat_min,hcur,toNat_sub,toNat_add,toNat_one]
      omega
    refine ⟨hcur ▸ hpages,?_⟩
    rw [Walk.remaining,Walk.remaining,hcur]
    omega
  · have hinc : t.cur.toNat = (w.page s).stop.toNat+1 := by
      rw [hcur]
      apply toNat_inc
      by_contra hmax
      have := (hf hs).2 (by omega)
      simp_all [Call.accepted]
    rw [if_pos hacc,← hinc] at hpages
    refine ⟨hpages,?_⟩
    rw [Walk.remaining,Walk.remaining]
    omega

end

theorem succeeds_from (hone : ∀ i n, (w.process i n n).tooBig = false)
    (hp : Pages w.last n s.calls s.cur.toNat) (hf : ∀ t, w.Reaches s t → w.Fits t) :
    ∃ t calls err, w.Reaches s t ∧ w.round t = .error (calls,err) ∧
      ∃ next, Pages w.last n calls next ∧
        ((∀ c ∈ calls, c.returned.err = none) → err = none ∧ w.last.toNat < next) := by
  induction hm : w.remaining s using Nat.strong_induction_on generalizing s with
  | _ m ih =>
    have hfits := hf s .refl
    rcases hr : w.round s with ⟨calls,err⟩ | t
    · refine ⟨s,calls,err,.refl,hr,?_⟩
      rcases round_error hr with ⟨hlt,rfl,rfl⟩ | ⟨hs,rfl,-,hwhy⟩
      · exact ⟨_,hp,fun _ => ⟨rfl,lt_iff_toNat_lt.mp hlt⟩⟩
      refine ⟨_,pages_concat hp hfits hs,fun hall => absurd hwhy ?_⟩
      have herr := hall (w.page s) (by simp)
      rintro (hfail | ⟨hbig,hspan⟩)
      · exact hfail herr
      have hle := (page_le_stop hs).mpr (hfits hs).1
      rw [le_iff_toNat_le,span_toNat hle,toNat_one] at hspan
      rw [le_iff_toNat_le] at hle
      have hword := word_lt (w.page s).stop
      by_cases hsame : s.cur = (w.page s).stop
      · have := hone s.calls.length s.cur
        nth_rewrite 2 [hsame] at this
        exact absurd hbig (by simpa [Walk.page] using this)
      rw [← toNat_inj] at hsame
      have := (hfits hs).2 (by omega)
      rw [herr,ne_eq,← toNat_inj,toNat_zero] at this
      simp only [Option.isSome_none,Bool.false_eq_true,false_or] at this
      omega
    · obtain ⟨hpt,hlt⟩ := round_next hp hfits hr
      obtain ⟨u,calls,err,hu,hrest⟩ := ih _ (hm ▸ hlt) hpt (fun v hv => hf v (.head hr hv)) rfl
      exact ⟨u,calls,err,.head hr hu,hrest⟩

theorem reaches_calls (hr : w.Reaches s t) : s.calls <+: t.calls ∧
    ((∀ c ∈ s.calls, c.returned.err = none) → ∀ c ∈ t.calls, c.returned.err = none) := by
  induction hr with
  | refl => exact ⟨prefix_rfl,id⟩
  | tail _ hstep ih =>
    obtain ⟨-,herr,hcalls,-⟩ := round_ok hstep
    rw [hcalls]
    exact ⟨ih.1.trans (prefix_append _ _),
      fun h => forall_mem_append.mpr ⟨ih.2 h,by simpa using herr⟩⟩

/-- In a run all of whose pages are proper, so is the page of every state. -/
theorem pages_reached (hr : w.Reaches s t) (ht : w.round t = .error (calls,err))
    (hp : Pages w.last n calls next) (hs : s.cur ≤ w.last) :
    Pages w.last n s.calls s.cur.toNat ∧ s.cur ≤ (w.page s).stop := by
  have hcalls : s.calls++[w.page s] <+: calls := by
    rcases hr.cases_head with rfl | ⟨u,hu,hr⟩
    · rcases round_error ht with ⟨hlt,-⟩ | ⟨-,rfl,-⟩
      · exact absurd hs (UInt64.not_le.mpr hlt)
      · exact prefix_rfl
    rw [← (round_ok hu).2.2.1]
    refine (reaches_calls hr).1.trans ?_
    rcases round_error ht with ⟨-,rfl,-⟩ | ⟨-,rfl,-⟩
    · exact prefix_rfl
    · exact prefix_append _ _
  obtain ⟨later,rfl⟩ := hcalls
  rw [append_assoc] at hp
  obtain ⟨m,hm,hstart,hle,-⟩ := pages_append.mp hp
  exact ⟨(show s.cur.toNat = m from hstart) ▸ hm,hle⟩

theorem reaches_end (hs : w.Reaches w.begin s) (ht : w.Reaches w.begin t)
    (he : w.round t = .error (calls,err)) : w.Reaches s t := by
  rcases Relation.ReflTransGen.total_of_right_unique
    (fun a b c hb hc => Except.ok.inj (hb.symm.trans hc)) hs ht with h | h
  · exact h
  rcases h.cases_head with rfl | ⟨u,hu,-⟩
  · exact .refl
  · rw [he] at hu
    cases hu

theorem fits_of_succeeds (h : w.Succeeds) (hr : w.Reaches w.begin s) : w.Fits s := by
  obtain ⟨t,calls,err,hreach,ht,next,hp,hend⟩ := h
  have hst := reaches_end hr hreach ht
  intro hs
  obtain ⟨hpages,hle⟩ := pages_reached hst ht hp hs
  refine ⟨(page_le_stop hs).mp hle,fun hstop => ?_⟩
  by_contra hbad
  rw [not_or,not_and,not_not] at hbad
  rcases hst.cases_head with rfl | ⟨u,hu,hut⟩
  · rcases round_error ht with ⟨hlt,-⟩ | ⟨-,rfl,herr,-⟩
    · exact UInt64.not_le.mpr hlt hs
    · exact herr (hend (forall_mem_append.mpr
        ⟨(reaches_calls hr).2 (by simp [Walk.begin]),by simpa using hbad.1⟩)).1
  obtain ⟨-,-,hcalls,⟨hbig,hspan,-⟩ | ⟨hacc,hcur,-⟩⟩ := round_ok hu
  · rw [lt_iff_toNat_lt,span_toNat hle,hbad.2 hbig,hstop] at hspan
    cases hspan
  have hzero : u.cur = 0 := by
    rw [hcur,← toNat_inj,toNat_add,hstop]
    rfl
  have := (pages_reached hut ht hp (by simp [hzero])).1
  rw [hcalls,hzero] at this
  obtain ⟨m,-,-,-,-,hnext⟩ := pages_append.mp this
  rw [if_pos hacc] at hnext
  cases hnext

/-- The fields of a normalized configuration: its sizes are snapped to its own grid. -/
theorem normalize_fields (c : Config) : ∃ a b d, (normalize c).step ≠ 0 ∧
    (normalize c).min = snap (normalize c) a ∧ (normalize c).max = snap (normalize c) b ∧
    (normalize c).initial = clamp (normalize c) d := by
  unfold normalize
  extract_lets c1 c2 c3 c4 c5 c6
  refine ⟨c4.min,c5.max,snap c6 c6.initial,?_,rfl,rfl,rfl⟩
  simp only [c6,c5,c4,c3,c2,c1,apply_ite Config.step,ite_self]
  split_ifs with h
  · decide
  · exact h

theorem snap_toNat (c : Config) (n : UInt64) : (snap c n).toNat =
    (n+c.step/2).toNat/c.step.toNat*c.step.toNat := by
  have := Nat.div_mul_le_self (n+c.step/2).toNat c.step.toNat
  rw [snap,UInt64.toNat_mul,UInt64.toNat_div,Nat.mod_eq_of_lt]
  exact this.trans_lt (word_lt _)

/-- A size on the grid stays where it is if half a step above it is a word. -/
theorem snap_snap {c : Config} {n : UInt64} (hc : c.step ≠ 0)
    (hn : (snap c n).toNat+c.step.toNat/2 < 2^64) : snap c (snap c n) = snap c n := by
  have hpos : 0 < c.step.toNat := by
    rw [Nat.pos_iff_ne_zero,ne_eq,← toNat_zero,toNat_inj]
    exact hc
  have hhalf : c.step.toNat/2 < c.step.toNat := Nat.div_lt_self hpos one_lt_two
  have hword : (snap c n+c.step/2).toNat = (snap c n).toNat+c.step.toNat/2 := by
    rw [toNat_add,UInt64.toNat_div]
    exact Nat.mod_eq_of_lt hn
  have hgrid : (snap c n).toNat/c.step.toNat*c.step.toNat = (snap c n).toNat := by
    rw [snap_toNat,Nat.mul_div_cancel _ hpos]
  have hdiv : ((snap c n).toNat+c.step.toNat/2)/c.step.toNat = (snap c n).toNat/c.step.toNat := by
    nth_rewrite 1 [← hgrid]
    rw [Nat.add_comm,Nat.add_mul_div_right _ _ hpos,Nat.div_eq_of_lt hhalf,Nat.zero_add]
  rw [← toNat_inj,snap_toNat,hword,hdiv,hgrid]

theorem clamp_between {c : Config} (h : c.min ≤ c.max) (n : UInt64) :
    c.min ≤ clamp c n ∧ clamp c n ≤ c.max := by
  simp only [clamp,le_iff_toNat_le,toNat_min,toNat_max] at h ⊢
  omega

/-- Normalizing a second time changes neither bound of the sizes. -/
theorem Walk.Bounded.normalize_twice (h : w.Bounded) :
    (normalize (normalize w.cfg)).min = (normalize w.cfg).min ∧
      (normalize (normalize w.cfg)).max = (normalize w.cfg).max := by
  obtain ⟨hmin,hle,-,hword⟩ := h
  obtain ⟨a,b,-,hstep,ha,hb,-⟩ := normalize_fields w.cfg
  generalize normalize w.cfg = c at *
  have hle' := le_iff_toNat_le.mp hle
  have htwice : (normalize c).min = snap c c.min ∧ (normalize c).max = snap c c.max := by
    simp only [normalize,if_neg hstep,if_neg hmin,if_neg (UInt64.not_lt.mpr hle)]
    split_ifs <;> exact ⟨rfl,rfl⟩
  rw [htwice.1,htwice.2]
  constructor
  · rw [ha] at hle' ⊢
    exact snap_snap hstep (by omega)
  · rw [hb] at hword ⊢
    exact snap_snap hstep hword

/-- In a bounded walk every size is at least one and at most the greatest size. -/
theorem Walk.Bounded.size (h : w.Bounded) (hr : w.Reaches w.begin s) :
    s.size ≠ 0 ∧ s.size ≤ (normalize w.cfg).max := by
  obtain ⟨hmin,hle,hlast,-⟩ := id h
  have hpos : 1 ≤ (normalize w.cfg).min.toNat := by
    rw [ne_eq,← toNat_inj] at hmin
    exact Nat.one_le_iff_ne_zero.mpr hmin
  have hclamp : ∀ c n, c.min = (normalize w.cfg).min → c.max = (normalize w.cfg).max →
      clamp c n ≠ 0 ∧ clamp c n ≤ (normalize w.cfg).max := by
    intro c n hcmin hcmax
    have := clamp_between (c := c) (hcmin ▸ hcmax ▸ hle) n
    rw [hcmin,hcmax,le_iff_toNat_le] at this
    refine ⟨fun hzero => ?_,this.2⟩
    rw [hzero,toNat_zero] at this
    omega
  induction hr with
  | refl =>
    obtain ⟨-,-,d,-,-,-,hd⟩ := normalize_fields w.cfg
    rw [Walk.begin,hd]
    exact hclamp _ d rfl rfl
  | tail _ hround ih =>
    obtain ⟨hs,-,-,⟨-,-,-,hhalf⟩ | ⟨-,-,hnext⟩⟩ := round_ok hround
    · rw [ne_eq,← toNat_inj,toNat_zero] at ih
      rw [le_iff_toNat_le] at hs ih
      rw [hhalf,ne_eq,← toNat_inj,le_iff_toNat_le,toNat_max,UInt64.toNat_div,span_toNat
        ((page_le_stop hs).mpr (.inl ⟨by omega,fun h => ih.1 (by simp [h])⟩)),Walk.page,toNat_min,
        toNat_sub,toNat_add,toNat_one]
      change ¬max 1 (_/2) = 0 ∧ max 1 (_/2) ≤ _
      omega
    · rw [hnext]
      exact hclamp _ _ h.normalize_twice.1 h.normalize_twice.2

/-- A walk ends, with proper pages that cover the range unless `process` fails, exactly
when every state it reaches fits; and so it does if its configuration is bounded. -/
theorem succeeds_iff (w : Walk ε) (hone : ∀ i n, (w.process i n n).tooBig = false) :
    (w.Succeeds ↔ ∀ s, w.Reaches w.begin s → w.Fits s) ∧ (w.Bounded → w.Succeeds) := by
  have hfits : (∀ s, w.Reaches w.begin s → w.Fits s) → w.Succeeds := succeeds_from hone rfl
  refine ⟨⟨fun h _ hr => fits_of_succeeds h hr,hfits⟩,fun h => hfits fun s hr hs => ?_⟩
  obtain ⟨hzero,hsize⟩ := h.size hr
  have hlast := h.2.2.1
  have hstop := page_stop_le w s
  rw [ne_eq,← toNat_inj,toNat_zero] at hzero
  rw [le_iff_toNat_le] at hs hsize hstop
  exact ⟨.inl ⟨by omega,fun h => hzero (by simp [h])⟩,fun _ => by omega⟩

end

/-- Pages of more than four units are too big, the others have one record. -/
def sparse : Walk Unit :=
  ⟨3,20,⟨4,2,8,2,6⟩,fun _ start stop => ⟨1,4 < stop-start+1,none⟩⟩

/-- The first page is halved, the next one has the greatest size and is halved to a size on the
grid. -/
theorem succeeds_halved : sparse.Succeeds ∧ (∀ s, sparse.Reaches sparse.begin s → sparse.Fits s) ∧
    ∃ s, sparse.Reaches sparse.begin s ∧ s.size = 8 ∧
      s.calls.map (fun c => (c.start,c.stop,c.accepted)) =
        [(3,8,false),(3,5,true),(6,13,false),(6,9,true)] := by
  have hone : ∀ i n, (sparse.process i n n).tooBig = false := by simp [sparse]
  have h := (succeeds_iff sparse hone).2 (by decide)
  refine ⟨h,(succeeds_iff sparse hone).1.mp h,_,.head rfl (.head rfl (.head rfl (.single rfl))),?_⟩
  decide

def dense (first last : UInt64) (cfg : Config) : Walk Unit :=
  ⟨first,last,cfg,fun _ _ _ => ⟨1,false,none⟩⟩

/-- A size below half a step is rounded to zero, and no word follows the last one. -/
theorem succeeds_not : ¬(dense 5 20 ⟨1,1,1,10,0⟩).Succeeds ∧
    ¬(dense 18446744073709551615 18446744073709551615 ⟨1,0,0,0,0⟩).Succeeds :=
  ⟨fun h => absurd (fits_of_succeeds h .refl) (by decide),
    fun h => absurd (fits_of_succeeds h .refl) (by decide)⟩

end Sentio.Pager
