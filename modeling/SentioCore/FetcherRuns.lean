import SentioCore.FetcherModel

/-!
# What a fetcher answers

The successful queries follow one another without a gap, the buffer holds their
results for the blocks that have not been dropped, and an answer for a block of
the full range is what the query of that block produced.
-/

namespace Sentio.FetcherRuns
open RangeModel RangeHoles FetcherModel WordArith Transition Prod
open UInt64 (le_iff_toNat_le lt_iff_toNat_lt toNat_add)
open Option (some.inj map_eq_some_iff)

section
variable {α : Type}

/-- The ranges of the queries from `first` on, up to the start of the next one. -/
def Consecutive : ℕ → List (Query α) → ℕ → Prop
  | first, [], next => first = next
  | first, q::rest, next => q.start.toNat = first ∧ first ≤ q.stop.toNat+1 ∧
      Consecutive (q.stop.toNat+1) rest next

def covers (n : UInt64) (q : Query α) : Bool := q.start ≤ n && n ≤ q.stop

def produced (queries : List (Query α)) (n : UInt64) : Option (Option α) :=
  (queries.find? (covers n)).map (fun q => lookup q.result n)

def Fits (cfg : Config α) (latest : UInt64) : Prop :=
  latest.toNat+max cfg.minQuerySize.toNat 1 < 18446744073709551616

/-- The query function returns blocks of the queried range only. -/
def Proper (cfg : Config α) (f : Fetcher α) : Event α → Prop
  | .succeed result _ => ∀ g ∈ f.growing, ∀ e ∈ result.rows, g.start ≤ e.1 ∧ e.1 ≤ g.stop
  | .updateLatest latest => Fits cfg latest
  | _ => True

instance (cfg : Config α) (latest : UInt64) : Decidable (Fits cfg latest) :=
  inferInstanceAs (Decidable (_ < _))

instance (cfg : Config α) (f : Fetcher α) : ∀ event, Decidable (Proper cfg f event)
  | .succeed result _ => inferInstanceAs
      (Decidable (∀ g ∈ f.growing, ∀ e ∈ result.rows, g.start ≤ e.1 ∧ e.1 ≤ g.stop))
  | .updateLatest latest => inferInstanceAs (Decidable (Fits cfg latest))
  | .growth | .fail _ | .cancel | .moveStart _ | .broken | .get _ | .wake _
  | .leave _ => isTrue trivial

structure GrowingInv (f : Fetcher α) (g : Growing) : Prop where
  start : g.start = f.fetchingStart
  span : g.start.toNat ≤ g.stop.toNat+1
  room : g.stop.toNat < 18446744073709551615

structure Inv (cfg : Config α) (first : UInt64) (f : Fetcher α) : Prop where
  chain : Consecutive first.toNat f.queries f.fetchingStart.toNat
  first_le : first.toNat ≤ f.full.start.toNat
  start_le : f.full.start.toNat ≤ f.fetchingStart.toNat
  distinct : (f.data.map fst).Nodup
  keys : ∀ e ∈ f.data, f.full.start.toNat ≤ e.1.toNat ∧ e.1.toNat < f.fetchingStart.toNat
  size : f.totalSize = sumSize cfg.size f.data
  entries : ∀ n : UInt64, f.full.start.toNat ≤ n.toNat → n.toNat < f.fetchingStart.toNat →
    produced f.queries n = some (lookup f.data n)
  latest : Fits cfg f.latest
  fetchingEnd : f.fetchingEnd.toNat < 18446744073709551615
  growing : ∀ g ∈ f.growing, GrowingInv f g
  answers : ∀ a ∈ f.answers, a.inFull → produced f.queries a.block = some a.entry

variable {queries : List (Query α)} {q : Query α} {next : ℕ}

theorem consecutive_concat (first : ℕ)
    (h : Consecutive first queries next) (hq : q.start.toNat = next)
    (hs : next ≤ q.stop.toNat+1) : Consecutive first (queries++[q]) (q.stop.toNat+1) := by
  induction queries generalizing first with
  | nil => exact ⟨hq.trans h.symm,(show first = next from h) ▸ hs,rfl⟩
  | cons p rest ih => exact ⟨h.1,h.2.1,ih _ h.2.2⟩

theorem consecutive_below (first : ℕ)
    (h : Consecutive first queries next) : first ≤ next ∧ ∀ q ∈ queries, q.stop.toNat < next := by
  induction queries generalizing first with
  | nil => exact ⟨le_of_eq h,by simp⟩
  | cons p rest ih =>
    obtain ⟨h1,h2⟩ := ih _ h.2.2
    refine ⟨by have := h.2.1; omega,fun q hq => ?_⟩
    rcases List.mem_cons.mp hq with rfl | hq
    · omega
    · exact h2 q hq

theorem covers_iff {n : UInt64} :
    covers n q ↔ q.start.toNat ≤ n.toNat ∧ n.toNat ≤ q.stop.toNat := by
  simp [covers,le_iff_toNat_le]

variable {n : UInt64}

theorem produced_concat {x : Option α}
    (h : produced queries n = some x) : produced (queries++[q]) n = some x := by
  obtain ⟨p,hp,rfl⟩ := map_eq_some_iff.mp h
  simp [produced,hp]

theorem produced_last {first : ℕ} (h : Consecutive first queries q.start.toNat)
    (hn : covers n q) : produced (queries++[q]) n = some (lookup q.result n) := by
  have hnone : queries.find? (covers n) = none := by
    rw [List.find?_eq_none]
    intro p hp hc
    have := (consecutive_below _ h).2 p hp
    rw [covers_iff] at hn hc
    omega
  simp [produced,hnone,hn]

theorem lookup_append (a b : List (UInt64 × α)) :
    lookup (a++b) n = (lookup a n).or (lookup b n) := by
  simp only [lookup,KeyedRows.lookup_append]
  cases KeyedRows.lookup fst a n <;> rfl

variable {rows : List (UInt64 × α)}

theorem lookup_absent (h : ∀ e ∈ rows, e.1 ≠ n) : lookup rows n = none := by
  have : KeyedRows.lookup fst rows n = none :=
    List.find?_eq_none.mpr (fun e he => by simpa using h e he)
  rw [lookup,this]
  rfl

theorem lookup_filter {p : UInt64 × α → Bool}
    (h : ∀ e ∈ rows, e.1 = n → p e) : lookup (rows.filter p) n = lookup rows n := by
  have : KeyedRows.lookup fst (rows.filter p) n = KeyedRows.lookup fst rows n := by
    rw [KeyedRows.lookup,List.find?_filter]
    apply List.find?_congr
    intro e he
    by_cases hn : e.1 = n
    · simp [h e he hn]
    · simp [hn]
  rw [lookup,this,lookup]

theorem sumSize_append (size : α → ℤ) (a b : List (UInt64 × α)) :
    sumSize size (a++b) = sumSize size a+sumSize size b := by
  simp [sumSize]

/-- What is left in the buffer when the blocks from `low` up to `start` are dropped. -/
theorem kept_from (rows : List (UInt64 × α)) (low start : UInt64)
    (h : ∀ e ∈ rows, low.toNat ≤ e.1.toNat) :
    ∀ e ∈ rows.filter (fun e => !(low ≤ e.1 && e.1 < start)),
      e ∈ rows ∧ start.toNat ≤ e.1.toNat := by
  intro e he
  obtain ⟨hm,hk⟩ := List.mem_filter.mp he
  refine ⟨hm,?_⟩
  have hlow := h e hm
  simp only [Bool.not_eq_true',Bool.and_eq_false_iff,decide_eq_false_iff_not,
    le_iff_toNat_le,lt_iff_toNat_lt] at hk
  omega

variable {start : UInt64}

/-- The new start, which does not pass what has been fetched. -/
theorem clamped {low high : UInt64} (hle : low.toNat ≤ high.toNat) (hlow : ¬start < low) :
    low.toNat ≤ (if high < start then high else start).toNat ∧
      (if high < start then high else start).toNat ≤ high.toNat := by
  rw [lt_iff_toNat_lt] at hlow
  split
  · omega
  · rename_i h
    rw [lt_iff_toNat_lt] at h
    omega

theorem lookup_kept (rows : List (UInt64 × α)) (low : UInt64) (hn : start.toNat ≤ n.toNat) :
    lookup (rows.filter (fun e => !(low ≤ e.1 && e.1 < start))) n = lookup rows n := by
  apply lookup_filter
  intro e _ hen
  have hlt : ¬e.1 < start := by
    rw [lt_iff_toNat_lt,hen]
    omega
  simp [hlt]

theorem windowEnd_le (full : Range) (latest start size : UInt64) :
    (windowEnd full latest start size).toNat ≤ latest.toNat := by
  unfold windowEnd atMost
  split
  · rw [toNat_min]
    omega
  · rw [toNat_min,toNat_min]
    omega

variable {latest : UInt64} {cfg : Config α} {full : Range}

theorem windowEnd_span (hf : Fits cfg latest) (hp : 0 < cfg.minQuerySize.toNat ∨ 0 < start.toNat)
    (hl : start.toNat ≤ latest.toNat) (hs : ∀ stop ∈ full.stop, start.toNat ≤ stop.toNat) :
    start.toNat ≤ (windowEnd full latest start cfg.minQuerySize).toNat+1 := by
  unfold Fits at hf
  have hadd : (start+cfg.minQuerySize).toNat = start.toNat+cfg.minQuerySize.toNat := by
    rw [toNat_add]
    omega
  have hsub := toNat_dec (start+cfg.minQuerySize) (by omega)
  unfold windowEnd atMost
  split
  · rw [toNat_min]
    omega
  rename_i stop hstop
  have := hs stop (by simp [hstop])
  rw [toNat_min,toNat_min]
  omega

theorem fetchSize_toNat {g : Growing} (hs : g.start.toNat ≤ g.stop.toNat+1)
    (hr : g.stop.toNat < (2^64-1)) : (fetchSize g).toNat = g.stop.toNat+1-g.start.toNat := by
  have := word_lt g.start
  rw [fetchSize,toNat_add,UInt64.toNat_sub,UInt64.toNat_one]
  omega

theorem newFetcher_inv (hf : Fits cfg latest) :
    Inv cfg full.start (newFetcher cfg full latest) where
  chain := rfl
  first_le := le_refl _
  start_le := le_refl _
  distinct := List.nodup_nil
  keys := by simp [newFetcher]
  size := rfl
  entries := by
    intro n h1 h2
    simp only [newFetcher] at h1 h2
    omega
  latest := hf
  fetchingEnd := by
    have := windowEnd_le full latest full.start cfg.minQuerySize
    unfold Fits at hf
    simp only [newFetcher]
    omega
  growing := by simp [newFetcher]
  answers := by simp [newFetcher]

variable {stop : UInt64} {f : Fetcher α} {first : UInt64}

/-- The steps that change nothing but the state of the growth. -/
theorem inv_growth (h : Inv cfg first f) {failed rejected : Bool} {growing : Option Growing}
    (hstop : stop.toNat < (2^64-1)) (hg : ∀ g ∈ growing, GrowingInv f g) :
    Inv cfg first {f with
      fetchingEnd := stop
      fetchingFailed := failed
      growing := growing
      rejected := rejected} :=
  {h with fetchingEnd := hstop, growing := fun g hm => {hg g hm with}}

theorem reject_inv (h : Inv cfg first f) : Inv cfg first (reject f) :=
  inv_growth h h.fetchingEnd (by simp)

theorem startGrowing_inv (h : Inv cfg first f) (hs : f.fetchingStart.toNat ≤ stop.toNat+1)
    (hr : stop.toNat < (2^64-1)) : Inv cfg first (startGrowing cfg f stop) := by
  unfold startGrowing
  split
  · exact inv_growth h hr (by simp)
  refine inv_growth h h.fetchingEnd ?_
  intro g hg
  cases hg
  exact ⟨rfl,hs,hr⟩

section
variable (cfg : Config α) (first : UInt64) (f : Fetcher α) (h : Inv cfg first f)
  (hp : 0 < cfg.minQuerySize.toNat ∨ 0 < first.toNat)
include h hp

theorem growth_inv : Inv cfg first (growth cfg f) := by
  have hfirst := h.first_le
  have hstart := h.start_le
  have hlatest := h.latest
  unfold growth
  split
  · exact reject_inv h
  split
  · exact reject_inv h
  rename_i hstop
  split
  · exact h
  split
  · rename_i hle
    rw [le_iff_toNat_le] at hle
    exact startGrowing_inv h (by omega) h.fetchingEnd
  split
  · rename_i hle
    have hspan := windowEnd_span h.latest (by omega)
      (le_iff_toNat_le.mp hle) (by
        intro stop hm
        by_contra hlt
        apply hstop
        rw [show f.full.stop = some stop from hm]
        simpa [lt_iff_toNat_lt] using hlt)
    have hle' := windowEnd_le f.full f.latest f.fetchingStart cfg.minQuerySize
    unfold Fits at hlatest
    exact startGrowing_inv h hspan (by omega)
  · exact h

theorem fail_inv (g : Growing) (hg : GrowingInv f g) (permanent : Bool) : Inv cfg first (fail cfg f g permanent) := by
  have hsize := fetchSize_toNat hg.span hg.room
  have hfirst := h.first_le
  have hstart := h.start_le
  have hnext : ∀ retry : ℤ, GrowingInv f (if cfg.minQuerySize < fetchSize g then
        {g with stop := g.start+max cfg.minQuerySize (fetchSize g/2)-1, retry := retry}
      else {g with retry := retry-1}) := by
    intro retry
    split
    · rename_i hlt
      rw [lt_iff_toNat_lt] at hlt
      have hr := hg.room
      have hm : (max cfg.minQuerySize (fetchSize g/2)).toNat =
          max cfg.minQuerySize.toNat ((fetchSize g).toNat/2) := by
        rw [toNat_max]
        rfl
      have hadd : (g.start+max cfg.minQuerySize (fetchSize g/2)).toNat =
          g.start.toNat+max cfg.minQuerySize.toNat ((fetchSize g).toNat/2) := by
        rw [toNat_add]
        omega
      have hpos : 0 < (g.start+max cfg.minQuerySize (fetchSize g/2)).toNat := by
        rw [hadd,hg.start]
        omega
      have hsub := toNat_dec _ hpos
      exact ⟨hg.start,by dsimp only; omega,by dsimp only; omega⟩
    · exact {hg with}
  unfold fail
  dsimp only
  generalize (if permanent then -1 else g.retry) = retry
  have hn := hnext retry
  generalize hG : (if cfg.minQuerySize < fetchSize g then
      ({g with stop := g.start+max cfg.minQuerySize (fetchSize g/2)-1, retry := retry} : Growing)
    else {g with retry := retry-1}) = next at *
  split
  · refine inv_growth h h.fetchingEnd ?_
    intro g' hg'
    cases hg'
    exact hn
  · exact inv_growth h hn.room (by simp)

end

section Above

variable (old new : List (UInt64 × α)) (bound : ℕ) (hold : ∀ e ∈ old, e.1.toNat < bound)
  (hnew : ∀ e ∈ new, bound ≤ e.1.toNat)

include hold hnew

theorem apart {a b : UInt64 × α} (ha : a ∈ old) (hb : b ∈ new) : a.1 ≠ b.1 := by
  intro he
  have h1 := hold a ha
  have h2 := hnew b hb
  rw [he] at h1
  omega

theorem upsert_above (hd : (new.map fst).Nodup) :
    new.foldl (KeyedRows.upsert fst) old = old++new := by
  apply KeyedRows.foldl_upsert_fresh fst _ _ hd
  intro a ha b hb he
  exact apart old new bound hold hnew hb ha he.symm

theorem nodup_above (ho : (old.map fst).Nodup) (hd : (new.map fst).Nodup) :
    ((old++new).map fst).Nodup := by
  rw [List.map_append]
  apply ho.append hd
  intro n hn hm
  obtain ⟨a,ha,rfl⟩ := List.mem_map.mp hn
  obtain ⟨b,hb,he⟩ := List.mem_map.mp hm
  exact apart old new bound hold hnew ha hb he.symm

theorem lookup_above :
    lookup (old++new) n = if n.toNat < bound then lookup old n else lookup new n := by
  rw [lookup_append]
  split
  · have hnone : lookup new n = none := by
      apply lookup_absent
      intro e he hen
      have := hnew e he
      rw [hen] at this
      omega
    rw [hnone,Option.or_none]
  have hnone : lookup old n = none := by
    apply lookup_absent
    intro e he hen
    have := hold e he
    rw [hen] at this
    omega
  rw [hnone,Option.none_or]

end Above

theorem succeed_inv (h : Inv cfg first f)
    (g : Growing) (hg : GrowingInv f g) (result : BlockMap α) (used : ℤ)
    (hr : ∀ e ∈ result.rows, g.start ≤ e.1 ∧ e.1 ≤ g.stop) :
    Inv cfg first (succeed cfg f g result used) := by
  have hstart := h.start_le
  have hspan := hg.span
  have hgs : g.start.toNat = f.fetchingStart.toNat := by rw [hg.start]
  have hinc := toNat_inc g.stop hg.room
  have hin : ∀ e ∈ result.rows, f.fetchingStart.toNat ≤ e.1.toNat ∧ e.1.toNat ≤ g.stop.toNat := by
    intro e he
    have := hr e he
    rw [le_iff_toNat_le,le_iff_toNat_le] at this
    omega
  have hold : ∀ e ∈ f.data, e.1.toNat < f.fetchingStart.toNat := fun e he => (h.keys e he).2
  have hnew : ∀ e ∈ result.rows, f.fetchingStart.toNat ≤ e.1.toNat := fun e he => (hin e he).1
  unfold succeed
  rw [upsert_above _ _ _ hold hnew result.distinct]
  constructor
  · rw [hinc]
    exact consecutive_concat _ h.chain hgs (by dsimp only; omega)
  · exact h.first_le
  · dsimp only
    omega
  · exact nodup_above _ _ _ hold hnew h.distinct result.distinct
  · intro e he
    dsimp only at he ⊢
    rcases List.mem_append.mp he with he | he
    · have := h.keys e he
      omega
    · have := hin e he
      omega
  · rw [h.size,sumSize_append]
  · intro n h1 h2
    dsimp only at h1 h2 ⊢
    rw [lookup_above _ _ _ hold hnew]
    split
    · rename_i hn
      exact produced_concat (h.entries n h1 hn)
    apply produced_last
    · rw [hgs]
      exact h.chain
    rw [covers_iff]
    dsimp only
    omega
  · exact h.latest
  · have := windowEnd_le f.full f.latest (g.stop+1)
      (cfg.nextFetchSize (fetchSize g) (sumSize cfg.size result.rows) used)
    have hl := h.latest
    unfold Fits at hl
    dsimp only
    omega
  · intro g' hg'
    cases hg'
  · intro a ha hf
    exact produced_concat (h.answers a ha hf)

theorem moveStart_inv (h : Inv cfg first f)
    : Inv cfg first (moveStart cfg f start) := by
  unfold moveStart
  split
  · exact h
  rename_i hlow
  have hs := clamped h.start_le hlow
  have hfirst := h.first_le
  generalize (if f.fetchingStart < start then f.fetchingStart else start) = s at hs
  have hkept := kept_from f.data f.full.start s (fun e he => (h.keys e he).1)
  exact {h with
    first_le := by dsimp only; omega
    start_le := hs.2
    distinct := h.distinct.sublist (List.filter_sublist.map _)
    keys := fun e he => ⟨(hkept e he).2,(h.keys e (hkept e he).1).2⟩
    size := by
      rw [h.size]
      exact (KeyedRows.sum_filter_split _ _ f.data).symm
    entries := by
      intro n h1 h2
      dsimp only at h1 h2 ⊢
      rw [lookup_kept _ _ h1,h.entries n (by omega) h2]
    growing := fun g hg => {h.growing g hg with}}

/-- The steps that change nothing but the readers. -/
theorem inv_readers (h : Inv cfg first f) {waiting : List UInt64} {answers : List (Answer α)}
    (ha : ∀ a ∈ answers, a.inFull → produced f.queries a.block = some a.entry) :
    Inv cfg first {f with waiting := waiting, answers := answers} :=
  {h with growing := fun g hg => {h.growing g hg with}, answers := ha}

theorem answer_inv (h : Inv cfg first f) {entry : Option α}
    (ha : f.full.contains n → produced f.queries n = some entry) :
    Inv cfg first (answer f n entry) := by
  apply inv_readers h
  intro a hm
  rcases List.mem_append.mp hm with hm | hm
  · exact h.answers a hm
  · rw [List.mem_singleton.mp hm]
    exact ha

theorem tryGet_inv (h : Inv cfg first f) : Inv cfg first (tryGet f n) := by
  unfold tryGet
  split
  · exact h
  split
  · split
    · exact h
    · exact inv_readers h h.answers
  rename_i hlt
  apply answer_inv h
  intro hc
  rw [inRange_iff] at hc
  rw [le_iff_toNat_le] at hlt
  exact h.entries n hc.1 (by omega)

theorem step_inv
    (hp : 0 < cfg.minQuerySize.toNat ∨ 0 < first.toNat) (f e : Fetcher α) (event : Event α)
    (h : Inv cfg first f) (ho : Proper cfg f event) (hs : step cfg f event = some e) :
    Inv cfg first e := by
  cases event with
  | growth =>
    simp only [step] at hs
    split_ifs at hs
    exact some.inj hs ▸ growth_inv cfg first f h hp
  | succeed result used =>
    obtain ⟨g,hg,rfl⟩ := map_eq_some_iff.mp hs
    exact succeed_inv h g (h.growing g hg) result used (ho g hg)
  | fail permanent =>
    obtain ⟨g,hg,rfl⟩ := map_eq_some_iff.mp hs
    exact fail_inv cfg first f h hp g (h.growing g hg) permanent
  | cancel =>
    obtain ⟨g,_,rfl⟩ := map_eq_some_iff.mp hs
    exact reject_inv h
  | moveStart start => exact some.inj hs ▸ moveStart_inv h
  | updateLatest latest =>
    simp only [step] at hs
    split_ifs at hs
    rw [← some.inj hs]
    exact {h with latest := ho, growing := fun g hg => {h.growing g hg with}}
  | broken =>
    rw [← some.inj hs]
    exact {h with growing := fun g hg => {h.growing g hg with}}
  | get n =>
    rw [← some.inj hs]
    split
    · exact tryGet_inv h
    · rename_i hc
      exact answer_inv h (fun hf => absurd hf hc)
  | wake n =>
    simp only [step] at hs
    split_ifs at hs
    rw [← some.inj hs]
    exact tryGet_inv (inv_readers h h.answers)
  | leave n =>
    simp only [step] at hs
    split_ifs at hs
    rw [← some.inj hs]
    exact inv_readers h h.answers

/-- In every run the successful queries are consecutive from the initial start, and an answer for
a block of the full range is what the query of the block produced. -/
theorem fetcher_answers_what_was_queried (cfg : Config α) (full : Range) (latest : UInt64)
    (events : List (Event α)) (e : Fetcher α) (hf : Fits cfg latest)
    (hp : 0 < cfg.minQuerySize.toNat ∨ 0 < full.start.toNat)
    (ho : Throughout (step cfg) (Proper cfg) (newFetcher cfg full latest) events)
    (h : run (step cfg) (newFetcher cfg full latest) events = some e) :
    Consecutive full.start.toNat e.queries e.fetchingStart.toNat ∧
      (∀ entry ∈ e.data, e.full.start ≤ entry.1 ∧ entry.1 < e.fetchingStart) ∧
      e.totalSize = sumSize cfg.size e.data ∧
      ∀ a ∈ e.answers, a.inFull → produced e.queries a.block = some a.entry := by
  have hinv := run_invariant_throughout (step cfg) (Proper cfg) (Inv cfg full.start)
    (fun f event e hf ho he => step_inv hp f e event hf ho he) events _ e
    (newFetcher_inv hf) ho h
  refine ⟨hinv.chain,fun entry he => ?_,hinv.size,hinv.answers⟩
  exact hinv.keys entry he

end

def numbers (minQuerySize : UInt64) : Config ℤ :=
  ⟨id,minQuerySize,100,0,2,fun current _ _ => current+current⟩

def blockRow (n : UInt64) (x : ℤ) : BlockMap ℤ := ⟨[(n,x)],by simp⟩

def noRow : BlockMap ℤ := ⟨[],by simp⟩

def halving : List (Event ℤ) :=
  [.get 7,.growth,.succeed (blockRow 5 3) 0,.updateLatest 20,.growth,.fail false,
    .succeed (blockRow 7 4) 0,.moveStart 6,.wake 7,.get 5]

theorem fetcher_answers_halving :
    ∃ e, run (step (numbers 2)) (newFetcher (numbers 2) ⟨5,none⟩ 9) halving = some e ∧
      e.answers = [⟨7,some 4,true⟩,⟨5,none,false⟩] ∧
      Consecutive 5 e.queries e.fetchingStart.toNat ∧
      (∀ entry ∈ e.data, e.full.start ≤ entry.1 ∧ entry.1 < e.fetchingStart) ∧
      e.totalSize = sumSize (numbers 2).size e.data ∧
      ∀ a ∈ e.answers, a.inFull → produced e.queries a.block = some a.entry :=
  ⟨_,rfl,rfl,fetcher_answers_what_was_queried (numbers 2) ⟨5,none⟩ 9 halving _ (by decide)
    (by decide) (by decide) rfl⟩

/-- Block 5 was queried with an entry, dropped, and then read as absent; a reader
that waits for block 5 finds it dropped; a query up to the last word starts the
next query at block zero again; and so does halving below one block at zero. -/
theorem fetcher_answers_dropped_block :
    (∃ e, run (step (numbers 2)) (newFetcher (numbers 2) ⟨5,none⟩ 9)
        [.growth,.succeed (blockRow 5 3) 0,.moveStart 6,.get 5] = some e ∧
      produced e.queries 5 = some (some 3) ∧ e.answers = [⟨5,none,false⟩]) ∧
    (∃ e, run (step (numbers 2)) (newFetcher (numbers 2) ⟨5,none⟩ 9)
        [.get 5,.growth,.succeed (blockRow 5 3) 0,.moveStart 6,.wake 5] = some e ∧
      produced e.queries 5 = some (some 3) ∧ e.answers = [⟨5,none,false⟩]) ∧
    (∃ e, run (step (numbers 1))
        (newFetcher (numbers 1) ⟨maxUint64,none⟩ maxUint64)
        [.growth,.succeed noRow 0,.growth,.succeed noRow 0] = some e ∧
      e.queries.map (fun q => (q.start,q.stop)) = [(maxUint64,maxUint64),(0,1)]) ∧
    ∃ e, run (step (numbers 0)) (newFetcher (numbers 0) ⟨0,none⟩ 0)
        [.growth,.fail false,.succeed noRow 0,.growth,.succeed noRow 0] = some e ∧
      e.queries.map (fun q => (q.start,q.stop)) = [(0,maxUint64),(0,0)] :=
  ⟨⟨_,rfl,rfl,rfl⟩,⟨_,rfl,rfl,rfl⟩,⟨_,rfl,rfl⟩,⟨_,rfl,rfl⟩⟩

end Sentio.FetcherRuns
