import SentioCore.RangeBlocks

/-!
# Range queries over the latest-slot cache and two stores

A query is served from the cache first; the first part of the interval that is
left goes to a loader, unless it starts above the cache head. The loader checks
the part against the recorded range of the primary store and may hand what lies
below that range to a fallback store. Callbacks may carry a state, which is
passed along in the order of the calls. The loop of a traversal counts in words,
so it takes fuel; a dereferenced missing end is a failure of its own.
-/

namespace Sentio.CacheQuery
open RangeModel RangeHoles RangeSetAlgebra RangeFind RangeBlocks WordArith List Except

inductive Failure (ε : Type) where
  | notReady
  | nilEnd
  | notInScope (queryRange store : Range)
  | exceeds (queryRange store : Range)
  | openEnded (queryRange : Range)
  | external (e : ε)
  deriving DecidableEq

/-- The cache as a traversal finds it under the lock; a number without a slot
has the zero value. -/
structure Window (σ : Type) where
  ready : Bool
  curRange : Range
  memCache : UInt64 → σ

section model
variable {σ α ε τ : Type}

/-- The loop of `Traverse` from slot `sn` on; no result when the fuel is used up. -/
def traverseFrom (memCache : UInt64 → σ) (fn : τ → σ → Except (Failure ε) (τ × List α))
    (stop : UInt64) : ℕ → UInt64 → τ → List α → Option (Except (Failure ε) (τ × List α))
  | 0, _, _, _ => none
  | fuel+1, sn, st, cached =>
    if sn ≤ stop then
      match fn st (memCache sn) with
      | .error e => some (.error e)
      | .ok (st,elems) => traverseFrom memCache fn stop fuel (sn+1) st (cached++elems)
    else some (.ok (st,cached))

def traverse (fuel : ℕ) (w : Window σ) (interval : Range)
    (fn : τ → σ → Except (Failure ε) (τ × List α)) (st : τ) :
    Option (Except (Failure ε) (τ × List α)) :=
  if !w.ready then some (.error .notReady)
  else
    match (interval.intersection w.curRange).stop with
    | none => some (.error .nilEnd)
    | some stop =>
      traverseFrom w.memCache fn stop fuel (interval.intersection w.curRange).start st []

def loadInFront (loader : τ → Range → Except (Failure ε) (τ × List α)) (st : τ)
    (queryRange : Range) (cached : List α) : Except (Failure ε) (τ × List α) :=
  match loader st queryRange with
  | .error e => .error e
  | .ok (st,queried) => .ok (st,queried++cached)

/-- What is done after the traversal: the part left first is loaded unless it is
empty or starts above the cache head. -/
def loadRest (interval cachedRange : Range) (loader : τ → Range → Except (Failure ε) (τ × List α))
    (st : τ) (cached : List α) : Except (Failure ε) (τ × List α) :=
  let queryRange := first (interval.remove cachedRange)
  if queryRange.isEmpty then .ok (st,cached)
  else if cachedRange.isEmpty then loadInFront loader st queryRange cached
  else
    match cachedRange.stop with
    | none => .error .nilEnd
    | some head =>
      if head < queryRange.start then .ok (st,cached)
      else loadInFront loader st queryRange cached

def queryRangeWithCache (fuel : ℕ) (interval : Range) (w : Window σ)
    (process : τ → σ → Except (Failure ε) (τ × List α))
    (loader : τ → Range → Except (Failure ε) (τ × List α)) (st : τ) :
    Option (Except (Failure ε) (τ × List α)) :=
  if interval.isEmpty then some (.ok (st,[]))
  else
    match traverse fuel w interval process st with
    | none => none
    | some (.error e) => some (.error e)
    | some (.ok (st,cached)) => some (loadRest interval w.curRange loader st cached)

def visit (memCache : UInt64 → σ) (fn : τ → σ → Except (Failure ε) (τ × List α)) :
    List UInt64 → τ → List α → Except (Failure ε) (τ × List α)
  | [], st, cached => .ok (st,cached)
  | n::rest, st, cached =>
    match fn st (memCache n) with
    | .error e => .error e
    | .ok (st,elems) => visit memCache fn rest st (cached++elems)

def outcome (interval : Range) (w : Window σ) (process : τ → σ → Except (Failure ε) (τ × List α))
    (loader : τ → Range → Except (Failure ε) (τ × List α)) (st : τ) :
    Except (Failure ε) (τ × List α) :=
  if interval.isEmpty then .ok (st,[])
  else if !w.ready then .error .notReady
  else if (interval.intersection w.curRange).stop.isNone then .error .nilEnd
  else
    match visit w.memCache process (blocks (interval.intersection w.curRange)) st [] with
    | .error e => .error e
    | .ok (st,cached) => loadRest interval w.curRange loader st cached

theorem traverseFrom_visit (memCache : UInt64 → σ) (fn : τ → σ → Except (Failure ε) (τ × List α))
    {stop : UInt64} (hstop : stop.toNat < (2^64-1)) (fuel : ℕ) (sn : UInt64) (st : τ)
    (cached : List α) (hf : stop.toNat+1-sn.toNat < fuel) :
    traverseFrom memCache fn stop fuel sn st cached =
      some (visit memCache fn (between sn.toNat stop.toNat) st cached) := by
  induction fuel generalizing sn st cached with
  | zero => omega
  | succ fuel ih =>
    rw [traverseFrom]
    by_cases hle : sn ≤ stop
    · have hn := UInt64.le_iff_toNat_le.mp hle
      have hi : (sn+1).toNat = sn.toNat+1 := toNat_inc _ (by omega)
      rw [if_pos hle,between_cons hn,visit,UInt64.ofNat_toNat]
      cases hfn : fn st (memCache sn) with
      | error e => rfl
      | ok pair => simpa only [hi] using ih (sn+1) pair.1 (cached++pair.2) (by omega)
    · have hn := mt UInt64.le_iff_toNat_le.mpr hle
      rw [if_neg hle,between_empty _ (by omega),visit]

variable {interval : Range}

theorem query_outcome {w : Window σ} (process : τ → σ → Except (Failure ε) (τ × List α))
    (loader : τ → Range → Except (Failure ε) (τ × List α)) (st : τ)
    (hb : (interval.intersection w.curRange).stop ≠ some maxUint64) {fuel : ℕ} (hf : 2^64 < fuel) :
    queryRangeWithCache fuel interval w process loader st =
      some (outcome interval w process loader st) := by
  rw [queryRangeWithCache,outcome]
  split
  · rfl
  rw [traverse]
  rcases hready : w.ready with _ | _
  · rfl
  rcases hs : (interval.intersection w.curRange).stop with _ | stop
  · rfl
  have hstop := bounded_top stop (hs ▸ hb)
  have hvisit := traverseFrom_visit w.memCache process hstop fuel
    (interval.intersection w.curRange).start st [] (by omega)
  simp only [hvisit,blocks,hs,top_some]
  cases visit w.memCache process _ st [] with
  | error e | ok pair => rfl

variable {cur : Range}
  (loader : τ → Range → Except (Failure ε) (τ × List α)) (st : τ) (cached : List α)

section
variable (hi : interval.isEmpty = false)
include hi

theorem loadRest_of_empty (hw : cur.isEmpty) :
    loadRest interval cur loader st cached = loadInFront loader st interval cached := by
  have hq : first (interval.remove cur) = interval := by
    rw [Range.remove,hi,hw]
    exact first_of_nonempty interval (start_le_top hi)
  simp only [loadRest,hq,hi,hw,Bool.false_eq_true,if_false,if_true]

variable {head : UInt64}

theorem loadRest_of_below (hw : cur.isEmpty = false) (hlt : interval.start.toNat < cur.start.toNat)
    (hstop : cur.stop = some head) :
    loadRest interval cur loader st cached =
      loadInFront loader st (first (interval.remove cur)) cached := by
  have hin := start_le_top hi
  have hwn := start_le_top hw
  obtain ⟨hs,ht⟩ := first_remove_below interval cur hwn hin hlt
  have hq : (first (interval.remove cur)).isEmpty = false :=
    not_isEmpty _ (by rw [hs]; omega)
  have hhead : ¬head < (first (interval.remove cur)).start := by
    rw [hstop,top_some] at hwn
    rw [UInt64.lt_iff_toNat_lt,hs]
    omega
  simp only [loadRest,hq,hw,hstop,hhead,Bool.false_eq_true,if_false]

theorem loadRest_of_above (hw : cur.isEmpty = false) (hge : cur.start.toNat ≤ interval.start.toNat)
    (hb : (interval.intersection cur).stop ≠ some maxUint64) (hstop : cur.stop = some head) :
    loadRest interval cur loader st cached = .ok (st,cached) := by
  have hin := start_le_top hi
  have hwn := start_le_top hw
  have hlast : cur.stop ≠ some maxUint64 ∨ interval.stop ≠ none := by
    by_contra hcon
    rw [not_or,not_not,not_not] at hcon
    simp [Range.intersection,hi,hw,hcon.1,hcon.2,minNilAsInf] at hb
  by_cases hempty : (first (interval.remove cur)).isEmpty
  · simp [loadRest,hempty]
  have habove := (first_remove_above hwn hin hge hlast).resolve_left hempty
  rw [hstop] at habove
  have hhead : head < (first (interval.remove cur)).start := UInt64.lt_iff_toNat_lt.mpr habove
  simp [loadRest,hw,hstop,hhead]

end

theorem loadRest_of_infinite {loader : τ → Range → Except (Failure ε) (τ × List α)} {st st' : τ}
    {cached result : List α} (hw : cur.isEmpty = false) (hstop : cur.stop = none)
    (h : loadRest interval cur loader st cached = .ok (st',result)) :
    (first (interval.remove cur)).isEmpty ∧ result = cached := by
  by_cases hempty : (first (interval.remove cur)).isEmpty
  · simp only [loadRest,hempty,if_true,ok.injEq,Prod.mk.injEq] at h
    exact ⟨hempty,h.2.symm⟩
  · simp [loadRest,hempty,hw,hstop] at h

def checkRange (rangeStore : Except ε Range) (run : Range → Except (Failure ε) (List α))
    (queryRange : Range) : Except (Failure ε) (List α) :=
  match rangeStore with
  | .error e => .error (.external e)
  | .ok r => if r.includes queryRange then run queryRange else .error (.notInScope queryRange r)

def fallbackPart (r queryRange : Range) : Except (Failure ε) Range :=
  if r.isEmpty then
    if queryRange.stop.isNone then .error (.openEnded queryRange) else .ok queryRange
  else if queryRange.start < r.start then
    .ok ⟨queryRange.start,some (min (r.start-1) (queryRange.stop.getD (r.start-1)))⟩
  else .ok Range.empty

def prepend (run : Range → Except (Failure ε) (List α)) (part : Range) (result : List α) :
    Except (Failure ε) (List α) :=
  if part.isEmpty then .ok result
  else
    match run part with
    | .error e => .error e
    | .ok elems => .ok (elems++result)

def splitRange (r : Range) (primary fallback : Range → Except (Failure ε) (List α))
    (queryRange : Range) : Except (Failure ε) (List α) :=
  match (if r.isEmpty then .ok [] else prepend primary (queryRange.intersection r) []) with
  | .error e => .error e
  | .ok result =>
    match fallbackPart r queryRange with
    | .error e => .error e
    | .ok part => prepend fallback part result

def checkRangeWithFallback (rangeStore : Except ε Range)
    (primary : Range → Except (Failure ε) (List α))
    (fallback : Option (Range → Except (Failure ε) (List α))) (queryRange : Range) :
    Except (Failure ε) (List α) :=
  match fallback with
  | none => checkRange rangeStore primary queryRange
  | some fallback =>
    match rangeStore with
    | .error e => .error (.external e)
    | .ok r =>
      if r.isEmpty then splitRange r primary fallback queryRange
      else
        match r.stop with
        | none => .error .nilEnd
        | some stop =>
          if stop < queryRange.stop.getD maxUint64 then .error (.exceeds queryRange r)
          else splitRange r primary fallback queryRange

end model

/-- A store answers a range with the elements of each of its blocks in ascending
order, or fails. -/
structure Store (ε α : Type) where
  elems : UInt64 → List α
  answer : Range → Except (Failure ε) (List α)
  faithful : ∀ r result, answer r = .ok result → result = (blocks r).flatMap elems

section coverage
variable {σ α ε : Type}

def stateless {β : Type} (f : β → Except (Failure ε) (List α)) (_ : Unit) (x : β) :
    Except (Failure ε) (Unit × List α) :=
  match f x with
  | .error e => .error e
  | .ok elems => .ok ((),elems)

/-- The blocks of the interval up to the cache head; an empty cache has no head. -/
def covered (w : Window σ) (interval : Range) : List UInt64 :=
  (blocks interval).filter
    (fun n => w.curRange.isEmpty || decide (n.toNat ≤ top w.curRange.stop))

/-- The elements of a block from the first source that has it: the cache, the
primary store, the fallback. -/
def served (w : Window σ) (process : σ → Except (Failure ε) (List α))
    (rangeStore : Except ε Range) (primary : Store ε α) (fallback : Option (Store ε α))
    (n : UInt64) : Option (List α) :=
  if w.curRange.contains n then (process (w.memCache n)).toOption
  else if rangeStore.toOption.any (fun r => r.contains n) then some (primary.elems n)
  else fallback.map (fun store => store.elems n)

def Lists (source : UInt64 → Option (List α)) (ns : List UInt64) (result : List α) : Prop :=
  (∀ n ∈ ns, (source n).isSome) ∧ result = ns.flatMap (fun n => (source n).getD [])

theorem lists_nil (source : UInt64 → Option (List α)) : Lists source [] [] := by
  simp [Lists]

variable {source : UInt64 → Option (List α)}

theorem lists_append (front back : List UInt64)
    (first last : List α) (hf : Lists source front first) (hb : Lists source back last) :
    Lists source (front++back) (first++last) := by
  constructor
  · intro n hn
    rcases mem_append.mp hn with hn | hn
    · exact hf.1 n hn
    · exact hb.1 n hn
  · rw [hf.2,hb.2,flatMap_append]

variable {ns : List UInt64} {result : List α}

theorem lists_congr {source' : UInt64 → Option (List α)} (hs : ∀ n ∈ ns, source n = source' n)
    (h : Lists source ns result) : Lists source' ns result := by
  constructor
  · intro n hn
    rw [← hs n hn]
    exact h.1 n hn
  · rw [h.2]
    exact flatMap_congr (fun n hn => by rw [hs n hn])

variable {r : Range} {store : Store ε α}

theorem lists_store (h : store.answer r = .ok result) :
    Lists (fun n => some (store.elems n)) (blocks r) result :=
  ⟨fun _ _ => rfl,store.faithful r result h⟩

theorem visit_lists {memCache : UInt64 → σ} {process : σ → Except (Failure ε) (List α)}
    (cached result : List α)
    (h : visit memCache (stateless process) ns () cached = .ok ((),result)) :
    ∃ elems, result = cached++elems ∧
      Lists (fun n => (process (memCache n)).toOption) ns elems := by
  induction ns generalizing cached with
  | nil =>
    rw [visit,Except.ok.injEq,Prod.mk.injEq] at h
    exact ⟨[],by simpa using h.2.symm,lists_nil _⟩
  | cons n rest ih =>
    rcases hp : process (memCache n) with e | elems
    · simp [visit,stateless,hp] at h
    simp only [visit,stateless,hp] at h
    obtain ⟨later,rfl,hlater⟩ := ih (cached++elems) h
    refine ⟨elems++later,by simp,?_⟩
    have hn : Lists (fun n => (process (memCache n)).toOption) [n] elems := by
      simp [Lists,hp,Except.toOption]
    exact lists_append [n] rest elems later hn hlater

variable {a : Range}

theorem includes_top (ha : a.isEmpty = false) (h : r.includes a) :
    r.start.toNat ≤ a.start.toNat ∧ top a.stop ≤ top r.stop := by
  simp only [Range.includes,ha] at h
  by_cases hr : r.isEmpty
  · simp [hr] at h
  simp only [hr,Bool.false_eq_true,if_false,Bool.and_eq_true,decide_eq_true_eq,
    UInt64.le_iff_toNat_le] at h
  refine ⟨h.1,?_⟩
  cases ha : a.stop with
  | none =>
    cases hs : r.stop with
    | none => exact le_rfl
    | some e => simp [ha,hs,lessEqualNilAsInf] at h
  | some e => exact (some_lessEqual_iff e r.stop).mp (ha ▸ h.2)

def stored (rangeStore : Except ε Range) (primary : Store ε α) (fallback : Option (Store ε α))
    (n : UInt64) : Option (List α) :=
  if rangeStore.toOption.any (fun r => r.contains n) then some (primary.elems n)
  else fallback.map (fun store => store.elems n)

variable {n : UInt64} {fallback : Option (Store ε α)} {primary : Store ε α}

theorem stored_inside
    (h : r.contains n) : stored (.ok r) primary fallback n = some (primary.elems n) := by
  simp [stored,Except.toOption,h]

theorem stored_outside (h : r.contains n = false) :
    stored (.ok r) primary (some store) n = some (store.elems n) := by
  simp [stored,Except.toOption,h]

variable {queryRange : Range} {rangeStore : Except ε Range}

theorem checkRange_lists (hq : queryRange.isEmpty = false)
    (h : checkRange rangeStore primary.answer queryRange = .ok result) :
    Lists (stored rangeStore primary none) (blocks queryRange) result := by
  rcases rangeStore with e | r
  · simp [checkRange] at h
  rw [checkRange] at h
  split at h
  case isFalse => simp at h
  rename_i hinc
  have hb := includes_top hq hinc
  apply lists_congr _ (lists_store h)
  intro n hn
  have hc := (inRange_iff queryRange n).mp ((mem_blocks queryRange n).mp hn)
  exact (stored_inside ((inRange_iff r n).mpr ⟨by omega,by omega⟩)).symm

theorem prepend_lists (source : UInt64 → Option (List α)) {part : Range}
    (ns : List UInt64) (later result : List α) (hl : Lists source ns later)
    (hs : ∀ n, part.contains n → source n = some (store.elems n))
    (h : prepend store.answer part later = .ok result) : Lists source (blocks part++ns) result := by
  rw [prepend] at h
  split at h
  case isTrue he =>
    simp only [ok.injEq] at h
    rw [blocks_empty part he,← h]
    exact hl
  rcases ha : store.answer part with e | elems
  · simp [ha] at h
  simp only [ha,ok.injEq] at h
  rw [← h]
  apply lists_append _ _ _ _ _ hl
  apply lists_congr _ (lists_store ha)
  intro n hn
  exact (hs n ((mem_blocks part n).mp hn)).symm

theorem intersection_of_nonempty (hr : r.isEmpty = false) (ha : a.isEmpty = false) :
    (r.intersection a).start.toNat = max r.start.toNat a.start.toNat ∧
      top (r.intersection a).stop = min (top r.stop) (top a.stop) := by
  simp only [Range.intersection,hr,ha]
  exact ⟨toNat_max _ _,top_min _ _⟩

variable {part : Range}

theorem fallbackPart_below (hr : r.isEmpty = false) (hlt : queryRange.start.toNat < r.start.toNat)
    (h : (fallbackPart r queryRange : Except (Failure ε) Range) = .ok part) :
    part.start = queryRange.start ∧
      top part.stop = min (r.start.toNat-1) (top queryRange.stop) := by
  have hd : (r.start-1).toNat = r.start.toNat-1 := toNat_dec _ (by omega)
  have hw := word_lt r.start
  simp only [fallbackPart,hr,Bool.false_eq_true,if_false,UInt64.lt_iff_toNat_lt,hlt,if_true,
    ok.injEq] at h
  rw [← h]
  refine ⟨rfl,?_⟩
  cases hs : queryRange.stop with
  | none => simp only [Option.getD_none,top_some,toNat_min,top_none]; omega
  | some e => simp only [Option.getD_some,top_some,toNat_min,hd]

theorem fallbackPart_blocks (hr : r.isEmpty = false)
    (hq : queryRange.isEmpty = false) (htop : top queryRange.stop ≤ top r.stop)
    (h : (fallbackPart r queryRange : Except (Failure ε) Range) = .ok part) :
    blocks part++blocks (queryRange.intersection r) = blocks queryRange ∧
      ∀ n, part.contains n → r.contains n = false := by
  have hinter := intersection_of_nonempty hq hr
  by_cases hlt : queryRange.start.toNat < r.start.toNat
  · obtain ⟨hs,ht⟩ := fallbackPart_below hr hlt h
    constructor
    · simp only [blocks,hs,ht,hinter.1,hinter.2]
      by_cases hin : top queryRange.stop < r.start.toNat
      · rw [between_empty (max _ _) (by omega),append_nil]
        congr 1
        omega
      rw [show min (r.start.toNat-1) (top queryRange.stop) = r.start.toNat-1 by omega,
        show max queryRange.start.toNat r.start.toNat = r.start.toNat-1+1 by omega,
        show min (top queryRange.stop) (top r.stop) = top queryRange.stop by omega]
      exact between_append _ (by omega) (by omega)
    · intro n hn
      rw [inRange_iff] at hn
      rw [Bool.eq_false_iff,ne_eq,inRange_iff]
      omega
  · simp only [fallbackPart,hr,Bool.false_eq_true,if_false,UInt64.lt_iff_toNat_lt,hlt,
      ok.injEq] at h
    rw [← h]
    constructor
    · rw [blocks_empty Range.empty rfl,nil_append,blocks]
      congr 1 <;> omega
    · intro n hn
      simp [Range.contains,show Range.isEmpty Range.empty from rfl] at hn

theorem split_lists (hq : queryRange.isEmpty = false)
    (htop : r.isEmpty = false → top queryRange.stop ≤ top r.stop)
    (h : splitRange r primary.answer store.answer queryRange = .ok result) :
    Lists (stored (.ok r) primary (some store)) (blocks queryRange) result := by
  by_cases hr : r.isEmpty
  · have hout : ∀ n, r.contains n = false := fun n => not_inRange r hr n
    rcases hs : queryRange.stop with _ | e
    · simp [splitRange,fallbackPart,hr,hs] at h
    simp only [splitRange,fallbackPart,hr,if_true,hs] at h
    have hl := prepend_lists (stored (.ok r) primary (some store)) [] []
      result (lists_nil _) (fun n _ => stored_outside (hout n)) h
    simpa using hl
  have hr : r.isEmpty = false := by simpa using hr
  simp only [splitRange,hr,Bool.false_eq_true,if_false] at h
  rcases hp : prepend primary.answer (queryRange.intersection r) [] with e | inner
  · simp [hp] at h
  rcases hf : (fallbackPart r queryRange : Except (Failure ε) Range) with e | part
  · simp [hp,hf] at h
  simp only [hp,hf] at h
  obtain ⟨hb,hout⟩ := fallbackPart_blocks hr hq (htop hr) hf
  have hinner := prepend_lists (stored (.ok r) primary (some store)) [] [] inner (lists_nil _)
    (fun n hn => stored_inside ((range_intersection_iff _ _ _).mp hn).2) hp
  rw [append_nil] at hinner
  have hall := prepend_lists _ _ inner result hinner (fun n hn => stored_outside (hout n hn)) h
  rwa [hb] at hall

theorem checkRangeWithFallback_lists (hq : queryRange.isEmpty = false)
    (h : checkRangeWithFallback rangeStore primary.answer (fallback.map Store.answer) queryRange =
      .ok result) : Lists (stored rangeStore primary fallback) (blocks queryRange) result := by
  rcases fallback with _ | store
  · exact checkRange_lists hq h
  rcases rangeStore with e | r
  · simp [checkRangeWithFallback] at h
  simp only [checkRangeWithFallback,Option.map_some] at h
  by_cases hr : r.isEmpty
  · rw [if_pos hr] at h
    exact split_lists hq (by simp [hr]) h
  rw [if_neg hr] at h
  rcases hs : r.stop with _ | stop
  · simp [hs] at h
  simp only [hs] at h
  split at h
  · simp at h
  rename_i hlt
  exact split_lists hq (fun _ => by rw [hs]; exact Nat.le_of_not_lt hlt) h

theorem between_filter {lo hi m : ℕ} (hw : hi < 2^64) :
    (between lo hi).filter (fun n => decide (n.toNat ≤ m)) = between lo (min hi m) := by
  have hall : ∀ n ∈ between lo (min hi m), decide (n.toNat ≤ m) := by
    intro n hn
    rw [mem_between _ (by omega)] at hn
    rw [decide_eq_true_eq]
    omega
  have hnone : ∀ n ∈ between (max lo (min hi m+1)) hi, ¬decide (n.toNat ≤ m) := by
    intro n hn
    rw [mem_between _ hw] at hn
    rw [decide_eq_true_eq]
    omega
  by_cases hlo : lo ≤ min hi m+1
  · rw [show max lo (min hi m+1) = min hi m+1 by omega] at hnone
    rw [← between_append hi hlo (by omega),filter_append,
      filter_eq_self.mpr hall,filter_eq_nil_iff.mpr hnone,append_nil]
  · rw [show max lo (min hi m+1) = lo by omega] at hnone
    rw [filter_eq_nil_iff.mpr hnone,between_empty _ (by omega)]

variable {w : Window σ}

theorem covered_of_empty (interval : Range) (h : w.curRange.isEmpty) :
    covered w interval = blocks interval := by
  simp [covered,h]

theorem covered_of_nonempty (interval : Range) (h : w.curRange.isEmpty = false) :
    covered w interval =
      between interval.start.toNat (min (top interval.stop) (top w.curRange.stop)) := by
  simp only [covered,h,Bool.false_or]
  exact between_filter (top_lt _)

variable {process : σ → Except (Failure ε) (List α)}

theorem served_cached (h : w.curRange.contains n) :
    served w process rangeStore primary fallback n = (process (w.memCache n)).toOption := by
  simp [served,h]

theorem served_stored (h : w.curRange.contains n = false) :
    served w process rangeStore primary fallback n = stored rangeStore primary fallback n := by
  simp [served,stored,h]

section query
variable (w : Window σ) (interval : Range) (process : σ → Except (Failure ε) (List α))
  (rangeStore : Except ε Range) (primary : Store ε α) (fallback : Option (Store ε α))

def storeLoader (queryRange : Range) : Except (Failure ε) (List α) :=
  checkRangeWithFallback rangeStore primary.answer (fallback.map Store.answer) queryRange

variable {cached : List α} {result : List α} {w interval process rangeStore primary fallback}

/-- What the loader adds in front of the cached elements. -/
theorem load_lists (hq : queryRange.isEmpty = false)
    (h : loadInFront (stateless (storeLoader rangeStore primary fallback)) () queryRange cached =
      .ok ((),result)) :
    ∃ queried, result = queried++cached ∧
      Lists (stored rangeStore primary fallback) (blocks queryRange) queried := by
  cases hl : storeLoader rangeStore primary fallback queryRange with
  | error e => simp [loadInFront,stateless,hl] at h
  | ok queried =>
    simp only [loadInFront,stateless,hl,ok.injEq,Prod.mk.injEq,true_and] at h
    exact ⟨queried,h.symm,checkRangeWithFallback_lists hq hl⟩

theorem lists_of_cached (hc : Lists (fun n => (process (w.memCache n)).toOption)
      (blocks (interval.intersection w.curRange)) cached) :
    Lists (served w process rangeStore primary fallback)
      (blocks (interval.intersection w.curRange)) cached := by
  apply lists_congr _ hc
  intro n hn
  have hin := (range_intersection_iff _ _ _).mp ((mem_blocks _ n).mp hn)
  exact (served_cached hin.2).symm

theorem lists_of_stored {queried : List α}
    (hout : ∀ n, queryRange.contains n → w.curRange.contains n = false)
    (hq : Lists (stored rangeStore primary fallback) (blocks queryRange) queried) :
    Lists (served w process rangeStore primary fallback) (blocks queryRange) queried := by
  apply lists_congr _ hq
  intro n hn
  exact (served_stored (hout n ((mem_blocks _ n).mp hn))).symm

variable (w interval process rangeStore primary fallback cached result) in
structure Completes : Prop where
  nonempty : interval.isEmpty = false
  listed : Lists (fun n => (process (w.memCache n)).toOption)
    (blocks (interval.intersection w.curRange)) cached
  loaded : loadRest interval w.curRange (stateless (storeLoader rangeStore primary fallback)) ()
    cached = .ok ((),result)

theorem covered_split (hi : interval.isEmpty = false) (hw : w.curRange.isEmpty = false)
    (hlt : interval.start.toNat < w.curRange.start.toNat) :
    covered w interval =
      blocks (first (interval.remove w.curRange))++blocks (interval.intersection w.curRange) := by
  have hin := start_le_top hi
  have hwn := start_le_top hw
  obtain ⟨hs,ht⟩ := first_remove_below interval w.curRange hwn hin hlt
  have hinter := intersection_of_nonempty hi hw
  rw [covered_of_nonempty interval hw,blocks,blocks,hs,ht,hinter.1,hinter.2]
  by_cases hbelow : top interval.stop < w.curRange.start.toNat
  · rw [between_empty (max _ _) (by omega),append_nil]
    congr 1
    omega
  rw [show min (top interval.stop) (w.curRange.start.toNat-1) = w.curRange.start.toNat-1 by omega,
    show max interval.start.toNat w.curRange.start.toNat = w.curRange.start.toNat-1+1 by omega]
  exact (between_append _ (by omega) (by omega)).symm

theorem covered_cached (hi : interval.isEmpty = false) (hw : w.curRange.isEmpty = false)
    (hge : w.curRange.start.toNat ≤ interval.start.toNat) :
    covered w interval = blocks (interval.intersection w.curRange) := by
  have hinter := intersection_of_nonempty hi hw
  rw [covered_of_nonempty interval hw,blocks,hinter.1,hinter.2]
  congr 1
  omega

section
variable (h : Completes w interval process rangeStore primary fallback cached result)
include h

theorem loadRest_empty_lists (hw : w.curRange.isEmpty) :
    Lists (served w process rangeStore primary fallback) (covered w interval) result := by
  obtain ⟨hi,hc,h⟩ := h
  have hinter : interval.intersection w.curRange = Range.empty := by
    simp [Range.intersection,hw]
  have hnil : cached = [] := by
    have := hc.2
    rwa [hinter,blocks_empty Range.empty rfl] at this
  rw [loadRest_of_empty _ _ _ hi hw] at h
  obtain ⟨queried,rfl,hl⟩ := load_lists hi h
  rw [hnil,append_nil,covered_of_empty interval hw]
  exact lists_of_stored (fun n _ => not_inRange w.curRange hw n) hl

theorem loadRest_below_lists (hw : w.curRange.isEmpty = false)
    (hlt : interval.start.toNat < w.curRange.start.toNat) :
    Lists (served w process rangeStore primary fallback) (covered w interval) result := by
  obtain ⟨hi,hc,h⟩ := h
  have hin := start_le_top hi
  have hwn := start_le_top hw
  obtain ⟨hs,ht⟩ := first_remove_below interval w.curRange hwn hin hlt
  have hq : (first (interval.remove w.curRange)).isEmpty = false :=
    not_isEmpty _ (by rw [hs]; omega)
  rcases hstop : w.curRange.stop with _ | head
  · simp [(loadRest_of_infinite hw hstop h).1] at hq
  rw [loadRest_of_below _ _ _ hi hw hlt hstop] at h
  obtain ⟨queried,rfl,hl⟩ := load_lists hq h
  rw [covered_split hi hw hlt]
  apply lists_append
  · apply lists_of_stored _ hl
    intro n hn
    rw [inRange_iff] at hn
    rw [Bool.eq_false_iff,ne_eq,inRange_iff]
    omega
  · exact lists_of_cached hc

theorem loadRest_above_lists (hw : w.curRange.isEmpty = false)
    (hge : w.curRange.start.toNat ≤ interval.start.toNat)
    (hb : (interval.intersection w.curRange).stop ≠ some maxUint64) :
    Lists (served w process rangeStore primary fallback) (covered w interval) result := by
  obtain ⟨hi,hc,h⟩ := h
  have hres : result = cached := by
    cases hstop : w.curRange.stop with
    | none => exact (loadRest_of_infinite hw hstop h).2
    | some head =>
      rw [loadRest_of_above _ _ _ hi hw hge hb hstop] at h
      simpa using h.symm
  rw [covered_cached hi hw hge,hres]
  exact lists_of_cached hc

theorem loadRest_lists (hb : (interval.intersection w.curRange).stop ≠ some maxUint64) :
    Lists (served w process rangeStore primary fallback) (covered w interval) result := by
  by_cases hw : w.curRange.isEmpty
  · exact loadRest_empty_lists h hw
  have hw : w.curRange.isEmpty = false := by simpa using hw
  by_cases hlt : interval.start.toNat < w.curRange.start.toNat
  · exact loadRest_below_lists h hw hlt
  · exact loadRest_above_lists h hw (Nat.le_of_not_lt hlt) hb

end

theorem outcome_lists (hb : (interval.intersection w.curRange).stop ≠ some maxUint64)
    (h : outcome interval w (stateless process)
      (stateless (storeLoader rangeStore primary fallback)) () = .ok ((),result)) :
    Lists (served w process rangeStore primary fallback) (covered w interval) result := by
  rw [outcome] at h
  split at h
  case isTrue hi =>
    have hnil : result = [] := by simpa using h.symm
    rw [covered,blocks_empty interval hi,hnil]
    exact lists_nil _
  rename_i hi
  split at h
  · simp at h
  split at h
  · simp at h
  split at h
  · simp at h
  rename_i cached hv
  obtain ⟨elems,he,hl⟩ := visit_lists [] cached hv
  exact loadRest_lists ⟨by simpa using hi,he ▸ hl,h⟩ hb

variable (w interval process rangeStore primary fallback)

/-- A query that does not fail lists the blocks up to the cache head in order, each from the
cache, else from the primary store, else from the fallback. -/
theorem query_lists_covered_blocks (hb : (interval.intersection w.curRange).stop ≠ some maxUint64) :
    ∃ answer, (∀ fuel, 18446744073709551616 < fuel →
        queryRangeWithCache fuel interval w (stateless process)
          (stateless (storeLoader rangeStore primary fallback)) () = some answer) ∧
      (∀ result, answer = .ok ((),result) →
        Lists (served w process rangeStore primary fallback) (covered w interval) result) ∧
      (covered w interval).Pairwise (fun a b => a.toNat < b.toNat) := by
  refine ⟨outcome interval w (stateless process)
    (stateless (storeLoader rangeStore primary fallback)) (),?_,?_,?_⟩
  · intro fuel hf
    exact query_outcome _ _ () hb hf
  · intro result h
    exact outcome_lists hb h
  · exact (blocks_pairwise interval).filter _

end query

/-- With the last word as its end the loop condition holds for every slot number. -/
theorem traverseFrom_endless {τ : Type} {memCache : UInt64 → σ}
    {fn : τ → σ → Except (Failure ε) (τ × List α)} (hfn : ∀ st s, (fn st s).isOk)
    {fuel : ℕ} (sn : UInt64) (st : τ) (cached : List α) :
    traverseFrom memCache fn maxUint64 fuel sn st cached = none := by
  induction fuel generalizing sn st cached with
  | zero => rfl
  | succ fuel ih =>
    have hw := word_lt sn
    have hm : maxUint64.toNat = (2^64-1) := rfl
    have hle : sn ≤ maxUint64 := UInt64.le_iff_toNat_le.mpr (by omega)
    rw [traverseFrom,if_pos hle]
    have hok := hfn st (memCache sn)
    cases hr : fn st (memCache sn) with
    | error e => simp [hr,Except.toBool] at hok
    | ok pair => exact ih (sn+1) pair.1 (cached++pair.2)

end coverage

section sample

def tagged (tag : ℕ) : Store Unit (ℕ × UInt64) where
  elems n := [(tag,n)]
  answer r := .ok ((blocks r).flatMap (fun n => [(tag,n)]))
  faithful r result h := by simpa using h.symm

def sampleWindow (r : Range) : Window UInt64 := ⟨true,r,id⟩

def sampleProcess (n : UInt64) : Except (Failure Unit) (List (ℕ × UInt64)) := .ok [(0,n)]

end sample

theorem query_lists_three_sources :
    queryRangeWithCache 9 ⟨2,some 12⟩ (sampleWindow ⟨7,some 9⟩) (stateless sampleProcess)
        (stateless (storeLoader (.ok ⟨4,some 8⟩) (tagged 1) (some (tagged 2)))) () =
      some (.ok ((),[(2,2),(2,3),(1,4),(1,5),(1,6),(0,7),(0,8),(0,9)])) ∧
    ∃ answer, (∀ fuel, 18446744073709551616 < fuel →
        queryRangeWithCache fuel ⟨2,some 12⟩ (sampleWindow ⟨7,some 9⟩) (stateless sampleProcess)
          (stateless (storeLoader (.ok ⟨4,some 8⟩) (tagged 1) (some (tagged 2)))) () =
            some answer) ∧
      (∀ result, answer = .ok ((),result) →
        Lists (served (sampleWindow ⟨7,some 9⟩) sampleProcess (.ok ⟨4,some 8⟩) (tagged 1)
          (some (tagged 2))) (covered (sampleWindow ⟨7,some 9⟩) ⟨2,some 12⟩) result) ∧
      (covered (sampleWindow ⟨7,some 9⟩) ⟨2,some 12⟩).Pairwise
        (fun a b => a.toNat < b.toNat) :=
  ⟨by decide,query_lists_covered_blocks (sampleWindow ⟨7,some 9⟩) ⟨2,some 12⟩ sampleProcess
    (.ok ⟨4,some 8⟩) (tagged 1) (some (tagged 2)) (by decide)⟩

/-- The slot number after the last word is zero again, so a query of the last
block never ends when it is cached. -/
theorem query_of_last_word_is_endless :
    ¬∃ fuel answer, queryRangeWithCache fuel ⟨maxUint64,some maxUint64⟩
      (sampleWindow ⟨maxUint64,some maxUint64⟩) (stateless sampleProcess)
      (stateless (storeLoader (.ok ⟨0,some maxUint64⟩) (tagged 1) none)) () = some answer := by
  rintro ⟨fuel,answer,h⟩
  have hnone : traverse fuel (sampleWindow ⟨maxUint64,some maxUint64⟩)
      ⟨maxUint64,some maxUint64⟩ (stateless sampleProcess) () = none :=
    traverseFrom_endless (fun _ _ => rfl) _ () []
  have hi : Range.isEmpty ⟨maxUint64,some maxUint64⟩ = false := by decide
  simp [queryRangeWithCache,hi,hnone] at h
end Sentio.CacheQuery
