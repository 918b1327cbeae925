import SentioCore.EstimateModel

/-!
# Which block a date estimate finds

Block times do not decrease, so the blocks that qualify are a part at one end of
every interval.
-/

namespace Sentio.EstimateSearch
open RangeModel RangeHoles RangeSetAlgebra RangeFind List
open RangeBlocks CacheQuery EstimateModel BitSearch WordArith
open UInt64 (ofNat toNat_inj le_iff_toNat_le)

/-- A chain up to its head. A time in milliseconds is a signed word that is not
negative. -/
structure Chain where
  head : UInt64
  time : UInt64 → UInt64
  ordered : ∀ a b : UInt64, a.toNat ≤ b.toNat → b.toNat ≤ head.toNat →
    (time a).toNat ≤ (time b).toNat
  signed : ∀ n, (time n).toNat < 9223372036854775808

/-- The cache ends at the head, and the store holds what is below it. -/
structure Split (c : Chain) where
  cached : Range
  stored : Range
  toHead : cached.isEmpty = false → cached.stop = some c.head
  below : ∀ n : UInt64, n.toNat ≤ c.head.toNat → cached.contains n = false →
    stored.contains n

def pick (mode : Mode) (p : UInt64 → Bool) (ns : List UInt64) : Option UInt64 :=
  match mode with
  | .le => ns.reverse.find? p
  | .ge => ns.find? p

def Chain.qualifies (c : Chain) (mode : Mode) (target n : UInt64) : Bool :=
  EstimateModel.qualifies mode target (c.time n)

def expected (c : Chain) (mode : Mode) (target : UInt64) (interval : Range) : Option UInt64 :=
  pick mode (c.qualifies mode target) (blocks interval)

def storeQualifies (c : Chain) (mode : Mode) (target : ℤ) (n : UInt64) : Bool :=
  match mode with
  | .le => ((c.time n).toNat : ℤ) ≤ target
  | .ge => target ≤ ((c.time n).toNat : ℤ)

/-- The query of the store over the blocks it holds; the last word stands for no row. -/
def queryDate (c : Chain) (target : ℤ) (start stop : UInt64) (lessEqual : Bool) : Option UInt64 :=
  let mode : Mode := if lessEqual then .le else .ge
  (pick mode (storeQualifies c mode target) (blocks ⟨start,some stop⟩)).filter
    (fun n => n ≠ maxUint64)

variable {c : Chain}

def Split.window (sp : Split c) : Window Slot := ⟨true,sp.cached,fun n => ⟨n,c.time n⟩⟩

def Split.backend (sp : Split c) : Backend where
  rangeStore := .ok sp.stored
  queryDate target start stop lessEqual := .ok (queryDate c target start stop lessEqual)

theorem pick_append (mode : Mode) (p : UInt64 → Bool) (front back : List UInt64) :
    pick mode p (front++back) =
      match mode with
      | .le => (pick mode p back).or (pick mode p front)
      | .ge => (pick mode p front).or (pick mode p back) := by
  cases mode with
  | le | ge => simp [pick]

variable {mode : Mode}

theorem pick_singleton {p : UInt64 → Bool} {x : UInt64} :
    pick mode p [x] = if p x then some x else none := by
  cases mode <;> simp [pick]

variable {ns : List UInt64} {x : UInt64} {p : UInt64 → Bool}

theorem pick_mem (h : pick mode p ns = some x) : x ∈ ns ∧ p x := by
  cases mode with
  | le => exact ⟨by simpa using mem_of_find?_eq_some h,List.find?_some h⟩
  | ge => exact ⟨mem_of_find?_eq_some h,List.find?_some h⟩

theorem pick_eq_none : pick mode p ns = none ↔ ∀ n ∈ ns, p n = false := by
  cases mode with
  | le | ge => simp [pick]

theorem pick_congr (mode : Mode) {q : UInt64 → Bool} (ns : List UInt64)
    (h : ∀ n ∈ ns, p n = q n) : pick mode p ns = pick mode q ns := by
  cases mode with
  | le => exact List.find?_congr (fun n hn => h n (by simpa using hn))
  | ge => exact List.find?_congr h

variable {target : UInt64}

/-- Going through ascending slots, the running result is the one picked at the end. -/
theorem foldl_updateResult (h : ns.Pairwise (fun a b => a.toNat < b.toNat)) :
    ns.foldl (fun result n => updateResult mode target result n (c.time n)) none =
      pick mode (c.qualifies mode target) ns := by
  induction ns using reverseRecOn with
  | nil => cases mode <;> rfl
  | append_singleton ns x ih =>
    obtain ⟨hns,-,hlt⟩ := pairwise_append.mp h
    rw [foldl_append,ih hns,foldl_cons,updateResult,pick_append,
      pick_singleton,Chain.qualifies]
    by_cases hq : qualifies mode target (c.time x)
    · rw [if_pos hq,if_pos hq]
      rcases hp : pick mode (c.qualifies mode target) ns with _ | r
      · cases mode <;> rfl
      have hrx := hlt r (pick_mem hp).1 x (by simp)
      cases mode with
      | le =>
        have hmax : max r x = x := by
          apply toNat_inj.mp
          rw [toNat_max]
          omega
        simp [Mode.better,hmax]
      | ge =>
        have hmin : min r x = r := by
          apply toNat_inj.mp
          rw [toNat_min]
          omega
        simp [Mode.better,hmin]
    · rw [if_neg hq,if_neg hq]
      cases mode <;> simp

variable {sp : Split c}

theorem visit_slots (result : Option UInt64) :
    visit sp.window.memCache (visitSlot mode target) ns result [] =
      .ok (ns.foldl (fun result n => updateResult mode target result n (c.time n)) result,[]) := by
  induction ns generalizing result with
  | nil => rfl
  | cons n rest ih => exact ih _

variable {sn en : UInt64} {fuel : ℕ}

/-- The cached part decides the result that the store is asked with. -/
theorem estimate_outcome (hse : sn.toNat ≤ en.toNat) (hen : en.toNat < 2^63)
    {startBlock : BlockNumber} (hf : 2^64 < fuel) :
    queryRangeWithCache fuel ⟨sn,some en⟩ sp.window (visitSlot mode target)
        (loadDate sp.backend target startBlock mode) none =
      some (loadRest ⟨sn,some en⟩ sp.cached (loadDate sp.backend target startBlock mode)
        (pick mode (c.qualifies mode target)
          (blocks (Range.intersection ⟨sn,some en⟩ sp.cached))) []) := by
  have hi : Range.isEmpty ⟨sn,some en⟩ = false := not_isEmpty _ hse
  have hstop : ∃ stop, (Range.intersection ⟨sn,some en⟩ sp.cached).stop = some stop ∧
      stop.toNat < 2^63 := by
    simp only [Range.intersection]
    split
    · exact ⟨0,by decide⟩
    cases hs : sp.cached.stop with
    | none => exact ⟨en,rfl,hen⟩
    | some e => exact ⟨min en e,rfl,by rw [toNat_min]; omega⟩
  obtain ⟨stop,hs,hlt⟩ := hstop
  have hb : (Range.intersection ⟨sn,some en⟩ sp.window.curRange).stop ≠ some maxUint64 := by
    rw [show sp.window.curRange = sp.cached from rfl,hs]
    exact bounded_some stop (by omega)
  rw [query_outcome _ _ none hb hf,outcome,hi]
  simp only [Bool.false_eq_true,if_false,show sp.window.ready from rfl,Bool.not_true,
    show sp.window.curRange = sp.cached from rfl,hs,Option.isNone_some,visit_slots,
    foldl_updateResult (blocks_pairwise _)]

variable {start : UInt64} {r : Range} {stop : UInt64}

theorem includes_of_contains (h : start.toNat ≤ stop.toNat) (hs : r.contains start)
    (he : r.contains stop) : r.includes ⟨start,some stop⟩ := by
  have hi : Range.isEmpty ⟨start,some stop⟩ = false := not_isEmpty _ h
  rw [inRange_iff] at hs he
  have hr : r.isEmpty = false := not_isEmpty r (by omega)
  simp [Range.includes,hr,le_iff_toNat_le,hs.1,some_lessEqual_iff,he.2]

theorem stop_of_top (stop : UInt64) (hlt : stop.toNat < 2^63)
    (h : top r.stop = stop.toNat) : r.stop = some stop := by
  cases hs : r.stop with
  | none => rw [hs,top_none] at h; omega
  | some e =>
    rw [hs,top_some] at h
    rw [toNat_inj.mp h]

theorem range_eq {stop : Option UInt64} (h1 : r.start = start)
    (h2 : r.stop = stop) : r = ⟨start,stop⟩ := by
  rw [← h1,← h2]

variable {result : Option UInt64}

theorem queryStore_found (hss : start.toNat ≤ stop.toNat) (hlt : stop.toNat < 2^63)
    (hs : sp.stored.contains start) (he : sp.stored.contains stop) :
    queryStore sp.backend target mode result sp.stored start stop =
      .ok ((pick mode (storeQualifies c mode (storeTarget target))
        (blocks ⟨start,some stop⟩)).or result,[]) := by
  have hi : Range.isEmpty ⟨start,some stop⟩ = false := not_isEmpty _ hss
  have hin := includes_of_contains hss hs he
  have hmode : (if (mode == Mode.le) then Mode.le else Mode.ge) = mode := by
    cases mode <;> rfl
  have hkeep : (pick mode (storeQualifies c mode (storeTarget target))
      (blocks ⟨start,some stop⟩)).filter (fun n => n ≠ maxUint64) =
      pick mode (storeQualifies c mode (storeTarget target)) (blocks ⟨start,some stop⟩) := by
    cases hp : pick mode (storeQualifies c mode (storeTarget target))
      (blocks ⟨start,some stop⟩) with
    | none => rfl
    | some n =>
      have hc := (mem_blocks _ n).mp (pick_mem hp).1
      rw [inRange_iff,top_some] at hc
      have hm : maxUint64.toNat = (2^64-1) := rfl
      have hne : n ≠ maxUint64 := by
        rintro rfl
        omega
      simp [hne]
  simp only [queryStore,hi,hin,Bool.false_eq_true,if_false,Bool.not_true,Split.backend,
    queryDate,hmode,hkeep]

theorem loadDate_needless {b : BlockNumber}
    {queryRange : Range} (h : needless mode result queryRange = .ok true) :
    loadDate sp.backend target b mode result queryRange = .ok (result,[]) := by
  rw [loadDate,h]

theorem loadDate_found {n : Fin 9223372036854775808} (hss : start.toNat ≤ stop.toNat)
    (hlt : stop.toNat < 9223372036854775808) (hs : sp.stored.contains start)
    (he : sp.stored.contains stop) (h : needless mode result ⟨start,some stop⟩ = .ok false) :
    loadDate sp.backend target (.number n) mode result ⟨start,some stop⟩ =
      .ok ((pick mode (storeQualifies c mode (storeTarget target))
        (blocks ⟨start,some stop⟩)).or result,[]) := by
  have hr : sp.backend.rangeStore = .ok sp.stored := rfl
  simp only [loadDate,h,reduceCtorEq,and_false,if_false]
  exact queryStore_found hss hlt hs he

theorem loadRest_uncached (hse : sn.toNat ≤ en.toNat) (hen : en.toNat < 2^63)
    (hhead : en.toNat ≤ c.head.toNat) (he : (Range.intersection ⟨sn,some en⟩ sp.cached).isEmpty)
    (loader : Option UInt64 → Range → Except (Failure Refusal) (Option UInt64 × List UInt64))
    (result : Option UInt64) :
    loadRest ⟨sn,some en⟩ sp.cached loader result [] =
      loadInFront loader result ⟨sn,some en⟩ [] := by
  have hi : Range.isEmpty ⟨sn,some en⟩ = false := not_isEmpty _ hse
  by_cases hw : sp.cached.isEmpty
  · exact loadRest_of_empty _ _ _ hi hw
  have hw : sp.cached.isEmpty = false := by simpa using hw
  have hwn := start_le_top hw
  have hstop := sp.toHead hw
  have hinter := intersection_of_nonempty hi hw
  rw [RangeHoles.isEmpty_iff,hinter.1,hinter.2,hstop,top_some,top_some] at he
  dsimp only at he
  rw [hstop] at hwn
  have hlt : sn.toNat < sp.cached.start.toNat := by omega
  have hwn' : sp.cached.start.toNat ≤ top sp.cached.stop := by rw [hstop]; exact hwn
  obtain ⟨h1,h2⟩ := first_remove_below ⟨sn,some en⟩ sp.cached hwn' hse hlt
  have hq : first (Range.remove ⟨sn,some en⟩ sp.cached) = ⟨sn,some en⟩ := by
    have h3 := stop_of_top en hen (by rw [h2,top_some]; omega)
    exact range_eq h1 h3
  rw [loadRest_of_below _ _ _ hi hw hlt hstop,hq]

theorem uncached_stored (sp : Split c) (sn en n : UInt64) (hhead : en.toNat ≤ c.head.toNat)
    (he : (Range.intersection ⟨sn,some en⟩ sp.cached).isEmpty)
    (hn : Range.contains ⟨sn,some en⟩ n) : sp.stored.contains n := by
  apply sp.below n
  · rw [inRange_iff,top_some] at hn
    omega
  have hout := not_inRange _ he n
  by_contra hc
  rw [Bool.not_eq_false] at hc
  rw [(range_intersection_iff _ _ _).mpr ⟨hn,hc⟩] at hout
  cases hout

theorem estimate_uncached (mode : Mode) (target : UInt64)
    (hse : sn.toNat ≤ en.toNat) (hen : en.toNat < 2^63) (hhead : en.toNat ≤ c.head.toNat)
    (n : Fin 9223372036854775808) (he : (Range.intersection ⟨sn,some en⟩ sp.cached).isEmpty) :
    loadRest ⟨sn,some en⟩ sp.cached (loadDate sp.backend target (.number n) mode)
        (pick mode (c.qualifies mode target)
          (blocks (Range.intersection ⟨sn,some en⟩ sp.cached))) [] =
      .ok (match mode with
        | .le => pick .le (storeQualifies c .le (storeTarget target)) (blocks ⟨sn,some en⟩)
        | .ge => none,[]) := by
  rw [blocks_empty _ he,loadRest_uncached hse hen hhead he,loadInFront]
  have hstored := uncached_stored sp sn en
  cases mode with
  | le =>
    rw [show pick Mode.le (c.qualifies .le target) [] = none from rfl,loadDate_found hse hen
        (hstored sn hhead he ((inRange_iff _ _).mpr ⟨le_rfl,hse⟩))
        (hstored en hhead he ((inRange_iff _ _).mpr ⟨hse,le_rfl⟩)) rfl]
    simp
  | ge =>
    rfl

theorem until_iff {n : UInt64} : c.qualifies .le target n ↔ c.time n ≤ target :=
  decide_eq_true_iff

theorem since_iff {n : UInt64} : c.qualifies .ge target n ↔ target ≤ c.time n :=
  decide_eq_true_iff

/-- Of two blocks up to the head, the one nearer to where the mode starts from
qualifies if the other does. -/
theorem qualifies_le (a : UInt64) {b : UInt64} (hab : a.toNat ≤ b.toNat)
    (hb : b.toNat ≤ c.head.toNat) (h : c.qualifies .le target b) : c.qualifies .le target a := by
  have hle := c.ordered a b hab hb
  rw [until_iff,le_iff_toNat_le] at *
  omega

theorem qualifies_ge {a : UInt64} (b : UInt64) (hab : a.toNat ≤ b.toNat)
    (hb : b.toNat ≤ c.head.toNat) (h : c.qualifies .ge target a) : c.qualifies .ge target b := by
  have hle := c.ordered a b hab hb
  rw [since_iff,le_iff_toNat_le] at *
  omega

theorem storeQualifies_eq (mode : Mode) (target n : UInt64)
    (h : target.toNat < 9223372036854775808) :
    storeQualifies c mode (storeTarget target) n = c.qualifies mode target n := by
  cases mode with
  | le | ge => simp [storeQualifies,storeTarget,h,Chain.qualifies,qualifies,le_iff_toNat_le]

section cached
variable (sp : Split c) (target sn en : UInt64) (n : Fin 9223372036854775808)

/-- The interval starts below the cache and reaches it. -/
structure Reaches : Prop where
  signed : en.toNat < 9223372036854775808
  toHead : en.toNat ≤ c.head.toNat
  below : sn.toNat < sp.cached.start.toNat
  reaches : sp.cached.start.toNat ≤ en.toNat

def cachedPart : List UInt64 := blocks ⟨sp.cached.start,some en⟩

def storedPart : Range := ⟨sn,some (sp.cached.start-1)⟩

section
variable (h : Reaches sp sn en)
include h

theorem cached_pred : (sp.cached.start-1).toNat = sp.cached.start.toNat-1 :=
  toNat_dec _ (by have := h.below; omega)

theorem stored_start : sp.stored.contains sn := by
  obtain ⟨h1,h4⟩ := h
  apply sp.below sn (by omega)
  rw [Bool.eq_false_iff,ne_eq,inRange_iff]
  omega

theorem stored_stop : sp.stored.contains (sp.cached.start-1) := by
  have hd := cached_pred sp sn en h
  obtain ⟨h1,h4⟩ := h
  apply sp.below _ (by omega)
  rw [Bool.eq_false_iff,ne_eq,inRange_iff]
  omega

theorem interval_parts : blocks ⟨sn,some en⟩ = blocks (storedPart sp sn)++cachedPart sp en := by
  have hd := cached_pred sp sn en h
  obtain ⟨h1,h4⟩ := h
  have hnext : between sp.cached.start.toNat en.toNat =
      between (sp.cached.start.toNat-1+1) en.toNat := by
    rw [Nat.sub_add_cancel (by omega)]
  simp only [blocks,storedPart,cachedPart,top_some,hd,hnext]
  exact (between_append _ (by omega) (by omega)).symm

theorem start_cached : sp.cached.start ∈ cachedPart sp en := by
  rw [cachedPart,mem_blocks,inRange_iff]
  exact ⟨le_rfl,h.reaches⟩

theorem stored_below {a : UInt64} (ha : a ∈ blocks (storedPart sp sn)) :
    a.toNat < sp.cached.start.toNat := by
  have hd := cached_pred sp sn en h
  have hlt := h.below
  rw [mem_blocks,inRange_iff,storedPart,top_some] at ha
  omega

theorem stored_none (hq : c.qualifies .ge target sp.cached.start = false) :
    pick .ge (c.qualifies .ge target) (blocks (storedPart sp sn)) = none := by
  rw [pick_eq_none]
  intro a ha
  by_contra hqa
  rw [Bool.not_eq_false] at hqa
  have hlt := stored_below sp sn en h ha
  have hle : sp.cached.start.toNat ≤ c.head.toNat := h.reaches.trans h.toHead
  rw [qualifies_ge sp.cached.start (by omega) hle hqa] at hq
  cases hq

theorem cached_first (hq : c.qualifies .ge target sp.cached.start) :
    pick .ge (c.qualifies .ge target) (cachedPart sp en) = some sp.cached.start := by
  apply find_first _ hq
  · intro y hy hlt
    have hge : sp.cached.start.toNat ≤ y.toNat := ((inRange_iff _ _).mp hy).1
    omega
  · exact (inRange_iff _ _).mpr ⟨le_rfl,h.reaches⟩

theorem load_found (hsmall : target.toNat < 9223372036854775808)
    (hneeded : needless mode result (storedPart sp sn) = .ok false) :
    loadDate sp.backend target (.number n) mode result (storedPart sp sn) =
      .ok ((pick mode (c.qualifies mode target) (blocks (storedPart sp sn))).or result,[]) := by
  have hd := cached_pred sp sn en h
  obtain ⟨h1,h2,h3,h4⟩ := h
  rw [storedPart] at hneeded ⊢
  rw [loadDate_found (by omega) (by omega)
    (stored_start sp sn en ⟨h1,h2,h3,h4⟩) (stored_stop sp sn en ⟨h1,h2,h3,h4⟩) hneeded,
    pick_congr mode _ (fun m _ => storeQualifies_eq mode target m hsmall)]

theorem load_le : loadDate sp.backend target (.number n) .le
        (pick .le (c.qualifies .le target) (cachedPart sp en)) (storedPart sp sn) =
      .ok (expected c .le target ⟨sn,some en⟩,[]) := by
  rw [expected,interval_parts sp sn en h,pick_append]
  rcases hp : pick .le (c.qualifies .le target) (cachedPart sp en) with _ | r
  swap
  · rfl
  have hfirst := pick_eq_none.mp hp _ (start_cached sp sn en h)
  have hsmall : target.toNat < 2^63 := by
    have hs := c.signed sp.cached.start
    simp only [Chain.qualifies,qualifies,decide_eq_false_iff_not,le_iff_toNat_le] at hfirst
    omega
  rw [load_found sp target sn en n h hsmall rfl]
  simp

theorem load_ge : loadDate sp.backend target (.number n) .ge
        (pick .ge (c.qualifies .ge target) (cachedPart sp en)) (storedPart sp sn) =
      .ok (expected c .ge target ⟨sn,some en⟩,[]) := by
  have hinc : sp.cached.start-1+1 = sp.cached.start := UInt64.sub_add_cancel _ _
  rw [expected,interval_parts sp sn en h,pick_append]
  rcases hp : pick .ge (c.qualifies .ge target) (cachedPart sp en) with _ | r
  · have hfirst := pick_eq_none.mp hp _ (start_cached sp sn en h)
    rw [stored_none sp target sn en h hfirst]
    rfl
  by_cases hskip : sp.cached.start < r
  · have hfirst : c.qualifies .ge target sp.cached.start = false := by
      by_contra hq
      rw [Bool.not_eq_false] at hq
      rw [cached_first sp target sn en h hq] at hp
      rw [← Option.some.inj hp,UInt64.lt_iff_toNat_lt] at hskip
      omega
    have hneedless : needless .ge (some r) (storedPart sp sn) = .ok true := by
      simp [needless,storedPart,hinc,hskip]
    rw [loadDate_needless hneedless,stored_none sp target sn en h hfirst]
    rfl
  · have hneeded : needless .ge (some r) (storedPart sp sn) = .ok false := by
      simp [needless,storedPart,hinc,hskip]
    have hsmall : target.toNat < 2^63 := by
      have hs := c.signed r
      have hq := (pick_mem hp).2
      rw [since_iff,le_iff_toNat_le] at hq
      omega
    exact load_found sp target sn en n h hsmall hneeded

theorem load_reaching : loadDate sp.backend target (.number n) mode
        (pick mode (c.qualifies mode target) (cachedPart sp en)) (storedPart sp sn) =
      .ok (expected c mode target ⟨sn,some en⟩,[]) := by
  cases mode with
  | le => exact load_le sp target sn en n h
  | ge => exact load_ge sp target sn en n h

end

theorem estimate_cached (hse : sn.toNat ≤ en.toNat)
    (hen : en.toNat < 2^63) (hhead : en.toNat ≤ c.head.toNat)
    (hne : (Range.intersection ⟨sn,some en⟩ sp.cached).isEmpty = false) :
    loadRest ⟨sn,some en⟩ sp.cached (loadDate sp.backend target (.number n) mode)
        (pick mode (c.qualifies mode target)
          (blocks (Range.intersection ⟨sn,some en⟩ sp.cached))) [] =
      .ok (expected c mode target ⟨sn,some en⟩,[]) := by
  have hi : Range.isEmpty ⟨sn,some en⟩ = false := not_isEmpty _ hse
  have hw : sp.cached.isEmpty = false := by
    by_contra hw
    rw [Bool.not_eq_false] at hw
    simp [Range.intersection,hw,show Range.isEmpty Range.empty from rfl] at hne
  have hstop := sp.toHead hw
  obtain ⟨hs,ht⟩ := intersection_of_nonempty hi hw
  rw [hstop,top_some,top_some] at ht
  have hb : (Range.intersection ⟨sn,some en⟩ sp.cached).stop ≠ some maxUint64 := by
    rw [stop_of_top en hen (by omega)]
    exact bounded_some en (by omega)
  have hreach : sp.cached.start.toNat ≤ en.toNat := by
    rw [Bool.eq_false_iff,ne_eq,RangeHoles.isEmpty_iff] at hne
    omega
  by_cases hlt : sn.toNat < sp.cached.start.toNat
  · have h : Reaches sp sn en := ⟨hen,hhead,hlt,hreach⟩
    have hcached : blocks (Range.intersection ⟨sn,some en⟩ sp.cached) = cachedPart sp en := by
      rw [blocks,hs,cachedPart,blocks,top_some]
      dsimp only
      congr 1
      · omega
      · omega
    have hwn : sp.cached.start.toNat ≤ top sp.cached.stop := by rw [hstop,top_some]; omega
    obtain ⟨h1,h2⟩ := first_remove_below ⟨sn,some en⟩ sp.cached hwn hse hlt
    have hd := cached_pred sp sn en h
    have hq : first (Range.remove ⟨sn,some en⟩ sp.cached) = storedPart sp sn := by
      have h3 := stop_of_top (sp.cached.start-1) (by omega) (by rw [h2,top_some]; omega)
      exact range_eq h1 h3
    rw [loadRest_of_below _ _ _ hi hw hlt hstop,loadInFront,hq,hcached,
      load_reaching sp target sn en n h]
    rfl
  · have hcached : blocks (Range.intersection ⟨sn,some en⟩ sp.cached) = blocks ⟨sn,some en⟩ := by
      rw [blocks,hs,blocks,top_some]
      dsimp only
      congr 1
      · omega
      · omega
    rw [loadRest_of_above _ _ _ hi hw (Nat.le_of_not_lt hlt) hb hstop,hcached]
    rfl

end cached

def Chain.header (c : Chain) : BlockNumber → Except (Failure Refusal) Slot
  | .number n =>
    if n.val ≤ c.head.toNat then .ok ⟨ofNat n,c.time (ofNat n)⟩
    else .error (.external (.headerNotFound (.number n)))
  | .latest => .ok ⟨c.head,c.time c.head⟩
  | .earliest => .ok ⟨0,c.time 0⟩
  | b => .error (.external (.headerNotFound b))

theorem header_number (hs : x.toNat < 2^63)
    (h : x.toNat ≤ c.head.toNat) : c.header (.number ⟨x.toNat,hs⟩) = .ok ⟨x,c.time x⟩ := by
  show (if x.toNat ≤ c.head.toNat then
    Except.ok (⟨ofNat x.toNat,c.time (ofNat x.toNat)⟩ : Slot) else _) = _
  rw [if_pos h,UInt64.ofNat_toNat]

def past (c : Chain) (mode : Mode) (target sn en x : UInt64) : Bool :=
  if x ≤ sn then false
  else if en ≤ x then true
  else beyond mode target (c.time x)

section proxy
variable (mode : Mode) (target sn en : UInt64)

structure Named (c : Chain) (sn en : UInt64) : Prop where
  ordered : sn.toNat ≤ en.toNat
  signed : en.toNat < 9223372036854775808
  toHead : en.toNat ≤ c.head.toNat

theorem searchHeaders_past (h : Named c sn en) :
    searchHeaders c.header target mode ⟨sn,c.time sn⟩ ⟨en,c.time en⟩ =
      fun x => .ok (past c mode target sn en x) := by
  funext x
  rw [searchHeaders,past]
  by_cases hlow : x ≤ sn
  · simp only [hlow,if_true]
  by_cases hhigh : en ≤ x
  · simp only [hlow,hhigh,if_true,if_false]
  have hx : x.toNat < en.toNat := by
    rw [le_iff_toNat_le] at hhigh
    omega
  obtain ⟨h1,h3⟩ := h
  have hsigned : x.toNat < 2^63 := by omega
  have hhead : x.toNat ≤ c.head.toNat := by omega
  have hheader : c.header (.ofWord x) = .ok ⟨x,c.time x⟩ := by
    have hword : BlockNumber.ofWord x = .number ⟨x.toNat,hsigned⟩ := dif_pos hsigned
    rw [hword,header_number]
    exact hhead
  simp only [hlow,hhigh,if_false,hheader]

theorem expected_none_of {interval : Range}
    (h : ∀ y, interval.contains y → c.qualifies mode target y = false) :
    expected c mode target interval = none :=
  pick_eq_none.mpr (fun y hy => h y ((mem_blocks _ y).mp hy))

theorem past_low (h : x.toNat ≤ sn.toNat) : past c mode target sn en x = false := by
  simp [past,le_iff_toNat_le,h]

theorem past_high (h1 : sn.toNat < x.toNat) (h2 : en.toNat ≤ x.toNat) :
    past c mode target sn en x := by
  simp [past,le_iff_toNat_le,show ¬x.toNat ≤ sn.toNat by omega,h2]

theorem past_between (h1 : sn.toNat < x.toNat) (h2 : x.toNat < en.toNat) :
    past c mode target sn en x =
      match mode with
      | .le => !c.qualifies .le target x
      | .ge => c.qualifies .ge target x := by
  have hlow : ¬x ≤ sn := by rw [le_iff_toNat_le]; omega
  have hhigh : ¬en ≤ x := by rw [le_iff_toNat_le]; omega
  rw [past,if_neg hlow,if_neg hhigh]
  cases mode with
  | le => simp [beyond,Chain.qualifies,qualifies,← decide_not]
  | ge => rfl

section
variable {r : UInt64} (hlt : sn.toNat < en.toNat) (hr : 0 < r.toNat)
include hlt hr

theorem border_bounds (h1 : past c mode target sn en r) (h2 : past c mode target sn en (r-1) = false) :
    sn.toNat < r.toNat ∧ r.toNat ≤ en.toNat := by
  have hd : (r-1).toNat = r.toNat-1 := toNat_dec _ hr
  constructor
  · by_contra hle
    rw [past_low mode target sn en (by omega)] at h1
    cases h1
  by_contra hgt
  rw [past_high mode target sn en (by omega) (by omega)] at h2
  cases h2

variable (h : Named c sn en)
include h

theorem border_le (hs : c.qualifies .le target sn) (he : c.qualifies .le target en = false)
    (h1 : past c .le target sn en r) (h2 : past c .le target sn en (r-1) = false) :
    expected c .le target ⟨sn,some en⟩ = some (r-1) := by
  have hd : (r-1).toNat = r.toNat-1 := toNat_dec _ hr
  obtain ⟨hb1,hb2⟩ := border_bounds .le target sn en hlt hr h1 h2
  apply find_last
  · rw [inRange_iff,top_some]
    dsimp only
    omega
  · by_cases hfirst : r.toNat-1 = sn.toNat
    · rwa [show r-1 = sn from toNat_inj.mp (by omega)]
    · rw [past_between .le target sn en (by omega) (by omega)] at h2
      simpa using h2
  intro y hy hry
  rw [inRange_iff] at hy
  by_contra hq
  rw [Bool.not_eq_false] at hq
  have hqr := qualifies_le r (by omega) (hy.2.trans h.toHead) hq
  by_cases hlast : r.toNat = en.toNat
  · rw [toNat_inj.mp hlast,he] at hqr
    cases hqr
  · rw [past_between .le target sn en hb1 (by omega),hqr] at h1
    cases h1

theorem border_ge (hs : c.qualifies .ge target sn = false) (he : c.qualifies .ge target en)
    (h1 : past c .ge target sn en r) (h2 : past c .ge target sn en (r-1) = false) :
    expected c .ge target ⟨sn,some en⟩ = some r := by
  have hd : (r-1).toNat = r.toNat-1 := toNat_dec _ hr
  obtain ⟨hb1,hb2⟩ := border_bounds .ge target sn en hlt hr h1 h2
  have hhead := h.toHead
  apply find_first
  · rw [inRange_iff,top_some]
    dsimp only
    omega
  · by_cases hlast : r.toNat = en.toNat
    · rwa [toNat_inj.mp hlast]
    · rw [past_between .ge target sn en hb1 (by omega)] at h1
      exact h1
  intro y hy hry
  by_contra hq
  rw [Bool.not_eq_false] at hq
  have hqr := qualifies_ge (r-1) (by omega) (by omega) hq
  by_cases hfirst : r.toNat-1 = sn.toNat
  · rw [show r-1 = sn from toNat_inj.mp (by omega),hs] at hqr
    cases hqr
  · rw [past_between .ge target sn en (by omega) (by omega),hqr] at h2
    cases h2

end

section
variable (h : Named c sn en)
include h

theorem proxySearch_expected (hs : c.qualifies mode target sn = (mode == .le))
    (he : c.qualifies mode target en = (mode == .ge)) (hf : 2^63 < fuel) :
    proxySearch c.header fuel target mode ⟨sn,c.time sn⟩ ⟨en,c.time en⟩ =
      some (.ok (expected c mode target ⟨sn,some en⟩)) := by
  have hne : sn.toNat ≠ en.toNat := by
    intro heq
    rw [toNat_inj.mp heq,he] at hs
    cases mode <;> cases hs
  have hlt : sn.toNat < en.toNat := by
    have := h.ordered
    omega
  have hse : sn ≠ en := fun heq => hne (congrArg UInt64.toNat heq)
  obtain ⟨high,hm,hle,hhigh⟩ := minP2_bound h.signed.le
  have hzero : past c mode target sn en 0 = false := past_low mode target sn en (by simp)
  have htop : past c mode target sn en high :=
    past_high mode target sn en (by omega) hle
  obtain ⟨r,hsearch,hr,-,h1,h2⟩ := @binarySearch_border (Failure Refusal)
    (past c mode target sn en) fuel 0 high hhigh (by simp; omega) hzero htop (by simp; omega)
  simp only [proxySearch,hse,if_false,hm,searchHeaders_past mode target sn en h,hsearch]
  cases mode with
  | le => rw [border_le target sn en hlt hr h hs he h1 h2]
  | ge => rw [border_ge target sn en hlt hr h hs he h1 h2]

theorem expected_le_end (he : c.qualifies .le target en) :
    expected c .le target ⟨sn,some en⟩ = some en := by
  apply find_last _ he
  · intro y hy hlt
    rw [inRange_iff,top_some] at hy
    omega
  · exact (inRange_iff _ _).mpr ⟨h.ordered,le_rfl⟩

theorem expected_ge_start (hs : c.qualifies .ge target sn) :
    expected c .ge target ⟨sn,some en⟩ = some sn := by
  apply find_first _ hs
  · intro y hy hlt
    rw [inRange_iff] at hy
    dsimp only at hy
    omega
  · exact (inRange_iff _ _).mpr ⟨le_rfl,h.ordered⟩

theorem expected_le_none (hs : c.qualifies .le target sn = false) :
    expected c .le target ⟨sn,some en⟩ = none := by
  apply expected_none_of
  intro y hy
  rw [inRange_iff] at hy
  by_contra hq
  rw [Bool.not_eq_false] at hq
  rw [qualifies_le sn hy.1 (hy.2.trans h.toHead) hq] at hs
  cases hs

theorem expected_ge_none (he : c.qualifies .ge target en = false) :
    expected c .ge target ⟨sn,some en⟩ = none := by
  apply expected_none_of
  intro y hy
  rw [inRange_iff] at hy
  by_contra hq
  rw [Bool.not_eq_false] at hq
  rw [qualifies_ge en hy.2 h.toHead hq] at he
  cases he

end

end proxy

variable (n : Fin 9223372036854775808)

theorem endNumber_number : endNumber (.number n) = some (ofNat n) := rfl

theorem startNumber_number : startNumber (.number n) = some (ofNat n) := rfl

theorem parseMode_text (mode : Mode) : parseMode mode.text = some mode := by
  cases mode <;> rfl

theorem toNat_ofNumber : (ofNat n).toNat = n.val :=
  UInt64.toNat_ofNat_of_lt (n.isLt.trans (by decide))

theorem header_of_number (c : Chain) (n : Fin 9223372036854775808) (h : n.val ≤ c.head.toNat) :
    c.header (.number n) = .ok ⟨ofNat n,c.time (ofNat n)⟩ :=
  if_pos h

variable {e s : Fin 9223372036854775808}

theorem proxyEstimate_expected
    (h : Named c (ofNat s) (ofNat e)) (fuel : ℕ) (hf : 9223372036854775808 < fuel) :
    proxyEstimate c.header fuel target (.number s) (.number e) mode.text =
      some (.ok (expected c mode target ⟨ofNat s,some (ofNat e)⟩)) := by
  have hse := h.ordered
  have hhead := h.toHead
  rw [toNat_ofNumber] at hhead
  rw [toNat_ofNumber,toNat_ofNumber] at hse
  simp only [proxyEstimate,endNumber_number,startNumber_number,parseMode_text,
    header_of_number c s (by omega),header_of_number c e hhead]
  cases mode with
  | le =>
    by_cases hs : c.qualifies .le target (ofNat s)
    · have hs' := UInt64.not_lt.mpr (until_iff.mp hs)
      by_cases he : c.qualifies .le target (ofNat e)
      · have he' := until_iff.mp he
        simp only [hs',he',and_false,and_true,reduceCtorEq,false_and,if_false,if_true,
          expected_le_end target _ _ h he]
      have he' := until_iff.not.mp he
      simp only [hs',he',and_false,reduceCtorEq,false_and,if_false]
      exact proxySearch_expected .le target _ _ h hs (Bool.eq_false_of_not_eq_true he) hf
    · have hs' := UInt64.not_le.mp (until_iff.not.mp hs)
      simp only [hs',and_true,if_true,expected_le_none target _ _ h (by simpa using hs)]
  | ge =>
    by_cases hs : c.qualifies .ge target (ofNat s)
    · have hs' := since_iff.mp hs
      simp only [hs',reduceCtorEq,false_and,and_true,if_false,if_true,
        expected_ge_start target _ _ h hs]
    have hs' := since_iff.not.mp hs
    by_cases he : c.qualifies .ge target (ofNat e)
    · have he' := UInt64.not_lt.mpr (since_iff.mp he)
      simp only [hs',he',and_false,reduceCtorEq,false_and,if_false]
      exact proxySearch_expected .ge target _ _ h (Bool.eq_false_of_not_eq_true hs) he hf
    have he' := UInt64.not_le.mp (since_iff.not.mp he)
    simp only [hs',he',and_false,reduceCtorEq,false_and,and_true,if_false,if_true,
      expected_ge_none target _ _ h (by simpa using he)]

/-- What the answer from cache and store needs when no block of the interval is
cached. -/
def Answered (sp : Split c) (mode : Mode) (target sn en : UInt64) : Prop :=
  (Range.intersection ⟨sn,some en⟩ sp.cached).isEmpty →
    match mode with
    | .le => target.toNat < 9223372036854775808
    | .ge => c.time en < target

/-- The store finds nothing for a target that is negative as a signed word. -/
theorem pick_negative (h : 2^63 ≤ target.toNat) :
    pick .le (storeQualifies c .le (storeTarget target)) ns = none := by
  rw [pick_eq_none]
  have hw := word_lt target
  simp only [storeQualifies,storeTarget,show ¬target.toNat < 9223372036854775808 by omega,
    if_false,decide_eq_false_iff_not]
  omega

theorem uncached_iff_answered {sp : Split c} (mode : Mode) (target : UInt64) {sn en : UInt64}
    (h : Named c sn en) (he : (Range.intersection ⟨sn,some en⟩ sp.cached).isEmpty) :
    (match mode with
      | .le => pick .le (storeQualifies c .le (storeTarget target)) (blocks ⟨sn,some en⟩)
      | .ge => none) = expected c mode target ⟨sn,some en⟩ ↔ Answered sp mode target sn en := by
  cases mode with
  | le =>
    by_cases ht : target.toNat < 2^63
    · have heq := pick_congr .le (blocks ⟨sn,some en⟩)
        (fun n _ => storeQualifies_eq (c := c) .le target n ht)
      exact ⟨fun _ _ => ht,fun _ => heq⟩
    have hq : c.qualifies .le target en := by
      have hs := c.signed en
      rw [until_iff,le_iff_toNat_le]
      omega
    rw [expected_le_end target sn en h hq,pick_negative (by omega)]
    exact ⟨fun hn => (nomatch hn),fun ha => absurd (ha he) ht⟩
  | ge =>
    by_cases hq : c.qualifies .ge target en
    · have hlt := UInt64.not_lt.mpr (since_iff.mp hq)
      have hsome : expected c .ge target ⟨sn,some en⟩ ≠ none := by
        intro hnone
        have hout := pick_eq_none.mp hnone en
          ((mem_blocks _ _).mpr ((inRange_iff _ _).mpr ⟨h.ordered,le_rfl⟩))
        rw [hq] at hout
        cases hout
      exact ⟨fun heq => absurd heq.symm hsome,fun ha => absurd (ha he) hlt⟩
    · have hlt := UInt64.not_le.mp (since_iff.not.mp hq)
      rw [expected_ge_none target sn en h (by simpa using hq)]
      exact ⟨fun _ _ => hlt,fun _ => rfl⟩

theorem estimate_loads
    (h : Named c (ofNat s) (ofNat e)) (hf : 18446744073709551616 < fuel) :
    estimateBlockNumberAtDate fuel sp.window sp.backend target (.number s) (.number e) mode.text =
      some ((loadRest ⟨ofNat s,some (ofNat e)⟩ sp.cached
        (loadDate sp.backend target (.number s) mode)
        (pick mode (c.qualifies mode target)
          (blocks (Range.intersection ⟨ofNat s,some (ofNat e)⟩ sp.cached)))
        []).map Prod.fst) := by
  simp [estimateBlockNumberAtDate,endNumber_number,startNumber_number,parseMode_text,
    estimate_outcome h.ordered h.signed hf,Option.map_some]

/-- Cache and store answer with the first block that qualifies unless no block of
the interval is cached: then a lower bound is not looked for in the store, and the
target is read as a signed word. The bisection always finds the block. -/
theorem estimate_finds_iff_answered (c : Chain) (sp : Split c) (mode : Mode) (target : UInt64)
    (s e : Fin 9223372036854775808) (hse : s.val ≤ e.val) (hhead : e.val ≤ c.head.toNat) :
    ((∀ fuel, 18446744073709551616 < fuel →
        estimateBlockNumberAtDate fuel sp.window sp.backend target (.number s) (.number e)
            mode.text =
          some (.ok (expected c mode target ⟨ofNat s,some (ofNat e)⟩))) ↔
      Answered sp mode target (ofNat s) (ofNat e)) ∧
    ∀ fuel, 9223372036854775808 < fuel →
      proxyEstimate c.header fuel target (.number s) (.number e) mode.text =
        some (.ok (expected c mode target ⟨ofNat s,some (ofNat e)⟩)) := by
  have h : Named c (ofNat s) (ofNat e) :=
    ⟨by rwa [toNat_ofNumber,toNat_ofNumber],by rw [toNat_ofNumber]; exact e.isLt,
      by rwa [toNat_ofNumber]⟩
  constructor
  · by_cases he : (Range.intersection ⟨ofNat s,some (ofNat e)⟩ sp.cached).isEmpty
    · have hload := estimate_uncached mode target h.ordered h.signed h.toHead s he
      rw [← uncached_iff_answered mode target h he]
      constructor
      · intro hall
        have hone := hall 18446744073709551617 (by decide)
        rw [estimate_loads h (by decide),hload] at hone
        simpa [Except.map] using hone
      · intro heq fuel hf
        rw [estimate_loads h hf,hload,heq]
        rfl
    · have he' := (Bool.not_eq_true _).mp he
      constructor
      · intro _ hempty
        exact absurd hempty he
      intro _ fuel hf
      rw [estimate_loads h hf,estimate_cached sp target _ _ s h.ordered h.signed h.toHead he']
      rfl
  · exact proxyEstimate_expected h

section sample

def sampleChain : Chain where
  head := 6
  time n := min n 6
  ordered a b hab _ := by
    rw [toNat_min,toNat_min]
    omega
  signed n := by
    rw [toNat_min,show (6 : UInt64).toNat = 6 from rfl]
    omega

def sampleSplit : Split sampleChain where
  cached := ⟨5,some 6⟩
  stored := ⟨0,some 6⟩
  toHead _ := rfl
  below _ hn _ := (inRange_iff _ _).mpr ⟨Nat.zero_le _,hn⟩

end sample

theorem estimate_finds_across_the_border : expected sampleChain .ge 3 ⟨2,some 6⟩ = some 3 ∧
    ((∀ fuel, 18446744073709551616 < fuel →
        estimateBlockNumberAtDate fuel sampleSplit.window sampleSplit.backend 3
            (.number ⟨2,by decide⟩) (.number ⟨6,by decide⟩) Mode.ge.text =
          some (.ok (expected sampleChain .ge 3 ⟨ofNat 2,some (ofNat 6)⟩))) ↔
      Answered sampleSplit .ge 3 (ofNat 2) (ofNat 6)) ∧
    ∀ fuel, 9223372036854775808 < fuel →
      proxyEstimate sampleChain.header fuel 3 (.number ⟨2,by decide⟩) (.number ⟨6,by decide⟩)
          Mode.ge.text =
        some (.ok (expected sampleChain .ge 3 ⟨ofNat 2,some (ofNat 6)⟩)) :=
  ⟨by decide,estimate_finds_iff_answered sampleChain sampleSplit .ge 3 ⟨2,by decide⟩
    ⟨6,by decide⟩ (by decide) (by decide)⟩

/-- Blocks one and two are in the store only. The first block from time two on is
not looked for, and a target that is negative as a signed word finds nothing. -/
theorem estimate_below_the_cache_finds_nothing :
    (estimateBlockNumberAtDate 9 sampleSplit.window sampleSplit.backend 2
        (.number ⟨1,by decide⟩) (.number ⟨2,by decide⟩) "GE" = some (.ok none) ∧
      expected sampleChain .ge 2 ⟨1,some 2⟩ = some 2) ∧
    (estimateBlockNumberAtDate 9 sampleSplit.window sampleSplit.backend 9223372036854775808
        (.number ⟨1,by decide⟩) (.number ⟨2,by decide⟩) "LE" = some (.ok none) ∧
      expected sampleChain .le 9223372036854775808 ⟨1,some 2⟩ = some 2) := by
  decide +kernel

end Sentio.EstimateSearch
