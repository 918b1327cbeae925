import SentioCore.FetcherRuns
import SentioCore.TransferModel

/-!
# What a transferring fetcher answers

A block is done when it lies below the ready end or is marked as finished. The
buffer holds the results of done blocks only, a worker that has not ended works
on a block that is not done, and the lowest failed block is known.
-/

namespace Sentio.TransferRuns
open RangeModel RangeHoles FetcherRuns TransferModel WordArith Transition Option Prod
open FetcherModel hiding Config Fetcher Event Answer growth moveStart step
open UInt64 (lt_iff_toNat_lt toNat_inj le_iff_toNat_le)
open List (mem_append mem_singleton mem_of_getElem?)
open Option (some.inj)

section
variable {α β : Type}

def settles (c : Call α β) : Bool :=
  match c.returned.err with
  | none => true
  | some failure => failure.cause.isNone

def settledCalls (calls : List (Call α β)) (n : UInt64) : List (Call α β) :=
  calls.filter (fun c => c.block = n && settles c)

/-- The entry is the result of the only call for the block that went well, and
that call was given what upstream has for the block. -/
def Settled (cfg : Config α β) (calls : List (Call α β)) (n : UInt64) (entry : Option β) : Prop :=
  match cfg.upstream n with
  | none => entry = none
  | some source =>
    (settledCalls calls n).map (fun c => (c.source,c.returned.entry)) = [(source,entry)]

instance [DecidableEq α] [DecidableEq β] (cfg : Config α β)
    (calls : List (Call α β)) (n : UInt64) (entry : Option β) :
    Decidable (Settled cfg calls n entry) :=
  match h : cfg.upstream n with
  | none => decidable_of_iff (entry = none) (by simp [Settled,h])
  | some source => decidable_of_iff
      ((settledCalls calls n).map (fun c => (c.source,c.returned.entry)) = [(source,entry)])
      (by simp [Settled,h])

def hasFailed (w : Worker α β) : Bool :=
  match w.stage with
  | .leaving .failed | .ended .failed | .canceled => true
  | _ => false

/-- Header numbers or the end of the full range stay below the last word. -/
def HasNext (full : Range) (latest : UInt64) : Prop :=
  (atMost latest full.stop).toNat < 18446744073709551615

/-- The start is moved over a block of the range only after the block was answered. -/
def Consumed (f : Fetcher α β) (start : UInt64) : Prop :=
  start ≤ f.full.start ∨
    ∃ a ∈ f.answers, a.block.toNat+1 = start.toNat ∧ ∀ stop ∈ f.full.stop, a.block ≤ stop

def Careful (f : Fetcher α β) : Event β → Prop
  | .moveUpstream start => Consumed f start
  | .updateLatest latest => HasNext f.full latest
  | _ => True

instance (full : Range) (latest : UInt64) : Decidable (HasNext full latest) :=
  inferInstanceAs (Decidable (_ < _))

instance (f : Fetcher α β) (start : UInt64) : Decidable (Consumed f start) :=
  decidable_of_iff (start ≤ f.full.start ∨
      (f.answers.any fun a => decide (a.block.toNat+1 = start.toNat) &&
        f.full.stop.all fun stop => decide (a.block ≤ stop)))
    (by cases h : f.full.stop <;> simp [Consumed,h])

instance (f : Fetcher α β) : ∀ event, Decidable (Careful f event)
  | .moveUpstream start => inferInstanceAs (Decidable (Consumed f start))
  | .updateLatest latest => inferInstanceAs (Decidable (HasNext f.full latest))
  | .growth | .spawn | .upstreamReady _ | .work _ _ | .moveStart _ | .broken
  | .get _ => isTrue trivial

def Done (readyEnd : UInt64) (fetched : List UInt64) (n : UInt64) : Prop :=
  n.toNat < readyEnd.toNat ∨ n ∈ fetched

def FailedBy (failedAt : Option UInt64) (n : UInt64) : Prop := ∃ m ∈ failedAt, m.toNat ≤ n.toNat

def StageInv (cfg : Config α β) (done : Prop) (calls : List (Call α β))
    (failedAt : Option UInt64) (n : UInt64) : Stage α β → Prop
  | .reading => ¬done ∧ settledCalls calls n = []
  | .trying source _ => ¬done ∧ settledCalls calls n = [] ∧ cfg.upstream n = some source
  | .leaving .failed => ¬done
  | .leaving (.fetched entry) => ¬done ∧ Settled cfg calls n entry
  | .ended .failed => FailedBy failedAt n
  | .ended (.fetched _) => True
  | .canceled => ¬done

structure Inv (cfg : Config α β) (f : Fetcher α β) : Prop where
  start_le : f.full.start.toNat ≤ f.readyEnd.toNat
  ready_le : f.readyEnd.toNat ≤ f.fetchStart.toNat
  source_stop : f.upstream.full.stop = f.full.stop
  source_start : f.upstream.full.start.toNat ≤ f.readyEnd.toNat
  marks : ∀ n ∈ f.fetched, f.readyEnd.toNat ≤ n.toNat ∧ n.toNat < f.fetchStart.toNat
  distinct : (f.data.map fst).Nodup
  keys : ∀ e ∈ f.data, f.full.start.toNat ≤ e.1.toNat ∧ Done f.readyEnd f.fetched e.1
  size : f.totalSize = sumSize cfg.size f.data
  entries : ∀ n : UInt64, f.full.start.toNat ≤ n.toNat → Done f.readyEnd f.fetched n →
    FailedBy f.fetchFailedAt n ∨ Settled cfg f.calls n (lookup f.data n)
  started : (f.workers.map Worker.block).Nodup
  below : ∀ w ∈ f.workers, w.block.toNat < f.fetchStart.toNat ∧ w.block.toNat ≤ top f.full.stop
  stages : ∀ w ∈ f.workers, StageInv cfg (Done f.readyEnd f.fetched w.block) f.calls
    f.fetchFailedAt w.block w.stage
  calls : ∀ c ∈ f.calls, c.block.toNat < f.fetchStart.toNat
  latest : HasNext f.full f.latest
  growing : ∀ last ∈ f.growing, last.toNat < 18446744073709551615 ∧ last.toNat ≤ top f.full.stop
  answers : ∀ a ∈ f.answers, a.inFull → a.block.toNat < f.readyEnd.toNat ∧
    Settled cfg f.calls a.block a.entry ∧
      ∀ w ∈ f.workers, hasFailed w → a.block.toNat < w.block.toNat
  outside : ∀ a ∈ f.answers, a.inFull = false →
    a.block.toNat < f.full.start.toNat ∨ top f.full.stop < a.block.toNat

variable {calls : List (Call α β)} {n : UInt64} {more : List (Call α β)}

theorem settled_congr {cfg : Config α β}
    {entry : Option β} (h : settledCalls more n = settledCalls calls n)
    (hs : Settled cfg calls n entry) : Settled cfg more n entry := by
  unfold Settled at hs ⊢
  rw [h]
  exact hs

theorem settledCalls_concat (calls : List (Call α β)) (c : Call α β) (n : UInt64) :
    settledCalls (calls++[c]) n =
      settledCalls calls n++(if c.block = n && settles c then [c] else []) := by
  simp [settledCalls,List.filter_append,List.filter_cons,List.filter_nil]

variable {failedAt : Option UInt64} {stage : Stage α β} {cfg : Config α β}

theorem stageInv_congr {before after : Prop} {lower : Option UInt64} (hd : ¬before → ¬after)
    (hc : settledCalls more n = settledCalls calls n)
    (hf : FailedBy failedAt n → FailedBy lower n) (h : StageInv cfg before calls failedAt n stage) :
    StageInv cfg after more lower n stage := by
  cases stage with
  | reading => exact ⟨hd h.1,hc.trans h.2⟩
  | trying source retry => exact ⟨hd h.1,hc.trans h.2.1,h.2.2⟩
  | leaving outcome =>
    cases outcome with
    | failed => exact hd h
    | fetched entry => exact ⟨hd h.1,settled_congr hc h.2⟩
  | ended outcome =>
    cases outcome with
    | failed => exact hf h
    | fetched entry => trivial
  | canceled => exact hd h

variable {w : Worker α β}

theorem failed_stage {done : Prop} (hf : hasFailed w)
    (h : StageInv cfg done calls failedAt w.block w.stage) : ¬done ∨ FailedBy failedAt w.block := by
  unfold hasFailed at hf
  split at hf
  · rename_i hs
    rw [hs] at h
    exact .inl h
  · rename_i hs
    rw [hs] at h
    exact .inr h
  · rename_i hs
    rw [hs] at h
    exact .inl h
  · cases hf

theorem not_done {readyEnd : UInt64} {fetched : List UInt64} :
    ¬Done readyEnd fetched n ↔ readyEnd.toNat ≤ n.toNat ∧ n ∉ fetched := by
  simp [Done]

theorem atMost_le {stop : Option UInt64} :
    (atMost n stop).toNat ≤ n.toNat ∧ (atMost n stop).toNat ≤ top stop := by
  cases stop with
  | none => exact ⟨le_rfl,Nat.le_of_lt_succ (word_lt n)⟩
  | some stop =>
    rw [atMost,toNat_min]
    exact ⟨min_le_left _ _,min_le_right _ _⟩

theorem atMost_mono (m n : UInt64) (stop : Option UInt64) (h : m.toNat ≤ n.toNat) :
    (atMost m stop).toNat ≤ (atMost n stop).toNat := by
  cases stop with
  | none => exact h
  | some stop =>
    simp only [atMost,toNat_min]
    omega

/-- The ready end moves over marked blocks only, and their marks are taken away. -/
theorem advance_spec {fetchStart : UInt64} {rounds : ℕ} (readyEnd : UInt64) (fetched : List UInt64)
    (h : readyEnd.toNat ≤ fetchStart.toNat) :
    let moved := advance fetchStart rounds readyEnd fetched
    readyEnd.toNat ≤ moved.1.toNat ∧ moved.1.toNat ≤ fetchStart.toNat ∧
      (∀ n : UInt64, readyEnd.toNat ≤ n.toNat → n.toNat < moved.1.toNat → n ∈ fetched) ∧
      ∀ n, n ∈ moved.2 ↔ n ∈ fetched ∧ (n.toNat < readyEnd.toNat ∨ moved.1.toNat ≤ n.toNat) := by
  induction rounds generalizing readyEnd fetched with
  | zero =>
    exact ⟨le_rfl,h,fun n h1 h2 => absurd h2 (not_lt.mpr h1),
      fun n => ⟨fun hn => ⟨hn,lt_or_ge _ _⟩,fun hn => hn.1⟩⟩
  | succ rounds ih =>
    unfold advance
    split
    · rename_i hmark
      have hlt := lt_iff_toNat_lt.mp hmark.1
      have := word_lt fetchStart
      have hinc := toNat_inc readyEnd (by omega)
      obtain ⟨h1,h2,h3,h4⟩ := ih (readyEnd+1) (fetched.filter (fun n => n ≠ readyEnd)) (by omega)
      refine ⟨by omega,h2,fun n hn hm => ?_,fun n => ?_⟩
      · by_cases he : n = readyEnd
        · exact he ▸ hmark.2
        · have hne : n.toNat ≠ readyEnd.toNat := fun h => he (toNat_inj.mp h)
          exact (List.mem_filter.mp (h3 n (by omega) hm)).1
      rw [h4,List.mem_filter,decide_eq_true_iff,and_assoc,ne_eq,← toNat_inj]
      apply and_congr_right
      omega
    · exact ⟨le_rfl,h,fun n h1 h2 => absurd h2 (not_lt.mpr h1),
        fun n => ⟨fun hn => ⟨hn,lt_or_ge _ _⟩,fun hn => hn.1⟩⟩

variable {retry : ℤ}

theorem retry_of_no_cause {failure : Failure} (h : failure.cause = none) :
    failure.retry retry = -1 := by
  cases failure with
  | plain err => cases h
  | permanent err => rfl

theorem afterCall_spec {source : α} (c : Call α β) :
    (settles c ∧ afterCall source retry c.returned = .leaving (.fetched c.returned.entry)) ∨
      settles c = false ∧ (afterCall source retry c.returned = .canceled ∨
        afterCall source retry c.returned = .leaving .failed ∨
        ∃ rest, afterCall source retry c.returned = .trying source rest) := by
  unfold settles afterCall
  rcases c.returned.err with _ | failure
  · exact .inl ⟨rfl,rfl⟩
  dsimp only
  rcases hcause : failure.cause with _ | err
  · exact .inl ⟨rfl,by simp [retry_of_no_cause hcause]⟩
  refine .inr ⟨rfl,?_⟩
  by_cases hc : some err = some Err.canceled
  · exact .inl (if_pos hc)
  by_cases hr : 0 ≤ failure.retry retry-1
  · exact .inr (.inr ⟨_,by rw [if_neg hc,if_pos hr]⟩)
  · exact .inr (.inl (by rw [if_neg hc,if_neg hr,if_neg (some_ne_none err)]))

theorem setFetchFailed_spec : FailedBy (setFetchFailed failedAt n) n ∧
      ∀ m, FailedBy failedAt m → FailedBy (setFetchFailed failedAt n) m := by
  rcases failedAt with _ | m
  · exact ⟨⟨n,rfl,le_rfl⟩,fun m ⟨_,hk,_⟩ => by cases hk⟩
  unfold setFetchFailed
  dsimp only
  split
  · rename_i hlt
    rw [lt_iff_toNat_lt] at hlt
    refine ⟨⟨n,rfl,le_rfl⟩,fun k ⟨j,hj,hle⟩ => ⟨n,rfl,?_⟩⟩
    cases hj
    omega
  · rename_i hlt
    rw [lt_iff_toNat_lt] at hlt
    exact ⟨⟨m,rfl,by omega⟩,fun k hk => hk⟩

variable {latest : UInt64} {upstream : Upstream}

theorem transferFetcher_inv
    (hb : HasNext upstream.full latest) : Inv cfg (transferFetcher upstream latest) where
  start_le := le_refl _
  ready_le := le_refl _
  source_stop := rfl
  source_start := le_refl _
  marks := by simp [transferFetcher]
  distinct := List.nodup_nil
  keys := by simp [transferFetcher]
  size := rfl
  entries := by
    intro n hn hd
    simp only [Done,transferFetcher,List.not_mem_nil,or_false] at hn hd
    omega
  started := List.nodup_nil
  below := by simp [transferFetcher]
  stages := by simp [transferFetcher]
  calls := by simp [transferFetcher]
  latest := hb
  growing := by simp [transferFetcher]
  answers := by simp [transferFetcher]
  outside := by simp [transferFetcher]

variable {f : Fetcher α β}

theorem growth_inv
    (h : Inv cfg f) : Inv cfg (growth cfg f) := by
  unfold growth
  split
  · exact h
  split
  · exact h
  split
  · refine {h with growing := fun last hlast => ?_}
    cases hlast
    have hle := atMost_mono (min (f.readyEnd+cfg.maxConcurrency-1) f.latest) f.latest f.full.stop
      (by rw [toNat_min]; omega)
    have hb := h.latest
    unfold HasNext at hb
    exact ⟨by unfold maxFetchBlock; omega,atMost_le.2⟩
  · exact h

theorem spawn_inv (h : Inv cfg f) {last : UInt64} (hg : last ∈ f.growing) : Inv cfg (spawn f last) := by
  unfold spawn
  split
  · rename_i hle
    rw [le_iff_toNat_le] at hle
    have hlast := h.growing last hg
    have hinc := toNat_inc f.fetchStart (by omega)
    have hready := h.ready_le
    have hfresh : ¬Done f.readyEnd f.fetched f.fetchStart := by
      rw [not_done]
      exact ⟨hready,fun hm => absurd (h.marks _ hm).2 (lt_irrefl _)⟩
    exact {h with
      ready_le := by
        dsimp only
        omega
      marks := by
        intro n hn
        have := h.marks n hn
        dsimp only
        omega
      started := by
        rw [List.map_append]
        refine h.started.append (by simp) ?_
        intro n hn hm
        obtain ⟨w,hw,rfl⟩ := List.mem_map.mp hn
        have hlt := (h.below w hw).1
        rw [show w.block = f.fetchStart by simpa using hm] at hlt
        exact lt_irrefl _ hlt
      below := by
        intro w hw
        dsimp only
        rcases mem_append.mp hw with hw | hw
        · have := h.below w hw
          omega
        rw [mem_singleton.mp hw]
        dsimp only
        omega
      stages := by
        intro w hw
        rcases mem_append.mp hw with hw | hw
        · exact h.stages w hw
        rw [mem_singleton.mp hw]
        refine ⟨hfresh,List.filter_eq_nil_iff.mpr (fun c hc hb => ?_)⟩
        have hlt := h.calls c hc
        rw [Bool.and_eq_true,decide_eq_true_iff] at hb
        rw [hb.1] at hlt
        exact lt_irrefl _ hlt
      calls := by
        intro c hc
        have := h.calls c hc
        dsimp only
        omega
      answers := by
        intro a ha hin
        obtain ⟨h1,h2,h3⟩ := h.answers a ha hin
        refine ⟨h1,h2,fun w hw hf => ?_⟩
        rcases mem_append.mp hw with hw | hw
        · exact h3 w hw hf
        rw [mem_singleton.mp hw]
        dsimp only
        omega}
  · exact {h with growing := by simp}

variable {i : ℕ}

/-- A worker whose block is not done moves on; the calls for other blocks stay. -/
theorem setStage_inv (h : Inv cfg f) (hw : f.workers[i]? = some w)
    (hd : ¬Done f.readyEnd f.fetched w.block)
    (hc : ∀ n, n ≠ w.block → settledCalls calls n = settledCalls f.calls n)
    (hb : ∀ c ∈ calls, c.block.toNat < f.fetchStart.toNat)
    (hs : StageInv cfg (Done f.readyEnd f.fetched w.block) calls f.fetchFailedAt w.block stage) :
    Inv cfg (setStage f calls i w.block stage) := by
  have hmem := mem_of_getElem? hw
  have hother := fun v => KeyedRows.mem_set_key Worker.block f.workers i w ⟨w.block,stage⟩ v
    h.started hw
  have hdone : ∀ n, Done f.readyEnd f.fetched n → n ≠ w.block := fun n hn he => hd (he ▸ hn)
  exact {h with
    entries := by
      intro n hn hdn
      exact (h.entries n hn hdn).imp_right (settled_congr (hc n (hdone n hdn)))
    started := by
      rw [setStage,KeyedRows.map_set_key Worker.block ⟨w.block,stage⟩ hw rfl]
      exact h.started
    below := by
      intro v hv
      rcases hother v hv with rfl | ⟨hv,_⟩
      · exact h.below w hmem
      · exact h.below v hv
    stages := by
      intro v hv
      rcases hother v hv with rfl | ⟨hv,hne⟩
      · exact hs
      · exact stageInv_congr id (hc v.block hne) id (h.stages v hv)
    calls := hb
    answers := by
      intro a ha hin
      obtain ⟨h1,h2,h3⟩ := h.answers a ha hin
      refine ⟨h1,settled_congr (hc _ (hdone _ (.inl h1))) h2,fun v hv hf => ?_⟩
      rcases hother v hv with rfl | ⟨hv,_⟩
      · have := (not_done.mp hd).1
        dsimp only
        omega
      · exact h3 v hv hf}

theorem read_inv (h : Inv cfg f) (hr : 0 ≤ cfg.maxRetry)
    (hw : f.workers[i]? = some w) (hst : w.stage = .reading) {got : Option α}
    (hget : f.upstream.get cfg.upstream w.block = some got) :
    Inv cfg (setStage f f.calls i w.block (afterRead cfg got)) := by
  have hmem := mem_of_getElem? hw
  have hs := h.stages w hmem
  rw [hst] at hs
  obtain ⟨hd,hnone⟩ := hs
  have hin : f.upstream.full.contains w.block := by
    have h1 := (not_done.mp hd).1
    have h2 := (h.below w hmem).2
    have h3 := h.source_start
    rw [inRange_iff,h.source_stop]
    omega
  have hsource : cfg.upstream w.block = got := by
    unfold Upstream.get at hget
    rw [hin] at hget
    simp only [Bool.not_true,Bool.false_eq_true,if_false] at hget
    split_ifs at hget
    exact some.inj hget
  apply setStage_inv h hw hd (fun _ _ => rfl) h.calls
  cases got with
  | none =>
    refine ⟨hd,?_⟩
    unfold Settled
    rw [hsource]
  | some source =>
    rw [afterRead,if_neg (by omega)]
    exact ⟨hd,hnone,hsource⟩

theorem call_inv (h : Inv cfg f) (hw : f.workers[i]? = some w) {source : α}
    (hst : w.stage = .trying source retry) {returned : Returned β} :
    Inv cfg (setStage f (f.calls++[⟨w.block,source,returned⟩]) i w.block
      (afterCall source retry returned)) := by
  have hmem := mem_of_getElem? hw
  have hs := h.stages w hmem
  rw [hst] at hs
  obtain ⟨hd,hnone,hsource⟩ := hs
  apply setStage_inv h hw hd
  · intro n hn
    simp [settledCalls_concat,Ne.symm hn]
  · intro c hc
    rcases mem_append.mp hc with hc | hc
    · exact h.calls c hc
    · rw [mem_singleton.mp hc]
      exact (h.below w hmem).1
  have hcalls := settledCalls_concat f.calls ⟨w.block,source,returned⟩ w.block
  rcases afterCall_spec ⟨w.block,source,returned⟩ with ⟨hset,ha⟩ | ⟨hset,ha⟩
  · rw [ha]
    refine ⟨hd,?_⟩
    unfold Settled
    rw [hsource,hcalls,hnone,hset]
    simp
  rw [hset,hnone] at hcalls
  rcases ha with ha | ha | ⟨rest,ha⟩
  · rw [ha]
    exact hd
  · rw [ha]
    exact hd
  · rw [ha]
    exact ⟨hd,by simpa using hcalls,hsource⟩

theorem advance_done (h : Inv cfg f) (hd : ¬Done f.readyEnd f.fetched n)
    (hn : n.toNat < f.fetchStart.toNat) (rounds : ℕ) :
    let moved := advance f.fetchStart rounds f.readyEnd (n::f.fetched.filter (fun m => m ≠ n))
    f.readyEnd.toNat ≤ moved.1.toNat ∧ moved.1.toNat ≤ f.fetchStart.toNat ∧
      (∀ m ∈ moved.2, moved.1.toNat ≤ m.toNat ∧ m.toNat < f.fetchStart.toNat) ∧
      ∀ m, Done moved.1 moved.2 m ↔ Done f.readyEnd f.fetched m ∨ m = n := by
  have hmarks : ∀ m, m ∈ n::f.fetched.filter (fun m => m ≠ n) ↔ m ∈ f.fetched ∨ m = n := by
    intro m
    by_cases he : m = n
    · simp [he]
    · simp [he]
  have hfrom : ∀ m, m ∈ f.fetched ∨ m = n →
      f.readyEnd.toNat ≤ m.toNat ∧ m.toNat < f.fetchStart.toNat := by
    rintro m (hm | rfl)
    · exact h.marks m hm
    · exact ⟨(not_done.mp hd).1,hn⟩
  obtain ⟨h1,h2,h3,h4⟩ := advance_spec f.readyEnd (n::f.fetched.filter (fun m => m ≠ n)) h.ready_le
  refine ⟨h1,h2,fun m hm => ?_,fun m => ?_⟩
  · rw [h4,hmarks] at hm
    have := hfrom m hm.1
    omega
  simp only [Done,h4,hmarks]
  by_cases hlow : m.toNat < f.readyEnd.toNat
  · exact ⟨fun _ => .inl (.inl hlow),fun _ => .inl (by omega)⟩
  by_cases hmoved : m.toNat < (advance f.fetchStart rounds f.readyEnd
      (n::f.fetched.filter (fun m => m ≠ n))).1.toNat
  · have := (hmarks m).mp (h3 m (by omega) hmoved)
    tauto
  · have := not_lt.mp hmoved
    tauto

/-- The critical section of a finished worker, for any change of the buffer and
of the lowest failed block that is about the block of the worker. -/
theorem inv_finished (h : Inv cfg f) (hw : f.workers[i]? = some w)
    (hd : ¬Done f.readyEnd f.fetched w.block) {outcome : Outcome β} {data : List (UInt64 × β)}
    {totalSize : ℤ} (hf : ∀ n, FailedBy f.fetchFailedAt n → FailedBy failedAt n)
    (hdistinct : (data.map fst).Nodup) (hkeys : ∀ e ∈ data, e ∈ f.data ∨ e.1 = w.block)
    (hsize : totalSize = sumSize cfg.size data)
    (hlookup : ∀ n, n ≠ w.block → lookup data n = lookup f.data n)
    (hentry : FailedBy failedAt w.block ∨ Settled cfg f.calls w.block (lookup data w.block))
    (hended : outcome = .failed → FailedBy failedAt w.block) {rounds : ℕ} :
    Inv cfg {f with
      fetchFailedAt := failedAt
      data := data
      totalSize := totalSize
      readyEnd := (advance f.fetchStart rounds f.readyEnd
        (w.block::f.fetched.filter (fun m => m ≠ w.block))).1
      fetched := (advance f.fetchStart rounds f.readyEnd
        (w.block::f.fetched.filter (fun m => m ≠ w.block))).2
      workers := f.workers.set i ⟨w.block,.ended outcome⟩} := by
  have hmem := mem_of_getElem? hw
  have hother := fun v => KeyedRows.mem_set_key Worker.block f.workers i w
    ⟨w.block,.ended outcome⟩ v h.started hw
  have hspec := advance_done h hd (h.below w hmem).1 rounds
  obtain ⟨h1,h2,hmarks,hdone⟩ := hspec
  have hstart := h.start_le
  have hsource := h.source_start
  have hpending := (not_done.mp hd).1
  exact {h with
    start_le := by
      dsimp only
      omega
    ready_le := h2
    source_start := by
      dsimp only
      omega
    marks := hmarks
    distinct := hdistinct
    keys := by
      intro e he
      rcases hkeys e he with hold | hnew
      · exact ⟨(h.keys e hold).1,(hdone _).mpr (.inl (h.keys e hold).2)⟩
      · exact ⟨by dsimp only; rw [hnew]; omega,(hdone _).mpr (.inr hnew)⟩
    size := hsize
    entries := by
      intro n hn hdn
      by_cases he : n = w.block
      · rw [he]
        exact hentry
      have hold := ((hdone n).mp hdn).resolve_right he
      rw [hlookup n he]
      exact (h.entries n hn hold).imp_left (hf n)
    started := by
      rw [KeyedRows.map_set_key Worker.block ⟨w.block,.ended outcome⟩ hw rfl]
      exact h.started
    below := by
      intro v hv
      rcases hother v hv with rfl | ⟨hv,_⟩
      · exact h.below w hmem
      · exact h.below v hv
    stages := by
      intro v hv
      rcases hother v hv with rfl | ⟨hv,hne⟩
      · cases outcome with
        | failed => exact hended rfl
        | fetched entry => trivial
      exact stageInv_congr
        (fun hold hnew => hold (((hdone _).mp hnew).resolve_right hne)) rfl (hf v.block)
        (h.stages v hv)
    answers := by
      intro a ha hin
      obtain ⟨ha1,ha2,ha3⟩ := h.answers a ha hin
      refine ⟨by dsimp only; omega,ha2,fun v hv hfailed => ?_⟩
      rcases hother v hv with rfl | ⟨hv,_⟩
      · dsimp only
        omega
      · exact ha3 v hv hfailed}

theorem lookup_upsert (rows : List (UInt64 × β)) (e : UInt64 × β) :
    lookup (KeyedRows.upsert fst rows e) n =
      if n = e.1 then some e.2 else lookup rows n := by
  rw [lookup,KeyedRows.lookup_upsert]
  split
  · rfl
  · rfl

theorem finish_inv
    (h : Inv cfg f) (hw : f.workers[i]? = some w) (outcome : Outcome β)
    (hst : w.stage = .leaving outcome) : Inv cfg (finish cfg f i w.block outcome) := by
  have hs := h.stages w (mem_of_getElem? hw)
  rw [hst] at hs
  cases outcome with
  | failed =>
    obtain ⟨hnew,hold⟩ := setFetchFailed_spec
    exact inv_finished h hw hs hold h.distinct
      (fun e he => .inl he) h.size (fun _ _ => rfl) (.inl hnew) (fun _ => hnew)
  | fetched entry =>
    obtain ⟨hd,hsettled⟩ := hs
    have hfresh : ∀ e ∈ f.data, e.1 ≠ w.block := fun e he heq => hd (heq ▸ (h.keys e he).2)
    rcases entry with _ | result
    · refine inv_finished h hw hd
        (fun _ hn => hn) h.distinct (fun e he => .inl he) h.size (fun _ _ => rfl) (.inr ?_)
        (fun he => by cases he)
      rw [lookup_absent hfresh]
      exact hsettled
    have happend : KeyedRows.upsert fst f.data (w.block,result) =
        f.data++[(w.block,result)] := by
      rw [KeyedRows.upsert,KeyedRows.erase,
        List.filter_eq_self.mpr (fun e he => by simpa using hfresh e he)]
    refine inv_finished h hw hd (fun _ hn => hn)
      (KeyedRows.nodup_upsert fst _ h.distinct) ?_ ?_ ?_ (.inr ?_)
      (fun he => by cases he)
    · intro e he
      rw [happend] at he
      rcases mem_append.mp he with he | he
      · exact .inl he
      · exact .inr (by rw [mem_singleton.mp he])
    · rw [happend,sumSize_append,← h.size]
      simp [sumSize,store]
    · intro n hn
      rw [lookup_upsert,if_neg hn]
    · rw [lookup_upsert,if_pos rfl]
      exact hsettled

theorem moveStart_inv
    (h : Inv cfg f) (start : UInt64) : Inv cfg (moveStart cfg f start) := by
  unfold moveStart
  split
  · exact h
  rename_i hlow
  have hs := clamped h.start_le hlow
  generalize (if f.readyEnd < start then f.readyEnd else start) = s at hs
  have hkept := kept_from f.data f.full.start s (fun e he => (h.keys e he).1)
  exact {h with
    start_le := hs.2
    distinct := h.distinct.sublist (List.filter_sublist.map _)
    keys := by
      intro e he
      exact ⟨(hkept e he).2,(h.keys e (hkept e he).1).2⟩
    size := by
      rw [h.size]
      exact (KeyedRows.sum_filter_split _ _ f.data).symm
    entries := by
      intro n hn hd
      dsimp only at hn ⊢
      rw [lookup_kept _ _ hn]
      exact h.entries n (by omega) hd
    outside := by
      intro a ha hout
      have := h.outside a ha hout
      dsimp only
      omega}

theorem get_inv (h : Inv cfg f) : Inv cfg (get f n) := by
  have hanswer : ∀ entry inFull, (inFull = true → n.toNat < f.readyEnd.toNat ∧
      Settled cfg f.calls n entry ∧ ∀ w ∈ f.workers, hasFailed w = true → n.toNat < w.block.toNat) →
      (inFull = false → n.toNat < f.full.start.toNat ∨ top f.full.stop < n.toNat) →
      Inv cfg {f with answers := f.answers++[⟨n,entry,f.latest,inFull⟩]} := by
    intro entry inFull ha ho
    refine {h with answers := fun a hm => ?_, outside := fun a hm => ?_}
    · rcases mem_append.mp hm with hm | hm
      · exact h.answers a hm
      · rw [mem_singleton.mp hm]
        exact ha
    rcases mem_append.mp hm with hm | hm
    · exact h.outside a hm
    · rw [mem_singleton.mp hm]
      exact ho
  unfold TransferModel.get
  split
  · rename_i hcontains
    apply hanswer none false (by simp)
    rw [Bool.not_eq_true',← Bool.not_eq_true,inRange_iff] at hcontains
    omega
  split
  · exact h
  split
  · exact h
  split
  · exact h
  rename_i hcontains _ hready hfailed
  rw [le_iff_toNat_le] at hready
  have hlow : f.full.start.toNat ≤ n.toNat := by
    rw [Bool.not_eq_true',Bool.not_eq_false,inRange_iff] at hcontains
    exact hcontains.1
  have hnot : ∀ m, n.toNat ≥ m.toNat → ¬FailedBy f.fetchFailedAt m := by
    rintro m hm ⟨k,hk,hle⟩
    apply hfailed
    rw [show f.fetchFailedAt = some k from hk]
    simp only [any_some,decide_eq_true_iff,le_iff_toNat_le]
    omega
  apply hanswer (lookup f.data n) true _ (by simp)
  intro _
  refine ⟨by omega,(h.entries n hlow (.inl (by omega))).resolve_left (hnot n le_rfl),?_⟩
  intro w hw hwf
  by_contra hge
  have hstage := h.stages w hw
  have hpending : ¬¬Done f.readyEnd f.fetched w.block := not_not.mpr (.inl (by omega))
  rcases failed_stage hwf hstage with hd | hby
  · exact hpending hd
  · exact hnot w.block (by omega) hby

theorem moveUpstream_start {u : Upstream} {start : UInt64} :
    (u.moveStart start).full.stop = u.full.stop ∧
      (u.moveStart start).full.start.toNat ≤ max u.full.start.toNat start.toNat := by
  unfold Upstream.moveStart
  split
  · exact ⟨rfl,le_max_left _ _⟩
  refine ⟨rfl,le_max_of_le_right ?_⟩
  split
  · rename_i hlt
    exact le_of_lt (lt_iff_toNat_lt.mp hlt)
  · exact le_refl _

theorem consumed_ready (h : Inv cfg f) {start : UInt64} (hc : Consumed f start) :
    start.toNat ≤ f.readyEnd.toNat := by
  have hstart := h.start_le
  rcases hc with hlow | ⟨a,ha,hnext,hstop⟩
  · rw [le_iff_toNat_le] at hlow
    omega
  have htop : a.block.toNat ≤ top f.full.stop := by
    cases hs : f.full.stop with
    | none => exact Nat.le_of_lt_succ (word_lt a.block)
    | some stop => exact le_iff_toNat_le.mp (hstop stop hs)
  cases hin : a.inFull with
  | true =>
    have := (h.answers a ha hin).1
    omega
  | false =>
    have := h.outside a ha hin
    omega

variable {e : Fetcher α β}

theorem locked_some {next : Option (Fetcher α β)} (h : locked f next = some e) : next = some e := by
  unfold locked at h
  split_ifs at h
  exact h

theorem workerStep_inv (hr : 0 ≤ cfg.maxRetry) (h : Inv cfg f) (hw : f.workers[i]? = some w)
    {action : Work β} (hs : workerStep cfg f i w action = some e) : Inv cfg e := by
  have hstage := h.stages w (mem_of_getElem? hw)
  cases action with
  | read =>
    simp only [workerStep] at hs
    split at hs
    · rename_i hst
      obtain ⟨got,hgot,rfl⟩ := map_eq_some_iff.mp hs
      exact read_inv h hr hw hst hgot
    · cases hs
  | refuse =>
    simp only [workerStep] at hs
    split at hs
    · rename_i hst
      rw [hst] at hstage
      rw [← some.inj hs]
      exact setStage_inv h hw hstage.1 (fun _ _ => rfl) h.calls hstage.1
    · cases hs
  | call returned =>
    simp only [workerStep] at hs
    split at hs
    · rename_i source retry hst
      rw [← some.inj hs]
      exact call_inv h hw hst
    · cases hs
  | cancel =>
    simp only [workerStep] at hs
    split at hs
    · rename_i hst
      rw [hst] at hstage
      split_ifs at hs
      rw [← some.inj hs]
      exact setStage_inv h hw hstage.1 (fun _ _ => rfl) h.calls hstage.1
    · cases hs
  | finish =>
    simp only [workerStep] at hs
    split at hs
    · rename_i outcome hst
      rw [← some.inj (locked_some hs)]
      exact finish_inv h hw outcome hst
    · cases hs

theorem step_inv (hr : 0 ≤ cfg.maxRetry)
    (event : Event β) (h : Inv cfg f)
    (hc : Careful f event) (hs : step cfg f event = some e) : Inv cfg e := by
  cases event with
  | growth => exact some.inj (locked_some hs) ▸ growth_inv h
  | spawn =>
    obtain ⟨last,hlast,rfl⟩ := map_eq_some_iff.mp hs
    exact spawn_inv h hlast
  | upstreamReady ready =>
    simp only [step] at hs
    split_ifs at hs
    rw [← some.inj hs]
    exact {h with}
  | work i action =>
    obtain ⟨w,hw,hs⟩ := bind_eq_some_iff.mp hs
    exact workerStep_inv hr h hw hs
  | moveUpstream start =>
    rw [← some.inj hs]
    obtain ⟨hstop,hstart⟩ := moveUpstream_start
    have hsource := h.source_start
    have hready := consumed_ready h hc
    exact {h with source_stop := hstop.trans h.source_stop, source_start := by dsimp only; omega}
  | moveStart start =>
    have hs := locked_some hs
    split_ifs at hs
    rw [← some.inj hs]
    apply moveStart_inv
    exact {h with}
  | updateLatest latest =>
    rw [← some.inj (locked_some hs)]
    exact {h with latest := hc}
  | broken =>
    rw [← some.inj (locked_some hs)]
    exact {h with}
  | get n => exact some.inj (locked_some hs) ▸ get_inv h

/-- In every run the cursors are in order, no block is transferred twice, and an answer for a
block of the full range is the result of its transfer, with every failed transfer above it. -/
theorem transfer_answers_what_was_transferred (cfg : Config α β)
    (upstream : Upstream) (latest : UInt64) (events : List (Event β))
    (e : Fetcher α β) (hr : 0 ≤ cfg.maxRetry) (hl : HasNext upstream.full latest)
    (hc : Throughout (step cfg) Careful
      (transferFetcher upstream latest) events)
    (h : run (step cfg) (transferFetcher upstream latest) events =
      some e) :
    e.full.start ≤ e.readyEnd ∧ e.readyEnd ≤ e.fetchStart ∧
      (∀ n ∈ e.fetched, e.readyEnd ≤ n ∧ n < e.fetchStart) ∧
      (∀ entry ∈ e.data, e.full.start ≤ entry.1 ∧ entry.1 < e.fetchStart) ∧
      e.totalSize = sumSize cfg.size e.data ∧
      (e.workers.map Worker.block).Nodup ∧
      ∀ a ∈ e.answers, a.inFull → Settled cfg e.calls a.block a.entry ∧
        ∀ w ∈ e.workers, hasFailed w → a.block < w.block := by
  have hinv := run_invariant_throughout (step cfg) Careful (Inv cfg)
    (fun f event e hf hc he => step_inv hr event hf hc he) events _ e
    (transferFetcher_inv hl) hc h
  simp only [lt_iff_toNat_lt]
  refine ⟨hinv.start_le,hinv.ready_le,hinv.marks,?_,hinv.size,hinv.started,?_⟩
  · intro entry he
    obtain ⟨hlow,hdone⟩ := hinv.keys entry he
    refine ⟨hlow,?_⟩
    rcases hdone with hlt | hm
    · have := hinv.ready_le
      omega
    · exact (hinv.marks _ hm).2
  · intro a ha hin
    exact (hinv.answers a ha hin).2

end

def numbered (maxRetry : ℤ) : Config ℕ ℤ :=
  ⟨fun n => if n = 6 then none else some n.toNat,id,0,3,100,100,maxRetry,1⟩

def growThree : List (Event ℤ) :=
  [.growth,.spawn,.spawn,.spawn,.spawn,.upstreamReady 8]

def outOfOrder : List (Event ℤ) :=
  growThree++[.work 2 .read,.work 2 (.call ⟨70,true,none⟩),.work 2 .finish,.get 5,
    .work 0 .read,.work 0 (.call ⟨0,false,some (.plain .failed)⟩),
    .work 0 (.call ⟨50,true,none⟩),.work 0 .finish,.get 5,.moveUpstream 6,.work 1 .read,
    .moveStart 6,.work 1 .finish,.get 6,.get 7]

theorem transfer_answers_out_of_order :
    ∃ e, run (step (numbered 2)) (transferFetcher ⟨⟨5,some 9⟩,5⟩ 7)
        outOfOrder = some e ∧
      e.answers = [⟨5,some 50,7,true⟩,⟨6,none,7,true⟩,⟨7,some 70,7,true⟩] ∧
      e.full.start ≤ e.readyEnd ∧ e.readyEnd ≤ e.fetchStart ∧
      (∀ n ∈ e.fetched, e.readyEnd ≤ n ∧ n < e.fetchStart) ∧
      (∀ entry ∈ e.data, e.full.start ≤ entry.1 ∧ entry.1 < e.fetchStart) ∧
      e.totalSize = sumSize (numbered 2).size e.data ∧
      (e.workers.map Worker.block).Nodup ∧
      ∀ a ∈ e.answers, a.inFull → Settled (numbered 2) e.calls a.block a.entry ∧
        ∀ w ∈ e.workers, hasFailed w → a.block < w.block :=
  ⟨_,rfl,rfl,transfer_answers_what_was_transferred (numbered 2) ⟨⟨5,some 9⟩,5⟩ 7 outOfOrder _
    (by decide) (by decide) (by decide) rfl⟩

/-- A `Get` above the end makes upstream drop blocks that are still to be read, the block after
the last word is zero, and without a try zero is answered. -/
theorem transfer_answers_unread_block :
    (∃ e, run (step (numbered 2)) (transferFetcher ⟨⟨5,some 9⟩,5⟩ 7)
        ([.get 20]++growThree++[.moveUpstream 21,.moveStart 21,.work 0 .read,.work 0 .finish,
          .get 5]) = some e ∧
      e.answers = [⟨20,none,7,false⟩,⟨5,none,7,true⟩] ∧
      ¬Settled (numbered 2) e.calls 5 none) ∧
    (∃ e, run (step (numbered 2))
        (transferFetcher ⟨⟨maxUint64-2,none⟩,5⟩ maxUint64)
        [.growth,.spawn,.spawn,.spawn] = some e ∧
      ¬e.readyEnd ≤ e.fetchStart) ∧
    ∃ e, run (step (numbered (-1))) (transferFetcher ⟨⟨5,some 9⟩,5⟩ 7)
        (growThree++[.work 0 .read,.work 0 .finish,.get 5]) = some e ∧
      e.answers = [⟨5,some 0,7,true⟩] ∧ ¬Settled (numbered (-1)) e.calls 5 (some 0) :=
  ⟨⟨_,rfl,rfl,by decide⟩,⟨_,rfl,by decide⟩,⟨_,rfl,rfl,by decide⟩⟩

end Sentio.TransferRuns
