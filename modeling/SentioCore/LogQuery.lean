import SentioCore.LogMerge

/-!
# Log queries with dropped lists

A list that is too long for the node is dropped from the query and left to the
local filter.
-/

namespace Sentio.LogQuery
open LogModel LogMerge
open Option (some.inj some.injEq map_some)

def erc20Demand (isERC20Address : String → Option Bool) (f : LogFilter) (log : Log) : Option Bool :=
  if f.addressShouldBeERC20 then isERC20Address log.address else some true

/-- A log of the weakened answer that the local filter does not reject and that
ends before the position of a dropped topic list. -/
structure Overlooked (isERC20Address : String → Option Bool) (limits : QueryLimits)
    (f : LogFilter) (log : Log) : Prop where
  answered : nodeChecker (dropOversized limits.maxAddressLen f.address)
    (f.topics.map (dropOversized limits.maxTopicLen)) log
  passed : buildChecker isERC20Address f log ≠ some false
  short : ∃ i set, f.topics[i]? = some set ∧ limits.maxTopicLen < set.length ∧
    log.topics.length ≤ i

theorem topicsMatch_iff {sets : List (List String)} {topics : List String} :
    topicsMatch sets topics ↔
      ∀ (i : ℕ) set, sets[i]? = some set →
        set = [] ∨ ∃ topic, topics[i]? = some topic ∧ topic ∈ set := by
  induction sets generalizing topics with
  | nil => simp [topicsMatch]
  | cons set sets ih =>
    cases topics with
    | nil =>
      rw [topicsMatch,Bool.and_eq_true,ih,List.isEmpty_iff]
      constructor
      · intro h i s hs
        cases i with
        | zero =>
          rw [← some.inj hs]
          exact .inl h.1
        | succ i => simpa using h.2 i s hs
      · intro h
        exact ⟨by simpa using h 0 set rfl,fun i s hs => by simpa using h (i+1) s hs⟩
    | cons topic topics =>
      rw [topicsMatch,Bool.and_eq_true,ih,admits_iff]
      constructor
      · intro h i s hs
        cases i with
        | zero =>
          rw [← some.inj hs]
          exact h.1.imp id (fun h => ⟨topic,rfl,h⟩)
        | succ i => exact h.2 i s hs
      · intro h
        refine ⟨(h 0 set rfl).imp id ?_,fun i s hs => h (i+1) s hs⟩
        intro ⟨t,ht,hm⟩
        rwa [some.inj ht]

variable {sets : List (List String)} {topics : List String}

theorem topicsMatch_pass (h : topicsMatch sets topics) : topicsPass sets topics := by
  rw [topicsPass_iff]
  intro i set topic hs ht
  rw [admits_iff]
  apply (topicsMatch_iff.mp h i set hs).imp id
  intro ⟨t,ht',hm⟩
  rw [ht] at ht'
  rwa [some.inj ht']

variable {f : LogFilter} {log : Log} (isERC20Address : String → Option Bool)

theorem checker_of_node (h : nodeChecker f.address f.topics log) :
    buildChecker isERC20Address f log = erc20Demand isERC20Address f log := by
  rw [nodeChecker,Bool.and_eq_true] at h
  simp [buildChecker,erc20Demand,h.1,topicsMatch_pass h.2]

variable (limit : ℕ)

theorem dropOversized_cases (set : List String) :
    dropOversized limit set = [] ∧ limit < set.length ∨ dropOversized limit set = set := by
  unfold dropOversized
  split_ifs with h
  · exact .inl ⟨rfl,h⟩
  · exact .inr rfl

theorem admits_dropOversized {set : List String} {s : String}
    (h : admits set s) : admits (dropOversized limit set) s := by
  rcases dropOversized_cases limit set with ⟨he,_⟩ | he
  · simp [he,admits]
  · rwa [he]

theorem topicsMatch_dropOversized (h : topicsMatch sets topics) :
    topicsMatch (sets.map (dropOversized limit)) topics := by
  rw [topicsMatch_iff] at h ⊢
  intro i set hs
  rw [List.getElem?_map,Option.map_eq_some_iff] at hs
  obtain ⟨full,hf,rfl⟩ := hs
  rcases dropOversized_cases limit full with ⟨he,_⟩ | he
  · exact .inl he
  · rw [he]
    exact h i full hf

variable {limits : QueryLimits}

theorem node_weakened (h : nodeChecker f.address f.topics log) :
    nodeChecker (dropOversized limits.maxAddressLen f.address)
      (f.topics.map (dropOversized limits.maxTopicLen)) log := by
  rw [nodeChecker,Bool.and_eq_true] at h ⊢
  exact ⟨admits_dropOversized _ h.1,topicsMatch_dropOversized _ h.2⟩

theorem passed_parts {isERC20Address : String → Option Bool}
    (h : buildChecker isERC20Address f log ≠ some false) :
    topicsPass f.topics log.topics ∧ admits f.address log.address := by
  unfold buildChecker at h
  split_ifs at h <;> simp_all

/-- What the weakened query adds, and the local filter does not take away, are
the overlooked logs. -/
theorem added_iff_overlooked : Overlooked isERC20Address limits f log ↔
      nodeChecker (dropOversized limits.maxAddressLen f.address)
        (f.topics.map (dropOversized limits.maxTopicLen)) log ∧
      nodeChecker f.address f.topics log = false ∧
      buildChecker isERC20Address f log ≠ some false := by
  constructor
  · intro ⟨hw,hp,i,set,hs,hl,hi⟩
    refine ⟨hw,Bool.eq_false_iff.mpr (fun h => ?_),hp⟩
    rw [nodeChecker,Bool.and_eq_true] at h
    rcases topicsMatch_iff.mp h.2 i set hs with rfl | ⟨t,ht,_⟩
    · simp at hl
    · simp [List.getElem?_eq_none hi] at ht
  intro ⟨hw,hn,hp⟩
  obtain ⟨hpt,hpa⟩ := passed_parts hp
  have hf : ¬topicsMatch f.topics log.topics := by
    intro h
    simp [nodeChecker,hpa,h] at hn
  rw [topicsMatch_iff] at hf
  push Not at hf
  obtain ⟨i,set,hs,hne,ht⟩ := hf
  have hi : log.topics.length ≤ i := by
    by_contra hi
    have he := List.getElem?_eq_getElem (Nat.lt_of_not_le hi)
    have := (topicsPass_iff _ _).mp hpt i set _ hs he
    exact ht _ he (((admits_iff _ _).mp this).resolve_left hne)
  refine ⟨hw,hp,i,set,hs,?_,hi⟩
  rcases dropOversized_cases limits.maxTopicLen set with ⟨_,hl⟩ | he
  · exact hl
  rw [nodeChecker,Bool.and_eq_true,topicsMatch_iff] at hw
  have hw' := hw.2 i set (by rw [List.getElem?_map,hs,map_some,he])
  rcases hw' with rfl | ⟨t,htt,_⟩
  · exact absurd rfl hne
  · simp [List.getElem?_eq_none hi] at htt

section
variable {α : Type} (check : α → Option Bool) (weak full : α → Bool)

theorem filterArrWithErr_length (hwf : ∀ a, full a → weak a) {l : List α} (x : List α)
    (h : filterArrWithErr check (l.filter weak) = some x) :
    ∃ y, filterArrWithErr check (l.filter full) = some y ∧ y.length ≤ x.length := by
  induction l generalizing x with
  | nil => exact ⟨[],rfl,by simp⟩
  | cons a l ih =>
    by_cases hw : weak a
    · rw [List.filter_cons_of_pos hw,filterArrWithErr] at h
      rcases hc : check a with _ | ok
      · simp [hc] at h
      rw [hc,Option.map_eq_some_iff] at h
      obtain ⟨x',hx',rfl⟩ := h
      obtain ⟨y,hy,hl⟩ := ih x' hx'
      by_cases hf : full a
      · refine ⟨if ok then a::y else y,?_,?_⟩
        · simp [List.filter_cons_of_pos hf,filterArrWithErr,hc,hy]
        · cases ok <;> simp [hl]
      refine ⟨y,by rw [List.filter_cons_of_neg hf,hy],?_⟩
      cases ok
      · exact hl
      · exact Nat.le_succ_of_le hl
    · have hf : ¬full a := fun hf => hw (hwf a hf)
      rw [List.filter_cons_of_neg hw] at h
      rw [List.filter_cons_of_neg hf]
      exact ih x h

theorem filterArrWithErr_eq_iff (hwf : ∀ a, full a → weak a) (l : List α) :
    filterArrWithErr check (l.filter weak) = filterArrWithErr check (l.filter full) ↔
      filterArrWithErr check (l.filter full) = none ∨
        ∀ a ∈ l, weak a → full a = false → check a = some false := by
  induction l with
  | nil => simp
  | cons a l ih =>
    by_cases hw : weak a
    · by_cases hf : full a
      · simp only [List.filter_cons_of_pos hw,List.filter_cons_of_pos hf,filterArrWithErr]
        rcases hc : check a with _ | ok
        · simp
        have hinj : Function.Injective (fun r => if ok then a::r else r) := by
          intro x y hxy
          cases ok <;> simpa using hxy
        simp only [(Option.map_injective hinj).eq_iff,ih,
          List.forall_mem_cons,hf]
        simp
      simp only [List.filter_cons_of_pos hw,List.filter_cons_of_neg hf,filterArrWithErr,
        List.forall_mem_cons,hw] at hf ⊢
      rcases hc : check a with _ | ok
      · simp only [hf,forall_true_left,reduceCtorEq,false_and,or_false]
        exact eq_comm
      rcases ok with _ | _
      · simp [ih]
      simp only [hf,if_true,some.injEq,forall_true_left,Bool.true_eq_false,
        false_and,or_false]
      constructor
      · intro h
        rcases hx : filterArrWithErr check (l.filter weak) with _ | x
        · simpa [hx] using h.symm
        obtain ⟨y,hy,hl⟩ := filterArrWithErr_length check weak full hwf x hx
        rw [hx,hy,map_some,some.injEq] at h
        rw [← h,List.length_cons] at hl
        omega
      · intro h
        cases hx : filterArrWithErr check (l.filter weak) with
        | none => simp [h]
        | some x =>
          obtain ⟨y,hy,_⟩ := filterArrWithErr_length check weak full hwf x hx
          simp [h] at hy
    · have hf : ¬full a := fun hf => hw (hwf a hf)
      simp [List.filter_cons_of_neg hf,ih,hw]

end

theorem filterArrWithErr_congr {α : Type} {f g : α → Option Bool} {l : List α}
    (h : ∀ a ∈ l, f a = g a) : filterArrWithErr f l = filterArrWithErr g l := by
  induction l with
  | nil => rfl
  | cons a l ih =>
    rw [filterArrWithErr,filterArrWithErr,h a (by simp),ih (fun b hb => h b (by simp [hb]))]

theorem checkAny_single : checkAny isERC20Address log [f] = buildChecker isERC20Address f log := by
  rw [checkAny]
  split <;> simp_all [checkAny]

theorem full_answer_kept (chain : List Log) {start stop : UInt64} :
    filterLogs isERC20Address (getLogs chain start stop f.address f.topics) [f] =
      filterArrWithErr (erc20Demand isERC20Address f)
        (getLogs chain start stop f.address f.topics) := by
  apply filterArrWithErr_congr
  intro log hlog
  rw [checkAny_single]
  apply checker_of_node
  have := (List.mem_filter.mp hlog).2
  simp_all

/-- The kept logs are those of the full query, up to the ERC20 demand left to the driver, exactly
when none is overlooked or the demand fails on the full answer. -/
theorem query_keeps_full_answer_iff (isERC20Address : String → Option Bool) (limits : QueryLimits)
    (chain : List Log) (req : LogRequirement) (start stop : UInt64) :
    queryLogs isERC20Address limits chain req start stop =
        filterArrWithErr (erc20Demand isERC20Address req.filter)
          (getLogs chain start stop req.filter.address req.filter.topics) ↔
      filterArrWithErr (erc20Demand isERC20Address req.filter)
          (getLogs chain start stop req.filter.address req.filter.topics) = none ∨
        ∀ log ∈ chain, start ≤ log.blockNumber → log.blockNumber ≤ stop →
          ¬Overlooked isERC20Address limits req.filter log := by
  rw [← full_answer_kept]
  have h := filterArrWithErr_eq_iff (fun log => checkAny isERC20Address log [req.filter])
    (fun log => start ≤ log.blockNumber && log.blockNumber ≤ stop &&
      nodeChecker (dropOversized limits.maxAddressLen req.filter.address)
        (req.filter.topics.map (dropOversized limits.maxTopicLen)) log)
    (fun log => start ≤ log.blockNumber && log.blockNumber ≤ stop &&
      nodeChecker req.filter.address req.filter.topics log)
    (fun log hl => by
      rw [Bool.and_eq_true] at hl ⊢
      exact ⟨hl.1,node_weakened hl.2⟩) chain
  refine h.trans (or_congr Iff.rfl (forall_congr' fun log => forall_congr' fun _ => ?_))
  rw [added_iff_overlooked,checkAny_single]
  by_cases h1 : start ≤ log.blockNumber <;> by_cases h2 : log.blockNumber ≤ stop <;>
    simp [h1,h2]

def oversizedTopics : LogRequirement :=
  ⟨⟨0,none⟩,⟨[["transfer"],(List.range 101).map toString],[],false⟩⟩

/-- The log has one topic, so the node would not return it for the full query. -/
theorem short_log_kept :
    queryLogs (fun _ => some true) ethGetLogsLimits [⟨5, "token",["transfer"]⟩] oversizedTopics
        0 10 = some [⟨5, "token",["transfer"]⟩] ∧
      getLogs [⟨5, "token",["transfer"]⟩] 0 10 oversizedTopics.filter.address
        oversizedTopics.filter.topics = [] := by
  decide

end Sentio.LogQuery
