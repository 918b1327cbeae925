import SentioCore.LogModel

/-!
# Merged log requirements

A merged filter accepts whatever one of its parts accepts, and the merged
requirements partition the blocks that any requirement covers.
-/

namespace Sentio.LogMerge
open RangeModel RangeHoles RangeCut LogModel List
open Option (some.inj)

theorem admits_iff (set : List String) (s : String) : admits set s ↔ set = [] ∨ s ∈ set := by
  simp [admits]

theorem topicsPass_iff (sets : List (List String)) (topics : List String) : topicsPass sets topics ↔
      ∀ (i : ℕ) set topic, sets[i]? = some set → topics[i]? = some topic → admits set topic := by
  induction sets generalizing topics with
  | nil => simp [topicsPass]
  | cons set sets ih =>
    rcases topics with _ | ⟨topic,topics⟩
    · simp [topicsPass]
    rw [topicsPass,Bool.and_eq_true,ih]
    constructor
    · intro h i s t hs ht
      cases i with
      | zero =>
        rw [← some.inj hs,← some.inj ht]
        exact h.1
      | succ i => exact h.2 i s t hs ht
    · intro h
      exact ⟨h 0 set topic rfl rfl,fun i s t hs ht => h (i+1) s t hs ht⟩

variable {lists : List (Option (List String))}

theorem unionOf_spec (s u : List String) (h : unionOf lists s = some u) :
    u = [] ∨ s ⊆ u ∧ ∀ l ∈ lists, ∃ ts, l = some ts ∧ ts ≠ [] ∧ ts ⊆ u := by
  induction lists generalizing s with
  | nil =>
    have : s = u := by simpa [unionOf] using h
    simp [this]
  | cons l rest ih =>
    match l, h with
    | some [], h => exact .inl (some.inj h).symm
    | some (t::ts), h =>
      apply (ih _ h).imp id
      intro ⟨hs,hr⟩
      refine ⟨fun x hx => hs (mem_union_iff.mpr (.inl hx)),fun l hl => ?_⟩
      rcases mem_cons.mp hl with rfl | hl
      · exact ⟨t::ts,rfl,by simp,fun x hx => hs (mem_union_iff.mpr (.inr hx))⟩
      · exact hr l hl

theorem union_admits {u ts : List String} {x : String} (h : unionOf lists [] = some u)
    (hl : some ts ∈ lists) (hx : admits ts x) : admits u x := by
  rw [admits_iff]
  apply (unionOf_spec [] u h).imp id
  intro ⟨_,hs⟩
  obtain ⟨ts',he,hn,hsub⟩ := hs _ hl
  rw [← some.inj he] at hn hsub
  exact hsub (((admits_iff ts x).mp hx).resolve_left hn)

variable {filters : List LogFilter} {f : LogFilter}

theorem mergeTopics_pass (hf : f ∈ filters)
    {topics : List String} (h : topicsPass f.topics topics) {fuel : ℕ} (i : ℕ) :
    topicsPass (mergeTopics filters fuel i) (topics.drop i) := by
  induction fuel generalizing i with
  | zero => simp [mergeTopics,topicsPass]
  | succ fuel ih =>
    rw [mergeTopics]
    split
    · simp [topicsPass]
    rename_i u hu
    rcases hd : topics.drop i with _ | ⟨topic,later⟩
    · simp [topicsPass]
    have ht : topics[i]? = some topic := by
      rw [← head?_drop,hd,head?_cons]
    have hl : topics.drop (i+1) = later := by
      rw [← tail_drop,hd,tail_cons]
    rw [topicsPass,Bool.and_eq_true,← hl]
    refine ⟨?_,ih (i+1)⟩
    have hm := mem_map_of_mem (f := fun f => f.topics[i]?) hf
    cases hs : f.topics[i]? with
    | some ts =>
      apply union_admits hu (hs ▸ hm)
      exact (topicsPass_iff _ _).mp h i ts topic hs ht
    | none =>
      rcases unionOf_spec [] u hu with rfl | ⟨_,ha⟩
      · simp [admits]
      · obtain ⟨ts,he,_⟩ := ha _ hm
        simp [hs] at he

variable {isERC20Address : String → Option Bool} {log : Log}

theorem buildChecker_true : buildChecker isERC20Address f log = some true ↔
      topicsPass f.topics log.topics ∧ admits f.address log.address ∧
        (f.addressShouldBeERC20 → isERC20Address log.address = some true) := by
  unfold buildChecker
  split_ifs <;> simp_all

theorem unionOf_present (lists : List (List String)) (s : List String) :
    (unionOf (lists.map some) s).isSome := by
  induction lists generalizing s with
  | nil => rfl
  | cons l rest ih =>
    cases l with
    | nil => rfl
    | cons t ts => exact ih _

theorem merged_accepts (hf : f ∈ filters) (h : buildChecker isERC20Address f log = some true) :
    buildChecker isERC20Address (mergeLogFilers filters) log = some true := by
  rw [buildChecker_true] at h ⊢
  refine ⟨mergeTopics_pass hf h.1 0,?_,fun hall => ?_⟩
  · have hp := unionOf_present (filters.map (fun f => f.address)) []
    rw [map_map] at hp
    obtain ⟨u,hu⟩ := Option.isSome_iff_exists.mp hp
    have hu' : unionOf (filters.map (fun f => some f.address)) [] = some u := hu
    simp only [mergeLogFilers,hu']
    exact union_admits hu' (mem_map.mpr ⟨f,hf,rfl⟩) h.2.1
  · exact h.2.2 (all_eq_true.mp hall f hf)

variable {reqs : List LogRequirement} {r : Range}

theorem mem_filtersOver : f ∈ filtersOver reqs r ↔
      ∃ req ∈ reqs, req.blockRange.includes r ∧ req.filter = f := by
  simp [filtersOver,and_assoc]

variable {p : LogRequirement}

theorem requirementOver_eq_some : requirementOver reqs r = some p ↔
      filtersOver reqs r ≠ [] ∧ p = ⟨r,mergeLogFilers (filtersOver reqs r)⟩ := by
  by_cases h : filtersOver reqs r = []
  · simp [requirementOver,h]
  simp only [requirementOver,List.isEmpty_iff,h,if_false,Option.some.injEq,ne_eq,
    not_false_eq_true,true_and]
  exact eq_comm

variable {current : UInt64}

theorem mem_mergeLogRequirements : p ∈ mergeLogRequirements current reqs ↔
      ∃ r ∈ cutRangeSet current (reqs.map (fun req => req.blockRange)),
        filtersOver reqs r ≠ [] ∧ p = ⟨r,mergeLogFilers (filtersOver reqs r)⟩ := by
  simp [mergeLogRequirements,mem_filterMap,requirementOver_eq_some]

theorem merged_disjoint : (mergeLogRequirements current reqs).Pairwise (fun p q =>
      ∀ n, ¬(p.blockRange.contains n ∧ q.blockRange.contains n)) := by
  rw [mergeLogRequirements,pairwise_filterMap]
  apply (cut_separated current).imp
  intro r s hrs p hp q hq n
  rw [(requirementOver_eq_some.mp hp).2,(requirementOver_eq_some.mp hq).2]
  exact separated_contains hrs

/-- A covered block has exactly one merged requirement, which accepts what any requirement of the
block accepts, and no other block has one. -/
theorem merged_requirements_partition (isERC20Address : String → Option Bool) (current : UInt64)
    (reqs : List LogRequirement) (hb : ∀ req ∈ reqs, Bounded req.blockRange) :
    (mergeLogRequirements current reqs).Pairwise (fun p q =>
      ∀ n, ¬(p.blockRange.contains n ∧ q.blockRange.contains n)) ∧
    ∀ n, current ≤ n →
      ((∃ req ∈ reqs, req.blockRange.contains n) →
        ∃ p, (mergeLogRequirements current reqs).filter (fun q => q.blockRange.contains n) = [p] ∧
          ∀ req ∈ reqs, req.blockRange.contains n → ∀ log,
            buildChecker isERC20Address req.filter log = some true →
            buildChecker isERC20Address p.filter log = some true) ∧
      ((¬∃ req ∈ reqs, req.blockRange.contains n) →
        ∀ p ∈ mergeLogRequirements current reqs, p.blockRange.contains n = false) := by
  refine ⟨merged_disjoint,fun n hn => ⟨?_,?_⟩⟩
  · intro ⟨req,hreq,hc⟩
    have hn' := UInt64.le_iff_toNat_le.mp hn
    obtain ⟨r,hr,hrn⟩ := cut_cover (mem_map_of_mem hreq) (hb req hreq) hn' hc
    have applies : ∀ a ∈ reqs, a.blockRange.contains n → a.filter ∈ filtersOver reqs r := by
      intro a ha hac
      rw [mem_filtersOver]
      exact ⟨a,ha,cut_includes (mem_map_of_mem ha) (hb a ha) hr hn' hac hrn,rfl⟩
    refine ⟨⟨r,mergeLogFilers (filtersOver reqs r)⟩,?_,?_⟩
    · refine KeyedRows.filter_eq_singleton (fun q : LogRequirement => q.blockRange.contains n) _ _ ?_
        hrn
        (merged_disjoint.imp (fun h => h n))
      rw [mem_mergeLogRequirements]
      exact ⟨r,hr,ne_nil_of_mem (applies req hreq hc),rfl⟩
    · intro a ha hac log hlog
      exact merged_accepts (applies a ha hac) hlog
  · intro hnone p hp
    obtain ⟨r,_,hne,rfl⟩ := mem_mergeLogRequirements.mp hp
    obtain ⟨f,hf⟩ := exists_mem_of_ne_nil _ hne
    obtain ⟨req,hreq,hi,_⟩ := mem_filtersOver.mp hf
    rw [Bool.eq_false_iff]
    intro hpn
    exact hnone ⟨req,hreq,includes_contains (hb req hreq) hpn hi⟩

def overlapping : List LogRequirement :=
  [⟨⟨5,some 20⟩,⟨[["transfer"]],["a"],false⟩⟩,⟨⟨10,none⟩,⟨[["approval"]],["b"],false⟩⟩]

theorem merged_requirements_overlapping :
    (mergeLogRequirements 7 overlapping).map (fun p => p.blockRange) =
      [⟨7,some 9⟩,⟨10,some 20⟩,⟨21,none⟩] ∧
    ∃ p, (mergeLogRequirements 7 overlapping).filter (fun q => q.blockRange.contains 12) = [p] ∧
      ∀ req ∈ overlapping, req.blockRange.contains 12 → ∀ log,
        buildChecker (fun _ => none) req.filter log = some true →
        buildChecker (fun _ => none) p.filter log = some true :=
  ⟨by decide,((merged_requirements_partition (fun _ => none) 7 overlapping
    (by simp [overlapping,Bounded,maxUint64])).2 12 (by decide)).1
    ⟨⟨⟨5,some 20⟩,⟨[["transfer"]],["a"],false⟩⟩,by simp [overlapping],by decide⟩⟩

end Sentio.LogMerge
