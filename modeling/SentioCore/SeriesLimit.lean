import SentioCore.KeyedRows
import SentioCore.Transition

/-!
# The series limits of concurrent inserts

The inserts of one `AppendData` call record their series counts in one map. An
insert with new series sums the map after recording, the others never check it.
-/

namespace Sentio.SeriesLimit
open KeyedRows Transition
open Function (update)

inductive MetaType
  | counter | gauge | event
  deriving DecidableEq

/-- A metric, with the series that the storage has of it on the chain of the call. -/
structure Meta where
  fullName : String
  type : MetaType
  aggregated : Bool := false
  hasLabels : Bool := true
  stored : ℕ

/-- A dataset with rows, counted by the series cache of its metric. -/
structure Dataset extends Meta where
  overLimitOnLoad : Bool := false
  existingCount : ℕ
  newCount : ℕ

structure SeriesCount where
  key : String
  count : ℕ

structure Store where
  seriesLimitPerMetric : ℕ
  seriesLimitTotal : ℕ
  metas : List Meta
  seriesCount : List SeriesCount
  seriesCountLoadedChains : List String

def seriesCountKey (m : Meta) (chainID : String) : String := m.fullName++"@"++chainID

def ensureSeriesCountsLoaded (s : Store) (chainID : String) (skipNames : List String) :
    List SeriesCount :=
  if chainID ∈ s.seriesCountLoadedChains then s.seriesCount
  else s.metas.foldl (fun counts m =>
    if m.type = .event ∨ m.aggregated ∨ m.fullName ∈ skipNames ∨
        (lookup SeriesCount.key counts (seriesCountKey m chainID)).isSome ∨ ¬m.hasLabels ∨
        s.seriesLimitPerMetric < m.stored then counts
    else upsert SeriesCount.key counts ⟨seriesCountKey m chainID,m.stored⟩) s.seriesCount

inductive Phase
  | ready | recorded | inserting | succeeded | failed
  deriving DecidableEq

structure Call where
  seriesCount : List SeriesCount
  phase : ℕ → Phase

def total (counts : List SeriesCount) : ℕ := (counts.map SeriesCount.count).sum

section
variable (s : Store) (chainID : String) (data : List Dataset)

/-- The limits are not enforced on a metric that was over them when it was loaded. -/
def limited (ds : Dataset) : Bool :=
  match ds.type with
  | .counter => ds.existingCount ≤ s.seriesLimitPerMetric
  | .gauge => ds.hasLabels && !ds.overLimitOnLoad
  | .event => false

/-- `checkSeriesLimit` up to its sum, which locks the map for itself. -/
def checkSeriesLimit (c : Call) (i : ℕ) (ds : Dataset) : Call :=
  let counts := upsert SeriesCount.key c.seriesCount
    ⟨seriesCountKey ds.toMeta chainID,ds.existingCount+ds.newCount⟩
  if ds.newCount = 0 then ⟨counts,update c.phase i .inserting⟩
  else if s.seriesLimitPerMetric < ds.existingCount+ds.newCount then
    {c with phase := update c.phase i .failed}
  else ⟨counts,update c.phase i .recorded⟩

/-- The next step of one insert; `ok` is the answer of the storage to its rows. -/
def insertData (c : Call) (i : ℕ) (ok : Bool) (ds : Dataset) : Phase → Option Call
  | .ready => some (if limited s ds then checkSeriesLimit s chainID c i ds
      else {c with phase := update c.phase i .inserting})
  | .recorded =>
    let next := if s.seriesLimitTotal < total c.seriesCount then .failed else .inserting
    some {c with phase := update c.phase i next}
  | .inserting => some {c with phase := update c.phase i (if ok then .succeeded else .failed)}
  | .succeeded | .failed => none

def step (c : Call) (act : ℕ × Bool) : Option Call :=
  data[act.1]?.bind (fun ds => insertData s chainID c act.1 act.2 ds (c.phase act.1))

def appendData : Call :=
  ⟨ensureSeriesCountsLoaded s chainID (data.map (·.fullName)),fun _ => .ready⟩

def Succeeded (c : Call) : Prop := ∀ i < data.length, c.phase i = .succeeded

def Gains (ds : Dataset) : Prop := limited s ds ∧ ds.newCount ≠ 0

def recordedCount (counts : List SeriesCount) (key : String) : ℕ :=
  ((lookup SeriesCount.key counts key).map SeriesCount.count).getD 0

/-- An insert without new series records no more than the map has of its metric. -/
def Steady (c : Call) (act : ℕ × Bool) : Prop :=
  ∀ ds ∈ data[act.1]?, c.phase act.1 = .ready → limited s ds → ds.newCount = 0 →
    ds.existingCount ≤ recordedCount c.seriesCount (seriesCountKey ds.toMeta chainID)

instance (c : Call) (act : ℕ × Bool) : Decidable (Steady s chainID data c act) :=
  inferInstanceAs (Decidable (∀ ds ∈ data[act.1]?, _))

/-- Once an insert with new series has left its start, the total is within the
limit, unless a check is still to come or an insert has failed. -/
def Inv (c : Call) : Prop :=
  total c.seriesCount ≤ s.seriesLimitTotal ∨
    (∃ i < data.length, c.phase i = .recorded ∨ c.phase i = .failed) ∨
    ∀ i, ∀ ds ∈ data[i]?, Gains s ds → c.phase i = .ready

end

theorem total_erase (counts : List SeriesCount) (key : String) :
    total (erase SeriesCount.key counts key)+recordedCount counts key ≤ total counts := by
  induction counts with
  | nil => rfl
  | cons a rest ih =>
    by_cases h : a.key = key
    · simp [total,erase,recordedCount,lookup,h] at ih ⊢
      omega
    · simp [total,erase,recordedCount,lookup,h] at ih ⊢
      omega

theorem total_upsert {counts : List SeriesCount} {a : SeriesCount}
    (h : a.count ≤ recordedCount counts a.key) :
    total (upsert SeriesCount.key counts a) ≤ total counts := by
  have he := total_erase counts a.key
  simp only [upsert,total,List.map_append,List.sum_append] at he ⊢
  simp only [List.map_singleton,List.sum_singleton]
  omega

variable {s : Store} {chainID : String} {data : List Dataset} {c : Call} {i : ℕ}

theorem quiet_inv {counts : List SeriesCount} {p : Phase} (h : Inv s data c)
    (ht : total counts ≤ total c.seriesCount) (hr : c.phase i ≠ .recorded)
    (hf : c.phase i ≠ .failed) (hg : ∀ ds ∈ data[i]?, Gains s ds → c.phase i ≠ .ready) :
    Inv s data ⟨counts,update c.phase i p⟩ := by
  rcases h with h | ⟨j,hj,h⟩ | h
  · exact .inl (ht.trans h)
  · have hne : j ≠ i := by
      rintro rfl
      exact h.elim hr hf
    exact .inr (.inl ⟨j,hj,by simpa [hne] using h⟩)
  · refine .inr (.inr fun j ds hd hds => ?_)
    have hne : j ≠ i := by
      rintro rfl
      exact hg ds hd hds (h j ds hd hds)
    simpa [hne] using h j ds hd hds

theorem step_inv (c : Call) (act : ℕ × Bool) (t : Call) (h : Inv s data c)
    (hs : Steady s chainID data c act) (ht : step s chainID data c act = some t) :
    Inv s data t := by
  obtain ⟨ds,hd,ht⟩ := Option.bind_eq_some_iff.mp ht
  have hlt := (List.getElem?_eq_some_iff.mp hd).1
  have hcheck : ∀ counts p, (p = .recorded ∨ p = .failed) →
      Inv s data ⟨counts,update c.phase act.1 p⟩ := fun _ _ hp =>
    .inr (.inl ⟨act.1,hlt,by simpa using hp⟩)
  cases hp : c.phase act.1 <;> rw [hp] at ht <;> cases ht
  case ready =>
    split
    · rename_i hl
      unfold checkSeriesLimit
      split_ifs with hn hm
      · refine quiet_inv h (total_upsert ?_) (by simp [hp]) (by simp [hp]) ?_
        · rw [hn]
          exact hs ds hd hp hl hn
        rintro _ he hg
        cases hd.symm.trans he
        exact absurd hn hg.2
      · exact hcheck _ _ (.inr rfl)
      · exact hcheck _ _ (.inl rfl)
    · rename_i hl
      refine quiet_inv h le_rfl (by simp [hp]) (by simp [hp]) ?_
      rintro _ he hg
      cases hd.symm.trans he
      exact absurd hg.1 hl
  case recorded =>
    split_ifs with hl
    · exact hcheck _ _ (.inr rfl)
    · exact .inl (not_lt.mp hl)
  case inserting => exact quiet_inv h le_rfl (by simp [hp]) (by simp [hp]) (by simp [hp])

/-- A call that succeeds with a new series keeps the recorded counts within the
total limit, if no insert without new series raises the count of its metric. -/
theorem appendData_total_le (s : Store) (chainID : String) (data : List Dataset)
    (acts : List (ℕ × Bool)) (c : Call)
    (hsteady : Throughout (step s chainID data) (Steady s chainID data)
      (appendData s chainID data) acts)
    (h : run (step s chainID data) (appendData s chainID data) acts = some c)
    (hsucceeded : Succeeded data c) (hgain : ∃ ds ∈ data, Gains s ds) :
    total c.seriesCount ≤ s.seriesLimitTotal := by
  have hinv := run_invariant_throughout (step s chainID data) _ (Inv s data) step_inv acts _ c
    (.inr (.inr fun _ _ _ _ => rfl)) hsteady h
  rcases hinv with h | ⟨i,hi,h⟩ | h
  · exact h
  · rw [hsucceeded i hi] at h
    rcases h with h | h <;> cases h
  · obtain ⟨ds,hd,hg⟩ := hgain
    obtain ⟨i,hi,rfl⟩ := List.getElem_of_mem hd
    have hr := h i _ (List.getElem?_eq_getElem hi) hg
    rw [hsucceeded i hi] at hr
    cases hr

def grown : Dataset := ⟨⟨"a",.counter,false,true,0⟩,false,0,1⟩

def kept : Dataset := ⟨⟨"b",.counter,false,true,100⟩,false,100,0⟩

/-- A store just after a restart. -/
def restarted : Store := ⟨100,100,[grown.toMeta,kept.toMeta],[],[]⟩

/-- The counts of the chain are loaded, and the limit leaves room for one new series. -/
def loaded : Store := ⟨100,101,[grown.toMeta,kept.toMeta],[⟨"b@1",100⟩],["1"]⟩

/-- The insert without new series records its count between the record and the check of the
other one. -/
theorem appendData_total_interleaved : ∃ c,
    run (step loaded "1" [grown,kept]) (appendData loaded "1" [grown,kept])
      [(0,true),(1,true),(0,true),(1,true),(0,true)] = some c ∧
    recordedCount c.seriesCount "b@1" = 100 ∧ total c.seriesCount ≤ 101 := by
  have hend : (run (step loaded "1" [grown,kept]) (appendData loaded "1" [grown,kept])
      [(0,true),(1,true),(0,true),(1,true),(0,true)]).map
      (fun c => (c.phase 0,c.phase 1,recordedCount c.seriesCount "b@1")) =
        some (.succeeded,.succeeded,100) := by decide +kernel
  obtain ⟨c,hc,he⟩ := Option.map_eq_some_iff.mp hend
  simp only [Prod.mk.injEq] at he
  refine ⟨c,hc,he.2.2,appendData_total_le loaded "1" [grown,kept] _ c (by decide +kernel) hc ?_
    ⟨grown,by simp,rfl,by decide⟩⟩
  intro i hi
  have hi' : i < 2 := hi
  interval_cases i
  exacts [he.1,he.2.1]

theorem unchecked_count_passes_limit : (∃ ds ∈ [grown,kept], Gains restarted ds) ∧
    (run (step restarted "1" [grown,kept]) (appendData restarted "1" [grown,kept])
      [(0,true),(0,true),(0,true),(1,true),(1,true)]).map
      (fun c => (c.phase 0,c.phase 1,total c.seriesCount)) = some (.succeeded,.succeeded,101) :=
  ⟨⟨grown,by simp,rfl,by decide⟩,by decide +kernel⟩

end Sentio.SeriesLimit
