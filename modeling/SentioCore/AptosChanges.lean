import SentioCore.AptosQuery
import SentioCore.MoveTypeText

/-!
# Completeness of the Aptos change query

A change is asked for by patterns for its resource type, and a row is looked up
by the main parts of these patterns, as they are written: a wildcard in a main
part is compared letter by letter and finds nothing. Patterns without wildcards
find everything they take, as long as the stored text of a type, cut before its
arguments, is the main part that `buildType` reads from it.
-/

namespace Sentio.AptosChanges
open MoveTypes SqlText SqlQuery AptosModel AptosQuery MoveType List Bool

/-- The main part of the type of the change, as it stands in the row. -/
def rawType (c : Change) : Text := removeTypeArgs (c.resourceType.getD [])

/-- The text of a resource type starts with the main part of the type. -/
def PlainChange (c : Change) : Prop :=
  ∀ s a, c.resourceType = some s → buildType s = some a → a.mainHasAny = false →
    removeTypeArgs s = a.main

structure ChangeTable where
  transactions : List Transaction
  ordered : transactions.Pairwise (fun a b => a.version < b.version)
  plain : ∀ tx ∈ transactions, ∀ c ∈ tx.changes, PlainChange c

variable (filter : ChangeFilter)

def takesAddress (c : Change) : Bool :=
  filter.address.isEmpty || match c.address with
    | none => false
    | some a => filter.address.contains a

/-- A pattern with a wildcard takes only changes that are looked up for another pattern. -/
def NamesMains : Prop :=
  ∀ t ∈ filter.resourceTypes, t.mainHasAny → ∀ c, PlainChange c →
    takesAddress filter c → includeTypeString t c.resourceType →
    rawType c ∈ filter.resourceTypes.map main

def changeTest (r : Row) : Bool :=
  (filter.address.isEmpty || r.changeAddresses.any filter.address.contains) &&
    (filter.resourceTypes.isEmpty ||
      r.resourceRawTypes.any (filter.resourceTypes.map main).contains)

def changePart (fromVersion toVersion : ℕ) : Part Arg Row :=
  .linked .and (changeParts filter fromVersion toVersion)

variable {fromVersion toVersion : ℕ} {filter : ChangeFilter}

theorem changePart_valid : (changePart filter fromVersion toVersion).valid := by
  rw [changePart,linked_valid]
  refine ⟨by simp [changeParts,rangeParts],?_⟩
  intro p hp
  unfold changeParts rangeParts at hp
  cases h1 : filter.address.isEmpty <;> cases h2 : filter.resourceTypes.isEmpty <;>
    simp [h1,h2] at hp <;> rcases hp with rfl | rfl | rfl | rfl <;> rfl

theorem changePart_passes (tx : Transaction) :
    (changePart filter fromVersion toVersion).passes (fromRawTransaction tx) =
      (inVersions fromVersion toVersion tx && changeTest filter (fromRawTransaction tx)) := by
  rw [changePart,linked_passes changePart_valid,Link.holds,
    changeParts,all_append,all_append,rangeParts_passes,Bool.and_assoc]
  congr 2
  · cases filter.address.isEmpty <;> simp [Part.passes,Part.ofHole,hasAnyChangeAddress]
  · cases filter.resourceTypes.isEmpty <;> simp [Part.passes,Part.ofHole,hasAnyResourceType]

variable {t : MoveType} {a : MoveType}

theorem main_of_includes (ha : a.simple = none ∨ a.fqn = none) (h : t.mainIncludes a)
    (ht : t.mainHasAny = false) : a.main = t.main ∧ a.mainHasAny = false := by
  rcases hs : t.simple with _ | s
  swap
  · have has := mainIncludes_simple h hs
    simp [main,mainHasAny,hs,has]
  rcases hf : t.fqn with _ | f
  · simp [mainHasAny,hs,hf] at ht
  obtain ⟨g,hg,hfg⟩ := mainIncludes_fqn h hf
  have has : a.simple = none := ha.resolve_right (by rw [hg]; exact Option.some_ne_none g)
  have hfany : f.hasAny = false := by simpa [mainHasAny,hs,hf] using ht
  have := fullyName_eq_of_includes hfg hfany
  subst this
  simp [main,mainHasAny,hs,hf,has,hg,hfany]

variable {c : Change}

/-- What a pattern without wildcards takes is looked up by its main part. -/
theorem rawType_of_include (hplain : PlainChange c) (ht : t.mainHasAny = false)
    (h : includeTypeString t c.resourceType) : rawType c = t.main := by
  have hany : t.isAny = false := by
    unfold mainHasAny at ht
    cases hs : t.simple <;> cases hf : t.fqn <;> simp_all [isAny]
  rcases hc : c.resourceType with _ | s
  · simp [includeTypeString,hany,hc] at h
  rw [hc] at h
  rcases includeTypeString_some h with hany' | ⟨a,hb,hinc⟩
  · rw [hany] at hany'
    cases hany'
  · obtain ⟨hmain,hno⟩ := main_of_includes (buildType_split hb) (includes_main hinc) ht
    rw [rawType,hc,Option.getD_some,hplain s a hc hb hno,hmain]

variable {tx : Transaction}

theorem changeTest_of_check (hc : c ∈ tx.changes) (hplain : PlainChange c)
    (hnames : NamesMains filter) (h : filter.check c) : changeTest filter (fromRawTransaction tx) := by
  rw [ChangeFilter.check,and_eq_true] at h
  obtain ⟨haddr,htypes⟩ := h
  obtain ⟨t,ht,hinc⟩ := any_eq_true.mp htypes
  have hraw : rawType c ∈ filter.resourceTypes.map main := by
    cases hany : t.mainHasAny with
    | true => exact hnames t ht hany c hplain haddr hinc
    | false =>
      rw [rawType_of_include hplain hany hinc]
      exact mem_map_of_mem ht
  rw [changeTest,and_eq_true,or_eq_true,or_eq_true]
  constructor
  · rw [or_eq_true] at haddr
    refine haddr.imp_right ?_
    intro ha
    rw [any_eq_true]
    cases hca : c.address with
    | none => simp [hca] at ha
    | some a =>
      rw [hca] at ha
      exact ⟨a,mem_map.mpr ⟨c,hc,by simp [hca]⟩,ha⟩
  · right
    rw [any_eq_true]
    exact ⟨rawType c,mem_map.mpr ⟨c,hc,rfl⟩,by simpa using hraw⟩

theorem acceptedChanges_isSome :
    (acceptedChanges filter tx).isSome ↔ ∃ c ∈ tx.changes, filter.check c := by
  unfold acceptedChanges
  split
  · rename_i h
    simpa using h
  · rename_i h
    simpa using h

variable {stored : VersionRange} {limit : ℕ} {transactions : List Transaction}

theorem queryResourceChanges_eq
    (hfrom : stored.contains fromVersion) (hto : stored.contains toVersion) :
    queryResourceChanges stored transactions fromVersion toVersion filter limit =
      query transactions fromRawTransaction (changePart filter fromVersion toVersion).text
        ((changePart filter fromVersion toVersion).args++ []) limit (acceptedChanges filter) := by
  rw [queryResourceChanges,hfrom,hto,append_nil]
  rfl

theorem answers_of_changeTest (hfrom : stored.contains fromVersion)
    (hto : stored.contains toVersion) (h : ∀ tx ∈ transactions, ∀ c ∈ tx.changes, filter.check c →
      changeTest filter (fromRawTransaction tx)) :
    Answers transactions (inVersions fromVersion toVersion) limit (acceptedChanges filter)
      (queryResourceChanges stored transactions fromVersion toVersion filter limit) := by
  rw [queryResourceChanges_eq hfrom hto]
  apply answers_of_passes [] (changeTest filter) limit changePart_valid
  · exact changePart_passes
  intro tx htx _ hacc
  obtain ⟨c,hc,hcheck⟩ := acceptedChanges_isSome.mp hacc
  exact h tx htx c hc hcheck

def changeOnly (c : Change) : Transaction := ⟨0,true,.other,[],[c]⟩

theorem not_answers_of_unnamed
    (hcheck : filter.check c) (hraw : rawType c ∉ filter.resourceTypes.map main) :
    ¬ Answers [changeOnly c] (inVersions 0 0) 0 (acceptedChanges filter)
      (queryResourceChanges ⟨0,0⟩ [changeOnly c] 0 0 filter 0) := by
  have htypes : filter.resourceTypes.isEmpty = false := by
    rw [ChangeFilter.check,Bool.and_eq_true] at hcheck
    obtain ⟨t,ht,-⟩ := any_eq_true.mp hcheck.2
    exact isEmpty_eq_false_iff.mpr (ne_nil_of_mem ht)
  have hdrop : changeTest filter (fromRawTransaction (changeOnly c)) = false := by
    have : (fromRawTransaction (changeOnly c)).resourceRawTypes = [rawType c] := rfl
    rw [changeTest,this,htypes]
    simp [hraw]
  rw [queryResourceChanges_eq rfl rfl]
  apply not_answers_of_part (changeOnly c) _ _ _ _ rfl
    (acceptedChanges_isSome.mpr ⟨c,by simp [changeOnly],hcheck⟩)
  intro _
  rw [changePart_passes,hdrop,Bool.and_false]

def AlwaysAnswersChanges (filter : ChangeFilter) : Prop :=
  ∀ (stored : VersionRange) (table : ChangeTable) (fromVersion toVersion limit : ℕ),
    stored.contains fromVersion → stored.contains toVersion →
    Answers table.transactions (inVersions fromVersion toVersion) limit (acceptedChanges filter)
      (queryResourceChanges stored table.transactions fromVersion toVersion filter limit)

theorem changes_answered_iff : AlwaysAnswersChanges filter ↔ NamesMains filter := by
  constructor
  · intro h t ht _ c hplain haddr hinc
    by_contra hraw
    have hcheck : filter.check c := by
      rw [ChangeFilter.check,and_eq_true]
      exact ⟨haddr,any_eq_true.mpr ⟨t,ht,hinc⟩⟩
    exact not_answers_of_unnamed hcheck hraw
      (h ⟨0,0⟩ ⟨[changeOnly c],by simp,by simpa [changeOnly] using hplain⟩ 0 0 0 rfl rfl)
  · intro h stored table fromVersion toVersion limit hfrom hto
    apply answers_of_changeTest hfrom hto
    intro tx htx c hc hcheck
    exact changeTest_of_check hc (table.plain tx htx c hc) h hcheck

/-! ## Well-formed patterns -/

def fresh (n : ℕ) : Text := replicate (n+4) 'a'

def filled (n : ℕ) (s : Text) : Text := if s = [] then fresh n else s

/-- The pattern with fresh words for the wildcards of its main part. -/
def instanceOf (n : ℕ) : MoveType → MoveType
  | mk none none as => mk (some (fresh n)) none as
  | mk none (some f) as =>
    mk none (some ⟨filled n f.address,filled n f.moduleName,filled n f.name⟩) as
  | t => t

theorem fresh_word (n : ℕ) : (fresh n).all wordChar :=
  all_eq_true.mpr fun _ hc => eq_of_mem_replicate hc ▸ rfl

theorem filled_word {s : Text} (n : ℕ) (h : s.all wordChar) : (filled n s).all wordChar := by
  unfold filled
  split_ifs
  · exact fresh_word n
  · exact h

theorem instanceOf_wellFormed (n : ℕ) (h : t.wellFormed) : (instanceOf n t).wellFormed := by
  obtain ⟨_ | s,_ | f,as⟩ := t
  · rw [wellFormed,Bool.and_eq_true] at h
    rw [instanceOf,wellFormed,h.2,Bool.and_true,mainWellFormed,fresh_word]
    simp [fresh,replicate_succ]
  · rw [wellFormed,Bool.and_eq_true,mainWellFormed,FullyName.wellFormed] at h
    simp only [Bool.and_eq_true,decide_eq_true_eq] at h
    obtain ⟨⟨⟨⟨h1,h2⟩,h3⟩,hshort⟩,hargs⟩ := h
    have hshort' : toShortAddress (filled n f.address) = filled n f.address := by
      unfold filled
      split_ifs
      · rfl
      · exact hshort
    simp only [instanceOf,wellFormed,mainWellFormed,FullyName.wellFormed,filled_word n h1,
      filled_word n h2,filled_word n h3,hshort',hargs,decide_true,Bool.and_true]
  · exact h
  · exact h

theorem includes_instanceOf (n : ℕ) (h : t.mainHasAny) : t.includes (instanceOf n t) := by
  obtain ⟨_ | s,_ | f,as⟩ := t
  · rw [instanceOf,includes,Bool.and_eq_true,Bool.or_eq_true]
    exact ⟨rfl,.inr (argsInclude_self as)⟩
  · rw [instanceOf,includes,Bool.and_eq_true,Bool.or_eq_true]
    refine ⟨?_,.inr (argsInclude_self as)⟩
    have hfill : ∀ s : Text, s = [] ∨ s = filled n s := fun s => by
      unfold filled
      split_ifs with hs
      exacts [.inl hs,.inr rfl]
    simpa [mainIncludes,simple,fqn,FullyName.includes] using
      ⟨⟨hfill f.address,hfill f.moduleName⟩,hfill f.name⟩
  · cases h
  · cases h

theorem instanceOf_main_length (n : ℕ) (h : t.mainHasAny) : n < (instanceOf n t).main.length := by
  obtain ⟨_ | s,_ | f,as⟩ := t
  · simp [instanceOf,main,simple,fresh]
  · have hlong : ∀ s : Text, s = [] → n < (segment (filled n s)).length := by
      rintro s rfl
      simp [filled,MoveTypes.segment,fresh,replicate_succ]
      omega
    simp only [mainHasAny,simple,fqn,FullyName.hasAny,Bool.or_eq_true,decide_eq_true_eq] at h
    simp only [instanceOf,main,simple,fqn,FullyName.string,length_append]
    rcases h with (h | h) | h
    all_goals
      have := hlong _ h
      omega
  · cases h
  · cases h

/-- Well-formed patterns are covered only if no main part has a wildcard: with long words for the
wildcards there is a type that the pattern takes and that no main part names. -/
theorem namesMains_iff (hform : ∀ t ∈ filter.resourceTypes, t.wellFormed) :
    NamesMains filter ↔ ∀ t ∈ filter.resourceTypes, t.mainHasAny = false := by
  constructor
  · intro h t ht
    by_contra hany
    rw [Bool.not_eq_false] at hany
    let n := ((filter.resourceTypes.map main).map length).sum
    have hwell := instanceOf_wellFormed n (hform t ht)
    have hread := buildType_string hwell
    let c : Change := .writeResource filter.address.head? (some (instanceOf n t).string)
    have htype : c.resourceType = some (instanceOf n t).string := by
      simp [c,Change.resourceType,trimTypeString,hread]
    have hin := h t ht hany c ?_ ?_ ?_
    · rw [rawType,htype,Option.getD_some,removeTypeArgs_string hwell] at hin
      have hlong := instanceOf_main_length n hany
      have := List.single_le_sum (by simp) _ (mem_map_of_mem (f := length) hin)
      omega
    · intro s a hs ha _
      cases htype.symm.trans hs
      cases hread.symm.trans ha
      exact removeTypeArgs_string hwell
    · rw [takesAddress]
      cases ha : filter.address <;> simp [c,Change.address,ha]
    · rw [htype,includeTypeString,hread]
      simp [includes_instanceOf n hany]
  · intro h t ht hany
    rw [h t ht] at hany
    cases hany

theorem includes_own_main : (mk a.simple a.fqn []).includes a := by
  cases a with
  | mk s f as =>
    rw [includes,isEmpty_nil,Bool.true_or,Bool.and_true,mainIncludes,Bool.and_eq_true]
    constructor
    · cases s <;> simp [simple]
    · cases f <;> simp [fqn,FullyName.includes]

/-- A text that does not start with the main part of its type is missed by this main part. -/
theorem plainChange_of_answers
    (h : ∀ filter, NamesMains filter → Answers [changeOnly c] (inVersions 0 0) 0
      (acceptedChanges filter) (queryResourceChanges ⟨0,0⟩ [changeOnly c] 0 0 filter 0)) :
    PlainChange c := by
  intro s a hc hb hno
  by_contra hraw
  let t := mk a.simple a.fqn []
  have hmain : t.main = a.main := rfl
  have hany : t.mainHasAny = false := hno
  have hinc : includeTypeString t c.resourceType := by
    rw [hc,includeTypeString,hb,or_eq_true]
    exact Or.inr includes_own_main
  have hcheck : ChangeFilter.check ⟨[],[t]⟩ c := by
    rw [ChangeFilter.check,and_eq_true]
    exact ⟨rfl,any_eq_true.mpr ⟨t,by simp,hinc⟩⟩
  refine not_answers_of_unnamed hcheck ?_ (h ⟨[],[t]⟩ ?_)
  · simpa [rawType,hc,hmain] using hraw
  intro u hu huany
  rw [mem_singleton] at hu
  rw [hu,hany] at huany
  cases huany

/-- The query gives the changes that the filter takes, or tells that the limit is hit, for every
table of plain texts exactly when the wildcards of the filter are covered; for
well-formed patterns this means that no main part has a wildcard. -/
theorem resource_changes_answered (filter : ChangeFilter) (c : Change) :
    (AlwaysAnswersChanges filter ↔ NamesMains filter) ∧
      ((∀ t ∈ filter.resourceTypes, t.wellFormed) →
        (NamesMains filter ↔ ∀ t ∈ filter.resourceTypes, t.mainHasAny = false)) ∧
      (PlainChange c ↔ ∀ filter, NamesMains filter →
        Answers [changeOnly c] (inVersions 0 0) 0 (acceptedChanges filter)
          (queryResourceChanges ⟨0,0⟩ [changeOnly c] 0 0 filter 0)) := by
  refine ⟨changes_answered_iff,namesMains_iff,?_,plainChange_of_answers⟩
  intro hplain filter hnames
  exact changes_answered_iff.mpr hnames ⟨0,0⟩
    ⟨[changeOnly c],by simp,by simpa [changeOnly] using hplain⟩ 0 0 0 rfl rfl

/-- Any type of any address, as the comment on `ResourceTypes` asks to write it. -/
def anyChange : ChangeFilter := ⟨[],[.mk none none []]⟩

def coinStore : Change := .writeResource (some "0x2".toList) (some "0x1::coin::CoinStore".toList)

theorem any_pattern_finds_nothing : anyChange.check coinStore ∧
      queryResourceChanges ⟨0,0⟩ [changeOnly coinStore] 0 0 anyChange 0 = .ok [] ∧
      ¬ Answers [changeOnly coinStore] (inVersions 0 0) 0 (acceptedChanges anyChange)
        (queryResourceChanges ⟨0,0⟩ [changeOnly coinStore] 0 0 anyChange 0) :=
  ⟨by decide,by rfl,not_answers_of_unnamed (by decide) (by decide)⟩

end Sentio.AptosChanges
