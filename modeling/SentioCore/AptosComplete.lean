import SentioCore.AptosQuery
import Mathlib.Algebra.Order.BigOperators.Group.List

/-!
# Completeness of the Aptos transaction query

Every transaction that the filter takes has to pass the condition on its row.
Two kinds do not: a transaction without events never passes once there are event
filters, whatever function filter takes it, and a script has type arguments in
its row that `check` does not see, so a filter for no type arguments misses it.
-/

namespace Sentio.AptosComplete
open LikePattern MoveTypes SqlText SqlQuery AptosModel AptosQuery List MoveType

def TakesNoFunction (ff : FunctionFilter) : Prop :=
  ff.functionPattern.isAny ∨ ff.functionPattern.string = []

variable {t : MoveType}

theorem string_has_mark (hany : t.isAny = false) (hhas : t.hasAny) :
    ':' ∈ t.string ∨ '<' ∈ t.string := by
  cases t with
  | mk s f ts =>
    rcases ts with _ | ⟨a,ts⟩
    swap
    · exact .inr (by simp [string,argsString])
    simp only [string,argsString]
    cases s with
    | some s =>
      simp [hasAny,argsHaveAny,mainHasAny,simple] at hhas
    | none =>
      cases f with
      | none => simp [isAny,simple,fqn,args] at hany
      | some f => simp [main,simple,fqn,FullyName.string]

theorem string_nil_of_compare (hany : t.isAny = false)
    (h : (compareFunction t).any (· [])) : t.string = [] := by
  unfold compareFunction at h
  rcases hhas : t.hasAny with _ | _
  · rw [hhas] at h
    simpa using h
  rw [hhas] at h
  rcases hl : like (likeText t.string) with _ | test
  · simp [hl] at h
  rw [hl] at h
  have hall := like_nil hl h
  have hmark := string_has_mark hany hhas
  rcases hmark with hm | hm
  · exact absurd (hall (star ':') (mem_map_of_mem hm)) (by decide)
  · exact absurd (hall (star '<') (mem_map_of_mem hm)) (by decide)

/-- Some filter without a condition on type arguments lets every script of the sender pass. -/
def Covered (filter : TransactionFilter) (ff : FunctionFilter) : Prop :=
  ∃ other ∈ filter.functionFilters, TakesNoFunction other ∧ other.checkTypeArguments = false ∧
    (other.sender = none ∨ other.sender = ff.sender)

/-- Only range and flags are asked for, or no pattern is refused by the database, scripts are
covered for no type arguments, and event filters ask for events. -/
def Searchable (filter : TransactionFilter) : Prop :=
  (filter.eventFilters = [] ∧ ∃ ff ∈ filter.functionFilters, ff.isEmpty) ∨
    ((∀ ff ∈ filter.functionFilters, FunctionPatternAccepted ff) ∧
      (∀ ef ∈ filter.eventFilters, EventPatternAccepted ef) ∧
      (filter.eventFilters = [] → ∀ ff ∈ filter.functionFilters,
        ff.functionPattern.isAny → ff.checkTypeArguments →
        ff.typedArguments = [] → Covered filter ff) ∧
      (filter.eventFilters ≠ [] → ∀ tx, PlainTexts tx → tx.events = [] →
        filter.check tx = false))

def accepted (req : GetTransactionsRequest) (tx : Transaction) : Option Transaction :=
  if req.filter.check tx then
    some (req.fetchConfig.pruneTransaction tx req.filter.eventFilters)
  else none

variable {tx : Transaction}

theorem functionFilter_check_congr {ff : FunctionFilter} {tx' : Transaction}
    (h : tx.body = tx'.body) : ff.check tx = ff.check tx' := by
  have hf : tx.entryFunction = tx'.entryFunction := by
    simp [Transaction.entryFunction,h]
  have ha : tx.entryFunctionTypeArguments = tx'.entryFunctionTypeArguments := by
    simp [Transaction.entryFunctionTypeArguments,h]
  rw [FunctionFilter.check,FunctionFilter.check,hf,ha,h]

variable {req : GetTransactionsRequest}

theorem selected_check : req.filter.check (selected req tx) = req.filter.check tx := by
  have hf : ∀ ff : FunctionFilter, ff.check (selected req tx) = ff.check tx :=
    fun ff => functionFilter_check_congr rfl
  have he : req.filter.eventFilters.any (·.check (selected req tx)) =
      req.filter.eventFilters.any (·.check tx) := by
    cases hefs : req.filter.eventFilters with
    | nil => rfl
    | cons ef efs => simp [EventFilter.check,selected,hefs]
  simp only [TransactionFilter.check,he]
  rfl

theorem selected_prune :
    req.fetchConfig.pruneTransaction (selected req tx) req.filter.eventFilters =
      req.fetchConfig.pruneTransaction tx req.filter.eventFilters := by
  unfold TransactionFetchConfig.pruneTransaction selected
  congr 1
  · cases hneed : req.fetchConfig.needAllEvents <;>
      cases hefs : req.filter.eventFilters <;> simp
  · cases req.fetchConfig.changeResourceTypes <;> simp

theorem postFilter_eq : postFilter req = accepted req := by
  funext tx
  rw [postFilter,accepted,selected_check,selected_prune]

theorem accepted_isSome : (accepted req tx).isSome ↔ req.filter.check tx := by
  unfold accepted
  split <;> simp [*]

theorem queryTransactions_eq (stored : VersionRange) (transactions : List Transaction)
    (limit : ℕ) (condition : Cond Arg Row) (args : List Arg)
    (hfrom : stored.contains req.fromVersion) (hto : stored.contains req.toVersion)
    (hwhere : whereCondition req.filter req.fromVersion req.toVersion = .ok (condition,args)) :
    queryTransactions stored transactions req limit =
      query transactions fromRawTransaction condition args limit (accepted req) := by
  rw [queryTransactions,hfrom,hto,hwhere,postFilter_eq]
  rfl

variable {filter : TransactionFilter}

theorem check_of_function (h : filter.check tx) : (∃ ef ∈ filter.eventFilters, ef.check tx) ∨
      ∃ ff ∈ filter.functionFilters, ff.check tx := by
  rw [TransactionFilter.check,Bool.and_eq_true] at h
  simpa using h.2

theorem check_without_events
    (h : filter.check tx) (hf : ∃ ff ∈ filter.functionFilters, ff.check tx) :
    filter.check ⟨tx.version,tx.success,tx.body,[],tx.changes⟩ := by
  obtain ⟨ff,hff,hcheck⟩ := hf
  rw [TransactionFilter.check,Bool.and_eq_true] at h ⊢
  refine ⟨h.1,?_⟩
  rw [Bool.or_eq_true]
  right
  rw [any_eq_true]
  exact ⟨ff,hff,by rw [← hcheck]; exact functionFilter_check_congr rfl⟩

theorem plainFunction_nil : PlainFunction [] := by
  intro a h
  cases h
  exact ⟨rfl,.inl ⟨rfl,rfl⟩⟩

variable {ff : FunctionFilter}

theorem check_of_function_filter (hff : ff ∈ filter.functionFilters) (hcheck : ff.check tx)
    (hsuccess : tx.success) (htype : tx.payloadType ≠ .multisig) : filter.check tx := by
  have hany : filter.functionFilters.any (·.check tx) :=
    any_eq_true.mpr ⟨ff,hff,hcheck⟩
  rw [TransactionFilter.check,hany,hsuccess,decide_eq_true htype]
  simp

def emptyTransaction : Transaction := ⟨0,true,.other,[],[]⟩

theorem takes_empty_transaction (hff : ff ∈ filter.functionFilters) (h : ff.isEmpty) :
    filter.check emptyTransaction := by
  have hcheck : ff.check emptyTransaction := by
    simp only [FunctionFilter.isEmpty,Bool.and_eq_true,Option.isNone_iff_eq_none] at h
    simp only [FunctionFilter.check,includeTypeString,h.1.1,h.2,
      Bool.and_true]
    rw [h.1.2]
    rfl
  exact check_of_function_filter hff hcheck rfl (by decide)

theorem no_empty_function_filter
    (hempty : ¬ (filter.eventFilters = [] ∧ ∃ ff ∈ filter.functionFilters, ff.isEmpty))
    (hnone : filter.eventFilters ≠ [] → ∀ tx, PlainTexts tx → tx.events = [] →
      filter.check tx = false) : ∀ ff ∈ filter.functionFilters, ff.isEmpty = false := by
  intro ff hff
  by_contra hff'
  rw [Bool.not_eq_false] at hff'
  have hevents : filter.eventFilters ≠ [] := fun hnil => hempty ⟨hnil,ff,hff,hff'⟩
  have hplain : PlainTexts emptyTransaction := ⟨by simp [emptyTransaction],plainFunction_nil⟩
  have hfalse := hnone hevents emptyTransaction hplain rfl
  rw [takes_empty_transaction hff hff'] at hfalse
  cases hfalse

theorem functionTest_of_check
    (hff : ff ∈ filter.functionFilters)
    (hplain : PlainFunction tx.entryFunction) (h : ff.check tx)
    (hscript : ff.functionPattern.isAny → ff.checkTypeArguments →
      ff.typedArguments = [] → Covered filter ff) :
    ∃ other ∈ filter.functionFilters, functionTest other (fromRawTransaction tx) := by
  rw [FunctionFilter.check,Bool.and_eq_true,Bool.and_eq_true] at h
  obtain ⟨⟨hinc,hargs⟩,hsender⟩ := h
  have hcmp := compareFunction_of_include hplain hinc
  by_cases hsame : ff.checkTypeArguments = false ∨
      (fromRawTransaction tx).entryFunctionTypeArguments = tx.entryFunctionTypeArguments
  · refine ⟨ff,hff,?_⟩
    rw [functionTest,Bool.and_eq_true,Bool.and_eq_true,row_entryFunction]
    refine ⟨⟨by simpa using hcmp,?_⟩,hsender⟩
    rcases hsame with hno | hrow
    · simp [hno]
    · rw [hrow]
      exact hargs
  rw [not_or,Bool.not_eq_false] at hsame
  obtain ⟨hfun,hnil⟩ := (row_typeArguments tx).resolve_left hsame.2
  have hany : ff.functionPattern.isAny := by
    rcases includeTypeString_some hinc with hany | ⟨a,hb,ha⟩
    · exact hany
    rw [hfun] at hb
    cases hb
    obtain ⟨h1,h2⟩ := isAny_of_includes_mainless (includes_main ha) ⟨rfl,rfl⟩
    simp [isAny,h1,h2,includes_args_nil ha rfl]
  have htyped : ff.typedArguments = [] := by
    rw [hsame.1,hnil] at hargs
    simpa using hargs.symm
  obtain ⟨other,hother,htakes,hcheck,hsend⟩ := hscript hany hsame.1 htyped
  refine ⟨other,hother,?_⟩
  rw [functionTest,Bool.and_eq_true,Bool.and_eq_true,row_entryFunction,hfun,hcheck]
  refine ⟨⟨?_,rfl⟩,?_⟩
  · rcases htakes with htakes | htakes
    · simp [htakes]
    cases hoa : other.functionPattern.isAny with
    | true => rfl
    | false =>
      have hno : other.functionPattern.hasAny = false := by
        by_contra hhas
        have := string_has_mark hoa (by simpa using hhas)
        simp [htakes] at this
      simp [compareFunction,hno,htakes]
  · rcases hsend with hsend | hsend
    · simp [hsend]
    · rw [hsend]
      exact hsender

theorem filterParts_valid
    (hf : ∀ ff ∈ filter.functionFilters, ff.isEmpty = false)
    (he : ∀ ef ∈ filter.eventFilters, ef.isEmpty = false) :
    (∀ p ∈ filterParts filter, p.valid) ↔
      (∀ ff ∈ filter.functionFilters, FunctionPatternAccepted ff) ∧
        ∀ ef ∈ filter.eventFilters, EventPatternAccepted ef := by
  simp only [filterParts,forall_mem_append,forall_mem_map]
  constructor
  · rintro ⟨h1,h2⟩
    exact ⟨fun ff hff => (functionPart_valid ff (hf ff hff)).mp (h1 ff hff),
      fun ef hef => (eventPart_valid ef (he ef hef)).mp (h2 ef hef)⟩
  rintro ⟨h1,h2⟩
  exact ⟨fun ff hff => (functionPart_valid ff (hf ff hff)).mpr (h1 ff hff),
    fun ef hef => (eventPart_valid ef (he ef hef)).mpr (h2 ef hef)⟩

theorem functionPart_passes (r : Row) (h : (functionPart ff).valid) :
    (functionPart ff).passes r = functionTest ff r := by
  rw [functionPart,linked_passes h,Link.holds,functionParts_passes]

theorem eventPart_passes (ef : EventFilter) (r : Row) (h : (eventPart ef).valid) :
    (eventPart ef).passes r = eventTest ef r := by
  rw [eventPart,linked_passes h,Link.holds,eventParts_passes]

variable {r : Row}

theorem any_passes_map {X : Type} {l : List X} {part : X → Part Arg Row} {test : X → Row → Bool}
    (h : ∀ x ∈ l, (part x).passes r = test x r) :
    (l.map part).any (·.passes r) = l.any (test · r) := by
  induction l with
  | nil => rfl
  | cons x l ih =>
    rw [forall_mem_cons] at h
    rw [map_cons,any_cons,any_cons,h.1,ih h.2]

theorem filterParts_any (hvalid : ∀ p ∈ filterParts filter, p.valid) :
    (filterParts filter).any (·.passes r) =
      (filter.functionFilters.any (functionTest · r) || filter.eventFilters.any (eventTest · r)) := by
  simp only [filterParts,forall_mem_append,forall_mem_map] at hvalid
  rw [filterParts,any_append,
    any_passes_map fun ff hff => functionPart_passes r (hvalid.1 ff hff),
    any_passes_map fun ef hef => eventPart_passes ef r (hvalid.2 ef hef)]

variable {stored : VersionRange} {limit : ℕ} {transactions : List Transaction}

section
variable (hfrom : stored.contains req.fromVersion)
include hfrom

section
variable (hto : stored.contains req.toVersion)
include hto

theorem answers_of_empty_filter (hevents : req.filter.eventFilters = [])
    (hempty : ∃ ff ∈ req.filter.functionFilters, ff.isEmpty) :
    Answers transactions (inVersions req.fromVersion req.toVersion) limit (accepted req)
      (queryTransactions stored transactions req limit) := by
  let base := baseParts req.filter req.fromVersion req.toVersion
  obtain ⟨stale,hstale⟩ := addFunctionFilters_empty [] (base.flatMap Part.args) hempty
  have hwhere : whereCondition req.filter req.fromVersion req.toVersion =
      .ok ((Part.linked .and base).text,(Part.linked .and base).args++stale) := by
    simp only [whereCondition,hevents,hstale,base]
    rfl
  have hvalid : (Part.linked .and base).valid :=
    (linked_valid _ _).mpr ⟨baseParts_ne_nil _ _ _,baseParts_valid _ _ _⟩
  rw [queryTransactions_eq stored transactions limit _ _ hfrom hto hwhere]
  apply answers_of_passes stale (baseTest req.filter) limit hvalid
  · intro tx
    rw [linked_passes hvalid]
    exact baseParts_passes _ _ _ tx
  · intro tx _ _ htx
    exact row_baseTest (accepted_isSome.mp htx) (.inl hevents)

theorem answers_of_passing (hf : ∀ ff ∈ req.filter.functionFilters, ff.isEmpty = false)
    (he : ∀ ef ∈ req.filter.eventFilters, ef.isEmpty = false)
    (hvalid : ∀ p ∈ filterParts req.filter, p.valid)
    (hpass : ∀ tx ∈ transactions, req.filter.check tx →
      (req.filter.eventFilters = [] ∨ tx.events ≠ []) ∧
        (filterParts req.filter).any (·.passes (fromRawTransaction tx))) :
    Answers transactions (inVersions req.fromVersion req.toVersion) limit (accepted req)
      (queryTransactions stored transactions req limit) := by
  have hwhole := (wholePart_valid req.filter req.fromVersion req.toVersion).mpr hvalid
  rw [queryTransactions_eq stored transactions limit _ _ hfrom hto
    (whereCondition_eq req.fromVersion req.toVersion hf he)]
  rw [← append_nil (wholePart req.filter req.fromVersion req.toVersion).args]
  apply answers_of_passes [] (fun r => baseTest req.filter r &&
      ((filterParts req.filter).isEmpty || (filterParts req.filter).any (·.passes r)))
    limit hwhole
  · intro tx
    exact wholePart_passes hwhole tx
  intro tx htx _ hacc
  have hcheck := accepted_isSome.mp hacc
  obtain ⟨hevents,hany⟩ := hpass tx htx hcheck
  rw [row_baseTest hcheck hevents,hany,Bool.or_true,Bool.and_true]

theorem answers_of_searchable {table : Table}
    (he : ∀ ef ∈ req.filter.eventFilters, ef.isEmpty = false) (h : Searchable req.filter) :
    Answers table.transactions (inVersions req.fromVersion req.toVersion) limit (accepted req)
      (queryTransactions stored table.transactions req limit) := by
  by_cases hempty : req.filter.eventFilters = [] ∧ ∃ ff ∈ req.filter.functionFilters, ff.isEmpty
  · exact answers_of_empty_filter hfrom hto hempty.1 hempty.2
  obtain ⟨hpf,hpe,hscript,hnone⟩ := h.resolve_left hempty
  have hf := no_empty_function_filter hempty hnone
  have hvalid := (filterParts_valid hf he).mpr ⟨hpf,hpe⟩
  apply answers_of_passing hfrom hto hf he hvalid
  intro tx htx hcheck
  obtain ⟨hplainEvents,hplainFunction⟩ := table.plain tx htx
  rw [filterParts_any hvalid,Bool.or_eq_true,any_eq_true,any_eq_true]
  by_cases hnil : req.filter.eventFilters = []
  · refine ⟨.inl hnil,.inl ?_⟩
    rcases check_of_function hcheck with ⟨ef,hef,-⟩ | ⟨ff,hff,hffc⟩
    · exact absurd hef (by simp [hnil])
    · exact functionTest_of_check hff hplainFunction hffc (hscript hnil ff hff)
  have hsome : tx.events ≠ [] := by
    intro hno
    exact absurd hcheck (by simp [hnone hnil tx ⟨hplainEvents,hplainFunction⟩ hno])
  refine ⟨.inr hsome,.inr ?_⟩
  rcases check_of_function hcheck with ⟨ef,hef,hefc⟩ | hff
  · exact ⟨ef,hef,eventTest_of_check ef tx hplainEvents hefc⟩
  have := hnone hnil ⟨tx.version,tx.success,tx.body,[],tx.changes⟩ ⟨by simp,hplainFunction⟩ rfl
  rw [check_without_events hcheck hff] at this
  cases this

end

end

/-- The query answers every request with this filter, on every table. -/
def AlwaysAnswers (filter : TransactionFilter) : Prop :=
  ∀ (stored : VersionRange) (table : Table) (config : TransactionFetchConfig)
    (fromVersion toVersion limit : ℕ), stored.contains fromVersion →
    stored.contains toVersion →
    Answers table.transactions (inVersions fromVersion toVersion) limit
      (accepted ⟨fromVersion,toVersion,filter,config⟩)
      (queryTransactions stored table.transactions ⟨fromVersion,toVersion,filter,config⟩ limit)

/-- The conditions of the range and the flags come first, with their own arguments. -/
theorem whereCondition_form {fromVersion toVersion : ℕ}
    (he : ∀ ef ∈ filter.eventFilters, ef.isEmpty = false) :
    ∃ texts args, whereCondition filter fromVersion toVersion =
      .ok (join .and ((baseParts filter fromVersion toVersion).map Part.text++texts),
        (baseParts filter fromVersion toVersion).flatMap Part.args++args) := by
  by_cases hempty : ∃ ff ∈ filter.functionFilters, ff.isEmpty
  · obtain ⟨stale,hstale⟩ := addFunctionFilters_empty []
      ((baseParts filter fromVersion toVersion).flatMap Part.args) hempty
    simp only [whereCondition,hstale,addEventFilters_eq _ _ he,bind,Except.bind]
    split
    · exact ⟨[],_,by rw [append_nil,append_assoc]⟩
    · exact ⟨_,_,by rw [append_assoc]⟩
  · have hf : ∀ ff ∈ filter.functionFilters, ff.isEmpty = false := by simpa using hempty
    rw [whereCondition_eq fromVersion toVersion hf he]
    simp only [wholePart,Part.linked,map_append,flatMap_append]
    exact ⟨_,_,rfl⟩

theorem not_always_of_dropped (tx : Transaction) {condition : Cond Arg Row} {args : List Arg}
    (hversion : tx.version = 0) (hplain : PlainTexts tx) (hcheck : filter.check tx)
    (hwhere : whereCondition filter 0 0 = .ok (condition,args))
    (hdrop : ∀ sql rest, condition args = some (sql,rest) → sql (fromRawTransaction tx) = false) :
    ¬ AlwaysAnswers filter := by
  intro h
  have hquery := h ⟨0,0⟩ ⟨[tx],by simp,by simpa using hplain⟩ ⟨false,[]⟩ 0 0 0 rfl rfl
  rw [queryTransactions_eq _ _ _ _ _ rfl rfl hwhere] at hquery
  refine not_answers_of_dropped ?_ ?_ hdrop hquery
  · simp [inVersions,hversion]
  · exact accepted_isSome.mpr hcheck

theorem not_always_of_eventless (he : ∀ ef ∈ filter.eventFilters, ef.isEmpty = false)
    (hevents : filter.eventFilters ≠ []) (hplain : PlainTexts tx) (hnone : tx.events = [])
    (hcheck : filter.check tx) : ¬ AlwaysAnswers filter := by
  obtain ⟨texts,args,hwhere⟩ := whereCondition_form he
  have hcheck' : filter.check ⟨0,tx.success,tx.body,tx.events,tx.changes⟩ := hcheck
  apply not_always_of_dropped ⟨0,tx.success,tx.body,tx.events,tx.changes⟩ rfl hplain hcheck' hwhere
  intro sql rest hsql
  by_contra hpass
  rw [Bool.not_eq_false] at hpass
  have hmem : Part.ofPlain (fun r : Row => decide (0 < r.eventCount)) ∈ baseParts filter 0 0 := by
    have : filter.eventFilters.isEmpty = false := isEmpty_eq_false_iff.mpr hevents
    simp [baseParts,this]
  have := passes_of_join_and hsql hpass hmem
  simp [Part.passes,Part.ofPlain,fromRawTransaction,hnone] at this

theorem not_always_of_refused (hf : ∀ ff ∈ filter.functionFilters, ff.isEmpty = false)
    (he : ∀ ef ∈ filter.eventFilters, ef.isEmpty = false)
    (h : ¬ ∀ p ∈ filterParts filter, p.valid) : ¬ AlwaysAnswers filter := by
  intro hall
  have hquery := hall ⟨0,0⟩ ⟨[],by simp,by simp⟩ ⟨false,[]⟩ 0 0 0 rfl rfl
  rw [queryTransactions_eq _ _ _ _ _ rfl rfl
    (whereCondition_eq 0 0 hf he)] at hquery
  rw [← append_nil (wholePart filter 0 0).args,query_of_refused
    (by rw [← Bool.not_eq_true,wholePart_valid]; exact h)] at hquery
  exact not_answers_refused _ _ _ _ hquery

def scriptTransaction (sender : Option Address) (count : ℕ) : Transaction where
  version := 0
  success := true
  body := match sender with
    | none => .genesis (.script (List.replicate count []))
    | some s => .user s (.script (List.replicate count []))
  events := []
  changes := []

theorem scriptTransaction_row {sender : Option Address} (count : ℕ) :
    (fromRawTransaction (scriptTransaction sender count)).entryFunction = [] ∧
      (fromRawTransaction (scriptTransaction sender count)).entryFunctionTypeArguments =
        List.replicate count [] ∧
      (fromRawTransaction (scriptTransaction sender count)).sender = sender := by
  cases sender <;> exact ⟨rfl,rfl,rfl⟩

theorem scriptTransaction_check (hff : ff ∈ filter.functionFilters)
    (hany : ff.functionPattern.isAny) (htyped : ff.typedArguments = []) {count : ℕ} :
    filter.check (scriptTransaction ff.sender count) := by
  have hcheck : ff.check (scriptTransaction ff.sender count) := by
    have hargs : (scriptTransaction ff.sender count).entryFunctionTypeArguments = [] := by
      cases ff.sender <;> rfl
    simp only [FunctionFilter.check,includeTypeString,hany,hargs,htyped,decide_true,Bool.or_true]
    cases ff.sender with
    | none => rfl
    | some s => simp [scriptTransaction,Body.sender]
  have htype : (scriptTransaction ff.sender count).payloadType = .script := by
    cases ff.sender <;> rfl
  exact check_of_function_filter hff hcheck rfl (by rw [htype]; decide)

/-- A filter for no type arguments misses scripts with type arguments that no other filter
lets pass. -/
theorem not_always_of_script (hff : ff ∈ filter.functionFilters)
    (hevents : filter.eventFilters = []) (hf : ∀ ff ∈ filter.functionFilters, ff.isEmpty = false)
    (hvalid : ∀ p ∈ filterParts filter, p.valid) (hany : ff.functionPattern.isAny)
    (htyped : ff.typedArguments = []) (hcover : ¬ Covered filter ff) : ¬ AlwaysAnswers filter := by
  have he : ∀ ef ∈ filter.eventFilters, ef.isEmpty = false := by simp [hevents]
  let count := (filter.functionFilters.map fun g => g.typedArguments.length).sum+1
  obtain ⟨hfun,hargs,hsender⟩ := scriptTransaction_row count
  have hwhole := (wholePart_valid filter 0 0).mpr hvalid
  refine not_always_of_dropped (scriptTransaction ff.sender count) rfl
    ⟨by simp [scriptTransaction],?_⟩ (scriptTransaction_check hff hany htyped)
    (whereCondition_eq 0 0 hf he) ?_
  · have : (scriptTransaction ff.sender count).entryFunction = [] := by
      cases ff.sender <;> rfl
    rw [this]
    exact plainFunction_nil
  intro sql rest hsql
  rw [← append_nil (wholePart filter 0 0).args] at hsql
  rw [((wholePart filter 0 0).of_text [] rest sql hsql).2,wholePart_passes hwhole]
  have hnonempty : (filterParts filter).isEmpty = false := by
    rw [isEmpty_eq_false_iff,filterParts]
    intro hnil
    rw [append_eq_nil_iff,map_eq_nil_iff] at hnil
    exact absurd hff (by simp [hnil.1])
  have hno : (filterParts filter).any
      (·.passes (fromRawTransaction (scriptTransaction ff.sender count))) = false := by
    rw [filterParts_any hvalid,hevents,any_nil,Bool.or_false,← Bool.not_eq_true,any_eq_true]
    rintro ⟨other,hother,htest⟩
    rw [functionTest,Bool.and_eq_true,Bool.and_eq_true,hfun,hargs,hsender] at htest
    obtain ⟨⟨hpattern,htype⟩,hsend⟩ := htest
    have hlength : other.typedArguments.length < count := by
      have := single_le_sum (by simp) other.typedArguments.length
        (mem_map_of_mem (f := fun g : FunctionFilter => g.typedArguments.length) hother)
      omega
    apply hcover
    refine ⟨other,hother,?_,?_,?_⟩
    · cases hoany : other.functionPattern.isAny with
      | true => exact .inl hoany
      | false =>
        rw [hoany] at hpattern
        exact .inr (string_nil_of_compare hoany hpattern)
    · by_contra hcheck
      rw [Bool.not_eq_false] at hcheck
      rw [hcheck,Bool.not_true,Bool.false_or,decide_eq_true_eq] at htype
      have := congrArg List.length htype
      simp only [length_replicate] at this
      omega
    · cases hos : other.sender with
      | none => exact .inl rfl
      | some s =>
        rw [hos,decide_eq_true_eq] at hsend
        exact .inr hsend.symm
  rw [hnonempty,hno,Bool.or_false,Bool.and_false,Bool.and_false]

/-- The query gives the transactions that the filter takes, or tells that the limit is hit,
exactly for searchable filters. -/
theorem query_transactions_answers_iff (filter : TransactionFilter)
    (he : ∀ ef ∈ filter.eventFilters, ef.isEmpty = false) :
    AlwaysAnswers filter ↔ Searchable filter := by
  constructor
  · intro h
    by_cases hempty : filter.eventFilters = [] ∧ ∃ ff ∈ filter.functionFilters, ff.isEmpty
    · exact .inl hempty
    right
    have hnone : filter.eventFilters ≠ [] → ∀ tx, PlainTexts tx → tx.events = [] →
        filter.check tx = false := by
      intro hevents tx hplain hno
      by_contra hcheck
      rw [Bool.not_eq_false] at hcheck
      exact not_always_of_eventless he hevents hplain hno hcheck h
    have hf := no_empty_function_filter hempty hnone
    have hvalid : ∀ p ∈ filterParts filter, p.valid := by
      by_contra hrefused
      exact not_always_of_refused hf he hrefused h
    obtain ⟨hpf,hpe⟩ := (filterParts_valid hf he).mp hvalid
    refine ⟨hpf,hpe,?_,hnone⟩
    intro hevents ff hff hany _ htyped
    by_contra hcover
    exact not_always_of_script hff hevents hf hvalid hany htyped hcover h
  · intro h stored table config fromVersion toVersion limit hfrom hto
    exact answers_of_searchable hfrom hto he h

def coinEvents : EventFilter :=
  ⟨.mk none (some ⟨"0x1".toList, "coin".toList,[]⟩) [],none⟩

def coinTransfers : FunctionFilter :=
  ⟨.mk none (some ⟨"0x1".toList, "coin".toList, "transfer".toList⟩) [],false,[],none⟩

theorem coin_events_answered : AlwaysAnswers ⟨[coinEvents],[],false,false⟩ := by
  refine (query_transactions_answers_iff ⟨[coinEvents],[],false,false⟩ (by decide)).mpr
    (.inr ⟨by simp,?_,by simp,?_⟩)
  · intro ef hef
    rw [mem_singleton] at hef
    rw [hef]
    exact .inr (by decide)
  · intro _ tx _ hnone
    simp [TransactionFilter.check,EventFilter.check,hnone]

def transferRequest : GetTransactionsRequest :=
  ⟨0,0,⟨[coinEvents],[coinTransfers],false,false⟩,⟨true,[]⟩⟩

def quietTransfer : Transaction :=
  ⟨0,true,.user "0x2".toList (.entryFunction "0x1::coin::transfer".toList []),[],[]⟩

theorem quiet_transfer_missing : transferRequest.filter.check quietTransfer ∧
      queryTransactions ⟨0,0⟩ [quietTransfer] transferRequest 0 = .ok [] ∧
      ¬ Answers [quietTransfer] (inVersions 0 0) 0 (accepted transferRequest)
        (queryTransactions ⟨0,0⟩ [quietTransfer] transferRequest 0) := by
  have hcheck : transferRequest.filter.check quietTransfer := by decide
  have hresult : queryTransactions ⟨0,0⟩ [quietTransfer] transferRequest 0 = .ok [] := by rfl
  refine ⟨hcheck,hresult,?_⟩
  rw [hresult]
  rintro (⟨h,-⟩ | h)
  · cases h
  have hin : inVersions 0 0 quietTransfer := by decide
  cases h

end Sentio.AptosComplete
