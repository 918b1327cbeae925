import SentioCore.AptosModel

/-!
# The condition of the Aptos transaction query

The condition of `queryTransactions` is put together from the parts of the
filters, and its placeholders meet their arguments unless an empty function
filter ends the loop after others.
-/

namespace Sentio.AptosQuery
open LikePattern MoveTypes SqlText AptosModel List

/-- The text of an event type without its arguments is the main part of the type. -/
def PlainType (s : Text) : Prop :=
  ∀ a, buildType s = some a → (a.simple = none ∧ a.fqn = none) ∨
    (removeTypeArgs s = a.main ∧ '\\' ∉ a.main)

/-- The text of a function is the main part of a type without arguments. -/
def PlainFunction (s : Text) : Prop :=
  ∀ a, buildType s = some a → a.args = [] ∧
    ((a.simple = none ∧ a.fqn = none) ∨ (s = a.main ∧ '\\' ∉ a.main))

def PlainTexts (tx : Transaction) : Prop :=
  (∀ ev ∈ tx.events, PlainType ev.type) ∧ PlainFunction tx.entryFunction

structure Table where
  transactions : List Transaction
  ordered : transactions.Pairwise (fun a b => a.version < b.version)
  plain : ∀ tx ∈ transactions, PlainTexts tx

def inVersions (fromVersion toVersion : ℕ) (tx : Transaction) : Bool :=
  fromVersion ≤ tx.version && tx.version ≤ toVersion

def compareFunction (t : MoveType) : Option (Text → Bool) :=
  if t.hasAny then like (likeText t.string) else some (· = t.string)

variable (ff : FunctionFilter)

def functionTest (r : Row) : Bool :=
  (ff.functionPattern.isAny || (compareFunction ff.functionPattern).any (· r.entryFunction)) &&
    (!ff.checkTypeArguments || r.entryFunctionTypeArguments = ff.typedArguments) &&
    match ff.sender with
    | none => true
    | some s => r.sender = some s

variable (ef : EventFilter)

def eventTest (r : Row) : Bool :=
  (ef.type.isAny || (compareMain ef.type).any (r.eventRawTypes.any ·)) &&
    match ef.guiAccountAddress with
    | none => true
    | some a => r.events.any fun ev => ev.accountAddress.getD [] = a

def FunctionPatternAccepted : Prop :=
  ff.functionPattern.isAny ∨ (compareFunction ff.functionPattern).isSome

def EventPatternAccepted : Prop :=
  ef.type.isAny ∨ (compareMain ef.type).isSome

def functionPart : Part Arg Row := .linked .and (functionParts ff)

def eventPart : Part Arg Row := .linked .and (eventParts ef)

theorem functionParts_passes (r : Row) :
    (functionParts ff).all (·.passes r) = functionTest ff r := by
  unfold functionParts functionTest compareFunction
  cases ff.functionPattern.isAny <;> cases ff.functionPattern.hasAny <;>
    cases ff.checkTypeArguments <;> cases ff.sender <;>
    simp [Part.passes,Part.ofHole,entryFunctionLike,entryFunctionIs,typeArgumentsAre,
      senderIs,Option.any_map,Bool.and_assoc]

theorem functionParts_ne_nil {ff : FunctionFilter} (h : ff.isEmpty = false) :
    functionParts ff ≠ [] := by
  unfold functionParts
  unfold FunctionFilter.isEmpty at h
  cases h1 : ff.functionPattern.isAny <;> cases h2 : ff.functionPattern.hasAny <;>
    cases h3 : ff.checkTypeArguments <;> cases h4 : ff.sender <;> simp_all

theorem functionPart_valid (h : ff.isEmpty = false) :
    (functionPart ff).valid ↔ FunctionPatternAccepted ff := by
  rw [functionPart,linked_valid]
  simp only [functionParts_ne_nil h,ne_eq]
  unfold functionParts FunctionPatternAccepted compareFunction
  cases ff.functionPattern.isAny <;> cases ff.functionPattern.hasAny <;>
    cases ff.checkTypeArguments <;> cases ff.sender <;>
    simp [Part.valid,Part.ofHole,entryFunctionLike,entryFunctionIs,typeArgumentsAre,senderIs]

variable (ef : EventFilter)

theorem eventParts_passes (r : Row) : (eventParts ef).all (·.passes r) = eventTest ef r := by
  unfold eventParts eventTest compareMain
  cases ef.type.isAny <;> cases ef.type.mainHasAny <;> cases ef.guiAccountAddress <;>
    simp [Part.passes,Part.ofHole,eventTypeLike,hasEventType,eventAddressIs,Option.any_map]

theorem eventParts_ne_nil {ef : EventFilter} (h : ef.isEmpty = false) : eventParts ef ≠ [] := by
  unfold eventParts
  unfold EventFilter.isEmpty at h
  cases h1 : ef.type.isAny <;> cases h2 : ef.type.mainHasAny <;>
    cases h3 : ef.guiAccountAddress <;> simp_all

theorem eventPart_valid (h : ef.isEmpty = false) :
    (eventPart ef).valid ↔ EventPatternAccepted ef := by
  rw [eventPart,linked_valid]
  simp only [eventParts_ne_nil h,ne_eq]
  unfold eventParts EventPatternAccepted compareMain
  cases ef.type.isAny <;> cases ef.type.mainHasAny <;> cases ef.guiAccountAddress <;>
    simp [Part.valid,Part.ofHole,eventTypeLike,hasEventType,eventAddressIs]

def baseTest (filter : TransactionFilter) (r : Row) : Bool :=
  (filter.failedIsOK || r.success) &&
    (filter.multiSigTxnIsOK || r.payloadType ≠ some .multisig) &&
    (filter.eventFilters.isEmpty || 0 < r.eventCount)

theorem rangeParts_passes (fromVersion toVersion : ℕ) (tx : Transaction) :
    (rangeParts fromVersion toVersion).all (·.passes (fromRawTransaction tx)) =
      inVersions fromVersion toVersion tx := by
  simp [rangeParts,Part.passes,Part.ofHole,versionFrom,versionTo,inVersions,fromRawTransaction]

section
variable (filter : TransactionFilter)
include filter

theorem baseParts_passes (fromVersion toVersion : ℕ) (tx : Transaction) :
    (baseParts filter fromVersion toVersion).all (·.passes (fromRawTransaction tx)) =
      (inVersions fromVersion toVersion tx && baseTest filter (fromRawTransaction tx)) := by
  simp only [baseParts,all_append,rangeParts_passes,baseTest]
  cases filter.failedIsOK <;> cases filter.multiSigTxnIsOK <;>
    cases filter.eventFilters.isEmpty <;>
    simp [Part.passes,Part.ofHole,Part.ofPlain,payloadTypeIsNot,Bool.and_assoc]

theorem baseParts_valid (fromVersion toVersion : ℕ)
    (p : Part Arg Row) (hp : p ∈ baseParts filter fromVersion toVersion) : p.valid := by
  unfold baseParts rangeParts at hp
  cases h1 : filter.failedIsOK <;> cases h2 : filter.multiSigTxnIsOK <;>
    cases h3 : filter.eventFilters.isEmpty <;> simp [h1,h2,h3] at hp <;>
    rcases hp with rfl | rfl | rfl | rfl | rfl <;> rfl

theorem baseParts_ne_nil (fromVersion toVersion : ℕ) :
    baseParts filter fromVersion toVersion ≠ [] := by
  simp [baseParts,rangeParts]

end

variable (filters : List (Cond Arg Row)) (args : List Arg) {ffs : List FunctionFilter}

theorem addFunctionFilters_eq (h : ∀ ff ∈ ffs, ff.isEmpty = false) :
    addFunctionFilters ffs filters args = (filters++ffs.map fun ff => (functionPart ff).text,
      args++ffs.flatMap fun ff => (functionPart ff).args) := by
  induction ffs generalizing filters args with
  | nil => simp [addFunctionFilters]
  | cons ff ffs ih =>
    rw [forall_mem_cons] at h
    rw [addFunctionFilters,h.1,ih _ _ h.2]
    simp [functionPart,Part.linked]

/-- An empty filter drops the conditions and leaves arguments behind. -/
theorem addFunctionFilters_empty (h : ∃ ff ∈ ffs, ff.isEmpty) :
    ∃ stale, addFunctionFilters ffs filters args = ([],args++stale) := by
  induction ffs generalizing filters args with
  | nil => exact absurd h (by simp)
  | cons ff ffs ih =>
    rw [addFunctionFilters]
    by_cases hff : ff.isEmpty
    · exact ⟨[],by rw [if_pos hff,append_nil]⟩
    rw [if_neg hff]
    have hlater : ∃ g ∈ ffs, g.isEmpty := by
      obtain ⟨g,hg,hempty⟩ := h
      rcases mem_cons.mp hg with rfl | hg
      · exact absurd hempty hff
      · exact ⟨g,hg,hempty⟩
    obtain ⟨stale,hstale⟩ := ih (filters++ [join .and ((functionParts ff).map Part.text)])
      (args++(functionParts ff).flatMap Part.args) hlater
    exact ⟨(functionParts ff).flatMap Part.args++stale,by rw [hstale,append_assoc]⟩

theorem addEventFilters_eq {efs : List EventFilter} (h : ∀ ef ∈ efs, ef.isEmpty = false) :
    addEventFilters efs filters args = .ok (filters++efs.map fun ef => (eventPart ef).text,
      args++efs.flatMap fun ef => (eventPart ef).args) := by
  induction efs generalizing filters args with
  | nil => simp [addEventFilters]
  | cons ef efs ih =>
    rw [forall_mem_cons] at h
    rw [addEventFilters,h.1,ih _ _ h.2]
    simp [eventPart,Part.linked]

def filterParts (filter : TransactionFilter) : List (Part Arg Row) :=
  filter.functionFilters.map functionPart++filter.eventFilters.map eventPart

def wholePart (filter : TransactionFilter) (fromVersion toVersion : ℕ) : Part Arg Row :=
  .linked .and (baseParts filter fromVersion toVersion++
    if filterParts filter = [] then [] else [.linked .or (filterParts filter)])

variable {filter : TransactionFilter}

theorem whereCondition_eq (fromVersion toVersion : ℕ)
    (hf : ∀ ff ∈ filter.functionFilters, ff.isEmpty = false)
    (he : ∀ ef ∈ filter.eventFilters, ef.isEmpty = false) :
    whereCondition filter fromVersion toVersion =
      .ok ((wholePart filter fromVersion toVersion).text,
        (wholePart filter fromVersion toVersion).args) := by
  have htexts : filter.functionFilters.map (fun ff => (functionPart ff).text)++
      filter.eventFilters.map (fun ef => (eventPart ef).text) =
        (filterParts filter).map Part.text := by
    simp [filterParts,Function.comp_def]
  have hargs : filter.functionFilters.flatMap (fun ff => (functionPart ff).args)++
      filter.eventFilters.flatMap (fun ef => (eventPart ef).args) =
        (filterParts filter).flatMap Part.args := by
    simp [filterParts,flatMap_map]
  simp only [whereCondition,addFunctionFilters_eq _ _ hf,addEventFilters_eq _ _ he,
    nil_append,htexts,append_assoc,hargs]
  by_cases hnil : filterParts filter = []
  · simp [wholePart,hnil,Part.linked,bind,Except.bind]
  · simp [wholePart,hnil,Part.linked,bind,Except.bind]

theorem wholePart_valid (filter : TransactionFilter) (fromVersion toVersion : ℕ) :
    (wholePart filter fromVersion toVersion).valid ↔
      ∀ p ∈ filterParts filter, p.valid := by
  rw [wholePart,linked_valid]
  have hbase := baseParts_valid filter fromVersion toVersion
  by_cases hnil : filterParts filter = []
  · simp [hnil,baseParts_ne_nil]
    exact hbase
  have hor := linked_valid .or (filterParts filter)
  simp only [ne_eq,hnil,not_false_iff,true_and] at hor
  rw [if_neg hnil]
  constructor
  · intro h
    exact hor.mp (h.2 _ (by simp))
  intro h
  refine ⟨by simp,?_⟩
  intro p hp
  rcases mem_append.mp hp with hp | hp
  · exact hbase p hp
  rw [mem_singleton] at hp
  rw [hp]
  exact hor.mpr h

theorem wholePart_passes {fromVersion toVersion : ℕ}
    (h : (wholePart filter fromVersion toVersion).valid) (tx : Transaction) :
    (wholePart filter fromVersion toVersion).passes (fromRawTransaction tx) =
      (inVersions fromVersion toVersion tx && (baseTest filter (fromRawTransaction tx) &&
        ((filterParts filter).isEmpty ||
          (filterParts filter).any (·.passes (fromRawTransaction tx))))) := by
  have hparts := (wholePart_valid filter fromVersion toVersion).mp h
  rw [wholePart,linked_passes h,Link.holds,all_append,baseParts_passes,Bool.and_assoc]
  by_cases hnil : filterParts filter = []
  · simp [hnil]
  have hempty : (filterParts filter).isEmpty = false := isEmpty_eq_false_iff.mpr hnil
  rw [if_neg hnil,all_cons,all_nil,Bool.and_true,
    linked_passes ((linked_valid _ _).mpr ⟨hnil,hparts⟩),hempty]
  rfl

variable (tx : Transaction)

theorem eventTest_of_check (hplain : ∀ ev ∈ tx.events, PlainType ev.type) (h : ef.check tx) :
    eventTest ef (fromRawTransaction tx) := by
  obtain ⟨ev,hev,hcheck⟩ := any_eq_true.mp h
  rw [EventFilter.checkEvent,Bool.and_eq_true] at hcheck
  obtain ⟨htype,haddr⟩ := hcheck
  rw [eventTest,Bool.and_eq_true]
  constructor
  · rw [Bool.or_eq_true]
    rcases includeTypeString_some htype with hany | ⟨a,hb,hinc⟩
    · exact .inl hany
    right
    have hmain := includes_main hinc
    have hmem : removeTypeArgs ev.type ∈ (fromRawTransaction tx).eventRawTypes :=
      mem_map_of_mem hev
    rcases hplain ev hev a hb with hnone | ⟨hraw,hback⟩
    · obtain ⟨hs,hf⟩ := isAny_of_includes_mainless hmain hnone
      obtain ⟨test,ht,hfit⟩ := like_any (removeTypeArgs ev.type)
      have hcmp : compareMain ef.type = some test := by
        rw [← ht]
        simp [compareMain,MoveType.mainHasAny,MoveType.main,hs,hf]
      rw [hcmp]
      exact any_eq_true.mpr ⟨_,hmem,hfit⟩
    · obtain ⟨test,ht,hfit⟩ := compareMain_of_includes (buildType_split hb) hmain hback
      rw [ht]
      exact any_eq_true.mpr ⟨_,hmem,by rw [hraw]; exact hfit⟩
  · cases ha : ef.guiAccountAddress with
    | none => rfl
    | some a =>
      simp only [ha,decide_eq_true_eq] at haddr
      exact any_eq_true.mpr ⟨ev,hev,by simp [haddr]⟩

variable {t : MoveType}

theorem string_of_args_nil (h : t.args = []) : t.string = t.main ∧ t.hasAny = t.mainHasAny := by
  cases t with
  | mk s f ts =>
    have : ts = [] := h
    subst this
    simp [MoveType.string,MoveType.argsString,MoveType.hasAny,MoveType.argsHaveAny]

theorem compareFunction_of_include {s : Text} (hplain : PlainFunction s)
    (h : includeTypeString t (some s)) : t.isAny ∨ (compareFunction t).any (· s) := by
  rcases includeTypeString_some h with hany | ⟨a,hb,hinc⟩
  · exact .inl hany
  obtain ⟨hargs,hmainless | ⟨hs,hback⟩⟩ := hplain a hb
  · obtain ⟨h1,h2⟩ := isAny_of_includes_mainless (includes_main hinc) hmainless
    simp [MoveType.isAny,h1,h2,includes_args_nil hinc hargs]
  right
  obtain ⟨hstring,hany⟩ := string_of_args_nil (includes_args_nil hinc hargs)
  obtain ⟨test,ht,hfit⟩ := compareMain_of_includes (buildType_split hb) (includes_main hinc) hback
  have hcmp : compareFunction t = compareMain t := by
    rw [compareFunction,compareMain,hstring,hany]
  rw [hcmp,ht,hs]
  exact hfit

theorem row_entryFunction : (fromRawTransaction tx).entryFunction = tx.entryFunction := by
  unfold fromRawTransaction Transaction.entryFunction
  rcases tx.body.payload with _ | (_ | _ | (_ | (_ | _ | _)) | _) <;> rfl

/-- The type arguments in a row are those that `check` sees, unless they are those of a
script. -/
theorem row_typeArguments :
    (fromRawTransaction tx).entryFunctionTypeArguments = tx.entryFunctionTypeArguments ∨
      (tx.entryFunction = [] ∧ tx.entryFunctionTypeArguments = []) := by
  unfold fromRawTransaction Transaction.entryFunction Transaction.entryFunctionTypeArguments
  rcases tx.body.payload with _ | (_ | _ | (_ | (_ | _ | _)) | _) <;> simp [parsePayload]

theorem row_baseTest {tx : Transaction}
    (h : filter.check tx) (hevents : filter.eventFilters = [] ∨ tx.events ≠ []) :
    baseTest filter (fromRawTransaction tx) := by
  rw [TransactionFilter.check,Bool.and_eq_true,Bool.and_eq_true] at h
  rw [baseTest,Bool.and_eq_true,Bool.and_eq_true]
  refine ⟨⟨h.1.1,?_⟩,?_⟩
  · have hpay := h.1.2
    unfold Transaction.payloadType at hpay
    unfold fromRawTransaction
    cases hp : tx.body.payload <;> simp_all
  · rcases hevents with hnil | hne
    · simp [hnil]
    · simp [fromRawTransaction,length_pos_iff,hne]

end Sentio.AptosQuery
