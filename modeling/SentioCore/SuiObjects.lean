import SentioCore.SuiQuery
import Mathlib.Data.Fintype.EquivFin

/-!
# Completeness of the Sui object change query

Owners and ids are looked up by conditions that are weaker than the checks, and
so is a type without arguments or with wildcards. A pattern with arguments and
no wildcard is looked up by its own text.
-/

namespace Sentio.SuiObjects
open MoveTypes SqlText SqlQuery SuiModel List
open SuiQuery (inCheckpoints checkpointParts_valid checkpointParts_passes queryRecords_eq)

def mainColumn (s : Text) : Text := if s = [] then [] else mainType s

structure ObjectTable where
  objects : List Object
  ordered : objects.Pairwise fun a b =>
    a.checkpoint < b.checkpoint ∨ (a.checkpoint = b.checkpoint ∧ a.txIndex ≤ b.txIndex)
  mainTypes : ∀ obj ∈ objects, obj.objectMainType = mainColumn obj.objectType
  plain : ∀ obj ∈ objects, '\\' ∉ obj.objectMainType

/-- The pattern is looked up by its whole text. -/
def byText (t : MoveType) : Bool := t.hasArgs && !t.hasAny

def typeTest (t : MoveType) (objectType objectMainType : Text) : Bool :=
  if byText t then objectType = t.string else (compareMain t).any (· objectMainType)

def ownerTest (f : OwnerFilter) (obj : Object) : Bool :=
  !f.ownerID.isEmpty && (f.ownerID.contains obj.objectID || !f.ownerType.isEmpty &&
    ((f.ownerID.contains obj.owner.address || f.ownerID.contains obj.preOwner.address) &&
      (f.ownerType.contains obj.owner.kind || f.ownerType.contains obj.preOwner.kind)))

def objectTest (filter : ObjectChangeFilter) (obj : Object) : Bool :=
  (objectFilterParts filter).isEmpty || filter.ownerFilter.any (ownerTest · obj) ||
    filter.typePattern.any (typeTest · obj.objectType obj.objectMainType) ||
    filter.objectIDIn.contains obj.objectID

def TypeAccepted (t : MoveType) : Prop := byText t ∨ (compareMain t).isSome

variable {t : MoveType}

theorem typePart_valid : (typePart t).valid ↔ TypeAccepted t := by
  unfold typePart TypeAccepted
  rw [← byText]
  cases byText t with
  | true => simp [Part.valid,Part.ofHole,equals]
  | false =>
    cases hany : t.mainHasAny <;>
      simp [Part.valid,Part.ofHole,equals,isLike,compareMain,hany]

variable {obj : Object}

theorem typePart_passes :
    (typePart t).passes obj = typeTest t obj.objectType obj.objectMainType := by
  unfold typePart typeTest
  rw [← byText]
  cases byText t with
  | true => simp [Part.passes,Part.ofHole,equals]
  | false =>
    cases hany : t.mainHasAny <;>
      simp [Part.passes,Part.ofHole,equals,isLike,compareMain,hany,Option.any_map]

theorem optional_isIn_passes {column : Object → Text} {l : List Text} :
    (if l.isEmpty then [] else [Part.ofHole (isIn column) (.texts l)]).any (·.passes obj) =
      l.contains (column obj) := by
  cases l with
  | nil => rfl
  | cons s l => simp [Part.passes,Part.ofHole,isIn]

variable {f : OwnerFilter}

theorem ownerParts_valid : ∀ p ∈ ownerParts f, p.valid := by
  unfold ownerParts
  split
  · exact fun p hp => absurd hp not_mem_nil
  rw [forall_mem_append,forall_mem_singleton]
  refine ⟨rfl,?_⟩
  split
  · exact fun p hp => absurd hp not_mem_nil
  · rw [forall_mem_singleton]
    rfl

theorem ownerParts_passes : (ownerParts f).any (·.passes obj) = ownerTest f obj := by
  unfold ownerParts ownerTest
  rcases f.ownerID.isEmpty with _ | _
  swap
  · rfl
  rw [if_neg Bool.false_ne_true,any_append,Bool.not_false]
  congr 1
  · simp [Part.passes,Part.ofHole,isIn]
  cases f.ownerType.isEmpty with
  | true => rfl
  | false =>
    rw [if_neg Bool.false_ne_true,any_cons,any_nil,
      linked_passes rfl,Link.holds,all_cons,all_cons,all_nil,
      Bool.and_true,linked_passes rfl,linked_passes rfl]
    simp [Link.holds,Part.passes,Part.ofHole,isIn]

def wherePart (filter : ObjectChangeFilter) (fromBlock toBlock : ℕ) : Part Arg Object :=
  .linked .and (objectParts filter fromBlock toBlock)

def Accepted (filter : ObjectChangeFilter) : Prop := ∀ t ∈ filter.typePattern, TypeAccepted t

variable (filter : ObjectChangeFilter)

theorem objectFilterParts_valid : (∀ p ∈ objectFilterParts filter, p.valid) ↔ Accepted filter := by
  have howner : ∀ p ∈ ownerFilterParts filter.ownerFilter, p.valid := by
    cases filter.ownerFilter with
    | none => exact fun p hp => absurd hp not_mem_nil
    | some f => exact ownerParts_valid
  have hids : ∀ p ∈ (if filter.objectIDIn.isEmpty then []
      else [Part.ofHole (isIn Object.objectID) (.texts filter.objectIDIn)]), p.valid := by
    cases filter.objectIDIn <;> simp [Part.valid,Part.ofHole,isIn]
  rw [objectFilterParts,forall_mem_append,forall_mem_append,and_iff_left hids,
    and_iff_right howner,forall_mem_map]
  exact forall₂_congr fun t _ => typePart_valid

variable (obj : Object)

theorem objectFilterParts_passes :
    ((objectFilterParts filter).isEmpty || (objectFilterParts filter).any (·.passes obj)) =
      objectTest filter obj := by
  have howner : (ownerFilterParts filter.ownerFilter).any (·.passes obj) =
      filter.ownerFilter.any (ownerTest · obj) := by
    cases filter.ownerFilter with
    | none => rfl
    | some f => exact ownerParts_passes
  have htypes : (filter.typePattern.map typePart).any (·.passes obj) =
      filter.typePattern.any (typeTest · obj.objectType obj.objectMainType) := by
    rw [any_map]
    exact any_congr rfl fun t => typePart_passes
  rw [objectTest,Bool.or_assoc,Bool.or_assoc,← howner,← htypes,← optional_isIn_passes,← any_append,
    ← any_append,← append_assoc,← objectFilterParts]

theorem wherePart_valid (fromBlock toBlock : ℕ) :
    (wherePart filter fromBlock toBlock).valid ↔ Accepted filter := by
  rw [wherePart,linked_valid,objectParts,forall_mem_append,← objectFilterParts_valid,
    and_iff_right (by simp [checkpointParts]),and_iff_right (checkpointParts_valid _ _ _),
    SuiQuery.merged_valid]

theorem wherePart_passes (fromBlock toBlock : ℕ) (h : Accepted filter) (obj : Object) :
    (wherePart filter fromBlock toBlock).passes obj =
      (inCheckpoints Object.checkpoint fromBlock toBlock obj && objectTest filter obj) := by
  have hvalid := (wherePart_valid filter fromBlock toBlock).mpr h
  rw [wherePart,linked_passes hvalid,Link.holds,objectParts,all_append]
  have hrange := checkpointParts_passes Object.checkpoint id Object.checkpoint (fun _ => rfl)
    fromBlock toBlock obj
  rw [id_eq] at hrange
  rw [← objectFilterParts_passes]
  congr 1
  exact SuiQuery.merged_passes ((objectFilterParts_valid filter).mpr h) obj

theorem typeTest_of_include {s : Text} (ht : byText t = false) (hplain : '\\' ∉ mainColumn s)
    (h : includeTypeString t (some s)) : typeTest t s (mainColumn s) := by
  have hany : t.simple = none ∧ t.fqn = none → typeTest t s (mainColumn s) := by
    rintro ⟨hs,hf⟩
    obtain ⟨test,htest,hfit⟩ := like_any (mainColumn s)
    have hcmp : compareMain t = some test := by
      rw [← htest]
      simp [compareMain,MoveType.mainHasAny,MoveType.main,hs,hf]
    simp [typeTest,ht,hcmp,hfit]
  rcases includeTypeString_some h with hisAny | ⟨a,hb,hinc⟩
  · apply hany
    simp only [MoveType.isAny,Bool.and_eq_true,Option.isNone_iff_eq_none] at hisAny
    exact hisAny.1
  have hmain := includes_main hinc
  by_cases hs : s = []
  · subst hs
    apply hany
    cases hb
    exact isAny_of_includes_mainless hmain ⟨rfl,rfl⟩
  have hcolumn : mainColumn s = a.main := by simp [mainColumn,hs,mainType,hb]
  rw [hcolumn] at hplain ⊢
  obtain ⟨test,htest,hfit⟩ := compareMain_of_includes (buildType_split hb) hmain hplain
  simp [typeTest,ht,htest,hfit]

theorem ownerTest_of_check {obj : Object} (h : f.checkerGrpc obj.toChangedObject) : ownerTest f obj := by
  have hlisted : ∀ o : Owner, (f.ownerID.contains o.address && f.ownerType.contains o.kind) →
      f.ownerID.contains o.address ∧ f.ownerType.contains o.kind ∧ f.ownerType.isEmpty = false := by
    intro o ho
    rw [Bool.and_eq_true] at ho
    exact ⟨ho.1,ho.2,isEmpty_eq_false_iff.mpr (ne_nil_of_mem (contains_iff_mem.mp ho.2))⟩
  rw [OwnerFilter.checkerGrpc,Bool.and_eq_true] at h
  obtain ⟨hids,hsome⟩ := h
  rw [ownerTest,hids,Bool.true_and]
  rcases Bool.or_eq_true_iff.mp hsome with hfirst | houtput
  · rcases Bool.or_eq_true_iff.mp hfirst with hid | hinput
    · rw [show f.ownerID.contains obj.objectID by exact hid,Bool.true_or]
    simp only [Object.toChangedObject] at hinput
    split at hinput
    · cases hinput
    obtain ⟨h1,h2,h3⟩ := hlisted _ hinput
    rw [h1,h2,h3]
    simp
  · simp only [Object.toChangedObject] at houtput
    split at houtput
    · cases houtput
    obtain ⟨h1,h2,h3⟩ := hlisted _ houtput
    rw [h1,h2,h3]
    simp

/-- What a pattern takes that is looked up by its text, some pattern finds, for the types that
are stored. -/
def CoversArguments (filter : ObjectChangeFilter) (types : Text → Prop) : Prop :=
  ∀ t ∈ filter.typePattern, byText t → ∀ s, types s → '\\' ∉ mainColumn s →
    includeTypeString t (some s) →
    ∃ other ∈ filter.typePattern, typeTest other s (mainColumn s)

variable {types : Text → Prop}

theorem objectTest_of_check {filter : ObjectChangeFilter} {obj : Object}
    (htype : types obj.objectType) (hcolumn : obj.objectMainType = mainColumn obj.objectType)
    (hplain : '\\' ∉ obj.objectMainType) (hcovers : CoversArguments filter types)
    (h : filter.checkerGrpc obj.toChangedObject) : objectTest filter obj := by
  rw [objectTest,Bool.or_assoc,Bool.or_assoc,Bool.or_eq_true]
  right
  rw [hcolumn] at hplain ⊢
  rcases Bool.or_eq_true_iff.mp h with hfirst | hid
  · rcases Bool.or_eq_true_iff.mp hfirst with htypes | howner
    · obtain ⟨t,ht,hinc⟩ := any_eq_true.mp htypes
      have hfound : filter.typePattern.any
          (typeTest · obj.objectType (mainColumn obj.objectType)) := by
        rw [any_eq_true]
        cases hby : byText t with
        | true => exact hcovers t ht hby _ htype hplain hinc
        | false => exact ⟨t,ht,typeTest_of_include hby hplain hinc⟩
      rw [hfound,Bool.true_or,Bool.or_true]
    · obtain ⟨f,hf,hcheck⟩ := (Option.any_eq_true _ _).mp howner
      have hfound : filter.ownerFilter.any (ownerTest · obj) :=
        (Option.any_eq_true _ _).mpr ⟨f,hf,ownerTest_of_check hcheck⟩
      rw [hfound,Bool.true_or]
  · rw [show filter.objectIDIn.contains obj.objectID by exact hid,Bool.or_true,Bool.or_true]

def AlwaysAnswersObjects (filter : ObjectChangeFilter) (types : Text → Prop) : Prop :=
  ∀ (stored : CheckpointRange) (table : ObjectTable) (fromBlock toBlock limit : ℕ),
    (∀ obj ∈ table.objects, types obj.objectType) → checkRange stored fromBlock toBlock →
    Answers table.objects (inCheckpoints Object.checkpoint fromBlock toBlock) limit
      (objectPostFilter filter)
      (queryObjectChanges stored table.objects fromBlock toBlock filter limit)

theorem objectPostFilter_isSome : (objectPostFilter filter obj).isSome ↔
      filter.checkerGrpc obj.toChangedObject := by
  unfold objectPostFilter
  split <;> simp [*]

def objectOf (fresh s : Text) : Object :=
  ⟨0,0,false,false,fresh,⟨[],fresh⟩,⟨[],fresh⟩,s,mainColumn s⟩

def objectTable (fresh s : Text) (h : '\\' ∉ mainColumn s) : ObjectTable where
  objects := [objectOf fresh s]
  ordered := List.pairwise_singleton _ _
  mainTypes := by simp [objectOf]
  plain := by simpa [objectOf] using h

def listed (filter : ObjectChangeFilter) : List Text :=
  filter.objectIDIn++(filter.ownerFilter.map OwnerFilter.ownerID).getD []

/-- An object that only its type is asked for is missing when no pattern finds the type. -/
theorem not_answers_of_type (fresh s : Text) (ht : t ∈ filter.typePattern)
    (hfresh : fresh ∉ listed filter) (hinc : includeTypeString t (some s))
    (hmiss : ∀ other ∈ filter.typePattern, typeTest other s (mainColumn s) = false) :
    ¬ Answers [objectOf fresh s] (inCheckpoints Object.checkpoint 0 0) 0 (objectPostFilter filter)
      (queryObjectChanges ⟨0,0⟩ [objectOf fresh s] 0 0 filter 0) := by
  rw [listed,mem_append,not_or] at hfresh
  have hparts : (objectFilterParts filter).isEmpty = false := by
    rw [isEmpty_eq_false_iff,objectFilterParts]
    intro hnil
    rw [append_eq_nil_iff,append_eq_nil_iff,map_eq_nil_iff] at hnil
    rw [hnil.1.2] at ht
    cases ht
  have howner : filter.ownerFilter.any (ownerTest · (objectOf fresh s)) = false := by
    cases hf : filter.ownerFilter with
    | none => rfl
    | some f =>
      have hno : fresh ∉ f.ownerID := by simpa [hf] using hfresh.2
      simp [ownerTest,objectOf,hno]
  have hdrop : objectTest filter (objectOf fresh s) = false := by
    rw [objectTest,hparts,howner,Bool.false_or,Bool.false_or,Bool.or_eq_false_iff]
    constructor
    · rw [any_eq_false]
      intro other hother
      simpa [objectOf] using hmiss other hother
    · simpa [objectOf] using hfresh.1
  rw [queryObjectChanges,queryRecords_eq _ rfl]
  refine not_answers_of_part (objectOf fresh s) id (wherePart filter 0 0)
    (inCheckpoints Object.checkpoint 0 0) (objectPostFilter filter) rfl ?_ ?_
  · rw [objectPostFilter_isSome,ObjectChangeFilter.checkerGrpc,Bool.or_assoc,Bool.or_eq_true]
    exact Or.inl (any_eq_true.mpr ⟨t,ht,hinc⟩)
  intro hvalid
  rw [id_eq,wherePart_passes filter 0 0 ((wherePart_valid filter 0 0).mp hvalid),hdrop,
    Bool.and_false]

theorem alwaysAnswersObjects_iff :
    AlwaysAnswersObjects filter types ↔ Accepted filter ∧ CoversArguments filter types := by
  constructor
  · intro h
    constructor
    · by_contra hnot
      have hvalid : (wherePart filter 0 0).valid = false := by
        rw [← Bool.not_eq_true,wherePart_valid]
        exact hnot
      have hempty := h ⟨0,0⟩ ⟨[],List.Pairwise.nil,by simp,by simp⟩ 0 0 0 (by simp) rfl
      rw [queryObjectChanges,queryRecords_eq _ rfl,← wherePart,
        query_of_refused hvalid] at hempty
      exact not_answers_refused _ _ _ _ hempty
    intro t ht _ s htype hplain hinc
    by_contra hnone
    push Not at hnone
    obtain ⟨fresh,hfresh⟩ := Infinite.exists_notMem_finset (listed filter).toFinset
    rw [mem_toFinset] at hfresh
    refine not_answers_of_type filter fresh s ht hfresh hinc ?_
      (h ⟨0,0⟩ (objectTable fresh s hplain) 0 0 0 (by simpa [objectTable]) rfl)
    intro other hother
    simpa using hnone other hother
  · rintro ⟨haccepted,hcovers⟩ stored table fromBlock toBlock limit htypes hrange
    rw [queryObjectChanges,queryRecords_eq _ hrange]
    apply answers_of_passes _ (objectTest filter) _
      ((wherePart_valid filter fromBlock toBlock).mpr haccepted)
    · exact wherePart_passes filter fromBlock toBlock haccepted
    intro obj hobj _ hpost
    exact objectTest_of_check (htypes obj hobj) (table.mainTypes obj hobj)
      (table.plain obj hobj) hcovers ((objectPostFilter_isSome filter obj).mp hpost)

/-- The queries give what their filters take, or tell that the limit is hit, for exactly the
filters whose condition is accepted and whose other commands and further arguments are covered. -/
theorem sui_queries_answered_iff (filter : TransactionFilter) (objectFilter : ObjectChangeFilter)
    (types : Text → Prop) :
    (SuiQuery.AlwaysAnswers filter ↔
      SuiQuery.Accepted filter ∧ SuiQuery.CoversOtherCommands filter) ∧
    (AlwaysAnswersObjects objectFilter types ↔
      Accepted objectFilter ∧ CoversArguments objectFilter types) :=
  ⟨SuiQuery.alwaysAnswers_iff filter,alwaysAnswersObjects_iff objectFilter⟩

def anyTransaction : TransactionFilter := ⟨[⟨none,none,none,none,none,true⟩],[],true⟩

def transfer : Transaction :=
  ⟨7,0, "ProgrammableTransaction".toList, "0x1".toList,[],[],true,[],[]⟩

def fqn (address moduleName name : String) : FullyName :=
  ⟨address.toList,moduleName.toList,name.toList⟩

def poolCoin : MoveType :=
  .mk none (some (fqn "0x2" "coin" "Coin")) [.mk none (some (fqn "0x5" "lp" "LP")) []]

def poolCoins : ObjectChangeFilter := ⟨[poolCoin],none,[]⟩

def storedCoin : Text := "0x2::coin::Coin<0x5::lp::LP<u8>>".toList

theorem pool_coin_taken : includeTypeString poolCoin (some storedCoin) := by
  decide +kernel

theorem pool_coin_not_found :
    ∀ other ∈ poolCoins.typePattern, typeTest other storedCoin (mainColumn storedCoin) = false := by
  intro other hother
  rw [poolCoins,mem_singleton] at hother
  rw [hother]
  decide +kernel

theorem any_transaction_refused : anyTransaction.checkGrpcTx transfer ∧
      (queryTransactions ⟨7,7⟩ [transfer] 7 7 anyTransaction (fun _ => ()) 0 =
        .error .refused) ∧
      poolCoins.checkerGrpc (objectOf [] storedCoin).toChangedObject ∧
      ¬ Answers [objectOf [] storedCoin] (inCheckpoints Object.checkpoint 0 0) 0
        (objectPostFilter poolCoins)
        (queryObjectChanges ⟨0,0⟩ [objectOf [] storedCoin] 0 0 poolCoins 0) :=
  ⟨by decide,by rfl,by decide +kernel,
    not_answers_of_type poolCoins [] storedCoin List.mem_cons_self (by decide)
      pool_coin_taken pool_coin_not_found⟩

end Sentio.SuiObjects
