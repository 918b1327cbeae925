import SentioCore.SuiModel

/-!
# Completeness of the Sui transaction query

The condition is the conjunction of the checkpoint range, the success flag and a
disjunction over the filters, each with its own parts. It is refused when a
function filter has no part at all, and then nothing is answered. Otherwise a
transaction that an event filter takes passes, since `LIKE` and equality on main
types are weaker than inclusion, and so does one that a function filter takes by
a call.
-/

namespace Sentio.SuiQuery
open LikePattern MoveTypes SqlText SqlQuery SuiModel List

/-- The main parts of the event types have no backslash in them, as no name has. -/
def PlainNames (tx : Transaction) : Prop :=
  ∀ ev ∈ tx.events, '\\' ∉ mainType ev.eventType

structure TransactionTable where
  transactions : List Transaction
  ordered : transactions.Pairwise fun a b =>
    a.checkpoint < b.checkpoint ∨ (a.checkpoint = b.checkpoint ∧ a.txIndex < b.txIndex)
  plain : ∀ tx ∈ transactions, PlainNames tx

def inCheckpoints {X : Type} (checkpoint : X → ℕ) (fromBlock toBlock : ℕ) (x : X) : Bool :=
  fromBlock ≤ checkpoint x && checkpoint x ≤ toBlock

variable {R : Type}

theorem optionalPart_valid (read : Reader R) (hread : ∀ s, (read (.text s)).isSome)
    (s : Option Text) : ∀ p ∈ optionalPart read s, p.valid := by
  rcases s with _ | s
  · exact fun p hp => absurd hp not_mem_nil
  intro p hp
  rw [optionalPart,mem_singleton] at hp
  rw [hp]
  exact hread s

variable {s : Option Text}

theorem optionalPart_passes {read : Reader R} {r : R} :
    (optionalPart read s).all (·.passes r) = s.all fun s => (read (.text s)).any (· r) := by
  cases s with
  | none => rfl
  | some s => simp [optionalPart,Part.passes,Part.ofHole]

variable {X : Type}

theorem checkpointParts_passes (column : R → ℕ) (columns : X → R) (checkpoint : X → ℕ)
    (hcolumn : ∀ x, column (columns x) = checkpoint x) (fromBlock toBlock : ℕ) (x : X) :
    (checkpointParts column fromBlock toBlock).all (·.passes (columns x)) =
      inCheckpoints checkpoint fromBlock toBlock x := by
  simp [checkpointParts,Part.passes,Part.ofHole,numberFrom,numberTo,inCheckpoints,hcolumn]

theorem checkpointParts_valid (column : R → ℕ) (fromBlock toBlock : ℕ) :
    ∀ p ∈ checkpointParts column fromBlock toBlock, p.valid := by
  simp [checkpointParts,Part.valid,Part.ofHole,numberFrom,numberTo]

def typeTest (patterns : List MoveType) (r : TransactionRow) : Bool :=
  patterns.any fun t => (compareMain t).any (r.eventsMainType.any ·)

variable {patterns : List MoveType}

theorem typeConds_valid : (∀ p ∈ typeConds patterns, p.valid) ↔
      ∀ t ∈ patterns, (compareMain t).isSome := by
  have hlike : (∀ p ∈ typeConds patterns, p.valid) ↔
      ∀ t ∈ patterns, t.mainHasAny → (like (likeText t.main)).isSome := by
    unfold typeConds
    simp only [forall_mem_append,forall_mem_map,mem_filter,and_imp]
    constructor
    · rintro ⟨-,h⟩ t ht hany
      simpa [Part.valid,Part.ofHole,existsLike] using h t ht hany
    intro h
    refine ⟨?_,?_⟩
    · split
      · exact fun p hp => absurd hp not_mem_nil
      intro p hp
      rw [mem_singleton] at hp
      rw [hp]
      rfl
    · intro t ht hany
      simpa [Part.valid,Part.ofHole,existsLike] using h t ht hany
  rw [hlike]
  apply forall₂_congr
  intro t _
  cases hany : t.mainHasAny <;> simp [compareMain,hany]

variable {r : TransactionRow}

theorem typeConds_passes : (typeConds patterns).any (·.passes r) = typeTest patterns r := by
  have hexact : ∀ l : List MoveType,
      (if (l.map MoveType.main).isEmpty then ([] : List (Part Arg TransactionRow)) else
        [.ofHole (hasAny TransactionRow.eventsMainType) (.texts (l.map MoveType.main))]).any
          (·.passes r) = l.any fun t => r.eventsMainType.any (· = t.main) := by
    intro l
    rcases l with _ | ⟨t,l⟩
    · rfl
    rw [Bool.eq_iff_iff]
    simp only [map_cons,isEmpty_cons,Bool.false_eq_true,if_false,any_cons,
      any_nil,Bool.or_false,Part.passes,Part.ofHole,hasAny,Option.any_some,
      any_eq_true,Bool.or_eq_true,contains_cons,decide_eq_true_eq]
    constructor
    · rintro ⟨x,hx,h | h⟩
      · exact .inl ⟨x,hx,by simpa using h⟩
      · obtain ⟨u,hu,rfl⟩ := mem_map.mp (contains_iff_mem.mp h)
        exact .inr ⟨u,hu,_,hx,rfl⟩
    · rintro (⟨x,hx,h⟩ | ⟨u,hu,x,hx,h⟩)
      · exact ⟨x,hx,.inl (by simp [h])⟩
      · exact ⟨x,hx,.inr (contains_iff_mem.mpr (h ▸ mem_map_of_mem hu))⟩
  rw [typeConds,any_append,hexact,any_map,any_map,typeTest]
  induction patterns with
  | nil => rfl
  | cons t patterns ih =>
    simp only [any_cons]
    rw [← ih]
    cases hany : t.mainHasAny <;>
      simp [compareMain,hany,Part.passes,Part.ofHole,existsLike,Option.any_map,
        Bool.or_assoc,Bool.or_left_comm]

variable (ff : EventFilter)

def constrainsType : Bool :=
  !ff.typePattern.isEmpty && !ff.typePattern.any MoveType.mainIsAny

def EventPatternsAccepted : Prop :=
  constrainsType ff → ∀ t ∈ ff.typePattern, (compareMain t).isSome

def eventTest (r : TransactionRow) : Bool :=
  if constrainsType ff || ff.sender.isSome then
    (!constrainsType ff || typeTest ff.typePattern r) && ff.sender.all r.eventsSender.contains
  else !r.eventsMainType.isEmpty

theorem typeConds_ne_nil (h : patterns ≠ []) : typeConds patterns ≠ [] := by
  obtain ⟨t,ht⟩ := exists_mem_of_ne_nil patterns h
  unfold typeConds
  rw [ne_eq,append_eq_nil_iff,not_and_or]
  cases hany : t.mainHasAny with
  | false =>
    left
    have hmem : t.main ∈ (patterns.filter (!·.mainHasAny)).map MoveType.main :=
      mem_map_of_mem (mem_filter.mpr ⟨ht,by simp [hany]⟩)
    rw [isEmpty_eq_false_iff.mpr (ne_nil_of_mem hmem)]
    simp
  | true =>
    right
    have hmem : t ∈ patterns.filter (·.mainHasAny) := mem_filter.mpr ⟨ht,hany⟩
    simpa using ne_nil_of_mem hmem

variable {ff : EventFilter}

theorem typeCondition_valid (h : constrainsType ff) :
    (mergeCondition (typeConds ff.typePattern) .or).valid ↔
      ∀ t ∈ ff.typePattern, (compareMain t).isSome := by
  have hne : ff.typePattern ≠ [] := by
    rw [constrainsType,Bool.and_eq_true] at h
    simpa using h.1
  rw [mergeCondition,linked_valid,typeConds_valid]
  simp only [typeConds_ne_nil hne,ne_eq,not_false_iff,true_and]

theorem eventParts_valid : (∀ p ∈ eventParts ff, p.valid) ↔ EventPatternsAccepted ff := by
  have hsender := optionalPart_valid (has TransactionRow.eventsSender) (fun _ => rfl) ff.sender
  rw [eventParts,forall_mem_append,and_iff_left hsender,← constrainsType,EventPatternsAccepted]
  cases h : constrainsType ff with
  | false => simp
  | true =>
    rw [if_pos rfl,forall_mem_singleton,typeCondition_valid h]
    simp

variable (ff : EventFilter)

theorem eventPart_valid : (eventPart ff).valid ↔ EventPatternsAccepted ff := by
  rw [eventPart,mergeCondition,linked_valid,← eventParts_valid]
  cases h : eventParts ff with
  | nil => simp [Part.valid,Part.ofPlain]
  | cons p ps => simp

theorem eventParts_isEmpty :
    (eventParts ff).isEmpty = !(constrainsType ff || ff.sender.isSome) := by
  unfold eventParts
  rw [← constrainsType]
  cases constrainsType ff <;> cases ff.sender <;> simp [optionalPart]

theorem eventPart_passes
    (h : (eventPart ff).valid) : (eventPart ff).passes r = eventTest ff r := by
  have haccepted := (eventPart_valid ff).mp h
  rw [eventPart,mergeCondition,linked_passes h,Link.holds,eventParts_isEmpty,eventTest]
  rcases hc : (constrainsType ff || ff.sender.isSome) with _ | _
  · simp [Part.passes,Part.ofPlain]
  rw [Bool.not_true,if_neg Bool.false_ne_true,eventParts,all_append,
    optionalPart_passes,← constrainsType]
  congr 1
  cases ht : constrainsType ff with
  | false => rfl
  | true =>
    have hvalid := (typeCondition_valid ht).mpr (haccepted ht)
    rw [if_pos rfl,all_cons,all_nil,Bool.and_true,mergeCondition,
      linked_passes hvalid,Link.holds,typeConds_passes,Bool.not_true,Bool.false_or]

theorem eventTest_of_check (tx : Transaction) (hplain : PlainNames tx)
    (h : ff.checkGrpcTx tx) : eventTest ff (convert tx) := by
  obtain ⟨ev,hev,hcheck⟩ := any_eq_true.mp h
  rw [EventFilter.checkGrpcEvent,Bool.and_eq_true] at hcheck
  obtain ⟨hsender,htype⟩ := hcheck
  have hmem : mainType ev.eventType ∈ (convert tx).eventsMainType := mem_map_of_mem hev
  unfold eventTest
  split
  · rw [Bool.and_eq_true]
    constructor
    · rcases hc : constrainsType ff with _ | _
      · rfl
      rw [constrainsType,Bool.and_eq_true,Bool.not_eq_true'] at hc
      rw [hc.1] at htype
      rcases hb : buildType ev.eventType with _ | a
      · simp [hb] at htype
      simp only [hb] at htype
      obtain ⟨t,ht,hinc⟩ := any_eq_true.mp htype
      have hmain : mainType ev.eventType = a.main := by simp [mainType,hb]
      have hback := hplain ev hev
      rw [hmain] at hback hmem
      obtain ⟨test,htest,hfit⟩ := compareMain_of_includes (buildType_split hb)
        (includes_main hinc) hback
      rw [Bool.not_true,Bool.false_or,typeTest,any_eq_true]
      exact ⟨t,ht,by rw [htest]; exact any_eq_true.mpr ⟨_,hmem,hfit⟩⟩
    · cases hs : ff.sender with
      | none => rfl
      | some s =>
        simp only [textIs,hs,decide_eq_true_eq] at hsender
        simp only [Option.all_some,contains_iff_mem]
        exact mem_map.mpr ⟨ev,hev,hsender⟩
  · have : (convert tx).eventsMainType.isEmpty = false :=
      isEmpty_eq_false_iff.mpr (ne_nil_of_mem hmem)
    rw [this]
    rfl

variable (ff : FunctionFilter)

def HasCondition : Prop :=
  ff.kind.isSome ∨ ff.commandFilter.any (!·.isEmpty) ∨
    ff.multiSigPublicKeyPrefix.isSome ∨ ff.sender.isSome ∨
    ff.receiver.isSome ∨ ff.failedIsOK = false

def callTest (c : CommandFilter) (r : TransactionRow) : Bool :=
  c.callPackage.all r.moveCallsPackage.contains && c.callModule.all r.moveCallsModule.contains &&
    c.callFunction.all r.moveCallsFunction.contains

def functionTest (r : TransactionRow) : Bool :=
  textIs ff.kind r.kind && ff.commandFilter.all (fun c => c.isEmpty || callTest c r) &&
    (ff.multiSigPublicKeyPrefix.isNone || r.signatureCount = 1) && textIs ff.sender r.sender &&
    ff.receiver.all r.balanceChangesAddress.contains && (ff.failedIsOK || r.success)

def functionPart : Part Arg TransactionRow :=
  mergeCondition (functionParts ff) .and

variable (c : CommandFilter) (r : TransactionRow)

theorem commandParts_passes : (commandParts c).all (·.passes r) = callTest c r := by
  rw [commandParts,all_append,all_append,optionalPart_passes,optionalPart_passes,
    optionalPart_passes]
  rfl

theorem equals_passes {column : TransactionRow → Text} :
    (optionalPart (equals column) s).all (·.passes r) = textIs s (column r) := by
  rw [optionalPart_passes]
  cases s <;> rfl

theorem commandParts_eq_nil : commandParts c = [] ↔ c.isEmpty := by
  unfold commandParts CommandFilter.isEmpty
  cases c.callPackage <;> cases c.callModule <;> cases c.callFunction <;> simp [optionalPart]

theorem commandParts_valid : ∀ p ∈ commandParts c, p.valid := by
  rw [commandParts,forall_mem_append,forall_mem_append]
  exact ⟨⟨optionalPart_valid _ (fun _ => rfl) _,optionalPart_valid _ (fun _ => rfl) _⟩,
    optionalPart_valid _ (fun _ => rfl) _⟩

variable {c : Option CommandFilter}

theorem callParts_passes :
    (callParts c).all (·.passes r) = c.all fun c => c.isEmpty || callTest c r := by
  rcases c with _ | c
  · rfl
  rw [callParts,Option.all_some]
  cases hc : c.isEmpty with
  | true => rfl
  | false => rw [if_neg Bool.false_ne_true,commandParts_passes,Bool.false_or]

theorem callParts_valid : ∀ p ∈ callParts c, p.valid := by
  rcases c with _ | c
  · exact fun p hp => absurd hp not_mem_nil
  rw [callParts]
  split
  · exact fun p hp => absurd hp not_mem_nil
  · exact commandParts_valid c

theorem callParts_eq_nil : callParts c = [] ↔ c.any (!·.isEmpty) = false := by
  rcases c with _ | c
  · simp [callParts]
  rw [callParts,Option.any_some]
  cases hc : c.isEmpty with
  | true => simp
  | false => simp [commandParts_eq_nil,hc]

variable (ff : FunctionFilter)

theorem functionParts_passes (r : TransactionRow) :
    (functionParts ff).all (·.passes r) = functionTest ff r := by
  simp only [functionParts,all_append,equals_passes,callParts_passes]
  rw [optionalPart_passes]
  congr 1
  · congr 1
    cases ff.multiSigPublicKeyPrefix <;> simp [Part.passes,Part.ofPlain]
  · cases ff.failedIsOK <;> simp [Part.passes,Part.ofPlain]

theorem functionParts_valid : ∀ p ∈ functionParts ff, p.valid := by
  simp only [functionParts,forall_mem_append]
  refine ⟨⟨⟨⟨⟨optionalPart_valid _ (fun _ => rfl) _,callParts_valid⟩,?_⟩,
    optionalPart_valid _ (fun _ => rfl) _⟩,optionalPart_valid _ (fun _ => rfl) _⟩,?_⟩
  · cases ff.multiSigPublicKeyPrefix <;> simp [Part.valid,Part.ofPlain]
  · cases ff.failedIsOK <;> simp [Part.valid,Part.ofPlain]

theorem functionParts_nonempty : functionParts ff ≠ [] ↔ HasCondition ff := by
  rw [functionParts,HasCondition]
  simp only [ne_eq,append_eq_nil_iff,callParts_eq_nil]
  cases ff.kind <;> cases ff.commandFilter.any (!·.isEmpty) <;>
    cases ff.multiSigPublicKeyPrefix <;> cases ff.sender <;> cases ff.receiver <;>
    cases ff.failedIsOK <;> simp [optionalPart]

theorem functionPart_valid : (functionPart ff).valid ↔ HasCondition ff := by
  rw [functionPart,mergeCondition,linked_valid,functionParts_nonempty,
    and_iff_left (functionParts_valid ff)]

theorem functionPart_passes (r : TransactionRow)
    (h : (functionPart ff).valid) : (functionPart ff).passes r = functionTest ff r := by
  rw [functionPart,mergeCondition,linked_passes h,Link.holds,functionParts_passes]

/-- The filter asks for calls by names that a command without a call answers with. -/
def takesNoCall (ff : FunctionFilter) : Bool :=
  ff.commandFilter.any fun c => !c.isEmpty && c.checkGrpcCommand none

variable {call : MoveCall}

theorem name_listed {commands : List Command} {field : MoveCall → Text}
    (hcall : some call ∈ commands) {wanted : Option Text} (h : textIs wanted (field call)) :
    wanted.all (commands.filterMap fun cmd => cmd.map field).contains := by
  cases wanted with
  | none => rfl
  | some s =>
    have hs : field call = s := by simpa [textIs] using h
    rw [Option.all_some,contains_iff_mem,mem_filterMap]
    exact ⟨some call,hcall,by rw [← hs]; rfl⟩

theorem callTest_of_check {c : CommandFilter} {tx : Transaction} (hcall : some call ∈ tx.commands)
    (h : c.checkGrpcCommand (some call)) : callTest c (convert tx) := by
  simp only [CommandFilter.checkGrpcCommand,Bool.and_eq_true] at h
  rw [callTest,Bool.and_eq_true,Bool.and_eq_true]
  exact ⟨⟨name_listed hcall h.1.1,name_listed hcall h.1.2⟩,name_listed hcall h.2⟩

theorem signature_count {keyPrefix : Text} {signatures : List Signature}
    (h : checkMultiSig keyPrefix signatures) : signatures.length = 1 := by
  unfold checkMultiSig at h
  split at h
  · rfl
  · exact absurd h Bool.false_ne_true

theorem functionTest_of_check (tx : Transaction) (hcalls : takesNoCall ff = false)
    (h : ff.checkGrpcTx tx) : functionTest ff (convert tx) := by
  simp only [FunctionFilter.checkGrpcTx,Bool.and_eq_true] at h
  obtain ⟨⟨⟨⟨⟨hkind,hcommand⟩,hkeys⟩,hsender⟩,hreceiver⟩,hsuccess⟩ := h
  have hcall : ff.commandFilter.all (fun c => c.isEmpty || callTest c (convert tx)) := by
    rcases hc : ff.commandFilter with _ | c
    · rfl
    rw [hc] at hcommand
    rw [takesNoCall,hc] at hcalls
    obtain ⟨cmd,hcmd,htakes⟩ := any_eq_true.mp hcommand
    rw [Option.all_some]
    cases hempty : c.isEmpty with
    | true => rfl
    | false =>
      cases cmd with
      | none => simp [hempty,htakes] at hcalls
      | some call => exact callTest_of_check hcmd htakes
  have hcount : (ff.multiSigPublicKeyPrefix.isNone ||
      decide ((convert tx).signatureCount = 1)) := by
    rcases hp : ff.multiSigPublicKeyPrefix with _ | p
    · rfl
    rw [hp] at hkeys
    have hone : (convert tx).signatureCount = 1 := signature_count hkeys
    rw [hone]
    rfl
  simp only [functionTest,Bool.and_eq_true]
  exact ⟨⟨⟨⟨⟨hkind,hcall⟩,hcount⟩,hsender⟩,hreceiver⟩,hsuccess⟩

variable (filter : TransactionFilter)

def rowTest (r : TransactionRow) : Bool :=
  (filter.failedIsOK || r.success) &&
    ((filterParts filter).isEmpty || filter.eventFilters.any (eventTest · r) ||
      filter.functionFilters.any (functionTest · r))

def Accepted : Prop :=
  (∀ ff ∈ filter.eventFilters, EventPatternsAccepted ff) ∧
    ∀ ff ∈ filter.functionFilters, HasCondition ff

def wherePart (fromBlock toBlock : ℕ) : Part Arg TransactionRow :=
  .linked .and (transactionParts filter fromBlock toBlock)

variable {parts : List (Part Arg R)}

theorem merged_valid : (∀ p ∈ (if parts.isEmpty then [] else [mergeCondition parts .or]), p.valid) ↔
      ∀ p ∈ parts, p.valid := by
  cases parts with
  | nil => simp
  | cons p ps =>
    rw [isEmpty_cons,if_neg Bool.false_ne_true,forall_mem_singleton,mergeCondition,linked_valid]
    simp

theorem merged_passes (h : ∀ p ∈ parts, p.valid) (r : R) :
    (if parts.isEmpty then [] else [mergeCondition parts .or]).all (·.passes r) =
      (parts.isEmpty || parts.any (·.passes r)) := by
  cases parts with
  | nil => rfl
  | cons p ps =>
    have hlinked := (linked_valid .or _).mpr ⟨cons_ne_nil p ps,h⟩
    rw [isEmpty_cons,if_neg Bool.false_ne_true,all_cons,all_nil,
      Bool.and_true,mergeCondition,linked_passes hlinked,Link.holds,Bool.false_or]

variable (filter : TransactionFilter)

theorem filterParts_valid : (∀ p ∈ filterParts filter, p.valid) ↔ Accepted filter := by
  have hfunctions : (∀ p ∈ filter.functionFilters.map functionPart, p.valid) ↔
      ∀ ff ∈ filter.functionFilters, HasCondition ff := by
    simp only [forall_mem_map,functionPart_valid]
  have hevents : (∀ p ∈ (if filter.eventFilters.isEmpty then []
      else [mergeCondition (filter.eventFilters.map eventPart) .or]), p.valid) ↔
        ∀ ff ∈ filter.eventFilters, EventPatternsAccepted ff := by
    rw [← isEmpty_map (f := eventPart),merged_valid,forall_mem_map]
    simp [eventPart_valid]
  rw [filterParts,forall_mem_append,hevents]
  exact and_congr_right fun _ => hfunctions

theorem any_congr_of_mem {l : List X} {p q : X → Bool} (h : ∀ x ∈ l, p x = q x) :
    l.any p = l.any q := by
  induction l with
  | nil => rfl
  | cons x l ih =>
    rw [any_cons,any_cons,h x mem_cons_self,ih fun y hy => h y (mem_cons_of_mem x hy)]

theorem filterParts_passes {filter : TransactionFilter} {r : TransactionRow} (h : Accepted filter) :
    (filterParts filter).any (·.passes r) =
      (filter.eventFilters.any (eventTest · r) || filter.functionFilters.any (functionTest · r)) := by
  have hvalid := (filterParts_valid filter).mpr h
  rw [filterParts,forall_mem_append] at hvalid
  rw [filterParts,any_append,any_map]
  congr 1
  · rcases hef : filter.eventFilters with _ | ⟨ff,rest⟩
    · rfl
    rw [hef] at hvalid
    have hone := hvalid.1
    rw [isEmpty_cons,if_neg Bool.false_ne_true,forall_mem_singleton] at hone
    rw [isEmpty_cons,if_neg Bool.false_ne_true,any_cons,any_nil,
      Bool.or_false,mergeCondition,linked_passes hone,Link.holds,any_map]
    refine any_congr_of_mem fun g hg => ?_
    exact eventPart_passes g ((eventPart_valid g).mpr (h.1 g (by rw [hef]; exact hg)))
  · refine any_congr_of_mem fun g hg => ?_
    exact functionPart_passes g r ((functionPart_valid g).mpr (h.2 g hg))

theorem wherePart_valid (fromBlock toBlock : ℕ) :
    (wherePart filter fromBlock toBlock).valid ↔ Accepted filter := by
  rw [wherePart,linked_valid,transactionParts,forall_mem_append,forall_mem_append,
    ← filterParts_valid]
  have hsuccess : ∀ p ∈ (if filter.failedIsOK then []
      else [Part.ofPlain (A := Arg) TransactionRow.success]), p.valid := by
    cases filter.failedIsOK <;> simp [Part.valid,Part.ofPlain]
  rw [and_iff_right (by simp [checkpointParts]),
    and_iff_right ⟨checkpointParts_valid _ _ _,hsuccess⟩,merged_valid]

theorem wherePart_passes (fromBlock toBlock : ℕ) (h : Accepted filter) (tx : Transaction) :
    (wherePart filter fromBlock toBlock).passes (convert tx) =
      (inCheckpoints Transaction.checkpoint fromBlock toBlock tx && rowTest filter (convert tx)) := by
  have hvalid := (wherePart_valid filter fromBlock toBlock).mpr h
  rw [wherePart,linked_passes hvalid,Link.holds,transactionParts,all_append,
    all_append,checkpointParts_passes _ _ _ (fun _ => rfl),Bool.and_assoc]
  congr 2
  · cases filter.failedIsOK <;> simp [Part.passes,Part.ofPlain]
  rw [Bool.or_assoc,← filterParts_passes h]
  exact merged_passes ((filterParts_valid filter).mpr h) _

/-- The other filter asks for no more than this one apart from its calls. -/
structure Covers (filter : TransactionFilter) (ff other : FunctionFilter) : Prop where
  kind : other.kind = none ∨ other.kind = ff.kind
  calls : other.commandFilter.all (·.isEmpty)
  keys : other.multiSigPublicKeyPrefix.isSome → ff.multiSigPublicKeyPrefix.isSome
  sender : other.sender = none ∨ other.sender = ff.sender
  receiver : other.receiver = none ∨ other.receiver = ff.receiver
  failed : filter.failedIsOK → ff.failedIsOK → other.failedIsOK

def readableKey (ff : FunctionFilter) : Bool :=
  ff.multiSigPublicKeyPrefix.all fun p => (decodeHex (trimHexPrefix p)).isSome

/-- What a filter takes by a command that is not a call, another filter takes without a look at
the commands. -/
def CoversOtherCommands (filter : TransactionFilter) : Prop :=
  ∀ ff ∈ filter.functionFilters, takesNoCall ff → readableKey ff →
    ∃ other ∈ filter.functionFilters, Covers filter ff other

variable {filter} {tx : Transaction} {ff other : FunctionFilter}

theorem textIs_of_cover {wanted covered : Option Text} {actual : Text}
    (h : wanted = none ∨ wanted = covered) (hc : textIs covered actual) : textIs wanted actual := by
  rcases h with rfl | rfl
  · rfl
  · exact hc

theorem functionTest_of_covers (h : Covers filter ff other)
    (hsuccess : filter.failedIsOK || tx.success) (hcheck : ff.checkGrpcTx tx) :
    functionTest other (convert tx) := by
  simp only [FunctionFilter.checkGrpcTx,Bool.and_eq_true] at hcheck
  obtain ⟨⟨⟨⟨⟨hkind,-⟩,hkeys⟩,hsender⟩,hreceiver⟩,hfailed⟩ := hcheck
  simp only [functionTest,Bool.and_eq_true]
  refine ⟨⟨⟨⟨⟨textIs_of_cover h.kind hkind,?_⟩,?_⟩,textIs_of_cover h.sender hsender⟩,?_⟩,?_⟩
  · have hcalls := h.calls
    cases hc : other.commandFilter with
    | none => rfl
    | some c => simp_all
  · cases hp : other.multiSigPublicKeyPrefix with
    | none => rfl
    | some p =>
      obtain ⟨q,hq⟩ := Option.isSome_iff_exists.mp (h.keys (by simp [hp]))
      rw [hq] at hkeys
      exact decide_eq_true (signature_count hkeys)
  · rcases h.receiver with hr | hr
    · rw [hr]
      rfl
    · rw [hr]
      exact hreceiver
  · have := h.failed
    rw [Bool.or_eq_true] at hsuccess hfailed ⊢
    change other.failedIsOK ∨ tx.success
    grind

/-- A failed transaction without calls and events that has nothing but what the filter asks for;
kind and sender are fresh where it asks for none. -/
def sparse (filter : TransactionFilter) (ff : FunctionFilter) (fresh : Text) : Transaction where
  checkpoint := 0
  txIndex := 0
  kind := ff.kind.getD fresh
  sender := ff.sender.getD fresh
  commands := [none]
  signatures := ff.multiSigPublicKeyPrefix.toList.map fun p =>
    (decodeHex (trimHexPrefix p)).map fun bytes => [bytes]
  success := !(filter.failedIsOK && ff.failedIsOK)
  events := []
  balanceChanges := ff.receiver.toList

theorem readableKey_of_check (h : ff.checkGrpcTx tx) : readableKey ff := by
  simp only [FunctionFilter.checkGrpcTx,Bool.and_eq_true] at h
  have hkeys := h.1.1.1.2
  unfold readableKey
  cases hp : ff.multiSigPublicKeyPrefix with
  | none => rfl
  | some p =>
    rw [hp] at hkeys
    simp only [Option.all_some,checkMultiSig] at hkeys ⊢
    split at hkeys
    · simp [*]
    · cases hkeys

theorem textIs_getD (wanted : Option Text) (fresh : Text) : textIs wanted (wanted.getD fresh) := by
  cases wanted <;> simp [textIs]

theorem sparse_check (fresh : Text) (hcalls : takesNoCall ff) (hkey : readableKey ff) :
    ff.checkGrpcTx (sparse filter ff fresh) := by
  simp only [FunctionFilter.checkGrpcTx,Bool.and_eq_true,sparse,textIs_getD,true_and]
  refine ⟨⟨⟨⟨?_,?_⟩,trivial⟩,?_⟩,?_⟩
  · rw [takesNoCall] at hcalls
    cases hc : ff.commandFilter with
    | none => rfl
    | some c => simp_all
  · cases hp : ff.multiSigPublicKeyPrefix with
    | none => rfl
    | some p =>
      rw [readableKey,hp,Option.all_some] at hkey
      obtain ⟨bytes,hbytes⟩ := Option.isSome_iff_exists.mp hkey
      simp [checkMultiSig,hbytes]
  · cases ff.receiver <;> simp
  · cases ff.failedIsOK <;> simp

theorem sparse_row (fresh : Text)
    (hfresh : ∀ other ∈ filter.functionFilters, other.kind ≠ some fresh ∧ other.sender ≠ some fresh)
    (hff : ff ∈ filter.functionFilters) (h : rowTest filter (convert (sparse filter ff fresh))) :
    ∃ other ∈ filter.functionFilters, Covers filter ff other := by
  have hparts : (filterParts filter).isEmpty = false := by
    simp [filterParts,ne_nil_of_mem hff]
  have hevents : filter.eventFilters.any (eventTest · (convert (sparse filter ff fresh))) = false := by
    rw [any_eq_false]
    intro ef _
    have hnone : ∀ patterns, typeTest patterns (convert (sparse filter ff fresh)) = false := by
      simp [typeTest,convert,sparse]
    rw [eventTest,hnone]
    cases hc : constrainsType ef <;> cases hs : ef.sender <;> simp [convert,sparse]
  rw [rowTest,hparts,hevents,Bool.false_or,Bool.false_or,Bool.and_eq_true,any_eq_true] at h
  obtain ⟨-,other,hother,htest⟩ := h
  simp only [functionTest,Bool.and_eq_true] at htest
  obtain ⟨⟨⟨⟨⟨hkind,hcalls⟩,hkeys⟩,hsender⟩,hreceiver⟩,hfailed⟩ := htest
  have htext : ∀ wanted covered : Option Text, wanted ≠ some fresh →
      textIs wanted (covered.getD fresh) → wanted = none ∨ wanted = covered := by
    intro wanted covered hne his
    cases wanted <;> cases covered <;> simp_all [textIs]
  refine ⟨other,hother,htext _ _ (hfresh other hother).1 hkind,?_,?_,
    htext _ _ (hfresh other hother).2 hsender,?_,?_⟩
  · cases hc : other.commandFilter with
    | none => rfl
    | some c =>
      rw [hc,Option.all_some,Bool.or_eq_true] at hcalls
      refine hcalls.elim id fun hcall => ?_
      simp only [callTest,convert,sparse,Bool.and_eq_true] at hcall
      rw [Option.all_some,CommandFilter.isEmpty]
      revert hcall
      cases c.callPackage <;> cases c.callModule <;> cases c.callFunction <;> simp
  · intro hsome
    by_contra hnone
    rw [Option.not_isSome_iff_eq_none] at hnone
    obtain ⟨p,hp⟩ := Option.isSome_iff_exists.mp hsome
    simp [hp,convert,sparse,hnone] at hkeys
  · cases hr : other.receiver <;> cases hf : ff.receiver <;>
      simp_all [convert,sparse]
  · intro h1 h2
    simpa [convert,sparse,h1,h2] using hfailed

variable (filter)

theorem rowTest_of_check (tx : Transaction) (hplain : PlainNames tx)
    (hcovers : CoversOtherCommands filter) (h : filter.checkGrpcTx tx) :
    rowTest filter (convert tx) := by
  rw [TransactionFilter.checkGrpcTx,Bool.and_eq_true] at h
  obtain ⟨hsuccess,hany⟩ := h
  rw [rowTest,Bool.and_eq_true]
  refine ⟨hsuccess,?_⟩
  rcases Bool.or_eq_true_iff.mp hany with hfunction | hevent
  · obtain ⟨ff,hff,hcheck⟩ := any_eq_true.mp hfunction
    refine Bool.or_eq_true_iff.mpr (.inr (any_eq_true.mpr ?_))
    cases hcalls : takesNoCall ff with
    | true =>
      obtain ⟨other,hother,hc⟩ := hcovers ff hff hcalls (readableKey_of_check hcheck)
      exact ⟨other,hother,functionTest_of_covers hc hsuccess hcheck⟩
    | false => exact ⟨ff,hff,functionTest_of_check ff tx hcalls hcheck⟩
  · obtain ⟨ff,hff,hcheck⟩ := any_eq_true.mp hevent
    have hevents : filter.eventFilters.any (eventTest · (convert tx)) :=
      any_eq_true.mpr ⟨ff,hff,eventTest_of_check ff tx hplain hcheck⟩
    rw [hevents,Bool.or_true,Bool.true_or]

def AlwaysAnswers (filter : TransactionFilter) : Prop :=
  ∀ (stored : CheckpointRange) (table : TransactionTable) (prune : Transaction → Transaction)
    (fromBlock toBlock limit : ℕ), checkRange stored fromBlock toBlock →
    Answers table.transactions (inCheckpoints Transaction.checkpoint fromBlock toBlock) limit
      (postFilter filter prune)
      (queryTransactions stored table.transactions fromBlock toBlock filter prune limit)

variable {T : Type}

theorem postFilter_isSome (prune : Transaction → T)
    (tx : Transaction) : (postFilter filter prune tx).isSome ↔ filter.checkGrpcTx tx := by
  unfold postFilter
  split <;> simp [*]

theorem queryRecords_eq (stored : CheckpointRange) {records : List X}
    {columns : X → R} {conditions : List (Part Arg R)} {fromBlock toBlock limit : ℕ}
    {post : X → Option T} (h : checkRange stored fromBlock toBlock) :
    queryRecords stored records columns conditions fromBlock toBlock limit post =
      query records columns (Part.linked .and conditions).text
        ((Part.linked .and conditions).args++ []) limit post := by
  rw [queryRecords,if_pos h,append_nil]
  rfl

def singleton (tx : Transaction) (h : PlainNames tx) : TransactionTable where
  transactions := [tx]
  ordered := List.pairwise_singleton _ _
  plain := by simpa using h

/-- The query answers for exactly the filters that are accepted and whose other commands are
covered. -/
theorem alwaysAnswers_iff :
    AlwaysAnswers filter ↔ Accepted filter ∧ CoversOtherCommands filter := by
  constructor
  · intro h
    have haccepted : Accepted filter := by
      by_contra hnot
      have hvalid : (wherePart filter 0 0).valid = false := by
        rw [← Bool.not_eq_true,wherePart_valid]
        exact hnot
      have hempty := h ⟨0,0⟩ ⟨[],List.Pairwise.nil,by simp⟩ id 0 0 0 rfl
      rw [queryTransactions,queryRecords_eq _ rfl,← wherePart,
        query_of_refused hvalid] at hempty
      exact not_answers_refused _ _ _ _ hempty
    refine ⟨haccepted,?_⟩
    intro ff hff hcalls hkey
    obtain ⟨fresh,hfresh⟩ := Infinite.exists_notMem_finset
      (filter.functionFilters.flatMap fun other => other.kind.toList++other.sender.toList).toFinset
    by_contra hcover
    have hanswers := h ⟨0,0⟩ (singleton (sparse filter ff fresh) (by simp [PlainNames,sparse])) id 0 0 0
      rfl
    rw [queryTransactions,queryRecords_eq _ rfl] at hanswers
    refine not_answers_of_part (sparse filter ff fresh) convert (wherePart filter 0 0)
      (inCheckpoints Transaction.checkpoint 0 0) (postFilter filter id) rfl ?_ ?_ hanswers
    · have hcheck : ff.checkGrpcTx (sparse filter ff fresh) := sparse_check fresh hcalls hkey
      rw [postFilter_isSome,TransactionFilter.checkGrpcTx,Bool.and_eq_true]
      refine ⟨?_,Bool.or_eq_true_iff.mpr (.inl (any_eq_true.mpr ⟨ff,hff,hcheck⟩))⟩
      cases hf : filter.failedIsOK <;> simp [sparse,hf]
    intro _
    rw [wherePart_passes filter _ _ haccepted,Bool.and_eq_false_iff,← Bool.not_eq_true (rowTest _ _)]
    refine .inr fun hrow => hcover (sparse_row fresh (fun other hother => ?_) hff hrow)
    simp only [mem_toFinset,mem_flatMap,not_exists,not_and,mem_append,not_or,
      Option.mem_toList] at hfresh
    exact hfresh other hother
  · rintro ⟨haccepted,hcovers⟩ stored table prune fromBlock toBlock limit hrange
    rw [queryTransactions,queryRecords_eq _ hrange]
    apply answers_of_passes _ (rowTest filter) _
      ((wherePart_valid filter fromBlock toBlock).mpr haccepted)
    · exact wherePart_passes filter fromBlock toBlock haccepted
    intro tx htx _ hpost
    exact rowTest_of_check filter tx (table.plain tx htx) hcovers
      ((postFilter_isSome filter prune tx).mp hpost)

end Sentio.SuiQuery
