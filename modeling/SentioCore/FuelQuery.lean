import SentioCore.FuelModel

/-!
# Completeness of the Fuel transaction query

A transaction that a filter takes has the values that the filter asks for in its
columns. One filter therefore loses nothing.
-/

namespace Sentio.FuelQuery
open MoveTypes (Text)
open RowScan (scan_eq)
open SqlText SqlQuery FuelModel Option Bool

structure Table where
  transactions : List WrappedTransaction
  ordered : transactions.Pairwise fun a b =>
    a.blockHeight < b.blockHeight ∨
      (a.blockHeight = b.blockHeight ∧ a.transactionIndex < b.transactionIndex)

def inHeights (startBlock endBlock : ℕ) (w : WrappedTransaction) : Bool :=
  startBlock ≤ w.blockHeight && w.blockHeight ≤ endBlock

theorem someText_eq_some {s : Text} {v : Value} : someText s = some v ↔ s ≠ [] ∧ v = .text s := by
  unfold someText
  split <;> simp_all [eq_comm]

variable {receipts : List Receipt}

theorem indexes_nonempty {check : Receipt → Bool}
    (h : (!(indexes check receipts).isEmpty)) : ∃ r ∈ receipts, check r := by
  rw [not_eq_true',List.isEmpty_eq_false_iff,indexes,ne_eq,List.map_eq_nil_iff,
    List.filter_eq_nil_iff] at h
  push Not at h
  obtain ⟨p,hp,hcheck⟩ := h
  exact ⟨p.1,(List.mem_zipIdx_iff_getElem?.mp hp |> List.mem_of_getElem?),hcheck⟩

theorem call_receipt {c : CallFilter}
    (h : (c.check receipts).isSome) : ∃ r ∈ receipts, c.checkOne r := by
  rw [CallFilter.check,List.findIdx?_isSome] at h
  exact List.any_eq_true.mp h

theorem contains_pair {pairs : List (Text × Text)} {assetID owner : Text}
    (h : contains pairs assetID owner) :
    ∃ p ∈ pairs, (assetID = [] ∨ assetID = p.1) ∧ (owner = [] ∨ owner = p.2) := by
  simpa [contains] using h

theorem log_registers {l : LogFilter} {r : Receipt} (h : l.checkOne r) :
    (r.receiptType = .log ∨ r.receiptType = .logData) ∧ registerIs l.logRa r.ra ∧
      registerIs l.logRb r.rb ∧ registerIs l.logRc r.rc ∧
      registerIs l.logRd r.rd := by
  simp only [LogFilter.checkOne,and_eq_true,or_eq_true,decide_eq_true_eq] at h
  exact ⟨h.1.1.1.1.1,h.1.1.1.2,h.1.1.2,h.1.2,h.2⟩

variable {f : TransactionFilter} {v : Value}

theorem wanted_register_mem {field : LogFilter → Option ℕ} {register : Receipt → Option ℕ}
    (hregister : ∀ l r, LogFilter.checkOne l r → registerIs (field l) (register r))
    (h : f.logFilter.all (fun l => !(indexes l.checkOne receipts).isEmpty))
    (hw : f.logFilter.bind (fun l => (field l).map Value.num) = some v) :
    v ∈ logValues register receipts := by
  obtain ⟨l,hl,hv⟩ := bind_eq_some_iff.mp hw
  obtain ⟨n,hn,rfl⟩ := map_eq_some_iff.mp hv
  rw [hl] at h
  obtain ⟨r,hr,hone⟩ := indexes_nonempty h
  have hreg : register r = some n := by simpa [registerIs,hn] using hregister l r hone
  rw [logValues,List.mem_filterMap]
  refine ⟨r,List.mem_filter.mpr ⟨hr,?_⟩,by rw [hreg]; rfl⟩
  simpa using (log_registers hone).1

theorem wanted_call {g : CallFilter} (hg : f.callFilter = some g)
    (h : f.callFilter.all (fun c => (c.check receipts).isSome)) :
    ∃ r ∈ receipts.filter (·.receiptType = .call),
      (g.contractID = [] ∨ r.toAddress = some g.contractID) ∧
        (g.function = none ∨ g.function = r.param1) := by
  rw [hg] at h
  obtain ⟨r,hr,hone⟩ := call_receipt h
  simp only [CallFilter.checkOne,and_eq_true,or_eq_true,decide_eq_true_eq,
    isNone_iff_eq_none] at hone
  exact ⟨r,List.mem_filter.mpr ⟨hr,by simp [hone.1.1.1.1]⟩,hone.1.2,hone.2⟩

variable {X : Type} {l : List X}

theorem text_mem_dedup {field : X → Text} {x : X} {s : Text}
    (hx : x ∈ l) (hs : s = field x) : Value.text s ∈ (l.map fun y => Value.text (field y)).dedup := by
  rw [List.mem_dedup,List.mem_map]
  exact ⟨x,hx,by rw [hs]⟩

variable {tx : Transaction}

theorem wanted_transfer_mem {g : TransferFilter}
    (hg : f.transferFilter = some g) (h : f.transferFilter.all (·.check tx)) :
    (g.assetID ≠ [] → .text g.assetID ∈ columnValues tx .assets) ∧
      (g.fromAddress ≠ [] → .text g.fromAddress ∈ columnValues tx .assetInputOwners) ∧
      (g.toAddress ≠ [] → .text g.toAddress ∈ columnValues tx .assetOutputOwners) := by
  rw [hg] at h
  simp only [all_some,TransferFilter.check,and_eq_true,or_eq_true,
    decide_eq_true_eq] at h
  obtain ⟨⟨hasset,hfrom⟩,hto⟩ := h
  refine ⟨?_,?_,?_⟩
  · intro hne
    rcases hasset with (hnil | hin) | hout
    · exact absurd hnil hne
    · obtain ⟨p,hp,ha,-⟩ := contains_pair hin
      exact text_mem_dedup (List.mem_append_left _ hp) (ha.resolve_left hne)
    · obtain ⟨p,hp,ha,-⟩ := contains_pair hout
      exact text_mem_dedup (List.mem_append_right _ hp) (ha.resolve_left hne)
  · intro hne
    obtain ⟨p,hp,-,ho⟩ := contains_pair (hfrom.resolve_left hne)
    exact text_mem_dedup hp (ho.resolve_left hne)
  intro hne
  obtain ⟨p,hp,-,ho⟩ := contains_pair (hto.resolve_left hne)
  exact text_mem_dedup hp (ho.resolve_left hne)

variable {c : Column}

theorem wanted_mem (h : f.check tx) (hw : wanted f c = some v) : v ∈ columnValues tx c := by
  simp only [TransactionFilter.check,and_eq_true] at h
  obtain ⟨⟨⟨⟨-,hcall⟩,htransfer⟩,hlog⟩,-⟩ := h
  cases c with
  | callContracts =>
    obtain ⟨g,hg,hv⟩ := bind_eq_some_iff.mp hw
    rw [someText_eq_some] at hv
    obtain ⟨r,hr,hto,-⟩ := wanted_call hg hcall
    rw [columnValues,List.mem_filterMap]
    exact ⟨r,hr,by simp [hto.resolve_left hv.1,hv.2]⟩
  | callFunctions =>
    obtain ⟨g,hg,hv⟩ := bind_eq_some_iff.mp hw
    obtain ⟨r,hr,-,hfunction⟩ := wanted_call hg hcall
    rw [columnValues,List.mem_filterMap]
    refine ⟨r,hr,?_⟩
    rw [← hfunction.resolve_left (by rintro hnone; simp [hnone] at hv)]
    exact hv
  | assets =>
    obtain ⟨g,hg,hv⟩ := bind_eq_some_iff.mp hw
    rw [someText_eq_some] at hv
    rw [hv.2]
    exact (wanted_transfer_mem hg htransfer).1 hv.1
  | assetInputOwners =>
    obtain ⟨g,hg,hv⟩ := bind_eq_some_iff.mp hw
    rw [someText_eq_some] at hv
    rw [hv.2]
    exact (wanted_transfer_mem hg htransfer).2.1 hv.1
  | assetOutputOwners =>
    obtain ⟨g,hg,hv⟩ := bind_eq_some_iff.mp hw
    rw [someText_eq_some] at hv
    rw [hv.2]
    exact (wanted_transfer_mem hg htransfer).2.2 hv.1
  | logRaSet =>
    exact wanted_register_mem (fun l r hr => (log_registers hr).2.1) hlog hw
  | logRbSet =>
    exact wanted_register_mem (fun l r hr => (log_registers hr).2.2.1) hlog hw
  | logRcSet =>
    exact wanted_register_mem (fun l r hr => (log_registers hr).2.2.2.1) hlog hw
  | logRdSet =>
    exact wanted_register_mem (fun l r hr => (log_registers hr).2.2.2.2) hlog hw

def rowTest (filters : List TransactionFilter) (r : Row) : Bool :=
  match filters with
  | [] => true
  | [f] => (!f.excludeFailed || r.status = .success) &&
      columns.all fun c => (wanted f c).all fun v => (r.values c).contains v
  | f::g::rest => columns.all fun c => (collected (f::g::rest) c).isEmpty ||
      (r.values c).any (collected (f::g::rest) c).contains

variable {filters : List TransactionFilter}

def wherePart (filters : List TransactionFilter) (startBlock endBlock : ℕ) : Part Arg Row :=
  .linked .and (whereParts filters startBlock endBlock)

theorem flatMap_valid {A R : Type} {parts : X → List (Part A R)}
    (h : ∀ x, ∀ p ∈ parts x, p.valid) : ∀ p ∈ l.flatMap parts, p.valid := by
  intro p hp
  obtain ⟨x,-,hx⟩ := List.mem_flatMap.mp hp
  exact h x p hx

theorem singleParts_valid : ∀ p ∈ singleParts f, p.valid := by
  rw [singleParts,List.forall_mem_append]
  constructor
  · cases f.excludeFailed <;> simp [Part.valid,Part.ofPlain]
  apply flatMap_valid
  intro c
  cases wanted f c <;> simp [Part.valid,Part.ofHole,has]

theorem severalParts_valid : ∀ p ∈ severalParts filters, p.valid := by
  apply flatMap_valid
  intro c
  cases (collected filters c).isEmpty <;> simp [Part.valid,Part.ofHole,hasAny]

theorem wherePart_valid (startBlock endBlock : ℕ) :
    (wherePart filters startBlock endBlock).valid := by
  rw [wherePart,linked_valid,whereParts]
  refine ⟨by simp,?_⟩
  rw [List.forall_mem_append]
  constructor
  · simp [Part.valid,Part.ofHole,heightFrom,heightTo]
  rcases filters with _ | ⟨f,_ | ⟨g,rest⟩⟩
  · exact fun p hp => absurd hp List.not_mem_nil
  · exact singleParts_valid
  · exact severalParts_valid

theorem singleParts_passes {r : Row} : (singleParts f).all (·.passes r) = rowTest [f] r := by
  rw [singleParts,List.all_append,List.all_flatMap]
  congr 1
  · cases f.excludeFailed <;> simp [Part.passes,Part.ofPlain]
  congr 1
  funext c
  cases wanted f c <;> simp [Part.passes,Part.ofHole,has]

theorem severalParts_passes {g : TransactionFilter} {rest : List TransactionFilter} {r : Row} :
    (severalParts (f::g::rest)).all (·.passes r) = rowTest (f::g::rest) r := by
  rw [severalParts,List.all_flatMap]
  congr 1
  funext c
  cases (collected (f::g::rest) c).isEmpty <;> simp [Part.passes,Part.ofHole,hasAny]

theorem wherePart_passes (startBlock endBlock : ℕ)
    (w : WrappedTransaction) :
    (wherePart filters startBlock endBlock).passes (convert w) =
      (inHeights startBlock endBlock w && rowTest filters (convert w)) := by
  rw [wherePart,linked_passes (wherePart_valid startBlock endBlock),Link.holds,
    whereParts,List.all_append]
  congr 1
  · simp [Part.passes,Part.ofHole,heightFrom,heightTo,inHeights,convert]
  rcases filters with _ | ⟨f,_ | ⟨g,rest⟩⟩
  · rfl
  · exact singleParts_passes
  · exact severalParts_passes

/-- Each filter constrains the columns that any of them does. -/
def Columnwise (filters : List TransactionFilter) : Prop :=
  filters.length ≤ 1 ∨
    ∀ f ∈ filters, ∀ c, (∃ g ∈ filters, (wanted g c).isSome) → (wanted f c).isSome

theorem mem_collected (hf : f ∈ filters) (hv : wanted f c = some v) : v ∈ collected filters c :=
  List.mem_filterMap.mpr ⟨f,hf,hv⟩

theorem collected_nonempty :
    (collected filters c).isEmpty = false ↔ ∃ g ∈ filters, (wanted g c).isSome := by
  rw [List.isEmpty_eq_false_iff,collected,ne_eq,List.filterMap_eq_nil_iff]
  push Not
  simp [← isSome_iff_ne_none]

theorem rowTest_of_check (w : WrappedTransaction)
    (hcolumns : Columnwise filters) (h : checkTransaction w.transaction filters) :
    rowTest filters (convert w) := by
  match filters with
  | [] => rfl
  | [f] =>
    have hf : f.check w.transaction := by simpa [checkTransaction] using h
    rw [rowTest,Bool.and_eq_true,List.all_eq_true]
    constructor
    · simp only [TransactionFilter.check,Bool.and_eq_true] at hf
      exact hf.1.1.1.1
    intro c _
    cases hw : wanted f c with
    | none => rfl
    | some v => simpa [convert] using wanted_mem hf hw
  | f::g::rest =>
    obtain ⟨e,he,hcheck⟩ : ∃ e ∈ f::g::rest, e.check w.transaction := by
      simpa [checkTransaction] using h
    have hall := hcolumns.resolve_left (by simp)
    rw [rowTest,List.all_eq_true]
    intro c _
    cases hempty : (collected (f::g::rest) c).isEmpty with
    | true => rfl
    | false =>
      rw [Bool.false_or,List.any_eq_true]
      obtain ⟨v,hv⟩ := isSome_iff_exists.mp (hall e he c (collected_nonempty.mp hempty))
      exact ⟨v,wanted_mem hcheck hv,by simpa using mem_collected he hv⟩

def AlwaysAnswers (filters : List TransactionFilter) : Prop :=
  ∀ (table : Table) (startBlock endBlock limit : ℕ),
    Answers table.transactions (inHeights startBlock endBlock) limit (postFilter filters)
      (queryTransactions table.transactions startBlock endBlock filters limit)

theorem postFilter_isSome (w : WrappedTransaction) :
    (postFilter filters w).isSome ↔ checkTransaction w.transaction filters := by
  unfold postFilter
  split <;> simp [*]

theorem queryTransactions_eq (stored : List WrappedTransaction) (startBlock endBlock : ℕ)
    (limit : ℕ) :
    queryTransactions stored startBlock endBlock filters limit =
      query stored convert (wherePart filters startBlock endBlock).text
        ((wherePart filters startBlock endBlock).args++ []) limit (postFilter filters) := by
  rw [List.append_nil]
  rfl

section
variable (f : TransactionFilter) (s : Text) (n : ℕ)

variable {f s n}

end

def callOf (contractID : Text) : TransactionFilter :=
  ⟨some ⟨contractID,none⟩,none,none,none,false⟩

end Sentio.FuelQuery
