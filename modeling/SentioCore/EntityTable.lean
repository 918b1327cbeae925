import SentioCore.ChainStoreModel

/-!
# What the queries of a well-kept entity table answer

In a well-kept table the rows of a mutable entity have ascending blocks and the
row of an immutable entity is replaced only after a deletion.
-/

namespace Sentio.EntityTable
open KeyedRows ChainStoreModel List

section
variable {δ : Type}

def WellKept (t : EntityType) (table : List (EntityBox δ)) : Prop :=
  table.Pairwise (fun a b => a.id = b.id →
    if t.isImmutable then live a = false else a.genBlockNumber < b.genBlockNumber)

def liveRow (table : List (EntityBox δ)) (id : String) : Option (EntityBox δ) :=
  (lastOf EntityBox.id table id).filter live

/-- A map of boxes that holds the live rows of the table. -/
structure Mirrors (m table : List (EntityBox δ)) : Prop where
  nodup : (m.map EntityBox.id).Nodup
  find : ∀ id, (lookup EntityBox.id m id).filter live = liveRow table id

variable {b : EntityBox δ} {id : String} {table : List (EntityBox δ)}

variable {l : List (EntityBox δ)}

variable {t : EntityType}

variable {r : List (EntityBox δ)}

section
variable (h : WellKept t table)
include h

variable {excludeDeleted : Bool}

end

theorem Mirrors.mem (m table : List (EntityBox δ)) (h : Mirrors m table) (b : EntityBox δ)
    (hl : live b) : b ∈ m ↔ liveRow table b.id = some b := by
  rw [mem_iff_lookup EntityBox.id h.nodup,← h.find]
  simp [hl]

end

section
variable {δ : Type} (t : EntityType) (existing : List (EntityBox δ) → String → Bool)
  {queue : List (EntityBox δ)}

end

section
variable {δ : Type}

/-- The write order keeps each id's boxes as they were given. -/
theorem histories_filter (order : List String) (boxes : List (EntityBox δ))
    (hnd : order.Nodup) (hids : ∀ b ∈ boxes, b.id ∈ order)
    (hasc : boxes.Pairwise (fun a b => a.id = b.id → a.genBlockNumber < b.genBlockNumber))
    (id : String) :
    (histories order boxes).filter (fun b => b.id = id) =
      boxes.filter (fun b => b.id = id) := by
  have hsorted : ∀ id, (boxes.filter (fun b => b.id = id)).insertionSort
      (fun a b => a.genBlockNumber ≤ b.genBlockNumber) = boxes.filter (fun b => b.id = id) := by
    intro id
    apply List.Pairwise.insertionSort_eq
    exact ((pairwise_iff_filter EntityBox.id boxes).mp hasc id).imp (fun hab => Nat.le_of_lt hab)
  simp only [histories,hsorted]
  rw [filter_flatMap EntityBox.id hnd (fun k a ha => by simpa using (mem_filter.mp ha).2)]
  split
  · rfl
  rename_i hnot
  symm
  apply filter_eq_nil_iff.mpr
  intro b hb hid
  exact hnot (of_decide_eq_true hid ▸ hids b hb)

variable {keep : EntityBox δ → Bool} {check : EntityBox δ → Option Bool}

variable {m table : List (EntityBox δ)} {limit : ℕ}

end
end Sentio.EntityTable
