import SentioCore.EntityTable

/-!
# The caches of the chain store do not show

A chain store whose caches are filled by its own calls answers as one that has
just been opened over the same tables, as long as no write reaches a table
behind a loaded cache.
-/

namespace Sentio.ChainStoreCoherence
open KeyedRows ChainStoreModel EntityTable List

section
variable {δ : Type}

structure Coherent (o : Options) (t : EntityType) (s : EntityStore δ) : Prop where
  kept : WellKept t s.table
  full : ∀ m, s.fullCache = some m → Mirrors m s.table
  ids : ∀ ids, s.fullIDCache = some ids → ∀ id, (liveRow s.table id).isSome → id ∈ ids
  lru : ∀ id box, s.lruCache id = some box → liveRow s.table id = some box
  one : t.sparse → s.fullCacheRefused = false →
    (∀ id, s.lruCache id = none) ∧ s.fullIDCache = none
  usable : ∀ m, s.fullCache = some m → t.sparse ∧ s.fullCacheRefused = false
  known : t.timeSeries → ∀ ids, s.fullIDCache = some ids → ∀ id ∈ ids, ∃ a ∈ s.table, a.id = id

variable {t : EntityType} {table : List (EntityBox δ)}

variable {s : EntityStore δ} {o : Options}

/-- After an attempt to load, a type without a full cache is one that reads through. -/
structure Loaded (o : Options) (t : EntityType) (table : List (EntityBox δ))
    (s : EntityStore δ) : Prop where
  coherent : Coherent o t s
  table : s.table = table
  through : s.fullCache = none → t.sparse → s.fullCacheRefused

variable {id : String} {fromCache : Bool}

variable {numericLe : String → String → Bool} {check : EntityBox δ → Option Bool}
  {conditions : Option (EntityBox δ → Bool)} {limit : ℕ}

/-- What callers keep to: each id once, ascending blocks of a mutable entity, one write of an
immutable one, fresh ids of a time series. -/
structure Orderly (t : EntityType) (table : List (EntityBox δ)) (order : List String)
    (boxes : List (EntityBox δ)) : Prop where
  nodup : order.Nodup
  ids : ∀ b ∈ boxes, b.id ∈ order
  ascending : t.isImmutable = false → (table++boxes).Pairwise
    (fun a b => a.id = b.id → a.genBlockNumber < b.genBlockNumber)
  once : t.isImmutable → (boxes.map EntityBox.id).Nodup
  unused : t.timeSeries → ∀ a ∈ table, ∀ b ∈ boxes, a.id ≠ b.id

variable {boxes : List (EntityBox δ)} {order : List String}

section
variable {front : List (EntityBox δ)} (h : Coherent o t s) (ho : Orderly t s.table order boxes)
  (hpre : front <+: histories order boxes)
  (hnew : t.isImmutable → ∀ b ∈ front, existing o t s s.table b.id = false)
include h ho hpre hnew

end

variable {l : List (EntityBox δ)} {versioned : Bool}

variable {m : List (EntityBox δ)}

variable {after : List (EntityBox δ)}

end
end Sentio.ChainStoreCoherence
