import Mathlib.Data.List.Basic

/-!
# A scan with a row limit

The rows of a table, in the order of the query, go through the condition of the
query; at most `limit` of them are read, and reading `limit` rows is reported
instead of a result that may be cut short. What is read goes through a second
check.
-/

namespace Sentio.RowScan

/-- `none` is a scan that read as many rows as the limit allows; a limit of zero is no limit. -/
def scan {R T : Type} (rows : List R) (sql : R → Bool) (limit : ℕ) (post : R → Option T) :
    Option (List T) :=
  let raw := if limit = 0 then rows.filter sql else (rows.filter sql).take limit
  if 0 < limit ∧ limit ≤ raw.length then none else some (raw.filterMap post)

variable {T R : Type}

theorem scan_eq (rows : List R) (sql : R → Bool) (limit : ℕ) (post : R → Option T) :
    scan rows sql limit post = if 0 < limit ∧ limit ≤ (rows.filter sql).length then none
      else some ((rows.filter sql).filterMap post) := by
  unfold scan
  by_cases h0 : limit = 0
  · simp [h0]
  by_cases hl : limit ≤ (rows.filter sql).length
  · simp [Nat.pos_of_ne_zero h0,h0,hl]
  · rw [if_neg h0,List.take_of_length_le (by omega)]

theorem filterMap_filter_length_le (rows : List R) (p : R → Bool) (post : R → Option T) :
    ((rows.filter p).filterMap post).length ≤ (rows.filterMap post).length :=
  (List.filter_sublist.filterMap post).length_le

/-- Rows may be left out without loss exactly when the second check takes none of them. -/
theorem filterMap_filter_eq_iff {rows : List R} {p : R → Bool} {post : R → Option T} :
    (rows.filter p).filterMap post = rows.filterMap post ↔
      ∀ r ∈ rows, (post r).isSome → p r := by
  induction rows with
  | nil => simp
  | cons r rows ih =>
    rw [List.forall_mem_cons,← ih]
    rcases hpost : post r with _ | t
    · cases hp : p r <;> simp [hpost,hp]
    rcases hp : p r with _ | _
    swap
    · simp [hpost,hp]
    have hle := filterMap_filter_length_le rows p post
    constructor
    · intro h
      have hlen := congrArg List.length h
      simp [hpost,hp] at hlen
      omega
    · intro h
      simp at h

/-- The scan tells that the limit is hit, or gives the whole answer for the range. -/
def Complete {R T : Type} (rows : List R) (inRange : R → Bool) (limit : ℕ)
    (post : R → Option T) (result : Option (List T)) : Prop :=
  (result = none ∧ 0 < limit ∧ limit ≤ (rows.filter inRange).length) ∨
    result = some ((rows.filter inRange).filterMap post)

variable {post : R → Option T} {sql inRange : R → Bool}

/-- A condition that passes every row the second check takes makes the scan complete. -/
theorem scan_complete {rows : List R} {limit : ℕ}
    (h : ∀ r ∈ rows, inRange r → (post r).isSome → sql r) :
    Complete rows inRange limit post
      (scan rows (fun r => inRange r && sql r) limit post) := by
  have hfilter : rows.filter (fun r => inRange r && sql r)
      = (rows.filter inRange).filter sql := by
    rw [List.filter_filter]
    exact List.filter_congr fun r _ => Bool.and_comm _ _
  rw [scan_eq,hfilter]
  by_cases hl : 0 < limit ∧ limit ≤ ((rows.filter inRange).filter sql).length
  · rw [if_pos hl]
    exact Or.inl ⟨rfl,hl.1,Nat.le_trans hl.2 (List.length_filter_le _ _)⟩
  rw [if_neg hl]
  right
  rw [Option.some.injEq,filterMap_filter_eq_iff]
  intro r hr
  rw [List.mem_filter] at hr
  exact h r hr.1 hr.2

theorem not_complete_singleton {r : R} (hrange : inRange r) (hpost : (post r).isSome)
    (hsql : sql r = false) : ¬ Complete [r] inRange 0 post (scan [r] sql 0 post) := by
  obtain ⟨t,ht⟩ := Option.isSome_iff_exists.mp hpost
  intro h
  rcases h with ⟨-,h,-⟩ | h
  · exact absurd h (Nat.lt_irrefl 0)
  · rw [scan_eq] at h
    simp [hsql,hrange,ht] at h

end Sentio.RowScan
