import SentioCore.RowScan
import SentioCore.SqlText

/-!
# Queries with a second check

A query hands a condition text and its arguments to the database and scans the
rows that pass, with a row limit and a check of each record it reads. The
records are listed in the order of the query, and `columns` gives the row of a
record. A query answers when it gives the records of the range that the second
check takes, or tells that the limit is hit.
-/

namespace Sentio.SqlQuery
open RowScan SqlText

inductive QueryError (E : Type) where
  | request (reason : E)
  | refused
  | tooManyResults
  deriving DecidableEq

/-- A scan that read as many rows as the limit allows is an error. -/
def limited {E T : Type} : Option (List T) → Except (QueryError E) (List T)
  | none => .error .tooManyResults
  | some result => .ok result

def query {A E R X T : Type} (records : List X) (columns : X → R) (condition : Cond A R)
    (args : List A) (limit : ℕ) (post : X → Option T) : Except (QueryError E) (List T) :=
  match condition args with
  | none => .error .refused
  | some (sql,_) => limited (scan records (fun x => sql (columns x)) limit post)

/-- The limit is hit, or the result is what is asked for. -/
def Answers {E X T : Type} (records : List X) (inRange : X → Bool) (limit : ℕ)
    (post : X → Option T) (result : Except (QueryError E) (List T)) : Prop :=
  (result = .error .tooManyResults ∧ 0 < limit ∧ limit ≤ (records.filter inRange).length) ∨
    result = .ok ((records.filter inRange).filterMap post)

variable {T E X : Type} {post : X → Option T} {records : List X} {limit : ℕ} {inRange : X → Bool}

theorem answers_limited {result : Option (List T)} :
    Answers (E := E) records inRange limit post (limited result) ↔
      Complete records inRange limit post result := by
  cases result with
  | none | some l => simp [Answers,Complete,limited]

theorem not_answers_refused (records : List X) (inRange : X → Bool) (limit : ℕ)
    (post : X → Option T) :
    ¬ Answers records inRange limit post (.error (.refused : QueryError E)) := by
  rintro (⟨h,-⟩ | h)
  · cases h
  · cases h

variable {A R : Type} {p : Part A R} {columns : X → R}

theorem query_of_valid {rest : List A} (h : p.valid) :
    query (E := E) records columns p.text (p.args++rest) limit post =
      limited (scan records (fun x => p.passes (columns x)) limit post) := by
  obtain ⟨sql,hsql⟩ := Option.isSome_iff_exists.mp h
  have hpass : ∀ r, p.passes r = sql r := fun r => by simp [Part.passes,hsql]
  simp [query,p.binds,hsql,Option.map_some,hpass]

theorem query_of_refused {rest : List A} (h : p.valid = false) :
    query (E := E) records columns p.text (p.args++rest) limit post = .error .refused := by
  have hnone : p.meaning = none := by simpa [Part.valid] using h
  simp [query,p.binds,hnone,Option.map_none]

theorem answers_of_passes
    (rest : List A) (sql : R → Bool) (limit : ℕ)
    (hvalid : p.valid) (hpass : ∀ x, p.passes (columns x) = (inRange x && sql (columns x)))
    (h : ∀ x ∈ records, inRange x → (post x).isSome → sql (columns x)) :
    Answers (E := E) records inRange limit post
      (query records columns p.text (p.args++rest) limit post) := by
  rw [query_of_valid hvalid,answers_limited]
  simp only [hpass]
  exact scan_complete h

theorem not_answers_of_dropped {x : X} {condition : Cond A R} {args : List A} (hrange : inRange x) (hpost : (post x).isSome)
    (hdrop : ∀ sql rest, condition args = some (sql,rest) → sql (columns x) = false) :
    ¬ Answers (E := E) [x] inRange 0 post (query [x] columns condition args 0 post) := by
  unfold query
  rcases hw : condition args with _ | result
  · exact not_answers_refused [x] inRange 0 post
  obtain ⟨sql,rest⟩ := result
  rw [answers_limited]
  exact not_complete_singleton hrange hpost (hdrop sql rest hw)

theorem not_answers_of_part (x : X) (columns : X → R) (p : Part A R)
    (inRange : X → Bool) (post : X → Option T) (hrange : inRange x)
    (hpost : (post x).isSome) (hdrop : p.valid → p.passes (columns x) = false) :
    ¬ Answers (E := E) [x] inRange 0 post (query [x] columns p.text (p.args++ []) 0 post) := by
  apply not_answers_of_dropped hrange hpost
  intro sql rest hsql
  obtain ⟨hvalid,hpass⟩ := p.of_text [] rest sql hsql
  rw [hpass,hdrop hvalid]

end Sentio.SqlQuery
