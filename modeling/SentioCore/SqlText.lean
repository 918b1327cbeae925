import Mathlib.Data.List.Basic

/-!
# Condition texts and their arguments

A condition is written as a text with placeholders, and the arguments are handed
over in a list of their own. The driver fills the placeholders from left to
right, so a piece of text is known by what it means for the arguments not yet
used and by the arguments it leaves; a text that the database refuses means
nothing. A part is a text with the arguments written for it, and parts can be
joined without mixing them up.
-/

namespace Sentio.SqlText

abbrev Cond (A R : Type) := List A → Option ((R → Bool) × List A)

inductive Link where
  | and
  | or
  deriving DecidableEq

def Link.op : Link → Bool → Bool → Bool
  | .and => Bool.and
  | .or => Bool.or

def Link.holds {X : Type} : Link → List X → (X → Bool) → Bool
  | .and, l, test => l.all test
  | .or, l, test => l.any test

variable {A R : Type}

def plain (test : R → Bool) : Cond A R := fun args => some (test,args)

/-- A comparison with one placeholder; `read` refuses what it cannot be compared with. -/
def hole (read : A → Option (R → Bool)) : Cond A R
  | [] => none
  | a::args => (read a).map (·,args)

def joined (link : Link) (c d : Cond A R) : Cond A R := fun args =>
  match c args with
  | none => none
  | some (test,rest) =>
    (d rest).map fun later => (fun r => link.op (test r) (later.1 r),later.2)

def join (link : Link) : List (Cond A R) → Cond A R
  | [] => fun _ => none
  | [c] => c
  | c::d::rest => joined link c (join link (d::rest))

/-- A text together with the arguments written for it and what it means for them. -/
structure Part (A R : Type) where
  text : Cond A R
  args : List A
  meaning : Option (R → Bool)
  binds : ∀ rest, text (args++rest) = meaning.map (·,rest)

def Part.ofPlain (test : R → Bool) : Part A R :=
  ⟨plain test,[],some test,fun _ => rfl⟩

def Part.ofHole (read : A → Option (R → Bool)) (a : A) : Part A R :=
  ⟨hole read,[a],read a,fun _ => rfl⟩

def Part.valid (p : Part A R) : Bool := p.meaning.isSome

def Part.passes (p : Part A R) (r : R) : Bool := p.meaning.any (· r)

variable (p : Part A R)

theorem Part.of_text (tail rest : List A) (sql : R → Bool)
    (h : p.text (p.args++tail) = some (sql,rest)) : p.valid ∧ ∀ r, sql r = p.passes r := by
  rw [p.binds] at h
  obtain ⟨test,htest,heq⟩ := Option.map_eq_some_iff.mp h
  cases heq
  exact ⟨by rw [Part.valid,htest]; rfl,fun r => by rw [Part.passes,htest]; rfl⟩

variable {X : Type} {x : X} {link : Link} {test : X → Bool}

theorem holds_singleton : link.holds [x] test = test x := by
  cases link <;> simp [Link.holds]

theorem holds_cons_cons {y : X} {l : List X} :
    link.holds (x::y::l) test = link.op (test x) (link.holds (y::l) test) := by
  cases link <;> rfl

/-- What the parts mean together: they are all valid or the joined text is refused. -/
def meet (link : Link) (ps : List (Part A R)) : Option (R → Bool) :=
  if ps.all Part.valid then some fun r => link.holds ps (·.passes r) else none

theorem meet_singleton : meet link [p] = p.meaning := by
  simp only [meet,holds_singleton]
  cases hp : p.meaning <;> simp [Part.valid,Part.passes,hp]

variable {ps : List (Part A R)}

theorem meet_cons_cons {q : Part A R} : meet link (p::q::ps) = p.meaning.bind fun f =>
      (meet link (q::ps)).map fun g r => link.op (f r) (g r) := by
  rcases hp : p.meaning with _ | f
  · simp [meet,Part.valid,hp]
  have hpv : p.valid := by simp [Part.valid,hp]
  have hpt : ∀ r, p.passes r = f r := by simp [Part.passes,hp]
  have hall : (p::q::ps).all Part.valid = (q::ps).all Part.valid := by
    rw [List.all_cons,hpv,Bool.true_and]
  simp only [meet,holds_cons_cons,hall,hpt]
  cases (q::ps).all Part.valid <;> rfl

/-- The arguments of the parts fill the placeholders of the joined text. -/
theorem join_binds {rest : List A} :
    join link ((p::ps).map Part.text) ((p::ps).flatMap Part.args++rest)
      = (meet link (p::ps)).map (·,rest) := by
  induction ps generalizing p with
  | nil => simpa [join,meet_singleton] using p.binds rest
  | cons q ps ih =>
    have hq := ih q
    rw [List.map_cons] at hq
    rw [List.flatMap_cons,List.append_assoc,List.map_cons,List.map_cons,join,joined,
      p.binds,meet_cons_cons]
    cases p.meaning with
    | none => rfl
    | some f =>
      simp only [Option.map_some,Option.bind_some,hq,Option.map_map]
      rfl

def Part.linked (link : Link) (ps : List (Part A R)) : Part A R where
  text := join link (ps.map Part.text)
  args := ps.flatMap Part.args
  meaning := if ps = [] then none else meet link ps
  binds := fun rest => by
    cases ps with
    | nil => rfl
    | cons p ps => simpa using join_binds p

theorem linked_meaning (hps : ps ≠ []) : (Part.linked link ps).meaning = meet link ps := if_neg hps

theorem linked_valid (link : Link) (ps : List (Part A R)) :
    (Part.linked link ps).valid ↔ ps ≠ [] ∧ ∀ p ∈ ps, p.valid := by
  by_cases hps : ps = []
  · simp [hps,Part.linked,Part.valid]
  · rw [Part.valid,linked_meaning hps,meet]
    simp [hps]

theorem linked_passes {r : R} (h : (Part.linked link ps).valid) :
    (Part.linked link ps).passes r = link.holds ps (·.passes r) := by
  rw [linked_valid] at h
  rw [Part.passes,linked_meaning h.1,meet,if_pos (List.all_eq_true.mpr h.2)]
  rfl

theorem join_cons {c : Cond A R} {cs : List (Cond A R)}
    (h : cs ≠ []) : join link (c::cs) = joined link c (join link cs) := by
  cases cs with
  | nil => exact absurd rfl h
  | cons d cs => rfl

theorem passes_of_join_and {more : List (Cond A R)}
    {args rest : List A} {sql : R → Bool} {r : R}
    (h : join .and (ps.map Part.text++more) (ps.flatMap Part.args++args) = some (sql,rest))
    (hr : sql r) {p : Part A R} (hp : p ∈ ps) : p.passes r := by
  induction ps generalizing sql with
  | nil => exact absurd hp List.not_mem_nil
  | cons q ps ih =>
    rw [List.map_cons,List.flatMap_cons,List.append_assoc,List.cons_append] at h
    by_cases hnil : ps.map Part.text++more = []
    · rw [hnil,join,q.binds] at h
      have hps : ps = [] := by simpa using (List.append_eq_nil_iff.mp hnil).1
      obtain ⟨f,hf,heq⟩ := Option.map_eq_some_iff.mp h
      cases heq
      rw [hps,List.mem_singleton] at hp
      simp [hp,Part.passes,hf,hr]
    rw [join_cons hnil,joined,q.binds] at h
    rcases hq : q.meaning with _ | f
    · simp [hq] at h
    rw [hq] at h
    obtain ⟨later,hlater,heq⟩ := Option.map_eq_some_iff.mp h
    cases heq
    simp only [Link.op,Bool.and_eq_true] at hr
    rcases List.mem_cons.mp hp with rfl | hp
    · simp [Part.passes,hq,hr.1]
    · exact ih hlater hr.2 hp

end Sentio.SqlText
