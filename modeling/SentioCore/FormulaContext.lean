import SentioCore.FormulaFrame

/-!
# When an evaluation leaves its context alone

The points that an evaluation overwrites in place are those that `abs` is
applied to, and each of them ends up with its absolute value.
-/

namespace Sentio.FormulaContext
open CellMemory FormulaModel FormulaFrame List

section
variable {F : Type}

section
variable (ar : Arith F)

def absCell (c : Cell F) : Cell F := {c with value := ar.abs c.value}

def absHeap (cells : List ℕ) (h : List (Cell F)) : List (Cell F) :=
  h.mapIdx (fun a c => if a ∈ cells then absCell ar c else c)

def written (h : List (Cell F)) : List (Option ℕ) → List ℕ
  | [] => []
  | p::rest =>
    match p.bind (fun a => h[a]?) with
    | none => []
    | some _ => p.toList++written h rest

variable {a : ℕ} {h : List (Cell F)}

theorem absHeap_get {cells : List ℕ} :
    (absHeap ar cells h)[a]? = h[a]?.map (fun c => if a ∈ cells then absCell ar c else c) := by
  rw [absHeap,getElem?_mapIdx]

theorem absHeap_length (cells : List ℕ) :
    (absHeap ar cells h).length = h.length := by
  rw [absHeap,length_mapIdx]

theorem absHeap_nil : absHeap ar [] h = h := by
  apply ext_getElem?
  simp [absHeap_get]

theorem absHeap_append (first second : List ℕ) :
    absHeap ar second (absHeap ar first h) = absHeap ar (first++second) h := by
  apply ext_getElem?
  intro a
  rw [absHeap_get,absHeap_get,absHeap_get,Option.map_map]
  congr 1
  funext c
  by_cases h1 : a ∈ first <;> by_cases h2 : a ∈ second <;> simp [h1,h2,absCell,ar.abs_abs]

theorem written_congr {g : List (Cell F)} (hlen : g.length = h.length) (ps : List (Option ℕ)) :
    written g ps = written h ps := by
  induction ps with
  | nil => rfl
  | cons p rest ih =>
    rcases p with _ | a
    · rfl
    by_cases ha : a < h.length
    · have hg : a < g.length := by omega
      simp [written,getElem?_eq_getElem ha,getElem?_eq_getElem hg,ih]
    · have hg : g.length ≤ a := by omega
      simp [written,getElem?_eq_none (Nat.le_of_not_lt ha),getElem?_eq_none hg]

variable {ps : List (Option ℕ)}

theorem absPoints_heap : (absPoints ar ps h).2 = absHeap ar (written h ps) h := by
  induction ps generalizing h with
  | nil => exact (absHeap_nil ar).symm
  | cons p rest ih =>
    rcases hp : p.bind (fun a => h[a]?) with _ | c
    · simp only [absPoints,bind_run,deref,load,hp,written]
      exact (absHeap_nil ar).symm
    obtain ⟨a,rfl,ha⟩ := Option.bind_eq_some_iff.mp hp
    have hstep : h.modify a (fun x => {x with value := ar.abs c.value}) = absHeap ar [a] h := by
      apply ext_getElem?
      intro b
      rw [absHeap_get,getElem?_modify]
      by_cases hb : a = b
      · subst hb
        simp [ha,absCell]
      · simp [hb,Ne.symm hb]
    have hwritten : written h (some a::rest) = a::written h rest := by simp [written,ha]
    simp only [absPoints,bind_run,deref,load,hp,setValue,CellMemory.modify,Option.getD_some]
    rw [ih,hstep,written_congr (absHeap_length ar [a]),absHeap_append,hwritten]
    rfl

def samplePointers (sample : Option Sample) : List (Option ℕ) :=
  match sample with
  | none => [none]
  | some s => s.values

def pointers : Value F → List (Option ℕ)
  | .scalar _ => []
  | .vector sample => samplePointers sample
  | .matrix samples => samples.flatMap samplePointers

theorem absPoints_append (qs : List (Option ℕ)) : absPoints ar (ps++qs) = (do
      absPoints ar ps
      absPoints ar qs : Eval F Unit) := by
  funext h
  induction ps generalizing h with
  | nil => rfl
  | cons p rest ih =>
    cases hp : p.bind (fun a => h[a]?) with
    | none => simp only [cons_append,absPoints,bind_run,deref,load,hp]
    | some c =>
      simp only [cons_append,absPoints,bind_run,deref,load,hp,setValue,CellMemory.modify]
      exact ih _

theorem absSamples_heap {samples : List (Option Sample)} (h : List (Cell F)) :
    (absSamples ar samples h).2 = (absPoints ar (samples.flatMap samplePointers) h).2 := by
  induction samples generalizing h with
  | nil => rfl
  | cons sample rest ih =>
    rcases sample with _ | s
    · rfl
    rw [flatMap_cons,absPoints_append]
    simp only [absSamples,samplePointers,bind_run,need,done]
    cases hr : absPoints ar s.values h with
    | mk result next =>
      cases result with
      | error e => rfl
      | ok x => exact ih next

theorem abs_heap {value : Value F} : (evaluateAggregationExpression ar value .abs h).2 =
      absHeap ar (written h (pointers value)) h := by
  cases value with
  | scalar x => exact (absHeap_nil ar).symm
  | vector sample =>
    rw [← absPoints_heap]
    rcases sample with _ | s
    · rfl
    change ((absPoints ar s.values >>= fun _ => done (.vector (some s)) : Eval F (Value F)) h).2
      = (absPoints ar s.values h).2
    rw [bind_run]
    cases absPoints ar s.values h with
    | mk result next => cases result <;> rfl
  | matrix samples =>
    rw [← absPoints_heap,pointers,← absSamples_heap]
    change ((absSamples ar samples >>= fun _ => done (.matrix samples) : Eval F (Value F)) h).2
      = (absSamples ar samples h).2
    rw [bind_run]
    cases absSamples ar samples h with
    | mk result next => cases result <;> rfl

section
variable (values : String → Option (Value F))

/-- The points that the evaluation of an expression applies `abs` to. -/
def absPointsOf : Expression F → List (Cell F) → List ℕ
  | .constant _, _ | .identifier _, _ => []
  | .binary left _ right, h =>
    absPointsOf left h++
      match evaluate ar values left h with
      | (.ok _,next) => absPointsOf right next
      | (.error _,_) => []
  | .bracket expr, h => absPointsOf expr h
  | .aggregate op expr, h =>
    absPointsOf expr h++
      match evaluate ar values expr h with
      | (.ok v,next) => if op = .abs then written next (pointers v) else []
      | (.error _,_) => []

/-- The memory grew, and below the bound the listed points hold their absolute values. -/
def Overwrites (n : ℕ) (points : List ℕ) (h next : List (Cell F)) : Prop :=
  h.length ≤ next.length ∧ ∀ a < n, next[a]? = (absHeap ar points h)[a]?

variable {n : ℕ}

theorem overwrites_refl : Overwrites ar n [] h h := by
  refine ⟨le_rfl,fun a _ => ?_⟩
  rw [absHeap_nil]

theorem overwrites_trans {first : List ℕ} (second : List ℕ) {next last : List (Cell F)}
    (hf : Overwrites ar n first h next) (hs : Overwrites ar n second next last) :
    Overwrites ar n (first++second) h last := by
  refine ⟨hf.1.trans hs.1,fun a ha => ?_⟩
  rw [hs.2 a ha,absHeap_get,hf.2 a ha,← absHeap_get,absHeap_append]

theorem overwrites_local {α : Type} {m : Eval F α} (hm : Local n m)
    (hn : n ≤ h.length) : Overwrites ar n [] h (m h).2 := by
  obtain ⟨hlen,hkeep,_⟩ := hm h hn
  refine ⟨hlen,fun a ha => ?_⟩
  rw [hkeep a ha,absHeap_nil]

variable {value : Value F}

theorem overwrites_abs : Overwrites ar n (written h (pointers value)) h
      (evaluateAggregationExpression ar value .abs h).2 := by
  rw [abs_heap]
  exact ⟨(absHeap_length ar _).ge,fun _ _ => rfl⟩

theorem overwrites_aggregate {op : AggregateOp} (hn : n ≤ h.length) :
    Overwrites ar n (if op = .abs then written h (pointers value) else []) h
      (evaluateAggregationExpression ar value op h).2 := by
  by_cases hop : op = .abs
  · subst hop
    exact overwrites_abs ar
  · rw [if_neg hop]
    exact overwrites_local ar (evaluateAggregationExpression_local ar n value hop) hn

theorem evaluate_overwrites (expr : Expression F) (h : List (Cell F)) (hn : n ≤ h.length) :
    Overwrites ar n (absPointsOf ar values expr h) h (evaluate ar values expr h).2 := by
  induction expr generalizing h with
  | constant x => exact overwrites_refl ar
  | identifier name =>
    rw [evaluate]
    cases values name with
    | none | some v => exact overwrites_refl ar
  | binary left op right ihl ihr =>
    have hl := ihl h hn
    rw [evaluate,absPointsOf,bind_run]
    cases hle : evaluate ar values left h with
    | mk l next =>
      rw [hle] at hl
      rcases l with e | l
      · simpa only [append_nil] using hl
      have hr := ihr next (hn.trans hl.1)
      have hboth := overwrites_trans ar _ hl hr
      dsimp only
      rw [bind_run]
      cases hre : evaluate ar values right next with
      | mk r last =>
        rw [hre] at hboth
        cases r with
        | error e => exact hboth
        | ok r =>
          have hop := overwrites_local ar (evaluateBinaryExpression_local ar n l r op)
            (hn.trans hboth.1)
          simpa only [append_nil] using overwrites_trans ar _ hboth hop
  | bracket expr ih => exact ih h hn
  | aggregate op expr ih =>
    have he := ih h hn
    rw [evaluate,absPointsOf,bind_run]
    cases hee : evaluate ar values expr h with
    | mk v next =>
      rw [hee] at he
      cases v with
      | error e => simpa only [append_nil] using he
      | ok v =>
        exact overwrites_trans ar _ he (overwrites_aggregate ar (hn.trans he.1))

/-- Evaluations one after the other, each in the memory that the one before left. -/
def evaluateAll : List (Expression F) → List (Cell F) → List (Cell F)
  | [], h => h
  | expr::rest, h => evaluateAll rest (evaluate ar values expr h).2

def absPointsOfAll : List (Expression F) → List (Cell F) → List ℕ
  | [], _ => []
  | expr::rest, h =>
    absPointsOf ar values expr h++absPointsOfAll rest (evaluate ar values expr h).2

theorem evaluateAll_overwrites (exprs : List (Expression F)) (h : List (Cell F))
    (hn : n ≤ h.length) :
    Overwrites ar n (absPointsOfAll ar values exprs h) h (evaluateAll ar values exprs h) := by
  induction exprs generalizing h with
  | nil => exact overwrites_refl ar
  | cons expr rest ih =>
    have hfirst := evaluate_overwrites ar values expr h hn
    exact overwrites_trans ar _ hfirst (ih _ (hn.trans hfirst.1))

end

structure Context (F : Type) where
  memory : List (Cell F)
  values : String → Option (Value F)
  allocated : ∀ name v, values name = some v → ∀ a, some a ∈ pointers v → a < memory.length

def contents (h : List (Cell F)) (v : Value F) : List (Option (Cell F)) :=
  (pointers v).map (fun p => p.bind (fun a => h[a]?))

theorem contents_eq_iff {next : List (Cell F)} {v : Value F} :
    contents next v = contents h v ↔ ∀ a, some a ∈ pointers v → next[a]? = h[a]? := by
  rw [contents,contents,map_inj_left]
  constructor
  · intro hall a ha
    exact hall (some a) ha
  intro hall p hp
  cases p with
  | none => rfl
  | some a => exact hall a hp

theorem absHeap_keeps_iff {points : List ℕ} : (absHeap ar points h)[a]? = h[a]? ↔
      (a ∈ points → ∀ c, h[a]? = some c → ar.abs c.value = c.value) := by
  rw [absHeap_get]
  cases h[a]? with
  | none => simp
  | some c =>
    cases c with
    | mk timestamp value => by_cases ha : a ∈ points <;> simp [ha,absCell]

/-- The values of the context stay as they are through the evaluations exactly if every point of
theirs that `abs` is applied to holds its own absolute value. -/
theorem context_kept_iff (ctx : Context F) (exprs : List (Expression F)) :
    (∀ name v, ctx.values name = some v →
      contents (evaluateAll ar ctx.values exprs ctx.memory) v = contents ctx.memory v) ↔
    ∀ name v, ctx.values name = some v → ∀ a, some a ∈ pointers v →
      a ∈ absPointsOfAll ar ctx.values exprs ctx.memory →
      ∀ c, ctx.memory[a]? = some c → ar.abs c.value = c.value := by
  have heff := evaluateAll_overwrites ar ctx.values exprs ctx.memory le_rfl
  have hpoint : ∀ name v, ctx.values name = some v → ∀ a, some a ∈ pointers v →
      ((evaluateAll ar ctx.values exprs ctx.memory)[a]? = ctx.memory[a]? ↔
        (a ∈ absPointsOfAll ar ctx.values exprs ctx.memory →
          ∀ c, ctx.memory[a]? = some c → ar.abs c.value = c.value)) := by
    intro name v hv a ha
    rw [heff.2 a (ctx.allocated name v hv a ha),absHeap_keeps_iff]
  constructor
  · intro hkept name v hv a ha
    exact (hpoint name v hv a ha).mp (contents_eq_iff.mp (hkept name v hv) a ha)
  intro hsame name v hv
  apply contents_eq_iff.mpr
  intro a ha
  exact (hpoint name v hv a ha).mpr (hsame name v hv a ha)

end
end

def wholeNumbers : Arith ℤ where
  zero := 0
  maxFloat := 1000
  minFloat := -1000
  ofNat := Int.ofNat
  add := (· + ·)
  sub := (· - ·)
  mul := (· * ·)
  div := (· / ·)
  pow a b := a ^ b.toNat
  min := min
  max := max
  abs x := |x|
  nearZero x := x == 0
  abs_abs := abs_abs

def vectorA : Value ℤ := .vector (some ⟨none,[some 0]⟩)

def negativeContext : Context ℤ where
  memory := [⟨10,-1⟩]
  values name := if name = "a" then some vectorA else none
  allocated := by
    intro name v hv a ha
    split at hv
    · cases hv
      simp [pointers,samplePointers,vectorA] at ha
      simp [ha]
    · cases hv

def absMinusSelf : Expression ℤ :=
  .binary (.aggregate .abs (.identifier "a")) .minus (.identifier "a")

/-- The value of `abs(a) - a` for `a = -1` comes out as `0`, and `a` has become `1`. -/
theorem abs_overwrites_context : negativeContext.values "a" = some vectorA ∧
    contents negativeContext.memory vectorA = [some ⟨10,-1⟩] ∧
    contents (evaluateAll wholeNumbers negativeContext.values [absMinusSelf]
      negativeContext.memory) vectorA = [some ⟨10,1⟩] ∧
    (evaluate wholeNumbers negativeContext.values absMinusSelf negativeContext.memory).1 =
      .ok (.vector (some (newVectorValue [3]))) ∧
    (evaluate wholeNumbers negativeContext.values absMinusSelf negativeContext.memory).2[3]? =
      some ⟨10,0⟩ := by
  decide

end Sentio.FormulaContext
