import SentioCore.FormulaModel

/-!
# Where the operations of a formula write

Every binary operation and every aggregation other than `abs` writes only into
points that it allocated: the points of its operands stay as they are, whether
the operation succeeds or fails.
-/

namespace Sentio.FormulaFrame
open CellMemory FormulaModel List

section
variable {F : Type}

section
variable (ar : Arith F) (n : ℕ)

def Local {α : Type} (m : Eval F α) : Prop := Respects n (fun _ => True) m

variable {α : Type}

theorem local_done (x : α) : Local n (done x : Eval F α) := respects_done n x trivial

variable {β : Type}

theorem local_bind {m : Eval F α} {f : α → Eval F β} (hm : Local n m)
    (hf : ∀ x, Local n (f x)) : Local n (m >>= f) :=
  respects_bind hm (fun x _ => hf x)

theorem local_of {P : α → Prop} {m : Eval F α} (hm : Respects n P m) : Local n m :=
  respects_weaken hm (fun _ _ => trivial)

theorem local_each {f : α → Eval F β} {l : List α} (hf : ∀ a, Local n (f a)) : Local n (each f l) :=
  local_of n (respects_each n f l (fun a _ => hf a))

theorem local_need (p : Option α) : Local n (need p : Eval F α) := by
  cases p with
  | none => exact respects_fail
  | some x => exact local_done n x

theorem local_labelsOf (s : Sample) : Local n (labelsOf s : Eval F Labels) :=
  local_bind n (local_need n s.metric) (fun m => local_done n m.labels)

theorem local_deref (p : Option ℕ) : Local n (deref p : Eval F (Cell F)) := respects_load

def Fresh (points : List ℕ) : Prop := ∀ a ∈ points, n ≤ a

variable {values : List (Option ℕ)}

theorem fresh_copyPoints : Respects n (Fresh n) (copyPoints ar values) := by
  apply respects_each
  intro p _
  apply respects_bind (local_deref n p)
  intro c _
  exact respects_alloc n

theorem fresh_copyFromVectorValues {a b : Sample} :
    Respects n (Fresh n) (copyFromVectorValues ar a b) := by
  apply respects_bind (fresh_copyPoints ar n)
  intro first _
  apply respects_bind (fresh_copyPoints ar n)
  intro second _
  apply respects_bind (local_each n (local_deref n))
  intro cells _
  exact respects_each n _ _ (fun t _ => respects_alloc n)

variable {f : F → F}

theorem fill_local (points : List ℕ) (hp : Fresh n points) : Local n (fill f values points) := by
  induction values generalizing points with
  | nil => exact local_done n ()
  | cons p rest ih =>
    rcases points with _ | ⟨a,points⟩
    · exact local_done n ()
    apply local_bind n (local_deref n p)
    intro c
    apply local_bind n (respects_modify n a (hp a mem_cons_self))
    intro _
    exact ih points (fun b hb => hp b (mem_cons_of_mem a hb))

theorem fresh_mapPoints {s : Sample} : Respects n (Fresh n) (mapPoints ar f s) := by
  apply respects_bind (fresh_copyPoints ar n)
  intro points hp
  apply respects_bind (fill_local n points hp)
  intro _ _
  exact respects_done n points hp

variable {sample : Option Sample}

theorem mapVector_local : Local n (mapVector ar f sample) := by
  apply local_bind n (local_need n sample)
  intro s
  apply local_bind n (local_of n (fresh_mapPoints ar n))
  intro points
  exact local_done n _

theorem fresh_copySample (sample : Option Sample) :
    Respects n (fun s => Fresh n (s.values.filterMap id)) (copySample ar sample) := by
  apply respects_bind (local_need n sample)
  intro s _
  apply respects_bind (local_labelsOf n s)
  intro labels _
  apply respects_bind (fresh_copyPoints ar n)
  intro points hp
  apply respects_done
  simpa [filterMap_map] using hp

variable {samples : List (Option Sample)}

theorem fresh_copyFromMatrixValue :
    Respects n (fun copies => ∀ s ∈ copies, Fresh n (s.values.filterMap id))
      (copyFromMatrixValue ar samples) :=
  respects_each n _ _ (fun sample _ => fresh_copySample ar n sample)

theorem fillSamples_local (copies : List Sample)
    (hc : ∀ s ∈ copies, Fresh n (s.values.filterMap id)) :
    Local n (fillSamples f samples copies) := by
  induction samples generalizing copies with
  | nil => exact local_done n ()
  | cons sample rest ih =>
    rcases copies with _ | ⟨copy,copies⟩
    · exact local_done n ()
    apply local_bind n (local_need n sample)
    intro s
    apply local_bind n (fill_local n _ (hc copy mem_cons_self))
    intro _
    exact ih copies (fun s hs => hc s (mem_cons_of_mem copy hs))

theorem mapMatrix_local : Local n (mapMatrix ar f samples) := by
  apply respects_bind (fresh_copyFromMatrixValue ar n)
  intro copies hc
  apply local_bind n (fillSamples_local n copies hc)
  intro _
  exact local_done n _

variable {t : ℤ}

theorem skipBefore_local (before : Option (Option ℕ)) :
    Local n (skipBefore t before values : Eval F Cursor) := by
  induction values generalizing before with
  | nil => exact local_done n _
  | cons p rest ih =>
    apply local_bind n (local_deref n p)
    intro c
    split
    · exact ih (some p)
    · exact local_done n _

theorem valueAt_local (cursor : Cursor) : Local n (valueAt ar t cursor) := by
  rw [valueAt]
  split
  · exact local_done n _
  apply local_bind n (local_deref n _)
  intro c
  split
  · exact local_done n _
  split
  · exact local_done n _
  apply local_bind n (local_deref n _)
  intro previous
  exact local_done n _

theorem combine_local {op : F → F → F} (larger smaller : Cursor) {points : List ℕ}
    (hp : Fresh n points) : Local n (combine ar op larger smaller points) := by
  induction points generalizing larger smaller with
  | nil => exact local_done n ()
  | cons a points ih =>
    apply local_bind n (local_deref n _)
    intro target
    apply local_bind n (skipBefore_local n _)
    intro small
    apply local_bind n (skipBefore_local n _)
    intro large
    apply local_bind n (valueAt_local ar n _)
    intro r
    apply local_bind n (valueAt_local ar n _)
    intro l
    apply local_bind n (respects_modify n a (hp a mem_cons_self))
    intro _
    exact ih large small (fun b hb => hp b (mem_cons_of_mem a hb))

theorem copyWhenEmpty_local {larger smaller : Sample} :
    Local n (copyWhenEmpty ar larger smaller) := by
  rw [copyWhenEmpty]
  split
  · exact local_of n (fresh_copyPoints ar n)
  · exact local_done n []

variable {op : BinaryOp}

theorem fresh_vectorVector {left right : Sample} :
    Respects n (Fresh n) (vectorVector ar left right op) := by
  apply respects_bind (copyWhenEmpty_local ar n)
  intro _ _
  apply respects_bind (fresh_copyFromVectorValues ar n)
  intro points hp
  apply respects_bind (combine_local ar n _ _ hp)
  intro _ _
  exact respects_done n points hp

theorem vectorVector_local (left right : Sample) : Local n (vectorVector ar left right op) :=
  local_of n (fresh_vectorVector ar n)

variable {left right : Option Sample}

theorem evaluateVectorVector_local : Local n (evaluateVectorVector ar left right op) := by
  apply local_bind n (local_need n left)
  intro l
  apply local_bind n (local_need n right)
  intro r
  apply local_bind n (vectorVector_local ar n l r)
  intro points
  exact local_done n _

variable {f : Sample → Eval F (List ℕ)}

theorem combineSamples_local (hf : ∀ s, Local n (f s))
    (copies : List Sample) : Local n (combineSamples f samples copies) := by
  induction samples generalizing copies with
  | nil => exact local_done n []
  | cons sample rest ih =>
    rcases copies with _ | ⟨copy,copies⟩
    · exact local_done n []
    apply local_bind n (local_need n sample)
    intro s
    apply local_bind n (hf s)
    intro points
    apply local_bind n (ih copies)
    intro later
    exact local_done n _

theorem copyFromMatrixValue_local : Local n (copyFromMatrixValue ar samples) :=
  local_of n (fresh_copyFromMatrixValue ar n)

/-- Copies of the samples, combined with a vector one by one. -/
theorem combined_local (hf : ∀ s, Local n (f s)) : Local n (do
      let copies ← copyFromMatrixValue ar samples
      let combined ← combineSamples f samples copies
      done (Value.matrix (combined.map some)) : Eval F (Value F)) := by
  apply local_bind n (copyFromMatrixValue_local ar n)
  intro copies
  apply local_bind n (combineSamples_local n hf copies)
  intro combined
  exact local_done n _

theorem evaluateVectorMatrix_local {right : List (Option Sample)}
    : Local n (evaluateVectorMatrix ar left right op) :=
  combined_local ar n (fun s => local_bind n (local_need n left)
    (fun l => vectorVector_local ar n l s))

theorem evaluateMatrixVector_local {left : List (Option Sample)}
    : Local n (evaluateMatrixVector ar left right op) :=
  combined_local ar n (fun s => local_bind n (local_need n right)
    (fun r => vectorVector_local ar n s r))

theorem sampleLabels_local : Local n (sampleLabels samples : Eval F (List Labels)) :=
  local_each n (fun sample => local_bind n (local_need n sample) (local_labelsOf n))

variable {swapped : Bool}

theorem pairPoints_local {sample other : Sample} :
    Local n (pairPoints ar op swapped sample other) := by
  rw [pairPoints]
  split
  · exact vectorVector_local ar n other sample
  · exact vectorVector_local ar n sample other

variable {labelPool : List String} {smaller larger : List (Option Sample)} {index : MatrixIndex}

theorem matrixRound_local (result : List Sample) {i : ℕ} :
    Local n (matrixRound ar op swapped larger smaller labelPool index result i) := by
  apply local_bind n (local_need n _)
  intro sample
  apply local_bind n (local_labelsOf n sample)
  intro labels
  split
  · apply local_bind n (local_need n _)
    intro other
    apply local_bind n (pairPoints_local ar n)
    intro points
    apply local_bind n (local_labelsOf n other)
    intro otherLabels
    exact local_done n _
  · apply local_bind n (local_of n (fresh_mapPoints ar n))
    intro points
    exact local_done n _

theorem matrixRounds_local (result : List Sample) {rounds : List ℕ} :
    Local n (matrixRounds ar op swapped larger smaller labelPool index result rounds) := by
  induction rounds generalizing result with
  | nil => exact local_done n result
  | cons i rest ih =>
    apply local_bind n (matrixRound_local ar n result)
    intro next
    exact ih next

theorem evaluateMatrixMatrix_local {left right : List (Option Sample)} :
    Local n (evaluateMatrixMatrix ar left right op) := by
  have hcopy : ∀ samples, Local n (do
      let copies ← copyFromMatrixValue ar samples
      done (Value.matrix (copies.map some)) : Eval F (Value F)) := fun samples =>
    local_bind n (copyFromMatrixValue_local ar n) (fun copies => local_done n _)
  rw [evaluateMatrixMatrix]
  split
  · exact hcopy left
  apply local_bind n (sampleLabels_local n)
  intro leftLabels
  apply local_bind n (sampleLabels_local n)
  intro rightLabels
  have hrounds : ∀ larger smaller swapped pool index unmatched, Local n (do
      let copies ← copyFromMatrixValue ar larger
      let samples ← matrixRounds ar op swapped larger smaller pool index
        (addUnmatched copies unmatched) (range (addUnmatched copies unmatched).length)
      done (Value.matrix (samples.map some)) : Eval F (Value F)) := by
    intro larger smaller swapped pool index unmatched
    apply local_bind n (copyFromMatrixValue_local ar n)
    intro copies
    apply local_bind n (matrixRounds_local ar n _)
    intro samples
    exact local_done n _
  dsimp only
  split <;> split
  · exact hcopy left
  · exact hrounds _ _ _ _ _ _
  · exact hcopy left
  · exact hrounds _ _ _ _ _ _

theorem evaluateBinaryExpression_local (left right : Value F) (op : BinaryOp) :
    Local n (evaluateBinaryExpression ar left right op) := by
  cases left with
  | scalar l =>
    cases right with
    | scalar r => exact local_done n _
    | vector r => exact mapVector_local ar n
    | matrix r => exact mapMatrix_local ar n
  | vector l =>
    cases right with
    | scalar r => exact mapVector_local ar n
    | vector r => exact evaluateVectorVector_local ar n
    | matrix r => exact evaluateVectorMatrix_local ar n
  | matrix l =>
    cases right with
    | scalar r => exact mapMatrix_local ar n
    | vector r => exact evaluateMatrixVector_local ar n
    | matrix r => exact evaluateMatrixMatrix_local ar n

theorem evaluateMatrixAggregate_local {op : AggregateOp} :
    Local n (evaluateMatrixAggregate ar samples op) := by
  rw [evaluateMatrixAggregate]
  split
  · exact local_done n _
  apply local_bind n (local_each n (fun sample =>
    local_bind n (local_need n sample) (fun s => local_each n (local_deref n))))
  intro cells
  apply local_bind n (local_each n (fun t => local_of n (respects_alloc n)))
  intro points
  exact local_done n _

variable {op : AggregateOp}

theorem evaluateVectorAggregate_local
    (hop : op ≠ .abs) : Local n (evaluateVectorAggregate ar sample op) := by
  have hread : Local n (do
      let s ← need sample
      let cells ← each deref s.values
      done (Value.scalar (aggregateValues ar op (cells.map Cell.value))) : Eval F (Value F)) := by
    apply local_bind n (local_need n sample)
    intro s
    apply local_bind n (local_each n (local_deref n))
    intro cells
    exact local_done n _
  cases op with
  | abs => exact absurd rfl hop
  | other name => exact local_done n _
  | sum | avg | min | max => exact hread

theorem evaluateAggregationExpression_local (value : Value F)
    (hop : op ≠ .abs) : Local n (evaluateAggregationExpression ar value op) := by
  cases value with
  | scalar x =>
    cases op with
    | abs => exact absurd rfl hop
    | _ => exact local_done n _
  | vector sample => exact evaluateVectorAggregate_local ar n hop
  | matrix samples =>
    cases op with
    | abs => exact absurd rfl hop
    | _ => exact evaluateMatrixAggregate_local ar n

end
end

end Sentio.FormulaFrame
