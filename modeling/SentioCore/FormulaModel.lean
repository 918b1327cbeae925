import SentioCore.CellMemory
import Mathlib.Data.List.Sort

/-!
# Formulas over scalars, vectors and matrices

The points of a sample are cells behind pointers, and a value of the context is
handed on by its pointers. Binary operations copy the points before they write;
`abs` writes into the points it is given. A missing pointer ends an evaluation
with an error, as every panic does. Numbers are abstract: their operations are
those of the floating point arithmetic. What a matrix remembers of its labels
between two operations is computed anew here.
-/

namespace Sentio.FormulaModel
open CellMemory

/-- The arithmetic of the numbers; the absolute value of an absolute value is itself. -/
structure Arith (F : Type) where
  zero : F
  maxFloat : F
  minFloat : F
  ofNat : ℕ → F
  add : F → F → F
  sub : F → F → F
  mul : F → F → F
  div : F → F → F
  pow : F → F → F
  min : F → F → F
  max : F → F → F
  abs : F → F
  nearZero : F → Bool
  abs_abs : ∀ x, abs (abs x) = abs x

inductive BinaryOp where
  | plus
  | minus
  | mul
  | div
  | pow
  | other (name : String)
  deriving DecidableEq

inductive AggregateOp where
  | sum
  | avg
  | min
  | max
  | abs
  | other (name : String)
  deriving DecidableEq

inductive Failure where
  | unknownIdentifier (name : String)
  | panic
  deriving DecidableEq

structure Cell (F : Type) where
  timestamp : ℤ
  value : F
  deriving DecidableEq

/-- A map of labels may be missing. -/
abbrev Labels : Type := Option (List (String × String))

structure Metric where
  labels : Labels
  deriving DecidableEq

structure Sample where
  metric : Option Metric
  values : List (Option ℕ)
  deriving DecidableEq

inductive Value (F : Type) where
  | scalar (value : F)
  | vector (sample : Option Sample)
  | matrix (samples : List (Option Sample))
  deriving DecidableEq

inductive Expression (F : Type) where
  | constant (value : F)
  | identifier (name : String)
  | binary (left : Expression F) (op : BinaryOp) (right : Expression F)
  | bracket (expr : Expression F)
  | aggregate (op : AggregateOp) (expr : Expression F)
  deriving DecidableEq

def Labels.pairs (labels : Labels) : List (String × String) := labels.getD []

def Labels.get (labels : Labels) (key : String) : String :=
  ((labels.pairs.find? (fun kv => kv.1 = key)).map Prod.snd).getD ""

/-- Two maps are deeply equal if they hold the same pairs and neither or both are missing. -/
def deepEqual (a b : Labels) : Bool :=
  a.isSome = b.isSome && a.pairs.length = b.pairs.length &&
    a.pairs.all (fun kv => b.pairs.contains kv)

inductive MatrixIndex where
  | node (value : ℕ) (index : List (String × MatrixIndex))

namespace MatrixIndex

def find (index : List (String × MatrixIndex)) (key : String) : Option MatrixIndex :=
  (index.find? (fun entry => entry.1 = key)).map Prod.snd

def add (mi : MatrixIndex) (value : ℕ) : List String → MatrixIndex
  | [] =>
    match mi with
    | .node _ index => .node value index
  | key::rest =>
    match mi with
    | .node v index =>
      .node v ((key,add ((find index key).getD (.node 0 [])) value rest)::
        index.filter (fun entry => entry.1 ≠ key))

def get (mi : MatrixIndex) : List String → Option ℕ
  | [] =>
    match mi with
    | .node value _ => some value
  | key::rest =>
    match mi with
    | .node _ index =>
      match find index key with
      | none => none
      | some child => get child rest

end MatrixIndex

def labelString (key value : String) : String := key++"="++value

def labelStrings (kvs : List (String × String)) : List String :=
  (kvs.insertionSort (fun a b => a.1 ≤ b.1)).map (fun kv => labelString kv.1 kv.2)

section
variable {F : Type}

abbrev Eval (F α : Type) : Type := Run (Cell F) Failure α

def deref (p : Option ℕ) : Eval F (Cell F) := load .panic p

def setValue (a : ℕ) (x : F) : Eval F Unit := modify (fun c => {c with value := x}) a

def need {α : Type} (p : Option α) : Eval F α :=
  match p with
  | none => fail .panic
  | some x => done x

def labelsOf (s : Sample) : Eval F Labels := do
  let metric ← need s.metric
  done metric.labels

section
variable (ar : Arith F)

def evaluateBinary (left right : F) : BinaryOp → F
  | .plus => ar.add left right
  | .minus => ar.sub left right
  | .mul => ar.mul left right
  | .div => if ar.nearZero right then ar.zero else ar.div left right
  | .pow => ar.pow left right
  | .other _ => ar.zero

def skipRepeats : List ℤ → List ℤ
  | a::b::rest => if a = b then skipRepeats (b::rest) else a::skipRepeats (b::rest)
  | l => l

def copyPoints (values : List (Option ℕ)) : Eval F (List ℕ) :=
  each (fun p => do
    let c ← deref p
    alloc ⟨c.timestamp,ar.zero⟩) values

def allocAll (timestamps : List ℤ) : Eval F (List ℕ) :=
  each (fun t => alloc ⟨t,ar.zero⟩) timestamps

def newVectorValue (points : List ℕ) : Sample := ⟨some ⟨some []⟩,points.map some⟩

def copyFromVectorValue (s : Sample) : Eval F (List ℕ) := copyPoints ar s.values

/-- The points of two vectors are merged by their timestamps. -/
def copyFromVectorValues (a b : Sample) : Eval F (List ℕ) := do
  let first ← copyPoints ar a.values
  let second ← copyPoints ar b.values
  let cells ← each deref ((first++second).map some)
  allocAll ar (skipRepeats ((cells.map Cell.timestamp).insertionSort (fun a b => a ≤ b)))

def fill (f : F → F) : List (Option ℕ) → List ℕ → Eval F Unit
  | p::rest, a::points => do
    let c ← deref p
    setValue a (f c.value)
    fill f rest points
  | _, _ => done ()

def mapPoints (f : F → F) (s : Sample) : Eval F (List ℕ) := do
  let points ← copyFromVectorValue ar s
  fill f s.values points
  done points

def mapVector (f : F → F) (sample : Option Sample) : Eval F (Value F) := do
  let s ← need sample
  let points ← mapPoints ar f s
  done (.vector (some (newVectorValue points)))

def copySample (sample : Option Sample) : Eval F Sample := do
  let s ← need sample
  let labels ← labelsOf s
  let points ← copyPoints ar s.values
  done ⟨some ⟨labels⟩,points.map some⟩

variable (samples : List (Option Sample))

def copyFromMatrixValue : Eval F (List Sample) :=
  each (copySample ar) samples

def fillSamples (f : F → F) : List (Option Sample) → List Sample → Eval F Unit
  | sample::rest, copy::copies => do
    let s ← need sample
    fill f s.values (copy.values.filterMap id)
    fillSamples f rest copies
  | _, _ => done ()

def mapMatrix (f : F → F) (samples : List (Option Sample)) : Eval F (Value F) := do
  let copies ← copyFromMatrixValue ar samples
  fillSamples f samples copies
  done (.matrix (copies.map some))

def evaluateScalarVector (left : F) (right : Option Sample) (op : BinaryOp) : Eval F (Value F) :=
  mapVector ar (fun x => evaluateBinary ar left x op) right

def evaluateVectorScalar (left : Option Sample) (right : F) (op : BinaryOp) : Eval F (Value F) :=
  mapVector ar (fun x => evaluateBinary ar x right op) left

def evaluateScalarMatrix (left : F) (right : List (Option Sample)) (op : BinaryOp) :
    Eval F (Value F) :=
  mapMatrix ar (fun x => evaluateBinary ar left x op) right

def evaluateMatrixScalar (left : List (Option Sample)) (right : F) (op : BinaryOp) :
    Eval F (Value F) :=
  mapMatrix ar (fun x => evaluateBinary ar x right op) left

/-- A position in a vector: the point before it and the points from it on. -/
structure Cursor where
  before : Option (Option ℕ)
  rest : List (Option ℕ)

def skipBefore (t : ℤ) (before : Option (Option ℕ)) : List (Option ℕ) → Eval F Cursor
  | [] => done ⟨before,[]⟩
  | p::rest => do
    let c ← deref p
    if c.timestamp < t then skipBefore t (some p) rest else done ⟨before,p::rest⟩

/-- The value at a time: that of the point itself, else that of the point before it. -/
def valueAt (t : ℤ) (cursor : Cursor) : Eval F F :=
  match cursor.rest with
  | [] => done ar.zero
  | p::_ => do
    let c ← deref p
    if c.timestamp = t then done c.value
    else
      match cursor.before with
      | none => done ar.zero
      | some q => do
        let previous ← deref q
        done previous.value

def combine (op : F → F → F) (larger smaller : Cursor) : List ℕ → Eval F Unit
  | [] => done ()
  | a::points => do
    let target ← deref (some a)
    let small ← skipBefore target.timestamp smaller.before smaller.rest
    let large ← skipBefore target.timestamp larger.before larger.rest
    let r ← valueAt ar target.timestamp small
    let l ← valueAt ar target.timestamp large
    setValue a (op l r)
    combine op large small points

/-- The copy that the source makes of the larger vector when the smaller one is empty; the loop
below replaces it. -/
def copyWhenEmpty (larger smaller : Sample) : Eval F (List ℕ) :=
  if smaller.values.isEmpty then copyFromVectorValue ar larger else done []

def vectorVector (left right : Sample) (op : BinaryOp) : Eval F (List ℕ) := do
  let swapped := decide (left.values.length < right.values.length)
  let larger := if swapped then right else left
  let smaller := if swapped then left else right
  let _ ← copyWhenEmpty ar larger smaller
  let points ← copyFromVectorValues ar larger smaller
  combine ar (fun l r => if swapped then evaluateBinary ar r l op else evaluateBinary ar l r op)
    ⟨none,larger.values⟩ ⟨none,smaller.values⟩ points
  done points

def evaluateVectorVector (left right : Option Sample) (op : BinaryOp) : Eval F (Value F) := do
  let l ← need left
  let r ← need right
  let points ← vectorVector ar l r op
  done (.vector (some (newVectorValue points)))

def combineSamples (f : Sample → Eval F (List ℕ)) :
    List (Option Sample) → List Sample → Eval F (List Sample)
  | sample::rest, copy::copies => do
    let s ← need sample
    let points ← f s
    let later ← combineSamples f rest copies
    done ({copy with values := points.map some}::later)
  | _, _ => done []

def evaluateVectorMatrix (left : Option Sample) (right : List (Option Sample)) (op : BinaryOp) :
    Eval F (Value F) := do
  let copies ← copyFromMatrixValue ar right
  let samples ← combineSamples (fun s => do
    let l ← need left
    vectorVector ar l s op) right copies
  done (.matrix (samples.map some))

def evaluateMatrixVector (left : List (Option Sample)) (right : Option Sample) (op : BinaryOp) :
    Eval F (Value F) := do
  let copies ← copyFromMatrixValue ar left
  let samples ← combineSamples (fun s => do
    let r ← need right
    vectorVector ar s r op) left copies
  done (.matrix (samples.map some))

def sampleLabels : Eval F (List Labels) :=
  each (fun sample => do
    let s ← need sample
    labelsOf s) samples

def keysOf (labels : List Labels) : List String :=
  (labels.flatMap (fun l => l.pairs.map Prod.fst)).foldl
    (fun keys key => if keys.contains key then keys else keys++[key]) []

def buildIndex (keys : List String) (labels : List Labels) : MatrixIndex :=
  labels.zipIdx.foldl (fun index entry =>
    index.add entry.2 (labelStrings
      (if entry.1.pairs.length = keys.length then entry.1.pairs
      else keys.map (fun key => (key,entry.1.get key))))) (.node 0 [])

def getLargerLabels (left right : Labels) : Labels :=
  if right.pairs.length ≤ left.pairs.length then left else right

def getMatchedSampleIdx (labels : Labels) (labelPool : List String) (index : MatrixIndex) :
    Option ℕ :=
  index.get (labelStrings (labelPool.map (fun key => (key,labels.get key))))

def resultLabels (s : Sample) : Labels := (s.metric.map Metric.labels).getD none

def addUnmatched (result : List Sample) : List Labels → List Sample
  | [] => result
  | labels::rest =>
    if result.any (fun s => labels.pairs.all (fun kv => (resultLabels s).get kv.1 = kv.2)) then
      addUnmatched result rest
    else addUnmatched (result++[⟨some ⟨labels⟩,[]⟩]) rest

def setSampleValue (points : List ℕ) (labels : Labels) : List Sample → List Sample
  | [] => []
  | s::rest =>
    if deepEqual (resultLabels s) labels then {s with values := points.map some}::rest
    else s::setSampleValue points labels rest

def pairPoints (op : BinaryOp) (swapped : Bool) (sample other : Sample) : Eval F (List ℕ) :=
  if swapped then vectorVector ar other sample op else vectorVector ar sample other op

def matrixRound (op : BinaryOp) (swapped : Bool) (larger smaller : List (Option Sample))
    (labelPool : List String) (index : MatrixIndex) (result : List Sample) (i : ℕ) :
    Eval F (List Sample) := do
  let sample ← need (if i < larger.length then (larger[i]?).join else result[i]?)
  let labels ← labelsOf sample
  match getMatchedSampleIdx labels labelPool index with
  | some j => do
    let other ← need (smaller[j]?).join
    let points ← pairPoints ar op swapped sample other
    let otherLabels ← labelsOf other
    done (setSampleValue points (getLargerLabels labels otherLabels) result)
  | none => do
    let points ← mapPoints ar (fun x => if swapped then evaluateBinary ar ar.zero x op
      else evaluateBinary ar x ar.zero op) sample
    done (setSampleValue points labels result)

def matrixRounds (op : BinaryOp) (swapped : Bool) (larger smaller : List (Option Sample))
    (labelPool : List String) (index : MatrixIndex) (result : List Sample) :
    List ℕ → Eval F (List Sample)
  | [] => done result
  | i::rest => do
    let next ← matrixRound ar op swapped larger smaller labelPool index result i
    matrixRounds op swapped larger smaller labelPool index next rest

def evaluateMatrixMatrix (left right : List (Option Sample)) (op : BinaryOp) :
    Eval F (Value F) := do
  if left.isEmpty || right.isEmpty then
    let copies ← copyFromMatrixValue ar left
    done (.matrix (copies.map some))
  else do
    let leftLabels ← sampleLabels left
    let rightLabels ← sampleLabels right
    let swapped := decide ((keysOf leftLabels).length < (keysOf rightLabels).length)
    let larger := if swapped then right else left
    let smaller := if swapped then left else right
    let largerKeys := keysOf (if swapped then rightLabels else leftLabels)
    let smallerLabels := if swapped then leftLabels else rightLabels
    if !(keysOf smallerLabels).all (fun key => largerKeys.contains key) then
      let copies ← copyFromMatrixValue ar left
      done (.matrix (copies.map some))
    else do
      let copies ← copyFromMatrixValue ar larger
      let result := addUnmatched copies smallerLabels
      let samples ← matrixRounds ar op swapped larger smaller (keysOf smallerLabels)
        (buildIndex (keysOf smallerLabels) smallerLabels) result (List.range result.length)
      done (.matrix (samples.map some))

def evaluateBinaryExpression (left right : Value F) (op : BinaryOp) : Eval F (Value F) :=
  match left, right with
  | .scalar l, .scalar r => done (.scalar (evaluateBinary ar l r op))
  | .scalar l, .vector r => evaluateScalarVector ar l r op
  | .scalar l, .matrix r => evaluateScalarMatrix ar l r op
  | .vector l, .scalar r => evaluateVectorScalar ar l r op
  | .vector l, .vector r => evaluateVectorVector ar l r op
  | .vector l, .matrix r => evaluateVectorMatrix ar l r op
  | .matrix l, .scalar r => evaluateMatrixScalar ar l r op
  | .matrix l, .vector r => evaluateMatrixVector ar l r op
  | .matrix l, .matrix r => evaluateMatrixMatrix ar l r op

def aggregateValues (op : AggregateOp) (values : List F) : F :=
  match op with
  | .sum => values.foldl ar.add ar.zero
  | .min => values.foldl ar.min ar.maxFloat
  | .max => values.foldl ar.max ar.minFloat
  | .avg => ar.div (values.foldl ar.add ar.zero) (ar.ofNat values.length)
  | _ => ar.zero

def absPoints : List (Option ℕ) → Eval F Unit
  | [] => done ()
  | p::rest => do
    let c ← deref p
    setValue (p.getD 0) (ar.abs c.value)
    absPoints rest

def absSamples : List (Option Sample) → Eval F Unit
  | [] => done ()
  | sample::rest => do
    let s ← need sample
    absPoints ar s.values
    absSamples rest

def evaluateVectorAggregate (sample : Option Sample) (op : AggregateOp) : Eval F (Value F) :=
  match op with
  | .abs => do
    let s ← need sample
    absPoints ar s.values
    done (.vector sample)
  | .other _ => done (.vector sample)
  | _ => do
    let s ← need sample
    let cells ← each deref s.values
    done (.scalar (aggregateValues ar op (cells.map Cell.value)))

def evaluateMatrixMathOp : Eval F (Value F) := do
  absSamples ar samples
  done (.matrix samples)

def evaluateMatrixAggregate (op : AggregateOp) :
    Eval F (Value F) := do
  if samples.isEmpty then done (.scalar ar.zero)
  else do
    let cells ← each (fun sample => do
      let s ← need sample
      each deref s.values) samples
    let timestamps := skipRepeats
      ((cells.flatten.map Cell.timestamp).insertionSort (fun a b => a ≤ b))
    let points ← each (fun t => alloc ⟨t,aggregateValues ar op
      ((cells.flatten.filter (fun c => c.timestamp = t)).map Cell.value)⟩) timestamps
    done (.vector (some (newVectorValue points)))

def evaluateAggregationExpression (value : Value F) (op : AggregateOp) : Eval F (Value F) :=
  match value with
  | .scalar x =>
    match op with
    | .abs => done (.scalar (ar.abs x))
    | _ => done (.scalar x)
  | .vector sample => evaluateVectorAggregate ar sample op
  | .matrix samples =>
    match op with
    | .abs => evaluateMatrixMathOp ar samples
    | _ => evaluateMatrixAggregate ar samples op

def evaluate (values : String → Option (Value F)) : Expression F → Eval F (Value F)
  | .constant x => done (.scalar x)
  | .identifier name =>
    match values name with
    | none => fail (.unknownIdentifier name)
    | some v => done v
  | .binary left op right => do
    let l ← evaluate values left
    let r ← evaluate values right
    evaluateBinaryExpression ar l r op
  | .bracket expr => evaluate values expr
  | .aggregate op expr => do
    let v ← evaluate values expr
    evaluateAggregationExpression ar v op

end
end

end Sentio.FormulaModel
