import Mathlib

/-!
# The tuple column of a big integer

A `TupleField` stores a big integer as `Tuple(Bool, Int8, UInt256)`: whether
there is a value, its sign, and the value, to which a negative number adds
`2^256`. The database orders tuples lexicographically.
-/

namespace Sentio.TupleColumn

/-- The Go values a column is given: a nil interface, a `*big.Int` that may be nil, a
`big.Int`, or a value of another type. -/
inductive GoValue where
  | nil
  | pointer (n : Option ℤ)
  | value (n : ℤ)
  | other
  deriving DecidableEq

structure Tuple where
  has : Bool
  sign : ℤ
  val : ℤ
  deriving DecidableEq

/-- What a row has under the name of the column. -/
inductive DbValue where
  | missing
  | tuple (t : Tuple)
  | other
  deriving DecidableEq

/-- The number a Go value stands for, a null being the bottom. -/
def GoValue.number : GoValue → Option (WithBot ℤ)
  | nil | pointer none => some ⊥
  | pointer (some n) | value n => some n
  | other => none

/-- Values of other types are left to other checks, and `checkFieldValue` has let a
null pass before. -/
def checkBigIntBounds (bigIntUseInt256 : Bool) : GoValue → Bool
  | .pointer (some n) | .value n =>
    if bigIntUseInt256 then decide (-2^255 ≤ n ∧ n ≤ 2^255-1)
    else decide (-2^256 ≤ n ∧ n ≤ 2^256-1)
  | .nil | .pointer none | .other => true

def bigIntTuple (n : ℤ) : Tuple := ⟨true,n.sign,if 0 ≤ n.sign then n else n+2^256⟩

/-- `FieldValuesForWhereArg` panics on a value of another type. -/
def fieldValuesForWhereArg : GoValue → Option Tuple
  | .nil | .pointer none => some ⟨false,0,0⟩
  | .pointer (some n) | .value n => some (bigIntTuple n)
  | .other => none

def fieldValueFromGet : DbValue → Option GoValue
  | .missing => some .nil
  | .other => none
  | .tuple t =>
    if !t.has then some .nil
    else if 0 < t.sign then some (.pointer (some t.val))
    else if t.sign < 0 then some (.pointer (some (t.val-2^256)))
    else some (.pointer (some 0))

namespace Tuple

/-- The tuple has the type of the column. -/
def Fits (t : Tuple) : Prop := -2^7 ≤ t.sign ∧ t.sign < 2^7 ∧ 0 ≤ t.val ∧ t.val < 2^256

def order (s t : Tuple) : Ordering :=
  (cmp s.has t.has).then ((cmp s.sign t.sign).then (cmp s.val t.val))

end Tuple

theorem sign_mono {a b : ℤ} (h : a ≤ b) : a.sign ≤ b.sign := by
  rcases lt_trichotomy a 0 with ha | rfl | ha <;> rcases lt_trichotomy b 0 with hb | rfl | hb <;>
    simp_all [Int.sign_eq_neg_one_of_neg,Int.sign_eq_one_of_pos] <;> omega

theorem sign_order {a b : ℤ} (h : a.sign ≠ b.sign) : cmp a.sign b.sign = cmp a b := by
  rcases lt_trichotomy a b with hlt | rfl | hlt
  · rw [(cmp_eq_lt_iff a b).mpr hlt,cmp_eq_lt_iff]
    exact lt_of_le_of_ne (sign_mono hlt.le) h
  · exact absurd rfl h
  · rw [(cmp_eq_gt_iff a b).mpr hlt,cmp_eq_gt_iff]
    exact lt_of_le_of_ne (sign_mono hlt.le) (Ne.symm h)

theorem then_of_ne {a b : Ordering} (h : a ≠ .eq) : a.then b = a := by
  cases a <;> simp_all [Ordering.then]

/-- The tuple of a number, null being the bottom. -/
def tupleOf : WithBot ℤ → Tuple
  | ⊥ => ⟨false,0,0⟩
  | (n : ℤ) => bigIntTuple n

section
variable (n m : ℤ)

/-- Sign first, then the value or its complement: the order of the integers. -/
theorem bigIntTuple_order : (bigIntTuple n).order (bigIntTuple m) = cmp n m := by
  simp only [Tuple.order,bigIntTuple,cmp_self_eq_eq,Ordering.eq_then]
  by_cases h : n.sign = m.sign
  · rw [h,cmp_self_eq_eq,Ordering.eq_then]
    split
    · rfl
    · exact cmp_add_right n m _
  rw [sign_order h]
  apply then_of_ne
  intro heq
  exact h (congrArg Int.sign ((cmp_eq_eq_iff n m).mp heq))

variable {n}

theorem bigIntTuple_fits (h : -2^256 ≤ n ∧ n ≤ 2^256-1) : (bigIntTuple n).Fits := by
  unfold Tuple.Fits bigIntTuple
  rcases lt_trichotomy n 0 with hneg | rfl | hpos
  · rw [Int.sign_eq_neg_one_of_neg hneg]
    simp only [Int.reduceLE,if_false]
    omega
  · decide
  · rw [Int.sign_eq_one_of_pos hpos]
    simp only [Int.reduceLE,if_true]
    omega

variable (n)

theorem bigIntTuple_read : fieldValueFromGet (.tuple (bigIntTuple n)) = some (.pointer (some n)) := by
  simp only [fieldValueFromGet,bigIntTuple]
  rcases lt_trichotomy n 0 with hneg | rfl | hpos
  · simp [Int.sign_eq_neg_one_of_neg hneg]
  · rfl
  · simp [Int.sign_eq_one_of_pos hpos]

end

/-- A null has no value, which is below having one. -/
theorem tupleOf_order (x y : WithBot ℤ) : (tupleOf x).order (tupleOf y) = cmp x y := by
  cases x with
  | bot =>
    cases y with
    | bot => rfl
    | coe m => exact ((cmp_eq_lt_iff _ _).mpr (WithBot.bot_lt_coe m)).symm
  | coe n =>
    cases y with
    | bot => exact ((cmp_eq_gt_iff _ _).mpr (WithBot.bot_lt_coe n)).symm
    | coe m =>
      refine (bigIntTuple_order n m).trans ?_
      simp [cmp,cmpUsing,WithBot.coe_lt_coe]

section
variable {g : GoValue} {x : WithBot ℤ} (h : g.number = some x)
include h

theorem tuple_of_number : fieldValuesForWhereArg g = some (tupleOf x) := by
  rcases g with _ | (_ | n) | n | _ <;> cases h <;> rfl

theorem tuple_fits (hc : checkBigIntBounds false g) : (tupleOf x).Fits := by
  rcases g with _ | (_ | n) | n | _ <;> cases h
  · unfold Tuple.Fits tupleOf
    decide
  · unfold Tuple.Fits tupleOf
    decide
  · exact bigIntTuple_fits (by simpa [checkBigIntBounds] using hc)
  · exact bigIntTuple_fits (by simpa [checkBigIntBounds] using hc)

end

theorem tuple_read (x : WithBot ℤ) :
    (fieldValueFromGet (.tuple (tupleOf x))).bind GoValue.number = some x := by
  cases x with
  | bot => rfl
  | coe n =>
    change (fieldValueFromGet (.tuple (bigIntTuple n))).bind _ = _
    rw [bigIntTuple_read]
    rfl

/-- Every allowed big integer and null is read back from its tuple, and two tuples
are in the order of the integers, null below them. -/
theorem tuple_encoding_faithful (a b : GoValue) (x y : WithBot ℤ) (ha : a.number = some x)
    (hb : b.number = some y) (hca : checkBigIntBounds false a) (hcb : checkBigIntBounds false b) :
    ∃ s t : Tuple, fieldValuesForWhereArg a = some s ∧ fieldValuesForWhereArg b = some t ∧
      s.Fits ∧ t.Fits ∧ (fieldValueFromGet (.tuple s)).bind GoValue.number = some x ∧
      (fieldValueFromGet (.tuple t)).bind GoValue.number = some y ∧ s.order t = cmp x y :=
  ⟨tupleOf x,tupleOf y,tuple_of_number ha,tuple_of_number hb,tuple_fits ha hca,tuple_fits hb hcb,
    tuple_read x,tuple_read y,tupleOf_order x y⟩

theorem tuple_encoding_least_and_null : ∃ s t : Tuple,
      fieldValuesForWhereArg (.value (-2^256)) = some s ∧
      fieldValuesForWhereArg (.pointer none) = some t ∧ s.Fits ∧ t.Fits ∧
      (fieldValueFromGet (.tuple s)).bind GoValue.number = some ((-2^256 : ℤ) : WithBot ℤ) ∧
      (fieldValueFromGet (.tuple t)).bind GoValue.number = some ⊥ ∧
      s.order t = cmp ((-2^256 : ℤ) : WithBot ℤ) ⊥ :=
  tuple_encoding_faithful (.value (-2^256)) (.pointer none) _ ⊥ rfl rfl (by decide +kernel) rfl

end Sentio.TupleColumn
