import SentioCore.DecimalArith

/-!
# Field updates of the entity controller

A write gives a field a value or an operator `x * Multi + Add`. Two operators
of one block are merged symbolically: through `GetBigInt` for the integer
types, through `GetBigDecimal` for the others. An operator is resolved through
`GetBigDecimal`, followed by rounding and narrowing for the integer types.
A panic of the source is `none`.
-/

namespace Sentio.NumericOperator
open DecimalArith

inductive FieldType where
  | int
  | int8
  | bigInt
  | float
  | bigDecimal
  | other (zero : String)
  deriving DecidableEq

/-- The conversions of the number libraries; `NewFromFloat` panics on numbers that are not finite.
-/
structure Numerals (F : Type) where
  newFromFloat : F → Option Decimal
  float64 : Decimal → F
  floatZero : F
  newFromString : String → Option Decimal
  setString : String → Option ℤ

inductive RichValue (F : Type) where
  | int (x : ℤ)
  | int64 (x : ℤ)
  | bigInt (x : ℤ)
  | float (x : F)
  | bigDecimal (d : Decimal)
  | string (s : String)
  | nonNumeric
  deriving DecidableEq

/-- A field value; `null` also stands for a nil pointer of the field's type. -/
inductive Value (F : Type) where
  | null
  | int32 (x : ℤ)
  | int64 (x : ℤ)
  | bigInt (x : ℤ)
  | float (x : F)
  | decimal (d : Decimal)
  | other (s : String)
  deriving DecidableEq

structure OperatorNumCalc (F : Type) where
  multi : RichValue F
  add : RichValue F
  deriving DecidableEq

structure Operator (F : Type) where
  numCalc : Option (OperatorNumCalc F)
  deriving DecidableEq

section
variable {F : Type} (N : Numerals F)

def getBigInt : RichValue F → Option ℤ
  | .int x | .int64 x | .bigInt x => some x
  | .float x => (N.newFromFloat x).map Decimal.round
  | .bigDecimal d => some d.round
  | .string s => N.setString s
  | .nonNumeric => none

def getBigDecimal : RichValue F → Option Decimal
  | .int x | .int64 x | .bigInt x => some (Decimal.ofInt x)
  | .float x => N.newFromFloat x
  | .bigDecimal d => some d
  | .string s => N.newFromString s
  | .nonNumeric => none

def operand (v : RichValue F) : Decimal := (getBigDecimal N v).getD (Decimal.ofInt 0)

def OperatorNumCalc.calc (o : OperatorNumCalc F) (origin : Decimal) : Option Decimal :=
  origin.affine (operand N o.multi) (operand N o.add)

variable (t : FieldType)

def checkNumCalcValueTypeMatch (v : RichValue F) : Bool :=
  match t with
  | .int | .int8 | .bigInt | .float | .bigDecimal => (getBigDecimal N v).isSome
  | .other _ => false

def mergeNumCalc (o p : OperatorNumCalc F) : Option (OperatorNumCalc F) :=
  match t with
  | .int | .int8 | .bigInt => do
    let m1 ← getBigInt N o.multi
    let a1 ← getBigInt N o.add
    let m2 ← getBigInt N p.multi
    let a2 ← getBigInt N p.add
    some ⟨.bigInt (m1*m2),.bigInt (a1*m2+a2)⟩
  | .float | .bigDecimal => do
    let m ← (operand N o.multi).mul (operand N p.multi)
    let a ← (operand N o.add).mul (operand N p.multi)
    some ⟨.bigDecimal m,.bigDecimal (a.add (operand N p.add))⟩
  | .other _ => none

def mergeOperator (op1 op2 : Operator F) : Option (Operator F) :=
  match op1.numCalc, op2.numCalc with
  | none, _ => some op2
  | some _, none => some op1
  | some o, some p => (mergeNumCalc N t o p).map (fun q => ⟨some q⟩)

def int64Of (z : ℤ) : ℤ := z.bmod (2^64)

def int32Of (z : ℤ) : ℤ := z.bmod (2^32)

/-- The origin values `calcOperator` starts from; a null value or a value of
another type counts as zero. -/
def originInt (v : Value F) : ℤ :=
  match t, v with
  | .int, .int32 x | .int8, .int64 x | .bigInt, .bigInt x => x
  | _, _ => 0

def originFloat : Value F → F
  | .float x => x
  | _ => N.floatZero

def originDecimal : Value F → Decimal
  | .decimal d => d
  | _ => Decimal.ofInt 0

def calcNumCalc (originVal : Value F) (o : OperatorNumCalc F) : Option (Value F) :=
  match t with
  | .int => (o.calc N (Decimal.ofInt (originInt .int originVal))).map
      (fun d => .int32 (int32Of (int64Of d.round)))
  | .int8 => (o.calc N (Decimal.ofInt (originInt .int8 originVal))).map
      (fun d => .int64 (int64Of d.round))
  | .bigInt => (o.calc N (Decimal.ofInt (originInt .bigInt originVal))).map
      (fun d => .bigInt d.round)
  | .float => do
    let origin ← N.newFromFloat (originFloat N originVal)
    (o.calc N origin).map (fun d => .float (N.float64 d))
  | .bigDecimal => (o.calc N (originDecimal originVal)).map .decimal
  | .other _ => none

def calcOperator (originVal : Value F) (op : Operator F) : Option (Value F) :=
  match op.numCalc with
  | none => some originVal
  | some o => calcNumCalc N t originVal o

/-- What a write says about one field. -/
inductive Update (F : Type) where
  | value (v : Value F)
  | operator (op : Operator F)
  deriving DecidableEq

/-- One field of `Merge`: a new value covers, an operator on a pending value is
calculated, an operator on a pending operator is merged. -/
def mergeUpdate (old new : Update F) : Option (Update F) :=
  match old, new with
  | _, .value v => some (.value v)
  | .value v, .operator op => (calcOperator N t v op).map .value
  | .operator op1, .operator op2 => (mergeOperator N t op1 op2).map .operator

def resolveUpdate (base : Value F) : Update F → Option (Value F)
  | .value v => some v
  | .operator op => calcOperator N t base op

end

section
variable {F : Type} (N : Numerals F)

/-- Both conversions read the operand as the same integer. -/
def ReadsAs (v : RichValue F) (z : ℤ) : Prop :=
  getBigInt N v = some z ∧ (operand N v).toRat = z

def Integral (o : OperatorNumCalc F) : Prop :=
  (∃ m, ReadsAs N o.multi m) ∧ ∃ a, ReadsAs N o.add a

theorem readsAs_bigInt (z : ℤ) : ReadsAs N (.bigInt z) z := by
  simp [ReadsAs,getBigInt,operand,getBigDecimal]

variable {o : OperatorNumCalc F}

theorem calc_ofInt_isSome {x : ℤ} : (o.calc N (Decimal.ofInt x)).isSome := by
  apply (Decimal.affine_isSome _ _ _).mpr
  simpa [Decimal.ofInt] using (operand N o.multi).fits

/-- On integral operands the calculation from an integer is exact. -/
theorem calc_integral {x m a : ℤ} (hm : ReadsAs N o.multi m)
    (ha : ReadsAs N o.add a) : ∃ d, o.calc N (Decimal.ofInt x) = some d ∧ d.round = x*m+a := by
  obtain ⟨d,hd⟩ := Option.isSome_iff_exists.mp (calc_ofInt_isSome N)
  refine ⟨d,hd,Decimal.round_of_toRat _ _ ?_⟩
  rw [(Decimal.affine_eq_some _ _ _ d hd).2,Decimal.toRat_ofInt,hm.2,ha.2]
  push_cast
  rfl

theorem mergeNumCalc_integral {t : FieldType} {o p : OperatorNumCalc F} {m1 a1 m2 a2 : ℤ}
    (ht : t = .int ∨ t = .int8 ∨ t = .bigInt) (hm1 : ReadsAs N o.multi m1)
    (ha1 : ReadsAs N o.add a1) (hm2 : ReadsAs N p.multi m2) (ha2 : ReadsAs N p.add a2) :
    mergeNumCalc N t o p = some ⟨.bigInt (m1*m2),.bigInt (a1*m2+a2)⟩ := by
  rcases ht with rfl | rfl | rfl <;>
    simp [mergeNumCalc,hm1.1,ha1.1,hm2.1,ha2.1]

end
end Sentio.NumericOperator
