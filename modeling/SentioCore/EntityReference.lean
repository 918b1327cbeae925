import SentioCore.EntityHistory
import SentioCore.OperatorMerge

/-!
# The reference meaning of entity writes

A write acts on the whole entity: a deletion clears it, a value overwrites its
field, an operator maps the value before to `value * Multi + Add`. The action is
undefined where a field leaves the range of its type, where an integer field
meets an operand that is not an integer, or where the store refuses the value.
-/

namespace Sentio.EntityReference
open DecimalArith NumericOperator OperatorMerge EntityHistory Nat Int
open Option (bind_eq_some_iff map_eq_some_iff some.inj)

section
variable {F : Type} (N : Numerals F) (check : Field → Value F → Bool)

def readInt (v : RichValue F) : Option ℤ :=
  (getBigInt N v).filter (fun z => (operand N v).toRat = z)

variable (t : FieldType)

def inRange (z : ℤ) : Bool :=
  match t with
  | .int => -2^31 ≤ z ∧ z < 2^31
  | .int8 => -2^63 ≤ z ∧ z < 2^63
  | _ => true

def exactValue (z : ℤ) : Value F :=
  match t with
  | .int => .int32 z
  | .int8 => .int64 z
  | _ => .bigInt z

def refInteger (x : Value F) (o : OperatorNumCalc F) : Option (Value F) := do
  let m ← readInt N o.multi
  let a ← readInt N o.add
  if inRange t (originInt t x*m+a) then some (exactValue t (originInt t x*m+a)) else none

/-- `value * Multi + Add` in the arithmetic of the field: exact integers within
the range of the type, exact decimals, and one rounding for a float. -/
def refCalc (x : Value F) (o : OperatorNumCalc F) : Option (Value F) :=
  match t with
  | .int | .int8 | .bigInt => refInteger N t x o
  | .float => calcNumCalc N .float x o
  | .bigDecimal =>
    ((originDecimal x).affine (operand N o.multi) (operand N o.add)).map .decimal
  | .other _ => none

def refApply (u : Update F) (x : Value F) : Option (Value F) :=
  match u with
  | .value v => some v
  | .operator ⟨none⟩ => some x
  | .operator ⟨some o⟩ => refCalc N t x o

def refUpdate (field : Field) (u : Update F) (x : Value F) : Option (Value F) :=
  (refApply N field.type u x).filter (check field)

def entry (box : UncommittedEntityBox F) (name : String) : Update F :=
  match box.operator name with
  | some op => .operator op
  | none => .value ((box.data.bind (fun d => d name)).getD .null)

def prior (t : EntityType) (s : Entity F) (name : String) : Value F :=
  (s.bind (fun d => d name)).getD (zeroValue N (t.field name))

def refBox (t : EntityType) (box : UncommittedEntityBox F) (s : Entity F) : Option (Entity F) :=
  match box.data with
  | none => some none
  | some _ => (collect t (fun name =>
      (refUpdate N check (t.field name) (entry box name) (prior N t s name)).map some)).map some

def refFold (t : EntityType) : List (UncommittedEntityBox F) → Entity F → Option (Entity F)
  | [], s => some s
  | w::rest, s => (refBox N check t w s).bind (refFold t rest)

/-- A box is a deletion, or gives each field of its type exactly once. -/
def Complete (t : EntityType) (box : UncommittedEntityBox F) : Prop :=
  match box.data with
  | none => box.operator = FieldMap.empty
  | some data =>
    (∀ name ∈ t.names, (data name).isSome ↔ box.operator name = none) ∧
    ∀ name ∉ t.names, data name = none ∧ box.operator name = none

theorem refFold_append (t : EntityType) (front back : List (UncommittedEntityBox F)) (s : Entity F) :
    refFold N check t (front++back) s =
      (refFold N check t front s).bind (refFold N check t back) := by
  induction front generalizing s with
  | nil => rfl
  | cons w rest ih =>
    simp only [List.cons_append,refFold,Option.bind_assoc]
    congr 1
    funext m
    exact ih m

end

section
variable {F : Type} (N : Numerals F) (check : Field → Value F → Bool) {z : ℤ}

theorem readInt_readsAs {v : RichValue F} : readInt N v = some z ↔ ReadsAs N v z := by
  simp [readInt,ReadsAs,Option.filter_eq_some_iff,decide_eq_true_eq]

variable {t : FieldType}

theorem originInt_exactValue (ht : IsInteger t) : originInt t (exactValue t z : Value F) = z := by
  rcases ht with rfl | rfl | rfl <;> rfl

theorem bmod_eq_iff (n : ℕ) {y : ℤ} :
    z.bmod (2^(n+1)) = y ↔ (-(2^n) ≤ y ∧ y < 2^n) ∧ (2:ℤ)^(n+1) ∣ y-z := by
  have hdouble : (2:ℤ)^(n+1) = 2*2^n := by ring
  rw [Int.bmod_eq_iff (by positivity),and_assoc,Nat.cast_pow,Nat.cast_ofNat,hdouble]
  exact and_congr (by omega) (and_congr (by omega) Iff.rfl)

theorem bmod_of_range {n : ℕ} (hlow : -(2^n) ≤ z) (hhigh : z < 2^n) : z.bmod (2^(n+1)) = z :=
  (bmod_eq_iff n).mpr ⟨⟨hlow,hhigh⟩,by simp⟩

theorem intValue_exact (ht : IsInteger t) (h : inRange t z) :
    (intValue t z : Value F) = exactValue t z := by
  rcases ht with rfl | rfl | rfl
  · simp only [inRange,decide_eq_true_eq] at h
    simp only [intValue,narrow,int32Of_int64Of]
    exact congrArg Value.int32 (bmod_of_range h.1 h.2)
  · simp only [inRange,decide_eq_true_eq] at h
    exact congrArg Value.int64 (bmod_of_range h.1 h.2)
  · rfl

variable {x y : Value F}

theorem refInteger_eq_some {o : OperatorNumCalc F} :
    refInteger N t x o = some y ↔ ∃ m a, ReadsAs N o.multi m ∧ ReadsAs N o.add a ∧
      inRange t (originInt t x*m+a) ∧ y = exactValue t (originInt t x*m+a) := by
  simp only [refInteger,Option.bind_eq_bind,bind_eq_some_iff,readInt_readsAs,
    Option.ite_none_right_eq_some,Option.some.injEq]
  constructor
  · intro ⟨m,hm,a,ha,hr,hy⟩
    exact ⟨m,a,hm,ha,hr,hy.symm⟩
  · intro ⟨m,a,hm,ha,hr,hy⟩
    exact ⟨m,hm,a,ha,hr,hy.symm⟩

theorem calcOperator_of_ref {op : Operator F}
    (h : refApply N t (.operator op) x = some y) : calcOperator N t x op = some y := by
  rcases op with ⟨_ | o⟩
  · exact h
  change refCalc N t x o = some y at h
  have hint : ∀ t, IsInteger t → refInteger N t x o = some y → calcNumCalc N t x o = some y := by
    intro t ht h
    obtain ⟨m,a,hm,ha,hr,hy⟩ := (refInteger_eq_some N).mp h
    rw [calcNumCalc_integral N t x o m a ht hm ha,intValue_exact ht hr,hy]
  cases t with
  | int => exact hint .int (by simp [IsInteger]) h
  | int8 => exact hint .int8 (by simp [IsInteger]) h
  | bigInt => exact hint .bigInt (by simp [IsInteger]) h
  | float | bigDecimal => exact h
  | other zero => exact absurd h (by simp [refCalc])

theorem refUpdate_eq_some {field : Field} {u : Update F} (y : Value F) :
    refUpdate N check field u x = some y ↔
      refApply N field.type u x = some y ∧ check field y := by
  simp [refUpdate,Option.filter_eq_some_iff]

end

section
variable {F : Type} (N : Numerals F) (check : Field → Value F → Bool)

def exps (o : OperatorNumCalc F) : ℤ × ℤ := ((operand N o.multi).exp,(operand N o.add).exp)

/-- The exponents of the operator that pending operators are merged to, with one more of them. -/
def addExps (e : Option (ℤ × ℤ)) (op : Operator F) : Option (ℤ × ℤ) :=
  match e, op.numCalc with
  | e, none => e
  | none, some o => some (exps N o)
  | some e, some o => some (e.1+(exps N o).1,min (e.2+(exps N o).1) (exps N o).2)

/-- Operators on these types are merged as decimals. -/
def MergedExactly (t : FieldType) : Prop := t = .float ∨ t = .bigDecimal

/-- Merging one more operator does what calculating in turn does: on a float field nothing was
pending, since each calculation rounds; on a decimal field the products of the merge, and of its
result with a value of the exponent `x`, stay within 32 bits. -/
def MergeFits (t : FieldType) (x : ℤ) (e : Option (ℤ × ℤ)) (op : Operator F) : Prop :=
  match e, op.numCalc with
  | some e, some o => t ≠ .float ∧ (t = .bigDecimal → ExpFits (e.1+(exps N o).1) ∧
      ExpFits (e.2+(exps N o).1) ∧ ExpFits (x+(e.1+(exps N o).1)))
  | _, _ => True

/-- The operators that the updates of a block start with merge as they are calculated in turn. -/
def MergesFit (t : FieldType) (x : ℤ) : Option (ℤ × ℤ) → List (Update F) → Prop
  | e, .operator op::rest => MergeFits N t x e op ∧ MergesFit t x (addExps N e op) rest
  | _, _ => True

instance (t : FieldType) (x : ℤ) :
    (e : Option (ℤ × ℤ)) → (op : Operator F) → Decidable (MergeFits N t x e op)
  | some _, ⟨some _⟩ => inferInstanceAs (Decidable (_ ∧ (_ → _)))
  | none, _ | some _, ⟨none⟩ => .isTrue trivial

instance decideMergesFit (t : FieldType) (x : ℤ) :
    (e : Option (ℤ × ℤ)) → (us : List (Update F)) → Decidable (MergesFit N t x e us)
  | e, .operator op::rest =>
    have := decideMergesFit t x (addExps N e op) rest
    inferInstanceAs (Decidable (_ ∧ _))
  | _, [] | _, .value _::_ => .isTrue trivial

variable {N} in
theorem MergesFit.front {t : FieldType} {x : ℤ} {e : Option (ℤ × ℤ)} {front back : List (Update F)}
    (h : MergesFit N t x e (front++back)) : MergesFit N t x e front := by
  induction front generalizing e with
  | nil => trivial
  | cons u rest ih =>
    cases u with
    | value v => trivial
    | operator op => exact ⟨h.1,ih h.2⟩

variable {N} in
theorem MergesFit.last {t : FieldType} {x : ℤ} {e : Option (ℤ × ℤ)} {ops : List (Operator F)}
    {op : Operator F} (h : MergesFit N t x e (ops.map .operator++[.operator op])) :
    MergeFits N t x (ops.foldl (addExps N) e) op := by
  induction ops generalizing e with
  | nil => exact h.1
  | cons o rest ih => exact ih h.2

variable {u2 u1 u : Update F} {y x : Value F}

theorem operand_bigDecimal {d : Decimal} : operand N (.bigDecimal d : RichValue F) = d := rfl

/-- An operator that comes out of a merge was merged from operators. -/
theorem mergeUpdate_exps {t : FieldType} (ht : MergedExactly t) {op : Operator F}
    (h : mergeUpdate N t u1 u2 = some (.operator op)) :
    ∃ op1 op2, u1 = .operator op1 ∧ u2 = .operator op2 ∧
      op.numCalc.map (exps N) = addExps N (op1.numCalc.map (exps N)) op2 := by
  rcases u2 with w | op2
  · rcases u1 with v | op1 <;> cases h
  rcases u1 with v | op1
  · obtain ⟨r,-,hr⟩ := map_eq_some_iff.mp h
    cases hr
  obtain ⟨q,hq,hop⟩ := map_eq_some_iff.mp h
  cases hop
  refine ⟨op1,op2,rfl,rfl,?_⟩
  rcases op1 with ⟨_ | o⟩ <;> rcases op2 with ⟨_ | p⟩
  · cases hq
    rfl
  · cases hq
    rfl
  · cases hq
    rfl
  · obtain ⟨r,hr,rfl⟩ := map_eq_some_iff.mp hq
    have hmerge : mergeNumCalc N t o p = mergeNumCalc N .bigDecimal o p := by
      rcases ht with rfl | rfl <;> rfl
    rw [hmerge] at hr
    obtain ⟨m,hm,hrest⟩ := bind_eq_some_iff.mp hr
    obtain ⟨b,hb,hlast⟩ := bind_eq_some_iff.mp hrest
    cases hlast
    simp [addExps,exps,operand_bigDecimal,Decimal.add_exp,(Decimal.mul_eq_some _ _ m hm).1,
      (Decimal.mul_eq_some _ _ b hb).1]

variable {z : Value F} {t : FieldType} {p o : OperatorNumCalc F}

theorem refInteger_merge
    (ht : IsInteger t) (h1 : refInteger N t x o = some y) (h2 : refInteger N t y p = some z) :
    ∃ q, mergeNumCalc N t o p = some q ∧ refInteger N t x q = some z := by
  obtain ⟨m1,a1,hm1,ha1,_,hy⟩ := (refInteger_eq_some N).mp h1
  obtain ⟨m2,a2,hm2,ha2,hr,hz⟩ := (refInteger_eq_some N).mp h2
  rw [hy,originInt_exactValue ht] at hr hz
  have heq : originInt t x*(m1*m2)+(a1*m2+a2) = (originInt t x*m1+a1)*m2+a2 := by ring
  refine ⟨_,mergeNumCalc_integral N ht hm1 ha1 hm2 ha2,
    (refInteger_eq_some N).mpr ⟨_,_,readsAs_bigInt N _,readsAs_bigInt N _,?_,?_⟩⟩
  · rw [heq]
    exact hr
  · rw [heq]
    exact hz

theorem refDecimal_merge
    (hw : MergeFits N .bigDecimal (originDecimal x).exp (some (exps N o)) ⟨some p⟩)
    (h1 : refCalc N .bigDecimal x o = some y) (h2 : refCalc N .bigDecimal y p = some z) :
    ∃ q, mergeNumCalc N .bigDecimal o p = some q ∧ refCalc N .bigDecimal x q = some z := by
  obtain ⟨d,hd,rfl⟩ := map_eq_some_iff.mp h1
  obtain ⟨e,he,rfl⟩ := map_eq_some_iff.mp h2
  have hcomposed : (Decimal.composed (originDecimal x) (operand N o.multi) (operand N o.add)
      (operand N p.multi) (operand N p.add)).isSome :=
    (Decimal.composed_isSome _ _ _ _ _).mpr (hw.2 rfl)
  have hturn : Decimal.inTurn (originDecimal x) (operand N o.multi) (operand N o.add)
      (operand N p.multi) (operand N p.add) = some e := by
    simp only [Decimal.inTurn,hd]
    exact he
  obtain ⟨w,hcw⟩ := Option.isSome_iff_exists.mp hcomposed
  have hwe := Decimal.composed_eq_inTurn _ _ _ _ _ w e hcw hturn
  obtain ⟨m,hm,hrest⟩ := bind_eq_some_iff.mp hcw
  obtain ⟨b,hb,hlast⟩ := bind_eq_some_iff.mp hrest
  refine ⟨⟨.bigDecimal m,.bigDecimal (b.add (operand N p.add))⟩,?_,?_⟩
  · simp [mergeNumCalc,hm,hb]
  · simp [refCalc,operand_bigDecimal,hlast,hwe,Option.map_some]

theorem refCalc_merge
    (hw : MergedExactly t → MergeFits N t (originDecimal x).exp (some (exps N o)) ⟨some p⟩)
    (h1 : refCalc N t x o = some y) (h2 : refCalc N t y p = some z) :
    ∃ q, mergeNumCalc N t o p = some q ∧ refCalc N t x q = some z := by
  cases t with
  | int | int8 | bigInt => exact refInteger_merge N (by simp [IsInteger]) h1 h2
  | float => exact absurd rfl (hw (.inl rfl)).1
  | bigDecimal => exact refDecimal_merge N (hw (.inr rfl)) h1 h2
  | other zero => exact absurd h1 (by simp [refCalc])

theorem refUpdate_merge {field : Field}
    (hw : MergedExactly field.type → ∀ op1 op2, u1 = .operator op1 → u2 = .operator op2 →
      MergeFits N field.type (originDecimal x).exp (op1.numCalc.map (exps N)) op2)
    (h1 : refUpdate N check field u1 x = some y) (h2 : refUpdate N check field u2 y = some z) :
    ∃ u, mergeUpdate N field.type u1 u2 = some u ∧ refUpdate N check field u x = some z := by
  simp only [refUpdate_eq_some] at *
  rcases u2 with w | ⟨_ | p⟩
  · refine ⟨.value w,?_,h2⟩
    rcases u1 with v | op <;> rfl
  · refine ⟨u1,?_,?_⟩
    · rcases u1 with v | ⟨_ | o⟩ <;> rfl
    · have hyz : y = z := some.inj h2.1
      exact hyz ▸ h1
  rcases u1 with v | ⟨_ | o⟩
  · have hy : v = y := some.inj h1.1
    have hcalc := calcOperator_of_ref N (hy ▸ h2.1)
    exact ⟨.value z,by simp [mergeUpdate,hcalc],rfl,h2.2⟩
  · have hy : x = y := some.inj h1.1
    exact ⟨.operator ⟨some p⟩,rfl,hy ▸ h2⟩
  · obtain ⟨q,hq,hz⟩ := refCalc_merge N (fun ht => hw ht _ _ rfl rfl) h1.1 h2.1
    exact ⟨.operator ⟨some q⟩,by simp [mergeUpdate,mergeOperator,hq],hz,h2.2⟩

end
end Sentio.EntityReference
