import SentioCore.NumericOperator

/-!
# Merging two updates of one block

Two updates of a field are either merged and then resolved, or resolved one
after the other. On the integer types both orders agree when each operand of two
merged operators reads as one integer; on decimals they agree exactly when no
exponent overflows.
-/

namespace Sentio.OperatorMerge
open DecimalArith NumericOperator Option

section
variable {F : Type} (N : Numerals F) (t : FieldType) (base : Value F) (u1 u2 : Update F)

def merged : Option (Value F) :=
  (mergeUpdate N t u1 u2).bind (resolveUpdate N t base)

def sequential : Option (Value F) :=
  (resolveUpdate N t base u1).bind (fun v => resolveUpdate N t v u2)

def Agrees : Prop :=
  ∃ v, merged N t base u1 u2 = some v ∧ sequential N t base u1 u2 = some v

def Fits (x : Decimal) (u : Update F) : Prop :=
  match u with
  | .operator ⟨some o⟩ => ExpFits (x.exp+(operand N o.multi).exp)
  | _ => True

/-- The exponents met when two operators are merged and calculated, and when
they are calculated in turn. -/
def MergeFits (x : Decimal) (o p : OperatorNumCalc F) : Prop :=
  (ExpFits ((operand N o.multi).exp+(operand N p.multi).exp) ∧
    ExpFits ((operand N o.add).exp+(operand N p.multi).exp) ∧
    ExpFits (x.exp+((operand N o.multi).exp+(operand N p.multi).exp))) ∧
  ExpFits (x.exp+(operand N o.multi).exp) ∧
  ExpFits (min (x.exp+(operand N o.multi).exp) (operand N o.add).exp+(operand N p.multi).exp)

def DecimalAgreeing (base : Value F) (u1 u2 : Update F) : Prop :=
  match u1, u2 with
  | .operator ⟨some o⟩, .operator ⟨some p⟩ => MergeFits N (originDecimal base) o p
  | .operator ⟨some o⟩, _ => Fits N (originDecimal base) (.operator ⟨some o⟩)
  | .operator ⟨none⟩, u => Fits N (originDecimal base) u
  | .value v, u => Fits N (originDecimal v) u

def IntegerAgreeing (u1 u2 : Update F) : Prop :=
  match u1, u2 with
  | .operator ⟨some o⟩, .operator ⟨some p⟩ => Integral N o ∧ Integral N p
  | _, _ => True

def Agreeing : Prop :=
  match t with
  | .int | .int8 | .bigInt => IntegerAgreeing N u1 u2
  | .bigDecimal => DecimalAgreeing N base u1 u2
  | .float | .other _ => False

def narrow (t : FieldType) (z : ℤ) : ℤ :=
  match t with
  | .int => int32Of (int64Of z)
  | .int8 => int64Of z
  | _ => z

def intValue (t : FieldType) (z : ℤ) : Value F :=
  match t with
  | .int => .int32 (narrow .int z)
  | .int8 => .int64 (narrow .int8 z)
  | _ => .bigInt (narrow .bigInt z)

theorem int32Of_int64Of (z : ℤ) : int32Of (int64Of z) = int32Of z := by
  exact Int.bmod_bmod_of_dvd (by norm_num)

theorem bmod_affine {n : ℕ} {z m a : ℤ} : (z.bmod n*m+a).bmod n = (z*m+a).bmod n := by
  rw [← Int.bmod_add_bmod,Int.bmod_mul_bmod,Int.bmod_add_bmod]

theorem narrow_affine {t : FieldType} {z m a : ℤ} :
    narrow t (narrow t z*m+a) = narrow t (z*m+a) := by
  cases t with
  | int =>
    simp only [narrow,int32Of_int64Of]
    exact bmod_affine
  | int8 => exact bmod_affine
  | bigInt | float | bigDecimal | other zero => rfl

def IsInteger (t : FieldType) : Prop := t = .int ∨ t = .int8 ∨ t = .bigInt

theorem originInt_intValue {t : FieldType} {z : ℤ} (ht : IsInteger t) :
    originInt t (intValue t z : Value F) = narrow t z := by
  rcases ht with rfl | rfl | rfl <;> rfl

variable {t : FieldType}

theorem intValue_congr {y z : ℤ} (ht : IsInteger t) (h : narrow t y = narrow t z) :
    (intValue t y : Value F) = intValue t z := by
  rcases ht with rfl | rfl | rfl <;> simp only [intValue,h]

theorem calcNumCalc_integer (v : Value F) (o : OperatorNumCalc F) (ht : IsInteger t) :
    calcNumCalc N t v o =
      (o.calc N (Decimal.ofInt (originInt t v))).map (fun d => intValue t d.round) := by
  rcases ht with rfl | rfl | rfl <;> rfl

theorem calcNumCalc_isSome {v : Value F} {o : OperatorNumCalc F}
    (ht : IsInteger t) : ∃ r, calcNumCalc N t v o = some r := by
  apply isSome_iff_exists.mp
  rw [calcNumCalc_integer N v o ht,isSome_map]
  exact calc_ofInt_isSome N

theorem calcNumCalc_integral (t : FieldType) (v : Value F) (o : OperatorNumCalc F) (m a : ℤ)
    (ht : IsInteger t) (hm : ReadsAs N o.multi m) (ha : ReadsAs N o.add a) :
    calcNumCalc N t v o = some (intValue t (originInt t v*m+a)) := by
  obtain ⟨d,hd,hr⟩ := calc_integral N hm ha
  rw [calcNumCalc_integer N v o ht,hd,map_some,hr]

variable (base : Value F)

/-- Integral operators compose: merging keeps the affine map, and narrowing
between the two calculations is undone by the narrowing at the end. -/
theorem integral_agrees {o p : OperatorNumCalc F} (ht : IsInteger t) (ho : Integral N o)
    (hp : Integral N p) : Agrees N t base (.operator ⟨some o⟩) (.operator ⟨some p⟩) := by
  obtain ⟨⟨m1,hm1⟩,a1,ha1⟩ := ho
  obtain ⟨⟨m2,hm2⟩,a2,ha2⟩ := hp
  have hmerge := mergeNumCalc_integral N ht hm1 ha1 hm2 ha2
  have hfirst := calcNumCalc_integral N t base o m1 a1 ht hm1 ha1
  have hsecond := calcNumCalc_integral N t (intValue t (originInt t base*m1+a1)) p m2 a2 ht hm2 ha2
  have hboth := calcNumCalc_integral N t base ⟨.bigInt (m1*m2),.bigInt (a1*m2+a2)⟩ _ _ ht
    (readsAs_bigInt N (m1*m2)) (readsAs_bigInt N (a1*m2+a2))
  rw [originInt_intValue ht] at hsecond
  refine ⟨intValue t (originInt t base*(m1*m2)+(a1*m2+a2)),?_,?_⟩
  · simp [merged,mergeUpdate,mergeOperator,resolveUpdate,calcOperator,hmerge,hboth]
  simp only [sequential,resolveUpdate,calcOperator,hfirst,bind_some,hsecond]
  congr 1
  apply intValue_congr ht
  rw [narrow_affine]
  congr 1
  ring

def Arithmetic (u : Update F) : Prop :=
  match u with
  | .operator ⟨some _⟩ => True
  | _ => False

variable {u2 u1 : Update F}

/-- Unless two arithmetic operators meet, merging does what resolving in turn
does. -/
theorem merged_of_resolved {base v : Value F} (hone : ¬(Arithmetic u1 ∧ Arithmetic u2))
    (h : resolveUpdate N t base u1 = some v) : merged N t base u1 u2 = resolveUpdate N t v u2 := by
  rcases u1 with w | ⟨_ | o⟩ <;> rcases u2 with w' | ⟨_ | p⟩
  case operator.some.operator.some => exact absurd ⟨trivial,trivial⟩ hone
  case value.operator.some =>
    cases h
    simp only [merged,mergeUpdate]
    cases hp : calcNumCalc N t v p <;> simp [resolveUpdate,calcOperator,hp]
  all_goals simp_all [merged,mergeUpdate,mergeOperator,resolveUpdate,calcOperator]

theorem agrees_of_resolved {base : Value F}
    (hone : ¬(Arithmetic u1 ∧ Arithmetic u2)) :
    Agrees N t base u1 u2 ↔ (sequential N t base u1 u2).isSome := by
  constructor
  · intro ⟨v,_,hs⟩
    rw [hs]
    rfl
  intro h
  obtain ⟨r,hr⟩ := isSome_iff_exists.mp h
  obtain ⟨v,hv,hw⟩ := bind_eq_some_iff.mp hr
  exact ⟨r,(merged_of_resolved N hone hv).trans hw,hr⟩

theorem integer_resolves (u : Update F) (ht : IsInteger t) :
    ∃ v, resolveUpdate N t base u = some v := by
  rcases u with v | ⟨_ | o⟩
  · exact ⟨v,rfl⟩
  · exact ⟨base,rfl⟩
  · exact calcNumCalc_isSome N ht

theorem integer_agrees (ht : IsInteger t) (h : IntegerAgreeing N u1 u2) : Agrees N t base u1 u2 := by
  by_cases hboth : Arithmetic u1 ∧ Arithmetic u2
  · rcases u1 with v | ⟨_ | o⟩ <;> rcases u2 with w | ⟨_ | p⟩ <;>
      simp only [Arithmetic,and_true,and_false] at hboth
    exact integral_agrees N base ht h.1 h.2
  rw [agrees_of_resolved N hboth]
  obtain ⟨v,hv⟩ := integer_resolves N base u1 ht
  obtain ⟨w,hw⟩ := integer_resolves N v u2 ht
  simp [sequential,hv,hw]

theorem decimal_resolves (x : Value F) (u : Update F) :
    (resolveUpdate N .bigDecimal x u).isSome ↔ Fits N (originDecimal x) u := by
  rcases u with v | ⟨_ | o⟩
  · simp [resolveUpdate,Fits]
  · simp [resolveUpdate,calcOperator,Fits]
  · simp only [resolveUpdate,calcOperator,calcNumCalc,isSome_map]
    exact Decimal.affine_isSome _ _ _

variable (o p : OperatorNumCalc F)

theorem merged_decimal : merged N .bigDecimal base (.operator ⟨some o⟩) (.operator ⟨some p⟩) =
      (Decimal.composed (originDecimal base) (operand N o.multi) (operand N o.add)
        (operand N p.multi) (operand N p.add)).map .decimal := by
  simp only [merged,mergeUpdate,mergeOperator,mergeNumCalc,Decimal.composed]
  cases (operand N o.multi).mul (operand N p.multi) with
  | none => rfl
  | some m =>
    cases (operand N o.add).mul (operand N p.multi) with
    | none | some b => rfl

theorem sequential_decimal :
    sequential N .bigDecimal base (.operator ⟨some o⟩) (.operator ⟨some p⟩) =
      (Decimal.inTurn (originDecimal base) (operand N o.multi) (operand N o.add)
        (operand N p.multi) (operand N p.add)).map .decimal := by
  simp only [sequential,resolveUpdate,calcOperator,calcNumCalc,Decimal.inTurn,OperatorNumCalc.calc]
  cases (originDecimal base).affine (operand N o.multi) (operand N o.add) with
  | none | some y => rfl

theorem decimal_merge_agrees : Agrees N .bigDecimal base (.operator ⟨some o⟩) (.operator ⟨some p⟩) ↔
      MergeFits N (originDecimal base) o p := by
  rw [Agrees,merged_decimal,sequential_decimal,MergeFits,← Decimal.composed_isSome,
    ← Decimal.inTurn_isSome]
  constructor
  · intro ⟨v,hm,hs⟩
    exact ⟨by rw [← isSome_map,hm]; rfl,by rw [← isSome_map,hs]; rfl⟩
  intro ⟨hm,hs⟩
  obtain ⟨w,hw⟩ := isSome_iff_exists.mp hm
  obtain ⟨z,hz⟩ := isSome_iff_exists.mp hs
  refine ⟨.decimal w,by rw [hw]; rfl,?_⟩
  rw [Decimal.composed_eq_inTurn _ _ _ _ _ w z hw hz,hz]
  rfl

theorem decimal_agrees : Agrees N .bigDecimal base u1 u2 ↔ DecimalAgreeing N base u1 u2 := by
  by_cases hboth : Arithmetic u1 ∧ Arithmetic u2
  · rcases u1 with v | ⟨_ | o⟩ <;> rcases u2 with w | ⟨_ | p⟩ <;>
      simp only [Arithmetic,and_true,and_false] at hboth
    exact decimal_merge_agrees N base o p
  rw [agrees_of_resolved N hboth]
  rcases u1 with v | ⟨_ | o⟩
  · exact decimal_resolves N v u2
  · exact decimal_resolves N base u2
  have hfirst := decimal_resolves N base (.operator ⟨some o⟩)
  rcases u2 with w | ⟨_ | p⟩
  · simp only [DecimalAgreeing,← hfirst,sequential]
    cases resolveUpdate N .bigDecimal base (.operator ⟨some o⟩) <;> simp [resolveUpdate]
  · simp only [DecimalAgreeing,← hfirst,sequential]
    cases resolveUpdate N .bigDecimal base (.operator ⟨some o⟩) <;>
      simp [resolveUpdate,calcOperator]
  · exact absurd ⟨trivial,trivial⟩ hboth

/-- Merging and resolving agree under the stated conditions on the operands,
and for decimals only under them. -/
theorem merged_updates_agree (t : FieldType) (base : Value F) (u1 u2 : Update F) :
    (Agreeing N t base u1 u2 → Agrees N t base u1 u2) ∧
      (t = .bigDecimal → Agrees N t base u1 u2 → Agreeing N t base u1 u2) := by
  constructor
  · intro h
    cases t with
    | int | int8 | bigInt => exact integer_agrees N base (by simp [IsInteger]) h
    | float => exact absurd h not_false
    | bigDecimal => exact (decimal_agrees N base).mpr h
    | other zero => exact absurd h not_false
  · intro ht h
    subst ht
    exact (decimal_agrees N base).mp h

end

def plainNumerals : Numerals Unit where
  newFromFloat _ := none
  float64 _ := ()
  floatZero := ()
  newFromString _ := none
  setString _ := none

theorem merged_updates_agree_doubling :
    Agrees plainNumerals .int (.int32 7) (.operator ⟨some ⟨.int 2,.bigInt 1⟩⟩)
        (.operator ⟨some ⟨.bigDecimal ⟨30,-1,by decide⟩,.int64 (-5)⟩⟩) ∧
      Agrees plainNumerals .bigDecimal .null (.operator ⟨some ⟨.int 2,.bigDecimal ⟨5,-1,by decide⟩⟩⟩)
        (.operator ⟨some ⟨.bigDecimal ⟨5,-1,by decide⟩,.int 1⟩⟩) := by
  constructor
  · exact (merged_updates_agree plainNumerals .int (.int32 7) _ _).1
      ⟨⟨⟨2,rfl,by decide +kernel⟩,1,rfl,by decide +kernel⟩,
        ⟨3,rfl,by decide +kernel⟩,-5,rfl,by decide +kernel⟩
  · exact (merged_updates_agree plainNumerals .bigDecimal .null _ _).1 ⟨by decide,by decide⟩

/-- Ten times a half plus one: the merged operator rounds the half to one
before it multiplies. -/
theorem fractional_operand_separates : [.bigDecimal ⟨5,-1,by decide⟩,.int 0,.int 1].all
        (checkNumCalcValueTypeMatch plainNumerals .bigInt) ∧
      merged plainNumerals .bigInt (.bigInt 10)
        (.operator ⟨some ⟨.bigDecimal ⟨5,-1,by decide⟩,.int 0⟩⟩)
        (.operator ⟨some ⟨.int 1,.int 1⟩⟩) = some (.bigInt 11) ∧
      sequential plainNumerals .bigInt (.bigInt 10)
        (.operator ⟨some ⟨.bigDecimal ⟨5,-1,by decide⟩,.int 0⟩⟩)
        (.operator ⟨some ⟨.int 1,.int 1⟩⟩) = some (.bigInt 6) := by
  refine ⟨rfl,by decide⟩

end Sentio.OperatorMerge
