import SentioCore.EntityReference

/-!
# Range of the integer fields

The operators pending on one field are calculated when a later update of the
same block meets a value, when the entity is read and when the block is
committed. Two pending operators are merged before, with their operands rounded
to integers. What the updates as written give is a fold over exact numbers,
rounded after each update.
-/

namespace Sentio.IntegerFields
open DecimalArith NumericOperator OperatorMerge EntityReference List

/-- What happens to a field after its first pending update. -/
inductive Step (F : Type) where
  | sameBlock (update : Update F)
  | laterBlock (update : Update F)
  | read

section
variable {F : Type} (N : Numerals F) (t : FieldType)

def kept : Update F → List (Value F)
  | .value v => [v]
  | .operator _ => []

/-- The values a field takes along a chain of updates, from the value before the first of them:
those a merge leaves pending, those of the reads and those that are committed. -/
def calculations : Value F → Update F → List (Step F) → Option (List (Value F))
  | base, pending, [] => (resolveUpdate N t base pending).map ([·])
  | base, pending, .read::rest =>
    (resolveUpdate N t base pending).bind fun v => (calculations base (.value v) rest).map (v::·)
  | base, pending, .laterBlock u::rest =>
    (resolveUpdate N t base pending).bind fun v => (calculations v u rest).map (v::·)
  | base, pending, .sameBlock u::rest =>
    (mergeUpdate N t pending u).bind fun merged =>
      (calculations base merged rest).map (kept merged++·)

/-- `checkFieldValue` on a field of type `Int` or `Int8`. -/
def checkIntegerValue (nonNull : Bool) (v : Value F) : Bool := !(nonNull && v matches .null)

/-- One update on an integer: the exact product and sum, rounded. -/
def exactResult (x : ℤ) (o : OperatorNumCalc F) : ℤ :=
  halfAway (x*(operand N o.multi).toRat+(operand N o.add).toRat)

/-- What the updates of one block say, as written. -/
inductive Written (F : Type) where
  | value (v : Value F)
  | operators (ops : List (OperatorNumCalc F))

def Written.due (start : Value F) : Written F → Value F
  | .value v => v
  | .operators [] => start
  | .operators ops => exactValue t (ops.foldl (exactResult N) (originInt t start))

def Written.add : Written F → Update F → Written F
  | _, .value v => .value v
  | w, .operator ⟨none⟩ => w
  | .value v, .operator ⟨some o⟩ => .value (exactValue t (exactResult N (originInt t v) o))
  | .operators ops, .operator ⟨some o⟩ => .operators (ops++[o])

def Written.first (u : Update F) : Written F := Written.add N t (.operators []) u

def Written.kept : Written F → List (Value F)
  | .value v => [v]
  | .operators _ => []

/-- The values the updates as written give, where `calculations` has its own. -/
def dueValues : Value F → Written F → List (Step F) → List (Value F)
  | start, w, [] => [w.due N t start]
  | start, w, .read::rest =>
    w.due N t start::dueValues start (.value (w.due N t start)) rest
  | start, w, .laterBlock u::rest =>
    w.due N t start::dueValues (w.due N t start) (.first N t u) rest
  | start, w, .sameBlock u::rest => (w.add N t u).kept++dueValues start (w.add N t u) rest

def nearInt (v : RichValue F) : ℤ := (getBigInt N v).getD 0

def nearResult (x : ℤ) (o : OperatorNumCalc F) : ℤ := x*nearInt N o.multi+nearInt N o.add

def Readable (o : OperatorNumCalc F) : Prop := (getBigInt N o.multi).isSome ∧ (getBigInt N o.add).isSome

/-- What rounding the operands first takes from the exact results of the updates on `x`: each
loses something on the number it meets, carried through the multipliers of the later ones. -/
def drift : ℤ → List (OperatorNumCalc F) → ℤ
  | _, [] => 0
  | x, o::rest =>
    (exactResult N x o-nearResult N x o)*(rest.map fun p => nearInt N p.multi).prod+
      drift (exactResult N x o) rest

def modulus : ℤ :=
  match t with
  | .int => 2^32
  | _ => 2^64

/-- The result of the updates is in range, and merging them keeps it up to the width of the type. -/
def Written.Fits (start : Value F) : Written F → Prop
  | .value _ | .operators [] => True
  | .operators [o] => inRange t (exactResult N (originInt t start) o)
  | .operators ops => inRange t (ops.foldl (exactResult N) (originInt t start)) ∧
      modulus t ∣ drift N (originInt t start) ops

def Written.Takes : Written F → Update F → Prop
  | .value v, .operator ⟨some o⟩ => inRange t (exactResult N (originInt t v) o)
  | .operators (o::ops), .operator ⟨some p⟩ => ∀ q ∈ o::(ops++[p]), Readable N q
  | _, _ => True

/-- Along the chain every result is in range, operators that are merged have integer readings and
the merges lose nothing. -/
def Fitting : Value F → Written F → List (Step F) → Prop
  | start, w, [] => w.Fits N t start
  | start, w, .read::rest => w.Fits N t start ∧ Fitting start (.value (w.due N t start)) rest
  | start, w, .laterBlock u::rest =>
    w.Fits N t start ∧ Fitting (w.due N t start) (.first N t u) rest
  | start, w, .sameBlock u::rest => w.Takes N t u ∧ Fitting start (w.add N t u) rest

instance (o : OperatorNumCalc F) : Decidable (Readable N o) := inferInstanceAs (Decidable (_ ∧ _))

instance Written.decideFits (start : Value F) : (w : Written F) → Decidable (w.Fits N t start)
  | .value _ | .operators [] => .isTrue trivial
  | .operators [_] => inferInstanceAs (Decidable (_ = true))
  | .operators (_::_::_) => inferInstanceAs (Decidable (_ ∧ _))

instance Written.decideTakes : (w : Written F) → (u : Update F) → Decidable (w.Takes N t u)
  | .value _, .operator ⟨some _⟩ => inferInstanceAs (Decidable (_ = true))
  | .operators (_::_), .operator ⟨some _⟩ => List.decidableBAll _ _
  | .operators [], .operator ⟨some _⟩ | .value _, .value _ | .value _, .operator ⟨none⟩
  | .operators [], .value _ | .operators [], .operator ⟨none⟩
  | .operators (_::_), .value _ | .operators (_::_), .operator ⟨none⟩ => .isTrue trivial

instance decideFitting :
    (start : Value F) → (w : Written F) → (steps : List (Step F)) → Decidable (Fitting N t start w steps)
  | start, w, [] => inferInstanceAs (Decidable (w.Fits N t start))
  | start, w, .read::rest =>
    have := decideFitting start (.value (w.due N t start)) rest
    inferInstanceAs (Decidable (_ ∧ _))
  | start, w, .laterBlock u::rest =>
    have := decideFitting (w.due N t start) (.first N t u) rest
    inferInstanceAs (Decidable (_ ∧ _))
  | start, w, .sameBlock u::rest =>
    have := decideFitting start (w.add N t u) rest
    inferInstanceAs (Decidable (_ ∧ _))

section
variable {N t}

theorem foldl_nearResult_add (ops : List (OperatorNumCalc F)) (x e : ℤ) :
    ops.foldl (nearResult N) (x+e) =
      ops.foldl (nearResult N) x+e*(ops.map fun p => nearInt N p.multi).prod := by
  induction ops generalizing x e with
  | nil => simp
  | cons o ops ih =>
    have hstep : nearResult N (x+e) o = nearResult N x o+e*nearInt N o.multi := by
      simp only [nearResult]
      ring
    rw [foldl_cons,foldl_cons,hstep,ih,map_cons,prod_cons,mul_assoc]

theorem foldl_exactResult (ops : List (OperatorNumCalc F)) (x : ℤ) :
    ops.foldl (exactResult N) x = ops.foldl (nearResult N) x+drift N x ops := by
  induction ops generalizing x with
  | nil => simp [drift]
  | cons o ops ih =>
    have := foldl_nearResult_add (N := N) ops (nearResult N x o) (exactResult N x o-nearResult N x o)
    rw [add_sub_cancel] at this
    rw [foldl_cons,ih,this,foldl_cons,drift,add_assoc]

/-- An operator pending for two or more written ones merges as they would. -/
theorem merge_ops (ops : List (OperatorNumCalc F)) {m a : ℤ} {p : OperatorNumCalc F}
    (hfold : ∀ x, ops.foldl (nearResult N) x = x*m+a) (x : ℤ) :
    (ops++[p]).foldl (nearResult N) x =
      x*(m*nearInt N p.multi)+(a*nearInt N p.multi+nearInt N p.add) := by
  rw [foldl_append,hfold,foldl_cons,foldl_nil,nearResult]
  ring

variable (ht : t = .int ∨ t = .int8)
include ht

theorem intValue_eq_exact_iff {y z : ℤ} :
    (intValue t z : Value F) = exactValue t y ↔ inRange t y ∧ modulus t ∣ y-z := by
  rcases ht with rfl | rfl
  · simp only [intValue,exactValue,narrow,int32Of_int64Of,Value.int32.injEq,inRange,modulus,
      decide_eq_true_eq]
    exact bmod_eq_iff 31
  · simp only [intValue,exactValue,narrow,Value.int64.injEq,inRange,modulus,decide_eq_true_eq]
    exact bmod_eq_iff 63

theorem calcNumCalc_exact (v : Value F) (o : OperatorNumCalc F) :
    calcNumCalc N t v o = some (intValue t (exactResult N (originInt t v) o)) := by
  have hi : IsInteger t := by rcases ht with rfl | rfl <;> simp [IsInteger]
  obtain ⟨d,hd⟩ := Option.isSome_iff_exists.mp (calc_ofInt_isSome N (o := o) (x := originInt t v))
  rw [calcNumCalc_integer N v o hi,hd,Option.map_some,Decimal.round_eq_halfAway,
    (Decimal.affine_eq_some _ _ _ d hd).2,Decimal.toRat_ofInt,exactResult]

end

/-- The pending update of the code stands for the updates as written. -/
inductive Stands : Update F → Written F → Prop
  | value (v : Value F) : Stands (.value v) (.value v)
  | nothing : Stands (.operator ⟨none⟩) (.operators [])
  | one (o : OperatorNumCalc F) : Stands (.operator ⟨some o⟩) (.operators [o])
  | merged {o p : OperatorNumCalc F} {ops : List (OperatorNumCalc F)} {m a : ℤ}
      (readable : ∀ q ∈ o::p::ops, Readable N q)
      (acts : ∀ x, (o::p::ops).foldl (nearResult N) x = x*m+a) :
      Stands (.operator ⟨some ⟨.bigInt m,.bigInt a⟩⟩) (.operators (o::p::ops))

variable {N t} {u : Update F} {w : Written F}

theorem first_stands (first : Update F) : Stands N first (.first N t first) := by
  rcases first with v | ⟨_ | o⟩
  · exact .value v
  · exact .nothing
  · exact .one o

theorem kept_stands (h : Stands N u w) : kept u = w.kept := by
  cases h <;> rfl

variable (ht : t = .int ∨ t = .int8) (nonNull : Bool)
include ht

theorem checkIntegerValue_intValue (z : ℤ) :
    checkIntegerValue nonNull (intValue t z : Value F) = true := by
  rcases ht with rfl | rfl <;> simp [checkIntegerValue,intValue]

theorem calcNumCalc_near {m a : ℤ} (v : Value F) :
    calcNumCalc N t v ⟨.bigInt m,.bigInt a⟩ = some (intValue t (originInt t v*m+a)) := by
  have hi : IsInteger t := by rcases ht with rfl | rfl <;> simp [IsInteger]
  exact calcNumCalc_integral N t v ⟨.bigInt m,.bigInt a⟩ m a hi (readsAs_bigInt N m)
    (readsAs_bigInt N a)

/-- A resolved update is what the updates as written give, exactly when they fit. -/
theorem resolve_stands (h : Stands N u w) (start : Value F) :
    ∃ v, resolveUpdate N t start u = some v ∧ (v = w.due N t start ↔ w.Fits N t start) ∧
      (checkIntegerValue nonNull v = false → v = w.due N t start) := by
  have hnum : ∀ {o y z}, calcNumCalc N t start o = some (intValue t z) →
      ∃ v, resolveUpdate N t start (.operator ⟨some o⟩) = some v ∧
        (v = exactValue t y ↔ inRange t y ∧ modulus t ∣ y-z) ∧
        (checkIntegerValue nonNull v = false → v = exactValue t y) := by
    intro o y z hcalc
    refine ⟨_,hcalc,intValue_eq_exact_iff ht,fun hcheck => ?_⟩
    rw [checkIntegerValue_intValue ht] at hcheck
    cases hcheck
  cases h with
  | value v => exact ⟨v,rfl,iff_of_true rfl trivial,fun _ => rfl⟩
  | nothing => exact ⟨start,rfl,iff_of_true rfl trivial,fun _ => rfl⟩
  | one o =>
    obtain ⟨v,hv,hiff,hcheck⟩ := hnum (y := exactResult N (originInt t start) o)
      (calcNumCalc_exact ht start o)
    refine ⟨v,hv,?_,hcheck⟩
    rw [sub_self,and_iff_left (dvd_zero _)] at hiff
    exact hiff
  | @merged o p ops m a _ hfold =>
    obtain ⟨v,hv,hiff,hcheck⟩ := hnum
      (y := (o::p::ops).foldl (exactResult N) (originInt t start)) (calcNumCalc_near ht start)
    refine ⟨v,hv,?_,hcheck⟩
    rw [← hfold,foldl_exactResult,add_sub_cancel_left,← foldl_exactResult] at hiff
    exact hiff

/-- Two operators are merged with their operands as integers; without a reading that panics. -/
theorem mergeUpdate_near {o p : OperatorNumCalc F} :
    (Readable N o ∧ Readable N p → mergeUpdate N t (.operator ⟨some o⟩) (.operator ⟨some p⟩) =
        some (.operator ⟨some ⟨.bigInt (nearInt N o.multi*nearInt N p.multi),
          .bigInt (nearInt N o.add*nearInt N p.multi+nearInt N p.add)⟩⟩)) ∧
      (¬(Readable N o ∧ Readable N p) →
        mergeUpdate N t (.operator ⟨some o⟩) (.operator ⟨some p⟩) = none) := by
  simp only [Readable,nearInt,mergeUpdate,mergeOperator]
  rcases ht with rfl | rfl <;> simp only [mergeNumCalc] <;>
    cases getBigInt N o.multi <;> cases getBigInt N o.add <;> cases getBigInt N p.multi <;>
    cases getBigInt N p.add <;> simp

theorem merge_stands (h : Stands N u w) {u' : Update F} (htakes : w.Takes N t u') :
    ∃ merged, mergeUpdate N t u u' = some merged ∧ Stands N merged (w.add N t u') := by
  rcases u' with v | ⟨_ | p⟩
  · exact ⟨.value v,by cases u <;> rfl,.value v⟩
  · refine ⟨u,?_,by cases w <;> exact h⟩
    rcases u with v | ⟨_ | o⟩ <;> rfl
  cases h with
  | value v =>
    refine ⟨.value (intValue t (exactResult N (originInt t v) p)),?_,?_⟩
    · simp [mergeUpdate,calcOperator,calcNumCalc_exact ht]
    · rw [(intValue_eq_exact_iff ht).mpr ⟨htakes,by simp⟩]
      exact .value _
  | nothing => exact ⟨.operator ⟨some p⟩,rfl,.one p⟩
  | one o =>
    have hread : Readable N o ∧ Readable N p := by simpa [Written.Takes] using htakes
    exact ⟨_,(mergeUpdate_near ht).1 hread,.merged htakes (merge_ops [o] fun _ => rfl)⟩
  | @merged o q ops m a hops hfold =>
    have hread : Readable N (⟨.bigInt m,.bigInt a⟩ : OperatorNumCalc F) ∧ Readable N p :=
      ⟨⟨rfl,rfl⟩,htakes p (by simp)⟩
    exact ⟨_,(mergeUpdate_near ht).1 hread,.merged htakes (merge_ops _ hfold)⟩

theorem merge_refused (h : Stands N u w) {u' : Update F} (htakes : ¬w.Takes N t u') :
    mergeUpdate N t u u' = none ∨ ∃ v d, mergeUpdate N t u u' = some (.value v) ∧
      w.add N t u' = .value d ∧ v ≠ d ∧ checkIntegerValue nonNull v = true := by
  rcases u' with v | ⟨_ | p⟩
  · exact absurd (by rcases w with v' | (_ | ⟨o,ops⟩) <;> trivial) htakes
  · exact absurd (by rcases w with v | (_ | ⟨o,ops⟩) <;> trivial) htakes
  cases h with
  | value v =>
    refine .inr ⟨intValue t (exactResult N (originInt t v) p),_,?_,rfl,?_,
      checkIntegerValue_intValue ht nonNull _⟩
    · simp [mergeUpdate,calcOperator,calcNumCalc_exact ht]
    · exact fun heq => htakes ((intValue_eq_exact_iff ht).mp heq).1
  | nothing => exact absurd trivial htakes
  | one o =>
    have hread : ¬(Readable N o ∧ Readable N p) := by simpa [Written.Takes] using htakes
    exact .inl ((mergeUpdate_near ht).2 hread)
  | @merged o q ops m a hops hfold =>
    have hread : ¬(Readable N (⟨.bigInt m,.bigInt a⟩ : OperatorNumCalc F) ∧ Readable N p) := by
      rintro ⟨-,hp⟩
      refine htakes fun r hr => ?_
      rcases mem_append.mp (show r ∈ (o::q::ops)++[p] from hr) with hr | hr
      · exact hops r hr
      · rwa [mem_singleton.mp hr]
    exact .inl ((mergeUpdate_near ht).2 hread)

/-- The rule of a resolution in the middle of a chain. -/
theorem resolve_then (start : Value F) (next : Value F → Option (List (Value F)))
    {dues : List (Value F)} {rest : Prop} (h : Stands N u w)
    (hnext : (∃ l, next (w.due N t start) = some l ∧
      l.Forall₂ (fun r d => r = d ∨ checkIntegerValue nonNull r = false) dues) ↔ rest) :
    (∃ l, (resolveUpdate N t start u).bind (fun v => (next v).map (v::·)) = some l ∧
      l.Forall₂ (fun r d => r = d ∨ checkIntegerValue nonNull r = false)
        (w.due N t start::dues)) ↔ w.Fits N t start ∧ rest := by
  obtain ⟨v,hv,hfits,hcheck⟩ := resolve_stands ht nonNull h start
  have heq : (v = w.due N t start ∨ checkIntegerValue nonNull v = false) ↔ v = w.due N t start :=
    ⟨fun hor => hor.elim id hcheck,.inl⟩
  rw [← hfits,← hnext,hv]
  simp only [Option.bind_some,Option.map_eq_some_iff]
  constructor
  · rintro ⟨_,⟨l,hl,rfl⟩,hall⟩
    obtain ⟨hhead,htail⟩ := forall₂_cons.mp hall
    have hv := heq.mp hhead
    exact ⟨hv,l,hv ▸ hl,htail⟩
  · rintro ⟨rfl,l,hl,hall⟩
    exact ⟨_,⟨l,hl,rfl⟩,.cons (.inl rfl) hall⟩

theorem calculations_iff (base : Value F) (steps : List (Step F)) (h : Stands N u w) :
    (∃ l, calculations N t base u steps = some l ∧
        l.Forall₂ (fun r d => r = d ∨ checkIntegerValue nonNull r = false)
          (dueValues N t base w steps)) ↔ Fitting N t base w steps := by
  induction steps generalizing base u w with
  | nil =>
    have := resolve_then ht nonNull base (fun _ => some []) h
      (iff_true_intro ⟨[],rfl,Forall₂.nil⟩)
    simpa [calculations,dueValues,Fitting,Option.map_eq_bind] using this
  | cons step rest ih =>
    cases step with
    | read => exact resolve_then ht nonNull _ _ h (ih base (.value _))
    | laterBlock u' => exact resolve_then ht nonNull _ _ h (ih _ (first_stands u'))
    | sameBlock u' =>
      by_cases htakes : w.Takes N t u'
      · obtain ⟨merged,hm,hs⟩ := merge_stands ht h htakes
        have hkept : ∀ l, ((w.add N t u').kept++l).Forall₂
            (fun r d => r = d ∨ checkIntegerValue nonNull r = false)
              ((w.add N t u').kept++dueValues N t base (w.add N t u') rest) ↔
            l.Forall₂ (fun r d => r = d ∨ checkIntegerValue nonNull r = false)
              (dueValues N t base (w.add N t u') rest) := by
          intro l
          cases w.add N t u' <;> simp [Written.kept]
        simp only [calculations,dueValues,Fitting,hm,Option.bind_some,htakes,true_and,← ih base hs,
          Option.map_eq_some_iff,kept_stands hs]
        constructor
        · rintro ⟨_,⟨l,hl,rfl⟩,hall⟩
          exact ⟨l,hl,(hkept l).mp hall⟩
        · rintro ⟨l,hl,hall⟩
          exact ⟨_,⟨l,hl,rfl⟩,(hkept l).mpr hall⟩
      · refine iff_of_false ?_ fun hf => htakes hf.1
        rintro ⟨l,hl,hall⟩
        rcases merge_refused ht nonNull h htakes with hm | ⟨v,d,hm,hw,hne,hcheck⟩
        · simp [calculations,hm] at hl
        · simp only [calculations,hm,Option.bind_some,Option.map_eq_some_iff] at hl
          obtain ⟨l',-,rfl⟩ := hl
          rw [dueValues,hw] at hall
          rcases (forall₂_cons.mp hall).1 with heq | hfalse
          · exact hne heq
          · rw [hcheck] at hfalse
            cases hfalse

/-- Along every chain of updates the values are what the updates as written give, or reported by
the check of the values, exactly when the chain fits the type. -/
theorem integer_results_exact_iff (base : Value F) (first : Update F) (steps : List (Step F)) :
    (∃ l, calculations N t base first steps = some l ∧
        l.Forall₂ (fun r d => r = d ∨ checkIntegerValue nonNull r = false)
          (dueValues N t base (.first N t first) steps)) ↔
      Fitting N t base (.first N t first) steps :=
  calculations_iff ht nonNull base steps (first_stands first)

end

/-- `x*multi/10+add` on a field. -/
def tenths (multi add : ℤ) : Update Unit :=
  .operator ⟨some ⟨.bigDecimal (.ofTenths multi),.int add⟩⟩

def readBetween : List (Step Unit) :=
  [.sameBlock (tenths 10 1),.read,.sameBlock (tenths 5 0),.laterBlock (tenths 10 1)]

/-- Doubling and adding one in a block, a half after a read and one more in the next block. -/
theorem integer_results_exact_chain :
    dueValues plainNumerals .int (.int32 10) (.first plainNumerals .int (tenths 20 0)) readBetween =
        [.int32 21,.int32 11,.int32 11,.int32 12] ∧
      ∃ l, calculations plainNumerals .int (.int32 10) (tenths 20 0) readBetween = some l ∧
        l.Forall₂ (fun r d => r = d ∨ checkIntegerValue true r = false)
          (dueValues plainNumerals .int (.int32 10) (.first plainNumerals .int (tenths 20 0))
            readBetween) :=
  ⟨by decide +kernel,(integer_results_exact_iff (.inl rfl) true (.int32 10) (tenths 20 0)
    readBetween).mpr (by decide +kernel)⟩

/-- The greatest value wraps around and passes the check, and half of ten plus one is eleven. -/
theorem greatest_value_wraps :
    calculations plainNumerals .int (.int32 2147483647) (tenths 10 1) [] =
        some [.int32 (-2147483648)] ∧
      dueValues plainNumerals .int (.int32 2147483647) (.first plainNumerals .int (tenths 10 1)) [] =
        [.int32 2147483648] ∧
      checkIntegerValue true (.int32 (-2147483648) : Value Unit) = true ∧
      calculations plainNumerals .int (.int32 10) (tenths 5 0) [.sameBlock (tenths 10 1)] =
        some [.int32 11] ∧
      dueValues plainNumerals .int (.int32 10) (.first plainNumerals .int (tenths 5 0))
        [.sameBlock (tenths 10 1)] = [.int32 6] := by
  decide +kernel

end Sentio.IntegerFields
