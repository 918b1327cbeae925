import Mathlib.Tactic

/-!
# Decimal numbers with an integer coefficient and a power of ten

Products add exponents and are refused when the exponent leaves 32 bits, sums
move both terms to the smaller exponent, rounding to an integer goes half away
from zero.
-/

namespace Sentio.DecimalArith

def ExpFits (e : ℤ) : Prop := -2147483648 ≤ e ∧ e ≤ 2147483647

instance (e : ℤ) : Decidable (ExpFits e) := inferInstanceAs (Decidable (_ ∧ _))

theorem expFits_min {d e : ℤ} (hd : ExpFits d) (he : ExpFits e) : ExpFits (min d e) := by
  rcases min_choice d e with h | h <;> rwa [h]

structure Decimal where
  value : ℤ
  exp : ℤ
  fits : ExpFits exp
  deriving DecidableEq

/-- The nearest integer, a half going away from zero. -/
def halfAway (q : ℚ) : ℤ := if 0 ≤ q then ⌊q+1/2⌋ else -⌊-q+1/2⌋

namespace Decimal

def ofInt (z : ℤ) : Decimal := ⟨z,0,by decide⟩

def ofTenths (z : ℤ) : Decimal := ⟨z,-1,by decide⟩

def mul (a b : Decimal) : Option Decimal :=
  if h : ExpFits (a.exp+b.exp) then some ⟨a.value*b.value,a.exp+b.exp,h⟩ else none

def coefficientAt (a : Decimal) (e : ℤ) : ℤ := a.value*10^(a.exp-e).toNat

def add (a b : Decimal) : Decimal :=
  let e := min a.exp b.exp
  ⟨a.coefficientAt e+b.coefficientAt e,e,expFits_min a.fits b.fits⟩

def affine (x m a : Decimal) : Option Decimal := (x.mul m).map (fun d => d.add a)

def round (a : Decimal) : ℤ :=
  if 0 ≤ a.exp then a.coefficientAt 0
  else
    let unit : ℤ := 10^(-a.exp).toNat
    a.value.sign*((2*|a.value|+unit)/(2*unit))

def toRat (a : Decimal) : ℚ := a.value*(10:ℚ)^a.exp

variable (z : ℤ)

@[simp] theorem toRat_ofInt : (ofInt z).toRat = z := by simp [toRat,ofInt]

variable (a b : Decimal)

theorem ext_toRat (he : a.exp = b.exp) (hr : a.toRat = b.toRat) : a = b := by
  cases a with
  | mk av ae afits =>
    cases b with
    | mk bv be bfits =>
      subst he
      have hpow : (10:ℚ)^ae ≠ 0 := zpow_ne_zero _ (by norm_num)
      have hv : (av:ℚ) = bv := mul_right_cancel₀ hpow hr
      simp [Int.cast_inj.mp hv]

theorem toRat_coefficientAt (e : ℤ) (he : e ≤ a.exp) :
    (a.coefficientAt e:ℚ)*(10:ℚ)^e = a.toRat := by
  have hnat : ((a.exp-e).toNat:ℤ) = a.exp-e := Int.toNat_of_nonneg (by omega)
  have hexp : (10:ℚ)^a.exp = (10:ℚ)^(a.exp-e).toNat*(10:ℚ)^e := by
    rw [← zpow_natCast,← zpow_add₀ (by norm_num : (10:ℚ) ≠ 0)]
    congr 1
    omega
  rw [toRat,hexp,coefficientAt]
  push_cast
  ring

theorem toRat_add : (a.add b).toRat = a.toRat+b.toRat := by
  rw [← toRat_coefficientAt a (min a.exp b.exp) (min_le_left _ _),
    ← toRat_coefficientAt b (min a.exp b.exp) (min_le_right _ _)]
  simp only [add,toRat]
  push_cast
  ring

theorem add_exp : (a.add b).exp = min a.exp b.exp := rfl

theorem mul_of_fits (h : ExpFits (a.exp+b.exp)) :
    ∃ c, a.mul b = some c ∧ c.exp = a.exp+b.exp ∧ c.toRat = a.toRat*b.toRat := by
  have hrat : (⟨a.value*b.value,a.exp+b.exp,h⟩ : Decimal).toRat = a.toRat*b.toRat := by
    simp only [toRat,zpow_add₀ (by norm_num : (10:ℚ) ≠ 0)]
    push_cast
    ring
  exact ⟨_,dif_pos h,rfl,hrat⟩

theorem mul_isSome : (a.mul b).isSome ↔ ExpFits (a.exp+b.exp) := by
  unfold mul
  split <;> simp_all

theorem mul_eq_some (c : Decimal) (h : a.mul b = some c) :
    c.exp = a.exp+b.exp ∧ c.toRat = a.toRat*b.toRat := by
  have hfits : ExpFits (a.exp+b.exp) := (mul_isSome a b).mp (by rw [h]; rfl)
  obtain ⟨d,hd,hspec⟩ := mul_of_fits a b hfits
  exact Option.some.inj (h.symm.trans hd) ▸ hspec

variable (x m : Decimal)

theorem affine_isSome (a : Decimal) : (x.affine m a).isSome ↔ ExpFits (x.exp+m.exp) := by
  simp [affine,Option.isSome_map,mul_isSome]

theorem affine_eq_some (a y : Decimal) (h : x.affine m a = some y) :
    y.exp = min (x.exp+m.exp) a.exp ∧ y.toRat = x.toRat*m.toRat+a.toRat := by
  obtain ⟨d,hd,hy⟩ := Option.map_eq_some_iff.mp h
  obtain ⟨he,hr⟩ := mul_eq_some x m d hd
  exact hy ▸ ⟨by rw [add_exp,he],by rw [toRat_add,hr]⟩

variable (m1 a1 m2 a2 : Decimal)

/-- Two affine maps in turn and their composite agree, exponents included. -/
theorem affine_compose (m b y z w : Decimal) (hm : m1.mul m2 = some m)
    (hb : a1.mul m2 = some b) (hy : x.affine m1 a1 = some y) (hz : y.affine m2 a2 = some z)
    (hw : x.affine m (b.add a2) = some w) : w = z := by
  obtain ⟨hme,hmr⟩ := mul_eq_some m1 m2 m hm
  obtain ⟨hbe,hbr⟩ := mul_eq_some a1 m2 b hb
  obtain ⟨hye,hyr⟩ := affine_eq_some x m1 a1 y hy
  obtain ⟨hze,hzr⟩ := affine_eq_some y m2 a2 z hz
  obtain ⟨hwe,hwr⟩ := affine_eq_some x m (b.add a2) w hw
  apply ext_toRat
  · rw [hwe,hze,add_exp]
    omega
  · rw [hwr,hzr,hyr,toRat_add,hmr,hbr]
    ring

def composed (x m1 a1 m2 a2 : Decimal) : Option Decimal :=
  (m1.mul m2).bind (fun m => (a1.mul m2).bind (fun b => x.affine m (b.add a2)))

def inTurn (x m1 a1 m2 a2 : Decimal) : Option Decimal :=
  (x.affine m1 a1).bind (fun y => y.affine m2 a2)

theorem composed_isSome : (composed x m1 a1 m2 a2).isSome ↔
      ExpFits (m1.exp+m2.exp) ∧ ExpFits (a1.exp+m2.exp) ∧ ExpFits (x.exp+(m1.exp+m2.exp)) := by
  rw [← mul_isSome m1 m2,← mul_isSome a1 m2,composed]
  cases hm : m1.mul m2 with
  | none => simp
  | some m =>
    cases hb : a1.mul m2 with
    | none => simp
    | some b => simp [affine_isSome,(mul_eq_some m1 m2 m hm).1]

theorem inTurn_isSome : (inTurn x m1 a1 m2 a2).isSome ↔
      ExpFits (x.exp+m1.exp) ∧ ExpFits (min (x.exp+m1.exp) a1.exp+m2.exp) := by
  rw [← affine_isSome x m1 a1,inTurn]
  cases hy : x.affine m1 a1 with
  | none => simp
  | some y => simp [affine_isSome,(affine_eq_some x m1 a1 y hy).1]

theorem composed_eq_inTurn (w z : Decimal)
    (hw : composed x m1 a1 m2 a2 = some w) (hz : inTurn x m1 a1 m2 a2 = some z) : w = z := by
  obtain ⟨m,hm,hrest⟩ := Option.bind_eq_some_iff.mp hw
  obtain ⟨b,hb,hlast⟩ := Option.bind_eq_some_iff.mp hrest
  obtain ⟨y,hy,hyz⟩ := Option.bind_eq_some_iff.mp hz
  exact affine_compose x m1 a1 m2 a2 m b y z w hm hb hy hyz hlast

theorem halfAway_intCast : halfAway z = z := by
  have hhalf : ∀ n : ℤ, ⌊(n:ℚ)+1/2⌋ = n := by
    intro n
    rw [Int.floor_intCast_add]
    norm_num
  unfold halfAway
  split
  · exact hhalf z
  · rw [← Int.cast_neg,hhalf,neg_neg]

theorem floor_halves {w u : ℤ} (hu : 0 < u) : ⌊(w:ℚ)/u+1/2⌋ = (2*w+u)/(2*u) := by
  have hnat : ((2*u).toNat:ℤ) = 2*u := Int.toNat_of_nonneg (by omega)
  have hq : (0:ℚ) < u := by exact_mod_cast hu
  have hsum : (w:ℚ)/u+1/2 = ((2*w+u : ℤ):ℚ)/((2*u).toNat:ℕ) := by
    rw [← Int.cast_natCast,hnat]
    push_cast
    field_simp
  rw [hsum,Rat.floor_intCast_div_natCast,hnat]

/-- Rounding to an integer goes half away from zero. -/
theorem round_eq_halfAway : a.round = halfAway a.toRat := by
  unfold round
  by_cases he : 0 ≤ a.exp
  · rw [if_pos he,← toRat_coefficientAt a 0 he,zpow_zero,mul_one,halfAway_intCast]
  rw [if_neg he]
  have hu : (0:ℤ) < 10^(-a.exp).toNat := by positivity
  have hnat : ((-a.exp).toNat:ℤ) = -a.exp := Int.toNat_of_nonneg (by omega)
  have hrat : a.toRat = (a.value:ℚ)/((10^(-a.exp).toNat : ℤ):ℚ) := by
    rw [toRat,div_eq_mul_inv]
    push_cast
    rw [← zpow_natCast,hnat,zpow_neg,inv_inv]
  generalize (10^(-a.exp).toNat : ℤ) = u at hu hrat
  have hq : (0:ℚ) < u := by exact_mod_cast hu
  simp only
  rcases lt_trichotomy a.value 0 with hv | hv | hv
  · have hneg : ¬0 ≤ a.toRat := by
      rw [hrat,not_le]
      exact div_neg_of_neg_of_pos (by exact_mod_cast hv) hq
    rw [halfAway,if_neg hneg,hrat,← neg_div,← Int.cast_neg,floor_halves hu,
      Int.sign_eq_neg_one_of_neg hv,abs_of_neg hv,neg_one_mul]
  · rw [halfAway,hrat,hv]
    norm_num
  · have hpos : 0 ≤ a.toRat := by
      rw [hrat]
      positivity
    rw [halfAway,if_pos hpos,hrat,floor_halves hu,Int.sign_eq_one_of_pos hv,abs_of_pos hv,one_mul]

theorem round_of_toRat (z : ℤ) (h : a.toRat = z) : a.round = z := by
  rw [round_eq_halfAway,h,halfAway_intCast]

example : (ofTenths 25).round = 3 ∧ (ofTenths (-25)).round = -3 := by decide

end Decimal
end Sentio.DecimalArith
