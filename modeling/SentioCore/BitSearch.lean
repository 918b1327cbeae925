import SentioCore.WordArith

/-!
# Powers of two and binary search over words

The lowest set bit is isolated by word operations, and the highest one is found
by clearing the lowest until one is left. The search keeps a word where the
checker fails below a word where it holds; the sum of the two bounds may wrap,
so the bounds have to stay in the lower half of the words.
-/

namespace Sentio.BitSearch
open WordArith Nat

def lowBit (v : UInt64) : UInt64 := (v ^^^ (v-1)) &&& v

/-- A word has at most 64 bits to clear. -/
def highBitLoop : ℕ → UInt64 → Option UInt64
  | 0, _ => none
  | fuel+1, v => if lowBit v = v then some v else highBitLoop fuel (v-lowBit v)

def highBit (v : UInt64) : Option UInt64 := highBitLoop 65 v

def minP2 (v : UInt64) : Option UInt64 :=
  (highBit v).map (fun n => if n < v then n <<< 1 else v)

section search
variable {ε : Type}

def searchLoop (checker : UInt64 → Except ε Bool) : ℕ → UInt64 → UInt64 →
    Option (Except ε (UInt64 × Bool))
  | 0, _, _ => none
  | fuel+1, s, e =>
    if s+1 < e then
      let m := (s+e) >>> 1
      if e ≤ m then searchLoop checker fuel s m
      else if m ≤ s then searchLoop checker fuel m e
      else
        match checker m with
        | .error err => some (.error err)
        | .ok true => searchLoop checker fuel s m
        | .ok false => searchLoop checker fuel m e
    else some (.ok (e,true))

def binarySearch (checker : UInt64 → Except ε Bool) (fuel : ℕ) (s e : UInt64) :
    Option (Except ε (UInt64 × Bool)) :=
  match checker s with
  | .error err => some (.error err)
  | .ok true => some (.ok (s,true))
  | .ok false =>
    match checker e with
    | .error err => some (.error err)
    | .ok false => some (.ok (0,false))
    | .ok true => searchLoop checker fuel s e

end search

theorem toNat_half (s e : UInt64) (h : s.toNat+e.toNat < 18446744073709551616) :
    ((s+e) >>> 1).toNat = (s.toNat+e.toNat)/2 := by
  simp [mod_eq_of_lt h,shiftRight_eq_div_pow]

section border
variable {ε : Type} (p : UInt64 → Bool) (fuel : ℕ) (s e : UInt64) (he : e.toNat ≤ 2^63)
  (hlt : s.toNat < e.toNat) (hs : p s = false) (hp : p e) (hf : e.toNat-s.toNat < fuel)
include he hlt hs hp hf

/-- The search ends at the border between the words where the predicate fails
and those where it holds. -/
theorem searchLoop_border :
    ∃ r, searchLoop (fun n => (.ok (p n) : Except ε Bool)) fuel s e = some (.ok (r,true)) ∧
      s.toNat < r.toNat ∧ r.toNat ≤ e.toNat ∧ p r ∧ p (r-1) = false := by
  induction fuel generalizing s e with
  | zero => omega
  | succ fuel ih =>
    have hi : (s+1).toNat = s.toNat+1 := toNat_inc _ (by omega)
    rw [searchLoop]
    by_cases hgap : s+1 < e
    · have hg : s.toNat+1 < e.toNat := by rwa [UInt64.lt_iff_toNat_lt,hi] at hgap
      have hm := toNat_half s e (by omega)
      have h1 : ¬e ≤ (s+e) >>> 1 := by rw [UInt64.le_iff_toNat_le]; omega
      have h2 : ¬(s+e) >>> 1 ≤ s := by rw [UInt64.le_iff_toNat_le]; omega
      simp only [hgap,h1,h2]
      cases hmid : p ((s+e) >>> 1) with
      | true =>
        obtain ⟨r,hr,h3,h4,h5⟩ := ih s ((s+e) >>> 1) (by omega) (by omega) hs hmid (by omega)
        exact ⟨r,hr,h3,by omega,h5⟩
      | false =>
        obtain ⟨r,hr,h3,h4,h5⟩ := ih ((s+e) >>> 1) e he (by omega) hmid hp (by omega)
        exact ⟨r,hr,by omega,h4,h5⟩
    · have hg : e.toNat = s.toNat+1 := by
        rw [UInt64.lt_iff_toNat_lt] at hgap
        omega
      have hdec : e-1 = s := by
        apply UInt64.toNat_inj.mp
        rw [toNat_dec _ (by omega)]
        omega
      exact ⟨e,if_neg hgap,hlt,le_rfl,hp,by rw [hdec]; exact hs⟩

theorem binarySearch_border :
    ∃ r, binarySearch (fun n => (.ok (p n) : Except ε Bool)) fuel s e = some (.ok (r,true)) ∧
      s.toNat < r.toNat ∧ r.toNat ≤ e.toNat ∧ p r ∧ p (r-1) = false := by
  obtain ⟨r,hr,hb⟩ := @searchLoop_border ε p fuel s e he hlt hs hp hf
  exact ⟨r,by simpa [binarySearch,hs,hp] using hr,hb⟩

end border

theorem odd_part {n : ℕ} (h : 0 < n) : ∃ k m, n = 2^(k+1)*m+2^k := by
  induction n using Nat.strong_induction_on with
  | _ n ih =>
    by_cases hodd : n%2 = 1
    · exact ⟨0,n/2,by omega⟩
    obtain ⟨k,m,hk⟩ := ih (n/2) (by omega) (by omega)
    refine ⟨k+1,m,?_⟩
    have hn : n = 2*(n/2) := by omega
    rw [hn,hk]
    ring

theorem isolate_bit {k m : ℕ} :
    ((2^(k+1)*m+2^k) ^^^ (2^(k+1)*m+2^k-1)) &&& (2^(k+1)*m+2^k) = 2^k := by
  have hlt : 2^k < 2^(k+1) := Nat.pow_lt_pow_succ one_lt_two
  have hpos : 0 < 2^k := Nat.two_pow_pos k
  apply eq_of_testBit_eq
  intro i
  rw [Nat.add_sub_assoc hpos,Nat.testBit_and,Nat.testBit_xor,
    testBit_two_pow_mul_add _ hlt,testBit_two_pow_mul_add _ (by omega),
    testBit_two_pow,testBit_two_pow_sub_one]
  by_cases hi : i < k+1
  · by_cases hk : k = i
    · simp [hk]
    · simp [hi,hk]
  · simp [hi,show k ≠ i by omega]

theorem toNat_lowBit {v : UInt64} {k m : ℕ} (h : v.toNat = 2^(k+1)*m+2^k) :
    (lowBit v).toNat = 2^k := by
  have hpos : 0 < 2^k := Nat.two_pow_pos k
  rw [lowBit,UInt64.toNat_and,UInt64.toNat_xor,toNat_dec _ (by omega),h]
  exact isolate_bit

theorem odd_part_dvd {k m k' : ℕ} (h : 2^k' ∣ 2^(k+1)*m+2^k) : k' ≤ k := by
  by_contra hlt
  have hd : 2^(k+1) ∣ 2^(k+1)*m+2^k := (pow_dvd_pow 2 (by omega)).trans h
  have hk : 2^(k+1) ∣ 2^k := (Nat.dvd_add_right (Nat.dvd_mul_right _ _)).mp hd
  have hle := Nat.le_of_dvd (Nat.two_pow_pos k) hk
  omega

theorem lower_bit_fits {k : ℕ} (m j : ℕ) (h1 : 2^j ≤ 2^(k+1)*m) (h2 : 2^(k+1)*m < 2^(j+1)) :
    2^(k+1)*m+2^k < 2^(j+1) := by
  have hm : 0 < m := by
    rcases Nat.eq_zero_or_pos m with rfl | hm
    · omega
    · exact hm
  have hkj : k+1 ≤ j := by
    by_contra hlt
    have hle : 2^(j+1) ≤ 2^(k+1) := Nat.pow_le_pow_right (by omega) (by omega)
    have hmul : 2^(k+1)*1 ≤ 2^(k+1)*m := mul_le_mul_left _ hm
    omega
  obtain ⟨q,hq⟩ : 2^(k+1) ∣ 2^(j+1) := pow_dvd_pow 2 (by omega)
  rw [hq] at h2 ⊢
  have hlt : m < q := Nat.lt_of_mul_lt_mul_left h2
  have hmul : 2^(k+1)*(m+1) ≤ 2^(k+1)*q := mul_le_mul_left _ hlt
  rw [mul_add] at hmul
  omega

theorem highBitLoop_power (fuel k' : ℕ) (v : UInt64) (hv : 0 < v.toNat) (hd : 2^k' ∣ v.toNat)
    (hf : 64 < fuel+k') :
    ∃ n j, highBitLoop fuel v = some n ∧ n.toNat = 2^j ∧ 2^j ≤ v.toNat ∧ v.toNat < 2^(j+1) := by
  induction fuel generalizing v k' with
  | zero =>
    have hw := word_lt v
    have hle := le_of_dvd hv hd
    have hpow : 2^64 ≤ 2^k' := Nat.pow_le_pow_right (by omega) (by omega)
    omega
  | succ fuel ih =>
    obtain ⟨k,m,hk⟩ := odd_part hv
    have hlow := toNat_lowBit hk
    rw [highBitLoop]
    by_cases heq : lowBit v = v
    · have hvk : v.toNat = 2^k := by rw [← heq,hlow]
      exact ⟨v,k,if_pos heq,hvk,by omega⟩
    have hk' := odd_part_dvd (hk ▸ hd)
    have hrest : (v-lowBit v).toNat = 2^(k+1)*m := by
      rw [UInt64.toNat_sub_of_le _ _ (UInt64.le_iff_toNat_le.mpr (by omega))]
      omega
    have hm : 0 < 2^(k+1)*m := by
      rcases Nat.eq_zero_or_pos (2^(k+1)*m) with hz | hm
      · exact absurd (UInt64.toNat_inj.mp (by omega)) heq
      · exact hm
    obtain ⟨n,j,hn,hp,h1,h2⟩ := ih (k+1) (v-lowBit v) (by omega)
      (hrest ▸ dvd_mul_right _ _) (by omega)
    rw [hrest] at h1 h2
    exact ⟨n,j,by rw [if_neg heq,hn],hp,by omega,hk ▸ lower_bit_fits m j h1 h2⟩

theorem minP2_bound {v : UInt64} (h : v.toNat ≤ 2^63) :
    ∃ r, minP2 v = some r ∧ v.toNat ≤ r.toNat ∧ r.toNat ≤ 2^63 := by
  rcases Nat.eq_zero_or_pos v.toNat with hz | hpos
  · have hv : v = 0 := UInt64.toNat_inj.mp hz
    subst hv
    exact ⟨0,by decide,by decide⟩
  obtain ⟨n,j,hn,hp,h2⟩ := highBitLoop_power 65 0 v hpos (by simp) (by omega)
  rw [minP2,highBit,hn,Option.map_some]
  by_cases hlt : n < v
  · have hnv : n.toNat < v.toNat := UInt64.lt_iff_toNat_lt.mp hlt
    have hj : j < 63 := by
      by_contra hge
      have hpow : 2^63 ≤ 2^j := Nat.pow_le_pow_right (by omega) (by omega)
      omega
    have hle : 2^(j+1) ≤ 2^63 := Nat.pow_le_pow_right (by omega) (by omega)
    have hshift : (n <<< 1).toNat = 2^(j+1) := by
      rw [UInt64.toNat_shiftLeft,hp]
      simp only [UInt64.toNat_one,one_mod,shiftLeft_eq]
      rw [mod_eq_of_lt (by omega)]
      ring
    exact ⟨n <<< 1,by rw [if_pos hlt],by omega⟩
  · exact ⟨v,by rw [if_neg hlt],le_rfl,h⟩

end Sentio.BitSearch
