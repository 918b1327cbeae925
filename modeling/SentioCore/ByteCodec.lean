import Mathlib.Tactic

/-!
# Numbers as bytes

A reader holds the bytes that are left. Reading at the end of the input fails
even when nothing is asked for. Fixed-width numbers are written with the lowest
byte first, lengths and indices in groups of seven bits.
-/

namespace Sentio.ByteCodec

abbrev Byte : Type := UInt8

def read (n : ℕ) (input : List Byte) : Option (List Byte × List Byte) :=
  if input.isEmpty then none else some (input.take n,input.drop n)

def readByte (input : List Byte) : Option (Byte × List Byte) :=
  match input with
  | [] => none
  | b::rest => some (b,rest)

def littleEndian : ℕ → ℕ → List Byte
  | 0, _ => []
  | k+1, n => UInt8.ofNat n::littleEndian k (n/256)

def ofLittleEndian : List Byte → ℕ
  | [] => 0
  | b::rest => b.toNat+256*ofLittleEndian rest

/-- Numbers below `2^63` need at most nine groups of seven bits. -/
def sevenBits : ℕ → ℕ → List Byte
  | 0, _ => []
  | k+1, n => if n < 128 then [UInt8.ofNat n] else UInt8.ofNat (n%128+128)::sevenBits k (n/128)

def uleb128Encode (n : ℕ) : List Byte := sevenBits 10 n

def maxInt : ℕ := 9223372036854775808

/-- At most ten bytes are read, and a number that is no `int` is refused. -/
def fromSevenBits : ℕ → ℕ → ℕ → List Byte → Option (ℕ × List Byte)
  | 0, _, _, _ | _+1, _, _, [] => none
  | k+1, shift, v, b::rest =>
    let next := v+b.toNat%128*2^shift
    if maxInt ≤ next then none
    else if b.toNat < 128 then some (next,rest)
    else fromSevenBits k (shift+7) next rest

def uleb128Decode (input : List Byte) : Option (ℕ × List Byte) := fromSevenBits 10 0 0 input

/-- A computation that succeeds has succeeded in its first part. -/
theorem bind_ok {ε α β : Type} {x : Except ε α} {f : α → Except ε β} {b : β}
    (h : (x >>= f) = .ok b) : ∃ a, x = .ok a ∧ f a = .ok b := by
  cases x with
  | error e => cases h
  | ok a => exact ⟨a,rfl,h⟩

theorem littleEndian_length {k n : ℕ} : (littleEndian k n).length = k := by
  induction k generalizing n with
  | zero => rfl
  | succ k ih => simp [littleEndian,ih]

theorem ofLittleEndian_littleEndian (k n : ℕ) : ofLittleEndian (littleEndian k n) = n%256^k := by
  induction k generalizing n with
  | zero => simp [littleEndian,ofLittleEndian,Nat.mod_one]
  | succ k ih =>
    have hb : (UInt8.ofNat n).toNat = n%256 := UInt8.toNat_ofNat'
    have hp : n%256^(k+1) = n%256+256*(n/256%256^k) := by rw [pow_succ',Nat.mod_mul]
    rw [littleEndian,ofLittleEndian,ih,hb,hp]

theorem read_append {front rest : List Byte} (h : front ≠ [] ∨ rest ≠ []) :
    read front.length (front++rest) = some (front,rest) := by
  have hne : (front++rest).isEmpty = false := by
    rcases h with h | h <;> cases front <;> cases rest <;> simp_all
  simp [read,hne]

theorem byte_small (n : ℕ) (h : n < 256) : (UInt8.ofNat n).toNat = n := by
  rw [UInt8.toNat_ofNat']
  omega

theorem fromSevenBits_last {j n shift v : ℕ} (rest : List Byte) (hn : n < 128)
    (hv : v+n*2^shift < maxInt) :
    fromSevenBits (j+1) shift v (UInt8.ofNat n::rest) = some (v+n*2^shift,rest) := by
  have hb := byte_small n (by omega)
  have hm : n%128 = n := Nat.mod_eq_of_lt hn
  rw [fromSevenBits]
  rw [hb,hm,if_neg (by omega),if_pos hn]

theorem fromSevenBits_append {k : ℕ} (j n shift v : ℕ) (rest : List Byte) (hn : n < 128^(k+1))
    (hjk : k ≤ j) (hv : v+n*2^shift < maxInt) :
    fromSevenBits (j+1) shift v (sevenBits (k+1) n++rest) = some (v+n*2^shift,rest) := by
  induction k generalizing j n shift v with
  | zero =>
    have hlt : n < 128 := by simpa using hn
    rw [sevenBits,if_pos hlt]
    exact fromSevenBits_last rest hlt hv
  | succ k ih =>
    rw [sevenBits]
    by_cases hlt : n < 128
    · rw [if_pos hlt]
      exact fromSevenBits_last rest hlt hv
    rw [if_neg hlt]
    obtain ⟨i,rfl⟩ : ∃ i, j = i+1 := ⟨j-1,by omega⟩
    have hb := byte_small (n%128+128) (by omega)
    have hm : (n%128+128)%128 = n%128 := by omega
    have hdiv : n/128 < 128^(k+1) := by
      rw [Nat.div_lt_iff_lt_mul (by omega)]
      rwa [pow_succ] at hn
    have hsum : v+n%128*2^shift+n/128*2^(shift+7) = v+n*2^shift := by
      have hsplit : n = n%128+128*(n/128) := (Nat.mod_add_div n 128).symm
      calc v+n%128*2^shift+n/128*2^(shift+7)
          = v+(n%128+128*(n/128))*2^shift := by ring
        _ = v+n*2^shift := by rw [← hsplit]
    rw [List.cons_append,fromSevenBits]
    rw [hb,hm,if_neg (by omega),if_neg (by omega),ih i (n/128) (shift+7) _ hdiv (by omega)
      (by rw [hsum]; exact hv),hsum]

theorem uleb128_round_trip {n : ℕ} (rest : List Byte) (h : n < maxInt) :
    uleb128Decode (uleb128Encode n++rest) = some (n,rest) := by
  have hn : n < 128^(9+1) := by
    have : maxInt < 128^(9+1) := by decide
    omega
  have hdec := fromSevenBits_append 9 n 0 0 rest hn le_rfl (by simpa using h)
  simpa [uleb128Decode,uleb128Encode] using hdec

end Sentio.ByteCodec
