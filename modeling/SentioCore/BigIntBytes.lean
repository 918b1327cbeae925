import Mathlib.Data.Nat.Size
import SentioCore.ByteCodec

/-!
# Integers exchanged with the wasm module

An integer is handed over as bytes in two's complement, the lowest byte first. A
negative number is complemented byte by byte, with one added from the lowest byte
on as long as there is a carry. The sign bytes that the last byte but one repeats
are cut off.
-/

namespace Sentio.BigIntBytes
open ByteCodec List Int Nat

def increment : List Byte → List Byte
  | [] => []
  | b::rest => if b = 255 then 0::increment rest else (b+1)::rest

def calcComplement (x : List Byte) : List Byte := increment (x.map (~~~ ·))

/-- The loop over the bytes from the last one on. -/
def trimSign (sign : Byte) (repeats : Byte → Bool) : List Byte → List Byte
  | last::b::rest =>
    if last = sign && repeats b then trimSign sign repeats (b::rest) else last::b::rest
  | x => x

def trimBytes (x : List Byte) : List Byte :=
  if x.getLast?.any (127 < ·) then (trimSign 255 (127 < ·) x.reverse).reverse
  else (trimSign 0 (· ≤ 127) x.reverse).reverse

/-- `Bytes` of the library gives the absolute value, the highest byte first. -/
def bytes (x : ℤ) : List Byte := (littleEndian ((x.natAbs.size+7)/8) x.natAbs).reverse

def setBytes (b : List Byte) : ℤ := ofLittleEndian b.reverse

def toBytes (x : ℤ) : List Byte :=
  if x.sign = -1 then trimBytes (calcComplement ((bytes x).reverse++[0]))
  else if x.sign = 1 then trimBytes ((bytes x).reverse++[0])
  else []

def fromBytes (b : List Byte) : ℤ :=
  let buf := trimBytes b
  if b.getLast?.any (127 < ·) then -setBytes (calcComplement buf).reverse
  else setBytes buf.reverse

/-- The value of the bytes in two's complement. -/
def signed (b : List Byte) : ℤ := bmod (ofLittleEndian b) (256^b.length)

/-- The value of a byte in two's complement. -/
def top (c : Byte) : ℤ := if 127 < c then c.toNat-256 else c.toNat

variable {x y : List Byte} {b c : Byte}

theorem value_append : ofLittleEndian (x++y) = ofLittleEndian x+256^x.length*ofLittleEndian y := by
  induction x with
  | nil => simp [ofLittleEndian]
  | cons b x ih =>
    rw [cons_append,ofLittleEndian,ofLittleEndian,ih,length_cons]
    ring

theorem value_lt (x : List Byte) : ofLittleEndian x < 256^x.length := by
  induction x with
  | nil => decide
  | cons b x ih =>
    have := b.toNat_lt
    rw [ofLittleEndian,length_cons]
    omega

theorem value_not : ofLittleEndian (x.map (~~~ ·))+ofLittleEndian x+1 = 256^x.length := by
  induction x with
  | nil => rfl
  | cons b x ih =>
    have := b.toNat_lt
    rw [map_cons,ofLittleEndian,ofLittleEndian,length_cons,UInt8.toNat_not]
    simp only [UInt8.size]
    omega

theorem increment_length : (increment x).length = x.length := by
  induction x with
  | nil => rfl
  | cons b x ih =>
    rw [increment]
    split <;> simp [ih]

theorem value_increment : ofLittleEndian (increment x) = (ofLittleEndian x+1)%256^x.length := by
  induction x with
  | nil => rfl
  | cons b x ih =>
    rw [increment,length_cons,pow_succ']
    split
    · rename_i hb
      have hcarry : (255 : Byte).toNat+256*ofLittleEndian x+1 = 256*(ofLittleEndian x+1) := by
        rw [show (255 : Byte).toNat = 255 from rfl]
        ring
      rw [hb,ofLittleEndian,ofLittleEndian,hcarry,mul_mod_mul_left,ih]
      simp
    · rename_i hb
      have hlt := value_lt x
      have hbyte := b.toNat_lt
      have hne : b.toNat ≠ 255 := fun h => hb (UInt8.toNat_inj.mp h)
      have hsum : (b+1).toNat = b.toNat+1 := by
        rw [UInt8.toNat_add,UInt8.toNat_one]
        omega
      rw [ofLittleEndian,ofLittleEndian,mod_eq_of_lt (by omega)]
      omega

theorem value_complement : ofLittleEndian (calcComplement x) =
    (256^x.length-ofLittleEndian x)%256^x.length := by
  have := value_not (x := x)
  rw [calcComplement,value_increment,length_map]
  congr 1
  omega

theorem signed_complement :
    signed (calcComplement x) = bmod (-ofLittleEndian x) (256^x.length) := by
  have hlt := value_lt x
  rw [signed,value_complement,calcComplement,increment_length,length_map,natCast_emod,
    emod_bmod,cast_sub hlt.le,sub_eq_add_neg,add_comm,add_bmod_right]

theorem top_cases (c : Byte) : c.toNat < 256 ∧
    (127 < c.toNat ∧ top c = c.toNat-256 ∨ c.toNat ≤ 127 ∧ top c = c.toNat) := by
  refine ⟨c.toNat_lt,?_⟩
  unfold top
  split
  · rename_i h
    exact .inl ⟨UInt8.lt_iff_toNat_lt.mp h,rfl⟩
  · rename_i h
    exact .inr ⟨Nat.le_of_not_lt fun hlt => h (UInt8.lt_iff_toNat_lt.mpr hlt),rfl⟩

theorem signed_cases (x : List Byte) : 0 ≤ signed x ∧ signed x = ofLittleEndian x ∨
    signed x < 0 ∧ 0 < ofLittleEndian x ∧ signed x = ofLittleEndian x-(256^x.length : ℕ) := by
  have hlt := value_lt x
  rw [signed,bmod_def,← natCast_emod,mod_eq_of_lt hlt]
  split <;> omega

theorem signed_concat : signed (x++[c]) = ofLittleEndian x+(256^x.length : ℕ)*top c := by
  have hlt := value_lt x
  rw [signed,value_append,length_append,length_singleton,pow_succ]
  generalize 256^x.length = p at *
  simp only [ofLittleEndian,mul_zero,add_zero]
  obtain ⟨hbyte,⟨hc,htop⟩ | ⟨hc,htop⟩⟩ := top_cases c
  · have hlow : p*128 ≤ p*c.toNat := mul_le_mul_left _ hc
    have hhigh : p*c.toNat ≤ p*255 := mul_le_mul_left _ (by omega)
    rw [bmod_def,← natCast_emod,mod_eq_of_lt (by omega),if_neg (by push_cast; omega),
      htop]
    push_cast
    ring
  · have hhigh : p*c.toNat ≤ p*127 := mul_le_mul_left _ hc
    rw [bmod_eq_of_le (by omega) (by push_cast; omega),htop]
    rfl

theorem negative_iff : x.getLast?.any (127 < ·) ↔ signed x < 0 := by
  rcases eq_nil_or_concat x with rfl | ⟨y,c,rfl⟩
  · decide
  have hv := value_lt y
  rw [concat_eq_append,getLast?_concat,Option.any_some,decide_eq_true_eq,UInt8.lt_iff_toNat_lt,
    signed_concat]
  generalize 256^y.length = p at *
  obtain ⟨hbyte,⟨hc,htop⟩ | ⟨hc,htop⟩⟩ := top_cases c
  · exact iff_of_true hc (by nlinarith)
  · refine iff_of_false (by simpa using hc) ?_
    rw [htop,not_lt]
    positivity

theorem signed_pair : signed (x++[b]++[c]) =
    ofLittleEndian x+(256^x.length : ℕ)*(b.toNat+256*top c) := by
  rw [signed_concat,value_append,length_append]
  simp [ofLittleEndian]
  ring

/-- A last byte of the sign repeats what the byte before it says. -/
def Extends (sign : Byte) (repeats : Byte → Bool) : Prop :=
  repeats sign ∧ ∀ b c, repeats c → (b.toNat+256*top c = top b ↔ c = sign ∧ repeats b)

theorem extends_negative : Extends 255 (127 < ·) := by
  refine ⟨rfl,fun b c => ?_⟩
  have hb := top_cases b
  have hc := top_cases c
  simp only [decide_eq_true_eq,UInt8.lt_iff_toNat_lt,← UInt8.toNat_inj,UInt8.reduceToNat]
  omega

theorem extends_positive : Extends 0 (· ≤ 127) := by
  refine ⟨rfl,fun b c => ?_⟩
  have hb := top_cases b
  have hc := top_cases c
  simp only [decide_eq_true_eq,UInt8.le_iff_toNat_le,← UInt8.toNat_inj,UInt8.reduceToNat]
  omega

section trim
variable {sign last : Byte} {repeats : Byte → Bool} {rest : List Byte} (h : Extends sign repeats)
include h

theorem trimSign_signed :
    ∀ r, signed (trimSign sign repeats r).reverse = signed r.reverse
  | [] | [_] => rfl
  | last::b::rest => by
    rw [trimSign]
    split
    · rename_i hc
      rw [Bool.and_eq_true,decide_eq_true_eq] at hc
      rw [hc.1,trimSign_signed]
      rw [reverse_cons,reverse_cons,reverse_cons,signed_pair,signed_concat,
        (h.2 b sign h.1).mpr ⟨rfl,hc.2⟩]
    · rfl

theorem trimSign_sharp : ∀ {r : List Byte} {last : Byte}, repeats last →
    trimSign sign repeats (last::r) = c::b::rest → b.toNat+256*top c ≠ top b
  | [],_,_,he => nomatch he
  | b'::r,last,hl,he => by
    rw [trimSign] at he
    split at he
    · rename_i hc
      rw [Bool.and_eq_true] at hc
      exact trimSign_sharp hc.2 he
    · rename_i hc
      injection he with h1 h2
      injection h2 with h2
      subst h1 h2
      rw [ne_eq,h.2 _ _ hl]
      simpa using hc

end trim

theorem trimBytes_cases : ∃ sign repeats, Extends sign repeats ∧
    (∀ last r, x.reverse = last::r → repeats last) ∧
    trimBytes x = (trimSign sign repeats x.reverse).reverse := by
  rw [trimBytes,getLast?_eq_head?_reverse]
  split
  · rename_i h
    exact ⟨_,_,extends_negative,fun last r hr => by simpa [hr] using h,rfl⟩
  · rename_i h
    exact ⟨_,_,extends_positive,fun last r hr => by simpa [hr] using h,rfl⟩

theorem trimBytes_signed (x : List Byte) : signed (trimBytes x) = signed x := by
  obtain ⟨sign,repeats,h,-,heq⟩ := trimBytes_cases
  rw [heq,trimSign_signed h,reverse_reverse]

theorem trimBytes_sharp {rest : List Byte} (h : (trimBytes x).reverse = c::b::rest) :
    b.toNat+256*top c ≠ top b := by
  obtain ⟨sign,repeats,hx,hl,heq⟩ := trimBytes_cases
  rw [heq,reverse_reverse] at h
  rcases hr : x.reverse with _ | ⟨last,r⟩
  · rw [hr] at h
    cases h
  · rw [hr] at h
    exact trimSign_sharp hx (hl last r hr) h

theorem signed_range {k : ℕ} (h : x.length ≤ k+1) :
    -128*(256^k : ℕ) ≤ signed x ∧ signed x < 128*(256^k : ℕ) := by
  have hpow : 256^x.length ≤ 256^(k+1) := Nat.pow_le_pow_right (by decide) h
  have hpos : 0 < 256^x.length := by positivity
  have hlow := le_bmod (x := (ofLittleEndian x : ℤ)) hpos
  have hhigh := bmod_lt (x := (ofLittleEndian x : ℤ)) hpos
  rw [← signed] at hlow hhigh
  omega

/-- Fewer bytes than the trimmed ones hold smaller numbers. -/
theorem trimBytes_shortest (h : signed y = signed x) (hx : signed x ≠ 0) :
    (trimBytes x).length ≤ y.length := by
  by_contra hlt
  rw [← length_reverse] at hlt
  rcases hr : (trimBytes x).reverse with _ | ⟨c,_ | ⟨b,rest⟩⟩
  · simp [hr] at hlt
  · have : y = [] := by simpa [hr] using hlt
    rw [this] at h
    exact hx h.symm
  rw [hr,length_cons,length_cons] at hlt
  have hrange := signed_range (x := y) (k := rest.reverse.length) (by rw [length_reverse]; omega)
  have hbytes : trimBytes x = rest.reverse++[b]++[c] := by
    rw [← reverse_reverse (trimBytes x),hr]
    simp
  have hv := value_lt rest.reverse
  rw [h,← trimBytes_signed,hbytes,signed_pair] at hrange
  generalize 256^rest.reverse.length = p at *
  have hlow : -129 < b.toNat+256*top c := by
    nlinarith
  have hhigh : b.toNat+256*top c < 128 := by
    nlinarith
  have hb := top_cases b
  exact trimBytes_sharp hr (by omega)

theorem value_bytes (z : ℤ) : ofLittleEndian (bytes z).reverse = z.natAbs := by
  rw [bytes,reverse_reverse,ofLittleEndian_littleEndian,show 256 = 2^8 from rfl,← pow_mul]
  apply Nat.mod_eq_of_lt
  exact z.natAbs.lt_size_self.trans_le (Nat.pow_le_pow_right (by decide) (by omega))

/-- The bytes before they are trimmed hold the number. -/
theorem toBytes_cases (z : ℤ) : (z = 0 ∧ toBytes z = []) ∨
    z ≠ 0 ∧ ∃ x, toBytes z = trimBytes x ∧ signed x = z := by
  have hv := value_lt (bytes z).reverse
  have hvalue : ofLittleEndian ((bytes z).reverse++[0]) = z.natAbs := by
    rw [value_append,value_bytes]
    simp [ofLittleEndian]
  have hpow : 256^((bytes z).reverse++[0]).length = 256^(bytes z).reverse.length*256 := by
    rw [length_append,length_singleton,pow_succ]
  rw [value_bytes] at hv
  rcases lt_trichotomy z 0 with hz | hz | hz
  · refine .inr ⟨hz.ne,_,if_pos (sign_eq_neg_one_of_neg hz),?_⟩
    rw [signed_complement,bmod_eq_of_le (by omega) (by omega)]
    omega
  · subst hz
    exact .inl ⟨rfl,rfl⟩
  · have hsign := sign_eq_one_of_pos hz
    refine .inr ⟨hz.ne',_,(if_neg (by simp [hsign])).trans (if_pos hsign),?_⟩
    rw [signed,bmod_eq_of_le (by omega) (by omega)]
    omega

theorem fromBytes_eq (b : List Byte) : fromBytes b = signed b := by
  have hcases := signed_cases (trimBytes b)
  rw [trimBytes_signed] at hcases
  simp only [fromBytes,setBytes,reverse_reverse,value_complement]
  split
  · rename_i h
    rw [negative_iff] at h
    rw [mod_eq_of_lt (by omega)]
    omega
  · rename_i h
    rw [negative_iff] at h
    omega

/-- The bytes of an integer are the shortest ones that hold it, and every string of bytes is read
as the number it holds. -/
theorem bytes_are_twos_complement (z : ℤ) (b : List Byte) :
    signed (toBytes z) = z ∧ (∀ other, signed other = z → (toBytes z).length ≤ other.length) ∧
      fromBytes (toBytes z) = z ∧ fromBytes b = signed b := by
  have hsigned : signed (toBytes z) = z := by
    obtain ⟨rfl,h⟩ | ⟨-,x,h,hx⟩ := toBytes_cases z
    · rfl
    · rw [h,trimBytes_signed,hx]
  refine ⟨hsigned,fun other ho => ?_,by rw [fromBytes_eq,hsigned],fromBytes_eq b⟩
  obtain ⟨rfl,h⟩ | ⟨hne,x,h,hx⟩ := toBytes_cases z
  · simp [h]
  · rw [h]
    exact trimBytes_shortest (ho.trans hx.symm) (hx ▸ hne)

end Sentio.BigIntBytes
