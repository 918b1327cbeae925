import SentioCore.WordArith

/-!
# The start block of a contract

The first block with code is searched between powers of two around the range,
so that searches over different ranges ask for the same blocks. Outside the
range the answer is known and the checker is not asked.
-/

namespace Sentio.ContractStart
open WordArith
open UInt64 (le_iff_toNat_le lt_iff_toNat_lt)

/-- The loop over the powers of two; a shift out of the word ends it. -/
def widen (start stop : UInt64) : ℕ → UInt64 → UInt64 → UInt64 × UInt64
  | 0, _, low => (low,stop)
  | fuel+1, p, low =>
    if 0 < p then
      let low := if p ≤ start then p else low
      if stop ≤ p then (low,p) else widen start stop fuel (p <<< 1) low
    else (low,stop)

section
variable {ε : Type} (checker : UInt64 → Except ε Bool) (start stop : UInt64)

/-- The answer, and the blocks that the checker was asked for. -/
def internalChecker (bn : UInt64) : Except ε Bool × List UInt64 :=
  if bn < start then (.ok false,[])
  else if stop ≤ bn then (.ok true,[])
  else (checker bn,[bn])

def narrow : ℕ → UInt64 → UInt64 → Option (Except ε (UInt64 × Bool) × List UInt64)
  | 0, _, _ => none
  | fuel+1, low, high =>
    if low < high then
      let mid := (low+high)/2
      match internalChecker checker start stop mid with
      | (.error err,calls) => some (.error err,calls)
      | (.ok true,calls) => (narrow fuel low mid).map fun r => (r.1,calls++r.2)
      | (.ok false,calls) => (narrow fuel (mid+1) high).map fun r => (r.1,calls++r.2)
    else some (.ok (low,true),[])

/-- Every round halves the range, so 65 rounds are enough. -/
def binarySearchContractStart : Option (Except ε (UInt64 × Bool) × List UInt64) :=
  match checker stop with
  | .error err => some (.error err,[stop])
  | .ok false => some (.ok (0,false),[stop])
  | .ok true =>
    let range := widen start stop 65 1 start
    (narrow checker start stop 65 range.1 range.2).map fun r => (r.1,stop::r.2)

end

variable {start stop low high : UInt64}

theorem widen_bounds {fuel k : ℕ} {p : UInt64} (hstop : stop.toNat ≤ 2^63)
    (hlow : low.toNat ≤ start.toNat) (hp : p.toNat = 2^k) (hk : k+fuel = 65) :
    (widen start stop fuel p low).1.toNat ≤ start.toNat ∧
      stop.toNat ≤ (widen start stop fuel p low).2.toNat ∧
      (widen start stop fuel p low).2.toNat ≤ 2^63 := by
  induction fuel generalizing k p low with
  | zero =>
    have hlt := p.toNat_lt
    rw [hp,show k = 65 by omega] at hlt
    omega
  | succ fuel ih =>
    have hk' : k < 64 := (Nat.pow_lt_pow_iff_right (by decide)).mp (hp ▸ p.toNat_lt)
    have hnext : (if p ≤ start then p else low).toNat ≤ start.toNat := by
      split
      · rwa [← le_iff_toNat_le]
      · exact hlow
    have hpos : 0 < p := by
      rw [lt_iff_toNat_lt,hp]
      exact Nat.two_pow_pos k
    rw [widen,if_pos hpos]
    dsimp only
    by_cases hs : stop ≤ p
    · rw [if_pos hs]
      rw [le_iff_toNat_le] at hs
      exact ⟨hnext,hs,by rw [hp]; exact Nat.pow_le_pow_right (by decide) (by omega)⟩
    rw [if_neg hs]
    have hlt : k+1 < 64 := by
      rw [le_iff_toNat_le,hp] at hs
      have := (Nat.pow_lt_pow_iff_right (a := 2) (by decide)).mp ((not_le.mp hs).trans_le hstop)
      omega
    apply ih hnext _ (show k+1+fuel = 65 by omega)
    rw [UInt64.toNat_shiftLeft,hp,UInt64.toNat_one,Nat.shiftLeft_eq,← pow_succ]
    exact Nat.mod_eq_of_lt (Nat.pow_lt_pow_right (by decide) hlt)

def Within (start stop n : UInt64) : Prop := start.toNat ≤ n.toNat ∧ n.toNat ≤ stop.toNat

/-- The checker answers in the range, and does not fall back. -/
structure Rising {ε : Type} (checker : UInt64 → Except ε Bool) (start stop : UInt64)
    (p : UInt64 → Bool) : Prop where
  answers : ∀ n, Within start stop n → checker n = .ok (p n)
  keeps : ∀ m n, Within start stop m → Within start stop n → m.toNat ≤ n.toNat → p m → p n

/-- The answers of the internal checker. -/
def found (start stop : UInt64) (p : UInt64 → Bool) (n : UInt64) : Bool :=
  start ≤ n && (stop ≤ n || p n)

theorem found_iff {p : UInt64 → Bool} {n : UInt64} : found start stop p n ↔
    start.toNat ≤ n.toNat ∧ (stop.toNat ≤ n.toNat ∨ p n) := by
  simp [found,le_iff_toNat_le]

section search
variable {ε : Type} {checker : UInt64 → Except ε Bool} {p : UInt64 → Bool}
  (h : Rising checker start stop p)
include h

theorem found_mono {m n : UInt64} (hmn : m.toNat ≤ n.toNat) (hm : found start stop p m) :
    found start stop p n := by
  rw [found_iff] at hm ⊢
  refine ⟨hm.1.trans hmn,?_⟩
  rcases le_total stop.toNat n.toNat with hn | hn
  · exact .inl hn
  · refine hm.2.imp (fun hs => hs.trans hmn) ?_
    exact h.keeps m n ⟨hm.1,hmn.trans hn⟩ ⟨hm.1.trans hmn,hn⟩ hmn

theorem internalChecker_eq (n : UInt64) : ∃ calls : List UInt64,
    internalChecker checker start stop n = (.ok (found start stop p n),calls) ∧
      ∀ m ∈ calls, Within start stop m := by
  simp only [internalChecker,found,lt_iff_toNat_lt,le_iff_toNat_le]
  by_cases hlow : n.toNat < start.toNat
  · exact ⟨[],by simp [hlow],nofun⟩
  by_cases hhigh : stop.toNat ≤ n.toNat
  · exact ⟨[],by simp [hlow,hhigh,not_lt.mp hlow],nofun⟩
  have hin : Within start stop n := ⟨by omega,by omega⟩
  exact ⟨[n],by simp [hlow,hhigh,hin.1,h.answers n hin],by simpa using hin⟩

theorem narrow_least {k : ℕ} (hhigh : high.toNat ≤ 2^63) (hle : low.toNat ≤ high.toNat)
    (hbelow : ∀ n, n.toNat < low.toNat → found start stop p n = false)
    (hat : found start stop p high) (hgap : high.toNat-low.toNat < 2^k) :
    ∃ r calls, narrow checker start stop (k+1) low high = some (.ok (r,true),calls) ∧
      found start stop p r ∧ (∀ n, n.toNat < r.toNat → found start stop p n = false) ∧
      ∀ m ∈ calls, Within start stop m := by
  induction k generalizing low high with
  | zero =>
    obtain rfl : low = high := UInt64.toNat_inj.mp (by omega)
    exact ⟨low,[],if_neg (by simp),hat,hbelow,nofun⟩
  | succ k ih =>
    rw [narrow]
    by_cases hlt : low.toNat < high.toNat
    swap
    · obtain rfl : low = high := UInt64.toNat_inj.mp (by omega)
      exact ⟨low,[],if_neg (by simp),hat,hbelow,nofun⟩
    have hmid : ((low+high)/2).toNat = (low.toNat+high.toNat)/2 := by
      rw [UInt64.toNat_div,UInt64.toNat_add,Nat.mod_eq_of_lt (by omega)]
      rfl
    have hinc : ((low+high)/2+1).toNat = ((low+high)/2).toNat+1 := toNat_inc _ (by omega)
    rw [pow_succ] at hgap
    obtain ⟨calls,hc,hcalls⟩ := internalChecker_eq h ((low+high)/2)
    rw [if_pos (lt_iff_toNat_lt.mpr hlt)]
    dsimp only
    rw [hc]
    cases hf : found start stop p ((low+high)/2) with
    | true =>
      obtain ⟨r,later,hr,h1,h2,h3⟩ := ih (by omega) (by omega) hbelow hf (by omega)
      exact ⟨r,calls++later,by simp [hr],h1,h2,List.forall_mem_append.mpr ⟨hcalls,h3⟩⟩
    | false =>
      have hnext : ∀ n, n.toNat < ((low+high)/2+1).toNat → found start stop p n = false := by
        intro n hn
        by_contra hc
        rw [Bool.not_eq_false] at hc
        rw [found_mono h (by omega) hc] at hf
        cases hf
      obtain ⟨r,later,hr,h1,h2,h3⟩ := ih hhigh (by omega) hnext hat (by omega)
      exact ⟨r,calls++later,by simp [hr],h1,h2,List.forall_mem_append.mpr ⟨hcalls,h3⟩⟩

end search

/-- The search ends with the least block of the range at which the checker holds, or without one
when it does not hold at the end, and asks for blocks of the range only. -/
theorem contract_start_is_least {ε : Type} (checker : UInt64 → Except ε Bool) (p : UInt64 → Bool)
    (start stop : UInt64) (hle : start.toNat ≤ stop.toNat) (hstop : stop.toNat ≤ 2^63)
    (h : Rising checker start stop p) :
    ∃ n has calls, binarySearchContractStart checker start stop = some (.ok (n,has),calls) ∧
      (has ↔ p stop) ∧
      (has → Within start stop n ∧ p n ∧
        ∀ m, Within start stop m → m.toNat < n.toNat → p m = false) ∧
      ∀ m ∈ calls, Within start stop m := by
  have hend : Within start stop stop := ⟨hle,le_rfl⟩
  unfold binarySearchContractStart
  rw [h.answers stop hend]
  cases hlast : p stop with
  | false => exact ⟨0,false,[stop],rfl,by simp,nofun,by simpa using hend⟩
  | true =>
    obtain ⟨hlow,hhigh,hbound⟩ := @widen_bounds start stop start 65 0 1 hstop le_rfl rfl rfl
    have hbelow : ∀ n, n.toNat < start.toNat → found start stop p n = false := by
      intro n hn
      rw [Bool.eq_false_iff,ne_eq,found_iff]
      omega
    have hat : found start stop p stop := found_iff.mpr ⟨hle,.inl le_rfl⟩
    obtain ⟨r,calls,hr,hfound,hleast,hcalls⟩ := narrow_least (k := 64) h hbound
      (hlow.trans (hle.trans hhigh)) (fun n hn => hbelow n (hn.trans_le hlow))
      (found_mono h hhigh hat) (by omega)
    have hmax : r.toNat ≤ stop.toNat := by
      by_contra hc
      rw [hleast stop (not_le.mp hc)] at hat
      cases hat
    rw [found_iff] at hfound
    refine ⟨r,true,stop::calls,by simp [hr],by simp,fun _ => ⟨⟨hfound.1,hmax⟩,?_,?_⟩,
      List.forall_mem_cons.mpr ⟨hend,hcalls⟩⟩
    · rcases hfound.2 with hs | hr
      · rwa [UInt64.toNat_inj.mp (hmax.antisymm hs)]
      · exact hr
    · intro m hm hlt
      have hno := (Bool.not_eq_true _).mpr (hleast m hlt)
      rw [found_iff] at hno
      simpa using fun hpm => hno ⟨hm.1,.inr hpm⟩

theorem contract_start_is_seven :
    Rising (fun n => (.ok (7 ≤ n) : Except Unit Bool)) 3 9 (fun n => 7 ≤ n) ∧
    ∃ n has calls, binarySearchContractStart (fun n => (.ok (7 ≤ n) : Except Unit Bool)) 3 9 =
      some (.ok (n,has),calls) ∧ (has ↔ decide (7 ≤ (9 : UInt64))) ∧
      (has → Within 3 9 n ∧ decide (7 ≤ n) ∧
        ∀ m, Within 3 9 m → m.toNat < n.toNat → decide (7 ≤ m) = false) ∧
      ∀ m ∈ calls, Within 3 9 m := by
  have h : Rising (fun n => (.ok (7 ≤ n) : Except Unit Bool)) 3 9 (fun n => 7 ≤ n) := by
    refine ⟨fun _ _ => rfl,fun m n _ _ hmn hm => ?_⟩
    rw [decide_eq_true_eq,le_iff_toNat_le] at hm ⊢
    exact hm.trans hmn
  exact ⟨h,contract_start_is_least _ _ 3 9 (by decide) (by decide) h⟩

end Sentio.ContractStart
