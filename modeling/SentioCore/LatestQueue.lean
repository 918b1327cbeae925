import SentioCore.ClientPoolModel
import SentioCore.WordArith
import Mathlib.Data.List.DropRight

/-!
# The queue of latest blocks

The status of a pool keeps the blocks it was built with in a queue. A new block
takes away the entries at the back that do not lie before it, and then those at
the front that are older than the window, as long as more than two are left.
-/

namespace Sentio.LatestQueue
open ClientPoolModel WordArith List

/-- The difference of two times is a `Duration` and saturates. -/
def sub (t u : ℤ) : ℤ := max (-maxDuration-1) (min (t-u) maxDuration)

def popBack (latest : Block) (q : List Block) : List Block :=
  q.rdropWhile (fun b => !(b.number < latest.number && b.timestamp ≤ latest.timestamp))

def trimFront (latest : Block) (dur : ℤ) : List Block → List Block
  | a::b::c::rest =>
    if sub latest.timestamp a.timestamp ≤ dur then a::b::c::rest
    else trimFront latest dur (b::c::rest)
  | q => q

def interval (fr latest : Block) (dur : ℤ) : ℤ :=
  if fr.number < latest.number && fr.timestamp < latest.timestamp then
    min ((sub latest.timestamp fr.timestamp).tdiv (latest.number-fr.number).toInt64.toInt) dur
  else 0

def pushLatestQueue (q : List Block) (latest : Block) (dur : ℤ) : List Block × ℤ :=
  let q := trimFront latest dur (popBack latest q++[latest])
  (q,interval (q.headD latest) latest dur)

/-- The queue after blocks were pushed, each with the window of its time. -/
def pushed (pushes : List (Block × ℤ)) : List Block :=
  pushes.foldl (fun q p => (pushLatestQueue q p.1 p.2).1) []

def Before (a b : Block) : Prop := a.number < b.number ∧ a.timestamp ≤ b.timestamp

variable {latest : Block} {dur : ℤ} {q : List Block}

theorem popBack_before (h : q.Pairwise Before) : ∀ b ∈ popBack latest q, Before b latest := by
  have hp : (popBack latest q).Pairwise Before := h.sublist ( rdropWhile_prefix _ q).sublist
  intro b hb
  have hne : popBack latest q ≠ [] := ne_nil_of_mem hb
  have hlast : Before ((popBack latest q).getLast hne) latest := by
    have := rdropWhile_last_not _ q hne
    rwa [Bool.not_eq_true',Bool.not_eq_false,Bool.and_eq_true,decide_eq_true_eq,
      decide_eq_true_eq] at this
  rw [← dropLast_append_getLast hne,pairwise_append] at hp
  rw [← dropLast_append_getLast hne,mem_append,mem_singleton] at hb
  rcases hb with hb | rfl
  · have := hp.2.2 b hb _ (mem_singleton_self _)
    exact ⟨UInt64.lt_trans this.1 hlast.1,this.2.trans hlast.2⟩
  · exact hlast

theorem popBack_pairwise (h : q.Pairwise Before) :
    (popBack latest q++[latest]).Pairwise Before := by
  rw [pairwise_append]
  refine ⟨h.sublist ( rdropWhile_prefix _ q).sublist,pairwise_singleton _ _,?_⟩
  intro a ha b hb
  rw [mem_singleton.mp hb]
  exact popBack_before h a ha

theorem trimFront_suffix : trimFront latest dur q <:+ q := by
  fun_induction trimFront latest dur q with
  | case1 a b c rest h => exact suffix_rfl
  | case2 a b c rest h ih => exact ih.trans (suffix_cons a _)
  | case3 q h => exact suffix_rfl

theorem trimFront_getLast : (trimFront latest dur q).getLast? = q.getLast? := by
  fun_induction trimFront latest dur q with
  | case1 a b c rest h => rfl
  | case2 a b c rest h ih => rw [ih,← getLast?_cons_cons]
  | case3 q h => rfl

theorem trimFront_front (hl : 2 < (trimFront latest dur q).length) :
    ∀ a ∈ (trimFront latest dur q).head?, sub latest.timestamp a.timestamp ≤ dur := by
  fun_induction trimFront latest dur q with
  | case1 a b c rest h =>
    intro x hx
    cases hx
    exact h
  | case2 a b c rest h ih => exact ih hl
  | case3 q h =>
    match q, hl with
    | a::b::c::rest, _ => exact absurd rfl (h a b c rest)

theorem sub_mono {a b : Block} (h : a.timestamp ≤ b.timestamp) :
    sub latest.timestamp b.timestamp ≤ sub latest.timestamp a.timestamp := by
  unfold sub
  omega

theorem push_pairwise (h : q.Pairwise Before) : (pushLatestQueue q latest dur).1.Pairwise Before :=
  (popBack_pairwise h).sublist trimFront_suffix.sublist

theorem pushed_pairwise (pushes : List (Block × ℤ)) : (pushed pushes).Pairwise Before := by
  unfold pushed
  induction pushes using List.reverseRecOn with
  | nil => exact List.Pairwise.nil
  | append_singleton rest p ih =>
    rw [foldl_append]
    exact push_pairwise ih

theorem push_back : (pushLatestQueue q latest dur).1.getLast? = some latest := by
  rw [pushLatestQueue,trimFront_getLast,getLast?_concat]

/-- Entries are not older than the front. -/
theorem push_window (h : q.Pairwise Before) (hl : 2 < (pushLatestQueue q latest dur).1.length) :
    ∀ b ∈ (pushLatestQueue q latest dur).1, sub latest.timestamp b.timestamp ≤ dur := by
  have hp : (pushLatestQueue q latest dur).1.Pairwise Before := push_pairwise h
  have hfront := trimFront_front hl
  change ∀ a ∈ (pushLatestQueue q latest dur).1.head?, _ at hfront
  rcases hq : (pushLatestQueue q latest dur).1 with _ | ⟨a,rest⟩
  · simp
  rw [hq] at hp hfront
  intro b hb
  rcases mem_cons.mp hb with rfl | hb
  · exact hfront b rfl
  · exact (sub_mono (rel_of_pairwise_cons hp hb).2).trans (hfront a rfl)

/-- The conversion of a difference of numbers does not make it greater. -/
theorem toInt64_natAbs (n : UInt64) (h : 0 < n.toNat) :
    n.toInt64.toInt ≠ 0 ∧ n.toInt64.toInt.natAbs ≤ n.toNat ∧
      (2^63 ≤ n.toInt64.toInt.natAbs → n.toNat = 2^63) := by
  have := word_lt n
  have hi : n.toInt64.toInt = (n.toNat : ℤ).bmod (2^64) := BitVec.toInt_eq_toNat_bmod n.toBitVec
  rw [hi,Int.bmod]
  split <;> omega

/-- A quotient of zero is that of the exact times, unless the difference of the times saturates:
the difference of the numbers is then the one that becomes the least signed word. -/
theorem interval_zero {fr : Block} (h : interval fr latest dur = 0) (hpos : 0 < dur)
    (hb : fr.number < latest.number) (ht : fr.timestamp < latest.timestamp) :
    (latest.timestamp-fr.timestamp)/(latest.number.toNat-fr.number.toNat) = 0 ∨
      latest.number.toNat-fr.number.toNat = 2^63 ∧
        maxDuration < latest.timestamp-fr.timestamp := by
  have hn := UInt64.lt_iff_toNat_lt.mp hb
  have hd : (latest.number-fr.number).toNat = latest.number.toNat-fr.number.toNat :=
    UInt64.toNat_sub_of_le _ _ (UInt64.le_of_lt hb)
  obtain ⟨hne,hle,htop⟩ := toInt64_natAbs (latest.number-fr.number) (by omega)
  have hsub : sub latest.timestamp fr.timestamp =
      min (latest.timestamp-fr.timestamp) maxDuration := by
    simp only [sub,maxDuration]
    omega
  simp only [interval,hb,ht,decide_true,Bool.and_self,if_true] at h
  have hq : (sub latest.timestamp fr.timestamp).tdiv
      (latest.number-fr.number).toInt64.toInt = 0 := by omega
  have hlt := Int.natAbs_tdiv (sub latest.timestamp fr.timestamp)
    (latest.number-fr.number).toInt64.toInt
  rw [hq] at hlt
  have hzero := Nat.div_eq_zero_iff.mp hlt.symm
  rw [hsub] at hzero
  simp only [maxDuration] at hzero ⊢
  by_cases hsat : latest.timestamp-fr.timestamp ≤ 9223372036854775807
  · exact .inl (Int.ediv_eq_zero_of_lt (by omega) (by omega))
  · exact .inr ⟨by omega,by omega⟩

/-- After every push the queue is ordered, ends with the pushed block and spans at most the
window, and so does its interval, which is zero only in four cases. -/
theorem latest_queue_ordered (pushes : List (Block × ℤ)) (latest : Block) (dur : ℤ)
    (hpos : 0 < dur) (hdur : dur ≤ maxDuration) :
    let r := pushLatestQueue (pushed pushes) latest dur
    r.1.Pairwise (fun a b => a.number < b.number ∧ a.timestamp ≤ b.timestamp) ∧
      r.1.getLast? = some latest ∧
      (2 < r.1.length → ∀ b ∈ r.1, latest.timestamp-b.timestamp ≤ dur ∨ dur = maxDuration) ∧
      r.2 ≤ dur ∧
      (r.2 = 0 → ∃ fr ∈ r.1.head?, r.1.length = 1 ∨ fr.timestamp = latest.timestamp ∨
        (latest.timestamp-fr.timestamp)/(latest.number.toNat-fr.number.toNat) = 0 ∨
        latest.number.toNat-fr.number.toNat = 2^63 ∧
          maxDuration < latest.timestamp-fr.timestamp) := by
  intro r
  have hq := pushed_pairwise pushes
  have hp : r.1.Pairwise Before := push_pairwise hq
  have hback : r.1.getLast? = some latest := push_back
  refine ⟨hp,hback,?_,?_,?_⟩
  · intro hl b hb
    have := push_window hq hl b hb
    simp only [sub,maxDuration] at this hdur ⊢
    omega
  · change interval _ latest dur ≤ _
    unfold interval
    split <;> omega
  intro hzero
  rcases hr : r.1 with _ | ⟨fr,rest⟩
  · simp [hr] at hback
  refine ⟨fr,rfl,?_⟩
  rcases rest with _ | ⟨b,rest⟩
  · exact .inl rfl
  right
  have hlast : latest ∈ b::rest := by
    rw [hr] at hback
    exact mem_of_getLast? hback
  rw [hr] at hp
  have hbefore := rel_of_pairwise_cons hp hlast
  by_cases ht : fr.timestamp = latest.timestamp
  · exact .inl ht
  change interval (r.1.headD latest) latest dur = 0 at hzero
  rw [hr] at hzero
  exact .inr (interval_zero hzero hpos hbefore.1 (lt_of_le_of_ne hbefore.2 ht))

/-- A reorg takes the second block away and the window the first one; the interval of the two that
are left is cut to the window. -/
theorem latest_queue_after_reorg :
    let r := pushLatestQueue (pushed [(⟨1, "a",0⟩,2),(⟨3, "b",4⟩,2),(⟨2, "c",1⟩,2)]) ⟨4, "d",9⟩ 2
    r = ([⟨2, "c",1⟩,⟨4, "d",9⟩],2) ∧ r.1.getLast? = some ⟨4, "d",9⟩ :=
  ⟨by decide,(latest_queue_ordered _ ⟨4, "d",9⟩ 2 (by decide) (by decide)).2.1⟩

/-- Times so far apart that their difference saturates: over `2^63` blocks the interval of a
minute's window is zero although two nanoseconds pass for each block, and with the greatest window
a block outside of it stays. -/
theorem latest_queue_saturates :
    pushLatestQueue (pushed [(⟨0, "a",0⟩,minute)]) ⟨9223372036854775808, "b",2^64⟩ minute =
        ([⟨0, "a",0⟩,⟨9223372036854775808, "b",2^64⟩],0) ∧
      ((2:ℤ)^64-0)/(9223372036854775808-0) = 2 ∧
      pushLatestQueue (pushed [(⟨0, "a",0⟩,maxDuration),(⟨1, "b",0⟩,maxDuration)])
          ⟨2, "c",2^63⟩ maxDuration =
        ([⟨0, "a",0⟩,⟨1, "b",0⟩,⟨2, "c",2^63⟩],4611686018427387903) ∧
      maxDuration < 2^63-0 := by
  decide

end Sentio.LatestQueue
