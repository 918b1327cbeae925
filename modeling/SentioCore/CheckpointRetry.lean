import SentioCore.CheckpointSafety
import SentioCore.WordArith

/-!
# The retries of a save

When the store finds the checkpoints too big, a save doubles its multiplier and
thins the list again. A multiplier of at least `2^63` leaves the two ends of the
list only, and it is reached before a doubling overflows.
-/

namespace Sentio.CheckpointRetry
open CheckpointModel CheckpointSafety SparsifyModel WordArith List Nat

def keptBy (c : Controller) (cc : ℕ) : List Checkpoint :=
  (thinned c cc).checkpoints.take (thinned c cc).savedCheckpoints

def doubled (c : Controller) : Controller :=
  {c with sparsifyMultiplier := max c.sparsifyMultiplier 2*2}

/-- The answers to the calls of one save. The store may answer each round in its
own way. -/
def answersOf (store : ℕ → List Checkpoint → StoreAnswer) :
    ℕ → ℕ → Controller → ℕ → List StoreAnswer
  | 0, _, _, _ => []
  | rounds+1, round, c, cc =>
    if store round (keptBy c cc) = .tooBig then
      .tooBig::answersOf store rounds (round+1) (doubled (thinned c cc))
        (thinned c cc).savedCheckpoints
    else [store round (keptBy c cc)]

def Ends (c : Controller) (cc : ℕ) (list : List Checkpoint) : Prop :=
  list.head? = (c.checkpoints.take cc).head? ∧ list.getLast? = (c.checkpoints.take cc).getLast?

structure Retrying (c : Controller) (cc : ℕ) : Prop where
  pos : 0 < cc
  le : cc ≤ c.checkpoints.length
  ascending : Ascending c.checkpoints
  small : ∀ ck ∈ c.checkpoints, ck.number.toNat < 2^62

/-- The save has returned, and no call of it has lost an end of the list. -/
structure Returned (c : Controller) (cc : ℕ) (w after : World) : Prop where
  idle : after.status = .idle
  ends : Ends c cc (saved after)
  calls : ∃ calls, after.calls = w.calls++calls ∧ ∀ call ∈ calls, Ends c cc call.checkpoints

variable {c : Controller} {cc : ℕ}

theorem retrying_thinned (h : Retrying c cc) :
    Retrying (thinned c cc) (thinned c cc).savedCheckpoints := by
  have ht := thinned_thins h.pos h.le
  exact ⟨ht.pos,ht.le,h.ascending.sublist ht.sublist,fun ck hm => h.small ck (ht.sublist.subset hm)⟩

theorem removeFrom_all {num : ℕ → UInt64} {distMultiplier : UInt64} {q : ℕ} {pn distance : UInt64}
    (h : ∀ i < q, pn-num i ≤ distance) :
    (removeFrom num distMultiplier q pn distance).length = q := by
  induction q with
  | zero => rfl
  | succ q ih =>
    rw [removeFrom,if_pos (h q q.lt_succ_self),length_cons,
      ih (fun i hi => h i (hi.trans q.lt_succ_self))]

theorem saved_le_two (h : Retrying c cc) (hm : 2^63 ≤ (max c.sparsifyMultiplier 2).toNat) :
    (thinned c cc).savedCheckpoints ≤ 2 := by
  have hlen : (c.checkpoints.take cc).length = cc := by simp [h.le]
  show cc-(removeWithMultiplier _ _ _ _).length ≤ 2
  unfold removeWithMultiplier
  rw [hlen]
  split
  · omega
  rw [removeFrom_all]
  · omega
  intro i hi
  have hle := h.le
  have hnum : ∀ k (hk : k < c.checkpoints.length), k < cc →
      ((c.checkpoints.take cc).map Checkpoint.number).getD k 0 = c.checkpoints[k].number := by
    intro k hk hkc
    simp [hk,hkc]
  have hlt := pairwise_iff_getElem.mp h.ascending i (cc-1) (by omega) (by omega) (by omega)
  have hs := h.small _ (getElem_mem (show cc-1 < c.checkpoints.length by omega))
  dsimp only
  rw [hnum i (by omega) (by omega),hnum (cc-1) (by omega) (by omega),UInt64.le_iff_toNat_le,
    UInt64.toNat_sub_of_le _ _ (UInt64.le_iff_toNat_le.mpr hlt.le),UInt64.toNat_div]
  change _ ≤ _/2
  omega

theorem ends_kept (h : Retrying c cc) : Ends c cc (keptBy c cc) :=
  ⟨(thinned_thins h.pos h.le).first,(thinned_thins h.pos h.le).last⟩

theorem two_le_multiplier : 2 ≤ (max c.sparsifyMultiplier 2).toNat := by
  rw [toNat_max]
  exact le_max_right _ _

theorem double_exact (h : (max c.sparsifyMultiplier 2).toNat < 2^63) :
    (max (doubled c).sparsifyMultiplier 2).toNat = (max c.sparsifyMultiplier 2).toNat*2 := by
  have h2 : 2 ≤ (max c.sparsifyMultiplier 2).toNat := two_le_multiplier
  have hd : (doubled c).sparsifyMultiplier.toNat = (max c.sparsifyMultiplier 2).toNat*2 := by
    simp only [doubled,UInt64.toNat_mul]
    exact mod_eq_of_lt (by change _*2 < _; omega)
  rw [toNat_max,hd]
  exact max_eq_left (by change 2 ≤ _; omega)

variable {w : World}

theorem abort_kept (h : w.controller.savedCheckpoints ≤ w.controller.checkpoints.length) :
    (abort w).status = w.status ∧ (abort w).calls = w.calls ∧ saved (abort w) = saved w := by
  obtain ⟨templates,ht⟩ := abort_eq h
  rw [ht]
  exact ⟨rfl,by simp [saved,withController,take_take]⟩

variable {savedAt : ℤ}

theorem saveLoop_last (hi : w.status = .idle) (h : Retrying w.controller cc)
    {answer : StoreAnswer} (ha : answer ≠ .tooBig) :
    Returned w.controller cc w (saveLoop savedAt w cc [answer]) := by
  have ht := retrying_thinned h
  have he := ends_kept h
  obtain ⟨templates,hg⟩ := getTemplates_saved _ ht.le
  let called := callStore (withController w (thinned w.controller cc)) (keptBy w.controller cc)
    templates
  have hcalls : ∃ calls, called.calls = w.calls++calls ∧
      ∀ call ∈ calls, Ends w.controller cc call.checkpoints :=
    ⟨_,rfl,fun call hm => by rwa [mem_singleton.mp hm]⟩
  simp only [saveLoop,hg]
  cases answer with
  | ok => exact ⟨hi,he,hcalls⟩
  | tooBig => exact absurd rfl ha
  | failed =>
    obtain ⟨h1,h2,h3⟩ := abort_kept (w := called) ht.le
    exact ⟨h1.trans hi,h3 ▸ he,h2 ▸ hcalls⟩

theorem saveLoop_again (h : Retrying w.controller cc) {rest : List StoreAnswer}
    (hr : ∀ next : World, next.status = w.status →
      next.controller = doubled (thinned w.controller cc) →
      Returned next.controller (thinned w.controller cc).savedCheckpoints next
        (saveLoop savedAt next (thinned w.controller cc).savedCheckpoints rest)) :
    Returned w.controller cc w (saveLoop savedAt w cc (.tooBig::rest)) := by
  have he := ends_kept h
  obtain ⟨templates,hg⟩ := getTemplates_saved _ (retrying_thinned h).le
  simp only [saveLoop,hg]
  let called := callStore (withController w (thinned w.controller cc)) (keptBy w.controller cc)
    templates
  obtain ⟨h1,h2,calls,h3,h4⟩ :=
    hr (withController called (doubled (thinned w.controller cc))) rfl rfl
  have hends : ∀ list, Ends (doubled (thinned w.controller cc))
      (thinned w.controller cc).savedCheckpoints list → Ends w.controller cc list :=
    fun list hl => ⟨hl.1.trans he.1,hl.2.trans he.2⟩
  refine ⟨h1,hends _ h2,_,h3.trans (append_assoc _ _ _),?_⟩
  intro call hm
  rcases mem_append.mp hm with hm | hm
  · rwa [mem_singleton.mp hm]
  · exact hends _ (h4 call hm)

variable {store : ℕ → List Checkpoint → StoreAnswer}

theorem not_tooBig_of_large (hstore : ∀ round list, store round list = .tooBig → 2 < list.length)
    (round : ℕ) (h : Retrying c cc) (hm : 2^63 ≤ (max c.sparsifyMultiplier 2).toNat) :
    store round (keptBy c cc) ≠ .tooBig := by
  intro hbig
  have hlen := hstore _ _ hbig
  have := saved_le_two h hm
  rw [keptBy,length_take] at hlen
  omega

theorem saveLoop_returned
    (hstore : ∀ round list, store round list = .tooBig → 2 < list.length) {rounds : ℕ} (round : ℕ)
    (hi : w.status = .idle) (h : Retrying w.controller cc)
    (hm : 2^63 ≤ (max w.controller.sparsifyMultiplier 2).toNat*2^rounds) :
    Returned w.controller cc w
      (saveLoop savedAt w cc (answersOf store (rounds+1) round w.controller cc)) := by
  induction rounds generalizing w cc round with
  | zero =>
    have hnot := not_tooBig_of_large hstore round h (by omega)
    rw [answersOf,if_neg hnot]
    exact saveLoop_last hi h hnot
  | succ rounds ih =>
    rw [answersOf]
    split
    case isTrue hbig =>
      have hsmall : (max w.controller.sparsifyMultiplier 2).toNat < 2^63 := by
        by_contra hge
        exact not_tooBig_of_large hstore round h (Nat.le_of_not_lt hge) hbig
      refine saveLoop_again h (fun next hn hc => ?_)
      rw [← hc]
      apply ih (round+1) (hn.trans hi)
      · have ht := retrying_thinned h
        rw [hc]
        exact {ht with}
      · rw [hc,double_exact (c := thinned w.controller cc) hsmall,Nat.mul_assoc,← Nat.pow_succ']
        exact hm
    case isFalse hnot => exact saveLoop_last hi h hnot

/-- A save gives up or succeeds after at most 63 calls of a store that takes
every list of two checkpoints, and keeps the first and the new checkpoint. -/
theorem save_retries_end (savedAt : ℤ) (w : World) (cc : ℕ)
    (store : ℕ → List Checkpoint → StoreAnswer) (hi : w.status = .idle) (hpos : 0 < cc)
    (hle : cc ≤ w.controller.checkpoints.length) (ha : Ascending w.controller.checkpoints)
    (hsmall : ∀ ck ∈ w.controller.checkpoints, ck.number.toNat < 2^62)
    (hstore : ∀ round list, store round list = .tooBig → 2 < list.length) :
    Returned w.controller cc w
      (saveLoop savedAt w cc (answersOf store 63 0 w.controller cc)) := by
  apply saveLoop_returned hstore 0 hi ⟨hpos,hle,ha,hsmall⟩
  have h2 : 2 ≤ (max w.controller.sparsifyMultiplier 2).toNat := two_le_multiplier
  omega

/-- A store that takes two checkpoints only is asked until nothing else is left. -/
theorem save_retries_end_at_two :
    ∃ w : World, w.controller.checkpoints.map Checkpoint.number = [0,1,5,9] ∧
      Returned w.controller 4 w (saveLoop 0 w 4 (answersOf
        (fun _ list => if 2 < list.length then .tooBig else .ok) 63 0 w.controller 4)) :=
  ⟨load ([0,1,5,9].map (fun n => ⟨n,0,0⟩)) [],rfl,
    save_retries_end 0 _ 4 _ rfl (by decide) (by decide) (by simp [Ascending,load])
      (by decide)
      (fun _ list h => by by_contra hlen; simp [hlen] at h)⟩

end Sentio.CheckpointRetry
