import SentioCore.EntityRefinement

/-!
# Runs of the entity controller

Every sequence of calls goes through, and in every state it reaches each read
returns what the surviving writes say.
-/

namespace Sentio.EntityRuns
open DecimalArith NumericOperator OperatorMerge EntityHistory Transition KeyedMap List Option Prod Nat
open EntityReference EntityMerge EntityController EntityRefinement OrderedLog

section
variable {σ F : Type} (N : Numerals F) (S : ChainStore σ F) (rows : σ → Key → List (EntityBox F))

/-- An entity is there when it has a box with data. -/
def live (box : Option (EntityBox F)) : Option (EntityBox F) := box.filter fun b => b.data.isSome

/-- The store keeps the boxes of an id. For a deleted one it may answer without a box. -/
structure KeepsRows : Prop where
  get : ∀ s k, ∃ box, S.getEntity s k = some box ∧ live box = live (rows s k).getLast?
  set : ∀ s entity boxes, (S.setEntities s entity boxes).2.isSome ∧
    ∀ k, rows (S.setEntities s entity boxes).1 k = rows s k++
      if k.1 = entity then (boxes.filter (fun b => b.1 = k.2)).map snd else []
  growth : ∀ s time, (S.growthAggregation s time).2 ∧
    rows (S.growthAggregation s time).1 = rows s
  reorg : ∀ s b, (S.reorg s b).2 ∧
    ∀ k, rows (S.reorg s b).1 k = (rows s k).filter (fun r => (r.genBlockNumber:ℤ) ≤ b)

abbrev HoldsAt (store : σ) (changes : List (Key × ChangeHistory F))
    (log : Key → List (UncommittedEntityBox F)) (settled stored : ℕ) (k : Key) : Prop :=
  KeyInv N S.checkFieldValue (S.getEntityType k.1) (rows store k) (find changes k) (log k)
    settled stored

structure Inv (w : World σ F) : Prop where
  keys : (keys w.controller.changes).Nodup
  committed : ∀ n, w.controller.committed = some n → n < w.settled
  ordered : w.stored ≤ w.settled
  each : ∀ k, HoldsAt N S rows w.controller.store w.controller.changes w.log w.settled w.stored k

theorem start_inv (store : σ) (h : ∀ k, rows store k = []) : Inv N S rows (start store) where
  keys := nodup_nil
  committed n hn := absurd hn (by simp [start,newController])
  ordered := le_refl _
  each k := by
    have hr := h k
    constructor <;> simp [start,newController,find,hr,Ascending,Sorted,refFold,BlocksFit]

theorem live_data (box : Option (EntityBox F)) :
    (live box).bind (fun b => b.data) = box.bind fun b => b.data := by
  rcases box with _ | ⟨_ | data,n⟩ <;> rfl

variable {N S rows}

theorem execute_entity (keep : KeepsRows S rows) (store : σ)
    (changes : List (Key × ChangeHistory F)) {log : Key → List (UncommittedEntityBox F)}
    {settled stored : ℕ} (b : ℕ) {k : Key} (inv : HoldsAt N S rows store changes log settled stored k) :
    Executed N S (S.getEntityType k.1) (log k) (find changes k) b
      (executeEntityOperator N S store k b (find changes k)) := by
  obtain ⟨box,hbox,hlive⟩ := keep.get store k
  have hdata : box.bind (fun b => b.data) = (rows store k).getLast?.bind fun r => r.data := by
    rw [← live_data box,hlive,live_data]
  rw [executeEntityOperator,storedData,hbox,map_some,hdata]
  apply executeBoxes_settles N S _ inv b _ stored _ (fun e he => he) inv.historyAscending
    inv.historyAbove _ inv.base_value
  intro w hw hge
  rcases (inv.blocks (block w)).mp ⟨w,hw,rfl⟩ with ⟨r,hr,heq⟩ | he
  · have := inv.rowsBelow r hr
    omega
  · exact he

variable {b : ℕ}

theorem latest_isSome_of_blocks {h h' : ChangeHistory F} {e : UncommittedEntityBox F}
    (hasc : Ascending block h) (hasc' : Ascending block h') (hmap : h'.map block = h.map block)
    (hl : latest h b = some e) : ∃ e', latest h' b = some e' ∧ e' ∈ h' ∧ block e' ≤ b := by
  rw [latest_eq b hasc] at hl
  obtain ⟨hmem,_⟩ := getLast?_upTo block b e hasc hl
  have hin : block e ∈ h'.map block := hmap ▸ mem_map_of_mem hmem
  obtain ⟨c,hc,hcb⟩ := mem_map.mp hin
  have hne : upTo block b h' ≠ [] :=
    ne_nil_of_mem ((mem_upTo block b h' c).mpr ⟨hc,by omega⟩)
  have hlast := getLast?_eq_some_getLast hne
  obtain ⟨hm,hb,_⟩ := getLast?_upTo block b _ hasc' hlast
  exact ⟨_,by rw [latest_eq b hasc',hlast],hm,hb⟩

variable {w : World σ F}

theorem getEntity_spec (keep : KeepsRows S rows) (inv : Inv N S rows w) {k : Key} :
    (getEntity N S w.controller k b false).2.map live = .ok (live
      (referenceBox N S.checkFieldValue (S.getEntityType k.1) (w.log k) (max (b+1) w.stored))) ∧
    Inv N S rows ⟨(getEntity N S w.controller k b false).1,w.log,max w.settled (b+1),w.stored⟩ := by
  have hinv := inv.each k
  have hunchanged : Inv N S rows ⟨w.controller,w.log,max w.settled (b+1),w.stored⟩ :=
    ⟨inv.keys,fun n hn => lt_of_lt_of_le (inv.committed n hn) (le_max_left _ _),
      inv.ordered.trans (le_max_left _ _),fun j => (inv.each j).later _ (le_max_left _ _)⟩
  rw [getEntity]
  rcases hl : latest (find w.controller.changes k) b with _ | e
  · obtain ⟨box,hbox,hlive⟩ := keep.get w.controller.store k
    simp only [Bool.false_eq_true,if_false,hbox]
    exact ⟨by rw [hinv.stored_reference b hl,← hlive]; rfl,hunchanged⟩
  simp only [Bool.false_and,Bool.false_eq_true,if_false]
  have hlup := hl
  rw [latest_eq b hinv.historyAscending] at hlup
  have hmem := (getLast?_upTo block b e hinv.historyAscending hlup).1
  by_cases ho : hasOperator (S.getEntityType k.1) e
  · have hexec := execute_entity keep _ _ b hinv
    have hkeep := executed_keeps N S _ hinv hexec
    obtain ⟨e',hl',hmem',hle'⟩ := latest_isSome_of_blocks hinv.historyAscending
      hkeep.historyAscending hexec.2.1 hl
    have hval : valueBelow N S.checkFieldValue (S.getEntityType k.1) (w.log k) (block e'+1) =
        some e'.data := by
      rcases hexec.2.2 e' hmem' with ⟨_,_,hv⟩ | ⟨hgt,_⟩
      · exact hv
      · omega
    simp only [if_pos ho,hexec.1,hl',map_some]
    refine ⟨by rw [hkeep.latest_reference b e' hl' hval]; rfl,?_,hunchanged.committed,
      hunchanged.ordered,?_⟩
    · exact nodup_put inv.keys
    intro j
    simp only [HoldsAt,find_put]
    by_cases hj : j = k
    · subst hj
      rw [if_pos rfl]
      exact hkeep
    · rw [if_neg hj]
      exact hunchanged.each j
  · simp only [if_neg ho]
    have hno : hasOperator (S.getEntityType k.1) e = false := by simpa using ho
    exact ⟨by rw [hinv.latest_reference b e hl (hinv.plain_box e hmem hno)]; rfl,hunchanged⟩

/-- The condition on a call: a write lies at or above every block that was read
or committed, and a write that is taken is `Writable`. -/
def Proper (N : Numerals F) (S : ChainStore σ F) (w : World σ F) : Call F → Prop
  | .setEntity key box =>
    w.settled ≤ block box ∧ (accepted S (S.getEntityType key.1) box.data →
      refused S w.controller key = false →
        Writable N S.checkFieldValue (S.getEntityType key.1) (w.log key) w.settled box)
  | _ => True

theorem setEntity_step (inv : Inv N S rows w) {key : Key}
    {box : UncommittedEntityBox F} (hp : Proper N S w (.setEntity key box)) :
    ∃ w', step N S w (.setEntity key box) = some w' ∧ Inv N S rows w' := by
  have hcommitted : (w.controller.committed.any (fun n => box.genBlockNumber ≤ n)) = false := by
    rcases hc : w.controller.committed with _ | n
    · rfl
    have hlt := inv.committed n hc
    have hfresh := hp.1
    simp only [any_some,decide_eq_false_iff_not,not_le]
    exact lt_of_lt_of_le hlt hfresh
  simp only [step,setEntity,hcommitted]
  rcases ha : accepted S (S.getEntityType key.1) box.data with _ | _
  · exact ⟨w,rfl,inv⟩
  rcases hr : refused S w.controller key with _ | _
  swap
  · exact ⟨w,rfl,inv⟩
  have hw := hp.2 ha hr
  obtain ⟨history,merged,mergedBox,hpush,hcheck,hnew⟩ :=
    (inv.each key).push box inv.ordered hw
  have hok : (merged && !accepted S (S.getEntityType key.1) mergedBox.data) = false := by
    cases merged with
    | false => rfl
    | true => simpa [accepted] using hcheck rfl
  simp only [hpush,hok]
  refine ⟨_,rfl,nodup_put inv.keys,inv.committed,inv.ordered,fun j => ?_⟩
  simp only [HoldsAt,find_put,record]
  by_cases hj : j = key
  · subst hj
    simp only [if_true]
    exact hnew
  · simp only [if_neg hj]
    exact inv.each j

/-- When no entity fails, every entity is resolved on its own. -/
theorem executeAll_eq (store : σ) (changes : List (Key × ChangeHistory F))
    (h : ∀ e ∈ changes, (executeEntityOperator N S store e.1 b e.2).2 = none) :
    executeAllEntityOperator N S store b changes =
      (adjust changes (fun k l => (executeEntityOperator N S store k b l).1),none) := by
  induction changes with
  | nil => rfl
  | cons e rest ih =>
    have hrest := ih (fun e' he' => h e' (mem_cons_of_mem _ he'))
    have hfirst := h e mem_cons_self
    simp only [executeAllEntityOperator,adjust,map_cons]
    cases hd : executeEntityOperator N S store e.1 b e.2 with
    | mk done failure =>
      rw [hd] at hfirst
      subst hfirst
      simp [hrest,adjust]

variable {changes : List (Key × ChangeHistory F)}

section
variable (hk : (keys changes).Nodup)
include hk

theorem find_split {k : Key} (hasc : Ascending block (find changes k)) :
    find (splitChanges changes b).1 k = upTo block b (find changes k) ∧
      find (splitChanges changes b).2 k = above block b (find changes k) := by
  have hsplit := split_eq b hasc
  constructor <;>
    rw [splitChanges,find_dropEmpty _ (by rwa [keys_adjust]),find_adjust (by simp [split]),hsplit]

theorem nodup_split : (keys (splitChanges changes b).1).Nodup ∧
      (keys (splitChanges changes b).2).Nodup :=
  ⟨nodup_dropEmpty (by rwa [keys_adjust]),nodup_dropEmpty (by rwa [keys_adjust])⟩

theorem entityBoxes_of_key {k : Key} :
    ((entityBoxes changes k.1).filter (fun b => b.1 = k.2)).map Prod.snd =
      (find changes k).map (fun box => box.toEntityBox) := by
  apply entries_of_tag (fun j => decide (j.1 = k.1)) Prod.snd
    (fun box => box.toEntityBox) k hk (by simp)
  intro j hj htag
  exact Prod.ext (by simpa using hj) htag

end

theorem saveEntities_rows (keep : KeepsRows S rows)
    (names : List String) (store : σ) (hk : (keys changes).Nodup) (hn : names.Nodup) :
    (saveEntities S changes store names).2.isSome ∧
    ∀ k, rows (saveEntities S changes store names).1 k = rows store k++
      if k.1 ∈ names then (find changes k).map (fun box => box.toEntityBox) else [] := by
  induction names generalizing store with
  | nil => simp [saveEntities]
  | cons entity rest ih =>
    have hrest := nodup_cons.mp hn
    obtain ⟨hsome,hrows⟩ := keep.set store entity (entityBoxes changes entity)
    simp only [saveEntities]
    cases hset : S.setEntities store entity (entityBoxes changes entity) with
    | mk after created =>
      rw [hset] at hsome hrows
      obtain ⟨n,rfl⟩ := isSome_iff_exists.mp hsome
      obtain ⟨hok,hafter⟩ := ih after hrest.2
      refine ⟨by simpa using hok,fun k => ?_⟩
      simp only [hafter,hrows,append_assoc,mem_cons]
      by_cases he : k.1 = entity
      · have hno : k.1 ∉ rest := he ▸ hrest.1
        simp only [he,true_or]
        rw [← he,entityBoxes_of_key hk,if_neg hno,append_nil]
      · simp only [he,if_false,nil_append,false_or]

theorem find_of_no_name {k : Key} (h : k.1 ∉ entityNames changes) : find changes k = [] := by
  apply find_of_notMem
  intro hin
  obtain ⟨e,he,heq⟩ := mem_map.mp hin
  exact h (mem_dedup.mpr (mem_map.mpr ⟨e,he,congrArg fst heq⟩))

theorem commit_eq {c : Controller σ F} {time : ℤ} {store after : σ} {saved : List Saved}
    (hexec : executeAllEntityOperator N S c.store b c.changes = (changes,none))
    (hsave : saveEntities S (splitChanges changes b).1 c.store
      (entityNames (splitChanges changes b).1) = (store,some saved))
    (hgrow : S.growthAggregation store time = (after,true)) :
    commit N S c b time = (⟨after,(splitChanges changes b).2,some b⟩,.ok saved) := by
  simp [commit,hexec,hsave,hgrow]

/-- The store after a commit, and the changes that stay. -/
theorem commit_spec (keep : KeepsRows S rows) (inv : Inv N S rows w) (b : ℕ) (time : ℤ) :
    ∃ store changes saved,
      commit N S w.controller b time = (⟨store,changes,some b⟩,.ok saved) ∧
      (keys changes).Nodup ∧
      ∀ k, ∃ done, Executed N S (S.getEntityType k.1) (w.log k)
          (find w.controller.changes k) b done ∧
        rows store k = rows w.controller.store k++
          (upTo block b done.1).map (fun e => e.toEntityBox) ∧
        find changes k = above block b done.1 := by
  have hexec := fun k => execute_entity keep _ _ b (inv.each k)
  have hnone : ∀ e ∈ w.controller.changes,
      (executeEntityOperator N S w.controller.store e.1 b e.2).2 = none := by
    intro e he
    have := (hexec e.1).1
    rwa [find_mem inv.keys he] at this
  have hall := executeAll_eq (N := N) (S := S) w.controller.store w.controller.changes hnone
  generalize hdone : adjust w.controller.changes
    (fun k l => (executeEntityOperator N S w.controller.store k b l).1) = done at hall
  have hkeys : (keys done).Nodup := by
    rw [← hdone,keys_adjust]
    exact inv.keys
  have hfind : ∀ k, find done k = (executeEntityOperator N S w.controller.store k b
      (find w.controller.changes k)).1 := by
    intro k
    rw [← hdone]
    exact find_adjust rfl
  have hsplit : ∀ k, find (splitChanges done b).1 k = upTo block b (find done k) ∧
      find (splitChanges done b).2 k = above block b (find done k) := by
    intro k
    apply find_split hkeys
    rw [hfind]
    exact (executed_keeps N S _ (inv.each k) (hexec k)).historyAscending
  obtain ⟨hsaved,hrows⟩ := saveEntities_rows keep
    (entityNames (splitChanges done b).1) w.controller.store (nodup_split hkeys).1
    (nodup_dedup _)
  cases hsv : saveEntities S (splitChanges done b).1 w.controller.store
      (entityNames (splitChanges done b).1) with
  | mk store result =>
    rw [hsv] at hsaved hrows
    obtain ⟨saved,rfl⟩ := isSome_iff_exists.mp hsaved
    obtain ⟨hgrown,hsame⟩ := keep.growth store time
    cases hgr : S.growthAggregation store time with
    | mk after ok =>
      rw [hgr] at hgrown hsame
      subst hgrown
      refine ⟨after,_,saved,commit_eq hall hsv hgr,(nodup_split hkeys).2,fun k => ⟨_,hexec k,?_,?_⟩⟩
      · rw [hsame,hrows,← hfind,← (hsplit k).1]
        by_cases hn : k.1 ∈ entityNames (splitChanges done b).1
        · rw [if_pos hn]
        · rw [if_neg hn,find_of_no_name hn,map_nil]
      · rw [← hfind]
        exact (hsplit k).2

theorem commit_step (keep : KeepsRows S rows) (inv : Inv N S rows w)
    {time : ℤ} : ∃ w', step N S w (.commit b time) = some w' ∧ Inv N S rows w' ∧
      w'.log = w.log ∧ w'.stored = max w.stored (b+1) := by
  obtain ⟨store,changes,saved,hc,hkeys,hall⟩ := commit_spec keep inv b time
  refine ⟨⟨⟨store,changes,some b⟩,w.log,max w.settled (b+1),max w.stored (b+1)⟩,
    by simp [step,hc],⟨hkeys,?_,?_,?_⟩,rfl,rfl⟩
  · intro n hn
    cases hn
    exact lt_of_lt_of_le (lt_succ_self b) (le_max_right _ _)
  · exact max_le_max inv.ordered le_rfl
  intro k
  obtain ⟨done,hexec,hrows,hfind⟩ := hall k
  simp only [HoldsAt,hrows,hfind]
  apply (executed_keeps N S _ (inv.each k) hexec).commit b
  intro e he hle
  rcases hexec.2.2 e he with hdone | ⟨hgt,_⟩
  · exact hdone.2
  · omega

theorem reorg_rows {rs : List (EntityBox F)} {b : ℤ} :
    rs.filter (fun r => (r.genBlockNumber:ℤ) ≤ b) = before rowBlock (b+1).toNat rs := by
  apply filter_congr
  intro r _
  rw [decide_eq_decide]
  change _ ↔ r.genBlockNumber < _
  omega

section
variable (keep : KeepsRows S rows)
include keep

theorem reorg_step (inv : Inv N S rows w) {b : ℤ} :
    ∃ w', step N S w (.reorg b) = some w' ∧ Inv N S rows w' ∧
      w'.log = (fun k => before block (b+1).toNat (w.log k)) ∧
      w'.stored = min w.stored (b+1).toNat := by
  obtain ⟨hok,hrows⟩ := keep.reorg w.controller.store b
  by_cases hneg : b < 0
  · have hzero : (b+1).toNat = 0 := by omega
    refine ⟨⟨⟨(S.reorg w.controller.store b).1,[],none⟩,
      fun k => before block (b+1).toNat (w.log k),min w.settled (b+1).toNat,
      min w.stored (b+1).toNat⟩,?_,⟨?_,?_,?_,?_⟩,rfl,rfl⟩
    · simp [step,reorg,if_pos hneg,hok]
    · exact nodup_nil
    · intro n hn
      cases hn
    · exact min_le_min_right _ inv.ordered
    intro k
    have hreorg := (inv.each k).reorg (b+1).toNat
    have hnil : before block (b+1).toNat (find w.controller.changes k) = [] := by
      rw [hzero]
      simp [before]
    rw [hnil] at hreorg
    simp only [HoldsAt,hrows,reorg_rows]
    exact hreorg
  have hsucc : (b+1).toNat = b.toNat+1 := by omega
  refine ⟨⟨⟨(S.reorg w.controller.store b).1,(splitChanges w.controller.changes b.toNat).1,
    w.controller.committed.map (fun n => min n b.toNat)⟩,
    fun k => before block (b+1).toNat (w.log k),min w.settled (b+1).toNat,
    min w.stored (b+1).toNat⟩,?_,⟨?_,?_,?_,?_⟩,rfl,rfl⟩
  · simp [step,reorg,if_neg hneg,hok]
  · exact (nodup_split inv.keys).1
  · intro n hn
    obtain ⟨m,hm,rfl⟩ := map_eq_some_iff.mp hn
    have := inv.committed m hm
    simp only [hsucc]
    omega
  · exact min_le_min_right _ inv.ordered
  intro k
  have hreorg := (inv.each k).reorg (b+1).toNat
  simp only [HoldsAt,hrows,reorg_rows]
  rw [(find_split inv.keys (inv.each k).historyAscending).1,upTo_eq_before,← hsucc]
  exact hreorg

theorem step_inv (w : World σ F) (call : Call F) (inv : Inv N S rows w)
    (hp : Proper N S w call) : ∃ w', step N S w call = some w' ∧ Inv N S rows w' := by
  cases call with
  | setEntity key box => exact setEntity_step inv hp
  | getEntity key b =>
    obtain ⟨hok,hinv⟩ := getEntity_spec keep inv
    cases hg : getEntity N S w.controller key b false with
    | mk c result =>
      rw [hg] at hok hinv
      cases result with
      | error failure => cases hok
      | ok box => exact ⟨_,by simp [step,hg],hinv⟩
  | commit b time =>
    obtain ⟨w',hs,hinv,_⟩ := commit_step keep inv
    exact ⟨w',hs,hinv⟩
  | reorg b =>
    obtain ⟨w',hs,hinv,_⟩ := reorg_step keep inv
    exact ⟨w',hs,hinv⟩

theorem run_inv (store : σ) (hempty : ∀ k, rows store k = []) (calls : List (Call F))
    (hp : Throughout (step N S) (Proper N S) (start store) calls) :
    ∃ w, run (step N S) (start store) calls = some w ∧ Inv N S rows w :=
  run_total_throughout (step N S) (Proper N S) (Inv N S rows)
    (fun w call inv hc => step_inv keep w call inv hc) calls (start store)
    (start_inv N S rows store hempty) hp

end

/-- Every run of proper calls goes through; a read returns the value of the surviving writes up to
its block, no commit changes a later read, and a reorg leaves the writes up to its block. A box
without data and no box at all both say that the entity is not there. -/
theorem reads_follow_writes (keep : KeepsRows S rows) (store : σ)
    (hempty : ∀ k, rows store k = []) (calls : List (Call F))
    (hp : Throughout (step N S) (Proper N S) (start store) calls) :
    ∃ w, run (step N S) (start store) calls = some w ∧
      (∀ k, (refFold N S.checkFieldValue (S.getEntityType k.1) (w.log k) none).isSome) ∧
      (∀ k b, (getEntity N S w.controller k b false).2.map live =
        .ok (live (referenceBox N S.checkFieldValue (S.getEntityType k.1) (w.log k)
          (max (b+1) w.stored)))) ∧
      (∀ b time, ∃ w', step N S w (.commit b time) = some w' ∧ ∀ k n, b ≤ n →
        (getEntity N S w'.controller k n false).2.map live =
          (getEntity N S w.controller k n false).2.map live) ∧
      ∀ b, ∃ w', step N S w (.reorg b) = some w' ∧ ∀ k n,
        (getEntity N S w'.controller k n false).2.map live =
          .ok (live (referenceBox N S.checkFieldValue (S.getEntityType k.1)
            (before block (b+1).toNat (w.log k)) (max (n+1) (min w.stored (b+1).toNat)))) := by
  obtain ⟨w,hrun,inv⟩ := run_inv keep store hempty calls hp
  refine ⟨w,hrun,fun k => (inv.each k).defined,fun k b => (getEntity_spec keep inv).1,
    fun b time => ?_,fun b => ?_⟩
  · obtain ⟨w',hs,hinv,hlog,hstored⟩ := commit_step keep inv
    refine ⟨w',hs,fun k n hn => ?_⟩
    rw [(getEntity_spec keep hinv).1,(getEntity_spec keep inv).1,hlog,hstored]
    have hmax : max (n+1) (max w.stored (b+1)) = max (n+1) w.stored := by omega
    rw [hmax]
  · obtain ⟨w',hs,hinv,hlog,hstored⟩ := reorg_step keep inv
    refine ⟨w',hs,fun k n => ?_⟩
    rw [(getEntity_spec keep hinv).1,hlog,hstored]

end

def memoryStore {F : Type} (type : FieldType) : ChainStore (Key → List (EntityBox F)) F where
  getEntityType _ := ⟨["n"],fun _ => ⟨type,true⟩,false⟩
  checkFieldValue _ _ := true
  getEntity s k := some (live (s k).getLast?)
  setEntities s entity boxes := (fun k => s k++
    if k.1 = entity then (boxes.filter (fun b => b.1 = k.2)).map snd else [],some 0)
  growthAggregation s _ := (s,true)
  reorg s b := (fun k => (s k).filter (fun r => (r.genBlockNumber:ℤ) ≤ b),true)

variable {type : FieldType} {F : Type}

theorem memoryStore_keeps :
    KeepsRows (memoryStore type) (fun (s : Key → List (EntityBox F)) => s) where
  get s k := ⟨live (s k).getLast?,rfl,by simp [live]⟩
  set _ _ _ := ⟨rfl,fun _ => rfl⟩
  growth _ _ := ⟨rfl,rfl⟩
  reorg _ _ := ⟨rfl,fun _ => rfl⟩

def holding {F : Type} (v : Value F) (n : ℕ) : UncommittedEntityBox F :=
  ⟨⟨some (fun name => if name = "n" then some v else none),n⟩,FieldMap.empty⟩

def changing {F : Type} (o : OperatorNumCalc F) (n : ℕ) : UncommittedEntityBox F :=
  ⟨⟨some FieldMap.empty,n⟩,fun name => if name = "n" then some ⟨some o⟩ else none⟩

def readField {F : Type} (result : Except Failure (Option (EntityBox F))) : Option (Value F) :=
  match result with
  | .ok (some box) => box.data.bind (fun d => d "n")
  | _ => none

theorem holding_complete {v : Value F} {n : ℕ} :
    Complete ((memoryStore (F := F) type).getEntityType "e") (holding v n) := by
  constructor
  · intro name hn
    have hname : name = "n" := by simpa [memoryStore] using hn
    simp [hname,FieldMap.empty,holding]
  intro name hn
  have hname : name ≠ "n" := by simpa [memoryStore] using hn
  simp [hname,FieldMap.empty,holding]

theorem changing_complete {o : OperatorNumCalc F} {n : ℕ} :
    Complete ((memoryStore (F := F) type).getEntityType "e") (changing o n) := by
  constructor
  · intro name hn
    have hname : name = "n" := by simpa [memoryStore] using hn
    simp [hname,FieldMap.empty,changing]
  intro name hn
  have hname : name ≠ "n" := by simpa [memoryStore] using hn
  simp [hname,FieldMap.empty,changing]

section
variable {σ : Type} (N : Numerals F) (S : ChainStore σ F)

/-- The part of `Proper` that a run decides. -/
def Checked (w : World σ F) : Call F → Prop
  | .setEntity key box => w.settled ≤ block box ∧
      BlocksFit N S.checkFieldValue (S.getEntityType key.1) (insertLast block box (w.log key)) ∧
      (refFold N S.checkFieldValue (S.getEntityType key.1) (insertLast block box (w.log key))
        none).isSome
  | _ => True

instance (w : World σ F) : (call : Call F) → Decidable (Checked N S w call)
  | .setEntity _ _ => inferInstanceAs (Decidable (_ ∧ _))
  | .getEntity _ _ | .commit _ _ | .reorg _ => .isTrue trivial

def WritesComplete : Call F → Prop
  | .setEntity key box => Complete (S.getEntityType key.1) box
  | _ => True

theorem proper_of_checked (w : World σ F) (call : Call F)
    (h : Checked N S w call ∧ WritesComplete S call) : Proper N S w call := by
  cases call with
  | setEntity key box => exact ⟨h.1.1,fun _ _ => ⟨h.1.1,h.2,h.1.2.1,h.1.2.2⟩⟩
  | getEntity key n | commit n time | reorg n => trivial

end

def half : RichValue Unit := .bigDecimal (.ofTenths 5)

/-- A great number is overwritten and changed, the entity is deleted, and two operators of one block
meet it again. -/
def ledgerCalls : List (Call Unit) :=
  [.setEntity ("e", "1") (holding (.decimal ⟨1,2147483647,by decide⟩) 5),
    .setEntity ("e", "1") (holding (.decimal ⟨1,1,by decide⟩) 6),
    .setEntity ("e", "1") (changing ⟨half,half⟩ 6),.commit 6 0,
    .setEntity ("e", "1") ⟨⟨none,7⟩,FieldMap.empty⟩,.commit 7 0,
    .setEntity ("e", "1") (changing ⟨.int 2,.int 1⟩ 8),
    .setEntity ("e", "1") (changing ⟨half,.int 3⟩ 8),.getEntity ("e", "1") 8,.reorg 6]

theorem ledger_proper : Throughout (step plainNumerals (memoryStore .bigDecimal))
      (Proper plainNumerals (memoryStore .bigDecimal)) (start (fun _ => [])) ledgerCalls := by
  refine throughout_mono _ (proper_of_checked _ _) _ _
    (throughout_both _ _ _ ?_ (throughout_all _ _ _ ?_))
  · decide +kernel
  · simp only [ledgerCalls,forall_mem_cons,WritesComplete,true_and]
    exact ⟨holding_complete,holding_complete,changing_complete,rfl,changing_complete,
      changing_complete,fun _ h => absurd h not_mem_nil⟩

theorem reads_follow_writes_ledger :
    (∃ w, run (step plainNumerals (memoryStore .bigDecimal)) (start (fun _ => [])) ledgerCalls =
        some w ∧
      ∀ k b, (getEntity plainNumerals (memoryStore .bigDecimal) w.controller k b false).2.map live =
        .ok (live (referenceBox plainNumerals (fun _ _ => true)
          ((memoryStore (F := Unit) .bigDecimal).getEntityType k.1) (w.log k) (max (b+1) w.stored)))) ∧
    [4,6,9,10].map (fun n => (run (step plainNumerals (memoryStore .bigDecimal)) (start (fun _ => []))
      (ledgerCalls.take n)).map (fun w => readField
        (getEntity plainNumerals (memoryStore .bigDecimal) w.controller ("e", "1") 8 false).2)) =
      [some (some (.decimal ⟨55,-1,by decide⟩)),some none,some (some (.decimal ⟨35,-1,by decide⟩)),
        some (some (.decimal ⟨55,-1,by decide⟩))] := by
  constructor
  · obtain ⟨w,hrun,_,hread,_⟩ := reads_follow_writes memoryStore_keeps (fun _ => [])
      (fun _ => rfl) ledgerCalls ledger_proper
    exact ⟨w,hrun,hread⟩
  · decide +kernel

/-- Number conversions whose floats are the integers, so that `Float64` rounds. -/
def coarseNumerals : Numerals ℤ where
  newFromFloat z := some (Decimal.ofInt z)
  float64 d := d.round
  floatZero := 0
  newFromString _ := none
  setString _ := none

def fraction : RichValue ℤ := .bigDecimal (.ofTenths 4)

/-- A read below a commit sees the stored block above it; two operators on a
float in one block are rounded once; a decimal exponent can overflow. -/
theorem reads_ahead_of_writes :
    (run (step plainNumerals (memoryStore .bigInt)) (start (fun _ => []))
      [.setEntity ("e", "1") (holding (.bigInt 1) 5),.setEntity ("e", "1") (holding (.bigInt 2) 7),
        .commit 7 0]).map (fun w => (readField
          (getEntity plainNumerals (memoryStore .bigInt) w.controller ("e", "1") 5 false).2,
          readField (.ok (referenceBox plainNumerals (fun _ _ => true)
            ((memoryStore (F := Unit) .bigInt).getEntityType "e") (w.log ("e", "1")) 6)))) =
      some (some (.bigInt 2),some (.bigInt 1)) ∧
    (run (step coarseNumerals (memoryStore .float)) (start (fun _ => []))
      [.setEntity ("e", "1") (changing ⟨.int 1,fraction⟩ 5),
        .setEntity ("e", "1") (changing ⟨.int 1,fraction⟩ 5)]).map (fun w => (readField
          (getEntity coarseNumerals (memoryStore .float) w.controller ("e", "1") 5 false).2,
          readField (.ok (referenceBox coarseNumerals (fun _ _ => true)
            ((memoryStore (F := ℤ) .float).getEntityType "e") (w.log ("e", "1")) 6)))) =
      some (some (.float 1),some (.float 0)) ∧
    run (step plainNumerals (memoryStore .bigDecimal)) (start (fun _ => []))
      [.setEntity ("e", "1") (holding (.decimal ⟨1,2147483647,by decide⟩) 5),
        .setEntity ("e", "1") (changing ⟨.bigDecimal ⟨1,1,by decide⟩,.int 0⟩ 6),
        .getEntity ("e", "1") 6] = none := by
  refine ⟨by decide +kernel,by decide +kernel,by rfl⟩

end Sentio.EntityRuns
