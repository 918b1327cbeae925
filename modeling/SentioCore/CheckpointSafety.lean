import SentioCore.CheckpointModel

/-!
# What a checkpoint store may be left with

The saved prefix of the checkpoint list is ascending and backed: each of its
blocks is in the store, or all three data controllers have committed it. With no
failed store write it is exactly the content of the store. What is stored was
loaded or committed, and no reset takes a commit away that the store relies on,
since the store reaches no further than the latest checkpoint.
-/

namespace Sentio.CheckpointSafety
open CheckpointModel SparsifyModel TemplateModel List Transition

def Ascending (l : List Checkpoint) : Prop := l.Pairwise (fun a b => a.number < b.number)

def Covered (committed : List UInt64) (b : UInt64) : Prop := ∃ c ∈ committed, b ≤ c

/-- Block `b` is stored, or committed by all three data controllers. -/
def Backed (stored : List Checkpoint) (timeSeries entity webhook : List UInt64) (b : UInt64) : Prop :=
  (∃ ck ∈ stored, ck.number = b) ∨ (Covered timeSeries b ∧ Covered entity b ∧ Covered webhook b)

def Committed (w : World) (b : UInt64) : Prop :=
  b ∈ w.timeSeries ∧ b ∈ w.entity ∧ b ∈ w.webhook

def Holds (l : List Checkpoint) (b : UInt64) : Prop := ∃ ck ∈ l, ck.number = b

def Backs (w : World) (b : UInt64) : Prop := Holds w.stored b ∨ Committed w b

def CallSafe (call : StoreCall) : Prop :=
  Ascending call.checkpoints ∧ ∀ last, call.checkpoints.getLast? = some last →
    Backed call.stored call.timeSeries call.entity call.webhook last.number

def saved (w : World) : List Checkpoint :=
  w.controller.checkpoints.take w.controller.savedCheckpoints

/-- The store reaches no further than the end of the list. -/
def Reaches (l stored : List Checkpoint) : Prop :=
  ∀ ck ∈ stored, ∃ last, l.getLast? = some last ∧ ck.number ≤ last.number

structure Sound (w : World) : Prop where
  le : w.controller.savedCheckpoints ≤ w.controller.checkpoints.length
  ascending : Ascending w.controller.checkpoints
  backed : ∀ ck ∈ saved w, Backs w ck.number
  behind : Reaches (saved w) w.stored

/-- What is stored was loaded or is committed. -/
def Kept (loaded : List Checkpoint) (w : World) : Prop :=
  ∀ ck ∈ w.stored, Holds loaded ck.number ∨ Committed w ck.number

variable (loaded : List Checkpoint)

/-- The invariant; `strict` says that the store never lost a write. -/
structure Safe (strict : Prop) (w : World) : Prop where
  kept : Kept loaded w
  running : w.status ≠ .panicked
  sound : w.status = .idle → Sound w
  matched : strict → w.status = .idle → saved w = w.stored
  calls : ∀ call ∈ w.calls, CallSafe call

variable {templates : Templates} {checkpoints : List Checkpoint} {loaded}

theorem le_last {l : List Checkpoint} {ck : Checkpoint} (h : Ascending l) (hm : ck ∈ l)
    (hne : l ≠ []) : ck.number ≤ (l.getLast hne).number := by
  have hsplit := dropLast_append_getLast hne
  rw [← hsplit] at hm
  rcases mem_append.mp hm with hd | hd
  · rw [Ascending,← hsplit,pairwise_append] at h
    exact UInt64.le_of_lt (h.2.2 ck hd _ (mem_singleton_self _))
  · rw [mem_singleton.mp hd]
    exact UInt64.le_refl _

theorem load_safe {strict : Prop}
    (h : Ascending checkpoints) : Safe checkpoints strict (load checkpoints templates) where
  kept := fun ck hm => .inl ⟨ck,hm,rfl⟩
  running := by simp [load]
  sound := by
    intro _
    refine ⟨le_rfl,h,fun ck hm => .inl ⟨ck,?_,rfl⟩,fun ck hm => ?_⟩
    · simpa [saved,load] using hm
    · exact ⟨_,by simpa [saved,load] using getLast?_eq_some_getLast (ne_nil_of_mem hm),
        le_last h hm _⟩
  matched := by simp [saved,load]
  calls := by simp [load]

variable {w : World} {b : UInt64}

theorem Backs.backed (h : Backs w b) : Backed w.stored w.timeSeries w.entity w.webhook b :=
  h.imp id fun ⟨h1,h2,h3⟩ =>
    ⟨⟨b,h1,UInt64.le_refl b⟩,⟨b,h2,UInt64.le_refl b⟩,⟨b,h3,UInt64.le_refl b⟩⟩

/-- What is backed and gets stored was loaded or is committed. -/
theorem Kept.stored (h : Kept loaded w) {list : List Checkpoint}
    (hb : ∀ ck ∈ list, Backs w ck.number) : Kept loaded {w with stored := list} := by
  intro ck hm
  rcases hb ck hm with ⟨old,hold,heq⟩ | hc
  · exact heq ▸ h old hold
  · exact .inr hc

theorem reaches_self {l : List Checkpoint} (h : Ascending l) : Reaches l l := fun _ hm =>
  ⟨_,getLast?_eq_some_getLast (ne_nil_of_mem hm),le_last h hm _⟩

theorem getTemplates_saved (c : Controller) (h : c.savedCheckpoints ≤ c.checkpoints.length) :
    ∃ templates, getTemplates c true = some templates := by
  by_cases hz : c.savedCheckpoints = 0
  · exact ⟨[],by simp [getTemplates,hz]⟩
  have hlt : c.savedCheckpoints-1 < c.checkpoints.length := by omega
  exact ⟨upTo c.templates (c.checkpoints[c.savedCheckpoints-1]).number,
    by simp [getTemplates,hz,getElem?_eq_getElem hlt]⟩

variable {c : Controller}

theorem getLatestCheckpoint_saved (h : c.savedCheckpoints ≤ c.checkpoints.length) :
    (getLatestCheckpoint c true).isSome := by
  by_cases hz : c.savedCheckpoints = 0
  · simp [getLatestCheckpoint,hz]
  · have hlt : c.savedCheckpoints-1 < c.checkpoints.length := by omega
    simp [getLatestCheckpoint,hz,getElem?_eq_getElem hlt]

variable {strict : Prop}

/-- Safety depends on the checkpoint list only, not on the other fields of the
controller. -/
theorem withController_safe (c : Controller) (hs : Safe loaded strict w)
    (hl : w.status = .idle → c.savedCheckpoints ≤ c.checkpoints.length)
    (ha : w.status = .idle → Ascending c.checkpoints)
    (ht : w.status = .idle → c.checkpoints.take c.savedCheckpoints = saved w) :
    Safe loaded strict (withController w c) where
  kept := hs.kept
  running := hs.running
  sound := fun hi => ⟨hl hi,ha hi,fun ck hm => (hs.sound hi).backed ck (ht hi ▸ hm),by
    rw [saved,withController]
    exact (ht hi).symm ▸ (hs.sound hi).behind⟩
  matched := fun he hi => (ht hi).trans (hs.matched he hi)
  calls := hs.calls

theorem abort_eq (h : w.controller.savedCheckpoints ≤ w.controller.checkpoints.length) :
    ∃ templates, abort w = withController w {w.controller with
      checkpoints := saved w
      templates := templates
      unsavedTemplates := []
      stopped := true} := by
  obtain ⟨templates,ht⟩ := getTemplates_saved
    {w.controller with checkpoints := w.controller.checkpoints.take w.controller.savedCheckpoints}
    (by simp [h])
  exact ⟨templates,by simp [abort,ht,saved]⟩

theorem abort_safe (hs : Safe loaded strict w) (hi : w.status = .idle) : Safe loaded strict (abort w) := by
  have hsound := hs.sound hi
  obtain ⟨templates,ht⟩ := abort_eq hsound.le
  rw [ht]
  apply withController_safe _ hs
  · simp [saved,hsound.le]
  · intro _
    exact hsound.ascending.sublist (take_sublist _ _)
  · simp [saved,take_take]

variable {cc : ℕ}

structure Thins (c : Controller) (cc : ℕ) (t : Controller) : Prop where
  pos : 0 < t.savedCheckpoints
  le : t.savedCheckpoints ≤ t.checkpoints.length
  sublist : t.checkpoints.Sublist c.checkpoints
  kept : (t.checkpoints.take t.savedCheckpoints).Sublist (c.checkpoints.take cc)
  first : (t.checkpoints.take t.savedCheckpoints).head? = (c.checkpoints.take cc).head?
  last : (t.checkpoints.take t.savedCheckpoints).getLast? = (c.checkpoints.take cc).getLast?

theorem thinned_thins (h1 : 0 < cc) (h2 : cc ≤ c.checkpoints.length) :
    Thins c cc (thinned c cc) := by
  have hlen : (c.checkpoints.take cc).length = cc := by simp [h2]
  generalize hr : removeWithMultiplier (c.checkpoints.take cc) Checkpoint.number
    (max c.sparsifyMultiplier 2/2) (max c.sparsifyMultiplier 2) = removed
  have hb : ∀ i ∈ removed, 1 ≤ i ∧ i+1 < cc := by
    intro i hi
    rw [← hr] at hi
    have := removeWithMultiplier_bounds hi
    omega
  have hin : ∀ i ∈ removed, i < (c.checkpoints.take cc).length := by
    intro i hi
    have := hb i hi
    omega
  have hn : removed.Nodup := hr ▸ removeWithMultiplier_nodup _ _ _ _
  have hfirst := removeByIndex_head (c.checkpoints.take cc) (fun i hi => (hb i hi).1)
  have hlast : (removeByIndex (c.checkpoints.take cc) removed).getLast? =
      (c.checkpoints.take cc).getLast? := by
    have hne : c.checkpoints.take cc ≠ [] := by
      rw [← length_pos_iff]
      omega
    rw [← dropLast_append_getLast hne,removeByIndex_append]
    · simp
    intro i hi
    have := hb i hi
    simp only [length_dropLast]
    omega
  have hs : (thinned c cc).savedCheckpoints =
      (removeByIndex (c.checkpoints.take cc) removed).length := by
    have := removeByIndex_length _ hn hin
    show cc-_ = _
    rw [hr]
    omega
  have hc : (thinned c cc).checkpoints =
      removeByIndex (c.checkpoints.take cc) removed++c.checkpoints.drop cc := by
    rw [← removeByIndex_append _ _ _ hin,take_append_drop,← hr]
    rfl
  have hsub := removeByIndex_sublist (c.checkpoints.take cc) removed
  have hpos : 0 < (removeByIndex (c.checkpoints.take cc) removed).length := by
    rw [length_pos_iff]
    intro he
    rw [he,getLast?_nil,eq_comm,getLast?_eq_none_iff,← length_eq_zero_iff] at hlast
    omega
  constructor
  · rwa [hs]
  · simp [hs,hc]
  · rw [hc]
    simpa using hsub.append (Sublist.refl (c.checkpoints.drop cc))
  all_goals
    rw [hs,hc,take_left]
    assumption

theorem callStore_safe (list : List Checkpoint) (templates : Templates) (hs : Safe loaded strict w)
    (ha : Ascending list) (hb : ∀ ck ∈ list, Backs w ck.number) :
    Safe loaded strict (callStore w list templates) where
  __ := hs
  sound := fun hi => {hs.sound hi with}
  calls := by
    intro call hm
    rcases mem_append.mp hm with h | h
    · exact hs.calls call h
    · rw [mem_singleton.mp h]
      exact ⟨ha,fun last hl => (hb last (mem_of_getLast? hl)).backed⟩

variable (loaded) in
structure Looping (w : World) (cc : ℕ) : Prop where
  kept : Kept loaded w
  idle : w.status = .idle
  pos : 0 < cc
  le : cc ≤ w.controller.checkpoints.length
  ascending : Ascending w.controller.checkpoints
  backed : ∀ ck ∈ w.controller.checkpoints.take cc, Backs w ck.number
  behind : Reaches (w.controller.checkpoints.take cc) w.stored
  calls : ∀ call ∈ w.calls, CallSafe call

theorem looping_thinned (h : Looping loaded w cc) :
    Looping loaded (withController w (thinned w.controller cc)) (thinned w.controller cc).savedCheckpoints := by
  have ht := thinned_thins h.pos h.le
  exact ⟨h.kept,h.idle,ht.pos,ht.le,h.ascending.sublist ht.sublist,
    fun ck hm => h.backed ck (ht.kept.subset hm),fun ck hm => ht.last ▸ h.behind ck hm,h.calls⟩

theorem looping_running (h : Looping loaded w cc) : w.status ≠ .panicked := by
  rw [h.idle]
  simp

theorem looping_call (templates : Templates) (h : Looping loaded w cc) :
    Looping loaded (callStore w (w.controller.checkpoints.take cc) templates) cc := by
  refine {h with calls := fun call hm => ?_}
  rcases mem_append.mp hm with hc | hc
  · exact h.calls call hc
  rw [mem_singleton.mp hc]
  refine ⟨h.ascending.sublist (take_sublist _ _),fun last hl => ?_⟩
  exact (h.backed last (mem_of_getLast? hl)).backed

theorem saveLoop_safe {savedAt : ℤ} {answers : List StoreAnswer} (h : Looping loaded w cc)
    (he : strict → .failed ∉ answers) : Safe loaded strict (saveLoop savedAt w cc answers) := by
  induction answers generalizing w cc with
  | nil =>
    refine ⟨h.kept,by simp [saveLoop],by simp [saveLoop],by simp [saveLoop],h.calls⟩
  | cons answer rest ih =>
    have ht := looping_thinned h
    obtain ⟨templates,hg⟩ := getTemplates_saved (thinned w.controller cc) ht.le
    have hc := looping_call templates ht
    have hrun := looping_running hc
    simp only [saveLoop,hg]
    cases answer with
    | ok =>
      refine ⟨hc.kept.stored hc.backed,hrun,fun _ => ⟨hc.le,hc.ascending,?_,?_⟩,fun _ _ => rfl,
        hc.calls⟩
      · exact fun ck hm => .inl ⟨ck,hm,rfl⟩
      · exact reaches_self (hc.ascending.sublist (take_sublist _ _))
    | tooBig =>
      apply ih
      · exact {hc with}
      · intro hx hm
        exact he hx (mem_cons_of_mem _ hm)
    | failed =>
      have hx : ¬strict := fun hx => he hx mem_cons_self
      apply abort_safe
      · exact ⟨hc.kept,hrun,fun _ => {hc with},fun hy => absurd hy hx,hc.calls⟩
      · exact hc.idle

/-- The commits change nothing but the lists of committed blocks, which grow. After success the
block itself is committed. -/
theorem commits_spec {input : SaveInput} : (∃ timeSeries entity webhook, (commits w input b).1 =
      {w with timeSeries := timeSeries, entity := entity, webhook := webhook}) ∧
    (∀ d, Committed w d → Committed (commits w input b).1 d) ∧
    ((commits w input b).2 → Committed (commits w input b).1 b) := by
  rcases h1 : input.timeSeries with _ | _ <;> rcases h2 : input.entity with _ | _ <;>
    rcases h3 : input.webhook with _ | _ <;> cases h4 : input.usage <;>
    simp only [commits,h1,h2,h3,h4] <;>
    refine ⟨⟨_,_,_,rfl⟩,fun d hd => ?_,fun h => ?_⟩ <;> simp_all [Committed]

variable {cur : Checkpoint} {l : List Checkpoint}

theorem skipped_spec {n : ℕ} (hn : n < cc) (hcc : cc ≤ l.length) (hcur : l[cc-1]? = some cur) :
    (l.take n++l.drop (cc-1)).Sublist l ∧ (l.take n++l.drop (cc-1)).take n = l.take n ∧
      (l.take n++l.drop (cc-1)).take (n+1) = l.take n++[cur] ∧
      n+1 ≤ (l.take n++l.drop (cc-1)).length := by
  have hlen : (l.take n).length = n := by
    simp only [length_take]
    omega
  have hd : l.drop (cc-1) = cur::l.drop cc := by
    have hlt : cc-1 < l.length := by omega
    rw [drop_eq_getElem_cons hlt]
    rw [getElem?_eq_getElem hlt] at hcur
    rw [Option.some.inj hcur,show cc-1+1 = cc by omega]
  have htake : (l.take n++l.drop (cc-1)).take n = l.take n := by
    rw [take_append_of_le_length (by omega),take_take,Nat.min_self]
  refine ⟨?_,htake,?_,?_⟩
  · conv_rhs => rw [← take_append_drop n l]
    apply List.Sublist.append (List.Sublist.refl _)
    exact drop_sublist_drop_left l (by omega)
  · rw [hd]
    conv_lhs => rw [← singleton_append,← append_assoc]
    rw [take_append_of_le_length (by simp; omega),take_of_length_le (by simp)]
  rw [hd]
  simp only [length_append,length_cons]
  omega

variable {input : SaveInput}

theorem saveUpTo_safe
    (hs : Safe loaded strict w) (hi : w.status = .idle) (hn : w.controller.savedCheckpoints < cc)
    (hcc : cc ≤ w.controller.checkpoints.length) (hcur : w.controller.checkpoints[cc-1]? = some cur)
    (he : strict → .failed ∉ input.store) : Safe loaded strict (saveUpTo w cc cur input) := by
  obtain ⟨h1,h2,h3,h4⟩ := skipped_spec hn hcc hcur
  have hsound := hs.sound hi
  have hw := withController_safe (skipped w.controller cc) hs
    (fun _ => le_trans (Nat.le_succ _) h4) (fun _ => hsound.ascending.sublist h1) (fun _ => h2)
  cases hq : input.quota with
  | ok =>
    obtain ⟨⟨ts,en,wh,hc⟩,hk,hb⟩ := commits_spec
    simp only [saveUpTo,hq]
    split
    · rename_i hok
      have hcur' := hb hok
      refine saveLoop_safe (show Looping loaded _ _ from ?_) he
      rw [hc] at hk hcur' ⊢
      refine ⟨fun ck hm => (hs.kept ck hm).imp id (hk _),hi,Nat.succ_pos _,h4,
        hsound.ascending.sublist h1,?_,?_,hs.calls⟩
      · intro ck hm
        have hm' : ck ∈ saved w++[cur] := by
          rw [saved,← h3]
          exact hm
        rcases mem_append.mp hm' with hm' | hm'
        · exact (hsound.backed ck hm').imp id (hk _)
        · rw [mem_singleton.mp hm']
          exact .inr hcur'
      · intro ck hm
        obtain ⟨top,htop,hle⟩ := hsound.behind ck hm
        refine ⟨cur,by simp only [withController,skipped]; rw [h3,getLast?_concat],?_⟩
        have hlast : Ascending (saved w++[cur]) := by
          rw [saved,← h3]
          exact (hsound.ascending.sublist h1).sublist (take_sublist _ _)
        exact UInt64.le_trans hle (UInt64.le_of_lt
          ((pairwise_append.mp hlast).2.2 top (mem_of_getLast? htop) cur (mem_singleton_self _)))
    · apply abort_safe
      · rw [hc] at hk ⊢
        refine ⟨fun ck hm => (hs.kept ck hm).imp id (hk _),hw.running,
          fun _ => ⟨(hw.sound hi).le,(hw.sound hi).ascending,?_,(hw.sound hi).behind⟩,
          fun hx _ => hw.matched hx hi,hs.calls⟩
        intro ck hm
        exact ((hw.sound hi).backed ck hm).imp id (hk _)
      · rw [hc]
        exact hi
  | overQuota | failed =>
    simp only [saveUpTo,hq]
    exact hw

theorem dueFrom_le (saveDelay : ℤ) (clock : ℕ → ℤ) (i : ℕ) (l : List Checkpoint) :
    dueFrom saveDelay clock i l ≤ l.length := by
  induction l generalizing i with
  | nil => simp [dueFrom]
  | cons ck rest ih =>
    simp only [dueFrom]
    split
    · have := ih (i+1)
      simp only [length_cons]
      omega
    · simp

theorem dueCount_bounds (cfg : Config) (saveAll : Bool) (clock : ℕ → ℤ)
    (h : c.savedCheckpoints ≤ c.checkpoints.length) :
    c.savedCheckpoints ≤ dueCount cfg c saveAll clock ∧
      dueCount cfg c saveAll clock ≤ c.checkpoints.length := by
  have hd := dueFrom_le cfg.saveDelay clock 1 (c.checkpoints.drop c.savedCheckpoints)
  rw [length_drop] at hd
  unfold dueCount
  split
  · exact ⟨h,le_rfl⟩
  · omega

variable {cfg : Config}

theorem save_safe {saveAll checkInterval : Bool} (hs : Safe loaded strict w)
    (hi : w.status = .idle) (he : strict → .failed ∉ input.store) :
    Safe loaded strict (save cfg w saveAll checkInterval input) := by
  have hsound := hs.sound hi
  have hdue := dueCount_bounds cfg saveAll input.clock hsound.le
  unfold save
  dsimp only
  split
  · exact hs
  split
  · exact hs
  split
  · exact hs
  have hlt : dueCount cfg w.controller saveAll input.clock-1 < w.controller.checkpoints.length := by
    omega
  rw [getElem?_eq_getElem hlt]
  dsimp only
  rw [if_neg (by have := hsound.le; omega)]
  apply saveUpTo_safe hs hi (by omega) (by omega) _ he
  rw [getElem?_eq_getElem hlt]

variable {ck : Checkpoint}

theorem ascending_append (h : Ascending l)
    (hl : ∀ last, l.getLast? = some last → last.number < ck.number) : Ascending (l++[ck]) := by
  rw [Ascending,pairwise_append]
  refine ⟨h,pairwise_singleton _ _,fun a ha b hb => ?_⟩
  rw [mem_singleton.mp hb]
  have hne : l ≠ [] := ne_nil_of_mem ha
  have hlast := hl (l.getLast hne) (getLast?_eq_some_getLast hne)
  have hsplit := dropLast_append_getLast hne
  rw [← hsplit] at ha
  rcases mem_append.mp ha with hd | hd
  · rw [Ascending,← hsplit,pairwise_append] at h
    exact UInt64.lt_trans (h.2.2 a hd _ (mem_singleton_self _)) hlast
  · rw [mem_singleton.mp hd]
    exact hlast

def Fresh (w : World) : Action → Prop
  | .makeCheckpoint ck _ _ =>
    ∀ last, w.controller.checkpoints.getLast? = some last → last.number < ck.number
  | _ => True

theorem append_safe (c : Controller) (ck : Checkpoint) (hs : Safe loaded strict w)
    (hi : w.status = .idle) (hc : c.checkpoints = w.controller.checkpoints++[ck])
    (hn : c.savedCheckpoints = w.controller.savedCheckpoints)
    (hf : ∀ last, w.controller.checkpoints.getLast? = some last → last.number < ck.number) :
    Safe loaded strict (withController w c) := by
  have hsound := hs.sound hi
  apply withController_safe c hs
  · intro _
    rw [hc,hn,length_append]
    exact le_trans hsound.le (Nat.le_add_right _ _)
  · intro _
    rw [hc]
    exact ascending_append hsound.ascending hf
  intro _
  rw [hc,hn,take_append_of_le_length hsound.le]
  rfl

theorem unchanged_safe (c : Controller) (hs : Safe loaded strict w)
    (hc : c.checkpoints = w.controller.checkpoints)
    (hn : c.savedCheckpoints = w.controller.savedCheckpoints) :
    Safe loaded strict (withController w c) := by
  apply withController_safe c hs
  · intro hi
    rw [hc,hn]
    exact (hs.sound hi).le
  · intro hi
    rw [hc]
    exact (hs.sound hi).ascending
  intro _
  rw [hc,hn]
  rfl

theorem makeCheckpoint_safe {cachedTooMuch : Bool} (hs : Safe loaded strict w) (hi : w.status = .idle)
    (hf : ∀ last, w.controller.checkpoints.getLast? = some last → last.number < ck.number)
    (he : strict → .failed ∉ input.store) :
    Safe loaded strict (makeCheckpoint cfg w ck cachedTooMuch input) := by
  have happ := append_safe {w.controller with
    checkpoints := w.controller.checkpoints++[ck]} ck hs hi rfl rfl hf
  unfold makeCheckpoint
  dsimp only
  split
  · exact hs
  split
  · rename_i tpls _
    by_cases hm : minStartBlock tpls = ck.number
    · apply unchanged_safe _ hs
      · simp [confirmTemplates,hm]
      · rfl
    · apply append_safe (confirmTemplates w.controller ck tpls) ck hs hi _ rfl hf
      simp [confirmTemplates,hm]
  · split
    · exact save_safe happ hi he
    split
    · exact save_safe happ hi he
    · exact happ

theorem newTemplateInstance_safe {bn : UInt64} {tpls : List TemplateInstance} (hs : Safe loaded strict w) :
    Safe loaded strict (newTemplateInstance w bn tpls) := by
  unfold newTemplateInstance
  dsimp only
  split
  · exact hs
  split
  · exact hs
  · exact unchanged_safe _ hs rfl rfl

theorem dropTemplates_list (c : Controller) : (dropTemplates c).checkpoints = c.checkpoints ∧
    (dropTemplates c).savedCheckpoints = c.savedCheckpoints := by
  unfold dropTemplates
  split
  · exact ⟨rfl,rfl⟩
  · exact ⟨rfl,rfl⟩

/-- A rollback of saved checkpoints is taken by the store. -/
def RollbackKept (w : World) : Action → Prop
  | .cleanCheckpoint blockNumberGE answer =>
    0 < validCount w.controller blockNumberGE →
      validCount w.controller blockNumberGE < w.controller.savedCheckpoints → answer = .ok
  | _ => True

theorem validCount_le (c : Controller) (ge : UInt64) : validCount c ge ≤ c.checkpoints.length :=
  (takeWhile_sublist _).length_le

theorem rollback_safe
    (hs : Safe loaded strict w) (hi : w.status = .idle) (hlt : cc < w.controller.savedCheckpoints)
    (hc : c.checkpoints = w.controller.checkpoints.take cc)
    (hn : c.savedCheckpoints = c.checkpoints.length) :
    Safe loaded strict {callStore w (w.controller.checkpoints.take cc) templates with
      stored := w.controller.checkpoints.take cc
      controller := c} := by
  have hsound := hs.sound hi
  have hall : c.checkpoints.take c.savedCheckpoints = w.controller.checkpoints.take cc := by
    rw [hn,take_length,hc]
  have hback : ∀ ck ∈ w.controller.checkpoints.take cc, Backs w ck.number := fun ck hm =>
    hsound.backed ck ((take_sublist_take_left (by omega)).subset hm)
  have hcall := callStore_safe (w.controller.checkpoints.take cc) templates hs
    (hsound.ascending.sublist (take_sublist _ _)) hback
  refine ⟨hs.kept.stored hback,hs.running,fun _ => ⟨?_,?_,?_,?_⟩,fun _ _ => hall,hcall.calls⟩
  · exact le_of_eq hn
  · rw [hc]
    exact hsound.ascending.sublist (take_sublist _ _)
  · intro ck hm
    exact .inl ⟨ck,hall ▸ hm,rfl⟩
  · rw [saved]
    dsimp only
    rw [hall]
    exact reaches_self (hsound.ascending.sublist (take_sublist _ _))

theorem cleanCheckpoint_safe {ge : UInt64} {answer : StoreAnswer} (hs : Safe loaded strict w)
    (hi : w.status = .idle) (hk : RollbackKept w (.cleanCheckpoint ge answer)) :
    Safe loaded strict (cleanCheckpoint w ge answer) := by
  have hsound := hs.sound hi
  have hle := validCount_le w.controller ge
  have hstop := unchanged_safe {w.controller with stopped := true} hs rfl rfl
  have hvalid : validCount {w.controller with stopped := true} ge = validCount w.controller ge := rfl
  unfold cleanCheckpoint
  dsimp only
  rw [hvalid]
  split
  · rename_i hpos
    split
    · rename_i hlt
      rw [if_pos (hk hpos hlt)]
      have hd := dropTemplates_list {w.controller with
        stopped := true
        checkpoints := w.controller.checkpoints.take (validCount w.controller ge)
        savedCheckpoints := (w.controller.checkpoints.take (validCount w.controller ge)).length}
      exact rollback_safe hs hi hlt hd.1 (by rw [hd.1,hd.2])
    have hd := dropTemplates_list {w.controller with
      stopped := true
      checkpoints := w.controller.checkpoints.take (validCount w.controller ge)}
    apply withController_safe _ hs
    · rw [hd.1,hd.2,length_take]
      dsimp only
      omega
    · intro _
      rw [hd.1]
      exact hsound.ascending.sublist (take_sublist _ _)
    intro _
    rw [hd.1,hd.2,take_take,Nat.min_eq_left (by dsimp only; omega)]
    rfl
  · have hcall := callStore_safe [] [] hstop List.Pairwise.nil
      (fun ck hm => absurd hm not_mem_nil)
    split
    · refine ⟨fun ck hm => absurd hm not_mem_nil,hs.running,
        fun _ => ⟨le_rfl,List.Pairwise.nil,?_,fun ck hm => absurd hm not_mem_nil⟩,fun _ _ => rfl,
        hcall.calls⟩
      intro ck hm
      exact absurd hm (by simp [saved])
    · exact hcall

def SaveKept : Action → Prop
  | .makeCheckpoint _ _ input | .save _ input => .failed ∉ input.store
  | _ => True

/-- A reset keeps the commits that the saved and the stored checkpoints rely on. -/
theorem ready_safe {timeSeries entity webhook : Bool} (hs : Safe loaded strict w)
    (hi : w.status = .idle) : Safe loaded strict (ready w timeSeries entity webhook) := by
  have hsound := hs.sound hi
  have hcut : ∀ ck ∈ saved w, ∀ d ≤ ck.number, ∀ committed : List UInt64, d ∈ committed →
      d ∈ resetTo w.controller committed := by
    intro ck hm d hd committed hmem
    have hin : ck ∈ w.controller.checkpoints := mem_of_mem_take hm
    rw [resetTo,getLast?_eq_some_getLast (ne_nil_of_mem hin)]
    exact mem_filter.mpr ⟨hmem,by
      simpa using UInt64.le_trans hd (le_last hsound.ascending hin _)⟩
  have hkeep : ∀ ck ∈ saved w, ∀ d ≤ ck.number, Committed w d →
      Committed (ready w timeSeries entity webhook) d := by
    rintro ck hm d hd ⟨h1,h2,h3⟩
    have h := hcut ck hm d hd
    cases timeSeries <;> cases entity <;> cases webhook <;> simp_all [Committed,ready]
  have hlist : (ready w timeSeries entity webhook).controller.checkpoints =
        w.controller.checkpoints ∧ (ready w timeSeries entity webhook).controller.savedCheckpoints =
        w.controller.savedCheckpoints := by
    simp only [ready]
    split_ifs <;> exact ⟨rfl,rfl⟩
  have hsaved : saved (ready w timeSeries entity webhook) = saved w := by
    rw [saved,hlist.1,hlist.2,saved]
  refine ⟨fun ck hm => ?_,hs.running,fun _ => ⟨?_,?_,?_,?_⟩,fun he _ => ?_,hs.calls⟩
  · obtain ⟨top,htop,hle⟩ := hsound.behind ck hm
    exact (hs.kept ck hm).imp id (hkeep top (mem_of_getLast? htop) _ hle)
  · rw [hlist.1,hlist.2]
    exact hsound.le
  · rw [hlist.1]
    exact hsound.ascending
  · intro ck hm
    rw [hsaved] at hm
    exact (hsound.backed ck hm).imp id (hkeep ck hm _ (UInt64.le_refl _))
  · rw [hsaved]
    exact hsound.behind
  · rw [hsaved]
    exact hs.matched he hi

theorem step_safe (w : World) {act : Action} {w' : World}
    (hs : Safe loaded strict w) (hg : Fresh w act ∧ RollbackKept w act ∧ (strict → SaveKept act))
    (h : step cfg w act = some w') : Safe loaded strict w' := by
  simp only [step,Option.ite_none_right_eq_some,Option.some.injEq] at h
  obtain ⟨hi,rfl⟩ := h
  obtain ⟨hf,hr,hk⟩ := hg
  cases act with
  | newTemplateInstance bn tpls => exact newTemplateInstance_safe hs
  | makeCheckpoint ck cachedTooMuch input =>
    exact makeCheckpoint_safe hs hi hf hk
  | save saveAll input => exact save_safe hs hi hk
  | cleanCheckpoint ge answer => exact cleanCheckpoint_safe hs hi hr
  | ready timeSeries entity webhook => exact ready_safe hs hi

theorem run_safe (strict : Prop) {acts : List Action} (hasc : Ascending checkpoints)
    (hg : Throughout (step cfg)
      (fun w a => Fresh w a ∧ RollbackKept w a ∧ (strict → SaveKept a))
      (load checkpoints templates) acts)
    (h : run (step cfg) (load checkpoints templates) acts = some w) :
    Safe checkpoints strict w :=
  run_invariant_throughout (step cfg) _ (Safe checkpoints strict) step_safe acts _ w
    (load_safe hasc) hg h

/-- In a run in which the store loses no write, the saved prefix is what the
store holds, and no access by the saved count leaves the list. -/
theorem saved_prefix_is_stored (cfg : Config) (checkpoints : List Checkpoint)
    (templates : Templates) (acts : List Action) (w : World) (hasc : Ascending checkpoints)
    (hg : Throughout (step cfg)
      (fun w a => Fresh w a ∧ RollbackKept w a ∧ SaveKept a) (load checkpoints templates) acts)
    (h : run (step cfg) (load checkpoints templates) acts = some w) :
    w.status ≠ .panicked ∧ (w.status = .idle →
      w.controller.savedCheckpoints ≤ w.controller.checkpoints.length ∧
      Ascending w.controller.checkpoints ∧
      w.controller.checkpoints.take w.controller.savedCheckpoints = w.stored ∧
      (getLatestCheckpoint w.controller true).isSome ∧
      (getTemplates w.controller true).isSome) := by
  have hs := run_safe True hasc
    (throughout_mono _ (fun w a hw => ⟨hw.1,hw.2.1,fun _ => hw.2.2⟩) _ _ hg) h
  refine ⟨hs.running,fun hi => ?_⟩
  have hsound := hs.sound hi
  obtain ⟨tpls,ht⟩ := getTemplates_saved w.controller hsound.le
  exact ⟨hsound.le,hsound.ascending,hs.matched trivial hi,
    getLatestCheckpoint_saved hsound.le,by rw [ht]; rfl⟩

def plain (n : UInt64) : Checkpoint := ⟨n,0,0⟩

def answering (store : List StoreAnswer) : SaveInput :=
  ⟨fun _ => 1000,.ok,true,true,true,true,store,1001⟩

theorem saved_prefix_after_retry : ∃ w, run (step ⟨0,10,100⟩) (load [plain 10] [])
      [.makeCheckpoint (plain 11) false (answering [.tooBig,.ok])] = some w ∧
      w.controller.checkpoints.take w.controller.savedCheckpoints = w.stored := by
  have hst : (run (step ⟨0,10,100⟩) (load [plain 10] [])
      [.makeCheckpoint (plain 11) false (answering [.tooBig,.ok])]).map World.status =
      some .idle := by decide
  obtain ⟨w,hw,hi⟩ := Option.map_eq_some_iff.mp hst
  refine ⟨w,hw,?_⟩
  have hg : Throughout (step ⟨0,10,100⟩)
      (fun w a => Fresh w a ∧ RollbackKept w a ∧ SaveKept a) (load [plain 10] [])
      [.makeCheckpoint (plain 11) false (answering [.tooBig,.ok])] := by
    refine ⟨⟨?_,trivial,by simp [SaveKept,answering]⟩,fun _ _ => trivial⟩
    intro last hl
    cases hl
    decide
  exact ((saved_prefix_is_stored ⟨0,10,100⟩ [plain 10] [] _ w
    (pairwise_singleton _ _) hg hw).2 hi).2.2.1

/-- A failed rollback leaves the saved count above the length of the list, and
a failed save counts a checkpoint as saved that the store does not hold. -/
theorem failed_store_write_breaks_saved :
    (run (step ⟨0,10,100⟩) (load [plain 10,plain 20,plain 30] [])
      [.cleanCheckpoint 15 .failed]).map (fun w => (w.controller.savedCheckpoints,
        w.controller.checkpoints,getLatestCheckpoint w.controller true,
        getTemplates w.controller true)) = some (3,[plain 10],none,none) ∧
    (run (step ⟨0,10,100⟩) (load [plain 10] [])
      [.makeCheckpoint (plain 11) false (answering [.failed])]).map (fun w =>
        (w.controller.checkpoints.take w.controller.savedCheckpoints,w.stored)) =
      some ([plain 10,plain 11],[plain 10]) := ⟨rfl,rfl⟩

/-- In a run in which every rollback of saved checkpoints is taken by the store,
no list handed to the store ends above the committed data, and neither does what is stored:
after a crash the latest stored checkpoint was loaded or is committed. -/
theorem store_never_ahead (cfg : Config) (checkpoints : List Checkpoint)
    (templates : Templates) (acts : List Action) (w : World) (hasc : Ascending checkpoints)
    (hg : Throughout (step cfg) (fun w a => Fresh w a ∧ RollbackKept w a)
      (load checkpoints templates) acts)
    (h : run (step cfg) (load checkpoints templates) acts = some w) :
    (∀ call ∈ w.calls, Ascending call.checkpoints ∧
      ∀ last, call.checkpoints.getLast? = some last →
        (∃ ck ∈ call.stored, ck.number = last.number) ∨
          (Covered call.timeSeries last.number ∧ Covered call.entity last.number ∧
            Covered call.webhook last.number)) ∧
    ∀ last, w.stored.getLast? = some last →
      (∃ ck ∈ checkpoints, ck.number = last.number) ∨
        (last.number ∈ w.timeSeries ∧ last.number ∈ w.entity ∧ last.number ∈ w.webhook) := by
  have hs := run_safe False hasc
    (throughout_mono _ (fun w a hw => ⟨hw.1,hw.2,fun hf => hf.elim⟩) _ _ hg) h
  exact ⟨hs.calls,fun last hl => hs.kept last (mem_of_getLast? hl)⟩

theorem store_never_ahead_failing : ∃ w, run (step ⟨0,10,100⟩) (load [plain 10] [])
      [.makeCheckpoint (plain 11) false (answering [.tooBig,.failed])] = some w ∧
      ∀ call ∈ w.calls, Ascending call.checkpoints := by
  have hst : ((run (step ⟨0,10,100⟩) (load [plain 10] [])
      [.makeCheckpoint (plain 11) false (answering [.tooBig,.failed])]).isSome) := by decide
  obtain ⟨w,hw⟩ := Option.isSome_iff_exists.mp hst
  refine ⟨w,hw,fun call hc => ?_⟩
  have hg : Throughout (step ⟨0,10,100⟩)
      (fun w a => Fresh w a ∧ RollbackKept w a) (load [plain 10] [])
      [.makeCheckpoint (plain 11) false (answering [.tooBig,.failed])] := by
    refine ⟨⟨?_,trivial⟩,fun _ _ => trivial⟩
    intro last hl
    cases hl
    decide
  exact ((store_never_ahead ⟨0,10,100⟩ [plain 10] [] _ w (pairwise_singleton _ _) hg hw).1
    call hc).1

/-- After a failed rollback the stale saved count makes a later rollback write a
checkpoint that was neither committed nor stored. -/
theorem uncommitted_checkpoint_stored :
    (run (step ⟨5,10,100⟩) (load [plain 10,plain 20,plain 30] [])
      [.cleanCheckpoint 15 .failed,.ready true true true,.makeCheckpoint (plain 16) false (answering []),
        .makeCheckpoint (plain 17) false (answering []),.cleanCheckpoint 17 .ok]).map
      (fun w => w.calls.getLast?) =
      some (some ⟨[plain 10,plain 16],[],[plain 10,plain 20,plain 30],[],[],[]⟩) ∧
    ¬CallSafe ⟨[plain 10,plain 16],[],[plain 10,plain 20,plain 30],[],[],[]⟩ := by
  refine ⟨by decide,fun h => ?_⟩
  rcases h.2 (plain 16) rfl with ⟨ck,hm,hn⟩ | ⟨⟨c,hc,-⟩,-⟩
  · revert ck
    decide
  · cases hc

end Sentio.CheckpointSafety
