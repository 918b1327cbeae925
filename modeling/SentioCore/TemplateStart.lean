import SentioCore.CheckpointModel
import SentioCore.WordArith

/-!
# Checkpoints of blocks that create templates

The checkpoint of a block is refused when the earliest start among the block's
new instances is the block itself. An instance that switches a template off
keeps the start it was given, so one that starts below the block hides the
instances that switch a template on from the block on.
-/

namespace Sentio.TemplateStart
open CheckpointModel TemplateModel WordArith Transition List

/-- An unsaved instance that switches a template on starts at its block or later. -/
def StartsLate (unsaved : Templates) : Prop :=
  ∀ e ∈ unsaved, ∀ tpl ∈ e.2, tpl.removed = false → e.1 ≤ tpl.blockRange.start

theorem startsLate_nil : StartsLate [] := fun _ he => absurd he not_mem_nil

variable {m : Templates}

theorem startsLate_subset {n : Templates} (h : StartsLate n) (hs : m ⊆ n) : StartsLate m :=
  fun e he => h e (hs he)

variable {tpl : TemplateInstance} {bn : UInt64}

theorem resetStart_late
    (h : (resetStart bn tpl).removed = false) : bn ≤ (resetStart bn tpl).blockRange.start := by
  unfold resetStart at h ⊢
  split_ifs at h ⊢ with hc
  · exact UInt64.le_refl bn
  · have : ¬tpl.blockRange.start < bn := by simpa [h] using hc
    exact UInt64.not_lt.mp this

variable {tpls : List TemplateInstance}

theorem accepted_late {existing : List TemplateInstance}
    (ht : tpl ∈ (acceptInstances existing bn tpls).1) (h : tpl.removed = false) :
    bn ≤ tpl.blockRange.start := by
  induction tpls with
  | nil => simp [acceptInstances] at ht
  | cons a rest ih =>
    simp only [acceptInstances] at ht
    split at ht
    · exact ih ht
    · simp at ht
    rcases mem_cons.mp ht with rfl | ht
    · exact resetStart_late h
    · exact ih ht

theorem put_late (hm : StartsLate m)
    (ht : ∀ tpl ∈ tpls, tpl.removed = false → bn ≤ tpl.blockRange.start) :
    StartsLate (put m bn tpls) := by
  intro e he tpl htpl hr
  unfold put at he
  split_ifs at he
  · obtain ⟨d,hd,rfl⟩ := mem_map.mp he
    by_cases hb : d.1 = bn
    · rw [if_pos hb] at htpl ⊢
      rcases mem_append.mp htpl with htpl | htpl
      · exact hm d hd tpl htpl hr
      · exact hb ▸ ht tpl htpl hr
    · rw [if_neg hb] at htpl ⊢
      exact hm d hd tpl htpl hr
  · rcases mem_append.mp he with he | he
    · exact hm e he tpl htpl hr
    · rw [mem_singleton.mp he] at htpl ⊢
      exact ht tpl htpl hr

def Late (w : World) : Prop := StartsLate w.controller.unsavedTemplates

variable {w : World} {input : SaveInput} {cfg : Config}

theorem commits_controller {b : UInt64} : (commits w input b).1.controller = w.controller := by
  simp only [commits]
  repeat' split
  all_goals rfl

theorem dropTemplates_unsaved {c : Controller} :
    (dropTemplates c).unsavedTemplates ⊆ c.unsavedTemplates := by
  unfold dropTemplates
  split
  · exact List.Subset.refl _
  · exact filter_sublist.subset

section
variable (h : Late w)
include h

theorem newTemplateInstance_late : Late (newTemplateInstance w bn tpls) := by
  unfold newTemplateInstance
  dsimp only
  split_ifs
  · exact h
  · exact h
  · exact put_late h (fun tpl ht => accepted_late ht)

theorem abort_late : Late (abort w) := by
  unfold abort
  dsimp only
  split
  · exact h
  · exact startsLate_nil

theorem commits_late {b : UInt64} : Late (commits w input b).1 := by
  rwa [Late,commits_controller]

theorem saveLoop_late {savedAt : ℤ} {answers : List StoreAnswer} (cc : ℕ) :
    Late (saveLoop savedAt w cc answers) := by
  induction answers generalizing w cc with
  | nil => exact h
  | cons answer rest ih =>
    rcases hg : getTemplates (thinned w.controller cc) true with _ | templates
    · simp only [saveLoop,hg]
      exact h
    simp only [saveLoop,hg]
    cases answer with
    | ok => exact h
    | tooBig => exact ih (by exact h) _
    | failed => exact abort_late h

theorem save_late {saveAll checkInterval : Bool} :
    Late (save cfg w saveAll checkInterval input) := by
  unfold save
  dsimp only
  repeat' split
  all_goals try exact h
  unfold saveUpTo
  dsimp only
  split
  · split
    · exact saveLoop_late (commits_late (by exact h)) _
    · exact abort_late (commits_late (by exact h))
  · exact h

theorem makeCheckpoint_late {ck : Checkpoint} {cachedTooMuch : Bool} :
    Late (makeCheckpoint cfg w ck cachedTooMuch input) := by
  unfold makeCheckpoint
  dsimp only
  split
  · exact h
  split
  · exact startsLate_nil
  split
  · exact save_late (by exact h)
  split
  · exact save_late (by exact h)
  · exact h

theorem cleanCheckpoint_late {ge : UInt64} {answer : StoreAnswer} :
    Late (cleanCheckpoint w ge answer) := by
  unfold cleanCheckpoint
  dsimp only
  repeat' split
  all_goals first
    | exact startsLate_subset h dropTemplates_unsaved
    | exact startsLate_nil
    | exact h

theorem ready_late {timeSeries entity webhook : Bool} : Late (ready w timeSeries entity webhook) := by
  cases timeSeries <;> cases entity <;> cases webhook <;> exact h

theorem step_late {t : World} {act : Action} (hs : step cfg w act = some t) : Late t := by
  unfold step at hs
  split_ifs at hs
  rw [← Option.some.inj hs]
  cases act with
  | newTemplateInstance bn tpls => exact newTemplateInstance_late h
  | makeCheckpoint ck cachedTooMuch input => exact makeCheckpoint_late h
  | save saveAll input => exact save_late h
  | cleanCheckpoint ge answer => exact cleanCheckpoint_late h
  | ready timeSeries entity webhook => exact ready_late h

end

theorem run_late {checkpoints : List Checkpoint} {templates : Templates} {acts : List Action}
    (h : run (step cfg) (load checkpoints templates) acts = some w) : Late w :=
  run_invariant (step cfg) Late (fun w act t hw ht => step_late hw ht) acts _ w
    (by exact startsLate_nil) h

theorem foldl_min_iff {m : UInt64} : bn ≤ tpls.foldl (fun m t => min m t.blockRange.start) m ↔
      bn ≤ m ∧ ∀ t ∈ tpls, bn ≤ t.blockRange.start := by
  induction tpls generalizing m with
  | nil => simp
  | cons t rest ih =>
    rw [foldl_cons,ih,forall_mem_cons,UInt64.le_iff_toNat_le,toNat_min,le_min_iff,
      ← UInt64.le_iff_toNat_le,← UInt64.le_iff_toNat_le,and_assoc]

theorem le_minStartBlock : bn ≤ minStartBlock tpls ↔ ∀ t ∈ tpls, bn ≤ t.blockRange.start := by
  rw [minStartBlock,foldl_min_iff]
  refine and_iff_right ?_
  have := word_lt bn
  have hm : RangeModel.maxUint64.toNat = (2^64-1) := rfl
  rw [UInt64.le_iff_toNat_le]
  omega

theorem minStartBlock_le {t : TemplateInstance} (ht : t ∈ tpls) :
    minStartBlock tpls ≤ t.blockRange.start :=
  le_minStartBlock.mp (UInt64.le_refl _) t ht

/-- An instance that switches a template on starts at the block, and one that
switches a template off starts below it. -/
def Hidden (bn : UInt64) (tpls : List TemplateInstance) : Prop :=
  (∃ tpl ∈ tpls, tpl.removed = false ∧ tpl.blockRange.start = bn) ∧
    ∃ tpl ∈ tpls, tpl.removed ∧ tpl.blockRange.start < bn

theorem lookup_entry (h : lookup m bn = some tpls) : (bn,tpls) ∈ m := by
  obtain ⟨e,he,rfl⟩ := Option.map_eq_some_iff.mp h
  have hk : e.1 = bn := by simpa using List.find?_some he
  rw [← hk]
  exact mem_of_find?_eq_some he

theorem minStartBlock_eq_iff (hl : ∀ tpl ∈ tpls, tpl.removed = false → bn ≤ tpl.blockRange.start)
    (hon : ∃ tpl ∈ tpls, tpl.removed = false ∧ tpl.blockRange.start = bn) :
    minStartBlock tpls = bn ↔ ¬Hidden bn tpls := by
  obtain ⟨on,hm,hr,hs⟩ := hon
  constructor
  · intro he ⟨_,off,hoff,_,hlt⟩
    exact absurd (he ▸ minStartBlock_le hoff) (UInt64.not_le.mpr hlt)
  intro hh
  apply UInt64.le_antisymm
  · exact hs ▸ minStartBlock_le hm
  rw [le_minStartBlock]
  intro t ht
  cases hrt : t.removed with
  | false => exact hl t ht hrt
  | true =>
    apply UInt64.not_lt.mp
    intro hlt
    exact hh ⟨⟨on,hm,hr,hs⟩,t,ht,hrt,hlt⟩

/-- A checkpoint is accepted only without an instance that switches a template on from its block
on, exactly when no such instance is hidden. -/
theorem accepted_checkpoint_skips_nothing_iff (cfg : Config) (checkpoints : List Checkpoint)
    (templates : Templates) (acts : List Action) (w t : World) (ck : Checkpoint)
    (cachedTooMuch : Bool) (input : SaveInput) (tpls : List TemplateInstance)
    (hrun : run (step cfg) (load checkpoints templates) acts = some w)
    (hrunning : w.controller.stopped = false)
    (hnew : lookup w.controller.unsavedTemplates ck.number = some tpls)
    (hstep : step cfg w (.makeCheckpoint ck cachedTooMuch input) = some t) :
    (t.controller.checkpoints = w.controller.checkpoints++[ck] →
        ∀ tpl ∈ tpls, tpl.removed = false → tpl.blockRange.start ≠ ck.number) ↔
      ¬Hidden ck.number tpls := by
  have hlate := run_late hrun _ (lookup_entry hnew)
  have hc : t.controller.checkpoints = if minStartBlock tpls = ck.number then
      w.controller.checkpoints else w.controller.checkpoints++[ck] := by
    unfold step at hstep
    split_ifs at hstep
    rw [← Option.some.inj hstep]
    simp [perform,makeCheckpoint,hrunning,hnew,withController,confirmTemplates]
  constructor
  · intro h hh
    have hne : minStartBlock tpls ≠ ck.number :=
      fun he => (minStartBlock_eq_iff hlate hh.1).mp he hh
    obtain ⟨on,hm,hr,hs⟩ := hh.1
    exact h (by rw [hc,if_neg hne]) on hm hr hs
  · intro hh ha on hm hr hs
    have he := (minStartBlock_eq_iff hlate ⟨on,hm,hr,hs⟩).mpr hh
    rw [hc,if_pos he] at ha
    simpa using congrArg length ha

def switched (removed : Bool) (address : String) (start : UInt64) : TemplateInstance :=
  ⟨1, "pool",address, "",removed,⟨start,none⟩⟩

def idleInput : SaveInput := ⟨fun _ => 0,.ok,true,true,true,true,[.ok],0⟩

def created (tpls : List TemplateInstance) : World :=
  withController (load [] []) {(load [] []).controller with unsavedTemplates := [(10,tpls)]}

theorem accepted_checkpoint_later_start :
    (confirmTemplates (created [switched true "0x1" 0,switched false "0x2" 11]).controller
        ⟨10,0,0⟩ [switched true "0x1" 0,switched false "0x2" 11]).checkpoints = [⟨10,0,0⟩] ∧
    (([⟨10,0,0⟩] = ([] : List Checkpoint)++[⟨10,0,0⟩] →
        ∀ tpl ∈ [switched true "0x1" 0,switched false "0x2" 11],
          tpl.removed = false → tpl.blockRange.start ≠ 10) ↔
      ¬Hidden 10 [switched true "0x1" 0,switched false "0x2" 11]) :=
  ⟨by decide,accepted_checkpoint_skips_nothing_iff ⟨1,10,100⟩ [] []
    [.newTemplateInstance 10 [switched true "0x1" 0,switched false "0x2" 11]]
    (created [switched true "0x1" 0,switched false "0x2" 11])
    (withController (created [switched true "0x1" 0,switched false "0x2" 11])
      (confirmTemplates (created [switched true "0x1" 0,switched false "0x2" 11]).controller
        ⟨10,0,0⟩ [switched true "0x1" 0,switched false "0x2" 11]))
    ⟨10,0,0⟩ false idleInput [switched true "0x1" 0,switched false "0x2" 11]
    (by decide +kernel) (by decide) (by decide) (by decide +kernel)⟩

/-- Block 10 switches one template off from block 0 on and another one on from
block 10 on, and its checkpoint is accepted. -/
theorem hidden_template_skipped : run (step ⟨1,10,100⟩) (load [] [])
      [.newTemplateInstance 10 [switched true "0x1" 0,switched false "0x2" 10]] =
        some (created [switched true "0x1" 0,switched false "0x2" 10]) ∧
    ∃ t, step ⟨1,10,100⟩ (created [switched true "0x1" 0,switched false "0x2" 10])
        (.makeCheckpoint ⟨10,0,0⟩ false idleInput) = some t ∧
      t.controller.checkpoints = [⟨10,0,0⟩] ∧
      t.controller.templates = [(10,[switched true "0x1" 0,switched false "0x2" 10])] :=
  ⟨by decide +kernel,_,rfl,by decide,by decide⟩

end Sentio.TemplateStart
