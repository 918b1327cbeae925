import SentioCore.CheckpointModel

/-!
# The templates handed to the checkpoint store

A save filters the templates by the last saved checkpoint.
-/

namespace Sentio.TemplateBounds
open CheckpointModel TemplateModel Transition List

/-- Every template of the call was created by a block up to its last checkpoint. -/
def Bounded (checkpoints : List Checkpoint) (templates : Templates) : Prop :=
  match checkpoints.getLast? with
  | none => templates = []
  | some last => ∀ e ∈ templates, e.1 ≤ last.number

instance (checkpoints : List Checkpoint) (templates : Templates) :
    Decidable (Bounded checkpoints templates) :=
  match h : checkpoints.getLast? with
  | none => decidable_of_iff (templates = []) (by simp [Bounded,h])
  | some last => decidable_of_iff (∀ e ∈ templates, e.1 ≤ last.number) (by simp [Bounded,h])

def CallBounded (call : StoreCall) : Prop := Bounded call.checkpoints call.templates

theorem getTemplates_bounded {c : Controller} {templates : Templates}
    (h : getTemplates c true = some templates) :
    Bounded (c.checkpoints.take c.savedCheckpoints) templates := by
  simp only [getTemplates,if_true] at h
  split at h
  · rename_i hz
    rw [← Option.some.inj h,hz]
    rfl
  obtain ⟨ck,hck,rfl⟩ := Option.map_eq_some_iff.mp h
  have hlt := (List.getElem?_eq_some_iff.mp hck).1
  have hlast : (c.checkpoints.take c.savedCheckpoints).getLast? = some ck := by
    rw [List.getLast?_eq_getElem?,List.length_take,Nat.min_eq_left (by omega),
      List.getElem?_take_of_lt (by omega)]
    exact hck
  rw [Bounded,hlast]
  intro e he
  simpa using (List.mem_filter.mp he).2

def AllBounded (w : World) : Prop := ∀ call ∈ w.calls, CallBounded call

variable {w t : World}

theorem allBounded_same (h : t.calls = w.calls) : AllBounded t ↔ AllBounded w := by
  rw [AllBounded,h,AllBounded]

theorem allBounded_called {c : StoreCall} (h : t.calls = w.calls++[c]) :
    AllBounded t ↔ AllBounded w ∧ CallBounded c := by
  rw [AllBounded,h,forall_mem_append,forall_mem_singleton,AllBounded]

theorem abort_calls : (abort w).calls = w.calls := by
  unfold abort
  dsimp only
  split <;> rfl

variable {input : SaveInput}

theorem commits_calls {b : UInt64} : (commits w input b).1.calls = w.calls := by
  simp only [commits]
  repeat' split
  all_goals rfl

theorem saveLoop_bounded {savedAt : ℤ} {answers : List StoreAnswer} (w : World) (cc : ℕ) :
    AllBounded (saveLoop savedAt w cc answers) ↔ AllBounded w := by
  induction answers generalizing w cc with
  | nil => rfl
  | cons answer rest ih =>
    rcases hg : getTemplates (thinned w.controller cc) true with _ | templates
    · simp only [saveLoop,hg]
      rfl
    have hb := getTemplates_bounded hg
    simp only [saveLoop,hg]
    cases answer with
    | ok => exact (allBounded_called rfl).trans (and_iff_left (by exact hb))
    | tooBig => exact (ih _ _).trans ((allBounded_called rfl).trans (and_iff_left (by exact hb)))
    | failed => exact (allBounded_called abort_calls).trans (and_iff_left (by exact hb))

variable {cfg : Config}

theorem save_bounded {saveAll checkInterval : Bool} :
    AllBounded (save cfg w saveAll checkInterval input) ↔ AllBounded w := by
  unfold save
  dsimp only
  repeat' split
  all_goals try exact Iff.rfl
  unfold saveUpTo
  dsimp only
  split
  · split
    · exact (saveLoop_bounded _ _).trans (allBounded_same commits_calls)
    · exact allBounded_same (abort_calls.trans commits_calls)
  · rfl

/-- No confirmed template was created above the checkpoints a rollback keeps. -/
def NoLaterTemplates (w : World) : Action → Prop
  | .cleanCheckpoint blockNumberGE _ =>
    0 < validCount w.controller blockNumberGE →
    validCount w.controller blockNumberGE < w.controller.savedCheckpoints →
    Bounded (w.controller.checkpoints.take (validCount w.controller blockNumberGE))
      w.controller.templates
  | _ => True

theorem cleanCheckpoint_bounded {ge : UInt64} {answer : StoreAnswer} :
    AllBounded (cleanCheckpoint w ge answer) ↔
      AllBounded w ∧ NoLaterTemplates w (.cleanCheckpoint ge answer) := by
  have hvalid : validCount {w.controller with stopped := true} ge = validCount w.controller ge := rfl
  unfold cleanCheckpoint
  dsimp only
  rw [hvalid]
  by_cases hpos : 0 < validCount w.controller ge
  · rw [if_pos hpos]
    by_cases hlt : validCount w.controller ge < w.controller.savedCheckpoints
    · rw [if_pos hlt,allBounded_called (c := callOf w (w.controller.checkpoints.take
        (validCount w.controller ge)) w.controller.templates) (by split <;> rfl)]
      exact and_congr_right' ⟨fun h _ _ => h,fun h => h hpos hlt⟩
    · rw [if_neg hlt]
      exact (and_iff_left fun _ h => absurd h hlt).symm
  · rw [if_neg hpos,allBounded_called (c := callOf w [] []) (by split <;> rfl)]
    exact and_congr_right' ⟨fun _ h => absurd h hpos,fun _ => rfl⟩

theorem perform_bounded (act : Action) :
    AllBounded (perform cfg w act) ↔ AllBounded w ∧ NoLaterTemplates w act := by
  cases act with
  | newTemplateInstance bn tpls =>
    refine Iff.trans ?_ (and_iff_left trivial).symm
    simp only [perform,newTemplateInstance]
    repeat' split
    all_goals rfl
  | makeCheckpoint ck cachedTooMuch input =>
    refine Iff.trans ?_ (and_iff_left trivial).symm
    simp only [perform,makeCheckpoint]
    repeat' split
    all_goals first
      | exact save_bounded
      | rfl
  | save saveAll input => exact save_bounded.trans (and_iff_left trivial).symm
  | cleanCheckpoint ge answer => exact cleanCheckpoint_bounded
  | ready ok =>
    refine Iff.trans ?_ (and_iff_left trivial).symm
    simp only [perform,ready]
    split <;> rfl

theorem run_bounded_iff {acts : List Action} (s : World) (h : run (step cfg) s acts = some w) :
    AllBounded w ↔ AllBounded s ∧ Throughout (step cfg) NoLaterTemplates s acts := by
  induction acts generalizing s with
  | nil =>
    rw [← Option.some.inj h]
    exact ⟨fun hc => ⟨hc,trivial⟩,fun hc => hc.1⟩
  | cons a rest ih =>
    obtain ⟨m,hm,hr⟩ := run_cons (step cfg) s w a rest h
    have hm' := hm
    simp only [step,Option.ite_none_right_eq_some,Option.some.injEq] at hm'
    rw [ih m hr,← hm'.2,perform_bounded,hm'.2]
    constructor
    · rintro ⟨⟨hs,hn⟩,ht⟩
      refine ⟨hs,hn,fun t htt => ?_⟩
      rw [hm] at htt
      exact Option.some.inj htt ▸ ht
    · rintro ⟨hs,hn,ht⟩
      exact ⟨⟨hs,hn⟩,ht m hm⟩

/-- The stored templates are bounded by the last checkpoint exactly when no rollback of saved
checkpoints leaves a confirmed template above it. -/
theorem stored_templates_bounded_iff (cfg : Config) (checkpoints : List Checkpoint)
    (templates : Templates) (acts : List Action) (w : World)
    (h : run (step cfg) (load checkpoints templates) acts = some w) :
    (∀ call ∈ w.calls, CallBounded call) ↔
      Throughout (step cfg) NoLaterTemplates (load checkpoints templates) acts := by
  refine (run_bounded_iff _ h).trans (and_iff_right ?_)
  simp [AllBounded,load]

def created (bn : UInt64) : Templates := [(bn,[⟨1, "", "0x1", "",false,⟨bn,none⟩⟩])]

theorem stored_templates_bounded_rollback :
    ∃ w, run (step ⟨0,10,100⟩) (load [⟨10,0,0⟩,⟨20,0,0⟩] (created 5))
      [.cleanCheckpoint 15 .ok] = some w ∧ ∀ call ∈ w.calls, CallBounded call := by
  refine ⟨_,rfl,?_⟩
  rw [stored_templates_bounded_iff ⟨0,10,100⟩ [⟨10,0,0⟩,⟨20,0,0⟩] (created 5)
    [.cleanCheckpoint 15 .ok] _ rfl]
  exact ⟨fun _ _ => by decide,fun _ _ => trivial⟩

/-- The template created by block 25 is written with the checkpoints up to 20. -/
theorem later_template_stored : ¬∀ w, run (step ⟨0,10,100⟩)
      (load [⟨10,0,0⟩,⟨20,0,0⟩,⟨30,0,0⟩] (created 25)) [.cleanCheckpoint 22 .ok] = some w →
      ∀ call ∈ w.calls, CallBounded call := by
  intro h
  have hcall := h _ rfl (callOf (load [⟨10,0,0⟩,⟨20,0,0⟩,⟨30,0,0⟩] (created 25))
    [⟨10,0,0⟩,⟨20,0,0⟩] (created 25)) mem_cons_self
  have hle : (25 : UInt64) ≤ 20 := hcall _ mem_cons_self
  exact absurd hle (by decide)

end Sentio.TemplateBounds
