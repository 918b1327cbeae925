import Mathlib.Tactic

/-!
# Runs of a guarded transition function

A step answers `none` when its action is not enabled. Invariants are carried
over whole runs, either unconditionally or over runs in which every step meets
a condition on the state it starts from.
-/

namespace Sentio.Transition

section
variable {σ α : Type} (step : σ → α → Option σ)

def run : σ → List α → Option σ
  | s, [] => some s
  | s, a::rest => (step s a).bind (fun t => run t rest)

def Throughout (good : σ → α → Prop) : σ → List α → Prop
  | _, [] => True
  | s, a::rest => good s a ∧ ∀ t, step s a = some t → Throughout good t rest

instance decidableThroughout (good : σ → α → Prop) [∀ s a, Decidable (good s a)] :
    ∀ s acts, Decidable (Throughout step good s acts)
  | _, [] => isTrue trivial
  | s, a::rest =>
    match h : step s a with
    | none => decidable_of_iff (good s a) (by simp [Throughout,h])
    | some t =>
      have := decidableThroughout good t rest
      decidable_of_iff (good s a ∧ Throughout step good t rest) (by simp [Throughout,h])

theorem run_cons (s t : σ) (a : α) (rest : List α) (h : run step s (a::rest) = some t) :
    ∃ m, step s a = some m ∧ run step m rest = some t := by
  simpa [run,Option.bind_eq_some_iff] using h

theorem run_append (s : σ) (front back : List α) :
    run step s (front++back) = (run step s front).bind (fun t => run step t back) := by
  induction front generalizing s with
  | nil => rfl
  | cons a rest ih => simp only [List.cons_append,run,ih,Option.bind_assoc]

theorem throughout_mono {good better : σ → α → Prop} (himp : ∀ s a, good s a → better s a) (s : σ)
    (acts : List α) (h : Throughout step good s acts) : Throughout step better s acts := by
  induction acts generalizing s with
  | nil => trivial
  | cons a rest ih => exact ⟨himp s a h.1,fun t ht => ih t (h.2 t ht)⟩

theorem throughout_all {also : α → Prop} (s : σ) (acts : List α) (h : ∀ a ∈ acts, also a) :
    Throughout step (fun _ a => also a) s acts := by
  induction acts generalizing s with
  | nil => trivial
  | cons a rest ih =>
    obtain ⟨hfirst,hrest⟩ := List.forall_mem_cons.mp h
    exact ⟨hfirst,fun t _ => ih t hrest⟩

theorem throughout_both {good also : σ → α → Prop} (s : σ) (acts : List α)
    (h : Throughout step good s acts) (ha : Throughout step also s acts) :
    Throughout step (fun s a => good s a ∧ also s a) s acts := by
  induction acts generalizing s with
  | nil => trivial
  | cons a rest ih => exact ⟨⟨h.1,ha.1⟩,fun t ht => ih t (h.2 t ht) (ha.2 t ht)⟩

/-- Two conditions on the steps that agree under an invariant agree along whole runs. -/
theorem throughout_iff {side good other : σ → α → Prop} (inv : σ → Prop)
    (hiff : ∀ s a, inv s → side s a → (good s a ↔ other s a))
    (keep : ∀ s a t, inv s → side s a → other s a → step s a = some t → inv t) (s : σ)
    (acts : List α) (hs : inv s) (h : Throughout step side s acts) :
    Throughout step good s acts ↔ Throughout step other s acts := by
  induction acts generalizing s with
  | nil => exact Iff.rfl
  | cons a rest ih =>
    have hone := hiff s a hs h.1
    constructor
    · rintro ⟨hg,hrest⟩
      have ho := hone.mp hg
      exact ⟨ho,fun t ht => (ih t (keep s a t hs h.1 ho ht) (h.2 t ht)).mp (hrest t ht)⟩
    · rintro ⟨ho,hrest⟩
      exact ⟨hone.mpr ho,fun t ht => (ih t (keep s a t hs h.1 ho ht) (h.2 t ht)).mpr (hrest t ht)⟩

/-- What every step meeting `good` keeps, every run made of such steps keeps. -/
theorem run_invariant_throughout (good : σ → α → Prop) (inv : σ → Prop)
    (keep : ∀ s a t, inv s → good s a → step s a = some t → inv t) (acts : List α) (s t : σ)
    (hs : inv s) (hg : Throughout step good s acts) (h : run step s acts = some t) : inv t := by
  induction acts generalizing s with
  | nil => exact Option.some.inj h ▸ hs
  | cons a rest ih =>
    obtain ⟨m,hm,hr⟩ := run_cons step s t a rest h
    exact ih m (keep s a m hs hg.1 hm) (hg.2 m hm) hr

theorem run_invariant (inv : σ → Prop) (keep : ∀ s a t, inv s → step s a = some t → inv t)
    (acts : List α) (s t : σ) (hs : inv s) (h : run step s acts = some t) : inv t :=
  run_invariant_throughout step (fun _ _ => True) inv (fun s a t hs _ => keep s a t hs) acts s t hs
    (throughout_all step s acts fun _ _ => trivial) h

/-- If every step meeting `good` goes through and keeps the invariant, every run
made of such steps goes through. -/
theorem run_total_throughout (good : σ → α → Prop) (inv : σ → Prop)
    (keep : ∀ s a, inv s → good s a → ∃ t, step s a = some t ∧ inv t) (acts : List α) (s : σ)
    (hs : inv s) (hg : Throughout step good s acts) : ∃ t, run step s acts = some t ∧ inv t := by
  induction acts generalizing s with
  | nil => exact ⟨s,rfl,hs⟩
  | cons a rest ih =>
    obtain ⟨m,hm,hi⟩ := keep s a hs hg.1
    obtain ⟨t,ht,hit⟩ := ih m hi (hg.2 m hm)
    exact ⟨t,by simp [run,hm,ht],hit⟩

theorem run_snoc {s t u : σ} {acts : List α} {a : α} (h : run step s acts = some t)
    (hu : step t a = some u) : run step s (acts++[a]) = some u := by
  simp [run_append,h,run,hu]

/-- An invariant may speak of the actions taken so far. -/
theorem run_history (good : σ → α → Prop) (inv : List α → σ → Prop) (s : σ)
    (keep : ∀ acts t a u, run step s acts = some t → inv acts t → good t a → step t a = some u →
      inv (acts++[a]) u)
    (rest acts : List α) (m t : σ) (hm : run step s acts = some m) (hi : inv acts m)
    (hg : Throughout step good m rest) (h : run step m rest = some t) : inv (acts++rest) t := by
  induction rest generalizing acts m with
  | nil =>
    rw [List.append_nil]
    exact Option.some.inj h ▸ hi
  | cons a rest ih =>
    obtain ⟨u,hu,hr⟩ := run_cons step m t a rest h
    have hnext := ih (acts++[a]) u (run_snoc step hm hu)
      (keep acts m a u hm hi hg.1 hu) (hg.2 u hu) hr
    rwa [List.append_assoc] at hnext

end
end Sentio.Transition
