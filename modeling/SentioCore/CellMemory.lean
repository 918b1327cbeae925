import Mathlib.Tactic

/-!
# Programs over a memory of cells

A program reads, allocates and overwrites cells and may fail; what it wrote
before it failed stays written. A program respects a bound when it leaves every
cell below the bound alone.
-/

namespace Sentio.CellMemory

/-- The memory after the run comes with the result also when the run fails. -/
def Run (C E α : Type) : Type := List C → Except E α × List C

section
variable {C E α β : Type}

def done (x : α) : Run C E α := fun h => (.ok x,h)

def fail (e : E) : Run C E α := fun h => (.error e,h)

def andThen (m : Run C E α) (f : α → Run C E β) : Run C E β := fun h =>
  match m h with
  | (.ok x,next) => f x next
  | (.error e,next) => (.error e,next)

instance : Monad (Run C E) where
  pure := done
  bind := andThen

def alloc (c : C) : Run C E ℕ := fun h => (.ok h.length,h++[c])

def load (e : E) (p : Option ℕ) : Run C E C := fun h =>
  match p.bind (fun a => h[a]?) with
  | none => (.error e,h)
  | some c => (.ok c,h)

def modify (f : C → C) (a : ℕ) : Run C E Unit := fun h => (.ok (),h.modify a f)

def each (f : α → Run C E β) : List α → Run C E (List β)
  | [] => done []
  | a::rest => do
    let b ← f a
    let later ← each f rest
    done (b::later)

/-- Cells below the bound stay, and a result is as promised. -/
def Respects (n : ℕ) (P : α → Prop) (m : Run C E α) : Prop :=
  ∀ h : List C, n ≤ h.length → h.length ≤ (m h).2.length ∧ (∀ a < n, (m h).2[a]? = h[a]?) ∧
    ∀ x, (m h).1 = .ok x → P x

theorem bind_run (m : Run C E α) (f : α → Run C E β) (h : List C) : (m >>= f) h = match m h with
      | (.ok x,next) => f x next
      | (.error e,next) => (.error e,next) := rfl

variable {P : α → Prop}

theorem respects_done (n : ℕ) (x : α) (hx : P x) : Respects n P (done x : Run C E α) := by
  intro h _
  refine ⟨le_rfl,fun _ _ => rfl,?_⟩
  intro y hy
  exact Except.ok.inj hy ▸ hx

variable {n : ℕ} {e : E}

theorem respects_fail : Respects n P (fail e : Run C E α) := by
  intro h _
  exact ⟨le_rfl,fun _ _ => rfl,fun _ hx => nomatch hx⟩

variable {m : Run C E α}

theorem respects_bind {Q : β → Prop} {f : α → Run C E β}
    (hm : Respects n P m) (hf : ∀ x, P x → Respects n Q (f x)) : Respects n Q (m >>= f) := by
  intro h hn
  obtain ⟨hlen,hkeep,hpost⟩ := hm h hn
  rw [bind_run]
  cases hr : m h with
  | mk result next =>
    rw [hr] at hlen hkeep hpost
    cases result with
    | error e => exact ⟨hlen,hkeep,fun _ hx => nomatch hx⟩
    | ok x =>
      obtain ⟨hlen',hkeep',hpost'⟩ := hf x (hpost x rfl) next (hn.trans hlen)
      exact ⟨hlen.trans hlen',fun a ha => (hkeep' a ha).trans (hkeep a ha),hpost'⟩

theorem respects_weaken {Q : α → Prop} (hm : Respects n P m) (h : ∀ x, P x → Q x) : Respects n Q m :=
  fun mem hn => ⟨(hm mem hn).1,(hm mem hn).2.1,fun x hx => h x ((hm mem hn).2.2 x hx)⟩

theorem respects_alloc (n : ℕ) {c : C} : Respects n (fun a => n ≤ a) (alloc c : Run C E ℕ) := by
  intro h hn
  refine ⟨by simp [alloc],?_,?_⟩
  · intro a ha
    exact List.getElem?_append_left (by omega)
  · intro a ha
    exact Except.ok.inj ha ▸ hn

theorem respects_load {p : Option ℕ} : Respects n (fun _ => True) (load e p : Run C E C) := by
  intro h _
  rw [load]
  cases p.bind (fun a => h[a]?) with
  | none | some => exact ⟨le_rfl,fun _ _ => rfl,fun _ _ => trivial⟩

theorem respects_modify (n : ℕ) {f : C → C} (a : ℕ) (ha : n ≤ a) :
    Respects n (fun _ => True) (modify f a : Run C E Unit) := by
  intro h _
  refine ⟨by simp [modify],?_,fun _ _ => trivial⟩
  intro b hb
  have hne : a ≠ b := by omega
  simp [modify,hne]

theorem respects_each (n : ℕ) {P : β → Prop} (f : α → Run C E β) (l : List α)
    (hf : ∀ a ∈ l, Respects n P (f a)) : Respects n (fun bs => ∀ b ∈ bs, P b) (each f l) := by
  induction l with
  | nil => exact respects_done n [] (by simp)
  | cons a rest ih =>
    apply respects_bind (hf a List.mem_cons_self)
    intro b hb
    apply respects_bind (ih (fun c hc => hf c (List.mem_cons_of_mem a hc)))
    intro later hlater
    apply respects_done
    intro c hc
    rcases List.mem_cons.mp hc with rfl | hc
    · exact hb
    · exact hlater c hc

end

end Sentio.CellMemory
