import SentioCore.KeyedRows

/-!
# A pool of entries with a status of its own

Entries are kept under their names, and an entry that is added again with
another configuration starts over. Whenever an entry is added, enabled, removed
or reports a status, the status of the pool is built anew from all entries and
its previous status. A report is addressed to the allocated entry, so a late one
changes nothing once the entry was replaced.
-/

namespace Sentio.PoolModel
open KeyedRows

structure Entry (EC ES : Type) where
  name : String
  ref : ℕ
  config : EC
  status : ES
  enable : Bool

structure Pool (EC ES PS : Type) where
  entries : List (Entry EC ES)
  status : PS
  statusIndex : ℕ
  allocated : ℕ

section
variable {EC ES PS : Type}

def find (p : Pool EC ES PS) (name : String) : Option (Entry EC ES) :=
  lookup Entry.name p.entries name

variable (builder : List (Entry EC ES) → PS → PS) (p : Pool EC ES PS)

def refreshPoolStatus :
    Pool EC ES PS :=
  {p with status := builder p.entries p.status, statusIndex := p.statusIndex+1}

/-- An entry that is there with an equal configuration stays as it is. -/
def add (equal : EC → EC → Bool) (zero : ES)
    (p : Pool EC ES PS) (name : String) (config : EC) : Pool EC ES PS :=
  if (find p name).any (fun exist => equal exist.config config) then p
  else refreshPoolStatus builder
    {p with
      entries := upsert Entry.name p.entries ⟨name,p.allocated,config,zero,false⟩
      allocated := p.allocated+1}

variable (name : String)

def setEnable (value : Bool) : Pool EC ES PS :=
  {p with
    entries := p.entries.map (fun e => if e.name = name then {e with enable := value} else e)}

def enable :
    Pool EC ES PS :=
  if (find p name).any (fun e => !e.enable) then
    refreshPoolStatus builder (setEnable p name true)
  else p

def disable : Pool EC ES PS :=
  if (find p name).any (fun e => e.enable) then setEnable p name false else p

def remove :
    Pool EC ES PS :=
  if (find p name).isSome then
    refreshPoolStatus builder {p with entries := erase Entry.name p.entries name}
  else p

def report (ref : ℕ) (status : ES) :
    Pool EC ES PS :=
  refreshPoolStatus builder
    {p with entries := p.entries.map (fun e => if e.ref = ref then {e with status := status} else e)}

def Distinct : Prop := (p.entries.map Entry.name).Nodup

def view : Option (EC × Bool) :=
  (find p name).map (fun e => (e.config,e.enable))

variable {p : Pool EC ES PS} {value : Bool} {name : String}

section
variable (h : Distinct p)
include h

theorem setEnable_distinct : Distinct (setEnable p name value) := by
  apply nodup_map _ h
  intro e
  split <;> rfl

variable {builder : List (Entry EC ES) → PS → PS}

theorem add_distinct {equal : EC → EC → Bool} {zero : ES} {config : EC} :
    Distinct (add builder equal zero p name config) := by
  rw [add]
  split
  · exact h
  · exact nodup_upsert Entry.name _ h

theorem enable_distinct : Distinct (enable builder p name) := by
  rw [enable]
  split
  · exact setEnable_distinct h
  · exact h

theorem disable_distinct : Distinct (disable p name) := by
  rw [disable]
  split
  · exact setEnable_distinct h
  · exact h

theorem remove_distinct : Distinct (remove builder p name) := by
  rw [remove]
  split
  · exact nodup_erase Entry.name h
  · exact h

theorem report_distinct {ref : ℕ} {status : ES} : Distinct (report builder p ref status) := by
  apply nodup_map _ h
  intro e
  split <;> rfl

end

variable (builder : List (Entry EC ES) → PS → PS)

theorem view_add (equal : EC → EC → Bool) (zero : ES)
    (p : Pool EC ES PS) (name : String) (config : EC) (k : String) :
    view (add builder equal zero p name config) k =
      if k = name ∧ (view p name).any (fun v => equal v.1 config) = false then some (config,false)
      else view p k := by
  have hany : (view p name).any (fun v => equal v.1 config) =
      (find p name).any (fun e => equal e.config config) := by
    simp [view,Option.any_map]
  rw [hany,add]
  cases he : (find p name).any (fun e => equal e.config config) with
  | true => simp
  | false =>
    simp only [view,find,refreshPoolStatus,lookup_upsert,Bool.false_eq_true,if_false,and_true]
    split <;> rfl

variable {k : String}

theorem find_setEnable : find (setEnable p name value) k =
      (find p k).map (fun e => if e.name = name then {e with enable := value} else e) := by
  apply lookup_map
  intro e
  split <;> rfl

theorem view_setEnable : view (setEnable p name value) k =
      if k = name then (view p name).map (fun v => (v.1,value)) else view p k := by
  rw [view,find_setEnable]
  by_cases hk : k = name
  · subst hk
    cases hf : find p k with
    | none => simp [view,hf]
    | some e =>
      have hname := lookup_key Entry.name hf
      simp [view,hf,hname]
  cases hf : find p k with
  | none => simp [view,hf,hk]
  | some e =>
    have hname := lookup_key Entry.name hf
    have hne : ¬e.name = name := fun h => hk (hname ▸ h)
    simp [view,hf,hk,hne]

theorem view_already (h : ∀ e, find p name = some e → e.enable = value) :
    view p k = if k = name then (view p name).map (fun v => (v.1,value)) else view p k := by
  split
  case isTrue hk =>
    subst hk
    cases hf : find p k with
    | none => simp [view,hf]
    | some e => simp [view,hf,h e hf]
  case isFalse => rfl

variable (p : Pool EC ES PS) (name k : String)

theorem view_enable : view (enable builder p name) k =
      if k = name then (view p name).map (fun v => (v.1,true)) else view p k := by
  rw [enable]
  split
  · exact view_setEnable
  case isFalse h => exact view_already (fun e he => by simpa [he] using h)

theorem view_disable : view (disable p name) k =
      if k = name then (view p name).map (fun v => (v.1,false)) else view p k := by
  rw [disable]
  split
  · exact view_setEnable
  case isFalse h => exact view_already (fun e he => by simpa [he] using h)

theorem view_remove : view (remove builder p name) k = if k = name then none else view p k := by
  rw [remove]
  split
  · simp only [view,find,refreshPoolStatus,lookup_erase]
    split <;> rfl
  rename_i h
  split
  case isTrue hk =>
    subst hk
    have hnone : find p k = none := by simpa using h
    simp [view,hnone]
  case isFalse => rfl

theorem view_report (ref : ℕ)
    (status : ES) (k : String) : view (report builder p ref status) k = view p k := by
  have hf : find (report builder p ref status) k =
      (find p k).map (fun e => if e.ref = ref then {e with status := status} else e) := by
    apply lookup_map
    intro e
    split <;> rfl
  rw [view,hf,Option.map_map]
  congr 1
  funext e
  simp only [Function.comp_apply]
  split <;> rfl

/-- A quantity of the status that no rebuilding lowers is not lowered by any operation. -/
structure Rising {β : Type} [Preorder β] (builder : List (Entry EC ES) → PS → PS)
    (f : PS → β) : Prop where
  rise : ∀ entries pre, f pre ≤ f (builder entries pre)

section rising
variable {β : Type} [Preorder β] (f : PS → β) {name : String}

theorem add_rises {equal : EC → EC → Bool} {zero : ES} {config : EC}
    (h : Rising builder f) : f p.status ≤ f (add builder equal zero p name config).status := by
  rw [add]
  split
  · exact le_rfl
  · exact h.rise _ _

theorem enable_rises (h : Rising builder f) : f p.status ≤ f (enable builder p name).status := by
  rw [enable]
  split
  · exact h.rise _ _
  · exact le_rfl

theorem disable_status (name : String) : (disable p name).status = p.status := by
  rw [disable]
  split <;> rfl

theorem remove_rises (h : Rising builder f) : f p.status ≤ f (remove builder p name).status := by
  rw [remove]
  split
  · exact h.rise _ _
  · exact le_rfl

theorem report_rises (ref : ℕ) (status : ES) (h : Rising builder f) :
    f p.status ≤ f (report builder p ref status).status :=
  h.rise _ _

end rising
end

end Sentio.PoolModel
