import SentioCore.ConvertOrder

/-!
# The columns of a row

A field of an event goes to a column that its name alone decides. A label of a
metric does so as long as no label bears the name that another one is escaped
to.
-/

namespace Sentio.ConvertColumns
open OrderedMap ConvertModel ConvertOrder List Prod
open BcsModel (Text)
open ByteCodec (bind_ok)

def systemColumns : List Text :=
  [systemTimestamp,systemUserID,system "chain",system "block_number",system "block_hash",
    system "transaction_hash",system "transaction_index",system "log_index",system "address",
    system "contract",system "severity"]

section
variable {F : Type}

theorem has_initialRow (block : Block) (m : Metadata) (c : Text) :
    has (initialRow (F := F) block m) c = decide (c ∈ systemColumns) := by
  rw [Bool.eq_iff_iff,initialRow,has_putAll,decide_eq_true_eq]
  simp [systemColumns,has,find]

def eventName (name : Text) : Text :=
  if name = text "severity" then system "severity"
  else if name = text "distinctEntityId" then systemUserID
  else name

def eventTarget (name : Text) : Text :=
  if eventName name ∈ systemColumns ∧ eventAllowOverwriteField (eventName name) = false then
    escaped (eventName name)
  else eventName name

/-- A name that users may give to an event's field. -/
structure Custom (name : Text) : Prop where
  legal : eventlogsCustomFieldNameExpr name
  severity : name ≠ text "severity"
  entity : name ≠ text "distinctEntityId"
  user : name ≠ systemUserID

variable {name : Text}

theorem custom_eventName (h : Custom name) : eventName name = name := by
  rw [eventName,if_neg h.severity,if_neg h.entity]

variable {n : Text} {b : Bool}

theorem renameEvent_cases (h : renameEvent name = .ok (n,b)) : n = eventName name ∧
      (name = text "severity" ∨ name = text "distinctEntityId" ∨ name = systemUserID ∨
        Custom name) := by
  rw [renameEvent] at h
  split at h
  · rename_i hs
    cases h
    exact ⟨by rw [eventName,if_pos hs],.inl hs⟩
  rename_i hs
  split at h
  · rename_i he
    cases h
    exact ⟨by rw [eventName,if_neg hs,if_pos he],.inr (.inl he)⟩
  rename_i he
  have hname : eventName name = name := by rw [eventName,if_neg hs,if_neg he]
  split at h
  · rename_i hu
    cases h
    exact ⟨hname.symm,.inr (.inr (.inl hu))⟩
  rename_i hu
  split at h
  · rename_i hl
    cases h
    exact ⟨hname.symm,.inr (.inr (.inr ⟨hl,hs,he,hu⟩))⟩
  · cases h

theorem custom_no_dot (h : Custom name) : '.' ∉ name := by
  have hl := h.legal
  rcases name with _ | ⟨c,rest⟩
  · exact not_mem_nil
  simp only [eventlogsCustomFieldNameExpr,matchesName,Bool.and_eq_true] at hl
  intro hmem
  rcases mem_cons.mp hmem with hc | hrest
  · rw [← hc] at hl
    exact absurd hl.1.1 (by decide)
  · exact absurd (all_eq_true.mp hl.1.2 _ hrest) (by decide)

theorem escaped_dot (name : Text) : '.' ∈ escaped name := by
  simp [escaped,reservedFieldEscapePrefix,text]

theorem severity_target : eventTarget (text "severity") = system "severity" := by decide

theorem entity_target : eventTarget (text "distinctEntityId") = systemUserID := by decide

theorem user_target : eventTarget systemUserID = systemUserID := by decide

/-- A custom name goes to a column of its own, with a dot only if it is escaped. -/
theorem custom_target (h : Custom name) : eventTarget name = name ∨
      (eventTarget name = escaped name ∧ name ∈ systemColumns) := by
  rw [eventTarget,custom_eventName h]
  split
  · rename_i hs
    exact .inr ⟨rfl,hs.1⟩
  · exact .inl rfl

theorem target_ne_custom {other : Text} (h : renameEvent name = .ok (n,b))
    (hc : Custom other) (hne : other ≠ name) : other ≠ eventTarget name := by
  have hdot := custom_no_dot hc
  obtain ⟨-,rfl | rfl | rfl | hcustom⟩ := renameEvent_cases h
  · rintro rfl
    rw [severity_target] at hdot
    exact hdot (by decide)
  · rw [entity_target]
    exact hc.user
  · rw [user_target]
    exact hc.user
  rcases custom_target hcustom with ht | ⟨ht,-⟩
  · rwa [ht]
  rintro rfl
  rw [ht] at hdot
  exact hdot (escaped_dot name)

theorem custom_target_ne (h : Custom name) :
    eventTarget name ≠ system "severity" ∧ eventTarget name ≠ systemUserID := by
  have hdot := custom_no_dot h
  rcases custom_target h with ht | ⟨ht,-⟩
  · rw [ht]
    refine ⟨?_,h.user⟩
    rintro rfl
    exact hdot (by decide)
  rw [ht]
  refine ⟨fun heq => ?_,fun heq => ?_⟩
  · have hhead : some 'u' = some 'm' := congrArg List.head? heq
    exact absurd hhead (by decide)
  have hmem := escaped_dot name
  rw [heq] at hmem
  exact absurd hmem (by decide)

variable {y x : Text}

theorem custom_target_injective (hx : Custom x) (hy : Custom y)
    (h : eventTarget x = eventTarget y) : x = y := by
  have hxdot := custom_no_dot hx
  have hydot := custom_no_dot hy
  rcases custom_target hx with hxt | ⟨hxt,-⟩ <;> rcases custom_target hy with hyt | ⟨hyt,-⟩
  · rwa [hxt,hyt] at h
  · rw [hxt,hyt] at h
    exact absurd (h ▸ escaped_dot y) hxdot
  · rw [hxt,hyt] at h
    exact absurd (h ▸ escaped_dot x) hydot
  · rw [hxt,hyt] at h
    exact append_cancel_left h

/-- Two fields of an event go to one column only if both are the user's id. -/
theorem target_injective {nx ny : Text} {c : Bool} (hx : renameEvent x = .ok (nx,b))
    (hy : renameEvent y = .ok (ny,c)) (hne : x ≠ y) (h : eventTarget x = eventTarget y) :
    (x = systemUserID ∧ y = text "distinctEntityId") ∨
      (x = text "distinctEntityId" ∧ y = systemUserID) := by
  obtain ⟨-,rfl | rfl | rfl | hcx⟩ := renameEvent_cases hx <;>
    obtain ⟨-,rfl | rfl | rfl | hcy⟩ := renameEvent_cases hy
  · exact absurd rfl hne
  · cases h
  · cases h
  · exact absurd (h.symm.trans severity_target) (custom_target_ne hcy).1
  · cases h
  · exact absurd rfl hne
  · exact .inr ⟨rfl,rfl⟩
  · exact absurd (h.symm.trans entity_target) (custom_target_ne hcy).2
  · cases h
  · exact .inl ⟨rfl,rfl⟩
  · exact absurd rfl hne
  · exact absurd (h.symm.trans user_target) (custom_target_ne hcy).2
  · exact absurd (h.trans severity_target) (custom_target_ne hcx).1
  · exact absurd (h.trans entity_target) (custom_target_ne hcx).2
  · exact absurd (h.trans user_target) (custom_target_ne hcx).2
  · exact absurd (custom_target_injective hcx hcy h) hne

/-- The columns of the names that are still to come are those of the system only. -/
def Ready (row : List (Text × Any F)) (names : List Text) : Prop :=
  ∀ n ∈ names, Custom n → (has row n ↔ n ∈ systemColumns)

theorem eventColumn_target {row : List (Text × Any F)} (h : renameEvent name = .ok (n,b))
    (hr : Ready row [name]) : eventColumn row n = eventTarget name := by
  obtain ⟨rfl,hcases⟩ := renameEvent_cases h
  rw [eventColumn,eventTarget]
  rcases hcases with rfl | rfl | rfl | hc
  · have ha : eventAllowOverwriteField (eventName (text "severity")) := by decide
    simp [ha]
  · have ha : eventAllowOverwriteField (eventName (text "distinctEntityId")) := by decide
    simp [ha]
  · have ha : eventAllowOverwriteField (eventName systemUserID) := by decide
    simp [ha]
  have hready := hr name mem_cons_self hc
  rw [custom_eventName hc]
  simp [hready]

section
variable (formats : Formats F) (o : Order) (t : ℤ)

def planOf (column : Text) (builtIn : Bool) (s : Stored F) : Option (Field × Any F) :=
  some (⟨column,s.type,.none,s.nestedStructSchema,builtIn,false,[]⟩,s.value)

/-- What an event's field adds to a draft, with the column that its name decides. -/
def eventPlan (e : Text × RichValue F) : Except Err (Option (Field × Any F)) := do
  let renamed ← renameEvent e.1
  if e.2.isNull then pure none
  else (eventValue formats o t [e.1] (eventTarget e.1) e.2).map (planOf (eventTarget e.1) renamed.2)

def plannedEvent (d : Draft F) (e : Text × RichValue F) : Except Err (Draft F) := do
  let plan ← eventPlan formats o t e
  applyPlan o d plan

theorem updateEvent_planned {d : Draft F} (e : Text × RichValue F) (hr : Ready d.row [e.1]) :
    updateEvent formats o t d e = plannedEvent formats o t d e := by
  rw [updateEvent,plannedEvent,eventPlan]
  rcases hn : renameEvent e.1 with err | p
  · rfl
  have hcol := eventColumn_target hn hr
  change (if e.2.isNull then _ else _) = _
  rw [hcol]
  cases e.2.isNull with
  | true => rfl
  | false =>
    cases eventValue formats o t [e.1] (eventTarget e.1) e.2 <;> rfl

variable {e : Text × RichValue F}

theorem eventPlan_name {f : Field} {v : Any F} (h : eventPlan formats o t e = .ok (some (f,v))) :
    f.name = eventTarget e.1 ∧ e.2.isNull = false ∧ (∃ p, renameEvent e.1 = .ok p) ∧
      Sorted f.nestedStructSchema ∧ f.nestedIndex = [] := by
  obtain ⟨p,hp,h⟩ := bind_ok h
  rcases hn : e.2.isNull with _ | _
  swap
  · rw [hn] at h
    cases h
  rw [hn] at h
  cases hs : eventValue formats o t [e.1] (eventTarget e.1) e.2 with
  | error err =>
    rw [hs] at h
    cases h
  | ok s =>
    rw [hs] at h
    cases h
    exact ⟨rfl,rfl,⟨p,hp⟩,eventValue_sorted hs,rfl⟩

theorem plannedEvent_ready {d : Draft F} (out : Draft F) {names : List Text}
    (hnot : e.1 ∉ names) (hr : Ready d.row names)
    (h : plannedEvent formats o t d e = .ok out) : Ready out.row names := by
  obtain ⟨plan,hp,h⟩ := bind_ok h
  rcases plan with _ | fv
  · cases h
    exact hr
  obtain ⟨hname,-,⟨p,hrename⟩,-⟩ := eventPlan_name formats o t hp
  obtain ⟨fields,-,h⟩ := bind_ok h
  cases h
  intro n hn hc
  have hne : n ≠ e.1 := fun heq => hnot (heq ▸ hn)
  have hcol := target_ne_custom hrename hc hne
  rw [← hr n hn hc,hname]
  rw [has_put_other _ _ _ _ hcol]

theorem events_planned {l : List (Text × RichValue F)} (hn : (l.map fst).Nodup) (d : Draft F)
    (hr : Ready d.row (l.map fst)) :
    l.foldlM (updateEvent formats o t) d = l.foldlM (plannedEvent formats o t) d := by
  induction l generalizing d with
  | nil => rfl
  | cons e rest ih =>
    obtain ⟨hnot,hrest⟩ := nodup_cons.mp hn
    have hhead : Ready d.row [e.1] := fun n hmem => hr n (by
      rw [mem_singleton.mp hmem]
      exact mem_cons_self)
    rw [foldlM_cons,foldlM_cons,updateEvent_planned formats o t e hhead]
    cases hstep : plannedEvent formats o t d e with
    | error err => rfl
    | ok out =>
      exact ih hrest out (plannedEvent_ready formats o t out hnot
        (fun n hmem => hr n (mem_cons_of_mem _ hmem)) hstep)

end

def Holds (data : List (Text × RichValue F)) (name : Text) : Prop :=
  ∃ v, (name,v) ∈ data ∧ v.isNull = false

theorem holds_mono {l data : List (Text × RichValue F)} (h : l ⊆ data)
    (hl : Holds l name) : Holds data name := by
  obtain ⟨v,hv,hnull⟩ := hl
  exact ⟨v,h hv,hnull⟩

def OneUser (data : List (Text × RichValue F)) : Prop :=
  ¬(Holds data systemUserID ∧ Holds data (text "distinctEntityId"))

section
variable (formats : Formats F) (o q : Order) (t : ℤ) {e : Text × RichValue F}

theorem eventPlan_order (hl : e.2.Legal) (hs : RichValue.Stable formats t [e.1] e.2) :
    (eventPlan formats o t e).toOption = (eventPlan formats q t e).toOption := by
  rw [eventPlan,eventPlan]
  rcases renameEvent e.1 with err | p
  · rfl
  change (if e.2.isNull then _ else _ : Except Err _).toOption = _
  cases e.2.isNull with
  | true => rfl
  | false =>
    have hv := eventValue_order formats o q t [e.1] (eventTarget e.1) e.2 hl hs
    change (Except.map _ _).toOption = (Except.map _ _).toOption
    rw [toOption_map,toOption_map,hv]

variable {d : Draft F}

theorem plannedEvent_order (hl : e.2.Legal) (hs : RichValue.Stable formats t [e.1] e.2) :
    (plannedEvent formats o t d e).toOption = (plannedEvent formats q t d e).toOption := by
  rw [plannedEvent,plannedEvent,toOption_bind,eventPlan_order formats o q t hl hs]
  rcases hp : eventPlan formats q t e with err | plan
  · rfl
  cases plan with
  | none => rfl
  | some fv =>
    obtain ⟨-,-,-,hsorted,hindex⟩ := eventPlan_name formats q t hp
    change (applyPlan o d (some fv)).toOption = (applyPlan q d (some fv)).toOption
    rw [applyPlan,applyPlan,mergeField_order o q d.fields hsorted hindex]

variable {y x : Text × RichValue F}

theorem plannedEvent_swap (h : ∀ f v g w, eventPlan formats o t x = .ok (some (f,v)) →
      eventPlan formats o t y = .ok (some (g,w)) → f.name ≠ g.name) :
    (plannedEvent formats o t d x).toOption.bind
        (fun e => (plannedEvent formats o t e y).toOption) =
      (plannedEvent formats o t d y).toOption.bind
        (fun e => (plannedEvent formats o t e x).toOption) := by
  have hplanned : ∀ e z, (plannedEvent formats o t e z).toOption =
      (eventPlan formats o t z).toOption.bind (fun p => (applyPlan o e p).toOption) :=
    fun e z => toOption_bind _ _
  simp only [hplanned]
  rcases hx : eventPlan formats o t x with err | px
  · change none = Option.bind _ (fun _ => none)
    rw [Option.bind_fun_none]
  rcases hy : eventPlan formats o t y with err | py
  · change Option.bind _ (fun _ => none) = none
    rw [Option.bind_fun_none]
  change (applyPlan o d px).toOption.bind (fun e => (applyPlan o e py).toOption) =
    (applyPlan o d py).toOption.bind (fun e => (applyPlan o e px).toOption)
  cases px with
  | none => cases hd : (applyPlan o d py).toOption <;> exact hd.trans rfl
  | some fv =>
    cases py with
    | none => cases hd : (applyPlan o d (some fv)).toOption <;> exact hd.symm
    | some gw => exact applyPlan_swap_some (h _ _ _ _ hx hy)

variable {data : List (Text × RichValue F)}

theorem oneUser_targets (h : OneUser data)
    (hx : x ∈ data) (hy : y ∈ data) (hne : x.1 ≠ y.1) (f : Field)
    {v : Any F} {g : Field} {w : Any F} (hpx : eventPlan formats o t x = .ok (some (f,v)))
    (hpy : eventPlan formats o t y = .ok (some (g,w))) : f.name ≠ g.name := by
  obtain ⟨hfx,hnx,⟨px,hrx⟩,-⟩ := eventPlan_name formats o t hpx
  obtain ⟨hgy,hny,⟨py,hry⟩,-⟩ := eventPlan_name formats o t hpy
  rw [hfx,hgy]
  intro heq
  rcases target_injective hrx hry hne heq with ⟨h1,h2⟩ | ⟨h1,h2⟩
  · exact h ⟨⟨x.2,h1 ▸ hx,hnx⟩,⟨y.2,h2 ▸ hy,hny⟩⟩
  · exact h ⟨⟨y.2,h2 ▸ hy,hny⟩,⟨x.2,h1 ▸ hx,hnx⟩⟩

theorem mem_arrange {V : Type} (m : List (Text × V)) (e : Text × V) :
    e ∈ o.arrange [] m ↔ e ∈ m :=
  (o.arrange_perm [] m).mem_iff

theorem arrange_subset {V : Type} (o : Order) (m : List (Text × V)) : o.arrange [] m ⊆ m :=
  (o.arrange_perm [] m).subset

theorem arrange_nodup (hsorted : Sorted data) : ((o.arrange [] data).map fst).Nodup := by
  rw [((o.arrange_perm [] data).map fst).nodup_iff]
  exact sorted_nodup hsorted

theorem updateEvents_planned (data : List (Text × RichValue F)) (hsorted : Sorted data)
    (d : Draft F) (hr : Ready d.row (data.map fst)) :
    updateEvents formats o t data d =
      (o.arrange [] data).foldlM (plannedEvent formats o t) d := by
  apply events_planned
  · exact arrange_nodup o hsorted
  · intro n hn
    exact hr n (((o.arrange_perm [] data).map fst).mem_iff.mp hn)

theorem updateEvents_order (hsorted : Sorted data) (hlegal : ∀ e ∈ data, e.2.Legal)
    (hone : OneUser data) (hstable : ∀ e ∈ data, RichValue.Stable formats t [e.1] e.2) (hr : Ready d.row (data.map fst)) :
    (updateEvents formats o t data d).toOption = (updateEvents formats q t data d).toOption := by
  have hmem := mem_arrange o data
  rw [updateEvents_planned formats o t data hsorted d hr,
    updateEvents_planned formats q t data hsorted d hr,foldlM_toOption,foldlM_toOption]
  rw [attempts_congr (fun s a => (plannedEvent formats q t s a).toOption) (o.arrange [] data)
    (fun e he s => plannedEvent_order formats o q t (hlegal e ((hmem e).mp he))
      (hstable e ((hmem e).mp he)))]
  apply attempts_perm ((o.arrange_perm [] data).trans (q.arrange_perm [] data).symm)
  intro x hx y hy s
  have hxd := (hmem x).mp hx
  have hyd := (hmem y).mp hy
  by_cases hk : x.1 = y.1
  · rw [inj_on_of_nodup_map (sorted_nodup hsorted) hxd hyd hk]
  · exact plannedEvent_swap formats q t (oneUser_targets formats q t hone hxd hyd hk)

end

def metricTarget (name : Text) : Text := if name ∈ systemColumns then escaped name else name

/-- No label bears the name that another one is escaped to. -/
def NoClash (data : List (Text × RichValue F)) : Prop :=
  ∀ name ∈ systemColumns, ¬(Holds data name ∧ Holds data (escaped name))

theorem escaped_ne_value (name : Text) : escaped name ≠ metricValueFieldName := by
  intro heq
  have hhead : some 'u' = some 'v' := congrArg List.head? heq
  cases hhead

theorem metricTarget_ne_value (h : name ≠ metricValueFieldName) :
    metricTarget name ≠ metricValueFieldName := by
  rw [metricTarget]
  split
  · exact escaped_ne_value name
  · exact h

theorem metricTarget_injective {data : List (Text × RichValue F)} (h : NoClash data)
    (hx : Holds data x) (hy : Holds data y) (heq : metricTarget x = metricTarget y) : x = y := by
  rw [metricTarget,metricTarget] at heq
  split at heq <;> split at heq
  · exact append_cancel_left heq
  · rename_i hxs _
    exact absurd ⟨hx,heq ▸ hy⟩ (h x hxs)
  · rename_i _ hys
    exact absurd ⟨hy,heq ▸ hx⟩ (h y hys)
  · exact heq

section
variable (formats : Formats F)

def metricWrite (e : Text × RichValue F) : Option (Text × Any F) :=
  if e.1 = metricValueFieldName then
    some (metricValueFieldName,.float ((getFloat formats e.2).getD formats.zero))
  else if e.2.isNull then none
  else some (metricTarget e.1,.text (getString formats e.2))

def labelField (e : Text × RichValue F) : Option (Text × Field) :=
  if e.1 = metricValueFieldName ∨ e.2.isNull then none
  else some (metricTarget e.1,{name := metricTarget e.1, type := .string, role := .seriesLabel})

def plannedMetric (d : Draft F) (e : Text × RichValue F) : Draft F :=
  ⟨putAll d.row (metricWrite formats e).toList,putAll d.fields (labelField e).toList⟩

/-- The columns of the labels that are still to come are those of the system only. -/
def LabelsReady (row : List (Text × Any F)) (data : List (Text × RichValue F)) : Prop :=
  ∀ e ∈ data, e.1 ≠ metricValueFieldName → e.2.isNull = false →
    (has row e.1 ↔ e.1 ∈ systemColumns)

variable {d : Draft F}

theorem updateMetric_planned (e : Text × RichValue F)
    (h : LabelsReady d.row [e]) : updateMetric formats d e = plannedMetric formats d e := by
  rw [updateMetric,plannedMetric,metricWrite,labelField]
  by_cases hv : e.1 = metricValueFieldName
  · rw [if_pos hv,if_pos hv,if_pos (.inl hv)]
    rfl
  rw [if_neg hv,if_neg hv]
  cases hnull : e.2.isNull with
  | true => simp [putAll]
  | false =>
    have hready := h e mem_cons_self hv hnull
    have hcol : labelColumn d.row e.1 = metricTarget e.1 := by
      rw [labelColumn,metricTarget]
      simp [hready]
    simp [hcol,hv,putAll]

variable {e : Text × RichValue F} {data : List (Text × RichValue F)}

/-- Another label is not written to the column that bears its name. -/
theorem metricWrite_other (hclash : NoClash data) {x : Text × RichValue F} (hx : x ∈ data)
    (he : e ∈ data) (hne : x.1 ≠ e.1) (hxv : x.1 ≠ metricValueFieldName)
    (hnull : x.2.isNull = false) : x.1 ∉ (metricWrite formats e).toList.map fst := by
  rw [metricWrite]
  split
  · simpa using hxv
  rcases hen : e.2.isNull with _ | _
  swap
  · simp
  have hcol : x.1 ≠ metricTarget e.1 := by
    rw [metricTarget]
    split
    · rename_i hsys
      intro heq
      exact hclash e.1 hsys ⟨⟨e.2,he,hen⟩,⟨x.2,heq ▸ hx,hnull⟩⟩
    · exact hne
  simpa using hcol

theorem plannedMetric_ready (e : Text × RichValue F) (hclash : NoClash (e::data))
    (hnot : e.1 ∉ data.map fst) (h : LabelsReady d.row data) :
    LabelsReady (plannedMetric formats d e).row data := by
  intro x hx hne hnull
  have hxe : x.1 ≠ e.1 := fun heq => hnot (heq ▸ mem_map_of_mem hx)
  have hother := metricWrite_other formats hclash (mem_cons_of_mem e hx) mem_cons_self hxe hne hnull
  rw [plannedMetric,← h x hx hne hnull,has_putAll]
  simp [hother]

variable {l : List (Text × RichValue F)}

theorem noClash_mono {data : List (Text × RichValue F)} (h : l ⊆ data) (hd : NoClash data) :
    NoClash l :=
  fun name hs hl => hd name hs ⟨holds_mono h hl.1,holds_mono h hl.2⟩

theorem metrics_planned (hn : (l.map fst).Nodup)
    (hclash : NoClash l) (d : Draft F) (hr : LabelsReady d.row l) :
    l.foldl (updateMetric formats) d = l.foldl (plannedMetric formats) d := by
  induction l generalizing d with
  | nil => rfl
  | cons e rest ih =>
    obtain ⟨hnot,hrest⟩ := nodup_cons.mp hn
    have hhead : LabelsReady d.row [e] := fun x hx => hr x (by
      rw [mem_singleton.mp hx]
      exact mem_cons_self)
    rw [foldl_cons,updateMetric_planned formats e hhead]
    exact ih hrest (noClash_mono (subset_cons_self e rest) hclash) _
      (plannedMetric_ready formats e hclash hnot (fun x hx => hr x (mem_cons_of_mem e hx)))

theorem metrics_row : l.foldl (plannedMetric formats) d =
      ⟨putAll d.row (l.filterMap (metricWrite formats)),
        putAll d.fields (l.filterMap labelField)⟩ := by
  induction l generalizing d with
  | nil => rfl
  | cons e rest ih =>
    rw [foldl_cons,ih,plannedMetric,filterMap_cons_toList,filterMap_cons_toList,
      putAll_append,putAll_append]

theorem metricWrite_cases {p : Text × Any F} (h : metricWrite formats e = some p) :
    (e.1 = metricValueFieldName ∧ p.1 = metricValueFieldName) ∨
      (e.1 ≠ metricValueFieldName ∧ e.2.isNull = false ∧ p.1 = metricTarget e.1) := by
  rw [metricWrite] at h
  split at h
  · rename_i hv
    cases h
    exact .inl ⟨hv,rfl⟩
  rename_i hv
  cases hnull : e.2.isNull with
  | true =>
    rw [hnull] at h
    cases h
  | false =>
    rw [hnull] at h
    cases h
    exact .inr ⟨hv,rfl,rfl⟩

theorem labelField_cases {p : Text × Field} (h : labelField e = some p) :
    e.2.isNull = false ∧ p.1 = metricTarget e.1 := by
  rw [labelField] at h
  split at h
  · cases h
  rename_i hn
  cases h
  exact ⟨by simpa using (not_or.mp hn).2,rfl⟩

theorem metricWrite_nodup (hn : (l.map fst).Nodup)
    (hclash : NoClash l) : ((l.filterMap (metricWrite formats)).map fst).Nodup := by
  refine filterMap_nodup hn ?_
  intro x hx y hy a b ha hb hne
  rcases metricWrite_cases formats ha with ⟨hxv,hax⟩ | ⟨hxv,hxn,hax⟩ <;>
    rcases metricWrite_cases formats hb with ⟨hyv,hby⟩ | ⟨hyv,hyn,hby⟩
  · exact absurd (hxv.trans hyv.symm) hne
  · rw [hax,hby]
    exact (metricTarget_ne_value hyv).symm
  · rw [hax,hby]
    exact metricTarget_ne_value hxv
  · rw [hax,hby]
    exact fun heq => hne (metricTarget_injective hclash ⟨x.2,hx,hxn⟩ ⟨y.2,hy,hyn⟩ heq)

theorem labelField_nodup (hn : (l.map fst).Nodup)
    (hclash : NoClash l) : ((l.filterMap labelField).map fst).Nodup := by
  refine filterMap_nodup hn ?_
  intro x hx y hy a b ha hb hne
  obtain ⟨hxn,hax⟩ := labelField_cases ha
  obtain ⟨hyn,hby⟩ := labelField_cases hb
  rw [hax,hby]
  exact fun heq => hne (metricTarget_injective hclash ⟨x.2,hx,hxn⟩ ⟨y.2,hy,hyn⟩ heq)

theorem updateMetrics_planned (o : Order) (hsorted : Sorted data) (hclash : NoClash data)
    (hr : LabelsReady (startMetric formats d).row data) :
    updateMetrics formats o data d =
      ⟨putAll (startMetric formats d).row ((o.arrange [] data).filterMap (metricWrite formats)),
        putAll (startMetric formats d).fields ((o.arrange [] data).filterMap labelField)⟩ := by
  have hsub := arrange_subset o data
  rw [updateMetrics,metrics_planned formats (arrange_nodup o hsorted)
    (noClash_mono hsub hclash) _ (fun e he => hr e (hsub he)),metrics_row]

theorem updateMetrics_order (o q : Order) (hsorted : Sorted data) (hclash : NoClash data)
    (hr : LabelsReady (startMetric formats d).row data) :
    updateMetrics formats o data d = updateMetrics formats q data d := by
  have hsub := arrange_subset o data
  have hperm := (o.arrange_perm [] data).trans (q.arrange_perm [] data).symm
  have hnodup := arrange_nodup o hsorted
  have hno := noClash_mono hsub hclash
  rw [updateMetrics_planned formats o hsorted hclash hr,
    updateMetrics_planned formats q hsorted hclash hr,
    putAll_perm (hperm.filterMap _) (metricWrite_nodup formats hnodup hno),
    putAll_perm (hperm.filterMap _) (labelField_nodup hnodup hno)]

end
end
end Sentio.ConvertColumns
