import SentioCore.ConvertColumns

/-!
# Rows and metas without the order of maps

A conversion that succeeds gives the same datasets in every order of the maps, and
puts every field into a column of its own, exactly if no event gives the user's id
under both of its names, the texts of structs do not follow the order, and no
metric has a label that bears the name another label is escaped to.
-/

namespace Sentio.ConvertResult
open OrderedMap ConvertModel ConvertOrder ConvertColumns List
open BcsModel (Text)
open ByteCodec (bind_ok)

section
variable {F : Type} (formats : Formats F) (block : Block)

def columnFor (type : MetaType) (taken : Text → Bool) (name : Text) : Text :=
  match type with
  | .event =>
    if taken (eventName name) && !eventAllowOverwriteField (eventName name) then
      escaped (eventName name)
    else eventName name
  | _ =>
    if name = metricValueFieldName then metricValueFieldName
    else if taken name then escaped name
    else name

def valueFor (order : Order) (type : MetaType) (column : Text) (e : Text × RichValue F) :
    Option (Any F) :=
  match type with
  | .event => (eventValue formats order block.time [e.1] column e.2).toOption.map Stored.value
  | _ =>
    if e.1 = metricValueFieldName then some (.float ((getFloat formats e.2).getD formats.zero))
    else some (.text (getString formats e.2))

structure Place (F : Type) where
  name : Text
  column : Text
  value : Option (Any F)

def places (order : Order) (type : MetaType) (taken : Text → Bool) :
    List (Text × RichValue F) → List (Place F)
  | [] => []
  | e::rest =>
    if e.2.isNull then places order type taken rest
    else
      let column := columnFor type taken e.1
      ⟨e.1,column,valueFor formats block order type column e⟩::
        places order type (fun x => x = column || taken x) rest

local instance text_lawful : LawfulBEq Text := inferInstance

def isSystem (column : Text) : Bool := decide (column ∈ systemColumns)

def placesOf (order : Order) (r : TimeseriesResult F) (type : MetaType) : List (Place F) :=
  places formats block order type isSystem (order.arrange [] r.data)

/-- Every field has a column of its own with its value; a system column is taken only if it may be
overwritten, and keeps its value otherwise. -/
structure OwnColumns (order : Order) (r : TimeseriesResult F) (type : MetaType)
    (row : List (Text × Any F)) : Prop where
  distinct : ((placesOf formats block order r type).map Place.column).Nodup
  stored : ∀ p ∈ placesOf formats block order r type,
    p.value.isSome ∧ find row p.column = p.value
  allowed : ∀ p ∈ placesOf formats block order r type, p.column ∈ systemColumns →
    type = .event ∧ eventAllowOverwriteField p.column
  kept : ∀ c ∈ systemColumns, c ∉ (placesOf formats block order r type).map Place.column →
    find row c = find (initialRow block r.metadata) c

/-- No field of the result takes another one's column, and the texts of its structs are the same
in all orders. -/
def Good (r : TimeseriesResult F) : Prop :=
  match r.type with
  | none => True
  | some .event => OneUser r.data ∧ ∀ e ∈ r.data, RichValue.Stable formats block.time [e.1] e.2
  | some _ => NoClash r.data

theorem ready_initial {m : Metadata} {names : List Text} :
    Ready (initialRow (F := F) block m) names := by
  intro n _ _
  rw [has_initialRow,decide_eq_true_eq]

variable {data : List (Text × RichValue F)}

theorem labelsReady_initial (m : Metadata) (fields : List (Text × Field)) :
    LabelsReady (startMetric formats ⟨initialRow block m,fields⟩).row data := by
  intro e _ hv _
  rw [startMetric,has_put_other _ _ _ _ hv,has_initialRow,decide_eq_true_eq]

variable {l : List (Text × RichValue F)}

theorem names_loop :
    (l.forM (fun e => if fieldNameExpr e.1 then pure () else .error (.fieldName e.1)) :
      Except Err Unit).toOption = if l.all (fun e => fieldNameExpr e.1) then some () else none := by
  induction l with
  | nil => rfl
  | cons e rest ih =>
    change (_ >>= fun _ => rest.forM _ : Except Err Unit).toOption = _
    rw [all_cons]
    cases hname : fieldNameExpr e.1 with
    | true =>
      simp only [hname]
      exact ih
    | false =>
      simp only [hname]
      rfl

variable {order : Order}

theorem checkNames_toOption : (checkNames order data).toOption =
      if data.all (fun e => fieldNameExpr e.1) then some () else none := by
  rw [checkNames,names_loop,(order.arrange_perm _ data).all_eq]

variable {r : TimeseriesResult F} {type : MetaType} {q o : Order}

theorem drafted_order
    (htype : r.type = some type) (hgood : Good formats block r) {fields : List (Text × Field)} :
    (drafted formats block o r type fields).toOption =
      (drafted formats block q r type fields).toOption := by
  rw [Good,htype] at hgood
  cases type with
  | event =>
    exact updateEvents_order formats o q block.time r.sorted r.legal hgood.1 hgood.2
      (ready_initial block)
  | gauge | counter =>
    have hm := updateMetrics_order formats o q r.sorted hgood
      (labelsReady_initial formats block r.metadata fields)
    dsimp only [drafted]
    rw [hm]

theorem convertOne_order {datasets : List (Text × Dataset F)} (hgood : Good formats block r) :
    (convertOne formats block o datasets r).toOption =
      (convertOne formats block q datasets r).toOption := by
  rw [convertOne,convertOne]
  split
  · rfl
  rw [toOption_bind,toOption_bind,checkNames_toOption,checkNames_toOption]
  congr 1
  split
  · rfl
  cases htype : r.type with
  | none => rfl
  | some type =>
    rw [toOption_bind,toOption_bind,drafted_order formats block htype hgood]

theorem convertAll_order (orders orders' : ℕ → Order) {data : List (TimeseriesResult F)}
    (hgood : ∀ r ∈ data, Good formats block r) (i : ℕ) (datasets : List (Text × Dataset F)) :
    (convertAll formats block orders i datasets data).toOption =
      (convertAll formats block orders' i datasets data).toOption := by
  induction data generalizing i datasets with
  | nil => rfl
  | cons r rest ih =>
    rw [convertAll,convertAll,toOption_bind,toOption_bind,
      convertOne_order formats block (hgood r mem_cons_self)]
    congr 1
    funext next
    exact ih (fun x hx => hgood x (mem_cons_of_mem r hx)) (i+1) next

def eventWrite (order : Order) (e : Text × RichValue F) : Option (Text × Any F) :=
  if e.2.isNull then none
  else (valueFor formats block order .event (eventTarget e.1) e).map (fun v => (eventTarget e.1,v))

theorem plannedEvent_row {d : Draft F} (out : Draft F) {e : Text × RichValue F}
    (h : plannedEvent formats order block.time d e = .ok out) :
    out.row = putAll d.row (eventWrite formats block order e).toList ∧
      (∃ p, renameEvent e.1 = .ok p) ∧
      (e.2.isNull = false → (eventWrite formats block order e).isSome) := by
  obtain ⟨plan,hp,h⟩ := bind_ok h
  obtain ⟨renamed,hr,hp⟩ := bind_ok hp
  cases hnull : e.2.isNull with
  | true =>
    rw [hnull] at hp
    cases hp
    cases h
    exact ⟨by simp [eventWrite,hnull,putAll],⟨renamed,hr⟩,by simp⟩
  | false =>
    rw [hnull] at hp
    rcases hv : eventValue formats order block.time [e.1] (eventTarget e.1) e.2 with err | s
    · rw [hv] at hp
      cases hp
    rw [hv] at hp
    cases hp
    obtain ⟨fields,-,h⟩ := bind_ok h
    cases h
    have hw : eventWrite formats block order e = some (eventTarget e.1,s.value) := by
      simp [eventWrite,hnull,valueFor,hv,Except.toOption]
    exact ⟨by rw [hw]; rfl,⟨renamed,hr⟩,by simp [hw]⟩

theorem events_row (d : Draft F) {out : Draft F}
    (h : l.foldlM (plannedEvent formats order block.time) d = .ok out) :
    out.row = putAll d.row (l.filterMap (eventWrite formats block order)) ∧
      ∀ e ∈ l, (∃ p, renameEvent e.1 = .ok p) ∧
        (e.2.isNull = false → (eventWrite formats block order e).isSome) := by
  induction l generalizing d with
  | nil =>
    cases h
    exact ⟨rfl,fun e he => absurd he not_mem_nil⟩
  | cons e rest ih =>
    obtain ⟨next,hnext,h⟩ := bind_ok h
    obtain ⟨hrow,hrename,hsome⟩ := plannedEvent_row formats block next hnext
    obtain ⟨hrest,hall⟩ := ih next h
    refine ⟨?_,fun x hx => ?_⟩
    · rw [hrest,hrow,filterMap_cons_toList,putAll_append]
    rcases mem_cons.mp hx with rfl | hx
    · exact ⟨hrename,hsome⟩
    · exact hall x hx

def fixedPlace (order : Order) (type : MetaType) (target : Text → Text) (e : Text × RichValue F) :
    Option (Place F) :=
  if e.2.isNull then none
  else some ⟨e.1,target e.1,valueFor formats block order type (target e.1) e⟩

variable {target : Text → Text} {e : Text × RichValue F}

theorem fixedPlace_eq {p : Place F} (h : fixedPlace formats block order type target e = some p) :
    e.2.isNull = false ∧
      p = ⟨e.1,target e.1,valueFor formats block order type (target e.1) e⟩ := by
  rw [fixedPlace] at h
  split at h
  · cases h
  · rename_i hnull
    exact ⟨by simpa using hnull,(Option.some.inj h).symm⟩

/-- A column that the name decides, since no other field's column is looked at. -/
theorem places_fixed (hn : (l.map Prod.fst).Nodup) (taken : Text → Bool)
    (hbase : ∀ e ∈ l, e.2.isNull = false → columnFor type taken e.1 = target e.1)
    (hother : ∀ x ∈ l, ∀ e ∈ l, x.2.isNull = false → e.2.isNull = false → x.1 ≠ e.1 → ∀ taken,
      columnFor type (fun y => y = target e.1 || taken y) x.1 = columnFor type taken x.1) :
    places formats block order type taken l =
      l.filterMap (fixedPlace formats block order type target) := by
  induction l generalizing taken with
  | nil => rfl
  | cons e rest ih =>
    obtain ⟨hnot,hrest⟩ := nodup_cons.mp hn
    have hlater : ∀ x ∈ rest, ∀ y ∈ rest, x.2.isNull = false → y.2.isNull = false → x.1 ≠ y.1 →
        ∀ taken, columnFor type (fun z => z = target y.1 || taken z) x.1 =
          columnFor type taken x.1 :=
      fun x hx y hy => hother x (mem_cons_of_mem e hx) y (mem_cons_of_mem e hy)
    rw [places,filterMap_cons_toList,fixedPlace]
    rcases hnull : e.2.isNull with _ | _
    swap
    · exact ih hrest taken (fun x hx => hbase x (mem_cons_of_mem e hx)) hlater
    have hcol := hbase e mem_cons_self hnull
    simp only [hcol]
    rw [ih hrest (fun y => y = target e.1 || taken y) ?_ hlater]
    · rfl
    intro x hx hxn
    have hne : x.1 ≠ e.1 := fun heq => hnot (heq ▸ mem_map_of_mem hx)
    rw [hother x (mem_cons_of_mem e hx) e mem_cons_self hxn hnull hne]
    exact hbase x (mem_cons_of_mem e hx) hxn

theorem event_column {name : Text} : columnFor .event isSystem name = eventTarget name := by
  rw [columnFor,eventTarget,isSystem]
  simp

variable {name : Text} {taken : Text → Bool}

theorem event_column_other {n other m : Text} {b c : Bool} (h : renameEvent name = .ok (n,b))
    (ho : renameEvent other = .ok (m,c)) (hne : name ≠ other) :
    columnFor .event (fun y => y = eventTarget other || taken y) name =
      columnFor .event taken name := by
  rw [columnFor,columnFor]
  obtain ⟨-,rfl | rfl | rfl | hc⟩ := renameEvent_cases h
  · simp [show eventAllowOverwriteField (eventName (text "severity")) by decide]
  · simp [show eventAllowOverwriteField (eventName (text "distinctEntityId")) by decide]
  · simp [show eventAllowOverwriteField (eventName systemUserID) by decide]
  have hcol := target_ne_custom ho hc hne
  rw [custom_eventName hc]
  simp [hcol]

theorem metric_column (ht : type ≠ .event)
    (hv : name ≠ metricValueFieldName) (taken : Text → Bool) :
    columnFor type taken name = if taken name then escaped name else name := by
  cases type with
  | event => exact absurd rfl ht
  | gauge | counter => rw [columnFor,if_neg hv]; simp

def fieldTarget (name : Text) : Text :=
  if name = metricValueFieldName then name else metricTarget name

theorem value_column (ht : type ≠ .event) :
    columnFor type taken metricValueFieldName = metricValueFieldName := by
  cases type with
  | event => exact absurd rfl ht
  | gauge | counter => rw [columnFor,if_pos rfl]; simp

/-- Columns of their own, from what is put into the row. -/
theorem own_of_writes {base writes : List (Text × Any F)}
    (hplaces : placesOf formats block order r type =
      (order.arrange [] r.data).filterMap (fixedPlace formats block order type target))
    (hn : (writes.map Prod.fst).Nodup) (hstored : ∀ e ∈ r.data, e.2.isNull = false → ∃ v,
      valueFor formats block order type (target e.1) e = some v ∧ (target e.1,v) ∈ writes)
    (hdistinct : ∀ x ∈ r.data, ∀ y ∈ r.data, x.2.isNull = false → y.2.isNull = false →
      x.1 ≠ y.1 → target x.1 ≠ target y.1)
    (hallowed : ∀ e ∈ r.data, e.2.isNull = false → target e.1 ∈ systemColumns →
      type = .event ∧ eventAllowOverwriteField (target e.1))
    (hkept : ∀ c ∈ systemColumns, c ∈ writes.map Prod.fst →
      ∃ e ∈ r.data, e.2.isNull = false ∧ target e.1 = c)
    (hbase : ∀ c ∈ systemColumns, find base c = find (initialRow block r.metadata) c) :
    OwnColumns formats block order r type (putAll base writes) := by
  have hmem := mem_arrange order r.data
  have hplace : ∀ p, p ∈ placesOf formats block order r type ↔ ∃ e ∈ r.data, e.2.isNull = false ∧
        p = ⟨e.1,target e.1,valueFor formats block order type (target e.1) e⟩ := by
    intro p
    rw [hplaces,mem_filterMap]
    constructor
    · rintro ⟨e,he,hp⟩
      obtain ⟨hnull,rfl⟩ := fixedPlace_eq formats block hp
      exact ⟨e,(hmem e).mp he,hnull,rfl⟩
    · rintro ⟨e,he,hnull,rfl⟩
      exact ⟨e,(hmem e).mpr he,by simp [fixedPlace,hnull]⟩
  constructor
  · rw [hplaces]
    refine filterMap_nodup (arrange_nodup order r.sorted) ?_
    intro x hx y hy a b ha hb hne
    obtain ⟨hxn,rfl⟩ := fixedPlace_eq formats block ha
    obtain ⟨hyn,rfl⟩ := fixedPlace_eq formats block hb
    exact hdistinct x ((hmem x).mp hx) y ((hmem y).mp hy) hxn hyn hne
  · intro p hp
    obtain ⟨e,he,hnull,rfl⟩ := (hplace p).mp hp
    obtain ⟨v,hv,hw⟩ := hstored e he hnull
    refine ⟨by simp [hv],?_⟩
    rw [hv]
    exact find_putAll_of_mem base hn hw
  · intro p hp hsys
    obtain ⟨e,he,hnull,rfl⟩ := (hplace p).mp hp
    exact hallowed e he hnull hsys
  intro c hc hnot
  rw [find_putAll_other,hbase c hc]
  intro hw
  obtain ⟨e,he,hnull,rfl⟩ := hkept c hc hw
  exact hnot (mem_map.mpr ⟨_,(hplace _).mpr ⟨e,he,hnull,rfl⟩,rfl⟩)

theorem event_places (order : Order) (hnames : ∀ e ∈ r.data, ∃ p, renameEvent e.1 = .ok p) :
    placesOf formats block order r .event =
      (order.arrange [] r.data).filterMap
        (fixedPlace formats block order .event eventTarget) := by
  have hsub := arrange_subset order r.data
  apply places_fixed
  · exact arrange_nodup order r.sorted
  · intro e _ _
    exact event_column
  intro x hx e he _ _ hne taken
  obtain ⟨px,hpx⟩ := hnames x (hsub hx)
  obtain ⟨pe,hpe⟩ := hnames e (hsub he)
  exact event_column_other hpx hpe hne

theorem metric_places (ht : type ≠ .event) (hclash : NoClash r.data) :
    placesOf formats block order r type =
      (order.arrange [] r.data).filterMap (fixedPlace formats block order type fieldTarget) := by
  have hsub := arrange_subset order r.data
  apply places_fixed
  · exact arrange_nodup order r.sorted
  · intro e _ _
    rw [fieldTarget]
    split
    · rename_i hv
      rw [hv,value_column ht]
    rename_i hv
    rw [metric_column ht hv,metricTarget,isSystem]
    simp
  intro x hx e he hxn hen hne taken
  by_cases hv : x.1 = metricValueFieldName
  · rw [hv,value_column ht,value_column ht]
  have hcol : x.1 ≠ fieldTarget e.1 := by
    rw [fieldTarget]
    split
    · exact hne
    rw [metricTarget]
    split
    · rename_i hsys
      intro heq
      exact hclash e.1 hsys ⟨⟨e.2,hsub he,hen⟩,⟨x.2,heq ▸ hsub hx,hxn⟩⟩
    · exact hne
  rw [metric_column ht hv,metric_column ht hv]
  simp [hcol]

theorem escaped_not_system (name : Text) : escaped name ∉ systemColumns := by
  have hheads : ∀ c ∈ systemColumns, c.head? ≠ some 'u' := by decide
  exact fun h => hheads _ h rfl

theorem eventTarget_allowed (h : eventTarget name ∈ systemColumns) :
    eventAllowOverwriteField (eventTarget name) := by
  rw [eventTarget] at h ⊢
  split
  · rename_i hc
    rw [if_pos hc] at h
    exact absurd h (escaped_not_system _)
  rename_i hc
  rw [if_neg hc] at h
  simpa [h] using hc

theorem fieldTarget_not_system (name : Text) : fieldTarget name ∉ systemColumns := by
  rw [fieldTarget]
  split
  · rename_i hv
    rw [hv]
    decide
  rw [metricTarget]
  split
  · exact escaped_not_system name
  · rename_i hn
    exact hn

theorem eventWrite_mem {p : Text × Any F} (h : eventWrite formats block order e = some p) :
    e.2.isNull = false ∧ p.1 = eventTarget e.1 ∧
      valueFor formats block order .event (eventTarget e.1) e = some p.2 := by
  rw [eventWrite] at h
  split at h
  · cases h
  rename_i hnull
  obtain ⟨v,hv,rfl⟩ := Option.map_eq_some_iff.mp h
  exact ⟨by simpa using hnull,rfl,hv⟩

theorem event_targets_distinct (hone : OneUser data)
    (hnames : ∀ e ∈ data, ∃ p, renameEvent e.1 = .ok p) (x : Text × RichValue F) (hx : x ∈ data)
    (y : Text × RichValue F) (hy : y ∈ data) (hxn : x.2.isNull = false) (hyn : y.2.isNull = false)
    (hne : x.1 ≠ y.1) : eventTarget x.1 ≠ eventTarget y.1 := by
  obtain ⟨px,hpx⟩ := hnames x hx
  obtain ⟨py,hpy⟩ := hnames y hy
  intro heq
  rcases target_injective hpx hpy hne heq with ⟨h1,h2⟩ | ⟨h1,h2⟩
  · exact hone ⟨⟨x.2,h1 ▸ hx,hxn⟩,⟨y.2,h2 ▸ hy,hyn⟩⟩
  · exact hone ⟨⟨y.2,h2 ▸ hy,hyn⟩,⟨x.2,h1 ▸ hx,hxn⟩⟩

variable {d : Draft F} {fields : List (Text × Field)}

theorem event_drafted (h : drafted formats block order r .event fields = .ok d) :
    d.row = putAll (initialRow block r.metadata)
        ((order.arrange [] r.data).filterMap (eventWrite formats block order)) ∧
      (∀ e ∈ r.data, ∃ p, renameEvent e.1 = .ok p) ∧
      (∀ e ∈ r.data, e.2.isNull = false → (eventWrite formats block order e).isSome) := by
  have hmem := mem_arrange order r.data
  have hplanned := updateEvents_planned formats order block.time r.data r.sorted
    ⟨initialRow block r.metadata,fields⟩ (ready_initial block)
  have hrun := hplanned.symm.trans h
  obtain ⟨hrow,hall⟩ := events_row formats block _ hrun
  exact ⟨hrow,fun e he => (hall e ((hmem e).mpr he)).1,fun e he => (hall e ((hmem e).mpr he)).2⟩

theorem own_event (hone : OneUser r.data)
    (h : drafted formats block order r .event fields = .ok d) :
    OwnColumns formats block order r .event d.row := by
  obtain ⟨hrow,hnames,hsome⟩ := event_drafted formats block h
  have hmem := mem_arrange order r.data
  have hdistinct := event_targets_distinct hone hnames
  rw [hrow]
  refine own_of_writes formats block
    (event_places formats block order hnames) ?_ ?_ hdistinct ?_ ?_ (fun _ _ => rfl)
  · refine filterMap_nodup (arrange_nodup order r.sorted) ?_
    intro x hx y hy a b ha hb hne
    obtain ⟨hxn,hax,-⟩ := eventWrite_mem formats block ha
    obtain ⟨hyn,hby,-⟩ := eventWrite_mem formats block hb
    rw [hax,hby]
    exact hdistinct x ((hmem x).mp hx) y ((hmem y).mp hy) hxn hyn hne
  · intro e he hnull
    obtain ⟨p,hp⟩ := Option.isSome_iff_exists.mp (hsome e he hnull)
    obtain ⟨-,hcol,hv⟩ := eventWrite_mem formats block hp
    refine ⟨p.2,hv,mem_filterMap.mpr ⟨e,(hmem e).mpr he,?_⟩⟩
    rw [hp,← hcol]
  · intro e _ _ hsys
    exact ⟨rfl,eventTarget_allowed hsys⟩
  intro c _ hc
  obtain ⟨p,hp,rfl⟩ := mem_map.mp hc
  obtain ⟨e,he,hw⟩ := mem_filterMap.mp hp
  obtain ⟨hnull,hcol,-⟩ := eventWrite_mem formats block hw
  exact ⟨e,(hmem e).mp he,hnull,hcol.symm⟩

theorem metric_drafted
    (ht : type ≠ .event) (h : drafted formats block order r type fields = .ok d) :
    d = updateMetrics formats order r.data ⟨initialRow block r.metadata,fields⟩ := by
  cases type with
  | event => exact absurd rfl ht
  | gauge | counter =>
    dsimp only [drafted] at h
    split at h
    · cases h
    · exact (Except.ok.inj h).symm

theorem metricWrite_value (ht : type ≠ .event) (hnull : e.2.isNull = false) :
    ∃ v, valueFor formats block order type (fieldTarget e.1) e = some v ∧
      metricWrite formats e = some (fieldTarget e.1,v) := by
  cases type with
  | event => exact absurd rfl ht
  | gauge | counter =>
    by_cases hv : e.1 = metricValueFieldName
    · simp [valueFor,metricWrite,fieldTarget,hv]
    · simp [valueFor,metricWrite,fieldTarget,hv,hnull]

theorem own_metric (ht : type ≠ .event)
    (hclash : NoClash r.data) (h : drafted formats block order r type fields = .ok d) :
    OwnColumns formats block order r type d.row := by
  have hsub := arrange_subset order r.data
  have hnodup := metricWrite_nodup formats (arrange_nodup order r.sorted) (noClash_mono hsub hclash)
  have hmem := mem_arrange order r.data
  rw [metric_drafted formats block ht h,updateMetrics_planned formats order r.sorted hclash
      (labelsReady_initial formats block r.metadata fields)]
  refine own_of_writes formats block (metric_places formats block ht hclash) hnodup ?_ ?_ ?_ ?_ ?_
  · intro e he hnull
    obtain ⟨v,hv,hw⟩ := metricWrite_value formats block ht hnull
    exact ⟨v,hv,mem_filterMap.mpr ⟨e,(hmem e).mpr he,hw⟩⟩
  · intro x hx y hy hxn hyn hne heq
    rw [fieldTarget,fieldTarget] at heq
    split at heq <;> split at heq
    · exact hne heq
    · rename_i hxv hyv
      exact metricTarget_ne_value hyv (heq.symm.trans hxv)
    · rename_i hxv hyv
      exact metricTarget_ne_value hxv (heq.trans hyv)
    · exact hne (metricTarget_injective hclash ⟨x.2,hx,hxn⟩ ⟨y.2,hy,hyn⟩ heq)
  · intro e _ _ hsys
    exact absurd hsys (fieldTarget_not_system e.1)
  · intro c hc hw
    obtain ⟨p,hp,rfl⟩ := mem_map.mp hw
    obtain ⟨e,-,hw⟩ := mem_filterMap.mp hp
    have hnot := fieldTarget_not_system e.1
    rw [fieldTarget] at hnot
    rcases metricWrite_cases formats hw with ⟨hev,hcol⟩ | ⟨hev,-,hcol⟩
    · rw [if_pos hev,hev,← hcol] at hnot
      exact absurd hc hnot
    · rw [if_neg hev,← hcol] at hnot
      exact absurd hc hnot
  · intro c hc
    rw [startMetric,find_put,if_neg]
    rintro rfl
    exact absurd hc (by decide)

theorem own_of_good (htype : r.type = some type) (hgood : Good formats block r)
    (h : drafted formats block order r type fields = .ok d) :
    OwnColumns formats block order r type d.row := by
  rw [Good,htype] at hgood
  cases type with
  | event => exact own_event formats block hgood.1 h
  | gauge | counter => exact own_metric formats block (by decide) hgood h

end
end Sentio.ConvertResult
