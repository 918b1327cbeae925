import SentioCore.ConvertResult

/-!
# Conversions agree whatever the order of maps

What holds of one result is carried through a list of results: datasets are only
added to, so that a row is seen in the end as it was drafted.
-/

namespace Sentio.ConvertAgreement
open OrderedMap ConvertModel ConvertOrder ConvertColumns ConvertResult List Except Function
open BcsModel (Text)
open ByteCodec (bind_ok)

section
variable {F : Type} (formats : Formats F) (block : Block)
  {r : TimeseriesResult F} {next : List (Text × Dataset F)} {order : Order}
    {datasets : List (Text × Dataset F)}

theorem convertOne_ok (h : convertOne formats block order datasets r = .ok next) :
    (r.type = none ∧ next = datasets) ∨
    ∃ type d, r.type = some type ∧
      drafted formats block order r type
        (datasetOf datasets type r.metadata.name).meta.fields = .ok d ∧
      next = put (fullName type r.metadata.name)
        ⟨{(datasetOf datasets type r.metadata.name).meta with fields := d.fields},
          (datasetOf datasets type r.metadata.name).rows++[d.row]⟩ datasets := by
  rw [convertOne] at h
  split at h
  · cases h
  obtain ⟨u,-,h⟩ := bind_ok h
  split at h
  · cases h
  cases htype : r.type with
  | none =>
    rw [htype] at h
    exact .inl ⟨rfl,(ok.inj h).symm⟩
  | some type =>
    rw [htype] at h
    obtain ⟨d,hd,h⟩ := bind_ok h
    exact .inr ⟨type,d,rfl,hd,(ok.inj h).symm⟩

structure Base (datasets : List (Text × Dataset F)) : Prop where
  sorted : Sorted datasets
  named : ∀ e ∈ datasets, e.1 = fullName e.2.meta.type e.2.meta.name
  plain : ∀ e ∈ datasets, e.2.meta.aggregation = none

variable {name : Text} {type : MetaType}

theorem datasetOf_base (h : Base datasets) :
    fullName type name = fullName (datasetOf datasets type name).meta.type
        (datasetOf datasets type name).meta.name ∧
      (datasetOf datasets type name).meta.aggregation = none := by
  rw [datasetOf]
  cases hf : find datasets (fullName type name) with
  | none => exact ⟨rfl,rfl⟩
  | some ds =>
    have hmem := mem_of_find hf
    exact ⟨h.named _ hmem,h.plain _ hmem⟩

theorem convertOne_base (hb : Base datasets)
    (h : convertOne formats block order datasets r = .ok next) : Base next := by
  rcases convertOne_ok formats block h with ⟨-,rfl⟩ | ⟨type,d,-,-,rfl⟩
  · exact hb
  obtain ⟨hname,hplain⟩ := datasetOf_base hb
  refine ⟨put_sorted hb.sorted,fun e he => ?_,fun e he => ?_⟩
  · rcases mem_put he with rfl | he
    · exact hname
    · exact hb.named e he
  rcases mem_put he with rfl | he
  · exact hplain
  · exact hb.plain e he

variable {data : List (TimeseriesResult F)} {orders : ℕ → Order}

theorem convertAll_base (i : ℕ) (datasets out : List (Text × Dataset F)) (hb : Base datasets)
    (h : convertAll formats block orders i datasets data = .ok out) : Base out := by
  induction data generalizing i datasets with
  | nil =>
    cases h
    exact hb
  | cons r rest ih =>
    obtain ⟨next,hnext,h⟩ := bind_ok h
    exact ih (i+1) next (convertOne_base formats block hb hnext) h

def Extends (datasets later : List (Text × Dataset F)) : Prop :=
  ∀ k ds, find datasets k = some ds →
    ∃ ds' more, find later k = some ds' ∧ ds'.rows = ds.rows++more

theorem convertOne_extends (next : List (Text × Dataset F)) (r : TimeseriesResult F)
    (h : convertOne formats block order datasets r = .ok next) : Extends datasets next := by
  intro k ds hk
  rcases convertOne_ok formats block h with ⟨-,rfl⟩ | ⟨type,d,-,-,rfl⟩
  · exact ⟨ds,[],hk,(append_nil _).symm⟩
  rw [find_put]
  by_cases hkey : k = fullName type r.metadata.name
  · have hds : datasetOf datasets type r.metadata.name = ds := by
      rw [datasetOf,← hkey,hk]
      rfl
    rw [if_pos hkey,hds]
    exact ⟨_,[d.row],rfl,rfl⟩
  · rw [if_neg hkey]
    exact ⟨ds,[],hk,(append_nil _).symm⟩

theorem convertAll_extends (i : ℕ)
    (datasets : List (Text × Dataset F)) {out : List (Text × Dataset F)}
    (h : convertAll formats block orders i datasets data = .ok out) : Extends datasets out := by
  induction data generalizing i datasets with
  | nil =>
    cases h
    exact fun k ds hk => ⟨ds,[],hk,(append_nil _).symm⟩
  | cons r rest ih =>
    obtain ⟨next,hnext,h⟩ := bind_ok h
    intro k ds hk
    obtain ⟨ds1,more1,hk1,hrows1⟩ := convertOne_extends formats block next r hnext k ds hk
    obtain ⟨ds2,more2,hk2,hrows2⟩ := ih (i+1) next h k ds1 hk1
    exact ⟨ds2,more1++more2,hk2,by rw [hrows2,hrows1,append_assoc]⟩

theorem convertAll_append {before rest : List (TimeseriesResult F)} {i : ℕ} :
    convertAll formats block orders i datasets (before++rest) =
      convertAll formats block orders i datasets before >>= fun next =>
        convertAll formats block orders (i+before.length) next rest := by
  induction before generalizing i datasets with
  | nil => rfl
  | cons r before ih =>
    rw [cons_append,convertAll,convertAll]
    cases convertOne formats block (orders i) datasets r with
    | error e => rfl
    | ok next =>
      change convertAll formats block orders (i+1) next (before++rest) = _
      rw [ih,Nat.add_right_comm]
      rfl

theorem convertAll_congr (orders' : ℕ → Order) (data : List (TimeseriesResult F)) (i : ℕ)
    (datasets : List (Text × Dataset F)) (h : ∀ j, j < i+data.length → orders j = orders' j) :
    convertAll formats block orders i datasets data =
      convertAll formats block orders' i datasets data := by
  induction data generalizing i datasets with
  | nil => rfl
  | cons r rest ih =>
    rw [length_cons] at h
    rw [convertAll,h i (by omega)]
    congr 1
    funext next
    exact ih (i+1) next (fun j hj => h j (by omega))

variable {out : List (Text × Dataset F)} {before after : List (TimeseriesResult F)}

/-- A result that is converted is drafted on the way, and its row is found in the end. -/
theorem drafted_on_the_way (htype : r.type = some type)
    (h : convertAll formats block orders 1 [] (before++r::after) = .ok out) :
    ∃ datasets d, convertAll formats block orders 1 [] before = .ok datasets ∧
      drafted formats block (orders (before.length+1)) r type
        (datasetOf datasets type r.metadata.name).meta.fields = .ok d ∧
      ∃ ds more, find out (fullName type r.metadata.name) = some ds ∧
        ds.rows = (datasetOf datasets type r.metadata.name).rows++d.row::more := by
  rw [convertAll_append] at h
  obtain ⟨datasets,hbefore,h⟩ := bind_ok h
  rw [Nat.add_comm 1] at h
  obtain ⟨next,hnext,h⟩ := bind_ok h
  rcases convertOne_ok formats block hnext with ⟨hnone,-⟩ | ⟨ty,d,hty,hd,rfl⟩
  · rw [htype] at hnone
    cases hnone
  obtain rfl : type = ty := Option.some.inj (htype.symm.trans hty)
  obtain ⟨ds,more,hds,hrows⟩ := convertAll_extends formats block _ _ h _ _
    ((find_put _ _ _ _).trans (if_pos rfl))
  refine ⟨datasets,d,hbefore,hd,ds,more,hds,?_⟩
  rw [hrows]
  simp

variable (metricConfigs : MetaType → Text → Option MetricConfig)

def output (order : Order) (datasets : List (Text × Dataset F)) : List (Dataset F) :=
  (order.arrange [] datasets).flatMap (fun e => e.2::aggregations metricConfigs e.2)

theorem convert_ok {dss : List (Dataset F)}
    (h : convert formats block metricConfigs orders data = .ok dss) :
    ∃ out, convertAll formats block orders 1 [] data = .ok out ∧
      dss = output metricConfigs (orders 0) out := by
  obtain ⟨out,hout,h⟩ := bind_ok h
  exact ⟨out,hout,(ok.inj h).symm⟩

variable {ds : Dataset F} {k : Text}

theorem mem_output (h : find out k = some ds) : ds ∈ output metricConfigs order out := by
  have hmem := (order.arrange_perm [] out).mem_iff.mpr (mem_of_find h)
  exact mem_flatMap.mpr ⟨(k,ds),hmem,mem_cons_self⟩

theorem aggregations_derived :
    ∀ a ∈ aggregations metricConfigs ds, a.meta.aggregation.isNone = false := by
  intro a ha
  rw [aggregations] at ha
  split at ha
  · exact absurd ha not_mem_nil
  split at ha
  · exact absurd ha not_mem_nil
  · obtain ⟨t,-,rfl⟩ := mem_map.mp ha
    rfl

theorem output_filter {l : List (Text × Dataset F)} (h : ∀ e ∈ l, e.2.meta.aggregation = none) :
    (l.flatMap (fun e => e.2::aggregations metricConfigs e.2)).filter
      (fun ds => ds.meta.aggregation.isNone) = l.map Prod.snd := by
  induction l with
  | nil => rfl
  | cons e rest ih =>
    have hagg : (aggregations metricConfigs e.2).filter
        (fun ds => ds.meta.aggregation.isNone) = [] :=
      filter_eq_nil_iff.mpr (fun a ha => by
        simp [aggregations_derived metricConfigs a ha])
    rw [flatMap_cons,cons_append,filter_cons_of_pos
      (by simp [h e mem_cons_self]),filter_append,hagg,nil_append,
      ih (fun x hx => h x (mem_cons_of_mem e hx)),map_cons]

theorem output_injective {o q : Order} {out' : List (Text × Dataset F)} (hb : Base out)
    (hb' : Base out') (h : (output metricConfigs o out).Perm (output metricConfigs q out')) :
    out = out' := by
  have hfilter := h.filter (fun ds => ds.meta.aggregation.isNone)
  rw [output,output,
    output_filter metricConfigs (fun e he => hb.plain e ((o.arrange_perm [] out).mem_iff.mp he)),
    output_filter metricConfigs
      (fun e he => hb'.plain e ((q.arrange_perm [] out').mem_iff.mp he))] at hfilter
  have hvalues : (out.map Prod.snd).Perm (out'.map Prod.snd) :=
    ((o.arrange_perm [] out).map Prod.snd).symm.trans
      (hfilter.trans ((q.arrange_perm [] out').map Prod.snd))
  have hkeyed : ∀ l : List (Text × Dataset F), Base l →
      (l.map Prod.snd).map (fun ds => (fullName ds.meta.type ds.meta.name,ds)) = l := by
    intro l hl
    rw [map_map]
    have hid : ∀ e ∈ l, (fullName e.2.meta.type e.2.meta.name,e.2) = id e :=
      fun e he => Prod.ext (hl.named e he).symm rfl
    exact (map_congr_left hid).trans (map_id l)
  have hperm := hvalues.map (fun ds => (fullName ds.meta.type ds.meta.name,ds))
  rw [hkeyed out hb,hkeyed out' hb'] at hperm
  exact sorted_unique out out' hb.sorted hb'.sorted hperm

def Agree (x y : Except Err (List (Dataset F))) : Prop :=
  match x, y with
  | .ok a, .ok b => a.Perm b
  | .error _, .error _ => True
  | _, _ => False

def Independent (data : List (TimeseriesResult F)) : Prop :=
  ∀ orders orders', Agree (convert formats block metricConfigs orders data)
    (convert formats block metricConfigs orders' data)

/-- Every row of the output has columns of their own for the fields of its result. -/
def Own (data : List (TimeseriesResult F)) : Prop :=
  ∀ orders dss, convert formats block metricConfigs orders data = .ok dss →
    ∀ before r after type, data = before++r::after → r.type = some type →
      ∃ datasets d, convertAll formats block orders 1 [] before = .ok datasets ∧
        drafted formats block (orders (before.length+1)) r type
          (datasetOf datasets type r.metadata.name).meta.fields = .ok d ∧
        (∃ ds ∈ dss, d.row ∈ ds.rows) ∧
        OwnColumns formats block (orders (before.length+1)) r type d.row

def Fails (data : List (TimeseriesResult F)) : Prop :=
  ∀ orders, ∃ e, convert formats block metricConfigs orders data = .error e

theorem convert_agree {orders' : ℕ → Order} (hgood : ∀ r ∈ data, Good formats block r) :
    Agree (convert formats block metricConfigs orders data)
      (convert formats block metricConfigs orders' data) := by
  have hall := convertAll_order formats block orders orders' hgood 1 []
  rw [convert,convert]
  rcases h : convertAll formats block orders 1 [] data with e | out
  · cases h' : convertAll formats block orders' 1 [] data with
    | error e' => trivial
    | ok out =>
      rw [h,h'] at hall
      cases hall
  cases h' : convertAll formats block orders' 1 [] data with
  | error e' =>
    rw [h,h'] at hall
    cases hall
  | ok out' =>
    rw [h,h'] at hall
    obtain rfl : out = out' := Option.some.inj hall
    exact (((orders 0).arrange_perm [] out).trans ((orders' 0).arrange_perm [] out).symm).flatMap_right _

theorem own_of_all_good
    (hgood : ∀ r ∈ data, Good formats block r) : Own formats block metricConfigs data := by
  rintro orders dss h before r after type rfl htype
  obtain ⟨out,hout,rfl⟩ := convert_ok formats block metricConfigs h
  obtain ⟨datasets,d,hbefore,hd,ds,more,hds,hrows⟩ :=
    drafted_on_the_way formats block htype hout
  refine ⟨datasets,d,hbefore,hd,⟨ds,mem_output metricConfigs hds,?_⟩,?_⟩
  · rw [hrows]
    simp
  · exact own_of_good formats block htype (hgood r (by simp)) hd

theorem agree_ok {x y : Except Err (List (Dataset F))} (h : Agree x y) {a : List (Dataset F)}
    (hx : x = .ok a) : ∃ b, y = .ok b ∧ a.Perm b := by
  subst hx
  cases y with
  | error e => cases h
  | ok b => exact ⟨b,rfl,h⟩

variable {e : Text × RichValue F}

theorem mem_places {l : List (Text × RichValue F)}
    (taken : Text → Bool) (he : e ∈ l) (hnull : e.2.isNull = false) :
    ∃ p ∈ places formats block order type taken l, p.name = e.1 ∧
      ∃ t : Text → Bool, p.column = columnFor type t e.1 := by
  induction l generalizing taken with
  | nil => exact absurd he not_mem_nil
  | cons x rest ih =>
    rw [places]
    rcases mem_cons.mp he with rfl | he
    · rw [hnull]
      exact ⟨_,mem_cons_self,rfl,taken,rfl⟩
    split
    · exact ih taken he
    · obtain ⟨p,hp,hname⟩ := ih (fun y => y = columnFor type taken x.1 || taken y) he
      exact ⟨p,mem_cons_of_mem _ hp,hname⟩

/-- An event that gives the user's id twice writes one column twice. -/
theorem oneUser_of_own {row : List (Text × Any F)}
    (h : OwnColumns formats block order r .event row) : OneUser r.data := by
  rintro ⟨⟨v,hv,hvn⟩,⟨w,hw,hwn⟩⟩
  have hmem : ∀ e, e ∈ r.data → e ∈ order.arrange [] r.data :=
    fun e => (order.arrange_perm [] r.data).mem_iff.mpr
  obtain ⟨p,hp,hpname,t,hpcol⟩ := mem_places formats block isSystem (hmem _ hv) hvn
  obtain ⟨q,hq,hqname,u,hqcol⟩ := mem_places formats block isSystem (hmem _ hw) hwn
  have hallow : eventAllowOverwriteField (eventName systemUserID) := by decide
  have hallow' : eventAllowOverwriteField (eventName (text "distinctEntityId")) := by decide
  have hcol : p.column = q.column := by
    rw [hpcol,hqcol,columnFor,columnFor]
    simp only [hallow,hallow',Bool.not_true,Bool.and_false]
    decide
  have heq := inj_on_of_nodup_map h.distinct hp hq hcol
  rw [heq,hqname] at hpname
  have hne : text "distinctEntityId" ≠ systemUserID := by decide
  exact hne hpname

def bringFirst {V : Type} (k : Text) (m : List (Text × V)) : List (Text × V) :=
  m.filter (fun e => e.1 = k)++m.filter (fun e => !decide (e.1 = k))

variable {V : Type}

theorem bringFirst_perm (k : Text) (m : List (Text × V)) : (bringFirst k m).Perm m :=
  filter_append_perm _ m

def frontOrder (first next : Text) : Order where
  arrange _ m := bringFirst first (bringFirst next m)
  arrange_perm _ m := (bringFirst_perm first _).trans (bringFirst_perm next m)

variable {v : V} {m : List (Text × V)}

theorem bringFirst_cons (hn : (m.map Prod.fst).Nodup) (h : (k,v) ∈ m) :
    bringFirst k m = (k,v)::m.filter (fun e => !decide (e.1 = k)) := by
  have hone : m.filter (fun e => decide (e.1 = k)) = [(k,v)] := by
    refine KeyedRows.filter_eq_singleton _ m (k,v) h (by simp) ?_
    refine (pairwise_map.mp hn).imp ?_
    intro a b hne hab
    simp only [decide_eq_true_eq] at hab
    exact hne (hab.1.trans hab.2.symm)
  rw [bringFirst,hone]
  rfl

theorem frontOrder_arrange {j : Text} (hne : k ≠ j) {w : V}
    (hn : (m.map Prod.fst).Nodup) (hk : (k,v) ∈ m) (hj : (j,w) ∈ m) :
    ∃ rest, (frontOrder k j).arrange [] m = (k,v)::(j,w)::rest := by
  have hnext := bringFirst_cons hn hj
  have hperm := bringFirst_perm j m
  have hfirst := bringFirst_cons ((hperm.map Prod.fst).nodup_iff.mpr hn) (hperm.mem_iff.mpr hk)
  refine ⟨(m.filter (fun e => !decide (e.1 = j))).filter (fun e => !decide (e.1 = k)),?_⟩
  change bringFirst k (bringFirst j m) = _
  rw [hfirst,hnext,filter_cons_of_pos (by simp [Ne.symm hne])]

/-- A label that bears the name another one is escaped to is overwritten in some order. -/
theorem noClash_of_own (ht : type ≠ .event)
    (h : ∀ order, ∃ row, OwnColumns formats block order r type row) : NoClash r.data := by
  rintro name hsys ⟨⟨v,hv,hvn⟩,⟨w,hw,hwn⟩⟩
  have hne : escaped name ≠ name := fun heq => escaped_not_system name (heq.symm ▸ hsys)
  have hval : name ≠ metricValueFieldName := by
    rintro rfl
    exact absurd hsys (by decide)
  obtain ⟨rest,hfront⟩ := frontOrder_arrange hne (sorted_nodup r.sorted) hw hv
  obtain ⟨row,hrow⟩ := h (frontOrder (escaped name) name)
  have hdistinct := hrow.distinct
  have hfirst : columnFor type isSystem (escaped name) = escaped name := by
    rw [metric_column ht (escaped_ne_value name),isSystem]
    simp [escaped_not_system name]
  have hnext : columnFor type (fun x => x = escaped name || isSystem x) name = escaped name := by
    rw [metric_column ht hval,isSystem]
    simp [hsys]
  rw [placesOf,hfront,places,hwn] at hdistinct
  simp only [Bool.false_eq_true,if_false,hfirst] at hdistinct
  rw [places,hvn] at hdistinct
  simp only [Bool.false_eq_true,if_false,hnext,map_cons,nodup_cons,
    mem_cons,true_or,not_true_eq_false,false_and] at hdistinct

theorem event_find (hone : OneUser r.data) {fields : List (Text × Field)} {d : Draft F}
    (h : drafted formats block order r .event fields = .ok d) (he : e ∈ r.data)
    (hnull : e.2.isNull = false) :
    find d.row (eventTarget e.1) = valueFor formats block order .event (eventTarget e.1) e := by
  obtain ⟨-,hnames,-⟩ := event_drafted formats block h
  have hmem := (order.arrange_perm [] r.data).mem_iff.mpr he
  have hplace : (⟨e.1,eventTarget e.1,
      valueFor formats block order .event (eventTarget e.1) e⟩ : Place F) ∈
      placesOf formats block order r .event := by
    rw [event_places formats block order hnames]
    exact mem_filterMap.mpr ⟨e,hmem,by simp [fixedPlace,hnull]⟩
  exact ((own_event formats block hone h).stored _ hplace).2

theorem valueFor_struct {column : Text} {fs : RichFields F} :
    valueFor formats block order .event column (name,.struct fs) =
      ((structText formats order block.time [name] fs).toOption.map Prod.fst).map Any.text := by
  dsimp only [valueFor]
  rw [eventValue]
  cases structText formats order block.time [name] fs <;> rfl

/-- A row that is the same in all orders holds texts that are the same in all orders. -/
theorem stable_of_independent (hdata : data = before++r::after) (htype : r.type = some .event)
    (hone : OneUser r.data) (hind : Independent formats block metricConfigs data)
    (hok : ∀ orders, ∃ dss, convert formats block metricConfigs orders data = .ok dss) :
    ∀ e ∈ r.data, RichValue.Stable formats block.time [e.1] e.2 := by
  intro e he
  obtain ⟨name,v⟩ := e
  cases v with
  | struct fs =>
    intro o q
    let orders : ℕ → Order := fun _ => o
    let orders' : ℕ → Order := update orders (before.length+1) q
    have hq : orders' (before.length+1) = q := update_self _ _ _
    obtain ⟨dss,hdss⟩ := hok orders
    obtain ⟨dss',hdss',hperm⟩ := agree_ok (hind orders orders') hdss
    obtain ⟨out,hout,rfl⟩ := convert_ok formats block metricConfigs hdss
    obtain ⟨out',hout',rfl⟩ := convert_ok formats block metricConfigs hdss'
    have hbase := convertAll_base formats block 1 [] out ⟨List.Pairwise.nil,nofun,nofun⟩ hout
    have hbase' := convertAll_base formats block 1 [] out' ⟨List.Pairwise.nil,nofun,nofun⟩ hout'
    obtain rfl := output_injective metricConfigs hbase hbase' hperm
    rw [hdata] at hout hout'
    obtain ⟨datasets,d,hbefore,hd,ds,more,hds,hrows⟩ :=
      drafted_on_the_way formats block htype hout
    obtain ⟨datasets',d',hbefore',hd',ds',more',hds',hrows'⟩ :=
      drafted_on_the_way formats block htype hout'
    have hsame := convertAll_congr formats block orders' before 1 []
      (fun j hj => (update_of_ne (by omega) q orders).symm)
    obtain rfl : datasets = datasets' :=
      ok.inj (hbefore.symm.trans (hsame.trans hbefore'))
    obtain rfl : ds = ds' := Option.some.inj (hds.symm.trans hds')
    have hrow : d.row = d'.row :=
      (List.cons.inj (append_cancel_left (hrows.symm.trans hrows'))).1
    have hf := event_find formats block hone hd he rfl
    have hf' := event_find formats block hone hd' he rfl
    rw [hrow,hf',hq] at hf
    rw [valueFor_struct,valueFor_struct] at hf
    exact (Option.map_injective (fun _ _ h => Any.text.inj h) hf).symm
  | _ => trivial

/-- A conversion gives the same datasets in every order of the maps, with columns of their own for
all fields, exactly if it never succeeds or all of its results are good. -/
theorem convert_independent_iff (data : List (TimeseriesResult F)) :
    (Independent formats block metricConfigs data ∧ Own formats block metricConfigs data) ↔
      (Fails formats block metricConfigs data ∨ ∀ r ∈ data, Good formats block r) := by
  constructor
  · rintro ⟨hind,hown⟩
    by_cases hfails : Fails formats block metricConfigs data
    · exact .inl hfails
    obtain ⟨orders,hsome⟩ := not_forall.mp hfails
    have hok : ∀ orders', ∃ dss, convert formats block metricConfigs orders' data = .ok dss := by
      intro orders'
      cases hc : convert formats block metricConfigs orders data with
      | error e => exact absurd ⟨e,hc⟩ hsome
      | ok dss =>
        obtain ⟨dss',h',-⟩ := agree_ok (hind orders orders') hc
        exact ⟨dss',h'⟩
    refine .inr (fun r hr => ?_)
    obtain ⟨before,after,hdata⟩ := append_of_mem hr
    have howned : ∀ type order, r.type = some type →
        ∃ row, OwnColumns formats block order r type row := by
      intro type order htype
      obtain ⟨dss,hdss⟩ := hok (fun _ => order)
      obtain ⟨-,d,-,-,-,ho⟩ := hown _ dss hdss before r after type hdata htype
      exact ⟨d.row,ho⟩
    rw [Good]
    rcases htype : r.type with _ | type
    · trivial
    cases type with
    | event =>
      obtain ⟨row,hrow⟩ := howned .event (orders 0) htype
      have hone := oneUser_of_own formats block hrow
      exact ⟨hone,stable_of_independent formats block metricConfigs hdata htype hone hind hok⟩
    | gauge =>
      exact noClash_of_own formats block (by decide)
        (fun order => howned .gauge order htype)
    | counter =>
      exact noClash_of_own formats block (by decide)
        (fun order => howned .counter order htype)
  · rintro (hfails | hgood)
    · refine ⟨fun orders orders' => ?_,fun orders dss h => ?_⟩
      · obtain ⟨e,he⟩ := hfails orders
        obtain ⟨e',he'⟩ := hfails orders'
        rw [he,he']
        trivial
      · obtain ⟨e,he⟩ := hfails orders
        rw [he] at h
        cases h
    · exact ⟨fun orders orders' => convert_agree formats block metricConfigs
        hgood,own_of_all_good formats block metricConfigs hgood⟩

end

def forward : Order := ⟨fun _ m => m,fun _ m => List.Perm.refl m⟩

def backward : Order := ⟨fun _ m => m.reverse,fun _ m => List.reverse_perm m⟩

def plainFormats : Formats ℕ where
  zero := 0
  ofInt i := i.toNat
  ofBigInt i := some i.toNat
  ofDecimal _ := 0
  parseFloat _ := none
  floatText _ := []
  timestampText _ := []
  decimalText _ := []
  marshal _ _ _ := []

def twoUsers : TimeseriesResult ℕ where
  metadata := ⟨text "Transfer",7,[],0,0,[],[]⟩
  type := some .event
  data := [(text "distinctEntityId",.string (text "alice")),(systemUserID,.string (text "bob"))]
  sorted := List.pairwise_pair.mpr (by decide)
  legal := by simp [RichValue.Legal]

def textOf {F : Type} : Option (Any F) → Text
  | some (.text s) => s
  | _ => []

def userIDs (order : Order) (data : List (TimeseriesResult ℕ)) : Option (List (List Text)) :=
  (convert plainFormats ⟨text "1",7,[],0⟩ (fun _ _ => none) (fun _ => order) data).toOption.map
    (fun dss => dss.map (fun ds => ds.rows.map (fun row => textOf (find row systemUserID))))

theorem user_id_depends_on_order : userIDs forward [twoUsers] = some [[text "bob"]] ∧
      userIDs backward [twoUsers] = some [[text "alice"]] := by
  decide +kernel

end Sentio.ConvertAgreement
