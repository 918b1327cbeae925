import SentioCore.EntityReference

/-!
# Boxes that stand for writes

A pending box of the controller stands for the writes of its block: whatever
the entity was before, where the writes are defined the box acts as they do.
A written box stands for itself, and merging one more write keeps this.
-/

namespace Sentio.EntityMerge
open DecimalArith NumericOperator OperatorMerge EntityHistory EntityReference
open Option (some.inj map_eq_some_iff)

section
variable {F : Type} (N : Numerals F) (check : Field → Value F → Bool) (t : EntityType)

theorem collect_eq_some {α : Type} {g : String → Option (Option α)} {m : FieldMap α} :
    collect t g = some m ↔
      (∀ name ∈ t.names, g name = some (m name)) ∧ ∀ name ∉ t.names, m name = none := by
  simp only [collect,Option.ite_none_right_eq_some,List.all_eq_true,Option.some.injEq]
  constructor
  · intro ⟨hall,hm⟩
    constructor
    · intro name hn
      obtain ⟨o,ho⟩ := Option.isSome_iff_exists.mp (hall name hn)
      simp only [← hm,ho,if_pos hn]
      rfl
    · intro name hn
      simp [← hm,if_neg hn]
  intro ⟨hin,hout⟩
  constructor
  · intro name hn
    rw [hin name hn]
    rfl
  funext name
  by_cases hn : name ∈ t.names
  · rw [if_pos hn,hin name hn]
    rfl
  · rw [if_neg hn,hout name hn]

variable {box : UncommittedEntityBox F} {s : Entity F}

theorem refBox_deletion (h : box.data = none) : refBox N check t box s = some none := by
  simp [refBox,h]

theorem refBox_eq_some {s' : Entity F} {data : FieldMap (Value F)} (hd : box.data = some data) :
    refBox N check t box s = some s' ↔ ∃ m, s' = some m ∧
      (∀ name ∈ t.names, ∃ v, m name = some v ∧
        refUpdate N check (t.field name) (entry box name) (prior N t s name) = some v) ∧
      ∀ name ∉ t.names, m name = none := by
  simp only [refBox,hd,map_eq_some_iff,collect_eq_some]
  constructor
  · intro ⟨m,⟨hin,hout⟩,hs⟩
    refine ⟨m,hs.symm,fun name hn => ?_,hout⟩
    obtain ⟨v,hv,hm⟩ := hin name hn
    exact ⟨v,hm.symm,hv⟩
  intro ⟨m,hs,hin,hout⟩
  refine ⟨m,⟨fun name hn => ?_,hout⟩,hs.symm⟩
  obtain ⟨v,hm,hv⟩ := hin name hn
  exact ⟨v,hv,hm.symm⟩

variable {name : String}

theorem entry_operator {op : Operator F}
    (h : box.operator name = some op) : entry box name = .operator op := by
  simp [entry,h]

variable {data : FieldMap (Value F)}

theorem entry_value {v : Value F} (hd : box.data = some data) (ho : box.operator name = none)
    (hv : data name = some v) : entry box name = .value v := by
  simp [entry,ho,hd,hv]

theorem complete_cases (hc : Complete t box) (hd : box.data = some data) (hn : name ∈ t.names) :
    (∃ op, box.operator name = some op ∧ data name = none ∧ entry box name = .operator op) ∨
      ∃ v, box.operator name = none ∧ data name = some v ∧ entry box name = .value v := by
  simp only [Complete,hd] at hc
  have hone := hc.1 name hn
  cases ho : box.operator name with
  | some op =>
    have hnone : data name = none := by
      cases hv : data name with
      | none => rfl
      | some v => rw [ho,hv] at hone; simp at hone
    exact .inl ⟨op,rfl,hnone,entry_operator ho⟩
  | none =>
    obtain ⟨v,hv⟩ := Option.isSome_iff_exists.mp (hone.mpr ho)
    exact .inr ⟨v,rfl,hv,entry_value hd ho hv⟩

variable {s' : Entity F}

/-- Resolving a box computes its action, and the store accepts the result. -/
theorem calcFields_of_ref (hc : Complete t box) (hd : box.data = some data)
    (h : refBox N check t box s = some s') :
    ∃ m, s' = some m ∧ calcFields N t s data box.operator = some m ∧
      checkValue check t m := by
  obtain ⟨m,hs,hin,hout⟩ := (refBox_eq_some N check t hd).mp h
  refine ⟨m,hs,?_,?_⟩
  · apply (collect_eq_some t).mpr
    refine ⟨fun name hn => ?_,hout⟩
    obtain ⟨v,hm,hv⟩ := hin name hn
    rcases complete_cases t hc hd hn with ⟨op,ho,_,he⟩ | ⟨w,ho,hw,he⟩
    · rw [he] at hv
      have hcalc := calcOperator_of_ref N ((refUpdate_eq_some N check v).mp hv).1
      rw [prior] at hcalc
      simp [ho,hcalc,hm]
    · rw [he] at hv
      have hvw : w = v := some.inj ((refUpdate_eq_some N check v).mp hv).1
      simp [ho,hw,hm,hvw]
  · apply List.all_eq_true.mpr
    intro name hn
    obtain ⟨v,hm,hv⟩ := hin name hn
    rw [hm]
    exact ((refUpdate_eq_some N check v).mp hv).2

theorem refBox_values (hc : Complete t box) (ho : hasOperator t box = false)
    (h : refBox N check t box s = some s') : s' = box.data := by
  rcases hd : box.data with _ | data
  · rw [refBox_deletion N check t hd] at h
    exact (some.inj h).symm
  obtain ⟨m,hs,hin,hout⟩ := (refBox_eq_some N check t hd).mp h
  rw [hs]
  congr 1
  funext name
  by_cases hn : name ∈ t.names
  · obtain ⟨v,hm,hv⟩ := hin name hn
    rcases complete_cases t hc hd hn with ⟨op,hop,_⟩ | ⟨w,_,hw,he⟩
    · have hany := List.any_eq_false.mp ho name hn
      rw [hop] at hany
      exact absurd rfl hany
    rw [he] at hv
    have hvw : w = v := some.inj ((refUpdate_eq_some N check v).mp hv).1
    rw [hm,hw,hvw]
  · simp only [Complete,hd] at hc
    rw [hout name hn,(hc.2 name hn).1]

theorem checkValue_of_ref (hc : Complete t box) (hd : box.data = some data)
    (h : refBox N check t box s = some s') : checkValue check t data := by
  obtain ⟨m,_,hin,_⟩ := (refBox_eq_some N check t hd).mp h
  apply List.all_eq_true.mpr
  intro name hn
  obtain ⟨v,_,hv⟩ := hin name hn
  rcases complete_cases t hc hd hn with ⟨op,_,hnone,_⟩ | ⟨w,_,hw,he⟩
  · rw [hnone]
    rfl
  rw [he] at hv
  have hboth := (refUpdate_eq_some N check v).mp hv
  have hvw : w = v := some.inj hboth.1
  rw [hw,hvw]
  exact hboth.2

def updateValue : Update F → Option (Value F)
  | .value v => some v
  | .operator _ => none

def updateOperator : Update F → Option (Operator F)
  | .value _ => none
  | .operator op => some op

def fromUpdates (u : String → Update F) (n : ℕ) : UncommittedEntityBox F :=
  ⟨⟨some (fun name => if name ∈ t.names then updateValue (u name) else none),n⟩,
    fun name => if name ∈ t.names then updateOperator (u name) else none⟩

variable {n : ℕ} {u : String → Update F}

theorem fromUpdates_complete : Complete t (fromUpdates t u n) := by
  constructor
  · intro name hn
    simp only [if_pos hn,fromUpdates]
    cases u name <;> simp [updateValue,updateOperator]
  · intro name hn
    simp [if_neg hn,fromUpdates]

theorem fromUpdates_entry (hn : name ∈ t.names) : entry (fromUpdates t u n) name = u name := by
  simp only [entry,fromUpdates,if_pos hn,Option.bind_some]
  cases u name <;> rfl

theorem merged_field {e w : UncommittedEntityBox F} {old new : FieldMap (Value F)}
    {u : Update F} (hce : Complete t e) (hcw : Complete t w) (hde : e.data = some old)
    (hdw : w.data = some new) (hn : name ∈ t.names)
    (hu : mergeUpdate N (t.field name).type (entry e name) (entry w name) = some u) :
    (match w.operator name, coveredData old new name with
      | some op,some origin => (calcOperator N (t.field name).type origin op).map some
      | some _,none => some none
      | none,covered => some covered) = some (updateValue u) ∧
    (match w.operator name, coveredData old new name with
      | some op,none =>
        (mergeOperator N (t.field name).type ((e.operator name).getD ⟨none⟩) op).map some
      | _,_ => some none) = some (updateOperator u) := by
  rcases complete_cases t hcw hdw hn with ⟨op,hwo,hwv,hwe⟩ | ⟨v,hwo,hwv,hwe⟩
  · rcases complete_cases t hce hde hn with ⟨pre,heo,hev,hee⟩ | ⟨x,heo,hev,hee⟩
    · rw [hwe,hee] at hu
      obtain ⟨q,hq,rfl⟩ := map_eq_some_iff.mp hu
      simp [coveredData,hwo,hwv,hev,heo,hq,updateValue,updateOperator]
    rw [hwe,hee] at hu
    obtain ⟨y,hy,rfl⟩ := map_eq_some_iff.mp hu
    simp [coveredData,hwo,hwv,hev,hy,updateValue,updateOperator]
  · have hval : u = .value v := by
      rw [hwe] at hu
      cases hee : entry e name <;> rw [hee] at hu <;> exact (some.inj hu).symm
    simp [coveredData,hwo,hwv,hval,updateValue,updateOperator]

variable {e w : UncommittedEntityBox F} {old new : FieldMap (Value F)}

theorem merge_updates (hce : Complete t e) (hcw : Complete t w)
    (hde : e.data = some old) (hdw : w.data = some new) (hu : ∀ name ∈ t.names,
      mergeUpdate N (t.field name).type (entry e name) (entry w name) = some (u name)) :
    merge N t e w = some (fromUpdates t u (block w)) := by
  have hdata : mergedData N t old new w.operator =
      some (fun name => if name ∈ t.names then updateValue (u name) else none) := by
    apply (collect_eq_some t).mpr
    constructor
    · intro name hn
      rw [if_pos hn]
      exact (merged_field N t hce hcw hde hdw hn (hu name hn)).1
    · intro name hn
      exact if_neg hn
  have hoperator : mergedOperator N t old new e.operator w.operator =
      some (fun name => if name ∈ t.names then updateOperator (u name) else none) := by
    apply (collect_eq_some t).mpr
    constructor
    · intro name hn
      rw [if_pos hn]
      exact (merged_field N t hce hcw hde hdw hn (hu name hn)).2
    · intro name hn
      exact if_neg hn
  simp [merge,hdw,hde,hdata,hoperator,fromUpdates]

/-- The operators on a float or decimal field that the writes of a block start with merge as they are
calculated in turn on the value before the block. -/
def Fit (s : Entity F) (l : List (UncommittedEntityBox F)) : Prop :=
  ∀ name ∈ t.names, MergesFit N (t.field name).type (originDecimal (prior N t s name)).exp none
    (l.map fun w => entry w name)

instance (l : List (UncommittedEntityBox F)) : Decidable (Fit N t s l) := List.decidableBAll _ _

/-- What a merged box takes from the two boxes it was made of. -/
def Derived (e w box : UncommittedEntityBox F) : Prop :=
  ∀ name ∈ t.names, MergedExactly (t.field name).type → ∀ op,
    entry box name = .operator op → ∃ op1 op2, entry e name = .operator op1 ∧
      entry w name = .operator op2 ∧
      op.numCalc.map (exps N) = addExps N (op1.numCalc.map (exps N)) op2

/-- The boxes merge into one that does to the value `s` what they do to it in turn. -/
abbrev MergesTo (e w : UncommittedEntityBox F) (s s' : Entity F) : Prop :=
  ∃ box, merge N t e w = some box ∧ Complete t box ∧ refBox N check t box s = some s' ∧
    Derived N t e w box

theorem merge_deletion (hd : w.data = none) : MergesTo N check t e w s none := by
  refine ⟨⟨⟨none,block w⟩,FieldMap.empty⟩,by simp [merge,hd],rfl,rfl,?_⟩
  intro name _ _ op hop
  cases hop

theorem merge_after_deletion (hde : e.data = none) (hdw : w.data = some data)
    (hcw : Complete t w) (h : refBox N check t w none = some s') :
    MergesTo N check t e w s s' := by
  obtain ⟨m,hs,hcalc,_⟩ := calcFields_of_ref N check t hcw hdw h
  obtain ⟨m',hs',hin,hout⟩ := (refBox_eq_some N check t hdw).mp h
  cases hs.symm.trans hs'
  have hentry : ∀ name v, m name = some v →
      entry (⟨⟨some m,block w⟩,FieldMap.empty⟩ : UncommittedEntityBox F) name = .value v := by
    intro name v hv
    simp [entry,FieldMap.empty,hv]
  refine ⟨⟨⟨some m,block w⟩,FieldMap.empty⟩,by simp [merge,hdw,hde,hcalc],⟨?_,?_⟩,?_,?_⟩
  · intro name hn
    obtain ⟨v,hv,_⟩ := hin name hn
    simp [hv,FieldMap.empty]
  · intro name hn
    exact ⟨hout name hn,rfl⟩
  · apply (refBox_eq_some N check t rfl).mpr
    refine ⟨m,hs,fun name hn => ?_,hout⟩
    obtain ⟨v,hv,hr⟩ := hin name hn
    refine ⟨v,hv,(refUpdate_eq_some N check v).mpr ⟨?_,?_⟩⟩
    · rw [hentry name v hv]
      rfl
    · exact ((refUpdate_eq_some N check v).mp hr).2
  · intro name hn _ op hop
    obtain ⟨v,hv,_⟩ := hin name hn
    rw [hentry name v hv] at hop
    cases hop

variable {s1 s2 : Entity F}

section
variable (hce : Complete t e) (hcw : Complete t w)
  (hfit : ∀ name ∈ t.names, MergedExactly (t.field name).type → ∀ op1 op2,
    entry e name = .operator op1 → entry w name = .operator op2 →
      MergeFits N (t.field name).type (originDecimal (prior N t s name)).exp
        (op1.numCalc.map (exps N)) op2)
  (h1 : refBox N check t e s = some s1)
  (h2 : refBox N check t w s1 = some s2)
include hce hcw hfit h1 h2

theorem merge_pending (hde : e.data = some old) (hdw : w.data = some new) :
    MergesTo N check t e w s s2 := by
  obtain ⟨m1,rfl,hin1,_⟩ := (refBox_eq_some N check t hde).mp h1
  obtain ⟨m2,rfl,hin2,hout⟩ := (refBox_eq_some N check t hdw).mp h2
  have hfield : ∀ name ∈ t.names, ∃ u v, m2 name = some v ∧
      mergeUpdate N (t.field name).type (entry e name) (entry w name) = some u ∧
      refUpdate N check (t.field name) u (prior N t s name) = some v := by
    intro name hn
    obtain ⟨v1,hm1,hv1⟩ := hin1 name hn
    obtain ⟨v2,hm2,hv2⟩ := hin2 name hn
    have hprior : prior N t (some m1) name = v1 := by simp [prior,hm1]
    rw [hprior] at hv2
    obtain ⟨u,hu,hr⟩ := refUpdate_merge N check (hfit name hn) hv1 hv2
    exact ⟨u,v2,hm2,hu,hr⟩
  let u := fun name =>
    (mergeUpdate N (t.field name).type (entry e name) (entry w name)).getD (.value .null)
  have hu : ∀ name ∈ t.names,
      mergeUpdate N (t.field name).type (entry e name) (entry w name) = some (u name) := by
    intro name hn
    obtain ⟨x,_,_,hx,_⟩ := hfield name hn
    simp [u,hx]
  refine ⟨fromUpdates t u (block w),merge_updates N t hce hcw hde hdw hu,
    fromUpdates_complete t,?_,?_⟩
  · apply (refBox_eq_some N check t rfl).mpr
    refine ⟨m2,rfl,fun name hn => ?_,hout⟩
    obtain ⟨x,v,hm,hx,hr⟩ := hfield name hn
    refine ⟨v,hm,?_⟩
    rw [fromUpdates_entry t hn,some.inj ((hu name hn).symm.trans hx)]
    exact hr
  · intro name hn hb op hop
    rw [fromUpdates_entry t hn] at hop
    exact mergeUpdate_exps N hb (hop ▸ hu name hn)

theorem merge_acts : MergesTo N check t e w s s2 := by
  cases hdw : w.data with
  | none =>
    have hs : s2 = none := by
      rw [refBox_deletion N check t hdw] at h2
      exact (some.inj h2).symm
    exact hs ▸ merge_deletion N check t hdw
  | some new =>
    cases hde : e.data with
    | none =>
      rw [refBox_deletion N check t hde] at h1
      cases h1
      exact merge_after_deletion N check t hde hdw hcw h2
    | some old =>
      exact merge_pending N check t hce hcw hfit h1 h2 hde hdw

end

/-- The pending box `e` stands for the writes `l`. -/
structure StandsFor (e : UncommittedEntityBox F) (l : List (UncommittedEntityBox F)) : Prop where
  complete : Complete t e
  exps : ∀ name ∈ t.names, MergedExactly (t.field name).type → ∀ op,
    entry e name = .operator op → ∃ ops : List (Operator F),
      l.map (fun w => entry w name) = ops.map Update.operator ∧
      op.numCalc.map (exps N) = ops.foldl (addExps N) none
  acts : ∀ s s', Fit N t s l → refFold N check t l s = some s' → refBox N check t e s = some s'

theorem standsFor_self (hc : Complete t w) : StandsFor N check t w [w] where
  complete := hc
  exps name _ _ op hop := by
    refine ⟨[op],by simp [hop],?_⟩
    rcases op with ⟨_ | o⟩ <;> rfl
  acts s s' _ h := by simpa [refFold] using h

theorem fit_nil : Fit N t s [] := fun _ _ => trivial

theorem fit_of_append {front : List (UncommittedEntityBox F)} (back : List (UncommittedEntityBox F))
    (h : Fit N t s (front++back)) : Fit N t s front := by
  intro name hn
  have := h name hn
  rw [List.map_append] at this
  exact this.front

variable {l : List (UncommittedEntityBox F)}
  (h : StandsFor N check t e l) (hc : Complete t w)
  (hfit : Fit N t s (l++[w])) (hdef : refFold N check t (l++[w]) s = some s')
include h hc hfit hdef

theorem standsFor_merge_at : MergesTo N check t e w s s' := by
  rw [refFold_append] at hdef
  obtain ⟨s1,h1,h2⟩ := Option.bind_eq_some_iff.mp hdef
  obtain ⟨s2,h2,hlast⟩ := Option.bind_eq_some_iff.mp h2
  cases hlast
  apply merge_acts N check t h.complete hc
  · intro name hn hb op1 op2 he hw
    obtain ⟨ops,hops,hexps⟩ := h.exps name hn hb op1 he
    have := hfit name hn
    rw [List.map_append,hops,List.map_singleton,hw] at this
    rw [hexps]
    exact this.last
  · exact h.acts s s1 (fit_of_append N t [w] hfit) h1
  · exact h2

/-- One more write of the block keeps the merged box standing for its writes,
and the store accepts the values it holds. -/
theorem standsFor_merge : ∃ box, merge N t e w = some box ∧ StandsFor N check t box (l++[w]) ∧
      ∀ data, box.data = some data → checkValue check t data := by
  obtain ⟨box,hbox,hcb,hact,hder⟩ := standsFor_merge_at N check t h hc hfit hdef
  refine ⟨box,hbox,⟨hcb,?_,?_⟩,fun data hd => checkValue_of_ref N check t hcb hd hact⟩
  · intro name hn hb op hop
    obtain ⟨op1,op2,he,hw,hadd⟩ := hder name hn hb op hop
    obtain ⟨ops,hops,hexps⟩ := h.exps name hn hb op1 he
    exact ⟨ops++[op2],by simp [hops,hw],by rw [hadd,hexps,List.foldl_append]; rfl⟩
  · intro r r' hfr hr
    obtain ⟨other,hother,_,hacts,_⟩ := standsFor_merge_at N check t h hc hfr hr
    cases hbox.symm.trans hother
    exact hacts

end
end Sentio.EntityMerge
