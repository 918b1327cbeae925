import SentioCore.CheckpointModel
import SentioCore.RangeSetAlgebra
import SentioCore.KeyedRows

/-!
# The blocks in which a template is on

A canonical range set has no hole exactly when it is an interval. Each accepted
instance is checked to leave an interval from its block on, and restricting the
earlier instances before or after applying the new one gives the same blocks. A
checkpoint confirms the instances of its block and drops the later ones.
-/

namespace Sentio.TemplateHoles
open RangeModel RangeHoles RangeSetAlgebra TemplateModel CheckpointModel WordArith List Transition UInt64

/-- Between two blocks of the set from `bn` on every block belongs to the set. -/
def IntervalFrom (rs : RangeSet) (bn : UInt64) : Prop :=
  ∀ x y z : UInt64, bn ≤ x → x ≤ y → y ≤ z → rs.contains x → rs.contains z →
    rs.contains y

variable {rs : RangeSet}

theorem interval_no_hole (h : Canonical rs) (hi : IntervalFrom rs 0) : rs.holes = [] := by
  have hc := h.holes
  unfold HoleInvariant at hc
  rcases hh : rs.holes with _ | ⟨g,rest⟩
  · rfl
  rw [hh] at hc
  obtain ⟨h1,h2,h3,h4⟩ := hc
  have ht := top_lt rs.range.stop
  have hd := toNat_dec g.1 (by omega)
  have hu := toNat_inc g.2 (by omega)
  have out : ∀ x : ℕ, x < g.1.toNat ∨ x = g.2.toNat+1 → ¬InHoles rs.holes x := by
    intro x hx hin
    rw [hh,inHoles_cons] at hin
    rcases hin with hin | hin
    · omega
    · have := chain_above _ _ _ h4 x hin
      omega
  have hfirst : rs.contains (g.1-1) := by
    rw [contains_iff]
    exact ⟨by omega,out _ (.inl (by omega))⟩
  have hlast : rs.contains (g.2+1) := by
    rw [contains_iff,hu]
    exact ⟨by omega,out _ (.inr rfl)⟩
  have hmid := hi (g.1-1) g.1 (g.2+1) (by simp [le_iff_toNat_le])
    (by rw [le_iff_toNat_le]; omega) (by rw [le_iff_toNat_le]; omega) hfirst hlast
  rw [contains_iff,hh,inHoles_cons] at hmid
  exact absurd (.inl ⟨le_rfl,h2⟩) hmid.2

theorem no_hole_interval (h : rs.holes = []) (bn : UInt64) : IntervalFrom rs bn := by
  intro x y z _ hxy hyz hx hz
  rw [contains_iff,h] at hx hz ⊢
  rw [le_iff_toNat_le] at hxy hyz
  refine ⟨by omega,by simp⟩

def applied (l : List TemplateInstance) : RangeSet :=
  l.foldl (fun on ex =>
    if ex.removed then on.remove ex.blockRange else on.union ex.blockRange) emptyRangeSet

variable {l : List TemplateInstance}

theorem applied_concat {tpl : TemplateInstance} : applied (l++[tpl]) =
      if tpl.removed then (applied l).remove tpl.blockRange
      else (applied l).union tpl.blockRange := by
  rw [applied,foldl_append]
  rfl

theorem onFrom_eq {bn : UInt64} : onFrom l bn = (applied l).intersection ⟨bn,none⟩ := rfl

def AllBounded (l : List TemplateInstance) : Prop := ∀ tpl ∈ l, Bounded tpl.blockRange

theorem applied_canonical (h : AllBounded l) : Canonical (applied l) := by
  induction l using List.reverseRecOn with
  | nil => exact canonical_empty
  | append_singleton l tpl ih =>
    have hl := ih (fun t ht => h t (by simp [ht]))
    have ht := h tpl (by simp)
    rw [applied_concat]
    split
    · exact (remove_law _ _ hl ht).1
    · exact (union_law _ _ hl ht).1

variable {tpl : TemplateInstance}

theorem applied_contains (h : AllBounded l) (ht : Bounded tpl.blockRange) (x : UInt64) :
    (applied (l++[tpl])).contains x ↔
      if tpl.removed then (applied l).contains x ∧ ¬tpl.blockRange.contains x
      else (applied l).contains x ∨ tpl.blockRange.contains x := by
  rw [applied_concat]
  split
  · exact (remove_law _ _ (applied_canonical h) ht).2 x
  · exact (union_law _ _ (applied_canonical h) ht).2 x

theorem onFrom_law (h : AllBounded l) (bn : UInt64) : Canonical (onFrom l bn) ∧
      ∀ x, (onFrom l bn).contains x ↔ (applied l).contains x ∧ bn ≤ x := by
  have hr := intersection_law ⟨bn,none⟩ (applied_canonical h) (by simp [Bounded])
  refine ⟨hr.1,fun x => ?_⟩
  have := word_lt x
  rw [onFrom_eq,hr.2 x,inRange_iff,top_none]
  exact and_congr_right (fun _ => ⟨fun h => h.1,fun h => ⟨h,by omega⟩⟩)

variable {bn : UInt64}

theorem onFrom_no_hole (h : AllBounded l)
    (hi : IntervalFrom (applied l) bn) : (onFrom l bn).holes = [] := by
  obtain ⟨hc,hx⟩ := onFrom_law h bn
  apply interval_no_hole hc
  intro x y z _ hxy hyz hx' hz'
  rw [hx] at hx' hz' ⊢
  exact ⟨hi x y z hx'.2 hxy hyz hx'.1 hz'.1,UInt64.le_trans hx'.2 hxy⟩

variable {bn' : UInt64}

theorem intervalFrom_later (h : IntervalFrom rs bn) (hb : bn ≤ bn') : IntervalFrom rs bn' :=
  fun x y z hx => h x y z (UInt64.le_trans hb hx)

theorem accepted_interval (h : AllBounded l) (ht : Bounded tpl.blockRange)
    (hj : judge l bn tpl = .accepted) : IntervalFrom (applied (l++[tpl])) bn := by
  have hx := applied_contains h ht
  unfold judge at hj
  split at hj
  · rename_i he
    have hl : l = [] := isEmpty_iff.mp he
    subst hl
    intro x y z _ hxy hyz hx' hz'
    rw [UInt64.le_iff_toNat_le] at hxy hyz
    rw [hx] at hx' hz' ⊢
    have hn : ∀ u, ¬(applied []).contains u := fun u => by
      simp [applied,empty_contains]
    cases hr : tpl.removed with
    | true =>
      rw [hr,if_pos rfl] at hx'
      exact absurd hx'.1 (hn x)
    | false =>
      rw [hr] at hx' hz'
      have h1 := hx'.resolve_left (hn x)
      have h2 := hz'.resolve_left (hn z)
      rw [inRange_iff] at h1 h2
      refine .inr ?_
      rw [inRange_iff]
      omega
  obtain ⟨hc,ho⟩ := onFrom_law h bn
  have hafter : (if tpl.removed then (onFrom l bn).remove tpl.blockRange
      else (onFrom l bn).union tpl.blockRange).holes = [] := by
    by_contra hne
    rw [← List.isEmpty_iff] at hne
    dsimp only at hj
    split at hj <;> cases hj
  have same : ∀ u, bn ≤ u → ((applied (l++[tpl])).contains u ↔
      (if tpl.removed then (onFrom l bn).remove tpl.blockRange
        else (onFrom l bn).union tpl.blockRange).contains u) := by
    intro u hu
    rw [hx]
    cases hr : tpl.removed with
    | true => simp [(remove_law _ _ hc ht).2,ho,hu]
    | false => simp [(union_law _ _ hc ht).2,ho,hu]
  intro x y z hb hxy hyz hx' hz'
  have hby := UInt64.le_trans hb hxy
  rw [same x hb] at hx'
  rw [same z (UInt64.le_trans hby hyz)] at hz'
  rw [same y hby]
  exact no_hole_interval hafter 0 x y z (by simp [UInt64.le_iff_toNat_le]) hxy hyz hx' hz'

def identity (tpl : TemplateInstance) : ℤ × String × String :=
  (tpl.templateID,tpl.address,tpl.labels)

theorem uniqID_of_identity {a b : TemplateInstance} (h : identity a = identity b) :
    uniqID a = uniqID b := by
  simp only [identity,Prod.mk.injEq] at h
  simp [uniqID,h]

/-- The controller with the block of the last accepted call that it still has instances of. -/
structure Calls where
  world : World
  last : UInt64
  deriving DecidableEq

def stored (c : Controller) : List TemplateInstance :=
  orderedInstances c.templates++orderedInstances c.unsavedTemplates

def acceptedCall (s : Calls) (call : UInt64 × List TemplateInstance) : Option Calls :=
  let c := s.world.controller
  let existing := orderedInstances c.templates++orderedInstances (upTo c.unsavedTemplates call.1)
  if call.1 < s.last || (acceptInstances existing call.1 call.2).2 then none
  else some ⟨newTemplateInstance s.world call.1 call.2,call.1⟩

/-- A call, a checkpoint at a block with new instances, or the start of the next run. -/
inductive Step where
  | call (blockNumber : UInt64) (templates : List TemplateInstance)
  | makeCheckpoint (ck : Checkpoint) (cachedTooMuch : Bool) (input : SaveInput)
  | ready

/-- Blocks come in order: no call of a run is below an earlier one, and the first block with new
instances gets its checkpoint first. A stopped controller takes no instance. -/
def step (cfg : Config) (s : Calls) : Step → Option Calls
  | .call blockNumber templates =>
    if s.world.controller.stopped then none else acceptedCall s (blockNumber,templates)
  | .makeCheckpoint ck cachedTooMuch input =>
    if !s.world.controller.stopped &&
        s.world.controller.unsavedTemplates.head?.map Prod.fst = some ck.number then
      some ⟨makeCheckpoint cfg s.world ck cachedTooMuch input,ck.number⟩
    else none
  | .ready => some {s with world := ready s.world true true true}

def start (checkpoints : List Checkpoint) : Calls := ⟨load checkpoints [],0⟩

def enabled (s : Calls) (id : ℤ × String × String) : RangeSet :=
  onFrom ((stored s.world.controller).filter (fun tpl => identity tpl = id)) s.last

/-- No template is named twice by the call, the text that identifies a template
is not that of another stored one, and finite ends stay below the last word. -/
structure CallNamesOnce (s : Calls) (templates : List TemplateInstance) : Prop where
  distinct : templates.Pairwise (fun a b => uniqID a ≠ uniqID b)
  unambiguous : ∀ tpl ∈ templates, ∀ e ∈ stored s.world.controller,
    uniqID e = uniqID tpl → identity e = identity tpl
  bounded : AllBounded templates

def NamedOnce (s : Calls) : Step → Prop
  | .call _ templates => CallNamesOnce s templates
  | _ => True

theorem resetStart_uniqID (tpl : TemplateInstance) : uniqID (resetStart bn tpl) = uniqID tpl := by
  unfold resetStart
  split <;> rfl

theorem resetStart_identity (tpl : TemplateInstance) :
    identity (resetStart bn tpl) = identity tpl := by
  unfold resetStart
  split <;> rfl

theorem resetStart_bounded (h : Bounded tpl.blockRange) :
    Bounded (resetStart bn tpl).blockRange := by
  unfold resetStart
  split
  · exact h
  · exact h

theorem mem_acceptInstances (existing : List TemplateInstance) (bn : UInt64)
    (tpls : List TemplateInstance) (a : TemplateInstance)
    (h : a ∈ (acceptInstances existing bn tpls).1) :
    (∃ tpl ∈ tpls, a = resetStart bn tpl) ∧
      judge (existing.filter (fun e => uniqID e = uniqID a)) bn a = .accepted := by
  induction tpls with
  | nil => simp [acceptInstances] at h
  | cons tpl rest ih =>
    have later : a ∈ (acceptInstances existing bn rest).1 → (∃ t ∈ tpl::rest, a = resetStart bn t) ∧
          judge (existing.filter (fun e => uniqID e = uniqID a)) bn a = .accepted := by
      intro ha
      obtain ⟨⟨t,ht,he⟩,hj⟩ := ih ha
      exact ⟨⟨t,by simp [ht],he⟩,hj⟩
    simp only [acceptInstances] at h
    split at h
    · exact later h
    · simp at h
    rename_i hj
    rcases mem_cons.mp h with rfl | h
    · exact ⟨⟨tpl,by simp,rfl⟩,hj⟩
    · exact later h

variable {existing tpls : List TemplateInstance}

theorem acceptInstances_distinct (h : tpls.Pairwise (fun a b => uniqID a ≠ uniqID b)) :
    (acceptInstances existing bn tpls).1.Pairwise (fun a b => uniqID a ≠ uniqID b) := by
  induction tpls with
  | nil => simp [acceptInstances]
  | cons tpl rest ih =>
    rw [pairwise_cons] at h
    simp only [acceptInstances]
    split
    · exact ih h.2
    · exact List.Pairwise.nil
    rw [pairwise_cons]
    refine ⟨fun b hb => ?_,ih h.2⟩
    obtain ⟨⟨t,ht,rfl⟩,_⟩ := mem_acceptInstances existing bn rest b hb
    rw [resetStart_uniqID,resetStart_uniqID]
    exact h.1 t ht

/-- The blocks of the stored instances ascend up to the last call. -/
structure InOrder (m : Templates) (bn : UInt64) : Prop where
  ascending : m.Pairwise (fun a b => a.1 < b.1)
  upTo : ∀ e ∈ m, e.1 ≤ bn

variable {m : Templates}

theorem orderedInstances_ascending (h : m.Pairwise (fun a b => a.1 < b.1)) :
    orderedInstances m = m.flatMap Prod.snd := by
  rw [orderedInstances,mergeSort_of_pairwise]
  exact h.imp (fun hab => by simpa using UInt64.le_of_lt hab)

theorem upTo_inOrder (h : InOrder m bn) (hb : bn ≤ bn') : upTo m bn' = m :=
  filter_eq_self.mpr (fun e he => by simpa using UInt64.le_trans (h.upTo e he) hb)

theorem upTo_put {b : UInt64} (hb : b < bn) : upTo (put m bn tpls) b = upTo m b := by
  have hnot : ¬bn ≤ b := UInt64.not_le.mpr hb
  unfold put upTo
  split
  · rw [filter_map]
    have hsame : ∀ e : UInt64 × List TemplateInstance,
        (if e.1 = bn then (e.1,e.2++tpls) else e).1 = e.1 := fun e => by split <;> rfl
    simp only [Function.comp_def,hsame]
    refine (map_congr_left fun e he => if_neg ?_).trans (map_id _)
    rintro rfl
    exact hnot (by simpa using (mem_filter.mp he).2)
  · simp [hnot]

variable {front : Templates}

theorem put_of_last {old : List TemplateInstance} (h : ∀ e ∈ front, e.1 < bn) :
    put (front++[(bn,old)]) bn tpls = front++[(bn,old++tpls)] := by
  have hf : front.map (fun e => if e.1 = bn then (e.1,e.2++tpls) else e) = front :=
    (map_congr_left (fun e he => if_neg (UInt64.ne_of_lt (h e he)))).trans
      (map_id front)
  simp [put,hf]

theorem put_of_new (h : ∀ e ∈ m, e.1 < bn) : put m bn tpls = m++[(bn,tpls)] := by
  have : m.any (fun e => e.1 = bn) = false := by
    rw [any_eq_false]
    intro e he
    simpa using UInt64.ne_of_lt (h e he)
  simp [put,this]

/-- The end of an ordered list is the block itself or lies below it. -/
theorem inOrder_cases (h : InOrder m bn) :
    (∀ e ∈ m, e.1 < bn) ∨ ∃ front old, m = front++[(bn,old)] ∧ ∀ e ∈ front, e.1 < bn := by
  rcases eq_nil_or_concat m with rfl | ⟨front,last,rfl⟩
  · exact .inl (by simp)
  rw [concat_eq_append] at h ⊢
  have hlast := h.upTo last (by simp)
  have hfront : ∀ e ∈ front, e.1 < last.1 := fun e he =>
    (pairwise_append.mp h.ascending).2.2 e he last (by simp)
  by_cases hb : last.1 = bn
  · refine .inr ⟨front,last.2,by rw [← hb],fun e he => hb ▸ hfront e he⟩
  have hlt := UInt64.lt_of_le_of_ne hlast hb
  refine .inl (fun e he => ?_)
  rcases mem_append.mp he with he | he
  · exact UInt64.lt_trans (hfront e he) hlt
  · rwa [mem_singleton.mp he]

theorem inOrder_concat (tpls : List TemplateInstance) (hf : front.Pairwise (fun a b => a.1 < b.1))
    (h : ∀ e ∈ front, e.1 < bn) : InOrder (front++[(bn,tpls)]) bn := by
  constructor
  · rw [pairwise_append]
    refine ⟨hf,pairwise_singleton _ _,fun a ha b hb => ?_⟩
    rw [mem_singleton.mp hb]
    exact h a ha
  intro e he
  rcases mem_append.mp he with he | he
  · exact UInt64.le_of_lt (h e he)
  · rw [mem_singleton.mp he]
    exact UInt64.le_refl bn

theorem put_inOrder (tpls : List TemplateInstance) (h : InOrder m bn) :
    InOrder (put m bn tpls) bn ∧ orderedInstances (put m bn tpls) = orderedInstances m++tpls := by
  rcases inOrder_cases h with hlt | ⟨front,old,rfl,hlt⟩
  · have ho := inOrder_concat tpls h.ascending hlt
    rw [put_of_new hlt]
    refine ⟨ho,?_⟩
    rw [orderedInstances_ascending ho.ascending,orderedInstances_ascending h.ascending]
    simp
  have ho := inOrder_concat (old++tpls) (pairwise_append.mp h.ascending).1 hlt
  rw [put_of_last hlt]
  refine ⟨ho,?_⟩
  rw [orderedInstances_ascending ho.ascending,orderedInstances_ascending h.ascending]
  simp

def ofIdentity (l : List TemplateInstance) (id : ℤ × String × String) : List TemplateInstance :=
  l.filter (fun tpl => identity tpl = id)

/-- Up to every block from the last confirmation on, what is stored leaves an interval. -/
structure Kept (s : Calls) (confirmed : UInt64) : Prop where
  confirmedOrder : InOrder s.world.controller.templates confirmed
  order : InOrder s.world.controller.unsavedTemplates s.last
  later : ∀ e ∈ s.world.controller.unsavedTemplates, confirmed ≤ e.1
  le : confirmed ≤ s.last
  bounded : AllBounded (stored s.world.controller)
  interval : ∀ id b, confirmed ≤ b → IntervalFrom (applied (ofIdentity
    (orderedInstances s.world.controller.templates++
      orderedInstances (upTo s.world.controller.unsavedTemplates b)) id)) b

theorem start_kept {checkpoints : List Checkpoint} : Kept (start checkpoints) 0 := by
  have hs : stored (start checkpoints).world.controller = [] := by
    simp [stored,start,load,orderedInstances]
  refine ⟨⟨List.Pairwise.nil,by simp [start,load]⟩,⟨List.Pairwise.nil,by simp [start,load]⟩,
    by simp [start,load],UInt64.le_refl 0,?_,?_⟩
  · rw [hs]
    simp [AllBounded]
  intro id b _
  simp only [start,load,upTo,orderedInstances,filter_nil,mergeSort_nil,flatMap_nil,append_nil,
    ofIdentity]
  exact no_hole_interval rfl b

variable {t : Calls} {call : UInt64 × List TemplateInstance} {s : Calls} {confirmed : UInt64}

theorem acceptedCall_stored (h : Kept s confirmed) (hrun : s.world.controller.stopped = false)
    (hc : acceptedCall s call = some t) :
    s.last ≤ call.1 ∧ t.last = call.1 ∧
      t.world.controller.templates = s.world.controller.templates ∧
      InOrder t.world.controller.unsavedTemplates call.1 ∧
      (∀ b, b < call.1 → upTo t.world.controller.unsavedTemplates b =
        upTo s.world.controller.unsavedTemplates b) ∧
      stored t.world.controller = stored s.world.controller ++
        (acceptInstances (stored s.world.controller) call.1 call.2).1 := by
  unfold acceptedCall at hc
  dsimp only at hc
  split_ifs at hc with hn
  have hle : s.last ≤ call.1 := by
    rw [Bool.or_eq_true,not_or] at hn
    exact UInt64.not_lt.mp (by simpa using hn.1)
  have hin : InOrder s.world.controller.unsavedTemplates call.1 :=
    ⟨h.order.ascending,fun e he => UInt64.le_trans (h.order.upTo e he) hle⟩
  have hup := upTo_inOrder h.order hle
  rw [← Option.some.inj hc]
  refine ⟨hle,rfl,?_⟩
  simp only [newTemplateInstance,hrun,hup,Bool.false_eq_true,if_false]
  rw [← stored]
  by_cases he : (acceptInstances (stored s.world.controller) call.1 call.2).1.isEmpty
  · rw [if_pos he]
    rw [List.isEmpty_iff] at he
    exact ⟨rfl,hin,fun _ _ => rfl,by rw [he,append_nil]⟩
  rw [if_neg he]
  obtain ⟨h1,h2⟩ := put_inOrder _ hin
  refine ⟨rfl,h1,fun b hb => upTo_put hb,?_⟩
  simp only [stored,withController] at h2 ⊢
  rw [h2,append_assoc]

/-- The stored instances after a call whose accepted ones are all of one block leave an interval
from this block on. -/
theorem accepted_calls_interval (h : Kept s confirmed) (hle : s.last ≤ call.1)
    (hn : CallNamesOnce s call.2) (id : ℤ × String × String) :
    IntervalFrom (applied (ofIdentity (stored s.world.controller ++
      (acceptInstances (stored s.world.controller) call.1 call.2).1) id)) call.1 := by
  have hmem := mem_acceptInstances (stored s.world.controller) call.1 call.2
  rw [ofIdentity,filter_append]
  by_cases hex : ∃ a ∈ (acceptInstances (stored s.world.controller) call.1 call.2).1,identity a = id
  · obtain ⟨a,ha,rfl⟩ := hex
    have hone := KeyedRows.filter_eq_singleton (fun tpl => identity tpl = identity a) _ a ha
      (by simp) ((acceptInstances_distinct
        hn.distinct).imp (fun hxy hid => hxy (uniqID_of_identity (by simp_all))))
    obtain ⟨⟨tpl,ht,hreset⟩,hj⟩ := hmem a ha
    have hsame : (stored s.world.controller).filter (fun e => uniqID e = uniqID a) =
        (stored s.world.controller).filter (fun e => identity e = identity a) := by
      apply filter_congr
      intro e he
      have hamb := hn.unambiguous tpl ht e he
      rw [← resetStart_uniqID tpl,← resetStart_identity tpl,← hreset] at hamb
      simpa using ⟨hamb,uniqID_of_identity⟩
    rw [hone]
    rw [hsame] at hj
    exact accepted_interval (fun e he => h.bounded e (mem_filter.mp he).1)
      (hreset ▸ resetStart_bounded (hn.bounded tpl ht)) hj
  · have hnone : (acceptInstances (stored s.world.controller) call.1 call.2).1.filter
        (fun tpl => identity tpl = id) = [] := by
      rw [filter_eq_nil_iff]
      intro a ha hid
      exact hex ⟨a,ha,by simpa using hid⟩
    rw [hnone,append_nil]
    have := h.interval id s.last h.le
    rw [upTo_inOrder h.order (UInt64.le_refl _)] at this
    exact intervalFrom_later this hle

theorem acceptedCall_kept (h : Kept s confirmed) (hrun : s.world.controller.stopped = false)
    (hn : CallNamesOnce s call.2) (hc : acceptedCall s call = some t) : Kept t confirmed := by
  obtain ⟨hle,hlast,htemplates,hin,hbelow,hst⟩ := acceptedCall_stored h hrun hc
  have hconfirmed := UInt64.le_trans h.le hle
  refine ⟨htemplates ▸ h.confirmedOrder,hlast ▸ hin,?_,hlast ▸ hconfirmed,?_,fun id b hb => ?_⟩
  · intro e he
    by_cases hlt : e.1 < call.1
    · have : e ∈ upTo t.world.controller.unsavedTemplates e.1 :=
        mem_filter.mpr ⟨he,by simp⟩
      rw [hbelow _ hlt] at this
      exact h.later e (mem_filter.mp this).1
    · exact UInt64.le_trans hconfirmed (UInt64.not_lt.mp hlt)
  · rw [hst]
    intro a ha
    rcases mem_append.mp ha with ha | ha
    · exact h.bounded a ha
    · obtain ⟨⟨tpl,ht,rfl⟩,_⟩ := mem_acceptInstances _ _ _ a ha
      exact resetStart_bounded (hn.bounded tpl ht)
  · by_cases hlt : b < call.1
    · rw [htemplates,hbelow b hlt]
      exact h.interval id b hb
    · have hb' := UInt64.not_lt.mp hlt
      rw [upTo_inOrder hin hb',← stored,hst]
      exact intervalFrom_later (accepted_calls_interval h hle hn id) hb'

/-- A checkpoint at the first block with new instances keeps these and drops the later ones. -/
theorem makeCheckpoint_kept {cfg : Config} {ck : Checkpoint} {cachedTooMuch : Bool}
    {input : SaveInput} (h : Kept s confirmed) (hrun : s.world.controller.stopped = false)
    (hfirst : s.world.controller.unsavedTemplates.head?.map Prod.fst = some ck.number) :
    Kept ⟨makeCheckpoint cfg s.world ck cachedTooMuch input,ck.number⟩ ck.number := by
  obtain ⟨⟨bn,tpls⟩,hhead,hbn⟩ := Option.map_eq_some_iff.mp hfirst
  obtain ⟨rest,hun⟩ : ∃ rest, s.world.controller.unsavedTemplates = (ck.number,tpls)::rest := by
    obtain ⟨rest,hr⟩ := head?_eq_some_iff.mp hhead
    exact ⟨rest,hbn ▸ hr⟩
  have hmake : makeCheckpoint cfg s.world ck cachedTooMuch input =
      withController s.world (confirmTemplates s.world.controller ck tpls) := by
    simp [makeCheckpoint,hrun,TemplateModel.lookup,hun]
  have hconfirmed := h.later (ck.number,tpls) (by simp [hun])
  have hin : InOrder s.world.controller.templates ck.number :=
    ⟨h.confirmedOrder.ascending,
      fun e he => UInt64.le_trans (h.confirmedOrder.upTo e he) hconfirmed⟩
  obtain ⟨hput,hord⟩ := put_inOrder tpls hin
  have hfront : upTo s.world.controller.unsavedTemplates ck.number = [(ck.number,tpls)] := by
    have hasc := h.order.ascending
    rw [hun,pairwise_cons] at hasc
    rw [hun,upTo,filter_cons_of_pos (by simp),filter_eq_nil_iff.mpr]
    intro e he
    simpa using hasc.1 e he
  have hinterval := fun id => h.interval id ck.number hconfirmed
  have hone : orderedInstances [(ck.number,tpls)] = tpls := by simp [orderedInstances]
  rw [hfront,hone] at hinterval
  rw [hmake]
  refine ⟨hput,⟨List.Pairwise.nil,by simp [withController,confirmTemplates]⟩,
    by simp [withController,confirmTemplates],UInt64.le_refl _,?_,fun id b hb => ?_⟩
  · intro a ha
    simp only [stored,withController,confirmTemplates,hord,mem_append] at ha
    refine h.bounded a (mem_append.mpr ?_)
    rw [orderedInstances_ascending h.order.ascending,hun,flatMap_cons,mem_append]
    have hnil : a ∉ orderedInstances [] := by simp [orderedInstances]
    exact (ha.resolve_right hnil).imp id .inl
  · simp only [withController,confirmTemplates,hord,upTo,filter_nil]
    exact intervalFrom_later (by simpa [orderedInstances] using hinterval id) hb

theorem step_kept {cfg : Config} {act : Step} (h : ∃ confirmed, Kept s confirmed)
    (hn : NamedOnce s act) (ht : step cfg s act = some t) : ∃ confirmed, Kept t confirmed := by
  obtain ⟨confirmed,h⟩ := h
  cases act with
  | call bn tpls =>
    simp only [step,Option.ite_none_left_eq_some,Bool.not_eq_true] at ht
    exact ⟨confirmed,acceptedCall_kept h ht.1 (show CallNamesOnce s (bn,tpls).2 from hn) ht.2⟩
  | makeCheckpoint ck cachedTooMuch input =>
    simp only [step,Option.ite_none_right_eq_some,Bool.and_eq_true,Bool.not_eq_true',
      decide_eq_true_eq] at ht
    obtain ⟨⟨hrun,hfirst⟩,ht⟩ := ht
    cases ht
    exact ⟨ck.number,makeCheckpoint_kept h hrun hfirst⟩
  | ready =>
    cases ht
    exact ⟨confirmed,{h with}⟩

/-- After every run of accepted calls that name a template at most once, with checkpoints that
confirm the instances in between, the blocks from the last call on in which a template is on have
no hole. -/
theorem enabled_blocks_have_no_hole (cfg : Config) (checkpoints : List Checkpoint)
    (steps : List Step) (s : Calls)
    (hn : Throughout (step cfg) NamedOnce (start checkpoints) steps)
    (h : run (step cfg) (start checkpoints) steps = some s)
    (id : ℤ × String × String) : (enabled s id).holes = [] := by
  obtain ⟨confirmed,hk⟩ := run_invariant_throughout (step cfg) NamedOnce
    (fun s => ∃ confirmed, Kept s confirmed) (fun s act t hs hc ht => step_kept hs hc ht) steps _ s
    ⟨0,start_kept⟩ hn h
  have hi := hk.interval id s.last hk.le
  rw [upTo_inOrder hk.order (UInt64.le_refl _)] at hi
  exact onFrom_no_hole (fun e he => hk.bounded e (mem_filter.mp he).1) hi

instance (s : Calls) (templates : List TemplateInstance) : Decidable (CallNamesOnce s templates) :=
  decidable_of_iff (templates.Pairwise (fun a b => uniqID a ≠ uniqID b) ∧
      (∀ tpl ∈ templates, ∀ e ∈ stored s.world.controller,
        uniqID e = uniqID tpl → identity e = identity tpl) ∧
      ∀ tpl ∈ templates, tpl.blockRange.stop ≠ some maxUint64)
    ⟨fun ⟨h1,h2,h3⟩ => ⟨h1,h2,h3⟩,fun ⟨h1,h2,h3⟩ => ⟨h1,h2,h3⟩⟩

instance (s : Calls) : ∀ act, Decidable (NamedOnce s act)
  | .call _ templates => inferInstanceAs (Decidable (CallNamesOnce s templates))
  | .makeCheckpoint _ _ _ | .ready => isTrue trivial

def pool (first last : UInt64) : TemplateInstance :=
  ⟨1, "pool", "0x1", "",false,⟨first,some last⟩⟩

def holding (unsaved : Templates) (last : UInt64) : Calls :=
  ⟨withController (load [] []) {(load [] []).controller with unsavedTemplates := unsaved},last⟩

/-- A checkpoint confirms the first call and drops the second one, which comes again. -/
def confirmedRun : List Step :=
  [.call 10 [pool 12 20],.call 14 [pool 18 30],
    .makeCheckpoint ⟨10,0,0⟩ false ⟨fun _ => 0,.ok,true,true,true,true,[],0⟩,.ready,
    .call 13 [pool 18 40]]

theorem enabled_blocks_confirmed : ∃ s, run (step ⟨0,10,100⟩) (start []) confirmedRun = some s ∧
    s.world.controller.templates = [(10,[pool 12 20])] ∧
    s.world.controller.unsavedTemplates = [(13,[pool 18 40])] ∧
    (enabled s (1, "0x1", "")).holes = [] := by
  have hend : (run (step ⟨0,10,100⟩) (start []) confirmedRun).map
      (fun s => (s.world.controller.templates,s.world.controller.unsavedTemplates)) =
      some ([(10,[pool 12 20])],[(13,[pool 18 40])]) := by decide +kernel
  obtain ⟨s,hs,he⟩ := Option.map_eq_some_iff.mp hend
  rw [Prod.mk.injEq] at he
  exact ⟨s,hs,he.1,he.2,enabled_blocks_have_no_hole ⟨0,10,100⟩ [] confirmedRun s
    (by decide +kernel) hs (1, "0x1", "")⟩

/-- One call switches the same template on twice. -/
theorem one_call_leaves_hole : run (step ⟨0,10,100⟩) (start []) [.call 10 [pool 10 20,pool 30 40]] =
        some (holding [(10,[pool 10 20,pool 30 40])] 10) ∧
      (enabled (holding [(10,[pool 10 20,pool 30 40])] 10) (1, "0x1", "")).holes =
        [(21,29)] :=
  ⟨by decide +kernel,by decide +kernel⟩

def existingAt (w : World) (bn : UInt64) : List TemplateInstance :=
  orderedInstances w.controller.templates++
    orderedInstances (upTo w.controller.unsavedTemplates bn)

def refuses (w : World) (bn : UInt64) (tpls : List TemplateInstance) : Bool :=
  !w.controller.stopped && (acceptInstances (existingAt w bn) bn tpls).2

def verdict (existing : List TemplateInstance) (bn : UInt64) (tpl : TemplateInstance) : Verdict :=
  judge (existing.filter (fun e => uniqID e = uniqID (resetStart bn tpl))) bn (resetStart bn tpl)

/-- The instances in front of the first invalid one change nothing. -/
def IgnoredBefore (existing : List TemplateInstance) (bn : UInt64)
    (tpls : List TemplateInstance) : Prop :=
  ∀ tpl ∈ tpls.takeWhile (fun tpl => verdict existing bn tpl ≠ .invalid),
    verdict existing bn tpl = .ignored

theorem acceptInstances_eq_nil_iff :
    (acceptInstances existing bn tpls).1 = [] ↔ IgnoredBefore existing bn tpls := by
  induction tpls with
  | nil => simp [acceptInstances,IgnoredBefore]
  | cons tpl rest ih =>
    have hj : judge (existing.filter (fun e => uniqID e = uniqID (resetStart bn tpl))) bn
        (resetStart bn tpl) = verdict existing bn tpl := rfl
    unfold IgnoredBefore at ih ⊢
    simp only [acceptInstances,hj,takeWhile_cons]
    cases hv : verdict existing bn tpl with
    | ignored => simpa [hv] using ih
    | invalid => simp
    | accepted => simp [hv]

theorem put_eq_self (h : put m bn tpls = m) : tpls = [] := by
  unfold put at h
  split_ifs at h with hany
  · obtain ⟨e,he,hb⟩ := any_eq_true.mp hany
    have hsame := map_inj_left.mp (h.trans (map_id m).symm) e he
    rw [if_pos (of_decide_eq_true hb)] at hsame
    exact append_right_eq_self.mp (congrArg Prod.snd hsame)
  · simp at h

/-- A call that returns an error leaves the instances as they were exactly when
nothing in front of the rejected instance was accepted. -/
theorem refused_call_keeps_templates_iff (w : World) (bn : UInt64) (tpls : List TemplateInstance)
    (h : refuses w bn tpls) :
    ((newTemplateInstance w bn tpls).controller.templates = w.controller.templates ∧
      (newTemplateInstance w bn tpls).controller.unsavedTemplates =
        w.controller.unsavedTemplates) ↔ IgnoredBefore (existingAt w bn) bn tpls := by
  have hrunning : w.controller.stopped = false := by simpa using (Bool.and_eq_true_iff.mp h).1
  have hcall : newTemplateInstance w bn tpls =
      if (acceptInstances (existingAt w bn) bn tpls).1.isEmpty then w
      else withController w {w.controller with
        unsavedTemplates := put w.controller.unsavedTemplates bn
          (acceptInstances (existingAt w bn) bn tpls).1} := by
    simp only [newTemplateInstance,hrunning,Bool.false_eq_true,if_false,existingAt]
  rw [← acceptInstances_eq_nil_iff,hcall]
  split
  · rename_i hnil
    exact iff_of_true ⟨rfl,rfl⟩ (isEmpty_iff.mp hnil)
  rename_i hsome
  exact iff_of_false (fun hkept => hsome (by rw [put_eq_self hkept.2]; rfl))
    (fun hnil => hsome (by rw [hnil]; rfl))

theorem refused_call_after_duplicate :
    refuses (holding [(10,[pool 10 20])] 10).world 10 [pool 10 20,pool 30 40] ∧
      (((newTemplateInstance (holding [(10,[pool 10 20])] 10).world 10
          [pool 10 20,pool 30 40]).controller.templates = [] ∧
        (newTemplateInstance (holding [(10,[pool 10 20])] 10).world 10
          [pool 10 20,pool 30 40]).controller.unsavedTemplates = [(10,[pool 10 20])]) ↔
      IgnoredBefore (existingAt (holding [(10,[pool 10 20])] 10).world 10) 10
        [pool 10 20,pool 30 40]) :=
  ⟨by decide +kernel,refused_call_keeps_templates_iff (holding [(10,[pool 10 20])] 10).world 10
    [pool 10 20,pool 30 40] (by decide +kernel)⟩

/-- The second instance would leave a hole and is rejected; the first one stays. -/
theorem refused_call_leaves_instance :
    refuses (holding [(10,[pool 10 20])] 10).world 10 [pool 15 25,pool 30 40] ∧
      (newTemplateInstance (holding [(10,[pool 10 20])] 10).world 10
        [pool 15 25,pool 30 40]).controller.unsavedTemplates =
          [(10,[pool 10 20,pool 15 25])] := by
  decide +kernel

end Sentio.TemplateHoles
