import SentioCore.RangeModel

/-!
# Template instances

A template instance switches a template on or off over a range of blocks.
Instances are kept by the block that created them. A new instance is dropped
when it changes nothing from its block on, and rejected when the range in which
its template is on would get a hole.
-/

namespace Sentio.TemplateModel
open RangeModel

structure TemplateInstance where
  templateID : ℤ
  templateName : String
  address : String
  labels : String
  removed : Bool
  blockRange : Range
  deriving DecidableEq

def uniqID (t : TemplateInstance) : String :=
  if t.labels = "" then toString t.templateID ++ "/" ++ t.address
  else toString t.templateID ++ "/" ++ t.address ++ "/" ++ t.labels

abbrev Templates := List (UInt64 × List TemplateInstance)

variable (m : Templates) (bn : UInt64)

def lookup : Option (List TemplateInstance) :=
  (m.find? (fun e => e.1 = bn)).map Prod.snd

def put (tpls : List TemplateInstance) : Templates :=
  if m.any (fun e => e.1 = bn) then
    m.map (fun e => if e.1 = bn then (e.1,e.2++tpls) else e)
  else m++[(bn,tpls)]

def upTo : Templates := m.filter (fun e => e.1 ≤ bn)

def orderedInstances : List TemplateInstance :=
  (m.mergeSort (fun a b => a.1 ≤ b.1)).flatMap Prod.snd

def includesRange (rs : RangeSet) (a : Range) : Bool :=
  rs.range.includes a && rs.holes.all (fun h => (a.intersection ⟨h.1,some h.2⟩).isEmpty)

/-- The blocks from `bn` on at which the earlier instances leave the template on. -/
def onFrom (exist : List TemplateInstance) (bn : UInt64) : RangeSet :=
  (exist.foldl (fun on ex =>
    if ex.removed then on.remove ex.blockRange else on.union ex.blockRange) emptyRangeSet).intersection
    ⟨bn,none⟩

inductive Verdict where
  | ignored
  | invalid
  | accepted
  deriving DecidableEq

def judge (exist : List TemplateInstance) (bn : UInt64) (tpl : TemplateInstance) : Verdict :=
  if exist.isEmpty then .accepted
  else
    let on := onFrom exist bn
    let intersection := on.intersection tpl.blockRange
    if (tpl.removed && intersection.isEmpty) ||
        (!tpl.removed && includesRange intersection tpl.blockRange) then .ignored
    else
      let after := if tpl.removed then on.remove tpl.blockRange else on.union tpl.blockRange
      if after.holes.isEmpty then .accepted else .invalid

def resetStart (tpl : TemplateInstance) : TemplateInstance :=
  if tpl.blockRange.start < bn && !tpl.removed then
    {tpl with blockRange := {tpl.blockRange with start := bn}}
  else tpl

/-- The instances kept before the first invalid one, and whether there is one.
Instances of the same call are judged against the earlier calls only. -/
def acceptInstances (existing : List TemplateInstance) (bn : UInt64) :
    List TemplateInstance → List TemplateInstance × Bool
  | [] => ([],false)
  | tpl::rest =>
    let tpl := resetStart bn tpl
    match judge (existing.filter (fun e => uniqID e = uniqID tpl)) bn tpl with
    | .ignored => acceptInstances existing bn rest
    | .invalid => ([],true)
    | .accepted =>
      let later := acceptInstances existing bn rest
      (tpl::later.1,later.2)

end Sentio.TemplateModel
