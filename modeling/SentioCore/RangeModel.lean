import Mathlib.Data.List.DropRight
import Mathlib.Data.List.Sort

/-!
# Ranges and range sets over block numbers

An inclusive range has an optional end, and no end means infinity. A range set
is a range with a list of inclusive holes. Bounds are machine words, so the
border arithmetic of every operation wraps as in the source; whether a wrap can
be reached is a question for the laws and not for this module.
-/

namespace Sentio.RangeModel

def maxUint64 : UInt64 := 18446744073709551615

def lessNilAsInf : Option UInt64 → Option UInt64 → Bool
  | none, _ => false
  | some _, none => true
  | some a, some b => a < b

def lessEqualNilAsInf : Option UInt64 → Option UInt64 → Bool
  | none, b => b.isNone
  | some _, none => true
  | some a, some b => a ≤ b

def greaterNilAsInf (a b : Option UInt64) : Bool := !lessEqualNilAsInf a b

def minNilAsInf : Option UInt64 → Option UInt64 → Option UInt64
  | none, b => b
  | a, none => a
  | some a, some b => some (min a b)

def maxNilAsInf : Option UInt64 → Option UInt64 → Option UInt64
  | some a, some b => some (max a b)
  | _, _ => none

structure Range where
  start : UInt64
  stop : Option UInt64
  deriving DecidableEq

namespace Range

def empty : Range := ⟨maxUint64,some 0⟩

def isEmpty (r : Range) : Bool := lessNilAsInf r.stop (some r.start)

def endOrZero (r : Range) : UInt64 := r.stop.getD 0

def contains (r : Range) (n : UInt64) : Bool :=
  if r.isEmpty then false else r.start ≤ n && lessEqualNilAsInf (some n) r.stop

variable (r a : Range)

def includes : Bool :=
  if a.isEmpty then true
  else if r.isEmpty then false
  else r.start ≤ a.start && lessEqualNilAsInf a.stop r.stop

def getDistance : UInt64 :=
  if r.isEmpty || a.isEmpty then 0
  else if r.stop.any (fun e => e+1 < a.start) then a.start-r.endOrZero-1
  else if a.stop.any (fun e => e+1 < r.start) then r.start-a.endOrZero-1
  else 0

def intersection : Range :=
  if a.isEmpty || r.isEmpty then empty
  else ⟨max r.start a.start,minNilAsInf r.stop a.stop⟩

def cover : Range :=
  if r.isEmpty then a
  else if a.isEmpty then r
  else ⟨min r.start a.start,maxNilAsInf r.stop a.stop⟩

end Range

abbrev Hole := UInt64 × UInt64

structure RangeSet where
  range : Range
  holes : List Hole
  deriving DecidableEq

def emptyRangeSet : RangeSet := ⟨Range.empty,[]⟩

def Range.remove (r a : Range) : RangeSet :=
  if r.isEmpty then emptyRangeSet
  else if a.isEmpty then ⟨r,[]⟩
  else if a.start ≤ r.start then
    if lessNilAsInf a.stop (some r.start) then ⟨r,[]⟩
    else if lessNilAsInf a.stop r.stop then ⟨⟨a.endOrZero+1,r.stop⟩,[]⟩
    else emptyRangeSet
  else if lessNilAsInf r.stop (some a.start) then ⟨r,[]⟩
  else if lessNilAsInf a.stop r.stop then ⟨r,[(a.start,a.endOrZero)]⟩
  else ⟨⟨r.start,some (a.start-1)⟩,[]⟩

namespace RangeSet

variable (rs : RangeSet)

def isEmpty : Bool := rs.range.isEmpty

def contains (n : UInt64) : Bool :=
  rs.range.contains n && rs.holes.all (fun h => !(h.1 ≤ n && n ≤ h.2))

/-- The two trimming loops of `Intersection`: the first hole reaching the new
start and the last hole reaching the new end decide whether the border moves. -/
def trimLeft (start : UInt64) (holes : List Hole) : UInt64 × List Hole :=
  match holes.dropWhile (fun h => h.2 < start) with
  | [] => (start,[])
  | h::rest => if start < h.1 then (start,h::rest) else (h.2+1,rest)

def trimRight (stop : Option UInt64) (holes : List Hole) : Option UInt64 × List Hole :=
  let kept := holes.rdropWhile (fun h => lessNilAsInf stop (some h.1))
  match kept.getLast? with
  | none => (stop,[])
  | some h => if lessNilAsInf (some h.2) stop then (stop,kept) else (some (h.1-1),kept.dropLast)

def trim (r : Range) (holes : List Hole) : RangeSet :=
  let left := trimLeft r.start holes
  let right := trimRight r.stop left.2
  ⟨⟨left.1,right.1⟩,right.2⟩

def orEmpty : RangeSet := if rs.isEmpty then emptyRangeSet else rs

def intersection (a : Range) : RangeSet :=
  let r := rs.range.intersection a
  if r.isEmpty then emptyRangeSet else (trim r rs.holes).orEmpty

def findLeft (start aStart : UInt64) : List Hole → Option RangeSet
  | [] => none
  | h::rest =>
    if aStart < h.1 then some ⟨⟨start,some (aStart-1)⟩,[]⟩
    else if aStart ≤ h.2+1 then some ⟨⟨start,some (h.1-1)⟩,[]⟩
    else (findLeft start aStart rest).map (fun l => ⟨l.range,h::l.holes⟩)

def leftOf (a : Range) : RangeSet :=
  if rs.range.start < a.start then
    let left := (findLeft rs.range.start a.start rs.holes).getD emptyRangeSet
    if left.isEmpty then ⟨⟨rs.range.start,some (a.start-1)⟩,rs.holes⟩ else left
  else emptyRangeSet

def findRight (stop : Option UInt64) (aEnd : UInt64) : List Hole → Option RangeSet
  | [] => none
  | h::rest =>
    if aEnd < h.1-1 then some ⟨⟨aEnd+1,stop⟩,h::rest⟩
    else if aEnd ≤ h.2 then some ⟨⟨h.2+1,stop⟩,rest⟩
    else findRight stop aEnd rest

def rightOf (a : Range) : RangeSet :=
  if lessNilAsInf a.stop rs.range.stop then
    let right := (findRight rs.range.stop a.endOrZero rs.holes).getD emptyRangeSet
    if right.isEmpty then ⟨⟨a.endOrZero+1,rs.range.stop⟩,[]⟩ else right
  else emptyRangeSet

def remove (a : Range) : RangeSet :=
  if a.isEmpty || rs.isEmpty then rs
  else if lessNilAsInf a.stop (some rs.range.start) then rs
  else if lessNilAsInf rs.range.stop (some a.start) then rs
  else
    let left := rs.leftOf a
    let right := rs.rightOf a
    if !left.isEmpty && !right.isEmpty then
      orEmpty ⟨rs.range,left.holes ++ [(left.range.endOrZero+1,right.range.start-1)] ++ right.holes⟩
    else if left.isEmpty then right.orEmpty
    else left.orEmpty

def fillHoles (a : Range) : List Hole → List Hole
  | [] => []
  | h::rest =>
    let remain := Range.remove ⟨h.1,some h.2⟩ a
    if remain.isEmpty then fillHoles a rest
    else match remain.holes with
      | [g] => (h.1,g.1-1)::(g.2+1,h.2)::rest
      | _ => (remain.range.start,remain.range.endOrZero)::fillHoles a rest

def union (a : Range) : RangeSet :=
  if a.isEmpty then rs
  else if rs.isEmpty then ⟨a,[]⟩
  else if lessNilAsInf rs.range.stop (some a.start) then
    if rs.range.endOrZero+1 = a.start then ⟨⟨rs.range.start,a.stop⟩,rs.holes⟩
    else ⟨⟨rs.range.start,a.stop⟩,rs.holes ++ [(rs.range.endOrZero+1,a.start-1)]⟩
  else if lessNilAsInf a.stop (some rs.range.start) then
    if a.endOrZero+1 = rs.range.start then ⟨⟨a.start,rs.range.stop⟩,rs.holes⟩
    else ⟨⟨a.start,rs.range.stop⟩,(a.endOrZero+1,rs.range.start-1)::rs.holes⟩
  else ⟨a.cover rs.range,fillHoles a rs.holes⟩

def rangesFrom (start : UInt64) (stop : Option UInt64) : List Hole → List Range
  | [] => [⟨start,stop⟩]
  | h::rest => ⟨start,some (h.1-1)⟩::rangesFrom (h.2+1) stop rest

def getRanges : List Range :=
  if rs.isEmpty then [] else rangesFrom rs.range.start rs.range.stop rs.holes

end RangeSet

/-- Ascending starts, and for equal starts the longer range first. -/
def sortsBefore (r a : Range) : Bool :=
  if r.start ≠ a.start then r.start < a.start else greaterNilAsInf r.stop a.stop

def sortRanges (rs : List Range) : List Range := rs.mergeSort (fun r a => !sortsBefore a r)

def compact (cur : Range) : List Range → List Range
  | [] => [cur]
  | r::rest =>
    if cur.includes r then compact cur rest
    else if cur.getDistance r = 0 then compact ⟨cur.start,r.stop⟩ rest
    else cur::compact r rest

def holesBetween : List Range → List Hole
  | r::a::rest => (r.endOrZero+1,a.start-1)::holesBetween (a::rest)
  | _ => []

def newRangeSet : List Range → RangeSet
  | [] => emptyRangeSet
  | [r] => ⟨r,[]⟩
  | rs => match sortRanges rs with
    | [] => emptyRangeSet
    | r::rest =>
      let parts := compact r rest
      ⟨⟨r.start,(parts.getLast?.map Range.stop).getD none⟩,holesBetween parts⟩

namespace RangeSet

def intersectRanges : List Range → List Range → List Range
  | r::rs, a::as =>
    let inter := r.intersection a
    let later := if lessNilAsInf r.stop a.stop then intersectRanges rs (a::as)
      else if lessNilAsInf a.stop r.stop then intersectRanges (r::rs) as
      else intersectRanges rs as
    if inter.isEmpty then later else inter::later
  | _, _ => []
termination_by rs as => rs.length+as.length

def intersectionSet (rs a : RangeSet) : RangeSet :=
  if rs.isEmpty || a.isEmpty then emptyRangeSet
  else newRangeSet (intersectRanges rs.getRanges a.getRanges)

def unionSet (rs a : RangeSet) : RangeSet := a.getRanges.foldl union rs

def removeSet (rs a : RangeSet) : RangeSet := a.getRanges.foldl remove rs

end RangeSet
end Sentio.RangeModel
