import SentioCore.KeyedRows
import SentioCore.RangeHoles

/-!
# Cutting overlapping ranges at their borders

`CutRangeSet` collects the starts and the first blocks after the ends, sorts
them, and lets consecutive borders delimit the pieces. Every input range that
meets a piece includes it, so a piece is decided by any one of its blocks.
-/

namespace Sentio.RangeCut
open RangeModel RangeHoles WordArith List

def cutPoints (start : UInt64) : List Range → List UInt64
  | [] => []
  | r::rest =>
    if r.stop.any (fun e => e < start) then cutPoints start rest
    else max r.start start::((r.stop.map (fun e => e+1)).toList++cutPoints start rest)

def orderedKeys (ns : List UInt64) : List UInt64 :=
  ns.dedup.insertionSort (fun a b => a.toNat ≤ b.toNat)

def pieces (inf : Bool) : List UInt64 → List Range
  | [] => []
  | [n] => if inf then [⟨n,none⟩] else []
  | n::m::rest => ⟨n,some (m-1)⟩::pieces inf (m::rest)

def cutRangeSet (start : UInt64) (rs : List Range) : List Range :=
  pieces (rs.any (fun r => r.stop.isNone)) (orderedKeys (cutPoints start rs))

variable {r : Range} {rs : List Range}

theorem cutPoints_start {start : UInt64} (hr : r ∈ rs)
    (hs : start.toNat ≤ top r.stop) : max r.start start ∈ cutPoints start rs := by
  induction rs with
  | nil => cases hr
  | cons a rest ih =>
    rw [cutPoints]
    rcases mem_cons.mp hr with rfl | hr
    · have hn : r.stop.any (fun e => e < start) = false := by
        cases he : r.stop with
        | none => rfl
        | some e => simpa [he,UInt64.le_iff_toNat_le] using hs
      simp [hn]
    · split
      · exact ih hr
      · simp [ih hr]

theorem cutPoints_stop {start : UInt64} (hr : r ∈ rs) {e : UInt64}
    (he : r.stop = some e) (hs : start.toNat ≤ e.toNat) : e+1 ∈ cutPoints start rs := by
  induction rs with
  | nil => cases hr
  | cons a rest ih =>
    rw [cutPoints]
    rcases mem_cons.mp hr with rfl | hr
    · have hn : ¬e < start := by simpa [UInt64.lt_iff_toNat_lt] using hs
      simp [hn,he]
    split
    · exact ih hr
    · simp [ih hr]

theorem mem_orderedKeys {ns : List UInt64} (n : UInt64) : n ∈ orderedKeys ns ↔ n ∈ ns := by
  simp [orderedKeys]

theorem orderedKeys_ascending (ns : List UInt64) :
    (orderedKeys ns).Pairwise (fun a b => a.toNat < b.toNat) := by
  have hle := KeyedRows.sort_pairwise UInt64.toNat ns.dedup
  have hd : (orderedKeys ns).Nodup :=
    (perm_insertionSort _ _).nodup_iff.mpr (nodup_dedup ns)
  apply (hle.and hd).imp
  intro a b hab
  exact lt_of_le_of_ne hab.1 (fun h => hab.2 (UInt64.toNat_inj.mp h))

theorem pieces_first {inf : Bool} (n : UInt64) {rest : List UInt64} {p : Range}
    (hs : (n::rest).Pairwise (fun a b => a.toNat < b.toNat)) (hp : p ∈ pieces inf (n::rest)) :
    n.toNat ≤ p.start.toNat := by
  induction rest generalizing n with
  | nil =>
    cases inf with
    | false => simp [pieces] at hp
    | true =>
      have hp : p = ⟨n,none⟩ := by simpa [pieces] using hp
      simp [hp]
  | cons m rest ih =>
    have hm := (pairwise_cons.mp hs).1 m (by simp)
    rcases mem_cons.mp hp with rfl | hp
    · exact le_refl _
    · have := ih m (pairwise_cons.mp hs).2 hp
      omega

variable {ns : List UInt64}

theorem pieces_separated {inf : Bool} (hs : ns.Pairwise (fun a b => a.toNat < b.toNat)) :
    (pieces inf ns).Pairwise (fun p q => top p.stop < q.start.toNat) := by
  induction ns with
  | nil => simp [pieces]
  | cons n rest ih =>
    rcases rest with _ | ⟨m,rest⟩
    · cases inf <;> simp [pieces]
    have hm := (pairwise_cons.mp hs).1 m (by simp)
    have hr := (pairwise_cons.mp hs).2
    rw [pieces,pairwise_cons]
    refine ⟨fun q hq => ?_,ih hr⟩
    have hq := pieces_first m hr hq
    rw [top_some,toNat_dec m (by omega)]
    omega

variable {p : Range} {inf : Bool}

theorem pieces_uncut (hs : ns.Pairwise (fun a b => a.toNat < b.toNat)) (hp : p ∈ pieces inf ns)
    {c : UInt64} (hc : c ∈ ns) : c.toNat ≤ p.start.toNat ∨ top p.stop < c.toNat := by
  induction ns with
  | nil => cases hc
  | cons n rest ih =>
    rcases mem_cons.mp hc with rfl | hc
    · exact .inl (pieces_first c hs hp)
    rcases rest with _ | ⟨m,rest⟩
    · cases hc
    have hr := (pairwise_cons.mp hs).2
    rcases mem_cons.mp hp with rfl | hp
    · have hm := (pairwise_cons.mp hs).1 m (by simp)
      have hmc : m.toNat ≤ c.toNat := by
        rcases mem_cons.mp hc with rfl | hc
        · exact le_refl _
        · exact le_of_lt ((pairwise_cons.mp hr).1 c hc)
      rw [top_some,toNat_dec m (by omega)]
      omega
    · exact ih hr hp hc

theorem pieces_cover (hs : ns.Pairwise (fun a b => a.toNat < b.toNat)) {n : UInt64}
    (hl : ∃ c ∈ ns, c.toNat ≤ n.toNat) (hu : inf ∨ ∃ c ∈ ns, n.toNat < c.toNat) :
    ∃ p ∈ pieces inf ns, p.contains n := by
  induction ns with
  | nil => simp at hl
  | cons k rest ih =>
    obtain ⟨c,hc,hcn⟩ := hl
    have hk : k.toNat ≤ n.toNat := by
      rcases mem_cons.mp hc with rfl | hc
      · exact hcn
      · have := (pairwise_cons.mp hs).1 c hc
        omega
    rcases rest with _ | ⟨m,rest⟩
    · have hi : inf := hu.resolve_right (by simp [hk])
      refine ⟨⟨k,none⟩,by simp [pieces,hi],?_⟩
      have := word_lt n
      simp only [inRange_iff,top_none]
      omega
    have hr := (pairwise_cons.mp hs).2
    by_cases hn : n.toNat < m.toNat
    · refine ⟨⟨k,some (m-1)⟩,by simp [pieces],?_⟩
      simp only [inRange_iff,top_some,toNat_dec m (by omega)]
      omega
    have hu' : inf ∨ ∃ c ∈ m::rest, n.toNat < c.toNat := by
      refine hu.imp id (fun ⟨c,hc,h⟩ => ⟨c,(mem_cons.mp hc).resolve_left ?_,h⟩)
      rintro rfl
      omega
    obtain ⟨p,hp,hpn⟩ := ih hr ⟨m,by simp,by omega⟩ hu'
    exact ⟨p,by simp [pieces,hp],hpn⟩

theorem includes_iff (r p : Range) (hb : Bounded r) (hp : p.start.toNat ≤ top p.stop) :
    r.includes p ↔ r.start.toNat ≤ p.start.toNat ∧ top p.stop ≤ top r.stop := by
  have he : lessEqualNilAsInf p.stop r.stop ↔ top p.stop ≤ top r.stop := by
    rcases hs : p.stop with _ | e
    swap
    · exact some_lessEqual_iff e _
    rcases hr : r.stop with _ | e
    · simp [lessEqualNilAsInf]
    have := bounded_top e (hr ▸ hb)
    simp only [top_none,top_some]
    constructor
    · intro h
      cases h
    · omega
  by_cases hr : r.isEmpty
  · have := (isEmpty_iff r).mp hr
    simp only [Range.includes,not_isEmpty p hp,hr,if_true,Bool.false_eq_true,if_false,
      false_iff]
    omega
  · simp [Range.includes,not_isEmpty p hp,hr,he,UInt64.le_iff_toNat_le]

variable {n : UInt64}

theorem includes_contains (hb : Bounded r) (hn : p.contains n) (h : r.includes p) : r.contains n := by
  rw [inRange_iff] at hn
  have := (includes_iff r p hb (by omega)).mp h
  rw [inRange_iff]
  omega

variable {start : UInt64}

/-- No border falls inside a piece: a range with a block at or above the cut's
start in common with a piece includes the whole piece. -/
theorem cut_includes (hr : r ∈ rs) (hb : Bounded r) (hp : p ∈ cutRangeSet start rs)
    (hs : start.toNat ≤ n.toNat) (hn : r.contains n) (hpn : p.contains n) : r.includes p := by
  rw [inRange_iff] at hn hpn
  have ha := orderedKeys_ascending (cutPoints start rs)
  have hcut := fun c hc => pieces_uncut ha hp ((mem_orderedKeys c).mpr hc)
  have hlow := hcut _ (cutPoints_start hr (by omega))
  rw [toNat_max] at hlow
  rw [includes_iff r p hb (by omega)]
  refine ⟨by omega,?_⟩
  rcases he : r.stop with _ | e
  · have := top_lt p.stop
    rw [top_none]
    omega
  have hb' := bounded_top e (he ▸ hb)
  rw [he,top_some] at hn
  have hhigh := hcut _ (cutPoints_stop hr he (by omega))
  rw [toNat_inc e hb'] at hhigh
  rw [top_some]
  omega

theorem cut_cover (hr : r ∈ rs) (hb : Bounded r) (hs : start.toNat ≤ n.toNat)
    (hn : r.contains n) : ∃ p ∈ cutRangeSet start rs, p.contains n := by
  rw [inRange_iff] at hn
  apply pieces_cover (orderedKeys_ascending _)
  · refine ⟨max r.start start,?_,by rw [toNat_max]; omega⟩
    exact (mem_orderedKeys _).mpr (cutPoints_start hr (by omega))
  cases he : r.stop with
  | none => exact .inl (any_eq_true.mpr ⟨r,hr,by simp [he]⟩)
  | some e =>
    rw [he,top_some] at hn
    refine .inr ⟨e+1,?_,by rw [toNat_inc e (bounded_top e (he ▸ hb))]; omega⟩
    exact (mem_orderedKeys _).mpr (cutPoints_stop hr he (by omega))

theorem cut_separated (start : UInt64) :
    (cutRangeSet start rs).Pairwise (fun p q => top p.stop < q.start.toNat) :=
  pieces_separated (orderedKeys_ascending _)

theorem separated_contains {q : Range} (h : top p.stop < q.start.toNat) :
    ¬(p.contains n ∧ q.contains n) := by
  rw [inRange_iff,inRange_iff]
  omega

end Sentio.RangeCut
