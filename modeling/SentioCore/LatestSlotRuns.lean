import SentioCore.LatestSlotModel
import SentioCore.RangeFinite
import SentioCore.Transition

/-!
# The window of the latest-slot cache over whole runs

The range moves only in the last step of a growth round. Until then the round
knows that the range is still the one it started with, and that the slots loaded
so far fill the new range together with the slots that stay. A repair keeps the
hash of a slot, so the boundary that was checked stays linked until the write.
-/

namespace Sentio.LatestSlotRuns
open RangeModel RangeHoles RangeSetAlgebra RangeFind KeyedRows Option
open RangeBlocks WordArith Transition LatestSlotModel
open UInt64 (toNat_add toNat_one toNat_zero lt_iff_toNat_lt toNat_inj le_iff_toNat_le)
open Option (some.inj some.injEq)

def Exact (c : Cache) : Prop := ∀ n, (slotAt c.memCache n).isSome = c.curRange.contains n

def Linked (cfg : Config) (c : Cache) : Prop :=
  ∀ left right, slotAt c.memCache left.number = some left →
    slotAt c.memCache right.number = some right → left.number.toNat+1 = right.number.toNat →
    left.hash = cfg.parentHash right

/-- A window that is not empty stays so, and its end does not go back. -/
def Advances (c d : Cache) : Prop :=
  c.curRange.isEmpty = false →
    d.curRange.isEmpty = false ∧ top c.curRange.stop ≤ top d.curRange.stop

/-- An empty range of the persistent dimension does not end above the window. -/
def Sane (curRange extRange : Range) : Prop :=
  extRange.isEmpty → curRange.isEmpty = false → top extRange.stop ≤ top curRange.stop

def Orderly (c : Cache) : Event → Prop
  | .getRange (some extRange) _ => Sane c.curRange extRange
  | _ => True

instance (curRange extRange : Range) : Decidable (Sane curRange extRange) :=
  inferInstanceAs (Decidable (_ → _))

instance (c : Cache) (event : Event) : Decidable (Orderly c event) :=
  match event with
  | .getRange (some extRange) _ => inferInstanceAs (Decidable (Sane c.curRange extRange))
  | .getRange none _ => .isTrue trivial
  | .l2GetRange _ | .l2Load _ | .load _ | .check | .write | .scan | .repairSlot _ => .isTrue trivial

/-- What is loaded and what stays fill the new range. -/
structure Planned (curRange newRange loadRange : Range) : Prop where
  finite : newRange.stop ≠ none
  stop : loadRange.stop = newRange.stop
  low : newRange.start.toNat ≤ loadRange.start.toNat
  hollow : newRange.isEmpty → newRange = Range.empty ∧ loadRange = Range.empty
  filled : newRange.isEmpty = false → loadRange.isEmpty = false
  kept : ∀ n : UInt64, newRange.start.toNat ≤ n.toNat → n.toNat < loadRange.start.toNat →
    curRange.contains n
  start : curRange.isEmpty = false → curRange.start.toNat ≤ newRange.start.toNat
  grows : curRange.isEmpty = false →
    newRange.isEmpty = false ∧ top curRange.stop < top newRange.stop

/-- The loaded slots are linked among themselves and to the slot that stays before them. -/
structure Joins (cfg : Config) (memCache : List Slot) (newRange : Range) (loaded : List Slot) :
    Prop where
  chain : loaded.IsChain (Follows cfg)
  boundary : ∀ left right, slotAt memCache left.number = some left → loaded.head? = some right →
    left.number.toNat+1 = right.number.toNat → newRange.contains left.number →
    left.hash = cfg.parentHash right

def Loaded (cfg : Config) (memCache : List Slot) (curRange newRange : Range) (loaded : List Slot) :
    Prop :=
  (newRange = curRange ∧ loaded = []) ∨
    ∃ loadRange, Planned curRange newRange loadRange ∧ answers loadRange loaded ∧
      (cfg.linked → Joins cfg memCache newRange loaded)

def GrowthInv (cfg : Config) (c : Cache) : Prop :=
  match c.growth with
  | .idle => True
  | .ranged extRange maxSize minSize => maxSize ≠ 0 ∧ minSize ≠ 0 ∧ Sane c.curRange extRange
  | .l2Loading extRange maxSize minSize loadRange => maxSize ≠ 0 ∧ minSize ≠ 0 ∧
      c.curRange.isEmpty ∧ extRange.isEmpty = false ∧ loadRange.stop ≠ none
  | .loading curRange newRange loadRange _ =>
      curRange = c.curRange ∧ Planned curRange newRange loadRange
  | .checking curRange newRange loadRange _ loaded => curRange = c.curRange ∧
      Planned curRange newRange loadRange ∧ answers loadRange loaded
  | .writing curRange newRange loaded =>
      curRange = c.curRange ∧ Loaded cfg c.memCache curRange newRange loaded

structure CacheInv (cfg : Config) (c : Cache) : Prop where
  exact : Exact c
  linked : cfg.linked → Linked cfg c
  finite : c.curRange.stop ≠ none
  growth : GrowthInv cfg c

section links

variable {slots : List Slot} {loadRange : Range}

theorem number_at (h : answers loadRange slots) {k : ℕ} {slot : Slot}
    (hk : slots[k]? = some slot) : slot.number.toNat = loadRange.start.toNat+k := by
  have hmap : slots.map Slot.number = blocks loadRange := by simpa [answers] using h
  apply blocks_number
  rw [← hmap,List.getElem?_map,hk]
  rfl

theorem number_mem (h : answers loadRange slots)
    {n : UInt64} : loadRange.contains n ↔ ∃ slot ∈ slots, slot.number = n := by
  have hmap : slots.map Slot.number = blocks loadRange := by simpa [answers] using h
  rw [← mem_blocks,← hmap,List.mem_map]

variable {cfg : Config}

theorem chain_of_check (hinc : (slots.map Slot.number).Pairwise (fun a b => a.toNat < b.toNat))
    (h : checkLinksMismatch cfg slots = false) : slots.IsChain (Follows cfg) := by
  induction slots with
  | nil => exact .nil
  | cons left rest ih =>
    rcases rest with _ | ⟨right,rest⟩
    · exact .singleton _
    rw [List.map_cons,List.pairwise_cons] at hinc
    simp only [checkLinksMismatch,Bool.or_eq_false_iff,decide_eq_false_iff_not,not_not] at h
    refine .cons_cons ⟨?_,h.1.2⟩ (ih hinc.2 h.2)
    have hlt := hinc.1 right.number (by simp)
    rw [← h.1.1,toNat_add] at hlt ⊢
    simp only [toNat_one] at hlt ⊢
    omega

section
variable (h : answers loadRange slots)
include h

theorem answers_increasing : (slots.map Slot.number).Pairwise (fun a b => a.toNat < b.toNat) := by
  have hmap : slots.map Slot.number = blocks loadRange := by simpa [answers] using h
  rw [hmap]
  exact blocks_pairwise loadRange

theorem answers_nodup : (slots.map Slot.number).Nodup :=
  (answers_increasing h).imp (fun hlt heq => by rw [heq] at hlt; omega)

/-- Slots of a linked answer with consecutive numbers follow each other. -/
theorem linked_answer (hc : slots.IsChain (Follows cfg))
    {left right : Slot} (hl : left ∈ slots) (hr : right ∈ slots)
    (hn : left.number.toNat+1 = right.number.toNat) : left.hash = cfg.parentHash right := by
  obtain ⟨i,hi⟩ := List.mem_iff_getElem?.mp hl
  obtain ⟨k,hk⟩ := List.mem_iff_getElem?.mp hr
  have h1 := number_at h hi
  have h2 := number_at h hk
  obtain rfl : k = i+1 := by omega
  obtain ⟨hi',rfl⟩ := List.getElem?_eq_some_iff.mp hi
  obtain ⟨hk',rfl⟩ := List.getElem?_eq_some_iff.mp hk
  exact (List.isChain_iff_getElem.mp hc i hk').2

end

end links

section plan

theorem memCacheSize_pos {len : Fin 9223372036854775808} {interval : ℕ} :
    memCacheSize len interval ≠ 0 := by
  intro h
  have hle : len.val/interval ≤ len.val := Nat.div_le_self _ _
  have hz := congrArg UInt64.toNat h
  rw [memCacheSize,toNat_add,UInt64.toNat_ofNat'] at hz
  simp only [toNat_one,toNat_zero] at hz
  generalize len.val/interval = q at hle hz
  omega

variable {extRange : Range} {extEnd : UInt64}

/-- The part of a range up to its end, at most of the given size. -/
theorem recent_part {size : UInt64} (hs : size ≠ 0)
    (he : extRange.stop = some extEnd) (hne : extRange.isEmpty = false) :
    ((newRangeByEndAndSize extEnd size).intersection extRange).stop = some extEnd ∧
      ((newRangeByEndAndSize extEnd size).intersection extRange).start.toNat ≤ extEnd.toNat := by
  have hstart := start_le_top hne
  rw [he,top_some] at hstart
  have hrecent : ∃ start : UInt64, newRangeByEndAndSize extEnd size = ⟨start,some extEnd⟩ ∧
      start.toNat ≤ extEnd.toNat := by
    unfold newRangeByEndAndSize
    rw [if_neg hs]
    by_cases hlt : extEnd+1 < size
    · rw [if_pos hlt]
      exact ⟨0,by simp⟩
    rw [if_neg hlt]
    refine ⟨_,rfl,?_⟩
    rw [lt_iff_toNat_lt] at hlt
    have hpos : size.toNat ≠ 0 := fun hz => hs (toNat_inj.mp hz)
    have hsub : (extEnd+1-size).toNat = (extEnd+1).toNat-size.toNat :=
      UInt64.toNat_sub_of_le _ _ (le_iff_toNat_le.mpr (by omega))
    have hadd : (extEnd+1).toNat ≤ extEnd.toNat+1 := by
      exact Nat.mod_le _ _
    omega
  obtain ⟨start,hr,hle⟩ := hrecent
  have hrn : Range.isEmpty ⟨start,some extEnd⟩ = false := not_isEmpty _ hle
  rw [hr]
  simp only [Range.intersection,hne,hrn,Bool.or_self,Bool.false_eq_true,if_false,he,minNilAsInf]
  constructor
  · rw [some.injEq]
    apply toNat_inj.mp
    rw [toNat_min]
    omega
  · rw [toNat_max]
    omega

theorem last_interval {r : Range} (h : r.isEmpty = false) : last ⟨r,[]⟩ = r := by
  simp [last,RangeSet.isEmpty,h]

variable {newRange curRange : Range}

theorem planned_fresh (hc : curRange.isEmpty)
    (hf : newRange.stop ≠ none) (hn : newRange.isEmpty → newRange = Range.empty) :
    Planned curRange newRange (last (newRange.remove curRange)) := by
  have hload : last (newRange.remove curRange) = newRange := by
    cases he : newRange.isEmpty with
    | true =>
      rw [hn he]
      rfl
    | false => rw [Range.remove,he,if_neg (by decide),if_pos hc,last_interval he]
  rw [hload]
  constructor
  case finite => exact hf
  case stop => rfl
  case low => exact le_rfl
  case hollow => exact fun he => ⟨hn he,hn he⟩
  case filled => exact id
  case kept => intro n h1 h2; omega
  case start => simp [hc]
  case grows => simp [hc]

theorem planned_grown {start curEnd : UInt64}
    (hc : curRange.isEmpty = false) (hcs : curRange.stop = some curEnd)
    (hlt : curEnd.toNat < extEnd.toNat) (hs : start.toNat ≤ extEnd.toNat) :
    Planned curRange ⟨max start curRange.start,some extEnd⟩
      (last (Range.remove ⟨max start curRange.start,some extEnd⟩ curRange)) := by
  have hcur := start_le_top hc
  have hmax := toNat_max start curRange.start
  have hw := word_lt extEnd
  have htop : top curRange.stop = curEnd.toNat := by rw [hcs,top_some]
  have hle : (max start curRange.start).toNat ≤ extEnd.toNat := by omega
  have hload : ∃ s : UInt64, Range.remove ⟨max start curRange.start,some extEnd⟩ curRange =
      ⟨⟨s,some extEnd⟩,[]⟩ ∧ (max start curRange.start).toNat ≤ s.toNat ∧
      s.toNat ≤ extEnd.toNat ∧ (s.toNat ≤ curEnd.toNat+1 ∨ s = max start curRange.start) := by
    have hinc := endOrZero_inc curRange (by omega)
    have hrem := remove_branches (r := ⟨max start curRange.start,some extEnd⟩) hle hcur
    simp only [less_some_iff] at hrem
    rcases hrem with ⟨h,_⟩ | ⟨h,_⟩ | ⟨_,h⟩ | ⟨_,h⟩ | ⟨_,h⟩
    · exact ⟨_,h,le_rfl,hle,.inr rfl⟩
    · exact ⟨_,h,by omega,by omega,.inl (by omega)⟩
    · omega
    · omega
    · omega
  obtain ⟨s,hrem,hlow,hhigh,hkept⟩ := hload
  have hs : Range.isEmpty ⟨s,some extEnd⟩ = false := not_isEmpty _ hhigh
  rw [hrem,last_interval hs]
  have hnew : Range.isEmpty ⟨max start curRange.start,some extEnd⟩ = false := not_isEmpty _ hle
  constructor
  case finite => simp
  case stop => rfl
  case low => exact hlow
  case hollow => simp [hnew]
  case filled => exact fun _ => hs
  case kept =>
    intro n h1 h2
    dsimp only at h1 h2
    rw [inRange_iff]
    rcases hkept with hk | rfl <;> omega
  case start => exact fun _ => by dsimp only; omega
  case grows => exact fun _ => ⟨hnew,by rw [htop]; exact hlt⟩

variable {minSize maxSize : UInt64}

theorem planGrowth_inv (hmax : maxSize ≠ 0)
    (hmin : minSize ≠ 0) (hf : curRange.stop ≠ none) (hs : Sane curRange extRange)
    {growth : Growth} (h : planGrowth curRange extRange maxSize minSize = some growth) :
    growth = .writing curRange curRange [] ∨
      ∃ newRange loadRange, growth = .loading curRange newRange loadRange 0 ∧
        Planned curRange newRange loadRange := by
  unfold planGrowth at h
  split at h
  · cases h
  rename_i extEnd he
  cases hc : curRange.isEmpty with
  | true =>
    rw [hc] at h
    refine .inr ⟨_,_,(some.inj h).symm,planned_fresh hc ?_ ?_⟩
    · cases hext : extRange.isEmpty with
      | true => simp [Range.intersection,hext,Range.empty]
      | false =>
        simp [(recent_part hmin he hext).1]
    intro hn
    cases hext : extRange.isEmpty with
    | true => simp [Range.intersection,hext]
    | false =>
      obtain ⟨h1,h2⟩ := recent_part hmin he hext
      rw [RangeHoles.isEmpty_iff,h1,top_some] at hn
      omega
  | false =>
    rw [hc] at h
    obtain ⟨curEnd,hcs⟩ := ne_none_iff_exists'.mp hf
    rw [hcs] at h
    dsimp only at h
    by_cases hle : extEnd ≤ curEnd
    · rw [if_pos hle] at h
      exact .inl (some.inj h).symm
    rw [if_neg hle] at h
    rw [le_iff_toNat_le] at hle
    have hext : extRange.isEmpty = false := by
      rw [Bool.eq_false_iff]
      intro hext
      have := hs hext hc
      rw [he,hcs,top_some,top_some] at this
      omega
    obtain ⟨h1,h2⟩ := recent_part hmax he hext
    rw [h1] at h
    exact .inr ⟨_,_,(some.inj h).symm,planned_grown hc hcs (by omega) h2⟩

theorem planned_widened {loadRange : Range} {x : UInt64} (h : Planned curRange newRange loadRange) :
    Planned curRange newRange ((moveLeftBorder loadRange x).intersection newRange) := by
  rcases hn : newRange.isEmpty with _ | _
  swap
  · have hload : (moveLeftBorder loadRange x).intersection newRange = loadRange := by
      simp [Range.intersection,hn,(h.hollow hn).2]
    rwa [hload]
  have hl := start_le_top (h.filled hn)
  have hmoved : (moveLeftBorder loadRange x).stop = newRange.stop ∧
      (moveLeftBorder loadRange x).start.toNat ≤ loadRange.start.toNat := by
    unfold moveLeftBorder
    split
    · rename_i hx
      exact ⟨h.stop,by rw [UInt64.toNat_sub_of_le _ _ hx]; omega⟩
    · exact ⟨h.stop,by simp⟩
  have hmn : (moveLeftBorder loadRange x).isEmpty = false := by
    apply not_isEmpty
    rw [hmoved.1,← h.stop]
    omega
  have hmin : minNilAsInf newRange.stop newRange.stop = newRange.stop := by
    rcases newRange.stop with _ | e
    · rfl
    rw [minNilAsInf,some.injEq]
    apply toNat_inj.mp
    rw [toNat_min]
    omega
  have hload : (moveLeftBorder loadRange x).intersection newRange =
      ⟨max (moveLeftBorder loadRange x).start newRange.start,newRange.stop⟩ := by
    simp only [Range.intersection,hn,hmn,Bool.or_self,Bool.false_eq_true,if_false,hmoved.1,hmin]
  have hmax := toNat_max (moveLeftBorder loadRange x).start newRange.start
  have hlow := h.low
  rw [h.stop] at hl
  rw [hload]
  exact {h with
    stop := rfl
    low := by dsimp only; omega
    hollow := by simp [hn]
    filled := fun _ => not_isEmpty _ (by dsimp only; omega)
    kept := fun n h1 h2 => h.kept n h1 (by dsimp only at h2; omega) }

theorem plan_inv {cfg : Config} {c d : Cache} (hmax : maxSize ≠ 0) (hmin : minSize ≠ 0)
    (hexact : Exact c) (hlinked : cfg.linked → Linked cfg c) (hf : c.curRange.stop ≠ none)
    (hs : Sane c.curRange extRange) (h : plan c extRange maxSize minSize = some d) :
    CacheInv cfg d ∧ d.curRange = c.curRange := by
  obtain ⟨growth,hg,rfl⟩ := map_eq_some_iff.mp h
  refine ⟨⟨hexact,hlinked,hf,?_⟩,rfl⟩
  rcases planGrowth_inv hmax hmin hf hs hg with
    rfl | ⟨newRange,loadRange,rfl,hp⟩
  · exact ⟨rfl,.inl ⟨rfl,rfl⟩⟩
  · exact ⟨rfl,hp⟩

end plan

section write

theorem slotAt_filter (slots : List Slot) (r : Range) (k : UInt64) :
    slotAt (slots.filter (fun slot => !r.contains slot.number)) k =
      if r.contains k then none else slotAt slots k :=
  lookup_drop _

variable {newRange curRange loadRange : Range}

theorem toDelRange_contains (h : Planned curRange newRange loadRange) (n : UInt64) :
    (first (curRange.remove newRange)).contains n ↔
      curRange.contains n ∧ ¬newRange.contains n := by
  cases hc : curRange.isEmpty with
  | true =>
    have hnone : first (curRange.remove newRange) = Range.empty := by
      rw [Range.remove,if_pos hc]
      rfl
    rw [hnone,not_inRange Range.empty rfl,not_inRange curRange hc]
    simp
  | false =>
    obtain ⟨hn,hlt⟩ := h.grows hc
    have hcur := start_le_top hc
    have hbeyond : lessNilAsInf newRange.stop curRange.stop = false := by
      rw [Bool.eq_false_iff]
      intro hl
      obtain ⟨newEnd,hne⟩ := ne_none_iff_exists'.mp h.finite
      cases hcs : curRange.stop with
      | none =>
        have := top_lt newRange.stop
        rw [hcs,top_none] at hlt
        omega
      | some curEnd =>
        rw [hne,hcs,top_some,top_some] at hlt
        rw [hne,hcs,less_some_iff,top_some] at hl
        omega
    by_cases hsame : newRange.start ≤ curRange.start
    · have hleft : lessNilAsInf newRange.stop (some curRange.start) = false := by
        rw [Bool.eq_false_iff,ne_eq,less_some_iff]
        omega
      have hnone : first (curRange.remove newRange) = Range.empty := by
        simp [Range.remove,hn,hsame,hleft,hbeyond,first,emptyRangeSet]
      rw [le_iff_toNat_le] at hsame
      rw [hnone,not_inRange Range.empty rfl,inRange_iff,inRange_iff]
      constructor
      · simp
      · omega
    have hgt := hsame
    rw [le_iff_toNat_le] at hgt
    by_cases hgap : lessNilAsInf curRange.stop (some newRange.start)
    · have hall : first (curRange.remove newRange) = curRange := by
        simp [Range.remove,hc,hsame,hgap,first,RangeSet.isEmpty]
      rw [less_some_iff] at hgap
      rw [hall,inRange_iff,inRange_iff]
      omega
    have hd : (newRange.start-1).toNat = newRange.start.toNat-1 := toNat_dec _ (by omega)
    have hpart : Range.isEmpty ⟨curRange.start,some (newRange.start-1)⟩ = false := by
      apply not_isEmpty
      rw [top_some]
      dsimp only
      omega
    have hleft : first (curRange.remove newRange) = ⟨curRange.start,some (newRange.start-1)⟩ := by
      simp [Range.remove,hc,hn,hsame,hgap,hbeyond,first,RangeSet.isEmpty,hpart]
    rw [less_some_iff] at hgap
    rw [hleft,inRange_iff,inRange_iff,inRange_iff,top_some,hd]
    dsimp only
    omega

variable {loaded : List Slot}

theorem slotAt_write (c : Cache)
    (hp : Planned curRange newRange loadRange) (ha : answers loadRange loaded) {n : UInt64} :
    slotAt (write c curRange newRange loaded).memCache n =
      if curRange.contains n ∧ ¬newRange.contains n then none
      else (slotAt loaded n).or (slotAt c.memCache n) := by
  have hdel := toDelRange_contains hp n
  rw [write]
  rw [slotAt_filter]
  simp only [hdel]
  rw [slotAt,foldl_upsert_lookup,lastOf_eq_lookup _ (answers_nodup ha)]
  rfl

theorem slotAt_answer (ha : answers loadRange loaded) (n : UInt64) :
    (slotAt loaded n).isSome = loadRange.contains n := by
  rw [Bool.eq_iff_iff,number_mem ha,slotAt,lookup]
  simp

variable {n : UInt64}

theorem load_within (hp : Planned curRange newRange loadRange)
    (h : loadRange.contains n) : newRange.contains n := by
  have := hp.low
  rw [inRange_iff,hp.stop] at h
  rw [inRange_iff]
  omega

theorem new_covered (hp : Planned curRange newRange loadRange) (h : newRange.contains n)
    (hl : ¬loadRange.contains n) : n.toNat < loadRange.start.toNat ∧ curRange.contains n := by
  rw [inRange_iff] at h
  rw [inRange_iff,hp.stop] at hl
  have hlt : n.toNat < loadRange.start.toNat := by omega
  exact ⟨hlt,hp.kept n h.1 hlt⟩

variable {c : Cache} {cfg : Config}

section
variable (hp : Planned c.curRange newRange loadRange) (ha : answers loadRange loaded) (he : Exact c)
include hp ha he

theorem write_exact : Exact (write c c.curRange newRange loaded) := by
  intro n
  rw [slotAt_write c hp ha]
  show _ = newRange.contains n
  have hload := slotAt_answer ha n
  have hmem := he n
  by_cases hn : newRange.contains n
  · rw [if_neg (fun hd => hd.2 hn),hn,isSome_or]
    by_cases hl : loadRange.contains n
    · rw [hload,hl]
      rfl
    · rw [hmem,(new_covered hp hn hl).2]
      simp
  have hl : loadRange.contains n = false := by
    rw [Bool.eq_false_iff]
    exact fun hl => hn (load_within hp hl)
  by_cases hc : c.curRange.contains n
  · rw [if_pos ⟨hc,hn⟩]
    simpa using hn
  rw [if_neg (fun hd => hc hd.1),isSome_or,hload,hmem,hl]
  simp only [Bool.false_or]
  rw [(Bool.not_eq_true _).mp hc,(Bool.not_eq_true _).mp hn]

/-- A slot of the new window was loaded, or has stayed and lies before what was loaded. -/
theorem write_origin {slot : Slot}
    (hs : slotAt (write c c.curRange newRange loaded).memCache slot.number = some slot) :
    newRange.contains slot.number ∧
      (slot ∈ loaded ∨ slot.number.toNat < loadRange.start.toNat ∧
        slotAt c.memCache slot.number = some slot) := by
  have hn : newRange.contains slot.number := by
    have := write_exact hp ha he slot.number
    rw [hs] at this
    exact this.symm
  refine ⟨hn,?_⟩
  rw [slotAt_write c hp ha,if_neg (fun hd => hd.2 hn)] at hs
  have hload := slotAt_answer ha slot.number
  cases hl : slotAt loaded slot.number with
  | some a =>
    rw [hl] at hs
    cases hs
    exact .inl (lookup_mem _ hl)
  | none =>
    rw [hl] at hs
    rw [hl] at hload
    exact .inr ⟨(new_covered hp hn (by rw [← hload]; decide)).1,hs⟩

theorem write_linked (hj : Joins cfg c.memCache newRange loaded) (h : Linked cfg c) :
    Linked cfg (write c c.curRange newRange loaded) := by
  intro left right hl hr hn
  obtain ⟨hln,hlo⟩ := write_origin hp ha he hl
  obtain ⟨-,hro⟩ := write_origin hp ha he hr
  have hnum : ∀ slot ∈ loaded, loadRange.start.toNat ≤ slot.number.toNat := by
    intro slot hs
    obtain ⟨k,hk⟩ := List.mem_iff_getElem?.mp hs
    have := number_at ha hk
    omega
  rcases hro with hro | ⟨hrlt,hro⟩
  · rcases hlo with hlo | ⟨hllt,hlo⟩
    · exact linked_answer ha hj.chain hlo hro hn
    obtain ⟨k,hk⟩ := List.mem_iff_getElem?.mp hro
    have := number_at ha hk
    obtain rfl : k = 0 := by omega
    exact hj.boundary left right hlo (by rw [List.head?_eq_getElem?]; exact hk) hn hln
  · rcases hlo with hlo | ⟨hllt,hlo⟩
    · have := hnum left hlo
      omega
    · exact h left right hlo hro hn

end

theorem write_same (c : Cache) (h : curRange.stop ≠ none) :
    (write c curRange curRange []).memCache = c.memCache := by
  have hnone : ∀ n, (first (curRange.remove curRange)).contains n = false := by
    intro n
    rw [Bool.eq_false_iff]
    intro hn
    obtain ⟨h1,h2⟩ := first_remove curRange curRange h n hn
    exact h2 h1
  rw [write]
  simp [hnone]

theorem write_inv (h : CacheInv cfg c) (hl : Loaded cfg c.memCache c.curRange newRange loaded) :
    CacheInv cfg (write c c.curRange newRange loaded) ∧
      Advances c (write c c.curRange newRange loaded) := by
  rcases hl with ⟨rfl,rfl⟩ | ⟨loadRange,hp,ha,hj⟩
  · have hmem := write_same c h.finite
    refine ⟨⟨?_,?_,h.finite,trivial⟩,fun hc => ⟨hc,le_rfl⟩⟩
    · intro n
      rw [hmem]
      exact h.exact n
    intro hlk left right
    rw [hmem]
    exact h.linked hlk left right
  · exact ⟨⟨write_exact hp ha h.exact,fun hlk => write_linked hp ha h.exact (hj hlk) (h.linked hlk),
      hp.finite,trivial⟩,fun hc => ⟨(hp.grows hc).1,(hp.grows hc).2.le⟩⟩

end write

section check

variable {newRange loadRange : Range}

theorem boundary_needed {curRange : Range} (hp : Planned curRange newRange loadRange) {n : UInt64}
    (hn : n.toNat+1 = loadRange.start.toNat) (h : newRange.contains n) :
    loadRange.start-1 = n ∧ needsBoundary curRange newRange loadRange := by
  have hprev : loadRange.start-1 = n := by
    apply toNat_inj.mp
    rw [toNat_dec _ (by omega)]
    omega
  have hpos : 0 < loadRange.start := by
    rw [lt_iff_toNat_lt,toNat_zero]
    omega
  have hstart := ((inRange_iff _ _).mp h).1
  exact ⟨hprev,by simp [needsBoundary,hprev,h,hpos,hp.kept n hstart (by omega)]⟩

variable {c : Cache} {checking loaded : List Slot} {cfg : Config}
  (hp : Planned c.curRange newRange loadRange) (ha : answers loadRange loaded)
include hp ha

theorem joins_of_check (hc : checkLinksMismatch cfg checking = false)
    (hshape : (needsBoundary c.curRange newRange loadRange ∧
        ∃ boundary, slotAt c.memCache (loadRange.start-1) = some boundary ∧
          checking = boundary::loaded) ∨
      (needsBoundary c.curRange newRange loadRange = false ∧ checking = loaded)) :
    Joins cfg c.memCache newRange loaded := by
  have hinc := answers_increasing ha
  have hfirst : ∀ right, loaded.head? = some right →
      right.number.toNat = loadRange.start.toNat := by
    intro right hr
    rw [List.head?_eq_getElem?] at hr
    exact number_at ha hr
  rcases hshape with ⟨hb,boundary,hs,rfl⟩ | ⟨hb,rfl⟩
  · have hkey := lookup_key _ hs
    have hpos : 0 < loadRange.start.toNat := by
      simp only [needsBoundary,Bool.and_eq_true,decide_eq_true_eq] at hb
      exact lt_iff_toNat_lt.mp hb.1.1
    have hd : (loadRange.start-1).toNat = loadRange.start.toNat-1 := toNat_dec _ hpos
    have hall : ((boundary::loaded).map Slot.number).Pairwise (fun a b => a.toNat < b.toNat) := by
      rw [List.map_cons,List.pairwise_cons]
      refine ⟨?_,hinc⟩
      intro n hn
      obtain ⟨slot,hslot,rfl⟩ := List.mem_map.mp hn
      obtain ⟨k,hk⟩ := List.mem_iff_getElem?.mp hslot
      have := number_at ha hk
      rw [hkey]
      omega
    have hchain := chain_of_check hall hc
    constructor
    · cases loaded with
      | nil => exact .nil
      | cons a rest => exact (List.isChain_cons_cons.mp hchain).2
    intro left right hl hr hn hin
    obtain ⟨hprev,-⟩ := boundary_needed hp (by rw [hfirst right hr] at hn; exact hn) hin
    rw [hprev,hl] at hs
    cases hs
    cases loaded with
    | nil => cases hr
    | cons a rest =>
      obtain rfl : a = right := by simpa using hr
      exact (List.isChain_cons_cons.mp hchain).1.2
  · refine ⟨chain_of_check hinc hc,?_⟩
    intro left right hl hr hn hin
    have := (boundary_needed hp (by rw [hfirst right hr] at hn; exact hn) hin).2
    rw [hb] at this
    cases this

theorem checked_inv (h : CacheInv cfg c) {round : ℕ}
    (hj : checkLinksMismatch cfg checking = false → Joins cfg c.memCache newRange loaded) :
    CacheInv cfg {c with
      growth := checked cfg c.curRange newRange loadRange round checking loaded} := by
  refine {h with growth := ?_}
  unfold checked
  cases hm : checkLinksMismatch cfg checking with
  | true => exact ⟨rfl,planned_widened hp⟩
  | false => exact ⟨rfl,.inr ⟨loadRange,hp,ha,fun _ => hj hm⟩⟩

theorem check_inv {d : Cache} (h : CacheInv cfg c) {round : ℕ}
    (hstep : check cfg c c.curRange newRange loadRange round loaded = some d) :
    CacheInv cfg d ∧ d.curRange = c.curRange := by
  unfold check at hstep
  cases hb : needsBoundary c.curRange newRange loadRange with
  | true =>
    rw [hb] at hstep
    cases hs : slotAt c.memCache (loadRange.start-1) with
    | none =>
      rw [hs] at hstep
      cases hstep
    | some boundary =>
      rw [hs] at hstep
      cases hstep
      exact ⟨checked_inv hp ha h (fun hm => joins_of_check hp ha hm
          (.inl ⟨hb,boundary,hs,rfl⟩)),rfl⟩
  | false =>
    rw [hb] at hstep
    cases hstep
    exact ⟨checked_inv hp ha h (fun hm => joins_of_check hp ha hm (.inr ⟨hb,rfl⟩)),rfl⟩

end check

section repair

theorem slotAt_patch {slots : List Slot} {slot : Slot} {n : UInt64} :
    slotAt (upsert Slot.number slots slot) n =
      if n = slot.number then some slot else slotAt slots n :=
  lookup_upsert _ _ _ _

variable {fixed : Slot} {slots : List Slot}

theorem patch_hash (h : (slotAt slots fixed.number).any (fun cur => cur.hash = fixed.hash))
    {slot : Slot} (hs : slotAt (upsert Slot.number slots fixed) slot.number = some slot) :
    ∃ old, slotAt slots old.number = some old ∧ old.number = slot.number ∧
      old.hash = slot.hash := by
  rw [slotAt_patch] at hs
  by_cases hn : slot.number = fixed.number
  · rw [if_pos hn] at hs
    cases hs
    obtain ⟨old,hold,heq⟩ := (any_eq_true _ _).mp h
    have hkey := lookup_key _ hold
    exact ⟨old,by rw [hkey,hold],hkey,by simpa using heq⟩
  · rw [if_neg hn] at hs
    exact ⟨slot,hs,rfl,rfl⟩

variable {cfg : Config}

theorem joins_patch {newRange : Range} {loaded : List Slot}
    (hf : (slotAt slots fixed.number).any (fun cur => cur.hash = fixed.hash))
    (h : Joins cfg slots newRange loaded) :
    Joins cfg (upsert Slot.number slots fixed) newRange loaded := by
  refine ⟨h.chain,?_⟩
  intro left right hl hr hn hin
  obtain ⟨old,hold,hnum,hhash⟩ := patch_hash hf hl
  rw [← hhash]
  exact h.boundary old right hold hr (by rw [hnum]; exact hn) (by rw [hnum]; exact hin)

variable {c : Cache}

theorem patch_inv (h : CacheInv cfg c)
    (hf : (slotAt c.memCache fixed.number).any (fun cur => cur.hash = fixed.hash)) :
    CacheInv cfg {c with memCache := upsert Slot.number c.memCache fixed} := by
  constructor
  case exact =>
    intro n
    rw [slotAt_patch,← h.exact n]
    by_cases hn : n = fixed.number
    · obtain ⟨old,hold,-⟩ := (any_eq_true _ _).mp hf
      rw [if_pos hn,hn,hold]
      rfl
    · rw [if_neg hn]
  case linked =>
    intro hlk left right hl hr hn
    obtain ⟨oldLeft,hol,hnl,hhl⟩ := patch_hash hf hl
    obtain ⟨oldRight,hor,hnr,hhr⟩ := patch_hash hf hr
    have hlink := h.linked hlk oldLeft oldRight hol hor (by rw [hnl,hnr]; exact hn)
    rw [← hhl,hlink,Config.parentHash,hhr]
    rfl
  case finite => exact h.finite
  have hg := h.growth
  unfold GrowthInv at hg ⊢
  cases hphase : c.growth with
  | writing curRange newRange loaded =>
    rw [hphase] at hg
    refine ⟨hg.1,?_⟩
    rcases hg.2 with hsame | ⟨loadRange,hp,ha,hj⟩
    · exact .inl hsame
    · exact .inr ⟨loadRange,hp,ha,fun hlk => joins_patch hf (hj hlk)⟩
  | _ =>
    rw [hphase] at hg
    exact hg

theorem queue_inv (h : CacheInv cfg c) {degraded : List Slot} {failedCount : ℕ} :
    CacheInv cfg {c with degraded := degraded, failedCount := failedCount} :=
  {h with}

theorem repair_inv (h : CacheInv cfg c) {rest : List Slot} {repaired : Repaired} :
    CacheInv cfg (repairSlot c rest repaired) ∧ (repairSlot c rest repaired).curRange = c.curRange := by
  cases repaired with
  | failed | skipped => exact ⟨queue_inv h,rfl⟩
  | fixed slot =>
    unfold repairSlot
    by_cases hf : (slotAt c.memCache slot.number).any (fun cur => cur.hash = slot.hash)
    · simp only [hf,if_true]
      exact ⟨queue_inv (patch_inv h hf),trivial⟩
    · simp only [hf,if_false,Bool.false_eq_true]
      exact ⟨queue_inv h,trivial⟩

theorem scan_inv (h : CacheInv cfg c) :
    CacheInv cfg (scan c) ∧ (scan c).curRange = c.curRange := by
  unfold scan
  split
  · exact ⟨h,rfl⟩
  · exact ⟨queue_inv h,rfl⟩

end repair

section run

theorem advances_same {c d : Cache} (h : d.curRange = c.curRange) : Advances c d :=
  fun hc => by rw [h]; exact ⟨hc,le_rfl⟩

variable {d c : Cache}

theorem advances_trans {e : Cache} (h1 : Advances c d) (h2 : Advances d e) : Advances c e :=
  fun hc => ⟨(h2 (h1 hc).1).1,(h1 hc).2.trans (h2 (h1 hc).1).2⟩

variable {cfg : Config}

theorem getRange_inv (h : CacheInv cfg c) {extRange : Option Range}
    {interval : ℕ} (hg : Orderly c (.getRange extRange interval))
    (hs : step cfg c (.getRange extRange interval) = some d) :
    CacheInv cfg d ∧ d.curRange = c.curRange := by
  cases hphase : c.growth with
  | idle =>
    cases extRange with
    | none =>
      simp only [step,hphase] at hs
      cases hs
      exact ⟨h,rfl⟩
    | some extRange =>
      simp only [step,hphase,ite_none_left_eq_some] at hs
      cases hs.2
      exact ⟨⟨h.exact,h.linked,h.finite,memCacheSize_pos,memCacheSize_pos,hg⟩,rfl⟩
  | _ => cases extRange <;> simp [step,hphase] at hs

theorem l2GetRange_inv (h : CacheInv cfg c) {hasRange : Option Range}
    (hs : step cfg c (.l2GetRange hasRange) = some d) :
    CacheInv cfg d ∧ d.curRange = c.curRange := by
  have hgrowth := h.growth
  unfold GrowthInv at hgrowth
  cases hphase : c.growth with
  | ranged extRange maxSize minSize =>
    rw [hphase] at hgrowth
    obtain ⟨hmax,hmin,hsane⟩ := hgrowth
    have hplan : ∀ e, plan c extRange maxSize minSize = some e →
        CacheInv cfg e ∧ e.curRange = c.curRange :=
      fun e he => plan_inv hmax hmin h.exact h.linked h.finite
        hsane he
    simp only [step,hphase] at hs
    split at hs
    · exact hplan d hs
    rename_i hcond
    simp only [Bool.or_eq_true,Bool.not_eq_true',not_or,Bool.not_eq_true,Bool.not_eq_false] at hcond
    rcases he : extRange.stop with _ | extEnd
    · rw [he] at hs
      cases hs
    rw [he] at hs
    rcases hasRange with _ | hasRange
    · exact hplan d hs
    cases hs
    refine ⟨⟨h.exact,h.linked,h.finite,hmax,hmin,hcond.1.2,hcond.2,?_⟩,rfl⟩
    have hrecent : (newRangeByEndAndSize extEnd maxSize).stop = some extEnd := by
      unfold newRangeByEndAndSize
      rw [if_neg hmax]
      split <;> rfl
    unfold Range.intersection
    split
    · simp [Range.empty]
    · rw [hrecent]
      cases hasRange.stop <;> simp [minNilAsInf]
  | _ => simp [step,hphase] at hs

/-- What the level-2 cache answers is a window of its own. -/
theorem l2_window {loadRange : Range} {slots : List Slot}
    (ha : answers loadRange slots) (hl : linkedRun cfg slots) :
    Exact {c with curRange := loadRange, memCache := collapse Slot.number slots} ∧
      (cfg.linked → Linked cfg
        {c with curRange := loadRange, memCache := collapse Slot.number slots}) := by
  have hslot : ∀ n, slotAt (collapse Slot.number slots) n = slotAt slots n := by
    intro n
    rw [slotAt,lookup_collapse,lastOf_eq_lookup _ (answers_nodup ha)]
    rfl
  constructor
  · intro n
    rw [hslot,slotAt_answer ha]
  intro hlk left right hleft hright hn
  rw [hslot] at hleft hright
  have hm : checkLinksMismatch cfg slots = false := by simpa [linkedRun,hlk] using hl
  exact linked_answer ha (chain_of_check (answers_increasing ha) hm)
    (lookup_mem _ hleft) (lookup_mem _ hright) hn

variable {slots : Option (List Slot)}

theorem l2Load_inv (h : CacheInv cfg c)
    (hs : step cfg c (.l2Load slots) = some d) : CacheInv cfg d ∧ Advances c d := by
  have hgrowth := h.growth
  unfold GrowthInv at hgrowth
  cases hphase : c.growth with
  | l2Loading extRange maxSize minSize loadRange =>
    rw [hphase] at hgrowth
    obtain ⟨hmax,hmin,hc,hext,hf⟩ := hgrowth
    have hsane : ∀ curRange, Sane curRange extRange := by
      intro curRange he
      rw [hext] at he
      cases he
    have hadv : Advances c d := fun hne => by
      rw [hc] at hne
      cases hne
    rcases slots with _ | slots
    · simp only [step,hphase] at hs
      exact ⟨(plan_inv hmax hmin h.exact h.linked h.finite (hsane _) hs).1,hadv⟩
    simp only [step,hphase] at hs
    split at hs
    · rename_i hcond
      rw [Bool.and_eq_true] at hcond
      obtain ⟨hexact,hlinked⟩ := l2_window hcond.1 hcond.2
      exact ⟨(plan_inv hmax hmin hexact hlinked hf (hsane _) hs).1,hadv⟩
    · cases hs
  | _ => cases slots <;> simp [step,hphase] at hs

theorem load_inv (h : CacheInv cfg c)
    (hs : step cfg c (.load slots) = some d) : CacheInv cfg d ∧ d.curRange = c.curRange := by
  have hgrowth := h.growth
  unfold GrowthInv at hgrowth
  cases hphase : c.growth with
  | loading curRange newRange loadRange round =>
    rw [hphase] at hgrowth
    rcases slots with _ | slots
    · simp only [step,hphase] at hs
      cases hs
      exact ⟨{h with growth := trivial},rfl⟩
    simp only [step,hphase] at hs
    split at hs
    · rename_i ha
      cases hs
      refine ⟨{h with growth := ?_},rfl⟩
      cases hlk : cfg.linked with
      | true => exact ⟨hgrowth.1,hgrowth.2,ha⟩
      | false =>
        exact ⟨hgrowth.1,.inr ⟨loadRange,hgrowth.2,ha,by simp [hlk]⟩⟩
    · cases hs
  | _ => cases slots <;> simp [step,hphase] at hs

/-- Every step keeps the window exact and linked, and does not move its end back. -/
theorem step_inv (cfg : Config) (c : Cache) (event : Event) (d : Cache) (h : CacheInv cfg c)
    (hg : Orderly c event) (hs : step cfg c event = some d) : CacheInv cfg d ∧ Advances c d := by
  have hsame : CacheInv cfg d ∧ d.curRange = c.curRange → CacheInv cfg d ∧ Advances c d :=
    fun hd => ⟨hd.1,advances_same hd.2⟩
  have hgrowth := h.growth
  unfold GrowthInv at hgrowth
  cases event with
  | getRange extRange interval => exact hsame (getRange_inv h hg hs)
  | l2GetRange hasRange => exact hsame (l2GetRange_inv h hs)
  | l2Load slots => exact l2Load_inv h hs
  | load slots => exact hsame (load_inv h hs)
  | check =>
    cases hphase : c.growth with
    | checking curRange newRange loadRange round loaded =>
      rw [hphase] at hgrowth
      simp only [step,hphase] at hs
      rw [hgrowth.1] at hs hgrowth
      exact hsame (check_inv hgrowth.2.1 hgrowth.2.2 h hs)
    | _ => simp [step,hphase] at hs
  | write =>
    cases hphase : c.growth with
    | writing curRange newRange loaded =>
      rw [hphase] at hgrowth
      simp only [step,hphase] at hs
      rw [hgrowth.1] at hs hgrowth
      cases hs
      exact write_inv h hgrowth.2
    | _ => simp [step,hphase] at hs
  | scan =>
    have hscan : step cfg c .scan = if c.degraded.isEmpty then some (scan c) else none := by
      cases hphase : c.growth <;> simp only [step,hphase]
    rw [hscan] at hs
    split at hs
    · cases hs
      exact hsame (scan_inv h)
    · cases hs
  | repairSlot repaired =>
    rcases hd : c.degraded with _ | ⟨slot,rest⟩
    · cases hphase : c.growth <;> simp [step,hphase,hd] at hs
    have hrepair : step cfg c (.repairSlot repaired) = some (repairSlot c rest repaired) := by
      cases hphase : c.growth <;> simp only [step,hphase,hd]
    rw [hrepair] at hs
    cases hs
    exact hsame (repair_inv h)

theorem newCache_inv : CacheInv cfg newCache := by
  refine ⟨?_,?_,by decide,trivial⟩
  · intro n
    exact (not_inRange Range.empty rfl n).symm
  · intro _ left right hl
    cases hl

theorem run_inv (cfg : Config) (events : List Event) (c d : Cache) (h : CacheInv cfg c)
    (hg : Throughout (step cfg) Orderly c events) (hr : run (step cfg) c events = some d) :
    CacheInv cfg d ∧ Advances c d := by
  induction events generalizing c with
  | nil =>
    obtain rfl := some.inj hr
    exact ⟨h,advances_same rfl⟩
  | cons event rest ih =>
    obtain ⟨m,hm,hr⟩ := run_cons _ _ _ _ _ hr
    obtain ⟨hi,ha⟩ := step_inv cfg c event m h hg.1 hm
    obtain ⟨hd,had⟩ := ih m hi (hg.2 m hm) hr
    exact ⟨hd,advances_trans ha had⟩

end run

/-- In every run without an empty answer that ends above the window, the slots in memory are those
of the window and linked, and the end of the window does not go back. -/
theorem window_exact_and_linked (cfg : Config) (before after : List Event) (c d : Cache)
    (hc : run (step cfg) newCache before = some c) (hd : run (step cfg) c after = some d)
    (hbefore : Throughout (step cfg) Orderly newCache before)
    (hafter : Throughout (step cfg) Orderly c after) :
    Exact d ∧ (cfg.linked → Linked cfg d) ∧ Advances c d ∧
      (d.ready → ∀ n, d.curRange.contains n →
        ∃ slot, getByNumber d n = some slot ∧ slot.number = n) := by
  obtain ⟨hic,-⟩ := run_inv cfg before newCache c newCache_inv hbefore hc
  obtain ⟨hid,hadv⟩ := run_inv cfg after c d hic hafter hd
  refine ⟨hid.exact,hid.linked,hadv,?_⟩
  intro hready n hn
  have hsome := hid.exact n
  rw [hn] at hsome
  obtain ⟨slot,hslot⟩ := isSome_iff_exists.mp hsome
  exact ⟨slot,by simp [getByNumber,hready,hn,hslot],lookup_key _ hslot⟩

section sample

def sampleParent : String → String
  | "a4" => "a3"
  | "a5" | "b5" => "a4"
  | "b6" => "b5"
  | _ => ""

local instance sizes_nonzero : NeZero 9223372036854775808 := ⟨by decide⟩

def sampleConfig : Config := ⟨true,true,9,1,sampleParent⟩

def sampleSlot (n : UInt64) (hash : String) : Slot := ⟨n,hash,[]⟩

def switchingRun : List Event × List Event :=
  ([.getRange (some ⟨0,some 5⟩) 1,.l2GetRange none,
      .load (some [⟨4, "a4",["missTrace"]⟩,sampleSlot 5 "a5"]),.check,.write],
    [.getRange (some ⟨0,some 6⟩) 1,.l2GetRange none,.load (some [sampleSlot 6 "b6"]),.scan,
      .check,.load (some [sampleSlot 5 "b5",sampleSlot 6 "b6"]),.check,
      .repairSlot (.fixed (sampleSlot 4 "a4")),.write])

def shrinkingRun : List Event × List Event :=
  ([.getRange (some ⟨8,some 9⟩) 1,.l2GetRange (some ⟨4,some 5⟩),
      .l2Load (some [sampleSlot 4 "a4",sampleSlot 5 "a5"]),.load none],
    [.getRange (some ⟨8,some 7⟩) 1,.l2GetRange none,.load (some []),.check,.write])

end sample

theorem window_survives_fork : ∃ c d, run (step sampleConfig) newCache switchingRun.1 = some c ∧
      run (step sampleConfig) c switchingRun.2 = some d ∧ d.curRange = ⟨4,some 6⟩ ∧
      (Exact d ∧ (sampleConfig.linked → Linked sampleConfig d) ∧ Advances c d ∧
        (d.ready → ∀ n, d.curRange.contains n →
          ∃ slot, getByNumber d n = some slot ∧ slot.number = n)) := by
  refine ⟨_,_,rfl,rfl,by decide,?_⟩
  exact window_exact_and_linked sampleConfig switchingRun.1 switchingRun.2 _ _ rfl rfl (by decide)
    (by decide)

/-- An empty range that ends above the window empties it. -/
theorem window_emptied : ∃ c d, run (step sampleConfig) newCache shrinkingRun.1 = some c ∧
      run (step sampleConfig) c shrinkingRun.2 = some d ∧ c.curRange = ⟨4,some 5⟩ ∧
      d.curRange = Range.empty ∧ ¬Advances c d := by
  refine ⟨_,_,rfl,rfl,by decide,by decide,?_⟩
  intro h
  exact absurd (h (by decide)).1 (by decide)

end Sentio.LatestSlotRuns
