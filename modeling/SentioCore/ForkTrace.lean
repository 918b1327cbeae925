import SentioCore.CopyLinks

/-!
# The fork point of two dimensions

`traceForkPoint` goes down to a slot that is missing, agrees or has agreeing
parents, and `Sync` deletes the destination from there on.
-/

namespace Sentio.ForkTrace
open RangeModel RangeHoles RangeFind DimensionModel CopyLinks WordArith UInt64 Nat
open Option (some.inj)

def loadHeader (d : Dimension) (n : ℕ) : Option Slot := slotAt d.slots (.ofNat n)

variable {src dst : Dimension} {L position n m p k : ℕ}

def traceFrom (src dst : Dimension) (p : ℕ) : ℕ :=
  match loadHeader dst p, loadHeader src p with
  | some db, some sb =>
    if sb.hash = db.hash then p+1
    else match p with
      | 0 => 0
      | q+1 => if sb.parentHash = db.parentHash then q+1 else traceFrom src dst q
  | _, _ => p

def traceForkPoint (src dst : Dimension) (position : UInt64) : UInt64 :=
  .ofNat (traceFrom src dst position.toNat)

def deleteFrom (d : Dimension) (n : UInt64) : Dimension :=
  {d with
    recorded := first (d.recorded.remove ⟨n,none⟩)
    slots := d.slots.filter (fun slot => !Range.contains ⟨n,none⟩ slot.number)}

structure Holds (d : Dimension) : Prop where
  stored : ∀ n, (slotAt d.slots n).isSome ↔ d.recorded.contains n
  linked : Linked d.recorded d.slots

structure Forked (src dst : Dimension) (L position : ℕ) : Prop where
  source : Holds src
  destination : Holds dst
  collisionFree : ∀ a ∈ src.slots, ∀ b ∈ dst.slots, a.hash = b.hash → a = b
  ordered : L ≤ position
  word : position < 2^64
  both : ∀ n, L ≤ n → n ≤ position →
    src.recorded.contains (.ofNat n) ∧ dst.recorded.contains (.ofNat n)
  lacks : 0 < L → ¬(src.recorded.contains (.ofNat (L-1)) ∧ dst.recorded.contains (.ofNat (L-1)))

def Agree (src dst : Dimension) (n : ℕ) : Prop :=
  ∃ slot, loadHeader src n = some slot ∧ loadHeader dst n = some slot

structure Traced (src dst : Dimension) (L p q : ℕ) : Prop where
  agree : ∀ n, L ≤ n → n ≤ p → (Agree src dst n ↔ n < q)
  le : q ≤ p+1
  parents : 0 < L → q = L → ∀ a b, loadHeader src L = some a → loadHeader dst L = some b →
    a.parentHash = b.parentHash

theorem toNat_word (h : n < 2^64) : (ofNat n).toNat = n := by
  rw [toNat_ofNat',mod_eq_of_lt h]

theorem Holds.contains {d : Dimension} {a : Slot} (h : Holds d) (ha : loadHeader d n = some a) :
    d.recorded.contains (.ofNat n) :=
  (h.stored _).mp (Option.isSome_iff_exists.mpr ⟨a,ha⟩)

theorem Holds.link {d : Dimension} {a b : Slot} (h : Holds d) (hn : n+1 < 2^64)
    (ha : loadHeader d n = some a) (hb : loadHeader d (n+1) = some b) : a.hash = b.parentHash := by
  have na := KeyedRows.lookup_key Slot.number ha
  have nb := KeyedRows.lookup_key Slot.number hb
  apply h.linked a (KeyedRows.lookup_mem _ ha) b (KeyedRows.lookup_mem _ hb)
  · rwa [na]
  · rwa [nb]
  · rw [na]
    exact h.contains ha
  · rw [nb]
    exact h.contains hb
  · rw [na,nb,toNat_word hn,toNat_word (by omega)]

section
variable (h : Forked src dst L position)
include h

theorem Forked.slots (hL : L ≤ n) (hn : n ≤ position) :
    ∃ a b, loadHeader src n = some a ∧ loadHeader dst n = some b := by
  obtain ⟨hs,hd⟩ := h.both n hL hn
  obtain ⟨a,ha⟩ := Option.isSome_iff_exists.mp ((h.source.stored _).mpr hs)
  obtain ⟨b,hb⟩ := Option.isSome_iff_exists.mp ((h.destination.stored _).mpr hd)
  exact ⟨a,b,ha,hb⟩

theorem Forked.agree_iff {a b : Slot}
    (ha : loadHeader src n = some a) (hb : loadHeader dst n = some b) :
    Agree src dst n ↔ a.hash = b.hash := by
  constructor
  · rintro ⟨slot,hs,hd⟩
    rw [some.inj (ha.symm.trans hs),some.inj (hb.symm.trans hd)]
  intro he
  obtain rfl := h.collisionFree a (KeyedRows.lookup_mem _ ha) b
    (KeyedRows.lookup_mem _ hb) he
  exact ⟨a,ha,hb⟩

/-- Slots with agreeing parents stand on slots that agree. -/
theorem Forked.agree_parents {a b : Slot} (hL : L ≤ n)
    (hn : n+1 ≤ position) (ha : loadHeader src (n+1) = some a) (hb : loadHeader dst (n+1) = some b)
    (hp : a.parentHash = b.parentHash) : Agree src dst n := by
  have hw := h.word
  obtain ⟨x,y,hx,hy⟩ := h.slots hL (by omega : n ≤ position)
  rw [h.agree_iff hx hy,h.source.link (by omega) hx ha,hp,h.destination.link (by omega) hy hb]

theorem Forked.agree_below (hL : L ≤ n) (hnm : n ≤ m)
    (hm : m ≤ position) (ha : Agree src dst m) : Agree src dst n := by
  induction m, hnm using le_induction with
  | base => exact ha
  | succ m hnm ih =>
    obtain ⟨slot,hs,hd⟩ := ha
    exact ih (by omega) (h.agree_parents (by omega) hm hs hd rfl)

theorem Forked.traced (hL : L ≤ p) (hp : p ≤ position) :
    Traced src dst L p (traceFrom src dst p) := by
  induction p using Nat.strong_induction_on with
  | _ p ih =>
    obtain ⟨a,b,ha,hb⟩ := h.slots hL hp
    have hagree := h.agree_iff ha hb
    have hbelow : a.hash ≠ b.hash → ∀ q ≤ p, (∀ n, L ≤ n → n < p → (Agree src dst n ↔ n < q)) →
        ∀ n, L ≤ n → n ≤ p → (Agree src dst n ↔ n < q) := by
      intro hne q hq hlt n h1 h2
      rcases Nat.lt_or_eq_of_le h2 with h2 | rfl
      · exact hlt n h1 h2
      · exact iff_of_false (hagree.not.mpr hne) (by omega)
    unfold traceFrom
    rw [ha,hb]
    dsimp only
    split
    · rename_i he
      exact ⟨fun n h1 h2 => iff_of_true (h.agree_below h1 h2 hp (hagree.mpr he)) (by omega),
        le_rfl,by omega⟩
    rename_i hne
    split
    · exact ⟨hbelow hne 0 le_rfl (by omega),by omega,by omega⟩
    rename_i q
    split
    · rename_i hpar
      refine ⟨hbelow hne _ le_rfl (fun n h1 h2 => iff_of_true ?_ h2),by omega,?_⟩
      · exact h.agree_below h1 (by omega) (by omega) (h.agree_parents (by omega) hp ha hb hpar)
      · rintro - rfl x y hx hy
        rwa [← some.inj (ha.symm.trans hx),← some.inj (hb.symm.trans hy)]
    by_cases hq : L ≤ q
    · have hi := ih q (by omega) hq (by omega)
      have hle := hi.le
      exact ⟨hbelow hne _ hle (fun n h1 h2 => hi.agree n h1 (by omega)),by omega,hi.parents⟩
    have hmiss : traceFrom src dst q = q := by
      obtain rfl : L = q+1 := by omega
      unfold traceFrom
      split
      · rename_i hd hs
        exact absurd ⟨h.source.contains hs,h.destination.contains hd⟩ (h.lacks (by omega))
      · rfl
    rw [hmiss]
    exact ⟨hbelow hne q (by omega) (by omega),by omega,by omega⟩

theorem Forked.above (hk : k+1 < 2^64)
    (hd : dst.recorded.contains (.ofNat k)) (hs : src.recorded.contains (.ofNat (k+1))) :
    L ≤ k+1 := by
  by_contra hlt
  have hw := h.word
  have hL := h.ordered
  obtain ⟨h1,h2⟩ := h.both L le_rfl hL
  apply h.lacks (by omega)
  simp only [inRange_iff,toNat_word hk,toNat_word (by omega : k < 2^64),
    toNat_word (by omega : L < 2^64),toNat_word (by omega : L-1 < 2^64)] at *
  omega

theorem Forked.follows {left right : Slot} (hk : k+1 < 2^64)
    (hl : loadHeader dst k = some left) (hr : loadHeader src (k+1) = some right)
    (hlt : k < traceFrom src dst position) : left.hash = right.parentHash := by
  have habove := h.above hk (h.destination.contains hl) (h.source.contains hr)
  have ht := h.traced h.ordered le_rfl
  have hle := ht.le
  rcases Nat.lt_or_eq_of_le hlt with hlt | heq
  · obtain ⟨slot,hs,hd⟩ := (ht.agree (k+1) habove (by omega)).mpr hlt
    rw [← some.inj (hs.symm.trans hr)]
    exact h.destination.link hk hl hd
  by_cases hL : L ≤ k
  · obtain ⟨slot,hs,hd⟩ := (ht.agree k hL (by omega)).mpr (by omega)
    rw [some.inj (hl.symm.trans hd)]
    exact h.source.link hk hs hr
  obtain rfl : k+1 = L := by omega
  obtain ⟨a,b,ha,hb⟩ := h.slots le_rfl h.ordered
  rw [← some.inj (ha.symm.trans hr),ht.parents (by omega) heq.symm a b ha hb]
  exact h.destination.link hk hl hb

end

theorem loadHeader_deleteFrom {slot : Slot} {q : ℕ} (hn : n < 2^64)
    (h : loadHeader (deleteFrom dst (.ofNat q)) n = some slot) :
    n < q ∧ loadHeader dst n = some slot := by
  rw [loadHeader,deleteFrom,slotAt_filter] at h
  split at h
  · cases h
  rename_i hc
  rw [inRange_iff,toNat_ofNat',toNat_word hn,top_none] at hc
  exact ⟨by omega,h⟩

/-- The fork point is one above the last agreeing slot, or not above the slots that
both hold; behind the deletion all of them agree, and no copy finds a broken link. -/
theorem fork_point_traced (L position : UInt64) (h : Forked src dst L.toNat position.toNat) :
    let r := traceForkPoint src dst position
    ((∃ m : UInt64, L ≤ m ∧ m ≤ position ∧ Agree src dst m.toNat ∧
        (∀ n : UInt64, m < n → n ≤ position → ¬Agree src dst n.toNat) ∧ r = m+1) ∨
      (∀ n : UInt64, L ≤ n → n ≤ position → ¬Agree src dst n.toNat) ∧ r ≤ L) ∧
    (∀ n slot, L ≤ n → n ≤ position → slotAt (deleteFrom dst r).slots n = some slot →
      slotAt src.slots n = some slot) ∧
    ∀ t left right, borderOf (deleteFrom dst r).recorded (deleteFrom dst r).slots t = some left →
      slotAt src.slots t.start = some right → checkLinkMismatch left right = false := by
  have hw := h.word
  have ht := h.traced h.ordered le_rfl
  have hle := ht.le
  simp only [UInt64.le_iff_toNat_le,UInt64.lt_iff_toNat_lt,traceForkPoint]
  refine ⟨?_,fun n slot hL hn hs => ?_,fun t left right hl hr => ?_⟩
  · by_cases hq : L.toNat < traceFrom src dst position.toNat
    · have hm := toNat_word (by omega : traceFrom src dst position.toNat-1 < 2^64)
      refine .inl ⟨.ofNat (traceFrom src dst position.toNat-1),by omega,by omega,?_,
        fun n h1 h2 => (ht.agree _ (by omega) h2).not.mpr (by omega),?_⟩
      · exact (ht.agree _ (by omega) (by omega)).mpr (by omega)
      · rw [← UInt64.ofNat_one,← UInt64.ofNat_add,Nat.sub_add_cancel (by omega)]
    · refine .inr ⟨fun n h1 h2 => (ht.agree _ h1 h2).not.mpr (by omega),?_⟩
      rw [UInt64.toNat_ofNat']
      omega
  · rw [← UInt64.ofNat_toNat (x := n)] at hs ⊢
    obtain ⟨hlt,hd⟩ := loadHeader_deleteFrom n.toNat_lt hs
    obtain ⟨a,hsrc,hdst⟩ := (ht.agree _ hL hn).mpr hlt
    exact hsrc.trans (hdst.symm.trans hd)
  rw [borderOf] at hl
  split at hl
  · rename_i hc
    simp only [Bool.and_eq_true,decide_eq_true_eq] at hc
    have hlt := word_lt t.start
    obtain ⟨k,hk⟩ : ∃ k, t.start.toNat = k+1 := ⟨_,(Nat.succ_pred hc.1.ne').symm⟩
    rw [← UInt64.ofNat_toNat (x := t.start-1),toNat_dec _ hc.1,hk] at hl
    rw [← UInt64.ofNat_toNat (x := t.start),hk] at hr
    obtain ⟨hkq,hdst⟩ := loadHeader_deleteFrom (by omega) hl
    simp [checkLinkMismatch,h.follows (by omega) hdst hr hkq]
  · cases hl

def forkSource : Dimension :=
  ⟨⟨4,some 8⟩,
    [⟨4,"a4","a3"⟩,⟨5,"a5","a4"⟩,⟨6,"a6","a5"⟩,⟨7,"a7","a6"⟩,⟨8,"a8","a7"⟩],.idle,[]⟩

/-- A destination that lacks the first slot of the source and has another chain after slot 6. -/
def forkedCopy : Dimension :=
  ⟨⟨5,some 8⟩,[⟨5,"a5","a4"⟩,⟨6,"a6","a5"⟩,⟨7,"b7","a6"⟩,⟨8,"b8","b7"⟩],.idle,[]⟩

theorem forkSource_holds : Holds forkSource := by
  constructor
  · intro n
    rw [inRange_iff]
    simp [slotAt,KeyedRows.lookup,forkSource,← UInt64.toNat_inj]
    omega
  · simp [Linked,forkSource,Follows]

theorem forkedCopy_holds : Holds forkedCopy := by
  constructor
  · intro n
    rw [inRange_iff]
    simp [slotAt,KeyedRows.lookup,forkedCopy,← UInt64.toNat_inj]
    omega
  · simp [Linked,forkedCopy,Follows]

/-- From slot 8 down to slot 5, the first slot both have, the trace passes 8 and stops at 7, whose
parents agree; 5 and 6 stay, and a save from 7 on finds no link mismatch. -/
theorem fork_point_after_six : traceForkPoint forkSource forkedCopy 8 = 7 ∧
    Agree forkSource forkedCopy 6 ∧
    (slotAt (deleteFrom forkedCopy 7).slots 6).isSome ∧
    (∀ n slot, 5 ≤ n → n ≤ 8 →
      slotAt (deleteFrom forkedCopy (traceForkPoint forkSource forkedCopy 8)).slots n = some slot →
        slotAt forkSource.slots n = some slot) ∧
    (borderOf (deleteFrom forkedCopy 7).recorded (deleteFrom forkedCopy 7).slots
      ⟨7,some 8⟩).isSome := by
  refine ⟨by decide,⟨⟨6,"a6","a5"⟩,by decide,by decide⟩,by decide,
    (fork_point_traced 5 8 ?_).2.1,by decide⟩
  refine ⟨forkSource_holds,forkedCopy_holds,by decide,by decide,by decide,fun n hL hp => ?_,
    fun _ => by decide⟩
  have hL' : 5 ≤ n := hL
  have hp' : n ≤ 8 := hp
  interval_cases n <;> decide

end Sentio.ForkTrace
