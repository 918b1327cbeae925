import SentioCore.RangeHoles

/-!
# Cutting a range into windows

`CutByFixedSize` walks over aligned windows of one size and intersects each with
the range; the producer cuts off one piece at a time.
-/

namespace Sentio.RangeWindows
open RangeModel RangeHoles WordArith Nat List UInt64
open UInt64 (le_iff_toNat_le toNat_add toNat_sub toNat_one toNat_mul toNat_div toNat_inj)

def newRangeBySize (start size : UInt64) : Range :=
  if size = 0 then Range.empty else ⟨start,some (start+size-1)⟩

theorem overflow_iff {p size : UInt64} (h : 0 < size) : p+size ≤ p ↔ 2^64 ≤ p.toNat+size.toNat := by
  have h2 := word_lt size
  have h3 : 0 < size.toNat := h
  rw [le_iff_toNat_le,toNat_add]
  omega

/-- The loop of `CutByFixedSize` at `p` with `count` pieces found; `none` is the
panic of an infinite range that reaches the last word. -/
def cutFrom (r : Range) (size : UInt64) (num : ℤ) (count : ℕ) (p : UInt64) : Option (List Range) :=
  if r.stop.all (fun e => p ≤ e) && (num = 0 || count < num) then
    if p+size ≤ p then r.stop.map (fun e => [⟨p,some e⟩])
    else (cutFrom r size num (count+1) (p+size)).map
      (((newRangeBySize p size).intersection r)::·)
  else some []
termination_by 18446744073709551616-p.toNat
decreasing_by
  have h1 : p.toNat < (p+size).toNat := not_le.mp ‹¬p+size ≤ p›
  have h2 := word_lt (p+size)
  omega

def cutByFixedSize (r : Range) (base size : UInt64) (num : ℤ) : Option (List Range) :=
  if r.stop = none ∧ num = 0 then none
  else if r.isEmpty then some []
  else if size = 0 then some [r]
  else cutFrom r size num 0 (if base < r.start then base+(r.start-base)/size*size else base)

structure RangeCutter where
  size : UInt64
  alignZero : Bool

namespace RangeCutter
variable (c : RangeCutter)

def cut (r : Range) (num : ℤ) : Option (List Range) :=
  cutByFixedSize r (if c.alignZero then 0 else r.start) c.size num

def cutAll (r : Range) : Option (List Range) := c.cut r 0

def first (r : Range) : Option Range :=
  if r.isEmpty then some r else (c.cut r 1).bind head?

def produce : ℕ → Range → Option (List Range)
  | 0, _ => none
  | steps+1, r =>
    if r.isEmpty then some []
    else (c.first r).bind fun piece =>
      (produce steps ⟨piece.endOrZero+1,r.stop⟩).map (piece::·)

def windowStart (s : UInt64) : UInt64 := if c.alignZero then s/c.size*c.size else s

def base (r : Range) : UInt64 := if c.alignZero then 0 else r.start

end RangeCutter

/-! ## What the pieces should be -/

def InWindow (base size : ℕ) (p : Range) : Prop :=
  ∃ k, base+k*size ≤ p.start.toNat ∧ top p.stop < base+(k+1)*size

structure CutInto (base size : ℕ) (r : Range) (pieces : List Range) : Prop where
  nonempty : ∀ p ∈ pieces, p.isEmpty = false
  consecutive : pieces.IsChain (fun p q => top p.stop+1 = q.start.toNat)
  disjoint : pieces.Pairwise (fun p q => ∀ n, ¬(p.contains n ∧ q.contains n))
  inside : ∀ p ∈ pieces, ∀ n, p.contains n → r.contains n
  window : ∀ p ∈ pieces, InWindow base size p
  union : ∀ n, r.contains n → ∃ p ∈ pieces, p.contains n

def CutsExactly (c : RangeCutter) (r : Range) : Prop :=
  ∃ pieces, c.cutAll r = some pieces ∧ CutInto (c.base r).toNat c.size.toNat r pieces ∧
    ∃ steps, c.produce steps r = some pieces

/-- Pieces from `s` to `stop`, each beginning where the one before it ends. -/
inductive Tiles (base size : ℕ) (stop : UInt64) : UInt64 → List Range → Prop
  | last (s : UInt64) (h : s ≤ stop) (hw : InWindow base size ⟨s,some stop⟩) :
      Tiles base size stop s [⟨s,some stop⟩]
  | cons (s e q : UInt64) (rest : List Range) (h : s ≤ e) (hq : q.toNat = e.toNat+1)
      (hw : InWindow base size ⟨s,some e⟩) (hr : Tiles base size stop q rest) :
      Tiles base size stop s (⟨s,some e⟩::rest)

section Tiling
variable (base size : ℕ) (stop s : UInt64) (l : List Range)

section
variable (h : Tiles base size stop s l)
include h

theorem tiles_head : ∃ e rest, l = ⟨s,some e⟩::rest := by
  cases h with
  | last => exact ⟨stop,[],rfl⟩
  | cons s e q rest => exact ⟨e,rest,rfl⟩

theorem tiles_mem : ∀ p ∈ l,
    s.toNat ≤ p.start.toNat ∧ p.start.toNat ≤ top p.stop ∧ top p.stop ≤ stop.toNat ∧
      InWindow base size p := by
  induction h with
  | last s h hw =>
    intro p hp
    rw [mem_singleton.mp hp]
    exact ⟨le_rfl,h,le_rfl,hw⟩
  | cons s e q rest h hq hw hr ih =>
    intro p hp
    have he : s.toNat ≤ e.toNat := h
    rcases mem_cons.mp hp with rfl | hp
    · obtain ⟨f,rest',rfl⟩ := tiles_head base size stop q rest hr
      obtain ⟨-,h1,h2,-⟩ := ih _ mem_cons_self
      exact ⟨le_rfl,h,by simp only [top_some] at h1 h2 ⊢; omega,hw⟩
    · obtain ⟨h1,h2⟩ := ih p hp
      exact ⟨by omega,h2⟩

theorem tiles_consecutive : l.IsChain (fun p q => top p.stop+1 = q.start.toNat) := by
  induction h with
  | last => exact isChain_singleton _
  | cons s e q rest h hq hw hr ih =>
    obtain ⟨f,rest',rfl⟩ := tiles_head base size stop q rest hr
    exact isChain_cons_cons.mpr ⟨hq.symm,ih⟩

theorem tiles_disjoint : l.Pairwise (fun p q => ∀ n, ¬(p.contains n ∧ q.contains n)) := by
  induction h with
  | last => exact pairwise_singleton _ _
  | cons s e q rest h hq hw hr ih =>
    refine pairwise_cons.mpr ⟨?_,ih⟩
    intro p hp n hn
    have h1 := (tiles_mem base size stop q rest hr p hp).1
    simp only [inRange_iff,top_some] at hn
    omega

theorem tiles_union {n : UInt64} (h1 : s.toNat ≤ n.toNat)
    (h2 : n.toNat ≤ stop.toNat) : ∃ p ∈ l, p.contains n := by
  induction h with
  | last s h hw =>
    exact ⟨_,mem_singleton.mpr rfl,(inRange_iff _ n).mpr ⟨h1,h2⟩⟩
  | cons s e q rest h hq hw hr ih =>
    by_cases he : n.toNat ≤ e.toNat
    · exact ⟨_,mem_cons_self,(inRange_iff _ n).mpr ⟨h1,he⟩⟩
    · obtain ⟨p,hp,hn⟩ := ih (by omega)
      exact ⟨p,mem_cons_of_mem _ hp,hn⟩

theorem cutInto_of_tiles : CutInto base size ⟨s,some stop⟩ l where
  nonempty p hp := not_isEmpty p (tiles_mem base size stop s l h p hp).2.1
  consecutive := tiles_consecutive base size stop s l h
  disjoint := tiles_disjoint base size stop s l h
  inside p hp n hn := by
    obtain ⟨h1,-,h2,-⟩ := tiles_mem base size stop s l h p hp
    rw [inRange_iff] at hn ⊢
    exact ⟨by simp only; omega,by simp only [top_some]; omega⟩
  window p hp := (tiles_mem base size stop s l h p hp).2.2.2
  union n hn := by
    rw [inRange_iff] at hn
    exact tiles_union base size stop s l h hn.1 hn.2

end

end Tiling

/-! ## One window -/

section Windows
variable (c : RangeCutter) (s e p : UInt64) (hs : 0 < c.size)
include hs

theorem window_piece (h : s ≤ e) (ho : p.toNat+c.size.toNat < 2^64) :
    (newRangeBySize p c.size).intersection ⟨s,some e⟩ =
      ⟨max p s,some (min (p+c.size-1) e)⟩ := by
  have hw : (p+c.size-1).toNat = p.toNat+c.size.toNat-1 := by
    have h0 : 0 < c.size.toNat := hs
    rw [toNat_sub,toNat_add,toNat_one]
    omega
  have hp : newRangeBySize p c.size = ⟨p,some (p+c.size-1)⟩ := if_neg (UInt64.pos_iff_ne_zero.mp hs)
  have h1 : Range.isEmpty ⟨s,some e⟩ = false := not_isEmpty _ h
  have h2 : Range.isEmpty ⟨p,some (p+c.size-1)⟩ = false :=
    not_isEmpty _ (by simp only [top_some]; have : 0 < c.size.toNat := hs; omega)
  rw [hp]
  simp only [Range.intersection,h1,h2,Bool.or_self,Bool.false_eq_true,if_false,minNilAsInf]

theorem windowStart_spec :
    (c.windowStart s).toNat ≤ s.toNat ∧ s.toNat < (c.windowStart s).toNat+c.size.toNat := by
  have h0 : 0 < c.size.toNat := hs
  rw [RangeCutter.windowStart]
  split
  · have h1 := div_mul_le_self s.toNat c.size.toNat
    have h2 := lt_div_mul_add h0 (a := s.toNat)
    have h3 := word_lt s
    rw [toNat_mul,toNat_div,mod_eq_of_lt (by omega)]
    omega
  · omega

theorem windowStart_idem (h : (c.windowStart s).toNat+c.size.toNat < 2^64) :
    c.windowStart (c.windowStart s+c.size) = c.windowStart s+c.size := by
  have h0 : 0 < c.size.toNat := hs
  simp only [RangeCutter.windowStart] at h ⊢
  split
  next hz =>
    rw [if_pos hz] at h
    have h1 := div_mul_le_self s.toNat c.size.toNat
    have h3 := word_lt s
    have hm : (s/c.size*c.size).toNat = s.toNat/c.size.toNat*c.size.toNat := by
      rw [toNat_mul,toNat_div,mod_eq_of_lt (by omega)]
    have ha : (s/c.size*c.size+c.size).toNat = (s.toNat/c.size.toNat+1)*c.size.toNat := by
      rw [toNat_add,mod_eq_of_lt h,hm,succ_mul]
    apply toNat_inj.mp
    have hlt := word_lt (s/c.size*c.size+c.size)
    rw [toNat_mul,toNat_div,ha,Nat.mul_div_cancel _ h0,Nat.mod_eq_of_lt (ha ▸ hlt)]
  next => rfl

theorem cut_eq {num : ℤ} (h : s ≤ e) :
    c.cut ⟨s,some e⟩ num = cutFrom ⟨s,some e⟩ c.size num 0 (c.windowStart s) := by
  have h1 : Range.isEmpty ⟨s,some e⟩ = false := not_isEmpty _ h
  have h2 : (if (if c.alignZero then (0 : UInt64) else s) < s then
      (if c.alignZero then 0 else s)+(s-if c.alignZero then 0 else s)/c.size*c.size
      else if c.alignZero then 0 else s) = c.windowStart s := by
    rw [RangeCutter.windowStart]
    cases c.alignZero with
    | false => simp
    | true =>
      by_cases h0 : s = 0
      · simp [h0]
      · simp [UInt64.pos_iff_ne_zero.mpr h0]
  simp only [RangeCutter.cut,cutByFixedSize,h1,UInt64.pos_iff_ne_zero.mp hs,h2,reduceCtorEq,false_and,if_false,
    Bool.false_eq_true]

theorem cutFrom_piece (num : ℤ) (n : ℕ) (h : s ≤ e) (hp : p ≤ e) (hn : num = 0 ∨ n < num)
    (ho : p.toNat+c.size.toNat < 2^64) :
    cutFrom ⟨s,some e⟩ c.size num n p =
      (cutFrom ⟨s,some e⟩ c.size num (n+1) (p+c.size)).map
        (⟨max p s,some (min (p+c.size-1) e)⟩::·) := by
  have hno : ¬p+c.size ≤ p := by rw [overflow_iff hs]; omega
  rw [cutFrom,if_pos (by simpa [hp] using hn),if_neg hno,window_piece c s e p hs h ho]

theorem cutFrom_overflow (num : ℤ) (n : ℕ) (hp : p ≤ e) (hn : num = 0 ∨ n < num)
    (ho : 2^64 ≤ p.toNat+c.size.toNat) :
    cutFrom ⟨s,some e⟩ c.size num n p = some [⟨p,some e⟩] := by
  rw [cutFrom,if_pos (by simpa [hp] using hn),if_pos ((overflow_iff hs).mpr ho)]
  rfl

omit hs in
theorem cutFrom_done (num : ℤ) (n : ℕ) (h : ¬(p ≤ e ∧ (num = 0 ∨ n < num))) :
    cutFrom ⟨s,some e⟩ c.size num n p = some [] := by
  rw [cutFrom,if_neg (by simpa using h)]

theorem cutFrom_tail {t : UInt64} (m n : ℕ) (h : s ≤ p) (ht : t ≤ p) :
    cutFrom ⟨s,some e⟩ c.size 0 m p = cutFrom ⟨t,some e⟩ c.size 0 n p := by
  induction hk : 2^64-p.toNat using Nat.strong_induction_on generalizing m n p with
  | h k ih =>
    by_cases hp : p ≤ e
    · by_cases ho : p.toNat+c.size.toNat < 2^64
      · have hq : (p+c.size).toNat = p.toNat+c.size.toNat := by
          rw [toNat_add,mod_eq_of_lt ho]
        have h0 : 0 < c.size.toNat := hs
        have hle : p ≤ p+c.size := by rw [le_iff_toNat_le]; omega
        rw [cutFrom_piece c s e p hs 0 m (UInt64.le_trans h hp) hp (.inl rfl) ho,
          cutFrom_piece c t e p hs 0 n (UInt64.le_trans ht hp) hp (.inl rfl) ho,
          ih _ (by omega) (p+c.size) (m+1) (n+1) (UInt64.le_trans h hle)
            (UInt64.le_trans ht hle) rfl,max_of_ge h,max_of_ge ht]
      · rw [cutFrom_overflow c s e p hs 0 m hp (.inl rfl) (by omega),
          cutFrom_overflow c t e p hs 0 n hp (.inl rfl) (by omega)]
    · rw [cutFrom_done c s e p 0 m (by simp [hp]),cutFrom_done c t e p 0 n (by simp [hp])]

/-- The first window either reaches the end of the range or leaves the rest of
the range to be cut in the same way. -/
theorem cut_cases (h : s ≤ e)
    (hw : c.windowStart s = s ∨ (c.windowStart s).toNat+c.size.toNat < 2^64) :
    (e.toNat < (c.windowStart s).toNat+c.size.toNat ∧
      c.cutAll ⟨s,some e⟩ = some [⟨s,some e⟩] ∧ c.first ⟨s,some e⟩ = some ⟨s,some e⟩) ∨
    ∃ q, q = c.windowStart s+c.size ∧ q.toNat = (c.windowStart s).toNat+c.size.toNat ∧ q ≤ e ∧
      c.cutAll ⟨s,some e⟩ = (c.cutAll ⟨q,some e⟩).map (⟨s,some (q-1)⟩::·) ∧
      c.first ⟨s,some e⟩ = some ⟨s,some (q-1)⟩ := by
  obtain ⟨h1,h2⟩ := windowStart_spec c s hs
  have hne : Range.isEmpty ⟨s,some e⟩ = false := not_isEmpty _ h
  have hwe : c.windowStart s ≤ e := UInt64.le_trans h1 h
  have hfirst : c.first ⟨s,some e⟩ =
      (cutFrom ⟨s,some e⟩ c.size 1 0 (c.windowStart s)).bind head? := by
    rw [RangeCutter.first,hne,if_neg Bool.false_ne_true,cut_eq c s e hs h]
  rw [hfirst,RangeCutter.cutAll,cut_eq c s e hs h]
  by_cases ho : (c.windowStart s).toNat+c.size.toNat < 2^64
  · have hq : (c.windowStart s+c.size).toNat = (c.windowStart s).toNat+c.size.toNat := by
      rw [toNat_add,mod_eq_of_lt ho]
    have hlast : (c.windowStart s+c.size-1).toNat = (c.windowStart s).toNat+c.size.toNat-1 := by
      rw [toNat_sub,toNat_one]
      omega
    have hone : cutFrom ⟨s,some e⟩ c.size 1 (0+1) (c.windowStart s+c.size) = some [] :=
      cutFrom_done c s e _ 1 1 (by simp)
    rw [cutFrom_piece c s e _ hs 0 0 h hwe (.inl rfl) ho,
      cutFrom_piece c s e _ hs 1 0 h hwe (.inr (by decide)) ho,hone,max_of_le h1]
    by_cases hqe : c.windowStart s+c.size ≤ e
    · have hsq : s ≤ c.windowStart s+c.size := by rw [le_iff_toNat_le]; omega
      have hmin : min (c.windowStart s+c.size-1) e = c.windowStart s+c.size-1 := by
        apply min_of_le
        rw [le_iff_toNat_le] at hqe ⊢
        omega
      refine .inr ⟨_,rfl,hq,hqe,?_,by rw [hmin]; rfl⟩
      rw [RangeCutter.cutAll,cut_eq c _ e hs hqe,windowStart_idem c s hs ho,hmin,
        cutFrom_tail c s e _ hs (0+1) 0 hsq (UInt64.le_refl _)]
    have hlt : e.toNat < (c.windowStart s+c.size).toNat := UInt64.not_le.mp hqe
    have hmin : min (c.windowStart s+c.size-1) e = e := by
      apply min_of_ge
      rw [le_iff_toNat_le]
      omega
    refine .inl ⟨by omega,?_,by rw [hmin]; rfl⟩
    rw [cutFrom_done c s e _ 0 (0+1) (by simp [hqe]),hmin]
    rfl
  · have hws : c.windowStart s = s := hw.resolve_right ho
    have h3 := word_lt e
    rw [cutFrom_overflow c s e _ hs 0 0 hwe (.inl rfl) (by omega),
      cutFrom_overflow c s e _ hs 1 0 hwe (.inr (by decide)) (by omega),hws]
    exact .inl ⟨by rw [hws] at ho; omega,rfl,rfl⟩

end Windows

/-! ## The whole range -/

variable {base : UInt64} {c : RangeCutter}

theorem window_of_step (s : ℕ) {e : ℕ} (k : ℕ)
    (h1 : base.toNat+k*c.size.toNat ≤ s) (h2 : e < base.toNat+k*c.size.toNat+c.size.toNat) :
    base.toNat+k*c.size.toNat ≤ s ∧ e < base.toNat+(k+1)*c.size.toNat := by
  rw [succ_mul]
  omega

variable {e : UInt64}

theorem cut_tiles (hs : 0 < c.size) (s : UInt64) (h : s ≤ e)
    (hw : c.windowStart s = s ∨ (c.windowStart s).toNat+c.size.toNat < 2^64)
    (k : ℕ) (hk : (c.windowStart s).toNat = base.toNat+k*c.size.toNat) :
    ∃ pieces, c.cutAll ⟨s,some e⟩ = some pieces ∧ Tiles base.toNat c.size.toNat e s pieces ∧
      (e ≠ maxUint64 → ∃ steps, c.produce steps ⟨s,some e⟩ = some pieces) := by
  induction hn : e.toNat-s.toNat using Nat.strong_induction_on generalizing s k with
  | h n ih =>
    obtain ⟨h1,h2⟩ := windowStart_spec c s hs
    have hne : Range.isEmpty ⟨s,some e⟩ = false := not_isEmpty _ h
    rcases cut_cases c s e hs h hw with ⟨he,hcut,hfirst⟩ | ⟨q,hq,hqn,hqe,hcut,hfirst⟩
    · refine ⟨_,hcut,.last s h ⟨k,?_⟩,fun hmax => ⟨2,?_⟩⟩
      · rw [hk] at h1 he
        exact window_of_step _ k h1 he
      have hstop : Range.isEmpty ⟨e+1,some e⟩ := by
        have := toNat_inc e (bounded_top e (by simpa using hmax))
        rw [RangeHoles.isEmpty_iff]
        simp only [top_some]
        omega
      simp [RangeCutter.produce,hne,hfirst,Range.endOrZero,hstop]
    have hqs : c.windowStart q = q := by
      rw [hq,windowStart_idem c s hs (hqn ▸ word_lt q)]
    have hqle : q.toNat ≤ e.toNat := hqe
    have hdec : (q-1).toNat = q.toNat-1 := toNat_dec q (by omega)
    have hqk : (c.windowStart q).toNat = base.toNat+(k+1)*c.size.toNat := by
      rw [hqs,hqn,hk,succ_mul,add_assoc]
    obtain ⟨pieces,hp,ht,hmore⟩ := ih _ (by omega) q hqe (.inl hqs) (k+1) hqk rfl
    refine ⟨⟨s,some (q-1)⟩::pieces,by rw [hcut,hp]; rfl,.cons s (q-1) q pieces ?_ ?_ ⟨k,?_⟩ ht,
      fun hmax => ?_⟩
    · rw [le_iff_toNat_le]
      omega
    · omega
    · rw [top_some]
      rw [hk] at h1 hqn
      exact window_of_step _ k h1 (by omega)
    obtain ⟨steps,hsteps⟩ := hmore hmax
    have hback : q-1+1 = q := by simp
    exact ⟨steps+1,by simp [RangeCutter.produce,hne,hfirst,Range.endOrZero,hsteps]⟩

theorem produce_restarts {steps : ℕ} (r : Range) (h : r.stop = some maxUint64) :
    c.produce steps r = none := by
  induction steps generalizing r with
  | zero => rfl
  | succ steps ih =>
    have hne : r.isEmpty = false := not_isEmpty r (by
      rw [h]
      exact le_of_lt_succ (word_lt r.start))
    rw [RangeCutter.produce,hne,if_neg Bool.false_ne_true]
    cases c.first r with
    | none => rfl
    | some piece => rw [Option.bind_some,ih ⟨piece.endOrZero+1,r.stop⟩ h,Option.map_none]

variable {s : UInt64}

theorem cut_outside (hs : 0 < c.size) (h : s ≤ e)
    (hw : c.windowStart s ≠ s) (ho : 2^64 ≤ (c.windowStart s).toNat+c.size.toNat) :
    c.cutAll ⟨s,some e⟩ = some [⟨c.windowStart s,some e⟩] ∧ (c.windowStart s).toNat < s.toNat := by
  obtain ⟨h1,-⟩ := windowStart_spec c s hs
  refine ⟨?_,lt_of_le_of_ne h1 (fun heq => hw (toNat_inj.mp heq))⟩
  rw [RangeCutter.cutAll,cut_eq c s e hs h,
    cutFrom_overflow c s e _ hs 0 0 (le_trans h1 h) (.inl rfl) ho]

theorem windowStart_aligned :
    ∃ k, (c.windowStart s).toNat = (c.base ⟨s,some e⟩).toNat+k*c.size.toNat := by
  rw [RangeCutter.windowStart,RangeCutter.base]
  split
  · have h1 := div_mul_le_self s.toNat c.size.toNat
    have h2 := word_lt s
    refine ⟨s.toNat/c.size.toNat,?_⟩
    rw [toNat_mul,toNat_div,mod_eq_of_lt (by omega),UInt64.toNat_zero,zero_add]
  · exact ⟨0,by simp⟩

theorem starts_iff (c : RangeCutter) :
    (c.windowStart s = s ∨ (c.windowStart s).toNat+c.size.toNat < 2^64) ↔
      (c.alignZero → s.toNat % c.size.toNat = 0 ∨
        s.toNat/c.size.toNat*c.size.toNat+c.size.toNat < 18446744073709551616) := by
  rw [RangeCutter.windowStart]
  rcases c.alignZero with _ | _
  · simp
  have h1 := div_mul_le_self s.toNat c.size.toNat
  have h2 := word_lt s
  have hm : (s/c.size*c.size).toNat = s.toNat/c.size.toNat*c.size.toNat := by
    rw [toNat_mul,toNat_div,mod_eq_of_lt (by omega)]
  have hmod := div_add_mod' s.toNat c.size.toNat
  rw [if_pos rfl,← toNat_inj]
  constructor
  · omega
  intro h
  have := h rfl
  omega

/-- The pieces tile the range and the producer sends exactly them, for the ranges
that end before the last word and whose first window does not pass it. -/
theorem cutsExactly_iff (s e size : UInt64) (alignZero : Bool) (hs : 0 < size) (h : s ≤ e) :
    CutsExactly ⟨size,alignZero⟩ ⟨s,some e⟩ ↔
      e ≠ maxUint64 ∧ (alignZero → s.toNat % size.toNat = 0 ∨
        s.toNat/size.toNat*size.toNat+size.toNat < 18446744073709551616) := by
  rw [← starts_iff ⟨size,alignZero⟩]
  constructor
  · rintro ⟨pieces,hcut,hinto,steps,hsteps⟩
    refine ⟨?_,?_⟩
    · rintro rfl
      rw [produce_restarts _ rfl] at hsteps
      cases hsteps
    by_contra hw
    rw [not_or,not_lt] at hw
    obtain ⟨hout,hlt⟩ := cut_outside hs h hw.1 hw.2
    cases hcut.symm.trans hout
    have hin := hinto.inside _ mem_cons_self (RangeCutter.windowStart ⟨size,alignZero⟩ s)
      ((inRange_iff _ _).mpr ⟨le_rfl,le_trans hlt.le h⟩)
    have := ((inRange_iff _ _).mp hin).1
    simp only at this
    omega
  · rintro ⟨hmax,hw⟩
    obtain ⟨k,hk⟩ := windowStart_aligned
    obtain ⟨pieces,hcut,htiles,hstops⟩ := cut_tiles hs s h hw k hk
    exact ⟨pieces,hcut,cutInto_of_tiles _ _ e s pieces htiles,hstops hmax⟩

theorem cutsExactly_small : CutsExactly ⟨10,true⟩ ⟨15,some 42⟩ :=
  (cutsExactly_iff 15 42 10 true (by decide) (by decide)).mpr (by decide)

/-- A range that ends at the last word: the producer starts again at zero. -/
theorem last_word_repeats : ¬CutsExactly ⟨10,false⟩ ⟨5,some 18446744073709551615⟩ := by
  rintro ⟨pieces,-,-,steps,hsteps⟩
  rw [produce_restarts _ rfl] at hsteps
  cases hsteps

end Sentio.RangeWindows
