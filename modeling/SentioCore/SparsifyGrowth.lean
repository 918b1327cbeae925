import SentioCore.BlockBuilder
import SentioCore.WordArith
import Mathlib.Data.Nat.Log

/-!
# The recorded headers while blocks arrive

Every accepted block is appended to the recorded headers, which are then
thinned. Counted from the newest header, the gaps are at most the powers of two,
and a header and the next but one are further apart than that.
-/

namespace Sentio.SparsifyGrowth
open SparsifyModel BlockBuilder WordArith List Nat UInt64

def thin : List BlockHeader → UInt64 → UInt64 → List BlockHeader
  | [], _, _ => []
  | [a], _, _ => [a]
  | a::b::older, pn, distance =>
    if pn-b.number ≤ distance then thin (b::older) pn distance
    else a::thin (b::older) a.number (distance*2)

/-- Gaps and spans of headers from the newest to the oldest one. -/
def Spaced : ℕ → List BlockHeader → Prop
  | _, [] | _, [_] => True
  | k, a::b::older => b.number.toNat < a.number.toNat ∧ a.number.toNat ≤ b.number.toNat+2^k ∧
      (∀ c ∈ older.head?, c.number.toNat+2^k < a.number.toNat) ∧ Spaced (k+1) (b::older)

theorem removeByIndex_last {front : List BlockHeader} {a : BlockHeader} {removed : List ℕ} :
    removeByIndex (front++[a]) (front.length::removed) = removeByIndex front removed := by
  have hf : front.zipIdx.filter (fun item => !(front.length::removed).contains item.2) =
      front.zipIdx.filter (fun item => !removed.contains item.2) := by
    apply filter_congr
    intro item hm
    have := (mem_zipIdx hm).2.1
    have hne : ¬item.2 = front.length := by omega
    simp [hne]
  simp only [removeByIndex,zipIdx_append,filter_append,hf]
  simp

variable {l : List BlockHeader} {pn distance : UInt64}

theorem removeByIndex_thin {num : ℕ → UInt64}
    (h : ∀ i a, l.reverse[i]? = some a → num i = a.number) :
    removeByIndex l.reverse (removeFrom num 2 (l.length-1) pn distance) =
      (thin l pn distance).reverse := by
  have hfront : ∀ (a b : BlockHeader) older,
      (∀ i c, (a::b::older).reverse[i]? = some c → num i = c.number) →
      num older.length = b.number ∧ num (older.length+1) = a.number ∧
        ∀ i c, (b::older).reverse[i]? = some c → num i = c.number := by
    intro a b older h
    refine ⟨h _ b (by simp),h _ a (by simp),fun i c hi => h i c ?_⟩
    rw [reverse_cons,getElem?_append_left (List.getElem?_eq_some_iff.mp hi).1,hi]
  induction l, pn, distance using thin.induct with
  | case1 | case2 => rfl
  | case3 a b older pn distance hnear ih =>
    obtain ⟨hb,-,hrest⟩ := hfront a b older h
    have hlen : older.length+1 = (b::older).reverse.length := by simp
    show removeByIndex _ (removeFrom num 2 (older.length+1) pn distance) = _
    rw [removeFrom,hb,if_pos hnear,thin,if_pos hnear,← ih hrest,reverse_cons,hlen,
      removeByIndex_last]
    rfl
  | case4 a b older pn distance hfar ih =>
    obtain ⟨hb,ha,hrest⟩ := hfront a b older h
    have hkeep : (thin (a::b::older) pn distance).reverse =
        (thin (b::older) a.number (distance*2)).reverse++[a] := by
      rw [thin,if_neg hfar,reverse_cons]
    show removeByIndex _ (removeFrom num 2 (older.length+1) pn distance) = _
    rw [removeFrom,hb,if_neg hfar,ha,hkeep,← ih hrest,reverse_cons,removeByIndex_append]
    · rfl
    intro i hi
    have := removeFrom_bounds _ _ hi
    simp
    omega

theorem sparsify_thin (l : List BlockHeader) (cur : BlockHeader) :
    sparsify (l.reverse++[cur]) BlockHeader.number = (thin l cur.number 1).reverse++[cur] := by
  unfold sparsify remove removeWithMultiplier
  match l with
  | [] | [a] => rfl
  | a::b::older =>
    have hnum : ∀ i c, ((a::b::older).reverse)[i]? = some c →
        (((a::b::older).reverse++[cur]).map BlockHeader.number).getD i 0 = c.number := by
      intro i c hi
      rw [getD_eq_getElem?_getD,getElem?_map,
        getElem?_append_left (List.getElem?_eq_some_iff.mp hi).1,hi]
      rfl
    have hlast : (((a::b::older).reverse++[cur]).map BlockHeader.number).getD
        (((a::b::older).reverse++[cur]).length-1) 0 = cur.number := by
      simp
    rw [if_neg (by simp)]
    dsimp only
    rw [removeByIndex_append]
    · rw [hlast,← removeByIndex_thin hnum]
      simp
    intro i hi
    have := removeFrom_bounds _ _ hi
    simp at this ⊢
    omega

theorem thin_sublist : (thin l pn distance).Sublist l := by
  induction l, pn, distance using thin.induct with
  | case1 | case2 => exact Sublist.refl _
  | case3 a b older pn distance hnear ih =>
    rw [thin,if_pos hnear]
    exact ih.cons a
  | case4 a b older pn distance hfar ih =>
    rw [thin,if_neg hfar]
    exact ih.cons_cons a

theorem pow_lt_word {k n : ℕ} (h : 2^k < 2^n) : k < n := (Nat.pow_lt_pow_iff_right (by decide)).mp h

theorem double_distance {k : ℕ} : ofNat (2^k)*2 = ofNat (2^(k+1)) := by
  rw [pow_succ,ofNat_mul]
  rfl

theorem near_iff {x y : UInt64} {k : ℕ} (h : y.toNat ≤ x.toNat) (hk : k < 64) :
    x-y ≤ UInt64.ofNat (2^k) ↔ x.toNat ≤ y.toNat+2^k := by
  have := Nat.pow_lt_pow_right (show 1 < 2 by decide) hk
  rw [UInt64.le_iff_toNat_le,UInt64.toNat_sub_of_le _ _ (UInt64.le_iff_toNat_le.mpr h),
    UInt64.toNat_ofNat',Nat.mod_eq_of_lt this]
  omega

variable {k : ℕ} {p a : BlockHeader} {rest : List BlockHeader}

theorem thin_all (h : Spaced k (p::rest)) : thin rest p.number (.ofNat (2^k)) = rest := by
  induction rest generalizing k p with
  | nil => rfl
  | cons a rest ih =>
    rcases rest with _ | ⟨b,older⟩
    · rfl
    obtain ⟨-,-,hspan,hrest⟩ := h
    have hb := hspan b rfl
    have hk : k < 64 := pow_lt_word (by have := word_lt p.number; omega)
    have hpos := Nat.two_pow_pos k
    have hfar : ¬p.number-b.number ≤ .ofNat (2^k) := by
      rw [near_iff (by omega) hk]
      omega
    rw [thin,if_neg hfar,double_distance,ih hrest]

/-- With the gaps of one power less, thinning restores the gaps and drops at most
one header. -/
theorem thin_spaced (h : Spaced k (a::rest)) (hp : p.number.toNat < 2^63)
    (h1 : a.number.toNat < p.number.toNat) (h2 : p.number.toNat ≤ a.number.toNat+2^k)
    (h3 : ∀ c ∈ rest.head?, 2*c.number.toNat+2^k < 2*p.number.toNat) :
    Spaced k (p::thin (a::rest) p.number (.ofNat (2^k))) ∧
    (∀ c ∈ (thin (a::rest) p.number (.ofNat (2^k))).head?, c.number.toNat ≤ a.number.toNat) ∧
    (thin (a::rest) p.number (.ofNat (2^k))).getLast? = (a::rest).getLast? ∧
    (a::rest).length ≤ (thin (a::rest) p.number (.ofNat (2^k))).length+1 := by
  induction rest generalizing k p a with
  | nil => exact ⟨⟨h1,h2,nofun,trivial⟩,by simp [thin],rfl,by simp⟩
  | cons b older ih =>
    obtain ⟨hba,hab,hac,hrest⟩ := h
    have hb := h3 b rfl
    have hk : k < 64 := pow_lt_word (by omega)
    have hiff := near_iff (x := p.number) (y := b.number) (by omega) hk
    rw [thin]
    split
    case isTrue hnear =>
      have hs : Spaced k (p::b::older) :=
        ⟨by omega,hiff.mp hnear,fun c hc => (hac c hc).trans h1,hrest⟩
      rw [thin_all hs]
      exact ⟨hs,by simp; omega,by simp⟩
    rename_i hfar
    rw [hiff] at hfar
    obtain ⟨i1,i2,i3,i4⟩ := ih hrest (by omega) hba (by omega)
      (fun c hc => by have := hac c hc; omega)
    rw [double_distance]
    refine ⟨⟨h1,h2,fun c hc => ?_,i1⟩,by simp,?_,by simpa using i4⟩
    · have := i2 c hc
      omega
    · rw [getLast?_cons,i3,← getLast?_cons]

theorem spaced_drop (h : Spaced k l) (i : ℕ) : Spaced (k+i) (l.drop i) := by
  induction i generalizing k l with
  | zero => exact h
  | succ i ih =>
    rw [← add_assoc,add_right_comm]
    match l with
    | [] => exact trivial
    | [_] => exact ih (l := []) trivial
    | _::b::older => exact ih (l := b::older) h.2.2.2

/-- The headers that are left of those accepted one after the other. -/
def recorded (b : Builder) (headers : List BlockHeader) : List BlockHeader :=
  (headers.foldl accept b).headerList

/-- The headers have consecutive numbers from `first` on, below `2^62`. -/
def Consecutive (first : ℕ) (headers : List BlockHeader) : Prop :=
  first+headers.length ≤ 2^62 ∧ ∀ i h, headers[i]? = some h → h.number.toNat = first+i

/-- What is left of the headers, listed from the newest to the oldest one. -/
structure Kept (headers l : List BlockHeader) : Prop where
  spaced : Spaced 0 l
  newest : l.head? = headers.getLast?
  oldest : l.getLast? = headers.head?
  subset : ∀ h ∈ l, h ∈ headers

variable {b : Builder} {headers : List BlockHeader} {cur : BlockHeader} {first : ℕ}

theorem recorded_concat (hc : b.checkLink) (headers : List BlockHeader) (cur : BlockHeader) :
    (recorded b (headers++[cur])).reverse =
      cur::thin (recorded b headers).reverse cur.number 1 := by
  have hlink : (headers.foldl accept b).checkLink := by
    induction headers using List.reverseRecOn with
    | nil => exact hc
    | append_singleton front h ih =>
      simp [accept,advance,ih]
  have hthin := sparsify_thin (recorded b headers).reverse cur
  rw [reverse_reverse] at hthin
  rw [recorded,foldl_append,foldl_cons,accept,if_pos hlink]
  exact (congrArg reverse hthin).trans (by simp)

theorem kept_step (hc : Consecutive first (headers++[cur])) (h : Kept headers l) :
    Kept (headers++[cur]) (cur::thin l cur.number 1) ∧ l.length ≤ (thin l cur.number 1).length+1 := by
  obtain ⟨hsmall,hnum⟩ := hc
  have hcur := hnum headers.length cur (by simp)
  simp only [length_append] at hsmall
  match l, h with
  | [], h =>
    have hnil : headers = [] := by simpa using h.newest.symm
    subst hnil
    exact ⟨⟨trivial,rfl,rfl,fun _ hm => hm⟩,by simp⟩
  | a::rest, h =>
    have ha : a.number.toNat+1 = cur.number.toNat := by
      have hlast := h.newest.symm
      rw [head?_cons,getLast?_eq_getElem?] at hlast
      have := hnum _ a (by rw [getElem?_append_left (List.getElem?_eq_some_iff.mp hlast).1,hlast])
      have := (List.getElem?_eq_some_iff.mp hlast).1
      omega
    obtain ⟨h1,-,h3,h4⟩ := thin_spaced (p := cur) h.spaced (by omega) (by omega) (by omega)
      (fun c hm => by
        cases rest with
        | nil => simp at hm
        | cons d older =>
          obtain rfl : d = c := by simpa using hm
          have := h.spaced.1
          omega)
    refine ⟨⟨h1,by simp,?_,?_⟩,h4⟩
    · have hold : (thin (a::rest) cur.number 1).getLast? = headers.head? := h3.trans h.oldest
      rw [getLast?_cons,hold]
      cases headers with
      | nil => cases h.newest
      | cons => rfl
    · intro x hx
      rcases mem_cons.mp hx with rfl | hx
      · simp
      · exact mem_append_left _ (h.subset x (thin_sublist.subset hx))

theorem consecutive_front (h : Consecutive first (headers++[cur])) : Consecutive first headers := by
  refine ⟨?_,fun i x hi => h.2 i x ?_⟩
  · have := h.1
    rw [length_append] at this
    omega
  · rw [getElem?_append_left (List.getElem?_eq_some_iff.mp hi).1,hi]

theorem kept_recorded (hc : b.checkLink) (he : b.headerList = [])
    (h : Consecutive first headers) : Kept headers (recorded b headers).reverse := by
  induction headers using List.reverseRecOn with
  | nil =>
    rw [recorded,foldl_nil,he]
    exact ⟨trivial,rfl,rfl,nofun⟩
  | append_singleton front cur ih =>
    rw [recorded_concat hc]
    exact (kept_step h (ih (consecutive_front h))).1

theorem kept_length (hc : Consecutive first headers) (h : Kept headers l) :
    l.length ≤ log 2 headers.length+3 := by
  have hd := spaced_drop h.spaced (l.length-3)
  match hl : l.drop (l.length-3) with
  | a::_::c::_ =>
    rw [hl] at hd
    have hspan := hd.2.2.1 c rfl
    have hin : ∀ x ∈ l.drop (l.length-3), first ≤ x.number.toNat ∧
        x.number.toNat < first+headers.length := by
      intro x hx
      obtain ⟨i,hi⟩ := mem_iff_getElem?.mp (h.subset x (mem_of_mem_drop hx))
      have := hc.2 i x hi
      have := (List.getElem?_eq_some_iff.mp hi).1
      omega
    rw [hl] at hin
    have ha := hin a (by simp)
    have hb := hin c (by simp)
    have hlog := le_log_of_pow_le (show 1 < 2 by decide) (show 2^(0+(l.length-3)) ≤ headers.length by omega)
    omega
  | [] | [_] | [_,_] =>
    have := congrArg length hl
    simp at this
    omega

/-- After any number of consecutive blocks the gaps from the newest header on are bounded by
powers of two from both sides, and one more block drops at most one header. -/
theorem recorded_headers_thin_out (b : Builder) (hc : b.checkLink) (he : b.headerList = [])
    (first : ℕ) (headers : List BlockHeader) (h : Consecutive first headers) :
    (recorded b headers).head? = headers.head? ∧
    (recorded b headers).getLast? = headers.getLast? ∧
    (∀ k newer older rest, (recorded b headers).reverse.drop k = newer::older::rest →
      older.number.toNat < newer.number.toNat ∧ newer.number.toNat-older.number.toNat ≤ 2^k ∧
      ∀ oldest ∈ rest.head?, 2^k < newer.number.toNat-oldest.number.toNat) ∧
    (recorded b headers).length ≤ Nat.log 2 headers.length+3 ∧
    ∀ cur, Consecutive first (headers++[cur]) →
      (recorded b (headers++[cur])).Sublist (recorded b headers++[cur]) ∧
      (recorded b headers++[cur]).length ≤ (recorded b (headers++[cur])).length+1 := by
  have hk := kept_recorded hc he h
  refine ⟨by simpa using hk.oldest,by simpa using hk.newest,?_,?_,?_⟩
  · intro k newer older rest hd
    have hs := spaced_drop hk.spaced k
    rw [hd,Nat.zero_add] at hs
    obtain ⟨hlt,hgap,hspan,-⟩ := hs
    exact ⟨hlt,Nat.sub_le_iff_le_add'.mpr hgap,
      fun oldest ho => Nat.lt_sub_iff_add_lt'.mpr (hspan oldest ho)⟩
  · simpa using kept_length h hk
  intro cur hcur
  have hlen := (kept_step hcur hk).2
  have hrev := recorded_concat hc headers cur
  constructor
  · rw [← reverse_sublist,hrev,reverse_append]
    exact thin_sublist.cons_cons cur
  have hsize := congrArg length hrev
  rw [length_reverse] at hsize
  rw [hsize]
  simpa using hlen

def sampleHeaders : List BlockHeader := [⟨7, "a", "",0⟩,⟨8, "b", "a",0⟩,⟨9, "c", "b",0⟩,⟨10, "d", "c",0⟩]

/-- Of four headers the second one is dropped. -/
theorem recorded_headers_of_four : recorded (start true none ⟨7,none⟩) sampleHeaders =
      [⟨7, "a", "",0⟩,⟨9, "c", "b",0⟩,⟨10, "d", "c",0⟩] ∧
    (recorded (start true none ⟨7,none⟩) sampleHeaders).length ≤ log 2 sampleHeaders.length+3 :=
  ⟨by decide,(recorded_headers_thin_out _ rfl rfl 7 sampleHeaders ⟨by decide,fun
    | 0,_,rfl | 1,_,rfl | 2,_,rfl => rfl
    | 3,_,rfl => rfl⟩).2.2.2.1⟩

end Sentio.SparsifyGrowth
