import SentioCore.RangeFind

/-!
# The blocks of a range in ascending order

A range is read as the ascending list of its blocks; an infinite range ends with
the last word. Adjacent ranges append.
-/

namespace Sentio.RangeBlocks
open RangeModel RangeHoles RangeFind WordArith List UInt64

def between (lo hi : ℕ) : List UInt64 := (range' lo (hi+1-lo)).map ofNat

def blocks (r : Range) : List UInt64 := between r.start.toNat (top r.stop)

variable {hi : ℕ}

theorem between_empty (lo : ℕ) (h : hi < lo) : between lo hi = [] := by
  simp [between,show hi+1-lo = 0 by omega]

variable {lo : ℕ}

theorem between_append {mid : ℕ} (hi : ℕ) (h1 : lo ≤ mid+1) (h2 : mid ≤ hi) :
    between lo mid++between (mid+1) hi = between lo hi := by
  have hr : range' lo (mid+1-lo)++range' (mid+1) (hi+1-(mid+1)) =
      range' lo (hi+1-lo) := by
    have h := @range'_append_1 lo (mid+1-lo) (hi+1-(mid+1))
    rwa [show lo+(mid+1-lo) = mid+1 by omega,show mid+1-lo+(hi+1-(mid+1)) = hi+1-lo by omega] at h
  simp only [between,← map_append,hr]

theorem between_cons (h : lo ≤ hi) : between lo hi = ofNat lo::between (lo+1) hi := by
  simp [between,show hi+1-lo = (hi-lo)+1 by omega,range'_succ]

theorem mem_between (lo : ℕ) (hw : hi < 2^64) (n : UInt64) :
    n ∈ between lo hi ↔ lo ≤ n.toNat ∧ n.toNat ≤ hi := by
  simp only [between,mem_map,mem_range'_1]
  constructor
  · rintro ⟨m,hm,rfl⟩
    rw [toNat_ofNat_of_lt' (by simp [size]; omega)]
    omega
  · intro h
    exact ⟨n.toNat,by omega,by simp⟩

theorem between_pairwise (hw : hi < 2^64) :
    (between lo hi).Pairwise (fun a b => a.toNat < b.toNat) := by
  rw [between,pairwise_map]
  have hlt : (range' lo (hi+1-lo)).Pairwise (fun a b => a < b) := pairwise_lt_range'
  apply hlt.imp_of_mem
  intro a b ha hb hab
  simp only [mem_range'_1] at ha hb
  rw [toNat_ofNat_of_lt' (by simp [size]; omega),
    toNat_ofNat_of_lt' (by simp [size]; omega)]
  exact hab

theorem mem_blocks (r : Range) (n : UInt64) : n ∈ blocks r ↔ r.contains n := by
  rw [blocks,mem_between _ (top_lt _),inRange_iff]

theorem blocks_length (r : Range) : (blocks r).length = top r.stop+1-r.start.toNat := by
  simp [blocks,between]

variable {r : Range}

theorem blocks_number {k : ℕ} {n : UInt64} (h : (blocks r)[k]? = some n) :
    n.toNat = r.start.toNat+k := by
  have hw := top_lt r.stop
  have hlen := (List.getElem?_eq_some_iff.mp h).1
  rw [blocks_length] at hlen
  simp only [blocks,between,List.getElem?_map,Option.map_eq_some_iff,
    List.getElem?_range' (show k < top r.stop+1-r.start.toNat from hlen)] at h
  obtain ⟨m,hm,rfl⟩ := h
  obtain rfl : r.start.toNat+1*k = m := Option.some.inj hm
  rw [toNat_ofNat_of_lt' (by simp [size]; omega)]
  omega

theorem blocks_empty (r : Range) (h : r.isEmpty) : blocks r = [] :=
  between_empty _ ((isEmpty_iff r).mp h)

theorem blocks_pairwise (r : Range) : (blocks r).Pairwise (fun a b => a.toNat < b.toNat) :=
  between_pairwise (top_lt _)

theorem first_of_nonempty (r : Range) (h : r.start.toNat ≤ top r.stop) : first ⟨r,[]⟩ = r := by
  have he : RangeSet.isEmpty ⟨r,[]⟩ = false := not_isEmpty r h
  simp [first,he]

theorem first_remove_below (r a : Range) (ha : a.start.toNat ≤ top a.stop)
    (hr : r.start.toNat ≤ top r.stop) (h : r.start.toNat < a.start.toNat) :
    (first (r.remove a)).start = r.start ∧
      top (first (r.remove a)).stop = min (top r.stop) (a.start.toNat-1) := by
  have hd := toNat_dec a.start (by omega)
  rcases remove_branches hr ha with ⟨he,hx⟩ | ⟨_,_⟩ | ⟨_,_⟩ | ⟨he,_,h1,_⟩ | ⟨he,_,h1,_⟩
  · rw [he,first_of_nonempty r hr]
    exact ⟨rfl,by omega⟩
  · omega
  · omega
  · have hn : RangeSet.isEmpty ⟨r,[(a.start,a.endOrZero)]⟩ = false := not_isEmpty r hr
    simp only [he,first,hn,if_false,top_some,hd,Bool.false_eq_true]
    exact ⟨trivial,by omega⟩
  · rw [he,first_of_nonempty _ (by simp only [top_some]; omega)]
    simp only [top_some,hd]
    exact ⟨trivial,by omega⟩

theorem first_remove_above {a : Range} (ha : a.start.toNat ≤ top a.stop)
    (hr : r.start.toNat ≤ top r.stop) (h : a.start.toNat ≤ r.start.toNat)
    (hb : a.stop ≠ some maxUint64 ∨ r.stop ≠ none) :
    (first (r.remove a)).isEmpty ∨ top a.stop < (first (r.remove a)).start.toNat := by
  rcases remove_branches hr ha with ⟨he,hx⟩ | ⟨he,_,_,hcut⟩ | ⟨he,_⟩ | ⟨_,_⟩ | ⟨_,_⟩
  · rw [he,first_of_nonempty r hr]
    exact .inr (by omega)
  · have ht : top a.stop < top r.stop := by
      rcases hb with hb | hb
      · exact (lessNil_iff _ _ hb).mp hcut
      obtain ⟨e,hs⟩ := Option.ne_none_iff_exists'.mp hb
      rw [hs,less_some_iff] at hcut
      rwa [hs]
    have hw := top_lt r.stop
    have hi := endOrZero_inc a (by omega)
    rw [he,first_of_nonempty _ (by dsimp only; omega)]
    exact .inr (by dsimp only; omega)
  · rw [he]
    exact .inl rfl
  · omega
  · omega

theorem find_of_ordered {β : Type} {rel : β → β → Prop} {p : β → Bool} {l : List β}
    (h : l.Pairwise rel) {x : β} (hx : x ∈ l) (hp : p x)
    (hfirst : ∀ y ∈ l, rel y x → p y = false) : l.find? p = some x := by
  obtain ⟨front,back,rfl⟩ := append_of_mem hx
  rw [List.find?_eq_some_iff_append]
  refine ⟨hp,front,back,rfl,?_⟩
  intro y hy
  have hrel := (pairwise_append.mp h).2.2 y hy x (by simp)
  simp [hfirst y (by simp [hy]) hrel]

variable {x : UInt64} {p : UInt64 → Bool}

theorem find_first (hx : r.contains x) (hp : p x)
    (hfirst : ∀ y, r.contains y → y.toNat < x.toNat → p y = false) : (blocks r).find? p = some x :=
  find_of_ordered (blocks_pairwise r) ((mem_blocks r x).mpr hx) hp
    (fun y hy => hfirst y ((mem_blocks r y).mp hy))

theorem find_last (hx : r.contains x)
    (hp : p x) (hlast : ∀ y, r.contains y → x.toNat < y.toNat → p y = false) :
    (blocks r).reverse.find? p = some x :=
  find_of_ordered (pairwise_reverse.mpr (blocks_pairwise r)) (by simpa using (mem_blocks r x).mpr hx) hp
    (fun y hy => hlast y ((mem_blocks r y).mp (by simpa using hy)))

end Sentio.RangeBlocks
