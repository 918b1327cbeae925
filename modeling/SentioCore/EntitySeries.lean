import SentioCore.EntityController
import SentioCore.RangeText

/-!
# Numbers of time series entities

A time series entity has a number as its id. `SetEntity` keeps an id that reads
as a positive number and marks every other one with an `@`; `Commit` hands out
the numbers above the greatest stored one to the marked ids, in the order of
their blocks, and leaves out those that stand among the kept ids.
-/

namespace Sentio.EntitySeries
open NumericOperator List

def magnitude (text : List Char) : Option ℕ :=
  match RangeText.parseUint text with
  | .ok n => some n.toNat
  | .error .outOfRange => some 18446744073709551615
  | .error _ => none

def parseInt (id : String) : ℤ :=
  match id.toList with
  | '-'::text => (magnitude text).elim 0 fun n => max (-2^63) (-n)
  | '+'::text | text => (magnitude text).elim 0 fun n => min (2^63-1) n

def isMarked (id : String) : Bool := id.toList.head? = some '@'

section
variable {α : Type}

def manualIds (pending : List (String × α)) : List String :=
  (pending.map Prod.fst).filter (!isMarked ·)

/-- The first number after `maxID` that no kept id is written as. -/
def nextId (manual : List String) (maxID : ℤ) : ℤ :=
  (((List.range (manual.length+1)).map fun k : ℕ => int64Of (maxID+1+k)).find?
    (fun n => toString n ∉ manual)).getD maxID

def assign (manual : List String) : ℤ → List (String × α) → List (String × α)
  | _, [] => []
  | maxID, e::rest =>
    if isMarked e.1 then
      (toString (nextId manual maxID),e.2)::assign manual (nextId manual maxID) rest
    else e::assign manual maxID rest

/-- What `Commit` hands to the store for the boxes as the sort leaves them; a kept id that is
not above the stored maximum is an error. -/
def batch (maxID : ℤ) (pending : List (String × α)) : Option (List (String × α)) :=
  if (manualIds pending).any (fun id => parseInt id ≤ maxID) then none
  else some (assign (manualIds pending) maxID pending)

def handedOut (manual : List String) : ℕ → ℤ → List ℤ
  | 0, _ => []
  | k+1, maxID => nextId manual maxID::handedOut manual k (nextId manual maxID)

def marked (pending : List (String × α)) : ℕ := pending.countP fun e => isMarked e.1

structure Numbered (block : α → ℕ) (maxID : ℤ) (pending handed : List (String × α)) : Prop where
  distinct : (handed.map fun e => parseInt e.1).Nodup
  greater : ∀ e ∈ handed, maxID < parseInt e.1
  manual : pending.Forall₂ (fun e f => f.2 = e.2 ∧ (isMarked e.1 = false → f.1 = e.1)) handed
  increasing : ((pending.zip handed).filter fun p => isMarked p.1.1).Pairwise fun p q =>
    block p.1.2 ≤ block q.1.2 ∧ parseInt p.2.1 < parseInt q.2.1

/-- There is room for the marked entities between the stored maximum and `v`: the kept ids that
are written as plain decimals take their own numbers away. -/
def RoomBelow (maxID : ℤ) (pending : List (String × α)) (v : ℤ) : Prop :=
  maxID+marked pending+
    (manualIds pending).countP (fun a => toString (parseInt a) = a ∧ parseInt a < v) < v

/-- Kept ids differ as numbers, and there is room below every one that is not written as its plain
decimal, and below the end of the counter. -/
def Spelled (maxID : ℤ) (pending : List (String × α)) : Prop :=
  (∀ a ∈ manualIds pending, ∀ b ∈ manualIds pending, parseInt a = parseInt b → a = b) ∧
    (∀ a ∈ manualIds pending, toString (parseInt a) ≠ a → RoomBelow maxID pending (parseInt a)) ∧
    RoomBelow maxID pending (2^63)

end

theorem parseInt_toString (z : ℤ) (h0 : 0 ≤ z) (h : z < 2^63) : parseInt (toString z) = z := by
  obtain ⟨n,rfl⟩ := Int.eq_ofNat_of_zero_le h0
  have hn : n < 2^63 := by exact_mod_cast h
  have hword : (UInt64.ofNat n).toNat = n :=
    UInt64.toNat_ofNat_of_lt' (lt_trans hn (by decide))
  have hd : (toString (n:ℤ)).toList = RangeText.decimal (UInt64.ofNat n) := by
    rw [RangeText.decimal,hword]
    exact String.toList_ofList
  have hm : magnitude (RangeText.decimal (UInt64.ofNat n)) = some n := by
    rw [magnitude,RangeText.parseUint_decimal]
    exact congrArg some hword
  have hdigit := RangeText.decimal_digits (UInt64.ofNat n)
  rw [parseInt,hd]
  split
  next heq => exact absurd (hdigit '-' (heq ▸ mem_cons_self)) (by decide)
  next heq => exact absurd (hdigit '+' (heq ▸ mem_cons_self)) (by decide)
  next =>
    rw [hm]
    simp only [Option.elim_some]
    omega

theorem parseInt_lt (id : String) : parseInt id < 2^63 := by
  unfold parseInt
  split
  all_goals
    generalize magnitude _ = m
    cases m <;> simp only [Option.elim_none,Option.elim_some] <;> omega

theorem int64Of_small {z : ℤ} (h0 : 0 ≤ z) (h : z < 2^63) : int64Of z = z :=
  Int.bmod_eq_of_le (by norm_num; omega) (by norm_num; omega)

section
variable (manual : List String)

/-- The numbers strictly between two that a kept id is written as. -/
def taken (lo hi : ℤ) : ℕ :=
  (List.range (hi-lo-1).toNat).countP fun k : ℕ => toString (lo+1+k) ∈ manual

/-- The counter hands out `k` more numbers without a wrap. -/
def Room (k : ℕ) (maxID : ℤ) : Prop := maxID+k+taken manual maxID (2^63) < 2^63

theorem taken_le (lo hi : ℤ) : taken manual lo hi ≤ (hi-lo-1).toNat :=
  countP_le_length.trans_eq length_range

variable {manual} {maxID n v : ℤ}

theorem taken_all (h : ∀ x, maxID < x → x < n → toString x ∈ manual) :
    taken manual maxID n = (n-maxID-1).toNat := by
  have hall : ∀ k ∈ List.range (n-maxID-1).toNat, toString (maxID+1+(k:ℤ)) ∈ manual := by
    intro k hk
    have := mem_range.mp hk
    exact h _ (by omega) (by omega)
  rw [taken,countP_eq_length.mpr fun k hk => decide_eq_true (hall k hk),length_range]

/-- The numbers up to the next one are taken and the next one is not. -/
theorem taken_next (hlt : maxID < n) (hv : n < v) (hn : toString n ∉ manual)
    (h : ∀ x, maxID < x → x < n → toString x ∈ manual) :
    (taken manual maxID v : ℤ) = n-maxID-1+taken manual n v := by
  have hlen : (v-maxID-1).toNat = (n-maxID-1).toNat+1+(v-n-1).toNat := by omega
  have hat : maxID+1+((n-maxID-1).toNat:ℤ) = n := by omega
  have hafter : ∀ k : ℕ, maxID+1+(((n-maxID-1).toNat+1+k : ℕ):ℤ) = n+1+k := by omega
  have hall := taken_all h
  rw [taken] at hall
  rw [taken,hlen,range_add,range_succ,countP_append,countP_append,countP_map,hall]
  simp only [Function.comp_def,hafter,countP_singleton,hat,hn,decide_false,Bool.false_eq_true,
    if_false,Nat.add_zero]
  rw [taken]
  omega

variable (h0 : 0 ≤ maxID) (hmax : maxID < 2^63) (hneg : toString (-2^63 : ℤ) ∉ manual)
include h0 hmax hneg

/-- The next number is the first one that no kept id is written as, or the counter wraps. -/
theorem nextId_cases : (maxID < nextId manual maxID ∧ nextId manual maxID < 2^63 ∧
      toString (nextId manual maxID) ∉ manual ∧
      ∀ x, maxID < x → x < nextId manual maxID → toString x ∈ manual) ∨
    (nextId manual maxID = -2^63 ∧ ∀ x, maxID < x → x < 2^63 → toString x ∈ manual) := by
  have hend : ∀ k : ℕ, maxID+1+k = 2^63 → int64Of (maxID+1+k) = -2^63 := by
    intro k hk
    rw [hk]
    decide
  unfold nextId
  cases hf : ((List.range (manual.length+1)).map fun k : ℕ => int64Of (maxID+1+k)).find?
      (fun n => toString n ∉ manual) with
  | none =>
    exfalso
    have hall : ∀ k : ℕ, k < manual.length+1 → toString (int64Of (maxID+1+k)) ∈ manual := by
      intro k hk
      simpa using find?_eq_none.mp hf _ (mem_map_of_mem (mem_range.mpr hk))
    have hsmall : ∀ k : ℕ, k < manual.length+1 → maxID+1+k < 2^63 := by
      intro k hk
      by_contra hlarge
      have := hall (2^63-1-maxID).toNat (by omega)
      rw [hend _ (by omega)] at this
      exact hneg this
    have hnodup : ((List.range (manual.length+1)).map fun k : ℕ => toString (maxID+1+k)).Nodup := by
      refine List.Nodup.map_on (fun j hj k hk heq => ?_) nodup_range
      have := congrArg parseInt heq
      rw [parseInt_toString _ (by omega) (hsmall j (mem_range.mp hj)),
        parseInt_toString _ (by omega) (hsmall k (mem_range.mp hk))] at this
      omega
    have hsub : ((List.range (manual.length+1)).map fun k : ℕ => toString (maxID+1+k)) ⊆ manual := by
      intro id hid
      obtain ⟨k,hk,rfl⟩ := mem_map.mp hid
      rw [← int64Of_small (by omega) (hsmall k (mem_range.mp hk))]
      exact hall k (mem_range.mp hk)
    have := (subperm_of_subset hnodup hsub).length_le
    simp only [length_map,length_range] at this
    omega
  | some n =>
    obtain ⟨hfree,i,hi,rfl,hbefore⟩ := find?_eq_some_iff_getElem.mp hf
    simp only [getElem_map,getElem_range,decide_not,Bool.not_eq_true',decide_eq_false_iff_not,
      Bool.not_not,decide_eq_true_eq] at hfree hbefore
    have hle : maxID+1+i ≤ 2^63 := by
      by_contra hlarge
      have := hbefore (2^63-1-maxID).toNat (by omega)
      rw [hend _ (by omega)] at this
      exact hneg this
    have hmanual : ∀ x, maxID < x → x < maxID+1+i → toString x ∈ manual := by
      intro x h1 h2
      have := hbefore (x-maxID-1).toNat (by omega)
      rwa [int64Of_small (by omega) (by omega),show maxID+1+((x-maxID-1).toNat:ℤ) = x by omega]
        at this
    simp only [Option.getD_some,getElem_map,getElem_range]
    rcases hle.lt_or_eq with hlt | heq
    · rw [int64Of_small (by omega) hlt] at hfree ⊢
      exact .inl ⟨by omega,hlt,hfree,hmanual⟩
    · rw [hend i heq,← heq]
      exact .inr ⟨rfl,hmanual⟩

theorem room_succ {k : ℕ} (h : Room manual (k+1) maxID) :
    maxID < nextId manual maxID ∧ nextId manual maxID < 2^63 ∧
      toString (nextId manual maxID) ∉ manual ∧
      (∀ x, maxID < x → x < nextId manual maxID → toString x ∈ manual) ∧
      Room manual k (nextId manual maxID) := by
  rw [Room] at h
  rcases nextId_cases h0 hmax hneg with ⟨h1,h2,h3,h4⟩ | ⟨-,hall⟩
  · refine ⟨h1,h2,h3,h4,?_⟩
    have := taken_next h1 h2 h3 h4
    rw [Room]
    omega
  · have := taken_all hall
    omega

theorem handedOut_spec {k : ℕ} (h : Room manual k maxID) :
    (maxID::handedOut manual k maxID).Pairwise (· < ·) ∧
      ∀ n ∈ handedOut manual k maxID, toString n ∉ manual ∧ n < 2^63 := by
  induction k generalizing maxID with
  | zero => simp [handedOut]
  | succ k ih =>
    obtain ⟨h1,h2,h3,-,hroom⟩ := room_succ h0 hmax hneg h
    obtain ⟨hp,hm⟩ := ih (by omega) h2 hroom
    refine ⟨pairwise_cons.mpr ⟨?_,hp⟩,forall_mem_cons.mpr ⟨⟨h3,h2⟩,hm⟩⟩
    exact forall_mem_cons.mpr ⟨h1,fun n hn => h1.trans ((pairwise_cons.mp hp).1 n hn)⟩

theorem handedOut_value {k : ℕ} (h : Room manual k maxID) {n : ℤ}
    (hn : n ∈ handedOut manual k maxID) :
    parseInt (toString n) = n ∧ maxID < n ∧ toString n ∉ manual := by
  obtain ⟨hp,hm⟩ := handedOut_spec h0 hmax hneg h
  have hlt := (pairwise_cons.mp hp).1 n hn
  exact ⟨parseInt_toString n (by omega) (hm n hn).2,hlt,(hm n hn).1⟩

/-- A free number is handed out unless there is room below it. -/
theorem mem_handedOut_iff {k : ℕ} (h : Room manual k maxID) (hlt : maxID < v) (hv : v < 2^63)
    (hfree : toString v ∉ manual) :
    v ∈ handedOut manual k maxID ↔ ¬maxID+k+taken manual maxID v < v := by
  induction k generalizing maxID with
  | zero =>
    have := taken_le manual maxID v
    simp only [handedOut,not_mem_nil,false_iff,not_not]
    omega
  | succ k ih =>
    obtain ⟨h1,h2,h3,h4,hroom⟩ := room_succ h0 hmax hneg h
    rw [handedOut,mem_cons]
    rcases lt_trichotomy v (nextId manual maxID) with hlow | heq | hhigh
    · exact absurd (h4 v hlt hlow) hfree
    · have := taken_all h4
      rw [← heq] at this
      simp only [heq,true_or,true_iff]
      rw [← heq,this]
      push_cast
      omega
    · have := taken_next h1 hhigh h3 h4
      rw [ih (by omega) h2 hroom hhigh,or_iff_right (by omega)]
      push_cast
      omega

/-- Without room the counter wraps. -/
theorem wraps_of_no_room {k : ℕ} (h : ¬Room manual k maxID) : -2^63 ∈ handedOut manual k maxID := by
  induction k generalizing maxID with
  | zero =>
    have := taken_le manual maxID (2^63)
    rw [Room] at h
    omega
  | succ k ih =>
    rw [handedOut,mem_cons]
    rcases nextId_cases h0 hmax hneg with ⟨h1,h2,h3,h4⟩ | ⟨hwrap,-⟩
    · refine .inr (ih (by omega) h2 ?_)
      have := taken_next h1 h2 h3 h4
      rw [Room] at h ⊢
      omega
    · exact .inl hwrap.symm

end

section
variable {α : Type} (manual : List String) (maxID : ℤ) (pending : List (String × α))
  {rest : List (String × α)}

theorem marked_cons {e : String × α} :
    marked (e::rest) = marked rest+if isMarked e.1 then 1 else 0 := countP_cons

theorem manualIds_cons {e : String × α} :
    manualIds (e::rest) = if isMarked e.1 then manualIds rest else e.1::manualIds rest := by
  cases h : isMarked e.1 <;> simp [manualIds,h]

theorem mem_assign_ids (id : String) : id ∈ (assign manual maxID pending).map Prod.fst ↔
    id ∈ (handedOut manual (marked pending) maxID).map toString ∨ id ∈ manualIds pending := by
  induction pending generalizing maxID with
  | nil => simp [assign,marked,handedOut,manualIds]
  | cons e rest ih =>
    cases h : isMarked e.1 with
    | true => simp [assign,marked_cons,manualIds_cons,handedOut,h,ih,or_assoc]
    | false => simp [assign,marked_cons,manualIds_cons,h,ih,or_left_comm]

theorem assign_manual : pending.Forall₂
    (fun e f => f.2 = e.2 ∧ (isMarked e.1 = false → f.1 = e.1)) (assign manual maxID pending) := by
  induction pending generalizing maxID with
  | nil => exact .nil
  | cons e rest ih =>
    rw [assign]
    split
    next h => exact .cons ⟨rfl,by simp [h]⟩ (ih _)
    next => exact .cons ⟨rfl,fun _ => rfl⟩ (ih _)

variable (h0 : 0 ≤ maxID) (hmax : maxID < 2^63) (hneg : toString (-2^63 : ℤ) ∉ manual)
  (hroom : Room manual (marked pending) maxID)
include h0 hmax hneg hroom

theorem assign_increasing {block : α → ℕ}
    (hsorted : pending.Pairwise fun e f => block e.2 ≤ block f.2) :
    ((pending.zip (assign manual maxID pending)).filter fun p => isMarked p.1.1).Pairwise
        (fun p q => block p.1.2 ≤ block q.1.2 ∧ parseInt p.2.1 < parseInt q.2.1) ∧
      ∀ p ∈ (pending.zip (assign manual maxID pending)).filter fun p => isMarked p.1.1,
        maxID < parseInt p.2.1 := by
  induction pending generalizing maxID with
  | nil => simp [assign]
  | cons e rest ih =>
    obtain ⟨hfirst,hrest⟩ := pairwise_cons.mp hsorted
    rcases h : isMarked e.1 with _ | _
    · rw [marked_cons,h] at hroom
      simpa [assign,h] using ih maxID h0 hmax hroom hrest
    rw [marked_cons,h,if_pos rfl] at hroom
    obtain ⟨h1,h2,-,-,hroom'⟩ := room_succ h0 hmax hneg hroom
    have hn := parseInt_toString (nextId manual maxID) (by omega) h2
    obtain ⟨hp,hg⟩ := ih (nextId manual maxID) (by omega) h2 hroom' hrest
    simp only [assign,h,if_true,zip_cons_cons,filter_cons,pairwise_cons,forall_mem_cons,hn]
    refine ⟨⟨fun p hp => ⟨hfirst p.1 ?_,hg p hp⟩,hp⟩,h1,fun p hp => h1.trans (hg p hp)⟩
    exact (of_mem_zip (mem_filter.mp hp).1).1

theorem assign_distinct (hkeys : (pending.map Prod.fst).Nodup)
    (hsub : ∀ a ∈ manualIds pending, a ∈ manual)
    (hvalues : ∀ a ∈ manual, ∀ b ∈ manual, parseInt a = parseInt b → a = b)
    (happart : ∀ a ∈ manual, ∀ n ∈ handedOut manual (marked pending) maxID, parseInt a ≠ n) :
    (((assign manual maxID pending).map Prod.fst).map parseInt).Nodup := by
  induction pending generalizing maxID with
  | nil => exact nodup_nil
  | cons e rest ih =>
    obtain ⟨hnot,hrest⟩ := nodup_cons.mp hkeys
    rw [marked_cons] at hroom happart
    rw [manualIds_cons] at hsub
    cases h : isMarked e.1 with
    | false =>
      rw [h] at hsub hroom happart
      have he := hsub e.1 mem_cons_self
      have hsub' := fun a ha => hsub a (mem_cons_of_mem e.1 ha)
      rw [assign,h,if_neg Bool.false_ne_true,map_cons,map_cons,nodup_cons]
      refine ⟨?_,ih maxID h0 hmax hroom hrest hsub' happart⟩
      intro hmem
      obtain ⟨id,hid,heq⟩ := mem_map.mp hmem
      rcases (mem_assign_ids manual maxID rest id).mp hid with hid | hid
      · obtain ⟨n,hn,rfl⟩ := mem_map.mp hid
        rw [(handedOut_value h0 hmax hneg hroom hn).1] at heq
        exact happart e.1 he n hn heq.symm
      have := hvalues id (hsub' id hid) e.1 he heq
      rw [this] at hid
      exact hnot (mem_of_mem_filter hid)
    | true =>
      rw [h] at hsub happart
      rw [h,if_pos rfl] at hroom
      obtain ⟨h1,h2,-,-,hroom'⟩ := room_succ h0 hmax hneg hroom
      have hnext : 0 ≤ nextId manual maxID := by omega
      have hn := parseInt_toString _ hnext h2
      rw [assign,h,if_pos rfl,map_cons,map_cons,nodup_cons,hn]
      refine ⟨?_,ih _ hnext h2 hroom' hrest hsub fun a ha n hin =>
        happart a ha n (mem_cons_of_mem _ hin)⟩
      intro hmem
      obtain ⟨id,hid,heq⟩ := mem_map.mp hmem
      rcases (mem_assign_ids manual _ rest id).mp hid with hid | hid
      · obtain ⟨n,hin,rfl⟩ := mem_map.mp hid
        obtain ⟨hv,hlt,-⟩ := handedOut_value hnext h2 hneg hroom' hin
        omega
      · exact happart id (hsub id hid) _ mem_cons_self heq

end

section
variable {α : Type} {maxID : ℤ} {pending : List (String × α)}
  (hkeys : (pending.map Prod.fst).Nodup)
  (hgreater : ∀ id ∈ manualIds pending, maxID < parseInt id)
include hkeys hgreater

/-- The numbers taken below `v` are those of the kept ids that are written as plain decimals. -/
theorem taken_eq_countP (h0 : 0 ≤ maxID) {v : ℤ} (hv : v ≤ 2^63) :
    taken (manualIds pending) maxID v =
      (manualIds pending).countP (fun a => toString (parseInt a) = a ∧ parseInt a < v) := by
  have hvalue : ∀ k ∈ List.range (v-maxID-1).toNat,
      parseInt (toString (maxID+1+(k:ℤ))) = maxID+1+k := by
    intro k hk
    have := mem_range.mp hk
    exact parseInt_toString _ (by omega) (by omega)
  have hnodup : (((List.range (v-maxID-1).toNat).filter fun k : ℕ =>
      toString (maxID+1+k) ∈ manualIds pending).map fun k : ℕ => toString (maxID+1+k)).Nodup := by
    refine List.Nodup.map_on (fun j hj k hk heq => ?_) (nodup_range.filter _)
    have := congrArg parseInt heq
    rw [hvalue j (mem_filter.mp hj).1,hvalue k (mem_filter.mp hk).1] at this
    omega
  have hmanual : (manualIds pending).Nodup := hkeys.filter _
  have hperm := (perm_ext_iff_of_nodup hnodup (hmanual.filter
    fun a => toString (parseInt a) = a ∧ parseInt a < v)).mpr fun a => by
      simp only [mem_map,mem_filter,decide_eq_true_eq]
      constructor
      · rintro ⟨k,⟨hk,hmem⟩,rfl⟩
        have := mem_range.mp hk
        rw [hvalue k hk]
        exact ⟨hmem,rfl,by omega⟩
      · rintro ⟨hmem,hplain,hlt⟩
        have hlow := hgreater a hmem
        have hat : maxID+1+((parseInt a-maxID-1).toNat:ℤ) = parseInt a := by omega
        exact ⟨(parseInt a-maxID-1).toNat,⟨mem_range.mpr (by omega),by rwa [hat,hplain]⟩,
          by rw [hat,hplain]⟩
  have := hperm.length_eq
  rwa [length_map,← countP_eq_length_filter,← countP_eq_length_filter] at this

end

/-- The ids handed to the store are numbers as they should be, exactly when the kept ids are
spelled so that texts tell their numbers apart and the counter does not wrap. -/
theorem numbered_iff_spelled {α : Type} (block : α → ℕ) (maxID : ℤ)
    (pending handed : List (String × α)) (h0 : 0 ≤ maxID) (hmax : maxID < 2^63)
    (hkeys : (pending.map Prod.fst).Nodup)
    (hsorted : pending.Pairwise fun e f => block e.2 ≤ block f.2)
    (h : batch maxID pending = some handed) :
    Numbered block maxID pending handed ↔ Spelled maxID pending := by
  unfold batch at h
  split at h
  · cases h
  next hcheck =>
    cases h
    have hgreater : ∀ id ∈ manualIds pending, maxID < parseInt id := by simpa using hcheck
    have hwrap : parseInt (toString (-2^63 : ℤ)) = -2^63 := by decide
    have hneg : toString (-2^63 : ℤ) ∉ manualIds pending := by
      intro hmem
      have := hgreater _ hmem
      omega
    have hids := mem_assign_ids (manualIds pending) maxID pending
    have hmem : ∀ id, id ∈ (handedOut (manualIds pending) (marked pending) maxID).map toString ∨
        id ∈ manualIds pending → ∃ e ∈ assign (manualIds pending) maxID pending, e.1 = id :=
      fun id hid => mem_map.mp ((hids id).mpr hid)
    have hroomIff : Room (manualIds pending) (marked pending) maxID ↔
        RoomBelow maxID pending (2^63) := by
      rw [Room,RoomBelow,taken_eq_countP hkeys hgreater h0 le_rfl]
    have hroomBelow : Room (manualIds pending) (marked pending) maxID → ∀ a ∈ manualIds pending,
        toString (parseInt a) ∉ manualIds pending →
          (parseInt a ∈ handedOut (manualIds pending) (marked pending) maxID ↔
            ¬RoomBelow maxID pending (parseInt a)) := by
      intro hroom a ha hfree
      rw [mem_handedOut_iff h0 hmax hneg hroom (hgreater a ha) (parseInt_lt a) hfree,RoomBelow,
        taken_eq_countP hkeys hgreater h0 (parseInt_lt a).le]
    constructor
    · intro hn
      have hinj := inj_on_of_nodup_map hn.distinct
      have hroom : Room (manualIds pending) (marked pending) maxID := by
        by_contra hno
        obtain ⟨e,he,hid⟩ := hmem _ (.inl (mem_map_of_mem (wraps_of_no_room h0 hmax hneg hno)))
        have := hn.greater e he
        rw [hid,hwrap] at this
        omega
      have hvalues : ∀ a ∈ manualIds pending, ∀ b ∈ manualIds pending,
          parseInt a = parseInt b → a = b := by
        intro a ha b hb heq
        obtain ⟨e,he,rfl⟩ := hmem a (.inr ha)
        obtain ⟨f,hf,rfl⟩ := hmem b (.inr hb)
        rw [hinj he hf heq]
      refine ⟨hvalues,fun a ha hspell => ?_,hroomIff.mp hroom⟩
      have hpos := hgreater a ha
      have hback := parseInt_toString (parseInt a) (by omega) (parseInt_lt a)
      have hfree : toString (parseInt a) ∉ manualIds pending :=
        fun hin => hspell (hvalues _ hin a ha hback)
      by_contra hno
      obtain ⟨e,he,rfl⟩ := hmem a (.inr ha)
      obtain ⟨f,hf,hfe⟩ :=
        hmem _ (.inl (mem_map_of_mem ((hroomBelow hroom _ ha hfree).mpr hno)))
      rw [← hfe] at hback
      exact hspell (by rw [← hfe,hinj hf he hback])
    rintro ⟨hvalues,hspell,hroom⟩
    rw [← hroomIff] at hroom
    have hapart : ∀ a ∈ manualIds pending,
        ∀ n ∈ handedOut (manualIds pending) (marked pending) maxID, parseInt a ≠ n := by
      rintro a ha n hin rfl
      have hfree := (handedOut_value h0 hmax hneg hroom hin).2.2
      exact (hroomBelow hroom a ha hfree).mp hin
        (hspell a ha fun heq => hfree (heq.symm ▸ ha))
    refine ⟨?_,?_,assign_manual _ maxID pending,
      (assign_increasing _ maxID pending h0 hmax hneg hroom hsorted).1⟩
    · rw [← Function.comp_def parseInt,← map_map]
      exact assign_distinct _ maxID pending h0 hmax hneg hroom hkeys (fun _ ha => ha) hvalues hapart
    intro e he
    rcases (hids e.1).mp (mem_map_of_mem he) with hid | hid
    · obtain ⟨n,hin,heq⟩ := mem_map.mp hid
      obtain ⟨hv,hlt,-⟩ := handedOut_value h0 hmax hneg hroom hin
      rwa [← heq,hv]
    · exact hgreater e.1 hid

theorem numbered_mixed : Numbered id 3 [("@1",7),("5",7),("@2",8)] [("4",7),("5",7),("6",8)] ∧
    Numbered id (2^63-4) [("@1",7),("9223372036854775807",7),("@2",8)]
      [("9223372036854775805",7),("9223372036854775807",7),("9223372036854775806",8)] :=
  ⟨(numbered_iff_spelled id 3 [("@1",7),("5",7),("@2",8)] [("4",7),("5",7),("6",8)]
      (by decide) (by decide) (by decide) (by decide) (by decide)).mpr
        (by unfold Spelled RoomBelow; decide),
    (numbered_iff_spelled id (2^63-4) [("@1",7),("9223372036854775807",7),("@2",8)]
      [("9223372036854775805",7),("9223372036854775807",7),("9223372036854775806",8)]
      (by decide) (by decide) (by decide) (by decide) (by decide)).mpr
        (by unfold Spelled RoomBelow; decide)⟩

/-- The fifth number is handed out beside a kept id that is spelled with a zero. -/
theorem spelling_collides :
    batch 4 [("05",7),("@1",8)] = some [("05",7),("5",8)] ∧ parseInt "05" = parseInt "5" ∧
      ¬Numbered id 4 [("05",7),("@1",8)] [("05",7),("5",8)] := by
  refine ⟨by decide,by decide,fun h => ?_⟩
  exact absurd h.distinct (by decide)

end Sentio.EntitySeries
