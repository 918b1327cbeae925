import SentioCore.VersionedLedger

/-!
# The balance of the versioned tables

A reorg leaves the rows of a first part of the writes of every entity, and only
the last version of an entity is not taken back.
-/

namespace Sentio.VersionedRuns
open VersionedTable VersionedLedger List Transition KeyedRows Function
open Option (some.inj)

section
variable {δ ε : Type}

def UpTo (blockNumber : ℤ) (gen : GenBlock) : Bool := (gen.number : ℤ) ≤ blockNumber

theorem filter_within {α : Type} {l : List α} {p q q' : α → Bool}
    (h : ∀ a, p a → q a = q' a) : (l.filter q).filter p = (l.filter p).filter q' := by
  rw [filter_filter,filter_filter]
  apply filter_congr
  intro a _
  by_cases hp : p a
  · rw [h a hp,hp,Bool.true_and,Bool.and_true]
  · simp [hp]

variable (blockNumber : ℤ) (c : String) (rows : List (Row ε)) (chain id : String) (version : ℕ)

theorem rowsAt_reorg : rowsAt (reorgInTable blockNumber c rows) chain id version =
    if chain = c then (rowsAt rows chain id version).filter (fun r => UpTo blockNumber r.gen)
    else rowsAt rows chain id version := by
  split
  · rename_i hc
    apply filter_within
    intro r hr
    simp [UpTo,(of_decide_eq_true hr).1,hc]
  · rename_i hc
    refine (filter_within fun r hr => ?_).trans (filter_true _)
    simp [(of_decide_eq_true hr).1,hc]

theorem rowsAt_upTo : rowsAt (upTo blockNumber c rows) chain id version =
    if chain = c then (rowsAt rows chain id version).filter (fun r => UpTo blockNumber r.gen)
    else [] := by
  split
  · rename_i hc
    apply filter_within
    intro r hr
    simp [UpTo,(of_decide_eq_true hr).1,hc]
  · rename_i hc
    refine (filter_within fun r hr => ?_).trans (filter_false _)
    simp [(of_decide_eq_true hr).1,hc]

theorem writesOf_reorg {log : List (String × Box δ)} :
    writesOf (log.filter (fun e => ¬((blockNumber < e.2.gen.number) ∧ e.1 = c))) chain id =
      if chain = c then (writesOf log chain id).filter (fun b => UpTo blockNumber b.gen)
      else writesOf log chain id := by
  unfold writesOf
  split
  · rename_i hc
    rw [filter_map]
    congr 1
    apply filter_within
    intro e he
    simp [UpTo,(of_decide_eq_true he).1,hc]
  · rename_i hc
    congr 1
    refine (filter_within fun e he => ?_).trans (filter_true _)
    simp [(of_decide_eq_true he).1,hc]

def Ascending (writes : List (Box δ)) : Prop :=
  writes.Pairwise (fun a b => a.gen.number ≤ b.gen.number)

variable {chain : String} {kit : Kit δ ε} {version : ℕ} {rows : List (Row ε)}

theorem entries_filter {writes : List (Box δ)} (ha : Ascending writes)
    (h : Entries kit chain writes version rows) :
    Entries kit chain (writes.filter (fun b => UpTo blockNumber b.gen)) version
      (rows.filter (fun r => UpTo blockNumber r.gen)) := by
  have hclosed : writes.Pairwise (fun a b => UpTo blockNumber b.gen → UpTo blockNumber a.gen) := by
    apply ha.imp
    intro a b hab hb
    simp only [UpTo,decide_eq_true_iff] at hb ⊢
    omega
  rcases version with _ | i
  · have hrows : rows = [] := h
    rw [hrows]
    rfl
  unfold Entries at h ⊢
  dsimp only at h ⊢
  rw [getElem?_filter_of_closed hclosed,getElem?_filter_of_closed hclosed]
  rcases hbox : writes[i]? with _ | box
  · rw [hbox] at h
    have hrows : rows = [] := h
    simp [hrows]
  rw [hbox] at h
  have hgen : (posted kit chain box (i+1)).gen = box.gen := rfl
  rcases hnext : writes[i+1]? with _ | next
  · rw [hnext] at h
    have hrows : rows = [posted kit chain box (i+1)] := h
    rw [hrows]
    by_cases hp : UpTo blockNumber box.gen
    · simp [Option.filter,hp,hgen]
    · simp [Option.filter,hp,hgen]
  rw [hnext] at h
  obtain ⟨r,hr,hrows⟩ := h
  have hpair : UpTo blockNumber next.gen → UpTo blockNumber box.gen := by
    obtain ⟨hi,rfl⟩ := List.getElem?_eq_some_iff.mp hbox
    obtain ⟨hj,rfl⟩ := List.getElem?_eq_some_iff.mp hnext
    exact pairwise_iff_getElem.mp hclosed i (i+1) hi hj (by omega)
  rw [hrows]
  by_cases hp : UpTo blockNumber box.gen
  · by_cases hq : UpTo blockNumber next.gen
    · simpa [Option.filter,hp,hq,hgen,hr.gen] using hr
    · simp [Option.filter,hp,hq,hgen,hr.gen]
  · have hq : ¬UpTo blockNumber next.gen := fun hq => hp (hpair hq)
    simp [Option.filter,hp,hq,hgen,hr.gen]

variable {log : List (String × Box δ)} {id : String} {raw : List (Row ε)} {blockNumber : ℤ}

/-- When every id of a chain is counted, no version that is not taken back is missing. -/
theorem thinned_of_counts {kept : List (Row ε)}
    (hraw : ∀ id version, Entries kit chain (writesOf log chain id) version
      (rowsAt raw chain id version))
    (hloose : ∀ id version, rowsAt kept chain id version = rowsAt raw chain id version ∨
      rowsAt kept chain id version = [])
    (hle : ∀ r ∈ raw, r.chain = chain → UpTo blockNumber r.gen)
    (hcount : ((upTo blockNumber chain raw).map Row.id).dedup.length =
      (liveGroups (upTo blockNumber chain kept) chain).length) :
    Thinned (rowsAt raw chain id version) (rowsAt kept chain id version) := by
  have hkept : ∀ id version, rowsAt (upTo blockNumber chain kept) chain id version =
      rowsAt kept chain id version := by
    intro id version
    rw [rowsAt_upTo,if_pos rfl,filter_eq_self]
    intro r hr
    rcases hloose id version with heq | hnil
    · rw [heq,mem_rowsAt] at hr
      exact hle r hr.1 hr.2.1
    · simp [hnil] at hr
  have hlive : ∀ id version, (id,version) ∈ liveGroups (upTo blockNumber chain kept) chain →
      rowsAt kept chain id version ≠ [] ∧ version = (writesOf log chain id).length ∧
        id ∈ ((upTo blockNumber chain raw).map Row.id).dedup := by
    intro id version hm
    rw [mem_liveGroups,signSum,hkept] at hm
    have hne : rowsAt kept chain id version ≠ [] := by
      intro hnil
      simp [hnil] at hm
    have heq := (hloose id version).resolve_right hne
    obtain ⟨r,hr⟩ := exists_mem_of_ne_nil _ hne
    rw [heq,mem_rowsAt] at hr
    rw [heq,entries_sum (hraw id version)] at hm
    refine ⟨hne,?_,?_⟩
    · split at hm
      · rename_i hv
        exact hv.2
      · exact absurd hm (lt_irrefl _)
    · rw [mem_dedup,mem_map]
      refine ⟨r,mem_filter.mpr ⟨hr.1,?_⟩,hr.2.2.1⟩
      simpa [UpTo,hr.2.1] using hle r hr.1 hr.2.1
  have hperm : ((liveGroups (upTo blockNumber chain kept) chain).map Prod.fst).Perm
      ((upTo blockNumber chain raw).map Row.id).dedup := by
    apply List.Subperm.perm_of_length_le
    · apply List.Nodup.subperm
      · apply List.Nodup.map_on
        · rintro ⟨i,v⟩ hi ⟨j,w⟩ hj (rfl : i = j)
          rw [(hlive i v hi).2.1,(hlive i w hj).2.1]
        · exact (nodup_dedup _).filter _
      · intro i hi
        obtain ⟨⟨j,v⟩,hg,rfl⟩ := mem_map.mp hi
        exact (hlive j v hg).2.2
    · rw [length_map,hcount]
  rcases hloose id version with heq | hnil
  · exact .inl heq
  rcases entries_cases kit chain _ version _ (hraw id version) with
    ⟨hrows,-⟩ | ⟨box,-,hv,hrows⟩ | ⟨box,next,r,-,-,-,hrows⟩
  · exact .inl (hnil.trans hrows.symm)
  · exfalso
    have hmem : posted kit chain box version ∈ rowsAt raw chain id version := by simp [hrows]
    rw [mem_rowsAt] at hmem
    have hid : id ∈ ((upTo blockNumber chain raw).map Row.id).dedup := by
      rw [mem_dedup,mem_map]
      refine ⟨_,mem_filter.mpr ⟨hmem.1,?_⟩,hmem.2.2.1⟩
      simpa [UpTo,hmem.2.1] using hle _ hmem.1 hmem.2.1
    obtain ⟨⟨j,w⟩,hg,rfl⟩ := mem_map.mp (hperm.mem_iff.mpr hid)
    obtain ⟨hne,hw,-⟩ := hlive j w hg
    rw [hv,← hw] at hnil
    exact hne hnil
  · exact .inr ⟨hnil,by rw [hrows]; rfl⟩

variable {c : String}

theorem rowsAt_otherChains : rowsAt (rows.filter (fun r => r.chain ≠ chain)) c id version =
      if c = chain then [] else rowsAt rows c id version := by
  split
  · rename_i hc
    refine (filter_within fun r hr => ?_).trans (filter_false _)
    simp [(of_decide_eq_true hr).1,hc]
  rename_i hc
  refine (filter_within fun r hr => ?_).trans (filter_true _)
  simp [(of_decide_eq_true hr).1,hc]

variable {t : Tables δ ε}

theorem reorg_books [DecidableEq ε]
    {before after : List (Row ε × Row ε)} (h : Books kit t)
    (ha : ∀ c id, Ascending (writesOf t.log c id)) :
    Books kit
      { raw := reorgInTable blockNumber chain t.raw
        latest := reorgInVersionedLatestTable blockNumber chain after
          (collapse t.latest before) (reorgInTable blockNumber chain t.raw)
        log := t.log.filter (fun e => ¬((blockNumber < e.2.gen.number) ∧ e.1 = chain)) } := by
  have hbefore := collapse_books h before
  have hraw : ∀ c id version, Entries kit c (writesOf (t.log.filter
      (fun e => ¬((blockNumber < e.2.gen.number) ∧ e.1 = chain))) c id) version
      (rowsAt (reorgInTable blockNumber chain t.raw) c id version) := by
    intro c id version
    rw [writesOf_reorg,rowsAt_reorg]
    split
    · exact entries_filter blockNumber (ha c id) (h.raw c id version)
    · exact h.raw c id version
  refine ⟨hraw,fun c id version => ?_⟩
  have hdeleted : ∀ c id version, (rowsAt (reorgInTable blockNumber chain
      (collapse t.latest before)) c id version).length ≤ 2 := by
    intro c id version
    have hshort := books_short kit _ hbefore c id version
    rw [rowsAt_reorg]
    split
    · exact (length_filter_le _ _).trans hshort
    · exact hshort
  have hafter := fun c id version => collapse_thinned _ after c id version (hdeleted c id version)
  unfold reorgInVersionedLatestTable
  dsimp only
  generalize collapse (reorgInTable blockNumber chain (collapse t.latest before)) after = kept
    at hafter ⊢
  have hother : ∀ id version, c ≠ chain →
      Thinned (rowsAt (reorgInTable blockNumber chain t.raw) c id version)
        (rowsAt kept c id version) := by
    intro id version hc
    have hkept := hafter c id version
    rw [rowsAt_reorg,if_neg hc] at hkept ⊢
    exact thinned_trans (hbefore.latest c id version) hkept
  split
  · rename_i hcount
    by_cases hc : c = chain
    · subst hc
      apply thinned_of_counts (hraw c) _ _ hcount
      · intro id version
        have hkept := hafter c id version
        rw [rowsAt_reorg,if_pos rfl] at hkept ⊢
        rcases hkept with heq | ⟨hnil,-⟩
        · rcases hbefore.latest c id version with hsame | ⟨hgone,-⟩
          · exact .inl (by rw [heq,hsame])
          · exact .inr (by rw [heq,hgone]; rfl)
        · exact .inr hnil
      · intro r hr hchain
        have := (mem_filter.mp hr).2
        simpa [UpTo,hchain] using this
    · exact hother id version hc
  · rw [rowsAt_append,rowsAt_upTo,rowsAt_otherChains]
    by_cases hc : c = chain
    · subst hc
      left
      rw [if_pos rfl,nil_append,if_pos rfl,filter_eq_self]
      intro r hr
      rw [rowsAt_reorg,if_pos rfl] at hr
      exact (mem_filter.mp hr).2
    · rw [if_neg hc,if_neg hc,append_nil]
      exact hother id version hc

/-- The ids of a call are met in some order, and no box is older than what is
written of its id. -/
def InOrder (s : Store δ ε) : Event δ ε → Prop
  | .setEntities chain order boxes _ => order.Nodup ∧ (∀ box ∈ boxes, box.id ∈ order) ∧
      ∀ box ∈ boxes, ∀ old ∈ writesOf s.tables.log chain box.id, old.gen.number ≤ box.gen.number
  | _ => True

instance (s : Store δ ε) : ∀ event, Decidable (InOrder s event)
  | .setEntities chain order boxes _ => inferInstanceAs (Decidable (order.Nodup ∧
      (∀ box ∈ boxes, box.id ∈ order) ∧ ∀ box ∈ boxes,
        ∀ old ∈ writesOf s.tables.log chain box.id, old.gen.number ≤ box.gen.number))
  | .reorg _ _ _ _ | .merge _ | .loadCache _ | .dropCache _ => isTrue trivial

structure Inv (kit : Kit δ ε) (s : Store δ ε) : Prop where
  books : Books kit s.tables
  ascending : ∀ chain id, Ascending (writesOf s.tables.log chain id)
  cached : ∀ chain cache, s.fullCache chain = some cache →
    ∀ id, Coherent s.tables.log chain cache id

theorem newStore_inv : Inv kit (newStore : Store δ ε) where
  books :=
    { raw := by
        intro chain id version
        cases version with
        | zero | succ i => rfl
      latest := fun _ _ _ => .inl rfl }
  ascending _ _ := List.Pairwise.nil
  cached _ _ h := by cases h

variable {boxes : List (Box δ)} {order : List String}

theorem call_writes (chain c id : String)
    (log : List (String × Box δ)) (hn : order.Nodup) (hc : ∀ box ∈ boxes, box.id ∈ order) :
    writesOf (log++(histories order boxes).map (fun b => (chain,b))) c id =
      writesOf log c id++if c = chain then (boxes.filter (fun b => b.id = id)).insertionSort
        (fun a b => a.gen.number ≤ b.gen.number) else [] := by
  rw [writesOf_append]
  split
  · rename_i h
    rw [h,writesOf_same_chain,histories_filter order boxes hn hc]
  · rename_i h
    rw [writesOf_other_chain id _ (Ne.symm h)]

theorem call_ascending (hn : order.Nodup) (hc : ∀ box ∈ boxes, box.id ∈ order)
    (hb : ∀ box ∈ boxes, ∀ old ∈ writesOf log chain box.id, old.gen.number ≤ box.gen.number)
    (h : Ascending (writesOf log c id)) :
    Ascending (writesOf (log++(histories order boxes).map (fun b => (chain,b))) c id) := by
  rw [call_writes chain c id log hn hc]
  split
  · rename_i hchain
    refine pairwise_append.mpr ⟨h,sort_pairwise (fun b : Box δ => b.gen.number) _,?_⟩
    intro old hold box hbox
    obtain ⟨hm,hid⟩ := mem_filter.mp ((mem_insertionSort _).mp hbox)
    apply hb box hm old
    rw [of_decide_eq_true hid,← hchain]
    exact hold
  · rw [append_nil]
    exact h

theorem patchFullCache_coherent (hn : order.Nodup) (hc : ∀ box ∈ boxes, box.id ∈ order)
    {cache : String → Option (CachedEntityBox δ)} (h : Coherent log chain cache id) :
    Coherent (log++(histories order boxes).map (fun b => (chain,b))) chain
      (patchFullCache cache boxes) id := by
  have hwrites := call_writes chain chain id log hn hc
  rw [if_pos rfl] at hwrites
  unfold Coherent patchFullCache
  rcases hlast : lastOf Box.id boxes id with _ | box
  · have hnone : boxes.filter (fun b => b.id = id) = [] := getLast?_eq_none_iff.mp hlast
    rw [hnone,insertionSort_nil,append_nil] at hwrites
    exact ⟨h.1,preValue_congr hwrites h.2⟩
  have hid := lastOf_key Box.id hlast
  have hpos : 0 < (boxes.filter (fun b => b.id = id)).length :=
    length_pos_of_mem (mem_of_getLast? hlast)
  have hold : ((cache id).map CachedEntityBox.version).getD 0 = (writesOf log chain id).length := by
    have hv := h.2
    cases hcache : cache id with
    | none =>
      rw [hcache] at hv
      rw [show writesOf log chain id = [] from hv]
      rfl
    | some c =>
      rw [hcache] at hv
      exact hv.1
  refine ⟨?_,?_,?_⟩
  · intro c hcache
    cases hcache
    exact hid
  · rw [hold,hwrites,length_append,length_insertionSort]
  · exact Nat.add_pos_right _ hpos

theorem cache_inv {s : Store δ ε} (h : Inv kit s)
    {loaded : Option (String → Option (CachedEntityBox δ))}
    (hl : ∀ cache ∈ loaded, ∀ id, Coherent s.tables.log chain cache id) :
    Inv kit {s with fullCache := update s.fullCache chain loaded} := by
  refine ⟨h.books,h.ascending,fun c cache hcache id => ?_⟩
  dsimp only at hcache
  by_cases hc : c = chain
  · subst hc
    rw [update_self] at hcache
    exact hl cache hcache id
  · rw [update_of_ne hc] at hcache
    exact h.cached c cache hcache id

theorem loadFullCache_coherent (h : Books kit t)
    : Coherent t.log chain (loadFullCache kit t.raw chain) id := by
  constructor
  · intro c hc
    obtain ⟨r,hr,rfl⟩ := Option.map_eq_some_iff.mp hc
    exact lastOf_key (fun r : EntityRow δ => r.id) hr
  have hv := listed_preValue h chain id (fun _ => true) rfl
  unfold loadFullCache
  rw [Option.map_map]
  exact hv

section
variable [DecidableEq ε]

theorem setEntities_inv {s : Store δ ε} (h : Inv kit s) {merges : ℕ → List (Row ε × Row ε)}
    (hn : order.Nodup) (hc : ∀ box ∈ boxes, box.id ∈ order)
    (hb : ∀ box ∈ boxes, ∀ old ∈ writesOf s.tables.log chain box.id,
      old.gen.number ≤ box.gen.number) :
    Inv kit
      { tables := (setEntities kit chain (s.fullCache chain) merges order boxes s.tables).1
        fullCache := update s.fullCache chain
          ((s.fullCache chain).map (fun cache => patchFullCache cache boxes)) } := by
  obtain ⟨hbooks,hlog⟩ := setEntities_books h.books (fun get hget => h.cached chain get hget)
  refine ⟨hbooks,?_,?_⟩
  · intro c id
    rw [hlog]
    exact call_ascending hn hc hb (h.ascending c id)
  intro c cache hcache id
  dsimp only at hcache ⊢
  rw [hlog]
  by_cases he : c = chain
  · subst he
    rw [update_self,Option.map_eq_some_iff] at hcache
    obtain ⟨old,hold,rfl⟩ := hcache
    exact patchFullCache_coherent hn hc (h.cached c old hold id)
  rw [update_of_ne he] at hcache
  obtain ⟨hbox,hv⟩ := h.cached c cache hcache id
  refine ⟨hbox,preValue_congr ?_ hv⟩
  rw [call_writes chain c id _ hn hc,if_neg he,append_nil]

theorem reorg_inv {s : Store δ ε} (h : Inv kit s) {before after : List (Row ε × Row ε)}
    {e : Store δ ε} (he : step kit s (.reorg chain blockNumber before after) = some e) : Inv kit e := by
  rw [← some.inj he]
  refine ⟨reorg_books h.books h.ascending,?_,?_⟩
  · intro c id
    rw [writesOf_reorg]
    split
    · exact List.Pairwise.filter _ (h.ascending c id)
    · exact h.ascending c id
  intro c cache hcache id
  dsimp only at hcache ⊢
  by_cases hc : c = chain
  · subst hc
    simp at hcache
  rw [update_of_ne hc] at hcache
  obtain ⟨hbox,hv⟩ := h.cached c cache hcache id
  exact ⟨hbox,preValue_congr (by rw [writesOf_reorg,if_neg hc]) hv⟩

theorem step_inv (s e : Store δ ε) (event : Event δ ε) (h : Inv kit s)
    (ho : InOrder s event) (hs : step kit s event = some e) : Inv kit e := by
  cases event with
  | setEntities chain order boxes merges =>
    rw [← some.inj hs]
    exact setEntities_inv h ho.1 ho.2.1 ho.2.2
  | reorg chain blockNumber before after => exact reorg_inv h hs
  | merge merges =>
    rw [← some.inj hs]
    exact ⟨collapse_books h.books merges,h.ascending,h.cached⟩
  | loadCache chain =>
    rw [← some.inj hs]
    apply cache_inv h
    intro cache hcache id
    cases hcache
    exact loadFullCache_coherent h.books
  | dropCache chain =>
    rw [← some.inj hs]
    exact cache_inv h (by simp)

end

/-- What the signs of an entity in a table say about its writes. -/
structure Balanced (kit : Kit δ ε) (chain id : String) (writes : List (Box δ))
    (table : List (Row ε)) : Prop where
  zero_or_one : ∀ version, signSum table chain id version = 0 ∨ signSum table chain id version = 1
  unique : ∀ v w, signSum table chain id v = 1 → signSum table chain id w = 1 → v = w
  carries : ∀ version, signSum table chain id version = 1 → ∃ box,
    writes.getLast? = some box ∧ rowsAt table chain id version = [posted kit chain box version]
  present : writes ≠ [] → ∃ version, signSum table chain id version = 1

variable {table : List (Row ε)}

def liveRows (rows : List (Row ε)) (chain id : String) : List (Row ε) :=
  rows.filter (fun r => r.chain = chain ∧ r.id = id ∧ 0 < signSum rows chain id r.version)

section
variable (h : Books kit t)
  (ht : ∀ version, Thinned (rowsAt t.raw chain id version) (rowsAt table chain id version))
include h ht

/-- The last version of an entity is the only one that is not taken back. -/
theorem thinned_sum (version : ℕ) : signSum table chain id version =
      if 0 < version ∧ version = (writesOf t.log chain id).length then 1 else 0 := by
  rcases ht version with heq | ⟨hnil,hlen⟩
  · rw [signSum,heq]
    exact raw_sum h chain id version
  have hlt := entries_length_two (h.raw chain id version) hlen
  rw [signSum,hnil,if_neg (by omega)]
  rfl

theorem balanced_of_thinned : Balanced kit chain id (writesOf t.log chain id) table := by
  have hsum := thinned_sum h ht
  have hone : ∀ version, signSum table chain id version = 1 →
      0 < version ∧ version = (writesOf t.log chain id).length := by
    intro version hv
    rw [hsum] at hv
    by_contra hn
    rw [if_neg hn] at hv
    cases hv
  constructor
  · intro version
    rw [hsum]
    split
    · exact .inr rfl
    · exact .inl rfl
  · intro v w hv hw
    rw [(hone v hv).2,(hone w hw).2]
  · intro version hv
    obtain ⟨hpos,hlen⟩ := hone version hv
    rcases entries_cases kit chain _ version _ (h.raw chain id version) with
      ⟨-,hbad⟩ | ⟨box,hbox,-,hrows⟩ | ⟨box,next,r,-,hbad,-⟩
    · omega
    · refine ⟨box,hbox,?_⟩
      rcases ht version with heq | ⟨hnil,htwo⟩
      · rw [heq,hrows]
      · rw [hrows] at htwo
        simp at htwo
    · omega
  · intro hw
    exact ⟨_,by rw [hsum,if_pos ⟨length_pos_iff.mpr hw,rfl⟩]⟩

theorem liveRows_of_thinned :
    liveRows table chain id = rowsAt t.raw chain id (writesOf t.log chain id).length := by
  rcases Nat.eq_zero_or_pos (writesOf t.log chain id).length with hzero | hpos
  · rw [hzero,show rowsAt t.raw chain id 0 = [] from h.raw chain id 0]
    apply filter_eq_nil_iff.mpr
    intro r _
    rw [thinned_sum h ht,if_neg (by omega)]
    simp
  have hlast : rowsAt table chain id (writesOf t.log chain id).length =
      rowsAt t.raw chain id (writesOf t.log chain id).length := by
    rcases ht (writesOf t.log chain id).length with heq | ⟨-,hlen⟩
    · exact heq
    · exact absurd (entries_length_two (h.raw chain id _) hlen) (lt_irrefl _)
  rw [← hlast]
  apply filter_congr
  intro r _
  rw [thinned_sum h ht]
  by_cases hv : r.version = (writesOf t.log chain id).length
  · simp [hv,hpos]
  · simp [hv]

end

theorem run_inv [DecidableEq ε] {events : List (Event δ ε)} {e : Store δ ε}
    (ho : Throughout (step kit) InOrder newStore events)
    (h : run (step kit) newStore events = some e) : Inv kit e :=
  run_invariant_throughout (step kit) InOrder (Inv kit)
    (fun s event e hs ho he => step_inv s e event hs ho he) events _ e newStore_inv ho h

/-- In every run of writes and reorgs, with caches and merges at any time, the only version of an
entity with sum one is the row of its last write that was not undone. -/
theorem versioned_signs_balanced [DecidableEq ε] (kit : Kit δ ε) (events : List (Event δ ε))
    (e : Store δ ε) (ho : Throughout (step kit) InOrder newStore events)
    (h : run (step kit) newStore events = some e) (chain id : String) :
    Balanced kit chain id (writesOf e.tables.log chain id) e.tables.raw ∧
      Balanced kit chain id (writesOf e.tables.log chain id) e.tables.latest := by
  have hinv := run_inv ho h
  exact ⟨balanced_of_thinned hinv.books (fun _ => .inl rfl),
    balanced_of_thinned hinv.books (hinv.books.latest chain id)⟩

/-- The write of an entity with the greatest version up to a block. -/
def LastUpTo (blockNumber : ℤ) (raw : List (Row ε)) (chain id : String) (r : Row ε) : Prop :=
  r ∈ upTo blockNumber chain raw ∧ r.id = id ∧ r.sign = 1 ∧
    ∀ o ∈ upTo blockNumber chain raw, o.id = id → o.version ≤ r.version

/-- The rows are the last one up to a block, or none when there is none. -/
def Restored (blockNumber : ℤ) (raw : List (Row ε)) (chain id : String) (rows : List (Row ε)) :
    Prop :=
  (∃ r, rows = [r] ∧ LastUpTo blockNumber raw chain id r) ∨
    rows = [] ∧ ∀ r ∈ upTo blockNumber chain raw, r.id ≠ id

theorem mem_upTo_iff {r : Row ε} : r ∈ upTo blockNumber chain rows ↔
      r ∈ rowsAt (reorgInTable blockNumber chain rows) chain r.id r.version := by
  rw [rowsAt_reorg,if_pos rfl,mem_filter,mem_rowsAt]
  simp [upTo,UpTo,and_assoc]

theorem restored_of_books {latest : List (Row ε)}
    (h : Books kit ⟨reorgInTable blockNumber chain raw,latest,log⟩) :
    Restored blockNumber raw chain id (liveRows latest chain id) := by
  have hrows : ∀ r ∈ upTo blockNumber chain raw, r.id = id →
      0 < r.version ∧ r.version ≤ (writesOf log chain id).length := by
    rintro r hr rfl
    have hm := mem_upTo_iff.mp hr
    rcases entries_cases kit chain _ _ _ (h.raw chain r.id r.version) with
      ⟨hnil,-⟩ | ⟨box,hbox,hv,-⟩ | ⟨-,-,-,hpos,hlt,-⟩
    · rw [hnil] at hm
      cases hm
    · have hne := ne_nil_of_mem (mem_of_getLast? hbox)
      have hlen := length_pos_iff.mpr hne
      dsimp only at hv hlen
      omega
    · exact ⟨hpos,hlt.le⟩
  rw [liveRows_of_thinned h (h.latest chain id)]
  rcases entries_cases kit chain _ _ _ (h.raw chain id (writesOf log chain id).length) with
    ⟨hnil,hout⟩ | ⟨box,-,-,hlast⟩ | ⟨-,-,-,-,hlt,-⟩
  · refine .inr ⟨hnil,fun r hr hid => ?_⟩
    have := hrows r hr hid
    dsimp only at hout
    omega
  · have hm : posted kit chain box (writesOf log chain id).length ∈
        rowsAt (reorgInTable blockNumber chain raw) chain id (writesOf log chain id).length := by
      rw [hlast]
      exact mem_singleton_self _
    have hid := ((mem_rowsAt _ _ _ _ _).mp hm).2.2.1
    refine .inl ⟨_,hlast,mem_upTo_iff.mpr (by rw [hid]; exact hm),hid,rfl,?_⟩
    exact fun o ho hoid => (hrows o ho hoid).2
  · exact absurd hlt (lt_irrefl _)

/-- After a reorg the live rows of every entity are its last raw row up to the block, whatever
pairs the database has merged away. -/
theorem reorg_restores_last_rows [DecidableEq ε] (kit : Kit δ ε) (events : List (Event δ ε))
    (s : Store δ ε) (ho : Throughout (step kit) InOrder newStore events)
    (h : run (step kit) newStore events = some s) (chain : String) (blockNumber : ℤ)
    (before after : List (Row ε × Row ε)) (id : String) :
    Restored blockNumber s.tables.raw chain id
      (liveRows (reorgInVersionedLatestTable blockNumber chain after
        (collapse s.tables.latest before) (reorgInTable blockNumber chain s.tables.raw))
        chain id) := by
  have hinv := run_inv ho h
  exact restored_of_books (reorg_books hinv.books hinv.ascending)

end

def plain : Kit ℕ ℕ := ⟨id,id,0,2⟩

def boxAt (number : ℕ) (data : Option ℕ) : Box ℕ := ⟨"a",data,⟨number,0, "h"⟩⟩

def rowAt (number version : ℕ) (sign : ℤ) (data : ℕ) : Row ℕ :=
  ⟨"1", "a",data,false,⟨number,0, "h"⟩,sign,version⟩

/-- The database merges versions 1 and 2 away, the second of which is the last
one after the reorg. -/
def mergedAndUndone : List (Event ℕ ℕ) :=
  [.setEntities "1" ["a"] [boxAt 2 (some 20),boxAt 1 (some 10)] (fun _ => []),.loadCache "1",
    .setEntities "1" ["a"] [boxAt 3 none] (fun _ => [(rowAt 1 1 1 10,rowAt 2 1 (-1) 10)]),
    .merge [(rowAt 2 2 1 20,rowAt 3 2 (-1) 20)],.reorg "1" 2 [] []]

theorem versioned_signs_undone : ∃ e, run (step plain) newStore mergedAndUndone = some e ∧
      rowsAt e.tables.latest "1" "a" 2 = [rowAt 2 2 1 20] ∧
      Balanced plain "1" "a" (writesOf e.tables.log "1" "a") e.tables.raw ∧
      Balanced plain "1" "a" (writesOf e.tables.log "1" "a") e.tables.latest :=
  ⟨_,rfl,by decide,versioned_signs_balanced plain mergedAndUndone _ (by decide) rfl "1" "a"⟩

theorem reorg_restores_merged_row :
    ∃ s, run (step plain) newStore (mergedAndUndone.take 4) = some s ∧
      rowsAt s.tables.latest "1" "a" 2 = [] ∧
      Restored 2 s.tables.raw "1" "a" (liveRows (reorgInVersionedLatestTable 2 "1" []
        (collapse s.tables.latest []) (reorgInTable 2 "1" s.tables.raw)) "1" "a") :=
  ⟨_,rfl,by decide,reorg_restores_last_rows plain (mergedAndUndone.take 4) _ (by decide) rfl "1"
    2 [] [] "a"⟩

end Sentio.VersionedRuns
