import SentioCore.BlockLinkModel
import SentioCore.Transition

/-!
# What a successful extended query vouches for

A request carries one link per block of its interval, and each of its records
bears the hash of the link of its block. For stored blocks the records are
fetched before the links, so they agree with the links as long as no link with
another hash is inserted for the block of a fetched record in between.
-/

namespace Sentio.BlockLinkRuns
open RangeModel RangeHoles RangeSetAlgebra RangeFind RangeBlocks List Except
open CacheQuery BlockLinkModel Transition
open Option (some.inj some.injEq)

def Follows (left right : BlockLink) : Prop :=
  right.number = left.number+1 ∧ right.parentHash = left.hash

variable {links : List BlockLink}

theorem checkLinks_chain (h : checkLinks links = none) : links.IsChain Follows := by
  induction links with
  | nil => exact .nil
  | cons left rest ih =>
    rcases rest with _ | ⟨right,rest⟩
    · exact .singleton left
    rw [checkLinks] at h
    split at h
    · simp at h
    rename_i hn
    split at h
    · simp at h
    case isFalse hp => exact .cons_cons ⟨not_not.mp hn,not_not.mp hp⟩ (ih h)

theorem rebuild_chain (link : BlockLink) {rest : List BlockLink}
    (h : (link::rest).IsChain Follows) :
    rebuild link.number (link.parentHash::(link::rest).map BlockLink.hash)
      ((link::rest).map BlockLink.timestamp) = link::rest := by
  induction rest generalizing link with
  | nil => rfl
  | cons next rest ih =>
    rw [isChain_cons_cons] at h
    have hrest := ih next h.2
    rw [h.1.1,h.1.2] at hrest
    simp only [map_cons,rebuild] at hrest ⊢
    rw [hrest]

variable {part : BlockHashLinkPart}

theorem part_links (h : newBlockHashLinkPart links = .ok part) :
    part.links = .ok links ∧ links.IsChain Follows := by
  rcases links with _ | ⟨first,rest⟩
  · rw [newBlockHashLinkPart,ok.injEq] at h
    rw [← h]
    exact ⟨rfl,.nil⟩
  cases hc : checkLinks (first::rest) with
  | some e => simp [newBlockHashLinkPart,hc] at h
  | none =>
    simp only [newBlockHashLinkPart,hc,ok.injEq] at h
    have hchain := checkLinks_chain hc
    rw [← h]
    refine ⟨?_,hchain⟩
    simp only [BlockHashLinkPart.links,length_cons,length_map,ne_eq,
      not_true_eq_false,if_false,rebuild_chain first hchain]

variable {r : Range} {link : BlockLink}

theorem part_hashAt
    (h : newBlockHashLinkPart links = .ok part) (hn : links.map BlockLink.number = blocks r)
    (hmem : link ∈ links) : part.hashAt link.number = some link.hash := by
  rcases links with _ | ⟨first,rest⟩
  · simp at hmem
  rcases hc : checkLinks (first::rest) with _ | e
  swap
  · simp [newBlockHashLinkPart,hc] at h
  simp only [newBlockHashLinkPart,hc,ok.injEq] at h
  obtain ⟨k,hk⟩ := getElem?_of_mem hmem
  have hat : (blocks r)[k]? = some link.number := by
    rw [← hn,getElem?_map,hk]
    rfl
  have hzero : (blocks r)[0]? = some first.number := by
    rw [← hn]
    rfl
  have hnumber := blocks_number hat
  have hfirst := blocks_number hzero
  have hle : first.number ≤ link.number := UInt64.le_iff_toNat_le.mpr (by omega)
  have hindex : (link.number-first.number).toNat = k := by
    rw [UInt64.toNat_sub_of_le _ _ hle]
    omega
  rw [← h]
  simp only [BlockHashLinkPart.hashAt,Option.bind_some,hindex,getElem?_cons_succ,
    getElem?_map,hk,Option.map_some]

/-- What is known of a block: its link, and that its records bear its hash. -/
def Vouched (n : UInt64) (e : ExBlock) : Prop :=
  ∃ link, e.link = some link ∧ link.number = n ∧
    ∀ item ∈ e.items, item.blockNumber = n ∧ item.blockHash = link.hash

variable {ns : List UInt64} {elems : List ExBlock}

theorem vouched_numbers (h : List.Forall₂ Vouched ns elems) :
    (elems.filterMap ExBlock.link).map BlockLink.number = ns := by
  induction h with
  | nil => rfl
  | cons he _ ih =>
    obtain ⟨link,hlink,hn,-⟩ := he
    rw [filterMap_cons_some hlink,map_cons,hn,ih]

variable {item : Item}

theorem vouched_items
    (h : List.Forall₂ Vouched ns elems) (hi : item ∈ elems.flatMap ExBlock.items) :
    ∃ link ∈ elems.filterMap ExBlock.link,
      link.number = item.blockNumber ∧ link.hash = item.blockHash := by
  induction h with
  | nil => simp at hi
  | cons he _ ih =>
    obtain ⟨link,hlink,hn,hitems⟩ := he
    rw [flatMap_cons,mem_append] at hi
    rw [filterMap_cons_some hlink]
    rcases hi with hi | hi
    · obtain ⟨h1,h2⟩ := hitems item hi
      exact ⟨link,mem_cons_self,by rw [hn,h1],h2.symm⟩
    · obtain ⟨found,hf,hfound⟩ := ih hi
      exact ⟨found,mem_cons_of_mem _ hf,hfound⟩

/-- The links of the part are one linked run of blocks that ends with the
requested one, and the part gives each record the hash it was recorded under. -/
structure Vouches (sn en : UInt64) (part : BlockHashLinkPart) (items : List Item) : Prop where
  linked : ∃ links, part.links = .ok links ∧
    links.map BlockLink.number = blocks ⟨sn,some en⟩ ∧ links.IsChain Follows
  recorded : ∀ item ∈ items, part.hashAt item.blockNumber = some item.blockHash
  wire : ∀ item ∈ items,
    (part.wireHash item).or (part.hashAt item.blockNumber) = some item.blockHash

variable {en : UInt64} {items : List Item} {sn : UInt64}

theorem assembleEx_vouches (helems : List.Forall₂ Vouched (blocks ⟨sn,some en⟩) elems)
    (h : assembleEx elems = .ok (part,items)) : Vouches sn en part items := by
  rcases hp : newBlockHashLinkPart (elems.filterMap ExBlock.link) with e | p
  · simp [assembleEx,hp] at h
  simp only [assembleEx,hp,ok.injEq,Prod.mk.injEq] at h
  obtain ⟨rfl,rfl⟩ := h
  obtain ⟨hlinks,hchain⟩ := part_links hp
  have hnumbers := vouched_numbers helems
  have hat : ∀ item ∈ elems.flatMap ExBlock.items,
      p.hashAt item.blockNumber = some item.blockHash := by
    intro item hi
    obtain ⟨link,hmem,hn,hh⟩ := vouched_items helems hi
    rw [← hn,← hh]
    exact part_hashAt hp hnumbers hmem
  refine ⟨⟨_,hlinks,hnumbers,hchain⟩,hat,?_⟩
  intro item hi
  rw [BlockHashLinkPart.wireHash,hat item hi]
  split <;> rfl

variable {q : Request}

theorem collectFromSlot_vouched {st : Slot}
    (h : collectFromSlot q st = .ok elems) : ∃ e, elems = [e] ∧ Vouched st.link.number e := by
  have hown : Vouched st.link.number ⟨some st.link,st.items.filter q.checker⟩ :=
    ⟨st.link,rfl,rfl,fun item hi => st.own item (mem_of_mem_filter hi)⟩
  cases hm : q.method with
  | logs =>
    simp only [collectFromSlot,hm,ok.injEq] at h
    exact ⟨_,h.symm,hown⟩
  | traces =>
    simp only [collectFromSlot,hm] at h
    split at h
    · simp at h
    · exact ⟨_,(ok.inj h).symm,hown⟩

theorem lists_vouched {w : LatestWindow} (elems : List ExBlock)
    (hin : ∀ n ∈ ns, w.curRange.contains n)
    (h : Lists (fun n => (collectFromSlot q (w.memCache n)).toOption) ns elems) :
    List.Forall₂ Vouched ns elems := by
  induction ns generalizing elems with
  | nil =>
    rw [h.2]
    exact .nil
  | cons n rest ih =>
    have hsome := h.1 n mem_cons_self
    rcases hc : collectFromSlot q (w.memCache n) with e | own
    · simp [hc,Except.toOption] at hsome
    obtain ⟨e,rfl,he⟩ := collectFromSlot_vouched hc
    rw [w.keyed n (hin n mem_cons_self)] at he
    rw [h.2,flatMap_cons]
    simp only [hc]
    exact .cons he (ih _ (fun m hm => hin m (mem_cons_of_mem _ hm))
      ⟨fun m hm => h.1 m (mem_cons_of_mem _ hm),rfl⟩)

/-- The requested end is not above a head of the cache. -/
def Reaches (w : LatestWindow) (en : UInt64) : Prop :=
  w.curRange.isEmpty ∨ en.toNat ≤ top w.curRange.stop

def asked (_ : Unit) (queryRange : Range) : Except (Failure Refusal) (Unit × List Range) :=
  .ok ((),[queryRange])

variable {rest : Option Range} {interval : Range}

theorem loadRest_asked {cur : Range} (h : restRange interval cur = .ok rest) :
    loadRest interval cur asked () [] = .ok ((),rest.toList) := by
  rw [loadRest_restRange,h]
  cases rest with
  | none | some queryRange => rfl

variable {w : LatestWindow}

theorem covered_reached (hreach : Reaches w en) :
    covered w.toWindow ⟨sn,some en⟩ = blocks ⟨sn,some en⟩ := by
  cases hw : w.curRange.isEmpty with
  | true => exact covered_of_empty _ hw
  | false =>
    have hle := hreach.resolve_left (by simp [hw])
    rw [covered_of_nonempty _ hw,top_some,Nat.min_eq_left hle]
    rfl

theorem restRange_blocks (hi : Range.isEmpty ⟨sn,some en⟩ = false) (hreach : Reaches w en)
    (hb : (Range.intersection ⟨sn,some en⟩ w.curRange).stop ≠ some maxUint64)
    (h : restRange ⟨sn,some en⟩ w.curRange = .ok rest) :
    rest.toList.flatMap blocks++blocks (Range.intersection ⟨sn,some en⟩ w.curRange) =
      blocks ⟨sn,some en⟩ := by
  have hload := loadRest_asked h
  rw [← covered_reached hreach]
  cases hw : w.curRange.isEmpty with
  | true =>
    rw [loadRest_of_empty _ _ _ hi hw,loadInFront,asked] at hload
    have hrest : rest.toList = [⟨sn,some en⟩] := by simpa using hload.symm
    rw [hrest,covered_of_empty _ hw]
    simp [Range.intersection,hw,blocks_empty Range.empty rfl]
  | false =>
    by_cases hlt : sn.toNat < w.curRange.start.toNat
    · cases hstop : w.curRange.stop with
      | none =>
        have hempty := (loadRest_of_infinite hw hstop hload)
        have hrest : rest.toList = [] := hempty.2
        rw [covered_split hi hw hlt,blocks_empty _ hempty.1,hrest]
        rfl
      | some head =>
        rw [loadRest_of_below _ _ _ hi hw hlt hstop,loadInFront,asked] at hload
        have hrest : rest.toList = [first (Range.remove ⟨sn,some en⟩ w.curRange)] := by
          simpa using hload.symm
        rw [covered_split hi hw hlt,hrest,flatMap_singleton]
    · have hrest : rest.toList = [] := by
        cases hstop : w.curRange.stop with
        | none => exact (loadRest_of_infinite hw hstop hload).2
        | some head =>
          rw [loadRest_of_above _ _ _ hi hw (Nat.le_of_not_lt hlt) hb hstop] at hload
          simpa using hload.symm
      rw [covered_cached hi hw (Nat.le_of_not_lt hlt),hrest]
      rfl

theorem findConflict_nodup (seen links : List BlockLink) (h : findConflict seen links = none)
    (hs : (seen.map BlockLink.number).Nodup) : ((seen++links).map BlockLink.number).Nodup := by
  induction links generalizing seen with
  | nil => simpa using hs
  | cons link rest ih =>
    rw [findConflict] at h
    split at h
    · simp at h
    rename_i hnew
    have hfresh : link.number ∉ seen.map BlockLink.number := by
      simpa [any_eq_true] using hnew
    have hseen : ((seen++[link]).map BlockLink.number).Nodup := by
      rw [map_append,nodup_append]
      refine ⟨hs,by simp,?_⟩
      intro a ha b hb hab
      rw [map_singleton,mem_singleton] at hb
      exact hfresh (hb ▸ hab ▸ ha)
    simpa using ih (seen++[link]) h hseen

variable {store : Store}

theorem queryBlockLinks_mem (h : link ∈ queryBlockLinks store r) :
    link ∈ store.links ∧ r.contains link.number := by
  rw [queryBlockLinks,mem_insertionSort,mem_dedup,mem_filter] at h
  exact h

theorem ascending_unique {xs ys : List UInt64} (hx : xs.Pairwise (fun a b => a.toNat < b.toNat))
    (hy : ys.Pairwise (fun a b => a.toNat < b.toNat)) (h : ∀ n, n ∈ xs ↔ n ∈ ys) : xs = ys := by
  have hxn : xs.Nodup := hx.imp (fun hab he => by simp [he] at hab)
  have hyn : ys.Nodup := hy.imp (fun hab he => by simp [he] at hab)
  apply ((perm_ext_iff_of_nodup hxn hyn).mpr h).eq_of_pairwise _ hx hy
  omega

theorem checkStoreLinks_numbers (h : checkStoreLinks (queryBlockLinks store r) r = none) :
    (queryBlockLinks store r).map BlockLink.number = blocks r := by
  rcases hc : findConflict [] (queryBlockLinks store r) with _ | n
  swap
  · simp [checkStoreLinks,hc] at h
  have hnodup : ((queryBlockLinks store r).map BlockLink.number).Nodup := by
    simpa using findConflict_nodup [] _ hc (by simp)
  have hsorted : ((queryBlockLinks store r).map BlockLink.number).Pairwise
      (fun a b => a ≤ b) := by
    rw [pairwise_map]
    exact pairwise_insertionSort _ _
  have hfull : ∀ n ∈ blocks r, n ∈ (queryBlockLinks store r).map BlockLink.number := by
    intro n hn
    have hscan : n ∈ scanned r := by
      rw [scanned]
      split
      · exact mem_append_left _ hn
      · exact hn
    cases hf : (scanned r).find?
        (fun n => !(queryBlockLinks store r).any (fun link => link.number = n)) with
    | some m => simp [checkStoreLinks,hc,hf] at h
    | none => simpa using find?_eq_none.mp hf n hscan
  apply ascending_unique _ (blocks_pairwise r)
  · intro n
    refine ⟨?_,hfull n⟩
    intro hn
    obtain ⟨link,hl,rfl⟩ := mem_map.mp hn
    exact (mem_blocks r _).mpr (queryBlockLinks_mem hl).2
  apply (hsorted.and hnodup).imp
  intro a b hab
  have hne : a.toNat ≠ b.toNat := fun he => hab.2 (UInt64.toNat_inj.mp he)
  have hle := UInt64.le_iff_toNat_le.mp hab.1
  omega

def Agree (links : List BlockLink) (items : List Item) : Prop :=
  ∀ link ∈ links, ∀ item ∈ items, item.blockNumber = link.number → item.blockHash = link.hash

theorem exBlocksFromStore_vouched (h : Agree links items) :
    List.Forall₂ Vouched (links.map BlockLink.number) (exBlocksFromStore links items) := by
  rw [exBlocksFromStore,List.forall₂_map_left_iff,List.forall₂_map_right_iff,List.forall₂_same]
  intro link hl
  refine ⟨link,rfl,rfl,?_⟩
  intro item hi
  obtain ⟨hmem,hn⟩ := mem_filter.mp hi
  exact ⟨of_decide_eq_true hn,h link hl item hmem (of_decide_eq_true hn)⟩

/-- The cached blocks continue what is left for the store up to the requested end. -/
def Spliced (sn en : UInt64) (queryRange : Range) (cached : List ExBlock) : Prop :=
  ∃ ns, List.Forall₂ Vouched ns cached ∧ blocks queryRange++ns = blocks ⟨sn,some en⟩

def PhaseInv (q : Request) (window : LatestWindow) (store : Store) : Phase → Prop
  | .headed _ en => Reaches window en
  | .traversed sn en queryRange cached | .inScope sn en queryRange cached =>
    Spliced sn en queryRange cached
  | .queried sn en queryRange cached items =>
    Spliced sn en queryRange cached ∧ Agree store.links (items.filter q.checker)
  | .answered sn en part items => Vouches sn en part items
  | _ => True

structure WorldInv (q : Request) (w : World) : Prop where
  rows : Agree w.store.links w.store.items
  phase : PhaseInv q w.window w.store w.phase

theorem finish_inv (window : LatestWindow)
    (helems : List.Forall₂ Vouched (blocks ⟨sn,some en⟩) elems) :
    PhaseInv q window store (finish sn en elems) := by
  rw [finish]
  split
  · trivial
  cases ha : assembleEx elems with
  | error e => trivial
  | ok answer => exact assembleEx_vouches helems ha

variable {window : LatestWindow}

theorem resolve_inv : PhaseInv q window store (resolve window q) := by
  rw [resolve]
  split
  · trivial
  split
  · trivial
  · trivial
  · trivial
  split
  · trivial
  · trivial

theorem getRange_stop {latest : UInt64} (h : getRange w = .ok latest) :
    w.curRange.stop = some latest := by
  rw [getRange] at h
  split at h
  · simp at h
  cases hs : w.curRange.stop with
  | none => simp [hs] at h
  | some stop =>
    simp only [hs,ok.injEq] at h
    rw [h]

theorem checkHead_inv : PhaseInv q window store (checkHead window q sn en) := by
  rw [checkHead]
  rcases hg : getRange window with e | latest
  · trivial
  dsimp only
  split
  · trivial
  rename_i hle
  have hreach : Reaches window en := by
    right
    rw [getRange_stop hg,top_some]
    rw [UInt64.lt_iff_toNat_lt] at hle
    omega
  split
  · exact hreach
  cases checkQuerySpan sn en q.maxQueryRangeSize with
  | some e => trivial
  | none => exact hreach

variable {cached : List ExBlock}

theorem visit_vouched
    (h : visit w.memCache (stateless (collectFromSlot q)) (blocks (interval.intersection w.curRange))
      () [] = .ok ((),cached)) :
    List.Forall₂ Vouched (blocks (interval.intersection w.curRange)) cached := by
  obtain ⟨elems,he,hl⟩ := visit_lists [] cached h
  rw [he]
  apply lists_vouched elems _ hl
  intro n hn
  exact ((range_intersection_iff _ _ _).mp ((mem_blocks _ n).mp hn)).2

variable {phase : Phase}

theorem traverseCache_inv (hreach : Reaches window en)
    (h : traverseCache window q sn en = some phase) : PhaseInv q window store phase := by
  rw [traverseCache] at h
  split at h
  case isTrue hi =>
    cases h
    apply finish_inv
    rw [blocks_empty _ hi]
    exact .nil
  rename_i hi
  split at h
  · exact some.inj h ▸ trivial
  split at h
  · exact some.inj h ▸ trivial
  rename_i stop hstop
  split at h
  · simp at h
  rename_i hlast
  have hb : (Range.intersection ⟨sn,some en⟩ window.curRange).stop ≠ some maxUint64 := by
    rw [hstop]
    exact fun he => hlast (some.inj he)
  split at h
  · exact some.inj h ▸ trivial
  rename_i cached hv
  have hcached := visit_vouched hv
  split at h
  · exact some.inj h ▸ trivial
  case h_2 hrest =>
    have hblocks := restRange_blocks (by simpa using hi) hreach hb hrest
    rw [Option.toList_none,flatMap_nil,nil_append] at hblocks
    cases h
    exact finish_inv window (hblocks ▸ hcached)
  rename_i queryRange hrest
  have hblocks := restRange_blocks (by simpa using hi) hreach hb hrest
  rw [Option.toList_some,flatMap_singleton] at hblocks
  cases h
  exact ⟨_,hcached,hblocks⟩

theorem queryItems_mem {limit : ℕ} (h : queryItems store q r limit = .ok items)
    (hi : item ∈ items) : item ∈ store.items := by
  rw [queryItems] at h
  split at h
  · simp at h
  · rw [← ok.inj h,mem_insertionSort,mem_dedup] at hi
    exact mem_of_mem_filter hi

theorem loadLinks_inv {queryRange : Range}
    (hs : Spliced sn en queryRange cached) (ha : Agree store.links (items.filter q.checker)) :
    PhaseInv q window store (loadLinks store q sn en queryRange cached items) := by
  rw [loadLinks]
  cases hc : checkStoreLinks (queryBlockLinks store queryRange) queryRange with
  | some e => trivial
  | none =>
    obtain ⟨ns,hcached,hblocks⟩ := hs
    apply finish_inv
    rw [← hblocks,← checkStoreLinks_numbers hc]
    apply rel_append _ hcached
    apply exBlocksFromStore_vouched
    intro link hl
    exact ha link (queryBlockLinks_mem hl).1

theorem advance_inv (w : World) {ok : Bool} (hw : WorldInv q w)
    (h : advance q w ok = some phase) : PhaseInv q w.window w.store phase := by
  have hinv := hw.phase
  cases hp : w.phase with
  | received =>
    simp only [advance,hp,some.injEq] at h
    exact h ▸ resolve_inv
  | resolved sn en =>
    simp only [advance,hp,some.injEq] at h
    exact h ▸ checkHead_inv
  | headed sn en =>
    simp only [advance,hp] at h
    rw [hp] at hinv
    exact traverseCache_inv hinv h
  | traversed sn en queryRange cached =>
    rw [hp] at hinv
    simp only [advance,hp] at h
    split at h
    · exact some.inj h ▸ trivial
    split at h
    · exact some.inj h ▸ hinv
    · exact some.inj h ▸ trivial
  | inScope sn en queryRange cached =>
    rw [hp] at hinv
    simp only [advance,hp] at h
    split at h
    · exact some.inj h ▸ trivial
    split at h
    · exact some.inj h ▸ trivial
    rename_i items hi
    cases h
    refine ⟨hinv,?_⟩
    intro link hl item hmem
    have hrow := queryItems_mem hi (mem_of_mem_filter hmem)
    exact hw.rows link hl item hrow
  | queried sn en queryRange cached items =>
    rw [hp] at hinv
    simp only [advance,hp] at h
    split at h
    · exact some.inj h ▸ trivial
    · exact some.inj h ▸ loadLinks_inv hinv.1 hinv.2
  | answered sn en part items | failed e => simp [advance,hp] at h

/-- While the head was checked and the cache not yet traversed, the cache still
reaches the requested end. -/
def HeadStays (window : LatestWindow) : Phase → Prop
  | .headed _ en => Reaches window en
  | _ => True

/-- While the records are fetched and the links are not, no link with another
hash is inserted for the block of a fetched record. -/
def LinkFits (q : Request) (link : BlockLink) : Phase → Prop
  | .queried _ _ _ _ items => ∀ item ∈ items.filter q.checker,
    item.blockNumber = link.number → item.blockHash = link.hash
  | _ => True

def Orderly (q : Request) (w : World) : Event → Prop
  | .grow window => HeadStays window w.phase
  | .insertLink link => LinkFits q link w.phase
  | _ => True

instance (w : LatestWindow) (en : UInt64) : Decidable (Reaches w en) :=
  inferInstanceAs (Decidable (_ ∨ _))

instance (links : List BlockLink) (items : List Item) : Decidable (Agree links items) :=
  inferInstanceAs (Decidable (∀ link ∈ links, ∀ item ∈ items, _ → _))

instance (window : LatestWindow) (phase : Phase) : Decidable (HeadStays window phase) :=
  match phase with
  | .headed _ en => inferInstanceAs (Decidable (Reaches window en))
  | .received | .resolved _ _ | .traversed _ _ _ _ | .inScope _ _ _ _ | .queried _ _ _ _ _
  | .answered _ _ _ _ | .failed _ => .isTrue trivial

instance (q : Request) (link : BlockLink) (phase : Phase) : Decidable (LinkFits q link phase) :=
  match phase with
  | .queried _ _ _ _ items =>
    inferInstanceAs (Decidable (∀ item ∈ items.filter q.checker, _ → _))
  | .received | .resolved _ _ | .headed _ _ | .traversed _ _ _ _ | .inScope _ _ _ _
  | .answered _ _ _ _ | .failed _ => .isTrue trivial

instance (q : Request) (w : World) (event : Event) : Decidable (Orderly q w event) :=
  match event with
  | .grow window => inferInstanceAs (Decidable (HeadStays window w.phase))
  | .insertLink link => inferInstanceAs (Decidable (LinkFits q link w.phase))
  | .advance _ | .setRange _ | .dropLink _ | .dropItem _ | .insertItem _ => .isTrue trivial

theorem phaseInv_grow {next : LatestWindow} (hg : HeadStays next phase)
    (h : PhaseInv q window store phase) : PhaseInv q next store phase := by
  cases phase with
  | headed sn en => exact hg
  | _ => exact h

theorem phaseInv_store {next : Store}
    (hl : ∀ link ∈ next.links, link ∈ store.links ∨ LinkFits q link phase)
    (h : PhaseInv q window store phase) : PhaseInv q window next phase := by
  cases phase with
  | queried sn en queryRange cached items =>
    refine ⟨h.1,?_⟩
    intro link hmem item hi
    rcases hl link hmem with hold | hfits
    · exact h.2 link hold item hi
    · exact hfits item hi
  | _ => exact h

theorem fits_iff {number : UInt64} {hash : String} (h : fits store number hash) :
    (∀ link ∈ store.links, link.number = number → link.hash = hash) ∧
      ∀ item ∈ store.items, item.blockNumber = number → item.blockHash = hash := by
  simp only [fits,Bool.and_eq_true,all_eq_true,Bool.or_eq_true,decide_eq_true_eq] at h
  exact ⟨fun link hl hn => (h.1 link hl).resolve_left (not_not.mpr hn),
    fun item hi hn => (h.2 item hi).resolve_left (not_not.mpr hn)⟩

theorem step_inv (w : World) (event : Event) (next : World) (hw : WorldInv q w)
    (hgood : Orderly q w event) (h : step q w event = some next) : WorldInv q next := by
  cases event with
  | advance ok =>
    obtain ⟨phase,hp,rfl⟩ := Option.map_eq_some_iff.mp h
    exact ⟨hw.rows,advance_inv w hw hp⟩
  | grow window =>
    cases h
    exact ⟨hw.rows,phaseInv_grow hgood hw.phase⟩
  | setRange range =>
    cases h
    exact ⟨hw.rows,phaseInv_store (fun _ hl => .inl hl) hw.phase⟩
  | dropLink link =>
    cases h
    have hsub : ∀ l ∈ w.store.links.erase link, l ∈ w.store.links := fun _ => mem_of_mem_erase
    exact ⟨fun l hl => hw.rows l (hsub l hl),phaseInv_store (fun l hl => .inl (hsub l hl)) hw.phase⟩
  | dropItem item =>
    cases h
    exact ⟨fun l hl i hi => hw.rows l hl i (mem_of_mem_erase hi),
      phaseInv_store (fun _ hl => .inl hl) hw.phase⟩
  | insertLink link =>
    simp only [step,Option.ite_none_right_eq_some] at h
    obtain ⟨hfits,h⟩ := h
    cases h
    constructor
    · intro l hl item hi hn
      rcases mem_cons.mp hl with rfl | hl
      · exact (fits_iff hfits).2 item hi hn
      · exact hw.rows l hl item hi hn
    apply phaseInv_store _ hw.phase
    intro l hl
    rcases mem_cons.mp hl with rfl | hl
    · exact .inr hgood
    · exact .inl hl
  | insertItem item =>
    simp only [step,Option.ite_none_right_eq_some] at h
    obtain ⟨hfits,h⟩ := h
    cases h
    constructor
    · intro l hl i hi hn
      rcases mem_cons.mp hi with rfl | hi
      · exact ((fits_iff hfits).1 l hl hn.symm).symm
      · exact hw.rows l hl i hi hn
    · exact phaseInv_store (fun _ hl => .inl hl) hw.phase

section sample

def sampleWindow (n : UInt64) (hash parentHash : String) : LatestWindow where
  ready := true
  curRange := ⟨n,some n⟩
  memCache m := ⟨⟨m,hash,parentHash,60⟩,[⟨m,hash,0⟩],true,by simp⟩
  keyed _ _ := rfl

end sample

end Sentio.BlockLinkRuns
