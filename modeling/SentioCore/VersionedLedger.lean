import SentioCore.VersionedTable

/-!
# The books of the versioned tables

The raw table holds, for the writes of an entity in their order, the row of
every write under its number and the row that takes it back, stamped with the
block of the next write. The latest table lacks nothing but pairs that cancel
out.
-/

namespace Sentio.VersionedLedger
open VersionedTable List KeyedRows Function

section
variable {δ ε : Type}

def writesOf (log : List (String × Box δ)) (chain id : String) : List (Box δ) :=
  (log.filter (fun e => e.1 = chain ∧ e.2.id = id)).map Prod.snd

def posted (kit : Kit δ ε) (chain : String) (box : Box δ) (version : ℕ) : Row ε :=
  kit.valuesForSet {box with chain := chain, sign := 1, version := version}

structure TakesBack (chain : String) (next : Box δ) (version : ℕ) (r : Row ε) : Prop where
  chain : r.chain = chain
  id : r.id = next.id
  gen : r.gen = next.gen
  sign : r.sign = -1
  version : r.version = version

def Entries (kit : Kit δ ε) (chain : String) (writes : List (Box δ)) (version : ℕ)
    (rows : List (Row ε)) : Prop :=
  match version with
  | 0 => rows = []
  | i+1 =>
    match writes[i]?, writes[i+1]? with
    | none, _ => rows = []
    | some box, none => rows = [posted kit chain box (i+1)]
    | some box, some next => ∃ r, TakesBack chain next (i+1) r ∧
        rows = [posted kit chain box (i+1),r]

/-- The rows of a version in the latest table: those of the raw table, or none
when they cancel out. -/
def Thinned (raw latest : List (Row ε)) : Prop :=
  latest = raw ∨ latest = [] ∧ raw.length = 2

structure Books (kit : Kit δ ε) (t : Tables δ ε) : Prop where
  raw : ∀ chain id version, Entries kit chain (writesOf t.log chain id) version
    (rowsAt t.raw chain id version)
  latest : ∀ chain id version, Thinned (rowsAt t.raw chain id version)
    (rowsAt t.latest chain id version)

theorem rowsAt_append (a b : List (Row ε)) (chain id : String) (version : ℕ) :
    rowsAt (a++b) chain id version = rowsAt a chain id version++rowsAt b chain id version :=
  filter_append ..

theorem mem_rowsAt (rows : List (Row ε)) (a : Row ε) (chain id : String) (version : ℕ) :
    a ∈ rowsAt rows chain id version ↔
      a ∈ rows ∧ a.chain = chain ∧ a.id = id ∧ a.version = version := by
  simp [rowsAt]

theorem writesOf_append (a b : List (String × Box δ)) (chain id : String) :
    writesOf (a++b) chain id = writesOf a chain id++writesOf b chain id := by
  simp [writesOf]

variable {id : String} {box : Box δ} {chain c : String}

theorem writesOf_one :
    writesOf [(c,box)] chain id = if c = chain ∧ box.id = id then [box] else [] := by
  by_cases h : c = chain ∧ box.id = id
  · simp [writesOf,h]
  · simp only [writesOf,filter_cons,filter_nil]
    simp [h]

variable {v version : ℕ}

theorem posted_rowsAt {kit : Kit δ ε} : rowsAt [posted kit c box v] chain id version =
      if c = chain ∧ box.id = id ∧ v = version then [posted kit c box v] else [] := by
  simp [rowsAt,filter_cons,posted,Kit.valuesForSet]

variable {r : Row ε}

theorem takesBack_rowsAt {next : Box δ} (h : TakesBack c next v r) :
    rowsAt [r] chain id version = if c = chain ∧ next.id = id ∧ v = version then [r] else [] := by
  simp [rowsAt,filter_cons,h.chain,h.id,h.version]

variable {kit : Kit δ ε} {rows : List (Row ε)} {writes : List (Box δ)}

theorem entries_concat (h : Entries kit chain writes version rows)
    (hr : TakesBack chain box writes.length r) :
    Entries kit chain (writes++[box]) version
      (rows++(if version = writes.length ∧ 0 < version then [r] else [])++
        (if version = writes.length+1 then [posted kit chain box version] else [])) := by
  rcases version with _ | i
  · have hrows : rows = [] := h
    simp [Entries,hrows]
  unfold Entries at h ⊢
  dsimp only at h ⊢
  rcases lt_trichotomy (i+1) writes.length with hlt | heq | hgt
  · rw [getElem?_append_left (by omega),getElem?_append_left hlt,
      if_neg (by omega),if_neg (by omega),append_nil,append_nil]
    exact h
  · rw [getElem?_append_left (by omega),getElem?_append_right (by omega),
      if_pos (by omega),if_neg (by omega)]
    rw [getElem?_eq_none (by omega : writes.length ≤ i+1)] at h
    obtain ⟨last,hlast⟩ : ∃ last, writes[i]? = some last :=
      ⟨_,getElem?_eq_getElem (by omega)⟩
    rw [hlast] at h ⊢
    rw [show i+1-writes.length = 0 by omega]
    exact ⟨r,heq ▸ hr,by rw [h]; rfl⟩
  · rw [getElem?_eq_none (by omega : writes.length ≤ i)] at h
    have hrows : rows = [] := h
    rw [if_neg (by omega),hrows]
    by_cases hi : i = writes.length
    · simp [hi]
    · rw [getElem?_eq_none (by simp; omega),if_neg (by omega)]
      rfl

/-- A version that is taken back has two rows, the last version has one. -/
theorem entries_cases (kit : Kit δ ε) (chain : String) (writes : List (Box δ)) (version : ℕ)
    (rows : List (Row ε)) (h : Entries kit chain writes version rows) :
    (rows = [] ∧ (version = 0 ∨ writes.length < version)) ∨
      (∃ box, writes.getLast? = some box ∧ version = writes.length ∧
        rows = [posted kit chain box version]) ∨
      ∃ (box next : Box δ) (r : Row ε), 0 < version ∧ version < writes.length ∧
        TakesBack chain next version r ∧ rows = [posted kit chain box version,r] := by
  rcases version with _ | i
  · exact .inl ⟨h,.inl rfl⟩
  unfold Entries at h
  dsimp only at h
  split at h
  · rename_i hnone
    exact .inl ⟨h,.inr (Nat.lt_succ_of_le (getElem?_eq_none_iff.mp hnone))⟩
  · rename_i box hbox hnone
    have hlen := getElem?_eq_none_iff.mp hnone
    obtain ⟨hi,hget⟩ := List.getElem?_eq_some_iff.mp hbox
    refine .inr (.inl ⟨box,?_,by omega,h⟩)
    rw [getLast?_eq_getElem?,show writes.length-1 = i by omega]
    exact hbox
  · rename_i box next _ hnext
    obtain ⟨hi,-⟩ := List.getElem?_eq_some_iff.mp hnext
    obtain ⟨r,hr,hrows⟩ := h
    exact .inr (.inr ⟨box,next,r,by omega,hi,hr,hrows⟩)

theorem entries_length_two (h : Entries kit chain writes version rows) (hl : rows.length = 2) :
    version < writes.length := by
  rcases entries_cases kit chain writes version rows h with
    ⟨rfl,-⟩ | ⟨box,-,-,rfl⟩ | ⟨box,next,r,-,hlt,-⟩
  · simp at hl
  · simp at hl
  · exact hlt

variable {t : Tables δ ε}

/-- One more write keeps the books. -/
theorem post_books (h : Books kit t) (r : Row ε)
    (hr : TakesBack chain box (writesOf t.log chain box.id).length r) (undo : List (Row ε))
    (hundo : undo = if 0 < (writesOf t.log chain box.id).length then [r] else []) :
    let rows := undo++[posted kit chain box ((writesOf t.log chain box.id).length+1)]
    Books kit ⟨t.raw++rows,t.latest++rows,t.log++[(chain,box)]⟩ := by
  intro rows
  have hrows : ∀ c id version, rowsAt rows c id version = if c = chain ∧ id = box.id then
      (if version = (writesOf t.log chain box.id).length ∧ 0 < version then [r] else [])++
        (if version = (writesOf t.log chain box.id).length+1 then
          [posted kit chain box version] else []) else [] := by
    intro c id version
    have hback : rowsAt undo c id version = if c = chain ∧ id = box.id ∧
        version = (writesOf t.log chain box.id).length ∧ 0 < version then [r] else [] := by
      rw [hundo]
      split
      · rw [takesBack_rowsAt hr]
        grind
      · rw [if_neg (by omega)]
        rfl
    rw [rowsAt_append,posted_rowsAt]
    grind
  constructor
  · intro c id version
    rw [rowsAt_append,writesOf_append,writesOf_one,hrows]
    by_cases hk : c = chain ∧ id = box.id
    · obtain ⟨rfl,rfl⟩ := hk
      rw [if_pos ⟨rfl,rfl⟩,if_pos ⟨rfl,rfl⟩,← append_assoc]
      exact entries_concat (h.raw c box.id version) hr
    · rw [if_neg hk,if_neg (fun he => hk ⟨he.1.symm,he.2.symm⟩),append_nil,append_nil]
      exact h.raw c id version
  intro c id version
  rw [rowsAt_append t.raw,rowsAt_append t.latest]
  rcases h.latest c id version with heq | ⟨hnil,hlen⟩
  · exact .inl (by rw [heq])
  have hlt := entries_length_two (h.raw c id version) hlen
  have hnone : rowsAt rows c id version = [] := by
    rw [hrows]
    split
    · rename_i hk
      obtain ⟨rfl,rfl⟩ := hk
      rw [if_neg (by omega),if_neg (by omega)]
      rfl
    · rfl
  rw [hnone,hnil,append_nil]
  exact .inr ⟨rfl,hlen⟩

/-- The pre-values of some ids are the last versions in the tables. -/
structure Known (log : List (String × Box δ)) (chain : String)
    (pre : String → Option (EntityRow δ)) (ids : List String) : Prop where
  sound : ∀ id r, pre id = some r → r.chain = chain ∧ r.id = id ∧
    r.version = (writesOf log chain id).length ∧ 0 < r.version
  complete : ∀ id ∈ ids, pre id = none → writesOf log chain id = []

variable {ids : List String}

theorem writeBox_spec (t : Tables δ ε) {p : List (Row ε) × (String → Option (EntityRow δ))}
    (box : Box δ) (hb : Books kit ⟨t.raw++p.1,t.latest++p.1,t.log⟩)
    (hk : Known t.log chain p.2 ids) (hid : box.id ∈ ids) : let q := writeBox kit chain p box
    Books kit ⟨t.raw++q.1,t.latest++q.1,t.log++[(chain,box)]⟩ ∧
      Known (t.log++[(chain,box)]) chain q.2 ids := by
  have hwrites : ∀ id, writesOf (t.log++[(chain,box)]) chain id =
      writesOf t.log chain id++if box.id = id then [box] else [] := by
    intro id
    rw [writesOf_append,writesOf_one]
    simp
  have hknown : ∀ cur : EntityRow δ, cur.chain = chain → cur.id = box.id →
      cur.version = (writesOf t.log chain box.id).length+1 →
      Known (t.log++[(chain,box)]) chain (update p.2 box.id (some cur)) ids := by
    intro cur hchain hcur hversion
    constructor
    · intro id r hr
      rw [hwrites]
      by_cases he : id = box.id
      · obtain rfl : cur = r := by simpa [he] using hr
        rw [he]
        exact ⟨hchain,hcur,by simpa using hversion,by omega⟩
      · rw [if_neg (Ne.symm he),append_nil]
        exact hk.sound id r (by simpa [update_of_ne he] using hr)
    · intro id hm hnone
      by_cases he : id = box.id
      · simp [he] at hnone
      · rw [hwrites,if_neg (Ne.symm he),append_nil]
        exact hk.complete id hm (by simpa [update_of_ne he] using hnone)
  unfold writeBox
  split
  · rename_i hnone
    have hzero := hk.complete box.id hid hnone
    have hpost := post_books hb
      (kit.valuesForSet {box with chain := chain, sign := -1, version := 0})
      (by
        rw [hzero]
        exact ⟨rfl,rfl,rfl,rfl,rfl⟩) [] (by rw [hzero]; rfl)
    dsimp only at hpost ⊢
    rw [hzero,append_assoc,append_assoc] at hpost
    exact ⟨hpost,hknown _ rfl rfl (by rw [hzero]; rfl)⟩
  · rename_i pre hpre
    obtain ⟨hchain,hpid,hversion,hpos⟩ := hk.sound box.id pre hpre
    have hpost := post_books hb (kit.valuesForSet {pre with sign := -1, gen := box.gen})
      ⟨hchain,hpid,rfl,rfl,hversion⟩ _ (if_pos (by dsimp only; omega)).symm
    dsimp only at hpost ⊢
    rw [← hversion,append_assoc,append_assoc] at hpost
    exact ⟨hpost,hknown _ rfl rfl (by rw [← hversion])⟩

theorem writeBoxes_spec (t : Tables δ ε)
    {queue : List (Box δ)} (p : List (Row ε) × (String → Option (EntityRow δ)))
    (hb : Books kit ⟨t.raw++p.1,t.latest++p.1,t.log⟩) (hk : Known t.log chain p.2 ids)
    (hids : ∀ box ∈ queue, box.id ∈ ids) : let q := queue.foldl (writeBox kit chain) p
    Books kit ⟨t.raw++q.1,t.latest++q.1,t.log++queue.map (fun b => (chain,b))⟩ ∧
      Known (t.log++queue.map (fun b => (chain,b))) chain q.2 ids := by
  induction queue generalizing t p with
  | nil => simpa using ⟨hb,hk⟩
  | cons box rest ih =>
    obtain ⟨hb1,hk1⟩ := writeBox_spec t box hb hk (hids box (by simp))
    have hrest := ih ⟨t.raw,t.latest,t.log++[(chain,box)]⟩ (writeBox kit chain p box) hb1 hk1
      (fun b hm => hids b (by simp [hm]))
    simpa using hrest

theorem thinned_trans {a b c : List (Row ε)} (hab : Thinned a b) (hbc : Thinned b c) :
    Thinned a c := by
  rcases hab with rfl | ⟨rfl,ha⟩
  · exact hbc
  rcases hbc with rfl | ⟨_,hb⟩
  · exact .inr ⟨rfl,ha⟩
  · simp at hb

theorem entries_short (h : Entries kit chain writes version rows) : rows.length ≤ 2 := by
  rcases entries_cases kit chain writes version rows h with
    ⟨rfl,-⟩ | ⟨box,-,-,rfl⟩ | ⟨box,next,r,-,-,-,rfl⟩
  · simp
  · simp
  · simp

theorem books_short (kit : Kit δ ε) (t : Tables δ ε) (h : Books kit t) (chain id : String)
    (version : ℕ) : (rowsAt t.latest chain id version).length ≤ 2 := by
  rcases h.latest chain id version with heq | ⟨hnil,-⟩
  · rw [heq]
    exact entries_short (h.raw chain id version)
  · simp [hnil]

section
variable [DecidableEq ε]

theorem rowsAt_erase {a : Row ε} :
    rowsAt (rows.erase a) chain id version = (rowsAt rows chain id version).erase a :=
  filter_erase

theorem collapsePair_thinned (pair : Row ε × Row ε)
    (h : (rowsAt rows chain id version).length ≤ 2) :
    Thinned (rowsAt rows chain id version) (rowsAt (collapsePair rows pair) chain id version) := by
  unfold collapsePair
  split
  · rename_i hc
    obtain ⟨ha,hb,hchain,hid,hversion,-⟩ := hc
    rw [rowsAt_erase,rowsAt_erase]
    by_cases hk : pair.1.chain = chain ∧ pair.1.id = id ∧ pair.1.version = version
    · have ha' : pair.1 ∈ rowsAt rows chain id version := (mem_rowsAt ..).mpr ⟨ha,hk⟩
      have hb' : pair.2 ∈ (rowsAt rows chain id version).erase pair.1 := by
        rw [← rowsAt_erase,mem_rowsAt,← hchain,← hid,← hversion]
        exact ⟨hb,hk⟩
      have h1 := length_erase_of_mem ha'
      have h2 := length_erase_of_mem hb'
      have hpos := length_pos_of_mem hb'
      exact .inr ⟨eq_nil_of_length_eq_zero (by omega),by omega⟩
    · have ha' : pair.1 ∉ rowsAt rows chain id version := fun hm => hk ((mem_rowsAt ..).mp hm).2
      have hb' : pair.2 ∉ rowsAt rows chain id version := by
        intro hm
        rw [mem_rowsAt,← hchain,← hid,← hversion] at hm
        exact hk hm.2
      rw [erase_of_not_mem ha',erase_of_not_mem hb']
      exact .inl rfl
  · exact .inl rfl

theorem collapse_thinned (rows : List (Row ε)) (merges : List (Row ε × Row ε)) (chain id : String)
    (version : ℕ) (h : (rowsAt rows chain id version).length ≤ 2) :
    Thinned (rowsAt rows chain id version) (rowsAt (collapse rows merges) chain id version) := by
  induction merges generalizing rows with
  | nil => exact .inl rfl
  | cons pair rest ih =>
    have hpair := collapsePair_thinned pair h
    refine thinned_trans hpair (ih _ ?_)
    rcases hpair with heq | ⟨hnil,-⟩
    · rw [heq]
      exact h
    · simp [hnil]

theorem collapse_books (h : Books kit t)
    (merges : List (Row ε × Row ε)) : Books kit {t with latest := collapse t.latest merges} where
  raw := h.raw
  latest chain id version := thinned_trans (h.latest chain id version)
    (collapse_thinned t.latest merges chain id version (books_short kit t h chain id version))

end

theorem entries_sum (h : Entries kit chain writes version rows) :
    (rows.map Row.sign).sum = if 0 < version ∧ version = writes.length then 1 else 0 := by
  rcases entries_cases kit chain writes version rows h with
    ⟨rfl,hv⟩ | ⟨box,hbox,hv,rfl⟩ | ⟨box,next,r,hpos,hlt,hr,rfl⟩
  · rw [if_neg (by omega)]
    rfl
  · have hpos : 0 < writes.length := length_pos_of_mem (mem_of_getLast? hbox)
    rw [if_pos ⟨by omega,hv⟩]
    simp [posted,Kit.valuesForSet]
  · rw [if_neg (by omega)]
    simp [posted,Kit.valuesForSet,hr.sign]

theorem raw_sum (h : Books kit t) (chain id : String)
    (version : ℕ) : signSum t.raw chain id version =
      if 0 < version ∧ version = (writesOf t.log chain id).length then 1 else 0 :=
  entries_sum (h.raw chain id version)

theorem signSum_pos (h : 0 < signSum rows chain id version) : ∃ r, r ∈ rowsAt rows chain id version := by
  unfold signSum at h
  cases hrows : rowsAt rows chain id version with
  | nil => simp [hrows] at h
  | cons r rest => exact ⟨r,by simp⟩

theorem mem_liveGroups (rows : List (Row ε)) (chain id : String) (version : ℕ) :
    (id,version) ∈ liveGroups rows chain ↔ 0 < signSum rows chain id version := by
  simp only [liveGroups,mem_filter,mem_dedup,decide_eq_true_iff]
  refine ⟨fun h => h.2,fun h => ⟨?_,h⟩⟩
  obtain ⟨r,hr⟩ := signSum_pos h
  obtain ⟨hm,rfl,rfl,rfl⟩ := (mem_rowsAt ..).mp hr
  exact mem_map.mpr ⟨r,by simp [hm],rfl⟩

theorem rowsAt_keep {raw : List (Row ε)} {keep : String → Bool} :
    rowsAt (raw.filter (fun r => keep r.id)) chain id version =
      if keep id then rowsAt raw chain id version else [] := by
  unfold rowsAt
  rw [filter_filter]
  split
  · rename_i hk
    apply filter_congr
    intro r _
    by_cases hr : r.id = id
    · simp [hr,hk]
    · simp [hr]
  rename_i hk
  apply filter_eq_nil_iff.mpr
  intro r _
  by_cases hr : r.id = id
  · simp [hr,hk]
  · simp [hr]

/-- What is known of the pre-value of an id, from the cache or from the table. -/
def PreValue (log : List (String × Box δ)) (chain id : String) : Option ℕ → Prop
  | none => writesOf log chain id = []
  | some version => version = (writesOf log chain id).length ∧ 0 < version

variable {keep : String → Bool}

theorem mem_listEntities (h : Books kit t)
    {r : EntityRow δ} (hr : r ∈ listEntities kit t.raw chain keep) :
    r.chain = chain ∧ PreValue t.log chain r.id (some r.version) := by
  obtain ⟨⟨id,version⟩,hg,hrow⟩ := mem_filterMap.mp hr
  rw [mem_liveGroups] at hg
  obtain ⟨row,hhead,rfl⟩ := Option.map_eq_some_iff.mp hrow
  have hcols := ((mem_rowsAt ..).mp (mem_of_mem_head? hhead)).2
  unfold signSum at hg
  rw [rowsAt_keep] at hg
  split at hg
  · have hsum := raw_sum h chain id version
    unfold signSum at hsum
    rw [hsum] at hg
    split at hg
    · rename_i hv
      refine ⟨hcols.1,?_⟩
      change row.version = (writesOf t.log chain row.id).length ∧ 0 < row.version
      rw [hcols.2.1,hcols.2.2]
      exact ⟨hv.2,hv.1⟩
    · exact absurd hg (lt_irrefl _)
  · simp at hg

theorem listEntities_complete (h : Books kit t) (hk : keep id)
    (hw : writesOf t.log chain id ≠ []) : ∃ r ∈ listEntities kit t.raw chain keep, r.id = id := by
  have hlen := length_pos_iff.mpr hw
  have hpos : 0 < signSum (t.raw.filter (fun r => keep r.id)) chain id
      (writesOf t.log chain id).length := by
    have hsum := raw_sum h chain id (writesOf t.log chain id).length
    unfold signSum at hsum ⊢
    rw [rowsAt_keep,if_pos hk,hsum,if_pos ⟨hlen,rfl⟩]
    exact Int.one_pos
  obtain ⟨row,hrow⟩ := signSum_pos hpos
  obtain ⟨first,hfirst⟩ : ∃ first, (rowsAt (t.raw.filter (fun r => keep r.id)) chain id
      (writesOf t.log chain id).length).head? = some first := by
    cases hrows : rowsAt (t.raw.filter (fun r => keep r.id)) chain id
        (writesOf t.log chain id).length with
    | nil => simp [hrows] at hrow
    | cons a rest => exact ⟨a,rfl⟩
  have hid := ((mem_rowsAt ..).mp (mem_of_mem_head? hfirst)).2
  refine ⟨kit.scanOne first,mem_filterMap.mpr
    ⟨(id,(writesOf t.log chain id).length),(mem_liveGroups ..).mpr hpos,?_⟩,hid.2.1⟩
  rw [hfirst]
  rfl

theorem listed_preValue (h : Books kit t) (chain id : String)
    (keep : String → Bool) (hk : keep id) :
    PreValue t.log chain id ((lastOf (fun r : EntityRow δ => r.id)
      (listEntities kit t.raw chain keep) id).map EntityRow.version) := by
  cases hlast : lastOf (fun r : EntityRow δ => r.id)
      (listEntities kit t.raw chain keep) id with
  | none =>
    by_contra hw
    obtain ⟨r,hr,hid⟩ := listEntities_complete h hk hw
    exact (lastOf_eq_none _ _ _).mp hlast r hr hid
  | some r =>
    have hid := lastOf_key _ hlast
    have hr := mem_listEntities h (lastOf_mem _ hlast)
    rw [← hid]
    exact hr.2

/-- The cached box of an id is its last version in the tables. -/
def Coherent (log : List (String × Box δ)) (chain : String)
    (cache : String → Option (CachedEntityBox δ)) (id : String) : Prop :=
  (∀ c ∈ cache id, c.box.id = id) ∧
    PreValue log chain id ((cache id).map CachedEntityBox.version)

theorem preValue_congr {log more : List (String × Box δ)}
    (h : writesOf more chain id = writesOf log chain id) {version : Option ℕ}
    (hv : PreValue log chain id version) : PreValue more chain id version := by
  cases version with
  | none => exact h.trans hv
  | some version => exact ⟨by rw [h]; exact hv.1,hv.2⟩

theorem preparePreBoxes_known {getter : Option (String → Option (CachedEntityBox δ))}
    {newIds : List String} {p : Insertion δ ε} (hb : Books kit p.tables)
    (hk : Known p.tables.log chain p.preBoxes p.doneIds)
    (hg : ∀ get ∈ getter, ∀ id ∈ newIds, Coherent p.tables.log chain get id) :
    Known p.tables.log chain (preparePreBoxes kit chain getter newIds p).1
      (p.doneIds++newIds) := by
  cases getter with
  | some get =>
    constructor
    · intro id r hr
      rcases Option.or_eq_some_iff.mp hr with hpre | ⟨-,hnew⟩
      · exact hk.sound id r hpre
      split at hnew
      · rename_i hid
        obtain ⟨c,hc,rfl⟩ := Option.map_eq_some_iff.mp hnew
        obtain ⟨hbox,hversion⟩ := hg get rfl id hid
        rw [hc] at hversion
        exact ⟨rfl,hbox c hc,hversion⟩
      · cases hnew
    · intro id hm hnone
      obtain ⟨hpre,hnew⟩ := Option.or_eq_none_iff.mp hnone
      rcases mem_append.mp hm with hm | hm
      · exact hk.complete id hm hpre
      rw [if_pos hm,Option.map_eq_none_iff] at hnew
      have hversion := (hg get rfl id hm).2
      rw [hnew] at hversion
      exact hversion
  | none =>
    constructor
    · intro id r hr
      rcases Option.or_eq_some_iff.mp hr with hlast | ⟨-,hpre⟩
      · have hid := lastOf_key _ hlast
        have hr := mem_listEntities hb (lastOf_mem _ hlast)
        rw [← hid]
        exact ⟨hr.1,rfl,hr.2⟩
      · exact hk.sound id r hpre
    intro id hm hnone
    obtain ⟨hlast,hpre⟩ := Option.or_eq_none_iff.mp hnone
    rcases mem_append.mp hm with hm | hm
    · exact hk.complete id hm hpre
    have hv := listed_preValue hb chain id (fun id => id ∈ newIds) (by simpa using hm)
    rw [hlast] at hv
    exact hv

theorem writesOf_same_chain (chain id : String) (boxes : List (Box δ)) :
    writesOf (boxes.map (fun b => (chain,b))) chain id = boxes.filter (fun b => b.id = id) := by
  induction boxes with
  | nil => rfl
  | cons box rest ih =>
    rw [map_cons,← singleton_append,writesOf_append,writesOf_one,ih]
    by_cases hid : box.id = id
    · simp [hid]
    · simp [hid]

theorem writesOf_other_chain (id : String) (boxes : List (Box δ)) (h : chain ≠ c) :
    writesOf (boxes.map (fun b => (chain,b))) c id = [] := by
  simp [writesOf,h]

section
variable [DecidableEq ε]

/-- What holds before and after every batch of a call. -/
structure Batched (kit : Kit δ ε) (chain : String)
    (getter : Option (String → Option (CachedEntityBox δ))) (p : Insertion δ ε) : Prop where
  books : Books kit p.tables
  known : Known p.tables.log chain p.preBoxes p.doneIds
  cached : ∀ get ∈ getter, ∀ id, id ∉ p.doneIds → Coherent p.tables.log chain get id

variable {merges : ℕ → List (Row ε × Row ε)} {getter : Option (String → Option (CachedEntityBox δ))}

theorem flush_batched {queue : List (Box δ)} {p : Insertion δ ε} (h : Batched kit chain getter p) :
    Batched kit chain getter (flush kit chain getter merges queue p) := by
  unfold flush
  dsimp only
  generalize hnew : ((queue.map Box.id).dedup.filter (fun id => id ∉ p.doneIds)) = newIds
  have hids : ∀ box ∈ queue, box.id ∈ p.doneIds++newIds := by
    intro box hm
    by_cases hd : box.id ∈ p.doneIds
    · exact mem_append_left _ hd
    apply mem_append_right
    rw [← hnew]
    simp only [mem_filter,mem_dedup,decide_eq_true_iff]
    exact ⟨mem_map_of_mem hm,hd⟩
  have hfresh : ∀ id ∈ newIds, id ∉ p.doneIds := by
    intro id hm
    rw [← hnew] at hm
    simpa using (mem_filter.mp hm).2
  have hknown := preparePreBoxes_known h.books h.known
    (fun get hget id hm => h.cached get hget id (hfresh id hm))
  obtain ⟨hb,hk⟩ := writeBoxes_spec p.tables
    ([],(preparePreBoxes kit chain getter newIds p).1) (by simpa using h.books) hknown hids
  refine ⟨collapse_books hb (merges p.batchIndex),hk,?_⟩
  intro get hget id hid
  have hold : id ∉ p.doneIds := fun hm => hid (mem_append_left _ hm)
  have hwrites : writesOf (p.tables.log++queue.map (fun b => (chain,b))) chain id =
      writesOf p.tables.log chain id := by
    rw [writesOf_append,writesOf_same_chain,filter_eq_nil_iff.mpr,append_nil]
    intro box hm he
    exact hid (of_decide_eq_true he ▸ hids box hm)
  exact ⟨(h.cached get hget id hold).1,preValue_congr hwrites (h.cached get hget id hold).2⟩

theorem insertAll_batched
    (queue boxes : List (Box δ)) (p : Insertion δ ε) (h : Batched kit chain getter p) :
    Batched kit chain getter (insertAll kit chain getter merges queue boxes p) ∧
      (insertAll kit chain getter merges queue boxes p).tables.log =
        p.tables.log++(queue++boxes).map (fun b => (chain,b)) := by
  induction boxes generalizing queue p with
  | nil =>
    unfold insertAll
    split
    · rename_i hempty
      rw [isEmpty_iff.mp hempty]
      exact ⟨h,by simp⟩
    · exact ⟨flush_batched h,by simp [flush]⟩
  | cons box rest ih =>
    unfold insertAll
    split
    · obtain ⟨hb,hlog⟩ := ih [] _ (flush_batched h)
      refine ⟨hb,hlog.trans ?_⟩
      simp [flush]
    · obtain ⟨hb,hlog⟩ := ih (queue++[box]) p h
      exact ⟨hb,hlog.trans (by simp)⟩

theorem setEntities_books {order : List String} {boxes : List (Box δ)}
    (h : Books kit t) (hg : ∀ get ∈ getter, ∀ id, Coherent t.log chain get id) :
    Books kit (setEntities kit chain getter merges order boxes t).1 ∧
      (setEntities kit chain getter merges order boxes t).1.log =
        t.log++(histories order boxes).map (fun b => (chain,b)) := by
  have hstart : Batched kit chain getter ⟨t,fun _ => none,[],0,0⟩ :=
    ⟨h,⟨by simp,by simp⟩,fun get hget id _ => hg get hget id⟩
  obtain ⟨hb,hlog⟩ := insertAll_batched [] (histories order boxes) _ hstart
  exact ⟨hb.books,hlog⟩

end

theorem histories_filter (order : List String) (boxes : List (Box δ)) (hn : order.Nodup)
    (hc : ∀ box ∈ boxes, box.id ∈ order) (id : String) :
    (histories order boxes).filter (fun b => b.id = id) =
      (boxes.filter (fun b => b.id = id)).insertionSort
        (fun a b => a.gen.number ≤ b.gen.number) := by
  unfold histories
  rw [filter_flatMap Box.id hn]
  · split
    · rfl
    rename_i hid
    rw [filter_eq_nil_iff.mpr]
    · rfl
    · intro box hm he
      exact hid (of_decide_eq_true he ▸ hc box hm)
  · intro k box hm
    have := (mem_insertionSort _).mp hm
    exact of_decide_eq_true (mem_filter.mp this).2

end
end Sentio.VersionedLedger
