import Mathlib.Tactic

/-!
# Scanning a file mirror

Field names are matched by a pattern whose stars stand for any text. A scan is
paged by a position in the list of the matching fields, and every call lists
the map in an order of its own.
-/

namespace Sentio.FileMirror
open List Nat

abbrev Text := List UInt8

def star : UInt8 := 42

/-- `strings.Index` -/
def index (part : Text) : Text → Option ℕ
  | [] => if part = [] then some 0 else none
  | c::rest => if part <+: c::rest then some 0 else (index part rest).map (·+1)

/-- What is left of the text behind the parts, each taken where it is found first. -/
def searchParts : Text → List Text → Option Text
  | t, [] => some t
  | t, p::ps =>
    if p = [] then searchParts t ps
    else (index p t).bind (fun i => searchParts (t.drop (i+p.length)) ps)

def matchPattern (str pattern : Text) : Bool :=
  if pattern = [] ∨ pattern = [star] then true
  else
    let parts := pattern.splitOn star
    if parts.length = 1 then str = pattern
    else if parts.headD [] ≠ [] ∧ ¬parts.headD [] <+: str then false
    else if parts.getLastD [] ≠ [] ∧ ¬parts.getLastD [] <:+ str then false
    else (searchParts (str.drop (parts.headD []).length) parts.tail.dropLast).isSome

/-- The text is cut into the parts, with any text between two of them. -/
def Cut : List Text → Text → Prop
  | [], _ => False
  | [p], s => s = p
  | p::q::ps, s => ∃ gap rest, s = p++(gap++rest) ∧ Cut (q::ps) rest

/-- The last part does not reach back into what the other parts have taken. -/
def Apart (str pattern : Text) : Prop :=
  let parts := pattern.splitOn star
  (pattern = [] → str = []) ∧
    (1 < parts.length → parts.headD [] <+: str → parts.getLastD [] <:+ str →
      ∀ rest ∈ searchParts (str.drop (parts.headD []).length) parts.tail.dropLast,
        (parts.getLastD []).length ≤ rest.length)

variable {p t : Text} {ps : List Text}

theorem index_some {i : ℕ} (h : index p t = some i) :
    p++t.drop (i+p.length) <:+ t ∧ ∀ v, p++v <:+ t → v <:+ t.drop (i+p.length) := by
  induction t generalizing i with
  | nil =>
    rw [index] at h
    split at h
    · rename_i hp
      simp [hp]
    · cases h
  | cons c rest ih =>
    rw [index] at h
    split at h
    · rename_i hp
      cases h
      obtain ⟨w,hw⟩ := hp
      rw [← hw,zero_add,drop_left]
      refine ⟨suffix_refl _,fun v hv => ?_⟩
      have hlen := hv.length_le
      simp only [length_append] at hlen
      exact suffix_of_suffix_length_le ((suffix_append p v).trans hv) (suffix_append p w) (by omega)
    rename_i hp
    obtain ⟨k,hk,rfl⟩ := Option.map_eq_some_iff.mp h
    obtain ⟨h1,h2⟩ := ih hk
    rw [add_right_comm]
    refine ⟨h1.trans (suffix_cons c rest),fun v hv => ?_⟩
    rcases suffix_cons_iff.mp hv with he | hv
    · exact absurd ⟨v,he⟩ hp
    · exact h2 v hv

theorem index_none (h : index p t = none) (v : Text) : ¬p++v <:+ t := by
  induction t with
  | nil =>
    rw [index] at h
    split at h
    · cases h
    · rename_i hp
      simp [hp]
  | cons c rest ih =>
    rw [index] at h
    split at h
    · cases h
    rename_i hp
    intro hv
    rcases suffix_cons_iff.mp hv with he | hv
    · exact hp ⟨v,he⟩
    · exact ih (Option.map_eq_none_iff.mp h) hv

theorem searchParts_suffix {r : Text} (h : searchParts t ps = some r) : r <:+ t := by
  induction ps generalizing t with
  | nil =>
    cases h
    exact suffix_refl _
  | cons p ps ih =>
    rw [searchParts] at h
    split at h
    · exact ih h
    · obtain ⟨i,-,hr⟩ := Option.bind_eq_some_iff.mp h
      exact (ih hr).trans (drop_suffix _ _)

theorem cut_cons (hps : ps ≠ []) (s : Text) :
    Cut (p::ps) s ↔ ∃ gap rest, s = p++(gap++rest) ∧ Cut ps rest := by
  cases ps with
  | nil => exact absurd rfl hps
  | cons q ps => rfl

/-- The first place of a part leaves the most for the parts behind it. -/
theorem cut_iff_search {last : Text} :
    (∃ s, s <:+ t ∧ Cut (ps++[last]) s) ↔ ∃ r, searchParts t ps = some r ∧ last <:+ r := by
  induction ps generalizing t with
  | nil => simp [Cut,searchParts]
  | cons p ps ih =>
    have hstep : (∃ s, s <:+ t ∧ Cut (p::ps++[last]) s) ↔
        ∃ v, p++v <:+ t ∧ ∃ s, s <:+ v ∧ Cut (ps++[last]) s := by
      simp only [cons_append,cut_cons (append_ne_nil_of_right_ne_nil ps (cons_ne_nil last []))]
      constructor
      · rintro ⟨_,hs,gap,rest,rfl,hc⟩
        exact ⟨gap++rest,hs,rest,suffix_append _ _,hc⟩
      · rintro ⟨_,hs,rest,⟨gap,rfl⟩,hc⟩
        exact ⟨_,hs,gap,rest,rfl,hc⟩
    rw [hstep,searchParts]
    split
    · rename_i hp
      rw [← ih,hp]
      constructor
      · rintro ⟨v,hv,s,hs,hc⟩
        exact ⟨s,hs.trans hv,hc⟩
      · rintro ⟨s,hs,hc⟩
        exact ⟨s,hs,s,suffix_refl s,hc⟩
    rcases hi : index p t with _ | i
    · simp [index_none hi]
    obtain ⟨h1,h2⟩ := index_some hi
    rw [Option.bind_some,← ih]
    constructor
    · rintro ⟨v,hv,s,hs,hc⟩
      exact ⟨s,hs.trans (h2 v hv),hc⟩
    · exact fun hs => ⟨_,h1,hs⟩

theorem cut_split {first last : Text} (s : Text) : Cut (first::(ps++[last])) s ↔
      first <+: s ∧ ∃ r, searchParts (s.drop first.length) ps = some r ∧ last <:+ r := by
  rw [cut_cons (append_ne_nil_of_right_ne_nil ps (cons_ne_nil last [])),← cut_iff_search]
  constructor
  · rintro ⟨gap,rest,rfl,hc⟩
    rw [drop_left]
    exact ⟨prefix_append _ _,rest,suffix_append _ _,hc⟩
  rintro ⟨⟨u,rfl⟩,rest,hs,hc⟩
  rw [drop_left] at hs
  obtain ⟨gap,rfl⟩ := hs
  exact ⟨gap,rest,rfl,hc⟩

theorem matchPattern_split {str pattern first last : Text} (hne : pattern ≠ []) (hs : pattern ≠ [star])
    (hparts : pattern.splitOn star = first::(ps++[last])) :
    matchPattern str pattern ↔ first <+: str ∧ last <:+ str ∧
      (searchParts (str.drop first.length) ps).isSome := by
  have hfirst : ¬(first ≠ [] ∧ ¬first <+: str) ↔ first <+: str := by
    by_cases h : first = [] <;> simp [h]
  have hlast : ¬(last ≠ [] ∧ ¬last <:+ str) ↔ last <:+ str := by
    by_cases h : last = [] <;> simp [h]
  rw [matchPattern,if_neg (by simp [hne,hs]),hparts]
  simp only [headD_cons,tail_cons,length_cons,length_append,length_nil,
    getLastD_cons,getLastD_concat]
  rw [if_neg (by omega)]
  split
  · rename_i h
    simp [h.2]
  split
  · rename_i h
    simp [h.2]
  · rename_i h1 h2
    simp [hfirst.mp h1,hlast.mp h2]

/-- The test agrees with the cut exactly when the parts stay apart. -/
theorem matchPattern_cut_iff (str pattern : Text) :
    (matchPattern str pattern ↔ Cut (pattern.splitOn star) str) ↔ Apart str pattern := by
  by_cases hne : pattern = []
  · simp [hne,matchPattern,Apart,Cut]
  by_cases hs : pattern = [star]
  · have hsplit : splitOn star [star] = [[],[]] := by decide
    simp [hs,hsplit,matchPattern,Apart,Cut]
  rcases hparts : pattern.splitOn star with _ | ⟨first,tail⟩
  · exact absurd hparts (splitOn_ne_nil _ _)
  rcases eq_nil_or_concat tail with rfl | ⟨ps,last,rfl⟩
  · have hp : [star].intercalate (pattern.splitOn star) = pattern := intercalate_splitOn _
    simp_all [matchPattern,Apart,Cut]
  rw [concat_eq_append] at hparts ⊢
  rw [matchPattern_split hne hs hparts,cut_split,Apart,hparts]
  simp only [hne,headD_cons,tail_cons,dropLast_concat,getLastD_cons,getLastD_concat,false_imp_iff,
    true_and]
  rcases hr : searchParts (str.drop first.length) ps with _ | r
  · simp
  have hsuffix := (searchParts_suffix hr).trans (drop_suffix _ str)
  have hback : last <:+ r ↔ last <:+ str ∧ last.length ≤ r.length :=
    ⟨fun h => ⟨h.trans hsuffix,h.length_le⟩,fun h => suffix_of_suffix_length_le h.1 hsuffix h.2⟩
  have hlen : 1 < (first::(ps++[last])).length := by simp
  simp only [Option.isSome_some,and_true,Option.some.injEq,exists_eq_left',
    Option.mem_some_iff,forall_eq']
  tauto

/-- The last part stands inside the first one. -/
theorem matchPattern_overlaps :
    matchPattern [97,98] [97,98,star,98] ∧ ¬Cut (splitOn star [97,98,star,98]) [97,98] := by
  refine ⟨by decide,?_⟩
  rintro ⟨gap,rest,he,rfl⟩
  have := congrArg length he
  simp at this

abbrev Field := Text × Text

def defaultScanBatchSize : ℤ := 1000

def pageSize (scanSize count : ℤ) : ℤ :=
  if 0 < count then count else if 0 < scanSize then scanSize else defaultScanBatchSize

def wanted (pattern : Text) (f : Field) : Bool := pattern = [] || matchPattern f.1 pattern

/-- One call, which meets the fields in the order of `data`. -/
def scan (scanSize : ℤ) (data : List Field) (cursor : ℕ) (pattern : Text) (count : ℤ) :
    ℕ × List Field :=
  let keys := data.filter (wanted pattern)
  if keys.length ≤ cursor then (0,[])
  else
    let stop := min (cursor+(pageSize scanSize count).toNat) keys.length
    (if stop < keys.length then stop else 0,(keys.drop cursor).take (stop-cursor))

/-- Calls with the returned cursors until one is zero; `none` if more than `rounds` are needed. -/
def scanAll (scanSize : ℤ) (orders : ℕ → List Field) (pattern : Text) (count : ℤ) :
    ℕ → ℕ → ℕ → Option (List Field)
  | 0, _, _ => none
  | rounds+1, call, cursor =>
    let page := scan scanSize (orders call) cursor pattern count
    if page.1 = 0 then some page.2
    else (scanAll scanSize orders pattern count rounds (call+1) page.1).map (page.2++·)

def ScansAll (scanSize : ℤ) (content : List Field) (pattern : Text) (count : ℤ) : Prop :=
  ∀ orders : ℕ → List Field, (∀ call, (orders call).Perm content) →
    ∃ rounds got, scanAll scanSize orders pattern count rounds 0 0 = some got ∧
      ∀ f, f ∈ got ↔ f ∈ content ∧ wanted pattern f

variable {scanSize count : ℤ} {pattern : Text} {content : List Field}

theorem scan_first (hc : 0 < count) (data : List Field) : scan scanSize data 0 pattern count =
      if (data.filter (wanted pattern)).length ≤ count then (0,data.filter (wanted pattern))
      else (count.toNat,(data.filter (wanted pattern)).take count.toNat) := by
  rw [scan,pageSize,if_pos hc]
  dsimp only
  split
  · rename_i h
    rw [length_eq_zero_iff.mp (Nat.le_zero.mp h),if_pos (by simp; omega)]
  split
  · rw [if_neg (by omega),drop_zero,Nat.zero_add,min_eq_left (by omega),Nat.sub_zero]
  · rw [if_pos (by omega),drop_zero,take_of_length_le (by omega)]

variable {x : Field} {rest : List Field}

theorem scan_misses (scanSize count : ℤ) (hx : wanted pattern x) (hn : x ∉ rest) {cursor : ℕ}
    (hcur : 0 < cursor) : x ∉ (scan scanSize (x::rest) cursor pattern count).2 := by
  obtain ⟨k,rfl⟩ := exists_eq_add_one.mpr hcur
  rw [scan,filter_cons_of_pos hx]
  split
  · exact not_mem_nil
  · exact fun hm => hn (mem_of_mem_filter (mem_of_mem_drop (mem_of_mem_take hm)))

/-- A field that is listed first in every later call is not met again. -/
theorem scanAll_misses (hx : wanted pattern x) (hn : x ∉ rest) {orders : ℕ → List Field}
    {rounds call cursor : ℕ} (hlater : ∀ k, call ≤ k → orders k = x::rest) (hcur : 0 < cursor)
    {got : List Field} (h : scanAll scanSize orders pattern count rounds call cursor = some got) :
    x ∉ got := by
  induction rounds generalizing call cursor got with
  | zero => cases h
  | succ rounds ih =>
    have hpage := scan_misses scanSize count hx hn hcur
    rw [scanAll,hlater call le_rfl] at h
    split at h
    · exact Option.some.inj h ▸ hpage
    rename_i hnext
    obtain ⟨later,hl,rfl⟩ := Option.map_eq_some_iff.mp h
    have := ih (fun k hk => hlater k (by omega)) (pos_of_ne_zero hnext) hl
    exact fun hm => (mem_append.mp hm).elim hpage this

/-- A scan finds all fields in every order exactly when they fit on the first page. -/
theorem scansAll_iff (scanSize count : ℤ) (content : List Field) (pattern : Text) (hc : 0 < count)
    (hn : (content.map Prod.fst).Nodup) : ScansAll scanSize content pattern count ↔
      (content.filter (wanted pattern)).length ≤ count := by
  have hnodup := (Nodup.of_map _ hn).filter (wanted pattern)
  constructor
  · intro h
    by_contra hlen
    rcases hd : (content.filter (wanted pattern)).drop count.toNat with _ | ⟨x,tail⟩
    · rw [drop_eq_nil_iff] at hd
      omega
    have hmem : x ∈ content.filter (wanted pattern) :=
      mem_of_mem_drop (hd ▸ mem_cons_self)
    obtain ⟨hx,hw⟩ := mem_filter.mp hmem
    obtain ⟨rounds,got,hgot,hall⟩ := h (fun k => if k = 0 then content else x::content.erase x)
      (fun k => by split; exacts [.refl _,(perm_cons_erase hx).symm])
    rcases rounds with _ | rounds
    · cases hgot
    rw [scanAll,if_pos rfl,scan_first hc,if_neg hlen] at hgot
    rw [if_neg (by omega)] at hgot
    obtain ⟨later,hl,rfl⟩ := Option.map_eq_some_iff.mp hgot
    have hpage : x ∉ (content.filter (wanted pattern)).take count.toNat := by
      rw [← take_append_drop count.toNat (content.filter _),hd] at hnodup
      exact fun hm => disjoint_of_nodup_append hnodup hm mem_cons_self
    have hmiss := scanAll_misses hw (Nodup.not_mem_erase (Nodup.of_map _ hn))
      (fun k hk => if_neg (by omega)) (by omega) hl
    exact (mem_append.mp ((hall x).mpr ⟨hx,hw⟩)).elim hpage hmiss
  · intro h orders hp
    refine ⟨1,(orders 0).filter (wanted pattern),?_,fun f => ?_⟩
    · rw [scanAll,scan_first hc,((hp 0).filter _).length_eq,if_pos h]
      rfl
    · rw [mem_filter,(hp 0).mem_iff]

/-- Two fields on pages of one, listed the other way round in the second call. -/
theorem scan_repeats_field : scanAll 1000 (fun k => if k = 0 then [([97],[]),([98],[])]
    else [([98],[]),([97],[])]) [] 1 2 0 0 = some [([97],[]),([97],[])] := by decide

theorem scansAll_one_page : ScansAll 1000 [([97],[]),([98],[])] [97,star] 1 :=
  (scansAll_iff 1000 1 _ [97,star] (by decide) (by decide)).mpr (by decide)

end Sentio.FileMirror
