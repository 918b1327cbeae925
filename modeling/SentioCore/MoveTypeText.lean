import Mathlib
import SentioCore.MoveTypes

/-!
# The texts of well-formed Move types

A type is well formed when its words and segments are made of letters, digits
and underscores. `buildType` reads such a type back from its own text, and the
part of the text before the arguments is the main part of the type.
-/

namespace Sentio.MoveTypes
open List Option
open RangeText (trimSpace isSpace trimSpace_plain)

def wordChar (c : Char) : Bool := c.isAlphanum || c = '_'

def mainChar (c : Char) : Bool := wordChar c || c = '*' || c = ':'

def FullyName.wellFormed (f : FullyName) : Bool :=
  f.address.all wordChar && f.moduleName.all wordChar && f.name.all wordChar &&
    toShortAddress f.address = f.address

def mainWellFormed : Option Text → Option FullyName → Bool
  | some s, none => s ≠ [] && s.all wordChar && s ≠ "any".toList
  | none, some f => f.wellFormed
  | none, none => true
  | some _, some _ => false

mutual
def MoveType.wellFormed : MoveType → Bool
  | .mk s f as => mainWellFormed s f && MoveType.argsWellFormed as
def MoveType.argsWellFormed : List MoveType → Bool
  | [] => true
  | a::as => a.wellFormed && MoveType.argsWellFormed as
end

variable {s rest : Text} {f : FullyName} {c : Char}

/-! ## Main parts -/

theorem wordChar_mainChar (h : wordChar c) : mainChar c := by
  simp [mainChar,h]

theorem mainChar_plain (h : mainChar c) : c ≠ '<' ∧ c ≠ '>' ∧ c ≠ ',' ∧ isSpace c = false := by
  have hn : c.toNat = 42 ∨ 48 ≤ c.toNat ∧ c.toNat ≤ 58 ∨ 65 ≤ c.toNat ∧ c.toNat ≤ 122 := by
    simp [mainChar,wordChar,Char.isAlphanum,Char.isAlpha,Char.isUpper,Char.isLower,Char.isDigit,
      UInt32.le_iff_toNat_le] at h
    rcases h with ((((h | h) | h) | rfl) | rfl) | rfl
    · omega
    · omega
    · omega
    all_goals decide
  refine ⟨?_,?_,?_,?_⟩
  · rintro rfl
    exact absurd hn (by decide)
  · rintro rfl
    exact absurd hn (by decide)
  · rintro rfl
    exact absurd hn (by decide)
  · simp [isSpace]
    omega

theorem word_no_colon (h : s.all wordChar) : ':' ∉ s :=
  fun hc => absurd (all_eq_true.mp h _ hc) (by decide)

theorem cut_word (h : ':' ∉ s) : cut (s ++ ':' :: ':' :: rest) = some (s,rest) := by
  induction s with
  | nil => simp [cut]
  | cons d s ih =>
    simp only [mem_cons,not_or] at h
    cases s with
    | nil => simp [cut,Ne.symm h.1]
    | cons e s =>
      rw [cons_append,cons_append,cut,if_neg (by simp [Ne.symm h.1]),← cons_append,ih h.2]
      rfl

theorem cut_none (h : ':' ∉ s) : cut s = none := by
  induction s with
  | nil => rfl
  | cons d s ih =>
    simp only [mem_cons,not_or] at h
    cases s with
    | nil => rfl
    | cons e s => rw [cut,if_neg (by simp [Ne.symm h.1]),ih h.2,map_none]

theorem segment_no_colon (h : s.all wordChar) : ':' ∉ segment s := by
  unfold segment
  split_ifs
  · decide
  · exact word_no_colon h

theorem wildcard_segment (h : s.all wordChar) : wildcard (segment s) = s := by
  unfold segment
  split_ifs with hs
  · exact hs.symm
  · refine if_neg ?_
    rintro rfl
    cases h

theorem segment_mainChar (h : s.all wordChar) : (segment s).all mainChar := by
  unfold segment
  split_ifs
  · rfl
  · exact all_eq_true.mpr fun c hc => wordChar_mainChar (all_eq_true.mp h c hc)

theorem trimSpace_main (h : s.all mainChar) : trimSpace s = s :=
  trimSpace_plain fun c hc => (mainChar_plain (all_eq_true.mp h c hc)).2.2.2

theorem FullyName.string_mainChar (h : f.wellFormed) : f.string.all mainChar := by
  simp only [FullyName.wellFormed,Bool.and_eq_true] at h
  obtain ⟨⟨⟨h1,h2⟩,h3⟩,-⟩ := h
  simp only [FullyName.string,all_append,segment_mainChar h1,segment_mainChar h2,
    segment_mainChar h3]
  rfl

theorem buildMain_string (h : f.wellFormed) : buildMain f.string = (none,some f) := by
  simp only [FullyName.wellFormed,Bool.and_eq_true,decide_eq_true_eq] at h
  obtain ⟨⟨⟨h1,h2⟩,h3⟩,hshort⟩ := h
  have htrim : ∀ x : Text, x.all wordChar → trimSpace (segment x) = segment x :=
    fun x hx => trimSpace_main (segment_mainChar hx)
  have haddress : toShortAddress (segment f.address) = segment f.address := by
    unfold segment
    split_ifs
    · rfl
    · exact hshort
  have hcut : f.string = segment f.address ++ ':' :: ':' :: (segment f.moduleName ++ ':' :: ':' ::
      segment f.name) := by
    simp [FullyName.string]
  rw [buildMain,hcut,cut_word (segment_no_colon h1)]
  simp only [cut_word (segment_no_colon h2),getD_some,htrim _ h1,htrim _ h2,htrim _ h3,haddress,
    wildcard_segment h1,wildcard_segment h2,wildcard_segment h3]

variable {t : MoveType} {simple : Option Text} {fqn : Option FullyName} {args : List MoveType}

theorem main_mainChar (h : mainWellFormed simple fqn) :
    (MoveType.mk simple fqn args).main.all mainChar := by
  cases simple with
  | some s =>
    cases fqn with
    | none =>
      simp only [mainWellFormed,Bool.and_eq_true] at h
      exact all_eq_true.mpr fun c hc => wordChar_mainChar (all_eq_true.mp h.1.2 c hc)
    | some f => cases h
  | none =>
    cases fqn with
    | none => rfl
    | some f => exact FullyName.string_mainChar h

theorem buildMain_main (h : mainWellFormed simple fqn) :
    buildMain (MoveType.mk simple fqn args).main = (simple,fqn) := by
  cases simple with
  | some s =>
    cases fqn with
    | none =>
      simp only [mainWellFormed,Bool.and_eq_true,decide_eq_true_eq] at h
      obtain ⟨⟨hne,hword⟩,hany⟩ := h
      change buildMain s = _
      rw [buildMain,cut_none (word_no_colon hword)]
      refine if_pos ⟨hany,?_,hne⟩
      rintro rfl
      cases hword
    | some f => cases h
  | none =>
    cases fqn with
    | none => rfl
    | some f => exact buildMain_string h

/-! ## Arguments -/

variable {level : ℕ} {part : Text}

theorem splitArgs_main (h : s.all mainChar) :
    splitArgs level part (s++rest) = splitArgs level (s.reverse++part) rest := by
  induction s generalizing part with
  | nil => rfl
  | cons c s ih =>
    rw [all_cons,Bool.and_eq_true] at h
    obtain ⟨h1,h2,h3,-⟩ := mainChar_plain h.1
    rw [cons_append,splitArgs,if_neg h1,if_neg h2,if_neg (by simp [h3]),ih h.2]
    simp

open MoveType in
mutual
/-- Behind the text of a type the level is the one before it. -/
theorem splitArgs_string : ∀ (t : MoveType), t.wellFormed → ∀ level part rest,
    splitArgs level part (t.string++rest) = splitArgs level (t.string.reverse++part) rest
  | .mk s f as, h, level, part, rest => by
    rw [wellFormed,Bool.and_eq_true] at h
    rw [string,append_assoc,splitArgs_main (main_mainChar h.1)]
    cases as with
    | nil => simp [argsString]
    | cons a as =>
      rw [argsWellFormed,Bool.and_eq_true] at h
      rw [argsString,cons_append,splitArgs,if_pos rfl,append_assoc,splitArgs_string a h.2.1,
        splitArgs_argsTail as h.2.2]
      simp
theorem splitArgs_argsTail : ∀ (as : List MoveType), argsWellFormed as → ∀ level part rest,
    splitArgs (level+1) part (argsTail as++rest) =
      splitArgs level ((argsTail as).reverse++part) rest
  | [], _, level, part, rest => by simp [argsTail,splitArgs]
  | a::as, h, level, part, rest => by
    rw [argsWellFormed,Bool.and_eq_true] at h
    rw [argsTail,cons_append,splitArgs,if_neg (by decide),if_neg (by decide),if_neg (by simp),
      append_assoc,splitArgs_string a h.1,splitArgs_argsTail as h.2]
    simp
end

theorem argsTail_eq (as : List MoveType) :
    MoveType.argsTail as = as.flatMap (fun a => ','::a.string)++['>'] := by
  induction as with
  | nil => rfl
  | cons a as ih => simp [MoveType.argsTail,ih]

theorem length_lt_argsString {b : MoveType} {as : List MoveType} (hb : b ∈ as) :
    b.string.length < (MoveType.argsString as).length := by
  cases as with
  | nil => cases hb
  | cons a as =>
    rw [MoveType.argsString,argsTail_eq,length_cons,length_append,length_append]
    rcases mem_cons.mp hb with rfl | hb
    · omega
    have hpart := (sublist_flatten_of_mem (mem_map_of_mem (f := fun a => ','::a.string) hb)).length_le
    rw [length_cons] at hpart
    rw [flatMap]
    omega

theorem splitArgs_list (as : List MoveType) (h : MoveType.argsWellFormed as) (part : Text) :
    splitArgs 0 part (as.flatMap fun a => ','::a.string) =
      some (part.reverse::as.map MoveType.string) := by
  induction as generalizing part with
  | nil => rfl
  | cons a as ih =>
    rw [MoveType.argsWellFormed,Bool.and_eq_true] at h
    rw [flatMap_cons,cons_append,splitArgs,if_neg (by decide),if_neg (by decide),if_pos ⟨rfl,rfl⟩,
      splitArgs_string a h.1,ih h.2]
    simp

theorem argParts_argsString {a : MoveType} {as : List MoveType} (ha : a.wellFormed)
    (h : MoveType.argsWellFormed as) :
    argParts (MoveType.argsString (a::as)) = some ((a::as).map MoveType.string) := by
  have htext : MoveType.argsString (a::as) =
      '<'::(a.string++(as.flatMap fun a => ','::a.string)++['>']) := by
    simp [MoveType.argsString,argsTail_eq]
  have htrim : trimSpace (MoveType.argsString (a::as)) = MoveType.argsString (a::as) := by
    rw [trimSpace,htext,dropWhile_cons_of_neg (by decide),rdropWhile_eq_self_iff]
    simp [show isSpace '>' = false from rfl]
  rw [argParts,htrim,htext]
  simp only [getLast?_concat,if_pos,dropLast_concat]
  rw [splitArgs_string a ha,splitArgs_list as h]
  simp

theorem dropWhile_string (args : List MoveType) (h : mainWellFormed simple fqn) :
    (MoveType.mk simple fqn args).string.takeWhile (· ≠ '<') = (MoveType.mk simple fqn args).main ∧
      (MoveType.mk simple fqn args).string.dropWhile (· ≠ '<') = MoveType.argsString args := by
  have hmain : ∀ c ∈ (MoveType.mk simple fqn args).main, decide (c ≠ '<') :=
    fun c hc => decide_eq_true (mainChar_plain (all_eq_true.mp (main_mainChar h) c hc)).1
  have hstring : (MoveType.mk simple fqn args).string =
      (MoveType.mk simple fqn args).main++MoveType.argsString args := by
    rw [MoveType.string]
    rfl
  rw [hstring,takeWhile_append_of_pos hmain,dropWhile_append_of_pos hmain]
  cases args <;> simp [MoveType.argsString]

open MoveType in
mutual
theorem buildTypeWithin_string : ∀ (t : MoveType), t.wellFormed → ∀ n, t.string.length < n →
    buildTypeWithin n t.string = some t
  | .mk s f as, h, n, hn => by
    obtain ⟨n,rfl⟩ : ∃ m, n = m+1 := ⟨n-1,by omega⟩
    rw [wellFormed,Bool.and_eq_true] at h
    obtain ⟨htake,hdrop⟩ := dropWhile_string as h.1
    rw [buildTypeWithin,htake,hdrop,trimSpace_main (main_mainChar h.1),buildMain_main h.1]
    cases as with
    | nil => rfl
    | cons a as =>
      have hargs := h.2
      rw [argsWellFormed,Bool.and_eq_true] at hargs
      have hlen : (argsString (a::as)).length ≤ n := by
        rw [string,length_append] at hn
        omega
      have hparts := argParts_argsString hargs.1 hargs.2
      have hread := buildTypeWithin_args (a::as) h.2 n fun b hb =>
        (length_lt_argsString hb).trans_le hlen
      rw [argsString] at hparts ⊢
      simp only [hparts,hread,bind_eq_bind,bind_some]
theorem buildTypeWithin_args : ∀ (as : List MoveType), argsWellFormed as → ∀ n,
    (∀ a ∈ as, a.string.length < n) → (as.map string).mapM (buildTypeWithin n) = some as
  | [], _, _, _ => rfl
  | a::as, h, n, hn => by
    rw [argsWellFormed,Bool.and_eq_true] at h
    rw [map_cons,mapM_cons,buildTypeWithin_string a h.1 n (hn a (by simp)),
      buildTypeWithin_args as h.2 n fun b hb => hn b (by simp [hb])]
    rfl
end

/-- A well-formed type is read back from its text. -/
theorem buildType_string (h : t.wellFormed) : buildType t.string = some t :=
  buildTypeWithin_string t h _ (by omega)

/-- The text before the arguments is the main part. -/
theorem removeTypeArgs_string (h : t.wellFormed) : removeTypeArgs t.string = t.main := by
  obtain ⟨s,f,as⟩ := t
  rw [MoveType.wellFormed,Bool.and_eq_true] at h
  obtain ⟨htake,-⟩ := dropWhile_string as h.1
  rw [removeTypeArgs,htake]
  cases as with
  | nil =>
    rw [MoveType.string,MoveType.argsString,append_nil]
    split_ifs <;> rfl
  | cons a as =>
    refine if_pos ⟨?_,?_⟩
    · rw [MoveType.string,MoveType.argsString,argsTail_eq,← append_assoc,← cons_append,
        ← append_assoc,getLast?_concat]
    · intro hnil
      rcases s with _ | s
      · rcases f with _ | f <;> simp [MoveType.main,MoveType.simple,MoveType.fqn,FullyName.string] at hnil
      · rcases f with _ | f
        · simp [mainWellFormed,show s = [] from hnil] at h
        · cases h.1

mutual
theorem includes_self : ∀ t : MoveType, t.includes t
  | .mk s f ts => by
    rw [MoveType.includes,Bool.and_eq_true,Bool.or_eq_true]
    refine ⟨?_,.inr (argsInclude_self ts)⟩
    rw [MoveType.mainIncludes,Bool.and_eq_true]
    constructor
    · cases s <;> simp [MoveType.simple]
    · cases f <;> simp [MoveType.fqn,FullyName.includes]
theorem argsInclude_self : ∀ ts : List MoveType, MoveType.argsInclude ts ts
  | [] => rfl
  | t::ts => by
    rw [MoveType.argsInclude,Bool.and_eq_true]
    exact ⟨includes_self t,argsInclude_self ts⟩
end

end Sentio.MoveTypes
