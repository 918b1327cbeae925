import SentioCore.LikePattern
import SentioCore.RangeText

/-!
# Move types and type patterns

A type is a main part, which is a plain word or an address, a module and a name,
and its arguments. A pattern is a type as well: an empty segment of the main
part is a wildcard, no main part at all stands for any type, and a pattern
without arguments takes any arguments. `buildType` reads a type from its text
and `include` compares a pattern with a type; in queries patterns are compared
with texts instead, by equality or by `LIKE`, and what a pattern includes passes
the comparison with the text of its main part.
-/

namespace Sentio.MoveTypes
open LikePattern List Option
open RangeText (trimSpace)

abbrev Text := List Char

/-- An empty segment is a wildcard. -/
structure FullyName where
  address : Text
  moduleName : Text
  name : Text
  deriving DecidableEq

def FullyName.includes (f a : FullyName) : Bool :=
  (f.address = [] || f.address = a.address) &&
    (f.moduleName = [] || f.moduleName = a.moduleName) &&
    (f.name = [] || f.name = a.name)

def FullyName.hasAny (f : FullyName) : Bool :=
  f.address = [] || f.moduleName = [] || f.name = []

def segment (s : Text) : Text := if s = [] then ['*'] else s

def FullyName.string (f : FullyName) : Text :=
  segment f.address++ [':', ':']++segment f.moduleName++ [':', ':']++segment f.name

/-- `${main}<${args[0]},${args[1]},...>`; a main part that is neither is any. -/
inductive MoveType where
  | mk (simple : Option Text) (fqn : Option FullyName) (args : List MoveType)

namespace MoveType

def simple : MoveType → Option Text
  | mk s _ _ => s

def fqn : MoveType → Option FullyName
  | mk _ f _ => f

def args : MoveType → List MoveType
  | mk _ _ as => as

variable (t : MoveType)

def main : Text :=
  match t.simple with
  | some s => s
  | none => match t.fqn with
    | some f => f.string
    | none => ['*']

def mainHasAny : Bool :=
  match t.simple with
  | some _ => false
  | none => match t.fqn with
    | some f => f.hasAny
    | none => true

def mainIsAny : Bool :=
  match t.simple with
  | some _ => false
  | none => match t.fqn with
    | some f => f.address = [] && f.moduleName = [] && f.name = []
    | none => true

def isAny : Bool := t.simple.isNone && t.fqn.isNone && t.args.isEmpty

def hasArgs : Bool := !t.args.isEmpty

mutual
def string : MoveType → Text
  | mk s f as => (mk s f []).main++argsString as
def argsString : List MoveType → Text
  | [] => []
  | a::as => '<'::(string a++argsTail as)
def argsTail : List MoveType → Text
  | [] => ['>']
  | a::as => ','::(string a++argsTail as)
end

mutual
def hasAny : MoveType → Bool
  | mk s f as => (mk s f []).mainHasAny || argsHaveAny as
def argsHaveAny : List MoveType → Bool
  | [] => false
  | a::as => hasAny a || argsHaveAny as
end

def mainIncludes (t a : MoveType) : Bool :=
  (match t.simple with
    | none => true
    | some s => a.simple = some s) &&
  (match t.fqn with
    | none => true
    | some f => match a.fqn with
      | none => false
      | some g => f.includes g)

mutual
def includes : MoveType → MoveType → Bool
  | mk s f ts, mk s' f' as =>
    mainIncludes (mk s f []) (mk s' f' []) && (ts.isEmpty || argsInclude ts as)
def argsInclude : List MoveType → List MoveType → Bool
  | [], [] => true
  | t::ts, a::as => includes t a && argsInclude ts as
  | _, _ => false
end

end MoveType

def cut : Text → Option (Text × Text)
  | [] => none
  | c::rest =>
    match rest with
    | [] => none
    | d::later =>
      if c = ':' ∧ d = ':' then some ([],later)
      else (cut (d::later)).map fun p => (c::p.1,p.2)

def toShortAddress (address : Text) : Text :=
  match address with
  | '0':: 'x'::hex =>
    if hex.dropWhile (· = '0') = [] then ['0', 'x', '0'] else '0':: 'x'::hex.dropWhile (· = '0')
  | _ => address

variable (s : Text)

def wildcard : Text := if s = ['*'] then [] else s

def buildMain (part : Text) : Option Text × Option FullyName :=
  match cut part with
  | some (address,rest) =>
    let (moduleName,name) := (cut rest).getD (rest,[])
    (none,some ⟨wildcard (toShortAddress (trimSpace address)),wildcard (trimSpace moduleName),
      wildcard (trimSpace name)⟩)
  | none =>
    if part ≠ "any".toList ∧ part ≠ ['*'] ∧ part ≠ [] then (some part,none) else (none,none)

/-- The parts between the commas outside all brackets; `part` is the part begun, last
character first. -/
def splitArgs : ℕ → Text → Text → Option (List Text)
  | level, part, [] => if level = 0 then some [part.reverse] else none
  | level, part, c::rest =>
    if c = '<' then splitArgs (level+1) (c::part) rest
    else if c = '>' then if level = 0 then none else splitArgs (level-1) (c::part) rest
    else if c = ',' ∧ level = 0 then (splitArgs 0 [] rest).map (part.reverse::·)
    else splitArgs level (c::part) rest

/-- The inside of `<...>` cut into its parts, `none` where `parseArgs` fails. -/
def argParts (txt : Text) : Option (List Text) :=
  match trimSpace txt with
  | '<'::inner => if inner.getLast? = some '>' then splitArgs 0 [] inner.dropLast else none
  | _ => none

/-- `BuildType` with a bound on the depth of the arguments. -/
def buildTypeWithin : ℕ → Text → Option MoveType
  | 0, _ => none
  | depth+1, s =>
    let main := buildMain (trimSpace (s.takeWhile (· ≠ '<')))
    match s.dropWhile (· ≠ '<') with
    | [] => some (.mk main.1 main.2 [])
    | txt => do
      let parts ← argParts txt
      let args ← parts.mapM (buildTypeWithin depth)
      some (.mk main.1 main.2 args)

def buildType : Option MoveType := buildTypeWithin (s.length+1) s

/-- `Type.IncludeTypeString`; a text that is no type is included by the any pattern alone. -/
def includeTypeString (t : MoveType) (s : Option Text) : Bool :=
  t.isAny || match s with
    | none => false
    | some s => match buildType s with
      | none => false
      | some a => t.includes a

def removeTypeArgs : Text :=
  if s.getLast? = some '>' ∧ s.takeWhile (· ≠ '<') ≠ [] then s.takeWhile (· ≠ '<') else s

def trimTypeString : Text :=
  match buildType s with
  | none => s
  | some t => t.string

def star (c : Char) : Char := if c = '*' then '%' else c

def likeText : Text := s.map star

/-- How a query compares a text with the main part of a pattern; `none` is a pattern that
`LIKE` refuses. -/
def compareMain (t : MoveType) : Option (Text → Bool) :=
  if t.mainHasAny then like (likeText t.main) else some (· = t.main)

theorem buildMain_split {part : Text} : (buildMain part).1 = none ∨ (buildMain part).2 = none := by
  unfold buildMain
  split
  · exact .inl rfl
  split
  · exact .inr rfl
  · exact .inl rfl

variable {s : Text} {a : MoveType}

theorem buildTypeWithin_main {n : ℕ} (h : buildTypeWithin n s = some a) :
    ∃ part, a.simple = (buildMain part).1 ∧ a.fqn = (buildMain part).2 := by
  rcases n with _ | n
  · cases h
  refine ⟨trimSpace (s.takeWhile (· ≠ '<')),?_⟩
  rw [buildTypeWithin] at h
  split at h
  · cases h
    exact ⟨rfl,rfl⟩
  simp only [bind_eq_bind,bind_eq_some_iff] at h
  obtain ⟨parts,-,args,-,h⟩ := h
  cases h
  exact ⟨rfl,rfl⟩

/-- A type that was read has one kind of main part at most. -/
theorem buildType_split (h : buildType s = some a) : a.simple = none ∨ a.fqn = none := by
  obtain ⟨part,h1,h2⟩ := buildTypeWithin_main h
  rw [h1,h2]
  exact buildMain_split

variable {t : MoveType}

theorem includes_main (h : t.includes a) : t.mainIncludes a := by
  cases t with
  | mk s f ts =>
    cases a with
    | mk s' f' as =>
      rw [MoveType.includes,Bool.and_eq_true] at h
      exact h.1

theorem includes_args_nil (h : t.includes a) (ha : a.args = []) : t.args = [] := by
  cases t with
  | mk s f ts =>
    cases a with
    | mk s' f' as =>
      rw [MoveType.includes] at h
      cases ts with
      | nil => rfl
      | cons t ts =>
        have : as = [] := ha
        simp [this,MoveType.argsInclude] at h

theorem mainIncludes_simple (h : t.mainIncludes a) (ht : t.simple = some s) : a.simple = some s := by
  rw [MoveType.mainIncludes,ht,Bool.and_eq_true] at h
  exact of_decide_eq_true h.1

variable {f : FullyName}

theorem mainIncludes_fqn (h : t.mainIncludes a)
    (ht : t.fqn = some f) : ∃ g, a.fqn = some g ∧ f.includes g := by
  rw [MoveType.mainIncludes,ht,Bool.and_eq_true] at h
  cases hg : a.fqn with
  | none => simp [hg] at h
  | some g =>
    rw [hg] at h
    exact ⟨g,rfl,h.2⟩

theorem includeTypeString_some (h : includeTypeString t (some s)) :
    t.isAny ∨ ∃ a, buildType s = some a ∧ t.includes a := by
  unfold includeTypeString at h
  cases hany : t.isAny with
  | true => exact .inl rfl
  | false =>
    right
    rw [hany] at h
    cases hb : buildType s with
    | none => simp [hb] at h
    | some a => exact ⟨a,by simpa [hb] using h⟩

theorem isAny_of_includes_mainless (h : t.mainIncludes a)
    (ha : a.simple = none ∧ a.fqn = none) : t.simple = none ∧ t.fqn = none := by
  constructor
  · cases hs : t.simple with
    | none => rfl
    | some s => exact absurd (mainIncludes_simple h hs) (by simp [ha.1])
  cases hf : t.fqn with
  | none => rfl
  | some f =>
    obtain ⟨g,hg,-⟩ := mainIncludes_fqn h hf
    exact absurd hg (by simp [ha.2])

variable {g : FullyName}

theorem fullyName_includes_segments (h : f.includes g) : (f.address = [] ∨ f.address = g.address) ∧
      (f.moduleName = [] ∨ f.moduleName = g.moduleName) ∧ (f.name = [] ∨ f.name = g.name) := by
  simpa [FullyName.includes,and_assoc] using h

theorem fullyName_eq_of_includes (h : f.includes g) (hf : f.hasAny = false) : f = g := by
  obtain ⟨h1,h3⟩ := fullyName_includes_segments h
  simp only [FullyName.hasAny] at hf
  cases f
  simp_all

theorem star_not_backslash {c : Char} (h : c ≠ '\\') : star c ≠ '\\' := by
  unfold star
  split
  · decide
  · exact h

theorem likeText_not_backslash (h : '\\' ∉ s) : '\\' ∉ likeText s := by
  intro hm
  obtain ⟨c,hc,heq⟩ := mem_map.mp hm
  exact star_not_backslash (fun he => h (he ▸ hc)) heq

theorem fits_likeText : fits ((likeText s).map token) s := by
  apply fits_map
  intro c
  unfold star
  split
  · exact .inr rfl
  · exact .inl rfl

variable {y x : Text}

theorem fits_segment (h : x = [] ∨ x = y) :
    fits ((likeText (segment x)).map token) (segment y) := by
  rcases h with rfl | rfl
  · exact fits_many _
  · exact fits_likeText

theorem segment_not_backslash (h : x = [] ∨ x = y) (hy : '\\' ∉ segment y) : '\\' ∉ segment x := by
  rcases h with rfl | rfl
  · decide
  · exact hy

theorem like_fullyName (h : f.includes g) (hg : '\\' ∉ g.string) :
    ∃ test, like (likeText f.string) = some test ∧ test g.string := by
  obtain ⟨h1,h2,h3⟩ := fullyName_includes_segments h
  simp only [FullyName.string,mem_append,not_or] at hg
  obtain ⟨⟨⟨⟨hg1,-⟩,hg2⟩,-⟩,hg3⟩ := hg
  have hplain : '\\' ∉ f.string := by
    simp only [FullyName.string,mem_append,not_or]
    exact ⟨⟨⟨⟨segment_not_backslash h1 hg1,by decide⟩,segment_not_backslash h2 hg2⟩,
      by decide⟩,segment_not_backslash h3 hg3⟩
  refine ⟨_,by rw [like,tokens_plain (likeText_not_backslash hplain)]; rfl,?_⟩
  simp only [FullyName.string,likeText,map_append]
  exact fits_append _ _ _ _ (fits_append _ _ _ _ (fits_append _ _ _ _ (fits_append _ _ _ _
    (fits_segment h1) fits_likeText) (fits_segment h2)) fits_likeText)
    (fits_segment h3)

theorem like_any (s : Text) : ∃ test, like (likeText ['*']) = some test ∧ test s :=
  ⟨fits [.many],rfl,fits_many s⟩

theorem compareMain_of_includes (ha : a.simple = none ∨ a.fqn = none) (h : t.mainIncludes a)
    (hplain : '\\' ∉ a.main) : ∃ test, compareMain t = some test ∧ test a.main := by
  cases hs : t.simple with
  | some s =>
    have has := mainIncludes_simple h hs
    refine ⟨(· = t.main),?_,?_⟩
    · simp [compareMain,MoveType.mainHasAny,hs]
    · simp [MoveType.main,hs,has]
  | none =>
    rcases hf : t.fqn with _ | f
    · have : compareMain t = like (likeText ['*']) := by
        simp [compareMain,MoveType.mainHasAny,MoveType.main,hs,hf]
      rw [this]
      exact like_any a.main
    obtain ⟨g,hg,hfg⟩ := mainIncludes_fqn h hf
    have has : a.simple = none := ha.resolve_right (by rw [hg]; exact some_ne_none g)
    have hmain : a.main = g.string := by simp [MoveType.main,has,hg]
    have htmain : t.main = f.string := by simp [MoveType.main,hs,hf]
    have hany : t.mainHasAny = f.hasAny := by simp [MoveType.mainHasAny,hs,hf]
    rw [hmain] at hplain ⊢
    rw [compareMain,hany,htmain]
    cases hfa : f.hasAny with
    | true => exact like_fullyName hfg hplain
    | false =>
      rw [fullyName_eq_of_includes hfg hfa]
      exact ⟨_,rfl,by simp⟩

end Sentio.MoveTypes
