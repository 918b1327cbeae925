import Mathlib.Data.List.Infix

/-!
# `LIKE` patterns

In a pattern `%` stands for any text and `_` for any one character. A backslash
takes the special meaning away from these two and from itself, is an ordinary
character before any other one, and may not be the last character.
-/

namespace Sentio.LikePattern

inductive Token where
  | many
  | one
  | lit (c : Char)
  deriving DecidableEq

def special (c : Char) : Bool := c = '%' || c = '_' || c = '\\'

def token (c : Char) : Token := if c = '%' then .many else if c = '_' then .one else .lit c

/-- `none` is a pattern that ends in a backslash of its own. -/
def tokens : List Char → Option (List Token)
  | [] => some []
  | c::rest =>
    if c = '\\' then
      match rest with
      | [] => none
      | d::later =>
        if special d then (tokens later).map (.lit d::·) else (tokens (d::later)).map (.lit c::·)
    else (tokens rest).map (token c::·)

def fits : List Token → List Char → Bool
  | [], text => text.isEmpty
  | .many::ts, text => text.tails.any (fits ts)
  | .one::_, [] => false
  | .one::ts, _::text => fits ts text
  | .lit _::_, [] => false
  | .lit c::ts, d::text => c = d && fits ts text

def like (pattern : List Char) : Option (List Char → Bool) := (tokens pattern).map fits

variable {pattern : List Char}

theorem tokens_plain (h : '\\' ∉ pattern) : tokens pattern = some (pattern.map token) := by
  induction pattern with
  | nil => rfl
  | cons c rest ih =>
    rw [List.mem_cons,not_or] at h
    unfold tokens
    rw [if_neg (Ne.symm h.1),ih h.2]
    rfl

theorem fits_append (ts us : List Token) (s t : List Char) (hs : fits ts s)
    (ht : fits us t) : fits (ts++us) (s++t) := by
  induction ts generalizing s with
  | nil =>
    rw [fits,List.isEmpty_iff] at hs
    simpa [hs] using ht
  | cons k ts ih =>
    cases k with
    | many =>
      rw [fits,List.any_eq_true] at hs
      obtain ⟨s',hmem,hfit⟩ := hs
      rw [List.mem_tails] at hmem
      obtain ⟨before,rfl⟩ := hmem
      rw [List.cons_append,fits,List.any_eq_true]
      exact ⟨s'++t,by rw [List.mem_tails]; exact ⟨before,by simp⟩,ih s' hfit⟩
    | one =>
      cases s with
      | nil => exact absurd hs (by simp [fits])
      | cons d s => exact ih s hs
    | lit c =>
      cases s with
      | nil => exact absurd hs (by simp [fits])
      | cons d s =>
        rw [fits,Bool.and_eq_true] at hs
        rw [List.cons_append,List.cons_append,fits,hs.1,ih s hs.2]
        rfl

theorem fits_many (s : List Char) : fits [.many] s := by
  rw [fits,List.any_eq_true]
  exact ⟨[],by simp,rfl⟩

theorem fits_token {c : Char} : fits [token c] [c] := by
  unfold token
  split
  · exact fits_many [c]
  · split <;> simp [fits]

theorem fits_map {f : Char → Char} (hf : ∀ c, f c = c ∨ f c = '%') (s : List Char) :
    fits ((s.map f).map token) s := by
  induction s with
  | nil => rfl
  | cons c s ih =>
    have hc : fits [token (f c)] [c] := by
      rcases hf c with h | h
      · rw [h]; exact fits_token
      · rw [h]; exact fits_many [c]
    exact fits_append [token (f c)] _ [c] s hc ih

theorem fits_nil {ts : List Token} (h : fits ts []) : ∀ t ∈ ts, t = .many := by
  induction ts with
  | nil => simp
  | cons t ts ih =>
    cases t with
    | many =>
      have hrest : fits ts [] := by simpa [fits] using h
      rw [List.forall_mem_cons]
      exact ⟨rfl,ih hrest⟩
    | one | lit c => exact absurd h (by simp [fits])

theorem tokens_many (ts : List Token) (h : tokens pattern = some ts)
    (hts : ∀ t ∈ ts, t = .many) : ∀ c ∈ pattern, c = '%' := by
  induction pattern generalizing ts with
  | nil => simp
  | cons c rest ih =>
    unfold tokens at h
    split at h
    · rcases rest with _ | ⟨d,later⟩
      · cases h
      simp only at h
      split at h
      · obtain ⟨us,-,rfl⟩ := Option.map_eq_some_iff.mp h
        exact absurd (hts (.lit d) (by simp)) (by simp)
      · obtain ⟨us,-,rfl⟩ := Option.map_eq_some_iff.mp h
        exact absurd (hts (.lit c) (by simp)) (by simp)
    · obtain ⟨us,hus,rfl⟩ := Option.map_eq_some_iff.mp h
      rw [List.forall_mem_cons] at hts ⊢
      refine ⟨?_,ih us hus hts.2⟩
      have htoken := hts.1
      unfold token at htoken
      split at htoken
      · assumption
      · split at htoken <;> cases htoken

theorem like_nil {test : List Char → Bool}
    (h : like pattern = some test) (hnil : test []) : ∀ c ∈ pattern, c = '%' := by
  obtain ⟨ts,hts,rfl⟩ := Option.map_eq_some_iff.mp h
  exact tokens_many ts hts (fits_nil hnil)

end Sentio.LikePattern
