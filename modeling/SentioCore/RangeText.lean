import SentioCore.RangeFind

/-!
# Range sets as text

A range is written as its two decimal bounds, an infinite end as `INF` and an
empty range as `EMPTY`; a set is the list of its parts. Reading splits the text,
trims the pieces, parses the numbers and rebuilds the set by sorting and
merging.
-/

namespace Sentio.RangeText
open RangeModel RangeHoles RangeSetAlgebra RangeSetMerge RangeFind WordArith RangeSet List Nat

inductive ParseError where
  | invalidFormat
  | invalidNumber
  | outOfRange
  deriving DecidableEq

def isSpace (c : Char) : Bool :=
  [9,10,11,12,13,32,0x85,0xa0,0x1680,0x2028,0x2029,0x202f,0x205f,0x3000].contains
    c.toNat || (0x2000 ≤ c.toNat && c.toNat ≤ 0x200a)

def trimSpace (text : List Char) : List Char := (text.dropWhile isSpace).rdropWhile isSpace

def decimal (n : UInt64) : List Char := toDigits 10 n.toNat

def parseDigits (n : ℕ) : List Char → Except ParseError UInt64
  | [] => .ok (UInt64.ofNat n)
  | c::rest =>
    if c.isDigit then
      let next := 10*n+(c.toNat- '0'.toNat)
      if next < 18446744073709551616 then parseDigits next rest else .error .outOfRange
    else .error .invalidNumber

def parseUint (text : List Char) : Except ParseError UInt64 :=
  if text.isEmpty then .error .invalidNumber else parseDigits 0 text

def emptyText : List Char := ['E', 'M', 'P', 'T', 'Y']

def infText : List Char := ['I', 'N', 'F']

namespace RangeParser

def endText (stop : Option UInt64) : List Char :=
  match stop with
  | none => infText
  | some e => decimal e

def marshal (r : Range) : List Char :=
  if r.isEmpty then emptyText else decimal r.start++ ','::endText r.stop

def unmarshal (text : List Char) : Except ParseError Range :=
  if trimSpace text = emptyText then .ok Range.empty
  else match text.splitOn ',' with
    | first::second::_ => do
      let start ← parseUint (trimSpace first)
      if trimSpace second = infText then .ok ⟨start,none⟩
      else do
        let stop ← parseUint (trimSpace second)
        .ok ⟨start,some stop⟩
    | _ => .error .invalidFormat

end RangeParser

namespace SetParser

def marshal (rs : RangeSet) : List Char :=
  ['|'].intercalate (rs.getRanges.map RangeParser.marshal)

def unmarshalParts : List (List Char) → Except ParseError (List Range)
  | [] => .ok []
  | part::rest =>
    if (trimSpace part).isEmpty then unmarshalParts rest
    else do
      let r ← RangeParser.unmarshal (trimSpace part)
      let later ← unmarshalParts rest
      .ok (r::later)

def unmarshal (text : List Char) : Except ParseError RangeSet := do
  let list ← unmarshalParts (text.splitOn '|')
  .ok (newRangeSet list)

end SetParser

def setEqual (rs a : RangeSet) : Bool := equal rs.range a.range && rs.holes == a.holes

theorem le_ofDigitChars (cs : List Char) (n : ℕ) : n ≤ ofDigitChars 10 cs n := by
  induction cs generalizing n with
  | nil => simp
  | cons c cs ih =>
    rw [ofDigitChars_cons]
    have := ih (10*n+(c.toNat- '0'.toNat))
    omega

theorem parseDigits_ok {cs : List Char} (n : ℕ) (hd : ∀ c ∈ cs, c.isDigit)
    (hn : ofDigitChars 10 cs n < 2^64) :
    parseDigits n cs = .ok (UInt64.ofNat (ofDigitChars 10 cs n)) := by
  induction cs generalizing n with
  | nil => simp [parseDigits]
  | cons c cs ih =>
    rw [ofDigitChars_cons] at hn ⊢
    have hle := le_ofDigitChars cs (10*n+(c.toNat- '0'.toNat))
    rw [parseDigits,if_pos (hd c (by simp)),if_pos (by omega)]
    exact ih _ (fun d hdm => hd d (by simp [hdm])) hn

variable (n : UInt64)

theorem decimal_digits : ∀ c ∈ decimal n, c.isDigit :=
  fun _ hc => isDigit_of_mem_toDigits (by decide) (by decide) hc

theorem decimal_ne_nil : decimal n ≠ [] := toDigits_ne_nil

theorem parseUint_decimal : parseUint (decimal n) = .ok n := by
  have hv : ofDigitChars 10 (decimal n) 0 = n.toNat := ofDigitChars_ten_toDigits
  rw [parseUint,if_neg (by simpa using decimal_ne_nil n),
    parseDigits_ok 0 (decimal_digits n) (by rw [hv]; exact word_lt n),hv,UInt64.ofNat_toNat]

/-- What a range is written with: digits, the comma and the letters of the two words. -/
def Plain (c : Char) : Prop :=
  c.isDigit ∨ c ∈ [',', 'E', 'M', 'P', 'T', 'Y', 'I', 'N', 'F']

variable {c : Char}

theorem plain_not_space (h : Plain c) : isSpace c = false := by
  rcases h with h | h
  · have hr : 48 ≤ c.toNat ∧ c.toNat ≤ 57 := by simpa [Char.isDigit,UInt32.le_iff_toNat_le] using h
    simp [isSpace]
    omega
  · simp only [mem_cons,not_mem_nil,or_false] at h
    rcases h with rfl | rfl | rfl | rfl | rfl | rfl | rfl | rfl | rfl <;> rfl

theorem plain_not_bar (h : Plain c) : c ≠ '|' := by
  rintro rfl
  rcases h with h | h
  · exact absurd h (by decide)
  · exact absurd h (by decide)

theorem trimSpace_plain {text : List Char} (h : ∀ c ∈ text, isSpace c = false) :
    trimSpace text = text := by
  have hd : text.dropWhile isSpace = text := by
    cases text with
    | nil => rfl
    | cons c rest => simp [h c (by simp)]
  rw [trimSpace,hd,rdropWhile_eq_self_iff]
  intro hne
  simp [h _ (getLast_mem hne)]

theorem digit_plain {n : UInt64} (hc : c ∈ decimal n) : Plain c :=
  .inl (decimal_digits n c hc)

theorem endText_plain {stop : Option UInt64} (hc : c ∈ RangeParser.endText stop) : Plain c := by
  cases stop with
  | none =>
    right
    simp only [RangeParser.endText,infText,mem_cons,not_mem_nil,or_false] at hc
    rcases hc with rfl | rfl | rfl <;> decide
  | some e => exact digit_plain hc

variable {r : Range}

theorem marshal_plain (hc : c ∈ RangeParser.marshal r) : Plain c := by
  rw [RangeParser.marshal] at hc
  split at hc
  · right
    simp only [emptyText,mem_cons,not_mem_nil,or_false] at hc
    rcases hc with rfl | rfl | rfl | rfl | rfl <;> decide
  rcases mem_append.mp hc with hc | hc
  · exact digit_plain hc
  rcases mem_cons.mp hc with rfl | hc
  · exact .inr (by decide)
  · exact endText_plain hc

theorem marshal_trimmed : trimSpace (RangeParser.marshal r) = RangeParser.marshal r :=
  trimSpace_plain (fun _ hc => plain_not_space (marshal_plain hc))

theorem decimal_trimmed : trimSpace (decimal n) = decimal n :=
  trimSpace_plain (fun _ hc => plain_not_space (digit_plain hc))

theorem comma_not_digit : ',' ∉ decimal n :=
  fun h => absurd (decimal_digits n _ h) (by decide)

theorem decimal_ne_inf : decimal n ≠ infText := by
  intro h
  have hi : 'I' ∈ decimal n := by rw [h]; decide
  exact absurd (decimal_digits n _ hi) (by decide)

theorem comma_not_empty {text rest : List Char} : text++ ','::rest ≠ emptyText := by
  intro h
  have hc : ',' ∈ emptyText := by
    rw [← h]
    simp
  exact absurd hc (by decide)

variable (start : UInt64) (stop : Option UInt64)

theorem unmarshal_end :
    RangeParser.unmarshal (decimal start++ ','::RangeParser.endText stop) = .ok ⟨start,stop⟩ := by
  have htrim : trimSpace (decimal start++ ','::RangeParser.endText stop) ≠ emptyText := by
    rw [trimSpace_plain]
    · exact comma_not_empty
    intro c hc
    rcases mem_append.mp hc with hc | hc
    · exact plain_not_space (digit_plain hc)
    rcases mem_cons.mp hc with rfl | hc
    · rfl
    · exact plain_not_space (endText_plain hc)
  have hend : ',' ∉ RangeParser.endText stop := by
    cases stop with
    | none => decide
    | some e => exact comma_not_digit e
  rw [RangeParser.unmarshal,if_neg htrim,
    splitOn_append_cons_self_of_not_mem (comma_not_digit start),
    splitOn_eq_singleton hend]
  simp only [decimal_trimmed,parseUint_decimal]
  cases stop with
  | none => rfl
  | some e =>
    have he : trimSpace (RangeParser.endText (some e)) = decimal e := decimal_trimmed e
    simp only [he,decimal_ne_inf e,parseUint_decimal]
    rfl

theorem range_round_trip :
    RangeParser.unmarshal (RangeParser.marshal r) = .ok (if r.isEmpty then Range.empty else r) := by
  by_cases he : r.isEmpty
  · rw [RangeParser.marshal,if_pos he,if_pos he]
    rfl
  · rw [RangeParser.marshal,if_neg he,if_neg he]
    exact unmarshal_end r.start r.stop

theorem marshal_ne_nil : RangeParser.marshal r ≠ [] := by
  rw [RangeParser.marshal]
  split
  · exact nofun
  · simp

theorem unmarshalParts_marshal {rs : List Range} (h : ∀ r ∈ rs, r.isEmpty = false) :
    SetParser.unmarshalParts (rs.map RangeParser.marshal) = .ok rs := by
  induction rs with
  | nil => rfl
  | cons r rest ih =>
    have hr := h r (by simp)
    have hne : ¬(trimSpace (RangeParser.marshal r)).isEmpty := by
      rw [marshal_trimmed]
      simpa using marshal_ne_nil
    rw [map_cons,SetParser.unmarshalParts,if_neg hne,marshal_trimmed,range_round_trip,
      ih (fun a ha => h a (by simp [ha])),hr]
    rfl

theorem rangesFrom_apart {holes : List Hole} (hc : HoleChain start.toNat (top stop) holes)
    (hs : start.toNat ≤ top stop) : Apart start.toNat (rangesFrom start stop holes) := by
  induction holes generalizing start with
  | nil => exact ⟨le_refl _,hs,trivial⟩
  | cons h rest ih =>
    obtain ⟨h1,h2,h3,h4⟩ := hc
    have ht := top_lt stop
    have hi : (h.2+1).toNat = h.2.toNat+1 := toNat_inc _ (by omega)
    have hd : (h.1-1).toNat = h.1.toNat-1 := toNat_dec _ (by omega)
    have hrest := ih (h.2+1) (by rwa [hi]) (by omega)
    refine ⟨le_refl _,?_,apart_mono _ hrest ?_⟩
    · change start.toNat ≤ (h.1-1).toNat
      omega
    · change (h.1-1).toNat+2 ≤ (h.2+1).toNat
      omega

theorem holesBetween_rangesFrom {holes : List Hole} :
    ∃ r rest, rangesFrom start stop holes = r::rest ∧ r.start = start ∧
      lastStop r rest = stop ∧ holesBetween (r::rest) = holes := by
  induction holes generalizing start with
  | nil => exact ⟨_,_,rfl,rfl,lastStop_nil _,rfl⟩
  | cons h rest ih =>
    obtain ⟨a,later,ha,hstart,hstop,hholes⟩ := ih (h.2+1)
    refine ⟨_,_,rfl,rfl,?_,?_⟩
    · rw [ha]
      exact hstop
    · rw [ha,holesBetween,hholes,hstart]
      simp [Range.endOrZero]

variable {rs : RangeSet}

theorem newRangeSet_getRanges (h : HoleInvariant rs) :
    newRangeSet rs.getRanges = if rs.isEmpty then emptyRangeSet else rs := by
  by_cases he : rs.isEmpty
  · rw [getRanges,if_pos he,if_pos he]
    rfl
  have hn := mt (set_isEmpty_iff rs).mpr he
  have hapart := rangesFrom_apart rs.range.start rs.range.stop h (by omega)
  obtain ⟨r,rest,hr,hstart,hstop,hholes⟩ :=
    holesBetween_rangesFrom rs.range.start rs.range.stop
  rw [hr] at hapart
  rw [getRanges,if_neg he,if_neg he,hr,newRangeSet_cons hapart,hstart,hstop,hholes]

theorem apart_nonempty (first : ℕ) {rs : List Range} (h : Apart first rs) :
    ∀ r ∈ rs, r.isEmpty = false := by
  induction rs generalizing first with
  | nil => simp
  | cons r rest ih =>
    intro a ha
    rcases mem_cons.mp ha with rfl | ha
    · exact not_isEmpty a h.2.1
    · exact ih _ h.2.2 a ha

theorem getRanges_nonempty (h : HoleInvariant rs) : ∀ r ∈ rs.getRanges, r.isEmpty = false := by
  by_cases he : rs.isEmpty
  · simp [getRanges,he]
  have hn := mt (set_isEmpty_iff rs).mpr he
  rw [getRanges,if_neg he]
  exact apart_nonempty _ (rangesFrom_apart _ _ h (by omega))

theorem split_marshal {rs : List Range} (h : rs ≠ []) :
    (['|'].intercalate (rs.map RangeParser.marshal)).splitOn '|' = rs.map RangeParser.marshal := by
  apply splitOn_intercalate
  · intro part hp hbar
    obtain ⟨r,-,rfl⟩ := mem_map.mp hp
    exact plain_not_bar (marshal_plain hbar) rfl
  · simpa using h

theorem set_round_trip (h : HoleInvariant rs) : SetParser.unmarshal (SetParser.marshal rs) =
      .ok (if rs.isEmpty then emptyRangeSet else rs) := by
  by_cases hr : rs.getRanges = []
  · have he : rs.isEmpty := by
      by_contra he
      rw [getRanges,if_neg he] at hr
      cases hh : rs.holes <;> rw [hh] at hr <;> cases hr
    rw [SetParser.marshal,hr,if_pos he]
    rfl
  · rw [SetParser.unmarshal,SetParser.marshal,split_marshal hr,
      unmarshalParts_marshal (getRanges_nonempty h),← newRangeSet_getRanges h]
    rfl

theorem equal_empty (h : r.isEmpty) : equal Range.empty r := by
  have h0 : Range.empty.isEmpty := rfl
  simp [equal,Range.includes,h,h0]

theorem equal_self : equal r r := by
  have hs : lessEqualNilAsInf r.stop r.stop := by
    cases r.stop with
    | none => rfl
    | some e => simp [lessEqualNilAsInf]
  simp [equal,Range.includes,hs]

theorem empty_holes (h : HoleInvariant rs) (he : rs.isEmpty) : rs.holes = [] := by
  have hlt := (set_isEmpty_iff rs).mp he
  cases hh : rs.holes with
  | nil => rfl
  | cons hole rest =>
    rw [HoleInvariant,hh] at h
    obtain ⟨h1,h2,h3,-⟩ := h
    omega

/-- Every range and every set with the hole invariant comes back from its text; an empty one comes
back as the empty one of the source, which is equal to it. -/
theorem text_round_trip (rs : RangeSet) (h : HoleInvariant rs) (r : Range) :
    (∃ back, SetParser.unmarshal (SetParser.marshal rs) = .ok back ∧ setEqual back rs ∧
      (rs.isEmpty = false → back = rs)) ∧
    ∃ back, RangeParser.unmarshal (RangeParser.marshal r) = .ok back ∧ equal back r ∧
      (r.isEmpty = false → back = r) := by
  constructor
  · refine ⟨_,set_round_trip h,?_,?_⟩
    · by_cases he : rs.isEmpty
      · rw [if_pos he,setEqual,empty_holes h he]
        simpa [emptyRangeSet] using equal_empty he
      · rw [if_neg he,setEqual,equal_self]
        simp
    · intro he
      rw [he]
      rfl
  refine ⟨_,range_round_trip,?_,?_⟩
  · by_cases he : r.isEmpty
    · rw [if_pos he]
      exact equal_empty he
    · rw [if_neg he]
      exact equal_self
  · intro he
    rw [he]
    rfl

theorem text_round_trip_infinite :
    (∃ back, SetParser.unmarshal (SetParser.marshal ⟨⟨1,none⟩,[(5,7),(10,12)]⟩) = .ok back ∧
      setEqual back ⟨⟨1,none⟩,[(5,7),(10,12)]⟩ ∧
      (isEmpty ⟨⟨1,none⟩,[(5,7),(10,12)]⟩ = false →
        back = ⟨⟨1,none⟩,[(5,7),(10,12)]⟩)) ∧
    ∃ back, RangeParser.unmarshal (RangeParser.marshal ⟨3,some 1⟩) = .ok back ∧
      equal back ⟨3,some 1⟩ ∧ (Range.isEmpty ⟨3,some 1⟩ = false → back = ⟨3,some 1⟩) :=
  text_round_trip ⟨⟨1,none⟩,[(5,7),(10,12)]⟩ (by unfold HoleInvariant; decide) ⟨3,some 1⟩

end Sentio.RangeText
