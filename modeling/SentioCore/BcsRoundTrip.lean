import SentioCore.BcsModel

/-!
# When a value comes back from its bytes

Decoding what was encoded gives the value back, with the bytes that follow left
over, unless the decoder fails on the way: at an empty string, byte slice or byte
array with nothing behind it, at an array of something other than bytes, at a
pointer to a pointer, at a named string or byte type, or at an enum that the
encoder saw and the decoder does not see. An enum with several fields set comes
back with the first one only.
-/

namespace Sentio.BcsRoundTrip
open ByteCodec BcsModel List Except Nat

section
variable (selector : Text)

def optionalTag (tag : Text) : Bool := (parseTag tag).any (fun ft => ft.isOptional selector)

def kept (exported : Bool) (tag : Text) : Bool :=
  exported && (parseTag tag).all (fun ft => !ft.isIgnored selector)

mutual

def clean : (t : Ty) → Val t → Val t
  | .bool, v | .int _ _ _, v | .string _, v => v
  | .slice elem, v => List.map (clean elem) v
  | .array _ elem, v => fun i => clean elem (v i)
  | .pointer elem, v => Option.map (clean elem) v
  | .struct _ fields, v => cleanFields fields v

def cleanFields : (fs : Fields) → FieldVals fs → FieldVals fs
  | .nil, v => v
  | .cons exported tag ty rest, v =>
    (if kept selector exported tag then clean ty v.1 else zero ty,cleanFields rest v.2)

end

def writes (r : Except Err (List Byte)) : Bool :=
  match r with
  | .ok (_::_) => true
  | _ => false

/-- Bytes that are read in one go need a byte, of theirs or of what follows. -/
def Readable {α : Type} (l : List α) (more : Bool) : Prop := l ≠ [] ∨ more

def GoodList {α : Type} (good : α → Bool → Prop) (enc : α → Except Err (List Byte)) :
    List α → Bool → Prop
  | [], _ => True
  | a::rest, more => good a (more || writes (concat enc rest)) ∧ GoodList good enc rest more

def isSet : (t : Ty) → Val t → Bool
  | .pointer _, v => Option.isSome v
  | _, _ => false

mutual

/-- The value is encoded with the given addressability, decoded with or without a pointer at hand,
and followed by more bytes or not. -/
def Good (addressable pointer : Bool) : (t : Ty) → Val t → Bool → Prop
  | .bool, _, _ | .int _ _ _, _, _ => True
  | .string named, v, more => named = false ∧ Readable (α := Byte) v more
  | .slice elem, v, more =>
    if elem.isUint8 then elem.isNamed = false ∧ Readable (α := Val elem) v more
    else GoodList (Good true true elem) (encode selector true elem) v more
  | .array n elem, v, more =>
    if elem.isUint8 then Readable (List.ofFn (α := Val elem) v) more else n = 0
  | .pointer elem, v, more => pointer = false ∧ ∀ x, v = some x → Good true true elem x more
  | .struct receiver fields, v, more =>
    encodesEnum receiver addressable = decodesEnum receiver pointer ∧
      if encodesEnum receiver addressable then GoodVariant fields v more
      else GoodFields addressable fields v more

def GoodPointee : (t : Ty) → Val t → Bool → Prop
  | .pointer elem, v, more => ∀ x, v = some x → Good true false elem x more
  | _, _, _ => True

/-- The fields behind the first one that is set are zero. -/
def GoodVariant : (fs : Fields) → FieldVals fs → Bool → Prop
  | .nil, _, _ => True
  | .cons exported tag ty rest, v, more =>
    if kept selector exported tag ∧ isSet ty v.1 then
      Good true false ty v.1 more ∧ cleanFields selector rest v.2 = zeros rest
    else GoodVariant rest v.2 more

def GoodFields (addressable : Bool) : (fs : Fields) → FieldVals fs → Bool → Prop
  | .nil, _, _ => True
  | .cons exported tag ty rest, v, more =>
    (kept selector exported tag →
      if optionalTag selector tag then
        GoodPointee ty v.1 (more || writes (encodeStruct selector addressable rest v.2))
      else Good addressable false ty v.1
        (more || writes (encodeStruct selector addressable rest v.2))) ∧
    GoodFields addressable rest v.2 more

end

mutual

/-- Nowhere in the type does the encoder see an enum where the decoder sees a struct, or the other
way round. -/
def Aligned (addressable pointer : Bool) : Ty → Prop
  | .slice elem | .pointer elem => Aligned true true elem
  | .struct receiver fields =>
    encodesEnum receiver addressable = decodesEnum receiver pointer ∧
      if encodesEnum receiver addressable then AlignedVariants fields
      else AlignedFields addressable fields
  | _ => True

def AlignedPointee : Ty → Prop
  | .pointer elem => Aligned true false elem
  | _ => True

def AlignedVariants : Fields → Prop
  | .nil => True
  | .cons _ _ ty rest => Aligned true false ty ∧ AlignedVariants rest

def AlignedFields (addressable : Bool) : Fields → Prop
  | .nil => True
  | .cons _ tag ty rest =>
    (if optionalTag selector tag then AlignedPointee ty else Aligned addressable false ty) ∧
      AlignedFields addressable rest

end
end

/-- Decoding yields the value under the condition, and for an aligned type under the condition
only. -/
structure Faithful {α : Type} (good aligned : Prop) (d : Decoder α) (bytes rest : List Byte)
    (a : α) : Prop where
  yields : good → d (bytes++rest) = .ok (a,rest)
  only : aligned → ∀ x left, d (bytes++rest) = .ok (x,left) → left = rest ∧ (x = a → good)

section
variable {α β : Type}

theorem bind_run (m : Decoder α) (f : α → Decoder β) (input : List Byte) :
    (m >>= f) input = match m input with
      | .error e => .error e
      | .ok (a,rest) => f a rest := by
  change (m input >>= fun p => f p.1 p.2) = _
  cases m input <;> rfl

theorem faithful_mono {g : Prop} {g' al al' : Prop} {d : Decoder α} {bytes rest : List Byte} {a : α}
    (h : Faithful g al d bytes rest a) (hg : g ↔ g') (hal : al' → al) :
    Faithful g' al' d bytes rest a :=
  ⟨fun hg' => h.yields (hg.mpr hg'),fun ha x left hd =>
    ⟨(h.only (hal ha) x left hd).1,fun hx => hg.mp ((h.only (hal ha) x left hd).2 hx)⟩⟩

/-- A part that is not read and filled in. -/
theorem faithful_constant (rest : List Byte) (z a : α) (al : Prop) :
    Faithful (a = z) al (pure z : Decoder α) [] rest a := by
  constructor
  · rintro rfl
    rfl
  intro _ x left h
  cases h
  exact ⟨rfl,Eq.symm⟩

theorem faithful_pure {rest : List Byte} (a : α) (al : Prop) :
    Faithful True al (pure a : Decoder α) [] rest a := by
  have h := faithful_constant rest a a al
  rwa [eq_self_iff_true] at h

theorem faithful_of_run {d : Decoder α} (bytes rest : List Byte) (a : α) (al : Prop)
    (h : d (bytes++rest) = .ok (a,rest)) : Faithful True al d bytes rest a := by
  refine ⟨fun _ => h,fun _ x left hd => ?_⟩
  rw [h] at hd
  cases hd
  exact ⟨rfl,fun _ => trivial⟩

variable {d : Decoder α} {rest bytes : List Byte} {g : Prop} {al : Prop}

theorem faithful_never {a : α} (hg : ¬g)
    (h : ∀ p, d (bytes++rest) ≠ .ok p) : Faithful g al d bytes rest a :=
  ⟨fun hg' => absurd hg' hg,fun _ _ _ hd => absurd hd (h _)⟩

theorem faithful_after (d : Decoder α) (f : α → Decoder β)
    (front back rest : List Byte) (a : α) (b : β)
    (hd : d (front++(back++rest)) = .ok (a,back++rest))
    (hf : Faithful g al (f a) back rest b) : Faithful g al (d >>= f) (front++back) rest b := by
  have hrun : (d >>= f) (front++back++rest) = f a (back++rest) := by
    rw [append_assoc,bind_run,hd]
  refine ⟨fun hg => ?_,fun hal x left hx => ?_⟩
  · rw [hrun]
    exact hf.yields hg
  · rw [hrun] at hx
    exact hf.only hal x left hx

/-- Two parts one after the other, put together by a function that keeps them apart. -/
theorem faithful_pair {γ : Type} {c : α → β → γ} (hc : ∀ x y a b, c x y = c a b → x = a ∧ y = b)
    {g1 g2 al1 al2 : Prop} (e : Decoder β) {front : List Byte} (back rest : List Byte) (a : α)
    (b : β) (hd : Faithful g1 al1 d front (back++rest) a) (he : Faithful g2 al2 e back rest b) :
    Faithful (g1 ∧ g2) (al1 ∧ al2) (do
      let x ← d
      let y ← e
      pure (c x y)) (front++back) rest (c a b) := by
  constructor
  · rintro ⟨h1,h2⟩
    rw [append_assoc,bind_run,hd.yields h1]
    dsimp only
    rw [bind_run,he.yields h2]
    rfl
  rintro ⟨hal1,hal2⟩ z left hz
  rw [append_assoc,bind_run] at hz
  rcases hr : d (front++(back++rest)) with err | p
  · rw [hr] at hz
    cases hz
  obtain ⟨x,mid⟩ := p
  obtain ⟨rfl,hx⟩ := hd.only hal1 x mid hr
  rw [hr] at hz
  dsimp only at hz
  rw [bind_run] at hz
  rcases hs : e (back++rest) with err | q
  · rw [hs] at hz
    cases hz
  obtain ⟨y,last⟩ := q
  obtain ⟨rfl,hy⟩ := he.only hal2 y last hs
  rw [hs] at hz
  cases hz
  refine ⟨rfl,fun heq => ?_⟩
  obtain ⟨h1,h2⟩ := hc x y a b heq
  exact ⟨hx h1,hy h2⟩

theorem faithful_map {c : α → β} (hc : Function.Injective c)
    {a : α} (hd : Faithful g al d bytes rest a) :
    Faithful g al (do
      let x ← d
      pure (c x)) bytes rest (c a) := by
  constructor
  · intro hg
    rw [bind_run,hd.yields hg]
    rfl
  intro hal z left hz
  rw [bind_run] at hz
  rcases hr : d (bytes++rest) with err | p
  · rw [hr] at hz
    cases hz
  obtain ⟨x,mid⟩ := p
  obtain ⟨rfl,hx⟩ := hd.only hal x mid hr
  rw [hr] at hz
  cases hz
  exact ⟨rfl,fun heq => hx (hc heq)⟩

theorem faithful_andFields {g1 g2 : Prop} (al1 al2 : Prop) {e : Decoder β}
    (front back rest : List Byte) (a : α) (b : β)
    (hd : Faithful g1 al1 d front (back++rest) a) (he : Faithful g2 al2 e back rest b) :
    Faithful (g1 ∧ g2) (al1 ∧ al2) (andFields d e) (front++back) rest (a,b) :=
  faithful_pair (fun _ _ _ _ h => ⟨congrArg Prod.fst h,congrArg Prod.snd h⟩) e back rest a b hd he

end

variable {n : ℕ} {front rest : List Byte}

theorem takeLength_encode (h : encodeLength n = .ok front) :
    takeLength (front++rest) = .ok (n,rest) := by
  rw [encodeLength] at h
  split at h
  · rename_i hn
    cases h
    rw [takeLength,uleb128_round_trip rest hn]
  · cases h

theorem takeBytes_append (rest : List Byte) (h : front ≠ [] ∨ rest ≠ []) :
    takeBytes front.length (front++rest) = .ok (front,rest) := by
  rw [takeBytes,read_append h]
  simp

def follows (rest : List Byte) : Bool := !rest.isEmpty

variable {α : Type}

theorem readable_iff (l : List α) (bytes rest : List Byte) (h : bytes.length = l.length) :
    Readable l (follows rest) ↔ bytes ≠ [] ∨ rest ≠ [] := by
  have hb : bytes = [] ↔ l = [] := by
    rw [← length_eq_zero_iff,h,length_eq_zero_iff]
  simp [Readable,follows,hb]

variable {bytes : List Byte}

theorem faithful_takeBytes {l : List α} (h : bytes.length = l.length) :
    Faithful (Readable l (follows rest)) True (takeBytes bytes.length) bytes rest bytes := by
  by_cases hr : bytes ≠ [] ∨ rest ≠ []
  · have hrun := faithful_of_run _ _ _ True (takeBytes_append rest hr)
    exact faithful_mono hrun
      (iff_of_true trivial ((readable_iff l bytes rest h).mpr hr)) id
  have hnot := mt (readable_iff l bytes rest h).mp hr
  obtain ⟨rfl,rfl⟩ : bytes = [] ∧ rest = [] := by simpa using hr
  exact faithful_never hnot (fun _ hp => nomatch hp)

variable {out : List Byte}

theorem faithful_readByteSlice (l : List α) (rest : List Byte)
    (h : bytes.length = l.length) (henc : encodeByteSlice bytes = .ok out) :
    Faithful (Readable l (follows rest)) True readByteSlice out rest bytes := by
  obtain ⟨size,hsize,hout⟩ := bind_ok henc
  cases hout
  exact faithful_after _ _ _ _ _ _ _ (takeLength_encode hsize) (faithful_takeBytes h)

variable {a : α}

theorem faithful_assign {β : Type} (named : Bool) {c : α → β} (hc : Function.Injective c)
    {g al : Prop} {d : Decoder α} (hd : Faithful g al d bytes rest a) :
    Faithful (named = false ∧ g) al (do
      let x ← d
      assign named (c x)) bytes rest (c a) := by
  rcases named with _ | _
  · exact faithful_mono (faithful_map hc hd) (by simp) id
  refine faithful_never (by simp) (fun p hp => ?_)
  rw [bind_run] at hp
  cases hr : d (bytes++rest) with
  | error | ok =>
    rw [hr] at hp
    cases hp

variable {t : Ty}

theorem isUint8_eq (h : t.isUint8) : ∃ named, t = .int .w8 false named := by
  cases t with
  | int width signed named =>
    cases width <;> cases signed <;> simp [Ty.isUint8] at h
    exact ⟨named,rfl⟩
  | _ => simp [Ty.isUint8] at h

theorem ofByte_byteOf (h : t.isUint8) (v : Val t) : ofByte t (byteOf t v) = v := by
  obtain ⟨named,rfl⟩ := isUint8_eq h
  obtain ⟨n,hn⟩ : Fin 256 := v
  apply Fin.ext
  change (UInt8.ofNat n).toNat%256 = n
  rw [byte_small n hn,mod_eq_of_lt hn]

theorem ofByte_injective (h : t.isUint8) : Function.Injective (ofByte t) := by
  obtain ⟨named,rfl⟩ := isUint8_eq h
  intro a b hab
  have hv := congrArg (fun x : Fin 256 => x.val) hab
  change a.toNat%256 = b.toNat%256 at hv
  have ha := a.toNat_lt
  have hb := b.toNat_lt
  apply UInt8.toNat_inj.mp
  omega

variable {selector : Text}

theorem clean_uint8 (h : t.isUint8) {v : Val t} : clean selector t v = v := by
  obtain ⟨named,rfl⟩ := isUint8_eq h
  rfl

variable {l : List (Val t)}

theorem map_ofByte_byteOf (h : t.isUint8) : (l.map (byteOf t)).map (ofByte t) = l := by
  rw [map_map]
  exact map_id'' (fun v => ofByte_byteOf h v) l

theorem faithful_bool {b : Bool} : Faithful True True decodeBool (encodeBool b) rest b := by
  apply faithful_of_run
  cases b <;> rfl

theorem faithful_int {width : Width} {n : Fin (256^width.bytes)} :
    Faithful True True (decodeInt width) (encodeInt width n) rest n := by
  have hlen : (encodeInt width n).length = width.bytes := littleEndian_length
  have hne : encodeInt width n ≠ [] := by
    intro h
    rw [h] at hlen
    cases width <;> cases hlen
  apply faithful_of_run
  have hread := takeBytes_append rest (.inl hne)
  rw [hlen] at hread
  rw [decodeInt,bind_run,hread]
  have hval : ofLittleEndian (encodeInt width n)%256^width.bytes = n.val := by
    rw [encodeInt,ofLittleEndian_littleEndian,mod_mod,mod_eq_of_lt n.isLt]
  change ok (_,rest) = ok (n,rest)
  congr 2
  exact Fin.ext hval

theorem faithful_string {named : Bool} {s : List Byte} (henc : encodeByteSlice s = .ok out) :
    Faithful (named = false ∧ Readable s (follows rest)) True (decodeString named) out rest s :=
  faithful_assign named Function.injective_id
    (faithful_readByteSlice s rest rfl henc)

theorem faithful_byteSlice (h : t.isUint8) (henc : encodeByteSlice (l.map (byteOf t)) = .ok out) :
    Faithful (t.isNamed = false ∧ Readable l (follows rest)) True
      (decodeByteSlice t.isNamed (ofByte t)) out rest l := by
  have hf := faithful_assign t.isNamed (map_injective_iff.mpr (ofByte_injective h))
    (faithful_readByteSlice l rest (by simp) henc)
  rwa [map_ofByte_byteOf h] at hf

theorem faithful_byteArray (h : t.isUint8) {v : Fin n → Val t} :
    Faithful (Readable (List.ofFn v) (follows rest)) True (decodeByteArray n (ofByte t))
      ((List.ofFn v).map (byteOf t)) rest v := by
  have hlen : ((List.ofFn v).map (byteOf t)).length = n := by simp
  have hvalue : (fun i : Fin n => ofByte t (((List.ofFn v).map (byteOf t)).getD i 0)) = v := by
    simp [ofByte_byteOf h]
  have hiff := readable_iff (List.ofFn v) ((List.ofFn v).map (byteOf t)) rest (by simp)
  by_cases hr : (List.ofFn v).map (byteOf t) ≠ [] ∨ rest ≠ []
  · have htake := takeBytes_append rest hr
    rw [hlen] at htake
    have hrun : decodeByteArray n (ofByte t) ((List.ofFn v).map (byteOf t)++rest) =
        .ok (v,rest) := by
      rw [decodeByteArray,bind_run,htake]
      change ok (_,rest) = _
      rw [hvalue]
    exact faithful_mono (faithful_of_run _ _ _ True hrun)
      (iff_of_true trivial (hiff.mpr hr)) id
  · have hnot := mt hiff.mp hr
    obtain ⟨hb,rfl⟩ : (List.ofFn v).map (byteOf t) = [] ∧ rest = [] := by
      rw [not_or,not_not,not_not] at hr
      exact hr
    refine faithful_never hnot (fun p hp => ?_)
    rw [hb] at hp
    cases hp

section
variable {β : Type} {image : α → β} {al : Prop} {dec : Decoder β}
    {enc : α → Except Err (List Byte)} {good : α → Bool → Prop} {l : List α}

theorem faithful_many (h : ∀ a bytes rest, enc a = .ok bytes →
      Faithful (good a (follows rest)) al dec bytes rest (image a))
    (bytes : List Byte) (henc : concat enc l = .ok bytes) :
    Faithful (GoodList good enc l (follows rest)) al (decodeMany dec l.length) bytes rest
      (l.map image) := by
  induction l generalizing bytes with
  | nil =>
    cases henc
    exact faithful_pure [] al
  | cons a l ih =>
    obtain ⟨front,hfront,henc⟩ := bind_ok henc
    obtain ⟨back,hback,henc⟩ := bind_ok henc
    cases henc
    have hmore : follows (back++rest) = (follows rest || writes (concat enc l)) := by
      rw [hback]
      cases back <;> simp [follows,writes]
    have hhead := h a front (back++rest) hfront
    rw [hmore] at hhead
    have hpair := faithful_pair (fun _ _ _ _ => List.cons.inj) _ back
      rest _ _ hhead (ih back hback)
    exact faithful_mono hpair Iff.rfl (fun hal => ⟨hal,hal⟩)

theorem faithful_slice (h : ∀ a bytes rest, enc a = .ok bytes →
      Faithful (good a (follows rest)) al dec bytes rest (image a))
    (henc : encodeSlice enc l = .ok out) :
    Faithful (GoodList good enc l (follows rest)) al (decodeSlice dec) out rest
      (l.map image) := by
  obtain ⟨size,hsize,henc⟩ := bind_ok henc
  obtain ⟨content,hcontent,henc⟩ := bind_ok henc
  cases henc
  exact faithful_after _ _ _ _ _ _ _ (takeLength_encode hsize) (faithful_many h content hcontent)

theorem faithful_array {z : β} {v : Fin n → β}
    (hempty : n = 0 → bytes = []) : Faithful (n = 0) True (decodeArray n z) bytes rest v := by
  by_cases hn : n = 0
  · subst hn
    rw [hempty rfl]
    have hrun : decodeArray 0 z ([]++rest) = .ok (v,rest) := by
      change ok (_,rest) = _
      rw [Subsingleton.elim v (fun _ => z)]
    exact faithful_mono (faithful_of_run _ _ _ True hrun) (iff_of_true trivial rfl) id
  · refine faithful_never hn (fun p hp => ?_)
    rw [decodeArray,if_neg hn] at hp
    cases hp

end

theorem liftM_ok {input : List Byte} :
    (liftM (ok a : Except Err α) : Decoder α) input = .ok (a,input) := rfl

/-- Every variant number stands for one field. -/
theorem buildEnumLayout_nodup {fs : Fields} (layout : EnumLayout) {out : EnumLayout} {i : ℕ}
    (h : (layout.variants.map Prod.fst).Nodup)
    (hb : buildEnumLayout selector layout i fs = .ok out) : (out.variants.map Prod.fst).Nodup := by
  match fs with
  | .nil =>
    cases hb
    exact h
  | .cons exported tag ty rest =>
    rw [buildEnumLayout] at hb
    split at hb
    · exact buildEnumLayout_nodup layout h hb
    rcases hp : parseTag tag with _ | ft
    · rw [hp] at hb
      cases hb
    rw [hp] at hb
    dsimp only at hb
    rcases hv : ft.variantNum selector with _ | n
    · rw [hv] at hb
      exact buildEnumLayout_nodup ⟨layout.tagged || ft.hasAnyEnumNum,layout.variants⟩ h hb
    rw [hv] at hb
    dsimp only at hb
    split at hb
    · cases hb
    rename_i hnew
    refine buildEnumLayout_nodup _ ?_ hb
    rw [map_append]
    refine List.Nodup.append h (nodup_singleton n) ?_
    intro k hk hkn
    obtain rfl := mem_singleton.mp hkn
    obtain ⟨e,he,rfl⟩ := mem_map.mp hk
    exact hnew (lookup_isSome_iff.mpr ⟨e,he,by simp⟩)

variable {n : ℤ} {i : ℕ}

theorem lookup_of_nodup {l : List (ℤ × ℕ)} (h : (l.map Prod.fst).Nodup)
    (hm : (n,i) ∈ l) : l.lookup n = some i := by
  induction l with
  | nil => exact absurd hm not_mem_nil
  | cons e rest ih =>
    obtain ⟨hnot,hrest⟩ := nodup_cons.mp h
    rw [lookup_cons]
    rcases mem_cons.mp hm with rfl | hm
    · simp
    have hne : n ≠ e.1 := by
      rintro rfl
      exact hnot (mem_map.mpr ⟨_,hm,rfl⟩)
    rw [beq_false_of_ne hne]
    exact ih hrest hm

theorem fieldOf_variantOf {layout : EnumLayout} (h : (layout.variants.map Prod.fst).Nodup)
    {fields : Fields} (hi : i < fields.length) (hn : layout.variantOf i = .ok n)
    (hf : encodeVariant n = .ok front) :
    ∃ k, takeLength (front++rest) = .ok (k,rest) ∧ layout.fieldOf fields k = .ok i := by
  cases n with
  | negSucc m => cases hf
  | ofNat k =>
    refine ⟨k,takeLength_encode hf,?_⟩
    rw [EnumLayout.variantOf] at hn
    rw [EnumLayout.fieldOf]
    by_cases ht : layout.tagged
    · rw [if_pos ht] at hn ⊢
      rcases hb : layout.byField i with _ | m
      · rw [hb] at hn
        cases hn
      rw [hb] at hn
      cases hn
      obtain ⟨e,he,hem⟩ := Option.map_eq_some_iff.mp hb
      have hmem := mem_of_find?_eq_some he
      have hpos : e.2 = i := by simpa using find?_some he
      have hpair : ((Int.ofNat k),i) ∈ layout.variants := by
        rw [← hem,← hpos]
        exact hmem
      have hlook := lookup_of_nodup h hpair
      rw [show (k : ℤ) = Int.ofNat k from rfl,hlook]
    · rw [if_neg ht] at hn ⊢
      have hk : k = i := by
        have := ok.inj hn
        exact (Int.ofNat.inj this).symm
      subst hk
      rw [if_neg (by omega)]

section
variable (selector : Text) {ft : FieldTag} {tag : Text}

theorem kept_of_parse (exported : Bool) (h : parseTag tag = some ft) :
    kept selector exported tag = (exported && !ft.isIgnored selector) := by
  simp [kept,h]

theorem optional_of_parse (h : parseTag tag = some ft) :
    optionalTag selector tag = ft.isOptional selector := by
  simp [optionalTag,h]

theorem encodePointee_cases {v : Val t} {p : Option (Except Err (List Byte))}
    (h : encodePointee selector t v = some p) :
    (∃ payload, p = some payload ∧ isSet t v ∧
      ∀ addressable, encode selector addressable t v = payload) ∨
    (p = none ∧ isSet t v = false ∧ clean selector t v = zero t) := by
  cases t with
  | pointer elem =>
    cases v with
    | none =>
      cases h
      exact .inr ⟨rfl,rfl,rfl⟩
    | some x =>
      cases h
      exact .inl ⟨_,rfl,rfl,fun _ => rfl⟩
  | _ => cases h

variable {elem : Ty} {pointer : Bool}

theorem decode_slice (hu : elem.isUint8 = false) :
    decode selector pointer (.slice elem) = decodeSlice (decode selector true elem) := by
  rw [decode,hu]
  rfl

theorem decode_slice_bytes (hu : elem.isUint8) :
    decode selector pointer (.slice elem) = decodeByteSlice elem.isNamed (ofByte elem) := by
  rw [decode,hu]
  rfl

variable {n : ℕ}

theorem decode_array (hu : elem.isUint8 = false) :
    decode selector pointer (.array n elem) = decodeArray n (zero elem) := by
  rw [decode,hu]
  rfl

theorem decode_array_bytes (hu : elem.isUint8) :
    decode selector pointer (.array n elem) = decodeByteArray n (ofByte elem) := by
  rw [decode,hu]
  rfl

variable {addressable : Bool}

def FaithfulAt (addressable pointer : Bool) (t : Ty) (v : Val t) (bytes rest : List Byte) : Prop :=
  Faithful (Good selector addressable pointer t v (follows rest))
    (Aligned selector addressable pointer t) (decode selector pointer t) bytes rest
    (clean selector t v)

def FaithfulFields (addressable : Bool) (fs : Fields) (v : FieldVals fs)
    (d : Decoder (FieldVals fs)) (bytes rest : List Byte) : Prop :=
  Faithful (GoodFields selector addressable fs v (follows rest))
    (AlignedFields selector addressable fs) d bytes rest (cleanFields selector fs v)

theorem faithful_slice_type {v : Val (.slice elem)}
    (ih : ∀ a b r, encode selector true elem a = .ok b →
      FaithfulAt selector true true elem a b r)
    (h : encode selector addressable (.slice elem) v = .ok bytes) :
    FaithfulAt selector addressable pointer (.slice elem) v bytes rest := by
  rw [encode] at h
  rw [FaithfulAt,Good]
  cases hu : elem.isUint8 with
  | true =>
    rw [hu] at h
    have hclean : clean selector (.slice elem) v = v :=
      map_id'' (fun x => clean_uint8 hu) _
    rw [hclean,decode_slice_bytes selector hu]
    exact faithful_mono (faithful_byteSlice hu h) Iff.rfl (fun _ => trivial)
  | false =>
    rw [hu] at h
    rw [decode_slice selector hu]
    exact faithful_slice ih h

theorem faithful_array_type {v : Val (.array n elem)}
    (h : encode selector addressable (.array n elem) v = .ok bytes) :
    FaithfulAt selector addressable pointer (.array n elem) v bytes rest := by
  rw [encode] at h
  rw [FaithfulAt,Good]
  cases hu : elem.isUint8 with
  | true =>
    rw [hu] at h
    have hclean : clean selector (.array n elem) v = v :=
      funext (fun i => clean_uint8 hu)
    rw [hclean,decode_array_bytes selector hu]
    cases addressable with
    | false => cases h
    | true =>
      cases h
      exact faithful_mono (faithful_byteArray hu) Iff.rfl (fun _ => trivial)
  | false =>
    rw [hu] at h
    rw [decode_array selector hu]
    refine faithful_mono (faithful_array ?_) Iff.rfl (fun _ => trivial)
    rintro rfl
    cases h
    rfl

variable {v : Val (.pointer elem)}

theorem faithful_pointer_type (ih : ∀ a b r, encode selector true elem a = .ok b →
      FaithfulAt selector true true elem a b r)
    (h : encode selector addressable (.pointer elem) v = .ok bytes) :
    FaithfulAt selector addressable pointer (.pointer elem) v bytes rest := by
  rw [FaithfulAt,Good]
  rcases v with _ | x
  · cases h
  cases pointer with
  | true =>
    refine faithful_never (by simp) (fun p hp => ?_)
    cases hp
  | false =>
    have hmap := faithful_map (Option.some_injective _) (ih x bytes rest h)
    refine faithful_mono hmap ⟨fun hg => ⟨rfl,?_⟩,fun hg => hg.2 x rfl⟩ id
    intro y hy
    cases hy
    exact hg

def Picked (layout : EnumLayout) (i : ℕ) (fs : Fields) (v : FieldVals fs)
    (bytes rest : List Byte) : Prop :=
  ∃ j front back n, bytes = front++back ∧ j < fs.length ∧ layout.variantOf (i+j) = .ok n ∧
    encodeVariant n = .ok front ∧
    Faithful (GoodVariant selector fs v (follows rest)) (AlignedVariants selector fs)
      (decodeVariant selector j fs) back rest (cleanFields selector fs v)

variable {fields : Fields}

theorem faithful_enum {v : FieldVals fields} {layout : EnumLayout}
    (hl : enumLayoutFor selector fields = .ok layout)
    (h : Picked selector layout 0 fields v bytes rest) :
    Faithful (GoodVariant selector fields v (follows rest)) (AlignedVariants selector fields)
      (decodeEnumWith selector fields (fun i => decodeVariant selector i fields)) bytes rest
      (cleanFields selector fields v) := by
  obtain ⟨j,front,back,n,rfl,hj,hn,hfront,hf⟩ := h
  rw [zero_add] at hn
  have hnodup := buildEnumLayout_nodup ⟨false,[]⟩ nodup_nil hl
  obtain ⟨k,htake,hk⟩ := fieldOf_variantOf hnodup hj hn hfront
  refine faithful_after _ _ _ _ _ k _ htake ?_
  rw [hl]
  refine faithful_after _ _ [] back rest layout _ liftM_ok ?_
  rw [hk]
  exact faithful_after _ _ [] back rest j _ liftM_ok hf

theorem faithful_struct_type {receiver : Receiver} {v : Val (.struct receiver fields)}
    (hvariant : ∀ layout, encodeEnum selector layout 0 fields v = .ok bytes →
      Picked selector layout 0 fields v bytes rest)
    (hfields : encodeStruct selector addressable fields v = .ok bytes →
      FaithfulFields selector addressable fields v (decodeStruct selector fields) bytes rest)
    (h : encode selector addressable (.struct receiver fields) v = .ok bytes) :
    FaithfulAt selector addressable pointer (.struct receiver fields) v bytes rest := by
  by_cases he : encodesEnum receiver addressable = decodesEnum receiver pointer
  · rw [encode] at h
    rw [FaithfulAt,Good,Aligned,decode,← he]
    cases hd : encodesEnum receiver addressable with
    | true =>
      rw [hd] at h
      obtain ⟨layout,hl,henc⟩ := bind_ok h
      exact faithful_mono (faithful_enum selector hl (hvariant layout henc))
        (by simp) (fun hal => by simpa using hal)
    | false =>
      rw [hd] at h
      exact faithful_mono (hfields h) (by simp) (fun hal => by simpa using hal)
  · constructor
    · intro hg
      exact absurd hg.1 he
    intro hal
    exact absurd hal.1 he

theorem faithful_pointee_type (ih : ∀ a b r, encode selector true elem a = .ok b →
      FaithfulAt selector true false elem a b r)
    (h : encodeOptional (encodePointee selector (.pointer elem) v) = .ok bytes) :
    Faithful (GoodPointee selector (.pointer elem) v (follows rest))
      (AlignedPointee selector (.pointer elem))
      (decodeOptional (zero (.pointer elem)) (decodePointee selector (.pointer elem))) bytes rest
      (clean selector (.pointer elem) v) := by
  rcases v with _ | x
  · cases h
    refine faithful_mono (faithful_of_run [0] rest none True rfl) ?_
      (fun _ => trivial)
    exact iff_of_true trivial (fun x hx => nomatch hx)
  obtain ⟨payload,hpayload,henc⟩ := bind_ok h
  cases henc
  have hmap := faithful_map (Option.some_injective _) (ih x payload rest hpayload)
  have hone := faithful_after takeByte (fun present => if present = 0 then pure none
    else decodePointer (decode selector false elem)) [1] payload rest 1 _ rfl hmap
  refine faithful_mono hone ⟨fun hg y hy => ?_,fun hg => hg x rfl⟩ id
  cases hy
  exact hg

section
variable (exported : Bool) (tag : Text) (ty : Ty) (fs : Fields)
  {layout : EnumLayout} {v : FieldVals (.cons exported tag ty fs)}

theorem picked_later (hskip : ¬(kept selector exported tag ∧ isSet ty v.1))
    (hzero : (cleanFields selector (.cons exported tag ty fs) v).1 = zero ty)
    (h : Picked selector layout (i+1) fs v.2 bytes rest) :
    Picked selector layout i (.cons exported tag ty fs) v bytes rest := by
  obtain ⟨j,front,back,n,hbytes,hj,hn,hfront,hf⟩ := h
  refine ⟨j+1,front,back,n,hbytes,succ_lt_succ hj,?_,hfront,?_⟩
  · rw [← hn,add_right_comm,add_assoc]
  have hpair := faithful_andFields True _ [] back rest (zero ty) _ (faithful_pure _ True) hf
  have hvalue : cleanFields selector (.cons exported tag ty fs) v =
      (zero ty,cleanFields selector fs v.2) := Prod.ext hzero rfl
  rw [hvalue,GoodVariant,if_neg hskip]
  exact faithful_mono hpair (by simp) (fun hal => ⟨trivial,hal.2⟩)

theorem picked_here (hkept : kept selector exported tag) (hset : isSet ty v.1)
    (h : encodeVariantField layout i (encode selector true ty v.1) = .ok bytes)
    (ih : ∀ b, encode selector true ty v.1 = .ok b →
      FaithfulAt selector true false ty v.1 b rest) :
    Picked selector layout i (.cons exported tag ty fs) v bytes rest := by
  obtain ⟨n,hn,h⟩ := bind_ok h
  obtain ⟨front,hfront,h⟩ := bind_ok h
  obtain ⟨back,hback,h⟩ := bind_ok h
  cases h
  refine ⟨0,front,back,n,rfl,succ_pos _,hn,hfront,?_⟩
  have hexported : exported := by
    rw [kept,Bool.and_eq_true] at hkept
    exact hkept.1
  have hpair := faithful_andFields _ True back [] rest _ _ (ih back hback)
    (faithful_constant rest (zeros fs) (cleanFields selector fs v.2) True)
  rw [append_nil] at hpair
  have hvalue : cleanFields selector (.cons exported tag ty fs) v =
      (clean selector ty v.1,cleanFields selector fs v.2) := by
    rw [cleanFields,if_pos hkept]
  rw [hvalue,GoodVariant,if_pos ⟨hkept,hset⟩,decodeVariant,if_pos hexported]
  exact faithful_mono hpair Iff.rfl (fun hal => ⟨hal.1,trivial⟩)

theorem faithful_skipped (hskip : kept selector exported tag = false)
    (h : FaithfulFields selector addressable fs v.2 (decodeStruct selector fs) bytes rest) :
    FaithfulFields selector addressable (.cons exported tag ty fs) v
      (andFields (pure (zero ty)) (decodeStruct selector fs)) bytes rest := by
  have hpair := faithful_andFields True _ [] bytes rest (zero ty) _ (faithful_pure _ True) h
  unfold FaithfulFields
  rw [GoodFields,cleanFields,hskip]
  exact faithful_mono hpair (by simp) (fun hal => ⟨trivial,hal.2⟩)

variable {back : List Byte}

theorem follows_back {enc : Except Err (List Byte)} (h : enc = .ok back) :
    follows (back++rest) = (follows rest || writes enc) := by
  rw [h]
  cases back <;> simp [follows,writes]

theorem faithful_kept {d : Decoder (Val ty)} (hkept : kept selector exported tag) (hhead : Faithful
      (if optionalTag selector tag then GoodPointee selector ty v.1 (follows (back++rest))
        else Good selector addressable false ty v.1 (follows (back++rest)))
      (if optionalTag selector tag then AlignedPointee selector ty
        else Aligned selector addressable false ty)
      d front (back++rest) (clean selector ty v.1))
    (hback : encodeStruct selector addressable fs v.2 = .ok back)
    (h : FaithfulFields selector addressable fs v.2 (decodeStruct selector fs) back rest) :
    FaithfulFields selector addressable (.cons exported tag ty fs) v
      (andFields d (decodeStruct selector fs)) (front++back) rest := by
  have hpair := faithful_andFields _ _ front back rest _ _ hhead h
  rw [follows_back hback] at hpair
  unfold FaithfulFields
  rw [GoodFields,cleanFields,if_pos hkept]
  exact faithful_mono hpair (by simp [hkept]) id

end

mutual

theorem faithful_type : (t : Ty) → ∀ (addressable pointer : Bool) (v : Val t)
    (bytes rest : List Byte), encode selector addressable t v = .ok bytes →
    FaithfulAt selector addressable pointer t v bytes rest
  | .bool => by
    intro addressable pointer v bytes rest h
    cases h
    exact faithful_bool
  | .int width signed named => by
    intro addressable pointer v bytes rest h
    cases h
    exact faithful_int
  | .string named => by
    intro addressable pointer v bytes rest h
    exact faithful_string h
  | .slice elem => by
    intro addressable pointer v bytes rest h
    exact faithful_slice_type selector
      (faithful_type elem true true) h
  | .array n elem => by
    intro addressable pointer v bytes rest h
    exact faithful_array_type selector h
  | .pointer elem => by
    intro addressable pointer v bytes rest h
    exact faithful_pointer_type selector
      (faithful_type elem true true) h
  | .struct receiver fields => by
    intro addressable pointer v bytes rest h
    exact faithful_struct_type selector
      (fun layout => faithful_variant fields layout 0 v bytes rest)
      (faithful_fields fields addressable v bytes rest) h

theorem faithful_pointee : (t : Ty) → ∀ (v : Val t) (bytes rest : List Byte),
    encodeOptional (encodePointee selector t v) = .ok bytes →
    Faithful (GoodPointee selector t v (follows rest)) (AlignedPointee selector t)
      (decodeOptional (zero t) (decodePointee selector t)) bytes rest (clean selector t v)
  | .pointer elem => by
    intro v bytes rest h
    exact faithful_pointee_type selector (faithful_type elem true false) h
  | .bool | .int _ _ _ | .string _ | .slice _ | .array _ _ | .struct _ _ =>
    fun _ _ _ h => nomatch h

theorem faithful_variant : (fs : Fields) → ∀ (layout : EnumLayout) (i : ℕ) (v : FieldVals fs)
    (bytes rest : List Byte), encodeEnum selector layout i fs v = .ok bytes →
    Picked selector layout i fs v bytes rest
  | .nil => fun _ _ _ _ _ h => nomatch h
  | .cons false tag ty fs => by
    intro layout i v bytes rest h
    exact picked_later selector false tag ty fs (by simp [kept]) rfl
      (faithful_variant fs layout (i+1) v.2 bytes rest h)
  | .cons true tag ty fs => by
    intro layout i v bytes rest h
    rw [encodeEnum] at h
    rcases hp : parseTag tag with _ | ft
    · rw [hp] at h
      cases h
    have hkept := kept_of_parse selector true hp
    rw [hp] at h
    cases hi : ft.isIgnored selector with
    | true =>
      rw [hi] at hkept
      simp only [hi] at h
      exact picked_later selector true tag ty fs (by simp [hkept])
        (by simp [cleanFields,hkept]) (faithful_variant fs layout (i+1) v.2 bytes rest h)
    | false =>
      rw [hi] at hkept
      simp only [hi] at h
      rcases hpt : encodePointee selector ty v.1 with _ | p
      · rw [hpt] at h
        cases h
      rw [hpt] at h
      rcases encodePointee_cases selector hpt with
        ⟨payload,rfl,hset,henc⟩ | ⟨rfl,hset,hzero⟩
      · rw [← henc true] at h
        exact picked_here selector true tag ty fs hkept hset h
          (fun b hb => faithful_type ty true false v.1 b rest hb)
      · exact picked_later selector true tag ty fs (by simp [hset])
          (by simp [cleanFields,hzero]) (faithful_variant fs layout (i+1) v.2 bytes rest h)

theorem faithful_fields : (fs : Fields) → ∀ (addressable : Bool) (v : FieldVals fs)
    (bytes rest : List Byte), encodeStruct selector addressable fs v = .ok bytes →
    FaithfulFields selector addressable fs v (decodeStruct selector fs) bytes rest
  | .nil => by
    intro addressable v bytes rest h
    cases h
    exact faithful_pure () _
  | .cons false tag ty fs => by
    intro addressable v bytes rest h
    exact faithful_skipped selector false tag ty fs rfl
      (faithful_fields fs addressable v.2 bytes rest h)
  | .cons true tag ty fs => by
    intro addressable v bytes rest h
    rw [encodeStruct] at h
    rw [FaithfulFields,decodeStruct]
    rcases hp : parseTag tag with _ | ft
    · rw [hp] at h
      cases h
    have hkept := kept_of_parse selector true hp
    have hopt := optional_of_parse selector hp
    rw [hp] at h
    cases hi : ft.isIgnored selector with
    | true =>
      rw [hi] at hkept
      simp only [hi] at h ⊢
      exact faithful_skipped selector true tag ty fs hkept
        (faithful_fields fs addressable v.2 bytes rest h)
    | false =>
      rw [hi] at hkept
      simp only [hi] at h ⊢
      obtain ⟨front,hfront,h⟩ := bind_ok h
      obtain ⟨back,hback,h⟩ := bind_ok h
      cases h
      cases ho : ft.isOptional selector with
      | true =>
        rw [ho] at hopt hfront
        refine faithful_kept selector true tag ty fs hkept ?_
          hback (faithful_fields fs addressable v.2 back rest hback)
        rw [hopt]
        exact faithful_pointee ty v.1 front (back++rest) hfront
      | false =>
        rw [ho] at hopt hfront
        refine faithful_kept selector true tag ty fs hkept ?_
          hback (faithful_fields fs addressable v.2 back rest hback)
        rw [hopt]
        exact faithful_type ty addressable false v.1 front (back++rest) hfront

end

/-- A good value is decoded to itself with the rest left over, and only a good one where encoder
and decoder see the same enums. -/
theorem bcs_round_trip (t : Ty) (addressable : Bool) (v : Val t) (bytes rest : List Byte)
    (h : encode selector addressable t v = .ok bytes) :
    (Good selector addressable true t v (follows rest) →
      decode selector true t (bytes++rest) = .ok (clean selector t v,rest)) ∧
    (Aligned selector addressable true t →
      decode selector true t (bytes++rest) = .ok (clean selector t v,rest) →
      Good selector addressable true t v (follows rest)) := by
  have hf := faithful_type selector t addressable true v bytes rest h
  exact ⟨hf.yields,fun hal hd => (hf.only hal _ _ hd).2 rfl⟩

/-- No encoding is the beginning of another one, and equal bytes stand for equal values exactly
when both are good. -/
theorem encodings_told_apart (t : Ty) (a b : Bool) (v w : Val t) (xs ys rest tail : List Byte)
    (hv : encode selector a t v = .ok xs) (hw : encode selector b t w = .ok ys)
    (hg : Good selector a true t v (follows rest)) (hal : Aligned selector b true t)
    (heq : xs++rest = ys++tail) : xs = ys ∧
      (clean selector t v = clean selector t w ↔ Good selector b true t w (follows tail)) := by
  have hd := (faithful_type selector t a true v xs rest hv).yields hg
  rw [heq] at hd
  have hf := faithful_type selector t b true w ys tail hw
  obtain ⟨hrest,hgood⟩ := hf.only hal _ _ hd
  refine ⟨append_cancel_right (hrest ▸ heq),hgood,fun h => ?_⟩
  have := hd.symm.trans (hf.yields h)
  injection this with this
  exact congrArg Prod.fst this

end

def recordType : Ty :=
  .struct .none (.cons true [] (.string false)
    (.cons true (attrName "optional") (.pointer (.int .w16 false false))
      (.cons true (attrName "-") .bool .nil)))

def record : Val recordType :=
  (([104,105] : List Byte),(some 513 : Option (Fin (256^2))),true,())

theorem record_good (more : Bool) : Good [] true true recordType record more := by
  refine ⟨rfl,fun _ => ⟨rfl,.inl ?_⟩,fun _ => fun _ _ => trivial,fun hkept => ?_,trivial⟩
  · exact cons_ne_nil _ _
  · cases hkept

theorem bcs_round_trip_record : encode [] true recordType record = .ok [2,104,105,1,1,2] ∧
    decode [] true recordType [2,104,105,1,1,2] =
      .ok (clean [] recordType record,[]) := by
  have h : encode [] true recordType record = .ok [2,104,105,1,1,2] := by rfl
  exact ⟨h,(bcs_round_trip [] recordType true record _ [] h).1 (record_good _)⟩

/-- The record without its optional number, and the record with another value in the field that is
not encoded. -/
def withoutNumber : Val recordType :=
  (([104,105] : List Byte),(none : Option (Fin (256^2))),true,())

def otherHidden : Val recordType :=
  (([104,105] : List Byte),(some 513 : Option (Fin (256^2))),false,())

/-- Whatever follows them, the records with and without the number are told apart; the two that
differ in the hidden field only have the same bytes and are good both. -/
theorem encodings_told_apart_records :
    encode [] true recordType record = .ok [2,104,105,1,1,2] ∧
    encode [] true recordType withoutNumber = .ok [2,104,105,0] ∧
    (∀ rest tail : List Byte, [2,104,105,1,1,2]++rest ≠ [2,104,105,0]++tail) ∧
    encode [] true recordType otherHidden = .ok [2,104,105,1,1,2] ∧
    (clean [] recordType record = clean [] recordType otherHidden ↔
      Good [] true true recordType otherHidden (follows [])) := by
  have h : encode [] true recordType record = .ok [2,104,105,1,1,2] := by rfl
  have hw : encode [] true recordType withoutNumber = .ok [2,104,105,0] := by rfl
  have ho : encode [] true recordType otherHidden = .ok [2,104,105,1,1,2] := by rfl
  have hal : Aligned [] true true recordType := ⟨rfl,trivial,trivial,trivial,trivial⟩
  refine ⟨h,hw,fun rest tail heq => ?_,ho,
    (encodings_told_apart [] recordType true true record otherHidden _ _ [] [] h ho
      (record_good _) hal rfl).2⟩
  have := (encodings_told_apart [] recordType true true record withoutNumber _ _ rest tail h hw
    (record_good _) hal heq).1
  cases this

/-- An empty string at the end of the input, an array of booleans. -/
theorem empty_string_not_decoded : encode [] true (.string false) ([] : List Byte) = .ok [0] ∧
    decode [] true (.string false) [0] = .error .eof ∧
    encode [] true (.array 1 .bool) (fun _ : Fin 1 => true) = .ok [1] ∧
    decode [] true (.array 1 .bool) [1] = .error .panic := by
  refine ⟨rfl,rfl,rfl,rfl⟩

end Sentio.BcsRoundTrip
