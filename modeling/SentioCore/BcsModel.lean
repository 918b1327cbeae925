import SentioCore.ByteCodec
import SentioCore.RangeText

/-!
# The BCS encoder and decoder

Types are built from booleans, integers, strings, slices, arrays, pointers and
structs whose fields carry a `bcs` tag; a struct may implement the enum
interface with a value or with a pointer receiver. Encoder and decoder walk over
the type. The encoder sees an enum through a pointer receiver only when the
value is addressable, and the decoder only when it holds a pointer.
-/

namespace Sentio.BcsModel
open ByteCodec

abbrev Text : Type := List Char

inductive Err where
  | panic
  | eof
  | shortRead
  | badLength
  | malformedTag
  | duplicateEnumNum
  | enumFieldKind
  | variantNotValid
  | noFieldSet
  | optionalKind
  | unsupported
  | invalidEnumId
  deriving DecidableEq

structure SelectorValue (T : Type) where
  whole : Option T
  bySelector : List (Text × T)
  deriving DecidableEq

namespace SelectorValue
variable {T : Type} (sv : SelectorValue T)

def resolve (selector : Text) : Option T :=
  (sv.bySelector.lookup selector).or sv.whole

def isAny : Bool := sv.whole.isSome || !sv.bySelector.isEmpty

def set (selector : Text) (v : T) : SelectorValue T :=
  if selector.isEmpty then {sv with whole := some v}
  else {sv with bySelector := (selector,v)::sv.bySelector}

end SelectorValue

structure FieldTag where
  ignore : SelectorValue Bool
  optionalMark : SelectorValue Bool
  enumNum : SelectorValue ℤ
  deriving DecidableEq

namespace FieldTag

variable (t : FieldTag)

def isIgnored (selector : Text) : Bool := (t.ignore.resolve selector).getD false

def isOptional (selector : Text) : Bool :=
  (t.optionalMark.resolve selector).getD false

def variantNum (selector : Text) : Option ℤ := t.enumNum.resolve selector

def hasAnyEnumNum : Bool := t.enumNum.isAny

end FieldTag

def trimSpace (text : Text) : Text := RangeText.trimSpace text

def digitsValue (n : ℕ) : Text → Option ℕ
  | [] => some n
  | c::rest => if c.isDigit then digitsValue (10*n+(c.toNat-48)) rest else none

/-- An optional sign and at least one digit, within the range of an `int`. -/
def atoi (text : Text) : Option ℤ :=
  match text with
  | '-'::c::rest =>
    (digitsValue 0 (c::rest)).bind (fun n => if n ≤ maxInt then some (-(n : ℤ)) else none)
  | '+'::c::rest | c::rest =>
    (digitsValue 0 (c::rest)).bind (fun n => if n < maxInt then some n else none)
  | [] => none

/-- The attribute name and the selector of a segment in front of its value. -/
def splitSelector (attr : Text) : Option (Text × Text) :=
  match attr.span (fun c => c ≠ '[') with
  | (name,[]) => some (name,[])
  | (name,_::inner) =>
    if inner.getLast? = some ']' then some (name,inner.dropLast) else none

def attrName (name : String) : Text := name.toList

def parseSegment (tag : FieldTag) (seg : Text) : Option FieldTag :=
  let parts := seg.span (fun c => c ≠ '=')
  let hasValue := !parts.2.isEmpty
  (splitSelector (trimSpace parts.1)).bind (fun (name,selector) =>
    if name = ['-'] then
      if hasValue then none else some {tag with ignore := tag.ignore.set selector true}
    else if name = attrName "optional" then
      if hasValue then none
      else some {tag with optionalMark := tag.optionalMark.set selector true}
    else if name = attrName "enumNum" then
      if hasValue then
        (atoi (trimSpace (parts.2.drop 1))).map (fun n =>
          {tag with enumNum := tag.enumNum.set selector n})
      else none
    else none)

def parseSegments (tag : FieldTag) : List Text → Option FieldTag
  | [] => some tag
  | seg::rest =>
    if (trimSpace seg).isEmpty then parseSegments tag rest
    else (parseSegment tag (trimSpace seg)).bind (fun next => parseSegments next rest)

def emptyTag : FieldTag := ⟨⟨none,[]⟩,⟨none,[]⟩,⟨none,[]⟩⟩

def parseTag (tag : Text) : Option FieldTag := parseSegments emptyTag (tag.splitOn ',')

/-- How a struct implements the enum interface. -/
inductive Receiver where
  | none
  | value
  | pointer
  deriving DecidableEq

inductive Width where
  | w8
  | w16
  | w32
  | w64
  deriving DecidableEq

def Width.bytes : Width → ℕ
  | .w8 => 1
  | .w16 => 2
  | .w32 => 4
  | .w64 => 8

mutual

/-- A type is named when it was declared over a predeclared one. -/
inductive Ty where
  | bool
  | int (width : Width) (signed named : Bool)
  | string (named : Bool)
  | slice (elem : Ty)
  | array (n : ℕ) (elem : Ty)
  | pointer (elem : Ty)
  | struct (enum : Receiver) (fields : Fields)

inductive Fields where
  | nil
  | cons (exported : Bool) (tag : Text) (ty : Ty) (rest : Fields)

end

mutual

/-- Integers are their bit patterns and strings their bytes; a nil slice is an empty one. -/
def Val : Ty → Type
  | .bool => Bool
  | .int width _ _ => Fin (256^width.bytes)
  | .string _ => List Byte
  | .slice elem => List (Val elem)
  | .array n elem => Fin n → Val elem
  | .pointer elem => Option (Val elem)
  | .struct _ fields => FieldVals fields

def FieldVals : Fields → Type
  | .nil => Unit
  | .cons _ _ ty rest => Val ty × FieldVals rest

end

theorem width_pos {width : Width} : 0 < 256^width.bytes := Nat.pow_pos (by decide)

mutual

def zero : (t : Ty) → Val t
  | .bool => false
  | .int width _ _ => (⟨0,width_pos⟩ : Fin (256^width.bytes))
  | .string _ => ([] : List Byte)
  | .slice elem => ([] : List (Val elem))
  | .array n elem => fun _ : Fin n => zero elem
  | .pointer elem => (none : Option (Val elem))
  | .struct _ fields => zeros fields

def zeros : (fs : Fields) → FieldVals fs
  | .nil => ()
  | .cons _ _ ty rest => (zero ty,zeros rest)

end

def Ty.isUint8 : Ty → Bool
  | .int .w8 false _ => true
  | _ => false

def Ty.isNamed : Ty → Bool
  | .int _ _ named | .string named => named
  | _ => false

def Fields.length : Fields → ℕ
  | .nil => 0
  | .cons _ _ _ rest => rest.length+1

structure EnumLayout where
  tagged : Bool
  variants : List (ℤ × ℕ)
  deriving DecidableEq

def buildEnumLayout (selector : Text) (layout : EnumLayout) (i : ℕ) : Fields → Except Err EnumLayout
  | .nil => .ok layout
  | .cons exported tag _ rest =>
    if !exported then buildEnumLayout selector layout (i+1) rest
    else match parseTag tag with
      | none => .error .malformedTag
      | some ft =>
        let tagged := layout.tagged || ft.hasAnyEnumNum
        match ft.variantNum selector with
        | none => buildEnumLayout selector ⟨tagged,layout.variants⟩ (i+1) rest
        | some n =>
          if (layout.variants.lookup n).isSome then .error .duplicateEnumNum
          else buildEnumLayout selector ⟨tagged,layout.variants++[(n,i)]⟩ (i+1) rest

def enumLayoutFor (selector : Text) (fields : Fields) : Except Err EnumLayout :=
  buildEnumLayout selector ⟨false,[]⟩ 0 fields

variable (layout : EnumLayout)

def EnumLayout.byField (i : ℕ) : Option ℤ :=
  (layout.variants.find? (fun e => e.2 = i)).map Prod.fst

def EnumLayout.variantOf (i : ℕ) : Except Err ℤ :=
  if layout.tagged then
    match layout.byField i with
    | some n => .ok n
    | none => .error .variantNotValid
  else .ok i

def EnumLayout.fieldOf (fields : Fields) (enumID : ℕ) : Except Err ℕ :=
  if layout.tagged then
    match layout.variants.lookup (enumID : ℤ) with
    | some i => .ok i
    | none => .error .variantNotValid
  else if fields.length ≤ enumID then .error .invalidEnumId
  else .ok enumID

def encodeLength (n : ℕ) : Except Err (List Byte) :=
  if n < maxInt then .ok (uleb128Encode n) else .error .badLength

/-- The encoder never ends on a negative variant. -/
def encodeVariant (n : ℤ) : Except Err (List Byte) :=
  match n with
  | .ofNat k => encodeLength k
  | .negSucc _ => .error .panic

variable {α : Type}

def concat (f : α → Except Err (List Byte)) : List α → Except Err (List Byte)
  | [] => .ok []
  | a::rest => do
    let front ← f a
    let back ← concat f rest
    .ok (front++back)

def byteOf : (t : Ty) → Val t → Byte
  | .int width _ _, v => UInt8.ofNat (v : Fin (256^width.bytes)).val
  | _, _ => 0

def ofByte : (t : Ty) → Byte → Val t
  | .int width _ _, b =>
    (⟨b.toNat%256^width.bytes,Nat.mod_lt _ width_pos⟩ : Fin (256^width.bytes))
  | t, _ => zero t

def encodeBool (b : Bool) : List Byte := [if b then 1 else 0]

def encodeInt (width : Width) (n : Fin (256^width.bytes)) : List Byte :=
  littleEndian width.bytes n.val

def encodeByteSlice (b : List Byte) : Except Err (List Byte) := do
  let size ← encodeLength b.length
  .ok (size++b)

def encodeSlice (f : α → Except Err (List Byte)) (l : List α) :
    Except Err (List Byte) := do
  let size ← encodeLength l.length
  let content ← concat f l
  .ok (size++content)

def encodeByteArray (addressable : Bool) (b : List Byte) : Except Err (List Byte) :=
  if addressable then .ok b else .error .panic

def encodePointer (f : α → Except Err (List Byte)) (p : Option α) :
    Except Err (List Byte) :=
  match p with
  | none => .error .panic
  | some x => f x

def encodeOptional (pointee : Option (Option (Except Err (List Byte)))) : Except Err (List Byte) :=
  match pointee with
  | none => .error .optionalKind
  | some none => .ok [0]
  | some (some payload) => do
    let bytes ← payload
    .ok (1::bytes)

def encodeVariantField (layout : EnumLayout) (i : ℕ) (payload : Except Err (List Byte)) :
    Except Err (List Byte) := do
  let n ← layout.variantOf i
  let front ← encodeVariant n
  let back ← payload
  .ok (front++back)

def encodesEnum (receiver : Receiver) (addressable : Bool) : Bool :=
  match receiver with
  | .none => false
  | .value => true
  | .pointer => addressable

def decodesEnum (receiver : Receiver) (pointer : Bool) : Bool :=
  match receiver with
  | .none => false
  | .value => true
  | .pointer => pointer

section
variable (selector : Text)

mutual

def encode (addressable : Bool) : (t : Ty) → Val t → Except Err (List Byte)
  | .bool, v => .ok (encodeBool v)
  | .int width _ _, v => .ok (encodeInt width v)
  | .string _, v => encodeByteSlice v
  | .slice elem, v =>
    if elem.isUint8 then encodeByteSlice (List.map (byteOf elem) v)
    else encodeSlice (encode true elem) v
  | .array _ elem, v =>
    if elem.isUint8 then encodeByteArray addressable (List.map (byteOf elem) (List.ofFn v))
    else concat (encode addressable elem) (List.ofFn v)
  | .pointer elem, v => encodePointer (encode true elem) v
  | .struct receiver fields, v =>
    if encodesEnum receiver addressable then do
      let layout ← enumLayoutFor selector fields
      encodeEnum layout 0 fields v
    else encodeStruct addressable fields v

def encodePointee : (t : Ty) → Val t → Option (Option (Except Err (List Byte)))
  | .pointer elem, v => some (Option.map (encode true elem) v)
  | _, _ => none

/-- The first field that is set is written with its variant in front. -/
def encodeEnum (layout : EnumLayout) (i : ℕ) : (fs : Fields) → FieldVals fs → Except Err (List Byte)
  | .nil, _ => .error .noFieldSet
  | .cons exported tag ty rest, v =>
    if !exported then encodeEnum layout (i+1) rest v.2
    else match parseTag tag with
      | none => .error .malformedTag
      | some ft =>
        if ft.isIgnored selector then encodeEnum layout (i+1) rest v.2
        else match encodePointee ty v.1 with
          | none => .error .enumFieldKind
          | some none => encodeEnum layout (i+1) rest v.2
          | some (some payload) => encodeVariantField layout i payload

def encodeStruct (addressable : Bool) : (fs : Fields) → FieldVals fs → Except Err (List Byte)
  | .nil, _ => .ok []
  | .cons exported tag ty rest, v =>
    if !exported then encodeStruct addressable rest v.2
    else match parseTag tag with
      | none => .error .malformedTag
      | some ft =>
        if ft.isIgnored selector then encodeStruct addressable rest v.2
        else do
          let front ← (if ft.isOptional selector then encodeOptional (encodePointee ty v.1)
            else encode addressable ty v.1)
          let back ← encodeStruct addressable rest v.2
          .ok (front++back)

end

end

abbrev Decoder (α : Type) : Type := StateT (List Byte) (Except Err) α

def takeByte : Decoder Byte := fun input =>
  match readByte input with
  | none => .error .eof
  | some got => .ok got

def takeLength : Decoder ℕ := fun input =>
  match uleb128Decode input with
  | none => .error .eof
  | some got => .ok got

def takeBytes (n : ℕ) : Decoder (List Byte) := fun input =>
  match read n input with
  | none => .error .eof
  | some got => if got.1.length = n then .ok got else .error .shortRead

def fail (e : Err) : Decoder α := fun _ => .error e

def decodeBool : Decoder Bool := do
  let b ← takeByte
  pure (b != 0)

def decodeInt (width : Width) : Decoder (Fin (256^width.bytes)) := do
  let bytes ← takeBytes width.bytes
  pure ⟨ofLittleEndian bytes%256^width.bytes,Nat.mod_lt _ width_pos⟩

def readByteSlice : Decoder (List Byte) := do
  let size ← takeLength
  takeBytes size

/-- A value of a predeclared type cannot be assigned to one of a named type. -/
def assign (named : Bool) (a : α) : Decoder α := if named then fail .panic else pure a

def decodeString (named : Bool) : Decoder (List Byte) := do
  let bytes ← readByteSlice
  assign named bytes

def decodeByteSlice (named : Bool) (f : Byte → α) : Decoder (List α) := do
  let bytes ← readByteSlice
  assign named (bytes.map f)

def decodeByteArray (n : ℕ) (f : Byte → α) : Decoder (Fin n → α) := do
  let bytes ← takeBytes n
  pure (fun i => f (bytes.getD i 0))

/-- A pointer to the element type is assigned to every element, which panics. -/
def decodeArray (n : ℕ) (z : α) : Decoder (Fin n → α) :=
  if n = 0 then pure (fun _ => z) else fail .panic

def decodeMany (f : Decoder α) : ℕ → Decoder (List α)
  | 0 => pure []
  | n+1 => do
    let a ← f
    let l ← decodeMany f n
    pure (a::l)

def decodeSlice (f : Decoder α) : Decoder (List α) := do
  let size ← takeLength
  decodeMany f size

def decodePointer (f : Decoder α) : Decoder (Option α) := do
  let a ← f
  pure (some a)

def decodeOptional (z : α) (f : Decoder α) : Decoder α := do
  let present ← takeByte
  if present = 0 then pure z else f

def andFields {α β : Type} (d : Decoder α) (e : Decoder β) : Decoder (α × β) := do
  let a ← d
  let b ← e
  pure (a,b)

def decodeEnumWith (selector : Text) (fields : Fields) (variant : ℕ → Decoder α) :
    Decoder α := do
  let enumID ← takeLength
  let layout ← liftM (enumLayoutFor selector fields)
  let i ← liftM (layout.fieldOf fields enumID)
  variant i

section
variable (selector : Text)

mutual

/-- `pointer` tells that the decoder was handed a pointer to the value. -/
def decode (pointer : Bool) : (t : Ty) → Decoder (Val t)
  | .bool => decodeBool
  | .int width _ _ => decodeInt width
  | .string named => decodeString named
  | .slice elem =>
    if elem.isUint8 then decodeByteSlice elem.isNamed (ofByte elem)
    else decodeSlice (decode true elem)
  | .array n elem =>
    if elem.isUint8 then decodeByteArray n (ofByte elem) else decodeArray n (zero elem)
  | .pointer elem => if pointer then fail .unsupported else decodePointer (decode true elem)
  | .struct receiver fields =>
    if decodesEnum receiver pointer then
      decodeEnumWith selector fields (fun i => decodeVariant i fields)
    else decodeStruct fields

def decodePointee : (t : Ty) → Decoder (Val t)
  | .pointer elem => decodePointer (decode false elem)
  | _ => fail .panic

def decodeVariant : ℕ → (fs : Fields) → Decoder (FieldVals fs)
  | _, .nil => fail .panic
  | 0, .cons exported _ ty rest =>
    andFields (if exported then decode false ty else pure (zero ty)) (pure (zeros rest))
  | i+1, .cons _ _ ty rest => andFields (pure (zero ty)) (decodeVariant i rest)

def decodeStruct : (fs : Fields) → Decoder (FieldVals fs)
  | .nil => pure ()
  | .cons exported tag ty rest =>
    if !exported then andFields (pure (zero ty)) (decodeStruct rest)
    else match parseTag tag with
      | none => fail .malformedTag
      | some ft =>
        if ft.isIgnored selector then andFields (pure (zero ty)) (decodeStruct rest)
        else if ft.isOptional selector then
          andFields (decodeOptional (zero ty) (decodePointee ty)) (decodeStruct rest)
        else andFields (decode false ty) (decodeStruct rest)

end
end
end Sentio.BcsModel
