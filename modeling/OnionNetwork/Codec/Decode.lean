import OnionNetwork.Codec.Encode
import OnionNetwork.Lib.Vec
import OnionNetwork.Lib.FramedLoop
import OnionNetwork.Lib.Parser
import OnionNetwork.Lib.SortedMap

/-!
# Codecs

`codec::Encode` into a `Vec`, which always accepts, and `codec::Decode`, for the
types of the crate. A codec is the pair of both. The decoders keep a log of what can
make them stop without a value: the shifts of an integer, the slices of the input, the
products of a length prefix, the reservations of memory, and the elements of a
`ReminderVec`.
-/

namespace OnionNetwork

open Lib

/-- What a decoder does besides reading. -/
inductive DecodeEvent
  /-- A `u64` is shifted by so many bits. -/
  | shift (bits : Nat)
  /-- The input, of so many bytes, is split at a place. -/
  | slice (index len : Nat)
  /-- `len * 2` of a map, `len` of another collection. -/
  | product (n : Nat)
  /-- `with_capacity` for so many elements, which take so many bytes, with so many
  bytes of the input left. -/
  | reserve (elements bytes left : Nat)
  /-- An element of a `ReminderVec` is read from so many bytes. -/
  | element (consumed : Nat)
  deriving DecidableEq

/-- Where a decoder does not return. -/
inductive DecodeFault
  | overflow
  | range
  | capacity
  | endless
  deriving DecidableEq

/-- `usize::MAX + 1`. -/
def usizeSize : Nat := 2 ^ 64

/-- `isize::MAX`, the size of the largest allocation. -/
def isizeMax : Nat := 2 ^ 63 - 1

/-- `fn(&mut &[u8]) -> Option<T>`. -/
abbrev Decoder (α : Type) := Parser UInt8 DecodeEvent DecodeFault α

/-- `Encode` and `Decode` of a type. -/
structure Codec (α : Type) where
  encode : α → Bytes
  decode : Decoder α

open Parser

/-! ### Integers -/

/-- `split_at`, and the ranges up to a place and from it. -/
def splitAt (n : Nat) : Decoder Bytes := fun buffer =>
  (noteOr (fun _ => .slice n buffer.length) (buffer.length < n) .range).andThen
    (fun _ _ => accept (buffer.take n) (buffer.drop n)) buffer

/-- The loop of `base128_decode` over the bytes that it looks at, with the number of
the ones behind it. -/
def base128DecodeFrom : (bytes : Bytes) → (advanced shift value : Nat) → Decoder Nat
  | [], _, _, _ => reject
  | byte :: bytes, advanced, shift, value =>
      (noteOr (fun _ => .shift shift) (64 ≤ shift) .overflow).andThen fun _ =>
        let value := value ||| ((byte &&& 0x7f).toNat <<< shift) % 2 ^ 64
        if byte &&& 0x80 = 0 then (splitAt (advanced + 1)).map fun _ => value
        else base128DecodeFrom bytes (advanced + 1) (shift + 7) value

/-- `base128_decode`: ten bytes at most. -/
def base128Decode : Decoder Nat := fun buffer => base128DecodeFrom (buffer.take 10) 0 0 0 buffer

namespace Codec

/-- `u16`, `u32`, `u64`, `usize` and `u128`: encoded as `u64`. -/
def uint (width : Nat) : Codec (BitVec width) where
  encode n := base128Encode (n.toNat % 2 ^ 64)
  decode := base128Decode.andThen fun n =>
    if n < 2 ^ width then accept (BitVec.ofNat width n) else reject

/-- `usize`. -/
def usize : Codec (BitVec 64) := uint 64

/-- The first byte of the input. -/
def takeFirst : Decoder UInt8 := fun buffer =>
  match buffer with
  | [] => ⟨[], .error .reject⟩
  | byte :: rest => ⟨[], .ok (byte, rest)⟩

/-- `u8`. -/
def u8 : Codec UInt8 where
  encode byte := [byte]
  decode := takeFirst

/-- `bool`. -/
def bool : Codec Bool where
  encode b := [if b then 1 else 0]
  decode := takeFirst.andThen fun byte =>
    if byte = 0 then accept false else if byte = 1 then accept true else reject

/-! ### Products and sums -/

/-- `()` and `PhantomData`. -/
def unit : Codec Unit where
  encode _ := []
  decode := accept ()

/-- `Infallible`. -/
def infallible : Codec Empty where
  encode s := s.elim
  decode := reject

/-- Two fields, one behind the other: tuples, derived structs and `Range`. -/
def pair {α β : Type} (a : Codec α) (b : Codec β) : Codec (α × β) where
  encode v := a.encode v.1 ++ b.encode v.2
  decode := a.decode.andThen fun x => b.decode.map fun y => (x, y)

/-- The codec of a type that is built from the values of another one. -/
def iso {α β : Type} (c : Codec α) (e : α ≃ β) : Codec β where
  encode v := c.encode (e.symm v)
  decode := c.decode.map e

/-- A skipped field. -/
def skip {α : Type} (default : α) : Codec α where
  encode _ := []
  decode := accept default

/-- A derived enum: the index of the variant, then its fields. -/
def enum {n : Nat} {β : Fin n → Type} (variants : ∀ i, Codec (β i)) : Codec (Σ i, β i) where
  encode v := UInt8.ofNat v.1 :: (variants v.1).encode v.2
  decode := takeFirst.andThen fun byte =>
    if h : byte.toNat < n then (variants ⟨byte.toNat, h⟩).decode.map fun x => ⟨_, x⟩ else reject

/-- `Option`. -/
def option {α : Type} (c : Codec α) : Codec (Option α) where
  encode
    | some v => bool.encode true ++ c.encode v
    | none => bool.encode false
  decode := bool.decode.andThen fun isSome => if isSome then c.decode.map some else accept none

/-- `Result`. -/
def result {α β : Type} (r : Codec α) (e : Codec β) : Codec (α ⊕ β) where
  encode
    | .inl v => bool.encode true ++ r.encode v
    | .inr v => bool.encode false ++ e.encode v
  decode := bool.decode.andThen fun isOk =>
    if isOk then r.decode.map Sum.inl else e.decode.map Sum.inr

/-- `Range`. -/
def range {α : Type} (c : Codec α) : Codec (α × α) := pair c c

/-! ### Sequences -/

/-- The elements of a sequence. -/
def encodeAll {α : Type} (c : Codec α) (l : List α) : Bytes := l.flatMap c.encode

/-- `for _ in 0..len { s.push(T::decode(buffer)?) }`. -/
def decodeMany {α : Type} (c : Codec α) : (len : Nat) → Decoder (Fixed α len)
  | 0 => accept ⟨[], rfl⟩
  | len + 1 => c.decode.andThen fun x =>
      (decodeMany c len).map fun xs => ⟨x :: xs.toList, congrArg Nat.succ xs.length_eq⟩

/-- `[T; LEN]`. -/
def array {α : Type} (c : Codec α) (len : Nat) : Codec (Fixed α len) where
  encode v := encodeAll c v.toList
  decode := decodeMany c len

/-- A number of bytes as it stands, such as `unsafe_as_raw_bytes`. -/
def rawBytes (len : Nat) : Codec (Fixed UInt8 len) := array u8 len

/-- What a collection reserves for a number of elements. -/
structure Layout where
  bytes : Nat → Nat
  mono : Monotone bytes

/-- `Vec` and `VecDeque`: the elements take `size` bytes each. -/
def Layout.array (size : Nat) : Layout := ⟨fun n => n * size, fun _ _ h => Nat.mul_le_mul_right _ h⟩

/-- `Vec<T>`: the length is a `usize`, and the elements fit into memory. -/
structure Vec (layout : Layout) (α : Type) where
  toList : List α
  length_lt : toList.length < usizeSize
  fits : layout.bytes toList.length ≤ isizeMax

/-- The length of a collection, at least `scale` bytes for each of its elements, or
nothing. -/
def lengthGuarded (scale : Nat) : Decoder (BitVec 64) :=
  usize.decode.andThen fun len =>
    (noteOr (fun _ => .product (len.toNat * scale)) (usizeSize ≤ len.toNat * scale)
      .overflow).andThen
      fun _ left => if left.length < len.toNat * scale then reject left else accept len left

/-- `with_capacity(len)`. -/
def reserve (layout : Layout) (len : Nat) : Decoder Unit := fun left =>
  noteOr (fun left => .reserve len (layout.bytes len) left.length) (isizeMax < layout.bytes len)
    .capacity left

/-- The elements behind a length, memory reserved in front. -/
def reserved {α : Type} (scale : Nat) (layout : Layout) (c : Codec α) : Decoder (Vec layout α) :=
  (lengthGuarded scale).andThen fun len =>
    (reserve layout len.toNat).andThen fun _ =>
      (decodeMany c len.toNat).andThen fun xs =>
        if h : layout.bytes len.toNat ≤ isizeMax then
          accept ⟨xs.toList, by rw [xs.length_eq]; exact len.isLt, by rw [xs.length_eq]; exact h⟩
        else reject

/-- The elements behind a length. -/
def unreserved {α : Type} (scale : Nat) (c : Codec α) :
    Decoder { l : List α // l.length < usizeSize } :=
  (lengthGuarded scale).andThen fun len =>
    (decodeMany c len.toNat).map fun xs => ⟨xs.toList, by rw [xs.length_eq]; exact len.isLt⟩

/-- A length in front of the elements. -/
def encodeCounted {α : Type} (c : Codec α) (l : List α) : Bytes :=
  base128Encode l.length ++ encodeAll c l

end Codec

end OnionNetwork
