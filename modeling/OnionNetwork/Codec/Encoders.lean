import OnionNetwork.Codec.DecodeExact
import OnionNetwork.Codec.Buffer

/-!
# Encoders

`codec::Encode` into any buffer: which calls of `push` and `extend_from_slice` the encoder of
a type makes. Integers, tags and the elements of a sequence of bytes are pushed; byte strings,
addresses and raw memory are written as slices.
-/

namespace OnionNetwork.Codec

open Lib

/-- `Encode::encode` of a type. -/
structure Encoder (α : Type) where
  encode : α → {B : Type} → [Buffer B] → SinkM B Unit

namespace Encoder

/-! ### What is done with an encoder -/

section Uses

variable {α : Type} (e : Encoder α) (v : α)

/-- `.expect("to encode")`: a buffer that refuses is a panic. -/
def expect {B : Type} [Buffer B] (buffer : B) : Option B :=
  match (e.encode v).runOn buffer with
  | some (some (), buffer) => some buffer
  | some (none, _) => none
  | none => none

/-- `Encode::to_bytes`. -/
def toBytes : Option Bytes := (e.expect v VecBuffer.new).map Subtype.val

/-- `Encode::encoded_len`. -/
def encodedLen (overflowChecks : Bool) : Option (BitVec 64) :=
  (e.expect v (⟨0⟩ : LenCounter overflowChecks)).map LenCounter.count

/-- `Encode::encode_to_slice`: the part of the memory that is returned, and the memory. -/
def encodeToSlice (slice : Bytes) : Option (Option Bytes × Bytes) :=
  match (e.encode v).runOn (⟨[], slice⟩ : SliceMut) with
  | some (some (), buffer) =>
      let reminder := buffer.rest.length
      let len := slice.length
      some (some (buffer.memory.take (len - reminder)), buffer.memory)
  | some (none, buffer) => some (none, buffer.memory)
  | none => none

end Uses

/-! ### Integers -/

/-- `base128_encode`. -/
def base128 (value : UInt64) {B : Type} [Buffer B] : SinkM B Unit := do
  let byte := (value &&& 0x7f).toUInt8
  let rest := value >>> 7
  let byte := if rest ≠ 0 then byte ||| 0x80 else byte
  Sink.push byte
  if rest = 0 then pure () else base128 rest
termination_by value.toNat
decreasing_by
  rename_i h
  have hne : value ≠ 0 := by
    rintro rfl
    exact h rfl
  have hpos : 0 < value.toNat := Nat.pos_of_ne_zero fun h0 => hne (UInt64.toNat_inj.mp h0)
  show (value >>> 7).toNat < value.toNat
  rw [UInt64.toNat_shiftRight]
  have h7 : (7 : UInt64).toNat % 64 = 7 := rfl
  rw [h7, Nat.shiftRight_eq_div_pow]
  exact Nat.div_lt_self hpos (by decide)

/-- `u16`, `u32`, `u64`, `usize` and `u128`. -/
def uint (width : Nat) : Encoder (BitVec width) where
  encode n := base128 (UInt64.ofNat n.toNat)

/-- `usize`. -/
def usize : Encoder (BitVec 64) := uint 64

/-- The length of a collection, as a `usize`. -/
def len (n : Nat) {B : Type} [Buffer B] : SinkM B Unit := usize.encode (BitVec.ofNat 64 n)

/-- `u8`. -/
def u8 : Encoder UInt8 where
  encode byte := Sink.push byte

/-- `bool`. -/
def bool : Encoder Bool where
  encode b := Sink.push (if b then 1 else 0)

/-! ### Products and sums -/

/-- `()` and `PhantomData`. -/
def unit : Encoder Unit where
  encode _ := pure ()

/-- `Infallible`. -/
def infallible : Encoder Empty where
  encode s := s.elim

/-- Two fields, one behind the other: tuples, derived structs and `Range`. -/
def pair {α β : Type} (a : Encoder α) (b : Encoder β) : Encoder (α × β) where
  encode v := do
    a.encode v.1
    b.encode v.2

/-- The encoder of a type that is built from the values of another one. -/
def iso {α β : Type} (c : Encoder α) (e : α ≃ β) : Encoder β where
  encode v := c.encode (e.symm v)

/-- A skipped field. -/
def skip {α : Type} : Encoder α where
  encode _ := pure ()

/-- A derived enum: the index of the variant as an `u8`, then its fields. -/
def enum {n : Nat} {β : Fin n → Type} (variants : ∀ i, Encoder (β i)) : Encoder (Σ i, β i) where
  encode v := do
    Sink.push (UInt8.ofNat v.1)
    (variants v.1).encode v.2

/-- `Option`. -/
def option {α : Type} (c : Encoder α) : Encoder (Option α) where
  encode
    | some t => do
        bool.encode true
        c.encode t
    | none => bool.encode false

/-- `Result`. -/
def result {α β : Type} (r : Encoder α) (e : Encoder β) : Encoder (α ⊕ β) where
  encode
    | .inl v => do
        bool.encode true
        r.encode v
    | .inr v => do
        bool.encode false
        e.encode v

/-- `Range`. -/
def range {α : Type} (c : Encoder α) : Encoder (α × α) where
  encode v := do
    c.encode v.1
    c.encode v.2

/-! ### Byte strings -/

/-- `[u8]`, `Box<[u8]>`. -/
def byteSlice : Encoder ByteSlice where
  encode b := do
    len b.1.length
    Sink.extendFromSlice b.1

/-- `&str`, `String`. -/
def str : Encoder Str where
  encode s := byteSlice.encode s.1

/-- `ArrayString<LEN>`. -/
def arrayString (cap : Nat) : Encoder { s : Str // s.1.1.length ≤ cap } where
  encode s := byteSlice.encode s.1.1

/-- `Reminder` and `ReminderOwned`. -/
def reminder : Encoder Bytes where
  encode b := Sink.extendFromSlice b

/-- `unsafe_as_raw_bytes`: the memory of a value. -/
def rawBytes (size : Nat) : Encoder (Fixed UInt8 size) where
  encode v := Sink.extendFromSlice v.toList

/-- `ArrDec`. -/
def arrDec (cap : Nat) : Encoder (ArrDec cap) where
  encode x := Sink.extendFromSlice (x.buffer.toList.take x.len.toNat)

/-- A wrapper that writes pieces to a `WritableBuffer`. -/
def writable {α : Type} (pieces : α → List Bytes) : Encoder α where
  encode v := (pieces v).forM Sink.extendFromSlice

/-! ### Addresses -/

/-- `IpAddr`: a tag, and the octets of an `Ipv4Addr` or an `Ipv6Addr`. -/
def ipAddr : Encoder IpAddr where
  encode
    | .v4 octets => do
        u8.encode 0
        Sink.extendFromSlice octets.toList
    | .v6 octets => do
        u8.encode 1
        Sink.extendFromSlice octets.toList

/-- `SocketAddr`. -/
def socketAddr : Encoder SocketAddr where
  encode a := do
    ipAddr.encode a.ip
    (uint 16).encode a.port

/-- `io::ErrorKind`: its place in the list, or 127. -/
def errorKind : Encoder Chat.ErrorKind where
  encode k := len ((errorList.findIdx? fun e => e == k).getD 127)

/-! ### Sequences -/

section Sequences

variable {α : Type} (c : Encoder α)

/-- `for i in self { i.encode(buffer)?; }`. -/
def elements (l : List α) {B : Type} [Buffer B] : SinkM B Unit := l.forM fun i => c.encode i

/-- The length, then the elements. -/
def counted (l : List α) {B : Type} [Buffer B] : SinkM B Unit := do
  len l.length
  elements c l

/-- `[T; LEN]`. -/
def array (len : Nat) : Encoder (Fixed α len) where
  encode v := elements c v.toList

/-- `Vec<T>`, `Arc<[T]>`. -/
def vec (layout : Layout) : Encoder (Vec layout α) where
  encode v := counted c v.toList

/-- `VecDeque<T>`. -/
def vecDeque (layout : Layout) : Encoder (Vec layout α) where
  encode v := counted c v.toList

/-- `ArrayVec<T, LEN>`. -/
def arrayVec (cap : Nat) : Encoder (ArrayVec α cap) where
  encode v := counted c v.toList

/-- `HashSet<T>`. -/
def hashSet (layout : Layout) : Encoder (HashSet layout α) where
  encode s := counted c s.toList

/-- `BTreeSet<T>`. -/
def bTreeSet [LinearOrder α] : Encoder (BTreeSet α) where
  encode s := counted c s.1.keys

/-- `ReminderVec<T>`. -/
def reminderVec : Encoder (List α) where
  encode v := elements c v

end Sequences

section Maps

variable {K V : Type} (k : Encoder K) (v : Encoder V)

/-- `for (k, v) in self { k.encode(buffer)?; v.encode(buffer)?; }` behind the length. -/
def entries (l : List (K × V)) {B : Type} [Buffer B] : SinkM B Unit := do
  len l.length
  l.forM fun entry => do
    k.encode entry.1
    v.encode entry.2

/-- `HashMap<K, V>`. -/
def hashMap (layout : Layout) : Encoder (HashMap layout K V) where
  encode m := entries k v m.entries

/-- `BTreeMap<K, V>`. -/
def bTreeMap [LinearOrder K] : Encoder (BTreeMap K V) where
  encode m := entries k v m.1.entries

end Maps

/-- `Proof::pack_payload`: the nonce and the context, into a hasher. -/
def packPayload {T : Type} (cr : Crypto) (e : Encoder T) (nonce : BitVec 64) (context : T) :
    Option Hash :=
  ((pair (uint 64) e).expect (nonce, context) (⟨[]⟩ : BlakeBuffer)).map (BlakeBuffer.finalize cr)

end Encoder

end OnionNetwork.Codec
