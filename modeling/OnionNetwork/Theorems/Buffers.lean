import OnionNetwork.Codec.Emits

/-!
# Encoding and buffers

`Grammar` are the encoders of the types that the crate can encode, each with its codec. What
is written does not depend on the buffer (`encode_uniform`): every one of them is left with
the bytes of the codec, up to the size that it has room for. Only a value whose bytes are more
than an allocation or a `usize` can count is beyond this (`shared_slices_not_counted`).
-/

namespace OnionNetwork.Codec

open Lib

/-- The types that can be encoded, by their encoders and codecs. -/
inductive Grammar : {α : Type} → Encoder α → Codec α → Prop
  | bool : Grammar .bool bool
  | u8 : Grammar .u8 u8
  /-- `u16`, `u32`, `u64`, `u128`, `usize` and `ConstContext`. -/
  | uint (width : Nat) : Grammar (.uint width) (uint width)
  | unit : Grammar .unit unit
  | infallible : Grammar .infallible infallible
  | byteSlice : Grammar .byteSlice byteSlice
  | str : Grammar .str str
  | arrayString (cap : Nat) : Grammar (.arrayString cap) (arrayString cap)
  | reminder : Grammar .reminder reminder
  | rawBytes (size : Nat) : Grammar (.rawBytes size) (rawBytes size)
  | arrDec (cap : Nat) : Grammar (.arrDec cap) (ArrDec.codec cap)
  /-- A field with a wrapper that writes through `WritableBuffer`. -/
  | writable {α : Type} {pieces : α → List Bytes} {c : Codec α}
      (h : ∀ v, c.encode v = (pieces v).flatten) : Grammar (.writable pieces) c
  | ipAddr : Grammar .ipAddr ipAddr
  | socketAddr : Grammar .socketAddr socketAddr
  | errorKind : Grammar .errorKind errorKind
  /-- Tuples, the fields of structs and variants. -/
  | pair {α β : Type} {a : Encoder α} {b : Encoder β} {c : Codec α} {d : Codec β}
      (ha : Grammar a c) (hb : Grammar b d) : Grammar (.pair a b) (pair c d)
  | range {α : Type} {a : Encoder α} {c : Codec α} (ha : Grammar a c) :
      Grammar (.range a) (range c)
  /-- A tuple, a struct or a reference as what it consists of. -/
  | iso {α β : Type} {a : Encoder α} {c : Codec α} (ha : Grammar a c) (e : α ≃ β) :
      Grammar (.iso a e) (iso c e)
  | skip {α : Type} (default : α) : Grammar .skip (skip default)
  /-- A derived enum. -/
  | enum {n : Nat} {γ : Fin n → Type} {es : ∀ i, Encoder (γ i)} {variants : ∀ i, Codec (γ i)}
      (h : ∀ i, Grammar (es i) (variants i)) : Grammar (.enum es) (enum variants)
  | option {α : Type} {a : Encoder α} {c : Codec α} (ha : Grammar a c) :
      Grammar (.option a) (option c)
  | result {α β : Type} {a : Encoder α} {b : Encoder β} {c : Codec α} {d : Codec β}
      (ha : Grammar a c) (hb : Grammar b d) : Grammar (.result a b) (result c d)
  | array {α : Type} {a : Encoder α} {c : Codec α} (ha : Grammar a c) (len : Nat) :
      Grammar (.array a len) (array c len)
  | arrayVec {α : Type} {a : Encoder α} {c : Codec α} (ha : Grammar a c) {cap : Nat}
      (hcap : cap < usizeSize) : Grammar (.arrayVec a cap) (arrayVec c cap)
  | vec {α : Type} {a : Encoder α} {c : Codec α} (ha : Grammar a c) (layout : Layout) :
      Grammar (.vec a layout) (vec c layout)
  | vecDeque {α : Type} {a : Encoder α} {c : Codec α} (ha : Grammar a c) (layout : Layout) :
      Grammar (.vecDeque a layout) (vecDeque c layout)
  | hashSet {α : Type} [DecidableEq α] {a : Encoder α} {c : Codec α} (ha : Grammar a c)
      (layout : Layout) : Grammar (.hashSet a layout) (hashSet c layout)
  | bTreeSet {α : Type} [LinearOrder α] {a : Encoder α} {c : Codec α} (ha : Grammar a c) :
      Grammar (.bTreeSet a) (bTreeSet c)
  | reminderVec {α : Type} {a : Encoder α} {c : Codec α} (ha : Grammar a c) :
      Grammar (.reminderVec a) (reminderVec c)
  | hashMap {K V : Type} [DecidableEq K] {a : Encoder K} {b : Encoder V} {c : Codec K}
      {d : Codec V} (ha : Grammar a c) (hb : Grammar b d) (layout : Layout) :
      Grammar (.hashMap a b layout) (hashMap c d layout)
  | bTreeMap {K V : Type} [LinearOrder K] {a : Encoder K} {b : Encoder V} {c : Codec K}
      {d : Codec V} (ha : Grammar a c) (hb : Grammar b d) :
      Grammar (.bTreeMap a b) (bTreeMap c d)

open Encoder in
/-- Every encoder of the grammar writes what its codec says, into whatever buffer. -/
theorem Grammar.emits {α : Type} {e : Encoder α} {c : Codec α} (h : Grammar e c) : e.Emits c := by
  induction h with
  | bool => exact emits_bool
  | u8 => exact emits_u8
  | uint width => exact emits_uint width
  | unit => exact emits_unit
  | infallible => exact emits_infallible
  | byteSlice => exact emits_byteSlice
  | str => exact emits_str
  | arrayString cap => exact emits_arrayString cap
  | reminder => exact emits_reminder
  | rawBytes size => exact emits_rawBytes size
  | arrDec cap => exact emits_arrDec cap
  | writable h => exact emits_writable h
  | ipAddr => exact emits_ipAddr
  | socketAddr => exact emits_socketAddr
  | errorKind => exact emits_errorKind
  | pair _ _ iha ihb => exact iha.pair ihb
  | range _ iha => exact iha.range
  | iso _ e iha => exact iha.iso e
  | skip default => exact emits_skip default
  | enum _ ih => exact emits_enum ih
  | option _ iha => exact iha.option
  | result _ _ iha ihb => exact iha.result ihb
  | array _ len iha => exact iha.array len
  | arrayVec _ hcap iha => exact iha.arrayVec hcap
  | vec _ layout iha => exact iha.vec layout
  | vecDeque _ layout iha => exact iha.vecDeque layout
  | hashSet _ layout iha => exact iha.hashSet layout
  | bTreeSet _ iha => exact iha.bTreeSet
  | reminderVec _ iha => exact iha.reminderVec
  | hashMap _ _ layout iha ihb => exact iha.hashMap ihb layout
  | bTreeMap _ _ iha ihb => exact iha.bTreeMap ihb

/-! ### What the buffers are left with -/

/-- What becomes of a value whose bytes are these, in each of the buffers. -/
structure EncodesTo {α : Type} (e : Encoder α) (v : α) (bytes : Bytes) : Prop where
  /-- A hasher absorbs the bytes. -/
  hashed : ∀ s : BlakeBuffer, (e.encode v).runOn s = some (some (), ⟨s.absorbed ++ bytes⟩)
  /-- The digits of the bytes, if a string has room for them. -/
  digits : HexBuffer.Fits bytes →
    ∃ s, (e.encode v).runOn HexBuffer.new = some (some (), s) ∧ s.1 = bytes.flatMap hexByte
  /-- A vector has the bytes behind what it holds, and panics if that is too much. -/
  appended : ∀ b : VecBuffer,
    if (b.1 ++ bytes).length ≤ isizeMax then
      ∃ b', (e.encode v).runOn b = some (some (), b') ∧ b'.1 = b.1 ++ bytes
    else (e.encode v).runOn b = none
  /-- An array has the bytes behind what it holds, or as many calls of them as have room. -/
  filled : ∀ {cap : Nat} (a : ArrayVec UInt8 cap),
    if (a.toList ++ bytes).length ≤ cap then
      ∃ a', (e.encode v).runOn a = some (some (), a') ∧ a'.toList = a.toList ++ bytes
    else ∃ a' p, (e.encode v).runOn a = some (none, a') ∧ a'.toList = a.toList ++ p ∧ p <+: bytes
  /-- A slice with room for the bytes starts with them, and they are what is returned. -/
  copied : ∀ slice : Bytes,
    if bytes.length ≤ slice.length then
      e.encodeToSlice v slice = some (some bytes, bytes ++ slice.drop bytes.length)
    else ∃ p, e.encodeToSlice v slice = some (none, p ++ slice.drop p.length) ∧ p <+: bytes
  /-- The bytes are counted in a `usize`. -/
  counted : ∀ overflowChecks, e.encodedLen v overflowChecks =
    if overflowChecks ∧ usizeSize ≤ bytes.length then none
    else some (BitVec.ofNat 64 bytes.length)

variable {α : Type} {e : Encoder α} {c : Codec α} {v : α} {bytes : Bytes}

theorem SliceMut.Holds.memory_eq {slice l : Bytes} {s : SliceMut} (h : Holds slice s l) :
    s.memory = l ++ slice.drop l.length := by
  rw [memory, h.1, h.2.1]

/-- The part of the memory in front of the variable is returned. -/
theorem Encoder.encodeToSlice_of_accepted {slice : Bytes} {s : SliceMut}
    (hrun : (e.encode v).runOn (⟨[], slice⟩ : SliceMut) = some (some (), s))
    (h : SliceMut.Holds slice s bytes) :
    e.encodeToSlice v slice = some (some bytes, bytes ++ slice.drop bytes.length) := by
  have hlen := SliceMut.length_rest h
  have hle := h.2.2
  have hplace : slice.length - s.rest.length = bytes.length := by omega
  rw [encodeToSlice, hrun]
  show some (some (s.memory.take _), s.memory) = _
  rw [hplace, h.memory_eq, List.take_left]

/-- What the calls of an encoder write decides on all of the buffers. -/
theorem EncodesTo.of_writes (h : Writes (fun B [Buffer B] => e.encode v (B := B)) bytes) :
    EncodesTo e v bytes where
  hashed s := by
    obtain ⟨s', hs', hrep⟩ := h.accepted BlakeBuffer.accepts s _ rfl trivial
    rw [hs', ← hrep]
  digits hfits := by
    have hs : HexBuffer.Holds HexBuffer.new [] := rfl
    exact h.accepted HexBuffer.accepts _ _ hs hfits
  appended b := by
    split
    case isTrue hok => exact h.accepted VecBuffer.accepts b _ rfl hok
    case isFalse hok => exact h.panics VecBuffer.accepts VecBuffer.panics rfl b.2 hok
  filled a := by
    split
    case isTrue hok => exact h.accepted accepts_arrayVec a _ rfl hok
    case isFalse hok => exact h.refused accepts_arrayVec refuses_arrayVec rfl a.length_le hok
  copied slice := by
    have hs : SliceMut.Holds slice ⟨[], slice⟩ [] := ⟨rfl, rfl, Nat.zero_le _⟩
    split
    case isTrue hok =>
      obtain ⟨s, hrun, hheld⟩ := h.accepted SliceMut.accepts _ _ hs hok
      exact Encoder.encodeToSlice_of_accepted hrun hheld
    case isFalse hok =>
      obtain ⟨s, p, hrun, hheld, hp⟩ :=
        h.refused SliceMut.accepts SliceMut.refuses hs (Nat.zero_le _) hok
      refine ⟨p, ?_, hp⟩
      rw [Encoder.encodeToSlice, hrun]
      exact congrArg (fun memory => some (none, memory)) hheld.memory_eq
  counted overflowChecks := by
    have hs : (⟨0⟩ : LenCounter overflowChecks).Holds [] := ⟨rfl, fun _ => by decide⟩
    split
    case isTrue hover =>
      have hok : ¬ (overflowChecks → bytes.length < usizeSize) :=
        fun h => absurd (h hover.1) (not_lt.mpr hover.2)
      have hrun := h.panics LenCounter.accepts LenCounter.panics hs (fun _ => by decide) hok
      rw [Encoder.encodedLen, Encoder.expect, hrun]
      rfl
    case isFalse hfits =>
      have hok : overflowChecks → bytes.length < usizeSize :=
        fun hc => not_le.mp fun hle => hfits ⟨hc, hle⟩
      obtain ⟨s, hrun, hheld⟩ := h.accepted LenCounter.accepts _ _ hs hok
      rw [Encoder.encodedLen, Encoder.expect, hrun]
      exact congrArg some hheld.1

/-- The whole of the bytes is in an array or a slice exactly where the capacity is at least
their number. -/
theorem EncodesTo.succeeds_iff (h : EncodesTo e v bytes) :
    (∀ {cap : Nat} (a : ArrayVec UInt8 cap),
      (∃ a', (e.encode v).runOn a = some (some (), a')) ↔ a.toList.length + bytes.length ≤ cap) ∧
    ∀ slice, (∃ r memory, e.encodeToSlice v slice = some (some r, memory)) ↔
      bytes.length ≤ slice.length := by
  refine ⟨fun {cap} a => ?_, fun slice => ?_⟩
  · have hfilled := h.filled a
    rw [← List.length_append]
    split at hfilled
    case isTrue hok =>
      obtain ⟨a', hrun, -⟩ := hfilled
      exact iff_of_true ⟨a', hrun⟩ hok
    case isFalse hok =>
      obtain ⟨a', p, hrun, -⟩ := hfilled
      refine iff_of_false ?_ hok
      rintro ⟨b, hb⟩
      rw [hrun] at hb
      cases hb
  · have hcopied := h.copied slice
    split at hcopied
    case isTrue hok => exact iff_of_true ⟨_, _, hcopied⟩ hok
    case isFalse hok =>
      obtain ⟨p, hrun, -⟩ := hcopied
      refine iff_of_false ?_ hok
      rintro ⟨r, memory, hr⟩
      rw [hrun] at hr
      cases hr

/-- `to_bytes`: the bytes, as far as they fit into an allocation. -/
theorem EncodesTo.toBytes_eq (h : EncodesTo e v bytes) :
    e.toBytes v = if bytes.length ≤ isizeMax then some bytes else none := by
  have hadded := h.appended VecBuffer.new
  have hnil : VecBuffer.new.1 ++ bytes = bytes := List.nil_append bytes
  rw [hnil] at hadded
  rw [Encoder.toBytes, Encoder.expect]
  split at hadded
  case isTrue hok =>
    obtain ⟨b, hrun, hb⟩ := hadded
    rw [hrun, if_pos hok]
    exact congrArg some hb
  case isFalse hok =>
    rw [hadded, if_neg hok]
    rfl

/-- `encoded_len`: the number of the bytes, if a `usize` can hold it. -/
theorem EncodesTo.encodedLen_eq (h : EncodesTo e v bytes) (hlt : bytes.length < usizeSize)
    (overflowChecks : Bool) :
    ∃ n, e.encodedLen v overflowChecks = some n ∧ n.toNat = bytes.length := by
  refine ⟨BitVec.ofNat 64 bytes.length, ?_, ?_⟩
  · rw [h.counted, if_neg fun hover => absurd hlt (not_lt.mpr hover.2)]
  · rw [BitVec.toNat_ofNat]
    exact Nat.mod_eq_of_lt hlt

/-- **Encoding does not depend on the buffer.** Every value of the grammar has one byte string
that all of the buffers get; a vector takes it up to the size of an allocation. Where a `usize`
can hold its length, `encoded_len` is this length, in either build, and an array or a slice
takes the value exactly if it has room for so many bytes. -/
theorem encode_uniform {α : Type} {e : Encoder α} {c : Codec α} (h : Grammar e c) (v : α) :
    EncodesTo e v (c.encode v) ∧
      e.toBytes v = (if (c.encode v).length ≤ isizeMax then some (c.encode v) else none) ∧
      ((c.encode v).length < usizeSize → ∀ overflowChecks, ∃ n,
        e.encodedLen v overflowChecks = some n ∧ n.toNat = (c.encode v).length ∧
        (∀ cap, (∃ a, (e.encode v).runOn (ArrayVec.empty : ArrayVec UInt8 cap) =
          some (some (), a)) ↔ n.toNat ≤ cap) ∧
        ∀ slice, (∃ r memory, e.encodeToSlice v slice = some (some r, memory)) ↔
          n.toNat ≤ slice.length) := by
  have hto := EncodesTo.of_writes (h.emits v)
  refine ⟨hto, hto.toBytes_eq, fun hlt overflowChecks => ?_⟩
  obtain ⟨n, hn, hlen⟩ := hto.encodedLen_eq hlt overflowChecks
  obtain ⟨harray, hslice⟩ := hto.succeeds_iff
  refine ⟨n, hn, hlen, fun cap => ?_, fun slice => ?_⟩
  · rw [harray, hlen, ArrayVec.empty, List.length_nil, Nat.zero_add]
  · rw [hslice, hlen]

/-- An optional byte string, in all of the buffers. -/
theorem encode_uniform_option :
    EncodesTo (.option .byteSlice) (some ⟨[7, 9], by decide⟩) [1, 2, 7, 9] := by
  have hbytes : (option byteSlice).encode (some ⟨[7, 9], by decide⟩) = [1, 2, 7, 9] := by
    show [1] ++ (base128Encode 2 ++ [7, 9]) = _
    rw [base128Encode_of_lt (by decide)]
    rfl
  have h := (encode_uniform (.option .byteSlice) (some ⟨[7, 9], by decide⟩)).1
  rwa [hbytes] at h

/-! ### Too many bytes -/

/-- Four gibibytes of zeros. -/
def zeros : ByteSlice := ⟨List.replicate (2 ^ 32) 0, by rw [List.length_replicate]; decide⟩

/-- An array of references to arrays of references to one slice. -/
def sharedSlices : Fixed (Fixed ByteSlice (2 ^ 16)) (2 ^ 16) :=
  ⟨List.replicate (2 ^ 16) ⟨List.replicate (2 ^ 16) zeros, List.length_replicate⟩,
    List.length_replicate⟩

theorem length_encodeAll_replicate (c : Codec α) (n : Nat) (v : α) :
    (encodeAll c (List.replicate n v)).length = n * (c.encode v).length := by
  rw [encodeAll, List.length_flatMap, List.map_replicate, List.sum_replicate_nat]

theorem length_encode_zeros : (byteSlice.encode zeros).length = 5 + 2 ^ 32 := by
  have hlen : (base128Encode (2 ^ 32)).length = 5 := by
    repeat rw [base128Encode_of_ge (by decide)]
    rw [base128Encode_of_lt (by decide)]
    rfl
  show (base128Encode (List.replicate (2 ^ 32) (0 : UInt8)).length ++
    List.replicate (2 ^ 32) (0 : UInt8)).length = _
  rw [List.length_append, List.length_replicate, hlen]

theorem length_encode_sharedSlices :
    ((array (array byteSlice (2 ^ 16)) (2 ^ 16)).encode sharedSlices).length =
      2 ^ 16 * (2 ^ 16 * (5 + 2 ^ 32)) := by
  have hinner := length_encodeAll_replicate byteSlice (2 ^ 16) zeros
  have houter := length_encodeAll_replicate (array byteSlice (2 ^ 16)) (2 ^ 16)
    ⟨List.replicate (2 ^ 16) zeros, List.length_replicate⟩
  rw [length_encode_zeros] at hinner
  exact houter.trans (congrArg (2 ^ 16 * ·) hinner)

/-- References to one slice of four gibibytes stand for more than `usize::MAX` bytes: a vector
panics, and `encoded_len` panics or is a smaller number. -/
theorem shared_slices_not_counted :
    Grammar (.array (.array .byteSlice (2 ^ 16)) (2 ^ 16))
        (array (array byteSlice (2 ^ 16)) (2 ^ 16)) ∧
      ((array (array byteSlice (2 ^ 16)) (2 ^ 16)).encode sharedSlices).length =
        2 ^ 64 + 5 * 2 ^ 32 ∧
      (Encoder.array (.array .byteSlice (2 ^ 16)) (2 ^ 16)).toBytes sharedSlices = none ∧
      (Encoder.array (.array .byteSlice (2 ^ 16)) (2 ^ 16)).encodedLen sharedSlices true = none ∧
      (Encoder.array (.array .byteSlice (2 ^ 16)) (2 ^ 16)).encodedLen sharedSlices false =
        some (5 * 2 ^ 32) := by
  have hgrammar : Grammar (.array (.array .byteSlice (2 ^ 16)) (2 ^ 16))
      (array (array byteSlice (2 ^ 16)) (2 ^ 16)) := .array (.array .byteSlice _) _
  have hto := EncodesTo.of_writes (hgrammar.emits sharedSlices)
  have hlen := length_encode_sharedSlices
  refine ⟨hgrammar, hlen, ?_, ?_, ?_⟩
  · rw [hto.toBytes_eq, hlen]
    rfl
  · rw [hto.counted, hlen]
    rfl
  · rw [hto.counted, hlen]
    rfl

end OnionNetwork.Codec
