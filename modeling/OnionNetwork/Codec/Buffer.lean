import OnionNetwork.Codec.Types
import OnionNetwork.Lib.Sink

/-!
# Buffers

`codec::Buffer` and the types that implement it. Each of them holds the bytes that were
written in a way of its own: a vector and an array as they are, a slice as the part of it that
lies in front of the variable, a counter as their number, a hasher as what it absorbed. Five
of them write a slice at once, and `HexBuffer` byte by byte.
-/

namespace OnionNetwork.Codec

open Lib

/-- `codec::Buffer`. -/
abbrev Buffer (B : Type) := Sink UInt8 B

/-! ### `Vec<u8>` and `SmallVec` -/

/-- `Vec<u8>`, `SmallVec`: no allocation is larger than `isize::MAX`. -/
abbrev VecBuffer := { bytes : Bytes // bytes.length ≤ isizeMax }

namespace VecBuffer

/-- `Vec::new`. -/
def new : VecBuffer := ⟨[], Nat.zero_le _⟩

/-- `Vec::extend_from_slice`: growing too large is a panic. -/
def append (slice : Bytes) : SinkM VecBuffer Unit := .of fun v =>
  if h : (v.1 ++ slice).length ≤ isizeMax then some (some (), ⟨v.1 ++ slice, h⟩) else none

instance : Buffer VecBuffer where
  push byte := append [byte]
  extendFromSlice := append

theorem perform_eq (w : Write UInt8) : (w.perform : SinkM VecBuffer Unit) = append w.items := by
  cases w <;> rfl

theorem accepts :
    Accepts (fun (v : VecBuffer) l => v.1 = l) fun l => l.length ≤ isizeMax where
  of_append l m h := by
    rw [List.length_append] at h
    omega
  write w v l hv hok := by
    subst hv
    rw [perform_eq, append, SinkM.runOn_of, dif_pos hok]
    exact ⟨_, rfl, rfl⟩

theorem panics : Panics (fun (v : VecBuffer) l => v.1 = l) fun l => l.length ≤ isizeMax := by
  intro w v l hv hok
  subst hv
  rw [perform_eq, append, SinkM.runOn_of, dif_neg hok]

end VecBuffer

/-! ### `ArrayVec<u8, SIZE>` -/

section ArrayVec

variable {cap : Nat}

/-- `try_push`, `try_extend_from_slice`: all of the bytes or none of them. -/
def tryExtend (slice : Bytes) : SinkM (ArrayVec UInt8 cap) Unit := .of fun v =>
  if h : (v.toList ++ slice).length ≤ cap then some (some (), ⟨v.toList ++ slice, h⟩)
  else some (none, v)

instance : Buffer (ArrayVec UInt8 cap) where
  push byte := tryExtend [byte]
  extendFromSlice := tryExtend

theorem perform_arrayVec_eq (w : Write UInt8) :
    (w.perform : SinkM (ArrayVec UInt8 cap) Unit) = tryExtend w.items := by
  cases w <;> rfl

theorem accepts_arrayVec :
    Accepts (fun (v : ArrayVec UInt8 cap) l => v.toList = l) fun l => l.length ≤ cap where
  of_append l m h := by
    rw [List.length_append] at h
    omega
  write w v l hv hok := by
    subst hv
    rw [perform_arrayVec_eq, tryExtend, SinkM.runOn_of, dif_pos hok]
    exact ⟨_, rfl, rfl⟩

theorem refuses_arrayVec :
    Refuses (fun (v : ArrayVec UInt8 cap) l => v.toList = l) fun l => l.length ≤ cap := by
  intro w v l hv hok
  subst hv
  rw [perform_arrayVec_eq, tryExtend, SinkM.runOn_of, dif_neg hok]
  exact ⟨v, rfl, rfl⟩

end ArrayVec

/-! ### `&mut [u8]` -/

/-- A variable of type `&mut [u8]` that walks over memory: what lies in front of it, and what
it still refers to. -/
structure SliceMut where
  written : Bytes
  rest : Bytes

namespace SliceMut

/-- The memory that the variable started with. -/
def memory (s : SliceMut) : Bytes := s.written ++ s.rest

/-- `take_first_mut`, and a write to it. -/
def push (byte : UInt8) : SinkM SliceMut Unit := .of fun s =>
  match s.rest with
  | [] => some (none, s)
  | _ :: rest => some (some (), ⟨s.written ++ [byte], rest⟩)

/-- `take_mut(..slice.len())`, and a copy to it. -/
def extendFromSlice (slice : Bytes) : SinkM SliceMut Unit := .of fun s =>
  if slice.length ≤ s.rest.length then
    some (some (), ⟨s.written ++ slice, s.rest.drop slice.length⟩)
  else some (none, s)

instance : Buffer SliceMut where
  push := push
  extendFromSlice := extendFromSlice

/-- The bytes lie in front of the variable, and the rest of the memory is as it was. -/
def Holds (slice : Bytes) (s : SliceMut) (l : Bytes) : Prop :=
  s.written = l ∧ s.rest = slice.drop l.length ∧ l.length ≤ slice.length

variable {slice l : Bytes} {s : SliceMut}

theorem push_eq (byte : UInt8) : push byte = extendFromSlice [byte] := by
  have h : ∀ s, (push byte).runOn s = (extendFromSlice [byte]).runOn s := by
    rintro ⟨written, _ | ⟨b, rest⟩⟩ <;> rfl
  exact funext h

theorem perform_eq (w : Write UInt8) :
    (w.perform : SinkM SliceMut Unit) = extendFromSlice w.items := by
  cases w with
  | push byte => exact push_eq byte
  | extendFromSlice l => rfl

theorem length_rest (h : Holds slice s l) : s.rest.length = slice.length - l.length := by
  rw [h.2.1, List.length_drop]

theorem accepts : Accepts (Holds slice) fun l => l.length ≤ slice.length where
  of_append l m h := by
    rw [List.length_append] at h
    omega
  write w s l hs hok := by
    have hlen := length_rest hs
    have happ : (l ++ w.items).length = l.length + w.items.length := List.length_append
    rw [perform_eq, extendFromSlice, SinkM.runOn_of, if_pos (by omega)]
    refine ⟨_, rfl, by rw [hs.1], ?_, hok⟩
    rw [hs.2.1, List.drop_drop, happ]

theorem refuses : Refuses (Holds slice) fun l => l.length ≤ slice.length := by
  intro w s l hs hok
  have hlen := length_rest hs
  have hle := hs.2.2
  have happ : (l ++ w.items).length = l.length + w.items.length := List.length_append
  rw [perform_eq, extendFromSlice, SinkM.runOn_of, if_neg (by omega)]
  exact ⟨s, rfl, hs⟩

end SliceMut

/-! ### `LenCounter` -/

/-- `LenCounter` of `encoded_len`, compiled with overflow checks or without. -/
structure LenCounter (overflowChecks : Bool) where
  count : BitVec 64

namespace LenCounter

variable {overflowChecks : Bool}

/-- `self.0 += n`. -/
def add (n : Nat) : SinkM (LenCounter overflowChecks) Unit := .of fun s =>
  if overflowChecks ∧ usizeSize ≤ s.count.toNat + n then none
  else some (some (), ⟨s.count + BitVec.ofNat 64 n⟩)

instance : Buffer (LenCounter overflowChecks) where
  push _ := add 1
  extendFromSlice slice := add slice.length

/-- The sum of the lengths, which overflow checks keep below `usize::MAX`. -/
def Holds (s : LenCounter overflowChecks) (l : Bytes) : Prop :=
  s.count = BitVec.ofNat 64 l.length ∧ (overflowChecks → l.length < usizeSize)

theorem perform_eq (w : Write UInt8) :
    (w.perform : SinkM (LenCounter overflowChecks) Unit) = add w.items.length := by
  cases w <;> rfl

theorem toNat_count {s : LenCounter overflowChecks} {l : Bytes} (h : s.Holds l)
    (hc : overflowChecks) : s.count.toNat = l.length := by
  rw [h.1, BitVec.toNat_ofNat]
  exact Nat.mod_eq_of_lt (h.2 hc)

theorem accepts :
    Accepts (@Holds overflowChecks) fun l =>
      overflowChecks → l.length < usizeSize where
  of_append l m h hc := by
    have := h hc
    rw [List.length_append] at this
    omega
  write w s l hs hok := by
    have hfits : ¬ (overflowChecks ∧ usizeSize ≤ s.count.toNat + w.items.length) := by
      rintro ⟨hc, hle⟩
      have := hok hc
      rw [List.length_append, ← toNat_count hs hc] at this
      omega
    rw [perform_eq, add, SinkM.runOn_of, if_neg hfits]
    refine ⟨_, rfl, ?_, hok⟩
    rw [hs.1, List.length_append, BitVec.ofNat_add]

theorem panics :
    Panics (@Holds overflowChecks) fun l =>
      overflowChecks → l.length < usizeSize := by
  intro w s l hs hok
  obtain ⟨hc, hle⟩ := Classical.not_imp.mp hok
  rw [List.length_append, ← toNat_count hs hc] at hle
  rw [perform_eq, add, SinkM.runOn_of, if_pos ⟨hc, not_lt.mp hle⟩]

end LenCounter

/-! ### Hashers -/

/-- `BlakeBuffer` of `Proof::pack_payload`: what the hasher was updated with. -/
structure BlakeBuffer where
  absorbed : Bytes

namespace BlakeBuffer

/-- `Hasher::update`. -/
def update (slice : Bytes) : SinkM BlakeBuffer Unit := .of fun s =>
  some (some (), ⟨s.absorbed ++ slice⟩)

instance : Buffer BlakeBuffer where
  push byte := update [byte]
  extendFromSlice := update

/-- `Hasher::finalize`. -/
def finalize (cr : Crypto) (s : BlakeBuffer) : Hash := cr.blake3 s.absorbed

theorem accepts : Accepts (fun (s : BlakeBuffer) l => s.absorbed = l) fun _ => True where
  of_append _ _ _ := trivial
  write w s l hs _ := by
    subst hs
    cases w <;> exact ⟨_, rfl, rfl⟩

end BlakeBuffer

/-- A digit below sixteen. -/
def hexDigit (n : UInt8) : Char :=
  if n < 10 then Char.ofNat (48 + n.toNat) else Char.ofNat (87 + n.toNat)

/-- The format of a byte as two digits. -/
def hexByte (byte : UInt8) : List Char := [hexDigit (byte / 16), hexDigit (byte % 16)]

/-- `HexBuffer` of `Address::to_file_name`: a string of digits. -/
abbrev HexBuffer := { digits : List Char // digits.length ≤ isizeMax }

namespace HexBuffer

/-- An empty string. -/
def new : HexBuffer := ⟨[], Nat.zero_le _⟩

/-- The digits of a byte are written to the string, which grows. -/
def push (byte : UInt8) : SinkM HexBuffer Unit := .of fun s =>
  if h : (s.1 ++ hexByte byte).length ≤ isizeMax then some (some (), ⟨s.1 ++ hexByte byte, h⟩)
  else none

/-- A slice is written byte by byte. -/
instance : Buffer HexBuffer where
  push := push

/-- Two digits for each byte. -/
def Holds (s : HexBuffer) (l : Bytes) : Prop := s.1 = l.flatMap hexByte

/-- The string has room for the digits. -/
def Fits (l : Bytes) : Prop := (l.flatMap hexByte).length ≤ isizeMax

theorem of_append (l m : Bytes) (h : Fits (l ++ m)) : Fits l := by
  rw [Fits, List.flatMap_append, List.length_append] at h
  exact le_trans (Nat.le_add_right _ _) h

theorem push_appends (byte : UInt8) : Appends Holds Fits (push byte) [byte] := by
  rintro s l hs hok
  have happ : (l ++ [byte]).flatMap hexByte = s.1 ++ hexByte byte := by
    rw [List.flatMap_append, ← hs, List.flatMap_singleton]
  rw [Fits, happ] at hok
  rw [push, SinkM.runOn_of, dif_pos hok]
  exact ⟨_, rfl, happ.symm⟩

theorem accepts : Accepts Holds Fits where
  of_append := of_append
  write w := by
    cases w with
    | push byte => exact push_appends byte
    | extendFromSlice slice =>
        have h := Appends.forM of_append push_appends slice
        rwa [List.flatMap_singleton'] at h

end HexBuffer

end OnionNetwork.Codec
