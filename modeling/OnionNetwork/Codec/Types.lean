import OnionNetwork.Chat.Types
import OnionNetwork.Codec.Decode
import OnionNetwork.Lib.KeyedList
import Mathlib.Data.List.Dedup

/-!
# The codecs of the library types

Byte strings, addresses, and the collections of the standard library and of
`arrayvec`. A value of a collection carries what the library promises of it: the
length is a `usize`, it fits into memory, keys are distinct or in order.
-/

namespace OnionNetwork.Codec

open Lib Parser

/-! ### Byte strings -/

/-- `[u8]` behind a reference, and `Box<[u8]>`. -/
abbrev ByteSlice := { b : Bytes // b.length < usizeSize }

/-- `&[u8]`, `Box<[u8]>`. -/
def byteSlice : Codec ByteSlice where
  encode b := encodeSlice b.1
  decode := usize.decode.andThen fun len buffer =>
    if buffer.length < len.toNat then reject buffer
    else
      (splitAt len.toNat).andThen (fun bytes rest =>
        if h : bytes.length < usizeSize then accept ⟨bytes, h⟩ rest else reject rest) buffer

/-- `core::str::from_utf8` accepts the bytes. -/
def IsUtf8 (b : ByteSlice) : Prop := (ByteArray.mk b.1.toArray).IsValidUTF8

instance (b : ByteSlice) : Decidable (IsUtf8 b) :=
  inferInstanceAs (Decidable (ByteArray.IsValidUTF8 _))

/-- `&str`, `String`: bytes that are UTF-8. -/
abbrev Str := { b : ByteSlice // IsUtf8 b }

/-- The values that satisfy a check. -/
def checked {α : Type} (c : Codec α) (p : α → Prop) [DecidablePred p] : Codec { v : α // p v } where
  encode v := c.encode v.1
  decode := c.decode.andThen fun v => if h : p v then accept ⟨v, h⟩ else reject

/-- `&str`, `String`. -/
def str : Codec Str := checked byteSlice IsUtf8

/-- `ArrayString<LEN>`. -/
def arrayString (cap : Nat) : Codec { s : Str // s.1.1.length ≤ cap } :=
  checked str fun s => s.1.1.length ≤ cap

/-- `Reminder` and `ReminderOwned`: the rest of the input. -/
def reminder : Codec Bytes where
  encode b := b
  decode buffer := accept buffer []

/-! ### Addresses -/

/-- `IpAddr`. -/
inductive IpAddr
  | v4 (octets : Fixed UInt8 4)
  | v6 (octets : Fixed UInt8 16)
  deriving DecidableEq

/-- `IpAddr`. -/
def ipAddr : Codec IpAddr where
  encode
    | .v4 octets => u8.encode 0 ++ (rawBytes 4).encode octets
    | .v6 octets => u8.encode 1 ++ (rawBytes 16).encode octets
  decode := u8.decode.andThen fun tag =>
    if tag = 0 then (rawBytes 4).decode.map IpAddr.v4
    else if tag = 1 then (rawBytes 16).decode.map IpAddr.v6
    else reject

/-- `SocketAddr`: an IPv6 one has a flow and a scope besides its address. -/
inductive SocketAddr
  | v4 (octets : Fixed UInt8 4) (port : BitVec 16)
  | v6 (octets : Fixed UInt8 16) (port : BitVec 16) (flowinfo scopeId : BitVec 32)
  deriving DecidableEq

namespace SocketAddr

/-- `SocketAddr::ip`. -/
def ip : SocketAddr → IpAddr
  | v4 octets _ => .v4 octets
  | v6 octets _ _ _ => .v6 octets

/-- `SocketAddr::port`. -/
def port : SocketAddr → BitVec 16
  | v4 _ port => port
  | v6 _ port _ _ => port

/-- `SocketAddr::new`. -/
def new : IpAddr → BitVec 16 → SocketAddr
  | .v4 octets, port => v4 octets port
  | .v6 octets, port => v6 octets port 0 0

end SocketAddr

/-- `SocketAddr`. -/
def socketAddr : Codec SocketAddr where
  encode a := ipAddr.encode a.ip ++ (uint 16).encode a.port
  decode := ipAddr.decode.andThen fun ip => (uint 16).decode.map fun port => SocketAddr.new ip port

/-- `ERROR_LIST`. -/
def errorList : List Chat.ErrorKind :=
  [.notFound, .permissionDenied, .connectionRefused, .connectionReset, .connectionAborted,
    .notConnected, .addrInUse, .addrNotAvailable, .brokenPipe, .alreadyExists, .wouldBlock,
    .invalidInput, .invalidData, .timedOut, .writeZero, .interrupted, .unsupported,
    .unexpectedEof, .outOfMemory, .other]

/-- `io::ErrorKind`, its place in the list. -/
def errorKind : Codec Chat.ErrorKind where
  encode k := base128Encode (errorList.idxOf k)
  decode := usize.decode.andThen fun idx =>
    match errorList[idx.toNat]? with
    | some k => accept k
    | none => reject

/-! ### Collections -/

section Collections

variable {α : Type} (c : Codec α)

/-- `Vec<T>`, `Arc<[T]>`. -/
def vec (layout : Layout) : Codec (Vec layout α) where
  encode v := encodeCounted c v.toList
  decode := reserved 1 layout c

/-- `VecDeque<T>`. -/
def vecDeque (layout : Layout) : Codec (Vec layout α) where
  encode v := encodeCounted c v.toList
  decode := reserved 1 layout c

/-- Elements pushed into an `ArrayVec` with room for them. -/
def pushAll {α : Type} {len cap : Nat} (h : len ≤ cap) (xs : Fixed α len) : ArrayVec α cap :=
  ⟨xs.toList, xs.length_eq.symm ▸ h⟩

/-- `ArrayVec<T, LEN>`. -/
def arrayVec (cap : Nat) : Codec (ArrayVec α cap) where
  encode v := encodeCounted c v.toList
  decode := usize.decode.andThen fun len =>
    if h : cap < len.toNat then reject
    else (decodeMany c len.toNat).map (pushAll (Nat.le_of_not_lt h))

/-- `HashSet<T>`: distinct elements in the order of the table. -/
structure HashSet (layout : Layout) (α : Type) where
  toList : List α
  nodup : toList.Nodup
  length_lt : toList.length < usizeSize
  fits : layout.bytes toList.length ≤ isizeMax

/-- A set filled from a list. -/
def HashSet.ofVec [DecidableEq α] {layout : Layout} (v : Vec layout α) : HashSet layout α where
  toList := v.toList.dedup
  nodup := List.nodup_dedup _
  length_lt := lt_of_le_of_lt (List.dedup_sublist _).length_le v.length_lt
  fits := le_trans (layout.mono (List.dedup_sublist _).length_le) v.fits

/-- `HashSet<T>`. -/
def hashSet [DecidableEq α] (layout : Layout) : Codec (HashSet layout α) where
  encode s := encodeCounted c s.toList
  decode := (reserved 1 layout c).map HashSet.ofVec

/-- `BTreeSet<T>`. -/
abbrev BTreeSet (α : Type) [LinearOrder α] :=
  { s : SortedMap α Unit // s.entries.length < usizeSize }

/-- `BTreeSet<T>`. -/
def bTreeSet [LinearOrder α] : Codec (BTreeSet α) where
  encode s := encodeCounted c s.1.keys
  decode := (unreserved 1 c).map fun l =>
    ⟨SortedMap.ofList (l.1.map fun x => (x, ())), by
      have hle := SortedMap.length_ofList (l.1.map fun x => (x, ()))
      rw [List.length_map] at hle
      exact lt_of_le_of_lt hle l.2⟩

/-- `ReminderVec<T>`: elements up to the end of the input. An element of no bytes
leaves the loop where it is. -/
def decodeReminder (input : Bytes) : Run UInt8 DecodeEvent DecodeFault (List α) :=
  if input = [] then ⟨[], .ok ([], [])⟩
  else
    match (c.decode input).result with
    | .error stop => ⟨(c.decode input).log, .error stop⟩
    | .ok (x, rest) =>
        let event := DecodeEvent.element (input.length - rest.length)
        if rest.length < input.length then
          ⟨(c.decode input).log ++ event :: (decodeReminder rest).log,
            (decodeReminder rest).result.map fun r => (x :: r.1, r.2)⟩
        else ⟨(c.decode input).log ++ [event], .error (.fault .endless)⟩
termination_by input.length

/-- `ReminderVec<T>`. -/
def reminderVec : Codec (List α) where
  encode v := encodeAll c v
  decode := decodeReminder c

end Collections

section Maps

variable {K V : Type} (k : Codec K) (v : Codec V)

/-- `HashMap<K, V>`: entries with distinct keys in the order of the table. -/
structure HashMap (layout : Layout) (K V : Type) where
  entries : List (K × V)
  nodup : (entries.map Prod.fst).Nodup
  length_lt : entries.length < usizeSize
  fits : layout.bytes entries.length ≤ isizeMax

/-- A map filled from a list. -/
def HashMap.ofVec [DecidableEq K] {layout : Layout} (l : Vec layout (K × V)) :
    HashMap layout K V where
  entries := KeyedList.ofList l.toList
  nodup := KeyedList.nodup_ofList _
  length_lt := lt_of_le_of_lt (KeyedList.length_ofList _) l.length_lt
  fits := le_trans (layout.mono (KeyedList.length_ofList _)) l.fits

/-- `HashMap<K, V>`. -/
def hashMap [DecidableEq K] (layout : Layout) : Codec (HashMap layout K V) where
  encode m := encodeCounted (pair k v) m.entries
  decode := (reserved 2 layout (pair k v)).map HashMap.ofVec

/-- `BTreeMap<K, V>`. -/
abbrev BTreeMap (K V : Type) [LinearOrder K] :=
  { m : SortedMap K V // m.entries.length < usizeSize }

/-- `BTreeMap<K, V>`. -/
def bTreeMap [LinearOrder K] : Codec (BTreeMap K V) where
  encode m := encodeCounted (pair k v) m.1.entries
  decode := (unreserved 2 (pair k v)).map fun l =>
    ⟨SortedMap.ofList l.1, lt_of_le_of_lt (SortedMap.length_ofList _) l.2⟩

end Maps

end OnionNetwork.Codec
