import OnionNetwork.Chat.Types
import OnionNetwork.Lib.FramedLoop

/-!
# Headers of requests and responses

The packed structs `RequestHeader` and `ResponseHeader`: their fields are byte
arrays, so the bytes of a header are the fields one behind the other.
-/

namespace OnionNetwork.Chat

open Lib

/-- `[u8; N]`. -/
abbrev ByteArr (n : Nat) := Fixed UInt8 n

/-- `handlers::CallId`. -/
abbrev CallId := ByteArr 4

/-- `&arr[at..at + len]`. -/
def slice {n : Nat} (arr : ByteArr n) (start len : Nat) (h : start + len ≤ n) : ByteArr len where
  toList := (arr.toList.drop start).take len
  length_eq := by
    rw [List.length_take, List.length_drop, arr.length_eq]
    omega

/-- `u32::from_be_bytes`. -/
def u32FromBeBytes (bytes : ByteArr 4) : Nat :=
  bytes.toList.foldl (fun n b => n * 256 + b.toNat) 0

/-- `u32::to_be_bytes`, of `n as u32`. -/
def u32ToBeBytes (n : Nat) : ByteArr 4 where
  toList := [UInt8.ofNat (n / 2 ^ 24), UInt8.ofNat (n / 2 ^ 16), UInt8.ofNat (n / 2 ^ 8),
    UInt8.ofNat n]
  length_eq := rfl

/-- `RequestHeader`. -/
structure RequestHeader where
  rpcPrefix : ByteArr 2
  callId : CallId
  topic : ByteArr 32
  len : ByteArr 4

/-- `ResponseHeader`. -/
structure ResponseHeader where
  callId : CallId
  len : ByteArr 4

namespace RequestHeader

/-- `RequestHeader::as_bytes`. -/
def asBytes (h : RequestHeader) : ByteArr 42 where
  toList := h.rpcPrefix.toList ++ (h.callId.toList ++ (h.topic.toList ++ h.len.toList))
  length_eq := by simp

/-- `RequestHeader::from_array`. -/
def fromArray (arr : ByteArr 42) : RequestHeader where
  rpcPrefix := slice arr 0 2 (by decide)
  callId := slice arr 2 4 (by decide)
  topic := slice arr 6 32 (by decide)
  len := slice arr 38 4 (by decide)

/-- `RequestHeader::get_len`. -/
def getLen (h : RequestHeader) : Nat := u32FromBeBytes h.len

end RequestHeader

namespace ResponseHeader

/-- `ResponseHeader::as_bytes`. -/
def asBytes (h : ResponseHeader) : ByteArr 8 where
  toList := h.callId.toList ++ h.len.toList
  length_eq := by simp

/-- `ResponseHeader::from_array`. -/
def fromArray (arr : ByteArr 8) : ResponseHeader where
  callId := slice arr 0 4 (by decide)
  len := slice arr 4 4 (by decide)

/-- `ResponseHeader::get_len`. -/
def getLen (h : ResponseHeader) : Nat := u32FromBeBytes h.len

end ResponseHeader

/-- Consecutive slices. -/
theorem take_append_drop_drop (l : Bytes) (i k : Nat) :
    (l.drop i).take k ++ l.drop (i + k) = l.drop i := by
  rw [← List.drop_drop, List.take_append_drop]

theorem RequestHeader.fromArray_asBytes (h : RequestHeader) : fromArray h.asBytes = h := by
  obtain ⟨⟨p, hp⟩, ⟨c, hc⟩, ⟨t, ht⟩, ⟨l, hl⟩⟩ := h
  have hp' : p.drop 38 = [] := List.drop_of_length_le (by omega)
  have hc' : c.drop 36 = [] := List.drop_of_length_le (by omega)
  have hl' : l.take 4 = l := List.take_of_length_le (by omega)
  simp [fromArray, asBytes, slice, List.drop_append, List.take_append, hp, hc, ht, hp', hc', hl']

theorem RequestHeader.asBytes_fromArray (b : ByteArr 42) : (fromArray b).asBytes = b := by
  apply Fixed.ext_toList
  have hlast : (b.toList.drop 38).take 4 = b.toList.drop 38 :=
    List.take_of_length_le (by simp)
  show b.toList.take 2 ++ ((b.toList.drop 2).take 4 ++ ((b.toList.drop 6).take 32 ++
    (b.toList.drop 38).take 4)) = b.toList
  rw [hlast, take_append_drop_drop, take_append_drop_drop, List.take_append_drop]

theorem ResponseHeader.fromArray_asBytes (h : ResponseHeader) : fromArray h.asBytes = h := by
  obtain ⟨⟨c, hc⟩, ⟨l, hl⟩⟩ := h
  simp [fromArray, asBytes, slice, List.drop_append, hc, hl]

theorem ResponseHeader.asBytes_fromArray (b : ByteArr 8) : (fromArray b).asBytes = b := by
  apply Fixed.ext_toList
  have hlast : (b.toList.drop 4).take 4 = b.toList.drop 4 :=
    List.take_of_length_le (by simp)
  show b.toList.take 4 ++ (b.toList.drop 4).take 4 = b.toList
  rw [hlast, List.take_append_drop]

/-- Requests as frames. -/
def requestFormat : FrameFormat UInt8 RequestHeader where
  headerLen := 42
  headerLen_pos := by decide
  fromArray := RequestHeader.fromArray
  asBytes := RequestHeader.asBytes
  fromArray_asBytes := RequestHeader.fromArray_asBytes
  asBytes_fromArray := RequestHeader.asBytes_fromArray
  bodyLen := RequestHeader.getLen

/-- Responses as frames. -/
def responseFormat : FrameFormat UInt8 ResponseHeader where
  headerLen := 8
  headerLen_pos := by decide
  fromArray := ResponseHeader.fromArray
  asBytes := ResponseHeader.asBytes
  fromArray_asBytes := ResponseHeader.fromArray_asBytes
  asBytes_fromArray := ResponseHeader.asBytes_fromArray
  bodyLen := ResponseHeader.getLen

/-! ### Topics -/

/-- `chat_spec::Topic`. -/
inductive Topic
  | profile (id : ByteArr 32)
  | chat (name : ChatName)

/-- `Topic::as_bytes`. -/
def Topic.asBytes : Topic → Bytes
  | .profile id => id.toList
  | .chat name => name.asBytes

/-- `Topic::decompress`: a name is filled up with `0xff`, which no UTF-8 has. -/
def Topic.decompress (bytes : ByteArr 32) : Topic :=
  let len := 32 - (bytes.toList.reverse.takeWhile fun b => b == 0xff).length
  match String.fromUTF8? ⟨(bytes.toList.take len).toArray⟩ with
  | some s => if h : s.utf8ByteSize ≤ chatNameCap then .chat ⟨s, h⟩ else .profile bytes
  | none => .profile bytes

end OnionNetwork.Chat
