import Mathlib.Data.List.TakeWhile
import OnionNetwork.Chat.Loops

/-!
# Topics on the wire

A request names its topic by 32 bytes: those of the identity, or those of the name filled
up with `0xff`. Nothing else says which of the two it is, so a profile is taken for a chat
when its identity, without the bytes `0xff` at its end, happens to be UTF-8
(`topic_survives_iff`).
-/

namespace OnionNetwork.Client

open Chat Lib

/-- The bytes in front of those that fill up a name. -/
def unfilled (bytes : ByteArr 32) : Bytes :=
  bytes.toList.take (32 - (bytes.toList.reverse.takeWhile fun b => b == 0xff).length)

/-- The bytes are those of a string. -/
def IsUtf8 (bytes : Bytes) : Prop := (ByteArray.mk bytes.toArray).IsValidUTF8

/-- A topic that is not taken for another one: any chat, and a profile whose identity does
not read as a name. -/
def Recognisable : Topic → Prop
  | .chat _ => True
  | .profile id => ¬ IsUtf8 (unfilled id)

/-! ## No string has the byte `0xff` -/

theorem ofNat_ne_ff {n : Nat} (hlt : n < 256) (hne : n ≠ 255) : (0xff : UInt8) ≠ UInt8.ofNat n := by
  intro h
  have hval := congrArg UInt8.toNat h
  rw [UInt8.toNat_ofNat', Nat.mod_eq_of_lt hlt] at hval
  exact hne hval.symm

theorem ff_not_mem_utf8EncodeChar (c : Char) : (0xff : UInt8) ∉ String.utf8EncodeChar c := by
  -- a byte of the encoding is below 0x80, or has a zero bit in front of its payload
  rw [String.utf8EncodeChar]
  split_ifs
  · simp only [List.mem_singleton]
    exact ofNat_ne_ff (by omega) (by omega)
  · simp only [List.mem_cons, List.not_mem_nil, or_false, not_or]
    exact ⟨ofNat_ne_ff (by omega) (by omega), ofNat_ne_ff (by omega) (by omega)⟩
  · simp only [List.mem_cons, List.not_mem_nil, or_false, not_or]
    exact ⟨ofNat_ne_ff (by omega) (by omega), ofNat_ne_ff (by omega) (by omega),
      ofNat_ne_ff (by omega) (by omega)⟩
  · simp only [List.mem_cons, List.not_mem_nil, or_false, not_or]
    exact ⟨ofNat_ne_ff (by omega) (by omega), ofNat_ne_ff (by omega) (by omega),
      ofNat_ne_ff (by omega) (by omega), ofNat_ne_ff (by omega) (by omega)⟩

theorem ff_not_mem_asBytes (name : ChatName) : (0xff : UInt8) ∉ name.asBytes := by
  rw [ChatName.asBytes, ← String.utf8Encode_toList, List.utf8Encode, List.data_toByteArray]
  simp only [List.mem_flatMap, not_exists, not_and]
  exact fun c _ => ff_not_mem_utf8EncodeChar c

theorem length_asBytes_le (name : ChatName) : name.asBytes.length ≤ 32 := name.size_le

/-! ## Names -/

/-- A compressed name is the name and what fills it up. -/
theorem compress_chat (name : ChatName) : (compress (.chat name)).toList =
    name.asBytes ++ List.replicate (32 - name.asBytes.length) 0xff := by
  have hlen := length_asBytes_le name
  show (name.asBytes ++ List.replicate 32 0xff).take 32 = _
  rw [List.take_append, List.take_of_length_le hlen, List.take_replicate]
  congr 2
  omega

/-- Filling up is undone. -/
theorem unfilled_compress (name : ChatName) : unfilled (compress (.chat name)) = name.asBytes := by
  have hlen := length_asBytes_le name
  have hend : (name.asBytes.reverse.takeWhile fun b => b == 0xff) = [] := by
    cases hrev : name.asBytes.reverse with
    | nil => rfl
    | cons b rest =>
        have hb : b ∈ name.asBytes := by
          rw [← List.mem_reverse, hrev]
          exact List.mem_cons_self
        have hne : ¬ (b == 0xff) = true := by
          rw [beq_iff_eq]
          intro h
          exact ff_not_mem_asBytes name (h ▸ hb)
        exact List.takeWhile_cons_of_neg hne
  unfold unfilled
  rw [compress_chat, List.reverse_append, List.reverse_replicate,
    List.takeWhile_append_of_pos (by simp), hend, List.append_nil, List.length_replicate]
  have hcount : 32 - (32 - name.asBytes.length) = name.asBytes.length := by omega
  rw [hcount, List.take_left]

theorem decompress_eq (bytes : ByteArr 32) : Topic.decompress bytes =
    match String.fromUTF8? ⟨(unfilled bytes).toArray⟩ with
    | some s => if h : s.utf8ByteSize ≤ chatNameCap then .chat ⟨s, h⟩ else .profile bytes
    | none => .profile bytes := rfl

theorem length_unfilled_le (bytes : ByteArr 32) : (unfilled bytes).length ≤ 32 := by
  rw [unfilled, List.length_take, bytes.length_eq]
  exact Nat.min_le_right _ _

/-- Bytes that read as a name are taken for it. -/
theorem decompress_of_utf8 {bytes : ByteArr 32} (h : IsUtf8 (unfilled bytes)) :
    ∃ name : ChatName, Topic.decompress bytes = .chat name ∧ name.asBytes = unfilled bytes := by
  have hsize : (String.fromUTF8 ⟨(unfilled bytes).toArray⟩ h).utf8ByteSize ≤ chatNameCap :=
    length_unfilled_le bytes
  refine ⟨⟨String.fromUTF8 ⟨(unfilled bytes).toArray⟩ h, hsize⟩, ?_, rfl⟩
  have hread : String.fromUTF8? ⟨(unfilled bytes).toArray⟩ =
      some (String.fromUTF8 ⟨(unfilled bytes).toArray⟩ h) := dif_pos h
  rw [decompress_eq, hread]
  exact dif_pos hsize

/-- All others are taken for an identity. -/
theorem decompress_of_not_utf8 {bytes : ByteArr 32} (h : ¬ IsUtf8 (unfilled bytes)) :
    Topic.decompress bytes = .profile bytes := by
  have hread : String.fromUTF8? ⟨(unfilled bytes).toArray⟩ = none := dif_neg h
  rw [decompress_eq, hread]

/-- What was cut off is what fills the bytes up. -/
theorem unfilled_append (bytes : ByteArr 32) :
    unfilled bytes ++ List.replicate (32 - (unfilled bytes).length) 0xff = bytes.toList := by
  have hsplit := List.takeWhile_append_dropWhile (p := fun b : UInt8 => b == 0xff)
    (l := bytes.toList.reverse)
  generalize hfill : (bytes.toList.reverse.takeWhile fun b => b == 0xff) = fill at hsplit
  generalize (bytes.toList.reverse.dropWhile fun b => b == 0xff) = rest at hsplit
  have hrev : bytes.toList = rest.reverse ++ fill.reverse := by
    rw [← List.reverse_append, hsplit, List.reverse_reverse]
  have hall : fill.reverse = List.replicate fill.length 0xff := by
    rw [List.eq_replicate_iff]
    refine ⟨List.length_reverse, ?_⟩
    intro b hb
    rw [List.mem_reverse, ← hfill] at hb
    have hff := List.mem_takeWhile_imp (p := fun b : UInt8 => b == 0xff) hb
    exact beq_iff_eq.mp hff
  have hlen : rest.length + fill.length = 32 := by
    have h := bytes.length_eq
    rw [hrev, List.length_append, List.length_reverse, List.length_reverse] at h
    exact h
  have hunfilled : unfilled bytes = rest.reverse := by
    unfold unfilled
    rw [hfill, hrev]
    exact List.take_left' (by rw [List.length_reverse]; omega)
  rw [hunfilled, hrev, hall, List.length_reverse]
  congr 2
  omega

theorem compress_profile (id : ByteArr 32) : compress (.profile id) = id := by
  apply Fixed.ext_toList
  show (id.toList ++ List.replicate 32 0xff).take 32 = id.toList
  rw [List.take_append_of_le_length (Nat.le_of_eq id.length_eq.symm)]
  exact List.take_of_length_le (Nat.le_of_eq id.length_eq)

/-- A name survives. -/
theorem decompress_compress_chat (name : ChatName) :
    Topic.decompress (compress (.chat name)) = .chat name := by
  have hutf8 : IsUtf8 (unfilled (compress (.chat name))) := by
    rw [unfilled_compress]
    exact name.str.isValidUTF8
  obtain ⟨name', hread, hbytes⟩ := decompress_of_utf8 hutf8
  rw [unfilled_compress] at hbytes
  have harray : name'.str.toByteArray = name.str.toByteArray := by
    apply ByteArray.ext
    exact Array.toList_inj.mp hbytes
  have hname : name' = name := by
    cases name'
    cases name
    congr 1
    exact String.toByteArray_inj.mp harray
  rw [hread, hname]

/-! ## All topics -/

/-- A profile is read as itself when its identity is no name. -/
theorem decompress_compress_iff (t : Topic) :
    Topic.decompress (compress t) = t ↔ Recognisable t := by
  cases t with
  | chat name => exact ⟨fun _ => trivial, fun _ => decompress_compress_chat name⟩
  | profile id =>
      rw [compress_profile]
      constructor
      · intro h hutf8
        obtain ⟨name, hread, -⟩ := decompress_of_utf8 hutf8
        rw [hread] at h
        cases h
      · exact decompress_of_not_utf8

/-- Otherwise there is a chat with the same bytes. -/
theorem taken_for_chat {t : Topic} (h : ¬ Recognisable t) :
    ∃ name : ChatName, Topic.decompress (compress t) = .chat name ∧
      compress (.chat name) = compress t := by
  cases t with
  | chat name => exact absurd trivial h
  | profile id =>
      rw [compress_profile]
      obtain ⟨name, hread, hbytes⟩ := decompress_of_utf8 (Classical.not_not.mp h)
      refine ⟨name, hread, ?_⟩
      apply Fixed.ext_toList
      rw [compress_chat, hbytes]
      exact unfilled_append id

/-- **Which topics survive the wire**, and what becomes of the others: they are read as the
chat that shares their bytes. Two that survive differ in their bytes. -/
theorem topic_survives_iff (t : Topic) :
    (Topic.decompress (compress t) = t ↔ Recognisable t) ∧
      (¬ Recognisable t → ∃ name : ChatName, Topic.decompress (compress t) = .chat name ∧
        compress (.chat name) = compress t) ∧
      ∀ u, Recognisable t → Recognisable u → compress t = compress u → t = u := by
  refine ⟨decompress_compress_iff t, taken_for_chat, ?_⟩
  intro u ht hu hbytes
  calc t = Topic.decompress (compress t) := ((decompress_compress_iff t).mpr ht).symm
    _ = Topic.decompress (compress u) := by rw [hbytes]
    _ = u := (decompress_compress_iff u).mpr hu

/-- An identity of 32 letters `a` is read as the chat of that name. -/
theorem letters_taken_for_chat :
    ∃ (id : ByteArr 32) (name : ChatName),
      Topic.decompress (compress (.profile id)) = .chat name ∧
        Topic.decompress (compress (.profile id)) ≠ .profile id ∧
        compress (.profile id) = compress (.chat name) := by
  have hutf8 : IsUtf8 (unfilled ⟨List.replicate 32 97, by decide⟩) := by
    show ByteArray.IsValidUTF8 _
    rw [← ByteArray.validateUTF8_eq_true_iff]
    decide
  obtain ⟨name, hread, hbytes⟩ := taken_for_chat (t := .profile ⟨List.replicate 32 97, by decide⟩)
    (fun h => h hutf8)
  refine ⟨⟨List.replicate 32 97, by decide⟩, name, hread, ?_, hbytes.symm⟩
  rw [hread]
  intro h
  cases h

end OnionNetwork.Client
