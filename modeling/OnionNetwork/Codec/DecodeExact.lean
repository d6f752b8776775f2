import OnionNetwork.Codec.Laws
import OnionNetwork.Codec.Base128

/-!
# Exact decoding

`decode_exact` wants all of a buffer. Who tries one decoder after the other on it gets `None`
from the wrong ones, and a panic where a wrong one stops early in a build with debug assertions:
`Accepts` says where it is one of the two that are not `None`.

`handlers::ArrDec`: the bytes of a request body in an array. `FromStream` reads as many bytes
as the header of the request says; `Decode` reads a length first, and leaves the bytes behind
it in the input.
-/

namespace OnionNetwork.Codec

open Lib Parser

variable {α β : Type}

/-- `Decode::decode_exact`, with its `debug_assert`. -/
def decodeExact (debugAssertions : Bool) (c : Codec α) (buffer : Bytes) :
    Option (Option α) :=
  match (c.decode buffer).result with
  | .ok (value, rest) =>
      if rest = [] then some (some value) else if debugAssertions then none else some none
  | .error .reject => some none
  | .error (.fault _) => none

/-! ### Codecs of one length -/

/-- Any `n` bytes are read as a value, and fewer of them are rejected. -/
def Takes (c : Codec α) (n : Nat) : Prop :=
  ∀ buffer : Bytes, if n ≤ buffer.length then ∃ v, (c.decode buffer).result = .ok (v, buffer.drop n)
    else (c.decode buffer).result = .error .reject

variable {c : Codec α} {d : Codec β} {n m : Nat}

theorem takes_rawBytes (n : Nat) : Takes (rawBytes n) n := by
  intro buffer
  have hmany := result_decodeMany_u8 n buffer
  split
  · next h =>
      rw [dif_pos h] at hmany
      exact ⟨_, hmany⟩
  · next h =>
      rw [dif_neg h] at hmany
      exact hmany

theorem Takes.reads (h : Takes c n) {buffer : Bytes} (hlen : n ≤ buffer.length) :
    ∃ v, (c.decode buffer).result = .ok (v, buffer.drop n) := by
  have hbuffer := h buffer
  rwa [if_pos hlen] at hbuffer

theorem Takes.rejects (h : Takes c n) {buffer : Bytes} (hlen : ¬ n ≤ buffer.length) :
    (c.decode buffer).result = .error .reject := by
  have hbuffer := h buffer
  rwa [if_neg hlen] at hbuffer

theorem Takes.iso (h : Takes c n) (e : α ≃ β) : Takes (Codec.iso c e) n := by
  intro buffer
  split
  · next hlen =>
      obtain ⟨v, hread⟩ := h.reads hlen
      exact ⟨e v, result_map_ok hread⟩
  · next hlen => exact result_map_error (h.rejects hlen)

theorem Takes.pair (hc : Takes c n) (hd : Takes d m) : Takes (Codec.pair c d) (n + m) := by
  intro buffer
  by_cases hn : n ≤ buffer.length
  · obtain ⟨v, hread⟩ := hc.reads hn
    have hdrop : (buffer.drop n).length = buffer.length - n := List.length_drop
    split
    · next hlen =>
        have henough : m ≤ (buffer.drop n).length := by omega
        obtain ⟨w, hread'⟩ := hd.reads henough
        refine ⟨(v, w), ?_⟩
        unfold Codec.pair
        rw [result_andThen_ok hread, result_map_ok hread', List.drop_drop]
    · next hlen =>
        have hshort : ¬ m ≤ (buffer.drop n).length := by omega
        have hreject := hd.rejects hshort
        unfold Codec.pair
        rw [result_andThen_ok hread, result_map_error hreject]
  · rw [if_neg (by omega)]
    exact result_andThen_error (hc.rejects hn)

theorem noFault_of_takes (h : Takes c n) (input : Bytes) :
    NoFault (c.decode input) := by
  intro f hfault
  by_cases hlen : n ≤ input.length
  · obtain ⟨v, hread⟩ := h.reads hlen
    rw [hread] at hfault
    cases hfault
  · rw [h.rejects hlen] at hfault
    cases hfault

/-! ### Accepted buffers -/

variable {debugAssertions : Bool} {buffer : Bytes}

/-- The decoder accepts the buffer: all of it, or, where a rest is a panic, a part of it. -/
def Accepts (debugAssertions : Bool) (c : Codec α) (buffer : Bytes) : Prop :=
  ∃ v rest, (c.decode buffer).result = .ok (v, rest) ∧ (rest = [] ∨ debugAssertions = true)

theorem decodeExact_encode (h : c.Exact) (v : α) :
    decodeExact debugAssertions c (c.encode v) = some (some v) := by
  have hread := h v []
  rw [List.append_nil] at hread
  unfold decodeExact
  rw [hread]
  exact if_pos rfl

theorem decodeExact_of_reject (h : (c.decode buffer).result = .error .reject) :
    decodeExact debugAssertions c buffer = some none := by
  unfold decodeExact
  rw [h]

theorem accepts_iff_of_ok {v : α} {rest : Bytes} (h : (c.decode buffer).result = .ok (v, rest)) :
    Accepts debugAssertions c buffer ↔ rest = [] ∨ debugAssertions = true := by
  constructor
  · rintro ⟨v', rest', hread, hrest⟩
    rw [h] at hread
    cases hread
    exact hrest
  · exact fun hrest => ⟨v, rest, h, hrest⟩

theorem not_accepts_of_error {stop : Stop DecodeFault}
    (h : (c.decode buffer).result = .error stop) :
    ¬ Accepts debugAssertions c buffer := by
  rintro ⟨v, rest, hread, -⟩
  rw [h] at hread
  cases hread

/-- `decode_exact` is `None` where the decoder does not accept. -/
theorem decodeExact_eq_none_iff (hno : NoFault (c.decode buffer)) :
    decodeExact debugAssertions c buffer = some none ↔ ¬ Accepts debugAssertions c buffer := by
  cases h : (c.decode buffer).result with
  | error stop =>
      cases stop with
      | fault f => exact absurd h (hno f)
      | reject => exact iff_of_true (decodeExact_of_reject h) (not_accepts_of_error h)
  | ok r =>
      obtain ⟨v, rest⟩ := r
      unfold decodeExact
      rw [h, accepts_iff_of_ok h]
      by_cases hrest : rest = []
      · simp [hrest]
      · cases debugAssertions <;> simp [hrest]

/-! ### Accepted composites -/

theorem accepts_iso_iff {e : α ≃ β} :
    Accepts debugAssertions (iso c e) buffer ↔ Accepts debugAssertions c buffer := by
  cases h : (c.decode buffer).result with
  | error stop =>
      exact iff_of_false (not_accepts_of_error (result_map_error h)) (not_accepts_of_error h)
  | ok r => exact (accepts_iff_of_ok (result_map_ok h)).trans (accepts_iff_of_ok h).symm

/-- The second codec of a pair decides, behind what the first one has read. -/
theorem accepts_pair_iff_of_ok {v : α} {rest : Bytes}
    (h : (c.decode buffer).result = .ok (v, rest)) :
    Accepts debugAssertions (Codec.pair c d) buffer ↔ Accepts debugAssertions d rest := by
  have hpair : ((Codec.pair c d).decode buffer).result =
      ((d.decode.map fun w => (v, w)) rest).result := result_andThen_ok h
  cases hd : (d.decode rest).result with
  | error stop =>
      rw [result_map_error hd] at hpair
      exact iff_of_false (not_accepts_of_error hpair) (not_accepts_of_error hd)
  | ok r =>
      rw [result_map_ok hd] at hpair
      exact (accepts_iff_of_ok hpair).trans (accepts_iff_of_ok hd).symm

theorem accepts_pair_iff_of_takes {n : Nat} (hc : Takes c n) :
    Accepts debugAssertions (Codec.pair c d) buffer ↔
      n ≤ buffer.length ∧ Accepts debugAssertions d (buffer.drop n) := by
  by_cases hlen : n ≤ buffer.length
  · obtain ⟨v, hread⟩ := hc.reads hlen
    rw [accepts_pair_iff_of_ok hread, and_iff_right hlen]
  · exact iff_of_false (not_accepts_of_error (result_andThen_error (hc.rejects hlen)))
      fun h => hlen h.1

theorem accepts_arrayVec_u8_iff {cap : Nat} :
    Accepts debugAssertions (arrayVec u8 cap) buffer ↔ ∃ len left,
      (usize.decode buffer).result = .ok (len, left) ∧ len.toNat ≤ cap ∧
        len.toNat ≤ left.length ∧ (left.length = len.toNat ∨ debugAssertions = true) := by
  cases hlen : (usize.decode buffer).result with
  | error stop =>
      refine iff_of_false (not_accepts_of_error (result_andThen_error hlen)) ?_
      rintro ⟨len, left, hread, -⟩
      cases hread
  | ok r =>
      obtain ⟨len, left⟩ := r
      have hdecode : ((arrayVec u8 cap).decode buffer).result =
          ((if h : cap < len.toNat then reject
            else (decodeMany u8 len.toNat).map (pushAll (Nat.le_of_not_lt h)) : Decoder _)
              left).result := result_andThen_ok hlen
      have hmany := result_decodeMany_u8 len.toNat left
      have honly : ∀ p : BitVec 64 → Bytes → Prop,
          (∃ len' left', (Except.ok (len, left) : Except (Stop DecodeFault) _) = .ok (len', left') ∧
            p len' left') ↔ p len left := by
        intro p
        constructor
        · rintro ⟨_, _, heq, h⟩
          cases heq
          exact h
        · exact fun h => ⟨len, left, rfl, h⟩
      rw [honly]
      by_cases hcap : cap < len.toNat
      · rw [dif_pos hcap] at hdecode
        exact iff_of_false (not_accepts_of_error hdecode) fun h => absurd h.1 (not_le.mpr hcap)
      · rw [dif_neg hcap] at hdecode
        by_cases henough : len.toNat ≤ left.length
        · rw [dif_pos henough] at hmany
          rw [result_map_ok hmany] at hdecode
          rw [accepts_iff_of_ok hdecode, List.drop_eq_nil_iff, and_iff_right (not_lt.mp hcap),
            and_iff_right henough]
          exact or_congr_left ⟨fun h => h.antisymm henough, fun h => h.le⟩
        · rw [dif_neg henough] at hmany
          rw [result_map_error hmany] at hdecode
          exact iff_of_false (not_accepts_of_error hdecode) fun h => henough h.2.1

end OnionNetwork.Codec

/-! ## Bodies of bounded size -/

namespace OnionNetwork.Codec

open Lib Parser Chat

/-- `ArrDec`: the decoders keep the length within the array. -/
structure ArrDec (cap : Nat) where
  len : BitVec 32
  buffer : Fixed UInt8 cap
  within : len.toNat ≤ cap

namespace ArrDec

variable {cap : Nat}

/-- `Deref`. -/
def deref (x : ArrDec cap) : Bytes := x.buffer.toList.take x.len.toNat

/-- `Encode`. -/
def encode (x : ArrDec cap) : Bytes := x.buffer.toList.take x.len.toNat

/-- The bytes in front of an array of zeros. -/
def filled (cap : Nat) (bytes : Bytes) (h : bytes.length ≤ cap) : Fixed UInt8 cap where
  toList := bytes ++ List.replicate (cap - bytes.length) 0
  length_eq := by
    rw [List.length_append, List.length_replicate]
    omega

/-- `Decode`: indexing the array with the length is a panic if it is too large. -/
def decode (cap : Nat) : Decoder (ArrDec cap) :=
  (uint 32).decode.andThen fun len buffer =>
    if hlen : buffer.length < len.toNat then reject buffer
    else
      (noteOr (fun _ => .slice len.toNat cap) (cap < len.toNat) .range).andThen (fun _ rest =>
        if h : len.toNat ≤ cap then
          accept
            { len
              buffer := filled cap (buffer.take len.toNat)
                (by rw [List.length_take]; exact le_trans (Nat.min_le_left _ _) h)
              within := h } rest
        else reject rest) buffer

/-- `FromStream`, on the bytes that the stream has up to its end. -/
def fromStream (cap : Nat) (stream : Option Bytes) (len : Nat) :
    Except ErrorKind (ArrDec cap × Bytes) :=
  if h : len ≤ cap then
    match stream with
    | none => .error .invalidInput
    | some bytes =>
        if bytes.length < len then .error .unexpectedEof
        else
          .ok (
            { len := BitVec.ofNat 32 len
              buffer := filled cap (bytes.take len)
                (by rw [List.length_take]; exact le_trans (Nat.min_le_left _ _) h)
              within := by
                rw [BitVec.toNat_ofNat]
                exact le_trans (Nat.mod_le _ _) h }, bytes.drop len)
  else .error .outOfMemory

/-- `Encode` and `Decode`. -/
def codec (cap : Nat) : Codec (ArrDec cap) where
  encode := encode
  decode := decode cap

theorem length_encode (x : ArrDec cap) : x.encode.length = x.len.toNat := by
  rw [encode, List.length_take, x.buffer.length_eq]
  exact Nat.min_eq_left x.within

/-! ### The decoder -/

variable {input rest : Bytes} {len : BitVec 32}

theorem take_filled {bytes : Bytes} (h : bytes.length ≤ cap) {n : Nat} (hn : bytes.length = n) :
    (filled cap bytes h).toList.take n = bytes := by
  rw [← hn]
  exact List.take_left

/-- A length that is in the input and in the array: the value holds the bytes behind the
length, and they are still to be read. -/
theorem decode_ok (hread : ((uint 32).decode input).result = .ok (len, rest))
    (hinput : len.toNat ≤ rest.length) (hcap : len.toNat ≤ cap) :
    ∃ y, (decode cap input).result = .ok (y, rest) ∧ y.deref = rest.take len.toNat := by
  have hlength : (rest.take len.toNat).length = len.toNat := List.length_take_of_le hinput
  have hfits : (rest.take len.toNat).length ≤ cap := hlength.le.trans hcap
  refine ⟨⟨len, filled cap (rest.take len.toNat) hfits, hcap⟩, ?_, ?_⟩
  · unfold decode
    rw [result_andThen_ok hread, dif_neg (not_lt.mpr hinput),
      decide_eq_false (not_lt.mpr hcap), result_andThen_ok result_noteOr, dif_pos hcap]
    rfl
  · exact take_filled hfits hlength

theorem decode_reject (hread : ((uint 32).decode input).result = .ok (len, rest))
    (hinput : rest.length < len.toNat) : (decode cap input).result = .error .reject := by
  unfold decode
  rw [result_andThen_ok hread, dif_pos hinput]
  rfl

/-- A length that is in the input and not in the array is a panic. -/
theorem decode_fault (hread : ((uint 32).decode input).result = .ok (len, rest))
    (hinput : len.toNat ≤ rest.length) (hcap : cap < len.toNat) :
    (decode cap input).result = .error (.fault .range) := by
  unfold decode
  rw [result_andThen_ok hread, dif_neg (not_lt.mpr hinput), decide_eq_true hcap]
  exact result_andThen_error rfl

end ArrDec

end OnionNetwork.Codec
