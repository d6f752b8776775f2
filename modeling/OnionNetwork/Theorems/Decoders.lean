import OnionNetwork.Codec.Base128
import OnionNetwork.Codec.DecodeExact

/-!
# Integers and bounded bodies on the wire

`readsExactly_iff`: what `base128_decode` returns is the number that its bytes stand
for, unless a tenth byte carries more than the one bit that is left of a `u64`; these
bits are shifted out, and the bytes are accepted as another number.

`integer_round_trip_iff`: all integers go through a `u64`, so exactly the `u128` above
it are not read back.

What `ArrDec` encodes is read back by `FromStream`, and by `Decode` never: it wants a length in
front that `Encode` does not write, and leaves the bytes behind it in the input. `Decode` also
panics, on a length that the input covers and the array does not (`arrDec_disagrees`).
-/

namespace OnionNetwork.Codec

open Lib Parser

/-! ### The decoder -/

/-- What is accepted is the number that the bytes read stand for, which is a `u64`; where
nothing is accepted the input is left as it was. -/
structure ReadsExactly (b : Bytes) : Prop where
  accepted : ∀ v rest, base128DecodeSlice b = (some v, rest) →
    ∃ k, IsNumber b k ∧ rest = b.drop k ∧ v = groupsValue b k ∧ groupsValue b k ≤ 2 ^ 64 - 1
  rejected : ∀ rest, base128DecodeSlice b = (none, rest) → rest = b

/-- Nine bytes that want another one, and a tenth that is the last one and more than the
bit that fits. -/
def Overlong (b : Bytes) : Prop :=
  10 ≤ b.length ∧ (∀ i < 9, 128 ≤ byteAt b i) ∧ 2 ≤ byteAt b 9 ∧ byteAt b 9 < 128

instance (b : Bytes) : Decidable (Overlong b) :=
  inferInstanceAs (Decidable (_ ∧ _))

theorem Overlong.isNumber {b : Bytes} (h : Overlong b) : IsNumber b 10 :=
  ⟨by decide, h.1, h.2.1, h.2.2.2⟩

/-- Without such a byte no bit is lost. -/
theorem kept_value {b : Bytes} {k : Nat} (hk : IsNumber b k) (hk10 : k ≤ 10)
    (hover : ¬ Overlong b) :
    groupsValue b (k - 1) + keptGroup b (k - 1) * 128 ^ (k - 1) = groupsValue b k ∧
      groupsValue b k ≤ 2 ^ 64 - 1 := by
  have hpos := hk.nonempty
  have hends := hk.ends
  have hsplit : groupsValue b k =
      groupsValue b (k - 1) + byteAt b (k - 1) % 128 * 128 ^ (k - 1) := by
    rw [← groupsValue_succ, Nat.sub_add_cancel hpos]
  rcases Nat.lt_or_ge k 10 with hlt | hge
  · refine ⟨?_, ?_⟩
    · rw [keptGroup_of_lt (by omega), hsplit]
    · have hvalue := groupsValue_lt b k
      have hpow : 128 ^ k ≤ 128 ^ 9 := Nat.pow_le_pow_right (by decide) (by omega)
      omega
  · obtain rfl : k = 10 := by omega
    have hsmall : byteAt b 9 < 2 := by
      by_contra hbig
      exact hover ⟨hk.within, hk.continued, not_lt.mp hbig, hends⟩
    have hvalue := groupsValue_lt b 9
    have hkept : keptGroup b 9 = byteAt b 9 % 128 := by
      rw [keptGroup, if_pos rfl, Nat.mod_eq_of_lt hsmall, Nat.mod_eq_of_lt hends]
    refine ⟨by rw [hsplit, hkept], ?_⟩
    rw [hsplit]
    show groupsValue b 9 + byteAt b 9 % 128 * 128 ^ 9 ≤ _
    omega

theorem readsExactly_of_not_overlong {b : Bytes} (hover : ¬ Overlong b) : ReadsExactly b := by
  rcases base128DecodeSlice_cases b with ⟨k, hk, hk10, hrun⟩ | ⟨-, hrun⟩
  · obtain ⟨hvalue, hbound⟩ := kept_value hk hk10 hover
    constructor
    · intro v rest hread
      rw [hrun, hvalue] at hread
      cases hread
      exact ⟨k, hk, rfl, rfl, hbound⟩
    · intro rest hread
      rw [hrun] at hread
      cases hread
  · constructor
    · intro v rest hread
      rw [hrun] at hread
      cases hread
    · intro rest hread
      rw [hrun] at hread
      cases hread
      rfl

/-- An overlong number is accepted as what is left of it. -/
theorem not_readsExactly_of_overlong {b : Bytes} (hover : Overlong b) : ¬ ReadsExactly b := by
  intro hexact
  have hten := hover.isNumber
  rcases base128DecodeSlice_cases b with ⟨k, hk, -, hrun⟩ | ⟨hnone, -⟩
  · obtain ⟨l, hl, -, -, hbound⟩ := hexact.accepted _ _ hrun
    obtain rfl := hl.unique hten
    have hlast : groupsValue b 10 = groupsValue b 9 + byteAt b 9 % 128 * 128 ^ 9 :=
      groupsValue_succ b 9
    have hbig := hover.2.2.1
    rw [hlast, Nat.mod_eq_of_lt hover.2.2.2] at hbound
    omega
  · exact hnone 10 (Nat.le_refl 10) hten

/-- **Exactly the numbers that are not overlong** are read as what they stand for. -/
theorem readsExactly_iff (b : Bytes) : ReadsExactly b ↔ ¬ Overlong b := by
  constructor
  · exact fun hexact hover => not_readsExactly_of_overlong hover hexact
  · exact readsExactly_of_not_overlong

/-- The number `2 ^ 64`, which is accepted as 0. -/
def tooLarge : Bytes := List.replicate 9 0x80 ++ [2]

example : base128DecodeSlice tooLarge = (some 0, []) := by decide

theorem tooLarge_accepted : ¬ ReadsExactly tooLarge :=
  not_readsExactly_of_overlong (by decide)

/-! ### The integers -/

/-- The types of `impl_int`. -/
inductive IntType
  | u16
  | u32
  | u64
  | u128
  | usize
  deriving DecidableEq

/-- The bits of a type, with so many in a `usize`. -/
def IntType.width (pointerWidth : Nat) : IntType → Nat
  | u16 => 16
  | u32 => 32
  | u64 => 64
  | u128 => 128
  | usize => pointerWidth

/-- A value is read back, whatever is behind it, and as a type that it does not fit it is
not read. -/
structure RoundTrips (pointerWidth : Nat) (t : IntType) (v : BitVec (t.width pointerWidth)) :
    Prop where
  back : ∀ suffix, ((uint (t.width pointerWidth)).decode
    ((uint (t.width pointerWidth)).encode v ++ suffix)).result = .ok (v, suffix)
  misfit : ∀ target : IntType, 2 ^ target.width pointerWidth ≤ v.toNat → ∀ suffix,
    ((uint (target.width pointerWidth)).decode
      ((uint (t.width pointerWidth)).encode v ++ suffix)).result = .error .reject

/-- A `u64` on the wire, read as a type of so many bits. -/
theorem result_uint {n : Nat} (hn : n < 2 ^ 64) (width : Nat) (suffix : Bytes) :
    ((uint width).decode (base128Encode n ++ suffix)).result =
      if n < 2 ^ width then .ok (BitVec.ofNat width n, suffix) else .error .reject := by
  have hread := result_base128Decode hn suffix
  unfold uint
  rw [result_andThen_ok hread]
  split
  · rfl
  · rfl

/-- The encoding of a value is that of its last 64 bits. -/
theorem roundTrips_of_lt {pointerWidth : Nat} {t : IntType} {v : BitVec (t.width pointerWidth)}
    (h : v.toNat < 2 ^ 64) : RoundTrips pointerWidth t v := by
  have hencode : (uint (t.width pointerWidth)).encode v = base128Encode v.toNat :=
    congrArg base128Encode (Nat.mod_eq_of_lt h)
  constructor
  · intro suffix
    rw [hencode, result_uint h, if_pos v.isLt, BitVec.ofNat_toNat, BitVec.setWidth_eq]
  · intro target hmisfit suffix
    rw [hencode, result_uint h, if_neg (not_lt.mpr hmisfit)]

theorem not_roundTrips_of_ge {pointerWidth : Nat} {t : IntType}
    {v : BitVec (t.width pointerWidth)} (h : 2 ^ 64 ≤ v.toNat) :
    ¬ RoundTrips pointerWidth t v := by
  intro htrip
  have hback := htrip.back []
  have hlow : v.toNat % 2 ^ 64 < 2 ^ 64 := Nat.mod_lt _ (Nat.two_pow_pos 64)
  have hfits : v.toNat % 2 ^ 64 < 2 ^ t.width pointerWidth :=
    lt_of_le_of_lt (Nat.mod_le _ _) v.isLt
  have hencode : (uint (t.width pointerWidth)).encode v = base128Encode (v.toNat % 2 ^ 64) := rfl
  rw [hencode, result_uint hlow, if_pos hfits] at hback
  have hvalue := congrArg
    (fun r : Except (Stop DecodeFault) (BitVec (t.width pointerWidth) × Bytes) =>
    match r with
    | .ok (w, _) => w.toNat
    | .error _ => 0) hback
  simp only [BitVec.toNat_ofNat, Nat.mod_eq_of_lt hfits] at hvalue
  omega

/-- **Exactly the values of a `u64` go through**, of every type and behind every pointer
width: the encoder casts to a `u64`, and only a `u128` can be above. -/
theorem integer_round_trip_iff (pointerWidth : Nat) (t : IntType)
    (v : BitVec (t.width pointerWidth)) :
    RoundTrips pointerWidth t v ↔ v.toNat < 2 ^ 64 := by
  constructor
  · intro htrip
    by_contra hge
    exact not_roundTrips_of_ge (not_lt.mp hge) htrip
  · exact roundTrips_of_lt

/-- `2 ^ 64 + 5` as a `u128` is read back as 5. -/
theorem u128_truncated : ¬ RoundTrips 64 .u128 (BitVec.ofNat 128 (2 ^ 64 + 5)) :=
  not_roundTrips_of_ge (by decide)

end OnionNetwork.Codec

/-! ## The readers of a bounded body -/

namespace OnionNetwork.Codec

open Lib Parser Chat

namespace ArrDec

variable {cap : Nat}

/-- `decode_exact` reads back what was encoded. -/
def DecodesBack (debugAssertions : Bool) (x : ArrDec cap) : Prop :=
  ∃ y, decodeExact debugAssertions (codec cap) x.encode = some (some y) ∧ y.deref = x.deref

/-- `FromStream` reads back what was encoded, with its length. -/
def StreamsBack (x : ArrDec cap) : Prop :=
  ∃ y, fromStream cap (some x.encode) x.encode.length = .ok (y, []) ∧ y.deref = x.deref

/-- `Decode` returns. -/
def Returns (cap : Nat) (input : Bytes) : Prop :=
  ∀ f, ((codec cap).decode input).result ≠ .error (.fault f)

/-- A length that the input covers and the array does not. -/
def TooLong (cap : Nat) (input : Bytes) : Prop :=
  ∃ len rest, ((uint 32).decode input).result = .ok (len, rest) ∧ len.toNat ≤ rest.length ∧
    cap < len.toNat

/-- Encoder and decoders agree, and the decoder returns. -/
structure Agrees (debugAssertions : Bool) (x : ArrDec cap) (input : Bytes) : Prop where
  decoded : x.DecodesBack debugAssertions
  streamed : x.StreamsBack
  returns : Returns cap input

/-- **Never read back**: what `Decode` returns is a part of what is left behind a length. -/
theorem not_decodesBack (debugAssertions : Bool) (x : ArrDec cap) :
    ¬ x.DecodesBack debugAssertions := by
  rintro ⟨y, hexact, hderef⟩
  unfold decodeExact at hexact
  cases hread : ((uint 32).decode x.encode).result with
  | error stop =>
      have hdecode : ((codec cap).decode x.encode).result = .error stop :=
        result_andThen_error hread
      rw [hdecode] at hexact
      cases stop <;> cases hexact
  | ok r =>
      obtain ⟨len, rest⟩ := r
      have hshort := length_lt_of_uint hread
      by_cases hinput : rest.length < len.toNat
      · have hdecode : ((codec cap).decode x.encode).result = _ := decode_reject hread hinput
        rw [hdecode] at hexact
        cases hexact
      · by_cases hcap : cap < len.toNat
        · have hdecode : ((codec cap).decode x.encode).result = _ :=
            decode_fault hread (not_lt.mp hinput) hcap
          rw [hdecode] at hexact
          cases hexact
        · obtain ⟨z, hdecode, hz⟩ := decode_ok hread (not_lt.mp hinput) (not_lt.mp hcap)
          have hdecode' : ((codec cap).decode x.encode).result = _ := hdecode
          rw [hdecode'] at hexact
          simp only at hexact
          split at hexact
          · next hrest =>
              -- nothing is left behind the length, so the value is empty
              cases hexact
              rw [hrest, List.take_nil] at hz
              have hempty : x.encode = [] := hderef.symm.trans hz
              rw [hempty] at hshort
              exact absurd hshort (Nat.not_lt_zero _)
          · split at hexact <;> cases hexact

theorem streamsBack (x : ArrDec cap) : x.StreamsBack := by
  have hlength := x.length_encode
  have hwithin : x.encode.length ≤ cap := hlength.le.trans x.within
  have htake : x.encode.take x.encode.length = x.encode := List.take_length
  have hlen : (BitVec.ofNat 32 x.encode.length).toNat = x.encode.length := by
    rw [hlength, BitVec.ofNat_toNat, BitVec.setWidth_eq]
  unfold StreamsBack fromStream
  rw [dif_pos hwithin]
  simp only [lt_irrefl, if_false]
  refine ⟨_, congrArg (fun rest => Except.ok (_, rest)) List.drop_length, ?_⟩
  refine Eq.trans (congrArg (fun n => List.take n _) hlen) ?_
  have hfits : (x.encode.take x.encode.length).length ≤ cap := by rwa [htake]
  exact (take_filled hfits (congrArg List.length htake)).trans htake

/-- `Decode` panics exactly on a length that is too long for the array. -/
theorem returns_iff (cap : Nat) (input : Bytes) : Returns cap input ↔ ¬ TooLong cap input := by
  constructor
  · rintro hreturns ⟨len, rest, hread, hinput, hcap⟩
    exact hreturns .range (decode_fault hread hinput hcap)
  · intro hnot f hfault
    cases hread : ((uint 32).decode input).result with
    | error stop =>
        have hdecode : ((codec cap).decode input).result = .error stop :=
          result_andThen_error hread
        rw [hdecode] at hfault
        exact noFault_uint 32 input f
          (hread.trans (congrArg Except.error (Except.error.inj hfault)))
    | ok r =>
        obtain ⟨len, rest⟩ := r
        by_cases hinput : rest.length < len.toNat
        · have hdecode : ((codec cap).decode input).result = _ := decode_reject hread hinput
          rw [hdecode] at hfault
          cases hfault
        · have hcap : len.toNat ≤ cap := by
            by_contra hcap
            exact hnot ⟨len, rest, hread, not_lt.mp hinput, not_le.mp hcap⟩
          obtain ⟨y, hdecode, -⟩ := decode_ok hread (not_lt.mp hinput) hcap
          have hdecode' : ((codec cap).decode input).result = _ := hdecode
          rw [hdecode'] at hfault
          cases hfault

/-- **The encoder and the decoders never agree**, of any capacity: no value is read back by
`decode_exact`. `FromStream` reads every value back, and `Decode` panics exactly on the inputs
that are too long for the array. -/
theorem arrDec_disagrees (debugAssertions : Bool) (x : ArrDec cap) (input : Bytes) :
    ¬ x.Agrees debugAssertions input ∧ x.StreamsBack ∧
      (Returns cap input ↔ ¬ TooLong cap input) :=
  ⟨fun h => not_decodesBack debugAssertions x h.decoded, streamsBack x, returns_iff cap input⟩

/-- Two bytes of four. -/
def twoBytes : ArrDec 4 := ⟨2, ⟨[1, 2, 0, 0], rfl⟩, by decide⟩

/-- A length of five and as many bytes. -/
def fiveBytes : Bytes := [5, 0, 0, 0, 0, 0]

/-- The two bytes are not read back, and the five are a panic. -/
theorem twoBytes_lost :
    (decodeExact false (codec 4) twoBytes.encode = some none ∧
      ((codec 4).decode fiveBytes).result = .error (.fault .range)) ∧
      ¬ twoBytes.Agrees false fiveBytes := by
  have hlen : ((uint 32).decode fiveBytes).result = .ok (5, [0, 0, 0, 0, 0]) := by rfl
  have hfault : ((codec 4).decode fiveBytes).result = .error (.fault .range) :=
    decode_fault hlen (by decide) (by decide)
  exact ⟨⟨by rfl, hfault⟩, fun h => h.returns .range hfault⟩

end ArrDec

end OnionNetwork.Codec
