import Mathlib.Algebra.BigOperators.Group.Finset.Basic
import Mathlib.Data.List.GetD
import OnionNetwork.Codec.Laws

/-!
# Base 128 numbers, byte by byte

`base128_decode` on the variable that holds the rest of the input, which says what it
leaves of it where it returns `None`. `base128DecodeSlice_cases` is what it does on any
input: nine groups are put on top of each other exactly; of a tenth one only the last
bit fits into a `u64`, and the others are shifted out of it.
-/

namespace OnionNetwork

open Lib Parser Finset

/-! ### The loop -/

/-- The loop of `base128_decode` over the bytes that it looks at. -/
def base128DecodeLoop (buffer : Bytes) :
    (bytes : Bytes) → (advanced shift value : Nat) → Option Nat × Bytes
  | [], _, _, _ => (none, buffer)
  | byte :: bytes, advanced, shift, value =>
      let value := value ||| ((byte &&& 0x7f).toNat <<< shift) % 2 ^ 64
      let shift := shift + 7
      if byte &&& 0x80 = 0 then (some value, buffer.drop (advanced + 1))
      else base128DecodeLoop buffer bytes (advanced + 1) shift value

/-- `base128_decode`: the number, and the input behind it. -/
def base128DecodeSlice (buffer : Bytes) : Option Nat × Bytes :=
  base128DecodeLoop buffer (buffer.take 10) 0 0 0

/-- What a decoder leaves, as the result of a parser. -/
def toResult (r : Option Nat × Bytes) : Except (Stop DecodeFault) (Nat × Bytes) :=
  match r with
  | (some value, rest) => .ok (value, rest)
  | (none, _) => .error .reject

theorem result_base128DecodeFrom_eq {buffer bytes : Bytes} {advanced shift value : Nat}
    (hlen : advanced + bytes.length ≤ buffer.length) (hshift : shift + 7 * bytes.length ≤ 70) :
    (base128DecodeFrom bytes advanced shift value buffer).result =
      toResult (base128DecodeLoop buffer bytes advanced shift value) := by
  induction bytes generalizing advanced shift value with
  | nil => rfl
  | cons byte bytes ih =>
      rw [List.length_cons] at hlen hshift
      have hlt : shift < 64 := by omega
      rw [base128DecodeFrom, decide_eq_false (not_le.mpr hlt), result_andThen_ok result_noteOr,
        base128DecodeLoop]
      show ((ite _ (map _ _) _ : Decoder Nat) buffer).result = toResult (ite _ _ _)
      split
      · exact result_map_ok (result_splitAt (by omega))
      · exact ih (by omega) (by omega)

/-- The decoder of the codecs is this one. -/
theorem result_base128Decode_eq (buffer : Bytes) :
    (base128Decode buffer).result = toResult (base128DecodeSlice buffer) := by
  have hle := List.length_take_le 10 buffer
  have hle' := List.length_take_le' 10 buffer
  exact result_base128DecodeFrom_eq (by omega) (by omega)

/-! ### What it reads -/

/-- The byte at a place. -/
def byteAt (b : Bytes) (i : Nat) : Nat := (b.getD i 0).toNat

/-- The number that the first `k` bytes stand for. -/
def groupsValue (b : Bytes) (k : Nat) : Nat := ∑ i ∈ range k, byteAt b i % 128 * 128 ^ i

/-- The first `k` bytes are a number: the high bit is set in all of them but the last. -/
structure IsNumber (b : Bytes) (k : Nat) : Prop where
  nonempty : 0 < k
  within : k ≤ b.length
  continued : ∀ i < k - 1, 128 ≤ byteAt b i
  ends : byteAt b (k - 1) < 128

theorem groupsValue_succ (b : Bytes) (k : Nat) :
    groupsValue b (k + 1) = groupsValue b k + byteAt b k % 128 * 128 ^ k := sum_range_succ _ _

theorem groupsValue_lt (b : Bytes) (k : Nat) : groupsValue b k < 128 ^ k := by
  induction k with
  | zero => exact Nat.one_pos
  | succ k ih =>
      have hgroup : byteAt b k % 128 * 128 ^ k ≤ 127 * 128 ^ k :=
        Nat.mul_le_mul_right _ (Nat.le_of_lt_succ (Nat.mod_lt _ (by decide)))
      rw [groupsValue_succ, Nat.pow_succ]
      omega

/-- A number ends at one place. -/
theorem IsNumber.unique {b : Bytes} {k l : Nat} (hk : IsNumber b k) (hl : IsNumber b l) :
    k = l := by
  have hpos := hk.nonempty
  have hpos' := hl.nonempty
  rcases Nat.lt_trichotomy k l with hlt | heq | hlt
  · have hmore := hl.continued (k - 1) (by omega)
    have hends := hk.ends
    omega
  · exact heq
  · have hmore := hk.continued (l - 1) (by omega)
    have hends := hl.ends
    omega

theorem byteAt_lt (b : Bytes) (i : Nat) : byteAt b i < 256 := (b.getD i 0).toNat_lt

/-- The last bit of the tenth group is the first one of the `u64`. -/
theorem tenth_group {value group : Nat} (hvalue : value < 2 ^ 63) :
    value ||| (group <<< 63) % 2 ^ 64 = value + group % 2 * 2 ^ 63 := by
  have hshift : (group <<< 63) % 2 ^ 64 = (group % 2) <<< 63 := by
    rw [Nat.shiftLeft_eq, Nat.shiftLeft_eq]
    omega
  rw [hshift, Nat.or_comm, ← Nat.shiftLeft_add_eq_or_of_lt hvalue, Nat.shiftLeft_eq, Nat.add_comm]

/-- What is left of the group at a place in a `u64`. -/
def keptGroup (b : Bytes) (i : Nat) : Nat :=
  if i = 9 then byteAt b i % 2 else byteAt b i % 128

theorem keptGroup_of_lt {b : Bytes} {i : Nat} (h : i < 9) : keptGroup b i = byteAt b i % 128 :=
  if_neg (by omega)

theorem or_group {b : Bytes} {i : Nat} (hi : i < 10) :
    groupsValue b i ||| ((b.getD i 0 &&& 0x7f).toNat <<< (7 * i)) % 2 ^ 64 =
      groupsValue b i + keptGroup b i * 128 ^ i := by
  have hpow : (128 : Nat) ^ i = 2 ^ (7 * i) := (pow_mul 2 7 i).symm
  have hvalue := groupsValue_lt b i
  rw [hpow] at hvalue
  have hgroup : (b.getD i 0 &&& 0x7f).toNat = byteAt b i % 128 := by
    have hbyte := and_toNat_eq_mod (byteAt b i) (byteAt_lt b i)
    rwa [byteAt, UInt8.ofNat_toNat] at hbyte
  rw [hgroup, hpow]
  rcases Nat.lt_or_ge i 9 with hlt | hge
  · rw [keptGroup_of_lt hlt]
    apply or_shiftLeft hvalue
    have hle : byteAt b i % 128 * 2 ^ (7 * i) ≤ 127 * 2 ^ (7 * i) :=
      Nat.mul_le_mul_right _ (Nat.le_of_lt_succ (Nat.mod_lt _ (by decide)))
    have hpow' : 2 ^ (7 * i) ≤ 2 ^ 56 := Nat.pow_le_pow_right (by decide) (by omega)
    omega
  · obtain rfl : i = 9 := by omega
    rw [tenth_group hvalue, keptGroup, if_pos rfl, Nat.mod_mod_of_dvd _ (by decide)]

/-- Bytes that all want another one behind them are no number. -/
theorem not_isNumber {b : Bytes} {a k : Nat} (hmore : ∀ i < a, 128 ≤ byteAt b i)
    (hk : k ≤ a ∨ b.length ≤ a) : ¬ IsNumber b k := by
  intro h
  have hpos := h.nonempty
  have hwithin := h.within
  have hcont := hmore (k - 1) (by omega)
  have hends := h.ends
  omega

/-- The loop, behind as many bytes as it has advanced. -/
theorem base128DecodeLoop_cases {buffer : Bytes} {a : Nat} (ha : a ≤ 10)
    (hmore : ∀ i < a, 128 ≤ byteAt buffer i) :
    (∃ k, IsNumber buffer k ∧ k ≤ 10 ∧
      base128DecodeLoop buffer ((buffer.take 10).drop a) a (7 * a) (groupsValue buffer a) =
        (some (groupsValue buffer (k - 1) + keptGroup buffer (k - 1) * 128 ^ (k - 1)),
          buffer.drop k)) ∨
    (∀ k ≤ 10, ¬ IsNumber buffer k) ∧
      base128DecodeLoop buffer ((buffer.take 10).drop a) a (7 * a) (groupsValue buffer a) =
        (none, buffer) := by
  -- on the bytes that the loop may still look at
  induction hn : 10 - a generalizing a with
  | zero =>
      obtain rfl : a = 10 := by omega
      right
      refine ⟨fun k hk => not_isNumber hmore (.inl hk), ?_⟩
      rw [List.drop_of_length_le (List.length_take_le 10 buffer)]
      rfl
  | succ n ih =>
      rcases Nat.lt_or_ge a buffer.length with hlt | hge
      · have htake : a < (buffer.take 10).length := by
          rw [List.length_take]
          omega
        have hbyte : buffer.getD a 0 = (buffer.take 10)[a] := by
          rw [List.getElem_take, List.getD_eq_getElem _ _ hlt]
        have hgroup := or_group (b := buffer) (by omega : a < 10)
        have hlast := and_eq_zero_iff_lt (byteAt buffer a) (byteAt_lt buffer a)
        rw [byteAt, UInt8.ofNat_toNat, ← byteAt] at hlast
        rw [hbyte] at hgroup hlast
        rw [List.drop_eq_getElem_cons htake, base128DecodeLoop]
        simp only [hgroup]
        by_cases hend : byteAt buffer a < 128
        · left
          -- a byte without the high bit is the last one of the number
          refine ⟨a + 1, ⟨Nat.succ_pos a, hlt, hmore, hend⟩, by omega, ?_⟩
          rw [if_pos (hlast.mpr hend)]
          rfl
        · -- every byte so far has the high bit
          have hmore' : ∀ i < a + 1, 128 ≤ byteAt buffer i := by
            intro i hi
            rcases Nat.lt_succ_iff_lt_or_eq.mp hi with hi | rfl
            · exact hmore i hi
            · exact not_lt.mp hend
          rw [if_neg (fun h => hend (hlast.mp h))]
          rcases Nat.lt_or_ge a 9 with ha9 | ha9
          · have hnext : groupsValue buffer a + keptGroup buffer a * 128 ^ a =
                groupsValue buffer (a + 1) := by
              rw [keptGroup_of_lt ha9, groupsValue_succ]
            rw [hnext]
            exact ih (by omega) hmore' (by omega)
          · -- the tenth byte wants an eleventh one
            have hnil : (buffer.take 10).drop (a + 1) = [] := by
              apply List.drop_of_length_le
              rw [List.length_take]
              omega
            rw [hnil]
            exact .inr ⟨fun k hk => not_isNumber hmore' (.inl (by omega)), rfl⟩
      · have hnil : (buffer.take 10).drop a = [] := by
          apply List.drop_of_length_le
          rw [List.length_take]
          omega
        rw [hnil]
        exact .inr ⟨fun k _ => not_isNumber hmore (.inr hge), rfl⟩

/-- **All runs of `base128_decode`.** A number of ten bytes at most is read, with what is
left of its last group; nothing else is, and then the input is as it was. -/
theorem base128DecodeSlice_cases (buffer : Bytes) :
    (∃ k, IsNumber buffer k ∧ k ≤ 10 ∧ base128DecodeSlice buffer =
      (some (groupsValue buffer (k - 1) + keptGroup buffer (k - 1) * 128 ^ (k - 1)),
        buffer.drop k)) ∨
    (∀ k ≤ 10, ¬ IsNumber buffer k) ∧ base128DecodeSlice buffer = (none, buffer) :=
  base128DecodeLoop_cases (Nat.zero_le 10) fun i hi => absurd hi (Nat.not_lt_zero i)

/-- A number takes at least one byte. -/
theorem length_lt_of_base128Decode {input rest : Bytes} {n : Nat}
    (h : (base128Decode input).result = .ok (n, rest)) : rest.length < input.length := by
  rw [result_base128Decode_eq] at h
  rcases base128DecodeSlice_cases input with ⟨k, hk, -, hrun⟩ | ⟨-, hrun⟩
  · rw [hrun] at h
    cases h
    have hpos := hk.nonempty
    have hwithin := hk.within
    rw [List.length_drop]
    omega
  · rw [hrun] at h
    cases h

namespace Codec

theorem length_lt_of_uint {width : Nat} {input rest : Bytes} {v : BitVec width}
    (h : ((uint width).decode input).result = .ok (v, rest)) : rest.length < input.length := by
  unfold uint at h
  cases hread : (base128Decode input).result with
  | error stop =>
      rw [result_andThen_error hread] at h
      cases h
  | ok r =>
      rw [result_andThen_ok hread] at h
      have hshort := length_lt_of_base128Decode hread
      split at h
      · cases h
        exact hshort
      · cases h

end Codec

end OnionNetwork
