import OnionNetwork.Crypto.Primitives

/-!
# The encoders the signed payloads and the chat log use

`codec::Encode` into a buffer that always accepts (a `Vec`, the hasher of
`Proof::pack_payload`): encoding is a total function to byte strings.

Integers are base 128, least significant group first, with the high bit set on
every byte but the last. The last byte is recognisable, so an encoded integer
is never a proper prefix of another one (`base128Encode_append_inj`): what
follows it in a payload starts at a place the payload itself determines.
-/

namespace OnionNetwork

/-- `base128_encode`. The counters of the source are `u64`; they are only
compared, copied and encoded, so the model keeps them as natural numbers. -/
def base128Encode (value : Nat) : Bytes :=
  if value < 128 then [UInt8.ofNat value]
  else UInt8.ofNat (value % 128 + 128) :: base128Encode (value / 128)

theorem base128Encode_of_lt {value : Nat} (h : value < 128) :
    base128Encode value = [UInt8.ofNat value] := by
  rw [base128Encode, if_pos h]

theorem base128Encode_of_ge {value : Nat} (h : ¬ value < 128) :
    base128Encode value = UInt8.ofNat (value % 128 + 128) :: base128Encode (value / 128) := by
  rw [base128Encode, if_neg h]

private theorem ofNat_inj_of_lt {a b : Nat} (ha : a < 256) (hb : b < 256)
    (h : UInt8.ofNat a = UInt8.ofNat b) : a = b := by
  have hn := congrArg UInt8.toNat h
  simpa [Nat.mod_eq_of_lt ha, Nat.mod_eq_of_lt hb] using hn

/-- Two payloads that start with encoded integers and agree as bytes start
with the same integer and continue with the same bytes. -/
theorem base128Encode_append_inj {a b : Nat} {x y : Bytes}
    (h : base128Encode a ++ x = base128Encode b ++ y) : a = b ∧ x = y := by
  induction a using Nat.strongRecOn generalizing b with
  | ind a ih =>
      by_cases ha : a < 128 <;> by_cases hb : b < 128
      · rw [base128Encode_of_lt ha, base128Encode_of_lt hb] at h
        obtain ⟨hhead, htail⟩ := List.cons.inj h
        exact ⟨ofNat_inj_of_lt (by omega) (by omega) hhead, htail⟩
      · -- a last byte against a continued one: the high bits differ
        rw [base128Encode_of_lt ha, base128Encode_of_ge hb] at h
        have := ofNat_inj_of_lt (by omega) (by omega) (List.cons.inj h).1
        omega
      · rw [base128Encode_of_ge ha, base128Encode_of_lt hb] at h
        have := ofNat_inj_of_lt (by omega) (by omega) (List.cons.inj h).1
        omega
      · rw [base128Encode_of_ge ha, base128Encode_of_ge hb] at h
        obtain ⟨hhead, htail⟩ := List.cons.inj h
        have hmod := ofNat_inj_of_lt (by omega) (by omega) hhead
        obtain ⟨hdiv, hrest⟩ := ih (a / 128) (by omega) htail
        exact ⟨by omega, hrest⟩

/-- `codec::Encode`. -/
class Encode (α : Type) where
  encode : α → Bytes

/-- `[u8]`: the length, then the bytes. -/
def encodeSlice (bytes : Bytes) : Bytes :=
  base128Encode bytes.length ++ bytes

/-- `[u8; 32]`: the bytes alone. -/
instance : Encode Hash := ⟨Hash.toBytes⟩

/-- `codec::ReminderOwned`: a byte string that extends to the end of its
buffer, encoded without a length. -/
structure ReminderOwned where
  bytes : Bytes
  deriving DecidableEq

instance : Encode ReminderOwned := ⟨ReminderOwned.bytes⟩

end OnionNetwork
