import OnionNetwork.Codec.Laws
import Mathlib.Algebra.Order.Group.Nat

/-!
# A vault on the wire

`FETCH_VAULT` is answered with the entries of the vault, encoded one behind the other
in key order. Who recovers a profile decodes entries until one fails, and a served
vault is read back (`vaultEntries_encodeEntries`).
-/

namespace OnionNetwork

/-- The array of these bytes. -/
def Hash.ofBytes (bytes : Bytes) : Hash :=
  BitVec.ofNat 256 (bytes.foldl (fun acc b => acc * 256 + b.toNat) 0)

/-- The first bytes of a hash, read as a number, are its upper part. -/
theorem Hash.foldl_byte (h : Hash) {n : Nat} (hn : n ≤ 32) :
    ((List.range n).map h.byte).foldl (fun acc b => acc * 256 + b.toNat) 0 =
      h.toNat / 2 ^ (8 * (32 - n)) := by
  induction n with
  | zero =>
      exact (Nat.div_eq_of_lt h.isLt).symm
  | succ n ih =>
      have hbyte : (h.byte n).toNat = h.toNat / 2 ^ (8 * (31 - n)) % 256 := by
        simp [Hash.byte, BitVec.extractLsb'_toNat, Nat.shiftRight_eq_div_pow]
      have hsplit : 2 ^ (8 * (32 - n)) = 2 ^ (8 * (31 - n)) * 256 := by
        rw [show 8 * (32 - n) = 8 * (31 - n) + 8 by omega, Nat.pow_add]
      rw [List.range_succ, List.map_append, List.foldl_append, ih (by omega), List.map_singleton,
        List.foldl_cons, List.foldl_nil, hbyte, hsplit, ← Nat.div_div_eq_div_mul,
        show 32 - (n + 1) = 31 - n by omega]
      exact Nat.div_add_mod' _ _

@[simp] theorem Hash.ofBytes_toBytes (h : Hash) : Hash.ofBytes h.toBytes = h := by
  unfold Hash.ofBytes Hash.toBytes
  rw [h.foldl_byte (Nat.le_refl 32)]
  show BitVec.ofNat 256 (h.toNat / 1) = h
  rw [Nat.div_one, BitVec.ofNat_toNat, BitVec.setWidth_eq]

namespace Server

open Lib Codec Parser

/-- `(Hash, &[u8])`. -/
def vaultEntry : Codec (Fixed UInt8 32 × Codec.ByteSlice) := pair (rawBytes 32) byteSlice

/-- `while let Some((id, val)) = <(Hash, &[u8])>::decode(&mut buffer)`. An entry takes a
byte at least, so there are no more of them than bytes. -/
def readEntries : (fuel : Nat) → (buffer : Bytes) → List (Hash × Bytes)
  | 0, _ => []
  | fuel + 1, buffer =>
      match (vaultEntry.decode buffer).result with
      | .ok ((id, val), rest) => (Hash.ofBytes id.toList, val.1) :: readEntries fuel rest
      | .error _ => []

/-- The entries of a buffer. -/
def vaultEntries (buffer : Bytes) : List (Hash × Bytes) := readEntries buffer.length buffer

/-- The loop of `Handle::fetch_vault_low`. -/
def encodeEntries (entries : List (Hash × Bytes)) : Bytes :=
  entries.flatMap fun entry => entry.1.toBytes ++ encodeSlice entry.2

/-! ### No panic -/

/-! ### A served vault is read back -/

theorem exact_vaultEntry : vaultEntry.Exact := (exact_rawBytes 32).pair exact_byteSlice

theorem decode_vaultEntry (key : Hash) {val : Bytes} (hval : val.length < usizeSize)
    (rest : Bytes) :
    (vaultEntry.decode (key.toBytes ++ encodeSlice val ++ rest)).result =
      .ok ((⟨key.toBytes, key.length_toBytes⟩, ⟨val, hval⟩), rest) := by
  have hencode : vaultEntry.encode (⟨key.toBytes, key.length_toBytes⟩, ⟨val, hval⟩) =
      key.toBytes ++ encodeSlice val := by
    show encodeAll u8 key.toBytes ++ encodeSlice val = _
    rw [encodeAll_u8]
  rw [← hencode]
  exact exact_vaultEntry _ rest

/-- **Read back.** The entries that were served are the ones decoded. -/
theorem vaultEntries_encodeEntries {entries : List (Hash × Bytes)}
    (h : ∀ entry ∈ entries, entry.2.length < usizeSize) :
    vaultEntries (encodeEntries entries) = entries := by
  have hread : ∀ fuel, entries.length ≤ fuel →
      readEntries fuel (encodeEntries entries) = entries := by
    induction entries with
    | nil =>
        intro fuel _
        cases fuel with
        | zero => rfl
        | succ fuel => rfl
    | cons entry entries ih =>
        intro fuel hfuel
        obtain ⟨hentry, hentries⟩ := List.forall_mem_cons.mp h
        cases fuel with
        | zero => cases hfuel
        | succ fuel =>
            show readEntries (fuel + 1) (entry.1.toBytes ++ encodeSlice entry.2 ++ _) = _
            rw [readEntries, decode_vaultEntry entry.1 hentry]
            simp only [Hash.ofBytes_toBytes]
            exact congrArg (entry :: ·) (ih hentries fuel (Nat.le_of_succ_le_succ hfuel))
  have hlength : entries.length ≤ (encodeEntries entries).length := by
    clear h hread
    induction entries with
    | nil => exact Nat.le_refl 0
    | cons entry entries ih =>
        show entries.length + 1 ≤
          (entry.1.toBytes ++ encodeSlice entry.2 ++ encodeEntries entries).length
        rw [List.length_append, List.length_append, Hash.length_toBytes]
        omega
  exact hread _ hlength

end Server

end OnionNetwork
