import OnionNetwork.Codec.Honest
import OnionNetwork.Server.VaultBytes

/-!
# The vault as a client reads it

`Node::new` decodes the answer to `FETCH_VAULT` as a `ReminderVec<(Hash, Vec<u8>)>`:
values are owned, memory is reserved for them, and the answer is read to its end. The
node reads borrowed values until one fails. Entry by entry the two read the same
(`decode_entry_of_owned`), and so they do of a whole answer (`readEntries_of_fetched`).
-/

namespace OnionNetwork

open Lib Codec Parser

namespace Codec

@[simp] theorem Layout.bytes_one (n : Nat) : (Layout.array 1).bytes n = n := Nat.mul_one n

/-- `Vec<u8>` is read like `&[u8]`, unless the memory for it is above the largest
allocation. -/
theorem result_vec_u8 (input : Bytes) :
    ((vec u8 (Layout.array 1)).decode input).result =
      match (byteSlice.decode input).result with
      | .ok (val, rest) =>
          if h : val.1.length ≤ isizeMax then
            .ok (⟨val.1, val.2, (Layout.bytes_one _).symm ▸ h⟩, rest)
          else .error (.fault .capacity)
      | .error stop => .error stop := by
  cases hlen : (usize.decode input).result with
  | error stop =>
      have hslice : (byteSlice.decode input).result = .error stop := result_andThen_error hlen
      rw [hslice]
      exact result_andThen_error (result_andThen_error hlen)
  | ok r =>
      obtain ⟨len, left⟩ := r
      have hlt : len.toNat < usizeSize := len.isLt
      have hone : len.toNat * 1 = len.toNat := Nat.mul_one _
      -- both readers refuse a length that the input has no bytes for
      by_cases henough : left.length < len.toNat
      · have hslice : (byteSlice.decode input).result = .error .reject := by
          unfold byteSlice
          rw [result_andThen_ok hlen, if_pos henough]
          rfl
        rw [hslice]
        refine result_andThen_error ?_
        unfold lengthGuarded
        rw [result_andThen_ok hlen, hone, decide_eq_false (not_le.mpr hlt),
          result_andThen_ok result_noteOr, if_pos henough]
        rfl
      · have hle : len.toNat ≤ left.length := not_lt.mp henough
        have htake : (left.take len.toNat).length = len.toNat := List.length_take_of_le hle
        have hsize : (left.take len.toNat).length < usizeSize := htake.symm ▸ hlt
        have hslice : (byteSlice.decode input).result =
            .ok (⟨left.take len.toNat, hsize⟩, left.drop len.toNat) := by
          unfold byteSlice
          rw [result_andThen_ok hlen, if_neg henough, result_andThen_ok (result_splitAt hle),
            dif_pos hsize]
          rfl
        have hguard : (lengthGuarded 1 input).result = .ok (len, left) :=
          lengthGuarded_eq_ok.mpr ⟨hlen, hone.symm ▸ hlt, hone.symm ▸ hle⟩
        have hmany := result_decodeMany_u8 len.toNat left
        rw [dif_pos hle] at hmany
        show (reserved 1 (Layout.array 1) u8 input).result = _
        unfold reserved
        rw [hslice, result_andThen_ok hguard]
        -- only the reservation tells them apart
        by_cases hfits : len.toNat ≤ isizeMax
        · have hlayout : (Layout.array 1).bytes len.toNat ≤ isizeMax := by
            rwa [Layout.bytes_one]
          rw [result_andThen_ok (result_reserve hlayout), result_andThen_ok hmany,
            dif_pos hlayout]
          have hval : (left.take len.toNat).length ≤ isizeMax := by rwa [htake]
          simp only [dif_pos hval]
          rfl
        · have hfault : (reserve (Layout.array 1) len.toNat left).result =
              .error (.fault .capacity) := by
            have hlayout : isizeMax < (Layout.array 1).bytes len.toNat := by
              rw [Layout.bytes_one]
              exact not_le.mp hfits
            unfold reserve noteOr
            rw [decide_eq_true hlayout]
            rfl
          rw [result_andThen_error hfault]
          have hval : ¬ (left.take len.toNat).length ≤ isizeMax := by rwa [htake]
          simp only [dif_neg hval]

end Codec

namespace Client

open Server

/-- An entry with an owned value. -/
abbrev OwnedEntry := Fixed UInt8 32 × Codec.Vec (Layout.array 1) UInt8

/-- `(Hash, Vec<u8>)`. -/
def ownedEntry : Codec OwnedEntry := pair (rawBytes 32) (vec u8 (Layout.array 1))

/-- `ReminderVec<(Hash, Vec<u8>)>`. -/
def fetchedVault : Codec (List OwnedEntry) := reminderVec ownedEntry

/-- The key and the value. -/
def OwnedEntry.entry (e : OwnedEntry) : Hash × Bytes := (Hash.ofBytes e.1.toList, e.2.toList)

/-- The answer as a client reads it: nothing, if the decoder rejects or does not
return. -/
def readFetched (buffer : Bytes) : Option (List (Hash × Bytes)) :=
  match (fetchedVault.decode buffer).result with
  | .ok (entries, _) => some (entries.map OwnedEntry.entry)
  | .error _ => none

/-- An entry with a value that fits into memory, as it is sent. -/
def OwnedEntry.of (key : Hash) (val : Bytes) (h : val.length ≤ isizeMax) : OwnedEntry :=
  (⟨key.toBytes, key.length_toBytes⟩,
    ⟨val, lt_of_le_of_lt h (by decide), (Layout.bytes_one _).symm ▸ h⟩)

@[simp] theorem OwnedEntry.entry_of (key : Hash) (val : Bytes) (h : val.length ≤ isizeMax) :
    (OwnedEntry.of key val h).entry = (key, val) :=
  congrArg (·, val) key.ofBytes_toBytes

theorem encode_of (key : Hash) (val : Bytes) (h : val.length ≤ isizeMax) :
    ownedEntry.encode (.of key val h) = key.toBytes ++ encodeSlice val := by
  show encodeAll u8 key.toBytes ++ (base128Encode val.length ++ encodeAll u8 val) = _
  rw [encodeAll_u8, encodeAll_u8, encodeSlice]

theorem exact_ownedEntry : ownedEntry.Exact := by
  have hvec : (vec u8 (Layout.array 1)).Exact := fun v rest =>
    ((exact_u8.law.vec (fun _ => List.cons_ne_nil _ _) _).roundTrip_iff v rest).mpr
      ⟨fitsAll_of_always _ _, fun _ _ => trivial⟩
  exact (exact_rawBytes 32).pair hvec

theorem ownedEntry_ne_nil (e : OwnedEntry) : ownedEntry.encode e ≠ [] := by
  intro h
  have hlen := congrArg List.length (List.append_eq_nil_iff.mp h).1
  rw [encode_rawBytes, e.1.length_eq] at hlen
  cases hlen

/-- Where an owned entry is read, the borrowed one is the same and leaves the same. -/
theorem decode_entry_of_owned {buffer rest : Bytes} {e : OwnedEntry}
    (h : (ownedEntry.decode buffer).result = .ok (e, rest)) :
    (vaultEntry.decode buffer).result = .ok ((e.1, ⟨e.2.toList, e.2.length_lt⟩), rest) := by
  unfold ownedEntry pair at h
  cases hkey : ((rawBytes 32).decode buffer).result with
  | error stop =>
      rw [result_andThen_error hkey] at h
      cases h
  | ok r =>
      obtain ⟨key, left⟩ := r
      rw [result_andThen_ok hkey] at h
      cases hval : (byteSlice.decode left).result with
      | error stop =>
          have hvec := result_vec_u8 left
          rw [hval] at hvec
          rw [result_map_error hvec] at h
          cases h
      | ok r =>
          obtain ⟨val, left'⟩ := r
          have hvec := result_vec_u8 left
          rw [hval] at hvec
          by_cases hfits : val.1.length ≤ isizeMax
          · simp only [dif_pos hfits] at hvec
            rw [result_map_ok hvec] at h
            cases h
            unfold vaultEntry pair
            rw [result_andThen_ok hkey, result_map_ok hval]
          · simp only [dif_neg hfits] at hvec
            rw [result_map_error hvec] at h
            cases h

/-- The entries of an answer that the client accepts are the ones that a node reads. -/
theorem readEntries_of_fetched {buffer rest : Bytes} {entries : List OwnedEntry}
    (h : (fetchedVault.decode buffer).result = .ok (entries, rest)) {fuel : Nat}
    (hfuel : buffer.length ≤ fuel) :
    readEntries fuel buffer = entries.map OwnedEntry.entry := by
  change (decodeReminder ownedEntry buffer).result = _ at h
  induction fuel generalizing buffer entries with
  | zero =>
      obtain rfl : buffer = [] := List.length_eq_zero_iff.mp (Nat.le_zero.mp hfuel)
      rw [decodeReminder, if_pos rfl] at h
      cases h
      rfl
  | succ fuel ih =>
      by_cases hnil : buffer = []
      · subst hnil
        rw [decodeReminder, if_pos rfl] at h
        cases h
        rfl
      · rw [decodeReminder, if_neg hnil] at h
        cases he : (ownedEntry.decode buffer).result with
        | error stop =>
            rw [he] at h
            cases h
        | ok r =>
            obtain ⟨e, left⟩ := r
            rw [he] at h
            -- an entry of no bytes would not leave the loop
            by_cases hless : left.length < buffer.length
            · simp only [if_pos hless] at h
              cases htail : (decodeReminder ownedEntry left).result with
              | error stop =>
                  rw [htail] at h
                  cases h
              | ok r =>
                  rw [htail] at h
                  cases h
                  rw [readEntries, decode_entry_of_owned he]
                  exact congrArg (e.entry :: ·) (ih (by omega) htail)
            · simp only [if_neg hless] at h
              cases h

theorem vaultEntries_of_readFetched {buffer : Bytes} {entries : List (Hash × Bytes)}
    (h : readFetched buffer = some entries) : vaultEntries buffer = entries := by
  unfold readFetched at h
  cases hread : (fetchedVault.decode buffer).result with
  | error stop =>
      rw [hread] at h
      cases h
  | ok r =>
      rw [hread] at h
      cases h
      exact readEntries_of_fetched hread (Nat.le_refl _)

/-- Entries with values that fit into memory are sent as owned ones. -/
theorem exists_owned {entries : List (Hash × Bytes)}
    (h : ∀ entry ∈ entries, entry.2.length ≤ isizeMax) :
    ∃ owned : List OwnedEntry, owned.map OwnedEntry.entry = entries ∧
      fetchedVault.encode owned = encodeEntries entries := by
  induction entries with
  | nil => exact ⟨[], rfl, rfl⟩
  | cons entry entries ih =>
      obtain ⟨hentry, hentries⟩ := List.forall_mem_cons.mp h
      obtain ⟨owned, hmap, hencode⟩ := ih hentries
      refine ⟨.of entry.1 entry.2 hentry :: owned, ?_, ?_⟩
      · rw [List.map_cons, OwnedEntry.entry_of, hmap]
      · show encodeAll ownedEntry (_ :: owned) = _
        rw [encodeAll_cons, encode_of]
        exact congrArg (entry.1.toBytes ++ encodeSlice entry.2 ++ ·) hencode

/-- The client reads back what a node serves. -/
theorem readFetched_encodeEntries {entries : List (Hash × Bytes)}
    (h : ∀ entry ∈ entries, entry.2.length ≤ isizeMax) :
    readFetched (encodeEntries entries) = some entries := by
  obtain ⟨owned, hmap, hencode⟩ := exists_owned h
  have hread := exact_ownedEntry.reminderVec ownedEntry_ne_nil owned
  change (fetchedVault.decode (fetchedVault.encode owned)).result = _ at hread
  rw [hencode] at hread
  unfold readFetched
  rw [hread, ← hmap]

end Client

end OnionNetwork
