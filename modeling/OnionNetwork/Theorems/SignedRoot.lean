import OnionNetwork.Server.VaultRoot
import OnionNetwork.Theorems.Vault

/-!
# The root that was signed and the vault that is stored

`insert_to_vault` compares the signed root with one over the hashes of all changes,
while the store keeps only the last value of a key. `signed_root_iff`: what is stored
has the signed root exactly when no key was listed with two values, or nothing is
stored. The one direction needs hashes without collisions; the other one also that no
digest is hashed into itself, since the tree over some of the leaves could have the
root of the tree over all of them otherwise.
-/

namespace OnionNetwork.Server

open Chat Lib Merkle MerkleTree Directories

variable {cr : Crypto}

/-- An insertion that is answered with `Ok` leaves entries with the signed root, also as
`recover` computes it from `FETCH_VAULT`; any other leaves the vaults as they were. -/
def RootDescribes (s : Storage) (id : Identity) (changes : List (Hash × Bytes))
    (proof : Proof cr Hash) (commits : Bool) : Prop :=
  match s.insertToVaultTxn id changes proof commits with
  | (s', .ok ()) => ∃ pf, s'.profiles id = some pf ∧ storedRoot cr pf.vault = proof.context ∧
      ((∀ entry ∈ pf.vault.entries, entry.2.length < usizeSize) →
        servedRoot cr (encodeEntries pf.vault.entries) = proof.context)
  | (s', .error _) => ∀ id', (s'.profiles id').map (·.vault) = (s.profiles id').map (·.vault)

/-- No key is listed with two values. -/
def OneValueEach (changes : List (Hash × Bytes)) : Prop :=
  ∀ change ∈ changes, ∀ change' ∈ changes, change.1 = change'.1 → change.2 = change'.2

instance (changes : List (Hash × Bytes)) : Decidable (OneValueEach changes) :=
  inferInstanceAs (Decidable (∀ change ∈ changes, ∀ change' ∈ changes, _ → _))

/-- The leaves under the root that is compared. -/
def predictedHashes (cr : Crypto) (pf : Profile.Handle) (changes : List (Hash × Bytes)) :
    List Hash :=
  ((Storage.vaultLeaves cr pf changes).insertionSort (· ≤ ·)).eraseReps

/-- What is hashed for an insertion, and for the root of what it leaves. -/
def insertionStrings (cr : Crypto) (pf : Profile.Handle) (changes : List (Hash × Bytes)) :
    List Bytes :=
  (pf.vault.entries ++ changes).map entryBytes ++
    ((joints (hashMerkle cr) (predictedHashes cr pf changes)).map nodeBytes ++
      rootStrings cr (pf.insertToVault changes).vault)

/-- blake3 has no collision on these strings, and no digest is hashed into itself. -/
structure SoundOn (cr : Crypto) (strings : List Bytes) : Prop where
  inj : Set.InjOn cr.blake3 {b | b ∈ strings}
  acyclic : ∃ rank, Ranked (hashMerkle cr) {p | nodeBytes p ∈ strings} rank

section Leaves

variable {pf : Profile.Handle} {changes : List (Hash × Bytes)}

/-- What the store has behind the changes is one of them, or was there and is not
changed. -/
theorem get_insertToVault {k : Hash} {val : Bytes}
    (h : (pf.insertToVault changes).vault.get k = some val) :
    (k, val) ∈ changes ∨ pf.vault.get k = some val ∧ ∀ w, (k, w) ∉ changes := by
  rcases SortedMap.get_foldl_put_cases changes pf.vault k with ⟨v, hin, hget⟩ | ⟨hnot, hget⟩
  · obtain rfl := Option.some.inj (hget.symm.trans h)
    exact .inl hin
  · exact .inr ⟨hget.symm.trans h, fun w hin => hnot (List.mem_map_of_mem hin)⟩

/-- The store has what was predicted. -/
theorem get_insertToVault_iff (hone : OneValueEach changes) {k : Hash} {val : Bytes} :
    (pf.insertToVault changes).vault.get k = some val ↔
      (k, val) ∈ changes ∨ pf.vault.get k = some val ∧ ∀ w, (k, w) ∉ changes := by
  refine ⟨get_insertToVault, fun h => ?_⟩
  rcases SortedMap.get_foldl_put_cases changes pf.vault k with ⟨v, hin, hget⟩ | ⟨hnot, hget⟩
  · rcases h with hin' | ⟨-, hnone⟩
    · rw [show val = v from hone _ hin' _ hin rfl]
      exact hget
    · exact absurd hin (hnone v)
  · rcases h with hin | ⟨hold, -⟩
    · exact absurd (List.mem_map_of_mem hin) hnot
    · exact hget.trans hold

theorem mem_predictedHashes {h : Hash} :
    h ∈ predictedHashes cr pf changes ↔ h ∈ Storage.vaultLeaves cr pf changes := by
  rw [predictedHashes, mem_eraseReps, List.mem_insertionSort]

theorem mem_sortedHashes {vault : SortedMap Hash Bytes} {h : Hash} :
    h ∈ sortedHashes cr vault ↔ h ∈ entryHashes cr vault := List.mem_insertionSort _

/-- The leaves of what is stored are among the predicted ones. -/
theorem sortedHashes_subset :
    sortedHashes cr (pf.insertToVault changes).vault ⊆ predictedHashes cr pf changes := by
  intro h hin
  obtain ⟨k, val, hget, rfl⟩ := mem_entryHashes.mp (mem_sortedHashes.mp hin)
  exact mem_predictedHashes.mpr
    (Storage.mem_vaultLeaves.mpr ⟨k, val, get_insertToVault hget, rfl⟩)

/-- A change leaves an entry. -/
theorem sortedHashes_ne_nil {change : Hash × Bytes} (hin : change ∈ changes) :
    sortedHashes cr (pf.insertToVault changes).vault ≠ [] := by
  rcases SortedMap.get_foldl_put_cases changes pf.vault change.1 with ⟨v, -, hget⟩ | ⟨hnot, -⟩
  · exact List.ne_nil_of_mem (mem_sortedHashes.mpr (mem_entryHashes.mpr ⟨_, _, hget, rfl⟩))
  · exact absurd (List.mem_map_of_mem hin) hnot

theorem entryBytes_stored :
    ∀ entry ∈ (pf.insertToVault changes).vault.entries,
      entryBytes entry ∈ insertionStrings cr pf changes := by
  intro entry hentry
  simp only [insertionStrings, rootStrings, List.mem_append]
  exact .inr (.inr (.inl (List.mem_map_of_mem hentry)))

variable (hinj : Set.InjOn cr.blake3 {b | b ∈ insertionStrings cr pf changes})

include hinj

/-- The stored leaves come in the order of the predicted ones. -/
theorem sortedHashes_sublist :
    (sortedHashes cr (pf.insertToVault changes).vault).Sublist (predictedHashes cr pf changes) := by
  have hnodup : (sortedHashes cr (pf.insertToVault changes).vault).Nodup :=
    (List.perm_insertionSort (· ≤ ·) _).nodup_iff.mpr
      (nodup_entryHashes hinj entryBytes_stored)
  have hpredicted : (predictedHashes cr pf changes).Pairwise (· < ·) :=
    pairwise_eraseReps (List.pairwise_insertionSort _ _)
  exact List.sublist_of_subperm_of_pairwise (hnodup.subperm sortedHashes_subset)
    (List.pairwise_insertionSort _ _) (hpredicted.imp le_of_lt)

/-- **One value each.** The predicted leaves are the stored ones. -/
theorem sortedHashes_eq (hone : OneValueEach changes) :
    sortedHashes cr (pf.insertToVault changes).vault = predictedHashes cr pf changes := by
  refine insertionSort_eq_eraseReps (nodup_entryHashes hinj entryBytes_stored) fun h => ?_
  rw [mem_entryHashes, Storage.mem_vaultLeaves]
  simp only [get_insertToVault_iff hone]

/-- **Two values.** Only one of the two is stored. -/
theorem length_sortedHashes_lt (htwo : ¬ OneValueEach changes) :
    (sortedHashes cr (pf.insertToVault changes).vault).length <
      (predictedHashes cr pf changes).length := by
  have hsub := sortedHashes_sublist hinj
  refine lt_of_le_of_ne hsub.length_le fun hlength => htwo ?_
  intro change hin change' hin' hkey
  -- both are stored under the key
  have hstored : ∀ c ∈ changes, (pf.insertToVault changes).vault.get c.1 = some c.2 := by
    intro c hc
    have hleaf : cr.kv c.1 c.2 ∈ sortedHashes cr (pf.insertToVault changes).vault := by
      rw [hsub.eq_of_length hlength]
      exact mem_predictedHashes.mpr (Storage.mem_vaultLeaves.mpr ⟨c.1, c.2, .inl hc, rfl⟩)
    obtain ⟨k, val, hget, heq⟩ := mem_entryHashes.mp (mem_sortedHashes.mp hleaf)
    have hchange : entryBytes c ∈ insertionStrings cr pf changes := by
      simp only [insertionStrings, List.map_append, List.mem_append]
      exact .inl (.inr (List.mem_map_of_mem hc))
    obtain rfl : c = (k, val) := kv_inj hinj hchange
      (entryBytes_stored _ (SortedMap.mem_entries_iff _ |>.mpr hget)) heq
    exact hget
  have hget := hstored change hin
  rw [hkey, hstored change' hin'] at hget
  exact (Option.some.inj hget).symm

end Leaves

/-- The stored entries have the predicted root exactly when no key is listed with two
values. -/
theorem storedRoot_eq_iff {pf : Profile.Handle} {changes : List (Hash × Bytes)}
    (hsound : SoundOn cr (insertionStrings cr pf changes)) :
    storedRoot cr (pf.insertToVault changes).vault =
        Storage.vaultRoot cr (Storage.vaultLeaves cr pf changes) ↔ OneValueEach changes := by
  constructor
  · intro h change hin
    by_contra hother
    have htwo : ¬ OneValueEach changes := fun hone => hother (hone change hin)
    obtain ⟨rank, hrank⟩ := hsound.acyclic
    refine hrank.value_ne_of_sublist (combine_injOn hsound.inj) (sortedHashes_sublist hsound.inj)
      (length_sortedHashes_lt hsound.inj htwo) (sortedHashes_ne_nil hin) ?_ ?_ ?_
    · intro p hp
      show nodeBytes p ∈ insertionStrings cr pf changes
      simp only [insertionStrings, rootStrings, List.mem_append]
      exact .inr (.inr (.inr (List.mem_map_of_mem hp)))
    · intro p hp
      show nodeBytes p ∈ insertionStrings cr pf changes
      simp only [insertionStrings, List.mem_append]
      exact .inr (.inl (List.mem_map_of_mem hp))
    · rw [← root_eq_value, ← root_eq_value]
      exact h
  · intro hone
    rw [storedRoot, sortedHashes_eq hsound.inj hone]
    rfl

/-- **The signed root.** An insertion leaves entries with the root that was signed, or
the vaults as they were, exactly when it is refused, or its transaction fails, or no key
is listed with two values. -/
theorem signed_root_iff (s : Storage) (id : Identity) (changes : List (Hash × Bytes))
    (proof : Proof cr Hash) (commits : Bool)
    (hsound : ∀ pf, s.profiles id = some pf → SoundOn cr (insertionStrings cr pf changes)) :
    RootDescribes s id changes proof commits ↔
      (commits = true → (∃ pf, Storage.MeetsVaultChecks s id changes proof pf) →
        OneValueEach changes) := by
  unfold RootDescribes Storage.insertToVaultTxn
  cases hcheck : s.checkInsertion id changes proof with
  | error e =>
      -- refused
      refine iff_of_true (fun _ => rfl) fun _ hpasses => ?_
      obtain ⟨pf, hchecks⟩ := hpasses
      rw [Storage.checkInsertion_eq_ok.mpr ⟨pf, hchecks, rfl⟩] at hcheck
      cases hcheck
  | ok pf' =>
      obtain ⟨pf, hchecks, rfl⟩ := Storage.checkInsertion_eq_ok.mp hcheck
      cases commits with
      | false =>
          -- the nonce is written, the vault is not
          refine iff_of_true (fun id' => ?_) nofun
          by_cases hid : id' = id
          · subst hid
            rw [Storage.setProfile_self, hchecks.found]
            rfl
          · rw [Storage.setProfile_ne s hid]
      | true =>
          have hiff := storedRoot_eq_iff (hsound pf hchecks.found)
          rw [hchecks.root] at hiff
          constructor
          · rintro ⟨stored, hstored, hroot, -⟩ _ _
            obtain rfl := Option.some.inj ((Storage.setProfile_self s id _).symm.trans hstored)
            exact hiff.mp hroot
          · intro hone
            have hroot := hiff.mpr (hone rfl ⟨pf, hchecks⟩)
            exact ⟨_, Storage.setProfile_self s id _, hroot, fun hsmall =>
              (servedRoot_encodeEntries hsmall).trans hroot⟩

/-- The proof of the key 7 for these changes to its empty vault. -/
def firstProof (changes : List (Hash × Bytes)) : Proof Crypto.mixed Hash :=
  Proof.mixed 7 1
    (Storage.vaultRoot .mixed (changes.map fun (k, val) => Crypto.mixed.kv k val))

/-- The leaves of the vault with the value 1 under the key 1 and 2 under 2. -/
def twoLeaves : Hash × Hash := (Crypto.mixed.kv 1 [1], Crypto.mixed.kv 2 [2])

/-- The two entries and the node above them. -/
def twoLeavesStrings : List Bytes :=
  [entryBytes (1, [1]), entryBytes (2, [2]), nodeBytes twoLeaves]

theorem soundOn_twoLeaves {strings : List Bytes} (h : strings ⊆ twoLeavesStrings) :
    SoundOn .mixed strings where
  inj := by
    have hinj : ∀ b ∈ twoLeavesStrings, ∀ b' ∈ twoLeavesStrings,
        Crypto.mixed.blake3 b = Crypto.mixed.blake3 b' → b = b' := by decide +kernel
    intro b hb b' hb'
    exact hinj b (h hb) b' (h hb')
  acyclic := by
    -- the one node is above its two leaves
    let rank (h : Hash) : Nat := if h = Crypto.mixed.combine twoLeaves.1 twoLeaves.2 then 1 else 0
    have hnode : ∀ p, nodeBytes p ∈ strings → p = twoLeaves := by
      intro p hp
      have hlength : (nodeBytes p).length = 64 := by simp [nodeBytes]
      have hcases := h hp
      simp only [twoLeavesStrings, List.mem_cons, List.not_mem_nil, or_false] at hcases
      rcases hcases with heq | heq | heq
      · simp [heq, entryBytes] at hlength
      · simp [heq, entryBytes] at hlength
      · exact nodeBytes_injective heq
    refine ⟨rank, fun p hp => ?_, fun p hp => ?_⟩
    · rw [hnode p hp]
      show rank twoLeaves.1 < rank (Crypto.mixed.combine twoLeaves.1 twoLeaves.2)
      decide +kernel
    · rw [hnode p hp]
      show rank twoLeaves.2 < rank (Crypto.mixed.combine twoLeaves.1 twoLeaves.2)
      decide +kernel

/-- Two keys, one of them listed twice. -/
def twoKeys : List (Hash × Bytes) := [(1, [1]), (2, [2]), (1, [1])]

theorem twoKeys_sound (pf : Profile.Handle) (hpf : oneVault.profiles 7 = some pf) :
    SoundOn .mixed (insertionStrings .mixed pf twoKeys) := by
  have hprofile : oneVault.profiles 7 = some ⟨.empty, ⟨0, 0⟩, []⟩ := Storage.setProfile_self _ 7 _
  obtain rfl := Option.some.inj (hprofile.symm.trans hpf)
  have hpredicted : predictedHashes .mixed ⟨.empty, ⟨0, 0⟩, []⟩ twoKeys =
      [twoLeaves.1, twoLeaves.2] := by decide
  have hstored : sortedHashes .mixed
      (Profile.Handle.insertToVault ⟨.empty, ⟨0, 0⟩, []⟩ twoKeys).vault =
        [twoLeaves.1, twoLeaves.2] := by decide
  have hentries : (Profile.Handle.insertToVault ⟨.empty, ⟨0, 0⟩, []⟩ twoKeys).vault.entries =
      [(1, [1]), (2, [2])] := by decide
  refine soundOn_twoLeaves ?_
  rw [insertionStrings, rootStrings, hpredicted, hstored, hentries, joints_pair]
  simp [twoKeys, twoLeavesStrings, SortedMap.empty]

/-- These changes are stored under the root that was signed. -/
theorem twoKeys_described : RootDescribes oneVault 7 twoKeys (firstProof twoKeys) true := by
  rw [signed_root_iff oneVault 7 twoKeys (firstProof twoKeys) true twoKeys_sound]
  intro _ _
  show OneValueEach twoKeys
  decide

/-- The key 1 is listed twice, with the values 1 and 2. -/
def twoValues : List (Hash × Bytes) := [(1, [1]), (1, [2])]

/-- It is accepted, and what is stored has another root. -/
theorem twoValues_accepted :
    (oneVault.insertToVaultTxn 7 twoValues (firstProof twoValues) true).2 = .ok () ∧
      ¬ RootDescribes oneVault 7 twoValues (firstProof twoValues) true := by
  have hok : (oneVault.insertToVaultTxn 7 twoValues (firstProof twoValues) true).2 = .ok () := by
    decide +kernel
  refine ⟨hok, ?_⟩
  have hroot :
      ((oneVault.insertToVaultTxn 7 twoValues (firstProof twoValues) true).1.profiles 7).map
        (fun pf => decide (storedRoot Crypto.mixed pf.vault = (firstProof twoValues).context)) =
        some false := by decide +kernel
  unfold RootDescribes
  revert hok hroot
  generalize oneVault.insertToVaultTxn 7 twoValues (firstProof twoValues) true = result
  intro hok hroot
  obtain ⟨s', res⟩ := result
  obtain rfl : res = .ok () := hok
  rintro ⟨pf, hpf, hcontext, -⟩
  rw [hpf, Option.map_some, hcontext] at hroot
  simp at hroot

end OnionNetwork.Server
