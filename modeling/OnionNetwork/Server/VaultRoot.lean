import OnionNetwork.Lib.SortedMap
import OnionNetwork.Merkle.Binding
import OnionNetwork.Server.Recover

/-!
# The root of a vault

The root over the sorted hashes of the entries, which `recover` computes from what
`FETCH_VAULT` is answered with (`servedRoot_encodeEntries`). The hash of an entry and
the one of a node are both blake3 of a byte string, and nothing tells the two kinds of
strings apart: an entry whose value has 32 bytes is hashed like a node.
-/

namespace OnionNetwork.Server

open Chat Lib Merkle MerkleTree Directories

/-- The hashes of the entries, in key order. -/
def entryHashes (cr : Crypto) (vault : SortedMap Hash Bytes) : List Hash :=
  vault.entries.map fun (k, val) => cr.kv k val

/-- The leaves of the tree. -/
def sortedHashes (cr : Crypto) (vault : SortedMap Hash Bytes) : List Hash :=
  (entryHashes cr vault).insertionSort (· ≤ ·)

/-- The root over the sorted hashes of the entries. -/
def storedRoot (cr : Crypto) (vault : SortedMap Hash Bytes) : Hash :=
  (fromBase (hashMerkle cr) (sortedHashes cr vault)).root

/-- What is hashed for an entry. -/
def entryBytes (entry : Hash × Bytes) : Bytes := entry.1.toBytes ++ entry.2

/-- What is hashed for a node. -/
def nodeBytes (pair : Hash × Hash) : Bytes := pair.1.toBytes ++ pair.2.toBytes

/-- What is hashed for a root. -/
def rootStrings (cr : Crypto) (vault : SortedMap Hash Bytes) : List Bytes :=
  vault.entries.map entryBytes ++ (joints (hashMerkle cr) (sortedHashes cr vault)).map nodeBytes

variable {cr : Crypto} {vault : SortedMap Hash Bytes}

/-- `recover` computes this root from an answer to `FETCH_VAULT`. -/
theorem servedRoot_encodeEntries (h : ∀ entry ∈ vault.entries, entry.2.length < usizeSize) :
    servedRoot cr (encodeEntries vault.entries) = storedRoot cr vault := by
  rw [servedRoot, vaultEntries_encodeEntries h]
  rfl

/-- The zero digest is the root of the empty vault. -/
theorem storedRoot_empty : storedRoot cr .empty = 0 := by
  rw [storedRoot, root_eq_value]
  show value (hashMerkle cr) [] = 0
  rw [value]
  rfl

theorem entryBytes_injective : Function.Injective entryBytes := by
  intro e e' h
  have hlength : e.1.toBytes.length = e'.1.toBytes.length := by simp
  obtain ⟨hkey, hval⟩ := List.append_inj h hlength
  exact Prod.ext (Hash.toBytes_injective hkey) hval

theorem nodeBytes_injective : Function.Injective nodeBytes := by
  intro p p' h
  have hlength : p.1.toBytes.length = p'.1.toBytes.length := by simp
  obtain ⟨hleft, hright⟩ := List.append_inj h hlength
  exact Prod.ext (Hash.toBytes_injective hleft) (Hash.toBytes_injective hright)

theorem mem_entryHashes {h : Hash} :
    h ∈ entryHashes cr vault ↔ ∃ k val, vault.get k = some val ∧ h = cr.kv k val := by
  simp only [entryHashes, List.mem_map]
  constructor
  · rintro ⟨⟨k, val⟩, hentry, rfl⟩
    exact ⟨k, val, vault.mem_entries_iff.mp hentry, rfl⟩
  · rintro ⟨k, val, hget, rfl⟩
    exact ⟨(k, val), vault.mem_entries_iff.mpr hget, rfl⟩

theorem length_sortedHashes (cr : Crypto) (vault : SortedMap Hash Bytes) :
    (sortedHashes cr vault).length = vault.entries.length := by
  simp [sortedHashes, entryHashes]

theorem nodup_entries (vault : SortedMap Hash Bytes) : vault.entries.Nodup :=
  vault.sorted.imp fun hlt heq => hlt.ne (congrArg Prod.fst heq)

/-! ### Without collisions -/

section Strings

variable {S : Set Bytes} (hinj : Set.InjOn cr.blake3 S)

include hinj

/-- Entries are told apart by their hashes. -/
theorem kv_inj {e e' : Hash × Bytes} (he : entryBytes e ∈ S) (he' : entryBytes e' ∈ S)
    (h : cr.kv e.1 e.2 = cr.kv e'.1 e'.2) : e = e' :=
  entryBytes_injective (hinj he he' h)

/-- Nodes are told apart by their hashes. -/
theorem combine_injOn : Set.InjOn (fun p : Hash × Hash => (hashMerkle cr).combine p.1 p.2)
    {p | nodeBytes p ∈ S} :=
  fun _ hp _ hq h => nodeBytes_injective (hinj hp hq h)

theorem nodup_entryHashes (hS : ∀ entry ∈ vault.entries, entryBytes entry ∈ S) :
    (entryHashes cr vault).Nodup :=
  (nodup_entries vault).map_on fun e he e' he' h => kv_inj hinj (hS e he) (hS e' he') h

/-- The hashes determine the entries. -/
theorem entries_eq_of_sortedHashes {vault' : SortedMap Hash Bytes}
    (hS : ∀ entry ∈ vault.entries, entryBytes entry ∈ S)
    (hS' : ∀ entry ∈ vault'.entries, entryBytes entry ∈ S)
    (h : sortedHashes cr vault = sortedHashes cr vault') : vault = vault' := by
  have hperm : (entryHashes cr vault).Perm (entryHashes cr vault') := by
    refine (List.perm_insertionSort (· ≤ ·) _).symm.trans ?_
    show (sortedHashes cr vault).Perm _
    rw [h]
    exact List.perm_insertionSort (· ≤ ·) _
  have hmem : ∀ {m m' : SortedMap Hash Bytes}, (∀ entry ∈ m.entries, entryBytes entry ∈ S) →
      (∀ entry ∈ m'.entries, entryBytes entry ∈ S) →
      (entryHashes cr m).Perm (entryHashes cr m') → ∀ entry ∈ m.entries, entry ∈ m'.entries := by
    intro m m' hm hm' hp entry hentry
    obtain ⟨entry', hentry', heq⟩ :=
      List.mem_map.mp (hp.subset (List.mem_map_of_mem hentry))
    obtain rfl := kv_inj hinj (hm' entry' hentry') (hm entry hentry) heq
    exact hentry'
  have hperm' : vault.entries.Perm vault'.entries :=
    (List.perm_ext_iff_of_nodup (nodup_entries vault) (nodup_entries vault')).mpr fun entry =>
      ⟨hmem hS hS' hperm entry, hmem hS' hS hperm.symm entry⟩
  have heq : vault.entries = vault'.entries :=
    hperm'.eq_of_pairwise (fun _ _ _ _ hlt hgt => absurd hgt (lt_asymm hlt)) vault.sorted
      vault'.sorted
  cases vault
  cases vault'
  cases heq
  rfl

end Strings

namespace Storage

/-! ### Insertions whose transaction may fail -/

/-- `Storage::insert_to_vault` in front of the transaction. -/
def checkInsertion (s : Storage) (id : Identity) (changes : List (Hash × Bytes))
    (proof : Proof cr Hash) : Except ChatError Profile.Handle := do
  ensure (∀ change ∈ changes, change.2.length ≤ maxVaultValueSize) .valueTooLarge
  let pf ← s.getProfile id
  let hashes := vaultLeaves cr pf changes
  ensure (hashes.length < maxVaultKeyCount) .tooManyKeys
  ensure (vaultRoot cr hashes = proof.context) .invalidProofContext
  pf.advanceVaultNonce proof.nonce

/-- `Storage::insert_to_vault`. The nonce is advanced when the transaction fails. -/
def insertToVaultTxn (s : Storage) (id : Identity) (changes : List (Hash × Bytes))
    (proof : Proof cr Hash) (commits : Bool) : Storage × Except ChatError Unit :=
  match s.checkInsertion id changes proof with
  | .error e => (s, .error e)
  | .ok pf =>
      if commits then (s.setProfile id (pf.insertToVault changes), .ok ())
      else (s.setProfile id pf, .error .ise)

variable {s : Storage} {id : Identity} {changes : List (Hash × Bytes)} {proof : Proof cr Hash}

theorem checkInsertion_eq_ok {pf' : Profile.Handle} :
    s.checkInsertion id changes proof = .ok pf' ↔
      ∃ pf, MeetsVaultChecks s id changes proof pf ∧
        pf' = { pf with root := { pf.root with vaultVersion := proof.nonce } } := by
  simp only [checkInsertion, bind_eq_ok, ensure_eq_ok, exists_const, getProfile_eq_ok,
    Profile.Handle.advanceVaultNonce_eq_ok]
  constructor
  · rintro ⟨hsmall, pf, hfound, hfew, hroot, hfresh, rfl⟩
    exact ⟨pf, ⟨hsmall, hfound, hfew, hroot, hfresh⟩, rfl⟩
  · rintro ⟨pf, ⟨hsmall, hfound, hfew, hroot, hfresh⟩, rfl⟩
    exact ⟨hsmall, pf, hfound, hfew, hroot, hfresh, rfl⟩

/-- Where transactions do not fail this is `insertToVault`. -/
theorem insertToVaultTxn_commits :
    s.insertToVaultTxn id changes proof true =
      match s.insertToVault id changes proof with
      | .ok s' => (s', .ok ())
      | .error e => (s, .error e) := by
  have hbind : s.insertToVault id changes proof = (s.checkInsertion id changes proof >>= fun pf =>
      .ok (s.setProfile id (pf.insertToVault changes))) := by
    simp only [insertToVault, checkInsertion, bind_assoc]
  rw [hbind, insertToVaultTxn]
  cases s.checkInsertion id changes proof <;> rfl

end Storage

end OnionNetwork.Server
