import OnionNetwork.Server.Handle
import OnionNetwork.Merkle.Tree

/-!
# Profiles and their vaults

The part of `storage::profile` and `storage` that answers `insert_to_vault` and
`read_mail`. A vault is an LMDB database from hashes to byte strings, a profile
keeps one nonce for it and one for the mailbox. The two handlers authorise
differently: `read_mail` checks the signature and looks the profile up by the
signer, `insert_to_vault` does neither (`insertToVault_eq_ok`).
-/

namespace OnionNetwork.Server

open Chat Lib Merkle

/-- `chat_spec::Mail`: the context that stands for `rpcs::SEND_MAIL`. -/
structure Mail where
  deriving DecidableEq

instance : Encode Mail := ⟨fun _ => base128Encode 13⟩

namespace Profile

/-- `storage::profile::Root`, the two nonces. -/
structure Root where
  vaultVersion : Nonce
  mailAction : Nonce
  deriving DecidableEq

/-- `storage::profile::Handle`. -/
structure Handle where
  vault : SortedMap Hash Bytes
  root : Root
  mailbox : Bytes

namespace Handle

/-- `Handle::vault_hashes`, in key order. -/
def vaultHashes (cr : Crypto) (pf : Handle) : List (Hash × Hash) :=
  pf.vault.entries.map fun entry => (entry.1, cr.kv entry.1 entry.2)

/-- `Handle::insert_to_vault`: later changes to a key win. -/
def insertToVault (pf : Handle) (changes : List (Hash × Bytes)) : Handle :=
  { pf with vault := changes.foldl (fun vault change => vault.put change.1 change.2) pf.vault }

/-- `Handle::advance_vault_nonce`. -/
def advanceVaultNonce (pf : Handle) (newNonce : Nonce) : Except ChatError Handle :=
  if newNonce ≤ pf.root.vaultVersion then .error (.invalidAction newNonce)
  else .ok { pf with root := { pf.root with vaultVersion := newNonce } }

/-- `Handle::advance_mail_nonce`. -/
def advanceMailNonce (pf : Handle) (newNonce : Nonce) : Except ChatError Handle :=
  if newNonce ≤ pf.root.mailAction then .error (.invalidAction newNonce)
  else .ok { pf with root := { pf.root with mailAction := newNonce } }

/-- The nonce only grows. -/
theorem advanceVaultNonce_eq_ok {pf pf' : Handle} {newNonce : Nonce} :
    pf.advanceVaultNonce newNonce = .ok pf' ↔ pf.root.vaultVersion < newNonce ∧
      pf' = { pf with root := { pf.root with vaultVersion := newNonce } } := by
  unfold advanceVaultNonce
  by_cases hle : newNonce ≤ pf.root.vaultVersion
  · simp [hle]
  · simp [hle, Nat.lt_of_not_le hle, eq_comm]

/-- `Handle::read_mail`: the mailbox, which is emptied. -/
def readMail (pf : Handle) : Handle × Bytes :=
  ({ pf with mailbox := [] }, pf.mailbox)

end Handle

end Profile

/-- `storage::Storage`: the profiles and the chats this server replicates. -/
structure Storage where
  profiles : Identity → Option Profile.Handle
  chats : ChatName → Option Handle

namespace Storage

variable {cr : Crypto}

/-- `Storage::get_profile`. -/
def getProfile (s : Storage) (id : Identity) : Except ChatError Profile.Handle :=
  match s.profiles id with
  | some pf => .ok pf
  | none => .error .notFound

def setProfile (s : Storage) (id : Identity) (pf : Profile.Handle) : Storage :=
  { s with profiles := Function.update s.profiles id (some pf) }

/-- The leaves of the vault after the changes: the kept entries, then the
changed ones as listed; sorted and without repetitions. -/
def vaultLeaves (cr : Crypto) (pf : Profile.Handle) (changes : List (Hash × Bytes)) : List Hash :=
  (pf.vaultHashes cr).filterMap (fun (k, hash) =>
      if changes.all fun change => k != change.1 then some hash else none) ++
    changes.map fun (k, val) => cr.kv k val

/-- The changes, and the entries of which none is a change. -/
theorem mem_vaultLeaves {pf : Profile.Handle} {changes : List (Hash × Bytes)} {h : Hash} :
    h ∈ vaultLeaves cr pf changes ↔ ∃ k value,
      ((k, value) ∈ changes ∨ pf.vault.get k = some value ∧ ∀ w, (k, w) ∉ changes) ∧
        h = cr.kv k value := by
  have hkept : ∀ k, (changes.all fun change => k != change.1) = true ↔ ∀ w, (k, w) ∉ changes := by
    intro k
    rw [List.all_eq_true]
    constructor
    · intro hall w hin
      have hne := hall (k, w) hin
      simp at hne
    · intro hall change hin
      rw [bne_iff_ne]
      rintro rfl
      exact hall change.2 hin
  simp only [vaultLeaves, Profile.Handle.vaultHashes, List.mem_append,
    List.mem_filterMap, List.mem_map]
  constructor
  · rintro (⟨e, ⟨⟨k, value⟩, hentry, rfl⟩, hif⟩ | ⟨⟨k, value⟩, hin, rfl⟩)
    · have hif : (if (changes.all fun change => k != change.1) = true then some (cr.kv k value)
          else none) = some h := hif
      by_cases hall : (changes.all fun change => k != change.1) = true
      · rw [if_pos hall] at hif
        exact ⟨k, value, .inr ⟨pf.vault.mem_entries_iff.mp hentry, (hkept k).mp hall⟩,
          (Option.some.inj hif).symm⟩
      · rw [if_neg hall] at hif
        cases hif
    · exact ⟨k, value, .inl hin, rfl⟩
  · rintro ⟨k, value, hin | ⟨hget, hnone⟩, rfl⟩
    · exact .inr ⟨(k, value), hin, rfl⟩
    · exact .inl ⟨(k, cr.kv k value), ⟨(k, value), pf.vault.mem_entries_iff.mpr hget, rfl⟩,
        if_pos ((hkept k).mpr hnone)⟩

/-- The root `insert_to_vault` compares the context of the proof with. -/
def vaultRoot (cr : Crypto) (leaves : List Hash) : Hash :=
  (MerkleTree.fromBase (hashMerkle cr) (leaves.insertionSort (· ≤ ·)).eraseReps).root

/-- `Storage::insert_to_vault`. -/
def insertToVault (s : Storage) (id : Identity) (changes : List (Hash × Bytes))
    (proof : Proof cr Hash) : Except ChatError Storage := do
  ensure (∀ change ∈ changes, change.2.length ≤ maxVaultValueSize) .valueTooLarge
  let pf ← s.getProfile id
  let hashes := vaultLeaves cr pf changes
  ensure (hashes.length < maxVaultKeyCount) .tooManyKeys
  ensure (vaultRoot cr hashes = proof.context) .invalidProofContext
  let pf ← pf.advanceVaultNonce proof.nonce
  .ok (s.setProfile id (pf.insertToVault changes))

/-- `Storage::read_mail`. -/
def readMail (s : Storage) (proof : Proof cr Mail) : Except ChatError (Storage × Bytes) := do
  let pf ← s.getProfile proof.identity
  ensure (proof.verify = true) .invalidProof
  let pf ← pf.advanceMailNonce proof.nonce
  let (pf, mail) := pf.readMail
  .ok (s.setProfile proof.identity pf, mail)

@[simp] theorem setProfile_self (s : Storage) (id : Identity) (pf : Profile.Handle) :
    (s.setProfile id pf).profiles id = some pf := by
  simp [setProfile]

theorem setProfile_ne (s : Storage) {id id' : Identity} (h : id' ≠ id) (pf : Profile.Handle) :
    (s.setProfile id pf).profiles id' = s.profiles id' := by
  simp [setProfile, h]

theorem getProfile_eq_ok {s : Storage} {id : Identity} {pf : Profile.Handle} :
    s.getProfile id = .ok pf ↔ s.profiles id = some pf := by
  unfold getProfile
  split <;> simp_all

/-- What `insert_to_vault` checks: the value sizes, the profile, the number of
keys, the new root against the context, and the nonce. -/
structure MeetsVaultChecks (s : Storage) (id : Identity) (changes : List (Hash × Bytes))
    (proof : Proof cr Hash) (pf : Profile.Handle) : Prop where
  small : ∀ change ∈ changes, change.2.length ≤ maxVaultValueSize
  found : s.profiles id = some pf
  few : (vaultLeaves cr pf changes).length < maxVaultKeyCount
  root : vaultRoot cr (vaultLeaves cr pf changes) = proof.context
  fresh : pf.root.vaultVersion < proof.nonce

/-- The profile after an accepted insertion. -/
def inserted (pf : Profile.Handle) (changes : List (Hash × Bytes)) (nonce : Nonce) :
    Profile.Handle :=
  Profile.Handle.insertToVault { pf with root := { pf.root with vaultVersion := nonce } } changes

/-- An insertion is accepted exactly when its checks pass; who signed the proof
is not among them. -/
theorem insertToVault_eq_ok {s s' : Storage} {id : Identity} {changes : List (Hash × Bytes)}
    {proof : Proof cr Hash} :
    s.insertToVault id changes proof = .ok s' ↔
      ∃ pf, MeetsVaultChecks s id changes proof pf ∧
        s' = s.setProfile id (inserted pf changes proof.nonce) := by
  simp only [insertToVault, bind_eq_ok, ensure_eq_ok, exists_const, getProfile_eq_ok,
    Profile.Handle.advanceVaultNonce_eq_ok, Except.ok.injEq]
  constructor
  · rintro ⟨hsmall, pf, hfound, hfew, hroot, pf', ⟨hfresh, rfl⟩, rfl⟩
    exact ⟨pf, ⟨hsmall, hfound, hfew, hroot, hfresh⟩, rfl⟩
  · rintro ⟨pf, ⟨hsmall, hfound, hfew, hroot, hfresh⟩, rfl⟩
    exact ⟨hsmall, pf, hfound, hfew, hroot, _, ⟨hfresh, rfl⟩, rfl⟩

/-- With the right root the context is not what an insertion is refused for. -/
theorem insertToVault_ne_invalidProofContext {s : Storage} {id : Identity}
    {changes : List (Hash × Bytes)} {proof : Proof cr Hash} {pf : Profile.Handle}
    (hpf : s.profiles id = some pf)
    (hroot : vaultRoot cr (vaultLeaves cr pf changes) = proof.context) :
    s.insertToVault id changes proof ≠ .error .invalidProofContext := by
  refine bind_ne_error (ensure_ne_error (.inl (by simp))) fun _ _ => ?_
  have hget : s.getProfile id = .ok pf := getProfile_eq_ok.mpr hpf
  refine bind_ne_error (by simp [hget]) fun pf' hpf' => ?_
  obtain rfl := Except.ok.inj (hget.symm.trans hpf')
  refine bind_ne_error (ensure_ne_error (.inl (by simp))) fun _ _ => ?_
  refine bind_ne_error (ensure_ne_error (.inr hroot)) fun _ _ => ?_
  refine bind_ne_error ?_ fun pf' _ heq => by cases heq
  unfold Profile.Handle.advanceVaultNonce
  split
  · simp
  · simp

/-- Mail is handed out only against a valid proof of the profile's owner. -/
theorem readMail_authorised {s : Storage} {proof : Proof cr Mail} {res : Storage × Bytes}
    (h : s.readMail proof = .ok res) :
    proof.verify = true ∧ ∀ id ≠ proof.identity, res.1.profiles id = s.profiles id := by
  simp only [readMail, bind_eq_ok, ensure_eq_ok, exists_const] at h
  obtain ⟨pf, -, hverify, pf', -, hres⟩ := h
  obtain rfl := Except.ok.inj hres
  exact ⟨hverify, fun id hne => setProfile_ne s hne _⟩

end Storage

end OnionNetwork.Server
