import OnionNetwork.Server.VaultRoot

/-!
# The files of a profile in use

`insert_to_vault`, `read_mail` and `Handle::root` on the files, through the handle that
`get_profile` returns. In the root file the two operations write one nonce each, in
place; the keys, the signatures and the vault root stay as they were written when the
file was made. On the rest they do what `Storage` says (`insertToVault_refines`,
`readMail_refines`).
-/

namespace OnionNetwork.Server

open Chat Lib Directories

variable {cr : Crypto}

namespace Profile

/-- The vault and the mailbox, and the nonces in their places. -/
def Files.withHandle (files : Files cr) (pf : Handle) : Files cr where
  root :=
    { files.root with
      vaultVersion := pf.root.vaultVersion
      mailAction := pf.root.mailAction }
  mailbox := pf.mailbox
  vault := pf.vault

/-- `Storage::insert_to_vault` behind `get_profile`. -/
def Files.insertToVault (files : Files cr) (changes : List (Hash × Bytes))
    (proof : Proof cr Hash) (commits : Bool) : Files cr × Except ChatError Unit :=
  let hashes := Storage.vaultLeaves cr files.handle changes
  if ¬ hashes.length < maxVaultKeyCount then (files, .error .tooManyKeys)
  else if Storage.vaultRoot cr hashes ≠ proof.context then (files, .error .invalidProofContext)
  else
    match files.handle.advanceVaultNonce proof.nonce with
    | .error e => (files, .error e)
    | .ok pf =>
        -- the nonce is on disk when the transaction fails
        if commits then (files.withHandle (pf.insertToVault changes), .ok ())
        else (files.withHandle pf, .error .ise)

/-- `Storage::read_mail` behind `get_profile`. -/
def Files.readMail (files : Files cr) (proof : Proof cr Mail) : Files cr × Except ChatError Bytes :=
  if ¬ proof.verify = true then (files, .error .invalidProof)
  else
    match files.handle.advanceMailNonce proof.nonce with
    | .error e => (files, .error e)
    | .ok pf =>
        let (pf, mail) := pf.readMail
        (files.withHandle pf, .ok mail)

end Profile

namespace Directories

/-- What is done through the handle that `get_profile` returns. -/
def onProfile {α : Type} (s : Directories cr) (id : Identity)
    (use : Profile.Files cr → Profile.Files cr × Except ChatError α) : Outcome cr α :=
  match s.getProfile id with
  | (s, .error e) => (s, .error e)
  | (s, .ok n) =>
      let (files, res) := use (s.profiles.files n)
      (s.writeProfile n fun _ => files, res)

/-- `Storage::insert_to_vault`. -/
def insertToVault (s : Directories cr) (id : Identity) (changes : List (Hash × Bytes))
    (proof : Proof cr Hash) (commits : Bool) : Outcome cr Unit :=
  if ∀ change ∈ changes, change.2.length ≤ maxVaultValueSize then
    s.onProfile id fun files => files.insertToVault changes proof commits
  else (s, .error .valueTooLarge)

/-- `Storage::read_mail`. -/
def readMail (s : Directories cr) (proof : Proof cr Mail) : Outcome cr Bytes :=
  s.onProfile proof.identity fun files => files.readMail proof

/-- The files behind the handle, which `Handle::root` and `Handle::fetch_vault` read. -/
def filesOf (s : Directories cr) (id : Identity) : Option (Profile.Files cr) :=
  match s.getProfile id with
  | (_, .error _) => none
  | (s, .ok n) => some (s.profiles.files n)

/-! ### What they do on disk -/

section Disk

variable {s : Directories cr}

/-- Coherent handles read what is on disk. -/
theorem filesOf_eq (h : s.profiles.Coherent) (id : Identity) : s.filesOf id = s.profileAt id := by
  rcases s.getProfile_cases id with ⟨hhandle, heq⟩ | ⟨n, profiles, hopen, hhandle, heq⟩
  · rw [filesOf, heq, profileAt, ← h id, hhandle]
    rfl
  · obtain ⟨-, -, hfiles, -⟩ := HandleStore.tryGetOrInsert_eq_some hopen
    rw [filesOf, heq, profileAt, ← h id, hhandle]
    simp [hfiles]

/-- A profile that is there is changed, and what another path leads to is not: it is
another directory. -/
theorem onProfile_spec {α : Type} (h : s.profiles.Coherent) (id : Identity)
    (use : Profile.Files cr → Profile.Files cr × Except ChatError α) :
    (s.onProfile id use).1.profiles.Coherent ∧
      (s.onProfile id use).1.profileAt id = (s.profileAt id).map (fun files => (use files).1) ∧
      (s.onProfile id use).2 = match s.profileAt id with
        | none => .error .notFound
        | some files => (use files).2 := by
  rcases s.getProfile_cases id with ⟨hhandle, heq⟩ | ⟨n, profiles, hopen, hhandle, heq⟩
  · have hdisk : s.profiles.dirs id = none := (h id).symm.trans hhandle
    simp only [onProfile, heq]
    exact ⟨h, by simp [profileAt, hdisk], by simp [profileAt, hdisk]⟩
  · obtain ⟨-, hdirs, hfiles, -⟩ := HandleStore.tryGetOrInsert_eq_some hopen
    have hdisk : s.profiles.dirs id = some n := (h id).symm.trans hhandle
    have hcoherent : profiles.Coherent := HandleStore.coherent_open h hopen
    simp only [onProfile, heq]
    refine ⟨hcoherent, ?_, ?_⟩
    · simp [profileAt, writeProfile, HandleStore.write, hdirs, hdisk, hfiles]
    · simp [profileAt, hdisk, hfiles]

/-- `create_profile` makes the files of a profile that is not there, from a valid proof of
the nonce 0 over the zero digest, or changes nothing. -/
theorem createProfile_spec (h : s.profiles.Coherent) (proof : Proof cr Hash) (enc : Bytes) :
    (s.createProfile proof enc).1.profiles.Coherent ∧
      ((proof.nonce = 0 ∧ proof.context = 0 ∧ s.profileAt proof.identity = none ∧
          proof.verify = true ∧ (s.createProfile proof enc).1.profileAt proof.identity =
            some ⟨newRoot proof enc, [], SortedMap.empty⟩) ∨
        (¬ (proof.nonce = 0 ∧ proof.context = 0 ∧ s.profileAt proof.identity = none ∧
          proof.verify = true) ∧ (s.createProfile proof enc).1 = s)) := by
  have hdisk : s.profileAt proof.identity = none ↔ s.profiles.dirs proof.identity = none :=
    Option.map_eq_none_iff
  rcases createProfile_cases h proof enc with ⟨e, hcheck, heq⟩ | ⟨hcheck, hnone, heq⟩
  · rw [heq]
    refine ⟨h, .inr ⟨fun hmeets => ?_, rfl⟩⟩
    rw [hdisk] at hmeets
    rw [checkCreation_eq_ok (u := ()).mpr hmeets] at hcheck
    cases hcheck
  · obtain ⟨hnonce, hcontext, hnew, hverify⟩ := checkCreation_eq_ok.mp hcheck
    rw [heq]
    refine ⟨(HandleStore.coherent_create_iff h _).mpr hnone,
      .inl ⟨hnonce, hcontext, hdisk.mpr hnew, hverify, ?_⟩⟩
    rw [profileAt, HandleStore.dirs_create_self, Option.map_some, HandleStore.files_create_self]

/-! ### What `Storage` says -/

@[simp] theorem handle_withHandle (files : Profile.Files cr) (pf : Profile.Handle) :
    (files.withHandle pf).handle = pf := rfl

variable {t : Storage} {id : Identity}

/-- The vault, the mailbox and the nonces are changed as in the model without files. -/
theorem insertToVault_refines (h : s.profiles.Coherent)
    (ht : t.profiles id = (s.profileAt id).map Profile.Files.handle)
    (changes : List (Hash × Bytes)) (proof : Proof cr Hash) (commits : Bool) :
    (t.insertToVaultTxn id changes proof commits).1.profiles id =
        ((s.insertToVault id changes proof commits).1.profileAt id).map Profile.Files.handle ∧
      (t.insertToVaultTxn id changes proof commits).2 =
        (s.insertToVault id changes proof commits).2 := by
  by_cases hsmall : ∀ change ∈ changes, change.2.length ≤ maxVaultValueSize
  · obtain ⟨-, hfiles, hres⟩ := onProfile_spec h id fun files =>
      files.insertToVault changes proof commits
    rw [insertToVault, if_pos hsmall, hfiles, hres]
    cases hdisk : s.profileAt id with
    | none =>
        rw [hdisk] at ht
        simp only [Storage.insertToVaultTxn, Storage.checkInsertion, ensure_of hsmall,
          Storage.getProfile, ht, Option.map_none, bind, Except.bind, and_self]
    | some files =>
        rw [hdisk] at ht
        simp only [Storage.insertToVaultTxn, Storage.checkInsertion, ensure_of hsmall,
          Storage.getProfile, ht, Option.map_some, bind, Except.bind, Profile.Files.insertToVault]
        by_cases hfew : (Storage.vaultLeaves cr files.handle changes).length < maxVaultKeyCount
        · by_cases hroot : Storage.vaultRoot cr (Storage.vaultLeaves cr files.handle changes) =
              proof.context
          · rw [if_neg (not_not.mpr hfew), if_neg (not_not.mpr hroot)]
            simp only [ensure_of hfew, ensure_of hroot]
            cases hadvance : files.handle.advanceVaultNonce proof.nonce with
            | error e => simp [ht]
            | ok pf => cases commits <;> simp
          · simp [ensure, hfew, hroot, ht]
        · simp [ensure, hfew, ht]
  · rw [insertToVault, if_neg hsmall]
    have hcheck : t.checkInsertion id changes proof = .error .valueTooLarge := by
      simp only [Storage.checkInsertion, ensure, if_neg hsmall, bind, Except.bind]
    simp only [Storage.insertToVaultTxn, hcheck]
    exact ⟨ht, trivial⟩

/-- So is the mail read. -/
theorem readMail_refines (h : s.profiles.Coherent) (proof : Proof cr Mail)
    (ht : t.profiles proof.identity = (s.profileAt proof.identity).map Profile.Files.handle) :
    match t.readMail proof with
    | .ok (t', mail) => (s.readMail proof).2 = .ok mail ∧ t'.profiles proof.identity =
        ((s.readMail proof).1.profileAt proof.identity).map Profile.Files.handle
    | .error e => (s.readMail proof).2 = .error e ∧
        (s.readMail proof).1.profileAt proof.identity = s.profileAt proof.identity := by
  obtain ⟨-, hfiles, hres⟩ := onProfile_spec h proof.identity fun files => files.readMail proof
  rw [readMail, hfiles, hres]
  cases hdisk : s.profileAt proof.identity with
  | none =>
      rw [hdisk] at ht
      simp only [Storage.readMail, Storage.getProfile, ht, Option.map_none, bind, Except.bind,
        and_self]
  | some files =>
      rw [hdisk] at ht
      simp only [Storage.readMail, Storage.getProfile, ht, Option.map_some, bind, Except.bind,
        Profile.Files.readMail]
      by_cases hverify : proof.verify = true
      · rw [if_neg (not_not.mpr hverify)]
        simp only [ensure_of hverify]
        cases hadvance : files.handle.advanceMailNonce proof.nonce with
        | error e => simp
        | ok pf => simp
      · simp [ensure, hverify]

end Disk

end Directories

end OnionNetwork.Server
