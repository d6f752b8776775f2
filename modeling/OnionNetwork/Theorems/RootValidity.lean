import OnionNetwork.Lib.Machine
import OnionNetwork.Server.ProfileFiles
import OnionNetwork.Theorems.Handles

/-!
# A stored root and its signatures

`create_profile` stores its one signature, over the nonce 0 and the zero digest, also as
the signature of the mailbox nonce; an insertion and a reading of mail move a nonce and
keep the signatures. `root_recoverable_iff`: in a run of the owner's requests the stored
root is valid in every state exactly when no request of the run makes the profile. The
mailbox half is never valid, and the vault half is until the first insertion.
-/

namespace OnionNetwork.Server

open Chat Lib Directories

variable {cr : Crypto}

/-- A request of the owner, whose proof `Proof::new` makes. -/
inductive OwnerRequest (cr : Crypto)
  | createProfile (nonce : Nonce) (context : Hash) (rng : cr.Rng) (enc : Bytes)
  | insertToVault (changes : List (Hash × Bytes)) (nonce : Nonce) (context : Hash) (rng : cr.Rng)
      (commits : Bool)
  | readMail (nonce : Nonce) (rng : cr.Rng)

namespace OwnerRequest

/-- The nonce of the proof. -/
def nonce : OwnerRequest cr → Nonce
  | createProfile nonce _ _ _ => nonce
  | insertToVault _ nonce _ _ _ => nonce
  | readMail nonce _ => nonce

/-- The request makes the profile, if there is none. -/
def Creates : OwnerRequest cr → Prop
  | createProfile nonce context _ _ => nonce = 0 ∧ context = 0
  | insertToVault .. | readMail .. => False

end OwnerRequest

/-- The byte strings that are hashed for the owner's signatures with these nonces, over
the zero digest and over the mailbox. -/
def signedStrings (nonces : List Nonce) : List Bytes :=
  nonces.flatMap fun nonce =>
    [base128Encode nonce ++ Encode.encode (0 : Hash),
      base128Encode nonce ++ Encode.encode ({} : Mail)]

/-- A key signs what it is asked to, and nothing else verifies. -/
def SignsOnly (cr : Crypto) (kp : cr.Keypair) : Prop :=
  ∀ message message' rng,
    cr.verify (cr.publicKey kp) message' (cr.sign kp message rng) = true ↔ message' = message

namespace Directories

/-- One request of the owner of the key. -/
def serveOwner (kp : cr.Keypair) (s : Directories cr) : OwnerRequest cr → Outcome cr Unit
  | .createProfile nonce context rng enc =>
      s.createProfile (Proof.new kp nonce context rng).1 enc
  | .insertToVault changes nonce context rng commits =>
      s.insertToVault (cr.identity (cr.publicKey kp)) changes (Proof.new kp nonce context rng).1
        commits
  | .readMail nonce rng =>
      let (s, res) := s.readMail (Proof.new kp nonce ({} : Mail) rng).1
      (s, res.map fun _ => ())

/-- The storage under the requests of one owner. -/
def ownerMachine (kp : cr.Keypair) :
    Machine (Directories cr) (OwnerRequest cr) (Except ChatError Unit) :=
  ⟨serveOwner kp⟩

/-- The vault half of a root: its signature, and its root. -/
def VaultHalf (files : Profile.Files cr) : Prop :=
  files.root.vaultProof.verify = true ∧ files.root.vaultRoot = storedRoot cr files.vault

/-- What another replica checks before it takes the profile over: the root that
`Handle::root` reads is valid, and describes the stored vault. -/
def Recoverable (s : Directories cr) (id : Identity) : Prop :=
  ∀ files, s.filesOf id = some files →
    files.root.isValid = true ∧ files.root.vaultRoot = storedRoot cr files.vault

/-! ### The files of one owner -/

/-- The files as the key made them, with the nonces that were used since. -/
structure MadeBy (kp : cr.Keypair) (nonces : List Nonce) (files : Profile.Files cr) : Prop where
  sign : files.root.sign = cr.publicKey kp
  vaultSig : ∃ rng, files.root.vaultSig =
    cr.sign kp (Proof.packPayload cr 0 (0 : Hash)).toBytes rng
  mailSig : ∃ rng, files.root.mailSig = cr.sign kp (Proof.packPayload cr 0 (0 : Hash)).toBytes rng
  vaultRoot : files.root.vaultRoot = 0
  vaultVersion : files.root.vaultVersion ∈ nonces
  mailAction : files.root.mailAction ∈ nonces
  unused : files.root.vaultVersion = 0 → files.vault = SortedMap.empty

section Files

variable {kp : cr.Keypair} {nonces : List Nonce} {files : Profile.Files cr}

theorem madeBy_new (hzero : 0 ∈ nonces) (rng : cr.Rng) (enc : Bytes) :
    MadeBy kp nonces
      ⟨newRoot (Proof.new kp 0 (0 : Hash) rng).1 enc, [], SortedMap.empty⟩ where
  sign := rfl
  vaultSig := ⟨rng, rfl⟩
  mailSig := ⟨rng, rfl⟩
  vaultRoot := rfl
  vaultVersion := hzero
  mailAction := hzero
  unused _ := rfl

/-- Nothing but the nonces and the vault changes, and the vault with its nonce. -/
theorem MadeBy.withHandle (h : MadeBy kp nonces files) {pf : Profile.Handle}
    (hversion : pf.root.vaultVersion ∈ nonces) (haction : pf.root.mailAction ∈ nonces)
    (hunused : pf.root.vaultVersion = 0 → pf.vault = SortedMap.empty) :
    MadeBy kp nonces (files.withHandle pf) :=
  ⟨h.sign, h.vaultSig, h.mailSig, h.vaultRoot, hversion, haction, hunused⟩

theorem MadeBy.insertToVault (h : MadeBy kp nonces files) (changes : List (Hash × Bytes))
    {proof : Proof cr Hash} (hnonce : proof.nonce ∈ nonces) (commits : Bool) :
    MadeBy kp nonces (files.insertToVault changes proof commits).1 := by
  simp only [Profile.Files.insertToVault]
  split
  · exact h
  · split
    · exact h
    · cases hadvance : files.handle.advanceVaultNonce proof.nonce with
      | error e => exact h
      | ok pf =>
          obtain ⟨hfresh, rfl⟩ := Profile.Handle.advanceVaultNonce_eq_ok.mp hadvance
          -- the new version is not 0
          have hused : proof.nonce ≠ 0 := Nat.ne_of_gt (Nat.zero_lt_of_lt hfresh)
          cases commits with
          | true => exact h.withHandle hnonce h.mailAction fun hzero => absurd hzero hused
          | false => exact h.withHandle hnonce h.mailAction fun hzero => absurd hzero hused

theorem MadeBy.readMail (h : MadeBy kp nonces files) {proof : Proof cr Mail}
    (hnonce : proof.nonce ∈ nonces) : MadeBy kp nonces (files.readMail proof).1 := by
  simp only [Profile.Files.readMail]
  split
  · exact h
  · cases hadvance : files.handle.advanceMailNonce proof.nonce with
    | error e => exact h
    | ok pf =>
        have hpf : pf = { files.handle with
            root := { files.handle.root with mailAction := proof.nonce } } := by
          unfold Profile.Handle.advanceMailNonce at hadvance
          split at hadvance
          · cases hadvance
          · exact (Except.ok.inj hadvance).symm
        rw [hpf]
        exact h.withHandle h.vaultVersion hnonce h.unused

variable (hsign : SignsOnly cr kp)
  (hinj : Set.InjOn cr.blake3 {b | b ∈ signedStrings nonces}) (hzero : 0 ∈ nonces)

include hsign hinj hzero

/-- Of the owner's payloads the signature made at the creation verifies only that one. -/
theorem verify_first {T : Type} [Encode T] {nonce : Nonce} {context : T} (rng : cr.Rng)
    (hin : base128Encode nonce ++ Encode.encode context ∈ signedStrings nonces) :
    cr.verify (cr.publicKey kp) (Proof.packPayload cr nonce context).toBytes
        (cr.sign kp (Proof.packPayload cr 0 (0 : Hash)).toBytes rng) = true ↔
      nonce = 0 ∧ Encode.encode context = Encode.encode (0 : Hash) := by
  have hfirst : base128Encode 0 ++ Encode.encode (0 : Hash) ∈ signedStrings nonces :=
    List.mem_flatMap.mpr ⟨0, hzero, List.mem_cons_self⟩
  rw [hsign]
  constructor
  · intro h
    exact base128Encode_append_inj (hinj hin hfirst (Hash.toBytes_injective h))
  · rintro ⟨rfl, hcontext⟩
    rw [Proof.packPayload, Proof.packPayload, hcontext]

/-- The signature of the mailbox nonce does not verify. -/
theorem MadeBy.mail_invalid (h : MadeBy kp nonces files) :
    files.root.mailProof.verify = false := by
  obtain ⟨rng, hsig⟩ := h.mailSig
  have hin : base128Encode files.root.mailAction ++ Encode.encode ({} : Mail) ∈
      signedStrings nonces :=
    List.mem_flatMap.mpr ⟨_, h.mailAction, List.mem_cons_of_mem _ List.mem_cons_self⟩
  have hverify := verify_first hsign hinj hzero rng hin
  rw [Bool.eq_false_iff]
  intro hvalid
  have hvalid : cr.verify files.root.sign
      (Proof.packPayload cr files.root.mailAction ({} : Mail)).toBytes files.root.mailSig = true :=
    hvalid
  rw [h.sign, hsig] at hvalid
  have hlength := congrArg List.length (hverify.mp hvalid).2
  simp [Encode.encode, base128Encode_of_lt] at hlength

/-- The vault half is right as long as the vault was not changed. -/
theorem MadeBy.vaultHalf_iff (h : MadeBy kp nonces files) :
    VaultHalf files ↔ files.root.vaultVersion = 0 := by
  obtain ⟨rng, hsig⟩ := h.vaultSig
  have hin : base128Encode files.root.vaultVersion ++ Encode.encode (0 : Hash) ∈
      signedStrings nonces := List.mem_flatMap.mpr ⟨_, h.vaultVersion, List.mem_cons_self⟩
  have hverify := verify_first hsign hinj hzero rng hin
  have hproof : files.root.vaultProof.verify = true ↔ files.root.vaultVersion = 0 := by
    show cr.verify files.root.sign
      (Proof.packPayload cr files.root.vaultVersion files.root.vaultRoot).toBytes
        files.root.vaultSig = true ↔ _
    rw [h.sign, hsig, h.vaultRoot, hverify, and_iff_left rfl]
  rw [VaultHalf, hproof, and_iff_left_iff_imp]
  intro hversion
  rw [h.unused hversion, h.vaultRoot]
  exact storedRoot_empty.symm

end Files

/-! ### Runs -/

/-- What holds in every state of a run: the handles read what is on disk, and the owner's
files are as the key made them. -/
structure Kept (kp : cr.Keypair) (nonces : List Nonce) (s : Directories cr) : Prop where
  coherent : s.profiles.Coherent
  made : ∀ files, s.profileAt (cr.identity (cr.publicKey kp)) = some files →
    MadeBy kp nonces files

section Run

variable {kp : cr.Keypair} {nonces : List Nonce} {s : Directories cr}

/-- The owner's profile is there. -/
def IsMade (kp : cr.Keypair) (s : Directories cr) : Prop :=
  s.profileAt (cr.identity (cr.publicKey kp)) ≠ none

/-- What is done to the files that are there. -/
theorem Kept.onProfile {α : Type} (h : Kept kp nonces s)
    {use : Profile.Files cr → Profile.Files cr × Except ChatError α}
    (huse : ∀ files, MadeBy kp nonces files → MadeBy kp nonces (use files).1) :
    Kept kp nonces (s.onProfile (cr.identity (cr.publicKey kp)) use).1 ∧
      (IsMade kp (s.onProfile (cr.identity (cr.publicKey kp)) use).1 ↔ IsMade kp s) := by
  obtain ⟨hcoherent, hfiles, -⟩ := onProfile_spec h.coherent (cr.identity (cr.publicKey kp)) use
  refine ⟨⟨hcoherent, fun files hdisk => ?_⟩, ?_⟩
  · rw [hfiles] at hdisk
    obtain ⟨before, hbefore, rfl⟩ := Option.map_eq_some_iff.mp hdisk
    exact huse before (h.made before hbefore)
  · rw [IsMade, IsMade, hfiles, Ne, Ne, Option.map_eq_none_iff]

/-- **One request** keeps the files as they were made, and makes them if it is one that
creates. -/
theorem serveOwner_step (hsign : SignsOnly cr kp) (hzero : 0 ∈ nonces) (h : Kept kp nonces s)
    (r : OwnerRequest cr) (hnonce : r.nonce ∈ nonces) :
    Kept kp nonces (s.serveOwner kp r).1 ∧
      (IsMade kp (s.serveOwner kp r).1 ↔ IsMade kp s ∨ r.Creates) := by
  cases r with
  | createProfile nonce context rng enc =>
      obtain ⟨hcoherent, hspec⟩ := createProfile_spec h.coherent
        (Proof.new kp nonce context rng).1 enc
      have hverify : (Proof.new kp nonce context rng : Proof cr Hash × Nonce).1.verify = true :=
        (hsign _ _ rng).mpr rfl
      rcases hspec with ⟨hfirst, hcontext, -, -, hdisk⟩ | ⟨hnot, hsame⟩
      · obtain rfl : nonce = 0 := hfirst
        obtain rfl : context = 0 := hcontext
        refine ⟨⟨hcoherent, fun files hfiles => ?_⟩, iff_of_true ?_ (.inr ⟨rfl, rfl⟩)⟩
        · obtain rfl := Option.some.inj (hdisk.symm.trans hfiles)
          exact madeBy_new hzero rng enc
        · show Directories.profileAt _ _ ≠ none
          exact ne_of_eq_of_ne hdisk (Option.some_ne_none _)
      · have hsame : (s.serveOwner kp (.createProfile nonce context rng enc)).1 = s := hsame
        rw [hsame]
        refine ⟨h, ⟨.inl, fun hor => hor.elim id ?_⟩⟩
        rintro ⟨rfl, rfl⟩ hnone
        exact hnot ⟨rfl, rfl, hnone, hverify⟩
  | insertToVault changes nonce context rng commits =>
      show Kept kp nonces (s.insertToVault _ changes _ commits).1 ∧
        (IsMade kp (s.insertToVault _ changes _ commits).1 ↔ IsMade kp s ∨ False)
      rw [or_false, insertToVault]
      split
      · exact h.onProfile fun files hfiles => hfiles.insertToVault changes hnonce commits
      · exact ⟨h, Iff.rfl⟩
  | readMail nonce rng =>
      show Kept kp nonces (s.readMail _).1 ∧ (IsMade kp (s.readMail _).1 ↔ IsMade kp s ∨ False)
      rw [or_false]
      exact h.onProfile fun files hfiles => hfiles.readMail hnonce

/-- A run keeps the files, and they are there if a request creates them. -/
theorem ownerMachine_run (hsign : SignsOnly cr kp) (hzero : 0 ∈ nonces) (h : Kept kp nonces s)
    {rs : List (OwnerRequest cr)} (hnonces : ∀ r ∈ rs, r.nonce ∈ nonces) :
    Kept kp nonces ((ownerMachine kp).run s rs) ∧
      (IsMade kp ((ownerMachine kp).run s rs) ↔ IsMade kp s ∨ ∃ r ∈ rs, r.Creates) := by
  induction rs generalizing s with
  | nil => exact ⟨h, by simp⟩
  | cons r rs ih =>
      obtain ⟨hr, hrs⟩ := List.forall_mem_cons.mp hnonces
      obtain ⟨hkept, hexists⟩ := serveOwner_step hsign hzero h r hr
      obtain ⟨hkept', hexists'⟩ := ih hkept hrs
      refine ⟨hkept', hexists'.trans ?_⟩
      show IsMade kp (s.serveOwner kp r).1 ∨ _ ↔ _
      rw [hexists, or_assoc, List.exists_mem_cons_iff]

end Run

/-- **The stored root.** From a storage without the profile, and coherent handles, in every
state of a run of the owner's requests the stored root is valid and describes the stored
vault exactly when no request of the run makes the profile. As soon as it is there, the
signature of the mailbox nonce is not valid, and the vault half is exactly as long as no
insertion has moved the vault nonce. -/
theorem root_recoverable_iff (kp : cr.Keypair) (s : Directories cr)
    (rs : List (OwnerRequest cr)) (hsign : SignsOnly cr kp)
    (hinj : Set.InjOn cr.blake3 {b | b ∈ signedStrings (0 :: rs.map OwnerRequest.nonce)})
    (hcoherent : s.profiles.Coherent) (hnew : ¬ IsMade kp s) :
    ((∀ pre post, rs = pre ++ post →
        Recoverable ((ownerMachine kp).run s pre) (cr.identity (cr.publicKey kp))) ↔
      ∀ r ∈ rs, ¬ r.Creates) ∧
    ∀ pre post files, rs = pre ++ post →
      ((ownerMachine kp).run s pre).filesOf (cr.identity (cr.publicKey kp)) = some files →
        files.root.mailProof.verify = false ∧
          (VaultHalf files ↔ files.root.vaultVersion = 0) := by
  have hstart : Kept kp (0 :: rs.map OwnerRequest.nonce) s :=
    ⟨hcoherent, fun files hfiles => absurd (ne_of_eq_of_ne hfiles (Option.some_ne_none _)) hnew⟩
  have hzero : 0 ∈ 0 :: rs.map OwnerRequest.nonce := List.mem_cons_self
  have hrun : ∀ pre post, rs = pre ++ post →
      Kept kp (0 :: rs.map OwnerRequest.nonce) ((ownerMachine kp).run s pre) ∧
        (IsMade kp ((ownerMachine kp).run s pre) ↔ IsMade kp s ∨ ∃ r ∈ pre, r.Creates) := by
    intro pre post hsplit
    refine ownerMachine_run hsign hzero hstart fun r hr => List.mem_cons_of_mem _ ?_
    exact List.mem_map_of_mem (hsplit ▸ List.mem_append_left _ hr)
  have hstored : ∀ pre post files, rs = pre ++ post →
      ((ownerMachine kp).run s pre).filesOf (cr.identity (cr.publicKey kp)) = some files →
        MadeBy kp (0 :: rs.map OwnerRequest.nonce) files := by
    intro pre post files hsplit hfiles
    obtain ⟨hkept, -⟩ := hrun pre post hsplit
    rw [filesOf_eq hkept.coherent] at hfiles
    exact hkept.made files hfiles
  refine ⟨⟨fun hall r hr hcreates => ?_, fun hnone pre post hsplit files hfiles => ?_⟩,
    fun pre post files hsplit hfiles => ?_⟩
  · -- at the end of the run the profile is there
    obtain ⟨hkept, hexists⟩ := hrun rs [] (List.append_nil rs).symm
    obtain ⟨files, hfiles⟩ :=
      Option.ne_none_iff_exists'.mp (hexists.mpr (.inr ⟨r, hr, hcreates⟩))
    rw [← filesOf_eq hkept.coherent] at hfiles
    have hvalid := (hall rs [] (List.append_nil rs).symm files hfiles).1
    have hmail :=
      (hstored rs [] files (List.append_nil rs).symm hfiles).mail_invalid hsign hinj hzero
    rw [Profile.RootFile.isValid, hmail] at hvalid
    cases hvalid
  · -- it never is
    obtain ⟨hkept, hexists⟩ := hrun pre post hsplit
    rw [filesOf_eq hkept.coherent] at hfiles
    rcases hexists.mp (ne_of_eq_of_ne hfiles (Option.some_ne_none _)) with hold | ⟨r, hr, hcreates⟩
    · exact absurd hold hnew
    · exact absurd hcreates (hnone r (hsplit ▸ List.mem_append_left _ hr))
  · -- the mailbox half is never signed for, the vault half only for the first nonce
    have hmade := hstored pre post files hsplit hfiles
    exact ⟨hmade.mail_invalid hsign hinj hzero, hmade.vaultHalf_iff hsign hinj hzero⟩

/-- Nothing on disk. -/
def unused : Directories Crypto.mixed := fresh ⟨newRoot (Proof.mixed 7 0 0) [], [], SortedMap.empty⟩

/-- The key 7 makes its profile, writes to its vault and reads its mail. -/
def ownerRun : List (OwnerRequest Crypto.mixed) :=
  [.createProfile 0 0 () [], .insertToVault [(1, [1])] 1 (Crypto.mixed.kv 1 [1]) () true,
    .readMail 1 ()]

/-- In this run the mailbox half is never valid, and the vault half is until the write. -/
theorem ownerRun_halves :
    ((∀ pre post, ownerRun = pre ++ post →
        Recoverable ((ownerMachine (7 : Hash)).run unused pre)
          (Crypto.mixed.identity (7 : Hash))) ↔ ∀ r ∈ ownerRun, ¬ r.Creates) ∧
    ∀ pre post files, ownerRun = pre ++ post →
      ((ownerMachine (7 : Hash)).run unused pre).filesOf (Crypto.mixed.identity (7 : Hash)) =
        some files →
        files.root.mailProof.verify = false ∧
          (VaultHalf files ↔ files.root.vaultVersion = 0) := by
  have hsign : SignsOnly Crypto.mixed (7 : Hash) := Crypto.transparent_verify_iff (7 : Hash)
  have hinj : ∀ b ∈ signedStrings [0, 0, 1, 1], ∀ b' ∈ signedStrings [0, 0, 1, 1],
      Crypto.mixed.blake3 b = Crypto.mixed.blake3 b' → b = b' := by decide +kernel
  have hclosed : unused.Refers := refers_of_closed rfl rfl
  have hnone : ∀ id, unused.profileAt id = none := fun _ => rfl
  have hnew : ¬ IsMade (7 : Hash) unused := by
    intro h
    exact h (hnone _)
  have hrun := root_recoverable_iff (7 : Hash) unused ownerRun hsign
    (fun b hb b' hb' => hinj b hb b' hb') (refers_iff.mp hclosed).1
  exact hrun hnew

/-- A new profile is not recoverable. -/
theorem ownerRun_not_recoverable :
    ¬ ∀ pre post, ownerRun = pre ++ post →
      Recoverable ((ownerMachine (7 : Hash)).run unused pre)
        (Crypto.mixed.identity (7 : Hash)) := by
  intro hall
  have hrecoverable := hall (ownerRun.take 1) (ownerRun.drop 1) (List.take_append_drop 1 _).symm
  have hvalid : (((ownerMachine (7 : Hash)).run unused (ownerRun.take 1)).filesOf
      (Crypto.mixed.identity (7 : Hash))).map (fun files => files.root.isValid) = some false := by
    decide +kernel
  obtain ⟨files, hfiles, hinvalid⟩ := Option.map_eq_some_iff.mp hvalid
  rw [(hrecoverable files hfiles).1] at hinvalid
  cases hinvalid

end Directories

end OnionNetwork.Server
