import OnionNetwork.Lib.HandleCache
import OnionNetwork.Lib.Machine
import OnionNetwork.Server.Members
import OnionNetwork.Server.Profile
import OnionNetwork.Server.VaultBytes

/-!
# Profiles and chats on disk

`storage::Storage` with its directories: a profile and a chat are a directory each,
named after the identity and after the name of the chat, and opened through an LRU
cache of handles. The operations that create, recover and remove directories work on
paths; all others go through a handle.

A write transaction of LMDB may fail to commit, and is dropped then; whether it commits
is an argument. Whatever else the file system does succeeds.
-/

namespace OnionNetwork.Server

open Chat Lib

variable {cr : Crypto}

namespace Profile

/-- `storage::profile::Root`, as the root file has it. -/
structure RootFile (cr : Crypto) where
  vaultVersion : Nonce
  mailAction : Nonce
  sign : cr.PublicKey
  enc : Bytes
  vaultSig : cr.Signature
  mailSig : cr.Signature
  vaultRoot : Hash

namespace RootFile

/-- The mailbox nonce, as it was signed. -/
def mailProof (root : RootFile cr) : Proof cr Mail :=
  { pk := root.sign, nonce := root.mailAction, signature := root.mailSig, context := {} }

/-- The vault root and its version, as they were signed. -/
def vaultProof (root : RootFile cr) : Proof cr Hash :=
  { pk := root.sign, nonce := root.vaultVersion, signature := root.vaultSig,
    context := root.vaultRoot }

/-- `Root::is_valid`. -/
def isValid (root : RootFile cr) : Bool := root.mailProof.verify && root.vaultProof.verify

/-- `sign.identity()`. -/
def identity (root : RootFile cr) : Identity := cr.identity root.sign

end RootFile

/-- The files of a profile. -/
structure Files (cr : Crypto) where
  root : RootFile cr
  mailbox : Bytes
  vault : SortedMap Hash Bytes

/-- What the operations on the vault and the mailbox use of the files. -/
def Files.handle (files : Files cr) : Handle where
  vault := files.vault
  root := ⟨files.root.vaultVersion, files.root.mailAction⟩
  mailbox := files.mailbox

/-- `Handle::recover_vault`, after it is cleared. -/
def Files.recoverVault (files : Files cr) (vault : Bytes) : Files cr :=
  { files with vault := SortedMap.ofList (vaultEntries vault) }

end Profile

/-- The files of a chat. -/
structure ChatFiles where
  root : Root
  blocks : Bytes
  members : Members

/-- `Handle::recover_members`, after they are cleared. -/
def ChatFiles.recoverMembers (files : ChatFiles) (chatData : HashMap Identity Member) :
    ChatFiles :=
  { files with members := SortedMap.ofList chatData.entries }

/-- The capacity of the two caches. -/
def cacheCap : Nat := 512

/-- `storage::Storage`. The name of a chat is its path below `CHAT_DIR`, so the empty
name is the path of `CHAT_DIR` itself. -/
structure Directories (cr : Crypto) where
  profiles : HandleStore Identity (Profile.Files cr) cacheCap
  chats : HandleStore ChatName ChatFiles cacheCap
  /-- `CHAT_DIR` exists. -/
  chatDir : Bool
  chatDir_of : ∀ name, chats.dirs name ≠ none → chatDir = true

namespace Directories

/-- What a handler answers, and the storage it leaves. -/
abbrev Outcome (cr : Crypto) (α : Type) := Directories cr × Except ChatError α

/-- `Storage::get_profile`. -/
def getProfile (s : Directories cr) (id : Identity) : Outcome cr Nat :=
  match s.profiles.tryGetOrInsert id with
  | none => (s, .error .notFound)
  | some (n, profiles) => ({ s with profiles }, .ok n)

/-- `Storage::get_chat`. -/
def getChat (s : Directories cr) (name : ChatName) : Outcome cr Nat :=
  match h : s.chats.tryGetOrInsert name with
  | none => (s, .error (.io .notFound))
  | some (n, chats) => ({ s with
      chats
      chatDir_of := by
        rw [(HandleStore.tryGetOrInsert_eq_some h).2.1]
        exact s.chatDir_of }, .ok n)

/-- The files of a profile change. -/
def writeProfile (s : Directories cr) (n : Nat) (use : Profile.Files cr → Profile.Files cr) :
    Directories cr :=
  { s with profiles := s.profiles.write n (use (s.profiles.files n)) }

/-- The files of a chat change. -/
def writeChat (s : Directories cr) (n : Nat) (use : ChatFiles → ChatFiles) : Directories cr :=
  { s with chats := s.chats.write n (use (s.chats.files n)) }

/-- `Storage::has_profile`. -/
def hasProfile (s : Directories cr) (id : Identity) : Bool := (s.profiles.dirs id).isSome

/-- `Storage::has_chat`. -/
def hasChat (s : Directories cr) (name : ChatName) : Bool :=
  if name.str = "" then s.chatDir else (s.chats.dirs name).isSome

/-- `profile::Handle::create`. -/
def createProfileDir (s : Directories cr) (root : Profile.RootFile cr) (canOwerride : Bool) :
    Outcome cr Unit :=
  if s.hasProfile root.identity && !canOwerride then (s, .error .alreadyExists)
  else ({ s with
      profiles := s.profiles.create root.identity ⟨root, [], SortedMap.empty⟩ }, .ok ())

/-- `chat::Handle::create`. -/
def createChatDir (s : Directories cr) (name : ChatName) : Outcome cr Unit :=
  if s.hasChat name then (s, .error .alreadyExists)
  else ({ s with
      chats := s.chats.create name ⟨{}, [], SortedMap.empty⟩
      chatDir := true
      chatDir_of := fun _ _ => rfl }, .ok ())

/-- The path of a chat is the one of the given name, or below it. -/
def below (name other : ChatName) : Bool := name.str = "" || other = name

/-- `chat::Handle::remove`, which is `Storage::remove_chat`. -/
def removeChat (s : Directories cr) (name : ChatName) : Outcome cr Unit :=
  if s.hasChat name then
    ({ s with
      chats := s.chats.remove (below name)
      chatDir := s.chatDir && name.str ≠ ""
      chatDir_of := by
        intro other hother
        have hout : below name other = false := by
          cases hb : below name other with
          | false => rfl
          | true => simp [HandleStore.remove, hb] at hother
        have hold : s.chats.dirs other ≠ none := by
          simpa [HandleStore.remove, hout] using hother
        have hname : name.str ≠ "" := fun hempty => by simp [below, hempty] at hout
        simp [s.chatDir_of other hold, hname] }, .ok ())
  else (s, .error (.io .notFound))

/-- The root `create_profile` writes. -/
def newRoot (proof : Proof cr Hash) (enc : Bytes) : Profile.RootFile cr where
  vaultVersion := 0
  mailAction := 0
  sign := proof.pk
  enc
  vaultSig := proof.signature
  mailSig := proof.signature
  vaultRoot := 0

/-- What `create_profile` checks before it takes the lock. -/
def checkCreation (s : Directories cr) (proof : Proof cr Hash) : Except ChatError Unit := do
  ensure (proof.nonce = 0) (.invalidAction 0)
  ensure (proof.context = 0) .invalidProofContext
  ensure (s.hasProfile proof.identity = false) .alreadyExists
  ensure (proof.verify = true) .invalidProof

/-- `Storage::create_profile`. -/
def createProfile (s : Directories cr) (proof : Proof cr Hash) (enc : Bytes) : Outcome cr Unit :=
  match s.checkCreation proof with
  | .error e => (s, .error e)
  | .ok () => s.createProfileDir (newRoot proof enc) false

/-- `Storage::recover_profile`. -/
def recoverProfile (s : Directories cr) (profile : Profile.RootFile cr) (vault : Bytes)
    (commits : Bool) : Outcome cr Unit :=
  match s.createProfileDir profile true with
  | (s, .error e) => (s, .error e)
  | (s, .ok ()) =>
      match s.getProfile profile.identity with
      | (s, .error e) => (s, .error e)
      | (s, .ok n) =>
          if commits then (s.writeProfile n fun files => files.recoverVault vault, .ok ())
          else (s, .error .ise)

/-- `Storage::create_chat`. -/
def createChat (s : Directories cr) (name : ChatName) (identity : Identity) (commits : Bool) :
    Outcome cr Unit :=
  match s.createChatDir name with
  | (s, .error e) => (s, .error e)
  | (s, .ok ()) =>
      match s.getChat name with
      | (s, .error e) => (s, .error e)
      | (s, .ok n) =>
          -- `Handle::create_member`
          if ((s.chats.files n).members.get identity).isNone && commits then
            (s.writeChat n fun files =>
              { files with members := files.members.put identity Member.best }, .ok ())
          else (s, .error .ise)

/-- `Storage::recover_chat`. -/
def recoverChat (s : Directories cr) (name : ChatName) (chatData : HashMap Identity Member)
    (commits : Bool) : Outcome cr Unit :=
  match s.createChatDir name with
  | (s, .error e) => (s, .error e)
  | (s, .ok ()) =>
      match s.getChat name with
      | (s, .error e) => (s, .error e)
      | (s, .ok n) =>
          if commits then (s.writeChat n fun files => files.recoverMembers chatData, .ok ())
          else (s, .error .ise)

/-! ### What the operations do -/

section Specs

variable {s s' : Directories cr}

/-- What `get_*` answers is what is on disk. -/
def Refers (s : Directories cr) : Prop :=
  (∀ id, (s.getProfile id).2 = match s.profiles.dirs id with
    | some n => .ok n
    | none => .error .notFound) ∧
  ∀ name, (s.getChat name).2 = match s.chats.dirs name with
    | some n => .ok n
    | none => .error (.io .notFound)

theorem getProfile_cases (s : Directories cr) (id : Identity) :
    (s.profiles.handle id = none ∧ s.getProfile id = (s, .error .notFound)) ∨
      ∃ n profiles, s.profiles.tryGetOrInsert id = some (n, profiles) ∧
        s.profiles.handle id = some n ∧ s.getProfile id = ({ s with profiles }, .ok n) := by
  cases h : s.profiles.tryGetOrInsert id with
  | none =>
      refine .inl ⟨HandleStore.tryGetOrInsert_eq_none.mp h, ?_⟩
      rw [getProfile, h]
  | some r =>
      refine .inr ⟨r.1, r.2, rfl, (HandleStore.tryGetOrInsert_eq_some h).1, ?_⟩
      rw [getProfile, h]

theorem getChat_cases (s : Directories cr) (name : ChatName) :
    (s.chats.handle name = none ∧ s.getChat name = (s, .error (.io .notFound))) ∨
      ∃ n chats, s.chats.tryGetOrInsert name = some (n, chats) ∧
        s.chats.handle name = some n ∧ (s.getChat name).2 = .ok n ∧
        (s.getChat name).1.chats = chats ∧ (s.getChat name).1.profiles = s.profiles ∧
        (s.getChat name).1.chatDir = s.chatDir := by
  unfold getChat
  split
  · next h => exact .inl ⟨HandleStore.tryGetOrInsert_eq_none.mp h, rfl⟩
  · next n chats h =>
      exact .inr ⟨n, chats, h, (HandleStore.tryGetOrInsert_eq_some h).1, rfl, rfl, rfl, rfl⟩

/-- The answers of `get_*` are right where the caches are coherent. -/
theorem refers_iff : s.Refers ↔ s.profiles.Coherent ∧ s.chats.Coherent := by
  refine and_congr (forall_congr' fun id => ?_) (forall_congr' fun name => ?_)
  · rcases s.getProfile_cases id with ⟨hhandle, heq⟩ | ⟨n, profiles, -, hhandle, heq⟩
    · rw [heq, hhandle]
      cases s.profiles.dirs id <;> simp
    · rw [heq, hhandle]
      cases s.profiles.dirs id <;> simp
  · rcases s.getChat_cases name with ⟨hhandle, heq⟩ | ⟨n, chats, -, hhandle, heq, -⟩
    · rw [heq, hhandle]
      cases s.chats.dirs name <;> simp
    · rw [heq, hhandle]
      cases s.chats.dirs name <;> simp

/-- A profile on disk. -/
def profileAt (s : Directories cr) (id : Identity) : Option (Profile.Files cr) :=
  (s.profiles.dirs id).map s.profiles.files

/-- A chat on disk. -/
def chatAt (s : Directories cr) (name : ChatName) : Option ChatFiles :=
  (s.chats.dirs name).map s.chats.files

/-- A chat that is not there has no directory. -/
theorem dirs_of_not_hasChat {name : ChatName} (h : s.hasChat name = false) :
    s.chats.dirs name = none := by
  by_contra hsome
  unfold hasChat at h
  split at h
  · rw [s.chatDir_of name hsome] at h
    cases h
  · rw [Option.isSome_eq_false_iff, Option.isNone_iff_eq_none] at h
    exact hsome h

theorem checkCreation_eq_ok {proof : Proof cr Hash} {u : Unit} :
    s.checkCreation proof = .ok u ↔ proof.nonce = 0 ∧ proof.context = 0 ∧
      s.profiles.dirs proof.identity = none ∧ proof.verify = true := by
  simp only [checkCreation, hasProfile, bind_eq_ok, ensure_eq_ok, exists_const,
    Option.isSome_eq_false_iff, Option.isNone_iff_eq_none]

/-- `create_profile` is refused, or makes a directory of which no handle is cached. -/
theorem createProfile_cases (h : s.profiles.Coherent) (proof : Proof cr Hash) (enc : Bytes) :
    (∃ e, s.checkCreation proof = .error e ∧ s.createProfile proof enc = (s, .error e)) ∨
    (s.checkCreation proof = .ok () ∧ ¬ s.profiles.IsCached proof.identity ∧
      s.createProfile proof enc = ({ s with
        profiles := s.profiles.create proof.identity
          ⟨newRoot proof enc, [], SortedMap.empty⟩ }, .ok ())) := by
  cases hcheck : s.checkCreation proof with
  | error e => exact .inl ⟨e, rfl, by simp only [createProfile, hcheck]⟩
  | ok u =>
      obtain ⟨-, -, hnew, -⟩ := checkCreation_eq_ok.mp hcheck
      have hid : (newRoot proof enc).identity = proof.identity := rfl
      refine .inr ⟨rfl, fun hk => h.dirs_of_cached hk hnew, ?_⟩
      simp only [createProfile, hcheck, createProfileDir, hasProfile, hid, hnew,
        Option.isSome_none, Bool.false_and, Bool.false_eq_true, if_false]

/-- `recover_profile` makes a directory, and recovers the vault through the handle that
it is then given for the identity. -/
theorem recoverProfile_spec (s : Directories cr) (root : Profile.RootFile cr) (vault : Bytes)
    (commits : Bool) :
    ∃ n profiles, (s.profiles.create root.identity ⟨root, [], SortedMap.empty⟩).tryGetOrInsert
        root.identity = some (n, profiles) ∧
      (n = s.profiles.made ↔ ¬ s.profiles.IsCached root.identity) ∧
      s.recoverProfile root vault commits =
        if commits then
          ({ s with profiles := profiles.write n ((profiles.files n).recoverVault vault) }, .ok ())
        else ({ s with profiles }, .error .ise) := by
  obtain ⟨n, profiles, hopen, hfresh⟩ :=
    s.profiles.exists_open_create root.identity ⟨root, [], SortedMap.empty⟩
  refine ⟨n, profiles, hopen, hfresh, ?_⟩
  have hcreate : s.createProfileDir root true = ({ s with
      profiles := s.profiles.create root.identity ⟨root, [], SortedMap.empty⟩ }, .ok ()) := by
    rw [createProfileDir, Bool.not_true, Bool.and_false, if_neg Bool.false_ne_true]
  simp only [recoverProfile, hcreate, getProfile, hopen]
  rfl

/-- The files of a new chat. -/
def newChat : ChatFiles := ⟨{}, [], SortedMap.empty⟩

/-- Nothing on disk. The files that no handle is to are as given. -/
def fresh (files : Profile.Files cr) : Directories cr where
  profiles := HandleStore.closed (fun _ => none) (fun _ => files) 0 nofun
  chats := HandleStore.closed (fun _ => none) (fun _ => newChat) 0 nofun
  chatDir := false
  chatDir_of _ h := absurd rfl h

/-- A chat that is not there is created, and opened. -/
theorem createChatDir_spec {name : ChatName} (h : s.hasChat name = false) :
    ∃ created n chats, s.createChatDir name = (created, .ok ()) ∧
      (s.chats.create name newChat).tryGetOrInsert name = some (n, chats) ∧
      (n = s.chats.made ↔ ¬ s.chats.IsCached name) ∧
      (created.getChat name).2 = .ok n ∧ (created.getChat name).1.chats = chats ∧
      (created.getChat name).1.profiles = s.profiles := by
  obtain ⟨n, chats, hopen, hfresh⟩ := s.chats.exists_open_create name newChat
  refine ⟨_, n, chats, by rw [createChatDir, h]; rfl, hopen, hfresh, ?_⟩
  rcases getChat_cases ({ s with
      chats := s.chats.create name newChat
      chatDir := true
      chatDir_of := fun _ _ => rfl } : Directories cr) name with
    ⟨hnone, -⟩ | ⟨n', chats', hopen', -, hget, hchats, hprofiles, -⟩
  · rw [HandleStore.tryGetOrInsert_eq_none.mpr hnone] at hopen
    cases hopen
  · obtain ⟨rfl, rfl⟩ := Prod.mk.inj (Option.some.inj (hopen.symm.trans hopen'))
    exact ⟨hget, hchats, hprofiles⟩

/-- `recover_chat` refuses a chat that is there. Else it makes a directory, and recovers
the members through the handle that it is then given for the name. -/
theorem recoverChat_spec (s : Directories cr) (name : ChatName)
    (chatData : HashMap Identity Member) (commits : Bool) :
    (s.hasChat name = true ∧ s.recoverChat name chatData commits = (s, .error .alreadyExists)) ∨
    (s.hasChat name = false ∧ ∃ n chats,
      (s.chats.create name newChat).tryGetOrInsert name = some (n, chats) ∧
      (n = s.chats.made ↔ ¬ s.chats.IsCached name) ∧
      (s.recoverChat name chatData commits).1.profiles = s.profiles ∧
      (s.recoverChat name chatData commits).1.chats =
        (if commits then chats.write n ((chats.files n).recoverMembers chatData) else chats) ∧
      (s.recoverChat name chatData commits).2 = if commits then .ok () else .error .ise) := by
  cases h : s.hasChat name with
  | true =>
      refine .inl ⟨rfl, ?_⟩
      have hcreate : s.createChatDir name = (s, .error .alreadyExists) := by
        rw [createChatDir, if_pos h]
      simp only [recoverChat, hcreate]
  | false =>
      obtain ⟨created, n, chats, hcreate, hopen, hfresh, hget, hchats, hprofiles⟩ :=
        createChatDir_spec h
      refine .inr ⟨rfl, n, chats, hopen, hfresh, ?_⟩
      have heq : created.getChat name = ((created.getChat name).1, .ok n) := Prod.ext rfl hget
      rw [recoverChat, hcreate]
      simp only
      rw [heq]
      cases commits with
      | true => exact ⟨hprofiles, by rw [← hchats]; rfl, rfl⟩
      | false => exact ⟨hprofiles, hchats, rfl⟩

/-- `create_chat` likewise; a cached handle may already have the member. -/
theorem createChat_spec (s : Directories cr) (name : ChatName) (identity : Identity)
    (commits : Bool) :
    (s.hasChat name = true ∧ s.createChat name identity commits = (s, .error .alreadyExists)) ∨
    (s.hasChat name = false ∧ ∃ n chats,
      (s.chats.create name newChat).tryGetOrInsert name = some (n, chats) ∧
      (n = s.chats.made ↔ ¬ s.chats.IsCached name) ∧
      (s.createChat name identity commits).1.profiles = s.profiles ∧
      ((s.createChat name identity commits).2 = .ok () ∧
        (s.createChat name identity commits).1.chats = chats.write n
          { chats.files n with members := (chats.files n).members.put identity Member.best } ∨
       (s.createChat name identity commits).2 = .error .ise ∧
        (s.createChat name identity commits).1.chats = chats)) := by
  cases h : s.hasChat name with
  | true =>
      refine .inl ⟨rfl, ?_⟩
      have hcreate : s.createChatDir name = (s, .error .alreadyExists) := by
        rw [createChatDir, if_pos h]
      simp only [createChat, hcreate]
  | false =>
      obtain ⟨created, n, chats, hcreate, hopen, hfresh, hget, hchats, hprofiles⟩ :=
        createChatDir_spec h
      refine .inr ⟨rfl, n, chats, hopen, hfresh, ?_⟩
      have heq : created.getChat name = ((created.getChat name).1, .ok n) := Prod.ext rfl hget
      rw [createChat, hcreate]
      simp only
      rw [heq]
      simp only
      split
      · exact ⟨hprofiles, .inl ⟨rfl, by rw [← hchats]; rfl⟩⟩
      · exact ⟨hprofiles, .inr ⟨rfl, hchats⟩⟩

end Specs

end Directories

end OnionNetwork.Server
