import OnionNetwork.Server.Directories

/-!
# Cached handles and their directories

`recover_profile` makes a new directory in place of an old one, and `remove_chat` takes
one away; neither takes the handle out of the cache. `handles_refer_iff`: in a run the
handles that `get_profile` and `get_chat` return refer to what is on disk, and what was
recovered is seen through them, exactly when these two never meet a cached handle.
-/

namespace OnionNetwork.Server

open Chat Lib

variable {cr : Crypto}

/-- A call of the storage, and what is done through the handle that `get_*` returns. -/
inductive StorageCall (cr : Crypto)
  | createProfile (proof : Proof cr Hash) (enc : Bytes)
  | recoverProfile (profile : Profile.RootFile cr) (vault : Bytes) (commits : Bool)
  | getProfile (id : Identity) (use : Profile.Files cr → Profile.Files cr)
  | createChat (name : ChatName) (identity : Identity) (commits : Bool)
  | removeChat (name : ChatName)
  | recoverChat (name : ChatName) (chatData : HashMap Identity Member) (commits : Bool)
  | getChat (name : ChatName) (use : ChatFiles → ChatFiles)

namespace Directories

/-- `get_profile`, and what is done through the handle. -/
def useProfile (s : Directories cr) (id : Identity) (use : Profile.Files cr → Profile.Files cr) :
    Outcome cr Unit :=
  match s.getProfile id with
  | (s, .error e) => (s, .error e)
  | (s, .ok n) => (s.writeProfile n use, .ok ())

/-- `get_chat`, and what is done through the handle. -/
def useChat (s : Directories cr) (name : ChatName) (use : ChatFiles → ChatFiles) :
    Outcome cr Unit :=
  match s.getChat name with
  | (s, .error e) => (s, .error e)
  | (s, .ok n) => (s.writeChat n use, .ok ())

/-- One call. -/
def serve (s : Directories cr) : StorageCall cr → Outcome cr Unit
  | .createProfile proof enc => s.createProfile proof enc
  | .recoverProfile profile vault commits => s.recoverProfile profile vault commits
  | .getProfile id use => s.useProfile id use
  | .createChat name identity commits => s.createChat name identity commits
  | .removeChat name => s.removeChat name
  | .recoverChat name chatData commits => s.recoverChat name chatData commits
  | .getChat name use => s.useChat name use

/-- No cached handle is of a directory that the call replaces or removes. -/
def Careful (s : Directories cr) : StorageCall cr → Prop
  | .recoverProfile profile _ _ => ¬ s.profiles.IsCached profile.identity
  | .removeChat name => ∀ other, below name other = true → ¬ s.chats.IsCached other
  | _ => True

/-- What an accepted call did is what is on disk afterwards, or is gone. -/
def Shows (s : Directories cr) (call : StorageCall cr) : Prop :=
  (s.serve call).2 = .ok () →
    match call with
    | .createProfile proof enc =>
        (s.serve call).1.profileAt proof.identity = some ⟨newRoot proof enc, [], SortedMap.empty⟩
    | .recoverProfile profile vault _ =>
        (s.serve call).1.profileAt profile.identity =
          some ⟨profile, [], SortedMap.ofList (vaultEntries vault)⟩
    | .getProfile id use => (s.serve call).1.profileAt id = (s.profileAt id).map use
    | .createChat name identity _ =>
        (s.serve call).1.chatAt name =
          some { newChat with members := SortedMap.empty.put identity Member.best }
    | .removeChat name =>
        ∀ other, below name other = true →
          ((s.serve call).1.getChat other).2 = .error (.io .notFound)
    | .recoverChat name chatData _ =>
        (s.serve call).1.chatAt name = some (newChat.recoverMembers chatData)
    | .getChat name use => (s.serve call).1.chatAt name = (s.chatAt name).map use

/-- The storage under its calls. -/
def machine (cr : Crypto) : Machine (Directories cr) (StorageCall cr) (Except ChatError Unit) :=
  ⟨serve⟩

/-! ### One call -/

section Step

variable {s : Directories cr}

theorem cacheCap_pos : 0 < cacheCap := by decide

/-- A chat that is not there has no cached handle. -/
theorem not_cached_of_not_hasChat (h : s.chats.Coherent) {name : ChatName}
    (hname : s.hasChat name = false) : ¬ s.chats.IsCached name :=
  fun hk => h.dirs_of_cached hk (dirs_of_not_hasChat hname)

theorem createProfile_step (h : s.Refers) (proof : Proof cr Hash) (enc : Bytes) :
    (s.createProfile proof enc).1.Refers ∧
      ((s.createProfile proof enc).2 = .ok () →
        (s.createProfile proof enc).1.profileAt proof.identity =
          some ⟨newRoot proof enc, [], SortedMap.empty⟩) := by
  obtain ⟨hprofiles, hchats⟩ := refers_iff.mp h
  rcases createProfile_cases hprofiles proof enc with ⟨e, -, heq⟩ | ⟨-, hnone, heq⟩
  · rw [heq]
    exact ⟨h, nofun⟩
  · rw [heq]
    refine ⟨refers_iff.mpr ⟨(HandleStore.coherent_create_iff hprofiles _).mpr hnone, hchats⟩, ?_⟩
    intro _
    rw [profileAt, HandleStore.dirs_create_self, Option.map_some, HandleStore.files_create_self]

theorem recoverProfile_step (h : s.Refers) (profile : Profile.RootFile cr) (vault : Bytes)
    (commits : Bool) :
    ((s.recoverProfile profile vault commits).1.Refers ↔
        ¬ s.profiles.IsCached profile.identity) ∧
      (¬ s.profiles.IsCached profile.identity →
        (s.recoverProfile profile vault commits).2 = .ok () →
        (s.recoverProfile profile vault commits).1.profileAt profile.identity =
          some ⟨profile, [], SortedMap.ofList (vaultEntries vault)⟩) := by
  obtain ⟨hprofiles, hchats⟩ := refers_iff.mp h
  obtain ⟨n, profiles, hopen, -, heq⟩ := s.recoverProfile_spec profile vault commits
  have hcoherent := HandleStore.coherent_open_create_iff cacheCap_pos hprofiles hopen
  rw [heq]
  cases commits with
  | true =>
      refine ⟨refers_iff.trans ((and_iff_left hchats).trans hcoherent), fun hnone _ => ?_⟩
      obtain ⟨hdirs, hfiles⟩ := HandleStore.open_create_of_not_cached hnone hopen
      simp [profileAt, HandleStore.write, hdirs, hfiles, Profile.Files.recoverVault]
  | false =>
      refine ⟨refers_iff.trans ((and_iff_left hchats).trans hcoherent), ?_⟩
      rintro _ ⟨⟩

theorem useProfile_step (h : s.Refers) (id : Identity)
    (use : Profile.Files cr → Profile.Files cr) :
    (s.useProfile id use).1.Refers ∧
      ((s.useProfile id use).2 = .ok () →
        (s.useProfile id use).1.profileAt id = (s.profileAt id).map use) := by
  obtain ⟨hprofiles, hchats⟩ := refers_iff.mp h
  rcases s.getProfile_cases id with ⟨-, heq⟩ | ⟨n, profiles, hopen, hhandle, heq⟩
  · simp only [useProfile, heq]
    exact ⟨h, nofun⟩
  · simp only [useProfile, heq]
    obtain ⟨-, hdirs, hfiles, -⟩ := HandleStore.tryGetOrInsert_eq_some hopen
    have hdisk : s.profiles.dirs id = some n := (hprofiles id).symm.trans hhandle
    have hcoherent : profiles.Coherent := HandleStore.coherent_open hprofiles hopen
    refine ⟨refers_iff.mpr ⟨hcoherent, hchats⟩, fun _ => ?_⟩
    simp [profileAt, writeProfile, HandleStore.write, hdirs, hdisk, hfiles]

theorem useChat_step (h : s.Refers) (name : ChatName) (use : ChatFiles → ChatFiles) :
    (s.useChat name use).1.Refers ∧
      ((s.useChat name use).2 = .ok () →
        (s.useChat name use).1.chatAt name = (s.chatAt name).map use) := by
  obtain ⟨hprofiles, hchats⟩ := refers_iff.mp h
  rcases s.getChat_cases name with ⟨-, heq⟩ | ⟨n, chats, hopen, hhandle, hget, hnew, hsame, -⟩
  · simp only [useChat, heq]
    exact ⟨h, nofun⟩
  · have heq : s.getChat name = ((s.getChat name).1, .ok n) := Prod.ext rfl hget
    rw [useChat, heq]
    obtain ⟨-, hdirs, hfiles, -⟩ := HandleStore.tryGetOrInsert_eq_some hopen
    have hdisk : s.chats.dirs name = some n := (hchats name).symm.trans hhandle
    have hcoherent : chats.Coherent := HandleStore.coherent_open hchats hopen
    refine ⟨refers_iff.mpr ⟨?_, ?_⟩, fun _ => ?_⟩
    · rwa [← hsame] at hprofiles
    · rwa [← hnew] at hcoherent
    · simp [chatAt, writeChat, HandleStore.write, hnew, hdirs, hdisk, hfiles]

theorem createChat_step (h : s.Refers) (name : ChatName) (identity : Identity) (commits : Bool) :
    (s.createChat name identity commits).1.Refers ∧
      ((s.createChat name identity commits).2 = .ok () →
        (s.createChat name identity commits).1.chatAt name =
          some { newChat with members := SortedMap.empty.put identity Member.best }) := by
  obtain ⟨hprofiles, hchats⟩ := refers_iff.mp h
  rcases s.createChat_spec name identity commits with
    ⟨-, heq⟩ | ⟨hnew, n, chats, hopen, -, hsame, hcases⟩
  · rw [heq]
    exact ⟨h, by rintro ⟨⟩⟩
  · have hnone := not_cached_of_not_hasChat hchats hnew
    have hcoherent := (HandleStore.coherent_open_create_iff cacheCap_pos hchats hopen).mpr hnone
    rcases hcases with ⟨hok, heq⟩ | ⟨herr, heq⟩
    · refine ⟨refers_iff.mpr ⟨by rw [hsame]; exact hprofiles, by rw [heq]; exact hcoherent⟩,
        fun _ => ?_⟩
      obtain ⟨hdirs, hfiles⟩ := HandleStore.open_create_of_not_cached hnone hopen
      simp [chatAt, heq, HandleStore.write, hdirs, hfiles, newChat]
    · refine ⟨refers_iff.mpr ⟨by rw [hsame]; exact hprofiles, by rw [heq]; exact hcoherent⟩, ?_⟩
      rw [herr]
      rintro ⟨⟩

theorem recoverChat_step (h : s.Refers) (name : ChatName) (chatData : HashMap Identity Member)
    (commits : Bool) :
    (s.recoverChat name chatData commits).1.Refers ∧
      ((s.recoverChat name chatData commits).2 = .ok () →
        (s.recoverChat name chatData commits).1.chatAt name =
          some (newChat.recoverMembers chatData)) := by
  obtain ⟨hprofiles, hchats⟩ := refers_iff.mp h
  rcases s.recoverChat_spec name chatData commits with
    ⟨-, heq⟩ | ⟨hnew, n, chats, hopen, -, hsame, heq, hres⟩
  · rw [heq]
    exact ⟨h, by rintro ⟨⟩⟩
  · have hnone := not_cached_of_not_hasChat hchats hnew
    have hcoherent := (HandleStore.coherent_open_create_iff cacheCap_pos hchats hopen).mpr hnone
    cases commits with
    | true =>
        refine ⟨refers_iff.mpr ⟨by rw [hsame]; exact hprofiles, by rw [heq]; exact hcoherent⟩,
          fun _ => ?_⟩
        obtain ⟨hdirs, hfiles⟩ := HandleStore.open_create_of_not_cached hnone hopen
        simp [chatAt, heq, HandleStore.write, hdirs, hfiles]
    | false =>
        refine ⟨refers_iff.mpr ⟨by rw [hsame]; exact hprofiles, by rw [heq]; exact hcoherent⟩, ?_⟩
        rw [hres]
        rintro ⟨⟩

theorem removeChat_step (h : s.Refers) (name : ChatName) :
    ((s.removeChat name).1.Refers ↔
        ∀ other, below name other = true → ¬ s.chats.IsCached other) ∧
      ((s.removeChat name).1.Refers → (s.removeChat name).2 = .ok () →
        ∀ other, below name other = true →
          ((s.removeChat name).1.getChat other).2 = .error (.io .notFound)) := by
  obtain ⟨hprofiles, hchats⟩ := refers_iff.mp h
  by_cases hexists : s.hasChat name = true
  · have hnew : (s.removeChat name).1.chats = s.chats.remove (below name) := by
      rw [removeChat, if_pos hexists]
    have hsame : (s.removeChat name).1.profiles = s.profiles := by
      rw [removeChat, if_pos hexists]
    constructor
    · rw [refers_iff, hsame, hnew, and_iff_right hprofiles]
      exact HandleStore.coherent_remove_iff hchats _
    · intro hrefers _ other hother
      rw [hrefers.2 other, hnew]
      simp [HandleStore.remove, hother]
  · -- nothing is removed, and nothing that could have been is cached
    have heq : s.removeChat name = (s, .error (.io .notFound)) := by
      rw [removeChat, if_neg hexists]
    rw [heq]
    refine ⟨iff_of_true h fun other hother hk => ?_, fun _ => nofun⟩
    have hdisk := hchats.dirs_of_cached hk
    have hdir := s.chatDir_of other hdisk
    unfold hasChat at hexists
    rcases (Bool.or_eq_true _ _).mp hother with hempty | hsame
    · rw [if_pos (of_decide_eq_true hempty)] at hexists
      exact hexists hdir
    · obtain rfl := of_decide_eq_true hsame
      split at hexists
      · exact hexists hdir
      · exact hexists (Option.isSome_iff_ne_none.mpr hdisk)

/-- **One call.** From a storage whose handles refer to what is on disk, a call leaves it
so exactly when it is careful, and then what it did can be seen. -/
theorem serve_step (h : s.Refers) (call : StorageCall cr) :
    ((s.serve call).1.Refers ↔ s.Careful call) ∧ (s.Careful call → s.Shows call) := by
  cases call with
  | createProfile proof enc =>
      obtain ⟨hrefers, hshows⟩ := createProfile_step h proof enc
      exact ⟨iff_of_true hrefers trivial, fun _ => hshows⟩
  | recoverProfile profile vault commits => exact recoverProfile_step h profile vault commits
  | getProfile id use =>
      obtain ⟨hrefers, hshows⟩ := useProfile_step h id use
      exact ⟨iff_of_true hrefers trivial, fun _ => hshows⟩
  | createChat name identity commits =>
      obtain ⟨hrefers, hshows⟩ := createChat_step h name identity commits
      exact ⟨iff_of_true hrefers trivial, fun _ => hshows⟩
  | removeChat name =>
      obtain ⟨hiff, hshows⟩ := removeChat_step h name
      exact ⟨hiff, fun hcareful => hshows (hiff.mpr hcareful)⟩
  | recoverChat name chatData commits =>
      obtain ⟨hrefers, hshows⟩ := recoverChat_step h name chatData commits
      exact ⟨iff_of_true hrefers trivial, fun _ => hshows⟩
  | getChat name use =>
      obtain ⟨hrefers, hshows⟩ := useChat_step h name use
      exact ⟨iff_of_true hrefers trivial, fun _ => hshows⟩

/-- Without open handles, `get_*` opens what is on disk. -/
theorem refers_of_closed (hprofiles : s.profiles.cache.entries = [])
    (hchats : s.chats.cache.entries = []) : s.Refers := by
  have hempty : ∀ {K F : Type} [DecidableEq K] {cap : Nat} (t : HandleStore K F cap),
      t.cache.entries = [] → t.Coherent := by
    intro K F _ cap t ht
    refine HandleStore.coherent_iff.mpr fun k n hget => ?_
    rw [HashMap.get, ht] at hget
    cases hget
  exact refers_iff.mpr ⟨hempty _ hprofiles, hempty _ hchats⟩

end Step

/-- **Handles and directories.** In a run of a server that starts with empty caches, in
every state `get_profile` and `get_chat` return what is on disk, and every accepted call
can be seen there, exactly when no `recover_profile` and no `remove_chat` of the run
meets a cached handle of a directory that it replaces or removes. -/
theorem handles_refer_iff (s : Directories cr) (calls : List (StorageCall cr))
    (hprofiles : s.profiles.cache.entries = []) (hchats : s.chats.cache.entries = []) :
    ((∀ pre post, calls = pre ++ post → ((machine cr).run s pre).Refers) ∧
        (machine cr).EachStep Shows s calls) ↔
      (machine cr).EachStep Careful s calls := by
  have hstart : s.Refers := refers_of_closed hprofiles hchats
  have hany : (machine cr).EachStep (fun _ _ => True) s calls :=
    Machine.EachStep.of_forall (Q := fun _ => True) (fun _ _ => trivial) s
  have hreached := Machine.reached_iff (m := machine cr) (I := fun _ => True) (P := Refers)
    (fun _ _ _ _ => trivial) (fun t call _ ht _ => (serve_step ht call).1) trivial hstart hany
  constructor
  · rintro ⟨hrefers, -⟩
    exact hreached.mp hrefers
  · intro hcareful
    refine ⟨hreached.mpr hcareful, ?_⟩
    have hkeep (t : Directories cr) (call : StorageCall cr) (ht : t.Refers) (hc : Careful t call) :
        ((machine cr).step t call).1.Refers := (serve_step ht call).1.mpr hc
    have hshows (t : Directories cr) (call : StorageCall cr) (ht : t.Refers)
        (hc : Careful t call) : Shows t call := (serve_step ht call).2 hc
    exact Machine.eachStep_of_invariant hkeep hshows hstart hcareful

/-! ## A small storage for concrete runs -/

/-- A name for a chat. -/
def hall : ChatName := ⟨"hall", by decide⟩

/-- A root of the key 7, with the given vault version. -/
def someRoot (vaultVersion : Nonce) : Profile.RootFile Crypto.transparent where
  vaultVersion
  mailAction := 0
  sign := (7 : Hash)
  enc := []
  vaultSig := ((7 : Hash), [])
  mailSig := ((7 : Hash), [])
  vaultRoot := 0

/-- Nothing on disk. -/
def emptyStorage : Directories Crypto.transparent := fresh ⟨someRoot 0, [], SortedMap.empty⟩

/-- The key 7 creates its profile, and the profile is recovered before it was used. -/
def recoveredUnused : List (StorageCall Crypto.transparent) :=
  [.createProfile (Proof.transparent 7 0 0) [], .recoverProfile (someRoot 5) [] true,
    .getProfile (someRoot 5).identity id]

theorem handles_refer_unused :
    (∀ pre post, recoveredUnused = pre ++ post →
        ((machine Crypto.transparent).run emptyStorage pre).Refers) ∧
      (machine Crypto.transparent).EachStep Shows emptyStorage recoveredUnused := by
  refine (handles_refer_iff emptyStorage recoveredUnused rfl rfl).mpr
    ⟨trivial, ?_, trivial, trivial⟩
  rw [Careful]
  decide +kernel

/-- The key 7 creates its profile, reads its keys, and the profile is recovered. -/
def recoveredUsed : List (StorageCall Crypto.transparent) :=
  [.createProfile (Proof.transparent 7 0 0) [], .getProfile (someRoot 5).identity id,
    .recoverProfile (someRoot 5) [] true]

/-- A chat is created, which opens it, and removed. -/
def removedUsed : List (StorageCall Crypto.transparent) :=
  [.createChat hall 7 true, .removeChat hall]

/-- The old directory is still what is handed out; after the removal, too. -/
theorem handles_refer_stale :
    ¬ ((machine Crypto.transparent).run emptyStorage recoveredUsed).Refers ∧
      ¬ ((machine Crypto.transparent).run emptyStorage removedUsed).Refers := by
  constructor
  · intro h
    exact absurd ((refers_iff.mp h).1 (someRoot 5).identity) (by decide +kernel)
  · intro h
    exact absurd ((refers_iff.mp h).2 hall) (by decide)

end Directories

end OnionNetwork.Server
