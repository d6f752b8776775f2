import OnionNetwork.Server.Recover
import OnionNetwork.Theorems.Handles
import OnionNetwork.Theorems.Reconstruction

/-!
# Recovering a chat or a profile

`chat_recovery_outcome`: an accepted recovery of a chat leaves the reconstructed members and
nothing else, a failed one leaves the chat as it was. With too few answers to reconstruct
from, a chat that is there is removed on purpose, and the recovery fails.

For a profile the answers are sorted by the sum of their nonces in ascending order, and the
first one that holds is installed: the oldest. `profile_recovery_iff` says when that is the
newest nevertheless, and what else has to hold: no sum overflows where that panics, no handle
of the profile is cached, and the vault fits into a transaction.
-/

/-! ## Chats -/

namespace OnionNetwork.Server.Directories

open Chat Lib

variable {cr : Crypto}

/-- The members of a recovered chat are the given ones. -/
theorem get_recoverMembers (chatData : HashMap Identity Member) (id : Identity) :
    (newChat.recoverMembers chatData).members.get id = chatData.get id := by
  show ((chatData.entries.foldl (fun m e => m.put e.1 e.2) SortedMap.empty).get id) = _
  have hvalues : ∀ e ∈ chatData.entries, chatData.get e.1 = some e.2 := fun e he =>
    chatData.get_eq_some_iff.mpr he
  rw [SortedMap.get_foldl_put hvalues]
  split
  · rfl
  · next hnot => exact (chatData.get_eq_none_iff.mpr hnot).symm

/-- The members are exactly the reconstructed ones, and the chat is otherwise new. -/
def Rebuilt (files : ChatFiles) (chatData : HashMap Identity Member) : Prop :=
  (∀ id, files.members.get id = chatData.get id) ∧ files.root = {} ∧ files.blocks = []

/-- A chat that is there can be removed. -/
theorem removeChat_outcome (s : Directories cr) (name : ChatName) :
    (s.removeChat name).1.chatAt name = none ∧
        (s.hasChat name = true → (s.removeChat name).2 = .ok ()) ∧
        (s.hasChat name = false → (s.removeChat name).2 = .error (.io .notFound)) := by
  cases h : s.hasChat name with
  | true =>
      rw [removeChat, if_pos h]
      refine ⟨?_, fun _ => rfl, by rintro ⟨⟩⟩
      simp [chatAt, HandleStore.remove, below]
  | false =>
      rw [removeChat, if_neg (by rw [h]; exact Bool.false_ne_true)]
      refine ⟨?_, by rintro ⟨⟩, fun _ => rfl⟩
      rw [chatAt, dirs_of_not_hasChat h, Option.map_none]

/-- At most two of the answers are tables. -/
def TooFew
    (resps : Except ChatError (ReplVec (NodeIdentity × Response (HashMap Identity Member)))) :
    Prop :=
  ∃ answers, resps = .ok answers ∧ (usable answers).toList.length ≤ replicationFactor / 2

/-- What an accepted recovery leaves: the chat on disk has the reconstructed members,
and `get_chat` returns it. -/
def Recovered (s' : Directories cr) (order : IterOrder (Identity × ReplVec Member))
    (name : ChatName)
    (resps : Except ChatError (ReplVec (NodeIdentity × Response (HashMap Identity Member)))) :
    Prop :=
  ∃ answers chatData files n, resps = .ok answers ∧
    reconstructChat order (usable answers) = some chatData ∧ s'.chatAt name = some files ∧
    Rebuilt files chatData ∧ s'.chats.dirs name = some n ∧ (s'.getChat name).2 = .ok n

section Cases

variable {s : Directories cr} {order : IterOrder (Identity × ReplVec Member)} {name : ChatName}
  {answers : ReplVec (NodeIdentity × Response (HashMap Identity Member))}

/-- Too few answers: the chat is gone, and the recovery fails; with `NotFound` if there was
something to remove. -/
theorem recoverChatFrom_few (s : Directories cr) (order : IterOrder (Identity × ReplVec Member))
    (name : ChatName) (commits : Bool)
    (hfew : (usable answers).toList.length ≤ replicationFactor / 2) :
    ∃ s' e, recoverChatFrom s order name (.ok answers) commits = some (s', .error e) ∧
      s'.chatAt name = none ∧ (s.chatAt name ≠ none → e = .notFound) := by
  obtain ⟨hgone, hok, herr⟩ := removeChat_outcome s name
  cases h : s.hasChat name with
  | true =>
      have heq : s.removeChat name = ((s.removeChat name).1, .ok ()) := Prod.ext rfl (hok h)
      refine ⟨(s.removeChat name).1, .notFound, ?_, hgone, fun _ => rfl⟩
      simp only [recoverChatFrom]
      rw [if_pos hfew, heq]
  | false =>
      have heq : s.removeChat name = ((s.removeChat name).1, .error (.io .notFound)) :=
        Prod.ext rfl (herr h)
      refine ⟨(s.removeChat name).1, .io .notFound, ?_, hgone, fun hpresent => ?_⟩
      · simp only [recoverChatFrom]
        rw [if_pos hfew, heq]
      · rw [chatAt, dirs_of_not_hasChat h] at hpresent
        exact absurd rfl hpresent

variable (order) in
/-- Enough answers: the chat is there, and nothing happens, or it is rebuilt. -/
theorem recoverChatFrom_enough (hrefers : s.chats.handle name = s.chats.dirs name)
    (henough : ¬ (usable answers).toList.length ≤ replicationFactor / 2) :
    recoverChatFrom s order name (.ok answers) true = some (s, .error .alreadyExists) ∨
      ∃ s', recoverChatFrom s order name (.ok answers) true = some (s', .ok ()) ∧
        Recovered s' order name (.ok answers) := by
  obtain ⟨chatData, hdata, -⟩ := reconstructChat_spec order (usable answers)
  have hrun : recoverChatFrom s order name (.ok answers) true =
      some (s.recoverChat name chatData true) := by
    simp only [recoverChatFrom]
    rw [if_neg henough, hdata]
    rfl
  rcases s.recoverChat_spec name chatData true with
    ⟨-, heq⟩ | ⟨hnew, n, chats, hopen, -, -, hchats, hres⟩
  · exact .inl (by rw [hrun, heq])
  · -- there is no directory, so no handle is cached either
    have hdirs := dirs_of_not_hasChat hnew
    have hnone : ¬ s.chats.IsCached name := by
      rw [hdirs, HandleStore.handle, Option.or_eq_none_iff] at hrefers
      exact not_not.mpr hrefers.1
    obtain ⟨hdisk, hfiles⟩ := HandleStore.open_create_of_not_cached hnone hopen
    set s' := (s.recoverChat name chatData true).1 with hs'
    rw [if_pos rfl] at hchats hres
    have hdisk' : s'.chats.dirs name = some n := by
      rw [hchats]
      exact hdisk
    have hopened : chats.handle name = some n := HandleStore.handle_open cacheCap_pos hopen
    have hhandle' : s'.chats.handle name = some n := by
      rw [hchats]
      exact hopened
    refine .inr ⟨s', hrun.trans (congrArg some (Prod.ext rfl hres)), answers, chatData,
      newChat.recoverMembers chatData, n, rfl, hdata, ?_,
      ⟨get_recoverMembers chatData, rfl, rfl⟩, hdisk', ?_⟩
    · rw [chatAt, hdisk', hchats, Option.map_some, HandleStore.files_write_self, hfiles]
    · rcases s'.getChat_cases name with ⟨hgone, -⟩ | ⟨m, -, -, hm, hget, -⟩
      · rw [hhandle'] at hgone
        cases hgone
      · rw [hget, Option.some.inj (hhandle'.symm.trans hm)]

end Cases

/-- **Recovering a chat** whose cached handle, if there is one, is of the chat on disk.
The recovery does not panic. If it answers `Ok`, the members of the chat are what is
reconstructed from the usable answers, and `get_chat` returns that chat. If it fails, the
chat is as it was, but for one case: with at most two usable answers a chat that is there
is removed, and the answer is `NotFound`. -/
theorem chat_recovery_outcome (s : Directories cr) (order : IterOrder (Identity × ReplVec Member))
    (name : ChatName)
    (resps : Except ChatError (ReplVec (NodeIdentity × Response (HashMap Identity Member))))
    (hrefers : s.chats.handle name = s.chats.dirs name) :
    ∃ s' res, recoverChatFrom s order name resps true = some (s', res) ∧
      (res = .ok () → Recovered s' order name resps) ∧
      (∀ e, res = .error e → s'.chatAt name = s.chatAt name ∨
        (TooFew resps ∧ s.chatAt name ≠ none)) ∧
      (TooFew resps → s.chatAt name ≠ none →
        res = .error .notFound ∧ s'.chatAt name = none) := by
  cases resps with
  | error e =>
      refine ⟨s, .error e, rfl, nofun, fun _ _ => .inl rfl, ?_⟩
      rintro ⟨answers, heq, -⟩
      cases heq
  | ok answers =>
      by_cases hfew : (usable answers).toList.length ≤ replicationFactor / 2
      · obtain ⟨s', e, hrun, hgone, hnotFound⟩ := recoverChatFrom_few s order name true hfew
        refine ⟨s', .error e, hrun, nofun, fun _ _ => ?_, fun _ hpresent => ?_⟩
        · by_cases hpresent : s.chatAt name = none
          · exact .inl (hgone.trans hpresent.symm)
          · exact .inr ⟨⟨answers, rfl, hfew⟩, hpresent⟩
        · rw [hnotFound hpresent]
          exact ⟨rfl, hgone⟩
      · have hmany : ¬ TooFew (Except.ok answers) := by
          rintro ⟨answers', heq, hle⟩
          cases heq
          exact hfew hle
        rcases recoverChatFrom_enough order hrefers hfew with
          hrun | ⟨s', hrun, hrecovered⟩
        · exact ⟨s, .error .alreadyExists, hrun, nofun, fun _ _ => .inl rfl,
            fun htoo => absurd htoo hmany⟩
        · exact ⟨s', .ok (), hrun, fun _ => hrecovered, nofun, fun htoo => absurd htoo hmany⟩

/-- Three nodes answer with one member each. -/
def threeTables : ReplVec (NodeIdentity × Response (HashMap Identity Member)) :=
  ⟨[(1, .ok (oneMember 5)), (2, .ok (oneMember 5)), (3, .ok (oneMember 5))], by decide⟩

/-- A chat that is missing is rebuilt. -/
theorem chat_recovery_rebuilt :
    ∃ s' res, recoverChatFrom emptyStorage asStored hall (.ok threeTables) true = some (s', res) ∧
      (res = .ok () → Recovered s' asStored hall (.ok threeTables)) ∧
      (∀ e, res = .error e → s'.chatAt hall = emptyStorage.chatAt hall ∨
        (TooFew (.ok threeTables) ∧ emptyStorage.chatAt hall ≠ none)) ∧
      (TooFew (.ok threeTables) → emptyStorage.chatAt hall ≠ none →
        res = .error .notFound ∧ s'.chatAt hall = none) :=
  chat_recovery_outcome emptyStorage asStored hall (.ok threeTables) rfl

/-- Two of the nodes do not have the chat. -/
def twoTables : ReplVec (NodeIdentity × Response (HashMap Identity Member)) :=
  ⟨[(1, .ok (oneMember 5)), (2, .ok (oneMember 5)), (3, .error (.io .notFound)),
    (4, .error (.io .notFound))], by decide⟩

/-- The chat is on disk, two nodes have it: it is gone, and the answer is an error. -/
theorem chat_recovery_removes :
    ∃ s s' : Directories Crypto.transparent, s.Refers ∧ s.chatAt hall ≠ none ∧
      recoverChatFrom s asStored hall (.ok twoTables) true = some (s', .error .notFound) ∧
      s'.chatAt hall ≠ s.chatAt hall := by
  have hempty : emptyStorage.Refers := refers_of_closed rfl rfl
  obtain ⟨hrefers, hshows⟩ := createChat_step hempty hall 7 true
  have hpresent := ne_of_eq_of_ne (hshows (by decide)) (Option.some_ne_none _)
  have hfew : (usable twoTables).toList.length ≤ replicationFactor / 2 := by decide
  obtain ⟨s', e, hrun, hgone, hnotFound⟩ :=
    recoverChatFrom_few (emptyStorage.createChat hall 7 true).1 asStored hall true hfew
  rw [hnotFound hpresent] at hrun
  exact ⟨_, s', hrefers, hpresent, hrun, ne_of_eq_of_ne hgone hpresent.symm⟩

end OnionNetwork.Server.Directories

/-! ## Profiles -/

namespace OnionNetwork.Server.Directories

open Chat Lib

variable {cr : Crypto}

section Qualifies

variable (identity : Identity) (resps : ReplVec (NodeIdentity × Response (Profile.RootFile cr)))
  (vaults : NodeIdentity → Except ChatError Bytes)

/-- The answer is a valid root of the identity, and the node serves the vault of it. -/
def Qualifies (answer : ProfileAnswer cr) (vault : Bytes) : Prop :=
  answer ∈ candidates identity resps ∧ vaults answer.1 = .ok vault ∧
    servedRoot cr vault = answer.2.vaultRoot

/-- No answer that qualifies has a larger sum of nonces. -/
def Newest (answer : ProfileAnswer cr) (vault : Bytes) : Prop :=
  Qualifies identity resps vaults answer vault ∧
    ∀ other vault', Qualifies identity resps vaults other vault' →
      nonceSum other ≤ nonceSum answer

end Qualifies

/-- On disk is a new profile with this root and this vault, and `get_profile` returns it. -/
def Installed (s : Directories cr) (identity : Identity) (profile : Profile.RootFile cr)
    (vault : Bytes) : Prop :=
  ∃ n, s.profiles.dirs identity = some n ∧ (s.getProfile identity).2 = .ok n ∧
    s.profiles.files n = ⟨profile, [], SortedMap.ofList (vaultEntries vault)⟩

/-- The recovery does not panic; and if an answer qualifies, it answers `Ok` and installs
one that is newest. -/
def InstallsNewest (identity : Identity)
    (resps : ReplVec (NodeIdentity × Response (Profile.RootFile cr)))
    (vaults : NodeIdentity → Except ChatError Bytes) (run : Option (Outcome cr Unit)) : Prop :=
  ∃ s' res, run = some (s', res) ∧
    ((∃ answer vault, Qualifies identity resps vaults answer vault) →
      res = .ok () ∧ ∃ answer vault, Newest identity resps vaults answer vault ∧
        Installed s' identity answer.2 vault)

/-- What `sort_unstable_by_key` promises. -/
def Sorts (sort : List (ProfileAnswer cr) → List (ProfileAnswer cr))
    (l : List (ProfileAnswer cr)) : Prop :=
  (sort l).Perm l ∧ (sort l).Pairwise fun a b => sortKey a ≤ sortKey b

/-- What an answer needs that comes first in the sorted list: it is a newest one, and its
vault fits into a transaction. -/
structure FirstIsNewest (s : Directories cr) (identity : Identity)
    (resps : ReplVec (NodeIdentity × Response (Profile.RootFile cr)))
    (vaults : NodeIdentity → Except ChatError Bytes) (commits : Bytes → Bool) : Prop where
  uncached : ∀ answer vault, Qualifies identity resps vaults answer vault →
    ¬ s.profiles.IsCached identity
  newest : ∀ answer vault, Qualifies identity resps vaults answer vault →
    (∀ other vault', Qualifies identity resps vaults other vault' →
      sortKey answer ≤ sortKey other) →
    Newest identity resps vaults answer vault ∧ commits vault = true

section Recovery

variable {s : Directories cr} {overflowChecks : Bool}
  {sort : List (ProfileAnswer cr) → List (ProfileAnswer cr)} {identity : Identity}
  {resps : ReplVec (NodeIdentity × Response (Profile.RootFile cr))}
  {vaults : NodeIdentity → Except ChatError Bytes} {commits : Bytes → Bool}

theorem fetchServed_eq_some {answer : ProfileAnswer cr} {r : Profile.RootFile cr × Bytes} :
    fetchServed vaults answer = some r ↔
      r.1 = answer.2 ∧ vaults answer.1 = .ok r.2 ∧ servedRoot cr r.2 = answer.2.vaultRoot := by
  unfold fetchServed
  split
  · next e he => simp [he]
  · next vault hvault =>
      rw [hvault]
      split
      · next hne =>
          refine iff_of_false nofun ?_
          rintro ⟨-, hok, hroot⟩
          exact hne (Except.ok.inj hok ▸ hroot)
      · next heq =>
          rw [ne_eq, not_not] at heq
          rw [Option.some.injEq]
          constructor
          · rintro rfl
            exact ⟨rfl, rfl, heq⟩
          · rintro ⟨hfirst, hok, -⟩
            exact Prod.ext hfirst.symm (Except.ok.inj hok)

theorem qualifies_iff {answer : ProfileAnswer cr} {vault : Bytes} :
    Qualifies identity resps vaults answer vault ↔
      answer ∈ candidates identity resps ∧
        fetchServed vaults answer = some (answer.2, vault) := by
  rw [fetchServed_eq_some]
  simp [Qualifies]

theorem identity_of_mem_candidates {answer : ProfileAnswer cr}
    (h : answer ∈ candidates identity resps) : answer.2.identity = identity :=
  of_decide_eq_true (List.mem_filter.mp (List.mem_filter.mp h).1).2

/-- Of the answers that are not skipped, the first one of the sorted list is installed. -/
theorem recoverProfileFrom_eq
    (hpanics : sortPanics overflowChecks (candidates identity resps) = false)
    {r : Profile.RootFile cr × Bytes}
    (hfirst : (sort (candidates identity resps)).findSome? (fetchServed vaults) = some r) :
    recoverProfileFrom s overflowChecks sort identity (.ok resps) vaults commits =
      some (s.recoverProfile r.1 r.2 (commits r.2)) := by
  simp only [recoverProfileFrom]
  rw [hpanics, if_neg Bool.false_ne_true, hfirst]

theorem getProfile_eq_ok_iff {n : Nat} :
    (s.getProfile identity).2 = .ok n ↔ s.profiles.handle identity = some n := by
  rcases s.getProfile_cases identity with ⟨hhandle, heq⟩ | ⟨m, profiles, -, hhandle, heq⟩
  · simp [heq, hhandle]
  · simp [heq, hhandle]

/-- Without a cached handle, and with a vault that fits, a recovery installs the profile. -/
theorem installed_of_not_cached {profile : Profile.RootFile cr} (vault : Bytes)
    (hid : profile.identity = identity) (hnone : ¬ s.profiles.IsCached identity) :
    (s.recoverProfile profile vault true).2 = .ok () ∧
      Installed (s.recoverProfile profile vault true).1 identity profile vault := by
  subst hid
  obtain ⟨n, profiles, hopen, -, heq⟩ := s.recoverProfile_spec profile vault true
  obtain ⟨hdirs, hfiles⟩ := HandleStore.open_create_of_not_cached hnone hopen
  have hhandle := HandleStore.handle_open cacheCap_pos hopen
  rw [heq, if_pos rfl]
  refine ⟨rfl, n, hdirs, getProfile_eq_ok_iff.mpr hhandle, ?_⟩
  show (profiles.write n _).files n = _
  rw [HandleStore.files_write_self, hfiles]
  rfl

/-- A recovery that installs some profile installs the given one; no handle was cached, and
the vault fitted. -/
theorem not_cached_of_installed {profile profile' : Profile.RootFile cr} {vault vault' : Bytes}
    {fits : Bool} (hid : profile.identity = identity)
    (hok : (s.recoverProfile profile vault fits).2 = .ok ())
    (hinstalled : Installed (s.recoverProfile profile vault fits).1 identity profile' vault') :
    fits = true ∧ ¬ s.profiles.IsCached identity ∧ profile' = profile := by
  subst hid
  obtain ⟨n, profiles, hopen, hfresh, heq⟩ := s.recoverProfile_spec profile vault fits
  rw [heq] at hok hinstalled
  cases fits with
  | false => cases hok
  | true =>
      obtain ⟨m, hm, hget, hfiles⟩ := hinstalled
      obtain ⟨-, hdirs, -⟩ := HandleStore.tryGetOrInsert_eq_some hopen
      have hhandle : profiles.handle profile.identity = some m := getProfile_eq_ok_iff.mp hget
      -- the handle that was opened is the one that is returned, and it is on disk
      have hmade : m = s.profiles.made := by
        have hdisk : profiles.dirs profile.identity = some m := hm
        rw [hdirs, HandleStore.dirs_create_self] at hdisk
        exact (Option.some.inj hdisk).symm
      have hsame : n = m :=
        Option.some.inj ((HandleStore.handle_open cacheCap_pos hopen).symm.trans hhandle)
      have hnone := hfresh.mp (hsame.trans hmade)
      refine ⟨rfl, hnone, ?_⟩
      obtain ⟨-, hcontents⟩ := HandleStore.open_create_of_not_cached hnone hopen
      subst hsame
      have hwritten : (profiles.write n ((profiles.files n).recoverVault vault)).files n =
          ⟨profile', [], SortedMap.ofList (vaultEntries vault')⟩ := hfiles
      rw [HandleStore.files_write_self, hcontents] at hwritten
      exact (congrArg Profile.Files.root hwritten).symm

/-- What comes first in the sorted list qualifies, and has the least key of those that do. -/
theorem first_of_sorts (hsorts : Sorts sort (candidates identity resps))
    {r : Profile.RootFile cr × Bytes}
    (hfirst : (sort (candidates identity resps)).findSome? (fetchServed vaults) = some r) :
    ∃ answer, r.1 = answer.2 ∧ Qualifies identity resps vaults answer r.2 ∧
      ∀ other vault', Qualifies identity resps vaults other vault' →
        sortKey answer ≤ sortKey other := by
  obtain ⟨answer, hmem, hfetch, hleast⟩ := findSome?_of_sorted hsorts.2 hfirst
  have hroot := (fetchServed_eq_some.mp hfetch).1
  refine ⟨answer, hroot, qualifies_iff.mpr ⟨hsorts.1.mem_iff.mp hmem, ?_⟩, ?_⟩
  · rw [hfetch, ← hroot]
  · intro other vault' hother
    obtain ⟨hin, hserved⟩ := qualifies_iff.mp hother
    exact hleast other (hsorts.1.mem_iff.mpr hin) (ne_of_eq_of_ne hserved (Option.some_ne_none _))

/-- An answer that qualifies with the least key can come first. -/
theorem exists_sorts_first {answer : ProfileAnswer cr} {vault : Bytes}
    (hanswer : Qualifies identity resps vaults answer vault)
    (hleast : ∀ other vault', Qualifies identity resps vaults other vault' →
      sortKey answer ≤ sortKey other) :
    ∃ sort : List (ProfileAnswer cr) → List (ProfileAnswer cr),
      Sorts sort (candidates identity resps) ∧
      (sort (candidates identity resps)).findSome? (fetchServed vaults) =
        some (answer.2, vault) := by
  obtain ⟨hin, hserved⟩ := qualifies_iff.mp hanswer
  have hkeys : ∀ other ∈ candidates identity resps, fetchServed vaults other ≠ none →
      sortKey answer ≤ sortKey other := by
    intro other hother hsome
    obtain ⟨r, hr⟩ := Option.ne_none_iff_exists'.mp hsome
    have hroot := (fetchServed_eq_some.mp hr).1
    exact hleast other r.2 (qualifies_iff.mpr ⟨hother, by rw [hr, ← hroot]⟩)
  obtain ⟨sorted, hperm, hsorted, hfirst⟩ := exists_sorted_findSome? hin hserved hkeys
  exact ⟨fun _ => sorted, ⟨hperm, hsorted⟩, hfirst⟩

/-- Under the condition every order of the sorted list installs a newest answer. -/
theorem installsNewest_of_first
    (hpanics : sortPanics overflowChecks (candidates identity resps) = false)
    (hcond : FirstIsNewest s identity resps vaults commits)
    (hsorts : Sorts sort (candidates identity resps)) :
    InstallsNewest identity resps vaults
      (recoverProfileFrom s overflowChecks sort identity (.ok resps) vaults commits) := by
  cases hfirst : (sort (candidates identity resps)).findSome? (fetchServed vaults) with
  | none =>
      refine ⟨s, .error .notFound, ?_, ?_⟩
      · simp only [recoverProfileFrom]
        rw [hpanics, if_neg Bool.false_ne_true, hfirst]
      · -- nothing qualifies
        rintro ⟨answer, vault, hanswer⟩
        obtain ⟨hin, hserved⟩ := qualifies_iff.mp hanswer
        have hskipped := List.findSome?_eq_none_iff.mp hfirst answer (hsorts.1.mem_iff.mpr hin)
        rw [hserved] at hskipped
        cases hskipped
  | some r =>
      obtain ⟨answer, hroot, hanswer, hleast⟩ := first_of_sorts hsorts hfirst
      obtain ⟨hnewest, hfits⟩ := hcond.newest answer r.2 hanswer hleast
      have hid : r.1.identity = identity := by
        rw [hroot]
        exact identity_of_mem_candidates hanswer.1
      obtain ⟨hok, hinstalled⟩ := installed_of_not_cached r.2 hid
        (hcond.uncached answer r.2 hanswer)
      refine ⟨_, _, recoverProfileFrom_eq hpanics hfirst, fun _ => ?_⟩
      rw [hfits]
      exact ⟨hok, answer, r.2, hnewest, hroot ▸ hinstalled⟩

end Recovery

/-- **Recovering a profile.** Whatever order the unstable sort leaves equal keys in, the
recovery does not panic, and installs a newest answer if any qualifies, exactly when:
computing the keys does not panic; and if an answer qualifies, no handle of the profile is
cached, and every answer with the least key among those that qualify is a newest one whose
vault fits into a transaction. -/
theorem profile_recovery_iff (s : Directories cr) (overflowChecks : Bool) (identity : Identity)
    (resps : ReplVec (NodeIdentity × Response (Profile.RootFile cr)))
    (vaults : NodeIdentity → Except ChatError Bytes) (commits : Bytes → Bool) :
    (∀ sort, Sorts sort (candidates identity resps) →
      InstallsNewest identity resps vaults
        (recoverProfileFrom s overflowChecks sort identity (.ok resps) vaults commits)) ↔
      sortPanics overflowChecks (candidates identity resps) = false ∧
        FirstIsNewest s identity resps vaults commits := by
  constructor
  · intro hall
    have hpanics : sortPanics overflowChecks (candidates identity resps) = false := by
      obtain ⟨s', res, hrun, -⟩ := hall (sortByCachedKey sortKey)
        ⟨sortByCachedKey_perm _ _, pairwise_sortByCachedKey _ _⟩
      by_contra hpanics
      simp only [recoverProfileFrom] at hrun
      rw [Bool.not_eq_false] at hpanics
      rw [hpanics, if_pos rfl] at hrun
      cases hrun
    -- an answer with the least key may come first, and is installed then
    have hinstalls : ∀ answer vault, Qualifies identity resps vaults answer vault →
        (∀ other vault', Qualifies identity resps vaults other vault' →
          sortKey answer ≤ sortKey other) →
        ¬ s.profiles.IsCached identity ∧ Newest identity resps vaults answer vault ∧
          commits vault = true := by
      intro answer vault hanswer hleast
      obtain ⟨sort, hsorts, hfirst⟩ := exists_sorts_first hanswer hleast
      obtain ⟨s', res, hrun, hinstalled⟩ := hall sort hsorts
      obtain ⟨hok, other, vault', hnewest, hother⟩ := hinstalled ⟨answer, vault, hanswer⟩
      rw [recoverProfileFrom_eq hpanics hfirst, Option.some.injEq] at hrun
      have hid := identity_of_mem_candidates hanswer.1
      have hok' : (s.recoverProfile answer.2 vault (commits vault)).2 = .ok () := by
        rw [hrun]
        exact hok
      have hother' : Installed (s.recoverProfile answer.2 vault (commits vault)).1 identity
          other.2 vault' := by
        rw [hrun]
        exact hother
      obtain ⟨hfits, hnone, hroot⟩ := not_cached_of_installed hid hok' hother'
      refine ⟨hnone, ⟨hanswer, fun third vault'' hthird => ?_⟩, hfits⟩
      have hsum : nonceSum other = nonceSum answer := by
        rw [nonceSum, nonceSum, hroot]
      exact hsum ▸ hnewest.2 third vault'' hthird
    refine ⟨hpanics, ?_, fun answer vault hanswer hleast =>
      (hinstalls answer vault hanswer hleast).2⟩
    intro answer vault hanswer
    -- one of the answers that qualify has the least key
    obtain ⟨sort, hsorts, -⟩ : ∃ sort, Sorts sort (candidates identity resps) ∧ True :=
      ⟨sortByCachedKey sortKey, ⟨sortByCachedKey_perm _ _, pairwise_sortByCachedKey _ _⟩, trivial⟩
    cases hfirst : (sort (candidates identity resps)).findSome? (fetchServed vaults) with
    | none =>
        obtain ⟨hin, hserved⟩ := qualifies_iff.mp hanswer
        have hskipped := List.findSome?_eq_none_iff.mp hfirst answer (hsorts.1.mem_iff.mpr hin)
        rw [hserved] at hskipped
        cases hskipped
    | some r =>
        obtain ⟨least, -, hleast, hall'⟩ := first_of_sorts hsorts hfirst
        exact (hinstalls least r.2 hleast hall').1
  · rintro ⟨hpanics, hcond⟩ sort hsorts
    exact installsNewest_of_first hpanics hcond hsorts

/-- A root that the key 7 signed, of an empty vault. -/
def signedRoot (vaultVersion : Nonce) : Profile.RootFile Crypto.transparent where
  vaultVersion
  mailAction := 0
  sign := (7 : Hash)
  enc := []
  vaultSig := (Proof.transparent 7 vaultVersion (0 : Hash)).signature
  mailSig := (Proof.transparent 7 0 ({} : Mail)).signature
  vaultRoot := 0

/-- One replica is behind. -/
def twoRoots : ReplVec (NodeIdentity × Response (Profile.RootFile Crypto.transparent)) :=
  ⟨[(1, .ok (signedRoot 1)), (2, .ok (signedRoot 5))], by decide⟩

/-- Both serve the empty vault. -/
def emptyVaults : NodeIdentity → Except ChatError Bytes := fun _ => .ok []

theorem qualifies_newer : Qualifies (signedRoot 5).identity twoRoots emptyVaults
    (2, signedRoot 5) [] := by
  refine ⟨List.mem_filter.mpr ⟨List.mem_filter.mpr ⟨?_, ?_⟩, ?_⟩, rfl, ?_⟩
  · exact List.mem_cons_of_mem _ List.mem_cons_self
  · decide
  · decide +kernel
  · decide

/-- The older root is installed. -/
theorem profile_recovery_older :
    ¬ ∀ sort, Sorts sort (candidates (signedRoot 5).identity twoRoots) →
      InstallsNewest (signedRoot 5).identity twoRoots emptyVaults
        (recoverProfileFrom emptyStorage true sort (signedRoot 5).identity (.ok twoRoots)
          emptyVaults fun _ => true) := by
  intro hall
  obtain ⟨s', res, hrun, hinstalls⟩ := hall (sortByCachedKey sortKey)
    ⟨sortByCachedKey_perm _ _, pairwise_sortByCachedKey _ _⟩
  obtain ⟨-, answer, vault, hnewest, n, hdirs, -, hfiles⟩ := hinstalls ⟨_, _, qualifies_newer⟩
  have hsum : ((recoverProfileFrom emptyStorage true (sortByCachedKey sortKey)
      (signedRoot 5).identity (.ok twoRoots) emptyVaults fun _ => true).bind fun r =>
      (r.1.profileAt (signedRoot 5).identity).map fun files =>
        files.root.vaultVersion + files.root.mailAction) = some 1 := by decide +kernel
  rw [hrun, Option.bind_some, profileAt, hdirs, Option.map_some, Option.map_some, hfiles] at hsum
  have hle := hnewest.2 _ _ qualifies_newer
  rw [show nonceSum answer = 1 from Option.some.inj hsum] at hle
  exact absurd hle (by decide)

end OnionNetwork.Server.Directories
