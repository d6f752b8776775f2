import OnionNetwork.Lib.Alphabets
import OnionNetwork.Lib.FileTree
import OnionNetwork.Lib.StateFrame
import OnionNetwork.Server.Directories

/-!
# The directories of profiles and chats, by path

`storage::Storage` on a tree of files. The path of a chat is built from the root of the
storage, `CHAT_DIR` and the name in base64, and the path of a profile likewise. `Directories`
names a directory by what it is for; here it is the place that the path leads to.

What is written stays when a later part of an operation fails. A write transaction of LMDB may
fail to commit; whether it commits is an argument. All else fails only as the tree says.
-/

namespace OnionNetwork.Server

open Chat Lib

variable {cr : Crypto}

/-- What a file holds. The data file of an LMDB environment holds its table. -/
inductive Contents (cr : Crypto)
  | bytes (bytes : Bytes)
  | chatRoot (root : Root)
  | profileRoot (root : Profile.RootFile cr)
  | members (table : Members)
  | vault (table : SortedMap Hash Bytes)

/-- The files, and the open handles in the two caches. A handle is known by the data file of
its LMDB environment, the only one of its files that is used below. -/
structure Disk (cr : Crypto) where
  tree : FileTree (Contents cr)
  chats : HashMap ChatName Nat
  profiles : HashMap Identity Nat

/-- The storage of a process that was just started. -/
def Disk.start (tree : FileTree (Contents cr)) : Disk cr where
  tree
  chats := ⟨[], List.nodup_nil⟩
  profiles := ⟨[], List.nodup_nil⟩

/-- An operation on the storage. -/
abbrev DiskM (cr : Crypto) := Prog ChatError (Disk cr)

/-! ### Paths -/

/-- Text as bytes. -/
def ascii (text : List Char) : Bytes := text.map fun c => UInt8.ofNat c.toNat

/-- `CHAT_DIR`. -/
def chatDir : Bytes := ascii ['c', 'h', 'a', 't', 's', '/']

/-- `PROFILE_DIR`. -/
def profileDir : Bytes := ascii ['p', 'r', 'o', 'f', 'i', 'l', 'e', 's', '/']

/-- `ROOT_PATH`, of a chat and of a profile. -/
def rootPath : Bytes := ascii ['r', 'o', 'o', 't', '.', 'b', 'i', 'n']

/-- `BLOCKS_PATH`. -/
def blocksPath : Bytes := ascii ['b', 'l', 'o', 'c', 'k', 's', '.', 'b', 'i', 'n']

/-- `MEMBERS_PATH`. -/
def membersPath : Bytes := ascii ['m', 'e', 'm', 'b', 'e', 'r', 's', '.', 'l', 'm', 'd', 'b']

/-- `MAILBOX_PATH`. -/
def mailboxPath : Bytes := ascii ['m', 'a', 'i', 'l', 'b', 'o', 'x', '.', 'b', 'i', 'n']

/-- `VAULT`. -/
def vaultPath : Bytes := ascii ['v', 'a', 'u', 'l', 't', '.', 'l', 'm', 'd', 'b']

/-- The files of an LMDB environment. -/
def dataPath : Bytes := ascii ['d', 'a', 't', 'a', '.', 'm', 'd', 'b']

def lockPath : Bytes := ascii ['l', 'o', 'c', 'k', '.', 'm', 'd', 'b']

/-- `push_id`: the buffer takes 64 letters. -/
def pushId (root id : Bytes) : Option Bytes :=
  let text := Base64.encode id
  if text.length ≤ 64 then some (Path.push root text) else none

/-- Where the process runs, and the root of its storage. -/
structure Location where
  workingDir : Place
  root : Bytes

namespace Location

variable (loc : Location)

/-- The place that a path leads to. -/
def place (path : Bytes) : Place := Path.resolve loc.workingDir path

/-- The path of a chat. -/
def chatPath (name : ChatName) : Option Bytes := pushId (Path.push loc.root chatDir) name.asBytes

/-- The path of a profile. -/
def profilePath (id : Identity) : Option Bytes :=
  pushId (Path.push loc.root profileDir) id.toBytes

end Location

/-- Who a directory belongs to. -/
inductive Area
  | chat (name : ChatName)
  | profile (id : Identity)
  deriving DecidableEq

/-- The path of a directory. Where a name did not fit, the path would stay without it. -/
def Area.path (loc : Location) : Area → Bytes
  | .chat name => (loc.chatPath name).getD (Path.push loc.root chatDir)
  | .profile id => (loc.profilePath id).getD (Path.push loc.root profileDir)

/-- The place of a directory: where its path leads. -/
def Area.place (loc : Location) (area : Area) : Place := loc.place (area.path loc)

namespace Disk

variable (loc : Location)

/-- A failure that is reported with `context`. -/
def internal (_ : FileError) : ChatError := .ise

/-- A failure that is reported as it is. -/
def io : FileError → ChatError
  | .notFound => .io .notFound
  | .alreadyExists => .io .alreadyExists
  | .notADirectory => .io .other
  | .isADirectory => .io .other

/-- An operation on the tree. -/
def onTree (op : FileTree (Contents cr) → Except FileError (FileTree (Contents cr)))
    (report : FileError → ChatError) : DiskM cr Unit := do
  let s ← get
  match op s.tree with
  | .error e => throw (report e)
  | .ok tree => modify fun s => { s with tree }

/-- `return Err(..)` under a condition. -/
def refuse (cond : Bool) (e : ChatError) : DiskM cr Unit := if cond then throw e else pure ()

/-- `push_id(..)?`. -/
def built (path : Option Bytes) : DiskM cr Bytes :=
  match path with
  | none => throw .ise
  | some path => pure path

/-- `OpenOptions::open` of a file that has to be there. -/
def openPlain (path : Bytes) (report : FileError → ChatError) : DiskM cr Nat := do
  let s ← get
  match s.tree.openFile (loc.place path) with
  | .error e => throw (report e)
  | .ok n => pure n

/-- A file is made if there is none. -/
def createMissing (path : Bytes) (blank : Contents cr) : DiskM cr Unit := do
  let s ← get
  if s.tree.present (loc.place path) then pure ()
  else onTree (fun tree => tree.write (loc.place path) blank) internal

/-- `open_lmdb`: the handle of the data file. -/
def openLmdb (path : Bytes) (blank : Contents cr) : DiskM cr Nat := do
  createMissing loc (Path.push path lockPath) (.bytes [])
  createMissing loc (Path.push path dataPath) blank
  openPlain loc (Path.push path dataPath) internal

/-! ### Chats -/

/-- `chat::exists`. -/
def chatExists (s : Disk cr) (name : ChatName) : Bool :=
  let root := Path.push loc.root chatDir
  s.tree.present (loc.place ((pushId root name.asBytes).getD root))

/-- `chat::Handle::create`. -/
def createChatDir (name : ChatName) : DiskM cr Unit := do
  let root ← built (loc.chatPath name)
  let s ← get
  refuse (s.tree.present (loc.place root)) .alreadyExists
  onTree (fun tree => tree.createDirAll (loc.place root)) internal
  onTree (fun tree => tree.write (loc.place (Path.push root rootPath)) (.chatRoot {})) internal
  onTree (fun tree => tree.write (loc.place (Path.push root blocksPath)) (.bytes [])) internal
  onTree (fun tree => tree.createDir (loc.place (Path.push root membersPath))) internal

/-- `chat::Handle::load`. -/
def loadChat (name : ChatName) : DiskM cr Nat := do
  let root ← built (loc.chatPath name)
  let _ ← openPlain loc (Path.push root rootPath) io
  let _ ← openPlain loc (Path.push root blocksPath) io
  openLmdb loc (Path.push root membersPath) (.members SortedMap.empty)

/-- The handle that is cached, or a new one. -/
def chatHandle (name : ChatName) : DiskM cr Nat := do
  let s ← get
  match s.chats.get name with
  | some n => pure n
  | none => loadChat loc name

/-- `Storage::get_chat`. -/
def getChat (name : ChatName) : DiskM cr Nat := do
  let n ← chatHandle loc name
  modify fun s => { s with chats := HandleStore.touch cacheCap s.chats name n }
  pure n

/-- The table of a chat, through a handle. -/
def membersOf (n : Nat) : DiskM cr Members := do
  let s ← get
  match s.tree.content n with
  | .members table => pure table
  | _ => throw .ise

/-- A transaction that puts a table in place of another. -/
def commit (n : Nat) (contents : Contents cr) (commits : Bool) : DiskM cr Unit :=
  if commits then modify fun s => { s with tree := s.tree.writeOpen n contents } else throw .ise

/-- `chat::Handle::create_member`. -/
def createMember (n : Nat) (id : Identity) (member : Member) (commits : Bool) :
    DiskM cr Unit := do
  let table ← membersOf n
  refuse (table.get id).isSome .ise
  commit n (.members (table.put id member)) commits

/-- `chat::Handle::recover_members`. -/
def recoverMembers (n : Nat) (chatData : HashMap Identity Member) (commits : Bool) :
    DiskM cr Unit := do
  let _ ← membersOf n
  commit n (.members (SortedMap.ofList chatData.entries)) commits

/-- `Storage::create_chat`. -/
def createChat (name : ChatName) (identity : Identity) (commits : Bool) : DiskM cr Unit := do
  createChatDir loc name
  let n ← getChat loc name
  createMember n identity Member.best commits

/-- `Storage::remove_chat`, which is `chat::Handle::remove`. -/
def removeChat (name : ChatName) : DiskM cr Unit := do
  let root ← built (loc.chatPath name)
  onTree (fun tree => tree.removeDirAll (loc.place root)) io

/-- `Storage::recover_chat`. -/
def recoverChat (name : ChatName) (chatData : HashMap Identity Member) (commits : Bool) :
    DiskM cr Unit := do
  createChatDir loc name
  let n ← getChat loc name
  recoverMembers n chatData commits

/-! ### Profiles -/

/-- `profile::exists`. -/
def profileExists (s : Disk cr) (id : Identity) : Bool :=
  let root := Path.push loc.root profileDir
  s.tree.present (loc.place ((pushId root id.toBytes).getD root))

/-- A directory that is there already is taken away, or makes the operation fail. -/
def makeRoom (path : Bytes) (canOwerride : Bool) : DiskM cr Unit := do
  let s ← get
  if s.tree.present (loc.place path) then do
    refuse (!canOwerride) .alreadyExists
    onTree (fun tree => tree.removeDirAll (loc.place path)) internal
  else pure ()

/-- `profile::Handle::create`. -/
def createProfileDir (root : Profile.RootFile cr) (canOwerride : Bool) : DiskM cr Unit := do
  let path ← built (loc.profilePath root.identity)
  makeRoom loc path canOwerride
  onTree (fun tree => tree.createDirAll (loc.place path)) internal
  onTree (fun tree => tree.write (loc.place (Path.push path rootPath)) (.profileRoot root))
    internal
  onTree (fun tree => tree.write (loc.place (Path.push path mailboxPath)) (.bytes [])) internal
  onTree (fun tree => tree.createDir (loc.place (Path.push path vaultPath))) internal

/-- `profile::Handle::load`. -/
def loadProfile (id : Identity) : DiskM cr Nat := do
  let path ← built (loc.profilePath id)
  let s ← get
  refuse (!s.tree.present (loc.place path)) .notFound
  let _ ← openPlain loc (Path.push path mailboxPath) io
  let _ ← openPlain loc (Path.push path rootPath) io
  openLmdb loc (Path.push path vaultPath) (.vault SortedMap.empty)

/-- The handle that is cached, or a new one. -/
def profileHandle (id : Identity) : DiskM cr Nat := do
  let s ← get
  match s.profiles.get id with
  | some n => pure n
  | none => loadProfile loc id

/-- `Storage::get_profile`. -/
def getProfile (id : Identity) : DiskM cr Nat := do
  let n ← profileHandle loc id
  modify fun s => { s with profiles := HandleStore.touch cacheCap s.profiles id n }
  pure n

/-- `Storage::create_profile`. -/
def createProfile (proof : Proof cr Hash) (enc : Bytes) : DiskM cr Unit := do
  refuse (proof.nonce ≠ 0) (.invalidAction 0)
  refuse (proof.context ≠ 0) .invalidProofContext
  let s ← get
  refuse (profileExists loc s proof.identity) .alreadyExists
  refuse (!proof.verify) .invalidProof
  createProfileDir loc (Directories.newRoot proof enc) false

/-- `profile::Handle::recover_vault`. -/
def recoverVault (n : Nat) (vault : Bytes) (commits : Bool) : DiskM cr Unit :=
  commit n (.vault (SortedMap.ofList (vaultEntries vault))) commits

/-- `Storage::recover_profile`. -/
def recoverProfile (profile : Profile.RootFile cr) (vault : Bytes) (commits : Bool) :
    DiskM cr Unit := do
  createProfileDir loc profile true
  let n ← getProfile loc profile.identity
  recoverVault n vault commits

/-! ### Operations -/

/-- The operations on chats and profiles. -/
inductive Op (cr : Crypto)
  | createChat (name : ChatName) (identity : Identity) (commits : Bool)
  | hasChat (name : ChatName)
  | removeChat (name : ChatName)
  | recoverChat (name : ChatName) (chatData : HashMap Identity Member) (commits : Bool)
  | createProfile (proof : Proof cr Hash) (enc : Bytes)
  | hasProfile (id : Identity)
  | recoverProfile (profile : Profile.RootFile cr) (vault : Bytes) (commits : Bool)

/-- What an operation is about. -/
def Op.area : Op cr → Area
  | .createChat name _ _ => .chat name
  | .hasChat name => .chat name
  | .removeChat name => .chat name
  | .recoverChat name _ _ => .chat name
  | .createProfile proof _ => .profile proof.identity
  | .hasProfile id => .profile id
  | .recoverProfile profile _ _ => .profile profile.identity

/-- `exists` of a chat or a profile. -/
def has (s : Disk cr) : Area → Bool
  | .chat name => chatExists loc s name
  | .profile id => profileExists loc s id

/-- An operation. Only a question is answered. -/
def perform : Op cr → DiskM cr (Option Bool)
  | .createChat name identity commits => do
      createChat loc name identity commits
      pure none
  | .hasChat name => do
      let s ← get
      pure (some (chatExists loc s name))
  | .removeChat name => do
      removeChat loc name
      pure none
  | .recoverChat name chatData commits => do
      recoverChat loc name chatData commits
      pure none
  | .createProfile proof enc => do
      createProfile loc proof enc
      pure none
  | .hasProfile id => do
      let s ← get
      pure (some (profileExists loc s id))
  | .recoverProfile profile vault commits => do
      recoverProfile loc profile vault commits
      pure none

end Disk

/-- The storage under operations. -/
def diskMachine (cr : Crypto) (loc : Location) :
    Machine (Disk cr) (Disk.Op cr) (Except ChatError (Option Bool)) :=
  ⟨fun s op =>
    let (answer, s) := (Disk.perform loc op).exec s
    (s, answer)⟩

/-! ### Where the paths lead -/

section Places

variable (loc : Location)

theorem pushId_of_le {root id : Bytes} (h : id.length ≤ 32) :
    pushId root id = some (Path.push root (Base64.encode id)) := by
  apply if_pos
  rw [Base64.length_encode]
  omega

theorem length_toBytes_le (id : Identity) : id.toBytes.length ≤ 32 :=
  Nat.le_of_eq (Hash.length_toBytes id)

theorem chatPath_eq (name : ChatName) : loc.chatPath name = some ((Area.chat name).path loc) := by
  have hfits : loc.chatPath name = some _ := pushId_of_le name.size_le
  rw [Area.path, hfits, Option.getD_some]

theorem profilePath_eq (id : Identity) :
    loc.profilePath id = some ((Area.profile id).path loc) := by
  have hfits : loc.profilePath id = some _ := pushId_of_le (length_toBytes_le id)
  rw [Area.path, hfits, Option.getD_some]

/-- The exists of a chat asks for its place, also if its name is empty. -/
theorem has_eq (s : Disk cr) (area : Area) :
    s.has loc area = s.tree.present (area.place loc) := by
  cases area <;> rfl

/-- A directory of the storage, and what its name in base64 leads to. -/
theorem place_pushed (root id : Bytes) :
    loc.place (Path.push root (Base64.encode id)) =
      loc.place root ++ (if id = [] then [] else [Base64.encode id]) := by
  by_cases hnil : id = []
  · rw [hnil, if_pos rfl, List.append_nil]
    exact Path.resolve_push_nil
  · have hletters := Base64.letters_encode id
    rw [if_neg hnil]
    apply Path.resolve_push_plain (mt Base64.encode_eq_nil.mp hnil)
    · intro hone
      exact (hletters Path.dot (by simp [hone])).1 rfl
    · intro htwo
      exact (hletters Path.dot (by simp [htwo])).1 rfl
    · exact fun c hc => (hletters c hc).2

/-- The names of the two directories, without the separator at their end. -/
def chatDirName : Bytes := ascii ['c', 'h', 'a', 't', 's']

def profileDirName : Bytes := ascii ['p', 'r', 'o', 'f', 'i', 'l', 'e', 's']

theorem place_chatDir :
    loc.place (Path.push loc.root chatDir) = loc.place loc.root ++ [chatDirName] := by
  rw [Location.place, Path.resolve_push _ _ (by decide)]
  have hpieces : chatDir.splitOn Path.separator = [chatDirName, []] := by decide
  rw [hpieces]
  rfl

theorem place_profileDir :
    loc.place (Path.push loc.root profileDir) = loc.place loc.root ++ [profileDirName] := by
  rw [Location.place, Path.resolve_push _ _ (by decide)]
  have hpieces : profileDir.splitOn Path.separator = [profileDirName, []] := by decide
  rw [hpieces]
  rfl

theorem place_chat (name : ChatName) : (Area.chat name).place loc =
    loc.place loc.root ++ chatDirName ::
      (if name.asBytes = [] then [] else [Base64.encode name.asBytes]) := by
  have hpath : (Area.chat name).path loc = _ :=
    Option.some.inj ((chatPath_eq loc name).symm.trans (pushId_of_le name.size_le))
  rw [Area.place, hpath, place_pushed, place_chatDir, List.append_assoc, List.singleton_append]

theorem place_profile (id : Identity) : (Area.profile id).place loc =
    loc.place loc.root ++ profileDirName :: [Base64.encode id.toBytes] := by
  have hpath : (Area.profile id).path loc = _ :=
    Option.some.inj ((profilePath_eq loc id).symm.trans (pushId_of_le (length_toBytes_le id)))
  have hnil : id.toBytes ≠ [] := by
    apply List.ne_nil_of_length_pos
    rw [Hash.length_toBytes]
    decide
  rw [Area.place, hpath, place_pushed, place_profileDir, if_neg hnil, List.append_assoc,
    List.singleton_append]

end Places

end OnionNetwork.Server
