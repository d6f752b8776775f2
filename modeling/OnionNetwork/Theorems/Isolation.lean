import OnionNetwork.Server.Disk
import OnionNetwork.Server.Requests
import OnionNetwork.Theorems.Topics

/-!
# Chats apart from one another on disk

An operation on a chat or a profile works below its directory: its paths lead there, and so do
the handles in the cache, unless their files are gone. The names of the directories are base64
of different bytes, so none of them is below another one, but for one name: base64 of nothing is
nothing, and the chat with the empty name has the directory in which all chats are. Two chats are
isolated from one another exactly if neither name is empty (`isolated_iff`).
-/

namespace OnionNetwork.Server

open Chat Lib FileTree

variable {cr : Crypto} {loc : Location}

/-- The open handles hold files below their directories, or files that are gone. -/
def Disk.Held (loc : Location) (s : Disk cr) : Prop :=
  (∀ name n, s.chats.get name = some n → HeldBelow ((Area.chat name).place loc) s.tree n) ∧
    ∀ id n, s.profiles.get id = some n → HeldBelow ((Area.profile id).place loc) s.tree n

/-- The handles hold what they should, and nothing changes apart from the directory. -/
def areaFrame (cr : Crypto) (loc : Location) (area : Area) : StateFrame (Disk cr) where
  Inv := Disk.Held loc
  Rel s s' := ∀ top, Apart top (area.place loc) → Unchanged top s.tree s'.tree
  refl _ top _ := Unchanged.refl top _
  trans _ _ _ h h' top hapart := (h top hapart).trans (h' top hapart)

namespace Disk

theorem Held.openKept {s : Disk cr} {tree : FileTree (Contents cr)} (h : s.Held loc)
    (hkept : OpenKept s.tree tree) : ({ s with tree } : Disk cr).Held loc :=
  ⟨fun name n hn => (h.1 name n hn).openKept hkept,
    fun id n hn => (h.2 id n hn).openKept hkept⟩

/-! ### Parts of an operation -/

section Parts

variable {area : Area} {P : Disk cr → Prop} {n : Nat}

theorem refuse_triple (cond : Bool) (e : ChatError) :
    (areaFrame cr loc area).Triple P (refuse cond e) fun _ => P := by
  apply StateFrame.Triple.ite
  · exact fun _ => StateFrame.Triple.throw e
  · exact fun _ => StateFrame.Triple.pure fun _ _ h => h

/-- What an operation on the tree does to it is what matters. -/
theorem onTree_triple {op : FileTree (Contents cr) → Except FileError (FileTree (Contents cr))}
    {report : FileError → ChatError}
    (hop : ∀ t t', op t = .ok t' → OpenKept t t' ∧
      ∀ top, Apart top (area.place loc) → Unchanged top t t') :
    (areaFrame cr loc area).Triple (fun _ => True) (onTree op report) fun _ _ => True := by
  apply StateFrame.Triple.get_bind
  intro s
  cases ht : op s.tree with
  | error e => exact StateFrame.Triple.throw _
  | ok tree =>
      obtain ⟨hkept, hunchanged⟩ := hop s.tree tree ht
      apply StateFrame.Triple.modify
      · rintro s' hheld ⟨rfl, -⟩
        exact Held.openKept hheld hkept
      · rintro s' - ⟨rfl, -⟩
        exact hunchanged
      · exact fun _ _ _ => trivial

/-- Nothing that is apart from the directory is on the way to what is below it. -/
theorem not_above {top place : Place} (hapart : Apart top (area.place loc))
    (hbelow : area.place loc <+: place) : ¬ top <+: place := by
  intro htop
  rcases List.prefix_or_prefix_of_prefix htop hbelow with h | h
  · exact hapart.1 h
  · exact hapart.2 h

/-- An operation that changes nothing outside of what is at its place. -/
theorem atPlace_triple {op : FileTree (Contents cr) → Except FileError (FileTree (Contents cr))}
    {place : Place} (hbelow : area.place loc <+: place)
    (hop : ∀ t t', op t = .ok t' → OpenKept t t' ∧
      ∀ top, ¬ top <+: place → Unchanged top t t') :
    (areaFrame cr loc area).Triple (fun _ => True) (onTree op internal) fun _ _ => True := by
  apply onTree_triple
  intro t t' ht
  obtain ⟨hkept, hunchanged⟩ := hop t t' ht
  exact ⟨hkept, fun top hapart => hunchanged top (not_above hapart hbelow)⟩

theorem createDirAll_triple {place : Place} (hbelow : area.place loc <+: place) :
    (areaFrame cr loc area).Triple (fun _ => True)
      (onTree (fun tree => tree.createDirAll place) internal) fun _ _ => True :=
  atPlace_triple hbelow fun _ _ ht => (createDirAll_spec ht).2

theorem createDir_triple {place : Place} (hbelow : area.place loc <+: place) :
    (areaFrame cr loc area).Triple (fun _ => True)
      (onTree (fun tree => tree.createDir place) internal) fun _ _ => True :=
  atPlace_triple hbelow fun _ _ ht => createDir_spec ht

theorem write_triple {place : Place} {contents : Contents cr}
    (hbelow : area.place loc <+: place) :
    (areaFrame cr loc area).Triple (fun _ => True)
      (onTree (fun tree => tree.write place contents) internal) fun _ _ => True :=
  atPlace_triple hbelow fun _ _ ht => (write_spec ht).2

theorem removeDirAll_triple {report : FileError → ChatError} :
    (areaFrame cr loc area).Triple (fun _ => True)
      (onTree (fun tree => tree.removeDirAll (area.place loc)) report) fun _ _ => True := by
  apply onTree_triple
  intro t t' ht
  obtain ⟨-, hkept, hunchanged⟩ := removeDirAll_spec ht
  exact ⟨hkept, hunchanged⟩

/-- A file that is opened below the directory is held there. -/
theorem openPlain_triple {path : Bytes} {report : FileError → ChatError}
    (hbelow : area.place loc <+: loc.place path) :
    (areaFrame cr loc area).Triple (fun _ => True) (openPlain loc path report)
      fun n s => HeldBelow (area.place loc) s.tree n := by
  apply StateFrame.Triple.get_bind
  intro s
  cases hopen : s.tree.openFile (loc.place path) with
  | error e => exact StateFrame.Triple.throw _
  | ok n =>
      apply StateFrame.Triple.pure
      rintro s' - ⟨rfl, -⟩
      exact heldBelow_of_entry (openFile_eq_ok.mp hopen) hbelow

theorem createMissing_triple {path : Bytes} {blank : Contents cr}
    (hbelow : area.place loc <+: loc.place path) :
    (areaFrame cr loc area).Triple (fun _ => True) (createMissing loc path blank)
      fun _ _ => True := by
  apply StateFrame.Triple.get_bind
  intro s
  apply StateFrame.Triple.ite
  · exact fun _ => StateFrame.Triple.pure fun _ _ _ => trivial
  · exact fun _ => (write_triple hbelow).weaken (fun _ _ => trivial) fun _ _ h => h

/-- The name of a file. -/
def IsFileName (name : Bytes) : Prop :=
  (name ≠ [] ∧ name ≠ [Path.dot] ∧ name ≠ [Path.dot, Path.dot]) ∧ ∀ c ∈ name, c ≠ Path.separator

instance (name : Bytes) : Decidable (IsFileName name) :=
  have : Decidable (∀ c ∈ name, c ≠ Path.separator) := List.decidableBAll _ name
  inferInstanceAs (Decidable (_ ∧ _))

/-- The file is in the directory that the path leads to. -/
theorem place_file (loc : Location) (path : Bytes) {name : Bytes} (h : IsFileName name) :
    loc.place (Path.push path name) = loc.place path ++ [name] :=
  Path.resolve_push_plain h.1.1 h.1.2.1 h.1.2.2 h.2

theorem below_file {path name : Bytes} (hbelow : area.place loc <+: loc.place path)
    (hname : IsFileName name) : area.place loc <+: loc.place (Path.push path name) := by
  rw [place_file loc path hname]
  exact hbelow.trans (List.prefix_append _ _)

theorem openLmdb_triple {path : Bytes} {blank : Contents cr}
    (hbelow : area.place loc <+: loc.place path) :
    (areaFrame cr loc area).Triple (fun _ => True) (openLmdb loc path blank)
      fun n s => HeldBelow (area.place loc) s.tree n := by
  have hdata : area.place loc <+: loc.place (Path.push path dataPath) :=
    below_file hbelow (by decide)
  have hlock : area.place loc <+: loc.place (Path.push path lockPath) :=
    below_file hbelow (by decide)
  apply (createMissing_triple hlock).bind
  intro _
  apply (createMissing_triple hdata).bind
  intro _
  exact openPlain_triple hdata

/-! ### Through a handle -/

theorem membersOf_triple :
    (areaFrame cr loc area).Triple P (membersOf n) fun _ => P := by
  apply StateFrame.Triple.get_bind
  intro s
  cases s.tree.content n with
  | members table => exact StateFrame.Triple.pure fun _ _ h => h.2
  | bytes bytes => exact StateFrame.Triple.throw _
  | chatRoot root => exact StateFrame.Triple.throw _
  | profileRoot root => exact StateFrame.Triple.throw _
  | vault table => exact StateFrame.Triple.throw _

theorem commit_triple {contents : Contents cr} {commits : Bool} :
    (areaFrame cr loc area).Triple (fun s => HeldBelow (area.place loc) s.tree n)
      (commit n contents commits) fun _ _ => True := by
  apply StateFrame.Triple.ite
  · intro _
    apply StateFrame.Triple.modify
    · exact fun s hheld _ => Held.openKept hheld (writeOpen_openKept s.tree n contents)
    · exact fun s _ hn top hapart => hn.unchanged hapart contents
    · exact fun _ _ _ => trivial
  · exact fun _ => StateFrame.Triple.throw _

/-- A handle that was found is remembered. -/
theorem remembered_triple {handle : DiskM cr Nat} {remember : Nat → Disk cr → Disk cr}
    (hhandle : (areaFrame cr loc area).Triple (fun _ => True) handle
      fun n s => HeldBelow (area.place loc) s.tree n)
    (htree : ∀ n s, (remember n s).tree = s.tree)
    (hremember : ∀ n s, Held loc s → HeldBelow (area.place loc) s.tree n →
      Held loc (remember n s)) :
    (areaFrame cr loc area).Triple (fun _ => True)
      (do let n ← handle; modify (remember n); pure n)
      fun n s => HeldBelow (area.place loc) s.tree n := by
  apply hhandle.bind
  intro n
  apply StateFrame.Triple.bind (Q := fun _ s => HeldBelow (area.place loc) s.tree n)
  · apply StateFrame.Triple.modify
    · exact fun s hheld hn => hremember n s hheld hn
    · intro s _ _ top _
      rw [htree]
      exact Unchanged.refl top s.tree
    · intro s _ hn
      rw [htree]
      exact hn
  · exact fun _ => StateFrame.Triple.pure fun _ _ hn => hn

end Parts

/-- A path that could be built. -/
theorem built_some {α : Type} (path : Bytes) (f : Bytes → DiskM cr α) :
    built (some path) >>= f = f path := rfl

/-! ### Chats -/

section Chats

variable {name : ChatName}

theorem createChatDir_triple : (areaFrame cr loc (.chat name)).Triple (fun _ => True)
    (createChatDir loc name) fun _ _ => True := by
  have hbelow : (Area.chat name).place loc <+: loc.place ((Area.chat name).path loc) :=
    List.prefix_refl _
  unfold createChatDir
  rw [chatPath_eq, built_some]
  apply StateFrame.Triple.get_bind
  intro s
  apply (refuse_triple _ _).seq
  intro _
  apply (createDirAll_triple hbelow).seq
  intro _
  apply (write_triple (below_file hbelow (by decide))).seq
  intro _
  apply (write_triple (below_file hbelow (by decide))).seq
  intro _
  exact createDir_triple (below_file hbelow (by decide))

theorem loadChat_triple : (areaFrame cr loc (.chat name)).Triple (fun _ => True)
    (loadChat loc name) fun n s => HeldBelow ((Area.chat name).place loc) s.tree n := by
  have hbelow : (Area.chat name).place loc <+: loc.place ((Area.chat name).path loc) :=
    List.prefix_refl _
  unfold loadChat
  rw [chatPath_eq, built_some]
  apply (openPlain_triple (below_file hbelow (by decide))).seq
  intro _
  apply (openPlain_triple (below_file hbelow (by decide))).seq
  intro _
  exact openLmdb_triple (below_file hbelow (by decide))

/-- A handle, cached or new, holds a file below the directory. -/
theorem chatHandle_triple : (areaFrame cr loc (.chat name)).Triple (fun _ => True)
    (chatHandle loc name) fun n s => HeldBelow ((Area.chat name).place loc) s.tree n := by
  apply StateFrame.Triple.get_bind
  intro s
  cases hcached : s.chats.get name with
  | some n =>
      apply StateFrame.Triple.pure
      rintro s' hheld ⟨rfl, -⟩
      exact hheld.1 name n hcached
  | none => exact loadChat_triple.weaken (fun _ _ => trivial) fun _ _ h => h

theorem getChat_triple : (areaFrame cr loc (.chat name)).Triple (fun _ => True)
    (getChat loc name) fun n s => HeldBelow ((Area.chat name).place loc) s.tree n := by
  refine remembered_triple chatHandle_triple (fun _ _ => rfl) fun n s hheld hn => ?_
  refine ⟨fun name' n' hget => ?_, hheld.2⟩
  rcases HandleStore.get_touch hget with ⟨rfl, rfl⟩ | hold
  · exact hn
  · exact hheld.1 name' n' hold

theorem createMember_triple {n : Nat} {id : Identity} {member : Member} {commits : Bool} :
    (areaFrame cr loc (.chat name)).Triple
      (fun s => HeldBelow ((Area.chat name).place loc) s.tree n)
      (createMember n id member commits) fun _ _ => True := by
  apply membersOf_triple.bind
  intro table
  apply (refuse_triple _ _).bind
  intro _
  exact commit_triple

theorem createChat_triple {identity : Identity} {commits : Bool} :
    (areaFrame cr loc (.chat name)).Triple (fun _ => True)
      (createChat loc name identity commits) fun _ _ => True := by
  apply createChatDir_triple.seq
  intro _
  apply getChat_triple.bind
  intro n
  exact createMember_triple

theorem recoverChat_triple {chatData : HashMap Identity Member} {commits : Bool} :
    (areaFrame cr loc (.chat name)).Triple (fun _ => True)
      (recoverChat loc name chatData commits) fun _ _ => True := by
  apply createChatDir_triple.seq
  intro _
  apply getChat_triple.bind
  intro n
  apply membersOf_triple.bind
  intro _
  exact commit_triple

theorem removeChat_triple : (areaFrame cr loc (.chat name)).Triple (fun _ => True)
    (removeChat loc name) fun _ _ => True := by
  unfold removeChat
  rw [chatPath_eq, built_some]
  exact removeDirAll_triple

end Chats

/-! ### Profiles -/

section Profiles

variable {id : Identity}

theorem makeRoom_triple {canOwerride : Bool} :
    (areaFrame cr loc (.profile id)).Triple (fun _ => True)
      (makeRoom loc ((Area.profile id).path loc) canOwerride) fun _ _ => True := by
  apply StateFrame.Triple.get_bind
  intro s
  apply StateFrame.Triple.ite
  · intro _
    apply (refuse_triple _ _).seq
    intro _
    exact removeDirAll_triple
  · exact fun _ => StateFrame.Triple.pure fun _ _ _ => trivial

theorem createProfileDir_triple (root : Profile.RootFile cr) {canOwerride : Bool} :
    (areaFrame cr loc (.profile root.identity)).Triple (fun _ => True)
      (createProfileDir loc root canOwerride) fun _ _ => True := by
  have hbelow : (Area.profile root.identity).place loc <+:
      loc.place ((Area.profile root.identity).path loc) := List.prefix_refl _
  unfold createProfileDir
  rw [profilePath_eq, built_some]
  apply makeRoom_triple.seq
  intro _
  apply (createDirAll_triple hbelow).seq
  intro _
  apply (write_triple (below_file hbelow (by decide))).seq
  intro _
  apply (write_triple (below_file hbelow (by decide))).seq
  intro _
  exact createDir_triple (below_file hbelow (by decide))

theorem loadProfile_triple : (areaFrame cr loc (.profile id)).Triple (fun _ => True)
    (loadProfile loc id) fun n s => HeldBelow ((Area.profile id).place loc) s.tree n := by
  have hbelow : (Area.profile id).place loc <+: loc.place ((Area.profile id).path loc) :=
    List.prefix_refl _
  unfold loadProfile
  rw [profilePath_eq, built_some]
  apply StateFrame.Triple.get_bind
  intro s
  apply (refuse_triple _ _).seq
  intro _
  apply (openPlain_triple (below_file hbelow (by decide))).seq
  intro _
  apply (openPlain_triple (below_file hbelow (by decide))).seq
  intro _
  exact openLmdb_triple (below_file hbelow (by decide))

theorem profileHandle_triple : (areaFrame cr loc (.profile id)).Triple (fun _ => True)
    (profileHandle loc id) fun n s => HeldBelow ((Area.profile id).place loc) s.tree n := by
  apply StateFrame.Triple.get_bind
  intro s
  cases hcached : s.profiles.get id with
  | some n =>
      apply StateFrame.Triple.pure
      rintro s' hheld ⟨rfl, -⟩
      exact hheld.2 id n hcached
  | none => exact loadProfile_triple.weaken (fun _ _ => trivial) fun _ _ h => h

theorem getProfile_triple : (areaFrame cr loc (.profile id)).Triple (fun _ => True)
    (getProfile loc id) fun n s => HeldBelow ((Area.profile id).place loc) s.tree n := by
  refine remembered_triple profileHandle_triple (fun _ _ => rfl) fun n s hheld hn => ?_
  refine ⟨hheld.1, fun id' n' hget => ?_⟩
  rcases HandleStore.get_touch hget with ⟨rfl, rfl⟩ | hold
  · exact hn
  · exact hheld.2 id' n' hold

theorem createProfile_triple {proof : Proof cr Hash} {enc : Bytes} :
    (areaFrame cr loc (.profile proof.identity)).Triple (fun _ => True)
      (createProfile loc proof enc) fun _ _ => True := by
  apply (refuse_triple _ _).seq
  intro _
  apply (refuse_triple _ _).seq
  intro _
  apply StateFrame.Triple.get_bind
  intro s
  apply (refuse_triple _ _).seq
  intro _
  apply (refuse_triple _ _).seq
  intro _
  exact createProfileDir_triple (Directories.newRoot proof enc)

theorem recoverProfile_triple {profile : Profile.RootFile cr} {vault : Bytes} {commits : Bool} :
    (areaFrame cr loc (.profile profile.identity)).Triple (fun _ => True)
      (recoverProfile loc profile vault commits) fun _ _ => True := by
  apply (createProfileDir_triple profile).seq
  intro _
  apply getProfile_triple.bind
  intro n
  exact commit_triple

end Profiles

/-- **An operation** keeps to the directory of what it is about. -/
theorem perform_triple (op : Op cr) : (areaFrame cr loc op.area).Triple (fun _ => True)
    (perform loc op) fun _ _ => True := by
  have hend : ∀ {area : Area} (answer : Option Bool),
      (areaFrame cr loc area).Triple (fun _ => True)
        (pure answer : DiskM cr (Option Bool)) fun _ _ => True :=
    fun _ => StateFrame.Triple.pure fun _ _ _ => trivial
  cases op with
  | createChat name identity commits => exact createChat_triple.seq fun _ => hend none
  | hasChat name =>
      apply StateFrame.Triple.get_bind
      exact fun s => (hend _).weaken (fun _ _ => trivial) fun _ _ h => h
  | removeChat name => exact removeChat_triple.seq fun _ => hend none
  | recoverChat name chatData commits => exact recoverChat_triple.seq fun _ => hend none
  | createProfile proof enc => exact createProfile_triple.seq fun _ => hend none
  | hasProfile id =>
      apply StateFrame.Triple.get_bind
      exact fun s => (hend _).weaken (fun _ _ => trivial) fun _ _ h => h
  | recoverProfile profile vault commits => exact recoverProfile_triple.seq fun _ => hend none

end Disk

/-! ## Places of different directories -/

/-- Neither of two chats has the empty name. -/
def Named : Area → Area → Prop
  | .chat name, .chat name' => name.str ≠ "" ∧ name'.str ≠ ""
  | _, _ => True

instance : (area area' : Area) → Decidable (Named area area')
  | .chat _, .chat _ => inferInstanceAs (Decidable (_ ∧ _))
  | .chat _, .profile _ => isTrue trivial
  | .profile _, .chat _ => isTrue trivial
  | .profile _, .profile _ => isTrue trivial

theorem asBytes_injective : Function.Injective ChatName.asBytes := by
  intro name name' h
  have hbytes : name.str.toByteArray = name'.str.toByteArray := by
    apply ByteArray.ext
    exact Array.toList_inj.mp h
  have hstr := String.toByteArray_inj.mp hbytes
  cases name
  cases name'
  cases hstr
  rfl

theorem asBytes_eq_nil {name : ChatName} : name.asBytes = [] ↔ name.str = "" := by
  constructor
  · intro h
    have hempty : name = ⟨"", Nat.zero_le _⟩ := asBytes_injective (h.trans rfl)
    rw [hempty]
  · intro h
    rw [ChatName.asBytes, h]
    rfl

/-- **The directories of different chats and profiles** are apart, if no chat of two has the empty
name. -/
theorem place_apart {area area' : Area} (hne : area ≠ area') (hnamed : Named area area') :
    Apart (area.place loc) (area'.place loc) := by
  cases area with
  | chat name =>
      cases area' with
      | chat name' =>
          have hname : name.asBytes ≠ [] := mt asBytes_eq_nil.mp hnamed.1
          have hname' : name'.asBytes ≠ [] := mt asBytes_eq_nil.mp hnamed.2
          rw [place_chat, place_chat, if_neg hname, if_neg hname',
            List.append_cons _ _ [Base64.encode name.asBytes],
            List.append_cons _ _ [Base64.encode name'.asBytes]]
          apply apart_of_ne
          intro heq
          exact hne (congrArg Area.chat (asBytes_injective (Base64.encode_injective heq)))
      | profile id =>
          rw [place_chat, place_profile]
          exact apart_of_ne (by decide) _ _
  | profile id =>
      cases area' with
      | chat name' =>
          rw [place_chat, place_profile]
          exact apart_of_ne (by decide) _ _
      | profile id' =>
          rw [place_profile, place_profile, List.append_cons _ _ [Base64.encode id.toBytes],
            List.append_cons _ _ [Base64.encode id'.toBytes]]
          apply apart_of_ne
          intro heq
          exact hne (congrArg Area.profile (Hash.toBytes_injective (Base64.encode_injective heq)))

/-- One of two chats has the empty name: the directory of the one is below that of the other. -/
theorem place_not_apart {area area' : Area} (hnamed : ¬ Named area area') :
    ∃ name, area = .chat name ∧
      (area.place loc <+: area'.place loc ∨ area'.place loc <+: area.place loc) := by
  cases area with
  | profile id => exact absurd trivial hnamed
  | chat name =>
      cases area' with
      | profile id => exact absurd trivial hnamed
      | chat name' =>
          refine ⟨name, rfl, ?_⟩
          rw [place_chat, place_chat]
          by_cases hname : name.str = ""
          · left
            rw [if_pos (asBytes_eq_nil.mpr hname)]
            simp
          · have hname' : name'.str = "" := not_not.mp fun h => hnamed ⟨hname, h⟩
            right
            rw [if_pos (asBytes_eq_nil.mpr hname')]
            simp

/-! ## Isolation -/

/-- The files of one are nothing to the other: in whatever state the storage came to, no operation
on the first changes anything below the directory of the second, and whether the first exists
neither depends on what is there, nor changes by an operation on the second. -/
structure Isolated (cr : Crypto) (loc : Location) (area area' : Area) : Prop where
  unchanged : ∀ (tree : FileTree (Contents cr)) (before : List (Disk.Op cr)) (op : Disk.Op cr),
    op.area = area →
      Unchanged (area'.place loc) ((diskMachine cr loc).run (.start tree) before).tree
      ((diskMachine cr loc).run (.start tree) (before ++ [op])).tree
  independent : ∀ s s' : Disk cr,
    (∀ place, ¬ area'.place loc <+: place → s'.tree.entry place = s.tree.entry place) →
      s'.has loc area = s.has loc area
  undisturbed : ∀ (tree : FileTree (Contents cr)) (before : List (Disk.Op cr)) (op : Disk.Op cr),
    op.area = area' → ((diskMachine cr loc).run (.start tree) (before ++ [op])).has loc area =
      ((diskMachine cr loc).run (.start tree) before).has loc area

/-- In every state the handles hold what they should. -/
theorem held_run (tree : FileTree (Contents cr)) (ops : List (Disk.Op cr)) :
    ((diskMachine cr loc).run (.start tree) ops).Held loc := by
  have hstart : (Disk.start tree).Held loc := by
    constructor
    · intro name n h
      cases h
    · intro id n h
      cases h
  have hstep : ∀ s op, Disk.Held loc s → True → Disk.Held loc ((diskMachine cr loc).step s op).1 :=
    fun s op hheld _ => (Disk.perform_triple op s hheld trivial).1
  exact Machine.invariant_run hstep hstart (Machine.eachStep_iff.mpr fun _ _ _ _ => trivial)

/-- An operation changes nothing apart from its directory. -/
theorem unchanged_of_apart {area' : Area} (tree : FileTree (Contents cr))
    (before : List (Disk.Op cr)) (op : Disk.Op cr)
    (hapart : Apart (area'.place loc) (op.area.place loc)) :
    Unchanged (area'.place loc) ((diskMachine cr loc).run (.start tree) before).tree
      ((diskMachine cr loc).run (.start tree) (before ++ [op])).tree := by
  rw [Machine.run_append]
  exact (Disk.perform_triple op _ (held_run tree before) trivial).2.1 _ hapart

theorem isolated_of_named {area area' : Area} (hne : area ≠ area') (hnamed : Named area area') :
    Isolated cr loc area area' := by
  have hapart : Apart (area.place loc) (area'.place loc) := place_apart hne hnamed
  refine ⟨?_, ?_, ?_⟩
  · rintro tree before op rfl
    exact unchanged_of_apart tree before op hapart.symm
  · intro s s' hsame
    rw [has_eq, has_eq, FileTree.present, FileTree.present, hsame _ hapart.2]
  · rintro tree before op rfl
    have hkept := unchanged_of_apart tree before op hapart
    rw [has_eq, has_eq, FileTree.present, FileTree.present,
      (hkept _ (List.prefix_refl _)).1]

/-- An operation on the tree that succeeds. -/
theorem onTree_exec {op : FileTree (Contents cr) → Except FileError (FileTree (Contents cr))}
    {report : FileError → ChatError} {s : Disk cr} {tree : FileTree (Contents cr)}
    (h : op s.tree = .ok tree) : (Disk.onTree op report).exec s = (.ok (), { s with tree }) := by
  unfold Disk.onTree
  rw [Prog.exec_bind, Prog.exec_get]
  simp only [h]
  rfl

/-- Removing a chat takes away what is in its directory. -/
theorem removeChat_takes {name : ChatName} {s : Disk cr} {place : Place}
    (hdir : s.tree.entry ((Area.chat name).place loc) = some .dir)
    (hbelow : (Area.chat name).place loc <+: place) :
    ((diskMachine cr loc).step s (.removeChat name)).1.tree.entry place = none := by
  obtain ⟨tree, htree⟩ := removeDirAll_of_dir hdir
  have hexec : (Disk.removeChat loc name).exec s = (.ok (), { s with tree }) := by
    unfold Disk.removeChat
    rw [chatPath_eq, Disk.built_some]
    exact onTree_exec htree
  have hremoved : ((diskMachine cr loc).step s (.removeChat name)).1 = { s with tree } := by
    show ((Disk.removeChat loc name >>= fun _ => pure none).exec s).2 = _
    rw [Prog.exec_bind, hexec]
    rfl
  rw [hremoved]
  exact (removeDirAll_spec htree).1 place hbelow

/-- If the directory of one chat is below that of another, neither is isolated from the other. -/
theorem not_isolated_of_not_named {area area' : Area} (hnamed : ¬ Named area area') :
    ¬ Isolated cr loc area area' := by
  obtain ⟨name, rfl, hnested⟩ : ∃ name, area = .chat name ∧
      (area.place loc <+: area'.place loc ∨ area'.place loc <+: area.place loc) :=
    place_not_apart hnamed
  intro hisolated
  -- removing the first chat takes away the lower one of the two directories
  have htaken : ∀ place, (Area.chat name).place loc <+: place → area'.place loc <+: place →
      False := by
    intro place hbelow hbelow'
    obtain ⟨tree, hdir⟩ := exists_dir (Contents.bytes [] : Contents cr) place
    have hkept := (hisolated.unchanged tree [] (.removeChat name) rfl place hbelow').1
    have hgone := removeChat_takes (s := Disk.start tree) (entry_above hdir hbelow) hbelow
    have hstill : tree.entry place = none := hkept.symm.trans hgone
    rw [hdir] at hstill
    cases hstill
  rcases hnested with hbelow | hbelow
  · exact htaken _ hbelow (List.prefix_refl _)
  · exact htaken _ (List.prefix_refl _) hbelow

/-- **Chats and profiles are isolated from one another on disk exactly if neither of two chats has
the empty name.** -/
theorem isolated_iff (cr : Crypto) (loc : Location) {area area' : Area} (hne : area ≠ area') :
    Isolated cr loc area area' ↔ Named area area' := by
  constructor
  · intro hisolated
    by_contra hnamed
    exact not_isolated_of_not_named hnamed hisolated
  · exact isolated_of_named hne

/-- A storage in the working directory. -/
def here : Location := ⟨[], []⟩

/-- The name that a header of nothing but `0xff` stands for. -/
def unnamed : ChatName := ⟨"", by decide⟩

/-- A chat and a profile. -/
theorem isolated_lobby : Isolated .transparent here (.chat lobby) (.profile 7) ↔
    Named (.chat lobby) (.profile 7) :=
  isolated_iff .transparent here (by decide)

/-- A chat is created, and then the chat without a name is removed: the files of the first are
gone. -/
theorem removed_with_unnamed :
    Topic.decompress ⟨List.replicate 32 0xff, rfl⟩ = .chat unnamed ∧
      (let s := (diskMachine .transparent here).run (.start (.empty (.bytes [])))
        [.createChat lobby 1 true]
      (s.tree.isFile ((Area.chat lobby).place here ++ [rootPath]) = true ∧
        ((diskMachine .transparent here).run s [.removeChat unnamed]).tree.present
          ((Area.chat lobby).place here) = false)) ∧
      ¬ Isolated .transparent here (.chat unnamed) (.chat lobby) := by
  refine ⟨?_, by decide, ?_⟩
  · have hfilled : Client.compress (.chat unnamed) = ⟨List.replicate 32 0xff, rfl⟩ := by
      decide
    rw [← hfilled]
    exact Client.decompress_compress_chat unnamed
  · apply not_isolated_of_not_named
    exact fun h => h.1 rfl

end OnionNetwork.Server
