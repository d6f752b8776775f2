import OnionNetwork.Theorems.SignedRoot
import OnionNetwork.Client.FetchedVault
import OnionNetwork.Server.VaultRoot

/-!
# What a vault root binds, and who reads the entries

`vault_binding_iff`: no other vault has the root of an empty vault, or of one entry,
unless the zero digest has a preimage, or the entry is the pair of nodes below some
other root. A vault of two entries or more is never bound: the hash of a node is the
hash of an entry with the left child as its key and the right child as its value. Two
vaults whose entries are not nodes of each other have different roots.

One function writes the entries of a vault and three read them: the client, the loop
of `profile::recover` that computes the root, and `recover_vault`. What was written is
read back by all three, and what the client accepts is read as the same list by the
other two. The client accepts less: a rest that is no entry is left where it is by the
nodes, and makes the client reject.
-/

namespace OnionNetwork.Server

open Chat Lib Merkle MerkleTree

variable {cr : Crypto}

/-- A vault whose values have at most `MAX_VAULT_VALUE_SIZE` bytes. -/
structure SizedVault where
  map : SortedMap Hash Bytes
  small : ∀ entry ∈ map.entries, entry.2.length ≤ maxVaultValueSize

namespace SizedVault

theorem ext_entries {v w : SizedVault} (h : v.map.entries = w.map.entries) : v = w := by
  obtain ⟨⟨entries, sorted⟩, small⟩ := v
  obtain ⟨⟨entries', sorted'⟩, small'⟩ := w
  cases h
  rfl

/-- The vault with no entry. -/
def empty : SizedVault := ⟨.empty, nofun⟩

/-- The vault with one entry. -/
def single (k : Hash) (val : Bytes) (h : val.length ≤ maxVaultValueSize) : SizedVault where
  map := ⟨[(k, val)], List.pairwise_singleton _ _⟩
  small entry hentry := by
    rw [List.mem_singleton.mp hentry]
    exact h

end SizedVault

/-- blake3 has no collision among the strings hashed for the two roots. -/
def Collisionless (cr : Crypto) (v w : SizedVault) : Prop :=
  Set.InjOn cr.blake3 {b | b ∈ rootStrings cr v.map ++ rootStrings cr w.map}

/-- No other vault has the root of this one. -/
def Binds (cr : Crypto) (v : SizedVault) : Prop :=
  ∀ w, Collisionless cr v w → storedRoot cr w.map = storedRoot cr v.map → w = v

/-- The nodes below the root, if it is one of two leaves or more. -/
def topNodes (cr : Crypto) (v : SizedVault) : Option (Hash × Hash) :=
  (joints (hashMerkle cr) (sortedHashes cr v.map)).head?

/-- When a vault is bound by its root. -/
def BoundWhen (cr : Crypto) (v : SizedVault) : Prop :=
  match v.map.entries with
  | [] => ∀ k val, val.length ≤ maxVaultValueSize → cr.kv k val ≠ 0
  | [(k, val)] => cr.kv k val ≠ 0 ∧ ∀ w, Collisionless cr v w →
      ∀ nodes ∈ topNodes cr w, (nodes.1, nodes.2.toBytes) ≠ (k, val)
  | _ :: _ :: _ => False

/-- No entry of the one vault is hashed like a node of the other. -/
def EntriesApart (cr : Crypto) (v w : SizedVault) : Prop :=
  ∀ entry ∈ v.map.entries, ∀ nodes ∈ joints (hashMerkle cr) (sortedHashes cr w.map),
    entryBytes entry ≠ nodeBytes nodes

/-- An entry with a digest as its value is hashed like a node. -/
theorem kv_toBytes (l r : Hash) : cr.kv l r.toBytes = cr.combine l r := rfl

variable (cr) in
theorem storedRoot_of_entries {v : SizedVault} {k : Hash} {val : Bytes}
    (h : v.map.entries = [(k, val)]) : storedRoot cr v.map = cr.kv k val := by
  have hsorted : sortedHashes cr v.map = [cr.kv k val] := by
    rw [sortedHashes, entryHashes, h]
    rfl
  rw [storedRoot, root_eq_value, hsorted, value]

variable (cr) in
/-- The root of two leaves or more is the hash of the nodes below it. -/
theorem exists_topNodes {v : SizedVault} (h : 2 ≤ v.map.entries.length) :
    ∃ nodes, topNodes cr v = some nodes ∧ storedRoot cr v.map = cr.combine nodes.1 nodes.2 ∧
      nodeBytes nodes ∈ rootStrings cr v.map := by
  rw [← length_sortedHashes cr] at h
  obtain ⟨l, r, hlr, hl, hr⟩ := exists_split h
  rw [hlr, List.length_append] at hl
  have hjoints := joints_append (hashMerkle cr) hl hr
  rw [← hlr] at hjoints
  refine ⟨_, by rw [topNodes, hjoints]; rfl, ?_, ?_⟩
  · rw [storedRoot, root_eq_value, hlr, value_append hl hr]
    rfl
  · rw [rootStrings, hjoints]
    exact List.mem_append_right _ (List.mem_map_of_mem List.mem_cons_self)

theorem two_le_of_topNodes {v : SizedVault} {nodes : Hash × Hash}
    (h : topNodes cr v = some nodes) : 2 ≤ v.map.entries.length := by
  rw [← length_sortedHashes cr]
  unfold topNodes at h
  match hs : sortedHashes cr v.map with
  | [] | [_] =>
      rw [hs, joints] at h
      cases h
  | _ :: _ :: _ =>
      simp

/-! ### One vault -/

section Bound

variable {v : SizedVault}

variable (cr) in
theorem storedRoot_of_nil (h : v.map.entries = []) : storedRoot cr v.map = 0 := by
  obtain rfl : v = .empty := SizedVault.ext_entries h
  exact storedRoot_empty

/-- The vaults without and with one entry hash no node. -/
theorem rootStrings_single {k : Hash} {val : Bytes} (h : v.map.entries = [(k, val)]) :
    rootStrings cr v.map = [entryBytes (k, val)] := by
  have hsorted : sortedHashes cr v.map = [cr.kv k val] := by
    rw [sortedHashes, entryHashes, h]
    rfl
  rw [rootStrings, hsorted, joints, h]
  rfl

theorem rootStrings_nil (h : v.map.entries = []) : rootStrings cr v.map = [] := by
  have hsorted : sortedHashes cr v.map = [] := by
    rw [sortedHashes, entryHashes, h]
    rfl
  rw [rootStrings, hsorted, joints, h]
  rfl

/-- The empty vault has the zero digest as its root. -/
theorem binds_iff_of_nil (h : v.map.entries = []) :
    Binds cr v ↔ ∀ k val, val.length ≤ maxVaultValueSize → cr.kv k val ≠ 0 := by
  have hroot := storedRoot_of_nil cr h
  constructor
  · intro hbinds k val hsmall hzero
    have heq := hbinds (.single k val hsmall) ?_ ?_
    · rw [← heq] at h
      cases h
    · rw [Collisionless, rootStrings_nil h, rootStrings_single rfl]
      simp
    · rw [hroot, ← hzero]
      exact storedRoot_of_entries cr rfl
  · intro hne w _ heq
    rw [hroot] at heq
    match hw : w.map.entries with
    | [] => exact SizedVault.ext_entries (hw.trans h.symm)
    | [(k, val)] =>
        rw [storedRoot_of_entries cr hw] at heq
        have hin : (k, val) ∈ w.map.entries := by simp [hw]
        exact absurd heq (hne k val (w.small _ hin))
    | _ :: _ :: _ =>
        obtain ⟨nodes, -, hnodes, -⟩ := exists_topNodes cr (v := w) (by simp [hw])
        rw [hnodes, ← kv_toBytes] at heq
        exact absurd heq (hne nodes.1 nodes.2.toBytes (by simp [maxVaultValueSize]))

/-- The root of one entry is its hash. -/
theorem binds_iff_of_single {k : Hash} {val : Bytes} (h : v.map.entries = [(k, val)]) :
    Binds cr v ↔ cr.kv k val ≠ 0 ∧ ∀ w, Collisionless cr v w →
      ∀ nodes ∈ topNodes cr w, (nodes.1, nodes.2.toBytes) ≠ (k, val) := by
  have hroot := storedRoot_of_entries cr h
  have hstring : entryBytes (k, val) ∈ rootStrings cr v.map := by simp [rootStrings_single h]
  constructor
  · refine fun hbinds => ⟨fun hzero => ?_, fun w hw nodes hnodes heq => ?_⟩
    · have heq := hbinds .empty ?_ ?_
      · rw [← heq] at h
        cases h
      · rw [Collisionless, rootStrings_nil (v := .empty) rfl, rootStrings_single h]
        simp
      · rw [hroot, hzero]
        exact storedRoot_empty
    · have htwo := two_le_of_topNodes hnodes
      obtain ⟨nodes', hnodes', hroot', -⟩ := exists_topNodes cr htwo
      obtain rfl := Option.some.inj (hnodes'.symm.trans hnodes)
      obtain ⟨rfl, rfl⟩ := Prod.mk.inj heq
      rw [hbinds w hw (hroot'.trans hroot.symm), h] at htwo
      exact absurd htwo (Nat.not_succ_le_self 1)
  · rintro ⟨hne, hnodes⟩ w hw heq
    rw [hroot] at heq
    -- another vault with the root has no entry, one entry or a tree of them
    match hentries : w.map.entries with
    | [] =>
        rw [storedRoot_of_nil cr hentries] at heq
        exact absurd heq.symm hne
    | [(k', val')] =>
        rw [storedRoot_of_entries cr hentries] at heq
        have hstring' : entryBytes (k', val') ∈ rootStrings cr w.map := by
          simp [rootStrings_single hentries]
        have heq : (k', val') = (k, val) := kv_inj hw (List.mem_append_right _ hstring')
          (List.mem_append_left _ hstring) heq
        exact SizedVault.ext_entries (by rw [hentries, h, heq])
    | _ :: _ :: _ =>
        obtain ⟨nodes, htop, hroot', hnode⟩ :=
          exists_topNodes cr (v := w) (by simp [hentries])
        rw [hroot', ← kv_toBytes] at heq
        have heq : (nodes.1, nodes.2.toBytes) = (k, val) :=
          kv_inj hw (List.mem_append_right _ hnode) (List.mem_append_left _ hstring) heq
        exact absurd heq (hnodes w hw nodes htop)

/-- The nodes below the root are an entry of another vault with this root. -/
theorem not_binds_of_two (hinj : Collisionless cr v v) (h : 2 ≤ v.map.entries.length) :
    ¬ Binds cr v := by
  intro hbinds
  obtain ⟨nodes, -, hroot, hnode⟩ := exists_topNodes cr h
  have hsmall : nodes.2.toBytes.length ≤ maxVaultValueSize := by simp [maxVaultValueSize]
  have hsingle : rootStrings cr (SizedVault.single nodes.1 nodes.2.toBytes hsmall).map =
      [nodeBytes nodes] := rootStrings_single rfl
  have heq := hbinds (.single nodes.1 nodes.2.toBytes hsmall) ?_ ?_
  · rw [← heq] at h
    exact absurd h (Nat.not_succ_le_self 1)
  · refine hinj.mono fun b hb => ?_
    rw [hsingle] at hb
    rcases List.mem_append.mp hb with hin | hin
    · exact List.mem_append_left _ hin
    · rw [List.mem_singleton.mp hin]
      exact List.mem_append_left _ hnode
  · rw [hroot, storedRoot_of_entries cr rfl]
    rfl

end Bound

/-! ### Two vaults -/

/-- Two vaults whose entries are not nodes of each other. -/
theorem eq_of_storedRoot_eq {v w : SizedVault} (hinj : Collisionless cr v w)
    (hapart : EntriesApart cr v w) (hapart' : EntriesApart cr w v)
    (hne : storedRoot cr v.map ≠ 0) (h : storedRoot cr v.map = storedRoot cr w.map) : v = w := by
  have hleaves : ∀ {u : SizedVault}, storedRoot cr u.map ≠ 0 → sortedHashes cr u.map ≠ [] := by
    intro u hu hnil
    refine hu (storedRoot_of_nil cr ?_)
    have hlength := length_sortedHashes cr u.map
    rw [hnil] at hlength
    exact List.length_eq_zero_iff.mp hlength.symm
  have hentry : ∀ {u u' : SizedVault}, EntriesApart cr u u' → ∀ leaf ∈ sortedHashes cr u.map,
      ∀ p ∈ joints (hashMerkle cr) (sortedHashes cr u'.map),
        Set.InjOn cr.blake3 {b | b ∈ rootStrings cr u.map ++ rootStrings cr u'.map} →
          leaf ≠ (hashMerkle cr).combine p.1 p.2 := by
    intro u u' hu leaf hleaf p hp hinj heq
    obtain ⟨k, val, hget, rfl⟩ := mem_entryHashes.mp (mem_sortedHashes.mp hleaf)
    have hin : (k, val) ∈ u.map.entries := u.map.mem_entries_iff.mpr hget
    refine hu (k, val) hin p hp (hinj ?_ ?_ heq)
    · exact List.mem_append_left _ (List.mem_append_left _ (List.mem_map_of_mem hin))
    · exact List.mem_append_right _ (List.mem_append_right _ (List.mem_map_of_mem hp))
  have hswap : Set.InjOn cr.blake3 {b | b ∈ rootStrings cr w.map ++ rootStrings cr v.map} :=
    hinj.mono fun b hb => List.mem_append.mpr (List.mem_append.mp hb).symm
  have hsorted : sortedHashes cr v.map = sortedHashes cr w.map := by
    refine eq_of_value_eq (combine_injOn hinj) (hleaves hne) (hleaves (h ▸ hne)) ?_ ?_
      (fun leaf hleaf p hp => hentry hapart leaf hleaf p hp hinj)
      (fun leaf hleaf p hp => hentry hapart' leaf hleaf p hp hswap) ?_
    · exact fun p hp => List.mem_append_left _ (List.mem_append_right _ (List.mem_map_of_mem hp))
    · exact fun p hp => List.mem_append_right _ (List.mem_append_right _ (List.mem_map_of_mem hp))
    · rw [← root_eq_value, ← root_eq_value]
      exact h
  have hmap : v.map = w.map := entries_eq_of_sortedHashes hinj
    (fun entry he => List.mem_append_left _ (List.mem_append_left _ (List.mem_map_of_mem he)))
    (fun entry he => List.mem_append_right _ (List.mem_append_left _ (List.mem_map_of_mem he)))
    hsorted
  exact SizedVault.ext_entries (congrArg SortedMap.entries hmap)

/-- **Binding.** No other vault has the root of a vault, without a collision of blake3,
exactly when it is empty and no entry hashes to the zero digest, or it has one entry,
which does not hash to it and is not the pair of nodes below the root of another vault.
Two vaults with the same root are equal if their entries are not nodes of each other. -/
theorem vault_binding_iff (cr : Crypto) :
    (∀ v : SizedVault, Collisionless cr v v → (Binds cr v ↔ BoundWhen cr v)) ∧
    ∀ v w : SizedVault, Collisionless cr v w → EntriesApart cr v w → EntriesApart cr w v →
      storedRoot cr v.map ≠ 0 → storedRoot cr v.map = storedRoot cr w.map → v = w := by
  refine ⟨fun v hinj => ?_, fun v w hinj hapart hapart' hne h =>
    eq_of_storedRoot_eq hinj hapart hapart' hne h⟩
  unfold BoundWhen
  split
  · next h => exact binds_iff_of_nil h
  · next k val h => exact binds_iff_of_single h
  · next h => exact iff_of_false (not_binds_of_two hinj (by simp [h])) not_false

/-- The value 1 under the key 1. -/
def oneEntry : SizedVault := .single 1 [1] (by decide)

/-- Its value is too short for a node. -/
theorem oneEntry_binds : Binds .mixed oneEntry := by
  have hinj : Collisionless .mixed oneEntry oneEntry := by
    rw [Collisionless, rootStrings_single (v := oneEntry) rfl]
    simp
  rw [(vault_binding_iff .mixed).1 oneEntry hinj]
  refine ⟨by decide, fun w _ nodes _ heq => ?_⟩
  have hlength := congrArg (fun e => e.2.length) heq
  simp at hlength

/-- The value 1 under the key 1, and 2 under 2. -/
def twoEntries : SizedVault where
  map := ⟨[(1, [1]), (2, [2])], by simp⟩
  small := by decide

/-- The hash of the second entry under the hash of the first. -/
def nodeEntry : SizedVault := .single twoLeaves.1 twoLeaves.2.toBytes (by simp [maxVaultValueSize])

/-- The two vaults have one root. -/
theorem twoEntries_not_bound :
    ¬ ∀ v w : SizedVault, Collisionless .mixed v w →
      storedRoot .mixed v.map = storedRoot .mixed w.map → v = w := by
  intro hall
  have hstored : sortedHashes .mixed twoEntries.map = [twoLeaves.1, twoLeaves.2] := by
    decide
  have hstrings : rootStrings .mixed twoEntries.map = twoLeavesStrings := by
    rw [rootStrings, hstored, joints_pair]
    rfl
  have hsingle : rootStrings .mixed nodeEntry.map = [nodeBytes twoLeaves] := rootStrings_single rfl
  have heq := hall twoEntries nodeEntry (soundOn_twoLeaves ?_).inj (by rfl)
  · have hlength := congrArg (fun v => v.map.entries.length) heq
    exact absurd hlength (by decide)
  · rw [hstrings, hsingle]
    simp [twoLeavesStrings]

end OnionNetwork.Server

/-! ## The readers of a vault agree -/

namespace OnionNetwork.Server

open OnionNetwork.Client Chat Lib Merkle

/-- A vault with values that were slices, so none is above `isize::MAX`. -/
structure StoredVault where
  map : SortedMap Hash Bytes
  fits : ∀ entry ∈ map.entries, entry.2.length ≤ isizeMax

/-- `Handle::fetch_vault_low` into an empty buffer: a cursor from the first key to the
last. -/
def StoredVault.fetchVaultLow (vault : StoredVault) : Bytes := encodeEntries vault.map.entries

/-- The readers of an answer to `FETCH_VAULT` read these entries. -/
structure ReadersAgree {cr : Crypto} (files : Profile.Files cr) (buffer : Bytes)
    (entries : List (Hash × Bytes)) : Prop where
  /-- The client. -/
  client : readFetched buffer = some entries
  /-- The loop of `recover`, and the root that it computes. -/
  recover : vaultEntries buffer = entries
  root : Directories.servedRoot cr buffer =
    (MerkleTree.fromBase (hashMerkle cr)
      ((entries.map fun (id, val) => cr.kv id val).insertionSort (· ≤ ·))).root
  /-- `recover_vault`, which puts the entries one after the other. -/
  recovered : (files.recoverVault buffer).vault = SortedMap.ofList entries

/-- The nodes read what the client accepts. -/
theorem readersAgree_of_readFetched {cr : Crypto} (files : Profile.Files cr) {buffer : Bytes}
    {entries : List (Hash × Bytes)} (h : readFetched buffer = some entries) :
    ReadersAgree files buffer entries := by
  have hentries : vaultEntries buffer = entries := vaultEntries_of_readFetched h
  constructor
  · exact h
  · exact hentries
  · rw [Directories.servedRoot, hentries]
  · show SortedMap.ofList (vaultEntries buffer) = _
    rw [hentries]

/-- **The readers agree** on every stored vault, whose entries they read in key order,
and on every answer that the client accepts. A vault that was fetched is recovered. -/
theorem vault_readers_agree {cr : Crypto} (files : Profile.Files cr) :
    (∀ vault : StoredVault,
      ReadersAgree files vault.fetchVaultLow vault.map.entries ∧
        (files.recoverVault vault.fetchVaultLow).vault = vault.map) ∧
    ∀ buffer entries, readFetched buffer = some entries → ReadersAgree files buffer entries := by
  constructor
  · intro vault
    have hagree := readersAgree_of_readFetched files (readFetched_encodeEntries vault.fits)
    refine ⟨hagree, ?_⟩
    show (files.recoverVault (encodeEntries vault.map.entries)).vault = _
    rw [hagree.recovered, SortedMap.ofList_entries]
  · intro buffer entries h
    exact readersAgree_of_readFetched files h

/-- An answer that no node wrote: a key is there twice, and behind a greater one. -/
def disorderly : List (Hash × Bytes) := [(2, [7]), (1, []), (2, [8])]

/-- The readers agree on it. -/
theorem vault_readers_agree_disorderly (files : Profile.Files Crypto.transparent) :
    ReadersAgree files (encodeEntries disorderly) disorderly :=
  (vault_readers_agree files).2 _ _ (readFetched_encodeEntries (by simp [disorderly, isizeMax]))

/-- A byte that is no entry makes the client reject, and is left alone by the nodes. -/
example : readFetched [0] = none ∧ vaultEntries [0] = [] := by
  have hread : (fetchedVault.decode [0]).result = .error .reject := by
    show (Codec.decodeReminder ownedEntry [0]).result = _
    rw [Codec.decodeReminder]
    rfl
  refine ⟨?_, rfl⟩
  unfold readFetched
  rw [hread]

end OnionNetwork.Server
