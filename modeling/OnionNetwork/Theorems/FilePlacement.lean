import Mathlib.Data.List.Perm.Basic
import OnionNetwork.Storage.NodeProfiles

/-!
# Where files are placed

`allocate_file` looks at the last nodes of the index and goes on if *any* of them has less free
space than is needed, where all of them should have enough. So it refuses whenever it could place
the file, and otherwise takes space from nodes that do not have it (`placed_iff`). Up to then the
index is right (`IndexExact`), for as many nodes as there are ids.
-/

namespace OnionNetwork.Storage

open Lib Codec

namespace NodeProfiles

variable {debugAssertions : Bool} {s : NodeProfiles} {identity : Hash} {nonce : Nonce}

/-! ## Free space -/

/-- The free space of each record, with its place. -/
def freeSpace (s : NodeProfiles) : List (Nat × Nat) := (s.records.map (·.freeBlocks)).zipIdx

/-- The index has each node once, with the free space of its record. -/
def IndexExact (s : NodeProfiles) : Prop := s.freeSpaceIndex.Perm s.freeSpace

/-- What a satellite relies on when it places files: the chosen nodes are different ones, each of
them has the space and gives up as much of it, nothing panics, and the index stays right. -/
structure Placed (debugAssertions : Bool) (s : NodeProfiles) (call : NodeCall) : Prop where
  enough : ∀ {address holders nonces},
    (s.serve debugAssertions call).2 = .allocated (some (address, holders, nonces)) →
      holders.length = maxPieces debugAssertions ∧ holders.Nodup ∧
        ∀ id ∈ holders, ∃ profile profile', s.records[id]? = some profile ∧
          (s.serve debugAssertions call).1.records[id]? = some profile' ∧
          profile'.freeBlocks + allocSize debugAssertions address.size = profile.freeBlocks
  returns : ∀ {size secret}, call = .allocateFile size secret →
    (s.serve debugAssertions call).2 ≠ .panicked
  index : (s.serve debugAssertions call).1.IndexExact

/-- Not an allocation that finds enough nodes, one of them without the space, and not more nodes
than there are ids. -/
def Roomy (debugAssertions : Bool) (s : NodeProfiles) : NodeCall → Prop
  | .allocateFile size _ =>
      s.freeSpaceIndex.length < maxPieces debugAssertions ∨
        ∀ e ∈ s.mostFree debugAssertions, allocSize debugAssertions size ≤ e.1
  | .registerNode identity .. => s.identityToId.get identity = none → s.records.length < 2 ^ 16
  | .requestGc .. | .updateAddr .. => True

theorem freeSpace_setRecord {id : Nat} {profile profile' : NodeProfile}
    (h : s.records[id]? = some profile) (hfree : profile'.freeBlocks = profile.freeBlocks) :
    (s.setRecord id profile').freeSpace = s.freeSpace := by
  have hmap : (s.records.set id profile').map (·.freeBlocks) = s.records.map (·.freeBlocks) :=
    map_set_of_eq h hfree
  rw [freeSpace, setRecord, hmap, freeSpace]

theorem IndexExact.setRecord (h : s.IndexExact) {id : Nat} {profile profile' : NodeProfile}
    (hrecord : s.records[id]? = some profile) (hfree : profile'.freeBlocks = profile.freeBlocks) :
    (s.setRecord id profile').IndexExact := by
  unfold IndexExact
  rw [freeSpace_setRecord hrecord hfree]
  exact h

/-- A new node is in the index under its own place exactly if that is an id. -/
theorem IndexExact.registerNode_iff (h : s.IndexExact) (identity preIdentity : Hash)
    (addr : SocketAddr) (freeBlocks : Nat) :
    (s.registerNode identity preIdentity addr freeBlocks).1.IndexExact ↔
      (s.identityToId.get identity = none → s.records.length < 2 ^ 16) := by
  unfold registerNode
  cases hget : s.identityToId.get identity with
  | some id => exact iff_of_true h nofun
  | none =>
      simp only [true_implies]
      have hspace : (s.records.map (·.freeBlocks) ++ [freeBlocks]).zipIdx =
          s.freeSpace ++ [(freeBlocks, s.records.length)] := by
        simp [freeSpace, List.zipIdx_append]
      simp only [IndexExact, freeSpace, List.map_append, List.map_cons, List.map_nil]
      rw [hspace, (h.append_right _).congr_left, List.perm_append_left_iff,
        List.singleton_perm_singleton, Prod.mk.injEq, eq_self_iff_true, true_and, nodeId]
      omega

/-- The place of an entry of the index is that of a record with its free space. -/
theorem IndexExact.record (h : s.IndexExact) {free id : Nat}
    (hmem : (free, id) ∈ s.freeSpaceIndex) :
    ∃ profile, s.records[id]? = some profile ∧ profile.freeBlocks = free := by
  have hzip := h.mem_iff.mp hmem
  rw [freeSpace, List.mem_zipIdx_iff_getElem?, List.getElem?_map, Option.map_eq_some_iff] at hzip
  exact hzip

/-- An allocation that is refused leaves everything as it is. -/
theorem allocateFile_of_roomy {size : Nat} {secret : Hash}
    (h : Roomy debugAssertions s (.allocateFile size secret)) :
    s.allocateFile debugAssertions size secret = some (s, none) := by
  unfold allocateFile
  dsimp only
  split
  · rfl
  · next hmany =>
      rcases h with hfew | hroomy
      · exact absurd hfew hmany
      · rw [if_pos]
        simpa using hroomy

/-- One that is not refused panics, or has chosen a node without the space. -/
theorem allocateFile_of_not_roomy {size : Nat} {secret : Hash}
    (h : ¬ Roomy debugAssertions s (.allocateFile size secret)) :
    s.allocateFile debugAssertions size secret = none ∨
      ∃ s' holders nonces, s.allocateFile debugAssertions size secret =
          some (s', some (⟨secret, size⟩, holders, nonces)) ∧
        ∃ free id, (free, id) ∈ s.freeSpaceIndex ∧ id ∈ holders ∧
          free < allocSize debugAssertions size := by
  simp only [Roomy, not_or, not_forall, Nat.not_lt, Nat.not_le] at h
  obtain ⟨hmany, ⟨free, id⟩, hmem, hshort⟩ := h
  have hany : ((s.mostFree debugAssertions).any fun e =>
      e.1 < allocSize debugAssertions size) = true :=
    List.any_eq_true.mpr ⟨(free, id), hmem, by simpa using hshort⟩
  unfold allocateFile
  dsimp only
  rw [if_neg (Nat.not_lt.mpr hmany), if_neg (by rw [hany]; exact nofun)]
  cases htake : takeSpace debugAssertions (allocSize debugAssertions size)
      (s.mostFree debugAssertions) s.records with
  | none => exact .inl rfl
  | some taken =>
      obtain ⟨taken, records⟩ := taken
      cases hnonces : nextNonces debugAssertions
        ((s.mostFree debugAssertions).map (·.2)) records with
      | none => exact .inl (by simp [hnonces])
      | some next =>
          obtain ⟨nonces, records'⟩ := next
          have hholder : id ∈ (s.mostFree debugAssertions).map (·.2) :=
            List.mem_map_of_mem (f := fun e : Nat × Nat => e.2) hmem
          exact .inr ⟨_, _, nonces, by
            simp only [Option.bind_eq_bind, Option.bind_some, hnonces]
            rfl, free, id, List.mem_of_mem_drop hmem, hholder, hshort⟩

/-- What keeps the index right where a call returns keeps it right where it panics. -/
theorem IndexExact.answer {α : Type} (h : s.IndexExact) (f : α → NodeAnswer)
    {outcome : Option (NodeProfiles × α)}
    (hsome : ∀ s' a, outcome = some (s', a) → s'.IndexExact) :
    (s.answer f outcome).1.IndexExact := by
  cases outcome with
  | none => exact h
  | some r => exact hsome r.1 r.2 rfl

theorem IndexExact.requestGc (h : s.IndexExact) (currentTime : Nat) {s' : NodeProfiles}
    {node : Option Nat}
    (heq : s.requestGc debugAssertions currentTime identity nonce = some (s', node)) :
    s'.IndexExact := by
  rcases requestGc_cases debugAssertions s currentTime identity nonce with
    hnone | hsame | ⟨id, profile, hregistered, -, -, hset⟩
  · rw [hnone] at heq
    cases heq
  · rw [hsame] at heq
    cases heq
    exact h
  · rw [hset] at heq
    cases heq
    exact h.setRecord hregistered.2 rfl

theorem IndexExact.updateAddr (h : s.IndexExact) (addr : SocketAddr) {s' : NodeProfiles}
    {success : Bool}
    (heq : s.updateAddr debugAssertions identity nonce addr = some (s', success)) :
    s'.IndexExact := by
  by_cases hregistered : ∃ id profile, s.Registered identity id profile
  · obtain ⟨id, profile, hregistered⟩ := hregistered
    by_cases hlt : profile.nonce < nonce
    · rw [updateAddr_of_lt hregistered hlt] at heq
      cases heq
      exact h.setRecord hregistered.2 rfl
    · rw [updateAddr_of_le hregistered (Nat.not_lt.mp hlt)] at heq
      obtain ⟨next, -, hset⟩ := Option.map_eq_some_iff.mp heq
      cases hset
      exact h.setRecord hregistered.2 rfl
  · rcases updateAddr_of_not_registered debugAssertions nonce addr
      (fun id profile hr => hregistered ⟨id, profile, hr⟩) with hsame | hnone
    · rw [hsame] at heq
      cases heq
      exact h
    · rw [hnone] at heq
      cases heq

/-- **One call** does what the satellite relies on exactly if it is roomy. -/
theorem placed_iff (h : s.IndexExact) (call : NodeCall) :
    Placed debugAssertions s call ↔ Roomy debugAssertions s call := by
  cases call with
  | registerNode identity preIdentity addr freeBlocks =>
      have hindex := h.registerNode_iff identity preIdentity addr freeBlocks
      constructor
      · exact fun hplaced => hindex.mp hplaced.index
      · exact fun hroomy => ⟨nofun, nofun, hindex.mpr hroomy⟩
  | requestGc currentTime identity nonce =>
      refine iff_of_true ⟨?_, nofun, ?_⟩ trivial
      · intro address holders nonces heq
        simp only [serve] at heq
        unfold answer at heq
        split at heq <;> cases heq
      · exact h.answer _ fun s' node heq => h.requestGc currentTime heq
  | updateAddr identity nonce addr =>
      refine iff_of_true ⟨?_, nofun, ?_⟩ trivial
      · intro address holders nonces heq
        simp only [serve] at heq
        unfold answer at heq
        split at heq <;> cases heq
      · exact h.answer _ fun s' success heq => h.updateAddr addr heq
  | allocateFile size secret =>
      constructor
      · intro hplaced
        by_contra hcrowded
        -- a panic, or a holder with less room than a piece takes
        rcases allocateFile_of_not_roomy hcrowded with
          hnone | ⟨s', holders, nonces, hsome, free, id, hmem, hholder, hshort⟩
        · refine hplaced.returns rfl ?_
          rw [serve, hnone, answer]
        · have hchosen : (s.serve debugAssertions (.allocateFile size secret)).2 =
              .allocated (some (⟨secret, size⟩, holders, nonces)) := by
            rw [serve, hsome, answer]
          obtain ⟨-, -, henough⟩ := hplaced.enough hchosen
          obtain ⟨profile, profile', hrecord, -, hsum⟩ := henough id hholder
          obtain ⟨record, hrecord', hfree⟩ := h.record hmem
          obtain rfl := Option.some.inj (hrecord.symm.trans hrecord')
          dsimp only at hsum
          omega
      · intro hroomy
        -- roomy here means that the file is refused
        have hrefused := allocateFile_of_roomy hroomy
        have hserve : s.serve debugAssertions (.allocateFile size secret) =
            (s, .allocated none) := by
          rw [serve, hrefused, answer]
        refine ⟨?_, ?_, ?_⟩
        · intro address holders nonces heq
          rw [hserve] at heq
          cases heq
        · intro _ _ _
          rw [hserve]
          exact nofun
        · rw [hserve]
          exact h

theorem indexExact_ofRecords {records : List NodeProfile} (h : records.length ≤ 2 ^ 16) :
    (ofRecords records).IndexExact := by
  have hsame : (ofRecords records).freeSpaceIndex = (ofRecords records).freeSpace := by
    refine List.ext_getElem? fun i => ?_
    simp only [ofRecords, freeSpace, List.getElem?_map, List.getElem?_zipIdx, Nat.zero_add]
    cases hrecord : records[i]? with
    | none => rfl
    | some profile =>
        have hlt := (List.getElem?_eq_some_iff.mp hrecord).1
        simp only [Option.map_some, nodeId]
        rw [Nat.mod_eq_of_lt (by omega)]
  unfold IndexExact
  rw [hsame]

/-- **Files are placed as they should be** at each step of a run, exactly if each step is roomy:
of any run from the records that a satellite loads, and none are loaded by a new one. -/
theorem placed_run_iff (debugAssertions : Bool) {records : List NodeProfile}
    (hids : records.length ≤ 2 ^ 16) (calls : List NodeCall) :
    (nodeMachine debugAssertions).EachStep (Placed debugAssertions) (ofRecords records) calls ↔
      (nodeMachine debugAssertions).EachStep (Roomy debugAssertions) (ofRecords records) calls := by
  refine Machine.eachStep_congr (I := IndexExact) ?_ ?_ (indexExact_ofRecords hids)
  · exact fun s call h => placed_iff h call
  · exact fun s call h hroomy => ((placed_iff h call).mpr hroomy).index

/-- So many nodes, each with as much free space. -/
def nodes (n free : Nat) : List NodeCall :=
  (List.range n).map fun i =>
    .registerNode (BitVec.ofNat 256 i) 0 (.v4 ⟨[10, 0, 0, 1], rfl⟩ 4000) free

/-- Eight nodes with space for the file. -/
theorem placed_run_iff_eight :
    (nodeMachine true).EachStep (Placed true) (ofRecords [])
        (nodes 8 100 ++ [.allocateFile 16 0]) ↔
      (nodeMachine true).EachStep (Roomy true) (ofRecords [])
        (nodes 8 100 ++ [.allocateFile 16 0]) :=
  placed_run_iff true (Nat.zero_le _) _

/-- Without debug assertions, 32 nodes that have no free space hold a file of 16 bytes. -/
theorem overcommitted :
    ¬ (nodeMachine false).EachStep (Placed false) (ofRecords [])
      (nodes 32 0 ++ [.allocateFile 16 0]) := by
  intro h
  have hplaced := (((nodeMachine false).eachStep_append ..).mp h).2.1
  have hchosen : (((nodeMachine false).run (ofRecords []) (nodes 32 0)).serve false
      (.allocateFile 16 0)).2 =
        .allocated (some (⟨0, 16⟩, List.range 32, List.replicate 32 0)) := by
    decide +kernel
  have hempty : ((nodeMachine false).run (ofRecords []) (nodes 32 0)).records[0]?.map
      (·.freeBlocks) = some 0 := by
    decide +kernel
  obtain ⟨-, -, henough⟩ := hplaced.enough hchosen
  obtain ⟨profile, profile', hrecord, -, hsum⟩ := henough 0 (by decide)
  rw [hrecord, Option.map_some, Option.some_inj] at hempty
  rw [hempty] at hsum
  exact absurd hsum (Nat.succ_ne_zero _)

end NodeProfiles

end OnionNetwork.Storage
