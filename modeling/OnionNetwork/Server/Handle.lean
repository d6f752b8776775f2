import OnionNetwork.Chat.Member
import OnionNetwork.Lib.SortedMap
import Mathlib.Data.List.Sort

/-!
# The chat handle of a replica

What one replica keeps per chat: the member table, the running votes, the root
record and the blocks file. The blocks file is its bytes alone: every access
of the source seeks first, so no operation depends on where the last one left
the file position.
-/

namespace OnionNetwork.Server

open Chat Lib

/-- `BLOCK_SIZE`. -/
def blockSize : Nat := 1024 * 16

/-- `MAX_UNFINALIZED_BLOCKS`. -/
def maxUnfinalizedBlocks : Nat := 5

/-- `UNFINALIZED_BUFFER_CAP`. -/
def unfinalizedBufferCap : Nat := blockSize * maxUnfinalizedBlocks

/-- `BLOCK_HISTORY`. -/
def blockHistory : Nat := 8

/-- `storage::chat::Root`. -/
structure Root where
  number : BlockNumber := 0
  bufferLen : Nat := 0
  checkpoint : Nat := 0
  latestBlock : Hash := 0
  deriving DecidableEq

/-- `storage::chat::Proposal`: the block under vote, if this replica holds it.
A local one is a prefix of the unfinalized buffer, kept by its size. -/
inductive Proposal
  | absent
  | localBlock (size : Nat)
  | remoteBlock (data : Bytes)
  deriving DecidableEq

/-- `Proposal::take`, the taken value (`Ok` a local size, `Err` remote data). -/
def Proposal.take : Proposal → Option (Except Bytes Nat)
  | .absent => none
  | .localBlock size => some (.ok size)
  | .remoteBlock data => some (.error data)

/-- `storage::chat::BlockProposal`. -/
structure BlockProposal where
  number : BlockNumber := 0
  yes : Nat := 0
  no : Nat := 0
  proposal : Proposal := .absent
  votes : ReplVec Hash := .empty
  deriving DecidableEq

/-- `BlockProposal::try_resolve`: the entry left behind and the decision. A
majority of yes takes the block out of the entry; the counters stay. -/
def BlockProposal.tryResolve (self : BlockProposal) :
    BlockProposal × Option (Option (Except Bytes Nat)) :=
  match if self.yes > replicationFactor / 2 then self.proposal.take else none with
  | some prop => ({ self with proposal := .absent }, some (some prop))
  | none => (self, if self.no > replicationFactor / 2 then some none else none)

/-- `api::FullReplGroup`: the nodes of `RoutingTable::closest` for the chat,
full as `select_finalizer` asserts. -/
structure FullReplGroup where
  nodes : List NodeIdentity
  full : nodes.length = replicationFactor + 1
  nodup : nodes.Nodup

instance : Membership NodeIdentity FullReplGroup := ⟨fun g a => a ∈ g.nodes⟩

instance (a : NodeIdentity) (g : FullReplGroup) : Decidable (a ∈ g) :=
  inferInstanceAs (Decidable (a ∈ g.nodes))

/-- `select_finalizer`: the group in XOR order around the selector, indexed by
the number of full blocks. -/
def selectFinalizer (selector : Hash) (members : FullReplGroup) (blockLen : Nat) : NodeIdentity :=
  let roundCount := blockLen / blockSize
  let sorted := members.nodes.insertionSort fun a b => a ^^^ selector ≤ b ^^^ selector
  sorted.get ⟨roundCount % sorted.length,
    Nat.mod_lt _ (by simp [sorted, List.length_insertionSort, members.full])⟩

/-- The finalizer is a node of the group. -/
theorem selectFinalizer_mem (selector : Hash) (members : FullReplGroup) (blockLen : Nat) :
    selectFinalizer selector members blockLen ∈ members :=
  (List.mem_insertionSort _).mp (List.get_mem _ _)

/-- The member table, an LMDB database read in key order. -/
abbrev Members := SortedMap Identity Member

/-- `storage::chat::Handle`. -/
structure Handle where
  members : Members
  voting : Hash → Option BlockProposal
  root : Root
  blocks : Bytes
  discardedBytes : Nat

namespace Handle

/-- `voting.insert`. -/
def insertVoting (h : Handle) (hash : Hash) (p : BlockProposal) : Handle :=
  { h with voting := Function.update h.voting hash (some p) }

/-- `voting.remove`. -/
def removeVoting (h : Handle) (hash : Hash) : Handle :=
  { h with voting := Function.update h.voting hash none }

/-- `Handle::load`: the files as they were left, and no votes. -/
def load (members : Members) (root : Root) (blocks : Bytes) : Handle where
  members := members
  voting := fun _ => none
  root := root
  blocks := blocks
  discardedBytes := 0

/-- `Handle::create` followed by `Handle::load`, over a given member table. -/
def fresh (members : Members) : Handle where
  members := members
  voting := fun _ => none
  root := {}
  blocks := []
  discardedBytes := 0

@[simp] theorem insertVoting_members (h : Handle) (hash : Hash) (p : BlockProposal) :
    (h.insertVoting hash p).members = h.members := rfl

@[simp] theorem insertVoting_root (h : Handle) (hash : Hash) (p : BlockProposal) :
    (h.insertVoting hash p).root = h.root := rfl

@[simp] theorem insertVoting_blocks (h : Handle) (hash : Hash) (p : BlockProposal) :
    (h.insertVoting hash p).blocks = h.blocks := rfl

@[simp] theorem insertVoting_voting_self (h : Handle) (hash : Hash) (p : BlockProposal) :
    (h.insertVoting hash p).voting hash = some p := by
  simp [insertVoting]

theorem insertVoting_voting_ne (h : Handle) {hash hash' : Hash} (hne : hash' ≠ hash)
    (p : BlockProposal) : (h.insertVoting hash p).voting hash' = h.voting hash' := by
  simp [insertVoting, hne]

@[simp] theorem removeVoting_insertVoting (h : Handle) (hash : Hash) (p : BlockProposal) :
    (h.insertVoting hash p).removeVoting hash = h.removeVoting hash := by
  simp [insertVoting, removeVoting]

end Handle

/-- The arguments `accept_block` was called with. -/
structure Accepted where
  hash : Hash
  number : BlockNumber
  block : Except Bytes Nat

/-- What a handler leaves behind: the handle, the answer, and a record the
source does not keep, the call to `accept_block` it made, if any. Handlers
change the handle even when they answer an error. -/
structure Reply (α : Type) where
  handle : Handle
  result : Except Fault α
  accepted : Option Accepted := none

end OnionNetwork.Server
