import Mathlib.Data.List.Perm.Subperm
import OnionNetwork.Server.ChatLog
import OnionNetwork.Server.Requests

/-!
# What a validated block contains

`proposal_low` compares how many messages of the buffer occur in the block with how many
different messages the block has. It does not look at bytes in front of the frames it
reads, nor at how often a message occurs on either side. The comparison means that the block
is made of buffered messages exactly when there is nothing of that kind
(`validated_block_iff`), and then accepting the block only reorders the log.
-/

namespace OnionNetwork.Server

open Chat Lib

/-! ## Counting -/

section Counting

variable {α : Type} [BEq α] [LawfulBEq α] {block buffer : List α}

/-- The elements of the buffer that occur in the block. -/
def shared (block buffer : List α) : List α := buffer.filter fun m => m ∈ block

theorem shared_subset : shared block buffer ⊆ block := by
  intro m hm
  exact of_decide_eq_true (List.mem_filter.mp hm).2

theorem shared_sublist : (shared block buffer).Sublist buffer := List.filter_sublist

/-- The block and what the buffer has besides. -/
theorem append_filter_perm (h : (shared block buffer).Perm block) :
    (block ++ buffer.filter fun m => !decide (m ∈ block)).Perm buffer := by
  have hsplit := List.filter_append_perm (fun m => decide (m ∈ block)) buffer
  exact (h.symm.append_right _).trans hsplit

variable [DecidableEq α]

/-- If the count agrees, a block contained in the buffer has no element twice, and so has the
buffer none of the block's. -/
theorem nodup_of_subperm (hcount : (shared block buffer).length = block.dedup.length)
    (h : block.Subperm buffer) : block.Nodup ∧ (shared block buffer).Perm block := by
  have hall : block.Subperm (shared block buffer) := by
    have hself : block.filter (fun m => m ∈ block) = block :=
      List.filter_eq_self.mpr fun m hm => decide_eq_true hm
    have hfilter := h.filter fun m => decide (m ∈ block)
    rw [hself] at hfilter
    exact hfilter
  have hdedup : block.dedup.Sublist block := List.dedup_sublist block
  -- the lengths of the block, of what it shares and of its different elements are in a circle
  have hle := hall.length_le
  have hge := hdedup.length_le
  refine ⟨?_, ?_⟩
  · rw [← List.dedup_eq_self]
    exact hdedup.eq_of_length (by omega)
  · exact (hall.perm_of_length_le (by omega)).symm

/-- The other way round, such a block is contained in the buffer. -/
theorem perm_of_nodup (hcount : (shared block buffer).length = block.dedup.length)
    (hblock : block.Nodup) (hbuffer : ∀ m ∈ block, buffer.count m ≤ 1) :
    (shared block buffer).Perm block := by
  have hnodup : (shared block buffer).Nodup := by
    rw [List.nodup_iff_count_le_one]
    intro m
    by_cases hm : m ∈ block
    · exact Nat.le_trans (shared_sublist.count_le m) (hbuffer m hm)
    · have hnot : m ∉ shared block buffer := fun h => hm (shared_subset h)
      rw [List.count_eq_zero_of_not_mem hnot]
      exact Nat.zero_le 1
  rw [hblock.dedup] at hcount
  exact (hnodup.subperm shared_subset).perm_of_length_le (Nat.le_of_eq hcount.symm)

theorem subperm_iff_of_count (hcount : (shared block buffer).length = block.dedup.length) :
    block.Subperm buffer ↔ block.Nodup ∧ ∀ m ∈ block, buffer.count m ≤ 1 := by
  constructor
  · intro h
    obtain ⟨hnodup, hperm⟩ := nodup_of_subperm hcount h
    refine ⟨hnodup, ?_⟩
    intro m hm
    have hshared : (shared block buffer).count m = buffer.count m :=
      List.count_filter (decide_eq_true hm)
    rw [← hshared, hperm.count_eq]
    exact List.nodup_iff_count_le_one.mp hnodup m
  · rintro ⟨hnodup, hbuffer⟩
    exact (perm_of_nodup hcount hnodup hbuffer).symm.subperm.trans shared_sublist.subperm

end Counting

/-! ## Blocks -/

/-- The block is frames throughout, and its messages are those of the buffer, each at most as
often. -/
def OfKnownMessages (block : Bytes) (buffered : List Bytes) : Prop :=
  ∃ msgs, logCode.Bounded msgs ∧ block = logCode.frames msgs ∧ msgs.Subperm buffered

/-- The frames read from the block take up all of it, no message occurs twice in it, and none of
its messages occurs twice in the buffer. -/
def OnceEach (block : Bytes) (buffered : List Bytes) : Prop :=
  (logCode.frames (unpackMessages block)).length = block.length ∧
    (unpackMessages block).Nodup ∧ ∀ m ∈ unpackMessages block, buffered.count m ≤ 1

/-- A block is frames throughout when the frames read from it have its length. -/
theorem framed_iff_length (block : Bytes) :
    logCode.Framed block ↔ (logCode.frames (unpackMessages block)).length = block.length := by
  rw [unpackMessages_eq]
  obtain ⟨⟨rest, hrest, -⟩, -⟩ := logCode.unframe_spec block
  constructor
  · intro h
    have hlen := congrArg List.length (logCode.framed_iff.mp h)
    rw [LenCode.length_frames_reverse] at hlen
    exact hlen.symm
  · intro h
    rw [logCode.framed_iff]
    have hlen := congrArg List.length hrest
    rw [List.length_append, LenCode.length_frames_reverse, h] at hlen
    have hnil : rest = [] := List.length_eq_zero_iff.mp (by omega)
    rw [hnil, List.nil_append] at hrest
    exact hrest

/-- The order of the messages of a block does not matter. -/
theorem ofKnownMessages_iff {block : Bytes} {buffered : List Bytes} :
    OfKnownMessages block buffered ↔
      logCode.Framed block ∧ (unpackMessages block).Subperm buffered := by
  constructor
  · rintro ⟨msgs, hbound, rfl, hsub⟩
    refine ⟨.frames hbound, ?_⟩
    rw [unpackMessages_eq, logCode.unframe_frames hbound]
    exact (List.reverse_perm msgs).subperm.trans hsub
  · rintro ⟨⟨msgs, hbound, rfl⟩, hsub⟩
    refine ⟨msgs, hbound, rfl, ?_⟩
    rw [unpackMessages_eq, logCode.unframe_frames hbound] at hsub
    exact (List.reverse_perm msgs).symm.subperm.trans hsub

/-- The verdict of `proposal_low` is a count. -/
theorem shared_of_ok {h : Handle} {origin : NodeIdentity} {group : FullReplGroup}
    {number : BlockNumber} {block front : Bytes} {e : BlockProposal} {buffered : List Bytes}
    (hbound : logCode.Bounded buffered) (hblocks : h.blocks = front ++ logCode.frames buffered)
    (hlen : h.root.bufferLen = (logCode.frames buffered).length)
    (hok : (h.proposalLow origin group number block e h.root).2 = .ok ()) :
    (shared (unpackMessages block) buffered).length = (unpackMessages block).dedup.length := by
  obtain ⟨-, -, -, hpresent⟩ :=
    (proposalLow_cases h origin group number block e).2.mp hok
  have hbuffer : h.blocks.drop (h.blocks.length - h.root.bufferLen) = logCode.frames buffered := by
    rw [hlen, hblocks, List.length_append, Nat.add_sub_cancel, List.drop_left]
  rw [hbuffer] at hpresent
  unfold Handle.MessagesPresent at hpresent
  rw [unpackMessages_eq (logCode.frames buffered), logCode.unframe_frames hbound,
    List.countP_reverse] at hpresent
  rw [← hpresent, shared, List.countP_eq_length_filter]
  simp only [List.mem_dedup]

/-- **A validated block contains only known messages** exactly if its bytes are all read, none of
its messages is repeated and the buffer repeats none of them. Accepting it then leaves the
finalized part of the file as it is and reorders the buffered messages behind it. -/
theorem validated_block_iff {h : Handle} (origin : NodeIdentity) (group : FullReplGroup)
    {number : BlockNumber} {block front : Bytes} (e : BlockProposal) {buffered : List Bytes}
    (hbound : logCode.Bounded buffered) (hblocks : h.blocks = front ++ logCode.frames buffered)
    (hlen : h.root.bufferLen = (logCode.frames buffered).length)
    (hok : (h.proposalLow origin group number block e h.root).2 = .ok ()) :
    (OfKnownMessages block buffered ↔ OnceEach block buffered) ∧
      (OnceEach block buffered → ∀ hash, ∃ reordered : List Bytes, reordered.Perm buffered ∧
        (h.acceptBlock hash number (.error block)).result = .ok () ∧
        (h.acceptBlock hash number (.error block)).handle.blocks =
          front ++ logCode.frames reordered) := by
  have hcount := shared_of_ok hbound hblocks hlen hok
  have hiff : OfKnownMessages block buffered ↔ OnceEach block buffered := by
    rw [ofKnownMessages_iff, framed_iff_length, subperm_iff_of_count hcount]
    rfl
  refine ⟨hiff, ?_⟩
  rintro ⟨hread, hnodup, honce⟩ hash
  obtain ⟨msgs, hmsgs, rfl⟩ := (framed_iff_length block).mpr hread
  have hperm := perm_of_nodup hcount hnodup honce
  have hunpack : unpackMessages (logCode.frames msgs) = msgs.reverse := by
    rw [unpackMessages_eq, logCode.unframe_frames hmsgs]
  have hsplice := spliceBlock_frames hblocks hlen hbound hmsgs
  obtain ⟨-, -, -, -, hcases⟩ := acceptBlock_cases h hash number (.error (logCode.frames msgs))
  refine ⟨msgs ++ buffered.filter fun m => !decide (m ∈ msgs), ?_, ?_⟩
  · have hshared : (shared msgs buffered).Perm msgs := by
      rw [hunpack] at hperm
      simp only [shared, List.mem_reverse] at hperm
      exact hperm.trans (List.reverse_perm msgs)
    exact append_filter_perm hshared
  · rcases hcases with ⟨fault, hfault, -⟩ | ⟨bufferLen, blocks, hdone, hres, hfile, -⟩
    · rw [hsplice] at hfault
      cases hfault
    · rw [hsplice] at hdone
      cases hdone
      refine ⟨hres, ?_⟩
      rw [hfile, LenCode.frames_append]

/-- A chat with these messages in its buffer. -/
def buffering (msgs : List Bytes) : Handle :=
  { Handle.fresh lobbyMembers with
    root := { bufferLen := (logCode.frames msgs).length }
    blocks := logCode.frames msgs }

/-- The first of two messages, proposed by the finalizer. -/
theorem validated_first :
    (OfKnownMessages (logCode.frames [[1]]) [[1], [2]] ↔
        OnceEach (logCode.frames [[1]]) [[1], [2]]) ∧
      (OnceEach (logCode.frames [[1]]) [[1], [2]] → ∀ hash, ∃ reordered : List Bytes,
        reordered.Perm [[1], [2]] ∧
        ((buffering [[1], [2]]).acceptBlock hash 0 (.error (logCode.frames [[1]]))).result =
          .ok () ∧
        ((buffering [[1], [2]]).acceptBlock hash 0 (.error (logCode.frames [[1]]))).handle.blocks =
          [] ++ logCode.frames reordered) :=
  validated_block_iff 1 replicas {} (by unfold LenCode.Bounded; decide) rfl rfl (by decide)

/-- A byte that is no frame passes the check, and so does a message proposed twice. -/
theorem validated_unknown :
    (((buffering []).proposalLow 1 replicas 0 [7] {} {}).2 = .ok () ∧
        ¬ OfKnownMessages [7] []) ∧
      (((buffering [[1]]).proposalLow 1 replicas 0 (logCode.frames [[1], [1]]) {}
          (buffering [[1]]).root).2 = .ok () ∧
        ¬ OfKnownMessages (logCode.frames [[1], [1]]) [[1]]) := by
  refine ⟨⟨by decide, ?_⟩, by decide, ?_⟩
  · rintro ⟨msgs, -, hblock, hsub⟩
    have hnil : msgs = [] := List.length_eq_zero_iff.mp (Nat.le_zero.mp hsub.length_le)
    rw [hnil] at hblock
    cases hblock
  · rintro ⟨msgs, hbound, hblock, hsub⟩
    have htwice : logCode.Bounded [[1], [1]] := by
      unfold LenCode.Bounded
      decide
    have hmsgs : [[1], [1]] = msgs := logCode.frames_inj htwice hbound hblock
    have hlen := hsub.length_le
    rw [← hmsgs] at hlen
    exact absurd hlen (by decide)

end OnionNetwork.Server
