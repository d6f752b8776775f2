import OnionNetwork.Chat.Message
import OnionNetwork.Server.ChatLog
import OnionNetwork.Server.Requests

/-!
# What happens to the blocks file and to the buffer

`retain_is_filter`: the three cursors of `retain_messages` compute the list filter of the
messages that the buffer parses into from its end.

`message_kept_iff`: an accepted message is kept, with everything behind the
checkpoint, exactly when the call does not compact the history. The compaction
is given the file length from before the append, so it cuts off the frame that
was just written.

What becomes of the messages that are not in a block yet:

* `acceptBlock_merges`: a remote block goes in front of the buffered messages that are not
  in it;
* `discard_oldest`: when the buffer has outgrown its cap, its oldest frames go, a block of
  them at most.
-/

/-! ## Filtering messages in place -/

namespace OnionNetwork.Chat

open Lib

/-- **In-place filtering is the list filter.** Every buffer parses into messages behind
bytes that cannot be read. What is kept, and left in the vector, are the frames of the
messages that satisfy the predicate, in order. Reading framed payloads back gives them,
newest first. -/
theorem retain_is_filter :
    (∀ buffer : Bytes, ∃ rest messages, Parses buffer rest messages) ∧
      (∀ (buffer rest : Bytes) (messages : List Bytes) (predicate : Bytes → Bool),
        Parses buffer rest messages →
          retainMessages buffer predicate = logCode.frames (messages.filter predicate) ∧
          retainMessagesInVec buffer predicate = logCode.frames (messages.filter predicate)) ∧
      (∀ payloads : List Bytes, (∀ p ∈ payloads, p.length ≤ 65535) →
        unpackMessages (logCode.frames payloads) = payloads.reverse) := by
  refine ⟨exists_parses, fun buffer rest messages predicate h => ?_, fun payloads hlen => ?_⟩
  · have hkept : retainMessages buffer predicate =
        logCode.frames (messages.filter predicate) := by
      rw [retainMessages_eq, h.unframe_eq, List.reverse_reverse]
    exact ⟨hkept, by rw [retainMessagesInVec_eq, hkept]⟩
  · have hbounded : logCode.Bounded payloads := fun p hp => Nat.lt_succ_of_le (hlen p hp)
    rw [unpackMessages_eq, logCode.unframe_frames hbounded]

/-- A message of a one between two of zeros, behind a length that reaches too far. -/
theorem retain_is_filter_zeros :
    retainMessagesInVec [9, 0, 7, 0, 0, 0, 2, 1, 0, 1, 0, 0, 1] (·.all (· == 0)) =
      [0, 0, 0, 2, 0, 0, 1] := by
  have hparses : Parses [9, 0, 7, 0, 0, 0, 2, 1, 0, 1, 0, 0, 1] [9, 0, 7]
      [[0, 0], [1], [0]] := by
    refine ⟨rfl, ?_, .inr (by decide)⟩
    intro p hp
    simp only [List.mem_cons, List.not_mem_nil, or_false] at hp
    rcases hp with rfl | rfl | rfl <;> decide
  exact (retain_is_filter.2.1 _ _ _ _ hparses).2

end OnionNetwork.Chat

/-! ## Storing a message -/

namespace OnionNetwork.Server

open Chat Lib

variable {cr : Crypto}

/-- The frame a message is stored as. -/
def newFrame (proof : Proof cr ReminderOwned) : Bytes :=
  logCode.frame (Encode.encode (Handle.messageOf proof))

/-- The file is a suffix of the old one and the frame, cut at or in front of the
checkpoint, and the frame is its last one. -/
def KeepsHistory (h h' : Handle) (frame : Bytes) : Prop :=
  (∃ k ≤ h.root.checkpoint, h'.blocks = (h.blocks ++ frame).drop k) ∧
    ∃ front, logCode.Framed front ∧ h'.blocks = front ++ frame

/-- As `KeepsHistory`, but the oldest frames of the buffer may be missing. What
is left of the buffer and the frame is what the root counts as buffer. -/
def KeepsHistoryButOldest (h h' : Handle) (frame : Bytes) : Prop :=
  ∃ dropped kept, bufferOf h.root h.blocks ++ frame = dropped ++ kept ∧
    logCode.Framed dropped ∧ (∃ front, logCode.Framed front ∧ kept = front ++ frame) ∧
    h'.root.bufferLen = kept.length ∧
    ∃ k ≤ h.root.checkpoint,
      h'.blocks = (h.blocks.take (h.blocks.length - h.root.bufferLen)).drop k ++ kept

/-- The message is kept: nothing but history in front of the checkpoint is lost,
and, when the buffer outgrows its cap, the oldest frames of the buffer. -/
def KeepsMessage (h h' : Handle) (frame : Bytes) : Prop :=
  if h.root.bufferLen + frame.length ≤ unfinalizedBufferCap then KeepsHistory h h' frame
  else KeepsHistoryButOldest h h' frame

theorem length_newFrame_pos (proof : Proof cr ReminderOwned) : 0 < (newFrame proof).length := by
  rw [newFrame, LenCode.length_frame, logCode_width]
  omega

/-- Without compaction the message is kept. -/
theorem message_kept_of_history {h h' : Handle} {proof : Proof cr ReminderOwned} {log : Log}
    (halign : LogAligned h.root h.blocks)
    (hstore : Handle.storeMessage ⟨h.root, h.blocks, h.discardedBytes⟩ (Handle.messageOf proof) =
      (log, .ok ()))
    (hroot : h'.root = log.root) (hblocks : h'.blocks = log.blocks)
    (hhistory : h.blocks.length - h.root.checkpoint ≤ blockHistory * blockSize) :
    KeepsMessage h h' (newFrame proof) := by
  obtain ⟨hlen, hcp⟩ := storeMessage_eq_ok hstore
  obtain ⟨pending, hpending, hbuffer, hold, hbl⟩ := halign.exists_pending
  set p := Encode.encode (Handle.messageOf proof) with hp
  set front := finalizedOf h.root h.blocks with hfront
  obtain ⟨dropped, rest, hrest, -, hcap, hstored⟩ := storeMessage_frames
    ⟨h.root, h.blocks, h.discardedBytes⟩ hlen hcp hhistory hpending hold hbl
  rw [hstored] at hstore
  obtain rfl := congrArg Prod.fst hstore
  have hlast : logCode.frames (rest ++ [p]) = logCode.frames rest ++ newFrame proof := by
    rw [LenCode.frames_append, LenCode.frames_singleton]
    rfl
  have hbound : logCode.Bounded (dropped ++ rest) := hrest ▸ hpending
  have hframedRest : logCode.Framed (logCode.frames rest) :=
    .frames (hbound.subset fun q hq => List.mem_append_right _ hq)
  unfold KeepsMessage
  split
  · -- below the cap nothing is dropped
    rename_i hle
    obtain rfl := hcap hle
    obtain rfl : pending = rest := hrest
    have hfile : h'.blocks = h.blocks ++ newFrame proof := by
      rw [hblocks, hold, List.append_assoc, ← hlast]
    exact ⟨⟨0, Nat.zero_le _, hfile⟩, h.blocks, halign.framed, hfile⟩
  · refine ⟨logCode.frames dropped, logCode.frames (rest ++ [p]), ?_, ?_, ?_, ?_, 0,
      Nat.zero_le _, ?_⟩
    · rw [hbuffer, hrest, LenCode.frames_append, hlast, List.append_assoc]
    · exact .frames (hbound.subset fun q hq => List.mem_append_left _ hq)
    · exact ⟨_, hframedRest, hlast⟩
    · rw [hroot]
    · rw [hblocks]
      rfl

/-- With compaction the message is lost, whatever the file held. -/
theorem message_lost_of_compaction {h h' : Handle} {proof : Proof cr ReminderOwned} {log : Log}
    (hbuffer : h.root.bufferLen ≤ h.blocks.length)
    (hstore : Handle.storeMessage ⟨h.root, h.blocks, h.discardedBytes⟩ (Handle.messageOf proof) =
      (log, .ok ()))
    (hroot : h'.root = log.root) (hblocks : h'.blocks = log.blocks)
    (hhistory : h.blocks.length - h.root.checkpoint > blockHistory * blockSize) :
    ¬ KeepsMessage h h' (newFrame proof) := by
  obtain ⟨hlen, hcp⟩ := storeMessage_eq_ok hstore
  rw [storeMessage_of_compaction _ hlen hhistory] at hstore
  have hpos := length_newFrame_pos proof
  split at hstore
  · rename_i hfits
    have hfits' : h.root.bufferLen + (newFrame proof).length ≤
        h.blocks.length - h.root.checkpoint := hfits
    have hcp' : h.root.checkpoint ≤ h.blocks.length := hcp
    -- the file got shorter by more than the history in front of the checkpoint
    have hshort : h'.blocks.length + (h.root.bufferLen + (newFrame proof).length) =
        h.blocks.length - h.root.checkpoint + h'.root.bufferLen := by
      rw [hroot, hblocks]
      rcases Log.discardOldest_length hstore with ⟨-, rfl⟩ | ⟨-, -, hlength⟩
      · show (h.blocks.drop h.root.checkpoint).length + _ = _
        rw [List.length_drop]
        rfl
      · have hdrop : (h.blocks.drop h.root.checkpoint).length =
            h.blocks.length - h.root.checkpoint := List.length_drop
        rw [← hdrop]
        exact hlength
    unfold KeepsMessage
    split
    · rename_i hcap
      rintro ⟨⟨k, hk, hfile⟩, -⟩
      have hbl : h'.root.bufferLen = h.root.bufferLen + (newFrame proof).length := by
        rcases Log.discardOldest_length hstore with ⟨-, rfl⟩ | ⟨hgt, -, -⟩
        · rw [hroot]
          rfl
        · exact absurd hcap (Nat.not_le.mpr hgt)
      have hlength := congrArg List.length hfile
      rw [List.length_drop, List.length_append] at hlength
      omega
    · rintro ⟨dropped, kept, -, -, -, hkept, k, hk, hfile⟩
      have hlength := congrArg List.length hfile
      rw [List.length_append, List.length_drop, List.length_take] at hlength
      omega
  · cases congrArg Prod.snd hstore

/-- **History compaction and new messages.** On a frame-aligned file, an
accepted message is kept together with every byte from the checkpoint on if and
only if the file holds at most `BLOCK_HISTORY` blocks behind the checkpoint,
that is, if and only if the call does not compact. -/
theorem message_kept_iff (h : Handle) (currentMs : Nat) (localPeerId : NodeIdentity)
    (group : FullReplGroup) (proof : Proof cr ReminderOwned)
    (halign : LogAligned h.root h.blocks)
    (hok : ∃ req, (h.sendMessage currentMs localPeerId group proof).result = .ok req) :
    KeepsMessage h (h.sendMessage currentMs localPeerId group proof).handle (newFrame proof) ↔
      h.blocks.length - h.root.checkpoint ≤ blockHistory * blockSize := by
  obtain ⟨req, hok⟩ := hok
  obtain ⟨log, hstore, hroot, hblocks⟩ := sendMessage_ok hok
  constructor
  · intro hkept
    by_contra hgt
    exact message_lost_of_compaction halign.bufferLen_le hstore hroot hblocks
      (Nat.lt_of_not_le hgt) hkept
  · exact message_kept_of_history halign hstore hroot hblocks

/-- A short note of the newcomer. -/
def shortNote : Proof .transparent ReminderOwned := Proof.transparent 2 1 ⟨[104, 105]⟩

/-- A chat with history: a message in front of the checkpoint, one finalized behind it, and two
in the buffer. -/
def busyChat : Handle :=
  .load lobbyMembers { number := 2, bufferLen := 7, checkpoint := 4 }
    (logCode.frames [[1, 2], [3], [4], [5, 6]])

theorem busyChat_aligned : LogAligned busyChat.root busyChat.blocks := by
  have hbounded : ∀ p ∈ ([[1, 2], [3], [4], [5, 6]] : List Bytes), p.length < 2 ^ 16 := by
    decide
  refine ⟨⟨_, hbounded, rfl⟩, by decide, [[4], [5, 6]], ?_, by decide⟩
  exact fun p hp => hbounded p (List.mem_cons_of_mem _ (List.mem_cons_of_mem _ hp))

/-- The note is kept, behind everything from the checkpoint on. -/
theorem message_kept_busy :
    KeepsMessage busyChat (busyChat.sendMessage 20 0 replicas shortNote).handle
      (newFrame shortNote) :=
  (message_kept_iff busyChat 20 0 replicas shortNote busyChat_aligned
    ⟨none, by decide +kernel⟩).mpr (by decide)

/-- A chat whose finalized history takes a little over eight blocks. -/
def longHistory : Handle :=
  { Handle.fresh lobbyMembers with
    blocks := logCode.frames (List.replicate 132 (List.replicate 1000 0)) }

theorem length_longHistory : longHistory.blocks.length = 132264 := by
  have hlen : (logCode.frames (List.replicate 132 (List.replicate 1000 0))).length =
      132 * (1000 + 2) := by
    rw [LenCode.length_frames_replicate, List.length_replicate, logCode_width]
  exact hlen

theorem longHistory_aligned : LogAligned longHistory.root longHistory.blocks := by
  have hbound : logCode.Bounded (List.replicate 132 (List.replicate 1000 0)) := by
    intro p hp
    rw [List.eq_of_mem_replicate hp, List.length_replicate]
    decide
  refine ⟨.frames hbound, Nat.zero_le _, ?_⟩
  have hbuffer : longHistory.root.bufferLen = 0 := rfl
  rw [bufferOf, hbuffer, Nat.sub_zero, List.drop_length]
  exact .nil

/-- The history is aligned, the message is accepted, and its frame is gone. -/
theorem compaction_cuts_message :
    LogAligned longHistory.root longHistory.blocks ∧
      (longHistory.sendMessage 20 0 replicas shortNote).result = .ok none ∧
      ¬ KeepsMessage longHistory (longHistory.sendMessage 20 0 replicas shortNote).handle
        (newFrame shortNote) := by
  have hhistory : longHistory.blocks.length - longHistory.root.checkpoint >
      blockHistory * blockSize := by
    rw [length_longHistory]
    decide
  have hlen : (Encode.encode (Handle.messageOf shortNote)).length ≤
      maxMessageSize + sizeOfMessage := by decide +kernel
  have hsmall : longHistory.root.bufferLen +
      (logCode.frame (Encode.encode (Handle.messageOf shortNote))).length ≤ blockSize := by
    rw [LenCode.length_frame]
    decide +kernel
  -- the action can be spent: the members are those of the fresh chat
  obtain ⟨members, hmembers⟩ : ∃ members, longHistory.spendAction 20 shortNote = .ok members :=
    spendAction_newcomer rfl (by decide) (by decide) ⟨[104, 105]⟩
  have hok := sendMessage_of_compaction 0 replicas hmembers hlen hhistory hsmall
  refine ⟨longHistory_aligned, hok, ?_⟩
  obtain ⟨log, hstored, hroot, hblocks⟩ := sendMessage_ok hok
  exact message_lost_of_compaction longHistory_aligned.bufferLen_le hstored hroot hblocks hhistory

end OnionNetwork.Server

namespace OnionNetwork.Server

open Chat Lib

variable {cr : Crypto}

/-- **Accepting a remote block merges it losslessly.** The finalized part stays, the block
is behind it, and of the buffer what is not in the block, in its order. -/
theorem acceptBlock_merges (h : Handle) (hash : Hash) (number : BlockNumber) (front : Bytes)
    (pending block : List Bytes) (hpending : logCode.Bounded pending)
    (hblock : logCode.Bounded block) (hblocks : h.blocks = front ++ logCode.frames pending)
    (hbuffer : h.root.bufferLen = (logCode.frames pending).length) :
    let kept := pending.filter fun msg => !decide (msg ∈ block)
    let reply := h.acceptBlock hash number (.error (logCode.frames block))
    reply.result = .ok () ∧
      reply.handle.blocks = front ++ (logCode.frames block ++ logCode.frames kept) ∧
      reply.handle.root = { h.root with
        number, latestBlock := hash, bufferLen := (logCode.frames kept).length } := by
  intro kept reply
  have hsplice := spliceBlock_frames hblocks hbuffer hpending hblock
  obtain ⟨-, -, -, -, hcases⟩ := acceptBlock_cases h hash number (.error (logCode.frames block))
  rcases hcases with ⟨fault, hfault, -⟩ | ⟨bufferLen, blocks, hok, hresult, hfile, hroot⟩
  · cases hsplice.symm.trans hfault
  · obtain ⟨rfl, rfl⟩ := Prod.mk.inj (Except.ok.inj (hsplice.symm.trans hok))
    exact ⟨hresult, hfile, hroot⟩

/-- A block that has some of the buffered messages, in another order. -/
theorem acceptBlock_merges_overlap :
    (({ Handle.fresh lobbyMembers with
          root := { bufferLen := 12 }
          blocks :=
            logCode.frames [[9]] ++ logCode.frames [[1], [2], [1], [3]] } : Handle).acceptBlock
        7 1 (.error (logCode.frames [[3], [4], [1]]))).handle.blocks =
      logCode.frames [[9], [3], [4], [1], [2]] := by
  have hshort : ∀ msgs : List Bytes, (∀ p ∈ msgs, p.length = 1) → logCode.Bounded msgs := by
    intro msgs hlen p hp
    rw [hlen p hp]
    decide
  have hmerged := acceptBlock_merges
    { Handle.fresh lobbyMembers with
      root := { bufferLen := 12 }
      blocks := logCode.frames [[9]] ++ logCode.frames [[1], [2], [1], [3]] }
    7 1 (logCode.frames [[9]]) [[1], [2], [1], [3]] [[3], [4], [1]]
    (hshort _ (by simp)) (hshort _ (by simp)) rfl rfl
  exact hmerged.2.1

/-- **Discarding the oldest messages.** An accepted call that does not compact the history
leaves the finalized part alone. The buffer and the new frame are frames throughout; when
they outgrow the cap the oldest ones of them go, a block at most, and the rest is the
buffer, with the new frame at its end. -/
theorem discard_oldest (h : Handle) (currentMs : Nat) (localPeerId : NodeIdentity)
    (group : FullReplGroup) (proof : Proof cr ReminderOwned)
    (haligned : LogAligned h.root h.blocks)
    (hok : ∃ req, (h.sendMessage currentMs localPeerId group proof).result = .ok req)
    (hhistory : h.blocks.length - h.root.checkpoint ≤ blockHistory * blockSize) :
    let handle := (h.sendMessage currentMs localPeerId group proof).handle
    finalizedOf handle.root handle.blocks = finalizedOf h.root h.blocks ∧
      ∃ dropped rest, logCode.Bounded dropped ∧ logCode.Bounded rest ∧
        bufferOf h.root h.blocks ++ newFrame proof =
          logCode.frames dropped ++ bufferOf handle.root handle.blocks ∧
        bufferOf handle.root handle.blocks = logCode.frames rest ++ newFrame proof ∧
        handle.root.bufferLen = (bufferOf handle.root handle.blocks).length ∧
        (logCode.frames dropped).length ≤ blockSize ∧
        (h.root.bufferLen + (newFrame proof).length ≤ unfinalizedBufferCap → dropped = []) := by
  intro handle
  obtain ⟨req, hok⟩ := hok
  obtain ⟨log, hstore, hroot, hblocks⟩ := sendMessage_ok hok
  obtain ⟨hlen, hcp⟩ := storeMessage_eq_ok hstore
  obtain ⟨pending, hpending, hbuffer, hold, hbl⟩ := haligned.exists_pending
  -- what goes and what stays is read off the frames of the buffer
  obtain ⟨dropped, rest, rfl, hblock, hcap, hstored⟩ := storeMessage_frames
    ⟨h.root, h.blocks, h.discardedBytes⟩ hlen hcp hhistory hpending hold hbl
  rw [hstored] at hstore
  obtain rfl := congrArg Prod.fst hstore
  have hnewest : logCode.frames (rest ++ [Encode.encode (Handle.messageOf proof)]) =
      logCode.frames rest ++ newFrame proof := by
    rw [LenCode.frames_append, LenCode.frames_singleton]
    rfl
  have hnewBuffer : handle.root.bufferLen = (logCode.frames rest ++ newFrame proof).length := by
    rw [← hnewest]
    exact congrArg Root.bufferLen hroot
  have hnewBlocks : handle.blocks =
      finalizedOf h.root h.blocks ++ (logCode.frames rest ++ newFrame proof) := by
    rw [← hnewest]
    exact hblocks
  have hcut : handle.blocks.length - handle.root.bufferLen =
      (finalizedOf h.root h.blocks).length := by
    rw [hnewBlocks, hnewBuffer, List.length_append, Nat.add_sub_cancel]
  have hkept : bufferOf handle.root handle.blocks = logCode.frames rest ++ newFrame proof := by
    rw [bufferOf, hcut, hnewBlocks, List.drop_left]
  refine ⟨?_, dropped, rest, ?_, ?_, ?_, hkept, ?_, hblock, hcap⟩
  · rw [finalizedOf, hcut, hnewBlocks, List.take_left]
  · exact hpending.subset fun p hp => List.mem_append_left _ hp
  · exact hpending.subset fun p hp => List.mem_append_right _ hp
  · rw [hbuffer, hkept, LenCode.frames_append, List.append_assoc]
  · rw [hkept, hnewBuffer]

/-- On an aligned file with little history, a message that the sender may send is accepted. -/
theorem sendMessage_accepted {h : Handle} {currentMs : Nat} {proof : Proof cr ReminderOwned}
    {members : Members} (localPeerId : NodeIdentity) (group : FullReplGroup)
    (hspend : h.spendAction currentMs proof = .ok members)
    (hlen : (Encode.encode (Handle.messageOf proof)).length ≤ maxMessageSize + sizeOfMessage)
    (haligned : LogAligned h.root h.blocks) (hcp : h.root.checkpoint ≤ h.blocks.length)
    (hhistory : h.blocks.length - h.root.checkpoint ≤ blockHistory * blockSize) :
    ∃ req, (h.sendMessage currentMs localPeerId group proof).result = .ok req := by
  obtain ⟨pending, hpending, -, hblocks, hbuffer⟩ := haligned.exists_pending
  obtain ⟨dropped, rest, -, -, -, hstored⟩ := storeMessage_frames
    ⟨h.root, h.blocks, h.discardedBytes⟩ hlen hcp hhistory hpending hblocks hbuffer
  simp only [Handle.sendMessage, hspend, hstored]
  refine proposeBlock_ok cr localPeerId group _ ?_
  rw [List.length_append]
  exact Nat.le_add_left _ _

/-- A chat of two members with nothing but some buffered messages. -/
def bufferedChat (pending : List Bytes) : Handle :=
  { Handle.fresh lobbyMembers with
    root := { bufferLen := (logCode.frames pending).length }
    blocks := logCode.frames pending }

theorem bufferedChat_aligned {pending : List Bytes} (hpending : logCode.Bounded pending) :
    LogAligned (bufferedChat pending).root (bufferedChat pending).blocks := by
  have hlength : (bufferedChat pending).blocks.length - (bufferedChat pending).root.bufferLen = 0 :=
    Nat.sub_self _
  refine ⟨.frames hpending, Nat.le_refl _, ?_⟩
  rw [bufferOf, hlength, List.drop_zero]
  exact .frames hpending

/-- A note on top of a buffer that is a little over the cap: at most a block of it goes. -/
theorem discard_oldest_note :
    ∃ pending, (logCode.frames pending).length = 82164 ∧
      let handle := ((bufferedChat pending).sendMessage 20 0 replicas shortNote).handle
      ∃ dropped, logCode.frames pending ++ newFrame shortNote =
          logCode.frames dropped ++ bufferOf handle.root handle.blocks ∧
        (logCode.frames dropped).length ≤ blockSize := by
  obtain ⟨pending, hpending, hlength⟩ : ∃ pending, logCode.Bounded pending ∧
      (logCode.frames pending).length = 82164 := by
    refine ⟨List.replicate 82 (List.replicate 1000 0), fun p hp => ?_, ?_⟩
    · rw [List.eq_of_mem_replicate hp, List.length_replicate]
      decide
    · rw [LenCode.length_frames_replicate, List.length_replicate, logCode_width]
  have hblocks : (bufferedChat pending).blocks.length = 82164 := hlength
  have hbuffer : (bufferedChat pending).root.bufferLen = 82164 := hlength
  have hhistory : (bufferedChat pending).blocks.length - (bufferedChat pending).root.checkpoint ≤
      blockHistory * blockSize :=
    Nat.le_trans (Nat.sub_le _ _) (hblocks.trans_le (by decide))
  have hlen : (Encode.encode (Handle.messageOf shortNote)).length ≤
      maxMessageSize + sizeOfMessage := by decide +kernel
  obtain ⟨members, hmembers⟩ : ∃ members,
      (bufferedChat pending).spendAction 20 shortNote = .ok members :=
    spendAction_newcomer rfl Nat.one_pos (by decide) ⟨[104, 105]⟩
  have haligned := bufferedChat_aligned hpending
  have hok := sendMessage_accepted 0 replicas hmembers hlen haligned (Nat.zero_le _) hhistory
  obtain ⟨-, dropped, -, -, -, hsplit, -, -, hblock, -⟩ :=
    discard_oldest (bufferedChat pending) 20 0 replicas shortNote haligned hok hhistory
  have hall : bufferOf (bufferedChat pending).root (bufferedChat pending).blocks =
      logCode.frames pending := by
    rw [bufferOf, hblocks, hbuffer, Nat.sub_self, List.drop_zero]
    rfl
  rw [hall] at hsplit
  exact ⟨pending, hlength, dropped, hsplit, hblock⟩

end OnionNetwork.Server
