import OnionNetwork.Server.Send

/-!
# What the blocks file stands for

The log of a chat as lists of messages: those in front of the checkpoint, the
finalized ones behind it, and the pending ones of the unfinalized buffer.
`Represents` ties such a log to a root record and the bytes of a file, and the
lemmas after it say what the handlers do to the log. A handler that leaves no
log to represent is one that broke the file.

* `Represents.extend`, `compacted`, `discard` — what a message does;
* `Represents.splice_local`, `splice_remote` — what accepting a block does.
-/

namespace OnionNetwork.Server

open Chat Lib

/-- The messages of a chat, oldest first; each fits a frame. -/
structure ChatLog where
  old : List Bytes
  recent : List Bytes
  pending : List Bytes
  bounded_old : logCode.Bounded old
  bounded_recent : logCode.Bounded recent
  bounded_pending : logCode.Bounded pending

namespace ChatLog

/-- A chat without messages. -/
def empty : ChatLog :=
  ⟨[], [], [], List.forall_mem_nil _, List.forall_mem_nil _, List.forall_mem_nil _⟩

/-- The pending messages replaced. -/
def withPending (log : ChatLog) (msgs : List Bytes) (h : logCode.Bounded msgs) : ChatLog :=
  { log with pending := msgs, bounded_pending := h }

/-- A block of messages finalized, and the pending ones replaced. -/
def finalize (log : ChatLog) (block msgs : List Bytes) (hblock : logCode.Bounded block)
    (h : logCode.Bounded msgs) : ChatLog :=
  { log with
    recent := log.recent ++ block
    pending := msgs
    bounded_recent := log.bounded_recent.append hblock
    bounded_pending := h }

end ChatLog

/-- The root record and the file hold exactly this log. -/
structure Represents (root : Root) (blocks : Bytes) (log : ChatLog) : Prop where
  blocks_eq : blocks =
    logCode.frames log.old ++ logCode.frames log.recent ++ logCode.frames log.pending
  bufferLen_eq : root.bufferLen = (logCode.frames log.pending).length
  checkpoint_eq : root.checkpoint = (logCode.frames log.old).length

/-- The unfinalized buffer of a file. -/
def bufferOf (root : Root) (blocks : Bytes) : Bytes :=
  blocks.drop (blocks.length - root.bufferLen)

/-- What lies in front of it. -/
def finalizedOf (root : Root) (blocks : Bytes) : Bytes :=
  blocks.take (blocks.length - root.bufferLen)

/-- The blocks file is frames throughout, and so is the buffer at its end. -/
structure LogAligned (root : Root) (blocks : Bytes) : Prop where
  framed : logCode.Framed blocks
  bufferLen_le : root.bufferLen ≤ blocks.length
  framed_buffer : logCode.Framed (bufferOf root blocks)

/-- The pending messages of an aligned file. -/
theorem LogAligned.exists_pending {root : Root} {blocks : Bytes} (h : LogAligned root blocks) :
    ∃ pending, logCode.Bounded pending ∧ bufferOf root blocks = logCode.frames pending ∧
      blocks = finalizedOf root blocks ++ logCode.frames pending ∧
      root.bufferLen = (logCode.frames pending).length := by
  obtain ⟨pending, hpending, hbuffer⟩ := h.framed_buffer
  have hle := h.bufferLen_le
  refine ⟨pending, hpending, hbuffer, ?_, ?_⟩
  · rw [← hbuffer, finalizedOf, bufferOf, List.take_append_drop]
  · rw [← hbuffer, bufferOf, List.length_drop]
    omega

/-- A fresh chat represents the log without messages. -/
theorem represents_fresh (members : Members) :
    Represents (Handle.fresh members).root (Handle.fresh members).blocks .empty :=
  ⟨rfl, rfl, rfl⟩

namespace Represents

variable {root : Root} {blocks : Bytes} {log : ChatLog}

theorem bufferOf_eq (h : Represents root blocks log) :
    bufferOf root blocks = logCode.frames log.pending := by
  rw [bufferOf, h.bufferLen_eq, h.blocks_eq, List.length_append, Nat.add_sub_cancel,
    List.drop_left]

theorem bufferLen_le (h : Represents root blocks log) : root.bufferLen ≤ blocks.length := by
  rw [h.bufferLen_eq, h.blocks_eq, List.length_append]
  exact Nat.le_add_left _ _

theorem checkpoint_le (h : Represents root blocks log) :
    root.checkpoint + root.bufferLen ≤ blocks.length := by
  rw [h.checkpoint_eq, h.bufferLen_eq, h.blocks_eq, List.length_append, List.length_append]
  omega

/-- A file that represents a log is aligned. -/
theorem aligned (h : Represents root blocks log) : LogAligned root blocks := by
  refine ⟨?_, h.bufferLen_le, ?_⟩
  · rw [h.blocks_eq]
    exact ((LenCode.Framed.frames log.bounded_old).append
      (.frames log.bounded_recent)).append (.frames log.bounded_pending)
  · rw [h.bufferOf_eq]
    exact .frames log.bounded_pending

/-- Only the buffer length and the checkpoint of the root matter. -/
theorem congr_root {root' : Root} (h : Represents root blocks log)
    (hbuffer : root'.bufferLen = root.bufferLen)
    (hcheckpoint : root'.checkpoint = root.checkpoint) : Represents root' blocks log :=
  ⟨h.blocks_eq, hbuffer.trans h.bufferLen_eq, hcheckpoint.trans h.checkpoint_eq⟩

end Represents

/-- An aligned file whose checkpoint lies on a frame boundary in front of the
buffer represents a log. -/
theorem represents_of_aligned {root : Root} {blocks : Bytes} (h : LogAligned root blocks)
    (hcheckpoint : root.checkpoint ≤ blocks.length - root.bufferLen)
    (hframed : logCode.Framed (blocks.drop root.checkpoint)) :
    ∃ log, Represents root blocks log := by
  obtain ⟨pending, hpending, hbuffer⟩ := h.framed_buffer
  have hsplit : blocks.drop root.checkpoint =
      (blocks.drop root.checkpoint).take (blocks.length - root.bufferLen - root.checkpoint) ++
        bufferOf root blocks := by
    have hdrop : bufferOf root blocks = (blocks.drop root.checkpoint).drop
        (blocks.length - root.bufferLen - root.checkpoint) := by
      rw [List.drop_drop, bufferOf]
      congr 1
      omega
    rw [hdrop, List.take_append_drop]
  have hrecent := LenCode.Framed.prefix_of_append (hsplit ▸ hframed) h.framed_buffer
  have hwhole : logCode.Framed (blocks.take root.checkpoint ++ blocks.drop root.checkpoint) := by
    rw [List.take_append_drop]
    exact h.framed
  have hold := hwhole.prefix_of_append hframed
  obtain ⟨recent, hrbound, hreq⟩ := hrecent
  obtain ⟨old, hobound, hoeq⟩ := hold
  refine ⟨⟨old, recent, pending, hobound, hrbound, hpending⟩, ?_, ?_, ?_⟩
  · rw [← hoeq, ← hreq, ← hbuffer, List.append_assoc, ← hsplit, List.take_append_drop]
  · have hlen := h.bufferLen_le
    rw [← hbuffer, bufferOf, List.length_drop]
    omega
  · have hlen := h.bufferLen_le
    rw [← hoeq, List.length_take]
    omega

/-- Remote bytes go in front of the buffered messages they do not contain, whatever the finalized
part of the file is. -/
theorem spliceBlock_data {root : Root} {blocks front : Bytes} {pending : List Bytes}
    (hblocks : blocks = front ++ logCode.frames pending)
    (hlen : root.bufferLen = (logCode.frames pending).length)
    (hpending : logCode.Bounded pending) (data : Bytes) :
    let kept := pending.filter fun msg => !decide (msg ∈ unpackMessages data)
    spliceBlock root blocks (.error data) =
      .ok ((logCode.frames kept).length, front ++ (data ++ logCode.frames kept)) := by
  intro kept
  have hread : readBuffer root blocks = .ok (front.length, logCode.frames pending) := by
    rw [hblocks]
    exact readBuffer_append _ hlen
  have hfront : ByteFile.setLen blocks front.length = front := by
    rw [ByteFile.setLen_of_le, hblocks, List.take_left]
    rw [hblocks, List.length_append]
    exact Nat.le_add_right _ _
  have hkept : retainMessagesInVec (logCode.frames pending)
      (fun message => !decide (message ∈ unpackMessages data)) = logCode.frames kept := by
    rw [retainMessagesInVec_eq, retainMessages_eq, logCode.unframe_frames hpending,
      List.reverse_reverse]
  simp only [spliceBlock, hread, hfront, hkept]

/-- A block of frames goes in front of the messages that are not in it. -/
theorem spliceBlock_frames {root : Root} {blocks front : Bytes} {pending block : List Bytes}
    (hblocks : blocks = front ++ logCode.frames pending)
    (hlen : root.bufferLen = (logCode.frames pending).length)
    (hpending : logCode.Bounded pending) (hb : logCode.Bounded block) :
    let kept := pending.filter fun msg => !decide (msg ∈ block)
    spliceBlock root blocks (.error (logCode.frames block)) =
      .ok ((logCode.frames kept).length,
        front ++ (logCode.frames block ++ logCode.frames kept)) := by
  have hsplice := spliceBlock_data hblocks hlen hpending (logCode.frames block)
  rw [unpackMessages_eq, logCode.unframe_frames hb] at hsplice
  simp only [List.mem_reverse] at hsplice
  exact hsplice

namespace Represents

/-- Appending a message makes it the newest pending one. -/
theorem extend {log : Log} {cl : ChatLog} (h : Represents log.root log.blocks cl) {p : Bytes}
    (hp : logCode.Bounded (cl.pending ++ [p])) :
    Represents (log.extend (logCode.frame p)).root (log.extend (logCode.frame p)).blocks
      (cl.withPending (cl.pending ++ [p]) hp) := by
  refine ⟨?_, ?_, h.checkpoint_eq⟩
  · show log.blocks ++ logCode.frame p = _ ++ logCode.frames (cl.pending ++ [p])
    rw [h.blocks_eq, LenCode.frames_append, LenCode.frames_singleton, List.append_assoc _ _
      (logCode.frame p)]
    rfl
  · show log.root.bufferLen + (logCode.frame p).length = (logCode.frames (cl.pending ++ [p])).length
    rw [h.bufferLen_eq, LenCode.frames_append, LenCode.frames_singleton, List.length_append]

/-- Discarding gives up the oldest pending messages, and none below the cap. -/
theorem discard {log : Log} {cl : ChatLog} (h : Represents log.root log.blocks cl) :
    ∃ dropped kept, ∃ hkept : logCode.Bounded kept, cl.pending = dropped ++ kept ∧
      (cl.pending ≠ [] → kept ≠ []) ∧
      (log.root.bufferLen ≤ unfinalizedBufferCap → dropped = []) ∧
      ∃ log', log.discardOldest = (log', .ok ()) ∧
        log'.root = { log.root with bufferLen := (logCode.frames kept).length } ∧
        Represents log'.root log'.blocks (cl.withPending kept hkept) := by
  obtain ⟨dropped, kept, hsplit, hne, -, hcap, hdiscard⟩ :=
    Log.discardOldest_frames cl.bounded_pending h.blocks_eq h.bufferLen_eq
  have hkept : logCode.Bounded kept :=
    cl.bounded_pending.subset fun p hp => hsplit ▸ List.mem_append_right _ hp
  exact ⟨dropped, kept, hkept, hsplit, hne, hcap, _, hdiscard, rfl, rfl, rfl, h.checkpoint_eq⟩

/-- What compaction leaves represents a log if the longer buffer it assumes
happens to start at a frame of the shorter file. -/
theorem compacted {root root' : Root} {blocks : Bytes} {cl : ChatLog}
    (h : Represents root blocks cl)
    (hfits : root'.bufferLen ≤ blocks.length - root.checkpoint)
    (hframed : logCode.Framed (blocks.drop (blocks.length - root'.bufferLen)))
    (hcheckpoint : root'.checkpoint = blocks.length - root.checkpoint - root'.bufferLen) :
    ∃ cl', Represents root' (blocks.drop root.checkpoint) cl' := by
  have hrest : logCode.Framed (blocks.drop root.checkpoint) := by
    rw [h.blocks_eq, h.checkpoint_eq, List.append_assoc, List.drop_left]
    exact (LenCode.Framed.frames cl.bounded_recent).append (.frames cl.bounded_pending)
  have hlen : (blocks.drop root.checkpoint).length = blocks.length - root.checkpoint :=
    List.length_drop
  have hcp := h.checkpoint_le
  have hbuffer : (blocks.drop root.checkpoint).drop
      ((blocks.drop root.checkpoint).length - root'.bufferLen) =
        blocks.drop (blocks.length - root'.bufferLen) := by
    rw [List.drop_drop, hlen]
    congr 1
    omega
  refine represents_of_aligned ⟨hrest, by omega, ?_⟩ (by omega) ?_
  · rw [bufferOf, hbuffer]
    exact hframed
  · rw [hcheckpoint, ← hlen, hbuffer]
    exact hframed

/-- Accepting a local block moves the front of the buffer over, if the block
still ends at a frame. -/
theorem splice_local {root : Root} {blocks : Bytes} {cl : ChatLog} (h : Represents root blocks cl)
    {size : Nat} (hsize : size ≤ root.bufferLen)
    (hframed : logCode.Framed ((bufferOf root blocks).drop size)) :
    ∃ block rest, ∃ (hb : logCode.Bounded block) (hr : logCode.Bounded rest),
      cl.pending = block ++ rest ∧ size = (logCode.frames block).length ∧
      spliceBlock root blocks (.ok size) = .ok ((logCode.frames rest).length, blocks) ∧
      Represents { root with bufferLen := (logCode.frames rest).length } blocks
        (cl.finalize block rest hb hr) := by
  rw [h.bufferOf_eq] at hframed
  have hsplit := List.take_append_drop size (logCode.frames cl.pending)
  have hwhole : logCode.Framed ((logCode.frames cl.pending).take size ++
      (logCode.frames cl.pending).drop size) := by
    rw [hsplit]
    exact .frames cl.bounded_pending
  obtain ⟨block, hb, hblock⟩ := hwhole.prefix_of_append hframed
  obtain ⟨rest, hr, hrest⟩ := hframed
  have hpending : cl.pending = block ++ rest := by
    refine logCode.frames_inj cl.bounded_pending (hb.append hr) ?_
    rw [LenCode.frames_append, ← hblock, ← hrest, hsplit]
  have hlen : size = (logCode.frames block).length := by
    rw [← hblock, List.length_take, ← h.bufferLen_eq]
    exact (Nat.min_eq_left hsize).symm
  have hleft : root.bufferLen - size = (logCode.frames rest).length := by
    rw [h.bufferLen_eq, hpending, LenCode.frames_append, List.length_append, hlen]
    omega
  refine ⟨block, rest, hb, hr, hpending, hlen, ?_, ?_, rfl, h.checkpoint_eq⟩
  · show (checkedSub root.bufferLen size >>= _) = _
    rw [checkedSub_of_le hsize, hleft]
    rfl
  · show blocks = logCode.frames cl.old ++ logCode.frames (cl.recent ++ block) ++
      logCode.frames rest
    rw [h.blocks_eq, hpending, LenCode.frames_append, LenCode.frames_append]
    simp only [List.append_assoc]

/-- Accepting a remote block of frames finalizes its messages and takes them
out of the buffer. -/
theorem splice_remote {root : Root} {blocks : Bytes} {cl : ChatLog} (h : Represents root blocks cl)
    {block : List Bytes} (hb : logCode.Bounded block) :
    ∃ hr : logCode.Bounded (cl.pending.filter fun msg => !decide (msg ∈ block)),
      ∃ bufferLen blocks', spliceBlock root blocks (.error (logCode.frames block)) =
          .ok (bufferLen, blocks') ∧
        Represents { root with bufferLen } blocks'
          (cl.finalize block (cl.pending.filter fun msg => !decide (msg ∈ block)) hb hr) := by
  have hr : logCode.Bounded (cl.pending.filter fun msg => !decide (msg ∈ block)) :=
    cl.bounded_pending.subset fun p hp => List.mem_of_mem_filter hp
  refine ⟨hr, _, _, spliceBlock_frames h.blocks_eq h.bufferLen_eq cl.bounded_pending hb, ?_, rfl,
    h.checkpoint_eq⟩
  show _ = logCode.frames cl.old ++ logCode.frames (cl.recent ++ block) ++ _
  rw [LenCode.frames_append]
  simp only [List.append_assoc]
  rfl

end Represents

end OnionNetwork.Server
