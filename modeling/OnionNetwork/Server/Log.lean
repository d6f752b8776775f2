import OnionNetwork.Server.Handle
import OnionNetwork.Chat.Message
import OnionNetwork.Lib.ByteFile
import Mathlib.Data.UInt

/-!
# The blocks file

The parts of `send_message` and of voting that read and rewrite the blocks
file. The last `bufferLen` bytes of the file are the unfinalized buffer; what
precedes them is the finalized history, compacted down to `checkpoint` when it
grows. A stage that fails leaves the file as far as it got, and the root record
it was changing is not stored.
-/

namespace OnionNetwork.Server

open Chat Lib

/-- The root record in hand and the blocks file. -/
structure Log where
  root : Root
  blocks : Bytes
  discardedBytes : Nat

/-- Seek to `Root::buffer_start` and read the unfinalized buffer: its position
and its bytes. -/
def readBuffer (root : Root) (blocks : Bytes) : Except ChatError (Nat × Bytes) :=
  match ByteFile.seekEnd blocks root.bufferLen with
  | none => .error (.io .invalidInput)
  | some pos =>
      match ByteFile.readExactAt blocks root.bufferLen pos with
      | none => .error (.io .unexpectedEof)
      | some buffer => .ok (pos, buffer)

namespace Log

/-- Append the encoded message and its length, and grow the buffer. -/
def append (log : Log) (message : Message) : Except Fault Log :=
  match encodeToSlice (Encode.encode message) (maxMessageSize + sizeOfMessage) with
  | none => .error (.chat .ise)
  | some encodedMessage =>
      .ok
        { log with
          blocks := log.blocks ++ encodedMessage ++ toBe16 encodedMessage.length
          root := { log.root with
            bufferLen := log.root.bufferLen + (encodedMessage.length + 2) } }

/-- `BUFFER_LEN` of the compaction. -/
def copyBufferLen : Nat := 1024 * 8

/-- Drop the history in front of the checkpoint once it exceeds
`BLOCK_HISTORY` blocks. `fileLen` is the length of the file before the append. -/
def compact (log : Log) (fileLen : Nat) : Log × Except Fault Unit :=
  let root := log.root
  match checkedSub fileLen root.checkpoint with
  | .error e => (log, .error e)
  | .ok toCopy =>
      if toCopy > blockHistory * blockSize then
        match ByteFile.copyDown copyBufferLen root.checkpoint toCopy log.blocks toCopy 0 with
        | none => (log, .error (.chat (.io .unexpectedEof)))
        | some (blocks, copied) =>
            let log :=
              { log with
                blocks := ByteFile.setLen blocks copied
                discardedBytes := log.discardedBytes + copied }
            match checkedSub toCopy root.bufferLen with
            | .error e => (log, .error e)
            | .ok checkpoint => ({ log with root := { root with checkpoint } }, .ok ())
      else (log, .ok ())

/-- `kept_chunk_len`: count the newest messages until what remains of the
buffer fits in one block. The messages come from the buffer, so the count
never exceeds its length. -/
def keptChunkLen (bufferLen : Nat) : List Bytes → Nat → Nat
  | [], kept => kept
  | msg :: msgs, kept =>
      let kept := kept + (msg.length + 2)
      if bufferLen - kept ≤ blockSize then kept else keptChunkLen bufferLen msgs kept

/-- Discard the oldest unfinalized block when the buffer exceeds its cap. -/
def discardOldest (log : Log) : Log × Except Fault Unit :=
  let root := log.root
  if root.bufferLen > unfinalizedBufferCap then
    match readBuffer root log.blocks with
    | .error e => (log, .error (.chat e))
    | .ok (pos, block) =>
        let kept := keptChunkLen root.bufferLen (unpackMessages block) 0
        let written := ByteFile.writeAllAt log.blocks (block.drop (block.length - kept)) pos
        ({ log with
            blocks := ByteFile.setLen written (pos + kept)
            root := { root with bufferLen := kept } },
          .ok ())
  else (log, .ok ())

end Log

/-- `block_size`: drop the newest messages until at most the desired size is
left. -/
def blockSizeLoop (desiredBlockSize : Nat) : List Bytes → Nat → Nat
  | [], size => size
  | msg :: msgs, size =>
      let size := size - (msg.length + 2)
      if size ≤ desiredBlockSize then size else blockSizeLoop desiredBlockSize msgs size

/-- The block a finalizer proposes: the buffer cut back to whole blocks. -/
def cutBlock (block : Bytes) : Bytes :=
  block.take (blockSizeLoop (block.length / blockSize * blockSize) (unpackMessages block)
    block.length)

/-- One more message adds its bytes and its length. -/
theorem length_frames_concat (front : List Bytes) (msg : Bytes) :
    (logCode.frames (front ++ [msg])).length =
      (logCode.frames front).length + (msg.length + 2) := by
  rw [LenCode.frames_append, LenCode.frames_singleton, List.length_append, LenCode.length_frame,
    logCode_width]

/-- Reading the buffer of a file whose last `bufferLen` bytes are known. -/
theorem readBuffer_append {root : Root} (front : Bytes) {back : Bytes}
    (h : root.bufferLen = back.length) :
    readBuffer root (front ++ back) = .ok (front.length, back) := by
  have hread := ByteFile.readExactAt_append front back []
  rw [List.append_nil] at hread
  simp only [readBuffer, h, ByteFile.seekEnd_append, hread]

/-- Reading the buffer of a file that is long enough. -/
theorem readBuffer_of_le {root : Root} {blocks : Bytes} (h : root.bufferLen ≤ blocks.length) :
    readBuffer root blocks =
      .ok (blocks.length - root.bufferLen, blocks.drop (blocks.length - root.bufferLen)) := by
  have hback : root.bufferLen = (blocks.drop (blocks.length - root.bufferLen)).length := by
    rw [List.length_drop]; omega
  have hread := readBuffer_append (blocks.take (blocks.length - root.bufferLen)) hback
  rw [List.take_append_drop, List.length_take] at hread
  rw [hread, Nat.min_eq_left (Nat.sub_le _ _)]

/-- A buffer longer than its file is an invalid seek. -/
theorem readBuffer_of_lt {root : Root} {blocks : Bytes} (h : blocks.length < root.bufferLen) :
    readBuffer root blocks = .error (.io .invalidInput) := by
  simp only [readBuffer, ByteFile.seekEnd, if_neg (Nat.not_le.mpr h)]

/-- What an error says when it says that reading or writing a file failed. -/
def IsIo : ChatError → Prop
  | .io _ => True
  | _ => False

theorem readBuffer_error {root : Root} {blocks : Bytes} {e : ChatError}
    (h : readBuffer root blocks = .error e) : IsIo e := by
  by_cases hle : root.bufferLen ≤ blocks.length
  · cases (readBuffer_of_le hle).symm.trans h
  · obtain rfl := Except.error.inj ((readBuffer_of_lt (Nat.lt_of_not_le hle)).symm.trans h)
    exact trivial

namespace Log

/-- The log with more bytes in the buffer. -/
def extend (log : Log) (frame : Bytes) : Log :=
  { log with
    blocks := log.blocks ++ frame
    root := { log.root with bufferLen := log.root.bufferLen + frame.length } }

/-- `append` writes one frame. -/
theorem append_eq_ok {log log' : Log} {message : Message} :
    log.append message = .ok log' ↔
      (Encode.encode message).length ≤ maxMessageSize + sizeOfMessage ∧
        log' = log.extend (logCode.frame (Encode.encode message)) := by
  rw [extend, LenCode.length_frame, logCode_width]
  unfold append encodeToSlice
  by_cases hle : (Encode.encode message).length ≤ maxMessageSize + sizeOfMessage
  · simp only [hle, if_true, true_and, LenCode.frame, ← List.append_assoc]
    exact ⟨fun h => (Except.ok.inj h).symm, fun h => congrArg Except.ok h.symm⟩
  · simp [hle]

/-- Below the trigger, compaction does nothing. -/
theorem compact_of_le (log : Log) {fileLen : Nat} (hcp : log.root.checkpoint ≤ fileLen)
    (h : fileLen - log.root.checkpoint ≤ blockHistory * blockSize) :
    log.compact fileLen = (log, .ok ()) := by
  simp [compact, checkedSub_of_le hcp, Nat.not_lt.mpr h]

/-- A checkpoint behind the end of the file stops the call. -/
theorem compact_of_lt (log : Log) {fileLen : Nat} (h : fileLen < log.root.checkpoint) :
    log.compact fileLen = (log, .error .underflow) := by
  simp only [compact, checkedSub, if_neg (Nat.not_le.mpr h)]

/-- A subtraction that fails is no answer to a client. -/
theorem checkedSub_ne_chat {a b : Nat} {e : ChatError} : checkedSub a b ≠ .error (.chat e) := by
  unfold checkedSub
  split <;> simp

/-- Compaction answers with no error but one of the file. -/
theorem compact_error {log log' : Log} {fileLen : Nat} {e : ChatError}
    (h : log.compact fileLen = (log', .error (.chat e))) : IsIo e := by
  unfold compact at h
  cases hcopy : checkedSub fileLen log.root.checkpoint with
  | error f =>
      simp only [hcopy, Prod.mk.injEq, Except.error.injEq] at h
      exact absurd (h.2 ▸ hcopy) checkedSub_ne_chat
  | ok toCopy =>
      simp only [hcopy] at h
      split at h
      · split at h
        · -- the file ended before the bytes that are moved
          simp only [Prod.mk.injEq, Except.error.injEq, Fault.chat.injEq] at h
          exact h.2 ▸ trivial
        · cases hcheckpoint : checkedSub toCopy log.root.bufferLen with
          | error f =>
              simp only [hcheckpoint, Prod.mk.injEq, Except.error.injEq] at h
              exact absurd (h.2 ▸ hcheckpoint) checkedSub_ne_chat
          | ok checkpoint =>
              simp only [hcheckpoint] at h
              cases congrArg Prod.snd h
      · cases congrArg Prod.snd h

/-- Below the cap nothing is discarded. -/
theorem discardOldest_of_le {log : Log} (h : log.root.bufferLen ≤ unfinalizedBufferCap) :
    log.discardOldest = (log, .ok ()) :=
  if_neg (Nat.not_lt.mpr h)

/-- So does discarding. -/
theorem discardOldest_error {log log' : Log} {e : ChatError}
    (h : log.discardOldest = (log', .error (.chat e))) : IsIo e := by
  by_cases hcap : log.root.bufferLen > unfinalizedBufferCap
  · simp only [discardOldest, if_pos hcap] at h
    cases hread : readBuffer log.root log.blocks with
    | error e' =>
        rw [hread] at h
        cases h
        exact readBuffer_error hread
    | ok buffer =>
        rw [hread] at h
        cases congrArg Prod.snd h
  · rw [discardOldest_of_le (Nat.le_of_not_lt hcap)] at h
    cases congrArg Prod.snd h

/-- Compaction keeps the block number and the latest block. -/
theorem compact_root (log : Log) (fileLen : Nat) :
    (log.compact fileLen).1.root.number = log.root.number ∧
      (log.compact fileLen).1.root.latestBlock = log.root.latestBlock := by
  simp only [compact]
  cases checkedSub fileLen log.root.checkpoint with
  | error e => exact ⟨rfl, rfl⟩
  | ok toCopy =>
      by_cases hbig : toCopy > blockHistory * blockSize
      · simp only [if_pos hbig]
        cases ByteFile.copyDown copyBufferLen log.root.checkpoint toCopy log.blocks toCopy 0 with
        | none => exact ⟨rfl, rfl⟩
        | some copy =>
            simp only
            cases checkedSub toCopy log.root.bufferLen with
            | error e => exact ⟨rfl, rfl⟩
            | ok checkpoint => exact ⟨rfl, rfl⟩
      · simp only [if_neg hbig, and_self]

/-- Discarding keeps the block number and the latest block. -/
theorem discardOldest_root (log : Log) :
    log.discardOldest.1.root.number = log.root.number ∧
      log.discardOldest.1.root.latestBlock = log.root.latestBlock := by
  simp only [discardOldest]
  by_cases hcap : log.root.bufferLen > unfinalizedBufferCap
  · simp only [if_pos hcap]
    cases readBuffer log.root log.blocks with
    | error e => exact ⟨rfl, rfl⟩
    | ok buffer => exact ⟨rfl, rfl⟩
  · simp only [if_neg hcap, and_self]

/-- The log cut down to what lies between the checkpoint and a file length. -/
def cutTo (log : Log) (fileLen : Nat) : Log :=
  { log with
    blocks := (log.blocks.drop log.root.checkpoint).take (fileLen - log.root.checkpoint)
    discardedBytes := log.discardedBytes + (fileLen - log.root.checkpoint) }

/-- Above the trigger, compaction keeps what lies between the checkpoint and
the file length it was given: whatever was appended since is cut off. -/
theorem compact_of_gt {log : Log} {fileLen : Nat} (hfile : fileLen ≤ log.blocks.length)
    (h : fileLen - log.root.checkpoint > blockHistory * blockSize) :
    log.compact fileLen =
      if log.root.bufferLen ≤ fileLen - log.root.checkpoint then
        ({ log.cutTo fileLen with
            root := { log.root with
              checkpoint := fileLen - log.root.checkpoint - log.root.bufferLen } }, .ok ())
      else (log.cutTo fileLen, .error .underflow) := by
  have hcp : log.root.checkpoint ≤ fileLen := by omega
  have hchunk : 0 < copyBufferLen := by decide
  have hin : log.root.checkpoint + (fileLen - log.root.checkpoint) ≤ log.blocks.length := by omega
  obtain ⟨file', hrun, hset⟩ := ByteFile.copyDown_setLen hchunk hin (Nat.le_refl _)
  simp only [compact, checkedSub_of_le hcp, if_pos h, hrun, hset]
  by_cases hsub : log.root.bufferLen ≤ fileLen - log.root.checkpoint
  · rw [checkedSub_of_le hsub, if_pos hsub]
    rfl
  · rw [checkedSub, if_neg hsub, if_neg hsub]
    rfl

/-- The messages counted are whole frames at the end of the buffer; the newest
one is always among them, and the frames given up fit in one block. -/
theorem keptChunkLen_append {bufferLen : Nat} (done msgs : List Bytes)
    (hlen : bufferLen = (logCode.frames (msgs ++ done)).length) :
    ∃ dropped kept, msgs = dropped ++ kept ∧ (msgs ≠ [] → kept ≠ []) ∧
      (logCode.frames dropped).length ≤ blockSize ∧
      keptChunkLen bufferLen msgs.reverse (logCode.frames done).length =
        (logCode.frames (kept ++ done)).length := by
  induction hrev : msgs.reverse generalizing msgs done with
  | nil =>
      rw [List.reverse_eq_nil_iff] at hrev
      subst hrev
      exact ⟨[], [], rfl, by simp, Nat.zero_le _, rfl⟩
  | cons msg older ih =>
      have hmsgs : msgs = older.reverse ++ [msg] := by
        rw [← List.reverse_reverse msgs, hrev, List.reverse_cons]
      have hcount : (logCode.frames done).length + (msg.length + 2) =
          (logCode.frames (msg :: done)).length := by
        rw [LenCode.frames_cons, List.length_append, LenCode.length_frame, logCode_width]
        omega
      have hall : bufferLen = (logCode.frames older.reverse).length +
          (logCode.frames (msg :: done)).length := by
        rw [hlen, hmsgs, List.append_assoc, List.singleton_append, LenCode.frames_append,
          List.length_append]
      rw [keptChunkLen, hcount]
      split
      · exact ⟨older.reverse, [msg], hmsgs, by simp, by omega, rfl⟩
      · obtain ⟨dropped, kept, hsplit, -, hblock, hkept⟩ :=
          ih (msg :: done) older.reverse (by rw [hlen, hmsgs]; simp) (by simp)
        refine ⟨dropped, kept ++ [msg], by rw [hmsgs, hsplit]; simp, by simp, hblock, ?_⟩
        rw [hkept]
        simp

/-- Whatever the buffer holds, no more is counted than it holds. -/
theorem keptChunkLen_le (bufferLen : Nat) (msgs : List Bytes) (kept : Nat) :
    keptChunkLen bufferLen msgs kept ≤ kept + (logCode.frames msgs).length := by
  induction msgs generalizing kept with
  | nil => exact Nat.le_add_right _ _
  | cons msg msgs ih =>
      have hframe : (logCode.frames (msg :: msgs)).length =
          msg.length + 2 + (logCode.frames msgs).length := by
        rw [LenCode.frames_cons, List.length_append, LenCode.length_frame, logCode_width]
      rw [keptChunkLen, hframe]
      split
      · omega
      · have hle := ih (kept + (msg.length + 2))
        omega

/-- Discarding shortens the file by as much as it shortens the buffer. -/
theorem discardOldest_length {log log' : Log} (h : log.discardOldest = (log', .ok ())) :
    (log.root.bufferLen ≤ unfinalizedBufferCap ∧ log' = log) ∨
      (unfinalizedBufferCap < log.root.bufferLen ∧ log.root.bufferLen ≤ log.blocks.length ∧
        log'.blocks.length + log.root.bufferLen = log.blocks.length + log'.root.bufferLen) := by
  unfold discardOldest at h
  by_cases hcap : log.root.bufferLen > unfinalizedBufferCap
  · by_cases hle : log.root.bufferLen ≤ log.blocks.length
    · right
      simp only [if_pos hcap, readBuffer_of_le hle] at h
      obtain rfl := congrArg Prod.fst h
      refine ⟨hcap, hle, ?_⟩
      set buffer := log.blocks.drop (log.blocks.length - log.root.bufferLen) with hbuffer
      have hlen : buffer.length = log.root.bufferLen := by
        rw [hbuffer, List.length_drop]
        omega
      have hframes : (logCode.frames (unpackMessages buffer)).length ≤ buffer.length := by
        rw [unpackMessages_eq]
        exact logCode.length_frames_unframe_le buffer
      have hkept := keptChunkLen_le log.root.bufferLen (unpackMessages buffer) 0
      generalize keptChunkLen log.root.bufferLen (unpackMessages buffer) 0 = kept at hkept ⊢
      have hdata : (buffer.drop (buffer.length - kept)).length = kept := by
        rw [List.length_drop]
        omega
      have hpos : log.blocks.length - log.root.bufferLen ≤ log.blocks.length := Nat.sub_le _ _
      have hwrite := ByteFile.setLen_writeAllAt (buffer.drop (buffer.length - kept)) hpos
      rw [hdata] at hwrite
      simp only [hwrite, List.length_append, List.length_take, hdata]
      omega
    · simp [if_pos hcap, readBuffer_of_lt (Nat.lt_of_not_le hle)] at h
  · rw [if_neg hcap] at h
    exact .inl ⟨Nat.le_of_not_lt hcap, (congrArg Prod.fst h).symm⟩

/-- Discarding keeps whole frames at the end of the buffer, the newest one among
them, gives up at most one block of it, and leaves the finalized part of the file
alone. -/
theorem discardOldest_frames {log : Log} {front : Bytes} {msgs : List Bytes}
    (hbound : logCode.Bounded msgs) (hblocks : log.blocks = front ++ logCode.frames msgs)
    (hlen : log.root.bufferLen = (logCode.frames msgs).length) :
    ∃ dropped kept, msgs = dropped ++ kept ∧ (msgs ≠ [] → kept ≠ []) ∧
      (logCode.frames dropped).length ≤ blockSize ∧
      (log.root.bufferLen ≤ unfinalizedBufferCap → dropped = []) ∧
      log.discardOldest =
        ({ log with
            blocks := front ++ logCode.frames kept
            root := { log.root with bufferLen := (logCode.frames kept).length } }, .ok ()) := by
  unfold discardOldest
  by_cases hcap : log.root.bufferLen > unfinalizedBufferCap
  · obtain ⟨dropped, kept, hsplit, hne, hblock, hcount⟩ :=
      keptChunkLen_append [] msgs (by simpa using hlen)
    have hread := readBuffer_append front hlen
    rw [List.append_nil, LenCode.frames_nil, List.length_nil] at hcount
    refine ⟨dropped, kept, hsplit, hne, hblock, fun hle => absurd hle (Nat.not_le.mpr hcap), ?_⟩
    have hkept : (logCode.frames msgs).drop
        ((logCode.frames msgs).length - (logCode.frames kept).length) = logCode.frames kept := by
      rw [hsplit, LenCode.frames_append, List.length_append, Nat.add_sub_cancel, List.drop_left]
    have hpos : front.length ≤ log.blocks.length := by
      rw [hblocks, List.length_append]
      exact Nat.le_add_right _ _
    have hwrite := ByteFile.setLen_writeAllAt (logCode.frames kept) hpos
    simp only [if_pos hcap, hblocks ▸ hread, unpackMessages_eq, logCode.unframe_frames hbound,
      hcount, hkept, hwrite]
    rw [hblocks, List.take_left]
  · refine ⟨[], msgs, rfl, fun h => h, Nat.zero_le _, fun _ => rfl, ?_⟩
    rw [if_neg hcap, ← hlen, ← hblocks]

end Log

/-- The cut-back block is the longest prefix of frames of the desired size. -/
theorem blockSizeLoop_of_fits {desired : Nat} {front : List Bytes} {msg : Bytes}
    (hfits : (logCode.frames front).length ≤ desired)
    (hnext : desired < (logCode.frames front).length + (msg.length + 2)) (back : List Bytes) :
    blockSizeLoop desired (front ++ msg :: back).reverse
        (logCode.frames (front ++ msg :: back)).length =
      (logCode.frames front).length := by
  -- induction on the dropped messages, newest first
  induction back using List.reverseRecOn with
  | nil =>
      have hcount : (logCode.frames (front ++ [msg])).length - (msg.length + 2) =
          (logCode.frames front).length := by
        rw [LenCode.frames_append, LenCode.frames_singleton, List.length_append,
          LenCode.length_frame, logCode_width]
        exact Nat.add_sub_cancel _ _
      rw [List.reverse_append, List.reverse_singleton, List.singleton_append, blockSizeLoop,
        hcount, if_pos hfits]
  | append_singleton back last ih =>
      have hcount : (logCode.frames (front ++ msg :: (back ++ [last]))).length -
          (last.length + 2) = (logCode.frames (front ++ msg :: back)).length := by
        rw [← List.cons_append, ← List.append_assoc, LenCode.frames_append,
          LenCode.frames_singleton, List.length_append, LenCode.length_frame, logCode_width]
        exact Nat.add_sub_cancel _ _
      have htoo : desired < (logCode.frames (front ++ msg :: back)).length := by
        rw [LenCode.frames_append, LenCode.frames_cons, List.length_append, List.length_append,
          LenCode.length_frame, logCode_width]
        omega
      have hrev : (front ++ msg :: (back ++ [last])).reverse =
          last :: (front ++ msg :: back).reverse := by simp
      rw [hrev, blockSizeLoop, hcount, if_neg (Nat.not_le.mpr htoo)]
      exact ih

theorem cutBlock_of_fits {front back : List Bytes} {msg : Bytes} {desired : Nat}
    (hbound : logCode.Bounded (front ++ msg :: back))
    (hdesired : (logCode.frames (front ++ msg :: back)).length / blockSize * blockSize = desired)
    (hfits : (logCode.frames front).length ≤ desired)
    (hnext : desired < (logCode.frames front).length + (msg.length + 2)) :
    cutBlock (logCode.frames (front ++ msg :: back)) = logCode.frames front := by
  rw [cutBlock, hdesired, unpackMessages_eq, logCode.unframe_frames hbound,
    blockSizeLoop_of_fits hfits hnext, LenCode.frames_append, List.take_left]

end OnionNetwork.Server
