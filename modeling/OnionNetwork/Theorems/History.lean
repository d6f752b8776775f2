import OnionNetwork.Server.History
import OnionNetwork.Server.Requests
import OnionNetwork.Theorems.LogFile

/-!
# Reading the history back

Each page ends where the last one's whole messages began, so the pages put together are the
messages of the file, newest first (`pages_complete`). The positions of the file have to fit
in a cursor for this, with the bytes discarded in front of it.

A cursor is a position of the file plus `discarded_bytes`. When the file is compacted its
bytes move to the front by as many as the checkpoint says, but `discarded_bytes` grows by the
number of bytes that were copied. From then on a cursor below that number makes
`fetch_messages` subtract below zero. A chat that was loaded has discarded nothing, so its
cursors are good exactly as long as no message compacts the file (`cursors_survive_iff`).
-/

namespace OnionNetwork.Server

open Chat Lib

/-! ## Pages -/

/-- **The loop invariant.** From a cursor behind some messages of the file the pages yield exactly
these. -/
theorem fetchPages_frames {h : Handle} {msgs rest : List Bytes} {cursor : Cursor} {fuel : Nat}
    (hblocks : h.blocks = logCode.frames (msgs ++ rest)) (hne : ∀ m ∈ msgs, m ≠ [])
    (hsize : ∀ m ∈ msgs, m.length + 2 ≤ maxMessageFetchSize)
    (hfits : h.discardedBytes + (logCode.frames msgs).length < 2 ^ 64)
    (hcursor : h.resolve cursor = .ok (h.discardedBytes + (logCode.frames msgs).length))
    (hfuel : msgs.length < fuel) : h.fetchPages fuel cursor = .ok (some msgs.reverse) := by
  induction fuel generalizing msgs rest cursor with
  | zero => exact absurd hfuel (Nat.not_lt_zero _)
  | succ fuel ih =>
      have hbound : logCode.Bounded msgs := by
        intro m hm
        have hm' := hsize m hm
        have hmax : maxMessageFetchSize < 256 ^ 2 := by decide
        show m.length < 256 ^ 2
        omega
      obtain ⟨older, newer, page, hsplit, hnewer, hpage, hfetch⟩ :=
        fetchPage_frames hblocks hbound hne hsize
      rw [Handle.fetchPages, fetchMessages_of_resolve hcursor, hfetch]
      by_cases hnil : msgs = []
      · have hlast : newer = [] := by
          rw [hnil] at hsplit
          exact (List.append_eq_nil_iff.mp hsplit.symm).2
        show (if (if msgs = [] then Cursor.max else _) = Cursor.max then _ else _) = _
        rw [if_pos hnil, if_pos rfl, hpage, hlast, hnil]
      · have hshort : older.length < msgs.length := by
          have hpos := List.length_pos_iff.mpr (hnewer hnil)
          rw [hsplit, List.length_append]
          omega
        have hsum : (logCode.frames msgs).length =
            (logCode.frames older).length + (logCode.frames newer).length := by
          rw [hsplit, LenCode.frames_append, List.length_append]
        -- each page takes at least one message, so the next position is a smaller one
        have hless : (logCode.frames older).length < (logCode.frames msgs).length := by
          obtain ⟨m, more, hm⟩ := List.exists_cons_of_ne_nil (hnewer hnil)
          rw [hsum, hm, LenCode.frames_cons, List.length_append, LenCode.length_frame,
            logCode_width]
          omega
        have hbelow : h.discardedBytes + (logCode.frames older).length < 2 ^ 64 - 1 := by omega
        obtain ⟨hmax, hresolve⟩ := resolve_of_lt h hbelow
        have holder : h.blocks = logCode.frames (older ++ (newer ++ rest)) := by
          rw [hblocks, hsplit, List.append_assoc]
        have hrest := ih holder (fun m hm => hne m (hsplit ▸ List.mem_append_left _ hm))
          (fun m hm => hsize m (hsplit ▸ List.mem_append_left _ hm)) (by omega) hresolve (by omega)
        show (if (if msgs = [] then Cursor.max else _) = Cursor.max then _ else _) = _
        rw [if_neg hnil, if_neg hmax, hrest]
        show Except.ok (some (unpackPage page ++ older.reverse)) = _
        rw [hpage, hsplit, List.reverse_append]

/-- **Paging through the history is complete**: from the greatest cursor the pages yield the stored
messages, newest first and each once, and then the greatest cursor comes back. -/
theorem pages_complete {h : Handle} {msgs : List Bytes} (hblocks : h.blocks = logCode.frames msgs)
    (hne : ∀ m ∈ msgs, m ≠ []) (hsize : ∀ m ∈ msgs, m.length + 2 ≤ maxMessageFetchSize)
    (hfits : h.blocks.length + h.discardedBytes < 2 ^ 64) {fuel : Nat}
    (hfuel : msgs.length < fuel) : h.fetchPages fuel Cursor.max = .ok (some msgs.reverse) := by
  have hlen : h.blocks.length = (logCode.frames msgs).length := congrArg List.length hblocks
  have hall : h.blocks = logCode.frames (msgs ++ []) := by rw [hblocks, List.append_nil]
  apply fetchPages_frames hall hne hsize (by omega) ?_ hfuel
  rw [resolve_max hfits, hlen]

/-- A chat with this history, after so many discarded bytes. -/
def stored (msgs : List Bytes) (discardedBytes : Nat) : Handle :=
  { Handle.fresh lobbyMembers with blocks := logCode.frames msgs, discardedBytes }

@[simp] theorem stored_blocks (msgs : List Bytes) (discardedBytes : Nat) :
    (stored msgs discardedBytes).blocks = logCode.frames msgs := rfl

@[simp] theorem stored_discardedBytes (msgs : List Bytes) (discardedBytes : Nat) :
    (stored msgs discardedBytes).discardedBytes = discardedBytes := rfl

/-- A message of which two fit in a page. -/
def longMessage : Bytes := List.replicate 4000 1

theorem length_longMessage : longMessage.length = 4000 := List.length_replicate

/-- Three of them. -/
theorem pages_complete_three :
    (stored (List.replicate 3 longMessage) 5).fetchPages 4 Cursor.max =
      .ok (some (List.replicate 3 longMessage).reverse) := by
  have hmem : ∀ m ∈ List.replicate 3 longMessage, m.length = 4000 := by
    intro m hm
    rw [List.eq_of_mem_replicate hm, length_longMessage]
  apply pages_complete (stored_blocks _ _)
  · rintro m hm rfl
    exact absurd (hmem _ hm) (by decide)
  · intro m hm
    rw [hmem m hm]
    decide
  · rw [stored_blocks, stored_discardedBytes, LenCode.length_frames_replicate, length_longMessage,
      logCode_width]
    decide
  · rw [List.length_replicate]
    decide

/-- Where the end of the file is no cursor any more, the first call stops. -/
theorem pages_overflow :
    ¬ ∃ fuel msgs, (stored [[1]] (2 ^ 64 - 1)).fetchPages fuel Cursor.max = .ok (some msgs) := by
  have hresolve : (stored [[1]] (2 ^ 64 - 1)).resolve Cursor.max = .error .overflow := by
    decide
  rintro ⟨fuel, msgs, hpages⟩
  cases fuel with
  | zero => cases hpages
  | succ fuel =>
      rw [Handle.fetchPages, Handle.fetchMessages, hresolve] at hpages
      cases hpages

/-! ## Cursors and compaction -/

variable {cr : Crypto}

/-- A call of `send_message`. -/
structure SendCall (cr : Crypto) where
  currentMs : Nat
  group : FullReplGroup
  proof : Proof cr ReminderOwned

/-- One handle under messages. -/
def sendMachine (cr : Crypto) (localPeerId : NodeIdentity) :
    Machine Handle (SendCall cr) (Except Fault (Option (BlockNumber × Bytes))) :=
  ⟨fun h c =>
    let reply := h.sendMessage c.currentMs localPeerId c.group c.proof
    (reply.handle, reply.result)⟩

/-- The message gets past the member table and fits its frame. -/
def AppendsMessage (h : Handle) (c : SendCall cr) : Prop :=
  (h.spendAction c.currentMs c.proof).isOk = true ∧
    (Encode.encode (Handle.messageOf c.proof)).length ≤ maxMessageSize + sizeOfMessage

instance (h : Handle) (c : SendCall cr) : Decidable (AppendsMessage h c) :=
  inferInstanceAs (Decidable (_ ∧ _))

/-- The call compacts the file. -/
def Compacts (h : Handle) (c : SendCall cr) : Prop :=
  AppendsMessage h c ∧ blockHistory * blockSize < h.blocks.length - h.root.checkpoint

instance (h : Handle) (c : SendCall cr) : Decidable (Compacts h c) :=
  inferInstanceAs (Decidable (_ ∧ _))

/-- The call discards the oldest unfinalized block. -/
def TakesDiscard (h : Handle) (c : SendCall cr) : Prop :=
  (h.spendAction c.currentMs c.proof).isOk = true ∧ ∃ appended compacted : Log,
    Log.append ⟨h.root, h.blocks, h.discardedBytes⟩ (Handle.messageOf c.proof) = .ok appended ∧
      appended.compact h.blocks.length = (compacted, .ok ()) ∧
      unfinalizedBufferCap < compacted.root.bufferLen

/-- Where the byte at an offset of the file is after the call: compaction copies what lies behind
the checkpoint to the front, and all else stays. -/
def movedTo (h : Handle) (c : SendCall cr) (offset : Nat) : Option Nat :=
  if Compacts h c then
    if h.root.checkpoint ≤ offset then some (offset - h.root.checkpoint) else none
  else some offset

/-- Every byte that is still stored after the call has the position it had. -/
def KeepsPositions (localPeerId : NodeIdentity) (h : Handle) (c : SendCall cr) : Prop :=
  ∀ offset < h.blocks.length, ∀ offset' ∈ movedTo h c offset,
    ((sendMachine cr localPeerId).step h c).1.discardedBytes + offset' =
      h.discardedBytes + offset

/-- A call with any cursor returns: a page, or an error. -/
def FetchReturns (h : Handle) : Prop :=
  ∀ cursor, (∃ page, h.fetchMessages cursor = .ok page) ∨
    ∃ e, h.fetchMessages cursor = .error (.stops (.chat e))

/-! ## What a message does to the file -/

/-- The file after a call is what storing the message makes of it. -/
theorem sendMessage_file (h : Handle) (localPeerId : NodeIdentity) (c : SendCall cr) :
    let h' := ((sendMachine cr localPeerId).step h c).1
    let stored := (Handle.storeMessage ⟨h.root, h.blocks, h.discardedBytes⟩
      (Handle.messageOf c.proof)).1
    ((h.spendAction c.currentMs c.proof).isOk = true ∧ h'.blocks = stored.blocks ∧
        h'.discardedBytes = stored.discardedBytes) ∨
      (¬ (h.spendAction c.currentMs c.proof).isOk = true ∧ h' = h) := by
  intro h' stored
  rcases sendMessage_cases h c.currentMs localPeerId c.group c.proof with
    ⟨e, hspend, hreply⟩ | ⟨members, hspend, ⟨log, e, hstore, hreply⟩ | ⟨log, hstore, hreply⟩⟩
  · right
    rw [hspend]
    exact ⟨nofun, congrArg Reply.handle hreply⟩
  · left
    have hhandle : h' = _ := congrArg Reply.handle hreply
    have hstored : stored = log := congrArg Prod.fst hstore
    rw [hspend, hhandle, hstored]
    exact ⟨rfl, rfl, rfl⟩
  · left
    have hhandle : h' = _ := congrArg Reply.handle hreply
    have hstored : stored = log := congrArg Prod.fst hstore
    rw [hspend, hhandle, hstored]
    rcases proposeBlock_cases cr { h with
        members, root := log.root, blocks := log.blocks, discardedBytes := log.discardedBytes }
      localPeerId c.group h.root.bufferLen with ⟨hsame, -⟩ | ⟨buffer, -, -, -, -, hprop⟩
    · rw [hsame]
      exact ⟨rfl, rfl, rfl⟩
    · rw [hprop]
      exact ⟨rfl, rfl, rfl⟩

/-- The frame of a message. -/
def frameOf (message : Message) : Bytes := logCode.frame (Encode.encode message)

/-- With room behind the checkpoint, the frame is appended. -/
theorem store_of_room {log : Log} {message : Message}
    (hlen : (Encode.encode message).length ≤ maxMessageSize + sizeOfMessage)
    (hroom : log.blocks.length - log.root.checkpoint ≤ blockHistory * blockSize)
    (hcap : ∀ appended compacted : Log, log.append message = .ok appended →
      appended.compact log.blocks.length = (compacted, .ok ()) →
      compacted.root.bufferLen ≤ unfinalizedBufferCap) :
    (Handle.storeMessage log message).1 = log.extend (frameOf message) := by
  have happ : log.append message = .ok (log.extend (frameOf message)) :=
    Log.append_eq_ok.mpr ⟨hlen, rfl⟩
  rcases Nat.lt_or_ge log.blocks.length log.root.checkpoint with hlt | hcp
  · have hcompact := Log.compact_of_lt (log.extend (frameOf message)) hlt
    simp only [Handle.storeMessage, happ, hcompact]
  · have hcompact := Log.compact_of_le (log.extend (frameOf message)) hcp hroom
    have hdiscard := Log.discardOldest_of_le (hcap _ _ happ hcompact)
    simp only [Handle.storeMessage, happ, hcompact, hdiscard]

/-- Without it, the file is cut down to what it held behind the checkpoint. -/
theorem store_of_compaction {log : Log} {message : Message}
    (hlen : (Encode.encode message).length ≤ maxMessageSize + sizeOfMessage)
    (hhistory : blockHistory * blockSize < log.blocks.length - log.root.checkpoint)
    (hcap : ∀ appended compacted : Log, log.append message = .ok appended →
      appended.compact log.blocks.length = (compacted, .ok ()) →
      compacted.root.bufferLen ≤ unfinalizedBufferCap) :
    (Handle.storeMessage log message).1.blocks = log.blocks.drop log.root.checkpoint ∧
      (Handle.storeMessage log message).1.discardedBytes =
        log.discardedBytes + (log.blocks.length - log.root.checkpoint) := by
  have happ : log.append message = .ok (log.extend (frameOf message)) :=
    Log.append_eq_ok.mpr ⟨hlen, rfl⟩
  have hfile : log.blocks.length ≤ (log.extend (frameOf message)).blocks.length := by
    show log.blocks.length ≤ (log.blocks ++ _).length
    rw [List.length_append]
    exact Nat.le_add_right _ _
  have hcompact := Log.compact_of_gt hfile hhistory
  have hstored := storeMessage_of_compaction log hlen hhistory
  by_cases hfits : (log.extend (frameOf message)).root.bufferLen ≤
      log.blocks.length - log.root.checkpoint
  · have hle := hcap _ _ happ (hcompact.trans (if_pos hfits))
    rw [hstored.trans (if_pos hfits), Log.discardOldest_of_le]
    · exact ⟨rfl, rfl⟩
    · exact hle
  · rw [hstored.trans (if_neg hfits)]
    exact ⟨rfl, rfl⟩

/-- What discards nothing leaves the buffer below its cap. -/
theorem cap_of_not_takesDiscard {h : Handle} {c : SendCall cr} (hdiscard : ¬ TakesDiscard h c)
    (hspend : (h.spendAction c.currentMs c.proof).isOk = true) (appended compacted : Log)
    (happ : Log.append ⟨h.root, h.blocks, h.discardedBytes⟩ (Handle.messageOf c.proof) =
      .ok appended) (hcompact : appended.compact h.blocks.length = (compacted, .ok ())) :
    compacted.root.bufferLen ≤ unfinalizedBufferCap := by
  by_contra hgt
  exact hdiscard ⟨hspend, appended, compacted, happ, hcompact, Nat.lt_of_not_le hgt⟩

/-- **A message that compacts** cuts the file down to what lay behind the checkpoint, and counts all
of that as discarded. -/
theorem step_of_compacts {h : Handle} (localPeerId : NodeIdentity) {c : SendCall cr}
    (hdiscard : ¬ TakesDiscard h c) (hc : Compacts h c) :
    ((sendMachine cr localPeerId).step h c).1.blocks = h.blocks.drop h.root.checkpoint ∧
      ((sendMachine cr localPeerId).step h c).1.discardedBytes =
        h.discardedBytes + (h.blocks.length - h.root.checkpoint) := by
  obtain ⟨⟨hspend, hlen⟩, hhistory⟩ := hc
  rcases sendMessage_file h localPeerId c with ⟨-, hblocks, hdiscarded⟩ | ⟨hno, -⟩
  · rw [hblocks, hdiscarded]
    exact store_of_compaction hlen hhistory (cap_of_not_takesDiscard hdiscard hspend)
  · exact absurd hspend hno

/-- **Any other message** adds bytes at the end or none. -/
theorem step_of_not_compacts {h : Handle} (localPeerId : NodeIdentity) {c : SendCall cr}
    (hdiscard : ¬ TakesDiscard h c) (hc : ¬ Compacts h c) :
    (∃ added, ((sendMachine cr localPeerId).step h c).1.blocks = h.blocks ++ added) ∧
      ((sendMachine cr localPeerId).step h c).1.discardedBytes = h.discardedBytes := by
  rcases sendMessage_file h localPeerId c with ⟨hspend, hblocks, hdiscarded⟩ | ⟨-, hsame⟩
  · rw [hblocks, hdiscarded]
    by_cases hlen : (Encode.encode (Handle.messageOf c.proof)).length ≤
        maxMessageSize + sizeOfMessage
    · have hroom : h.blocks.length - h.root.checkpoint ≤ blockHistory * blockSize := by
        by_contra hgt
        exact hc ⟨⟨hspend, hlen⟩, Nat.lt_of_not_le hgt⟩
      rw [store_of_room hlen hroom (cap_of_not_takesDiscard hdiscard hspend)]
      exact ⟨⟨_, rfl⟩, rfl⟩
    · rw [storeMessage_of_long _ (Nat.lt_of_not_le hlen)]
      exact ⟨⟨[], (List.append_nil _).symm⟩, rfl⟩
  · rw [hsame]
    exact ⟨⟨[], (List.append_nil _).symm⟩, rfl⟩

/-- A message that does not compact keeps all positions. -/
theorem keepsPositions_of_not {h : Handle} (localPeerId : NodeIdentity) {c : SendCall cr}
    (hdiscard : ¬ TakesDiscard h c) (hc : ¬ Compacts h c) : KeepsPositions localPeerId h c := by
  intro offset _ offset' hmoved
  rw [movedTo, if_neg hc, Option.mem_some_iff] at hmoved
  rw [(step_of_not_compacts localPeerId hdiscard hc).2, hmoved]

/-! ## What a cursor needs -/

/-- At a position behind the discarded bytes, nothing is subtracted below zero. -/
theorem fetchPage_returns {h : Handle} {size pos : Nat} (hpos : h.discardedBytes ≤ pos) :
    (∃ page, h.fetchPage size pos = .ok page) ∨
      ∃ e, h.fetchPage size pos = .error (.stops (.chat e)) := by
  unfold Handle.fetchPage
  rw [checkedSub_of_le hpos]
  simp only
  cases hread : ByteFile.readExactAt h.blocks (pos - h.discardedBytes -
      (pos - h.discardedBytes - size)) (pos - h.discardedBytes - size) with
  | none => exact .inr ⟨_, rfl⟩
  | some bytes =>
      have hlen : bytes.length ≤ pos := by
        unfold ByteFile.readExactAt at hread
        split at hread
        · obtain rfl := Option.some.inj hread
          have htake := List.length_take_le (pos - h.discardedBytes -
            (pos - h.discardedBytes - size)) (h.blocks.drop (pos - h.discardedBytes - size))
          omega
        · cases hread
      have hframes : (logCode.frames (unpackMessages bytes)).length ≤ bytes.length := by
        rw [unpackMessages_eq]
        exact logCode.length_frames_unframe_le bytes
      simp only [sum_lengths, checkedSub_of_le (Nat.le_trans hframes hlen)]
      exact .inl ⟨_, rfl⟩

/-- As long as nothing is discarded, every cursor is good. -/
theorem fetchReturns_of_zero {h : Handle} (hzero : h.discardedBytes = 0) : FetchReturns h := by
  intro cursor
  have hresolve : ∃ pos, h.resolve cursor = .ok pos := by
    unfold Handle.resolve
    by_cases hmax : cursor = Cursor.max
    · have hlen : metadataLen h.blocks < 2 ^ 64 := Nat.mod_lt _ (by decide)
      rw [if_pos hmax, hzero, checkedAdd, Nat.add_zero, if_pos hlen]
      exact ⟨_, rfl⟩
    · rw [if_neg hmax]
      exact ⟨_, rfl⟩
  obtain ⟨pos, hpos⟩ := hresolve
  rw [fetchMessages_of_resolve hpos]
  exact fetchPage_returns (by rw [hzero]; exact Nat.zero_le _)

/-- Once something is, the cursor 0 is not. -/
theorem not_fetchReturns_of_pos {h : Handle} (hpos : 0 < h.discardedBytes) :
    ¬ FetchReturns h := by
  intro hall
  have hresolve : h.resolve 0 = .ok 0 := by
    rw [Handle.resolve, if_neg (by decide)]
    rfl
  have hfetch : h.fetchMessages 0 = .error (.stops .underflow) := by
    rw [fetchMessages_of_resolve hresolve]
    exact fetchPage_of_lt _ hpos
  rcases hall 0 with ⟨page, hpage⟩ | ⟨e, he⟩
  · cases hfetch.symm.trans hpage
  · cases hfetch.symm.trans he

/-! ## Runs -/

/-- **Cursors survive a run of messages exactly if none of them compacts the file.** -/
theorem cursors_survive_iff (localPeerId : NodeIdentity) (members : Members) (root : Root)
    (blocks : Bytes) {calls : List (SendCall cr)}
    (hdiscard : (sendMachine cr localPeerId).EachStep (fun h c => ¬ TakesDiscard h c)
      (.load members root blocks) calls) :
    (sendMachine cr localPeerId).EachStep
        (fun h c => KeepsPositions localPeerId h c ∧
          FetchReturns ((sendMachine cr localPeerId).step h c).1)
        (.load members root blocks) calls ↔
      (sendMachine cr localPeerId).EachStep (fun h c => ¬ Compacts h c)
        (.load members root blocks) calls := by
  have hzero : (Handle.load members root blocks).discardedBytes = 0 := rfl
  generalize Handle.load members root blocks = h at hdiscard hzero ⊢
  induction calls generalizing h with
  | nil => exact Iff.rfl
  | cons c calls ih =>
      by_cases hc : Compacts h c
      · have hpos : 0 < ((sendMachine cr localPeerId).step h c).1.discardedBytes := by
          have hhistory := hc.2
          rw [(step_of_compacts localPeerId hdiscard.1 hc).2]
          omega
        constructor
        · rintro ⟨⟨-, hreturns⟩, -⟩
          exact absurd hreturns (not_fetchReturns_of_pos hpos)
        · rintro ⟨hnot, -⟩
          exact absurd hc hnot
      · have hstill := (step_of_not_compacts localPeerId hdiscard.1 hc).2.trans hzero
        have hrest := ih _ hdiscard.2 hstill
        have hhere := keepsPositions_of_not localPeerId hdiscard.1 hc
        constructor
        · rintro ⟨-, hall⟩
          exact ⟨hc, hrest.mp hall⟩
        · rintro ⟨-, hall⟩
          exact ⟨⟨hhere, fetchReturns_of_zero hstill⟩, hrest.mpr hall⟩

/-- Compaction leaves the length of the buffer alone. -/
theorem compact_bufferLen (log : Log) (fileLen : Nat) :
    (log.compact fileLen).1.root.bufferLen = log.root.bufferLen := by
  simp only [Log.compact]
  cases checkedSub fileLen log.root.checkpoint with
  | error e => rfl
  | ok toCopy =>
      by_cases hbig : toCopy > blockHistory * blockSize
      · simp only [if_pos hbig]
        cases ByteFile.copyDown Log.copyBufferLen log.root.checkpoint toCopy log.blocks toCopy
          0 with
        | none => rfl
        | some copy =>
            simp only
            cases checkedSub toCopy log.root.bufferLen with
            | error e => rfl
            | ok checkpoint => rfl
      · simp only [if_neg hbig]

/-- A buffer below its cap discards nothing. -/
theorem not_takesDiscard {h : Handle} {c : SendCall cr}
    (hcap : h.root.bufferLen + (frameOf (Handle.messageOf c.proof)).length ≤
      unfinalizedBufferCap) : ¬ TakesDiscard h c := by
  rintro ⟨-, appended, compacted, happ, hcompact, hgt⟩
  obtain ⟨-, rfl⟩ := Log.append_eq_ok.mp happ
  have hlen := compact_bufferLen (Log.extend ⟨h.root, h.blocks, h.discardedBytes⟩
    (logCode.frame (Encode.encode (Handle.messageOf c.proof)))) h.blocks.length
  rw [hcompact] at hlen
  rw [hlen] at hgt
  exact absurd hcap (Nat.not_le.mpr hgt)

/-- The short note, sent. -/
def shortSend : SendCall .transparent := ⟨20, replicas, shortNote⟩

/-- It is short. -/
theorem shortSend_fits :
    (Encode.encode (Handle.messageOf shortSend.proof)).length ≤ maxMessageSize + sizeOfMessage ∧
      0 + (frameOf (Handle.messageOf shortSend.proof)).length ≤ unfinalizedBufferCap := by
  refine ⟨by decide +kernel, ?_⟩
  rw [frameOf, LenCode.length_frame]
  decide +kernel

/-- The note, and another one after it, on the file of a chat with history. -/
theorem busyChat_not_takesDiscard : (sendMachine .transparent 0).EachStep
    (fun h c => ¬ TakesDiscard h c) busyChat
    [shortSend, ⟨30, replicas, Proof.transparent 2 2 ⟨[104, 111]⟩⟩] := by
  refine ⟨not_takesDiscard ?_, not_takesDiscard ?_, trivial⟩
  · decide +kernel
  · decide +kernel

/-- Neither note compacts the file: the positions are kept and every cursor returns. -/
theorem cursors_survive_busy :
    (sendMachine .transparent 0).EachStep
      (fun h c => KeepsPositions 0 h c ∧
        FetchReturns ((sendMachine .transparent 0).step h c).1)
      busyChat [shortSend, ⟨30, replicas, Proof.transparent 2 2 ⟨[104, 111]⟩⟩] :=
  (cursors_survive_iff 0 lobbyMembers busyChat.root busyChat.blocks
    busyChat_not_takesDiscard).mpr ⟨by decide +kernel, by decide +kernel, trivial⟩

/-- A message that compacts a long history: the bytes that are kept have another position, and the
cursor 0 does not return. -/
theorem compaction_breaks_cursors :
    ¬ TakesDiscard longHistory shortSend ∧ ¬ KeepsPositions 0 longHistory shortSend ∧
      ¬ FetchReturns ((sendMachine .transparent 0).step longHistory shortSend).1 := by
  have hbuffer : longHistory.root.bufferLen = 0 := rfl
  have hdiscard : ¬ TakesDiscard longHistory shortSend := by
    apply not_takesDiscard
    rw [hbuffer]
    exact shortSend_fits.2
  have hspend : (longHistory.spendAction 20 shortNote).isOk = true := by
    show ((Handle.fresh lobbyMembers).spendAction 20 shortNote).isOk = true
    decide +kernel
  have hcheckpoint : longHistory.root.checkpoint = 0 := rfl
  have hzero : longHistory.discardedBytes = 0 := rfl
  have hcompacts : Compacts longHistory shortSend := by
    refine ⟨⟨hspend, shortSend_fits.1⟩, ?_⟩
    rw [length_longHistory, hcheckpoint]
    decide
  have hdiscarded := (step_of_compacts 0 hdiscard hcompacts).2
  rw [length_longHistory, hcheckpoint, hzero] at hdiscarded
  refine ⟨hdiscard, ?_, ?_⟩
  · intro hkeeps
    have hmoved : movedTo longHistory shortSend 0 = some 0 := by
      rw [movedTo, if_pos hcompacts, hcheckpoint]
      rfl
    have hfirst := hkeeps 0 (by rw [length_longHistory]; decide) 0 hmoved
    rw [hdiscarded, hzero] at hfirst
    exact absurd hfirst (by decide)
  · apply not_fetchReturns_of_pos
    rw [hdiscarded]
    decide

end OnionNetwork.Server
