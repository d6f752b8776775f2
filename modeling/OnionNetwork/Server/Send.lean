import OnionNetwork.Server.Members
import OnionNetwork.Server.Voting

/-!
# Sending a message

`send_message`: the member transaction, then the log, then possibly a proposal
of a block. The transaction is committed before the log is touched, so a later
failure leaves the nonce spent. `sendMessage_cases` says what a call can do.
-/

namespace OnionNetwork.Server

open Chat Lib

variable {cr : Crypto}

namespace Handle

/-- The transaction of `send_message`: the member table with the action spent. -/
def spendAction (h : Handle) (currentMs : Nat) (proof : Proof cr ReminderOwned) :
    Except ChatError Members := do
  ensure (proof.verify = true) .invalidProof
  let sender := proof.identity
  let byMember ← recordOf h.members sender
  let action ← advanceNonce byMember.action proof.nonce
  let byMember ← { byMember with action }.allocateAction currentMs .send
  .ok (h.members.put sender byMember)

/-- The message `send_message` stores. -/
def messageOf (proof : Proof cr ReminderOwned) : Message :=
  { sender := proof.identity, nonce := proof.nonce, content := proof.context.bytes }

/-- The log part of `send_message`: append, compact, discard. -/
def storeMessage (log : Log) (message : Message) : Log × Except Fault Unit :=
  let fileLen := log.blocks.length
  match log.append message with
  | .error e => (log, .error e)
  | .ok log =>
      match log.compact fileLen with
      | (log, .error e) => (log, .error e)
      | (log, .ok ()) => log.discardOldest

/-- `should_finalize`. -/
def shouldFinalize (bufferLen prevBufferLen : Nat) : Bool :=
  decide (bufferLen > blockSize ∧ bufferLen % blockSize > blockSize / 2 ∧
    prevBufferLen % blockSize < blockSize / 2)

/-- The end of `send_message`: if the buffer crossed the middle of a block and
this replica is the finalizer, vote for the buffered blocks and propose them. -/
def proposeBlock (cr : Crypto) (h : Handle) (localPeerId : NodeIdentity) (group : FullReplGroup)
    (prevBufferLen : Nat) : Reply (Option (BlockNumber × Bytes)) :=
  if shouldFinalize h.root.bufferLen prevBufferLen then
    let selected := selectFinalizer h.root.latestBlock group h.root.bufferLen
    if selected ≠ localPeerId then { handle := h, result := .ok none }
    else
      match readBuffer h.root h.blocks with
      | .error e => { handle := h, result := .error (.chat e) }
      | .ok (_, buffer) =>
          let block := cutBlock buffer
          let latestHash := cr.blake3 block
          let h := h.insertVoting latestHash
            { number := h.root.number, yes := 1, no := 0, proposal := .localBlock block.length }
          { handle := h, result := .ok (some (h.root.number, block)) }
  else { handle := h, result := .ok none }

/-- `Handle::send_message`. The root in hand is stored only when the log part
succeeds. -/
def sendMessage (h : Handle) (currentMs : Nat) (localPeerId : NodeIdentity)
    (group : FullReplGroup) (proof : Proof cr ReminderOwned) :
    Reply (Option (BlockNumber × Bytes)) :=
  match h.spendAction currentMs proof with
  | .error e => { handle := h, result := .error (.chat e) }
  | .ok members =>
      let h := { h with members }
      let prevBufferLen := h.root.bufferLen
      match storeMessage ⟨h.root, h.blocks, h.discardedBytes⟩ (messageOf proof) with
      | (log, .error e) =>
          { handle := { h with blocks := log.blocks, discardedBytes := log.discardedBytes }
            result := .error e }
      | (log, .ok ()) =>
          let h := { h with
            root := log.root, blocks := log.blocks, discardedBytes := log.discardedBytes }
          h.proposeBlock cr localPeerId group prevBufferLen

end Handle

/-- What a spent action says about the sender and does to the members. -/
theorem spendAction_eq_ok {h : Handle} {currentMs : Nat} {proof : Proof cr ReminderOwned}
    {members : Members} :
    h.spendAction currentMs proof = .ok members ↔
      proof.verify = true ∧ ∃ m, h.members.get proof.identity = some m ∧
        m.action < proof.nonce ∧ m.frozenUntil < currentMs ∧
        m.permissions.contains .send = true ∧
        members = h.members.put proof.identity
          { m with action := proof.nonce, frozenUntil := currentMs + m.actionCooldownMs } := by
  simp only [Handle.spendAction, bind_eq_ok, ensure_eq_ok, exists_const, recordOf_eq_ok,
    advanceNonce_eq_ok, Member.allocateAction_eq_ok, Except.ok.injEq]
  refine and_congr_right fun _ => ⟨?_, ?_⟩
  · rintro ⟨m, hget, action, ⟨hnonce, rfl⟩, m', ⟨hfrozen, hperm, rfl⟩, rfl⟩
    exact ⟨m, hget, hnonce, hfrozen, hperm, rfl⟩
  · rintro ⟨m, hget, hnonce, hfrozen, hperm, rfl⟩
    exact ⟨m, hget, _, ⟨hnonce, rfl⟩, _, ⟨hfrozen, hperm, rfl⟩, rfl⟩

/-- Proposing touches the votes alone. -/
theorem proposeBlock_cases (cr : Crypto) (h : Handle) (localPeerId : NodeIdentity)
    (group : FullReplGroup) (prevBufferLen : Nat) :
    let r := h.proposeBlock cr localPeerId group prevBufferLen
    (r.handle = h ∧ r.accepted = none ∧ r.result ≠ .error .underflow ∧
        ∀ req, r.result ≠ .ok (some req)) ∨
      ∃ buffer, Handle.shouldFinalize h.root.bufferLen prevBufferLen = true ∧
        selectFinalizer h.root.latestBlock group h.root.bufferLen = localPeerId ∧
        h.root.bufferLen ≤ h.blocks.length ∧
        buffer = h.blocks.drop (h.blocks.length - h.root.bufferLen) ∧
        r = { handle := h.insertVoting (cr.blake3 (cutBlock buffer))
                { number := h.root.number, yes := 1, no := 0
                  proposal := .localBlock (cutBlock buffer).length }
              result := .ok (some (h.root.number, cutBlock buffer)) } := by
  intro r
  by_cases hfin : Handle.shouldFinalize h.root.bufferLen prevBufferLen = true
  · by_cases hsel : selectFinalizer h.root.latestBlock group h.root.bufferLen = localPeerId
    · by_cases hle : h.root.bufferLen ≤ h.blocks.length
      · refine .inr ⟨_, hfin, hsel, hle, rfl, ?_⟩
        simp only [r, Handle.proposeBlock, if_pos hfin, hsel, ne_eq, not_true_eq_false, if_false,
          readBuffer_of_le hle, Handle.insertVoting_root]
      · left
        simp [r, Handle.proposeBlock, hfin, hsel, readBuffer_of_lt (Nat.lt_of_not_le hle)]
    · left
      simp [r, Handle.proposeBlock, hfin, hsel]
  · left
    simp [r, Handle.proposeBlock, hfin]

/-- Everything a `sendMessage` can do: fail in the transaction, fail in the log
with the action spent, or store the message and perhaps propose. -/
theorem sendMessage_cases (h : Handle) (currentMs : Nat) (localPeerId : NodeIdentity)
    (group : FullReplGroup) (proof : Proof cr ReminderOwned) :
    (∃ e, h.spendAction currentMs proof = .error e ∧
        h.sendMessage currentMs localPeerId group proof =
          { handle := h, result := .error (.chat e) }) ∨
      ∃ members, h.spendAction currentMs proof = .ok members ∧
        ((∃ log e, Handle.storeMessage ⟨h.root, h.blocks, h.discardedBytes⟩
              (Handle.messageOf proof) = (log, .error e) ∧
            h.sendMessage currentMs localPeerId group proof =
              { handle := { h with
                  members, blocks := log.blocks, discardedBytes := log.discardedBytes }
                result := .error e }) ∨
          ∃ log, Handle.storeMessage ⟨h.root, h.blocks, h.discardedBytes⟩
              (Handle.messageOf proof) = (log, .ok ()) ∧
            h.sendMessage currentMs localPeerId group proof =
              Handle.proposeBlock cr
                { h with
                  members, root := log.root, blocks := log.blocks
                  discardedBytes := log.discardedBytes }
                localPeerId group h.root.bufferLen) := by
  cases hspend : h.spendAction currentMs proof with
  | error e => exact .inl ⟨e, rfl, by simp only [Handle.sendMessage, hspend]⟩
  | ok members =>
      refine .inr ⟨members, rfl, ?_⟩
      cases hstore : Handle.storeMessage ⟨h.root, h.blocks, h.discardedBytes⟩
          (Handle.messageOf proof) with
      | mk log res =>
          cases res with
          | error e => exact .inl ⟨log, e, rfl, by simp only [Handle.sendMessage, hspend, hstore]⟩
          | ok u => exact .inr ⟨log, rfl, by simp only [Handle.sendMessage, hspend, hstore]⟩

/-- Storing a message keeps the block number and the latest block. -/
theorem storeMessage_root (log : Log) (message : Message) :
    (Handle.storeMessage log message).1.root.number = log.root.number ∧
      (Handle.storeMessage log message).1.root.latestBlock = log.root.latestBlock := by
  unfold Handle.storeMessage
  cases happ : log.append message with
  | error e => exact ⟨rfl, rfl⟩
  | ok appended =>
      obtain ⟨-, rfl⟩ := Log.append_eq_ok.mp happ
      have hcompact := Log.compact_root (log.extend (logCode.frame (Encode.encode message)))
        log.blocks.length
      cases hres : (log.extend (logCode.frame (Encode.encode message))).compact
          log.blocks.length with
      | mk compacted res =>
          rw [hres] at hcompact
          cases res with
          | error e =>
              simp only [hres]
              exact hcompact
          | ok u =>
              have hdiscard := Log.discardOldest_root compacted
              simp only [hres]
              exact ⟨hdiscard.1.trans hcompact.1, hdiscard.2.trans hcompact.2⟩

/-- A stored message fits its frame, and the checkpoint was inside the file. -/
theorem storeMessage_eq_ok {log log' : Log} {message : Message}
    (h : Handle.storeMessage log message = (log', .ok ())) :
    (Encode.encode message).length ≤ maxMessageSize + sizeOfMessage ∧
      log.root.checkpoint ≤ log.blocks.length := by
  unfold Handle.storeMessage at h
  cases happ : log.append message with
  | error e => simp [happ] at h
  | ok appended =>
      obtain ⟨hlen, rfl⟩ := Log.append_eq_ok.mp happ
      refine ⟨hlen, ?_⟩
      by_contra hcp
      have hcompact := Log.compact_of_lt (log.extend (logCode.frame (Encode.encode message)))
        (Nat.lt_of_not_le hcp)
      simp only [happ, hcompact] at h
      cases congrArg Prod.snd h

/-- An accepted message was stored, and the call leaves the log as stored. -/
theorem sendMessage_ok {h : Handle} {currentMs : Nat} {localPeerId : NodeIdentity}
    {group : FullReplGroup} {proof : Proof cr ReminderOwned}
    {req : Option (BlockNumber × Bytes)}
    (hok : (h.sendMessage currentMs localPeerId group proof).result = .ok req) :
    ∃ log, Handle.storeMessage ⟨h.root, h.blocks, h.discardedBytes⟩ (Handle.messageOf proof) =
        (log, .ok ()) ∧
      (h.sendMessage currentMs localPeerId group proof).handle.root = log.root ∧
      (h.sendMessage currentMs localPeerId group proof).handle.blocks = log.blocks := by
  rcases sendMessage_cases h currentMs localPeerId group proof with
    ⟨e, -, hreply⟩ | ⟨members, -, ⟨log, e, -, hreply⟩ | ⟨log, hstore, hreply⟩⟩
  · rw [hreply] at hok
    cases hok
  · rw [hreply] at hok
    cases hok
  · refine ⟨log, hstore, ?_⟩
    rw [hreply]
    rcases proposeBlock_cases cr { h with
        members, root := log.root, blocks := log.blocks, discardedBytes := log.discardedBytes }
      localPeerId group h.root.bufferLen with ⟨hsame, -, -⟩ | ⟨buffer, -, -, -, -, hprop⟩
    · rw [hsame]
      exact ⟨rfl, rfl⟩
    · rw [hprop]
      exact ⟨rfl, rfl⟩

/-- A message that does not fit is refused before the file is touched. -/
theorem storeMessage_of_long (log : Log) {message : Message}
    (hlen : maxMessageSize + sizeOfMessage < (Encode.encode message).length) :
    Handle.storeMessage log message = (log, .error (.chat .ise)) := by
  have happ : log.append message = .error (.chat .ise) := by
    simp only [Log.append, encodeToSlice, if_neg (Nat.not_le.mpr hlen)]
  simp only [Handle.storeMessage, happ]

/-- A message that fits is refused for nothing but an error of the file. -/
theorem storeMessage_error {log log' : Log} {message : Message} {e : ChatError}
    (hlen : (Encode.encode message).length ≤ maxMessageSize + sizeOfMessage)
    (h : Handle.storeMessage log message = (log', .error (.chat e))) : IsIo e := by
  have happ : log.append message = .ok (log.extend (logCode.frame (Encode.encode message))) :=
    Log.append_eq_ok.mpr ⟨hlen, rfl⟩
  unfold Handle.storeMessage at h
  simp only [happ] at h
  cases hcompact : (log.extend (logCode.frame (Encode.encode message))).compact
      log.blocks.length with
  | mk compacted res =>
      rw [hcompact] at h
      cases res with
      | error fault =>
          obtain ⟨-, hfault⟩ := Prod.mk.inj h
          obtain rfl := Except.error.inj hfault
          exact Log.compact_error hcompact
      | ok u => exact Log.discardOldest_error h

/-- With little history, storing a message appends its frame and perhaps
discards. -/
theorem storeMessage_of_history (log : Log) {message : Message}
    (hlen : (Encode.encode message).length ≤ maxMessageSize + sizeOfMessage)
    (hcp : log.root.checkpoint ≤ log.blocks.length)
    (hhistory : log.blocks.length - log.root.checkpoint ≤ blockHistory * blockSize) :
    Handle.storeMessage log message =
      (log.extend (logCode.frame (Encode.encode message))).discardOldest := by
  have happ : log.append message = .ok (log.extend (logCode.frame (Encode.encode message))) :=
    Log.append_eq_ok.mpr ⟨hlen, rfl⟩
  have hcompact := Log.compact_of_le (log.extend (logCode.frame (Encode.encode message)))
    hcp hhistory
  simp only [Handle.storeMessage, happ, hcompact]

/-- Splitting a log with a newest message keeps it newest. -/
theorem newest_of_split {msgs dropped kept : List Bytes} {p : Bytes}
    (hsplit : msgs ++ [p] = dropped ++ kept) (hne : kept ≠ []) :
    ∃ rest, kept = rest ++ [p] ∧ msgs = dropped ++ rest := by
  obtain ⟨rest, q, rfl⟩ : ∃ rest q, kept = rest ++ [q] :=
    ⟨kept.dropLast, kept.getLast hne, (List.dropLast_append_getLast hne).symm⟩
  rw [← List.append_assoc] at hsplit
  obtain ⟨hmsgs, hlast⟩ := List.append_inj' hsplit rfl
  obtain rfl := List.singleton_inj.mp hlast
  exact ⟨rest, rfl, hmsgs⟩

/-- With little history, a log of frames gets one more, and perhaps loses its oldest, by at
most a block. -/
theorem storeMessage_frames (log : Log) {message : Message} {front : Bytes} {pending : List Bytes}
    (hlen : (Encode.encode message).length ≤ maxMessageSize + sizeOfMessage)
    (hcp : log.root.checkpoint ≤ log.blocks.length)
    (hhistory : log.blocks.length - log.root.checkpoint ≤ blockHistory * blockSize)
    (hpending : logCode.Bounded pending) (hblocks : log.blocks = front ++ logCode.frames pending)
    (hbuffer : log.root.bufferLen = (logCode.frames pending).length) :
    ∃ dropped rest, pending = dropped ++ rest ∧ (logCode.frames dropped).length ≤ blockSize ∧
      (log.root.bufferLen + (logCode.frame (Encode.encode message)).length ≤
        unfinalizedBufferCap → dropped = []) ∧
      Handle.storeMessage log message =
        ({ log with
            blocks := front ++ logCode.frames (rest ++ [Encode.encode message])
            root := { log.root with
              bufferLen := (logCode.frames (rest ++ [Encode.encode message])).length } },
          .ok ()) := by
  set p := Encode.encode message with hp
  have hbounded : logCode.Bounded (pending ++ [p]) := by
    refine hpending.append fun q hq => ?_
    obtain rfl := List.mem_singleton.mp hq
    exact Nat.lt_of_le_of_lt hlen (by decide)
  have hnew : (log.extend (logCode.frame p)).blocks = front ++ logCode.frames (pending ++ [p]) := by
    show log.blocks ++ logCode.frame p = _
    rw [LenCode.frames_append, LenCode.frames_singleton, ← List.append_assoc, ← hblocks]
  have hnewLen : (log.extend (logCode.frame p)).root.bufferLen =
      (logCode.frames (pending ++ [p])).length := by
    show log.root.bufferLen + (logCode.frame p).length = _
    rw [LenCode.frames_append, LenCode.frames_singleton, List.length_append, hbuffer]
  obtain ⟨dropped, kept, hsplit, hne, hblock, hcap, hdiscard⟩ :=
    Log.discardOldest_frames hbounded hnew hnewLen
  obtain ⟨rest, rfl, hrest⟩ := newest_of_split hsplit (hne (by simp))
  refine ⟨dropped, rest, hrest, hblock, hcap, ?_⟩
  rw [storeMessage_of_history log hlen hcp hhistory, hdiscard]
  rfl

/-- With more history than that, the file is cut down to what it held behind
the checkpoint before the append. -/
theorem storeMessage_of_compaction (log : Log) {message : Message}
    (hlen : (Encode.encode message).length ≤ maxMessageSize + sizeOfMessage)
    (hhistory : log.blocks.length - log.root.checkpoint > blockHistory * blockSize) :
    let toCopy := log.blocks.length - log.root.checkpoint
    let root := (log.extend (logCode.frame (Encode.encode message))).root
    let cut : Log :=
      { root
        blocks := log.blocks.drop log.root.checkpoint
        discardedBytes := log.discardedBytes + toCopy }
    Handle.storeMessage log message =
      if root.bufferLen ≤ toCopy then
        Log.discardOldest { cut with root := { root with checkpoint := toCopy - root.bufferLen } }
      else (cut, .error .underflow) := by
  intro toCopy root cut
  have happ : log.append message = .ok (log.extend (logCode.frame (Encode.encode message))) :=
    Log.append_eq_ok.mpr ⟨hlen, rfl⟩
  have hfile : log.blocks.length ≤
      (log.extend (logCode.frame (Encode.encode message))).blocks.length := by
    show log.blocks.length ≤ (log.blocks ++ _).length
    rw [List.length_append]
    exact Nat.le_add_right _ _
  -- the cut ends where the file ended before the append, so the new frame is not in it
  have hcut : (log.extend (logCode.frame (Encode.encode message))).cutTo log.blocks.length =
      cut := by
    have hpos : log.root.checkpoint ≤ log.blocks.length := by omega
    have hdrop : (log.blocks.drop log.root.checkpoint).length = toCopy := List.length_drop
    have hblocks : ((log.blocks ++ logCode.frame (Encode.encode message)).drop
        log.root.checkpoint).take toCopy = log.blocks.drop log.root.checkpoint := by
      rw [List.drop_append_of_le_length hpos, ← hdrop, List.take_left]
    show Log.mk root _ _ = Log.mk root _ _
    rw [← hblocks]
    rfl
  have hcompact := Log.compact_of_gt hfile hhistory
  rw [hcut] at hcompact
  simp only [Handle.storeMessage, happ, hcompact]
  by_cases hle : root.bufferLen ≤ toCopy
  · have hle' : (log.extend (logCode.frame (Encode.encode message))).root.bufferLen ≤
        log.blocks.length - (log.extend (logCode.frame (Encode.encode message))).root.checkpoint :=
      hle
    rw [if_pos hle, if_pos hle']
    rfl
  · have hle' : ¬ (log.extend (logCode.frame (Encode.encode message))).root.bufferLen ≤
        log.blocks.length - (log.extend (logCode.frame (Encode.encode message))).root.checkpoint :=
      hle
    rw [if_neg hle, if_neg hle']

/-- Away from both limits, storing a message appends its frame and nothing else. -/
theorem storeMessage_of_small (log : Log) {message : Message}
    (hlen : (Encode.encode message).length ≤ maxMessageSize + sizeOfMessage)
    (hcp : log.root.checkpoint ≤ log.blocks.length)
    (hhistory : log.blocks.length - log.root.checkpoint ≤ blockHistory * blockSize)
    (hcap : log.root.bufferLen + (logCode.frame (Encode.encode message)).length ≤
      unfinalizedBufferCap) :
    Handle.storeMessage log message =
      (log.extend (logCode.frame (Encode.encode message)), .ok ()) := by
  rw [storeMessage_of_history log hlen hcp hhistory]
  exact Log.discardOldest_of_le hcap

/-- The replica proposes when its buffer has crossed the middle of a block and
it is the finalizer. -/
def MustPropose (localPeerId : NodeIdentity) (group : FullReplGroup) (prevBufferLen : Nat)
    (root : Root) : Prop :=
  Handle.shouldFinalize root.bufferLen prevBufferLen = true ∧
    selectFinalizer root.latestBlock group root.bufferLen = localPeerId

instance (localPeerId : NodeIdentity) (group : FullReplGroup) (prevBufferLen : Nat)
    (root : Root) : Decidable (MustPropose localPeerId group prevBufferLen root) :=
  inferInstanceAs (Decidable (_ ∧ _))

/-- Otherwise it does nothing. -/
theorem proposeBlock_of_not (cr : Crypto) {h : Handle} {localPeerId : NodeIdentity}
    {group : FullReplGroup} {prevBufferLen : Nat}
    (hnot : ¬ MustPropose localPeerId group prevBufferLen h.root) :
    h.proposeBlock cr localPeerId group prevBufferLen = { handle := h, result := .ok none } := by
  by_cases hfin : Handle.shouldFinalize h.root.bufferLen prevBufferLen = true
  · have hsel : selectFinalizer h.root.latestBlock group h.root.bufferLen ≠ localPeerId :=
      fun hsel => hnot ⟨hfin, hsel⟩
    simp only [Handle.proposeBlock, if_pos hfin, if_pos hsel]
  · simp only [Handle.proposeBlock, if_neg hfin]

/-- The proposed block is cut from the front of the buffer. -/
theorem proposeBlock_of_must (cr : Crypto) {h : Handle} {localPeerId : NodeIdentity}
    {group : FullReplGroup} {prevBufferLen : Nat} {front buffer : Bytes}
    (hmust : MustPropose localPeerId group prevBufferLen h.root)
    (hblocks : h.blocks = front ++ buffer) (hlen : h.root.bufferLen = buffer.length) :
    h.proposeBlock cr localPeerId group prevBufferLen =
      { handle := h.insertVoting (cr.blake3 (cutBlock buffer))
          { number := h.root.number, yes := 1, no := 0
            proposal := .localBlock (cutBlock buffer).length }
        result := .ok (some (h.root.number, cutBlock buffer)) } := by
  obtain ⟨hfin, hsel⟩ := hmust
  have hread : readBuffer h.root h.blocks = .ok (front.length, buffer) := by
    rw [hblocks]
    exact readBuffer_append front hlen
  simp only [Handle.proposeBlock, if_pos hfin, hsel, ne_eq, not_true_eq_false, if_false, hread,
    Handle.insertVoting_root]

/-- Proposing fails for nothing but an error of the file. -/
theorem proposeBlock_error {h : Handle} {localPeerId : NodeIdentity} {group : FullReplGroup}
    {prevBufferLen : Nat} {e : ChatError}
    (herror : (h.proposeBlock cr localPeerId group prevBufferLen).result = .error (.chat e)) :
    IsIo e := by
  by_cases hmust : MustPropose localPeerId group prevBufferLen h.root
  · obtain ⟨hfin, hsel⟩ := hmust
    simp only [Handle.proposeBlock, if_pos hfin, hsel, ne_eq, not_true_eq_false, if_false]
      at herror
    cases hread : readBuffer h.root h.blocks with
    | error e' =>
        rw [hread] at herror
        cases herror
        exact readBuffer_error hread
    | ok buffer =>
        rw [hread] at herror
        cases herror
  · rw [proposeBlock_of_not cr hmust] at herror
    cases herror

/-- A replica that can read its buffer answers, with a proposal or without. -/
theorem proposeBlock_ok (cr : Crypto) {h : Handle} (localPeerId : NodeIdentity)
    (group : FullReplGroup) (prevBufferLen : Nat) (hle : h.root.bufferLen ≤ h.blocks.length) :
    ∃ req, (h.proposeBlock cr localPeerId group prevBufferLen).result = .ok req := by
  by_cases hmust : MustPropose localPeerId group prevBufferLen h.root
  · have hsplit := (List.take_append_drop (h.blocks.length - h.root.bufferLen) h.blocks).symm
    have hlen : h.root.bufferLen =
        (h.blocks.drop (h.blocks.length - h.root.bufferLen)).length := by
      rw [List.length_drop]
      omega
    rw [proposeBlock_of_must cr hmust hsplit hlen]
    exact ⟨_, rfl⟩
  · rw [proposeBlock_of_not cr hmust]
    exact ⟨_, rfl⟩

/-- A buffer of at most one block is not worth a proposal. -/
theorem not_mustPropose_of_small {localPeerId : NodeIdentity} {group : FullReplGroup}
    {prevBufferLen : Nat} {root : Root} (hsmall : root.bufferLen ≤ blockSize) :
    ¬ MustPropose localPeerId group prevBufferLen root := by
  rintro ⟨hfin, -⟩
  simp [Handle.shouldFinalize, Nat.not_lt.mpr hsmall] at hfin

/-- The handle with one more message. -/
def Handle.withMessage (h : Handle) (members : Members) (frame : Bytes) : Handle :=
  { h with
    members
    root := { h.root with bufferLen := h.root.bufferLen + frame.length }
    blocks := h.blocks ++ frame }

/-- A message within both limits is stored, and then the replica may propose. -/
theorem sendMessage_of_fits {h : Handle} {currentMs : Nat} {proof : Proof cr ReminderOwned}
    {members : Members} (localPeerId : NodeIdentity) (group : FullReplGroup)
    (hspend : h.spendAction currentMs proof = .ok members)
    (hlen : (Encode.encode (Handle.messageOf proof)).length ≤ maxMessageSize + sizeOfMessage)
    (hcp : h.root.checkpoint ≤ h.blocks.length)
    (hhistory : h.blocks.length - h.root.checkpoint ≤ blockHistory * blockSize)
    (hcap : h.root.bufferLen +
      (logCode.frame (Encode.encode (Handle.messageOf proof))).length ≤ unfinalizedBufferCap) :
    h.sendMessage currentMs localPeerId group proof =
      (h.withMessage members (logCode.frame (Encode.encode (Handle.messageOf proof)))).proposeBlock
        cr localPeerId group h.root.bufferLen := by
  have hstore := storeMessage_of_small ⟨h.root, h.blocks, h.discardedBytes⟩ hlen hcp hhistory hcap
  simp only [Handle.sendMessage, hspend, hstore]
  rfl

/-- Proposing or not, a message within both limits is stored at the end of the file. -/
theorem sendMessage_of_fits_ok {h : Handle} {currentMs : Nat} {proof : Proof cr ReminderOwned}
    {members : Members} (localPeerId : NodeIdentity) (group : FullReplGroup)
    (hspend : h.spendAction currentMs proof = .ok members)
    (hlen : (Encode.encode (Handle.messageOf proof)).length ≤ maxMessageSize + sizeOfMessage)
    (hcp : h.root.checkpoint ≤ h.blocks.length) (hbuffer : h.root.bufferLen ≤ h.blocks.length)
    (hhistory : h.blocks.length - h.root.checkpoint ≤ blockHistory * blockSize)
    (hcap : h.root.bufferLen +
      (logCode.frame (Encode.encode (Handle.messageOf proof))).length ≤ unfinalizedBufferCap) :
    let frame := logCode.frame (Encode.encode (Handle.messageOf proof))
    let reply := h.sendMessage currentMs localPeerId group proof
    (∃ req, reply.result = .ok req) ∧ reply.handle.members = members ∧
      reply.handle.root = (h.withMessage members frame).root ∧
      reply.handle.blocks = h.blocks ++ frame := by
  intro frame reply
  have hreply : reply = (h.withMessage members frame).proposeBlock cr localPeerId group
      h.root.bufferLen := sendMessage_of_fits localPeerId group hspend hlen hcp hhistory hcap
  have hfile : (h.withMessage members frame).root.bufferLen ≤
      (h.withMessage members frame).blocks.length := by
    show h.root.bufferLen + frame.length ≤ (h.blocks ++ frame).length
    rw [List.length_append]
    exact Nat.add_le_add_right hbuffer _
  rw [hreply]
  refine ⟨proposeBlock_ok cr localPeerId group _ hfile, ?_⟩
  rcases proposeBlock_cases cr (h.withMessage members frame) localPeerId group h.root.bufferLen with
    ⟨hsame, -, -⟩ | ⟨buffer, -, -, -, -, hprop⟩
  · rw [hsame]
    exact ⟨rfl, rfl, rfl⟩
  · rw [hprop]
    exact ⟨rfl, rfl, rfl⟩

/-- A message that leaves the buffer within one block is stored, and that is all. -/
theorem sendMessage_of_small {h : Handle} {currentMs : Nat} {proof : Proof cr ReminderOwned}
    {members : Members} (localPeerId : NodeIdentity) (group : FullReplGroup)
    (hspend : h.spendAction currentMs proof = .ok members)
    (hlen : (Encode.encode (Handle.messageOf proof)).length ≤ maxMessageSize + sizeOfMessage)
    (hcp : h.root.checkpoint ≤ h.blocks.length)
    (hhistory : h.blocks.length - h.root.checkpoint ≤ blockHistory * blockSize)
    (hsmall : h.root.bufferLen +
      (logCode.frame (Encode.encode (Handle.messageOf proof))).length ≤ blockSize) :
    h.sendMessage currentMs localPeerId group proof =
      { handle := h.withMessage members
          (logCode.frame (Encode.encode (Handle.messageOf proof)))
        result := .ok none } := by
  have hcap := Nat.le_trans hsmall (show blockSize ≤ unfinalizedBufferCap by decide)
  rw [sendMessage_of_fits localPeerId group hspend hlen hcp hhistory hcap]
  exact proposeBlock_of_not cr (not_mustPropose_of_small hsmall)

/-- A message that compacts the history is accepted all the same. -/
theorem sendMessage_of_compaction {h : Handle} {currentMs : Nat}
    {proof : Proof cr ReminderOwned} {members : Members} (localPeerId : NodeIdentity)
    (group : FullReplGroup) (hspend : h.spendAction currentMs proof = .ok members)
    (hlen : (Encode.encode (Handle.messageOf proof)).length ≤ maxMessageSize + sizeOfMessage)
    (hhistory : h.blocks.length - h.root.checkpoint > blockHistory * blockSize)
    (hsmall : h.root.bufferLen +
      (logCode.frame (Encode.encode (Handle.messageOf proof))).length ≤ blockSize) :
    (h.sendMessage currentMs localPeerId group proof).result = .ok none := by
  have hhist : blockSize ≤ blockHistory * blockSize := by decide
  have hfits : h.root.bufferLen + (logCode.frame (Encode.encode (Handle.messageOf proof))).length ≤
      h.blocks.length - h.root.checkpoint := by omega
  have hcap := Nat.le_trans hsmall (show blockSize ≤ unfinalizedBufferCap by decide)
  have hcut := storeMessage_of_compaction ⟨h.root, h.blocks, h.discardedBytes⟩ hlen hhistory
  -- the buffer fits in what is left, and below the cap
  have hstore := (hcut.trans (if_pos hfits)).trans (if_neg (Nat.not_lt.mpr hcap))
  simp only [Handle.sendMessage, hspend, hstore]
  rw [proposeBlock_of_not cr (not_mustPropose_of_small hsmall)]

end OnionNetwork.Server
