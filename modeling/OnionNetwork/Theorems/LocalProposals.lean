import OnionNetwork.Server.ChatLog
import OnionNetwork.Server.Calls
import OnionNetwork.Theorems.Agreement

/-!
# Blocks a replica proposed itself

For its own block a replica keeps only the length and, as the key of the vote, the hash. The
block is taken from the front of the buffer when the votes are in, so it is the block that
was proposed as long as nothing has moved the front of the buffer since: no compaction, no
discarded block, no other local block accepted, and no remote block with one of its messages
(`KeepsLocals`). Appending messages is harmless.
-/

namespace OnionNetwork.Server

open Chat Lib

variable {cr : Crypto}

/-- The replica has a vote running on a block of its own. -/
def LocalOpen (h : Handle) (key : Hash) (p : BlockProposal) (size : Nat) : Prop :=
  h.voting key = some p ∧ p.proposal = .localBlock size

/-- The front of the buffer is still the block with that hash. -/
structure Stands (cr : Crypto) (root : Root) (blocks : Bytes) (key : Hash) (size : Nat) :
    Prop where
  fits : size ≤ root.bufferLen
  inFile : root.bufferLen ≤ blocks.length
  hash : cr.blake3 ((bufferOf root blocks).take size) = key

/-- All blocks of its own are still in front of the buffer. -/
def LocalsStand (cr : Crypto) (h : Handle) : Prop :=
  ∀ key p size, LocalOpen h key p size → Stands cr h.root h.blocks key size

/-! ## The condition -/

/-- The message goes behind the buffer, and nothing is compacted or discarded. -/
def WithinLimits (h : Handle) (message : Message) : Prop :=
  h.root.checkpoint ≤ h.blocks.length ∧
    h.blocks.length - h.root.checkpoint ≤ blockHistory * blockSize ∧
    h.root.bufferLen + (logCode.frame (Encode.encode message)).length ≤ unfinalizedBufferCap

/-- The first `size` bytes of the buffer are messages that the remote block does not contain. -/
def Spares (h : Handle) (size : Nat) (data : Bytes) : Prop :=
  ∃ front back, logCode.Bounded (front ++ back) ∧
    bufferOf h.root h.blocks = logCode.frames (front ++ back) ∧
    size = (logCode.frames front).length ∧ ∀ m ∈ front, m ∉ unpackMessages data

/-- Accepting the block for `hash` leaves the other local blocks that stay under vote alone. -/
def Undisturbed (h : Handle) (hash : Hash) (number : BlockNumber) (block : Except Bytes Nat) :
    Prop :=
  ∀ key p size, key ≠ hash → LocalOpen h key p size → number ≤ p.number →
    ∃ data, block = .error data ∧ Spares h size data

/-- The vote is counted and completes the majority for this block. -/
def VoteTakes (h : Handle) (origin : NodeIdentity) (bn : BlockNumber) (hash : Hash)
    (agrees : Bool) (block : Except Bytes Nat) : Prop :=
  let e := h.entryFor hash bn
  e.number = bn ∧ origin ∉ e.votes ∧ (e.votes.push? origin).isSome ∧
    e.proposal.take = some block ∧ replicationFactor / 2 < e.yes + agrees.toNat

/-- The proposal completes the majority for this block. -/
def ProposalTakes (h : Handle) (origin : NodeIdentity) (group : FullReplGroup)
    (number : BlockNumber) (hash : Hash) (data : Bytes) (block : Except Bytes Nat) : Prop :=
  let e := h.proposed origin group number data (h.entryFor hash number)
  h.root.number ≤ number ∧ e.proposal.take = some block ∧ replicationFactor / 2 < e.yes

/-- The call moves no block of this replica that is under vote. -/
def KeepsLocals (h : Handle) : Call cr → Prop
  | .sendMessage currentMs _ proof =>
      (∃ key p size, LocalOpen h key p size) → (h.spendAction currentMs proof).isOk = true →
        (Encode.encode (Handle.messageOf proof)).length ≤ maxMessageSize + sizeOfMessage →
        WithinLimits h (Handle.messageOf proof)
  | .proposal origin group number data =>
      ∀ block, ProposalTakes h origin group number (cr.blake3 data) data block →
        Undisturbed h (cr.blake3 data) number block
  | .vote origin bn hash agrees =>
      ∀ block, VoteTakes h origin bn hash agrees block → Undisturbed h hash bn block
  | _ => True

/-- Without a block of its own under vote, a replica may do anything. -/
theorem keepsLocals_of_none {h : Handle} (hnone : ∀ key p size, ¬ LocalOpen h key p size)
    (c : Call cr) : KeepsLocals h c := by
  cases c with
  | addMember currentMs proof id member => trivial
  | updateMember proof id member => trivial
  | kickMember currentMs proof id => trivial
  | sendMessage currentMs group proof =>
      rintro ⟨key, p, size, hopen⟩
      exact absurd hopen (hnone key p size)
  | proposal origin group number data =>
      intro block _ key p size _ hopen
      exact absurd hopen (hnone key p size)
  | vote origin bn hash agrees =>
      intro block _ key p size _ hopen
      exact absurd hopen (hnone key p size)

/-- If the call accepts a local block, that block is in front of the buffer. -/
def AcceptsAsProposed (cr : Crypto) (localPeerId : NodeIdentity) (h : Handle) (c : Call cr) :
    Prop :=
  ∀ hash number size, (h.answer localPeerId c).2.accepted = some ⟨hash, number, .ok size⟩ →
    size ≤ h.root.bufferLen ∧ cr.blake3 ((bufferOf h.root h.blocks).take size) = hash

/-! ## What the log does to a local block -/

theorem length_bufferOf {root : Root} {blocks : Bytes} (h : root.bufferLen ≤ blocks.length) :
    (bufferOf root blocks).length = root.bufferLen := by
  rw [bufferOf, List.length_drop]
  omega

namespace Stands

variable {root root' : Root} {blocks blocks' : Bytes} {key : Hash} {size : Nat}

/-- Only the length of the buffer matters. -/
theorem congr_root (hs : Stands cr root blocks key size)
    (hlen : root'.bufferLen = root.bufferLen) : Stands cr root' blocks key size := by
  refine ⟨hlen ▸ hs.fits, hlen ▸ hs.inFile, ?_⟩
  rw [bufferOf, hlen]
  exact hs.hash

/-- More messages behind the buffer do not matter. -/
theorem extend (log : Log) (hs : Stands cr log.root log.blocks key size) (frame : Bytes) :
    Stands cr (log.extend frame).root (log.extend frame).blocks key size := by
  have hfits := hs.fits
  have hfile := hs.inFile
  have hbuffer : bufferOf (log.extend frame).root (log.extend frame).blocks =
      bufferOf log.root log.blocks ++ frame := by
    show (log.blocks ++ frame).drop
      ((log.blocks ++ frame).length - (log.root.bufferLen + frame.length)) = _
    rw [List.length_append, Nat.add_sub_add_right,
      List.drop_append_of_le_length (Nat.sub_le _ _)]
    rfl
  refine ⟨Nat.le_add_right_of_le hfits, ?_, ?_⟩
  · show log.root.bufferLen + frame.length ≤ (log.blocks ++ frame).length
    rw [List.length_append]
    omega
  · have hlen := length_bufferOf hfile
    rw [hbuffer, List.take_append_of_le_length (by omega)]
    exact hs.hash

/-- A remote block without messages of the local one is written in front of it. -/
theorem splice_remote (hs : Stands cr root blocks key size) {front back : List Bytes}
    {data : Bytes} (hbound : logCode.Bounded (front ++ back))
    (hbuffer : bufferOf root blocks = logCode.frames (front ++ back))
    (hsize : size = (logCode.frames front).length) (hnot : ∀ m ∈ front, m ∉ unpackMessages data)
    {bufferLen : Nat} (hlen : root'.bufferLen = bufferLen)
    (hsplice : spliceBlock root blocks (.error data) = .ok (bufferLen, blocks')) :
    Stands cr root' blocks' key size := by
  have hold : (bufferOf root blocks).take size = logCode.frames front := by
    rw [hbuffer, LenCode.frames_append, hsize, List.take_left]
  have hfile : blocks =
      blocks.take (blocks.length - root.bufferLen) ++ logCode.frames (front ++ back) := by
    rw [← hbuffer, bufferOf, List.take_append_drop]
  have hbufferLen := length_bufferOf hs.inFile
  rw [hbuffer] at hbufferLen
  have hkept := spliceBlock_data hfile hbufferLen.symm hbound data
  have hfront : (front ++ back).filter (fun msg => !decide (msg ∈ unpackMessages data)) =
      front ++ back.filter fun msg => !decide (msg ∈ unpackMessages data) := by
    rw [List.filter_append, List.filter_eq_self.mpr]
    intro m hm
    simp [hnot m hm]
  rw [hsplice, hfront] at hkept
  obtain ⟨rfl, rfl⟩ := Prod.mk.inj (Except.ok.inj hkept)
  -- the new buffer begins with the frames of the local block
  have hnew : bufferOf root' (blocks.take (blocks.length - root.bufferLen) ++ (data ++
      logCode.frames (front ++ back.filter fun msg => !decide (msg ∈ unpackMessages data)))) =
      logCode.frames (front ++ back.filter fun msg => !decide (msg ∈ unpackMessages data)) := by
    rw [bufferOf, hlen, ← List.append_assoc, List.length_append, Nat.add_sub_cancel,
      List.drop_left]
  refine ⟨?_, ?_, ?_⟩
  · rw [hlen, LenCode.frames_append, List.length_append, hsize]
    exact Nat.le_add_right _ _
  · rw [hlen, ← List.append_assoc, List.length_append]
    exact Nat.le_add_left _ _
  · rw [hnew, LenCode.frames_append, hsize, List.take_left, ← hold]
    exact hs.hash

/-- A block that was cut from the buffer stands in front of it. -/
theorem of_cut (cr : Crypto) (hfile : root.bufferLen ≤ blocks.length) :
    Stands cr root blocks (cr.blake3 (cutBlock (bufferOf root blocks)))
      (cutBlock (bufferOf root blocks)).length := by
  have hprefix : cutBlock (bufferOf root blocks) <+: bufferOf root blocks := List.take_prefix _ _
  refine ⟨?_, hfile, ?_⟩
  · rw [← length_bufferOf hfile]
    exact hprefix.length_le
  · rw [← List.prefix_iff_eq_take.mp hprefix]

end Stands

/-! ## One call -/

/-- A message that is stored or refused, within the limits, moves nothing. -/
theorem stands_of_store {h : Handle} {message : Message} {log : Log} {res : Except Fault Unit}
    {key : Hash} {size : Nat} (hs : Stands cr h.root h.blocks key size)
    (hlimits : (Encode.encode message).length ≤ maxMessageSize + sizeOfMessage →
      WithinLimits h message)
    (hstore : Handle.storeMessage h.log message = (log, res)) :
    (res = .ok () → Stands cr log.root log.blocks key size) ∧
      (res ≠ .ok () → log.blocks = h.blocks) := by
  by_cases hlen : (Encode.encode message).length ≤ maxMessageSize + sizeOfMessage
  · obtain ⟨hcp, hhistory, hcap⟩ := hlimits hlen
    have hsmall := storeMessage_of_small h.log hlen hcp hhistory hcap
    obtain ⟨rfl, rfl⟩ := Prod.mk.inj (hstore.symm.trans hsmall)
    refine ⟨fun _ => Stands.extend h.log hs _, ?_⟩
    intro hne
    exact absurd rfl hne
  · have hlong := storeMessage_of_long h.log (Nat.lt_of_not_le hlen)
    obtain ⟨rfl, rfl⟩ := Prod.mk.inj (hstore.symm.trans hlong)
    exact ⟨nofun, fun _ => rfl⟩

/-- A new block of its own is cut from the buffer; the other votes stay. -/
theorem locals_propose {h : Handle} (hs : LocalsStand cr h) (localPeerId : NodeIdentity)
    (group : FullReplGroup) (prevBufferLen : Nat) :
    LocalsStand cr (h.proposeBlock cr localPeerId group prevBufferLen).handle := by
  rcases proposeBlock_cases cr h localPeerId group prevBufferLen with
    ⟨hsame, -⟩ | ⟨buffer, -, -, hfile, hbuffer, hreply⟩
  · rw [hsame]
    exact hs
  · rw [hreply]
    rintro key p size ⟨hentry, hlocal⟩
    by_cases hkey : key = cr.blake3 (cutBlock buffer)
    · rw [hkey, Handle.insertVoting_voting_self] at hentry
      obtain rfl := Option.some.inj hentry
      obtain rfl := Proposal.localBlock.inj hlocal
      rw [hkey, hbuffer]
      exact Stands.of_cut cr hfile
    · rw [Handle.insertVoting_voting_ne _ hkey] at hentry
      exact hs key p size ⟨hentry, hlocal⟩

/-- A message keeps the local blocks in place. -/
theorem locals_sendMessage {h : Handle} (hs : LocalsStand cr h) {currentMs : Nat}
    (localPeerId : NodeIdentity) {group : FullReplGroup} {proof : Proof cr ReminderOwned}
    (hok : KeepsLocals h (.sendMessage currentMs group proof)) :
    LocalsStand cr (h.sendMessage currentMs localPeerId group proof).handle := by
  rcases sendMessage_cases h currentMs localPeerId group proof with
    ⟨e, -, hreply⟩ | ⟨members, hspend, ⟨log, e, hstore, hreply⟩ | ⟨log, hstore, hreply⟩⟩
  · rw [hreply]
    exact hs
  · rw [hreply]
    intro key p size hopen
    have hstands := stands_of_store (hs key p size hopen)
      (hok ⟨key, p, size, hopen⟩ (by rw [hspend]; rfl)) hstore
    show Stands cr h.root log.blocks key size
    rw [hstands.2 nofun]
    exact hs key p size hopen
  · rw [hreply]
    apply locals_propose
    intro key p size hopen
    exact (stands_of_store (hs key p size hopen)
      (hok ⟨key, p, size, hopen⟩ (by rw [hspend]; rfl)) hstore).1 rfl

/-- A decision keeps the other local blocks in place. -/
theorem locals_decides {h : Handle} (hs : LocalsStand cr h) {hash : Hash} {number : BlockNumber}
    {e : BlockProposal} {block : Except Bytes Nat} {r : Handle × Answer}
    (hdec : Decides h hash number e block r) (hok : Undisturbed h hash number block) :
    LocalsStand cr r.1 := by
  rintro key p size ⟨hentry, hlocal⟩
  obtain ⟨hself, hother⟩ := hdec.voting_cases hentry
  have hkey : key ≠ hash := by
    intro hkey
    rw [hself hkey] at hlocal
    cases hlocal
  have hopen : LocalOpen h key p size := ⟨hother hkey, hlocal⟩
  have hnumber : number ≤ p.number := by
    rw [hdec.voting] at hentry
    exact of_decide_eq_true (Option.filter_eq_some_iff.mp hentry).2
  have hstands := hs key p size hopen
  obtain ⟨data, rfl, front, back, hbound, hbuffer, hsize, hnot⟩ :=
    hok key p size hkey hopen hnumber
  rcases hdec.spliced with ⟨fault, -, -, hroot, hblocks⟩ |
    ⟨bufferLen, blocks, hsplice, -, hblocks, hroot⟩
  · rw [hroot, hblocks]
    exact hstands
  · rw [hroot, hblocks]
    exact hstands.splice_remote hbound hbuffer hsize hnot rfl hsplice

/-- A call that replaces one entry keeps the local blocks in place if it brings no new one. -/
theorem locals_waits {h : Handle} (hs : LocalsStand cr h) {hash : Hash}
    {entry : Option BlockProposal} {r : Handle × Answer} (hwaits : Waits h hash entry r)
    (hentry : ∀ p size, entry = some p → p.proposal = .localBlock size →
      ∃ q, LocalOpen h hash q size) : LocalsStand cr r.1 := by
  rintro key p size ⟨hget, hlocal⟩
  rw [hwaits.root, hwaits.blocks]
  by_cases hkey : key = hash
  · rw [hkey, hwaits.voting_self] at hget
    obtain ⟨q, hopen⟩ := hentry p size hget hlocal
    rw [hkey]
    exact hs hash q size hopen
  · rw [hwaits.voting_ne hkey] at hget
    exact hs key p size ⟨hget, hlocal⟩

theorem locals_quiet {h : Handle} (hs : LocalsStand cr h) {r : Handle × Answer}
    (hquiet : Quiet h r) : LocalsStand cr r.1 := by
  rintro key p size ⟨hentry, hlocal⟩
  rw [hquiet.voting] at hentry
  rw [hquiet.root, hquiet.blocks]
  exact hs key p size ⟨hentry, hlocal⟩

/-- The entry a call works on holds a local block only if it was there before. -/
theorem localOpen_entryFor {h : Handle} {hash : Hash} {number : BlockNumber} {size : Nat}
    (hlocal : (h.entryFor hash number).proposal = .localBlock size) :
    LocalOpen h hash (h.entryFor hash number) size := by
  refine ⟨?_, hlocal⟩
  cases hget : h.voting hash with
  | none =>
      rw [Handle.entryFor, hget] at hlocal
      cases hlocal
  | some p =>
      rw [Handle.entryFor, hget]
      rfl

/-- A proposal never puts a local block into the entry. -/
theorem proposed_local {h : Handle} {origin : NodeIdentity} {group : FullReplGroup}
    {number : BlockNumber} {block : Bytes} {e : BlockProposal} {size : Nat}
    (hlocal : (h.proposed origin group number block e).proposal = .localBlock size) :
    e.proposal = .localBlock size := by
  unfold Handle.proposed at hlocal
  by_cases hholds : h.Holds origin group block e
  · simp only [if_pos hholds] at hlocal
    cases hlocal
  · simp only [if_neg hholds] at hlocal
    exact hlocal

/-- What a vote takes. -/
theorem voteTakes_of_decides {h : Handle} {origin : NodeIdentity} {bn : BlockNumber} {hash : Hash}
    {agrees : Bool} {votes : ReplVec Hash} {block : Except Bytes Nat} {r : Handle × Answer}
    (hnumber : (h.entryFor hash bn).number = bn) (horigin : origin ∉ (h.entryFor hash bn).votes)
    (hpush : (h.entryFor hash bn).votes.push? origin = some votes)
    (hdec : Decides h hash bn (Handle.voted (h.entryFor hash bn) votes agrees) block r) :
    VoteTakes h origin bn hash agrees block :=
  ⟨hnumber, horigin, by rw [hpush]; rfl, hdec.taken, hdec.majority⟩

/-- **One call keeps the local blocks in place.** -/
theorem locals_step (localPeerId : NodeIdentity) {h : Handle} (c : Call cr)
    (hs : LocalsStand cr h) (hok : KeepsLocals h c) :
    LocalsStand cr (h.answer localPeerId c).1 := by
  have hstep := answer_callStep localPeerId h c
  -- only a message, a vote and a proposal touch a local block
  cases c with
  | addMember currentMs proof id member =>
      cases hstep with
      | quiet hquiet _ => exact locals_quiet hs hquiet
  | updateMember proof id member =>
      cases hstep with
      | quiet hquiet _ => exact locals_quiet hs hquiet
  | kickMember currentMs proof id =>
      cases hstep with
      | quiet hquiet _ => exact locals_quiet hs hquiet
  | sendMessage currentMs group proof => exact locals_sendMessage hs localPeerId hok
  | vote origin bn hash agrees =>
      cases hstep with
      | quiet hquiet _ => exact locals_quiet hs hquiet
      | refused hwaits =>
          apply locals_waits hs hwaits
          rintro p size hp hlocal
          obtain rfl := Option.some.inj hp
          exact ⟨_, localOpen_entryFor hlocal⟩
      | counted hnumber horigin hpush hwaits =>
          apply locals_waits hs hwaits
          rintro p size hp hlocal
          obtain rfl := Option.some.inj hp
          exact ⟨_, localOpen_entryFor hlocal⟩
      | decided hnumber horigin hpush hdec =>
          exact locals_decides hs hdec
            (hok _ (voteTakes_of_decides hnumber horigin hpush hdec))
  | proposal origin group number block =>
      cases hstep with
      | quiet hquiet _ => exact locals_quiet hs hquiet
      | judged hdate hentry hwaits =>
          apply locals_waits hs hwaits
          intro p size hp hlocal
          rcases hentry with hnone | hsome
          · rw [hnone] at hp
            cases hp
          · rw [hsome] at hp
            obtain rfl := Option.some.inj hp
            exact ⟨_, localOpen_entryFor (proposed_local hlocal)⟩
      | finalized hdate hdec =>
          exact locals_decides hs hdec (hok _ ⟨hdate, hdec.taken, hdec.majority⟩)

theorem take_local {p : Proposal} {size : Nat} (h : p.take = some (.ok size)) :
    p = .localBlock size := by
  cases p with
  | absent => cases h
  | localBlock n =>
      obtain rfl := Except.ok.inj (Option.some.inj h)
      rfl
  | remoteBlock data => cases Option.some.inj h

/-- What is accepted was held before the call. -/
theorem localOpen_of_accepted (localPeerId : NodeIdentity) {h : Handle} {c : Call cr}
    {hash : Hash} {number : BlockNumber} {size : Nat}
    (haccepted : (h.answer localPeerId c).2.accepted = some ⟨hash, number, .ok size⟩) :
    ∃ p, LocalOpen h hash p size := by
  cases answer_callStep localPeerId h c with
  | quiet hquiet _ => cases hquiet.accepted.symm.trans haccepted
  | failed _ _ _ _ _ hnone _ => cases hnone.symm.trans haccepted
  | stored _ _ _ _ hnone _ _ => cases hnone.symm.trans haccepted
  | proposes _ _ _ _ _ _ _ _ hnone _ => cases hnone.symm.trans haccepted
  | refused hwaits => cases hwaits.accepted.symm.trans haccepted
  | counted _ _ _ hwaits => cases hwaits.accepted.symm.trans haccepted
  | judged _ _ hwaits => cases hwaits.accepted.symm.trans haccepted
  | decided _ _ _ hdec =>
      obtain ⟨rfl, rfl, rfl⟩ := Accepted.mk.inj
        (Option.some.inj (hdec.accepted.symm.trans haccepted))
      exact ⟨_, localOpen_entryFor (take_local hdec.taken)⟩
  | finalized _ hdec =>
      obtain ⟨rfl, rfl, rfl⟩ := Accepted.mk.inj
        (Option.some.inj (hdec.accepted.symm.trans haccepted))
      exact ⟨_, localOpen_entryFor (proposed_local (take_local hdec.taken))⟩

/-- A local block that stands is accepted as it was proposed. -/
theorem accepts_of_stands (localPeerId : NodeIdentity) {h : Handle} (c : Call cr)
    (hs : LocalsStand cr h) : AcceptsAsProposed cr localPeerId h c := by
  intro hash number size haccepted
  obtain ⟨p, hopen⟩ := localOpen_of_accepted localPeerId haccepted
  have hstands := hs hash p size hopen
  exact ⟨hstands.fits, hstands.hash⟩

/-- **A locally proposed block is finalized only as it was proposed**, in every run from files as
they were left whose calls move no block under vote. -/
theorem local_as_proposed (localPeerId : NodeIdentity) (members : Members) (root : Root)
    (blocks : Bytes) {calls : List (Call cr)}
    (hok : (replicaMachine cr localPeerId).EachStep KeepsLocals (.load members root blocks)
      calls) :
    (replicaMachine cr localPeerId).EachStep (AcceptsAsProposed cr localPeerId)
      (.load members root blocks) calls := by
  apply Machine.eachStep_of_invariant (P := LocalsStand cr)
  · intro h c hs hc
    exact locals_step localPeerId c hs hc
  · intro h c hs _
    exact accepts_of_stands localPeerId c hs
  · rintro key p size ⟨hentry, -⟩
    cases hentry
  · exact hok

/-! ## A block that is gone when its votes come -/

/-- The block replica 1 proposes after 25 messages: the first 16. -/
def ownBlock : Bytes := logCode.frames (chatterLog 16)

/-- A block of all 25 messages, proposed by replica 2. -/
def wholeBuffer : Bytes := logCode.frames (chatterLog 25)

def ownHash : Hash := Crypto.transparent.blake3 ownBlock

def wholeHash : Hash := Crypto.transparent.blake3 wholeBuffer

theorem wholeHash_ne : wholeHash ≠ ownHash := by
  rw [wholeHash, ownHash, wholeBuffer, ownBlock, blake3_frames_chatterLog (k := 24) (by decide),
    blake3_frames_chatterLog (k := 15) (by decide)]
  decide

/-- Replica 1 hears 25 messages. -/
def hears25 : List (Call .transparent) := ((List.range' 0 25).map chatterCall).map Subtype.val

/-- The block of replica 2 is accepted, and then the votes for the own block come in. -/
def takesBoth : List (Call .transparent) :=
  [.proposal 2 replicas 0 wholeBuffer, .vote 3 0 wholeHash true, .vote 3 0 ownHash true,
    .vote 4 0 ownHash true]

/-- After the messages the own block is under vote. -/
theorem run_hears25 : ∃ h, Filled 25 h ∧
    (replicaMachine .transparent 1).run (.load lobbyMembers {} []) hears25 =
      h.insertVoting ownHash { yes := 1, proposal := .localBlock ownBlock.length } ∧
    (replicaMachine .transparent 1).EachStep (fun st _ => st.voting = fun _ => none)
      (.load lobbyMembers {} []) hears25 := by
  obtain ⟨hsilent, hfilled⟩ := filled_load.silent (n := 1) (k := 24) (by decide) (fun _ => [])
    (by decide)
  obtain ⟨h, hf, hstep⟩ := hfilled.proposes_local (n := 1) (j := 16) (by decide)
    (by decide) (cutBlock_chatterLog (by decide) (by decide) (by decide) (by decide))
  have hlast : hears25 =
      ((List.range' 0 24).map chatterCall).map Subtype.val ++ [(chatterCall 24).1] := by
    rw [hears25, List.range'_1_concat, List.map_append, List.map_append, Nat.zero_add]
    rfl
  refine ⟨h, hf, ?_, ?_⟩
  · rw [hlast, Machine.run_append, Machine.run_cons, Machine.run_nil, hstep, ownHash, ownBlock]
  · rw [hlast, Machine.eachStep_append, Machine.eachStep_cons]
    exact ⟨hsilent.mono fun _ _ hst => hst.1, hfilled.voting, trivial⟩

/-- Two votes accept the own block, whatever the buffer is by then. -/
theorem votes_accept_own {h : Handle} {size : Nat}
    (hentry : h.voting ownHash = some { yes := 1, proposal := .localBlock size }) :
    ∃ votes, (replicaMachine .transparent 1).step h (.vote 3 0 ownHash true) =
        (h.insertVoting ownHash { yes := 2, proposal := .localBlock size, votes },
          { result := .ok (), accepted := none }) ∧
      4 ∉ votes ∧
      ((replicaMachine .transparent 1).step
          (h.insertVoting ownHash { yes := 2, proposal := .localBlock size, votes })
          (.vote 4 0 ownHash true)).2.accepted = some ⟨ownHash, 0, .ok size⟩ := by
  have hthree : (ArrayVec.empty : ReplVec Hash).push? 3 = some ⟨[3], by decide⟩ := rfl
  have hboth : (⟨[3], by decide⟩ : ReplVec Hash).push? 4 = some ⟨[3, 4], by decide⟩ := rfl
  have hfour : (4 : NodeIdentity) ∉ (⟨[3], by decide⟩ : ReplVec Hash) := by decide
  have hfirst := vote_of_minority hentry rfl (ArrayVec.not_mem_empty _) hthree (Nat.le_refl 2)
  refine ⟨⟨[3], by decide⟩, ?_, hfour, ?_⟩
  · simp only [replicaMachine, Handle.answer, hfirst]
    rfl
  · have hheld := h.insertVoting_voting_self ownHash
      { yes := 2, proposal := .localBlock size, votes := ⟨[3], by decide⟩ }
    have hsecond := vote_of_majority hheld rfl hfour hboth
      (show Proposal.take _ = some (.ok size) from rfl) (Nat.lt_succ_self 2)
    simp only [replicaMachine, Handle.answer, hsecond]
    exact (acceptBlock_cases _ _ _ _).1

/-- The remote block of all messages passes, and a vote accepts it: the buffer is empty, and the
own block is still under vote. -/
theorem run_whole {h : Handle} (hf : Filled 25 h) (own : BlockProposal) :
    ∃ h', (replicaMachine .transparent 1).run (h.insertVoting ownHash own)
        [.proposal 2 replicas 0 wholeBuffer, .vote 3 0 wholeHash true] = h' ∧
      h'.voting ownHash = some own ∧ h'.root.bufferLen = 0 := by
  set h₁ := h.insertVoting ownHash own with hh₁
  have hroot : h₁.root = { bufferLen := 25 * 1002 } := hf.root
  have hblocks : h₁.blocks = [] ++ logCode.frames (chatterLog 25) := by
    rw [List.nil_append]
    exact hf.blocks
  have hlen : h₁.root.bufferLen = (logCode.frames (chatterLog 25)).length := by
    rw [hroot, length_frames_chatterLog (by decide)]
  -- the proposal
  have hnew : h₁.voting (Crypto.transparent.blake3 wholeBuffer) = none := by
    have hkeep := h.insertVoting_voting_ne wholeHash_ne own
    rw [hf.voting] at hkeep
    exact hkeep
  have hpasses : h₁.Passes 2 replicas 0 wholeBuffer { number := 0 } :=
    hf.passes (by decide) (Nat.le_refl 25) (by decide) _
  have hproposal := answer_proposal_of_passes 1 (Nat.le_of_eq (by rw [hroot])) hnew hpasses
  -- the third yes
  have hthree : (ArrayVec.empty : ReplVec Hash).push? 3 = some ⟨[3], by decide⟩ := rfl
  have hheld := h₁.insertVoting_voting_self wholeHash
    { number := 0, yes := 2, proposal := .remoteBlock wholeBuffer }
  have hvote := vote_of_majority hheld rfl (ArrayVec.not_mem_empty 3) hthree
    (show Proposal.take _ = some (.error wholeBuffer) from rfl) (Nat.lt_succ_self 2)
  set h₂ := (h₁.insertVoting wholeHash
    { number := 0, yes := 2, proposal := .remoteBlock wholeBuffer }).insertVoting wholeHash
      { Handle.voted { number := 0, yes := 2, proposal := .remoteBlock wholeBuffer }
          ⟨[3], by decide⟩ true with proposal := .absent } with hh₂
  have hbound := chatterLog_bounded (k := 25) (by decide)
  have hsplice : spliceBlock h₂.root h₂.blocks (.error wholeBuffer) = _ :=
    spliceBlock_frames hblocks hlen hbound hbound
  have hnone : (chatterLog 25).filter (fun msg => !decide (msg ∈ chatterLog 25)) = [] := by
    rw [List.filter_eq_nil_iff]
    intro msg hmsg
    simp [hmsg]
  rw [hnone] at hsplice
  obtain ⟨-, -, -, hvoting, hcases⟩ := acceptBlock_cases h₂ wholeHash 0 (.error wholeBuffer)
  refine ⟨(h₂.acceptBlock wholeHash 0 (.error wholeBuffer)).handle, ?_, ?_, ?_⟩
  · have hfirst : ((replicaMachine .transparent 1).step h₁
        (.proposal 2 replicas 0 wholeBuffer)).1 = h₁.insertVoting wholeHash
          { number := 0, yes := 2, proposal := .remoteBlock wholeBuffer } :=
      congrArg Prod.fst hproposal
    have hsecond : ((replicaMachine .transparent 1).step (h₁.insertVoting wholeHash
        { number := 0, yes := 2, proposal := .remoteBlock wholeBuffer })
          (.vote 3 0 wholeHash true)).1 =
        (h₂.acceptBlock wholeHash 0 (.error wholeBuffer)).handle := by
      simp only [replicaMachine, Handle.answer, hvote]
    rw [Machine.run_cons, hfirst, Machine.run_cons, hsecond, Machine.run_nil]
  · have hold : h₂.voting ownHash = some own := by
      rw [hh₂, Handle.insertVoting_voting_ne _ (Ne.symm wholeHash_ne),
        Handle.insertVoting_voting_ne _ (Ne.symm wholeHash_ne), hh₁,
        Handle.insertVoting_voting_self]
    rw [hvoting]
    show (h₂.voting ownHash).filter _ = some own
    rw [hold]
    simp
  · rcases hcases with ⟨fault, hfault, -⟩ | ⟨bufferLen, blocks, hdone, -, -, hroot'⟩
    · cases hsplice.symm.trans hfault
    · obtain ⟨rfl, -⟩ := Prod.mk.inj (Except.ok.inj (hsplice.symm.trans hdone))
      rw [hroot']
      rfl

/-- **The own block is accepted after another block has taken its messages**: more bytes are cut
off the buffer than it holds. -/
theorem own_block_gone :
    ¬ (replicaMachine .transparent 1).EachStep (AcceptsAsProposed .transparent 1)
      (.load lobbyMembers {} []) (hears25 ++ takesBoth) := by
  obtain ⟨h, hf, hrun, -⟩ := run_hears25
  obtain ⟨h', hrun', hown, hempty⟩ :=
    run_whole hf { yes := 1, proposal := .localBlock ownBlock.length }
  obtain ⟨votes, hfirst, -, hsecond⟩ := votes_accept_own hown
  have hsplit : takesBoth = [.proposal 2 replicas 0 wholeBuffer, .vote 3 0 wholeHash true] ++
      [.vote 3 0 ownHash true, .vote 4 0 ownHash true] := rfl
  rw [hsplit, ← List.append_assoc, Machine.eachStep_append, Machine.run_append, hrun, hrun',
    Machine.eachStep_cons, hfirst, Machine.eachStep_cons]
  rintro ⟨-, -, hlast, -⟩
  have hsize := (hlast ownHash 0 _ hsecond).1
  have hlen : ownBlock.length = 16032 := length_frames_chatterLog (k := 16) (by decide)
  have hroot : (h'.insertVoting ownHash
      { yes := 2, proposal := .localBlock ownBlock.length, votes }).root.bufferLen = 0 := hempty
  rw [hroot, hlen] at hsize
  exact absurd hsize (by decide)

/-- Twenty-five messages and two votes: the own block is accepted as it was proposed. -/
theorem own_block_accepted :
    (replicaMachine .transparent 1).EachStep (AcceptsAsProposed .transparent 1)
      (.load lobbyMembers {} [])
      (hears25 ++ [.vote 3 0 ownHash true, .vote 4 0 ownHash true]) := by
  apply local_as_proposed 1 lobbyMembers {} []
  obtain ⟨h, hf, hrun, hnone⟩ := run_hears25
  have hown := h.insertVoting_voting_self ownHash
    { yes := 1, proposal := .localBlock ownBlock.length }
  obtain ⟨votes, hfirst, -, -⟩ := votes_accept_own hown
  rw [Machine.eachStep_append, hrun, Machine.eachStep_cons, Machine.eachStep_cons, hfirst]
  -- no other block is ever under vote
  have hother : ∀ {key p}, h.voting key ≠ some p := by
    intro key p hentry
    rw [hf.voting] at hentry
    cases hentry
  refine ⟨hnone.mono fun st c hst => ?_, ?_, ?_, trivial⟩
  · apply keepsLocals_of_none
    rintro key p size ⟨hentry, -⟩
    rw [hst] at hentry
    cases hentry
  · rintro block - key p size hkey ⟨hentry, -⟩ -
    rw [h.insertVoting_voting_ne hkey] at hentry
    exact absurd hentry hother
  · rintro block - key p size hkey ⟨hentry, -⟩ -
    rw [Handle.insertVoting_voting_ne _ hkey, h.insertVoting_voting_ne hkey] at hentry
    exact absurd hentry hother

end OnionNetwork.Server
