import OnionNetwork.Server.Calls
import OnionNetwork.Theorems.LogFile

/-!
# The blocks file in every run

`log_aligned_run`: from the creation of a chat on, and under any interleaving
of its calls, the blocks file is frames, the buffer starts at a frame, and no
length underflows, provided that the calls which move the lengths move them by
frames (`KeepsFrames`). The source checks none of the three conditions: the
compaction uses an old file length, a local block is kept by its size while the
buffer in front of it changes, and the bytes of a remote block are spliced into
the file as they came.
-/

namespace OnionNetwork.Server

open Chat Lib

variable {cr : Crypto}

/-- The call does not compact, or the buffer it counts afterwards happens to
start at a frame of the compacted file. -/
def Handle.StoreKeeps (h : Handle) (frame : Bytes) : Prop :=
  h.blocks.length - h.root.checkpoint ≤ blockHistory * blockSize ∨
    (h.root.bufferLen + frame.length ≤ h.blocks.length - h.root.checkpoint ∧
      logCode.Framed (h.blocks.drop (h.blocks.length - (h.root.bufferLen + frame.length))))

/-- The block leaves frames behind: a local one is still a prefix of the buffer
that ends at a frame, a remote one consists of frames. -/
def Handle.SpliceKeeps (h : Handle) : Except Bytes Nat → Prop
  | .ok size => size ≤ h.root.bufferLen ∧ logCode.Framed ((bufferOf h.root h.blocks).drop size)
  | .error data => logCode.Framed data

theorem Handle.spliceKeeps_remote {h : Handle} {data : Bytes} :
    h.SpliceKeeps (.error data) ↔ logCode.Framed data := Iff.rfl

/-- A message is stored in frames; a vote or a proposal that completes a
majority does so for a block that leaves frames behind. -/
def Handle.KeepsFrames (h : Handle) : Call cr → Prop
  | .sendMessage _ _ proof => h.StoreKeeps (newFrame proof)
  | .vote origin bn hash agrees =>
      let e := h.entryFor hash bn
      ∀ block, e.proposal.take = some block → e.number = bn → origin ∉ e.votes →
        replicationFactor / 2 < e.yes + agrees.toNat → h.SpliceKeeps block
  | .proposal origin group number block =>
      let e := h.entryFor (cr.blake3 block) number
      let held := if h.Holds origin group block e then .remoteBlock block else e.proposal
      ∀ block', held.take = some block' → h.root.number ≤ number →
        replicationFactor / 2 < e.yes + 1 + (decide (h.Passes origin group number block e)).toNat →
        h.SpliceKeeps block'
  | _ => True

/-- Storing a message in frames leaves a log, or refuses the message and leaves
the file alone. -/
theorem Represents.store {h : Handle} {cl : ChatLog} (hrep : Represents h.root h.blocks cl)
    {proof : Proof cr ReminderOwned} (hkeeps : h.StoreKeeps (newFrame proof)) {log : Log}
    {res : Except Fault Unit}
    (hstore : Handle.storeMessage h.log (Handle.messageOf proof) = (log, res)) :
    (res = .ok () ∧ ∃ cl', Represents log.root log.blocks cl') ∨
      (res = .error (.chat .ise) ∧ log = h.log) := by
  set p := Encode.encode (Handle.messageOf proof) with hp
  by_cases hlen : p.length ≤ maxMessageSize + sizeOfMessage
  · left
    have hpb : logCode.Bounded (cl.pending ++ [p]) := by
      apply cl.bounded_pending.append
      intro q hq
      obtain rfl := List.mem_singleton.mp hq
      exact Nat.lt_of_le_of_lt hlen (by decide)
    have hcp : h.root.checkpoint ≤ h.blocks.length :=
      Nat.le_trans (Nat.le_add_right _ _) hrep.checkpoint_le
    -- whatever the file was cut down to, discarding from a log leaves a log
    have hdiscard : ∀ {log₀ : Log} {cl₀ : ChatLog}, Represents log₀.root log₀.blocks cl₀ →
        log₀.discardOldest = (log, res) →
        res = .ok () ∧ ∃ cl', Represents log.root log.blocks cl' := by
      intro log₀ cl₀ hrep₀ hdone
      obtain ⟨-, kept, hkept, -, -, -, log', hlog', -, hrep'⟩ := hrep₀.discard
      obtain ⟨rfl, rfl⟩ := Prod.mk.inj (hlog'.symm.trans hdone)
      exact ⟨rfl, _, hrep'⟩
    by_cases hhistory : h.blocks.length - h.root.checkpoint ≤ blockHistory * blockSize
    · have hlog : Represents h.log.root h.log.blocks cl := hrep
      have hextended := storeMessage_of_history h.log hlen hcp hhistory
      exact hdiscard (hlog.extend hpb) (hextended.symm.trans hstore)
    · obtain ⟨hfits, hframed⟩ := hkeeps.resolve_left hhistory
      have hcut := storeMessage_of_compaction h.log hlen (Nat.lt_of_not_le hhistory)
      have hcompacted : ∃ cl', Represents
          { (h.log.extend (logCode.frame p)).root with
            checkpoint := h.blocks.length - h.root.checkpoint -
              (h.log.extend (logCode.frame p)).root.bufferLen }
          (h.blocks.drop h.root.checkpoint) cl' := hrep.compacted hfits hframed rfl
      obtain ⟨cl', hcompacted⟩ := hcompacted
      exact hdiscard hcompacted ((hcut.trans (if_pos hfits)).symm.trans hstore)
  · right
    have hlong := storeMessage_of_long h.log (Nat.lt_of_not_le hlen)
    obtain ⟨rfl, rfl⟩ := Prod.mk.inj (hlong.symm.trans hstore)
    exact ⟨rfl, rfl⟩

/-- Accepting a block that leaves frames behind leaves a log. -/
theorem Represents.splice {h : Handle} {cl : ChatLog} (hrep : Represents h.root h.blocks cl)
    {block : Except Bytes Nat} (hkeeps : h.SpliceKeeps block) :
    ∃ bufferLen blocks cl', spliceBlock h.root h.blocks block = .ok (bufferLen, blocks) ∧
      Represents { h.root with bufferLen } blocks cl' := by
  cases block with
  | ok size =>
      obtain ⟨block, rest, hb, hr, -, -, hsplice, hrep'⟩ := hrep.splice_local hkeeps.1 hkeeps.2
      exact ⟨_, _, _, hsplice, hrep'⟩
  | error data =>
      obtain ⟨block, hb, rfl⟩ := hkeeps
      obtain ⟨hr, bufferLen, blocks, hsplice, hrep'⟩ := hrep.splice_remote hb
      exact ⟨_, _, _, hsplice, hrep'⟩

/-- A handle whose root and file hold a log. -/
def Handle.HasLog (h : Handle) : Prop := ∃ cl, Represents h.root h.blocks cl

/-- A decision for a block that leaves frames behind. -/
theorem Decides.hasLog {h : Handle} {hash : Hash} {number : BlockNumber} {e : BlockProposal}
    {block : Except Bytes Nat} {r : Handle × Answer} (hdec : Decides h hash number e block r)
    (hlog : h.HasLog) (hkeeps : h.SpliceKeeps block) :
    r.1.HasLog ∧ r.2.result ≠ .error .underflow := by
  obtain ⟨cl, hrep⟩ := hlog
  obtain ⟨bufferLen, blocks, cl', hsplice, hrep'⟩ := hrep.splice hkeeps
  rcases hdec.spliced with ⟨fault, hfault, -⟩ | ⟨bufferLen', blocks', hok, hresult, hblocks, hroot⟩
  · cases hsplice.symm.trans hfault
  · obtain ⟨rfl, rfl⟩ := Prod.mk.inj (Except.ok.inj (hsplice.symm.trans hok))
    refine ⟨⟨cl', ?_⟩, by rw [hresult]; nofun⟩
    rw [hroot, hblocks]
    exact hrep'.congr_root rfl rfl

/-- **One call keeps the log.** -/
theorem hasLog_answer (localPeerId : NodeIdentity) {h : Handle} (c : Call cr) (hlog : h.HasLog)
    (hkeeps : h.KeepsFrames c) :
    (h.answer localPeerId c).1.HasLog ∧ (h.answer localPeerId c).2.result ≠ .error .underflow := by
  have hsame : ∀ r : Handle × Answer, r.1.root = h.root → r.1.blocks = h.blocks → r.1.HasLog := by
    intro r hroot hblocks
    unfold Handle.HasLog
    rw [hroot, hblocks]
    exact hlog
  obtain ⟨cl, hrep⟩ := hlog
  cases answer_callStep localPeerId h c with
  | quiet hquiet hdate => exact ⟨hsame _ hquiet.root hquiet.blocks, hquiet.noUnderflow⟩
  | failed hstore hvoting hroot hblocks hresult haccepted =>
      rcases hrep.store hkeeps hstore with ⟨hok, -⟩ | ⟨hise, rfl⟩
      · cases hok
      · refine ⟨hsame _ hroot hblocks, ?_⟩
        rw [hresult, hise]
        nofun
  | stored hstore hvoting hroot hblocks haccepted hunder =>
      rcases hrep.store hkeeps hstore with ⟨-, cl', hrep'⟩ | ⟨hise, -⟩
      · refine ⟨⟨cl', ?_⟩, hunder⟩
        rw [hroot, hblocks]
        exact hrep'
      · cases hise
  | proposes hspend hstore hfinalize hselected hrequest hvoting hroot hblocks haccepted hresult =>
      rcases hrep.store hkeeps hstore with ⟨-, cl', hrep'⟩ | ⟨hise, -⟩
      · refine ⟨⟨cl', ?_⟩, by rw [hresult]; nofun⟩
        rw [hroot, hblocks]
        exact hrep'
      · cases hise
  | refused hwaits => exact ⟨hsame _ hwaits.root hwaits.blocks, hwaits.noUnderflow⟩
  | counted hnumber horigin hpush hwaits =>
      exact ⟨hsame _ hwaits.root hwaits.blocks, hwaits.noUnderflow⟩
  | decided hnumber horigin hpush hdecides =>
      have hmajority := hdecides.majority
      exact hdecides.hasLog ⟨cl, hrep⟩ (hkeeps _ hdecides.taken hnumber horigin hmajority)
  | judged hdate hentry hwaits => exact ⟨hsame _ hwaits.root hwaits.blocks, hwaits.noUnderflow⟩
  | finalized hdate hdecides =>
      have hmajority := hdecides.majority
      exact hdecides.hasLog ⟨cl, hrep⟩ (hkeeps _ hdecides.taken hdate hmajority)

/-- **The log in every run.** From the creation of a chat on, a run whose calls
keep to frames leaves after every call a file of frames with the buffer at a
frame, and no length underflows. -/
theorem log_aligned_run (localPeerId : NodeIdentity) (members : Members) (calls : List (Call cr))
    (hkeeps : (replicaMachine cr localPeerId).EachStep Handle.KeepsFrames (.fresh members) calls) :
    (replicaMachine cr localPeerId).EachStep
      (fun h c => LogAligned (h.answer localPeerId c).1.root (h.answer localPeerId c).1.blocks ∧
        (h.answer localPeerId c).2.result ≠ .error .underflow) (.fresh members) calls := by
  refine Machine.eachStep_of_invariant (P := Handle.HasLog) ?_ ?_
    ⟨_, represents_fresh members⟩ hkeeps
  · intro h c hlog hc
    exact (hasLog_answer localPeerId c hlog hc).1
  · intro h c hlog hc
    obtain ⟨⟨cl, hrep⟩, hunder⟩ := hasLog_answer localPeerId c hlog hc
    exact ⟨hrep.aligned, hunder⟩

/-- The note is sent, the finalizer proposes its frame as a block, and one more
replica agrees. -/
def noteFinalized : List (Call .transparent) :=
  [.sendMessage 20 replicas shortNote, .proposal 1 replicas 0 (newFrame shortNote),
    .vote 2 0 (Crypto.transparent.blake3 (newFrame shortNote)) true]

/-- The block of the note is frames, so the run leaves a log. -/
theorem log_aligned_note :
    (replicaMachine .transparent 0).EachStep
      (fun h c => LogAligned (h.answer 0 c).1.root (h.answer 0 c).1.blocks ∧
        (h.answer 0 c).2.result ≠ .error .underflow) (.fresh lobbyMembers) noteFinalized := by
  have hframed : logCode.Framed (newFrame shortNote) := by decide +kernel
  refine log_aligned_run 0 lobbyMembers noteFinalized ⟨.inl (by decide), ?_, ?_, trivial⟩
  · intro block htaken hdate hmajority
    obtain rfl : .error (newFrame shortNote) = block :=
      Option.some.inj (Eq.trans (by decide +kernel) htaken)
    exact Handle.spliceKeeps_remote.mpr hframed
  · intro block htaken hnumber horigin hmajority
    obtain rfl : .error (newFrame shortNote) = block :=
      Option.some.inj (Eq.trans (by decide +kernel) htaken)
    exact Handle.spliceKeeps_remote.mpr hframed

/-- A block of one byte: nothing in it is a frame. -/
def malformedCalls : List (Call .transparent) :=
  [.proposal 1 replicas 0 [1], .vote 2 0 (Crypto.transparent.blake3 [1]) true]

/-- The finalizer proposes the byte, one more replica agrees, and the byte is
the blocks file. -/
theorem malformedBlock_accepted :
    ¬ LogAligned
      ((replicaMachine .transparent 0).run (.fresh lobbyMembers) malformedCalls).root
      ((replicaMachine .transparent 0).run (.fresh lobbyMembers) malformedCalls).blocks := by
  intro h
  have hframed := h.framed
  revert hframed
  decide

end OnionNetwork.Server
