import OnionNetwork.Server.Requests

/-!
# One replica under all its calls

The handle of a chat as its server drives it: the requests of users, and the
proposals and votes of the other replicas, in any order. `CallStep` lists what
a call can be: one that leaves votes and log alone, a message that is stored or
not, a vote or a proposal that waits for others or decides a block;
`answer_callStep` says that this is all.
-/

namespace OnionNetwork.Server

open Chat Lib

/-- A call on the handle of a chat, with what the handler reads besides: the
clock, and the replication group in the view of the replica. -/
inductive Call (cr : Crypto)
  | addMember (currentMs : Nat) (proof : Proof cr ChatName) (id : Identity) (member : Member)
  | updateMember (proof : Proof cr ChatName) (id : Identity) (member : Member)
  | kickMember (currentMs : Nat) (proof : Proof cr ChatName) (id : Identity)
  | sendMessage (currentMs : Nat) (group : FullReplGroup) (proof : Proof cr ReminderOwned)
  | proposal (origin : NodeIdentity) (group : FullReplGroup) (number : BlockNumber)
      (block : Bytes)
  | vote (origin : NodeIdentity) (bn : BlockNumber) (hash : Hash) (agrees : Bool)

/-- What `api::chat` sends to the other replicas after a call: `SEND_BLOCK` for
a proposed block, `VOTE_BLOCK` for the verdict on a proposal. -/
inductive Broadcast
  | sendBlock (number : BlockNumber) (block : Bytes)
  | voteBlock (hash : Hash) (number : BlockNumber) (agrees : Bool)
  deriving DecidableEq

namespace Broadcast

/-- What `send_message` asks to send. -/
def ofFinalization : Option (BlockNumber × Bytes) → Option Broadcast
  | some (number, block) => some (.sendBlock number block)
  | none => none

/-- What follows a proposal that was judged. -/
def ofVerdict (number : BlockNumber) : Hash × Option ChatError → Option Broadcast
  | (baseHash, error) => some (.voteBlock baseHash number error.isNone)

end Broadcast

/-- What a call came to: its result, the call to `accept_block` it made, and
what is sent on. -/
structure Answer where
  result : Except Fault Unit
  accepted : Option Accepted
  broadcast : Option Broadcast := none

/-- The block a call applied to the log: `accept_block` was called and stored
the new root. -/
def Answer.applied (a : Answer) : Option Accepted :=
  match a.result with
  | .ok () => a.accepted
  | .error _ => none

/-- No block was accepted, so none was applied. -/
theorem Answer.applied_of_not_accepted {a : Answer} (h : a.accepted = none) :
    a.applied = none := by
  unfold Answer.applied
  split
  · exact h
  · rfl

/-- An accepted block is the one that was applied, if one was. -/
theorem Answer.applied_of_accepted {a : Answer} {acc : Accepted} (h : a.accepted = some acc) :
    a.applied = some acc ∨ a.applied = none := by
  unfold Answer.applied
  split
  · exact .inl h
  · exact .inr rfl

/-- A reply as its caller in `api::chat` uses it: only a result is sent on. -/
def Reply.answer {α : Type} (broadcast : α → Option Broadcast) (r : Reply α) : Answer where
  result := r.result.map fun _ => ()
  accepted := r.accepted
  broadcast :=
    match r.result with
    | .ok a => broadcast a
    | .error _ => none

variable {cr : Crypto}

/-- The handlers, on the replica with this id. -/
def Handle.answer (localPeerId : NodeIdentity) (h : Handle) : Call cr → Handle × Answer
  | .addMember currentMs proof id member =>
      let (h, result) := settled h (h.addMember currentMs proof id member)
      (h, { result, accepted := none })
  | .updateMember proof id member =>
      let (h, result) := settled h (h.updateMember proof id member)
      (h, { result, accepted := none })
  | .kickMember currentMs proof id =>
      let (h, result) := settled h (h.kickMember currentMs proof id)
      (h, { result, accepted := none })
  | .sendMessage currentMs group proof =>
      let reply := h.sendMessage currentMs localPeerId group proof
      (reply.handle, reply.answer Broadcast.ofFinalization)
  | .proposal origin group number block =>
      let reply := h.proposal cr origin group number block
      (reply.handle, reply.answer (Broadcast.ofVerdict number))
  | .vote origin bn hash agrees =>
      let reply := h.vote origin bn hash agrees
      (reply.handle, reply.answer fun _ => none)

/-- One replica of a chat under its calls. -/
def replicaMachine (cr : Crypto) (localPeerId : NodeIdentity) :
    Machine Handle (Call cr) Answer :=
  ⟨Handle.answer localPeerId⟩

/-! ## What a call can do -/

/-- No block is sent to the other replicas. -/
def Answer.NoBlock (a : Answer) : Prop :=
  ∀ number block, a.broadcast ≠ some (.sendBlock number block)

/-- Nothing but the member table changes. -/
structure Quiet (h : Handle) (r : Handle × Answer) : Prop where
  voting : r.1.voting = h.voting
  root : r.1.root = h.root
  blocks : r.1.blocks = h.blocks
  accepted : r.2.accepted = none
  noUnderflow : r.2.result ≠ .error .underflow
  noBlock : r.2.NoBlock

/-- The entry of one hash is replaced and no block is accepted. -/
structure Waits (h : Handle) (hash : Hash) (entry : Option BlockProposal)
    (r : Handle × Answer) : Prop where
  voting : r.1.voting = Function.update h.voting hash entry
  root : r.1.root = h.root
  blocks : r.1.blocks = h.blocks
  accepted : r.2.accepted = none
  noUnderflow : r.2.result ≠ .error .underflow
  noBlock : r.2.NoBlock

/-- A majority for the block an entry holds: the block is taken out of the
entry, the votes are pruned, and the block goes into the log, or the splice
fails and the root stays. -/
structure Decides (h : Handle) (hash : Hash) (number : BlockNumber) (e : BlockProposal)
    (block : Except Bytes Nat) (r : Handle × Answer) : Prop where
  taken : e.proposal.take = some block
  majority : replicationFactor / 2 < e.yes
  voting : r.1.voting = fun key =>
    (Function.update h.voting hash (some { e with proposal := .absent }) key).filter
      fun p => number ≤ p.number
  accepted : r.2.accepted = some ⟨hash, number, block⟩
  noBlock : r.2.NoBlock
  spliced :
    (∃ fault, spliceBlock h.root h.blocks block = .error fault ∧ r.2.result = .error fault ∧
        r.1.root = h.root ∧ r.1.blocks = h.blocks) ∨
      ∃ bufferLen blocks, spliceBlock h.root h.blocks block = .ok (bufferLen, blocks) ∧
        r.2.result = .ok () ∧ r.1.blocks = blocks ∧
        r.1.root = { h.root with number, latestBlock := hash, bufferLen }

/-- Only the entry of the hash is touched. -/
theorem Waits.voting_ne {h : Handle} {hash : Hash} {entry : Option BlockProposal}
    {r : Handle × Answer} (hwaits : Waits h hash entry r) {key : Hash} (hkey : key ≠ hash) :
    r.1.voting key = h.voting key := by
  rw [hwaits.voting, Function.update_of_ne hkey]

theorem Waits.voting_self {h : Handle} {hash : Hash} {entry : Option BlockProposal}
    {r : Handle × Answer} (hwaits : Waits h hash entry r) : r.1.voting hash = entry := by
  rw [hwaits.voting, Function.update_self]

/-- After a decision the entry holds no block any more, and the other entries
that are left are the old ones. -/
theorem Decides.voting_cases {h : Handle} {hash : Hash} {number : BlockNumber}
    {e : BlockProposal} {block : Except Bytes Nat} {r : Handle × Answer}
    (hdec : Decides h hash number e block r) {key : Hash} {p : BlockProposal}
    (hp : r.1.voting key = some p) :
    (key = hash → p.proposal = .absent) ∧ (key ≠ hash → h.voting key = some p) := by
  rw [hdec.voting] at hp
  have hkept := (Option.filter_eq_some_iff.mp hp).1
  constructor
  · intro hkey
    rw [hkey, Function.update_self] at hkept
    obtain rfl := Option.some.inj hkept
    rfl
  · intro hkey
    rw [Function.update_of_ne hkey] at hkept
    exact hkept

/-- The log a message is stored in. -/
def Handle.log (h : Handle) : Log := ⟨h.root, h.blocks, h.discardedBytes⟩

/-- The steps of the replica `localPeerId`: a call, what it leaves and what it
answers. -/
inductive CallStep (localPeerId : NodeIdentity) (h : Handle) :
    Call cr → Handle × Answer → Prop
  /-- A membership operation, a message without the right to send, a proposal
  with an outdated number. -/
  | quiet {c : Call cr} {r : Handle × Answer} (hquiet : Quiet h r)
      (hdate : ∀ origin group number block, c = .proposal origin group number block →
        number < h.root.number) :
      CallStep localPeerId h c r
  /-- A message that is not stored. -/
  | failed {currentMs : Nat} {group : FullReplGroup} {proof : Proof cr ReminderOwned}
      {r : Handle × Answer} {log : Log} {fault : Fault}
      (hstore : Handle.storeMessage h.log (Handle.messageOf proof) = (log, .error fault))
      (hvoting : r.1.voting = h.voting) (hroot : r.1.root = h.root)
      (hblocks : r.1.blocks = log.blocks) (hresult : r.2.result = .error fault)
      (haccepted : r.2.accepted = none) (hnoBlock : r.2.NoBlock) :
      CallStep localPeerId h (.sendMessage currentMs group proof) r
  /-- A stored message. -/
  | stored {currentMs : Nat} {group : FullReplGroup} {proof : Proof cr ReminderOwned}
      {r : Handle × Answer} {log : Log}
      (hstore : Handle.storeMessage h.log (Handle.messageOf proof) = (log, .ok ()))
      (hvoting : r.1.voting = h.voting) (hroot : r.1.root = log.root)
      (hblocks : r.1.blocks = log.blocks) (haccepted : r.2.accepted = none)
      (hunder : r.2.result ≠ .error .underflow) (hnoBlock : r.2.NoBlock) :
      CallStep localPeerId h (.sendMessage currentMs group proof) r
  /-- A stored message after which this replica proposes a block. -/
  | proposes {currentMs : Nat} {group : FullReplGroup} {proof : Proof cr ReminderOwned}
      {r : Handle × Answer} {log : Log} {block : Bytes}
      (hspend : (h.spendAction currentMs proof).isOk = true)
      (hstore : Handle.storeMessage h.log (Handle.messageOf proof) = (log, .ok ()))
      (hfinalize : Handle.shouldFinalize log.root.bufferLen h.root.bufferLen = true)
      (hselected : selectFinalizer log.root.latestBlock group log.root.bufferLen = localPeerId)
      (hbroadcast : r.2.broadcast = some (.sendBlock h.root.number block))
      (hvoting : r.1.voting = Function.update h.voting (cr.blake3 block)
        (some { number := h.root.number, yes := 1, proposal := .localBlock block.length }))
      (hroot : r.1.root = log.root) (hblocks : r.1.blocks = log.blocks)
      (haccepted : r.2.accepted = none) (hresult : r.2.result = .ok ()) :
      CallStep localPeerId h (.sendMessage currentMs group proof) r
  /-- A vote that is not counted. -/
  | refused {origin : NodeIdentity} {bn : BlockNumber} {hash : Hash} {agrees : Bool}
      {r : Handle × Answer} (hwaits : Waits h hash (some (h.entryFor hash bn)) r) :
      CallStep localPeerId h (.vote origin bn hash agrees) r
  /-- A vote that decides nothing. -/
  | counted {origin : NodeIdentity} {bn : BlockNumber} {hash : Hash} {agrees : Bool}
      {r : Handle × Answer} {votes : ReplVec Hash} (hnumber : (h.entryFor hash bn).number = bn)
      (horigin : origin ∉ (h.entryFor hash bn).votes)
      (hpush : (h.entryFor hash bn).votes.push? origin = some votes)
      (hwaits : Waits h hash (some (Handle.voted (h.entryFor hash bn) votes agrees)) r) :
      CallStep localPeerId h (.vote origin bn hash agrees) r
  /-- A vote that completes a majority for a held block. -/
  | decided {origin : NodeIdentity} {bn : BlockNumber} {hash : Hash} {agrees : Bool}
      {r : Handle × Answer} {votes : ReplVec Hash} {block : Except Bytes Nat}
      (hnumber : (h.entryFor hash bn).number = bn)
      (horigin : origin ∉ (h.entryFor hash bn).votes)
      (hpush : (h.entryFor hash bn).votes.push? origin = some votes)
      (hdecides : Decides h hash bn (Handle.voted (h.entryFor hash bn) votes agrees) block r) :
      CallStep localPeerId h (.vote origin bn hash agrees) r
  /-- A proposal that decides nothing, or is dropped by a majority of no. -/
  | judged {origin : NodeIdentity} {group : FullReplGroup} {number : BlockNumber} {block : Bytes}
      {r : Handle × Answer} {entry : Option BlockProposal} (hdate : h.root.number ≤ number)
      (hentry : entry = none ∨ entry = some (h.proposed origin group number block
        (h.entryFor (cr.blake3 block) number)))
      (hwaits : Waits h (cr.blake3 block) entry r) :
      CallStep localPeerId h (.proposal origin group number block) r
  /-- A proposal that completes a majority for a held block. -/
  | finalized {origin : NodeIdentity} {group : FullReplGroup} {number : BlockNumber}
      {block : Bytes} {r : Handle × Answer} {held : Except Bytes Nat}
      (hdate : h.root.number ≤ number)
      (hdecides : Decides h (cr.blake3 block) number (h.proposed origin group number block
        (h.entryFor (cr.blake3 block) number)) held r) :
      CallStep localPeerId h (.proposal origin group number block) r

/-- A membership operation writes nothing but the member table. -/
theorem settled_quiet {h : Handle} {res : Except ChatError Handle}
    (hres : ∀ h', res = .ok h' → ∃ members, h' = { h with members }) :
    Quiet h ((settled h res).1, { result := (settled h res).2, accepted := none }) := by
  cases res with
  | error e => exact ⟨rfl, rfl, rfl, rfl, nofun, nofun⟩
  | ok h' =>
      obtain ⟨members, rfl⟩ := hres h' rfl
      exact ⟨rfl, rfl, rfl, rfl, nofun, nofun⟩

/-- What a caller makes of a reply. -/
theorem answer_of_ok {α : Type} {r : Reply α} {a : α} (f : α → Option Broadcast)
    (h : r.result = .ok a) :
    (r.answer f).result = .ok () ∧ (r.answer f).broadcast = f a := by
  unfold Reply.answer
  rw [h]
  exact ⟨rfl, rfl⟩

theorem answer_of_error {α : Type} {r : Reply α} {fault : Fault} (f : α → Option Broadcast)
    (h : r.result = .error fault) :
    (r.answer f).result = .error fault ∧ (r.answer f).broadcast = none := by
  unfold Reply.answer
  rw [h]
  exact ⟨rfl, rfl⟩

theorem Reply.map_unit (r : Reply Unit) : { r with result := r.result.map fun _ => () } = r := by
  obtain ⟨handle, result, accepted⟩ := r
  cases result with
  | error fault => rfl
  | ok u => rfl

/-- Without a request, no block is sent. -/
theorem noBlock_of_finalization {r : Reply (Option (BlockNumber × Bytes))}
    (hno : ∀ req, r.result ≠ .ok (some req)) : (r.answer Broadcast.ofFinalization).NoBlock := by
  intro number block hsend
  cases hres : r.result with
  | error fault =>
      rw [(answer_of_error _ hres).2] at hsend
      cases hsend
  | ok req =>
      rw [(answer_of_ok _ hres).2] at hsend
      cases req with
      | none => cases hsend
      | some req => exact hno req hres

/-- A call that ends in `accept_block` on an entry whose block was taken. -/
theorem acceptBlock_decides (h : Handle) {α : Type} {hash : Hash} {number : BlockNumber}
    {e : BlockProposal} {block : Except Bytes Nat} (htaken : e.proposal.take = some block)
    (hmajority : replicationFactor / 2 < e.yes) (f : α → Option Broadcast) (a : α)
    (hf : ∀ number block, f a ≠ some (.sendBlock number block)) :
    let accepted := (h.insertVoting hash { e with proposal := .absent }).acceptBlock hash number
      block
    Decides h hash number e block
      (accepted.handle,
        Reply.answer f { accepted with result := accepted.result.map fun _ => a }) := by
  intro accepted
  obtain ⟨hacc, -, -, hvoting, hspliced⟩ := acceptBlock_cases
    (h.insertVoting hash { e with proposal := .absent }) hash number block
  rcases hspliced with ⟨fault, hsplice, hresult, hroot, hblocks⟩ |
    ⟨bufferLen, blocks, hsplice, hresult, hblocks, hroot⟩
  · have herror : accepted.result.map (fun _ => a) = .error fault := by
      rw [show accepted.result = .error fault from hresult]
      rfl
    obtain ⟨hres, hsend⟩ := answer_of_error f (r := { accepted with result := _ }) herror
    refine ⟨htaken, hmajority, hvoting, hacc, ?_, .inl ⟨fault, hsplice, hres, hroot, hblocks⟩⟩
    intro number' block' hblock
    cases hsend.symm.trans hblock
  · have hok : accepted.result.map (fun _ => a) = .ok a := by
      rw [show accepted.result = .ok () from hresult]
      rfl
    obtain ⟨hres, hsend⟩ := answer_of_ok f (r := { accepted with result := _ }) hok
    refine ⟨htaken, hmajority, hvoting, hacc, ?_,
      .inr ⟨bufferLen, blocks, hsplice, hres, hblocks, hroot⟩⟩
    intro number' block' hblock
    exact hf number' block' (hsend.symm.trans hblock)

/-- **What a call can do.** -/
theorem answer_callStep (localPeerId : NodeIdentity) (h : Handle) (c : Call cr) :
    CallStep localPeerId h c (h.answer localPeerId c) := by
  cases c with
  | addMember currentMs proof id member =>
      -- the three calls about members touch the member table alone
      refine .quiet (settled_quiet ?_) nofun
      intro h' hok
      obtain ⟨m, -, rfl⟩ := addMember_eq_ok.mp hok
      exact ⟨_, rfl⟩
  | updateMember proof id member =>
      refine .quiet (settled_quiet ?_) nofun
      intro h' hok
      obtain ⟨m, -, rfl⟩ := updateMember_eq_ok.mp hok
      exact ⟨_, rfl⟩
  | kickMember currentMs proof id =>
      refine .quiet (settled_quiet ?_) nofun
      intro h' hok
      rcases kickMember_eq_ok.mp hok with ⟨m, -, -, rfl⟩ | ⟨m, target, -, -, rfl⟩
      · exact ⟨_, rfl⟩
      · exact ⟨_, rfl⟩
  | sendMessage currentMs group proof =>
      show CallStep localPeerId h _ ((h.sendMessage currentMs localPeerId group proof).handle,
        (h.sendMessage currentMs localPeerId group proof).answer Broadcast.ofFinalization)
      rcases sendMessage_cases h currentMs localPeerId group proof with
        ⟨e, -, hreply⟩ | ⟨members, hspend, ⟨log, e, hstore, hreply⟩ | ⟨log, hstore, hreply⟩⟩
      · rw [hreply]
        exact .quiet ⟨rfl, rfl, rfl, rfl, nofun, nofun⟩ nofun
      · rw [hreply]
        exact .failed hstore rfl rfl rfl rfl rfl nofun
      · -- the message is in the log; what is left is whether this replica proposes
        rcases proposeBlock_cases cr
          { h with
            members, root := log.root, blocks := log.blocks
            discardedBytes := log.discardedBytes }
          localPeerId group h.root.bufferLen with
          ⟨hhandle, hacc, hunder, hno⟩ | ⟨buffer, hfin, hsel, -, -, hprop⟩
        · -- no proposal: the group is not full, the buffer is short, or another node is selected
          have hvoting := congrArg Handle.voting hhandle
          have hroot := congrArg Handle.root hhandle
          have hblocks := congrArg Handle.blocks hhandle
          rw [hreply]
          refine .stored hstore hvoting hroot hblocks hacc ?_ (noBlock_of_finalization hno)
          intro hres
          cases hlow : (Handle.proposeBlock cr
              { h with
                members, root := log.root, blocks := log.blocks
                discardedBytes := log.discardedBytes }
              localPeerId group h.root.bufferLen).result with
          | error fault =>
              rw [(answer_of_error _ hlow).1] at hres
              exact hunder (hlow.trans (congrArg Except.error (Except.error.inj hres)))
          | ok req =>
              rw [(answer_of_ok _ hlow).1] at hres
              cases hres
        · -- this replica proposes; storing the message left the block number alone
          have hnumber : log.root.number = h.root.number := by
            have hroot := (storeMessage_root h.log (Handle.messageOf proof)).1
            rw [show Handle.storeMessage h.log _ = _ from hstore] at hroot
            exact hroot
          rw [hreply, hprop]
          simp only [hnumber]
          exact .proposes (by rw [hspend]; rfl) hstore hfin hsel rfl rfl rfl rfl rfl rfl
  | proposal origin group number block =>
      show CallStep localPeerId h _ ((h.proposal cr origin group number block).handle,
        (h.proposal cr origin group number block).answer (Broadcast.ofVerdict number))
      rcases proposal_cases cr h origin group number block with
        ⟨houtdated, hreply⟩ | ⟨hdate, err, -, ⟨-, ⟨-, hreply⟩ | ⟨-, hreply⟩⟩ |
          ⟨held, htaken, hmajority, hreply⟩⟩
      · rw [hreply]
        refine .quiet ⟨rfl, rfl, rfl, rfl, nofun, nofun⟩ ?_
        intro origin' group' number' block' hc
        -- an outdated proposal is refused before anything is looked up
        obtain ⟨-, -, rfl, -⟩ := Call.proposal.inj hc
        exact houtdated
      · rw [hreply]
        exact .judged hdate (.inr rfl) ⟨rfl, rfl, rfl, rfl, nofun, nofun⟩
      · rw [hreply]
        exact .judged hdate (.inl rfl) ⟨rfl, rfl, rfl, rfl, nofun, nofun⟩
      · rw [hreply]
        exact .finalized hdate (acceptBlock_decides h htaken hmajority _ _ nofun)
  | vote origin bn hash agrees =>
      show CallStep localPeerId h _ ((h.vote origin bn hash agrees).handle,
        (h.vote origin bn hash agrees).answer fun _ => none)
      rcases vote_cases h origin bn hash agrees with
        ⟨fault, hfault, hreply⟩ | ⟨votes, hnumber, horigin, hpush, ⟨-, hreply⟩ |
          ⟨block, htaken, hmajority, hreply⟩⟩
      · rw [hreply]
        refine .refused ⟨rfl, rfl, rfl, rfl, fun hres => hfault ?_, nofun⟩
        exact Except.error.inj hres
      · rw [hreply]
        exact .counted hnumber horigin hpush ⟨rfl, rfl, rfl, rfl, nofun, nofun⟩
      · rw [hreply, ← Reply.map_unit (Handle.acceptBlock _ _ _ _)]
        exact .decided hnumber horigin hpush
          (acceptBlock_decides h htaken hmajority (fun _ => none) () nofun)

/-- The first proposal of a block, if it passes, makes the replica vote for it. -/
theorem answer_proposal_of_passes (localPeerId : NodeIdentity) {h : Handle}
    {origin : NodeIdentity} {group : FullReplGroup} {number : BlockNumber} {block : Bytes}
    (hdate : h.root.number ≤ number) (hnew : h.voting (cr.blake3 block) = none)
    (hpasses : h.Passes origin group number block { number }) :
    h.answer localPeerId (.proposal origin group number block : Call cr) =
      (h.insertVoting (cr.blake3 block) { number, yes := 2, proposal := .remoteBlock block },
        { result := .ok (), accepted := none
          broadcast := some (.voteBlock (cr.blake3 block) number true) }) := by
  simp only [Handle.answer, proposal_of_passes cr hdate hnew hpasses]
  rfl

/-- A vote that completes a majority for a held remote block applies it. -/
theorem answer_vote_of_majority (cr : Crypto) (localPeerId : NodeIdentity) {h : Handle}
    {origin : NodeIdentity} {bn : BlockNumber} {hash : Hash} {e : BlockProposal}
    {votes : ReplVec Hash} {data : Bytes} (hentry : h.voting hash = some e)
    (hnumber : e.number = bn) (horigin : origin ∉ e.votes)
    (hpush : e.votes.push? origin = some votes) (hheld : e.proposal = .remoteBlock data)
    (hmajority : replicationFactor / 2 < e.yes + 1)
    (hfits : h.root.bufferLen ≤ h.blocks.length) :
    ∃ h', h.answer localPeerId (.vote origin bn hash true : Call cr) =
      (h', { result := .ok (), accepted := some ⟨hash, bn, .error data⟩ }) := by
  have htaken : e.proposal.take = some (.error data) := by
    rw [hheld]
    rfl
  have hreply := vote_of_majority hentry hnumber horigin hpush htaken hmajority
  obtain ⟨spliced, hsplice⟩ := spliceBlock_remote hfits data
  rcases acceptBlock_cases (h.insertVoting hash _) hash bn (.error data) with
    ⟨haccepted, -, -, -, ⟨fault, hfault, -⟩ | ⟨bufferLen, blocks, -, hresult, -⟩⟩
  · cases hsplice.symm.trans hfault
  · rw [← hreply] at haccepted hresult
    refine ⟨(h.vote origin bn hash true).handle, ?_⟩
    simp only [Handle.answer, Reply.answer, haccepted, hresult]
    rfl

end OnionNetwork.Server
