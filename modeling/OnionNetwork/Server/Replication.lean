import OnionNetwork.Server.Calls
import OnionNetwork.Lib.Network

/-!
# The replicas of a chat

The network of a replication group: every node runs the handle of the chat,
clients call any of them, and what `api::chat` sends on goes to the other nodes
of the group. The record of a run is the sequence of blocks each node applied.

The lemmas after the model say what the calls do to the blocks a replica holds
for a decision: a client call adds one only by proposing it, a vote takes out
the one it decides, a proposal adds the proposed one.
-/

namespace OnionNetwork.Server

open Chat Lib

variable {cr : Crypto}

/-- A call of a client; the view of the group is the common one. -/
def Call.FromClient (group : FullReplGroup) : Call cr → Prop
  | .sendMessage _ g _ => g = group
  | .proposal _ _ _ _ | .vote _ _ _ _ => False
  | .addMember _ _ _ _ | .updateMember _ _ _ | .kickMember _ _ _ => True

/-- The calls clients make. -/
abbrev ClientCall (cr : Crypto) (group : FullReplGroup) :=
  { c : Call cr // c.FromClient group }

/-- `Context::get_others`: the group without the node itself; a node outside of
the group sends to nobody. -/
def getOthers (group : FullReplGroup) (n : NodeIdentity) : List NodeIdentity :=
  if n ∈ group then group.nodes.filter (· ≠ n) else []

/-- `api::chat::{proposal, vote}` on what arrives. The check that the origin is
of the group holds for all packets, since only its nodes send. -/
def receive (group : FullReplGroup) (origin : NodeIdentity) : Broadcast → Call cr
  | .sendBlock number block => .proposal origin group number block
  | .voteBlock hash number agrees => .vote origin number hash agrees

/-- The group at work on one chat. -/
def chatNetwork (cr : Crypto) (group : FullReplGroup) :
    Network NodeIdentity Handle (ClientCall cr group) (Call cr) Answer Broadcast where
  machine n := replicaMachine cr n
  request := Subtype.val
  receive := receive group
  emit := Answer.broadcast
  peers := getOthers group
  peers_nodup n := by
    unfold getOthers
    split
    · exact group.nodup.filter _
    · exact List.nodup_nil
  self_notMem n := by
    unfold getOthers
    split
    · simp
    · exact List.not_mem_nil

/-- The blocks a node applied, the oldest first. -/
abbrev FinalizedLogs := NodeIdentity → List Hash

/-- The logs after an answer. -/
def recordFinalized (logs : FinalizedLogs) (n : NodeIdentity) (a : Answer) : FinalizedLogs :=
  match a.applied with
  | some acc => Function.update logs n (logs n ++ [acc.hash])
  | none => logs

/-- The group with the logs of its run. -/
def finalizedMachine (cr : Crypto) (group : FullReplGroup) :
    Machine (Net NodeIdentity Handle Broadcast × FinalizedLogs)
      (NetAction NodeIdentity (ClientCall cr group)) (Option (NodeIdentity × Answer)) :=
  (chatNetwork cr group).withRecord recordFinalized

/-- A message to the other replicas. -/
def sentTo (group : FullReplGroup) (n : NodeIdentity) (body : Broadcast) :
    List (Packet NodeIdentity Broadcast) :=
  (getOthers group n).map fun dest => ⟨dest, n, body⟩

/-- The first proposal of a block that reaches a replica and passes its checks. -/
theorem deliver_proposal (cr : Crypto) {group : FullReplGroup} {nodes : NodeIdentity → Handle}
    {packets : List (Packet NodeIdentity Broadcast)} (logs : FinalizedLogs) {k : Nat}
    {dest origin : NodeIdentity} {number : BlockNumber} {block : Bytes}
    (hk : packets[k]? = some ⟨dest, origin, .sendBlock number block⟩)
    (hdate : (nodes dest).root.number ≤ number)
    (hnew : (nodes dest).voting (cr.blake3 block) = none)
    (hpasses : (nodes dest).Passes origin group number block { number }) :
    ((finalizedMachine cr group).step (⟨nodes, packets⟩, logs) (.deliver k)).1 =
      (⟨Function.update nodes dest ((nodes dest).insertVoting (cr.blake3 block)
          { number, yes := 2, proposal := .remoteBlock block }),
        packets.eraseIdx k ++ sentTo group dest (.voteBlock (cr.blake3 block) number true)⟩,
        logs) :=
  (chatNetwork cr group).withRecord_deliver recordFinalized (s := ⟨nodes, packets⟩) (g := logs) hk
    (answer_proposal_of_passes dest hdate hnew hpasses)

/-- The vote that decides a held block. -/
theorem deliver_vote (cr : Crypto) {group : FullReplGroup} {nodes : NodeIdentity → Handle}
    {packets : List (Packet NodeIdentity Broadcast)} (logs : FinalizedLogs) {k : Nat}
    {dest origin : NodeIdentity} {bn : BlockNumber} {hash : Hash} {e : BlockProposal}
    {votes : ReplVec Hash} {data : Bytes}
    (hk : packets[k]? = some ⟨dest, origin, .voteBlock hash bn true⟩)
    (hentry : (nodes dest).voting hash = some e) (hnumber : e.number = bn)
    (horigin : origin ∉ e.votes) (hpush : e.votes.push? origin = some votes)
    (hheld : e.proposal = .remoteBlock data) (hmajority : replicationFactor / 2 < e.yes + 1)
    (hfits : (nodes dest).root.bufferLen ≤ (nodes dest).blocks.length) :
    ∃ h, ((finalizedMachine cr group).step (⟨nodes, packets⟩, logs) (.deliver k)).1 =
      (⟨Function.update nodes dest h, packets.eraseIdx k⟩,
        Function.update logs dest (logs dest ++ [hash])) := by
  obtain ⟨h, hanswer⟩ := answer_vote_of_majority cr dest hentry hnumber horigin hpush hheld
    hmajority hfits
  have hstep := (chatNetwork cr group).withRecord_deliver recordFinalized
    (s := ⟨nodes, packets⟩) (g := logs) hk hanswer
  refine ⟨h, hstep.trans ?_⟩
  show ((⟨_, packets.eraseIdx k ++ []⟩ : Net NodeIdentity Handle Broadcast), _) = _
  rw [List.append_nil]
  rfl

/-! ## The blocks a replica holds -/

/-- No entry holds a block. -/
def Handle.NoBlocks (h : Handle) : Prop :=
  ∀ hash e, h.voting hash = some e → e.proposal = .absent

/-- No entry but that of `b` holds a block. -/
def Handle.OnlyBlock (h : Handle) (b : Hash) : Prop :=
  ∀ hash e, h.voting hash = some e → e.proposal = .absent ∨ hash = b

theorem Handle.NoBlocks.only {h : Handle} (hno : h.NoBlocks) (b : Hash) : h.OnlyBlock b :=
  fun hash e he => .inl (hno hash e he)

/-- The call makes the replica propose: the message is stored, brings the
buffer over the middle of a block, and the replica is the finalizer. -/
def Handle.Proposes (localPeerId : NodeIdentity) (h : Handle) : Call cr → Prop
  | .sendMessage currentMs group proof =>
      let stored := Handle.storeMessage h.log (Handle.messageOf proof)
      (h.spendAction currentMs proof).isOk = true ∧ stored.2.isOk = true ∧
        MustPropose localPeerId group h.root.bufferLen stored.1.root
  | _ => False

/-- A client call leaves the votes alone, or proposes one block. -/
theorem client_cases (localPeerId : NodeIdentity) {group : FullReplGroup} (h : Handle)
    {c : Call cr} (hclient : c.FromClient group) :
    (h.answer localPeerId c).2.accepted = none ∧
      (((h.answer localPeerId c).1.voting = h.voting ∧ (h.answer localPeerId c).2.NoBlock) ∨
        (h.Proposes localPeerId c ∧ localPeerId ∈ group ∧
          ∃ number block e, (h.answer localPeerId c).2.broadcast =
              some (.sendBlock number block) ∧
            (h.answer localPeerId c).1.voting =
              Function.update h.voting (cr.blake3 block) (some e))) := by
  cases answer_callStep localPeerId h c with
  | quiet hquiet hdate => exact ⟨hquiet.accepted, .inl ⟨hquiet.voting, hquiet.noBlock⟩⟩
  | failed hstore hvoting hroot hblocks hresult haccepted hnoBlock =>
      exact ⟨haccepted, .inl ⟨hvoting, hnoBlock⟩⟩
  | stored hstore hvoting hroot hblocks haccepted hunder hnoBlock =>
      exact ⟨haccepted, .inl ⟨hvoting, hnoBlock⟩⟩
  | @proposes currentMs group' proof _ log block hspend hstore hfin hsel hbroadcast hvoting hroot
      hblocks haccepted hresult =>
      obtain rfl : group' = group := hclient
      refine ⟨haccepted, .inr ⟨⟨hspend, ?_, ?_⟩, ?_, _, block, _, hbroadcast, hvoting⟩⟩
      · rw [hstore]
        rfl
      · rw [hstore]
        exact ⟨hfin, hsel⟩
      · rw [← hsel]
        exact selectFinalizer_mem _ _ _
  | refused hwaits => exact hclient.elim
  | counted hnumber horigin hpush hwaits => exact hclient.elim
  | decided hnumber horigin hpush hdecides => exact hclient.elim
  | judged hdate hentry hwaits => exact hclient.elim
  | finalized hdate hdecides => exact hclient.elim

/-- After a decision no block is held, if only the decided one was. -/
theorem Decides.noBlocks {h : Handle} {hash : Hash} {number : BlockNumber} {e : BlockProposal}
    {block : Except Bytes Nat} {r : Handle × Answer} (hdec : Decides h hash number e block r)
    (honly : h.OnlyBlock hash) : r.1.NoBlocks := by
  intro key p hp
  obtain ⟨hself, hother⟩ := hdec.voting_cases hp
  by_cases hkey : key = hash
  · exact hself hkey
  · exact (honly key p (hother hkey)).resolve_right hkey

/-- What comes from another replica is not answered with a block. -/
theorem receive_noBlock (cr : Crypto) (localPeerId : NodeIdentity) (h : Handle)
    (group : FullReplGroup)
    (origin : NodeIdentity) (body : Broadcast) :
    (h.answer localPeerId (receive group origin body : Call cr)).2.NoBlock := by
  cases body with
  | sendBlock number block =>
      have hcases :=
        answer_callStep localPeerId h (.proposal origin group number block : Call cr)
      cases hcases with
      | quiet hquiet hdate => exact hquiet.noBlock
      | judged hdate hentry hwaits => exact hwaits.noBlock
      | finalized hdate hdecides => exact hdecides.noBlock
  | voteBlock hash number agrees =>
      have hcases := answer_callStep localPeerId h (.vote origin number hash agrees : Call cr)
      cases hcases with
      | quiet hquiet hdate => exact hquiet.noBlock
      | refused hwaits => exact hwaits.noBlock
      | counted hnumber horigin hpush hwaits => exact hwaits.noBlock
      | decided hnumber horigin hpush hdecides => exact hdecides.noBlock

/-- The entry a call works on holds a block only if the table does. -/
theorem Handle.OnlyBlock.entryFor {h : Handle} {b : Hash} (honly : h.OnlyBlock b) (hash : Hash)
    (bn : BlockNumber) : (h.entryFor hash bn).proposal = .absent ∨ hash = b := by
  unfold Handle.entryFor
  cases he : h.voting hash with
  | none => exact .inl rfl
  | some e => exact honly hash e he

theorem Handle.NoBlocks.entryFor {h : Handle} (hno : h.NoBlocks) (hash : Hash)
    (bn : BlockNumber) : (h.entryFor hash bn).proposal = .absent := by
  unfold Handle.entryFor
  cases he : h.voting hash with
  | none => rfl
  | some e => exact hno hash e he

/-- Replacing an entry by one that holds what is allowed. -/
theorem Waits.onlyBlock {h : Handle} {b hash : Hash} {entry : Option BlockProposal}
    {r : Handle × Answer} (hwaits : Waits h hash entry r) (honly : h.OnlyBlock b)
    (hentry : ∀ e, entry = some e → e.proposal = .absent ∨ hash = b) : r.1.OnlyBlock b := by
  intro key p hp
  by_cases hkey : key = hash
  · rw [hkey, hwaits.voting_self] at hp
    rw [hkey]
    exact hentry p hp
  · rw [hwaits.voting_ne hkey] at hp
    exact honly key p hp

theorem Waits.noBlocks {h : Handle} {hash : Hash} {entry : Option BlockProposal}
    {r : Handle × Answer} (hwaits : Waits h hash entry r) (hno : h.NoBlocks)
    (hentry : ∀ e, entry = some e → e.proposal = .absent) : r.1.NoBlocks := by
  intro key p hp
  by_cases hkey : key = hash
  · rw [hkey, hwaits.voting_self] at hp
    exact hentry p hp
  · rw [hwaits.voting_ne hkey] at hp
    exact hno key p hp

/-- A vote leaves the held blocks as they are, or decides the one that is held. -/
theorem vote_blocks (localPeerId : NodeIdentity) {h : Handle} {b : Hash}
    (honly : h.OnlyBlock b) (origin : NodeIdentity) (bn : BlockNumber) (hash : Hash)
    (agrees : Bool) :
    let r := h.answer localPeerId (.vote origin bn hash agrees : Call cr)
    (r.2.accepted = none ∧ r.1.OnlyBlock b ∧ (h.NoBlocks → r.1.NoBlocks)) ∨
      ∃ a, r.2.accepted = some a ∧ a.hash = b ∧ r.1.NoBlocks ∧ ¬ h.NoBlocks := by
  intro r
  -- an entry that is not decided holds what it held
  have hkept : ∀ e, Waits h hash (some e) r → e.proposal = (h.entryFor hash bn).proposal →
      r.1.OnlyBlock b ∧ (h.NoBlocks → r.1.NoBlocks) := by
    intro e hwaits hsame
    refine ⟨hwaits.onlyBlock honly ?_, fun hno => hwaits.noBlocks hno ?_⟩
    · intro p hp
      obtain rfl := Option.some.inj hp
      rw [hsame]
      exact honly.entryFor hash bn
    · intro p hp
      obtain rfl := Option.some.inj hp
      rw [hsame]
      exact hno.entryFor hash bn
  have hcases := answer_callStep localPeerId h (.vote origin bn hash agrees : Call cr)
  cases hcases with
  | quiet hquiet hdate =>
      have hsame : r.1.voting = h.voting := hquiet.voting
      refine .inl ⟨hquiet.accepted, ?_, ?_⟩
      · unfold Handle.OnlyBlock
        rw [hsame]
        exact honly
      · unfold Handle.NoBlocks
        rw [hsame]
        exact id
  | refused hwaits => exact .inl ⟨hwaits.accepted, hkept _ hwaits rfl⟩
  | counted hnumber horigin hpush hwaits => exact .inl ⟨hwaits.accepted, hkept _ hwaits rfl⟩
  | decided hnumber horigin hpush hdecides =>
      have hheld : (h.entryFor hash bn).proposal ≠ .absent := by
        intro habsent
        have htaken := hdecides.taken
        rw [show (Handle.voted (h.entryFor hash bn) _ _).proposal = .absent from habsent] at htaken
        cases htaken
      obtain rfl := (honly.entryFor hash bn).resolve_left hheld
      exact .inr ⟨_, hdecides.accepted, rfl, hdecides.noBlocks honly,
        fun hno => hheld (hno.entryFor _ bn)⟩

/-- A proposal to a replica that holds nothing makes it hold the proposed block
at most, or decides that block. -/
theorem proposal_blocks (localPeerId : NodeIdentity) {h : Handle} (hno : h.NoBlocks)
    (origin : NodeIdentity) (group : FullReplGroup) (number : BlockNumber) (block : Bytes) :
    let r := h.answer localPeerId (.proposal origin group number block : Call cr)
    (r.2.accepted = none ∧ r.1.OnlyBlock (cr.blake3 block)) ∨
      ∃ a, r.2.accepted = some a ∧ a.hash = cr.blake3 block ∧ r.1.NoBlocks := by
  intro r
  have hcases := answer_callStep localPeerId h (.proposal origin group number block : Call cr)
  cases hcases with
  | quiet hquiet hdate =>
      have hsame : r.1.voting = h.voting := hquiet.voting
      refine .inl ⟨hquiet.accepted, ?_⟩
      unfold Handle.OnlyBlock
      rw [hsame]
      exact hno.only _
  | judged hdate hentry hwaits =>
      exact .inl ⟨hwaits.accepted, hwaits.onlyBlock (hno.only _) fun e he => .inr rfl⟩
  | finalized hdate hdecides =>
      exact .inr ⟨_, hdecides.accepted, rfl, hdecides.noBlocks (hno.only _)⟩

end OnionNetwork.Server
