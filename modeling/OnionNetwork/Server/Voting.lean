import OnionNetwork.Server.Log
import Mathlib.Data.List.Dedup

/-!
# Voting on blocks

`accept_block`, `vote`, `proposal` and `proposal_low`, followed by one case
lemma each (`acceptBlock_cases`, `vote_cases`, `proposal_cases`) that says
everything the call can do. Later modules argue from these lemmas and do not
open the handlers again.
-/

namespace OnionNetwork.Server

open Chat Lib

/-- What `accept_block` does to the log: a local block leaves the buffer, a
remote one is written in front of the buffered messages it does not contain.
The buffer length and the file left behind. -/
def spliceBlock (root : Root) (blocks : Bytes) : Except Bytes Nat → Except Fault (Nat × Bytes)
  | .ok size => do
      let bufferLen ← checkedSub root.bufferLen size
      .ok (bufferLen, blocks)
  | .error data =>
      match readBuffer root blocks with
      | .error e => .error (.chat e)
      | .ok (pos, buffer) =>
          let blocks := ByteFile.setLen blocks pos
          let lookup := unpackMessages data
          let buffer := retainMessagesInVec buffer fun message => !decide (message ∈ lookup)
          .ok (buffer.length, blocks ++ (data ++ buffer))

namespace Handle

/-- `Handle::accept_block`. The votes are pruned before the log is touched; the
root is stored only at the end. -/
def acceptBlock (h : Handle) (hash : Hash) (number : BlockNumber) (block : Except Bytes Nat) :
    Reply Unit :=
  let root := { h.root with number, latestBlock := hash }
  let h := { h with
    voting := fun key => (h.voting key).filter fun proposal => root.number ≤ proposal.number }
  let accepted := some { hash, number, block }
  match spliceBlock root h.blocks block with
  | .error e => { handle := h, result := .error e, accepted }
  | .ok (bufferLen, blocks) =>
      { handle := { h with root := { root with bufferLen }, blocks }, result := .ok (), accepted }

/-- `Handle::vote`. -/
def vote (h : Handle) (origin : NodeIdentity) (bn : BlockNumber) (hash : Hash) (agrees : Bool) :
    Reply Unit :=
  let proposal := (h.voting hash).getD { number := bn }
  let gate := do
    ensure (proposal.number = bn) .wrongBlockNumber
    ensure (origin ∉ proposal.votes) .alreadyVoted
  match gate with
  | .error e => { handle := h.insertVoting hash proposal, result := .error (.chat e) }
  | .ok () =>
      match proposal.votes.push? origin with
      | none => { handle := h.insertVoting hash proposal, result := .error .capacity }
      | some votes =>
          let proposal := { proposal with
            votes
            yes := proposal.yes + agrees.toNat
            no := proposal.no + (!agrees).toNat }
          let (proposal, decision) := proposal.tryResolve
          let h := h.insertVoting hash proposal
          match decision with
          | some (some block) => h.acceptBlock hash bn block
          | _ => { handle := h, result := .ok () }

/-- `Handle::proposal_low`: the entry left behind and the verdict. -/
def proposalLow (h : Handle) (origin : NodeIdentity) (group : FullReplGroup)
    (number : BlockNumber) (block : Bytes) (proposal : BlockProposal) (root : Root) :
    BlockProposal × Except ChatError Unit :=
  let gate := do
    ensure (proposal.proposal = Proposal.absent) .alreadyVoted
    ensure (origin ∉ proposal.votes) .alreadyVoted
    let selected := selectFinalizer root.latestBlock group (block.length + blockSize - 1)
    ensure (selected = origin) .wrongProposer
  match gate with
  | .error e => (proposal, .error e)
  | .ok () =>
      let proposal := { proposal with proposal := .remoteBlock block }
      let verdict := do
        ensure (proposal.number = number) .wrongBlockNumber
        let (_, buffer) ← readBuffer root h.blocks
        let proposed := (unpackMessages block).dedup
        let presentCount := (unpackMessages buffer).countP fun msg => msg ∈ proposed
        ensure (presentCount = proposed.length) .blockUnexpectedMessages
      (proposal, verdict)

/-- `Result::err`. -/
def errorOf {ε α : Type} : Except ε α → Option ε
  | .error e => some e
  | .ok _ => none

/-- `Handle::proposal`: the answer carries the hash and the local verdict, which
the caller broadcasts as its vote. -/
def proposal (cr : Crypto) (h : Handle) (origin : NodeIdentity) (group : FullReplGroup)
    (number : BlockNumber) (block : Bytes) : Reply (Hash × Option ChatError) :=
  let root := h.root
  if root.number ≤ number then
    let baseHash := cr.blake3 block
    let proposal := (h.voting baseHash).getD { number }
    let proposal := { proposal with yes := proposal.yes + 1 }
    let (proposal, res) := h.proposalLow origin group number block proposal root
    let proposal := { proposal with
      no := proposal.no + (errorOf res).isSome.toNat
      yes := proposal.yes + (errorOf res).isNone.toNat }
    let (proposal, decision) := proposal.tryResolve
    let h := h.insertVoting baseHash proposal
    let answer := (baseHash, errorOf res)
    match decision with
    | none => { handle := h, result := .ok answer }
    | some none => { handle := h.removeVoting baseHash, result := .ok answer }
    | some (some block) =>
        let reply := h.acceptBlock baseHash number block
        { reply with result := reply.result.map fun () => answer }
  else { handle := h, result := .error (.chat .outdatedBlockNumber) }

/-! ## What the calls do -/

/-- The entry a call for `hash` works on. -/
def entryFor (h : Handle) (hash : Hash) (number : BlockNumber) : BlockProposal :=
  (h.voting hash).getD { number }

/-- `proposal_low` keeps the block: none is held, the origin has not voted, and
it is the finalizer. -/
def Holds (h : Handle) (origin : NodeIdentity) (group : FullReplGroup) (block : Bytes)
    (e : BlockProposal) : Prop :=
  e.proposal = .absent ∧ origin ∉ e.votes ∧
    selectFinalizer h.root.latestBlock group (block.length + blockSize - 1) = origin

instance (h : Handle) (origin : NodeIdentity) (group : FullReplGroup) (block : Bytes)
    (e : BlockProposal) : Decidable (h.Holds origin group block e) :=
  inferInstanceAs (Decidable (_ ∧ _ ∧ _))

/-- The messages of the block against the messages of a buffer. -/
def MessagesPresent (block buffer : Bytes) : Prop :=
  ((unpackMessages buffer).countP fun msg => msg ∈ (unpackMessages block).dedup) =
    (unpackMessages block).dedup.length

instance (block buffer : Bytes) : Decidable (MessagesPresent block buffer) :=
  inferInstanceAs (Decidable (_ = _))

/-- Every check of `proposal_low`. -/
def Passes (h : Handle) (origin : NodeIdentity) (group : FullReplGroup) (number : BlockNumber)
    (block : Bytes) (e : BlockProposal) : Prop :=
  h.Holds origin group block e ∧ e.number = number ∧ h.root.bufferLen ≤ h.blocks.length ∧
    MessagesPresent block (h.blocks.drop (h.blocks.length - h.root.bufferLen))

instance (h : Handle) (origin : NodeIdentity) (group : FullReplGroup) (number : BlockNumber)
    (block : Bytes) (e : BlockProposal) : Decidable (h.Passes origin group number block e) :=
  inferInstanceAs (Decidable (_ ∧ _ ∧ _ ∧ _))

/-- A block cut from the front of a buffer of distinct messages is present in it. -/
theorem messagesPresent_of_append {front back : List Bytes}
    (hbound : logCode.Bounded (front ++ back)) (hnodup : (front ++ back).Nodup) :
    MessagesPresent (logCode.frames front) (logCode.frames (front ++ back)) := by
  have hfront : logCode.Bounded front :=
    hbound.subset fun p hp => List.mem_append_left _ hp
  obtain ⟨hnodupFront, -, hdisjoint⟩ := List.nodup_append.mp hnodup
  unfold MessagesPresent
  rw [unpackMessages_eq, unpackMessages_eq, logCode.unframe_frames hbound,
    logCode.unframe_frames hfront, List.countP_reverse, List.countP_append]
  have hdedup : front.reverse.dedup = front.reverse :=
    List.dedup_eq_self.mpr (List.nodup_reverse.mpr hnodupFront)
  have hall : front.countP (fun msg => decide (msg ∈ front.reverse.dedup)) = front.length := by
    refine List.countP_eq_length.mpr fun msg hmsg => ?_
    rw [hdedup, decide_eq_true_eq, List.mem_reverse]
    exact hmsg
  have hnone : back.countP (fun msg => decide (msg ∈ front.reverse.dedup)) = 0 := by
    refine List.countP_eq_zero.mpr fun msg hmsg => ?_
    rw [hdedup, decide_eq_true_eq, List.mem_reverse]
    intro hin
    exact hdisjoint msg hin msg hmsg rfl
  rw [hall, hnone, hdedup, List.length_reverse, Nat.add_zero]

/-- The entry after a counted vote. -/
def voted (e : BlockProposal) (votes : ReplVec Hash) (agrees : Bool) : BlockProposal :=
  { e with votes, yes := e.yes + agrees.toNat, no := e.no + (!agrees).toNat }

/-- The entry after a proposal: one yes for the call, one more or a no for the
local verdict, and the block if it is kept. -/
def proposed (h : Handle) (origin : NodeIdentity) (group : FullReplGroup)
    (number : BlockNumber) (block : Bytes) (e : BlockProposal) : BlockProposal :=
  { e with
    yes := e.yes + 1 + (decide (h.Passes origin group number block e)).toNat
    no := e.no + (!decide (h.Passes origin group number block e)).toNat
    proposal := if h.Holds origin group block e then .remoteBlock block else e.proposal }

end Handle

/-- `accept_block` prunes the votes below the accepted number and splices the
block; a failed splice changes nothing else. -/
theorem acceptBlock_cases (h : Handle) (hash : Hash) (number : BlockNumber)
    (block : Except Bytes Nat) :
    let r := h.acceptBlock hash number block
    r.accepted = some ⟨hash, number, block⟩ ∧
      r.handle.members = h.members ∧
      r.handle.discardedBytes = h.discardedBytes ∧
      r.handle.voting = (fun key => (h.voting key).filter fun p => number ≤ p.number) ∧
      ((∃ fault, spliceBlock h.root h.blocks block = .error fault ∧ r.result = .error fault ∧
          r.handle.root = h.root ∧ r.handle.blocks = h.blocks) ∨
        ∃ bufferLen blocks, spliceBlock h.root h.blocks block = .ok (bufferLen, blocks) ∧
          r.result = .ok () ∧ r.handle.blocks = blocks ∧
          r.handle.root = { h.root with number, latestBlock := hash, bufferLen }) := by
  have hroot : spliceBlock { h.root with number, latestBlock := hash } h.blocks block =
      spliceBlock h.root h.blocks block := by
    cases block <;> rfl
  simp only [Handle.acceptBlock, hroot]
  cases hs : spliceBlock h.root h.blocks block with
  | error fault => exact ⟨rfl, rfl, rfl, rfl, .inl ⟨fault, rfl, rfl, rfl, rfl⟩⟩
  | ok res => exact ⟨rfl, rfl, rfl, rfl, .inr ⟨res.1, res.2, rfl, rfl, rfl, rfl⟩⟩

/-- The decision: a held block with a majority of yes is taken, else a majority
of no rejects. -/
theorem tryResolve_cases (e : BlockProposal) :
    (∃ block, e.proposal.take = some block ∧ replicationFactor / 2 < e.yes ∧
        e.tryResolve = ({ e with proposal := .absent }, some (some block))) ∨
      ((e.proposal = .absent ∨ e.yes ≤ replicationFactor / 2) ∧
        e.tryResolve = (e, if replicationFactor / 2 < e.no then some none else none)) := by
  unfold BlockProposal.tryResolve
  by_cases hyes : e.yes > replicationFactor / 2
  · cases hp : e.proposal with
    | absent => exact .inr ⟨.inl rfl, by simp [hyes, Proposal.take]⟩
    | localBlock size => exact .inl ⟨.ok size, rfl, hyes, by simp [hyes, Proposal.take]⟩
    | remoteBlock data => exact .inl ⟨.error data, rfl, hyes, by simp [hyes, Proposal.take]⟩
  · exact .inr ⟨.inr (Nat.le_of_not_lt hyes), by simp [hyes]⟩

/-- A vote of a new voter at the right number is counted, and the counts decide. -/
theorem vote_counts {h : Handle} {origin : NodeIdentity} {bn : BlockNumber} {hash : Hash}
    {votes : ReplVec Hash} (agrees : Bool) (hnumber : (h.entryFor hash bn).number = bn)
    (horigin : origin ∉ (h.entryFor hash bn).votes)
    (hpush : (h.entryFor hash bn).votes.push? origin = some votes) :
    h.vote origin bn hash agrees =
      let (e, decision) := (Handle.voted (h.entryFor hash bn) votes agrees).tryResolve
      match decision with
      | some (some block) => (h.insertVoting hash e).acceptBlock hash bn block
      | _ => { handle := h.insertVoting hash e, result := .ok () } := by
  have hgate : (do
      ensure ((h.entryFor hash bn).number = bn) .wrongBlockNumber
      ensure (origin ∉ (h.entryFor hash bn).votes) .alreadyVoted :
        Except ChatError Unit) = .ok () := by
    rw [ensure_of hnumber, ensure_of horigin]
    rfl
  have hget : (h.voting hash).getD { number := bn } = h.entryFor hash bn := rfl
  simp only [Handle.vote, hget]
  rw [hgate]
  simp only [hpush]
  rfl

/-- Everything a `vote` can do: fail and at most create the entry, count the
vote, or count it and accept the held block. -/
theorem vote_cases (h : Handle) (origin : NodeIdentity) (bn : BlockNumber) (hash : Hash)
    (agrees : Bool) :
    let e := h.entryFor hash bn
    (∃ fault, fault ≠ .underflow ∧ h.vote origin bn hash agrees =
        { handle := h.insertVoting hash e, result := .error fault }) ∨
      ∃ votes, e.number = bn ∧ origin ∉ e.votes ∧ e.votes.push? origin = some votes ∧
        let e' := Handle.voted e votes agrees
        ((e'.proposal = .absent ∨ e'.yes ≤ replicationFactor / 2) ∧
            h.vote origin bn hash agrees =
              { handle := h.insertVoting hash e', result := .ok () }) ∨
          ∃ block, e'.proposal.take = some block ∧ replicationFactor / 2 < e'.yes ∧
            h.vote origin bn hash agrees =
              (h.insertVoting hash { e' with proposal := .absent }).acceptBlock hash bn block := by
  intro e
  have he : (h.voting hash).getD { number := bn } = e := rfl
  cases hgate : (do
      ensure (e.number = bn) .wrongBlockNumber
      ensure (origin ∉ e.votes) .alreadyVoted : Except ChatError Unit) with
  | error err =>
      refine .inl ⟨.chat err, ?_, by simp only [Handle.vote, he, hgate]⟩
      intro h
      cases h
  | ok u =>
      obtain ⟨hnumber, hvoted⟩ : e.number = bn ∧ origin ∉ e.votes := by
        simpa only [bind_eq_ok, ensure_eq_ok, exists_const] using hgate
      cases hpush : e.votes.push? origin with
      | none =>
          refine .inl ⟨.capacity, ?_, by simp only [Handle.vote, he, hgate, hpush]⟩
          intro h
          cases h
      | some votes =>
          refine .inr ⟨votes, hnumber, hvoted, rfl, ?_⟩
          rw [vote_counts agrees hnumber hvoted hpush]
          rcases tryResolve_cases (Handle.voted e votes agrees) with
            ⟨block, htake, hyes, hres⟩ | ⟨hopen, hres⟩
          · exact .inr ⟨block, htake, hyes, by rw [hres]⟩
          · refine .inl ⟨hopen, ?_⟩
            rw [hres]
            by_cases hno : replicationFactor / 2 < (Handle.voted e votes agrees).no
            · rw [if_pos hno]
            · rw [if_neg hno]

/-- `proposal_low` in terms of its two predicates: what it keeps and when it
agrees. -/
theorem proposalLow_cases (h : Handle) (origin : NodeIdentity) (group : FullReplGroup)
    (number : BlockNumber) (block : Bytes) (e : BlockProposal) :
    (h.proposalLow origin group number block e h.root).1 =
        { e with proposal := if h.Holds origin group block e then .remoteBlock block
                             else e.proposal } ∧
      ((h.proposalLow origin group number block e h.root).2 = .ok () ↔
        h.Passes origin group number block e) := by
  unfold Handle.proposalLow
  cases hgate : (do
      ensure (e.proposal = Proposal.absent) .alreadyVoted
      ensure (origin ∉ e.votes) .alreadyVoted
      let selected := selectFinalizer h.root.latestBlock group (block.length + blockSize - 1)
      ensure (selected = origin) .wrongProposer : Except ChatError Unit) with
  | error err =>
      have hnot : ¬ h.Holds origin group block e := by
        rintro ⟨habsent, hvotes, hselected⟩
        simp [habsent, hvotes, hselected, ensure_of, bind, Except.bind] at hgate
      exact ⟨by rw [if_neg hnot], nofun, fun hpass => absurd hpass.1 hnot⟩
  | ok u =>
      have hholds : h.Holds origin group block e := by
        simpa [bind_eq_ok, Handle.Holds] using hgate
      refine ⟨by rw [if_pos hholds], ?_⟩
      simp only [Handle.Passes, Handle.MessagesPresent, hholds, true_and, bind_eq_ok,
        ensure_eq_ok, exists_const]
      refine and_congr_right fun _ => ?_
      by_cases hle : h.root.bufferLen ≤ h.blocks.length
      · simp [readBuffer_of_le hle, hle]
      · simp [readBuffer_of_lt (Nat.lt_of_not_le hle), hle]

/-- The vote counted for a verdict. -/
theorem errorOf_counts {ε : Type} {res : Except ε Unit} {p : Prop} [Decidable p]
    (h : res = .ok () ↔ p) :
    (Handle.errorOf res = none ↔ p) ∧ (Handle.errorOf res).isNone = decide p ∧
      (Handle.errorOf res).isSome = !decide p := by
  cases res with
  | error err =>
      have hp : ¬ p := fun hp => nomatch h.mpr hp
      simp [Handle.errorOf, hp]
  | ok u =>
      have hp : p := h.mp rfl
      simp [Handle.errorOf, hp]

/-- Everything a `proposal` can do: reject an outdated number, or work the
proposal into the entry and leave it, drop it, or accept the held block. -/
theorem proposal_cases (cr : Crypto) (h : Handle) (origin : NodeIdentity)
    (group : FullReplGroup) (number : BlockNumber) (block : Bytes) :
    let r := h.proposal cr origin group number block
    let hash := cr.blake3 block
    let e := h.proposed origin group number block (h.entryFor hash number)
    (number < h.root.number ∧
        r = { handle := h, result := .error (.chat .outdatedBlockNumber) }) ∨
      (h.root.number ≤ number ∧ ∃ err,
        (err = none ↔ h.Passes origin group number block (h.entryFor hash number)) ∧
        (((e.proposal = .absent ∨ e.yes ≤ replicationFactor / 2) ∧
            ((e.no ≤ replicationFactor / 2 ∧
                r = { handle := h.insertVoting hash e, result := .ok (hash, err) }) ∨
              (replicationFactor / 2 < e.no ∧
                r = { handle := h.removeVoting hash, result := .ok (hash, err) }))) ∨
          ∃ held, e.proposal.take = some held ∧ replicationFactor / 2 < e.yes ∧
            let a := (h.insertVoting hash { e with proposal := .absent }).acceptBlock
              hash number held
            r = { a with result := a.result.map fun () => (hash, err) })) := by
  intro r hash e
  by_cases hnumber : h.root.number ≤ number
  · refine .inr ⟨hnumber, ?_⟩
    have hhash : cr.blake3 block = hash := rfl
    have hentry : (h.voting hash).getD { number } = h.entryFor hash number := rfl
    simp only [r, Handle.proposal, if_pos hnumber, hhash, hentry]
    set e₀ : BlockProposal := h.entryFor hash number
    obtain ⟨hkept, hverdict⟩ := proposalLow_cases h origin group number block
      { e₀ with yes := e₀.yes + 1 }
    -- the vote that is counted first is not what the checks look at
    have hpasses : h.Passes origin group number block { e₀ with yes := e₀.yes + 1 } ↔
        h.Passes origin group number block e₀ := Iff.rfl
    obtain ⟨herr, hyes, hno⟩ := errorOf_counts (hverdict.trans hpasses)
    refine ⟨_, herr, ?_⟩
    have he : ({ e₀ with
        yes := e₀.yes + 1 + (decide (h.Passes origin group number block e₀)).toNat
        no := e₀.no + (!decide (h.Passes origin group number block e₀)).toNat
        proposal := if h.Holds origin group block { e₀ with yes := e₀.yes + 1 } then
          .remoteBlock block else e₀.proposal } : BlockProposal) = e := rfl
    rw [hkept, hyes, hno]
    simp only [he]
    rcases tryResolve_cases e with ⟨held, htake, hmaj, hres⟩ | ⟨hopen, hres⟩
    · exact .inr ⟨held, htake, hmaj, by rw [hres]⟩
    · refine .inl ⟨hopen, ?_⟩
      rw [hres]
      by_cases hrej : replicationFactor / 2 < e.no
      · exact .inr ⟨hrej, by simp [hrej]⟩
      · exact .inl ⟨Nat.le_of_not_lt hrej, by simp [hrej]⟩
  · exact .inl ⟨Nat.lt_of_not_le hnumber, by simp only [r, Handle.proposal, if_neg hnumber]⟩

/-- The first proposal of a block, if it passes, counts for its proposer and for
this replica. -/
theorem proposal_of_passes (cr : Crypto) {h : Handle} {origin : NodeIdentity}
    {group : FullReplGroup} {number : BlockNumber} {block : Bytes}
    (hdate : h.root.number ≤ number) (hnew : h.voting (cr.blake3 block) = none)
    (hpasses : h.Passes origin group number block { number }) :
    h.proposal cr origin group number block =
      { handle := h.insertVoting (cr.blake3 block)
          { number, yes := 2, proposal := .remoteBlock block }
        result := .ok (cr.blake3 block, none) } := by
  have hentry : h.entryFor (cr.blake3 block) number = { number } := by
    rw [Handle.entryFor, hnew]
    rfl
  have hproposed : h.proposed origin group number block { number } =
      { number, yes := 2, proposal := .remoteBlock block } := by
    unfold Handle.proposed
    rw [decide_eq_true hpasses, if_pos hpasses.1]
    rfl
  rcases proposal_cases cr h origin group number block with
    ⟨hlt, -⟩ | ⟨-, err, herr, hcases⟩
  · exact absurd hdate (Nat.not_le.mpr hlt)
  · rw [hentry, hproposed] at hcases
    rw [hentry] at herr
    obtain rfl := herr.mpr hpasses
    rcases hcases with ⟨-, ⟨-, hreply⟩ | ⟨hno, -⟩⟩ | ⟨held, -, hmajority, -⟩
    · exact hreply
    · exact absurd hno (Nat.not_lt.mpr (Nat.zero_le _))
    · exact absurd hmajority (Nat.lt_irrefl 2)

/-- A vote that completes a majority for a held block. -/
theorem vote_of_majority {h : Handle} {origin : NodeIdentity} {bn : BlockNumber} {hash : Hash}
    {e : BlockProposal} {votes : ReplVec Hash} {block : Except Bytes Nat}
    (hentry : h.voting hash = some e) (hnumber : e.number = bn) (horigin : origin ∉ e.votes)
    (hpush : e.votes.push? origin = some votes) (htaken : e.proposal.take = some block)
    (hmajority : replicationFactor / 2 < e.yes + 1) :
    h.vote origin bn hash true =
      (h.insertVoting hash { Handle.voted e votes true with
        proposal := .absent }).acceptBlock hash bn block := by
  obtain rfl : h.entryFor hash bn = e := by rw [Handle.entryFor, hentry]; rfl
  rw [vote_counts true hnumber horigin hpush]
  rcases tryResolve_cases (Handle.voted (h.entryFor hash bn) votes true) with
    ⟨held, htake, -, hres⟩ | ⟨habsent | hle, -⟩
  · obtain rfl := Option.some.inj (htaken.symm.trans htake)
    rw [hres]
  · rw [show (h.entryFor hash bn).proposal = .absent from habsent] at htaken
    cases htaken
  · exact absurd hmajority (Nat.not_lt.mpr hle)

/-- A vote that completes no majority is counted. -/
theorem vote_of_minority {h : Handle} {origin : NodeIdentity} {bn : BlockNumber} {hash : Hash}
    {e : BlockProposal} {votes : ReplVec Hash} (hentry : h.voting hash = some e)
    (hnumber : e.number = bn) (horigin : origin ∉ e.votes)
    (hpush : e.votes.push? origin = some votes) (hminority : e.yes + 1 ≤ replicationFactor / 2) :
    h.vote origin bn hash true =
      { handle := h.insertVoting hash (Handle.voted e votes true), result := .ok () } := by
  obtain rfl : h.entryFor hash bn = e := by rw [Handle.entryFor, hentry]; rfl
  rw [vote_counts true hnumber horigin hpush]
  rcases tryResolve_cases (Handle.voted (h.entryFor hash bn) votes true) with
    ⟨held, -, hyes, -⟩ | ⟨-, hres⟩
  · exact absurd hyes (Nat.not_lt.mpr hminority)
  · rw [hres]
    by_cases hno : replicationFactor / 2 < (Handle.voted (h.entryFor hash bn) votes true).no
    · rw [if_pos hno]
    · rw [if_neg hno]

/-- A remote block can be spliced into any file that holds its buffer. -/
theorem spliceBlock_remote {root : Root} {blocks : Bytes}
    (h : root.bufferLen ≤ blocks.length) (data : Bytes) :
    ∃ spliced, spliceBlock root blocks (.error data) = .ok spliced := by
  simp only [spliceBlock, readBuffer_of_le h]
  exact ⟨_, rfl⟩

end OnionNetwork.Server
