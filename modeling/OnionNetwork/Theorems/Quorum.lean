import OnionNetwork.Theorems.LogAlignment
import Mathlib.Data.Finset.Card

/-!
# Who stands behind an accepted block

`accepted_by_quorum`: three distinct nodes of the group endorsed every block
that is accepted, in every run whose calls are counted once (`CountsOnce`). The
code counts a proposal before it checks it, keeps the proposer out of the
voters, and takes votes from anybody in the group, itself included, so outside
of these conditions one node is counted several times.

The run is instrumented with the nodes that endorsed each block. What carries
the induction is that the yes counter of an entry counts distinct endorsers
(`Tallied`); once a block has its three, nothing about its entry matters.
-/

namespace OnionNetwork.Server

open Chat Lib

variable {cr : Crypto}

/-- The nodes that endorse a block by a call: a voter that agrees, a proposer
whose proposal passes every check together with the local node that checked it,
and the local node when it proposes the block itself. -/
def Handle.endorsedBy (localPeerId : NodeIdentity) (h : Handle) (c : Call cr) (hash : Hash) :
    Finset NodeIdentity :=
  match c with
  | .proposal origin group number block =>
      if cr.blake3 block = hash ∧ h.root.number ≤ number ∧
          h.Passes origin group number block (h.entryFor hash number) then
        {origin, localPeerId}
      else ∅
  | .vote origin _ voted agrees => if voted = hash ∧ agrees = true then {origin} else ∅
  | c =>
      match (h.answer localPeerId c).2.broadcast with
      | some (.sendBlock _ block) => if cr.blake3 block = hash then {localPeerId} else ∅
      | _ => ∅

/-- Who proposed a block last: nobody but this replica, if it did itself. -/
def Handle.lastProposer (localPeerId : NodeIdentity) (h : Handle)
    (proposer : Hash → Option NodeIdentity) (c : Call cr) : Hash → Option NodeIdentity :=
  match c with
  | .proposal origin _ number block =>
      if h.root.number ≤ number then Function.update proposer (cr.blake3 block) (some origin)
      else proposer
  | .vote _ _ _ _ => proposer
  | c =>
      match (h.answer localPeerId c).2.broadcast with
      | some (.sendBlock _ block) => Function.update proposer (cr.blake3 block) none
      | _ => proposer

/-- What a run remembers about the blocks: who endorsed each, and who proposed
it last. -/
structure Endorsements where
  endorsers : Hash → Finset NodeIdentity
  proposer : Hash → Option NodeIdentity

/-- Nothing proposed, nothing endorsed. -/
def Endorsements.empty : Endorsements := ⟨fun _ => ∅, fun _ => none⟩

/-- The endorsements after a call. -/
def recordEndorsements (localPeerId : NodeIdentity) (g : Endorsements) (h : Handle)
    (c : Call cr) : Endorsements where
  endorsers hash := g.endorsers hash ∪ h.endorsedBy localPeerId c hash
  proposer := h.lastProposer localPeerId g.proposer c

/-- The replica with the endorsements of its run. -/
def endorsedMachine (cr : Crypto) (localPeerId : NodeIdentity) :
    Machine (Handle × Endorsements) (Call cr) Answer :=
  (replicaMachine cr localPeerId).withGhost (recordEndorsements localPeerId)

/-- The proposals and votes come from the group. -/
def Call.FromGroup (group : FullReplGroup) : Call cr → Prop
  | .proposal origin _ _ _ => origin ∈ group
  | .vote origin _ _ _ => origin ∈ group
  | _ => True

/-- The call is counted for one node only: a proposal in date passes every
check and is not the own one; a vote that agrees is neither the own one nor, if
the block is held, that of its proposer. -/
def Handle.CountsOnce (localPeerId : NodeIdentity) (h : Handle)
    (proposer : Hash → Option NodeIdentity) : Call cr → Prop
  | .proposal origin group number block =>
      h.root.number ≤ number →
        h.Passes origin group number block (h.entryFor (cr.blake3 block) number) ∧
          origin ≠ localPeerId
  | .vote origin bn hash agrees =>
      agrees = true → origin ≠ localPeerId ∧
        ((h.entryFor hash bn).proposal ≠ .absent → proposer hash ≠ some origin)
  | _ => True

instance (localPeerId : NodeIdentity) (h : Handle) (proposer : Hash → Option NodeIdentity) :
    (c : Call cr) → Decidable (h.CountsOnce localPeerId proposer c)
  | .proposal _ _ _ _ => inferInstanceAs (Decidable (_ → _ ∧ _))
  | .vote _ _ _ _ => inferInstanceAs (Decidable (_ → _ ∧ (_ → _)))
  | .addMember _ _ _ _ | .updateMember _ _ _ | .kickMember _ _ _ | .sendMessage _ _ _ =>
      inferInstanceAs (Decidable True)

instance (group : FullReplGroup) : (c : Call cr) → Decidable (c.FromGroup group)
  | .proposal origin _ _ _ => inferInstanceAs (Decidable (origin ∈ group))
  | .vote origin _ _ _ => inferInstanceAs (Decidable (origin ∈ group))
  | .addMember _ _ _ _ | .updateMember _ _ _ | .kickMember _ _ _ | .sendMessage _ _ _ =>
      inferInstanceAs (Decidable True)

/-- The yes counter counts distinct endorsers: voters, and if a block is held,
its proposer and the local node. -/
def Tallied (localPeerId : NodeIdentity) (endorsers : Finset NodeIdentity)
    (proposer : Option NodeIdentity) (e : BlockProposal) : Prop :=
  ∃ counted ⊆ endorsers, e.yes ≤ counted.card ∧
    (∀ n ∈ counted, n ∈ e.votes ∨ n = localPeerId ∨ proposer = some n) ∧
    (e.proposal = .absent → ∀ n ∈ counted, n ∈ e.votes ∧ n ≠ localPeerId)

section Tallied

variable {localPeerId : NodeIdentity} {endorsers endorsers' : Finset NodeIdentity}
  {proposer : Option NodeIdentity} {e : BlockProposal}

theorem Tallied.mono (h : Tallied localPeerId endorsers proposer e)
    (hsub : endorsers ⊆ endorsers') : Tallied localPeerId endorsers' proposer e := by
  obtain ⟨counted, hcounted, hrest⟩ := h
  exact ⟨counted, hcounted.trans hsub, hrest⟩

/-- A majority of yes is three endorsers. -/
theorem Tallied.quorum (h : Tallied localPeerId endorsers proposer e)
    (hmajority : replicationFactor / 2 < e.yes) : 3 ≤ endorsers.card := by
  obtain ⟨counted, hcounted, hyes, -⟩ := h
  have hcard := Finset.card_le_card hcounted
  have hthree : 3 ≤ e.yes := hmajority
  omega

/-- Nobody is counted in a new entry. -/
theorem tallied_new (localPeerId : NodeIdentity) (endorsers : Finset NodeIdentity)
    (proposer : Option NodeIdentity) (number : BlockNumber) :
    Tallied localPeerId endorsers proposer { number } :=
  ⟨∅, Finset.empty_subset _, Nat.le_refl _, nofun, fun _ => nofun⟩

/-- A block of this replica counts this replica. -/
theorem tallied_local (hlocal : localPeerId ∈ endorsers) (proposer : Option NodeIdentity)
    (number size : Nat) :
    Tallied localPeerId endorsers proposer
      { number, yes := 1, proposal := .localBlock size } := by
  refine ⟨{localPeerId}, Finset.singleton_subset_iff.mpr hlocal, Nat.le_refl _, ?_, nofun⟩
  intro n hn
  exact .inr (.inl (Finset.mem_singleton.mp hn))

/-- A counted vote adds a node that was not counted before. -/
theorem Tallied.voted (h : Tallied localPeerId endorsers proposer e) {origin : NodeIdentity}
    {votes : ReplVec Hash} {agrees : Bool} (horigin : origin ∉ e.votes)
    (hpush : e.votes.push? origin = some votes)
    (honce : agrees = true → origin ≠ localPeerId ∧
      (e.proposal ≠ .absent → proposer ≠ some origin))
    (hmem : agrees = true → origin ∈ endorsers) :
    Tallied localPeerId endorsers proposer (Handle.voted e votes agrees) := by
  obtain ⟨counted, hcounted, hyes, hwho, habsent⟩ := h
  have hvotes : ∀ n, n ∈ e.votes → n ∈ votes := fun n hn =>
    (ArrayVec.mem_of_push?_eq_some hpush).mpr (.inl hn)
  have hself : origin ∈ votes := (ArrayVec.mem_of_push?_eq_some hpush).mpr (.inr rfl)
  cases agrees with
  | false =>
      refine ⟨counted, hcounted, hyes, ?_, ?_⟩
      · intro n hn
        exact (hwho n hn).imp_left (hvotes n)
      · intro habs n hn
        exact (habsent habs n hn).imp_left (hvotes n)
  | true =>
      obtain ⟨hnotLocal, hnotProposer⟩ := honce rfl
      -- the voter is none of those counted so far
      have hnew : origin ∉ counted := by
        intro hin
        by_cases habs : e.proposal = .absent
        · exact horigin (habsent habs origin hin).1
        · rcases hwho origin hin with hvoted | hlocal | hproposed
          · exact horigin hvoted
          · exact hnotLocal hlocal
          · exact hnotProposer habs hproposed
      refine ⟨insert origin counted, Finset.insert_subset (hmem rfl) hcounted, ?_, ?_, ?_⟩
      · rw [Finset.card_insert_of_notMem hnew]
        exact Nat.add_le_add_right hyes 1
      · intro n hn
        rcases Finset.mem_insert.mp hn with rfl | hn
        · exact .inl hself
        · exact (hwho n hn).imp_left (hvotes n)
      · intro habs n hn
        rcases Finset.mem_insert.mp hn with rfl | hn
        · exact ⟨hself, hnotLocal⟩
        · exact (habsent habs n hn).imp_left (hvotes n)

/-- A proposal that passes adds its proposer and this replica. -/
theorem Tallied.proposed {h : Handle} (htallied : Tallied localPeerId endorsers proposer e)
    {origin : NodeIdentity} {group : FullReplGroup} {number : BlockNumber} {block : Bytes}
    (hpasses : h.Passes origin group number block e) (hne : origin ≠ localPeerId)
    (hsub : {origin, localPeerId} ⊆ endorsers) :
    Tallied localPeerId endorsers (some origin) (h.proposed origin group number block e) := by
  obtain ⟨counted, hcounted, hyes, -, habsent⟩ := htallied
  obtain ⟨habs, horigin, -⟩ := hpasses.1
  have hlocal : localPeerId ∉ counted := fun hin => (habsent habs _ hin).2 rfl
  have hnew : origin ∉ insert localPeerId counted := by
    intro hin
    rcases Finset.mem_insert.mp hin with heq | hin
    · exact hne heq
    · exact horigin (habsent habs _ hin).1
  refine ⟨insert origin (insert localPeerId counted), ?_, ?_, ?_, ?_⟩
  · have hboth := Finset.insert_subset_iff.mp hsub
    exact Finset.insert_subset hboth.1
      (Finset.insert_subset (Finset.singleton_subset_iff.mp hboth.2) hcounted)
  · rw [Finset.card_insert_of_notMem hnew, Finset.card_insert_of_notMem hlocal]
    show e.yes + 1 + (decide (h.Passes origin group number block e)).toNat ≤ _
    rw [decide_eq_true hpasses]
    exact Nat.add_le_add_right (Nat.add_le_add_right hyes 1) 1
  · intro n hn
    rcases Finset.mem_insert.mp hn with rfl | hn
    · exact .inr (.inr rfl)
    · rcases Finset.mem_insert.mp hn with rfl | hn
      · exact .inr (.inl rfl)
      · exact .inl (habsent habs n hn).1
  · intro hheld
    have hremote : (h.proposed origin group number block e).proposal = .remoteBlock block :=
      if_pos hpasses.1
    cases hremote.symm.trans hheld

end Tallied

/-- The endorsers are nodes of the group, and every entry of a block that lacks
its three is tallied. -/
structure QuorumInv (localPeerId : NodeIdentity) (group : FullReplGroup) (h : Handle)
    (g : Endorsements) : Prop where
  members : ∀ hash, ∀ n ∈ g.endorsers hash, n ∈ group
  tallied : ∀ hash, 3 ≤ (g.endorsers hash).card ∨ ∀ e, h.voting hash = some e →
    Tallied localPeerId (g.endorsers hash) (g.proposer hash) e

/-- Only nodes of the group endorse. -/
theorem endorsedBy_mem {localPeerId : NodeIdentity} {group : FullReplGroup} {h : Handle}
    {c : Call cr} {hash : Hash} (hlocal : localPeerId ∈ group) (hfrom : c.FromGroup group) :
    ∀ n ∈ h.endorsedBy localPeerId c hash, n ∈ group := by
  have hone : ∀ n, n ∈ ({localPeerId} : Finset NodeIdentity) → n ∈ group := by
    intro n hn
    rw [Finset.mem_singleton.mp hn]
    exact hlocal
  have hsent : ∀ n ∈ (match (h.answer localPeerId c).2.broadcast with
      | some (.sendBlock _ block) => if cr.blake3 block = hash then {localPeerId} else ∅
      | _ => (∅ : Finset NodeIdentity)), n ∈ group := by
    intro n hn
    split at hn
    · split at hn
      · exact hone n hn
      · cases Finset.notMem_empty n hn
    · cases Finset.notMem_empty n hn
  intro n hn
  cases c with
  | proposal origin group' number block =>
      simp only [Handle.endorsedBy] at hn
      split at hn
      · rcases Finset.mem_insert.mp hn with rfl | hn
        · exact hfrom
        · exact hone n hn
      · cases Finset.notMem_empty n hn
  | vote origin bn voted agrees =>
      simp only [Handle.endorsedBy] at hn
      split at hn
      · rw [Finset.mem_singleton.mp hn]
        exact hfrom
      · cases Finset.notMem_empty n hn
  | addMember currentMs proof id member => exact hsent n hn
  | updateMember proof id member => exact hsent n hn
  | kickMember currentMs proof id => exact hsent n hn
  | sendMessage currentMs group' proof => exact hsent n hn

/-- Without a proposal in date nobody proposes. -/
theorem lastProposer_of_noBlock {localPeerId : NodeIdentity} {h : Handle} {c : Call cr}
    (proposer : Hash → Option NodeIdentity)
    (hdate : ∀ origin group number block, c = .proposal origin group number block →
      number < h.root.number)
    (hno : (h.answer localPeerId c).2.NoBlock) :
    h.lastProposer localPeerId proposer c = proposer := by
  have hsent : (match (h.answer localPeerId c).2.broadcast with
      | some (.sendBlock _ block) => Function.update proposer (cr.blake3 block) none
      | _ => proposer) = proposer := by
    split
    · rename_i number block hsend
      exact absurd hsend (hno number block)
    · rfl
  cases c with
  | proposal origin group number block =>
      exact if_neg (Nat.not_le.mpr (hdate origin group number block rfl))
  | vote origin bn voted agrees => rfl
  | addMember currentMs proof id member => exact hsent
  | updateMember proof id member => exact hsent
  | kickMember currentMs proof id => exact hsent
  | sendMessage currentMs group proof => exact hsent

namespace QuorumInv

variable {localPeerId : NodeIdentity} {group : FullReplGroup} {h : Handle} {g : Endorsements}

/-- The entry a call works on is tallied. -/
theorem entryFor (hinv : QuorumInv localPeerId group h g) (hash : Hash) (bn : BlockNumber) :
    3 ≤ (g.endorsers hash).card ∨
      Tallied localPeerId (g.endorsers hash) (g.proposer hash) (h.entryFor hash bn) := by
  refine (hinv.tallied hash).imp_right fun htallied => ?_
  unfold Handle.entryFor
  cases he : h.voting hash with
  | none => exact tallied_new _ _ _ _
  | some e => exact htallied e he

/-- The entry after a vote that is counted once. -/
theorem voted (hinv : QuorumInv localPeerId group h g) {origin : NodeIdentity}
    {bn : BlockNumber} {hash : Hash} {agrees : Bool} {votes : ReplVec Hash}
    (honce : h.CountsOnce localPeerId g.proposer (.vote origin bn hash agrees : Call cr))
    (horigin : origin ∉ (h.entryFor hash bn).votes)
    (hpush : (h.entryFor hash bn).votes.push? origin = some votes) :
    3 ≤ (g.endorsers hash).card ∨
      Tallied localPeerId
        (g.endorsers hash ∪
          h.endorsedBy localPeerId (.vote origin bn hash agrees : Call cr) hash)
        (g.proposer hash) (Handle.voted (h.entryFor hash bn) votes agrees) := by
  refine (hinv.entryFor hash bn).imp_right fun htallied => ?_
  refine (htallied.mono Finset.subset_union_left).voted horigin hpush honce ?_
  intro hagrees
  apply Finset.mem_union_right
  show origin ∈ (if hash = hash ∧ agrees = true then {origin} else (∅ : Finset NodeIdentity))
  rw [if_pos ⟨rfl, hagrees⟩]
  exact Finset.mem_singleton_self origin

/-- The entry after a proposal that passes. -/
theorem proposed (hinv : QuorumInv localPeerId group h g) {origin : NodeIdentity}
    {group' : FullReplGroup} {number : BlockNumber} {block : Bytes}
    (hdate : h.root.number ≤ number)
    (honce : h.CountsOnce localPeerId g.proposer
      (.proposal origin group' number block : Call cr)) :
    3 ≤ (g.endorsers (cr.blake3 block)).card ∨
      Tallied localPeerId
        (g.endorsers (cr.blake3 block) ∪
          h.endorsedBy localPeerId (.proposal origin group' number block : Call cr)
            (cr.blake3 block))
        (some origin)
        (h.proposed origin group' number block (h.entryFor (cr.blake3 block) number)) := by
  obtain ⟨hpasses, hne⟩ := honce hdate
  refine (hinv.entryFor (cr.blake3 block) number).imp_right fun htallied => ?_
  refine (htallied.mono Finset.subset_union_left).proposed hpasses hne ?_
  have hendorsed : h.endorsedBy localPeerId (.proposal origin group' number block : Call cr)
      (cr.blake3 block) = {origin, localPeerId} := if_pos ⟨rfl, hdate, hpasses⟩
  rw [hendorsed]
  exact Finset.subset_union_right

/-- A call that touches the entry of one block has to keep that entry tallied. -/
theorem touch (hinv : QuorumInv localPeerId group h g) (hlocal : localPeerId ∈ group)
    {c : Call cr} (hfrom : c.FromGroup group) (hash : Hash) {h' : Handle}
    (hkept : ∀ key, key ≠ hash → ∀ p, h'.voting key = some p → h.voting key = some p)
    (hproposer : ∀ key, key ≠ hash →
      h.lastProposer localPeerId g.proposer c key = g.proposer key)
    (hat : 3 ≤ (g.endorsers hash ∪ h.endorsedBy localPeerId c hash).card ∨
      ∀ e, h'.voting hash = some e →
        Tallied localPeerId (g.endorsers hash ∪ h.endorsedBy localPeerId c hash)
          (h.lastProposer localPeerId g.proposer c hash) e) :
    QuorumInv localPeerId group h' (recordEndorsements localPeerId g h c) := by
  refine ⟨?_, ?_⟩
  · intro key n hn
    rcases Finset.mem_union.mp hn with hold | hnew
    · exact hinv.members key n hold
    · exact endorsedBy_mem hlocal hfrom n hnew
  · intro key
    by_cases hkey : key = hash
    · rw [hkey]
      exact hat
    · have hgrow : g.endorsers key ⊆ g.endorsers key ∪ h.endorsedBy localPeerId c key :=
        Finset.subset_union_left
      rcases hinv.tallied key with hthree | htallied
      · exact .inl (hthree.trans (Finset.card_le_card hgrow))
      · right
        intro e he
        show Tallied localPeerId (g.endorsers key ∪ h.endorsedBy localPeerId c key)
          (h.lastProposer localPeerId g.proposer c key) e
        rw [hproposer key hkey]
        exact (htallied e (hkept key hkey e he)).mono hgrow

/-- A call that touches the entry of one block, after which it is `e` if it is there. -/
theorem touch_entry (hinv : QuorumInv localPeerId group h g) (hlocal : localPeerId ∈ group)
    {c : Call cr} (hfrom : c.FromGroup group) (hash : Hash) (e : BlockProposal) {h' : Handle}
    (hkept : ∀ key, key ≠ hash → ∀ p, h'.voting key = some p → h.voting key = some p)
    (hproposer : ∀ key, key ≠ hash →
      h.lastProposer localPeerId g.proposer c key = g.proposer key)
    (hself : ∀ p, h'.voting hash = some p → p = e)
    (hat : 3 ≤ (g.endorsers hash).card ∨
      Tallied localPeerId (g.endorsers hash ∪ h.endorsedBy localPeerId c hash)
        (h.lastProposer localPeerId g.proposer c hash) e) :
    QuorumInv localPeerId group h' (recordEndorsements localPeerId g h c) := by
  refine hinv.touch hlocal hfrom hash hkept hproposer ?_
  rcases hat with hthree | htallied
  · exact .inl (hthree.trans (Finset.card_le_card Finset.subset_union_left))
  · right
    intro p hp
    rw [hself p hp]
    exact htallied

/-- A call that touches no entry. -/
theorem same (hinv : QuorumInv localPeerId group h g) (hlocal : localPeerId ∈ group)
    {c : Call cr} (hfrom : c.FromGroup group) {h' : Handle} (hvoting : h'.voting = h.voting)
    (hproposer : h.lastProposer localPeerId g.proposer c = g.proposer) :
    QuorumInv localPeerId group h' (recordEndorsements localPeerId g h c) := by
  refine hinv.touch hlocal hfrom 0 ?_ ?_ ?_
  · intro key hkey p hp
    rwa [hvoting] at hp
  · intro key hkey
    rw [hproposer]
  · rw [hproposer, hvoting]
    have hgrow : g.endorsers 0 ⊆ g.endorsers 0 ∪ h.endorsedBy localPeerId c 0 :=
      Finset.subset_union_left
    rcases hinv.tallied 0 with hthree | htallied
    · exact .inl (hthree.trans (Finset.card_le_card hgrow))
    · exact .inr fun e he => (htallied e he).mono hgrow

end QuorumInv

/-- What the run says about an accepted block. -/
def AcceptedByQuorum (localPeerId : NodeIdentity) (group : FullReplGroup) (h : Handle)
    (g : Endorsements) (c : Call cr) : Prop :=
  ∀ a, (h.answer localPeerId c).2.accepted = some a →
    let endorsers := (recordEndorsements localPeerId g h c).endorsers a.hash
    3 ≤ endorsers.card ∧ ∀ n ∈ endorsers, n ∈ group

/-- A call that accepts nothing says nothing. -/
theorem acceptedByQuorum_of_none {localPeerId : NodeIdentity} {group : FullReplGroup}
    {h : Handle} {g : Endorsements} {c : Call cr}
    (hnone : (h.answer localPeerId c).2.accepted = none) :
    AcceptedByQuorum localPeerId group h g c := by
  intro a ha
  cases hnone.symm.trans ha

/-- A decision for a tallied entry: its three endorsers are there. -/
theorem QuorumInv.decides {localPeerId : NodeIdentity} {group : FullReplGroup} {h : Handle}
    {g : Endorsements} {c : Call cr} (hinv : QuorumInv localPeerId group h g)
    (hlocal : localPeerId ∈ group) (hfrom : c.FromGroup group) {hash : Hash}
    {number : BlockNumber} {e : BlockProposal} {block : Except Bytes Nat}
    (hdec : Decides h hash number e block (h.answer localPeerId c))
    (hproposer : ∀ key, key ≠ hash →
      h.lastProposer localPeerId g.proposer c key = g.proposer key)
    (hat : 3 ≤ (g.endorsers hash).card ∨
      Tallied localPeerId (g.endorsers hash ∪ h.endorsedBy localPeerId c hash)
        (h.lastProposer localPeerId g.proposer c hash) e) :
    QuorumInv localPeerId group (h.answer localPeerId c).1
        (recordEndorsements localPeerId g h c) ∧
      AcceptedByQuorum localPeerId group h g c := by
  have hthree : 3 ≤ (g.endorsers hash ∪ h.endorsedBy localPeerId c hash).card := by
    rcases hat with hthree | htallied
    · exact hthree.trans (Finset.card_le_card Finset.subset_union_left)
    · exact htallied.quorum hdec.majority
  have hinv' := hinv.touch hlocal hfrom hash (fun key hkey p hp => (hdec.voting_cases hp).2 hkey)
    hproposer (.inl hthree)
  refine ⟨hinv', ?_⟩
  intro a ha
  obtain rfl := Option.some.inj (hdec.accepted.symm.trans ha)
  exact ⟨hthree, hinv'.members _⟩

/-- **One call, counted once.** -/
theorem quorumInv_answer {localPeerId : NodeIdentity} {group : FullReplGroup} {h : Handle}
    {g : Endorsements} (c : Call cr) (hinv : QuorumInv localPeerId group h g)
    (hlocal : localPeerId ∈ group) (hfrom : c.FromGroup group)
    (honce : h.CountsOnce localPeerId g.proposer c) :
    QuorumInv localPeerId group (h.answer localPeerId c).1
        (recordEndorsements localPeerId g h c) ∧
      AcceptedByQuorum localPeerId group h g c := by
  -- one case for each thing a call can do; only four of them touch a vote
  cases answer_callStep localPeerId h c with
  | quiet hquiet hdate =>
      exact ⟨hinv.same hlocal hfrom hquiet.voting
        (lastProposer_of_noBlock _ hdate hquiet.noBlock), acceptedByQuorum_of_none hquiet.accepted⟩
  | failed hstore hvoting hroot hblocks hresult haccepted hnoBlock =>
      exact ⟨hinv.same hlocal hfrom hvoting (lastProposer_of_noBlock _ nofun hnoBlock),
        acceptedByQuorum_of_none haccepted⟩
  | stored hstore hvoting hroot hblocks haccepted hunder hnoBlock =>
      exact ⟨hinv.same hlocal hfrom hvoting (lastProposer_of_noBlock _ nofun hnoBlock),
        acceptedByQuorum_of_none haccepted⟩
  | @proposes currentMs group' proof _ _ block hspend hstore hfin hsel hbroadcast hvoting hroot
      hblocks haccepted hres =>
      refine ⟨hinv.touch hlocal hfrom (cr.blake3 block) ?_ ?_ (.inr ?_),
        acceptedByQuorum_of_none haccepted⟩
      · intro key hkey p hp
        rwa [hvoting, Function.update_of_ne hkey] at hp
      · intro key hkey
        simp only [Handle.lastProposer, hbroadcast, Function.update_of_ne hkey]
      · intro e he
        -- the own proposal starts with the own vote
        rw [hvoting, Function.update_self] at he
        obtain rfl := Option.some.inj he
        apply tallied_local
        simp only [Handle.endorsedBy, hbroadcast, if_true]
        exact Finset.mem_union_right _ (Finset.mem_singleton_self _)
  | @refused origin bn hash agrees _ hwaits =>
      refine ⟨hinv.touch_entry hlocal hfrom hash (h.entryFor hash bn) ?_ (fun _ _ => rfl) ?_ ?_,
        acceptedByQuorum_of_none hwaits.accepted⟩
      · intro key hkey p hp
        rwa [hwaits.voting_ne hkey] at hp
      · intro p hp
        exact (Option.some.inj (hwaits.voting_self.symm.trans hp)).symm
      · refine (hinv.entryFor hash bn).imp_right fun htallied => ?_
        exact htallied.mono Finset.subset_union_left
  | @counted origin bn hash agrees _ votes hentry horigin hpush hwaits =>
      refine ⟨hinv.touch_entry hlocal hfrom hash _ ?_ (fun _ _ => rfl) ?_
        (hinv.voted honce horigin hpush), acceptedByQuorum_of_none hwaits.accepted⟩
      · intro key hkey p hp
        rwa [hwaits.voting_ne hkey] at hp
      · intro p hp
        exact (Option.some.inj (hwaits.voting_self.symm.trans hp)).symm
  | @decided origin bn hash agrees _ votes _ hentry horigin hpush hdecides =>
      exact hinv.decides hlocal hfrom hdecides (fun _ _ => rfl)
        (hinv.voted honce horigin hpush)
  | @judged origin group' number block _ entry hdate hentry hwaits =>
      have hproposer : h.lastProposer localPeerId g.proposer
          (.proposal origin group' number block : Call cr) =
            Function.update g.proposer (cr.blake3 block) (some origin) := if_pos hdate
      -- the entry the proposal makes, with the votes that were there before it
      let e := h.proposed origin group' number block (h.entryFor (cr.blake3 block) number)
      refine ⟨hinv.touch_entry hlocal hfrom (cr.blake3 block) e ?_ ?_ ?_ ?_,
        acceptedByQuorum_of_none hwaits.accepted⟩
      · intro key hkey p hp
        rwa [hwaits.voting_ne hkey] at hp
      · intro key hkey
        rw [hproposer, Function.update_of_ne hkey]
      · intro p hp
        rw [hwaits.voting_self] at hp
        rcases hentry with hdropped | hkept
        · cases hdropped.symm.trans hp
        · exact (Option.some.inj (hkept.symm.trans hp)).symm
      · rw [hproposer, Function.update_self]
        exact hinv.proposed hdate honce
  | @finalized origin group' number block _ _ hdate hdecides =>
      have hproposer : h.lastProposer localPeerId g.proposer
          (.proposal origin group' number block : Call cr) =
            Function.update g.proposer (cr.blake3 block) (some origin) := if_pos hdate
      refine hinv.decides hlocal hfrom hdecides ?_ ?_
      · intro key hkey
        rw [hproposer, Function.update_of_ne hkey]
      · rw [hproposer, Function.update_self]
        exact hinv.proposed hdate honce

/-- **Three nodes behind every accepted block.** From the creation of a chat on,
in a run whose calls come from the group and are counted once, every block that
is accepted was endorsed by three distinct nodes of the group. -/
theorem accepted_by_quorum (localPeerId : NodeIdentity) (group : FullReplGroup)
    (hlocal : localPeerId ∈ group) (members : Members) (calls : List (Call cr))
    (hfrom : ∀ c ∈ calls, c.FromGroup group)
    (honce : (endorsedMachine cr localPeerId).EachStep
      (fun s c => s.1.CountsOnce localPeerId s.2.proposer c) (.fresh members, .empty) calls) :
    (endorsedMachine cr localPeerId).EachStep
      (fun s c => AcceptedByQuorum localPeerId group s.1 s.2 c)
      (.fresh members, .empty) calls := by
  have hstart : QuorumInv localPeerId group (.fresh members) .empty := by
    refine ⟨fun hash n hn => absurd hn (Finset.notMem_empty n), fun hash => .inr ?_⟩
    intro e he
    cases he
  refine Machine.eachStep_of_invariant
    (P := fun s => QuorumInv localPeerId group s.1 s.2) ?_ ?_ hstart
    ((Machine.EachStep.of_forall hfrom _).and honce)
  · intro s c hinv hc
    exact (quorumInv_answer c hinv hlocal hc.1 hc.2).1
  · intro s c hinv hc
    exact (quorumInv_answer c hinv hlocal hc.1 hc.2).2

/-- The block of the note: proposer, replica and one voter. -/
theorem accepted_by_quorum_note :
    (endorsedMachine .transparent 0).EachStep
      (fun s c => AcceptedByQuorum 0 replicas s.1 s.2 c)
      (.fresh lobbyMembers, .empty) noteFinalized :=
  accepted_by_quorum 0 replicas (by decide) lobbyMembers noteFinalized (by decide)
    ⟨by decide, by decide +kernel, by decide +kernel, trivial⟩

/-- The finalizer proposes the frame of the note. -/
def noteProposal : Call .transparent := .proposal 1 replicas 0 (newFrame shortNote)

/-- The finalizer sends the same proposal twice. -/
def repeatedProposal : List (Call .transparent) :=
  [.sendMessage 20 replicas shortNote, noteProposal, noteProposal]

/-- The second copy is refused, and counted: the block is accepted with the
proposer and the local replica behind it. -/
theorem repeatedProposal_accepted :
    ¬ (endorsedMachine .transparent 0).EachStep
      (fun s c => AcceptedByQuorum 0 replicas s.1 s.2 c)
      (.fresh lobbyMembers, .empty) repeatedProposal := by
  let s := (endorsedMachine .transparent 0).run (.fresh lobbyMembers, .empty)
    [.sendMessage 20 replicas shortNote, noteProposal]
  let hash := Crypto.transparent.blake3 (newFrame shortNote)
  have haccepted : (s.1.answer 0 noteProposal).2.accepted.map Accepted.hash = some hash := by
    decide +kernel
  have htwo : ((recordEndorsements 0 s.2 s.1 noteProposal).endorsers hash).card = 2 := by
    decide +kernel
  intro h
  obtain ⟨-, -, hlast, -⟩ := h
  obtain ⟨a, ha, hhash⟩ := Option.map_eq_some_iff.mp haccepted
  have hthree := (hlast a ha).1
  rw [hhash] at hthree
  exact absurd (htwo ▸ hthree) (by decide)

end OnionNetwork.Server
