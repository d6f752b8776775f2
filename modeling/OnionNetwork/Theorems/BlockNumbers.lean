import OnionNetwork.Theorems.LogFile
import OnionNetwork.Server.Calls

/-!
# Block numbers

`block_numbers_increase`: one block per number, and no block twice, in every
run whose calls keep to the order of blocks. `proposal` lets a number equal to
that of the root pass, `send_message` proposes with the number of the root, and
`accept_block` keeps the entries of the number it accepts, so the code itself
only asks for numbers that do not decrease.

The run is instrumented with the blocks applied so far. What carries the
induction is that no entry of an applied block can be decided again: it holds
no block, or its number is behind the root.
-/

namespace OnionNetwork.Server

open Chat Lib

variable {cr : Crypto}

/-- The blocks applied so far, the newest first, and the one of this call. -/
def recordApplied (localPeerId : NodeIdentity) (applied : List Accepted) (h : Handle)
    (c : Call cr) : List Accepted :=
  (h.answer localPeerId c).2.applied.toList ++ applied

/-- The replica with the blocks it applied. -/
def appliedMachine (cr : Crypto) (localPeerId : NodeIdentity) :
    Machine (Handle × List Accepted) (Call cr) Answer :=
  (replicaMachine cr localPeerId).withGhost (recordApplied localPeerId)

/-- Once a block was applied, a proposal in date carries a higher number than
the root and a block not applied before, and a vote that completes a majority
for a held block carries a higher number than the root. -/
def Handle.InOrder (h : Handle) (applied : List Accepted) : Call cr → Prop
  | .proposal _ _ number block =>
      applied ≠ [] → h.root.number ≤ number →
        h.root.number < number ∧ ∀ a ∈ applied, a.hash ≠ cr.blake3 block
  | .vote origin bn hash agrees =>
      let e := h.entryFor hash bn
      applied ≠ [] → e.proposal ≠ .absent → e.number = bn → origin ∉ e.votes →
        replicationFactor / 2 < e.yes + agrees.toNat → h.root.number < bn
  | _ => True

instance (h : Handle) (applied : List Accepted) : (c : Call cr) → Decidable (h.InOrder applied c)
  | .proposal _ _ _ _ => inferInstanceAs (Decidable (_ → _ → _ ∧ _))
  | .vote _ _ _ _ => inferInstanceAs (Decidable (_ → _ → _ → _ → _ → _))
  | .addMember _ _ _ _ | .updateMember _ _ _ | .kickMember _ _ _ | .sendMessage _ _ _ =>
      inferInstanceAs (Decidable True)

/-- The applied blocks are behind the root, and none of them can be decided
again. -/
structure NumbersSettled (h : Handle) (applied : List Accepted) : Prop where
  none_yet : applied = [] → h.root.number = 0
  behind : ∀ a ∈ applied, a.number ≤ h.root.number
  spent : ∀ a ∈ applied, ∀ e, h.voting a.hash = some e →
    e.proposal = .absent ∨ e.number ≤ h.root.number

namespace NumbersSettled

variable {h : Handle} {applied : List Accepted}

/-- Replacing one entry keeps the applied blocks settled if the new entry of an
applied block is spent. -/
theorem update (hinv : NumbersSettled h applied) {h' : Handle} {hash : Hash}
    {entry : Option BlockProposal} (hvoting : h'.voting = Function.update h.voting hash entry)
    (hnumber : h'.root.number = h.root.number)
    (hentry : ∀ a ∈ applied, a.hash = hash → ∀ e, entry = some e →
      e.proposal = .absent ∨ e.number ≤ h.root.number) : NumbersSettled h' applied := by
  refine ⟨?_, ?_, ?_⟩
  · rw [hnumber]
    exact hinv.none_yet
  · rw [hnumber]
    exact hinv.behind
  · intro a ha e he
    rw [hnumber]
    rw [hvoting] at he
    by_cases hkey : a.hash = hash
    · rw [hkey, Function.update_self] at he
      exact hentry a ha hkey e he
    · rw [Function.update_of_ne hkey] at he
      exact hinv.spent a ha e he

/-- The entry a call works on is spent if its block was applied. -/
theorem entryFor (hinv : NumbersSettled h applied) {a : Accepted} (ha : a ∈ applied)
    {bn : BlockNumber} : (h.entryFor a.hash bn).proposal = .absent ∨
      (h.entryFor a.hash bn).number ≤ h.root.number := by
  unfold Handle.entryFor
  cases he : h.voting a.hash with
  | none => exact .inl rfl
  | some e => exact hinv.spent a ha e he

/-- A decision with a higher number settles one more block. -/
theorem decides (hinv : NumbersSettled h applied) {hash : Hash} {number : BlockNumber}
    {e : BlockProposal} {block : Except Bytes Nat} {r : Handle × Answer}
    (hdec : Decides h hash number e block r)
    (hahead : applied ≠ [] → h.root.number < number) :
    NumbersSettled r.1 (r.2.applied.toList ++ applied) ∧ h.root.number ≤ r.1.root.number := by
  have hle : h.root.number ≤ number := by
    by_cases hnil : applied = []
    · rw [hinv.none_yet hnil]
      exact Nat.zero_le _
    · exact Nat.le_of_lt (hahead hnil)
  -- the blocks applied before are decided, or behind the root
  have hspent : ∀ a ∈ applied, ∀ p, r.1.voting a.hash = some p →
      p.proposal = .absent ∨ p.number ≤ h.root.number := by
    intro a ha p hp
    by_cases hkey : a.hash = hash
    · exact .inl ((hdec.voting_cases hp).1 hkey)
    · exact hinv.spent a ha p ((hdec.voting_cases hp).2 hkey)
  rcases hdec.spliced with ⟨fault, -, hresult, hroot, -⟩ |
    ⟨bufferLen, blocks, -, hresult, -, hroot⟩
  · -- the splice failed: the root is the old one and nothing was applied
    have hnone : r.2.applied = none := by rw [Answer.applied, hresult]
    rw [hnone, hroot]
    refine ⟨⟨?_, ?_, ?_⟩, Nat.le_refl _⟩
    · rw [hroot]
      exact hinv.none_yet
    · rw [hroot]
      exact hinv.behind
    · rw [hroot]
      exact hspent
  · have hsome : r.2.applied = some ⟨hash, number, block⟩ := by
      rw [Answer.applied, hresult, hdec.accepted]
    have hnumber : r.1.root.number = number := by rw [hroot]
    rw [hsome, hnumber]
    refine ⟨⟨nofun, ?_, ?_⟩, hle⟩
    · intro a ha
      rw [hnumber]
      rcases List.mem_append.mp ha with hnew | hold
      · obtain rfl := List.mem_singleton.mp hnew
        exact Nat.le_refl _
      · exact Nat.le_trans (hinv.behind a hold) hle
    · intro a ha p hp
      rw [hnumber]
      rcases List.mem_append.mp ha with hnew | hold
      · obtain rfl := List.mem_singleton.mp hnew
        exact .inl ((hdec.voting_cases hp).1 rfl)
      · rcases hspent a hold p hp with habsent | hbehind
        · exact .inl habsent
        · exact .inr (Nat.le_trans hbehind hle)

end NumbersSettled

/-- What a call does to the block numbers: the root does not go back, and a
block that is applied is new and ahead of the earlier ones. -/
def NumbersAdvance (localPeerId : NodeIdentity) (h : Handle) (applied : List Accepted)
    (c : Call cr) : Prop :=
  h.root.number ≤ (h.answer localPeerId c).1.root.number ∧
    ∀ a, (h.answer localPeerId c).2.applied = some a →
      ∀ b ∈ applied, b.number < a.number ∧ b.hash ≠ a.hash

/-- A call that decides a block ahead of the root, not applied before. -/
theorem numbersAdvance_of_decides {localPeerId : NodeIdentity} {h : Handle}
    {applied : List Accepted} {c : Call cr} {hash : Hash} {number : BlockNumber}
    {e : BlockProposal} {block : Except Bytes Nat} (hinv : NumbersSettled h applied)
    (hdec : Decides h hash number e block (h.answer localPeerId c))
    (hahead : applied ≠ [] → h.root.number < number)
    (hnew : ∀ b ∈ applied, b.hash ≠ hash) :
    NumbersSettled (h.answer localPeerId c).1 (recordApplied localPeerId applied h c) ∧
      NumbersAdvance localPeerId h applied c := by
  obtain ⟨hsettled, hle⟩ := hinv.decides hdec hahead
  refine ⟨hsettled, hle, ?_⟩
  intro a happlied b hb
  have haccepted : a = ⟨hash, number, block⟩ := by
    rcases Answer.applied_of_accepted hdec.accepted with hsome | hnone
    · exact Option.some.inj (happlied.symm.trans hsome)
    · cases hnone.symm.trans happlied
  rw [haccepted]
  have hbehind := hinv.behind b hb
  have hroot := hahead (List.ne_nil_of_mem hb)
  exact ⟨Nat.lt_of_le_of_lt hbehind hroot, hnew b hb⟩

/-- **One call in order.** -/
theorem numbersSettled_answer (localPeerId : NodeIdentity) {h : Handle}
    {applied : List Accepted} (c : Call cr) (hinv : NumbersSettled h applied)
    (horder : h.InOrder applied c) :
    NumbersSettled (h.answer localPeerId c).1 (recordApplied localPeerId applied h c) ∧
      NumbersAdvance localPeerId h applied c := by
  -- a call that accepts nothing only has to leave the entries settled
  have hopen : (h.answer localPeerId c).2.accepted = none →
      (h.answer localPeerId c).1.root.number = h.root.number →
      NumbersSettled (h.answer localPeerId c).1 applied →
      NumbersSettled (h.answer localPeerId c).1 (recordApplied localPeerId applied h c) ∧
        NumbersAdvance localPeerId h applied c := by
    intro haccepted hnumber hsettled
    have hnone := Answer.applied_of_not_accepted haccepted
    unfold recordApplied NumbersAdvance
    rw [hnone, hnumber]
    exact ⟨hsettled, Nat.le_refl _, nofun⟩
  have hsame : (h.answer localPeerId c).1.voting = h.voting →
      (h.answer localPeerId c).1.root.number = h.root.number →
      NumbersSettled (h.answer localPeerId c).1 applied := by
    intro hvoting hnumber
    refine ⟨?_, ?_, ?_⟩
    · rw [hnumber]
      exact hinv.none_yet
    · rw [hnumber]
      exact hinv.behind
    · rw [hvoting, hnumber]
      exact hinv.spent
  -- a vote that decides nothing changes neither the block of its entry nor its number
  have hwaiting : ∀ {hash : Hash} {bn : BlockNumber} {e : BlockProposal},
      Waits h hash (some e) (h.answer localPeerId c) →
      e.proposal = (h.entryFor hash bn).proposal → e.number = (h.entryFor hash bn).number →
      NumbersSettled (h.answer localPeerId c).1 (recordApplied localPeerId applied h c) ∧
        NumbersAdvance localPeerId h applied c := by
    intro hash bn e hwaits hproposal hentry
    have hnumber := congrArg Root.number hwaits.root
    refine hopen hwaits.accepted hnumber (hinv.update hwaits.voting hnumber ?_)
    intro a ha hkey e' he
    obtain rfl := Option.some.inj he
    rw [hproposal, hentry, ← hkey]
    exact hinv.entryFor ha
  cases answer_callStep localPeerId h c with
  | quiet hquiet hdate =>
      have hnumber := congrArg Root.number hquiet.root
      exact hopen hquiet.accepted hnumber (hsame hquiet.voting hnumber)
  | failed hstore hvoting hroot hblocks hresult haccepted =>
      have hnumber := congrArg Root.number hroot
      exact hopen haccepted hnumber (hsame hvoting hnumber)
  | @stored _ _ proof _ _ hstore hvoting hroot hblocks haccepted hunder =>
      have hstored := storeMessage_root h.log (Handle.messageOf proof)
      rw [hstore] at hstored
      have hnumber := (congrArg Root.number hroot).trans hstored.1
      exact hopen haccepted hnumber (hsame hvoting hnumber)
  | @proposes _ _ proof _ _ block hspend hstore hfin hsel hrequest hvoting hroot hblocks haccepted
      hres =>
      have hstored := storeMessage_root h.log (Handle.messageOf proof)
      rw [hstore] at hstored
      have hnumber := (congrArg Root.number hroot).trans hstored.1
      refine hopen haccepted hnumber (hinv.update hvoting hnumber ?_)
      -- the new entry carries the number of the root
      intro a ha hkey e he
      obtain rfl := Option.some.inj he
      exact .inr (Nat.le_refl _)
  | refused hwaits => exact hwaiting hwaits rfl rfl
  | counted hentry horigin hpush hwaits => exact hwaiting hwaits rfl rfl
  | @decided _ bn hash _ _ _ _ hentry horigin hpush hdecides =>
      -- a held block: its entry is neither empty nor behind the root
      have hheld : (h.entryFor hash bn).proposal ≠ .absent := by
        intro habsent
        have htaken := hdecides.taken
        rw [show (Handle.voted (h.entryFor hash bn) _ _).proposal = .absent from habsent] at htaken
        cases htaken
      have hahead : applied ≠ [] → h.root.number < bn := fun hne =>
        horder hne hheld hentry horigin hdecides.majority
      refine numbersAdvance_of_decides hinv hdecides hahead ?_
      intro b hb hkey
      have hroot := hahead (List.ne_nil_of_mem hb)
      have hspent : (h.entryFor b.hash bn).proposal = .absent ∨
          (h.entryFor b.hash bn).number ≤ h.root.number := hinv.entryFor hb
      rw [hkey, hentry] at hspent
      rcases hspent with habsent | hbehind
      · exact hheld habsent
      · exact absurd hroot (Nat.not_lt.mpr hbehind)
  | judged hdate hentry hwaits =>
      have hnumber := congrArg Root.number hwaits.root
      refine hopen hwaits.accepted hnumber (hinv.update hwaits.voting hnumber ?_)
      intro a ha hkey
      exact absurd hkey ((horder (List.ne_nil_of_mem ha) hdate).2 a ha)
  | finalized hdate hdecides =>
      refine numbersAdvance_of_decides hinv hdecides (fun hne => (horder hne hdate).1) ?_
      intro b hb
      exact (horder (List.ne_nil_of_mem hb) hdate).2 b hb

/-- **One block per number.** From the creation of a chat on, in a run whose
calls are in order the block number never goes back, and every block that is
applied carries a higher number than all before it and is none of them. -/
theorem block_numbers_increase (localPeerId : NodeIdentity) (members : Members)
    (calls : List (Call cr))
    (horder : (appliedMachine cr localPeerId).EachStep (fun s c => s.1.InOrder s.2 c)
      (.fresh members, []) calls) :
    (appliedMachine cr localPeerId).EachStep (fun s c => NumbersAdvance localPeerId s.1 s.2 c)
      (.fresh members, []) calls := by
  have hstart : NumbersSettled (.fresh members) [] := ⟨fun _ => rfl, nofun, nofun⟩
  refine Machine.eachStep_of_invariant (P := fun s => NumbersSettled s.1 s.2) ?_ ?_ hstart horder
  · intro s c hinv hc
    exact (numbersSettled_answer localPeerId c hinv hc).1
  · intro s c hinv hc
    exact (numbersSettled_answer localPeerId c hinv hc).2

/-- Two blocks of one byte, the second with the next number. -/
def twoBlocks : List (Call .transparent) :=
  [.proposal 1 replicas 0 [1], .vote 3 0 (Crypto.transparent.blake3 [1]) true,
    .proposal 0 replicas 1 [2], .vote 3 1 (Crypto.transparent.blake3 [2]) true]

/-- The two blocks are in order. -/
theorem block_numbers_increase_twoBlocks :
    (appliedMachine .transparent 4).EachStep (fun s c => NumbersAdvance 4 s.1 s.2 c)
      (.fresh lobbyMembers, []) twoBlocks :=
  block_numbers_increase 4 lobbyMembers twoBlocks
    ⟨by decide, by decide, by decide, by decide, trivial⟩

/-- A note, its block finalized, and the same block proposed once more by the
next finalizer. -/
def noteTwice : List (Call .transparent) :=
  [.sendMessage 20 replicas shortNote, .proposal 1 replicas 0 (newFrame shortNote),
    .vote 3 0 (Crypto.transparent.blake3 (newFrame shortNote)) true,
    .proposal 2 replicas 0 (newFrame shortNote)]

/-- The entry of the accepted block is still there with its majority, so the
second proposal applies the block again, under the same number. -/
theorem sameBlock_applied_twice :
    (((appliedMachine .transparent 0).run (.fresh lobbyMembers, []) noteTwice).2.map
        fun a => (a.hash, a.number)) =
      [(Crypto.transparent.blake3 (newFrame shortNote), 0),
        (Crypto.transparent.blake3 (newFrame shortNote), 0)] := by
  decide +kernel

end OnionNetwork.Server
