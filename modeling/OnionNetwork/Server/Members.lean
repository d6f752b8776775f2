import OnionNetwork.Server.Handle

/-!
# Membership operations

`add_member`, `update_member` and `kick_member`. Each runs in one write
transaction: an error drops the transaction, so the operation either answers
`Ok` with the new member table or leaves the table as it was.

* `addMember_eq_ok`, `updateMember_eq_ok`, `kickMember_eq_ok` — exactly when an
  operation is accepted and what it does to the table;
* `clampTo` — the record an inviter or updater can write at most.
-/

namespace OnionNetwork.Server

open Chat Lib

variable {cr : Crypto}

/-- Reading the record of a key that must exist (`overwrite_in_place`, `get`):
a missing key is an LMDB error, reported as an internal one. -/
def recordOf (members : Members) (id : Identity) : Except ChatError Member :=
  match members.get id with
  | some member => .ok member
  | none => .error .ise

@[simp] theorem recordOf_eq_ok {members : Members} {id : Identity} {m : Member} :
    recordOf members id = .ok m ↔ members.get id = some m := by
  unfold recordOf
  split <;> simp_all

namespace Handle

/-- `Handle::create_member`. -/
def createMember (h : Handle) (id : Identity) (member : Member) : Except ChatError Handle :=
  if (h.members.get id).isSome then .error .ise
  else .ok { h with members := h.members.put id member }

/-- `Handle::add_member`. -/
def addMember (h : Handle) (currentMs : Nat) (proof : Proof cr ChatName) (id : Identity)
    (member : Member) : Except ChatError Handle := do
  ensure (proof.verify = true) .invalidProof
  let byId := proof.identity
  let byMember ← recordOf h.members byId
  let action ← advanceNonce byMember.action proof.nonce
  let byMember ← { byMember with action }.allocateAction currentMs .invite
  let members := h.members.put byId byMember
  let member : Member :=
    { rank := max byMember.rank member.rank
      permissions := member.permissions &&& byMember.permissions
      actionCooldownMs := max byMember.actionCooldownMs member.actionCooldownMs }
  ensure (members.get id = none) .alreadyExists
  .ok { h with members := members.put id member }

/-- `Handle::kick_member`. Leaving the chat is kicking oneself; only kicking
somebody else is gated. -/
def kickMember (h : Handle) (currentMs : Nat) (proof : Proof cr ChatName) (id : Identity) :
    Except ChatError Handle := do
  ensure (proof.verify = true) .invalidProof
  let byId := proof.identity
  let byMember ← recordOf h.members byId
  let action ← advanceNonce byMember.action proof.nonce
  let byMember : Member := { byMember with action }
  if byId ≠ id then
    let byMember ← byMember.allocateAction currentMs .kick
    let byRank := byMember.rank
    let members := h.members.put byId byMember
    let member ← recordOf members id
    ensure (member.rank < byRank) .noPermission
    .ok { h with members := members.erase id }
  else
    .ok { h with members := (h.members.put byId byMember).erase id }

/-- `Handle::update_member`. No permission is asked and no cooldown is spent;
the rank comparison is the only gate. -/
def updateMember (h : Handle) (proof : Proof cr ChatName) (id : Identity) (member : Member) :
    Except ChatError Handle := do
  ensure (proof.verify = true) .invalidProof
  let byId := proof.identity
  let byMember ← recordOf h.members byId
  let action ← advanceNonce byMember.action proof.nonce
  let byMember : Member := { byMember with action }
  let members := h.members.put byId byMember
  let rank := byMember.rank
  let member : Member :=
    { rank := max byMember.rank member.rank
      permissions := member.permissions &&& byMember.permissions
      actionCooldownMs := max byMember.actionCooldownMs member.actionCooldownMs }
  let dest ← recordOf members id
  ensure (dest.rank > rank) .noPermission
  .ok { h with members := members.put id member }

end Handle

/-! ## When the operations are accepted -/

/-- The proof is signed by the member with record `m` and its nonce is new. -/
def Authenticated {T : Type} [Encode T] (members : Members) (proof : Proof cr T) (m : Member) :
    Prop :=
  proof.verify = true ∧ members.get proof.identity = some m ∧ m.action < proof.nonce

/-- The member may spend a gated action now. -/
def MayAct (m : Member) (currentMs : Nat) (permission : Permissions) : Prop :=
  m.frozenUntil < currentMs ∧ m.permissions.contains permission = true

/-- The record after a gated action. -/
def spent (m : Member) (nonce : Nonce) (currentMs : Nat) : Member :=
  { m with action := nonce, frozenUntil := currentMs + m.actionCooldownMs }

/-- The record a member writes for somebody else: the requested one, clamped to
its own rank, permissions and cooldown. -/
def clampTo (byMember member : Member) : Member :=
  { rank := max byMember.rank member.rank
    permissions := member.permissions &&& byMember.permissions
    actionCooldownMs := max byMember.actionCooldownMs member.actionCooldownMs }

/-- What a call to `add_member` needs. -/
def MayAdd (members : Members) (currentMs : Nat) (proof : Proof cr ChatName) (id : Identity)
    (m : Member) : Prop :=
  Authenticated members proof m ∧ MayAct m currentMs .invite ∧ proof.identity ≠ id ∧
    members.get id = none

/-- What a call to `update_member` needs. -/
def MayUpdate (members : Members) (proof : Proof cr ChatName) (id : Identity) (m : Member) :
    Prop :=
  Authenticated members proof m ∧ proof.identity ≠ id ∧
    ∃ dest, members.get id = some dest ∧ m.rank < dest.rank

/-- What kicking somebody else needs besides the rank comparison. -/
def MayKick (members : Members) (currentMs : Nat) (proof : Proof cr ChatName) (id : Identity)
    (m target : Member) : Prop :=
  Authenticated members proof m ∧ MayAct m currentMs .kick ∧ proof.identity ≠ id ∧
    members.get id = some target

/-- `add_member` spends the signer's action and writes the clamped record. -/
theorem addMember_eq_ok {h h' : Handle} {currentMs : Nat} {proof : Proof cr ChatName}
    {id : Identity} {member : Member} :
    h.addMember currentMs proof id member = .ok h' ↔
      ∃ m, MayAdd h.members currentMs proof id m ∧
        h' = { h with
          members := (h.members.put proof.identity (spent m proof.nonce currentMs)).put id
            (clampTo m member) } := by
  simp only [Handle.addMember, bind_eq_ok, ensure_eq_ok, exists_const, recordOf_eq_ok,
    advanceNonce_eq_ok, Member.allocateAction_eq_ok, Except.ok.injEq]
  constructor
  · rintro ⟨hverify, m, hget, action, ⟨hnonce, rfl⟩, m', ⟨hfrozen, hperm, rfl⟩, hfree, rfl⟩
    have hne : proof.identity ≠ id := by
      rintro rfl
      simp at hfree
    rw [SortedMap.get_put_ne _ hne] at hfree
    exact ⟨m, ⟨⟨hverify, hget, hnonce⟩, ⟨hfrozen, hperm⟩, hne, hfree⟩, rfl⟩
  · rintro ⟨m, ⟨⟨hverify, hget, hnonce⟩, ⟨hfrozen, hperm⟩, hne, hfree⟩, rfl⟩
    refine ⟨hverify, m, hget, _, ⟨hnonce, rfl⟩, _, ⟨hfrozen, hperm, rfl⟩, ?_, rfl⟩
    rw [SortedMap.get_put_ne _ hne, hfree]

/-- `update_member` advances the signer's nonce and overwrites a record of
larger rank with the clamped one. -/
theorem updateMember_eq_ok {h h' : Handle} {proof : Proof cr ChatName} {id : Identity}
    {member : Member} :
    h.updateMember proof id member = .ok h' ↔
      ∃ m, MayUpdate h.members proof id m ∧
        h' = { h with
          members := (h.members.put proof.identity { m with action := proof.nonce }).put id
            (clampTo m member) } := by
  simp only [Handle.updateMember, bind_eq_ok, ensure_eq_ok, exists_const, recordOf_eq_ok,
    advanceNonce_eq_ok, Except.ok.injEq]
  constructor
  · rintro ⟨hverify, m, hget, action, ⟨hnonce, rfl⟩, dest, hdest, hrank, rfl⟩
    have hne : proof.identity ≠ id := by
      rintro rfl
      rw [SortedMap.get_put_self] at hdest
      obtain rfl := Option.some.inj hdest
      exact absurd hrank (Nat.lt_irrefl _)
    rw [SortedMap.get_put_ne _ hne] at hdest
    exact ⟨m, ⟨⟨hverify, hget, hnonce⟩, hne, dest, hdest, hrank⟩, rfl⟩
  · rintro ⟨m, ⟨⟨hverify, hget, hnonce⟩, hne, dest, hdest, hrank⟩, rfl⟩
    refine ⟨hverify, m, hget, _, ⟨hnonce, rfl⟩, dest, ?_, hrank, rfl⟩
    rw [SortedMap.get_put_ne _ hne, hdest]

/-- `kick_member` removes the signer itself unconditionally, and somebody else
only when the target's rank is the smaller number. -/
theorem kickMember_eq_ok {h h' : Handle} {currentMs : Nat} {proof : Proof cr ChatName}
    {id : Identity} :
    h.kickMember currentMs proof id = .ok h' ↔
      (∃ m, Authenticated h.members proof m ∧ id = proof.identity ∧
        h' = { h with
          members := (h.members.put proof.identity { m with action := proof.nonce }).erase id }) ∨
      ∃ m target, MayKick h.members currentMs proof id m target ∧ target.rank < m.rank ∧
        h' = { h with
          members := (h.members.put proof.identity (spent m proof.nonce currentMs)).erase id } := by
  simp only [Handle.kickMember, bind_eq_ok, ensure_eq_ok, exists_const, recordOf_eq_ok,
    advanceNonce_eq_ok]
  constructor
  · rintro ⟨hverify, m, hget, action, ⟨hnonce, rfl⟩, hrest⟩
    by_cases hne : proof.identity ≠ id
    · rw [if_pos hne] at hrest
      simp only [bind_eq_ok, ensure_eq_ok, exists_const, recordOf_eq_ok,
        Member.allocateAction_eq_ok, Except.ok.injEq] at hrest
      obtain ⟨m', ⟨hfrozen, hperm, rfl⟩, target, htarget, hrank, rfl⟩ := hrest
      rw [SortedMap.get_put_ne _ hne] at htarget
      exact .inr ⟨m, target, ⟨⟨hverify, hget, hnonce⟩, ⟨hfrozen, hperm⟩, hne, htarget⟩,
        hrank, rfl⟩
    · rw [if_neg hne] at hrest
      exact .inl ⟨m, ⟨hverify, hget, hnonce⟩, (not_not.mp hne).symm, (Except.ok.inj hrest).symm⟩
  · rintro (⟨m, ⟨hverify, hget, hnonce⟩, rfl, rfl⟩ |
      ⟨m, target, ⟨⟨hverify, hget, hnonce⟩, ⟨hfrozen, hperm⟩, hne, htarget⟩, hrank, rfl⟩)
    · exact ⟨hverify, m, hget, _, ⟨hnonce, rfl⟩, by simp⟩
    · refine ⟨hverify, m, hget, _, ⟨hnonce, rfl⟩, ?_⟩
      rw [if_pos hne]
      simp only [bind_eq_ok, ensure_eq_ok, exists_const, recordOf_eq_ok,
        Member.allocateAction_eq_ok, Except.ok.injEq]
      refine ⟨_, ⟨hfrozen, hperm, rfl⟩, target, ?_, hrank, rfl⟩
      rw [SortedMap.get_put_ne _ hne, htarget]

end OnionNetwork.Server
