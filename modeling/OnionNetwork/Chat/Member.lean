import OnionNetwork.Chat.Types

/-!
# Chat members

The record a chat keeps per member: the replay counter, the permissions, the
rank (0 is the most privileged), the cooldown between gated actions and the
time until which the member is frozen.
-/

namespace OnionNetwork.Chat

/-- `Permissions`, a `u32` of flags. -/
structure Permissions where
  bits : BitVec 32
  deriving DecidableEq, Repr

namespace Permissions

def send : Permissions := ⟨1#32 <<< 0⟩
def invite : Permissions := ⟨1#32 <<< 1⟩
def kick : Permissions := ⟨1#32 <<< 2⟩
def empty : Permissions := ⟨0⟩

instance : AndOp Permissions := ⟨fun a b => ⟨a.bits &&& b.bits⟩⟩
instance : OrOp Permissions := ⟨fun a b => ⟨a.bits ||| b.bits⟩⟩

/-- `Permissions::all`. -/
def all : Permissions := send ||| invite ||| kick

/-- `bitflags::contains`: every flag of `other` is set in `self`. -/
def contains (self other : Permissions) : Bool :=
  self.bits &&& other.bits == other.bits

theorem contains_iff {p q : Permissions} :
    p.contains q = true ↔ ∀ i, q.bits.getLsbD i = true → p.bits.getLsbD i = true := by
  simp only [contains, beq_iff_eq]
  constructor
  · intro h i hq
    have hbit := congrArg (fun v => v.getLsbD i) h
    simpa [hq] using hbit
  · intro h
    apply BitVec.eq_of_getLsbD_eq
    intro i _
    by_cases hq : q.bits.getLsbD i = true
    · simp [hq, h i hq]
    · simp [hq]

theorem contains_refl (p : Permissions) : p.contains p = true :=
  contains_iff.mpr fun _ h => h

theorem contains_trans {p q r : Permissions} (hpq : p.contains q = true)
    (hqr : q.contains r = true) : p.contains r = true :=
  contains_iff.mpr fun i h => contains_iff.mp hpq i (contains_iff.mp hqr i h)

/-- Masking with `q` stays within `q`. -/
theorem contains_and_right (p q : Permissions) : q.contains (p &&& q) = true := by
  rw [contains_iff]
  intro i h
  have hbit : (p.bits &&& q.bits).getLsbD i = true := h
  rw [BitVec.getLsbD_and, Bool.and_eq_true] at hbit
  exact hbit.2

/-- Masking leaves alone what is within the mask. -/
theorem and_eq_left_iff {p q : Permissions} : p &&& q = p ↔ q.contains p = true := by
  have hbits : p &&& q = p ↔ p.bits &&& q.bits = p.bits := by
    constructor
    · intro h
      exact congrArg bits h
    · intro h
      show (⟨p.bits &&& q.bits⟩ : Permissions) = p
      rw [h]
  rw [hbits, contains, beq_iff_eq, BitVec.and_comm]

theorem contains_or_left (p q : Permissions) : (p ||| q).contains p = true := by
  rw [contains_iff]
  intro i h
  change (p.bits ||| q.bits).getLsbD i = true
  simp [h]

theorem contains_or_right (p q : Permissions) : (p ||| q).contains q = true := by
  rw [contains_iff]
  intro i h
  change (p.bits ||| q.bits).getLsbD i = true
  simp [h]

end Permissions

/-- `chat_spec::Member`. -/
structure Member where
  action : Nonce := 0
  permissions : Permissions := .empty
  rank : Nat := 0
  actionCooldownMs : Nat := 0
  frozenUntil : Nat := 0
  deriving DecidableEq, Repr

namespace Member

/-- `Rank::MAX`. -/
def maxRank : Nat := 2 ^ 32 - 1

/-- `Member::best`. -/
def best : Member := { permissions := .all }

/-- `Member::worst`. -/
def worst : Member := { rank := maxRank, actionCooldownMs := 10000 }

/-- `Member::allocate_action`. The clock reading is an argument. -/
def allocateAction (self : Member) (currentMs : Nat) (permission : Permissions) :
    Except ChatError Member :=
  if currentMs ≤ self.frozenUntil then
    .error (.rateLimited (self.frozenUntil - currentMs))
  else
    let self := { self with frozenUntil := currentMs + self.actionCooldownMs }
    if self.permissions.contains permission then .ok self else .error .noPermission

/-- What a granted action says about the member and does to it. -/
theorem allocateAction_eq_ok {m m' : Member} {now : Nat} {p : Permissions} :
    m.allocateAction now p = .ok m' ↔
      m.frozenUntil < now ∧ m.permissions.contains p = true ∧
        m' = { m with frozenUntil := now + m.actionCooldownMs } := by
  unfold allocateAction
  by_cases h : m.frozenUntil < now
  · by_cases hc : m.permissions.contains p = true
    · simp [Nat.not_le.mpr h, h, hc, eq_comm]
    · simp [Nat.not_le.mpr h, hc]
  · simp [Nat.not_lt.mp h, h]

end Member

/-- `advance_nonce` of the chat handle. The nonce to expect is the next one in `u64`: behind
`u64::MAX` it is 0, where a build with overflow checks panics. -/
def advanceNonce (nonce newNonce : Nonce) : Except ChatError Nonce :=
  let (nonce, advanced) := nonce.advanceTo newNonce
  if !advanced then .error (.invalidAction ((nonce + 1) % 2 ^ 64)) else .ok nonce

/-- A nonce is accepted exactly when it exceeds the stored one, and replaces it. -/
theorem advanceNonce_eq_ok {nonce newNonce nonce' : Nonce} :
    advanceNonce nonce newNonce = .ok nonce' ↔ nonce < newNonce ∧ nonce' = newNonce := by
  unfold advanceNonce Nonce.advanceTo
  by_cases h : nonce < newNonce
  · simp [h, eq_comm]
  · simp [h]

end OnionNetwork.Chat
