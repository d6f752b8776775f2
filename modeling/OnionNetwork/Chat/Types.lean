import OnionNetwork.Crypto.Proof
import OnionNetwork.Lib.Vec

/-!
# Errors, shared types and limits of the chat protocol

`ChatError` as the source declares it. A handler of the source can also stop
without answering: an arithmetic underflow or a push into a full `ArrayVec`
panics. `Fault` adds these outcomes, so that "returns an error" and "does not
return" stay apart.

The type aliases and constants are those of `chat_spec` that the server model reads.
-/

namespace OnionNetwork.Chat

/-- `std::io::ErrorKind`, the kinds the wire format knows. -/
inductive ErrorKind
  | notFound | permissionDenied | connectionRefused | connectionReset
  | connectionAborted | notConnected | addrInUse | addrNotAvailable
  | brokenPipe | alreadyExists | wouldBlock | invalidInput | invalidData
  | timedOut | writeZero | interrupted | unsupported | unexpectedEof
  | outOfMemory | other
  deriving DecidableEq, Repr

/-- `chat_spec::ChatError`. -/
inductive ChatError
  | todo
  | ise
  | ongoingRecovery
  | tooManyKeys
  | valueTooLarge
  | invalidProof
  | invalidProofContext
  | notFound
  | outdated
  | alreadyExists
  | sentDirectly
  | sendingToSelf
  | mailboxFull
  | notMember
  | alreadyMember
  | invalidAction (expected : Nonce)
  | messageTooLarge
  | messageOverload
  | noBlocks
  | noReplicator
  | blockUnexpectedMessages
  | outdatedBlockNumber
  | wrongProposer
  | wrongBlockNumber
  | noMajority
  | alreadyVoted
  | voteNotFound
  | noPermission
  | rateLimited (msTilEnd : Nat)
  | invalidResponse
  | timeout
  | pleaseDont
  | io (kind : ErrorKind)
  deriving DecidableEq, Repr

/-- Everything that can stop a handler: an error it answers with, an unsigned
subtraction below zero, or a push into a full `ArrayVec`. -/
inductive Fault
  | chat (e : ChatError)
  | underflow
  | capacity
  deriving DecidableEq, Repr

/-- `handlers::ensure!`. -/
def ensure (cond : Prop) [Decidable cond] (resp : ChatError) : Except ChatError Unit :=
  if cond then .ok () else .error resp

@[simp] theorem ensure_eq_ok {cond : Prop} [Decidable cond] {resp : ChatError} {u : Unit} :
    ensure cond resp = .ok u ↔ cond := by
  unfold ensure
  split <;> simp [*]

theorem ensure_of {cond : Prop} [Decidable cond] {resp : ChatError} (h : cond) :
    ensure cond resp = .ok () := if_pos h

theorem ensure_ne_error {cond : Prop} [Decidable cond] {resp e : ChatError}
    (h : resp ≠ e ∨ cond) : ensure cond resp ≠ .error e := by
  intro heq
  by_cases hcond : cond
  · rw [ensure_of hcond] at heq
    cases heq
  · rw [ensure, if_neg hcond] at heq
    exact h.resolve_right hcond (Except.error.inj heq)

/-- A sequence fails with what a part of it fails with. -/
theorem bind_ne_error {ε α β : Type} {x : Except ε α} {f : α → Except ε β} {e : ε}
    (hx : x ≠ .error e) (hf : ∀ a, x = .ok a → f a ≠ .error e) : x >>= f ≠ .error e := by
  cases x with
  | error e' => exact fun heq => hx (congrArg _ (Except.error.inj heq))
  | ok a => exact hf a rfl

/-- A sequence answers `ok` when its first part does and the rest does on it. -/
theorem bind_eq_ok {ε α β : Type} {x : Except ε α} {f : α → Except ε β} {b : β} :
    (x >>= f) = .ok b ↔ ∃ a, x = .ok a ∧ f a = .ok b := by
  cases x with
  | error e => simp [bind, Except.bind]
  | ok a => simp [bind, Except.bind]

/-- Unsigned subtraction under overflow checks. -/
def checkedSub (a b : Nat) : Except Fault Nat :=
  if b ≤ a then .ok (a - b) else .error .underflow

@[simp] theorem checkedSub_of_le {a b : Nat} (h : b ≤ a) : checkedSub a b = .ok (a - b) :=
  if_pos h

end OnionNetwork.Chat

namespace OnionNetwork.Chat

open Lib

/-- `REPLICATION_FACTOR`. -/
def replicationFactor : Nat := 4

/-- `CHAT_NAME_CAP`. -/
def chatNameCap : Nat := 32

/-- `MAX_MESSAGE_SIZE`. -/
def maxMessageSize : Nat := 1024 - 40

/-- `MAX_VAULT_KEY_COUNT`. -/
def maxVaultKeyCount : Nat := 4096

/-- `MAX_VAULT_VALUE_SIZE`. -/
def maxVaultValueSize : Nat := 1024 * 8

abbrev BlockNumber := Nat

/-- A user: the hash of the signing key. -/
abbrev Identity := Hash

/-- `chain_api::NodeIdentity`: a server. -/
abbrev NodeIdentity := Hash

/-- `ReplVec<T>`. -/
abbrev ReplVec (α : Type*) := ArrayVec α replicationFactor

/-- `GroupVec<T>`. -/
abbrev GroupVec (α : Type*) := ArrayVec α (replicationFactor + 1)

/-- `ChatName`: at most `chatNameCap` bytes of UTF-8. -/
structure ChatName where
  str : String
  size_le : str.utf8ByteSize ≤ chatNameCap
  deriving DecidableEq

namespace ChatName

/-- `ArrayString::as_bytes`. -/
def asBytes (name : ChatName) : Bytes := name.str.toByteArray.data.toList

instance : Encode ChatName := ⟨fun name => encodeSlice name.asBytes⟩

end ChatName

end OnionNetwork.Chat
