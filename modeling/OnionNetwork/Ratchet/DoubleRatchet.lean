import OnionNetwork.Crypto.Primitives
import OnionNetwork.Crypto.Proof
import OnionNetwork.Lib.Vec

/-!
# The double ratchet

`double_ratchet::DoubleRatchet`: a root chain that both sides step in turn, a
chain of message keys for what is sent and one for what is received, and the
keys of messages that were skipped. A chain whose step is `u32::MAX` is a guard:
its root is the seed of the chain that the next `send` opens.

Steps are `u32`: they count modulo `2 ^ 32`, as they do without overflow checks.
-/

namespace OnionNetwork.Ratchet

open Lib

/-- `MAX_KEPT_MISSING_MESSAGES`. -/
def maxKeptMissingMessages : Nat := 5

/-- `KYBER_PERIOD`. -/
def kyberPeriod : Nat := 35

/-- `SUB_CONSTANT`. -/
def subConstant : SharedSecret := 0

/-- `u32::MAX`. -/
def u32Max : Nat := 2 ^ 32 - 1

/-- The primitives of other crates: the key exchange, the key derivation of the
`kdf` function (HKDF over SHA-256), and the hash; and the ciphertext of zeros. -/
structure Suite where
  exchange : Exchange SharedSecret
  zeroedCiphertext : exchange.KyberCiphertext
  kdf : SharedSecret → SharedSecret → String → SharedSecret × SharedSecret
  blake3 : Bytes → Hash

/-- An instance without secrets, in which message keys count up from the seed of
their chain. Concrete runs are evaluated in it. -/
def Suite.transparent : Suite where
  exchange := .transparent
  zeroedCiphertext := (0, 0)
  kdf root input _ := (root + 1, root ^^^ input)
  blake3 := Crypto.transparent.blake3

variable {S : Suite}

/-- `kdf_sc`: the next root and the message key. -/
def kdfSc (S : Suite) (root : SharedSecret) : SharedSecret × SharedSecret :=
  S.kdf root subConstant "sub chain"

/-- `kdf_rk`. -/
def kdfRk (S : Suite) (root rachetInput : SharedSecret) : SharedSecret × SharedSecret :=
  S.kdf root rachetInput "root chain"

/-- `Chain`. -/
structure Chain where
  step : Nat
  root : SharedSecret
  deriving DecidableEq, Repr

namespace Chain

/-- `Chain::from`. -/
def ofRoot (root : SharedSecret) : Chain := ⟨0, root⟩

/-- `Chain::new_init`. -/
def newInit (root : SharedSecret) : Chain := ⟨1, root⟩

/-- `Chain::new_guarding`. -/
def newGuarding (root : SharedSecret) : Chain := ⟨u32Max, root⟩

/-- A chain of zeroed memory. -/
def zeroed : Chain := ⟨0, 0⟩

/-- `Chain::next_sc`. -/
def nextSc (S : Suite) (c : Chain) : Chain × SharedSecret :=
  let (root, key) := kdfSc S c.root
  (⟨(c.step + 1) % 2 ^ 32, root⟩, key)

/-- `Chain::next_rk`. -/
def nextRk (S : Suite) (c : Chain) (rachetInput : SharedSecret) : Chain × SharedSecret :=
  let (root, key) := kdfRk S c.root rachetInput
  (⟨(c.step + 1) % 2 ^ 32, root⟩, key)

/-- `Chain::guard`. -/
def guard (_ : Chain) (senderInput : SharedSecret) : Chain := ⟨u32Max, senderInput⟩

end Chain

/-- `MessageId`. -/
@[ext] structure MessageId where
  step : Nat
  subStep : Nat
  deriving DecidableEq, Repr

/-- `Kyber`. -/
structure Kyber (S : Suite) where
  publicKey : S.exchange.KyberPublic
  cp : S.exchange.KyberCiphertext

/-- `MessageHeader`. -/
structure MessageHeader (S : Suite) where
  id : MessageId
  prevSubCount : Nat
  kyber : Option (Kyber S)
  x25519 : S.exchange.XPublic

/-- `RecvError`. -/
inductive RecvError
  | missingMessage
  | decapsulation
  | invalidState
  deriving DecidableEq, Repr

/-- `InitiatiorKey`. -/
structure InitiatiorKey (S : Suite) where
  x25519 : S.exchange.XPublic
  kyber : S.exchange.KyberPublic

/-- `DoubleRatchet`. -/
structure DoubleRatchet (S : Suite) where
  root : Chain
  sender : Chain
  receiverHash : Hash
  receiver : Chain
  senderHash : Hash
  prevSubCount : Nat
  kyber : S.exchange.KyberSeed
  cp : S.exchange.KyberCiphertext
  ss : SharedSecret
  x25519 : S.exchange.StaticSecret
  missingMessages : ArrayVec (MessageId × SharedSecret) maxKeptMissingMessages

/-- What a call draws from its generator, as far as it needs it. -/
structure Draws (S : Suite) where
  kyber : S.exchange.KyberSeed
  x25519 : S.exchange.StaticSecret
  rng : S.exchange.Rng

/-- What a call of the transparent instance draws. -/
def transparentDraws (n : Hash) : Draws Suite.transparent := ⟨n, n + 1, n + 2⟩

namespace DoubleRatchet

/-- `DoubleRatchet::recipient`, and the id of the conversation. -/
def recipient (root : SharedSecret) (init : InitiatiorKey S) (draws : Draws S) :
    DoubleRatchet S × SharedSecret :=
  let root := Chain.ofRoot root
  let senderHash := S.blake3 root.root.toBytes
  let (root, id) := root.nextSc S
  let (root, receiverRoot) := root.nextSc S
  let receiver := Chain.newInit receiverRoot
  let receiverHash := S.blake3 receiver.root.toBytes
  let dh := S.exchange.diffieHellman draws.x25519 init.x25519
  let (cp, ss) := S.exchange.kyberEncapsulate init.kyber draws.rng
  ({ receiver, sender := Chain.newGuarding dh, senderHash, receiverHash, root, kyber := draws.kyber,
     cp, ss, x25519 := draws.x25519, prevSubCount := 0, missingMessages := .empty }, id)

/-- `DoubleRatchet::sender`, the key for the other side and the id. -/
def initiator (root : SharedSecret) (draws : Draws S) :
    DoubleRatchet S × InitiatiorKey S × SharedSecret :=
  let root := Chain.ofRoot root
  let receiverHash := S.blake3 root.root.toBytes
  let (root, id) := root.nextSc S
  let (root, senderRoot) := root.nextSc S
  let sender := Chain.newInit senderRoot
  let senderHash := S.blake3 sender.root.toBytes
  let key : InitiatiorKey S :=
    { x25519 := S.exchange.xPublic draws.x25519
      kyber := (S.exchange.kyberGenerate draws.kyber).1 }
  ({ sender, senderHash, receiverHash, root, kyber := draws.kyber, x25519 := draws.x25519,
     receiver := .zeroed, prevSubCount := 0, cp := S.zeroedCiphertext, ss := 0,
     missingMessages := .empty }, key, id)

/-- `DoubleRatchet::find_missing_message`. -/
def findMissingMessage (s : DoubleRatchet S) (message : MessageHeader S) :
    DoubleRatchet S × Except RecvError SharedSecret :=
  match s.missingMessages.toList.findIdx? fun entry => entry.1 = message.id with
  | none => (s, .error .missingMessage)
  | some i =>
      match s.missingMessages.toList[i]? with
      | none => (s, .error .missingMessage)
      | some entry => ({ s with missingMessages := s.missingMessages.remove i }, .ok entry.2)

/-- One turn of the loop of `add_missing_message`. A vector that was full has
room behind the removal. -/
def skipMessage (s : DoubleRatchet S) (subStep : Nat) : DoubleRatchet S :=
  let missing := if s.missingMessages.isFull then s.missingMessages.remove 0 else s.missingMessages
  let (receiver, key) := s.receiver.nextSc S
  { s with
    receiver
    missingMessages := (missing.push? (⟨s.root.step, subStep⟩, key)).getD missing }

/-- The loop of `add_missing_message`. -/
def skipMessages (s : DoubleRatchet S) (subSteps : List Nat) : DoubleRatchet S :=
  subSteps.foldl skipMessage s

/-- `DoubleRatchet::add_missing_message`. -/
def addMissingMessage (s : DoubleRatchet S) (latestIndex : Nat) :
    Except RecvError (DoubleRatchet S) :=
  if latestIndex < s.receiver.step then .error .invalidState
  else .ok (s.skipMessages (List.range' s.receiver.step (latestIndex - s.receiver.step)))

/-- What `recv` does with the first message of a new chain, behind the check of
`prev_sub_count`. The secret is replaced before the decapsulation can fail. -/
def enterChain (s : DoubleRatchet S) (message : MessageHeader S) (draws : Draws S) :
    DoubleRatchet S × Except RecvError Unit :=
  let receiverInput := S.exchange.diffieHellman s.x25519 message.x25519
  let s := { s with x25519 := draws.x25519 }
  let mixed : Except RecvError (DoubleRatchet S × SharedSecret) :=
    match message.kyber with
    | none => .ok (s, receiverInput)
    | some kyb =>
        match S.exchange.kyberDecapsulate kyb.cp (S.exchange.kyberGenerate s.kyber).2 with
        | none => .error .decapsulation
        | some sec =>
            let (cp, ss) := S.exchange.kyberEncapsulate kyb.publicKey draws.rng
            .ok ({ s with kyber := draws.kyber, cp, ss }, receiverInput ^^^ sec)
  match mixed with
  | .error e => (s, .error e)
  | .ok (s, receiverInput) =>
      let (root, receiverRoot) := s.root.nextRk S receiverInput
      ({ s with
         prevSubCount := s.sender.step
         root
         receiver := Chain.ofRoot receiverRoot
         receiverHash := S.blake3 receiverRoot.toBytes
         sender := s.sender.guard (S.exchange.diffieHellman s.x25519 message.x25519) }, .ok ())

/-- The end of `recv`: the key of a message of the chain that is received. -/
def recvInChain (s : DoubleRatchet S) (message : MessageHeader S) :
    DoubleRatchet S × Except RecvError SharedSecret :=
  match s.addMissingMessage message.id.subStep with
  | .error e => (s, .error e)
  | .ok s =>
      let (receiver, key) := s.receiver.nextSc S
      ({ s with receiver }, .ok key)

/-- `DoubleRatchet::recv`. -/
def recv (s : DoubleRatchet S) (message : MessageHeader S) (draws : Draws S) :
    DoubleRatchet S × Except RecvError SharedSecret :=
  if message.id.step < s.root.step then s.findMissingMessage message
  else if message.id.step = s.root.step then
    if message.id.subStep < s.receiver.step then s.findMissingMessage message
    else s.recvInChain message
  else
    match s.addMissingMessage message.prevSubCount with
    | .error e => (s, .error e)
    | .ok s =>
        match s.enterChain message draws with
        | (s, .error e) => (s, .error e)
        | (s, .ok ()) => s.recvInChain message

/-- What `send` does behind a guard: open a chain. -/
def openChain (s : DoubleRatchet S) : DoubleRatchet S :=
  let seed := s.sender.root
  let seed := if (s.root.step + 1) % kyberPeriod = 0 then seed ^^^ s.ss else seed
  let (root, senderRoot) := s.root.nextRk S seed
  { s with
    root
    sender := Chain.ofRoot senderRoot
    senderHash := S.blake3 senderRoot.toBytes }

/-- The header `send` makes. -/
def header (s : DoubleRatchet S) : MessageHeader S where
  id := ⟨s.root.step, s.sender.step⟩
  prevSubCount := s.prevSubCount
  kyber :=
    if s.root.step % kyberPeriod = 0 then
      some { publicKey := (S.exchange.kyberGenerate s.kyber).1, cp := s.cp }
    else none
  x25519 := S.exchange.xPublic s.x25519

/-- `DoubleRatchet::send`. -/
def send (s : DoubleRatchet S) : DoubleRatchet S × (MessageHeader S × SharedSecret) :=
  let s := if s.sender.step = u32Max then s.openChain else s
  let (sender, key) := s.sender.nextSc S
  ({ s with sender }, s.header, key)

end DoubleRatchet

end OnionNetwork.Ratchet
