import OnionNetwork.Crypto.Primitives
import OnionNetwork.Crypto.Proof

/-!
# The opfusk handshake

`upgrade_outbound` and `upgrade_inbound`, cut where they wait for the peer:

    initiator                          responder
    initRequest       -- request -->   inboundResponse
    outboundFinish    <- response --
                      -- final --->    inboundFinish

Each side signs the challenge of the other and nothing else; the ephemeral
keys and the ciphertexts travel beside the signatures. Each side ends with the
identity of the key the peer signed with and the XOR of two hybrid
encapsulations, one in each direction, between the same two ephemeral keys.
-/

namespace OnionNetwork.Opfusk

variable {cr : Crypto} {S : Type} {ex : Exchange S}

/-- `InitRequest`. -/
structure InitRequest (cr : Crypto) {S : Type} (ex : Exchange S) where
  challinge : Hash
  signPk : cr.PublicKey
  encPk : Enc.PublicKey ex

/-- `InitResponse`. -/
structure InitResponse (cr : Crypto) {S : Type} (ex : Exchange S) where
  challinge : Hash
  signPk : cr.PublicKey
  encPk : Enc.PublicKey ex
  proof : cr.Signature
  cp : Enc.Ciphertext ex

/-- `FinalRequest`. -/
structure FinalRequest (cr : Crypto) {S : Type} (ex : Exchange S) where
  cp : Enc.Ciphertext ex
  proof : cr.Signature

/-- `opfusk::Error`, without the errors of the socket. -/
inductive Error
  | signature
  | decapsulation (e : Enc.DecapsulationError)
  deriving DecidableEq, Repr

/-- What one side brings: its signing key, and what it draws for this
connection (the ephemeral key pair, the challenge, the randomness of its
encapsulation and of its signature). -/
structure Side (cr : Crypto) {S : Type} (ex : Exchange S) where
  kp : cr.Keypair
  tempKey : Enc.Keypair ex
  challinge : Hash
  rng : ex.Rng
  signRng : cr.Rng

namespace Side

variable [XorOp S]

omit [XorOp S] in
/-- The message `upgrade_outbound` starts with. -/
def initRequest (s : Side cr ex) : InitRequest cr ex :=
  { challinge := s.challinge
    signPk := cr.publicKey s.kp
    encPk := s.tempKey.publicKey }

/-- `upgrade_inbound` up to its answer: the answer and `sender_ss`. -/
def inboundResponse (s : Side cr ex) (initReq : InitRequest cr ex) : InitResponse cr ex × S :=
  let (cp, senderSs) := s.tempKey.encapsulate initReq.encPk s.rng
  let proof := cr.sign s.kp initReq.challinge.toBytes s.signRng
  ({ challinge := s.challinge
     signPk := cr.publicKey s.kp
     encPk := s.tempKey.publicKey
     proof
     cp }, senderSs)

/-- `upgrade_outbound` from the answer on: the last message, the identity of
the peer and the session secret. -/
def outboundFinish (s : Side cr ex) (initResp : InitResponse cr ex) :
    Except Error (FinalRequest cr ex × Hash × S) :=
  if cr.verify initResp.signPk s.challinge.toBytes initResp.proof then
    match s.tempKey.decapsulate initResp.cp with
    | .error e => .error (.decapsulation e)
    | .ok receiverSs =>
        let proof := cr.sign s.kp initResp.challinge.toBytes s.signRng
        let (cp, senderSs) := s.tempKey.encapsulate initResp.encPk s.rng
        .ok ({ cp, proof }, cr.identity initResp.signPk, xorSecrets senderSs receiverSs)
  else .error .signature

/-- `upgrade_inbound` from the last message on, after it has answered
`initReq`: the identity of the peer and the session secret. -/
def inboundFinish (s : Side cr ex) (initReq : InitRequest cr ex) (finalReq : FinalRequest cr ex) :
    Except Error (Hash × S) :=
  if cr.verify initReq.signPk s.challinge.toBytes finalReq.proof then
    match s.tempKey.decapsulate finalReq.cp with
    | .error e => .error (.decapsulation e)
    | .ok receiverSs =>
        .ok (cr.identity initReq.signPk, xorSecrets (s.inboundResponse initReq).2 receiverSs)
  else .error .signature

end Side

/-- The handshake of two sides whose messages arrive as they were sent: what
the initiator ends with and what the responder ends with. -/
def handshake [XorOp S] (initiator responder : Side cr ex) :
    Except Error ((Hash × S) × (Hash × S)) :=
  let initReq := initiator.initRequest
  match initiator.outboundFinish (responder.inboundResponse initReq).1 with
  | .error e => .error e
  | .ok (finalReq, peer, secret) =>
      match responder.inboundFinish initReq finalReq with
      | .error e => .error e
      | .ok res => .ok ((peer, secret), res)

/-- Signatures of a key verify under it. -/
def SignsCorrectly (cr : Crypto) : Prop :=
  ∀ (kp : cr.Keypair) (data : Bytes) (rng : cr.Rng),
    cr.verify (cr.publicKey kp) data (cr.sign kp data rng) = true

section Secret

variable (initiator responder : Side cr ex)

/-- The secret of the Kyber encapsulation of the responder. -/
def responderKem : S :=
  (ex.kyberEncapsulate (ex.kyberPublic initiator.tempKey.post) responder.rng).2

/-- The secret of the Kyber encapsulation of the initiator. -/
def initiatorKem : S :=
  (ex.kyberEncapsulate (ex.kyberPublic responder.tempKey.post) initiator.rng).2

/-- The X25519 value of the two ephemeral keys. -/
def sharedValue : S :=
  ex.diffieHellman initiator.tempKey.pre (ex.xPublic responder.tempKey.pre)

/-- An undisturbed handshake completes on both sides, with each other's
identity and the XOR of the two hybrid secrets. -/
theorem handshake_eq [XorOp S] (hex : ex.Lawful) (hcr : SignsCorrectly cr) :
    handshake initiator responder =
      let k1 := responderKem initiator responder
      let k2 := initiatorKem initiator responder
      let x := sharedValue initiator responder
      .ok ((cr.identity (cr.publicKey responder.kp), (k2 ^^^ x) ^^^ (k1 ^^^ x)),
        (cr.identity (cr.publicKey initiator.kp), (k1 ^^^ x) ^^^ (k2 ^^^ x))) := by
  have hx : ex.diffieHellman responder.tempKey.pre (ex.xPublic initiator.tempKey.pre) =
      sharedValue initiator responder := hex.diffieHellman_comm _ _
  simp only [handshake, Side.outboundFinish, Side.inboundResponse, Side.inboundFinish,
    Side.initRequest, hcr _ _ _, if_true, Enc.Keypair.decapsulate_encapsulate hex]
  simp only [Enc.Keypair.encapsulate, Enc.Keypair.publicKey, hx]
  rfl

end Secret

end OnionNetwork.Opfusk
