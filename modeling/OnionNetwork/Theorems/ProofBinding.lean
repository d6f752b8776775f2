import OnionNetwork.Server.Api

/-!
# What a signature says

A proof signs a nonce and the bytes of a context. For the membership operations
the context is the chat name alone, for a message it is the content alone; what
operation is meant, on whom, with which record and, for a message, in which
chat, is not signed. `proof_binds_iff` says exactly which pairs of requests one
proof cannot be carried over between.
-/

namespace OnionNetwork.Server

open Chat Lib

variable {cr : Crypto}

/-- What a user asks a server to do in one of its chats. -/
inductive Ask
  | addMember (chat : ChatName) (id : Identity) (member : Member)
  | updateMember (chat : ChatName) (id : Identity) (member : Member)
  | kickMember (chat : ChatName) (id : Identity)
  | sendMessage (chat : ChatName) (content : ReminderOwned)
  deriving DecidableEq

namespace Ask

/-- The bytes of the context the proof of this request signs. -/
def contextBytes : Ask → Bytes
  | addMember chat _ _ | updateMember chat _ _ | kickMember chat _ => Encode.encode chat
  | sendMessage _ content => Encode.encode content

/-- The topic of the request header. -/
def topic : Ask → ChatName
  | addMember chat _ _ | updateMember chat _ _ | kickMember chat _ | sendMessage chat _ => chat

/-- The signature the client library puts on this request. -/
def sign (cr : Crypto) (kp : cr.Keypair) (nonce : Nonce) (rng : cr.Rng) : Ask → cr.Signature
  | addMember chat _ _ | updateMember chat _ _ | kickMember chat _ =>
      (Proof.new kp nonce chat rng).1.signature
  | sendMessage _ content => (Proof.new kp nonce content rng).1.signature

/-- The request carrying a given key, nonce and signature, and what else the
server reads when it arrives. -/
def carrying (cr : Crypto) (pk : cr.PublicKey) (nonce : Nonce) (signature : cr.Signature)
    (currentMs : Nat) (localPeerId : NodeIdentity) (group : FullReplGroup) : Ask → Request cr
  | addMember context id member =>
      .addMember currentMs { pk, nonce, signature, context } id member
  | updateMember context id member => .updateMember { pk, nonce, signature, context } id member
  | kickMember context id => .kickMember currentMs { pk, nonce, signature, context } id
  | sendMessage _ context =>
      .sendMessage currentMs localPeerId group { pk, nonce, signature, context }

/-- The request writes the record of the identity itself. -/
def WritesSelf (id : Identity) : Ask → Prop
  | addMember _ target _ | updateMember _ target _ => target = id
  | kickMember _ _ | sendMessage _ _ => False

/-- The message is too long to be stored. -/
def TooLong (id : Identity) (nonce : Nonce) : Ask → Prop
  | sendMessage _ content =>
      maxMessageSize + sizeOfMessage <
        (Encode.encode ({ sender := id, nonce, content := content.bytes } : Message)).length
  | addMember _ _ _ | updateMember _ _ _ | kickMember _ _ => False

/-- What is hashed and signed. -/
def payload (nonce : Nonce) (ask : Ask) : Bytes := base128Encode nonce ++ ask.contextBytes

/-- The payloads of two requests agree exactly when their contexts do. -/
theorem payload_inj {nonce : Nonce} {a b : Ask} :
    a.payload nonce = b.payload nonce ↔ a.contextBytes = b.contextBytes :=
  ⟨fun h => (base128Encode_append_inj h).2, fun h => by rw [payload, payload, h]⟩

theorem sign_eq (kp : cr.Keypair) (nonce : Nonce) (rng : cr.Rng) (ask : Ask) :
    ask.sign cr kp nonce rng = cr.sign kp (cr.blake3 (ask.payload nonce)).toBytes rng := by
  cases ask <;> rfl

end Ask

/-- A chat in which the signer may do what is asked. -/
def roomFor (signer : Identity) : Ask → Members
  | .addMember _ _ _ | .sendMessage _ _ =>
      SortedMap.empty.put signer { permissions := .all, rank := 1 }
  | .updateMember _ id _ =>
      (SortedMap.empty.put id { rank := 2 }).put signer { permissions := .all, rank := 1 }
  | .kickMember _ id =>
      (SortedMap.empty.put id { rank := 0 }).put signer { permissions := .all, rank := 1 }

/-- What every accepted request has: a signature over its payload, a positive
nonce, and nothing that no state accepts. -/
theorem carrying_accepted {h : Handle} {ask : Ask} {pk : cr.PublicKey} {nonce : Nonce}
    {signature : cr.Signature} {currentMs : Nat} {localPeerId : NodeIdentity}
    {group : FullReplGroup}
    (hacc : h.Accepts (ask.carrying cr pk nonce signature currentMs localPeerId group)) :
    cr.verify pk (cr.blake3 (ask.payload nonce)).toBytes signature = true ∧ 0 < nonce ∧
      ¬ ask.WritesSelf (cr.identity pk) ∧ ¬ ask.TooLong (cr.identity pk) nonce := by
  have hpos : ∀ {m : Member}, m.action < nonce → 0 < nonce := fun hlt =>
    Nat.lt_of_le_of_lt (Nat.zero_le _) hlt
  have hstep := memberStep_of_accepts hacc
  cases ask with
  | addMember chat id member =>
      generalize (h.serve _).1.members = ms at hstep
      cases hstep with
      | added hmay => exact ⟨hmay.1.1, hpos hmay.1.2.2, hmay.2.2.1.symm, fun hlong => hlong⟩
  | updateMember chat id member =>
      generalize (h.serve _).1.members = ms at hstep
      cases hstep with
      | updated hmay => exact ⟨hmay.1.1, hpos hmay.1.2.2, hmay.2.1.symm, fun hlong => hlong⟩
  | kickMember chat id =>
      generalize (h.serve _).1.members = ms at hstep
      cases hstep with
      | left hauth => exact ⟨hauth.1, hpos hauth.2.2, fun hself => hself, fun hlong => hlong⟩
      | kicked hmay _ =>
          exact ⟨hmay.1.1, hpos hmay.1.2.2, fun hself => hself, fun hlong => hlong⟩
  | sendMessage chat content =>
      have hfits : ¬ Ask.TooLong (cr.identity pk) nonce (.sendMessage chat content) := by
        change (Except.map _ (h.sendMessage currentMs localPeerId group _).result) = _ at hacc
        rcases sendMessage_cases h currentMs localPeerId group
            { pk, nonce, signature, context := content } with
          ⟨e, -, hreply⟩ | ⟨members, -, ⟨log, e, -, hreply⟩ | ⟨log, hstore, -⟩⟩
        · rw [hreply] at hacc
          cases hacc
        · rw [hreply] at hacc
          cases hacc
        · exact Nat.not_lt.mpr (storeMessage_eq_ok hstore).1
      generalize (h.serve _).1.members = ms at hstep
      cases hstep with
      | sent hauth _ => exact ⟨hauth.1, hpos hauth.2.2, fun hself => hself, hfits⟩

/-- And whatever has that is accepted somewhere. -/
theorem carrying_accepted_somewhere {ask : Ask} {pk : cr.PublicKey} {nonce : Nonce}
    {signature : cr.Signature} (localPeerId : NodeIdentity) (group : FullReplGroup)
    (hverify : cr.verify pk (cr.blake3 (ask.payload nonce)).toBytes signature = true)
    (hpos : 0 < nonce) (hself : ¬ ask.WritesSelf (cr.identity pk))
    (hfits : ¬ ask.TooLong (cr.identity pk) nonce) :
    (Handle.fresh (roomFor (cr.identity pk) ask)).Accepts
      (ask.carrying cr pk nonce signature 1 localPeerId group) := by
  cases ask with
  | addMember chat id member =>
      have hne : cr.identity pk ≠ id := fun h => hself h.symm
      have hmay : MayAdd (roomFor (cr.identity pk) (.addMember chat id member)) 1
          { pk, nonce, signature, context := chat } id { permissions := .all, rank := 1 } := by
        refine ⟨⟨hverify, SortedMap.get_put_self _ _ _, hpos⟩, ⟨Nat.one_pos, by decide⟩, hne, ?_⟩
        rw [roomFor, SortedMap.get_put_ne _ hne]
        rfl
      exact congrArg Prod.snd
        (serve_addMember (h := Handle.fresh (roomFor _ (.addMember chat id member))) member hmay)
  | updateMember chat id member =>
      have hne : cr.identity pk ≠ id := fun h => hself h.symm
      have hmay : MayUpdate (roomFor (cr.identity pk) (.updateMember chat id member))
          { pk, nonce, signature, context := chat } id { permissions := .all, rank := 1 } := by
        refine ⟨⟨hverify, SortedMap.get_put_self _ _ _, hpos⟩, hne, { rank := 2 }, ?_, by decide⟩
        rw [roomFor, SortedMap.get_put_ne _ hne, SortedMap.get_put_self]
      exact congrArg Prod.snd
        (serve_updateMember (h := Handle.fresh (roomFor _ (.updateMember chat id member))) member
          hmay)
  | kickMember chat id =>
      have hauth : Authenticated (roomFor (cr.identity pk) (.kickMember chat id))
          ({ pk, nonce, signature, context := chat } : Proof cr ChatName)
          { permissions := .all, rank := 1 } :=
        ⟨hverify, SortedMap.get_put_self _ _ _, hpos⟩
      -- a member that removes itself leaves, whatever its rank
      by_cases hself : cr.identity pk = id
      · subst hself
        exact congrArg Prod.snd
          (serve_leave (h := Handle.fresh (roomFor _ (.kickMember chat _))) hauth)
      · have hmay : MayKick (roomFor (cr.identity pk) (.kickMember chat id)) 1
            { pk, nonce, signature, context := chat } id { permissions := .all, rank := 1 }
            { rank := 0 } := by
          refine ⟨hauth, ⟨Nat.one_pos, by decide⟩, hself, ?_⟩
          rw [roomFor, SortedMap.get_put_ne _ hself, SortedMap.get_put_self]
        exact congrArg Prod.snd
          (serve_kickMember (h := Handle.fresh (roomFor _ (.kickMember chat id))) hmay
            Nat.one_pos)
  | sendMessage chat content =>
      have hlen := Nat.le_of_not_lt hfits
      refine accepts_sendMessage localPeerId group (m := { permissions := .all, rank := 1 })
        ⟨hverify, SortedMap.get_put_self _ _ _, hpos⟩ ⟨Nat.one_pos, by decide⟩ hlen
        (Nat.zero_le _) (Nat.zero_le _) ?_
      rw [LenCode.length_frame, logCode_width]
      exact Nat.le_trans (Nat.add_le_add_left (Nat.add_le_add_right hlen 2) 0) (by decide)

/-- **What one proof authorises.** Let the signer sign the first request, with a
signature that verifies for no other message, and let the hash separate the two
payloads. Then the server accepts the second request with that proof in no
state at all if and only if the two contexts differ as bytes, or the nonce is
zero, or the second request writes the signer's own record, or it is a message
too long to be stored. -/
theorem proof_binds_iff (kp : cr.Keypair) (nonce : Nonce) (rng : cr.Rng) (first second : Ask)
    (localPeerId : NodeIdentity) (group : FullReplGroup)
    (hsign : ∀ message rng, cr.verify (cr.publicKey kp) message (cr.sign kp message rng) = true)
    (hunforgeable : ∀ message message' rng,
      cr.verify (cr.publicKey kp) message' (cr.sign kp message rng) = true → message' = message)
    (hinj : cr.blake3 (first.payload nonce) = cr.blake3 (second.payload nonce) →
      first.payload nonce = second.payload nonce) :
    (∀ (s : Storage) currentMs, ¬ s.Accepts second.topic
        (second.carrying cr (cr.publicKey kp) nonce (first.sign cr kp nonce rng) currentMs
          localPeerId group)) ↔
      (first.contextBytes ≠ second.contextBytes ∨ nonce = 0 ∨
        second.WritesSelf (cr.identity (cr.publicKey kp)) ∨
        second.TooLong (cr.identity (cr.publicKey kp)) nonce) := by
  -- all the signature says of the request is its context
  have hverify : cr.verify (cr.publicKey kp) (cr.blake3 (second.payload nonce)).toBytes
      (first.sign cr kp nonce rng) = true ↔ first.contextBytes = second.contextBytes := by
    rw [Ask.sign_eq]
    constructor
    · intro hv
      exact Ask.payload_inj.mp (hinj (Hash.toBytes_injective (hunforgeable _ _ _ hv)).symm)
    · intro hctx
      rw [Ask.payload_inj.mpr hctx]
      exact hsign _ _
  constructor
  · intro hnever
    by_contra hno
    obtain ⟨hctx, hnonce, hself, hfits⟩ := not_or.mp hno |>.imp not_not.mp fun h =>
      (not_or.mp h).imp id not_or.mp
    -- a chat with a member that may do all of it takes the proof
    have hacc := carrying_accepted_somewhere localPeerId group (hverify.mpr hctx)
      (Nat.pos_of_ne_zero hnonce) hself hfits
    let room := Handle.fresh (roomFor (cr.identity (cr.publicKey kp)) second)
    exact hnever ⟨fun _ => none, fun _ => some room⟩ 1
      (Storage.accepts_iff.mpr ⟨room, rfl, hacc⟩)
  · rintro hwhen s currentMs hacc
    obtain ⟨h, -, hacc⟩ := Storage.accepts_iff.mp hacc
    obtain ⟨hv, hpos, hself, hfits⟩ := carrying_accepted hacc
    rcases hwhen with hctx | hzero | hwrites | hlong
    · exact hctx (hverify.mp hv)
    · exact absurd hzero (Nat.pos_iff_ne_zero.mp hpos)
    · exact hself hwrites
    · exact hfits hlong

/-- The newcomer asks to invite somebody without any rights. -/
def invitation : Ask := .addMember lobby 3 Member.worst

/-- Somebody else asks to kick the moderator. -/
def expulsion : Ask := .kickMember lobby 1

/-- The newcomer's key. -/
def newcomer : Crypto.transparent.Keypair := (2 : Hash)

theorem proof_binds_invitation :
    (∀ (s : Storage) currentMs, ¬ s.Accepts expulsion.topic
        (expulsion.carrying .transparent (Crypto.transparent.publicKey newcomer) 1
          (invitation.sign .transparent newcomer 1 ()) currentMs 0 replicas)) ↔
      (invitation.contextBytes ≠ expulsion.contextBytes ∨ 1 = 0 ∨
        expulsion.WritesSelf
          (Crypto.transparent.identity (Crypto.transparent.publicKey newcomer)) ∨
        expulsion.TooLong
          (Crypto.transparent.identity (Crypto.transparent.publicKey newcomer)) 1) :=
  proof_binds_iff newcomer 1 () invitation expulsion 0 replicas
    (fun message rng => (Crypto.transparent_verify_iff newcomer message message rng).mpr rfl)
    (fun message message' rng => (Crypto.transparent_verify_iff newcomer message message' rng).mp)
    (fun _ => rfl)

/-- The signature on the invitation kicks the moderator. -/
theorem invitation_expels :
    invitation ≠ expulsion ∧
      Storage.Accepts ⟨fun _ => none, fun _ => some (.fresh lobbyMembers)⟩ expulsion.topic
        (expulsion.carrying .transparent (Crypto.transparent.publicKey newcomer) 1
          (invitation.sign .transparent newcomer 1 ()) 20 0 replicas) := by
  refine ⟨by decide, ?_⟩
  rw [Storage.accepts_iff]
  exact ⟨_, rfl, by decide +kernel⟩

end OnionNetwork.Server
