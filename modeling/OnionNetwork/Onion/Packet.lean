import OnionNetwork.Codec.DecodeExact
import OnionNetwork.Crypto.Primitives
import OnionNetwork.Opfusk.Output

/-!
# Onion packets

A packet has three layers, one inside the other, and no layer says which one it is: `peel`
tries the decoders from the outermost to the innermost, and moves what it peeled to the front
of the buffer. The innermost layer is too short for the other two decoders
(`decodeExact_outer_ciphertext`, `decodeExact_middle_ciphertext`). The middle layer starts with
random bytes, and `Mistaken` says when the decoder of the outer layer takes them for a peer id.

The key exchange, the AEAD and peer ids come from other crates. An outer `Option` is a panic.

Any bytes are a ciphertext and a tag, if there are enough of them, so a ciphertext alone is too
short for a packet around it. The outer layer is decoded wherever a peer id can be read, and the
length behind the ciphertext and the tag is right (`mistaken_iff`).
-/

namespace OnionNetwork.Onion

open Lib Codec Parser Opfusk Enc

/-- What packets are made of. -/
structure Primitives where
  ex : Exchange SharedSecret
  exLawful : ex.Lawful
  aead : Aead
  aeadLawful : aead.Lawful
  /-- `KYBER_CIPHERTEXTBYTES`, and the bytes of a ciphertext and of a public key. -/
  kyberBytes : Nat
  kyberArray : Fixed UInt8 kyberBytes ≃ ex.KyberCiphertext
  xArray : Fixed UInt8 32 ≃ ex.XPublic
  /-- `libp2p::PeerId`, and `Multihash::write` and `Multihash::read` with the conversions. -/
  PeerId : Type
  writePeerId : PeerId → Bytes
  readPeerId : Bytes → Option (PeerId × Bytes)
  /-- `size_of::<PeerId>()`. -/
  peerIdSize : Nat
  read_write : ∀ id rest, readPeerId (writePeerId id ++ rest) = some (id, rest)
  length_read : ∀ {input id rest}, readPeerId input = some (id, rest) → rest.length ≤ input.length
  length_write : ∀ id, (writePeerId id).length ≤ peerIdSize
  sizes_lt : kyberBytes + 32 + peerIdSize < usizeSize

namespace Primitives

variable (P : Primitives)

/-- `size_of::<Ciphertext>()`, two arrays of bytes. -/
def ciphertextSize : Nat := P.kyberBytes + 32

/-- `MAX_INNER_PACKET_SIZE`. -/
def maxInnerPacketSize : Nat := P.ciphertextSize + P.peerIdSize

theorem maxInnerPacketSize_lt : P.maxInnerPacketSize < usizeSize := P.sizes_lt

end Primitives

variable {P : Primitives}

/-! ### The layers -/

/-- `InnerMostPacket`. -/
structure InnerMostPacket (P : Primitives) where
  toPeer : P.PeerId
  cp : Ciphertext P.ex

/-- `MiddlePacket`. -/
structure MiddlePacket (P : Primitives) where
  cp : Ciphertext P.ex
  tag : Fixed UInt8 cryptoTagSize
  bytes : ArrayVec UInt8 P.maxInnerPacketSize

/-- `OuterPacket`. -/
structure OuterPacket (P : Primitives) where
  toPeer : P.PeerId
  mid : MiddlePacket P

section Codecs

variable (P : Primitives)

/-- `Ciphertext`. -/
def ciphertext : Codec (Ciphertext P.ex) :=
  iso (pair (iso (rawBytes P.kyberBytes) P.kyberArray) (iso (rawBytes 32) P.xArray))
    { toFun := fun v => ⟨v.1, v.2⟩
      invFun := fun cp => (cp.pl, cp.x)
      left_inv := fun _ => rfl
      right_inv := fun _ => rfl }

/-- `peer_id_codec`. -/
def peerIdCodec : Codec P.PeerId where
  encode := P.writePeerId
  decode buffer :=
    match P.readPeerId buffer with
    | some (id, rest) => accept id rest
    | none => reject buffer

/-- `InnerMostPacket`. -/
def innerMostPacket : Codec (InnerMostPacket P) :=
  iso (pair (peerIdCodec P) (ciphertext P))
    { toFun := fun v => ⟨v.1, v.2⟩
      invFun := fun ip => (ip.toPeer, ip.cp)
      left_inv := fun _ => rfl
      right_inv := fun _ => rfl }

/-- `MiddlePacket`. -/
def middlePacket : Codec (MiddlePacket P) :=
  iso (pair (ciphertext P) (pair (rawBytes cryptoTagSize) (arrayVec u8 P.maxInnerPacketSize)))
    { toFun := fun v => ⟨v.1, v.2.1, v.2.2⟩
      invFun := fun mp => (mp.cp, mp.tag, mp.bytes)
      left_inv := fun _ => rfl
      right_inv := fun _ => rfl }

/-- `OuterPacket`. -/
def outerPacket : Codec (OuterPacket P) :=
  iso (pair (peerIdCodec P) (middlePacket P))
    { toFun := fun v => ⟨v.1, v.2⟩
      invFun := fun op => (op.toPeer, op.mid)
      left_inv := fun _ => rfl
      right_inv := fun _ => rfl }

end Codecs

/-- `OuterPacket::new`, with what is drawn: a panic if the innermost packet does not fit. -/
def OuterPacket.new (recipient : PublicKey P.ex) (recipientId : P.PeerId)
    (midRecipient : PublicKey P.ex) (midId : P.PeerId) (clientKp : Keypair P.ex)
    (rng midRng : P.ex.Rng) (aeadRng : P.aead.Rng) : Option (OuterPacket P × SharedSecret) :=
  let (cp, key) := clientKp.encapsulate recipient rng
  let inner : InnerMostPacket P := { toPeer := recipientId, cp }
  let (cp, midKey) := clientKp.encapsulate midRecipient midRng
  let bytes := (innerMostPacket P).encode inner
  if h : bytes.length ≤ P.maxInnerPacketSize then
    let sealed := (P.aead.encrypt bytes midKey aeadRng).1
    let tag := ⟨sealed.2, P.aeadLawful.length_tag bytes midKey aeadRng⟩
    let bytes := ⟨sealed.1, (P.aeadLawful.length_encrypt bytes midKey aeadRng).symm ▸ h⟩
    some ({ toPeer := midId, mid := { cp, tag, bytes } }, key)
  else none

/-! ### Peeling -/

/-- `Encode::encode` into the front of a `&mut [u8]`. -/
def encodeInto (bytes buffer : Bytes) : Option Bytes :=
  if bytes.length ≤ buffer.length then some (bytes ++ buffer.drop bytes.length) else none

/-- A peer to pass the packet on to, or the secret for the client; a length; and the buffer. -/
abbrev Peeled (P : Primitives) := (P.PeerId ⊕ SharedSecret) × Nat × Bytes

/-- `peel` of a middle packet. -/
def peelMiddle (debugAssertions : Bool) (nodeKp : Keypair P.ex) (originalBuffer : Bytes)
    (mp : MiddlePacket P) : Option (Option (Peeled P)) :=
  match nodeKp.decapsulate mp.cp with
  | .error _ => some none
  | .ok ss =>
      match encodeInto mp.bytes.toList originalBuffer with
      | none => none
      | some _ =>
          match P.aead.decrypt mp.bytes.toList ss mp.tag.toList with
          | none => some none
          | some plain =>
              let buffer := plain ++ originalBuffer.drop mp.bytes.toList.length
              match decodeExact debugAssertions (innerMostPacket P) plain with
              | none => none
              | some none => some none
              | some (some ip) =>
                  match encodeInto ((ciphertext P).encode ip.cp) buffer with
                  | none => some none
                  | some buffer => some (some (.inl ip.toPeer, P.ciphertextSize, buffer))

/-- `peel`. -/
def peel (debugAssertions : Bool) (nodeKp : Keypair P.ex) (originalBuffer : Bytes) :
    Option (Option (Peeled P)) :=
  match decodeExact debugAssertions (outerPacket P) originalBuffer with
  | none => none
  | some (some op) =>
      let bytes := (middlePacket P).encode op.mid
      (encodeInto bytes originalBuffer).map fun buffer =>
        some (.inl op.toPeer, bytes.length, buffer)
  | some none =>
      match decodeExact debugAssertions (middlePacket P) originalBuffer with
      | none => none
      | some (some mp) => peelMiddle debugAssertions nodeKp originalBuffer mp
      | some none =>
          match decodeExact debugAssertions (ciphertext P) originalBuffer with
          | none => none
          | some none => some none
          | some (some cp) =>
              match nodeKp.decapsulate cp with
              | .error _ => some none
              | .ok ss => some (some (.inr ss, 0, originalBuffer))

/-- What an inbound stream turns into, by `upgrade_inbound_low`. -/
inductive IncomingOrResponse (P : Primitives)
  | incoming (toPeer : P.PeerId) (buffer : Bytes)
  | response (ss : SharedSecret)

/-- `upgrade_inbound_low`, on a packet that was read: a returned length that is out of bounds
is a panic. -/
def upgradeInboundLow (debugAssertions : Bool) (keypair : Keypair P.ex) (buffer : Bytes) :
    Option (Option (IncomingOrResponse P)) :=
  match peel debugAssertions keypair buffer with
  | none => none
  | some none => some none
  | some (some (.inl toPeer, newLen, buffer)) =>
      if newLen ≤ buffer.length then some (some (.incoming toPeer (buffer.take newLen))) else none
  | some (some (.inr ss, _, _)) => some (some (.response ss))

end OnionNetwork.Onion

/-! ## Telling the layers apart -/

namespace OnionNetwork.Onion

open Lib Codec Parser Opfusk Enc

variable {P : Primitives}

variable (P) in
theorem takes_ciphertext : Takes (ciphertext P) P.ciphertextSize :=
  (((takes_rawBytes _).iso _).pair ((takes_rawBytes _).iso _)).iso _

/-! ### What was encoded -/

theorem exact_ciphertext : (ciphertext P).Exact :=
  (((exact_rawBytes _).iso _).pair ((exact_rawBytes _).iso _)).iso _

theorem decode_peerIdCodec (buffer : Bytes) :
    ((peerIdCodec P).decode buffer).result =
      match P.readPeerId buffer with
      | some (id, rest) => .ok (id, rest)
      | none => .error .reject := by
  show Run.result (match P.readPeerId buffer with
    | some (id, rest) => accept id rest
    | none => reject buffer) = _
  cases P.readPeerId buffer with
  | none => rfl
  | some r => rfl

theorem exact_peerIdCodec : (peerIdCodec P).Exact := by
  intro id rest
  have hread : P.readPeerId ((peerIdCodec P).encode id ++ rest) = some (id, rest) :=
    P.read_write id rest
  rw [decode_peerIdCodec, hread]

theorem exact_innerMostPacket : (innerMostPacket P).Exact :=
  (exact_peerIdCodec.pair exact_ciphertext).iso _

theorem exact_middlePacket : (middlePacket P).Exact :=
  (exact_ciphertext.pair
    ((exact_rawBytes _).pair (exact_u8.arrayVec P.maxInnerPacketSize_lt))).iso _

theorem exact_outerPacket : (outerPacket P).Exact :=
  (exact_peerIdCodec.pair exact_middlePacket).iso _

/-- An encoded ciphertext has the size of one. -/
theorem length_ciphertext (cp : Ciphertext P.ex) :
    ((ciphertext P).encode cp).length = P.ciphertextSize := by
  show ((rawBytes P.kyberBytes).encode (P.kyberArray.symm cp.pl) ++
    (rawBytes 32).encode (P.xArray.symm cp.x)).length = _
  rw [List.length_append, encode_rawBytes, encode_rawBytes, Fixed.length_eq, Fixed.length_eq]
  rfl

/-- The bytes of a middle packet. -/
theorem encode_middlePacket (mp : MiddlePacket P) :
    (middlePacket P).encode mp = (ciphertext P).encode mp.cp ++
      (mp.tag.toList ++ (base128Encode mp.bytes.toList.length ++ mp.bytes.toList)) := by
  show (ciphertext P).encode mp.cp ++ ((rawBytes cryptoTagSize).encode mp.tag ++
    (base128Encode mp.bytes.toList.length ++ encodeAll u8 mp.bytes.toList)) = _
  rw [encode_rawBytes, encodeAll_u8]

/-! ### No panic but the assertion -/

theorem noFault_middlePacket (input : Bytes) : NoFault ((middlePacket P).decode input) :=
  noFault_iso (noFault_pair (noFault_of_takes (takes_ciphertext P))
    (noFault_pair (noFault_of_takes (takes_rawBytes _)) (noFault_arrayVec_u8 _))) _ input

theorem noFault_outerPacket (input : Bytes) : NoFault ((outerPacket P).decode input) := by
  refine noFault_iso (noFault_pair (fun input f hfault => ?_) noFault_middlePacket) _ input
  rw [decode_peerIdCodec] at hfault
  cases hid : P.readPeerId input with
  | none =>
      rw [hid] at hfault
      cases hfault
  | some r =>
      rw [hid] at hfault
      cases hfault

/-! ### The length in a middle packet -/

/-- Behind a ciphertext and a tag stands a length that fits, with as many bytes behind it, or,
where a rest is a panic, more of them. -/
def LengthFits (P : Primitives) (debugAssertions : Bool) (bytes : Bytes) : Prop :=
  P.ciphertextSize + cryptoTagSize ≤ bytes.length ∧ ∃ len left,
    (usize.decode (bytes.drop (P.ciphertextSize + cryptoTagSize))).result = .ok (len, left) ∧
      len.toNat ≤ P.maxInnerPacketSize ∧ len.toNat ≤ left.length ∧
      (left.length = len.toNat ∨ debugAssertions = true)

/-- **Mistaken layers.** A peer id can be read off the front of the bytes, and behind it the
length of a middle packet fits. -/
def Mistaken (P : Primitives) (debugAssertions : Bool) (bytes : Bytes) : Prop :=
  ∃ id rest, P.readPeerId bytes = some (id, rest) ∧ LengthFits P debugAssertions rest

section Length

variable {debugAssertions : Bool} {buffer : Bytes}

theorem accepts_middlePacket_iff :
    Accepts debugAssertions (middlePacket P) buffer ↔ LengthFits P debugAssertions buffer := by
  unfold middlePacket
  rw [accepts_iso_iff, accepts_pair_iff_of_takes (takes_ciphertext P),
    accepts_pair_iff_of_takes (takes_rawBytes cryptoTagSize), accepts_arrayVec_u8_iff,
    List.length_drop, List.drop_drop, LengthFits, ← and_assoc]
  exact and_congr_left fun _ => by omega

/-- The decoder of the outer layer takes bytes for a packet exactly where they are mistaken. -/
theorem mistaken_iff :
    Mistaken P debugAssertions buffer ↔ Accepts debugAssertions (outerPacket P) buffer := by
  unfold outerPacket
  rw [accepts_iso_iff]
  have hdecode := decode_peerIdCodec (P := P) buffer
  cases hid : P.readPeerId buffer with
  | none =>
      rw [hid] at hdecode
      refine iff_of_false ?_ (not_accepts_of_error (result_andThen_error hdecode))
      rintro ⟨_, _, h, -⟩
      rw [hid] at h
      cases h
  | some r =>
      obtain ⟨id, rest⟩ := r
      rw [hid] at hdecode
      rw [accepts_pair_iff_of_ok hdecode, accepts_middlePacket_iff]
      constructor
      · rintro ⟨_, _, h, hfits⟩
        rw [hid] at h
        cases h
        exact hfits
      · exact fun hfits => ⟨id, rest, hid, hfits⟩

/-- A ciphertext is too short for the length of a middle packet. -/
theorem not_lengthFits_of_short (h : buffer.length ≤ P.ciphertextSize) :
    ¬ LengthFits P debugAssertions buffer := by
  rintro ⟨hlong, -⟩
  have htag : 0 < cryptoTagSize := by decide
  omega

theorem decodeExact_middle_ciphertext (cp : Ciphertext P.ex) :
    decodeExact debugAssertions (middlePacket P) ((ciphertext P).encode cp) = some none := by
  rw [decodeExact_eq_none_iff (noFault_middlePacket _), accepts_middlePacket_iff]
  exact not_lengthFits_of_short (length_ciphertext cp).le

theorem decodeExact_outer_ciphertext (cp : Ciphertext P.ex) :
    decodeExact debugAssertions (outerPacket P) ((ciphertext P).encode cp) = some none := by
  rw [decodeExact_eq_none_iff (noFault_outerPacket _), ← mistaken_iff]
  rintro ⟨id, rest, hid, hfits⟩
  have hshort := P.length_read hid
  rw [length_ciphertext] at hshort
  exact not_lengthFits_of_short hshort hfits

end Length

end OnionNetwork.Onion
