import OnionNetwork.Onion.Packet

/-!
# The path of a packet

A packet peels to the path it was made for exactly when the bytes of its middle layer are not
mistaken for an outer layer (`peels_iff`). The bytes in question are those of a ciphertext and
of what is encrypted, so no client can choose them. In a build with debug assertions it takes
less to be mistaken, and more bytes behind the mistaken packet are a panic.
-/

namespace OnionNetwork.Onion

open Lib Codec Parser Opfusk Enc

variable {P : Primitives} {debugAssertions : Bool}

/-! ### One layer after the other -/

theorem encodeInto_eq {bytes buffer : Bytes} (h : bytes.length ≤ buffer.length) :
    encodeInto bytes buffer = some (bytes ++ buffer.drop bytes.length) := if_pos h

/-- The entry node passes the middle packet on. -/
theorem peel_outer (debugAssertions : Bool) (nodeKp : Keypair P.ex) (op : OuterPacket P) :
    ∃ len buffer, peel debugAssertions nodeKp ((outerPacket P).encode op) =
        some (some (.inl op.toPeer, len, buffer)) ∧
      len ≤ buffer.length ∧ buffer.take len = (middlePacket P).encode op.mid := by
  have hfits : ((middlePacket P).encode op.mid).length ≤ ((outerPacket P).encode op).length := by
    show _ ≤ (P.writePeerId op.toPeer ++ (middlePacket P).encode op.mid).length
    rw [List.length_append]
    omega
  have hpeel : peel debugAssertions nodeKp ((outerPacket P).encode op) =
      some (some (.inl op.toPeer, ((middlePacket P).encode op.mid).length,
        (middlePacket P).encode op.mid ++
          ((outerPacket P).encode op).drop ((middlePacket P).encode op.mid).length)) := by
    unfold peel
    simp only [decodeExact_encode exact_outerPacket, encodeInto_eq hfits, Option.map_some]
  refine ⟨_, _, hpeel, ?_, List.take_left⟩
  rw [List.length_append]
  omega

/-- The middle node passes the ciphertext on, if it does not mistake the packet. -/
theorem peel_middlePacket {nodeKp : Keypair P.ex} {mp : MiddlePacket P} {ss : SharedSecret}
    {ip : InnerMostPacket P} (hnot : ¬ Mistaken P debugAssertions ((middlePacket P).encode mp))
    (hss : nodeKp.decapsulate mp.cp = .ok ss)
    (hplain : P.aead.decrypt mp.bytes.toList ss mp.tag.toList =
      some ((innerMostPacket P).encode ip)) :
    ∃ len buffer, peel debugAssertions nodeKp ((middlePacket P).encode mp) =
        some (some (.inl ip.toPeer, len, buffer)) ∧
      len ≤ buffer.length ∧ buffer.take len = (ciphertext P).encode ip.cp := by
  have houter : decodeExact debugAssertions (outerPacket P) ((middlePacket P).encode mp) =
      some none := by
    rw [decodeExact_eq_none_iff (noFault_outerPacket _), ← mistaken_iff]
    exact hnot
  have hbytes : mp.bytes.toList.length ≤ ((middlePacket P).encode mp).length := by
    rw [encode_middlePacket]
    simp only [List.length_append]
    omega
  obtain ⟨buffer, hbuffer⟩ : ∃ buffer, (innerMostPacket P).encode ip ++
      ((middlePacket P).encode mp).drop mp.bytes.toList.length = buffer := ⟨_, rfl⟩
  have hcp : ((ciphertext P).encode ip.cp).length ≤ buffer.length := by
    rw [← hbuffer]
    show _ ≤ (P.writePeerId ip.toPeer ++ (ciphertext P).encode ip.cp ++ _).length
    simp only [List.length_append]
    omega
  have hpeel : peel debugAssertions nodeKp ((middlePacket P).encode mp) =
      some (some (.inl ip.toPeer, ((ciphertext P).encode ip.cp).length,
        (ciphertext P).encode ip.cp ++ buffer.drop ((ciphertext P).encode ip.cp).length)) := by
    unfold peel
    simp only [houter, decodeExact_encode exact_middlePacket]
    unfold peelMiddle
    simp only [hss, encodeInto_eq hbytes, hplain, decodeExact_encode exact_innerMostPacket,
      hbuffer, encodeInto_eq hcp, length_ciphertext]
  refine ⟨_, _, hpeel, ?_, List.take_left⟩
  rw [List.length_append]
  omega

/-- The recipient gets the secret. -/
theorem peel_ciphertext {nodeKp : Keypair P.ex} {cp : Ciphertext P.ex} {ss : SharedSecret}
    (hss : nodeKp.decapsulate cp = .ok ss) :
    peel debugAssertions nodeKp ((ciphertext P).encode cp) =
      some (some (.inr ss, 0, (ciphertext P).encode cp)) := by
  unfold peel
  simp only [decodeExact_outer_ciphertext, decodeExact_middle_ciphertext,
    decodeExact_encode exact_ciphertext, hss]

/-- A middle packet is never peeled to a secret. -/
theorem peel_middlePacket_ne_secret (nodeKp : Keypair P.ex) (mp : MiddlePacket P)
    (ss : SharedSecret) (len : Nat) (buffer : Bytes) :
    peel debugAssertions nodeKp ((middlePacket P).encode mp) ≠
      some (some (.inr ss, len, buffer)) := by
  intro h
  unfold peel at h
  rw [decodeExact_encode exact_middlePacket] at h
  cases houter : decodeExact debugAssertions (outerPacket P) ((middlePacket P).encode mp) with
  | none =>
      rw [houter] at h
      cases h
  | some decoded =>
      cases decoded with
      | some op =>
          simp only [houter] at h
          cases hinto :
              encodeInto ((middlePacket P).encode op.mid) ((middlePacket P).encode mp) with
          | none =>
              rw [hinto] at h
              cases h
          | some written =>
              rw [hinto] at h
              cases h
      | none =>
          simp only [houter] at h
          unfold peelMiddle at h
          split at h
          · cases h
          · split at h
            · cases h
            · split at h
              · cases h
              · dsimp only at h
                split at h
                · cases h
                · cases h
                · split at h <;> cases h

/-- A mistaken packet is passed on as a middle packet, if at all. -/
theorem peel_of_mistaken {nodeKp : Keypair P.ex} {bytes : Bytes}
    (h : Mistaken P debugAssertions bytes) {target : P.PeerId ⊕ SharedSecret} {len : Nat}
    {buffer : Bytes}
    (hpeel : peel debugAssertions nodeKp bytes = some (some (target, len, buffer))) :
    ∃ mp, buffer.take len = (middlePacket P).encode mp := by
  have houter : decodeExact debugAssertions (outerPacket P) bytes ≠ some none := by
    rw [Ne, decodeExact_eq_none_iff (noFault_outerPacket _), ← mistaken_iff, not_not]
    exact h
  unfold peel at hpeel
  cases hdecoded : decodeExact debugAssertions (outerPacket P) bytes with
  | none =>
      rw [hdecoded] at hpeel
      cases hpeel
  | some decoded =>
      cases decoded with
      | none => exact absurd hdecoded houter
      | some op =>
          simp only [hdecoded] at hpeel
          by_cases hfits : ((middlePacket P).encode op.mid).length ≤ bytes.length
          · rw [encodeInto_eq hfits] at hpeel
            cases hpeel
            exact ⟨op.mid, List.take_left⟩
          · rw [show encodeInto ((middlePacket P).encode op.mid) bytes = none from
              if_neg hfits] at hpeel
            cases hpeel

/-! ### The whole path -/

/-- The packet peels to the path: to the middle node, there to the recipient, and there to the
secret of the client, with lengths within the buffers. -/
def Peels (debugAssertions : Bool) (entry middle recipient : Keypair P.ex) (packet : Bytes)
    (midId recipientId : P.PeerId) (key : SharedSecret) : Prop :=
  ∃ len buffer, peel debugAssertions entry packet = some (some (.inl midId, len, buffer)) ∧
    len ≤ buffer.length ∧
    ∃ len' buffer', peel debugAssertions middle (buffer.take len) =
        some (some (.inl recipientId, len', buffer')) ∧ len' ≤ buffer'.length ∧
      ∃ len'' buffer'', peel debugAssertions recipient (buffer'.take len') =
        some (some (.inr key, len'', buffer'')) ∧ len'' ≤ buffer''.length

/-- On such a path each node turns its stream into the right one. -/
theorem Peels.upgrades {entry middle recipient : Keypair P.ex} {packet : Bytes}
    {midId recipientId : P.PeerId} {key : SharedSecret}
    (h : Peels debugAssertions entry middle recipient packet midId recipientId key) :
    ∃ forwarded forwarded',
      upgradeInboundLow debugAssertions entry packet = some (some (.incoming midId forwarded)) ∧
        upgradeInboundLow debugAssertions middle forwarded =
          some (some (.incoming recipientId forwarded')) ∧
        upgradeInboundLow debugAssertions recipient forwarded' = some (some (.response key)) := by
  obtain ⟨len, buffer, hentry, hlen, len', buffer', hmiddle, hlen', _, _, hrecipient, -⟩ := h
  refine ⟨buffer.take len, buffer'.take len', ?_, ?_, ?_⟩
  · unfold upgradeInboundLow
    simp only [hentry, if_pos hlen]
  · unfold upgradeInboundLow
    simp only [hmiddle, if_pos hlen']
  · unfold upgradeInboundLow
    simp only [hrecipient]

/-- What the client puts into a packet. -/
structure Addressed (packet : OuterPacket P) (middle : Keypair P.ex) (midId recipientId : P.PeerId)
    (cp : Ciphertext P.ex) : Prop where
  toPeer : packet.toPeer = midId
  sealed : ∃ ss, middle.decapsulate packet.mid.cp = .ok ss ∧
    P.aead.decrypt packet.mid.bytes.toList ss packet.mid.tag.toList =
      some ((innerMostPacket P).encode ⟨recipientId, cp⟩)

section New

variable (recipient middle clientKp : Keypair P.ex) (recipientId midId : P.PeerId)
  (rng midRng : P.ex.Rng) (aeadRng : P.aead.Rng)

/-- What is encrypted for the middle node. -/
def innerBytes : Bytes :=
  (innerMostPacket P).encode ⟨recipientId, (clientKp.encapsulate recipient.publicKey rng).1⟩

/-- The encrypted bytes and the tag. -/
def sealedBytes : Bytes × Bytes :=
  (P.aead.encrypt (innerBytes recipient clientKp recipientId rng)
    (clientKp.encapsulate middle.publicKey midRng).2 aeadRng).1

/-- `OuterPacket::new` does not panic: the innermost packet fits. -/
theorem exists_new :
    ∃ packet, OuterPacket.new recipient.publicKey recipientId middle.publicKey midId clientKp rng
        midRng aeadRng = some (packet, (clientKp.encapsulate recipient.publicKey rng).2) ∧
      packet.toPeer = midId ∧
      packet.mid.cp = (clientKp.encapsulate middle.publicKey midRng).1 ∧
      packet.mid.bytes.toList =
        (sealedBytes recipient middle clientKp recipientId rng midRng aeadRng).1 ∧
      packet.mid.tag.toList =
        (sealedBytes recipient middle clientKp recipientId rng midRng aeadRng).2 := by
  have hfits : (innerBytes recipient clientKp recipientId rng).length ≤ P.maxInnerPacketSize := by
    show (P.writePeerId recipientId ++ (ciphertext P).encode _).length ≤ _
    have hid := P.length_write recipientId
    rw [List.length_append, length_ciphertext, Primitives.maxInnerPacketSize]
    omega
  unfold OuterPacket.new
  exact ⟨_, dif_pos hfits, rfl, rfl, rfl, rfl⟩

theorem exists_addressed :
    ∃ packet, OuterPacket.new recipient.publicKey recipientId middle.publicKey midId clientKp rng
        midRng aeadRng = some (packet, (clientKp.encapsulate recipient.publicKey rng).2) ∧
      Addressed packet middle midId recipientId
        (clientKp.encapsulate recipient.publicKey rng).1 := by
  obtain ⟨packet, hnew, hid, hcp, hbytes, htag⟩ :=
    exists_new recipient middle clientKp recipientId midId rng midRng aeadRng
  refine ⟨packet, hnew, hid, (clientKp.encapsulate middle.publicKey midRng).2, ?_, ?_⟩
  · rw [hcp]
    exact Keypair.decapsulate_encapsulate P.exLawful clientKp middle midRng
  · rw [hbytes, htag]
    exact P.aeadLawful.decrypt_encrypt _ _ _

end New

/-- A packet peels to its path exactly when its middle layer is not mistaken. -/
theorem Addressed.peels_iff_not_mistaken {packet : OuterPacket P} {middle recipient : Keypair P.ex}
    {midId recipientId : P.PeerId} {cp : Ciphertext P.ex} {key : SharedSecret}
    (h : Addressed packet middle midId recipientId cp) (hkey : recipient.decapsulate cp = .ok key)
    (entry : Keypair P.ex) :
    Peels debugAssertions entry middle recipient ((outerPacket P).encode packet) midId recipientId
        key ↔
      ¬ Mistaken P debugAssertions ((middlePacket P).encode packet.mid) := by
  obtain ⟨len, buffer, hentry, hlen, hforward⟩ :=
    peel_outer debugAssertions entry packet
  constructor
  · rintro ⟨_, _, hentry', -, len', buffer', hmiddle, -, _, _, hsecret, -⟩ hmistaken
    rw [hentry] at hentry'
    cases hentry'
    rw [hforward] at hmiddle
    obtain ⟨mp, hmp⟩ := peel_of_mistaken hmistaken hmiddle
    rw [hmp] at hsecret
    exact peel_middlePacket_ne_secret _ _ _ _ _ hsecret
  · intro hnot
    obtain ⟨ss, hss, hplain⟩ := h.sealed
    obtain ⟨len', buffer', hmiddle, hlen', hforward'⟩ := peel_middlePacket hnot hss hplain
    refine ⟨len, buffer, h.toPeer ▸ hentry, hlen, len', buffer', ?_, hlen', 0,
      (ciphertext P).encode cp, ?_, Nat.zero_le _⟩
    · rw [hforward]
      exact hmiddle
    · rw [hforward']
      exact peel_ciphertext hkey

/-- **A packet peels to its path** exactly when the bytes of its middle layer do not start with
a peer id that the length of a middle packet follows. -/
theorem peels_iff (debugAssertions : Bool) (entry middle recipient clientKp : Keypair P.ex)
    (midId recipientId : P.PeerId) (rng midRng : P.ex.Rng) (aeadRng : P.aead.Rng) :
    ∃ packet key,
      OuterPacket.new recipient.publicKey recipientId middle.publicKey midId clientKp rng midRng
        aeadRng = some (packet, key) ∧
      (Peels debugAssertions entry middle recipient ((outerPacket P).encode packet) midId
          recipientId key ↔
        ¬ Mistaken P debugAssertions ((middlePacket P).encode packet.mid)) := by
  obtain ⟨packet, hnew, haddressed⟩ :=
    exists_addressed recipient middle clientKp recipientId midId rng midRng aeadRng
  have hkey := Keypair.decapsulate_encapsulate P.exLawful clientKp recipient rng
  exact ⟨packet, _, hnew, haddressed.peels_iff_not_mistaken hkey entry⟩

/-! ### Examples -/

/-- A peer id and the rest are read as they were written. -/
theorem mistaken_of_append (id : P.PeerId) {block left : Bytes}
    (hblock : block.length = P.ciphertextSize + cryptoTagSize)
    (hleft : left.length ≤ P.maxInnerPacketSize) :
    Mistaken P debugAssertions
      (P.writePeerId id ++ (block ++ (base128Encode left.length ++ left))) := by
  have hlt : left.length < usizeSize := lt_of_le_of_lt hleft P.maxInnerPacketSize_lt
  have hlen : (BitVec.ofNat 64 left.length).toNat = left.length := toNat_ofNat_length hlt
  refine ⟨id, _, P.read_write id _, ?_, BitVec.ofNat 64 left.length, left, ?_, ?_, ?_, ?_⟩
  · rw [List.length_append, hblock]
    omega
  · rw [← hblock, List.drop_left]
    exact result_usize hlt left
  · rwa [hlen]
  · exact hlen.le
  · exact .inl hlen.symm

/-- A peer id: the code of a hash, which is SHA-256 or stands for an inlined key, and the
digest. -/
structure Multihash where
  code : UInt8
  digest : Bytes
  valid : (code = 0x12 ∧ digest.length ≤ 64) ∨ (code = 0 ∧ digest.length ≤ 42)

namespace Multihash

/-- `Multihash::write`: the code and the size are varints of one byte. -/
def write (id : Multihash) : Bytes := id.code :: UInt8.ofNat id.digest.length :: id.digest

/-- `Multihash::read` and `PeerId::from_multihash`. -/
def read : Bytes → Option (Multihash × Bytes)
  | code :: size :: rest =>
      let digest := rest.take size.toNat
      if h : size.toNat ≤ rest.length ∧
          ((code = 0x12 ∧ digest.length ≤ 64) ∨ (code = 0 ∧ digest.length ≤ 42)) then
        some (⟨code, digest, h.2⟩, rest.drop size.toNat)
      else none
  | _ => none

theorem length_digest_le (id : Multihash) : id.digest.length ≤ 64 := by
  rcases id.valid with h | h <;> omega

theorem read_write (id : Multihash) (rest : Bytes) : read (id.write ++ rest) = some (id, rest) := by
  obtain ⟨code, digest, valid⟩ := id
  have hle : digest.length ≤ 64 := length_digest_le ⟨code, digest, valid⟩
  have hsize : (UInt8.ofNat digest.length).toNat = digest.length := by
    rw [UInt8.toNat_ofNat']
    omega
  show read (code :: UInt8.ofNat digest.length :: (digest ++ rest)) = _
  unfold read
  simp only [hsize, List.take_left, List.drop_left]
  rw [dif_pos ⟨by rw [List.length_append]; omega, valid⟩]

/-- Other codes are no peer ids. -/
theorem read_of_code {code size : UInt8} {rest : Bytes} (hsha : code ≠ 0x12) (hkey : code ≠ 0) :
    read (code :: size :: rest) = none := by
  unfold read
  refine dif_neg ?_
  rintro ⟨-, h | h⟩
  · exact hsha h.1
  · exact hkey h.1

theorem length_read {input rest : Bytes} {id : Multihash} (h : read input = some (id, rest)) :
    rest.length ≤ input.length := by
  unfold read at h
  split at h
  · next code size tail =>
      dsimp only at h
      split at h
      · cases h
        rw [List.length_drop, List.length_cons, List.length_cons]
        omega
      · cases h
  · cases h

theorem length_write (id : Multihash) : id.write.length ≤ 80 := by
  have hle := id.length_digest_le
  show id.digest.length + 1 + 1 ≤ 80
  omega

end Multihash

/-- A key exchange whose ciphertext is what was drawn for it. -/
def drawn (n : Nat) : Exchange SharedSecret where
  KyberSeed := Unit
  KyberSecret := Unit
  KyberPublic := Unit
  KyberCiphertext := Fixed UInt8 n
  StaticSecret := Fixed UInt8 32
  XPublic := Fixed UInt8 32
  Rng := Fixed UInt8 n
  kyberGenerate _ := ((), ())
  kyberPublic := id
  kyberEncapsulate _ rng := (rng, 0)
  kyberDecapsulate _ _ := some 0
  xPublic := id
  diffieHellman _ _ := 0

theorem drawn_lawful (n : Nat) : (drawn n).Lawful where
  kyberPublic_generate _ := rfl
  decapsulate_encapsulate _ _ := rfl
  diffieHellman_comm _ _ := rfl

/-- Kyber768, peer ids of `libp2p`, and no encryption. -/
def bare : Primitives where
  ex := drawn 1088
  exLawful := drawn_lawful 1088
  aead := .plain
  aeadLawful := Aead.plain_lawful
  kyberBytes := 1088
  kyberArray := Equiv.refl _
  xArray := Equiv.refl _
  PeerId := Multihash
  writePeerId := Multihash.write
  readPeerId := Multihash.read
  peerIdSize := 80
  read_write := Multihash.read_write
  length_read := Multihash.length_read
  length_write := Multihash.length_write
  sizes_lt := by decide

/-- So many zeros. -/
def zeros (n : Nat) : Fixed UInt8 n := ⟨List.replicate n 0, List.length_replicate⟩

/-- Any key pair will do. -/
def bareKeypair : Keypair bare.ex := ⟨(), zeros 32⟩

/-- The peer id of a key of so many zeros. -/
def zerosId (n : Nat) (h : n ≤ 42) : Multihash :=
  ⟨0, List.replicate n 0, .inr ⟨rfl, by rwa [List.length_replicate]⟩⟩

/-- A ciphertext that starts like the peer id of a key of 42 bytes. -/
def mistakenRng : Fixed UInt8 1088 := ⟨[0, 42] ++ List.replicate 1086 0, by
  rw [List.length_append, List.length_replicate]
  rfl⟩

/-- One with the number of the bytes that are left, at the place where it is looked for. -/
def lengthRng : Fixed UInt8 1088 :=
  ⟨List.replicate 40 0 ++ ([182, 8] ++ List.replicate 1046 0), by
    rw [List.length_append, List.length_append, List.length_replicate, List.length_replicate]
    rfl⟩

theorem encode_bare (pl : Fixed UInt8 1088) (x : Fixed UInt8 32) :
    (ciphertext bare).encode ⟨pl, x⟩ = pl.toList ++ x.toList := by
  show (rawBytes 1088).encode pl ++ (rawBytes 32).encode x = _
  rw [encode_rawBytes, encode_rawBytes]

/-- A ciphertext that starts like no peer id. -/
def keptRng : Fixed UInt8 1088 := ⟨1 :: List.replicate 1087 0, by
  rw [List.length_cons, List.length_replicate]⟩

/-- A packet that peels to its path. -/
theorem packet_kept : ∃ packet key,
    OuterPacket.new (P := bare) bareKeypair.publicKey (zerosId 0 (by omega))
      bareKeypair.publicKey (zerosId 1 (by omega)) bareKeypair lengthRng keptRng () =
        some (packet, key) ∧
    Peels true bareKeypair bareKeypair bareKeypair ((outerPacket bare).encode packet)
      (zerosId 1 (by omega)) (zerosId 0 (by omega)) key := by
  obtain ⟨packet, key, hnew, hiff⟩ := peels_iff (P := bare) true bareKeypair bareKeypair
    bareKeypair bareKeypair (zerosId 1 (by omega)) (zerosId 0 (by omega)) lengthRng keptRng ()
  obtain ⟨packet', hnew', -, hcp, -, -⟩ := exists_new (P := bare) bareKeypair bareKeypair
    bareKeypair (zerosId 0 (by omega)) (zerosId 1 (by omega)) lengthRng keptRng ()
  obtain rfl : packet' = packet := congrArg Prod.fst (Option.some.inj (hnew'.symm.trans hnew))
  refine ⟨packet', key, hnew, hiff.mpr ?_⟩
  rintro ⟨id, rest, hread, -⟩
  have hcipher : (ciphertext bare).encode packet'.mid.cp =
      1 :: 0 :: (List.replicate 1086 0 ++ List.replicate 32 0) := by
    rw [hcp]
    exact encode_bare keptRng (zeros 32)
  rw [encode_middlePacket, hcipher] at hread
  rw [List.cons_append, List.cons_append] at hread
  have hnone : Multihash.read (1 :: 0 :: (List.replicate 1086 0 ++ List.replicate 32 0 ++
      (packet'.mid.tag.toList ++
        (base128Encode packet'.mid.bytes.toList.length ++ packet'.mid.bytes.toList)))) = none :=
    Multihash.read_of_code (by decide) (by decide)
  rw [show bare.readPeerId = Multihash.read from rfl, hnone] at hread
  cases hread

/-- The middle packet of a client that draws these ciphertexts: a peer id of 42 zeros, as many
bytes as a ciphertext and a tag have, the number 1078, and so many bytes. -/
theorem mistaken_lost {mp : MiddlePacket bare} (hcp : mp.cp = ⟨mistakenRng, zeros 32⟩)
    (htag : mp.tag.toList = List.replicate 28 0)
    (hbytes : mp.bytes.toList = [0, 0] ++ (lengthRng.toList ++ List.replicate 32 0)) :
    Mistaken bare debugAssertions ((middlePacket bare).encode mp) := by
  have hlength : mp.bytes.toList.length = 1122 := by
    rw [hbytes, List.length_append, List.length_append, lengthRng.length_eq, List.length_replicate]
    rfl
  have hprefix : base128Encode 1122 = [226, 8] := by
    rw [base128Encode_of_ge (by decide), base128Encode_of_lt (by decide)]
    rfl
  have hnumber : base128Encode 1078 = [182, 8] := by
    rw [base128Encode_of_ge (by decide), base128Encode_of_lt (by decide)]
    rfl
  obtain ⟨block, hblock⟩ : ∃ block : Bytes, block = List.replicate 1076 0 ++
      (List.replicate 28 0 ++ ([226, 8] ++ ([0, 0] ++ List.replicate 40 0))) := ⟨_, rfl⟩
  obtain ⟨left, hleft⟩ : ∃ left : Bytes, left = List.replicate 1046 0 ++ List.replicate 32 0 :=
    ⟨_, rfl⟩
  have hleftLength : left.length = 1078 := by
    rw [hleft, List.length_append, List.length_replicate, List.length_replicate]
  have hzeros : (List.replicate 1086 0 ++ List.replicate 32 0 : Bytes) =
      List.replicate 42 0 ++ List.replicate 1076 0 := by
    rw [List.replicate_append_replicate, List.replicate_append_replicate]
  have hencode : (middlePacket bare).encode mp = bare.writePeerId (zerosId 42 (le_refl _)) ++
      (block ++ (base128Encode left.length ++ left)) := by
    have hid : bare.writePeerId (zerosId 42 (le_refl _)) = [0, 42] ++ List.replicate 42 0 := rfl
    have hcipher : (ciphertext bare).encode mp.cp =
        [0, 42] ++ (List.replicate 42 0 ++ List.replicate 1076 0) := by
      rw [hcp, encode_bare, ← hzeros]
      exact List.append_assoc _ _ _
    rw [encode_middlePacket, hcipher, htag, hlength, hbytes, hprefix, hleftLength, hnumber, hid,
      hblock, hleft]
    simp only [lengthRng, List.append_assoc]
  rw [hencode]
  apply mistaken_of_append
  · rw [hblock]
    simp only [List.length_append, List.length_replicate]
    rfl
  · rw [hleftLength]
    exact Nat.le_of_ble_eq_true rfl

/-- **A lost packet.** The middle node passes it on to a peer that nobody asked for, in a build
with debug assertions as in one without. -/
theorem packet_lost : ∃ packet key,
    OuterPacket.new (P := bare) bareKeypair.publicKey (zerosId 0 (by omega))
      bareKeypair.publicKey (zerosId 1 (by omega)) bareKeypair lengthRng mistakenRng () =
        some (packet, key) ∧
    ∀ debugAssertions,
      ¬ Peels debugAssertions bareKeypair bareKeypair bareKeypair
        ((outerPacket bare).encode packet) (zerosId 1 (by omega)) (zerosId 0 (by omega)) key := by
  obtain ⟨packet, hnew, -, hcp, hbytes, htag⟩ := exists_new (P := bare) bareKeypair bareKeypair
    bareKeypair (zerosId 0 (by omega)) (zerosId 1 (by omega)) lengthRng mistakenRng ()
  obtain ⟨packet', hnew', haddressed⟩ := exists_addressed (P := bare) bareKeypair bareKeypair
    bareKeypair (zerosId 0 (by omega)) (zerosId 1 (by omega)) lengthRng mistakenRng ()
  obtain rfl : packet' = packet := congrArg Prod.fst (Option.some.inj (hnew'.symm.trans hnew))
  have hinner : innerBytes (P := bare) bareKeypair bareKeypair (zerosId 0 (by omega)) lengthRng =
      [0, 0] ++ (lengthRng.toList ++ List.replicate 32 0) := by
    show Multihash.write (zerosId 0 (by omega)) ++
      (ciphertext bare).encode ⟨lengthRng, zeros 32⟩ = _
    rw [encode_bare]
    rfl
  have hkey := Keypair.decapsulate_encapsulate bare.exLawful bareKeypair bareKeypair lengthRng
  refine ⟨packet', _, hnew, fun debugAssertions => ?_⟩
  rw [haddressed.peels_iff_not_mistaken hkey bareKeypair, not_not]
  exact mistaken_lost hcp (htag.trans rfl) (hbytes.trans hinner)

end OnionNetwork.Onion
