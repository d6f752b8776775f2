import OnionNetwork.Onion.Packet

/-!
# Opening a path

The two ends of a path, `upgrade_outbound_low` of the client and `upgrade_inbound_low` of the
recipient. The transport hands over what was sent in chunks of its choice. `read_exact` puts
chunks together, `read` takes what there is of one.
-/

namespace OnionNetwork.Onion

open Lib Codec Parser Opfusk Enc Chat

/-! ## Streams -/

/-- What the reads of a stream hand over, one after the other, up to its end. -/
abbrev Incoming := List Bytes

/-- `read` into a buffer with some room. -/
def read (room : Nat) : Incoming → Bytes × Incoming
  | [] => ([], [])
  | chunk :: chunks =>
      (chunk.take room, if chunk.length ≤ room then chunks else chunk.drop room :: chunks)

/-- `read_exact`: a read of no bytes is an `UnexpectedEof`. -/
def readExact : Nat → Incoming → Except ErrorKind (Bytes × Incoming)
  | 0, chunks => .ok ([], chunks)
  | _ + 1, [] => .error .unexpectedEof
  | n + 1, chunk :: chunks =>
      if chunk = [] then .error .unexpectedEof
      else if chunk.length ≤ n then
        (readExact (n + 1 - chunk.length) chunks).map fun r => (chunk ++ r.1, r.2)
      else .ok ((read (n + 1) (chunk :: chunks)))
  termination_by _ chunks => chunks.length

/-- The chunks carry the bytes; none of them is empty, which would be the end. -/
structure Carries (chunks : Incoming) (bytes : Bytes) : Prop where
  flatten : chunks.flatten = bytes
  nonempty : ∀ chunk ∈ chunks, chunk ≠ []

/-! ## The first byte of an answer -/

/-- `packet::OK`. -/
def okPeer : UInt8 := 0

/-- `packet::MISSING_PEER`. -/
def missingPeer : UInt8 := 1

/-- `packet::OCCUPIED_PEER`. -/
def occupiedPeer : UInt8 := 2

variable {P : Primitives}

/-! ## The client -/

/-- `StreamRequest`. -/
structure StreamRequest (P : Primitives) where
  toPeer : P.PeerId
  pathId : Nat
  recipient : PublicKey P.ex
  recipientId : P.PeerId
  midRecipient : PublicKey P.ex
  midId : P.PeerId

/-- `IncomingStreamMeta`. -/
structure IncomingStreamMeta (P : Primitives) where
  toPeer : P.PeerId
  buffer : Bytes

/-- `IncomingOrRequest`, the stream aside. -/
inductive IncomingOrRequest (P : Primitives)
  | incoming (i : IncomingStreamMeta P)
  | request (r : StreamRequest P)

/-- `OUpgradeError`. -/
inductive OUpgradeError
  | missingPeer
  | occupiedPeer
  | malformedPacket
  | authenticationFailed
  | unknownPacketKind (kind : UInt8)
  | writePacketLength (e : ErrorKind)
  | writePacket (e : ErrorKind)
  | readPacketKind (e : ErrorKind)
  | readPacket (e : ErrorKind)
  deriving DecidableEq, Repr

/-- `ChannelSource`. -/
inductive ChannelSource (P : Primitives)
  | relay (result : Except OUpgradeError Unit)
  | thisNode (result : Except OUpgradeError SharedSecret) (pathId : Nat) (peerId : P.PeerId)

/-- `ChannelMeta`, with what the upgrade left in the stream. -/
structure ChannelMeta (P : Primitives) where
  source : ChannelSource P
  left : Incoming

/-- How the two `write_all` end, of the length of the packet and of the packet. -/
structure Writes where
  length : Except ErrorKind Unit
  packet : Except ErrorKind Unit

/-- The block `write`. -/
def Writes.result (writes : Writes) : Except OUpgradeError Unit := do
  writes.length.mapError .writePacketLength
  writes.packet.mapError .writePacket

/-- `crypto::decrypt` of a buffer that is the tag. -/
def authenticates (aead : Aead) (buffer : Bytes) (ss : SharedSecret) : Bool :=
  (aead.decrypt [] ss buffer).isSome

/-- `Vec::resize`, with zeros. -/
def resize (bytes : Bytes) (len : Nat) : Bytes :=
  bytes.take len ++ List.replicate (len - bytes.length) 0

/-- The block `read`, behind the writes. -/
def readAnswer (aead : Aead) (writtenPacket : Bytes) (ss : SharedSecret) (stream : Incoming) :
    Except OUpgradeError SharedSecret × Incoming :=
  match readExact 1 stream with
  | .error e => (.error (.readPacketKind e), stream)
  | .ok (kind, stream) =>
      let kind := kind.headD 0
      if kind = okPeer then
        let buffer := resize writtenPacket cryptoTagSize
        let (data, stream) := read buffer.length stream
        let buffer := data ++ buffer.drop data.length
        (if authenticates aead buffer ss then .ok ss else .error .authenticationFailed, stream)
      else if kind = missingPeer then (.error .missingPeer, stream)
      else if kind = occupiedPeer then (.error .occupiedPeer, stream)
      else (.error (.unknownPacketKind kind), stream)

/-- `upgrade_outbound_low`, with what is drawn; a packet that does not fit is a panic. -/
def upgradeOutboundLow (keypair : Keypair P.ex) (rng midRng : P.ex.Rng) (aeadRng : P.aead.Rng)
    (writes : Writes) (stream : Incoming) : IncomingOrRequest P → Option (ChannelMeta P)
  | .incoming _ => some ⟨.relay writes.result, stream⟩
  | .request r =>
      (OuterPacket.new r.recipient r.recipientId r.midRecipient r.midId keypair rng midRng
        aeadRng).map fun (packet, ss) =>
          let (result, stream) := match writes.result with
            | .error e => (Except.error e, stream)
            | .ok () => readAnswer P.aead ((outerPacket P).encode packet) ss stream
          ⟨.thisNode result r.pathId r.recipientId, stream⟩

/-! ## The recipient -/

/-- What `upgrade_inbound_low` writes for a client, with what is drawn. -/
def authPacket (aead : Aead) (ss : SharedSecret) (rng : aead.Rng) : Bytes :=
  okPeer :: (aead.encrypt [] ss rng).1.2

/-- `upgrade_inbound_low`, on the packet that it reads: what it writes. -/
def answerInbound (debugAssertions : Bool) (keypair : Keypair P.ex) (rng : P.aead.Rng)
    (buffer : Bytes) : Option Bytes :=
  match upgradeInboundLow debugAssertions keypair buffer with
  | some (some (.response ss)) => some (authPacket P.aead ss rng)
  | some (some (.incoming _ _)) | some none => some []
  | none => none

/-! ## What a read leaves -/

/-- No read ends inside of these bytes. -/
def Uncut (start stop : Nat) (chunks : Incoming) : Prop :=
  ∀ front, front <+: chunks → front.flatten.length ≤ start ∨ stop ≤ front.flatten.length

variable {chunk bytes : Bytes} {chunks : Incoming} {start stop : Nat}

theorem uncut_cons :
    Uncut start stop (chunk :: chunks) ↔
      ∀ front, front <+: chunks → chunk.length + front.flatten.length ≤ start ∨
        stop ≤ chunk.length + front.flatten.length := by
  constructor
  · intro h front hfront
    have hcons := h (chunk :: front) ((List.prefix_cons_inj chunk).mpr hfront)
    simpa using hcons
  · intro h front hfront
    rcases List.prefix_cons_iff.mp hfront with rfl | ⟨rest, rfl, hrest⟩
    · simp
    · simpa using h rest hrest

/-- At the start of a stream only the first chunk matters. -/
theorem uncut_zero (hchunk : chunk ≠ []) :
    Uncut 0 stop (chunk :: chunks) ↔ stop ≤ chunk.length := by
  have hpos : 0 < chunk.length := List.length_pos_of_ne_nil hchunk
  rw [uncut_cons]
  constructor
  · intro h
    have hnone := h [] List.nil_prefix
    simp only [List.flatten_nil, List.length_nil] at hnone
    omega
  · intro h front hfront
    omega

/-- A read takes from the front. -/
theorem read_append (room : Nat) (chunks : Incoming) :
    (read room chunks).1 ++ (read room chunks).2.flatten = chunks.flatten := by
  cases chunks with
  | nil => rfl
  | cons chunk chunks =>
      simp only [read]
      split
      · next hle => rw [List.take_of_length_le hle, List.flatten_cons]
      · rw [List.flatten_cons, List.flatten_cons, ← List.append_assoc, List.take_append_drop]

theorem length_read_cons (room : Nat) (chunk : Bytes) (chunks : Incoming) :
    (read room (chunk :: chunks)).1.length = min room chunk.length := by
  simp [read]

/-- The first byte of a stream, and what is behind it. -/
theorem Carries.readExact_one {b : UInt8} (h : Carries chunks (b :: bytes)) :
    ∃ rest, readExact 1 chunks = .ok ([b], rest) ∧ Carries rest bytes ∧
      ∀ n, Uncut 1 (1 + n) chunks ↔ Uncut 0 n rest := by
  obtain ⟨hflatten, hnonempty⟩ := h
  cases chunks with
  | nil => cases hflatten
  | cons chunk chunks =>
      obtain ⟨hchunk, hchunks⟩ := List.forall_mem_cons.mp hnonempty
      cases chunk with
      | nil => exact absurd rfl hchunk
      | cons c chunk =>
          obtain ⟨rfl, hbytes⟩ := List.cons.inj hflatten
          cases chunk with
          | nil =>
              refine ⟨chunks, by simp [readExact, read], ⟨hbytes, hchunks⟩, fun n => ?_⟩
              rw [uncut_cons]
              refine forall₂_congr fun front hfront => ?_
              simp only [List.length_singleton]
              omega
          | cons d chunk =>
              refine ⟨(d :: chunk) :: chunks, by simp [readExact, read], ⟨hbytes, ?_⟩, fun n => ?_⟩
              · exact List.forall_mem_cons.mpr ⟨List.cons_ne_nil d chunk, hchunks⟩
              · rw [uncut_cons, uncut_cons]
                refine forall₂_congr fun front hfront => ?_
                simp only [List.length_cons]
                omega

/-- **One read** gets all of what comes first exactly if it is not cut; otherwise it leaves more
than what comes behind. -/
theorem Carries.read {front later : Bytes} (h : Carries chunks (front ++ later))
    (hfront : front ≠ []) :
    (Uncut 0 front.length chunks → (read front.length chunks).1 = front ∧
        (read front.length chunks).2.flatten = later) ∧
      (¬ Uncut 0 front.length chunks → (read front.length chunks).2.flatten ≠ later) := by
  have happend := read_append front.length chunks
  rw [h.flatten] at happend
  cases chunks with
  | nil => exact absurd (List.append_eq_nil_iff.mp h.flatten.symm).1 hfront
  | cons chunk chunks =>
      have hlength := length_read_cons front.length chunk chunks
      rw [uncut_zero (h.nonempty chunk List.mem_cons_self)]
      constructor
      · intro hle
        rw [min_eq_left hle] at hlength
        exact List.append_inj happend hlength
      · intro hcut heq
        have htotal := congrArg List.length happend
        rw [heq, List.length_append, List.length_append] at htotal
        omega

@[simp] theorem length_resize (bytes : Bytes) (len : Nat) : (resize bytes len).length = len := by
  simp only [resize, List.length_append, List.length_take, List.length_replicate]
  omega

/-- What a client makes of a recipient that accepts it. -/
theorem readAnswer_ok {aead : Aead} (written : Bytes) {tag later : Bytes} {ss : SharedSecret}
    (htag : tag.length = cryptoTagSize) (hauthentic : authenticates aead tag ss)
    (h : Carries chunks (okPeer :: (tag ++ later))) :
    (Uncut 1 (1 + cryptoTagSize) chunks →
        (readAnswer aead written ss chunks).1 = .ok ss ∧
          (readAnswer aead written ss chunks).2.flatten = later) ∧
      (¬ Uncut 1 (1 + cryptoTagSize) chunks →
        (readAnswer aead written ss chunks).2.flatten ≠ later) := by
  obtain ⟨rest, hread, hrest, huncut⟩ := h.readExact_one
  have hnonempty : tag ≠ [] := by
    rintro rfl
    cases htag
  have htake := hrest.read hnonempty
  rw [htag] at htake
  rw [huncut cryptoTagSize]
  simp only [readAnswer, hread, List.headD_cons, if_true, length_resize]
  constructor
  · intro hwhole
    obtain ⟨hdata, hleft⟩ := htake.1 hwhole
    refine ⟨?_, hleft⟩
    have hdrop : (resize written cryptoTagSize).drop tag.length = [] :=
      List.drop_eq_nil_of_le (by rw [length_resize, htag])
    rw [hdata, hdrop, List.append_nil, if_pos hauthentic]
  · exact htake.2

end OnionNetwork.Onion
