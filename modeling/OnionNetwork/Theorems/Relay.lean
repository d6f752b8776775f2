import OnionNetwork.Onion.Behaviour
import OnionNetwork.Theorems.OnionPath
import OnionNetwork.Gateway.Behaviour

/-!
# Relaying, and who may use a gateway

A relay copies faithfully (`channels_copy`). The behaviour admits a route without counting it, so
that one more than `max_streams` can be live, exactly behind a step that is not careful
(`within_limit_iff`). A client opens its path if no read ends inside of the tag that the recipient
sends, since it reads the tag with a single `read` (`opens_iff`).

Two connections of one address to a gateway can be pending at the same time, since nothing is
registered before the first of them is established. Both are then authenticated
(`authenticated_twice`), and the first authentication that ends takes the address out of
`progressing_auths`.
-/

namespace OnionNetwork.Onion

open Lib Codec Parser Opfusk Enc

/-! ## Copying -/

/-- **Relays are faithful**, whatever their streams answer, and so are both channels of a route. -/
theorem channels_copy :
    (∀ answers : List Answers, (Relay.machine.run .new answers).Faithful) ∧
      ∀ (now : Nat) (inputs : List Route.Input),
        (Route.machine.run (.new now) inputs).forward.Faithful ∧
          (Route.machine.run (.new now) inputs).backward.Faithful := by
  constructor
  · intro answers
    exact (Machine.always_run (fun _ a h => h.step a) Relay.inv_new).faithful
  · intro now inputs
    have hinv : (Route.machine.run (.new now) inputs).Inv := by
      refine Machine.always_run ?_ (Route.inv_new now)
      intro route input h
      cases input with
      | step now a => exact h.step now a
      | tryClose now interval => exact h.tryClose now interval
    exact ⟨hinv.forward.faithful, hinv.backward.faithful⟩

/-! ## The limit -/

section Limit

variable {P : Primitives} [DecidableEq P.PeerId]

/-- The routes that a behaviour keeps copy faithfully, in every run. -/
theorem routes_copy (config : Config P) (inputs : List (Input P)) :
    ∀ route ∈ ((machine P).run (.new config) inputs).router,
      route.forward.Faithful ∧ route.backward.Faithful := by
  have hinv : ((machine P).run (.new config) inputs).Inv :=
    Machine.always_run (fun _ input h => h.step input) (Behaviour.inv_new config)
  intro route hmem
  exact ⟨(hinv route hmem).channels.forward.faithful, (hinv route hmem).channels.backward.faithful⟩

/-- **The limit holds in every state of a run** exactly if every step is careful. -/
theorem within_limit_iff (config : Config P) (inputs : List (Input P)) :
    (∀ before after, inputs = before ++ after →
      ((machine P).run (.new config) before).WithinLimit) ↔
      (machine P).EachStep Behaviour.Careful (.new config) inputs := by
  refine Machine.always_reached_iff (I := Behaviour.Inv) ?_ ?_ (Behaviour.inv_new config) ?_
  · exact fun b input h => h.step input
  · exact fun b input hinv hlimit => Behaviour.limited_iff hinv hlimit input
  · exact Nat.zero_le _

end Limit

/-! ## Opening -/

section Opening

variable {P : Primitives}

/-- The client has the secret, and the stream is at the first byte that the recipient sends
through its own. -/
def ChannelMeta.Opened (m : ChannelMeta P) (req : StreamRequest P) (ss : SharedSecret)
    (later : Bytes) : Prop :=
  m.source = .thisNode (.ok ss) req.pathId req.recipientId ∧ m.left.flatten = later

/-- A request that was written is answered on its stream. -/
theorem upgradeOutboundLow_request (clientKp : Keypair P.ex) (req : StreamRequest P)
    (rng midRng : P.ex.Rng) (aeadRng : P.aead.Rng) (stream : Incoming) :
    ∃ packet,
      upgradeOutboundLow clientKp rng midRng aeadRng ⟨.ok (), .ok ()⟩ stream (.request req) =
      some ⟨.thisNode (readAnswer P.aead ((outerPacket P).encode packet)
          (clientKp.encapsulate req.recipient rng).2 stream).1 req.pathId req.recipientId,
        (readAnswer P.aead ((outerPacket P).encode packet)
          (clientKp.encapsulate req.recipient rng).2 stream).2⟩ ∧
      packet.toPeer = req.midId := by
  have hfits : ((innerMostPacket P).encode
      ⟨req.recipientId, (clientKp.encapsulate req.recipient rng).1⟩).length ≤
        P.maxInnerPacketSize := by
    show (P.writePeerId req.recipientId ++ (ciphertext P).encode _).length ≤ _
    have hid := P.length_write req.recipientId
    rw [List.length_append, length_ciphertext, Primitives.maxInnerPacketSize]
    omega
  simp only [upgradeOutboundLow, OuterPacket.new, dif_pos hfits, Option.map_some]
  exact ⟨_, rfl, rfl⟩

/-- The tag that an empty buffer is encrypted to is authentic. -/
theorem authenticates_encrypt (aead : Aead) (lawful : aead.Lawful) (ss : SharedSecret)
    (rng : aead.Rng) : authenticates aead (aead.encrypt [] ss rng).1.2 ss = true := by
  have hempty : (aead.encrypt [] ss rng).1.1 = [] :=
    List.eq_nil_of_length_eq_zero (lawful.length_encrypt [] ss rng)
  have hplain := lawful.decrypt_encrypt [] ss rng
  rw [hempty] at hplain
  rw [authenticates, hplain]
  rfl

/-- The recipient of a ciphertext. -/
theorem upgradeInboundLow_ciphertext (debugAssertions : Bool) {recipient : Keypair P.ex}
    {cp : Ciphertext P.ex} {ss : SharedSecret} (hss : recipient.decapsulate cp = .ok ss) :
    upgradeInboundLow debugAssertions recipient ((ciphertext P).encode cp) =
      some (some (.response ss)) := by
  unfold upgradeInboundLow
  simp only [peel_ciphertext hss]

theorem answerInbound_ciphertext (debugAssertions : Bool) {recipient : Keypair P.ex}
    {cp : Ciphertext P.ex} {ss : SharedSecret} (hss : recipient.decapsulate cp = .ok ss)
    (rng : P.aead.Rng) :
    answerInbound debugAssertions recipient rng ((ciphertext P).encode cp) =
      some (authPacket P.aead ss rng) := by
  simp only [answerInbound, upgradeInboundLow_ciphertext debugAssertions hss]

/-- **A path is opened** exactly if no read ends inside of the tag, whatever is sent behind it. -/
theorem opens_iff (debugAssertions : Bool) (clientKp recipient : Keypair P.ex)
    (req : StreamRequest P) (hreq : req.recipient = recipient.publicKey) (rng midRng : P.ex.Rng)
    (aeadRng tagRng : P.aead.Rng) {answer later : Bytes} {chunks : Incoming}
    (hanswer : answerInbound debugAssertions recipient tagRng
      ((ciphertext P).encode (clientKp.encapsulate req.recipient rng).1) = some answer)
    (hcarries : Carries chunks (answer ++ later)) :
    ∃ ss m,
      upgradeInboundLow debugAssertions recipient
          ((ciphertext P).encode (clientKp.encapsulate req.recipient rng).1) =
        some (some (.response ss)) ∧
      upgradeOutboundLow clientKp rng midRng aeadRng ⟨.ok (), .ok ()⟩ chunks (.request req) =
        some m ∧
      (m.Opened req ss later ↔ Uncut 1 (1 + cryptoTagSize) chunks) := by
  obtain ⟨ss, hss⟩ : ∃ ss, (clientKp.encapsulate req.recipient rng).2 = ss := ⟨_, rfl⟩
  have hkey : recipient.decapsulate (clientKp.encapsulate req.recipient rng).1 = .ok ss := by
    rw [← hss, hreq]
    exact Keypair.decapsulate_encapsulate P.exLawful clientKp recipient rng
  have hsent : answer = okPeer :: (P.aead.encrypt [] ss tagRng).1.2 := by
    rw [answerInbound_ciphertext debugAssertions hkey] at hanswer
    exact (Option.some.inj hanswer).symm
  obtain ⟨packet, hopen, -⟩ := upgradeOutboundLow_request clientKp req rng midRng aeadRng chunks
  rw [hss] at hopen
  refine ⟨ss, _, upgradeInboundLow_ciphertext debugAssertions hkey, hopen, ?_⟩
  rw [hsent] at hcarries
  have hread := readAnswer_ok ((outerPacket P).encode packet)
    (P.aeadLawful.length_tag [] ss tagRng) (authenticates_encrypt P.aead P.aeadLawful ss tagRng)
    hcarries
  constructor
  · rintro ⟨-, hleft⟩
    by_contra hcut
    exact hread.2 hcut hleft
  · intro huncut
    obtain ⟨hok, hleft⟩ := hread.1 huncut
    exact ⟨by rw [hok], hleft⟩

end Opening

/-! ### A tag in two reads -/

/-- Encryption with a tag that is checked. -/
def tagged : Aead where
  Rng := Unit
  encrypt data _ _ := ((data, List.replicate cryptoTagSize 170), ())
  decrypt data _ tag := if tag = List.replicate cryptoTagSize 170 then some data else none

theorem tagged_lawful : tagged.Lawful where
  length_encrypt _ _ _ := rfl
  length_tag _ _ _ := List.length_replicate
  decrypt_encrypt data secret rng := by simp [tagged]

/-- `bare`, with such a tag. -/
def bareTagged : Primitives := { bare with aead := tagged, aeadLawful := tagged_lawful }

/-- A request of a path whose middle node has an id of twenty bytes. -/
def request : StreamRequest bareTagged where
  toPeer := zerosId 1 (by decide)
  pathId := 0
  recipient := bareKeypair.publicKey
  recipientId := zerosId 0 (by decide)
  midRecipient := bareKeypair.publicKey
  midId := zerosId 20 (by decide)

/-- What the client encapsulates for the recipient of the request. -/
def encapsulated : Ciphertext bareTagged.ex × SharedSecret :=
  Keypair.encapsulate bareKeypair request.recipient keptRng

/-- What the recipient of the request answers. -/
theorem answerInbound_request :
    answerInbound (P := bareTagged) true bareKeypair ()
        ((ciphertext bareTagged).encode encapsulated.1) =
      some (okPeer :: List.replicate cryptoTagSize 170) := by
  have hkey := Keypair.decapsulate_encapsulate bareTagged.exLawful bareKeypair bareKeypair keptRng
  have hanswer := answerInbound_ciphertext (P := bareTagged) true hkey ()
  exact hanswer

theorem carries_whole :
    Carries [okPeer :: List.replicate cryptoTagSize 170]
      (okPeer :: List.replicate cryptoTagSize 170 ++ []) := ⟨by simp, by simp⟩

/-- In one piece the answer opens the path. -/
theorem opens_iff_whole : ∃ ss m,
    upgradeInboundLow (P := bareTagged) true bareKeypair
        ((ciphertext bareTagged).encode encapsulated.1) =
      some (some (.response ss)) ∧
    upgradeOutboundLow (P := bareTagged) bareKeypair keptRng keptRng () ⟨.ok (), .ok ()⟩
      [okPeer :: List.replicate cryptoTagSize 170] (.request request) = some m ∧
    (m.Opened request ss [] ↔
      Uncut 1 (1 + cryptoTagSize) [okPeer :: List.replicate cryptoTagSize 170]) :=
  opens_iff (P := bareTagged) true bareKeypair bareKeypair request rfl keptRng keptRng () ()
    answerInbound_request carries_whole

/-- Read in two pieces, the tag does not authenticate: its end is the packet that was sent. -/
theorem cut_tag_fails :
    answerInbound (P := bareTagged) true bareKeypair ()
        ((ciphertext bareTagged).encode encapsulated.1) =
      some (okPeer :: List.replicate cryptoTagSize 170) ∧
    Carries [okPeer :: List.replicate 10 170, List.replicate 18 170]
      (okPeer :: List.replicate cryptoTagSize 170) ∧
    ∃ m, upgradeOutboundLow (P := bareTagged) bareKeypair keptRng keptRng () ⟨.ok (), .ok ()⟩
        [okPeer :: List.replicate 10 170, List.replicate 18 170] (.request request) = some m ∧
      m.source = .thisNode (.error .authenticationFailed) 0 request.recipientId ∧
      m.left = [List.replicate 18 170] := by
  obtain ⟨packet, hopen, hpeer⟩ := upgradeOutboundLow_request (P := bareTagged) bareKeypair request
    keptRng keptRng () [okPeer :: List.replicate 10 170, List.replicate 18 170]
  refine ⟨answerInbound_request, ⟨by simp [cryptoTagSize], by simp⟩, _, hopen, ?_⟩
  obtain ⟨rest, hwritten⟩ : ∃ rest, (outerPacket bareTagged).encode packet =
      [0, 20] ++ (List.replicate 20 0 ++ rest) := by
    refine ⟨(middlePacket bareTagged).encode packet.mid, ?_⟩
    show bareTagged.writePeerId packet.toPeer ++ _ = _
    rw [hpeer]
    rfl
  -- Behind the ten bytes that were read, the buffer holds the zeros of the peer id.
  have hbuffer : List.replicate 10 170 ++ (resize ([0, 20] ++ (List.replicate 20 0 ++ rest))
      cryptoTagSize).drop 10 ≠ List.replicate cryptoTagSize 170 := by
    intro heq
    have htenth := congrArg (·[10]?) heq
    simp [resize, cryptoTagSize] at htenth
  have hread : readAnswer tagged ([0, 20] ++ (List.replicate 20 0 ++ rest))
      encapsulated.2
      [okPeer :: List.replicate 10 170, List.replicate 18 170] =
        (.error .authenticationFailed, [List.replicate 18 170]) := by
    have hfirst : readExact 1 [okPeer :: List.replicate 10 170, List.replicate 18 170] =
        .ok ([okPeer], [List.replicate 10 170, List.replicate 18 170]) := by
      simp [readExact, read]
    have hsecond : read cryptoTagSize [List.replicate 10 170, List.replicate 18 170] =
        (List.replicate 10 170, [List.replicate 18 170]) := by
      simp [read, cryptoTagSize]
    have hrefused : authenticates tagged (List.replicate 10 170 ++ (resize ([0, 20] ++
        (List.replicate 20 0 ++ rest)) cryptoTagSize).drop 10)
        encapsulated.2 = false := by
      rw [authenticates, show tagged.decrypt [] _ _ = none from if_neg hbuffer]
      rfl
    simp only [readAnswer, hfirst, List.headD_cons, if_true, length_resize, hsecond,
      List.length_replicate, hrefused]
    rfl
  rw [hwritten]
  exact ⟨congrArg (fun r => ChannelSource.thisNode r.1 0 request.recipientId) hread,
    congrArg Prod.snd hread⟩

/-! ### One route too many -/

/-- Peer ids can be compared. -/
instance : DecidableEq bare.PeerId := fun a b =>
  decidable_of_iff (a.code = b.code ∧ a.digest = b.digest) <| by
    constructor
    · rintro ⟨hcode, hdigest⟩
      cases a
      cases b
      cases hcode
      cases hdigest
      rfl
    · rintro rfl
      exact ⟨rfl, rfl⟩

/-- One relay at a time. -/
def single : Config bare where
  secret := some bareKeypair
  currentPeerId := zerosId 0 (by decide)
  maxStreams := 1
  maxErrorStreams := 20
  keepAliveInterval := 30000
  bufferCap := 65536

/-- A path that comes in is to go on to a peer, and the stream to that peer is opened. -/
def relayed : List (Input bare) :=
  let next : bare.PeerId := zerosId 2 (by decide)
  [.handlerEvent (zerosId 1 (by decide)) 1 (.incoming ()), .poll, .inbound none 0 0, .outbound none,
    .streams (next, 2), .inbound (some (0, some (.incoming next []))) 2 3, .streams (next, 2),
    .inbound none 0 0, .streams (next, 2), .router none, .errorStreams none,
    .handlerEvent next 2 (.outgoing (.ok ())), .poll, .inbound none 0 0, .outbound none,
    .streams (next, 2), .outbound (some (0, .ok 0)), .outbound none, .streams (next, 2),
    .router none, .errorStreams none]

set_option maxRecDepth 4000 in
/-- The second path is admitted beside the first one. -/
theorem limit_exceeded :
    ¬ ((machine bare).run (.new single)
      (.newHandler (zerosId 2 (by omega)) 2 :: (relayed ++ relayed))).WithinLimit := by
  decide

end OnionNetwork.Onion

/-! ## One authentication for each address -/

namespace OnionNetwork.Gateway

open Lib Codec Dht

/-- **One authentication for each address** in every state of a run, exactly if no connection
starts an authentication of an address that is in progress. -/
theorem one_per_ip_iff {A : Auth} (filter : A.State) (calls : List (Input A)) :
    (∀ before after, calls = before ++ after →
      ((machine A).run (.new filter) before).OnePerIp) ↔
      (machine A).EachStep Behaviour.Careful (.new filter) calls := by
  have hfirst : (Behaviour.new filter : Behaviour A).OnePerIp := Behaviour.onePerIp_new filter
  refine Machine.always_reached_iff (I := fun _ => True) (P := Behaviour.OnePerIp) ?_ ?_ trivial
    hfirst
  · exact fun _ _ _ => trivial
  · exact fun b input _ h => Behaviour.onePerIp_step_iff h input

/-- Peers that are all to be validated, each of them its own node. -/
def everybody : Auth where
  State := Unit
  PeerId := NodeId
  shouldValidate _ _ _ := (true, ())
  translatePeerId _ peer := (some peer, ())
  translateNodeId _ node := (node, ())
  auth _ _ := ()

/-- Two connections come from 10.0.0.1, and then both are established. -/
def twoConnections : List (Input everybody) :=
  let remote : Multiaddr := [.ip4 ⟨[10, 0, 0, 1], Eq.refl 4⟩, .tcp 4000]
  let node : NodeId := ⟨List.replicate 32 0, rfl⟩
  [.pendingInbound (some 0) [] remote, .pendingInbound (some 0) [] remote,
    .establishedInbound (some 0) node [] remote, .establishedInbound (some 0) node [] remote]

/-- The address is authenticated twice; once the first one ends it is not in progress any more. -/
theorem authenticated_twice :
    ¬ ((machine everybody).run (.new ()) twoConnections).OnePerIp ∧
      ¬ ((machine everybody).run (.new ()) (twoConnections ++ [.poll [(0, .ok 1)]])).OnePerIp := by
  constructor
  · intro h
    exact absurd h.nodup (by decide)
  · intro h
    have hmem := (h.mem_iff (.v4 ⟨[10, 0, 0, 1], rfl⟩)).mpr (by decide)
    exact absurd hmem (by decide)

end OnionNetwork.Gateway
