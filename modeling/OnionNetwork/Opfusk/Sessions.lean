import OnionNetwork.Opfusk.Symbolic
import OnionNetwork.Lib.Machine

/-!
# Connections under attack

Any number of honest connections, opened at any time under any signing keys,
and one attacker between all of them: it sees every message that is sent, and a
connection receives what the attacker hands to it, which is any message whose
parts the attacker can derive (`CanDeliver`). A message of an honest peer is
delivered by handing on what was seen, lost by not doing so.

`Completed`: two connections that finished with each other's identity.
-/

namespace OnionNetwork.Opfusk

open Lib

variable {cr : Crypto}

/-- A message on the wire. -/
inductive Message (cr : Crypto) {S : Type} (ex : Exchange S)
  | request (m : InitRequest cr ex)
  | response (m : InitResponse cr ex)
  | final (m : FinalRequest cr ex)

/-- The parts of a message, as the attacker reads or makes them. -/
def Message.parts {S : Type} {ex : Exchange S} : Message cr ex → List (Datum cr ex)
  | .request m =>
      [.challinge m.challinge, .signPk m.signPk, .kyberPublic m.encPk.post, .xPublic m.encPk.pre]
  | .response m =>
      [.challinge m.challinge, .signPk m.signPk, .kyberPublic m.encPk.post, .xPublic m.encPk.pre,
        .signature m.proof, .kyberCiphertext m.cp.pl, .xPublic m.cp.x]
  | .final m => [.kyberCiphertext m.cp.pl, .xPublic m.cp.x, .signature m.proof]

/-- How far `upgrade_outbound` got. -/
inductive OutboundPhase (cr : Crypto) {S : Type} (ex : Exchange S)
  | waiting
  | done (initResp : InitResponse cr ex) (finalReq : FinalRequest cr ex) (peer : Hash) (secret : S)
  | failed (e : Error)

/-- How far `upgrade_inbound` got. -/
inductive InboundPhase (cr : Crypto) {S : Type} (ex : Exchange S)
  | waiting
  | answered (initReq : InitRequest cr ex)
  | done (initReq : InitRequest cr ex) (finalReq : FinalRequest cr ex) (peer : Hash) (secret : S)
  | failed (e : Error)

/-- One end of a connection. -/
inductive Session (cr : Crypto) {S : Type} (ex : Exchange S)
  | outbound (side : Side cr ex) (phase : OutboundPhase cr ex)
  | inbound (side : Side cr ex) (phase : InboundPhase cr ex)

/-- All connections, and every message sent so far. -/
structure World (cr : Crypto) where
  sessions : List (Session cr Exchange.symbolic)
  sent : List (Message cr Exchange.symbolic)

/-- What happens: a connection is opened under a signing key, or the attacker
hands a message to the connection with this number. -/
inductive Event (cr : Crypto)
  | openOutbound (kp : cr.Keypair) (challinge : Hash) (signRng : cr.Rng)
  | openInbound (kp : cr.Keypair) (challinge : Hash) (signRng : cr.Rng)
  | deliver (i : Nat) (m : Message cr Exchange.symbolic)

/-- What connection number `i` draws. -/
def sideOf (i : Nat) (kp : cr.Keypair) (challinge : Hash) (signRng : cr.Rng) :
    Side cr Exchange.symbolic where
  kp
  tempKey := ⟨Name.session i, Name.session i⟩
  challinge
  rng := Name.session i
  signRng

/-- A connection takes a message: the connection afterwards and what it sends. A
message it does not wait for stays unread. -/
def Session.receive {S : Type} [XorOp S] {ex : Exchange S} :
    Session cr ex → Message cr ex → Session cr ex × List (Message cr ex)
  | .outbound side .waiting, .response initResp =>
      match side.outboundFinish initResp with
      | .error e => (.outbound side (.failed e), [])
      | .ok (finalReq, peer, secret) =>
          (.outbound side (.done initResp finalReq peer secret), [.final finalReq])
  | .inbound side .waiting, .request initReq =>
      (.inbound side (.answered initReq), [.response (side.inboundResponse initReq).1])
  | .inbound side (.answered initReq), .final finalReq =>
      match side.inboundFinish initReq finalReq with
      | .error e => (.inbound side (.failed e), [])
      | .ok (peer, secret) => (.inbound side (.done initReq finalReq peer secret), [])
  | session, _ => (session, [])

namespace World

/-- One event. -/
def step (w : World cr) : Event cr → World cr
  | .openOutbound kp challinge signRng =>
      let side := sideOf w.sessions.length kp challinge signRng
      { sessions := w.sessions ++ [.outbound side .waiting]
        sent := .request side.initRequest :: w.sent }
  | .openInbound kp challinge signRng =>
      { w with
        sessions := w.sessions ++
          [.inbound (sideOf w.sessions.length kp challinge signRng) .waiting] }
  | .deliver i m =>
      match w.sessions[i]? with
      | none => w
      | some session =>
          let (session, out) := session.receive m
          { sessions := w.sessions.set i session
            sent := out ++ w.sent }

/-- Nothing is open and nothing was sent. -/
def start : World cr := ⟨[], []⟩

/-- What the attacker knows to begin with and from what it saw: its own draws,
the key pairs in `corrupt`, and every part of every message sent. -/
def known (corrupt : Set cr.Keypair) (w : World cr) : Set (Datum cr Exchange.symbolic) :=
  {d | (∃ n, d = .staticSecret (Name.attacker n)) ∨ (∃ n, d = .kyberSeed (Name.attacker n)) ∨
    (∃ n, d = .rng (Name.attacker n)) ∨ (∃ kp ∈ corrupt, d = .keypair kp) ∨
    ∃ m ∈ w.sent, d ∈ m.parts}

/-- The attacker can compute this. -/
def Knows (corrupt : Set cr.Keypair) (w : World cr) (d : Datum cr Exchange.symbolic) : Prop :=
  Derivable Rule (w.known corrupt) d

/-- The attacker can make the message it delivers. -/
def CanDeliver (corrupt : Set cr.Keypair) (w : World cr) : Event cr → Prop
  | .deliver _ m => ∀ d ∈ m.parts, w.Knows corrupt d
  | _ => True

end World

/-- The connections as a machine; the attacker decides on the events. -/
def opfuskMachine (cr : Crypto) : Machine (World cr) (Event cr) Unit :=
  ⟨fun w e => (w.step e, ())⟩

/-- An honest initiator `i` and an honest responder `j` have completed with each
other's identity: what they received, and the secrets they ended with. -/
structure Completed (w : World cr) (i j : Nat) where
  initiator : Side cr Exchange.symbolic
  responder : Side cr Exchange.symbolic
  initReq : InitRequest cr Exchange.symbolic
  initResp : InitResponse cr Exchange.symbolic
  finalSent : FinalRequest cr Exchange.symbolic
  finalReq : FinalRequest cr Exchange.symbolic
  initiatorSecret : Finset Atom
  responderSecret : Finset Atom
  outbound : w.sessions[i]? = some (.outbound initiator
    (.done initResp finalSent (cr.identity (cr.publicKey responder.kp)) initiatorSecret))
  inbound : w.sessions[j]? = some (.inbound responder
    (.done initReq finalReq (cr.identity (cr.publicKey initiator.kp)) responderSecret))

namespace Session

/-- What a finished connection holds was computed by its side, and its side
drew its own names. -/
def Sound (i : Nat) : Session cr Exchange.symbolic → Prop
  | .outbound side phase =>
      (∃ kp challinge signRng, side = sideOf i kp challinge signRng) ∧
        ∀ initResp finalReq peer secret, phase = .done initResp finalReq peer secret →
          side.outboundFinish initResp = .ok (finalReq, peer, secret)
  | .inbound side phase =>
      (∃ kp challinge signRng, side = sideOf i kp challinge signRng) ∧
        ∀ initReq finalReq peer secret, phase = .done initReq finalReq peer secret →
          side.inboundFinish initReq finalReq = .ok (peer, secret)

theorem sound_receive {i : Nat} {session : Session cr Exchange.symbolic}
    (h : session.Sound i) (m : Message cr Exchange.symbolic) : (session.receive m).1.Sound i := by
  unfold receive
  split
  · rename_i side initResp
    split
    · exact ⟨h.1, fun _ _ _ _ hdone => by cases hdone⟩
    · rename_i hfinish
      exact ⟨h.1, fun _ _ _ _ hdone => by cases hdone; exact hfinish⟩
  · exact ⟨h.1, fun _ _ _ _ hdone => by cases hdone⟩
  · rename_i side initReq finalReq
    split
    · exact ⟨h.1, fun _ _ _ _ hdone => by cases hdone⟩
    · rename_i hfinish
      exact ⟨h.1, fun _ _ _ _ hdone => by cases hdone; exact hfinish⟩
  · exact h

end Session

namespace World

/-- Every connection is sound. -/
def Sound (w : World cr) : Prop :=
  ∀ (i : Nat) (session : Session cr Exchange.symbolic),
    w.sessions[i]? = some session → session.Sound i

theorem sound_append {w : World cr} (h : w.Sound) {session : Session cr Exchange.symbolic}
    (hnew : session.Sound w.sessions.length) (sent : List (Message cr Exchange.symbolic)) :
    Sound { sessions := w.sessions ++ [session], sent } := by
  intro i s hs
  rcases Nat.lt_trichotomy i w.sessions.length with hlt | rfl | hgt
  · rw [List.getElem?_append_left hlt] at hs
    exact h i s hs
  · rw [List.getElem?_append_right (Nat.le_refl _), Nat.sub_self] at hs
    obtain rfl := Option.some.inj hs
    exact hnew
  · rw [List.getElem?_eq_none (by simp; omega)] at hs
    cases hs

theorem sound_step {w : World cr} (h : w.Sound) (e : Event cr) : (w.step e).Sound := by
  cases e with
  | openOutbound kp challinge signRng =>
      have hnew : Session.Sound w.sessions.length
          (.outbound (sideOf w.sessions.length kp challinge signRng) .waiting) :=
        ⟨⟨kp, challinge, signRng, rfl⟩, fun _ _ _ _ hdone => by cases hdone⟩
      exact sound_append h hnew _
  | openInbound kp challinge signRng =>
      have hnew : Session.Sound w.sessions.length
          (.inbound (sideOf w.sessions.length kp challinge signRng) .waiting) :=
        ⟨⟨kp, challinge, signRng, rfl⟩, fun _ _ _ _ hdone => by cases hdone⟩
      exact sound_append h hnew _
  | deliver i m =>
      simp only [step]
      cases hi : w.sessions[i]? with
      | none => exact h
      | some session =>
          intro j s hs
          by_cases hij : i = j
          · subst hij
            have hlt : i < w.sessions.length := (List.getElem?_eq_some_iff.mp hi).1
            rw [List.getElem?_set_self hlt] at hs
            obtain rfl := Option.some.inj hs
            exact Session.sound_receive (h i session hi) m
          · rw [List.getElem?_set_ne hij] at hs
            exact h j s hs

theorem sound_run (es : List (Event cr)) : ((opfuskMachine cr).run start es).Sound := by
  have hstart : (start : World cr).Sound := by
    intro i session hs
    cases hs
  have hstep : ∀ (w : World cr) (e : Event cr), w.Sound → True → (w.step e).Sound :=
    fun w e hw _ => sound_step hw e
  exact Machine.invariant_run hstep hstart (Machine.EachStep.of_forall (fun _ _ => trivial) _)

/-- What was sent and what the attacker starts with is safe in its hands. -/
theorem known_safe (corrupt : Set cr.Keypair) (w : World cr) :
    w.known corrupt ⊆ {d | Safe d} := by
  rintro d (⟨n, rfl⟩ | ⟨n, rfl⟩ | ⟨n, rfl⟩ | ⟨kp, -, rfl⟩ | ⟨m, -, hd⟩)
  · exact id
  · exact id
  · exact id
  · trivial
  · cases m <;> simp only [Message.parts, List.mem_cons, List.not_mem_nil, or_false] at hd
    · rcases hd with rfl | rfl | rfl | rfl <;> trivial
    · rcases hd with rfl | rfl | rfl | rfl | rfl | rfl | rfl <;> trivial
    · rcases hd with rfl | rfl | rfl <;> trivial

/-- The attacker never derives a secret with a protected atom. -/
theorem not_knows_of_protected {corrupt : Set cr.Keypair} {w : World cr} {s : Finset Atom}
    {a : Atom} (ha : a ∈ s) (hprot : a.Protected) : ¬ w.Knows corrupt (.secret s) := fun h =>
  Derivable.mem_of_closed (known_safe corrupt w) safe_closed h a ha hprot

/-- The attacker derives the empty XOR. -/
theorem knows_zero (corrupt : Set cr.Keypair) (w : World cr) :
    w.Knows corrupt (.secret (∅ : Finset Atom)) := by
  have hstatic : w.Knows corrupt (.staticSecret (Name.attacker 0)) :=
    .known (.inl ⟨0, rfl⟩)
  have hpublic : w.Knows corrupt (.xPublic (Name.attacker 0)) :=
    .rule₁ (@Rule.xPublic cr _ _ Exchange.symbolic (Name.attacker 0)) hstatic
  have hsecret : w.Knows corrupt (.secret ({.dh s(.attacker 0, .attacker 0)} : Finset Atom)) :=
    .rule₂ (@Rule.diffieHellman cr _ _ Exchange.symbolic (Name.attacker 0) (Name.attacker 0))
      hstatic hpublic
  have hxor := Derivable.rule₂ (Rule.xor _ _) hsecret hsecret
  rwa [xor_def, symmDiff_self] at hxor

end World

end OnionNetwork.Opfusk
