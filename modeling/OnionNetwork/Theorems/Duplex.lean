import OnionNetwork.Ratchet.Runs

/-!
# Both directions in order

Each direction delivers what was sent once and in order. Then every message is
accepted if the parties send only when nothing is on its way to them. Otherwise
it fails: a party that opens its chain has left the one it received, so what is
still on its way in that one is looked up among the kept keys.
-/

namespace OnionNetwork.Ratchet

open Lib

variable {S : Suite}

/-- What is on its way to a party. -/
def Duplex.pending (s : Duplex S) (p : Party) : Sent S :=
  (s.sent p.other).drop (s.delivered p).length

/-- The next message in order is delivered. -/
def InOrder (s : Duplex S) : Action S → Prop
  | .send _ => True
  | .deliver p i _ => i = (s.delivered p).length

/-- A party sends when nothing is on its way to it. -/
def Quiet (s : Duplex S) : Action S → Prop
  | .send p => (s.delivered p).length = (s.sent p.other).length
  | .deliver _ _ _ => True

/-- A delivered message is accepted with its key. -/
def Complete (s : Duplex S) : Action S → Prop
  | .send _ => True
  | .deliver p i draws =>
      ∀ header key, (s.sent p.other)[i]? = some (header, key) →
        (s.step (.deliver p i draws)).2 = .received (.ok key)

instance (s : Duplex S) : DecidablePred (InOrder s)
  | .send _ => isTrue trivial
  | .deliver _ _ _ => inferInstanceAs (Decidable (_ = _))

instance (s : Duplex S) : DecidablePred (Quiet s)
  | .send _ => inferInstanceAs (Decidable (_ = _))
  | .deliver _ _ _ => isTrue trivial

/-- In chain `step` the messages from `next` on are on their way to the party
that receives, and nothing is on its way to the one that sends. -/
structure Flow (s : Duplex S) (step next : Nat) : Prop where
  none_ahead : ∀ p, (s.delivered p).length ≤ (s.sent p.other).length
  idle : s.pending (owner step) = []
  flight : (s.pending (owner step).other).map (fun e => e.1.id) =
    (List.range' next ((s.ratchet (owner step)).sender.step - next)).map (⟨step, ·⟩)

/-- What holds while everything arrives in order. -/
structure Ordered (s : Duplex S) : Prop where
  inv : Inv s
  flow : ∃ step,
    EqualAt s step ∧ Flow s step (s.ratchet (owner step).other).receiver.step ∨
      AheadAt s step ∧ 0 < (s.ratchet (owner step)).sender.step ∧ Flow s step 0

variable {s : Duplex S} {p : Party} {step next : Nat}

theorem pending_send (hle : (s.delivered p.other).length ≤ (s.sent p).length) :
    (s.step (.send p)).1.pending p = s.pending p ∧
      (s.step (.send p)).1.pending p.other = s.pending p.other ++ [(s.ratchet p).send.2] := by
  constructor
  · rw [Duplex.pending, step_send_sent_other]
    rfl
  · rw [Duplex.pending, Duplex.pending, Party.other_other, step_send_sent]
    exact List.drop_append_of_le_length hle

theorem none_ahead_send (h : ∀ q, (s.delivered q).length ≤ (s.sent q.other).length) (p q : Party) :
    ((s.step (.send p)).1.delivered q).length ≤ ((s.step (.send p)).1.sent q.other).length := by
  rw [step_send]
  refine Nat.le_trans (h q) ?_
  by_cases hq : q.other = p
  · subst hq
    simp only [Function.update_self, List.length_append]
    exact Nat.le_add_right _ _
  · simp only [Function.update_of_ne hq]
    exact Nat.le_refl _

/-- What is on its way in a chain, and the next header of the chain. -/
theorem flight_append {sent : Sent S} {e : MessageHeader S × SharedSecret} {count : Nat}
    (h : sent.map (fun e => e.1.id) = (List.range' next (count - next)).map (⟨step, ·⟩))
    (hid : e.1.id = ⟨step, count⟩) (hnext : next ≤ count) :
    (sent ++ [e]).map (fun e => e.1.id) =
      (List.range' next (count + 1 - next)).map (⟨step, ·⟩) := by
  have hsucc : count + 1 - next = count - next + 1 := by omega
  have hlast : next + 1 * (count - next) = count := by omega
  rw [hsucc, List.range'_concat, hlast, List.map_append, List.map_append, h]
  show _ ++ [e.1.id] = _ ++ [_]
  rw [hid]

/-- A party that sends in its chain adds the next message to those on their way. -/
theorem Flow.send (h : Flow s step next) (hnext : next ≤ (s.ratchet (owner step)).sender.step)
    (hlt : (s.ratchet (owner step)).sender.step < u32Max)
    (hroot : (s.ratchet (owner step)).root.step = step) :
    Flow (s.step (.send (owner step))).1 step next := by
  have hle := h.none_ahead (owner step).other
  rw [Party.other_other] at hle
  obtain ⟨hsame, hadd⟩ := pending_send hle
  have hsend := DoubleRatchet.send_eq_of_lt hlt
  refine ⟨none_ahead_send h.none_ahead _, ?_, ?_⟩
  · rw [hsame]
    exact h.idle
  · have hstep : ((s.step (.send (owner step))).1.ratchet (owner step)).sender.step =
        (s.ratchet (owner step)).sender.step + 1 := by
      rw [step_send_ratchet, hsend]
    rw [hadd, hstep]
    refine flight_append h.flight ?_ hnext
    rw [hsend]
    show (⟨(s.ratchet (owner step)).root.step, _⟩ : MessageId) = _
    rw [hroot]

/-- A party that opens its chain when nothing is on its way at all. -/
theorem Flow.send_next (h : Flow s step next)
    (hnone : s.pending (owner step).other = [])
    (hguard : (s.ratchet (owner step).other).sender.step = u32Max)
    (hroot : ((s.step (.send (owner step).other)).1.ratchet (owner step).other).root.step =
      step + 1) :
    0 < ((s.step (.send (owner step).other)).1.ratchet (owner (step + 1))).sender.step ∧
      Flow (s.step (.send (owner step).other)).1 (step + 1) 0 := by
  have hle := h.none_ahead (owner step)
  obtain ⟨hsame, hadd⟩ := pending_send (p := (owner step).other) (by
    rw [Party.other_other]
    exact hle)
  have hlt : (s.ratchet (owner step).other).openChain.sender.step < u32Max := by
    show 0 < u32Max
    decide
  have hsend := (DoubleRatchet.send_of_guard hguard).trans (DoubleRatchet.send_eq_of_lt hlt)
  have hratchet : (s.step (.send (owner step).other)).1.ratchet (owner step).other =
      (s.ratchet (owner step).other).send.1 :=
    step_send_ratchet s (owner step).other
  have hstep : (s.ratchet (owner step).other).send.1.sender.step = 1 := by
    rw [hsend]
    rfl
  rw [owner_succ, hratchet, hstep]
  refine ⟨Nat.one_pos, none_ahead_send h.none_ahead _, ?_, ?_⟩
  · rw [owner_succ, hsame]
    exact hnone
  · rw [Party.other_other] at hadd
    rw [owner_succ, Party.other_other, hadd, h.idle, hratchet, hstep]
    rw [hratchet, hsend] at hroot
    rw [hsend]
    show [(⟨(s.ratchet (owner step).other).openChain.root.step, 0⟩ : MessageId)] = [⟨step + 1, 0⟩]
    rw [show (s.ratchet (owner step).other).openChain.root.step = step + 1 from hroot]

/-- **A `send` that finds nothing on its way to the party.** -/
theorem Ordered.send (hex : S.exchange.Lawful) (h : Ordered s) (hfits : Fits s (.send p))
    (hquiet : Quiet s (.send p)) : Ordered (s.step (.send p)).1 := by
  have hnone : s.pending p = [] := by
    rw [Duplex.pending, List.drop_eq_nil_iff]
    exact Nat.le_of_eq hquiet.symm
  obtain ⟨step, ⟨heq, hflow⟩ | ⟨hahead, hpos, hflow⟩⟩ := h.flow
  · rcases Party.eq_or_eq_other (owner step) p with rfl | rfl
    · have hlt : (s.ratchet (owner step)).sender.step < u32Max :=
        sender_lt hfits (congrArg owner heq.owner_root) (Equal.short heq)
      obtain ⟨hinv, heq'⟩ := heq.send h.inv rfl hfits
      refine ⟨hinv, step, .inl ⟨heq', ?_⟩⟩
      rw [step_send_ratchet_other]
      exact hflow.send (Equal.receiver_le heq) hlt heq.owner_root
    · have hguard : (s.ratchet (owner step).other).sender.step = u32Max := by
        rw [Equal.guard heq]
      obtain ⟨hinv, hahead⟩ := heq.send_next hex h.inv rfl hfits
      have hroot := Ahead.root_step hahead
      rw [owner_succ] at hroot
      obtain ⟨hpos, hflow'⟩ := hflow.send_next hnone hguard hroot
      exact ⟨hinv, step + 1, .inr ⟨hahead, hpos, hflow'⟩⟩
  · rcases Party.eq_or_eq_other (owner step) p with rfl | rfl
    · have hroot := Ahead.root_step hahead
      have hlt : (s.ratchet (owner step)).sender.step < u32Max :=
        sender_lt hfits (congrArg owner hroot) (Ahead.short hahead)
      obtain ⟨hinv, hahead'⟩ := hahead.send h.inv hfits
      refine ⟨hinv, step, .inr ⟨hahead', ?_, hflow.send (Nat.zero_le _) hlt hroot⟩⟩
      rw [step_send_ratchet, DoubleRatchet.send_eq_of_lt hlt]
      exact Nat.succ_pos _
    · -- the message that opened the chain is still on its way
      have hflight := hflow.flight
      rw [hnone] at hflight
      have hlen := congrArg List.length hflight
      simp only [List.map_nil, List.length_nil, List.length_map, List.length_range'] at hlen
      omega

/-! ### Delivery -/

theorem pending_received {i : Nat} {message : MessageHeader S} {key : SharedSecret}
    {rest : Sent S} (hpending : s.pending p = (message, key) :: rest)
    (ratchet : DoubleRatchet S) (accepted : List (MessageHeader S)) :
    (s.received p i message ratchet accepted).pending p = rest ∧
      (s.received p i message ratchet accepted).pending p.other = s.pending p.other := by
  constructor
  · simp only [Duplex.pending, Duplex.received, Function.update_self, List.length_append,
      List.length_singleton] at hpending ⊢
    rw [← List.tail_drop, hpending, List.tail_cons]
  · simp only [Duplex.pending, Duplex.received, Function.update_of_ne (Party.other_ne p)]

/-- The first of those on their way is the next one of the chain. -/
theorem flight_head {message : MessageHeader S} {key : SharedSecret} {rest : Sent S} {count : Nat}
    (h : ((message, key) :: rest).map (fun e => e.1.id) =
      (List.range' next (count - next)).map (⟨step, ·⟩)) :
    message.id = ⟨step, next⟩ ∧
      rest.map (fun e => e.1.id) =
        (List.range' (next + 1) (count - (next + 1))).map (⟨step, ·⟩) := by
  cases hcount : count - next with
  | zero =>
      rw [hcount] at h
      cases h
  | succ n =>
      have hrest : count - (next + 1) = n := by omega
      rw [hcount, List.range'_succ, List.map_cons, List.map_cons] at h
      obtain ⟨hid, hids⟩ := List.cons.inj h
      rw [hrest]
      exact ⟨hid, hids⟩

/-- **The delivery of the next message.** It is the next one of the chain, so it is
accepted. -/
theorem Ordered.deliver (hex : S.exchange.Lawful) (h : Ordered s) {i : Nat} (draws : Draws S)
    (horder : InOrder s (.deliver p i draws)) :
    Ordered (s.step (.deliver p i draws)).1 ∧ Complete s (.deliver p i draws) := by
  cases hget : (s.sent p.other)[i]? with
  | none =>
      refine ⟨?_, ?_⟩
      · rw [step_deliver_none hget]
        exact h
      · intro header key hsome
        rw [hget] at hsome
        cases hsome
  | some e =>
      obtain ⟨message, key⟩ := e
      have hi : i = (s.delivered p).length := horder
      obtain ⟨rest, hpending⟩ : ∃ rest, s.pending p = (message, key) :: rest := by
        obtain ⟨hlt, hat⟩ := List.getElem?_eq_some_iff.mp hget
        refine ⟨(s.sent p.other).drop (i + 1), ?_⟩
        rw [Duplex.pending, ← hi, List.drop_eq_getElem_cons hlt, hat]
      -- whichever the phase, the message is the next one for the party that receives
      obtain ⟨step, next, hflow, hfresh⟩ : ∃ step next, Flow s step next ∧
          (p = (owner step).other → message.id = ⟨step, next⟩ → Fresh s p message step) := by
        obtain ⟨step, ⟨heq, hflow⟩ | ⟨hahead, hpos, hflow⟩⟩ := h.flow
        · refine ⟨step, _, hflow, ?_⟩
          intro hp hid
          refine ⟨hp, by rw [hid], .inl ⟨heq, ?_⟩⟩
          rw [hp, hid]
        · refine ⟨step, _, hflow, ?_⟩
          intro hp hid
          exact ⟨hp, by rw [hid], .inr hahead⟩
      have hp : p = (owner step).other := by
        refine (Party.eq_or_eq_other (owner step) p).resolve_left ?_
        rintro rfl
        rw [hflow.idle] at hpending
        cases hpending
      have hflight := hflow.flight
      rw [← hp, hpending] at hflight
      obtain ⟨hid, hrest⟩ := flight_head hflight
      obtain ⟨ratchet, hrecv, hinv, heq, -, hfrontier, -⟩ :=
        deliver_fresh hex h.inv hget (hfresh hp hid) draws
      rw [step_deliver_ok hget hrecv]
      obtain ⟨hhead, hback⟩ :=
        pending_received (i := i) hpending ratchet (s.accepted p ++ [message])
      have hreceiver : ratchet.receiver.step = next + 1 := by
        have hsub := congrArg MessageId.subStep hfrontier
        rw [hid] at hsub
        exact hsub
      refine ⟨⟨hinv, step, .inl ⟨heq, ?_, ?_, ?_⟩⟩, ?_⟩
      · intro q
        have hle := hflow.none_ahead q
        rcases Party.eq_or_eq_other p q with rfl | rfl
        · have hlt := (List.getElem?_eq_some_iff.mp hget).1
          simp only [Duplex.received, Function.update_self, List.length_append,
            List.length_singleton]
          omega
        · simp only [Duplex.received, Function.update_of_ne (Party.other_ne p)]
          exact hle
      · have howner : p.other = owner step := by rw [hp, Party.other_other]
        rw [← howner, hback, howner]
        exact hflow.idle
      · have howner : (owner step) = p.other := by rw [hp, Party.other_other]
        rw [← hp, hhead, hrest, howner]
        simp only [Duplex.received, Function.update_self, Function.update_of_ne (Party.other_ne p)]
        rw [hreceiver]
      · intro header key' hsome
        rw [hget] at hsome
        obtain ⟨rfl, rfl⟩ := Prod.mk.inj (Option.some.inj hsome)
        rw [step_deliver_ok hget hrecv]

/-- At the start nothing is on its way. -/
theorem start_ordered (hex : S.exchange.Lawful) (secret : SharedSecret)
    (aliceDraws bobDraws : Draws S) : Ordered (Duplex.start secret aliceDraws bobDraws) := by
  refine ⟨start_inv hex, 2, .inl ⟨start_equal hex, ?_, rfl, rfl⟩⟩
  intro p
  exact Nat.le_refl 0

/-- **Everything that arrives in order is accepted**, in every run whose sends find
nothing on its way to the sender and their counters in range. -/
theorem fifo_complete (hex : S.exchange.Lawful) (secret : SharedSecret)
    (aliceDraws bobDraws : Draws S) (actions : List (Action S))
    (horder : (duplexMachine S).EachStep InOrder (Duplex.start secret aliceDraws bobDraws) actions)
    (hquiet : (duplexMachine S).EachStep (fun s a => Quiet s a ∧ Fits s a)
      (Duplex.start secret aliceDraws bobDraws) actions) :
    (duplexMachine S).EachStep Complete (Duplex.start secret aliceDraws bobDraws) actions := by
  apply Machine.eachStep_of_invariant _ _ (start_ordered hex secret aliceDraws bobDraws)
    (horder.and hquiet)
  · rintro s a h ⟨horder, hquiet, hfits⟩
    cases a with
    | send p => exact h.send hex hfits hquiet
    | deliver p i draws => exact (h.deliver hex draws horder).1
  · rintro s a h ⟨horder, -⟩
    cases a with
    | send p => trivial
    | deliver p i draws => exact (h.deliver hex draws horder).2

/-- A conversation in which each party answers what it has received. -/
def answering : List (Action Suite.transparent) :=
  [.send .alice, .send .alice, .deliver .bob 0 (transparentDraws 3),
    .deliver .bob 1 (transparentDraws 4), .send .bob, .send .bob,
    .deliver .alice 0 (transparentDraws 5), .deliver .alice 1 (transparentDraws 6), .send .alice,
    .deliver .bob 2 (transparentDraws 7)]

theorem fifo_complete_answering :
    (duplexMachine Suite.transparent).EachStep InOrder
        (Duplex.start 0 (transparentDraws 1) (transparentDraws 2)) answering ∧
      (duplexMachine Suite.transparent).EachStep Complete
        (Duplex.start 0 (transparentDraws 1) (transparentDraws 2)) answering := by
  have horder : (duplexMachine Suite.transparent).EachStep InOrder
      (Duplex.start 0 (transparentDraws 1) (transparentDraws 2)) answering := by
    decide
  refine ⟨horder, fifo_complete Exchange.transparent_lawful _ _ _ _ horder ?_⟩
  decide

/-- Both parties send first, and both messages arrive. -/
def crossing : List (Action Suite.transparent) :=
  [.send .bob, .send .alice, .deliver .bob 0 (transparentDraws 3),
    .deliver .alice 0 (transparentDraws 4)]

/-- `bob` has opened chain 3, so it looks for the message of chain 2 among its
kept keys. -/
theorem crossing_lost :
    (duplexMachine Suite.transparent).EachStep (fun s a => InOrder s a ∧ Fits s a)
        (Duplex.start 0 (transparentDraws 1) (transparentDraws 2)) crossing ∧
      (∀ p, (((duplexMachine Suite.transparent).run
          (Duplex.start 0 (transparentDraws 1) (transparentDraws 2)) crossing).pending
        p).length = 0) ∧
      ¬ (duplexMachine Suite.transparent).EachStep Complete
        (Duplex.start 0 (transparentDraws 1) (transparentDraws 2)) crossing := by
  refine ⟨by decide, ?_, ?_⟩
  · intro p
    cases p
    · rfl
    · rfl
  · rintro ⟨-, -, hdelivery, -⟩
    have hevent : (Event.received (.error .missingMessage) : Event Suite.transparent) =
        .received (.ok _) := hdelivery _ _ rfl
    cases received_inj hevent

end OnionNetwork.Ratchet
