import OnionNetwork.Ratchet.Invariant

/-!
# The conversation keeps its invariant

`Inv` joins the phases and what each party knows as a receiver. Each `send` that
`Fits` keeps it (`send_inv`), and so does the delivery of any header the other
party ever produced; what such a delivery returns is said by `deliver_fresh`,
`deliver_kept` and `deliver_lost`.
-/

namespace OnionNetwork.Ratchet

open Lib

variable {S : Suite} {s : Duplex S} {p : Party} {step : Nat}

/-- Both parties are in chain `step`. -/
def EqualAt (s : Duplex S) (step : Nat) : Prop :=
  Equal step (s.ratchet (owner step)) (s.ratchet (owner step).other) (s.sent (owner step))
    (s.sent (owner step).other)

/-- The owner of chain `step` is ahead. -/
def AheadAt (s : Duplex S) (step : Nat) : Prop :=
  Ahead step (s.ratchet (owner step)) (s.ratchet (owner step).other) (s.sent (owner step))
    (s.sent (owner step).other)

/-- What holds in every state of the conversation. -/
structure Inv (s : Duplex S) : Prop where
  tracks : ∀ p, Tracks p (s.ratchet p) (s.sent p.other) (s.accepted p) (s.recorded p)
  phase : ∃ step, EqualAt s step ∨ AheadAt s step

/-! ### Where the parties stand -/

theorem EqualAt.owner_root (h : EqualAt s step) : (s.ratchet (owner step)).root.step = step := by
  rw [Equal.root_eq h, Equal.root_step h]

theorem AheadAt.other_owns (h : AheadAt s step) :
    owner (s.ratchet (owner step).other).root.step = (owner step).other := by
  have hnext := owner_succ (s.ratchet (owner step).other).root.step
  rw [Ahead.root_step' h] at hnext
  have hback := congrArg Party.other hnext
  rw [Party.other_other] at hback
  exact hback.symm

/-! ### Sending -/

/-- A party in a chain of its own has a next message in it. -/
theorem sender_lt (hfits : Fits s (.send p)) (howner : owner (s.ratchet p).root.step = p)
    (hle : (s.ratchet p).sender.step ≤ u32Max) : (s.ratchet p).sender.step < u32Max := by
  refine Nat.lt_of_le_of_ne hle ?_
  intro hmax
  obtain ⟨hother, -⟩ := hfits hmax
  exact p.other_ne (hother.symm.trans howner)

/-- What a `send` of `p` with its new state and header leaves to show. -/
theorem tracks_send (h : Inv s) {ratchet : DoubleRatchet S} {e : MessageHeader S × SharedSecret}
    (hmissing : ratchet.missingMessages = (s.ratchet p).missingMessages)
    (hfrontier : frontier p ratchet = frontier p (s.ratchet p)) (howner : owner e.1.id.step = p)
    (hahead : ¬ e.1.id.Before (frontier p.other (s.ratchet p.other))) (q : Party) :
    Tracks q (Function.update s.ratchet p ratchet q)
      (Function.update s.sent p (s.sent p ++ [e]) q.other) (s.accepted q) (s.recorded q) := by
  rcases Party.eq_or_eq_other p q with rfl | rfl
  · rw [Function.update_self, Function.update_of_ne (Party.other_ne _)]
    exact (h.tracks _).congr hmissing hfrontier
  · rw [Function.update_of_ne (Party.other_ne _), Party.other_other, Function.update_self]
    refine Tracks.peer_sends ?_ ?_ hahead
    · have ht := h.tracks p.other
      rwa [Party.other_other] at ht
    · rw [howner, Party.other_other]

/-- The owner of the current chain sends in it. -/
theorem EqualAt.send (h : Inv s) (heq : EqualAt s step) (hp : p = owner step)
    (hfits : Fits s (.send p)) :
    Inv (s.step (.send p)).1 ∧ EqualAt (s.step (.send p)).1 step := by
  subst hp
  have hlt : (s.ratchet (owner step)).sender.step < u32Max :=
    sender_lt hfits (congrArg owner heq.owner_root) (Equal.short heq)
  have hsend := DoubleRatchet.send_eq_of_lt hlt
  have hphase : EqualAt (s.step (.send (owner step))).1 step := by
    simp only [EqualAt, Duplex.step, hsend, Function.update_self,
      Function.update_of_ne (Party.other_ne _)]
    exact Equal.send heq hlt
  refine ⟨⟨?_, step, .inl hphase⟩, hphase⟩
  simp only [Duplex.step, hsend]
  refine tracks_send h ?_ ?_ ?_ ?_
  · rfl
  · rfl
  · show owner (s.ratchet (owner step)).root.step = owner step
    rw [heq.owner_root]
  · have howner : owner (s.ratchet (owner step).other).root.step = (owner step).other.other := by
      rw [Equal.root_step heq, Party.other_other]
    rw [frontier_of_other howner, Equal.root_step heq]
    have hle := Equal.receiver_le heq
    show ¬ MessageId.Before ⟨(s.ratchet (owner step)).root.step, _⟩ _
    rw [heq.owner_root]
    simp only [MessageId.Before]
    omega

/-- The other party opens the next chain. -/
theorem EqualAt.send_next (hex : S.exchange.Lawful) (h : Inv s) (heq : EqualAt s step)
    (hp : p = (owner step).other) (hfits : Fits s (.send p)) :
    Inv (s.step (.send p)).1 ∧ AheadAt (s.step (.send p)).1 (step + 1) := by
  subst hp
  have hstep := Equal.root_step heq
  have hguard : (s.ratchet (owner step).other).sender.step = u32Max := by
    rw [Equal.guard heq]
  obtain ⟨-, hroot⟩ := hfits hguard
  rw [hstep] at hroot
  have hopen := Equal.openChain hex heq hroot
  have hlt : (s.ratchet (owner step).other).openChain.sender.step < u32Max := by
    show 0 < u32Max
    decide
  have hsend := (DoubleRatchet.send_of_guard hguard).trans (DoubleRatchet.send_eq_of_lt hlt)
  have hphase : AheadAt (s.step (.send (owner step).other)).1 (step + 1) := by
    simp only [AheadAt, Duplex.step, hsend, owner_succ, Party.other_other, Function.update_self,
      Function.update_of_ne (Party.other_ne _).symm]
    exact Ahead.send hopen hlt
  refine ⟨⟨?_, step + 1, .inr hphase⟩, hphase⟩
  simp only [Duplex.step, hsend]
  have hnext : (s.ratchet (owner step).other).openChain.root.step = step + 1 :=
    Ahead.root_step hopen
  have howner : owner (s.ratchet (owner step).other).root.step = (owner step).other.other := by
    rw [hstep, Party.other_other]
  refine tracks_send h ?_ ?_ ?_ ?_
  · rfl
  · have howner' : owner (s.ratchet (owner step).other).openChain.root.step =
        (owner step).other := by
      rw [hnext, owner_succ]
    rw [frontier_of_other howner, hstep]
    refine (frontier_of_owner howner').trans ?_
    show (⟨(s.ratchet (owner step).other).openChain.root.step - 1, _⟩ : MessageId) = _
    rw [hnext]
    rfl
  · show owner (s.ratchet (owner step).other).openChain.root.step = (owner step).other
    rw [hnext, owner_succ]
  · rw [Party.other_other, frontier_of_owner (p := owner step) (by rw [heq.owner_root]),
      heq.owner_root]
    show ¬ MessageId.Before ⟨(s.ratchet (owner step).other).openChain.root.step, _⟩ _
    rw [hnext]
    simp only [MessageId.Before]
    omega

/-- In the phase behind an opened chain both parties go on in their own chains. -/
theorem AheadAt.send (h : Inv s) (hahead : AheadAt s step) (hfits : Fits s (.send p)) :
    Inv (s.step (.send p)).1 ∧ AheadAt (s.step (.send p)).1 step := by
  have hstep := Ahead.root_step hahead
  have hstep' := Ahead.root_step' hahead
  have htwo := Ahead.two_le hahead
  rcases Party.eq_or_eq_other (owner step) p with rfl | rfl
  · -- the party that opened the chain goes on in it
    have hlt : (s.ratchet (owner step)).sender.step < u32Max :=
      sender_lt hfits (congrArg owner hstep) (Ahead.short hahead)
    have hsend := DoubleRatchet.send_eq_of_lt hlt
    have hphase : AheadAt (s.step (.send (owner step))).1 step := by
      simp only [AheadAt, Duplex.step, hsend, Function.update_self,
        Function.update_of_ne (Party.other_ne _)]
      exact Ahead.send hahead hlt
    refine ⟨⟨?_, step, .inr hphase⟩, hphase⟩
    simp only [Duplex.step, hsend]
    refine tracks_send h ?_ ?_ ?_ ?_
    · rfl
    · rfl
    · show owner (s.ratchet (owner step)).root.step = owner step
      rw [hstep]
    · rw [frontier_of_owner hahead.other_owns]
      show ¬ MessageId.Before ⟨(s.ratchet (owner step)).root.step, _⟩ _
      simp only [MessageId.Before]
      omega
  · -- the party behind goes on in the chain before, which the other one has closed
    have hlt : (s.ratchet (owner step).other).sender.step < u32Max :=
      sender_lt hfits hahead.other_owns (Ahead.short' hahead)
    have hsend := DoubleRatchet.send_eq_of_lt hlt
    have hphase : AheadAt (s.step (.send (owner step).other)).1 step := by
      simp only [AheadAt, Duplex.step, hsend, Function.update_self,
        Function.update_of_ne (Party.other_ne _).symm]
      exact Ahead.send_behind hahead hlt
    refine ⟨⟨?_, step, .inr hphase⟩, hphase⟩
    simp only [Duplex.step, hsend]
    refine tracks_send h ?_ ?_ ?_ ?_
    · rfl
    · rfl
    · exact hahead.other_owns
    · have howner : owner (s.ratchet (owner step)).root.step = owner step := by rw [hstep]
      rw [Party.other_other, frontier_of_owner howner]
      have hle := Ahead.closed hahead
      show ¬ MessageId.Before ⟨(s.ratchet (owner step).other).root.step, _⟩ _
      simp only [MessageId.Before]
      omega

theorem send_inv (hex : S.exchange.Lawful) (h : Inv s) (hfits : Fits s (.send p)) :
    Inv (s.step (.send p)).1 := by
  obtain ⟨step, heq | hahead⟩ := h.phase
  · rcases Party.eq_or_eq_other (owner step) p with hp | hp
    · exact (heq.send h hp hfits).1
    · exact (heq.send_next hex h hp hfits).1
  · exact (hahead.send h hfits).1

/-! ### Receiving -/

variable {i : Nat} {message : MessageHeader S} {key : SharedSecret} {draws : Draws S}

/-- The state behind a delivery. -/
def Duplex.received (s : Duplex S) (p : Party) (i : Nat) (message : MessageHeader S)
    (ratchet : DoubleRatchet S) (accepted : List (MessageHeader S)) : Duplex S :=
  { s with
    ratchet := Function.update s.ratchet p ratchet
    delivered := Function.update s.delivered p (s.delivered p ++ [i])
    accepted := Function.update s.accepted p accepted
    recorded := Function.update s.recorded p (s.recorded p ++ (s.ratchet p).skips message) }

@[simp] theorem received_ratchet (s : Duplex S) (p : Party) (i : Nat) (message : MessageHeader S)
    (ratchet : DoubleRatchet S) (accepted : List (MessageHeader S)) :
    (s.received p i message ratchet accepted).ratchet p = ratchet :=
  Function.update_self ..

@[simp] theorem received_ratchet_other (s : Duplex S) (p : Party) (i : Nat)
    (message : MessageHeader S) (ratchet : DoubleRatchet S) (accepted : List (MessageHeader S)) :
    (s.received p i message ratchet accepted).ratchet p.other = s.ratchet p.other :=
  Function.update_of_ne p.other_ne ..

@[simp] theorem received_recorded (s : Duplex S) (p : Party) (i : Nat)
    (message : MessageHeader S) (ratchet : DoubleRatchet S) (accepted : List (MessageHeader S)) :
    (s.received p i message ratchet accepted).recorded p =
      s.recorded p ++ (s.ratchet p).skips message :=
  Function.update_self ..

theorem step_deliver_ok (hget : (s.sent p.other)[i]? = some (message, key))
    {ratchet : DoubleRatchet S} {result : SharedSecret}
    (hrecv : (s.ratchet p).recv message draws = (ratchet, .ok result)) :
    s.step (.deliver p i draws) =
      (s.received p i message ratchet (s.accepted p ++ [message]), .received (.ok result)) := by
  simp only [Duplex.step, hget, hrecv, Duplex.received]

theorem step_deliver_error (hget : (s.sent p.other)[i]? = some (message, key))
    {ratchet : DoubleRatchet S} {e : RecvError}
    (hrecv : (s.ratchet p).recv message draws = (ratchet, .error e)) :
    s.step (.deliver p i draws) =
      (s.received p i message ratchet (s.accepted p), .received (.error e)) := by
  simp only [Duplex.step, hget, hrecv, Duplex.received]

/-- The other party keeps what it knows. -/
theorem tracks_received (h : Inv s) {ratchet : DoubleRatchet S}
    {accepted : List (MessageHeader S)}
    (hp : Tracks p ratchet (s.sent p.other) accepted
      (s.recorded p ++ (s.ratchet p).skips message)) (q : Party) :
    Tracks q ((s.received p i message ratchet accepted).ratchet q) (s.sent q.other)
      ((s.received p i message ratchet accepted).accepted q)
      ((s.received p i message ratchet accepted).recorded q) := by
  simp only [Duplex.received]
  rcases Party.eq_or_eq_other p q with rfl | rfl
  · simp only [Function.update_self]
    exact hp
  · simp only [Function.update_of_ne (Party.other_ne _)]
    exact h.tracks _

/-- A message that opens a chain, or one at or ahead of the next one of the
current chain. -/
def Fresh (s : Duplex S) (p : Party) (message : MessageHeader S) (step : Nat) : Prop :=
  p = (owner step).other ∧ message.id.step = step ∧
    (EqualAt s step ∧ (s.ratchet p).receiver.step ≤ message.id.subStep ∨ AheadAt s step)

/-- Any other message of the peer is looked up. -/
theorem stale_of_not_fresh (h : Inv s) (he : (message, key) ∈ s.sent p.other)
    (hfresh : ∀ step, ¬ Fresh s p message step) :
    message.id.step < (s.ratchet p).root.step ∨
      message.id.step = (s.ratchet p).root.step ∧
        message.id.subStep < (s.ratchet p).receiver.step := by
  obtain ⟨step, heq | hahead⟩ := h.phase
  · rcases Party.eq_or_eq_other (owner step) p with rfl | rfl
    · have hlt := Equal.bound' heq _ he
      rw [heq.owner_root]
      exact .inl hlt
    · rw [Party.other_other] at he
      have hle := Equal.bound heq _ he
      have hroot := Equal.root_step heq
      have hnot := hfresh step
      simp only [Fresh, true_and, heq, not_and, not_or] at hnot
      by_cases hstep : message.id.step = step
      · obtain ⟨hsub, -⟩ := hnot hstep
        exact .inr ⟨hstep.trans hroot.symm, Nat.lt_of_not_le hsub⟩
      · rw [hroot]
        exact .inl (Nat.lt_of_le_of_ne hle hstep)
  · rcases Party.eq_or_eq_other (owner step) p with rfl | rfl
    · have hlt := Ahead.bound' hahead _ he
      rw [Ahead.root_step hahead]
      exact .inl hlt
    · have howned := (h.tracks _).owned _ he
      rw [Party.other_other] at he
      have hle := Ahead.bound hahead _ he
      have hroot := Ahead.root_step' hahead
      have hne : message.id.step ≠ step := fun hstep => hfresh step ⟨rfl, hstep, .inr hahead⟩
      -- the chain before is one's own
      have hne' : message.id.step ≠ (s.ratchet (owner step).other).root.step := by
        intro hstep
        have howned' : owner message.id.step = (owner step).other.other := howned
        rw [hstep, hahead.other_owns] at howned'
        exact (Party.other_ne _).symm howned'
      have hle' : message.id.step ≤ step := hle
      exact .inl (by omega)

/-- A fresh message is accepted with its key. -/
theorem deliver_fresh (hex : S.exchange.Lawful) (h : Inv s)
    (hget : (s.sent p.other)[i]? = some (message, key)) (hfresh : Fresh s p message step)
    (draws : Draws S) :
    ∃ ratchet, (s.ratchet p).recv message draws = (ratchet, .ok key) ∧
      Inv (s.received p i message ratchet (s.accepted p ++ [message])) ∧
      EqualAt (s.received p i message ratchet (s.accepted p ++ [message])) step ∧
      ¬ message.id.Before (frontier p (s.ratchet p)) ∧
      frontier p ratchet = ⟨step, message.id.subStep + 1⟩ ∧
      ratchet.keptIds =
        ((s.ratchet p).keptIds ++ (s.ratchet p).skips message).rtake maxKeptMissingMessages := by
  obtain ⟨rfl, hstep, hphase⟩ := hfresh
  have he := List.mem_of_getElem? hget
  have ht := h.tracks (owner step).other
  have howner : owner step = (owner step).other.other := (Party.other_other _).symm
  rw [Party.other_other] at he ht
  -- either way the receiver ends up in the chain of the message
  obtain ⟨ratchet, hrecv, heq', ht', hfrontier, hkept, hahead⟩ : ∃ ratchet,
      (s.ratchet (owner step).other).recv message draws = (ratchet, .ok key) ∧
      Equal step (s.ratchet (owner step)) ratchet (s.sent (owner step))
        (s.sent (owner step).other) ∧
      Tracks (owner step).other ratchet (s.sent (owner step))
        (s.accepted (owner step).other ++ [message])
        (s.recorded (owner step).other ++ (s.ratchet (owner step).other).skips message) ∧
      frontier (owner step).other ratchet = ⟨step, message.id.subStep + 1⟩ ∧
      ratchet.keptIds = ((s.ratchet (owner step).other).keptIds ++
        (s.ratchet (owner step).other).skips message).rtake maxKeptMissingMessages ∧
      ¬ message.id.Before (frontier (owner step).other (s.ratchet (owner step).other)) := by
    rcases hphase with ⟨heq, hsub⟩ | hahead
    · obtain ⟨ratchet, hrecv, heq', ht', hfrontier, hkept⟩ :=
        Equal.receive heq ht howner he hstep hsub draws
      refine ⟨ratchet, hrecv, heq', ht', hfrontier, hkept, ?_⟩
      have howner' : owner (s.ratchet (owner step).other).root.step = (owner step).other.other := by
        rw [Equal.root_step heq, Party.other_other]
      rw [frontier_of_other howner', Equal.root_step heq]
      simp only [MessageId.Before]
      omega
    · obtain ⟨ratchet, hrecv, heq', ht', hfrontier, hkept⟩ :=
        Ahead.enter hex hahead ht howner he hstep draws
      refine ⟨ratchet, hrecv, heq', ht', hfrontier, hkept, ?_⟩
      have hroot := Ahead.root_step' hahead
      rw [frontier_of_owner hahead.other_owns]
      simp only [MessageId.Before]
      omega
  have hphase' : EqualAt (s.received (owner step).other i message ratchet
      (s.accepted (owner step).other ++ [message])) step := by
    simp only [EqualAt, Duplex.received, Function.update_self,
      Function.update_of_ne (Party.other_ne _).symm]
    exact heq'
  refine ⟨ratchet, hrecv, ⟨?_, step, .inl hphase'⟩, hphase', hahead, hfrontier, hkept⟩
  apply tracks_received h
  rw [Party.other_other]
  exact ht'

theorem skips_of_stale {s : DoubleRatchet S}
    (h : message.id.step < s.root.step ∨
      message.id.step = s.root.step ∧ message.id.subStep < s.receiver.step) :
    s.skips message = [] := by
  rw [DoubleRatchet.skips]
  by_cases hlt : message.id.step < s.root.step
  · rw [if_pos hlt]
  · obtain ⟨heq, hsub⟩ := h.resolve_left hlt
    have hzero : message.id.subStep - s.receiver.step = 0 := by omega
    rw [if_neg hlt, if_pos heq, hzero]
    rfl

/-- The phase does not depend on what was set aside. -/
theorem phase_setMissing (s : Duplex S) (p : Party) (i : Nat) (message : MessageHeader S)
    (missing : ArrayVec (MessageId × SharedSecret) maxKeptMissingMessages)
    (accepted : List (MessageHeader S)) (step : Nat) :
    (EqualAt s step → EqualAt (s.received p i message
        { s.ratchet p with missingMessages := missing } accepted) step) ∧
      (AheadAt s step → AheadAt (s.received p i message
        { s.ratchet p with missingMessages := missing } accepted) step) := by
  have hpair : ∀ q : Party, ∃ m, (s.received p i message
      { s.ratchet p with missingMessages := missing } accepted).ratchet q =
        { s.ratchet q with missingMessages := m } := by
    intro q
    by_cases hq : q = p
    · subst hq
      exact ⟨missing, by simp only [Duplex.received, Function.update_self]⟩
    · exact ⟨(s.ratchet q).missingMessages, by
        simp only [Duplex.received, Function.update_of_ne hq]⟩
  obtain ⟨m, hm⟩ := hpair (owner step)
  obtain ⟨m', hm'⟩ := hpair (owner step).other
  constructor
  · intro heq
    rw [EqualAt, hm, hm']
    exact Equal.setMissing heq m m'
  · intro hahead
    rw [AheadAt, hm, hm']
    exact Ahead.setMissing hahead m m'

/-- A message that was set aside is accepted with its key, once. -/
theorem deliver_kept (h : Inv s) (hget : (s.sent p.other)[i]? = some (message, key))
    (hstale : message.id.step < (s.ratchet p).root.step ∨
      message.id.step = (s.ratchet p).root.step ∧
        message.id.subStep < (s.ratchet p).receiver.step)
    (hkept : message.id ∈ (s.ratchet p).keptIds) (draws : Draws S) :
    ∃ missing, (s.ratchet p).recv message draws =
        ({ s.ratchet p with missingMessages := missing }, .ok key) ∧
      Inv (s.received p i message { s.ratchet p with missingMessages := missing }
        (s.accepted p ++ [message])) ∧
      ∀ id ∈ (s.ratchet p).keptIds, id = message.id ∨ id ∈ missing.toList.map Prod.fst := by
  have he := List.mem_of_getElem? hget
  obtain ⟨missing, hfind, ht, hrest⟩ := (h.tracks p).find_some he hkept
  refine ⟨missing, (DoubleRatchet.recv_stale hstale).trans hfind, ⟨?_, ?_⟩, hrest⟩
  · apply tracks_received h
    rw [skips_of_stale hstale, List.append_nil]
    exact ht
  · obtain ⟨step, hphase⟩ := h.phase
    obtain ⟨hequal, hahead⟩ := phase_setMissing s p i message missing
      (s.accepted p ++ [message]) step
    exact ⟨step, hphase.imp hequal hahead⟩

/-- Any other message is refused. -/
theorem deliver_lost (h : Inv s)
    (hstale : message.id.step < (s.ratchet p).root.step ∨
      message.id.step = (s.ratchet p).root.step ∧
        message.id.subStep < (s.ratchet p).receiver.step)
    (hkept : message.id ∉ (s.ratchet p).keptIds) (draws : Draws S) :
    (s.ratchet p).recv message draws = (s.ratchet p, .error .missingMessage) ∧
      Inv (s.received p i message (s.ratchet p) (s.accepted p)) := by
  refine ⟨(DoubleRatchet.recv_stale hstale).trans (DoubleRatchet.findMissingMessage_none hkept),
    ?_, ?_⟩
  · apply tracks_received h
    rw [skips_of_stale hstale, List.append_nil]
    exact h.tracks p
  · obtain ⟨step, hphase⟩ := h.phase
    obtain ⟨hequal, hahead⟩ := phase_setMissing s p i message
      (s.ratchet p).missingMessages (s.accepted p) step
    exact ⟨step, hphase.imp hequal hahead⟩

end OnionNetwork.Ratchet
