import OnionNetwork.Ratchet.Runs

/-!
# Taking turns

In each turn one party sends and the other receives some of the turn's messages,
in any order, as long as a message that arrives late is among the five most
recently skipped ones. All of them are accepted, and behind each of them the hashes of
the two parties match. A turn that uses up its chain breaks this.
-/

namespace OnionNetwork.Ratchet

open Lib

variable {S : Suite}

/-- A turn: how many messages are sent, and which of them are received. -/
structure Turn (S : Suite) where
  sends : Nat
  picks : List (Fin sends × Draws S)
  picks_ne_nil : picks ≠ []

/-- The calls of a turn of `p`, who sent `base` messages before. -/
def Turn.actions (t : Turn S) (p : Party) (base : Nat) : List (Action S) :=
  List.replicate t.sends (.send p) ++
    t.picks.map fun pick => .deliver p.other (base + pick.1) pick.2

/-- Alternating turns, the first one of `p`. -/
def turns (s : Duplex S) (p : Party) : List (Turn S) → List (Action S)
  | [] => []
  | t :: ts =>
      let actions := t.actions p (s.sent p).length
      actions ++ turns ((duplexMachine S).run s actions) p.other ts

/-- A message is received once; one older than the newest received one is among
the most recently skipped ones. -/
def Picked (s : Duplex S) : Action S → Prop
  | .send _ => True
  | .deliver p i _ =>
      i ∉ s.delivered p ∧
        ((∃ j ∈ s.delivered p, i < j) →
          ∀ e, (s.sent p.other)[i]? = some e →
            e.1.id ∈ (s.recorded p).rtake maxKeptMissingMessages)

instance (s : Duplex S) : DecidablePred (Picked s)
  | .send _ => isTrue trivial
  | .deliver p i _ =>
      inferInstanceAs (Decidable (i ∉ s.delivered p ∧ ((∃ j ∈ s.delivered p, i < j) →
        ∀ e ∈ (s.sent p.other)[i]?, e.1.id ∈ (s.recorded p).rtake maxKeptMissingMessages)))

/-- Each side's hash for sending is the other's for receiving. -/
def HashesMatch (s : Duplex S) : Prop :=
  ∀ p : Party, (s.ratchet p).senderHash = (s.ratchet p.other).receiverHash

/-- A delivered message is accepted with its key, and the hashes match. -/
def Agrees (s : Duplex S) : Action S → Prop
  | .send _ => True
  | .deliver p i draws =>
      (∃ header key, (s.sent p.other)[i]? = some (header, key) ∧
        (s.step (.deliver p i draws)).2 = .received (.ok key)) ∧
        HashesMatch (s.step (.deliver p i draws)).1

variable {s : Duplex S} {p : Party} {step first base : Nat}

theorem EqualAt.hashesMatch (h : EqualAt s step) : HashesMatch s := by
  obtain ⟨hsender, hreceiver⟩ := Equal.hashes h
  intro p
  rcases Party.eq_or_eq_other (owner step) p with rfl | rfl
  · exact hsender
  · rw [Party.other_other]
    exact hreceiver.symm

/-- The messages of a turn: those from `base` on, in chain `step` from `first` on. -/
def TurnIds (s : Duplex S) (p : Party) (step first base : Nat) : Prop :=
  ∀ i e, base ≤ i → (s.sent p)[i]? = some e → e.1.id = ⟨step, first + (i - base)⟩

/-! ### Sending -/

/-- While a party sends in its turn. -/
structure Sending (s : Duplex S) (p : Party) (step first base : Nat) : Prop where
  inv : Inv s
  owner_eq : p = owner step
  ids : TurnIds s p step first base
  base_le : base ≤ (s.sent p).length
  count : (s.ratchet p).sender.step = first + ((s.sent p).length - base)
  phase : AheadAt s step ∨ EqualAt s step ∧ (s.ratchet p.other).receiver.step ≤ first

theorem Sending.root (h : Sending s p step first base) : (s.ratchet p).root.step = step := by
  rw [h.owner_eq]
  rcases h.phase with hahead | ⟨heq, -⟩
  · exact Ahead.root_step hahead
  · exact heq.owner_root

theorem Sending.lt (h : Sending s p step first base) (hfits : Fits s (.send p)) :
    (s.ratchet p).sender.step < u32Max := by
  refine sender_lt hfits ?_ ?_
  · rw [h.root, h.owner_eq]
  · rw [h.owner_eq]
    rcases h.phase with hahead | ⟨heq, -⟩
    · exact Ahead.short hahead
    · exact Equal.short heq

theorem TurnIds.send (h : TurnIds s p step first base)
    (hid : (s.ratchet p).send.2.1.id = ⟨step, first + ((s.sent p).length - base)⟩) :
    TurnIds (s.step (.send p)).1 p step first base := by
  intro i e hi hget
  rw [step_send_sent] at hget
  by_cases hlt : i < (s.sent p).length
  · rw [List.getElem?_append_left hlt] at hget
    exact h i e hi hget
  · rw [List.getElem?_append_right (Nat.le_of_not_lt hlt), List.getElem?_singleton] at hget
    split at hget
    · rename_i hzero
      have heq : i = (s.sent p).length := by omega
      rw [← Option.some.inj hget, hid, heq]
    · cases hget

/-- The next message of the turn. -/
theorem Sending.send (h : Sending s p step first base) (hfits : Fits s (.send p)) :
    Sending (s.step (.send p)).1 p step first base := by
  have hlt := h.lt hfits
  have hle := h.base_le
  have hcount := h.count
  have hsend := DoubleRatchet.send_eq_of_lt hlt
  obtain ⟨hinv, hphase⟩ : Inv (s.step (.send p)).1 ∧ (AheadAt (s.step (.send p)).1 step ∨
      EqualAt (s.step (.send p)).1 step ∧
        ((s.step (.send p)).1.ratchet p.other).receiver.step ≤ first) := by
    rcases h.phase with hahead | ⟨heq, hreceiver⟩
    · obtain ⟨hinv, hahead'⟩ := hahead.send h.inv hfits
      exact ⟨hinv, .inl hahead'⟩
    · obtain ⟨hinv, heq'⟩ := heq.send h.inv h.owner_eq hfits
      rw [step_send_ratchet_other]
      exact ⟨hinv, .inr ⟨heq', hreceiver⟩⟩
  refine ⟨hinv, h.owner_eq, h.ids.send ?_, ?_, ?_, hphase⟩
  · rw [hsend, ← hcount]
    show (⟨(s.ratchet p).root.step, _⟩ : MessageId) = _
    rw [h.root]
  · rw [step_send_sent, List.length_append]
    exact Nat.le_add_right_of_le hle
  · rw [step_send_ratchet, step_send_sent, hsend, List.length_append, List.length_singleton]
    show (s.ratchet p).sender.step + 1 = _
    omega

/-- The first message of a turn, whoever's chain the parties are in. -/
theorem sending_first (hex : S.exchange.Lawful) (hinv : Inv s) (heq : EqualAt s step)
    (hfits : Fits s (.send p)) :
    ∃ step' first, Sending (s.step (.send p)).1 p step' first (s.sent p).length := by
  have hlen : (s.step (.send p)).1.sent p = s.sent p ++ [(s.ratchet p).send.2] := step_send_sent s p
  have hids : ∀ step' first, (s.ratchet p).send.2.1.id = ⟨step', first⟩ →
      TurnIds (s.step (.send p)).1 p step' first (s.sent p).length := by
    intro step' first hid
    refine TurnIds.send ?_ (by rw [hid, Nat.sub_self, Nat.add_zero])
    intro i e hi hget
    rw [List.getElem?_eq_none hi] at hget
    cases hget
  rcases Party.eq_or_eq_other (owner step) p with rfl | rfl
  · have hlt : (s.ratchet (owner step)).sender.step < u32Max :=
      sender_lt hfits (congrArg owner heq.owner_root) (Equal.short heq)
    have hsend := DoubleRatchet.send_eq_of_lt hlt
    obtain ⟨hinv', heq'⟩ := heq.send hinv rfl hfits
    refine ⟨step, (s.ratchet (owner step)).sender.step, hinv', rfl, hids _ _ ?_, ?_, ?_,
      .inr ⟨heq', ?_⟩⟩
    · rw [hsend]
      show (⟨(s.ratchet (owner step)).root.step, _⟩ : MessageId) = _
      rw [heq.owner_root]
    · rw [hlen, List.length_append]
      exact Nat.le_add_right _ _
    · rw [hlen, step_send_ratchet, hsend, List.length_append, List.length_singleton,
        Nat.add_sub_cancel_left]
    · rw [step_send_ratchet_other]
      exact Equal.receiver_le heq
  · have hguard : (s.ratchet (owner step).other).sender.step = u32Max := by
      rw [Equal.guard heq]
    have hlt : (s.ratchet (owner step).other).openChain.sender.step < u32Max := by
      show 0 < u32Max
      decide
    have hsend := (DoubleRatchet.send_of_guard hguard).trans (DoubleRatchet.send_eq_of_lt hlt)
    obtain ⟨hinv', hahead⟩ := heq.send_next hex hinv rfl hfits
    have hroot := Ahead.root_step hahead
    rw [owner_succ, step_send_ratchet, hsend] at hroot
    refine ⟨step + 1, 0, hinv', (owner_succ step).symm, hids _ _ ?_, ?_, ?_, .inl hahead⟩
    · rw [hsend]
      show (⟨(s.ratchet (owner step).other).openChain.root.step, 0⟩ : MessageId) = _
      rw [show (s.ratchet (owner step).other).openChain.root.step = step + 1 from hroot]
    · rw [hlen, List.length_append]
      exact Nat.le_add_right _ _
    · rw [hlen, step_send_ratchet, hsend, List.length_append, List.length_singleton,
        Nat.add_sub_cancel_left]
      rfl

theorem length_sent_run_sends (s : Duplex S) (p : Party) (n : Nat) :
    (((duplexMachine S).run s (List.replicate n (.send p))).sent p).length =
      (s.sent p).length + n := by
  induction n generalizing s with
  | zero => rfl
  | succ n ih =>
      rw [List.replicate_succ, Machine.run_cons, ih]
      show ((s.step (.send p)).1.sent p).length + n = _
      rw [step_send_sent, List.length_append, List.length_singleton]
      omega

/-- Behind the first message of the turn. -/
theorem Sending.run (h : Sending s p step first base) {n : Nat}
    (hfits : (duplexMachine S).EachStep Fits s (List.replicate n (.send p))) :
    Sending ((duplexMachine S).run s (List.replicate n (.send p))) p step first base := by
  induction n generalizing s with
  | zero => exact h
  | succ n ih =>
      obtain ⟨hfirst, hrest⟩ := hfits
      exact ih (h.send hfirst) hrest

/-! ### Receiving -/

/-- While the other party receives the messages of a turn. What it has passed it
has received, or received a later one. -/
structure InTurn (s : Duplex S) (p : Party) (step first base : Nat) : Prop where
  inv : Inv s
  owner_eq : p = owner step
  ids : TurnIds s p step first base
  phase : AheadAt s step ∨ EqualAt s step ∧
    ∀ i, base ≤ i → first + (i - base) < (s.ratchet p.other).receiver.step →
      i ∈ s.delivered p.other ∨ ∃ j ∈ s.delivered p.other, i < j
  used : ∀ i, base ≤ i →
    (∃ h ∈ s.accepted p.other, h.id = ⟨step, first + (i - base)⟩) → i ∈ s.delivered p.other

theorem Sending.inTurn (h : Sending s p step first base) : InTurn s p step first base := by
  have hdone := fun m hm => ((h.inv.tracks p.other).done m hm).1
  rcases h.phase with hahead | ⟨heq, hreceiver⟩
  · refine ⟨h.inv, h.owner_eq, h.ids, .inl hahead, ?_⟩
    rintro i hi ⟨m, hm, hid⟩
    have hbefore := hdone m hm
    rw [h.owner_eq, frontier_of_owner hahead.other_owns, hid] at hbefore
    have hroot := Ahead.root_step' hahead
    simp only [MessageId.Before] at hbefore
    omega
  · refine ⟨h.inv, h.owner_eq, h.ids, .inr ⟨heq, ?_⟩, ?_⟩
    · intro i hi hlt
      omega
    · rintro i hi ⟨m, hm, hid⟩
      have hbefore := hdone m hm
      have hroot := Equal.root_step heq
      have howner : owner (s.ratchet p.other).root.step = p.other.other := by
        rw [h.owner_eq, hroot, Party.other_other]
      rw [frontier_of_other howner, hid] at hbefore
      simp only [MessageId.Before] at hbefore
      rw [← h.owner_eq] at hroot
      omega

/-- **One message of the turn is received.** -/
theorem InTurn.deliver (hex : S.exchange.Lawful) (h : InTurn s p step first base) {i : Nat}
    {draws : Draws S} (hi : base ≤ i) (hlt : i < (s.sent p).length)
    (hpicked : Picked s (.deliver p.other i draws)) :
    InTurn (s.step (.deliver p.other i draws)).1 p step first base ∧
      EqualAt (s.step (.deliver p.other i draws)).1 step ∧
      Agrees s (.deliver p.other i draws) := by
  obtain ⟨hnew, hrecent⟩ := hpicked
  have hget : (s.sent p.other.other)[i]? = some (s.sent p)[i] := by
    rw [Party.other_other]
    exact List.getElem?_eq_getElem hlt
  generalize he : (s.sent p)[i] = e at hget
  obtain ⟨message, key⟩ := e
  have hid : message.id = ⟨step, first + (i - base)⟩ := by
    refine h.ids i (message, key) hi ?_
    rw [List.getElem?_eq_getElem hlt, he]
  have hp : p.other = (owner step).other := by rw [h.owner_eq]
  -- the message is accepted, and what was passed was received, or a later one was
  suffices hstep : ∃ ratchet, (s.ratchet p.other).recv message draws = (ratchet, .ok key) ∧
      Inv (s.received p.other i message ratchet (s.accepted p.other ++ [message])) ∧
      EqualAt (s.received p.other i message ratchet (s.accepted p.other ++ [message])) step ∧
      ∀ j, base ≤ j → first + (j - base) < ratchet.receiver.step →
        j ∈ s.delivered p.other ++ [i] ∨ ∃ k ∈ s.delivered p.other ++ [i], j < k by
    obtain ⟨ratchet, hrecv, hinv, heq, hpassed⟩ := hstep
    rw [Agrees, step_deliver_ok hget hrecv]
    refine ⟨⟨hinv, h.owner_eq, h.ids, .inr ⟨heq, ?_⟩, ?_⟩, heq,
      ⟨message, key, hget, rfl⟩, heq.hashesMatch⟩
    · simp only [Duplex.received, Function.update_self]
      exact hpassed
    · simp only [Duplex.received, Function.update_self]
      rintro j hj ⟨m, hm, hmid⟩
      rcases List.mem_append.mp hm with hm | hm
      · exact List.mem_append_left _ (h.used j hj ⟨m, hm, hmid⟩)
      · rw [List.mem_singleton.mp hm, hid] at hmid
        have hsub := congrArg MessageId.subStep hmid
        have hji : j = i := by
          simp only at hsub
          omega
        rw [hji]
        exact List.mem_append_right _ (List.mem_singleton.mpr rfl)
  by_cases hfresh : Fresh s p.other message step
  · obtain ⟨ratchet, hrecv, hinv, heq, -, hfrontier, -⟩ := deliver_fresh hex h.inv hget hfresh draws
    refine ⟨ratchet, hrecv, hinv, heq, ?_⟩
    intro j hj hjlt
    have hsub : ratchet.receiver.step = message.id.subStep + 1 :=
      congrArg MessageId.subStep hfrontier
    rw [hsub, hid] at hjlt
    have hle : j ≤ i := by
      simp only at hjlt
      omega
    rcases Nat.eq_or_lt_of_le hle with rfl | hlt'
    · exact .inl (List.mem_append_right _ (List.mem_singleton.mpr rfl))
    · exact .inr ⟨i, List.mem_append_right _ (List.mem_singleton.mpr rfl), hlt'⟩
  · -- an older one, whose key is still kept
    rcases h.phase with hahead | ⟨heq, hpassed⟩
    · exact absurd ⟨hp, by rw [hid], .inr hahead⟩ hfresh
    have hbehind : first + (i - base) < (s.ratchet p.other).receiver.step := by
      refine Nat.lt_of_not_le ?_
      intro hle
      refine hfresh ⟨hp, by rw [hid], .inl ⟨heq, ?_⟩⟩
      rw [hid]
      exact hle
    have holder := (hpassed i hi hbehind).resolve_left hnew
    have hroot : (s.ratchet p.other).root.step = step := by
      rw [hp]
      exact Equal.root_step heq
    have hstale : message.id.step < (s.ratchet p.other).root.step ∨
        message.id.step = (s.ratchet p.other).root.step ∧
          message.id.subStep < (s.ratchet p.other).receiver.step := by
      rw [hid, hroot]
      exact .inr ⟨rfl, hbehind⟩
    have hkept : message.id ∈ (s.ratchet p.other).keptIds := by
      refine ((h.inv.tracks p.other).remembers.recent _ (hrecent holder _ hget)).resolve_left ?_
      rintro ⟨m, hm, hmid⟩
      rw [hid] at hmid
      exact hnew (h.used i hi ⟨m, hm, hmid⟩)
    obtain ⟨missing, hrecv, hinv, -⟩ := deliver_kept h.inv hget hstale hkept draws
    obtain ⟨hequal, -⟩ := phase_setMissing s p.other i message missing
      (s.accepted p.other ++ [message]) step
    refine ⟨_, hrecv, hinv, hequal heq, ?_⟩
    intro j hj hjlt
    refine (hpassed j hj hjlt).imp (List.mem_append_left _) ?_
    rintro ⟨k, hk, hjk⟩
    exact ⟨k, List.mem_append_left _ hk, hjk⟩

/-- The messages of the turn that are received, one by one. -/
theorem InTurn.run (hex : S.exchange.Lawful) (h : InTurn s p step first base) {n : Nat}
    (hlen : base + n ≤ (s.sent p).length) (picks : List (Fin n × Draws S))
    (hpicked : (duplexMachine S).EachStep Picked s
      (picks.map fun pick => .deliver p.other (base + pick.1) pick.2)) :
    (duplexMachine S).EachStep Agrees s
        (picks.map fun pick => .deliver p.other (base + pick.1) pick.2) ∧
      Inv ((duplexMachine S).run s
        (picks.map fun pick => .deliver p.other (base + pick.1) pick.2)) ∧
      (picks ≠ [] ∨ EqualAt s step → EqualAt ((duplexMachine S).run s
        (picks.map fun pick => .deliver p.other (base + pick.1) pick.2)) step) := by
  induction picks generalizing s with
  | nil =>
      refine ⟨trivial, h.inv, ?_⟩
      rintro (hne | heq)
      · exact absurd rfl hne
      · exact heq
  | cons pick picks ih =>
      obtain ⟨hfirst, hrest⟩ := hpicked
      have hlt : base + pick.1 < (s.sent p).length := by
        have hpick := pick.1.isLt
        omega
      obtain ⟨hturn, heq, hagrees⟩ := h.deliver hex (Nat.le_add_right _ _) hlt hfirst
      have hlen' : base + n ≤
          ((s.step (.deliver p.other (base + pick.1) pick.2)).1.sent p).length := by
        have hsent : (s.step (.deliver p.other (base + pick.1) pick.2)).1.sent = s.sent := by
          simp only [Duplex.step]
          split <;> rfl
        rw [hsent]
        exact hlen
      obtain ⟨hall, hinv, hend⟩ := ih hturn hlen' hrest
      exact ⟨⟨hagrees, hall⟩, hinv, fun _ => hend (.inr heq)⟩

/-! ### Turns -/

/-- **One turn.** -/
theorem turn_agrees (hex : S.exchange.Lawful) (hinv : Inv s) (heq : ∃ step, EqualAt s step)
    (t : Turn S)
    (hpicked : (duplexMachine S).EachStep Picked s (t.actions p (s.sent p).length))
    (hfits : (duplexMachine S).EachStep Fits s (t.actions p (s.sent p).length)) :
    (duplexMachine S).EachStep Agrees s (t.actions p (s.sent p).length) ∧
      Inv ((duplexMachine S).run s (t.actions p (s.sent p).length)) ∧
      ∃ step, EqualAt ((duplexMachine S).run s (t.actions p (s.sent p).length)) step := by
  obtain ⟨step, heq⟩ := heq
  obtain ⟨pick, hpick⟩ := List.exists_mem_of_ne_nil _ t.picks_ne_nil
  obtain ⟨n, hn⟩ : ∃ n, t.sends = n + 1 := Nat.exists_eq_add_one.mpr pick.1.pos
  rw [Turn.actions, Machine.eachStep_append] at hpicked hfits
  rw [Turn.actions, Machine.eachStep_append, Machine.run_append]
  obtain ⟨-, hpicked⟩ := hpicked
  obtain ⟨hfits, -⟩ := hfits
  have hlen := length_sent_run_sends s p t.sends
  obtain ⟨step', first, hsending⟩ : ∃ step' first,
      Sending ((duplexMachine S).run s (List.replicate t.sends (.send p))) p step' first
        (s.sent p).length := by
    rw [hn, List.replicate_succ] at hfits ⊢
    obtain ⟨hfirst, hrest⟩ := hfits
    obtain ⟨step', first, hsending⟩ := sending_first hex hinv heq hfirst
    exact ⟨step', first, hsending.run hrest⟩
  obtain ⟨hagrees, hinv', hend⟩ :=
    hsending.inTurn.run hex (Nat.le_of_eq hlen.symm) t.picks hpicked
  refine ⟨⟨?_, hagrees⟩, hinv', step', hend (.inl t.picks_ne_nil)⟩
  refine Machine.EachStep.mono (Q := fun _ a => a = .send p) ?_ ?_
  · rintro s a rfl
    trivial
  · exact Machine.EachStep.of_forall (fun a ha => List.eq_of_mem_replicate ha) s

/-- **Agreement over any number of turns**, whoever begins, whose sends find their
counters in range. -/
theorem turns_agree (hex : S.exchange.Lawful) (secret : SharedSecret)
    (aliceDraws bobDraws : Draws S) (p : Party) (ts : List (Turn S))
    (hpicked : (duplexMachine S).EachStep Picked (Duplex.start secret aliceDraws bobDraws)
      (turns (Duplex.start secret aliceDraws bobDraws) p ts))
    (hfits : (duplexMachine S).EachStep Fits (Duplex.start secret aliceDraws bobDraws)
      (turns (Duplex.start secret aliceDraws bobDraws) p ts)) :
    (duplexMachine S).EachStep Agrees (Duplex.start secret aliceDraws bobDraws)
      (turns (Duplex.start secret aliceDraws bobDraws) p ts) := by
  have hstart : Inv (Duplex.start secret aliceDraws bobDraws) := start_inv hex
  have hequal : ∃ step, EqualAt (Duplex.start secret aliceDraws bobDraws) step :=
    ⟨2, start_equal hex⟩
  generalize Duplex.start secret aliceDraws bobDraws = s at *
  induction ts generalizing s p with
  | nil => trivial
  | cons t ts ih =>
      rw [turns, Machine.eachStep_append] at hpicked hfits ⊢
      obtain ⟨hagrees, hinv, hequal'⟩ := turn_agrees hex hstart hequal t hpicked.1 hfits.1
      exact ⟨hagrees, ih p.other _ hpicked.2 hfits.2 hinv hequal'⟩

/-- Three turns, the second one received out of order. -/
def threeTurns : List (Turn Suite.transparent) :=
  [{ sends := 1, picks := [(0, transparentDraws 3)], picks_ne_nil := List.cons_ne_nil _ _ },
    { sends := 4
      picks := [(2, transparentDraws 4), (0, transparentDraws 5), (3, transparentDraws 6)]
      picks_ne_nil := List.cons_ne_nil _ _ },
    { sends := 2, picks := [(1, transparentDraws 7)], picks_ne_nil := List.cons_ne_nil _ _ }]

theorem turns_agree_three :
    (duplexMachine Suite.transparent).EachStep Agrees
      (Duplex.start 0 (transparentDraws 1) (transparentDraws 2))
      (turns (Duplex.start 0 (transparentDraws 1) (transparentDraws 2)) .bob threeTurns) := by
  refine turns_agree Exchange.transparent_lawful _ _ _ _ _ ?_ ?_
  · decide
  · decide

/-- A turn that uses up chain 2 and of which the last message is received. -/
def longTurn : Turn Suite.transparent where
  sends := u32Max
  picks := [(⟨u32Max - 1, by decide⟩, transparentDraws 3)]
  picks_ne_nil := List.cons_ne_nil _ _

/-- Behind chain 2 `alice` opens another chain; its header closes chain 2 before
the first message. -/
theorem long_turn_refused :
    (duplexMachine Suite.transparent).EachStep Picked
        (Duplex.start 0 (transparentDraws 1) (transparentDraws 2))
        (turns (Duplex.start 0 (transparentDraws 1) (transparentDraws 2)) .alice [longTurn]) ∧
      ¬ (duplexMachine Suite.transparent).EachStep Agrees
        (Duplex.start 0 (transparentDraws 1) (transparentDraws 2))
        (turns (Duplex.start 0 (transparentDraws 1) (transparentDraws 2)) .alice [longTurn]) := by
  let s : Duplex Suite.transparent := Duplex.start 0 (transparentDraws 1) (transparentDraws 2)
  obtain ⟨out, hlen, hrun⟩ := run_use_up s .alice rfl
  -- `alice` behind her last message of chain 2, the counter at its end
  let alice : DoubleRatchet Suite.transparent :=
    { s.ratchet .alice with
      sender := ⟨u32Max,
        stateAt (kdfSc Suite.transparent) (s.ratchet .alice).sender.root (u32Max - 1)⟩ }
  let s₁ : Duplex Suite.transparent :=
    { s with
      ratchet := Function.update s.ratchet .alice alice
      sent := Function.update s.sent .alice (s.sent .alice ++ out) }
  have hactions : turns s .alice [longTurn] =
      List.replicate u32Max (.send .alice) ++
        [.deliver .bob (0 + (u32Max - 1)) (transparentDraws 3)] := by
    rw [turns, turns, List.append_nil]
    rfl
  have hrun' : (duplexMachine Suite.transparent).run s (List.replicate u32Max (.send .alice)) =
      (s₁.step (.send .alice)).1 := hrun
  show (duplexMachine Suite.transparent).EachStep Picked s (turns s .alice [longTurn]) ∧
    ¬ (duplexMachine Suite.transparent).EachStep Agrees s (turns s .alice [longTurn])
  rw [hactions, Machine.eachStep_append, Machine.eachStep_append, hrun']
  refine ⟨⟨?_, ?_, trivial⟩, ?_⟩
  · refine Machine.EachStep.mono (Q := fun _ a => a = .send .alice) ?_ ?_
    · rintro s a rfl
      trivial
    · exact Machine.EachStep.of_forall (fun a ha => List.eq_of_mem_replicate ha) s
  · refine ⟨List.not_mem_nil, ?_⟩
    rintro ⟨j, hj, -⟩
    cases hj
  · rintro ⟨-, ⟨⟨header, key, hget, hevent⟩, -⟩, -⟩
    have hlast : ((s₁.step (.send .alice)).1.sent Party.bob.other)[0 + (u32Max - 1)]? =
        some alice.send.2 := by
      have hsent : (s₁.step (.send .alice)).1.sent .alice =
          s.sent .alice ++ out ++ [alice.send.2] := by
        rw [step_send_sent]
        rfl
      have hat : 0 + (u32Max - 1) = (s.sent .alice ++ out).length := by
        rw [List.length_append, hlen]
        rfl
      show ((s₁.step (.send .alice)).1.sent .alice)[0 + (u32Max - 1)]? = _
      rw [hsent, hat, List.getElem?_append_right (Nat.le_refl _), Nat.sub_self]
      rfl
    -- the next message opens a chain, and what it says of the one before is 0
    have hguard : alice.sender.step = u32Max := rfl
    have hlt : alice.openChain.sender.step < u32Max := by
      show 0 < u32Max
      decide
    have hsend := (DoubleRatchet.send_of_guard hguard).trans (DoubleRatchet.send_eq_of_lt hlt)
    have hnext : (s.ratchet .bob).root.step < alice.send.2.1.id.step := by
      rw [hsend]
      show 2 < 3
      decide
    have hprev : alice.send.2.1.prevSubCount < (s.ratchet .bob).receiver.step := by
      rw [hsend]
      exact Nat.one_pos
    have hrecv : (s.ratchet .bob).recv alice.send.2.1 (transparentDraws 3) =
        (s.ratchet .bob, .error .invalidState) :=
      DoubleRatchet.recv_invalid hnext hprev
    have hrefused := congrArg Prod.snd
      (step_deliver_error (s := (s₁.step (.send .alice)).1) (p := .bob) hlast hrecv)
    cases received_inj (hrefused.symm.trans hevent)

end OnionNetwork.Ratchet
