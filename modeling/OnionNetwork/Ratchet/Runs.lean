import OnionNetwork.Ratchet.Conversation

/-!
# Runs of the conversation

The invariant holds at the start and every call that `Fits` keeps it, so it holds
in every state of a run. `run_sends` is a run that only sends in one chain.

What was sent stays where it is, a delivery is nothing to the other party, and a key that was set
aside is kept until its message is accepted, as long as no delivery evicts one.
-/

namespace OnionNetwork.Ratchet

open Lib

variable {S : Suite}

/-! ### The start -/

variable {secret : SharedSecret} {aliceDraws bobDraws : Draws S}

/-- At the start both parties are in chain 2, which `alice` owns. -/
theorem start_equal (hex : S.exchange.Lawful) :
    EqualAt (Duplex.start secret aliceDraws bobDraws) 2 := by
  have hmixed : Mixed ((Duplex.start secret aliceDraws bobDraws).ratchet .bob)
      ((Duplex.start secret aliceDraws bobDraws).ratchet .alice) := by
    have hpublic := hex.kyberPublic_generate aliceDraws.kyber
    have hdecaps := hex.decapsulate_encapsulate (S.exchange.kyberGenerate aliceDraws.kyber).2
      bobDraws.rng
    rw [hpublic] at hdecaps
    exact hdecaps
  have hnone : ∀ e ∈ ([] : Sent S), False := by
    intro e he
    cases he
  show Equal 2 ((Duplex.start secret aliceDraws bobDraws).ratchet .alice)
    ((Duplex.start secret aliceDraws bobDraws).ratchet .bob) [] []
  exact
    { two_le := Nat.le_refl 2
      root_step := rfl
      root_eq := rfl
      short := by show 1 ≤ u32Max; decide
      receiver_le := Nat.le_refl 1
      chain := rfl
      guard := rfl
      closed := Nat.le_refl 0
      closed_short := Nat.zero_le _
      bound := fun e he => (hnone e he).elim
      bound' := fun e he => (hnone e he).elim
      keys := fun e he => (hnone e he).elim
      mixed := by
        intro howner
        cases howner
      mixed' := fun _ => hmixed
      hashes := ⟨rfl, rfl⟩ }

theorem start_inv (hex : S.exchange.Lawful) : Inv (Duplex.start secret aliceDraws bobDraws) := by
  refine ⟨?_, 2, .inl (start_equal hex)⟩
  intro p
  have hkept :
      ((Duplex.start secret aliceDraws bobDraws).ratchet p).missingMessages.toList = [] := by
    cases p <;> rfl
  have hids : ((Duplex.start secret aliceDraws bobDraws).ratchet p).keptIds = [] := by
    rw [DoubleRatchet.keptIds, hkept]
    rfl
  show Tracks p _ [] [] []
  refine
    { ordered := List.Pairwise.nil
      before := ?_
      remembers := ?_
      done := ?_
      keys := ?_
      owned := ?_
      passed := ?_ }
  · intro i hi
    cases hi
  · rw [hids]
    exact Remembers.nil
  · intro m hm
    cases hm
  · intro entry hentry
    rw [hkept] at hentry
    cases hentry
  · intro e he
    cases he
  · intro e he
    cases he

/-! ### A step and a run -/

variable {s : Duplex S} {p : Party} {i : Nat} {message : MessageHeader S} {key : SharedSecret}
  {draws : Draws S}

theorem step_deliver_none (hget : (s.sent p.other)[i]? = none) :
    s.step (.deliver p i draws) = (s, .nothing) := by
  simp only [Duplex.step, hget]

/-- What a delivery can do: there may be no such header; it may be a fresh message,
one whose key is kept, or one that is refused. -/
inductive Delivery (s : Duplex S) (p : Party) (i : Nat) : Duplex S → Event S → Prop
  | nothing (hget : (s.sent p.other)[i]? = none) : Delivery s p i s .nothing
  | fresh {message : MessageHeader S} {key : SharedSecret} {step : Nat} {ratchet : DoubleRatchet S}
      (hget : (s.sent p.other)[i]? = some (message, key)) (hfresh : Fresh s p message step)
      (hinv : Inv (s.received p i message ratchet (s.accepted p ++ [message])))
      (heq : EqualAt (s.received p i message ratchet (s.accepted p ++ [message])) step)
      (hahead : ¬ message.id.Before (frontier p (s.ratchet p)))
      (hkept : ratchet.keptIds =
        ((s.ratchet p).keptIds ++ (s.ratchet p).skips message).rtake maxKeptMissingMessages) :
      Delivery s p i (s.received p i message ratchet (s.accepted p ++ [message]))
        (.received (.ok key))
  | kept {message : MessageHeader S} {key : SharedSecret}
      {missing : ArrayVec (MessageId × SharedSecret) maxKeptMissingMessages}
      (hget : (s.sent p.other)[i]? = some (message, key))
      (hid : message.id ∈ (s.ratchet p).keptIds) (hskips : (s.ratchet p).skips message = [])
      (hinv : Inv (s.received p i message { s.ratchet p with missingMessages := missing }
        (s.accepted p ++ [message])))
      (hrest : ∀ id ∈ (s.ratchet p).keptIds, id = message.id ∨ id ∈ missing.toList.map Prod.fst) :
      Delivery s p i (s.received p i message { s.ratchet p with missingMessages := missing }
        (s.accepted p ++ [message])) (.received (.ok key))
  | lost {message : MessageHeader S} {key : SharedSecret}
      (hget : (s.sent p.other)[i]? = some (message, key))
      (hid : message.id ∉ (s.ratchet p).keptIds) (hskips : (s.ratchet p).skips message = [])
      (hinv : Inv (s.received p i message (s.ratchet p) (s.accepted p))) :
      Delivery s p i (s.received p i message (s.ratchet p) (s.accepted p))
        (.received (.error .missingMessage))

/-- **Each delivery does one of these.** -/
theorem deliver_cases (hex : S.exchange.Lawful) (h : Inv s) (p : Party) (i : Nat)
    (draws : Draws S) :
    Delivery s p i (s.step (.deliver p i draws)).1 (s.step (.deliver p i draws)).2 := by
  cases hget : (s.sent p.other)[i]? with
  | none =>
      rw [step_deliver_none hget]
      exact .nothing hget
  | some e =>
      obtain ⟨message, key⟩ := e
      by_cases hfresh : ∃ step, Fresh s p message step
      · obtain ⟨step, hfresh⟩ := hfresh
        obtain ⟨ratchet, hrecv, hinv, heq, hahead, -, hkept⟩ :=
          deliver_fresh hex h hget hfresh draws
        rw [step_deliver_ok hget hrecv]
        exact .fresh hget hfresh hinv heq hahead hkept
      · have hstale := stale_of_not_fresh h (List.mem_of_getElem? hget) (not_exists.mp hfresh)
        by_cases hid : message.id ∈ (s.ratchet p).keptIds
        · obtain ⟨missing, hrecv, hinv, hrest⟩ := deliver_kept h hget hstale hid draws
          rw [step_deliver_ok hget hrecv]
          exact .kept hget hid (skips_of_stale hstale) hinv hrest
        · obtain ⟨hrecv, hinv⟩ := deliver_lost (i := i) h hstale hid draws
          rw [step_deliver_error hget hrecv]
          exact .lost hget hid (skips_of_stale hstale) hinv

theorem deliver_inv (hex : S.exchange.Lawful) (h : Inv s) :
    Inv (s.step (.deliver p i draws)).1 := by
  have hcases := deliver_cases hex h p i draws
  generalize s.step (.deliver p i draws) = r at *
  obtain ⟨s', event⟩ := r
  cases hcases with
  | nothing hget => exact h
  | fresh hget hfresh hinv => exact hinv
  | kept hget hid hskips hinv => exact hinv
  | lost hget hid hskips hinv => exact hinv

/-- **One call keeps the invariant.** -/
theorem step_inv (hex : S.exchange.Lawful) (h : Inv s) (a : Action S) (hfits : Fits s a) :
    Inv (s.step a).1 := by
  cases a with
  | send p => exact send_inv hex h hfits
  | deliver p i draws => exact deliver_inv hex h

/-- **The invariant holds after every run.** -/
theorem run_inv (hex : S.exchange.Lawful) {actions : List (Action S)} (h : Inv s)
    (hfits : (duplexMachine S).EachStep Fits s actions) :
    Inv ((duplexMachine S).run s actions) := by
  apply Machine.invariant_run _ h hfits
  intro s a h hfits
  exact step_inv hex h a hfits

/-! ### What a `send` leaves behind -/

/-- A party sends. -/
theorem step_send (s : Duplex S) (p : Party) :
    (s.step (.send p)).1 =
      { s with
        ratchet := Function.update s.ratchet p (s.ratchet p).send.1
        sent := Function.update s.sent p (s.sent p ++ [(s.ratchet p).send.2]) } :=
  rfl

@[simp] theorem step_send_ratchet (s : Duplex S) (p : Party) :
    (s.step (.send p)).1.ratchet p = (s.ratchet p).send.1 :=
  Function.update_self ..

@[simp] theorem step_send_ratchet_other (s : Duplex S) (p : Party) :
    (s.step (.send p)).1.ratchet p.other = s.ratchet p.other :=
  Function.update_of_ne (Party.other_ne p) ..

@[simp] theorem step_send_sent (s : Duplex S) (p : Party) :
    (s.step (.send p)).1.sent p = s.sent p ++ [(s.ratchet p).send.2] :=
  Function.update_self ..

@[simp] theorem step_send_sent_other (s : Duplex S) (p : Party) :
    (s.step (.send p)).1.sent p.other = s.sent p.other :=
  Function.update_of_ne (Party.other_ne p) ..

/-! ### Sending in one chain -/

/-- A party that sends `n` messages in the chain it is in. -/
theorem run_sends (p : Party) (n : Nat) (s : Duplex S)
    (hfits : (s.ratchet p).sender.step + n ≤ u32Max) :
    ∃ out, out.length = n ∧
      (duplexMachine S).run s (List.replicate n (.send p)) =
        { s with
          ratchet := Function.update s.ratchet p
            { s.ratchet p with
              sender := ⟨(s.ratchet p).sender.step + n,
                stateAt (kdfSc S) (s.ratchet p).sender.root n⟩ }
          sent := Function.update s.sent p (s.sent p ++ out) } := by
  induction n with
  | zero =>
      refine ⟨[], rfl, ?_⟩
      show s = { s with ratchet := _, sent := _ }
      rw [List.append_nil, Function.update_eq_self]
      show s = { s with ratchet := Function.update s.ratchet p (s.ratchet p) }
      rw [Function.update_eq_self]
  | succ n ih =>
      obtain ⟨out, hlen, hrun⟩ := ih (Nat.le_of_succ_le hfits)
      rw [List.replicate_succ', Machine.run_append, hrun]
      let r : DoubleRatchet S :=
        { s.ratchet p with
          sender := ⟨(s.ratchet p).sender.step + n,
            stateAt (kdfSc S) (s.ratchet p).sender.root n⟩ }
      have hsend := DoubleRatchet.send_eq_of_lt (s := r) hfits
      refine ⟨out ++ [(r.header, (kdfSc S r.sender.root).2)], ?_, ?_⟩
      · rw [List.length_append, hlen, List.length_singleton]
      · show (Duplex.step _ (.send p)).1 = _
        simp only [Duplex.step, Function.update_self]
        rw [hsend]
        simp only [Function.update_idem, List.append_assoc]
        rfl

/-- A party that uses up the chain it has just opened, and sends once more. -/
theorem run_use_up (s : Duplex S) (p : Party) (hone : (s.ratchet p).sender.step = 1) :
    ∃ out, out.length = u32Max - 1 ∧
      (duplexMachine S).run s (List.replicate u32Max (.send p)) =
        (Duplex.step
          { s with
            ratchet := Function.update s.ratchet p
              { s.ratchet p with
                sender := ⟨u32Max, stateAt (kdfSc S) (s.ratchet p).sender.root (u32Max - 1)⟩ }
            sent := Function.update s.sent p (s.sent p ++ out) } (.send p)).1 := by
  have hstep : (s.ratchet p).sender.step + (u32Max - 1) = u32Max := by
    rw [hone]
    decide
  have hsucc : u32Max = u32Max - 1 + 1 := by decide
  obtain ⟨out, hlen, hrun⟩ := run_sends p (u32Max - 1) s (Nat.le_of_eq hstep)
  rw [hstep] at hrun
  refine ⟨out, hlen, ?_⟩
  rw [← hrun]
  conv_lhs => rw [hsucc, List.replicate_succ', Machine.run_append]
  rfl

end OnionNetwork.Ratchet

/-! ## What is kept over a run -/

namespace OnionNetwork.Ratchet

open Lib

variable {S : Suite}

/-- A delivery to `q` for which no kept key makes room. -/
def EvictsNone (q : Party) (s : Duplex S) : Action S → Prop
  | .send _ => True
  | .deliver p i _ =>
      p = q → ∀ e ∈ (s.sent p.other)[i]?,
        (s.ratchet p).keptIds.length + ((s.ratchet p).skips e.1).length ≤ maxKeptMissingMessages

instance (q : Party) (s : Duplex S) : DecidablePred (EvictsNone q s)
  | .send _ => isTrue trivial
  | .deliver _ _ _ => inferInstanceAs (Decidable (_ → ∀ _ ∈ _, _))

variable {s : Duplex S} {p q : Party}

/-! ### What a call leaves as it is -/

/-- What was sent stays where it is. -/
theorem sent_step (s : Duplex S) (a : Action S) (p : Party) {i : Nat}
    {e : MessageHeader S × SharedSecret} (h : (s.sent p)[i]? = some e) :
    ((s.step a).1.sent p)[i]? = some e := by
  cases a with
  | send q =>
      rcases Party.eq_or_eq_other q p with rfl | rfl
      · rw [step_send_sent]
        have hlt := (List.getElem?_eq_some_iff.mp h).1
        rw [List.getElem?_append_left hlt]
        exact h
      · rw [step_send_sent_other]
        exact h
  | deliver q j draws =>
      have hsent : (s.step (.deliver q j draws)).1.sent = s.sent := by
        simp only [Duplex.step]
        split <;> rfl
      rw [hsent]
      exact h

/-- A delivery to one party is nothing to the other. -/
theorem deliver_other (s : Duplex S) (i : Nat) (draws : Draws S) (hq : q ≠ p) :
    (s.step (.deliver p i draws)).1.ratchet q = s.ratchet q ∧
      (s.step (.deliver p i draws)).1.accepted q = s.accepted q ∧
      (s.step (.deliver p i draws)).1.recorded q = s.recorded q := by
  simp only [Duplex.step]
  split
  · exact ⟨rfl, rfl, rfl⟩
  · exact ⟨Function.update_of_ne hq .., Function.update_of_ne hq .., Function.update_of_ne hq ..⟩

theorem send_keptIds (r : DoubleRatchet S) : r.send.1.keptIds = r.keptIds := by
  by_cases hguard : r.sender.step = u32Max
  · rw [DoubleRatchet.send, if_pos hguard]
    rfl
  · rw [DoubleRatchet.send, if_neg hguard]
    rfl

/-! ### Kept keys -/

/-- The key of a message is kept until the message is accepted. -/
def KeptOrUsed (s : Duplex S) (q : Party) (id : MessageId) : Prop :=
  id ∈ (s.ratchet q).keptIds ∨ ∃ m ∈ s.accepted q, m.id = id

/-- A kept key stays while no delivery evicts one. -/
theorem keptOrUsed_step (hex : S.exchange.Lawful) (h : Inv s) {a : Action S} {id : MessageId}
    (hroom : EvictsNone q s a) (hkept : KeptOrUsed s q id) : KeptOrUsed (s.step a).1 q id := by
  cases a with
  | send p =>
      refine hkept.imp ?_ (fun hused => hused)
      intro hin
      rcases Party.eq_or_eq_other p q with rfl | rfl
      · rw [step_send_ratchet, send_keptIds]
        exact hin
      · rw [step_send_ratchet_other]
        exact hin
  | deliver p i draws =>
      by_cases hq : q = p
      · subst hq
        have hcases := deliver_cases hex h q i draws
        generalize s.step (.deliver q i draws) = r at *
        obtain ⟨s', event⟩ := r
        cases hcases with
        | nothing hget => exact hkept
        | fresh hget hfresh hinv heq hahead hids =>
            simp only [KeptOrUsed, Function.update_self]
            have hroom := hroom rfl _ hget
            rw [← List.length_append] at hroom
            -- there is room for the skipped keys, so the cut drops none
            rw [hids, rtake_of_length_le hroom]
            refine hkept.imp (List.mem_append_left _) ?_
            rintro ⟨m, hm, hid⟩
            exact ⟨m, List.mem_append_left _ hm, hid⟩
        | kept hget hid hskips hinv hrest =>
            simp only [KeptOrUsed, Function.update_self]
            rcases hkept with hin | ⟨m, hm, hmid⟩
            · rcases hrest _ hin with rfl | hin
              · exact .inr ⟨_, List.mem_append_right _ (List.mem_singleton.mpr rfl), rfl⟩
              · exact .inl hin
            · exact .inr ⟨m, List.mem_append_left _ hm, hmid⟩
        | lost hget hid hskips =>
            simp only [KeptOrUsed, Function.update_self]
            exact hkept
      · -- a delivery to the other party leaves this one alone
        obtain ⟨hratchet, haccepted, -⟩ := deliver_other s i draws hq
        rw [KeptOrUsed, hratchet, haccepted]
        exact hkept

end OnionNetwork.Ratchet
