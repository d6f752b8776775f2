import OnionNetwork.Ratchet.Runs

/-!
# Messages that arrive behind their chain

A party skips a few messages of a chain of its peer, answers, and accepts the first
message of the peer's next chain. A skipped message that arrives only then is
accepted exactly if it was skipped before the last accepted one of its chain. The
ones behind that are set aside when the chain is closed, under the number of the
party's own chain, where nobody looks for them.
-/

namespace OnionNetwork.Ratchet

open Lib

variable {S : Suite}

variable {s : Duplex S} {p q : Party} {step : Nat}

/-! ### Chains and their keys -/

/-- A call records keys of no chain before the party's own. -/
theorem le_of_mem_skips {r : DoubleRatchet S} {message : MessageHeader S} {i : MessageId}
    (h : i ∈ r.skips message) : r.root.step ≤ i.step := by
  rw [DoubleRatchet.skips] at h
  split at h
  · cases h
  split at h
  · obtain ⟨j, -, rfl⟩ := List.mem_map.mp h
    exact Nat.le_refl _
  split at h
  · cases h
  rcases List.mem_append.mp h with h | h
  · obtain ⟨j, -, rfl⟩ := List.mem_map.mp h
    exact Nat.le_refl _
  · obtain ⟨j, -, rfl⟩ := List.mem_map.mp h
    exact Nat.le_succ _

/-- The root chain does not go back. -/
theorem root_le_step (hex : S.exchange.Lawful) (h : Inv s) (a : Action S) (hfits : Fits s a)
    (q : Party) : (s.ratchet q).root.step ≤ ((s.step a).1.ratchet q).root.step := by
  cases a with
  | send p =>
      rcases Party.eq_or_eq_other p q with rfl | rfl
      · rw [step_send_ratchet]
        by_cases hguard : (s.ratchet q).sender.step = u32Max
        · obtain ⟨-, hlt⟩ := hfits hguard
          have hzero : (s.ratchet q).openChain.sender.step < u32Max := by
            show 0 < u32Max
            decide
          rw [DoubleRatchet.send_of_guard hguard, DoubleRatchet.send_eq_of_lt hzero,
            DoubleRatchet.openChain_eq hlt]
          exact Nat.le_succ _
        · rw [DoubleRatchet.send, if_neg hguard]
      · rw [step_send_ratchet_other]
  | deliver p i draws =>
      by_cases hq : q = p
      · subst hq
        have hcases := deliver_cases hex h q i draws
        generalize s.step (.deliver q i draws) = r at *
        obtain ⟨s', event⟩ := r
        cases hcases with
        | nothing hget => exact Nat.le_refl _
        | @fresh message key step ratchet hget hfresh hinv heq =>
            obtain ⟨hp, -, hphase⟩ := hfresh
            have hafter := Equal.root_step heq
            rw [← hp] at hafter
            refine Nat.le_trans ?_ (Nat.le_of_eq hafter.symm)
            rw [hp]
            rcases hphase with ⟨heq, -⟩ | hahead
            · exact Nat.le_of_eq (Equal.root_step heq)
            · exact Nat.le_of_succ_le (Nat.le_of_eq (Ahead.root_step' hahead))
        | kept hget hid hskips =>
            simp only [Function.update_self]
            exact Nat.le_refl _
        | lost hget hid hskips =>
            simp only [Function.update_self]
            exact Nat.le_refl _
      · obtain ⟨hratchet, -⟩ := deliver_other s i draws hq
        rw [hratchet]

/-! ### The key of a message behind its chain -/

/-- No key is recorded later for a message of a chain before. -/
theorem unrecorded_step (hex : S.exchange.Lawful) (h : Inv s) {a : Action S} {id : MessageId}
    (hbehind : id.step < (s.ratchet q).root.step) (hnot : id ∉ s.recorded q) :
    id ∉ (s.step a).1.recorded q := by
  cases a with
  | send p => exact hnot
  | deliver p i draws =>
      have hadd : ∀ message, id ∉ s.recorded q ++ (s.ratchet q).skips message := by
        intro message hin
        rcases List.mem_append.mp hin with hin | hin
        · exact hnot hin
        · have hle := le_of_mem_skips hin
          omega
      by_cases hq : q = p
      · subst hq
        have hcases := deliver_cases hex h q i draws
        generalize s.step (.deliver q i draws) = r at *
        obtain ⟨s', event⟩ := r
        cases hcases with
        | nothing hget => exact hnot
        | fresh hget =>
            simp only [Function.update_self]
            exact hadd _
        | kept hget =>
            simp only [Function.update_self]
            exact hadd _
        | lost hget =>
            simp only [Function.update_self]
            exact hadd _
      · obtain ⟨-, -, hrecorded⟩ := deliver_other s i draws hq
        rw [hrecorded]
        exact hnot

/-- **Both stay so over a run** in which no delivery evicts a key. -/
theorem run_late (hex : S.exchange.Lawful) (h : Inv s) {id : MessageId} {actions : List (Action S)}
    (hbehind : id.step < (s.ratchet q).root.step)
    (hrun : (duplexMachine S).EachStep (fun s a => Fits s a ∧ EvictsNone q s a) s actions) :
    Inv ((duplexMachine S).run s actions) ∧
      id.step < (((duplexMachine S).run s actions).ratchet q).root.step ∧
      (KeptOrUsed s q id → KeptOrUsed ((duplexMachine S).run s actions) q id) ∧
      (id ∉ s.recorded q → id ∉ ((duplexMachine S).run s actions).recorded q) ∧
      ∀ (p : Party) (i : Nat) (e : MessageHeader S × SharedSecret), (s.sent p)[i]? = some e →
        (((duplexMachine S).run s actions).sent p)[i]? = some e := by
  induction actions generalizing s with
  | nil => exact ⟨h, hbehind, fun hk => hk, fun hn => hn, fun p i e he => he⟩
  | cons a actions ih =>
      obtain ⟨⟨hfits, hroom⟩, hrest⟩ := hrun
      have hbehind' := Nat.lt_of_lt_of_le hbehind (root_le_step hex h a hfits q)
      obtain ⟨hinv, hlt, hkept, hnot, hsent⟩ := ih (step_inv hex h a hfits) hbehind' hrest
      refine ⟨hinv, hlt, ?_, ?_, ?_⟩
      · intro hk
        exact hkept (keptOrUsed_step hex h hroom hk)
      · intro hn
        exact hnot (unrecorded_step hex h hbehind hn)
      · intro p i e he
        exact hsent p i e (sent_step s a p he)

/-! ### Closing a chain -/

/-- How many messages are skipped when a header closes the chain that is received. -/
def closing (s : Duplex S) (q : Party) (next : MessageHeader S) : Nat :=
  next.prevSubCount - (s.ratchet q).receiver.step

/-- A header of the peer's next chain, before which at most five messages of the
chain before were skipped; the messages of the new chain before it do not make a
further key go. -/
structure Closes (s : Duplex S) (q : Party) (next : MessageHeader S) : Prop where
  next_chain : (s.ratchet q).root.step < next.id.step
  few : ((s.recorded q).filter fun id => id.step + 2 = next.id.step).length + closing s q next ≤
    maxKeptMissingMessages
  room : min maxKeptMissingMessages ((s.ratchet q).keptIds.length + closing s q next) +
    next.id.subStep ≤ maxKeptMissingMessages

variable {next : MessageHeader S} {key' : SharedSecret} {j : Nat} {draws' : Draws S}

/-- The party accepts the header; what it closes the chain with is recorded under the
number of its own chain. -/
theorem closes_spec (hex : S.exchange.Lawful) (h : Inv s)
    (hget : (s.sent q.other)[j]? = some (next, key'))
    (hnext : (s.ratchet q).root.step < next.id.step) (draws' : Draws S) :
    let s' := (s.step (.deliver q j draws')).1
    let ids := (List.range' (s.ratchet q).receiver.step (closing s q next)).map
      (⟨(s.ratchet q).root.step, ·⟩ : Nat → MessageId)
    let ids' := (List.range' 0 next.id.subStep).map (⟨next.id.step, ·⟩ : Nat → MessageId)
    Inv s' ∧ next.id.step = (s.ratchet q).root.step + 1 ∧ owner (s.ratchet q).root.step = q ∧
      (s'.ratchet q).root.step = next.id.step ∧
      s'.accepted q = s.accepted q ++ [next] ∧
      s'.recorded q = s.recorded q ++ (ids ++ ids') ∧
      (s'.ratchet q).keptIds =
        ((s.ratchet q).keptIds ++ (ids ++ ids')).rtake maxKeptMissingMessages := by
  intro s' ids ids'
  obtain ⟨step, hfresh⟩ : ∃ step, Fresh s q next step := by
    by_contra hnone
    have hstale := stale_of_not_fresh h (List.mem_of_getElem? hget) (not_exists.mp hnone)
    omega
  obtain ⟨hq, hstep, hphase⟩ := id hfresh
  have hahead : AheadAt s step := by
    refine hphase.resolve_left ?_
    rintro ⟨heq, -⟩
    have hroot := Equal.root_step heq
    rw [← hq] at hroot
    omega
  have hroot := Ahead.root_step' hahead
  have howns := hahead.other_owns
  rw [← hq] at hroot howns
  -- the header counts at least the messages that were received
  have he := List.mem_of_getElem? hget
  have hother : q.other = owner step := by rw [hq, Party.other_other]
  rw [hother] at he
  obtain ⟨hprev, -⟩ := Ahead.kyber hahead he hstep
  have hbehind := Ahead.behind hahead
  rw [← hq, ← hprev] at hbehind
  have hskips : (s.ratchet q).skips next = ids ++ ids' := by
    have hnlt : ¬ next.id.step < (s.ratchet q).root.step := by omega
    have hne : ¬ next.id.step = (s.ratchet q).root.step := by omega
    rw [DoubleRatchet.skips, if_neg hnlt, if_neg hne, if_neg (Nat.not_lt.mpr hbehind), hroot,
      ← hstep]
    rfl
  obtain ⟨ratchet, hrecv, hinv, heq, -, -, hkept⟩ := deliver_fresh hex h hget hfresh draws'
  have hstate : s' = s.received q j next ratchet (s.accepted q ++ [next]) :=
    congrArg Prod.fst (step_deliver_ok hget hrecv)
  have hafter := Equal.root_step heq
  rw [← hq] at hafter
  rw [hstate]
  refine ⟨hinv, by omega, howns, by rw [hafter, hstep], ?_, ?_, ?_⟩
  · exact Function.update_self ..
  · rw [← hskips]
    exact Function.update_self ..
  · rw [← hskips, ← hkept]
    simp only [Duplex.received, Function.update_self]

/-- A message that was skipped before the last accepted one of its chain has its key
among the kept ones when the chain is closed. -/
theorem closes_kept (hex : S.exchange.Lawful) (h : Inv s)
    (hget : (s.sent q.other)[j]? = some (next, key')) (hcloses : Closes s q next)
    {message : MessageHeader S} {key : SharedSecret} (he : (message, key) ∈ s.sent q.other)
    (hchain : message.id.step + 2 = next.id.step)
    (hsub : message.id.subStep < (s.ratchet q).receiver.step) :
    KeptOrUsed (s.step (.deliver q j draws')).1 q message.id := by
  obtain ⟨hinv, hnext, howner, -, haccepted, hrecorded, hkept⟩ :=
    closes_spec hex h hget hcloses.next_chain draws'
  have ht := h.tracks q
  have hstep : message.id.step = (s.ratchet q).root.step - 1 := by omega
  have hfrontier := frontier_of_owner howner
  have hbefore : message.id.Before (frontier q (s.ratchet q)) := by
    rw [hfrontier]
    exact .inr ⟨hstep, hsub⟩
  have hused : (∃ m ∈ s.accepted q, m.id = message.id) →
      KeptOrUsed (s.step (.deliver q j draws')).1 q message.id := by
    rintro ⟨m, hm, hid⟩
    refine .inr ⟨m, ?_, hid⟩
    rw [haccepted]
    exact List.mem_append_left _ hm
  rcases ht.passed _ he (by rw [hfrontier, hstep]) hbefore with hacc | hin
  · exact hused hacc
  -- what was recorded behind it is of the same chain, so there is not much
  obtain ⟨front, back, hsplit⟩ := List.append_of_mem hin
  have hback : (message.id :: back).length ≤
      ((s.recorded q).filter fun id => id.step + 2 = next.id.step).length := by
    have hall : (message.id :: back).filter (fun id => id.step + 2 = next.id.step) =
        message.id :: back := by
      rw [List.filter_eq_self]
      intro i hi
      have hpair := ht.ordered
      rw [hsplit, List.pairwise_append] at hpair
      have hle : message.id.step ≤ i.step := by
        rcases List.mem_cons.mp hi with rfl | hi
        · exact Nat.le_refl _
        · have hlater := (List.pairwise_cons.mp hpair.2.1).1 i hi
          simp only [MessageId.Before] at hlater
          omega
      have hle' : i.step ≤ (s.ratchet q).root.step - 1 := by
        have hbehind : i.Before (frontier q (s.ratchet q)) := by
          refine ht.before i ?_
          rw [hsplit]
          exact List.mem_append_right _ hi
        rw [hfrontier] at hbehind
        simp only [MessageId.Before] at hbehind
        omega
      have heq : i.step + 2 = next.id.step := by omega
      exact decide_eq_true heq
    rw [hsplit, List.filter_append, hall, List.length_append]
    exact Nat.le_add_left _ _
  have hfew := hcloses.few
  have hroom := hcloses.room
  set ids := (List.range' (s.ratchet q).receiver.step (closing s q next)).map
    (⟨(s.ratchet q).root.step, ·⟩ : Nat → MessageId) with hids
  have hlen : ids.length = closing s q next := by
    rw [hids, List.length_map, List.length_range']
  have hmem : message.id ∈ (s.recorded q ++ ids).rtake maxKeptMissingMessages := by
    refine mem_rtake_iff.mpr ⟨front, back ++ ids, ?_, ?_⟩
    · rw [hsplit, List.append_assoc, List.cons_append]
    · rw [List.length_append, hlen]
      rw [List.length_cons] at hback
      omega
  have hnodup : (s.recorded q ++ ids).Nodup := by
    have hnodup' := (hinv.tracks q).remembers.nodup
    rw [hrecorded, ← List.append_assoc] at hnodup'
    exact (List.nodup_append.mp hnodup').1
  rcases (ht.remembers.record hnodup).recent _ hmem with hacc | hin'
  · exact hused hacc
  · refine .inl ?_
    rw [hkept, ← List.append_assoc, ← rtake_rtake_append, rtake_of_length_le]
    · exact List.mem_append_left _ hin'
    · rw [List.length_append, length_rtake, List.length_append, hlen, List.length_map,
        List.length_range']
      exact hroom

/-- A message that was not, has no key. -/
theorem closes_unrecorded (hex : S.exchange.Lawful) (h : Inv s)
    (hget : (s.sent q.other)[j]? = some (next, key'))
    (hnext : (s.ratchet q).root.step < next.id.step)
    {id : MessageId} (hchain : id.step + 2 = next.id.step)
    (hsub : (s.ratchet q).receiver.step ≤ id.subStep) :
    id ∉ (s.step (.deliver q j draws')).1.recorded q := by
  obtain ⟨-, hstep, howner, -, -, hrecorded, -⟩ := closes_spec hex h hget hnext draws'
  rw [hrecorded]
  intro hin
  rcases List.mem_append.mp hin with hin | hin
  · have hbefore := (h.tracks q).before id hin
    rw [frontier_of_owner howner] at hbefore
    simp only [MessageId.Before] at hbefore
    omega
  · rcases List.mem_append.mp hin with hin | hin
    · obtain ⟨k, -, rfl⟩ := List.mem_map.mp hin
      simp only at hchain
      omega
    · obtain ⟨k, -, rfl⟩ := List.mem_map.mp hin
      simp only at hchain
      omega

/-- **Late messages.** Among the skipped messages of the chain before, exactly those
before the last accepted one of that chain are accepted, with their keys. -/
theorem late_accepted_iff (hex : S.exchange.Lawful) (secret : SharedSecret)
    (aliceDraws bobDraws : Draws S) (before after : List (Action S)) (q : Party) (i j : Nat)
    (draws draws' : Draws S) (message next : MessageHeader S) (key key' : SharedSecret)
    (hbefore : (duplexMachine S).EachStep Fits (Duplex.start secret aliceDraws bobDraws) before)
    (hget : (((duplexMachine S).run (Duplex.start secret aliceDraws bobDraws) before).sent
      q.other)[i]? = some (message, key))
    (hget' : (((duplexMachine S).run (Duplex.start secret aliceDraws bobDraws) before).sent
      q.other)[j]? = some (next, key'))
    (hchain : message.id.step + 2 = next.id.step)
    (hcloses :
      Closes ((duplexMachine S).run (Duplex.start secret aliceDraws bobDraws) before) q next)
    (hafter : (duplexMachine S).EachStep (fun s a => Fits s a ∧ EvictsNone q s a)
      ((duplexMachine S).run (Duplex.start secret aliceDraws bobDraws)
        (before ++ [.deliver q j draws'])) after)
    (hskipped : ∀ m ∈ ((duplexMachine S).run (Duplex.start secret aliceDraws bobDraws)
      (before ++ .deliver q j draws' :: after)).accepted q, m.id ≠ message.id) :
    (((duplexMachine S).run (Duplex.start secret aliceDraws bobDraws)
        (before ++ .deliver q j draws' :: after)).step (.deliver q i draws)).2 =
        .received (.ok key) ↔
      message.id.subStep < (((duplexMachine S).run (Duplex.start secret aliceDraws bobDraws)
        before).ratchet q).receiver.step := by
  have h := run_inv hex (start_inv hex) hbefore
  rw [Machine.run_append, Machine.run_cons] at hskipped ⊢
  rw [Machine.run_append, Machine.run_cons, Machine.run_nil] at hafter
  generalize (duplexMachine S).run (Duplex.start secret aliceDraws bobDraws) before = s at *
  -- from the delivery that closes the chain on, nothing is recorded for it any more
  obtain ⟨hinv, hstep, -, hroot, -⟩ := closes_spec hex h hget' hcloses.next_chain draws'
  have hbehind : message.id.step < ((s.step (.deliver q j draws')).1.ratchet q).root.step := by
    omega
  obtain ⟨hinv', hbehind', hkept, hnot, hsent⟩ := run_late hex hinv hbehind hafter
  have hget₂ := hsent _ _ _ (sent_step s (.deliver q j draws') _ hget)
  constructor
  · intro hevent
    refine Nat.lt_of_not_le ?_
    intro hle
    -- its key was never set aside, and the chain it belongs to is gone
    have hunrecorded := hnot (closes_unrecorded hex h hget' hcloses.next_chain hchain hle)
    have hlost := fun hin => hunrecorded ((hinv'.tracks q).remembers.sublist.mem hin)
    obtain ⟨hrecv, -⟩ := deliver_lost (i := i) hinv' (.inl hbehind') hlost draws
    have hrefused := congrArg Prod.snd (step_deliver_error hget₂ hrecv)
    cases received_inj (hrefused.symm.trans hevent)
  · intro hlt
    have he := List.mem_of_getElem? hget
    -- its key was set aside, no other message took it, and none pushed it out
    have hin := (hkept (closes_kept hex h hget' hcloses he hchain hlt)).resolve_right (by
      rintro ⟨m, hm, hid⟩
      exact hskipped m hm hid)
    obtain ⟨missing, hrecv, -⟩ := deliver_kept hinv' hget₂ (.inl hbehind') hin draws
    exact congrArg Prod.snd (step_deliver_ok hget₂ hrecv)

/-- `bob` receives the second of three messages and answers; `alice` opens chain 4,
which `bob` enters then. -/
def answered : List (Action Suite.transparent) :=
  [.send .alice, .send .alice, .send .alice, .deliver .bob 1 (transparentDraws 3), .send .bob,
    .deliver .alice 0 (transparentDraws 4), .send .alice]

/-- The first message is accepted later. -/
theorem late_accepted_first :
    (((duplexMachine Suite.transparent).run
      (Duplex.start 0 (transparentDraws 1) (transparentDraws 2))
      (answered ++ [.deliver .bob 3 (transparentDraws 5)])).step
        (.deliver .bob 0 (transparentDraws 6))).2 = .received (.ok 1) := by
  let s := (duplexMachine Suite.transparent).run
    (Duplex.start 0 (transparentDraws 1) (transparentDraws 2)) answered
  have hfirst : ((s.sent .alice)[0]?).map (fun e => (e.1.id, e.2)) = some (⟨2, 1⟩, 1) := by
    decide
  have hnext : ((s.sent .alice)[3]?).map (fun e => (e.1.id, e.1.prevSubCount)) =
      some (⟨4, 0⟩, 4) := by
    decide
  obtain ⟨⟨message, key⟩, hget, heq⟩ := Option.map_eq_some_iff.mp hfirst
  obtain ⟨hid, rfl⟩ := Prod.mk.inj heq
  obtain ⟨⟨next, key'⟩, hget', heq'⟩ := Option.map_eq_some_iff.mp hnext
  obtain ⟨hid', hprev⟩ := Prod.mk.inj heq'
  have hcloses : Closes s .bob next := by
    refine ⟨?_, ?_, ?_⟩
    · rw [hid']
      decide
    · rw [closing, hid', hprev]
      decide
    · rw [closing, hid', hprev]
      decide
  refine (late_accepted_iff Exchange.transparent_lawful 0 (transparentDraws 1) (transparentDraws 2)
    answered [] .bob 0 3 (transparentDraws 6) (transparentDraws 5) message next 1 key' ?_ hget hget'
    ?_ hcloses trivial ?_).mpr ?_
  · decide
  · rw [hid, hid']
  · rw [hid]
    decide
  · rw [hid]
    decide

/-- The third one is not, though no key had to make room. -/
theorem late_third_lost :
    (duplexMachine Suite.transparent).EachStep (fun s a => Fits s a ∧ EvictsNone .bob s a)
        (Duplex.start 0 (transparentDraws 1) (transparentDraws 2))
        (answered ++ [.deliver .bob 3 (transparentDraws 5)]) ∧
      ((duplexMachine Suite.transparent).run
        (Duplex.start 0 (transparentDraws 1) (transparentDraws 2))
        (answered ++ [.deliver .bob 3 (transparentDraws 5)])).delivered .bob = [1, 3] ∧
      (((duplexMachine Suite.transparent).run
        (Duplex.start 0 (transparentDraws 1) (transparentDraws 2))
        (answered ++ [.deliver .bob 3 (transparentDraws 5)])).step
          (.deliver .bob 2 (transparentDraws 6))).2 = .received (.error .missingMessage) := by
  refine ⟨by decide, by decide, rfl⟩

end OnionNetwork.Ratchet
