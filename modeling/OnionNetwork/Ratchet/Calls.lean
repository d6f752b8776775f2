import OnionNetwork.Lib.Machine
import OnionNetwork.Ratchet.DoubleRatchet
import Mathlib.Logic.Function.Basic
import OnionNetwork.Lib.Recent

/-!
# Two ratchets and what their calls do

The two parties of a conversation, every header each of them produced with its
key, and a network that may deliver any of them to the other party, any number
of times and in any order. Which headers were delivered and accepted, and for
which messages a key was set aside, is history that no party stores.

Then one lemma for each function of the ratchet, in terms of `stateAt` and `keyAt`
of its chains and of the list of kept keys.
-/

namespace OnionNetwork.Ratchet

open Lib

/-- The two parties. -/
inductive Party
  | alice
  | bob
  deriving DecidableEq, Repr

namespace Party

/-- The other party. -/
def other : Party → Party
  | alice => bob
  | bob => alice

@[simp] theorem other_other (p : Party) : p.other.other = p := by
  cases p <;> rfl

theorem other_ne (p : Party) : p.other ≠ p := by
  intro h
  cases p <;> cases h

theorem eq_or_eq_other (p q : Party) : q = p ∨ q = p.other := by
  cases p <;> cases q <;> simp [other]

end Party

/-- Both parties, what they sent, and what happened so far: the positions (among
what the other party sent) of the headers delivered to a party, the headers it
accepted, and the ids under which it recorded keys, oldest first. -/
structure Duplex (S : Suite) where
  ratchet : Party → DoubleRatchet S
  sent : Party → List (MessageHeader S × SharedSecret)
  delivered : Party → List Nat
  accepted : Party → List (MessageHeader S)
  recorded : Party → List MessageId

/-- A `send`, or the delivery of a header the other party sent. -/
inductive Action (S : Suite)
  | send (p : Party)
  | deliver (p : Party) (i : Nat) (draws : Draws S)

/-- What the call returned. -/
inductive Event (S : Suite)
  | sent (header : MessageHeader S) (key : SharedSecret)
  | received (result : Except RecvError SharedSecret)
  | nothing

variable {S : Suite}

theorem received_inj {a b : Except RecvError SharedSecret}
    (h : (Event.received a : Event S) = .received b) : a = b := by
  cases h
  rfl

/-- The ids under which a call of `recv` records keys, if a ciphertext that comes
with the header decapsulates. -/
def DoubleRatchet.skips (s : DoubleRatchet S) (message : MessageHeader S) : List MessageId :=
  if message.id.step < s.root.step then []
  else if message.id.step = s.root.step then
    (List.range' s.receiver.step (message.id.subStep - s.receiver.step)).map (⟨s.root.step, ·⟩)
  else if message.prevSubCount < s.receiver.step then []
  else
    (List.range' s.receiver.step (message.prevSubCount - s.receiver.step)).map (⟨s.root.step, ·⟩) ++
      (List.range' 0 message.id.subStep).map (⟨s.root.step + 1, ·⟩)

namespace Duplex

/-- `sender` and `recipient` from one secret. -/
def start (secret : SharedSecret) (aliceDraws bobDraws : Draws S) : Duplex S :=
  let (alice, init, _) := DoubleRatchet.initiator secret aliceDraws
  { ratchet := fun
      | .alice => alice
      | .bob => (DoubleRatchet.recipient secret init bobDraws).1
    sent := fun _ => []
    delivered := fun _ => []
    accepted := fun _ => []
    recorded := fun _ => [] }

/-- One call. -/
def step (s : Duplex S) : Action S → Duplex S × Event S
  | .send p =>
      let (ratchet, header, key) := (s.ratchet p).send
      ({ s with
         ratchet := Function.update s.ratchet p ratchet
         sent := Function.update s.sent p (s.sent p ++ [(header, key)]) }, .sent header key)
  | .deliver p i draws =>
      match (s.sent p.other)[i]? with
      | none => (s, .nothing)
      | some (header, _) =>
          let (ratchet, result) := (s.ratchet p).recv header draws
          let accepted := match result with
            | .ok _ => s.accepted p ++ [header]
            | .error _ => s.accepted p
          ({ s with
             ratchet := Function.update s.ratchet p ratchet
             delivered := Function.update s.delivered p (s.delivered p ++ [i])
             accepted := Function.update s.accepted p accepted
             recorded := Function.update s.recorded p
               (s.recorded p ++ (s.ratchet p).skips header) }, .received result)

end Duplex

/-- The conversation, call by call. -/
def duplexMachine (S : Suite) : Machine (Duplex S) (Action S) (Event S) where
  step := Duplex.step

end OnionNetwork.Ratchet

namespace OnionNetwork.Ratchet

open Lib

variable {S : Suite}

/-- The ids of the kept keys. -/
def DoubleRatchet.keptIds (s : DoubleRatchet S) : List MessageId :=
  s.missingMessages.toList.map Prod.fst

/-- The keys of the next `n` messages of a chain, under their ids. -/
def Chain.entries (S : Suite) (c : Chain) (step n : Nat) : List (MessageId × SharedSecret) :=
  (List.range n).map fun i => (⟨step, c.step + i⟩, keyAt (kdfSc S) c.root i)

theorem Chain.ids_entries (c : Chain) (step n : Nat) :
    (c.entries S step n).map Prod.fst = (List.range' c.step n).map (⟨step, ·⟩) := by
  rw [Chain.entries, List.range'_eq_map_range, List.map_map, List.map_map]
  rfl

theorem Chain.entries_succ (c : Chain) (step n : Nat) :
    c.entries S step (n + 1) =
      c.entries S step n ++ [(⟨step, c.step + n⟩, keyAt (kdfSc S) c.root n)] := by
  rw [Chain.entries, List.range_succ, List.map_append]
  rfl

theorem Chain.nextSc_eq {c : Chain} (h : c.step < u32Max) :
    c.nextSc S = (⟨c.step + 1, (kdfSc S c.root).1⟩, (kdfSc S c.root).2) := by
  have hmod : (c.step + 1) % 2 ^ 32 = c.step + 1 := by
    apply Nat.mod_eq_of_lt
    simp only [u32Max] at h
    omega
  simp only [Chain.nextSc, hmod]

theorem Chain.nextRk_eq {c : Chain} (h : c.step < u32Max) (input : SharedSecret) :
    c.nextRk S input = (⟨c.step + 1, (kdfRk S c.root input).1⟩, (kdfRk S c.root input).2) := by
  have hmod : (c.step + 1) % 2 ^ 32 = c.step + 1 := by
    apply Nat.mod_eq_of_lt
    simp only [u32Max] at h
    omega
  simp only [Chain.nextRk, hmod]

namespace DoubleRatchet

variable {s : DoubleRatchet S} {message : MessageHeader S}

/-- Setting a key aside drops the oldest one when there are five. -/
theorem skipMessage_eq (s : DoubleRatchet S) (subStep : Nat) :
    ∃ missing, s.skipMessage subStep =
        { s with receiver := (s.receiver.nextSc S).1, missingMessages := missing } ∧
      missing.toList =
        (s.missingMessages.toList ++
          [((⟨s.root.step, subStep⟩ : MessageId), (s.receiver.nextSc S).2)]).rtake
            maxKeptMissingMessages := by
  refine ⟨_, rfl, ?_⟩
  have hle := s.missingMessages.length_le
  by_cases hfull : s.missingMessages.toList.length = maxKeptMissingMessages
  · cases hlist : s.missingMessages.toList with
    | nil =>
        rw [hlist] at hfull
        cases hfull
    | cons x xs =>
        rw [hlist, List.length_cons] at hfull
        have hrem : (s.missingMessages.remove 0).toList = xs := by
          simp only [ArrayVec.remove, hlist, List.eraseIdx_cons_zero]
        have hroom : (s.missingMessages.remove 0).toList.length < maxKeptMissingMessages := by
          rw [hrem]
          omega
        have hisFull : s.missingMessages.isFull = true := by
          rw [ArrayVec.isFull, hlist, List.length_cons, hfull]
          exact beq_self_eq_true _
        have hdrop : (x :: xs ++ [((⟨s.root.step, subStep⟩ : MessageId),
            (s.receiver.nextSc S).2)]).length - maxKeptMissingMessages = 1 := by
          simp only [List.length_append, List.length_cons, List.length_nil]
          omega
        rw [if_pos hisFull, ArrayVec.push?, dif_pos hroom, List.rtake, hdrop]
        show (s.missingMessages.remove 0).toList ++ _ = _
        rw [hrem]
        rfl
  · have hroom : s.missingMessages.toList.length < maxKeptMissingMessages := by omega
    have hisFull : ¬ s.missingMessages.isFull = true := by
      intro h
      exact hfull (eq_of_beq h)
    rw [if_neg hisFull, ArrayVec.push?, dif_pos hroom]
    have hlen : (s.missingMessages.toList ++ [((⟨s.root.step, subStep⟩ : MessageId),
        (s.receiver.nextSc S).2)]).length ≤ maxKeptMissingMessages := by
      rw [List.length_append, List.length_singleton]
      exact hroom
    exact (rtake_of_length_le hlen).symm

/-- Skipping messages sets their keys aside and moves the chain on. -/
theorem skipMessages_eq {n : Nat} (h : s.receiver.step + n ≤ u32Max) :
    ∃ missing, s.skipMessages (List.range' s.receiver.step n) =
        { s with
          receiver := ⟨s.receiver.step + n, stateAt (kdfSc S) s.receiver.root n⟩
          missingMessages := missing } ∧
      missing.toList =
        (s.missingMessages.toList ++ s.receiver.entries S s.root.step n).rtake
          maxKeptMissingMessages := by
  induction n with
  | zero =>
      refine ⟨s.missingMessages, rfl, ?_⟩
      have hnil : s.receiver.entries S s.root.step 0 = [] := rfl
      rw [hnil, List.append_nil, rtake_of_length_le s.missingMessages.length_le]
  | succ n ih =>
      obtain ⟨missing, heq, hkept⟩ := ih (Nat.le_of_succ_le h)
      have hfold : s.skipMessages (List.range' s.receiver.step (n + 1)) =
          (s.skipMessages (List.range' s.receiver.step n)).skipMessage (s.receiver.step + n) := by
        rw [skipMessages, List.range'_concat, Nat.one_mul, List.foldl_append]
        rfl
      rw [hfold, heq]
      obtain ⟨missing', heq', hkept'⟩ := skipMessage_eq
        { s with
          receiver := ⟨s.receiver.step + n, stateAt (kdfSc S) s.receiver.root n⟩
          missingMessages := missing } (s.receiver.step + n)
      have hnext := Chain.nextSc_eq (S := S)
        (c := ⟨s.receiver.step + n, stateAt (kdfSc S) s.receiver.root n⟩) h
      rw [hnext] at heq' hkept'
      refine ⟨missing', heq', ?_⟩
      rw [hkept', hkept, rtake_rtake_append, Chain.entries_succ, List.append_assoc]
      rfl

theorem addMissingMessage_eq {latestIndex : Nat} (h : s.receiver.step ≤ latestIndex) :
    s.addMissingMessage latestIndex =
      .ok (s.skipMessages (List.range' s.receiver.step (latestIndex - s.receiver.step))) :=
  if_neg (Nat.not_lt.mpr h)

/-- A message of the chain that is received, at or ahead of the next one, is
accepted; the ones before it are set aside. -/
theorem recvInChain_eq (hle : s.receiver.step ≤ message.id.subStep)
    (hlt : message.id.subStep < u32Max) :
    ∃ missing, s.recvInChain message =
        ({ s with
           receiver := ⟨message.id.subStep + 1,
             stateAt (kdfSc S) s.receiver.root (message.id.subStep - s.receiver.step + 1)⟩
           missingMessages := missing },
         .ok (keyAt (kdfSc S) s.receiver.root (message.id.subStep - s.receiver.step))) ∧
      missing.toList =
        (s.missingMessages.toList ++ s.receiver.entries S s.root.step
          (message.id.subStep - s.receiver.step)).rtake maxKeptMissingMessages := by
  have hadd : s.receiver.step + (message.id.subStep - s.receiver.step) = message.id.subStep := by
    omega
  have hfits : s.receiver.step + (message.id.subStep - s.receiver.step) ≤ u32Max := by omega
  obtain ⟨missing, heq, hkept⟩ := skipMessages_eq hfits
  rw [hadd] at heq
  refine ⟨missing, ?_, hkept⟩
  simp only [recvInChain, addMissingMessage_eq hle, heq]
  rw [Chain.nextSc_eq hlt]
  rfl

theorem recv_stale {draws : Draws S}
    (h : message.id.step < s.root.step ∨
      message.id.step = s.root.step ∧ message.id.subStep < s.receiver.step) :
    s.recv message draws = s.findMissingMessage message := by
  rw [recv]
  by_cases hlt : message.id.step < s.root.step
  · rw [if_pos hlt]
  · obtain ⟨heq, hsub⟩ := h.resolve_left hlt
    rw [if_neg hlt, if_pos heq, if_pos hsub]

theorem recv_inChain {draws : Draws S} (hstep : message.id.step = s.root.step)
    (hsub : s.receiver.step ≤ message.id.subStep) :
    s.recv message draws = s.recvInChain message := by
  have hlt : ¬ message.id.step < s.root.step := by omega
  rw [recv, if_neg hlt, if_pos hstep, if_neg (Nat.not_lt.mpr hsub)]

theorem recv_enter {s₁ s₂ : DoubleRatchet S} {draws : Draws S} (h : s.root.step < message.id.step)
    (hadd : s.addMissingMessage message.prevSubCount = .ok s₁)
    (henter : s₁.enterChain message draws = (s₂, .ok ())) :
    s.recv message draws = s₂.recvInChain message := by
  have hlt : ¬ message.id.step < s.root.step := by omega
  have hne : ¬ message.id.step = s.root.step := by omega
  simp only [recv, if_neg hlt, if_neg hne, hadd, henter]

/-- A header of a new chain that closes the current one too early. -/
theorem recv_invalid {draws : Draws S} (h : s.root.step < message.id.step)
    (hprev : message.prevSubCount < s.receiver.step) :
    s.recv message draws = (s, .error .invalidState) := by
  have hlt : ¬ message.id.step < s.root.step := by omega
  have hne : ¬ message.id.step = s.root.step := by omega
  have hadd : s.addMissingMessage message.prevSubCount = .error .invalidState := if_pos hprev
  simp only [recv, if_neg hlt, if_neg hne, hadd]

theorem findMissingMessage_none (h : message.id ∉ s.keptIds) :
    s.findMissingMessage message = (s, .error .missingMessage) := by
  have hnone : s.missingMessages.toList.findIdx? (fun entry => entry.1 = message.id) = none := by
    rw [List.findIdx?_eq_none_iff]
    intro entry hentry
    have hne : entry.1 ≠ message.id := fun heq => h (List.mem_map.mpr ⟨entry, hentry, heq⟩)
    exact decide_eq_false hne
  simp only [findMissingMessage, hnone]

/-- The key that was set aside for a message is taken out. -/
theorem findMissingMessage_some (hnodup : s.keptIds.Nodup) (h : message.id ∈ s.keptIds) :
    ∃ key missing, s.findMissingMessage message =
        ({ s with missingMessages := missing }, .ok key) ∧
      (message.id, key) ∈ s.missingMessages.toList ∧
      missing.toList.Sublist s.missingMessages.toList ∧
      message.id ∉ missing.toList.map Prod.fst ∧
      ∀ id ∈ s.keptIds, id = message.id ∨ id ∈ missing.toList.map Prod.fst := by
  obtain ⟨entry, hentry, hid⟩ := List.mem_map.mp h
  have hsome : (s.missingMessages.toList.findIdx? fun entry => entry.1 = message.id).isSome := by
    rw [List.findIdx?_isSome, List.any_eq_true]
    exact ⟨entry, hentry, decide_eq_true hid⟩
  obtain ⟨i, hi⟩ := Option.isSome_iff_exists.mp hsome
  obtain ⟨hlt, hat, -⟩ := List.findIdx?_eq_some_iff_getElem.mp hi
  have hget : s.missingMessages.toList[i]? = some s.missingMessages.toList[i] :=
    List.getElem?_eq_getElem hlt
  have hatid : s.missingMessages.toList[i].1 = message.id := of_decide_eq_true hat
  -- the ids that are kept, cut at the one that is taken out
  have hids : s.keptIds = (s.missingMessages.toList.take i).map Prod.fst ++ message.id ::
      (s.missingMessages.toList.drop (i + 1)).map Prod.fst := by
    rw [← hatid, ← List.map_cons, ← List.map_append, List.cons_getElem_drop_succ,
      List.take_append_drop]
    rfl
  have herase : (s.missingMessages.remove i).toList.map Prod.fst =
      (s.missingMessages.toList.take i).map Prod.fst ++
        (s.missingMessages.toList.drop (i + 1)).map Prod.fst := by
    rw [← List.map_append, ← List.eraseIdx_eq_take_drop_succ]
    rfl
  refine ⟨s.missingMessages.toList[i].2, s.missingMessages.remove i, ?_, ?_, ?_, ?_, ?_⟩
  · simp only [findMissingMessage, hi, hget]
  · rw [← hatid]
    exact List.getElem_mem hlt
  · exact List.eraseIdx_sublist _ _
  · rw [herase]
    rw [hids] at hnodup
    obtain ⟨-, hcons, hdisj⟩ := List.nodup_append.mp hnodup
    intro hin
    rcases List.mem_append.mp hin with hin | hin
    · exact hdisj _ hin _ List.mem_cons_self rfl
    · exact (List.nodup_cons.mp hcons).1 hin
  · intro id hin
    rw [hids] at hin
    rw [herase]
    rcases List.mem_append.mp hin with hin | hin
    · exact .inr (List.mem_append_left _ hin)
    · rcases List.mem_cons.mp hin with rfl | hin
      · exact .inl rfl
      · exact .inr (List.mem_append_right _ hin)

/-- Entering a new chain with the input its owner mixed in. The other fields of
a ciphertext that comes along are replaced. -/
theorem enterChain_eq (draws : Draws S) {sec : SharedSecret} (hroot : s.root.step < u32Max)
    (hkyber : ∀ kyb, message.kyber = some kyb →
      S.exchange.kyberDecapsulate kyb.cp (S.exchange.kyberGenerate s.kyber).2 = some sec)
    {input : SharedSecret}
    (hinput : input =
      if message.kyber.isSome then S.exchange.diffieHellman s.x25519 message.x25519 ^^^ sec
      else S.exchange.diffieHellman s.x25519 message.x25519) :
    ∃ kyber cp ss, s.enterChain message draws =
        ({ s with
           x25519 := draws.x25519
           kyber := kyber
           cp := cp
           ss := ss
           prevSubCount := s.sender.step
           root := ⟨s.root.step + 1, (kdfRk S s.root.root input).1⟩
           receiver := ⟨0, (kdfRk S s.root.root input).2⟩
           receiverHash := S.blake3 (kdfRk S s.root.root input).2.toBytes
           sender := ⟨u32Max, S.exchange.diffieHellman draws.x25519 message.x25519⟩ }, .ok ()) ∧
      (message.kyber = none → kyber = s.kyber ∧ cp = s.cp ∧ ss = s.ss) ∧
      ∀ kyb, message.kyber = some kyb →
        (cp, ss) = S.exchange.kyberEncapsulate kyb.publicKey draws.rng := by
  cases hk : message.kyber with
  | none =>
      rw [hk] at hinput
      simp only [Option.isSome_none, Bool.false_eq_true, if_false] at hinput
      refine ⟨s.kyber, s.cp, s.ss, ?_, fun _ => ⟨rfl, rfl, rfl⟩, ?_⟩
      · simp only [enterChain, hk, Chain.nextRk_eq hroot, ← hinput]
        rfl
      · intro kyb hsome
        cases hsome
  | some kyb =>
      rw [hk] at hinput
      simp only [Option.isSome_some, if_true] at hinput
      refine ⟨draws.kyber, (S.exchange.kyberEncapsulate kyb.publicKey draws.rng).1,
        (S.exchange.kyberEncapsulate kyb.publicKey draws.rng).2, ?_, ?_, ?_⟩
      · simp only [enterChain, hk, hkyber kyb hk, Chain.nextRk_eq hroot, ← hinput]
        rfl
      · intro hnone
        cases hnone
      · intro kyb' hsome
        rw [Option.some.inj hsome]

/-! ### `send` -/

theorem send_eq_of_lt (hlt : s.sender.step < u32Max) :
    s.send =
      ({ s with sender := ⟨s.sender.step + 1, (kdfSc S s.sender.root).1⟩ }, s.header,
        (kdfSc S s.sender.root).2) := by
  simp only [send, if_neg (Nat.ne_of_lt hlt), Chain.nextSc_eq hlt]

theorem send_of_guard (h : s.sender.step = u32Max) : s.send = s.openChain.send := by
  have hzero : s.openChain.sender.step = 0 := rfl
  have hne : s.openChain.sender.step ≠ u32Max := by
    rw [hzero]
    decide
  simp only [send, if_pos h, if_neg hne]

theorem openChain_eq (h : s.root.step < u32Max) :
    let seed :=
      if (s.root.step + 1) % kyberPeriod = 0 then s.sender.root ^^^ s.ss else s.sender.root
    s.openChain =
      { s with
        root := ⟨s.root.step + 1, (kdfRk S s.root.root seed).1⟩
        sender := ⟨0, (kdfRk S s.root.root seed).2⟩
        senderHash := S.blake3 (kdfRk S s.root.root seed).2.toBytes } := by
  simp only [openChain, Chain.nextRk_eq h]
  rfl

/-- A party that sends keeps what it knows as a receiver. -/
theorem send_receiver (s : DoubleRatchet S) :
    s.send.1.receiver = s.receiver ∧ s.send.1.receiverHash = s.receiverHash := by
  by_cases hguard : s.sender.step = u32Max
  · rw [send, if_pos hguard]
    exact ⟨rfl, rfl⟩
  · rw [send, if_neg hguard]
    exact ⟨rfl, rfl⟩

end DoubleRatchet

end OnionNetwork.Ratchet
