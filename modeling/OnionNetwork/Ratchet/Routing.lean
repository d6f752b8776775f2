import OnionNetwork.Ratchet.Runs

/-!
# Sessions

A message is sent under the sender hash that its party had before it, and it is looked for under
the receiver hash of the other party. The first message of a chain is sent under the hash of the
chain before, the others under the hash of their own. So a party that enters each chain with its
first message, and hears of no chain that it has left, finds each message (`Routed.deliver`).
-/

namespace OnionNetwork.Ratchet

open Lib

variable {S : Suite}

/-- The ids of what each party sent, with the sessions. -/
abbrev Tags := Party → List (MessageId × Hash)

/-- A chain is entered with its first message, and a message of the chain before one's own is one
that was passed. -/
def InTime (r : DoubleRatchet S) (message : MessageHeader S) : Prop :=
  if r.root.step < message.id.step then message.id.subStep = 0
  else message.id.step = r.root.step ∨
    message.id.step + 1 = r.root.step ∧ message.id.subStep < r.receiver.step

/-- The keys of the messages that are skipped fit behind the kept ones. -/
def HasRoom (r : DoubleRatchet S) (message : MessageHeader S) : Prop :=
  r.keptIds.length + (r.skips message).length ≤ maxKeptMissingMessages

instance (r : DoubleRatchet S) : DecidablePred (InTime r) := fun message =>
  inferInstanceAs (Decidable (if r.root.step < message.id.step then message.id.subStep = 0
    else message.id.step = r.root.step ∨ _ ∧ _))

instance (r : DoubleRatchet S) : DecidablePred (HasRoom r) := fun _ =>
  inferInstanceAs (Decidable (_ ≤ _))

/-- The messages of a party are in order, and the next one is behind them. -/
structure Numbered (s : Duplex S) (p : Party) : Prop where
  ordered : ((s.sent p).map fun e => e.1.id).Pairwise MessageId.Before
  next : ∀ e ∈ s.sent p, e.1.id.Before ⟨(s.ratchet p).root.step, (s.ratchet p).sender.step⟩
  pos : 0 < (s.ratchet p).sender.step

/-- What a party accepted was delivered, the keys of what it skipped are kept, and it heard the
first message of the chain it is in. -/
structure Heard (s : Duplex S) (p : Party) : Prop where
  delivered : ∀ m ∈ s.accepted p,
    ∃ j ∈ s.delivered p, ∃ key, (s.sent p.other)[j]? = some (m, key)
  kept : ∀ id ∈ s.recorded p, KeptOrUsed s p id
  entered : ∀ e ∈ s.sent p.other, e.1.id.step = (frontier p (s.ratchet p)).step →
    e.1.id.subStep = 0 → ∃ m ∈ s.accepted p, m.id = e.1.id

/-- The sessions of what is sent to a party: its receiver hash is that of the chain it is in, and
of the first message of the next one. -/
structure Tagged (s : Duplex S) (tags : Tags) (p : Party) : Prop where
  ids : (tags p.other).map Prod.fst = (s.sent p.other).map fun e => e.1.id
  current : ∀ tag ∈ tags p.other, tag.1.step = (frontier p (s.ratchet p)).step →
    tag.1.subStep ≠ 0 → tag.2 = (s.ratchet p).receiverHash
  first : ∀ tag ∈ tags p.other, (frontier p (s.ratchet p)).step < tag.1.step →
    tag.1.subStep = 0 → tag.2 = (s.ratchet p).receiverHash
  rest : ∀ tag ∈ tags p.other, (frontier p (s.ratchet p)).step < tag.1.step →
    tag.1.subStep ≠ 0 → tag.2 = (s.ratchet p.other).senderHash

/-- What holds while the messages arrive in time. -/
structure Routed (s : Duplex S) (tags : Tags) : Prop where
  inv : Inv s
  numbered : ∀ p, Numbered s p
  heard : ∀ p, Heard s p
  tagged : ∀ p, Tagged s tags p

variable {s : Duplex S} {tags : Tags} {p : Party} {step : Nat}

/-- A message has one position. -/
theorem Numbered.position_eq (h : Numbered s p) {i j : Nat} {e e' : MessageHeader S × SharedSecret}
    (hi : (s.sent p)[i]? = some e) (hj : (s.sent p)[j]? = some e') (hid : e.1.id = e'.1.id) :
    i = j := by
  have hnodup : ((s.sent p).map fun e => e.1.id).Nodup := h.ordered.imp MessageId.Before.ne
  obtain ⟨hlt, -⟩ := List.getElem?_eq_some_iff.mp hi
  have hlt' : i < ((s.sent p).map fun e => e.1.id).length := by
    rw [List.length_map]
    exact hlt
  refine (List.getElem?_inj hlt' hnodup).mp ?_
  rw [List.getElem?_map, List.getElem?_map, hi, hj, Option.map_some, Option.map_some, hid]

/-! ### Sending -/

/-- A party goes on in its chain, or opens the next one behind a guard. -/
inductive Sends (s : Duplex S) (p : Party) : Prop
  | on (howner : owner (s.ratchet p).root.step = p) (hlt : (s.ratchet p).sender.step < u32Max)
  | opens (heq : EqualAt s (s.ratchet p).root.step) (hp : p = (owner (s.ratchet p).root.step).other)
      (hguard : (s.ratchet p).sender.step = u32Max) (hroot : (s.ratchet p).root.step < u32Max)

theorem sends (h : Inv s) (hfits : Fits s (.send p)) : Sends s p := by
  by_cases hguard : (s.ratchet p).sender.step = u32Max
  · obtain ⟨howner, hroot⟩ := hfits hguard
    have hp : p = (owner (s.ratchet p).root.step).other := by rw [howner, Party.other_other]
    obtain ⟨step, heq | hahead⟩ := h.phase
    · have hstep : (s.ratchet p).root.step = step := by
        rcases Party.eq_or_eq_other (owner step) p with rfl | rfl
        · exact heq.owner_root
        · exact Equal.root_step heq
      exact .opens (by rw [hstep]; exact heq) hp hguard hroot
    · -- both parties are in chains of their own
      exfalso
      refine p.other_ne (howner.symm.trans ?_)
      rcases Party.eq_or_eq_other (owner step) p with rfl | rfl
      · rw [Ahead.root_step hahead]
      · exact hahead.other_owns
  · obtain ⟨step, heq | hahead⟩ := h.phase
    · rcases Party.eq_or_eq_other (owner step) p with rfl | rfl
      · exact .on (congrArg owner heq.owner_root) (Nat.lt_of_le_of_ne (Equal.short heq) hguard)
      · exact absurd (by rw [Equal.guard heq]) hguard
    · rcases Party.eq_or_eq_other (owner step) p with rfl | rfl
      · exact .on (congrArg owner (Ahead.root_step hahead))
          (Nat.lt_of_le_of_ne (Ahead.short hahead) hguard)
      · exact .on hahead.other_owns (Nat.lt_of_le_of_ne (Ahead.short' hahead) hguard)

/-- What `send` does in a chain. -/
theorem send_on {r : DoubleRatchet S} (hlt : r.sender.step < u32Max) :
    r.send.1.root = r.root ∧ r.send.1.sender.step = r.sender.step + 1 ∧
      r.send.1.senderHash = r.senderHash ∧ r.send.2.1.id = ⟨r.root.step, r.sender.step⟩ := by
  rw [DoubleRatchet.send_eq_of_lt hlt]
  exact ⟨rfl, rfl, rfl, rfl⟩

/-- What `send` does behind a guard. -/
theorem send_opens {r : DoubleRatchet S} (hguard : r.sender.step = u32Max)
    (hroot : r.root.step < u32Max) :
    r.send.1.root.step = r.root.step + 1 ∧ r.send.1.sender.step = 1 ∧
      r.send.2.1.id = ⟨r.root.step + 1, 0⟩ := by
  have hlt : r.openChain.sender.step < u32Max := by
    show 0 < u32Max
    decide
  rw [DoubleRatchet.send_of_guard hguard, DoubleRatchet.send_eq_of_lt hlt,
    DoubleRatchet.openChain_eq hroot]
  exact ⟨rfl, rfl, rfl⟩

/-- A party that sends stays where it is as a receiver. -/
theorem Sends.frontier_eq (h : Sends s p) :
    frontier p (s.ratchet p).send.1 = frontier p (s.ratchet p) := by
  obtain ⟨hreceiver, -⟩ := DoubleRatchet.send_receiver (s.ratchet p)
  cases h with
  | on howner hlt =>
      obtain ⟨hroot, -⟩ := send_on hlt
      rw [frontier, frontier, hroot, hreceiver]
  | opens heq hp hguard hlt =>
      obtain ⟨hroot, -⟩ := send_opens hguard hlt
      have hother : owner (s.ratchet p).root.step = p.other := by
        conv_rhs => rw [hp, Party.other_other]
      have hself : owner (s.ratchet p).send.1.root.step = p := by
        rw [hroot, owner_succ, hother, Party.other_other]
      rw [frontier_of_owner hself, frontier_of_other hother, hroot, hreceiver]
      rfl

/-- In the chain that the other party is in, a party sends under the hash it is found by. -/
theorem hash_of_same_chain (h : Inv s) (howner : owner (s.ratchet p).root.step = p)
    (hsame : (s.ratchet p).root.step = (frontier p.other (s.ratchet p.other)).step) :
    (s.ratchet p).senderHash = (s.ratchet p.other).receiverHash := by
  obtain ⟨step, heq | hahead⟩ := h.phase
  · obtain ⟨hsender, -⟩ := Equal.hashes heq
    rcases Party.eq_or_eq_other (owner step) p with rfl | rfl
    · exact hsender
    · rw [Equal.root_step heq] at howner
      exact absurd howner.symm (Party.other_ne _)
  · rcases Party.eq_or_eq_other (owner step) p with rfl | rfl
    · -- the other party has not heard of this chain
      have hroot := Ahead.root_step hahead
      have hroot' := Ahead.root_step' hahead
      have hstep : (frontier (owner step).other (s.ratchet (owner step).other)).step =
          (s.ratchet (owner step).other).root.step - 1 := by
        rw [frontier_of_owner hahead.other_owns]
      omega
    · obtain ⟨-, hreceiver⟩ := Ahead.hashes hahead
      rw [Party.other_other]
      exact hreceiver.symm

theorem Sends.numbered (h : Sends s p) (hnum : ∀ q, Numbered s q) (q : Party) :
    Numbered (s.step (.send p)).1 q := by
  rcases Party.eq_or_eq_other p q with rfl | rfl
  · obtain ⟨hordered, hnext, hpos⟩ := hnum q
    -- the new id is behind all others, and before the next one
    obtain ⟨hid, hbefore, hpos'⟩ : (∀ e ∈ s.sent q, e.1.id.Before (s.ratchet q).send.2.1.id) ∧
        (s.ratchet q).send.2.1.id.Before
          ⟨(s.ratchet q).send.1.root.step, (s.ratchet q).send.1.sender.step⟩ ∧
        0 < (s.ratchet q).send.1.sender.step := by
      cases h with
      | on howner hlt =>
          obtain ⟨hroot, hsender, -, hid⟩ := send_on hlt
          rw [hid, hroot, hsender]
          exact ⟨hnext, .inr ⟨rfl, Nat.lt_succ_self _⟩, Nat.succ_pos _⟩
      | opens heq hp hguard hlt =>
          obtain ⟨hroot, hsender, hid⟩ := send_opens hguard hlt
          rw [hid, hroot, hsender]
          refine ⟨?_, .inr ⟨rfl, Nat.one_pos⟩, Nat.one_pos⟩
          intro e he
          have hold := hnext e he
          simp only [MessageId.Before] at hold ⊢
          omega
    refine ⟨?_, ?_, ?_⟩
    · rw [step_send_sent, List.map_append]
      refine List.pairwise_append.mpr ⟨hordered, List.pairwise_singleton _ _, ?_⟩
      intro a ha b hb
      obtain ⟨e, he, rfl⟩ := List.mem_map.mp ha
      obtain rfl := List.mem_singleton.mp hb
      exact hid e he
    · rw [step_send_sent, step_send_ratchet]
      intro e he
      rcases List.mem_append.mp he with he | he
      · exact (hid e he).trans hbefore
      · rw [List.mem_singleton.mp he]
        exact hbefore
    · rw [step_send_ratchet]
      exact hpos'
  · obtain ⟨hordered, hnext, hpos⟩ := hnum p.other
    refine ⟨?_, ?_, ?_⟩
    · rw [step_send_sent_other]
      exact hordered
    · rw [step_send_sent_other, step_send_ratchet_other]
      exact hnext
    · rw [step_send_ratchet_other]
      exact hpos

/-- The party that is ahead or in a chain of its own has not heard of the next one. -/
theorem Sends.unheard (h : Sends s p) (hpos : 0 < (s.ratchet p).sender.step)
    (hzero : (s.ratchet p).send.2.1.id.subStep = 0) :
    (frontier p.other (s.ratchet p.other)).step < (s.ratchet p).send.2.1.id.step ∧
      (s.ratchet p).senderHash = (s.ratchet p.other).receiverHash ∧
      ∀ e ∈ s.sent p, e.1.id.step ≤ (frontier p.other (s.ratchet p.other)).step := by
  cases h with
  | on howner hlt =>
      obtain ⟨-, -, -, hid⟩ := send_on hlt
      rw [hid] at hzero
      exact absurd hzero (Nat.pos_iff_ne_zero.mp hpos)
  | opens heq hp hguard hlt =>
      obtain ⟨-, -, hid⟩ := send_opens hguard hlt
      have hother : p.other = owner (s.ratchet p).root.step := by
        conv_lhs => rw [hp, Party.other_other]
      have howner : owner (s.ratchet p.other).root.step = p.other := by
        have hroot := heq.owner_root
        rw [← hother] at hroot
        rw [hroot, ← hother]
      have hroot : (s.ratchet p.other).root.step = (s.ratchet p).root.step := by
        have hroot := heq.owner_root
        rwa [← hother] at hroot
      obtain ⟨-, hreceiver⟩ := Equal.hashes heq
      have hbound := Equal.bound' heq
      rw [← hp] at hbound hreceiver
      rw [← hother] at hreceiver
      rw [frontier_of_owner howner, hroot, hid]
      refine ⟨?_, hreceiver.symm, ?_⟩
      · show (s.ratchet p).root.step - 1 < (s.ratchet p).root.step + 1
        omega
      · intro e he
        exact Nat.le_sub_one_of_lt (hbound e he)

/-- The tags when a party sends. -/
def Tags.send (tags : Tags) (s : Duplex S) (p : Party) : Tags :=
  Function.update tags p (tags p ++ [((s.ratchet p).send.2.1.id, (s.ratchet p).senderHash)])

theorem Sends.heard (hex : S.exchange.Lawful) (hinv : Inv s) (h : Sends s p)
    (hpos : 0 < (s.ratchet p).sender.step) (hheard : ∀ q, Heard s q) (q : Party) :
    Heard (s.step (.send p)).1 q := by
  obtain ⟨hdelivered, hkept, hentered⟩ := hheard q
  refine ⟨?_, ?_, ?_⟩
  · intro m hm
    obtain ⟨j, hj, key, hget⟩ := hdelivered m hm
    exact ⟨j, hj, key, sent_step s (.send p) q.other hget⟩
  · intro id hid
    exact keptOrUsed_step hex hinv (a := .send p) trivial (hkept id hid)
  · rcases Party.eq_or_eq_other p q with rfl | rfl
    · rw [step_send_sent_other, step_send_ratchet, h.frontier_eq]
      exact hentered
    · rw [Party.other_other] at hentered ⊢
      rw [step_send_sent, step_send_ratchet_other]
      intro e he hstep hzero
      rcases List.mem_append.mp he with he | he
      · exact hentered e he hstep hzero
      · -- the first message of a chain is ahead
        rw [List.mem_singleton.mp he] at hstep hzero
        obtain ⟨hlt, -⟩ := h.unheard hpos hzero
        omega

theorem Sends.tagged (hinv : Inv s) (h : Sends s p) (hpos : 0 < (s.ratchet p).sender.step)
    (htagged : ∀ q, Tagged s tags q) (q : Party) :
    Tagged (s.step (.send p)).1 (tags.send s p) q := by
  obtain ⟨hids, hcurrent, hfirst, hrest⟩ := htagged q
  -- seen from the sender the other party's tags are what they were; seen from the other, one is new
  rcases Party.eq_or_eq_other p q with rfl | rfl
  · have htags : tags.send s q q.other = tags q.other := Function.update_of_ne q.other_ne ..
    obtain ⟨-, hreceiver⟩ := DoubleRatchet.send_receiver (s.ratchet q)
    refine ⟨?_, ?_, ?_, ?_⟩
    · rw [htags, step_send_sent_other]
      exact hids
    · rw [htags, step_send_ratchet, h.frontier_eq, hreceiver]
      exact hcurrent
    · rw [htags, step_send_ratchet, h.frontier_eq, hreceiver]
      exact hfirst
    · rw [htags, step_send_ratchet, h.frontier_eq, step_send_ratchet_other]
      exact hrest
  · have htags : tags.send s p p =
        tags p ++ [((s.ratchet p).send.2.1.id, (s.ratchet p).senderHash)] :=
      Function.update_self ..
    rw [Party.other_other] at hids hcurrent hfirst hrest
    have hlast : ∀ {P : MessageId × Hash → Prop}, (∀ tag ∈ tags p, P tag) →
        P ((s.ratchet p).send.2.1.id, (s.ratchet p).senderHash) →
        ∀ tag ∈ tags.send s p p, P tag := by
      intro P hall hnew tag htag
      rw [htags] at htag
      rcases List.mem_append.mp htag with htag | htag
      · exact hall tag htag
      · rw [List.mem_singleton.mp htag]
        exact hnew
    refine ⟨?_, ?_, ?_, ?_⟩
    · rw [Party.other_other, htags, step_send_sent, List.map_append, List.map_append, hids]
      rfl
    · rw [Party.other_other, step_send_ratchet_other]
      refine hlast hcurrent ?_
      intro hstep hne
      cases h with
      | on howner hlt =>
          -- in an open chain the new tag has the hash that the chain was given
          obtain ⟨-, -, -, hid⟩ := send_on hlt
          rw [hid] at hstep
          exact hash_of_same_chain hinv howner hstep
      | opens heq hp hguard hlt =>
          obtain ⟨-, -, hid⟩ := send_opens hguard hlt
          rw [hid] at hne
          exact absurd rfl hne
    · rw [Party.other_other, step_send_ratchet_other]
      refine hlast hfirst ?_
      intro hlt hzero
      exact (h.unheard hpos hzero).2.1
    · rw [Party.other_other, step_send_ratchet, step_send_ratchet_other]
      by_cases hzero : (s.ratchet p).send.2.1.id.subStep = 0
      · -- nothing else was sent in the chain that is opened
        obtain ⟨-, -, hall⟩ := h.unheard hpos hzero
        refine hlast ?_ (fun _ hne => absurd hzero hne)
        intro tag htag hlt
        have hmem : tag.1 ∈ (s.sent p).map fun e => e.1.id := by
          rw [← hids]
          exact List.mem_map_of_mem htag
        obtain ⟨e, he, hid⟩ := List.mem_map.mp hmem
        have hle := hall e he
        rw [hid] at hle
        omega
      · cases h with
        | opens heq hp hguard hlt =>
            obtain ⟨-, -, hid⟩ := send_opens hguard hlt
            exact absurd (by rw [hid]) hzero
        | on howner hlt =>
            obtain ⟨-, -, hsame, -⟩ := send_on hlt
            rw [hsame]
            exact hlast hrest fun _ _ => rfl

/-- **A message is sent.** -/
theorem Routed.send (hex : S.exchange.Lawful) (h : Routed s tags) (hfits : Fits s (.send p)) :
    Routed (s.step (.send p)).1 (tags.send s p) := by
  have hsends := sends h.inv hfits
  have hpos := (h.numbered p).pos
  exact ⟨send_inv hex h.inv hfits, hsends.numbered h.numbered,
    hsends.heard hex h.inv hpos h.heard, hsends.tagged h.inv hpos h.tagged⟩

/-! ### Receiving -/

variable {i : Nat} {message : MessageHeader S} {key : SharedSecret} {draws : Draws S}
  {ratchet : DoubleRatchet S}

/-- A message that was not delivered was not accepted. -/
theorem Routed.not_accepted (h : Routed s tags)
    (hget : (s.sent p.other)[i]? = some (message, key)) (hnew : i ∉ s.delivered p) :
    ∀ m ∈ s.accepted p, m.id ≠ message.id := by
  intro m hm hid
  obtain ⟨j, hj, key', hget'⟩ := (h.heard p).delivered m hm
  rw [← (h.numbered p.other).position_eq hget' hget hid] at hnew
  exact hnew hj

/-- A message of no new chain is of the chain that the party is in. -/
theorem frontier_of_inTime {r : DoubleRatchet S} (howner : owner message.id.step = p.other)
    (htime : InTime r message) (hle : ¬ r.root.step < message.id.step) :
    (frontier p r).step = message.id.step := by
  rw [InTime, if_neg hle] at htime
  rcases htime with heq | ⟨hsucc, -⟩
  · rw [frontier_of_other (heq ▸ howner), heq]
  · have hself : owner r.root.step = p := by
      rw [← hsucc, owner_succ, howner, Party.other_other]
    rw [frontier_of_owner hself, ← hsucc]
    rfl

/-- **A message in time has the session it is looked for under.** -/
theorem Routed.session_eq (h : Routed s tags)
    (hget : (s.sent p.other)[i]? = some (message, key)) (hnew : i ∉ s.delivered p)
    (htime : InTime (s.ratchet p) message) {session : Hash}
    (htag : (message.id, session) ∈ tags p.other) : session = (s.ratchet p).receiverHash := by
  have he := List.mem_of_getElem? hget
  by_cases hlt : (s.ratchet p).root.step < message.id.step
  · have hzero : message.id.subStep = 0 := by rwa [InTime, if_pos hlt] at htime
    refine (h.tagged p).first _ htag (Nat.lt_of_le_of_lt ?_ hlt) hzero
    rw [frontier]
    split
    · exact Nat.sub_le _ _
    · exact Nat.le_refl _
  · have hstep := frontier_of_inTime ((h.inv.tracks p).owned _ he) htime hlt
    refine (h.tagged p).current _ htag hstep.symm ?_
    intro hzero
    -- the chain was entered with that one
    obtain ⟨m, hm, hid⟩ := (h.heard p).entered _ he hstep.symm hzero
    exact h.not_accepted hget hnew m hm hid

/-- What a delivery leaves to show: what the receiver makes of it. -/
theorem Routed.received (h : Routed s tags)
    (hinv : Inv (s.received p i message ratchet (s.accepted p ++ [message])))
    (hnext : ∀ id : MessageId, id.Before ⟨(s.ratchet p).root.step, (s.ratchet p).sender.step⟩ →
      id.Before ⟨ratchet.root.step, ratchet.sender.step⟩)
    (hpos : 0 < ratchet.sender.step) (hsender : ratchet.senderHash = (s.ratchet p).senderHash)
    (hheard : Heard (s.received p i message ratchet (s.accepted p ++ [message])) p)
    (htagged : Tagged (s.received p i message ratchet (s.accepted p ++ [message])) tags p) :
    Routed (s.received p i message ratchet (s.accepted p ++ [message])) tags := by
  refine ⟨hinv, ?_, ?_, ?_⟩
  · intro q
    obtain ⟨hordered, hbefore, hpos'⟩ := h.numbered q
    -- only what the receiver sees changes; the other party keeps what it had
    rcases Party.eq_or_eq_other p q with rfl | rfl
    · refine ⟨hordered, ?_, ?_⟩
      · rw [received_ratchet]
        intro e he
        exact hnext _ (hbefore e he)
      · rw [received_ratchet]
        exact hpos
    · exact ⟨hordered, by rw [received_ratchet_other]; exact hbefore,
        by rw [received_ratchet_other]; exact hpos'⟩
  · intro q
    rcases Party.eq_or_eq_other p q with rfl | rfl
    · exact hheard
    · obtain ⟨hdelivered, hkept, hentered⟩ := h.heard p.other
      refine ⟨?_, ?_, ?_⟩
      · simp only [Duplex.received, Function.update_of_ne p.other_ne]
        exact hdelivered
      · simp only [KeptOrUsed, Duplex.received, Function.update_of_ne p.other_ne]
        exact hkept
      · rw [received_ratchet_other]
        simp only [Duplex.received, Function.update_of_ne p.other_ne]
        exact hentered
  · intro q
    rcases Party.eq_or_eq_other p q with rfl | rfl
    · exact htagged
    · obtain ⟨hids, hcurrent, hfirst, hrest⟩ := h.tagged p.other
      refine ⟨hids, ?_, ?_, ?_⟩
      · rw [received_ratchet_other]
        exact hcurrent
      · rw [received_ratchet_other]
        exact hfirst
      · rw [received_ratchet_other, Party.other_other, received_ratchet, hsender]
        rw [Party.other_other] at hrest
        exact hrest

/-- What a party accepted was delivered, also behind a delivery. -/
theorem Heard.received (h : Heard s p) (hget : (s.sent p.other)[i]? = some (message, key))
    (hkept : ∀ id ∈ s.recorded p ++ (s.ratchet p).skips message,
      KeptOrUsed (s.received p i message ratchet (s.accepted p ++ [message])) p id)
    (hentered : ∀ e ∈ s.sent p.other, e.1.id.step = (frontier p ratchet).step →
      e.1.id.subStep = 0 → ∃ m ∈ s.accepted p ++ [message], m.id = e.1.id) :
    Heard (s.received p i message ratchet (s.accepted p ++ [message])) p := by
  refine ⟨?_, ?_, ?_⟩
  · simp only [Duplex.received, Function.update_self]
    intro m hm
    rcases List.mem_append.mp hm with hm | hm
    · obtain ⟨j, hj, key', hget'⟩ := h.delivered m hm
      exact ⟨j, List.mem_append_left _ hj, key', hget'⟩
    · rw [List.mem_singleton.mp hm]
      exact ⟨i, List.mem_append_right _ List.mem_cons_self, key, hget⟩
  · rw [received_recorded]
    exact hkept
  · simp only [Duplex.received, Function.update_self]
    exact hentered

/-- A message whose key was set aside. -/
theorem Routed.deliver_kept (h : Routed s tags)
    (hget : (s.sent p.other)[i]? = some (message, key)) (hnew : i ∉ s.delivered p)
    (htime : InTime (s.ratchet p) message)
    (hstale : message.id.step < (s.ratchet p).root.step ∨
      message.id.step = (s.ratchet p).root.step ∧
        message.id.subStep < (s.ratchet p).receiver.step) (draws : Draws S) :
    ∃ ratchet, (s.ratchet p).recv message draws = (ratchet, .ok key) ∧
      Routed (s.received p i message ratchet (s.accepted p ++ [message])) tags := by
  have he := List.mem_of_getElem? hget
  have hle : ¬ (s.ratchet p).root.step < message.id.step := by omega
  have hstep := frontier_of_inTime ((h.inv.tracks p).owned _ he) htime hle
  -- it was passed and not accepted, so its key is kept
  have hbehind : message.id.Before (frontier p (s.ratchet p)) := by
    rw [InTime, if_neg hle] at htime
    refine .inr ⟨hstep.symm, ?_⟩
    show message.id.subStep < (s.ratchet p).receiver.step
    omega
  have hnot := h.not_accepted hget hnew
  have hrecorded : message.id ∈ s.recorded p := by
    refine ((h.inv.tracks p).passed _ he hstep.symm hbehind).resolve_left ?_
    rintro ⟨m, hm, hid⟩
    exact hnot m hm hid
  have hin : message.id ∈ (s.ratchet p).keptIds := by
    refine ((h.heard p).kept _ hrecorded).resolve_right ?_
    rintro ⟨m, hm, hid⟩
    exact hnot m hm hid
  obtain ⟨missing, hrecv, hinv, hrest⟩ := Ratchet.deliver_kept h.inv hget hstale hin draws
  refine ⟨_, hrecv, h.received hinv (fun _ hid => hid) (h.numbered p).pos rfl ?_ ?_⟩
  · refine (h.heard p).received hget ?_ ?_
    · rw [skips_of_stale hstale, List.append_nil]
      intro id hid
      simp only [KeptOrUsed, Duplex.received, Function.update_self]
      rcases (h.heard p).kept id hid with hid | ⟨m, hm, hid⟩
      · rcases hrest id hid with rfl | hid
        · exact .inr ⟨message, List.mem_append_right _ List.mem_cons_self, rfl⟩
        · exact .inl hid
      · exact .inr ⟨m, List.mem_append_left _ hm, hid⟩
    · intro e he' hstep' hzero
      obtain ⟨m, hm, hid⟩ := (h.heard p).entered e he' hstep' hzero
      exact ⟨m, List.mem_append_left _ hm, hid⟩
  · obtain ⟨hids, hcurrent, hfirst, hlater⟩ := h.tagged p
    refine ⟨hids, ?_, ?_, ?_⟩
    · simp only [Duplex.received, Function.update_self]
      exact hcurrent
    · simp only [Duplex.received, Function.update_self]
      exact hfirst
    · simp only [Duplex.received, Function.update_self, Function.update_of_ne p.other_ne]
      exact hlater

/-- A party in chain `step` of the other party. -/
structure Within (s : Duplex S) (p : Party) (step : Nat) : Prop where
  root : (s.ratchet p).root.step = step
  guard : (s.ratchet p).sender.step = u32Max
  chain : (frontier p (s.ratchet p)).step = step
  hash : (s.ratchet p.other).senderHash = (s.ratchet p).receiverHash
  hash' : (s.ratchet p.other).receiverHash = (s.ratchet p).senderHash

/-- A party that has not heard of chain `step`. -/
structure NotYet (s : Duplex S) (p : Party) (step : Nat) : Prop where
  root : (s.ratchet p).root.step + 1 = step
  chain : (frontier p (s.ratchet p)).step < step
  hash' : (s.ratchet p.other).receiverHash = (s.ratchet p).senderHash

theorem EqualAt.within (h : EqualAt s step) (hp : p.other = owner step) : Within s p step := by
  obtain rfl : p = (owner step).other := by rw [← hp, Party.other_other]
  obtain ⟨hsender, hreceiver⟩ := Equal.hashes h
  have hroot := Equal.root_step h
  have howner : owner (s.ratchet (owner step).other).root.step = (owner step).other.other := by
    rw [hroot, Party.other_other]
  refine ⟨hroot, by rw [Equal.guard h], ?_, ?_, ?_⟩
  · rw [frontier_of_other howner, hroot]
  · rw [Party.other_other]
    exact hsender
  · rw [Party.other_other]
    exact hreceiver

theorem Fresh.stands (h : Fresh s p message step) : Within s p step ∨ NotYet s p step := by
  obtain ⟨hp, -, ⟨heq, -⟩ | hahead⟩ := h
  · exact .inl (heq.within (by rw [hp, Party.other_other]))
  · subst hp
    obtain ⟨-, hreceiver⟩ := Ahead.hashes hahead
    have hroot := Ahead.root_step' hahead
    refine .inr ⟨hroot, ?_, ?_⟩
    · rw [frontier_of_owner hahead.other_owns]
      show (s.ratchet (owner step).other).root.step - 1 < step
      omega
    · rw [Party.other_other]
      exact hreceiver

/-- A message of the chain that the party is in, or the first one of the next chain. -/
theorem Routed.deliver_fresh (hex : S.exchange.Lawful) (h : Routed s tags)
    (hget : (s.sent p.other)[i]? = some (message, key)) (htime : InTime (s.ratchet p) message)
    (hroom : HasRoom (s.ratchet p) message) (hfresh : Fresh s p message step)
    (draws : Draws S) :
    ∃ ratchet, (s.ratchet p).recv message draws = (ratchet, .ok key) ∧
      Routed (s.received p i message ratchet (s.accepted p ++ [message])) tags := by
  obtain ⟨ratchet, hrecv, hinv, heq, -, -, hkept⟩ :=
    Ratchet.deliver_fresh hex h.inv hget hfresh draws
  have hp : p.other = owner step := by rw [hfresh.1, Party.other_other]
  -- behind the message the party is in its chain
  obtain ⟨hroot, hguard, hchain, hhash, hhash'⟩ := heq.within hp
  rw [received_ratchet] at hroot hguard hchain hhash hhash'
  rw [received_ratchet_other] at hhash hhash'
  have hsender : ratchet.senderHash = (s.ratchet p).senderHash :=
    hhash'.symm.trans (hfresh.stands.elim Within.hash' NotYet.hash')
  rw [HasRoom, ← List.length_append] at hroom
  rw [rtake_of_length_le hroom] at hkept
  refine ⟨ratchet, hrecv, h.received hinv ?_ ?_ hsender ?_ ?_⟩
  · intro id hid
    rw [hroot, hguard]
    rcases hfresh.stands with hwithin | hnot
    · rw [hwithin.root, hwithin.guard] at hid
      exact hid
    · have hsucc := hnot.root
      simp only [MessageId.Before] at hid ⊢
      omega
  · rw [hguard]
    decide
  · refine (h.heard p).received hget ?_ ?_
    · simp only [KeptOrUsed, Duplex.received, Function.update_self, hkept]
      intro id hid
      rcases List.mem_append.mp hid with hid | hid
      · refine ((h.heard p).kept id hid).imp (List.mem_append_left _) ?_
        rintro ⟨m, hm, hmid⟩
        exact ⟨m, List.mem_append_left _ hm, hmid⟩
      · exact .inl (List.mem_append_right _ hid)
    · intro e he hstep hzero
      rw [hchain] at hstep
      rcases hfresh.stands with hwithin | hnot
      · obtain ⟨m, hm, hid⟩ := (h.heard p).entered e he (hstep.trans hwithin.chain.symm) hzero
        exact ⟨m, List.mem_append_left _ hm, hid⟩
      · -- the chain is entered with its first message
        have hlt : (s.ratchet p).root.step < message.id.step := by
          have hsucc := hnot.root
          rw [hfresh.2.1]
          omega
        rw [InTime, if_pos hlt] at htime
        refine ⟨message, List.mem_append_right _ List.mem_cons_self, ?_⟩
        rw [MessageId.ext_iff, hstep, hzero]
        exact ⟨hfresh.2.1, htime⟩
  · have hbound : ∀ tag ∈ tags p.other, tag.1.step ≤ step := by
      intro tag htag
      have hmem : tag.1 ∈ (s.sent p.other).map fun e => e.1.id := by
        rw [← (h.tagged p).ids]
        exact List.mem_map_of_mem htag
      obtain ⟨e, he, hid⟩ := List.mem_map.mp hmem
      rw [hp] at he
      rw [← hid]
      exact Equal.bound heq e he
    refine ⟨(h.tagged p).ids, ?_, ?_, ?_⟩
    · rw [received_ratchet, hchain, ← hhash]
      intro tag htag hstep hne
      rcases hfresh.stands with hwithin | hnot
      · rw [hwithin.hash]
        exact (h.tagged p).current tag htag (hstep.trans hwithin.chain.symm) hne
      · have hlt : (frontier p (s.ratchet p)).step < tag.1.step := by
          rw [hstep]
          exact hnot.chain
        exact (h.tagged p).rest tag htag hlt hne
    · rw [received_ratchet, hchain]
      intro tag htag hlt
      exact absurd (hbound tag htag) (Nat.not_le.mpr hlt)
    · rw [received_ratchet, hchain]
      intro tag htag hlt
      exact absurd (hbound tag htag) (Nat.not_le.mpr hlt)

/-- **A message in time is accepted.** -/
theorem Routed.deliver (hex : S.exchange.Lawful) (h : Routed s tags)
    (hget : (s.sent p.other)[i]? = some (message, key)) (hnew : i ∉ s.delivered p)
    (htime : InTime (s.ratchet p) message) (hroom : HasRoom (s.ratchet p) message)
    (draws : Draws S) :
    ∃ ratchet, (s.ratchet p).recv message draws = (ratchet, .ok key) ∧
      Routed (s.received p i message ratchet (s.accepted p ++ [message])) tags := by
  by_cases hfresh : ∃ step, Fresh s p message step
  · obtain ⟨step, hfresh⟩ := hfresh
    exact h.deliver_fresh hex hget htime hroom hfresh draws
  · have he := List.mem_of_getElem? hget
    exact h.deliver_kept hget hnew htime (stale_of_not_fresh h.inv he (not_exists.mp hfresh)) draws

/-- **At the start** nothing was sent. -/
theorem routed_start (hex : S.exchange.Lawful) (secret : SharedSecret)
    (aliceDraws bobDraws : Draws S) :
    Routed (Duplex.start secret aliceDraws bobDraws) fun _ => [] := by
  have hnone : ∀ e ∈ ([] : Sent S), False := fun e he => List.not_mem_nil he
  refine ⟨start_inv hex, ?_, ?_, ?_⟩
  · intro p
    refine ⟨List.Pairwise.nil, fun e he => (hnone e he).elim, ?_⟩
    cases p
    · exact Nat.one_pos
    · show 0 < u32Max
      decide
  · intro p
    refine ⟨?_, ?_, fun e he => (hnone e he).elim⟩
    · intro m hm
      cases hm
    · intro id hid
      cases hid
  · intro p
    refine ⟨rfl, ?_, ?_, ?_⟩ <;>
    · intro tag htag
      cases htag

end OnionNetwork.Ratchet
