import OnionNetwork.Ratchet.Calls

/-!
# How the two parties stand to each other

The parties own the chains in turn: `alice` the even ones, `bob` the odd ones.
Either both have the same root chain, whose last step opened a chain of the one
(`Equal`), or the owner of the next chain has opened it and the other party has
not heard of it (`Ahead`). `Tracks` is about one party as a receiver: which
messages it passed, set aside and accepted. Each call keeps all of it; what
`recv` does with a header of the peer is `Tracks.find_some`,
`Equal.receive` and `Ahead.enter`.
-/

namespace OnionNetwork.Ratchet

open Lib

/-- Who sends in the chain of this number. -/
def owner (step : Nat) : Party := if step % 2 = 0 then .alice else .bob

theorem owner_succ (n : Nat) : owner (n + 1) = (owner n).other := by
  unfold owner
  rcases Nat.mod_two_eq_zero_or_one n with h | h
  · have hsucc : (n + 1) % 2 ≠ 0 := by omega
    rw [if_pos h, if_neg hsucc]
    rfl
  · have hsucc : (n + 1) % 2 = 0 := by omega
    have hne : n % 2 ≠ 0 := by omega
    rw [if_neg hne, if_pos hsucc]
    rfl

/-- A `send` that finds its counters in range: a party does not go on in a chain
of its own that is used up (which looks like a guard), and when it opens a chain
the root chain has a next step. -/
def Fits {S : Suite} (s : Duplex S) : Action S → Prop
  | .send p =>
      (s.ratchet p).sender.step = u32Max →
        owner (s.ratchet p).root.step = p.other ∧ (s.ratchet p).root.step < u32Max
  | .deliver _ _ _ => True

instance {S : Suite} (s : Duplex S) : DecidablePred (Fits s)
  | .send _ => inferInstanceAs (Decidable (_ → _))
  | .deliver _ _ _ => isTrue trivial

/-- The period is odd, so the parties exchange ciphertexts in turn. -/
theorem owner_div_period {n : Nat} (h : n % kyberPeriod = 0) :
    owner (n / kyberPeriod) = owner n := by
  have hparity : n / kyberPeriod % 2 = n % 2 := by
    simp only [kyberPeriod] at *
    omega
  rw [owner, owner, hparity]

/-- Between two multiples of the period the next multiple stays the same. -/
theorem div_period_of_not {m n : Nat} (hsucc : m + 1 = n) (h : ¬ n % kyberPeriod = 0) :
    m / kyberPeriod = n / kyberPeriod := by
  simp only [kyberPeriod] at *
  omega

/-- Chains in order, and messages in a chain. -/
def MessageId.Before (a b : MessageId) : Prop :=
  a.step < b.step ∨ a.step = b.step ∧ a.subStep < b.subStep

theorem MessageId.Before.trans {a b c : MessageId} (hab : a.Before b) (hbc : b.Before c) :
    a.Before c := by
  simp only [MessageId.Before] at *
  omega

theorem MessageId.Before.ne {a b : MessageId} (h : a.Before b) : a ≠ b := by
  rintro rfl
  simp only [MessageId.Before] at h
  omega

/-- Messages with numbers of their own in one chain are in order. -/
theorem range_ordered (step start n : Nat) :
    ((List.range' start n).map (⟨step, ·⟩ : Nat → MessageId)).Pairwise MessageId.Before := by
  rw [List.pairwise_map]
  have hlt : (List.range' start n).Pairwise (· < ·) := List.pairwise_lt_range' 1
  refine hlt.imp ?_
  intro a b hab
  exact .inr ⟨rfl, hab⟩

variable {S : Suite}

/-- Headers with their keys. -/
abbrev Sent (S : Suite) := List (MessageHeader S × SharedSecret)

/-- Where a party stands in the chains of the other party: the last of them that
it knows, and the next message in it. -/
def frontier (p : Party) (s : DoubleRatchet S) : MessageId :=
  ⟨if owner s.root.step = p then s.root.step - 1 else s.root.step, s.receiver.step⟩

theorem frontier_of_owner {p : Party} {s : DoubleRatchet S} (h : owner s.root.step = p) :
    frontier p s = ⟨s.root.step - 1, s.receiver.step⟩ := by
  rw [frontier, if_pos h]

theorem frontier_of_other {p : Party} {s : DoubleRatchet S} (h : owner s.root.step = p.other) :
    frontier p s = ⟨s.root.step, s.receiver.step⟩ := by
  have hne : owner s.root.step ≠ p := by
    rw [h]
    exact p.other_ne
  rw [frontier, if_neg hne]

/-- The list of kept keys behind a call. -/
theorem keptIds_of_kept {s s' : DoubleRatchet S} {new : List (MessageId × SharedSecret)}
    (h : s'.missingMessages.toList =
      (s.missingMessages.toList ++ new).rtake maxKeptMissingMessages) :
    s'.keptIds = (s.keptIds ++ new.map Prod.fst).rtake maxKeptMissingMessages := by
  rw [DoubleRatchet.keptIds, h, DoubleRatchet.keptIds, ← List.map_append, List.rtake, List.rtake,
    List.map_drop, List.length_map]

/-- A party as the receiver of what its peer sent: what it recorded and accepted
is behind it, the most recently recorded keys are kept until they are used, and
they are the right ones. -/
structure Tracks (p : Party) (s : DoubleRatchet S) (peer : Sent S)
    (accepted : List (MessageHeader S)) (recorded : List MessageId) : Prop where
  ordered : recorded.Pairwise MessageId.Before
  before : ∀ id ∈ recorded, id.Before (frontier p s)
  remembers : Remembers maxKeptMissingMessages s.keptIds recorded
    fun id => ∃ h ∈ accepted, h.id = id
  done : ∀ h ∈ accepted, h.id.Before (frontier p s) ∧ h.id ∉ s.keptIds
  keys : ∀ entry ∈ s.missingMessages.toList, ∀ e ∈ peer, e.1.id = entry.1 → e.2 = entry.2
  owned : ∀ e ∈ peer, owner e.1.id.step = p.other
  passed : ∀ e ∈ peer, e.1.id.step = (frontier p s).step → e.1.id.Before (frontier p s) →
    (∃ h ∈ accepted, h.id = e.1.id) ∨ e.1.id ∈ recorded

namespace Tracks

variable {p : Party} {s s' : DoubleRatchet S} {peer : Sent S} {accepted : List (MessageHeader S)}
  {recorded : List MessageId} {message : MessageHeader S}

/-- A party that sends stays where it is as a receiver. -/
theorem congr (h : Tracks p s peer accepted recorded)
    (hmissing : s'.missingMessages = s.missingMessages) (hfrontier : frontier p s' = frontier p s) :
    Tracks p s' peer accepted recorded := by
  have hids : s'.keptIds = s.keptIds := by
    rw [DoubleRatchet.keptIds, hmissing]
    rfl
  refine
    { ordered := h.ordered
      before := ?_
      remembers := ?_
      done := ?_
      keys := ?_
      owned := h.owned
      passed := ?_ }
  · rw [hfrontier]
    exact h.before
  · rw [hids]
    exact h.remembers
  · rw [hids, hfrontier]
    exact h.done
  · rw [hmissing]
    exact h.keys
  · rw [hfrontier]
    exact h.passed

/-- The peer sends a message that is ahead. -/
theorem peer_sends (h : Tracks p s peer accepted recorded) {e : MessageHeader S × SharedSecret}
    (howner : owner e.1.id.step = p.other) (hahead : ¬ e.1.id.Before (frontier p s)) :
    Tracks p s (peer ++ [e]) accepted recorded := by
  refine { h with keys := ?_, owned := ?_, passed := ?_ }
  · intro entry hentry e' he' hid
    rcases List.mem_append.mp he' with he' | he'
    · exact h.keys entry hentry e' he' hid
    · rw [List.mem_singleton.mp he'] at hid
      have hin : entry.1 ∈ s.keptIds := List.mem_map.mpr ⟨entry, hentry, rfl⟩
      rw [hid] at hahead
      exact absurd (h.before _ (h.remembers.sublist.mem hin)) hahead
  · intro e' he'
    rcases List.mem_append.mp he' with he' | he'
    · exact h.owned e' he'
    · rw [List.mem_singleton.mp he']
      exact howner
  · intro e' he' hstep hbefore
    rcases List.mem_append.mp he' with he' | he'
    · exact h.passed e' he' hstep hbefore
    · rw [List.mem_singleton.mp he'] at hbefore
      exact absurd hbefore hahead

theorem nodup_kept (h : Tracks p s peer accepted recorded) : s.keptIds.Nodup :=
  h.remembers.nodup.sublist h.remembers.sublist

/-- A kept key is the right one, and taking it keeps the invariant. -/
theorem find_some (h : Tracks p s peer accepted recorded) {key : SharedSecret}
    (hpeer : (message, key) ∈ peer) (hkept : message.id ∈ s.keptIds) :
    ∃ missing, s.findMissingMessage message = ({ s with missingMessages := missing }, .ok key) ∧
      Tracks p { s with missingMessages := missing } peer (accepted ++ [message]) recorded ∧
      ∀ id ∈ s.keptIds, id = message.id ∨ id ∈ missing.toList.map Prod.fst := by
  obtain ⟨key', missing, hfind, hmem, hsub, hgone, hrest⟩ :=
    DoubleRatchet.findMissingMessage_some h.nodup_kept hkept
  have hkey : key = key' := h.keys _ hmem _ hpeer rfl
  subst hkey
  have hids : (missing.toList.map Prod.fst).Sublist s.keptIds := hsub.map Prod.fst
  refine ⟨missing, hfind, ?_, hrest⟩
  refine
    { ordered := h.ordered
      before := h.before
      remembers := ?_
      done := ?_
      keys := ?_
      owned := h.owned
      passed := ?_ }
  · refine h.remembers.take message.id hids hrest ?_
    rintro id (⟨m, hm, hid⟩ | rfl)
    · exact ⟨m, List.mem_append_left _ hm, hid⟩
    · exact ⟨message, List.mem_append_right _ (List.mem_singleton.mpr rfl), rfl⟩
  · intro m hm
    rcases List.mem_append.mp hm with hm | hm
    · obtain ⟨hbefore, hnot⟩ := h.done m hm
      exact ⟨hbefore, fun hin => hnot (hids.mem hin)⟩
    · rw [List.mem_singleton.mp hm]
      exact ⟨h.before _ (h.remembers.sublist.mem hkept), hgone⟩
  · intro entry hentry e he hid
    exact h.keys entry (hsub.mem hentry) e he hid
  · intro e he hstep hbefore
    refine (h.passed e he hstep hbefore).imp ?_ id
    rintro ⟨m, hm, hid⟩
    exact ⟨m, List.mem_append_left _ hm, hid⟩

/-- The party accepts a message ahead of it and records the keys of the ones
between. -/
theorem accept (h : Tracks p s peer accepted recorded) {new : List (MessageId × SharedSecret)}
    (hmissing : s'.missingMessages.toList =
      (s.missingMessages.toList ++ new).rtake maxKeptMissingMessages)
    (hordered : (new.map Prod.fst).Pairwise MessageId.Before)
    (hnew : ∀ id ∈ new.map Prod.fst, ¬ id.Before (frontier p s) ∧ id.Before message.id)
    (hmono : ∀ id : MessageId, id.Before (frontier p s) → id.Before (frontier p s'))
    (hkeys : ∀ entry ∈ new, ∀ e ∈ peer, e.1.id = entry.1 → e.2 = entry.2)
    (hahead : ¬ message.id.Before (frontier p s)) (hbehind : message.id.Before (frontier p s'))
    (hpassed : ∀ e ∈ peer, e.1.id.step = (frontier p s').step → e.1.id.Before (frontier p s') →
      (e.1.id.step = (frontier p s).step ∧ e.1.id.Before (frontier p s)) ∨ e.1.id = message.id ∨
        e.1.id ∈ new.map Prod.fst) :
    Tracks p s' peer (accepted ++ [message]) (recorded ++ new.map Prod.fst) := by
  have hids := keptIds_of_kept hmissing
  -- the new ids are behind the old frontier, the old ones in front of it
  have hall : (recorded ++ new.map Prod.fst).Pairwise MessageId.Before := by
    refine List.pairwise_append.mpr ⟨h.ordered, hordered, ?_⟩
    intro a ha b hb
    have hbefore := h.before a ha
    obtain ⟨hnot, -⟩ := hnew b hb
    simp only [MessageId.Before] at *
    omega
  have hnodup : (recorded ++ new.map Prod.fst).Nodup := hall.imp MessageId.Before.ne
  have hsub : s'.keptIds.Sublist (s.keptIds ++ new.map Prod.fst) := by
    rw [hids]
    exact List.drop_sublist _ _
  refine
    { ordered := hall
      before := ?_
      remembers := ?_
      done := ?_
      keys := ?_
      owned := h.owned
      passed := ?_ }
  · intro id hid
    rcases List.mem_append.mp hid with hid | hid
    · exact hmono id (h.before id hid)
    · exact (hnew id hid).2.trans hbehind
  · rw [hids]
    have hrecord := h.remembers.record hnodup
    refine { hrecord with recent := ?_ }
    intro i hi
    refine (hrecord.recent i hi).imp ?_ id
    rintro ⟨m, hm, hmid⟩
    exact ⟨m, List.mem_append_left _ hm, hmid⟩
  · intro m hm
    rcases List.mem_append.mp hm with hm | hm
    · obtain ⟨hbefore, hnot⟩ := h.done m hm
      refine ⟨hmono _ hbefore, ?_⟩
      intro hin
      rcases List.mem_append.mp (hsub.mem hin) with hin | hin
      · exact hnot hin
      · exact (hnew _ hin).1 hbefore
    · rw [List.mem_singleton.mp hm]
      refine ⟨hbehind, ?_⟩
      intro hin
      rcases List.mem_append.mp (hsub.mem hin) with hin | hin
      · exact hahead (h.before _ (h.remembers.sublist.mem hin))
      · exact (hnew _ hin).2.ne rfl
  · intro entry hentry
    rw [hmissing] at hentry
    rcases List.mem_append.mp (mem_of_mem_rtake hentry) with hentry | hentry
    · exact h.keys entry hentry
    · exact hkeys entry hentry
  · intro e he hstep hbefore
    -- passed before, the message itself, or set aside with this one
    rcases hpassed e he hstep hbefore with ⟨hstep', hbefore'⟩ | heq | hin
    · rcases h.passed e he hstep' hbefore' with ⟨m, hm, hid⟩ | hin
      · exact .inl ⟨m, List.mem_append_left _ hm, hid⟩
      · exact .inr (List.mem_append_left _ hin)
    · exact .inl ⟨message, List.mem_append_right _ (List.mem_singleton.mpr rfl), heq.symm⟩
    · exact .inr (List.mem_append_right _ hin)

end Tracks

/-! ## The phases -/

/-- What `o` put into its ciphertext is what `n` will get out of it. -/
def Mixed (o n : DoubleRatchet S) : Prop :=
  S.exchange.kyberDecapsulate o.cp (S.exchange.kyberGenerate n.kyber).2 = some o.ss

/-- The input of the root chain that opens chain `step` of `o`. -/
def rachetInput (o n : DoubleRatchet S) (step : Nat) : SharedSecret :=
  let dh := S.exchange.diffieHellman n.x25519 (S.exchange.xPublic o.x25519)
  if step % kyberPeriod = 0 then dh ^^^ o.ss else dh

/-- `o` owns the last chain `step`, `n` is in it and may open the next one. -/
structure Equal (step : Nat) (o n : DoubleRatchet S) (sentO sentN : Sent S) : Prop where
  two_le : 2 ≤ step
  root_step : n.root.step = step
  root_eq : o.root = n.root
  short : o.sender.step ≤ u32Max
  receiver_le : n.receiver.step ≤ o.sender.step
  chain : o.sender.root =
    stateAt (kdfSc S) n.receiver.root (o.sender.step - n.receiver.step)
  guard : n.sender = ⟨u32Max, S.exchange.diffieHellman n.x25519 (S.exchange.xPublic o.x25519)⟩
  closed : o.receiver.step ≤ n.prevSubCount
  closed_short : n.prevSubCount ≤ u32Max
  bound : ∀ e ∈ sentO, e.1.id.step ≤ step
  bound' : ∀ e ∈ sentN, e.1.id.step < step
  keys : ∀ e ∈ sentO, e.1.id.step = step → e.1.id.subStep < o.sender.step ∧
    (n.receiver.step ≤ e.1.id.subStep →
      e.2 = keyAt (kdfSc S) n.receiver.root (e.1.id.subStep - n.receiver.step))
  mixed : owner (step / kyberPeriod + 1) = owner step → Mixed o n
  mixed' : owner (step / kyberPeriod + 1) = owner (step + 1) → Mixed n o
  hashes : o.senderHash = n.receiverHash ∧ o.receiverHash = n.senderHash

/-- `o` has opened its chain `step`, `n` does not know of it. -/
structure Ahead (step : Nat) (o n : DoubleRatchet S) (sentO sentN : Sent S) : Prop where
  two_le : 2 ≤ n.root.step
  root_step : o.root.step = step
  root_step' : n.root.step + 1 = step
  fits : step ≤ u32Max
  root_eq : o.root.root = (kdfRk S n.root.root (rachetInput o n step)).1
  short : o.sender.step ≤ u32Max
  short' : n.sender.step ≤ u32Max
  chain : o.sender.root =
    stateAt (kdfSc S) (kdfRk S n.root.root (rachetInput o n step)).2 o.sender.step
  behind : n.receiver.step ≤ o.prevSubCount
  behind_short : o.prevSubCount ≤ u32Max
  closed : o.receiver.step ≤ n.sender.step
  bound : ∀ e ∈ sentO, e.1.id.step ≤ step
  bound' : ∀ e ∈ sentN, e.1.id.step < step
  keys : ∀ e ∈ sentO, e.1.id.step = step → e.1.id.subStep < o.sender.step ∧
    e.2 = keyAt (kdfSc S) (kdfRk S n.root.root (rachetInput o n step)).2 e.1.id.subStep ∧
    e.1 = { o.header with id := e.1.id }
  mixed : owner (n.root.step / kyberPeriod + 1) = owner step → Mixed o n
  mixed' : owner (n.root.step / kyberPeriod + 1) = owner (step + 1) → Mixed n o
  hashes : o.senderHash =
      S.blake3 (kdfRk S n.root.root (rachetInput o n step)).2.toBytes ∧
    o.receiverHash = n.senderHash

variable {step : Nat} {o n : DoubleRatchet S} {sentO sentN : Sent S}

/-- Opening the next chain. -/
theorem Equal.openChain (hex : S.exchange.Lawful) (h : Equal step o n sentO sentN)
    (hfits : step < u32Max) : Ahead (step + 1) n.openChain o sentN sentO := by
  have hroot : n.root.step < u32Max := by
    rw [h.root_step]
    exact hfits
  have hopen := DoubleRatchet.openChain_eq hroot
  -- the seed behind the guard is the input the other side will compute
  have hseed : (if (n.root.step + 1) % kyberPeriod = 0 then n.sender.root ^^^ n.ss
      else n.sender.root) = rachetInput n o (step + 1) := by
    rw [h.guard, h.root_step, hex.diffieHellman_comm]
    rfl
  simp only [hseed] at hopen
  rw [hopen]
  refine
    { two_le := ?_
      root_step := ?_
      root_step' := ?_
      fits := hfits
      root_eq := ?_
      short := Nat.zero_le _
      short' := h.short
      chain := ?_
      behind := h.closed
      behind_short := h.closed_short
      closed := h.receiver_le
      bound := ?_
      bound' := ?_
      keys := ?_
      mixed := ?_
      mixed' := ?_
      hashes := ?_ }
  · rw [h.root_eq, h.root_step]
    exact h.two_le
  · show n.root.step + 1 = step + 1
    rw [h.root_step]
  · rw [h.root_eq, h.root_step]
  · rw [h.root_eq]
    rfl
  · rw [h.root_eq]
    rfl
  · intro e he
    exact Nat.le_succ_of_le (Nat.le_of_lt (h.bound' e he))
  · intro e he
    exact Nat.lt_succ_of_le (h.bound e he)
  · intro e he hstep
    have hlt := h.bound' e he
    omega
  · rw [h.root_eq, h.root_step]
    exact h.mixed'
  · rw [h.root_eq, h.root_step, owner_succ (step + 1), owner_succ step, Party.other_other]
    exact h.mixed
  · rw [h.root_eq]
    exact ⟨rfl, h.hashes.1.symm⟩

/-- The owner of the chain sends in it. -/
theorem Equal.send (h : Equal step o n sentO sentN) (hfits : o.sender.step < u32Max) :
    Equal step { o with sender := ⟨o.sender.step + 1, (kdfSc S o.sender.root).1⟩ } n
      (sentO ++ [(o.header, (kdfSc S o.sender.root).2)]) sentN := by
  have hle := h.receiver_le
  have hsub : o.sender.step + 1 - n.receiver.step = o.sender.step - n.receiver.step + 1 := by omega
  refine
    { h with
      short := hfits
      receiver_le := Nat.le_succ_of_le hle
      chain := ?_
      bound := ?_
      keys := ?_
      mixed := h.mixed
      mixed' := h.mixed' }
  · show (kdfSc S o.sender.root).1 = stateAt _ _ (o.sender.step + 1 - n.receiver.step)
    rw [hsub, stateAt_succ, ← h.chain]
  · intro e he
    rcases List.mem_append.mp he with he | he
    · exact h.bound e he
    · rw [List.mem_singleton.mp he]
      show o.root.step ≤ step
      rw [h.root_eq, h.root_step]
  · intro e he hstep
    rcases List.mem_append.mp he with he | he
    · obtain ⟨hlt, hkey⟩ := h.keys e he hstep
      exact ⟨Nat.lt_succ_of_lt hlt, hkey⟩
    · rw [List.mem_singleton.mp he]
      refine ⟨Nat.lt_succ_self _, ?_⟩
      intro _
      show (kdfSc S o.sender.root).2 = (kdfSc S (stateAt _ _ (o.sender.step - n.receiver.step))).2
      rw [← h.chain]

/-- The owner of the new chain sends in it. -/
theorem Ahead.send (h : Ahead step o n sentO sentN) (hfits : o.sender.step < u32Max) :
    Ahead step { o with sender := ⟨o.sender.step + 1, (kdfSc S o.sender.root).1⟩ } n
      (sentO ++ [(o.header, (kdfSc S o.sender.root).2)]) sentN := by
  refine
    { h with
      short := hfits
      chain := ?_
      bound := ?_
      keys := ?_
      mixed := h.mixed
      mixed' := h.mixed' }
  · show (kdfSc S o.sender.root).1 = stateAt _ _ (o.sender.step + 1)
    rw [stateAt_succ, h.chain]
    rfl
  · intro e he
    rcases List.mem_append.mp he with he | he
    · exact h.bound e he
    · rw [List.mem_singleton.mp he]
      show o.root.step ≤ step
      rw [h.root_step]
  · intro e he hstep
    rcases List.mem_append.mp he with he | he
    · obtain ⟨hlt, hkey, hheader⟩ := h.keys e he hstep
      exact ⟨Nat.lt_succ_of_lt hlt, hkey, hheader⟩
    · rw [List.mem_singleton.mp he]
      refine ⟨Nat.lt_succ_self _, ?_, rfl⟩
      show (kdfSc S o.sender.root).2 = (kdfSc S (stateAt _ _ o.sender.step)).2
      rw [h.chain]
      rfl

/-- The other party goes on in its own chain. -/
theorem Ahead.send_behind (h : Ahead step o n sentO sentN) (hfits : n.sender.step < u32Max) :
    Ahead step o { n with sender := ⟨n.sender.step + 1, (kdfSc S n.sender.root).1⟩ } sentO
      (sentN ++ [(n.header, (kdfSc S n.sender.root).2)]) := by
  refine
    { h with
      short' := hfits
      closed := Nat.le_succ_of_le h.closed
      bound' := ?_
      mixed := h.mixed
      mixed' := h.mixed' }
  intro e he
  rcases List.mem_append.mp he with he | he
  · exact h.bound' e he
  · rw [List.mem_singleton.mp he]
    show n.root.step < step
    rw [← h.root_step']
    exact Nat.lt_succ_self _

/-- Keys that are set aside do not matter for the phase. -/
theorem Equal.setMissing (h : Equal step o n sentO sentN)
    (missingO missingN : ArrayVec (MessageId × SharedSecret) maxKeptMissingMessages) :
    Equal step { o with missingMessages := missingO } { n with missingMessages := missingN } sentO
      sentN :=
  { h with mixed := h.mixed, mixed' := h.mixed' }

theorem Ahead.setMissing (h : Ahead step o n sentO sentN)
    (missingO missingN : ArrayVec (MessageId × SharedSecret) maxKeptMissingMessages) :
    Ahead step { o with missingMessages := missingO } { n with missingMessages := missingN } sentO
      sentN :=
  { h with mixed := h.mixed, mixed' := h.mixed' }

variable {p : Party} {accepted : List (MessageHeader S)} {recorded : List MessageId}
  {message : MessageHeader S} {key : SharedSecret}

/-- The receiver behind a message of the chain that it is in. -/
def DoubleRatchet.advanced (n : DoubleRatchet S) (message : MessageHeader S)
    (missing : ArrayVec (MessageId × SharedSecret) maxKeptMissingMessages) : DoubleRatchet S :=
  { n with
    receiver := ⟨message.id.subStep + 1,
      stateAt (kdfSc S) n.receiver.root (message.id.subStep - n.receiver.step + 1)⟩
    missingMessages := missing }

/-- The chain is where it was, some keys on. -/
theorem Equal.equal_advanced (h : Equal step o n sentO sentN)
    (hlt : message.id.subStep < o.sender.step) (hsub : n.receiver.step ≤ message.id.subStep)
    (missing : ArrayVec (MessageId × SharedSecret) maxKeptMissingMessages) :
    Equal step o (n.advanced message missing) sentO sentN := by
  refine
    { h with
      receiver_le := hlt
      chain := ?_
      keys := ?_
      mixed := h.mixed
      mixed' := h.mixed' }
  · show o.sender.root = stateAt _ (stateAt _ _ _) (o.sender.step - (message.id.subStep + 1))
    rw [← stateAt_add, h.chain]
    congr 1
    omega
  · intro e he hstep
    obtain ⟨hlt', hkey⟩ := h.keys e he hstep
    refine ⟨hlt', ?_⟩
    intro hle
    have hle' : message.id.subStep + 1 ≤ e.1.id.subStep := hle
    show e.2 = keyAt _ (stateAt _ _ _) (e.1.id.subStep - (message.id.subStep + 1))
    rw [hkey (by omega), ← keyAt_add]
    congr 1
    omega

/-- The receiver accepts the message, and sets aside what it passed over. -/
theorem Equal.tracks_advanced (h : Equal step o n sentO sentN)
    (ht : Tracks p n sentO accepted recorded) (howner : owner step = p.other)
    (hstep : message.id.step = step) (hsub : n.receiver.step ≤ message.id.subStep)
    {missing : ArrayVec (MessageId × SharedSecret) maxKeptMissingMessages}
    (hkept : missing.toList = (n.missingMessages.toList ++ n.receiver.entries S n.root.step
      (message.id.subStep - n.receiver.step)).rtake maxKeptMissingMessages) :
    Tracks p (n.advanced message missing) sentO (accepted ++ [message])
        (recorded ++ (n.receiver.entries S n.root.step
          (message.id.subStep - n.receiver.step)).map Prod.fst) ∧
      frontier p (n.advanced message missing) = ⟨step, message.id.subStep + 1⟩ := by
  have hother : owner n.root.step = p.other := by rw [h.root_step, howner]
  have hbefore : frontier p n = ⟨step, n.receiver.step⟩ := by
    rw [frontier_of_other hother, h.root_step]
  have hafter : frontier p (n.advanced message missing) = ⟨step, message.id.subStep + 1⟩ := by
    rw [frontier_of_other (s := n.advanced message missing) hother]
    show (⟨n.root.step, message.id.subStep + 1⟩ : MessageId) = ⟨step, message.id.subStep + 1⟩
    rw [h.root_step]
  refine ⟨?_, hafter⟩
  -- what is passed over lies in the open chain, between the frontier and the message
  refine @Tracks.accept S p n (n.advanced message missing) sentO accepted recorded message ht _
    hkept ?_ ?_ ?_ ?_ ?_ ?_ ?_
  · rw [Chain.ids_entries]
    exact range_ordered _ _ _
  · intro i hi
    rw [Chain.ids_entries] at hi
    obtain ⟨j, hj, rfl⟩ := List.mem_map.mp hi
    obtain ⟨hge, hlt⟩ := List.mem_range'_1.mp hj
    have hroot := h.root_step
    rw [hbefore]
    simp only [MessageId.Before]
    omega
  · intro i hi
    rw [hbefore] at hi
    rw [hafter]
    simp only [MessageId.Before] at hi ⊢
    omega
  · intro entry hentry e he hid
    obtain ⟨j, hj, rfl⟩ := List.mem_map.mp hentry
    have hstep' : e.1.id.step = step := by rw [hid, h.root_step]
    have hsub' : e.1.id.subStep = n.receiver.step + j := by rw [hid]
    obtain ⟨-, hkey⟩ := h.keys e he hstep'
    rw [hkey (by omega), hsub', Nat.add_sub_cancel_left]
  · rw [hbefore]
    simp only [MessageId.Before]
    omega
  · rw [hafter]
    simp only [MessageId.Before]
    omega
  · intro e he hstep' hbefore'
    rw [hafter] at hstep' hbefore'
    rw [hbefore, Chain.ids_entries]
    simp only [MessageId.Before] at hstep' hbefore' ⊢
    -- in front of the old frontier, the message itself, or in between
    by_cases hold : e.1.id.subStep < n.receiver.step
    · exact .inl ⟨hstep', .inr ⟨hstep', hold⟩⟩
    · by_cases heq : e.1.id.subStep = message.id.subStep
      · refine .inr (.inl ?_)
        rw [MessageId.ext_iff]
        exact ⟨hstep'.trans hstep.symm, heq⟩
      · refine .inr (.inr (List.mem_map.mpr ⟨e.1.id.subStep, ?_, ?_⟩))
        · rw [List.mem_range'_1]
          omega
        · rw [MessageId.ext_iff]
          exact ⟨h.root_step.trans hstep'.symm, rfl⟩

/-- **A message of the current chain**, at or ahead of the next one: it is
accepted with its key. -/
theorem Equal.receive (h : Equal step o n sentO sentN)
    (ht : Tracks p n sentO accepted recorded) (howner : owner step = p.other)
    (he : (message, key) ∈ sentO) (hstep : message.id.step = step)
    (hsub : n.receiver.step ≤ message.id.subStep) (draws : Draws S) :
    ∃ n', n.recv message draws = (n', .ok key) ∧ Equal step o n' sentO sentN ∧
      Tracks p n' sentO (accepted ++ [message]) (recorded ++ n.skips message) ∧
      frontier p n' = ⟨step, message.id.subStep + 1⟩ ∧
      n'.keptIds = (n.keptIds ++ n.skips message).rtake maxKeptMissingMessages := by
  have hroot : message.id.step = n.root.step := hstep.trans h.root_step.symm
  obtain ⟨hlt, hkey⟩ : message.id.subStep < o.sender.step ∧ (n.receiver.step ≤ message.id.subStep →
      key = keyAt (kdfSc S) n.receiver.root (message.id.subStep - n.receiver.step)) :=
    h.keys _ he hstep
  have hshort : message.id.subStep < u32Max := Nat.lt_of_lt_of_le hlt h.short
  obtain ⟨missing, hrecv, hkept⟩ := DoubleRatchet.recvInChain_eq (s := n) hsub hshort
  have hskips : n.skips message = (n.receiver.entries S n.root.step
      (message.id.subStep - n.receiver.step)).map Prod.fst := by
    have hnlt : ¬ message.id.step < n.root.step := by omega
    rw [Chain.ids_entries, DoubleRatchet.skips, if_neg hnlt, if_pos hroot]
  obtain ⟨htracks, hafter⟩ := h.tracks_advanced ht howner hstep hsub hkept
  rw [DoubleRatchet.recv_inChain hroot hsub, hrecv, ← hkey hsub, hskips]
  exact ⟨n.advanced message missing, rfl, h.equal_advanced hlt hsub missing, htracks, hafter,
    keptIds_of_kept hkept⟩

/-- The ids of a header share its kyber part. -/
theorem Ahead.kyber (h : Ahead step o n sentO sentN) (he : (message, key) ∈ sentO)
    (hstep : message.id.step = step) :
    message.prevSubCount = o.prevSubCount ∧ message.x25519 = S.exchange.xPublic o.x25519 ∧
      message.kyber =
        if step % kyberPeriod = 0 then
          some { publicKey := (S.exchange.kyberGenerate o.kyber).1, cp := o.cp }
        else none := by
  obtain ⟨-, -, hheader⟩ := h.keys _ he hstep
  have hmessage : message = { o.header with id := message.id } := hheader
  refine ⟨congrArg MessageHeader.prevSubCount hmessage, congrArg MessageHeader.x25519 hmessage, ?_⟩
  rw [← h.root_step]
  exact congrArg MessageHeader.kyber hmessage

/-- The ciphertext that opens a chain is for its receiver. -/
theorem Ahead.mixed_of_period (h : Ahead step o n sentO sentN) (hperiod : step % kyberPeriod = 0) :
    Mixed o n := by
  apply h.mixed
  have hroot := h.root_step'
  have hdiv : n.root.step / kyberPeriod + 1 = step / kyberPeriod := by
    simp only [kyberPeriod] at *
    omega
  rw [hdiv]
  exact owner_div_period hperiod

/-- The receiver behind the first message of a new chain that it gets: what it mixed into
the root chain, what it drew, and the keys it set aside. -/
def DoubleRatchet.entered (n : DoubleRatchet S) (input : SharedSecret) (message : MessageHeader S)
    (draws : Draws S) (kyber : S.exchange.KyberSeed) (cp : S.exchange.KyberCiphertext)
    (ss : SharedSecret) (missing : ArrayVec (MessageId × SharedSecret) maxKeptMissingMessages) :
    DoubleRatchet S :=
  { n with
    x25519 := draws.x25519
    kyber := kyber
    cp := cp
    ss := ss
    prevSubCount := n.sender.step
    root := ⟨n.root.step + 1, (kdfRk S n.root.root input).1⟩
    receiver := ⟨message.id.subStep + 1,
      stateAt (kdfSc S) (kdfRk S n.root.root input).2 (message.id.subStep + 1)⟩
    receiverHash := S.blake3 (kdfRk S n.root.root input).2.toBytes
    sender := ⟨u32Max, S.exchange.diffieHellman draws.x25519 message.x25519⟩
    missingMessages := missing }

/-- The keys that are set aside on the way: the rest of the chain that is closed, and the
messages of the new one before the message. -/
def DoubleRatchet.passedOver (n : DoubleRatchet S) (input : SharedSecret)
    (message : MessageHeader S) : List (MessageId × SharedSecret) :=
  n.receiver.entries S n.root.step (message.prevSubCount - n.receiver.step) ++
    (Chain.ofRoot (kdfRk S n.root.root input).2).entries S (n.root.step + 1) message.id.subStep

/-- What `recv` makes of the first message of a new chain that it gets. -/
theorem Ahead.recv (h : Ahead step o n sentO sentN) (he : (message, key) ∈ sentO)
    (hstep : message.id.step = step) (draws : Draws S) :
    ∃ kyber cp ss missing,
      n.recv message draws =
        (n.entered (rachetInput o n step) message draws kyber cp ss missing, .ok key) ∧
      missing.toList = (n.missingMessages.toList ++
        n.passedOver (rachetInput o n step) message).rtake maxKeptMissingMessages ∧
      (message.kyber = none → kyber = n.kyber ∧ cp = n.cp ∧ ss = n.ss) ∧
      ∀ kyb, message.kyber = some kyb →
        (cp, ss) = S.exchange.kyberEncapsulate kyb.publicKey draws.rng := by
  obtain ⟨hprev, hx25519, hkyber⟩ := h.kyber he hstep
  obtain ⟨hlt, hkey, -⟩ : message.id.subStep < o.sender.step ∧
      key = keyAt (kdfSc S) (kdfRk S n.root.root (rachetInput o n step)).2 message.id.subStep ∧ _ :=
    h.keys _ he hstep
  have hroot := h.root_step'
  have hshort : message.id.subStep < u32Max := Nat.lt_of_lt_of_le hlt h.short
  have hrootlt : n.root.step < u32Max := by
    rw [← Nat.succ_le_iff, Nat.succ_eq_add_one, hroot]
    exact h.fits
  have hbehind : n.receiver.step ≤ message.prevSubCount := by
    rw [hprev]
    exact h.behind
  have hfits : n.receiver.step + (message.prevSubCount - n.receiver.step) ≤ u32Max := by
    have hprevlt := h.behind_short
    omega
  -- the chain before is closed
  obtain ⟨missing₁, hskip, hkept₁⟩ := DoubleRatchet.skipMessages_eq hfits
  let n₁ : DoubleRatchet S :=
    { n with
      receiver := ⟨n.receiver.step + (message.prevSubCount - n.receiver.step),
        stateAt (kdfSc S) n.receiver.root (message.prevSubCount - n.receiver.step)⟩
      missingMessages := missing₁ }
  have hadd : n.addMissingMessage message.prevSubCount = .ok n₁ := by
    rw [DoubleRatchet.addMissingMessage_eq hbehind, hskip]
  -- the new one is entered
  have hdecapsulate : ∀ kyb, message.kyber = some kyb →
      S.exchange.kyberDecapsulate kyb.cp (S.exchange.kyberGenerate n₁.kyber).2 = some o.ss := by
    intro kyb hkyb
    rw [hkyber] at hkyb
    split at hkyb
    · rename_i hperiod
      rw [← Option.some.inj hkyb]
      exact h.mixed_of_period hperiod
    · cases hkyb
  have hinput : rachetInput o n step =
      if message.kyber.isSome then
        S.exchange.diffieHellman n₁.x25519 message.x25519 ^^^ o.ss
      else S.exchange.diffieHellman n₁.x25519 message.x25519 := by
    rw [hkyber, hx25519, rachetInput]
    split <;> rfl
  obtain ⟨kyber, cp, ss, henter, hsame, hfresh⟩ :=
    DoubleRatchet.enterChain_eq draws (show n₁.root.step < u32Max from hrootlt) hdecapsulate hinput
  let χ := (kdfRk S n.root.root (rachetInput o n step)).2
  let n₂ : DoubleRatchet S :=
    { n₁ with
      x25519 := draws.x25519
      kyber := kyber
      cp := cp
      ss := ss
      prevSubCount := n.sender.step
      root := ⟨n.root.step + 1, (kdfRk S n.root.root (rachetInput o n step)).1⟩
      receiver := ⟨0, χ⟩
      receiverHash := S.blake3 χ.toBytes
      sender := ⟨u32Max, S.exchange.diffieHellman draws.x25519 message.x25519⟩ }
  have hzero : n₂.receiver.step ≤ message.id.subStep := Nat.zero_le _
  obtain ⟨missing₂, hrecv, hkept₂⟩ := DoubleRatchet.recvInChain_eq hzero hshort
  refine ⟨kyber, cp, ss, missing₂, ?_, ?_, hsame, hfresh⟩
  · rw [DoubleRatchet.recv_enter (by omega) hadd henter, hkey]
    exact hrecv
  · rw [hkept₂]
    show (missing₁.toList ++
      (Chain.ofRoot χ).entries S (n.root.step + 1) message.id.subStep).rtake _ = _
    rw [hkept₁, rtake_rtake_append, List.append_assoc]
    rfl

/-- Both parties have the same root chain again. -/
theorem Ahead.equal_entered (hex : S.exchange.Lawful) (h : Ahead step o n sentO sentN)
    (he : (message, key) ∈ sentO) (hstep : message.id.step = step) {draws : Draws S}
    {kyber : S.exchange.KyberSeed} {cp : S.exchange.KyberCiphertext} {ss : SharedSecret}
    (missing : ArrayVec (MessageId × SharedSecret) maxKeptMissingMessages)
    (hsame : message.kyber = none → kyber = n.kyber ∧ cp = n.cp ∧ ss = n.ss)
    (hfresh : ∀ kyb, message.kyber = some kyb →
      (cp, ss) = S.exchange.kyberEncapsulate kyb.publicKey draws.rng) :
    Equal step o (n.entered (rachetInput o n step) message draws kyber cp ss missing) sentO
      sentN := by
  obtain ⟨hprev, hx25519, hkyber⟩ := h.kyber he hstep
  obtain ⟨hlt, -, -⟩ : message.id.subStep < o.sender.step ∧ _ ∧ _ := h.keys _ he hstep
  have hroot := h.root_step'
  have htwo := h.two_le
  -- the chain that the receiver enters is the one the sender opened
  let χ := (kdfRk S n.root.root (rachetInput o n step)).2
  refine
    { two_le := by omega
      root_step := hroot
      root_eq := ?_
      short := h.short
      receiver_le := hlt
      chain := ?_
      guard := ?_
      closed := h.closed
      closed_short := h.short'
      bound := h.bound
      bound' := h.bound'
      keys := ?_
      mixed := ?_
      mixed' := ?_
      hashes := h.hashes }
  · show o.root = ⟨n.root.step + 1, (kdfRk S n.root.root (rachetInput o n step)).1⟩
    rw [← h.root_eq, hroot, ← h.root_step]
  · show o.sender.root = stateAt _ (stateAt _ χ _) (o.sender.step - (message.id.subStep + 1))
    rw [← stateAt_add, h.chain]
    congr 1
    omega
  · show (⟨u32Max, S.exchange.diffieHellman draws.x25519 message.x25519⟩ : Chain) =
      ⟨u32Max, S.exchange.diffieHellman draws.x25519 (S.exchange.xPublic o.x25519)⟩
    rw [hx25519]
  · intro e he' hstep'
    obtain ⟨hlt', hkey', -⟩ := h.keys e he' hstep'
    refine ⟨hlt', ?_⟩
    intro hle
    -- a message behind this one: its key is as many steps further on
    have hle' : message.id.subStep + 1 ≤ e.1.id.subStep := hle
    show e.2 = keyAt _ (stateAt _ χ _) (e.1.id.subStep - (message.id.subStep + 1))
    rw [hkey', ← keyAt_add]
    congr 1
    omega
  · intro hmix
    by_cases hperiod : step % kyberPeriod = 0
    · rw [owner_succ, owner_div_period hperiod] at hmix
      exact absurd hmix (owner step).other_ne
    · obtain ⟨rfl, rfl, rfl⟩ := hsame (hkyber.trans (if_neg hperiod))
      refine h.mixed ?_
      rw [div_period_of_not hroot hperiod]
      exact hmix
  · intro hmix
    by_cases hperiod : step % kyberPeriod = 0
    · -- a step of the period: the new shared secret is the one encapsulated for the sender
      have hencapsulate := hfresh _ (hkyber.trans (if_pos hperiod))
      have hpublic := hex.kyberPublic_generate o.kyber
      have hdecaps := hex.decapsulate_encapsulate (S.exchange.kyberGenerate o.kyber).2 draws.rng
      rw [hpublic, ← hencapsulate] at hdecaps
      exact hdecaps
    · obtain ⟨rfl, rfl, rfl⟩ := hsame (hkyber.trans (if_neg hperiod))
      refine h.mixed' ?_
      rw [div_period_of_not hroot hperiod]
      exact hmix

/-- The ids of what is set aside. -/
theorem Ahead.ids_passedOver (h : Ahead step o n sentO sentN) (input : SharedSecret)
    (message : MessageHeader S) :
    (n.passedOver input message).map Prod.fst =
      (List.range' n.receiver.step (message.prevSubCount - n.receiver.step)).map
          (⟨n.root.step, ·⟩) ++
        (List.range' 0 message.id.subStep).map (⟨step, ·⟩) := by
  rw [DoubleRatchet.passedOver, List.map_append, Chain.ids_entries, Chain.ids_entries,
    h.root_step']
  rfl

/-- The receiver accepts the message, and sets aside what it passed over. -/
theorem Ahead.tracks_entered (h : Ahead step o n sentO sentN)
    (ht : Tracks p n sentO accepted recorded) (howner : owner step = p.other)
    (hstep : message.id.step = step) {draws : Draws S}
    {kyber : S.exchange.KyberSeed} {cp : S.exchange.KyberCiphertext} {ss : SharedSecret}
    {missing : ArrayVec (MessageId × SharedSecret) maxKeptMissingMessages}
    (hkept : missing.toList = (n.missingMessages.toList ++
      n.passedOver (rachetInput o n step) message).rtake maxKeptMissingMessages) :
    Tracks p (n.entered (rachetInput o n step) message draws kyber cp ss missing) sentO
        (accepted ++ [message])
        (recorded ++ (n.passedOver (rachetInput o n step) message).map Prod.fst) ∧
      frontier p (n.entered (rachetInput o n step) message draws kyber cp ss missing) =
        ⟨step, message.id.subStep + 1⟩ := by
  have hroot := h.root_step'
  have htwo := h.two_le
  have hids := h.ids_passedOver (rachetInput o n step) message
  set n' := n.entered (rachetInput o n step) message draws kyber cp ss missing with hn'
  -- the chain that is closed is one's own: the next root belongs to the other party
  have hown : owner n.root.step = p := by
    have hnext := owner_succ n.root.step
    rw [hroot, howner] at hnext
    rw [← Party.other_other (owner n.root.step), ← hnext, Party.other_other]
  have hbefore := frontier_of_owner hown
  have hafter : frontier p n' = ⟨step, message.id.subStep + 1⟩ := by
    have hother : owner n'.root.step = p.other := by
      show owner (n.root.step + 1) = p.other
      rw [hroot, howner]
    rw [frontier_of_other hother]
    show (⟨n.root.step + 1, message.id.subStep + 1⟩ : MessageId) = ⟨step, message.id.subStep + 1⟩
    rw [hroot]
  refine ⟨?_, hafter⟩
  -- what is passed over: the rest of the closed chain, then the start of the new one
  refine @Tracks.accept S p n n' sentO accepted recorded message ht _ hkept ?_ ?_ ?_ ?_ ?_ ?_ ?_
  · rw [hids]
    refine List.pairwise_append.mpr ⟨range_ordered _ _ _, range_ordered _ _ _, ?_⟩
    intro a ha b hb
    obtain ⟨j, -, rfl⟩ := List.mem_map.mp ha
    obtain ⟨k, -, rfl⟩ := List.mem_map.mp hb
    exact .inl (by show n.root.step < step; omega)
  · intro i hi
    rw [hids] at hi
    rw [hbefore]
    rcases List.mem_append.mp hi with hi | hi
    · obtain ⟨j, hj, rfl⟩ := List.mem_map.mp hi
      simp only [MessageId.Before]
      omega
    · obtain ⟨j, hj, rfl⟩ := List.mem_map.mp hi
      obtain ⟨-, hlt'⟩ := List.mem_range'_1.mp hj
      simp only [MessageId.Before]
      omega
  · intro i hi
    rw [hbefore] at hi
    rw [hafter]
    simp only [MessageId.Before] at hi ⊢
    omega
  · intro entry hentry e he' hid
    rcases List.mem_append.mp hentry with hentry | hentry
    · -- a message of the chain that was closed would be one's own
      obtain ⟨j, -, rfl⟩ := List.mem_map.mp hentry
      have howned := ht.owned e he'
      rw [hid] at howned
      exact absurd (hown.symm.trans howned) p.other_ne.symm
    · obtain ⟨j, -, rfl⟩ := List.mem_map.mp hentry
      have hstep' : e.1.id.step = step := by
        rw [hid]
        exact hroot
      have hsub' : e.1.id.subStep = j := by
        rw [hid]
        exact Nat.zero_add j
      obtain ⟨-, hkey', -⟩ := h.keys e he' hstep'
      rw [hkey', hsub']
      rfl
  · rw [hbefore]
    simp only [MessageId.Before]
    omega
  · rw [hafter]
    simp only [MessageId.Before]
    omega
  · intro e he' hstep' hbefore'
    rw [hafter] at hstep' hbefore'
    simp only [MessageId.Before] at hstep' hbefore'
    -- a message in front of the new frontier is this one, or it was passed over
    refine .inr ?_
    by_cases heq : e.1.id.subStep = message.id.subStep
    · refine .inl ?_
      rw [MessageId.ext_iff]
      exact ⟨hstep'.trans hstep.symm, heq⟩
    · refine .inr ?_
      rw [hids]
      refine List.mem_append_right _ (List.mem_map.mpr ⟨e.1.id.subStep, ?_, ?_⟩)
      · rw [List.mem_range'_1]
        omega
      · rw [MessageId.ext_iff]
        exact ⟨hstep'.symm, rfl⟩

/-- **The first message of a new chain.** It is accepted with its key, whichever
message of the chain it is, and both parties have the same root chain again. -/
theorem Ahead.enter (hex : S.exchange.Lawful) (h : Ahead step o n sentO sentN)
    (ht : Tracks p n sentO accepted recorded) (howner : owner step = p.other)
    (he : (message, key) ∈ sentO) (hstep : message.id.step = step) (draws : Draws S) :
    ∃ n', n.recv message draws = (n', .ok key) ∧ Equal step o n' sentO sentN ∧
      Tracks p n' sentO (accepted ++ [message]) (recorded ++ n.skips message) ∧
      frontier p n' = ⟨step, message.id.subStep + 1⟩ ∧
      n'.keptIds = (n.keptIds ++ n.skips message).rtake maxKeptMissingMessages := by
  obtain ⟨kyber, cp, ss, missing, hrecv, hkept, hsame, hfresh⟩ := h.recv he hstep draws
  have hroot := h.root_step'
  have hskips : n.skips message =
      (n.passedOver (rachetInput o n step) message).map Prod.fst := by
    obtain ⟨hprev, -, -⟩ := h.kyber he hstep
    have hbehind : ¬ message.prevSubCount < n.receiver.step := by
      rw [hprev]
      exact Nat.not_lt.mpr h.behind
    have hnlt : ¬ message.id.step < n.root.step := by omega
    have hne : ¬ message.id.step = n.root.step := by omega
    rw [h.ids_passedOver, DoubleRatchet.skips, if_neg hnlt, if_neg hne, if_neg hbehind, hroot]
  obtain ⟨htracks, hfrontier⟩ := h.tracks_entered ht howner hstep hkept
  refine ⟨_, hrecv, h.equal_entered hex he hstep missing hsame hfresh, ?_, hfrontier, ?_⟩
  · rw [hskips]
    exact htracks
  · rw [hskips]
    exact keptIds_of_kept hkept

end OnionNetwork.Ratchet
