import OnionNetwork.Streaming.Swarm

/-!
# What holds of every node

`Inv`: an entry of the behaviour belongs to the peer of its connection, an established
connection has as many pending requests as its handler still answers (`Link.load`), and
every call of `create_stream` is recorded, queued or emitted. It holds after every step
that the swarm allows (`inv_step`), so `pending_requests` never underflows.
-/

namespace OnionNetwork.Streaming

open Lib

variable {Peer Stream : Type}

/-- The event answers a request. -/
def HEvent.IsOutgoing : HEvent Stream → Bool
  | .outgoing _ => true
  | .incoming _ => false

/-- The requests that the handler of a connection still answers. -/
def Link.load (link : Link Peer Stream) : Nat :=
  link.notified.sum + link.handler.toRequest + link.negotiating +
    link.handler.stream.countP (·.IsOutgoing) + link.channel.countP (·.IsOutgoing)

variable [DecidableEq Peer]

theorem mem_dials {b : Behaviour Peer Stream} {c : ConnectionId} :
    c ∈ b.dials ↔ ∃ p, .dial c p ∈ b.events := by
  unfold Behaviour.dials
  rw [List.mem_filterMap]
  constructor
  · rintro ⟨e, he, hid⟩
    cases e with
    | dial cid p =>
        cases hid
        exact ⟨p, he⟩
    | generateEvent e => cases hid
  · rintro ⟨p, hp⟩
    exact ⟨_, hp, rfl⟩

/-- Where the requests are: an entry belongs to the peer of its connection, and a
handler answers all that is pending. -/
structure Placed (b : Behaviour Peer Stream) (pool : FinMap ConnectionId (Phase Peer Stream))
    (n : ConnectionId) : Prop where
  entry_lt : ∀ {p c conn}, b.entry p c = some conn → c < n
  pool_lt : ∀ {c ph}, pool.lookup c = some ph → c < n
  dial_lt : ∀ {c p}, .dial c p ∈ b.events → c < n
  dial_pool : ∀ {c p}, .dial c p ∈ b.events → pool.lookup c = none
  dials_nodup : b.dials.Nodup
  owner_pool : ∀ {p c conn ph}, b.entry p c = some conn → pool.lookup c = some ph →
    ph.peer = some p
  owner_dial : ∀ {p q c conn}, b.entry p c = some conn → .dial c q ∈ b.events → q = p
  held : ∀ {c link}, pool.lookup c = some (.established link) →
    ∃ conn, b.entry link.peer c = some conn ∧ conn.pendingRequests = link.load

namespace Placed

variable {b : Behaviour Peer Stream} {pool : FinMap ConnectionId (Phase Peer Stream)}
  {n c pick : ConnectionId} {p : Peer} {conn : Connection}

theorem takeId (h : Placed b pool n) : Placed b pool (n + 1) :=
  { h with
    entry_lt := fun hentry => Nat.lt_succ_of_lt (h.entry_lt hentry)
    pool_lt := fun hpool => Nat.lt_succ_of_lt (h.pool_lt hpool)
    dial_lt := fun hdial => Nat.lt_succ_of_lt (h.dial_lt hdial) }

/-- A fresh id has no entry. -/
theorem entry_fresh (h : Placed b pool n) : b.entry p n = none := by
  cases hentry : b.entry p n with
  | none => rfl
  | some conn => exact absurd (h.entry_lt hentry) (Nat.lt_irrefl _)

theorem pool_fresh (h : Placed b pool n) : pool.lookup n = none := by
  cases hpool : pool.lookup n with
  | none => rfl
  | some ph => exact absurd (h.pool_lt hpool) (Nat.lt_irrefl _)

theorem dial_fresh (h : Placed b pool n) : .dial n p ∉ b.events :=
  fun hdial => Nat.lt_irrefl _ (h.dial_lt hdial)

/-- A connection leaves the pool. -/
theorem erase (h : Placed b pool n) : Placed b (pool.erase c) n := by
  have hlookup : ∀ {d ph}, (pool.erase c).lookup d = some ph → pool.lookup d = some ph := by
    intro d ph hd
    by_cases hdc : d = c
    · rw [hdc, AList.lookup_erase] at hd
      cases hd
    · rwa [AList.lookup_erase_ne hdc] at hd
  refine { h with pool_lt := ?_, dial_pool := ?_, owner_pool := ?_, held := ?_ }
  · intro d ph hd
    exact h.pool_lt (hlookup hd)
  · intro d q hdial
    cases hd : (pool.erase c).lookup d with
    | none => rfl
    | some ph =>
        have hbefore := hlookup hd
        rw [h.dial_pool hdial] at hbefore
        cases hbefore
  · intro q d conn ph hentry hd
    exact h.owner_pool hentry (hlookup hd)
  · intro d link hd
    exact h.held (hlookup hd)

/-- A connection of the pool is new or changes. -/
theorem insert (h : Placed b pool n) {ph : Phase Peer Stream} (hc : c < n)
    (hdial : ∀ p, .dial c p ∉ b.events)
    (howner : ∀ p conn, b.entry p c = some conn → ph.peer = some p)
    (hheld : ∀ link, ph = .established link →
      ∃ conn, b.entry link.peer c = some conn ∧ conn.pendingRequests = link.load) :
    Placed b (pool.insert c ph) n := by
  have hlookup : ∀ d, (pool.insert c ph).lookup d = if d = c then some ph else pool.lookup d := by
    intro d
    split
    · next heq => rw [heq, AList.lookup_insert]
    · next hne => rw [AList.lookup_insert_ne hne]
  refine { h with pool_lt := ?_, dial_pool := ?_, owner_pool := ?_, held := ?_ }
  · intro d ph' hd
    rw [hlookup] at hd
    split at hd
    · next heq => exact heq ▸ hc
    · exact h.pool_lt hd
  · intro d p hd
    rw [hlookup, if_neg, h.dial_pool hd]
    rintro rfl
    exact hdial p hd
  · intro p d conn ph' hentry hd
    rw [hlookup] at hd
    split at hd
    · next heq =>
        subst heq
        cases hd
        exact howner p conn hentry
    · exact h.owner_pool hentry hd
  · intro d link hd
    rw [hlookup] at hd
    split at hd
    · next heq =>
        subst heq
        exact hheld link (Option.some.inj hd)
    · exact h.held hd

/-- An entry is written. -/
theorem setEntry (h : Placed b pool n) (hc : c < n)
    (hpool : ∀ ph, pool.lookup c = some ph → ph.peer = some p)
    (hdial : ∀ q, .dial c q ∈ b.events → q = p)
    (hheld : ∀ link, pool.lookup c = some (.established link) →
      conn.pendingRequests = link.load) : Placed (b.setEntry p c conn) pool n := by
  refine { h with entry_lt := ?_, owner_pool := ?_, owner_dial := ?_, held := ?_ }
  · intro q d conn' hentry
    rw [Behaviour.entry_setEntry] at hentry
    split at hentry
    · next heq => exact heq.2 ▸ hc
    · exact h.entry_lt hentry
  · intro q d conn' ph hentry hd
    rw [Behaviour.entry_setEntry] at hentry
    split at hentry
    · next heq =>
        obtain ⟨rfl, rfl⟩ := heq
        exact hpool ph hd
    · exact h.owner_pool hentry hd
  · intro q q' d conn' hentry hd
    rw [Behaviour.entry_setEntry] at hentry
    split at hentry
    · next heq =>
        obtain ⟨rfl, rfl⟩ := heq
        exact hdial q' hd
    · exact h.owner_dial hentry hd
  · intro d link hd
    rw [Behaviour.entry_setEntry]
    split
    · next heq =>
        obtain ⟨_, rfl⟩ := heq
        exact ⟨conn, rfl, hheld link hd⟩
    · exact h.held hd

/-- The dials of the queue are among the ones before. -/
theorem setEvents (h : Placed b pool n) {events : List (ToSwarm Peer Stream)}
    (hdial : ∀ c p, .dial c p ∈ events → .dial c p ∈ b.events)
    (hnodup : (events.filterMap ToSwarm.dialId).Nodup) :
    Placed { b with events := events } pool n where
  entry_lt := h.entry_lt
  pool_lt := h.pool_lt
  dial_lt hd := h.dial_lt (hdial _ _ hd)
  dial_pool hd := h.dial_pool (hdial _ _ hd)
  dials_nodup := hnodup
  owner_pool := h.owner_pool
  owner_dial hentry hd := h.owner_dial hentry (hdial _ _ hd)
  held := h.held

/-- An event that is no dial is queued. -/
theorem generateEvent (h : Placed b pool n) (e : Event Peer Stream) :
    Placed { b with events := .generateEvent e :: b.events } pool n := by
  refine h.setEvents ?_ h.dials_nodup
  intro c p hd
  rcases List.mem_cons.mp hd with heq | hd
  · cases heq
  · exact hd

/-- The last event of the queue is taken. -/
theorem pop (h : Placed b pool n) {e : ToSwarm Peer Stream} {events : List (ToSwarm Peer Stream)}
    (hevents : b.events = e :: events) : Placed { b with events := events } pool n := by
  refine h.setEvents ?_ ?_
  · intro c p hd
    rw [hevents]
    exact List.mem_cons_of_mem _ hd
  · have hnodup := h.dials_nodup
    unfold Behaviour.dials at hnodup
    rw [hevents] at hnodup
    exact hnodup.sublist ((List.sublist_cons_self e events).filterMap _)

/-- A dial is in the queue once. -/
theorem dial_notMem_pop (h : Placed b pool n) {events : List (ToSwarm Peer Stream)} {q : Peer}
    (hevents : b.events = .dial c p :: events) : .dial c q ∉ events := by
  intro hq
  have hnodup := h.dials_nodup
  unfold Behaviour.dials at hnodup
  rw [hevents] at hnodup
  exact (List.nodup_cons.mp hnodup).1 (List.mem_filterMap.mpr ⟨_, hq, rfl⟩)

/-- A dial with an entry of its own. -/
theorem queueDial (h : Placed b pool n) (conn : Connection) :
    Placed { b.setEntry p n conn with events := .dial n p :: b.events } pool (n + 1) := by
  have hset : Placed (b.setEntry p n conn) pool (n + 1) := by
    refine h.takeId.setEntry (Nat.lt_succ_self n) ?_ ?_ ?_
    · intro ph hpool
      rw [h.pool_fresh] at hpool
      cases hpool
    · intro q hd
      exact absurd hd h.dial_fresh
    · intro link hpool
      rw [h.pool_fresh] at hpool
      cases hpool
  refine { hset with dial_lt := ?_, dial_pool := ?_, dials_nodup := ?_, owner_dial := ?_ }
  · intro c q hd
    rcases List.mem_cons.mp hd with heq | hd
    · cases heq
      exact Nat.lt_succ_self n
    · exact hset.dial_lt hd
  · intro c q hd
    rcases List.mem_cons.mp hd with heq | hd
    · cases heq
      exact h.pool_fresh
    · exact hset.dial_pool hd
  · refine List.nodup_cons.mpr ⟨?_, h.dials_nodup⟩
    intro hmem
    obtain ⟨q, hq⟩ := mem_dials.mp hmem
    exact h.dial_fresh hq
  · intro q q' c conn' hentry hd
    rcases List.mem_cons.mp hd with heq | hd
    · cases heq
      change (b.setEntry p n conn).entry q n = _ at hentry
      rw [Behaviour.entry_setEntry] at hentry
      split at hentry
      · next heq => exact heq.1.symm
      · rw [h.entry_fresh] at hentry
        cases hentry
    · exact hset.owner_dial hentry hd

/-- The requests of an entry go to another one, or they fail. -/
theorem release (h : Placed b pool n) (error : Error) (hpool : pool.lookup c = none) :
    Placed (b.release p c pick error) pool n := by
  have hback : ∀ {q d conn}, (b.release p c pick error).entry q d = some conn →
      ∃ old, b.entry q d = some old := by
    intro q d conn hentry
    rw [Behaviour.entry_release] at hentry
    split at hentry
    · cases hentry
    · obtain ⟨old, hold, _⟩ := Option.map_eq_some_iff.mp hentry
      exact ⟨old, hold⟩
  constructor
  · intro q d conn hentry
    obtain ⟨old, hold⟩ := hback hentry
    exact h.entry_lt hold
  · exact h.pool_lt
  · intro d q hd
    exact h.dial_lt (Behaviour.mem_events_release.mp hd)
  · intro d q hd
    exact h.dial_pool (Behaviour.mem_events_release.mp hd)
  · rw [Behaviour.dials_release]
    exact h.dials_nodup
  · intro q d conn ph hentry hd
    obtain ⟨old, hold⟩ := hback hentry
    exact h.owner_pool hold hd
  · intro q q' d conn hentry hd
    obtain ⟨old, hold⟩ := hback hentry
    exact h.owner_dial hold (Behaviour.mem_events_release.mp hd)
  · intro d link hd
    obtain ⟨conn, hentry, hload⟩ := h.held hd
    have hne : ¬ (link.peer = p ∧ d = c) := by
      rintro ⟨_, rfl⟩
      rw [hpool] at hd
      cases hd
    rw [Behaviour.entry_release, if_neg hne, hentry, Option.map_some]
    refine ⟨_, rfl, ?_⟩
    split
    · exact hload
    · exact hload

/-- A handler for a connection that is not in the pool. -/
theorem newHandler (h : Placed b pool n) (hc : c < n) (hpool : pool.lookup c = none)
    (hdial : ∀ q, .dial c q ∈ b.events → q = p) : Placed (b.newHandler p c).1 pool n := by
  refine h.setEntry hc ?_ hdial ?_
  · intro ph hd
    rw [hpool] at hd
    cases hd
  · intro link hd
    rw [hpool] at hd
    cases hd

end Placed

/-! ### Every step -/

/-- What holds of every node. -/
structure Inv (s : Node Peer Stream) : Prop where
  placed : Placed s.behaviour s.pool s.nextId
  conserved : ∀ p, s.created.count p =
    s.emitted.countP (·.IsOutgoing p) + (s.behaviour.recorded p + s.behaviour.queued p)
  running : s.panicked = false

variable {s : Node Peer Stream} {p : Peer} {c pick : ConnectionId}

theorem placed_init : Placed (Behaviour.new : Behaviour Peer Stream)
    (∅ : FinMap ConnectionId (Phase Peer Stream)) 0 where
  entry_lt h := by cases h
  pool_lt h := by cases h
  dial_lt h := by cases h
  dial_pool h := by cases h
  dials_nodup := List.nodup_nil
  owner_pool h := by cases h
  owner_dial h := by cases h
  held h := by cases h

theorem inv_init : Inv (Node.init : Node Peer Stream) := ⟨placed_init, fun _ => rfl, rfl⟩

/-- A step that takes the connections and the behaviour somewhere else. -/
theorem Inv.move (h : Inv s) {b : Behaviour Peer Stream}
    {pool : FinMap ConnectionId (Phase Peer Stream)} {n : ConnectionId} (hplaced : Placed b pool n)
    (hkept : ∀ p, b.recorded p + b.queued p = s.behaviour.recorded p + s.behaviour.queued p) :
    Inv { s with behaviour := b, pool := pool, nextId := n } where
  placed := hplaced
  conserved p := by
    show s.created.count p = s.emitted.countP _ + (b.recorded p + b.queued p)
    rw [hkept, h.conserved]
  running := h.running

/-- A link changes, but neither its peer nor its load. -/
theorem Inv.setLink (h : Inv s) {link new : Link Peer Stream}
    (hlink : s.pool.lookup c = some (.established link)) (hpeer : new.peer = link.peer)
    (hload : new.load = link.load) : Inv (s.setLink c new) := by
  refine h.move (h.placed.insert (h.placed.pool_lt hlink) ?_ ?_ ?_) fun _ => rfl
  · intro p hdial
    rw [h.placed.dial_pool hdial] at hlink
    cases hlink
  · intro p conn hentry
    have howner := h.placed.owner_pool hentry hlink
    rwa [Phase.peer, hpeer]
  · intro l hl
    cases hl
    rw [hpeer, hload]
    exact h.placed.held hlink

/-- The swarm handles an established connection. -/
theorem Inv.withLink (h : Inv s) {f : Link Peer Stream → Node Peer Stream}
    (hf : ∀ link, s.pool.lookup c = some (.established link) → Inv (f link)) :
    Inv (s.withLink c f) := by
  unfold Node.withLink
  split
  · next hlink => exact hf _ hlink
  · exact h

/-- The swarm handles a dial. -/
theorem Inv.withDial (h : Inv s) {f : Option Peer → Node Peer Stream}
    (hf : ∀ peer, s.pool.lookup c = some (.dialing peer) → Inv (f peer)) :
    Inv (s.withDial c f) := by
  unfold Node.withDial
  split
  · next hdial => exact hf _ hdial
  · exact h

/-- A dial fails for a reason of its own, or a connection ends. -/
theorem Inv.release (h : Inv s) (p : Peer) (c pick : ConnectionId) (error : Error) :
    Inv { s with
      behaviour := s.behaviour.release p c pick error
      pool := s.pool.erase c } :=
  h.move (h.placed.erase.release error (AList.lookup_erase c s.pool))
    fun _ => Behaviour.recorded_add_queued_release

theorem Inv.takeId (h : Inv s) : Inv { s with nextId := s.nextId + 1 } :=
  h.move h.placed.takeId fun _ => rfl

theorem Inv.createStream (h : Inv s) :
    Inv { s with
      behaviour := s.behaviour.createStream p pick s.nextId
      nextId := s.nextId + 1
      created := p :: s.created } where
  placed := by
    rcases s.behaviour.createStream_cases p pick s.nextId with
      ⟨id, conn, hnext, hcreate⟩ | ⟨hnext, hcreate⟩
    · have hentry := Behaviour.entry_of_next hnext
      have hlt := h.placed.entry_lt hentry
      show Placed (s.behaviour.createStream p pick s.nextId) s.pool (s.nextId + 1)
      rw [hcreate]
      refine h.placed.takeId.setEntry (Nat.lt_succ_of_lt hlt) ?_ ?_ ?_
      · intro ph hpool
        exact h.placed.owner_pool hentry hpool
      · intro q hdial
        exact h.placed.owner_dial hentry hdial
      · intro link hpool
        have howner := h.placed.owner_pool hentry hpool
        obtain ⟨conn', hconn, hload⟩ := h.placed.held hpool
        rw [Option.some.inj howner, hentry] at hconn
        cases hconn
        exact hload
    · show Placed (s.behaviour.createStream p pick s.nextId) s.pool (s.nextId + 1)
      rw [hcreate]
      exact h.placed.queueDial _
  conserved q := by
    have hkept := h.conserved q
    have hmore := s.behaviour.recorded_add_queued_createStream p pick s.nextId q
    have hcount : (p :: s.created).count q = s.created.count q + if q = p then 1 else 0 := by
      by_cases hq : q = p
      · rw [hq, List.count_cons_self, if_pos rfl]
      · rw [List.count_cons_of_ne (Ne.symm hq), if_neg hq, Nat.add_zero]
    show (p :: s.created).count q = s.emitted.countP _ +
      ((s.behaviour.createStream p pick s.nextId).recorded q +
        (s.behaviour.createStream p pick s.nextId).queued q)
    rw [hcount, hmore, hkept, Nat.add_assoc]
  running := h.running

/-- A handler is told about the new requests of its entry. -/
theorem Inv.notify (h : Inv s) {conn : Connection} (hentry : s.behaviour.entry p c = some conn) :
    Inv ({ s with
      behaviour := s.behaviour.setEntry p c ⟨conn.pendingRequests + conn.newRequests, 0⟩ }.notify c
        conn.newRequests) := by
  have hlt := h.placed.entry_lt hentry
  have hdial : ∀ q, .dial c q ∈ s.behaviour.events → q = p := fun q hq =>
    h.placed.owner_dial hentry hq
  have hkept : ∀ q, (s.behaviour.setEntry p c
      ⟨conn.pendingRequests + conn.newRequests, 0⟩).recorded q + s.behaviour.queued q =
        s.behaviour.recorded q + s.behaviour.queued q := fun q => by
    rw [Behaviour.recorded_notify hentry]
  unfold Node.notify Node.withLink
  split
  · next link hpool =>
      -- the connection is established: the requests are on the way to its handler
      have hpeer : link.peer = p := Option.some.inj (h.placed.owner_pool hentry hpool)
      obtain ⟨conn', hconn, hload⟩ := h.placed.held hpool
      rw [hpeer, hentry] at hconn
      cases hconn
      have hset : Placed (s.behaviour.setEntry p c
          ⟨conn.pendingRequests + conn.newRequests, 0⟩) (s.pool.erase c) s.nextId := by
        refine h.placed.erase.setEntry hlt ?_ hdial ?_
        · intro ph hd
          rw [AList.lookup_erase] at hd
          cases hd
        · intro link hd
          rw [AList.lookup_erase] at hd
          cases hd
      refine h.move (FinMap.insert_erase (m := s.pool) ▸ hset.insert hlt ?_ ?_ ?_) hkept
      · intro q hq
        rw [h.placed.dial_pool hq] at hpool
        cases hpool
      · intro q conn' hq
        rw [Behaviour.entry_setEntry] at hq
        split at hq
        · next heq => rw [Phase.peer, hpeer, heq.1]
        · have howner := h.placed.owner_pool hq hpool
          exact howner
      · intro l hl
        cases hl
        refine ⟨⟨conn.pendingRequests + conn.newRequests, 0⟩, ?_, ?_⟩
        · rw [hpeer, Behaviour.entry_setEntry, if_pos ⟨rfl, rfl⟩]
        · simp only [Link.load, List.sum_append, List.sum_singleton] at hload ⊢
          omega
  · next hpool =>
      -- no connection: the notification is lost, and the requests stay on the entry
      refine h.move (h.placed.setEntry hlt ?_ hdial ?_) hkept
      · intro ph hd
        exact h.placed.owner_pool hentry hd
      · intro link hd
        exact absurd hd (hpool link)

/-- A connection is established. -/
theorem Inv.establish (h : Inv s) (hc : c < s.nextId)
    (howner : ∀ q conn, s.behaviour.entry q c = some conn → q = p)
    (hdial : ∀ q, .dial c q ∉ s.behaviour.events) : Inv (s.establish c p) := by
  have hnew : Placed (s.behaviour.newHandler p c).1 (s.pool.erase c) s.nextId :=
    h.placed.erase.newHandler hc (AList.lookup_erase c s.pool) fun q hq => absurd hq (hdial q)
  refine h.move (FinMap.insert_erase (m := s.pool) ▸ hnew.insert hc hdial ?_ ?_) fun q => ?_
  · intro q conn hq
    rw [Behaviour.entry_newHandler] at hq
    split at hq
    · next heq => rw [Phase.peer, heq.1]
    · rw [Phase.peer, howner q conn hq]
  · intro link hl
    cases hl
    refine ⟨⟨s.behaviour.requests p c, 0⟩, ?_, ?_⟩
    · rw [Behaviour.entry_newHandler, if_pos ⟨rfl, rfl⟩]
    · show s.behaviour.requests p c = 0 + s.behaviour.requests p c + 0 + 0 + 0
      omega
  · rw [Behaviour.recorded_newHandler]
    rfl

theorem Inv.inbound (h : Inv s) (admission : Admission) : Inv (s.inbound p admission) := by
  cases admission with
  | accepted =>
      refine h.takeId.establish (Nat.lt_succ_self _) ?_ fun q => h.placed.dial_fresh
      intro q conn hq
      rw [h.placed.entry_fresh] at hq
      cases hq
  | deniedBefore => exact h.takeId
  | deniedAfter =>
      refine h.takeId.move (h.takeId.placed.newHandler (Nat.lt_succ_self _) h.placed.pool_fresh
        fun q hq => absurd hq h.placed.dial_fresh) fun q => ?_
      rw [Behaviour.recorded_newHandler]
      rfl

theorem Inv.outbound (h : Inv s) {known : Option Peer}
    (hpool : s.pool.lookup c = some (.dialing known)) (hknown : ∀ q, known = some q → q = p)
    (admission : Admission) : Inv (s.outbound c p pick admission) := by
  have hc := h.placed.pool_lt hpool
  have hdial : ∀ q, .dial c q ∉ s.behaviour.events := by
    intro q hq
    rw [h.placed.dial_pool hq] at hpool
    cases hpool
  cases admission with
  | accepted =>
      refine h.establish hc ?_ hdial
      intro q conn hq
      exact hknown q (h.placed.owner_pool hq hpool)
  | deniedBefore => exact h.release _ _ _ _
  | deniedAfter =>
      have hnew : Placed (s.behaviour.newHandler p c).1 (s.pool.erase c) s.nextId :=
        h.placed.erase.newHandler hc (AList.lookup_erase c s.pool) fun q hq => absurd hq (hdial q)
      refine h.move (hnew.release (.other .denied) (AList.lookup_erase c s.pool)) fun q => ?_
      refine Behaviour.recorded_add_queued_release.trans ?_
      rw [Behaviour.recorded_newHandler]
      rfl

/-- A dial leaves the queue. -/
theorem Inv.popDial (h : Inv s) {events : List (ToSwarm Peer Stream)}
    (hevents : s.behaviour.events = .dial c p :: events) (refused : Option DialError) :
    Inv ({ s with behaviour := { s.behaviour with events := events } }.dial c p refused pick) := by
  have hmem : .dial c p ∈ s.behaviour.events := hevents ▸ List.mem_cons_self
  have hnone := h.placed.dial_pool hmem
  have hpop : Inv { s with behaviour := { s.behaviour with events := events } } := by
    refine h.move (h.placed.pop hevents) fun q => ?_
    have hqueued : s.behaviour.queued q = events.countP (·.IsOutgoing q) := by
      unfold Behaviour.queued
      rw [hevents]
      exact List.countP_cons_of_neg Bool.false_ne_true
    rw [hqueued]
    rfl
  have hlast := fun q => h.placed.dial_notMem_pop hevents (q := q)
  unfold Node.dial
  split
  · cases refused with
    | none =>
        refine hpop.move (hpop.placed.insert (h.placed.dial_lt hmem) hlast ?_ ?_) fun _ => rfl
        · intro q conn hq
          rw [Phase.peer, h.placed.owner_dial hq hmem]
        · intro link hl
          cases hl
    | some error =>
        simp only [Behaviour.dialFailure]
        split
        · exact hpop
        · have hreleased := hpop.release p c pick (.other error)
          rwa [FinMap.erase_of_lookup_none hnone] at hreleased
  · exact hpop

theorem Inv.poll (h : Inv s) (entry : Peer × ConnectionId) (refused : Option DialError) :
    Inv (s.step (.poll entry refused pick)) := by
  unfold Node.step
  rcases s.behaviour.poll_cases entry with ⟨q, d, conn, hentry, hpoll⟩ | ⟨hevents, hpoll⟩ |
    ⟨e, events, hevents, hpoll⟩
  · simp only [hpoll]
    exact h.notify hentry
  · simp only [hpoll]
    exact h
  · simp only [hpoll]
    cases e with
    | dial d q => exact h.popDial hevents refused
    | generateEvent e =>
        refine ⟨h.placed.pop hevents, fun q => ?_, h.running⟩
        have hkept := h.conserved q
        unfold Behaviour.queued at hkept
        rw [hevents, List.countP_cons] at hkept
        show s.created.count q =
          (e :: s.emitted).countP _ + (s.behaviour.recorded q + events.countP _)
        have hsame : (ToSwarm.generateEvent e).IsOutgoing q = e.IsOutgoing q := rfl
        rw [hkept, List.countP_cons, hsame]
        omega

/-- An answer of the handler takes a pending request away, which is there. -/
theorem Inv.answer (h : Inv s) {link : Link Peer Stream} {result : Except Error Stream}
    {channel : List (HEvent Stream)} (hpool : s.pool.lookup c = some (.established link))
    (hchannel : link.channel = .outgoing result :: channel) :
    ∃ b, s.behaviour.onConnectionHandlerEvent link.peer c (.outgoing result) = some b ∧
      Inv ({ s with behaviour := b }.setLink c { link with channel := channel }) := by
  obtain ⟨conn, hentry, hload⟩ := h.placed.held hpool
  have hmore : link.load = { link with channel := channel }.load + 1 := by
    simp only [Link.load, hchannel]
    rw [List.countP_cons_of_pos rfl]
    omega
  have hlt := h.placed.pool_lt hpool
  refine ⟨_, Behaviour.onConnectionHandlerEvent_outgoing hentry (by omega), ?_⟩
  -- the entry without its connection, which is put back behind the change
  have hset : Placed (s.behaviour.setEntry link.peer c
      { conn with pendingRequests := conn.pendingRequests - 1 }) (s.pool.erase c) s.nextId := by
    refine h.placed.erase.setEntry hlt ?_ ?_ ?_
    · intro ph hd
      rw [AList.lookup_erase] at hd
      cases hd
    · intro q hq
      rw [h.placed.dial_pool hq] at hpool
      cases hpool
    · intro l hd
      rw [AList.lookup_erase] at hd
      cases hd
  have hanswer := hset.generateEvent (.outgoingStream link.peer result)
  refine h.move (FinMap.insert_erase (m := s.pool) ▸ hanswer.insert hlt ?_ ?_ ?_) fun q => ?_
  · intro q hq
    rcases List.mem_cons.mp hq with heq | hq
    · cases heq
    · rw [h.placed.dial_pool hq] at hpool
      cases hpool
  · intro q conn' hq
    change (s.behaviour.setEntry _ _ _).entry q c = _ at hq
    rw [Behaviour.entry_setEntry] at hq
    split at hq
    · next heq => rw [Phase.peer, heq.1]
    · have howner := h.placed.owner_pool hq hpool
      exact howner
  · intro l hl
    cases hl
    refine ⟨{ conn with pendingRequests := conn.pendingRequests - 1 }, ?_, ?_⟩
    · show (s.behaviour.setEntry _ _ _).entry _ c = _
      rw [Behaviour.entry_setEntry, if_pos ⟨rfl, rfl⟩]
    · show conn.pendingRequests - 1 = _
      omega
  · -- one request less is recorded, one more event is queued
    have hrecorded := s.behaviour.recorded_setEntry link.peer c
      { conn with pendingRequests := conn.pendingRequests - 1 }
    rw [Behaviour.requests_of_entry hentry] at hrecorded
    simp only [Connection.totalRequests] at hrecorded
    show (s.behaviour.setEntry _ _ _).recorded q + List.countP _ (_ :: s.behaviour.events) = _
    rw [List.countP_cons]
    unfold Behaviour.queued
    by_cases hq : q = link.peer
    · subst hq
      have hone : (ToSwarm.generateEvent (.outgoingStream link.peer result) :
          ToSwarm Peer Stream).IsOutgoing link.peer = true := decide_eq_true rfl
      rw [hone, if_pos rfl]
      omega
    · have hnone : (ToSwarm.generateEvent (.outgoingStream link.peer result) :
          ToSwarm Peer Stream).IsOutgoing q = false := decide_eq_false (Ne.symm hq)
      rw [hnone, if_neg Bool.false_ne_true, Behaviour.recorded_setEntry_of_ne hq]
      omega

theorem Inv.handlerEvent (h : Inv s) : Inv (s.step (.handlerEvent c)) := by
  refine h.withLink fun link hpool => ?_
  cases hchannel : link.channel with
  | nil => exact h
  | cons event channel =>
      cases event with
      | outgoing result =>
          obtain ⟨b, hb, hinv⟩ := h.answer hpool hchannel
          simp only [hb]
          exact hinv
      | incoming stream =>
          have hqueue : Inv { s with behaviour := { s.behaviour with
              events := .generateEvent (.incomingStream link.peer stream) ::
                s.behaviour.events } } := by
            refine h.move (h.placed.generateEvent _) fun q => ?_
            have hqueued : List.countP (·.IsOutgoing q)
                (ToSwarm.generateEvent (.incomingStream link.peer stream) :: s.behaviour.events) =
                  s.behaviour.queued q := List.countP_cons_of_neg Bool.false_ne_true
            exact congrArg _ hqueued
          refine hqueue.setLink hpool rfl ?_
          simp only [Link.load, hchannel]
          rw [List.countP_cons_of_neg Bool.false_ne_true]

/-- **Every step** that the swarm allows keeps the requests where they belong. -/
theorem inv_step (h : Inv s) {a : Action Peer Stream} (ha : s.Allowed a) : Inv (s.step a) := by
  cases a with
  | createStream peer pick => exact h.createStream
  | poll entry refused pick => exact h.poll entry refused
  | dial peer =>
      refine h.move (h.placed.takeId.insert (Nat.lt_succ_self _) ?_ ?_ ?_) fun _ => rfl
      · exact fun q => h.placed.dial_fresh
      · intro q conn hq
        rw [h.placed.entry_fresh] at hq
        cases hq
      · intro link hl
        cases hl
  | dialFailed cid error pick =>
      refine h.withDial fun peer _ => ?_
      cases peer with
      | none => exact h.move h.placed.erase fun _ => rfl
      | some peer =>
          -- the swarm allows no such failure of a dial that is under way
          have hreason : error ≠ .dialPeerConditionFalse := ha
          simp only [Behaviour.dialFailure, if_neg hreason]
          exact h.release _ _ _ _
  | inbound peer admission => exact h.inbound admission
  | outbound cid peer admission pick =>
      refine h.withDial fun known hpool => h.outbound hpool ?_ admission
      rintro q rfl
      exact ha q hpool
  | deliver cid =>
      refine h.withLink fun link hpool => ?_
      cases hnotified : link.notified with
      | nil => exact h
      | cons requests notified =>
          refine h.setLink hpool rfl ?_
          -- requests move along the link; its load counts them wherever they are
          simp only [Link.load, Handler.onBehaviourEvent, hnotified, List.sum_cons]
          omega
  | handlerPoll cid =>
      refine h.withLink fun link hpool => ?_
      rcases link.handler.poll_cases with hpoll | ⟨e, stream, hstream, hpoll⟩ | ⟨n, hn, hpoll⟩
      · rw [hpoll]
        exact h
      · rw [hpoll]
        refine h.setLink hpool rfl ?_
        simp only [Link.load, hstream, List.countP_append, List.countP_nil, List.countP_cons]
        omega
      · rw [hpoll]
        refine h.setLink hpool rfl ?_
        simp only [Link.load, hn]
        omega
  | negotiated cid result =>
      refine h.withLink fun link hpool => ?_
      cases hnegotiating : link.negotiating with
      | zero => exact h
      | succ n =>
          refine h.setLink hpool rfl ?_
          simp only [Link.load, Handler.onConnectionEvent, hnegotiating]
          rw [List.countP_cons_of_pos rfl]
          omega
  | incoming cid stream =>
      refine h.withLink fun link hpool => h.setLink hpool rfl ?_
      simp only [Link.load, Handler.onConnectionEvent]
      rw [List.countP_cons_of_neg Bool.false_ne_true]
  | handlerEvent cid => exact h.handlerEvent
  | closed cid pick => exact h.withLink fun link _ => h.release _ _ _ _

end OnionNetwork.Streaming
