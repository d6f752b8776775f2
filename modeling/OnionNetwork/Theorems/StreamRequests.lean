import OnionNetwork.Streaming.Invariant

/-!
# Stream requests and their connections

`requests_settled_iff`: along every run that the swarm allows, requests are recorded
only for connections that are established or being dialed, exactly as long as every
step is `Careful`: no dial with requests ends with `DialPeerConditionFalse`, and no
request is put on an entry without a connection, which a denied inbound connection and
such a dial leave behind. The count of the requests is right in every run, and
`pending_requests` never underflows.
-/

namespace OnionNetwork.Streaming

open Lib

variable {Peer Stream : Type}

/-! ### Connections that are established or being dialed -/

/-- The connection is established with the peer, or the peer is being dialed. -/
def Alive (pool : FinMap ConnectionId (Phase Peer Stream))
    (events : List (ToSwarm Peer Stream)) (p : Peer) (c : ConnectionId) : Prop :=
  (∃ ph, pool.lookup c = some ph ∧ ph.peer = some p) ∨ .dial c p ∈ events

section Alive

variable {pool : FinMap ConnectionId (Phase Peer Stream)} {events : List (ToSwarm Peer Stream)}
  {p q : Peer} {c d : ConnectionId}

theorem alive_insert_of_ne {ph : Phase Peer Stream} (h : d ≠ c) :
    Alive (pool.insert c ph) events q d ↔ Alive pool events q d := by
  unfold Alive
  rw [AList.lookup_insert_ne h]

theorem alive_erase_of_ne (h : d ≠ c) :
    Alive (pool.erase c) events q d ↔ Alive pool events q d := by
  unfold Alive
  rw [AList.lookup_erase_ne h]

theorem alive_insert_self {ph : Phase Peer Stream} (h : ph.peer = some p) :
    Alive (pool.insert c ph) events p c :=
  .inl ⟨ph, AList.lookup_insert pool, h⟩

/-- A link changes, but not its peer. -/
theorem alive_setLink {link new : Link Peer Stream}
    (hlink : pool.lookup c = some (.established link)) (hpeer : new.peer = link.peer) :
    Alive (pool.insert c (.established new)) events q d ↔ Alive pool events q d := by
  by_cases h : d = c
  · subst h
    unfold Alive
    rw [AList.lookup_insert, hlink]
    simp [Phase.peer, hpeer]
  · exact alive_insert_of_ne h

theorem alive_generateEvent {e : Event Peer Stream} :
    Alive pool (.generateEvent e :: events) q d ↔ Alive pool events q d := by
  unfold Alive
  simp

theorem alive_popDial_of_ne (h : d ≠ c) :
    Alive pool (.dial c p :: events) q d ↔ Alive pool events q d := by
  unfold Alive
  simp [h]

theorem alive_release [DecidableEq Peer] {b : Behaviour Peer Stream}
    {pick : ConnectionId} {error : Error} :
    Alive pool (b.release p c pick error).events q d ↔ Alive pool b.events q d := by
  unfold Alive
  rw [Behaviour.mem_events_release]

end Alive

variable [DecidableEq Peer]

/-! ### Orphans -/

/-- Every entry with requests is alive. -/
def NoOrphan (b : Behaviour Peer Stream) (A : Peer → ConnectionId → Prop) : Prop :=
  ∀ p c, 0 < b.requests p c → A p c

section Orphan

variable {b : Behaviour Peer Stream} {A B : Peer → ConnectionId → Prop} {p q : Peer}
  {c d pick : ConnectionId} {conn : Connection}

theorem requests_setEntry :
    (b.setEntry p c conn).requests q d =
      if q = p ∧ d = c then conn.totalRequests else b.requests q d := by
  unfold Behaviour.requests
  rw [Behaviour.entry_setEntry]
  split
  · rfl
  · rfl

/-- An entry is written: it must be alive where it has requests. -/
theorem noOrphan_setEntry_iff (conn : Connection) (h : NoOrphan b A)
    (hA : ∀ q d, d ≠ c → (B q d ↔ A q d))
    (hother : ∀ q, q ≠ p → 0 < b.requests q c → A q c → B q c) :
    NoOrphan (b.setEntry p c conn) B ↔ (0 < conn.totalRequests → B p c) := by
  constructor
  · intro hno hpos
    refine hno p c ?_
    rwa [requests_setEntry, if_pos ⟨rfl, rfl⟩]
  · intro hsafe q d hd
    rw [requests_setEntry] at hd
    split at hd
    · next heq =>
        obtain ⟨rfl, rfl⟩ := heq
        exact hsafe hd
    · next hne =>
        by_cases hdc : d = c
        · subst hdc
          exact hother q (fun hq => hne ⟨hq, rfl⟩) hd (h q d hd)
        · exact (hA q d hdc).mpr (h q d hd)

theorem entry_of_heir (h : b.heir p c pick = some d) : d ≠ c ∧ ∃ conn, b.entry p d = some conn := by
  rcases b.release_cases p c pick .connectionReset with
    ⟨_, hnone, _⟩ | ⟨id, other, hsome, hother, _⟩ | ⟨hnone, _, _⟩
  · rw [h] at hnone
    cases hnone
  · rw [h] at hsome
    cases hsome
    rw [Behaviour.entry_removeEntry] at hother
    split at hother
    · cases hother
    · next hne => exact ⟨fun heq => hne ⟨rfl, heq⟩, other, hother⟩
  · rw [h] at hnone
    cases hnone

/-- The requests of a released entry go to its heir. -/
theorem requests_release {error : Error} :
    (b.release p c pick error).requests q d =
      if q = p ∧ d = c then 0
      else b.requests q d + if q = p ∧ b.heir p c pick = some d then b.requests p c else 0 := by
  unfold Behaviour.requests
  rw [Behaviour.entry_release]
  split
  · rfl
  · cases hentry : b.entry q d with
    | some conn =>
        rw [Option.map_some, Option.getD_some, Option.getD_some]
        split
        · show conn.pendingRequests + (conn.newRequests + b.requests p c) = _
          exact (Nat.add_assoc _ _ _).symm
        · exact (Nat.add_zero _).symm
    | none =>
        rw [if_neg]
        · rfl
        · rintro ⟨rfl, hheir⟩
          obtain ⟨_, conn, hconn⟩ := entry_of_heir hheir
          rw [hentry] at hconn
          cases hconn

/-- An entry is released: its heir must be alive where it has requests. -/
theorem noOrphan_release_iff (pick : ConnectionId) (error : Error) (h : NoOrphan b A)
    (hA : ∀ q d, d ≠ c → (B q d ↔ A q d))
    (hother : ∀ q, q ≠ p → 0 < b.requests q c → A q c → B q c) :
    NoOrphan (b.release p c pick error) B ↔
      (0 < b.requests p c → ∀ d, b.heir p c pick = some d → A p d) := by
  constructor
  · intro hno hpos d hheir
    have hdc := (entry_of_heir hheir).1
    refine (hA p d hdc).mp (hno p d ?_)
    rw [requests_release, if_neg fun heq => hdc heq.2, if_pos ⟨rfl, hheir⟩]
    omega
  · intro hsafe q d hd
    rw [requests_release] at hd
    split at hd
    · exact absurd hd (Nat.lt_irrefl _)
    · next hne =>
        by_cases hdc : d = c
        · subst hdc
          have hq : q ≠ p := fun hq => hne ⟨hq, rfl⟩
          rw [if_neg fun heq => hq heq.1, Nat.add_zero] at hd
          exact hother q hq hd (h q d hd)
        · refine (hA q d hdc).mpr ?_
          by_cases hheir : q = p ∧ b.heir p c pick = some d
          · obtain ⟨rfl, hheir'⟩ := hheir
            by_cases hpos : 0 < b.requests q c
            · exact hsafe hpos d hheir'
            · rw [if_pos ⟨rfl, hheir'⟩, Nat.eq_zero_of_not_pos hpos, Nat.add_zero] at hd
              exact h q d hd
          · rw [if_neg hheir, Nat.add_zero] at hd
            exact h q d hd

end Orphan

/-! ### Careful steps -/

namespace Node

/-- The connection is established with the peer, or the peer is being dialed. -/
def IsAlive (s : Node Peer Stream) : Peer → ConnectionId → Prop :=
  Alive s.pool s.behaviour.events

/-- The requests of an entry that is released, if there are any, go to a connection. -/
def SafeRelease (s : Node Peer Stream) (p : Peer) (c pick : ConnectionId) : Prop :=
  0 < s.behaviour.requests p c → ∀ d, s.behaviour.heir p c pick = some d → s.IsAlive p d

/-- A step puts requests only on entries of connections, and no dial with requests ends
with `DialPeerConditionFalse`. -/
def Careful (s : Node Peer Stream) : Action Peer Stream → Prop
  | .createStream p pick => ∀ c conn, s.behaviour.next p pick = some (c, conn) → s.IsAlive p c
  | .poll entry refused pick => ∀ c p, (s.behaviour.poll entry).1 = .event (.dial c p) →
      if s.mayDial p then refused ≠ none → s.SafeRelease p c pick
      else s.behaviour.requests p c = 0
  | .dialFailed c _ pick => ∀ p, s.pool.lookup c = some (.dialing (some p)) →
      s.SafeRelease p c pick
  | .outbound c p admission pick => ∀ known, s.pool.lookup c = some (.dialing known) →
      admission ≠ .accepted → s.SafeRelease p c pick
  | .closed c pick => ∀ link, s.pool.lookup c = some (.established link) →
      s.SafeRelease link.peer c pick
  | _ => True

/-- Every entry with requests is alive. -/
def HasNoOrphan (s : Node Peer Stream) : Prop := NoOrphan s.behaviour s.IsAlive

end Node

section Step

variable {s : Node Peer Stream} {p q : Peer} {c d pick : ConnectionId}

/-- Only the peer of a connection has requests for it. -/
theorem Placed.requests_of_pool {b : Behaviour Peer Stream}
    {pool : FinMap ConnectionId (Phase Peer Stream)} {n : ConnectionId} {ph : Phase Peer Stream}
    (h : Placed b pool n) (hpool : pool.lookup c = some ph) (hq : ph.peer ≠ some q) :
    b.requests q c = 0 := by
  cases hentry : b.entry q c with
  | none => exact Behaviour.requests_of_none hentry
  | some conn => exact absurd (h.owner_pool hentry hpool) hq

theorem Placed.requests_of_dial {b : Behaviour Peer Stream}
    {pool : FinMap ConnectionId (Phase Peer Stream)} {n : ConnectionId}
    (h : Placed b pool n) (hdial : .dial c p ∈ b.events) (hq : q ≠ p) :
    b.requests q c = 0 := by
  cases hentry : b.entry q c with
  | none => exact Behaviour.requests_of_none hentry
  | some conn => exact absurd (h.owner_dial hentry hdial).symm hq

theorem createStream_iff (h : Inv s) (hno : s.HasNoOrphan) :
    (s.step (.createStream p pick)).HasNoOrphan ↔ s.Careful (.createStream p pick) := by
  show NoOrphan (s.behaviour.createStream p pick s.nextId)
    (Alive s.pool (s.behaviour.createStream p pick s.nextId).events) ↔ _
  rcases s.behaviour.createStream_cases p pick s.nextId with
    ⟨id, conn, hnext, hcreate⟩ | ⟨hnext, hcreate⟩
  · rw [hcreate]
    refine (noOrphan_setEntry_iff _ hno (fun _ _ _ => Iff.rfl) fun _ _ _ hq => hq).trans ?_
    constructor
    · intro hsafe c' conn' hnext'
      rw [hnext] at hnext'
      cases hnext'
      exact hsafe (by simp only [Connection.totalRequests]; omega)
    · intro hcareful _
      exact hcareful id conn hnext
  · -- a new entry comes with its dial
    rw [hcreate]
    refine (noOrphan_setEntry_iff (b := s.behaviour) (p := p) ⟨0, 1⟩ hno
      (fun q d hd => alive_popDial_of_ne hd) ?_).trans ?_
    · intro q _ hq hqa
      rcases hqa with ⟨ph, hpool, _⟩ | hdial
      · rw [h.placed.pool_fresh] at hpool
        cases hpool
      · exact .inr (List.mem_cons_of_mem _ hdial)
    · refine iff_of_true (fun _ => .inr List.mem_cons_self) ?_
      intro c' conn' hnext'
      rw [hnext] at hnext'
      cases hnext'

/-- A step that changes neither the requests nor the connections. -/
theorem hasNoOrphan_of_same {t : Node Peer Stream} (hno : s.HasNoOrphan)
    (hrequests : ∀ q d, t.behaviour.requests q d = s.behaviour.requests q d)
    (halive : ∀ q d, t.IsAlive q d ↔ s.IsAlive q d) : t.HasNoOrphan := by
  intro q d hd
  rw [hrequests] at hd
  exact (halive q d).mpr (hno q d hd)

/-- A connection that is released, from the pool or from the queue. -/
theorem release_iff (hno : s.HasNoOrphan) {error : Error}
    (hother : ∀ q, q ≠ p → s.behaviour.requests q c = 0) :
    Node.HasNoOrphan { s with
      behaviour := s.behaviour.release p c pick error
      pool := s.pool.erase c } ↔ s.SafeRelease p c pick := by
  refine noOrphan_release_iff pick error hno ?_ ?_
  · intro q d hd
    exact alive_release.trans (alive_erase_of_ne hd)
  · intro q hq hpos
    rw [hother q hq] at hpos
    exact absurd hpos (Nat.lt_irrefl _)

theorem hasNoOrphan_notify (hno : s.HasNoOrphan) {conn : Connection}
    (hentry : s.behaviour.entry p c = some conn) :
    ({ s with
      behaviour := s.behaviour.setEntry p c ⟨conn.pendingRequests + conn.newRequests, 0⟩ }.notify c
        conn.newRequests).HasNoOrphan := by
  have hrequests : ∀ q d, (s.behaviour.setEntry p c
      ⟨conn.pendingRequests + conn.newRequests, 0⟩).requests q d = s.behaviour.requests q d := by
    intro q d
    rw [requests_setEntry]
    split
    · next heq => rw [heq.1, heq.2, Behaviour.requests_of_entry hentry]; rfl
    · rfl
  unfold Node.notify Node.withLink
  split
  · next link hpool =>
      exact hasNoOrphan_of_same hno hrequests fun q d => alive_setLink hpool rfl
  · exact hasNoOrphan_of_same hno hrequests fun _ _ => Iff.rfl

/-- A dial that leaves the queue is dialed, or its entry is released or left behind. -/
theorem popDial_iff (h : Inv s) (hno : s.HasNoOrphan) {events : List (ToSwarm Peer Stream)}
    (hevents : s.behaviour.events = .dial c p :: events) {refused : Option DialError}
    (hrefused : refused ≠ some .dialPeerConditionFalse) :
    ({ s with behaviour := { s.behaviour with events := events } }.dial c p refused
        pick).HasNoOrphan ↔
      if s.mayDial p then refused ≠ none → s.SafeRelease p c pick
      else s.behaviour.requests p c = 0 := by
  have hmem : .dial c p ∈ s.behaviour.events := hevents ▸ List.mem_cons_self
  have hnone := h.placed.dial_pool hmem
  have hother : ∀ q, q ≠ p → s.behaviour.requests q c = 0 := fun q hq =>
    h.placed.requests_of_dial hmem hq
  have hpop : ∀ q d, d ≠ c → (Alive s.pool events q d ↔ s.IsAlive q d) := by
    intro q d hd
    unfold Node.IsAlive
    rw [hevents]
    exact (alive_popDial_of_ne hd).symm
  have hmay : Node.mayDial { s with behaviour := { s.behaviour with events := events } } p =
      s.mayDial p := rfl
  unfold Node.dial
  rw [hmay]
  split
  · cases refused with
    | none =>
        refine iff_of_true ?_ fun hrefused => absurd rfl hrefused
        intro q d hd
        -- the dial is in progress: the entry has it as its connection
        by_cases hdc : d = c
        · subst hdc
          by_cases hq : q = p
          · subst hq
            exact alive_insert_self rfl
          · have hzero := hother q hq
            exact absurd (hzero ▸ hd) (Nat.lt_irrefl _)
        · exact (alive_insert_of_ne hdc).mpr ((hpop q d hdc).mpr (hno q d hd))
    | some error =>
        -- the dial failed at once, and its entry is released
        have hreason : error ≠ .dialPeerConditionFalse := fun heq => hrefused (heq ▸ rfl)
        simp only [Behaviour.dialFailure, if_neg hreason]
        have hiff := noOrphan_release_iff (b := { s.behaviour with events := events }) (p := p)
          (c := c) (B := Alive s.pool (Behaviour.release { s.behaviour with events := events } p c
            pick (.other error)).events) pick (.other error) hno ?_ ?_
        · refine hiff.trans ?_
          simp only [ne_eq, reduceCtorEq, not_false_eq_true, true_implies]
          rfl
        · intro q d hd
          exact alive_release.trans (hpop q d hd)
        · intro q hq hpos
          have hzero := hother q hq
          exact absurd (hzero ▸ hpos) (Nat.lt_irrefl _)
  · constructor
    · intro hno'
      -- no dial: the entry stays behind, which is fine only where nothing is recorded on it
      by_contra hpos
      rcases hno' p c (Nat.pos_of_ne_zero hpos) with ⟨ph, hpool, _⟩ | hdial
      · have hpool' : s.pool.lookup c = some ph := hpool
        rw [hnone] at hpool'
        cases hpool'
      · exact h.placed.dial_notMem_pop hevents hdial
    · intro hzero q d hd
      by_cases hdc : d = c
      · subst hdc
        by_cases hq : q = p
        · subst hq
          exact absurd (hzero ▸ hd) (Nat.lt_irrefl _)
        · have hzero' := hother q hq
          exact absurd (hzero' ▸ hd) (Nat.lt_irrefl _)
      · exact (hpop q d hdc).mpr (hno q d hd)

theorem poll_iff (h : Inv s) (hno : s.HasNoOrphan) {entry : Peer × ConnectionId}
    {refused : Option DialError} (hrefused : refused ≠ some .dialPeerConditionFalse) :
    (s.step (.poll entry refused pick)).HasNoOrphan ↔ s.Careful (.poll entry refused pick) := by
  unfold Node.step Node.Careful
  rcases s.behaviour.poll_cases entry with ⟨q, d, conn, hentry, hpoll⟩ | ⟨hevents, hpoll⟩ |
    ⟨e, events, hevents, hpoll⟩
  · simp only [hpoll]
    refine iff_of_true (hasNoOrphan_notify hno hentry) ?_
    intro c p heq
    cases heq
  · simp only [hpoll]
    refine iff_of_true hno ?_
    intro c p heq
    cases heq
  · simp only [hpoll]
    cases e with
    | dial d q =>
        refine (popDial_iff h hno hevents hrefused).trans ⟨?_, ?_⟩
        · intro hsafe c p heq
          cases heq
          exact hsafe
        · intro hcareful
          exact hcareful d q rfl
    | generateEvent e =>
        refine iff_of_true (hasNoOrphan_of_same hno (fun _ _ => rfl) ?_) ?_
        · intro q d
          unfold Node.IsAlive
          rw [hevents]
          exact alive_generateEvent.symm
        · intro c p heq
          cases heq

/-- A new connection is alive. -/
theorem hasNoOrphan_establish (hno : s.HasNoOrphan)
    (hother : ∀ q, q ≠ p → s.behaviour.requests q c = 0) : (s.establish c p).HasNoOrphan := by
  refine (noOrphan_setEntry_iff _ hno ?_ ?_).mpr fun _ => alive_insert_self rfl
  · intro q d hd
    exact alive_insert_of_ne hd
  · intro q hq hpos
    have hzero := hother q hq
    exact absurd (hzero ▸ hpos) (Nat.lt_irrefl _)

theorem Placed.requests_fresh {b : Behaviour Peer Stream}
    {pool : FinMap ConnectionId (Phase Peer Stream)} {n : ConnectionId} (h : Placed b pool n) :
    b.requests q n = 0 := Behaviour.requests_of_none h.entry_fresh

theorem hasNoOrphan_inbound (h : Inv s) (hno : s.HasNoOrphan) (admission : Admission) :
    (s.inbound p admission).HasNoOrphan := by
  cases admission with
  | accepted =>
      exact hasNoOrphan_establish (s := { s with nextId := s.nextId + 1 }) hno
        fun q _ => h.placed.requests_fresh
  | deniedBefore => exact hno
  | deniedAfter =>
      refine (noOrphan_setEntry_iff _ hno (fun _ _ _ => Iff.rfl)
        fun _ _ _ hq => hq).mpr fun hpos => ?_
      have hzero := h.placed.requests_fresh (q := p)
      exact absurd (hzero ▸ hpos) (Nat.lt_irrefl _)

theorem requests_newHandler_eq {b : Behaviour Peer Stream} :
    (b.newHandler p c).1.requests q d = b.requests q d := by
  refine requests_setEntry.trans ?_
  split
  · next heq =>
      rw [heq.1, heq.2]
      rfl
  · rfl

theorem outbound_iff (h : Inv s) (hno : s.HasNoOrphan) {known : Option Peer}
    (hpool : s.pool.lookup c = some (.dialing known)) (hknown : ∀ q, known = some q → q = p)
    (admission : Admission) :
    (s.outbound c p pick admission).HasNoOrphan ↔
      (admission ≠ .accepted → s.SafeRelease p c pick) := by
  have hother : ∀ q, q ≠ p → s.behaviour.requests q c = 0 := by
    intro q hq
    refine h.placed.requests_of_pool hpool ?_
    intro hpeer
    exact hq (hknown q hpeer)
  cases admission with
  | accepted => exact iff_of_true (hasNoOrphan_establish hno hother) fun hne => absurd rfl hne
  | deniedBefore =>
      refine (release_iff hno hother).trans ?_
      simp
  | deniedAfter =>
      have hnew : NoOrphan (s.behaviour.newHandler p c).1 s.IsAlive := by
        intro q d hd
        rw [requests_newHandler_eq] at hd
        exact hno q d hd
      refine (noOrphan_release_iff (B := Alive (s.pool.erase c) ((s.behaviour.newHandler p
        c).1.release p c pick (.other .denied)).events) pick (.other .denied) hnew ?_ ?_).trans ?_
      · intro q d hd
        exact alive_release.trans (alive_erase_of_ne hd)
      · intro q hq hpos
        rw [requests_newHandler_eq, hother q hq] at hpos
        exact absurd hpos (Nat.lt_irrefl _)
      · rw [requests_newHandler_eq]
        simp only [ne_eq, reduceCtorEq, not_false_eq_true, true_implies]
        refine imp_congr_right fun hpos => ?_
        cases hentry : s.behaviour.entry p c with
        | none =>
            rw [Behaviour.requests_of_none hentry] at hpos
            exact absurd hpos (Nat.lt_irrefl _)
        | some conn => rw [Behaviour.heir_newHandler hentry]

/-- A link changes, but not its peer, and the behaviour does not. -/
theorem hasNoOrphan_setLink (hno : s.HasNoOrphan) {link new : Link Peer Stream}
    (hpool : s.pool.lookup c = some (.established link)) (hpeer : new.peer = link.peer) :
    (s.setLink c new).HasNoOrphan :=
  hasNoOrphan_of_same hno (fun _ _ => rfl) fun _ _ => alive_setLink hpool hpeer

theorem hasNoOrphan_withLink (hno : s.HasNoOrphan) {f : Link Peer Stream → Node Peer Stream}
    (hf : ∀ link, s.pool.lookup c = some (.established link) → (f link).HasNoOrphan) :
    (s.withLink c f).HasNoOrphan := by
  unfold Node.withLink
  split
  · next hlink => exact hf _ hlink
  · exact hno

theorem hasNoOrphan_handlerEvent (h : Inv s) (hno : s.HasNoOrphan) :
    (s.step (.handlerEvent c)).HasNoOrphan := by
  refine hasNoOrphan_withLink hno fun link hpool => ?_
  cases hchannel : link.channel with
  | nil => exact hno
  | cons event channel =>
      have halive : ∀ events q d,
          Alive (s.pool.insert c (.established { link with channel := channel })) events q d ↔
            Alive s.pool events q d := fun _ _ _ => alive_setLink hpool rfl
      cases event with
      | incoming stream =>
          refine hasNoOrphan_of_same hno (fun _ _ => rfl) fun q d => ?_
          exact (halive _ q d).trans alive_generateEvent
      | outgoing result =>
          obtain ⟨conn, hentry, hload⟩ := h.placed.held hpool
          have hpos : 0 < conn.pendingRequests := by
            rw [hload, Link.load, hchannel, List.countP_cons_of_pos rfl]
            omega
          simp only [Behaviour.onConnectionHandlerEvent_outgoing hentry hpos]
          intro q d hd
          refine (halive _ q d).mpr (alive_generateEvent.mpr ?_)
          by_cases heq : q = link.peer ∧ d = c
          · obtain ⟨rfl, rfl⟩ := heq
            exact .inl ⟨_, hpool, rfl⟩
          · have hsame : (s.behaviour.setEntry link.peer c
                { conn with pendingRequests := conn.pendingRequests - 1 }).requests q d =
                s.behaviour.requests q d := by
              rw [requests_setEntry, if_neg heq]
            exact hno q d (hsame ▸ hd)

/-- A step about a dial, where there is one. -/
theorem withDial_iff {f : Option Peer → Node Peer Stream} {Q : Prop} (hno : s.HasNoOrphan)
    (hf : ∀ peer, s.pool.lookup c = some (.dialing peer) → ((f peer).HasNoOrphan ↔ Q))
    (hnone : (∀ peer, s.pool.lookup c ≠ some (.dialing peer)) → Q) :
    (s.withDial c f).HasNoOrphan ↔ Q := by
  unfold Node.withDial
  split
  · next hdial => exact hf _ hdial
  · next hdial => exact iff_of_true hno (hnone hdial)

/-- A step about an established connection, where there is one. -/
theorem withLink_iff {f : Link Peer Stream → Node Peer Stream} {Q : Prop} (hno : s.HasNoOrphan)
    (hf : ∀ link, s.pool.lookup c = some (.established link) → ((f link).HasNoOrphan ↔ Q))
    (hnone : (∀ link, s.pool.lookup c ≠ some (.established link)) → Q) :
    (s.withLink c f).HasNoOrphan ↔ Q := by
  unfold Node.withLink
  split
  · next hlink => exact hf _ hlink
  · next hlink => exact iff_of_true hno (hnone hlink)

/-- **One step** leaves no orphan exactly if it is careful. -/
theorem step_iff (h : Inv s) (hno : s.HasNoOrphan) {a : Action Peer Stream} (ha : s.Allowed a) :
    (s.step a).HasNoOrphan ↔ s.Careful a := by
  cases a with
  | createStream p pick => exact createStream_iff h hno
  | poll entry refused pick => exact poll_iff h hno ha
  | dial peer =>
      refine iff_of_true ?_ trivial
      intro q d hd
      -- the id of the new dial is fresh, so nothing is recorded under it
      by_cases hdn : d = s.nextId
      · subst hdn
        have hzero := h.placed.requests_fresh (q := q)
        exact absurd (hzero ▸ hd) (Nat.lt_irrefl _)
      · exact (alive_insert_of_ne hdn).mpr (hno q d hd)
  | dialFailed c error pick =>
      refine withDial_iff hno (fun peer hpool => ?_) fun hnone p hp => absurd hp (hnone _)
      have hother : ∀ q, peer ≠ some q → s.behaviour.requests q c = 0 := fun q hq =>
        h.placed.requests_of_pool hpool hq
      cases peer with
      | none =>
          refine iff_of_true ?_ fun p hp => by rw [hpool] at hp; cases hp
          intro q d hd
          -- a dial of no known peer has no entry that could be orphaned
          by_cases hdc : d = c
          · subst hdc
            have hzero := hother q (fun heq => by cases heq)
            exact absurd (hzero ▸ hd) (Nat.lt_irrefl _)
          · exact (alive_erase_of_ne hdc).mpr (hno q d hd)
      | some p =>
          -- the entry is released: its requests go to another entry of the peer
          have hreason : error ≠ .dialPeerConditionFalse := ha
          simp only [Behaviour.dialFailure, if_neg hreason]
          refine (release_iff hno fun q hq => hother q ?_).trans ?_
          · exact fun heq => hq (Option.some.inj heq).symm
          · constructor
            · intro hsafe p' hp'
              rw [hpool] at hp'
              cases hp'
              exact hsafe
            · intro hcareful
              exact hcareful p hpool
  | inbound peer admission => exact iff_of_true (hasNoOrphan_inbound h hno admission) trivial
  | outbound c p admission pick =>
      refine withDial_iff hno (fun known hpool => ?_) fun hnone known hknown =>
        absurd hknown (hnone _)
      refine (outbound_iff h hno hpool ?_ admission).trans ?_
      · rintro q rfl
        exact ha q hpool
      · constructor
        · intro hsafe known' _
          exact hsafe
        · intro hcareful
          exact hcareful known hpool
  | deliver c =>
      refine iff_of_true (hasNoOrphan_withLink hno fun link hpool => ?_) trivial
      split
      · exact hno
      · exact hasNoOrphan_setLink hno hpool rfl
  | handlerPoll c =>
      refine iff_of_true (hasNoOrphan_withLink hno fun link hpool => ?_) trivial
      split
      · exact hno
      · exact hasNoOrphan_setLink hno hpool rfl
      · exact hasNoOrphan_setLink hno hpool rfl
  | negotiated c result =>
      refine iff_of_true (hasNoOrphan_withLink hno fun link hpool => ?_) trivial
      split
      · exact hno
      · exact hasNoOrphan_setLink hno hpool rfl
  | incoming c stream =>
      exact iff_of_true
        (hasNoOrphan_withLink hno fun link hpool => hasNoOrphan_setLink hno hpool rfl) trivial
  | handlerEvent c => exact iff_of_true (hasNoOrphan_handlerEvent h hno) trivial
  | closed c pick =>
      refine withLink_iff hno (fun link hpool => ?_) fun hnone link hlink => absurd hlink (hnone _)
      refine (release_iff hno fun q hq => h.placed.requests_of_pool hpool ?_).trans ?_
      · exact fun heq => hq (Option.some.inj heq).symm
      · constructor
        · intro hsafe link' hlink'
          rw [hpool] at hlink'
          cases hlink'
          exact hsafe
        · intro hcareful
          exact hcareful link hpool

end Step

/-! ### Runs -/

/-- Requests are recorded for connections that are established or being dialed, every
call of `create_stream` is recorded, queued or emitted, and nothing underflowed. -/
structure Settled (s : Node Peer Stream) : Prop where
  alive : ∀ p c conn, s.behaviour.entry p c = some conn → 0 < conn.totalRequests → s.IsAlive p c
  conserved : ∀ p, s.created.count p =
    s.emitted.countP (·.IsOutgoing p) + (s.behaviour.recorded p + s.behaviour.queued p)
  running : s.panicked = false

theorem hasNoOrphan_iff {s : Node Peer Stream} :
    s.HasNoOrphan ↔ ∀ p c conn, s.behaviour.entry p c = some conn →
      0 < conn.totalRequests → s.IsAlive p c := by
  constructor
  · intro h p c conn hentry hpos
    exact h p c (by rwa [Behaviour.requests_of_entry hentry])
  · intro h p c hpos
    cases hentry : s.behaviour.entry p c with
    | none =>
        rw [Behaviour.requests_of_none hentry] at hpos
        exact absurd hpos (Nat.lt_irrefl _)
    | some conn =>
        rw [Behaviour.requests_of_entry hentry] at hpos
        exact h p c conn hentry hpos

theorem Inv.settled_iff {s : Node Peer Stream} (h : Inv s) : Settled s ↔ s.HasNoOrphan := by
  rw [hasNoOrphan_iff]
  constructor
  · exact Settled.alive
  · intro hno
    exact ⟨hno, h.conserved, h.running⟩

/-- Every call of `create_stream` is an event or a recorded request, and nothing has
underflowed. -/
def Counted (s : Node Peer Stream) : Prop :=
  (∀ p : Peer, s.created.count p =
    s.emitted.countP (·.IsOutgoing p) + (s.behaviour.recorded p + s.behaviour.queued p)) ∧
    s.panicked = false

/-- The count is right in every run, orphans or not. -/
theorem requests_conserved {is : List (Action Peer Stream)}
    (hallowed : Node.machine.EachStep Node.Allowed Node.init is) :
    Counted (Node.machine.run Node.init is) := by
  have hinv : Inv (Node.machine.run Node.init is) :=
    Machine.invariant_run (P := Inv) (fun _ _ h ha => inv_step h ha) inv_init hallowed
  exact ⟨hinv.conserved, hinv.running⟩

/-- **Requests are settled** in every state of a run exactly if every step is careful. The count
is right in every run. -/
theorem requests_settled_iff {is : List (Action Peer Stream)}
    (hallowed : Node.machine.EachStep Node.Allowed Node.init is) :
    Counted (Node.machine.run Node.init is) ∧
      ((∀ pre post, is = pre ++ post → Settled (Node.machine.run Node.init pre)) ↔
        Node.machine.EachStep Node.Careful Node.init is) := by
  refine ⟨requests_conserved hallowed, Machine.reached_iff (I := Inv) ?_ ?_ inv_init ?_ hallowed⟩
  · intro s a h ha
    exact inv_step h ha
  · intro s a h hno ha
    rw [h.settled_iff] at hno
    exact (inv_step h ha).settled_iff.trans (step_iff h hno ha)
  · refine inv_init.settled_iff.mpr ?_
    intro p c hpos
    exact absurd hpos (Nat.lt_irrefl _)

/-! ### Examples -/

/-- A stream is asked for, its peer is dialed and answers. -/
def dialRun : List (Action Nat Unit) :=
  [.createStream 1 0, .poll (1, 0) none 0, .poll (1, 0) none 0, .outbound 0 1 .accepted 0]

theorem settled_dialRun : Settled (Node.machine.run Node.init dialRun) := by
  refine (requests_settled_iff ?_).2.mpr ?_ dialRun [] (List.append_nil _).symm
  · refine ⟨trivial, ?_, ?_, ?_, trivial⟩
    · exact fun h => by cases h
    · exact fun h => by cases h
    · intro p hp
      cases hp
      rfl
  · refine ⟨?_, ?_, ?_, ?_, trivial⟩
    · intro c conn h
      cases h
    · intro c p h
      cases h
    · intro c p h
      cases h
      exact fun h => absurd rfl h
    · exact fun _ _ h => absurd rfl h

/-- The peer is being dialed by somebody else when the behaviour's dial is looked at. -/
def refusedRun : List (Action Nat Unit) :=
  [.dial (some 1), .createStream 1 0, .poll (1, 0) none 0, .poll (1, 0) none 0]

/-- A sibling denies an inbound connection, and then a stream is asked for. -/
def deniedRun : List (Action Nat Unit) := [.inbound 1 .deniedAfter, .createStream 1 0]

/-- Both runs are allowed, and both end with a request that no connection has. -/
theorem not_settled :
    (Node.machine.EachStep Node.Allowed Node.init refusedRun ∧
      ¬ Settled (Node.machine.run Node.init refusedRun)) ∧
    (Node.machine.EachStep Node.Allowed Node.init deniedRun ∧
      ¬ Settled (Node.machine.run Node.init deniedRun)) := by
  refine ⟨⟨⟨trivial, trivial, ?_, ?_, trivial⟩, ?_⟩, ⟨trivial, trivial, trivial⟩, ?_⟩
  · exact fun h => by cases h
  · exact fun h => by cases h
  · intro h
    rcases h.alive 1 1 ⟨1, 0⟩ rfl (by decide) with ⟨ph, hpool, _⟩ | hdial
    · cases hpool
    · cases hdial
  · intro h
    rcases h.alive 1 0 ⟨0, 1⟩ rfl (by decide) with ⟨ph, hpool, _⟩ | hdial
    · cases hpool
    · cases hdial

end OnionNetwork.Streaming
