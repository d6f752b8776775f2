import OnionNetwork.Streaming.Behaviour

/-!
# Where the requests are

What each operation of the behaviour does to the entries of the connections
(`entry_setEntry`, `entry_release`), to the requests recorded for a peer and the
streams queued for it (`recorded_add_queued_release` and its like), and to the dials in
the queue.
-/

namespace OnionNetwork.Streaming

open Lib

variable {Peer Stream : Type} [DecidableEq Peer]

/-- The event gives a peer's stream to the caller. -/
def Event.IsOutgoing (peer : Peer) : Event Peer Stream → Bool
  | .outgoingStream p _ => p = peer
  | .incomingStream _ _ => false

/-- The queued event gives a peer's stream to the caller. -/
def ToSwarm.IsOutgoing (peer : Peer) : ToSwarm Peer Stream → Bool
  | .generateEvent e => e.IsOutgoing peer
  | .dial _ _ => false

/-- The queued event is a dial. -/
def ToSwarm.dialId : ToSwarm Peer Stream → Option ConnectionId
  | .dial cid _ => some cid
  | .generateEvent _ => none

namespace Behaviour

variable {b : Behaviour Peer Stream} {peer p : Peer} {cid c pick : ConnectionId}
  {conn : Connection}

/-- The outstanding requests of a peer. -/
def recorded (b : Behaviour Peer Stream) (peer : Peer) : Nat :=
  FinMap.total Connection.totalRequests (b.group peer)

/-- The streams of a peer in the queue. -/
def queued (b : Behaviour Peer Stream) (peer : Peer) : Nat :=
  b.events.countP (·.IsOutgoing peer)

/-- The dials in the queue. -/
def dials (b : Behaviour Peer Stream) : List ConnectionId := b.events.filterMap ToSwarm.dialId

/-! ### Writing an entry -/

theorem group_setGroup {g : FinMap ConnectionId Connection} :
    (b.setGroup peer g).group p = if p = peer then g else b.group p := by
  unfold setGroup group
  split
  · next h => rw [h, AList.lookup_insert, Option.getD_some]
  · next h => rw [AList.lookup_insert_ne h]

theorem entry_setEntry :
    (b.setEntry peer cid conn).entry p c =
      if p = peer ∧ c = cid then some conn else b.entry p c := by
  unfold setEntry entry
  rw [group_setGroup]
  by_cases hp : p = peer
  · subst hp
    by_cases hc : c = cid
    · subst hc
      rw [if_pos rfl, if_pos ⟨rfl, rfl⟩, AList.lookup_insert]
    · rw [if_pos rfl, if_neg (fun h => hc h.2), AList.lookup_insert_ne hc]
  · rw [if_neg hp, if_neg (fun h => hp h.1)]

theorem entry_removeEntry :
    (b.removeEntry peer cid).entry p c = if p = peer ∧ c = cid then none else b.entry p c := by
  unfold removeEntry entry
  rw [group_setGroup]
  by_cases hp : p = peer
  · subst hp
    by_cases hc : c = cid
    · subst hc
      rw [if_pos rfl, if_pos ⟨rfl, rfl⟩, AList.lookup_erase]
    · rw [if_pos rfl, if_neg (fun h => hc h.2), AList.lookup_erase_ne hc]
  · rw [if_neg hp, if_neg (fun h => hp h.1)]

theorem entry_of_next {other : Connection} (h : b.next peer pick = some (cid, other)) :
    b.entry peer cid = some other := FinMap.lookup_of_choose h

theorem group_of_next_none (h : b.next peer pick = none) : b.group peer = ∅ :=
  FinMap.choose_eq_none h

theorem entry_of_next_none (h : b.next peer pick = none) : b.entry peer c = none := by
  unfold entry
  rw [group_of_next_none h, AList.lookup_empty]

theorem requests_of_entry (h : b.entry peer cid = some conn) :
    b.requests peer cid = conn.totalRequests := by
  unfold requests
  rw [h, Option.getD_some]

theorem requests_of_none (h : b.entry peer cid = none) : b.requests peer cid = 0 := by
  unfold requests
  rw [h]
  rfl

/-- Writing an entry replaces its requests. -/
theorem recorded_setEntry (b : Behaviour Peer Stream) (peer : Peer) (cid : ConnectionId)
    (conn : Connection) :
    (b.setEntry peer cid conn).recorded peer + b.requests peer cid =
      b.recorded peer + conn.totalRequests := by
  unfold recorded setEntry
  rw [group_setGroup, if_pos rfl]
  cases h : b.entry peer cid with
  | none =>
      rw [requests_of_none h, FinMap.total_insert_of_none h]
      omega
  | some old =>
      rw [requests_of_entry h]
      have := FinMap.total_insert_of_some (f := Connection.totalRequests) (b := conn) h
      omega

theorem recorded_setEntry_of_ne (h : p ≠ peer) :
    (b.setEntry peer cid conn).recorded p = b.recorded p := by
  unfold recorded setEntry
  rw [group_setGroup, if_neg h]

/-- An entry with as many requests as before. -/
theorem recorded_setEntry_of_eq (h : conn.totalRequests = b.requests peer cid) :
    (b.setEntry peer cid conn).recorded p = b.recorded p := by
  by_cases hp : p = peer
  · subst hp
    have := recorded_setEntry b p cid conn
    omega
  · exact recorded_setEntry_of_ne hp

theorem recorded_removeEntry (b : Behaviour Peer Stream) (peer : Peer) (cid : ConnectionId) :
    (b.removeEntry peer cid).recorded peer + b.requests peer cid = b.recorded peer := by
  unfold recorded removeEntry
  rw [group_setGroup, if_pos rfl]
  cases h : b.entry peer cid with
  | none => rw [requests_of_none h, FinMap.erase_of_lookup_none h, Nat.add_zero]
  | some old => rw [requests_of_entry h, FinMap.total_erase h]

theorem recorded_removeEntry_of_ne (h : p ≠ peer) :
    (b.removeEntry peer cid).recorded p = b.recorded p := by
  unfold recorded removeEntry
  rw [group_setGroup, if_neg h]

@[simp] theorem events_setEntry : (b.setEntry peer cid conn).events = b.events := rfl

@[simp] theorem events_removeEntry : (b.removeEntry peer cid).events = b.events := rfl

/-! ### Streams that are asked for -/

/-- A stream more is asked for: on the entry that is come to, or on a new one with a
dial. -/
theorem createStream_cases (b : Behaviour Peer Stream) (peer : Peer) (pick cid : ConnectionId) :
    (∃ id conn, b.next peer pick = some (id, conn) ∧
      b.createStream peer pick cid =
        b.setEntry peer id { conn with newRequests := conn.newRequests + 1 }) ∨
    (b.next peer pick = none ∧
      b.createStream peer pick cid =
        { b.setEntry peer cid ⟨0, 1⟩ with events := .dial cid peer :: b.events }) := by
  unfold createStream
  cases h : b.next peer pick with
  | some e => exact .inl ⟨e.1, e.2, rfl, rfl⟩
  | none => exact .inr ⟨rfl, rfl⟩

theorem recorded_add_queued_createStream (b : Behaviour Peer Stream) (peer : Peer)
    (pick cid : ConnectionId) (p : Peer) :
    (b.createStream peer pick cid).recorded p + (b.createStream peer pick cid).queued p =
      b.recorded p + b.queued p + if p = peer then 1 else 0 := by
  rcases createStream_cases b peer pick cid with
    ⟨id, conn, hnext, h⟩ | ⟨hnext, h⟩
  · rw [h]
    have hqueued : (b.setEntry peer id { conn with newRequests := conn.newRequests + 1 }).queued p =
        b.queued p := rfl
    by_cases hp : p = peer
    · subst hp
      have hset := recorded_setEntry b p id { conn with newRequests := conn.newRequests + 1 }
      rw [requests_of_entry (entry_of_next hnext)] at hset
      simp only [Connection.totalRequests] at hset
      rw [hqueued, if_pos rfl]
      omega
    · rw [recorded_setEntry_of_ne hp, hqueued, if_neg hp, Nat.add_zero]
  · rw [h]
    have hqueued :
        queued { b.setEntry peer cid ⟨0, 1⟩ with events := .dial cid peer :: b.events } p =
        b.queued p := List.countP_cons_of_neg Bool.false_ne_true
    have hrecorded : recorded { b.setEntry peer cid ⟨0, 1⟩ with
        events := .dial cid peer :: b.events } p = (b.setEntry peer cid ⟨0, 1⟩).recorded p := rfl
    rw [hqueued, hrecorded]
    by_cases hp : p = peer
    · subst hp
      have hset := recorded_setEntry b p cid ⟨0, 1⟩
      rw [requests_of_none (entry_of_next_none hnext)] at hset
      simp only [Connection.totalRequests] at hset
      rw [if_pos rfl]
      omega
    · rw [recorded_setEntry_of_ne hp, if_neg hp, Nat.add_zero]

/-! ### Connections that end -/

/-- The connection that gets the requests of one that ends. -/
def heir (b : Behaviour Peer Stream) (peer : Peer) (cid pick : ConnectionId) :
    Option ConnectionId :=
  (b.entry peer cid).bind fun _ => ((b.removeEntry peer cid).next peer pick).map Prod.fst

/-- The streams that fail. -/
def failures (peer : Peer) (n : Nat) (error : Error) : List (ToSwarm Peer Stream) :=
  List.replicate n (.generateEvent (.outgoingStream peer (.error error)))

/-- Nothing to release, an heir, or failures. -/
theorem release_cases (b : Behaviour Peer Stream) (peer : Peer) (cid pick : ConnectionId)
    (error : Error) :
    (b.entry peer cid = none ∧ b.heir peer cid pick = none ∧
      b.release peer cid pick error = b) ∨
    (∃ id other, b.heir peer cid pick = some id ∧
      (b.removeEntry peer cid).entry peer id = some other ∧
      b.release peer cid pick error =
        (b.removeEntry peer cid).setEntry peer id
          { other with newRequests := other.newRequests + b.requests peer cid }) ∨
    (b.heir peer cid pick = none ∧ (b.removeEntry peer cid).group peer = ∅ ∧
      b.release peer cid pick error =
        ⟨(b.removeEntry peer cid).connections.erase peer,
          failures peer (b.requests peer cid) error ++ b.events⟩) := by
  unfold release heir
  cases hentry : b.entry peer cid with
  | none => exact .inl ⟨rfl, rfl, rfl⟩
  | some conn =>
      rw [requests_of_entry hentry]
      cases hnext : (b.removeEntry peer cid).next peer pick with
      | some e =>
          refine .inr (.inl ⟨e.1, e.2, ?_, entry_of_next hnext, ?_⟩)
          · simp only [Option.bind_some, Option.map_some]
          · simp only [hnext]
      | none =>
          refine .inr (.inr ⟨?_, group_of_next_none hnext, ?_⟩)
          · simp only [Option.bind_some, Option.map_none]
          · simp only [hnext]
            rfl

/-- What is left is a group without the peer's. -/
theorem group_erase {events : List (ToSwarm Peer Stream)} :
    group ⟨b.connections.erase peer, events⟩ p = if p = peer then ∅ else b.group p := by
  unfold group
  split
  · next h => rw [h, AList.lookup_erase, Option.getD_none]
  · next h => rw [AList.lookup_erase_ne h]

/-- The entry is gone, the heir has its requests, and the others are as before. -/
theorem entry_release {error : Error} :
    (b.release peer cid pick error).entry p c =
      if p = peer ∧ c = cid then none
      else (b.entry p c).map fun conn =>
        if p = peer ∧ b.heir peer cid pick = some c then
          { conn with newRequests := conn.newRequests + b.requests peer cid }
        else conn := by
  rcases release_cases b peer cid pick error with
    ⟨hentry, hheir, h⟩ | ⟨id, other, hheir, hother, h⟩ | ⟨hheir, hgroup, h⟩
  · rw [h, hheir]
    split
    · next hself => rw [hself.1, hself.2, hentry]
    · simp
  · -- the heir is another entry, as the released one is gone
    have hid : id ≠ cid := by
      rintro rfl
      rw [entry_removeEntry, if_pos ⟨rfl, rfl⟩] at hother
      cases hother
    rw [entry_removeEntry, if_neg (fun hself => hid hself.2)] at hother
    rw [h, entry_setEntry, entry_removeEntry, hheir]
    by_cases hheired : p = peer ∧ c = id
    · obtain ⟨rfl, rfl⟩ := hheired
      rw [if_pos ⟨rfl, rfl⟩, if_neg (fun hself => hid hself.2), hother]
      simp
    · rw [if_neg hheired]
      split
      · rfl
      · have hnot : ¬ (p = peer ∧ some id = some c) := by
          rintro ⟨hp, hc⟩
          exact hheired ⟨hp, (Option.some.inj hc).symm⟩
        simp only [if_neg hnot, Option.map_id']
  · rw [h, hheir]
    -- it was the last entry of the peer, whose group goes with it
    have hentries : (b.removeEntry peer cid).entry p c =
        if p = peer ∧ c = cid then none else b.entry p c := entry_removeEntry
    unfold entry at hentries ⊢
    rw [group_erase]
    by_cases hp : p = peer
    · subst hp
      rw [hgroup, AList.lookup_empty] at hentries
      rw [if_pos rfl, AList.lookup_empty, hentries]
      split
      · rfl
      · simp
    · rw [if_neg (fun hself => hp hself.1)] at hentries
      rw [if_neg hp, if_neg (fun hself => hp hself.1), hentries]
      simp [hp]

theorem countP_failures {error : Error} {n : Nat} :
    (failures peer n error : List (ToSwarm Peer Stream)).countP (·.IsOutgoing p) =
      if p = peer then n else 0 := by
  unfold failures
  rw [List.countP_replicate]
  by_cases hp : p = peer
  · simp [hp, ToSwarm.IsOutgoing, Event.IsOutgoing]
  · simp [hp, Ne.symm hp, ToSwarm.IsOutgoing, Event.IsOutgoing]

omit [DecidableEq Peer] in
theorem filterMap_dialId_failures {error : Error} {n : Nat} :
    (failures peer n error : List (ToSwarm Peer Stream)).filterMap ToSwarm.dialId = [] := by
  unfold failures
  rw [List.filterMap_replicate_of_none]
  rfl

/-- The requests of the entry go to the heir or into the queue. -/
theorem recorded_add_queued_release {error : Error} :
    (b.release peer cid pick error).recorded p + (b.release peer cid pick error).queued p =
      b.recorded p + b.queued p := by
  have hremove := recorded_removeEntry b peer cid
  rcases release_cases b peer cid pick error with
    ⟨_, _, h⟩ | ⟨id, other, _, hother, h⟩ | ⟨_, hgroup, h⟩
  · rw [h]
  · rw [h]
    show _ + b.queued p = _
    by_cases hp : p = peer
    · subst hp
      have hset := recorded_setEntry (b.removeEntry p cid) p id
        { other with newRequests := other.newRequests + b.requests p cid }
      rw [requests_of_entry hother] at hset
      simp only [Connection.totalRequests] at hset
      omega
    · rw [recorded_setEntry_of_ne hp, recorded_removeEntry_of_ne hp]
  · have hqueued : (b.release peer cid pick error).queued p =
        (if p = peer then b.requests peer cid else 0) + b.queued p := by
      rw [h]
      show List.countP _ (_ ++ _) = _
      rw [List.countP_append, countP_failures]
      rfl
    have hgroup' : (b.release peer cid pick error).group p =
        if p = peer then ∅ else (b.removeEntry peer cid).group p := by
      rw [h, group_erase]
    rw [hqueued]
    unfold recorded at hremove ⊢
    rw [hgroup']
    by_cases hp : p = peer
    · subst hp
      rw [hgroup, FinMap.total_empty] at hremove
      rw [if_pos rfl, if_pos rfl, FinMap.total_empty]
      omega
    · have hother : (b.removeEntry peer cid).recorded p = b.recorded p :=
        recorded_removeEntry_of_ne hp
      unfold recorded at hother
      rw [if_neg hp, if_neg hp, hother, Nat.zero_add]

/-- Releasing an entry puts failures in front of the queue at most. -/
theorem events_release (b : Behaviour Peer Stream) (peer : Peer) (cid pick : ConnectionId)
    (error : Error) :
    ∃ n, (b.release peer cid pick error).events = failures peer n error ++ b.events := by
  rcases release_cases b peer cid pick error with
    ⟨_, _, h⟩ | ⟨id, other, _, _, h⟩ | ⟨_, _, h⟩
  · exact ⟨0, by rw [h]; rfl⟩
  · exact ⟨0, by rw [h]; rfl⟩
  · exact ⟨_, by rw [h]⟩

theorem dials_release {error : Error} : (b.release peer cid pick error).dials = b.dials := by
  obtain ⟨n, h⟩ := events_release b peer cid pick error
  unfold dials
  rw [h, List.filterMap_append, filterMap_dialId_failures, List.nil_append]

theorem mem_events_release {error : Error} :
    .dial c p ∈ (b.release peer cid pick error).events ↔ .dial c p ∈ b.events := by
  obtain ⟨n, h⟩ := events_release b peer cid pick error
  have hnot : ToSwarm.dial c p ∉ (failures peer n error : List (ToSwarm Peer Stream)) := by
    intro hmem
    cases List.eq_of_mem_replicate hmem
  rw [h, List.mem_append, or_iff_right hnot]

/-! ### New handlers, polls and handler events -/

theorem recorded_newHandler : (b.newHandler peer cid).1.recorded p = b.recorded p :=
  recorded_setEntry_of_eq (Nat.add_zero _)

theorem entry_newHandler :
    (b.newHandler peer cid).1.entry p c =
      if p = peer ∧ c = cid then some ⟨b.requests peer cid, 0⟩ else b.entry p c :=
  entry_setEntry

/-- A new handler changes nothing about who inherits from its entry. -/
theorem heir_newHandler (h : b.entry peer cid = some conn) :
    (b.newHandler peer cid).1.heir peer cid pick = b.heir peer cid pick := by
  have hgroup : ((b.newHandler peer cid).1.removeEntry peer cid).group peer =
      (b.removeEntry peer cid).group peer := by
    unfold removeEntry newHandler setEntry
    simp only [group_setGroup, if_true, FinMap.erase_insert]
  unfold heir next
  rw [entry_newHandler, if_pos ⟨rfl, rfl⟩, h, hgroup]
  rfl

theorem entry_of_findNew {pick' : Peer × ConnectionId}
    (h : b.findNew pick' = some (peer, cid, conn)) : b.entry peer cid = some conn := by
  have hmem : (peer, cid, conn) ∈ b.entries := by
    unfold findNew at h
    split at h
    · next hfind =>
        cases h
        exact List.mem_of_find?_eq_some hfind
    · exact List.mem_of_find?_eq_some h
  obtain ⟨e, he, hmem⟩ := List.mem_flatMap.mp hmem
  obtain ⟨c, hc, heq⟩ := List.mem_map.mp hmem
  cases heq
  have hgroup : b.connections.lookup e.1 = some e.2 := AList.mem_lookup_iff.mpr he
  unfold entry group
  rw [hgroup, Option.getD_some]
  exact AList.mem_lookup_iff.mpr hc

/-- A handler is notified of the new requests, or the queue is looked at. -/
theorem poll_cases (pick' : Peer × ConnectionId) :
    (∃ peer cid conn, b.entry peer cid = some conn ∧
      b.poll pick' = (.notifyHandler peer cid conn.newRequests,
        b.setEntry peer cid ⟨conn.pendingRequests + conn.newRequests, 0⟩)) ∨
    (b.events = [] ∧ b.poll pick' = (.pending, b)) ∨
    (∃ e events, b.events = e :: events ∧
      b.poll pick' = (.event e, { b with events := events })) := by
  unfold poll
  cases hfind : b.findNew pick' with
  | some e => exact .inl ⟨e.1, e.2.1, e.2.2, entry_of_findNew hfind, rfl⟩
  | none =>
      cases hevents : b.events with
      | nil => exact .inr (.inl ⟨rfl, rfl⟩)
      | cons e events => exact .inr (.inr ⟨e, events, rfl, rfl⟩)

/-- Notifying a handler keeps the number of requests. -/
theorem recorded_notify (h : b.entry peer cid = some conn) :
    (b.setEntry peer cid ⟨conn.pendingRequests + conn.newRequests, 0⟩).recorded p =
      b.recorded p := by
  refine recorded_setEntry_of_eq ?_
  rw [requests_of_entry h]
  rfl

/-- A handler event of an entry with pending requests is taken. -/
theorem onConnectionHandlerEvent_outgoing {result : Except Error Stream}
    (h : b.entry peer cid = some conn) (hpos : 0 < conn.pendingRequests) :
    b.onConnectionHandlerEvent peer cid (.outgoing result) =
      some { b.setEntry peer cid { conn with pendingRequests := conn.pendingRequests - 1 } with
        events := .generateEvent (.outgoingStream peer result) :: b.events } := by
  unfold onConnectionHandlerEvent
  rw [h]
  exact if_neg (Nat.ne_of_gt hpos)

end Behaviour

omit [DecidableEq Peer] in
/-- The last event is reported, or a substream is asked for. -/
theorem Handler.poll_cases (h : Handler Stream) :
    (h.poll = (.pending, h)) ∨
    (∃ e stream, h.stream = e :: stream ∧
      h.poll = (.notifyBehaviour e, { h with stream := stream })) ∨
    (∃ n, h.toRequest = n + 1 ∧
      h.poll = (.outboundSubstreamRequest, { h with toRequest := n })) := by
  unfold Handler.poll
  cases hstream : h.stream with
  | cons e stream => exact .inr (.inl ⟨e, stream, rfl, rfl⟩)
  | nil =>
      cases hrequest : h.toRequest with
      | zero => exact .inl rfl
      | succ n => exact .inr (.inr ⟨n, rfl, rfl⟩)

end OnionNetwork.Streaming
