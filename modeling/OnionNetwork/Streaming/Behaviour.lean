import OnionNetwork.Lib.KeyedList

/-!
# The streaming behaviour and its connection handler

`Behaviour` counts, for each connection, the streams that were asked for (`new_requests`)
and the ones its handler was told about (`pending_requests`); a dial that it starts has
an entry of its own before there is a connection. `Handler` asks a connection for
substreams and reports each of them. Neither knows the order of a hash map: what
`values_mut().next()` and `find` come to is an argument.
-/

namespace OnionNetwork.Streaming

open Lib

/-- `libp2p::swarm::ConnectionId`. -/
abbrev ConnectionId := Nat

/-- `Connection`. -/
structure Connection where
  pendingRequests : Nat
  newRequests : Nat
  deriving DecidableEq

/-- `Connection::default`. -/
def Connection.default : Connection := ⟨0, 0⟩

/-- `Connection::total_requests`. -/
def Connection.totalRequests (c : Connection) : Nat := c.pendingRequests + c.newRequests

/-- `libp2p::swarm::DialError`, by its kind. -/
inductive DialError
  | localPeerId
  | noAddresses
  | dialPeerConditionFalse
  | aborted
  | wrongPeerId
  | denied
  | transport
  deriving DecidableEq

/-- `Error`: `StreamUpgradeError<Void>`, its `io::Error` by what it is made of. -/
inductive Error
  | timeout
  | negotiationFailed
  | connectionReset
  | other (error : DialError)
  | io
  deriving DecidableEq

section

variable (Peer Stream : Type)

/-- `Event`. -/
inductive Event
  | incomingStream (peer : Peer) (stream : Stream)
  | outgoingStream (peer : Peer) (result : Except Error Stream)

/-- `HEvent`. -/
inductive HEvent
  | incoming (stream : Stream)
  | outgoing (result : Except Error Stream)

/-- `libp2p::swarm::ToSwarm`, what the behaviour queues of it. -/
inductive ToSwarm
  | dial (connection : ConnectionId) (peer : Peer)
  | generateEvent (event : Event Peer Stream)

/-- `Behaviour`, with the last event of the queue in front. -/
structure Behaviour [DecidableEq Peer] where
  connections : FinMap Peer (FinMap ConnectionId Connection)
  events : List (ToSwarm Peer Stream)

end

variable {Peer Stream : Type} [DecidableEq Peer]

namespace Behaviour

/-- `Behaviour::new`. -/
def new : Behaviour Peer Stream := ⟨∅, []⟩

/-- The connections of a peer. -/
def group (b : Behaviour Peer Stream) (peer : Peer) : FinMap ConnectionId Connection :=
  (b.connections.lookup peer).getD ∅

/-- Write the connections of a peer back. -/
def setGroup (b : Behaviour Peer Stream) (peer : Peer) (g : FinMap ConnectionId Connection) :
    Behaviour Peer Stream :=
  { b with connections := b.connections.insert peer g }

/-- The entry of a connection. -/
def entry (b : Behaviour Peer Stream) (peer : Peer) (cid : ConnectionId) : Option Connection :=
  (b.group peer).lookup cid

/-- Write the entry of a connection. -/
def setEntry (b : Behaviour Peer Stream) (peer : Peer) (cid : ConnectionId)
    (conn : Connection) : Behaviour Peer Stream :=
  b.setGroup peer ((b.group peer).insert cid conn)

/-- Remove the entry of a connection. -/
def removeEntry (b : Behaviour Peer Stream) (peer : Peer) (cid : ConnectionId) :
    Behaviour Peer Stream :=
  b.setGroup peer ((b.group peer).erase cid)

/-- `values_mut().next()` of the connections of a peer. -/
def next (b : Behaviour Peer Stream) (peer : Peer) (pick : ConnectionId) :
    Option (ConnectionId × Connection) :=
  FinMap.choose pick (b.group peer)

/-- `create_stream`, with the id of a new dial. -/
def createStream (b : Behaviour Peer Stream) (peer : Peer) (pick cid : ConnectionId) :
    Behaviour Peer Stream :=
  match b.next peer pick with
  | some (id, conn) => b.setEntry peer id { conn with newRequests := conn.newRequests + 1 }
  | none => { b.setEntry peer cid ⟨0, 1⟩ with events := .dial cid peer :: b.events }

/-- The requests of a connection, none without an entry. -/
def requests (b : Behaviour Peer Stream) (peer : Peer) (cid : ConnectionId) : Nat :=
  ((b.entry peer cid).getD .default).totalRequests

/-- `new_handler`: all requests are pending now, and the handler starts with them. -/
def newHandler (b : Behaviour Peer Stream) (peer : Peer) (cid : ConnectionId) :
    Behaviour Peer Stream × Nat :=
  let pending := b.requests peer cid
  (b.setEntry peer cid ⟨pending, 0⟩, pending)

/-- What `DialFailure` and `ConnectionClosed` do about an entry: its requests go to
another connection of the peer, or they fail. -/
def release (b : Behaviour Peer Stream) (peer : Peer) (cid pick : ConnectionId)
    (error : Error) : Behaviour Peer Stream :=
  match b.entry peer cid with
  | none => b
  | some conn =>
      let total := conn.totalRequests
      let b := b.removeEntry peer cid
      match b.next peer pick with
      | some (id, other) =>
          b.setEntry peer id { other with newRequests := other.newRequests + total }
      | none =>
          { connections := b.connections.erase peer
            events := List.replicate total (.generateEvent (.outgoingStream peer (.error error))) ++
              b.events }

/-- `FromSwarm::DialFailure`. -/
def dialFailure (b : Behaviour Peer Stream) (error : DialError) (peer : Option Peer)
    (cid pick : ConnectionId) : Behaviour Peer Stream :=
  match peer with
  | none => b
  | some peer =>
      if error = .dialPeerConditionFalse then b else b.release peer cid pick (.other error)

/-- `FromSwarm::ConnectionClosed`. -/
def connectionClosed (b : Behaviour Peer Stream) (peer : Peer) (cid pick : ConnectionId) :
    Behaviour Peer Stream :=
  b.release peer cid pick .connectionReset

/-- `on_connection_handler_event`; nothing where `pending_requests -= 1` underflows. -/
def onConnectionHandlerEvent (b : Behaviour Peer Stream) (peer : Peer) (cid : ConnectionId) :
    HEvent Stream → Option (Behaviour Peer Stream)
  | .incoming stream =>
      some { b with events := .generateEvent (.incomingStream peer stream) :: b.events }
  | .outgoing result =>
      let event := ToSwarm.generateEvent (.outgoingStream peer result)
      match b.entry peer cid with
      | none => some { b with events := event :: b.events }
      | some conn =>
          if conn.pendingRequests = 0 then none
          else
            some { b.setEntry peer cid
                { conn with pendingRequests := conn.pendingRequests - 1 } with
              events := event :: b.events }

/-- The entries of all connections. -/
def entries (b : Behaviour Peer Stream) : List (Peer × ConnectionId × Connection) :=
  b.connections.entries.flatMap fun e => e.2.entries.map fun c => (e.1, c.1, c.2)

/-- An entry with new requests, as `find` comes to it. -/
def findNew (b : Behaviour Peer Stream) (pick : Peer × ConnectionId) :
    Option (Peer × ConnectionId × Connection) :=
  match b.entries.find? fun e => (e.1, e.2.1) = pick ∧ 0 < e.2.2.newRequests with
  | some e => some e
  | none => b.entries.find? fun e => 0 < e.2.2.newRequests

/-- What `poll` returns. -/
inductive Polled (Peer Stream : Type)
  | pending
  | notifyHandler (peer : Peer) (cid : ConnectionId) (requests : Nat)
  | event (e : ToSwarm Peer Stream)

/-- `poll`. -/
def poll (b : Behaviour Peer Stream) (pick : Peer × ConnectionId) :
    Polled Peer Stream × Behaviour Peer Stream :=
  match b.findNew pick with
  | some (peer, cid, conn) =>
      (.notifyHandler peer cid conn.newRequests,
        b.setEntry peer cid ⟨conn.pendingRequests + conn.newRequests, 0⟩)
  | none =>
      match b.events with
      | [] => (.pending, b)
      | e :: events => (.event e, { b with events := events })

end Behaviour

/-- `Handler`, with the last event of the queue in front. -/
structure Handler (Stream : Type) where
  toRequest : Nat
  stream : List (HEvent Stream)

namespace Handler

/-- `Handler::new`. -/
def new (toRequest : Nat) : Handler Stream := ⟨toRequest, []⟩

/-- What `poll` returns. -/
inductive Polled (Stream : Type)
  | pending
  | notifyBehaviour (event : HEvent Stream)
  | outboundSubstreamRequest

/-- `poll`. -/
def poll (h : Handler Stream) : Polled Stream × Handler Stream :=
  match h.stream with
  | event :: stream => (.notifyBehaviour event, { h with stream := stream })
  | [] =>
      match h.toRequest with
      | n + 1 => (.outboundSubstreamRequest, { h with toRequest := n })
      | 0 => (.pending, h)

/-- `on_behaviour_event`. -/
def onBehaviourEvent (h : Handler Stream) (glass : Nat) : Handler Stream :=
  { h with toRequest := h.toRequest + glass }

/-- `on_connection_event`, for the events that are not ignored. -/
def onConnectionEvent (h : Handler Stream) (ev : HEvent Stream) : Handler Stream :=
  { h with stream := ev :: h.stream }

end Handler

end OnionNetwork.Streaming
