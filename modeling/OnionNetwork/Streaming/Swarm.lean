import OnionNetwork.Lib.Machine
import OnionNetwork.Streaming.Requests

/-!
# The swarm around the behaviour

The connections of a node, each a pending dial or established, with the behaviour and
a handler on each established one. Sibling behaviours dial and deny; dials fail,
connections close, and substreams are negotiated, in any order. A notification of a
connection that is not established is dropped.
-/

namespace OnionNetwork.Streaming

open Lib

variable (Peer Stream : Type)

/-- An established connection: what the behaviour sent to the handler, the handler,
the substreams that are being negotiated, and what the handler sent back. -/
structure Link where
  peer : Peer
  notified : List Nat
  handler : Handler Stream
  negotiating : Nat
  channel : List (HEvent Stream)

/-- A connection of the pool. -/
inductive Phase
  | dialing (peer : Option Peer)
  | established (link : Link Peer Stream)

/-- The node, with the calls of `create_stream` and the emitted events. -/
structure Node [DecidableEq Peer] where
  behaviour : Behaviour Peer Stream
  pool : FinMap ConnectionId (Phase Peer Stream)
  nextId : ConnectionId
  created : List Peer
  emitted : List (Event Peer Stream)
  panicked : Bool

/-- What the behaviours say about an established connection. -/
inductive Admission
  | accepted
  | deniedBefore
  | deniedAfter
  deriving DecidableEq

/-- One step of the node; `pick` is the entry a hash map starts with. -/
inductive Action
  | createStream (peer : Peer) (pick : ConnectionId)
  /-- The behaviour is polled; a dial may be refused at once. -/
  | poll (entry : Peer × ConnectionId) (refused : Option DialError) (pick : ConnectionId)
  /-- Somebody else dials. -/
  | dial (peer : Option Peer)
  | dialFailed (cid : ConnectionId) (error : DialError) (pick : ConnectionId)
  | inbound (peer : Peer) (admission : Admission)
  | outbound (cid : ConnectionId) (peer : Peer) (admission : Admission) (pick : ConnectionId)
  /-- The handler gets a notification. -/
  | deliver (cid : ConnectionId)
  | handlerPoll (cid : ConnectionId)
  /-- A substream is negotiated, or it fails. -/
  | negotiated (cid : ConnectionId) (result : Except Error Stream)
  /-- The remote opened a substream. -/
  | incoming (cid : ConnectionId) (stream : Stream)
  /-- The behaviour gets an event of the handler. -/
  | handlerEvent (cid : ConnectionId)
  | closed (cid : ConnectionId) (pick : ConnectionId)

variable {Peer Stream}

/-- The peer of a connection, where it is known. -/
def Phase.peer : Phase Peer Stream → Option Peer
  | .dialing peer => peer
  | .established link => some link.peer

/-- Is the connection established with the peer? -/
def Phase.isConnected [DecidableEq Peer] (peer : Peer) : Phase Peer Stream → Bool
  | .dialing _ => false
  | .established link => link.peer = peer

/-- Is the peer dialed? -/
def Phase.isDialing [DecidableEq Peer] (peer : Peer) : Phase Peer Stream → Bool
  | .dialing p => p = some peer
  | .established _ => false

namespace Node

variable [DecidableEq Peer]

/-- A node without connections. -/
def init : Node Peer Stream := ⟨.new, ∅, 0, [], [], false⟩

/-- `PeerCondition::DisconnectedAndNotDialing`. -/
def mayDial (s : Node Peer Stream) (peer : Peer) : Bool :=
  s.pool.entries.all fun e => !e.2.isConnected peer && !e.2.isDialing peer

/-- `Swarm::dial` for a dial of the behaviour. -/
def dial (s : Node Peer Stream) (cid : ConnectionId) (peer : Peer) (refused : Option DialError)
    (pick : ConnectionId) : Node Peer Stream :=
  if s.mayDial peer then
    match refused with
    | none => { s with pool := s.pool.insert cid (.dialing (some peer)) }
    | some error =>
        { s with behaviour := s.behaviour.dialFailure error (some peer) cid pick }
  else
    { s with behaviour := s.behaviour.dialFailure .dialPeerConditionFalse (some peer) cid pick }

/-- A connection is handled by its link, where it is established. -/
def withLink (s : Node Peer Stream) (cid : ConnectionId)
    (f : Link Peer Stream → Node Peer Stream) : Node Peer Stream :=
  match s.pool.lookup cid with
  | some (.established link) => f link
  | _ => s

/-- A connection is handled as a dial, where it is one. -/
def withDial (s : Node Peer Stream) (cid : ConnectionId)
    (f : Option Peer → Node Peer Stream) : Node Peer Stream :=
  match s.pool.lookup cid with
  | some (.dialing peer) => f peer
  | _ => s

/-- A link changes. -/
def setLink (s : Node Peer Stream) (cid : ConnectionId) (link : Link Peer Stream) :
    Node Peer Stream :=
  { s with pool := s.pool.insert cid (.established link) }

/-- `NotifyHandler::One`. -/
def notify (s : Node Peer Stream) (cid : ConnectionId) (requests : Nat) : Node Peer Stream :=
  s.withLink cid fun link => s.setLink cid { link with notified := link.notified ++ [requests] }

/-- What the behaviour wants. -/
def handle (s : Node Peer Stream) (polled : Behaviour.Polled Peer Stream)
    (refused : Option DialError) (pick : ConnectionId) : Node Peer Stream :=
  match polled with
  | .pending => s
  | .notifyHandler _ cid requests => s.notify cid requests
  | .event (.generateEvent e) => { s with emitted := e :: s.emitted }
  | .event (.dial cid peer) => s.dial cid peer refused pick

/-- A connection is established, with a new handler. -/
def establish (s : Node Peer Stream) (cid : ConnectionId) (peer : Peer) : Node Peer Stream :=
  let new := s.behaviour.newHandler peer cid
  { s with behaviour := new.1 }.setLink cid ⟨peer, [], .new new.2, 0, []⟩

/-- An inbound connection; the behaviour ignores `ListenFailure`. -/
def inbound (s : Node Peer Stream) (peer : Peer) : Admission → Node Peer Stream
  | .accepted => { s with nextId := s.nextId + 1 }.establish s.nextId peer
  | .deniedBefore => { s with nextId := s.nextId + 1 }
  | .deniedAfter =>
      { s with nextId := s.nextId + 1, behaviour := (s.behaviour.newHandler peer s.nextId).1 }

/-- A dial leads to a peer. -/
def outbound (s : Node Peer Stream) (cid : ConnectionId) (peer : Peer) (pick : ConnectionId) :
    Admission → Node Peer Stream
  | .accepted => s.establish cid peer
  | .deniedBefore =>
      { s with
        behaviour := s.behaviour.dialFailure .denied (some peer) cid pick
        pool := s.pool.erase cid }
  | .deniedAfter =>
      { s with
        behaviour := (s.behaviour.newHandler peer cid).1.dialFailure .denied (some peer) cid pick
        pool := s.pool.erase cid }

/-- One step. -/
def step (s : Node Peer Stream) : Action Peer Stream → Node Peer Stream
  | .createStream peer pick =>
      { s with
        behaviour := s.behaviour.createStream peer pick s.nextId
        nextId := s.nextId + 1
        created := peer :: s.created }
  | .poll entry refused pick =>
      let polled := s.behaviour.poll entry
      { s with behaviour := polled.2 }.handle polled.1 refused pick
  | .dial peer =>
      { s with pool := s.pool.insert s.nextId (.dialing peer), nextId := s.nextId + 1 }
  | .dialFailed cid error pick => s.withDial cid fun peer =>
      { s with
        behaviour := s.behaviour.dialFailure error peer cid pick
        pool := s.pool.erase cid }
  | .inbound peer admission => s.inbound peer admission
  | .outbound cid peer admission pick =>
      s.withDial cid fun _ => s.outbound cid peer pick admission
  | .deliver cid => s.withLink cid fun link =>
      match link.notified with
      | [] => s
      | requests :: notified =>
          s.setLink cid
            { link with notified := notified, handler := link.handler.onBehaviourEvent requests }
  | .handlerPoll cid => s.withLink cid fun link =>
      match link.handler.poll with
      | (.pending, _) => s
      | (.notifyBehaviour event, handler) =>
          s.setLink cid { link with handler := handler, channel := link.channel ++ [event] }
      | (.outboundSubstreamRequest, handler) =>
          s.setLink cid { link with handler := handler, negotiating := link.negotiating + 1 }
  | .negotiated cid result => s.withLink cid fun link =>
      match link.negotiating with
      | 0 => s
      | n + 1 =>
          s.setLink cid
            { link with
              negotiating := n, handler := link.handler.onConnectionEvent (.outgoing result) }
  | .incoming cid stream => s.withLink cid fun link =>
      s.setLink cid { link with handler := link.handler.onConnectionEvent (.incoming stream) }
  | .handlerEvent cid => s.withLink cid fun link =>
      match link.channel with
      | [] => s
      | event :: channel =>
          match s.behaviour.onConnectionHandlerEvent link.peer cid event with
          | none => { s with panicked := true }
          | some b => { s with behaviour := b }.setLink cid { link with channel := channel }
  | .closed cid pick => s.withLink cid fun link =>
      { s with
        behaviour := s.behaviour.connectionClosed link.peer cid pick
        pool := s.pool.erase cid }

/-- What the swarm promises: a dial that is refused at once or later does not end with
`DialPeerConditionFalse`, and a dial for a peer leads to this peer. -/
def Allowed (s : Node Peer Stream) : Action Peer Stream → Prop
  | .poll _ refused _ => refused ≠ some .dialPeerConditionFalse
  | .dialFailed _ error _ => error ≠ .dialPeerConditionFalse
  | .outbound cid peer _ _ => ∀ p, s.pool.lookup cid = some (.dialing (some p)) → p = peer
  | _ => True

/-- The node as a machine. -/
def machine : Machine (Node Peer Stream) (Action Peer Stream) Unit where
  step s a := (s.step a, ())

end Node

end OnionNetwork.Streaming
