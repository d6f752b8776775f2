import OnionNetwork.Onion.Channel
import OnionNetwork.Onion.Upgrade
import OnionNetwork.Streaming.Behaviour

/-!
# The onion behaviour

A node that relays: streams come in, are upgraded, ask for a stream to the next peer, and become a
route once that one is upgraded too. The three loops of `poll` call each other, each may answer
what another one started. So the machine has a stack of the loops that run, and an input is what
the loop on top of it hears next: which future is done, what the hash maps of the streaming
behaviour come to, or that there is nothing left.

`limited_iff` says when a step keeps the number of live routes at `max_streams`. A route that is
closed is one that timed out, and stays so (`Inv`).
-/

namespace OnionNetwork

/-- `find_and_remove`: the last element takes the place of the one found. -/
def Lib.findAndRemove {α : Type*} (q : α → Bool) (xs : List α) : Option (α × List α) :=
  match xs.findIdx? q with
  | none => none
  | some i =>
      match xs[i]?, xs.getLast? with
      | some x, some last => some (x, (xs.set i last).dropLast)
      | _, _ => none

namespace Onion

open Lib Opfusk Enc
open Streaming (ConnectionId)

/-! ## Polling a route -/

namespace Route

/-- Outside of `poll`. -/
def AtRest (route : Route) : Prop :=
  match route.turn with
  | .poll | .ended _ => True
  | .forward | .backward => False

instance (route : Route) : Decidable route.AtRest := by
  unfold AtRest
  split <;> infer_instance

/-- `Route::poll`, with what its streams answer. Answers that do not take it to its end are none. -/
def poll (route : Route) (now : Nat) (first : Answers) (answers : List Answers) : Option Route :=
  let route := answers.foldl
    (fun route a => if route.AtRest then route else route.step now a) (route.step now first)
  if route.AtRest then some route else none

end Route

section

variable (P : Primitives)

/-- `Config`. -/
structure Config where
  secret : Option (Keypair P.ex)
  currentPeerId : P.PeerId
  maxStreams : Nat
  maxErrorStreams : Nat
  keepAliveInterval : Nat
  bufferCap : Nat

/-- `StreamUpgradeError<OUpgradeError>`. -/
inductive OutboundError
  | apply (e : OUpgradeError)
  | stream (e : Streaming.Error)

/-- `Event`, with the secret for the encrypted stream. -/
inductive Event
  | inboundStream (ss : SharedSecret) (pathId : Nat)
  | outboundStream (result : Except OutboundError SharedSecret) (peerId : P.PeerId) (pathId : Nat)

/-- `TS<Event, usize>`. -/
inductive ToSwarm
  | dial (connection : ConnectionId) (peer : P.PeerId)
  | notifyHandler (peer : P.PeerId) (cid : ConnectionId) (requests : Nat)
  | generateEvent (event : Event P)

/-- A loop or a part of `poll`. -/
inductive Frame
  | inbound
  | outbound
  | streams
  | router
  | errorStreams
  deriving DecidableEq, Repr

/-- `Behaviour`, without the streams themselves; the ids of paths and the clock, which are static;
and the loops that run. -/
structure Behaviour [DecidableEq P.PeerId] where
  config : Config P
  router : List Route
  /-- The code that each of them writes. -/
  errorStreams : List UInt8
  /-- The peer of each `upgrade_inbound`. -/
  inbound : List P.PeerId
  /-- What each `upgrade_outbound` is for. -/
  outbound : List (IncomingOrRequest P)
  streaming : Streaming.Behaviour P.PeerId Unit
  events : List (ToSwarm P)
  pendingConnections : List (IncomingStreamMeta P)
  pendingRequests : List (StreamRequest P)
  nextPathId : Nat
  now : Nat
  stack : List Frame

/-- What happens to a behaviour, and what its loops hear. In front of a call of the streaming
behaviour, `pick` is the entry that a hash map starts with, and `cid` the id of a new dial. -/
inductive Input
  | elapse (time : Nat)
  | openPath (recipient mid entry : PublicKey P.ex × P.PeerId) (pick cid : ConnectionId)
  | newHandler (peer : P.PeerId) (cid : ConnectionId)
  | dialFailure (error : Streaming.DialError) (peer : Option P.PeerId) (cid pick : ConnectionId)
  | connectionClosed (peer : P.PeerId) (cid pick : ConnectionId)
  | handlerEvent (peer : P.PeerId) (cid : ConnectionId) (event : Streaming.HEvent Unit)
  | poll
  /-- An `upgrade_inbound` is done. -/
  | inbound (done : Option (Nat × Option (IncomingOrResponse P))) (pick cid : ConnectionId)
  /-- An `upgrade_outbound` is done. -/
  | outbound (done : Option (Nat × Except OUpgradeError SharedSecret))
  | streams (pick : P.PeerId × ConnectionId)
  /-- The router polls one of its routes. -/
  | router (polled : Option (Nat × Answers × List Answers))
  /-- An error stream is done. -/
  | errorStreams (done : Option Nat)

end

variable {P : Primitives}

/-- How `upgrade_outbound` ends. -/
def IncomingOrRequest.finish (result : Except OUpgradeError SharedSecret) :
    IncomingOrRequest P → ChannelSource P
  | .incoming _ => .relay (result.map fun _ => ())
  | .request r => .thisNode result r.pathId r.recipientId

variable [DecidableEq P.PeerId]

namespace Behaviour

/-- `Behaviour::new`. -/
def new (config : Config P) : Behaviour P where
  config := config
  router := []
  errorStreams := []
  inbound := []
  outbound := []
  streaming := .new
  events := []
  pendingConnections := []
  pendingRequests := []
  nextPathId := 0
  now := 0
  stack := []

variable (b : Behaviour P)

/-- A loop starts. -/
def call (frame : Frame) : Behaviour P := { b with stack := frame :: b.stack }

/-- The loop on top ends. -/
def ret : Behaviour P := { b with stack := b.stack.tail }

/-- `self.events.push_back`. -/
def pushEvent (e : ToSwarm P) : Behaviour P := { b with events := b.events ++ [e] }

/-- `push_stream_request`. -/
def pushStreamRequest (sr : StreamRequest P) (pick cid : ConnectionId) : Behaviour P :=
  if sr.toPeer = b.config.currentPeerId then b
  else
    { b with
      streaming := b.streaming.createStream sr.toPeer pick cid
      pendingRequests := b.pendingRequests ++ [sr] }

/-- `open_path`; two equal elements in a row are a panic. -/
def openPath (recipient mid entry : PublicKey P.ex × P.PeerId) (pick cid : ConnectionId) :
    Option (Behaviour P) :=
  if recipient.2 = mid.2 then none
  else
    let sr : StreamRequest P :=
      { toPeer := entry.2
        pathId := b.nextPathId
        recipient := recipient.1
        recipientId := recipient.2
        midRecipient := mid.1
        midId := mid.2 }
    some ({ b with nextPathId := b.nextPathId + 1 }.pushStreamRequest sr pick cid)

/-- `error_streams.push(close_stream(..))`. -/
def closeStream (code : UInt8) : Behaviour P :=
  { b with errorStreams := b.errorStreams ++ [code] }

/-- `poll_inbound`, up to its next future. -/
def pollInbound (done : Option (Nat × Option (IncomingOrResponse P))) (pick cid : ConnectionId) :
    Behaviour P :=
  match done with
  | none => b.ret
  | some (i, res) =>
      let b := { b with inbound := b.inbound.eraseIdx i }
      match res with
      | none => b
      | some (.incoming toPeer buffer) =>
          let b := { b with
            streaming := b.streaming.createStream toPeer pick cid
            pendingConnections := b.pendingConnections ++ [IncomingStreamMeta.mk toPeer buffer] }
          b.call .streams
      | some (.response ss) =>
          { b with nextPathId := b.nextPathId + 1 }.pushEvent
            (.generateEvent (.inboundStream ss b.nextPathId))

/-- `try_close` of every route. -/
def tryClose : List (Route × Bool) :=
  b.router.map (·.tryClose b.now b.config.keepAliveInterval)

/-- `valid_stream_count`. -/
def validStreamCount : Nat := b.tryClose.countP (·.2)

/-- A channel to relay over. -/
def relayChannel : Behaviour P :=
  let closed := { b with router := b.tryClose.map (·.1) }
  if b.config.maxStreams < b.validStreamCount + b.pendingConnections.length then
    if b.config.maxErrorStreams < b.errorStreams.length then closed
    else closed.closeStream occupiedPeer
  else { closed with router := closed.router ++ [Route.new b.now] }

/-- `poll_outbound`, up to its next future. -/
def pollOutbound (done : Option (Nat × Except OUpgradeError SharedSecret)) : Behaviour P :=
  match done with
  | none => b.ret
  | some (i, result) =>
      match b.outbound[i]? with
      | none => b
      | some incoming =>
          let b := { b with outbound := b.outbound.eraseIdx i }
          match incoming.finish result with
          | .relay (.ok ()) => b.relayChannel
          | .relay (.error _) => b
          | .thisNode secret pathId peerId =>
              b.pushEvent (.generateEvent (.outboundStream (secret.mapError .apply) peerId pathId))

/-- `Event::OutgoingStream` with a stream. -/
def outgoingStream (peer : P.PeerId) : Behaviour P :=
  match findAndRemove (fun r => decide (r.toPeer = peer)) b.pendingRequests with
  | some (request, pendingRequests) =>
      let b := { b with
        pendingRequests := pendingRequests
        outbound := b.outbound ++ [IncomingOrRequest.request request] }
      b.call .outbound
  | none =>
      match findAndRemove (fun r => decide (r.toPeer = peer)) b.pendingConnections with
      | some (incoming, pendingConnections) =>
          let b := { b with
            pendingConnections := pendingConnections
            outbound := b.outbound ++ [IncomingOrRequest.incoming incoming] }
          b.call .outbound
      | none => b

/-- `Event::OutgoingStream` with an error. -/
def outgoingFailed (peer : P.PeerId) (err : Streaming.Error) : Behaviour P :=
  match findAndRemove (fun r => decide (r.toPeer = peer)) b.pendingRequests with
  | some (request, pendingRequests) =>
      { b with pendingRequests := pendingRequests }.pushEvent
        (.generateEvent (.outboundStream (.error (.stream err)) peer request.pathId))
  | none =>
      match findAndRemove (fun r => decide (r.toPeer = peer)) b.pendingConnections with
      | some (_, pendingConnections) =>
          { b with pendingConnections := pendingConnections }.closeStream missingPeer
      | none => b

/-- `poll_streams`, up to the next event. -/
def pollStreams (pick : P.PeerId × ConnectionId) : Behaviour P :=
  let (event, streaming) := b.streaming.poll pick
  let b := { b with streaming := streaming }
  match event with
  | .pending => b.ret
  | .notifyHandler peer cid requests => (b.pushEvent (.notifyHandler peer cid requests)).ret
  | .event (.dial cid peer) => (b.pushEvent (.dial cid peer)).ret
  | .event (.generateEvent (.incomingStream peer ())) =>
      if b.config.secret.isSome then { b with inbound := b.inbound ++ [peer] }.call .inbound else b
  | .event (.generateEvent (.outgoingStream peer (.ok ()))) => b.outgoingStream peer
  | .event (.generateEvent (.outgoingStream peer (.error err))) => b.outgoingFailed peer err

/-- `router.poll_next_unpin`, up to its next route. A route that returned is gone. -/
def pollRouter (polled : Option (Nat × Answers × List Answers)) : Behaviour P :=
  match polled with
  | none => b.ret
  | some (i, first, answers) =>
      match b.router[i]?.bind (·.poll b.now first answers) with
      | none => b
      | some route =>
          if route.turn = .poll then { b with router := b.router.set i route }
          else { b with router := b.router.eraseIdx i }.ret

/-- `self.events.pop_front`. -/
def popEvent : Behaviour P × Option (ToSwarm P) :=
  ({ b with events := b.events.tail }, b.events.head?)

/-- `error_streams.poll_next_unpin`, and the end of `poll`. -/
def pollErrorStreams (done : Option Nat) : Behaviour P × Option (ToSwarm P) :=
  match done with
  | none => b.ret.popEvent
  | some i => { b with errorStreams := b.errorStreams.eraseIdx i }.ret.popEvent

/-- `poll`, up to the first loop. -/
def poll : Behaviour P × Option (ToSwarm P) :=
  if b.events = [] then
    ({ b with stack := [.inbound, .outbound, .streams, .router, .errorStreams] }, none)
  else b.popEvent

/-- What an input does, and what a `poll` that ends with it returns. A call that panics is not
made. -/
def handle (b : Behaviour P) : Input P → Behaviour P × Option (ToSwarm P)
  | .elapse time => ({ b with now := b.now + time }, none)
  | .openPath recipient mid entry pick cid =>
      ((b.openPath recipient mid entry pick cid).getD b, none)
  | .newHandler peer cid => ({ b with streaming := (b.streaming.newHandler peer cid).1 }, none)
  | .dialFailure error peer cid pick =>
      ({ b with streaming := b.streaming.dialFailure error peer cid pick }, none)
  | .connectionClosed peer cid pick =>
      ({ b with streaming := b.streaming.connectionClosed peer cid pick }, none)
  | .handlerEvent peer cid event =>
      ({ b with streaming :=
          (b.streaming.onConnectionHandlerEvent peer cid event).getD b.streaming }, none)
  | .poll => b.poll
  | .inbound done pick cid => (b.pollInbound done pick cid, none)
  | .outbound done => (b.pollOutbound done, none)
  | .streams pick => (b.pollStreams pick, none)
  | .router polled => (b.pollRouter polled, none)
  | .errorStreams done => b.pollErrorStreams done

/-- The loop on top hears what it asked for, and there are no calls from outside while one runs.
Time passes whenever it likes. -/
def Hears (b : Behaviour P) : Input P → Prop
  | .elapse _ => True
  | .inbound .. => b.stack.head? = some .inbound
  | .outbound _ => b.stack.head? = some .outbound
  | .streams _ => b.stack.head? = some .streams
  | .router _ => b.stack.head? = some .router
  | .errorStreams _ => b.stack.head? = some .errorStreams
  | .openPath .. | .newHandler .. | .dialFailure .. | .connectionClosed .. | .handlerEvent ..
  | .poll => b.stack = []

instance (b : Behaviour P) (input : Input P) : Decidable (b.Hears input) := by
  cases input <;> unfold Hears <;> infer_instance

/-- One step; what is not heard does nothing. -/
def step (b : Behaviour P) (input : Input P) : Behaviour P × Option (ToSwarm P) :=
  if b.Hears input then b.handle input else (b, none)

end Behaviour

/-- Behaviours, under every order of inputs. -/
def machine (P : Primitives) [DecidableEq P.PeerId] :
    Machine (Behaviour P) (Input P) (Option (ToSwarm P)) := ⟨Behaviour.step⟩

/-! ## The invariant -/

namespace Route

/-- Timed out. -/
def Expired (route : Route) (now interval : Nat) : Prop := interval < now - route.lastPacket

instance (route : Route) (now interval : Nat) : Decidable (route.Expired now interval) :=
  inferInstanceAs (Decidable (interval < now - route.lastPacket))

/-- A route of the router: it is not being polled, and closed because it timed out. -/
structure Kept (route : Route) (now interval : Nat) : Prop where
  turn : route.turn = .poll
  expired : route.closed = true → route.Expired now interval
  channels : route.Inv

variable {route route' : Route} {now now' interval : Nat}

theorem kept_new (now interval : Nat) : (new now).Kept now interval := ⟨rfl, nofun, inv_new now⟩

/-- What timed out stays so. -/
theorem Kept.later (h : route.Kept now interval) (hnow : now ≤ now') :
    route.Kept now' interval := by
  refine ⟨h.turn, fun hclosed => ?_, h.channels⟩
  have hexpired := h.expired hclosed
  unfold Expired at hexpired ⊢
  omega

theorem Kept.tryClose (h : route.Kept now interval) :
    (route.tryClose now interval).1.Kept now interval := by
  refine ⟨?_, ?_, h.channels.tryClose now interval⟩
  · unfold Route.tryClose
    split
    · exact h.turn
    · exact h.turn
  · unfold Route.tryClose
    split
    · next hexpired => exact fun _ => hexpired
    · exact h.expired

/-- Whether a route timed out is what `try_close` answers, and what it leaves. -/
theorem tryClose_open (route : Route) (now interval : Nat) :
    (route.tryClose now interval).2 = !decide (route.Expired now interval) := by
  unfold tryClose Expired
  split
  · next hexpired => simp [hexpired]
  · next hopen => simp [hopen]

theorem Kept.closed_tryClose (h : route.Kept now interval) :
    (route.tryClose now interval).1.closed = decide (route.Expired now interval) := by
  unfold Route.tryClose Expired
  split
  · next hexpired => simp [hexpired]
  · next hopen =>
      have hclosed : ¬ route.closed = true := fun hclosed => hopen (h.expired hclosed)
      simp [hopen, hclosed]

theorem closed_afterBackward (route : Route) (now : Nat) :
    (route.afterBackward now).closed = route.closed := by
  unfold afterBackward
  split
  · rfl
  · split <;> rfl

theorem closed_afterForward (route : Route) (now : Nat) :
    (route.afterForward now).closed = route.closed := by
  unfold afterForward
  split
  · rfl
  · split
    · exact closed_afterBackward _ now
    · rfl

/-- Polling does not close a route. -/
theorem closed_step (route : Route) (now : Nat) (a : Answers) :
    (route.step now a).closed = route.closed := by
  unfold step
  split
  · split
    · rfl
    · exact closed_afterForward _ now
  · exact closed_afterForward _ now
  · exact closed_afterBackward _ now
  · rfl

/-- What one step keeps, a whole poll keeps. -/
theorem poll_induct {Q : Route → Prop} (hstep : ∀ route a, Q route → Q (route.step now a))
    {first : Answers} {answers : List Answers} (h : Q (route.step now first))
    (hpoll : route.poll now first answers = some route') : Q route' := by
  have hfold : ∀ (as : List Answers) (r : Route), Q r →
      Q (as.foldl (fun route a => if route.AtRest then route else route.step now a) r) := by
    intro as
    induction as with
    | nil => exact fun r hr => hr
    | cons a as ih =>
        intro r hr
        rw [List.foldl_cons]
        split
        · exact ih r hr
        · exact ih _ (hstep r a hr)
  simp only [poll] at hpoll
  split at hpoll
  · cases hpoll
    exact hfold answers _ h
  · cases hpoll

/-- A closed route ends when it is polled. -/
theorem Kept.poll (h : route.Kept now interval) {first : Answers} {answers : List Answers}
    (hpoll : route.poll now first answers = some route') (hturn : route'.turn = .poll) :
    route'.Kept now interval ∧ route'.closed = false ∧ route.closed = false := by
  have hclosed : route.closed = false := by
    cases hclosed : route.closed with
    | false => rfl
    | true =>
        have hended : route'.turn = .ended .connectionAborted := by
          refine poll_induct (Q := fun r => r.turn = .ended .connectionAborted) ?_ ?_ hpoll
          · intro r a hr
            simp only [step, hr]
          · simp only [step, h.turn, hclosed, if_true]
        rw [hended] at hturn
        cases hturn
  have hopen : route'.closed = false := by
    refine poll_induct (Q := fun r => r.closed = false) ?_ ?_ hpoll
    · intro r a hr
      rw [closed_step, hr]
    · rw [closed_step, hclosed]
  have hchannels : route'.Inv :=
    poll_induct (fun r a hr => hr.step now a) (h.channels.step now first) hpoll
  refine ⟨⟨hturn, ?_, hchannels⟩, hopen, hclosed⟩
  rw [hopen]
  exact nofun

end Route

namespace Behaviour

/-- The live routes. -/
def live (b : Behaviour P) : Nat := b.router.countP fun route => !route.closed

/-- The routes that have not timed out. -/
def unexpired (b : Behaviour P) : Nat :=
  b.router.countP fun route => !decide (route.Expired b.now b.config.keepAliveInterval)

/-- Every route of the router is as it should be. -/
def Inv (b : Behaviour P) : Prop :=
  ∀ route ∈ b.router, route.Kept b.now b.config.keepAliveInterval

/-- The input completes a relay channel. -/
def Completes (b : Behaviour P) (input : Input P) : Prop :=
  b.Hears input ∧
    match input with
    | .outbound (some (i, .ok _)) =>
        match b.outbound[i]? with
        | some (.incoming _) => True
        | _ => False
    | _ => False

/-- What a step does to the router. -/
inductive Routed (b b' : Behaviour P) : Prop
  | same (hrouter : b'.router = b.router) (hnow : b.now ≤ b'.now)
  | polled {i : Nat} {route route' : Route} {first : Answers} {answers : List Answers}
      (hroute : b.router[i]? = some route)
      (hpoll : route.poll b.now first answers = some route') (hturn : route'.turn = .poll)
      (hrouter : b'.router = b.router.set i route') (hnow : b'.now = b.now)
  | removed {i : Nat} (hrouter : b'.router = b.router.eraseIdx i) (hnow : b'.now = b.now)

variable {b b' : Behaviour P}

theorem inv_new (config : Config P) : (new config).Inv := by
  simp [Inv, new]

/-- A step that admits no route makes none. -/
theorem Routed.live_le (h : Routed b b') (hinv : b.Inv) : b'.live ≤ b.live := by
  cases h with
  | same hrouter hnow => rw [live, hrouter, live]
  | polled hroute hpoll hturn hrouter hnow =>
      obtain ⟨hi, hget⟩ := List.getElem?_eq_some_iff.mp hroute
      have hkept := hinv _ (List.mem_of_getElem? hroute)
      obtain ⟨-, hopen', hopen⟩ := hkept.poll hpoll hturn
      rw [live, hrouter, live, List.countP_set hi, hget]
      simp only [hopen, hopen', Bool.not_false, if_true]
      have hpos : 0 < b.router.countP fun route => !route.closed :=
        List.countP_pos_iff.mpr ⟨_, List.mem_of_getElem? hroute, by simp [hopen]⟩
      omega
  | removed hrouter hnow =>
      rw [live, hrouter, live]
      exact (List.eraseIdx_sublist ..).countP_le

theorem Routed.inv (h : Routed b b') (hconfig : b'.config = b.config) (hinv : b.Inv) : b'.Inv := by
  intro route hmem
  cases h with
  | same hrouter hnow =>
      rw [hrouter] at hmem
      rw [hconfig]
      exact (hinv route hmem).later hnow
  | polled hroute hpoll hturn hrouter hnow =>
      rw [hrouter] at hmem
      rw [hconfig, hnow]
      rcases List.mem_or_eq_of_mem_set hmem with hold | rfl
      · exact hinv route hold
      · exact ((hinv _ (List.mem_of_getElem? hroute)).poll hpoll hturn).1
  | removed hrouter hnow =>
      rw [hrouter] at hmem
      rw [hconfig, hnow]
      exact hinv route (List.mem_of_mem_eraseIdx hmem)

/-! ### What each part does to the router -/

/-- The parts that have nothing to do with the router. -/
structure Keeps (b b' : Behaviour P) : Prop where
  router : b'.router = b.router
  now : b'.now = b.now
  config : b'.config = b.config

theorem Keeps.refl (b : Behaviour P) : Keeps b b := ⟨rfl, rfl, rfl⟩

theorem Keeps.trans {b'' : Behaviour P} (h : Keeps b b') (h' : Keeps b' b'') : Keeps b b'' where
  router := h'.router.trans h.router
  now := h'.now.trans h.now
  config := h'.config.trans h.config

theorem keeps_openPath (recipient mid entry : PublicKey P.ex × P.PeerId) (pick cid : ConnectionId) :
    Keeps b ((b.openPath recipient mid entry pick cid).getD b) := by
  unfold openPath
  split
  · exact .refl b
  · simp only [Option.getD_some, pushStreamRequest]
    split <;> exact ⟨rfl, rfl, rfl⟩

theorem keeps_pollInbound (done : Option (Nat × Option (IncomingOrResponse P)))
    (pick cid : ConnectionId) : Keeps b (b.pollInbound done pick cid) := by
  unfold pollInbound
  split
  · exact ⟨rfl, rfl, rfl⟩
  · split <;> exact ⟨rfl, rfl, rfl⟩

theorem keeps_outgoingStream (peer : P.PeerId) : Keeps b (b.outgoingStream peer) := by
  unfold outgoingStream
  split
  · exact ⟨rfl, rfl, rfl⟩
  · split <;> exact ⟨rfl, rfl, rfl⟩

theorem keeps_outgoingFailed (peer : P.PeerId) (err : Streaming.Error) :
    Keeps b (b.outgoingFailed peer err) := by
  unfold outgoingFailed
  split
  · exact ⟨rfl, rfl, rfl⟩
  · split <;> exact ⟨rfl, rfl, rfl⟩

theorem keeps_pollStreams (pick : P.PeerId × ConnectionId) : Keeps b (b.pollStreams pick) := by
  have hpolled : Keeps b { b with streaming := (b.streaming.poll pick).2 } := ⟨rfl, rfl, rfl⟩
  simp only [pollStreams]
  split
  · exact ⟨rfl, rfl, rfl⟩
  · exact ⟨rfl, rfl, rfl⟩
  · exact ⟨rfl, rfl, rfl⟩
  · split <;> exact ⟨rfl, rfl, rfl⟩
  · next peer _ => exact hpolled.trans (keeps_outgoingStream peer)
  · next peer err _ => exact hpolled.trans (keeps_outgoingFailed peer err)

theorem keeps_pollErrorStreams (done : Option Nat) : Keeps b (b.pollErrorStreams done).1 := by
  cases done <;> exact ⟨rfl, rfl, rfl⟩

theorem keeps_poll : Keeps b b.poll.1 := by
  unfold poll
  split <;> exact ⟨rfl, rfl, rfl⟩

theorem Keeps.routed (h : Keeps b b') : Routed b b' := .same h.router h.now.ge

theorem routed_pollRouter (polled : Option (Nat × Answers × List Answers)) :
    Routed b (b.pollRouter polled) ∧ (b.pollRouter polled).config = b.config := by
  unfold pollRouter
  split
  · exact ⟨.same rfl (Nat.le_refl _), rfl⟩
  · next i first answers =>
      split
      · exact ⟨.same rfl (Nat.le_refl _), rfl⟩
      · next route' hroute' =>
          obtain ⟨route, hroute, hpoll⟩ := Option.bind_eq_some_iff.mp hroute'
          by_cases hturn : route'.turn = .poll
          · rw [if_pos hturn]
            exact ⟨.polled hroute hpoll hturn rfl rfl, rfl⟩
          · rw [if_neg hturn]
            exact ⟨.removed rfl rfl, rfl⟩

/-- What a step keeps of a behaviour that admits a route. -/
structure Admits (b b₀ : Behaviour P) : Prop extends Keeps b b₀ where
  pending : b₀.pendingConnections = b.pendingConnections

/-- An upgrade that is done admits a route if it completes a channel. -/
theorem pollOutbound_cases (done : Option (Nat × Except OUpgradeError SharedSecret))
    (hheard : b.Hears (.outbound done)) :
    (¬ b.Completes (.outbound done) ∧ Keeps b (b.pollOutbound done)) ∨
      (b.Completes (.outbound done) ∧
        ∃ b₀, Admits b b₀ ∧ b.pollOutbound done = b₀.relayChannel) := by
  unfold Completes
  rw [and_iff_right hheard]
  cases done with
  | none => exact .inl ⟨id, rfl, rfl, rfl⟩
  | some done =>
      obtain ⟨i, result⟩ := done
      cases hget : b.outbound[i]? with
      | none =>
          simp only [pollOutbound, hget]
          cases result <;> exact .inl ⟨by simp [hget], .refl b⟩
      | some upgrade =>
          simp only [pollOutbound, hget]
          cases upgrade with
          | incoming _ =>
              cases result with
              | error e => exact .inl ⟨id, rfl, rfl, rfl⟩
              | ok ss =>
                  exact .inr ⟨by simp [hget], { b with outbound := b.outbound.eraseIdx i },
                    ⟨⟨rfl, rfl, rfl⟩, rfl⟩, rfl⟩
          | request r =>
              cases result <;> exact .inl ⟨by simp [hget], rfl, rfl, rfl⟩

/-- **The two kinds of steps.** Only a completed channel makes a route. -/
theorem step_cases (b : Behaviour P) (input : Input P) :
    (¬ b.Completes input ∧ Routed b (b.step input).1 ∧ (b.step input).1.config = b.config) ∨
      (b.Completes input ∧ ∃ b₀, Admits b b₀ ∧ (b.step input).1 = b₀.relayChannel) := by
  unfold step
  by_cases hheard : b.Hears input
  · rw [if_pos hheard]
    have hkeeps : Keeps b (b.handle input).1 → ¬ b.Completes input →
        (¬ b.Completes input ∧ Routed b (b.handle input).1 ∧ (b.handle input).1.config = b.config) ∨
          (b.Completes input ∧ ∃ b₀, Admits b b₀ ∧ (b.handle input).1 = b₀.relayChannel) :=
      fun h hnot => .inl ⟨hnot, h.routed, h.config⟩
    cases input with
    | elapse time => exact .inl ⟨And.right, .same rfl (Nat.le_add_right _ _), rfl⟩
    | openPath recipient mid entry pick cid => exact hkeeps (keeps_openPath ..) And.right
    | newHandler peer cid => exact hkeeps ⟨rfl, rfl, rfl⟩ And.right
    | dialFailure error peer cid pick => exact hkeeps ⟨rfl, rfl, rfl⟩ And.right
    | connectionClosed peer cid pick => exact hkeeps ⟨rfl, rfl, rfl⟩ And.right
    | handlerEvent peer cid event => exact hkeeps ⟨rfl, rfl, rfl⟩ And.right
    | poll => exact hkeeps keeps_poll And.right
    | inbound done pick cid => exact hkeeps (keeps_pollInbound ..) And.right
    | outbound done =>
        rcases pollOutbound_cases done hheard with ⟨hnot, hk⟩ | hadmits
        · exact hkeeps hk hnot
        · exact .inr hadmits
    | streams pick => exact hkeeps (keeps_pollStreams pick) And.right
    | router polled => exact .inl ⟨And.right, routed_pollRouter polled⟩
    | errorStreams done => exact hkeeps (keeps_pollErrorStreams done) And.right
  · rw [if_neg hheard]
    exact .inl ⟨fun h => hheard h.1, (Keeps.refl b).routed, rfl⟩

/-! ### Admission -/

theorem validStreamCount_eq (b : Behaviour P) : b.validStreamCount = b.unexpired := by
  simp only [validStreamCount, tryClose, List.countP_map, unexpired]
  congr 1
  funext route
  exact route.tryClose_open _ _

/-- Once the routes that timed out are closed, the others are the live ones. -/
theorem countP_tryClose (hinv : b.Inv) :
    (b.tryClose.map (·.1)).countP (fun route => !route.closed) = b.unexpired := by
  simp only [tryClose, List.map_map, List.countP_map, unexpired]
  refine List.countP_congr fun route hmem => ?_
  simp [(hinv route hmem).closed_tryClose]

theorem unexpired_le_live (hinv : b.Inv) : b.unexpired ≤ b.live := by
  refine List.countP_mono_left fun route hmem hopen => ?_
  have hclosed := (hinv route hmem).expired
  cases hroute : route.closed with
  | false => rfl
  | true => simp [hclosed hroute] at hopen

/-- What admission does to the router. -/
theorem router_relayChannel (b : Behaviour P) :
    b.relayChannel.router =
      if b.config.maxStreams < b.unexpired + b.pendingConnections.length then b.tryClose.map (·.1)
      else b.tryClose.map (·.1) ++ [Route.new b.now] := by
  simp only [relayChannel, validStreamCount_eq]
  split
  · split <;> rfl
  · rfl

theorem now_relayChannel (b : Behaviour P) : b.relayChannel.now = b.now := by
  unfold relayChannel
  split
  · split <;> rfl
  · rfl

theorem config_relayChannel (b : Behaviour P) : b.relayChannel.config = b.config := by
  unfold relayChannel
  split
  · split <;> rfl
  · rfl

theorem live_relayChannel (hinv : b.Inv) :
    b.relayChannel.live =
      if b.config.maxStreams < b.unexpired + b.pendingConnections.length then b.unexpired
      else b.unexpired + 1 := by
  rw [live, router_relayChannel]
  split
  · exact countP_tryClose hinv
  · rw [List.countP_append, countP_tryClose hinv]
    rfl

theorem Inv.relayChannel (hinv : b.Inv) : b.relayChannel.Inv := by
  have htried : ∀ route ∈ b.tryClose.map (·.1), route.Kept b.now b.config.keepAliveInterval := by
    intro route hmem
    simp only [tryClose, List.map_map, List.mem_map] at hmem
    obtain ⟨old, hold, rfl⟩ := hmem
    exact (hinv old hold).tryClose
  intro route hmem
  rw [now_relayChannel, config_relayChannel]
  rw [router_relayChannel] at hmem
  split at hmem
  · exact htried route hmem
  · rcases List.mem_append.mp hmem with hold | hnew
    · exact htried route hold
    · rw [List.mem_singleton.mp hnew]
      exact Route.kept_new _ _

theorem Admits.inv {b₀ : Behaviour P} (h : Admits b b₀) (hinv : b.Inv) : b₀.Inv := by
  intro route hmem
  rw [h.router] at hmem
  rw [h.now, h.config]
  exact hinv route hmem

theorem Admits.unexpired {b₀ : Behaviour P} (h : Admits b b₀) : b₀.unexpired = b.unexpired := by
  rw [Behaviour.unexpired, h.router, h.now, h.config, Behaviour.unexpired]

/-- The configuration stays. -/
theorem config_step (b : Behaviour P) (input : Input P) : (b.step input).1.config = b.config := by
  rcases step_cases b input with ⟨-, -, hconfig⟩ | ⟨-, b₀, hadmits, heq⟩
  · exact hconfig
  · rw [heq, config_relayChannel, hadmits.config]

/-- **One step** keeps the routes as they should be. -/
theorem Inv.step (hinv : b.Inv) (input : Input P) : (b.step input).1.Inv := by
  rcases step_cases b input with ⟨-, hrouted, hconfig⟩ | ⟨-, b₀, hadmits, heq⟩
  · exact hrouted.inv hconfig hinv
  · rw [heq]
    exact (hadmits.inv hinv).relayChannel

/-! ### The limit -/

/-- The limit of the configuration. -/
def WithinLimit (b : Behaviour P) : Prop := b.live ≤ b.config.maxStreams

instance (b : Behaviour P) : Decidable b.WithinLimit :=
  inferInstanceAs (Decidable (b.live ≤ b.config.maxStreams))

/-- Not a channel that is completed while as many routes as are allowed have not timed out, and no
path waits for its stream. -/
def Careful (b : Behaviour P) (input : Input P) : Prop :=
  ¬ (b.Completes input ∧ b.unexpired = b.config.maxStreams ∧ b.pendingConnections = [])

/-- **One step within the limit** ends there exactly if it is careful. -/
theorem limited_iff (hinv : b.Inv) (hlimit : b.WithinLimit) (input : Input P) :
    (b.step input).1.WithinLimit ↔ b.Careful input := by
  unfold WithinLimit
  rw [config_step]
  rcases step_cases b input with ⟨hnot, hrouted, -⟩ | ⟨hcompletes, b₀, hadmits, heq⟩
  · exact iff_of_true (Nat.le_trans (hrouted.live_le hinv) hlimit) fun h => hnot h.1
  · have hvalid := Nat.le_trans (unexpired_le_live hinv) hlimit
    rw [heq, live_relayChannel (hadmits.inv hinv), hadmits.unexpired, hadmits.config,
      hadmits.pending]
    unfold Careful
    rw [and_iff_right hcompletes, ← List.length_eq_zero_iff]
    split <;> omega

end Behaviour

end Onion

end OnionNetwork
