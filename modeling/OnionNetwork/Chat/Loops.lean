import OnionNetwork.Chat.Headers

/-!
# The loops of a client connection

`run_client` of the server waits for a request of the client or for an event of one of its
subscriptions. A request is refused, and the connection closed, when its body is
too long or when the node is not in the replication group of the topic; the rest is
up to `api::client_router`.

`RawSub::run` of the client waits for a request to send or for a response. A
response belongs to the call it names: it answers a request, confirms a
subscription or is an event of one.
-/

namespace OnionNetwork.Server

open Chat Lib

/-- `ClientEvent::Sub`. -/
structure ClientEvent where
  callId : CallId
  data : Bytes

/-- What the loop gets from the rest of the server: `RoutingTable::closest` for the
key of a topic, the id of the node, and `api::client_router`. -/
structure ClientContext (σ : Type) where
  localPeerId : NodeIdentity
  closest : Bytes → List NodeIdentity
  /-- The endpoint of the request takes a body of this length. -/
  takesBody : σ → RequestHeader → Bool
  /-- What the endpoint makes of the request: the state of the server and the bytes
  it writes, or an error. -/
  clientRouter : σ → RequestHeader → Topic → Bytes → Option (σ × Bytes)

/-- The server and the bytes written to the client. -/
structure ClientSide (σ : Type) where
  context : σ
  written : Bytes

/-- `handle_event`. -/
def ClientSide.handleEvent {σ : Type} (s : ClientSide σ) (event : ClientEvent) : ClientSide σ :=
  let header : ResponseHeader := ⟨event.callId, u32ToBeBytes event.data.length⟩
  { s with written := s.written ++ header.asBytes.toList ++ event.data }

/-- The checks of `handle_request` in front of the router. -/
def ClientContext.admits {σ : Type} (cx : ClientContext σ) (h : RequestHeader) : Bool :=
  h.getLen ≤ 2 ^ 16 - 1 && (cx.closest (Topic.decompress h.topic).asBytes).contains cx.localPeerId

/-- `run_client`. -/
def runClient {σ : Type} (cx : ClientContext σ) :
    Service requestFormat ClientEvent (ClientSide σ) where
  admits s h := cx.admits h && cx.takesBody s.context h
  serve s f :=
    (cx.clientRouter s.context f.header (Topic.decompress f.header.topic) f.body).map
      fun r => ⟨r.1, s.written ++ r.2⟩
  onEvent s event := some (s.handleEvent event)

end OnionNetwork.Server

namespace OnionNetwork.Client

open Chat Lib

/-- A channel of the client to the task that waits for a response. -/
abbrev Channel := Nat

/-- `RegisteredCall`. -/
inductive RegisteredCall
  | chatSub (chat : ChatName) (ch : Channel)
  | newChatSub (chat : ChatName) (ch : Channel)
  | request (resp : Channel)
  | profileSub (id : ByteArr 32) (ch : Channel)
  | newProfileSub (id : ByteArr 32) (ch : Channel)

/-- `SubscriptionRequest`. -/
structure SubscriptionRequest where
  rpcPrefix : ByteArr 2
  topic : Topic
  body : Bytes
  rc : RegisteredCall

/-- What the loop gets from the rest of the client: which channels still have a
receiver, which bytes decode, and the prefix of `UNSUBSCRIBE`. -/
structure SubContext where
  receiver : Channel → Bool
  /-- `Result::<(), ChatError>::decode_exact` gives `Ok`. -/
  confirms : Bytes → Bool
  /-- `ChatEvent::decode_exact`. -/
  isChatEvent : Bytes → Bool
  /-- `MailVariant::decode_exact`. -/
  isMail : Bytes → Bool
  unsubscribe : ByteArr 2

/-- `Topic::compress`. -/
def compress (topic : Topic) : ByteArr 32 where
  toList := (topic.asBytes ++ List.replicate 32 0xff).take 32
  length_eq := by simp

/-- The registered calls by id, the counter of `next_call_id`, the bytes written and
what was sent into the channels. -/
structure SubState where
  subs : CallId → Option RegisteredCall
  counter : Nat
  written : Bytes
  delivered : List (Channel × Bytes)

namespace SubState

/-- The call is no longer registered. -/
def remove (s : SubState) (id : CallId) : SubState :=
  { s with subs := Function.update s.subs id none }

/-- `subs.insert`. -/
def insert (s : SubState) (id : CallId) (rc : RegisteredCall) : SubState :=
  { s with subs := Function.update s.subs id (some rc) }

/-- A request is written, under the next call id. -/
def write (s : SubState) (rpcPrefix : ByteArr 2) (topic : Topic) (body : Bytes) : SubState :=
  let header : RequestHeader :=
    ⟨rpcPrefix, u32ToBeBytes s.counter, compress topic, u32ToBeBytes body.length⟩
  { s with
    counter := (s.counter + 1) % 2 ^ 32
    written := s.written ++ header.asBytes.toList ++ body }

/-- `handle_request`; the loop ends when nobody can send requests any more. -/
def handleRequest (s : SubState) : Option SubscriptionRequest → Option SubState
  | none => none
  | some req =>
      some ((s.write req.rpcPrefix req.topic req.body).insert (u32ToBeBytes s.counter) req.rc)

/-- An event of a subscription: its receiver gets it, or the client unsubscribes. -/
def deliver (cx : SubContext) (s : SubState) (id : CallId) (rc : RegisteredCall) (topic : Topic)
    (ch : Channel) (decodes : Bool) (data : Bytes) : SubState :=
  if decodes then
    if cx.receiver ch then { s with delivered := s.delivered ++ [(ch, data)] }.insert id rc
    else s.write cx.unsubscribe topic []
  else s.insert id rc

/-- `handle_response`. -/
def handleResponse (cx : SubContext) (s : SubState) (id : CallId) (data : Bytes) : SubState :=
  match s.subs id with
  | none => s
  | some (.newChatSub chat ch) =>
      if cx.confirms data then (s.remove id).insert id (.chatSub chat ch) else s.remove id
  | some (.newProfileSub pf ch) =>
      if cx.confirms data then (s.remove id).insert id (.profileSub pf ch) else s.remove id
  | some (.chatSub chat ch) =>
      (s.remove id).deliver cx id (.chatSub chat ch) (.chat chat) ch (cx.isChatEvent data) data
  | some (.profileSub pf ch) =>
      (s.remove id).deliver cx id (.profileSub pf ch) (.profile pf) ch (cx.isMail data) data
  | some (.request resp) =>
      if cx.receiver resp then
        { s.remove id with delivered := s.delivered ++ [(resp, data)] }
      else s.remove id

end SubState

/-- `RawSub::run`. -/
def rawSubRun (cx : SubContext) :
    Service responseFormat (Option SubscriptionRequest) SubState where
  admits _ _ := true
  serve s f := some (s.handleResponse cx f.header.callId f.body)
  onEvent s req := s.handleRequest req

end OnionNetwork.Client
