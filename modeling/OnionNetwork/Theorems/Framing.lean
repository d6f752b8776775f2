import OnionNetwork.Chat.Loops

/-!
# Framing under concurrency

`framing_kept`: both loops of a connection, the one of the server and the one of
the client, read exactly the frames the other side sent, in every run that
handles events between frames only. An event that comes while a part of a header is
read takes this part with it: `run_client` and `RawSub::run` then wait for a header
that does not come, or read one out of the middle of the stream.
-/

namespace OnionNetwork

open Chat Lib

/-- **Events between frames lose nothing**, for the requests a server reads and for
the responses a client reads. -/
theorem framing_kept {σ : Type} (cx : Server.ClientContext σ) (side : Server.ClientSide σ)
    (requests : List (Frame requestFormat)) (sub : Client.SubContext) (state : Client.SubState)
    (responses : List (Frame responseFormat)) :
    (∀ is : List (LoopInput UInt8 Server.ClientEvent),
      (Loop.machine (Server.runClient cx)).EachStep Loop.EventsBetweenFrames
        (Loop.start side) is →
      Loop.ReadsSent (Server.runClient cx) requests
        ((Loop.machine (Server.runClient cx)).run (Loop.start side) is)) ∧
    ∀ is : List (LoopInput UInt8 (Option Client.SubscriptionRequest)),
      (Loop.machine (Client.rawSubRun sub)).EachStep Loop.EventsBetweenFrames
        (Loop.start state) is →
      Loop.ReadsSent (Client.rawSubRun sub) responses
        ((Loop.machine (Client.rawSubRun sub)).run (Loop.start state) is) := by
  constructor
  · intro is hok
    exact Loop.readsSent_run hok requests
  · intro is hok
    exact Loop.readsSent_run hok responses

/-! ### One request -/

/-- A server that answers every request with nothing. -/
def quietContext : Server.ClientContext Unit where
  localPeerId := 0
  closest _ := [0]
  takesBody _ _ := true
  clientRouter _ _ _ _ := some ((), [])

/-- A request without a body. -/
def emptyRequest : Frame requestFormat where
  header := RequestHeader.fromArray ⟨List.replicate 42 0, rfl⟩
  body := []
  length_body := rfl

/-- The request arrives in two pieces, an event after the second one. -/
def eventBehind : List (LoopInput UInt8 Server.ClientEvent) :=
  [.arrive (List.replicate 21 0), .poll 42, .arrive (List.replicate 21 0), .poll 42,
    .enqueue ⟨u32ToBeBytes 0, []⟩, .event]

/-- The request arrives in two pieces, an event between them. -/
def eventBetween : List (LoopInput UInt8 Server.ClientEvent) :=
  [.arrive (List.replicate 21 0), .poll 42, .enqueue ⟨u32ToBeBytes 0, []⟩, .event,
    .arrive (List.replicate 21 0), .poll 42]

/-- A client without subscriptions. -/
def idleSub : Client.SubContext := ⟨fun _ => true, fun _ => true, fun _ => true, fun _ => true,
  ⟨[0, 0], rfl⟩⟩

theorem framing_kept_eventBehind :
    Loop.ReadsSent (Server.runClient quietContext) [emptyRequest]
      ((Loop.machine (Server.runClient quietContext)).run (Loop.start ⟨(), []⟩) eventBehind) := by
  refine (framing_kept quietContext ⟨(), []⟩ [emptyRequest] idleSub ⟨fun _ => none, 0, [], []⟩
    []).1 eventBehind ?_
  refine ⟨trivial, trivial, trivial, trivial, trivial, ?_, trivial⟩
  intro buf hbuf _
  exact (Phase.selecting.inj hbuf).symm

/-- All bytes of the request arrived and are read, and the loop waits for a header. -/
theorem event_drops_header :
    ¬ Loop.ReadsSent (Server.runClient quietContext) [emptyRequest]
      ((Loop.machine (Server.runClient quietContext)).run (Loop.start ⟨(), []⟩)
        eventBetween) := by
  intro h
  have hsent : Frame.encodeAll [emptyRequest] = List.replicate 42 0 := by decide
  obtain ⟨_, _, hall⟩ := h (by rw [hsent]; exact List.prefix_refl _)
  rcases hall (by rw [hsent]; rfl) 0 (Nat.le_refl 0) with hphase | hserved
  · cases hphase
  · cases hserved

end OnionNetwork
