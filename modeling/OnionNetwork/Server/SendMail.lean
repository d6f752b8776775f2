import OnionNetwork.Server.Mailbox
import OnionNetwork.Server.Repl
import OnionNetwork.Chat.Loops

/-!
# Sending mail

`api::profile::send_mail` on the nodes of a replication group. The node a client
asks forwards the mail to the node where the owner is online and then, unless the
mail was sent directly, replicates the request to the others of the group; these run
the same handler with a remote origin.

A handler runs as a whole, but for the forwarded request that it waits for. The
forwarded request and the replicated one can reach a node in either order, and each
can be lost on its way or on its way back. A forwarded request that is neither
answered nor fails does not return: there is no timeout on it, and the call is not
finished. What `start_recovery` spawns is not part of the call.
-/

namespace OnionNetwork.Server

open Chat Lib

/-- `onion::PathId`. -/
abbrev PathId := Nat

/-- `Client`: whether the receiver of its events is gone, and how many more events
the channel takes. -/
structure Client where
  closed : Bool
  room : Nat
  deriving DecidableEq

/-- `mpsc::Sender::try_send`. -/
def Client.trySend (client : Client) : Option Client :=
  if client.closed = true ∨ client.room = 0 then none
  else some { client with room := client.room - 1 }

/-- `OnlineLocation`. -/
inductive OnlineLocation
  | localPath (path : PathId)
  | remote (peer : NodeIdentity)
  deriving DecidableEq

/-- What a node keeps about one profile: the entries of `online` and of
`profile_subs`, the answers of `has_profile` and `get_profile`, the mailbox of the
latter; and all its clients. -/
structure MailContext where
  online : Option OnlineLocation
  profileSub : Option (PathId × CallId)
  clients : PathId → Option Client
  hasProfile : Bool
  profile : Option Mailbox

/-- Where a handler put the mail. -/
inductive Effect
  | stored
  | pushed (path : PathId) (event : ClientEvent)

/-- The end of a handler. -/
structure Served where
  cx : MailContext
  effect : Option Effect
  response : Response Unit

/-- `send_mail` up to its end, or up to the request it sends on. -/
inductive Handled
  | done (served : Served)
  | sendRpc (peer : NodeIdentity)

namespace MailContext

/-- `push_mail`. -/
def pushMail (cx : MailContext) (mail : Bytes) : Served :=
  match cx.profile with
  | none => ⟨cx, none, .error .notFound⟩
  | some mailbox =>
      match mailbox.appendMail mail with
      | .error e => ⟨cx, none, .error e⟩
      | .ok mailbox => ⟨{ cx with profile := some mailbox }, some .stored, .ok ()⟩

/-- `Context::push_profile_event`: with no effect where the source returns `false`. -/
def pushProfileEvent (cx : MailContext) (mail : Bytes) : MailContext × Option Effect :=
  match cx.profileSub with
  | none => (cx, none)
  | some (path, callId) =>
      match cx.clients path with
      | none => (cx, none)
      | some client =>
          match client.trySend with
          | none => ({ cx with profileSub := none }, none)
          | some client =>
              ({ cx with clients := Function.update cx.clients path (some client) },
                some (.pushed path ⟨callId, mail⟩))

/-- The end of `send_mail`: the owner is not online any more. -/
def storeOffline (cx : MailContext) (mail : Bytes) : Served :=
  pushMail { cx with online := none } mail

/-- `send_mail`. -/
def sendMail (cx : MailContext) (origin : OnlineLocation) (mail : Bytes) : Handled :=
  match cx.online with
  | none => .done (cx.pushMail mail)
  | some (.localPath p) =>
      if OnlineLocation.localPath p = origin then .done ⟨cx, none, .error .sendingToSelf⟩
      else
        match cx.pushProfileEvent mail with
        | (cx, some effect) => .done ⟨cx, some effect, .error .sentDirectly⟩
        | (cx, none) => .done (cx.storeOffline mail)
  | some (.remote peer) =>
      match origin with
      | .remote _ => .done (cx.storeOffline mail)
      | .localPath _ => .sendRpc peer

/-- `send_mail` behind `send_rpc`. -/
def afterRpc (cx : MailContext) (mail : Bytes) (answer : Except ChatError (Response Unit)) :
    Served :=
  if answer = .ok (.error .sentDirectly) then ⟨cx, none, .error .sentDirectly⟩
  else cx.storeOffline mail

/-- `send_mail.restored()`, on a request of another node. -/
def serverSendMail (cx : MailContext) (origin : NodeIdentity) (mail : Bytes) : Served :=
  if cx.hasProfile then
    match cx.sendMail (.remote origin) mail with
    | .done served => served
    -- not reached: what comes from another node is not sent on
    | .sendRpc _ => ⟨cx, none, .error .noReplicator⟩
  else ⟨cx, none, .error .ongoingRecovery⟩

end MailContext

/-- A node, and where its handlers put the mail so far. -/
structure MailNode where
  cx : MailContext
  log : List Effect

namespace MailNode

def follow (node : MailNode) (served : Served) : MailNode :=
  ⟨served.cx, node.log ++ served.effect.toList⟩

/-- A node that handles the request of another one. -/
def receive (origin : NodeIdentity) (mail : Bytes) (node : MailNode) : MailNode :=
  node.follow (node.cx.serverSendMail origin mail)

/-- How often the mail was appended to the mailbox. -/
def stored (node : MailNode) : Nat := node.log.countP fun e => e matches .stored

/-- How often the mail was sent to the subscription of the owner. -/
def pushed (node : MailNode) : Nat := node.log.countP fun e => e matches .pushed _ _

end MailNode

/-- The nodes by their identities. -/
abbrev MailNodes := NodeIdentity → MailNode

/-! ### The requests between the nodes -/

/-- What becomes of the forwarded request. -/
inductive Forward
  /-- No stream could be opened. -/
  | notConnected
  /-- The stream fails, and the request is not handled. -/
  | lost (kind : ErrorKind)
  /-- The request is handled, and the stream fails before the answer is read. If it
  is `late`, the replicated request is handled first. -/
  | unanswered (kind : ErrorKind) (late : Bool)
  | answered

/-- The stream fails after so many milliseconds, or stays silent. -/
abbrev Failure := Option (Nat × ErrorKind)

/-- What becomes of a replicated request. -/
inductive Route
  | notConnected
  /-- The request is not handled. -/
  | lost (failure : Failure)
  /-- The request is handled, and the answer is lost. -/
  | unanswered (failure : Failure)
  /-- The answer is there after so many milliseconds. -/
  | answered (afterMs : Nat)

def Forward.arrives : Forward → Bool
  | .notConnected | .lost _ => false
  | .unanswered _ _ | .answered => true

/-- The forwarded request arrives, and in front of the replicated one. -/
def Forward.arrivesFirst : Forward → Bool
  | .notConnected | .lost _ | .unanswered _ true => false
  | .unanswered _ false | .answered => true

theorem Forward.arrives_of_first {forward : Forward} (h : forward.arrivesFirst = true) :
    forward.arrives = true := by
  cases forward with
  | notConnected => cases h
  | lost kind => cases h
  | unanswered kind late => rfl
  | answered => rfl

def Route.arrives : Route → Bool
  | .notConnected | .lost _ => false
  | .unanswered _ | .answered _ => true

/-- What `read_exact` of the answer does, where the answer is `bytes`. -/
def Route.reply (bytes : Bytes) : Route → PeerReply
  | .notConnected => .notConnected
  | .lost none | .unanswered none => .silent
  | .lost (some (afterMs, kind)) | .unanswered (some (afterMs, kind)) => .read afterMs (.error kind)
  | .answered afterMs => .read afterMs (.ok bytes)

/-- The future of the stream, where `response` is the answer. -/
def Route.future (response : Response Unit) (route : Route) :
    Option (Nat × Except ChatError (Response Unit)) :=
  (route.reply []).future fun _ => some response

/-- The answer is there before the timeout. -/
def Route.inTime : Route → Bool
  | .answered afterMs => afterMs < replTimeout
  | _ => false

/-- A stream was opened, and no answer is there before the timeout. -/
def Route.fails : Route → Bool
  | .notConnected => false
  | .lost _ | .unanswered _ => true
  | .answered afterMs => replTimeout ≤ afterMs

theorem Route.future_of_inTime {route : Route} (response : Response Unit)
    (h : route.inTime = true) :
    ∃ afterMs, route.future response = some (afterMs, .ok response) := by
  cases route with
  | answered afterMs =>
      have hlt : afterMs < replTimeout := of_decide_eq_true h
      exact ⟨afterMs, by simp [future, reply, PeerReply.future, hlt]⟩
  | notConnected => cases h
  | lost failure => cases h
  | unanswered failure => cases h

theorem Route.future_of_fails {route : Route} (response : Response Unit) (h : route.fails = true) :
    ∃ afterMs e, route.future response = some (afterMs, .error e) ∧ e ≠ .sentDirectly := by
  -- an answer that is lost, on either way
  have hlost : ∀ failure : Failure, ∃ afterMs e,
      (reply [] (.lost failure)).future (fun _ => some response) = some (afterMs, .error e) ∧
        e ≠ .sentDirectly := by
    intro failure
    cases failure with
    | none => exact ⟨replTimeout, .timeout, rfl, ChatError.noConfusion⟩
    | some failure =>
        obtain ⟨afterMs, kind⟩ := failure
        by_cases hlt : afterMs < replTimeout
        · exact ⟨afterMs, .io kind, if_pos hlt, ChatError.noConfusion⟩
        · exact ⟨replTimeout, .timeout, if_neg hlt, ChatError.noConfusion⟩
  cases route with
  | notConnected => cases h
  | lost failure => exact hlost failure
  | unanswered failure =>
      have hsame : reply [] (.unanswered failure) = reply [] (.lost failure) := by
        cases failure <;> rfl
      rw [future, hsame]
      exact hlost failure
  | answered afterMs =>
      have hle : replTimeout ≤ afterMs := of_decide_eq_true h
      exact ⟨replTimeout, .timeout, if_neg (not_lt.mpr hle), ChatError.noConfusion⟩

theorem Route.eq_notConnected {route : Route} (htime : route.inTime = false)
    (hfails : route.fails = false) : route = .notConnected := by
  cases route with
  | notConnected => rfl
  | lost failure => cases hfails
  | unanswered failure => cases hfails
  | answered afterMs =>
      have hlt := of_decide_eq_false htime
      have hle := of_decide_eq_false hfails
      omega

/-- `Context::repl_rpc_low` behind the streams it opened. -/
def joinStreams {O : Type} (futures : ReplVec (Nat × Except ChatError (Ballot O))) :
    Except ChatError (ReplVec (Ballot O)) :=
  match h : tryJoinAll futures.toList with
  | .error e => .error e
  | .ok l => .ok ⟨l, le_trans (length_tryJoinAll h) futures.length_le⟩

theorem replRpcLow_eq {O : Type} (closest : GroupVec NodeIdentity) (localPeerId : NodeIdentity)
    (decodeExact : Bytes → Option (Response O)) (replies : NodeIdentity → PeerReply) :
    replRpcLow closest localPeerId decodeExact replies =
      match getOthersFor closest localPeerId with
      | none => .error .noReplicator
      | some others => joinStreams ⟨streams decodeExact replies others, length_streams⟩ := by
  unfold replRpcLow
  cases getOthersFor closest localPeerId <;> rfl

theorem joinStreams_of_failure {O : Type}
    {futures : ReplVec (Nat × Except ChatError (Ballot O))} {e : ChatError}
    (h : firstFailure futures.toList = some e) : joinStreams futures = .error e := by
  have hjoin : tryJoinAll futures.toList = .error e := by rw [tryJoinAll, h]
  unfold joinStreams
  split
  · next e' h' =>
      rw [hjoin] at h'
      cases h'
      rfl
  · next l h' =>
      rw [hjoin] at h'
      cases h'

theorem joinStreams_of_none {O : Type}
    {futures : ReplVec (Nat × Except ChatError (Ballot O))}
    (h : firstFailure futures.toList = none) :
    ∃ ballots : ReplVec (Ballot O), joinStreams futures = .ok ballots ∧
      ballots.toList = futures.toList.filterMap fun f => f.2.toOption := by
  have hjoin : tryJoinAll futures.toList =
      .ok (futures.toList.filterMap fun f => f.2.toOption) := by rw [tryJoinAll, h]
  unfold joinStreams
  split
  · next e h' =>
      rw [hjoin] at h'
      cases h'
  · next l h' =>
      refine ⟨_, rfl, ?_⟩
      rw [hjoin] at h'
      cases h'
      rfl

/-- The requests of a call. -/
structure Routes where
  forward : Forward
  replicated : NodeIdentity → Route

/-- The call of a client: the node it asks, the path it comes on, the mail, and the
closest nodes of the profile. -/
structure MailRequest where
  localPeerId : NodeIdentity
  origin : PathId
  mail : Bytes
  closest : GroupVec NodeIdentity

namespace MailRequest

variable (req : MailRequest) (routes : Routes) (nodes : MailNodes)

/-- A request of the node is handled. -/
def deliver (peer : NodeIdentity) : MailNodes :=
  Function.update nodes peer ((nodes peer).receive req.localPeerId req.mail)

/-- The answer to a request that is handled now. -/
def answerOf (peer : NodeIdentity) : Response Unit :=
  ((nodes peer).cx.serverSendMail req.localPeerId req.mail).response

/-- `Context::send_rpc`, where it returns. -/
def sendRpc (peer : NodeIdentity) : MailNodes × Except ChatError (Response Unit) :=
  match routes.forward with
  | .notConnected => (nodes, .error .noReplicator)
  | .lost kind | .unanswered kind true => (nodes, .error (.io kind))
  | .unanswered kind false => (req.deliver nodes peer, .error (.io kind))
  | .answered => (req.deliver nodes peer, .ok (req.answerOf nodes peer))

/-- The handler of the node itself comes to an end. -/
def finish (served : Served) : MailNodes × Response Unit :=
  (Function.update nodes req.localPeerId ((nodes req.localPeerId).follow served),
    served.response)

/-- `send_mail` on the node the client asks. -/
def localSendMail : MailNodes × Response Unit :=
  match (nodes req.localPeerId).cx.sendMail (.localPath req.origin) req.mail with
  | .done served => req.finish nodes served
  | .sendRpc peer =>
      let (nodes, answer) := req.sendRpc routes nodes peer
      req.finish nodes ((nodes req.localPeerId).cx.afterRpc req.mail answer)

/-- The others handle their requests, each on what it keeps itself. -/
def replicate (others : ReplVec NodeIdentity) : MailNodes := fun peer =>
  if peer ∈ others ∧ (routes.replicated peer).arrives then
    (nodes peer).receive req.localPeerId req.mail
  else nodes peer

/-- The streams to the others. -/
def streams (others : ReplVec NodeIdentity) : ReplVec (Nat × Except ChatError (Ballot Unit)) where
  toList := others.toList.filterMap fun peer =>
    ((routes.replicated peer).future (req.answerOf nodes peer)).map fun f =>
      (f.1, f.2.map fun r => (peer, r))
  length_le := le_trans (List.length_filterMap_le _ _) others.length_le

/-- The node to which the mail is forwarded. -/
def forwardsTo : Option NodeIdentity :=
  match (nodes req.localPeerId).cx.online with
  | some (.remote peer) => some peer
  | _ => none

/-- The forwarded request, where it is late. -/
def deliverLate (started : MailNodes) : MailNodes :=
  match req.forwardsTo started, routes.forward with
  | some peer, .unanswered _ true => req.deliver nodes peer
  | _, _ => nodes

/-- `send_mail.repld()` once it is finished, and all its requests are handled;
`ongoing` as in `Repl.call`. -/
def run (ongoing : Bool) : MailNodes × Response Unit :=
  let (handled, us) := req.localSendMail routes nodes
  if us = .error .sentDirectly then (handled, us)
  else
    match getOthersFor req.closest req.localPeerId with
    | none => (req.deliverLate routes handled nodes, .error .noReplicator)
    | some others =>
        (req.deliverLate routes (req.replicate routes handled others) nodes,
          (Repl.call req.localPeerId ongoing us
            (joinStreams (req.streams routes handled others))).resp)

end MailRequest

/-! ### One handler

A handler pushes the mail while the channel of the subscription has room, and stores
it from then on.
-/

/-- How many more events the channel takes. -/
def Client.free (client : Client) : Nat := if client.closed then 0 else client.room

theorem Client.trySend_of_free {client : Client} (h : 0 < client.free) :
    ∃ client', client.trySend = some client' ∧ client'.free = client.free - 1 := by
  obtain ⟨closed, room⟩ := client
  cases closed with
  | true => exact absurd h (lt_irrefl 0)
  | false =>
      have hroom : 0 < room := h
      refine ⟨⟨false, room - 1⟩, ?_, rfl⟩
      simp [trySend, hroom.ne']

theorem Client.trySend_of_full {client : Client} (h : client.free = 0) :
    client.trySend = none := by
  obtain ⟨closed, room⟩ := client
  cases closed with
  | true => exact if_pos (.inl rfl)
  | false => exact if_pos (.inr h)

namespace MailContext

variable {cx : MailContext} {mail : Bytes}

/-- How many more mails the subscription of the owner takes. -/
def subRoom (cx : MailContext) : Nat :=
  match cx.profileSub with
  | none => 0
  | some (path, _) =>
      match cx.clients path with
      | none => 0
      | some client => client.free

/-- How many mails in a row the node pushes to the owner. -/
def room (cx : MailContext) : Nat :=
  match cx.online with
  | some (.localPath _) => cx.subRoom
  | _ => 0

theorem pushProfileEvent_of_room (mail : Bytes) (h : 0 < cx.subRoom) : ∃ cx' path event,
    cx.pushProfileEvent mail = (cx', some (.pushed path event)) ∧ cx'.online = cx.online ∧
      cx'.hasProfile = cx.hasProfile ∧ cx'.profile = cx.profile ∧
      cx'.subRoom = cx.subRoom - 1 := by
  unfold subRoom at h
  split at h
  · exact absurd h (lt_irrefl 0)
  · next path callId hsub =>
      split at h
      · exact absurd h (lt_irrefl 0)
      · next client hclient =>
          obtain ⟨client', hsend, hfree⟩ := Client.trySend_of_free h
          refine ⟨{ cx with clients := Function.update cx.clients path (some client') }, path,
            ⟨callId, mail⟩, ?_, rfl, rfl, rfl, ?_⟩
          · simp only [pushProfileEvent, hsub, hclient, hsend]
          · simp only [subRoom, hsub, hclient, Function.update_self, hfree]

theorem pushProfileEvent_of_full (mail : Bytes) (h : cx.subRoom = 0) : ∃ cx',
    cx.pushProfileEvent mail = (cx', none) ∧ cx'.hasProfile = cx.hasProfile ∧
      cx'.profile = cx.profile := by
  unfold subRoom at h
  cases hsub : cx.profileSub with
  | none => exact ⟨cx, by simp only [pushProfileEvent, hsub], rfl, rfl⟩
  | some sub =>
      obtain ⟨path, callId⟩ := sub
      cases hclient : cx.clients path with
      | none => exact ⟨cx, by simp only [pushProfileEvent, hsub, hclient], rfl, rfl⟩
      | some client =>
          simp only [hsub, hclient] at h
          refine ⟨{ cx with profileSub := none }, ?_, rfl, rfl⟩
          simp only [pushProfileEvent, hsub, hclient, Client.trySend_of_full h]

/-- The mailbox behind one more append, and whether it took the mail. -/
def put (mail : Bytes) : Option Mailbox → Option Mailbox × Nat
  | none => (none, 0)
  | some mailbox =>
      match mailbox.appendMail mail with
      | .error _ => (some mailbox, 0)
      | .ok mailbox => (some mailbox, 1)

/-- How many of so many appends the mailbox takes. -/
def taken (mail : Bytes) : Nat → Option Mailbox → Nat
  | 0, _ => 0
  | n + 1, profile => (put mail profile).2 + taken mail n (put mail profile).1

/-- A mailbox that takes the mail, or one that never will. -/
theorem put_cases (mail : Bytes) (profile : Option Mailbox) :
    (put mail profile).2 = 1 ∨ put mail profile = (profile, 0) := by
  unfold put
  split
  · exact .inr rfl
  · split
    · exact .inr rfl
    · exact .inl rfl

theorem taken_of_refused {profile : Option Mailbox} (h : put mail profile = (profile, 0))
    (n : Nat) :
    taken mail n profile = 0 := by
  induction n with
  | zero => rfl
  | succ n ih => rw [taken, h, Nat.zero_add, ih]

/-- Of so many appends a mailbox takes the first ones. -/
theorem le_taken {m n : Nat} {profile : Option Mailbox} :
    m ≤ taken mail n profile ↔ m ≤ n ∧ taken mail m profile = m := by
  induction n generalizing m profile with
  | zero =>
      constructor
      · intro h
        obtain rfl := Nat.le_zero.mp h
        exact ⟨le_rfl, rfl⟩
      · exact And.left
  | succ n ih =>
      cases m with
      | zero => exact iff_of_true (Nat.zero_le _) ⟨Nat.zero_le _, rfl⟩
      | succ m =>
          rcases put_cases mail profile with hput | hrefused
          · rw [taken, taken, hput, Nat.add_comm 1, Nat.add_comm 1, Nat.add_le_add_iff_right,
              Nat.add_le_add_iff_right, Nat.add_right_cancel_iff]
            exact ih
          · rw [taken_of_refused hrefused, taken_of_refused hrefused]
            simp

theorem storeOffline_spec (cx : MailContext) (mail : Bytes) :
    (cx.storeOffline mail).cx = { cx with online := none, profile := (put mail cx.profile).1 } ∧
      (cx.storeOffline mail).effect.toList = List.replicate (put mail cx.profile).2 .stored ∧
      (cx.storeOffline mail).response ≠ .error .sentDirectly := by
  have happend : ∀ mailbox : Mailbox, mailbox.appendMail mail ≠ .error .sentDirectly := by
    intro mailbox
    refine bind_ne_error (ensure_ne_error (.inl ?_)) fun _ _ =>
      bind_ne_error (ensure_ne_error (.inl ?_)) fun _ _ => ?_
    all_goals simp
  unfold storeOffline pushMail put
  cases hprofile : cx.profile with
  | none => simp
  | some mailbox =>
      simp only
      cases hmail : mailbox.appendMail mail with
      | error e =>
          refine ⟨?_, rfl, ?_⟩
          · rw [← hprofile]
          · intro h
            exact happend mailbox (hmail.trans (congrArg _ (Except.error.inj h)))
      | ok mailbox' => exact ⟨rfl, rfl, by simp⟩

/-- The handler of another node, while the owner listens. -/
theorem serverSendMail_of_room (origin : NodeIdentity) (mail : Bytes)
    (hprofile : cx.hasProfile = true) (h : 0 < cx.room) : ∃ cx' path event,
    cx.serverSendMail origin mail = ⟨cx', some (.pushed path event), .error .sentDirectly⟩ ∧
      cx'.hasProfile = true ∧ cx'.profile = cx.profile ∧ cx'.room = cx.room - 1 := by
  unfold room at h
  split at h
  · next p honline =>
      obtain ⟨cx', path, event, hpush, honline', hhas, hsame, hroom⟩ :=
        pushProfileEvent_of_room mail h
      refine ⟨cx', path, event, ?_, hhas.trans hprofile, hsame, ?_⟩
      · simp [serverSendMail, hprofile, sendMail, honline, hpush]
      · simp only [room, honline', honline, hroom]
  · exact absurd h (lt_irrefl 0)

/-- The handler of another node, when the owner does not listen. -/
theorem serverSendMail_of_full (origin : NodeIdentity) (mail : Bytes)
    (hprofile : cx.hasProfile = true) (h : cx.room = 0) :
    ∃ cx' : MailContext, cx.serverSendMail origin mail = cx'.storeOffline mail ∧
      cx'.hasProfile = true ∧ cx'.profile = cx.profile := by
  unfold room at h
  unfold serverSendMail sendMail
  cases honline : cx.online with
  | none =>
      refine ⟨cx, ?_, hprofile, rfl⟩
      have hsame : { cx with online := none } = cx := by rw [← honline]
      rw [if_pos hprofile, storeOffline, hsame]
  | some location =>
      cases location with
      | remote peer =>
          refine ⟨cx, ?_, hprofile, rfl⟩
          simp [hprofile]
      | localPath p =>
          rw [honline] at h
          obtain ⟨cx', hpush, hhas, hsame⟩ := pushProfileEvent_of_full mail h
          refine ⟨cx', ?_, hhas.trans hprofile, hsame⟩
          simp [hprofile, hpush]

/-- Without the profile nothing happens. -/
theorem serverSendMail_of_missing (origin : NodeIdentity) (mail : Bytes)
    (hprofile : cx.hasProfile = false) :
    cx.serverSendMail origin mail = ⟨cx, none, .error .ongoingRecovery⟩ := by
  simp [serverSendMail, hprofile]

/-- Another node answers that it sent the mail directly exactly when it did. -/
theorem response_serverSendMail (origin : NodeIdentity) (mail : Bytes) :
    (cx.serverSendMail origin mail).response = .error .sentDirectly ↔
      cx.hasProfile = true ∧ 0 < cx.room := by
  cases hprofile : cx.hasProfile with
  | false => simp [serverSendMail_of_missing origin mail hprofile]
  | true =>
      rcases Nat.eq_zero_or_pos cx.room with hfull | hroom
      · obtain ⟨cx', hserved, _⟩ := serverSendMail_of_full origin mail hprofile hfull
        rw [hserved, hfull]
        simp [(storeOffline_spec cx' mail).2.2]
      · obtain ⟨cx', path, event, hserved, _⟩ :=
          serverSendMail_of_room origin mail hprofile hroom
        rw [hserved]
        simp [hroom]

/-- What the handler does on the node the client asks. -/
inductive LocalStep (cx : MailContext) (origin : PathId) (mail : Bytes) : Handled → Prop
  | toSelf : cx.online = some (.localPath origin) →
      LocalStep cx origin mail (.done ⟨cx, none, .error .sendingToSelf⟩)
  | pushes {p path : PathId} {event : ClientEvent} {cx' : MailContext} :
      cx.online = some (.localPath p) → p ≠ origin → 0 < cx.room →
      LocalStep cx origin mail (.done ⟨cx', some (.pushed path event), .error .sentDirectly⟩)
  | stores {cx' : MailContext} :
      (cx.online = none ∨ ∃ p, cx.online = some (.localPath p) ∧ p ≠ origin ∧ cx.room = 0) →
      cx'.hasProfile = cx.hasProfile → cx'.profile = cx.profile →
      LocalStep cx origin mail (.done (cx'.storeOffline mail))
  | forwards {peer : NodeIdentity} : cx.online = some (.remote peer) →
      LocalStep cx origin mail (.sendRpc peer)

theorem sendMail_localStep (cx : MailContext) (origin : PathId) (mail : Bytes) :
    LocalStep cx origin mail (cx.sendMail (.localPath origin) mail) := by
  unfold sendMail
  split
  · next honline =>
      have hsame : { cx with online := none } = cx := by rw [← honline]
      have hstore : cx.pushMail mail = cx.storeOffline mail := by rw [storeOffline, hsame]
      rw [hstore]
      exact .stores (.inl honline) rfl rfl
  · next p honline =>
      split
      · next hp =>
          cases hp
          exact .toSelf honline
      · next hp =>
          have hne : p ≠ origin := fun h => hp (congrArg _ h)
          have hroom : cx.room = cx.subRoom := by simp only [room, honline]
          rcases Nat.eq_zero_or_pos cx.subRoom with hfull | hsome
          · obtain ⟨cx', hpush, hhas, hsame⟩ := pushProfileEvent_of_full mail hfull
            rw [hpush]
            exact .stores (.inr ⟨p, honline, hne, hroom.trans hfull⟩) hhas hsame
          · obtain ⟨cx', path, event, hpush, _⟩ := pushProfileEvent_of_room mail hsome
            rw [hpush]
            exact .pushes honline hne (hroom ▸ hsome)
  · next peer honline => exact .forwards honline

end MailContext

/-! ### A node that gets the mail several times -/

namespace MailNode

open MailContext

variable {origin : NodeIdentity} {mail : Bytes} {node : MailNode}

theorem stored_follow (served : Served) : (node.follow served).stored =
    node.stored + served.effect.toList.countP fun e => e matches .stored :=
  List.countP_append

theorem pushed_follow (served : Served) : (node.follow served).pushed =
    node.pushed + served.effect.toList.countP fun e => e matches .pushed _ _ :=
  List.countP_append

/-- The node behind one append, of whatever handler. -/
structure Appends (mail : Bytes) (node node' : MailNode) : Prop where
  stored : node'.stored = node.stored + (put mail node.cx.profile).2
  pushed : node'.pushed = node.pushed
  profile : node'.cx.profile = (put mail node.cx.profile).1
  room : node'.cx.room = 0
  hasProfile : node'.cx.hasProfile = node.cx.hasProfile

theorem Appends.twice {node' node'' : MailNode} (h : Appends mail node node')
    (h' : Appends mail node' node'') :
    node''.stored = node.stored + taken mail 2 node.cx.profile := by
  rw [h'.stored, h.stored, h.profile, Nat.add_assoc]
  rfl

theorem appends_storeOffline {cx : MailContext} (hhas : cx.hasProfile = node.cx.hasProfile)
    (hsame : cx.profile = node.cx.profile) :
    Appends mail node (node.follow (cx.storeOffline mail)) := by
  obtain ⟨hcx, heffect, _⟩ := storeOffline_spec cx mail
  rw [hsame] at hcx heffect
  constructor
  · rw [stored_follow, heffect, List.countP_replicate]
    simp
  · rw [pushed_follow, heffect, List.countP_replicate]
    simp
  · simp [follow, hcx]
  · simp [follow, hcx, MailContext.room]
  · simp [follow, hcx, hhas]

theorem receive_of_full (hprofile : node.cx.hasProfile = true) (h : node.cx.room = 0) :
    Appends mail node (receive origin mail node) := by
  obtain ⟨cx', hserved, hhas, hsame⟩ := serverSendMail_of_full origin mail hprofile h
  rw [receive, hserved]
  exact appends_storeOffline (hhas.trans hprofile.symm) hsame

theorem receive_of_room (origin : NodeIdentity) (mail : Bytes)
    (hprofile : node.cx.hasProfile = true) (h : 0 < node.cx.room) :
    (receive origin mail node).stored = node.stored ∧
      (receive origin mail node).pushed = node.pushed + 1 ∧
      (receive origin mail node).cx.profile = node.cx.profile ∧
      (receive origin mail node).cx.room = node.cx.room - 1 ∧
      (receive origin mail node).cx.hasProfile = true := by
  obtain ⟨cx', path, event, hserved, hhas, hsame, hroom⟩ :=
    serverSendMail_of_room origin mail hprofile h
  rw [receive, hserved, stored_follow, pushed_follow]
  exact ⟨rfl, rfl, hsame, hroom, hhas⟩

theorem receive_of_missing (hprofile : node.cx.hasProfile = false) :
    receive origin mail node = node := by
  rw [receive, serverSendMail_of_missing origin mail hprofile, follow]
  simp

/-- **A node that gets the mail several times** pushes it while there is room, and
stores the rest. -/
theorem receive_iterate (origin : NodeIdentity) (mail : Bytes)
    (hprofile : node.cx.hasProfile = true) (n : Nat) :
    ((receive origin mail)^[n] node).stored =
        node.stored + taken mail (n - node.cx.room) node.cx.profile ∧
      ((receive origin mail)^[n] node).pushed = node.pushed + min n node.cx.room := by
  induction n generalizing node with
  | zero => simp [taken]
  | succ n ih =>
      rw [Function.iterate_succ_apply]
      rcases Nat.eq_zero_or_pos node.cx.room with hfull | hroom
      · have happend : Appends mail node (receive origin mail node) :=
          receive_of_full hprofile hfull
        obtain ⟨ihstored, ihpushed⟩ := ih (happend.hasProfile.trans hprofile)
        rw [ihstored, ihpushed, happend.stored, happend.pushed, happend.profile, happend.room,
          hfull, Nat.sub_zero, Nat.sub_zero, taken, Nat.add_assoc]
        simp
      · obtain ⟨hstored, hpushed, hsame, hroom', hhas⟩ :=
          receive_of_room origin mail hprofile hroom
        obtain ⟨ihstored, ihpushed⟩ := ih hhas
        have hrest : n - (node.cx.room - 1) = n + 1 - node.cx.room := by omega
        rw [ihstored, ihpushed, hstored, hpushed, hsame, hroom', hrest]
        omega

theorem receive_iterate_of_missing (hprofile : node.cx.hasProfile = false) (n : Nat) :
    (receive origin mail)^[n] node = node :=
  Function.iterate_fixed (receive_of_missing hprofile) n

end MailNode

end OnionNetwork.Server
