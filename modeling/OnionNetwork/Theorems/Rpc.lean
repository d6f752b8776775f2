import OnionNetwork.Server.Rpc

/-!
# Calls between servers

Any number of nodes call each other, over streams that are used again, and every order of
reads, writes and failures is a run.

* `rpc_exact` — a request is served at most once and in the order of the calls on its stream,
  and the response a call returns is the one to its own request;
* `rpc_stream` — a call gets a new stream or one on which all calls are over, put back less than
  three seconds ago;
* `rpc_answered` — a call whose request was written ends, or the request is refused, as soon as
  both nodes read what is there.
-/

namespace OnionNetwork

open Chat Lib Server

variable {σ : Type} {cx : NodeIdentity → RpcContext σ}

/-- **Responses belong to their calls**, whatever else goes on between the nodes. -/
theorem rpc_exact (hshort : ∀ node, (cx node).ShortResponses) (states : NodeIdentity → σ)
    (is : List (RpcInput σ)) (i : Nat) :
    CallLink.Exact (((RpcNet.machine cx).run (RpcNet.start states) is).service cx i)
      (((RpcNet.machine cx).run (RpcNet.start states) is).links i) :=
  CallLink.exact_of_linked ((RpcNet.ok_run hshort states is).linked i)

/-- Nodes that know each other and answer every request with `Ok`. -/
def agreeing : RpcContext Unit where
  closest _ _ := [0, 1]
  bufferSize _ := 0
  call _ _ _ _ _ := some ((), .ok [])

private theorem agreeing_short (node : NodeIdentity) :
    ((fun _ => agreeing : NodeIdentity → RpcContext Unit) node).ShortResponses := by
  intro s identity rpcPrefix topic body s' r hcall
  obtain ⟨-, rfl⟩ := Prod.mk.inj (Option.some.inj hcall)
  show (1 : Nat) < 2 ^ 32
  decide

private theorem length_zeros : (List.replicate 32 (0 : UInt8)).length = 32 := rfl

private theorem length_empty : ([] : Bytes).length < 2 ^ 32 := by decide

/-- A profile. -/
def zeroProfile : Topic := .profile ⟨List.replicate 32 0, length_zeros⟩

/-- The body of a request without one. -/
def emptyBody : Body := ⟨[], length_empty⟩

/-- Node 0 fetches a vault from node 1. -/
def oneCall : List (RpcInput Unit) :=
  [.call (0, 1) zeroProfile Rpcs.fetchVault emptyBody 42 0]

theorem rpc_exact_one :
    let net := (RpcNet.machine fun _ => agreeing).run (RpcNet.start fun _ => ())
      (oneCall ++ [.serve 0 42, .serve 0 0, .read 0 8 1, .read 0 1 2])
    CallLink.Exact (net.service (fun _ => agreeing) 0) (net.links 0) :=
  rpc_exact agreeing_short _ _ _

/-- **A call never finds its stream in use**: it is new, or all calls on it are over and it was
put back less than three seconds ago. -/
theorem rpc_stream (hshort : ∀ node, (cx node).ShortResponses) (states : NodeIdentity → σ)
    (is : List (RpcInput σ)) (ends : NodeIdentity × NodeIdentity) (topic : Topic)
    (rpcPrefix : Prefix) (body : Body) (written now : Nat) :
    let net := (RpcNet.machine cx).run (RpcNet.start states) is
    let after := net.step cx (.call ends topic rpcPrefix body written now)
    ∃ i before, after.ends i = ends ∧
      (after.links i).made = before ++ [rpcRequest topic rpcPrefix body] ∧
      (i = net.opened ∧ before = [] ∨
        before = (net.links i).made ∧ (net.links i).results.length = before.length ∧
          ∃ t, (i, t) ∈ net.cache ends ∧ now - t < reuseMs) := by
  intro net after
  have hok : RpcNet.Ok cx net := RpcNet.ok_run hshort states is
  obtain ⟨-, hhand⟩ := RpcNet.ok_open hok ends now
  refine ⟨(net.openStreamWith ends now).1,
    ((net.openStreamWith ends now).2.links (net.openStreamWith ends now).1).made,
    hhand.ends_eq, ?_, ?_⟩
  · exact (congrArg CallLink.made (RpcNet.step_call ..)).trans (CallLink.call_made hhand.idle)
  · rcases RpcNet.openStreamWith_cases net ends now with
      ⟨hnew, hlink⟩ | ⟨e, he, hfresh, hi, hlink⟩
    · refine .inl ⟨hnew, ?_⟩
      rw [hnew, hlink]
      rfl
    · rw [hi, hlink]
      have hcount := (hok.linked e.1).counted
      rw [(hok.cached ends e he).2.2] at hcount
      exact .inr ⟨rfl, hcount, e.2, he, hfresh⟩

theorem rpc_stream_one :
    let net := (RpcNet.machine fun _ => agreeing).run (RpcNet.start fun _ => ()) oneCall
    let after := net.step (fun _ => agreeing)
      (.call (0, 1) zeroProfile Rpcs.fetchVault emptyBody 42 5)
    ∃ i before, after.ends i = (0, 1) ∧
      (after.links i).made = before ++ [rpcRequest zeroProfile Rpcs.fetchVault emptyBody] ∧
      (i = net.opened ∧ before = [] ∨
        before = (net.links i).made ∧ (net.links i).results.length = before.length ∧
          ∃ t, (i, t) ∈ net.cache (0, 1) ∧ 5 - t < reuseMs) :=
  rpc_stream agreeing_short _ _ _ _ _ _ _ _

/-! ## Calls end -/

/-- Both nodes read what there is on a stream, byte by byte. -/
def readAll (σ : Type) (i a b now : Nat) : List (RpcInput σ) :=
  List.replicate a (.serve i 1) ++ List.replicate b (.read i 1 now)

private theorem run_serves (cx : NodeIdentity → RpcContext σ) (net : RpcNet σ) (i m : Nat) :
    ((RpcNet.machine cx).run net (List.replicate m (.serve i 1))).links i =
      (CallLink.polls (net.service cx i) m (net.states (net.ends i).2, net.links i)).2 := by
  induction m generalizing net with
  | zero => rfl
  | succ m ih =>
      have hstep : ((net.step cx (.serve i 1)).states (net.ends i).2,
          (net.step cx (.serve i 1)).links i) =
            (net.links i).poll (net.service cx i) (net.states (net.ends i).2) 1 :=
        Prod.ext (Function.update_self ..) (Function.update_self ..)
      refine (ih (net.step cx (.serve i 1))).trans ?_
      rw [CallLink.polls, ← hstep]
      rfl

private theorem run_reads (cx : NodeIdentity → RpcContext σ) (net : RpcNet σ) (i now m : Nat) :
    ((RpcNet.machine cx).run net (List.replicate m (.read i 1 now))).links i =
      CallLink.recvs m (net.links i) := by
  induction m generalizing net with
  | zero => rfl
  | succ m ih =>
      have hstep : (net.step cx (.read i 1 now)).links i = (net.links i).recv 1 := by
        simp only [RpcNet.step]
        split
        · exact Function.update_self ..
        · next hidle => rw [CallLink.recv, if_neg hidle]
      refine (ih (net.step cx (.read i 1 now))).trans ?_
      rw [CallLink.recvs, hstep]

/-- **A call ends**: where its request was written and the other node stays, reading what is on
the stream brings the response, or the request is refused. -/
theorem rpc_answered (hshort : ∀ node, (cx node).ShortResponses) (states : NodeIdentity → σ)
    (is : List (RpcInput σ)) (i now : Nat) :
    let net := (RpcNet.machine cx).run (RpcNet.start states) is
    (net.links i).caller = .waiting → (net.links i).broken = false →
      (net.links i).hungUp = false →
      ∃ a b, let after := (RpcNet.machine cx).run net (readAll σ i a b now)
        (after.links i).requests.phase = .ended ∨
          (after.links i).results.length = (after.links i).made.length := by
  intro net hwaits hwhole hhung
  have hok : RpcNet.Ok cx net := RpcNet.ok_run hshort states is
  obtain ⟨a, b, hend⟩ := CallLink.answered_of_linked (hok.linked i)
    (framed_serverResponse (hshort _) _) hwaits hwhole hhung (net.states (net.ends i).2)
  have hafter (b : Nat) : ((RpcNet.machine cx).run net (readAll σ i a b now)).links i =
      CallLink.recvs b (CallLink.polls (net.service cx i) a
        (net.states (net.ends i).2, net.links i)).2 := by
    rw [readAll, Machine.run_append, run_reads, run_serves]
  rcases hend with hended | hidle
  · exact ⟨a, 0, .inl ((congrArg (fun l => l.requests.phase) (hafter 0)).trans hended)⟩
  · have hlinked := (RpcNet.ok_run hshort states (is ++ readAll σ i a b now)).linked i
    rw [Machine.run_append] at hlinked
    have hcount := hlinked.counted
    rw [hafter b, hidle] at hcount
    refine ⟨a, b, .inr ?_⟩
    rw [hafter b]
    exact hcount

theorem rpc_answered_one :
    let net := (RpcNet.machine fun _ => agreeing).run (RpcNet.start fun _ => ()) oneCall
    ∃ a b, let after := (RpcNet.machine fun _ => agreeing).run net (readAll Unit 0 a b 1)
      (after.links 0).requests.phase = .ended ∨
        (after.links 0).results.length = (after.links 0).made.length :=
  rpc_answered agreeing_short _ oneCall 0 1 (by decide) (by decide) (by decide)

end OnionNetwork
