import OnionNetwork.Chat.Types
import OnionNetwork.Lib.Groups
import Mathlib.Data.List.MinMax

/-!
# Replicated requests

`api::Repl` answers a request with what a majority of the replication group
answers: the local handler and, over `Context::repl_rpc_low`, the other nodes.
Responses are compared with the equality the source gives them. Two rate limits
are equal when they end at about the same time, which is not transitive.
-/

namespace OnionNetwork.Chat

/-- `MsTilEnd::eq`. -/
def msTilEndEq (a b : Nat) : Bool := (a - b) + (b - a) < 3000

/-- `ChatError::eq`: derived, but for the time of a rate limit. -/
def ChatError.eq : ChatError → ChatError → Bool
  | .rateLimited a, .rateLimited b => msTilEndEq a b
  | e, e' => e = e'

theorem ChatError.eq_refl (e : ChatError) : e.eq e = true := by
  cases e <;> simp [ChatError.eq, msTilEndEq]

theorem ChatError.eq_symm (e e' : ChatError) (h : e.eq e' = true) : e'.eq e = true := by
  revert h
  fun_cases ChatError.eq e e' with
  | case1 a b =>
      simp only [ChatError.eq, msTilEndEq, decide_eq_true_eq]
      omega
  | case2 hne =>
      intro h
      obtain rfl := of_decide_eq_true h
      exact e.eq_refl

end OnionNetwork.Chat

namespace OnionNetwork.Server

open Chat Lib

/-- `Result<O>`: what a handler answers. -/
abbrev Response (O : Type) := Except ChatError O

namespace Response

variable {O : Type} [DecidableEq O]

/-- `Result::eq`. -/
def eq : Response O → Response O → Bool
  | .ok a, .ok b => a = b
  | .error e, .error e' => e.eq e'
  | _, _ => false

theorem eq_refl (r : Response O) : eq r r = true := by
  cases r with
  | ok a => exact decide_eq_true rfl
  | error e => exact e.eq_refl

theorem eq_symm (r r' : Response O) (h : eq r r' = true) : eq r' r = true := by
  cases r with
  | ok a =>
      cases r' with
      | ok b => exact decide_eq_true (of_decide_eq_true h).symm
      | error e' => cases h
  | error e =>
      cases r' with
      | ok b => cases h
      | error e' => exact e.eq_symm e' h

/-- A response that is no rate limit is equal to itself only. -/
theorem eq_of_no_limit {r r' : Response O} (hlimit : ∀ ms, r ≠ .error (.rateLimited ms))
    (h : eq r r' = true) : r = r' := by
  cases r with
  | ok a =>
      cases r' with
      | ok b => rw [of_decide_eq_true h]
      | error e' => cases h
  | error e =>
      cases r' with
      | ok b => cases h
      | error e' =>
          have hkind : e = e' := by
            cases e with
            | rateLimited ms => exact absurd rfl (hlimit ms)
            | _ => exact of_decide_eq_true h
          rw [hkind]

end Response

/-! ### The vote over the responses -/

section Call

variable {O : Type} [DecidableEq O]

/-- A response and the node it is from. -/
abbrev Ballot (O : Type) := NodeIdentity × Response O

/-- The variables of `Repl::call` while it groups the responses, and the calls of
`Rep::rate` it made. -/
structure Tally (O : Type) where
  recovering : Bool
  pick : Option (Response O)
  rates : List (NodeIdentity × Int)

/-- The group of `base`, in the order of the vector: it is `resps` from its end. -/
def groupOf (peer : NodeIdentity) (base : Response O) (resps : List (Ballot O)) :
    List NodeIdentity :=
  peer :: ((resps.filter fun b => Response.eq base b.2).map Prod.fst).reverse

/-- What `retain` keeps of the others. -/
def remaining (base : Response O) (resps : List (Ballot O)) : List (Ballot O) :=
  resps.filter fun b => !Response.eq base b.2

/-- One round: the group of the response that was popped. `ongoing` says whether
the topic is being recovered already, where `start_recovery` returns `false`. -/
def Tally.round (localPeerId : NodeIdentity) (ongoing : Bool) (group : List NodeIdentity)
    (base : Response O) (t : Tally O) : Tally O :=
  if replicationFactor / 2 < group.length then
    { t with pick := some base, rates := t.rates ++ group.map fun peer => (peer, -1) }
  else
    { t with
      recovering := if group.contains localPeerId then !ongoing else t.recovering
      rates := t.rates ++ group.map fun peer => (peer, 10) }

/-- `while let Some((peer, base)) = resps.pop()`, on the responses from the last
one to the first one. -/
def countVotes (localPeerId : NodeIdentity) (ongoing : Bool) : List (Ballot O) → Tally O → Tally O
  | [], t => t
  | (peer, base) :: resps, t =>
      countVotes localPeerId ongoing (remaining base resps)
        (t.round localPeerId ongoing (groupOf peer base resps) base)
termination_by resps => resps.length
decreasing_by exact Nat.lt_succ_of_le (List.length_filter_le _ _)

/-- What `Repl::call` returns: a response value, or one of its own errors. -/
structure Verdict (O : Type) where
  resp : Response O
  pick : Option (Response O)
  rates : List (NodeIdentity × Int)

/-- The end of `Repl::call`. -/
def Tally.verdict (t : Tally O) : Verdict O where
  resp :=
    match t.pick with
    | some r => r
    | none => if t.recovering then .error .ongoingRecovery else .error .noMajority
  pick := t.pick
  rates := t.rates

/-- `Repl::call`, on the answer of the local handler and on what `repl_rpc_low`
returns. The local response is the last of the vector, so the first to be popped. -/
def Repl.call (localPeerId : NodeIdentity) (ongoing : Bool) (us : Response O)
    (others : Except ChatError (ReplVec (Ballot O))) : Verdict O :=
  if us = .error .sentDirectly then ⟨us, some us, []⟩
  else
    match others with
    | .error e => ⟨.error e, none, []⟩
    | .ok others =>
        (countVotes localPeerId ongoing ((localPeerId, us) :: others.toList.reverse)
          ⟨false, none, []⟩).verdict

/-- The responses the call collects; the answer that was sent directly is not
compared with any. -/
def Repl.collected (us : Response O) (others : ReplVec (Ballot O)) : List (Response O) :=
  if us = .error .sentDirectly then [] else us :: others.toList.map Prod.snd

end Call

/-! ### The responses of the other nodes -/

/-- What becomes of the request to one node. -/
inductive PeerReply
  /-- `open_stream_with` returns no stream. -/
  | notConnected
  /-- `read_exact` of the header and the body ends after so many milliseconds, with
  the body or with an error of the stream. -/
  | read (afterMs : Nat) (body : Except ErrorKind Bytes)
  /-- `read_exact` does not end. -/
  | silent

/-- The timeout of `repl_rpc_low`, in milliseconds. -/
def replTimeout : Nat := 2000

section Rpc

variable {O : Type}

/-- The future of one stream: when it ends, and with what. -/
def PeerReply.future (decodeExact : Bytes → Option (Response O)) :
    PeerReply → Option (Nat × Except ChatError (Response O))
  | .notConnected => none
  | .silent => some (replTimeout, .error .timeout)
  | .read afterMs body =>
      if afterMs < replTimeout then
        some (afterMs,
          match body with
          | .error kind => .error (.io kind)
          | .ok bytes =>
              match decodeExact bytes with
              | some r => .ok r
              | none => .error .invalidResponse)
      else some (replTimeout, .error .timeout)

/-- The futures that end with an error, with the error. -/
def failures {α : Type} (futures : List (Nat × Except ChatError α)) : List (Nat × ChatError) :=
  futures.filterMap fun f =>
    match f.2 with
    | .error e => some (f.1, e)
    | .ok _ => none

/-- The error of the future that fails first; of several at once, the one that is
polled first. -/
def firstFailure {α : Type} (futures : List (Nat × Except ChatError α)) : Option ChatError :=
  ((failures futures).argmin Prod.fst).map Prod.snd

/-- `TryJoinAll`: all values, or the first error. -/
def tryJoinAll {α : Type} (futures : List (Nat × Except ChatError α)) :
    Except ChatError (List α) :=
  match firstFailure futures with
  | some e => .error e
  | none => .ok (futures.filterMap fun f => f.2.toOption)

/-- `Context::get_others_for`: the closest nodes without the node itself; none for
a node that is not one of them. -/
def getOthersFor (closest : GroupVec NodeIdentity) (id : NodeIdentity) :
    Option (ReplVec NodeIdentity) :=
  let others := closest.toList.filter fun peer => peer ≠ id
  if h : others.length = replicationFactor + 1 then none
  else some ⟨others, by
    have hle : others.length ≤ replicationFactor + 1 :=
      le_trans (List.length_filter_le _ _) closest.length_le
    exact Nat.le_of_lt_succ (lt_of_le_of_ne hle h)⟩

/-- The futures of the nodes that could be reached, each with its node. -/
def streams (decodeExact : Bytes → Option (Response O)) (replies : NodeIdentity → PeerReply)
    (others : ReplVec NodeIdentity) : List (Nat × Except ChatError (Ballot O)) :=
  others.toList.filterMap fun peer =>
    ((replies peer).future decodeExact).map fun f => (f.1, f.2.map fun r => (peer, r))

theorem length_tryJoinAll {α : Type} {futures : List (Nat × Except ChatError α)} {l : List α}
    (h : tryJoinAll futures = .ok l) : l.length ≤ futures.length := by
  unfold tryJoinAll at h
  split at h
  · cases h
  · cases h
    exact List.length_filterMap_le _ _

theorem length_streams {decodeExact : Bytes → Option (Response O)}
    {replies : NodeIdentity → PeerReply} {others : ReplVec NodeIdentity} :
    (streams decodeExact replies others).length ≤ replicationFactor :=
  le_trans (List.length_filterMap_le _ _) others.length_le

/-- `Context::repl_rpc_low`, for responses that have a size: a node that cannot be
reached is left out, and so is what goes wrong while the request is written. -/
def replRpcLow (closest : GroupVec NodeIdentity) (localPeerId : NodeIdentity)
    (decodeExact : Bytes → Option (Response O)) (replies : NodeIdentity → PeerReply) :
    Except ChatError (ReplVec (Ballot O)) :=
  match getOthersFor closest localPeerId with
  | none => .error .noReplicator
  | some others =>
      match h : tryJoinAll (streams decodeExact replies others) with
      | .error e => .error e
      | .ok l => .ok ⟨l, le_trans (length_tryJoinAll h) length_streams⟩

theorem firstFailure_eq_none {α : Type} {futures : List (Nat × Except ChatError α)} :
    firstFailure futures = none ↔ ∀ f ∈ futures, ∀ e, f.2 ≠ .error e := by
  rw [firstFailure, Option.map_eq_none_iff, List.argmin_eq_none, failures,
    List.filterMap_eq_nil_iff]
  constructor
  · intro h f hf e he
    have hnone := h f hf
    rw [he] at hnone
    cases hnone
  · intro h f hf
    cases he : f.2 with
    | ok a => rfl
    | error e => exact absurd he (h f hf e)

/-- A stream to the node was opened, and no response comes back over it. -/
def Fails (decodeExact : Bytes → Option (Response O)) (reply : PeerReply) : Prop :=
  ∃ afterMs e, reply.future decodeExact = some (afterMs, .error e)

/-- No stream fails when no node does. -/
theorem firstFailure_streams {decodeExact : Bytes → Option (Response O)}
    {replies : NodeIdentity → PeerReply} {others : ReplVec NodeIdentity} :
    firstFailure (streams decodeExact replies others) = none ↔
      ∀ peer ∈ others, ¬ Fails decodeExact (replies peer) := by
  rw [firstFailure_eq_none]
  constructor
  · rintro h peer hpeer ⟨afterMs, e, hfuture⟩
    refine h (afterMs, .error e) (List.mem_filterMap.mpr ⟨peer, hpeer, ?_⟩) e rfl
    rw [hfuture]
    rfl
  · intro h f hf e he
    obtain ⟨peer, hpeer, hmap⟩ := List.mem_filterMap.mp hf
    cases hfuture : (replies peer).future decodeExact with
    | none =>
        rw [hfuture] at hmap
        cases hmap
    | some future =>
        obtain ⟨afterMs, result⟩ := future
        rw [hfuture] at hmap
        cases hmap
        cases result with
        | ok r => cases he
        | error e' => exact h peer hpeer ⟨afterMs, e', hfuture⟩

theorem replRpcLow_of_failure {closest : GroupVec NodeIdentity} {localPeerId : NodeIdentity}
    {decodeExact : Bytes → Option (Response O)} {replies : NodeIdentity → PeerReply}
    {others : ReplVec NodeIdentity} {e : ChatError}
    (hothers : getOthersFor closest localPeerId = some others)
    (he : firstFailure (streams decodeExact replies others) = some e) :
    replRpcLow closest localPeerId decodeExact replies = .error e := by
  have hjoin : tryJoinAll (streams decodeExact replies others) = .error e := by
    rw [tryJoinAll, he]
  simp only [replRpcLow, hothers]
  split
  · next e' h =>
      rw [hjoin] at h
      cases h
      rfl
  · next l h =>
      rw [hjoin] at h
      cases h

theorem replRpcLow_of_none {closest : GroupVec NodeIdentity} {localPeerId : NodeIdentity}
    {decodeExact : Bytes → Option (Response O)} {replies : NodeIdentity → PeerReply}
    {others : ReplVec NodeIdentity}
    (hothers : getOthersFor closest localPeerId = some others)
    (hnone : firstFailure (streams decodeExact replies others) = none) :
    ∃ ballots : ReplVec (Ballot O),
      replRpcLow closest localPeerId decodeExact replies = .ok ballots ∧
      ballots.toList = (streams decodeExact replies others).filterMap fun f => f.2.toOption := by
  have hjoin : tryJoinAll (streams decodeExact replies others) =
      .ok ((streams decodeExact replies others).filterMap fun f => f.2.toOption) := by
    rw [tryJoinAll, hnone]
  simp only [replRpcLow, hothers]
  split
  · next e h =>
      rw [hjoin] at h
      cases h
  · next l h =>
      refine ⟨_, rfl, ?_⟩
      rw [hjoin] at h
      cases h
      rfl

end Rpc

/-! ### What the call picks -/

section Pick

variable {O : Type} [DecidableEq O] {localPeerId : NodeIdentity} {ongoing : Bool}

theorem length_groupOf {peer : NodeIdentity} {base : Response O} {resps : List (Ballot O)} :
    (groupOf peer base resps).length = 1 + alike Response.eq (resps.map Prod.snd) base := by
  rw [groupOf, List.length_cons, List.length_reverse, List.length_map, alike, List.countP_map,
    List.countP_eq_length_filter, Nat.add_comm]
  rfl

theorem map_snd_remaining {base : Response O} {resps : List (Ballot O)} :
    (remaining base resps).map Prod.snd = others Response.eq base (resps.map Prod.snd) := by
  rw [others, List.filter_map]
  rfl

/-- The loop picks the vote of the grouping. -/
theorem pick_countVotes (resps : List (Ballot O)) (t : Tally O) :
    (countVotes localPeerId ongoing resps t).pick =
      match Lib.pick Response.eq 3 (resps.map Prod.snd) with
      | some r => some r
      | none => t.pick := by
  fun_induction countVotes localPeerId ongoing resps t with
  | case1 t => rw [List.map_nil, Lib.pick]
  | case2 peer base resps t ih =>
      rw [ih, map_snd_remaining, List.map_cons, Lib.pick]
      cases Lib.pick Response.eq 3 (others Response.eq base (resps.map Prod.snd)) with
      | some r => rfl
      | none =>
          have hquota : replicationFactor / 2 < (groupOf peer base resps).length ↔
              3 ≤ 1 + alike Response.eq (resps.map Prod.snd) base := by
            rw [length_groupOf]
            rfl
          by_cases h : 3 ≤ 1 + alike Response.eq (resps.map Prod.snd) base
          · simp only [Tally.round, if_pos (hquota.mpr h), if_pos h]
          · simp only [Tally.round, if_neg (fun h' => h (hquota.mp h')), if_neg h]

/-- The votes of a call, in the order in which they are popped. -/
theorem pick_call (localPeerId : NodeIdentity) (ongoing : Bool)
    {us : Response O} {others : ReplVec (Ballot O)}
    (hus : us ≠ .error .sentDirectly) :
    (Repl.call localPeerId ongoing us (.ok others)).pick =
      Lib.pick Response.eq 3 (us :: (others.toList.map Prod.snd).reverse) := by
  simp only [Repl.call, if_neg hus, Tally.verdict]
  rw [pick_countVotes, List.map_cons, List.map_reverse]
  cases Lib.pick Response.eq 3 (us :: (others.toList.map Prod.snd).reverse) <;> rfl

theorem resp_of_pick {us r : Response O} {others : Except ChatError (ReplVec (Ballot O))}
    (h : (Repl.call localPeerId ongoing us others).pick = some r) :
    (Repl.call localPeerId ongoing us others).resp = r := by
  unfold Repl.call at h ⊢
  split at h
  · next hus => simpa [hus] using h
  · next hus =>
      rw [if_neg hus]
      cases others with
      | error e => cases h
      | ok others =>
          simp only [Tally.verdict] at h ⊢
          rw [h]

theorem recovering_countVotes (resps : List (Ballot O)) (t : Tally O)
    (h : t.recovering = !ongoing) :
    (countVotes localPeerId ongoing resps t).recovering = !ongoing := by
  fun_induction countVotes localPeerId ongoing resps t with
  | case1 t => exact h
  | case2 peer base resps t ih =>
      apply ih
      unfold Tally.round
      split
      · exact h
      · show (if (groupOf peer base resps).contains localPeerId then !ongoing else t.recovering) =
          !ongoing
        rw [h, ite_self]

/-- Without a majority the local response is in a minority. -/
theorem resp_of_none {us : Response O} {others : ReplVec (Ballot O)}
    (hus : us ≠ .error .sentDirectly)
    (h : (Repl.call localPeerId ongoing us (.ok others)).pick = none) :
    (Repl.call localPeerId ongoing us (.ok others)).resp =
      if ongoing then .error .noMajority else .error .ongoingRecovery := by
  have hvotes := (pick_call localPeerId ongoing hus).symm.trans h
  simp only [Repl.call, if_neg hus, Tally.verdict] at h ⊢
  rw [h]
  have hrecovering : (countVotes localPeerId ongoing ((localPeerId, us) :: others.toList.reverse)
      ⟨false, none, []⟩).recovering = !ongoing := by
    rw [countVotes]
    apply recovering_countVotes
    have hsmall : ¬ replicationFactor / 2 <
        (groupOf localPeerId us others.toList.reverse).length := by
      intro hlarge
      rw [length_groupOf, List.map_reverse] at hlarge
      replace hlarge : 3 ≤ 1 + alike Response.eq (others.toList.map Prod.snd).reverse us := hlarge
      rw [Lib.pick] at hvotes
      split at hvotes
      · cases hvotes
      · rw [if_pos hlarge] at hvotes
        cases hvotes
    simp only [Tally.round, if_neg hsmall]
    exact if_pos (List.contains_iff_mem.mpr List.mem_cons_self)
  rw [hrecovering]
  cases ongoing <;> rfl

end Pick

end OnionNetwork.Server
