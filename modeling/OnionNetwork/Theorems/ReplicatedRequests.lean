import OnionNetwork.Server.Repl

/-!
# Replicated requests answer with the majority

* `majority_exact_iff`: when the result of a call does not depend on the order of
  the responses and is every response that three of them equal. Rate limits can
  be equal to one response and not to each other: then it does.
* `one_faulty_tolerated_iff`: when two other nodes that agree with the local
  handler are enough for the call to answer with its response. A stream that was
  opened and then fails is not left out: its error becomes the answer.
-/

namespace OnionNetwork.Server

open Chat Lib

variable {O : Type}

/-! ### The order of the responses -/

/-- The responses come in every order in which the ballots come. -/
theorem exists_ballots {others : ReplVec (Ballot O)} {l : List (Response O)}
    (h : l.Perm (others.toList.map Prod.snd)) :
    ∃ others' : ReplVec (Ballot O), others'.toList.Perm others.toList ∧
      (others'.toList.map Prod.snd).reverse = l := by
  have hcomp : Relation.Comp (· = List.map Prod.snd ·) List.Perm l.reverse others.toList := by
    rw [List.eq_map_comp_perm]
    exact (List.reverse_perm l).trans h
  obtain ⟨ballots, hl, hperm⟩ := hcomp
  refine ⟨⟨ballots, hperm.length_eq ▸ others.length_le⟩, hperm, ?_⟩
  show (ballots.map Prod.snd).reverse = l
  rw [← hl, List.reverse_reverse]

theorem length_votes (us : Response O) (others : ReplVec (Ballot O)) :
    (us :: others.toList.map Prod.snd).length < 2 * 3 := by
  have hle : others.toList.length ≤ 4 := others.length_le
  rw [List.length_cons, List.length_map]
  omega

variable [DecidableEq O]

/-- In every order of the other responses the call returns an equal result, and it
returns a response that was collected if three of these are equal to it. -/
def Repl.MajorityExact (localPeerId : NodeIdentity) (ongoing : Bool) (us : Response O)
    (others : ReplVec (Ballot O)) : Prop :=
  ∀ others' : ReplVec (Ballot O), others'.toList.Perm others.toList →
    Response.eq (Repl.call localPeerId ongoing us (.ok others')).resp
      (Repl.call localPeerId ongoing us (.ok others)).resp ∧
    ∀ r ∈ Repl.collected us others,
      (∃ x, (Repl.call localPeerId ongoing us (.ok others')).pick = some x ∧ Response.eq x r) ↔
        3 ≤ alike Response.eq (Repl.collected us others) r

section Order

variable {localPeerId : NodeIdentity} {ongoing : Bool} {us : Response O}
  {others : ReplVec (Ballot O)}

/-- An answer that was sent directly is returned as it is. -/
theorem majorityExact_of_sentDirectly (hus : us = .error .sentDirectly) :
    Repl.MajorityExact localPeerId ongoing us others := by
  intro others' _
  simp [Repl.call, Repl.collected, hus, Response.eq_refl]

/-- The call picks the winner of the vote, in every order. -/
theorem majorityExact_iff_decided (hus : us ≠ .error .sentDirectly) :
    Repl.MajorityExact localPeerId ongoing us others ↔
      Decided Response.eq 3 us (others.toList.map Prod.snd) := by
  have hcollected : Repl.collected us others = us :: others.toList.map Prod.snd := if_neg hus
  have hvotes : ∀ others' : ReplVec (Ballot O), others'.toList.Perm others.toList →
      (others'.toList.map Prod.snd).reverse.Perm (others.toList.map Prod.snd) := by
    intro others' hperm
    exact (List.reverse_perm _).trans (hperm.map _)
  constructor
  · intro h l hl r hr
    -- every order of the responses is the order of some ballots
    obtain ⟨others', hperm, rfl⟩ := exists_ballots hl
    have hall := (h others' hperm).2 r (hcollected.symm ▸ hr)
    rwa [pick_call localPeerId ongoing hus, hcollected] at hall
  · intro h others' hperm
    have hsame := h.related Response.eq_refl Response.eq_symm (hvotes others' hperm)
      (hvotes others (List.Perm.refl _))
    rw [← pick_call localPeerId ongoing hus, ← pick_call localPeerId ongoing hus] at hsame
    refine ⟨?_, ?_⟩
    · -- no pick is the same error in both orders, so only two picks are to be compared
      cases hx : (Repl.call localPeerId ongoing us (.ok others')).pick with
      | none =>
          cases hy : (Repl.call localPeerId ongoing us (.ok others)).pick with
          | none =>
              rw [resp_of_none hus hx, resp_of_none hus hy]
              exact Response.eq_refl _
          | some y =>
              rw [hx, hy] at hsame
              cases hsame
      | some x =>
          cases hy : (Repl.call localPeerId ongoing us (.ok others)).pick with
          | none =>
              rw [hx, hy] at hsame
              cases hsame
          | some y =>
              rw [hx, hy] at hsame
              rw [resp_of_pick hx, resp_of_pick hy]
              cases hsame with
              | some heq => exact heq
    · intro r hr
      rw [hcollected] at hr ⊢
      rw [pick_call localPeerId ongoing hus]
      exact h _ (hvotes others' hperm) r hr

theorem majorityExact_iff_clear (hus : us ≠ .error .sentDirectly) :
    Repl.MajorityExact localPeerId ongoing us others ↔
      Clear Response.eq 3 us (others.toList.map Prod.snd) :=
  (majorityExact_iff_decided hus).trans
    (decided_iff Response.eq_refl Response.eq_symm (length_votes _ _))

/-- **Exactly when the order does not matter**: the local response is sent directly,
no response has a majority, or the responses that have one are those equal to one
of them, which the group of the local response does not take apart. -/
theorem majority_exact_iff (localPeerId : NodeIdentity) (ongoing : Bool) (us : Response O)
    (others : ReplVec (Ballot O)) :
    Repl.MajorityExact localPeerId ongoing us others ↔
      us = .error .sentDirectly ∨ Clear Response.eq 3 us (others.toList.map Prod.snd) := by
  by_cases hus : us = .error .sentDirectly
  · exact iff_of_true (majorityExact_of_sentDirectly hus) (.inl hus)
  · rw [majorityExact_iff_clear hus]
    exact (or_iff_right hus).symm

end Order

/-- A replica that is rate limited. -/
def limit (node : NodeIdentity) (ms : Nat) : Ballot Unit := (node, .error (.rateLimited ms))

/-- Three replicas that are rate limited for different times. -/
def limited : ReplVec (Ballot Unit) := ⟨[limit 1 0, limit 2 4000, limit 3 2000], Nat.le_succ 3⟩

/-- The same responses in another order. -/
def limitedSwapped : ReplVec (Ballot Unit) :=
  ⟨[limit 1 0, limit 3 2000, limit 2 4000], Nat.le_succ 3⟩

theorem resp_limited :
    (Repl.call 0 true (.ok ()) (.ok limited)).resp = .error (.rateLimited 2000) := by
  simp [Repl.call, limited, limit, countVotes, remaining, groupOf, Tally.round, Tally.verdict,
    Response.eq, ChatError.eq, msTilEndEq, replicationFactor]

theorem resp_limitedSwapped :
    (Repl.call 0 true (.ok ()) (.ok limitedSwapped)).resp = .error .noMajority := by
  simp [Repl.call, limitedSwapped, limit, countVotes, remaining, groupOf, Tally.round,
    Tally.verdict, Response.eq, ChatError.eq, msTilEndEq, replicationFactor]

/-- The limit that ends in between is equal to all three: it has a majority, and
whether it wins depends on which response is popped first. -/
theorem order_decides : ¬ Repl.MajorityExact 0 true (.ok ()) limited := by
  intro h
  have hperm : limitedSwapped.toList.Perm limited.toList := (List.Perm.swap _ _ _).cons _
  have hsame := (h limitedSwapped hperm).1
  rw [resp_limited, resp_limitedSwapped] at hsame
  cases hsame

/-! ### Replicas that fail -/

section Faults

variable {localPeerId : NodeIdentity} {ongoing : Bool} {us : Response O}
  {closest : GroupVec NodeIdentity} {decodeExact : Bytes → Option (Response O)}
  {replies : NodeIdentity → PeerReply} {others : ReplVec NodeIdentity}

/-- The node answers with a response that is equal to the local one. -/
def Seconds (decodeExact : Bytes → Option (Response O)) (us : Response O) (reply : PeerReply) :
    Bool :=
  match reply.future decodeExact with
  | some (_, .ok r) => Response.eq us r
  | _ => false

/-- Each node that seconds the local response adds a vote for it. -/
theorem alike_streams :
    alike Response.eq (((streams decodeExact replies others).filterMap
      fun f => f.2.toOption).map Prod.snd) us =
        others.toList.countP fun peer => Seconds decodeExact us (replies peer) := by
  unfold streams
  induction others.toList with
  | nil => rfl
  | cons peer peers ih =>
      rw [List.countP_cons, ← ih]
      unfold Seconds
      cases hfuture : (replies peer).future decodeExact with
      | none => simp [hfuture, alike]
      | some future =>
          obtain ⟨afterMs, result⟩ := future
          cases result with
          | error e => simp [hfuture, alike, Except.map, Except.toOption]
          | ok r => simp [hfuture, alike, Except.map, Except.toOption, List.countP_cons]

/-- **Two nodes that agree are enough** exactly when every stream that was opened
brings a response, or the error of the first one that does not is itself equal to
the local response. Nodes that are not connected do no harm. -/
theorem one_faulty_tolerated_iff (hothers : getOthersFor closest localPeerId = some others)
    (hseconds : 2 ≤ others.toList.countP fun peer => Seconds decodeExact us (replies peer)) :
    Response.eq us (Repl.call localPeerId ongoing us
        (replRpcLow closest localPeerId decodeExact replies)).resp ↔
      us = .error .sentDirectly ∨ (∀ peer ∈ others, ¬ Fails decodeExact (replies peer)) ∨
        ∃ e, firstFailure (streams decodeExact replies others) = some e ∧
          Response.eq us (.error e) := by
  by_cases hus : us = .error .sentDirectly
  · refine iff_of_true ?_ (.inl hus)
    simp [Repl.call, hus, Response.eq_refl]
  rw [or_iff_right hus, ← firstFailure_streams]
  cases hfirst : firstFailure (streams decodeExact replies others) with
  | some e =>
      rw [replRpcLow_of_failure hothers hfirst]
      simp [Repl.call, hus]
  | none =>
      refine iff_of_true ?_ (.inl rfl)
      obtain ⟨ballots, hcall, hballots⟩ := replRpcLow_of_none hothers hfirst
      have hvotes : 3 ≤ alike Response.eq (us :: (ballots.toList.map Prod.snd).reverse) us := by
        rw [alike_cons_self Response.eq_refl, alike_congr (List.reverse_perm _), hballots,
          alike_streams]
        omega
      have hlength : (us :: (ballots.toList.map Prod.snd).reverse).length < 2 * 3 := by
        have hle := length_votes us ballots
        rwa [List.length_cons, List.length_reverse]
      have hpick : (Repl.call localPeerId ongoing us (.ok ballots)).pick = some us := by
        rw [pick_call localPeerId ongoing hus]
        exact pick_cons_large Response.eq_refl hvotes hlength
      rw [hcall, resp_of_pick hpick]
      exact Response.eq_refl us

end Faults

/-- A group of five. -/
def five : GroupVec NodeIdentity := ⟨[0, 1, 2, 3, 4], Nat.le_refl 5⟩

/-- Three of the others answer at once, the last one as `last` says. -/
def threeAnswer (last : PeerReply) (node : NodeIdentity) : PeerReply :=
  if node = 4 then last else .read 0 (.ok [])

/-- The four others of the group of five. -/
def four : ReplVec NodeIdentity := ⟨[1, 2, 3, 4], by decide⟩

/-- With the last node not connected the call answers. -/
theorem one_faulty_tolerated_notConnected :
    Response.eq (.ok ()) (Repl.call 0 false (.ok ())
      (replRpcLow five 0 (fun _ => some (.ok ())) (threeAnswer .notConnected))).resp := by
  have hothers : getOthersFor five 0 = some four := by decide
  refine (one_faulty_tolerated_iff hothers (by decide)).mpr (.inr (.inl ?_))
  have hends : ∀ peer ∈ four.toList, ∀ afterMs e,
      (threeAnswer .notConnected peer).future (fun _ => some (.ok ())) ≠
        some (afterMs, (.error e : Except ChatError (Response Unit))) := by
    intro peer hpeer afterMs e
    simp only [four, List.mem_cons, List.not_mem_nil, or_false] at hpeer
    rcases hpeer with rfl | rfl | rfl | rfl <;> simp [threeAnswer, PeerReply.future, replTimeout]
  rintro peer hpeer ⟨afterMs, e, he⟩
  exact hends peer hpeer afterMs e he

/-- Three other nodes agree with the local handler and the last one never answers:
the call returns the timeout. -/
theorem one_silent_node_fails :
    (3 ≤ four.toList.countP fun peer =>
      Seconds (fun _ => some (.ok ())) (.ok ()) (threeAnswer .silent peer)) ∧
    (Repl.call 0 false (.ok ())
      (replRpcLow five 0 (fun _ => some (.ok ())) (threeAnswer .silent))).resp =
        .error .timeout := by
  have hothers : getOthersFor five 0 = some four := by decide
  have hfirst : firstFailure (streams (fun _ => some (.ok ())) (threeAnswer .silent) four) =
      some .timeout := by decide
  refine ⟨by decide, ?_⟩
  rw [replRpcLow_of_failure hothers hfirst]
  simp [Repl.call]

end OnionNetwork.Server
