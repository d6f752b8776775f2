import OnionNetwork.Chat.Headers
import OnionNetwork.Lib.Machine
import OnionNetwork.Server.Repl

/-!
# Starting recoveries

`OwnedContext::start_recovery` and the two handlers that call it, on a runtime that
runs handlers and spawned tasks in any order: a step of the machine is one atomic
action of one of them. The set `ongoing_recovery` is what keeps two calls from
recovering one topic at a time; a call leaves it as soon as it has spawned its task.

What a step does is said once, by `Context.advance_cases`. Of the two counts the
results speak about, calls move between their points (`callsAt_goto`), and a task is
counted from its spawn to its end. `Guarded` is what the set does ensure: at most one
call of a topic is between its insertion and its removal (`guarded_step`).
-/

namespace OnionNetwork.Chat

deriving instance DecidableEq for Topic

end OnionNetwork.Chat

namespace OnionNetwork.Server.Recovery

open Chat Lib

variable {O : Type} [DecidableEq O]

/-- The handlers that call `start_recovery`: `Repl::call`, with the local response and
what `repl_rpc_low` returned, and `Restore::call`. -/
inductive Handler (O : Type)
  | repl (us : Response O) (others : Except ChatError (ReplVec (Ballot O)))
  | restore

/-- The next action of a call. -/
inductive Point
  | shouldRecover
  | insert
  | spawn
  | remove
  | returned (started : Bool)
  /-- The handler does not call `start_recovery`. -/
  | notCalled
  deriving DecidableEq

/-- A handler at work on a topic. -/
structure Call where
  topic : Topic
  point : Point
  deriving DecidableEq

/-- A spawned task, and the call that spawned it. -/
structure Task where
  topic : Topic
  caller : Nat
  finished : Bool
  deriving DecidableEq

/-- What handlers and tasks share of the `OwnedContext`, and the ones there were. -/
structure Context where
  /-- `Storage::{has_profile, has_chat}` -/
  stored : Topic → Bool
  ongoingRecovery : List Topic
  calls : List Call
  tasks : List Task

/-- `Repl::call` calls `start_recovery`: it has collected the responses, and the group
with its own one is no majority. -/
def disagrees (localPeerId : NodeIdentity) (us : Response O)
    (others : Except ChatError (ReplVec (Ballot O))) : Bool :=
  if us = .error .sentDirectly then false
  else
    match others with
    | .error _ => false
    | .ok others =>
        (countVotes localPeerId false ((localPeerId, us) :: others.toList.reverse)
          ⟨false, none, []⟩).recovering

/-- Where a handler starts. -/
def Handler.start (localPeerId : NodeIdentity) : Handler O → Point
  | .repl us others => if disagrees localPeerId us others then .insert else .notCalled
  | .restore => .shouldRecover

namespace Context

/-- The call `n` has got to the point. -/
def goto (cx : Context) (n : Nat) (call : Call) (point : Point) : Context :=
  { cx with calls := cx.calls.set n { call with point } }

/-- The next action of the call `n`. -/
def advance (cx : Context) (n : Nat) : Context :=
  match cx.calls[n]? with
  | none => cx
  | some call =>
      match call.point with
      | .shouldRecover =>
          if cx.stored call.topic then cx.goto n call .notCalled else cx.goto n call .insert
      | .insert =>
          if call.topic ∈ cx.ongoingRecovery then cx.goto n call (.returned false)
          else { cx.goto n call .spawn with
            ongoingRecovery := call.topic :: cx.ongoingRecovery }
      | .spawn => { cx.goto n call .remove with tasks := cx.tasks ++ [⟨call.topic, n, false⟩] }
      | .remove => { cx.goto n call (.returned true) with
          ongoingRecovery := cx.ongoingRecovery.filter (· ≠ call.topic) }
      | .returned _ | .notCalled => cx

/-- The task `n` ends. -/
def finish (cx : Context) (n : Nat) : Context :=
  match cx.tasks[n]? with
  | none => cx
  | some task => { cx with tasks := cx.tasks.set n { task with finished := true } }

end Context

/-- What may happen next. -/
inductive Event (O : Type)
  /-- A request comes to its handler; a replicated one has its responses. -/
  | arrive (handler : Handler O) (topic : Topic)
  | advance (call : Nat)
  | finish (task : Nat)
  /-- A handler or a task creates or removes a profile or a chat. -/
  | store (topic : Topic) (present : Bool)

/-- Handlers and tasks in any order. -/
def scheduler (localPeerId : NodeIdentity) : Machine Context (Event O) Unit where
  step cx
    | .arrive handler topic =>
        ({ cx with calls := cx.calls ++ [⟨topic, handler.start localPeerId⟩] }, ())
    | .advance n => (cx.advance n, ())
    | .finish n => (cx.finish n, ())
    | .store topic present => ({ cx with stored := Function.update cx.stored topic present }, ())

/-- Before the first request. -/
def Context.fresh (stored : Topic → Bool) : Context := ⟨stored, [], [], []⟩

/-! ### What is counted -/

/-- A call of the topic, at a point that satisfies `P`. -/
def Call.isAt (P : Point → Bool) (topic : Topic) (call : Call) : Bool :=
  call.topic = topic && P call.point

/-- The calls of a topic at points that satisfy `P`. -/
def Context.callsAt (P : Point → Bool) (topic : Topic) (cx : Context) : Nat :=
  cx.calls.countP (Call.isAt P topic)

/-- A task of the topic that has not finished. -/
def Task.isAtWork (topic : Topic) (task : Task) : Bool := task.topic = topic && !task.finished

/-- The tasks of a topic that have not finished. -/
def Context.unfinished (topic : Topic) (cx : Context) : Nat :=
  cx.tasks.countP (Task.isAtWork topic)

/-- The tasks a call has spawned. -/
def Context.spawnedBy (n : Nat) (cx : Context) : Nat :=
  cx.tasks.countP fun task => task.caller = n

/-- The call has its topic in `ongoing_recovery`. -/
def Point.holds : Point → Bool
  | .spawn | .remove => true
  | _ => false

/-- The call has spawned its task. -/
def Point.spawned : Point → Bool
  | .remove | .returned true => true
  | _ => false

/-- Replacing one element moves a count by the difference of the two. -/
theorem countP_set_add {α : Type} {p : α → Bool} {l : List α} {n : Nat} {old : α} (new : α)
    (h : l[n]? = some old) :
    (l.set n new).countP p + (if p old then 1 else 0) = l.countP p + (if p new then 1 else 0) := by
  obtain ⟨hn, rfl⟩ := List.getElem?_eq_some_iff.mp h
  have hpos : (if p l[n] then 1 else 0) ≤ l.countP p := by
    split
    · next hp => exact List.countP_pos_iff.mpr ⟨_, List.getElem_mem hn, hp⟩
    · exact Nat.zero_le _
  rw [List.countP_set hn]
  omega

section CallsAt

variable {cx : Context} {n : Nat} {call : Call} {P : Point → Bool} {point : Point}

/-- A call that gets to another point is counted there. -/
theorem callsAt_goto (h : cx.calls[n]? = some call) (P : Point → Bool) (point : Point)
    (topic : Topic) :
    (cx.goto n call point).callsAt P topic + (if call.topic = topic ∧ P call.point then 1 else 0) =
      cx.callsAt P topic + (if call.topic = topic ∧ P point then 1 else 0) := by
  have hcount := countP_set_add (p := Call.isAt P topic) { call with point } h
  simp only [Call.isAt, Bool.and_eq_true, decide_eq_true_eq] at hcount
  exact hcount

theorem callsAt_stay (h : cx.calls[n]? = some call) (hP : P point = P call.point) (topic : Topic) :
    (cx.goto n call point).callsAt P topic = cx.callsAt P topic := by
  have hcount := callsAt_goto h P point topic
  rw [hP] at hcount
  exact Nat.add_right_cancel hcount

theorem callsAt_enter (h : cx.calls[n]? = some call) (hout : P call.point = false)
    (hin : P point = true) (topic : Topic) :
    (cx.goto n call point).callsAt P topic =
      cx.callsAt P topic + (if call.topic = topic then 1 else 0) := by
  simpa [hout, hin] using callsAt_goto h P point topic

theorem callsAt_leave (point : Point) (h : cx.calls[n]? = some call) (hin : P call.point = true)
    (hout : P point = false) (topic : Topic) :
    (cx.goto n call point).callsAt P topic + (if call.topic = topic then 1 else 0) =
      cx.callsAt P topic := by
  simpa [hout, hin] using callsAt_goto h P point topic

/-- A call that is at such a point is counted. -/
theorem callsAt_pos (h : cx.calls[n]? = some call) (hP : P call.point) :
    0 < cx.callsAt P call.topic := by
  refine List.countP_pos_iff.mpr ⟨call, List.mem_of_getElem? h, ?_⟩
  simp [Call.isAt, hP]

end CallsAt

/-- **The actions of a call**, with what each of them changes. -/
theorem Context.advance_cases (cx : Context) (n : Nat) :
    cx.advance n = cx ∨
    ∃ call, cx.calls[n]? = some call ∧
      ((call.point = .shouldRecover ∧ cx.advance n = cx.goto n call .notCalled) ∨
       (call.point = .shouldRecover ∧ cx.advance n = cx.goto n call .insert) ∨
       (call.point = .insert ∧ call.topic ∈ cx.ongoingRecovery ∧
          cx.advance n = cx.goto n call (.returned false)) ∨
       (call.point = .insert ∧ call.topic ∉ cx.ongoingRecovery ∧
          cx.advance n = { cx.goto n call .spawn with
            ongoingRecovery := call.topic :: cx.ongoingRecovery }) ∨
       (call.point = .spawn ∧
          cx.advance n = { cx.goto n call .remove with
            tasks := cx.tasks ++ [⟨call.topic, n, false⟩] }) ∨
       (call.point = .remove ∧
          cx.advance n = { cx.goto n call (.returned true) with
            ongoingRecovery := cx.ongoingRecovery.filter (· ≠ call.topic) })) := by
  cases hcall : cx.calls[n]? with
  | none => exact .inl (by rw [Context.advance, hcall])
  | some call =>
      cases hpoint : call.point with
      | shouldRecover =>
          have heq : cx.advance n = if cx.stored call.topic then cx.goto n call .notCalled
              else cx.goto n call .insert := by
            simp only [Context.advance, hcall, hpoint]
          split at heq
          · exact .inr ⟨call, rfl, .inl ⟨hpoint, heq⟩⟩
          · exact .inr ⟨call, rfl, .inr (.inl ⟨hpoint, heq⟩)⟩
      | insert =>
          have heq : cx.advance n = if call.topic ∈ cx.ongoingRecovery
              then cx.goto n call (.returned false)
              else { cx.goto n call .spawn with
                ongoingRecovery := call.topic :: cx.ongoingRecovery } := by
            simp only [Context.advance, hcall, hpoint]
          split at heq
          · next hin => exact .inr ⟨call, rfl, .inr (.inr (.inl ⟨hpoint, hin, heq⟩))⟩
          · next hout => exact .inr ⟨call, rfl, .inr (.inr (.inr (.inl ⟨hpoint, hout, heq⟩)))⟩
      | spawn =>
          have heq : cx.advance n = { cx.goto n call .remove with
              tasks := cx.tasks ++ [⟨call.topic, n, false⟩] } := by
            simp only [Context.advance, hcall, hpoint]
          exact .inr ⟨call, rfl, .inr (.inr (.inr (.inr (.inl ⟨hpoint, heq⟩))))⟩
      | remove =>
          have heq : cx.advance n = { cx.goto n call (.returned true) with
              ongoingRecovery := cx.ongoingRecovery.filter (· ≠ call.topic) } := by
            simp only [Context.advance, hcall, hpoint]
          exact .inr ⟨call, rfl, .inr (.inr (.inr (.inr (.inr ⟨hpoint, heq⟩))))⟩
      | returned started => exact .inl (by simp only [Context.advance, hcall, hpoint])
      | notCalled => exact .inl (by simp only [Context.advance, hcall, hpoint])

/-- A task that ends is the one it was. -/
theorem Context.finish_cases (cx : Context) (n : Nat) :
    cx.finish n = cx ∨ ∃ task, cx.tasks[n]? = some task ∧
      cx.finish n = { cx with tasks := cx.tasks.set n { task with finished := true } } := by
  cases htask : cx.tasks[n]? with
  | none => exact .inl (by rw [Context.finish, htask])
  | some task => exact .inr ⟨task, rfl, by rw [Context.finish, htask]⟩

/-- The handlers start before the insertion. -/
theorem Handler.start_cases (localPeerId : NodeIdentity) (handler : Handler O) :
    (handler.start localPeerId).holds = false ∧ (handler.start localPeerId).spawned = false := by
  cases handler with
  | repl us others =>
      by_cases hd : disagrees localPeerId us others
      · simp [Handler.start, hd, Point.holds, Point.spawned]
      · simp [Handler.start, hd, Point.holds, Point.spawned]
  | restore => exact ⟨rfl, rfl⟩

/-! ### What the set ensures -/

/-- A topic is in `ongoing_recovery` exactly while one call is between its insertion
and its removal; a call has spawned one task if it is past the spawn, else none. -/
structure Guarded (cx : Context) : Prop where
  held : ∀ topic, cx.callsAt Point.holds topic = if topic ∈ cx.ongoingRecovery then 1 else 0
  spawned : ∀ n call, cx.calls[n]? = some call →
    cx.spawnedBy n = if call.point.spawned then 1 else 0
  callers : ∀ task ∈ cx.tasks, task.caller < cx.calls.length

theorem guarded_fresh (stored : Topic → Bool) : Guarded (Context.fresh stored) where
  held _ := rfl
  spawned _ _ h := by cases h
  callers _ h := by cases h

/-- What the calls have spawned, after one of them got to another point. -/
theorem Guarded.spawned_goto {cx : Context} {n : Nat} {call : Call} (h : Guarded cx)
    (hcall : cx.calls[n]? = some call) (point : Point) (m : Nat) (other : Call)
    (hother : (cx.goto n call point).calls[m]? = some other) :
    (m = n ∧ other.point = point ∧ cx.spawnedBy m = if call.point.spawned then 1 else 0) ∨
      (m ≠ n ∧ cx.spawnedBy m = if other.point.spawned then 1 else 0) := by
  rcases eq_or_ne n m with rfl | hne
  · have hlt := (List.getElem?_eq_some_iff.mp hcall).1
    rw [Context.goto, List.getElem?_set_self hlt] at hother
    exact .inl ⟨rfl, (congrArg Call.point (Option.some.inj hother)).symm, h.spawned n call hcall⟩
  · rw [Context.goto, List.getElem?_set_ne hne] at hother
    exact .inr ⟨hne.symm, h.spawned m other hother⟩

/-- A call that gets to another point, where no task is spawned. -/
theorem Guarded.goto {cx : Context} {n : Nat} {call : Call} {point : Point} {ongoing : List Topic}
    (h : Guarded cx) (hcall : cx.calls[n]? = some call)
    (hspawned : point.spawned = call.point.spawned)
    (hheld : ∀ topic, (cx.goto n call point).callsAt Point.holds topic =
      if topic ∈ ongoing then 1 else 0) :
    Guarded { cx.goto n call point with ongoingRecovery := ongoing } where
  held := hheld
  spawned m other hother := by
    show cx.spawnedBy m = _
    rcases h.spawned_goto hcall point m other hother with ⟨-, hpoint, heq⟩ | ⟨-, heq⟩
    · rw [heq, hpoint, hspawned]
    · exact heq
  callers task htask := by
    show task.caller < (cx.calls.set n _).length
    rw [List.length_set]
    exact h.callers task htask

theorem guarded_advance {cx : Context} (h : Guarded cx) (n : Nat) : Guarded (cx.advance n) := by
  rcases cx.advance_cases n with hsame | ⟨call, hcall, hcases⟩
  · rw [hsame]
    exact h
  -- the two points before the insertion, and a call that finds the topic in the set
  have hquiet : ∀ point : Point, point.holds = call.point.holds →
      point.spawned = call.point.spawned → Guarded (cx.goto n call point) := by
    intro point hholds hspawned
    exact h.goto hcall hspawned fun topic => (callsAt_stay hcall hholds topic).trans (h.held topic)
  rcases hcases with ⟨hpoint, heq⟩ | ⟨hpoint, heq⟩ | ⟨hpoint, -, heq⟩ | ⟨hpoint, hout, heq⟩ |
    ⟨hpoint, heq⟩ | ⟨hpoint, heq⟩
  · rw [heq]
    exact hquiet .notCalled (by rw [hpoint]; rfl) (by rw [hpoint]; rfl)
  · rw [heq]
    exact hquiet .insert (by rw [hpoint]; rfl) (by rw [hpoint]; rfl)
  · rw [heq]
    exact hquiet (.returned false) (by rw [hpoint]; rfl) (by rw [hpoint]; rfl)
  · -- the insertion: no call held the topic
    rw [heq]
    refine h.goto hcall (by rw [hpoint]; rfl) fun topic => ?_
    rw [callsAt_enter hcall (by rw [hpoint]; rfl) rfl, h.held]
    by_cases htopic : call.topic = topic
    · subst htopic
      simp [hout]
    · simp [htopic, Ne.symm htopic]
  · -- the spawn
    rw [heq]
    refine ⟨fun topic => ?_, fun m other hother => ?_, fun task htask => ?_⟩
    · exact (callsAt_stay hcall (by rw [hpoint]; rfl) topic).trans (h.held topic)
    · show (cx.tasks ++ [(⟨call.topic, n, false⟩ : Task)]).countP _ = _
      have hold := h.spawned_goto hcall .remove m other hother
      unfold Context.spawnedBy at hold
      rw [List.countP_append, List.countP_singleton]
      rcases hold with ⟨rfl, hremove, hold⟩ | ⟨hne, hold⟩
      · rw [hold, hremove, hpoint]
        simp [Point.spawned]
      · rw [hold]
        simp [Ne.symm hne]
    · show task.caller < (cx.calls.set n _).length
      rw [List.length_set]
      rcases List.mem_append.mp htask with hold | hnew
      · exact h.callers task hold
      · rw [List.mem_singleton.mp hnew]
        exact (List.getElem?_eq_some_iff.mp hcall).1
  · -- the removal: the call was the one that held the topic
    rw [heq]
    refine h.goto hcall (by rw [hpoint]; rfl) fun topic => ?_
    have hcount := callsAt_leave (P := Point.holds) (.returned true) hcall
      (by rw [hpoint]; rfl) rfl topic
    have hpos : 0 < cx.callsAt Point.holds call.topic := callsAt_pos hcall (by rw [hpoint]; rfl)
    rw [h.held] at hcount hpos
    by_cases htopic : call.topic = topic
    · subst htopic
      have hin : call.topic ∈ cx.ongoingRecovery := by
        by_contra hnot
        rw [if_neg hnot] at hpos
        cases hpos
      rw [if_pos hin, if_pos rfl] at hcount
      rw [if_neg (by simp)]
      exact Nat.add_right_cancel hcount
    · rw [if_neg htopic] at hcount
      simpa [Ne.symm htopic] using hcount

/-- **The guard.** It is kept by every step, whatever the order. -/
theorem guarded_step (localPeerId : NodeIdentity) (cx : Context) (event : Event O)
    (h : Guarded cx) : Guarded ((scheduler localPeerId).step cx event).1 := by
  cases event with
  | arrive handler topic =>
      obtain ⟨hholds, hspawned⟩ := handler.start_cases localPeerId
      refine ⟨fun topic' => ?_, fun n call hcall => ?_, fun task htask => ?_⟩
      · show (cx.calls ++ [_]).countP _ = _
        rw [List.countP_append, List.countP_singleton, Call.isAt, hholds, Bool.and_false]
        exact h.held topic'
      · show cx.spawnedBy n = _
        rcases Nat.lt_or_ge n cx.calls.length with hlt | hge
        · exact h.spawned n call ((List.getElem?_append_left hlt).symm.trans hcall)
        · -- the new call; a call that does not exist has spawned nothing
          have hnew : call = ⟨topic, handler.start localPeerId⟩ := by
            have hmem := List.mem_of_getElem? ((List.getElem?_append_right hge).symm.trans hcall)
            exact List.mem_singleton.mp hmem
          rw [hnew, hspawned]
          refine List.countP_eq_zero.mpr fun task htask hcaller => ?_
          exact absurd (of_decide_eq_true hcaller) (by have := h.callers task htask; omega)
      · exact (h.callers task htask).trans_le (by simp [scheduler])
  | advance n => exact guarded_advance h n
  | finish n =>
      show Guarded (cx.finish n)
      rcases cx.finish_cases n with hsame | ⟨task, htask, heq⟩
      · rw [hsame]
        exact h
      · rw [heq]
        refine ⟨h.held, fun m call hcall => ?_, fun other hother => ?_⟩
        · rw [← h.spawned m call hcall]
          exact Nat.add_right_cancel (countP_set_add (p := fun task => task.caller = m)
            { task with finished := true } htask)
        · rcases List.mem_or_eq_of_mem_set hother with hold | rfl
          · exact h.callers other hold
          · exact h.callers task (List.mem_of_getElem? htask)
  | store topic present => exact ⟨h.held, h.spawned, h.callers⟩

end OnionNetwork.Server.Recovery
