import OnionNetwork.Server.Recovery

/-!
# At most one recovery of a topic

`start_recovery` takes the topic out of `ongoing_recovery` right after the spawn, so
the set covers the call and not the task. `one_recovery_per_topic`: what it returns is
always right; and in the runs in which nobody gets through the guard while a task of
the topic is at work, at most one is at work at any moment. A call that does get
through has a second task at work two actions later.
-/

namespace OnionNetwork.Server.Recovery

open Chat Lib

variable {O : Type} [DecidableEq O]

/-- Of every topic at most one spawned task has not finished. -/
def AtMostOne (cx : Context) : Prop := ∀ topic, cx.unfinished topic ≤ 1

/-- `start_recovery` returned `true` to the calls that spawned a task, which is one
each, and `false` to those that spawned none. -/
def Truthful (cx : Context) : Prop :=
  ∀ n call started, cx.calls[n]? = some call → call.point = .returned started →
    cx.spawnedBy n = if started then 1 else 0

/-- Whoever gets through the guard finds no task of the topic at work. -/
def Covered (cx : Context) : Event O → Prop
  | .advance n => ∀ call ∈ cx.calls[n]?, call.point = .insert →
      call.topic ∉ cx.ongoingRecovery → cx.unfinished call.topic = 0
  | _ => True

instance (cx : Context) : ∀ event : Event O, Decidable (Covered cx event)
  | .advance n => inferInstanceAs (Decidable (∀ call ∈ cx.calls[n]?, call.point = .insert →
      call.topic ∉ cx.ongoingRecovery → cx.unfinished call.topic = 0))
  | .arrive _ _ | .finish _ | .store _ _ => inferInstanceAs (Decidable True)

/-- Through the guard, and the task not spawned yet. -/
def Point.spawns : Point → Bool
  | .spawn => true
  | _ => false

/-- A topic has one task at work or about to be spawned, or none. -/
def Single (cx : Context) : Prop :=
  ∀ topic, cx.callsAt Point.spawns topic + cx.unfinished topic ≤ 1

theorem Guarded.truthful {cx : Context} (h : Guarded cx) : Truthful cx := by
  intro n call started hcall hpoint
  rw [h.spawned n call hcall, hpoint]
  cases started <;> rfl

/-- A topic that is not in the set has no call that is about to spawn. -/
theorem Guarded.callsAt_spawns {cx : Context} (h : Guarded cx) {topic : Topic}
    (hout : topic ∉ cx.ongoingRecovery) : cx.callsAt Point.spawns topic = 0 := by
  have hle : cx.callsAt Point.spawns topic ≤ cx.callsAt Point.holds topic := by
    refine List.countP_mono_left fun call _ hcall => ?_
    obtain ⟨htopic, hpoint⟩ := (Bool.and_eq_true _ _).mp hcall
    refine (Bool.and_eq_true _ _).mpr ⟨htopic, ?_⟩
    cases hp : call.point with
    | spawn => rfl
    | _ => rw [hp] at hpoint; cases hpoint
  rw [h.held, if_neg hout] at hle
  exact Nat.le_zero.mp hle

/-- A spawned task is at work. -/
theorem countP_spawned (tasks : List Task) (topic topic' : Topic) (n : Nat) :
    (tasks ++ [(⟨topic, n, false⟩ : Task)]).countP (Task.isAtWork topic') =
      tasks.countP (Task.isAtWork topic') + (if topic = topic' then 1 else 0) := by
  simp [List.countP_append, List.countP_singleton, Task.isAtWork]

omit [DecidableEq O] in
theorem single_advance {cx : Context} {n : Nat} (hguard : Guarded cx) (h : Single cx)
    (hcovered : Covered (O := O) cx (.advance n)) : Single (cx.advance n) := by
  rcases cx.advance_cases n with hsame | ⟨call, hcall, hcases⟩
  · rw [hsame]
    exact h
  -- a step that neither begins nor ends a task leaves the number of them
  have hquiet : ∀ point : Point, point.spawns = call.point.spawns →
      ∀ topic, (cx.goto n call point).callsAt Point.spawns topic + cx.unfinished topic ≤ 1 := by
    intro point hspawns topic
    rw [callsAt_stay hcall hspawns]
    exact h topic
  rcases hcases with ⟨hpoint, heq⟩ | ⟨hpoint, heq⟩ | ⟨hpoint, -, heq⟩ | ⟨hpoint, hout, heq⟩ |
    ⟨hpoint, heq⟩ | ⟨hpoint, heq⟩
  · rw [heq]
    exact hquiet .notCalled (by rw [hpoint]; rfl)
  · rw [heq]
    exact hquiet .insert (by rw [hpoint]; rfl)
  · rw [heq]
    exact hquiet (.returned false) (by rw [hpoint]; rfl)
  · -- through the guard: neither a call about to spawn nor a task at work
    rw [heq]
    intro topic
    show (cx.goto n call .spawn).callsAt Point.spawns topic + cx.unfinished topic ≤ 1
    rw [callsAt_enter hcall (by rw [hpoint]; rfl) rfl]
    by_cases htopic : call.topic = topic
    · subst htopic
      rw [hguard.callsAt_spawns hout, hcovered call hcall hpoint hout, if_pos rfl]
    · rw [if_neg htopic]
      exact h topic
  · -- the task is at work instead of about to be spawned
    rw [heq]
    intro topic
    have hleave := callsAt_leave (P := Point.spawns) .remove hcall
      (by rw [hpoint]; rfl) rfl topic
    have hold := h topic
    show (cx.goto n call .remove).callsAt Point.spawns topic +
      (cx.tasks ++ [(⟨call.topic, n, false⟩ : Task)]).countP (Task.isAtWork topic) ≤ 1
    rw [countP_spawned]
    unfold Context.unfinished at hold
    omega
  · rw [heq]
    exact hquiet (.returned true) (by rw [hpoint]; rfl)

/-- A step that is covered leaves each topic with one task at most. -/
theorem single_step (localPeerId : NodeIdentity) (cx : Context) (event : Event O)
    (hguard : Guarded cx) (h : Single cx) (hcovered : Covered cx event) :
    Single ((scheduler localPeerId).step cx event).1 := by
  cases event with
  | arrive handler topic =>
      intro topic'
      have hholds := (handler.start_cases localPeerId).1
      have hspawns : (handler.start localPeerId).spawns = false := by
        cases hp : handler.start localPeerId with
        | spawn => rw [hp] at hholds; cases hholds
        | _ => rfl
      show (cx.calls ++ [_]).countP _ + cx.unfinished topic' ≤ 1
      rw [List.countP_append, List.countP_singleton, Call.isAt, hspawns, Bool.and_false]
      exact h topic'
  | advance n => exact single_advance hguard h hcovered
  | finish n =>
      show Single (cx.finish n)
      rcases cx.finish_cases n with hsame | ⟨task, htask, heq⟩
      · rw [hsame]
        exact h
      · rw [heq]
        intro topic
        have hcount := countP_set_add (p := Task.isAtWork topic)
          { task with finished := true } htask
        have hended : ({ task with finished := true } : Task).isAtWork topic = false := by
          simp [Task.isAtWork]
        have hold := h topic
        rw [hended] at hcount
        show cx.callsAt Point.spawns topic +
          (cx.tasks.set n { task with finished := true }).countP (Task.isAtWork topic) ≤ 1
        unfold Context.unfinished at hold
        simp only [Bool.false_eq_true, if_false] at hcount
        omega
  | store topic present => exact h

omit [DecidableEq O] in
/-- Through the guard while a task is at work: two actions later there are two. -/
theorem unfinished_of_uncovered {cx : Context} {n : Nat}
    (h : ¬ Covered (O := O) cx (.advance n)) :
    ∃ topic, 2 ≤ ((cx.advance n).advance n).unfinished topic := by
  simp only [Covered, not_forall] at h
  obtain ⟨call, hcall, hpoint, hout, hwork⟩ := h
  rw [Option.mem_def] at hcall
  have hfirst : cx.advance n = { cx.goto n call .spawn with
      ongoingRecovery := call.topic :: cx.ongoingRecovery } := by
    simp only [Context.advance, hcall, hpoint, hout, if_false]
  have hnext : (cx.advance n).calls[n]? = some { call with point := .spawn } := by
    rw [hfirst]
    exact List.getElem?_set_self (List.getElem?_eq_some_iff.mp hcall).1
  have htasks : (cx.advance n).tasks = cx.tasks := by rw [hfirst]; rfl
  refine ⟨call.topic, ?_⟩
  have hsecond : ((cx.advance n).advance n).tasks = cx.tasks ++ [⟨call.topic, n, false⟩] := by
    rw [Context.advance, hnext, ← htasks]
  rw [Context.unfinished, hsecond, countP_spawned, if_pos rfl]
  exact Nat.succ_le_succ (Nat.pos_of_ne_zero hwork)

/-- **One recovery per topic.** In every run of handlers and tasks `start_recovery`
returns `true` exactly to the calls that spawned a task. If nobody gets through the
guard while a task of the topic is at work, then at every moment at most one is; and
whoever does get through has started a second one after two more actions. -/
theorem one_recovery_per_topic (localPeerId : NodeIdentity) (stored : Topic → Bool)
    (events : List (Event O)) :
    (∀ pre post, events = pre ++ post →
      Truthful ((scheduler localPeerId).run (Context.fresh stored) pre)) ∧
    ((scheduler localPeerId).EachStep Covered (Context.fresh stored) events →
      ∀ pre post, events = pre ++ post →
        AtMostOne ((scheduler localPeerId).run (Context.fresh stored) pre)) ∧
    (∀ n, ¬ Covered (O := O) ((scheduler localPeerId).run (Context.fresh stored) events)
        (.advance n) →
      ¬ AtMostOne ((scheduler localPeerId).run (Context.fresh stored)
        (events ++ [.advance n, .advance n]))) := by
  have hguarded : ∀ pre : List (Event O),
      Guarded ((scheduler localPeerId).run (Context.fresh stored) pre) := by
    intro pre
    exact Machine.invariant_run
      (fun cx event h _ => guarded_step localPeerId cx event h) (guarded_fresh stored)
      (Machine.EachStep.of_forall (Q := fun _ => True) (fun _ _ => trivial) _)
  refine ⟨fun pre _ _ => (hguarded pre).truthful, fun hcovered pre post hsplit => ?_, ?_⟩
  · subst hsplit
    have hinv := Machine.invariant_run (m := scheduler localPeerId)
      (P := fun cx => Guarded cx ∧ Single cx)
      (fun cx event h hc => ⟨guarded_step localPeerId cx event h.1,
        single_step localPeerId cx event h.1 h.2 hc⟩)
      ⟨guarded_fresh stored, fun _ => Nat.zero_le _⟩
      (((scheduler localPeerId).eachStep_append Covered _ pre post).mp hcovered).1
    exact fun topic => le_trans (Nat.le_add_left _ _) (hinv.2 topic)
  · intro n huncovered hone
    obtain ⟨topic, htwo⟩ := unfinished_of_uncovered huncovered
    rw [Machine.run_append] at hone
    exact absurd (hone topic) (by
      show ¬ ((Context.advance _ n).advance n).unfinished topic ≤ 1
      omega)

/-- A chat that is asked for again after its recovery ended. -/
def recoveredTwice (topic : Topic) : List (Event Unit) :=
  [.arrive .restore topic, .advance 0, .advance 0, .advance 0, .advance 0, .finish 0,
    .arrive .restore topic, .advance 1, .advance 1, .advance 1, .advance 1]

/-- The profile of all zeros. -/
def someProfile : Topic := .profile ⟨List.replicate 32 0, List.length_replicate⟩

/-- The second recovery starts when the first one has ended. -/
theorem one_recovery_per_topic_twice :
    AtMostOne ((scheduler 0).run (Context.fresh fun _ => false) (recoveredTwice someProfile)) :=
  (one_recovery_per_topic 0 (fun _ => false) (recoveredTwice someProfile)).2.1
    (by decide) _ [] (List.append_nil _).symm

/-- Two requests for a chat that the server does not have: two tasks at once. -/
def requestedTwice (topic : Topic) : List (Event Unit) :=
  [.arrive .restore topic, .advance 0, .advance 0, .advance 0, .advance 0,
    .arrive .restore topic, .advance 1, .advance 1, .advance 1]

theorem one_recovery_per_topic_overlap :
    ¬ AtMostOne
      ((scheduler 0).run (Context.fresh fun _ => false) (requestedTwice someProfile)) := by
  intro hone
  exact absurd (hone someProfile) (by decide)

end OnionNetwork.Server.Recovery
