import Mathlib.Data.List.Perm.Basic
import OnionNetwork.Lib.Machine

/-!
# A queue of work with a waker

Producers push under a lock and wake the worker afterwards, in a step of its own. The worker
takes work under the same lock; where there is none it registers its waker before it lets go of
the lock, and sleeps. A wake takes the waker that is registered, if one is.

* `Awake` — a worker that sleeps has registered its waker, and where there is work someone is
  about to wake it;
* `Kept` — what was pushed is at hand, waits in the queue or is done, each as often as it was
  pushed;
* `drained` — so the worker gets through the queue, whatever went on before.
-/

namespace OnionNetwork.Lib

/-- Where the worker is. -/
inductive Worker (α : Type*)
  | scheduled
  | working (a : α)
  | sleeping
  deriving DecidableEq

/-- The queue, the pushes whose wake is still to come, the waker and the worker. What was pushed
and what is done are history. -/
structure WorkQueue (α : Type*) where
  queue : List α
  wakes : Nat
  registered : Bool
  worker : Worker α
  pushed : List α
  done : List α

/-- A producer wakes the worker; the worker is polled, has finished, or wakes for no reason. -/
inductive WorkInput
  | wake
  | poll
  | finish
  | stray

namespace WorkQueue

variable {α : Type*}

/-- Nothing was pushed, and the worker is about to look. -/
def start : WorkQueue α := ⟨[], 0, false, .scheduled, [], []⟩

/-- A producer pushes, and has to wake the worker. -/
def push (q : WorkQueue α) (a : α) : WorkQueue α :=
  { q with queue := q.queue ++ [a], wakes := q.wakes + 1, pushed := q.pushed ++ [a] }

/-- One step. -/
def step (q : WorkQueue α) : WorkInput → WorkQueue α
  | .wake =>
      match q.wakes with
      | 0 => q
      | wakes + 1 =>
          match q.registered, q.worker with
          | true, .sleeping => { q with wakes, registered := false, worker := .scheduled }
          | _, _ => { q with wakes, registered := false }
  | .poll =>
      match q.worker, q.queue.getLast? with
      | .scheduled, some a => { q with queue := q.queue.dropLast, worker := .working a }
      | .scheduled, none => { q with registered := true, worker := .sleeping }
      | _, _ => q
  | .finish =>
      match q.worker with
      | .working a => { q with worker := .scheduled, done := q.done ++ [a] }
      | _ => q
  | .stray =>
      match q.worker with
      | .sleeping => { q with worker := .scheduled }
      | _ => q

/-- The steps between pushes as a machine. -/
def machine (α : Type*) : Machine (WorkQueue α) WorkInput Unit where
  step q i := (q.step i, ())

/-- What the worker has at hand. -/
def atHand (q : WorkQueue α) : List α :=
  match q.worker with
  | .working a => [a]
  | _ => []

/-- The worker does not sleep on work, unless someone is about to wake it. -/
def Awake (q : WorkQueue α) : Prop :=
  q.worker = .sleeping → q.registered = true ∧ (q.queue ≠ [] → 0 < q.wakes)

/-- Nothing gets lost and nothing is done twice. -/
def Kept (q : WorkQueue α) : Prop := (q.done ++ q.atHand ++ q.queue).Perm q.pushed

variable {q : WorkQueue α}

theorem awake_push (h : q.Awake) (a : α) : (q.push a).Awake :=
  fun hsleeps => ⟨(h hsleeps).1, fun _ => Nat.succ_pos _⟩

theorem awake_step (h : q.Awake) (i : WorkInput) : (q.step i).Awake := by
  cases i with
  | wake =>
      simp only [step]
      split
      · exact h
      · split
        · intro hsleeps
          cases hsleeps
        · next hnot =>
            intro hsleeps
            exact absurd hsleeps (hnot (h hsleeps).1)
  | poll =>
      simp only [step]
      split
      · intro hsleeps
        cases hsleeps
      · next hnone =>
          exact fun _ => ⟨rfl, fun hne => absurd (List.getLast?_eq_none_iff.mp hnone) hne⟩
      · exact h
  | finish =>
      simp only [step]
      split
      · intro hsleeps
        cases hsleeps
      · exact h
  | stray =>
      simp only [step]
      split
      · intro hsleeps
        cases hsleeps
      · exact h

theorem kept_push (h : q.Kept) (a : α) : (q.push a).Kept := by
  show (q.done ++ q.atHand ++ (q.queue ++ [a])).Perm (q.pushed ++ [a])
  rw [← List.append_assoc]
  exact h.append_right [a]

theorem kept_step (h : q.Kept) (i : WorkInput) : (q.step i).Kept := by
  cases i with
  | wake =>
      simp only [step]
      split
      · exact h
      · split
        · next hsleeps =>
            rw [Kept, atHand, hsleeps] at h
            exact h
        · exact h
  | poll =>
      simp only [step]
      split
      · next a hscheduled hlast =>
          rw [Kept, atHand, hscheduled] at h
          -- the last task of the queue becomes the one at hand
          obtain ⟨rest, hqueue⟩ := List.getLast?_eq_some_iff.mp hlast
          show (q.done ++ [a] ++ q.queue.dropLast).Perm q.pushed
          rw [hqueue, List.dropLast_concat, List.append_assoc]
          refine List.Perm.trans (List.Perm.append_left _ List.perm_append_comm) ?_
          rwa [hqueue, List.append_nil] at h
      · next hscheduled _ =>
          rw [Kept, atHand, hscheduled] at h
          exact h
      · exact h
  | finish =>
      simp only [step]
      split
      · next a hworking =>
          rw [Kept, atHand, hworking] at h
          show (q.done ++ [a] ++ [] ++ q.queue).Perm q.pushed
          rwa [List.append_nil]
      · exact h
  | stray =>
      simp only [step]
      split
      · next hsleeps =>
          rw [Kept, atHand, hsleeps] at h
          exact h
      · exact h

/-- What holds in every run. -/
structure Live (q : WorkQueue α) : Prop where
  awake : q.Awake
  kept : q.Kept

theorem live_start : (start : WorkQueue α).Live where
  awake := by
    intro hsleeps
    cases hsleeps
  kept := List.Perm.refl _

theorem live_push (h : q.Live) (a : α) : (q.push a).Live :=
  ⟨awake_push h.awake a, kept_push h.kept a⟩

theorem live_step (h : q.Live) (i : WorkInput) : (q.step i).Live :=
  ⟨awake_step h.awake i, kept_step h.kept i⟩

/-! ### The worker gets through -/

/-- The wakes that are to come, and then the worker until the queue is empty. -/
def drain (q : WorkQueue α) : List WorkInput :=
  List.replicate q.wakes .wake ++ .finish ::
    (List.replicate q.queue.length [.poll, .finish]).flatten

theorem step_wake {n : Nat} (h : q.Awake) (hwakes : q.wakes = n + 1) :
    (q.step .wake).wakes = n ∧ (q.step .wake).worker ≠ .sleeping ∧
      (q.step .wake).queue = q.queue := by
  simp only [step, hwakes]
  split
  · exact ⟨rfl, (by intro hsleeps; cases hsleeps), rfl⟩
  · next hnot =>
      refine ⟨rfl, fun hsleeps => ?_, rfl⟩
      exact hnot (h hsleeps).1 hsleeps

/-- After the wakes the queue is as before, and nobody sleeps on it. -/
theorem run_wakes (h : q.Live) :
    ((machine α).run q (List.replicate q.wakes .wake)).queue = q.queue ∧
      (q.queue ≠ [] →
        ((machine α).run q (List.replicate q.wakes .wake)).worker ≠ .sleeping) := by
  generalize hn : q.wakes = n
  induction n generalizing q with
  | zero =>
      refine ⟨rfl, fun hwork hsleeps => ?_⟩
      have hpos := (h.awake hsleeps).2 hwork
      rw [hn] at hpos
      cases hpos
  | succ n ih =>
      obtain ⟨hwakes, -, hqueue⟩ := step_wake h.awake hn
      obtain ⟨hsame, hnot⟩ := ih (live_step h .wake) hwakes
      exact ⟨hsame.trans hqueue, fun hwork => hnot (hqueue ▸ hwork)⟩

/-- The worker takes the last of the queue and does it. -/
theorem step_round (hscheduled : q.worker = .scheduled) (hwork : q.queue ≠ []) :
    ((q.step .poll).step .finish).worker = .scheduled ∧
      ((q.step .poll).step .finish).queue = q.queue.dropLast := by
  obtain ⟨a, hlast⟩ : ∃ a, q.queue.getLast? = some a :=
    ⟨_, List.getLast?_eq_some_getLast hwork⟩
  simp only [step, hscheduled, hlast]
  exact ⟨trivial, trivial⟩

theorem run_rounds (hscheduled : q.worker = .scheduled) :
    ((machine α).run q (List.replicate q.queue.length [.poll, .finish]).flatten).queue = [] ∧
      ((machine α).run q (List.replicate q.queue.length [.poll, .finish]).flatten).worker =
        .scheduled := by
  generalize hn : q.queue.length = n
  induction n generalizing q with
  | zero => exact ⟨List.length_eq_zero_iff.mp hn, hscheduled⟩
  | succ n ih =>
      have hwork : q.queue ≠ [] := List.ne_nil_of_length_eq_add_one hn
      obtain ⟨hnext, hqueue⟩ := step_round hscheduled hwork
      have hlen := congrArg List.length hqueue
      rw [List.length_dropLast, hn] at hlen
      exact ih hnext hlen

/-- Once it has finished, the worker has nothing at hand, and is ready unless it sleeps. -/
theorem step_finish (q : WorkQueue α) :
    (q.step .finish).queue = q.queue ∧ (q.step .finish).atHand = [] ∧
      (q.worker ≠ .sleeping → (q.step .finish).worker = .scheduled) := by
  simp only [step]
  split
  · exact ⟨rfl, rfl, fun _ => rfl⟩
  · next hidle =>
      cases hworker : q.worker with
      | scheduled => exact ⟨rfl, by rw [atHand, hworker], fun _ => rfl⟩
      | working a => exact absurd hworker (hidle a)
      | sleeping => exact ⟨rfl, by rw [atHand, hworker], fun hnot => absurd rfl hnot⟩

theorem live_run (h : q.Live) (is : List WorkInput) : ((machine α).run q is).Live :=
  Machine.always_run (m := machine α) (P := Live) (fun _ i h => live_step h i) h

/-- Only producers push. -/
theorem step_pushed (q : WorkQueue α) (i : WorkInput) : (q.step i).pushed = q.pushed := by
  cases i with
  | wake =>
      simp only [step]
      split
      · rfl
      · split <;> rfl
  | poll => simp only [step]; split <;> rfl
  | finish => simp only [step]; split <;> rfl
  | stray => simp only [step]; split <;> rfl

theorem run_pushed (q : WorkQueue α) (is : List WorkInput) :
    ((machine α).run q is).pushed = q.pushed := by
  induction is generalizing q with
  | nil => rfl
  | cons i is ih => exact (ih (q.step i)).trans (step_pushed q i)

/-- Where nothing is queued or at hand, all is done. -/
theorem Kept.done_perm (h : q.Kept) (hqueue : q.queue = []) (hhand : q.atHand = []) :
    q.done.Perm q.pushed := by
  rwa [Kept, hqueue, hhand, List.append_nil, List.append_nil] at h

/-- **The queue gets empty, and what was pushed is done**, each as often as it was pushed. -/
theorem drained (h : q.Live) :
    ((machine α).run q q.drain).queue = [] ∧ ((machine α).run q q.drain).done.Perm q.pushed := by
  obtain ⟨hqueue, hnot⟩ := run_wakes h
  obtain ⟨hsame, hhand, hready⟩ := step_finish ((machine α).run q (List.replicate q.wakes .wake))
  have hrun : (machine α).run q q.drain =
      (machine α).run (((machine α).run q (List.replicate q.wakes .wake)).step .finish)
        (List.replicate q.queue.length [.poll, .finish]).flatten := by
    rw [drain, Machine.run_append]
    rfl
  suffices hend :
      ((machine α).run q q.drain).queue = [] ∧ ((machine α).run q q.drain).atHand = [] by
    obtain ⟨hempty, hnone⟩ := hend
    have hdone := (live_run h q.drain).kept.done_perm hempty hnone
    rw [run_pushed] at hdone
    exact ⟨hempty, hdone⟩
  by_cases hwork : q.queue = []
  · -- at most the work at hand is left, and it is finished
    have hnothing : (List.replicate q.queue.length [WorkInput.poll, .finish]).flatten = [] := by
      rw [hwork]
      rfl
    rw [hrun, hnothing, Machine.run_nil]
    exact ⟨hsame.trans (hqueue.trans hwork), hhand⟩
  · obtain ⟨hempty, hscheduled⟩ := run_rounds (hready (hnot hwork))
    rw [hsame, hqueue] at hempty hscheduled
    rw [hrun]
    exact ⟨hempty, by rw [atHand, hscheduled]⟩

end WorkQueue

end OnionNetwork.Lib
