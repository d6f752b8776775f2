import Mathlib.Order.Basic

/-!
# Deterministic machines and their runs

A machine answers one input at a time; every nondeterminism of a component
(which client speaks, which packet arrives, what the clock shows) sits in the
input list, so "every interleaving" is "every list of inputs". The module
gives the run of a machine, the predicate *each step of the run satisfies
`Q`*, and the rules that carry a step lemma to a run:

* `invariant_run` — an invariant of the guarded steps holds at the end (`always_run`: of all steps);
* `eachStep_of_invariant` — and everything it implies holds at each step;
* `EachStep.run` — what every step ends in holds at the end;
* `goal_run_iff` — a goal that holds exactly after the guarded runs;
* `Machine.withGhost` — a run instrumented with history the code does not keep.

A chain of keys is such a machine without inputs: `next` turns its state into the next state and
a key. `stateAt` and `keyAt` are the state and the key a number of steps ahead; the chain a few
steps on hands out the same keys, that many earlier (`keyAt_add`).
-/

namespace OnionNetwork.Lib

/-- A component that consumes one input per step and answers it. -/
structure Machine (σ ι ο : Type*) where
  step : σ → ι → σ × ο

namespace Machine

variable {σ ι ο γ α : Type*} (m : Machine σ ι ο)

/-- The state after a list of inputs. -/
def run : σ → List ι → σ
  | s, [] => s
  | s, i :: is => run (m.step s i).1 is

/-- Every step of the run satisfies `Q`, judged at the state it starts from. -/
def EachStep (Q : σ → ι → Prop) : σ → List ι → Prop
  | _, [] => True
  | s, i :: is => Q s i ∧ EachStep Q (m.step s i).1 is

/-- A run can be checked. -/
instance decidableEachStep (Q : σ → ι → Prop) [∀ s i, Decidable (Q s i)] :
    ∀ (s : σ) (is : List ι), Decidable (m.EachStep Q s is)
  | _, [] => isTrue trivial
  | s, i :: is =>
      have : Decidable (m.EachStep Q (m.step s i).1 is) := decidableEachStep Q _ is
      inferInstanceAs (Decidable (Q s i ∧ m.EachStep Q (m.step s i).1 is))

@[simp] theorem run_nil (s : σ) : m.run s [] = s := rfl

@[simp] theorem run_cons (s : σ) (i : ι) (is : List ι) :
    m.run s (i :: is) = m.run (m.step s i).1 is := rfl

theorem run_append (s : σ) (is js : List ι) :
    m.run s (is ++ js) = m.run (m.run s is) js := by
  induction is generalizing s with
  | nil => rfl
  | cons i is ih => simpa using ih (m.step s i).1

@[simp] theorem eachStep_nil (Q : σ → ι → Prop) (s : σ) : m.EachStep Q s [] := trivial

@[simp] theorem eachStep_cons (Q : σ → ι → Prop) (s : σ) (i : ι) (is : List ι) :
    m.EachStep Q s (i :: is) ↔ Q s i ∧ m.EachStep Q (m.step s i).1 is := Iff.rfl

theorem eachStep_append (Q : σ → ι → Prop) (s : σ) (is js : List ι) :
    m.EachStep Q s (is ++ js) ↔ m.EachStep Q s is ∧ m.EachStep Q (m.run s is) js := by
  induction is generalizing s with
  | nil => simp
  | cons i is ih => simp [ih, and_assoc]

variable {m}

theorem EachStep.mono {Q R : σ → ι → Prop} (hQR : ∀ s i, Q s i → R s i) {s : σ}
    {is : List ι} (h : m.EachStep Q s is) : m.EachStep R s is := by
  induction is generalizing s with
  | nil => trivial
  | cons i is ih => exact ⟨hQR s i h.1, ih h.2⟩

/-- What all inputs satisfy holds at each step. -/
theorem EachStep.of_forall {Q : ι → Prop} {is : List ι} (h : ∀ i ∈ is, Q i) (s : σ) :
    m.EachStep (fun _ i => Q i) s is := by
  induction is generalizing s with
  | nil => trivial
  | cons i is ih =>
      obtain ⟨hi, his⟩ := List.forall_mem_cons.mp h
      exact ⟨hi, ih his (m.step s i).1⟩

theorem EachStep.and {Q R : σ → ι → Prop} {s : σ} {is : List ι} (hQ : m.EachStep Q s is)
    (hR : m.EachStep R s is) : m.EachStep (fun s i => Q s i ∧ R s i) s is := by
  induction is generalizing s with
  | nil => trivial
  | cons i is ih => exact ⟨⟨hQ.1, hR.1⟩, ih hQ.2 hR.2⟩

/-- What holds at the start and after each step holds after the run. -/
theorem EachStep.run {P : σ → Prop} {s : σ} {is : List ι}
    (h : m.EachStep (fun s i => P (m.step s i).1) s is) (hs : P s) : P (m.run s is) := by
  induction is generalizing s with
  | nil => exact hs
  | cons i is ih => exact ih h.2 h.1

/-- `EachStep` speaks about every position of the input list. -/
theorem eachStep_iff {Q : σ → ι → Prop} {s : σ} {is : List ι} :
    m.EachStep Q s is ↔ ∀ pre i post, is = pre ++ i :: post → Q (m.run s pre) i := by
  constructor
  · rintro h pre i post rfl
    exact ((m.eachStep_append Q s pre (i :: post)).mp h).2.1
  · intro h
    induction is generalizing s with
    | nil => trivial
    | cons i is ih =>
        refine ⟨h [] i is rfl, ih fun pre j post he => ?_⟩
        exact h (i :: pre) j post (by rw [he, List.cons_append])

/-- **The run rule.** What the guarded steps preserve holds after the run. -/
theorem invariant_run {P : σ → Prop} {ok : σ → ι → Prop}
    (hstep : ∀ s i, P s → ok s i → P (m.step s i).1) {s : σ} {is : List ι}
    (hs : P s) (hok : m.EachStep ok s is) : P (m.run s is) := by
  induction is generalizing s with
  | nil => exact hs
  | cons i is ih => exact ih (hstep s i hs hok.1) hok.2

/-- What every step preserves holds after each run. -/
theorem always_run {P : σ → Prop} (hstep : ∀ s i, P s → P (m.step s i).1) {s : σ} {is : List ι}
    (hs : P s) : P (m.run s is) := by
  induction is generalizing s with
  | nil => exact hs
  | cons i is ih => exact ih (hstep s i hs)

/-- The run rule, read at each step: `Q` follows from the invariant there. -/
theorem eachStep_of_invariant {P : σ → Prop} {ok Q : σ → ι → Prop}
    (hstep : ∀ s i, P s → ok s i → P (m.step s i).1)
    (hQ : ∀ s i, P s → ok s i → Q s i) {s : σ} {is : List ι}
    (hs : P s) (hok : m.EachStep ok s is) : m.EachStep Q s is := by
  induction is generalizing s with
  | nil => trivial
  | cons i is ih => exact ⟨hQ s i hs hok.1, ih (hstep s i hs hok.1) hok.2⟩

/-- **Exactly the guarded runs.** `P` is preserved by guarded inputs and implies
the goal, an input that is not guarded breaks it for good: then the goal holds
after a run exactly when every input was guarded. -/
theorem goal_run_iff {P Broken Goal : σ → Prop} {R : ι → Prop} {ok : σ → ι → Prop}
    (hkeep : ∀ s i, P s → R i → ok s i → P (m.step s i).1)
    (hbreak : ∀ s i, P s → R i → ¬ ok s i → Broken (m.step s i).1)
    (hbroken : ∀ s i, Broken s → R i → Broken (m.step s i).1)
    (hgoal : ∀ s, P s → Goal s) (hfail : ∀ s, Broken s → ¬ Goal s) {s : σ} {is : List ι}
    (hs : P s) (hR : ∀ i ∈ is, R i) : Goal (m.run s is) ↔ m.EachStep ok s is := by
  have hstay : ∀ (js : List ι) (t : σ), Broken t → (∀ i ∈ js, R i) → ¬ Goal (m.run t js) := by
    intro js
    induction js with
    | nil => exact fun t ht _ => hfail t ht
    | cons j js ih =>
        intro t ht hjs
        obtain ⟨hj, hjs⟩ := List.forall_mem_cons.mp hjs
        exact ih _ (hbroken t j ht hj) hjs
  induction is generalizing s with
  | nil => exact iff_of_true (hgoal s hs) trivial
  | cons i is ih =>
      obtain ⟨hi, his⟩ := List.forall_mem_cons.mp hR
      by_cases hok : ok s i
      · exact (ih (hkeep s i hs hi hok) his).trans (and_iff_right hok).symm
      · exact iff_of_false (hstay is _ (hbreak s i hs hi hok) his) fun h => hok h.1

/-- **Exactly the careful runs.** Where a guarded step from `P` ends in `P` exactly if
it is careful, all states of a guarded run satisfy `P` exactly if every step is. -/
theorem reached_iff {I P : σ → Prop} {ok careful : σ → ι → Prop}
    (hkeep : ∀ s i, I s → ok s i → I (m.step s i).1)
    (hiff : ∀ s i, I s → P s → ok s i → (P (m.step s i).1 ↔ careful s i)) {s : σ} {is : List ι}
    (hI : I s) (hP : P s) (hok : m.EachStep ok s is) :
    (∀ pre post, is = pre ++ post → P (m.run s pre)) ↔ m.EachStep careful s is := by
  induction is generalizing s with
  | nil =>
      refine iff_of_true ?_ trivial
      intro pre post he
      obtain ⟨rfl, _⟩ := List.append_eq_nil_iff.mp he.symm
      exact hP
  | cons i is ih =>
      have hstep := hiff s i hI hP hok.1
      constructor
      · intro h
        have hnext : P (m.step s i).1 := h [i] is rfl
        refine ⟨hstep.mp hnext, (ih (hkeep s i hI hok.1) hnext hok.2).mp ?_⟩
        rintro pre post rfl
        exact h (i :: pre) post rfl
      · rintro ⟨hcareful, hrest⟩ pre post he
        cases pre with
        | nil => exact hP
        | cons j pre =>
            obtain ⟨rfl, htail⟩ := List.cons.inj he
            exact (ih (hkeep s i hI hok.1) (hstep.mpr hcareful) hok.2).mpr hrest pre post htail

/-- The careful runs, by an invariant that only they have. -/
theorem careful_reached_iff {Q P : σ → Prop} {careful : σ → ι → Prop} (hgoal : ∀ s, Q s → P s)
    (hkeep : ∀ s i, Q s → careful s i → Q (m.step s i).1)
    (hbreak : ∀ s i, Q s → ¬ careful s i → ¬ P (m.step s i).1) {s : σ} {is : List ι} (hs : Q s) :
    (∀ pre post, is = pre ++ post → P (m.run s pre)) ↔ m.EachStep careful s is := by
  induction is generalizing s with
  | nil =>
      refine iff_of_true ?_ trivial
      intro pre post he
      obtain ⟨rfl, _⟩ := List.append_eq_nil_iff.mp he.symm
      exact hgoal s hs
  | cons i is ih =>
      constructor
      · intro h
        have hcareful : careful s i := by
          by_contra hnot
          exact hbreak s i hs hnot (h [i] is rfl)
        refine ⟨hcareful, (ih (hkeep s i hs hcareful)).mp ?_⟩
        rintro pre post rfl
        exact h (i :: pre) post rfl
      · rintro ⟨hcareful, hrest⟩ pre post he
        cases pre with
        | nil => exact hgoal s hs
        | cons j pre =>
            obtain ⟨rfl, htail⟩ := List.cons.inj he
            exact (ih (hkeep s i hs hcareful)).mpr hrest pre post htail

/-- The careful runs, by an invariant that all runs have. -/
theorem always_reached_iff {I P : σ → Prop} {careful : σ → ι → Prop}
    (hkeep : ∀ s i, I s → I (m.step s i).1)
    (hiff : ∀ s i, I s → P s → (P (m.step s i).1 ↔ careful s i)) {s : σ} {is : List ι}
    (hI : I s) (hP : P s) :
    (∀ pre post, is = pre ++ post → P (m.run s pre)) ↔ m.EachStep careful s is :=
  careful_reached_iff (Q := fun s => I s ∧ P s) (fun _ h => h.2)
    (fun s i h hcareful => ⟨hkeep s i h.1, (hiff s i h.1 h.2).mpr hcareful⟩)
    (fun s i h hnot hnext => hnot ((hiff s i h.1 h.2).mp hnext)) ⟨hI, hP⟩

/-- What is the same for guarded inputs under an invariant is the same at each step of a
guarded run. -/
theorem eachStep_congr_of_guard {I : σ → Prop} {ok Q R : σ → ι → Prop}
    (hiff : ∀ s i, I s → ok s i → (Q s i ↔ R s i))
    (hkeep : ∀ s i, I s → ok s i → R s i → I (m.step s i).1) {s : σ} {is : List ι} (hs : I s)
    (hok : m.EachStep ok s is) : m.EachStep Q s is ↔ m.EachStep R s is := by
  induction is generalizing s with
  | nil => exact Iff.rfl
  | cons i is ih =>
      rw [eachStep_cons, eachStep_cons, hiff s i hs hok.1]
      exact and_congr_right fun hR => ih (hkeep s i hs hok.1 hR) hok.2

/-- What is the same under an invariant is the same at each step of a run. -/
theorem eachStep_congr {I : σ → Prop} {Q R : σ → ι → Prop}
    (hiff : ∀ s i, I s → (Q s i ↔ R s i)) (hkeep : ∀ s i, I s → R s i → I (m.step s i).1)
    {s : σ} {is : List ι} (hs : I s) : m.EachStep Q s is ↔ m.EachStep R s is :=
  eachStep_congr_of_guard (fun s i hI _ => hiff s i hI) (fun s i hI _ => hkeep s i hI) hs
    (EachStep.of_forall (fun _ _ => trivial) s)

/-- A machine instrumented with a history value the component does not store. -/
def withGhost (m : Machine σ ι ο) (upd : γ → σ → ι → γ) : Machine (σ × γ) ι ο where
  step s i := (((m.step s.1 i).1, upd s.2 s.1 i), (m.step s.1 i).2)

end Machine

/-! ## Key chains -/

variable {σ κ : Type*} (next : σ → σ × κ)

/-- The state `n` steps ahead. -/
def stateAt (s : σ) : Nat → σ
  | 0 => s
  | n + 1 => (next (stateAt s n)).1

/-- The key handed out in state `n`. -/
def keyAt (s : σ) (n : Nat) : κ := (next (stateAt next s n)).2

@[simp] theorem stateAt_zero (s : σ) : stateAt next s 0 = s := rfl

theorem stateAt_succ (s : σ) (n : Nat) : stateAt next s (n + 1) = (next (stateAt next s n)).1 := rfl

theorem stateAt_add (s : σ) (m n : Nat) :
    stateAt next s (m + n) = stateAt next (stateAt next s m) n := by
  induction n with
  | zero => rfl
  | succ n ih => rw [← Nat.add_assoc, stateAt_succ, stateAt_succ, ih]

theorem keyAt_add (s : σ) (m n : Nat) :
    keyAt next s (m + n) = keyAt next (stateAt next s m) n := by
  rw [keyAt, keyAt, stateAt_add]

end OnionNetwork.Lib
