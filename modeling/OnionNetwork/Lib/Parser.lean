import Mathlib.Data.List.Basic

/-!
# Parsers that keep a log

A parser takes a value off the front of its input. It accepts, rejects, or ends in
a fault, where the program would not return; and it keeps a log of what it did on
the way. Some events of the log lead to a fault and some say that a bound was kept:
`Honest` says that the run ends in a fault exactly when such an event happened, and
it is kept by all ways to put parsers together.
-/

namespace OnionNetwork.Lib

/-- Why there is no value. -/
inductive Stop (φ : Type*)
  | reject
  | fault (f : φ)
  deriving DecidableEq

/-- The events of a run, and its value with the input that is left. -/
structure Run (β ε φ α : Type*) where
  log : List ε
  result : Except (Stop φ) (α × List β)

/-- A parser of values of type `α`. -/
abbrev Parser (β ε φ α : Type*) := List β → Run β ε φ α

namespace Parser

variable {β ε φ α γ : Type*}

/-- Accept without reading. -/
def accept (a : α) : Parser β ε φ α := fun input => ⟨[], .ok (a, input)⟩

/-- Reject the input. -/
def reject : Parser β ε φ α := fun _ => ⟨[], .error .reject⟩

/-- Note an event, and end in a fault if it is one that leads there. -/
def noteOr (e : List β → ε) (bad : Bool) (f : φ) : Parser β ε φ Unit := fun input =>
  ⟨[e input], if bad then .error (.fault f) else .ok ((), input)⟩

/-- One parser after the other. -/
def andThen (p : Parser β ε φ α) (f : α → Parser β ε φ γ) : Parser β ε φ γ := fun input =>
  match (p input).result with
  | .ok (a, rest) => ⟨(p input).log ++ (f a rest).log, (f a rest).result⟩
  | .error stop => ⟨(p input).log, .error stop⟩

/-- Change the value. -/
def map (f : α → γ) (p : Parser β ε φ α) : Parser β ε φ γ := p.andThen fun a => accept (f a)

variable {p : Parser β ε φ α} {f : α → Parser β ε φ γ} {input rest : List β} {a : α}

@[simp] theorem result_accept : (accept a : Parser β ε φ α) input = ⟨[], .ok (a, input)⟩ := rfl

@[simp] theorem result_reject :
    ((reject : Parser β ε φ α) input).result = .error .reject := rfl

theorem result_noteOr {e : List β → ε} {f : φ} :
    (noteOr e false f input).result = .ok ((), input) := rfl

theorem result_andThen_ok (h : (p input).result = .ok (a, rest)) :
    (p.andThen f input).result = (f a rest).result := by
  unfold andThen
  rw [h]

theorem result_andThen_error {stop : Stop φ} (h : (p input).result = .error stop) :
    (p.andThen f input).result = .error stop := by
  unfold andThen
  rw [h]

theorem result_map_ok {g : α → γ} (h : (p input).result = .ok (a, rest)) :
    (p.map g input).result = .ok (g a, rest) := result_andThen_ok h

theorem result_map_error {g : α → γ} {stop : Stop φ} (h : (p input).result = .error stop) :
    (p.map g input).result = .error stop := result_andThen_error h

/-! ### Honest runs -/

section Honest

variable (Bad Kept : ε → Prop)

/-- The run ends in a fault exactly when its log has a bad event, and every event
keeps its bound. -/
structure Honest (r : Run β ε φ α) : Prop where
  fault_iff : (∃ f, r.result = .error (.fault f)) ↔ ∃ e ∈ r.log, Bad e
  kept : ∀ e ∈ r.log, Kept e

variable {Bad Kept}

theorem honest_accept : Honest Bad Kept ((accept a : Parser β ε φ α) input) where
  fault_iff := by simp [accept]
  kept := by simp [accept]

theorem honest_reject : Honest Bad Kept ((reject : Parser β ε φ α) input) where
  fault_iff := by simp [reject]
  kept := by simp [reject]

theorem honest_noteOr {e : List β → ε} {bad : Bool} {f : φ} (hbad : bad = true ↔ Bad (e input))
    (hkept : Kept (e input)) : Honest Bad Kept (noteOr e bad f input) where
  fault_iff := by
    cases bad with
    | true => simpa [noteOr] using hbad
    | false => simpa [noteOr] using hbad
  kept := by
    intro e' he'
    rw [List.mem_singleton.mp he']
    exact hkept

theorem Honest.andThen (hp : Honest Bad Kept (p input))
    (hf : ∀ a rest, (p input).result = .ok (a, rest) → Honest Bad Kept (f a rest)) :
    Honest Bad Kept (p.andThen f input) := by
  cases h : (p input).result with
  | error stop =>
      have hrun : p.andThen f input = ⟨(p input).log, .error stop⟩ := by
        unfold Parser.andThen
        rw [h]
      rw [hrun]
      refine ⟨?_, hp.kept⟩
      rw [← hp.fault_iff, h]
      simp
  | ok r =>
      obtain ⟨a, rest⟩ := r
      have hrun : p.andThen f input = ⟨(p input).log ++ (f a rest).log, (f a rest).result⟩ := by
        unfold Parser.andThen
        rw [h]
      have hclean : ¬ ∃ e ∈ (p input).log, Bad e := by
        rw [← hp.fault_iff, h]
        simp
      have hrest := hf a rest h
      rw [hrun]
      constructor
      · show (∃ φ', (f a rest).result = _) ↔ _
        rw [hrest.fault_iff]
        constructor
        · rintro ⟨e, he, hbad⟩
          exact ⟨e, List.mem_append_right _ he, hbad⟩
        · rintro ⟨e, he, hbad⟩
          rcases List.mem_append.mp he with he | he
          · exact absurd ⟨e, he, hbad⟩ hclean
          · exact ⟨e, he, hbad⟩
      · intro e he
        rcases List.mem_append.mp he with he | he
        · exact hp.kept e he
        · exact hrest.kept e he

theorem Honest.map {g : α → γ} (hp : Honest Bad Kept (p input)) :
    Honest Bad Kept (p.map g input) := hp.andThen fun _ _ _ => honest_accept

end Honest

/-! ### Clean logs -/

section Clean

/-- The log has no bad event. -/
def Clean (Bad : ε → Prop) (r : Run β ε φ α) : Prop := ∀ e ∈ r.log, ¬ Bad e

variable {Bad Kept : ε → Prop}

theorem clean_accept : Clean Bad ((accept a : Parser β ε φ α) input) :=
  fun _ he => absurd he List.not_mem_nil

theorem clean_reject : Clean Bad ((reject : Parser β ε φ α) input) :=
  fun _ he => absurd he List.not_mem_nil

theorem clean_noteOr_iff {e : List β → ε} {bad : Bool} {f : φ} :
    Clean Bad (noteOr e bad f input) ↔ ¬ Bad (e input) := by
  simp [Clean, noteOr]

/-- Both parsers are clean, the second one where the first one leads to. -/
theorem clean_andThen_iff : Clean Bad (p.andThen f input) ↔
    Clean Bad (p input) ∧
      ∀ a rest, (p input).result = .ok (a, rest) → Clean Bad (f a rest) := by
  unfold Clean Parser.andThen
  cases h : (p input).result with
  | error stop => simp
  | ok r =>
      obtain ⟨a, rest⟩ := r
      simp only [List.mem_append, Except.ok.injEq, Prod.mk.injEq, and_imp]
      constructor
      · refine fun hclean => ⟨fun e he => hclean e (.inl he), ?_⟩
        rintro _ _ rfl rfl e he
        exact hclean e (.inr he)
      · rintro ⟨hfirst, hsecond⟩ e (he | he)
        · exact hfirst e he
        · exact hsecond a rest rfl rfl e he

theorem clean_map_iff {g : α → γ} : Clean Bad (p.map g input) ↔ Clean Bad (p input) := by
  unfold Parser.map
  rw [clean_andThen_iff]
  exact ⟨And.left, fun h => ⟨h, fun _ _ _ => clean_accept⟩⟩

/-- An honest run without a fault is clean. -/
theorem Honest.clean_iff {r : Run β ε φ α} (h : Honest Bad Kept r) :
    Clean Bad r ↔ ∀ f, r.result ≠ .error (.fault f) := by
  have hfault := h.fault_iff
  constructor
  · intro hclean f hf
    obtain ⟨e, he, hbad⟩ := hfault.mp ⟨f, hf⟩
    exact hclean e he hbad
  · intro hno e he hbad
    obtain ⟨f, hf⟩ := hfault.mpr ⟨e, he, hbad⟩
    exact hno f hf

end Clean

end Parser

end OnionNetwork.Lib
