import Mathlib.Logic.Relation
import Mathlib.Order.Basic

/-!
# Loops that run while something changes

The loop `while take(&mut updated) { .. }`: a body of several blocks, each of
which may change the state and then says so, repeated until a round in which
no block says so. A block can also leave the whole function early.

* `Outcome.andThen` — one block after another;
* `Outcome.Satisfies`, `Outcome.Lowers` — what a block preserves and a measure it
  lowers whenever it reports a change, both closed under `andThen`;
* `whileUpdated_satisfies` — the invariant rule;
* `whileUpdated_isSome` — a lowered measure bounds the rounds;
* `whileUpdated_quiet` — the loop ends in a round that changed nothing;
* `whileUpdated_spec` — all three, for a body that `Advances`;
* `Outcome.StepsBy`, `whileUpdated_steps`, `whileUpdated_returns` — a body that takes steps of
  a relation, and a loop as a sequence of them;
* `whileUpdated_endless` — a loop that changes something in every round;
* `Outcome.Follows`, `whileUpdated_follows` — a body that does what another one does.
-/

namespace OnionNetwork.Lib

/-- What a block does: leave the function, or go on with a new state and the
flag `updated`. -/
inductive Outcome (σ ε : Type*)
  | stop (s : σ) (e : ε)
  | next (s : σ) (updated : Bool)

namespace Outcome

variable {σ ε : Type*}

/-- One block after another. -/
def andThen (x : Outcome σ ε) (f : σ → Outcome σ ε) : Outcome σ ε :=
  match x with
  | .stop s e => .stop s e
  | .next s updated =>
      match f s with
      | .stop s e => .stop s e
      | .next s updated' => .next s (updated || updated')

/-- The state satisfies `P` if the function goes on, `E` if it is left. -/
def Satisfies (P : σ → Prop) (E : σ → ε → Prop) : Outcome σ ε → Prop
  | .stop s e => E s e
  | .next s _ => P s

/-- The measure does not grow, and it drops when a change is reported. -/
def Lowers (μ : σ → Nat) (bound : Nat) : Outcome σ ε → Prop
  | .stop _ _ => True
  | .next s updated => μ s ≤ bound ∧ (updated = true → μ s < bound)

theorem Satisfies.andThen {P Q : σ → Prop} {E : σ → ε → Prop} {x : Outcome σ ε}
    {f : σ → Outcome σ ε} (hx : x.Satisfies P E) (hf : ∀ s, P s → (f s).Satisfies Q E) :
    (x.andThen f).Satisfies Q E := by
  cases x with
  | stop s e => exact hx
  | next s updated =>
      have hs := hf s hx
      simp only [Outcome.andThen]
      cases h : f s with
      | stop s' e => rwa [h] at hs
      | next s' updated' => rwa [h] at hs

theorem Satisfies.mono {P Q : σ → Prop} {E F : σ → ε → Prop} {x : Outcome σ ε}
    (hx : x.Satisfies P E) (hP : ∀ s, P s → Q s) (hE : ∀ s e, E s e → F s e) :
    x.Satisfies Q F := by
  cases x with
  | stop s e => exact hE s e hx
  | next s updated => exact hP s hx

theorem Satisfies.and {P Q : σ → Prop} {E F : σ → ε → Prop} {x : Outcome σ ε}
    (hP : x.Satisfies P E) (hQ : x.Satisfies Q F) :
    x.Satisfies (fun s => P s ∧ Q s) (fun s e => E s e ∧ F s e) := by
  cases x with
  | stop s e => exact ⟨hP, hQ⟩
  | next s updated => exact ⟨hP, hQ⟩

theorem Lowers.andThen {μ : σ → Nat} {bound : Nat} {P : σ → Prop} {E : σ → ε → Prop}
    {x : Outcome σ ε} {f : σ → Outcome σ ε} (hx : x.Lowers μ bound) (hP : x.Satisfies P E)
    (hf : ∀ s, P s → (f s).Lowers μ (μ s)) : (x.andThen f).Lowers μ bound := by
  cases x with
  | stop s e => exact hx
  | next s updated =>
      have hs := hf s hP
      obtain ⟨hle, hlt⟩ : μ s ≤ bound ∧ (updated = true → μ s < bound) := hx
      simp only [Outcome.andThen]
      cases h : f s with
      | stop s' e => trivial
      | next s' updated' =>
          rw [h] at hs
          obtain ⟨hle', hlt'⟩ : μ s' ≤ μ s ∧ (updated' = true → μ s' < μ s) := hs
          refine ⟨Nat.le_trans hle' hle, fun hor => ?_⟩
          rcases Bool.or_eq_true _ _ |>.mp hor with hu | hu
          · exact Nat.lt_of_le_of_lt hle' (hlt hu)
          · exact Nat.lt_of_lt_of_le (hlt' hu) hle

/-- Both: the invariant is kept and the measure lowered by every change. -/
def Advances (P : σ → Prop) (E : σ → ε → Prop) (μ : σ → Nat) (bound : Nat) (x : Outcome σ ε) :
    Prop :=
  x.Satisfies P E ∧ x.Lowers μ bound

theorem Advances.andThen {P Q : σ → Prop} {E : σ → ε → Prop} {μ : σ → Nat} {bound : Nat}
    {x : Outcome σ ε} {f : σ → Outcome σ ε} (hx : x.Advances P E μ bound)
    (hf : ∀ s, P s → (f s).Advances Q E μ (μ s)) : (x.andThen f).Advances Q E μ bound :=
  ⟨hx.1.andThen fun s hs => (hf s hs).1, hx.2.andThen hx.1 fun s hs => (hf s hs).2⟩

/-- A block that has nothing to do. -/
theorem Advances.idle {P : σ → Prop} {E : σ → ε → Prop} {μ : σ → Nat} {s : σ} {bound : Nat}
    (hs : P s) (hμ : μ s ≤ bound) : (Outcome.next s false : Outcome σ ε).Advances P E μ bound := by
  refine ⟨hs, hμ, ?_⟩
  intro h
  cases h

/-- A block that did something. -/
theorem Advances.change {P : σ → Prop} {E : σ → ε → Prop} {μ : σ → Nat} {s : σ} {bound : Nat}
    (hs : P s) (hμ : μ s < bound) : (Outcome.next s true : Outcome σ ε).Advances P E μ bound :=
  ⟨hs, Nat.le_of_lt hμ, fun _ => hμ⟩

/-- A pair of blocks changes nothing when neither does. -/
theorem andThen_quiet {x : Outcome σ ε} {f : σ → Outcome σ ε} {s : σ}
    (h : x.andThen f = .next s false) : ∃ t, x = .next t false ∧ f t = .next s false := by
  cases x with
  | stop t e => cases h
  | next t updated =>
      simp only [Outcome.andThen] at h
      cases hft : f t with
      | stop s' e =>
          rw [hft] at h
          cases h
      | next s' updated' =>
          rw [hft] at h
          obtain ⟨rfl, hor⟩ := Outcome.next.inj h
          obtain ⟨rfl, rfl⟩ := Bool.or_eq_false_iff.mp hor
          exact ⟨t, rfl, hft⟩

end Outcome

section Loop

variable {σ ε : Type*} (body : σ → Outcome σ ε)

/-- Repeat the body until a round without a change; `none` when the fuel runs
out, else the last state and how the function was left, if it was. -/
def whileUpdated : Nat → σ → Option (σ × Option ε)
  | 0, _ => none
  | fuel + 1, s =>
      match body s with
      | .stop s e => some (s, some e)
      | .next s true => whileUpdated fuel s
      | .next s false => some (s, none)

variable {body}

/-- **The invariant rule.** -/
theorem whileUpdated_satisfies {P : σ → Prop} {E : σ → ε → Prop}
    (hbody : ∀ s, P s → (body s).Satisfies P E) {fuel : Nat} {s s' : σ} {r : Option ε}
    (hs : P s) (h : whileUpdated body fuel s = some (s', r)) :
    (r = none → P s') ∧ ∀ e, r = some e → E s' e := by
  induction fuel generalizing s with
  | zero => cases h
  | succ fuel ih =>
      have hsat := hbody s hs
      rw [whileUpdated] at h
      split at h
      · rename_i t e hbs
        rw [hbs] at hsat
        obtain ⟨rfl, rfl⟩ := Prod.mk.inj (Option.some.inj h)
        refine ⟨(fun hr => by cases hr), ?_⟩
        intro e' he
        obtain rfl := Option.some.inj he
        exact hsat
      · rename_i t hbs
        rw [hbs] at hsat
        exact ih hsat h
      · rename_i t hbs
        rw [hbs] at hsat
        obtain ⟨rfl, rfl⟩ := Prod.mk.inj (Option.some.inj h)
        exact ⟨fun _ => hsat, fun e he => by cases he⟩

/-- **Termination.** A measure that every reported change lowers bounds the
rounds. -/
theorem whileUpdated_isSome {P : σ → Prop} {E : σ → ε → Prop} {μ : σ → Nat}
    (hbody : ∀ s, P s → (body s).Satisfies P E) (hμ : ∀ s, P s → (body s).Lowers μ (μ s))
    {fuel : Nat} {s : σ} (hs : P s) (hfuel : μ s < fuel) :
    (whileUpdated body fuel s).isSome = true := by
  induction fuel generalizing s with
  | zero => exact absurd hfuel (Nat.not_lt_zero _)
  | succ fuel ih =>
      have hsat := hbody s hs
      have hlow := hμ s hs
      rw [whileUpdated]
      cases hbs : body s with
      | stop t e => rfl
      | next t updated =>
          rw [hbs] at hsat hlow
          obtain ⟨-, hlt⟩ : μ t ≤ μ s ∧ (updated = true → μ t < μ s) := hlow
          cases updated with
          | true => exact ih hsat (Nat.lt_of_lt_of_le (hlt rfl) (Nat.le_of_lt_succ hfuel))
          | false => rfl

/-- **The last round** started in a state of the invariant and changed nothing. -/
theorem whileUpdated_quiet {P : σ → Prop} {E : σ → ε → Prop}
    (hbody : ∀ s, P s → (body s).Satisfies P E) {fuel : Nat} {s s' : σ} (hs : P s)
    (h : whileUpdated body fuel s = some (s', none)) : ∃ t, P t ∧ body t = .next s' false := by
  induction fuel generalizing s with
  | zero => cases h
  | succ fuel ih =>
      have hsat := hbody s hs
      rw [whileUpdated] at h
      split at h
      · cases h
      · rename_i t hbs
        rw [hbs] at hsat
        exact ih hsat h
      · rename_i t hbs
        obtain ⟨rfl, -⟩ := Prod.mk.inj (Option.some.inj h)
        exact ⟨s, hs, hbs⟩

/-- **Total correctness.** The loop ends in a round that changed nothing, or by
leaving the function. -/
theorem whileUpdated_spec {P : σ → Prop} {E : σ → ε → Prop} {μ : σ → Nat}
    (hbody : ∀ s, P s → (body s).Advances P E μ (μ s)) {fuel : Nat} {s : σ} (hs : P s)
    (hfuel : μ s < fuel) :
    (∃ t s', whileUpdated body fuel s = some (s', none) ∧ P s' ∧ P t ∧ body t = .next s' false) ∨
      ∃ s' e, whileUpdated body fuel s = some (s', some e) ∧ E s' e := by
  have hsat : ∀ s, P s → (body s).Satisfies P E := fun s hs => (hbody s hs).1
  have hsome := whileUpdated_isSome hsat (fun s hs => (hbody s hs).2) hs hfuel
  obtain ⟨⟨s', r⟩, hrun⟩ := Option.isSome_iff_exists.mp hsome
  obtain ⟨hnone, herr⟩ := whileUpdated_satisfies hsat hs hrun
  cases r with
  | none =>
      obtain ⟨t, ht, hquiet⟩ := whileUpdated_quiet hsat hs hrun
      exact .inl ⟨t, s', hrun, hnone rfl, ht, hquiet⟩
  | some e => exact .inr ⟨s', e, hrun, herr e rfl⟩

/-- **An endless loop**: every round changes something. -/
theorem whileUpdated_endless {P : σ → Prop}
    (hbody : ∀ s, P s → ∃ s', body s = .next s' true ∧ P s') (fuel : Nat) {s : σ} (hs : P s) :
    whileUpdated body fuel s = none := by
  induction fuel generalizing s with
  | zero => rfl
  | succ fuel ih =>
      obtain ⟨s', hbs, hs'⟩ := hbody s hs
      rw [whileUpdated, hbs]
      exact ih hs'

end Loop

/-! ### Loops as sequences of steps -/

section Steps

open Relation

variable {σ ε : Type*} {R : σ → σ → Prop}

/-- Nothing was done, or some steps were. -/
def Outcome.StepsBy (R : σ → σ → Prop) (s : σ) (x : Outcome σ ε) : Prop :=
  x = .next s false ∨ ∃ s', x = .next s' true ∧ TransGen R s s'

namespace Outcome.StepsBy

variable {s s' : σ} {x : Outcome σ ε}

theorem idle : (Outcome.next s false : Outcome σ ε).StepsBy R s := .inl rfl

theorem single (h : R s s') : (Outcome.next s' true : Outcome σ ε).StepsBy R s :=
  .inr ⟨s', rfl, .single h⟩

theorem andThen {f : σ → Outcome σ ε} (hx : x.StepsBy R s)
    (hf : ∀ t, ReflTransGen R s t → (f t).StepsBy R t) : (x.andThen f).StepsBy R s := by
  rcases hx with rfl | ⟨t, rfl, hst⟩
  · rcases hf s .refl with hfs | ⟨u, hfs, hsu⟩
    · left
      rw [Outcome.andThen, hfs]
      rfl
    · right
      refine ⟨u, ?_, hsu⟩
      rw [Outcome.andThen, hfs]
      rfl
  · right
    rcases hf t hst.to_reflTransGen with hft | ⟨u, hft, htu⟩
    · refine ⟨t, ?_, hst⟩
      rw [Outcome.andThen, hft]
      rfl
    · refine ⟨u, ?_, hst.trans htu⟩
      rw [Outcome.andThen, hft]
      rfl

/-- A round without a change left the state as it was. -/
theorem eq_of_quiet (hx : x.StepsBy R s) (h : x = .next s' false) : s' = s := by
  rcases hx with hidle | ⟨t, hchange, -⟩
  · rw [hidle] at h
    exact (Outcome.next.inj h).1.symm
  · rw [hchange] at h
    cases (Outcome.next.inj h).2

end Outcome.StepsBy

variable {body : σ → Outcome σ ε} {P : σ → Prop} {μ : σ → Nat} {s s' : σ} {fuel : Nat}
  {r : Option ε}

theorem reflTransGen_preserves (hR : ∀ s t, P s → R s t → P t) (hs : P s)
    (h : ReflTransGen R s s') : P s' := by
  induction h with
  | refl => exact hs
  | tail _ hstep ih => exact hR _ _ ih hstep

theorem transGen_lowers (hR : ∀ s t, P s → R s t → P t) (hμ : ∀ s t, P s → R s t → μ t < μ s)
    (hs : P s) (h : TransGen R s s') : μ s' < μ s := by
  induction h with
  | single hstep => exact hμ _ _ hs hstep
  | tail hsteps hstep ih =>
      have hmid := reflTransGen_preserves hR hs hsteps.to_reflTransGen
      exact Nat.lt_trans (hμ _ _ hmid hstep) ih

/-- Where the loop returns, it does so by itself, behind a sequence of steps, in a state that a
round does not change. -/
theorem whileUpdated_steps (hR : ∀ s t, P s → R s t → P t)
    (hbody : ∀ s, P s → (body s).StepsBy R s) (hs : P s)
    (h : whileUpdated body fuel s = some (s', r)) :
    r = none ∧ ReflTransGen R s s' ∧ body s' = .next s' false := by
  induction fuel generalizing s with
  | zero => cases h
  | succ fuel ih =>
      rw [whileUpdated] at h
      rcases hbody s hs with hidle | ⟨t, hchange, hst⟩
      · rw [hidle] at h
        obtain ⟨rfl, rfl⟩ := Prod.mk.inj (Option.some.inj h)
        exact ⟨rfl, .refl, hidle⟩
      · rw [hchange] at h
        have hsteps := hst.to_reflTransGen
        obtain ⟨hr, htail, hquiet⟩ := ih (reflTransGen_preserves hR hs hsteps) h
        exact ⟨hr, hsteps.trans htail, hquiet⟩

/-- A measure that every step lowers bounds the rounds. -/
theorem whileUpdated_returns (hR : ∀ s t, P s → R s t → P t)
    (hμ : ∀ s t, P s → R s t → μ t < μ s) (hbody : ∀ s, P s → (body s).StepsBy R s) (hs : P s)
    (hfuel : μ s < fuel) : ∃ s', whileUpdated body fuel s = some (s', none) := by
  induction fuel generalizing s with
  | zero => exact absurd hfuel (Nat.not_lt_zero _)
  | succ fuel ih =>
      rw [whileUpdated]
      rcases hbody s hs with hidle | ⟨t, hchange, hst⟩
      · rw [hidle]
        exact ⟨s, rfl⟩
      · rw [hchange]
        have hlt := transGen_lowers hR hμ hs hst
        exact ih (reflTransGen_preserves hR hs hst.to_reflTransGen) (by omega)

end Steps

/-! ### Two loops -/

section Follows

variable {σ τ ε δ : Type*}

/-- Where `x` goes on, so does `y`, with the same flag and a related state. -/
def Outcome.Follows (R : σ → τ → Prop) (x : Outcome σ ε) (y : Outcome τ δ) : Prop :=
  ∀ s updated, x = .next s updated → ∃ t, y = .next t updated ∧ R s t

theorem Outcome.Follows.andThen {R Q : σ → τ → Prop} {x : Outcome σ ε} {y : Outcome τ δ}
    {f : σ → Outcome σ ε} {g : τ → Outcome τ δ} (hx : x.Follows R y)
    (hf : ∀ s t, R s t → (f s).Follows Q (g t)) : (x.andThen f).Follows Q (y.andThen g) := by
  intro s' updated h
  cases x with
  | stop s e => cases h
  | next s first =>
      obtain ⟨t, rfl, hst⟩ := hx s first rfl
      simp only [Outcome.andThen] at h ⊢
      cases hfs : f s with
      | stop u e =>
          rw [hfs] at h
          cases h
      | next u second =>
          rw [hfs] at h
          obtain ⟨rfl, rfl⟩ := Outcome.next.inj h
          obtain ⟨v, hgt, huv⟩ := hf s t hst u second hfs
          rw [hgt]
          exact ⟨v, rfl, huv⟩

variable {body : σ → Outcome σ ε} {body' : τ → Outcome τ δ}

/-- A loop that returns is followed round by round; `R` may depend on the rounds to go. -/
theorem whileUpdated_follows {R : Nat → σ → τ → Prop}
    (hbody : ∀ k s t, R (k + 1) s t → (body s).Follows (R k) (body' t)) {fuel : Nat} {s s' : σ}
    {t : τ} (hst : R fuel s t) (h : whileUpdated body fuel s = some (s', none)) :
    ∃ t' k, whileUpdated body' fuel t = some (t', none) ∧ R k s' t' := by
  induction fuel generalizing s t with
  | zero => cases h
  | succ fuel ih =>
      rw [whileUpdated] at h
      cases hbs : body s with
      | stop u e =>
          rw [hbs] at h
          cases h
      | next u updated =>
          rw [hbs] at h
          obtain ⟨v, hbt, huv⟩ := hbody fuel s t hst u updated hbs
          rw [whileUpdated, hbt]
          cases updated with
          | true => exact ih huv h
          | false =>
              obtain ⟨rfl, -⟩ := Prod.mk.inj (Option.some.inj h)
              exact ⟨v, fuel, rfl, huv⟩

/-- How long a loop is given does not matter to what it returns. -/
theorem whileUpdated_unique {m n : Nat} {s : σ} {r r' : σ × Option ε}
    (hm : whileUpdated body m s = some r) (hn : whileUpdated body n s = some r') : r = r' := by
  induction m generalizing n s with
  | zero => cases hm
  | succ m ih =>
      cases n with
      | zero => cases hn
      | succ n =>
          rw [whileUpdated] at hm hn
          split at hm
          · rename_i t e hbs
            rw [hbs] at hn
            exact Option.some.inj (hm.symm.trans hn)
          · rename_i t hbs
            rw [hbs] at hn
            exact ih hm hn
          · rename_i t hbs
            rw [hbs] at hn
            exact Option.some.inj (hm.symm.trans hn)

end Follows

end OnionNetwork.Lib
