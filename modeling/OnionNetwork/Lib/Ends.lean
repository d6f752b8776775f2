import Mathlib.Data.Option.Basic

/-!
# How a call ends

A call panics, answers or returns an error. `Ends x P Q` says that an answer of `x` satisfies
`P` and an error `Q`; of a panic it says nothing. The rules follow the program.
-/

namespace OnionNetwork.Lib

variable {ε ε' α β σ : Type}

/-- An answer satisfies `P`, an error `Q`. -/
def Ends (x : ExceptT ε Option α) (P : α → Prop) (Q : ε → Prop) : Prop :=
  ∀ r, x.run = some r → match r with
    | .ok a => P a
    | .error e => Q e

namespace Ends

variable {x : ExceptT ε Option α} {P P' : α → Prop} {Q Q' : ε → Prop} {R : β → Prop}

theorem pure {a : α} (h : P a) : Ends (Pure.pure a : ExceptT ε Option α) P Q := by
  intro r hr
  obtain rfl : Except.ok a = r := Option.some.inj hr
  exact h

theorem throw {e : ε} (h : Q e) : Ends (MonadExcept.throw e : ExceptT ε Option α) P Q := by
  intro r hr
  obtain rfl : Except.error e = r := Option.some.inj hr
  exact h

/-- A part that only panics or answers. -/
theorem lift {o : Option α} (h : ∀ a, o = some a → P a) :
    Ends (ExceptT.lift o : ExceptT ε Option α) P Q := by
  intro r hr
  have hlift : (ExceptT.lift o : ExceptT ε Option α).run = o.map Except.ok := rfl
  rw [hlift] at hr
  obtain ⟨a, ha, rfl⟩ := Option.map_eq_some_iff.mp hr
  exact h a ha

theorem bind {g : α → ExceptT ε Option β} (hx : Ends x P Q) (hg : ∀ a, P a → Ends (g a) R Q) :
    Ends (x >>= g) R Q := by
  intro r hr
  rw [ExceptT.run_bind] at hr
  obtain ⟨s, hs, hr⟩ := Option.bind_eq_some_iff.mp hr
  have hend := hx s hs
  cases s with
  | ok a => exact hg a hend r hr
  | error e =>
      obtain rfl : Except.error e = r := Option.some.inj hr
      exact hend

/-- `map_err`. -/
theorem adapt {g : ε → ε'} {Q' : ε' → Prop} (hx : Ends x P Q) (h : ∀ e, Q e → Q' (g e)) :
    Ends (ExceptT.adapt g x) P Q' := by
  intro r hr
  have hadapt : (ExceptT.adapt g x).run = x.run.map (Except.mapError g) := rfl
  rw [hadapt] at hr
  obtain ⟨s, hs, rfl⟩ := Option.map_eq_some_iff.mp hr
  have hend := hx s hs
  cases s with
  | ok a => exact hend
  | error e => exact h e hend

theorem mono (hx : Ends x P Q) (hP : ∀ a, P a → P' a) (hQ : ∀ e, Q e → Q' e) : Ends x P' Q' := by
  intro r hr
  have hend := hx r hr
  cases r with
  | ok a => exact hP a hend
  | error e => exact hQ e hend

/-- **The loop rule**: what each round keeps holds at the end. -/
theorem foldlM {f : σ → β → ExceptT ε Option σ} {I : σ → Prop} {l : List β}
    (hstep : ∀ s, I s → ∀ b ∈ l, Ends (f s b) I Q) {s : σ} (hs : I s) :
    Ends (l.foldlM f s) I Q := by
  induction l generalizing s with
  | nil => exact Ends.pure hs
  | cons b l ih =>
      rw [List.foldlM_cons]
      refine Ends.bind (hstep s hs b List.mem_cons_self) fun s' hs' => ?_
      exact ih (fun t ht c hc => hstep t ht c (List.mem_cons_of_mem _ hc)) hs'

end Ends

end OnionNetwork.Lib
