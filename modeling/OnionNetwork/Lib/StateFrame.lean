import Mathlib.Logic.Basic

/-!
# Programs that may fail, and what they leave alone

A program over a state answers or throws, and the state it has come to stays in both cases. A
frame is an invariant of the states together with a relation between a state and a later one.
A program is in the frame, given what it needs, when it keeps the invariant and relates the
states, whether it throws or not (`StateFrame.Triple`). The rules follow the program.
-/

namespace OnionNetwork.Lib

/-- A program that may throw. What it did before that stays. -/
abbrev Prog (ε σ α : Type) := ExceptT ε (StateM σ) α

/-- The answer and the state. -/
def Prog.exec {ε σ α : Type} (m : Prog ε σ α) (s : σ) : Except ε α × σ :=
  StateT.run (ExceptT.run m) s

/-- An invariant, and what relates a state to a later one. -/
structure StateFrame (σ : Type) where
  Inv : σ → Prop
  Rel : σ → σ → Prop
  refl : ∀ s, Rel s s
  trans : ∀ s s' s'', Rel s s' → Rel s' s'' → Rel s s''

namespace Prog

variable {ε σ α β : Type}

theorem exec_bind (m : Prog ε σ α) (f : α → Prog ε σ β) (s : σ) :
    exec (m >>= f) s = match exec m s with
      | (.ok a, s') => exec (f a) s'
      | (.error e, s') => (.error e, s') := by
  show StateT.run (ExceptT.run m >>= ExceptT.bindCont f) s = _
  rw [StateT.run_bind]
  show (match StateT.run (ExceptT.run m) s with
    | (r, s') => StateT.run (ExceptT.bindCont f r) s') = _
  unfold exec
  rcases StateT.run (ExceptT.run m) s with ⟨_ | a, s'⟩
  · rfl
  · rfl

@[simp] theorem exec_pure (a : α) (s : σ) : exec (pure a : Prog ε σ α) s = (.ok a, s) := rfl

@[simp] theorem exec_throw (e : ε) (s : σ) : exec (throw e : Prog ε σ α) s = (.error e, s) := rfl

@[simp] theorem exec_get (s : σ) : exec (get : Prog ε σ σ) s = (.ok s, s) := rfl

@[simp] theorem exec_modify (f : σ → σ) (s : σ) :
    exec (modify f : Prog ε σ Unit) s = (.ok (), f s) := rfl

end Prog

namespace StateFrame

variable {ε σ α β : Type} {F : StateFrame σ} {P : σ → Prop} {Q : α → σ → Prop} {R : β → σ → Prop}

/-- From a state with the invariant and `P`, the program stays in the frame, and what it answers
satisfies `Q`. -/
def Triple (F : StateFrame σ) (P : σ → Prop) (m : Prog ε σ α) (Q : α → σ → Prop) : Prop :=
  ∀ s, F.Inv s → P s → F.Inv (m.exec s).2 ∧ F.Rel s (m.exec s).2 ∧
    ∀ a, (m.exec s).1 = .ok a → Q a (m.exec s).2

theorem Triple.pure {a : α} (h : ∀ s, F.Inv s → P s → Q a s) :
    F.Triple P (pure a : Prog ε σ α) Q := by
  intro s hinv hs
  rw [Prog.exec_pure]
  refine ⟨hinv, F.refl s, ?_⟩
  intro b hb
  obtain rfl : a = b := Except.ok.inj hb
  exact h s hinv hs

theorem Triple.throw (e : ε) : F.Triple P (throw e : Prog ε σ α) Q := by
  intro s hinv _
  rw [Prog.exec_throw]
  exact ⟨hinv, F.refl s, fun _ h => nomatch h⟩

/-- The state that is read is the one there is. -/
theorem Triple.get_bind {f : σ → Prog ε σ β}
    (h : ∀ s, F.Triple (fun s' => s' = s ∧ P s') (f s) R) :
    F.Triple P (get >>= f) R := by
  intro s hinv hs
  rw [Prog.exec_bind, Prog.exec_get]
  exact h s s hinv ⟨rfl, hs⟩

theorem Triple.modify {Q : Unit → σ → Prop} {f : σ → σ} (hinv : ∀ s, F.Inv s → P s → F.Inv (f s))
    (hrel : ∀ s, F.Inv s → P s → F.Rel s (f s)) (h : ∀ s, F.Inv s → P s → Q () (f s)) :
    F.Triple P (modify f : Prog ε σ Unit) Q := by
  intro s hs hP
  rw [Prog.exec_modify]
  exact ⟨hinv s hs hP, hrel s hs hP, fun _ _ => h s hs hP⟩

/-- One program after the other. -/
theorem Triple.bind {m : Prog ε σ α} {f : α → Prog ε σ β} (hm : F.Triple P m Q)
    (hf : ∀ a, F.Triple (Q a) (f a) R) : F.Triple P (m >>= f) R := by
  intro s hinv hs
  obtain ⟨hinv', hrel, hq⟩ := hm s hinv hs
  rw [Prog.exec_bind]
  rcases hexec : m.exec s with ⟨_ | a, s'⟩
  · rw [hexec] at hinv' hrel
    exact ⟨hinv', hrel, fun _ h => nomatch h⟩
  · rw [hexec] at hinv' hrel hq
    obtain ⟨hinv'', hrel', hr⟩ := hf a s' hinv' (hq a rfl)
    exact ⟨hinv'', F.trans _ _ _ hrel hrel', hr⟩

theorem Triple.weaken {m : Prog ε σ α} {P' : σ → Prop} {Q' : α → σ → Prop}
    (h : F.Triple P m Q) (hP : ∀ s, P' s → P s) (hQ : ∀ a s, Q a s → Q' a s) :
    F.Triple P' m Q' := by
  intro s hinv hs
  obtain ⟨hinv', hrel, hq⟩ := h s hinv (hP s hs)
  exact ⟨hinv', hrel, fun a ha => hQ a _ (hq a ha)⟩

/-- A part that needs nothing, and a rest that needs nothing of it. -/
theorem Triple.seq {m : Prog ε σ α} {f : α → Prog ε σ β} (hm : F.Triple (fun _ => True) m Q)
    (hf : ∀ a, F.Triple (fun _ => True) (f a) R) : F.Triple P (m >>= f) R :=
  (hm.weaken (fun _ _ => trivial) fun _ _ _ => trivial).bind hf

theorem Triple.ite {c : Prop} [Decidable c] {m m' : Prog ε σ α}
    (h : c → F.Triple P m Q) (h' : ¬ c → F.Triple P m' Q) :
    F.Triple P (if c then m else m') Q := by
  split
  · next hc => exact h hc
  · next hc => exact h' hc

end StateFrame

end OnionNetwork.Lib
