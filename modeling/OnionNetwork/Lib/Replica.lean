import Mathlib.Logic.Function.Basic

/-!
# Replicas that push what they changed

A replica keeps values under the keys of its components, knows which components
it tracks and which it has changed since it last pushed. The remote store takes
the pushed values and keeps the rest. `InStep` is what makes both agree: where
the replica tracks a component it has not changed, the remote store has the same
value. If the replica also tracks everything the remote store has (`Covers`),
its entries are those of the remote store behind the push (`entry_iff`).
-/

namespace OnionNetwork.Lib

variable {ι K V : Type*}

/-- The values a replica keeps, and what it tracks and has changed. -/
structure Replica (ι K V : Type*) where
  store : K → Option V
  tracked : ι → Prop
  pending : ι → Prop

namespace Replica

/-- What the replica holds for the components it tracks. -/
def Entry (key : ι → Option K) (r : Replica ι K V) (k : K) (v : V) : Prop :=
  ∃ i, r.tracked i ∧ key i = some k ∧ r.store k = some v

/-- What it pushes. -/
def Sent (key : ι → Option K) (r : Replica ι K V) (k : K) (v : V) : Prop :=
  ∃ i, r.pending i ∧ key i = some k ∧ r.store k = some v

/-- The replica tracks everything the remote store has. -/
def Covers (key : ι → Option K) (r : Replica ι K V) (remote : K → Option V) : Prop :=
  ∀ k v, remote k = some v → ∃ i, r.tracked i ∧ key i = some k

/-- The remote store agrees with the replica but for what is pending. -/
structure InStep (key : ι → Option K) (r : Replica ι K V) (remote : K → Option V) : Prop where
  pending_tracked : ∀ i, r.pending i → r.tracked i
  agrees : ∀ i k, r.tracked i → ¬ r.pending i → key i = some k → remote k = r.store k
  held : ∀ i k, r.tracked i → key i = some k → r.store k = none → remote k = none

variable {key key' : ι → Option K} {r : Replica ι K V} {remote remote' : K → Option V}

theorem Sent.entry (h : InStep key r remote) {k : K} {v : V} (hs : Sent key r k v) :
    Entry key r k v := by
  obtain ⟨i, hi, hk, hv⟩ := hs
  exact ⟨i, h.pending_tracked i hi, hk, hv⟩

/-- **The entries of both sides.** What the replica holds is what the remote store
has behind the push. -/
theorem entry_iff (h : InStep key r remote) (hcovers : Covers key r remote) {k : K} {v : V} :
    Entry key r k v ↔ Sent key r k v ∨ remote k = some v ∧ ∀ w, ¬ Sent key r k w := by
  constructor
  · rintro ⟨i, hi, hk, hv⟩
    by_cases hsent : ∃ w, Sent key r k w
    · obtain ⟨w, j, hj, hkj, -⟩ := hsent
      exact .inl ⟨j, hj, hkj, hv⟩
    · rw [not_exists] at hsent
      have hnot : ¬ r.pending i := fun hp => hsent v ⟨i, hp, hk, hv⟩
      refine .inr ⟨?_, hsent⟩
      rw [h.agrees i k hi hnot hk]
      exact hv
  · rintro (hsent | ⟨hremote, hnone⟩)
    · exact hsent.entry h
    · obtain ⟨i, hi, hk⟩ := hcovers k v hremote
      have hnot : ¬ r.pending i := by
        intro hp
        cases hstore : r.store k with
        | some w => exact hnone w ⟨i, hp, hk, hstore⟩
        | none =>
            have habsent := h.held i k hi hk hstore
            rw [hremote] at habsent
            cases habsent
      refine ⟨i, hi, hk, ?_⟩
      rw [← h.agrees i k hi hnot hk]
      exact hremote

/-- A replica that has pushed nothing of what it tracks. -/
structure Unpushed (key : ι → Option K) (r : Replica ι K V) : Prop where
  all_pending : ∀ i, r.pending i ↔ r.tracked i
  stored : ∀ i k, r.tracked i → key i = some k → r.store k ≠ none

theorem Unpushed.inStep (h : Unpushed key r) : InStep key r remote where
  pending_tracked i hi := (h.all_pending i).mp hi
  agrees i _ hi hnot _ := absurd ((h.all_pending i).mpr hi) hnot
  held i k hi hk hnone := absurd hnone (h.stored i k hi hk)

/-- A component is written. -/
theorem Unpushed.write [DecidableEq K] (h : Unpushed key r) {i : ι} {k : K}
    (hk : key i = some k) (v : V) :
    Unpushed key
      { store := Function.update r.store k (some v)
        tracked := fun j => j = i ∨ r.tracked j
        pending := fun j => j = i ∨ r.pending j } where
  all_pending j := or_congr_right (h.all_pending j)
  stored j k' hj hk' := by
    show Function.update r.store k (some v) k' ≠ none
    by_cases hkk : k' = k
    · subst hkk
      rw [Function.update_self]
      exact Option.some_ne_none v
    · rw [Function.update_of_ne hkk]
      have hne : j ≠ i := by
        rintro rfl
        rw [hk] at hk'
        exact hkk (Option.some.inj hk').symm
      exact h.stored j k' (hj.resolve_left hne) hk'

/-- A component is written. No other component has its key. -/
theorem InStep.write [DecidableEq K] (h : InStep key r remote) {i : ι} {k : K} (hk : key i = some k)
    (hown : ∀ j, key j = some k → j = i) (v : V) :
    InStep key
      { store := Function.update r.store k (some v)
        tracked := fun j => j = i ∨ r.tracked j
        pending := fun j => j = i ∨ r.pending j } remote where
  pending_tracked j hj := hj.imp_right (h.pending_tracked j)
  agrees j k' hj hnot hk' := by
    obtain ⟨hne, hnot⟩ := not_or.mp hnot
    have hkk : k' ≠ k := by
      rintro rfl
      exact hne (hown j hk')
    show remote k' = Function.update r.store k (some v) k'
    rw [Function.update_of_ne hkk]
    exact h.agrees j k' (hj.resolve_left hne) hnot hk'
  held j k' hj hk' hnone := by
    have hnone : Function.update r.store k (some v) k' = none := hnone
    by_cases hkk : k' = k
    · subst hkk
      rw [Function.update_self] at hnone
      cases hnone
    · rw [Function.update_of_ne hkk] at hnone
      have hne : j ≠ i := by
        rintro rfl
        rw [hk] at hk'
        exact hkk (Option.some.inj hk').symm
      exact h.held j k' (hj.resolve_left hne) hk' hnone

/-- What is pending is pushed, and some of it may stay pending. -/
theorem InStep.push (h : InStep key r remote) {pending' : ι → Prop}
    (hpending : ∀ i, pending' i → r.pending i)
    (hsent : ∀ k v, Sent key r k v → remote' k = some v)
    (hrest : ∀ k, (∀ v, ¬ Sent key r k v) → remote' k = remote k) :
    InStep key { r with pending := pending' } remote' where
  pending_tracked i hi := h.pending_tracked i (hpending i hi)
  agrees i k hi _ hk := by
    show remote' k = r.store k
    by_cases hpushed : ∃ v, Sent key r k v
    · obtain ⟨v, hv⟩ := hpushed
      obtain ⟨j, -, -, hstore⟩ := id hv
      rw [hsent k v hv, hstore]
    · rw [not_exists] at hpushed
      rw [hrest k hpushed]
      by_cases hp : r.pending i
      · cases hstore : r.store k with
        | some v => exact absurd ⟨i, hp, hk, hstore⟩ (hpushed v)
        | none => exact h.held i k hi hk hstore
      · exact h.agrees i k hi hp hk
  held i k hi hk hnone := by
    have hnone : r.store k = none := hnone
    have hpushed : ∀ v, ¬ Sent key r k v := by
      rintro v ⟨j, -, -, hstore⟩
      rw [hnone] at hstore
      cases hstore
    rw [hrest k hpushed]
    exact h.held i k hi hk hnone

/-- A component gets another key, under which neither side has anything. -/
theorem InStep.rekey (h : InStep key r remote) {i : ι} (hother : ∀ j ≠ i, key' j = key j)
    (hnew : key' i = key i ∨ ∀ k, key' i = some k → r.store k = none ∧ remote k = none) :
    InStep key' r remote where
  pending_tracked := h.pending_tracked
  agrees j k hj hnot hk := by
    by_cases hji : j = i
    · subst hji
      rcases hnew with hsame | hnew
      · exact h.agrees j k hj hnot (hsame ▸ hk)
      · obtain ⟨hstore, hremote⟩ := hnew k hk
        rw [hstore, hremote]
    · rw [hother j hji] at hk
      exact h.agrees j k hj hnot hk
  held j k hj hk hnone := by
    by_cases hji : j = i
    · subst hji
      rcases hnew with hsame | hnew
      · exact h.held j k hj (hsame ▸ hk) hnone
      · exact (hnew k hk).2
    · rw [hother j hji] at hk
      exact h.held j k hj hk hnone

end Replica

end OnionNetwork.Lib
