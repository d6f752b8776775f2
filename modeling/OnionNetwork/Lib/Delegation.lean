import OnionNetwork.Lib.Machine

/-!
# Delegation chains

A store of records, each of some authority, in which a record can be written
only at an authority the writer itself has. Whatever the order of delegations
(records written by records written by …), nobody that started below a bound
writes above it: `writes_le_of_attenuates`.
-/

namespace OnionNetwork.Lib.Machine

variable {σ ι ο κ α : Type*} [Preorder α]

/-- A step writes at most one record, at no more than the authority of its
signer; every other record that is still there has the authority it had. -/
structure Attenuates (m : Machine σ ι ο) (auth : σ → κ → Option α) (signer : ι → κ)
    (writes : σ → ι → Option κ) : Prop where
  written : ∀ s i k a, writes s i = some k → auth (m.step s i).1 k = some a →
    ∃ b, auth s (signer i) = some b ∧ a ≤ b
  kept : ∀ s i k a, writes s i ≠ some k → auth (m.step s i).1 k = some a → auth s k = some a

/-- The records written so far, newest first. -/
def recordWrites (writes : σ → ι → Option κ) (written : List κ) (s : σ) (i : ι) : List κ :=
  (writes s i).toList ++ written

/-- Everybody in the coalition `S`, and everybody written so far, is bounded. -/
def CoalitionBounded (auth : σ → κ → Option α) (S : κ → Prop) (bound : α) (s : σ × List κ) :
    Prop :=
  ∀ k a, S k ∨ k ∈ s.2 → auth s.1 k = some a → a ≤ bound

/-- Whoever writes belongs to the coalition or was written before. -/
def SignedWithin (signer : ι → κ) (writes : σ → ι → Option κ) (S : κ → Prop) (s : σ × List κ)
    (i : ι) : Prop :=
  writes s.1 i ≠ none → S (signer i) ∨ signer i ∈ s.2

variable {m : Machine σ ι ο} {auth : σ → κ → Option α} {signer : ι → κ}
  {writes : σ → ι → Option κ} {S : κ → Prop} {bound : α}

/-- What a coalition below the bound writes is below the bound. -/
theorem written_le (hatt : m.Attenuates auth signer writes) {s : σ × List κ} {i : ι}
    (hs : CoalitionBounded auth S bound s) (hsigned : SignedWithin signer writes S s i)
    {k : κ} {a : α} (hwrite : writes s.1 i = some k)
    (hauth : auth (m.step s.1 i).1 k = some a) : a ≤ bound := by
  have hsigner : S (signer i) ∨ signer i ∈ s.2 :=
    hsigned (by rw [hwrite]; exact Option.some_ne_none k)
  obtain ⟨b, hb, hab⟩ := hatt.written s.1 i k a hwrite hauth
  exact le_trans hab (hs (signer i) b hsigner hb)

/-- One step keeps the enlarged coalition below the bound. -/
theorem coalitionBounded_step (hatt : m.Attenuates auth signer writes) (s : σ × List κ) (i : ι)
    (hs : CoalitionBounded auth S bound s) (hsigned : SignedWithin signer writes S s i) :
    CoalitionBounded auth S bound ((m.withGhost (recordWrites writes)).step s i).1 := by
  intro k a hk hauth
  by_cases hwrite : writes s.1 i = some k
  · exact written_le hatt hs hsigned hwrite hauth
  · have hold : S k ∨ k ∈ s.2 := by
      rcases hk with hk | hk
      · exact .inl hk
      · rcases List.mem_append.mp hk with hnew | hold
        · exact absurd (Option.mem_toList.mp hnew) hwrite
        · exact .inr hold
    exact hs k a hold (hatt.kept s.1 i k a hwrite hauth)

/-- **No escalation.** In a run whose writes are all signed by the coalition or
by records written before, every record is written below the bound. -/
theorem writes_le_of_attenuates (hatt : m.Attenuates auth signer writes) {s : σ} {is : List ι}
    (hS : ∀ k a, S k → auth s k = some a → a ≤ bound)
    (hsigned : (m.withGhost (recordWrites writes)).EachStep (SignedWithin signer writes S)
      (s, []) is) :
    (m.withGhost (recordWrites writes)).EachStep
      (fun s i => ∀ k a, writes s.1 i = some k → auth (m.step s.1 i).1 k = some a → a ≤ bound)
      (s, []) is := by
  refine eachStep_of_invariant (P := CoalitionBounded auth S bound)
    (fun s i hs hi => coalitionBounded_step hatt s i hs hi)
    (fun s i hs hi k a => written_le hatt hs hi) ?_ hsigned
  intro k a hk hauth
  exact hS k a (hk.resolve_right List.not_mem_nil) hauth

end OnionNetwork.Lib.Machine
