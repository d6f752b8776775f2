import Mathlib.Order.Monotone.Basic

/-!
# Crossing the middles of blocks

A level that rises in small steps, and blocks of an even size. A step crosses a middle
when it comes from the first half of a block and ends strictly in the second half of one
(`Crosses`). On its way through a block the level crosses the middle in one step, unless
it stops right on it (`crosses_once_iff`).
-/

namespace OnionNetwork.Lib

/-- The last number up to `n` of which `p` holds. -/
structure IsLast (p : Nat → Prop) (n a : Nat) : Prop where
  le : a ≤ n
  holds : p a
  after : ∀ j ≤ n, a < j → ¬ p j

/-- The first number up to `n` of which `p` holds. -/
structure IsFirst (p : Nat → Prop) (n a : Nat) : Prop where
  le : a ≤ n
  holds : p a
  before : ∀ j < a, ¬ p j

/-- From the first half of a block to the second half of one. -/
def Crosses (half before after : Nat) : Prop :=
  half < after % (2 * half) ∧ before % (2 * half) < half

/-- The level never falls, and rises by `bound` at most. -/
structure Rises (level : Nat → Nat) (bound n : Nat) : Prop where
  le_step : ∀ j < n, level j ≤ level (j + 1)
  step_le : ∀ j < n, level (j + 1) ≤ level j + bound

variable {level : Nat → Nat} {half bound n k last first : Nat}

theorem Rises.le (h : Rises level bound n) {i j : Nat} (hij : i ≤ j) (hj : j ≤ n) :
    level i ≤ level j := by
  induction j, hij using Nat.le_induction with
  | base => exact Nat.le_refl _
  | succ j _ ih => exact Nat.le_trans (ih (by omega)) (h.le_step j (by omega))

/-- The remainder in the block `k`. -/
theorem mod_of_block {m size : Nat} (hlow : k * size ≤ m) (hhigh : m < k * size + size) :
    m % size = m - k * size := by
  obtain ⟨r, rfl⟩ := Nat.exists_eq_add_of_le hlow
  rw [Nat.mul_add_mod_self_right, Nat.mod_eq_of_lt (by omega)]
  omega

/-- The steps from the last level below the middle of the block `k` to the first one behind
its end: the first of them crosses, unless it stops on the middle, and no other does. -/
theorem crosses_iff (hhalf : 0 < half) (hbound : bound ≤ half)
    (hrises : Rises level bound n)
    (hlast : IsLast (fun j => level j < k * (2 * half) + half) n last)
    (hfirst : IsFirst (fun j => (k + 1) * (2 * half) < level j) n first)
    {j : Nat} (hlow : last ≤ j) (hhigh : j < first) :
    Crosses half (level j) (level (j + 1)) ↔
      j = last ∧ level (j + 1) ≠ k * (2 * half) + half := by
  have hn := hfirst.le
  have hbelow := hlast.holds
  have hnext := Nat.le_of_not_lt (hlast.after (j + 1) (by omega) (by omega))
  have hge := hrises.le_step j (by omega)
  have hle := hrises.step_le j (by omega)
  have hsize : (k + 1) * (2 * half) = k * (2 * half) + 2 * half := Nat.succ_mul k _
  unfold Crosses
  rcases Nat.lt_or_eq_of_le hlow with hgt | rfl
  · -- already in the second half: only the end of the block is in the first half of one
    have hin := Nat.le_of_not_lt (hlast.after j (by omega) hgt)
    have hend := Nat.le_of_not_lt (hfirst.before j hhigh)
    have hne : ¬ j = last := by omega
    simp only [hne, false_and, iff_false, not_and, Nat.not_lt]
    intro hcross
    rcases Nat.lt_or_eq_of_le hend with hinside | hedge
    · rw [mod_of_block (k := k) (by omega) (by omega)]
      omega
    · rw [mod_of_block (k := k + 1) (by omega) (by omega)] at hcross
      omega
  · rw [mod_of_block (k := k) (m := level last) (by omega) (by omega),
      mod_of_block (k := k) (m := level (last + 1)) (by omega) (by omega)]
    simp only [true_and]
    omega

/-- **One crossing for each block**, unless the level stops on the middle. -/
theorem crosses_once_iff (hhalf : 0 < half) (hbound : bound ≤ half)
    (hrises : Rises level bound n)
    (hlast : IsLast (fun j => level j < k * (2 * half) + half) n last)
    (hfirst : IsFirst (fun j => (k + 1) * (2 * half) < level j) n first) :
    (∃! j, last < j ∧ j ≤ first ∧ Crosses half (level (j - 1)) (level j)) ↔
      ∀ j ≤ n, level j ≠ k * (2 * half) + half := by
  have hbelow := hlast.holds
  have hbehind := hfirst.holds
  have hsize : (k + 1) * (2 * half) = k * (2 * half) + 2 * half := Nat.succ_mul k _
  have horder : last < first := by
    by_contra hge
    have hle := hrises.le (Nat.le_of_not_lt hge) hlast.le
    omega
  have hn := hfirst.le
  have hstep : ∀ j, last < j → j ≤ first →
      (Crosses half (level (j - 1)) (level j) ↔
        j = last + 1 ∧ level j ≠ k * (2 * half) + half) := by
    intro j hlow hhigh
    obtain ⟨i, rfl⟩ := Nat.exists_eq_add_one_of_ne_zero (show j ≠ 0 by omega)
    rw [Nat.add_sub_cancel, crosses_iff hhalf hbound hrises hlast hfirst (by omega) (by omega),
      Nat.add_right_cancel_iff]
  constructor
  · rintro ⟨j, ⟨hlow, hhigh, hcross⟩, -⟩ i hi hmid
    obtain ⟨rfl, hne⟩ := (hstep j hlow hhigh).mp hcross
    have hover := Nat.le_of_not_lt (hlast.after (last + 1) (by omega) (by omega))
    -- the level that stops on the middle is the first one that is not below it
    rcases Nat.lt_trichotomy i (last + 1) with hlt | rfl | hgt
    · have hle := hrises.le (show i ≤ last by omega) hlast.le
      omega
    · exact hne hmid
    · have hle := hrises.le hgt.le hi
      omega
  · intro hmiss
    refine ⟨last + 1, ⟨by omega, by omega, (hstep _ (by omega) (by omega)).mpr
      ⟨rfl, hmiss _ (by omega)⟩⟩, ?_⟩
    rintro j ⟨hlow, hhigh, hcross⟩
    exact ((hstep j hlow hhigh).mp hcross).1

end OnionNetwork.Lib
