import Mathlib.Algebra.Order.Field.Basic
import Mathlib.Algebra.Ring.Parity
import Mathlib.Data.Nat.Bitwise
import Mathlib.Tactic.FieldSimp
import Mathlib.Tactic.Linarith
import Mathlib.Tactic.Positivity
import Mathlib.Tactic.Ring

/-!
# Rounding to nearest with a sticky bit

A number is kept as an integer whose last bit may stand for a rest: `Sticky q m` says that `m` is
`q`, or odd and less than one away. Shifting to the right and keeping a trace of the bits that
fall out leaves this so (`sticky_shift`), and two bits behind the last place are enough to round
to the nearest integer, to the even one in the middle between two (`nearestEven_of_sticky`).

`Rounded p v n e` is rounding to `p` bits: no number of `p` bits is closer to `v` than
`n * 2 ^ e` (`Rounded.closest`).
-/

namespace OnionNetwork.Lib

variable {K : Type*} [Field K] [LinearOrder K] [IsStrictOrderedRing K]

/-- `n` is the integer nearest to `q`, the even one in the middle between two. -/
structure NearestEven (q : K) (n : ℕ) : Prop where
  close : |q - n| ≤ 1 / 2
  tie : |q - n| = 1 / 2 → Even n

/-- `m` is `q`, or its last bit stands for a rest. -/
def Sticky (q : K) (m : ℕ) : Prop := q = m ∨ (Odd m ∧ |q - m| < 1)

/-- The last bit, once it stands for a rest. -/
def sticky (m r : ℕ) : ℕ := m ||| if r = 0 then 0 else 1

theorem sticky_zero (m : ℕ) : sticky m 0 = m := by simp [sticky]

theorem sticky_of_ne {r : ℕ} (hr : r ≠ 0) (m : ℕ) : sticky m r = 2 * (m / 2) + 1 := by
  rw [sticky, if_neg hr]
  have hhalf : (m ||| 1) / 2 = m / 2 := by simp [Nat.or_div_two]
  have hlast : (m ||| 1) % 2 = 1 := by simp [Nat.or_mod_two_eq_one]
  omega

/-- A trace changes the last bit only. -/
theorem sticky_bounds (m r : ℕ) : sticky m r / 2 = m / 2 ∧ m ≤ sticky m r := by
  by_cases hr : r = 0
  · rw [hr, sticky_zero]
    exact ⟨rfl, le_rfl⟩
  · rw [sticky_of_ne hr]
    omega

theorem sticky_between {q : K} {a : ℕ} (hlow : (a : K) < q) (hhigh : q < a + 1) {r : ℕ}
    (hr : r ≠ 0) : Sticky q (sticky a r) := by
  rw [sticky_of_ne hr]
  refine .inr ⟨⟨a / 2, rfl⟩, ?_⟩
  rcases Nat.even_or_odd' a with ⟨b, rfl | rfl⟩
  · have hhalf : 2 * b / 2 = b := by omega
    rw [hhalf, abs_lt]
    push_cast at hlow hhigh ⊢
    exact ⟨by linarith, by linarith⟩
  · have hhalf : (2 * b + 1) / 2 = b := by omega
    rw [hhalf, abs_lt]
    push_cast at hlow hhigh ⊢
    exact ⟨by linarith, by linarith⟩

/-- An even integer and a rest below two. -/
theorem sticky_of_even {q : K} {a : ℕ} (ha : Even a) (hlow : (a : K) < q) (hhigh : q < a + 2)
    {r : ℕ} (hr : r ≠ 0) : Sticky q (sticky a r) := by
  obtain ⟨b, rfl⟩ := ha
  have hhalf : (b + b) / 2 = b := by omega
  rw [sticky_of_ne hr, hhalf]
  refine .inr ⟨⟨b, rfl⟩, ?_⟩
  push_cast at hlow hhigh ⊢
  rw [abs_lt]
  exact ⟨by linarith, by linarith⟩

/-- **Shifting keeps a trace of what falls out.** -/
theorem sticky_shift {q : K} {m : ℕ} (h : Sticky q m) (k : ℕ) :
    Sticky (q / 2 ^ k) (sticky (m / 2 ^ k) (m % 2 ^ k)) := by
  have hpos : (0 : K) < 2 ^ k := by positivity
  have hdiv := Nat.div_add_mod m (2 ^ k)
  have hlt := Nat.mod_lt m (Nat.two_pow_pos k)
  have hcast : (m : K) = 2 ^ k * (m / 2 ^ k : ℕ) + (m % 2 ^ k : ℕ) := by
    conv_lhs => rw [← hdiv]
    push_cast
    ring
  generalize m / 2 ^ k = a at *
  generalize m % 2 ^ k = r at *
  rcases h with hexact | ⟨hodd, hclose⟩
  · by_cases hr : r = 0
    · subst hr
      rw [sticky_zero]
      refine .inl ?_
      rw [hexact, hcast, Nat.cast_zero, add_zero, mul_div_cancel_left₀ _ hpos.ne']
    · -- what falls out lies strictly between two numbers
      have hr' : (0 : K) < r := by exact_mod_cast Nat.pos_of_ne_zero hr
      have hlt' : (r : K) < 2 ^ k := by exact_mod_cast hlt
      refine sticky_between ?_ ?_ hr
      · rw [lt_div_iff₀ hpos, hexact, hcast]
        linarith
      · rw [div_lt_iff₀ hpos, hexact, hcast]
        linarith
  · rw [abs_lt] at hclose
    rcases k.eq_zero_or_pos with rfl | hk
    · obtain rfl : r = 0 := by simpa using hlt
      obtain rfl : a = m := by simpa using hdiv
      rw [sticky_zero]
      refine .inr ⟨hodd, ?_⟩
      rw [pow_zero, div_one, abs_lt]
      exact hclose
    · -- the rest is odd, so it is neither zero nor the last one
      have heven : Even (2 ^ k * a) := (Nat.even_pow.mpr ⟨even_two, hk.ne'⟩).mul_right a
      have hr : Odd r := by
        rw [← hdiv] at hodd
        exact (Nat.odd_add'.mp hodd).mpr heven
      have hone : (1 : K) ≤ r := by exact_mod_cast hr.pos
      have hlast : (r : K) + 1 ≤ 2 ^ k := by exact_mod_cast hlt
      refine sticky_between ?_ ?_ hr.pos.ne'
      · rw [lt_div_iff₀ hpos]
        linarith
      · rw [div_lt_iff₀ hpos]
        linarith

/-- An even bound holds of a number as it does of the integer that is kept for it. -/
theorem le_of_sticky {q : K} {m a : ℕ} (h : Sticky q m) (ha : Even a) (hle : a ≤ m) :
    (a : K) ≤ q := by
  rcases h with rfl | ⟨hodd, hclose⟩
  · exact_mod_cast hle
  · have hne : a ≠ m := fun heq => Nat.not_even_iff_odd.mpr hodd (heq ▸ ha)
    have hlt : (a : K) + 1 ≤ m := by exact_mod_cast lt_of_le_of_ne hle hne
    rw [abs_lt] at hclose
    linarith

theorem lt_of_sticky {q : K} {m a : ℕ} (h : Sticky q m) (hlt : m < a) : q < a := by
  have hle : (m : K) + 1 ≤ a := by exact_mod_cast hlt
  rcases h with rfl | ⟨-, hclose⟩
  · linarith
  · rw [abs_lt] at hclose
    linarith

/-- Rounding to the nearest of what has two more bits, by the last three bits. -/
def roundBits (m : ℕ) : ℕ := m / 4 + if m % 8 = 3 ∨ m % 8 = 6 ∨ m % 8 = 7 then 1 else 0

section Nearest

variable {q : K} {a : ℕ}

theorem nearestEven_below (hlow : (a : K) ≤ q) (hhigh : q < a + 1 / 2) : NearestEven q a where
  close := by
    rw [abs_le]
    exact ⟨by linarith, by linarith⟩
  tie htie := by
    rw [abs_of_nonneg (by linarith)] at htie
    linarith

theorem nearestEven_above (hlow : (a : K) + 1 / 2 < q) (hhigh : q ≤ a + 1) :
    NearestEven q (a + 1) where
  close := by
    push_cast
    rw [abs_le]
    exact ⟨by linarith, by linarith⟩
  tie htie := by
    push_cast at htie
    rw [abs_of_nonpos (by linarith)] at htie
    linarith

theorem nearestEven_middle (hq : q = a + 1 / 2) : NearestEven q (a + a % 2) where
  close := by
    rcases Nat.mod_two_eq_zero_or_one a with h | h
    · rw [hq, h, Nat.add_zero, add_sub_cancel_left, abs_of_pos (by norm_num)]
    · rw [hq, h, Nat.cast_add, Nat.cast_one, abs_of_nonpos (by linarith)]
      linarith
  tie _ := by
    rw [Nat.even_iff]
    omega

end Nearest

/-- **Two bits are enough to round.** -/
theorem nearestEven_of_sticky {q : K} {m : ℕ} (h : Sticky (4 * q) m) :
    NearestEven q (roundBits m) := by
  have hdiv := Nat.div_add_mod m 4
  have hlt := Nat.mod_lt m (show 0 < 4 by decide)
  have hcast : (m : K) = 4 * (m / 4 : ℕ) + (m % 4 : ℕ) := by
    conv_lhs => rw [← hdiv]
    push_cast
    ring
  have hodd : Odd m ↔ m % 4 % 2 = 1 := by
    rw [Nat.odd_iff]
    omega
  have hround : roundBits m = if m % 4 < 2 then m / 4 else if m % 4 = 2 then m / 4 + m / 4 % 2
      else m / 4 + 1 := by
    unfold roundBits
    split_ifs <;> omega
  rw [hround]
  rw [Sticky, hodd, hcast, abs_lt] at h
  generalize m / 4 = a at *
  generalize m % 4 = r at *
  clear hdiv hcast hodd hround
  have hr : r = 0 ∨ r = 1 ∨ r = 2 ∨ r = 3 := by omega
  rcases hr with rfl | rfl | rfl | rfl
  · rw [if_pos (by decide)]
    have hexact : 4 * q = 4 * a := by simpa using h
    exact nearestEven_below (by linarith) (by linarith)
  · rw [if_pos (by decide)]
    push_cast at h
    rcases h with hexact | ⟨-, hlow, hhigh⟩
    · exact nearestEven_below (by linarith) (by linarith)
    · exact nearestEven_below (by linarith) (by linarith)
  · rw [if_neg (by decide), if_pos rfl]
    have hexact : 4 * q = 4 * a + 2 := by simpa using h
    exact nearestEven_middle (by linarith)
  · rw [if_neg (by decide), if_neg (by decide)]
    push_cast at h
    rcases h with hexact | ⟨-, hlow, hhigh⟩
    · exact nearestEven_above (by linarith) (by linarith)
    · exact nearestEven_above (by linarith) (by linarith)

/-! ## Numbers of `p` bits -/

/-- `n * 2 ^ e` is `v` rounded to `p` bits. -/
structure Rounded (p : ℕ) (v : K) (n : ℕ) (e : ℤ) : Prop where
  low : 2 ^ (p - 1) * 2 ^ e ≤ v
  high : v < 2 ^ p * 2 ^ e
  nearest : NearestEven (v / 2 ^ e) n

/-- An integer is at least as far away as the nearest one. -/
theorem NearestEven.closest {q : K} {n : ℕ} (h : NearestEven q n) (k : ℤ) :
    |q - n| ≤ |q - k| := by
  by_cases hk : k = n
  · rw [hk]
    simp
  · have hclose := h.close
    have hapart : (1 : K) ≤ |(n : K) - k| := by
      have hint : (1 : ℤ) ≤ |(n : ℤ) - k| := Int.one_le_abs (sub_ne_zero.mpr (Ne.symm hk))
      exact_mod_cast hint
    have htri := abs_sub_le (n : K) q k
    rw [abs_sub_comm (n : K) q] at htri
    linarith

/-- **No number of `p` bits is closer.** -/
theorem Rounded.closest {p : ℕ} {v : K} {n : ℕ} {e : ℤ} (h : Rounded p v n e) (hp : 1 ≤ p)
    {m : ℕ} (hm : m < 2 ^ p) (k : ℤ) : |v - n * 2 ^ e| ≤ |v - m * 2 ^ k| := by
  have hpos : (0 : K) < 2 ^ e := zpow_pos two_pos e
  have hscale (x : K) : |v - x * 2 ^ e| = |v / 2 ^ e - x| * 2 ^ e := by
    have hv : v - x * 2 ^ e = (v / 2 ^ e - x) * 2 ^ e := by
      field_simp
    rw [hv, abs_mul, abs_of_pos hpos]
  rcases le_or_gt e k with hle | hlt
  · -- a multiple of the last place
    obtain ⟨d, rfl⟩ := Int.le.dest hle
    have hmul : (m : K) * 2 ^ (e + d) = ((m * 2 ^ d : ℕ) : ℤ) * 2 ^ e := by
      push_cast
      rw [zpow_add₀ two_ne_zero, zpow_natCast]
      ring
    rw [hmul, hscale, hscale]
    exact mul_le_mul_of_nonneg_right (h.nearest.closest _) hpos.le
  · -- below the binade, so no closer than its lower end
    have hend : (m : K) * 2 ^ k ≤ 2 ^ (p - 1) * 2 ^ e := by
      have hm' : (m : K) ≤ 2 ^ p := by exact_mod_cast hm.le
      have hk : (2 : K) ^ k ≤ 2 ^ (e - 1) := zpow_le_zpow_right₀ (by norm_num) (by omega)
      calc (m : K) * 2 ^ k ≤ 2 ^ p * 2 ^ (e - 1) :=
          mul_le_mul hm' hk (zpow_pos two_pos k).le (pow_pos two_pos p).le
        _ = 2 ^ (p - 1) * 2 ^ e := by
          obtain ⟨p, rfl⟩ := Nat.exists_eq_add_of_le' hp
          rw [Nat.add_sub_cancel, pow_succ, zpow_sub_one₀ two_ne_zero]
          field_simp
    have hlow := h.low
    have hclosest := h.nearest.closest ((2 ^ (p - 1) : ℕ) : ℤ)
    have hscaled := mul_le_mul_of_nonneg_right hclosest hpos.le
    rw [← hscale, ← hscale] at hscaled
    push_cast at hscaled
    refine hscaled.trans ?_
    rw [abs_of_nonneg (by linarith), abs_of_nonneg (by linarith)]
    linarith

end OnionNetwork.Lib
