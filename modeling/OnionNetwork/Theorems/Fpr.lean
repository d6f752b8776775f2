import OnionNetwork.Falcon.Fpr

/-!
# Floating point of the signer

`fprMul_rounds` and `fprDiv_rounds`: the product and the quotient of two numbers are rounded to
the nearest number, to the even one in the middle between two, and become zero below
`2 ^ -1022`.
-/

namespace OnionNetwork.Falcon

open Lib

variable {x y : Fpr}

/-- No number of the precision is closer than one that is rounded. -/
private theorem closest_of_rounds {v : ℚ} {z : Fpr}
    (h : if v < 2 ^ (-1022 : ℤ) then magnitude z = 0 else Rounds v z) :
    if v < 2 ^ (-1022 : ℤ) then magnitude z = 0
    else Rounds v z ∧
      ∀ (m : ℕ) (k : ℤ), m < 2 ^ 53 → |v - magnitude z| ≤ |v - m * 2 ^ k| := by
  split
  · next hunder => rwa [if_pos hunder] at h
  · next hover =>
      rw [if_neg hover] at h
      exact ⟨h, fun m k hm => h.closest hm k⟩

/-- **`fpr_mul` rounds the product**, to nearest and below `2 ^ -1022` to zero. -/
theorem fprMul_rounds (hv : magnitude x * magnitude y < (2 ^ 54 - 1) * 2 ^ 970) :
    Normal (fprMul x y) ∧ signBit (fprMul x y) = (signBit x + signBit y) % 2 ∧
      if magnitude x * magnitude y < 2 ^ (-1022 : ℤ) then magnitude (fprMul x y) = 0
      else Rounds (magnitude x * magnitude y) (fprMul x y) ∧
        ∀ (m : ℕ) (k : ℤ), m < 2 ^ 53 → |magnitude x * magnitude y - magnitude (fprMul x y)| ≤
          |magnitude x * magnitude y - m * 2 ^ k| := by
  obtain ⟨hnormal, hsign, hround⟩ := fprMul_spec hv
  exact ⟨hnormal, hsign, closest_of_rounds hround⟩

private theorem magnitude_threeHalves : magnitude 0x3ff8000000000000 = 3 / 2 := by
  have hexp : (exponent 0x3ff8000000000000).toNat = 1023 := rfl
  have hman : (0x3ff8000000000000 : UInt64).toNat % 2 ^ 52 = 2 ^ 51 := rfl
  rw [magnitude, if_neg (by rw [hexp]; decide), hexp, hman]
  norm_num

private theorem lt_overflow {v : ℚ} (hv : v < 4) : v < (2 ^ 54 - 1) * 2 ^ 970 := by
  have hpow : (1 : ℚ) ≤ 2 ^ 970 := one_le_pow₀ one_le_two
  calc v < (2 ^ 54 - 1) * 1 := hv.trans (by norm_num)
    _ ≤ (2 ^ 54 - 1) * 2 ^ 970 := mul_le_mul_of_nonneg_left hpow (by norm_num)

theorem fprMul_rounds_threeHalves :
    Normal (fprMul 0x3ff8000000000000 0x3ff8000000000000) ∧
      signBit (fprMul 0x3ff8000000000000 0x3ff8000000000000) = 0 ∧
      if magnitude 0x3ff8000000000000 * magnitude 0x3ff8000000000000 < 2 ^ (-1022 : ℤ) then
        magnitude (fprMul 0x3ff8000000000000 0x3ff8000000000000) = 0
      else
        Rounds (magnitude 0x3ff8000000000000 * magnitude 0x3ff8000000000000)
          (fprMul 0x3ff8000000000000 0x3ff8000000000000) ∧
        ∀ (m : ℕ) (k : ℤ), m < 2 ^ 53 →
          |magnitude 0x3ff8000000000000 * magnitude 0x3ff8000000000000 -
              magnitude (fprMul 0x3ff8000000000000 0x3ff8000000000000)| ≤
            |magnitude 0x3ff8000000000000 * magnitude 0x3ff8000000000000 - m * 2 ^ k| := by
  refine fprMul_rounds (lt_overflow ?_)
  rw [magnitude_threeHalves]
  norm_num

/-- **`fpr_div` rounds the quotient** in the same way; a zero is divided without a sign. -/
theorem fprDiv_rounds (hy : (exponent y).toNat ≠ 0)
    (hv : magnitude x / magnitude y < (2 ^ 54 - 1) * 2 ^ 970) :
    Normal (fprDiv x y) ∧
      signBit (fprDiv x y) =
        (if (exponent x).toNat = 0 then 0 else (signBit x + signBit y) % 2) ∧
      if magnitude x / magnitude y < 2 ^ (-1022 : ℤ) then magnitude (fprDiv x y) = 0
      else Rounds (magnitude x / magnitude y) (fprDiv x y) ∧
        ∀ (m : ℕ) (k : ℤ), m < 2 ^ 53 → |magnitude x / magnitude y - magnitude (fprDiv x y)| ≤
          |magnitude x / magnitude y - m * 2 ^ k| := by
  obtain ⟨hnormal, hsign, hround⟩ := fprDiv_spec hy hv
  exact ⟨hnormal, hsign, closest_of_rounds hround⟩

theorem fprDiv_rounds_threeHalves :
    Normal (fprDiv 0x3ff8000000000000 0x3ff8000000000000) ∧
      signBit (fprDiv 0x3ff8000000000000 0x3ff8000000000000) = 0 ∧
      if magnitude 0x3ff8000000000000 / magnitude 0x3ff8000000000000 < 2 ^ (-1022 : ℤ) then
        magnitude (fprDiv 0x3ff8000000000000 0x3ff8000000000000) = 0
      else
        Rounds (magnitude 0x3ff8000000000000 / magnitude 0x3ff8000000000000)
          (fprDiv 0x3ff8000000000000 0x3ff8000000000000) ∧
        ∀ (m : ℕ) (k : ℤ), m < 2 ^ 53 →
          |magnitude 0x3ff8000000000000 / magnitude 0x3ff8000000000000 -
              magnitude (fprDiv 0x3ff8000000000000 0x3ff8000000000000)| ≤
            |magnitude 0x3ff8000000000000 / magnitude 0x3ff8000000000000 - m * 2 ^ k| := by
  refine fprDiv_rounds (by decide) (lt_overflow ?_)
  rw [magnitude_threeHalves]
  norm_num

end OnionNetwork.Falcon
