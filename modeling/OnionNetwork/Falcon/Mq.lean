import Mathlib.Algebra.Field.ZMod
import Mathlib.FieldTheory.Finite.Basic
import Mathlib.Tactic.LinearCombination
import Mathlib.Tactic.NormNum.Prime

/-!
# Arithmetic modulo 12289 in machine words

The `mq_*` functions of the verifier. A word below 12289 stands for a residue; products are
Montgomery products with the radix `2 ^ 16`. Each function keeps words below 12289 and
computes what it is named after (`toZq_mqAdd`, `toZq_mqSub`, `toZq_mqMontymul`,
`toZq_mqRshift1`, `mqDiv12289_spec`). The wrapping subtractions are undone by a mask from the
top bit.
-/

namespace OnionNetwork.Falcon

/-- The residues. -/
abbrev Zq := ZMod 12289

instance prime_modulus : Fact (Nat.Prime 12289) := ⟨by norm_num⟩

/-! ## The functions -/

/-- `mq_conv_small`. -/
def mqConvSmall (x : Int32) : UInt32 :=
  let y := x.toUInt32
  y + ((12289 : UInt32) &&& -(y >>> 31))

/-- `mq_add`. -/
def mqAdd (x y : UInt32) : UInt32 :=
  let d := x + y - 12289
  d + ((12289 : UInt32) &&& -(d >>> 31))

/-- `mq_sub`. -/
def mqSub (x y : UInt32) : UInt32 :=
  let d := x - y
  d + ((12289 : UInt32) &&& -(d >>> 31))

/-- `mq_rshift1`. -/
def mqRshift1 (x : UInt32) : UInt32 :=
  (x + ((12289 : UInt32) &&& -(x &&& 1))) >>> 1

/-- `mq_montymul`. -/
def mqMontymul (x y : UInt32) : UInt32 :=
  let z := x * y
  let w := (z * 12287 &&& 0xffff) * 12289
  let z := (z + w) >>> 16
  let z := z - 12289
  z + ((12289 : UInt32) &&& -(z >>> 31))

/-- `mq_montysqr`. -/
def mqMontysqr (x : UInt32) : UInt32 := mqMontymul x x

/-- `mq_div_12289`: `y` to the power 12287 by an addition chain, times `x`. -/
def mqDiv12289 (x y : UInt32) : UInt32 :=
  let y0 := mqMontymul y 10952
  let y1 := mqMontysqr y0
  let y2 := mqMontymul y1 y0
  let y3 := mqMontymul y2 y1
  let y4 := mqMontysqr y3
  let y5 := mqMontysqr y4
  let y6 := mqMontysqr y5
  let y7 := mqMontysqr y6
  let y8 := mqMontysqr y7
  let y9 := mqMontymul y8 y2
  let y10 := mqMontymul y9 y8
  let y11 := mqMontysqr y10
  let y12 := mqMontysqr y11
  let y13 := mqMontymul y12 y9
  let y14 := mqMontysqr y13
  let y15 := mqMontysqr y14
  let y16 := mqMontymul y15 y10
  let y17 := mqMontysqr y16
  let y18 := mqMontymul y17 y0
  mqMontymul y18 x

/-! ## Masks -/

/-- A mask from one bit keeps a word or clears it. -/
theorem and_neg_bit (c : UInt32) {b : UInt32} (hb : b = 0 ∨ b = 1) :
    c &&& -b = if b = 1 then c else 0 := by
  rcases hb with rfl | rfl
  · simp
  · rw [show (-1 : UInt32) = 0xffffffff from rfl, if_pos rfl]
    exact UInt32.and_neg_one

theorem top_bit_cases (d : UInt32) :
    (d.toNat < 2 ^ 31 ∧ d >>> 31 = 0) ∨ (2 ^ 31 ≤ d.toNat ∧ d >>> 31 = 1) := by
  have hd := d.toNat_lt
  have hshift : (d >>> 31).toNat = d.toNat / 2 ^ 31 := by
    rw [UInt32.toNat_shiftRight, Nat.shiftRight_eq_div_pow]
    rfl
  rcases Nat.lt_or_ge d.toNat (2 ^ 31) with h | h
  · exact .inl ⟨h, UInt32.toNat.inj (by rw [hshift, Nat.div_eq_of_lt h]; rfl)⟩
  · exact .inr ⟨h, UInt32.toNat.inj (by rw [hshift]; show _ = 1; omega)⟩

/-- Adding back the modulus where a subtraction went below zero. -/
theorem toNat_add_mask (c d : UInt32) :
    (d + (c &&& -(d >>> 31))).toNat =
      if d.toNat < 2 ^ 31 then d.toNat else (d.toNat + c.toNat) % 2 ^ 32 := by
  rcases top_bit_cases d with ⟨h, hbit⟩ | ⟨h, hbit⟩
  · rw [hbit, and_neg_bit c (.inl rfl), if_pos h]
    simp
  · rw [hbit, and_neg_bit c (.inr rfl), if_pos rfl, if_neg (Nat.not_lt_of_ge h), UInt32.toNat_add]

/-! ## The residue of a word -/

/-- The residue that a word stands for. -/
def toZq (x : UInt32) : Zq := (x.toNat : Zq)

/-- The radix of the Montgomery form. -/
def radix : Zq := 65536

theorem radix_ne_zero : radix ≠ 0 := by decide

theorem toZq_inj {x y : UInt32} (hx : x.toNat < 12289) (hy : y.toNat < 12289) :
    toZq x = toZq y ↔ x = y := by
  rw [toZq, toZq, ZMod.natCast_eq_natCast_iff', Nat.mod_eq_of_lt hx, Nat.mod_eq_of_lt hy]
  exact UInt32.toNat_inj

section Spec

variable {x y : UInt32}

theorem toNat_mqAdd (hx : x.toNat < 12289) (hy : y.toNat < 12289) :
    (mqAdd x y).toNat = (x.toNat + y.toNat) % 12289 := by
  have hd : (x + y - 12289).toNat = (2 ^ 32 - 12289 + (x.toNat + y.toNat) % 2 ^ 32) % 2 ^ 32 := by
    rw [UInt32.toNat_sub, UInt32.toNat_add]
    rfl
  rw [mqAdd, toNat_add_mask, show (12289 : UInt32).toNat = 12289 from rfl]
  split <;> omega

theorem toNat_mqSub (hx : x.toNat < 12289) (hy : y.toNat < 12289) :
    (mqSub x y).toNat = (x.toNat + (12289 - y.toNat)) % 12289 := by
  have hd : (x - y).toNat = (2 ^ 32 - y.toNat + x.toNat) % 2 ^ 32 := UInt32.toNat_sub x y
  rw [mqSub, toNat_add_mask, show (12289 : UInt32).toNat = 12289 from rfl]
  split <;> omega

theorem toNat_mqRshift1 (hx : x.toNat < 12289) :
    (mqRshift1 x).toNat = if x.toNat % 2 = 0 then x.toNat / 2 else (x.toNat + 12289) / 2 := by
  have hbit : (x &&& 1).toNat = x.toNat % 2 := by
    rw [UInt32.toNat_and]
    exact Nat.and_one_is_mod _
  have hshift : ∀ d : UInt32, (d >>> 1).toNat = d.toNat / 2 := by
    intro d
    rw [UInt32.toNat_shiftRight, Nat.shiftRight_eq_div_pow]
    rfl
  rw [mqRshift1, hshift]
  rcases Nat.mod_two_eq_zero_or_one x.toNat with h | h
  · have h0 : x &&& 1 = 0 := UInt32.toNat.inj (by rw [hbit, h]; rfl)
    rw [h0, if_pos h, and_neg_bit _ (.inl rfl), if_neg (by decide), UInt32.add_zero]
  · have h1 : x &&& 1 = 1 := UInt32.toNat.inj (by rw [hbit, h]; rfl)
    rw [h1, if_neg (by omega), and_neg_bit _ (.inr rfl), if_pos rfl, UInt32.toNat_add,
      show (12289 : UInt32).toNat = 12289 from rfl, Nat.mod_eq_of_lt (by omega)]

/-- What the reduction adds makes the product divisible by the radix, since
`12287 * 12289 = 2304 * 65536 - 1`. -/
theorem montgomery_dvd (z : Nat) : (z + z * 12287 % 65536 * 12289) % 65536 = 0 := by
  omega

/-- **The Montgomery product**, where the plain one is below the modulus times the radix. -/
theorem toNat_mqMontymul (hxy : x.toNat * y.toNat < 12289 * 65536) :
    (mqMontymul x y).toNat =
      (x.toNat * y.toNat + x.toNat * y.toNat * 12287 % 65536 * 12289) / 65536 % 12289 := by
  have hz : (x * y).toNat = x.toNat * y.toNat := by
    rw [UInt32.toNat_mul, Nat.mod_eq_of_lt (by omega)]
  have hand : (x * y * 12287 &&& 0xffff).toNat = x.toNat * y.toNat * 12287 % 65536 := by
    rw [UInt32.toNat_and, UInt32.toNat_mul, hz]
    show x.toNat * y.toNat * 12287 % 2 ^ 32 &&& (2 ^ 16 - 1) = _
    rw [Nat.and_two_pow_sub_one_eq_mod]
    omega
  have hw : ((x * y * 12287 &&& 0xffff) * 12289).toNat =
      x.toNat * y.toNat * 12287 % 65536 * 12289 := by
    rw [UInt32.toNat_mul, hand]
    show _ * 12289 % 2 ^ 32 = _
    omega
  generalize x.toNat * y.toNat = z at *
  have hsum : ((x * y + (x * y * 12287 &&& 0xffff) * 12289) >>> 16).toNat =
      (z + z * 12287 % 65536 * 12289) / 65536 := by
    rw [UInt32.toNat_shiftRight, UInt32.toNat_add, hz, hw, Nat.shiftRight_eq_div_pow]
    show (z + z * 12287 % 65536 * 12289) % 2 ^ 32 / 2 ^ 16 = _
    omega
  have hr : (z + z * 12287 % 65536 * 12289) / 65536 < 2 * 12289 := by
    have := Nat.mod_lt (z * 12287) (show 0 < 65536 by omega)
    generalize z * 12287 % 65536 = w at *
    omega
  have hd : ((x * y + (x * y * 12287 &&& 0xffff) * 12289) >>> 16 - 12289).toNat =
      (2 ^ 32 - 12289 + (z + z * 12287 % 65536 * 12289) / 65536) % 2 ^ 32 := by
    rw [UInt32.toNat_sub, hsum]
    rfl
  rw [mqMontymul, toNat_add_mask, hd, show (12289 : UInt32).toNat = 12289 from rfl]
  generalize (z + z * 12287 % 65536 * 12289) / 65536 = r at *
  split <;> omega

/-! ## What the functions compute -/

theorem toNat_mqAdd_lt (hx : x.toNat < 12289) (hy : y.toNat < 12289) :
    (mqAdd x y).toNat < 12289 := by
  rw [toNat_mqAdd hx hy]
  omega

theorem toNat_mqSub_lt (hx : x.toNat < 12289) (hy : y.toNat < 12289) :
    (mqSub x y).toNat < 12289 := by
  rw [toNat_mqSub hx hy]
  omega

theorem toNat_mqMontymul_lt (hxy : x.toNat * y.toNat < 12289 * 65536) :
    (mqMontymul x y).toNat < 12289 := by
  rw [toNat_mqMontymul hxy]
  omega

theorem mul_lt_of_lt (hx : x.toNat < 12289) (hy : y.toNat < 12289) :
    x.toNat * y.toNat < 12289 * 65536 := by
  have := Nat.mul_le_mul (Nat.le_of_lt hx) (Nat.le_of_lt hy)
  omega

theorem toZq_mqAdd (hx : x.toNat < 12289) (hy : y.toNat < 12289) :
    toZq (mqAdd x y) = toZq x + toZq y := by
  rw [toZq, toNat_mqAdd hx hy, ZMod.natCast_mod, Nat.cast_add, toZq, toZq]

theorem toZq_mqSub (hx : x.toNat < 12289) (hy : y.toNat < 12289) :
    toZq (mqSub x y) = toZq x - toZq y := by
  rw [toZq, toNat_mqSub hx hy, ZMod.natCast_mod, Nat.cast_add, Nat.cast_sub (by omega), toZq, toZq,
    show ((12289 : Nat) : Zq) = 0 from rfl]
  ring

theorem toZq_mqMontymul (hxy : x.toNat * y.toNat < 12289 * 65536) :
    toZq (mqMontymul x y) * radix = toZq x * toZq y := by
  have hdvd := montgomery_dvd (x.toNat * y.toNat)
  have hdiv :=
    Nat.div_add_mod' (x.toNat * y.toNat + x.toNat * y.toNat * 12287 % 65536 * 12289) 65536
  rw [hdvd, Nat.add_zero] at hdiv
  have hcast := congrArg (Nat.cast (R := Zq)) hdiv
  rw [Nat.cast_mul, Nat.cast_add, Nat.cast_mul, Nat.cast_mul _ 12289,
    show ((12289 : Nat) : Zq) = 0 from rfl, mul_zero, add_zero] at hcast
  rw [toZq, toNat_mqMontymul hxy, ZMod.natCast_mod]
  exact hcast

theorem toNat_mqRshift1_lt (hx : x.toNat < 12289) : (mqRshift1 x).toNat < 12289 := by
  rw [toNat_mqRshift1 hx]
  split <;> omega

theorem toZq_mqRshift1 (hx : x.toNat < 12289) : 2 * toZq (mqRshift1 x) = toZq x := by
  have htwice : 2 * (mqRshift1 x).toNat = x.toNat ∨ 2 * (mqRshift1 x).toNat = x.toNat + 12289 := by
    rw [toNat_mqRshift1 hx]
    split <;> omega
  rcases htwice with h | h
  all_goals
    have hcast := congrArg (Nat.cast (R := Zq)) h
    simpa [toZq, show (12289 : Zq) = 0 from rfl] using hcast

/-- A Montgomery product of words in Montgomery form. -/
theorem toZq_mqMontymul_of_eq {a b : Zq} (hx : x.toNat < 12289) (hy : y.toNat < 12289)
    (ha : toZq x = radix * a) (hb : toZq y = radix * b) :
    toZq (mqMontymul x y) = radix * (a * b) := by
  have h := toZq_mqMontymul (mul_lt_of_lt hx hy)
  rw [ha, hb] at h
  apply mul_right_cancel₀ radix_ne_zero
  linear_combination h

/-- A Montgomery product with one word in Montgomery form is the product. -/
theorem toZq_mqMontymul_left {a : Zq} (hx : x.toNat < 12289) (hy : y.toNat < 12289)
    (ha : toZq x = radix * a) : toZq (mqMontymul x y) = a * toZq y := by
  have h := toZq_mqMontymul (mul_lt_of_lt hx hy)
  rw [ha] at h
  apply mul_right_cancel₀ radix_ne_zero
  linear_combination h

/-- Multiplying by the square of the radix makes the Montgomery form. -/
theorem toZq_mqMontymul_r2 (hx : x.toNat < 12289) :
    toZq (mqMontymul x 10952) = radix * toZq x := by
  have h := toZq_mqMontymul (mul_lt_of_lt hx (show (10952 : UInt32).toNat < 12289 by decide))
  rw [show toZq 10952 = radix * radix by decide] at h
  apply mul_right_cancel₀ radix_ne_zero
  linear_combination h

/-- The word is below the modulus and is the Montgomery form of a power. -/
def IsPow (y : Zq) (e : Nat) (w : UInt32) : Prop := w.toNat < 12289 ∧ toZq w = radix * y ^ e

theorem IsPow.mul {c : Zq} {d e : Nat} {v w : UInt32} (hv : IsPow c d v) (hw : IsPow c e w) :
    IsPow c (d + e) (mqMontymul v w) := by
  refine ⟨toNat_mqMontymul_lt (mul_lt_of_lt hv.1 hw.1), ?_⟩
  rw [toZq_mqMontymul_of_eq hv.1 hw.1 hv.2 hw.2, pow_add]

theorem IsPow.sqr {c : Zq} {e : Nat} {w : UInt32} (hw : IsPow c e w) :
    IsPow c (e + e) (mqMontysqr w) :=
  hw.mul hw

/-- Fermat: the power 12287 is the inverse, and 0 for 0. -/
theorem pow_eq_inv (c : Zq) : c ^ 12287 = c⁻¹ := by
  by_cases hc : c = 0
  · rw [hc, inv_zero, zero_pow (by decide)]
  · have h := ZMod.pow_card_sub_one_eq_one hc
    exact eq_inv_of_mul_eq_one_left (by rw [← pow_succ]; exact h)

theorem mqDiv12289_spec (hx : x.toNat < 12289) (hy : y.toNat < 12289) :
    (mqDiv12289 x y).toNat < 12289 ∧ toZq (mqDiv12289 x y) = toZq x / toZq y := by
  have h0 : IsPow (toZq y) 1 (mqMontymul y 10952) := by
    refine ⟨toNat_mqMontymul_lt (mul_lt_of_lt hy (by decide)), ?_⟩
    rw [toZq_mqMontymul_r2 hy, pow_one]
  have h1 := h0.sqr
  have h2 := h1.mul h0
  have h3 := h2.mul h1
  have h8 := h3.sqr.sqr.sqr.sqr.sqr
  have h9 := h8.mul h2
  have h10 := h9.mul h8
  have h13 := h10.sqr.sqr.mul h9
  have h16 := h13.sqr.sqr.mul h10
  have h18 := h16.sqr.mul h0
  refine ⟨toNat_mqMontymul_lt (mul_lt_of_lt h18.1 hx), ?_⟩
  have hlast := toZq_mqMontymul_left h18.1 hx h18.2
  have hexp : toZq y ^ 12287 * toZq x = toZq x / toZq y := by
    rw [pow_eq_inv, div_eq_mul_inv, mul_comm]
  exact hlast.trans hexp

end Spec

end OnionNetwork.Falcon
