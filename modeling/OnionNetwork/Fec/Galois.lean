import Mathlib.Algebra.CharP.Two
import Mathlib.Algebra.Order.Group.Nat
import Mathlib.Data.Fintype.Card
import Mathlib.Data.ZMod.Defs
import Mathlib.Dynamics.PeriodicPts.Defs
import Mathlib.NumberTheory.Divisors
import Mathlib.Order.Interval.Finset.Nat
import OnionNetwork.Lib.PowerTable

/-!
# The arithmetic of the erasure code

The tables that the build script writes and the operations that read them. A byte is an
element of GF(256): addition is xor, `double` multiplies by the element 2 modulo the
generating polynomial, and the powers of 2 run through the nonzero bytes. The logarithm
table therefore holds the exponents, the exponential table the powers, and `mul` and `div`
compute in a field (`mul_eq_galois`, `div_eq`).
-/

namespace OnionNetwork.Fec

open Lib

/-- A byte of a share. -/
structure Gf where
  bits : BitVec 8
deriving DecidableEq

namespace Gf

def ofNat (n : Nat) : Gf := ⟨BitVec.ofNat 8 n⟩

def toNat (a : Gf) : Nat := a.bits.toNat

instance : Zero Gf := ⟨ofNat 0⟩
instance : One Gf := ⟨ofNat 1⟩

end Gf

/-! ## The build script -/

def fieldSize : Nat := 256

def generatingPolynomial : Nat := 29

/-- The shift and the reduction in the loop of `gen_log_table`. -/
def nextPower (polynomial b : Nat) : Nat :=
  let b := b <<< 1
  if fieldSize ≤ b then (b - fieldSize) ^^^ polynomial else b

/-- One round of the loop of `gen_log_table`. -/
def genLogRound (polynomial : Nat) (s : (Nat → Nat) × Nat) (log : Nat) : (Nat → Nat) × Nat :=
  (Function.update s.1 s.2 log, nextPower polynomial s.2)

def genLogTable (polynomial : Nat) : Nat → Nat :=
  ((List.range (fieldSize - 1)).foldl (genLogRound polynomial) (fun _ => 0, 1)).1

/-- One round of the loop of `gen_exp_table`. -/
def genExpRound (logTable : Nat → Nat) (result : Nat → Nat) (i : Nat) : Nat → Nat :=
  let log := logTable i
  Function.update (Function.update result log i) (log + fieldSize - 1) i

def genExpTable (logTable : Nat → Nat) : Nat → Nat :=
  (List.range' 1 (fieldSize - 1)).foldl (genExpRound logTable) fun _ => 0

def multiply (logTable expTable : Nat → Nat) (a b : Nat) : Nat :=
  if a = 0 ∨ b = 0 then 0 else expTable (logTable a + logTable b)

def genInvTable (logTable expTable : Nat → Nat) (i : Nat) : Nat :=
  if i = 0 then 0 else expTable (fieldSize - logTable i - 1)

def logTable : Nat → Nat := genLogTable generatingPolynomial

def expTable : Nat → Nat := genExpTable logTable

def invTable : Nat → Nat := genInvTable logTable expTable

def mulTable : Nat → Nat → Nat := multiply logTable expTable

/-! ## The operations -/

namespace Galois

def add (a b : Gf) : Gf := ⟨a.bits ^^^ b.bits⟩

def mul (a b : Gf) : Gf := .ofNat (mulTable a.toNat b.toNat)

def div (a b : Gf) : Option Gf :=
  if b = 0 then none
  else if a = 0 then some 0
  else if a = 1 then some (.ofNat (invTable b.toNat))
  else
    let logA := logTable a.toNat
    let logB := logTable b.toNat
    let logResult := if logA < logB then logA + 255 - logB else logA - logB
    some (.ofNat (expTable logResult))

/-- The loop of the source takes 255 off the logarithm until it is below 255. -/
def exp (a : Gf) (n : Nat) : Gf :=
  if n = 0 then 1
  else if a = 0 then 0
  else .ofNat (expTable (logTable a.toNat * n % 255))

end Galois

/-! ## The powers of 2 -/

/-- The product with the element 2. -/
def double (a : Gf) : Gf := ⟨(a.bits <<< 1) ^^^ (if a.bits.msb then 29#8 else 0#8)⟩

namespace Gf

theorem toNat_lt (a : Gf) : a.toNat < 256 := a.bits.isLt

@[simp] theorem ofNat_toNat (a : Gf) : ofNat a.toNat = a := by
  cases a
  simp [ofNat, toNat]

theorem toNat_ofNat {n : Nat} (h : n < 256) : (ofNat n).toNat = n := by
  simp only [ofNat, toNat, BitVec.toNat_ofNat]
  exact Nat.mod_eq_of_lt h

theorem toNat_injective : Function.Injective toNat := by
  intro a b h
  rw [← ofNat_toNat a, h, ofNat_toNat]

theorem toNat_eq_zero {a : Gf} : a.toNat = 0 ↔ a = 0 := by
  constructor
  · intro h
    exact toNat_injective h
  · intro h
    rw [h]
    rfl

theorem toNat_pos {a : Gf} (h : a ≠ 0) : 0 < a.toNat :=
  Nat.pos_of_ne_zero fun hz => h (toNat_eq_zero.mp hz)

instance : Add Gf := ⟨Galois.add⟩
instance : Mul Gf := ⟨Galois.mul⟩
instance : Neg Gf := ⟨id⟩
instance : Inv Gf := ⟨fun a => .ofNat (invTable a.toNat)⟩

end Gf

theorem double_add (a b : Gf) : double (a + b) = double a + double b := by
  have hmsb : (a.bits ^^^ b.bits).msb = (a.bits.msb ^^ b.bits.msb) := BitVec.msb_xor
  have hred : (if a.bits.msb ^^ b.bits.msb then 29#8 else 0#8) =
      (if a.bits.msb then 29#8 else 0#8) ^^^ (if b.bits.msb then 29#8 else 0#8) := by
    cases a.bits.msb <;> cases b.bits.msb <;> rfl
  show double ⟨a.bits ^^^ b.bits⟩ = ⟨(double a).bits ^^^ (double b).bits⟩
  simp only [double, hmsb, hred, BitVec.shiftLeft_xor_distrib]
  congr 1
  ac_rfl

theorem nextPower_lt : ∀ n < 256, nextPower generatingPolynomial n = (double (.ofNat n)).toNat := by
  decide +kernel

theorem nextPower_toNat (a : Gf) : nextPower generatingPolynomial a.toNat = (double a).toNat := by
  rw [nextPower_lt _ a.toNat_lt, Gf.ofNat_toNat]

/-- The `n`-th power of 2. -/
def power (n : Nat) : Gf := double^[n] 1

theorem power_succ (n : Nat) : power (n + 1) = double (power n) :=
  Function.iterate_succ_apply' double n 1

theorem double_zero : double 0 = 0 := by decide

theorem double_ne_zero {a : Gf} (h : a ≠ 0) : double a ≠ 0 := by
  have hall : ∀ n < 256, (double (.ofNat n)).toNat = 0 → n = 0 := by decide +kernel
  intro hz
  have := hall _ a.toNat_lt
  rw [Gf.ofNat_toNat, Gf.toNat_eq_zero, Gf.toNat_eq_zero] at this
  exact h (this hz)

theorem power_ne_zero (n : Nat) : power n ≠ 0 := by
  induction n with
  | zero => decide
  | succ n ih => rw [power_succ]; exact double_ne_zero ih

theorem power_period : power 255 = 1 := by decide +kernel

theorem power_add_period (n : Nat) : power (n + 255) = power n := by
  unfold power
  rw [Function.iterate_add_apply]
  exact congrArg _ power_period

theorem double_injective : Function.Injective double := by
  intro a b h
  by_contra hne
  have hsum : a + b ≠ 0 := by
    intro hz
    apply hne
    cases a; cases b
    have hx := congrArg Gf.bits hz
    exact congrArg Gf.mk (BitVec.xor_eq_zero_iff.mp hx)
  apply double_ne_zero hsum
  rw [double_add, h]
  exact congrArg Gf.mk (BitVec.xor_self)

/-- The order of 2 is 255: it divides 255, and the smaller divisors are no periods. -/
theorem power_ne_one {n : Nat} (hpos : 0 < n) (hlt : n < 255) : power n ≠ 1 := by
  intro h
  have hgcd : Function.IsPeriodicPt double (n.gcd 255) 1 :=
    Function.IsPeriodicPt.gcd h power_period
  have hdvd : n.gcd 255 ∈ Nat.divisors 255 :=
    Nat.mem_divisors.mpr ⟨Nat.gcd_dvd_right n 255, by decide⟩
  have hle : n.gcd 255 ≤ n := Nat.gcd_le_left 255 hpos
  have hsmall : ∀ d ∈ Nat.divisors 255, d < 255 → power d ≠ 1 := by decide +kernel
  exact hsmall _ hdvd (by omega) hgcd

theorem power_injective {i j : Nat} (hi : i < 255) (hj : j < 255) (h : power i = power j) :
    i = j := by
  have aux : ∀ {i j : Nat}, i < j → j < 255 → power i ≠ power j := by
    intro i j hij hj h
    apply power_ne_one (show 0 < j - i by omega) (by omega)
    have hsplit : power j = double^[i] (power (j - i)) := by
      unfold power
      rw [← Function.iterate_add_apply, Nat.add_sub_cancel' (by omega)]
    exact (double_injective.iterate i (h.trans hsplit)).symm
  rcases Nat.lt_trichotomy i j with hij | hij | hij
  · exact (aux hij hj h).elim
  · exact hij
  · exact (aux hij hi h.symm).elim

/-- Every nonzero byte is a power of 2. -/
theorem exists_power {a : Gf} (h : a ≠ 0) : ∃ n < 255, power n = a := by
  have hsub : (Finset.range 255).image (fun n => (power n).toNat) ⊆ Finset.Ico 1 256 := by
    intro m hm
    obtain ⟨n, _, rfl⟩ := Finset.mem_image.mp hm
    exact Finset.mem_Ico.mpr ⟨Gf.toNat_pos (power_ne_zero n), (power n).toNat_lt⟩
  have hcard : ((Finset.range 255).image fun n => (power n).toNat).card = 255 := by
    rw [Finset.card_image_of_injOn, Finset.card_range]
    intro i hi j hj hij
    exact power_injective (Finset.mem_range.mp hi) (Finset.mem_range.mp hj) (Gf.toNat_injective hij)
  have heq := Finset.eq_of_subset_of_card_le hsub (by rw [hcard, Nat.card_Ico])
  have hmem : a.toNat ∈ Finset.Ico 1 256 := Finset.mem_Ico.mpr ⟨Gf.toNat_pos h, a.toNat_lt⟩
  rw [← heq] at hmem
  obtain ⟨n, hn, hpow⟩ := Finset.mem_image.mp hmem
  exact ⟨n, Finset.mem_range.mp hn, Gf.toNat_injective hpow⟩

/-! ## What the tables hold -/

theorem genLog_rounds {m : Nat} (h : m ≤ 255) :
    let s := (List.range m).foldl (genLogRound generatingPolynomial) (fun _ => 0, 1)
    s.2 = (power m).toNat ∧ ∀ j < m, s.1 (power j).toNat = j := by
  induction m with
  | zero => exact ⟨rfl, fun j hj => absurd hj (Nat.not_lt_zero j)⟩
  | succ m ih =>
      obtain ⟨hb, htable⟩ := ih (by omega)
      rw [List.range_succ, List.foldl_append]
      simp only [List.foldl_cons, List.foldl_nil, genLogRound]
      constructor
      · rw [hb, nextPower_toNat, power_succ]
      · intro j hj
        rw [hb]
        rcases Nat.lt_succ_iff_lt_or_eq.mp hj with hlt | rfl
        · rw [Function.update_of_ne, htable j hlt]
          intro heq
          have := power_injective (by omega) (by omega) (Gf.toNat_injective heq)
          omega
        · exact Function.update_self _ _ _

theorem logTable_power {n : Nat} (h : n < 255) : logTable (power n).toNat = n :=
  (genLog_rounds (Nat.le_refl 255)).2 n h

theorem power_logTable {a : Gf} (h : a ≠ 0) : power (logTable a.toNat) = a := by
  obtain ⟨n, hn, rfl⟩ := exists_power h
  rw [logTable_power hn]

theorem logTable_lt {a : Gf} (h : a ≠ 0) : logTable a.toNat < 255 := by
  obtain ⟨n, hn, rfl⟩ := exists_power h
  rwa [logTable_power hn]

/-- One round of the exponential table keeps what the earlier ones wrote. -/
theorem genExp_rounds {m : Nat} (h : m ≤ 255) : ∀ i, 1 ≤ i → i ≤ m →
    ((List.range' 1 m).foldl (genExpRound logTable) fun _ => 0) (logTable i) = i ∧
      ((List.range' 1 m).foldl (genExpRound logTable) fun _ => 0) (logTable i + 255) = i := by
  have hlog : ∀ i, 1 ≤ i → i ≤ 255 → logTable i < 255 ∧ (power (logTable i)).toNat = i := by
    intro i hpos hle
    have hi : (Gf.ofNat i).toNat = i := Gf.toNat_ofNat (by omega)
    have hne : Gf.ofNat i ≠ 0 := by
      intro hz
      rw [← Gf.toNat_eq_zero, hi] at hz
      omega
    have hlt := logTable_lt hne
    have hpower := power_logTable hne
    rw [hi] at hlt hpower
    exact ⟨hlt, by rw [hpower, hi]⟩
  induction m with
  | zero =>
      intro i hpos hle
      omega
  | succ m ih =>
      intro i hpos hle
      rw [List.range'_concat, List.foldl_append]
      simp only [List.foldl_cons, List.foldl_nil, genExpRound, Nat.one_mul]
      obtain ⟨hlt, hi⟩ := hlog i hpos (by omega)
      obtain ⟨hlt', hm⟩ := hlog (1 + m) (by omega) (by omega)
      have hsum : logTable (1 + m) + fieldSize - 1 = logTable (1 + m) + 255 := rfl
      rw [hsum]
      rcases Nat.lt_or_ge i (1 + m) with hold | hnew
      · -- another logarithm, so another place
        have hne : logTable i ≠ logTable (1 + m) := by
          intro heq
          rw [heq, hm] at hi
          omega
        obtain ⟨hlow, hhigh⟩ := ih (by omega) i hpos (by omega)
        constructor
        · rw [Function.update_of_ne (by omega), Function.update_of_ne hne, hlow]
        · rw [Function.update_of_ne (by omega), Function.update_of_ne (by omega), hhigh]
      · obtain rfl : i = 1 + m := by omega
        constructor
        · rw [Function.update_of_ne (by omega), Function.update_self]
        · rw [Function.update_self]

theorem expTable_eq {n : Nat} (h : n < 510) : expTable n = (power n).toNat := by
  -- the exponent is below the period, or the table is read in its second half
  have hlow : ∀ n < 255, expTable n = (power n).toNat ∧ expTable (n + 255) = (power n).toNat := by
    intro n hn
    have hpos := Gf.toNat_pos (power_ne_zero n)
    have hlt := (power n).toNat_lt
    have hrounds := genExp_rounds (Nat.le_refl 255) (power n).toNat hpos (by omega)
    rw [logTable_power hn] at hrounds
    exact hrounds
  rcases Nat.lt_or_ge n 255 with hn | hn
  · exact (hlow n hn).1
  · obtain ⟨m, rfl⟩ := Nat.exists_eq_add_of_le' hn
    rw [power_add_period]
    exact (hlow m (by omega)).2

theorem power_add (m n : Nat) : power (m + n) = double^[m] (power n) :=
  Function.iterate_add_apply double m n 1

/-! ## The field -/

/-- The tables as powers of 2. -/
def powers : PowerTable Gf where
  one := 1
  step := double
  period := 255
  log a := if a = 0 then 0 else logTable a.toNat
  step_add := double_add
  step_zero := double_zero
  step_log a h := by
    rw [if_neg h]
    exact power_logTable h
  step_period := power_period
  log_le a := by
    by_cases h : a = 0
    · rw [if_pos h]
      exact Nat.zero_le _
    · rw [if_neg h]
      exact (logTable_lt h).le

theorem log_powers {a : Gf} (h : a ≠ 0) : powers.log a = logTable a.toNat := if_neg h

theorem mul_eq_powers (a b : Gf) : a * b = powers.mul a b := by
  show Gf.ofNat (mulTable a.toNat b.toNat) = _
  by_cases ha : a = 0
  · rw [ha, powers.zero_mul]
    rfl
  · by_cases hb : b = 0
    · rw [hb, powers.mul_zero]
      show Gf.ofNat (if a.toNat = 0 ∨ (0 : Gf).toNat = 0 then 0 else _) = 0
      rw [if_pos (.inr rfl)]
      rfl
    · have hane : ¬ (a.toNat = 0 ∨ b.toNat = 0) := by
        rw [Gf.toNat_eq_zero, Gf.toNat_eq_zero]
        exact not_or.mpr ⟨ha, hb⟩
      have hlt := logTable_lt ha
      have hlt' := logTable_lt hb
      rw [mulTable, multiply, if_neg hane, expTable_eq (by omega), Gf.ofNat_toNat, power_add,
        power_logTable hb, powers.mul_of_ne ha, log_powers ha]
      rfl

theorem inv_eq_powers (a : Gf) : a⁻¹ = powers.inv a := by
  show Gf.ofNat (genInvTable logTable expTable a.toNat) = _
  unfold genInvTable PowerTable.inv
  by_cases ha : a = 0
  · rw [ha]
    rfl
  · have hlt := logTable_lt ha
    have hexp : fieldSize - logTable a.toNat - 1 = 255 - logTable a.toNat := by
      show 256 - _ - 1 = _
      omega
    rw [if_neg (fun h => ha (Gf.toNat_eq_zero.mp h)), if_neg ha, hexp, expTable_eq (by omega),
      Gf.ofNat_toNat, log_powers ha]
    rfl

/-- A byte is its own negative. -/
theorem add_self (a : Gf) : a + a = 0 := congrArg Gf.mk (BitVec.xor_self)

instance : Field Gf := Field.ofMinimalAxioms Gf
  (fun a b c => congrArg Gf.mk (BitVec.xor_assoc a.bits b.bits c.bits))
  (fun a => congrArg Gf.mk (BitVec.zero_xor))
  add_self
  (fun a b c => by simp only [mul_eq_powers, powers.mul_assoc])
  (fun a b => by simp only [mul_eq_powers, powers.mul_comm a b])
  (fun a => by
    rw [mul_eq_powers]
    exact powers.one_mul (by decide) a)
  (fun a ha => by
    rw [mul_eq_powers, inv_eq_powers]
    exact powers.mul_inv ha)
  (by
    rw [inv_eq_powers]
    exact if_pos rfl)
  (fun a b c => by
    simp only [mul_eq_powers]
    exact powers.mul_add a b c (by decide))
  ⟨0, 1, by decide⟩

instance : CharP Gf 2 := CharTwo.of_one_ne_zero_of_two_eq_zero one_ne_zero (by
  rw [← one_add_one_eq_two]
  exact add_self 1)

theorem add_eq_galois (a b : Gf) : Galois.add a b = a + b := rfl

theorem mul_eq_galois (a b : Gf) : Galois.mul a b = a * b := rfl

/-- The element 2. -/
def two : Gf := .ofNat 2

theorem double_eq (a : Gf) : double a = two * a := by
  have htwo : (two : Gf) ≠ 0 := by decide
  have hlog : powers.log two = 1 := by
    rw [log_powers htwo]
    exact logTable_power (n := 1) (by omega)
  rw [mul_eq_powers, powers.mul_of_ne htwo, hlog]
  rfl

theorem power_eq (n : Nat) : power n = two ^ n := by
  induction n with
  | zero => rfl
  | succ n ih => rw [power_succ, double_eq, ih, pow_succ']

/-- The table holds the powers of 2. -/
theorem expTable_pow {n : Nat} (h : n < 510) : Gf.ofNat (expTable n) = two ^ n := by
  rw [expTable_eq h, Gf.ofNat_toNat, power_eq]

theorem two_pow_period : two ^ 255 = (1 : Gf) := by
  rw [← power_eq]
  exact power_period

theorem two_ne_zero' : two ≠ 0 := by decide

/-- The powers of 2 below the period are distinct. -/
theorem two_pow_injective {i j : Nat} (hi : i < 255) (hj : j < 255) (h : two ^ i = two ^ j) :
    i = j := by
  rw [← power_eq, ← power_eq] at h
  exact power_injective hi hj h

/-- The difference of two exponents, as the source computes it. -/
theorem two_pow_sub {i j : Nat} (hj : j < 255) :
    two ^ (if i < j then i + 255 - j else i - j) * two ^ j = two ^ i := by
  rw [← pow_add]
  split
  · rw [Nat.sub_add_cancel (by omega), pow_add, two_pow_period, mul_one]
  · rw [Nat.sub_add_cancel (by omega)]

theorem inv_table_eq (a : Gf) : Gf.ofNat (invTable a.toNat) = a⁻¹ := rfl

/-- The division of the source is that of the field. -/
theorem div_eq {a b : Gf} (hb : b ≠ 0) : Galois.div a b = some (a / b) := by
  unfold Galois.div
  rw [if_neg hb]
  split
  · next ha => rw [ha, zero_div]
  · next ha =>
      split
      · next hone => rw [hone, one_div, inv_table_eq]
      · have hlt := logTable_lt ha
        have hlt' := logTable_lt hb
        refine congrArg some ?_
        show Gf.ofNat (expTable (if logTable a.toNat < logTable b.toNat then
          logTable a.toNat + 255 - logTable b.toNat else logTable a.toNat - logTable b.toNat)) = _
        rw [eq_div_iff hb, expTable_pow (by split <;> omega)]
        have ha' : two ^ logTable a.toNat = a := by rw [← power_eq, power_logTable ha]
        have hb' : two ^ logTable b.toNat = b := by rw [← power_eq, power_logTable hb]
        have hquot := two_pow_sub (i := logTable a.toNat) hlt'
        rw [ha', hb'] at hquot
        exact hquot

end OnionNetwork.Fec
