import OnionNetwork.Lib.Rounding

/-!
# Floating point in machine words

The `fpr_*` functions of the signer: binary64 numbers as words, without subnormals, infinities
and NaNs. Results are rounded to nearest, and results below `2 ^ -1022` become zero.

A `c_int` is a word in two's complement here; shifts to the right of one are of small positive
values only.
-/

namespace OnionNetwork.Falcon

open Lib

/-- `fpr`. -/
abbrev Fpr := UInt64

/-! ## The functions -/

/-- `FPR`. -/
def fpr (s e : UInt32) (m : UInt64) : Fpr :=
  let e := e + 1076
  let t := e >>> 31
  let m := m &&& (t.toUInt64 - 1)
  let t := (m >>> 54).toUInt32
  let e := e &&& -t
  let x := (s.toUInt64 <<< 63 ||| m >>> 2) + (e.toUInt64 <<< 52)
  let f := m.toUInt32 &&& 7
  x + ((0xc8 >>> f) &&& 1).toUInt64

/-- The significand of a number that is not zero. -/
def significand (x : Fpr) : UInt64 :=
  (x &&& (((1 : UInt64) <<< (52 : UInt64)) - 1)) ||| ((1 : UInt64) <<< (52 : UInt64))

/-- The exponent as it is stored. -/
def exponent (x : Fpr) : UInt32 := (x >>> 52 &&& 0x7ff).toUInt32

/-- The product of two significands without its last 50 bits, of which the last bit keeps a trace:
the significands are cut into 25 and 28 bits. -/
def mulSticky (xu yu : UInt64) : UInt64 :=
  let x0 := xu.toUInt32 &&& 0x1ffffff
  let x1 := (xu >>> 25).toUInt32
  let y0 := yu.toUInt32 &&& 0x1ffffff
  let y1 := (yu >>> 25).toUInt32
  let w := x0.toUInt64 * y0.toUInt64
  let z0 := w.toUInt32 &&& 0x1ffffff
  let z1 := (w >>> 25).toUInt32
  let w := x0.toUInt64 * y1.toUInt64
  let z1 := z1 + (w.toUInt32 &&& 0x1ffffff)
  let z2 := (w >>> 25).toUInt32
  let w := x1.toUInt64 * y0.toUInt64
  let z1 := z1 + (w.toUInt32 &&& 0x1ffffff)
  let z2 := z2 + (w >>> 25).toUInt32
  let zu := x1.toUInt64 * y1.toUInt64
  let z2 := z2 + (z1 >>> 25)
  let z1 := z1 &&& 0x1ffffff
  let zu := zu + z2.toUInt64
  zu ||| (((z0 ||| z1) + 0x1ffffff) >>> 25).toUInt64

/-- `fpr_mul`. -/
def fprMul (x y : Fpr) : Fpr :=
  let zu := mulSticky (significand x) (significand y)
  let zv := zu >>> 1 ||| zu &&& 1
  let w := zu >>> 55
  let zu := zu ^^^ ((zu ^^^ zv) &&& -w)
  let ex := exponent x
  let ey := exponent y
  let e := ex + ey - 2100 + w.toUInt32
  let s := ((x ^^^ y) >>> 63).toUInt32
  let d := ((ex + 0x7ff) &&& (ey + 0x7ff)) >>> 11
  fpr s e (zu &&& -d.toUInt64)

/-- A bit of the quotient: what is left of the first significand, and the quotient so far. -/
def divStep (yu : UInt64) (p : UInt64 × UInt64) : UInt64 × UInt64 :=
  let b := (p.1 - yu) >>> (63 : UInt64) - 1
  let xu := p.1 - (b &&& yu)
  let q := p.2 ||| b &&& 1
  (xu <<< (1 : UInt64), q <<< (1 : UInt64))

/-- `fpr_div`. -/
def fprDiv (x y : Fpr) : Fpr :=
  let p := (divStep (significand y))^[55] (significand x, 0)
  let q := p.2 ||| (p.1 ||| -p.1) >>> (63 : UInt64)
  let q2 := q >>> 1 ||| q &&& 1
  let w := q >>> 55
  let q := q ^^^ ((q ^^^ q2) &&& -w)
  let ex := exponent x
  let ey := exponent y
  let e := ex - ey - 55 + w.toUInt32
  let s := ((x ^^^ y) >>> 63).toUInt32
  let d := (ex + 0x7ff) >>> 11
  fpr (s &&& d) (e &&& -d) (q &&& -d.toUInt64)

/-! ## Numbers -/

/-- The sign bit. -/
def signBit (x : Fpr) : ℕ := x.toNat / 2 ^ 63

/-- The number without its sign. -/
def magnitude (x : Fpr) : ℚ :=
  if (exponent x).toNat = 0 then 0
  else ((2 ^ 52 + x.toNat % 2 ^ 52 : ℕ) : ℚ) * 2 ^ ((exponent x).toNat - 1075 : ℤ)

/-- A zero or a normal number. -/
structure Normal (x : Fpr) : Prop where
  finite : (exponent x).toNat ≠ 2047
  zero : (exponent x).toNat = 0 → x.toNat % 2 ^ 52 = 0

/-! ## Words -/

theorem toNat_exponent (x : Fpr) : (exponent x).toNat = x.toNat / 2 ^ 52 % 2 ^ 11 := by
  have hand : (x >>> 52 &&& 0x7ff).toNat = x.toNat / 2 ^ 52 % 2 ^ 11 := by
    rw [UInt64.toNat_and, UInt64.toNat_shiftRight, Nat.shiftRight_eq_div_pow]
    exact Nat.and_two_pow_sub_one_eq_mod _ 11
  rw [exponent, UInt64.toNat_toUInt32, hand]
  omega

theorem toNat_significand (x : Fpr) : (significand x).toNat = 2 ^ 52 + x.toNat % 2 ^ 52 := by
  have hand : (x &&& (((1 : UInt64) <<< (52 : UInt64)) - 1)).toNat = x.toNat % 2 ^ 52 := by
    rw [UInt64.toNat_and]
    exact Nat.and_two_pow_sub_one_eq_mod _ 52
  have hlt : x.toNat % 2 ^ 52 < 2 ^ 52 := Nat.mod_lt _ (by decide)
  rw [significand, UInt64.toNat_or, hand, Nat.or_comm]
  exact (Nat.two_pow_add_eq_or_of_lt hlt 1).symm

/-- A word for each of two, chosen by a bit. -/
theorem select {w : UInt64} (hw : w = 0 ∨ w = 1) (a b : UInt64) :
    a ^^^ ((a ^^^ b) &&& -w) = if w = 1 then b else a := by
  rcases hw with rfl | rfl
  · simp
  · rw [show (-1 : UInt64) = 0xffffffffffffffff from rfl, if_pos rfl]
    rw [show (a ^^^ b) &&& 0xffffffffffffffff = a ^^^ b from UInt64.and_neg_one, ← UInt64.xor_assoc,
      UInt64.xor_self, UInt64.zero_xor]

/-- A word or nothing, by a bit. -/
theorem mask {w : UInt64} (hw : w = 0 ∨ w = 1) (a : UInt64) :
    a &&& -w = if w = 1 then a else 0 := by
  rcases hw with rfl | rfl
  · simp
  · rw [show (-1 : UInt64) = 0xffffffffffffffff from rfl, if_pos rfl]
    exact UInt64.and_neg_one

/-! ## Packing -/

theorem toNat_round (m : UInt64) :
    ((0xc8 >>> (m.toUInt32 &&& 7)) &&& 1 : UInt32).toNat =
      if m.toNat % 8 = 3 ∨ m.toNat % 8 = 6 ∨ m.toNat % 8 = 7 then 1 else 0 := by
  have hlast : m.toUInt32 &&& 7 = UInt32.ofNat (m.toNat % 8) := by
    apply UInt32.toNat.inj
    rw [UInt32.toNat_and, UInt64.toNat_toUInt32, UInt32.toNat_ofNat']
    show _ % 2 ^ 32 &&& (2 ^ 3 - 1) = _
    rw [Nat.and_two_pow_sub_one_eq_mod]
    omega
  rw [hlast]
  have hlt : m.toNat % 8 < 8 := Nat.mod_lt _ (by decide)
  generalize m.toNat % 8 = r at *
  clear hlast
  revert r
  decide

theorem toNat_signed {s : UInt32} (hs : s = 0 ∨ s = 1) {n : UInt64} (hn : n.toNat < 2 ^ 63) :
    (s.toUInt64 <<< (63 : UInt64) ||| n).toNat = s.toNat * 2 ^ 63 + n.toNat := by
  have hshift : (s.toUInt64 <<< (63 : UInt64)).toNat = 2 ^ 63 * s.toNat := by
    rcases hs with rfl | rfl
    · rfl
    · rfl
  rw [UInt64.toNat_or, hshift, ← Nat.two_pow_add_eq_or_of_lt hn, Nat.mul_comm]

/-- The bits that are added to the packed number. -/
theorem fpr_of_le {s e : UInt32} {m : UInt64} (he : (e + 1076).toNat < 2 ^ 31) :
    fpr s e m = (s.toUInt64 <<< (63 : UInt64) ||| m >>> (2 : UInt64)) +
      (((e + 1076) &&& -(m >>> (54 : UInt64)).toUInt32).toUInt64 <<< (52 : UInt64)) +
        ((0xc8 >>> (m.toUInt32 &&& 7)) &&& 1 : UInt32).toUInt64 := by
  have ht : (e + 1076) >>> (31 : UInt32) = 0 := by
    apply UInt32.toNat.inj
    rw [UInt32.toNat_shiftRight, Nat.shiftRight_eq_div_pow]
    exact Nat.div_eq_of_lt he
  have hm : m &&& ((0 : UInt32).toUInt64 - 1) = m := UInt64.and_neg_one
  rw [fpr, ht, hm]

/-- **What `FPR` packs**, for an exponent in range. -/
theorem toNat_fpr {s e : UInt32} {m : UInt64} (hs : s = 0 ∨ s = 1)
    (he : (e + 1076).toNat ≤ 2045) (hlow : 2 ^ 54 ≤ m.toNat) (hhigh : m.toNat < 2 ^ 55) :
    (fpr s e m).toNat = s.toNat * 2 ^ 63 + (e + 1076).toNat * 2 ^ 52 + roundBits m.toNat := by
  have htop : (m >>> (54 : UInt64)).toUInt32 = 1 := by
    apply UInt32.toNat.inj
    rw [UInt64.toNat_toUInt32, UInt64.toNat_shiftRight, Nat.shiftRight_eq_div_pow]
    show m.toNat / 2 ^ 54 % 2 ^ 32 = 1
    omega
  have hall : (e + 1076) &&& -(1 : UInt32) = e + 1076 := UInt32.and_neg_one
  have hquarter : (m >>> (2 : UInt64)).toNat = m.toNat / 4 := by
    rw [UInt64.toNat_shiftRight, Nat.shiftRight_eq_div_pow]
    rfl
  have hexp : ((e + 1076).toUInt64 <<< (52 : UInt64)).toNat = (e + 1076).toNat * 2 ^ 52 := by
    rw [UInt64.toNat_shiftLeft, UInt32.toNat_toUInt64, Nat.shiftLeft_eq]
    exact Nat.mod_eq_of_lt (by show _ * 2 ^ 52 < 2 ^ 64; omega)
  have hsign : s.toNat ≤ 1 := by
    rcases hs with rfl | rfl <;> decide
  rw [fpr_of_le (by omega), htop, hall, UInt64.toNat_add, UInt64.toNat_add,
    toNat_signed hs (by omega), hquarter, hexp, UInt32.toNat_toUInt64, toNat_round, roundBits]
  split <;> omega

/-- Exponents below zero make zero. -/
theorem toNat_fpr_underflow {s e : UInt32} (m : UInt64) (hs : s = 0 ∨ s = 1)
    (he : 2 ^ 31 ≤ (e + 1076).toNat) : (fpr s e m).toNat = s.toNat * 2 ^ 63 := by
  have hlt := (e + 1076).toNat_lt
  have ht : (e + 1076) >>> (31 : UInt32) = 1 := by
    apply UInt32.toNat.inj
    rw [UInt32.toNat_shiftRight, Nat.shiftRight_eq_div_pow]
    show _ / 2 ^ 31 = 1
    omega
  have hm : m &&& ((1 : UInt32).toUInt64 - 1) = 0 := UInt64.and_zero
  rw [fpr, ht, hm]
  rcases hs with rfl | rfl
  · simp
  · simp

theorem toNat_fpr_zero {s : UInt32} (e : UInt32) (hs : s = 0 ∨ s = 1) :
    (fpr s e 0).toNat = s.toNat * 2 ^ 63 := by
  rw [fpr, UInt64.zero_and]
  rcases hs with rfl | rfl
  · simp
  · simp

/-! ## Rounding -/

/-- The magnitude of `z` is `v` rounded to 53 bits. -/
def Rounds (v : ℚ) (z : Fpr) : Prop := ∃ n e, Rounded 53 v n e ∧ magnitude z = n * 2 ^ e

/-- No number of 53 bits is closer. -/
theorem Rounds.closest {v : ℚ} {z : Fpr} (h : Rounds v z) {m : ℕ} (hm : m < 2 ^ 53) (k : ℤ) :
    |v - magnitude z| ≤ |v - m * 2 ^ k| := by
  obtain ⟨n, e, hrounded, hz⟩ := h
  rw [hz]
  exact hrounded.closest (by decide) hm k

/-- A packed number. -/
theorem packed {z : Fpr} {s E n : ℕ} (hz : z.toNat = s * 2 ^ 63 + E * 2 ^ 52 + n)
    (hlow : 2 ^ 52 ≤ n) (hhigh : n ≤ 2 ^ 53) (hE : E < 2045 ∨ E = 2045 ∧ n < 2 ^ 53) :
    Normal z ∧ signBit z = s ∧ magnitude z = n * 2 ^ (E - 1074 : ℤ) := by
  rcases Nat.lt_or_eq_of_le hhigh with hlt | rfl
  · have hexp : (exponent z).toNat = E + 1 := by
      rw [toNat_exponent]
      omega
    have hman : z.toNat % 2 ^ 52 = n - 2 ^ 52 := by omega
    refine ⟨⟨by omega, by omega⟩, by unfold signBit; omega, ?_⟩
    rw [magnitude, if_neg (by omega), hexp, hman, Nat.add_sub_cancel' hlow]
    congr 2
    push_cast
    ring
  · have hexp : (exponent z).toNat = E + 2 := by
      rw [toNat_exponent]
      omega
    have hman : z.toNat % 2 ^ 52 = 0 := by omega
    refine ⟨⟨by omega, by omega⟩, by unfold signBit; omega, ?_⟩
    have hsplit : ((E + 2 : ℕ) - 1075 : ℤ) = (E - 1074 : ℤ) + 1 := by
      push_cast
      ring
    rw [magnitude, if_neg (by omega), hexp, hman, hsplit, zpow_add_one₀ two_ne_zero]
    push_cast
    ring

theorem packed_zero {z : Fpr} {s : ℕ} (hz : z.toNat = s * 2 ^ 63) :
    Normal z ∧ signBit z = s ∧ magnitude z = 0 := by
  have hexp : (exponent z).toNat = 0 := by
    rw [toNat_exponent]
    omega
  refine ⟨⟨by omega, by omega⟩, by unfold signBit; omega, ?_⟩
  rw [magnitude, if_pos hexp]

/-- What is rounded to a number with the greatest exponent is smaller than this. -/
theorem max_le : ((2 ^ 54 - 1) * 2 ^ 970 : ℚ) ≤ 2 ^ (1024 : ℤ) := by
  have hsplit : (2 : ℚ) ^ (1024 : ℤ) = 2 ^ 54 * 2 ^ 970 := by
    rw [← pow_add, ← zpow_natCast]
    rfl
  rw [hsplit]
  exact mul_le_mul_of_nonneg_right (by norm_num) (pow_pos two_pos 970).le

/-- **`FPR` rounds**, where its significand keeps a trace of what is behind it. -/
theorem fpr_rounds {s e : UInt32} {m : UInt64} {v : ℚ} (hs : s = 0 ∨ s = 1)
    (hlow : 2 ^ 54 ≤ m.toNat) (hhigh : m.toNat < 2 ^ 55) (he : (e + 1076).toNat ≤ 2045)
    (hsticky : Sticky (v / 2 ^ ((e + 1076).toNat - 1076 : ℤ)) m.toNat)
    (hv : v < (2 ^ 54 - 1) * 2 ^ 970) :
    Normal (fpr s e m) ∧ signBit (fpr s e m) = s.toNat ∧ Rounds v (fpr s e m) := by
  have hz := toNat_fpr hs he hlow hhigh
  generalize (e + 1076).toNat = E at *
  have hpos : (0 : ℚ) < 2 ^ (E - 1074 : ℤ) := zpow_pos two_pos _
  -- the significand has two bits more than are kept
  have hfour : v / 2 ^ (E - 1076 : ℤ) = 4 * (v / 2 ^ (E - 1074 : ℤ)) := by
    have hsplit : (E - 1074 : ℤ) = (E - 1076 : ℤ) + 2 := by ring
    rw [hsplit, zpow_add₀ two_ne_zero]
    field_simp
    norm_num
  rw [hfour] at hsticky
  have hmin := le_of_sticky hsticky ⟨2 ^ 53, rfl⟩ hlow
  have hmax := lt_of_sticky hsticky hhigh
  push_cast at hmin hmax
  have hrounded : Rounded 53 v (roundBits m.toNat) (E - 1074) := by
    refine ⟨?_, ?_, nearestEven_of_sticky hsticky⟩
    · rw [← le_div_iff₀ hpos]
      linarith
    · rw [← div_lt_iff₀ hpos]
      linarith
  have hround : 2 ^ 52 ≤ roundBits m.toNat ∧ roundBits m.toNat ≤ 2 ^ 53 := by
    unfold roundBits
    split <;> omega
  -- the threshold keeps the largest binade from being rounded up
  have hE : E < 2045 ∨ E = 2045 ∧ roundBits m.toNat < 2 ^ 53 := by
    rcases Nat.lt_or_eq_of_le he with hlt | rfl
    · exact .inl hlt
    · refine .inr ⟨rfl, ?_⟩
      have hclose := (abs_le.mp hrounded.nearest.close).1
      have hbelow : v / 2 ^ ((2045 : ℕ) - 1074 : ℤ) < 2 ^ 53 - 1 / 2 := by
        rw [div_lt_iff₀ (zpow_pos two_pos _)]
        refine hv.trans_eq ?_
        have hsplit : (2 : ℚ) ^ ((2045 : ℕ) - 1074 : ℤ) = 2 ^ 970 * 2 := by
          rw [show ((2045 : ℕ) - 1074 : ℤ) = ((970 : ℕ) : ℤ) + 1 from rfl,
            zpow_add_one₀ two_ne_zero, zpow_natCast]
        rw [hsplit]
        generalize (2 : ℚ) ^ 970 = t
        ring
      by_contra hge
      have hcast : (2 ^ 53 : ℚ) ≤ roundBits m.toNat := by exact_mod_cast Nat.not_lt.mp hge
      linarith
  obtain ⟨hnormal, hsigned, hmagnitude⟩ := packed hz hround.1 hround.2 hE
  exact ⟨hnormal, hsigned, _, _, hrounded, hmagnitude⟩

/-- **What `FPR` makes of a number**, for every exponent that does not wrap around. -/
theorem fpr_spec {s e : UInt32} {m : UInt64} {v : ℚ} {E : ℤ} (hs : s = 0 ∨ s = 1)
    (hlow : 2 ^ 54 ≤ m.toNat) (hhigh : m.toNat < 2 ^ 55)
    (he : ((e + 1076).toNat : ℤ) = (E + 1076) % 2 ^ 32) (hE : -2 ^ 20 < E ∧ E < 2 ^ 20)
    (hsticky : Sticky (v / 2 ^ E) m.toNat) (hv : v < (2 ^ 54 - 1) * 2 ^ 970) :
    Normal (fpr s e m) ∧ signBit (fpr s e m) = s.toNat ∧
      if v < 2 ^ (-1022 : ℤ) then magnitude (fpr s e m) = 0 else Rounds v (fpr s e m) := by
  have hpos : (0 : ℚ) < 2 ^ E := zpow_pos two_pos E
  have hmin : (2 : ℚ) ^ (54 + E) ≤ v := by
    have hle := le_of_sticky hsticky ⟨2 ^ 53, rfl⟩ hlow
    rw [le_div_iff₀ hpos] at hle
    rw [zpow_add₀ two_ne_zero]
    exact_mod_cast hle
  have hmax : v < (2 : ℚ) ^ (55 + E) := by
    have hlt := lt_of_sticky hsticky hhigh
    rw [div_lt_iff₀ hpos] at hlt
    rw [zpow_add₀ two_ne_zero]
    exact_mod_cast hlt
  split
  · next hunder =>
      have hexp := (zpow_lt_zpow_iff_right₀ one_lt_two).mp (hmin.trans_lt hunder)
      exact packed_zero (toNat_fpr_underflow m hs (by omega))
  · next hover =>
      have hexp := (zpow_lt_zpow_iff_right₀ one_lt_two).mp ((not_lt.mp hover).trans_lt hmax)
      have htop := (zpow_lt_zpow_iff_right₀ one_lt_two).mp (hmin.trans_lt (hv.trans_le max_le))
      have heq : ((e + 1076).toNat : ℤ) - 1076 = E := by omega
      exact fpr_rounds hs hlow hhigh (by omega) (by rwa [heq]) hv

/-! ## Products -/

/-- The last 25 bits of a word, and the others. -/
theorem toNat_last (n : UInt64) : (n.toUInt32 &&& 0x1ffffff).toNat = n.toNat % 2 ^ 25 := by
  rw [UInt32.toNat_and, UInt64.toNat_toUInt32]
  show _ % 2 ^ 32 &&& (2 ^ 25 - 1) = _
  rw [Nat.and_two_pow_sub_one_eq_mod]
  omega

theorem toNat_first {n : UInt64} (hn : n.toNat < 2 ^ 57) :
    (n >>> (25 : UInt64)).toUInt32.toNat = n.toNat / 2 ^ 25 := by
  rw [UInt64.toNat_toUInt32, UInt64.toNat_shiftRight, Nat.shiftRight_eq_div_pow]
  show _ / 2 ^ 25 % 2 ^ 32 = _
  omega

theorem toNat_wide_mul (a b : UInt32) : (a.toUInt64 * b.toUInt64).toNat = a.toNat * b.toNat := by
  have hlt : a.toNat * b.toNat < 2 ^ 32 * 2 ^ 32 := Nat.mul_lt_mul'' a.toNat_lt b.toNat_lt
  rw [UInt64.toNat_mul, UInt32.toNat_toUInt64, UInt32.toNat_toUInt64]
  exact Nat.mod_eq_of_lt (hlt.trans_eq (pow_add 2 32 32).symm)

/-- Whether one of two parts of 25 bits is not zero. -/
theorem toNat_trace {a b : UInt32} (ha : a.toNat < 2 ^ 25) (hb : b.toNat < 2 ^ 25) :
    (((a ||| b) + 0x1ffffff) >>> (25 : UInt32)).toNat =
      if a.toNat = 0 ∧ b.toNat = 0 then 0 else 1 := by
  have hor : (a ||| b).toNat < 2 ^ 25 := by
    rw [UInt32.toNat_or]
    exact Nat.or_lt_two_pow ha hb
  have hzero : (a ||| b).toNat = 0 ↔ a.toNat = 0 ∧ b.toNat = 0 := by
    rw [UInt32.toNat_or]
    exact Nat.or_eq_zero_iff
  rw [UInt32.toNat_shiftRight, UInt32.toNat_add, Nat.shiftRight_eq_div_pow]
  show (_ + 33554431) % 2 ^ 32 / 2 ^ 25 = _
  split
  · next hboth =>
      rw [hzero.mpr hboth]
  · next hsome =>
      have hne := mt hzero.mp hsome
      omega

/-- Two parts of 25 bits and what is in front of them. -/
theorem parts (a b c d : ℕ) :
    (b * 2 ^ 25 + a) * (d * 2 ^ 25 + c) = b * d * 2 ^ 50 + (a * d + b * c) * 2 ^ 25 + a * c := by
  ring

/-- **The product of two significands**, rounded to odd. -/
theorem toNat_mulSticky {xu yu : UInt64} (hx : xu.toNat < 2 ^ 53) (hy : yu.toNat < 2 ^ 53) :
    (mulSticky xu yu).toNat =
      sticky (xu.toNat * yu.toNat / 2 ^ 50) (xu.toNat * yu.toNat % 2 ^ 50) := by
  have hx0 := toNat_last xu
  have hx1 := toNat_first (n := xu) (by omega)
  have hy0 := toNat_last yu
  have hy1 := toNat_first (n := yu) (by omega)
  rw [mulSticky]
  generalize xu.toUInt32 &&& 0x1ffffff = x0 at *
  generalize (xu >>> (25 : UInt64)).toUInt32 = x1 at *
  generalize yu.toUInt32 &&& 0x1ffffff = y0 at *
  generalize (yu >>> (25 : UInt64)).toUInt32 = y1 at *
  -- the four products of the 25-bit pieces
  have hprod : xu.toNat * yu.toNat = x1.toNat * y1.toNat * 2 ^ 50 +
      (x0.toNat * y1.toNat + x1.toNat * y0.toNat) * 2 ^ 25 + x0.toNat * y0.toNat := by
    rw [← parts, hx0, hx1, hy0, hy1, Nat.div_add_mod', Nat.div_add_mod']
  have h00 : x0.toNat * y0.toNat < 2 ^ 25 * 2 ^ 25 := Nat.mul_lt_mul'' (by omega) (by omega)
  have h01 : x0.toNat * y1.toNat < 2 ^ 25 * 2 ^ 28 := Nat.mul_lt_mul'' (by omega) (by omega)
  have h10 : x1.toNat * y0.toNat < 2 ^ 28 * 2 ^ 25 := Nat.mul_lt_mul'' (by omega) (by omega)
  have h11 : x1.toNat * y1.toNat < 2 ^ 28 * 2 ^ 28 := Nat.mul_lt_mul'' (by omega) (by omega)
  rw [← toNat_wide_mul] at h00 h01 h10 h11
  rw [← toNat_wide_mul x0 y0, ← toNat_wide_mul x0 y1, ← toNat_wide_mul x1 y0,
    ← toNat_wide_mul x1 y1] at hprod
  rw [hprod]
  clear hprod hx0 hx1 hy0 hy1 hx hy
  generalize x0.toUInt64 * y0.toUInt64 = w00 at *
  generalize x0.toUInt64 * y1.toUInt64 = w01 at *
  generalize x1.toUInt64 * y0.toUInt64 = w10 at *
  generalize x1.toUInt64 * y1.toUInt64 = w11 at *
  -- the low part, the carries into the middle, and the middle
  have hz1 : ((w00 >>> (25 : UInt64)).toUInt32 + (w01.toUInt32 &&& 0x1ffffff) +
      (w10.toUInt32 &&& 0x1ffffff)).toNat =
        w00.toNat / 2 ^ 25 + w01.toNat % 2 ^ 25 + w10.toNat % 2 ^ 25 := by
    rw [UInt32.toNat_add, UInt32.toNat_add, toNat_first (by omega), toNat_last, toNat_last]
    omega
  have hz0 := toNat_last w00
  have hz2 : ((w01 >>> (25 : UInt64)).toUInt32 + (w10 >>> (25 : UInt64)).toUInt32).toNat =
      w01.toNat / 2 ^ 25 + w10.toNat / 2 ^ 25 := by
    rw [UInt32.toNat_add, toNat_first (by omega), toNat_first (by omega)]
    omega
  generalize (w00 >>> (25 : UInt64)).toUInt32 + (w01.toUInt32 &&& 0x1ffffff) +
      (w10.toUInt32 &&& 0x1ffffff) = z1 at *
  generalize w00.toUInt32 &&& 0x1ffffff = z0 at *
  generalize (w01 >>> (25 : UInt64)).toUInt32 + (w10 >>> (25 : UInt64)).toUInt32 = z2 at *
  have hzu : (w11 + (z2 + z1 >>> (25 : UInt32)).toUInt64).toNat =
      w11.toNat + (w01.toNat / 2 ^ 25 + w10.toNat / 2 ^ 25 + z1.toNat / 2 ^ 25) := by
    rw [UInt64.toNat_add, UInt32.toNat_toUInt64, UInt32.toNat_add, UInt32.toNat_shiftRight,
      Nat.shiftRight_eq_div_pow, hz2]
    show (_ + (_ + z1.toNat / 2 ^ 25) % 2 ^ 32) % 2 ^ 64 = _
    omega
  have hlast : (z1 &&& 0x1ffffff).toNat = z1.toNat % 2 ^ 25 := by
    rw [UInt32.toNat_and]
    exact Nat.and_two_pow_sub_one_eq_mod _ 25
  have htrace := toNat_trace (a := z0) (b := z1 &&& 0x1ffffff) (by omega) (by omega)
  rw [UInt64.toNat_or, hzu, UInt32.toNat_toUInt64, htrace, hlast]
  -- what is shifted out is remembered in the last bit
  have hquot : (w11.toNat * 2 ^ 50 + (w01.toNat + w10.toNat) * 2 ^ 25 + w00.toNat) / 2 ^ 50 =
      w11.toNat + (w01.toNat / 2 ^ 25 + w10.toNat / 2 ^ 25 + z1.toNat / 2 ^ 25) := by
    omega
  have hrest : (w11.toNat * 2 ^ 50 + (w01.toNat + w10.toNat) * 2 ^ 25 + w00.toNat) % 2 ^ 50 =
      z1.toNat % 2 ^ 25 * 2 ^ 25 + z0.toNat := by
    omega
  rw [hquot, hrest, sticky]
  congr 1
  split_ifs <;> omega

/-- What is packed: one more bit is cut off where there is one too many. -/
theorem toNat_normalize {zu : UInt64} (hlow : 2 ^ 54 ≤ zu.toNat) (hhigh : zu.toNat < 2 ^ 56) :
    (zu ^^^ ((zu ^^^ (zu >>> (1 : UInt64) ||| zu &&& 1)) &&& -(zu >>> (55 : UInt64)))).toNat =
        sticky (zu.toNat / 2 ^ (zu.toNat / 2 ^ 55)) (zu.toNat % 2 ^ (zu.toNat / 2 ^ 55)) ∧
      (zu >>> (55 : UInt64)).toNat = zu.toNat / 2 ^ 55 := by
  have hw : (zu >>> (55 : UInt64)).toNat = zu.toNat / 2 ^ 55 := by
    rw [UInt64.toNat_shiftRight, Nat.shiftRight_eq_div_pow]
    rfl
  refine ⟨?_, hw⟩
  rcases (show zu.toNat / 2 ^ 55 = 0 ∨ zu.toNat / 2 ^ 55 = 1 by omega) with h | h
  · have hbit : zu >>> (55 : UInt64) = 0 := UInt64.toNat.inj (hw.trans h)
    rw [hbit, select (.inl rfl), if_neg (by decide), h, pow_zero, Nat.div_one, Nat.mod_one,
      sticky_zero]
  · have hbit : zu >>> (55 : UInt64) = 1 := UInt64.toNat.inj (hw.trans h)
    have hhalf : (zu >>> (1 : UInt64)).toNat = zu.toNat / 2 := by
      rw [UInt64.toNat_shiftRight, Nat.shiftRight_eq_div_pow]
      rfl
    have hlast : (zu &&& 1).toNat = zu.toNat % 2 := by
      rw [UInt64.toNat_and]
      exact Nat.and_one_is_mod _
    rw [hbit, select (.inr rfl), if_pos rfl, h, pow_one, UInt64.toNat_or, hhalf, hlast, sticky]
    congr 1
    split_ifs <;> omega

theorem normalize_bounds {q : ℕ} (hlow : 2 ^ 54 ≤ q) (hhigh : q < 2 ^ 56) :
    2 ^ 54 ≤ sticky (q / 2 ^ (q / 2 ^ 55)) (q % 2 ^ (q / 2 ^ 55)) ∧
      sticky (q / 2 ^ (q / 2 ^ 55)) (q % 2 ^ (q / 2 ^ 55)) < 2 ^ 55 := by
  have hbounds := sticky_bounds (q / 2 ^ (q / 2 ^ 55)) (q % 2 ^ (q / 2 ^ 55))
  rcases (show q / 2 ^ 55 = 0 ∨ q / 2 ^ 55 = 1 by omega) with h | h
  · rw [h] at hbounds ⊢
    omega
  · rw [h] at hbounds ⊢
    omega

theorem signBit_xor (x y : Fpr) :
    (((x ^^^ y) >>> (63 : UInt64)).toUInt32 = 0 ∨ ((x ^^^ y) >>> (63 : UInt64)).toUInt32 = 1) ∧
      ((x ^^^ y) >>> (63 : UInt64)).toUInt32.toNat = (signBit x + signBit y) % 2 := by
  have htop : ((x ^^^ y) >>> (63 : UInt64)).toUInt32.toNat = (signBit x + signBit y) % 2 := by
    have hx := x.toNat_lt
    have hy := y.toNat_lt
    rw [UInt64.toNat_toUInt32, UInt64.toNat_shiftRight, UInt64.toNat_xor, Nat.shiftRight_eq_div_pow]
    show (x.toNat ^^^ y.toNat) / 2 ^ 63 % 2 ^ 32 = _
    rw [Nat.xor_div_two_pow, signBit, signBit]
    have hxs : x.toNat / 2 ^ 63 = 0 ∨ x.toNat / 2 ^ 63 = 1 := by omega
    have hys : y.toNat / 2 ^ 63 = 0 ∨ y.toNat / 2 ^ 63 = 1 := by omega
    rcases hxs with hxs | hxs <;> rcases hys with hys | hys <;> rw [hxs, hys] <;> rfl
  refine ⟨?_, htop⟩
  rcases Nat.mod_two_eq_zero_or_one (signBit x + signBit y) with h | h
  · exact .inl (UInt32.toNat.inj (htop.trans h))
  · exact .inr (UInt32.toNat.inj (htop.trans h))

/-- Whether a number is there. -/
theorem toNat_there {e : UInt32} (he : e.toNat < 2 ^ 11) :
    (e + 0x7ff).toNat / 2 ^ 11 = if e.toNat = 0 then 0 else 1 := by
  rw [UInt32.toNat_add]
  show (_ + 2047) % 2 ^ 32 / 2 ^ 11 = _
  split <;> omega

/-- Whether both numbers are there. -/
theorem both_bits {ex ey : UInt32} (hx : ex.toNat < 2 ^ 11) (hy : ey.toNat < 2 ^ 11) :
    (((ex + 0x7ff) &&& (ey + 0x7ff)) >>> (11 : UInt32)).toUInt64 =
      if ex.toNat = 0 ∨ ey.toNat = 0 then 0 else 1 := by
  apply UInt64.toNat.inj
  rw [UInt32.toNat_toUInt64, UInt32.toNat_shiftRight, UInt32.toNat_and, Nat.shiftRight_eq_div_pow]
  show ((ex + 0x7ff).toNat &&& (ey + 0x7ff).toNat) / 2 ^ 11 = _
  rw [Nat.and_div_two_pow, toNat_there hx, toNat_there hy]
  split_ifs <;> first | rfl | omega

/-! ### The product -/

section Product

variable {x y : Fpr}

theorem exponent_lt (x : Fpr) : (exponent x).toNat < 2 ^ 11 := by
  rw [toNat_exponent]
  exact Nat.mod_lt _ (by decide)

/-- The product of the significands. -/
def significands (x y : Fpr) : ℕ := (significand x).toNat * (significand y).toNat

theorem significands_bounds (x y : Fpr) :
    2 ^ 104 ≤ significands x y ∧ significands x y < 2 ^ 106 := by
  have hx := toNat_significand x
  have hy := toNat_significand y
  have hxlt := Nat.mod_lt x.toNat (show 0 < 2 ^ 52 by decide)
  have hylt := Nat.mod_lt y.toNat (show 0 < 2 ^ 52 by decide)
  constructor
  · calc 2 ^ 104 = 2 ^ 52 * 2 ^ 52 := by norm_num
      _ ≤ significands x y := Nat.mul_le_mul (by omega) (by omega)
  · calc significands x y < 2 ^ 53 * 2 ^ 53 := Nat.mul_lt_mul'' (by omega) (by omega)
      _ = 2 ^ 106 := by norm_num

theorem magnitude_mul (hx : (exponent x).toNat ≠ 0) (hy : (exponent y).toNat ≠ 0) :
    magnitude x * magnitude y =
      significands x y * 2 ^ ((exponent x).toNat + (exponent y).toNat - 2150 : ℤ) := by
  have hsplit : ((exponent x).toNat + (exponent y).toNat - 2150 : ℤ) =
      ((exponent x).toNat - 1075 : ℤ) + ((exponent y).toNat - 1075 : ℤ) := by ring
  rw [magnitude, if_neg hx, magnitude, if_neg hy, significands, toNat_significand,
    toNat_significand, hsplit, zpow_add₀ two_ne_zero]
  push_cast
  ring

/-- Nothing is packed for a product with zero. -/
theorem fprMul_zero (h : (exponent x).toNat = 0 ∨ (exponent y).toNat = 0) :
    (fprMul x y).toNat = (signBit x + signBit y) % 2 * 2 ^ 63 := by
  obtain ⟨hbit, hsign⟩ := signBit_xor x y
  rw [fprMul, both_bits (exponent_lt x) (exponent_lt y), if_pos h, mask (.inl rfl),
    if_neg (by decide), toNat_fpr_zero _ hbit, hsign]

/-- What is packed otherwise. -/
theorem fprMul_eq (hx : (exponent x).toNat ≠ 0) (hy : (exponent y).toNat ≠ 0) :
    ∃ (s e : UInt32) (m : UInt64), fprMul x y = fpr s e m ∧ (s = 0 ∨ s = 1) ∧
      s.toNat = (signBit x + signBit y) % 2 ∧
      ((e + 1076).toNat : ℤ) = ((exponent x).toNat + (exponent y).toNat - 2100 +
        (significands x y / 2 ^ 105 : ℕ) + 1076 : ℤ) % 2 ^ 32 ∧
      Sticky ((significands x y : ℚ) / 2 ^ (50 + significands x y / 2 ^ 105)) m.toNat ∧
      2 ^ 54 ≤ m.toNat ∧ m.toNat < 2 ^ 55 := by
  obtain ⟨hbit, hsign⟩ := signBit_xor x y
  obtain ⟨hlow, hhigh⟩ := significands_bounds x y
  have hxs := Nat.mod_lt x.toNat (show 0 < 2 ^ 52 by decide)
  have hys := Nat.mod_lt y.toNat (show 0 < 2 ^ 52 by decide)
  have hzu : (mulSticky (significand x) (significand y)).toNat =
      sticky (significands x y / 2 ^ 50) (significands x y % 2 ^ 50) :=
    toNat_mulSticky (by rw [toNat_significand]; omega) (by rw [toNat_significand]; omega)
  -- of the product of at most 106 bits the lowest 50 become one sticky bit
  have hsticky : Sticky ((significands x y : ℚ) / 2 ^ 50)
      (mulSticky (significand x) (significand y)).toNat := by
    rw [hzu]
    exact sticky_shift (.inl rfl) 50
  have hbounds := sticky_bounds (significands x y / 2 ^ 50) (significands x y % 2 ^ 50)
  rw [← hzu] at hbounds
  have htop : (mulSticky (significand x) (significand y)).toNat / 2 ^ 55 =
      significands x y / 2 ^ 105 := by omega
  obtain ⟨hm, hw⟩ := toNat_normalize
    (show 2 ^ 54 ≤ (mulSticky (significand x) (significand y)).toNat by omega) (by omega)
  have hmbounds := normalize_bounds
    (show 2 ^ 54 ≤ (mulSticky (significand x) (significand y)).toNat by omega) (by omega)
  rw [htop] at hm hw hmbounds
  refine ⟨_, _, _, rfl, hbit, hsign, ?_, ?_⟩
  · have hex := exponent_lt x
    have hey := exponent_lt y
    have h2100 : (2100 : UInt32).toNat = 2100 := rfl
    have h1076 : (1076 : UInt32).toNat = 1076 := rfl
    rw [UInt32.toNat_add, UInt32.toNat_add, UInt32.toNat_sub, UInt32.toNat_add,
      UInt64.toNat_toUInt32, hw, h2100, h1076]
    omega
  · rw [both_bits (exponent_lt x) (exponent_lt y), if_neg (by simp [hx, hy]), mask (.inr rfl),
      if_pos rfl, hm]
    refine ⟨?_, hmbounds⟩
    rw [pow_add, ← div_div]
    exact sticky_shift hsticky _

/-- **The product is packed.** -/
theorem fprMul_spec (hv : magnitude x * magnitude y < (2 ^ 54 - 1) * 2 ^ 970) :
    Normal (fprMul x y) ∧ signBit (fprMul x y) = (signBit x + signBit y) % 2 ∧
      if magnitude x * magnitude y < 2 ^ (-1022 : ℤ) then magnitude (fprMul x y) = 0
      else Rounds (magnitude x * magnitude y) (fprMul x y) := by
  by_cases hzero : (exponent x).toNat = 0 ∨ (exponent y).toNat = 0
  · obtain ⟨hnormal, hsign, hmagnitude⟩ := packed_zero (fprMul_zero hzero)
    have hprod : magnitude x * magnitude y = 0 := by
      rcases hzero with h | h
      · rw [magnitude, if_pos h, zero_mul]
      · rw [magnitude, magnitude, if_pos h, mul_zero]
    rw [hprod, if_pos (zpow_pos two_pos _)]
    exact ⟨hnormal, hsign, hmagnitude⟩
  · obtain ⟨hx, hy⟩ := not_or.mp hzero
    obtain ⟨s, e, m, hmul, hs, hsign, he, hsticky, hlow, hhigh⟩ := fprMul_eq hx hy
    have hex := exponent_lt x
    have hey := exponent_lt y
    have hw := (significands_bounds x y).2
    have hexp : ((exponent x).toNat + (exponent y).toNat - 2150 : ℤ) -
        ((exponent x).toNat + (exponent y).toNat - 2100 + (significands x y / 2 ^ 105 : ℕ)) =
          -((50 + significands x y / 2 ^ 105 : ℕ) : ℤ) := by
      push_cast
      ring
    have hscaled : magnitude x * magnitude y / 2 ^ ((exponent x).toNat + (exponent y).toNat -
        2100 + (significands x y / 2 ^ 105 : ℕ) : ℤ) =
          (significands x y : ℚ) / 2 ^ (50 + significands x y / 2 ^ 105) := by
      rw [magnitude_mul hx hy, mul_div_assoc, ← zpow_sub₀ two_ne_zero, hexp, zpow_neg,
        zpow_natCast, div_eq_mul_inv]
    rw [hmul, ← hsign]
    exact fpr_spec hs hlow hhigh he (by omega) (hscaled ▸ hsticky) hv

end Product

/-! ## Quotients -/

/-- One step of the division. -/
theorem divStep_spec {yu xu q : UInt64} (hyu : yu.toNat < 2 ^ 53)
    (hxu : xu.toNat < 2 * yu.toNat) (hq : q.toNat < 2 ^ 60) (heven : q.toNat % 2 = 0) :
    let c := if yu.toNat ≤ xu.toNat then 1 else 0
    (divStep yu (xu, q)).1.toNat = 2 * (xu.toNat - c * yu.toNat) ∧
      (divStep yu (xu, q)).2.toNat = 2 * (q.toNat + c) := by
  have hsub : (xu - yu).toNat = (2 ^ 64 - yu.toNat + xu.toNat) % 2 ^ 64 := UInt64.toNat_sub xu yu
  -- the top bit of the difference is its sign: both words are below 2^54
  have htop : ((xu - yu) >>> (63 : UInt64)).toNat = (xu - yu).toNat / 2 ^ 63 := by
    rw [UInt64.toNat_shiftRight, Nat.shiftRight_eq_div_pow]
    rfl
  have hdouble {n : UInt64} (hn : n.toNat < 2 ^ 63) : (n <<< (1 : UInt64)).toNat = 2 * n.toNat := by
    rw [UInt64.toNat_shiftLeft, Nat.shiftLeft_eq]
    show n.toNat * 2 ^ 1 % 2 ^ 64 = _
    omega
  rw [divStep]
  by_cases hle : yu.toNat ≤ xu.toNat
  · have hbit : (xu - yu) >>> (63 : UInt64) = 0 := by
      apply UInt64.toNat.inj
      rw [htop, hsub]
      show _ = 0
      omega
    have hand (n : UInt64) : (0 - 1 : UInt64) &&& n = n := UInt64.neg_one_and
    have hor : (q ||| 1).toNat = q.toNat + 1 := by
      rw [UInt64.toNat_or]
      have hhalf : (q.toNat ||| 1) / 2 = q.toNat / 2 := by simp [Nat.or_div_two]
      have hlast : (q.toNat ||| 1) % 2 = 1 := by simp [Nat.or_mod_two_eq_one]
      show q.toNat ||| 1 = _
      omega
    have hrest : (xu - yu).toNat = xu.toNat - yu.toNat := by omega
    dsimp only
    rw [hbit, hand, hand, if_pos hle, hdouble (by omega), hdouble (by omega), hrest, hor]
    omega
  · have hbit : (xu - yu) >>> (63 : UInt64) = 1 := by
      apply UInt64.toNat.inj
      rw [htop, hsub]
      show _ = 1
      omega
    have hand (n : UInt64) : (1 - 1 : UInt64) &&& n = 0 := UInt64.zero_and
    dsimp only
    rw [hbit, hand, hand, if_neg hle, UInt64.sub_zero, UInt64.or_zero, hdouble (by omega),
      hdouble (by omega)]
    omega

/-- What holds after `i` steps. -/
structure Divided (xu yu : ℕ) (i : ℕ) (p : UInt64 × UInt64) : Prop where
  exact : 2 ^ i * xu = p.2.toNat * yu + p.1.toNat
  rest : p.1.toNat < 2 * yu
  even : p.2.toNat % 2 = 0

theorem Divided.lt {xu yu i : ℕ} {p : UInt64 × UInt64} (h : Divided xu yu i p)
    (hxu : xu < 2 * yu) : p.2.toNat < 2 ^ (i + 1) := by
  have hlt : p.2.toNat * yu < 2 ^ (i + 1) * yu := by
    calc p.2.toNat * yu ≤ 2 ^ i * xu := h.exact ▸ Nat.le_add_right _ _
      _ < 2 ^ i * (2 * yu) := Nat.mul_lt_mul_of_pos_left hxu (Nat.two_pow_pos i)
      _ = 2 ^ (i + 1) * yu := by ring
  exact Nat.lt_of_mul_lt_mul_right hlt

theorem divided_iterate {xu yu : UInt64} (hyu : yu.toNat < 2 ^ 53) (hxu : xu.toNat < 2 * yu.toNat)
    {i : ℕ} (hi : i ≤ 55) : Divided xu.toNat yu.toNat i ((divStep yu)^[i] (xu, 0)) := by
  induction i with
  | zero => exact ⟨by simp, hxu, rfl⟩
  | succ i ih =>
      have h := ih (Nat.le_of_succ_le hi)
      rw [Function.iterate_succ_apply']
      generalize (divStep yu)^[i] (xu, 0) = p at *
      have hq : p.2.toNat < 2 ^ 60 :=
        (h.lt hxu).trans_le (Nat.pow_le_pow_right (by decide) (by omega))
      obtain ⟨hrest, hquot⟩ := divStep_spec hyu h.rest hq h.even
      have hexact := h.exact
      have hbelow := h.rest
      refine ⟨?_, ?_, ?_⟩
      · rw [hrest, hquot, pow_succ, Nat.mul_comm (2 ^ i) 2, Nat.mul_assoc, hexact]
        split
        · next hle =>
            rw [Nat.one_mul, Nat.mul_sub]
            have hmul : 2 * (p.2.toNat + 1) * yu.toNat =
                2 * (p.2.toNat * yu.toNat) + 2 * yu.toNat := by ring
            omega
        · next hgt =>
            have hmul : 2 * (p.2.toNat + 0) * yu.toNat = 2 * (p.2.toNat * yu.toNat) := by ring
            omega
      · rw [hrest]
        split <;> omega
      · rw [hquot]
        omega

/-- Whether a word is not zero. -/
theorem toNat_nonzero {n : UInt64} (hn : n.toNat < 2 ^ 63) :
    ((n ||| -n) >>> (63 : UInt64)).toNat = if n.toNat = 0 then 0 else 1 := by
  have hneg : (-n).toNat = (2 ^ 64 - n.toNat) % 2 ^ 64 := UInt64.toNat_neg n
  rw [UInt64.toNat_shiftRight, UInt64.toNat_or, Nat.shiftRight_eq_div_pow]
  show (n.toNat ||| (-n).toNat) / 2 ^ 63 = _
  rw [Nat.or_div_two_pow, hneg]
  split
  · next hzero =>
      rw [hzero]
      rfl
  · next hpos =>
      have hfirst : n.toNat / 2 ^ 63 = 0 := by omega
      have hsecond : (2 ^ 64 - n.toNat) % 2 ^ 64 / 2 ^ 63 = 1 := by omega
      rw [hfirst, hsecond]
      rfl

/-- **The quotient of two significands**, with a trace of the rest. -/
theorem sticky_quotient {xu yu : UInt64} (hx : 2 ^ 52 ≤ xu.toNat ∧ xu.toNat < 2 ^ 53)
    (hy : 2 ^ 52 ≤ yu.toNat ∧ yu.toNat < 2 ^ 53) {p : UInt64 × UInt64}
    (h : Divided xu.toNat yu.toNat 55 p) :
    Sticky ((2 ^ 55 * xu.toNat : ℚ) / yu.toNat)
        (p.2 ||| (p.1 ||| -p.1) >>> (63 : UInt64)).toNat ∧
      2 ^ 54 ≤ (p.2 ||| (p.1 ||| -p.1) >>> (63 : UInt64)).toNat ∧
        (p.2 ||| (p.1 ||| -p.1) >>> (63 : UInt64)).toNat < 2 ^ 56 := by
  have hrest := h.rest
  have heven := h.even
  have hq : (p.2 ||| (p.1 ||| -p.1) >>> (63 : UInt64)).toNat = sticky p.2.toNat p.1.toNat := by
    rw [UInt64.toNat_or, toNat_nonzero (by omega), sticky]
  have hpos : (0 : ℚ) < yu.toNat := by exact_mod_cast (show 0 < yu.toNat by omega)
  have hexact : (2 ^ 55 * xu.toNat : ℚ) = p.2.toNat * yu.toNat + p.1.toNat := by
    exact_mod_cast h.exact
  have hlow : 2 ^ 54 ≤ p.2.toNat := by
    have hlt : 2 ^ 54 * yu.toNat < (p.2.toNat + 2) * yu.toNat := by
      have hsplit : (p.2.toNat + 2) * yu.toNat = p.2.toNat * yu.toNat + 2 * yu.toNat := by ring
      have := h.exact
      omega
    have hlt' := Nat.lt_of_mul_lt_mul_right hlt
    omega
  have hhigh := h.lt (by omega)
  have hbounds := sticky_bounds p.2.toNat p.1.toNat
  rw [hq]
  refine ⟨?_, by omega, by omega⟩
  by_cases hzero : p.1.toNat = 0
  · rw [hzero, sticky_zero]
    refine .inl ?_
    rw [hexact, hzero, Nat.cast_zero, add_zero, mul_div_cancel_right₀ _ hpos.ne']
  · have hrest' : (p.1.toNat : ℚ) < 2 * yu.toNat := by exact_mod_cast hrest
    have hsome : (0 : ℚ) < p.1.toNat := by exact_mod_cast Nat.pos_of_ne_zero hzero
    refine sticky_of_even (Nat.even_iff.mpr heven) ?_ ?_ hzero
    · rw [lt_div_iff₀ hpos, hexact]
      linarith
    · rw [div_lt_iff₀ hpos, hexact]
      linarith

section Quotient

variable {x y : Fpr}

/-- The flag of the dividend. -/
theorem there_cases (x : Fpr) :
    ((exponent x).toNat = 0 ∧ (exponent x + 0x7ff) >>> (11 : UInt32) = 0) ∨
      ((exponent x).toNat ≠ 0 ∧ (exponent x + 0x7ff) >>> (11 : UInt32) = 1) := by
  have hshift : ((exponent x + 0x7ff) >>> (11 : UInt32)).toNat =
      if (exponent x).toNat = 0 then 0 else 1 := by
    rw [UInt32.toNat_shiftRight, Nat.shiftRight_eq_div_pow]
    exact toNat_there (exponent_lt x)
  by_cases hzero : (exponent x).toNat = 0
  · rw [if_pos hzero] at hshift
    exact .inl ⟨hzero, UInt32.toNat.inj hshift⟩
  · rw [if_neg hzero] at hshift
    exact .inr ⟨hzero, UInt32.toNat.inj hshift⟩

/-- Zero is divided without a sign. -/
theorem fprDiv_zero (hx : (exponent x).toNat = 0) : (fprDiv x y).toNat = 0 := by
  obtain ⟨-, hflag⟩ | ⟨hne, -⟩ := there_cases x
  · have hand (n : UInt64) : n &&& -(0 : UInt32).toUInt64 = 0 := UInt64.and_zero
    rw [fprDiv, hflag, hand, UInt32.and_zero]
    exact toNat_fpr_zero _ (.inl rfl)
  · exact absurd hx hne

theorem magnitude_div (hx : (exponent x).toNat ≠ 0) (hy : (exponent y).toNat ≠ 0) :
    magnitude x / magnitude y = ((significand x).toNat : ℚ) / (significand y).toNat *
      2 ^ ((exponent x).toNat - (exponent y).toNat : ℤ) := by
  have hsplit : ((exponent x).toNat - (exponent y).toNat : ℤ) =
      ((exponent x).toNat - 1075 : ℤ) - ((exponent y).toNat - 1075 : ℤ) := by ring
  rw [magnitude, if_neg hx, magnitude, if_neg hy, toNat_significand, toNat_significand, hsplit,
    mul_div_mul_comm, ← zpow_sub₀ two_ne_zero]

/-- **What is packed for a quotient.** -/
theorem fprDiv_eq (hx : (exponent x).toNat ≠ 0) :
    ∃ (s e : UInt32) (m : UInt64) (w : ℕ), fprDiv x y = fpr s e m ∧ (s = 0 ∨ s = 1) ∧
      s.toNat = (signBit x + signBit y) % 2 ∧ w ≤ 1 ∧
      ((e + 1076).toNat : ℤ) =
        ((exponent x).toNat - (exponent y).toNat - 55 + w + 1076 : ℤ) % 2 ^ 32 ∧
      Sticky ((2 ^ 55 * (significand x).toNat : ℚ) / (significand y).toNat / 2 ^ w) m.toNat ∧
      2 ^ 54 ≤ m.toNat ∧ m.toNat < 2 ^ 55 := by
  obtain ⟨hbit, hsign⟩ := signBit_xor x y
  have hxs := Nat.mod_lt x.toNat (show 0 < 2 ^ 52 by decide)
  have hys := Nat.mod_lt y.toNat (show 0 < 2 ^ 52 by decide)
  have hxu := toNat_significand x
  have hyu := toNat_significand y
  -- 55 rounds leave the quotient and a remainder below the divisor
  have hdivided : Divided (significand x).toNat (significand y).toNat 55
      ((divStep (significand y))^[55] (significand x, 0)) :=
    divided_iterate (by omega) (by omega) le_rfl
  obtain ⟨hsticky, hlow, hhigh⟩ := sticky_quotient (by omega) (by omega) hdivided
  obtain ⟨hzero, -⟩ | ⟨-, hflag⟩ := there_cases x
  · exact absurd hzero hx
  rw [fprDiv, hflag]
  generalize (divStep (significand y))^[55] (significand x, 0) = p at *
  generalize p.2 ||| (p.1 ||| -p.1) >>> (63 : UInt64) = q at *
  -- the quotient has 55 or 56 bits, so at most one is shifted out
  obtain ⟨hm, hw⟩ := toNat_normalize hlow hhigh
  have hall (n : UInt32) : n &&& -(1 : UInt32) = n := UInt32.and_neg_one
  have hone : (((x ^^^ y) >>> (63 : UInt64)).toUInt32 &&& 1) =
      ((x ^^^ y) >>> (63 : UInt64)).toUInt32 := by
    rcases hbit with h | h
    · rw [h]
      rfl
    · rw [h]
      rfl
  refine ⟨_, _, _, q.toNat / 2 ^ 55, rfl, by rwa [hone], by rwa [hone], by omega, ?_, ?_⟩
  · have hex := exponent_lt x
    have hey := exponent_lt y
    have h55 : (55 : UInt32).toNat = 55 := rfl
    have h1076 : (1076 : UInt32).toNat = 1076 := rfl
    rw [hall, UInt32.toNat_add, UInt32.toNat_add, UInt32.toNat_sub, UInt32.toNat_sub,
      UInt64.toNat_toUInt32, hw, h55, h1076]
    omega
  · have hkeep (n : UInt64) : n &&& -(1 : UInt32).toUInt64 = n := UInt64.and_neg_one
    rw [hkeep, hm]
    exact ⟨sticky_shift hsticky _, normalize_bounds hlow hhigh⟩

/-- **The quotient is packed.** -/
theorem fprDiv_spec (hy : (exponent y).toNat ≠ 0)
    (hv : magnitude x / magnitude y < (2 ^ 54 - 1) * 2 ^ 970) :
    Normal (fprDiv x y) ∧
      signBit (fprDiv x y) = (if (exponent x).toNat = 0 then 0 else (signBit x + signBit y) % 2) ∧
      if magnitude x / magnitude y < 2 ^ (-1022 : ℤ) then magnitude (fprDiv x y) = 0
      else Rounds (magnitude x / magnitude y) (fprDiv x y) := by
  by_cases hx : (exponent x).toNat = 0
  · obtain ⟨hnormal, hsign, hmagnitude⟩ :=
      packed_zero (s := 0) ((fprDiv_zero (y := y) hx).trans (Nat.zero_mul _).symm)
    have hquot : magnitude x / magnitude y = 0 := by
      rw [magnitude, if_pos hx, zero_div]
    rw [hquot, if_pos hx, if_pos (zpow_pos two_pos _)]
    exact ⟨hnormal, hsign, hmagnitude⟩
  · obtain ⟨s, e, m, w, hdiv, hs, hsign, hw, he, hsticky, hlow, hhigh⟩ := fprDiv_eq (y := y) hx
    have hex := exponent_lt x
    have hey := exponent_lt y
    have hscaled : magnitude x / magnitude y /
        2 ^ ((exponent x).toNat - (exponent y).toNat - 55 + w : ℤ) =
          (2 ^ 55 * (significand x).toNat : ℚ) / (significand y).toNat / 2 ^ w := by
      rw [magnitude_div hx hy]
      generalize ((exponent x).toNat - (exponent y).toNat : ℤ) = d
      have hsplit : (2 : ℚ) ^ (d - 55 + w : ℤ) = 2 ^ d / 2 ^ 55 * 2 ^ w := by
        rw [zpow_add₀ two_ne_zero, zpow_sub₀ two_ne_zero, zpow_natCast]
        rfl
      have hpos : (2 : ℚ) ^ d ≠ 0 := (zpow_pos two_pos d).ne'
      rw [hsplit]
      generalize (2 : ℚ) ^ d = t at *
      field_simp
    rw [hdiv, if_neg hx, ← hsign]
    exact fpr_spec hs hlow hhigh he (by omega) (hscaled ▸ hsticky) hv

end Quotient

end OnionNetwork.Falcon
