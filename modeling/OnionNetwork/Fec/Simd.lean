import OnionNetwork.Fec.Code

/-!
# The vector path

With the feature `simd` the build script writes two more tables, of the products with the
numbers below 16 and with their multiples by 16, and the slices are multiplied a vector at a
time: each byte is split into its halves, each half is looked up in one of the tables. The
bytes behind the last whole vector are left to the scalar loop.

`swizzled_eq`: the two products add up to the product with the byte.
-/

namespace OnionNetwork.Fec

open Lib

/-! ## The tables of halves -/

/-- One round of the inner loop of `gen_mul_table_half`, on the rows of `low` and `high`. -/
def genMulTableHalfRound (logTable expTable : Nat → Nat) (a : Nat)
    (rows : (Nat → Nat) × (Nat → Nat)) (b : Nat) : (Nat → Nat) × (Nat → Nat) :=
  let result := if ¬ (a = 0 ∨ b = 0) then expTable (logTable a + logTable b) else 0
  let low := if b &&& 0x0F = b then Function.update rows.1 b result else rows.1
  let high := if b &&& 0xF0 = b then Function.update rows.2 (b >>> 4) result else rows.2
  (low, high)

/-- The rows of `gen_mul_table_half` for `a`. -/
def genMulTableHalf (logTable expTable : Nat → Nat) (a : Nat) : (Nat → Nat) × (Nat → Nat) :=
  (List.range fieldSize).foldl (genMulTableHalfRound logTable expTable a) (fun _ => 0, fun _ => 0)

/-- `MUL_TABLE_LOW`. -/
def mulTableLow (a : Nat) : Nat → Nat := (genMulTableHalf logTable expTable a).1

/-- `MUL_TABLE_HIGH`. -/
def mulTableHigh (a : Nat) : Nat → Nat := (genMulTableHalf logTable expTable a).2

theorem result_eq_mulTable (a b : Nat) :
    (if ¬ (a = 0 ∨ b = 0) then expTable (logTable a + logTable b) else 0) = mulTable a b := by
  rw [mulTable, multiply, ite_not]

theorem low_iff : ∀ b < 256, (b &&& 0x0F = b ↔ b < 16) := by decide +kernel

theorem high_iff : ∀ b < 256, (b &&& 0xF0 = b ↔ b % 16 = 0) := by decide +kernel

/-- What the rounds have written. -/
theorem genMulTableHalf_rounds (a : Nat) {m : Nat} (hm : m ≤ 256) :
    let rows := (List.range m).foldl (genMulTableHalfRound logTable expTable a)
      (fun _ => 0, fun _ => 0)
    (∀ i < 16, i < m → rows.1 i = mulTable a i) ∧
      ∀ i < 16, 16 * i < m → rows.2 i = mulTable a (16 * i) := by
  induction m with
  | zero => exact ⟨fun i _ hi => absurd hi (Nat.not_lt_zero _),
      fun i _ hi => absurd hi (Nat.not_lt_zero _)⟩
  | succ m ih =>
      obtain ⟨hlow, hhigh⟩ := ih (by omega)
      rw [List.range_succ, List.foldl_append]
      simp only [List.foldl_cons, List.foldl_nil, genMulTableHalfRound, result_eq_mulTable,
        low_iff m (by omega), high_iff m (by omega), Nat.shiftRight_eq_div_pow]
      constructor
      · intro i hi him
        by_cases heq : i = m
        · rw [heq, if_pos (by omega), Function.update_self]
        · split
          · rw [Function.update_of_ne heq]
            exact hlow i hi (by omega)
          · exact hlow i hi (by omega)
      · intro i hi him
        by_cases heq : 16 * i = m
        · have hplace : m / 2 ^ 4 = i := by omega
          rw [if_pos (by omega), hplace, Function.update_self, heq]
        · split
          · rw [Function.update_of_ne (by omega)]
            exact hhigh i hi (by omega)
          · exact hhigh i hi (by omega)

theorem mulTableLow_eq (a : Nat) {i : Nat} (hi : i < 16) : mulTableLow a i = mulTable a i :=
  (genMulTableHalf_rounds a (Nat.le_refl 256)).1 i hi (by omega)

theorem mulTableHigh_eq (a : Nat) {i : Nat} (hi : i < 16) :
    mulTableHigh a i = mulTable a (16 * i) :=
  (genMulTableHalf_rounds a (Nat.le_refl 256)).2 i hi (by omega)

/-! ## Vectors -/

/-- The target features that the vector path is for. -/
inductive TargetFeature
  | avx2
  | ssse3
  | simd128
deriving DecidableEq

/-- `LANES`. -/
def TargetFeature.lanes : TargetFeature → Nat
  | avx2 => 32
  | ssse3 => 16
  | simd128 => 16

namespace Simd

/-- `^`. -/
def xor (a b : List Gf) : List Gf := List.zipWith Galois.add a b

/-- `v & splat(0xf)`. -/
def andMask (v : List Gf) : List Gf := v.map fun a => Gf.mk (a.bits &&& 0x0F#8)

/-- `v >> 4`. -/
def shiftRight4 (v : List Gf) : List Gf := v.map fun a => Gf.mk (a.bits.ushiftRight 4)

/-- `Simd::swizzle_dyn`: an index behind the lanes selects 0. -/
def swizzleDyn (table idxs : List Gf) : List Gf := idxs.map fun i => table.getD i.toNat 0

/-- A row of 16 bytes, as often as it fits into the lanes. -/
def ofRow (lanes : Nat) (row : Nat → Nat) : List Gf :=
  (List.replicate (lanes / 16) ((List.range 16).map fun i => Gf.ofNat (row i))).flatten

end Simd

section Slices

variable (t : TargetFeature)

/-- The body of the loop of `mul_slice_xor`. -/
def xorVector (c : Gf) (is os : List Gf) : List Gf :=
  let low := Simd.ofRow t.lanes (mulTableLow c.toNat)
  let high := Simd.ofRow t.lanes (mulTableHigh c.toNat)
  Simd.xor (Simd.xor os (Simd.swizzleDyn low (Simd.andMask is)))
    (Simd.swizzleDyn high (Simd.andMask (Simd.shiftRight4 is)))

/-- The body of the loop of `mul_slice_in_place`. -/
def inPlaceVector (c : Gf) (os : List Gf) : List Gf :=
  let low := Simd.ofRow t.lanes (mulTableLow c.toNat)
  let high := Simd.ofRow t.lanes (mulTableHigh c.toNat)
  Simd.xor (Simd.xor os (Simd.swizzleDyn low (Simd.andMask os)))
    (Simd.swizzleDyn high (Simd.andMask (Simd.shiftRight4 os)))

/-- The bytes in whole vectors. -/
def wholeVectors (l : List Gf) : Nat := l.length / t.lanes * t.lanes

/-- `mul_slice_xor_low`, with its assertion. -/
def mulSliceXorLow (c : Gf) (input out : List Gf) : Option (List Gf) :=
  if input.length = out.length then some (mulSliceXor c input out) else none

/-- `mul_slice_xor` with the feature `simd`. -/
def mulSliceXorSimd (c : Gf) (input out : List Gf) : Option (List Gf) :=
  if input.length = out.length then do
    let reminder ← mulSliceXorLow c (input.drop (wholeVectors t input))
      (out.drop (wholeVectors t out))
    some ((List.range (out.length / t.lanes)).flatMap (fun i =>
      xorVector t c (chunk t.lanes input i) (chunk t.lanes out i)) ++ reminder)
  else none

/-- `mul_slice_in_place_low`. -/
def mulSliceInPlaceLow (c : Gf) (out : List Gf) : List Gf := out.map fun o => Galois.mul c o

/-- `mul_slice_in_place` with the feature `simd`. -/
def mulSliceInPlaceSimd (c : Gf) (out : List Gf) : List Gf :=
  (List.range (out.length / t.lanes)).flatMap (fun i => inPlaceVector t c (chunk t.lanes out i)) ++
    mulSliceInPlaceLow c (out.drop (wholeVectors t out))

end Slices

/-! ## The halves of a byte -/

theorem halves (a : Gf) : Gf.ofNat (a.toNat % 16) + Gf.ofNat (16 * (a.toNat / 16)) = a := by
  have hall : ∀ n < 256, Gf.ofNat (n % 16) + Gf.ofNat (16 * (n / 16)) = Gf.ofNat n := by
    decide +kernel
  have ha := hall a.toNat a.toNat_lt
  rwa [Gf.ofNat_toNat] at ha

/-- The row of a table is found in the first lanes. -/
theorem getD_ofRow {t : TargetFeature} (row : Nat → Nat) {i : Nat} (hi : i < 16) :
    (Simd.ofRow t.lanes row).getD i 0 = Gf.ofNat (row i) := by
  have hrow : i < ((List.range 16).map fun j => Gf.ofNat (row j)).length := by simpa using hi
  obtain ⟨more, hmore⟩ : ∃ more, Simd.ofRow t.lanes row =
      ((List.range 16).map fun j => Gf.ofNat (row j)) ++ more := by
    cases t
    · exact ⟨_, rfl⟩
    · exact ⟨_, rfl⟩
    · exact ⟨_, rfl⟩
  rw [hmore, List.getD_append _ _ _ _ hrow, List.getD_eq_getElem _ _ hrow]
  simp only [List.getElem_map, List.getElem_range]

/-- **The products with the halves are the product.** -/
theorem swizzled_eq (t : TargetFeature) (c a : Gf) :
    (Simd.ofRow t.lanes (mulTableLow c.toNat)).getD (a.bits &&& 0x0F#8).toNat 0 +
      (Simd.ofRow t.lanes (mulTableHigh c.toNat)).getD ((a.bits.ushiftRight 4) &&& 0x0F#8).toNat 0 =
        c * a := by
  have hlow : (a.bits &&& 0x0F#8).toNat = a.toNat % 16 := by
    rw [BitVec.toNat_and]
    exact Nat.and_two_pow_sub_one_eq_mod a.toNat 4
  have hhigh : ((a.bits.ushiftRight 4) &&& 0x0F#8).toNat = a.toNat / 16 := by
    have hlt := a.toNat_lt
    have hshift : (a.bits.ushiftRight 4).toNat = a.toNat / 16 :=
      (BitVec.toNat_ushiftRight a.bits 4).trans (Nat.shiftRight_eq_div_pow _ _)
    rw [BitVec.toNat_and, hshift]
    show (a.toNat / 16) &&& 15 = _
    rw [Nat.and_two_pow_sub_one_eq_mod (a.toNat / 16) 4]
    exact Nat.mod_eq_of_lt (by omega)
  have hlt := a.toNat_lt
  have hmul : ∀ n < 256, Gf.ofNat (mulTable c.toNat n) = c * Gf.ofNat n := by
    intro n hn
    have htoNat := Gf.toNat_ofNat hn
    show _ = Galois.mul c (Gf.ofNat n)
    rw [Galois.mul, htoNat]
  rw [hlow, hhigh, getD_ofRow _ (Nat.mod_lt _ (by decide)), getD_ofRow _ (by omega),
    mulTableLow_eq _ (Nat.mod_lt _ (by decide)), mulTableHigh_eq _ (by omega),
    hmul _ (by omega), hmul _ (by omega), ← mul_add, halves]

end OnionNetwork.Fec
