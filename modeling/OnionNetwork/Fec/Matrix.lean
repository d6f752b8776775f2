import OnionNetwork.Fec.Galois
import OnionNetwork.Lib.Interpolation

/-!
# The matrices of the erasure code

`create_inverted_vdm` and `invert_matrix`. A matrix is kept by row and column; the source
keeps it row by row in one buffer. The share with the number `i` holds the value of a
polynomial at `point i`, and the data blocks are its values at the first points:

* `createInvertedVdm_eq`: the first function computes the coefficients of the polynomials
  that are 1 at one of these points and 0 at the others;
* `invertMatrix_exchange`: the second one, run on the coefficients that lead from the
  values at some points to the values at others, computes those that lead back. On such a
  matrix no rows are swapped.
-/

namespace OnionNetwork.Fec

open Lib Polynomial Finset

/-- A matrix, by row and column. -/
abbrev Mat := Nat → Nat → Gf

/-! ## The inverted Vandermonde matrix -/

/-- One round of the loop over the points: `c` is multiplied by one more factor. -/
def masterRound (k : Nat) (c : Nat → Gf) (i : Nat) : Nat → Gf :=
  let p := Gf.ofNat (expTable i)
  let c := (List.range' (k - 1 - (i - 1)) (i - 1)).foldl
    (fun c j => Function.update c j (c j + p * c (j + 1))) c
  Function.update c (k - 1) (c (k - 1) + p)

/-- The vector `c` of `create_inverted_vdm`. -/
def master (k : Nat) : Nat → Gf := (List.range' 1 (k - 1)).foldl (masterRound k) fun _ => 0

/-- One round of the loop over the coefficients of a row, on `b` and `t`. -/
def quotientRound (c : Nat → Gf) (p : Gf) (s : (Nat → Gf) × Gf) (i : Nat) : (Nat → Gf) × Gf :=
  let b := Function.update s.1 i (c (i + 1) + p * s.1 (i + 1))
  (b, b i + p * s.2)

/-- The rounds from the index below the given one down to 0. -/
def quotientLoop (c : Nat → Gf) (p : Gf) : Nat → (Nat → Gf) × Gf → (Nat → Gf) × Gf
  | 0, s => s
  | i + 1, s => quotientLoop c p i (quotientRound c p s i)

/-- `create_inverted_vdm`. -/
def createInvertedVdm (k : Nat) : Mat :=
  if k = 1 then fun i j => if i = 0 ∧ j = 0 then 1 else 0
  else
    let c := master k
    fun col row =>
      let index := if row ≠ 0 then Gf.ofNat (expTable row) else 0
      let (b, t) := quotientLoop c index (k - 1) (Function.update (fun _ => 0) (k - 1) 1, 1)
      Gf.ofNat (invTable t.toNat) * b col

/-! ## The inverse in place -/

/-- `matrix_swap_rows`. -/
def matrixSwapRows (mx : Mat) (a b : Nat) : Mat := fun r =>
  if r = a then mx b else if r = b then mx a else mx r

/-- The variables of `invert_matrix`. -/
structure Inversion where
  mx : Mat
  unusedRows : Nat → Bool
  swaps : List (Nat × Nat)

/-- The row of the pivot at `i`, scaled so that its inverse can take the place of the
pivot. -/
def scalePivotRow (row : Nat → Gf) (i : Nat) : Option (Nat → Gf) :=
  let c := row i
  if c ≠ 1 then (Galois.div 1 c).map fun c => fun j => c * Function.update row i 1 j
  else some row

/-- Also when the row is not scaled: its pivot is 1 then. -/
theorem scalePivotRow_eq {row : Nat → Gf} {i : Nat} (hpivot : row i ≠ 0) :
    scalePivotRow row i = some fun j => (row i)⁻¹ * Function.update row i 1 j := by
  simp only [scalePivotRow]
  split
  · rw [div_eq hpivot, Option.map_some]
    congr 1
    funext j
    rw [one_div]
  · next hone =>
      rw [not_not] at hone
      congr 1
      funext j
      rw [hone, inv_one, one_mul]
      by_cases hji : j = i
      · rw [hji, Function.update_self, hone]
      · rw [Function.update_of_ne hji]

/-- One round of the loop of `invert_matrix`. -/
def invertRound (k : Nat) (s : Inversion) (i : Nat) : Option Inversion := do
  let pivot ← (List.range k).find? fun j => s.mx j i ≠ 0 && s.unusedRows j
  let unusedRows := Function.update s.unusedRows pivot false
  let (mx, swaps) :=
    if pivot ≠ i then
      let (a, b) := (min pivot i, max pivot i)
      (matrixSwapRows s.mx a b, s.swaps ++ [(a, b)])
    else (s.mx, s.swaps)
  let pivotRow ← scalePivotRow (mx i) i
  let mx := Function.update mx i pivotRow
  if (List.range k).all fun j => j = i || pivotRow j = 0 then some ⟨mx, unusedRows, swaps⟩
  else
    -- the rows above the pivot and below it
    let mx : Mat := fun r j =>
      if r = i then pivotRow j else Function.update (mx r) i 0 j + mx r i * pivotRow j
    some ⟨mx, unusedRows, swaps⟩

/-- `invert_matrix`. -/
def invertMatrix (k : Nat) (mx : Mat) : Option Mat :=
  ((List.range k).foldlM (invertRound k) ⟨mx, fun _ => true, []⟩).map fun s =>
    s.swaps.reverse.foldl (fun mx pair => matrixSwapRows mx pair.1 pair.2) s.mx

/-! ## The points -/

/-- The point of the share with the number `i`. -/
def point (i : Nat) : Gf := if i = 0 then 0 else two ^ i

theorem point_injective {i j : Nat} (hi : i < 256) (hj : j < 256) (h : point i = point j) :
    i = j := by
  have hne : ∀ m, two ^ m ≠ (0 : Gf) := fun m => pow_ne_zero m two_ne_zero'
  unfold point at h
  split at h
  · next hi0 =>
      split at h
      · next hj0 => rw [hi0, hj0]
      · exact absurd h.symm (hne j)
  · next hi0 =>
      split at h
      · exact absurd h (hne i)
      · next hj0 =>
          -- both are a power of 2 below the period, times 2
          obtain ⟨i, rfl⟩ := Nat.exists_eq_succ_of_ne_zero hi0
          obtain ⟨j, rfl⟩ := Nat.exists_eq_succ_of_ne_zero hj0
          rw [Nat.succ_eq_add_one, Nat.succ_eq_add_one, pow_succ, pow_succ] at h
          have hij := mul_right_cancel₀ two_ne_zero' h
          rw [two_pow_injective (by omega) (by omega) hij]

theorem distinct_point {k : Nat} (hk : k ≤ 256) : Distinct k point := by
  rw [distinct_iff]
  exact fun i hi j hj h => point_injective (by omega) (by omega) h

/-- What the loops of `create_inverted_vdm` read from the table. -/
theorem expTable_point {i : Nat} (hpos : 0 < i) (hi : i < 256) :
    Gf.ofNat (expTable i) = point i := by
  rw [expTable_pow (by omega), point, if_neg hpos.ne']

/-! ## The polynomials of the points -/

/-- The product of `X - point i` over the first `m` points. -/
noncomputable abbrev nodalTo (m : Nat) : Gf[X] := Lagrange.nodal (range m) point

theorem nodalTo_succ (m : Nat) : nodalTo (m + 1) = nodalTo m * (X - C (point m)) := by
  rw [nodalTo, nodalTo, Lagrange.nodal, Lagrange.nodal, prod_range_succ]

theorem natDegree_nodalTo (m : Nat) : (nodalTo m).natDegree = m := by
  rw [nodalTo, Lagrange.natDegree_nodal, card_range]

theorem monic_nodalTo (m : Nat) : (nodalTo m).Monic := Lagrange.nodal_monic

theorem coeff_nodalTo_self (m : Nat) : (nodalTo m).coeff m = 1 := by
  have h := monic_nodalTo m
  rwa [Monic, leadingCoeff, natDegree_nodalTo] at h

/-- 0 is one of the points. -/
theorem coeff_nodalTo_zero (m : Nat) : (nodalTo (m + 1)).coeff 0 = 0 := by
  rw [coeff_zero_eq_eval_zero]
  exact Lagrange.eval_nodal_at_node (s := range (m + 1)) (v := point)
    (mem_range.mpr (Nat.succ_pos m))

/-- The inner loop of one round goes upwards, so it reads what the round found. -/
theorem masterRound_inner (c : Nat → Gf) (p : Gf) (start len : Nat) :
    (List.range' start len).foldl (fun c j => Function.update c j (c j + p * c (j + 1))) c =
      fun j => if start ≤ j ∧ j < start + len then c j + p * c (j + 1) else c j := by
  induction len with
  | zero =>
      funext j
      rw [if_neg (by omega)]
      rfl
  | succ len ih =>
      rw [List.range'_concat, List.foldl_append, ih]
      funext j
      simp only [List.foldl_cons, List.foldl_nil, Nat.one_mul]
      by_cases hj : j = start + len
      · rw [hj, Function.update_self, if_neg (by omega), if_neg (by omega), if_pos (by omega)]
      · rw [Function.update_of_ne hj]
        by_cases hin : start ≤ j ∧ j < start + len
        · rw [if_pos hin, if_pos (by omega)]
        · rw [if_neg hin, if_neg (by omega)]

/-- After `m` rounds the vector holds the product over the first points, shifted to its
end. -/
theorem master_rounds {k m : Nat} (hk : k ≤ 256) (hm : m < k) : ∀ j < k,
    ((List.range' 1 m).foldl (masterRound k) fun _ => 0) j =
      (X ^ (k - 1 - m) * nodalTo (m + 1)).coeff j := by
  induction m with
  | zero =>
      intro j hj
      have hX : nodalTo 1 = X := by
        rw [nodalTo_succ, nodalTo, Lagrange.nodal, range_zero, prod_empty, one_mul]
        simp [point]
      rw [hX, ← pow_succ, Nat.sub_zero, coeff_X_pow, if_neg (by omega)]
      rfl
  | succ m ih =>
      intro j hj
      have hold := ih (by omega)
      generalize hc : (List.range' 1 m).foldl (masterRound k) (fun _ => 0) = c at hold
      rw [List.range'_concat, List.foldl_append, hc]
      simp only [List.foldl_cons, List.foldl_nil, Nat.one_mul, masterRound]
      rw [masterRound_inner, Nat.add_sub_cancel_left, expTable_point (by omega) (by omega),
        Nat.add_comm 1 m]
      -- one more factor: the old product, and its multiple one place further down
      have hsplit : X ^ (k - 1 - (m + 1)) * nodalTo (m + 1 + 1) =
          X ^ (k - 1 - m) * nodalTo (m + 1) +
            C (point (m + 1)) * (X ^ (k - 1 - (m + 1)) * nodalTo (m + 1)) := by
        have hpow : k - 1 - m = (k - 1 - (m + 1)) + 1 := by omega
        rw [nodalTo_succ (m + 1), hpow, pow_succ, CharTwo.sub_eq_add]
        ring
      have hdown : (X ^ (k - 1 - (m + 1)) * nodalTo (m + 1)).coeff j =
          (X ^ (k - 1 - m) * nodalTo (m + 1)).coeff (j + 1) := by
        have hpow : k - 1 - m = (k - 1 - (m + 1)) + 1 := by omega
        rw [hpow, pow_succ', mul_assoc, coeff_X_mul]
      rw [hsplit, coeff_add, coeff_C_mul, hdown]
      by_cases hlast : j = k - 1
      · have htop : (X ^ (k - 1 - m) * nodalTo (m + 1)).coeff (j + 1) = 1 := by
          have hj1 : j + 1 = m + 1 + (k - 1 - m) := by omega
          rw [hj1, coeff_X_pow_mul, coeff_nodalTo_self]
        rw [htop, mul_one, hlast, Function.update_self]
        simp only
        rw [if_neg (by omega), hold _ (by omega)]
      · rw [Function.update_of_ne hlast]
        by_cases hin : k - 1 - m ≤ j
        · rw [if_pos (by omega), hold j hj, hold (j + 1) (by omega)]
        · -- below the shift there is nothing
          have hzero : (X ^ (k - 1 - m) * nodalTo (m + 1)).coeff (j + 1) = 0 := by
            rw [coeff_X_pow_mul']
            split
            · next hle =>
                have hsub : j + 1 - (k - 1 - m) = 0 := by omega
                rw [hsub, coeff_nodalTo_zero]
            · rfl
          rw [if_neg (by omega), hold j hj, hzero, mul_zero, add_zero]

theorem master_eq {k : Nat} (hk : k ≤ 256) (hpos : 0 < k) : ∀ j < k,
    master k j = (nodalTo k).coeff j := by
  intro j hj
  have h := master_rounds hk (show k - 1 < k by omega) j hj
  rwa [Nat.sub_self, pow_zero, one_mul, Nat.sub_add_cancel hpos] at h

/-- The loop divides by `X - p` and evaluates the quotient at `p`. -/
theorem quotientLoop_eq {k : Nat} {c : Nat → Gf} {p : Gf} {f : Gf[X]}
    (hc : ∀ j, 0 < j → j < k → c j = f.coeff j) (hdeg : (f /ₘ (X - C p)).natDegree < k) :
    ∀ (i : Nat) (s : (Nat → Gf) × Gf), i < k →
      (∀ j, i ≤ j → j < k → s.1 j = (f /ₘ (X - C p)).coeff j) →
      s.2 = ∑ m ∈ range (k - i), (f /ₘ (X - C p)).coeff (i + m) * p ^ m →
      (∀ j < k, (quotientLoop c p i s).1 j = (f /ₘ (X - C p)).coeff j) ∧
        (quotientLoop c p i s).2 = (f /ₘ (X - C p)).eval p := by
  intro i
  induction i with
  | zero =>
      intro s hi hb ht
      constructor
      · intro j hj
        exact hb j (Nat.zero_le j) hj
      · rw [eval_eq_sum_range' hdeg]
        simp only [Nat.zero_add, Nat.sub_zero] at ht
        exact ht
  | succ i ih =>
      intro s hi hb ht
      have hnew : c (i + 1) + p * s.1 (i + 1) = (f /ₘ (X - C p)).coeff i := by
        rw [coeff_divByMonic_X_sub_C_rec, hc _ (Nat.succ_pos i) hi, hb _ (Nat.le_refl _) hi]
      apply ih (quotientRound c p s i) (by omega)
      · intro j hij hj
        simp only [quotientRound]
        rcases Nat.eq_or_lt_of_le hij with rfl | hlt
        · rw [Function.update_self, hnew]
        · rw [Function.update_of_ne (by omega), hb j hlt hj]
      · simp only [quotientRound]
        have hlen : k - i = (k - (i + 1)) + 1 := by omega
        rw [Function.update_self, hnew, ht, hlen, sum_range_succ', mul_sum, add_comm, pow_zero,
          mul_one, Nat.add_zero]
        congr 1
        apply sum_congr rfl
        intro m _
        have hidx : i + 1 + m = i + (m + 1) := by omega
        rw [hidx, pow_succ]
        ring

/-- **The columns are the coefficients of the polynomials of the points.** -/
theorem createInvertedVdm_eq {k : Nat} (hk : k ≤ 256) {col row : Nat} (hcol : col < k)
    (hrow : row < k) :
    createInvertedVdm k col row = (Lagrange.basis (range k) point row).coeff col := by
  unfold createInvertedVdm
  split
  · next hone =>
      have hrow0 : row = 0 := by omega
      have hcol0 : col = 0 := by omega
      simp only
      rw [if_pos ⟨hcol0, hrow0⟩, hone, hrow0, hcol0]
      simp [Lagrange.basis]
  · next hone =>
      have hpoint : (if row ≠ 0 then Gf.ofNat (expTable row) else 0) = point row := by
        split
        · next hne => exact expTable_point (by omega) (by omega)
        · next hne =>
            rw [not_not] at hne
            rw [hne, point, if_pos rfl]
      have hdeg : (nodalTo k /ₘ (X - C (point row))).natDegree = k - 1 := by
        rw [natDegree_divByMonic _ (monic_X_sub_C _), natDegree_nodalTo, natDegree_X_sub_C]
      have hlead : (nodalTo k /ₘ (X - C (point row))).coeff (k - 1) = 1 := by
        have hzero : (nodalTo k /ₘ (X - C (point row))).coeff k = 0 :=
          coeff_eq_zero_of_natDegree_lt (by omega)
        have hk1 : k - 1 + 1 = k := by omega
        rw [coeff_divByMonic_X_sub_C_rec, hk1, hzero, mul_zero, add_zero, coeff_nodalTo_self]
      obtain ⟨hb, ht⟩ := quotientLoop_eq (k := k) (c := master k) (p := point row) (f := nodalTo k)
        (fun j _ hj => master_eq hk (by omega) j hj) (by omega) (k - 1)
        (Function.update (fun _ => 0) (k - 1) 1, 1) (by omega)
        (by
          intro j hle hj
          have hjk : j = k - 1 := by omega
          show Function.update (fun _ => (0 : Gf)) (k - 1) 1 j = _
          rw [hjk, hlead, Function.update_self])
        (by
          have hlen : k - (k - 1) = 1 := by omega
          rw [hlen, sum_range_one, Nat.add_zero, hlead, pow_zero, mul_one])
      simp only [hpoint]
      rw [hb col hcol, ht, inv_table_eq, coeff_basis hrow, div_eq_mul_inv, mul_comm]

/-! ## The inversion -/

section Invert

variable {k : Nat} {p z : Nat → Gf}

/-- The points whose values the columns take after `i` rounds. -/
def nodesAt (p z : Nat → Gf) (i j : Nat) : Gf := if j < i then z j else p j

/-- The points whose values the rows give after `i` rounds. -/
def targetsAt (p z : Nat → Gf) (i r : Nat) : Gf := if r < i then p r else z r

theorem nodesAt_succ (i : Nat) : nodesAt p z (i + 1) = Function.update (nodesAt p z i) i (z i) := by
  funext j
  by_cases hj : j = i
  · rw [hj, Function.update_self, nodesAt, if_pos (Nat.lt_succ_self i)]
  · rw [Function.update_of_ne hj, nodesAt, nodesAt]
    congr 1
    exact propext ⟨fun h => by omega, fun h => by omega⟩

theorem nodesAt_self (i : Nat) : nodesAt p z i i = p i := if_neg (Nat.lt_irrefl i)

theorem targetsAt_self (i : Nat) : targetsAt p z i i = z i := if_neg (Nat.lt_irrefl i)

theorem targetsAt_succ_self (i : Nat) : targetsAt p z (i + 1) i = p i := if_pos (Nat.lt_succ_self i)

theorem targetsAt_succ_ne {i r : Nat} (h : r ≠ i) :
    targetsAt p z (i + 1) r = targetsAt p z i r := by
  rw [targetsAt, targetsAt]
  congr 1
  exact propext ⟨fun h => by omega, fun h => by omega⟩

/-- The points that lead somewhere else: the targets are distinct, and each is the node of
its row or no node at all. -/
structure Exchange (k : Nat) (p z : Nat → Gf) : Prop where
  nodes : Distinct k p
  targets : Distinct k z
  apart : ∀ r < k, z r = p r ∨ ∀ j < k, z r ≠ p j

theorem Exchange.ne_node (h : Exchange k p z) {i : Nat} (hi : i < k) :
    ∀ j < k, j ≠ i → z i ≠ nodesAt p z i j := by
  intro j hj hji
  unfold nodesAt
  split
  · intro heq
    exact hji (distinct_iff.mp h.targets i hi j hj heq).symm
  · rcases h.apart i hi with hsame | hne
    · rw [hsame]
      intro heq
      exact hji (distinct_iff.mp h.nodes i hi j hj heq).symm
    · exact hne j hj

theorem Exchange.distinct (h : Exchange k p z) {i : Nat} (hi : i ≤ k) :
    Distinct k (nodesAt p z i) := by
  induction i with
  | zero => exact h.nodes
  | succ i ih =>
      rw [nodesAt_succ]
      exact distinct_update (ih (by omega)) (h.ne_node hi)

/-- The entry at the diagonal can be the pivot. -/
theorem Exchange.pivot (h : Exchange k p z) {i : Nat} (hi : i < k) :
    weightAt k (nodesAt p z i) i (z i) ≠ 0 := by
  have hd := h.distinct hi.le
  by_cases hself : z i = p i
  · have hw := weightAt_self hd hi
    rw [nodesAt_self, ← hself] at hw
    rw [hw]
    exact one_ne_zero
  · apply weightAt_ne_zero hd hi
    intro j hj
    by_cases hji : j = i
    · rw [hji, nodesAt_self]
      exact hself
    · exact h.ne_node hi j hj hji

/-- What holds after `i` rounds. -/
structure Exchanged (k : Nat) (p z : Nat → Gf) (i : Nat) (s : Inversion) : Prop where
  entries : ∀ r < k, ∀ j < k, s.mx r j = weightAt k (nodesAt p z i) j (targetsAt p z i r)
  used : ∀ j < i, s.unusedRows j = false
  unused : ∀ j, i ≤ j → s.unusedRows j = true
  swaps : s.swaps = []

variable {i : Nat} {s : Inversion}

theorem Exchanged.find_pivot (hs : Exchanged k p z i s) (h : Exchange k p z) (hi : i < k) :
    (List.range k).find? (fun j => s.mx j i ≠ 0 && s.unusedRows j) = some i := by
  rw [List.find?_range_eq_some]
  refine ⟨?_, List.mem_range.mpr hi, ?_⟩
  · have hpivot := h.pivot hi
    rw [← targetsAt_self (p := p) (z := z) i, ← hs.entries i hi i hi] at hpivot
    simp [hpivot, hs.unused i (Nat.le_refl i)]
  · intro j hj
    simp [hs.used j hj]

/-- The weights of the next nodes, in the column of the pivot. -/
theorem Exchange.next_self (h : Exchange k p z) (hi : i < k) (x : Gf) :
    weightAt k (nodesAt p z (i + 1)) i x =
      weightAt k (nodesAt p z i) i x / weightAt k (nodesAt p z i) i (z i) := by
  rw [nodesAt_succ]
  exact weightAt_exchange_self (h.distinct hi.le) (h.ne_node hi) hi (h.pivot hi) x

/-- And in the other columns; adding is subtracting. -/
theorem Exchange.next_ne (h : Exchange k p z) (hi : i < k) {j : Nat} (hj : j < k) (hji : j ≠ i)
    (x : Gf) :
    weightAt k (nodesAt p z (i + 1)) j x = weightAt k (nodesAt p z i) j x +
      weightAt k (nodesAt p z i) i x * (weightAt k (nodesAt p z i) j (z i) /
        weightAt k (nodesAt p z i) i (z i)) := by
  rw [nodesAt_succ, weightAt_exchange_ne (h.distinct hi.le) (h.ne_node hi) hi (h.pivot hi) hj hji,
    CharTwo.sub_eq_add]
  ring

/-- The scaled row of the pivot gives the values at the node that left. -/
theorem Exchanged.pivotRow (hs : Exchanged k p z i s) (h : Exchange k p z) (hi : i < k) :
    ∃ row, scalePivotRow (s.mx i) i = some row ∧
      ∀ j < k, row j = weightAt k (nodesAt p z (i + 1)) j (p i) := by
  have hentry : ∀ j < k, s.mx i j = weightAt k (nodesAt p z i) j (z i) := by
    intro j hj
    rw [hs.entries i hi j hj, targetsAt_self]
  have hpivot := h.pivot hi
  -- the values of the next weights at the old node
  have hnode : ∀ j < k, weightAt k (nodesAt p z (i + 1)) j (p i) =
      1 / weightAt k (nodesAt p z i) i (z i) *
        Function.update (s.mx i) i 1 j := by
    intro j hj
    have hself := weightAt_self (h.distinct hi.le) hi
    rw [nodesAt_self] at hself
    by_cases hji : j = i
    · rw [hji, h.next_self hi, hself, Function.update_self, mul_one]
    · have hzero := weightAt_of_ne (v := nodesAt p z i) hi hji
      rw [nodesAt_self] at hzero
      rw [h.next_ne hi hj hji, hself, hzero, Function.update_of_ne hji, hentry j hj]
      ring
  have hne : s.mx i i ≠ 0 := by
    rw [hentry i hi]
    exact hpivot
  refine ⟨_, scalePivotRow_eq hne, ?_⟩
  intro j hj
  rw [hnode j hj, hentry i hi, one_div]

/-- A row that is zero outside the pivot has the pivot 1, so that the other rows need no
change. -/
theorem Exchange.next_of_zero (h : Exchange k p z) (hi : i < k)
    (hzero : ∀ j < k, j ≠ i → weightAt k (nodesAt p z (i + 1)) j (p i) = 0) :
    ∀ j < k, ∀ x, weightAt k (nodesAt p z (i + 1)) j x = weightAt k (nodesAt p z i) j x := by
  have hself := weightAt_self (h.distinct hi.le) hi
  rw [nodesAt_self] at hself
  have hsum := sum_weightAt (h.distinct (i := i + 1) hi) (by omega) (p i)
  rw [sum_eq_single_of_mem i (mem_range.mpr hi)
    (fun j hj hji => hzero j (mem_range.mp hj) hji), h.next_self hi, hself,
    one_div, inv_eq_one] at hsum
  intro j hj x
  by_cases hji : j = i
  · rw [hji, h.next_self hi, hsum, div_one]
  · have hat := hzero j hj hji
    have hnode := weightAt_of_ne (v := nodesAt p z i) hi hji
    rw [nodesAt_self] at hnode
    rw [h.next_ne hi hj hji, hself, hnode, hsum, div_one, one_mul, zero_add] at hat
    rw [h.next_ne hi hj hji, hat, zero_div, mul_zero, add_zero]

/-- **One round moves one node to its target.** -/
theorem Exchanged.step (hs : Exchanged k p z i s) (h : Exchange k p z) (hi : i < k) :
    ∃ s', invertRound k s i = some s' ∧ Exchanged k p z (i + 1) s' := by
  obtain ⟨row, hrow, hvalue⟩ := hs.pivotRow h hi
  -- the row of the round is used up; no rows are swapped, as the pivot is in place
  have hused : ∀ j < i + 1, Function.update s.unusedRows i false j = false := by
    intro j hj
    by_cases hji : j = i
    · rw [hji, Function.update_self]
    · rw [Function.update_of_ne hji, hs.used j (by omega)]
  have hunused : ∀ j, i + 1 ≤ j → Function.update s.unusedRows i false j = true := by
    intro j hj
    rw [Function.update_of_ne (by omega), hs.unused j (by omega)]
  unfold invertRound
  simp only [hs.find_pivot h hi, Option.bind_eq_bind, Option.bind_some, ne_eq, not_true_eq_false,
    if_false, hrow]
  split
  · next hall =>
      -- the row has a single entry: the round only marks it
      have hzero : ∀ j < k, j ≠ i → weightAt k (nodesAt p z (i + 1)) j (p i) = 0 := by
        intro j hj hji
        have hj' := List.all_eq_true.mp hall j (List.mem_range.mpr hj)
        simp only [hji, decide_false, Bool.false_or, decide_eq_true_eq] at hj'
        rw [← hvalue j hj, hj']
      refine ⟨_, rfl, ?_, hused, hunused, hs.swaps⟩
      intro r hr j hj
      by_cases hri : r = i
      · rw [hri, targetsAt_succ_self, ← hvalue j hj]
        exact congrFun (Function.update_self i row s.mx) j
      · rw [targetsAt_succ_ne hri, h.next_of_zero hi hzero j hj, ← hs.entries r hr j hj]
        exact congrFun (Function.update_of_ne hri row s.mx) j
  · refine ⟨_, rfl, ?_, hused, hunused, hs.swaps⟩
    intro r hr j hj
    by_cases hri : r = i
    · simp only [if_pos hri]
      rw [hri, targetsAt_succ_self, hvalue j hj]
    · simp only [if_neg hri, Function.update_of_ne hri]
      rw [targetsAt_succ_ne hri, hvalue j hj, hs.entries r hr i hi]
      have hself := weightAt_self (h.distinct hi.le) hi
      rw [nodesAt_self] at hself
      by_cases hji : j = i
      · rw [hji, Function.update_self, h.next_self hi, h.next_self hi, hself]
        ring
      · have hnode := weightAt_of_ne (v := nodesAt p z i) hi hji
        rw [nodesAt_self] at hnode
        rw [Function.update_of_ne hji, hs.entries r hr j hj, h.next_ne hi hj hji,
          h.next_ne hi hj hji, hself, hnode]
        ring

/-- **The inverse leads back.** -/
theorem invertMatrix_exchange (h : Exchange k p z) {mx : Mat}
    (hmx : ∀ r < k, ∀ j < k, mx r j = weightAt k p j (z r)) :
    ∃ inv, invertMatrix k mx = some inv ∧
      ∀ r < k, ∀ j < k, inv r j = weightAt k z j (p r) := by
  have hrun : ∀ i ≤ k, ∃ s, (List.range i).foldlM (invertRound k) ⟨mx, fun _ => true, []⟩ = some s ∧
      Exchanged k p z i s := by
    intro i
    induction i with
    | zero =>
        intro _
        refine ⟨_, rfl, ?_, fun j hj => absurd hj (Nat.not_lt_zero j), fun _ _ => rfl, rfl⟩
        exact hmx
    | succ i ih =>
        intro hi
        obtain ⟨s, hfold, hs⟩ := ih (by omega)
        obtain ⟨s', hstep, hs'⟩ := hs.step h hi
        refine ⟨s', ?_, hs'⟩
        rw [List.range_succ, List.foldlM_append, hfold]
        simp only [Option.bind_eq_bind, Option.bind_some, List.foldlM_cons, List.foldlM_nil, hstep]
        rfl
  obtain ⟨s, hfold, hs⟩ := hrun k (Nat.le_refl k)
  refine ⟨s.mx, ?_, ?_⟩
  · rw [invertMatrix, hfold, Option.map_some, hs.swaps]
    rfl
  · intro r hr j hj
    rw [hs.entries r hr j hj, targetsAt, if_pos hr]
    exact weightAt_congr (fun m hm => if_pos hm) hj _

end Invert

end OnionNetwork.Fec
