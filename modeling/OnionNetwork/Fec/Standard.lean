import OnionNetwork.Fec.Matrix
import OnionNetwork.Lib.Elimination

/-!
# The matrix of the checker

`vand_matrix` of `Fec::new` and its way to the syndromes: `standardize_matrix` and
`parity_matrix`. Column `c` of the Vandermonde matrix holds the powers of
`checkPoint c`, half of the point at which the encoder evaluates.

* `standardizeMatrix_eq`: on columns of powers of distinct nodes the elimination leaves
  the coefficients that lead from the values at the first nodes to those at all nodes.
-/

namespace OnionNetwork.Fec

open Lib Polynomial Finset

/-! ## The Vandermonde matrix -/

/-- One round of the loop over the columns of a row, on the row and `a`. -/
def vandColumn (g : Gf) (s : (Nat → Gf) × Gf) (col : Nat) : (Nat → Gf) × Gf :=
  (Function.update s.1 col s.2, Galois.mul g s.2)

/-- One round of the loop over the rows, on the matrix and `g`. -/
def vandRow (total : Nat) (s : Mat × Gf) (row : Nat) : Mat × Gf :=
  let filled := (List.range' 1 (total - 1)).foldl (vandColumn s.2) (s.1 row, 1)
  (Function.update s.1 row filled.1, Galois.mul two s.2)

/-- `vand_matrix` before the loop. -/
def vandStart : Mat := fun row col => if row = 0 ∧ col = 0 then 1 else 0

/-- `vand_matrix` of `Fec::new`. -/
def vandMatrix (required total : Nat) : Mat :=
  ((List.range required).foldl (vandRow total) (vandStart, 1)).1

/-! ## Elimination -/

/-- `matrix_add_mul_rows`. -/
def matrixAddMulRows (mx : Mat) (a b : Nat) (fac : Gf) : Mat :=
  Function.update mx b fun col => mx b col + fac * mx a col

/-- The pivot of the round `i`: the first row from `i` on that is not 0 in the column. -/
def findPivot (mx : Mat) (i rows : Nat) : Option (Nat × Gf) :=
  ((List.range' i (rows - i)).map fun j => (j, mx j i)).find? fun p => p.2 ≠ 0

/-- `mul_slice_in_place` on one row. -/
def mulRow (mx : Mat) (i : Nat) (c : Gf) : Mat := Function.update mx i fun col => c * mx i col

/-- The loop that clears a column in the given rows. -/
def clearRows (i : Nat) (rows : List Nat) (mx : Mat) : Mat :=
  rows.foldl (fun mx j => matrixAddMulRows mx i j (mx j i)) mx

/-- One round downwards of `standardize_matrix`. `none` is the panic of the `expect`. -/
def standardizeRound (r : Nat) (mx : Mat) (i : Nat) : Option Mat :=
  match findPivot mx i r with
  | none => some mx
  | some (pRow, pVal) => do
      let mx := if pRow ≠ i then matrixSwapRows mx i pRow else mx
      let inv ← Galois.div 1 pVal
      some (clearRows i (List.range' (i + 1) (r - (i + 1))) (mulRow mx i inv))

/-- `standardize_matrix`. -/
def standardizeMatrix (r : Nat) (mx : Mat) : Option Mat := do
  let mx ← (List.range r).foldlM (standardizeRound r) mx
  some ((List.range r).reverse.foldl (fun mx i => clearRows i (List.range i).reverse mx) mx)

/-- `parity_matrix`: a column of the matrix for each row, and a 1 for the column itself. -/
def parityMatrix (r : Nat) (mx : Mat) : Mat := fun i j =>
  if j < r then mx j (i + r) else if j = i + r then 1 else 0

/-! ## The powers -/

/-- The point of the share with the number `c`, for the checker. -/
def checkPoint (c : Nat) : Gf := if c = 0 then 0 else two ^ (c - 1)

/-- It is half of the encoder's. -/
theorem point_eq (c : Nat) : point c = two * checkPoint c := by
  unfold point checkPoint
  split
  · rw [mul_zero]
  · rw [← pow_succ']
    congr 1
    omega

theorem checkPoint_injective {i j : Nat} (hi : i < 256) (hj : j < 256)
    (h : checkPoint i = checkPoint j) : i = j :=
  point_injective hi hj (by rw [point_eq, point_eq, h])

theorem vandColumns_eq (g : Gf) (row : Nat → Gf) (m : Nat) :
    (List.range' 1 m).foldl (vandColumn g) (row, 1) =
      (fun col => if 1 ≤ col ∧ col < m + 1 then g ^ (col - 1) else row col, g ^ m) := by
  induction m with
  | zero =>
      refine Prod.ext (funext fun col => ?_) (pow_zero g).symm
      exact (if_neg (by omega)).symm
  | succ m ih =>
      rw [List.range'_concat, List.foldl_append, ih, Nat.one_mul]
      refine Prod.ext (funext fun col => ?_) (pow_succ' g m).symm
      simp only [List.foldl_cons, List.foldl_nil, vandColumn]
      by_cases hcol : col = 1 + m
      · rw [hcol, Function.update_self, if_pos (by omega), Nat.add_sub_cancel_left]
      · have hin : (1 ≤ col ∧ col < m + 1 + 1) ↔ (1 ≤ col ∧ col < m + 1) := by omega
        rw [Function.update_of_ne hcol]
        simp only [hin]

theorem vandRows_eq {total : Nat} (htotal : 0 < total) (m : Nat) :
    (List.range m).foldl (vandRow total) (vandStart, 1) =
      (fun row col => if row < m ∧ 1 ≤ col ∧ col < total then (two ^ row) ^ (col - 1)
        else vandStart row col, two ^ m) := by
  induction m with
  | zero =>
      refine Prod.ext (funext fun row => funext fun col => ?_) (pow_zero two).symm
      have hnot : ¬ (row < 0 ∧ 1 ≤ col ∧ col < total) := fun h => Nat.not_lt_zero row h.1
      simp only [if_neg hnot]
      rfl
  | succ m ih =>
      rw [List.range_succ, List.foldl_append, ih]
      refine Prod.ext (funext fun row => funext fun col => ?_) (pow_succ' two m).symm
      simp only [List.foldl_cons, List.foldl_nil, vandRow, vandColumns_eq,
        Nat.sub_add_cancel htotal]
      by_cases hrow : row = m
      · have hnot : ¬ (m < m ∧ 1 ≤ col ∧ col < total) := fun h => absurd h.1 (lt_irrefl m)
        have hin : (m < m + 1 ∧ 1 ≤ col ∧ col < total) ↔ (1 ≤ col ∧ col < total) := by omega
        rw [hrow, Function.update_self]
        simp only [hin, if_neg hnot]
      · have hin : (row < m + 1 ∧ 1 ≤ col ∧ col < total) ↔
            (row < m ∧ 1 ≤ col ∧ col < total) := by omega
        rw [Function.update_of_ne hrow]
        simp only [hin]

/-- **The columns hold the powers of the points.** -/
theorem vandMatrix_eq {required total row col : Nat} (hrow : row < required)
    (hcol : col < total) : vandMatrix required total row col = checkPoint col ^ row := by
  rw [vandMatrix, vandRows_eq (Nat.zero_lt_of_lt hcol)]
  simp only [checkPoint, vandStart]
  rcases Nat.eq_zero_or_pos col with rfl | hpos
  · rw [if_neg (by omega), if_pos rfl]
    rcases Nat.eq_zero_or_pos row with rfl | hpos
    · rw [if_pos ⟨rfl, rfl⟩, pow_zero]
    · rw [if_neg (fun h => hpos.ne' h.1), zero_pow hpos.ne']
  · rw [if_pos ⟨hrow, hpos, hcol⟩, if_neg hpos.ne', ← pow_mul, ← pow_mul, Nat.mul_comm]

/-! ## The rounds -/

/-- The rows of the matrix are the values of the polynomials at the first `s` nodes. -/
def Rows (r s : Nat) (w : Nat → Gf) (mx : Mat) (p : Nat → Gf[X]) : Prop :=
  ∀ row < r, ∀ col < s, mx row col = (p row).eval (w col)

/-- The rows are cleared one after the other, and the row of the pivot stays. -/
theorem clearRows_eq {i : Nat} {rows : List Nat} (hnodup : rows.Nodup) (hi : i ∉ rows)
    (mx : Mat) : clearRows i rows mx =
      fun row col => if row ∈ rows then mx row col + mx row i * mx i col else mx row col := by
  induction rows generalizing mx with
  | nil =>
      funext row col
      exact (if_neg List.not_mem_nil).symm
  | cons j rows ih =>
      obtain ⟨hj, hnodup⟩ := List.nodup_cons.mp hnodup
      obtain ⟨hij, hi⟩ := not_or.mp (fun h => hi (List.mem_cons.mpr h))
      have hstep : clearRows i (j :: rows) mx =
          clearRows i rows (matrixAddMulRows mx i j (mx j i)) := rfl
      have hpivot : matrixAddMulRows mx i j (mx j i) i = mx i := Function.update_of_ne hij _ _
      have hother : ∀ row, row ≠ j → matrixAddMulRows mx i j (mx j i) row = mx row :=
        fun row hrow => Function.update_of_ne hrow _ _
      rw [hstep, ih hnodup hi]
      funext row col
      rw [hpivot]
      by_cases hrow : row = j
      · subst hrow
        rw [if_neg hj, if_pos List.mem_cons_self]
        exact congrFun (Function.update_self row _ mx) col
      · rw [hother row hrow]
        have hmem : row ∈ j :: rows ↔ row ∈ rows := by rw [List.mem_cons, or_iff_right hrow]
        simp only [hmem]

variable {r s i : Nat} {w : Nat → Gf} {mx : Mat} {p : Nat → Gf[X]}

/-- The pivot is on the diagonal. -/
theorem findPivot_eq (hi : i < r) (hne : mx i i ≠ 0) : findPivot mx i r = some (i, mx i i) := by
  have hlen : r - i = (r - (i + 1)) + 1 := by omega
  rw [findPivot, hlen, List.range'_succ, List.map_cons, List.find?_cons_of_pos]
  exact decide_eq_true hne

/-- **A round downwards** is one on the polynomials. -/
theorem standardizeRound_eq (hrows : Rows r s w mx p) (h : Descending r w i p)
    (hw : Distinct r w) (hi : i < r) (hrs : r ≤ s) :
    ∃ mx', standardizeRound r mx i = some mx' ∧ Rows r s w mx' (descend w i p) := by
  have hpivot : mx i i = (p i).eval (w i) := hrows i hi i (hi.trans_le hrs)
  have hne : mx i i ≠ 0 := by
    rw [hpivot]
    exact h.pivot hw hi
  refine ⟨clearRows i (List.range' (i + 1) (r - (i + 1))) (mulRow mx i (1 / mx i i)), ?_, ?_⟩
  · rw [standardizeRound, findPivot_eq hi hne]
    simp only [ne_eq, not_true_eq_false, if_false, div_eq hne, Option.bind_eq_bind,
      Option.bind_some]
  · have hself : ∀ col < s, mulRow mx i (1 / mx i i) i col = (scaled w i p).eval (w col) := by
      intro col hcol
      rw [mulRow, Function.update_self, hrows i hi col hcol, hpivot, scaled, eval_mul, eval_C,
        one_div]
    have hother : ∀ row, row ≠ i → mulRow mx i (1 / mx i i) row = mx row :=
      fun row hrow => Function.update_of_ne hrow _ _
    have hnot : i ∉ List.range' (i + 1) (r - (i + 1)) := by
      rw [List.mem_range'_1]
      omega
    intro row hrow col hcol
    rw [clearRows_eq List.nodup_range' hnot, descend]
    simp only [List.mem_range'_1]
    rcases Nat.lt_trichotomy row i with hlt | rfl | hgt
    · rw [if_neg (by omega), if_pos hlt, hother row hlt.ne]
      exact hrows row hrow col hcol
    · rw [if_neg (by omega), if_neg (lt_irrefl row), if_pos rfl]
      exact hself col hcol
    · rw [if_pos (by omega), if_neg (by omega), if_neg hgt.ne', hother row hgt.ne', hself col hcol,
        hrows row hrow col hcol, hrows row hrow i (hi.trans_le hrs), eval_sub, eval_mul, eval_C,
        CharTwo.sub_eq_add]

/-- **A round upwards** is one on the polynomials. -/
theorem clearRows_above (hrows : Rows r s w mx p) (hi : i < r) (hrs : r ≤ s) :
    Rows r s w (clearRows i (List.range i).reverse mx) (ascend w i p) := by
  have hnot : i ∉ (List.range i).reverse := by simp
  intro row hrow col hcol
  rw [clearRows_eq (List.nodup_reverse.mpr List.nodup_range) hnot, ascend]
  simp only [List.mem_reverse, List.mem_range]
  split
  · rw [hrows row hrow col hcol, hrows row hrow i (hi.trans_le hrs), hrows i hi col hcol,
      eval_sub, eval_mul, eval_C, CharTwo.sub_eq_add]
  · exact hrows row hrow col hcol

/-- The rounds downwards. -/
theorem rounds_down (hrows : Rows r s w mx fun row => X ^ row) (hw : Distinct r w) (hrs : r ≤ s)
    {m : Nat} (hm : m ≤ r) :
    ∃ mx' p, (List.range m).foldlM (standardizeRound r) mx = some mx' ∧
      Rows r s w mx' p ∧ Descending r w m p := by
  induction m with
  | zero => exact ⟨mx, _, rfl, hrows, descending_powers r w⟩
  | succ m ih =>
      obtain ⟨mx', p, hfold, hrows', hdesc⟩ := ih (by omega)
      obtain ⟨mx'', hround, hrows''⟩ := standardizeRound_eq hrows' hdesc hw hm hrs
      refine ⟨mx'', _, ?_, hrows'', hdesc.step hw hm⟩
      rw [List.range_succ, List.foldlM_append, hfold]
      simp only [Option.bind_eq_bind, Option.bind_some, List.foldlM_cons, List.foldlM_nil, hround]
      rfl

/-- The rounds upwards. -/
theorem rounds_up {m : Nat} (hm : m ≤ r) (hrs : r ≤ s) (hrows : Rows r s w mx p)
    (h : Ascending r w m p) :
    ∃ q, Rows r s w ((List.range m).reverse.foldl
        (fun mx i => clearRows i (List.range i).reverse mx) mx) q ∧ Ascending r w 0 q := by
  induction m generalizing mx p with
  | zero => exact ⟨p, hrows, h⟩
  | succ m ih =>
      rw [List.range_succ, List.reverse_append]
      exact ih (by omega) (clearRows_above hrows hm hrs) (h.step hm)

/-- **The standard form**: each column holds the coefficients of the values at the first
nodes in the value at its own. -/
theorem standardizeMatrix_eq (hw : Distinct r w) (hrs : r ≤ s)
    (hmx : ∀ row < r, ∀ col < s, mx row col = w col ^ row) :
    ∃ out, standardizeMatrix r mx = some out ∧
      ∀ row < r, ∀ col < s, out row col = weightAt r w row (w col) := by
  have hrows : Rows r s w mx fun row => X ^ row := by
    intro row hrow col hcol
    rw [hmx row hrow col hcol, eval_pow, eval_X]
  obtain ⟨mx', p, hdown, hrows', hdesc⟩ := rounds_down hrows hw hrs le_rfl
  obtain ⟨q, hrows'', hup⟩ := rounds_up le_rfl hrs hrows' hdesc.ascending
  refine ⟨_, by rw [standardizeMatrix, hdown]; rfl, ?_⟩
  intro row hrow col hcol
  rw [hrows'' row hrow col hcol, hup.eval_eq hw hrow]

end OnionNetwork.Fec
