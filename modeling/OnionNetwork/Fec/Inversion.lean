import OnionNetwork.Fec.Matrix
import OnionNetwork.Lib.Elimination

/-!
# The walk of an inversion

`invert_matrix` exchanges, one column after the other, the vector that a column stands for with
the vector of a row. At first the columns stand for the unit vectors and the rows for the rows
of the matrix; the pivot decides which row gives its vector to the column. What the function
does is a walk on these vectors alone:

* `Frame.Round` is one round, which takes the first unused row that the other columns are not
  enough for;
* `follows_reached`: the variables of the function say how the rows of the frame are made of its
  columns, so the function finds the pivots of the walk (`Follows.round`);
* `invertMatrix_of_reached`, `invertMatrix_of_stuck`: what the function returns at the end of
  the walk, and where it gets stuck.
-/

namespace OnionNetwork.Fec

open Lib Matrix Finset

/-! ## One round -/

/-- The rows, with those at `p` and `i` in each other's place. -/
def movedUp (mx : Mat) (p i : Nat) : Mat := fun r => mx (Equiv.swap p i r)

theorem matrixSwapRows_eq (mx : Mat) (a b : Nat) : matrixSwapRows mx a b = movedUp mx a b := by
  funext r
  rw [matrixSwapRows, movedUp, Equiv.swap_apply_def]
  split
  · rfl
  · split
    · rfl
    · rfl

theorem movedUp_self (mx : Mat) (i : Nat) : movedUp mx i i = mx := by
  funext r
  rw [movedUp, Equiv.swap_self]
  rfl

theorem matrixSwapRows_min_max (mx : Mat) (p i : Nat) :
    matrixSwapRows mx (min p i) (max p i) = movedUp mx p i := by
  rw [matrixSwapRows_eq]
  rcases Nat.le_total p i with hle | hle
  · rw [Nat.min_eq_left hle, Nat.max_eq_right hle]
  · rw [Nat.min_eq_right hle, Nat.max_eq_left hle]
    funext r
    rw [movedUp, movedUp, Equiv.swap_comm]

/-- The row of the pivot, scaled. -/
def pivotRow (mx : Mat) (i : Nat) : Nat → Gf := fun j =>
  (mx i i)⁻¹ * Function.update (mx i) i 1 j

/-- What a round makes of the matrix once the row of the pivot is in its place. -/
def cleared (k : Nat) (mx : Mat) (i : Nat) : Mat :=
  if ∀ j < k, j ≠ i → mx i j = 0 then Function.update mx i (pivotRow mx i)
  else fun r j =>
    if r = i then pivotRow mx i j else Function.update (mx r) i 0 j + mx r i * pivotRow mx i j

theorem pivotRow_self (mx : Mat) (i : Nat) : pivotRow mx i i = (mx i i)⁻¹ := by
  rw [pivotRow, Function.update_self, mul_one]

theorem pivotRow_ne (mx : Mat) {i j : Nat} (h : j ≠ i) :
    pivotRow mx i j = (mx i i)⁻¹ * mx i j := by
  rw [pivotRow, Function.update_of_ne h]

variable {k : Nat}

/-- **A round that finds a pivot.** -/
theorem invertRound_of_pivot {s : Inversion} {i p : Nat}
    (hfind : (List.range k).find? (fun j => s.mx j i ≠ 0 && s.unusedRows j) = some p) :
    invertRound k s i = some ⟨cleared k (movedUp s.mx p i) i,
      Function.update s.unusedRows p false,
      if p ≠ i then s.swaps ++ [(min p i, max p i)] else s.swaps⟩ := by
  have hmoved : (if p ≠ i then (matrixSwapRows s.mx (min p i) (max p i),
      s.swaps ++ [(min p i, max p i)]) else (s.mx, s.swaps)) =
        (movedUp s.mx p i, if p ≠ i then s.swaps ++ [(min p i, max p i)] else s.swaps) := by
    split
    · rw [matrixSwapRows_min_max]
    · next h =>
        rw [not_not] at h
        rw [h, movedUp_self]
  -- the row of the pivot is swapped onto the diagonal
  have hpivot : movedUp s.mx p i i i ≠ 0 := by
    have hp := (List.find?_range_eq_some.mp hfind).1
    simp only [Bool.and_eq_true, decide_eq_true_eq] at hp
    rw [movedUp, Equiv.swap_apply_right]
    exact hp.1
  generalize movedUp s.mx p i = mx at hmoved hpivot
  -- dividing by the pivot keeps zeros, so the test reads the row as it was
  have hall : ((List.range k).all fun j => j = i || pivotRow mx i j = 0) =
      decide (∀ j < k, j ≠ i → mx i j = 0) := by
    rw [Bool.eq_iff_iff, List.all_eq_true, decide_eq_true_eq]
    refine forall_congr' fun j => ?_
    rw [List.mem_range, Bool.or_eq_true, decide_eq_true_eq, decide_eq_true_eq]
    refine imp_congr_right fun _ => ?_
    by_cases hj : j = i
    · simp only [hj, true_or, ne_eq, not_true_eq_false, false_implies]
    · rw [pivotRow_ne _ hj]
      simp only [hj, false_or, ne_eq, not_false_eq_true, true_implies, mul_eq_zero,
        inv_eq_zero, hpivot]
  unfold invertRound
  simp only [hfind, Option.bind_eq_bind, Option.bind_some, hmoved]
  have hrow : scalePivotRow (mx i) i = some (pivotRow mx i) := scalePivotRow_eq hpivot
  rw [hrow, Option.bind_some, hall, cleared]
  by_cases hzero : ∀ j < k, j ≠ i → mx i j = 0
  · rw [if_pos (decide_eq_true hzero), if_pos hzero]
  · rw [if_neg (by rwa [decide_eq_true_eq]), if_neg hzero]
    congr 2
    funext r j
    by_cases hr : r = i
    · rw [if_pos hr, if_pos hr]
    · rw [if_neg hr, if_neg hr, Function.update_of_ne hr]

/-- The matrix in the source's sense: `k` rows and columns. -/
def block (k : Nat) (mx : Mat) : Matrix (Fin k) (Fin k) Gf := of fun r j => mx r j

theorem block_movedUp (mx : Mat) (p i : Fin k) :
    block k (movedUp mx p i) = (block k mx).submatrix (Equiv.swap p i) id := by
  ext r j
  show mx (Equiv.swap (p : Nat) i r) j = mx (Equiv.swap p i r : Fin k) j
  rw [Fin.val_injective.swap_apply]

theorem fin_forall_iff {i : Fin k} {P : Nat → Prop} :
    (∀ j : Fin k, j ≠ i → P j) ↔ ∀ j < k, j ≠ (i : Nat) → P j := by
  constructor
  · intro h j hj hne
    exact h ⟨j, hj⟩ fun heq => hne (congrArg Fin.val heq)
  · intro h j hne
    exact h j j.isLt fun heq => hne (Fin.ext heq)

theorem block_eq_single_iff {mx : Mat} {i : Fin k} {c : Gf} : block k mx i = Pi.single i c ↔
    mx i i = c ∧ ∀ j < k, j ≠ (i : Nat) → mx i j = 0 := by
  rw [← fin_forall_iff]
  constructor
  · intro h
    have hentry : ∀ j : Fin k, mx i j = (Pi.single i c : Fin k → Gf) j := congrFun h
    refine ⟨?_, fun j hj => ?_⟩
    · rw [hentry, Pi.single_eq_same]
    · rw [hentry, Pi.single_eq_of_ne hj]
  · rintro ⟨hpivot, hzero⟩
    funext j
    by_cases hj : j = i
    · rw [hj, Pi.single_eq_same]
      exact hpivot
    · rw [Pi.single_eq_of_ne hj]
      exact hzero j hj

/-- A row without other entries only gets the inverse of its pivot. -/
theorem block_cleared_of_zero {mx : Mat} {i : Fin k} (hzero : ∀ j < k, j ≠ (i : Nat) → mx i j = 0) :
    block k (cleared k mx i) = (block k mx).updateRow i (Pi.single i (mx i i)⁻¹) := by
  ext r j
  show cleared k mx i r j = _
  rw [cleared, if_pos hzero]
  by_cases hr : r = i
  · rw [hr, Function.update_self, updateRow_self]
    by_cases hj : j = i
    · rw [hj, pivotRow_self, Pi.single_eq_same]
    · have hne : (j : Nat) ≠ i := fun h => hj (Fin.ext h)
      rw [pivotRow_ne _ hne, hzero j j.isLt hne, mul_zero, Pi.single_eq_of_ne hj]
  · rw [Function.update_of_ne (fun h => hr (Fin.ext h)), updateRow_ne hr]
    rfl

/-- Otherwise the round is a pivot step; adding is subtracting. -/
theorem block_cleared_of_ne {mx : Mat} {i : Fin k} (hsome : ¬ ∀ j < k, j ≠ (i : Nat) → mx i j = 0) :
    block k (cleared k mx i) = pivoted (block k mx) i := by
  ext r j
  show cleared k mx i r j = _
  rw [cleared, if_neg hsome]
  show _ = if r = i then
      if j = i then (mx i i)⁻¹ else -((mx i i)⁻¹ * mx i j)
    else if j = i then mx r i * (mx i i)⁻¹ else mx r j - mx r i * ((mx i i)⁻¹ * mx i j)
  have hval : ∀ {a : Fin k}, a ≠ i → (a : Nat) ≠ i := fun h heq => h (Fin.ext heq)
  by_cases hr : r = i
  · rw [if_pos (congrArg Fin.val hr), if_pos hr]
    by_cases hj : j = i
    · rw [if_pos hj, hj, pivotRow_self]
    · rw [if_neg hj, pivotRow_ne _ (hval hj), CharTwo.neg_eq]
  · rw [if_neg (hval hr), if_neg hr]
    by_cases hj : j = i
    · rw [if_pos hj, hj, pivotRow_self, Function.update_self, zero_add]
    · rw [if_neg hj, pivotRow_ne _ (hval hj), Function.update_of_ne (hval hj), CharTwo.sub_eq_add]

/-! ## The walk on the vectors -/

/-- What the rows and the columns stand for. A row keeps its vector when it moves: `place` says
which row is where. -/
@[ext]
structure Frame (k : Nat) where
  row : Matrix (Fin k) (Fin k) Gf
  col : Matrix (Fin k) (Fin k) Gf
  place : Equiv.Perm (Fin k)
  unused : Finset (Fin k)

namespace Frame

/-- The rows of the matrix, and the unit vectors. -/
def start (a : Matrix (Fin k) (Fin k) Gf) : Frame k := ⟨a, 1, 1, univ⟩

theorem start_col (a : Matrix (Fin k) (Fin k) Gf) (j : Fin k) :
    (start a).col j = Pi.single j 1 := by
  funext t
  show (1 : Matrix (Fin k) (Fin k) Gf) j t = _
  rw [one_apply, Pi.single_apply]
  exact if_congr eq_comm rfl rfl

/-- The other columns are not enough for the row at `p`. -/
def Offers (s : Frame k) (i p : Fin k) : Prop := s.row (s.place p) ∉ otherColumns s.col i

/-- The row at `p` moves to `i`, and the row and the column exchange their vectors. A row along
the vector of the column is only scaled with the inverse. -/
inductive Pivots (s : Frame k) (i p : Fin k) : Frame k → Prop
  | along (c : Gf) (h : s.row (s.place p) = c • s.col i) :
      Pivots s i p ⟨s.row.updateRow (s.place p) (c⁻¹ • s.col i), s.col,
        s.place * Equiv.swap p i, s.unused.erase p⟩
  | skew (h : ∀ c : Gf, s.row (s.place p) ≠ c • s.col i) :
      Pivots s i p ⟨s.row.updateRow (s.place p) (s.col i),
        s.col.updateRow i (s.row (s.place p)), s.place * Equiv.swap p i, s.unused.erase p⟩

/-- A round takes the first row that can be had. -/
structure Round (i p : Fin k) (s s' : Frame k) : Prop where
  unused : p ∈ s.unused
  offers : s.Offers i p
  first : ∀ q ∈ s.unused, q < p → ¬ s.Offers i q
  pivots : s.Pivots i p s'

/-- The frames after `i` rounds. -/
inductive Reached (a : Matrix (Fin k) (Fin k) Gf) : Nat → Frame k → Prop
  | start : Reached a 0 (start a)
  | round {i : Fin k} {p : Fin k} {s s' : Frame k} (hs : Reached a i s) (h : Round i p s s') :
      Reached a (i + 1) s'

/-- A round in which no row can be had. -/
def Stuck (a : Matrix (Fin k) (Fin k) Gf) : Prop :=
  ∃ (i : Fin k) (s : Frame k), Reached a i s ∧ ∀ p ∈ s.unused, ¬ s.Offers i p

theorem exists_pivots (s : Frame k) (i p : Fin k) : ∃ s', s.Pivots i p s' := by
  by_cases h : ∃ c : Gf, s.row (s.place p) = c • s.col i
  · obtain ⟨c, hc⟩ := h
    exact ⟨_, .along c hc⟩
  · exact ⟨_, .skew fun c hc => h ⟨c, hc⟩⟩

/-- A round takes a row, or there is none. -/
theorem exists_round (s : Frame k) (i : Fin k) :
    (∃ p s', Round i p s s') ∨ ∀ p ∈ s.unused, ¬ s.Offers i p := by
  classical
  by_cases hsome : (s.unused.filter (s.Offers i)).Nonempty
  · have hmin := mem_filter.mp (min'_mem _ hsome)
    obtain ⟨s', hs'⟩ := s.exists_pivots i (min' _ hsome)
    refine .inl ⟨_, s', hmin.1, hmin.2, fun q hq hlt hoffers => ?_, hs'⟩
    exact absurd (min'_le _ q (mem_filter.mpr ⟨hq, hoffers⟩)) (not_le.mpr hlt)
  · refine .inr fun p hp hoffers => hsome ?_
    exact ⟨p, mem_filter.mpr ⟨hp, hoffers⟩⟩

/-- A row of the matrix, or a multiple of a unit vector. -/
def RowOrUnit (a : Matrix (Fin k) (Fin k) Gf) (v : Fin k → Gf) : Prop :=
  (∃ r, v = a r) ∨ ∃ (j : Fin k) (c : Gf), v = Pi.single j c

theorem RowOrUnit.updateRow {a m : Matrix (Fin k) (Fin k) Gf} {i : Fin k} {v : Fin k → Gf}
    (hv : RowOrUnit a v) (hm : ∀ r, RowOrUnit a (m r)) (r : Fin k) :
    RowOrUnit a (m.updateRow i v r) := by
  by_cases hr : r = i
  · rw [hr, updateRow_self]
    exact hv
  · rw [updateRow_ne hr]
    exact hm r

/-- **What the rows and the columns stand for** are only such vectors, and the columns of the
rounds to come still stand for their own. -/
theorem Reached.vectors {a : Matrix (Fin k) (Fin k) Gf} {n : Nat} {s : Frame k}
    (hs : Reached a n s) : (∀ r, RowOrUnit a (s.row r)) ∧ (∀ j, RowOrUnit a (s.col j)) ∧
      ∀ j : Fin k, n ≤ j → s.col j = Pi.single j 1 := by
  induction hs with
  | start =>
      exact ⟨fun r => .inl ⟨r, rfl⟩, fun j => .inr ⟨j, 1, start_col a j⟩, fun j _ => start_col a j⟩
  | @round i p s s' hs h ih =>
      obtain ⟨hrow, hcol, hrest⟩ := ih
      have hunit := hrest i (le_refl (i : Nat))
      cases h.pivots with
      | along c hc =>
          have hscaled : c⁻¹ • s.col i = Pi.single i c⁻¹ := by
            rw [hunit, ← Pi.single_smul, smul_eq_mul, mul_one]
          exact ⟨RowOrUnit.updateRow (.inr ⟨i, _, hscaled⟩) hrow, hcol,
            fun j hj => hrest j (by omega)⟩
      | skew hskew =>
          refine ⟨RowOrUnit.updateRow (.inr ⟨i, 1, hunit⟩) hrow,
            RowOrUnit.updateRow (hrow _) hcol, fun j hj => ?_⟩
          have hne : j ≠ i := by
            rintro rfl
            omega
          exact (updateRow_ne hne).trans (hrest j (by omega))

/-- The walk comes to its end or gets stuck. -/
theorem reached_or_stuck (a : Matrix (Fin k) (Fin k) Gf) : (∃ s, Reached a k s) ∨ Stuck a := by
  by_contra hnot
  obtain ⟨hend, hstuck⟩ := not_or.mp hnot
  have hall : ∀ i ≤ k, ∃ s, Reached a i s := by
    intro i
    induction i with
    | zero => exact fun _ => ⟨_, .start⟩
    | succ i ih =>
        intro hi
        obtain ⟨s, hs⟩ := ih (by omega)
        rcases s.exists_round ⟨i, hi⟩ with ⟨p, s', hround⟩ | hnone
        · exact ⟨s', .round hs hround⟩
        · exact absurd ⟨⟨i, hi⟩, s, hs, hnone⟩ hstuck
  exact hend (hall k (Nat.le_refl k))

end Frame

/-! ## The function takes the walk -/

/-- The rows put back. -/
def undo (swaps : List (Nat × Nat)) (mx : Mat) : Mat :=
  swaps.reverse.foldl (fun mx pair => matrixSwapRows mx pair.1 pair.2) mx

theorem undo_append (swaps : List (Nat × Nat)) (mx : Mat) (p i : Nat) :
    undo (if p ≠ i then swaps ++ [(min p i, max p i)] else swaps) mx =
      undo swaps (movedUp mx p i) := by
  split
  · rw [undo, List.reverse_append]
    show undo swaps (matrixSwapRows mx (min p i) (max p i)) = _
    rw [matrixSwapRows_min_max]
  · next h =>
      rw [not_not] at h
      rw [h, movedUp_self]

/-- The variables of the function, and what they stand for. -/
structure Follows (v : Inversion) (s : Frame k) : Prop where
  unused : ∀ p : Fin k, v.unusedRows p = true ↔ p ∈ s.unused
  made : s.row.submatrix s.place id = block k v.mx * s.col
  basis : s.col.det ≠ 0
  undone : ∀ (mx : Mat) (r : Fin k), undo v.swaps mx r = mx (s.place.symm r)

variable {v : Inversion} {s s' : Frame k} {i p : Fin k} {mx : Mat}

theorem Follows.row_place (h : Follows v s) (p : Fin k) :
    s.row (s.place p) = block k v.mx p ᵥ* s.col := by
  rw [← mul_apply_eq_vecMul, ← h.made]
  rfl

/-- The pivots that can be had. -/
theorem Follows.offers_iff (h : Follows v s) : s.Offers i p ↔ v.mx p i ≠ 0 := by
  rw [Frame.Offers, h.row_place, mem_otherColumns_iff h.basis]
  rfl

/-- A row that cannot be had is passed over. -/
theorem Follows.passed (h : Follows v s) {q : Fin k} (hq : q ∈ s.unused → ¬ s.Offers i q) :
    (!(decide (v.mx q i ≠ 0) && v.unusedRows q)) = true := by
  rw [h.offers_iff, ← h.unused] at hq
  rw [Bool.not_eq_true', Bool.and_eq_false_iff, decide_eq_false_iff_not]
  by_cases hunused : v.unusedRows q = true
  · exact .inl (hq hunused)
  · exact .inr (Bool.eq_false_iff.mpr hunused)

/-- A round finds the pivot of the walk. -/
theorem Follows.find (h : Follows v s) (hr : Frame.Round i p s s') :
    (List.range k).find? (fun j => v.mx j i ≠ 0 && v.unusedRows j) = some (p : Nat) := by
  rw [List.find?_range_eq_some]
  refine ⟨?_, List.mem_range.mpr p.isLt, ?_⟩
  · rw [Bool.and_eq_true, decide_eq_true_eq]
    exact ⟨h.offers_iff.mp hr.offers, (h.unused p).mpr hr.unused⟩
  · intro q hq
    have hqk : q < k := hq.trans p.isLt
    exact h.passed (q := ⟨q, hqk⟩) fun hunused => hr.first ⟨q, hqk⟩ hunused hq

/-- The rows with the row of the pivot in its new place. -/
theorem Follows.made_movedUp (h : Follows v s) (i p : Fin k) :
    s.row.submatrix (s.place * Equiv.swap p i : Equiv.Perm (Fin k)) id =
      block k (movedUp v.mx p i) * s.col := by
  rw [block_movedUp]
  funext r
  rw [mul_apply_eq_vecMul]
  exact h.row_place (Equiv.swap p i r)

theorem place_moved (e : Equiv.Perm (Fin k)) (i p : Fin k) : (e * Equiv.swap p i) i = e p :=
  congrArg e (Equiv.swap_apply_right p i)

theorem submatrix_updateRow (row : Matrix (Fin k) (Fin k) Gf) (e : Equiv.Perm (Fin k)) (i : Fin k)
    (w : Fin k → Gf) :
    (row.updateRow (e i) w).submatrix e id = (row.submatrix e id).updateRow i w := by
  funext r
  by_cases hr : r = i
  · rw [hr, updateRow_self]
    exact updateRow_self
  · rw [updateRow_ne hr]
    exact updateRow_ne fun heq => hr (e.injective heq)

/-- A row along the vector of the column has no other entries. -/
theorem Follows.along_iff (h : Follows v s) (i p : Fin k) (c : Gf) :
    s.row (s.place p) = c • s.col i ↔ block k (movedUp v.mx p i) i = Pi.single i c := by
  rw [h.row_place, vecMul_eq_smul_iff h.basis, block_movedUp]
  show _ ↔ block k v.mx (Equiv.swap p i i) = _
  rw [Equiv.swap_apply_right]

/-- The row of the pivot is crossed off at its old place. -/
theorem Follows.unused_erase (h : Follows v s) (p q : Fin k) :
    Function.update v.unusedRows p false q = true ↔ q ∈ s.unused.erase p := by
  rw [mem_erase, ← h.unused]
  by_cases hq : q = p
  · rw [hq, Function.update_self]
    simp
  · rw [Function.update_of_ne fun heq => hq (Fin.ext heq)]
    exact (and_iff_right hq).symm

/-- One more move to be put back. -/
theorem Follows.undone_moved (h : Follows v s) (i p : Fin k) (mx : Mat) (r : Fin k) :
    undo (if (p : Nat) ≠ i then v.swaps ++ [(min (p : Nat) i, max (p : Nat) i)] else v.swaps) mx r =
      mx ((s.place * Equiv.swap p i).symm r) := by
  rw [undo_append, h.undone, movedUp, Fin.val_injective.swap_apply]
  rfl

/-- **A round of the walk is a round of the function.** -/
theorem Follows.round (h : Follows v s) (hr : Frame.Round i p s s') :
    ∃ v', invertRound k v i = some v' ∧ Follows v' s' := by
  refine ⟨_, invertRound_of_pivot (h.find hr), ?_⟩
  have hmade := h.made_movedUp i p
  have halong := h.along_iff i p
  have hpivot : movedUp v.mx p i i i ≠ 0 := by
    rw [movedUp, Equiv.swap_apply_right]
    exact h.offers_iff.mp hr.offers
  cases hr.pivots with
  | along c hc =>
      obtain ⟨hci, hzero⟩ := block_eq_single_iff.mp ((halong c).mp hc)
      refine ⟨h.unused_erase p, ?_, h.basis, h.undone_moved i p⟩
      rw [← place_moved s.place i p, submatrix_updateRow, hmade, block_cleared_of_zero hzero, hci,
        ← (vecMul_eq_smul_iff h.basis c⁻¹).mpr rfl]
      funext r
      rw [mul_apply_eq_vecMul]
      by_cases hri : r = i
      · rw [hri, updateRow_self, updateRow_self]
      · rw [updateRow_ne hri, updateRow_ne hri, mul_apply_eq_vecMul]
  | skew hc =>
      have hsome : ¬ ∀ j < k, j ≠ (i : Nat) → movedUp v.mx p i i j = 0 := by
        intro hzero
        exact hc (movedUp v.mx p i i i) ((halong _).mpr (block_eq_single_iff.mpr ⟨rfl, hzero⟩))
      have hrow : s.row (s.place p) = (block k (movedUp v.mx p i) * s.col) i := by
        rw [← hmade, ← place_moved s.place i p]
        rfl
      refine ⟨h.unused_erase p, ?_, ?_, h.undone_moved i p⟩
      · rw [← place_moved s.place i p, submatrix_updateRow, hmade, block_cleared_of_ne hsome,
          place_moved, hrow, pivoted_mul_exchange s.col hpivot]
      · rw [h.row_place, det_exchange]
        exact mul_ne_zero (h.offers_iff.mp hr.offers) h.basis

theorem follows_start (mx : Mat) :
    Follows ⟨mx, fun _ => true, []⟩ (Frame.start (block k mx)) where
  unused p := by simp [Frame.start]
  made := (Matrix.mul_one (block k mx)).symm
  basis := by
    show (1 : Matrix (Fin k) (Fin k) Gf).det ≠ 0
    rw [det_one]
    exact one_ne_zero
  undone _ _ := rfl

/-- **The function takes the walk.** -/
theorem follows_reached {n : Nat} (hs : Frame.Reached (block k mx) n s) :
    ∃ v, (List.range n).foldlM (invertRound k) ⟨mx, fun _ => true, []⟩ = some v ∧ Follows v s := by
  induction hs with
  | start => exact ⟨_, rfl, follows_start mx⟩
  | round _ hr ih =>
      obtain ⟨v, hfold, hv⟩ := ih
      obtain ⟨v', hround, hv'⟩ := hv.round hr
      refine ⟨v', ?_, hv'⟩
      rw [List.range_succ, List.foldlM_append, hfold]
      simp only [Option.bind_eq_bind, Option.bind_some, List.foldlM_cons, List.foldlM_nil, hround]
      rfl

/-- The walk to the end: the inverse leads from the columns to the rows. -/
theorem invertMatrix_of_reached (hs : Frame.Reached (block k mx) k s) :
    ∃ inv, invertMatrix k mx = some inv ∧ s.row = block k inv * s.col ∧ s.col.det ≠ 0 := by
  obtain ⟨v, hfold, hv⟩ := follows_reached hs
  refine ⟨undo v.swaps v.mx, ?_, ?_, hv.basis⟩
  · rw [invertMatrix, hfold]
    rfl
  · funext r
    have hrow : block k (undo v.swaps v.mx) r = block k v.mx (s.place.symm r) := by
      funext j
      exact congrFun (hv.undone v.mx r) j
    have hplace := hv.row_place (s.place.symm r)
    rw [Equiv.apply_symm_apply] at hplace
    rw [mul_apply_eq_vecMul, hrow, hplace]

theorem foldlM_none {α β : Type} (f : β → α → Option β) {l : List α} {b : β}
    (h : l.foldlM f b = none) (rest : List α) : (l ++ rest).foldlM f b = none := by
  rw [List.foldlM_append, h]
  rfl

/-- A stuck walk: there is no result. -/
theorem invertMatrix_of_stuck (hstuck : Frame.Stuck (block k mx)) : invertMatrix k mx = none := by
  obtain ⟨i, s, hs, hnone⟩ := hstuck
  obtain ⟨v, hfold, hv⟩ := follows_reached hs
  have hfind : (List.range k).find? (fun j => v.mx j i ≠ 0 && v.unusedRows j) = none := by
    rw [List.find?_range_eq_none]
    intro q hq
    exact hv.passed (hnone ⟨q, hq⟩)
  have hround : invertRound k v i = none := by
    unfold invertRound
    simp only [hfind, Option.bind_eq_bind, Option.bind_none]
  have hrange : List.range k = List.range (i + 1) ++ (List.range k).drop (i + 1) := by
    have hsplit := List.take_append_drop (i + 1) (List.range k)
    rw [List.take_range, Nat.min_eq_left i.isLt] at hsplit
    exact hsplit.symm
  have hnone : (List.range (i + 1)).foldlM (invertRound k) ⟨mx, fun _ => true, []⟩ = none := by
    rw [List.range_succ, List.foldlM_append, hfold]
    simp only [Option.bind_eq_bind, Option.bind_some, List.foldlM_cons, hround, Option.bind_none]
  rw [invertMatrix, hrange, foldlM_none _ hnone]
  rfl

end OnionNetwork.Fec
