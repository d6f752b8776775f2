import OnionNetwork.Fec.Inversion

/-!
# The inverse of a matrix

The result of `invert_matrix` is right if in the end of its walk the matrix takes the vectors
of the rows to those of the columns (`inverts_iff_of_reached`). Two slips make this fail. The row
of the pivot is crossed off at its old place and then moved, so that it can be chosen again and
the row that it changed places with cannot; and where the row of the pivot has no other
entries, the column is not scaled with it.

As long as no row has to move, only the second one matters (`inverts_iff_of_regular`), and where
the columns already show that the matrix is singular neither does (`stuck_of_dependent`). Once a
row is moved the result is right by chance only (`inverts_iff`).
-/

namespace OnionNetwork.Fec

open Lib Matrix Finset

variable {k : Nat} {s : Frame k} {i : Fin k} {mx : Mat}

/-! ## When the result is right -/

/-- There is a result exactly for the nonsingular matrices, and it is the inverse. -/
def Inverts (k : Nat) (mx : Mat) : Prop :=
  ((∃ inv, invertMatrix k mx = some inv) ↔ (block k mx).det ≠ 0) ∧
    ∀ inv, invertMatrix k mx = some inv → block k mx * block k inv = 1

theorem inverts_iff_of_stuck (hstuck : Frame.Stuck (block k mx)) :
    Inverts k mx ↔ (block k mx).det = 0 := by
  have hnone := invertMatrix_of_stuck hstuck
  constructor
  · intro h
    by_contra hdet
    obtain ⟨inv, hinv⟩ := h.1.mpr hdet
    rw [hnone] at hinv
    cases hinv
  · intro hdet
    refine ⟨⟨fun ⟨inv, hinv⟩ => ?_, fun hne => absurd hdet hne⟩, fun inv hinv => ?_⟩
    · rw [hnone] at hinv
      cases hinv
    · rw [hnone] at hinv
      cases hinv

/-- The matrix takes the vectors of the rows to those of the columns. -/
theorem inverts_iff_of_reached (hs : Frame.Reached (block k mx) k s) :
    Inverts k mx ↔ block k mx * s.row = s.col := by
  obtain ⟨inv, hinv, hrow, hcol⟩ := invertMatrix_of_reached hs
  have hproduct : block k mx * block k inv = 1 ↔ block k mx * s.row = s.col := by
    rw [hrow, ← Matrix.mul_assoc]
    constructor
    · intro h
      rw [h, Matrix.one_mul]
    · intro h
      have hzero : (block k mx * block k inv - 1) * s.col = 0 := by
        rw [Matrix.sub_mul, h, Matrix.one_mul, sub_self]
      funext r
      refine sub_eq_zero.mp (eq_zero_of_vecMul_eq_zero hcol ?_)
      exact congrFun hzero r
  rw [← hproduct]
  constructor
  · intro h
    exact h.2 inv hinv
  · intro h
    refine ⟨⟨fun _ hdet => ?_, fun _ => ⟨inv, hinv⟩⟩, fun inv' hinv' => ?_⟩
    · have hone := congrArg det h
      rw [det_mul, hdet, zero_mul, det_one] at hone
      exact zero_ne_one hone
    · rw [hinv, Option.some.injEq] at hinv'
      rw [← hinv', h]

/-- What the walk leaves happens to be right: it is stuck and the matrix is singular, or the
matrix takes the vectors that the rows end up with to those of the columns (all of them are rows of
the matrix or multiples of unit vectors, `Frame.Reached.vectors`). -/
def ByChance (k : Nat) (mx : Mat) : Prop :=
  (Frame.Stuck (block k mx) ∧ (block k mx).det = 0) ∨
    ∃ s, Frame.Reached (block k mx) k s ∧ block k mx * s.row = s.col

theorem inverts_iff_byChance (k : Nat) (mx : Mat) : Inverts k mx ↔ ByChance k mx := by
  constructor
  · intro h
    rcases Frame.reached_or_stuck (block k mx) with ⟨s, hs⟩ | hstuck
    · exact .inr ⟨s, hs, (inverts_iff_of_reached hs).mp h⟩
    · exact .inl ⟨hstuck, (inverts_iff_of_stuck hstuck).mp h⟩
  · rintro (⟨hstuck, hdet⟩ | ⟨s, hs, h⟩)
    · exact (inverts_iff_of_stuck hstuck).mpr hdet
    · exact (inverts_iff_of_reached hs).mpr h

/-! ## When no row has to move -/

/-- The leading minors up to `n` are not zero. -/
def Regular (n : Nat) (mx : Mat) : Prop := ∀ m ≤ n, (block m mx).det ≠ 0

/-- The row has no entries off the diagonal. -/
def Lone (k : Nat) (mx : Mat) (r : Nat) : Prop := ∀ j < k, j ≠ r → mx r j = 0

instance (k : Nat) (mx : Mat) (r : Nat) : Decidable (Lone k mx r) :=
  inferInstanceAs (Decidable (∀ j < k, j ≠ r → mx r j = 0))

/-- A vector of the first places, with zeros behind. -/
def extended {m : Nat} (w : Fin m → Gf) (j : Nat) : Gf := if h : j < m then w ⟨j, h⟩ else 0

theorem dot_extended {m : Nat} (hm : m ≤ k) (f : Nat → Gf) (w : Fin m → Gf) :
    (fun j : Fin k => f j) ⬝ᵥ (fun j => extended w j) = (fun j : Fin m => f j) ⬝ᵥ w := by
  have hsub : range m ⊆ range k := range_subset_range.mpr hm
  have hrest : ∀ j ∈ range k, j ∉ range m → f j * extended w j = 0 := by
    intro j _ hj
    rw [extended, dif_neg (fun h => hj (mem_range.mpr h)), mul_zero]
  show ∑ j : Fin k, f j * extended w j = ∑ j : Fin m, f j * w j
  rw [Fin.sum_univ_eq_sum_range (fun j => f j * extended w j), ← sum_subset hsub hrest,
    ← Fin.sum_univ_eq_sum_range (fun j => f j * extended w j)]
  refine sum_congr rfl fun j _ => ?_
  rw [extended, dif_pos j.isLt]

/-- The frame after `n` rounds without a move. -/
def steady (k : Nat) (mx : Mat) (n : Nat) : Frame k where
  row := of fun r =>
    if (r : Nat) < n then Pi.single r (if Lone k mx r then (mx r r)⁻¹ else 1) else block k mx r
  col := of fun j => if (j : Nat) < n ∧ ¬ Lone k mx j then block k mx j else Pi.single j 1
  place := 1
  unused := univ.filter fun p => n ≤ (p : Nat)

section Steady

variable {n : Nat} {r : Fin k}

theorem steady_row_of_lt (h : (r : Nat) < n) :
    (steady k mx n).row r = Pi.single r (if Lone k mx r then (mx r r)⁻¹ else 1) := if_pos h

theorem steady_row_of_not_lt (h : ¬ (r : Nat) < n) : (steady k mx n).row r = block k mx r :=
  if_neg h

theorem steady_col_of_not_lone (h : (r : Nat) < n) (hlone : ¬ Lone k mx r) :
    (steady k mx n).col r = block k mx r := if_pos ⟨h, hlone⟩

theorem steady_col_of_lone (hlone : Lone k mx r) : (steady k mx n).col r = Pi.single r 1 :=
  if_neg fun h => h.2 hlone

theorem steady_col_of_not_lt (h : ¬ (r : Nat) < n) : (steady k mx n).col r = Pi.single r 1 :=
  if_neg fun hlt => h hlt.1

end Steady

theorem steady_zero (mx : Mat) : steady k mx 0 = Frame.start (block k mx) := by
  refine Frame.ext ?_ ?_ rfl ?_
  · funext r
    exact steady_row_of_not_lt (Nat.not_lt_zero r)
  · funext j
    exact (steady_col_of_not_lt (Nat.not_lt_zero j)).trans (Frame.start_col _ j).symm
  · exact filter_true_of_mem fun p _ => Nat.zero_le p

/-- A row that stands alone has a pivot. -/
theorem Lone.pivot_ne_zero {n r : Nat} (hlone : Lone k mx r) (hreg : Regular n mx) (hr : r < n)
    (hn : n ≤ k) : mx r r ≠ 0 := by
  intro hzero
  refine hreg (r + 1) hr (det_eq_zero_of_row_eq_zero (Fin.last r) fun j => ?_)
  show mx r j = 0
  by_cases hj : (j : Nat) = r
  · rw [hj, hzero]
  · exact hlone j (by omega) hj

theorem Lone.block_eq {r : Fin k} (hlone : Lone k mx r) :
    block k mx r = mx r r • Pi.single r 1 := by
  rw [block_eq_single_iff.mpr ⟨rfl, hlone⟩, ← Pi.single_smul, smul_eq_mul, mul_one]

/-- What vanishes on the rows above and behind the place `i` vanishes on the other columns. -/
theorem steady_dual {u : Fin k → Gf} (hreg : Regular i mx)
    (habove : ∀ r < i, block k mx r ⬝ᵥ u = 0) (hbehind : ∀ j, i < j → u j = 0) :
    ∀ j, j ≠ i → (steady k mx i).col j ⬝ᵥ u = 0 := by
  intro j hj
  by_cases hlt : j < i
  · by_cases hlone : Lone k mx j
    · have hzero := habove j hlt
      rw [hlone.block_eq, smul_dotProduct, smul_eq_mul, single_one_dotProduct] at hzero
      rw [steady_col_of_lone hlone, single_one_dotProduct]
      exact (mul_eq_zero.mp hzero).resolve_left (hlone.pivot_ne_zero hreg hlt i.isLt.le)
    · rw [steady_col_of_not_lone hlt hlone, habove j hlt]
  · rw [steady_col_of_not_lt hlt, single_one_dotProduct]
    exact hbehind j (lt_of_le_of_ne (not_lt.mp hlt) hj.symm)

/-- A combination of the first columns that vanishes on the rows above has the last of them in
it. -/
theorem last_ne_zero {n : Nat} (hreg : Regular n mx) {g : Fin (n + 1) → Gf}
    (hzero : ∀ r < n, (fun j : Fin (n + 1) => mx r j) ⬝ᵥ g = 0) (hsome : ∃ j, g j ≠ 0) :
    g (Fin.last n) ≠ 0 := by
  intro hlast
  refine hreg n (Nat.le_refl n) (exists_mulVec_eq_zero_iff.mp ⟨fun j => g j.castSucc, ?_, ?_⟩)
  · intro hall
    obtain ⟨j, hj⟩ := hsome
    refine Fin.lastCases (fun h => h hlast) (fun j h => h (congrFun hall j)) j hj
  · funext r
    have hrow := hzero r r.isLt
    rw [dotProduct, Fin.sum_univ_castSucc, hlast, mul_zero, add_zero] at hrow
    exact hrow

section Offers

variable (hreg : Regular i mx) {g : Fin (i + 1) → Gf}
  (hzero : ∀ r < (i : Nat), (fun j : Fin (i + 1) => mx r j) ⬝ᵥ g = 0)
include hreg hzero

/-- Such a combination vanishes on the other columns of the frame. -/
theorem steady_dual_extended :
    ∀ j, j ≠ i → (steady k mx i).col j ⬝ᵥ (fun j => extended g j) = 0 := by
  refine steady_dual hreg (fun r hr => ?_) fun j hj => dif_neg ?_
  · exact (dot_extended i.isLt (mx r) g).trans (hzero r hr)
  · have hlt : (i : Nat) < j := hj
    omega

/-- A row on which it does not vanish can be had. -/
theorem steady_offers {p : Fin k} (hp : i ≤ p)
    (hne : (fun j : Fin (i + 1) => mx p j) ⬝ᵥ g ≠ 0) : (steady k mx i).Offers i p := by
  intro hmem
  have hrow : (steady k mx i).row ((steady k mx i).place p) = block k mx p :=
    steady_row_of_not_lt (not_lt.mpr hp)
  have hvanish := dot_of_mem_otherColumns (steady_dual_extended hreg hzero) hmem
  rw [hrow] at hvanish
  exact hne ((dot_extended i.isLt (mx p) g).symm.trans hvanish)

/-- And no other row. -/
theorem steady_offers_iff (hsome : ∃ j, g j ≠ 0) (hcol : (steady k mx i).col.det ≠ 0)
    {p : Fin k} (hp : i ≤ p) :
    (steady k mx i).Offers i p ↔ (fun j : Fin (i + 1) => mx p j) ⬝ᵥ g ≠ 0 := by
  refine ⟨fun hoffers hvanish => hoffers ?_, steady_offers hreg hzero hp⟩
  have hrow : (steady k mx i).row ((steady k mx i).place p) = block k mx p :=
    steady_row_of_not_lt (not_lt.mpr hp)
  have hlast : extended g i = g (Fin.last i) := dif_pos (Nat.lt_succ_self i)
  refine mem_otherColumns_of_dot (steady_dual_extended hreg hzero) hcol ?_ ?_
  · rw [steady_col_of_not_lt (Nat.lt_irrefl i), single_one_dotProduct, hlast]
    exact last_ne_zero hreg hzero hsome
  · rw [hrow]
    exact (dot_extended i.isLt (mx p) g).trans hvanish

end Offers

section Succ

variable (k mx) (i : Fin k)

theorem steady_succ_row : (steady k mx (i + 1)).row =
    (steady k mx i).row.updateRow i (Pi.single i (if Lone k mx i then (mx i i)⁻¹ else 1)) := by
  funext r
  by_cases hr : r = i
  · rw [hr, updateRow_self, steady_row_of_lt (Nat.lt_succ_self i)]
  · have hne : (r : Nat) ≠ i := fun h => hr (Fin.ext h)
    rw [updateRow_ne hr]
    by_cases hlt : (r : Nat) < i
    · rw [steady_row_of_lt hlt, steady_row_of_lt (by omega)]
    · rw [steady_row_of_not_lt hlt, steady_row_of_not_lt (by omega)]

theorem steady_succ_col : (steady k mx (i + 1)).col =
    (steady k mx i).col.updateRow i (if Lone k mx i then Pi.single i 1 else block k mx i) := by
  funext r
  by_cases hr : r = i
  · rw [hr, updateRow_self]
    by_cases hlone : Lone k mx i
    · rw [steady_col_of_lone hlone, if_pos hlone]
    · rw [steady_col_of_not_lone (Nat.lt_succ_self i) hlone, if_neg hlone]
  · have hne : (r : Nat) ≠ i := fun h => hr (Fin.ext h)
    rw [updateRow_ne hr]
    by_cases hlt : (r : Nat) < i
    · by_cases hlone : Lone k mx r
      · rw [steady_col_of_lone hlone, steady_col_of_lone hlone]
      · rw [steady_col_of_not_lone hlt hlone, steady_col_of_not_lone (by omega) hlone]
    · rw [steady_col_of_not_lt hlt, steady_col_of_not_lt (by omega)]

theorem steady_succ_unused :
    (steady k mx (i + 1)).unused = (steady k mx i).unused.erase i := by
  ext p
  simp only [steady, mem_filter, mem_univ, true_and, mem_erase, ne_eq, Fin.ext_iff]
  omega

theorem steady_row_place : (steady k mx i).row ((steady k mx i).place i) = block k mx i :=
  steady_row_of_not_lt (Nat.lt_irrefl i)

theorem steady_col_self : (steady k mx i).col i = Pi.single i 1 :=
  steady_col_of_not_lt (Nat.lt_irrefl i)

theorem steady_pivots : (steady k mx i).Pivots i i (steady k mx (i + 1)) := by
  have hrow := steady_row_place k mx i
  have hcol := steady_col_self k mx i
  have hplace : (1 : Equiv.Perm (Fin k)) = 1 * Equiv.swap i i := by
    rw [Equiv.swap_self]
    rfl
  by_cases hlone : Lone k mx i
  · have halong : (steady k mx i).row ((steady k mx i).place i) =
        mx i i • (steady k mx i).col i := by
      rw [hrow, hcol, hlone.block_eq]
    have hnext := Frame.Pivots.along (mx i i) halong
    have hscaled : (mx i i)⁻¹ • (Pi.single i 1 : Fin k → Gf) = Pi.single i (mx i i)⁻¹ := by
      rw [← Pi.single_smul, smul_eq_mul, mul_one]
    have hsame : (steady k mx i).col.updateRow i (Pi.single i 1) = (steady k mx i).col := by
      rw [← hcol]
      exact updateRow_eq_self _ i
    rw [hcol, hscaled] at hnext
    convert hnext using 1
    refine Frame.ext ?_ ?_ hplace (steady_succ_unused k mx i)
    · rw [steady_succ_row, if_pos hlone]
      rfl
    · rw [steady_succ_col, if_pos hlone, hsame]
  · have hskew : ∀ c : Gf, (steady k mx i).row ((steady k mx i).place i) ≠
        c • (steady k mx i).col i := by
      intro c hc
      rw [hrow, hcol, ← Pi.single_smul, smul_eq_mul, mul_one] at hc
      exact hlone (block_eq_single_iff.mp hc).2
    have hnext := Frame.Pivots.skew hskew
    rw [hrow, hcol] at hnext
    convert hnext using 1
    refine Frame.ext ?_ ?_ hplace (steady_succ_unused k mx i)
    · rw [steady_succ_row, if_neg hlone]
      rfl
    · rw [steady_succ_col, if_neg hlone]

end Succ

/-- The round `i` takes its own row if the next minor is not zero. -/
theorem steady_round (hreg : Regular i mx) (hdet : (block (i + 1) mx).det ≠ 0) :
    Frame.Round i i (steady k mx i) (steady k mx (i + 1)) where
  unused := mem_filter.mpr ⟨mem_univ i, Nat.le_refl i⟩
  offers := by
    -- a combination that vanishes on the rows above, but not on this one
    obtain ⟨g, hg⟩ : ∃ g, block (i + 1) mx *ᵥ g = Pi.single (Fin.last i) 1 :=
      ⟨(block (i + 1) mx)⁻¹ *ᵥ Pi.single (Fin.last i) 1, by
        rw [mulVec_mulVec, mul_nonsing_inv _ hdet.isUnit, one_mulVec]⟩
    refine steady_offers hreg (g := g) (fun r hr => ?_) (le_refl i) ?_
    · have hne : (⟨r, by omega⟩ : Fin (i + 1)) ≠ Fin.last i := Fin.ne_of_lt hr
      exact (congrFun hg ⟨r, by omega⟩).trans (Pi.single_eq_of_ne hne 1)
    · have hone := (congrFun hg (Fin.last i)).trans (Pi.single_eq_same (Fin.last i) 1)
      exact fun hzero => one_ne_zero (hone.symm.trans hzero)
  first _ hq hlt := absurd (mem_filter.mp hq).2 (not_le.mpr hlt)
  pivots := steady_pivots k mx i

theorem reached_steady {n : Nat} (hn : n ≤ k) (hreg : Regular n mx) :
    Frame.Reached (block k mx) n (steady k mx n) := by
  induction n with
  | zero =>
      rw [steady_zero]
      exact .start
  | succ n ih =>
      have hbefore : Regular n mx := fun m hm => hreg m (by omega)
      exact .round (i := ⟨n, hn⟩) (ih (by omega) hbefore)
        (steady_round (i := ⟨n, hn⟩) hbefore (hreg (n + 1) (Nat.le_refl _)))

/-- A round leaves the other rows as they are where the row of the pivot has no other entries.
Then its pivot has to be 1, or the other rows have nothing in its column. -/
def SkipSafe (k : Nat) (mx : Mat) : Prop :=
  ∀ r < k, Lone k mx r → mx r r = 1 ∨ ∀ j < k, j ≠ r → mx j r = 0

/-- Off the diagonal the columns stand for the entries of the matrix. -/
theorem steady_col_of_ne {j r : Fin k} (hne : j ≠ r) : (steady k mx k).col j r = mx j r := by
  by_cases hlone : Lone k mx j
  · rw [steady_col_of_lone hlone, Pi.single_eq_of_ne hne.symm]
    exact (hlone r r.isLt fun heq => hne (Fin.ext heq).symm).symm
  · rw [steady_col_of_not_lone j.isLt hlone]
    rfl

theorem steady_col_diagonal (r : Fin k) :
    (steady k mx k).col r r = if Lone k mx r then 1 else mx r r := by
  split
  · next hlone => rw [steady_col_of_lone hlone, Pi.single_eq_same]
  · next hlone =>
      rw [steady_col_of_not_lone r.isLt hlone]
      rfl

/-- The rows stand for multiples of the unit vectors. -/
theorem steady_row_eq_diagonal : (steady k mx k).row =
    diagonal fun r : Fin k => if Lone k mx r then (mx r r)⁻¹ else 1 := by
  funext r
  rw [steady_row_of_lt r.isLt]
  funext j
  rw [Pi.single_apply, diagonal_apply]
  exact if_congr eq_comm rfl rfl

/-- **Without a move** only the skipped rows matter. -/
theorem inverts_iff_of_regular (hreg : Regular k mx) : Inverts k mx ↔ SkipSafe k mx := by
  rw [inverts_iff_of_reached (reached_steady (Nat.le_refl k) hreg), steady_row_eq_diagonal]
  constructor
  · intro h r hr hlone
    by_cases hone : mx r r = 1
    · exact .inl hone
    · refine .inr fun j hj hne => ?_
      have hentry := congrFun (congrFun h ⟨j, hj⟩) ⟨r, hr⟩
      rw [mul_diagonal, if_pos hlone, steady_col_of_ne fun heq => hne (congrArg Fin.val heq)]
        at hentry
      have hmul : mx j r * (mx r r)⁻¹ = mx j r := hentry
      by_contra hsome
      exact hone (inv_eq_one.mp (mul_left_cancel₀ hsome (hmul.trans (mul_one _).symm)))
  · intro h
    ext j r
    rw [mul_diagonal]
    show mx j r * _ = _
    by_cases hjr : j = r
    · rw [hjr, steady_col_diagonal]
      by_cases hlone : Lone k mx r
      · have hpivot := hlone.pivot_ne_zero hreg r.isLt (Nat.le_refl k)
        rw [if_pos hlone, if_pos hlone, mul_inv_cancel₀ hpivot]
      · rw [if_neg hlone, if_neg hlone, mul_one]
    · rw [steady_col_of_ne hjr]
      by_cases hlone : Lone k mx r
      · rcases h r r.isLt hlone with hone | hzero
        · rw [if_pos hlone, hone, inv_one, mul_one]
        · rw [hzero j j.isLt fun heq => hjr (Fin.ext heq), zero_mul]
      · rw [if_neg hlone, mul_one]

/-! ## When there is nothing to move -/

/-- The columns up to the first leading minor that vanishes depend on each other. -/
def DependentColumns (k : Nat) (mx : Mat) : Prop :=
  ∃ i < k, Regular i mx ∧ ¬ LinearIndependent Gf fun (j : Fin (i + 1)) (r : Fin k) => mx r j

/-- **Then the walk is stuck**, and the matrix is singular. -/
theorem stuck_of_dependent (h : DependentColumns k mx) :
    Frame.Stuck (block k mx) ∧ (block k mx).det = 0 := by
  obtain ⟨n, hn, hreg, hdep⟩ := h
  obtain ⟨g, hsum, hsome⟩ := Fintype.not_linearIndependent_iff.mp hdep
  have hzero : ∀ r : Fin k, (fun j : Fin (n + 1) => mx r j) ⬝ᵥ g = 0 := by
    intro r
    have hentry := congrFun hsum r
    rw [Finset.sum_apply] at hentry
    rw [dotProduct_comm]
    exact hentry
  have habove : ∀ r < n, (fun j : Fin (n + 1) => mx r j) ⬝ᵥ g = 0 := fun r hr =>
    hzero ⟨r, by omega⟩
  constructor
  · have hreached := reached_steady hn.le hreg
    obtain ⟨v, -, hv⟩ := follows_reached hreached
    refine ⟨⟨n, hn⟩, steady k mx n, hreached, fun p hp hoffers => ?_⟩
    have hne := (steady_offers_iff (i := ⟨n, hn⟩) hreg habove hsome hv.basis
      (mem_filter.mp hp).2).mp hoffers
    exact hne (hzero p)
  · refine exists_mulVec_eq_zero_iff.mp ⟨fun j => extended g j, fun hall => ?_, ?_⟩
    · have hlast : extended g n = g (Fin.last n) := dif_pos (Nat.lt_succ_self n)
      exact last_ne_zero hreg habove hsome (hlast.symm.trans (congrFun hall ⟨n, hn⟩))
    · funext r
      exact (dot_extended hn (mx r) g).trans (hzero r)

/-! ## Every matrix -/

/-- Neither: some round takes the row of its pivot from further down (`Moves.round`). -/
def Moves (k : Nat) (mx : Mat) : Prop := ¬ Regular k mx ∧ ¬ DependentColumns k mx

theorem exists_first_minor (h : ¬ Regular k mx) :
    ∃ n < k, Regular n mx ∧ (block (n + 1) mx).det = 0 := by
  by_contra hnone
  refine h fun m hm => ?_
  induction m using Nat.strong_induction_on with
  | _ m ih =>
      intro hzero
      cases m with
      | zero => exact one_ne_zero ((det_isEmpty (A := block 0 mx)).symm.trans hzero)
      | succ n => exact hnone ⟨n, hm, fun m hmn => ih m (by omega) (by omega), hzero⟩

/-- **A row is moved.** -/
theorem Moves.round (h : Moves k mx) : ∃ (i p : Fin k) (s s' : Frame k),
    Frame.Reached (block k mx) i s ∧ Frame.Round i p s s' ∧ i < p := by
  obtain ⟨n, hn, hreg, hdet⟩ := exists_first_minor h.1
  obtain ⟨g, hg, hmul⟩ := exists_mulVec_eq_zero_iff.mpr hdet
  have hsome : ∃ j, g j ≠ 0 := Function.ne_iff.mp hg
  have hzero : ∀ r < n + 1, (fun j : Fin (n + 1) => mx r j) ⬝ᵥ g = 0 := fun r hr =>
    congrFun hmul ⟨r, hr⟩
  have hreached := reached_steady hn.le hreg
  obtain ⟨v, -, hv⟩ := follows_reached hreached
  have hoffers : ∀ p : Fin k, n ≤ p → ((steady k mx n).Offers ⟨n, hn⟩ p ↔
      (fun j : Fin (n + 1) => mx p j) ⬝ᵥ g ≠ 0) := fun p hp =>
    steady_offers_iff (i := ⟨n, hn⟩) hreg (fun r hr => hzero r (Nat.lt_succ_of_lt hr)) hsome
      hv.basis hp
  rcases (steady k mx n).exists_round ⟨n, hn⟩ with ⟨p, s', hround⟩ | hnone
  · have hp := (mem_filter.mp hround.unused).2
    refine ⟨⟨n, hn⟩, p, _, s', hreached, hround, lt_of_le_of_ne hp fun heq => ?_⟩
    have hself : n = p := congrArg Fin.val heq
    exact (hoffers p hp).mp hround.offers (hzero p (hself ▸ Nat.lt_succ_self n))
  · -- no row can be had, so the columns are dependent
    refine absurd ⟨n, hn, hreg, Fintype.not_linearIndependent_iff.mpr ⟨g, ?_, hsome⟩⟩ h.2
    funext r
    rw [Finset.sum_apply]
    refine (dotProduct_comm g fun j : Fin (n + 1) => mx r j).trans ?_
    by_cases hr : (r : Nat) < n
    · exact hzero r (Nat.lt_succ_of_lt hr)
    · have hmem : r ∈ (steady k mx n).unused := mem_filter.mpr ⟨mem_univ r, not_lt.mp hr⟩
      by_contra hne
      exact hnone r hmem ((hoffers r (not_lt.mp hr)).mpr hne)

/-- **When the inverse is right.** No row has to move, and every row that is zero off the diagonal
has 1 there or its column is zero off the diagonal, too; or the columns up to the first leading
minor that vanishes are dependent; or rows move, and what the walk leaves happens to be right. -/
theorem inverts_iff (k : Nat) (mx : Mat) :
    Inverts k mx ↔ (Regular k mx ∧ SkipSafe k mx) ∨ DependentColumns k mx ∨
      (Moves k mx ∧ ByChance k mx) := by
  constructor
  · intro h
    by_cases hreg : Regular k mx
    · exact .inl ⟨hreg, (inverts_iff_of_regular hreg).mp h⟩
    · by_cases hdep : DependentColumns k mx
      · exact .inr (.inl hdep)
      · exact .inr (.inr ⟨⟨hreg, hdep⟩, (inverts_iff_byChance k mx).mp h⟩)
  · rintro (⟨hreg, hsafe⟩ | hdep | ⟨-, hchance⟩)
    · exact (inverts_iff_of_regular hreg).mpr hsafe
    · exact (inverts_iff_byChance k mx).mpr (.inl (stuck_of_dependent hdep))
    · exact (inverts_iff_byChance k mx).mpr hchance

/-- Two rows in each other's place are their own inverse, but there is no result. -/
theorem exchanged_rows_refused :
    let mx : Mat := fun r j => if r + j = 1 then 1 else 0
    invertMatrix 2 mx = none ∧ (block 2 mx).det ≠ 0 ∧ ¬ Inverts 2 mx := by
  intro mx
  have hnone : invertMatrix 2 mx = none := by decide
  have hdet : (block 2 mx).det ≠ 0 := by
    have hentry : ∀ r j : Fin 2, block 2 mx r j = if (r : Nat) + j = 1 then 1 else 0 :=
      fun _ _ => rfl
    simp [det_fin_two, hentry]
  refine ⟨hnone, hdet, fun h => ?_⟩
  obtain ⟨inv, hinv⟩ := h.1.mpr hdet
  rw [hnone] at hinv
  cases hinv

end OnionNetwork.Fec
