import Mathlib.LinearAlgebra.Lagrange

/-!
# The value of a polynomial from its values at nodes

A polynomial of degree below `k` is given by its values at `k` distinct nodes, and its
value at `x` is a sum of them with the coefficients `weightAt k v j x`.

* `eval_eq_sum`: this sum;
* `weightAt_exchange_self`, `weightAt_exchange_ne`: what becomes of the coefficients
  when one node is replaced by another;
* `coeff_basis`: how the polynomial with the values 1 at one node and 0 at the others is
  computed, by dividing the product over the nodes.
-/

namespace OnionNetwork.Lib

open Polynomial Finset

variable {F : Type*} [Field F] {k : Nat} {v : Nat → F}

/-- The coefficient of the value at the node `j` in the value at `x`. -/
noncomputable def weightAt (k : Nat) (v : Nat → F) (j : Nat) (x : F) : F :=
  (Lagrange.basis (range k) v j).eval x

/-- The first `k` nodes are distinct. -/
def Distinct (k : Nat) (v : Nat → F) : Prop := Set.InjOn v (range k)

omit [Field F] in
theorem distinct_iff : Distinct k v ↔ ∀ i < k, ∀ j < k, v i = v j → i = j := by
  simp [Distinct, Set.InjOn]

/-- **The value at any point is a sum of the values at the nodes.** -/
theorem eval_eq_sum (hv : Distinct k v) {f : F[X]} (hf : f.degree < k) (x : F) :
    f.eval x = ∑ j ∈ range k, f.eval (v j) * weightAt k v j x := by
  have hcard : f.degree < (range k).card := by rwa [card_range]
  have heq := congrArg (Polynomial.eval x) (Lagrange.eq_interpolate hv hcard)
  rw [heq, Lagrange.interpolate_apply, eval_finsetSum]
  simp only [eval_mul, eval_C, weightAt]

theorem weightAt_self (hv : Distinct k v) {j : Nat} (hj : j < k) : weightAt k v j (v j) = 1 :=
  Lagrange.eval_basis_self hv (mem_range.mpr hj)

theorem weightAt_of_ne {i j : Nat} (hj : j < k) (hij : i ≠ j) : weightAt k v i (v j) = 0 :=
  Lagrange.eval_basis_of_ne hij (mem_range.mpr hj)

/-- The coefficients of two nodes. -/
theorem weightAt_pair_left (v : Nat → F) (x : F) :
    weightAt 2 v 0 x = (x - v 1) / (v 0 - v 1) := by
  rw [weightAt, show range 2 = {0, 1} from rfl, Lagrange.basis_pair_left zero_ne_one,
    Lagrange.basisDivisor]
  simp [div_eq_inv_mul]

theorem weightAt_pair_right (v : Nat → F) (x : F) :
    weightAt 2 v 1 x = (x - v 0) / (v 1 - v 0) := by
  rw [weightAt, show range 2 = {0, 1} from rfl, Lagrange.basis_pair_right zero_ne_one,
    Lagrange.basisDivisor]
  simp [div_eq_inv_mul]

theorem degree_basis_lt (hv : Distinct k v) {j : Nat} (hj : j < k) :
    (Lagrange.basis (range k) v j).degree < k := by
  rw [Lagrange.degree_basis hv (mem_range.mpr hj), card_range]
  exact_mod_cast Nat.sub_lt (by omega) Nat.one_pos

theorem natDegree_basis_lt (hv : Distinct k v) {j : Nat} (hj : j < k) :
    (Lagrange.basis (range k) v j).natDegree < k := by
  rw [natDegree_lt_iff_degree_lt (Lagrange.basis_ne_zero hv (mem_range.mpr hj))]
  exact degree_basis_lt hv hj

/-- Away from the nodes no coefficient is 0. -/
theorem weightAt_ne_zero (hv : Distinct k v) {j : Nat} (hj : j < k) {x : F}
    (hx : ∀ i < k, x ≠ v i) : weightAt k v j x ≠ 0 := by
  rw [weightAt, Lagrange.eval_basis_not_at_node (mem_range.mpr hj) (hx j hj)]
  refine mul_ne_zero ?_ (mul_ne_zero ?_ (inv_ne_zero (sub_ne_zero.mpr (hx j hj))))
  · exact Lagrange.eval_nodal_not_at_node fun i hi => hx i (mem_range.mp hi)
  · exact Lagrange.nodalWeight_ne_zero hv (mem_range.mpr hj)

/-- The weights at a point sum to 1: they give back the constant polynomial. -/
theorem sum_weightAt (hv : Distinct k v) (hk : 0 < k) (x : F) :
    ∑ j ∈ range k, weightAt k v j x = 1 := by
  have hone : (1 : F[X]).degree < k := by
    rw [degree_one]
    exact_mod_cast hk
  have heq := eval_eq_sum hv hone x
  simp only [eval_one, one_mul] at heq
  exact heq.symm

theorem weightAt_congr {w : Nat → F} (h : ∀ i < k, v i = w i) {j : Nat} (hj : j < k) (x : F) :
    weightAt k v j x = weightAt k w j x := by
  unfold weightAt Lagrange.basis
  congr 1
  apply prod_congr rfl
  intro i hi
  rw [h j hj, h i (mem_range.mp (mem_of_mem_erase hi))]

/-- From the values at some nodes to those at others, and from there to any point. -/
theorem sum_weightAt_trans {z : Nat → F} (hv : Distinct k v) (hz : Distinct k z) (d : Nat → F)
    (x : F) :
    ∑ j ∈ range k, weightAt k z j x * ∑ c ∈ range k, d c * weightAt k v c (z j) =
      ∑ c ∈ range k, d c * weightAt k v c x := by
  simp only [mul_sum]
  rw [sum_comm]
  apply sum_congr rfl
  intro c hc
  have hbasis : weightAt k v c x = ∑ j ∈ range k, weightAt k v c (z j) * weightAt k z j x :=
    eval_eq_sum hz (degree_basis_lt hv (mem_range.mp hc)) x
  rw [hbasis, mul_sum]
  apply sum_congr rfl
  intro j _
  ring

/-- Scaling the nodes and the point together changes nothing. -/
theorem weightAt_mul {a : F} (ha : a ≠ 0) (v : Nat → F) (j : Nat) (x : F) :
    weightAt k (fun i => a * v i) j (a * x) = weightAt k v j x := by
  simp only [weightAt, Lagrange.basis, eval_prod]
  apply prod_congr rfl
  intro i _
  simp only [Lagrange.basisDivisor, eval_mul, eval_C, eval_sub, eval_X]
  rw [← mul_sub, ← mul_sub, mul_inv, mul_mul_mul_comm, inv_mul_cancel₀ ha, one_mul]

/-! ### One node replaced -/

section Exchange

variable {i : Nat} {z : F}

omit [Field F] in
theorem distinct_update (hv : Distinct k v) (hz : ∀ j < k, j ≠ i → z ≠ v j) :
    Distinct k (Function.update v i z) := by
  rw [distinct_iff] at hv ⊢
  intro a ha b hb hab
  by_cases hai : a = i
  · by_cases hbi : b = i
    · rw [hai, hbi]
    · rw [hai, Function.update_self, Function.update_of_ne hbi] at hab
      exact absurd hab (hz b hb hbi)
  · by_cases hbi : b = i
    · rw [hbi, Function.update_self, Function.update_of_ne hai] at hab
      exact absurd hab.symm (hz a ha hai)
    · rw [Function.update_of_ne hai, Function.update_of_ne hbi] at hab
      exact hv a ha b hb hab

/-- The polynomials of the old nodes, from the new nodes. -/
theorem weightAt_update (hv : Distinct k v) (hz : ∀ j < k, j ≠ i → z ≠ v j) (hi : i < k)
    {j : Nat} (hj : j < k) (x : F) : weightAt k v j x =
      weightAt k v j z * weightAt k (Function.update v i z) i x +
        if j = i then 0 else weightAt k (Function.update v i z) j x := by
  rw [weightAt, eval_eq_sum (distinct_update hv hz) (degree_basis_lt hv hj) x,
    ← add_sum_erase _ _ (mem_range.mpr hi), Function.update_self]
  congr 1
  have hval : ∀ m ∈ (range k).erase i, (Lagrange.basis (range k) v j).eval
      (Function.update v i z m) = if m = j then 1 else 0 := by
    intro m hm
    obtain ⟨hmi, hmk⟩ := mem_erase.mp hm
    rw [Function.update_of_ne hmi]
    split
    · next hmj => rw [hmj]; exact weightAt_self hv hj
    · next hmj => exact weightAt_of_ne (mem_range.mp hmk) (fun h => hmj h.symm)
  rw [sum_congr rfl fun m hm => by rw [hval m hm]]
  simp only [ite_mul, one_mul, zero_mul, sum_ite_eq', mem_erase, mem_range, hj, and_true, ite_not]

theorem weightAt_exchange_self (hv : Distinct k v) (hz : ∀ j < k, j ≠ i → z ≠ v j) (hi : i < k)
    (hne : weightAt k v i z ≠ 0) (x : F) :
    weightAt k (Function.update v i z) i x = weightAt k v i x / weightAt k v i z := by
  rw [eq_div_iff hne, weightAt_update hv hz hi hi x, if_pos rfl, add_zero, mul_comm]

theorem weightAt_exchange_ne (hv : Distinct k v) (hz : ∀ j < k, j ≠ i → z ≠ v j) (hi : i < k)
    (hne : weightAt k v i z ≠ 0) {j : Nat} (hj : j < k) (hij : j ≠ i) (x : F) :
    weightAt k (Function.update v i z) j x =
      weightAt k v j x - weightAt k v j z * (weightAt k v i x / weightAt k v i z) := by
  rw [← weightAt_exchange_self hv hz hi hne x, weightAt_update hv hz hi hj x, if_neg hij]
  ring

end Exchange

/-! ### The coefficients -/

/-- The polynomial with the value 1 at one node and 0 at the others is the product over
the nodes, divided by the factor of this node and by the value of the quotient at it. -/
theorem coeff_basis {j : Nat} (hj : j < k) (n : Nat) :
    (Lagrange.basis (range k) v j).coeff n =
      (Lagrange.nodal (range k) v /ₘ (X - C (v j))).coeff n /
        (Lagrange.nodal (range k) v /ₘ (X - C (v j))).eval (v j) := by
  have hmem := mem_range.mpr hj
  rw [divByMonic_eq_div _ (monic_X_sub_C _), Lagrange.basis_eq_prod_sub_inv_mul_nodal_div hmem,
    coeff_C_mul, Lagrange.nodalWeight_eq_eval_nodal_erase_inv,
    Lagrange.nodal_erase_eq_nodal_div hmem, mul_comm, div_eq_mul_inv]

end OnionNetwork.Lib
