import Mathlib.Algebra.BigOperators.Ring.Finset
import Mathlib.RingTheory.AdjoinRoot
import Mathlib.Tactic.Ring

/-!
# The negacyclic number-theoretic transform

Polynomials modulo `X ^ n + 1` for a power of two `n`, over a commutative ring with a table
of square roots. A layer of the transform halves the modulus: what is known modulo
`X ^ (2h) - s²` becomes what is known modulo `X ^ h - s` and modulo `X ^ h + s`.

* `layers_eq_sum` — after some layers, a block holds the remainder for its node;
* `evalAt_ofCoeffs` — at the end, each place holds the value at a root of `X ^ n + 1`;
* `unlayers_layers`, `layers_unlayers` — the layers backwards undo them, up to a factor;
* `NegaRing.ext_evalAt` — a residue is known by its values at the roots;
* `NegaRing.isUnit_iff` — over a field, it is invertible if none of these is zero.
-/

namespace OnionNetwork.Lib.Ntt

open Finset Polynomial

section Layers

variable {A : Type*} [CommRing A]

/-- What the node `k` of the tree is a square root of: the tree starts with `-1` at 1, and
the children of a node `k` are the two square roots of it, `g k` and `-g k`. -/
def node (g : Nat → A) (k : Nat) : A :=
  if k = 1 then -1 else if k % 2 = 0 then g (k / 2) else -g (k / 2)

@[simp]
theorem node_one (g : Nat → A) : node g 1 = -1 := rfl

theorem node_two_mul (g : Nat → A) (k : Nat) : node g (2 * k) = g k := by
  rw [node, if_neg (by omega), if_pos (by omega), Nat.mul_div_cancel_left k (by omega)]

theorem node_two_mul_add_one (g : Nat → A) {k : Nat} (hk : 0 < k) :
    node g (2 * k + 1) = -g k := by
  rw [node, if_neg (by omega), if_neg (by omega), show (2 * k + 1) / 2 = k by omega]

/-- A table of square roots for the nodes below `N`, and one of their inverses. -/
structure Twiddles (A : Type*) [CommRing A] (N : Nat) where
  root : Nat → A
  inv : Nat → A
  root_sq : ∀ k, 0 < k → k < N → root k ^ 2 = node root k
  root_mul_inv : ∀ k, 0 < k → k < N → root k * inv k = 1

/-- One layer: `m` blocks of twice `h` places. -/
def layer (g : Nat → A) (m h : Nat) (a : Nat → A) (x : Nat) : A :=
  if x % (2 * h) < h then a x + g (m + x / (2 * h)) * a (x + h)
  else a (x - h) - g (m + x / (2 * h)) * a x

/-- The same layer backwards. -/
def unlayer (g : Nat → A) (m h : Nat) (a : Nat → A) (x : Nat) : A :=
  if x % (2 * h) < h then a x + a (x + h) else (a (x - h) - a x) * g (m + x / (2 * h))

/-- The first layers of `logn`. -/
def layers (g : Nat → A) (logn : Nat) : Nat → (Nat → A) → Nat → A
  | 0, a => a
  | l + 1, a => layer g (2 ^ l) (2 ^ (logn - (l + 1))) (layers g logn l a)

/-- The same layers backwards. -/
def unlayers (g : Nat → A) (logn : Nat) : Nat → (Nat → A) → Nat → A
  | 0, a => a
  | l + 1, a => unlayers g logn l (unlayer g (2 ^ l) (2 ^ (logn - (l + 1))) a)

section Blocks

variable {g : Nat → A} {m h i j : Nat} {a b : Nat → A}

private theorem block_mod (hj : j < 2 * h) : (i * (2 * h) + j) % (2 * h) = j := by
  rw [Nat.add_comm, Nat.add_mul_mod_self_right, Nat.mod_eq_of_lt hj]

private theorem block_div (hj : j < 2 * h) : (i * (2 * h) + j) / (2 * h) = i := by
  rw [Nat.add_comm, Nat.add_mul_div_right j i (by omega), Nat.div_eq_of_lt hj, Nat.zero_add]

theorem layer_low (hj : j < h) :
    layer g m h a (i * (2 * h) + j) =
      a (i * (2 * h) + j) + g (m + i) * a (i * (2 * h) + (j + h)) := by
  rw [layer, block_mod (by omega), block_div (by omega), if_pos hj, Nat.add_assoc]

theorem layer_high (hj : j < h) :
    layer g m h a (i * (2 * h) + (j + h)) =
      a (i * (2 * h) + j) - g (m + i) * a (i * (2 * h) + (j + h)) := by
  rw [layer, block_mod (by omega), block_div (by omega), if_neg (by omega),
    show i * (2 * h) + (j + h) - h = i * (2 * h) + j by omega]

theorem unlayer_low (hj : j < h) :
    unlayer g m h a (i * (2 * h) + j) = a (i * (2 * h) + j) + a (i * (2 * h) + (j + h)) := by
  rw [unlayer, block_mod (by omega), if_pos hj, Nat.add_assoc]

theorem unlayer_high (hj : j < h) :
    unlayer g m h a (i * (2 * h) + (j + h)) =
      (a (i * (2 * h) + j) - a (i * (2 * h) + (j + h))) * g (m + i) := by
  rw [unlayer, block_mod (by omega), block_div (by omega), if_neg (by omega),
    show i * (2 * h) + (j + h) - h = i * (2 * h) + j by omega]

/-- A place of `m` blocks is in the lower or in the upper half of one of them. -/
theorem block_cases (hh : 0 < h) {x : Nat} (hx : x < m * (2 * h)) :
    ∃ i < m, ∃ j < h, x = i * (2 * h) + j ∨ x = i * (2 * h) + (j + h) := by
  have hmod := Nat.mod_lt x (show 0 < 2 * h by omega)
  have hdiv := Nat.div_add_mod' x (2 * h)
  refine ⟨x / (2 * h), Nat.div_lt_of_lt_mul (by rwa [Nat.mul_comm]), ?_⟩
  rcases Nat.lt_or_ge (x % (2 * h)) h with hlt | hge
  · exact ⟨x % (2 * h), hlt, .inl hdiv.symm⟩
  · exact ⟨x % (2 * h) - h, by omega, .inr (by omega)⟩

theorem block_lt (hi : i < m) (hj : j < 2 * h) : i * (2 * h) + j < m * (2 * h) := by
  have := Nat.mul_le_mul_right (2 * h) (show i + 1 ≤ m from hi)
  rw [Nat.succ_mul] at this
  omega

omit [CommRing A] in
/-- Pairs of places that are replaced together: no other place is read. -/
theorem pairs_congr {L : (Nat → A) → Nat → A} {p q : Nat → A → A → A}
    (hlow : ∀ a i j, j < h → L a (i * (2 * h) + j) =
      p i (a (i * (2 * h) + j)) (a (i * (2 * h) + (j + h))))
    (hhigh : ∀ a i j, j < h → L a (i * (2 * h) + (j + h)) =
      q i (a (i * (2 * h) + j)) (a (i * (2 * h) + (j + h))))
    (hh : 0 < h) (hab : ∀ x < m * (2 * h), a x = b x) {x : Nat} (hx : x < m * (2 * h)) :
    L a x = L b x := by
  obtain ⟨i, hi, j, hj, rfl | rfl⟩ := block_cases hh hx
  · rw [hlow a i j hj, hlow b i j hj, hab _ (block_lt hi (by omega)),
      hab _ (block_lt hi (by omega))]
  · rw [hhigh a i j hj, hhigh b i j hj, hab _ (block_lt hi (by omega)),
      hab _ (block_lt hi (by omega))]

/-- A layer reads its own places only. -/
theorem unlayer_congr (hh : 0 < h) (hab : ∀ x < m * (2 * h), a x = b x) {x : Nat}
    (hx : x < m * (2 * h)) : unlayer g m h a x = unlayer g m h b x :=
  pairs_congr (p := fun _ x y => x + y) (q := fun i x y => (x - y) * g (m + i))
    (fun _ _ _ hj => unlayer_low hj) (fun _ _ _ hj => unlayer_high hj) hh hab hx

theorem layer_congr (hh : 0 < h) (hab : ∀ x < m * (2 * h), a x = b x) {x : Nat}
    (hx : x < m * (2 * h)) : layer g m h a x = layer g m h b x :=
  pairs_congr (p := fun i x y => x + g (m + i) * y) (q := fun i x y => x - g (m + i) * y)
    (fun _ _ _ hj => layer_low hj) (fun _ _ _ hj => layer_high hj) hh hab hx

end Blocks

/-- The blocks of a layer fill the transform. -/
theorem blocks_eq {logn l : Nat} (hl : l < logn) :
    2 ^ l * (2 * 2 ^ (logn - (l + 1))) = 2 ^ logn := by
  rw [← Nat.pow_succ', ← Nat.pow_add]
  congr 1
  omega

theorem half_pos (logn l : Nat) : 0 < 2 ^ (logn - (l + 1)) := Nat.pow_pos (by omega)

section Congr

variable {g : Nat → A} {logn l : Nat} {a b : Nat → A}

theorem unlayers_congr (hl : l ≤ logn) (hab : ∀ x < 2 ^ logn, a x = b x) {x : Nat}
    (hx : x < 2 ^ logn) : unlayers g logn l a x = unlayers g logn l b x := by
  induction l generalizing a b with
  | zero => exact hab x hx
  | succ l ih =>
      have hn := blocks_eq (show l < logn from hl)
      apply ih (by omega)
      intro y hy
      exact unlayer_congr (half_pos logn l) (fun z hz => hab z (hn ▸ hz)) (hn.symm ▸ hy)

end Congr

/-! ### There and back -/

section Inverse

variable {N logn l : Nat} (T : Twiddles A N) {a : Nat → A}

theorem unlayer_mul (g : Nat → A) (m h : Nat) (c : A) (a : Nat → A) :
    unlayer g m h (fun x => c * a x) = fun x => c * unlayer g m h a x := by
  funext x
  simp only [unlayer]
  split <;> ring

theorem layer_mul (g : Nat → A) (m h : Nat) (c : A) (a : Nat → A) :
    layer g m h (fun x => c * a x) = fun x => c * layer g m h a x := by
  funext x
  simp only [layer]
  split <;> ring

theorem unlayers_mul (g : Nat → A) (logn l : Nat) (c : A) (a : Nat → A) :
    unlayers g logn l (fun x => c * a x) = fun x => c * unlayers g logn l a x := by
  induction l generalizing a with
  | zero => rfl
  | succ l ih => rw [unlayers, unlayer_mul, ih, unlayers]

theorem layers_mul (g : Nat → A) (logn l : Nat) (c : A) (a : Nat → A) :
    layers g logn l (fun x => c * a x) = fun x => c * layers g logn l a x := by
  induction l with
  | zero => rfl
  | succ l ih => rw [layers, ih, layer_mul, layers]

theorem unlayer_layer {m h : Nat} (hm : 0 < m) (hh : 0 < h) (hN : 2 * m ≤ N) {x : Nat}
    (hx : x < m * (2 * h)) : unlayer T.inv m h (layer T.root m h a) x = 2 * a x := by
  obtain ⟨i, hi, j, hj, rfl | rfl⟩ := block_cases hh hx
  · rw [unlayer_low hj, layer_low hj, layer_high hj]
    ring
  · have hinv := T.root_mul_inv (m + i) (Nat.add_pos_left hm i) (by omega)
    rw [unlayer_high hj, layer_low hj, layer_high hj]
    calc _ = 2 * (T.root (m + i) * T.inv (m + i)) * a (i * (2 * h) + (j + h)) := by ring
      _ = 2 * a (i * (2 * h) + (j + h)) := by rw [hinv, mul_one]

theorem layer_unlayer {m h : Nat} (hm : 0 < m) (hh : 0 < h) (hN : 2 * m ≤ N) {x : Nat}
    (hx : x < m * (2 * h)) : layer T.root m h (unlayer T.inv m h a) x = 2 * a x := by
  obtain ⟨i, hi, j, hj, rfl | rfl⟩ := block_cases hh hx
  all_goals have hinv := T.root_mul_inv (m + i) (Nat.add_pos_left hm i) (by omega)
  · rw [layer_low hj, unlayer_low hj, unlayer_high hj]
    calc _ = a (i * (2 * h) + j) + a (i * (2 * h) + (j + h)) +
          T.root (m + i) * T.inv (m + i) * (a (i * (2 * h) + j) - a (i * (2 * h) + (j + h))) := by
            ring
      _ = 2 * a (i * (2 * h) + j) := by
            rw [hinv]
            ring
  · rw [layer_high hj, unlayer_low hj, unlayer_high hj]
    calc _ = a (i * (2 * h) + j) + a (i * (2 * h) + (j + h)) -
          T.root (m + i) * T.inv (m + i) * (a (i * (2 * h) + j) - a (i * (2 * h) + (j + h))) := by
            ring
      _ = 2 * a (i * (2 * h) + (j + h)) := by
            rw [hinv]
            ring

private theorem nodes_le (hN : 2 ^ logn ≤ N) (hl : l < logn) : 2 * 2 ^ l ≤ N := by
  have := Nat.pow_le_pow_right (show 0 < 2 by omega) (show l + 1 ≤ logn from hl)
  rw [Nat.pow_succ'] at this
  omega

/-- **Backwards behind forwards.** -/
theorem unlayers_layers (hN : 2 ^ logn ≤ N) (hl : l ≤ logn) {x : Nat} (hx : x < 2 ^ logn) :
    unlayers T.inv logn l (layers T.root logn l a) x = 2 ^ l * a x := by
  induction l with
  | zero => rw [pow_zero, one_mul, unlayers, layers]
  | succ l ih =>
      have hn := blocks_eq (show l < logn from hl)
      have hundo : ∀ y < 2 ^ logn,
          unlayer T.inv (2 ^ l) (2 ^ (logn - (l + 1))) (layers T.root logn (l + 1) a) y =
            2 * layers T.root logn l a y := fun y hy =>
        unlayer_layer T (Nat.pow_pos (by omega)) (half_pos logn l) (nodes_le hN hl) (hn.symm ▸ hy)
      rw [unlayers, unlayers_congr (by omega) hundo hx, unlayers_mul]
      dsimp only
      rw [ih (by omega), pow_succ', mul_assoc]

/-- **Forwards behind backwards.** -/
theorem layers_unlayers (hN : 2 ^ logn ≤ N) (hl : l ≤ logn) {x : Nat} (hx : x < 2 ^ logn) :
    layers T.root logn l (unlayers T.inv logn l a) x = 2 ^ l * a x := by
  induction l generalizing a x with
  | zero => rw [pow_zero, one_mul, unlayers, layers]
  | succ l ih =>
      have hn := blocks_eq (show l < logn from hl)
      have hinner : ∀ y < 2 ^ l * (2 * 2 ^ (logn - (l + 1))),
          layers T.root logn l (unlayers T.inv logn (l + 1) a) y =
            2 ^ l * unlayer T.inv (2 ^ l) (2 ^ (logn - (l + 1))) a y := fun y hy =>
        ih (by omega) (hn ▸ hy)
      rw [layers, layer_congr (half_pos logn l) hinner (hn.symm ▸ hx), layer_mul]
      dsimp only
      rw [layer_unlayer T (Nat.pow_pos (by omega)) (half_pos logn l) (nodes_le hN hl)
        (hn.symm ▸ hx), pow_succ']
      ring

end Inverse

/-! ### What the transform computes -/

section Evaluation

variable {N logn l : Nat} (T : Twiddles A N) {a : Nat → A}

private theorem sum_range_two_mul (f : Nat → A) (n : Nat) :
    ∑ e ∈ range (2 * n), f e = ∑ e ∈ range n, (f (2 * e) + f (2 * e + 1)) := by
  induction n with
  | zero => rfl
  | succ n ih =>
      rw [show 2 * (n + 1) = 2 * n + 1 + 1 by ring, sum_range_succ, sum_range_succ, ih,
        sum_range_succ, add_assoc]

/-- One layer halves the remainder: `s` is a root of what the block is known modulo. -/
private theorem halve (a : Nat → A) (s : A) (m h j : Nat) :
    ∑ e ∈ range m, a (j + e * (2 * h)) * (s ^ 2) ^ e +
        s * ∑ e ∈ range m, a (j + h + e * (2 * h)) * (s ^ 2) ^ e =
      ∑ e ∈ range (2 * m), a (j + e * h) * s ^ e := by
  rw [sum_range_two_mul, mul_sum, ← sum_add_distrib]
  apply sum_congr rfl
  intro e _
  rw [show j + 2 * e * h = j + e * (2 * h) by ring,
    show j + (2 * e + 1) * h = j + h + e * (2 * h) by ring]
  ring

/-- **The invariant of the layers**: block `i` holds the remainder for its node. -/
theorem layers_eq_sum (hN : 2 ^ logn ≤ N) (hl : l ≤ logn) {i j : Nat} (hi : i < 2 ^ l)
    (hj : j < 2 ^ (logn - l)) :
    layers T.root logn l a (i * 2 ^ (logn - l) + j) =
      ∑ e ∈ range (2 ^ l), a (j + e * 2 ^ (logn - l)) * node T.root (2 ^ l + i) ^ e := by
  induction l generalizing i j with
  | zero =>
      obtain rfl : i = 0 := by omega
      simp [layers]
  | succ l ih =>
      set h := 2 ^ (logn - (l + 1)) with hh
      have hwidth : 2 ^ (logn - l) = 2 * h := by
        rw [hh, ← Nat.pow_succ']
        congr 1
        omega
      have hparent : ∀ p < 2 ^ l, T.root (2 ^ l + p) ^ 2 = node T.root (2 ^ l + p) := fun p hp =>
        T.root_sq _ (by omega) (by have := nodes_le hN (show l < logn from hl); omega)
      have hpow : 2 ^ (l + 1) = 2 * 2 ^ l := Nat.pow_succ'
      have hlow : ∀ p < 2 ^ l, ∀ k < 2 * h, layers T.root logn l a (p * (2 * h) + k) =
          ∑ e ∈ range (2 ^ l), a (k + e * (2 * h)) * (T.root (2 ^ l + p) ^ 2) ^ e := by
        intro p hp k hk
        have := ih (by omega) hp (hwidth.symm ▸ hk)
        rw [hwidth] at this
        rw [this, hparent p hp]
      rw [layers, hpow]
      obtain ⟨p, rfl | rfl⟩ := Nat.even_or_odd' i
      · -- the even child is the root itself
        rw [show 2 * p * h + j = p * (2 * h) + j by ring, layer_low hj,
          hlow p (by omega) j (by omega), hlow p (by omega) (j + h) (by omega),
          show 2 * 2 ^ l + 2 * p = 2 * (2 ^ l + p) by ring,
          node_two_mul, halve]
      · -- the odd one its negative, which has the same square
        rw [show (2 * p + 1) * h + j = p * (2 * h) + (j + h) by ring, layer_high hj,
          hlow p (by omega) j (by omega), hlow p (by omega) (j + h) (by omega),
          show 2 * 2 ^ l + (2 * p + 1) = 2 * (2 ^ l + p) + 1 by ring,
          node_two_mul_add_one _ (by have := Nat.pow_pos (n := l) (show 0 < 2 by omega); omega),
          ← halve, neg_sq]
        ring

/-- The root that the place `x` of the transform belongs to. -/
def point (logn x : Nat) : A := node T.root (2 ^ logn + x)

theorem layers_eq_eval (hN : 2 ^ logn ≤ N) {x : Nat} (hx : x < 2 ^ logn) :
    layers T.root logn logn a x = ∑ e ∈ range (2 ^ logn), a e * point T logn x ^ e := by
  have h : layers T.root logn logn a (x * 2 ^ (logn - logn) + 0) = _ :=
    layers_eq_sum T hN (Nat.le_refl logn) hx (by simp)
  simpa [point] using h

theorem node_pow (hN : 2 ^ l ≤ N) {i : Nat} (hi : i < 2 ^ l) :
    node T.root (2 ^ l + i) ^ 2 ^ l = -1 := by
  induction l generalizing i with
  | zero =>
      obtain rfl : i = 0 := by omega
      simp
  | succ l ih =>
      have hpow : 2 ^ (l + 1) = 2 * 2 ^ l := Nat.pow_succ'
      have hsq : node T.root (2 ^ (l + 1) + i) ^ 2 = node T.root (2 ^ l + i / 2) := by
        have hpos := Nat.pow_pos (n := l) (show 0 < 2 by omega)
        rw [← T.root_sq (2 ^ l + i / 2) (by omega) (by omega), hpow]
        obtain ⟨p, rfl | rfl⟩ := Nat.even_or_odd' i
        · rw [show 2 * 2 ^ l + 2 * p = 2 * (2 ^ l + p) by ring, node_two_mul,
            Nat.mul_div_cancel_left p (by omega)]
        · rw [show 2 * 2 ^ l + (2 * p + 1) = 2 * (2 ^ l + p) + 1 by ring,
            node_two_mul_add_one _ (by omega), neg_sq, show (2 * p + 1) / 2 = p by omega]
      rw [hpow, pow_mul, ← hpow, hsq, ih (by omega) (by omega)]

theorem point_pow (hN : 2 ^ logn ≤ N) {x : Nat} (hx : x < 2 ^ logn) :
    point T logn x ^ 2 ^ logn = -1 :=
  node_pow T hN hx

end Evaluation

end Layers

/-! ## The ring -/

/-- Polynomials modulo `X ^ n + 1`. -/
abbrev NegaRing (A : Type*) [CommRing A] (n : Nat) := AdjoinRoot (X ^ n + 1 : A[X])

namespace NegaRing

section CommRing

variable {A : Type*} [CommRing A] {n : Nat}

/-- The polynomial with these coefficients. -/
noncomputable def poly (n : Nat) (a : Nat → A) : A[X] := ∑ e ∈ range n, C (a e) * X ^ e

/-- The residue of the polynomial with these coefficients. -/
noncomputable def ofCoeffs (n : Nat) (a : Nat → A) : NegaRing A n := AdjoinRoot.mk _ (poly n a)

theorem monic (hn : n ≠ 0) : (X ^ n + 1 : A[X]).Monic := by
  simpa using monic_X_pow_add_C (1 : A) hn

theorem natDegree_modulus [Nontrivial A] : (X ^ n + 1 : A[X]).natDegree = n := by
  simpa using natDegree_X_pow_add_C (n := n) (r := (1 : A))

theorem coeff_poly (a : Nat → A) (e : Nat) : (poly n a).coeff e = if e < n then a e else 0 := by
  simp [poly, coeff_C_mul, coeff_X_pow]

theorem degree_poly (a : Nat → A) : (poly n a).degree < n := by
  rw [degree_lt_iff_coeff_zero]
  intro e he
  rw [coeff_poly, if_neg (by omega)]

theorem poly_congr {a b : Nat → A} (hab : ∀ e < n, a e = b e) : poly n a = poly n b :=
  sum_congr rfl fun e he => by rw [hab e (mem_range.mp he)]

theorem ofCoeffs_congr {a b : Nat → A} (hab : ∀ e < n, a e = b e) :
    ofCoeffs n a = ofCoeffs n b := by
  rw [ofCoeffs, poly_congr hab, ofCoeffs]

theorem ofCoeffs_sub (a b : Nat → A) :
    ofCoeffs n (fun e => a e - b e) = ofCoeffs n a - ofCoeffs n b := by
  rw [ofCoeffs, ofCoeffs, ofCoeffs, ← map_sub]
  congr 1
  simp only [poly, map_sub, sub_mul, sum_sub_distrib]

theorem ofCoeffs_neg (a : Nat → A) : ofCoeffs n (fun e => -a e) = -ofCoeffs n a := by
  rw [ofCoeffs, ofCoeffs, ← map_neg]
  congr 1
  simp only [poly, map_neg, neg_mul, sum_neg_distrib]

theorem ofCoeffs_eq_sum (a : Nat → A) :
    ofCoeffs n a = ∑ e ∈ range n, AdjoinRoot.of _ (a e) * AdjoinRoot.root _ ^ e := by
  rw [ofCoeffs, poly, map_sum]
  simp only [map_mul, map_pow, AdjoinRoot.mk_X, AdjoinRoot.mk_C]

/-- The power of `X` that comes to `-1`. -/
theorem root_pow_pow {d m : Nat} (h : d * m = n) :
    (AdjoinRoot.root (X ^ n + 1 : A[X]) ^ d) ^ m = -1 := by
  have hroot : AdjoinRoot.mk (X ^ n + 1 : A[X]) (X ^ n + 1) = 0 := AdjoinRoot.mk_self
  rw [map_add, map_pow, AdjoinRoot.mk_X, map_one] at hroot
  rw [← pow_mul, h]
  exact eq_neg_of_add_eq_zero_left hroot

/-- The coefficients of a residue are its own. -/
theorem ofCoeffs_inj [Nontrivial A] (hn : n ≠ 0) {a b : Nat → A} :
    ofCoeffs n a = ofCoeffs n b ↔ ∀ e < n, a e = b e := by
  constructor
  · intro h e he
    by_contra hne
    have hsub : ofCoeffs n (fun e => a e - b e) = 0 := by rw [ofCoeffs_sub, h, sub_self]
    have hcoeff : (poly n fun e => a e - b e).coeff e ≠ 0 := by
      rw [coeff_poly, if_pos he]
      exact sub_ne_zero.mpr hne
    have hdeg : (poly n fun e => a e - b e).degree < (X ^ n + 1 : A[X]).degree := by
      rw [degree_eq_natDegree (monic hn).ne_zero, natDegree_modulus]
      exact degree_poly _
    exact AdjoinRoot.mk_ne_zero_of_degree_lt (monic hn) (fun h0 => hcoeff (by rw [h0, coeff_zero]))
      hdeg hsub
  · exact ofCoeffs_congr

theorem exists_ofCoeffs [Nontrivial A] (hn : n ≠ 0) (p : NegaRing A n) :
    ∃ a, ofCoeffs n a = p := by
  obtain ⟨f, rfl⟩ := AdjoinRoot.mk_surjective p
  refine ⟨(f %ₘ (X ^ n + 1)).coeff, ?_⟩
  have hlt : (f %ₘ (X ^ n + 1)).natDegree < n := by
    have := natDegree_modByMonic_lt f (monic hn) fun h => hn (by
      have h1 := congrArg natDegree h
      rwa [natDegree_modulus, natDegree_one] at h1)
    rwa [natDegree_modulus] at this
  have hpoly : poly n (f %ₘ (X ^ n + 1)).coeff = f %ₘ (X ^ n + 1) :=
    (as_sum_range_C_mul_X_pow' _ hlt).symm
  rw [ofCoeffs, hpoly, AdjoinRoot.mk_eq_mk]
  refine ⟨-(f /ₘ (X ^ n + 1)), ?_⟩
  have := modByMonic_add_div f (X ^ n + 1)
  linear_combination this

variable {N logn : Nat} (T : Twiddles A N) (hN : 2 ^ logn ≤ N) {x : Nat} (hx : x < 2 ^ logn)

/-- The value at the root of the place `x`. -/
noncomputable def evalAt : NegaRing A (2 ^ logn) →+* A :=
  AdjoinRoot.lift (RingHom.id A) (point T logn x) (by
    rw [eval₂_add, eval₂_X_pow, eval₂_one, point_pow T hN hx, neg_add_cancel])

/-- **The transform evaluates.** -/
theorem evalAt_ofCoeffs (a : Nat → A) :
    evalAt T hN hx (ofCoeffs (2 ^ logn) a) = layers T.root logn logn a x := by
  rw [evalAt, ofCoeffs, AdjoinRoot.lift_mk, layers_eq_eval T hN hx, poly, eval₂_finsetSum]
  simp only [eval₂_mul, eval₂_C, eval₂_X_pow, RingHom.id_apply]

end CommRing

section Field

variable {F : Type*} [Field F] {N logn : Nat} (T : Twiddles F N) (hN : 2 ^ logn ≤ N)
  (htwo : (2 : F) ≠ 0)

include htwo

/-- **A residue is known by its values.** -/
theorem ext_evalAt {p q : NegaRing F (2 ^ logn)}
    (h : ∀ x (hx : x < 2 ^ logn), evalAt T hN hx p = evalAt T hN hx q) : p = q := by
  have hn : 2 ^ logn ≠ 0 := (Nat.two_pow_pos logn).ne'
  obtain ⟨a, rfl⟩ := exists_ofCoeffs hn p
  obtain ⟨b, rfl⟩ := exists_ofCoeffs hn q
  apply ofCoeffs_congr
  intro x hx
  have hvalues : ∀ y < 2 ^ logn, layers T.root logn logn a y = layers T.root logn logn b y := by
    intro y hy
    rw [← evalAt_ofCoeffs T hN hy, ← evalAt_ofCoeffs T hN hy, h y hy]
  have hback := unlayers_congr (g := T.inv) (Nat.le_refl logn) hvalues hx
  rw [unlayers_layers T hN (Nat.le_refl logn) hx,
    unlayers_layers T hN (Nat.le_refl logn) hx] at hback
  exact mul_left_cancel₀ (pow_ne_zero logn htwo) hback

/-- Any values at the roots are the ones of a residue. -/
theorem exists_evalAt (v : Nat → F) : ∃ p : NegaRing F (2 ^ logn),
    ∀ x (hx : x < 2 ^ logn), evalAt T hN hx p = v x := by
  refine ⟨ofCoeffs _ (unlayers T.inv logn logn fun x => (2 ^ logn)⁻¹ * v x), ?_⟩
  intro x hx
  rw [evalAt_ofCoeffs, layers_unlayers T hN (Nat.le_refl logn) hx,
    mul_inv_cancel_left₀ (pow_ne_zero logn htwo)]

/-- **What is invertible.** -/
theorem isUnit_iff (p : NegaRing F (2 ^ logn)) :
    IsUnit p ↔ ∀ x (hx : x < 2 ^ logn), evalAt T hN hx p ≠ 0 := by
  constructor
  · intro hp x hx
    exact (hp.map (evalAt T hN hx)).ne_zero
  · intro hp
    obtain ⟨q, hq⟩ := exists_evalAt T hN htwo fun x =>
      if hx : x < 2 ^ logn then (evalAt T hN hx p)⁻¹ else 0
    refine .of_mul_eq_one q (ext_evalAt T hN htwo fun x hx => ?_)
    rw [map_mul, map_one, hq x hx, dif_pos hx, mul_inv_cancel₀ (hp x hx)]

end Field

end NegaRing

end OnionNetwork.Lib.Ntt
