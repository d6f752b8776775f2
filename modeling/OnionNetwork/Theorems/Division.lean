import Mathlib.Data.List.GetD
import OnionNetwork.Fec.Decode

/-!
# The division of polynomials

A round of `Poly::div` takes the leading coefficient off the dividend and pushes a coefficient
of the quotient, the highest first, behind a zero that is there from the start. Since every
round shortens the dividend by one, whatever its coefficients are, the lengths alone decide
when the loop ends (`divLoop_eq`).

`pop` reads the place behind the last coefficient. With 256 coefficients there is none, so that
the division panics (`divides_iff`); otherwise the value is only looked at by an assertion.
-/

namespace OnionNetwork.Fec.Poly

open scoped Polynomial
open Finset

/-- The polynomial of the coefficients in use. -/
noncomputable def value (p : Poly) : Gf[X] := ∑ i ∈ range p.len, Polynomial.monomial i (p.data i)

variable {p q r b : Poly} {debugAssertions : Bool}

theorem coeff_value (p : Poly) (j : Nat) : p.value.coeff j = if j < p.len then p.data j else 0 := by
  simp only [value, Polynomial.finsetSum_coeff, Polynomial.coeff_monomial]
  rw [sum_ite_eq' (range p.len) j p.data]
  exact if_congr mem_range rfl rfl

theorem degree_value_lt (p : Poly) : p.value.degree < p.len := by
  rw [Polynomial.degree_lt_iff_coeff_zero]
  intro j hj
  rw [coeff_value, if_neg (not_lt.mpr hj)]

theorem asSlice_eq_nil : p.asSlice = [] ↔ p.len = 0 := by
  rw [asSlice, List.map_eq_nil_iff, List.range_eq_nil]

theorem getLast_asSlice (hp : 0 < p.len) : p.asSlice.getLast? = some (p.data (p.len - 1)) := by
  obtain ⟨n, hn⟩ := Nat.exists_eq_succ_of_ne_zero hp.ne'
  rw [asSlice, hn, Nat.succ_eq_add_one, List.range_succ, List.map_append, List.map_singleton,
    List.getLast?_append_of_ne_nil _ (List.cons_ne_nil _ _)]
  rfl

/-! ## The zeros at the end -/

/-- What is taken off are zeros, and in front of them there is none. -/
theorem trailingZeros_eq (data : Nat → Gf) (len : Nat) :
    let zeros := (((List.range len).map data).reverse.takeWhile (· = 0)).length
    zeros ≤ len ∧ (∀ i, len - zeros ≤ i → i < len → data i = 0) ∧
      (zeros < len → data (len - zeros - 1) ≠ 0) := by
  induction len with
  | zero =>
      exact ⟨Nat.le_refl 0, fun i _ hi => absurd hi (Nat.not_lt_zero i),
        fun h => absurd h (Nat.lt_irrefl 0)⟩
  | succ len ih =>
      obtain ⟨hle, hzero, hlead⟩ := ih
      rw [List.range_succ, List.map_append, List.map_singleton, List.reverse_append,
        List.reverse_singleton, List.singleton_append]
      by_cases hlast : data len = 0
      · rw [List.takeWhile_cons, if_pos (decide_eq_true hlast), List.length_cons]
        refine ⟨by omega, fun i hi hlt => ?_, fun hlt => ?_⟩
        · rcases Nat.lt_succ_iff_lt_or_eq.mp hlt with hlt | rfl
          · exact hzero i (by omega) hlt
          · exact hlast
        · rw [Nat.add_sub_add_right]
          exact hlead (by omega)
      · rw [List.takeWhile_cons, if_neg (by rwa [decide_eq_true_eq])]
        refine ⟨Nat.zero_le _, fun i hi hlt => ?_, fun _ => hlast⟩
        have hlength : ([] : List Gf).length = 0 := rfl
        omega

/-- What `sanitize` leaves: the coefficients without the zeros at the end, but at least one. -/
structure Trimmed (p p' : Poly) : Prop where
  data : p'.data = p.data
  pos : 0 < p'.len
  lead : p'.len = 1 ∨ p.data (p'.len - 1) ≠ 0
  zeros : ∀ i, p'.len ≤ i → i < p.len → p.data i = 0
  le : p'.len ≤ max p.len 1

theorem trimmed_sanitize (p : Poly) : Trimmed p p.sanitize := by
  obtain ⟨hle, hzero, hlead⟩ := trailingZeros_eq p.data p.len
  refine ⟨rfl, Nat.lt_of_lt_of_le Nat.one_pos (le_max_right _ _), ?_, ?_, ?_⟩
  · rcases Nat.lt_or_ge 1 p.sanitize.len with hlt | hge
    · have hlen : p.sanitize.len = p.len -
          (p.asSlice.reverse.takeWhile (· = 0)).length := max_eq_left (by
        by_contra hsmall
        have hone : p.sanitize.len = 1 := max_eq_right (by omega)
        omega)
      rw [hlen]
      refine .inr (hlead ?_)
      show (p.asSlice.reverse.takeWhile (· = 0)).length < p.len
      omega
    · have hone : 1 ≤ p.sanitize.len := le_max_right _ _
      exact .inl (by omega)
  · intro i hi hlt
    exact hzero i (le_trans (le_max_left _ _) hi) hlt
  · exact max_le_max (Nat.sub_le _ _) (Nat.le_refl 1)

/-- Nothing is taken off where the last coefficient is not zero. -/
theorem sanitize_eq (hpos : 0 < p.len) (hlead : p.data (p.len - 1) ≠ 0) : p.sanitize = p := by
  have ht := trimmed_sanitize p
  have hle := ht.le
  have hge : p.len ≤ p.sanitize.len := by
    by_contra hlt
    exact hlead (ht.zeros (p.len - 1) (by omega) (by omega))
  have hlen : p.sanitize.len = p.len := by omega
  show (⟨p.data, p.sanitize.len⟩ : Poly) = p
  rw [hlen]

/-- Nothing that is not zero has been popped off and left in the first place. -/
def FirstClear (p : Poly) : Prop := p.len = 0 → p.data 0 = 0

theorem value_sanitize (h : p.FirstClear) : p.sanitize.value = p.value := by
  have ht := trimmed_sanitize p
  ext j
  rw [coeff_value, coeff_value, ht.data]
  by_cases hj : j < p.sanitize.len
  · rw [if_pos hj]
    split
    · rfl
    · next hlen =>
        have hle := ht.le
        have hzero : p.len = 0 := by omega
        have hj0 : j = 0 := by omega
        rw [hj0, h hzero]
  · rw [if_neg hj]
    split
    · next hlen => exact (ht.zeros j (not_lt.mp hj) hlen).symm
    · rfl

/-- The length is the degree and one. -/
theorem len_sanitize (h : p.FirstClear) : p.sanitize.len = p.value.natDegree + 1 := by
  have ht := trimmed_sanitize p
  have hpos := ht.pos
  rw [← value_sanitize h]
  have hle : p.sanitize.value.natDegree ≤ p.sanitize.len - 1 := by
    rw [Polynomial.natDegree_le_iff_coeff_eq_zero]
    intro j hj
    rw [coeff_value, if_neg (by omega)]
  rcases ht.lead with hone | hlead
  · omega
  · have hcoeff : p.sanitize.value.coeff (p.sanitize.len - 1) ≠ 0 := by
      rw [coeff_value, if_pos (by omega), ht.data]
      exact hlead
    have := Polynomial.le_natDegree_of_ne_zero hcoeff
    omega

/-! ## A round -/

/-- A polynomial that can be divided by: its last coefficient in use is not zero. -/
structure Divisor (b : Poly) : Prop where
  pos : 0 < b.len
  lead : b.data (b.len - 1) ≠ 0

/-- The coefficient that a round pushes. -/
def coef (b p : Poly) : Gf := p.data (p.len - 1) / b.data (b.len - 1)

/-- What a round makes of the quotient. -/
def pushed (q : Poly) (x : Gf) : Poly := ⟨Function.update q.data q.len x, q.len + 1⟩

/-- What a round makes of the dividend. -/
def reduced (b p : Poly) : Poly :=
  ⟨fun i => if p.len - b.len ≤ i ∧ i < p.len then
    p.data i + coef b p * b.data (i - (p.len - b.len)) else p.data i, p.len - 1⟩

theorem getD_padded (n : Nat) (p : Poly) (i : Nat) :
    (List.replicate n 0 ++ p.asSlice).getD i 0 =
      if n ≤ i ∧ i < n + p.len then p.data (i - n) else 0 := by
  rcases Nat.lt_or_ge i n with hlt | hge
  · rw [List.getD_append _ _ _ _ (by rwa [List.length_replicate]), List.getD_replicate _ hlt,
      if_neg (by omega)]
  · rw [List.getD_append_right _ _ _ _ (by rwa [List.length_replicate]), List.length_replicate,
      asSlice, List.getD_eq_getElem?_getD, List.getElem?_map]
    by_cases hin : i < n + p.len
    · rw [List.getElem?_range (by omega), if_pos ⟨hge, hin⟩]
      rfl
    · rw [List.getElem?_eq_none (by rw [List.length_range]; omega), if_neg (fun h => hin h.2)]
      rfl

/-- The multiple of the divisor, with zeros in front up to the length of the dividend. -/
def padded (b p : Poly) : List Gf :=
  List.replicate (p.len - b.len) 0 ++ (b.scale (coef b p)).asSlice

theorem length_padded (hle : b.len ≤ p.len) : (padded b p).length = p.len := by
  rw [padded, List.length_append, List.length_replicate, asSlice, List.length_map,
    List.length_range]
  exact Nat.sub_add_cancel hle

/-- Adding it is what `reduced` says. -/
theorem add_padded (b p : Poly) : p.add ⟨fun i => (padded b p).getD i 0, p.len⟩ =
    ⟨(reduced b p).data, p.len⟩ := by
  rw [add, reduced]
  congr 1
  funext i
  simp only [padded, getD_padded]
  by_cases hi : i < p.len
  · rw [if_pos ⟨hi, hi⟩]
    by_cases hn : p.len - b.len ≤ i
    · by_cases hin : i - (p.len - b.len) < b.len
      · have hlen : i < p.len - b.len + (b.scale (coef b p)).len := by
          show i < p.len - b.len + b.len
          omega
        rw [if_pos ⟨hn, hlen⟩, if_pos ⟨hn, hi⟩, scale]
        simp only [if_pos hin]
        rfl
      · omega
    · rw [if_neg (fun h => hn h.1), if_neg (fun h => hn h.1)]
      exact add_zero (p.data i)
  · rw [if_neg (fun h => hi h.1), if_neg (fun h => hi h.2)]

theorem pop_of_lt (hpos : 0 < p.len) (hfits : p.len < 256) :
    p.pop = some (some (p.data p.len), ⟨p.data, p.len - 1⟩) := by
  rw [pop, if_neg hpos.ne', if_pos hfits]

theorem pop_of_ge (hlong : 256 ≤ p.len) : p.pop = none := by
  rw [pop, if_neg (by omega), if_neg (by omega)]

/-- **A round** panics where the array ends, and with debug assertions where something is left
behind the last coefficient. -/
theorem divRound_eq (hb : b.Divisor) (hle : b.len ≤ p.len) (hq : q.len < 256) :
    divRound debugAssertions b q p =
      if p.len < 256 ∧ (debugAssertions = true → p.data p.len = 0) then
        some (some (q.pushed (coef b p), reduced b p))
      else none := by
  have hpos := hb.pos
  have hdegP : p.deg = some (p.len - 1) := if_neg (by omega)
  have hdegB : (b.scale (coef b p)).deg = some (b.len - 1) := if_neg hb.pos.ne'
  have hpush : q.push (coef b p) = some (q.pushed (coef b p)) := if_pos hq
  have hshift : p.len - 1 - (b.len - 1) = p.len - b.len := by omega
  have hround : divRound debugAssertions b q p = (fromIter (padded b p)).bind fun multiple =>
      (p.add multiple).pop.bind fun popped =>
        if debugAssertions && popped.1 ≠ some 0 then none
        else some (some (q.pushed (coef b p), popped.2)) := by
    unfold divRound
    rw [getLast_asSlice hb.pos, getLast_asSlice (by omega : 0 < p.len), Option.getD_some]
    simp only [div_eq hb.lead]
    rw [← coef]
    simp only [hpush, hdegP, hdegB, hshift]
    rfl
  rw [hround, fromIter, length_padded hle]
  rcases Nat.lt_or_ge p.len 256 with hfits | hlong
  · -- the assertion reads the coefficient behind the array, which no round writes
    have hbehind : (reduced b p).data p.len = p.data p.len := if_neg fun h => Nat.lt_irrefl _ h.2
    have hpop := pop_of_lt (p := ⟨(reduced b p).data, p.len⟩) (by omega : 0 < p.len) hfits
    rw [if_pos hfits.le, Option.bind_some, add_padded, hpop, Option.bind_some]
    show (if (debugAssertions && decide (some ((reduced b p).data p.len) ≠ some 0)) = true then
      none else some (some (q.pushed (coef b p), reduced b p))) = _
    rw [hbehind]
    by_cases hclean : debugAssertions = true → p.data p.len = 0
    · rw [if_pos (show p.len < 256 ∧ _ from ⟨hfits, hclean⟩), if_neg]
      simpa using hclean
    · rw [if_neg (show ¬ (p.len < 256 ∧ _) from fun h => hclean h.2), if_pos]
      simpa using hclean
  · rw [if_neg (show ¬ (p.len < 256 ∧ _) from fun h => absurd h.1 (not_lt.mpr hlong))]
    split
    · have hpop := pop_of_ge (p := ⟨(reduced b p).data, p.len⟩) hlong
      rw [Option.bind_some, add_padded, hpop]
      rfl
    · rfl

/-- The last coefficient vanishes. -/
theorem data_reduced (hb : b.Divisor) (hle : b.len ≤ p.len) :
    (reduced b p).data (reduced b p).len = 0 := by
  have hpos := hb.pos
  have hlast : p.len - 1 - (p.len - b.len) = b.len - 1 := by omega
  show (if p.len - b.len ≤ p.len - 1 ∧ p.len - 1 < p.len then
    p.data (p.len - 1) + coef b p * b.data (p.len - 1 - (p.len - b.len)) else _) = (0 : Gf)
  rw [if_pos (by omega), hlast, coef, div_mul_cancel₀ _ hb.lead]
  exact add_self _

/-- What is taken off is a multiple of the divisor. -/
theorem value_reduced (hb : b.Divisor) (hle : b.len ≤ p.len) :
    Polynomial.C (coef b p) * (Polynomial.X ^ (p.len - b.len) * b.value) + (reduced b p).value =
      p.value := by
  have hpos := hb.pos
  ext j
  rw [Polynomial.coeff_add, Polynomial.coeff_C_mul, Polynomial.coeff_X_pow_mul', coeff_value,
    coeff_value, coeff_value]
  show _ + (if j < p.len - 1 then
    if p.len - b.len ≤ j ∧ j < p.len then _ else _ else 0) = _
  by_cases hn : p.len - b.len ≤ j
  · rw [if_pos hn]
    by_cases hj : j < p.len - 1
    · rw [if_pos (by omega), if_pos hj, if_pos (by omega), if_pos (by omega), add_left_comm,
        add_self, add_zero]
    · rw [if_neg hj, add_zero]
      by_cases hlast : j < p.len
      · have hjlast : j = p.len - 1 := by omega
        have hidx : p.len - 1 - (p.len - b.len) = b.len - 1 := by omega
        rw [if_pos hlast, if_pos (by omega), hjlast, hidx, coef, div_mul_cancel₀ _ hb.lead]
      · rw [if_neg hlast, if_neg (by omega), mul_zero]
  · rw [if_neg hn, mul_zero, zero_add, if_pos (by omega), if_neg (fun h => hn h.1),
      if_pos (by omega)]

/-! ## The loop -/

/-- The coefficients of the quotient, the highest first. -/
noncomputable def quotient (n : Nat) (q : Poly) : Gf[X] :=
  ∑ t ∈ range q.len, Polynomial.monomial (n - t) (q.data t)

theorem quotient_pushed (n : Nat) (q : Poly) (x : Gf) :
    quotient n (q.pushed x) = quotient n q + Polynomial.monomial (n - q.len) x := by
  have hlen : (q.pushed x).len = q.len + 1 := rfl
  have hself : (q.pushed x).data q.len = x := by simp only [pushed, Function.update_self]
  rw [quotient, hlen, sum_range_succ, hself, quotient]
  congr 1
  refine sum_congr rfl fun t ht => ?_
  have hother : (q.pushed x).data t = q.data t := by
    simp only [pushed, Function.update_of_ne (mem_range.mp ht).ne]
  rw [hother]

theorem value_reverse (q : Poly) {n : Nat} (hlen : q.len = n + 1) :
    q.reverse.value = quotient n q := by
  rw [quotient, hlen, ← sum_range_reflect, value]
  have hrange : q.reverse.len = n + 1 := hlen
  rw [hrange]
  refine sum_congr rfl fun i hi => ?_
  have hlt := mem_range.mp hi
  have hdata : q.reverse.data i = q.data (n + 1 - 1 - i) := by
    show (if i < q.len then q.data (q.len - 1 - i) else _) = _
    rw [hlen, if_pos hlt]
  have hback : n - (n + 1 - 1 - i) = i := by omega
  rw [hdata, hback]

theorem degLe_iff (hb : 0 < b.len) : degLe b.deg p.deg = true ↔ b.len ≤ p.len := by
  have hdegB : b.deg = some (b.len - 1) := if_neg hb.ne'
  rw [hdegB, deg]
  split
  · next hp =>
      rw [hp]
      exact ⟨fun h => absurd h Bool.false_ne_true, fun h => by omega⟩
  · show decide (b.len - 1 ≤ p.len - 1) = true ↔ _
    rw [decide_eq_true_eq]
    omega

/-- No round panics. -/
def Safe (debugAssertions : Bool) (b p : Poly) : Prop :=
  b.len ≤ p.len → p.len < 256 ∧ (debugAssertions = true → p.data p.len = 0)

/-- **The loop** ends with less than the length of the divisor, and what it has taken off is the
quotient times the divisor. -/
theorem divLoop_eq (hb : b.Divisor) {n : Nat} (hn : n < 256) {len : Nat} :
    ∀ {q p : Poly}, p.len = len → n + 1 = q.len + (p.len + 1 - b.len) →
      Safe debugAssertions b p → p.FirstClear →
      ∃ q' r, divLoop debugAssertions b len q p = some (some (q', r)) ∧ q'.len = n + 1 ∧
        r.len < b.len ∧ r.FirstClear ∧
        quotient n q' * b.value + r.value = quotient n q * b.value + p.value := by
  have hpos := hb.pos
  induction len with
  | zero =>
      intro q p hp hlen _ hclear
      exact ⟨q, p, rfl, by omega, by omega, hclear, rfl⟩
  | succ len ih =>
      intro q p hp hlen hsafe hclear
      rw [divLoop]
      by_cases hle : b.len ≤ p.len
      · obtain ⟨hfits, hclean⟩ := hsafe hle
        have hround : divRound debugAssertions b q p =
            some (some (q.pushed (coef b p), reduced b p)) := by
          rw [divRound_eq hb hle (by omega : q.len < 256)]
          exact if_pos ⟨hfits, hclean⟩
        rw [if_pos ((degLe_iff hpos).mpr hle), hround]
        have hlast := data_reduced hb hle
        have hreduced : (reduced b p).len = p.len - 1 := rfl
        have hpushed : (q.pushed (coef b p)).len = q.len + 1 := rfl
        obtain ⟨q', r, hloop, hlen', hr, hclear', hvalue⟩ := ih
          (q := q.pushed (coef b p)) (p := reduced b p) (by omega) (by omega)
          (fun _ => ⟨by omega, fun _ => hlast⟩) (fun h => h ▸ hlast)
        refine ⟨q', r, hloop, hlen', hr, hclear', ?_⟩
        have hexp : n - q.len = p.len - b.len := by omega
        rw [hvalue, quotient_pushed, hexp, ← value_reduced hb hle,
          ← Polynomial.C_mul_X_pow_eq_monomial]
        ring
      · rw [if_neg fun h => hle ((degLe_iff hpos).mp h)]
        exact ⟨q, p, rfl, by omega, by omega, hclear, rfl⟩

/-- A round that panics is the first. -/
theorem divLoop_none (hb : b.Divisor) (hq : q.len < 256) (hp : 0 < p.len)
    (hbad : ¬ Safe debugAssertions b p) : divLoop debugAssertions b p.len q p = none := by
  obtain ⟨hle, hround⟩ := Classical.not_imp.mp hbad
  obtain ⟨len, hlen⟩ := Nat.exists_eq_succ_of_ne_zero hp.ne'
  rw [hlen, divLoop, if_pos ((degLe_iff hb.pos).mpr hle), divRound_eq hb hle hq, if_neg hround]

/-! ## The whole function -/

theorem degree_value (hb : b.Divisor) : b.value.degree = ((b.len - 1 : Nat) : WithBot Nat) := by
  have hpos := hb.pos
  apply le_antisymm
  · rw [Polynomial.degree_le_iff_coeff_zero]
    intro j hj
    have hlt : b.len - 1 < j := WithBot.coe_lt_coe.mp hj
    rw [coeff_value, if_neg (by omega)]
  · refine Polynomial.le_degree_of_ne_zero ?_
    rw [coeff_value, if_pos (by omega)]
    exact hb.lead

theorem div_eq_loop (hb : b.sanitize.Divisor) : div debugAssertions p b =
    (divLoop debugAssertions b.sanitize p.sanitize.len (zero 1) p.sanitize).map
      (Option.map fun result => (result.1.reverse.sanitize, result.2.sanitize)) := by
  have hp := (trimmed_sanitize p).pos
  have hpos := hb.pos
  unfold div
  simp only
  rw [if_neg (fun h => hpos.ne' (asSlice_eq_nil.mp h)),
    if_neg (fun h => hp.ne' (asSlice_eq_nil.mp h))]
  rcases divLoop debugAssertions b.sanitize p.sanitize.len (zero 1) p.sanitize with
    _ | (_ | ⟨q, r⟩) <;> simp only [Option.map_none, Option.map_some]

/-- **Without a panic** the division is that of the trimmed polynomials. -/
theorem div_of_safe (hb : b.sanitize.Divisor) (hsafe : Safe debugAssertions b.sanitize p.sanitize) :
    ∃ q r, div debugAssertions p b = some (some (q, r)) ∧
      p.sanitize.value = q.value * b.sanitize.value + r.value ∧
      r.value.degree < b.sanitize.value.degree := by
  have hp := (trimmed_sanitize p).pos
  have hpos := hb.pos
  have hone : (zero 1).len = 1 := rfl
  have hbound : p.sanitize.len + 1 - b.sanitize.len < 256 := by
    by_cases hle : b.sanitize.len ≤ p.sanitize.len
    · have := (hsafe hle).1
      omega
    · omega
  obtain ⟨q, r, hloop, hlen, hr, hclear, hvalue⟩ := divLoop_eq hb hbound rfl
    (by omega : p.sanitize.len + 1 - b.sanitize.len + 1 = (zero 1).len + _) hsafe
    (fun h => absurd h hp.ne')
  refine ⟨q.reverse.sanitize, r.sanitize, ?_, ?_, ?_⟩
  · rw [div_eq_loop hb, hloop, Option.map_some, Option.map_some]
  · -- the zero in front of the quotient does not count
    have hzero : quotient (p.sanitize.len + 1 - b.sanitize.len) (zero 1) = 0 := by
      rw [quotient, hone, sum_range_one]
      exact Polynomial.monomial_zero_right _
    have hfirst : q.reverse.FirstClear := by
      intro h
      have hempty : q.len = 0 := h
      omega
    rw [hzero, zero_mul, zero_add] at hvalue
    rw [value_sanitize hfirst, value_reverse q hlen, value_sanitize hclear, hvalue]
  · rw [value_sanitize hclear, degree_value hb]
    refine lt_of_lt_of_le (degree_value_lt r) (Nat.cast_le.mpr ?_)
    omega

theorem div_of_not_safe (hb : b.sanitize.Divisor)
    (hbad : ¬ Safe debugAssertions b.sanitize p.sanitize) : div debugAssertions p b = none := by
  rw [div_eq_loop hb, divLoop_none hb (by decide) (trimmed_sanitize p).pos hbad, Option.map_none]

/-- There is no quotient if the last coefficient is zero, before anything can panic. -/
theorem div_of_zero (hlen : b.sanitize.len = 1) (hzero : b.sanitize.data 0 = 0) :
    div debugAssertions p b = some none := by
  have hp := (trimmed_sanitize p).pos
  have hpos : 0 < b.sanitize.len := by omega
  have hround : ∀ q, divRound debugAssertions b.sanitize q p.sanitize = some none := by
    intro q
    unfold divRound
    rw [getLast_asSlice hpos, hlen]
    simp only [Nat.sub_self, hzero, Galois.div, if_true]
  obtain ⟨len, hsucc⟩ := Nat.exists_eq_succ_of_ne_zero hp.ne'
  unfold div
  simp only
  rw [if_neg (fun h => hpos.ne' (asSlice_eq_nil.mp h)),
    if_neg (fun h => hp.ne' (asSlice_eq_nil.mp h)), hsucc, divLoop,
    if_pos ((degLe_iff hpos).mpr (by omega)), hround]

/-- The division is Euclidean: there is no quotient by zero, and otherwise a quotient with a
remainder of smaller degree. -/
def Divides (debugAssertions : Bool) (p b : Poly) : Prop :=
  if b.value = 0 then div debugAssertions p b = some none
  else ∃ q r, div debugAssertions p b = some (some (q, r)) ∧
    p.value = q.value * b.value + r.value ∧ (r.value = 0 ∨ r.value.degree < b.value.degree)

theorem value_of_empty (hlen : p.len = 0) : p.value = 0 := by
  rw [value, hlen, range_zero, sum_empty]

theorem firstClear_of_value (hp : p.value ≠ 0) : p.FirstClear := fun hlen =>
  absurd (value_of_empty hlen) hp

theorem not_firstClear (h : ¬ p.FirstClear) : p.len = 0 ∧ p.data 0 ≠ 0 := Classical.not_imp.mp h

/-- What was left in the first place becomes a coefficient. -/
theorem sanitize_of_not_firstClear (h : ¬ p.FirstClear) :
    p.sanitize.len = 1 ∧ p.sanitize.data 0 ≠ 0 := by
  obtain ⟨hlen, hdata⟩ := not_firstClear h
  have ht := trimmed_sanitize p
  have hle := ht.le
  have hpos := ht.pos
  refine ⟨by omega, ?_⟩
  rw [ht.data]
  exact hdata

theorem divisor_sanitize (hb : b.value ≠ 0) : b.sanitize.Divisor := by
  have ht := trimmed_sanitize b
  have hclear := firstClear_of_value hb
  refine ⟨ht.pos, ?_⟩
  rcases ht.lead with hone | hlead
  · -- a constant: it is not zero since the polynomial is not
    intro hzero
    rw [hone] at hzero
    refine hb ?_
    rw [← value_sanitize hclear, value, hone, sum_range_one, hzero]
    exact Polynomial.monomial_zero_right _
  · rw [ht.data]
    exact hlead

/-- No round panics, by the degrees. -/
theorem safe_iff (hp : p.FirstClear) (hb : b.value ≠ 0) :
    Safe debugAssertions b.sanitize p.sanitize ↔ (b.value.natDegree ≤ p.value.natDegree →
      p.value.natDegree < 255 ∧
        (debugAssertions = true → p.data (p.value.natDegree + 1) = 0)) := by
  rw [Safe, len_sanitize hp, len_sanitize (firstClear_of_value hb), Nat.add_le_add_iff_right]
  exact imp_congr_right fun _ => and_congr Nat.add_lt_add_iff_right Iff.rfl

/-- Division by zero has no quotient, unless what was left in the first place of an empty divisor
takes part. -/
theorem div_zero_iff (hzero : b.value = 0) :
    div debugAssertions p b = some none ↔ b.FirstClear := by
  constructor
  · intro hdiv
    by_contra hclear
    obtain ⟨hlen, hdata⟩ := sanitize_of_not_firstClear hclear
    have hb : b.sanitize.Divisor := ⟨by omega, by rwa [hlen]⟩
    by_cases hsafe : Safe debugAssertions b.sanitize p.sanitize
    · obtain ⟨q, r, hsome, -⟩ := div_of_safe hb hsafe
      rw [hsome] at hdiv
      cases hdiv
    · rw [div_of_not_safe hb hsafe] at hdiv
      cases hdiv
  · intro hclear
    have hlen : b.sanitize.len = 1 := by
      rw [len_sanitize hclear, hzero, Polynomial.natDegree_zero]
    refine div_of_zero hlen ?_
    have hcoeff := coeff_value b.sanitize 0
    rw [value_sanitize hclear, hzero, Polynomial.coeff_zero, if_pos (by omega)] at hcoeff
    exact hcoeff.symm

/-- What was left in the first place of an empty dividend is divided instead of it. -/
theorem firstClear_of_div (hb : b.value ≠ 0) (hsafe : Safe debugAssertions b.sanitize p.sanitize)
    (hdiv : div debugAssertions p b = some (some (q, r)))
    (hvalue : p.value = q.value * b.value + r.value) : p.FirstClear := by
  by_contra hbad
  obtain ⟨hlen, hdata⟩ := sanitize_of_not_firstClear hbad
  obtain ⟨q', r', hdiv', hvalue', -⟩ := div_of_safe (divisor_sanitize hb) hsafe
  rw [hdiv] at hdiv'
  obtain ⟨rfl, rfl⟩ := Prod.mk.inj (Option.some.inj (Option.some.inj hdiv'))
  have hempty := value_of_empty (not_firstClear hbad).1
  have hcoeff := coeff_value p.sanitize 0
  rw [hvalue', value_sanitize (firstClear_of_value hb), ← hvalue, hempty, Polynomial.coeff_zero,
    if_pos (by omega)] at hcoeff
  exact hdata hcoeff.symm

/-- Division by a polynomial that is not zero. -/
theorem div_ne_zero_iff (hb : b.value ≠ 0) :
    (∃ q r, div debugAssertions p b = some (some (q, r)) ∧
      p.value = q.value * b.value + r.value ∧ (r.value = 0 ∨ r.value.degree < b.value.degree)) ↔
      p.FirstClear ∧ Safe debugAssertions b.sanitize p.sanitize := by
  have hdivisor := divisor_sanitize hb
  have hclear := firstClear_of_value hb
  constructor
  · rintro ⟨q, r, hdiv, hvalue, -⟩
    -- the function has returned, so it was safe
    have hsafe : Safe debugAssertions b.sanitize p.sanitize := by
      by_contra hbad
      rw [div_of_not_safe hdivisor hbad] at hdiv
      cases hdiv
    exact ⟨firstClear_of_div hb hsafe hdiv hvalue, hsafe⟩
  · rintro ⟨hfirst, hsafe⟩
    obtain ⟨q, r, hdiv, hvalue, hdegree⟩ := div_of_safe hdivisor hsafe
    rw [value_sanitize hfirst, value_sanitize hclear] at hvalue
    rw [value_sanitize hclear] at hdegree
    exact ⟨q, r, hdiv, hvalue, .inr hdegree⟩

/-- **When the division is Euclidean.** The divisor is zero and nothing is left in its first place
where it is empty. Or it is not zero, nothing is left in the first place of an empty dividend, and
if there is a round at all, the dividend has a degree below 255 and, with debug assertions, a
zero behind its leading coefficient. -/
theorem divides_iff (debugAssertions : Bool) (p b : Poly) : Divides debugAssertions p b ↔
    (b.value = 0 ∧ b.FirstClear) ∨
      (b.value ≠ 0 ∧ p.FirstClear ∧ (b.value.natDegree ≤ p.value.natDegree →
        p.value.natDegree < 255 ∧
          (debugAssertions = true → p.data (p.value.natDegree + 1) = 0))) := by
  rw [Divides]
  split
  · next hzero =>
      rw [div_zero_iff hzero]
      constructor
      · intro hclear
        exact .inl ⟨hzero, hclear⟩
      · rintro (⟨-, hclear⟩ | ⟨hne, -⟩)
        · exact hclear
        · exact absurd hzero hne
  · next hne =>
      rw [div_ne_zero_iff hne]
      constructor
      · rintro ⟨hclear, hsafe⟩
        exact .inr ⟨hne, hclear, (safe_iff hclear hne).mp hsafe⟩
      · rintro (⟨hzero, -⟩ | ⟨-, hclear, hsafe⟩)
        · exact absurd hzero hne
        · exact ⟨hclear, (safe_iff hclear hne).mpr hsafe⟩

/-- A polynomial of degree 255 is not even divided by the constant 1, in either build. -/
theorem degree_255_panics : ∃ p b, fromIter (List.replicate 255 0 ++ [1]) = some p ∧
    fromIter [1] = some b ∧ b.value ≠ 0 ∧
    ∀ debugAssertions, div debugAssertions p b = none ∧ ¬ Divides debugAssertions p b := by
  obtain ⟨p, hp⟩ : ∃ p : Poly, p =
      ⟨fun i => (List.replicate 255 0 ++ [(1 : Gf)]).getD i 0, 256⟩ := ⟨_, rfl⟩
  obtain ⟨b, hb⟩ : ∃ b : Poly, b = ⟨fun i => [(1 : Gf)].getD i 0, 1⟩ := ⟨_, rfl⟩
  have hleadP : p.data (p.len - 1) ≠ 0 := by
    rw [hp]
    show (List.replicate 255 0 ++ [(1 : Gf)]).getD 255 0 ≠ 0
    rw [List.getD_append_right _ _ _ _ (by rw [List.length_replicate]), List.length_replicate]
    exact one_ne_zero
  have hleadB : b.data (b.len - 1) ≠ 0 := by
    rw [hb]
    exact one_ne_zero
  have hposP : 0 < p.len := by rw [hp]; decide
  have hposB : 0 < b.len := by rw [hb]; decide
  have hne : b.value ≠ 0 := by
    intro hzero
    have hdegree := degree_value ⟨hposB, hleadB⟩
    rw [hzero, Polynomial.degree_zero] at hdegree
    cases hdegree
  have hpanics : ∀ debugAssertions, div debugAssertions p b = none := by
    intro debugAssertions
    refine div_of_not_safe (divisor_sanitize hne) ?_
    rw [sanitize_eq hposP hleadP, sanitize_eq hposB hleadB]
    intro hsafe
    have hfits : p.len < 256 := (hsafe (by rw [hp, hb]; decide)).1
    rw [hp] at hfits
    exact Nat.lt_irrefl _ hfits
  have hlength : (List.replicate 255 0 ++ [(1 : Gf)]).length = 256 := by
    rw [List.length_append, List.length_replicate]
    rfl
  have hreadP : fromIter (List.replicate 255 0 ++ [1]) = some p := by
    rw [fromIter, hlength, hp]
    rfl
  have hreadB : fromIter [1] = some b := by
    rw [hb]
    rfl
  refine ⟨p, b, hreadP, hreadB, hne, fun debugAssertions =>
    ⟨hpanics debugAssertions, fun hdiv => ?_⟩⟩
  rw [Divides, if_neg hne, hpanics debugAssertions] at hdiv
  obtain ⟨q, r, hsome, -⟩ := hdiv
  cases hsome

end OnionNetwork.Fec.Poly
