import OnionNetwork.Falcon.Verify

/-!
# The verifier computes in the ring

Arrays as polynomials modulo `X ^ n + 1`, over the residues modulo 12289.

`verifyRaw_iff`: a signature is accepted exactly when the difference of `s2 * h` and the hashed
message has some representative that is short together with `s2`. `completePrivate_iff`: the last
part of a secret key is found exactly when there is a short one and `f` is invertible.
-/

namespace OnionNetwork.Falcon

open Lib Lib.Ntt Lib.Ntt.NegaRing

/-- The polynomial in an array of words. -/
noncomputable def wordPoly (logn : Nat) (a : Nat → UInt16) : NegaRing Zq (2 ^ logn) :=
  ofCoeffs (2 ^ logn) fun x => residue (a x)

/-- The polynomial in an array of integers. -/
noncomputable def intPoly (logn : Nat) (s : Nat → Int) : NegaRing Zq (2 ^ logn) :=
  ofCoeffs (2 ^ logn) fun x => (s x : Zq)

/-- The first `n` entries are below the modulus. -/
def Reduced (n : Nat) (a : Nat → UInt16) : Prop := ∀ x < n, (a x).toNat < 12289

section Words

variable {logn : Nat} {a b : Nat → UInt16} {v : Nat → Zq}

theorem Reduced.holds {n : Nat} (ha : Reduced n a) : Holds n a fun x => residue (a x) :=
  fun x hx => ⟨ha x hx, rfl⟩

theorem Holds.reduced {n : Nat} (ha : Holds n a v) : Reduced n a := fun x hx => (ha x hx).1

theorem Holds.wordPoly_eq (ha : Holds (2 ^ logn) a v) :
    wordPoly logn a = ofCoeffs (2 ^ logn) v :=
  ofCoeffs_congr fun x hx => (ha x hx).2

theorem nodes (hlogn : logn ≤ 10) : 2 ^ logn ≤ 1024 :=
  Nat.pow_le_pow_right (by omega) hlogn

/-- What comes out of `mq_iNTT` takes the values that went in. -/
theorem evalAt_mqIntt (hlogn : logn ≤ 10) (ha : Holds (2 ^ logn) a v) {x : Nat}
    (hx : x < 2 ^ logn) :
    evalAt twiddles (nodes hlogn) hx (wordPoly logn (mqIntt a logn)) = v x := by
  rw [(mqIntt_spec hlogn ha).wordPoly_eq, evalAt_ofCoeffs, layers_mul]
  dsimp only
  rw [layers_unlayers twiddles (nodes hlogn) (Nat.le_refl logn) hx,
    inv_mul_cancel_left₀ (pow_ne_zero logn two_ne_zero_zq)]

/-- The product of two transforms, one of them in Montgomery form. -/
theorem holds_mul {w : Nat → Zq} (hlogn : logn ≤ 10) (ha : Holds (2 ^ logn) a v)
    (hb : Holds (2 ^ logn) b w) :
    Holds (2 ^ logn) (mqPolyMontymulNtt (mqNtt a logn) (toNttMonty b logn) logn) fun x =>
      layers twiddles.root logn logn v x * layers twiddles.root logn logn w x :=
  (mqPolyMontymulNtt_spec (mqNtt_spec hlogn ha) (toNttMonty_spec hlogn hb)).congr fun x _ => by
    rw [mul_left_comm, mul_div_cancel_left₀ _ radix_ne_zero]

end Words

/-! ## Signatures -/

section Signatures

variable {logn : Nat} {c0 h : Nat → UInt16} {s1 s2 : Nat → Int16}

theorem normSq_nonneg (n : Nat) (s : Nat → Int) : 0 ≤ normSq n s :=
  Finset.sum_nonneg fun _ _ => sq_nonneg _

private theorem l2bound_lt_sq (logn : Nat) : (l2bound.getD logn 0).toNat < 12289 ^ 2 := by
  rcases Nat.lt_or_ge logn 11 with h | h
  · have hall : ∀ k < 11, (l2bound.getD k 0).toNat < 12289 ^ 2 := by decide
    exact hall logn h
  · rw [List.getD_eq_default _ _ h]
    decide

/-- A coefficient of a short vector is below the modulus. -/
theorem sq_lt_of_short (logn : Nat) {n : Nat} {s : Nat → Int}
    (h : normSq n s ≤ (l2bound.getD logn 0).toNat) {x : Nat} (hx : x < n) :
    s x ^ 2 < 12289 ^ 2 := by
  have hle : s x ^ 2 ≤ normSq n s :=
    Finset.single_le_sum (f := fun u => s u ^ 2) (fun _ _ => sq_nonneg _) (Finset.mem_range.mpr hx)
  have hbound := l2bound_lt_sq logn
  omega

/-- What `verify_raw` centres and measures. -/
private theorem holds_difference (hlogn : logn ≤ 10) (hc : Reduced (2 ^ logn) c0)
    (hh : Reduced (2 ^ logn) h) (hs : ∀ x < 2 ^ logn, (s2 x).toInt ^ 2 < 12289 ^ 2) :
    let tt := mqPolySub (mqIntt (mqPolyMontymulNtt
      (mqNtt (fun u => (signedWord (s2 u)).toUInt16) logn) (toNttMonty h logn) logn) logn) c0 logn
    Reduced (2 ^ logn) tt ∧ wordPoly logn tt =
      intPoly logn (fun x => (s2 x).toInt) * wordPoly logn h - wordPoly logn c0 := by
  have hmul := holds_mul hlogn (holds_signed hs) hh.holds
  have hsub := mqPolySub_spec (mqIntt_spec hlogn hmul) hc.holds
  refine ⟨hsub.reduced, ?_⟩
  rw [hsub.wordPoly_eq, ofCoeffs_sub]
  congr 1
  rw [← (mqIntt_spec hlogn hmul).wordPoly_eq]
  apply ext_evalAt twiddles (nodes hlogn) two_ne_zero_zq
  intro x hx
  rw [evalAt_mqIntt hlogn hmul, map_mul, intPoly, wordPoly, evalAt_ofCoeffs, evalAt_ofCoeffs]

theorem intPoly_centre {tt : Nat → UInt16} (htt : Reduced (2 ^ logn) tt) :
    intPoly logn (fun x => (centre (tt x)).toInt) = wordPoly logn tt :=
  ofCoeffs_congr fun x hx => cast_centre (htt x hx)

/-- What `verify_raw` accepts: some representative of `s2 * h - c0` is short together with
`s2`. -/
theorem verifyRaw_iff (hlogn : logn ≤ 10) (hc : Reduced (2 ^ logn) c0) (hh : Reduced (2 ^ logn) h)
    (s2 : Nat → Int16) : verifyRaw c0 s2 (toNttMonty h logn) logn = true ↔
      ∃ s1 : Nat → Int,
        intPoly logn s1 =
            intPoly logn (fun x => (s2 x).toInt) * wordPoly logn h - wordPoly logn c0 ∧
          normSq (2 ^ logn) s1 + normSq (2 ^ logn) (fun x => (s2 x).toInt) ≤
            (l2bound.getD logn 0).toNat := by
  rw [verifyRaw, isShort_iff]
  constructor
  · intro hle
    have hs2 : ∀ x < 2 ^ logn, (s2 x).toInt ^ 2 < 12289 ^ 2 := by
      refine fun x hx => sq_lt_of_short logn (s := fun x => (s2 x).toInt) ?_ hx
      have := normSq_nonneg (2 ^ logn) fun u => (centre (mqPolySub (mqIntt (mqPolyMontymulNtt
        (mqNtt (fun u => (signedWord (s2 u)).toUInt16) logn) (toNttMonty h logn) logn) logn) c0
        logn u)).toInt
      omega
    obtain ⟨hred, hpoly⟩ := holds_difference hlogn hc hh hs2
    exact ⟨_, (intPoly_centre hred).trans hpoly, hle⟩
  · rintro ⟨s1, hs1, hle⟩
    have hs2 : ∀ x < 2 ^ logn, (s2 x).toInt ^ 2 < 12289 ^ 2 := by
      refine fun x hx => sq_lt_of_short logn (s := fun x => (s2 x).toInt) ?_ hx
      have := normSq_nonneg (2 ^ logn) s1
      omega
    obtain ⟨hred, hpoly⟩ := holds_difference hlogn hc hh hs2
    rw [← hpoly] at hs1
    -- the centred representative is at most as long as any other one
    have hcentre : normSq (2 ^ logn) (fun u => (centre (mqPolySub (mqIntt (mqPolyMontymulNtt
        (mqNtt (fun u => (signedWord (s2 u)).toUInt16) logn) (toNttMonty h logn) logn) logn) c0
        logn u)).toInt) ≤ normSq (2 ^ logn) s1 := by
      refine Finset.sum_le_sum fun x hx => ?_
      have hx' := Finset.mem_range.mp hx
      exact centre_sq_le (hred x hx') ((ofCoeffs_inj (Nat.two_pow_pos logn).ne').mp hs1 x hx')
    omega

end Signatures

/-! ## Keys -/

section Keys

variable {logn : Nat} {f g F : Nat → Int8}

/-- The polynomial of a secret key. -/
noncomputable abbrev int8Poly (logn : Nat) (f : Nat → Int8) : NegaRing Zq (2 ^ logn) :=
  intPoly logn fun x => (f x).toInt

theorem isUnit_intPoly_iff (hlogn : logn ≤ 10) (s : Nat → Int) :
    IsUnit (intPoly logn s) ↔
      ∀ x < 2 ^ logn, layers twiddles.root logn logn (fun x => (s x : Zq)) x ≠ 0 := by
  rw [isUnit_iff twiddles (nodes hlogn) two_ne_zero_zq]
  apply forall₂_congr
  intro x hx
  rw [intPoly, evalAt_ofCoeffs]

/-- How `compute_public` ends: it divides, and fails where `f` is not invertible. -/
theorem computePublic_cases (hlogn : logn ≤ 10) (f g : Nat → Int8) :
    (IsUnit (int8Poly logn f) ∧ ∃ h, computePublic f g logn = some h ∧ Reduced (2 ^ logn) h ∧
      wordPoly logn h * int8Poly logn f = int8Poly logn g) ∨
    (¬ IsUnit (int8Poly logn f) ∧ computePublic f g logn = none) := by
  have hdiv := divNtt_spec (mqNtt_spec hlogn (holds_int8 (2 ^ logn) g))
    (mqNtt_spec hlogn (holds_int8 (2 ^ logn) f))
  rw [isUnit_intPoly_iff hlogn]
  split at hdiv
  · next hall =>
      obtain ⟨q, hq, hholds⟩ := hdiv
      refine .inl ⟨hall, mqIntt q logn, ?_, (mqIntt_spec hlogn hholds).reduced, ?_⟩
      · rw [computePublic, hq]
        rfl
      · apply ext_evalAt twiddles (nodes hlogn) two_ne_zero_zq
        intro x hx
        rw [map_mul, evalAt_mqIntt hlogn hholds, int8Poly, int8Poly, intPoly, intPoly,
          evalAt_ofCoeffs, evalAt_ofCoeffs, div_mul_cancel₀ _ (hall x hx)]
  · next hall =>
      refine .inr ⟨hall, ?_⟩
      rw [computePublic, hdiv]
      rfl

private theorem int8_of_range {c : Int32} (hc : ¬(c < -127 ∨ c > 127)) :
    |c.toInt| ≤ 127 ∧ c.toInt8.toInt = c.toInt := by
  rw [gt_iff_lt, Int32.lt_iff_toInt_lt, Int32.lt_iff_toInt_lt,
    show (-127 : Int32).toInt = -127 from rfl, show (127 : Int32).toInt = 127 from rfl] at hc
  refine ⟨abs_le.mpr (by omega), ?_⟩
  rw [Int32.toInt_toInt8, Int.bmod_def]
  split <;> omega

/-- The coefficients that `complete_private` returns are in range and the centred ones. -/
private theorem coefficients_iff (t : Nat → UInt16) (n : Nat) (G : Nat → Int) :
    (∃ G', forRange 0 n (fun G u => G.bind fun G =>
        let gi := centredWord (t u)
        if gi < -127 ∨ gi > 127 then none else some (Function.update G u gi.toInt8))
          (some fun _ => 0) = some G' ∧ ∀ x < n, (G' x).toInt = G x) ↔
      ∀ x < n, |G x| ≤ 127 ∧ (centredWord (t x)).toInt = G x := by
  have hguard := forRange_guard (fun u => centredWord (t u) < -127 ∨ centredWord (t u) > 127)
    (fun G u => Function.update G u (centredWord (t u)).toInt8) n fun _ => 0
  dsimp only at hguard ⊢
  rw [hguard]
  constructor
  · rintro ⟨G', hrun, heq⟩ x hx
    split at hrun
    · next hall =>
        obtain ⟨hrange, hvalue⟩ := int8_of_range (hall x hx)
        have hx' := heq x hx
        rw [← Option.some.inj hrun, forRange_update (fun u _ => (centredWord (t u)).toInt8),
          if_pos hx, hvalue] at hx'
        exact ⟨hx' ▸ hrange, hx'⟩
    · cases hrun
  · intro h
    have hall : ∀ u < n, ¬(centredWord (t u) < -127 ∨ centredWord (t u) > 127) := by
      intro u hu
      obtain ⟨hrange, hvalue⟩ := h u hu
      obtain ⟨hlo, hhi⟩ := abs_le.mp hrange
      rw [gt_iff_lt, Int32.lt_iff_toInt_lt, Int32.lt_iff_toInt_lt,
        show (-127 : Int32).toInt = -127 from rfl, show (127 : Int32).toInt = 127 from rfl]
      omega
    refine ⟨_, if_pos hall, ?_⟩
    intro x hx
    rw [forRange_update (fun u _ => (centredWord (t u)).toInt8), if_pos hx,
      (int8_of_range (hall x hx)).2, (h x hx).2]

/-- `complete_private` divides as well: it finds the short `G` with `f * G = g * F` if there is
one and `f` is invertible, and nothing else. -/
theorem completePrivate_iff (hlogn : logn ≤ 10) (f g F : Nat → Int8) (G : Nat → Int) :
    (∃ G', completePrivate f g F logn = some G' ∧ ∀ x < 2 ^ logn, (G' x).toInt = G x) ↔
      IsUnit (int8Poly logn f) ∧ (∀ x < 2 ^ logn, |G x| ≤ 127) ∧
        int8Poly logn f * intPoly logn G = int8Poly logn g * int8Poly logn F := by
  -- the numerator `g * F` at every node, then the quotient by `f`
  have hnum : Holds (2 ^ logn) (mqPolyMontymulNtt
      (mqPolyTomonty (mqNtt (fun u => (mqConvSmall (g u).toInt32).toUInt16) logn) logn)
      (mqNtt (fun u => (mqConvSmall (F u).toInt32).toUInt16) logn) logn) fun x =>
        layers twiddles.root logn logn (fun x => ((g x).toInt : Zq)) x *
          layers twiddles.root logn logn (fun x => ((F x).toInt : Zq)) x :=
    (mqPolyMontymulNtt_spec (mqPolyTomonty_spec (mqNtt_spec hlogn (holds_int8 _ g)))
      (mqNtt_spec hlogn (holds_int8 _ F))).congr fun x _ => by
        rw [mul_assoc, mul_div_cancel_left₀ _ radix_ne_zero]
  have hdiv := divNtt_spec hnum (mqNtt_spec hlogn (holds_int8 (2 ^ logn) f))
  by_cases hunit : IsUnit (int8Poly logn f)
  · have hall := (isUnit_intPoly_iff hlogn _).mp hunit
    rw [if_pos hall] at hdiv
    -- `f` is nowhere zero: the words hold the one quotient, small or not
    obtain ⟨q, hq, hholds⟩ := hdiv
    have hred := (mqIntt_spec hlogn hholds).reduced
    have hquot : int8Poly logn f * wordPoly logn (mqIntt q logn) =
        int8Poly logn g * int8Poly logn F := by
      apply ext_evalAt twiddles (nodes hlogn) two_ne_zero_zq
      intro x hx
      rw [map_mul, map_mul, evalAt_mqIntt hlogn hholds, int8Poly, int8Poly, int8Poly, intPoly,
        intPoly, intPoly, evalAt_ofCoeffs, evalAt_ofCoeffs, evalAt_ofCoeffs,
        mul_div_cancel₀ _ (hall x hx)]
    rw [completePrivate, hq]
    dsimp only [Option.bind_eq_bind, Option.bind_some]
    rw [coefficients_iff]
    have hne := (Nat.two_pow_pos logn).ne'
    constructor
    · intro h
      refine ⟨hunit, fun x hx => (h x hx).1, ?_⟩
      rw [← hquot]
      congr 1
      refine (ofCoeffs_inj hne).mpr fun x hx => ?_
      rw [← (h x hx).2]
      exact cast_centredWord (hred x hx)
    · rintro ⟨-, hfit, hG⟩
      have hpoly : intPoly logn G = wordPoly logn (mqIntt q logn) :=
        hunit.mul_left_cancel (hG.trans hquot.symm)
      intro x hx
      exact ⟨hfit x hx, toInt_centredWord_of_small (hred x hx)
        ((ofCoeffs_inj hne).mp hpoly x hx) (hfit x hx)⟩
  · -- `f` is zero at a node, and the division by it is refused
    rw [if_neg fun hall => hunit ((isUnit_intPoly_iff hlogn _).mpr hall)] at hdiv
    have hrun : completePrivate f g F logn = none := by
      rw [completePrivate, hdiv]
      rfl
    refine ⟨?_, fun h => absurd h.1 hunit⟩
    rintro ⟨G', hG', -⟩
    rw [hrun] at hG'
    cases hG'

end Keys

end OnionNetwork.Falcon
