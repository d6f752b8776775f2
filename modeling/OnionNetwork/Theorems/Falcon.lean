import OnionNetwork.Falcon.Pqclean
import OnionNetwork.Falcon.Ring

/-!
# Signatures over a ring

* `transform_inverse`, `transform_mul` — the number-theoretic transform of the verifier;
* `computePublic_iff` — public keys are quotients;
* `modqDecode_iff`, `trimI8Decode_iff`, `compDecode_iff` — all encodings are unique;
* `hashToPointCt_iff` — the two ways to hash a message agree;
* `keypair_of_keygen`, `verify_iff`, `verify_sign` — what key pairs hold, what is accepted, and that
  signatures are.
-/

namespace OnionNetwork.Falcon

open Lib Lib.Ntt Lib.Ntt.NegaRing

/-! ## The transform -/

section Words

variable {logn : Nat} {a b : Nat → UInt16}

/-- **The transforms undo each other**, and leave what is behind the array. -/
theorem transform_inverse (hlogn : logn ≤ 10) (ha : Reduced (2 ^ logn) a) :
    mqIntt (mqNtt a logn) logn = a ∧ mqNtt (mqIntt a logn) logn = a := by
  refine ⟨?_, ?_⟩
  · funext x
    rcases Nat.lt_or_ge x (2 ^ logn) with hx | hx
    · refine Holds.eq (v := fun y => residue (a y)) ?_ ha.holds hx
      refine (mqIntt_spec hlogn (mqNtt_spec hlogn ha.holds)).congr fun y hy => ?_
      rw [unlayers_layers twiddles (nodes hlogn) (Nat.le_refl logn) hy,
        inv_mul_cancel_left₀ (pow_ne_zero logn two_ne_zero_zq)]
    · rw [mqIntt_of_le hx, mqNtt_of_le hx]
  · funext x
    rcases Nat.lt_or_ge x (2 ^ logn) with hx | hx
    · refine Holds.eq (v := fun y => residue (a y)) ?_ ha.holds hx
      refine (mqNtt_spec hlogn (mqIntt_spec hlogn ha.holds)).congr fun y hy => ?_
      rw [layers_mul]
      dsimp only
      rw [layers_unlayers twiddles (nodes hlogn) (Nat.le_refl logn) hy,
        inv_mul_cancel_left₀ (pow_ne_zero logn two_ne_zero_zq)]
    · rw [mqNtt_of_le hx, mqIntt_of_le hx]

theorem transform_inverse_one :
    mqIntt (mqNtt (fun _ => 1) 9) 9 = (fun _ => 1) ∧ mqNtt (mqIntt (fun _ => 1) 9) 9 = fun _ => 1 :=
  transform_inverse (by decide) fun _ _ => by decide

/-- **The product of the transforms is the product of the polynomials**, modulo `X ^ n + 1`. -/
theorem transform_mul (hlogn : logn ≤ 10) (ha : Reduced (2 ^ logn) a) (hb : Reduced (2 ^ logn) b) :
    let p := mqIntt (mqPolyMontymulNtt (mqNtt a logn) (toNttMonty b logn) logn) logn
    Reduced (2 ^ logn) p ∧ wordPoly logn p = wordPoly logn a * wordPoly logn b := by
  have hprod := holds_mul hlogn ha.holds hb.holds
  refine ⟨(mqIntt_spec hlogn hprod).reduced, ?_⟩
  apply ext_evalAt twiddles (nodes hlogn) two_ne_zero_zq
  intro x hx
  rw [evalAt_mqIntt hlogn hprod, map_mul, wordPoly, wordPoly, evalAt_ofCoeffs, evalAt_ofCoeffs]

theorem transform_mul_one :
    let p := mqIntt (mqPolyMontymulNtt (mqNtt (fun _ => 1) 9) (toNttMonty (fun _ => 2) 9) 9) 9
    Reduced (2 ^ 9) p ∧ wordPoly 9 p = wordPoly 9 (fun _ => 1) * wordPoly 9 (fun _ => 2) :=
  transform_mul (by decide) (fun _ _ => by decide) fun _ _ => by decide

end Words

/-! ## Keys -/

section Keys

variable {logn : Nat}

/-- **`compute_public` divides**: it fails exactly where `f` is not invertible, and else finds the
one `h` with `h * f = g`. -/
theorem computePublic_iff (hlogn : logn ≤ 10) (f g : Nat → Int8) :
    (computePublic f g logn = none ↔ ¬ IsUnit (int8Poly logn f)) ∧
      ∀ h, computePublic f g logn = some h →
        Reduced (2 ^ logn) h ∧ wordPoly logn h * int8Poly logn f = int8Poly logn g := by
  obtain ⟨hunit, h, hrun, hred, hmul⟩ | ⟨hunit, hrun⟩ := computePublic_cases hlogn f g
  · refine ⟨⟨fun hnone => ?_, fun hnot => absurd hunit hnot⟩, fun h' hh' => ?_⟩
    · rw [hrun] at hnone
      cases hnone
    · obtain rfl := Option.some.inj (hrun.symm.trans hh')
      exact ⟨hred, hmul⟩
  · refine ⟨⟨fun _ => hunit, fun _ => hrun⟩, fun h' hh' => ?_⟩
    rw [hrun] at hh'
    cases hh'

theorem computePublic_iff_one :
    (computePublic (fun _ => 1) (fun _ => 0) 9 = none ↔ ¬ IsUnit (int8Poly 9 fun _ => 1)) ∧
      ∀ h, computePublic (fun _ => 1) (fun _ => 0) 9 = some h →
        Reduced (2 ^ 9) h ∧ wordPoly 9 h * int8Poly 9 (fun _ => 1) = int8Poly 9 fun _ => 0 :=
  computePublic_iff (by decide) (fun _ => 1) fun _ => 0

end Keys

/-! ## Codecs -/

section Codecs

variable {logn bits v : Nat} {input : List UInt8}

private theorem map_entries {α : Type} [OfNat α 0] {xs : List α} {n : Nat} (h : xs.length = n) :
    (List.range n).map (entries xs) = xs := by
  refine List.ext_getElem (by simp [h]) fun u hu hu' => ?_
  rw [List.getElem_map, List.getElem_range, entries, List.getD_eq_getElem]

private theorem forall_entries {α : Type} [OfNat α 0] {xs : List α} {n : Nat} (h : xs.length = n)
    (P : α → Prop) : (∀ u < n, P (entries xs u)) ↔ ∀ y ∈ xs, P y := by
  conv_rhs => rw [← map_entries h]
  simp

/-- **A public key has one encoding**: `modq_decode` accepts the bytes that `modq_encode` writes,
and no other ones. -/
theorem modqDecode_iff {xs : List UInt16} :
    modqDecode logn input = some (v, xs) ↔
      xs.length = 2 ^ logn ∧
        modqEncode input.length (entries xs) logn = some (v, input.take v) := by
  rw [modqDecode_eq_some, modqEncode_eq_some]
  constructor
  · rintro ⟨hv, hle, hlen, hvalid, hbytes⟩
    refine ⟨hlen, (forall_entries hlen (· < 12289)).mpr hvalid, hv, hle, ?_⟩
    rwa [← List.flatMap_map, map_entries hlen]
  · rintro ⟨hlen, hvalid, hv, hle, hbytes⟩
    refine ⟨hv, hle, hlen, (forall_entries hlen (· < 12289)).mp hvalid, ?_⟩
    rwa [← List.flatMap_map, map_entries hlen] at hbytes

/-- **So has a secret polynomial**, for every width of its entries. -/
theorem trimI8Decode_iff (hpos : 0 < bits) (hle : bits ≤ 8) {xs : List Int8} :
    trimI8Decode logn bits input = some (v, xs) ↔
      xs.length = 2 ^ logn ∧
        trimI8Encode input.length (entries xs) logn bits = some (v, input.take v) := by
  rw [trimI8Decode_eq_some hpos hle, trimI8Encode_eq_some hpos hle]
  constructor
  · rintro ⟨hv, hfits, hlen, hvalid, hbytes⟩
    refine ⟨hlen, (forall_entries hlen (TrimValid bits)).mpr hvalid, hv, hfits, ?_⟩
    rwa [← List.flatMap_map, map_entries hlen]
  · rintro ⟨hlen, hvalid, hv, hfits, hbytes⟩
    refine ⟨hv, hfits, hlen, (forall_entries hlen (TrimValid bits)).mp hvalid, ?_⟩
    rwa [← List.flatMap_map, map_entries hlen] at hbytes

theorem trimI8Decode_iff_six :
    trimI8Decode 1 6 [0x04, 0x20] = some (2, [1, 2]) ↔
      [(1 : Int8), 2].length = 2 ^ 1 ∧
        trimI8Encode 2 (entries [1, 2]) 1 6 = some (2, [0x04, 0x20]) :=
  trimI8Decode_iff (by decide) (by decide)

/-- **So has a compressed signature**: there is no second string of bytes for the coefficients, and
`comp_decode` says how many bytes they take. -/
theorem compDecode_iff {xs : List Int16} :
    compDecode logn input = some (v, xs) ↔
      xs.length = 2 ^ logn ∧ v ≤ input.length ∧
        compEncode input.length (entries xs) logn = some (input.take v) := by
  rw [compDecode_eq_some, compEncode_eq_some]
  constructor
  · rintro ⟨hle, hlen, hvalid, hbytes⟩
    refine ⟨hlen, hle, (forall_entries hlen CompValid).mpr hvalid, ?_, ?_⟩
    · rw [List.length_take_of_le hle]
      exact hle
    · rwa [← List.flatMap_map, map_entries hlen]
  · rintro ⟨hlen, hle, hvalid, -, hbytes⟩
    refine ⟨hle, hlen, (forall_entries hlen CompValid).mp hvalid, ?_⟩
    rwa [← List.flatMap_map, map_entries hlen] at hbytes

end Codecs

/-! ## The hashed message -/

section Hashed

variable {logn : Nat}

/-- **The constant-time path agrees with the plain one**: where both read the same number of
samples, one leaves residues exactly when the other comes to an end, and they are the same. -/
theorem hashToPointCt_iff (hlogn : logn ≤ 10) (stream : Nat → UInt8) (xs : List UInt16) :
    hashToPointVartime stream (2 ^ logn + (overtab.getD logn 0).toNat) 0 (2 ^ logn) [] = some xs ↔
      Reduced (2 ^ logn) (hashToPointCt stream logn) ∧
        (List.range (2 ^ logn)).map (hashToPointCt stream logn) = xs := by
  rw [hashToPointVartime_eq_some, List.nil_append, ← List.range_eq_range']
  show 2 ^ logn ≤ (goodSamples stream logn).length ∧
      xs = (goodSamples stream logn).take (2 ^ logn) ↔ _
  constructor
  · rintro ⟨henough, rfl⟩
    have hspec := hashToPointCt_spec hlogn henough
    refine ⟨fun u hu => ?_, hspec⟩
    have hmem : hashToPointCt stream logn u ∈
        (List.range (2 ^ logn)).map (hashToPointCt stream logn) :=
      List.mem_map.mpr ⟨u, List.mem_range.mpr hu, rfl⟩
    rw [hspec] at hmem
    exact mem_goodSamples (List.mem_of_mem_take hmem)
  · rintro ⟨hred, rfl⟩
    rcases Nat.lt_or_ge (goodSamples stream logn).length (2 ^ logn) with hfew | henough
    · obtain ⟨u, hu, hbad⟩ := exists_not_residue hlogn hfew
      exact absurd (hred u hu) hbad
    · exact ⟨henough, hashToPointCt_spec hlogn henough⟩

/-- What the samples below become, by their number modulo 8. -/
def rejectedRow : List UInt16 := [0xffff, 515, 1029, 1543, 2057, 2571, 3085, 3599]

/-- Every eighth sample is thrown away. -/
theorem hashToPointCt_iff_rejected :
    let stream : Nat → UInt8 := fun i => if i % 16 < 2 then 0xff else UInt8.ofNat (i % 16)
    let xs := (List.range (2 ^ 9)).map fun j => UInt16.ofNat (514 * (j % 7 + 1) + 1)
    hashToPointVartime stream (2 ^ 9 + (overtab.getD 9 0).toNat) 0 (2 ^ 9) [] = some xs ∧
      (Reduced (2 ^ 9) (hashToPointCt stream 9) ∧
        (List.range (2 ^ 9)).map (hashToPointCt stream 9) = xs) := by
  intro stream xs
  have hvartime : hashToPointVartime stream (2 ^ 9 + (overtab.getD 9 0).toNat) 0 (2 ^ 9) [] =
      some xs := by
    have hsamples : ∀ u, samples stream u = rejectedRow.getD (u % 8) 0 := by
      intro u
      have hmod : ∀ i, stream i = if i % 16 < 2 then 0xff else UInt8.ofNat (i % 16) := fun _ => rfl
      rw [samples, sample, hmod, hmod, show 2 * u % 16 = 2 * (u % 8) by omega,
        show (2 * u + 1) % 16 = 2 * (u % 8) + 1 by omega]
      exact (by decide : ∀ r < 8, maskedSample
        ((if 2 * r < 2 then 0xff else UInt8.ofNat (2 * r)).toUInt32 <<< 8 |||
          (if 2 * r + 1 < 2 then 0xff else UInt8.ofNat (2 * r + 1)).toUInt32) =
        rejectedRow.getD r 0) (u % 8) (Nat.mod_lt u (by decide))
    rw [hashToPointVartime_eq_some, List.map_congr_left fun u _ => hsamples u]
    decide +kernel
  exact ⟨hvartime, (hashToPointCt_iff (by decide) stream xs).mp hvartime⟩

end Hashed

/-! ## Key pairs and signatures -/

section Signatures

variable {gen : Gen} {keys : Keys} {kp : Keypair} {shake : Shake} {nearest : Nearest}

/-- What `solve_NTRU` is for: the rest of a short basis, here modulo 12289. -/
def SolvesNtru (gen : Gen) : Prop :=
  ∀ f g F, gen.solveNtru f g = some F → (∀ u < 2 ^ 9, |(F u).toInt| ≤ 127) ∧
    ∃ G : Nat → Int, (∀ u < 2 ^ 9, |G u| ≤ 127) ∧
      int8Poly 9 f * intPoly 9 G = int8Poly 9 g * int8Poly 9 F

/-- **Generated keys can be written and read**: `Keypair::new` does not fail on them, the signer
reads the same `f`, `g`, `F` and finds a `G` that belongs to them, and the verifier reads
`g / f`. -/
theorem keypair_of_keygen (hsolve : SolvesNtru gen) {stream : Nat → UInt8} {fuel k : Nat}
    (hrun : keygen gen stream 9 fuel k = some keys) :
    ∃ kp G, Keypair.new keys = some kp ∧
      decodeSecret kp.sk.toList =
        some (kept (2 ^ 9) keys.f, kept (2 ^ 9) keys.g, kept (2 ^ 9) keys.F, G) ∧
      int8Poly 9 keys.f * int8Poly 9 G = int8Poly 9 keys.g * int8Poly 9 keys.F ∧
      modqDecode 9 (kp.pk.toList.drop 1) = some (896, (List.range (2 ^ 9)).map keys.h) ∧
      wordPoly 9 keys.h * int8Poly 9 keys.f = int8Poly 9 keys.g := by
  obtain ⟨hsmall, hpublic, hF⟩ := keygen_eq_some hrun
  obtain ⟨hFle, G, hG, hntru⟩ := hsolve _ _ _ hF
  obtain ⟨hunit, h, hh, hred, hmul⟩ | ⟨-, hnone⟩ :=
    computePublic_cases (show 9 ≤ 10 by decide) keys.f keys.g
  · obtain rfl := Option.some.inj (hpublic.symm.trans hh)
    obtain ⟨kp, hkp⟩ := exists_keypair hsmall
      (fun u hu => lt_of_le_of_lt (hFle u hu) (by norm_num)) hred
    obtain ⟨hsk, hpk⟩ := Keypair.new_eq_some hkp
    obtain ⟨G', hsecret, hpoly⟩ := decodeSecret_of_ntru hsk hunit hG hntru
    refine ⟨kp, G', hkp, hsecret, ?_, (decodePublic_encoded hpk).2, hmul⟩
    rw [hpoly, hntru]
  · rw [hnone] at hpublic
    cases hpublic

/-! ### A short basis

Polynomials in `X ^ 64`. The squares of the entries of `f` and `g` add up to 9636, those of the
orthogonalised second vector to 15732, and the sums of the entries are odd; `F` and `G` solve the
NTRU equation for them. -/

/-- Coefficients at the powers of `X ^ 64`. -/
def spread (c : List Int) (u : Nat) : Int := if u % 64 = 0 then c.getD (u / 64) 0 else 0

def fRow : List Int := [-29, 31, 27, -28, 21, 25, 27, 25]

def gRow : List Int := [18, -23, -21, 27, 18, 20, -23, 25]

def FRow : List Int := [17, 59, -1, 46, 20, 55, 23, -23]

def GRow : List Int := [-55, -39, -32, 0, -7, 53, -55, -56]

section Rows

variable {R : Type*} [CommRing R]

/-- The value of a row, by Horner's rule. -/
def horner (c : List Int) (y : R) : R := c.foldr (fun (a : Int) p => (a : R) + y * p) 0

private theorem sum_getD (c : List Int) (y : R) :
    ∑ i ∈ Finset.range c.length, ((c.getD i 0 : Int) : R) * y ^ i = horner c y := by
  induction c with
  | nil => rfl
  | cons a c ih =>
      have hhorner : horner (a :: c) y = a + y * horner c y := rfl
      rw [List.length_cons, Finset.sum_range_succ', hhorner, ← ih, Finset.mul_sum]
      simp only [List.getD_cons_succ, List.getD_cons_zero, pow_zero, mul_one, pow_succ]
      rw [add_comm]
      congr 1
      exact Finset.sum_congr rfl fun i _ => by ring

/-- Only every 64th place counts. -/
private theorem sum_every {M : Type*} [AddCommMonoid M] {g : Nat → M}
    (hg : ∀ u, u % 64 ≠ 0 → g u = 0) :
    ∑ u ∈ Finset.range (2 ^ 9), g u = ∑ i ∈ Finset.range 8, g (64 * i) := by
  have hsub : (Finset.range 8).image (64 * ·) ⊆ Finset.range (2 ^ 9) := by
    intro u hu
    obtain ⟨i, hi, rfl⟩ := Finset.mem_image.mp hu
    have := Finset.mem_range.mp hi
    exact Finset.mem_range.mpr (by omega)
  have hzero : ∀ u ∈ Finset.range (2 ^ 9), u ∉ (Finset.range 8).image (64 * ·) → g u = 0 := by
    intro u hu hnot
    refine hg u fun hmod => hnot (Finset.mem_image.mpr ⟨u / 64, Finset.mem_range.mpr ?_, ?_⟩)
    · have := Finset.mem_range.mp hu
      omega
    · show 64 * (u / 64) = u
      omega
  have hinj : Set.InjOn (64 * ·) (Finset.range 8 : Set Nat) := by
    intro i _ j _ hij
    exact Nat.eq_of_mul_eq_mul_left (by decide) hij
  rw [← Finset.sum_subset hsub hzero, Finset.sum_image hinj]

private theorem spread_of_ne (c : List Int) {u : Nat} (h : u % 64 ≠ 0) : spread c u = 0 := if_neg h

private theorem sum_spread {c : List Int} (hc : c.length = 8) (x : R) :
    ∑ u ∈ Finset.range (2 ^ 9), ((spread c u : Int) : R) * x ^ u = horner c (x ^ 64) := by
  rw [sum_every fun u hu => by rw [spread_of_ne c hu, Int.cast_zero, zero_mul], ← sum_getD, hc]
  refine Finset.sum_congr rfl fun i _ => ?_
  have hmod : 64 * i % 64 = 0 := Nat.mul_mod_right 64 i
  have hdiv : 64 * i / 64 = i := Nat.mul_div_cancel_left i (by decide)
  rw [spread, if_pos hmod, hdiv, ← pow_mul]

variable {y : R} (hy : y ^ 8 = -1) (hq : ((12289 : ℕ) : R) = 0)

include hy hq

private theorem rows_ntru : horner fRow y * horner GRow y = horner gRow y * horner FRow y := by
  simp only [horner, fRow, gRow, FRow, GRow, List.foldr]
  push_cast at hq ⊢
  linear_combination (-11000 - 1245 * y - 34 * y ^ 2 - 576 * y ^ 3 - 1946 * y ^ 4 - 3991 * y ^ 5 -
    825 * y ^ 6) * hy + hq

private theorem isUnit_fRow : IsUnit (horner fRow y) := by
  refine .of_mul_eq_one (horner [-1, 5962, 651, 3940, -5194, 3124, -5864, -4636] y) ?_
  simp only [horner, fRow, List.foldr]
  push_cast at hq ⊢
  linear_combination (-233463 + 97429 * y + 43026 * y ^ 2 - 289458 * y ^ 3 - 196128 * y ^ 4 -
      271772 * y ^ 5 - 115900 * y ^ 6) * hy +
    (19 - 22 * y + 10 * y ^ 2 + 29 * y ^ 3 + 26 * y ^ 4 + 19 * y ^ 5 + 24 * y ^ 6 + 36 * y ^ 7) * hq

end Rows

/-- `X ^ 64`. -/
noncomputable def power64 : NegaRing Zq (2 ^ 9) := AdjoinRoot.root (Polynomial.X ^ 2 ^ 9 + 1) ^ 64

private theorem power64_pow : power64 ^ 8 = -1 := root_pow_pow (by norm_num)

private theorem modulus_zero : ((12289 : ℕ) : NegaRing Zq (2 ^ 9)) = 0 := by
  have hzero : ((12289 : ℕ) : Zq) = 0 := ZMod.natCast_self 12289
  rw [← map_natCast (AdjoinRoot.of (Polynomial.X ^ 2 ^ 9 + 1 : Polynomial Zq)), hzero, map_zero]

private theorem intPoly_spread {c : List Int} (hc : c.length = 8) :
    intPoly 9 (spread c) = horner c power64 := by
  rw [intPoly, ofCoeffs_eq_sum, power64, ← sum_spread hc]
  simp only [map_intCast]

/-- A coefficient is zero or an entry of the row. -/
private theorem spread_mem (row : List Int) (u : Nat) : spread row u ∈ (0 : Int) :: row := by
  rw [spread]
  split
  · rw [List.getD_eq_getElem?_getD]
    cases hget : row[u / 64]? with
    | none => exact List.mem_cons_self
    | some a => exact List.mem_cons_of_mem _ (List.mem_of_getElem? hget)
  · exact List.mem_cons_self

private theorem abs_spread_le (row : List Int) {b : Int}
    (h : ∀ a ∈ (0 : Int) :: row, |a| ≤ b) (u : Nat) : |spread row u| ≤ b :=
  h _ (spread_mem row u)

/-- A row as an array of the key. -/
def array8 (c : List Int) (u : Nat) : Int8 := Int8.ofInt (spread c u)

private theorem toInt_array8 {c : List Int} (h : ∀ a ∈ (0 : Int) :: c, |a| ≤ 127) (u : Nat) :
    (array8 c u).toInt = spread c u := by
  have hle := abs_le.mp (abs_spread_le _ h u)
  exact Int8.toInt_ofInt_of_le (by omega) (by omega)

private theorem int8Poly_array8 {c : List Int} (h : ∀ a ∈ (0 : Int) :: c, |a| ≤ 127)
    (hc : c.length = 8) : int8Poly 9 (array8 c) = horner c power64 := by
  rw [← intPoly_spread hc, int8Poly]
  congr 1
  funext u
  exact toInt_array8 h u

/-- These are the first two rows. -/
def IsShort (n : Nat) (f g : Nat → Int8) : Prop :=
  ∀ u < n, f u = array8 fRow u ∧ g u = array8 gRow u

instance (n : Nat) (f g : Nat → Int8) : Decidable (IsShort n f g) :=
  inferInstanceAs (Decidable (∀ u < n, f u = array8 fRow u ∧ g u = array8 gRow u))

/-- Key generation that comes upon the short basis. -/
def shortGen : Gen where
  candidate _ _ := (array8 fRow, array8 gRow)
  orthogonal f g := IsShort (2 ^ 9) f g
  solveNtru f g := if IsShort (2 ^ 9) f g then some (array8 FRow) else none

private theorem shortGen_solves : SolvesNtru shortGen := by
  intro f g F hF
  rw [shortGen] at hF
  dsimp only at hF
  rw [Option.ite_none_right_eq_some] at hF
  obtain ⟨hshort, hF⟩ := hF
  obtain rfl := Option.some.inj hF
  refine ⟨fun u _ => ?_, spread GRow, fun u _ => abs_spread_le _ (by decide) u, ?_⟩
  · rw [toInt_array8 (by decide)]
    exact abs_spread_le _ (by decide) u
  · have hf : int8Poly 9 f = int8Poly 9 (array8 fRow) :=
      ofCoeffs_congr fun u hu => by
        dsimp only
        rw [(hshort u hu).1]
    have hg : int8Poly 9 g = int8Poly 9 (array8 gRow) :=
      ofCoeffs_congr fun u hu => by
        dsimp only
        rw [(hshort u hu).2]
    rw [hf, hg, int8Poly_array8 (by decide) rfl, int8Poly_array8 (by decide) rfl,
      int8Poly_array8 (by decide) rfl, intPoly_spread rfl]
    exact rows_ntru power64_pow modulus_zero

private theorem isUnit_short : IsUnit (int8Poly 9 (array8 fRow)) := by
  rw [int8Poly_array8 (by decide) rfl]
  exact isUnit_fRow power64_pow modulus_zero

private theorem shortGen_runs : ∃ h, keygen shortGen (fun _ => 0) 9 1 0 =
    some ⟨array8 fRow, array8 gRow, array8 FRow, h⟩ ∧ Reduced (2 ^ 9) h ∧
      wordPoly 9 h * int8Poly 9 (array8 fRow) = int8Poly 9 (array8 gRow) := by
  obtain ⟨-, h, hh, hred, hmul⟩ | ⟨hunit, -⟩ := computePublic_cases (show 9 ≤ 10 by decide)
    (array8 fRow) (array8 gRow)
  · refine ⟨h, ?_, hred, hmul⟩
    have hnotLarge : ¬∃ u < 2 ^ 9, (array8 fRow u).toInt ≥ 2 ^ (maxFgBits.getD 9 0 - 1) ∨
        (array8 fRow u).toInt ≤ -2 ^ (maxFgBits.getD 9 0 - 1) ∨
        (array8 gRow u).toInt ≥ 2 ^ (maxFgBits.getD 9 0 - 1) ∨
        (array8 gRow u).toInt ≤ -2 ^ (maxFgBits.getD 9 0 - 1) := by
      rintro ⟨u, -, hu⟩
      have hf := abs_le.mp (abs_spread_le fRow (b := 31) (by decide) u)
      have hg := abs_le.mp (abs_spread_le gRow (b := 31) (by decide) u)
      rw [toInt_array8 (by decide), toInt_array8 (by decide),
        show (2 : Int) ^ (maxFgBits.getD 9 0 - 1) = 32 from rfl] at hu
      omega
    have hok : acceptable shortGen (array8 fRow) (array8 gRow) 9 = true := by
      have hnormf : polySmallSqnorm (array8 fRow) 9 = 5735 := by decide +kernel
      have hnormg : polySmallSqnorm (array8 gRow) 9 = 3901 := by decide +kernel
      rw [acceptable]
      dsimp only
      rw [if_neg hnotLarge, hnormf, hnormg]
      refine Bool.and_eq_true_iff.mpr ⟨by decide, ?_⟩
      rw [shortGen]
      dsimp only
      exact decide_eq_true (show IsShort (2 ^ 9) _ _ from fun _ _ => ⟨rfl, rfl⟩)
    have hcandidate : shortGen.candidate (fun _ => 0) 0 = (array8 fRow, array8 gRow) := rfl
    have hsolve : shortGen.solveNtru (array8 fRow) (array8 gRow) = some (array8 FRow) := by
      rw [shortGen]
      dsimp only
      rw [if_pos (show IsShort (2 ^ 9) _ _ from fun _ _ => ⟨rfl, rfl⟩)]
    rw [keygen, hcandidate]
    dsimp only
    rw [hok, if_neg (by decide), hh]
    dsimp only
    rw [hsolve]
  · exact absurd isUnit_short hunit

theorem keypair_of_keygen_short : ∃ keys, keygen shortGen (fun _ => 0) 9 1 0 = some keys ∧
    ∃ kp G, Keypair.new keys = some kp ∧
      decodeSecret kp.sk.toList =
        some (kept (2 ^ 9) keys.f, kept (2 ^ 9) keys.g, kept (2 ^ 9) keys.F, G) ∧
      int8Poly 9 keys.f * int8Poly 9 G = int8Poly 9 keys.g * int8Poly 9 keys.F ∧
      modqDecode 9 (kp.pk.toList.drop 1) = some (896, (List.range (2 ^ 9)).map keys.h) ∧
      wordPoly 9 keys.h * int8Poly 9 keys.f = int8Poly 9 keys.g := by
  obtain ⟨h, hrun, -⟩ := shortGen_runs
  exact ⟨_, hrun, keypair_of_keygen shortGen_solves hrun⟩

/-- The bytes that the stated length covers, some of which may be behind the array. -/
def covered (sig : Vector UInt8 668) (behind : Nat → UInt8) : List UInt8 :=
  (sig.toList ++ (List.range (statedLength sig)).map behind).take (statedLength sig)

/-- Those that `PublicKey::verify` takes for the compressed coefficients. -/
def compressedPart (sig : Vector UInt8 668) (behind : Nat → UInt8) : List UInt8 :=
  (covered sig behind).drop 41

theorem length_covered (sig : Vector UInt8 668) (behind : Nat → UInt8) :
    (covered sig behind).length = statedLength sig := by
  rw [covered, List.length_take_of_le (by simp)]

/-- Header and nonce are in the array. -/
theorem covered_front {sig : Vector UInt8 668} (behind : Nat → UInt8)
    (h : 41 ≤ statedLength sig) :
    (covered sig behind).getD 0 0 = sig[0] ∧
      ((covered sig behind).drop 1).take 40 = (sig.toList.drop 1).take 40 := by
  have hfront : (covered sig behind).take 41 = sig.toList.take 41 := by
    rw [covered, List.take_take, Nat.min_eq_left h, List.take_append_of_le_length (by simp)]
  refine ⟨?_, ?_⟩
  · have hzero := congrArg (·.getD 0 0) hfront
    simpa [List.getD_eq_getElem?_getD, List.getElem?_take] using hzero
  · rw [List.take_drop, List.take_drop, hfront]

/-- **What `PublicKey::verify` accepts**: the bytes that the stated length covers are a header, a
nonce and the one encoding of some coefficients, with zeros behind it where the length is 666, and
these are short together with their distance from the hashed message. -/
theorem verify_iff (behind : Nat → UInt8) (pk : Vector UInt8 897) (message : List UInt8)
    (sig : Vector UInt8 668)
    (henough : 2 ^ 9 ≤ (goodSamples (shake ((sig.toList.drop 1).take 40 ++ message)) 9).length) :
    verify shake behind pk message sig = true ↔
      41 ≤ statedLength sig ∧ sig[0] = 0x39 ∧ pk[0] = 9 ∧ ∃ h v s2,
        modqDecode 9 (pk.toList.drop 1) = some (896, h) ∧
        compDecode 9 (compressedPart sig behind) = some (v, s2) ∧
        (v = (compressedPart sig behind).length ∨
          statedLength sig = 666 ∧ ∀ b ∈ (compressedPart sig behind).drop v, b = 0) ∧
        ShortFor (entries h)
          (entries ((goodSamples (shake ((sig.toList.drop 1).take 40 ++ message)) 9).take (2 ^ 9)))
          (entries s2) := by
  have hlength := length_covered sig behind
  have hpad (v : Nat) : paddingOk (compressedPart sig behind) v = true ↔
      v = (compressedPart sig behind).length ∨
        statedLength sig = 666 ∧ ∀ b ∈ (compressedPart sig behind).drop v, b = 0 := by
    have hsize : (compressedPart sig behind).length = 666 - 40 - 1 ↔ statedLength sig = 666 := by
      rw [compressedPart, List.length_drop, hlength]
      omega
    simp only [paddingOk, Bool.or_eq_true, Bool.and_eq_true, decide_eq_true_eq, List.all_eq_true,
      hsize]
  rw [verify, ← covered, cryptoSignVerify, hlength]
  by_cases hlen : statedLength sig < 41
  · rw [if_pos hlen]
    refine ⟨fun h => absurd h Bool.false_ne_true, fun h => ?_⟩
    omega
  · obtain ⟨hzero, hnonce⟩ := covered_front behind (Nat.le_of_not_lt hlen)
    have hpk : pk.toList.getD 0 0 = pk[0] := by simp
    rw [if_neg hlen, hzero]
    by_cases hheader : sig[0] = 0x39
    · rw [if_neg (not_not.mpr hheader), hnonce, List.drop_drop, doVerify_iff henough, hpk]
      simp only [Nat.le_of_not_lt hlen, hheader, true_and, ← hpad]
      rfl
    · rw [if_pos hheader]
      exact ⟨fun h => absurd h Bool.false_ne_true, fun h => absurd h.2.1 hheader⟩

/-! ### A signature under the short basis -/

/-- The hashed point: the entries that are not zero. -/
def pointRow : List Int := [4321, 11003, 7, 12288, 6144, 901, 2500, 10000]

def point (u : Nat) : UInt16 := UInt16.ofNat (spread pointRow u).toNat

/-- The bytes that are read for it. -/
def pointStream (i : Nat) : UInt8 :=
  let v := (spread pointRow (i / 2)).toNat
  UInt8.ofNat (if i % 2 = 0 then v / 256 else v % 256)

private theorem toNat_point (u : Nat) : ((point u).toNat : Int) = spread pointRow u := by
  have hle := abs_le.mp (abs_spread_le pointRow (b := 12288) (by decide) u)
  have hnonneg : ∀ a ∈ (0 : Int) :: pointRow, 0 ≤ a := by decide
  have := hnonneg _ (spread_mem pointRow u)
  rw [point, UInt16.toNat_ofNat']
  omega

private theorem goodSamples_point : goodSamples pointStream 9 = (List.range 717).map point := by
  have hcount : sampleCount 9 = 717 := rfl
  have hsamples : ∀ u, samples pointStream u = point u := by
    intro u
    have hall : ∀ a ∈ (0 : Int) :: pointRow,
        maskedSample ((UInt8.ofNat (a.toNat / 256)).toUInt32 <<< 8 |||
          (UInt8.ofNat (a.toNat % 256)).toUInt32) = UInt16.ofNat a.toNat := by decide
    have hhigh : pointStream (2 * u) = UInt8.ofNat ((spread pointRow u).toNat / 256) := by
      rw [pointStream, if_pos (Nat.mul_mod_right 2 u), Nat.mul_div_cancel_left u (by decide)]
    have hlow : pointStream (2 * u + 1) = UInt8.ofNat ((spread pointRow u).toNat % 256) := by
      rw [pointStream, if_neg (by omega), show (2 * u + 1) / 2 = u by omega]
    rw [samples, sample, hhigh, hlow]
    exact hall _ (spread_mem pointRow u)
  have hmap : (List.range 717).map (samples pointStream) = (List.range 717).map point :=
    List.map_congr_left fun u _ => hsamples u
  rw [goodSamples, hcount, hmap, List.filter_eq_self]
  intro x hx
  obtain ⟨u, -, rfl⟩ := List.mem_map.mp hx
  have hle := abs_le.mp (abs_spread_le pointRow (b := 12288) (by decide) u)
  have hpoint := toNat_point u
  refine decide_eq_true ?_
  rw [Good]
  omega

private theorem enough_point : 2 ^ 9 ≤ (goodSamples pointStream 9).length := by
  rw [goodSamples_point, List.length_map, List.length_range]
  decide

/-- An array that begins with the point. -/
def AtPoint (n : Nat) (hm : Nat → UInt16) : Prop := ∀ u < n, hm u = point u

instance (n : Nat) (hm : Nat → UInt16) : Decidable (AtPoint n hm) :=
  inferInstanceAs (Decidable (∀ u < n, hm u = point u))

private theorem atPoint : AtPoint (2 ^ 9) (hashToPointCt pointStream 9) := by
  intro u hu
  have hspec := hashToPointCt_spec (by decide) enough_point
  have htake : ((List.range 717).map point).take (2 ^ 9) = (List.range (2 ^ 9)).map point := by
    rw [← List.map_take, List.take_range]
    rfl
  rw [goodSamples_point, htake] at hspec
  exact List.map_inj_left.mp hspec u (List.mem_range.mpr hu)

/-- The vector of the lattice next to the point. -/
def t0Row : List Int := [4343, 10983, 5, 12269, 6141, 905, 2579, 9961]

def t1Row : List Int := [69, -1, -37, 8, -4, 69, -51, 0]

private theorem rows_lattice {R : Type*} [CommRing R] {y : R} (hy : y ^ 8 = -1) :
    ∃ z0 z1 : R, horner t0Row y = z0 * horner gRow y + z1 * horner GRow y ∧
      horner t1Row y = -(z0 * horner fRow y + z1 * horner FRow y) := by
  refine ⟨horner [90, 25, -18, -15, -68, -53, -129, -81] y,
    horner [-97, -72, 15, -51, -29, 41, -7, 25] y, ?_, ?_⟩
  · simp only [horner, t0Row, gRow, GRow, List.foldr]
    push_cast
    linear_combination -(2612 - 4860 * y + 2293 * y ^ 2 - 5696 * y ^ 3 - 564 * y ^ 4 -
      2345 * y ^ 5 - 3425 * y ^ 6) * hy
  · simp only [horner, t1Row, fRow, FRow, List.foldr]
    push_cast
    linear_combination (-4190 - 4883 * y - 206 * y ^ 2 - 6332 * y ^ 3 - 6562 * y ^ 4 -
      4676 * y ^ 5 - 2600 * y ^ 6) * hy

/-- A row as a vector of the signer. -/
def array64 (c : List Int) (u : Nat) : Int64 := Int64.ofInt (spread c u)

private theorem toInt_array64 {c : List Int} (h : ∀ a ∈ (0 : Int) :: c, |a| ≤ 12288) (u : Nat) :
    (array64 c u).toInt = spread c u := by
  have hle := abs_le.mp (abs_spread_le _ h u)
  exact Int64.toInt_ofInt_of_le (by omega) (by omega)

/-- The attempts of the signer: at the point, the vector next to it, and elsewhere one that is too
long. -/
def pointNearest : Nearest := fun _ _ _ _ _ hm _ =>
  if AtPoint (2 ^ 9) hm then (array64 t0Row, array64 t1Row) else (fun _ => 0, fun _ => 20000)

section Attempt

variable {hm : Nat → UInt16} (hat : AtPoint (2 ^ 9) hm)

include hat

private theorem near_point : ∀ u < 2 ^ 9,
    |((hm u).toNat : Int) - (array64 t0Row u).toInt| ≤ 46340 ∧
      |(array64 t1Row u).toInt| < 2 ^ 15 := by
  intro u hu
  have hp := abs_le.mp (abs_spread_le pointRow (b := 12288) (by decide) u)
  have h0 := abs_le.mp (abs_spread_le t0Row (b := 12288) (by decide) u)
  have h1 := abs_spread_le t1Row (b := 12288) (by decide) u
  rw [hat u hu, toNat_point, toInt_array64 (by decide), toInt_array64 (by decide)]
  exact ⟨abs_le.mpr ⟨by omega, by omega⟩, by omega⟩

private theorem latticeVector_point {f g F G : Nat → Int8}
    (hf : int8Poly 9 f = horner fRow power64) (hg : int8Poly 9 g = horner gRow power64)
    (hF : int8Poly 9 F = horner FRow power64) (hG : int8Poly 9 G = horner GRow power64) :
    LatticeVector f g F G hm (array64 t0Row, array64 t1Row) where
  near := near_point hat
  lattice := by
    have hpoly {c : List Int} (h : ∀ a ∈ (0 : Int) :: c, |a| ≤ 12288) (hc : c.length = 8) :
        intPoly 9 (fun u => (array64 c u).toInt) = horner c power64 := by
      rw [← intPoly_spread hc]
      exact congrArg (intPoly 9) (funext (toInt_array64 h))
    rw [hpoly (by decide) rfl, hpoly (by decide) rfl, hf, hg, hF, hG]
    exact rows_lattice power64_pow

private theorem signAttempt_point : signAttempt hm (array64 t0Row) (array64 t1Row) 9 =
    some fun u => (-array64 t1Row u).toInt16 := by
  obtain ⟨-, heq⟩ := signAttempt_eq (t := (array64 t0Row, array64 t1Row)) (near_point hat)
  have hleft : normSq (2 ^ 9) (fun u => ((hm u).toNat : Int) - (array64 t0Row u).toInt) =
      normSq (2 ^ 9) fun u => spread pointRow u - (array64 t0Row u).toInt :=
    Finset.sum_congr rfl fun u hu => by
      dsimp only
      rw [hat u (Finset.mem_range.mp hu), toNat_point]
  have hnorm : normSq (2 ^ 9) (fun u => spread pointRow u - (array64 t0Row u).toInt) +
      normSq (2 ^ 9) (fun u => (-array64 t1Row u).toInt16.toInt) = 22609 := by
    rw [normSq, normSq, sum_every fun u hu => ?_, sum_every fun u hu => ?_]
    · decide
    · rw [array64, spread_of_ne t1Row hu]
      rfl
    · rw [array64, spread_of_ne pointRow hu, spread_of_ne t0Row hu]
      rfl
  dsimp only at heq
  rw [heq, hleft, hnorm, if_pos (by decide)]

private theorem pointNearest_at {rng : Nat → UInt8} {f g F G : Nat → Int8} {k : Nat} :
    pointNearest rng f g F G hm k = (array64 t0Row, array64 t1Row) := by
  rw [pointNearest, if_pos hat]

end Attempt

private theorem exists_shortKey : ∃ keys kp G, keygen shortGen (fun _ => 0) 9 1 0 = some keys ∧
    Keypair.new keys = some kp ∧
    decodeSecret kp.sk.toList = some (kept (2 ^ 9) (array8 fRow), kept (2 ^ 9) (array8 gRow),
      kept (2 ^ 9) (array8 FRow), G) ∧
    int8Poly 9 G = horner GRow power64 ∧
    wordPoly 9 keys.h * int8Poly 9 (array8 fRow) = int8Poly 9 (array8 gRow) := by
  obtain ⟨h, hrun, hred, hmul⟩ := shortGen_runs
  obtain ⟨hsmall, -, hsolve⟩ := keygen_eq_some hrun
  obtain ⟨hF, G, hG, hntru⟩ := shortGen_solves _ _ _ hsolve
  obtain ⟨kp, hkp⟩ := exists_keypair hsmall
    (fun u hu => lt_of_le_of_lt (hF u hu) (by norm_num)) hred
  obtain ⟨hsk, -⟩ := Keypair.new_eq_some hkp
  obtain ⟨G', hsecret, hpoly⟩ := decodeSecret_of_ntru hsk isUnit_short hG hntru
  refine ⟨_, kp, G', hrun, hkp, hsecret, ?_, hmul⟩
  have hrows := rows_ntru power64_pow modulus_zero
  have hsame : int8Poly 9 (array8 fRow) * intPoly 9 G =
      int8Poly 9 (array8 fRow) * horner GRow power64 := by
    rw [hntru, int8Poly_array8 (by decide) rfl, int8Poly_array8 (by decide) rfl,
      int8Poly_array8 (by decide) rfl, hrows]
  rw [hpoly]
  exact isUnit_short.mul_left_cancel hsame

/-- Its coefficients take nine bits each. -/
private theorem exists_pointOut : ∃ out,
    compEncode (752 - 40 - 1) (fun u => (-array64 t1Row u).toInt16) 9 = some out ∧
      1 + 40 + out.length ≤ 666 := by
  have hall : ∀ a ∈ (0 : Int) :: t1Row, CompValid (-Int64.ofInt a).toInt16 ∧
      (compMeaning.code.enc (-Int64.ofInt a).toInt16).length = 9 := by
    unfold CompValid
    decide
  have hvalid : ∀ u < 2 ^ 9, CompValid ((-array64 t1Row u).toInt16) := fun u _ =>
    (hall _ (spread_mem t1Row u)).1
  have hnine (u : Nat) : (compMeaning.code.enc (-array64 t1Row u).toInt16).length = 9 :=
    (hall _ (spread_mem t1Row u)).2
  have hsize : ((List.range (2 ^ 9)).flatMap fun u =>
      compMeaning.code.enc (-array64 t1Row u).toInt16).length = 4608 := by
    simp only [List.length_flatMap, hnine, List.map_const', List.sum_replicate, List.length_range]
    rfl
  obtain ⟨out, hout, hlen⟩ := exists_compEncode (752 - 40 - 1) 9 hvalid (by rw [hsize]; decide)
  rw [hsize] at hlen
  exact ⟨out, hout, by omega⟩

/-- A nonce, a seed, a message and the hash of the two. -/
def pointNonce : Vector UInt8 40 := Vector.replicate 40 7

def pointSeed : Vector UInt8 48 := Vector.replicate 48 5

def pointMessage : List UInt8 := [104, 105]

def pointShake : Shake := fun _ => pointStream

private theorem exists_pointSignature {kp : Keypair} {G : Nat → Int8} {out : List UInt8}
    (hsecret : decodeSecret kp.sk.toList = some (kept (2 ^ 9) (array8 fRow),
      kept (2 ^ 9) (array8 gRow), kept (2 ^ 9) (array8 FRow), G))
    (hout : compEncode (752 - 40 - 1) (fun u => (-array64 t1Row u).toInt16) 9 = some out)
    (hlen : 1 + 40 + out.length ≤ 666) :
    ∃ base, base.toList = 0x39 :: pointNonce.toList ++ out ++
        List.replicate (668 - (1 + 40 + out.length)) 0 ∧
      kp.sign pointShake pointNearest 1 pointMessage pointNonce pointSeed =
        .signature (withLength base (1 + 40 + out.length)) := by
  refine Keypair.exists_signature hsecret ?_ hout (by omega)
  have hat : AtPoint (2 ^ 9) (hashToPointCt (pointShake (pointNonce.toList ++ pointMessage)) 9) :=
    atPoint
  exact signDyn_of_attempt (pointNearest_at hat) (signAttempt_point hat)

/-- What signs the message under the short basis is accepted, for the reasons given. -/
theorem verify_iff_point : ∃ keys kp sig, keygen shortGen (fun _ => 0) 9 1 0 = some keys ∧
    Keypair.new keys = some kp ∧
    kp.sign pointShake pointNearest 1 pointMessage pointNonce pointSeed = .signature sig ∧
    verify pointShake (fun _ => 0) kp.pk pointMessage sig = true ∧
    41 ≤ statedLength sig ∧ sig[0] = 0x39 ∧ kp.pk[0] = 9 ∧ ∃ h v s2,
      modqDecode 9 (kp.pk.toList.drop 1) = some (896, h) ∧
      compDecode 9 (compressedPart sig fun _ => 0) = some (v, s2) ∧
      (v = (compressedPart sig fun _ => 0).length ∨
        statedLength sig = 666 ∧ ∀ b ∈ (compressedPart sig fun _ => 0).drop v, b = 0) ∧
      ShortFor (entries h) (entries ((goodSamples pointStream 9).take (2 ^ 9))) (entries s2) := by
  obtain ⟨keys, kp, G, hrun, hkp, hsecret, hG, hmul⟩ := exists_shortKey
  obtain ⟨out, hout, hlen⟩ := exists_pointOut
  obtain ⟨base, hbase, hsign⟩ := exists_pointSignature hsecret hout hlen
  have hshort : ShortFor keys.h (hashToPointCt pointStream 9)
      fun u => (-array64 t1Row u).toInt16 := by
    have hrows := rows_ntru power64_pow modulus_zero
    refine shortFor_of_attempt isUnit_short hmul ?_ (latticeVector_point atPoint
      (int8Poly_array8 (by decide) rfl) (int8Poly_array8 (by decide) rfl)
      (int8Poly_array8 (c := FRow) (by decide) rfl) hG) (signAttempt_point atPoint)
    rw [hG, int8Poly_array8 (by decide) rfl, int8Poly_array8 (by decide) rfl,
      int8Poly_array8 (by decide) rfl, hrows]
  have henough (bytes : List UInt8) : 2 ^ 9 ≤ (goodSamples (pointShake bytes) 9).length :=
    enough_point
  have hverify : verify pointShake (fun _ => 0) kp.pk pointMessage
      (withLength base (1 + 40 + out.length)) = true :=
    verify_of_shortFor (Keypair.new_eq_some hkp).2 hout hlen hbase (henough _) hshort fun _ => 0
  have hchecks := (verify_iff (fun _ => 0) kp.pk pointMessage _ (henough _)).mp hverify
  exact ⟨keys, kp, _, hrun, hkp, hsign, hverify, hchecks⟩

/-- What the attempts of the signer find with a basis: where one succeeds, it started from a vector
of the lattice near the hashed point. -/
def FindsLattice (nearest : Nearest) (f g F G : Nat → Int8) : Prop :=
  ∀ rng hm k, Reduced (2 ^ 9) hm →
    signAttempt hm (nearest rng f g F G hm k).1 (nearest rng f g F G hm k).2 9 ≠ none →
    LatticeVector f g F G hm (nearest rng f g F G hm k)

/-- **Signatures verify**, under generated keys and as long as the length at the end of the array is
not written over the compressed coefficients. -/
theorem verify_sign {stream : Nat → UInt8} {fuel fuel' k : Nat}
    (hrun : keygen gen stream 9 fuel k = some keys) (hkp : Keypair.new keys = some kp)
    (hnearest : ∀ f g F G, decodeSecret kp.sk.toList = some (f, g, F, G) →
      FindsLattice nearest f g F G)
    {message : List UInt8} {nonce : Vector UInt8 40} {seed : Vector UInt8 48}
    {sig : Vector UInt8 668}
    (hsign : kp.sign shake nearest fuel' message nonce seed = .signature sig)
    (hlen : statedLength sig ≤ 666)
    (henough : 2 ^ 9 ≤ (goodSamples (shake (nonce.toList ++ message)) 9).length)
    (behind : Nat → UInt8) : verify shake behind kp.pk message sig = true := by
  obtain ⟨hsk, hpk⟩ := Keypair.new_eq_some hkp
  obtain ⟨f, g, F, G, s2, out, base, hsecret, hs2, hout, hfits, hbase, rfl⟩ :=
    Keypair.sign_eq_signature hsign
  rw [statedLength_withLength base (by omega)] at hlen
  have hfinds := hnearest f g F G hsecret
  -- the signer works with the generated key
  rw [decodeSecret_encoded hsk] at hsecret
  obtain ⟨G', hprivate, heq⟩ := Option.map_eq_some_iff.mp hsecret
  obtain ⟨rfl, rfl, rfl, rfl⟩ := by simpa only [Prod.mk.injEq] using heq
  obtain ⟨hunit, -, hntru⟩ := (completePrivate_iff (show 9 ≤ 10 by decide) _ _ _
    fun u => (G' u).toInt).mp ⟨G', hprivate, fun _ _ => rfl⟩
  have hpublic : wordPoly 9 keys.h * int8Poly 9 keys.f = int8Poly 9 keys.g := by
    obtain ⟨-, hcompute, -⟩ := keygen_eq_some hrun
    obtain ⟨-, h, hh, -, hmul⟩ | ⟨-, hnone⟩ :=
      computePublic_cases (show 9 ≤ 10 by decide) keys.f keys.g
    · obtain rfl := Option.some.inj (hcompute.symm.trans hh)
      exact hmul
    · rw [hnone] at hcompute
      cases hcompute
  rw [← int8Poly_kept keys.f, ← int8Poly_kept keys.g] at hpublic
  -- so its attempt is a signature for the public key
  obtain ⟨j, hattempt⟩ := signDyn_eq_some hs2
  have hlattice := hfinds _ _ j (hashedPoint henough).1
    (by rw [hattempt]; exact Option.some_ne_none _)
  have hshort := shortFor_of_attempt hunit hpublic hntru hlattice hattempt
  exact verify_of_shortFor hpk hout hlen hbase henough hshort behind

private theorem pointNearest_finds {f g F G : Nat → Int8}
    (hf : int8Poly 9 f = horner fRow power64) (hg : int8Poly 9 g = horner gRow power64)
    (hF : int8Poly 9 F = horner FRow power64) (hG : int8Poly 9 G = horner GRow power64) :
    FindsLattice pointNearest f g F G := by
  intro rng hm k hred hok
  by_cases hat : AtPoint (2 ^ 9) hm
  · rw [pointNearest_at hat]
    exact latticeVector_point hat hf hg hF hG
  · -- elsewhere no attempt succeeds
    refine absurd ?_ hok
    rw [pointNearest, if_neg hat]
    have hnear : ∀ u < 2 ^ 9, |((hm u).toNat : Int) - (0 : Int64).toInt| ≤ 46340 ∧
        |(20000 : Int64).toInt| < 2 ^ 15 := by
      intro u hu
      have hlt := hred u hu
      rw [show (0 : Int64).toInt = 0 from rfl]
      exact ⟨abs_le.mpr ⟨by omega, by omega⟩, by decide⟩
    obtain ⟨-, heq⟩ := signAttempt_eq (t := (fun _ => 0, fun _ => 20000)) hnear
    have hlong : normSq (2 ^ 9) (fun _ => (-(20000 : Int64)).toInt16.toInt) = 204800000000 := by
      rw [normSq, Finset.sum_const, Finset.card_range]
      decide
    have hnonneg := normSq_nonneg (2 ^ 9) fun u => ((hm u).toNat : Int) - (0 : Int64).toInt
    dsimp only at heq ⊢
    rw [heq, hlong, if_neg (by omega)]

theorem verify_sign_point : ∃ keys kp sig, keygen shortGen (fun _ => 0) 9 1 0 = some keys ∧
    Keypair.new keys = some kp ∧
    kp.sign pointShake pointNearest 1 pointMessage pointNonce pointSeed = .signature sig ∧
    verify pointShake (fun _ => 0) kp.pk pointMessage sig = true := by
  obtain ⟨keys, kp, G, hrun, hkp, hsecret, hG, -⟩ := exists_shortKey
  obtain ⟨out, hout, hlen⟩ := exists_pointOut
  obtain ⟨base, -, hsign⟩ := exists_pointSignature hsecret hout hlen
  refine ⟨keys, kp, _, hrun, hkp, hsign, verify_sign hrun hkp ?_ hsign ?_ enough_point fun _ => 0⟩
  · intro f g F G' hsecret'
    obtain ⟨rfl, rfl, rfl, rfl⟩ : kept (2 ^ 9) (array8 fRow) = f ∧
        kept (2 ^ 9) (array8 gRow) = g ∧ kept (2 ^ 9) (array8 FRow) = F ∧ G = G' := by
      simpa only [Option.some.injEq, Prod.mk.injEq] using hsecret.symm.trans hsecret'
    refine pointNearest_finds ?_ ?_ ?_ hG
    · rw [int8Poly_kept, int8Poly_array8 (by decide) rfl]
    · rw [int8Poly_kept, int8Poly_array8 (by decide) rfl]
    · rw [int8Poly_kept, int8Poly_array8 (by decide) rfl]
  · rw [statedLength_withLength base (by omega)]
    exact hlen

end Signatures

end OnionNetwork.Falcon
