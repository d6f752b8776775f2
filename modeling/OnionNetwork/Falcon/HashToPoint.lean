import OnionNetwork.Falcon.Mq
import OnionNetwork.Lib.Compaction
import Mathlib.Data.Nat.Size

/-!
# The hashed message

`hash_to_point_vartime` reads samples until there are enough good ones, `hash_to_point_ct` reads a
fixed number of them and moves the good ones to the front. The hash is a parameter: the byte
string that it gives. The arrays `x`, `tt1` and `tt2` of the source are one array here, which they
cut into three parts.
-/

namespace OnionNetwork.Falcon

open Lib

/-- `w` of one sample: two bytes, the high one first. -/
def sample (stream : Nat → UInt8) (u : Nat) : UInt32 :=
  (stream (2 * u)).toUInt32 <<< 8 ||| (stream (2 * u + 1)).toUInt32

/-! ## Variable time -/

/-- `while w >= 12289 { w -= 12289; }` -/
def subtractLoop (w : UInt32) : UInt32 :=
  if 12289 ≤ w then subtractLoop (w - 12289) else w
termination_by w.toNat
decreasing_by
  rename_i h
  rw [UInt32.toNat_sub_of_le _ _ h]
  have hle : 12289 ≤ w.toNat := h
  show w.toNat - 12289 < w.toNat
  omega

/-- `hash_to_point_vartime`, where at most `fuel` samples are read from `u` on; `n` counts down the
entries that are missing. -/
def hashToPointVartime (stream : Nat → UInt8) : Nat → Nat → Nat → List UInt16 → Option (List UInt16)
  | _, _, 0, x => some x
  | 0, _, _ + 1, _ => none
  | fuel + 1, u, n + 1, x =>
      let w := sample stream u
      if w < 61445 then
        hashToPointVartime stream fuel (u + 1) n (x ++ [(subtractLoop w).toUInt16])
      else hashToPointVartime stream fuel (u + 1) (n + 1) x

/-! ## Constant time -/

/-- `overtab`. -/
def overtab : List UInt16 := [0, 65, 67, 71, 77, 86, 100, 122, 154, 205, 287]

/-- `hash_to_point_ct`: what one sample becomes. -/
def maskedSample (w : UInt32) : UInt16 :=
  let wr := w - ((24578 : UInt32) &&& ((w - 24578) >>> 31 - 1))
  let wr := wr - ((24578 : UInt32) &&& ((wr - 24578) >>> 31 - 1))
  let wr := wr - ((12289 : UInt32) &&& ((wr - 12289) >>> 31 - 1))
  let wr := wr ||| ((w - 61445) >>> 31 - 1)
  wr.toUInt16

/-- `hash_to_point_ct`: one round of the inner loop, with `v`. -/
def moveEntry (p : UInt32) (s : (Nat → UInt16) × UInt32) (u : Nat) : (Nat → UInt16) × UInt32 :=
  let sv := (s.1 u).toUInt32
  let j := UInt32.ofNat u - s.2
  let mk := (sv >>> 15) - 1
  let v := s.2 - mk
  if UInt32.ofNat u < p then (s.1, v) else
    let d := u - p.toNat
    let dv := (s.1 d).toUInt32
    let mk := mk &&& -(((j &&& p) + 0x1ff) >>> 9)
    let a := Function.update s.1 u (sv ^^^ (mk &&& (sv ^^^ dv))).toUInt16
    (Function.update a d (dv ^^^ (mk &&& (sv ^^^ dv))).toUInt16, v)

/-- `hash_to_point_ct`. The loop over `p` has a round for each power of two up to `over`. -/
def hashToPointCt (stream : Nat → UInt8) (logn : Nat) : Nat → UInt16 :=
  let n := 2 ^ logn
  let overCount := (overtab.getD logn 0).toNat
  let m := n + overCount
  let x := forRange 0 m (fun x u => Function.update x u (maskedSample (sample stream u))) fun _ => 0
  forRange 0 (Nat.size overCount)
    (fun x k => (forRange 0 m (moveEntry (1 <<< UInt32.ofNat k)) (x, 0)).1) x

/-! ## Samples -/

theorem toNat_sample_lt (stream : Nat → UInt8) (u : Nat) : (sample stream u).toNat < 2 ^ 16 := by
  have hhigh := (stream (2 * u)).toNat_lt
  have hlow := (stream (2 * u + 1)).toNat_lt
  rw [sample, UInt32.toNat_or, UInt32.toNat_shiftLeft, UInt8.toNat_toUInt32, UInt8.toNat_toUInt32]
  apply Nat.or_lt_two_pow
  · show (stream (2 * u)).toNat <<< 8 % 2 ^ 32 < 2 ^ 16
    rw [Nat.shiftLeft_eq]
    omega
  · omega

theorem toNat_subtractLoop (w : UInt32) : (subtractLoop w).toNat = w.toNat % 12289 := by
  induction w using subtractLoop.induct with
  | case1 w hge ih =>
      rw [subtractLoop, if_pos hge, ih, UInt32.toNat_sub_of_le _ _ hge]
      have hle : 12289 ≤ w.toNat := hge
      exact (Nat.mod_eq_sub_mod hle).symm
  | case2 w hlt =>
      have hlt : w.toNat < 12289 := Nat.lt_of_not_le hlt
      rw [subtractLoop, if_neg (by assumption), Nat.mod_eq_of_lt hlt]

/-- What a mask from the top bit subtracts. -/
theorem toNat_sub_masked {w c : UInt32} (hw : w.toNat < 2 ^ 31) (hc : c.toNat < 2 ^ 31) :
    (w - (c &&& ((w - c) >>> 31 - 1))).toNat =
      if c.toNat ≤ w.toNat then w.toNat - c.toNat else w.toNat := by
  have hsub := UInt32.toNat_sub w c
  rcases top_bit_cases (w - c) with ⟨h, hbit⟩ | ⟨h, hbit⟩
  · have hle : c.toNat ≤ w.toNat := by omega
    rw [hbit, if_pos hle, show (0 : UInt32) - 1 = -1 from rfl, UInt32.and_neg_one, hsub]
    omega
  · have hlt : ¬c.toNat ≤ w.toNat := by omega
    rw [hbit, if_neg hlt, show (1 : UInt32) - 1 = 0 from rfl, UInt32.and_zero, UInt32.sub_zero]

/-- A good sample is reduced, all others become the same. -/
theorem toNat_maskedSample {w : UInt32} (hw : w.toNat < 2 ^ 16) :
    (maskedSample w).toNat = if w.toNat < 61445 then w.toNat % 12289 else 0xffff := by
  have h1 := toNat_sub_masked (w := w) (c := 24578) (by omega) (by decide)
  rw [maskedSample]
  generalize w - ((24578 : UInt32) &&& ((w - 24578) >>> 31 - 1)) = w1 at h1
  have hlt1 : w1.toNat < 2 ^ 31 := by
    rw [h1]
    split <;> omega
  have h2 := toNat_sub_masked (w := w1) (c := 24578) hlt1 (by decide)
  generalize w1 - ((24578 : UInt32) &&& ((w1 - 24578) >>> 31 - 1)) = w2 at h2
  have hlt2 : w2.toNat < 2 ^ 31 := by
    rw [h2]
    split <;> omega
  have h3 := toNat_sub_masked (w := w2) (c := 12289) hlt2 (by decide)
  generalize w2 - ((12289 : UInt32) &&& ((w2 - 12289) >>> 31 - 1)) = w3 at h3
  have hsub := UInt32.toNat_sub w 61445
  simp only [show (24578 : UInt32).toNat = 24578 from rfl,
    show (12289 : UInt32).toNat = 12289 from rfl,
    show (61445 : UInt32).toNat = 61445 from rfl] at h1 h2 h3 hsub
  rcases top_bit_cases (w - 61445) with ⟨h, hbit⟩ | ⟨h, hbit⟩
  · rw [hbit, if_neg (by omega), show (0 : UInt32) - 1 = -1 from rfl, UInt32.or_neg_one]
    rfl
  · rw [hbit, if_pos (by omega), show (1 : UInt32) - 1 = 0 from rfl, UInt32.or_zero,
      UInt32.toNat_toUInt16]
    split at h1 <;> split at h2 <;> split at h3 <;> omega

/-! ## The passes -/

/-- The entries that are not thrown away. -/
def Good (x : UInt16) : Prop := x.toNat < 2 ^ 15

instance : DecidablePred Good := fun x => inferInstanceAs (Decidable (x.toNat < 2 ^ 15))

theorem good_cases (x : UInt16) :
    (Good x ∧ x.toUInt32 >>> 15 = 0) ∨ (¬ Good x ∧ x.toUInt32 >>> 15 = 1) := by
  have hx := x.toNat_lt
  have hshift : (x.toUInt32 >>> 15).toNat = x.toNat / 2 ^ 15 := by
    rw [UInt32.toNat_shiftRight, UInt16.toNat_toUInt32, Nat.shiftRight_eq_div_pow]
    rfl
  rw [Good]
  rcases Nat.lt_or_ge x.toNat (2 ^ 15) with h | h
  · exact .inl ⟨h, UInt32.toNat.inj (by rw [hshift, Nat.div_eq_of_lt h]; rfl)⟩
  · refine .inr ⟨Nat.not_lt_of_ge h, UInt32.toNat.inj ?_⟩
    rw [hshift]
    show _ = 1
    omega

section Rounds

variable {k u c : Nat} {a : Nat → UInt16}

private theorem toNat_power (hk : k ≤ 8) : ((1 : UInt32) <<< UInt32.ofNat k).toNat = 2 ^ k := by
  have hpow := Nat.pow_le_pow_right (n := 2) (by omega) hk
  rw [UInt32.toNat_shiftLeft, UInt32.toNat_ofNat', Nat.mod_eq_of_lt (a := k) (by omega),
    Nat.mod_eq_of_lt (a := k) (by omega)]
  show 1 <<< k % 2 ^ 32 = _
  rw [Nat.one_shiftLeft, Nat.mod_eq_of_lt (by omega)]

/-- The mask from the bit of the distance. -/
private theorem mask_bit (hk : k ≤ 8) (hu : u < 2 ^ 32) (hc : c ≤ u) :
    -((((UInt32.ofNat u - UInt32.ofNat c) &&& (1 <<< UInt32.ofNat k)) + 0x1ff) >>> 9) =
      if (u - c).testBit k then (-1 : UInt32) else 0 := by
  have hpow := Nat.pow_le_pow_right (n := 2) (by omega) hk
  have hpos := Nat.two_pow_pos k
  have hand : ((UInt32.ofNat u - UInt32.ofNat c) &&& (1 <<< UInt32.ofNat k)).toNat =
      ((u - c).testBit k).toNat * 2 ^ k := by
    rw [← UInt32.ofNat_sub hc, UInt32.toNat_and, toNat_power hk, UInt32.toNat_ofNat',
      Nat.mod_eq_of_lt (by omega), Nat.and_two_pow]
  have hshift :
      ((((UInt32.ofNat u - UInt32.ofNat c) &&& (1 <<< UInt32.ofNat k)) + 0x1ff) >>> 9).toNat =
        (((u - c).testBit k).toNat * 2 ^ k + 511) / 2 ^ 9 := by
    rw [UInt32.toNat_shiftRight, UInt32.toNat_add, hand, Nat.shiftRight_eq_div_pow]
    show (_ * 2 ^ k + 511) % 2 ^ 32 / 2 ^ 9 = _
    have := Nat.mul_le_mul_right (2 ^ k) (Bool.toNat_le ((u - c).testBit k))
    rw [Nat.mod_eq_of_lt (by omega)]
  cases hbit : (u - c).testBit k with
  | true =>
      rw [hbit, Bool.toNat_true, Nat.one_mul, show (2 ^ k + 511) / 2 ^ 9 = 1 by omega] at hshift
      rw [UInt32.toNat_inj.mp (hshift.trans (show 1 = (1 : UInt32).toNat from rfl))]
      rfl
  | false =>
      rw [hbit, Bool.toNat_false, Nat.zero_mul, show (0 + 511) / 2 ^ 9 = 0 from rfl] at hshift
      rw [UInt32.toNat_inj.mp (hshift.trans (show 0 = (0 : UInt32).toNat from rfl))]
      rfl

/-- Both entries are written, either the other's value or their own. -/
private theorem update_masked (mk : UInt32) (hmk : mk = -1 ∨ mk = 0) (d : Nat) :
    (let sv := (a u).toUInt32
     let dv := (a d).toUInt32
     Function.update (Function.update a u (sv ^^^ (mk &&& (sv ^^^ dv))).toUInt16) d
      (dv ^^^ (mk &&& (sv ^^^ dv))).toUInt16) =
    if mk = -1 then Compaction.exchange a u d else a := by
  rcases hmk with rfl | rfl
  · have hs (x y : UInt32) : x ^^^ (-1 &&& (x ^^^ y)) = y := by
      rw [UInt32.and_comm, UInt32.and_neg_one, ← UInt32.xor_assoc, UInt32.xor_self, UInt32.zero_xor]
    have hd' (x y : UInt32) : y ^^^ (-1 &&& (x ^^^ y)) = x := by
      rw [UInt32.xor_comm x y, hs]
    dsimp only
    rw [hs, hd', if_pos rfl, UInt16.toUInt16_toUInt32, UInt16.toUInt16_toUInt32]
    funext t
    rw [Compaction.exchange, Function.update_apply, Function.update_apply]
    split
    · next h => rw [h, Equiv.swap_apply_right]
    · split
      · next h => rw [h, Equiv.swap_apply_left]
      · next h h' => rw [Equiv.swap_apply_of_ne_of_ne h' h]
  · dsimp only
    rw [UInt32.zero_and, UInt32.xor_zero, UInt32.xor_zero, UInt16.toUInt16_toUInt32,
      UInt16.toUInt16_toUInt32, Function.update_eq_self, Function.update_eq_self,
      if_neg (by decide)]

/-- A round of the inner loop is a step of a pass. -/
theorem moveEntry_eq (hk : k ≤ 8) (hu : u < 2 ^ 32) (hc : c ≤ u) (a : Nat → UInt16) :
    moveEntry (1 <<< UInt32.ofNat k) (a, UInt32.ofNat c) u =
      ((Compaction.step Good k (a, c) u).1, UInt32.ofNat (Compaction.step Good k (a, c) u).2) := by
  have hguard : UInt32.ofNat u < 1 <<< UInt32.ofNat k ↔ u < 2 ^ k := by
    rw [UInt32.lt_iff_toNat_lt, toNat_power hk, UInt32.toNat_ofNat', Nat.mod_eq_of_lt hu]
  have hpos := Nat.two_pow_pos k
  rw [moveEntry, Compaction.step, toNat_power hk, mask_bit hk hu hc]
  simp only [hguard]
  rcases good_cases (a u) with ⟨hgood, hbit⟩ | ⟨hgood, hbit⟩
  · have hcount : UInt32.ofNat c - (0 - 1) = UInt32.ofNat (c + 1) := by
      rw [UInt32.ofNat_add, show (0 : UInt32) - 1 = -1 from rfl, UInt32.sub_neg]
      rfl
    rw [hbit, hcount, if_pos hgood]
    split
    · next hlt =>
        have hzero : (u - c).testBit k = false := Nat.testBit_eq_false_of_lt (by omega)
        rw [if_neg (by rw [hzero]; exact Bool.false_ne_true)]
    · next hge =>
        have hupdate := update_masked (u := u) (a := a)
          ((0 - 1) &&& if (u - c).testBit k then (-1 : UInt32) else 0)
          (by split <;> [exact .inl rfl; exact .inr rfl]) (u - 2 ^ k)
        dsimp only at hupdate ⊢
        rw [hupdate]
        congr 1
        cases (u - c).testBit k <;> rfl
  · rw [hbit, if_neg hgood, show (1 : UInt32) - 1 = 0 from rfl, UInt32.sub_zero]
    split
    · rfl
    · next hge =>
        have hupdate := update_masked (u := u) (a := a)
          (0 &&& if (u - c).testBit k then (-1 : UInt32) else 0) (.inr UInt32.zero_and) (u - 2 ^ k)
        dsimp only at hupdate ⊢
        rw [hupdate, UInt32.zero_and, if_neg (by decide)]

/-- An inner loop is a pass. -/
theorem moveEntries_eq {m : Nat} (hk : k ≤ 8) (hm : m < 2 ^ 32) (a : Nat → UInt16) :
    (forRange 0 m (moveEntry (1 <<< UInt32.ofNat k)) (a, 0)).1 = Compaction.pass Good m k a := by
  have hrun : ∀ u ≤ m, forRange 0 u (moveEntry (1 <<< UInt32.ofNat k)) (a, 0) =
      ((forRange 0 u (Compaction.step Good k) (a, 0)).1,
        UInt32.ofNat (forRange 0 u (Compaction.step Good k) (a, 0)).2) ∧
      (forRange 0 u (Compaction.step Good k) (a, 0)).2 ≤ u := by
    intro u hu
    induction u with
    | zero => exact ⟨rfl, Nat.le_refl 0⟩
    | succ u ih =>
        obtain ⟨heq, hle⟩ := ih (by omega)
        rw [forRange_succ (Nat.zero_le u), forRange_succ (Nat.zero_le u), heq]
        refine ⟨moveEntry_eq hk (by omega) hle _, ?_⟩
        rw [Compaction.step]
        split
        · exact Nat.succ_le_succ hle
        · exact hle.trans (Nat.le_succ u)
  rw [(hrun m (Nat.le_refl m)).1, Compaction.pass]

end Rounds

/-! ## The good samples -/

section Samples

variable {stream : Nat → UInt8} {logn : Nat}

/-- What the samples become. -/
def samples (stream : Nat → UInt8) (u : Nat) : UInt16 := maskedSample (sample stream u)

theorem good_sample_iff (u : Nat) : Good (samples stream u) ↔ sample stream u < 61445 := by
  have hlt := toNat_sample_lt stream u
  have hmod := Nat.mod_lt (sample stream u).toNat (show 0 < 12289 by omega)
  rw [Good, samples, toNat_maskedSample hlt, UInt32.lt_iff_toNat_lt]
  show _ ↔ (sample stream u).toNat < 61445
  split
  · next h => exact ⟨fun _ => h, fun _ => by omega⟩
  · next h => exact ⟨fun h' => absurd h' (by decide), fun h' => absurd h' h⟩

theorem toNat_samples {u : Nat} (h : Good (samples stream u)) :
    (samples stream u).toNat = (sample stream u).toNat % 12289 := by
  rw [good_sample_iff] at h
  rw [samples, toNat_maskedSample (toNat_sample_lt stream u)]
  exact if_pos h

theorem lt_of_good {u : Nat} (h : Good (samples stream u)) : (samples stream u).toNat < 12289 := by
  rw [toNat_samples h]
  exact Nat.mod_lt _ (by omega)

/-- Reading samples until there are enough is reading all and taking the first good ones. -/
theorem hashToPointVartime_eq_some {fuel u n : Nat} {x xs : List UInt16} :
    hashToPointVartime stream fuel u n x = some xs ↔
      n ≤ (((List.range' u fuel).map (samples stream)).filter Good).length ∧
        xs = x ++ (((List.range' u fuel).map (samples stream)).filter Good).take n := by
  induction fuel generalizing u n x with
  | zero =>
      cases n with
      | zero => simp [hashToPointVartime, eq_comm]
      | succ n => simp [hashToPointVartime]
  | succ fuel ih =>
      cases n with
      | zero => simp [hashToPointVartime, eq_comm]
      | succ n =>
          rw [hashToPointVartime, List.range'_succ, List.map_cons]
          by_cases hgood : Good (samples stream u)
          · have hlt := (good_sample_iff u).mp hgood
            have hvalue : (subtractLoop (sample stream u)).toUInt16 = samples stream u := by
              have hmod := Nat.mod_lt (sample stream u).toNat (show 0 < 12289 by omega)
              apply UInt16.toNat.inj
              rw [UInt32.toNat_toUInt16, toNat_subtractLoop, toNat_samples hgood]
              omega
            rw [if_pos hlt, ih, hvalue, List.filter_cons_of_pos (by simpa using hgood),
              List.length_cons, List.take_succ_cons, List.append_assoc]
            exact and_congr_left' (Nat.succ_le_succ_iff).symm
          · rw [if_neg (mt (good_sample_iff u).mpr hgood), ih,
              List.filter_cons_of_neg (by simpa using hgood)]

/-- How many samples are read. -/
def sampleCount (logn : Nat) : Nat := 2 ^ logn + (overtab.getD logn 0).toNat

theorem overtab_lt (logn : Nat) : (overtab.getD logn 0).toNat < 2 ^ 9 := by
  rcases Nat.lt_or_ge logn 11 with h | h
  · have hall : ∀ k < 11, (overtab.getD k 0).toNat < 2 ^ 9 := by decide
    exact hall logn h
  · rw [List.getD_eq_default _ _ h]
    decide

/-- The outer loop is a compaction. -/
theorem hashToPointCt_eq (hlogn : logn ≤ 10) :
    hashToPointCt stream logn =
      Compaction.compact Good (sampleCount logn) (Nat.size (overtab.getD logn 0).toNat)
        (fun u => if u < sampleCount logn then samples stream u else 0) := by
  have hover := overtab_lt logn
  have hpow := Nat.pow_le_pow_right (n := 2) (by omega) hlogn
  have hstart : forRange 0 (sampleCount logn)
      (fun x u => Function.update x u (maskedSample (sample stream u))) (fun _ => 0) =
        fun u => if u < sampleCount logn then samples stream u else 0 := by
    funext u
    exact forRange_update (fun u _ => maskedSample (sample stream u)) (sampleCount logn) _ u
  have hsize : Nat.size (overtab.getD logn 0).toNat ≤ 9 := Nat.size_le.mpr hover
  rw [hashToPointCt, ← sampleCount, hstart, Compaction.compact]
  have hpasses : ∀ K ≤ 9, ∀ a, forRange 0 K (fun x k =>
      (forRange 0 (sampleCount logn) (moveEntry (1 <<< UInt32.ofNat k)) (x, 0)).1) a =
        forRange 0 K (fun a k => Compaction.pass Good (sampleCount logn) k a) a := by
    intro K hK a
    induction K with
    | zero => rfl
    | succ K ih =>
        rw [forRange_succ (Nat.zero_le K), forRange_succ (Nat.zero_le K), ih (by omega)]
        exact moveEntries_eq (by omega) (by rw [sampleCount]; omega) _
  exact hpasses _ hsize _

/-- The good ones among the samples that are read. -/
def goodSamples (stream : Nat → UInt8) (logn : Nat) : List UInt16 :=
  ((List.range (sampleCount logn)).map (samples stream)).filter Good

private theorem validEntries_eq : Compaction.validEntries Good (sampleCount logn)
    (fun u => if u < sampleCount logn then samples stream u else 0) = goodSamples stream logn := by
  rw [Compaction.validEntries, goodSamples]
  congr 1
  apply List.map_congr_left
  intro u hu
  rw [if_pos (List.mem_range.mp hu)]

/-- **The constant-time path** finds the first good samples. -/
theorem hashToPointCt_spec (hlogn : logn ≤ 10)
    (henough : 2 ^ logn ≤ (goodSamples stream logn).length) :
    (List.range (2 ^ logn)).map (hashToPointCt stream logn) =
      (goodSamples stream logn).take (2 ^ logn) := by
  have hover : sampleCount logn - 2 ^ logn < 2 ^ Nat.size (overtab.getD logn 0).toNat := by
    rw [sampleCount, Nat.add_sub_cancel_left]
    exact Nat.lt_size_self _
  rw [hashToPointCt_eq hlogn, ← validEntries_eq]
  exact Compaction.compact_spec _ _ (validEntries_eq ▸ henough) hover

theorem mem_goodSamples {x : UInt16} (hx : x ∈ goodSamples stream logn) : x.toNat < 12289 := by
  obtain ⟨hmem, hgood⟩ := List.mem_filter.mp hx
  obtain ⟨u, -, rfl⟩ := List.mem_map.mp hmem
  exact lt_of_good (of_decide_eq_true hgood)

/-- With too few good samples it leaves an entry that is no residue. -/
theorem exists_not_residue (hlogn : logn ≤ 10)
    (hfew : (goodSamples stream logn).length < 2 ^ logn) :
    ∃ t < 2 ^ logn, ¬ (hashToPointCt stream logn t).toNat < 12289 := by
  rw [hashToPointCt_eq hlogn]
  obtain ⟨t, ht, hbad⟩ := Compaction.exists_not_valid Good
    (Nat.size (overtab.getD logn 0).toNat)
    (fun u => if u < sampleCount logn then samples stream u else 0)
    (validEntries_eq ▸ hfew) (Nat.le_add_right _ (overtab.getD logn 0).toNat)
  exact ⟨t, ht, fun h => hbad (Nat.lt_of_lt_of_le h (by omega))⟩

end Samples

end OnionNetwork.Falcon
