import OnionNetwork.Fec.Rebuild
import OnionNetwork.Fec.Simd

/-!
# Parity

`encode_total_iff`: `encode` rejects slices of the wrong lengths, and computes the products of
the data blocks with the parity rows of the matrix from all others, unless both slices are
empty. These have the right lengths for blocks of no bytes, and the chunks of such blocks are
a panic.

`Encoding::default` hands the parity pieces to `Fec::new` as the number of all pieces. There
are as many of them as data pieces, in each build, so the assertion `total > required` fails
and no `Encoding` is ever made (`never_reconstructs`).

`mulSliceXorSimd_eq`: xoring a multiple is the same on the vector path and in the scalar
loops. `simd_agrees_iff`: the vector path of the multiplication in place starts from the old byte
instead of 0, so it adds the old byte to the product, and agrees with the scalar loop exactly
where the whole vectors are zeros.
-/

/-! ## What `encode` computes -/

namespace OnionNetwork.Fec

open Lib Finset

/-- `encode` returns, rejects exactly the wrong lengths, and otherwise fills the parity
blocks with the products of the data blocks with the rows behind those of the data. -/
structure Encodes (f : Fec) (data buf : List Gf) : Prop where
  returns : f.encode data buf ≠ none
  rejects : (∃ e, f.encode data buf = some (.error e)) ↔
    ¬ f.required ∣ data.length ∨
      buf.length ≠ data.length / f.required * (f.total - f.required)
  combines : ∀ parity, f.encode data buf = some (.ok parity) →
    parity.length = buf.length ∧ ∀ i < f.total - f.required,
      (chunk (data.length / f.required) parity i).length = data.length / f.required ∧
      ∀ t, byte (chunk (data.length / f.required) parity i) t =
        ∑ j ∈ range f.required, f.encMatrix (f.required + i) j *
          byte (chunk (data.length / f.required) data j) t

variable {f : Fec} {data buf : List Gf}

theorem whole_iff (f : Fec) (data : List Gf) :
    data.length / f.required * f.required = data.length ↔ f.required ∣ data.length := by
  rw [Nat.dvd_iff_div_mul_eq]

/-- The lengths that are rejected. -/
theorem encode_error (h : ¬ f.required ∣ data.length ∨
    buf.length ≠ data.length / f.required * (f.total - f.required)) :
    ∃ e, f.encode data buf = some (.error e) := by
  unfold Fec.encode
  by_cases hwhole : f.required ∣ data.length
  · have hroom : data.length / f.required * (f.total - f.required) ≠ buf.length :=
      (h.resolve_left (not_not.mpr hwhole)).symm
    exact ⟨.invalidParityLength,
      by rw [if_neg (not_not.mpr ((whole_iff f data).mpr hwhole)), if_pos hroom]⟩
  · exact ⟨.invalidDataLength, if_pos fun heq => hwhole ((whole_iff f data).mp heq)⟩

/-- Without a byte there is no block. -/
theorem encode_empty (f : Fec) : f.encode [] [] = none := by
  have hsize : 0 / f.required = 0 := Nat.zero_div _
  unfold Fec.encode
  simp [hsize]

/-- Blocks of no bytes are all there is of two empty slices. -/
theorem size_ne_zero (hwhole : f.required ∣ data.length)
    (hroom : buf.length = data.length / f.required * (f.total - f.required))
    (hsome : ¬ (data = [] ∧ buf = [])) : data.length / f.required ≠ 0 := by
  intro hzero
  have hlength := (whole_iff f data).mpr hwhole
  rw [hzero, Nat.zero_mul] at hlength hroom
  exact hsome ⟨List.length_eq_zero_iff.mp hlength.symm, List.length_eq_zero_iff.mp hroom⟩

/-- Whole blocks and room for the parity blocks are accepted. -/
theorem encode_accepted (hwhole : f.required ∣ data.length)
    (hroom : buf.length = data.length / f.required * (f.total - f.required))
    (hsize : data.length / f.required ≠ 0) :
    ∃ parity, f.encode data buf = some (.ok parity) ∧
      parity.length = buf.length ∧ ∀ i < f.total - f.required,
        (chunk (data.length / f.required) parity i).length = data.length / f.required ∧
        ∀ t, byte (chunk (data.length / f.required) parity i) t =
          ∑ j ∈ range f.required, f.encMatrix (f.required + i) j *
            byte (chunk (data.length / f.required) data j) t := by
  have hlength : data.length = f.required * (data.length / f.required) := by
    rw [Nat.mul_comm]
    exact ((whole_iff f data).mpr hwhole).symm
  obtain ⟨hall, hrows⟩ := rows_combine f.encMatrix (f.total - f.required) hlength
  refine ⟨_, ?_, ?_, hrows⟩
  · unfold Fec.encode
    rw [if_neg (not_not.mpr ((whole_iff f data).mpr hwhole)), if_neg (not_not.mpr hroom.symm),
      if_neg hsize]
  · rw [hall, hroom, Nat.mul_comm]

theorem encodes_of_some (hsome : ¬ (data = [] ∧ buf = [])) : Encodes f data buf := by
  by_cases hwrong : ¬ f.required ∣ data.length ∨
      buf.length ≠ data.length / f.required * (f.total - f.required)
  · obtain ⟨e, hencode⟩ := encode_error hwrong
    constructor
    · rw [hencode]
      exact Option.some_ne_none _
    · exact iff_of_true ⟨e, hencode⟩ hwrong
    · intro parity hok
      rw [hencode] at hok
      cases hok
  · have hright := not_or.mp hwrong
    have hwhole := not_not.mp hright.1
    have hroom := not_not.mp hright.2
    obtain ⟨parity, hencode, hcombine⟩ :=
      encode_accepted hwhole hroom (size_ne_zero hwhole hroom hsome)
    constructor
    · rw [hencode]
      exact Option.some_ne_none _
    · refine iff_of_false ?_ hwrong
      rintro ⟨e, he⟩
      rw [hencode] at he
      cases he
    · intro parity' hok
      rw [hencode] at hok
      cases hok
      exact hcombine

/-- **`encode` is total and computes the code** exactly where there is a byte of data or of
parity. -/
theorem encode_total_iff (f : Fec) (data buf : List Gf) :
    Encodes f data buf ↔ ¬ (data = [] ∧ buf = []) := by
  constructor
  · rintro hencodes ⟨rfl, rfl⟩
    exact hencodes.returns (encode_empty f)
  · exact encodes_of_some

/-- No data, and no room for parity: the code of one share panics, as every other one does. -/
theorem encode_empty_panics :
    ∃ f, Fec.new 1 2 = some f ∧ f.encode [] [] = none ∧ ¬ Encodes f [] [] :=
  ⟨_, rfl, encode_empty _, fun hencodes => hencodes.returns (encode_empty _)⟩

end OnionNetwork.Fec

/-! ## Stored files are not reconstructed -/

namespace OnionNetwork.Storage

open Fec

/-- A file is encoded, and any of its pieces, as many as there are data pieces, leave the
original data behind. -/
def Reconstructs (debugAssertions : Bool) (data : Data debugAssertions) : Prop :=
  ∃ e, Encoding.default debugAssertions = some e ∧ ∀ buffer : Parity debugAssertions,
    ∃ parity, e.encode data.1 buffer.1 = some parity ∧
      ∀ chosen : List Nat, chosen.Nodup → chosen.length = dataPieces debugAssertions →
        (∀ c ∈ chosen, c < maxPieces debugAssertions) →
        ∃ out, e.reconstruct (chosen.map (shareOf pieceSize data.1 parity)) = some (.ok out) ∧
          out.map Share.data = (List.range (dataPieces debugAssertions)).map
            (chunk pieceSize data.1)

/-- There is no `Encoding`. -/
theorem default_eq_none (debugAssertions : Bool) : Encoding.default debugAssertions = none := by
  have hle : parityPieces debugAssertions ≤ dataPieces debugAssertions := Nat.le_refl _
  rw [Encoding.default, new_eq_none hle]
  rfl

/-- **No file is reconstructed**, in a build with debug assertions or one without. -/
theorem never_reconstructs (debugAssertions : Bool) (data : Data debugAssertions) :
    ¬ Reconstructs debugAssertions data := by
  rintro ⟨e, hdefault, -⟩
  rw [default_eq_none] at hdefault
  cases hdefault

/-- A file of zeros. -/
def zeros (debugAssertions : Bool) : Data debugAssertions :=
  ⟨List.replicate (dataPieces debugAssertions * pieceSize) 0, List.length_replicate⟩

/-- It is lost: making the `Encoding` panics in both builds. -/
theorem zeros_lost :
    (Encoding.default true = none ∧ Encoding.default false = none) ∧
      ¬ (Reconstructs true (zeros true) ∧ Reconstructs false (zeros false)) := by
  refine ⟨⟨default_eq_none true, default_eq_none false⟩, ?_⟩
  rintro ⟨⟨e, hdefault, -⟩, -⟩
  rw [default_eq_none] at hdefault
  cases hdefault

end OnionNetwork.Storage

/-! ## The vector path and the scalar loops -/

namespace OnionNetwork.Fec

open Lib

/-- Both operations give on the vector path what they give on the scalar one. -/
structure SimdAgrees (t : TargetFeature) (c : Gf) (input out : List Gf) : Prop where
  xor : mulSliceXorSimd t c input out = mulSliceXorLow c input out
  inPlace : mulSliceInPlaceSimd t c out = mulSliceInPlaceLow c out

variable {t : TargetFeature} {c : Gf} {input out : List Gf}

/-! ### One vector -/

theorem xor_xor_map (f g : Gf → Gf) (is os : List Gf) :
    Simd.xor (Simd.xor os (is.map f)) (is.map g) =
      List.zipWith (fun o i => o + (f i + g i)) os is := by
  induction is generalizing os with
  | nil => cases os <;> rfl
  | cons i is ih =>
      cases os with
      | nil => rfl
      | cons o os =>
          have htail := ih os
          simp only [Simd.xor] at htail
          simp only [Simd.xor, List.map_cons, List.zipWith_cons_cons, htail, add_eq_galois,
            add_assoc]

theorem swizzleDyn_map (table : List Gf) (f : Gf → Gf) (v : List Gf) :
    Simd.swizzleDyn table (v.map f) = v.map fun a => table.getD (f a).toNat 0 := by
  rw [Simd.swizzleDyn, List.map_map]
  rfl

theorem xorVector_eq (t : TargetFeature) (c : Gf) (is os : List Gf) :
    xorVector t c is os = mulSliceXor c is os := by
  simp only [xorVector, Simd.andMask, Simd.shiftRight4, List.map_map, swizzleDyn_map, xor_xor_map]
  refine congrArg (fun f => List.zipWith f os is) ?_
  funext o i
  exact congrArg (o + ·) (swizzled_eq t c i)

/-- In place the old byte is added to the product. -/
theorem inPlaceVector_eq (t : TargetFeature) (c : Gf) (os : List Gf) :
    inPlaceVector t c os = os.map fun o => o + c * o := by
  have hxor := xorVector_eq t c os os
  rw [mulSliceXor, List.zipWith_self] at hxor
  exact hxor

/-! ### Whole slices -/

/-- The chunks are the front of the slice. -/
theorem flatMap_chunk (b n : Nat) (l : List Gf) :
    (List.range n).flatMap (chunk b l) = l.take (n * b) := by
  induction n with
  | zero => rw [Nat.zero_mul, List.take_zero]; rfl
  | succ n ih =>
      rw [List.range_succ, List.flatMap_append, ih, Nat.succ_mul, List.take_add]
      simp only [List.flatMap_cons, List.flatMap_nil, List.append_nil, chunk]

theorem chunk_map (f : Gf → Gf) (b : Nat) (l : List Gf) (i : Nat) :
    chunk b (l.map f) i = (chunk b l i).map f := by
  rw [chunk, chunk, List.map_take, List.map_drop]

theorem chunk_mulSliceXor (c : Gf) (b : Nat) (input out : List Gf) (i : Nat) :
    chunk b (mulSliceXor c input out) i = mulSliceXor c (chunk b input i) (chunk b out i) := by
  rw [chunk, chunk, chunk, mulSliceXor, mulSliceXor, List.drop_zipWith, List.take_zipWith]

/-- **Xoring a multiple** is the same on both paths. -/
theorem mulSliceXorSimd_eq (t : TargetFeature) (c : Gf) (input out : List Gf) :
    mulSliceXorSimd t c input out = mulSliceXorLow c input out := by
  unfold mulSliceXorSimd
  by_cases hlen : input.length = out.length
  · have hwhole : wholeVectors t input = wholeVectors t out := by
      rw [wholeVectors, wholeVectors, hlen]
    have hrest : (input.drop (wholeVectors t out)).length =
        (out.drop (wholeVectors t out)).length := by
      rw [List.length_drop, List.length_drop, hlen]
    have hvectors : (List.range (out.length / t.lanes)).flatMap (fun i =>
        xorVector t c (chunk t.lanes input i) (chunk t.lanes out i)) =
          (mulSliceXor c input out).take (wholeVectors t out) := by
      rw [wholeVectors, ← flatMap_chunk]
      refine congrArg (fun f => List.flatMap f _) ?_
      funext i
      rw [xorVector_eq, chunk_mulSliceXor]
    rw [if_pos hlen, hwhole, mulSliceXorLow, if_pos hrest, hvectors, mulSliceXorLow, if_pos hlen]
    have hdrop : mulSliceXor c (input.drop (wholeVectors t out)) (out.drop (wholeVectors t out)) =
        (mulSliceXor c input out).drop (wholeVectors t out) := List.drop_zipWith.symm
    rw [hdrop]
    exact congrArg some (List.take_append_drop _ _)
  · rw [if_neg hlen, mulSliceXorLow, if_neg hlen]

/-- In place the whole vectors get the old byte on top. -/
theorem mulSliceInPlaceSimd_eq (t : TargetFeature) (c : Gf) (out : List Gf) :
    mulSliceInPlaceSimd t c out = (out.take (wholeVectors t out)).map (fun o => o + c * o) ++
      (out.drop (wholeVectors t out)).map fun o => c * o := by
  have hvectors : (List.range (out.length / t.lanes)).flatMap (fun i =>
      inPlaceVector t c (chunk t.lanes out i)) =
        (out.take (wholeVectors t out)).map fun o => o + c * o := by
    rw [List.map_take, wholeVectors, ← flatMap_chunk]
    refine congrArg (fun f => List.flatMap f _) ?_
    funext i
    rw [inPlaceVector_eq, chunk_map]
  rw [mulSliceInPlaceSimd, hvectors]
  rfl

theorem mulSliceInPlaceSimd_eq_iff (t : TargetFeature) (c : Gf) (out : List Gf) :
    mulSliceInPlaceSimd t c out = mulSliceInPlaceLow c out ↔
      ∀ o ∈ out.take (wholeVectors t out), o = 0 := by
  have hlow : mulSliceInPlaceLow c out = (out.take (wholeVectors t out)).map (fun o => c * o) ++
      (out.drop (wholeVectors t out)).map fun o => c * o := by
    rw [← List.map_append, List.take_append_drop]
    rfl
  rw [mulSliceInPlaceSimd_eq, hlow, List.append_left_inj, List.map_inj_left]
  refine forall₂_congr fun o _ => ?_
  exact add_eq_right

/-- **Exactly where the whole vectors are zeros** do the paths agree: of a slice that is shorter
than a vector always. -/
theorem simd_agrees_iff (t : TargetFeature) (c : Gf) (input out : List Gf) :
    SimdAgrees t c input out ↔ ∀ o ∈ out.take (out.length / t.lanes * t.lanes), o = 0 := by
  constructor
  · exact fun h => (mulSliceInPlaceSimd_eq_iff t c out).mp h.inPlace
  · exact fun h => ⟨mulSliceXorSimd_eq t c input out, (mulSliceInPlaceSimd_eq_iff t c out).mpr h⟩

/-- A vector of ones. -/
def ones : List Gf := List.replicate 16 1

/-- Times 1 they become zeros. -/
theorem ones_lost : ¬ SimdAgrees .ssse3 1 ones ones := by
  intro h
  have hzero := (mulSliceInPlaceSimd_eq_iff .ssse3 1 ones).mp h.inPlace 1 (by decide)
  exact absurd hzero (by decide)

end OnionNetwork.Fec
