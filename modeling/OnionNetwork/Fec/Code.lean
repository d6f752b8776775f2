import Mathlib.Data.List.GetD
import OnionNetwork.Fec.Matrix
import OnionNetwork.Lib.InPlace
import OnionNetwork.Lib.Search

/-!
# The erasure code

`Fec`: the code itself, `encode` and `rebuild`. A slice is a list of bytes, the mutable
shares are a list that is passed on. The outer `Option` is a panic.

The bytes at one place of all blocks are the values of one polynomial at the points of the
blocks (`encMatrix_eq`, `byte_block`).
-/

namespace OnionNetwork.Fec

-- the code is named as the crate's module is
set_option linter.dupNamespace false

open Lib Finset

/-- `usize::MAX`. -/
def usizeMax : Nat := 2 ^ 64 - 1

structure Share where
  number : Nat
  data : List Gf
deriving DecidableEq

/-- The code, with the matrix that takes the data to all blocks. The second matrix of the
source is only for `decode`. -/
structure Fec where
  required : Nat
  total : Nat
  encMatrix : Mat

/-- The buffer `inverted_vdm` of `new`: below the square its rows hold powers. -/
def invertedVdm (required : Nat) : Mat := fun row col =>
  if row < required then createInvertedVdm required row col
  else .ofNat (expTable (row * col % 255))

/-- `Fec::new`. -/
def Fec.new (required total : Nat) : Option Fec :=
  if 0 < required ∧ required < total ∧ required ≤ 256 ∧ total ≤ 256 then
    some
      { required
        total
        encMatrix := fun row col =>
          if row < required then if row = col then 1 else 0
          else (List.range required).foldl (fun acc i =>
            Galois.add acc
              (Galois.mul (invertedVdm required row i) (invertedVdm required i col))) 0 }
  else none

/-! ## Encoding -/

inductive EncodeError
  | invalidParityLength
  | invalidDataLength
deriving DecidableEq

/-- `mul_slice_xor`, on slices of one length. -/
def mulSliceXor (c : Gf) (input out : List Gf) : List Gf :=
  List.zipWith (fun o i => Galois.add o (Galois.mul c i)) out input

/-- `mul_slice_xor` for each block with its coefficient in the row. -/
def mulSlicesXor (row : Nat → Gf) (blocks : List (List Gf)) (out : List Gf) : List Gf :=
  blocks.zipIdx.foldl (fun out block => mulSliceXor (row block.2) block.1 out) out

/-- The chunk with the index `i` of `chunks_exact`. -/
def chunk (blockSize : Nat) (l : List Gf) (i : Nat) : List Gf :=
  (l.drop (i * blockSize)).take blockSize

/-- `Fec::encode`; the chunks of an empty block are a panic. -/
def Fec.encode (f : Fec) (data parity : List Gf) : Option (Except EncodeError (List Gf)) :=
  let blockSize := data.length / f.required
  if blockSize * f.required ≠ data.length then some (.error .invalidDataLength)
  else if blockSize * (f.total - f.required) ≠ parity.length then
    some (.error .invalidParityLength)
  else if blockSize = 0 then none
  else
    let blocks := (List.range f.required).map (chunk blockSize data)
    some (.ok ((List.range (f.total - f.required)).flatMap fun i =>
      mulSlicesXor (f.encMatrix (i + f.required)) blocks (List.replicate blockSize 0)))

/-! ## Rebuilding -/

inductive RebuildError
  | notEnoughShares
  | notEqualLengths
  | invertMatrix
deriving DecidableEq

/-- The slots without a data share, in the order in which `rebuild` runs through them:
between the data shares, behind the last one and before the first one. -/
def gaps (required : Nat) (data : List Nat) : List Nat :=
  let firstId := data.head?.getD 0
  let lastId := (data.getLast?.map (· + 1)).getD 0
  (data.zip data.tail).flatMap (fun pair => List.range' (pair.1 + 1) (pair.2 - (pair.1 + 1))) ++
    List.range' lastId (required - lastId) ++ List.range firstId

/-- The number that says which slot a parity share has. -/
def Share.inSlot (s : Share) (i : Nat) : Share := { s with number := usizeMax - i }

@[simp] theorem number_inSlot (s : Share) (i : Nat) : (s.inSlot i).number = usizeMax - i := rfl

@[simp] theorem data_inSlot (s : Share) (i : Nat) : (s.inSlot i).data = s.data := rfl

/-- The loop that gives each gap a parity share: the row of the share goes to the gap, and
its number now says which one. -/
def fillGaps (f : Fec) : List Nat → List Share → Mat → Option (Mat × List Share)
  | i :: gaps, p :: parity, mDec =>
      if p.number < f.total then do
        let (mDec, parity) ← fillGaps f gaps parity (Function.update mDec i (f.encMatrix p.number))
        some (mDec, p.inSlot i :: parity)
      else none
  | _, parity, mDec => some (mDec, parity)

/-- The key of the second sort. -/
def slotKey (required : Nat) (s : Share) : Nat :=
  if s.number > required then usizeMax - s.number else s.number

/-- One round of the last loop: a share that is no data share is overwritten. -/
def rebuildShare (required blockSize : Nat) (mDec : Mat) (shares : List Share) (i : Nat) :
    List Share :=
  match shares[i]? with
  | none => shares
  | some s =>
      if s.number < required then shares
      else
        let buf := mulSlicesXor (mDec i) (shares.map Share.data) (List.replicate blockSize 0)
        shares.set i { s with data := buf }

/-- `Fec::rebuild`. -/
def Fec.rebuild (f : Fec) (shares : List Share) : Option (Except RebuildError (List Share)) :=
  let shares := sortByKey Share.number shares
  if shares.length < f.required then some (.error .notEnoughShares)
  else
    let shares := shares.take f.required
    let blockSize := (shares.head?.map (·.data.length)).getD 0
    if shares.any fun s => s.data.length ≠ blockSize then some (.error .notEqualLengths)
    else do
      let data := shares.takeWhile (·.number < f.required)
      let parity := shares.drop data.length
      let (mDec, parity) ← fillGaps f (gaps f.required (data.map Share.number)) parity
        fun i j => if i = j then 1 else 0
      let shares := sortByKey (slotKey f.required) (data ++ parity)
      match invertMatrix f.required mDec with
      | none => some (.error .invertMatrix)
      | some mDec =>
          some (.ok ((List.range f.required).foldl (rebuildShare f.required blockSize mDec) shares))

/-! ## The bytes of the blocks -/

/-- The byte at a place of a block. -/
def byte (l : List Gf) (t : Nat) : Gf := l.getD t 0

theorem ext_byte {l m : List Gf} (hlen : l.length = m.length) (h : ∀ t, byte l t = byte m t) :
    l = m := by
  apply List.ext_getElem hlen
  intro t hl hm
  have ht := h t
  rwa [byte, byte, List.getD_eq_getElem _ _ hl, List.getD_eq_getElem _ _ hm] at ht

theorem byte_replicate_zero (b t : Nat) : byte (List.replicate b 0) t = 0 := by
  unfold byte
  rw [List.getD_eq_getElem?_getD, List.getElem?_replicate]
  split <;> rfl

@[simp] theorem length_mulSliceXor {c : Gf} {input out : List Gf}
    (h : input.length = out.length) : (mulSliceXor c input out).length = out.length := by
  rw [mulSliceXor, List.length_zipWith, h, Nat.min_self]

theorem byte_mulSliceXor {c : Gf} {input out : List Gf} (h : input.length = out.length) (t : Nat) :
    byte (mulSliceXor c input out) t = byte out t + c * byte input t := by
  unfold byte
  by_cases ht : t < out.length
  · have hlen := length_mulSliceXor (c := c) h
    rw [List.getD_eq_getElem _ _ (by omega), List.getD_eq_getElem _ _ ht,
      List.getD_eq_getElem _ _ (by omega)]
    simp only [mulSliceXor, List.getElem_zipWith, add_eq_galois, mul_eq_galois]
  · rw [List.getD_eq_default _ _ (by rw [length_mulSliceXor h]; omega),
      List.getD_eq_default _ _ (by omega), List.getD_eq_default _ _ (by omega), mul_zero, add_zero]

theorem mulSlicesXor_from {b : Nat} (row : Nat → Gf) {blocks : List (List Gf)}
    (hblocks : ∀ l ∈ blocks, l.length = b) :
    ∀ (m : Nat) (out : List Gf), out.length = b →
      let res := (blocks.zipIdx m).foldl
        (fun out block => mulSliceXor (row block.2) block.1 out) out
      res.length = b ∧ ∀ t, byte res t =
        byte out t + ∑ j ∈ range blocks.length, row (m + j) * byte (blocks.getD j []) t := by
  induction blocks with
  | nil =>
      intro m out hout
      refine ⟨hout, fun t => ?_⟩
      rw [List.length_nil, range_zero, sum_empty, add_zero]
      rfl
  | cons block blocks ih =>
      intro m out hout
      have hblock : block.length = out.length := by
        rw [hout]
        exact hblocks block List.mem_cons_self
      obtain ⟨hlen, hbyte⟩ := ih (fun l hl => hblocks l (List.mem_cons_of_mem _ hl)) (m + 1)
        (mulSliceXor (row m) block out) (by rw [length_mulSliceXor hblock, hout])
      refine ⟨hlen, fun t => ?_⟩
      rw [List.zipIdx_cons, List.foldl_cons, hbyte t, byte_mulSliceXor hblock, List.length_cons,
        sum_range_succ', Nat.add_zero, List.getD_cons_zero, add_assoc,
        add_comm (row m * byte block t)]
      congr 2
      apply sum_congr rfl
      intro j _
      rw [List.getD_cons_succ, Nat.add_assoc, Nat.add_comm 1 j]

/-- What the coefficients of a row make of the blocks. -/
theorem mulSlicesXor_eq {b : Nat} (row : Nat → Gf) {blocks : List (List Gf)}
    (hblocks : ∀ l ∈ blocks, l.length = b) :
    (mulSlicesXor row blocks (List.replicate b 0)).length = b ∧
      ∀ t, byte (mulSlicesXor row blocks (List.replicate b 0)) t =
        ∑ j ∈ range blocks.length, row j * byte (blocks.getD j []) t := by
  obtain ⟨hlen, hbyte⟩ := mulSlicesXor_from row hblocks 0 (List.replicate b 0)
    List.length_replicate
  refine ⟨hlen, fun t => ?_⟩
  have ht := hbyte t
  simp only [Nat.zero_add] at ht
  rw [byte_replicate_zero, zero_add] at ht
  exact ht

/-! ### Chunks -/

theorem length_chunk {b i : Nat} {l : List Gf} (h : (i + 1) * b ≤ l.length) :
    (chunk b l i).length = b := by
  rw [Nat.succ_mul] at h
  rw [chunk, List.length_take, List.length_drop]
  omega

theorem chunk_append_left {b i : Nat} {l m : List Gf} (h : (i + 1) * b ≤ l.length) :
    chunk b (l ++ m) i = chunk b l i := by
  rw [Nat.succ_mul] at h
  rw [chunk, chunk, List.drop_append_of_le_length (by omega),
    List.take_append_of_le_length (by rw [List.length_drop]; omega)]

theorem chunk_append_right {b i k : Nat} {l m : List Gf} (h : l.length = k * b) :
    chunk b (l ++ m) (k + i) = chunk b m i := by
  rw [chunk, chunk, Nat.add_mul, ← h, List.drop_length_add_append]

theorem chunk_flatten {b : Nat} {blocks : List (List Gf)} (hblocks : ∀ l ∈ blocks, l.length = b)
    {i : Nat} (hi : i < blocks.length) : chunk b blocks.flatten i = blocks[i] := by
  induction blocks generalizing i with
  | nil => exact absurd hi (Nat.not_lt_zero i)
  | cons block blocks ih =>
      have hlen := hblocks block List.mem_cons_self
      cases i with
      | zero =>
          rw [chunk, Nat.zero_mul, List.drop_zero, List.flatten_cons, ← hlen, List.take_left]
          rfl
      | succ i =>
          have hone : block.length = 1 * b := by rw [hlen, Nat.one_mul]
          rw [List.getElem_cons_succ, List.flatten_cons, Nat.add_comm i 1, chunk_append_right hone]
          exact ih (fun l hl => hblocks l (List.mem_cons_of_mem _ hl)) (Nat.lt_of_succ_lt_succ hi)

/-! ### The encoded blocks -/

theorem Fec.new_eq {k n : Nat} {f : Fec} (h : Fec.new k n = some f) :
    0 < k ∧ k < n ∧ n ≤ 256 ∧ f.required = k ∧ f.total = n := by
  unfold Fec.new at h
  split at h
  · next hcond =>
      obtain rfl := Option.some.inj h
      exact ⟨hcond.1, hcond.2.1, hcond.2.2.2, rfl, rfl⟩
  · cases h

theorem foldl_add_range (g : Nat → Gf) (m : Nat) :
    (List.range m).foldl (fun acc i => Galois.add acc (g i)) 0 = ∑ i ∈ range m, g i := by
  induction m with
  | zero => rfl
  | succ m ih => rw [List.range_succ, List.foldl_append, ih, sum_range_succ]; rfl

/-- A row below the square: the powers of the point. -/
theorem invertedVdm_of_le {k row : Nat} (hk : 0 < k) (hle : k ≤ row) (i : Nat) :
    invertedVdm k row i = point row ^ i := by
  have hmod : row * i % 255 < 255 := Nat.mod_lt _ (by omega)
  rw [invertedVdm, if_neg (by omega), expTable_pow (by omega), point, if_neg (by omega), ← pow_mul]
  exact (pow_eq_pow_mod _ two_pow_period).symm

/-- **Every block is the value at its point of the polynomial through the data.** -/
theorem encMatrix_eq {k n : Nat} {f : Fec} (h : Fec.new k n = some f) {row col : Nat}
    (hrow : row < n) (hcol : col < k) :
    f.encMatrix row col = weightAt k point col (point row) := by
  obtain ⟨hk, hkn, hn, -, -⟩ := Fec.new_eq h
  have hdist : Distinct k point := distinct_point (by omega)
  unfold Fec.new at h
  rw [if_pos ⟨hk, hkn, by omega, hn⟩] at h
  obtain rfl := Option.some.inj h
  simp only
  split
  · next hdata =>
      split
      · next heq => rw [heq, weightAt_self hdist hcol]
      · next hne => rw [weightAt_of_ne hdata (fun heq => hne heq.symm)]
  · next hparity =>
      rw [foldl_add_range, weightAt, Polynomial.eval_eq_sum_range' (natDegree_basis_lt hdist hcol)]
      apply sum_congr rfl
      intro i hi
      have hik := mem_range.mp hi
      rw [mul_eq_galois, invertedVdm_of_le hk (by omega), invertedVdm, if_pos hik,
        createInvertedVdm_eq (by omega) hik hcol, mul_comm]

section Encoded

variable {k n b : Nat} {f : Fec} {data buf : List Gf}

/-- The shares of a code word hold its blocks. -/
def shareOf (b : Nat) (data parity : List Gf) (number : Nat) : Share :=
  ⟨number, chunk b (data ++ parity) number⟩

/-- `encode` accepts whole blocks and a buffer for as many parity blocks as there are. -/
theorem encode_ok (hnew : Fec.new k n = some f) (hb : 0 < b) (hdata : data.length = k * b)
    (hbuf : buf.length = (n - k) * b) :
    f.encode data buf = some (.ok ((List.range (n - k)).flatMap fun i =>
      mulSlicesXor (f.encMatrix (i + k)) ((List.range k).map (chunk b data))
        (List.replicate b 0))) := by
  obtain ⟨hk, -, -, hreq, htotal⟩ := Fec.new_eq hnew
  have hsize : data.length / k = b := by
    rw [hdata]
    exact Nat.mul_div_cancel_left b hk
  have hwhole : b * k = data.length := by rw [hdata, Nat.mul_comm]
  have hroom : b * (n - k) = buf.length := by rw [hbuf, Nat.mul_comm]
  unfold Fec.encode
  simp only [hreq, htotal, hsize]
  rw [if_neg (not_not.mpr hwhole), if_neg (not_not.mpr hroom), if_neg (by omega)]

/-- What the rows of a matrix make of the data blocks, one behind the other. -/
theorem rows_combine (mx : Mat) (m : Nat) (hdata : data.length = k * b) :
    let parity := (List.range m).flatMap fun i =>
      mulSlicesXor (mx (i + k)) ((List.range k).map (chunk b data)) (List.replicate b 0)
    parity.length = m * b ∧ ∀ i < m, (chunk b parity i).length = b ∧ ∀ t,
      byte (chunk b parity i) t = ∑ j ∈ range k, mx (k + i) j * byte (chunk b data j) t := by
  intro parity
  have hblocks : ∀ l ∈ (List.range k).map (chunk b data), l.length = b := by
    intro l hl
    obtain ⟨c, hc, rfl⟩ := List.mem_map.mp hl
    apply length_chunk
    rw [hdata]
    exact Nat.mul_le_mul_right b (List.mem_range.mp hc)
  have hrows : ∀ l ∈ (List.range m).map fun i =>
      mulSlicesXor (mx (i + k)) ((List.range k).map (chunk b data)) (List.replicate b 0),
      l.length = b := by
    intro l hl
    obtain ⟨i, -, rfl⟩ := List.mem_map.mp hl
    exact (mulSlicesXor_eq _ hblocks).1
  refine ⟨?_, ?_⟩
  · have hsizes : ∀ n ∈ ((List.range m).map fun i => mulSlicesXor (mx (i + k))
        ((List.range k).map (chunk b data)) (List.replicate b 0)).map List.length, n = b := by
      intro n hn
      obtain ⟨l, hl, rfl⟩ := List.mem_map.mp hn
      exact hrows l hl
    show (List.flatMap _ _).length = _
    rw [List.flatMap_def, List.length_flatten, List.eq_replicate_of_mem hsizes,
      List.sum_replicate, List.length_map, List.length_map, List.length_range, smul_eq_mul]
  · intro i hi
    -- all rows are of one length, so the block `i` of the parity is the row `i`
    have hblock : chunk b parity i = mulSlicesXor (mx (i + k)) ((List.range k).map (chunk b data))
        (List.replicate b 0) := by
      show chunk b (List.flatMap _ _) i = _
      rw [List.flatMap_def, chunk_flatten hrows (by simpa using hi)]
      simp only [List.getElem_map, List.getElem_range]
    obtain ⟨hsize, hbyte⟩ := mulSlicesXor_eq (mx (i + k)) hblocks
    rw [hblock]
    refine ⟨hsize, fun t => ?_⟩
    rw [hbyte t, List.length_map, List.length_range, Nat.add_comm i]
    apply sum_congr rfl
    intro j hj
    rw [List.getD_eq_getElem _ _ (by simpa using hj)]
    simp only [List.getElem_map, List.getElem_range]

/-- The blocks of a code word, byte by byte. -/
theorem byte_block (hnew : Fec.new k n = some f) (hb : 0 < b) (hdata : data.length = k * b)
    (hbuf : buf.length = (n - k) * b) :
    ∃ parity, f.encode data buf = some (.ok parity) ∧
      ∀ r < n, (shareOf b data parity r).data.length = b ∧ ∀ t,
        byte (shareOf b data parity r).data t =
          ∑ c ∈ range k, byte (chunk b data c) t * weightAt k point c (point r) := by
  obtain ⟨hk, hkn, hn, hreq, htotal⟩ := Fec.new_eq hnew
  refine ⟨_, encode_ok hnew hb hdata hbuf, ?_⟩
  obtain ⟨-, hrows⟩ := rows_combine f.encMatrix (n - k) hdata
  intro r hr
  rcases Nat.lt_or_ge r k with hdatum | hparity
  · -- a data block is itself
    have hwithin : (r + 1) * b ≤ data.length := by
      rw [hdata]
      exact Nat.mul_le_mul_right b hdatum
    rw [shareOf, chunk_append_left hwithin]
    refine ⟨length_chunk hwithin, fun t => ?_⟩
    have hdist : Distinct k point := distinct_point (by omega)
    rw [sum_eq_single_of_mem r (mem_range.mpr hdatum), weightAt_self hdist hdatum, mul_one]
    intro c _ hne
    rw [weightAt_of_ne hdatum hne, mul_zero]
  · obtain ⟨i, rfl⟩ := Nat.exists_eq_add_of_le hparity
    obtain ⟨hsize, hbyte⟩ := hrows i (by omega)
    rw [shareOf, chunk_append_right hdata]
    refine ⟨hsize, fun t => ?_⟩
    rw [hbyte t]
    apply sum_congr rfl
    intro c hc
    rw [encMatrix_eq hnew (by omega) (mem_range.mp hc), mul_comm]

end Encoded

end OnionNetwork.Fec
