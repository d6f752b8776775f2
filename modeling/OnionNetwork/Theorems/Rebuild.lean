import OnionNetwork.Fec.Rebuild

/-!
# What a rebuild restores

`rebuild` writes the blocks it restores over the parity shares they come from, while the
rows of later blocks still read these shares. On any `k` shares of a code word it therefore
succeeds, and restores the data exactly when every parity share but the one in the last
free slot holds the very bytes of the block it is replaced by (`rebuild_iff`).
-/

namespace OnionNetwork.Fec

open Lib Finset

variable {k n b : Nat} {f : Fec} {data buf parity : List Gf} {chosen : List Nat}

/-- The bytes at a place, in the slots. -/
theorem column_slots {share : Nat → Share} {t j : Nat} (hj : j < k) :
    column ((List.range k).map (slotShare k n chosen share)) t j =
      byte (share (origin k n chosen j)).data t := by
  rw [column, List.getD_eq_getElem _ _ (by simpa using hj)]
  simp only [List.getElem_map, List.getElem_range, slotShare, origin]
  split
  · rfl
  · rw [data_inSlot]

/-- The shares in their slots are ready for the loop. -/
theorem inSlots_slots (hkn : k ≤ n) (hn : n ≤ 256) (hnodup : chosen.Nodup)
    (hlen : chosen.length = k) (hlt : ∀ c ∈ chosen, c < n) {share : Nat → Share}
    (hshare : ∀ c, (share c).number = c) (hsize : ∀ c < n, (share c).data.length = b) :
    InSlots k b chosen ((List.range k).map (slotShare k n chosen share)) := by
  have hmax : 512 ≤ usizeMax := by decide
  refine ⟨by rw [List.length_map, List.length_range], ?_, ?_⟩
  · intro s hs
    obtain ⟨i, hi, rfl⟩ := List.mem_map.mp hs
    have hik := List.mem_range.mp hi
    unfold slotShare
    split
    · exact hsize i (by omega)
    · next hfree =>
        rw [data_inSlot]
        exact hsize _ (filler_mem hkn hnodup hlen hlt hik hfree).2.1
  · intro i hi
    rw [List.length_map, List.length_range] at hi
    simp only [List.getElem_map, List.getElem_range, slotShare]
    split
    · next hmem =>
        rw [hshare]
        exact ⟨fun _ => hmem, fun _ => hi⟩
    · next hfree =>
        rw [number_inSlot]
        exact ⟨fun h => by omega, fun h => absurd h hfree⟩

/-- Blocks of one size are compared byte by byte. -/
theorem blocks_eq_iff {out : List Share} (hslots : InSlots k b chosen out)
    (hchunk : ∀ i < k, (chunk b data i).length = b) :
    out.map Share.data = (List.range k).map (chunk b data) ↔
      ∀ t, ∀ i < k, column out t i = byte (chunk b data i) t := by
  have hget : ∀ i < k, ((List.range k).map (chunk b data)).getD i [] = chunk b data i := by
    intro i hi
    rw [List.getD_eq_getElem _ _ (by simpa using hi)]
    simp
  constructor
  · intro h t i hi
    rw [column, h, hget i hi]
  · intro h
    have hlength : (out.map Share.data).length = k := by rw [List.length_map, hslots.length]
    apply List.ext_getElem
    · rw [hlength, List.length_map, List.length_range]
    · intro i hi hi'
      rw [hlength] at hi
      have hdata' : (out.map Share.data).getD i [] = (out.map Share.data)[i] :=
        List.getD_eq_getElem _ _ (by omega)
      rw [← List.getD_eq_getElem _ [] hi', hget i hi, ← hdata']
      apply ext_byte
      · rw [hdata', hchunk i hi]
        obtain ⟨s, hs, heq⟩ := List.mem_map.mp (List.getElem_mem (l := out.map Share.data)
          (show i < _ by omega))
        rw [← heq]
        exact hslots.size s hs
      · exact fun t => h t i hi

/-- At one place of the blocks the loop is a pass in place whose product is the data: it is the
data again exactly if the bytes that it overwrites too early are. -/
theorem pass_iff (hnew : Fec.new k n = some f) (hnodup : chosen.Nodup) (hlen : chosen.length = k)
    (hlt : ∀ c ∈ chosen, c < n) {share : Nat → Share}
    (hself : ∀ i < k, (share i).data = chunk b data i)
    (hword : ∀ r < n, ∀ t, byte (share r).data t =
      ∑ c ∈ range k, byte (chunk b data c) t * weightAt k point c (point r)) {inv : Mat}
    (hinv : ∀ r < k, ∀ j < k, inv r j = weightAt k (target k n chosen) j (point r)) (t : Nat) :
    (∀ i < k, inPlace k inv (· ∉ chosen)
      (column ((List.range k).map (slotShare k n chosen share)) t) k i =
        byte (chunk b data i) t) ↔
      ∀ j < k, j ∉ chosen → (∃ l < k, j < l ∧ l ∉ chosen) →
        byte (share (origin k n chosen j)).data t = byte (chunk b data j) t := by
  obtain ⟨hk, hkn, hn, -, -⟩ := Fec.new_eq hnew
  have hexch := exchange_target hnew hnodup hlen hlt
  rw [inPlace_eq_iff (k := k) inv (· ∉ chosen)
    (column ((List.range k).map (slotShare k n chosen share)) t)
    (fun i => byte (chunk b data i) t)]
  · refine forall₂_congr fun j hj => ?_
    rw [column_slots hj]
  · -- the whole matrix takes the shares in the slots to the data
    intro i hi
    have hrow : ∀ j ∈ range k, inv i j * column ((List.range k).map
        (slotShare k n chosen share)) t j =
        weightAt k (target k n chosen) j (point i) * ∑ c ∈ range k,
          byte (chunk b data c) t * weightAt k point c (target k n chosen j) := by
      intro j hj
      have hjk := mem_range.mp hj
      rw [hinv i hi j hjk, column_slots hjk, hword _ (origin_lt hkn.le hnodup hlen hlt hjk) t]
      rfl
    rw [sum_congr rfl hrow, sum_weightAt_trans hexch.nodes hexch.targets, ← hself i hi]
    exact (hword i (by omega) t).symm
  · intro i hi hkeep
    rw [column_slots hi, origin, if_pos (not_not.mp hkeep), hself i hi]
  · -- the point of a free slot is none of the points in the slots
    intro i hi j hj hfree _ _
    rw [hinv i hi j hj]
    apply weightAt_ne_zero hexch.targets hj
    intro m hm h
    have hlt' := origin_lt hkn.le hnodup hlen hlt hm
    have heq := point_injective (show i < 256 by omega) (by omega) h
    by_cases hmem : m ∈ chosen
    · rw [origin, if_pos hmem] at heq
      rw [heq] at hfree
      exact hfree hmem
    · have := le_origin hkn.le hnodup hlen hlt hm hmem
      omega

/-- **The run of `rebuild`** on any `k` of the `n` shares of a code word: the inverse of the
matrix is applied in place to the shares in their slots. -/
theorem exists_rebuilt (hnew : Fec.new k n = some f) (hb : 0 < b) (hdata : data.length = k * b)
    (hbuf : buf.length = (n - k) * b) (hnodup : chosen.Nodup) (hlen : chosen.length = k)
    (hlt : ∀ c ∈ chosen, c < n) :
    ∃ parity out, ∃ inv : Mat, f.encode data buf = some (.ok parity) ∧
      f.rebuild (chosen.map (shareOf b data parity)) = some (.ok out) ∧ InSlots k b chosen out ∧
      (∀ r < n, (shareOf b data parity r).data.length = b ∧ ∀ t,
        byte (shareOf b data parity r).data t =
          ∑ c ∈ range k, byte (chunk b data c) t * weightAt k point c (point r)) ∧
      (∀ r < k, ∀ j < k, inv r j = weightAt k (target k n chosen) j (point r)) ∧
      ∀ t, column out t = inPlace k inv (· ∉ chosen)
        (column ((List.range k).map (slotShare k n chosen (shareOf b data parity))) t) k := by
  obtain ⟨hk, hkn, hn, -, -⟩ := Fec.new_eq hnew
  obtain ⟨parity, hencode, hword⟩ := byte_block hnew hb hdata hbuf
  have hsize : ∀ c < n, (shareOf b data parity c).data.length = b := fun c hc => (hword c hc).1
  have hnumber : ∀ c, (shareOf b data parity c).number = c := fun _ => rfl
  obtain ⟨inv, hinv, hrebuild⟩ := rebuild_run hnew hnumber hsize hnodup hlen hlt
  obtain ⟨hslots, hcolumn⟩ := column_run (m := inv)
    (inSlots_slots hkn.le hn hnodup hlen hlt hnumber hsize) (Nat.le_refl k)
  exact ⟨parity, _, inv, hencode, hrebuild, hslots, hword, hinv, hcolumn⟩

/-- **What `rebuild` restores**, from any `k` of the `n` shares of a code word. -/
theorem rebuild_iff (hnew : Fec.new k n = some f) (hb : 0 < b) (hdata : data.length = k * b)
    (hbuf : buf.length = (n - k) * b) (hnodup : chosen.Nodup) (hlen : chosen.length = k)
    (hlt : ∀ c ∈ chosen, c < n) :
    ∃ parity out, f.encode data buf = some (.ok parity) ∧
      f.rebuild (chosen.map (shareOf b data parity)) = some (.ok out) ∧
      (out.map Share.data = (List.range k).map (chunk b data) ↔
        ∀ slot < k, slot ∉ chosen → (∃ later < k, slot < later ∧ later ∉ chosen) →
          chunk b (data ++ parity) (filler k n chosen slot) = chunk b data slot) := by
  obtain ⟨hk, hkn, hn, -, -⟩ := Fec.new_eq hnew
  obtain ⟨parity, out, inv, hencode, hrebuild, hslots, hword, hinv, hcolumn⟩ :=
    exists_rebuilt hnew hb hdata hbuf hnodup hlen hlt
  have hsize : ∀ c < n, (shareOf b data parity c).data.length = b := fun c hc => (hword c hc).1
  have hchunk : ∀ c < k, (chunk b data c).length = b := by
    intro c hc
    apply length_chunk
    rw [hdata]
    exact Nat.mul_le_mul_right b hc
  have hself : ∀ i < k, (shareOf b data parity i).data = chunk b data i := by
    intro i hi
    apply chunk_append_left
    rw [hdata]
    exact Nat.mul_le_mul_right b hi
  refine ⟨parity, out, hencode, hrebuild, ?_⟩
  -- the bytes at one place of all blocks form a column, and the passes treat each column apart
  have hpass : ∀ t, (∀ i < k, column out t i = byte (chunk b data i) t) ↔
      ∀ j < k, j ∉ chosen → (∃ l < k, j < l ∧ l ∉ chosen) →
        byte (shareOf b data parity (origin k n chosen j)).data t = byte (chunk b data j) t := by
    intro t
    rw [hcolumn t]
    exact pass_iff hnew hnodup hlen hlt hself (fun r hr => (hword r hr).2) hinv t
  rw [blocks_eq_iff hslots hchunk]
  simp only [hpass]
  constructor
  · intro h slot hslot hfree hlater
    apply ext_byte
    · rw [hchunk slot hslot]
      exact hsize _ (filler_mem hkn.le hnodup hlen hlt hslot hfree).2.1
    · intro t
      have ht := h t slot hslot hfree hlater
      rw [origin, if_neg hfree] at ht
      exact ht
  · intro h t slot hslot hfree hlater
    rw [origin, if_neg hfree]
    exact congrArg (byte · t) (h slot hslot hfree hlater)

/-- One data share and one parity share, in any order, give back the data. -/
theorem rebuild_one_gap : ∃ f parity out, Fec.new 2 4 = some f ∧
    f.encode [1, 0] [0, 0] = some (.ok parity) ∧
    f.rebuild ([2, 1].map (shareOf 1 [1, 0] parity)) = some (.ok out) ∧
    out.map Share.data = [[1], [0]] := by
  obtain ⟨f, hnew⟩ : ∃ f, Fec.new 2 4 = some f := ⟨_, rfl⟩
  obtain ⟨parity, out, hencode, hrebuild, hiff⟩ := rebuild_iff hnew (show 0 < 1 by decide)
    (show ([1, 0] : List Gf).length = 2 * 1 from rfl)
    (show ([0, 0] : List Gf).length = (4 - 2) * 1 from rfl)
    (show [2, 1].Nodup by decide) rfl (by decide)
  refine ⟨f, parity, out, hnew, hencode, hrebuild, hiff.mpr ?_⟩
  -- only the first slot is free, so no free slot comes later
  intro slot hslot hfree hlater
  obtain ⟨later, hlater, hlt, hfree'⟩ := hlater
  obtain rfl : later = 1 := by omega
  exact absurd (by decide) hfree'

/-- The second block reads the first one, which is restored by then. -/
theorem column_two_gaps {parity : List Gf} {out : List Share} {inv : Mat}
    (hword : ∀ r < 4, ∀ t, byte (shareOf 1 [1, 0] parity r).data t =
      ∑ c ∈ range 2, byte (chunk 1 [1, 0] c) t * weightAt 2 point c (point r))
    (hinv : ∀ r < 2, ∀ j < 2, inv r j = weightAt 2 (target 2 4 [2, 3]) j (point r))
    (hcolumn : column out 0 = inPlace 2 inv (· ∉ [2, 3])
      (column ((List.range 2).map (slotShare 2 4 [2, 3] (shareOf 1 [1, 0] parity))) 0) 2) :
    column out 0 0 = 1 ∧ column out 0 1 = 1 + two := by
  have hzero : two ≠ 0 := two_ne_zero'
  have hone : two - 1 ≠ 0 := sub_ne_zero.mpr (by decide)
  -- the parity shares
  have hparity (r : Nat) (hr : r < 4) : byte (shareOf 1 [1, 0] parity r).data 0 =
      (point r - two) / (0 - two) := by
    have hfirst : byte (chunk 1 ([1, 0] : List Gf) 0) 0 = 1 := by decide
    have hsecond : byte (chunk 1 ([1, 0] : List Gf) 1) 0 = 0 := by decide
    have hpoints : point 0 = 0 ∧ point 1 = two := ⟨if_pos rfl, pow_one two⟩
    rw [hword r hr 0, sum_range_succ, sum_range_one, weightAt_pair_left, hfirst, hsecond,
      one_mul, zero_mul, add_zero, hpoints.1, hpoints.2]
  have hsrc (j : Nat) (hj : j < 2) : column ((List.range 2).map
      (slotShare 2 4 [2, 3] (shareOf 1 [1, 0] parity))) 0 j =
      (two ^ (j + 2) - two) / (0 - two) := by
    rw [column_slots hj, show origin 2 4 [2, 3] j = j + 2 by revert j; decide,
      hparity (j + 2) (by omega), point, if_neg (by omega)]
  have htarget (j : Nat) (hj : j < 2) : target 2 4 [2, 3] j = two ^ (j + 2) := by
    rw [target, show origin 2 4 [2, 3] j = j + 2 by revert j; decide, point, if_neg (by omega)]
  have hdiff : two ^ 2 - two ^ 3 ≠ 0 := by
    rw [show two ^ 2 - two ^ 3 = -(two ^ 2 * (two - 1)) by ring]
    exact neg_ne_zero.mpr (mul_ne_zero (pow_ne_zero 2 hzero) hone)
  have hdiff' : two ^ 3 - two ^ 2 ≠ 0 := by
    rw [← neg_sub]
    exact neg_ne_zero.mpr hdiff
  -- the first block: the shares have the values of the data at two new points
  have hfirst : column out 0 0 = 1 := by
    rw [hcolumn, inPlace_of_lt (show 0 < 1 by decide) (show 1 ≤ 2 by decide), inPlace, inPlace,
      inPlaceStep, if_pos (by decide), Function.update_self, sum_range_succ, sum_range_one,
      hinv 0 (by decide) 0 (by decide), hinv 0 (by decide) 1 (by decide), weightAt_pair_left,
      weightAt_pair_right, htarget 0 (by decide), htarget 1 (by decide), hsrc 0 (by decide),
      hsrc 1 (by decide), point, if_pos rfl, zero_sub]
    field_simp
    ring
  refine ⟨hfirst, ?_⟩
  -- the row of the second block finds the first block where the first share was
  have hread : ∀ j < 2, inPlace 2 inv (· ∉ [2, 3]) (column ((List.range 2).map
      (slotShare 2 4 [2, 3] (shareOf 1 [1, 0] parity))) 0) 1 j =
      if j = 0 then 1 else (two ^ 3 - two) / (0 - two) := by
    intro j hj
    rcases Nat.lt_or_ge j 1 with hlt | hge
    · rw [← inPlace_of_lt hlt (show 1 ≤ 2 by decide), ← hcolumn, Nat.lt_one_iff.mp hlt, hfirst,
        if_pos rfl]
    · rw [inPlace_of_le hge, hsrc j hj, if_neg (by omega), show j = 1 by omega]
  rw [hcolumn, inPlace, inPlaceStep, if_pos (by decide), Function.update_self, sum_range_succ,
    sum_range_one, hread 0 (by decide), hread 1 (by decide), if_pos rfl, if_neg (by decide),
    hinv 1 (by decide) 0 (by decide), hinv 1 (by decide) 1 (by decide), weightAt_pair_left,
    weightAt_pair_right, htarget 0 (by decide), htarget 1 (by decide), point, if_neg (by decide),
    pow_one, zero_sub]
  field_simp
  ring

/-- Two parity shares do not: the second block is computed from the restored first block as
if it were still the parity share. -/
theorem rebuild_two_gaps : ((Fec.new 2 4).bind fun f => (f.encode [1, 0] [0, 0]).bind fun r =>
    match r with
    | .error _ => none
    | .ok parity => (f.rebuild ([2, 3].map (shareOf 1 [1, 0] parity))).map fun r =>
        match r with
        | .error _ => []
        | .ok out => out.map Share.data) = some [[1], [Gf.ofNat 3]] ∧
    [[1], [Gf.ofNat 3]] ≠ [[1], [0]] := by
  refine ⟨?_, by decide⟩
  obtain ⟨f, hnew⟩ : ∃ f, Fec.new 2 4 = some f := ⟨_, rfl⟩
  obtain ⟨parity, out, inv, hencode, hrebuild, hslots, hword, hinv, hcolumn⟩ :=
    exists_rebuilt hnew (show 0 < 1 by decide) (show ([1, 0] : List Gf).length = 2 * 1 from rfl)
      (show ([0, 0] : List Gf).length = (4 - 2) * 1 from rfl) (show [2, 3].Nodup by decide) rfl
      (by decide)
  rw [hnew, Option.bind_some, hencode, Option.bind_some]
  dsimp only
  rw [hrebuild, Option.map_some]
  dsimp only
  obtain ⟨hfirst, hsecond⟩ := column_two_gaps (fun r hr => (hword r hr).2) hinv (hcolumn 0)
  obtain ⟨s, s', rfl⟩ := List.length_eq_two.mp hslots.length
  obtain ⟨x, hx⟩ := List.length_eq_one_iff.mp (hslots.size s (by simp))
  obtain ⟨y, hy⟩ := List.length_eq_one_iff.mp (hslots.size s' (by simp))
  have hxone : x = 1 := by
    rw [← hfirst, column, List.map_cons, hx]
    rfl
  have hythree : y = Gf.ofNat 3 := by
    rw [show Gf.ofNat 3 = 1 + two by decide, ← hsecond, column, List.map_cons, List.map_cons, hy]
    rfl
  rw [List.map_cons, List.map_cons, List.map_nil, hx, hy, hxone, hythree]

end OnionNetwork.Fec
