import Mathlib.Data.List.TakeWhile
import OnionNetwork.Fec.Decode

/-!
# The syndromes of a code word

`correct` puts the columns of the shares there are side by side (`syndromeRow_eq`), and the
standard form of these columns says how any share follows from the first ones. The
polynomial of the encoder, with its argument doubled, is one for the points of the checker
(`weightAt_point`), so the shares of a code word follow in just that way:

* `syndrome_eq_zero`, `syndromes_intact`: every syndrome of a code word is zero;
* `correct_of_zero`: so `correct` leaves it alone.
-/

namespace OnionNetwork.Fec

open Lib Finset

/-! ## The columns of the shares there are -/

theorem presenceSet_eq (shares : List Share) (c : Nat) :
    presenceSet shares c = decide (c ∈ shares.map Share.number) := by
  induction shares using List.reverseRecOn with
  | nil => rfl
  | append_singleton shares s ih =>
      have hstep : presenceSet (shares ++ [s]) =
          Function.update (presenceSet shares) s.number true := by
        rw [presenceSet, List.foldl_append]
        rfl
      rw [hstep, List.map_append, List.map_singleton]
      by_cases hc : c = s.number
      · rw [hc, Function.update_self]
        exact (decide_eq_true (List.mem_append_right _ List.mem_cons_self)).symm
      · rw [Function.update_of_ne hc, ih]
        simp only [List.mem_append, List.mem_singleton, hc, or_false]

/-- What the loop over the columns has kept. -/
theorem syndromeRow_rounds (keepers : Nat → Bool) (row : Nat → Gf) (m : Nat) :
    let s := (List.range m).foldl (fun (s : (Nat → Gf) × Nat) col =>
      if keepers col then (Function.update s.1 (col - s.2) (row col), s.2) else (s.1, s.2 + 1))
      (fun _ => 0, 0)
    s.2 + ((List.range m).filter keepers).length = m ∧
      ∀ j < ((List.range m).filter keepers).length,
        s.1 j = row (((List.range m).filter keepers).getD j 0) := by
  induction m with
  | zero => exact ⟨rfl, fun j hj => absurd hj (Nat.not_lt_zero j)⟩
  | succ m ih =>
      obtain ⟨hskipped, hkept⟩ := ih
      rw [List.range_succ, List.foldl_append, List.filter_append]
      generalize (List.range m).foldl _ _ = s at hskipped hkept ⊢
      generalize (List.range m).filter keepers = kept at hskipped hkept ⊢
      by_cases hm : keepers m
      · have hplace : m - s.2 = kept.length := by omega
        simp only [List.foldl_cons, List.foldl_nil, hm, if_true, List.filter_cons, List.filter_nil,
          hplace, List.length_append, List.length_singleton]
        refine ⟨by omega, ?_⟩
        intro j hj
        rcases Nat.lt_or_eq_of_le (Nat.le_of_lt_succ hj) with hlt | rfl
        · rw [Function.update_of_ne hlt.ne, hkept j hlt, List.getD_append _ _ _ _ hlt]
        · rw [Function.update_self, List.getD_append_right _ _ _ _ le_rfl, Nat.sub_self,
            List.getD_cons_zero]
      · simp only [List.foldl_cons, List.foldl_nil, hm, List.filter_cons, List.filter_nil,
          List.append_nil, Bool.false_eq_true, if_false]
        exact ⟨by omega, hkept⟩

/-- A list of numbers in order is what is left of all of them. -/
theorem filter_range_of_increasing {n : Nat} {chosen : List Nat}
    (hsorted : chosen.Pairwise (· < ·)) (hlt : ∀ c ∈ chosen, c < n) :
    (List.range n).filter (· ∈ chosen) = chosen := by
  have hrange : ((List.range n).filter (· ∈ chosen)).Pairwise (· < ·) :=
    List.pairwise_lt_range.sublist List.filter_sublist
  refine List.Pairwise.eq_of_mem_iff hrange hsorted fun c => ?_
  simp only [List.mem_filter, List.mem_range, decide_eq_true_eq, and_iff_right_iff_imp]
  exact hlt c

/-- **The columns of the shares, side by side.** -/
theorem syndromeRow_eq {n : Nat} {shares : List Share} {chosen : List Nat}
    (hnumbers : shares.map Share.number = chosen) (hsorted : chosen.Pairwise (· < ·))
    (hlt : ∀ c ∈ chosen, c < n) (row : Nat → Gf) {j : Nat} (hj : j < chosen.length) :
    syndromeRow (presenceSet shares) n row j = row (chosen.getD j 0) := by
  have hkeepers : (List.range n).filter (presenceSet shares) = chosen := by
    refine (List.filter_congr fun c _ => ?_).trans (filter_range_of_increasing hsorted hlt)
    rw [presenceSet_eq, hnumbers]
  obtain ⟨-, hkept⟩ := syndromeRow_rounds (presenceSet shares) row n
  rw [hkeepers] at hkept
  exact hkept j hj

/-! ## The matrix of the syndromes -/

/-- The points of the shares, for the checker. -/
def checkPoints (chosen : List Nat) (j : Nat) : Gf := checkPoint (chosen.getD j 0)

theorem distinct_checkPoints {chosen : List Nat} (hnodup : chosen.Nodup)
    (hlt : ∀ c ∈ chosen, c < 256) {k : Nat} (hk : k ≤ chosen.length) :
    Distinct k (checkPoints chosen) := by
  rw [distinct_iff]
  intro i hi j hj h
  have hi' : i < chosen.length := hi.trans_le hk
  have hj' : j < chosen.length := hj.trans_le hk
  unfold checkPoints at h
  rw [List.getD_eq_getElem _ _ hi', List.getD_eq_getElem _ _ hj'] at h
  have hsame := checkPoint_injective (hlt _ (List.getElem_mem hi')) (hlt _ (List.getElem_mem hj')) h
  exact (hnodup.getElem_inj_iff).mp hsame

theorem distinct_allCheckPoints {k : Nat} (hk : k ≤ 256) : Distinct k checkPoint := by
  rw [distinct_iff]
  intro i hi j hj h
  exact checkPoint_injective (hi.trans_le hk) (hj.trans_le hk) h

variable {k n b : Nat} {f : Fec} {shares : List Share} {chosen : List Nat}

/-- **A row of the matrix** says how a share follows from the first ones. -/
theorem syndromeMatrix_eq (hnew : Fec.new k n = some f)
    (hnumbers : shares.map Share.number = chosen) (hsorted : chosen.Pairwise (· < ·))
    (hlt : ∀ c ∈ chosen, c < n) (hmany : k ≤ chosen.length) :
    ∃ synd, f.syndromeMatrix shares = some synd ∧ ∀ i, k + i < chosen.length → ∀ j < chosen.length,
      synd i j = if j < k then weightAt k (checkPoints chosen) j (checkPoints chosen (k + i))
        else if j = k + i then 1 else 0 := by
  obtain ⟨hk, hkn, hn, hreq, htotal⟩ := Fec.new_eq hnew
  have hnodup : chosen.Nodup := hsorted.imp fun h => h.ne
  have hall : (shares.any fun s => decide (f.total ≤ s.number)) = false := by
    rw [List.any_eq_false]
    intro s hs
    have hin : s.number < n := hlt _ (hnumbers ▸ List.mem_map_of_mem hs)
    rw [decide_eq_true_eq, htotal]
    omega
  have hcolumns : ∀ row < k, ∀ col < chosen.length,
      syndromeRow (presenceSet shares) n (vandMatrix k n row) col =
        checkPoints chosen col ^ row := by
    intro row hrow col hcol
    have hnumber : chosen.getD col 0 < n := by
      rw [List.getD_eq_getElem _ _ hcol]
      exact hlt _ (List.getElem_mem hcol)
    rw [syndromeRow_eq hnumbers hsorted hlt _ hcol, vandMatrix_eq hrow hnumber]
    rfl
  have hdistinct : Distinct k (checkPoints chosen) :=
    distinct_checkPoints hnodup (fun c hc => (hlt c hc).trans_le hn) hmany
  obtain ⟨out, hout, hentries⟩ := standardizeMatrix_eq hdistinct hmany hcolumns
  refine ⟨parityMatrix k out, ?_, ?_⟩
  · unfold Fec.syndromeMatrix
    rw [hall, if_neg Bool.false_ne_true]
    simp only [hreq, htotal, hout, Option.map_some]
  · intro i hi j hj
    have hplace : i + k = k + i := Nat.add_comm i k
    rw [parityMatrix, hplace]
    split
    · next hjk => exact hentries j hjk (k + i) hi
    · rfl

/-! ## Code words -/

/-- The shares are those of a code word: their bytes are values of one polynomial. -/
def OfWord (k : Nat) (chosen : List Nat) (shares : List Share) : Prop :=
  ∀ t, ∃ d : Nat → Gf, ∀ j < shares.length, byte ((shares.map Share.data).getD j []) t =
    ∑ c ∈ range k, d c * weightAt k checkPoint c (checkPoints chosen j)

/-- The weights of the encoder are those of the checker. -/
theorem weightAt_point (k c r : Nat) :
    weightAt k point c (point r) = weightAt k checkPoint c (checkPoint r) := by
  have hpoint : point = fun i => two * checkPoint i := funext point_eq
  rw [hpoint]
  exact weightAt_mul two_ne_zero' checkPoint c (checkPoint r)

/-- What `encode` was given and returns. -/
theorem word_of_encode {data buf parity : List Gf} (hnew : Fec.new k n = some f)
    (hencode : f.encode data buf = some (.ok parity)) :
    0 < data.length / k ∧ data.length = k * (data.length / k) ∧
      buf.length = (n - k) * (data.length / k) ∧
      ∀ r < n, (shareOf (data.length / k) data parity r).data.length = data.length / k ∧
        ∀ t, byte (shareOf (data.length / k) data parity r).data t =
          ∑ c ∈ range k, byte (chunk (data.length / k) data c) t *
            weightAt k point c (point r) := by
  obtain ⟨hk, hkn, hn, hreq, htotal⟩ := Fec.new_eq hnew
  have hcases := hencode
  unfold Fec.encode at hcases
  simp only [hreq, htotal] at hcases
  split at hcases
  · cases hcases
  · next hwhole =>
      split at hcases
      · cases hcases
      · next hroom =>
          split at hcases
          · cases hcases
          · next hsize =>
              have hpos : 0 < data.length / k := Nat.pos_of_ne_zero hsize
              have hdata : data.length = k * (data.length / k) := by
                rw [Nat.mul_comm]
                exact (not_not.mp hwhole).symm
              have hbuf : buf.length = (n - k) * (data.length / k) := by
                rw [Nat.mul_comm]
                exact (not_not.mp hroom).symm
              obtain ⟨parity', hencode', hword⟩ := byte_block hnew hpos hdata hbuf
              rw [hencode] at hencode'
              cases hencode'
              exact ⟨hpos, hdata, hbuf, hword⟩

theorem increasing_shares (hsorted : chosen.Pairwise (· < ·)) (b : Nat) (data parity : List Gf) :
    Increasing Share.number (chosen.map (shareOf b data parity)) :=
  List.pairwise_map.mpr hsorted

theorem numbers_shares (b : Nat) (data parity : List Gf) (chosen : List Nat) :
    (chosen.map (shareOf b data parity)).map Share.number = chosen := by
  rw [List.map_map]
  exact List.map_id' chosen

theorem length_shares {data parity : List Gf}
    (hword : ∀ r < n, (shareOf b data parity r).data.length = b ∧
      ∀ t, byte (shareOf b data parity r).data t =
        ∑ c ∈ range k, byte (chunk b data c) t * weightAt k point c (point r))
    (hlt : ∀ c ∈ chosen, c < n) : ∀ s ∈ chosen.map (shareOf b data parity), s.data.length = b := by
  intro s hs
  obtain ⟨c, hc, rfl⟩ := List.mem_map.mp hs
  exact (hword c (hlt c hc)).1

/-- The unmodified shares are those of the word. -/
theorem ofWord_shares {data buf parity : List Gf} (hnew : Fec.new k n = some f)
    (hencode : f.encode data buf = some (.ok parity)) (hlt : ∀ c ∈ chosen, c < n) :
    OfWord k chosen (chosen.map (shareOf (data.length / k) data parity)) := by
  obtain ⟨-, -, -, hword⟩ := word_of_encode hnew hencode
  intro t
  refine ⟨fun c => byte (chunk (data.length / k) data c) t, fun j hj => ?_⟩
  rw [List.length_map] at hj
  rw [List.getD_eq_getElem _ _ (by simpa using hj)]
  simp only [List.getElem_map]
  rw [(hword _ (hlt _ (List.getElem_mem hj))).2 t]
  apply sum_congr rfl
  intro c _
  rw [weightAt_point, checkPoints, List.getD_eq_getElem _ _ hj]

/-- **The syndromes of a code word are zero.** -/
theorem syndrome_eq_zero {synd : Mat} (hk : k ≤ 256) (hdistinct : Distinct k (checkPoints chosen))
    (hlength : shares.length = chosen.length) (hsize : ∀ s ∈ shares, s.data.length = b)
    (hword : OfWord k chosen shares) {i : Nat} (hi : k + i < chosen.length)
    (hsynd : ∀ j < chosen.length,
      synd i j = if j < k then weightAt k (checkPoints chosen) j (checkPoints chosen (k + i))
        else if j = k + i then 1 else 0) :
    syndrome synd b shares i = List.replicate b 0 := by
  have hblocks : ∀ l ∈ shares.map Share.data, l.length = b := by
    intro l hl
    obtain ⟨s, hs, rfl⟩ := List.mem_map.mp hl
    exact hsize s hs
  obtain ⟨hlen, hbyte⟩ := mulSlicesXor_eq (synd i) hblocks
  refine ext_byte (by rw [syndrome, hlen, List.length_replicate]) fun t => ?_
  obtain ⟨d, hd⟩ := hword t
  rw [syndrome, hbyte t, byte_replicate_zero, List.length_map, hlength]
  obtain ⟨m, hm⟩ := Nat.exists_eq_add_of_lt hi
  have hsplit : chosen.length = k + (i + m + 1) := by omega
  -- the first shares give the value at the point of the share, the share gives it again
  have hfirst : ∑ j ∈ range k, synd i j * byte ((shares.map Share.data).getD j []) t =
      ∑ c ∈ range k, d c * weightAt k checkPoint c (checkPoints chosen (k + i)) := by
    rw [← sum_weightAt_trans (distinct_allCheckPoints hk) hdistinct d]
    apply sum_congr rfl
    intro j hj
    have hjk := mem_range.mp hj
    rw [hsynd j (by omega), if_pos hjk, hd j (by omega)]
  have hlast : ∑ j ∈ range (i + m + 1), synd i (k + j) *
      byte ((shares.map Share.data).getD (k + j) []) t =
      ∑ c ∈ range k, d c * weightAt k checkPoint c (checkPoints chosen (k + i)) := by
    rw [sum_eq_single_of_mem i (mem_range.mpr (by omega)), hsynd (k + i) hi, if_neg (by omega),
      if_pos rfl, one_mul, hd (k + i) (by omega)]
    intro j hj hne
    have hjm := mem_range.mp hj
    rw [hsynd (k + j) (by omega), if_neg (by omega), if_neg (by omega), zero_mul]
  rw [hsplit, sum_range_add, hfirst, hlast, CharTwo.add_self_eq_zero]

/-- The unmodified shares in order have only zero syndromes. -/
theorem syndromes_intact {data buf parity : List Gf} (hnew : Fec.new k n = some f)
    (hencode : f.encode data buf = some (.ok parity)) (hsorted : chosen.Pairwise (· < ·))
    (hlt : ∀ c ∈ chosen, c < n) (hmany : k ≤ chosen.length) :
    let shares := chosen.map (shareOf (data.length / k) data parity)
    ∃ synd, f.syndromeMatrix shares = some synd ∧ ∀ i < shares.length - k,
      syndrome synd (data.length / k) shares i = List.replicate (data.length / k) 0 := by
  intro shares
  obtain ⟨hk, hkn, hn, -, -⟩ := Fec.new_eq hnew
  obtain ⟨-, -, -, hword⟩ := word_of_encode hnew hencode
  have hlength : shares.length = chosen.length := List.length_map _
  obtain ⟨synd, hsynd, hentries⟩ :=
    syndromeMatrix_eq hnew (numbers_shares _ data parity chosen) hsorted hlt hmany
  have hdistinct : Distinct k (checkPoints chosen) :=
    distinct_checkPoints (hsorted.imp fun h => h.ne) (fun c hc => (hlt c hc).trans_le hn) hmany
  refine ⟨synd, hsynd, fun i hi => ?_⟩
  have hwithin : k + i < chosen.length := by omega
  exact syndrome_eq_zero (by omega) hdistinct hlength (length_shares hword hlt)
    (ofWord_shares hnew hencode hlt) hwithin (hentries i hwithin)

/-! ## Nothing to correct -/

theorem length_head (hsome : 0 < shares.length) (hsize : ∀ s ∈ shares, s.data.length = b) :
    (shares.head?.map (·.data.length)).getD 0 = b := by
  cases shares with
  | nil => exact absurd hsome (lt_irrefl 0)
  | cons s rest => exact hsize s List.mem_cons_self

theorem correctRow_of_zero (debugAssertions : Bool) (res : Resources) {synd : Mat} {i : Nat}
    (hzero : syndrome synd b shares i = List.replicate b 0) :
    f.correctRow debugAssertions res synd b shares i = pure shares := by
  have hnone : (List.range b).filter (fun j => byte (syndrome synd b shares i) j ≠ 0) = [] := by
    rw [List.filter_eq_nil_iff]
    intro j _
    rw [hzero, byte_replicate_zero]
    simp
  unfold Fec.correctRow
  simp only [hnone]
  rfl

theorem correctRows_of_zero (debugAssertions : Bool) (res : Resources) {synd : Mat} {m : Nat}
    (hzero : ∀ i < m, syndrome synd b shares i = List.replicate b 0) :
    (List.range m).foldlM (f.correctRow debugAssertions res synd b) shares = pure shares := by
  induction m with
  | zero => rfl
  | succ m ih =>
      rw [List.range_succ, List.foldlM_append, ih fun i hi => hzero i (Nat.lt_succ_of_lt hi)]
      rw [pure_bind, List.foldlM_cons,
        correctRow_of_zero debugAssertions res (hzero m (Nat.lt_succ_self m)), pure_bind]
      rfl

/-- Sorted shares stay as they are. -/
theorem sortByKey_of_increasing (h : Increasing Share.number shares) :
    sortByKey Share.number shares = shares :=
  List.Pairwise.insertionSort_eq (h.imp fun hab => hab.le)

/-- Shares that are all valid are not reported. -/
theorem report_valid (reportInvalid : Bool) (h : Increasing Share.number shares)
    (hvalid : ∀ s ∈ shares, s.number < f.total) : f.report reportInvalid shares = pure shares := by
  have hall : shares.takeWhile (fun s => decide (s.number < f.total)) = shares := by
    rw [List.takeWhile_eq_self_iff]
    exact fun s hs => decide_eq_true (hvalid s hs)
  unfold Fec.report
  rw [sortByKey_of_increasing h]
  simp only [hall, List.drop_length, List.map_nil, List.append_nil, ne_eq, not_true_eq_false,
    decide_false, Bool.and_false, Bool.false_eq_true, if_false]

/-- `Resources::new` on shares in order. -/
theorem resources_of_sorted (hk : 0 < k)
    (hsorted : Increasing Share.number shares) (hsize : ∀ s ∈ shares, s.data.length = b)
    (hmany : k + 2 ≤ shares.length) : ∃ res, Resources.new k shares = .ok (res, shares) := by
  have hdistinct : ((shares.zip shares.tail).any fun pair =>
      decide (pair.1.number = pair.2.number)) = false := by
    have hpairs : ∀ l : List Share, Increasing Share.number l →
        ∀ pair ∈ l.zip l.tail, pair.1.number ≠ pair.2.number := by
      intro l hl
      induction l with
      | nil => exact fun pair hpair => absurd hpair List.not_mem_nil
      | cons s l ih =>
          obtain ⟨hs, hl⟩ := List.pairwise_cons.mp hl
          cases l with
          | nil => exact fun pair hpair => absurd hpair List.not_mem_nil
          | cons s' l =>
              intro pair hpair
              rcases List.mem_cons.mp hpair with rfl | hpair
              · exact (hs s' List.mem_cons_self).ne
              · exact ih hl pair hpair
    rw [List.any_eq_false]
    intro pair hpair
    rw [decide_eq_true_eq]
    exact hpairs shares hsorted pair hpair
  have hhead := length_head (by omega) hsize
  have hequal : (shares.any fun s => decide (s.data.length ≠ b)) = false := by
    rw [List.any_eq_false]
    intro s hs
    simp [hsize s hs]
  have he : (shares.length - k) / 2 ≠ 0 := by omega
  refine ⟨⟨(shares.length - k) / 2, (shares.length - k) / 2 + k⟩, ?_⟩
  unfold Resources.new
  simp only [sortByKey_of_increasing hsorted, hdistinct, hhead, hequal, Bool.false_eq_true,
    if_false, if_neg he]
  rw [if_neg (by omega)]

/-- Shares whose syndromes are zero are left alone. -/
theorem correct_of_zero (debugAssertions reportInvalid : Bool) (res : Resources) {synd : Mat}
    (hsome : 0 < shares.length) (hincreasing : Increasing Share.number shares)
    (hsize : ∀ s ∈ shares, s.data.length = b) (hvalid : ∀ s ∈ shares, s.number < f.total)
    (hsynd : f.syndromeMatrix shares = some synd)
    (hzero : ∀ i < shares.length - f.required, syndrome synd b shares i = List.replicate b 0) :
    f.correct debugAssertions reportInvalid res shares = some (.ok shares) := by
  have hrows := correctRows_of_zero (f := f) debugAssertions res hzero
  unfold Fec.correct
  rw [hsynd, length_head hsome hsize]
  show ((List.range (shares.length - f.required)).foldlM _ shares >>= fun shares =>
    f.report reportInvalid shares) = _
  rw [hrows, pure_bind, report_valid reportInvalid hincreasing hvalid]
  rfl

end OnionNetwork.Fec
