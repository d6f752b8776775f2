import OnionNetwork.Fec.Syndromes
import OnionNetwork.Fec.Rebuild
import OnionNetwork.Lib.Ends

/-!
# Who is reported

The encoder evaluates a polynomial with the inverse of a Vandermonde matrix, the checker
eliminates in another one, at other points. What the first computes passes the second,
whichever shares there are (`intact_shares_kept`).

The correction of one byte marks every share, not only those that it changes, so `correct`
reports all shares or none (`decode_reports`). `cheaters_identified_iff`: of few changed shares
the right ones are reported exactly when none was changed.
-/

namespace OnionNetwork.Fec

open Lib

/-! ## One code for the encoder and the checker -/

section Intact

variable {k n b : Nat} {f : Fec} {data buf parity : List Gf} {chosen : List Nat}

/-- **Intact shares pass**: every syndrome of at least two more shares than are required is
zero, and `correct` returns the shares as they are. -/
theorem intact_shares_kept (hnew : Fec.new k n = some f)
    (hencode : f.encode data buf = some (.ok parity)) (hsorted : chosen.Pairwise (· < ·))
    (hlt : ∀ c ∈ chosen, c < n) (hmany : k + 2 ≤ chosen.length)
    (debugAssertions reportInvalid : Bool) :
    let shares := chosen.map (shareOf (data.length / k) data parity)
    ∃ synd res, f.syndromeMatrix shares = some synd ∧
      Resources.new k shares = .ok (res, shares) ∧
      (∀ i < shares.length - k, syndrome synd (data.length / k) shares i =
        List.replicate (data.length / k) 0) ∧
      f.correct debugAssertions reportInvalid res shares = some (.ok shares) := by
  intro shares
  obtain ⟨hk, -, -, hreq, htotal⟩ := Fec.new_eq hnew
  obtain ⟨-, -, -, hword⟩ := word_of_encode hnew hencode
  have hsize := length_shares hword hlt
  have hincreasing : Increasing Share.number shares := increasing_shares hsorted _ _ _
  have hlength : shares.length = chosen.length := List.length_map _
  have hvalid : ∀ s ∈ shares, s.number < f.total := by
    intro s hs
    obtain ⟨c, hc, rfl⟩ := List.mem_map.mp hs
    rw [htotal]
    exact hlt c hc
  obtain ⟨synd, hsynd, hzero⟩ := syndromes_intact hnew hencode hsorted hlt (by omega)
  obtain ⟨res, hres⟩ := resources_of_sorted hk hincreasing hsize (by omega)
  refine ⟨synd, res, hsynd, hres, hzero, ?_⟩
  exact correct_of_zero debugAssertions reportInvalid res (by omega) hincreasing hsize hvalid hsynd
    (by rw [hreq]; exact hzero)

/-- One byte in three shares. -/
theorem intact_shares_kept_three : ∃ f parity, Fec.new 1 3 = some f ∧
    f.encode [Gf.ofNat 7] [0, 0] = some (.ok parity) ∧
    ∃ synd res, f.syndromeMatrix ([0, 1, 2].map (shareOf 1 [Gf.ofNat 7] parity)) = some synd ∧
      Resources.new 1 ([0, 1, 2].map (shareOf 1 [Gf.ofNat 7] parity)) =
        .ok (res, [0, 1, 2].map (shareOf 1 [Gf.ofNat 7] parity)) ∧
      (∀ i < ([0, 1, 2].map (shareOf 1 [Gf.ofNat 7] parity)).length - 1,
        syndrome synd 1 ([0, 1, 2].map (shareOf 1 [Gf.ofNat 7] parity)) i = List.replicate 1 0) ∧
      f.correct true true res ([0, 1, 2].map (shareOf 1 [Gf.ofNat 7] parity)) =
        some (.ok ([0, 1, 2].map (shareOf 1 [Gf.ofNat 7] parity))) := by
  have hdata : [Gf.ofNat 7].length = 1 * 1 := rfl
  have hbuf : ([0, 0] : List Gf).length = (3 - 1) * 1 := rfl
  have hsorted : [0, 1, 2].Pairwise (· < ·) := by decide
  have hlt : ∀ c ∈ [0, 1, 2], c < 3 := by decide
  have hmany : 1 + 2 ≤ [0, 1, 2].length := by decide
  obtain ⟨parity, hencode, -⟩ := byte_block rfl Nat.one_pos hdata hbuf
  exact ⟨_, parity, rfl, hencode, intact_shares_kept rfl hencode hsorted hlt hmany true true⟩

end Intact

/-! ## Changed shares -/

/-- The outcome names exactly the changed shares. -/
def Identifies (outcome : Call DecodeError (List Share)) (changed : List Nat) : Prop :=
  if changed = [] then ∃ shares, outcome = some (.ok shares)
  else ∃ numbers, outcome = some (.error (.correct (.invalidShares numbers))) ∧
    numbers.Perm changed

/-- A share as it is received. -/
def received (content : Nat → List Gf) (number : Nat) : Share := ⟨number, content number⟩

/-- The shares that are not those of the code word. -/
def changedShares (b : Nat) (data parity : List Gf) (chosen : List Nat)
    (content : Nat → List Gf) : List Nat :=
  chosen.filter fun c => content c ≠ chunk b (data ++ parity) c

/-- All shares are marked, or none is. -/
def AllOrNothing (numbers : List Nat) (shares : List Share) : Prop :=
  shares.map Share.number = numbers ∨ shares.map Share.number = numbers.map (usizeMax - ·)

variable {k n : Nat} {f : Fec} {data buf parity : List Gf} {chosen numbers : List Nat}
  {shares : List Share} {content : Nat → List Gf} {debugAssertions : Bool} {res : Resources}

/-! ## Marking -/

/-- The number of a share after a correction. -/
def marked (total number : Nat) : Nat :=
  if number < total then usizeMax - number else number

theorem marked_of_lt {total c : Nat} (hc : c < total) : marked total c = usizeMax - c :=
  if_pos hc

theorem marked_again {total c : Nat} (htotal : total ≤ 256) (hc : c < total) :
    marked total (usizeMax - c) = usizeMax - c := by
  have hmax : 512 ≤ usizeMax := by decide
  exact if_neg (by omega)

theorem number_correctShare {correction : Nat → Gf} {j : Nat} {s s' : Share}
    (h : f.correctShare correction j s = some s') : s'.number = marked f.total s.number := by
  have hshare : f.correctShare correction j s =
      if usizeMax - marked f.total s.number < f.total then
        some ⟨marked f.total s.number,
          s.data.set j (correction (usizeMax - marked f.total s.number))⟩
      else none := rfl
  rw [hshare] at h
  split at h
  · obtain rfl := Option.some.inj h
    rfl
  · cases h

theorem numbers_correctShares {correction : Nat → Gf} {j : Nat} {shares' : List Share}
    (h : shares.mapM (f.correctShare correction j) = some shares') :
    shares'.map Share.number = (shares.map Share.number).map (marked f.total) := by
  induction shares generalizing shares' with
  | nil =>
      obtain rfl : [] = shares' := Option.some.inj h
      rfl
  | cons s shares ih =>
      rw [List.mapM_cons] at h
      obtain ⟨s', hs, h⟩ := Option.bind_eq_some_iff.mp h
      obtain ⟨rest, hrest, h⟩ := Option.bind_eq_some_iff.mp h
      obtain rfl := Option.some.inj h
      rw [List.map_cons, List.map_cons, List.map_cons, number_correctShare hs, ih hrest]

/-- No error of the correction is a report. -/
def NoReport (e : CorrectError) : Prop := ∀ l, e ≠ .invalidShares l

/-- **One correction marks all shares.** -/
theorem correctByte_ends (htotal : f.total ≤ 256) (hnumbers : ∀ c ∈ numbers, c < f.total)
    (h : AllOrNothing numbers shares) (j : Nat) :
    Ends (f.correctByte debugAssertions res shares j) (AllOrNothing numbers) NoReport := by
  refine Ends.bind (P := fun _ => True) ?_ fun correction _ => ?_
  · refine Ends.adapt (Q := fun _ => True) ?_ fun e _ l he => by cases he
    intro r _
    cases r <;> trivial
  · refine Ends.lift fun shares' hshares' => .inr ?_
    rw [numbers_correctShares hshares']
    rcases h with huntouched | hmarked
    · rw [huntouched]
      exact List.map_congr_left fun c hc => marked_of_lt (hnumbers c hc)
    · rw [hmarked, List.map_map]
      exact List.map_congr_left fun c hc => marked_again htotal (hnumbers c hc)

theorem correctRow_ends (htotal : f.total ≤ 256) (hnumbers : ∀ c ∈ numbers, c < f.total)
    (synd : Mat) (b : Nat) (h : AllOrNothing numbers shares) (i : Nat) :
    Ends (f.correctRow debugAssertions res synd b shares i) (AllOrNothing numbers) NoReport :=
  Ends.foldlM (fun _ hs j _ => correctByte_ends htotal hnumbers hs j) h

/-! ## Reporting -/

/-- An error of `correct` that is a report names all shares. -/
def ReportsAll (numbers : List Nat) (e : CorrectError) : Prop :=
  ∀ l, e = .invalidShares l → l.Perm numbers

/-- Marked shares are all reported. -/
theorem report_marked (htotal : f.total ≤ 256) (hnumbers : ∀ c ∈ numbers, c < f.total)
    (h : shares.map Share.number = numbers.map (usizeMax - ·)) (reportInvalid : Bool) :
    Ends (f.report reportInvalid shares) (fun _ => True) (ReportsAll numbers) := by
  have hmax : 512 ≤ usizeMax := by decide
  have hlarge : ∀ s ∈ sortByKey Share.number shares, ¬ s.number < f.total := by
    intro s hs
    have hin : s.number ∈ shares.map Share.number := List.mem_map_of_mem (mem_sortByKey.mp hs)
    rw [h] at hin
    obtain ⟨c, hc, heq⟩ := List.mem_map.mp hin
    have := hnumbers c hc
    omega
  have hnone : (sortByKey Share.number shares).takeWhile
      (fun s => decide (s.number < f.total)) = [] := by
    cases hsorted : sortByKey Share.number shares with
    | nil => rfl
    | cons s rest =>
        rw [List.takeWhile_cons_of_neg]
        rw [decide_eq_true_eq]
        exact hlarge s (by rw [hsorted]; exact List.mem_cons_self)
  -- the numbers of the report, and back
  have hback : (numbers.map (usizeMax - ·)).map (usizeMax - ·) = numbers := by
    rw [List.map_map]
    refine (List.map_congr_left fun c hc => ?_).trans (List.map_id numbers)
    have := hnumbers c hc
    simp only [Function.comp_apply, id_eq]
    omega
  unfold Fec.report
  simp only [hnone, List.length_nil, List.drop_zero]
  split
  · refine Ends.throw fun l hl => ?_
    obtain rfl := CorrectError.invalidShares.inj hl
    rw [List.map_map]
    have hperm : (sortByKey Share.number shares).Perm shares := List.perm_insertionSort _ shares
    have hsame : (shares.map (Share.number ∘ fun s => { s with number := usizeMax - s.number })) =
        (shares.map Share.number).map (usizeMax - ·) := by
      rw [List.map_map]
      rfl
    have hall := hperm.map (Share.number ∘ fun s => { s with number := usizeMax - s.number })
    rwa [hsame, h, hback] at hall
  · exact Ends.pure trivial

theorem report_ends (htotal : f.total ≤ 256) (hnumbers : ∀ c ∈ numbers, c < f.total)
    (hsorted : numbers.Pairwise (· < ·)) (h : AllOrNothing numbers shares) (reportInvalid : Bool) :
    Ends (f.report reportInvalid shares) (fun _ => True) (ReportsAll numbers) := by
  rcases h with huntouched | hmarked
  · have hincreasing : Increasing Share.number shares := by
      rw [← huntouched] at hsorted
      exact List.pairwise_map.mp hsorted
    have hvalid : ∀ s ∈ shares, s.number < f.total := fun s hs =>
      hnumbers _ (huntouched ▸ List.mem_map_of_mem hs)
    rw [report_valid reportInvalid hincreasing hvalid]
    exact Ends.pure trivial
  · exact report_marked htotal hnumbers hmarked reportInvalid

theorem correct_ends (htotal : f.total ≤ 256) (hnumbers : ∀ c ∈ numbers, c < f.total)
    (hsorted : numbers.Pairwise (· < ·)) (h : shares.map Share.number = numbers)
    (reportInvalid : Bool) :
    Ends (f.correct debugAssertions reportInvalid res shares) (fun _ => True)
      (ReportsAll numbers) := by
  refine Ends.bind (P := fun _ => True) (Ends.lift fun _ _ => trivial) fun synd _ => ?_
  refine Ends.bind (P := AllOrNothing numbers) ?_ fun shares' h' => ?_
  · have hstart : AllOrNothing numbers shares := .inl h
    refine Ends.mono (Q := NoReport) ?_ (fun _ ha => ha) fun e he l hl => absurd hl (he l)
    exact Ends.foldlM (fun s hs i _ => correctRow_ends htotal hnumbers synd _ hs i) hstart
  · exact report_ends htotal hnumbers hsorted h' reportInvalid

theorem resources_shares {shares' : List Share}
    (h : Resources.new k shares = .ok (res, shares')) :
    shares' = sortByKey Share.number shares := by
  unfold Resources.new at h
  simp only at h
  split at h
  · cases h
  · split at h
    · cases h
    · split at h
      · cases h
      · split at h
        · cases h
        · cases h
          rfl

/-- **All or nothing**: an outcome of `decode` that reports shares reports all of them. -/
theorem decode_reports (hnew : Fec.new k n = some f) (hnodup : (shares.map Share.number).Nodup)
    (hlt : ∀ c ∈ shares.map Share.number, c < n) (reportInvalid : Bool) {l : List Nat}
    (h : f.decode debugAssertions reportInvalid shares =
      some (.error (.correct (.invalidShares l)))) : l.Perm (shares.map Share.number) := by
  obtain ⟨-, -, hn, -, rfl⟩ := Fec.new_eq hnew
  have hperm : ((sortByKey Share.number shares).map Share.number).Perm (shares.map Share.number) :=
    (List.perm_insertionSort _ shares).map Share.number
  have hsorted : ((sortByKey Share.number shares).map Share.number).Pairwise (· < ·) :=
    List.pairwise_map.mpr (increasing_sortByKey hnodup)
  have hends : Ends (f.decode debugAssertions reportInvalid shares) (fun _ => True)
      fun e => ∀ l, e = .correct (.invalidShares l) → l.Perm (shares.map Share.number) := by
    refine Ends.bind (P := fun r => r.2 = sortByKey Share.number shares) ?_ fun r hr => ?_
    · refine Ends.adapt (Q := fun _ => True) ?_ fun e _ l he => by cases he
      intro r hr
      obtain rfl := Option.some.inj hr
      cases hres : Resources.new f.required shares with
      | ok a => exact resources_shares hres
      | error e => trivial
    · refine Ends.bind (P := fun _ => True) ?_ fun shares' _ => ?_
      · refine Ends.adapt (correct_ends hn (fun c hc => hlt c (hperm.mem_iff.mp hc)) hsorted
          (congrArg _ hr) reportInvalid) fun e he l hl => ?_
        exact (he l (DecodeError.correct.inj hl)).trans hperm
      · refine Ends.adapt (Q := fun _ => True) ?_ fun e _ l he => by cases he
        intro r _
        cases r <;> trivial
  exact hends _ h l rfl

/-! ## Intact shares -/

/-- The resources depend on the set of the shares. -/
theorem resources_sorted (k : Nat) (shares : List Share) :
    Resources.new k shares = Resources.new k (sortByKey Share.number shares) := by
  have hagain : sortByKey Share.number (sortByKey Share.number shares) =
      sortByKey Share.number shares :=
    List.Pairwise.insertionSort_eq (List.pairwise_insertionSort (ByKey Share.number) shares)
  unfold Resources.new
  rw [hagain]

/-- A rebuild looks at the first shares only. -/
theorem rebuild_take (h : Increasing Share.number shares) (hmany : f.required ≤ shares.length) :
    f.rebuild shares = f.rebuild (shares.take f.required) := by
  have htake : Increasing Share.number (shares.take f.required) :=
    h.sublist (List.take_sublist _ _)
  have hlength : (shares.take f.required).length = f.required := List.length_take_of_le hmany
  unfold Fec.rebuild
  simp only [sortByKey_of_increasing h, sortByKey_of_increasing htake, hlength, lt_irrefl,
    if_false, List.take_take, Nat.min_self]
  rw [if_neg (not_lt.mpr hmany)]

/-- The shares of a word, in the order of their numbers. -/
theorem exists_ordered (hnodup : chosen.Nodup) (b : Nat) (data parity : List Gf) :
    ∃ ordered : List Nat, ordered.Perm chosen ∧ ordered.Pairwise (· < ·) ∧
      sortByKey Share.number (chosen.map (shareOf b data parity)) =
        ordered.map (shareOf b data parity) := by
  have hdistinct : KeysDistinct (fun c : Nat => c) chosen := by
    rw [KeysDistinct, List.map_id']
    exact hnodup
  have hmap : (chosen.insertionSort (ByKey fun c : Nat => c)).map (shareOf b data parity) =
      (chosen.map (shareOf b data parity)).insertionSort (ByKey Share.number) :=
    List.map_insertionSort _ _ _ _ fun _ _ _ _ => Iff.rfl
  exact ⟨sortByKey (fun c => c) chosen, List.perm_insertionSort _ chosen,
    increasing_sortByKey hdistinct, hmap.symm⟩

/-- Intact shares are decoded. -/
theorem decode_intact (hnew : Fec.new k n = some f)
    (hencode : f.encode data buf = some (.ok parity)) (hnodup : chosen.Nodup)
    (hlt : ∀ c ∈ chosen, c < n) (hmany : k + 2 ≤ chosen.length)
    (debugAssertions reportInvalid : Bool) :
    ∃ out, f.decode debugAssertions reportInvalid
      (chosen.map (shareOf (data.length / k) data parity)) = some (.ok out) := by
  obtain ⟨hk, -, -, hreq, htotal⟩ := Fec.new_eq hnew
  obtain ⟨-, -, -, hword⟩ := word_of_encode hnew hencode
  obtain ⟨ordered, hperm, hsorted, hshares⟩ := exists_ordered hnodup (data.length / k) data parity
  generalize hword' : shareOf (data.length / k) data parity = share at hshares
  have hlength : (ordered.map share).length = chosen.length := by
    rw [List.length_map, hperm.length_eq]
  have hbelow : ∀ c ∈ ordered, c < n := fun c hc => hlt c (hperm.mem_iff.mp hc)
  have hnumber : ∀ c, (share c).number = c := fun c => by rw [← hword']; rfl
  -- nothing is corrected
  have hincreasing : Increasing Share.number (ordered.map share) :=
    hword' ▸ increasing_shares hsorted _ data parity
  have hsize : ∀ s ∈ ordered.map share, s.data.length = data.length / k :=
    hword' ▸ length_shares hword hbelow
  have hvalid : ∀ s ∈ ordered.map share, s.number < f.total := by
    intro s hs
    obtain ⟨c, hc, rfl⟩ := List.mem_map.mp hs
    rw [hnumber, htotal]
    exact hbelow c hc
  obtain ⟨synd, hsynd, hzero⟩ := syndromes_intact hnew hencode hsorted hbelow
    (by rw [hperm.length_eq]; omega)
  rw [hword'] at hsynd hzero
  obtain ⟨res, hres⟩ := resources_of_sorted hk hincreasing hsize (by omega)
  have hcorrect := correct_of_zero debugAssertions reportInvalid res (by omega) hincreasing hsize
    hvalid hsynd (by rw [hreq]; exact hzero)
  -- and the first of the shares are enough for a rebuild
  have hfirst : f.rebuild (ordered.map share) = f.rebuild ((ordered.take k).map share) := by
    rw [rebuild_take hincreasing (by omega), hreq, List.map_take]
  obtain ⟨inv, -, hrebuild⟩ := rebuild_run hnew hnumber (b := data.length / k)
    (fun c hc => hword' ▸ (hword c hc).1)
    ((hsorted.imp fun h => h.ne).sublist (List.take_sublist k ordered))
    (List.length_take_of_le (by rw [hperm.length_eq]; omega))
    (fun c hc => hbelow c (List.mem_of_mem_take hc))
  obtain ⟨out, hout⟩ : ∃ out, f.rebuild (ordered.map share) = some (.ok out) :=
    ⟨_, hfirst.trans hrebuild⟩
  refine ⟨out, ?_⟩
  unfold Fec.decode
  rw [hreq, resources_sorted, hshares, hres]
  show (mapErr DecodeError.correct (f.correct debugAssertions reportInvalid res _) >>=
    fun shares => mapErr DecodeError.rebuild (ExceptT.mk (f.rebuild shares))) = _
  rw [hcorrect]
  show mapErr DecodeError.rebuild (ExceptT.mk (f.rebuild _)) = _
  rw [hout]
  rfl

/-! ## The claimed report -/

theorem received_intact (hchanged : changedShares n data parity chosen content = []) :
    chosen.map (received content) = chosen.map (shareOf n data parity) := by
  refine List.map_congr_left fun c hc => ?_
  have hsame := List.filter_eq_nil_iff.mp hchanged c hc
  rw [decide_eq_true_eq, not_not] at hsame
  rw [received, hsame]
  rfl

theorem numbers_received (chosen : List Nat) (content : Nat → List Gf) :
    (chosen.map (received content)).map Share.number = chosen := by
  rw [List.map_map]
  exact List.map_id' chosen

/-- Of changed shares never the right ones are reported. -/
theorem not_identifies (hnew : Fec.new k n = some f) (hnodup : chosen.Nodup)
    (hlt : ∀ c ∈ chosen, c < n) {changed : List Nat} (hsome : changed ≠ [])
    (hfew : changed.length < chosen.length) (debugAssertions reportInvalid : Bool)
    (content : Nat → List Gf) :
    ¬ Identifies (f.decode debugAssertions reportInvalid (chosen.map (received content)))
      changed := by
  intro h
  rw [Identifies, if_neg hsome] at h
  obtain ⟨l, hreport, hperm⟩ := h
  have hnumbers := numbers_received chosen content
  have hall := decode_reports hnew (hnumbers.symm ▸ hnodup) (hnumbers.symm ▸ hlt) reportInvalid
    hreport
  rw [hnumbers] at hall
  have hlength := hall.symm.length_eq.trans hperm.length_eq
  omega

/-- **Who is reported.** From at least two more shares than are required, of which at most half
of the surplus is changed, `decode` names exactly the changed ones if and only if there are
none. -/
theorem cheaters_identified_iff (hnew : Fec.new k n = some f)
    (hencode : f.encode data buf = some (.ok parity)) (hnodup : chosen.Nodup)
    (hlt : ∀ c ∈ chosen, c < n) (hmany : k + 2 ≤ chosen.length) (content : Nat → List Gf)
    (hfew : (changedShares (data.length / k) data parity chosen content).length ≤
      (chosen.length - k) / 2) (debugAssertions : Bool) :
    Identifies (f.decode debugAssertions true (chosen.map (received content)))
        (changedShares (data.length / k) data parity chosen content) ↔
      changedShares (data.length / k) data parity chosen content = [] := by
  constructor
  · intro h
    by_contra hsome
    exact not_identifies hnew hnodup hlt hsome (by omega) debugAssertions true content h
  · intro hnone
    rw [Identifies, if_pos hnone, received_intact hnone]
    exact decode_intact hnew hencode hnodup hlt hmany debugAssertions true

/-- The bytes 7 and 9. -/
def sevenNine : List Gf := [Gf.ofNat 7, Gf.ofNat 9]

/-- Four shares of one byte, as they are. -/
theorem cheaters_identified_intact : ∃ f parity, Fec.new 2 4 = some f ∧
    f.encode sevenNine [0, 0] = some (.ok parity) ∧
    (Identifies (f.decode true true ([3, 0, 1, 2].map (received (chunk 1 (sevenNine ++ parity)))))
        (changedShares 1 sevenNine parity [3, 0, 1, 2] (chunk 1 (sevenNine ++ parity))) ↔
      changedShares 1 sevenNine parity [3, 0, 1, 2] (chunk 1 (sevenNine ++ parity)) = []) := by
  have hdata : sevenNine.length = 2 * 1 := rfl
  have hbuf : ([0, 0] : List Gf).length = (4 - 2) * 1 := rfl
  have hnodup : [3, 0, 1, 2].Nodup := by decide
  have hlt : ∀ c ∈ [3, 0, 1, 2], c < 4 := by decide
  have hmany : 2 + 2 ≤ [3, 0, 1, 2].length := by decide
  obtain ⟨f, hnew⟩ : ∃ f, Fec.new 2 4 = some f := ⟨_, rfl⟩
  obtain ⟨parity, hencode, -⟩ := byte_block hnew Nat.one_pos hdata hbuf
  have hnone : changedShares 1 sevenNine parity [3, 0, 1, 2] (chunk 1 (sevenNine ++ parity)) = [] :=
    List.filter_eq_nil_iff.mpr fun c _ => by simp
  have hfew : (changedShares 1 sevenNine parity [3, 0, 1, 2]
      (chunk 1 (sevenNine ++ parity))).length ≤ ([3, 0, 1, 2].length - 2) / 2 :=
    (congrArg List.length hnone).le.trans (Nat.zero_le _)
  exact ⟨f, parity, hnew, hencode,
    cheaters_identified_iff hnew hencode hnodup hlt hmany _ hfew true⟩

/-- With the byte of the first share changed, whatever `decode` returns is not its report. -/
theorem one_changed_not_identified : ∃ f parity, Fec.new 2 4 = some f ∧
    f.encode sevenNine [0, 0] = some (.ok parity) ∧
    let content := Function.update (chunk 1 (sevenNine ++ parity)) 0 [Gf.ofNat 8]
    changedShares 1 sevenNine parity [0, 1, 2, 3] content = [0] ∧
      ¬ Identifies (f.decode true true ([0, 1, 2, 3].map (received content))) [0] := by
  have hdata : sevenNine.length = 2 * 1 := rfl
  have hbuf : ([0, 0] : List Gf).length = (4 - 2) * 1 := rfl
  have hnodup : [0, 1, 2, 3].Nodup := by decide
  have hlt : ∀ c ∈ [0, 1, 2, 3], c < 4 := by decide
  obtain ⟨f, hnew⟩ : ∃ f, Fec.new 2 4 = some f := ⟨_, rfl⟩
  obtain ⟨parity, hencode, -⟩ := byte_block hnew Nat.one_pos hdata hbuf
  refine ⟨f, parity, hnew, hencode, ?_,
    not_identifies hnew hnodup hlt (by decide) (by decide) true true _⟩
  have hfirst : chunk 1 (sevenNine ++ parity) 0 = [Gf.ofNat 7] := rfl
  have hne : Gf.ofNat 8 ≠ Gf.ofNat 7 := by decide
  simp [changedShares, Function.update, hfirst, hne]

end OnionNetwork.Fec
