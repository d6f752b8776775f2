import OnionNetwork.Lib.InPlace
import Mathlib.Logic.Equiv.Basic
import Mathlib.Data.Nat.Bitwise
import Mathlib.Data.Fintype.Card
import Mathlib.Tactic.Ring

/-!
# Compaction by powers of two

An array some of whose entries are valid, and passes over it: pass `k` moves each valid entry
`2 ^ k` places down if that bit is set in how far it has to go. What is in its way is never
valid, since entries keep their order.

* `pass_placed` — one pass clears one bit of all distances;
* `compact_spec` — after the passes the valid entries are in front, as far as their distances
  have bits;
* `exists_not_valid` — where there are too few of them, something in front is not valid.
-/

namespace OnionNetwork.Lib.Compaction

/-- Two entries in each other's place. -/
def exchange {α : Type*} (a : Nat → α) (i j : Nat) : Nat → α := fun t => a (Equiv.swap i j t)

section Passes

variable {α : Type*} (valid : α → Prop) [DecidablePred valid]

/-- The entry at `u`, with the number of valid ones in front of it. -/
def step (k : Nat) (s : (Nat → α) × Nat) (u : Nat) : (Nat → α) × Nat :=
  if valid (s.1 u) then
    (if (u - s.2).testBit k then exchange s.1 u (u - 2 ^ k) else s.1, s.2 + 1)
  else s

/-- All entries. -/
def pass (m k : Nat) (a : Nat → α) : Nat → α := (forRange 0 m (step valid k) (a, 0)).1

/-- The passes for the bits below `K`. -/
def compact (m K : Nat) (a : Nat → α) : Nat → α := forRange 0 K (fun a k => pass valid m k a) a

end Passes

section Places

variable {α : Type*} {valid : α → Prop} {m r k u : Nat} {q q' : Nat → Nat} {y : Nat → α}
  {a : Nat → α}

/-- Increasing places of `r` entries in an array of `m`. -/
structure Places (m r : Nat) (q : Nat → Nat) : Prop where
  lt : ∀ i < r, q i < m
  mono : ∀ i j, i < j → j < r → q i < q j

/-- The valid entries of an array are those at the places. -/
structure Placed (valid : α → Prop) (m r : Nat) (q : Nat → Nat) (y : Nat → α) (a : Nat → α) :
    Prop where
  places : Places m r q
  entry : ∀ i < r, a (q i) = y i
  entry_valid : ∀ i < r, valid (y i)
  rest : ∀ t < m, (∀ i < r, q i ≠ t) → ¬ valid (a t)

theorem Places.le (hq : Places m r q) {i : Nat} (hi : i < r) : i ≤ q i := by
  induction i with
  | zero => exact Nat.zero_le _
  | succ i ih => exact (ih (by omega)).trans_lt (hq.mono i (i + 1) (Nat.lt_succ_self i) hi)

/-- Later entries have at least as far to go. -/
theorem Places.distance_mono (hq : Places m r q) {i j : Nat} (hij : i ≤ j) (hj : j < r) :
    q i - i ≤ q j - j := by
  induction j, hij using Nat.le_induction with
  | base => exact Nat.le_refl _
  | succ j hij ih =>
      have := hq.mono j (j + 1) (Nat.lt_succ_self j) hj
      have := ih (by omega)
      omega

theorem Places.injective (hq : Places m r q) {i j : Nat} (hi : i < r) (hj : j < r)
    (h : q i = q j) : i = j := by
  rcases Nat.lt_trichotomy i j with hlt | heq | hgt
  · have := hq.mono i j hlt hj
    omega
  · exact heq
  · have := hq.mono j i hgt hi
    omega

theorem Placed.congr (ha : Placed valid m r q y a) (h : ∀ i < r, q' i = q i) :
    Placed valid m r q' y a where
  places := {
    lt := fun i hi => h i hi ▸ ha.places.lt i hi
    mono := fun i j hij hj => by
      rw [h i (hij.trans hj), h j hj]
      exact ha.places.mono i j hij hj }
  entry i hi := by
    rw [h i hi]
    exact ha.entry i hi
  entry_valid := ha.entry_valid
  rest t ht hfree := ha.rest t ht fun i hi => h i hi ▸ hfree i hi

/-- The places when the distances have lost a bit. -/
def moved (k : Nat) (q : Nat → Nat) (i : Nat) : Nat :=
  if (q i - i).testBit k then q i - 2 ^ k else q i

/-- How far is left, if it was a multiple of `2 ^ k`. -/
theorem moved_distance (hq : Places m r q) {i : Nat} (hi : i < r) (hk : 2 ^ k ∣ q i - i) :
    moved k q i = i + (q i - i) / 2 ^ (k + 1) * 2 ^ (k + 1) := by
  have hle := hq.le hi
  obtain ⟨c, hc⟩ := hk
  have hq' : q i = i + 2 ^ k * c := by omega
  have hbit : (2 ^ k * c).testBit k = decide (c % 2 = 1) := by
    rw [Nat.testBit_two_pow_mul, decide_eq_true (Nat.le_refl k), Bool.true_and, Nat.sub_self,
      Nat.testBit_zero]
  have hdiv : 2 ^ k * c / 2 ^ (k + 1) = c / 2 := by
    rw [Nat.pow_succ, Nat.mul_div_mul_left _ _ (Nat.two_pow_pos k)]
  have hhalves := Nat.div_add_mod c 2
  have hsplit : 2 ^ k * c = c / 2 * (2 ^ k * 2) + 2 ^ k * (c % 2) := by
    conv_lhs => rw [← hhalves]
    ring
  rw [moved, hc, hbit, hdiv, hq', Nat.pow_succ, hsplit]
  rcases Nat.mod_two_eq_zero_or_one c with h | h
  · rw [if_neg (by simp [h]), h, Nat.mul_zero, Nat.add_zero]
  · rw [if_pos (by simp [h]), h, Nat.mul_one, ← Nat.add_assoc, Nat.add_sub_cancel]

theorem moved_le (k : Nat) (q : Nat → Nat) (i : Nat) : moved k q i ≤ q i := by
  rw [moved]
  split
  · exact Nat.sub_le _ _
  · exact Nat.le_refl _

theorem Places.moved (hq : Places m r q) (hk : ∀ i < r, 2 ^ k ∣ q i - i) :
    Places m r (moved k q) where
  lt i hi := (moved_le k q i).trans_lt (hq.lt i hi)
  mono i j hij hj := by
    rw [moved_distance hq (hij.trans hj) (hk i (hij.trans hj)), moved_distance hq hj (hk j hj)]
    have hdist := Nat.div_le_div_right (c := 2 ^ (k + 1)) (hq.distance_mono hij.le hj)
    have := Nat.mul_le_mul_right (2 ^ (k + 1)) hdist
    omega

/-! ### One pass -/

/-- The places when the pass has come to `u`. -/
def underway (k : Nat) (q : Nat → Nat) (u : Nat) (i : Nat) : Nat :=
  if q i < u then moved k q i else q i

theorem Places.underway (hq : Places m r q) (hk : ∀ i < r, 2 ^ k ∣ q i - i) (u : Nat) :
    Places m r (underway k q u) where
  lt i hi := by
    rw [Compaction.underway]
    split
    · exact (hq.moved hk).lt i hi
    · exact hq.lt i hi
  mono i j hij hj := by
    have hlt := hq.mono i j hij hj
    have hle := moved_le k q i
    rw [Compaction.underway, Compaction.underway]
    split <;> split
    · exact (hq.moved hk).mono i j hij hj
    all_goals omega

/-- What a pass keeps: the entries in front of `u` have moved, and they were counted. -/
structure Underway (valid : α → Prop) (m r k : Nat) (q : Nat → Nat) (y : Nat → α) (u : Nat)
    (s : (Nat → α) × Nat) : Prop where
  placed : Placed valid m r (underway k q u) y s.1
  count_le : s.2 ≤ r
  counted : ∀ i < r, q i < u ↔ i < s.2

variable {s : (Nat → α) × Nat}

/-- The pass finds an entry at `u` where there was one. -/
theorem Underway.at_iff (hs : Underway valid m r k q y u s) (hu : u < m) :
    valid (s.1 u) ↔ ∃ i < r, q i = u := by
  constructor
  · intro hvalid
    by_contra hnone
    refine hs.placed.rest u hu (fun i hi h => hnone ⟨i, hi, ?_⟩) hvalid
    have := moved_le k q i
    rw [underway] at h
    split at h <;> omega
  · rintro ⟨i, hi, rfl⟩
    have hentry := hs.placed.entry i hi
    rw [underway, if_neg (Nat.lt_irrefl _)] at hentry
    rw [hentry]
    exact hs.placed.entry_valid i hi

/-- The count at an entry is its number. -/
theorem Underway.count_eq (hs : Underway valid m r k q y u s) (hq : Places m r q) {i : Nat}
    (hi : i < r) (hu : q i = u) : s.2 = i := by
  have hself := hs.counted i hi
  rcases Nat.lt_trichotomy s.2 i with h | h | h
  · have := hs.counted s.2 (h.trans hi)
    have := hq.mono s.2 i h hi
    omega
  · exact h
  · omega

theorem Underway.step [DecidablePred valid] (hq : Places m r q) (hk : ∀ i < r, 2 ^ k ∣ q i - i)
    (hu : u < m) (hs : Underway valid m r k q y u s) :
    Underway valid m r k q y (u + 1) (step valid k s u) := by
  by_cases hvalid : valid (s.1 u)
  · obtain ⟨i, hi, hiu⟩ := (hs.at_iff hu).mp hvalid
    have hcount := hs.count_eq hq hi hiu
    -- only the place of this entry changes
    have hother {j : Nat} (hj : j < r) (hne : j ≠ i) :
        underway k q (u + 1) j = underway k q u j := by
      have : q j ≠ u := fun h => hne (hq.injective hj hi (h.trans hiu.symm))
      rw [underway, underway]
      split <;> split <;> first | rfl | omega
    have hhere : underway k q u i = u := by
      rw [underway, if_neg (by omega), hiu]
    have hthere : underway k q (u + 1) i = moved k q i := by
      rw [underway, if_pos (by omega)]
    rw [Compaction.step, if_pos hvalid]
    refine ⟨?_, ?_, ?_⟩
    · have hplaces := hq.underway hk (u + 1)
      rw [moved, hiu] at hthere
      rw [hcount]
      dsimp only
      split
      · next hbit =>
          rw [if_pos hbit] at hthere
          have hfar : 2 ^ k ≤ u := (Nat.ge_two_pow_of_testBit hbit).trans (Nat.sub_le u i)
          have hpos := Nat.two_pow_pos k
          refine ⟨hplaces, ?_, hs.placed.entry_valid, ?_⟩
          · intro j hj
            rw [exchange]
            by_cases hji : j = i
            · have hentry := hs.placed.entry i hi
              rw [hhere] at hentry
              rw [hji, hthere, Equiv.swap_apply_right, hentry]
            · rw [Equiv.swap_apply_of_ne_of_ne, hother hj hji, hs.placed.entry j hj]
              · rw [hother hj hji]
                exact fun h => hji (hs.placed.places.injective hj hi (h.trans hhere.symm))
              · rw [← hthere]
                exact fun h => hji (hplaces.injective hj hi h)
          · intro t ht hfree
            rw [exchange]
            by_cases htu : t = u
            · rw [htu, Equiv.swap_apply_left]
              refine hs.placed.rest _ (by omega) fun j hj h => ?_
              by_cases hji : j = i
              · rw [hji, hhere] at h
                omega
              · rw [← hother hj hji, ← hthere] at h
                exact hji (hplaces.injective hj hi h)
            · rw [Equiv.swap_apply_of_ne_of_ne htu fun h => hfree i hi (hthere.trans h.symm)]
              refine hs.placed.rest t ht fun j hj h => ?_
              by_cases hji : j = i
              · rw [hji, hhere] at h
                exact htu h.symm
              · exact hfree j hj ((hother hj hji).trans h)
      · next hbit =>
          rw [if_neg hbit] at hthere
          have hsame {j : Nat} (hj : j < r) : underway k q (u + 1) j = underway k q u j := by
            by_cases hji : j = i
            · rw [hji, hthere, hhere]
            · exact hother hj hji
          exact hs.placed.congr fun j hj => hsame hj
    · show s.2 + 1 ≤ r
      omega
    · intro j hj
      show q j < u + 1 ↔ j < s.2 + 1
      have hj' := hs.counted j hj
      rcases Nat.lt_trichotomy j i with h | rfl | h
      · have := hq.mono j i h hi
        omega
      · omega
      · have := hq.mono i j h hj
        omega
  · have hnone : ∀ i < r, q i ≠ u := fun i hi h => hvalid ((hs.at_iff hu).mpr ⟨i, hi, h⟩)
    have hsame {i : Nat} (hi : i < r) : underway k q (u + 1) i = underway k q u i := by
      have := hnone i hi
      rw [underway, underway]
      split <;> split <;> first | rfl | omega
    rw [Compaction.step, if_neg hvalid]
    refine ⟨hs.placed.congr fun i hi => hsame hi, hs.count_le, fun i hi => ?_⟩
    have := hnone i hi
    have := hs.counted i hi
    omega

/-- **One pass** clears one bit of all distances. -/
theorem pass_placed [DecidablePred valid] (ha : Placed valid m r q y a)
    (hk : ∀ i < r, 2 ^ k ∣ q i - i) : Placed valid m r (moved k q) y (pass valid m k a) := by
  have hstart : Underway valid m r k q y 0 (a, 0) := by
    have hsame : underway k q 0 = q := by
      funext i
      rw [underway, if_neg (Nat.not_lt_zero _)]
    refine ⟨?_, Nat.zero_le r, fun i _ => by simp⟩
    rw [hsame]
    exact ha
  have hrun : Underway valid m r k q y m (forRange 0 m (Compaction.step valid k) (a, 0)) :=
    forRange_induction (P := Underway valid m r k q y) (Nat.zero_le m) hstart
      fun u s _ hu hs => hs.step ha.places hk hu
  refine hrun.placed.congr fun i hi => ?_
  rw [underway, if_pos (ha.places.lt i hi)]

/-! ### All passes -/

/-- How far is left when the passes below `K` are through. -/
def cleared (K : Nat) (q : Nat → Nat) (i : Nat) : Nat := i + (q i - i) / 2 ^ K * 2 ^ K

/-- **The passes** clear all low bits of the distances. -/
theorem compact_placed [DecidablePred valid] (ha : Placed valid m r q y a) (K : Nat) :
    Placed valid m r (cleared K q) y (compact valid m K a) := by
  induction K with
  | zero =>
      refine ha.congr fun i hi => ?_
      have := ha.places.le hi
      rw [cleared, Nat.pow_zero, Nat.div_one, Nat.mul_one]
      omega
  | succ K ih =>
      have hdist (i : Nat) : cleared K q i - i = (q i - i) / 2 ^ K * 2 ^ K :=
        Nat.add_sub_cancel_left ..
      rw [compact, forRange_succ (Nat.zero_le K), ← compact]
      refine (pass_placed ih fun i _ => hdist i ▸ Nat.dvd_mul_left ..).congr fun i hi => ?_
      rw [moved_distance ih.places hi (hdist i ▸ Nat.dvd_mul_left ..), hdist, cleared,
        Nat.pow_succ, Nat.mul_comm (2 ^ K) 2, Nat.mul_div_mul_right _ _ (Nat.two_pow_pos K),
        Nat.mul_comm 2 (2 ^ K), Nat.div_div_eq_div_mul]

/-! ### What is in front -/

/-- The valid entries of an array, in their order. -/
def validEntries (valid : α → Prop) [DecidablePred valid] (m : Nat) (a : Nat → α) : List α :=
  ((List.range m).map a).filter valid

/-- Every array has its valid entries at increasing places. -/
theorem exists_placed (valid : α → Prop) [DecidablePred valid] (m : Nat) (a : Nat → α) :
    ∃ q, Placed valid m (validEntries valid m a).length q
      (fun i => (validEntries valid m a).getD i (a 0)) a := by
  have hlist : validEntries valid m a = ((List.range m).filter fun t => valid (a t)).map a := by
    rw [validEntries, List.filter_map]
    rfl
  have hsorted : ((List.range m).filter fun t => valid (a t)).Pairwise (· < ·) :=
    List.pairwise_lt_range.filter _
  have hmem (t : Nat) : t ∈ (List.range m).filter (fun t => valid (a t)) ↔ t < m ∧ valid (a t) := by
    rw [List.mem_filter, List.mem_range, decide_eq_true_eq]
  rw [hlist, List.length_map]
  generalize (List.range m).filter (fun t => valid (a t)) = places at hsorted hmem
  have hget {i : Nat} (hi : i < places.length) :
      (places.map a).getD i (a 0) = a (places.getD i 0) := by
    rw [List.getD_eq_getElem _ _ (by rwa [List.length_map]), List.getElem_map,
      List.getD_eq_getElem _ _ hi]
  have hplace {i : Nat} (hi : i < places.length) :
      places.getD i 0 < m ∧ valid (a (places.getD i 0)) := by
    rw [List.getD_eq_getElem _ _ hi]
    exact (hmem _).mp (List.getElem_mem hi)
  refine ⟨fun i => places.getD i 0, ⟨fun i hi => (hplace hi).1, fun i j hij hj => ?_⟩,
    fun i hi => (hget hi).symm, fun i hi => ?_, fun t ht hfree hvalid => ?_⟩
  · rw [List.getD_eq_getElem _ _ (hij.trans hj), List.getD_eq_getElem _ _ hj]
    exact List.pairwise_iff_getElem.mp hsorted i j (hij.trans hj) hj hij
  · rw [hget hi]
    exact (hplace hi).2
  · obtain ⟨i, hi, rfl⟩ := List.getElem_of_mem ((hmem t).mpr ⟨ht, hvalid⟩)
    exact hfree i hi (List.getD_eq_getElem _ _ hi)

/-- Entries have at most as far to go as there are places without one. -/
theorem Places.distance_le (hq : Places m r q) {i : Nat} (hi : i < r) : q i - i ≤ m - r := by
  have hlast := hq.distance_mono (show i ≤ r - 1 by omega) (by omega)
  have := hq.lt (r - 1) (by omega)
  have := hq.le (show r - 1 < r by omega)
  omega

/-- **The valid entries are in front**, if none has `2 ^ K` or more to go. -/
theorem compact_spec [DecidablePred valid] {n K : Nat} (m : Nat) (a : Nat → α)
    (hn : n ≤ (validEntries valid m a).length) (hK : m - n < 2 ^ K) :
    (List.range n).map (compact valid m K a) = (validEntries valid m a).take n := by
  obtain ⟨q, hq⟩ := exists_placed valid m a
  have hend := compact_placed hq K
  refine List.ext_getElem (by simp [hn]) fun i hi hi' => ?_
  have hin : i < n := by simpa using hi
  have hir := hin.trans_le hn
  have hplace : cleared K q i = i := by
    have := hq.places.distance_le hir
    rw [cleared, Nat.div_eq_of_lt (by omega), Nat.zero_mul, Nat.add_zero]
  have hentry := hend.entry i hir
  rw [hplace] at hentry
  rw [List.getElem_map, List.getElem_range, hentry, List.getElem_take,
    List.getD_eq_getElem _ _ hir]

/-- Where there are too few valid entries, something in front is not valid. -/
theorem exists_not_valid (valid : α → Prop) [DecidablePred valid] {n m : Nat} (K : Nat)
    (a : Nat → α)
    (hn : (validEntries valid m a).length < n) (hm : n ≤ m) :
    ∃ t < n, ¬ valid (compact valid m K a t) := by
  obtain ⟨q, hq⟩ := exists_placed valid m a
  have hend := compact_placed hq K
  by_contra hall
  -- every place in front would have an entry
  have hsub : Finset.range n ⊆
      (Finset.range (validEntries valid m a).length).image (cleared K q) := by
    intro t ht
    have ht' := Finset.mem_range.mp ht
    by_contra hnone
    refine hall ⟨t, ht', hend.rest t (ht'.trans_le hm) fun i hi h => hnone ?_⟩
    exact Finset.mem_image.mpr ⟨i, Finset.mem_range.mpr hi, h⟩
  have hcard := (Finset.card_le_card hsub).trans Finset.card_image_le
  rw [Finset.card_range, Finset.card_range] at hcard
  omega

end Places

end OnionNetwork.Lib.Compaction
