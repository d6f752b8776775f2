import OnionNetwork.Fec.Code

/-!
# The slots of a rebuild

`rebuild` sorts the shares by their numbers, leaves the data shares in the slots of their
blocks and puts the parity shares into the others. `filler k n chosen slot` is the number
of the parity share that a slot gets, and `origin` the number of the share in any slot.

* `gaps_present`: the order in which the source runs through the free slots;
* `fillGaps_eq`: what its loop makes of the matrix and of the shares;
* `sortByKey_slots`: what the second sort makes of them.
-/

namespace OnionNetwork.Fec

open Lib Finset

/-- The data shares among the chosen ones, by their numbers. -/
def present (k : Nat) (chosen : List Nat) : List Nat := (List.range k).filter (· ∈ chosen)

/-- The parity shares among the chosen ones. -/
def presentParity (k n : Nat) (chosen : List Nat) : List Nat :=
  (List.range' k (n - k)).filter (· ∈ chosen)

/-- The free slots in the order in which they are filled: from the first data share on
upwards, then those before it. -/
def fillOrder (k : Nat) (chosen : List Nat) : List Nat :=
  let first := (present k chosen).head?.getD 0
  (List.range' first (k - first)).filter (· ∉ chosen) ++ List.range first

/-- The parity share in a free slot. -/
def filler (k n : Nat) (chosen : List Nat) (slot : Nat) : Nat :=
  (presentParity k n chosen).getD ((fillOrder k chosen).idxOf slot) 0

/-- The share in a slot. -/
def origin (k n : Nat) (chosen : List Nat) (slot : Nat) : Nat :=
  if slot ∈ chosen then slot else filler k n chosen slot

variable {k n : Nat} {chosen : List Nat}

/-! ## The order of the free slots -/

theorem mem_present {x : Nat} : x ∈ present k chosen ↔ x < k ∧ x ∈ chosen := by
  simp [present]

theorem mem_presentParity {x : Nat} (hkn : k ≤ n) :
    x ∈ presentParity k n chosen ↔ k ≤ x ∧ x < n ∧ x ∈ chosen := by
  simp only [presentParity, List.mem_filter, List.mem_range'_1, decide_eq_true_eq]
  constructor
  · rintro ⟨⟨hk, hn⟩, hx⟩
    exact ⟨hk, by omega, hx⟩
  · rintro ⟨hk, hn, hx⟩
    exact ⟨⟨hk, by omega⟩, hx⟩

theorem increasing_present : (present k chosen).Pairwise (· < ·) :=
  List.pairwise_lt_range.sublist List.filter_sublist

theorem increasing_presentParity : (presentParity k n chosen).Pairwise (· < ·) :=
  (List.pairwise_lt_range' (s := k) (n := n - k)).sublist List.filter_sublist

/-- Before the first data share every slot is free. -/
theorem not_mem_of_lt_first {x : Nat} (hx : x < (present k chosen).head?.getD 0) :
    x < k ∧ x ∉ chosen := by
  generalize hp : present k chosen = l at hx
  cases l with
  | nil => exact absurd hx (Nat.not_lt_zero x)
  | cons first rest =>
      have hfirst : first ∈ present k chosen := by
        rw [hp]
        exact List.mem_cons_self
      have hlt : x < first := hx
      have hk : x < k := by
        have := (mem_present.mp hfirst).1
        omega
      refine ⟨hk, fun hmem => ?_⟩
      have hinc : (present k chosen).Pairwise (· < ·) := increasing_present
      have hin : x ∈ present k chosen := mem_present.mpr ⟨hk, hmem⟩
      rw [hp] at hinc hin
      rcases List.mem_cons.mp hin with rfl | hrest
      · exact Nat.lt_irrefl x hlt
      · exact Nat.lt_asymm hlt (List.rel_of_pairwise_cons hinc hrest)

theorem mem_fillOrder {slot : Nat} : slot ∈ fillOrder k chosen ↔ slot < k ∧ slot ∉ chosen := by
  simp only [fillOrder, List.mem_append, List.mem_filter, List.mem_range'_1, List.mem_range,
    decide_eq_true_eq]
  constructor
  · rintro (⟨⟨hle, hlt⟩, hnot⟩ | hlt)
    · exact ⟨by omega, hnot⟩
    · exact not_mem_of_lt_first hlt
  · rintro ⟨hk, hnot⟩
    rcases Nat.lt_or_ge slot ((present k chosen).head?.getD 0) with hlt | hge
    · exact .inr hlt
    · exact .inl ⟨⟨hge, by omega⟩, hnot⟩

theorem nodup_fillOrder : (fillOrder k chosen).Nodup := by
  refine List.nodup_append.mpr ⟨(List.nodup_range' 1).filter _, List.nodup_range, ?_⟩
  intro a ha b hb hab
  have hge := (List.mem_range'_1.mp (List.mem_of_mem_filter ha)).1
  have hlt := List.mem_range.mp hb
  omega

/-- There are as many free slots as parity shares. -/
theorem length_fillOrder (hkn : k ≤ n) (hnodup : chosen.Nodup) (hlen : chosen.length = k)
    (hlt : ∀ c ∈ chosen, c < n) :
    (fillOrder k chosen).length = (presentParity k n chosen).length := by
  have hslots : (present k chosen ++ fillOrder k chosen).Perm (List.range k) := by
    refine (List.perm_ext_iff_of_nodup ?_ List.nodup_range).mpr fun x => ?_
    · refine List.nodup_append.mpr
        ⟨increasing_present.imp Nat.ne_of_lt, nodup_fillOrder, fun a ha b hb hab => ?_⟩
      rw [hab] at ha
      exact (mem_fillOrder.mp hb).2 (mem_present.mp ha).2
    · rw [List.mem_append, mem_present, mem_fillOrder, List.mem_range]
      tauto
  have hshares : (present k chosen ++ presentParity k n chosen).Perm chosen := by
    refine (List.perm_ext_iff_of_nodup ?_ hnodup).mpr fun x => ?_
    · refine List.nodup_append.mpr ⟨increasing_present.imp Nat.ne_of_lt,
        increasing_presentParity.imp Nat.ne_of_lt, fun a ha b hb hab => ?_⟩
      have hak := (mem_present.mp ha).1
      have hbk := ((mem_presentParity hkn).mp hb).1
      omega
    · rw [List.mem_append, mem_present, mem_presentParity hkn]
      constructor
      · rintro (h | h)
        · exact h.2
        · exact h.2.2
      · intro hx
        rcases Nat.lt_or_ge x k with hxk | hxk
        · exact .inl ⟨hxk, hx⟩
        · exact .inr ⟨hxk, hlt x hx, hx⟩
  have h1 := hslots.length_eq
  have h2 := hshares.length_eq
  rw [List.length_append, List.length_range] at h1
  rw [List.length_append] at h2
  omega

/-! ## The loop over the gaps -/

/-- What lies between increasing numbers, and behind the last of them. -/
theorem filter_between : ∀ (first : Nat) (rest : List Nat), (first :: rest).Pairwise (· < ·) →
    (∀ x ∈ first :: rest, x < k) →
    (List.range' first (k - first)).filter (· ∉ first :: rest) =
      ((first :: rest).zip rest).flatMap
          (fun pair => List.range' (pair.1 + 1) (pair.2 - (pair.1 + 1))) ++
        List.range' (((first :: rest).getLast?.map (· + 1)).getD 0)
          (k - ((first :: rest).getLast?.map (· + 1)).getD 0) := by
  intro first rest
  induction rest generalizing first with
  | nil =>
      intro _ hlt
      have hk := hlt first List.mem_cons_self
      have hlen : k - first = (k - (first + 1)) + 1 := by omega
      rw [hlen, List.range'_succ, List.filter_cons_of_neg (by simp)]
      simp only [List.zip_nil_right, List.flatMap_nil, List.nil_append, List.getLast?_singleton,
        Option.map_some, Option.getD_some]
      apply List.filter_eq_self.mpr
      intro x hx
      have := (List.mem_range'_1.mp hx).1
      simp only [List.mem_singleton, decide_eq_true_eq]
      omega
  | cons next rest ih =>
      intro hinc hlt
      obtain ⟨hfirst, hrest⟩ := List.pairwise_cons.mp hinc
      have hfn := hfirst next List.mem_cons_self
      have hnk := hlt next (List.mem_cons_of_mem _ List.mem_cons_self)
      -- the range is cut at the next number; only its rest meets the other numbers
      have hsplit : List.range' first (k - first) =
          first ::
            (List.range' (first + 1) (next - (first + 1)) ++ List.range' next (k - next)) := by
        have hlen : k - first = ((next - (first + 1)) + (k - next)) + 1 := by omega
        have hnext : next = first + 1 + (next - (first + 1)) := by omega
        rw [hlen, List.range'_succ]
        congr 1
        conv => rhs; rw [hnext]
        rw [← List.range'_append_1]
        congr 2 <;> omega
      have hbetween : (List.range' (first + 1) (next - (first + 1))).filter
          (· ∉ first :: next :: rest) = List.range' (first + 1) (next - (first + 1)) := by
        apply List.filter_eq_self.mpr
        intro x hx
        obtain ⟨hge, hlt'⟩ := List.mem_range'_1.mp hx
        simp only [decide_eq_true_eq, List.mem_cons, not_or]
        refine ⟨by omega, by omega, fun hmem => ?_⟩
        have := List.rel_of_pairwise_cons hrest hmem
        omega
      have htail : (List.range' next (k - next)).filter (· ∉ first :: next :: rest) =
          (List.range' next (k - next)).filter (· ∉ next :: rest) := by
        apply List.filter_congr
        intro x hx
        have hge := (List.mem_range'_1.mp hx).1
        have hne : x ≠ first := by omega
        simp [hne]
      rw [hsplit, List.filter_cons_of_neg (by simp), List.filter_append, hbetween, htail,
        ih next hrest (fun x hx => hlt x (List.mem_cons_of_mem _ hx))]
      simp only [List.zip_cons_cons, List.flatMap_cons, List.append_assoc,
        List.getLast?_cons_cons]

/-- **The gaps of the source are the free slots.** -/
theorem gaps_present : gaps k (present k chosen) = fillOrder k chosen := by
  have hinc : (present k chosen).Pairwise (· < ·) := increasing_present
  have hmem : ∀ x, x ∈ present k chosen ↔ x < k ∧ x ∈ chosen := fun x => mem_present
  unfold gaps fillOrder
  generalize present k chosen = l at hinc hmem
  cases l with
  | nil =>
      simp only [List.zip_nil_left, List.flatMap_nil, List.nil_append, List.head?_nil,
        List.getLast?_nil, Option.map_none, Option.getD_none, List.range_zero, List.append_nil]
      symm
      apply List.filter_eq_self.mpr
      intro x hx
      have hlt := (List.mem_range'_1.mp hx).2
      have hnot := (hmem x).not.mp (List.not_mem_nil)
      simp only [decide_eq_true_eq]
      intro hx'
      exact hnot ⟨by omega, hx'⟩
  | cons first rest =>
      have hbelow : ∀ x ∈ first :: rest, x < k := fun x hx => ((hmem x).mp hx).1
      simp only [List.head?_cons, Option.getD_some, List.tail_cons]
      rw [← filter_between first rest hinc hbelow]
      congr 1
      apply List.filter_congr
      intro x hx
      have hlt := (List.mem_range'_1.mp hx).2
      have hk := hbelow first List.mem_cons_self
      have hiff : x ∈ first :: rest ↔ x ∈ chosen := by
        rw [hmem x]
        exact ⟨fun h => h.2, fun h => ⟨by omega, h⟩⟩
      simp only [hiff]

/-- Each gap gets the row of its share, and the share the number of its gap. -/
theorem fillGaps_eq {f : Fec} {g : List Nat} : ∀ (ps : List Share) (m : Mat),
    g.length = ps.length → g.Nodup → (∀ p ∈ ps, p.number < f.total) →
    ∃ m', fillGaps f g ps m =
        some (m', List.zipWith (fun i (p : Share) => p.inSlot i) g ps) ∧
      (∀ i, i ∉ g → m' i = m i) ∧
      ∀ i ∈ g, m' i = f.encMatrix ((ps.map Share.number).getD (g.idxOf i) 0) := by
  induction g with
  | nil =>
      intro ps m hlen _ _
      obtain rfl := List.eq_nil_of_length_eq_zero hlen.symm
      exact ⟨m, rfl, fun _ _ => rfl, fun i hi => absurd hi List.not_mem_nil⟩
  | cons i g ih =>
      intro ps m hlen hnodup htotal
      cases ps with
      | nil => exact absurd hlen (Nat.succ_ne_zero _)
      | cons p ps =>
          obtain ⟨hi, hnodup⟩ := List.nodup_cons.mp hnodup
          obtain ⟨hp, htotal⟩ := List.forall_mem_cons.mp htotal
          obtain ⟨m', hfill, hkeep, hrow⟩ := ih ps (Function.update m i (f.encMatrix p.number))
            (Nat.succ.inj hlen) hnodup htotal
          refine ⟨m', ?_, ?_, ?_⟩
          · rw [fillGaps, if_pos hp, hfill]
            rfl
          · intro j hj
            obtain ⟨hji, hjg⟩ := not_or.mp (List.mem_cons.not.mp hj)
            rw [hkeep j hjg, Function.update_of_ne hji]
          · intro j hj
            by_cases hji : j = i
            · rw [hji, hkeep i hi, Function.update_self, List.idxOf_cons_self]
              rfl
            · have hjg : j ∈ g := (List.mem_cons.mp hj).resolve_left hji
              rw [hrow j hjg, List.idxOf_cons_ne _ (fun h => hji h.symm)]
              rfl

/-! ## The shares in the slots -/

section Chosen

variable (hkn : k ≤ n) (hnodup : chosen.Nodup) (hlen : chosen.length = k)
  (hlt : ∀ c ∈ chosen, c < n)

include hkn hnodup hlen hlt

theorem filler_eq {slot : Nat} (hk : slot < k) (hfree : slot ∉ chosen) :
    ∃ h : (fillOrder k chosen).idxOf slot < (presentParity k n chosen).length,
      filler k n chosen slot = (presentParity k n chosen)[(fillOrder k chosen).idxOf slot] := by
  have hidx := List.idxOf_lt_length_of_mem (mem_fillOrder.mpr ⟨hk, hfree⟩)
  rw [length_fillOrder hkn hnodup hlen hlt] at hidx
  exact ⟨hidx, List.getD_eq_getElem _ _ hidx⟩

/-- A free slot gets one of the chosen parity shares. -/
theorem filler_mem {slot : Nat} (hk : slot < k) (hfree : slot ∉ chosen) :
    k ≤ filler k n chosen slot ∧ filler k n chosen slot < n ∧ filler k n chosen slot ∈ chosen := by
  obtain ⟨hidx, hfiller⟩ := filler_eq hkn hnodup hlen hlt hk hfree
  rw [hfiller]
  exact (mem_presentParity hkn).mp (List.getElem_mem hidx)

/-- Two free slots do not get the same one. -/
theorem filler_injective {i j : Nat} (hi : i < k) (hifree : i ∉ chosen) (hj : j < k)
    (hjfree : j ∉ chosen) (h : filler k n chosen i = filler k n chosen j) : i = j := by
  obtain ⟨hidx, hfiller⟩ := filler_eq hkn hnodup hlen hlt hi hifree
  obtain ⟨hidx', hfiller'⟩ := filler_eq hkn hnodup hlen hlt hj hjfree
  have hpar : (presentParity k n chosen).Nodup := increasing_presentParity.imp Nat.ne_of_lt
  rw [hfiller, hfiller', hpar.getElem_inj_iff] at h
  have hi' := List.getElem_idxOf (List.idxOf_lt_length_of_mem (mem_fillOrder.mpr ⟨hi, hifree⟩))
  have hj' := List.getElem_idxOf (List.idxOf_lt_length_of_mem (mem_fillOrder.mpr ⟨hj, hjfree⟩))
  rw [← hi', ← hj']
  simp only [h]

theorem origin_injective {i j : Nat} (hi : i < k) (hj : j < k)
    (h : origin k n chosen i = origin k n chosen j) : i = j := by
  unfold origin at h
  split at h
  · next himem =>
      split at h
      · exact h
      · next hjfree =>
          have := (filler_mem hkn hnodup hlen hlt hj hjfree).1
          omega
  · next hifree =>
      split at h
      · have := (filler_mem hkn hnodup hlen hlt hi hifree).1
        omega
      · next hjfree => exact filler_injective hkn hnodup hlen hlt hi hifree hj hjfree h

theorem origin_lt {i : Nat} (hi : i < k) : origin k n chosen i < n := by
  unfold origin
  split
  · omega
  · next hfree => exact (filler_mem hkn hnodup hlen hlt hi hfree).2.1

/-- In a free slot there is a parity share. -/
theorem le_origin {i : Nat} (hi : i < k) (hfree : i ∉ chosen) : k ≤ origin k n chosen i := by
  rw [origin, if_neg hfree]
  exact (filler_mem hkn hnodup hlen hlt hi hfree).1

/-- The first sort: the data shares, then the parity shares. -/
theorem sortByKey_number {share : Nat → Share} (hshare : ∀ c, (share c).number = c) :
    sortByKey Share.number (chosen.map share) =
      (present k chosen).map share ++ (presentParity k n chosen).map share := by
  have hkeys : KeysDistinct Share.number (chosen.map share) := by
    rw [KeysDistinct, List.map_map]
    have hid : Share.number ∘ share = id := funext hshare
    rw [hid, List.map_id]
    exact hnodup
  have hpar : Increasing Share.number
      ((present k chosen).map share ++ (presentParity k n chosen).map share) := by
    rw [Increasing, ← List.map_append, List.pairwise_map]
    simp only [hshare]
    refine List.pairwise_append.mpr ⟨increasing_present, increasing_presentParity, ?_⟩
    intro a ha b hb
    have hak := (mem_present.mp ha).1
    have hbk := ((mem_presentParity hkn).mp hb).1
    omega
  refine (increasing_sortByKey hkeys).eq_of_mem_iff hpar fun x => ?_
  rw [mem_sortByKey, ← List.map_append, List.mem_map, List.mem_map]
  constructor
  · rintro ⟨c, hc, rfl⟩
    refine ⟨c, List.mem_append.mpr ?_, rfl⟩
    rcases Nat.lt_or_ge c k with hck | hck
    · exact .inl (mem_present.mpr ⟨hck, hc⟩)
    · exact .inr ((mem_presentParity hkn).mpr ⟨hck, hlt c hc, hc⟩)
  · rintro ⟨c, hc, rfl⟩
    rcases List.mem_append.mp hc with hc | hc
    · exact ⟨c, (mem_present.mp hc).2, rfl⟩
    · exact ⟨c, ((mem_presentParity hkn).mp hc).2.2, rfl⟩

/-- The parity shares with their new numbers, by the slots. -/
theorem zipWith_fillOrder {share : Nat → Share} :
    List.zipWith (fun i (p : Share) => p.inSlot i) (fillOrder k chosen)
        ((presentParity k n chosen).map share) =
      (fillOrder k chosen).map fun i => (share (filler k n chosen i)).inSlot i := by
  have hlength := length_fillOrder hkn hnodup hlen hlt
  apply List.ext_getElem
  · rw [List.length_zipWith, List.length_map, List.length_map, hlength, Nat.min_self]
  · intro t ht ht'
    rw [List.length_map] at ht'
    simp only [List.getElem_zipWith, List.getElem_map]
    have hidx : (fillOrder k chosen).idxOf (fillOrder k chosen)[t] = t :=
      nodup_fillOrder.idxOf_getElem t ht'
    rw [filler, hidx, List.getD_eq_getElem _ _ (by omega)]

end Chosen

/-- The share in a slot when the rows are inverted. -/
def slotShare (k n : Nat) (chosen : List Nat) (share : Nat → Share) (slot : Nat) : Share :=
  if slot ∈ chosen then share slot else (share (filler k n chosen slot)).inSlot slot

/-- **The second sort** puts every share into its slot. -/
theorem sortByKey_slots (hk : k ≤ 256) {share : Nat → Share} (hshare : ∀ c, (share c).number = c) :
    sortByKey (slotKey k) ((present k chosen).map share ++
        (fillOrder k chosen).map fun i => (share (filler k n chosen i)).inSlot i) =
      (List.range k).map (slotShare k n chosen share) := by
  have hmax : 512 ≤ usizeMax := by decide
  -- the key of a share is the slot that it is to be in
  have hkey : ∀ i < k, slotKey k (slotShare k n chosen share i) = i := by
    intro i hi
    unfold slotKey slotShare
    split
    · rw [hshare, if_neg (by omega)]
    · rw [number_inSlot, if_pos (by omega)]
      omega
  -- what is sorted are the slots in another order
  have hleft : (present k chosen).map share ++
      ((fillOrder k chosen).map fun i => (share (filler k n chosen i)).inSlot i) =
      (present k chosen ++ fillOrder k chosen).map (slotShare k n chosen share) := by
    rw [List.map_append]
    congr 1
    · apply List.map_congr_left
      intro i hi
      rw [slotShare, if_pos (mem_present.mp hi).2]
    · apply List.map_congr_left
      intro i hi
      rw [slotShare, if_neg (mem_fillOrder.mp hi).2]
  have hslots : ∀ i, i ∈ present k chosen ++ fillOrder k chosen ↔ i < k := by
    intro i
    rw [List.mem_append, mem_present, mem_fillOrder]
    tauto
  have hkeys : KeysDistinct (slotKey k)
      ((present k chosen ++ fillOrder k chosen).map (slotShare k n chosen share)) := by
    rw [KeysDistinct, List.map_map]
    have hself : (present k chosen ++ fillOrder k chosen).map
        (slotKey k ∘ slotShare k n chosen share) = present k chosen ++ fillOrder k chosen := by
      conv => rhs; rw [← List.map_id (present k chosen ++ fillOrder k chosen)]
      apply List.map_congr_left
      intro i hi
      exact hkey i ((hslots i).mp hi)
    rw [hself]
    refine List.nodup_append.mpr
      ⟨increasing_present.imp Nat.ne_of_lt, nodup_fillOrder, fun a ha b hb hab => ?_⟩
    rw [hab] at ha
    exact (mem_fillOrder.mp hb).2 (mem_present.mp ha).2
  have hright : Increasing (slotKey k) ((List.range k).map (slotShare k n chosen share)) := by
    rw [Increasing, List.pairwise_map]
    refine List.pairwise_lt_range.imp_of_mem ?_
    intro a b ha hb hab
    rw [hkey a (List.mem_range.mp ha), hkey b (List.mem_range.mp hb)]
    exact hab
  rw [hleft]
  refine (increasing_sortByKey hkeys).eq_of_mem_iff hright fun x => ?_
  rw [mem_sortByKey, List.mem_map, List.mem_map]
  simp only [hslots, List.mem_range]

end OnionNetwork.Fec
