import OnionNetwork.Fec.Slots

/-!
# The run of a rebuild

The last loop of `rebuild` overwrites one share after the other with the product of its row
and the shares as they are (`column_run`), which is one pass of the inverted matrix in
place. `rebuild_run` is the whole function on shares of a code word.

`Encoding` of the storage: the erasure code over the pieces of a file. `Fec::new` takes the
number of all blocks as its second argument, and the storage hands it the number of the parity
pieces, which is a panic unless there are more of them than data pieces (`new_eq_none`).
-/

namespace OnionNetwork.Fec

open Lib Finset

/-! ## The loop -/

/-- The bytes at a place, by the slots. -/
def column (shares : List Share) (t j : Nat) : Gf := byte ((shares.map Share.data).getD j []) t

/-- The shares during the loop: as many as there are slots, of one size, and the data shares
in the chosen slots. -/
structure InSlots (k b : Nat) (chosen : List Nat) (shares : List Share) : Prop where
  length : shares.length = k
  size : ∀ s ∈ shares, s.data.length = b
  number : ∀ (i : Nat) (h : i < shares.length), shares[i].number < k ↔ i ∈ chosen

variable {k n b : Nat} {chosen : List Nat} {shares : List Share} {m : Mat}

theorem column_set {i : Nat} (hi : i < shares.length) (s : Share) (t : Nat) :
    column (shares.set i s) t = Function.update (column shares t) i (byte s.data t) := by
  funext j
  rw [column, List.map_set, List.getD_eq_getElem?_getD, List.getElem?_set]
  by_cases hij : i = j
  · subst hij
    rw [if_pos rfl, Function.update_self, if_pos (by rwa [List.length_map])]
    rfl
  · rw [if_neg hij, Function.update_of_ne (fun h => hij h.symm), column,
      List.getD_eq_getElem?_getD]

/-- One round applies one row. -/
theorem InSlots.step (h : InSlots k b chosen shares) {i : Nat} (hi : i < k) :
    InSlots k b chosen (rebuildShare k b m shares i) ∧
      ∀ t, column (rebuildShare k b m shares i) t =
        inPlaceStep k m (· ∉ chosen) (column shares t) i := by
  have hlt : i < shares.length := by rw [h.length]; exact hi
  have hblocks : ∀ l ∈ shares.map Share.data, l.length = b := by
    intro l hl
    obtain ⟨s, hs, rfl⟩ := List.mem_map.mp hl
    exact h.size s hs
  obtain ⟨hlen, hbyte⟩ := mulSlicesXor_eq (m i) hblocks
  unfold rebuildShare inPlaceStep
  rw [List.getElem?_eq_getElem hlt]
  simp only [h.number i hlt]
  by_cases hmem : i ∈ chosen
  · rw [if_pos hmem]
    refine ⟨h, fun t => ?_⟩
    rw [if_neg (not_not.mpr hmem)]
  · rw [if_neg hmem]
    refine ⟨⟨?_, ?_, ?_⟩, fun t => ?_⟩
    · rw [List.length_set, h.length]
    · intro s hs
      rcases List.mem_or_eq_of_mem_set hs with hs | rfl
      · exact h.size s hs
      · exact hlen
    · intro j hj
      rw [List.length_set] at hj
      rw [List.getElem_set]
      split
      · next hij =>
          subst hij
          exact h.number i hj
      · exact h.number j hj
    · rw [if_pos hmem, column_set hlt]
      congr 1
      rw [hbyte t, List.length_map, h.length]
      rfl

/-- **The loop is one pass in place.** -/
theorem column_run (h : InSlots k b chosen shares) {i : Nat} (hi : i ≤ k) :
    InSlots k b chosen ((List.range i).foldl (rebuildShare k b m) shares) ∧
      ∀ t, column ((List.range i).foldl (rebuildShare k b m) shares) t =
        inPlace k m (· ∉ chosen) (column shares t) i := by
  induction i with
  | zero => exact ⟨h, fun t => rfl⟩
  | succ i ih =>
      obtain ⟨hs, hcolumn⟩ := ih (by omega)
      rw [List.range_succ, List.foldl_append]
      obtain ⟨hs', hcolumn'⟩ := hs.step (m := m) (i := i) (by omega)
      refine ⟨hs', fun t => ?_⟩
      rw [inPlace, ← hcolumn t]
      exact hcolumn' t

/-! ## The whole function -/

section Word

variable {f : Fec} {share : Nat → Share} (hnew : Fec.new k n = some f)
  (hshare : ∀ c, (share c).number = c) (hsize : ∀ c < n, (share c).data.length = b)
  (hnodup : chosen.Nodup) (hlen : chosen.length = k) (hlt : ∀ c ∈ chosen, c < n)

/-- The points of the shares in the slots. -/
def target (k n : Nat) (chosen : List Nat) (slot : Nat) : Gf := point (origin k n chosen slot)

include hnew hnodup hlen hlt in
/-- The matrix of `rebuild` leads from the points of the data to those in the slots. -/
theorem exchange_target : Exchange k point (target k n chosen) := by
  obtain ⟨-, hkn, hn, -, -⟩ := Fec.new_eq hnew
  have horigin : ∀ i < k, origin k n chosen i < 256 := fun i hi => by
    have := origin_lt hkn.le hnodup hlen hlt hi
    omega
  refine ⟨distinct_point (by omega), ?_, ?_⟩
  · rw [distinct_iff]
    intro i hi j hj h
    exact origin_injective hkn.le hnodup hlen hlt hi hj
      (point_injective (horigin i hi) (horigin j hj) h)
  · intro r hr
    by_cases hmem : r ∈ chosen
    · left
      rw [target, origin, if_pos hmem]
    · right
      intro j hj h
      have hle := le_origin hkn.le hnodup hlen hlt hr hmem
      have := point_injective (horigin r hr) (by omega) h
      omega

include hnew hshare hsize hnodup hlen hlt

/-- **The whole of `rebuild`** on any `k` shares of a code word: nothing fails, and the
inverse of the matrix is applied in place to the shares in their slots. -/
theorem rebuild_run : ∃ inv : Mat,
    (∀ r < k, ∀ j < k, inv r j = weightAt k (target k n chosen) j (point r)) ∧
      f.rebuild (chosen.map share) = some (.ok ((List.range k).foldl (rebuildShare k b inv)
        ((List.range k).map (slotShare k n chosen share)))) := by
  obtain ⟨hk, hkn, hn, hreq, htotal⟩ := Fec.new_eq hnew
  have hpar : ∀ c ∈ presentParity k n chosen, k ≤ c ∧ c < n := fun c hc =>
    ⟨((mem_presentParity hkn.le).mp hc).1, ((mem_presentParity hkn.le).mp hc).2.1⟩
  have hk256 : k ≤ 256 := by omega
  have hcount := length_fillOrder hkn.le hnodup hlen hlt
  -- the sorted shares
  generalize hsorted : (present k chosen).map share ++ (presentParity k n chosen).map share = sorted
  have hlength : sorted.length = k := by
    have hsort := congrArg List.length (sortByKey_number hkn.le hnodup hlen hlt hshare)
    rw [hsorted, length_sortByKey, List.length_map, hlen] at hsort
    exact hsort.symm
  have hbound : ∀ s ∈ sorted, s.data.length = b := by
    intro s hs
    rw [← hsorted, ← List.map_append] at hs
    obtain ⟨c, hc, rfl⟩ := List.mem_map.mp hs
    apply hsize
    rcases List.mem_append.mp hc with hc | hc
    · have := (mem_present.mp hc).1
      omega
    · exact (hpar c hc).2
  have hhead : (sorted.head?.map (·.data.length)).getD 0 = b := by
    cases sorted with
    | nil => exact absurd hlength hk.ne
    | cons s rest => exact hbound s List.mem_cons_self
  have hequal : (sorted.any fun s => s.data.length ≠ b) = false := by
    rw [List.any_eq_false]
    intro s hs
    simp [hbound s hs]
  have hdata : sorted.takeWhile (·.number < k) = (present k chosen).map share := by
    have hnone : ((presentParity k n chosen).map share).takeWhile (·.number < k) = [] := by
      cases hparity : presentParity k n chosen with
      | nil => rfl
      | cons c rest =>
          have hck := (hpar c (by rw [hparity]; exact List.mem_cons_self)).1
          rw [List.map_cons, List.takeWhile_cons_of_neg]
          rw [decide_eq_true_eq, hshare]
          omega
    rw [← hsorted, List.takeWhile_append_of_pos, hnone, List.append_nil]
    intro s hs
    obtain ⟨c, hc, rfl⟩ := List.mem_map.mp hs
    rw [decide_eq_true_eq, hshare]
    exact (mem_present.mp hc).1
  have hparity : sorted.drop ((present k chosen).map share).length =
      (presentParity k n chosen).map share := by
    rw [← hsorted, List.drop_left]
  have hnumber : ∀ l : List Nat, (l.map share).map Share.number = l := by
    intro l
    rw [List.map_map]
    have hid : Share.number ∘ share = id := funext hshare
    rw [hid, List.map_id]
  -- the matrix and the slots
  obtain ⟨mDec, hfill, hkeep, hrow⟩ := fillGaps_eq (f := f) (g := fillOrder k chosen)
    ((presentParity k n chosen).map share) (fun i j => if i = j then 1 else 0)
    (by rw [hcount, List.length_map]) nodup_fillOrder (by
      intro p hp
      obtain ⟨c, hc, rfl⟩ := List.mem_map.mp hp
      rw [hshare, htotal]
      exact (hpar c hc).2)
  rw [zipWith_fillOrder hkn.le hnodup hlen hlt] at hfill
  have hmDec : ∀ r < k, ∀ j < k, mDec r j = weightAt k point j (target k n chosen r) := by
    have hdist : Distinct k point := distinct_point (by omega)
    intro r hr j hj
    rw [target, origin]
    split
    · next hmem =>
        rw [hkeep r (fun h => (mem_fillOrder.mp h).2 hmem)]
        show (if r = j then 1 else 0) = _
        split
        · next heq => rw [heq, weightAt_self hdist hj]
        · next hne => rw [weightAt_of_ne hr (fun h => hne h.symm)]
    · next hfree =>
        rw [hrow r (mem_fillOrder.mpr ⟨hr, hfree⟩), hnumber]
        exact encMatrix_eq hnew (filler_mem hkn.le hnodup hlen hlt hr hfree).2.1 hj
  obtain ⟨inv, hinvert, hinv⟩ :=
    invertMatrix_exchange (exchange_target hnew hnodup hlen hlt) hmDec
  refine ⟨inv, hinv, ?_⟩
  unfold Fec.rebuild
  simp only [hreq, sortByKey_number hkn.le hnodup hlen hlt hshare, hsorted]
  rw [if_neg (by omega), List.take_of_length_le hlength.le]
  simp only [hhead, hequal, hdata, hparity, hnumber, gaps_present, hfill, Bool.false_eq_true,
    if_false, Option.bind_eq_bind, Option.bind_some, hinvert]
  rw [sortByKey_slots hk256 hshare]

end Word

end OnionNetwork.Fec

/-! ## Pieces of a file -/

namespace OnionNetwork.Storage

open Fec

/-- `PIECE_SIZE`. -/
def pieceSize : Nat := 1024

section Counts

variable (debugAssertions : Bool)

/-- `DATA_PIECES`. -/
def dataPieces : Nat := if debugAssertions then 4 else 16

/-- `PARITY_PIECES`. -/
def parityPieces : Nat := if debugAssertions then 4 else 16

/-- `MAX_PIECES`. -/
def maxPieces : Nat := dataPieces debugAssertions + parityPieces debugAssertions

/-- `Data`. -/
abbrev Data := { data : List Gf // data.length = dataPieces debugAssertions * pieceSize }

/-- `Parity`. -/
abbrev Parity := { parity : List Gf // parity.length = parityPieces debugAssertions * pieceSize }

end Counts

/-- `Encoding`. Its buffer is cleared by each use. -/
structure Encoding where
  inner : Fec

namespace Encoding

/-- `Encoding::default`, in a build with debug assertions or one without. -/
def default (debugAssertions : Bool) : Option Encoding :=
  (Fec.new (dataPieces debugAssertions) (parityPieces debugAssertions)).map Encoding.mk

/-- `Encoding::encode`: an error is a panic. -/
def encode (e : Encoding) (data parity : List Gf) : Option (List Gf) :=
  match e.inner.encode data parity with
  | some (.ok parity) => some parity
  | _ => none

/-- `Encoding::reconstruct`. -/
def reconstruct (e : Encoding) (shards : List Share) : Option (Except RebuildError (List Share)) :=
  e.inner.rebuild shards

end Encoding

/-- `Fec::new` panics on as many blocks as there are data blocks, or fewer. -/
theorem new_eq_none {required total : Nat} (h : total ≤ required) :
    Fec.new required total = none := by
  unfold Fec.new
  rw [if_neg]
  rintro ⟨_, hlt, _⟩
  omega

end OnionNetwork.Storage
