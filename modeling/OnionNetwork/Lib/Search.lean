import Mathlib.Data.List.Sort

/-!
# Searching by key

`smallest d n l` are the `n` elements of `l` with the smallest keys, in order.
For distinct keys they depend only on which elements there are
(`smallest_congr`), and one more element either changes nothing or drives out
the last one (`smallest_snoc_of_le`, `smallest_snoc_of_lt`): a bounded list that
is kept sorted while the elements come in holds them.

`binarySearchByKey` is the loop of `slice::binary_search_by_key`: the answer is
the index of an entry with the key, or the index where one is to be inserted.
Nothing is promised of a vector whose keys are out of order or not distinct, so
its users keep `Increasing`, and read the answer as a place in the list:
`found` or `missing` (`binarySearch_cases`).
-/

/-! ## The smallest elements of a list -/

namespace OnionNetwork.Lib

variable {α β : Type*} [LinearOrder β] (d : α → β)

/-- The order by key. -/
def ByKey (a b : α) : Prop := d a ≤ d b

instance : DecidableRel (ByKey d) := fun a b => inferInstanceAs (Decidable (d a ≤ d b))

instance : IsTrans α (ByKey d) := ⟨fun _ _ _ hab hbc => le_trans hab hbc⟩

instance : Std.Total (ByKey d) := ⟨fun a b => le_total (d a) (d b)⟩

/-- The elements in the order of their keys. -/
def sortByKey (l : List α) : List α := l.insertionSort (ByKey d)

/-- The elements with the `n` smallest keys, in order. -/
def smallest (n : ℕ) (l : List α) : List α := (sortByKey d l).take n

/-- The keys are in strictly increasing order. -/
def Increasing (l : List α) : Prop := l.Pairwise fun a b => d a < d b

/-- No two elements of the list have one key. -/
def KeysDistinct (l : List α) : Prop := (l.map d).Nodup

variable {d} {l l' : List α} {x : α} {n : ℕ}

@[simp] theorem mem_sortByKey : x ∈ sortByKey d l ↔ x ∈ l := List.mem_insertionSort _

@[simp] theorem length_sortByKey : (sortByKey d l).length = l.length :=
  List.length_insertionSort _ l

theorem length_smallest : (smallest d n l).length = min n l.length := by
  rw [smallest, List.length_take, length_sortByKey]

theorem increasing_of_sorted (hsorted : l.Pairwise (ByKey d)) (hdistinct : KeysDistinct d l) :
    Increasing d l := by
  have hne : l.Pairwise fun a b => d a ≠ d b := List.pairwise_map.mp hdistinct
  refine (hsorted.and hne).imp ?_
  intro a b h
  exact lt_of_le_of_ne h.1 h.2

theorem keysDistinct_sortByKey (h : KeysDistinct d l) : KeysDistinct d (sortByKey d l) :=
  ((List.perm_insertionSort (ByKey d) l).map d).nodup_iff.mpr h

theorem increasing_sortByKey (h : KeysDistinct d l) : Increasing d (sortByKey d l) :=
  increasing_of_sorted (List.pairwise_insertionSort (ByKey d) l) (keysDistinct_sortByKey h)

/-- An increasing list is determined by its elements. -/
theorem Increasing.eq_of_mem_iff (h : Increasing d l) (h' : Increasing d l')
    (hmem : ∀ x, x ∈ l ↔ x ∈ l') : l = l' := by
  have hirrefl : Std.Irrefl fun a b => d a < d b := ⟨fun a => lt_irrefl (d a)⟩
  have htrans : IsTrans α fun a b => d a < d b := ⟨fun _ _ _ hab hbc => lt_trans hab hbc⟩
  have hasymm : Std.Asymm fun a b => d a < d b := ⟨fun a b hab hba => lt_asymm hab hba⟩
  exact List.Pairwise.eq_of_mem_iff h h' (fun x => hmem x)

/-- **Only the elements matter.** -/
theorem smallest_congr (h : KeysDistinct d l) (h' : KeysDistinct d l')
    (hmem : ∀ x, x ∈ l ↔ x ∈ l') (n : ℕ) : smallest d n l = smallest d n l' := by
  have hsort : sortByKey d l = sortByKey d l' := by
    refine (increasing_sortByKey h).eq_of_mem_iff (increasing_sortByKey h') ?_
    intro x
    rw [mem_sortByKey, mem_sortByKey]
    exact hmem x
  rw [smallest, smallest, hsort]

theorem increasing_smallest (h : KeysDistinct d l) : Increasing d (smallest d n l) :=
  (increasing_sortByKey h).sublist (List.take_sublist n _)

theorem mem_of_mem_smallest (h : x ∈ smallest d n l) : x ∈ l :=
  mem_sortByKey.mp (List.mem_of_mem_take h)

/-- What is left out has a larger key than what is chosen. -/
theorem lt_of_not_mem_smallest (h : KeysDistinct d l) {a : α} (ha : a ∈ smallest d n l)
    (hx : x ∈ l) (hnot : x ∉ smallest d n l) : d a < d x := by
  have hsplit := increasing_sortByKey h
  rw [← List.take_append_drop n (sortByKey d l)] at hsplit
  have hdrop : x ∈ (sortByKey d l).drop n := by
    have hin : x ∈ (sortByKey d l).take n ++ (sortByKey d l).drop n := by
      rw [List.take_append_drop]
      exact mem_sortByKey.mpr hx
    exact (List.mem_append.mp hin).resolve_left hnot
  exact (List.pairwise_append.mp hsplit).2.2 a ha x hdrop

/-! ### One more element -/

/-- The last element is inserted where the order wants it. -/
theorem sortByKey_snoc (h : KeysDistinct d (l ++ [x])) :
    sortByKey d (l ++ [x]) = (sortByKey d l).orderedInsert (ByKey d) x := by
  have hperm : ((sortByKey d l).orderedInsert (ByKey d) x).Perm (l ++ [x]) :=
    ((List.perm_orderedInsert (ByKey d) x _).trans
      ((List.perm_insertionSort (ByKey d) l).cons x)).trans (List.perm_append_singleton x l).symm
  have hdistinct : KeysDistinct d ((sortByKey d l).orderedInsert (ByKey d) x) :=
    (hperm.map d).nodup_iff.mpr h
  have hsorted : ((sortByKey d l).orderedInsert (ByKey d) x).Pairwise (ByKey d) :=
    (List.pairwise_insertionSort (ByKey d) l).orderedInsert x _
  refine (increasing_sortByKey h).eq_of_mem_iff (increasing_of_sorted hsorted hdistinct) ?_
  intro y
  rw [mem_sortByKey, hperm.mem_iff]

theorem take_orderedInsert_of_le {s : List α} (hle : ∀ a ∈ s.take n, d a < d x)
    (hn : n ≤ s.length) : (s.orderedInsert (ByKey d) x).take n = s.take n := by
  induction n generalizing s with
  | zero => rfl
  | succ n ih =>
      cases s with
      | nil => cases hn
      | cons a s =>
          obtain ⟨ha, hrest⟩ := List.forall_mem_cons.mp hle
          have hnot : ¬ ByKey d x a := not_le_of_gt ha
          rw [List.orderedInsert_cons, if_neg hnot, List.take_succ_cons, List.take_succ_cons,
            ih hrest (Nat.le_of_succ_le_succ hn)]

theorem take_orderedInsert_of_lt {s : List α} (hn : n < s.length) (hlt : d x < d s[n]) :
    (s.orderedInsert (ByKey d) x).take (n + 1) = (s.take n).orderedInsert (ByKey d) x := by
  induction s generalizing n with
  | nil => cases hn
  | cons a s ih =>
      by_cases hle : ByKey d x a
      · rw [List.orderedInsert_cons, if_pos hle, List.take_succ_cons]
        cases n with
        | zero => rfl
        | succ n => rw [List.take_succ_cons, List.orderedInsert_cons, if_pos hle]
      · cases n with
        | zero => exact absurd (le_of_lt hlt) hle
        | succ n =>
            rw [List.orderedInsert_cons, if_neg hle, List.take_succ_cons, List.take_succ_cons,
              List.orderedInsert_cons, if_neg hle, ih (Nat.lt_of_succ_lt_succ hn) hlt]

/-- An element behind the last chosen one changes nothing. -/
theorem smallest_snoc_of_le (h : KeysDistinct d (l ++ [x])) (hn : n ≤ l.length) {last : α}
    (hlast : (smallest d n l).getLast? = some last) (hle : d last ≤ d x) :
    smallest d n (l ++ [x]) = smallest d n l := by
  rw [smallest, sortByKey_snoc h]
  have hdistinct : KeysDistinct d l := by
    rw [KeysDistinct, List.map_append] at h
    exact h.of_append_left
  have hne : ∀ a ∈ l, d a ≠ d x := by
    rw [KeysDistinct, List.map_append] at h
    intro a ha heq
    exact (List.nodup_append.mp h).2.2 (d a) (List.mem_map_of_mem ha) (d x)
      (List.mem_singleton.mpr rfl) heq
  refine take_orderedInsert_of_le ?_ (by rw [length_sortByKey]; exact hn)
  intro a ha
  -- the chosen ones end with `last`
  obtain ⟨front, hfront⟩ := List.getLast?_eq_some_iff.mp hlast
  have hincreasing : Increasing d (front ++ [last]) := hfront ▸ increasing_smallest hdistinct
  have ha' : a ∈ front ++ [last] := hfront ▸ ha
  have hal : d a ≤ d last := by
    rcases List.mem_append.mp ha' with hin | hin
    · exact le_of_lt ((List.pairwise_append.mp hincreasing).2.2 a hin last
        (List.mem_singleton.mpr rfl))
    · rw [List.mem_singleton.mp hin]
  exact lt_of_le_of_ne (hal.trans hle) (hne a (mem_of_mem_smallest ha))

/-- An element in front of the last chosen one drives it out. -/
theorem smallest_snoc_of_lt (h : KeysDistinct d (l ++ [x])) (hn : n ≤ l.length) {last : α}
    (hlast : (smallest d n l).getLast? = some last) (hlt : d x < d last) :
    smallest d n (l ++ [x]) = (smallest d n l).dropLast.orderedInsert (ByKey d) x := by
  have hlength : (smallest d n l).length = n := by
    rw [length_smallest, Nat.min_eq_left hn]
  have hpos : n ≠ 0 := by
    rintro rfl
    cases hlast
  obtain ⟨m, rfl⟩ := Nat.exists_eq_succ_of_ne_zero hpos
  have hm : m < (sortByKey d l).length := by
    rw [length_sortByKey]
    exact hn
  have hget : (sortByKey d l)[m] = last := by
    rw [List.getLast?_eq_getElem?, hlength, Nat.succ_sub_one, smallest,
      List.getElem?_take_of_lt (Nat.lt_succ_self m), List.getElem?_eq_getElem hm] at hlast
    exact Option.some.inj hlast
  rw [smallest, sortByKey_snoc h, take_orderedInsert_of_lt hm (hget ▸ hlt), smallest,
    Nat.succ_eq_add_one, List.take_succ_eq_append_getElem hm, List.dropLast_concat]

end OnionNetwork.Lib

/-! ## Binary search in a vector of entries -/

namespace OnionNetwork.Lib

variable {α K V : Type*} [LinearOrder K] (key : α → K) (k : K)

/-- The loop: `left` and `right` enclose what has not been looked at. -/
def binarySearchLoop (l : List α) (left right : ℕ) : Except ℕ ℕ :=
  if left < right then
    let mid := left + (right - left) / 2
    match l[mid]? with
    | none => .error left
    | some x =>
        if key x < k then binarySearchLoop l (mid + 1) right
        else if k < key x then binarySearchLoop l left mid
        else .ok mid
  else .error left
termination_by right - left

/-- `slice::binary_search_by_key`. -/
def binarySearchByKey (l : List α) : Except ℕ ℕ := binarySearchLoop key k l 0 l.length

/-- The entries `front` have smaller keys and `back` larger ones. -/
structure Around (front back : List α) : Prop where
  smaller : ∀ a ∈ front, key a < k
  larger : ∀ a ∈ back, k < key a

variable {key k} {l : List α} {left right : ℕ}

theorem Increasing.get_lt (h : Increasing key l) {i j : ℕ} (hi : i < l.length)
    (hj : j < l.length) (hij : i < j) : key l[i] < key l[j] :=
  List.pairwise_iff_getElem.mp h i j hi hj hij

/-- What is known of the loop: the key is not in front of `left` and not behind `right`. -/
structure Window (key : α → K) (k : K) (l : List α) (left right : ℕ) : Prop where
  ordered : left ≤ right
  within : right ≤ l.length
  smaller : ∀ i (hi : i < l.length), i < left → key l[i] < k
  larger : ∀ i (hi : i < l.length), right ≤ i → k < key l[i]

/-- What the answer of the loop says. -/
def Answer (key : α → K) (k : K) (l : List α) : Except ℕ ℕ → Prop
  | .ok i => ∃ hi : i < l.length, key l[i] = k
  | .error i => Window key k l i i

theorem window_whole (key : α → K) (k : K) (l : List α) : Window key k l 0 l.length where
  ordered := Nat.zero_le _
  within := le_rfl
  smaller _ _ h := absurd h (Nat.not_lt_zero _)
  larger _ hi h := absurd hi (not_lt.mpr h)

theorem Window.mid_lt (h : Window key k l left right) (hlt : left < right) :
    left + (right - left) / 2 < l.length := by
  have := h.within
  omega

/-- The search goes on behind an entry that is too small. -/
theorem Window.right_half (h : Window key k l left right) (hinc : Increasing key l)
    {mid : ℕ} (hlen : mid < l.length) (hmid : mid < right) (hlt : key l[mid] < k) :
    Window key k l (mid + 1) right where
  ordered := hmid
  within := h.within
  smaller i hi hle := by
    rcases Nat.lt_or_eq_of_le (Nat.le_of_lt_succ hle) with hless | rfl
    · exact (hinc.get_lt hi hlen hless).trans hlt
    · exact hlt
  larger := h.larger

/-- The search goes on in front of an entry that is too large. -/
theorem Window.left_half (h : Window key k l left right) (hinc : Increasing key l)
    {mid : ℕ} (hlen : mid < l.length) (hleft : left ≤ mid) (hlt : k < key l[mid]) :
    Window key k l left mid where
  ordered := hleft
  within := hlen.le
  smaller := h.smaller
  larger i hi hle := by
    rcases Nat.lt_or_eq_of_le hle with hless | rfl
    · exact hlt.trans (hinc.get_lt hlen hi hless)
    · exact hlt

theorem binarySearchLoop_answer (hinc : Increasing key l) (h : Window key k l left right) :
    Answer key k l (binarySearchLoop key k l left right) := by
  fun_induction binarySearchLoop key k l left right with
  | case1 left right hlt mid hnone =>
      exact absurd (h.mid_lt hlt) (not_lt.mpr (List.getElem?_eq_none_iff.mp hnone))
  | case2 left right hlt mid x hx hsmall ih =>
      obtain ⟨hmid, rfl⟩ := List.getElem?_eq_some_iff.mp hx
      exact ih (h.right_half hinc hmid (by omega) hsmall)
  | case3 left right hlt mid x hx hsmall hlarge ih =>
      obtain ⟨hmid, rfl⟩ := List.getElem?_eq_some_iff.mp hx
      exact ih (h.left_half hinc hmid (by omega) hlarge)
  | case4 left right hlt mid x hx hsmall hlarge =>
      obtain ⟨hmid, rfl⟩ := List.getElem?_eq_some_iff.mp hx
      exact ⟨hmid, le_antisymm (not_lt.mp hlarge) (not_lt.mp hsmall)⟩
  | case5 left right hlt =>
      have heq : left = right := le_antisymm h.ordered (not_lt.mp hlt)
      subst heq
      exact h

/-- **A place in the list.** The search of an increasing vector finds the only entry with the
key, or the place where such an entry belongs. -/
theorem binarySearch_cases (hinc : Increasing key l) (k : K) :
    (∃ front x back, l = front ++ x :: back ∧ key x = k ∧ Around key k front back ∧
      binarySearchByKey key k l = .ok front.length) ∨
    (∃ front back, l = front ++ back ∧ Around key k front back ∧
      binarySearchByKey key k l = .error front.length) := by
  have hanswer : Answer key k l (binarySearchByKey key k l) :=
    binarySearchLoop_answer hinc (window_whole key k l)
  cases hsearch : binarySearchByKey key k l with
  | ok i =>
      rw [hsearch] at hanswer
      obtain ⟨hi, hkey⟩ := hanswer
      have hsplit : l = l.take i ++ l[i] :: l.drop (i + 1) := by
        rw [List.getElem_cons_drop, List.take_append_drop]
      have hlength : (l.take i).length = i := List.length_take_of_le hi.le
      have hpairs := hinc
      unfold Increasing at hpairs
      rw [hsplit, List.pairwise_append, List.pairwise_cons] at hpairs
      refine .inl ⟨_, _, _, hsplit, hkey, ⟨?_, ?_⟩, by rw [hlength]⟩
      · exact fun a ha => hkey ▸ hpairs.2.2 a ha _ List.mem_cons_self
      · exact fun a ha => hkey ▸ hpairs.2.1.1 a ha
  | error i =>
      rw [hsearch] at hanswer
      have hlength : (l.take i).length = i := List.length_take_of_le hanswer.within
      refine .inr ⟨_, _, (List.take_append_drop i l).symm, ⟨?_, ?_⟩, by rw [hlength]⟩
      · intro a ha
        obtain ⟨j, hj, rfl⟩ := List.mem_take_iff_getElem.mp ha
        exact hanswer.smaller j (by omega) (by omega)
      · intro a ha
        obtain ⟨j, hj, rfl⟩ := List.mem_drop_iff_getElem.mp ha
        exact hanswer.larger _ (by omega) (by omega)

/-- A missing entry is inserted at its place. -/
theorem insertIdx_length (x : α) (front back : List α) :
    (front ++ back).insertIdx front.length x = front ++ x :: back := by
  induction front with
  | nil => rfl
  | cons r front ih => exact congrArg (r :: ·) ih

end OnionNetwork.Lib
