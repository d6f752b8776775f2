import Mathlib.Order.Lattice
import Mathlib.Data.List.Sort

/-!
# Ordered key-value stores

The contents of an ordered store as the list of its entries in strictly
increasing key order. The order is a field, so a store with a duplicate or a
misplaced key cannot be built; reading by key and iterating in key order are
then two views of one list (`mem_entries_iff`).

A list that is sorted and loses its adjacent repetitions depends only on which
elements it had (`insertionSort_eq_eraseReps`).
-/

namespace OnionNetwork.Lib

/-- A finite map kept as its entries in strictly increasing key order. -/
structure SortedMap (K V : Type*) [LinearOrder K] where
  entries : List (K × V)
  sorted : entries.Pairwise fun a b => a.1 < b.1

namespace SortedMap

variable {K V : Type*} [LinearOrder K]

/-- The value of the first entry with key `k`. -/
def lookup (k : K) : List (K × V) → Option V
  | [] => none
  | e :: es => if e.1 = k then some e.2 else lookup k es

/-- Replace the entry of `k`, or insert it where the order wants it. -/
def insertEntry (k : K) (v : V) : List (K × V) → List (K × V)
  | [] => [(k, v)]
  | e :: es =>
      if k < e.1 then (k, v) :: e :: es
      else if k = e.1 then (k, v) :: es
      else e :: insertEntry k v es

theorem mem_insertEntry {k : K} {v : V} {es : List (K × V)} {x : K × V}
    (hx : x ∈ insertEntry k v es) : x = (k, v) ∨ x ∈ es := by
  induction es with
  | nil => simpa [insertEntry] using hx
  | cons e es ih =>
      rw [insertEntry] at hx
      split at hx
      · simpa using hx
      · split at hx
        · rcases List.mem_cons.mp hx with h | h
          · exact .inl h
          · exact .inr (List.mem_cons_of_mem _ h)
        · rcases List.mem_cons.mp hx with h | h
          · exact .inr (h ▸ List.mem_cons_self)
          · exact (ih h).imp_right (List.mem_cons_of_mem _)

theorem sorted_insertEntry {k : K} {v : V} {es : List (K × V)}
    (h : es.Pairwise fun a b => a.1 < b.1) :
    (insertEntry k v es).Pairwise fun a b => a.1 < b.1 := by
  induction es with
  | nil => simp [insertEntry]
  | cons e es ih =>
      obtain ⟨he, hes⟩ := List.pairwise_cons.mp h
      rw [insertEntry]
      split
      · rename_i hlt
        refine List.pairwise_cons.mpr ⟨?_, h⟩
        intro x hx
        rcases List.mem_cons.mp hx with rfl | hx
        · exact hlt
        · exact hlt.trans (he x hx)
      · rename_i hnlt
        split
        · rename_i heq
          subst heq
          exact List.pairwise_cons.mpr ⟨he, hes⟩
        · rename_i hne
          refine List.pairwise_cons.mpr ⟨?_, ih hes⟩
          intro x hx
          rcases mem_insertEntry hx with rfl | hx
          · exact lt_of_le_of_ne (not_lt.mp hnlt) (Ne.symm hne)
          · exact he x hx

theorem lookup_insertEntry (k k' : K) (v : V) (es : List (K × V)) :
    lookup k' (insertEntry k v es) = if k = k' then some v else lookup k' es := by
  induction es with
  | nil => simp [insertEntry, lookup]
  | cons e es ih =>
      rw [insertEntry]
      split
      · simp [lookup]
      · split
        · rename_i heq
          subst heq
          by_cases hk : e.1 = k' <;> simp [lookup, hk]
        · rename_i hne
          by_cases hk : e.1 = k'
          · have hkk : k ≠ k' := fun h => hne (h.trans hk.symm)
            simp [lookup, hk, hkk]
          · simp [lookup, hk, ih]

/-- In a sorted list, an entry is what its key looks up. -/
theorem mem_iff_lookup {es : List (K × V)} (h : es.Pairwise fun a b => a.1 < b.1)
    {k : K} {v : V} : (k, v) ∈ es ↔ lookup k es = some v := by
  induction es with
  | nil => simp [lookup]
  | cons e es ih =>
      obtain ⟨he, hes⟩ := List.pairwise_cons.mp h
      by_cases hk : e.1 = k
      · have hnot : (k, v) ∉ es := fun hmem => absurd (he _ hmem) (by simp [hk])
        obtain ⟨ek, ev⟩ := e
        subst hk
        simp [lookup, hnot, eq_comm]
      · have hne : (k, v) ≠ e := fun h => hk (by rw [← h])
        simp [lookup, hk, hne, ih hes]

theorem lookup_filter (p : K → Bool) (k : K) (es : List (K × V)) :
    lookup k (es.filter fun e => p e.1) = if p k then lookup k es else none := by
  induction es with
  | nil => simp [lookup]
  | cons e es ih =>
      by_cases hp : p e.1 <;> by_cases hk : e.1 = k
      · subst hk
        simp [hp, lookup]
      · simp [hp, lookup, hk, ih]
      · subst hk
        simp [hp, ih]
      · simp [hp, lookup, hk, ih]

/-! ### Lists around a key -/

theorem lookup_append_of_lt {k : K} {front : List (K × V)} (h : ∀ e ∈ front, e.1 < k)
    (es : List (K × V)) : lookup k (front ++ es) = lookup k es := by
  induction front with
  | nil => rfl
  | cons e front ih =>
      obtain ⟨he, hfront⟩ := List.forall_mem_cons.mp h
      rw [List.cons_append, lookup, if_neg he.ne]
      exact ih hfront

theorem lookup_eq_none_of_gt {k : K} {back : List (K × V)} (h : ∀ e ∈ back, k < e.1) :
    lookup k back = none := by
  induction back with
  | nil => rfl
  | cons e back ih =>
      obtain ⟨he, hback⟩ := List.forall_mem_cons.mp h
      rw [lookup, if_neg he.ne']
      exact ih hback

/-- An entry goes behind the smaller keys. -/
theorem insertEntry_append_of_lt {k : K} {front : List (K × V)} (h : ∀ e ∈ front, e.1 < k)
    (v : V) (es : List (K × V)) : insertEntry k v (front ++ es) = front ++ insertEntry k v es := by
  induction front with
  | nil => rfl
  | cons e front ih =>
      obtain ⟨he, hfront⟩ := List.forall_mem_cons.mp h
      rw [List.cons_append, insertEntry, if_neg (not_lt.mpr he.le), if_neg he.ne', ih hfront]
      rfl

theorem insertEntry_of_gt {k : K} {back : List (K × V)} (h : ∀ e ∈ back, k < e.1) (v : V) :
    insertEntry k v back = (k, v) :: back := by
  cases back with
  | nil => rfl
  | cons e back => rw [insertEntry, if_pos (h e List.mem_cons_self)]

/-- The store with no entries. -/
def empty : SortedMap K V := ⟨[], List.Pairwise.nil⟩

/-- Read a key. -/
def get (m : SortedMap K V) (k : K) : Option V := lookup k m.entries

/-- Write a key, replacing what it held. -/
def put (m : SortedMap K V) (k : K) (v : V) : SortedMap K V :=
  ⟨insertEntry k v m.entries, sorted_insertEntry m.sorted⟩

/-- Delete a key. -/
def erase (m : SortedMap K V) (k : K) : SortedMap K V :=
  ⟨m.entries.filter fun e => decide (e.1 ≠ k), m.sorted.filter _⟩

theorem get_put (m : SortedMap K V) (k k' : K) (v : V) :
    (m.put k v).get k' = if k = k' then some v else m.get k' :=
  lookup_insertEntry k k' v m.entries

@[simp] theorem get_put_self (m : SortedMap K V) (k : K) (v : V) :
    (m.put k v).get k = some v := by
  rw [get_put, if_pos rfl]

theorem get_put_ne (m : SortedMap K V) {k k' : K} (h : k ≠ k') (v : V) :
    (m.put k v).get k' = m.get k' := by
  rw [get_put, if_neg h]

theorem get_erase (m : SortedMap K V) (k k' : K) :
    (m.erase k).get k' = if k = k' then none else m.get k' := by
  unfold erase get
  rw [lookup_filter (fun x => decide (x ≠ k))]
  by_cases h : k = k'
  · simp [h]
  · simp [h, Ne.symm h]

@[simp] theorem get_erase_self (m : SortedMap K V) (k : K) : (m.erase k).get k = none := by
  rw [get_erase, if_pos rfl]

theorem get_erase_ne (m : SortedMap K V) {k k' : K} (h : k ≠ k') :
    (m.erase k).get k' = m.get k' := by
  rw [get_erase, if_neg h]

/-- Iterating and reading see the same entries. -/
theorem mem_entries_iff (m : SortedMap K V) {k : K} {v : V} :
    (k, v) ∈ m.entries ↔ m.get k = some v :=
  mem_iff_lookup m.sorted

/-- Reading determines the store. -/
theorem eq_of_get {m m' : SortedMap K V} (h : ∀ k, m.get k = m'.get k) : m = m' := by
  have hirrefl : Std.Irrefl fun a b : K × V => a.1 < b.1 := ⟨fun a => lt_irrefl a.1⟩
  have htrans : IsTrans (K × V) fun a b => a.1 < b.1 := ⟨fun _ _ _ => lt_trans⟩
  have hasymm : Std.Asymm fun a b : K × V => a.1 < b.1 := ⟨fun _ _ hab hba => lt_asymm hab hba⟩
  have hentries : m.entries = m'.entries := by
    refine List.Pairwise.eq_of_mem_iff m.sorted m'.sorted ?_
    rintro ⟨k, v⟩
    rw [mem_entries_iff, mem_entries_iff, h]
  obtain ⟨es, hes⟩ := m
  obtain ⟨es', hes'⟩ := m'
  cases hentries
  rfl

/-- The keys, in order. -/
def keys (m : SortedMap K V) : List K := m.entries.map Prod.fst

theorem mem_keys_iff (m : SortedMap K V) {k : K} : k ∈ m.keys ↔ ∃ v, m.get k = some v := by
  constructor
  · intro h
    obtain ⟨⟨k', v⟩, hentry, rfl⟩ := List.mem_map.mp h
    exact ⟨v, m.mem_entries_iff.mp hentry⟩
  · rintro ⟨v, hv⟩
    exact List.mem_map.mpr ⟨(k, v), m.mem_entries_iff.mpr hv, rfl⟩

theorem mem_keys_put (m : SortedMap K V) (k k' : K) (v : V) :
    k' ∈ (m.put k v).keys ↔ k' = k ∨ k' ∈ m.keys := by
  rw [mem_keys_iff, mem_keys_iff]
  by_cases h : k = k'
  · subst h
    simp only [get_put_self, true_or, iff_true]
    exact ⟨v, rfl⟩
  · have hne : k' ≠ k := Ne.symm h
    simp only [get_put_ne _ h, hne, false_or]

/-- After a run of writes a key has one of the values written under it, or, if none was,
what it had before. -/
theorem get_foldl_put_cases (changes : List (K × V)) (m : SortedMap K V) (k : K) :
    (∃ v, (k, v) ∈ changes ∧
      (changes.foldl (fun m change => m.put change.1 change.2) m).get k = some v) ∨
    (k ∉ changes.map Prod.fst ∧
      (changes.foldl (fun m change => m.put change.1 change.2) m).get k = m.get k) := by
  induction changes generalizing m with
  | nil => exact .inr ⟨List.not_mem_nil, rfl⟩
  | cons change changes ih =>
      rw [List.foldl_cons, List.map_cons, List.mem_cons]
      rcases ih (m.put change.1 change.2) with ⟨v, hin, hget⟩ | ⟨hnot, hget⟩
      · exact .inl ⟨v, List.mem_cons_of_mem _ hin, hget⟩
      · rw [get_put] at hget
        by_cases heq : change.1 = k
        · subst heq
          rw [if_pos rfl] at hget
          exact .inl ⟨change.2, List.mem_cons_self, hget⟩
        · rw [if_neg heq] at hget
          refine .inr ⟨?_, hget⟩
          rintro (rfl | hin)
          · exact heq rfl
          · exact hnot hin

/-- A run of writes that agree with a function leaves its values under their keys. -/
theorem get_foldl_put {f : K → Option V} {changes : List (K × V)}
    (h : ∀ change ∈ changes, f change.1 = some change.2) (m : SortedMap K V) (k : K) :
    (changes.foldl (fun m change => m.put change.1 change.2) m).get k =
      if k ∈ changes.map Prod.fst then f k else m.get k := by
  rcases get_foldl_put_cases changes m k with ⟨v, hin, hget⟩ | ⟨hnot, hget⟩
  · rw [if_pos (List.mem_map_of_mem hin), hget, h _ hin]
  · rw [if_neg hnot, hget]

end SortedMap

/-- A set kept as its elements in increasing order. -/
abbrev SortedSet (K : Type*) [LinearOrder K] := SortedMap K Unit

/-- Add an element. -/
def SortedSet.insert {K : Type*} [LinearOrder K] (s : SortedSet K) (k : K) : SortedSet K :=
  s.put k ()

end OnionNetwork.Lib

/-! ## Sorting and dropping repetitions -/

namespace OnionNetwork.Lib

variable {α : Type*} [LinearOrder α]

theorem mem_eraseRepsBy_loop {a x : α} {l acc : List α} :
    x ∈ List.eraseRepsBy.loop (· == ·) a l acc ↔ x ∈ acc ∨ x = a ∨ x ∈ l := by
  induction l generalizing a acc with
  | nil => simp [List.eraseRepsBy.loop, or_comm]
  | cons b l ih =>
      rw [List.eraseRepsBy.loop]
      by_cases hab : a = b
      · subst hab
        simp [ih]
      · have hne : (a == b) = false := beq_false_of_ne hab
        simp only [hne, ih, List.mem_cons]
        tauto

theorem mem_eraseReps {x : α} {l : List α} : x ∈ l.eraseReps ↔ x ∈ l := by
  cases l with
  | nil => rfl
  | cons a l =>
      refine mem_eraseRepsBy_loop.trans ?_
      simp

/-- Behind smaller elements in strict order, the rest of a sorted list joins them. -/
theorem pairwise_eraseRepsBy_loop {a : α} {l acc : List α} (hl : (a :: l).Pairwise (· ≤ ·))
    (hacc : (acc.reverse ++ [a]).Pairwise (· < ·)) :
    (List.eraseRepsBy.loop (· == ·) a l acc).Pairwise (· < ·) := by
  induction l generalizing a acc with
  | nil =>
      rw [List.eraseRepsBy.loop, List.reverse_cons]
      exact hacc
  | cons b l ih =>
      obtain ⟨ha, hbl⟩ := List.pairwise_cons.mp hl
      rw [List.eraseRepsBy.loop]
      by_cases hab : a = b
      · subst hab
        simp only [beq_self_eq_true]
        exact ih hbl hacc
      · have hne : (a == b) = false := beq_false_of_ne hab
        have hlt : a < b := lt_of_le_of_ne (ha b List.mem_cons_self) hab
        simp only [hne]
        refine ih hbl ?_
        rw [List.reverse_cons]
        refine List.pairwise_append.mpr ⟨hacc, List.pairwise_singleton _ _, ?_⟩
        intro x hx y hy
        rw [List.mem_singleton.mp hy]
        obtain ⟨-, -, hbelow⟩ := List.pairwise_append.mp hacc
        rcases List.mem_append.mp hx with hx | hx
        · exact (hbelow x hx a (List.mem_singleton.mpr rfl)).trans hlt
        · rw [List.mem_singleton.mp hx]
          exact hlt

theorem pairwise_eraseReps {l : List α} (hl : l.Pairwise (· ≤ ·)) :
    l.eraseReps.Pairwise (· < ·) := by
  cases l with
  | nil => exact List.Pairwise.nil
  | cons a l => exact pairwise_eraseRepsBy_loop hl (List.pairwise_singleton _ _)

/-- Two lists with the same elements, one of them without repetitions. -/
theorem insertionSort_eq_eraseReps {l m : List α} (hnodup : l.Nodup) (hmem : ∀ x, x ∈ l ↔ x ∈ m) :
    l.insertionSort (· ≤ ·) = (m.insertionSort (· ≤ ·)).eraseReps := by
  have hl : (l.insertionSort (· ≤ ·)).Pairwise (· ≤ ·) := List.pairwise_insertionSort _ l
  have hm := pairwise_eraseReps (List.pairwise_insertionSort (· ≤ ·) m)
  have hnodup' : (l.insertionSort (· ≤ ·)).Nodup :=
    (List.perm_insertionSort (· ≤ ·) l).nodup_iff.mpr hnodup
  have hperm : (l.insertionSort (· ≤ ·)).Perm (m.insertionSort (· ≤ ·)).eraseReps := by
    refine (List.perm_ext_iff_of_nodup hnodup' (hm.imp ne_of_lt)).mpr ?_
    intro x
    rw [List.mem_insertionSort, mem_eraseReps, List.mem_insertionSort]
    exact hmem x
  exact hperm.eq_of_pairwise (fun a b _ _ => le_antisymm) hl (hm.imp le_of_lt)

end OnionNetwork.Lib
