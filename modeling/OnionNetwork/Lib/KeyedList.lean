import OnionNetwork.Lib.SortedMap
import Mathlib.Data.List.Nodup
import Mathlib.Algebra.GroupWithZero.Nat
import Mathlib.Data.List.AList

/-!
# Maps filled from a list of entries

A hash map as the list of its entries with distinct keys, in the order in which
they came in; an ordered map as in `SortedMap`. Both filled by inserting one entry
after the other: the entries are among the given ones, and where these are already
as the map wants them, they are the entries.

The sum of a measure over the values of a finite map, and what setting and erasing a
key does to it. `choose` takes some entry of a map, whose order is not known: the entry
that is asked for if there is one, else the first.
-/

namespace OnionNetwork.Lib

variable {K V : Type*}

/-! ### One entry after the other -/

section Collect

variable {M E : Type*} {entries : M → List E} {add : M → E → M} {l : List E} {m : M}

/-- A map holds what it held, and what was added. -/
theorem mem_foldl_add (hadd : ∀ m e x, x ∈ entries (add m e) → x = e ∨ x ∈ entries m) {x : E}
    (h : x ∈ entries (l.foldl add m)) : x ∈ l ∨ x ∈ entries m := by
  induction l generalizing m with
  | nil => exact .inr h
  | cons e l ih =>
      rcases ih h with h | h
      · exact .inl (List.mem_cons_of_mem _ h)
      · rcases hadd m e x h with rfl | h
        · exact .inl List.mem_cons_self
        · exact .inr h

theorem length_foldl_add (hadd : ∀ m e, (entries (add m e)).length ≤ (entries m).length + 1) :
    (entries (l.foldl add m)).length ≤ l.length + (entries m).length := by
  induction l generalizing m with
  | nil => exact Nat.le_add_left _ _
  | cons e l ih =>
      have hle := hadd m e
      have hrest := ih (m := add m e)
      rw [List.foldl_cons, List.length_cons]
      omega

end Collect

namespace KeyedList

variable [DecidableEq K]

/-- Replace the value of the key, or add the entry. -/
def insertEntry (e : K × V) : List (K × V) → List (K × V)
  | [] => [e]
  | x :: xs => if x.1 = e.1 then (x.1, e.2) :: xs else x :: insertEntry e xs

/-- The entries, inserted one after the other. -/
def ofList (l : List (K × V)) : List (K × V) := l.foldl (fun m e => insertEntry e m) []

theorem mem_insertEntry {e x : K × V} {m : List (K × V)} (h : x ∈ insertEntry e m) :
    x = e ∨ x ∈ m := by
  induction m with
  | nil => exact .inl (List.mem_singleton.mp h)
  | cons y m ih =>
      unfold insertEntry at h
      split at h
      · next hkey =>
          rcases List.mem_cons.mp h with rfl | h
          · exact .inl (Prod.ext hkey rfl)
          · exact .inr (List.mem_cons_of_mem _ h)
      · rcases List.mem_cons.mp h with rfl | h
        · exact .inr List.mem_cons_self
        · exact (ih h).imp_right (List.mem_cons_of_mem _)

theorem mem_keys_insertEntry {e : K × V} {m : List (K × V)} {k : K}
    (h : k ∈ (insertEntry e m).map Prod.fst) : k = e.1 ∨ k ∈ m.map Prod.fst := by
  obtain ⟨x, hx, rfl⟩ := List.mem_map.mp h
  rcases mem_insertEntry hx with rfl | hx
  · exact .inl rfl
  · exact .inr (List.mem_map_of_mem hx)

theorem nodup_insertEntry {e : K × V} {m : List (K × V)} (h : (m.map Prod.fst).Nodup) :
    ((insertEntry e m).map Prod.fst).Nodup := by
  induction m with
  | nil => exact List.nodup_singleton _
  | cons y m ih =>
      obtain ⟨hy, hm⟩ := List.nodup_cons.mp h
      unfold insertEntry
      split
      · exact h
      · next hkey =>
          refine List.nodup_cons.mpr ⟨?_, ih hm⟩
          intro hmem
          rcases mem_keys_insertEntry hmem with heq | hmem
          · exact hkey heq
          · exact hy hmem

theorem length_insertEntry (e : K × V) (m : List (K × V)) :
    (insertEntry e m).length ≤ m.length + 1 := by
  induction m with
  | nil => exact Nat.le_refl 1
  | cons y m ih =>
      unfold insertEntry
      split
      · exact Nat.le_succ _
      · exact Nat.succ_le_succ ih

/-- An entry with a new key goes to the end. -/
theorem insertEntry_of_notMem {e : K × V} {m : List (K × V)} (h : e.1 ∉ m.map Prod.fst) :
    insertEntry e m = m ++ [e] := by
  induction m with
  | nil => rfl
  | cons y m ih =>
      rw [List.map_cons, List.mem_cons, not_or] at h
      rw [insertEntry, if_neg (fun heq => h.1 heq.symm), ih h.2]
      rfl

section Fold

variable {l m : List (K × V)}

theorem nodup_foldl (h : (m.map Prod.fst).Nodup) :
    ((l.foldl (fun m e => insertEntry e m) m).map Prod.fst).Nodup := by
  induction l generalizing m with
  | nil => exact h
  | cons e l ih => exact ih (nodup_insertEntry h)

theorem foldl_of_nodup (h : ((m ++ l).map Prod.fst).Nodup) :
    l.foldl (fun m e => insertEntry e m) m = m ++ l := by
  induction l generalizing m with
  | nil => exact (List.append_nil m).symm
  | cons e l ih =>
      have hnew : e.1 ∉ m.map Prod.fst := by
        rw [List.map_append, List.map_cons] at h
        intro hmem
        exact (List.nodup_append.mp h).2.2 _ hmem _ List.mem_cons_self rfl
      rw [List.foldl_cons, insertEntry_of_notMem hnew,
        ih (by rwa [List.append_assoc, List.singleton_append]), List.append_assoc,
        List.singleton_append]

end Fold

theorem nodup_ofList (l : List (K × V)) : ((ofList l).map Prod.fst).Nodup :=
  nodup_foldl List.nodup_nil

theorem mem_of_mem_ofList {l : List (K × V)} {x : K × V} (h : x ∈ ofList l) : x ∈ l := by
  have hadd : ∀ (m : List (K × V)) (e x : K × V), x ∈ id (insertEntry e m) → x = e ∨ x ∈ id m :=
    fun _ _ _ => mem_insertEntry
  exact (mem_foldl_add hadd h).resolve_right List.not_mem_nil

theorem length_ofList (l : List (K × V)) : (ofList l).length ≤ l.length := by
  have hadd : ∀ (m : List (K × V)) (e : K × V), (id (insertEntry e m)).length ≤ (id m).length + 1 :=
    fun m e => length_insertEntry e m
  exact length_foldl_add hadd

/-- Entries with distinct keys are the entries. -/
theorem ofList_of_nodup {l : List (K × V)} (h : (l.map Prod.fst).Nodup) : ofList l = l :=
  foldl_of_nodup (m := []) h

end KeyedList

namespace SortedMap

variable [LinearOrder K]

/-- The entries, inserted one after the other. -/
def ofList (l : List (K × V)) : SortedMap K V := l.foldl (fun m e => m.put e.1 e.2) empty

theorem length_insertEntry (k : K) (v : V) (es : List (K × V)) :
    (insertEntry k v es).length ≤ es.length + 1 := by
  induction es with
  | nil => exact Nat.le_refl 1
  | cons e es ih =>
      unfold insertEntry
      split
      · exact Nat.le_refl _
      · split
        · exact Nat.le_succ _
        · exact Nat.succ_le_succ ih

/-- An entry behind all others goes to the end. -/
theorem insertEntry_of_lt {k : K} {v : V} {es : List (K × V)} (h : ∀ e ∈ es, e.1 < k) :
    insertEntry k v es = es ++ [(k, v)] := by
  induction es with
  | nil => rfl
  | cons e es ih =>
      have he := h e List.mem_cons_self
      rw [insertEntry, if_neg (not_lt_of_ge he.le), if_neg he.ne',
        ih fun x hx => h x (List.mem_cons_of_mem _ hx)]
      rfl

section Fold

variable {l : List (K × V)} {m : SortedMap K V}

theorem foldl_put_of_sorted (h : (m.entries ++ l).Pairwise fun a b => a.1 < b.1) :
    (l.foldl (fun m e => m.put e.1 e.2) m).entries = m.entries ++ l := by
  induction l generalizing m with
  | nil => exact (List.append_nil _).symm
  | cons e l ih =>
      have hlast : ∀ x ∈ m.entries, x.1 < e.1 := fun x hx =>
        (List.pairwise_append.mp h).2.2 x hx e List.mem_cons_self
      have hput : (m.put e.1 e.2).entries = m.entries ++ [e] := insertEntry_of_lt hlast
      rw [List.foldl_cons, ih (by rw [hput, List.append_assoc]; exact h), hput, List.append_assoc,
        List.singleton_append]

end Fold

theorem mem_of_mem_ofList {l : List (K × V)} {x : K × V} (h : x ∈ (ofList l).entries) : x ∈ l := by
  have hadd : ∀ (m : SortedMap K V) (e x : K × V), x ∈ (m.put e.1 e.2).entries →
      x = e ∨ x ∈ m.entries := fun _ _ _ => mem_insertEntry
  exact (mem_foldl_add hadd h).resolve_right List.not_mem_nil

theorem length_ofList (l : List (K × V)) : (ofList l).entries.length ≤ l.length := by
  have hadd : ∀ (m : SortedMap K V) (e : K × V),
      (m.put e.1 e.2).entries.length ≤ m.entries.length + 1 :=
    fun _ _ => length_insertEntry _ _ _
  exact length_foldl_add hadd

/-- The entries of a map give the map. -/
theorem ofList_entries (m : SortedMap K V) : ofList m.entries = m := by
  have hentries : (ofList m.entries).entries = m.entries :=
    foldl_put_of_sorted (m := empty) m.sorted
  cases h : ofList m.entries
  rw [h] at hentries
  cases hentries
  rfl

end SortedMap

end OnionNetwork.Lib

/-! ## Totals over the values of a map -/

namespace OnionNetwork.Lib

variable {α β : Type*} [DecidableEq α]

/-- Finite maps. -/
abbrev FinMap (α β : Type*) [DecidableEq α] := AList fun _ : α => β

namespace FinMap

variable {f : β → Nat} {m : FinMap α β} {a : α} {b : β}

/-- The sum over the values. -/
def total (f : β → Nat) (m : FinMap α β) : Nat := (m.entries.map fun e => f e.2).sum

@[simp] theorem total_empty : total f (∅ : FinMap α β) = 0 := rfl

private theorem sum_kerase {l : List (Sigma fun _ : α => β)} (h : b ∈ l.dlookup a) :
    ((l.kerase a).map fun e => f e.2).sum + f b = (l.map fun e => f e.2).sum := by
  induction l with
  | nil => cases h
  | cons e l ih =>
      by_cases ha : a = e.1
      · subst ha
        rw [List.dlookup_cons_eq] at h
        cases h
        rw [List.kerase_cons_eq rfl, List.map_cons, List.sum_cons, Nat.add_comm]
      · rw [List.dlookup_cons_ne _ _ ha] at h
        have := ih h
        rw [List.kerase_cons_ne ha, List.map_cons, List.map_cons, List.sum_cons, List.sum_cons]
        omega

/-- Erasing takes the value of the key away. -/
theorem total_erase (h : m.lookup a = some b) : total f (m.erase a) + f b = total f m :=
  sum_kerase h

theorem erase_of_lookup_none (h : m.lookup a = none) : m.erase a = m := by
  refine AList.ext ?_
  exact List.kerase_of_notMem_keys (AList.lookup_eq_none.mp h)

/-- What is set need not be there before. -/
theorem insert_erase : (m.erase a).insert a b = m.insert a b := by
  refine AList.ext ?_
  rw [AList.entries_insert, AList.entries_insert]
  exact congrArg _ (List.kerase_of_notMem_keys (List.notMem_keys_kerase a m.nodupKeys))

theorem erase_insert : (m.insert a b).erase a = m.erase a := by
  refine AList.ext ?_
  show List.kerase a (m.insert a b).entries = List.kerase a m.entries
  rw [AList.entries_insert]
  exact List.kerase_cons_eq rfl

/-- Setting replaces the value of the key. -/
theorem total_insert : total f (m.insert a b) = f b + total f (m.erase a) := by
  unfold total
  rw [AList.entries_insert, List.map_cons, List.sum_cons]
  rfl

theorem total_insert_of_none (h : m.lookup a = none) :
    total f (m.insert a b) = f b + total f m := by
  rw [total_insert, erase_of_lookup_none h]

theorem total_insert_of_some {old : β} (h : m.lookup a = some old) :
    total f (m.insert a b) + f old = f b + total f m := by
  rw [total_insert, Nat.add_assoc, total_erase h]

/-- Some entry of a map. -/
def choose (pick : α) (m : FinMap α β) : Option (α × β) :=
  match m.lookup pick with
  | some b => some (pick, b)
  | none => m.entries.head?.map fun e => (e.1, e.2)

theorem lookup_of_choose {pick : α} (h : choose pick m = some (a, b)) : m.lookup a = some b := by
  unfold choose at h
  cases hpick : m.lookup pick with
  | some b' =>
      rw [hpick] at h
      cases h
      exact hpick
  | none =>
      rw [hpick] at h
      obtain ⟨e, he, heq⟩ := Option.map_eq_some_iff.mp h
      cases heq
      exact AList.mem_lookup_iff.mpr (List.mem_of_mem_head? he)

/-- There is an entry unless the map is empty. -/
theorem choose_eq_none {pick : α} (h : choose pick m = none) : m = ∅ := by
  unfold choose at h
  cases hpick : m.lookup pick with
  | some b =>
      rw [hpick] at h
      cases h
  | none =>
      rw [hpick, Option.map_eq_none_iff, List.head?_eq_none_iff] at h
      exact AList.ext h

end FinMap

end OnionNetwork.Lib
