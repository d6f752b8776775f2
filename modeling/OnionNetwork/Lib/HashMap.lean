import OnionNetwork.Lib.Vec
import OnionNetwork.Lib.KeyedList
import Mathlib.Data.List.Induction

/-!
# Hash maps and grouping by key

A hash map as the list of its entries in the order in which it is iterated, with
distinct keys as a field. What is read by key does not depend on that order
(`HashMap.get_eq_some_iff`), so two maps that hold the same are compared by `get`
(`HashMap.Same`).

Entries are grouped by pushing each value into a vector under its key (`pushEntry`).
A vector has a capacity, and a push into a full one fails; where no key has more
values than the capacity, the groups are the values of each key (`group_spec`).
-/

namespace OnionNetwork.Lib

variable {K V : Type*} [DecidableEq K]

/-- A finite map with the order in which it is iterated. -/
structure HashMap (K V : Type*) where
  entries : List (K × V)
  nodup : (entries.map Prod.fst).Nodup

namespace HashMap

/-- Read a key. -/
def get (m : HashMap K V) (k : K) : Option V := m.entries.lookup k

/-- Fill a map; later values of a key win. -/
def ofList (l : List (K × V)) : HashMap K V := ⟨KeyedList.ofList l, KeyedList.nodup_ofList l⟩

/-- The maps hold the same. -/
def Same (m m' : HashMap K V) : Prop := ∀ k, m.get k = m'.get k

theorem lookup_cons_ite (k : K) (e : K × V) (es : List (K × V)) :
    (e :: es).lookup k = if k = e.1 then some e.2 else es.lookup k := by
  rw [List.lookup_cons]
  by_cases hk : k = e.1
  · rw [hk, beq_self_eq_true, if_pos rfl]
  · rw [beq_false_of_ne hk, if_neg hk]

/-- Reading and iterating see the same entries. -/
theorem get_eq_some_iff (m : HashMap K V) {k : K} {v : V} :
    m.get k = some v ↔ (k, v) ∈ m.entries := by
  obtain ⟨entries, hnodup⟩ := m
  show entries.lookup k = some v ↔ (k, v) ∈ entries
  induction entries with
  | nil => simp
  | cons e es ih =>
      obtain ⟨hnot, hnodup'⟩ := List.nodup_cons.mp hnodup
      rw [List.mem_cons]
      by_cases hk : k = e.1
      · have hout : (k, v) ∉ es := fun h => hnot (hk ▸ List.mem_map.mpr ⟨_, h, rfl⟩)
        rw [lookup_cons_ite, if_pos hk, or_iff_left hout, Prod.ext_iff]
        simp [hk, eq_comm]
      · have hne : (k, v) ≠ e := fun h => hk (congrArg Prod.fst h)
        rw [lookup_cons_ite, if_neg hk, ih hnodup', or_iff_right hne]

theorem get_eq_none_iff (m : HashMap K V) {k : K} :
    m.get k = none ↔ k ∉ m.entries.map Prod.fst := by
  rw [Option.eq_none_iff_forall_ne_some]
  constructor
  · intro h hmem
    obtain ⟨⟨k', v⟩, hentry, rfl⟩ := List.mem_map.mp hmem
    exact h v (m.get_eq_some_iff.mpr hentry)
  · intro h v hv
    exact h (List.mem_map_of_mem (m.get_eq_some_iff.mp hv))

/-- `HashMap::insert`. -/
def insert (m : HashMap K V) (k : K) (v : V) : HashMap K V :=
  ⟨KeyedList.insertEntry (k, v) m.entries, KeyedList.nodup_insertEntry m.nodup⟩

/-- `HashMap::remove`. -/
def remove (m : HashMap K V) (k : K) : HashMap K V :=
  ⟨m.entries.filter fun e => e.1 ≠ k, m.nodup.sublist (List.filter_sublist.map _)⟩

@[simp] theorem get_insert (m : HashMap K V) (k k' : K) (v : V) :
    (m.insert k v).get k' = if k' = k then some v else m.get k' := by
  obtain ⟨entries, hnodup⟩ := m
  show (KeyedList.insertEntry (k, v) entries).lookup k' =
    if k' = k then some v else entries.lookup k'
  clear hnodup
  induction entries with
  | nil => exact lookup_cons_ite k' (k, v) []
  | cons e es ih =>
      by_cases hkey : e.1 = k
      · rw [KeyedList.insertEntry, if_pos hkey, lookup_cons_ite, lookup_cons_ite]
        simp only [hkey]
        split <;> rfl
      · rw [KeyedList.insertEntry, if_neg hkey, lookup_cons_ite, lookup_cons_ite, ih]
        by_cases hk : k' = e.1
        · have hne : k' ≠ k := fun h => hkey (hk.symm.trans h)
          rw [if_pos hk, if_neg hne, if_pos hk]
        · rw [if_neg hk, if_neg hk]

@[simp] theorem get_remove (m : HashMap K V) (k k' : K) :
    (m.remove k).get k' = if k' = k then none else m.get k' := by
  obtain ⟨entries, hnodup⟩ := m
  show (entries.filter fun e => e.1 ≠ k).lookup k' = if k' = k then none else entries.lookup k'
  clear hnodup
  induction entries with
  | nil => simp
  | cons e es ih =>
      by_cases hkey : e.1 = k
      · rw [List.filter_cons_of_neg (by simp [hkey]), ih, lookup_cons_ite, hkey]
        split <;> rfl
      · rw [List.filter_cons_of_pos (by simp [hkey]), lookup_cons_ite, lookup_cons_ite, ih]
        by_cases hk : k' = e.1
        · have hne : k' ≠ k := fun h => hkey (hk.symm.trans h)
          rw [if_pos hk, if_neg hne, if_pos hk]
        · rw [if_neg hk, if_neg hk]

theorem entries_ofList {l : List (K × V)} (h : (l.map Prod.fst).Nodup) :
    (ofList l).entries = l :=
  KeyedList.ofList_of_nodup h

end HashMap

/-- An order in which a table may be iterated. -/
def IterOrder (α : Type*) := { order : List α → List α // ∀ l, (order l).Perm l }

omit [DecidableEq K] in
/-- The values of a table, each computed anew; no result is missing. -/
theorem exists_mapM_values {A B : Type*} {f : A → Option B} {l : List (K × A)}
    (h : ∀ e ∈ l, ∃ b, f e.2 = some b) :
    ∃ l', (l.mapM fun e => (f e.2).map fun b => (e.1, b)) = some l' ∧
      l'.map Prod.fst = l.map Prod.fst ∧
      ∀ k b, (k, b) ∈ l' ↔ ∃ a, (k, a) ∈ l ∧ f a = some b := by
  induction l with
  | nil => exact ⟨[], rfl, rfl, by simp⟩
  | cons e l ih =>
      obtain ⟨b, hb⟩ := h e List.mem_cons_self
      obtain ⟨l', hl', hkeys, hmem⟩ := ih fun x hx => h x (List.mem_cons_of_mem e hx)
      refine ⟨(e.1, b) :: l', by simp [List.mapM_cons, hb, hl'], by simp [hkeys], ?_⟩
      intro k c
      rw [List.mem_cons, hmem]
      constructor
      · rintro (heq | ⟨a, ha, hc⟩)
        · obtain ⟨rfl, rfl⟩ := Prod.mk.inj heq
          exact ⟨e.2, List.mem_cons_self, hb⟩
        · exact ⟨a, List.mem_cons_of_mem e ha, hc⟩
      · rintro ⟨a, ha, hc⟩
        rcases List.mem_cons.mp ha with rfl | ha
        · exact .inl (Prod.ext rfl (Option.some.inj (hc.symm.trans hb)))
        · exact .inr ⟨a, ha, hc⟩

/-! ### Grouping -/

/-- The values of a key. -/
def valuesOf (k : K) (l : List (K × V)) : List V := (l.filter fun e => e.1 = k).map Prod.snd

@[simp] theorem valuesOf_nil (k : K) : valuesOf k ([] : List (K × V)) = [] := rfl

theorem valuesOf_append (k : K) (l l' : List (K × V)) :
    valuesOf k (l ++ l') = valuesOf k l ++ valuesOf k l' := by
  simp [valuesOf]

theorem valuesOf_singleton_self (k : K) (v : V) : valuesOf k [(k, v)] = [v] := by
  simp [valuesOf]

theorem valuesOf_singleton_ne {k k' : K} (h : k' ≠ k) (v : V) : valuesOf k [(k', v)] = [] := by
  simp [valuesOf, h]

/-- A map has one value of a key, or none. -/
theorem valuesOf_entries (m : HashMap K V) (k : K) : valuesOf k m.entries = (m.get k).toList := by
  obtain ⟨entries, hnodup⟩ := m
  show valuesOf k entries = (entries.lookup k).toList
  induction entries with
  | nil => rfl
  | cons e es ih =>
      obtain ⟨hnot, hnodup'⟩ := List.nodup_cons.mp hnodup
      by_cases hk : k = e.1
      · have hrest : es.filter (fun x => x.1 = e.1) = [] := by
          rw [List.filter_eq_nil_iff]
          intro x hx hkey
          exact hnot (of_decide_eq_true hkey ▸ List.mem_map_of_mem hx)
        rw [HashMap.lookup_cons_ite, if_pos hk]
        simp [valuesOf, hk, hrest]
      · rw [HashMap.lookup_cons_ite, if_neg hk, ← ih hnodup']
        simp [valuesOf, Ne.symm hk]

variable {cap : Nat}

/-- `entry(k).or_default().push(v)` on a map of vectors. -/
def pushEntry (entry : K × V) : List (K × ArrayVec V cap) → Option (List (K × ArrayVec V cap))
  | [] => (ArrayVec.empty.push? entry.2).map fun vec => [(entry.1, vec)]
  | e :: es =>
      if e.1 = entry.1 then (e.2.push? entry.2).map fun vec => (e.1, vec) :: es
      else (pushEntry entry es).map fun es => e :: es

/-- Entries grouped by key. -/
def group (l : List (K × V)) : Option (List (K × ArrayVec V cap)) :=
  l.foldlM (fun groups entry => pushEntry entry groups) []

/-- The groups are the values of the keys, none of them empty. -/
structure Grouped (l : List (K × V)) (groups : List (K × ArrayVec V cap)) : Prop where
  nodup : (groups.map Prod.fst).Nodup
  lookup_eq : ∀ k, (groups.lookup k).map ArrayVec.toList =
    if valuesOf k l = [] then none else some (valuesOf k l)

theorem Grouped.mem_iff {l : List (K × V)} {groups : List (K × ArrayVec V cap)}
    (h : Grouped l groups) {k : K} {vec : ArrayVec V cap} :
    (k, vec) ∈ groups ↔ vec.toList = valuesOf k l ∧ valuesOf k l ≠ [] := by
  have hlookup := h.lookup_eq k
  have hget : groups.lookup k = some vec ↔ (k, vec) ∈ groups :=
    HashMap.get_eq_some_iff ⟨groups, h.nodup⟩
  rw [← hget]
  by_cases hnil : valuesOf k l = []
  · rw [if_pos hnil, Option.map_eq_none_iff] at hlookup
    simp [hlookup, hnil]
  · rw [if_neg hnil, Option.map_eq_some_iff] at hlookup
    obtain ⟨vec', hvec', hlist⟩ := hlookup
    rw [hvec', Option.some.injEq, ← hlist]
    constructor
    · rintro rfl
      exact ⟨rfl, hlist ▸ hnil⟩
    · rintro ⟨heq, -⟩
      cases vec
      cases vec'
      cases heq
      rfl

theorem push?_of_lt {vec : ArrayVec V cap} (h : vec.toList.length < cap) (v : V) :
    ∃ vec', vec.push? v = some vec' ∧ vec'.toList = vec.toList ++ [v] := by
  refine ⟨⟨vec.toList ++ [v], by rw [List.length_append]; exact h⟩, ?_, rfl⟩
  rw [ArrayVec.push?, dif_pos h]

/-- A push with room changes the group of its key, and no other one. -/
theorem pushEntry_spec {groups : List (K × ArrayVec V cap)} (hcap : 0 < cap) (entry : K × V)
    (hroom : ∀ vec, groups.lookup entry.1 = some vec → vec.toList.length < cap) :
    ∃ groups' vec', pushEntry entry groups = some groups' ∧
      vec'.toList = ((groups.lookup entry.1).map ArrayVec.toList).getD [] ++ [entry.2] ∧
      (∀ k, groups'.lookup k = if k = entry.1 then some vec' else groups.lookup k) ∧
      groups'.map Prod.fst = if entry.1 ∈ groups.map Prod.fst then groups.map Prod.fst
        else groups.map Prod.fst ++ [entry.1] := by
  induction groups with
  | nil =>
      have hempty : (ArrayVec.empty : ArrayVec V cap).toList.length < cap := hcap
      obtain ⟨vec', hpush, hvec'⟩ := push?_of_lt hempty entry.2
      refine ⟨[(entry.1, vec')], vec', by rw [pushEntry, hpush]; rfl, hvec', ?_, rfl⟩
      intro k
      exact HashMap.lookup_cons_ite k _ _
  | cons e es ih =>
      by_cases hkey : e.1 = entry.1
      · have hlookup : (e :: es).lookup entry.1 = some e.2 := by
          rw [HashMap.lookup_cons_ite, if_pos hkey.symm]
        obtain ⟨vec', hpush, hvec'⟩ := push?_of_lt (hroom e.2 hlookup) entry.2
        refine ⟨(e.1, vec') :: es, vec', by rw [pushEntry, if_pos hkey, hpush]; rfl, ?_, ?_, ?_⟩
        · rw [hlookup, hvec']
          rfl
        · intro k
          rw [HashMap.lookup_cons_ite, HashMap.lookup_cons_ite, hkey]
          by_cases hk : k = entry.1
          · rw [if_pos hk, if_pos hk]
          · rw [if_neg hk, if_neg hk, if_neg hk]
        · simp [hkey]
      · -- the group of another key is passed over
        have hskip : (e :: es).lookup entry.1 = es.lookup entry.1 := by
          rw [HashMap.lookup_cons_ite, if_neg (Ne.symm hkey)]
        obtain ⟨groups', vec', hpush, hvec', hlookup, hkeys⟩ :=
          ih fun vec hvec => hroom vec (hskip.trans hvec)
        refine ⟨e :: groups', vec', by rw [pushEntry, if_neg hkey, hpush]; rfl, ?_, ?_, ?_⟩
        · rw [hskip]
          exact hvec'
        · intro k
          rw [HashMap.lookup_cons_ite, HashMap.lookup_cons_ite, hlookup]
          by_cases hk : k = e.1
          · have hne : k ≠ entry.1 := fun h => hkey (hk.symm.trans h)
            rw [if_pos hk, if_pos hk, if_neg hne]
          · rw [if_neg hk, if_neg hk]
        · rw [List.map_cons, hkeys]
          by_cases hin : entry.1 ∈ es.map Prod.fst
          · simp [hin]
          · simp [hin, Ne.symm hkey]

theorem Grouped.push {l : List (K × V)} {groups : List (K × ArrayVec V cap)}
    (h : Grouped l groups) (hcap : 0 < cap) (entry : K × V)
    (hroom : (valuesOf entry.1 l).length < cap) :
    ∃ groups', pushEntry entry groups = some groups' ∧ Grouped (l ++ [entry]) groups' := by
  have hvalues := h.lookup_eq entry.1
  have hroom' : ∀ vec, groups.lookup entry.1 = some vec → vec.toList.length < cap := by
    intro vec hvec
    rw [hvec, Option.map_some] at hvalues
    split at hvalues
    · cases hvalues
    · rwa [Option.some.inj hvalues]
  have hdefault : ((groups.lookup entry.1).map ArrayVec.toList).getD [] = valuesOf entry.1 l := by
    rw [hvalues]
    split
    · next hnil => exact hnil.symm
    · rfl
  obtain ⟨groups', vec', hpush, hvec', hlookup, hkeys⟩ := pushEntry_spec hcap entry hroom'
  refine ⟨groups', hpush, ?_, ?_⟩
  · rw [hkeys]
    split
    · exact h.nodup
    · next hnot =>
        refine List.nodup_append.mpr ⟨h.nodup, List.nodup_singleton _, ?_⟩
        intro a ha b hb hab
        exact hnot (List.mem_singleton.mp hb ▸ hab ▸ ha)
  · intro k
    rw [hlookup, valuesOf_append]
    by_cases hk : k = entry.1
    · subst hk
      rw [valuesOf_singleton_self, if_pos rfl, if_neg (by simp), Option.map_some, hvec', hdefault]
    · rw [valuesOf_singleton_ne (Ne.symm hk), if_neg hk, List.append_nil, h.lookup_eq]

/-- **Grouping.** Where no key has more values than fit, no push fails. -/
theorem group_spec (hcap : 0 < cap) {l : List (K × V)} (h : ∀ k, (valuesOf k l).length ≤ cap) :
    ∃ groups : List (K × ArrayVec V cap), group l = some groups ∧ Grouped l groups := by
  induction l using List.reverseRecOn with
  | nil => exact ⟨[], rfl, by simp, by simp⟩
  | append_singleton l entry ih =>
      have hroom : (valuesOf entry.1 l).length < cap := by
        have hlast := h entry.1
        rw [valuesOf_append, valuesOf_singleton_self, List.length_append] at hlast
        exact hlast
      obtain ⟨groups, hgroup, hgrouped⟩ := ih fun k => le_trans (by simp [valuesOf_append]) (h k)
      obtain ⟨groups', hpush, hgrouped'⟩ := hgrouped.push hcap entry hroom
      refine ⟨groups', ?_, hgrouped'⟩
      unfold group at hgroup ⊢
      rw [List.foldlM_append, hgroup]
      simp [hpush]

end OnionNetwork.Lib
