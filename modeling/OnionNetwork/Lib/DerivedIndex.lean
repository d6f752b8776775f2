import OnionNetwork.Lib.HashMap

/-!
# An index derived from a table

A table of values under names, and an index from a key of each value to its name.
`Indexes` says that the index is the one of the table: a key leads to a name exactly if the value
under the name has the key. So no two values have the same key.

* `indexes_add_iff`, `indexes_rekey_iff`, `indexes_replace_iff` — what a change of the table and
  of the index keeps of that, exactly.
-/

namespace OnionNetwork.Lib

variable {H N V : Type*} [DecidableEq H] [DecidableEq N]

/-- The index leads from the keys to the names of the values that have them. -/
def Indexes (key : V → H) (index : HashMap H N) (table : HashMap N V) : Prop :=
  ∀ h n, index.get h = some n ↔ ∃ v, table.get n = some v ∧ key v = h

/-- No other value has the key. -/
def KeyFree (key : V → H) (table : HashMap N V) (n : N) (h : H) : Prop :=
  ∀ e ∈ table.entries, e.1 ≠ n → key e.2 ≠ h

instance (key : V → H) (table : HashMap N V) (n : N) (h : H) :
    Decidable (KeyFree key table n h) := inferInstanceAs (Decidable (∀ _ ∈ _, _ → _))

variable {key : V → H} {index : HashMap H N} {table : HashMap N V} {n : N} {v v' : V}

omit [DecidableEq H] in
theorem keyFree_iff {h : H} : KeyFree key table n h ↔
    ∀ n' w, table.get n' = some w → n' ≠ n → key w ≠ h := by
  constructor
  · intro hfree n' w hw
    exact hfree (n', w) (table.get_eq_some_iff.mp hw)
  · rintro hfree ⟨n', w⟩ hmem
    exact hfree n' w (table.get_eq_some_iff.mpr hmem)

theorem Indexes.get (h : Indexes key index table) (hat : table.get n = some v) :
    index.get (key v) = some n := (h _ _).mpr ⟨v, hat, rfl⟩

/-- A key is the key of one value. -/
theorem Indexes.name_eq (h : Indexes key index table) {n' : N} (hat : table.get n = some v)
    (hat' : table.get n' = some v') (hkey : key v = key v') : n = n' := by
  have hget := h.get hat
  rw [hkey, h.get hat'] at hget
  exact (Option.some.inj hget).symm

/-- **A value under a new name.** -/
theorem indexes_add_iff (h : Indexes key index table) (hnew : table.get n = none) :
    Indexes key (index.insert (key v) n) (table.insert n v) ↔ KeyFree key table n (key v) := by
  rw [keyFree_iff]
  constructor
  · intro hafter n' w hw hne hkey
    have hthere : (table.insert n v).get n' = some w := by
      rw [HashMap.get_insert, if_neg hne, hw]
    have hhere : (table.insert n v).get n = some v := by
      rw [HashMap.get_insert, if_pos rfl]
    exact hne (hafter.name_eq hthere hhere hkey)
  · intro hfree k m
    rw [HashMap.get_insert, HashMap.get_insert]
    by_cases hm : m = n
    · subst hm
      rw [if_pos rfl]
      by_cases hk : k = key v
      · rw [if_pos hk]
        exact iff_of_true rfl ⟨v, rfl, hk.symm⟩
      · rw [if_neg hk, h k m, hnew]
        constructor
        · rintro ⟨w, hw, -⟩
          cases hw
        · rintro ⟨w, hw, hkey⟩
          exact absurd (Option.some.inj hw ▸ hkey.symm) hk
    · rw [if_neg hm]
      by_cases hk : k = key v
      · rw [if_pos hk]
        constructor
        · intro hnm
          exact absurd (Option.some.inj hnm).symm hm
        · rintro ⟨w, hw, hkey⟩
          exact absurd (hkey.trans hk) (hfree m w hw hm)
      · rw [if_neg hk]
        exact h k m

/-- **A value gets another key**, and the index is told. -/
theorem indexes_rekey_iff (h : Indexes key index table) (hat : table.get n = some v) :
    Indexes key ((index.remove (key v)).insert (key v') n) (table.insert n v') ↔
      KeyFree key table n (key v') := by
  rw [keyFree_iff]
  constructor
  · intro hafter n' w hw hne hkey
    have hthere : (table.insert n v').get n' = some w := by
      rw [HashMap.get_insert, if_neg hne, hw]
    have hhere : (table.insert n v').get n = some v' := by
      rw [HashMap.get_insert, if_pos rfl]
    exact hne (hafter.name_eq hthere hhere hkey)
  · intro hfree k m
    rw [HashMap.get_insert, HashMap.get_insert, HashMap.get_remove]
    by_cases hm : m = n
    · subst hm
      rw [if_pos rfl]
      by_cases hk : k = key v'
      · rw [if_pos hk]
        exact iff_of_true rfl ⟨v', rfl, hk.symm⟩
      · rw [if_neg hk]
        constructor
        · intro hget
          split at hget
          · cases hget
          · next hold =>
              -- the name had only the key that was removed
              obtain ⟨w, hw, hkey⟩ := (h k m).mp hget
              rw [hat] at hw
              exact absurd (Option.some.inj hw ▸ hkey.symm) hold
        · rintro ⟨w, hw, hkey⟩
          exact absurd (Option.some.inj hw ▸ hkey.symm) hk
    · rw [if_neg hm]
      by_cases hk : k = key v'
      · rw [if_pos hk]
        constructor
        · intro hnm
          exact absurd (Option.some.inj hnm).symm hm
        · rintro ⟨w, hw, hkey⟩
          exact absurd (hkey.trans hk) (hfree m w hw hm)
      · rw [if_neg hk]
        by_cases hold : k = key v
        · rw [if_pos hold]
          constructor
          · intro hnone
            cases hnone
          · rintro ⟨w, hw, hkey⟩
            exact absurd (h.name_eq hw hat (hkey.trans hold)) hm
        · rw [if_neg hold]
          exact h k m

/-- **A value is replaced**, and the index is not told. -/
theorem indexes_replace_iff (h : Indexes key index table) (hat : table.get n = some v) :
    Indexes key index (table.insert n v') ↔ key v' = key v := by
  constructor
  · intro hafter
    obtain ⟨w, hw, hkey⟩ := (hafter _ _).mp (h.get hat)
    rw [HashMap.get_insert, if_pos rfl] at hw
    rw [Option.some.inj hw]
    exact hkey
  · intro hsame k m
    rw [h k m, HashMap.get_insert]
    by_cases hm : m = n
    · subst hm
      rw [if_pos rfl, hat]
      simp [hsame]
    · rw [if_neg hm]

/-- **An index that is made from the table.** -/
theorem indexes_ofTable_iff (table : HashMap N V) :
    Indexes key (HashMap.ofList (table.entries.map fun e => (key e.2, e.1))) table ↔
      (table.entries.map fun e => key e.2).Nodup := by
  have hkeys : (table.entries.map fun e => (key e.2, e.1)).map Prod.fst =
      table.entries.map fun e => key e.2 := by
    rw [List.map_map]
    rfl
  constructor
  · intro h
    rw [List.nodup_map_iff_inj_on]
    · rintro ⟨m, w⟩ hw ⟨m', w'⟩ hw' hkey
      obtain rfl :=
        h.name_eq (table.get_eq_some_iff.mpr hw) (table.get_eq_some_iff.mpr hw') hkey
      have hvalue := (table.get_eq_some_iff.mpr hw).symm.trans (table.get_eq_some_iff.mpr hw')
      rw [Option.some.inj hvalue]
    · exact table.nodup.of_map
  · intro hnodup k m
    rw [HashMap.get_eq_some_iff, HashMap.entries_ofList (by rw [hkeys]; exact hnodup)]
    simp only [List.mem_map, HashMap.get_eq_some_iff]
    constructor
    · rintro ⟨⟨m', w⟩, hmem, heq⟩
      obtain ⟨rfl, rfl⟩ := Prod.mk.inj heq
      exact ⟨w, hmem, rfl⟩
    · rintro ⟨w, hmem, rfl⟩
      exact ⟨(m, w), hmem, rfl⟩

end OnionNetwork.Lib
