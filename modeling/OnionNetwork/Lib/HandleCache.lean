import OnionNetwork.Lib.HashMap
import Mathlib.Logic.Function.Basic

/-!
# Directories behind a cache of open handles

A path leads to a directory or to nothing. Opening it gives a handle, and a handle
stays with the directory it was opened for: the directory can be taken out of the file
system, and another one made under its name, while reads and writes through the handle
still go to the old one. Handles are kept in a cache of bounded size, the one used
last in front.

`Coherent` says that what the cache hands out is what a path leads to.

* `coherent_open`: opening keeps it.
* `coherent_create_iff`, `coherent_remove_iff`: making a directory under a name, and
  taking directories away, keep it exactly when no handle of these names is cached.
-/

namespace OnionNetwork.Lib

/-- Named directories with contents `F`, and the open handles. Directories are numbered
in the order in which they were made. -/
structure HandleStore (K F : Type*) [DecidableEq K] (cap : Nat) where
  dirs : K → Option Nat
  /-- The contents, also of a directory that no path leads to any more. -/
  files : Nat → F
  made : Nat
  cache : HashMap K Nat
  dirs_lt : ∀ k n, dirs k = some n → n < made
  cache_lt : ∀ k n, cache.get k = some n → n < made
  length_le : cache.entries.length ≤ cap

namespace HandleStore

variable {K F : Type*} [DecidableEq K] {cap : Nat}

/-- No open handles. -/
def closed (dirs : K → Option Nat) (files : Nat → F) (made : Nat)
    (dirs_lt : ∀ k n, dirs k = some n → n < made) : HandleStore K F cap where
  dirs
  files
  made
  cache := ⟨[], List.nodup_nil⟩
  dirs_lt
  cache_lt _ _ h := by cases h
  length_le := Nat.zero_le _

/-- A handle of the name is cached. -/
def IsCached (s : HandleStore K F cap) (k : K) : Prop := s.cache.get k ≠ none

instance (s : HandleStore K F cap) (k : K) : Decidable (s.IsCached k) :=
  inferInstanceAs (Decidable (s.cache.get k ≠ none))

/-- The handle that opening the name gives: the cached one, or a new one. -/
def handle (s : HandleStore K F cap) (k : K) : Option Nat := (s.cache.get k).or (s.dirs k)

/-- What the cache hands out is what a path leads to. -/
def Coherent (s : HandleStore K F cap) : Prop := ∀ k, s.handle k = s.dirs k

theorem handle_lt (s : HandleStore K F cap) {k : K} {n : Nat} (h : s.handle k = some n) :
    n < s.made := by
  rcases Option.or_eq_some_iff.mp h with hcached | ⟨-, hdisk⟩
  · exact s.cache_lt k n hcached
  · exact s.dirs_lt k n hdisk

/-- The cache with the handle in front, and without the one that was used longest ago if
it is full. -/
def touch (cap : Nat) (cache : HashMap K Nat) (k : K) (n : Nat) : HashMap K Nat where
  entries := ((k, n) :: cache.entries.filter fun e => e.1 ≠ k).take cap
  nodup := by
    have hwhole : (((k, n) :: cache.entries.filter fun e => e.1 ≠ k).map Prod.fst).Nodup := by
      rw [List.map_cons]
      refine List.nodup_cons.mpr ⟨?_, cache.nodup.sublist (List.filter_sublist.map _)⟩
      intro hmem
      obtain ⟨e, he, hkey⟩ := List.mem_map.mp hmem
      exact absurd hkey (of_decide_eq_true (List.mem_filter.mp he).2)
    exact hwhole.sublist ((List.take_sublist _ _).map _)

/-- What is cached then: the handle, and some of the others. -/
theorem get_touch {cache : HashMap K Nat} {k k' : K} {n n' : Nat}
    (h : (touch cap cache k n).get k' = some n') :
    (k' = k ∧ n' = n) ∨ cache.get k' = some n' := by
  rw [HashMap.get_eq_some_iff] at h
  rcases List.mem_cons.mp (List.mem_of_mem_take h) with heq | hin
  · exact .inl (Prod.mk.inj heq)
  · exact .inr (cache.get_eq_some_iff.mpr (List.mem_filter.mp hin).1)

/-- `LruCache::try_get_or_insert` with the loading of the directory; nothing where there
is neither a handle nor a directory. -/
def tryGetOrInsert (s : HandleStore K F cap) (k : K) : Option (Nat × HandleStore K F cap) :=
  match h : s.handle k with
  | none => none
  | some n => some (n, { s with
      cache := touch cap s.cache k n
      cache_lt := by
        intro k' n' hget
        rcases get_touch hget with ⟨-, rfl⟩ | hold
        · exact s.handle_lt h
        · exact s.cache_lt k' n' hold
      length_le := by
        rw [touch, List.length_take]
        exact Nat.min_le_left _ _ })

/-- A new directory under a name, in place of the one that had it. -/
def create (s : HandleStore K F cap) (k : K) (contents : F) : HandleStore K F cap :=
  { s with
    dirs := Function.update s.dirs k (some s.made)
    files := Function.update s.files s.made contents
    made := s.made + 1
    dirs_lt := by
      intro k' n hn
      rw [Function.update_apply] at hn
      split at hn
      · exact Option.some.inj hn ▸ Nat.lt_succ_self _
      · exact Nat.lt_succ_of_lt (s.dirs_lt k' n hn)
    cache_lt := fun k' n hget => Nat.lt_succ_of_lt (s.cache_lt k' n hget) }

/-- The directories of the names are taken away. -/
def remove (s : HandleStore K F cap) (names : K → Bool) : HandleStore K F cap :=
  { s with
    dirs := fun k => if names k then none else s.dirs k
    dirs_lt := by
      intro k n hn
      split at hn
      · cases hn
      · exact s.dirs_lt k n hn }

/-- What is behind the handle changes. -/
def write (s : HandleStore K F cap) (n : Nat) (contents : F) : HandleStore K F cap :=
  { s with files := Function.update s.files n contents }

/-! ### Opening -/

section Open

variable {s s' : HandleStore K F cap} {k : K} {n : Nat}

theorem tryGetOrInsert_eq_none : s.tryGetOrInsert k = none ↔ s.handle k = none := by
  unfold tryGetOrInsert
  split
  · next h => simp [h]
  · next m h => simp [h]

/-- Opening gives the handle, and changes nothing but the cache. -/
theorem tryGetOrInsert_eq_some (h : s.tryGetOrInsert k = some (n, s')) :
    s.handle k = some n ∧ s'.dirs = s.dirs ∧ s'.files = s.files ∧ s'.made = s.made ∧
      s'.cache = touch cap s.cache k n := by
  unfold tryGetOrInsert at h
  split at h
  · cases h
  · next m hm =>
      obtain ⟨rfl, rfl⟩ := Prod.mk.inj (Option.some.inj h)
      exact ⟨hm, rfl, rfl, rfl, rfl⟩

theorem exists_tryGetOrInsert (h : s.handle k = some n) :
    ∃ s', s.tryGetOrInsert k = some (n, s') := by
  unfold tryGetOrInsert
  split
  · next hnone => rw [h] at hnone; cases hnone
  · next m hm =>
      obtain rfl := Option.some.inj (h.symm.trans hm)
      exact ⟨_, rfl⟩

theorem coherent_iff : s.Coherent ↔ ∀ k n, s.cache.get k = some n → s.dirs k = some n := by
  constructor
  · intro h k n hget
    rw [← h k, handle, hget, Option.some_or]
  · intro h k
    cases hcached : s.cache.get k with
    | none => rw [handle, hcached, Option.none_or]
    | some n =>
        rw [handle, hcached, Option.some_or]
        exact (h k n hcached).symm

/-- A name that is not cached is opened where its path leads. -/
theorem handle_of_not_cached (h : ¬ s.IsCached k) : s.handle k = s.dirs k := by
  rw [handle, not_not.mp h, Option.none_or]

/-- Opening keeps coherence: the handle in front is the one that the path leads to. -/
theorem coherent_open (h : s.Coherent) (hopen : s.tryGetOrInsert k = some (n, s')) :
    s'.Coherent := by
  obtain ⟨hhandle, hdirs, -, -, hcache⟩ := tryGetOrInsert_eq_some hopen
  rw [coherent_iff]
  intro k' n' hget
  rw [hcache] at hget
  rw [hdirs]
  rcases get_touch hget with ⟨rfl, rfl⟩ | hold
  · rwa [← h k']
  · exact coherent_iff.mp h k' n' hold

/-- What was opened is what the cache hands out from then on. -/
theorem handle_open (hcap : 0 < cap) (hopen : s.tryGetOrInsert k = some (n, s')) :
    s'.handle k = some n := by
  obtain ⟨-, -, -, -, hcache⟩ := tryGetOrInsert_eq_some hopen
  have hget : s'.cache.get k = some n := by
    rw [hcache, HashMap.get_eq_some_iff]
    obtain ⟨c, rfl⟩ := Nat.exists_eq_add_one_of_ne_zero (Nat.pos_iff_ne_zero.mp hcap)
    exact List.mem_cons_self
  rw [handle, hget, Option.some_or]

/-- Under coherence only names of directories are cached. -/
theorem Coherent.dirs_of_cached (h : s.Coherent) (hk : s.IsCached k) : s.dirs k ≠ none := by
  obtain ⟨n, hn⟩ := Option.ne_none_iff_exists'.mp hk
  rw [coherent_iff.mp h k n hn]
  exact Option.some_ne_none n

end Open

/-! ### Changing what paths lead to -/

section Change

variable {s : HandleStore K F cap} {k : K}

@[simp] theorem dirs_create_self (s : HandleStore K F cap) (k : K) (contents : F) :
    (s.create k contents).dirs k = some s.made := by
  simp [create]

@[simp] theorem files_create_self (s : HandleStore K F cap) (k : K) (contents : F) :
    (s.create k contents).files s.made = contents := by
  simp [create]

theorem dirs_create_ne (s : HandleStore K F cap) {k k' : K} (h : k' ≠ k) (contents : F) :
    (s.create k contents).dirs k' = s.dirs k' := by
  simp [create, h]

@[simp] theorem files_write_self (s : HandleStore K F cap) (n : Nat) (contents : F) :
    (s.write n contents).files n = contents := by
  simp [write]

/-- A cached handle of the name is of an older directory. -/
theorem handle_create_ne (s : HandleStore K F cap) (contents : F) (hk : s.IsCached k) :
    (s.create k contents).handle k ≠ some s.made := by
  intro hhandle
  obtain ⟨n, hn⟩ := Option.ne_none_iff_exists'.mp hk
  have hcached : (s.create k contents).handle k = some n := by
    show (s.cache.get k).or _ = some n
    rw [hn, Option.some_or]
  obtain rfl := Option.some.inj (hcached.symm.trans hhandle)
  exact absurd (s.cache_lt k _ hn) (Nat.lt_irrefl _)

/-- **A new directory** under a name is what the cache hands out exactly when it has no
handle of the name. -/
theorem coherent_create_iff (h : s.Coherent) (contents : F) :
    (s.create k contents).Coherent ↔ ¬ s.IsCached k := by
  constructor
  · intro hnew hk
    exact s.handle_create_ne contents hk ((hnew k).trans (s.dirs_create_self k contents))
  · intro hk
    rw [coherent_iff]
    intro k' n hget
    have hne : k' ≠ k := by
      rintro rfl
      exact hk (ne_of_eq_of_ne hget (Option.some_ne_none n))
    rw [dirs_create_ne s hne]
    exact coherent_iff.mp h k' n hget

/-- A name can be opened after a directory was made for it. The handle is the one of that
directory exactly when none was cached. -/
theorem exists_open_create (s : HandleStore K F cap) (k : K) (contents : F) :
    ∃ n s', (s.create k contents).tryGetOrInsert k = some (n, s') ∧
      (n = s.made ↔ ¬ s.IsCached k) := by
  by_cases hk : s.IsCached k
  · obtain ⟨n, hn⟩ : ∃ n, (s.create k contents).handle k = some n := by
      obtain ⟨n, hn⟩ := Option.ne_none_iff_exists'.mp hk
      exact ⟨n, by rw [handle, show (s.create k contents).cache = s.cache from rfl, hn,
        Option.some_or]⟩
    obtain ⟨s', hopen⟩ := exists_tryGetOrInsert hn
    refine ⟨n, s', hopen, iff_of_false (fun heq => ?_) (not_not.mpr hk)⟩
    exact s.handle_create_ne contents hk (hn.trans (congrArg some heq))
  · have hfresh : (s.create k contents).handle k = some s.made := by
      rw [handle_of_not_cached (s := s.create k contents) hk, dirs_create_self]
    obtain ⟨s', hopen⟩ := exists_tryGetOrInsert hfresh
    exact ⟨s.made, s', hopen, iff_of_true rfl hk⟩

/-- Making a directory and opening its name keeps coherence exactly when no handle of the
name was cached. -/
theorem coherent_open_create_iff {contents : F} {n : Nat} {s' : HandleStore K F cap}
    (hcap : 0 < cap) (h : s.Coherent)
    (hopen : (s.create k contents).tryGetOrInsert k = some (n, s')) :
    s'.Coherent ↔ ¬ s.IsCached k := by
  constructor
  · intro hnew hk
    obtain ⟨-, hdirs, -⟩ := tryGetOrInsert_eq_some hopen
    have hhandle := (handle_open hcap hopen).symm.trans (hnew k)
    rw [hdirs, dirs_create_self] at hhandle
    exact s.handle_create_ne contents hk ((tryGetOrInsert_eq_some hopen).1.trans hhandle)
  · intro hk
    exact coherent_open ((coherent_create_iff h contents).mpr hk) hopen

/-- Where none was cached, the handle is the one of the new directory. -/
theorem open_create_of_not_cached {contents : F} {n : Nat} {s' : HandleStore K F cap}
    (hk : ¬ s.IsCached k) (hopen : (s.create k contents).tryGetOrInsert k = some (n, s')) :
    s'.dirs k = some n ∧ s'.files n = contents := by
  obtain ⟨hhandle, hdirs, hfiles, -⟩ := tryGetOrInsert_eq_some hopen
  rw [handle_of_not_cached (s := s.create k contents) hk, dirs_create_self] at hhandle
  rw [hdirs, hfiles, ← Option.some.inj hhandle]
  exact ⟨s.dirs_create_self k contents, s.files_create_self k contents⟩

/-- **Directories that are taken away** are not handed out any more exactly when the
cache has no handles of their names. -/
theorem coherent_remove_iff (h : s.Coherent) (names : K → Bool) :
    (s.remove names).Coherent ↔ ∀ k, names k = true → ¬ s.IsCached k := by
  constructor
  · intro hnew k hname hk
    have hexists := hnew.dirs_of_cached (k := k) hk
    simp [remove, hname] at hexists
  · intro hnone
    rw [coherent_iff]
    intro k n hget
    have hout : names k = false := by
      cases hname : names k with
      | false => rfl
      | true => exact absurd (ne_of_eq_of_ne hget (Option.some_ne_none n)) (hnone k hname)
    simpa [remove, hout] using coherent_iff.mp h k n hget

end Change

end HandleStore

end OnionNetwork.Lib
