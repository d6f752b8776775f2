import Mathlib.Data.List.Sort
import Mathlib.Data.List.SplitBy
import Mathlib.Data.List.Count
import Mathlib.Data.List.TakeWhile

/-!
# Values selected from a list by key

The most common key of a list, found by sorting it, cutting it into runs of equal
keys and taking the last of the longest runs, and the median key, found by sorting.
Both depend on how often each key occurs and not on the order of the list:

* `mostCommonKey_spec`: the most common key is the one that `Leads`, the largest of the
  keys that occur most often;
* `medianKey_perm`: the median is the same for every order of the list;
* `Leads.of_majority`: a key that more than half of the list has leads.

Of a list sorted by a key, the first element with a property has the least key of all
that have it (`findSome?_of_sorted`); and each of these can be the one that is found,
where the sort does not say in which order equal keys come (`exists_sorted_findSome?`).

A search from the end of a list answers for the last element that has an answer
(`findLast_eq_some`).
-/

namespace OnionNetwork.Lib

variable {α κ : Type*} [LinearOrder κ]

/-- `sort_by_cached_key`, which is stable. -/
def sortByCachedKey (key : α → κ) (l : List α) : List α :=
  l.insertionSort fun a b => key a ≤ key b

/-- `max_by_key`: of several elements with the largest key the last one. -/
def maxByKey (key : α → κ) : List α → Option α
  | [] => none
  | a :: l =>
      match maxByKey key l with
      | none => some a
      | some b => if key a ≤ key b then some b else some a

/-- The key of the longest run of equal keys in a list sorted by them. -/
def longestRun (key : α → κ) (sorted : List α) : Option κ :=
  (maxByKey List.length (sorted.splitBy fun a b => key a == key b)).bind fun run =>
    run.head?.map key

/-- The most common key. -/
def mostCommonKey (key : α → κ) (l : List α) : Option κ := longestRun key (sortByCachedKey key l)

/-- The key in the middle. -/
def medianKey (key : α → κ) (l : List α) : Option κ :=
  (sortByCachedKey key l)[l.length / 2]?.map key

theorem sortByCachedKey_perm (key : α → κ) (l : List α) : (sortByCachedKey key l).Perm l :=
  List.perm_insertionSort _ l

theorem pairwise_sortByCachedKey (key : α → κ) (l : List α) :
    (sortByCachedKey key l).Pairwise fun a b => key a ≤ key b :=
  List.pairwise_insertionSort (fun a b => key a ≤ key b) l

/-! ### The last of the largest -/

theorem maxByKey_spec (key : α → κ) {l : List α} (h : l ≠ []) :
    ∃ a pre post, maxByKey key l = some a ∧ l = pre ++ a :: post ∧
      (∀ b ∈ pre, key b ≤ key a) ∧ ∀ b ∈ post, key b < key a := by
  induction l with
  | nil => exact absurd rfl h
  | cons a l ih =>
      cases l with
      | nil => exact ⟨a, [], [], rfl, rfl, by simp, by simp⟩
      | cons x l =>
          obtain ⟨b, pre, post, hmax, hsplit, hpre, hpost⟩ := ih (List.cons_ne_nil x l)
          rw [maxByKey, hmax]
          by_cases hab : key a ≤ key b
          · refine ⟨b, a :: pre, post, if_pos hab, by rw [hsplit]; rfl, ?_, hpost⟩
            intro c hc
            rcases List.mem_cons.mp hc with rfl | hc
            · exact hab
            · exact hpre c hc
          · have hba : key b < key a := not_le.mp hab
            refine ⟨a, [], x :: l, if_neg hab, rfl, by simp, ?_⟩
            intro c hc
            rw [hsplit] at hc
            rcases List.mem_append.mp hc with hc | hc
            · exact lt_of_le_of_lt (hpre c hc) hba
            · rcases List.mem_cons.mp hc with rfl | hc
              · exact hba
              · exact (hpost c hc).trans hba

/-! ### Runs of equal keys -/

section Runs

variable {key : α → κ} {sorted : List α} {runs : List (List α)}

/-- The list is cut into runs of equal keys, and the keys of the runs increase. -/
structure IsRuns (key : α → κ) (sorted : List α) (runs : List (List α)) : Prop where
  flatten_eq : runs.flatten = sorted
  nil_notMem : [] ∉ runs
  alike : ∀ run ∈ runs, ∀ a ∈ run, ∀ b ∈ run, key a = key b
  increase : runs.Pairwise fun run run' => ∀ a ∈ run, ∀ b ∈ run', key a < key b

theorem exists_runs (hsorted : sorted.Pairwise fun a b => key a ≤ key b) :
    ∃ runs, IsRuns key sorted runs := by
  induction sorted with
  | nil => exact ⟨[], rfl, by simp, by simp, List.Pairwise.nil⟩
  | cons a l ih =>
      obtain ⟨ha, hl⟩ := List.pairwise_cons.mp hsorted
      obtain ⟨runs, hflat, hne, halike, hincrease⟩ := ih hl
      have hbelow : ∀ run ∈ runs, ∀ b ∈ run, key a ≤ key b := fun run hrun b hb =>
        ha b (hflat ▸ List.mem_flatten_of_mem hrun hb)
      match runs with
      | [] =>
          refine ⟨[[a]], by rw [← hflat]; rfl, by simp, ?_, List.pairwise_singleton _ _⟩
          simp
      | [] :: _ => exact absurd List.mem_cons_self hne
      | (b :: run) :: runs =>
          obtain ⟨hfirst, hrest⟩ := List.pairwise_cons.mp hincrease
          by_cases hab : key a = key b
          · -- the element joins the first run
            have hjoin : ∀ x ∈ a :: b :: run, key x = key b := by
              intro x hx
              rcases List.mem_cons.mp hx with rfl | hx
              · exact hab
              · exact halike _ List.mem_cons_self x hx b List.mem_cons_self
            refine ⟨(a :: b :: run) :: runs, by rw [← hflat]; rfl, ?_, ?_, ?_⟩
            · simpa using hne
            · intro r hr x hx y hy
              rcases List.mem_cons.mp hr with rfl | hr
              · rw [hjoin x hx, hjoin y hy]
              · exact halike r (List.mem_cons_of_mem _ hr) x hx y hy
            · refine List.pairwise_cons.mpr ⟨?_, hrest⟩
              intro r hr x hx y hy
              rw [hjoin x hx]
              exact hfirst r hr b List.mem_cons_self y hy
          · -- the element is a run of its own
            have hlt : key a < key b :=
              lt_of_le_of_ne (hbelow _ List.mem_cons_self b List.mem_cons_self) hab
            refine ⟨[a] :: (b :: run) :: runs, by rw [← hflat]; rfl, ?_, ?_, ?_⟩
            · simpa using hne
            · intro r hr x hx y hy
              rcases List.mem_cons.mp hr with rfl | hr
              · rw [List.mem_singleton.mp hx, List.mem_singleton.mp hy]
              · exact halike r hr x hx y hy
            · refine List.pairwise_cons.mpr ⟨?_, hincrease⟩
              intro r hr x hx y hy
              rw [List.mem_singleton.mp hx]
              rcases List.mem_cons.mp hr with rfl | hr
              · rwa [halike _ List.mem_cons_self y hy b List.mem_cons_self]
              · exact hlt.trans (hfirst r hr b List.mem_cons_self y hy)

/-- A sorted list has one such cut, the one into neighbours with equal keys. -/
theorem IsRuns.splitBy_eq (h : IsRuns key sorted runs) :
    (sorted.splitBy fun a b => key a == key b) = runs := by
  rw [← h.flatten_eq]
  refine List.splitBy_flatten h.nil_notMem ?_ ?_
  · intro run hrun
    refine List.Pairwise.isChain ?_
    exact List.pairwise_of_forall_mem_list fun a ha b hb => by
      simpa using h.alike run hrun a ha b hb
  · refine (h.increase.imp_of_mem ?_).isChain
    intro run run' hrun hrun' hlt
    have hne : run ≠ [] := fun hnil => h.nil_notMem (hnil ▸ hrun)
    have hne' : run' ≠ [] := fun hnil => h.nil_notMem (hnil ▸ hrun')
    refine ⟨hne, hne', ?_⟩
    simpa using (hlt _ (List.getLast_mem hne) _ (List.head_mem hne')).ne

theorem isRuns_splitBy (hsorted : sorted.Pairwise fun a b => key a ≤ key b) :
    IsRuns key sorted (sorted.splitBy fun a b => key a == key b) := by
  obtain ⟨runs, hruns⟩ := exists_runs hsorted
  rw [hruns.splitBy_eq]
  exact hruns

/-- A key occurs as often as its run is long. -/
theorem IsRuns.count_eq (h : IsRuns key sorted runs) {pre post : List (List α)} {run : List α}
    (hsplit : runs = pre ++ run :: post) {a : α} (ha : a ∈ run) :
    (sorted.map key).count (key a) = run.length := by
  have hin : run ∈ runs := hsplit ▸ List.mem_append_right _ List.mem_cons_self
  have hincrease := h.increase
  rw [hsplit] at hincrease
  obtain ⟨-, hrest, hpre⟩ := List.pairwise_append.mp hincrease
  have hpost := (List.pairwise_cons.mp hrest).1
  have hself : (run.map key).count (key a) = run.length := by
    rw [List.count_eq_length.mpr, List.length_map]
    intro k hk
    obtain ⟨b, hb, rfl⟩ := List.mem_map.mp hk
    exact h.alike run hin a ha b hb
  have hbefore : (pre.flatten.map key).count (key a) = 0 := by
    rw [List.count_eq_zero]
    intro hk
    obtain ⟨b, hb, heq⟩ := List.mem_map.mp hk
    obtain ⟨r, hr, hbr⟩ := List.mem_flatten.mp hb
    exact (hpre r hr run List.mem_cons_self b hbr a ha).ne heq
  have hafter : (post.flatten.map key).count (key a) = 0 := by
    rw [List.count_eq_zero]
    intro hk
    obtain ⟨b, hb, heq⟩ := List.mem_map.mp hk
    obtain ⟨r, hr, hbr⟩ := List.mem_flatten.mp hb
    exact (hpost r hr a ha b hbr).ne' heq
  rw [← h.flatten_eq, hsplit, List.flatten_append, List.flatten_cons, List.map_append,
    List.map_append, List.count_append, List.count_append, hbefore, hself, hafter]
  omega

end Runs

/-! ### The most common key -/

/-- The key occurs, and every other key occurs less often, or as often and is smaller. -/
def Leads (keys : List κ) (k : κ) : Prop :=
  k ∈ keys ∧ ∀ c ∈ keys, keys.count c < keys.count k ∨ (keys.count c = keys.count k ∧ c ≤ k)

theorem Leads.unique {keys : List κ} {k k' : κ} (h : Leads keys k) (h' : Leads keys k') :
    k = k' := by
  rcases h.2 k' h'.1 with hlt | ⟨heq, hle⟩
  · rcases h'.2 k h.1 with hlt' | ⟨heq', _⟩
    · omega
    · omega
  · rcases h'.2 k h.1 with hlt' | ⟨_, hle'⟩
    · omega
    · exact le_antisymm hle' hle

theorem Leads.perm {keys keys' : List κ} {k : κ} (h : Leads keys k) (hperm : keys.Perm keys') :
    Leads keys' k := by
  refine ⟨hperm.mem_iff.mp h.1, fun c hc => ?_⟩
  rw [← hperm.count_eq, ← hperm.count_eq]
  exact h.2 c (hperm.mem_iff.mpr hc)

/-- A key that more than half of the list has leads. -/
theorem Leads.of_majority {keys : List κ} {k : κ} (h : keys.length < 2 * keys.count k) :
    Leads keys k := by
  refine ⟨List.count_pos_iff.mp (by omega), fun c _ => ?_⟩
  by_cases hc : c = k
  · exact .inr ⟨by rw [hc], hc.le⟩
  · have hsum : keys.count c + keys.count k ≤ keys.length := by
      have hsplit := List.length_eq_countP_add_countP (fun x => x == k) (l := keys)
      have hle : keys.count c ≤ keys.countP fun x => ¬ (x == k) = true := by
        refine List.countP_mono_left fun x _ hx => ?_
        have hxc : x = c := by simpa using hx
        simpa [hxc] using hc
      have hk : keys.count k = keys.countP fun x => x == k := rfl
      omega
    exact .inl (by omega)

/-- **The most common key leads.** -/
theorem mostCommonKey_spec (key : α → κ) {l : List α} (h : l ≠ []) :
    ∃ k, mostCommonKey key l = some k ∧ Leads (l.map key) k := by
  have hperm := sortByCachedKey_perm key l
  have hsorted := pairwise_sortByCachedKey key l
  have hruns := isRuns_splitBy hsorted
  have hne : (sortByCachedKey key l).splitBy (fun a b => key a == key b) ≠ [] := by
    rw [List.splitBy_ne_nil]
    intro hnil
    rw [hnil] at hperm
    exact h hperm.symm.eq_nil
  -- the sorted list falls into runs of one key, and the last of the longest ones is chosen
  obtain ⟨run, pre, post, hmax, hsplit, hpre, hpost⟩ := maxByKey_spec List.length hne
  obtain ⟨a, rest, rfl⟩ : ∃ a rest, run = a :: rest := by
    cases run with
    | nil =>
        refine absurd ?_ hruns.nil_notMem
        rw [hsplit]
        exact List.mem_append_right _ List.mem_cons_self
    | cons a rest => exact ⟨a, rest, rfl⟩
  refine ⟨key a, by rw [mostCommonKey, longestRun, hmax]; rfl, Leads.perm ?_ (hperm.map key)⟩
  have hfirst : a ∈ a :: rest := List.mem_cons_self
  have hcount := hruns.count_eq hsplit hfirst
  refine ⟨?_, fun c hc => ?_⟩
  · rw [← List.count_pos_iff, hcount, List.length_cons]
    omega
  · obtain ⟨b, hb, rfl⟩ := List.mem_map.mp hc
    rw [← hruns.flatten_eq] at hb
    obtain ⟨r, hr, hbr⟩ := List.mem_flatten.mp hb
    obtain ⟨pre', post', hsplit'⟩ := List.append_of_mem hr
    have hincrease := hruns.increase
    rw [hsplit] at hr hincrease
    rw [hcount, hruns.count_eq hsplit' hbr]
    rcases List.mem_append.mp hr with hr | hr
    · -- a run in front: it may be as long, its key is smaller
      have hlt := (List.pairwise_append.mp hincrease).2.2 r hr _ List.mem_cons_self b hbr a
        List.mem_cons_self
      rcases (hpre r hr).lt_or_eq with hshort | hsame
      · exact .inl hshort
      · exact .inr ⟨hsame, hlt.le⟩
    · rcases List.mem_cons.mp hr with rfl | hr
      · exact .inr ⟨rfl, (hruns.alike _ (hsplit ▸ List.mem_append_right _ List.mem_cons_self) b hbr
          a List.mem_cons_self).le⟩
      · exact .inl (hpost r hr)

/-! ### The median -/

theorem map_sortByCachedKey (key : α → κ) (l : List α) :
    (sortByCachedKey key l).map key = (l.map key).insertionSort (· ≤ ·) := by
  exact List.map_insertionSort (fun a b => key a ≤ key b) (· ≤ ·) key l fun _ _ _ _ => Iff.rfl

theorem medianKey_perm (key : α → κ) {l l' : List α} (h : l.Perm l') :
    medianKey key l = medianKey key l' := by
  rw [medianKey, medianKey, ← List.getElem?_map, ← List.getElem?_map, map_sortByCachedKey,
    map_sortByCachedKey, h.length_eq]
  congr 1
  have hperm : ((l.map key).insertionSort (· ≤ ·)).Perm ((l'.map key).insertionSort (· ≤ ·)) :=
    (List.perm_insertionSort (· ≤ ·) _).trans
      ((h.map key).trans (List.perm_insertionSort (· ≤ ·) _).symm)
  exact hperm.eq_of_pairwise (fun a b _ _ => le_antisymm) (List.pairwise_insertionSort _ _)
    (List.pairwise_insertionSort _ _)

theorem medianKey_isSome (key : α → κ) {l : List α} (h : l ≠ []) :
    (medianKey key l).isSome := by
  have hpos := List.length_pos_iff.mpr h
  have hlength : (sortByCachedKey key l).length = l.length := (sortByCachedKey_perm key l).length_eq
  rw [medianKey, Option.isSome_map, List.getElem?_eq_getElem (by omega)]
  rfl

/-! ### The first of a sorted list -/

section First

variable {β : Type*} {key : α → κ} {f : α → Option β} {l : List α} {b : β}

theorem findSome?_of_sorted (hsorted : l.Pairwise fun x y => key x ≤ key y)
    (h : l.findSome? f = some b) :
    ∃ a ∈ l, f a = some b ∧ ∀ a' ∈ l, f a' ≠ none → key a ≤ key a' := by
  obtain ⟨pre, a, post, rfl, ha, hpre⟩ := List.findSome?_eq_some_iff.mp h
  refine ⟨a, List.mem_append_right _ List.mem_cons_self, ha, fun a' ha' hsome => ?_⟩
  rcases List.mem_append.mp ha' with hin | hin
  · exact absurd (hpre a' hin) hsome
  · rcases List.mem_cons.mp hin with rfl | hin
    · exact le_refl _
    · exact List.rel_of_pairwise_cons (List.pairwise_append.mp hsorted).2.1 hin

theorem exists_sorted_findSome? {a : α} (ha : a ∈ l) (hfa : f a = some b)
    (hleast : ∀ a' ∈ l, f a' ≠ none → key a ≤ key a') :
    ∃ sorted : List α, sorted.Perm l ∧ (sorted.Pairwise fun x y => key x ≤ key y) ∧
      sorted.findSome? f = some b := by
  obtain ⟨pre, post, rfl⟩ := List.append_of_mem ha
  have hperm : (a :: (pre ++ post)).Perm (pre ++ a :: post) := List.perm_middle.symm
  refine ⟨sortByCachedKey key (a :: (pre ++ post)), (sortByCachedKey_perm key _).trans hperm,
    pairwise_sortByCachedKey key _, ?_⟩
  -- the element is inserted in front of all that have its key
  have hsplit := List.insertionSort_cons_eq_take_drop (fun x y => key x ≤ key y) a (pre ++ post)
  rw [sortByCachedKey, hsplit, List.findSome?_eq_some_iff]
  refine ⟨_, a, _, rfl, hfa, fun x hx => ?_⟩
  by_contra hsome
  have hless := List.mem_takeWhile_imp hx
  have hmem : x ∈ pre ++ a :: post :=
    hperm.mem_iff.mp (List.mem_cons_of_mem _
      ((List.mem_insertionSort _).mp ((List.takeWhile_sublist _).mem hx)))
  simp [hleast x hmem hsome] at hless

end First

/-! ### The last of a list -/

section Last

variable {α β : Type*}

/-- `iter().enumerate().rev().find_map(f)`. -/
def findLast (f : ℕ → α → Option β) (l : List α) : Option β :=
  l.zipIdx.reverse.findSome? fun e => f e.2 e.1

variable {f : ℕ → α → Option β} {l : List α} {b : β}

@[simp] theorem findLast_nil : findLast f [] = none := rfl

theorem findLast_concat (f : ℕ → α → Option β) (l : List α) (a : α) :
    findLast f (l ++ [a]) = (f l.length a).or (findLast f l) := by
  cases h : f l.length a <;> simp [findLast, List.zipIdx_append, h]

theorem findLast_eq_none :
    findLast f l = none ↔ ∀ i x, l[i]? = some x → f i x = none := by
  simp only [findLast, List.findSome?_eq_none_iff, List.mem_reverse, Prod.forall,
    List.mem_zipIdx_iff_getElem?]
  exact ⟨fun h i x hx => h x i hx, fun h x i hx => h i x hx⟩

/-- The last element that has an answer. -/
theorem findLast_eq_some :
    findLast f l = some b ↔ ∃ i x, l[i]? = some x ∧ f i x = some b ∧
      ∀ j y, i < j → l[j]? = some y → f j y = none := by
  induction l using List.reverseRecOn with
  | nil => simp
  | append_singleton l a ih =>
      rw [findLast_concat]
      constructor
      · intro h
        cases hlast : f l.length a with
        | some c =>
            rw [hlast, Option.some_or] at h
            refine ⟨l.length, a, by simp, hlast.trans h, ?_⟩
            intro j y hj hy
            have hlength : (l ++ [a]).length ≤ j := by simpa using Nat.succ_le_of_lt hj
            rw [List.getElem?_eq_none hlength] at hy
            contradiction
        | none =>
            rw [hlast, Option.none_or] at h
            obtain ⟨i, x, hx, hfx, hlater⟩ := ih.mp h
            obtain ⟨hi, -⟩ := List.getElem?_eq_some_iff.mp hx
            refine ⟨i, x, by rwa [List.getElem?_append_left hi], hfx, ?_⟩
            intro j y hij hy
            by_cases hj : j < l.length
            · exact hlater j y hij (by rwa [List.getElem?_append_left hj] at hy)
            · obtain ⟨rfl, rfl⟩ : j = l.length ∧ a = y := by grind
              exact hlast
      · rintro ⟨i, x, hx, hfx, hlater⟩
        by_cases hi : i < l.length
        · rw [hlater l.length a hi (by simp), Option.none_or]
          rw [List.getElem?_append_left hi] at hx
          refine ih.mpr ⟨i, x, hx, hfx, fun j y hij hy => hlater j y hij ?_⟩
          obtain ⟨hj, -⟩ := List.getElem?_eq_some_iff.mp hy
          rwa [List.getElem?_append_left hj]
        · obtain ⟨rfl, rfl⟩ : i = l.length ∧ a = x := by grind
          rw [hfx, Option.some_or]

end Last

end OnionNetwork.Lib
