import Mathlib.Data.List.MinMax
import Mathlib.Data.Nat.Log
import Mathlib.Data.Set.Function
import OnionNetwork.Merkle.Push

/-!
# What a root binds

The pairs that are combined under a root (`joints`) are all that its binding rests on:
where combining is injective on them, a root determines the leaves of a tree of known
size (`perfect_inj`). The size is not bound: a leaf may be the value of a subtree. Where
no value is below itself, a tree and a smaller one over some of its leaves, in their
order, have different roots (`value_ne_of_sublist`).
-/

namespace OnionNetwork.Merkle.MerkleTree

variable {T : Type} (mh : MerkleHash T)

/-- The root of the tree over some leaves, or over none. -/
theorem root_eq_value (leaves : List T) : (fromBase mh leaves).root = value mh leaves := by
  by_cases hne : leaves = []
  · subst hne
    rw [value]
    simp [fromBase, new, root]
  · have hlength := length_intersperse mh.default hne
    have hpos := List.length_pos_iff.mpr hne
    rw [root_fromBase mh (List.length_pos_iff.mp (by omega)),
      comuteRecur_intersperse hne hlength.ge]

/-- The pairs that are combined, from the root down. -/
def joints : List T → List (T × T)
  | [] => []
  | [_] => []
  | a :: b :: rest =>
      let leaves := a :: b :: rest
      let left := leaves.take (leftLeaves leaves.length)
      let right := leaves.drop (leftLeaves leaves.length)
      (value mh left, value mh right) :: (joints left ++ joints right)
termination_by leaves => leaves.length
decreasing_by
  all_goals
    have hlt : leftLeaves (rest.length + 1 + 1) < rest.length + 1 + 1 := leftLeaves_lt (by omega)
    have hpos := leftLeaves_pos (rest.length + 1 + 1)
    simp only [List.length_take, List.length_drop, List.length_cons]
    omega

variable {mh}

variable (mh) in
/-- At the root of two subtrees of the right sizes. -/
theorem joints_append {l r : List T} (hl : l.length = leftLeaves (l.length + r.length))
    (hr : r ≠ []) :
    joints mh (l ++ r) = (value mh l, value mh r) :: (joints mh l ++ joints mh r) := by
  have hlpos : 0 < l.length := hl ▸ leftLeaves_pos _
  have hrpos : 0 < r.length := List.length_pos_iff.mpr hr
  match hlr : l ++ r with
  | [] | [_] =>
      have hlength := congrArg List.length hlr
      simp only [List.length_append, List.length_cons, List.length_nil] at hlength
      omega
  | a :: b :: rest =>
      rw [joints]
      simp only [← hlr]
      rw [List.length_append, ← hl, List.take_left, List.drop_left]

theorem joints_pair (a b : T) : joints mh [a, b] = [(a, b)] := by
  have hsplit : [a].length = leftLeaves ([a].length + [b].length) :=
    (leftLeaves_eq (t := 0) (Nat.lt_succ_self 1) (Nat.le_refl 2)).symm
  have hjoints := joints_append mh hsplit (List.cons_ne_nil b [])
  simpa [joints, value] using hjoints

/-- The halves of a perfect tree. -/
theorem exists_halves {leaves : List T} {t : Nat} (h : leaves.length = 2 ^ (t + 1)) :
    ∃ l r, leaves = l ++ r ∧ l.length = 2 ^ t ∧ r.length = 2 ^ t ∧
      l.length = leftLeaves (l.length + r.length) ∧ r ≠ [] := by
  have hpos := Nat.two_pow_pos t
  have hdouble : 2 ^ (t + 1) = 2 ^ t + 2 ^ t := by omega
  have htwo : 2 ≤ leaves.length := by omega
  obtain ⟨l, r, rfl, hl, hr⟩ := exists_split htwo
  have hleft : leftLeaves (2 ^ (t + 1)) = 2 ^ t := leftLeaves_eq (by omega) (Nat.le_refl _)
  rw [h, hleft] at hl
  rw [List.length_append] at h
  refine ⟨l, r, rfl, hl, by omega, ?_, hr⟩
  rw [h, hleft, hl]

section

variable {S : Set (T × T)}

/-- The pairs at and below the root of two subtrees. -/
theorem joints_subset_append {l r : List T} (hl : l.length = leftLeaves (l.length + r.length))
    (hr : r ≠ []) : (∀ p ∈ joints mh (l ++ r), p ∈ S) ↔
      (value mh l, value mh r) ∈ S ∧ (∀ p ∈ joints mh l, p ∈ S) ∧ ∀ p ∈ joints mh r, p ∈ S := by
  rw [joints_append mh hl hr, List.forall_mem_cons, List.forall_mem_append]

variable (hinj : Set.InjOn (fun p => mh.combine p.1 p.2) S)

include hinj

/-- Equal roots of two trees have equal children. -/
theorem children_eq {l r l' r' : List T} (hl : l.length = leftLeaves (l.length + r.length))
    (hr : r ≠ []) (hl' : l'.length = leftLeaves (l'.length + r'.length)) (hr' : r' ≠ [])
    (hS : (value mh l, value mh r) ∈ S) (hS' : (value mh l', value mh r') ∈ S)
    (h : value mh (l ++ r) = value mh (l' ++ r')) :
    value mh l = value mh l' ∧ value mh r = value mh r' := by
  rw [value_append hl hr, value_append hl' hr'] at h
  exact Prod.mk.inj (hinj hS hS' h)

/-- A perfect tree of known size is bound. -/
theorem perfect_inj {leaves leaves' : List T} {t : Nat} (hlength : leaves.length = 2 ^ t)
    (hlength' : leaves'.length = 2 ^ t) (hS : ∀ p ∈ joints mh leaves, p ∈ S)
    (hS' : ∀ p ∈ joints mh leaves', p ∈ S) (h : value mh leaves = value mh leaves') :
    leaves = leaves' := by
  induction t generalizing leaves leaves' with
  | zero =>
      obtain ⟨leaf, rfl⟩ := List.length_eq_one_iff.mp hlength
      obtain ⟨leaf', rfl⟩ := List.length_eq_one_iff.mp hlength'
      rw [value, value] at h
      rw [h]
  | succ t ih =>
      obtain ⟨l, r, rfl, hl, hr, hsplit, hne⟩ := exists_halves hlength
      obtain ⟨l', r', rfl, hl', hr', hsplit', hne'⟩ := exists_halves hlength'
      obtain ⟨htop, hleft, hright⟩ := (joints_subset_append hsplit hne).mp hS
      obtain ⟨htop', hleft', hright'⟩ := (joints_subset_append hsplit' hne').mp hS'
      obtain ⟨heql, heqr⟩ := children_eq hinj hsplit hne hsplit' hne' htop htop' h
      rw [ih hl hl' hleft hleft' heql, ih hr hr' hright hright' heqr]

/-- So is one of unknown size, where a leaf is not the value of a subtree. -/
theorem eq_of_value_eq {leaves leaves' : List T} (hne : leaves ≠ []) (hne' : leaves' ≠ [])
    (hS : ∀ p ∈ joints mh leaves, p ∈ S) (hS' : ∀ p ∈ joints mh leaves', p ∈ S)
    (hapart : ∀ leaf ∈ leaves, ∀ p ∈ joints mh leaves', leaf ≠ mh.combine p.1 p.2)
    (hapart' : ∀ leaf ∈ leaves', ∀ p ∈ joints mh leaves, leaf ≠ mh.combine p.1 p.2)
    (h : value mh leaves = value mh leaves') : leaves = leaves' := by
  -- on the number of leaves; both trees are split at their roots
  induction hn : leaves.length using Nat.strong_induction_on generalizing leaves leaves' with
  | _ n ih =>
      have hpos : 0 < leaves.length := List.length_pos_iff.mpr hne
      have hpos' : 0 < leaves'.length := List.length_pos_iff.mpr hne'
      by_cases htwo : 2 ≤ leaves.length
      · obtain ⟨l, r, rfl, hl, hr⟩ := exists_split htwo
        rw [List.length_append] at hl hn
        have hlpos : 0 < l.length := hl ▸ leftLeaves_pos _
        have hrpos : 0 < r.length := List.length_pos_iff.mpr hr
        by_cases htwo' : 2 ≤ leaves'.length
        · -- both children are bound
          obtain ⟨l', r', rfl, hl', hr'⟩ := exists_split htwo'
          rw [List.length_append] at hl'
          have hlne : l ≠ [] := List.length_pos_iff.mp hlpos
          have hlne' : l' ≠ [] := List.length_pos_iff.mp (hl' ▸ leftLeaves_pos _)
          obtain ⟨htop, hleft, hright⟩ := (joints_subset_append hl hr).mp hS
          obtain ⟨htop', hleft', hright'⟩ := (joints_subset_append hl' hr').mp hS'
          obtain ⟨heql, heqr⟩ := children_eq hinj hl hr hl' hr' htop htop' h
          rw [joints_append mh hl' hr'] at hapart
          rw [joints_append mh hl hr] at hapart'
          simp only [List.forall_mem_cons, List.forall_mem_append] at hapart hapart'
          rw [ih l.length (by omega) hlne hlne' hleft hleft'
              (fun leaf hleaf => (hapart.1 leaf hleaf).2.1)
              (fun leaf hleaf => (hapart'.1 leaf hleaf).2.1) heql rfl,
            ih r.length (by omega) hr hr' hright hright'
              (fun leaf hleaf => (hapart.2 leaf hleaf).2.2)
              (fun leaf hleaf => (hapart'.2 leaf hleaf).2.2) heqr rfl]
        · -- a leaf there would be the root here
          obtain ⟨leaf, rfl⟩ := List.length_eq_one_iff.mp (show leaves'.length = 1 by omega)
          rw [value_append hl hr, value] at h
          refine absurd h.symm
            (hapart' leaf (List.mem_singleton.mpr rfl) (value mh l, value mh r) ?_)
          rw [joints_append mh hl hr]
          exact List.mem_cons_self
      · obtain ⟨leaf, rfl⟩ := List.length_eq_one_iff.mp (show leaves.length = 1 by omega)
        by_cases htwo' : 2 ≤ leaves'.length
        · obtain ⟨l', r', rfl, hl', hr'⟩ := exists_split htwo'
          rw [List.length_append] at hl'
          rw [value_append hl' hr', value] at h
          refine absurd h (hapart leaf (List.mem_singleton.mpr rfl) (value mh l', value mh r') ?_)
          rw [joints_append mh hl' hr']
          exact List.mem_cons_self
        · obtain ⟨leaf', rfl⟩ := List.length_eq_one_iff.mp (show leaves'.length = 1 by omega)
          rw [value, value] at h
          rw [h]

end

/-- No value is below itself: the rank grows from the children to the parent. -/
structure Ranked (mh : MerkleHash T) (S : Set (T × T)) (rank : T → Nat) : Prop where
  left : ∀ p ∈ S, rank p.1 < rank (mh.combine p.1 p.2)
  right : ∀ p ∈ S, rank p.2 < rank (mh.combine p.1 p.2)

namespace Ranked

variable {S : Set (T × T)} {rank : T → Nat}

/-- A leaf is below the root, or is it. -/
theorem leaf_le (hrank : Ranked mh S rank) {leaves : List T}
    (hS : ∀ p ∈ joints mh leaves, p ∈ S) {leaf : T} (hleaf : leaf ∈ leaves) :
    rank leaf ≤ rank (value mh leaves) := by
  induction hn : leaves.length using Nat.strong_induction_on generalizing leaves with
  | _ n ih =>
      by_cases htwo : 2 ≤ leaves.length
      · obtain ⟨l, r, rfl, hl, hr⟩ := exists_split htwo
        rw [List.length_append] at hl hn
        have hlpos : 0 < l.length := hl ▸ leftLeaves_pos _
        have hrpos : 0 < r.length := List.length_pos_iff.mpr hr
        obtain ⟨htop, hleft, hright⟩ := (joints_subset_append hl hr).mp hS
        rw [value_append hl hr]
        rcases List.mem_append.mp hleaf with hin | hin
        · exact (ih _ (by omega) hleft hin rfl).trans (hrank.left _ htop).le
        · exact (ih _ (by omega) hright hin rfl).trans (hrank.right _ htop).le
      · have hpos := List.length_pos_of_mem hleaf
        obtain ⟨a, rfl⟩ := List.length_eq_one_iff.mp (show leaves.length = 1 by omega)
        rw [List.mem_singleton.mp hleaf, value]

/-- A leaf is below the root of two leaves or more. -/
theorem leaf_lt (hrank : Ranked mh S rank) {leaves : List T}
    (hS : ∀ p ∈ joints mh leaves, p ∈ S) {leaf : T} (hleaf : leaf ∈ leaves)
    (htwo : 2 ≤ leaves.length) : rank leaf < rank (value mh leaves) := by
  obtain ⟨l, r, rfl, hl, hr⟩ := exists_split htwo
  rw [List.length_append] at hl
  obtain ⟨htop, hleft, hright⟩ := (joints_subset_append hl hr).mp hS
  rw [value_append hl hr]
  rcases List.mem_append.mp hleaf with hin | hin
  · exact (hrank.leaf_le hleft hin).trans_lt (hrank.left _ htop)
  · exact (hrank.leaf_le hright hin).trans_lt (hrank.right _ htop)

/-- Under the same root, the leaves of a deeper perfect tree are below the ones of a
perfect tree less deep. -/
theorem exists_above (hrank : Ranked mh S rank)
    (hinj : Set.InjOn (fun p => mh.combine p.1 p.2) S) {upper lower : List T} {c d : Nat}
    (hupper : upper.length = 2 ^ c) (hlower : lower.length = 2 ^ (c + (d + 1)))
    (hS : ∀ p ∈ joints mh upper, p ∈ S) (hS' : ∀ p ∈ joints mh lower, p ∈ S)
    (h : value mh upper = value mh lower) {leaf : T} (hleaf : leaf ∈ lower) :
    ∃ above ∈ upper, rank leaf < rank above := by
  induction c generalizing upper lower with
  | zero =>
      obtain ⟨above, rfl⟩ := List.length_eq_one_iff.mp hupper
      have hpos := Nat.two_pow_pos d
      have htwo : 2 ≤ lower.length := by
        rw [hlower, Nat.zero_add, Nat.pow_succ]
        omega
      have hlt := hrank.leaf_lt hS' hleaf htwo
      rw [← h, value] at hlt
      exact ⟨above, List.mem_singleton.mpr rfl, hlt⟩
  | succ c ih =>
      rw [Nat.succ_add] at hlower
      obtain ⟨l, r, rfl, hl, hr, hsplit, hne⟩ := exists_halves hupper
      obtain ⟨l', r', rfl, hl', hr', hsplit', hne'⟩ := exists_halves hlower
      obtain ⟨htop, hleft, hright⟩ := (joints_subset_append hsplit hne).mp hS
      obtain ⟨htop', hleft', hright'⟩ := (joints_subset_append hsplit' hne').mp hS'
      obtain ⟨heql, heqr⟩ := children_eq hinj hsplit hne hsplit' hne' htop htop' h
      rcases List.mem_append.mp hleaf with hin | hin
      · obtain ⟨above, habove, hlt⟩ := ih hl hl' hleft hleft' heql hin
        exact ⟨above, List.mem_append_left _ habove, hlt⟩
      · obtain ⟨above, habove, hlt⟩ := ih hr hr' hright hright' heqr hin
        exact ⟨above, List.mem_append_right _ habove, hlt⟩

/-- **Some of the leaves.** A tree does not have the root of the tree over only some of
its leaves. -/
theorem value_ne_of_sublist (hrank : Ranked mh S rank)
    (hinj : Set.InjOn (fun p => mh.combine p.1 p.2) S) {part all : List T}
    (hsub : part.Sublist all) (hlt : part.length < all.length) (hne : part ≠ [])
    (hS : ∀ p ∈ joints mh part, p ∈ S) (hS' : ∀ p ∈ joints mh all, p ∈ S) :
    value mh part ≠ value mh all := by
  intro h
  induction hn : part.length using Nat.strong_induction_on generalizing part all with
  | _ n ih =>
      have hpos : 0 < part.length := List.length_pos_iff.mpr hne
      by_cases htwo : 2 ≤ part.length
      · obtain ⟨c, d, rfl, hc, hd⟩ := exists_split htwo
        have htwo' : 2 ≤ all.length := by omega
        obtain ⟨a, b, rfl, ha, hb⟩ := exists_split htwo'
        rw [List.length_append] at hc ha hn hlt htwo
        rw [List.length_append] at hlt
        have hcpos : 0 < c.length := hc ▸ leftLeaves_pos _
        obtain ⟨htop, hleft, hright⟩ := (joints_subset_append hc hd).mp hS
        obtain ⟨htop', hleft', hright'⟩ := (joints_subset_append ha hb).mp hS'
        obtain ⟨heql, heqr⟩ := children_eq hinj hc hd ha hb htop htop' h
        -- the right subtree of the smaller tree is over only some of the right leaves
        suffices hsome : d.Sublist b ∧ d.length < b.length from
          ih d.length (by omega) hsome.1 hsome.2 hd hright hright' heqr rfl
        have hdepth : (c.length + d.length - 1).log2 ≤ (a.length + b.length - 1).log2 := by
          rw [Nat.log2_eq_log_two, Nat.log2_eq_log_two]
          exact Nat.log_mono_right (by omega)
        obtain ⟨deeper, hdeeper⟩ := Nat.exists_eq_add_of_le hdepth
        rw [leftLeaves] at hc ha
        rw [hdeeper] at ha
        cases deeper with
        | zero =>
            -- the left subtrees are equal
            obtain rfl := perfect_inj hinj hc ha hleft hleft' heql
            exact ⟨(List.append_sublist_append_left _).mp hsub, by omega⟩
        | succ deeper =>
            -- a highest leaf on the left is not on the left of the larger tree, where all
            -- leaves are below such leaves
            obtain ⟨highest, hhighest⟩ : ∃ highest, c.argmax rank = some highest := by
              refine Option.ne_none_iff_exists'.mp fun hnone => ?_
              rw [List.argmax_eq_none.mp hnone] at hcpos
              exact absurd hcpos (lt_irrefl 0)
            have hnot : highest ∉ a := by
              intro hin
              obtain ⟨above, habove, hlt⟩ :=
                hrank.exists_above hinj hc ha hleft hleft' heql hin
              exact absurd (List.le_of_mem_argmax habove hhighest) (not_le.mpr hlt)
            obtain ⟨r, r', hr, hcr, hdr⟩ := List.append_sublist_iff.mp hsub
            have hin : highest ∈ r := hcr.subset (List.argmax_mem hhighest)
            rcases List.append_eq_append_iff.mp hr with ⟨more, rfl, rfl⟩ | ⟨more, rfl, -⟩
            · have hmore : highest ∈ more := (List.mem_append.mp hin).resolve_left hnot
              have hlength := hdr.length_le
              have hmorepos := List.length_pos_of_mem hmore
              refine ⟨hdr.trans (List.sublist_append_right _ _), ?_⟩
              rw [List.length_append]
              omega
            · exact absurd (List.mem_append_left _ hin) hnot
      · -- the single leaf is below the root
        obtain ⟨leaf, rfl⟩ := List.length_eq_one_iff.mp (show part.length = 1 by omega)
        have hbelow := hrank.leaf_lt hS' (hsub.subset (List.mem_singleton.mpr rfl)) (by
          rw [List.length_singleton] at hlt
          omega)
        rw [← h, value] at hbelow
        exact lt_irrefl _ hbelow

end Ranked

end OnionNetwork.Merkle.MerkleTree
