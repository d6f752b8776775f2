import OnionNetwork.Merkle.Tree

/-!
# The Merkle tree, leaf by leaf

The left-complete tree over a list of leaves: the left subtree holds the largest
power of two of them that leaves something for the right one. `value` is what it
evaluates to, `layout` its nodes in order. `from_base` computes them
(`nodes_fromBase`), and `push` takes the tree over some leaves to the one over one
leaf more (`push_layout`): walking up from the new leaf, each step handles one bit
of the number of old leaves.
-/

namespace OnionNetwork.Merkle

/-- The leaves of the left subtree. -/
def leftLeaves (n : Nat) : Nat := 2 ^ (n - 1).log2

theorem leftLeaves_pos (n : Nat) : 0 < leftLeaves n := Nat.two_pow_pos _

theorem leftLeaves_lt {n : Nat} (h : 2 ≤ n) : leftLeaves n < n := by
  have hle : leftLeaves n ≤ n - 1 := Nat.log2_self_le (by omega)
  omega

theorem leftLeaves_eq {n t : Nat} (hlow : 2 ^ t < n) (hhigh : n ≤ 2 ^ (t + 1)) :
    leftLeaves n = 2 ^ t := by
  have hlog : (n - 1).log2 = t := (Nat.log2_eq_iff (by omega)).mpr ⟨by omega, by omega⟩
  rw [leftLeaves, hlog]

/-- In an array of nodes the root comes behind the left subtree. -/
theorem midPoint_eq {n : Nat} (h : 2 ≤ n) : midPoint (2 * n - 1) = 2 * leftLeaves n - 1 := by
  have htwo : 2 * n - 1 - 1 = 2 * (n - 1) := by omega
  rw [midPoint, nextPowerOfTwo, if_neg (by omega), htwo, Nat.log2_two_mul (by omega), Nat.pow_succ,
    Nat.mul_div_cancel _ (by decide), Nat.pow_succ, leftLeaves, Nat.mul_comm]

namespace MerkleTree

variable {T : Type} (mh : MerkleHash T)

/-- The value of the left-complete tree over the leaves. -/
def value : List T → T
  | [] => mh.default
  | [leaf] => leaf
  | a :: b :: rest =>
      let leaves := a :: b :: rest
      mh.combine (value (leaves.take (leftLeaves leaves.length)))
        (value (leaves.drop (leftLeaves leaves.length)))
termination_by leaves => leaves.length
decreasing_by
  all_goals
    have hlt : leftLeaves (rest.length + 1 + 1) < rest.length + 1 + 1 := leftLeaves_lt (by omega)
    have hpos := leftLeaves_pos (rest.length + 1 + 1)
    simp only [List.length_take, List.length_drop, List.length_cons]
    omega

/-- The nodes of the left-complete tree, in order. -/
def layout : List T → List T
  | [] => []
  | [leaf] => [leaf]
  | a :: b :: rest =>
      let leaves := a :: b :: rest
      layout (leaves.take (leftLeaves leaves.length)) ++
        value mh leaves :: layout (leaves.drop (leftLeaves leaves.length))
termination_by leaves => leaves.length
decreasing_by
  all_goals
    have hlt : leftLeaves (rest.length + 1 + 1) < rest.length + 1 + 1 := leftLeaves_lt (by omega)
    have hpos := leftLeaves_pos (rest.length + 1 + 1)
    simp only [List.length_take, List.length_drop, List.length_cons]
    omega

variable {mh}

/-- Two subtrees of the right sizes make a tree. -/
theorem value_append {l r : List T} (hl : l.length = leftLeaves (l.length + r.length))
    (hr : r ≠ []) : value mh (l ++ r) = mh.combine (value mh l) (value mh r) := by
  have hlpos : 0 < l.length := hl ▸ leftLeaves_pos _
  have hrpos : 0 < r.length := List.length_pos_iff.mpr hr
  match hlr : l ++ r with
  | [] | [_] =>
      have hlength := congrArg List.length hlr
      simp only [List.length_append, List.length_cons, List.length_nil] at hlength
      omega
  | a :: b :: rest =>
      rw [value]
      simp only [← hlr]
      rw [List.length_append, ← hl, List.take_left, List.drop_left]

theorem layout_append {l r : List T} (hl : l.length = leftLeaves (l.length + r.length))
    (hr : r ≠ []) : layout mh (l ++ r) = layout mh l ++ value mh (l ++ r) :: layout mh r := by
  have hlpos : 0 < l.length := hl ▸ leftLeaves_pos _
  have hrpos : 0 < r.length := List.length_pos_iff.mpr hr
  match hlr : l ++ r with
  | [] | [_] =>
      have hlength := congrArg List.length hlr
      simp only [List.length_append, List.length_cons, List.length_nil] at hlength
      omega
  | a :: b :: rest =>
      rw [layout]
      simp only [← hlr]
      rw [List.length_append, ← hl, List.take_left, List.drop_left]

/-- A list of two leaves or more is taken apart. -/
theorem exists_split {leaves : List T} (h : 2 ≤ leaves.length) :
    ∃ l r, leaves = l ++ r ∧ l.length = leftLeaves leaves.length ∧ r ≠ [] := by
  have hlt := leftLeaves_lt h
  refine ⟨leaves.take (leftLeaves leaves.length), leaves.drop (leftLeaves leaves.length),
    (List.take_append_drop _ _).symm, ?_, ?_⟩
  · rw [List.length_take]
    omega
  · rw [Ne, List.drop_eq_nil_iff]
    omega

/-! ### Building from the base -/

theorem intersperse_append (sep : T) {l r : List T} (hl : l ≠ []) (hr : r ≠ []) :
    (l ++ r).intersperse sep = l.intersperse sep ++ sep :: r.intersperse sep := by
  induction l with
  | nil => exact absurd rfl hl
  | cons a l ih =>
      cases l with
      | nil =>
          cases r with
          | nil => exact absurd rfl hr
          | cons b r => rfl
      | cons b l =>
          have htail := ih (List.cons_ne_nil _ _)
          rw [List.cons_append, List.cons_append, List.intersperse_cons_cons, ← List.cons_append,
            htail]
          rfl

theorem length_intersperse (sep : T) {l : List T} (hl : l ≠ []) :
    (l.intersperse sep).length = 2 * l.length - 1 := by
  induction l with
  | nil => exact absurd rfl hl
  | cons a l ih =>
      cases l with
      | nil => rfl
      | cons b l =>
          have htail := ih (List.cons_ne_nil _ _)
          rw [List.intersperse_cons_cons, List.length_cons, List.length_cons, htail]
          simp only [List.length_cons]
          omega

/-- `comute_recur` fills in the tree over the leaves. -/
theorem comuteRecur_intersperse {leaves : List T} (hne : leaves ≠ []) {fuel : Nat}
    (hfuel : 2 * leaves.length - 1 ≤ fuel) :
    comuteRecur mh fuel (leaves.intersperse mh.default) = (layout mh leaves, value mh leaves) := by
  induction fuel generalizing leaves with
  | zero =>
      have hpos := List.length_pos_iff.mpr hne
      omega
  | succ fuel ih =>
      by_cases htwo : 2 ≤ leaves.length
      · obtain ⟨l, r, rfl, hl, hr⟩ := exists_split htwo
        rw [List.length_append] at hl htwo hfuel
        have hlne : l ≠ [] := List.length_pos_iff.mp (hl ▸ leftLeaves_pos _)
        have hlpos := List.length_pos_iff.mpr hlne
        have hrpos := List.length_pos_iff.mpr hr
        have hlength : ((l ++ r).intersperse mh.default).length =
            2 * (l.length + r.length) - 1 := by
          rw [length_intersperse mh.default (by simp [hlne]), List.length_append]
        have hmid : midPoint (2 * (l.length + r.length) - 1) =
            (l.intersperse mh.default).length := by
          rw [midPoint_eq htwo, ← hl, length_intersperse mh.default hlne]
        rw [comuteRecur_succ mh (by omega), hlength, hmid, intersperse_append mh.default hlne hr,
          List.take_left, List.drop_append, List.drop_of_length_le (Nat.le_succ _)]
        simp only [Nat.add_sub_cancel_left, List.nil_append, List.drop_succ_cons, List.drop_zero]
        rw [ih hlne (by omega), ih hr (by omega), layout_append hl hr, value_append hl hr]
      · match leaves, hne with
        | [leaf], _ => simp [comuteRecur, layout, value]
        | _ :: _ :: _, _ => simp at htwo

/-- `from_base` lays out the left-complete tree. -/
theorem nodes_fromBase {leaves : List T} (hne : leaves ≠ []) :
    (fromBase mh leaves).nodes = layout mh leaves := by
  have hbase : leaves.intersperse mh.default ≠ [] := by
    have hpos := List.length_pos_iff.mpr hne
    rw [← List.length_pos_iff, length_intersperse mh.default hne]
    omega
  simp only [fromBase, dif_neg hbase]
  rw [comuteRecur_intersperse hne (length_intersperse mh.default hne).ge]

theorem length_layout {leaves : List T} (hne : leaves ≠ []) :
    (layout mh leaves).length = 2 * leaves.length - 1 := by
  have hfill : comuteRecur mh (2 * leaves.length - 1) (leaves.intersperse mh.default) =
      (layout mh leaves, value mh leaves) := comuteRecur_intersperse hne (Nat.le_refl _)
  rw [← length_intersperse mh.default hne,
    ← length_comuteRecur mh (2 * leaves.length - 1) (leaves.intersperse mh.default), hfill]

/-- The root is in the middle. -/
theorem getElem?_layout {leaves : List T} (hne : leaves ≠ []) :
    (layout mh leaves)[midPoint (2 * leaves.length - 1)]? = some (value mh leaves) := by
  have hlength := length_intersperse mh.default hne
  have hpos := List.length_pos_iff.mpr hne
  have hroot := @getElem?_comuteRecur T mh (2 * leaves.length - 1)
    (leaves.intersperse mh.default) (by omega) (by omega)
  rwa [comuteRecur_intersperse hne (Nat.le_refl _), hlength] at hroot

/-! ### Pushing a leaf -/

/-- The variables of the loop in `push`. -/
structure Climb (T : Type) where
  nodes : List T
  cursor : Nat
  clamp : Nat
  width : Nat
  directionMask : Nat

variable (mh) in
/-- The body of the loop; nothing where the source would index out of bounds. -/
def Climb.step (c : Climb T) : Option (Climb T) :=
  if c.directionMask % 2 = 0 then
    some { c with
      cursor := c.cursor + c.width
      width := c.width * 2
      directionMask := c.directionMask / 2 }
  else if c.width ≤ c.cursor ∧ c.width ≤ c.cursor - c.width ∧
      c.cursor - c.width < c.nodes.length then
    let cursor := c.cursor - c.width
    match c.nodes[cursor - c.width]?, c.nodes[min (cursor + c.width) c.clamp]? with
    | some left, some right =>
        some
          { nodes := c.nodes.set cursor (mh.combine left right)
            cursor
            clamp := cursor
            width := c.width * 2
            directionMask := c.directionMask / 2 }
    | _, _ => none
  else none

variable (mh) in
/-- So many rounds of the loop. -/
def Climb.rounds : Nat → Climb T → Option (Climb T)
  | 0, c => some c
  | n + 1, c => (Climb.rounds n c).bind fun c => c.step mh

/-- The loop keeps the number of nodes. -/
theorem Climb.length_step {c c' : Climb T} (h : c.step mh = some c') :
    c'.nodes.length = c.nodes.length := by
  unfold Climb.step at h
  split at h
  · cases h
    rfl
  · split at h
    · dsimp only at h
      split at h
      · cases h
        exact List.length_set
      · cases h
    · cases h

theorem Climb.length_rounds {n : Nat} {c c' : Climb T} (h : c.rounds mh n = some c') :
    c'.nodes.length = c.nodes.length := by
  induction n generalizing c' with
  | zero =>
      cases h
      rfl
  | succ n ih =>
      obtain ⟨c₁, hrounds, hstep⟩ := Option.bind_eq_some_iff.mp h
      rw [Climb.length_step hstep, ih hrounds]

/-- Where `push` starts: at the new leaf. -/
def Climb.start (nodes : List T) : Climb T where
  nodes := nodes
  cursor := nodes.length - 1
  clamp := nodes.length - 1
  width := 1
  directionMask := nodes.length / 2

variable (mh) in
/-- `MerkleTree::push`. -/
def push (tree : MerkleTree T) (leaf : T) : Option (MerkleTree T) :=
  let nodes := tree.nodes ++ [mh.default, leaf]
  match h : (Climb.start nodes).rounds mh nodes.length.log2 with
  | some c => some ⟨c.nodes, by
      rw [Climb.length_rounds h]
      show 0 < nodes.length
      simp [nodes]⟩
  | none => none

/-- `MerkleTree::len`. -/
def len (tree : MerkleTree T) : Nat := tree.nodes.length / 2 + 1

variable (mh) in
/-- The nodes in front of the loop: without old leaves the new one alone. -/
def extended (leaves : List T) (leaf : T) : List T :=
  if leaves = [] then [leaf] else layout mh leaves ++ [mh.default, leaf]

/-- Where the root of a tree is in its array. -/
def rootIndex (n : Nat) : Nat := midPoint (2 * n - 1)

theorem rootIndex_eq {n : Nat} (h : 2 ≤ n) : rootIndex n = 2 * leftLeaves n - 1 := midPoint_eq h

/-- The root of `2 ^ t` leaves, and of more than half as many. -/
theorem rootIndex_succ {n t : Nat} (hlow : 2 ^ t < n) (hhigh : n ≤ 2 ^ (t + 1)) :
    rootIndex n = 2 ^ (t + 1) - 1 := by
  have hpos : 0 < 2 ^ t := Nat.two_pow_pos t
  rw [rootIndex_eq (by omega), leftLeaves_eq hlow hhigh, Nat.pow_succ, Nat.mul_comm]

theorem rootIndex_perfect (t : Nat) : rootIndex (2 ^ t) = 2 ^ t - 1 := by
  cases t with
  | zero => rfl
  | succ t => exact rootIndex_succ (Nat.pow_lt_pow_succ (by decide)) (Nat.le_refl _)

theorem rootIndex_le {n t : Nat} (h : n ≤ 2 ^ t) : rootIndex n ≤ 2 ^ t - 1 := by
  induction t with
  | zero =>
      obtain rfl | rfl : n = 0 ∨ n = 1 := by
        rw [Nat.pow_zero] at h
        omega
      · exact Nat.le_refl 0
      · exact Nat.le_refl 0
  | succ t ih =>
      by_cases hlow : 2 ^ t < n
      · exact (rootIndex_succ hlow h).le
      · have hmono : 2 ^ t ≤ 2 ^ (t + 1) := Nat.pow_le_pow_right (by decide) (Nat.le_succ t)
        have hle := ih (by omega)
        omega

/-- A round at a zero bit goes up without a node to compute. -/
theorem step_up (nodes : List T) (cursor clamp width mask : Nat) (hbit : mask % 2 = 0) :
    Climb.step mh ⟨nodes, cursor, clamp, width, mask⟩ =
      some ⟨nodes, cursor + width, clamp, width * 2, mask / 2⟩ := if_pos hbit

variable (mh) in
/-- A round at a one bit joins a perfect left subtree to the right one. -/
theorem step_join (front l r : List T) (node : T) {t : Nat} (hl : l.length = 2 ^ t) (hr : r ≠ [])
    (hle : r.length ≤ 2 ^ t) (mask : Nat) (hbit : mask % 2 = 1) :
    Climb.step mh
      { nodes := front ++ layout mh l ++ node :: layout mh r
        cursor := front.length + 2 * 2 ^ t + (2 ^ t - 1)
        clamp := front.length + 2 * 2 ^ t + rootIndex r.length
        width := 2 ^ t
        directionMask := mask } =
    some
      { nodes := front ++ layout mh (l ++ r)
        cursor := front.length + (2 * 2 ^ t - 1)
        clamp := front.length + (2 * 2 ^ t - 1)
        width := 2 ^ t * 2
        directionMask := mask / 2 } := by
  have hpos : 0 < 2 ^ t := Nat.two_pow_pos t
  have hrpos : 0 < r.length := List.length_pos_iff.mpr hr
  have hlne : l ≠ [] := List.length_pos_iff.mp (hl ▸ hpos)
  have hfirst : (front ++ layout mh l).length = front.length + (2 * 2 ^ t - 1) := by
    rw [List.length_append, length_layout hlne, hl]
  have hsplit : l.length = leftLeaves (l.length + r.length) := by
    rw [leftLeaves_eq (t := t) (by omega) (by rw [Nat.pow_succ]; omega), hl]
  -- the two roots
  have hleft : (front ++ layout mh l ++ node :: layout mh r)[front.length + (2 ^ t - 1)]? =
      some (value mh l) := by
    have hroot : (layout mh l)[midPoint (2 * l.length - 1)]? = some (value mh l) :=
      getElem?_layout hlne
    rw [hl, ← rootIndex, rootIndex_perfect] at hroot
    rw [List.getElem?_append_left (by omega), List.getElem?_append_right (by omega),
      Nat.add_sub_cancel_left, hroot]
  have hright : (front ++ layout mh l ++ node :: layout mh r)[
      front.length + 2 * 2 ^ t + rootIndex r.length]? = some (value mh r) := by
    have hroot : (layout mh r)[midPoint (2 * r.length - 1)]? = some (value mh r) :=
      getElem?_layout hr
    have hindex : front.length + 2 * 2 ^ t + rootIndex r.length -
        (front ++ layout mh l).length = rootIndex r.length + 1 := by omega
    rw [List.getElem?_append_right (by omega), hindex, List.getElem?_cons_succ]
    exact hroot
  have hcursor : front.length + 2 * 2 ^ t + (2 ^ t - 1) - 2 ^ t =
      front.length + (2 * 2 ^ t - 1) := by omega
  have hdown : front.length + (2 * 2 ^ t - 1) - 2 ^ t = front.length + (2 ^ t - 1) := by omega
  have hclamp : min (front.length + (2 * 2 ^ t - 1) + 2 ^ t)
      (front.length + 2 * 2 ^ t + rootIndex r.length) =
        front.length + 2 * 2 ^ t + rootIndex r.length := by
    have htop := rootIndex_le hle
    omega
  have hbounds : 2 ^ t ≤ front.length + 2 * 2 ^ t + (2 ^ t - 1) ∧
      2 ^ t ≤ front.length + (2 * 2 ^ t - 1) ∧
      front.length + (2 * 2 ^ t - 1) < (front ++ layout mh l ++ node :: layout mh r).length := by
    rw [List.length_append, hfirst, List.length_cons]
    omega
  have hset : (front ++ layout mh l ++ node :: layout mh r).set
      (front.length + (2 * 2 ^ t - 1)) (mh.combine (value mh l) (value mh r)) =
        front ++ layout mh (l ++ r) := by
    rw [layout_append hsplit hr, value_append hsplit hr, ← hfirst, List.set_append_right _ _
      (Nat.le_refl _), Nat.sub_self, List.set_cons_zero, List.append_assoc]
  have hodd : ¬ mask % 2 = 0 := by omega
  simp only [Climb.step, if_neg hodd, hcursor, hdown, hclamp, hleft, hright, if_pos hbounds, hset]

variable (mh) in
/-- Behind a perfect left subtree there is a place for the node above it. -/
theorem extended_append {l r : List T} (leaf : T) {t : Nat} (hl : l.length = 2 ^ t)
    (hlt : r.length < 2 ^ t) :
    ∃ node, extended mh (l ++ r) leaf = layout mh l ++ node :: extended mh r leaf := by
  have hlne : l ≠ [] := List.length_pos_iff.mp (hl ▸ Nat.two_pow_pos t)
  have hne : l ++ r ≠ [] := by simp [hlne]
  unfold extended
  rw [if_neg hne]
  by_cases hr : r = []
  · refine ⟨mh.default, ?_⟩
    rw [if_pos hr, hr, List.append_nil]
  · have hrpos : 0 < r.length := List.length_pos_iff.mpr hr
    have hsplit : l.length = leftLeaves (l.length + r.length) := by
      rw [leftLeaves_eq (t := t) (by omega) (by rw [Nat.pow_succ]; omega), hl]
    refine ⟨value mh (l ++ r), ?_⟩
    rw [if_neg hr, layout_append hsplit hr, List.append_assoc, List.cons_append]

variable (mh) in
/-- **The climb.** In a subtree of `2 ^ t` places behind some nodes, of which the
first places are taken, `t` rounds from the new leaf build the tree with it and stop
at the top of the subtree. -/
theorem rounds_extended (t : Nat) (front leaves : List T) (leaf : T)
    (hlt : leaves.length < 2 ^ t) (mask : Nat) (hmask : mask % 2 ^ t = leaves.length) :
    Climb.rounds mh t
      { nodes := front ++ extended mh leaves leaf
        cursor := front.length + 2 * leaves.length
        clamp := front.length + 2 * leaves.length
        width := 1
        directionMask := mask } =
    some
      { nodes := front ++ layout mh (leaves ++ [leaf])
        cursor := front.length + (2 ^ t - 1)
        clamp := front.length + rootIndex (leaves.length + 1)
        width := 2 ^ t
        directionMask := mask / 2 ^ t } := by
  -- on the height: the last of the rounds joins the two halves
  induction t generalizing front leaves with
  | zero =>
      obtain rfl : leaves = [] := by
        rw [Nat.pow_zero] at hlt
        exact List.length_eq_zero_iff.mp (by omega)
      simp [Climb.rounds, extended, layout, rootIndex, midPoint, nextPowerOfTwo]
  | succ t ih =>
      have hpos : 0 < 2 ^ t := Nat.two_pow_pos t
      have hmod := Nat.mod_pow_succ (b := 2) (k := t) (x := mask)
      have hlow : mask % 2 ^ t < 2 ^ t := Nat.mod_lt _ hpos
      have hdiv : mask / 2 ^ t / 2 = mask / 2 ^ (t + 1) := by
        rw [Nat.div_div_eq_div_mul, ← Nat.pow_succ]
      rw [hmask] at hmod
      rw [Nat.pow_succ] at hlt
      rcases Nat.mod_two_eq_zero_or_one (mask / 2 ^ t) with hbit | hbit
      · -- the new leaf is in the left half
        rw [hbit] at hmod
        rw [Climb.rounds, ih front leaves (by omega) (by omega), Option.bind_some,
          step_up _ _ _ _ _ hbit, hdiv, ← Nat.pow_succ]
        have htop : front.length + (2 ^ t - 1) + 2 ^ t = front.length + (2 ^ (t + 1) - 1) := by
          rw [Nat.pow_succ]
          omega
        rw [htop]
      · -- the left half is perfect, the new leaf is in the right one
        rw [hbit, Nat.mul_one] at hmod
        obtain ⟨l, r, rfl, hl⟩ : ∃ l r, leaves = l ++ r ∧ l.length = 2 ^ t := by
          refine ⟨leaves.take (2 ^ t), leaves.drop (2 ^ t), (List.take_append_drop _ _).symm, ?_⟩
          rw [List.length_take]
          omega
        rw [List.length_append] at hmod hlt
        obtain ⟨node, hnode⟩ := extended_append mh leaf hl (r := r) (by omega)
        have hlne : l ≠ [] := List.length_pos_iff.mp (hl ▸ hpos)
        have hfront : (front ++ layout mh l ++ [node]).length = front.length + 2 * 2 ^ t := by
          rw [List.length_append, List.length_append, length_layout hlne, hl, List.length_singleton]
          omega
        have hstart : front.length + 2 * (l ++ r).length =
            (front ++ layout mh l ++ [node]).length + 2 * r.length := by
          rw [hfront, List.length_append, hl]
          omega
        have hnodes : front ++ extended mh (l ++ r) leaf =
            front ++ layout mh l ++ [node] ++ extended mh r leaf := by
          rw [hnode]
          simp
        have hclimb := ih (front ++ layout mh l ++ [node]) r (by omega) (by omega)
        have hjoin := step_join mh front l (r ++ [leaf]) node hl (by simp)
          (by rw [List.length_append, List.length_singleton]; omega) _ hbit
        rw [List.length_append, List.length_singleton] at hjoin
        have hbehind : front ++ layout mh l ++ [node] ++ layout mh (r ++ [leaf]) =
            front ++ layout mh l ++ node :: layout mh (r ++ [leaf]) := by simp
        have hroot : rootIndex ((l ++ r).length + 1) = 2 * 2 ^ t - 1 := by
          rw [List.length_append, hl, Nat.mul_comm, ← Nat.pow_succ]
          exact rootIndex_succ (by omega) (by rw [Nat.pow_succ]; omega)
        rw [Climb.rounds, hstart, hnodes, hclimb, hfront, Option.bind_some, hbehind, hjoin, hdiv,
          hroot, List.append_assoc l r, Nat.pow_succ, Nat.mul_comm 2 (2 ^ t)]

/-- **Pushing a leaf** takes the tree over some leaves to the one with one more. -/
theorem push_layout {tree : MerkleTree T} {leaves : List T} (hne : leaves ≠ [])
    (htree : tree.nodes = layout mh leaves) (leaf : T) :
    ∃ tree', push mh tree leaf = some tree' ∧ tree'.nodes = layout mh (leaves ++ [leaf]) := by
  have hpos := List.length_pos_iff.mpr hne
  have hlength : (tree.nodes ++ [mh.default, leaf]).length = 2 * leaves.length + 1 := by
    rw [List.length_append, htree, length_layout hne]
    simp only [List.length_cons, List.length_nil]
    omega
  have hbits : leaves.length < 2 ^ (2 * leaves.length + 1).log2 := by
    have hlog := Nat.lt_log2_self (n := 2 * leaves.length + 1)
    rw [Nat.pow_succ] at hlog
    omega
  have hclimb := rounds_extended mh (2 * leaves.length + 1).log2 [] leaves leaf hbits
    leaves.length (Nat.mod_eq_of_lt hbits)
  have hstart : Climb.start (tree.nodes ++ [mh.default, leaf]) =
      { nodes := [] ++ extended mh leaves leaf
        cursor := 0 + 2 * leaves.length
        clamp := 0 + 2 * leaves.length
        width := 1
        directionMask := leaves.length } := by
    unfold Climb.start
    rw [hlength, extended, if_neg hne, htree, List.nil_append]
    congr 1 <;> omega
  rw [List.length_nil, ← hstart, ← hlength] at hclimb
  unfold push
  dsimp only
  split
  · next c hc =>
      rw [hclimb] at hc
      refine ⟨_, rfl, ?_⟩
      cases hc
      rfl
  · next hc =>
      rw [hclimb] at hc
      cases hc

end MerkleTree

end OnionNetwork.Merkle
