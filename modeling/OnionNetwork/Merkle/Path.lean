import OnionNetwork.Merkle.Push

/-!
# Authentication paths

The path of a leaf, from the left-complete tree: the roots of the subtrees beside it,
bottom up, each with its side (`authPath`). The iterator of `MerkleTree::proof` does not
know the subtrees. It walks up from the leaf, and in step with it up the right edge of
the tree, where the last subtree may be cut short. In terms of levels: the leaves of a
level come in blocks of `2 ^ t`, of which the last one may be short, and the sibling of
a block is the one it shares its parent with (`siblingAt`). `nodes_authPath` says
that the path runs through these.
-/

namespace OnionNetwork.Merkle.MerkleTree

variable {T : Type} (mh : MerkleHash T)

/-- A node beside a path, and on which side of it. -/
inductive Sibling (T : Type)
  | left (node : T)
  | right (node : T)

/-- The node. -/
def Sibling.node : Sibling T → T
  | .left node | .right node => node

/-- The node above a value and its sibling. -/
def Sibling.join (acc : T) : Sibling T → T
  | .left node => mh.combine node acc
  | .right node => mh.combine acc node

/-- The roots of the subtrees beside the way from a leaf to the root, bottom up. -/
def authPath : List T → Nat → List (Sibling T)
  | [], _ => []
  | [_], _ => []
  | a :: b :: rest, i =>
      let leaves := a :: b :: rest
      let k := leftLeaves leaves.length
      if i < k then authPath (leaves.take k) i ++ [.right (value mh (leaves.drop k))]
      else authPath (leaves.drop k) (i - k) ++ [.left (value mh (leaves.take k))]
termination_by leaves => leaves.length
decreasing_by
  all_goals
    have hlt : leftLeaves (rest.length + 1 + 1) < rest.length + 1 + 1 := leftLeaves_lt (by omega)
    have hpos := leftLeaves_pos (rest.length + 1 + 1)
    simp only [List.length_take, List.length_drop, List.length_cons]
    omega

/-- What a leaf and its path come to. -/
def foldPath (leaf : T) (path : List (Sibling T)) : T := path.foldl (Sibling.join mh) leaf

variable {mh}

/-- The path in a tree of two subtrees. -/
theorem authPath_append {l r : List T} (hl : l.length = leftLeaves (l.length + r.length))
    (hr : r ≠ []) (i : Nat) :
    authPath mh (l ++ r) i =
      if i < l.length then authPath mh l i ++ [.right (value mh r)]
      else authPath mh r (i - l.length) ++ [.left (value mh l)] := by
  have hlpos : 0 < l.length := hl ▸ leftLeaves_pos _
  have hrpos : 0 < r.length := List.length_pos_iff.mpr hr
  match hlr : l ++ r with
  | [] | [_] =>
      have hlength := congrArg List.length hlr
      simp only [List.length_append, List.length_cons, List.length_nil] at hlength
      omega
  | a :: b :: rest =>
      rw [authPath]
      simp only [← hlr]
      rw [List.length_append, ← hl, List.take_left, List.drop_left]

/-- **The path leads to the root.** -/
theorem foldPath_authPath {leaves : List T} {i : Nat} (hi : i < leaves.length) :
    foldPath mh leaves[i] (authPath mh leaves i) = value mh leaves := by
  induction hn : leaves.length using Nat.strongRecOn generalizing leaves i with
  | ind n ih =>
      subst hn
      by_cases htwo : 2 ≤ leaves.length
      · obtain ⟨l, r, rfl, hl, hr⟩ := exists_split htwo
        rw [List.length_append] at hl hi ih
        have hlpos : 0 < l.length := hl ▸ leftLeaves_pos _
        have hrpos : 0 < r.length := List.length_pos_iff.mpr hr
        rw [authPath_append hl hr, value_append hl hr]
        by_cases hleft : i < l.length
        · have hsub := ih l.length (by omega) hleft rfl
          rw [if_pos hleft, List.getElem_append_left hleft, foldPath, List.foldl_append]
          show mh.combine (foldPath mh l[i] (authPath mh l i)) _ = _
          rw [hsub]
        · have hsub := ih r.length (by omega) (show i - l.length < r.length by omega) rfl
          rw [if_neg hleft, List.getElem_append_right (Nat.le_of_not_lt hleft), foldPath,
            List.foldl_append]
          show mh.combine _ (foldPath mh r[i - l.length] (authPath mh r (i - l.length))) = _
          rw [hsub]
      · match leaves, hi with
        | [leaf], hi =>
            obtain rfl : i = 0 := Nat.lt_one_iff.mp hi
            rw [authPath, value]
            rfl
        | _ :: _ :: _, _ => simp at htwo

/-- Where the order does not matter, the sides do not. -/
theorem foldPath_of_comm (hcomm : ∀ a b, mh.combine a b = mh.combine b a) (leaf : T)
    (path : List (Sibling T)) :
    foldPath mh leaf path = (path.map Sibling.node).foldl mh.combine leaf := by
  induction path generalizing leaf with
  | nil => rfl
  | cons s path ih =>
      have hjoin : Sibling.join mh leaf s = mh.combine leaf s.node := by
        cases s with
        | left node => exact hcomm node leaf
        | right node => rfl
      show foldPath mh (Sibling.join mh leaf s) path = _
      rw [hjoin, ih]
      rfl

/-! ### Levels -/

/-- The leaves of a block. -/
def blockAt (leaves : List T) (t b : Nat) : List T := (leaves.drop (b * 2 ^ t)).take (2 ^ t)

theorem length_blockAt (leaves : List T) (t b : Nat) :
    (blockAt leaves t b).length = min (2 ^ t) (leaves.length - b * 2 ^ t) := by
  rw [blockAt, List.length_take, List.length_drop]

/-- A block of all leaves. -/
theorem blockAt_zero {leaves : List T} {t : Nat} (h : leaves.length ≤ 2 ^ t) :
    blockAt leaves t 0 = leaves := by
  rw [blockAt, Nat.zero_mul, List.drop_zero, List.take_of_length_le h]

theorem blockAt_append_left {l r : List T} {t b : Nat} (h : b * 2 ^ t + 2 ^ t ≤ l.length) :
    blockAt (l ++ r) t b = blockAt l t b := by
  have hbegin : b * 2 ^ t ≤ l.length := Nat.le_of_add_right_le h
  have hend : 2 ^ t ≤ (l.drop (b * 2 ^ t)).length := by
    rw [List.length_drop]
    exact Nat.le_sub_of_add_le' h
  rw [blockAt, blockAt, List.drop_append_of_le_length hbegin, List.take_append_of_le_length hend]

theorem blockAt_append_right {l r : List T} {t c : Nat} (h : l.length = c * 2 ^ t) (b : Nat) :
    blockAt (l ++ r) t (c + b) = blockAt r t b := by
  rw [blockAt, blockAt, Nat.add_mul, ← h, List.drop_length_add_append]

variable (mh) in
/-- The root of a block is where it is in a tree of its own. -/
theorem getElem?_blockAt {leaves : List T} {t b : Nat} (hb : b * 2 ^ t < leaves.length) :
    (layout mh leaves)[2 * (b * 2 ^ t) + rootIndex (blockAt leaves t b).length]? =
      some (value mh (blockAt leaves t b)) := by
  induction hn : leaves.length using Nat.strongRecOn generalizing leaves b with
  | ind n ih =>
      subst hn
      have hpos : 0 < 2 ^ t := Nat.two_pow_pos t
      by_cases hwhole : leaves.length ≤ 2 ^ t
      · obtain rfl : b = 0 := by
          by_contra hne
          have hle : 1 * 2 ^ t ≤ b * 2 ^ t := Nat.mul_le_mul_right _ (Nat.pos_of_ne_zero hne)
          omega
        have hne : leaves ≠ [] := List.length_pos_iff.mp (by omega)
        rw [blockAt_zero hwhole, Nat.zero_mul, Nat.mul_zero, Nat.zero_add]
        exact getElem?_layout hne
      · -- the block is on one side of the root, as both sides begin at a block
        obtain ⟨l, r, rfl, hl, hr⟩ := exists_split (show 2 ≤ leaves.length by omega)
        rw [List.length_append] at hl hb hwhole ih
        have hrpos : 0 < r.length := List.length_pos_iff.mpr hr
        have hlog : t ≤ (l.length + r.length - 1).log2 :=
          (Nat.le_log2 (by omega)).mpr (by omega)
        obtain ⟨d, hd⟩ := Nat.exists_eq_add_of_le' hlog
        have hlen : l.length = 2 ^ d * 2 ^ t := by rw [hl, leftLeaves, hd, Nat.pow_add]
        have hlpos : 0 < l.length := hl ▸ leftLeaves_pos _
        have hlne : l ≠ [] := List.length_pos_iff.mp hlpos
        have hlayout : (layout mh l).length = 2 * l.length - 1 := length_layout hlne
        rw [layout_append hl hr]
        by_cases hside : b < 2 ^ d
        · -- to the left of the root nothing moves
          have hin : b * 2 ^ t + 2 ^ t ≤ l.length := by
            rw [hlen, ← Nat.succ_mul]
            exact Nat.mul_le_mul_right _ hside
          have hlength : (blockAt l t b).length = 2 ^ t := by
            rw [length_blockAt]
            omega
          have hbegin : b * 2 ^ t < l.length := by omega
          have hroot := ih l.length (by omega) hbegin rfl
          have hat : 2 * (b * 2 ^ t) + rootIndex (blockAt l t b).length < (layout mh l).length := by
            rw [hlength, rootIndex_perfect]
            omega
          rw [blockAt_append_left hin, List.getElem?_append_left hat, hroot]
        · -- to the right it is the block `c` of a tree that begins behind the root
          obtain ⟨c, rfl⟩ := Nat.exists_eq_add_of_le (Nat.le_of_not_lt hside)
          rw [Nat.add_mul, ← hlen] at hb ⊢
          have hroot := ih r.length (by omega) (show c * 2 ^ t < r.length by omega) rfl
          have hat : 2 * (l.length + c * 2 ^ t) + rootIndex (blockAt r t c).length -
              (layout mh l).length = 2 * (c * 2 ^ t) + rootIndex (blockAt r t c).length + 1 := by
            omega
          rw [blockAt_append_right hlen, List.getElem?_append_right (by omega), hat,
            List.getElem?_cons_succ, hroot]

/-- The block beside a block. -/
def beside (b : Nat) : Nat := if b % 2 = 0 then b + 1 else b - 1

theorem beside_even {b : Nat} (h : b % 2 = 0) : beside b = b + 1 := if_pos h

theorem beside_odd {b : Nat} (h : b % 2 = 1) : beside b = b - 1 := if_neg (by omega)

/-- A last block that is a right one is beside another. -/
theorem beside_le {b m : Nat} (hb : b ≤ m) (hm : m % 2 = 1) : beside b ≤ m := by
  unfold beside
  split <;> omega

/-- A last block that is a left one is not. -/
theorem beside_lt_last {b m : Nat} (hb : b ≤ m) (hm : m % 2 = 0) (h : beside b ≤ m) :
    beside b < m := by
  unfold beside at h ⊢
  split at h <;> split <;> omega

/-- An even number of blocks is closed under going to the one beside. -/
theorem beside_lt {b n : Nat} (h : b < 2 * n) : beside b < 2 * n := by
  unfold beside
  split <;> omega

theorem beside_add (n b : Nat) : beside (2 * n + b) = 2 * n + beside b := by
  unfold beside
  split <;> split <;> omega

variable (mh) in
/-- The root of the block beside the one of a leaf, unless there are no leaves in it. -/
def siblingAt (leaves : List T) (i t : Nat) : Option T :=
  if beside (i / 2 ^ t) * 2 ^ t < leaves.length then
    some (value mh (blockAt leaves t (beside (i / 2 ^ t))))
  else none

/-- In a perfect left subtree the sibling is in it. -/
theorem siblingAt_append_left {l r : List T} {i t d : Nat} (hi : i < l.length)
    (hl : l.length = 2 ^ (d + 1) * 2 ^ t) : siblingAt mh (l ++ r) i t = siblingAt mh l i t := by
  have hpos : 0 < 2 ^ t := Nat.two_pow_pos t
  have hlt : i / 2 ^ t < 2 ^ (d + 1) := Nat.div_lt_of_lt_mul (by rwa [Nat.mul_comm, ← hl])
  have hbeside : beside (i / 2 ^ t) < 2 ^ (d + 1) := by
    rw [Nat.pow_succ, Nat.mul_comm] at hlt ⊢
    exact beside_lt hlt
  have hin : beside (i / 2 ^ t) * 2 ^ t + 2 ^ t ≤ l.length := by
    rw [hl, ← Nat.succ_mul]
    exact Nat.mul_le_mul_right _ hbeside
  unfold siblingAt
  rw [List.length_append, if_pos (by omega), if_pos (by omega), blockAt_append_left hin]

/-- Behind a perfect left subtree the blocks are the ones of the right subtree. -/
theorem siblingAt_append_right {l r : List T} {i t d : Nat} (hl : l.length = 2 ^ (d + 1) * 2 ^ t) :
    siblingAt mh (l ++ r) (l.length + i) t = siblingAt mh r i t := by
  have hdiv : (l.length + i) / 2 ^ t = 2 ^ (d + 1) + i / 2 ^ t := by
    rw [hl, Nat.add_comm, Nat.add_mul_div_right _ _ (Nat.two_pow_pos t), Nat.add_comm]
  have hbeside : beside (2 ^ (d + 1) + i / 2 ^ t) = 2 ^ (d + 1) + beside (i / 2 ^ t) := by
    rw [Nat.pow_succ, Nat.mul_comm]
    exact beside_add _ _
  unfold siblingAt
  rw [hdiv, hbeside, blockAt_append_right hl, Nat.add_mul, ← hl, List.length_append]
  simp only [Nat.add_lt_add_iff_left]

/-- **The path, level by level.** -/
theorem nodes_authPath {leaves : List T} {i : Nat} (hi : i < leaves.length) {t : Nat}
    (ht : leaves.length ≤ 2 ^ t) :
    (authPath mh leaves i).map Sibling.node = (List.range t).filterMap (siblingAt mh leaves i) := by
  induction t generalizing leaves i with
  | zero =>
      rw [Nat.pow_zero] at ht
      obtain ⟨leaf, rfl⟩ : ∃ leaf, leaves = [leaf] := List.length_eq_one_iff.mp (by omega)
      rw [authPath]
      rfl
  | succ t ih =>
      have hpos : 0 < 2 ^ t := Nat.two_pow_pos t
      rw [List.range_succ, List.filterMap_append]
      by_cases hhalf : leaves.length ≤ 2 ^ t
      · -- the whole tree is one block
        have hnone : siblingAt mh leaves i t = none := by
          unfold siblingAt
          rw [Nat.div_eq_of_lt (by omega), beside_even rfl, if_neg (by omega)]
        rw [List.filterMap_cons_none hnone, List.filterMap_nil, List.append_nil, ih hi hhalf]
      · -- the root has two halves, the left one perfect
        obtain ⟨l, r, rfl, hl, hr⟩ := exists_split (show 2 ≤ leaves.length by omega)
        have hlen : l.length = 2 ^ t := by
          rw [hl]
          exact leftLeaves_eq (by omega) ht
        rw [List.length_append] at hl hi ht hhalf
        rw [Nat.pow_succ] at ht
        have hperfect : ∀ s < t, ∃ d, l.length = 2 ^ (d + 1) * 2 ^ s := by
          intro s hs
          obtain ⟨d, rfl⟩ := Nat.exists_eq_add_of_lt hs
          refine ⟨d, ?_⟩
          rw [hlen, ← Nat.pow_add]
          congr 1
          omega
        rw [authPath_append hl hr]
        by_cases hleft : i < l.length
        · -- in the left half: the levels below are those of `l`, and the sibling at the top is `r`
          have hlow : (List.range t).filterMap (siblingAt mh (l ++ r) i) =
              (List.range t).filterMap (siblingAt mh l i) := by
            refine List.filterMap_congr fun s hs => ?_
            obtain ⟨d, hd⟩ := hperfect s (List.mem_range.mp hs)
            exact siblingAt_append_left hleft hd
          have htop : siblingAt mh (l ++ r) i t = some (value mh r) := by
            have hblock : blockAt (l ++ r) t 1 = r := by
              have hright := blockAt_append_right (r := r) (c := 1) (by rw [hlen, Nat.one_mul]) 0
              rw [hright, blockAt_zero (by omega)]
            unfold siblingAt
            rw [Nat.div_eq_of_lt (by omega), beside_even rfl, Nat.zero_add, Nat.one_mul,
              List.length_append, if_pos (by omega), hblock]
          rw [if_pos hleft, hlow, List.filterMap_cons_some htop, List.map_append,
            ih hleft (by omega)]
          rfl
        · -- in the right half: the levels below are those of `r`, and the sibling at the top is `l`
          obtain ⟨j, rfl⟩ := Nat.exists_eq_add_of_le (Nat.le_of_not_lt hleft)
          have hlow : (List.range t).filterMap (siblingAt mh (l ++ r) (l.length + j)) =
              (List.range t).filterMap (siblingAt mh r j) := by
            refine List.filterMap_congr fun s hs => ?_
            obtain ⟨d, hd⟩ := hperfect s (List.mem_range.mp hs)
            exact siblingAt_append_right hd
          have htop : siblingAt mh (l ++ r) (l.length + j) t = some (value mh l) := by
            have hdiv : (l.length + j) / 2 ^ t = 1 := by
              rw [hlen, Nat.add_div_left _ hpos, Nat.div_eq_of_lt (by omega)]
            have hblock : blockAt (l ++ r) t 0 = l := by
              rw [blockAt_append_left (by omega), blockAt_zero (by omega)]
            unfold siblingAt
            rw [hdiv, beside_odd rfl, Nat.sub_self, Nat.zero_mul, List.length_append,
              if_pos (by omega), hblock]
          rw [if_neg hleft, Nat.add_sub_cancel_left, hlow, List.filterMap_cons_some htop,
            List.map_append, ih (by omega) (by omega)]
          rfl

end OnionNetwork.Merkle.MerkleTree
