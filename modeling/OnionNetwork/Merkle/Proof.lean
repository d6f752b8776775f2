import OnionNetwork.Merkle.Path

/-!
# Proofs from the array

`MerkleTree::proof`. The iterator keeps two cursors in the in-order array: one on the way
up from the leaf, the other on the right edge, where `clamp` is the root of the last
subtree so far. Both walks are told by the bits of a leaf's number (`Walk.at`), and a
round yields the sibling of its level (`step_at`).
-/

namespace OnionNetwork.Merkle.MerkleTree

variable {T : Type}

/-- The variables of the iterator that `proof` returns, without its fuel. -/
structure Walk where
  clampCursor : Nat
  clamp : Nat
  clampMask : Nat
  cursor : Nat
  width : Nat
  directionMask : Nat
  deriving DecidableEq

namespace Walk

/-- The cursor on the way up, and the node opposite. Nothing where the source would
underflow. -/
def climb (w : Walk) : Option (Nat × Nat) :=
  if w.directionMask % 2 = 0 then
    some (w.cursor + w.width, w.cursor + w.width + w.width)
  else if w.width ≤ w.cursor ∧ w.width ≤ w.cursor - w.width then
    some (w.cursor - w.width, w.cursor - w.width - w.width)
  else none

/-- The cursor on the right edge, the clamp, and the value, which is missing where
`nodes.get` finds nothing. Nothing at all where the source would panic. -/
def follow (nodes : List T) (w : Walk) (opposite : Nat) : Option (Nat × Nat × Option T) :=
  if w.clampMask % 2 = 0 then
    some (w.clampCursor + w.width, w.clamp, nodes[opposite]?)
  else if w.width ≤ w.clampCursor then
    (nodes[min opposite w.clamp]?).map fun value =>
      (w.clampCursor - w.width, w.clampCursor - w.width, some value)
  else none

/-- A round of the loop: the iterator behind it, and the value. -/
def step (nodes : List T) (w : Walk) : Option (Walk × Option T) := do
  let (cursor, opposite) ← w.climb
  let (clampCursor, clamp, value) ← w.follow nodes opposite
  some
    ({ clampCursor
       clamp
       clampMask := w.clampMask / 2
       cursor
       width := w.width * 2
       directionMask := w.directionMask / 2 }, value)

/-- The values up to the end of the fuel. -/
def collect (nodes : List T) : (fuel : Nat) → Walk → Option (List T)
  | 0, _ => some []
  | fuel + 1, w => (w.step nodes).bind fun (w, value) =>
      (collect nodes fuel w).map (value.toList ++ ·)

/-- Where the iterator starts. -/
def start (len index : Nat) : Walk where
  clampCursor := len - 1
  clamp := len - 1
  clampMask := len / 2
  cursor := index
  width := 1
  directionMask := (index + 1) / 2

end Walk

/-- `MerkleTree::proof`, run to its end. -/
def proof (tree : MerkleTree T) (index : Nat) : Option (List T) :=
  (Walk.start tree.nodes.length index).collect tree.nodes tree.nodes.length.log2

/-! ### The walk -/

/-- The iterator on the way from the leaf `i` of `n`, behind `t` rounds. -/
def Walk.at (n i t : Nat) : Walk where
  clampCursor := 2 * ((n - 1) / 2 ^ t * 2 ^ t) + (2 ^ t - 1)
  clamp := 2 * ((n - 1) / 2 ^ t * 2 ^ t) + rootIndex (n - (n - 1) / 2 ^ t * 2 ^ t)
  clampMask := (n - 1) / 2 ^ t
  cursor := 2 * (i / 2 ^ t * 2 ^ t) + (2 ^ t - 1)
  width := 2 ^ t
  directionMask := i / 2 ^ t

theorem Walk.start_eq {n : Nat} (hn : 0 < n) (i : Nat) :
    Walk.start (2 * n - 1) (2 * i) = Walk.at n i 0 := by
  have hroot : rootIndex (n - (n - 1)) = 0 := by
    rw [show n - (n - 1) = 1 by omega]
    rfl
  unfold Walk.start Walk.at
  simp only [Nat.pow_zero, Nat.div_one, Nat.mul_one, Nat.sub_self, Nat.add_zero, hroot]
  congr 1 <;> omega

/-- A level up is half as many blocks, of twice the leaves. -/
theorem level_succ (m q : Nat) : m / (2 * q) = m / q / 2 := by
  rw [Nat.mul_comm, Nat.div_div_eq_div_mul]

/-- Where the block above a left one begins. -/
theorem begin_even {b : Nat} (q : Nat) (hb : b % 2 = 0) : b / 2 * (2 * q) = b * q := by
  obtain ⟨c, rfl⟩ : ∃ c, b = 2 * c := ⟨b / 2, by omega⟩
  have hhalf : 2 * c / 2 = c := by omega
  rw [hhalf, Nat.mul_left_comm, ← Nat.mul_assoc]

/-- Where the block above a right one begins. -/
theorem begin_odd {b : Nat} (q : Nat) (hb : b % 2 = 1) : b / 2 * (2 * q) + q = b * q := by
  obtain ⟨c, rfl⟩ : ∃ c, b = 2 * c + 1 := ⟨b / 2, by omega⟩
  have hhalf : (2 * c + 1) / 2 = c := by omega
  rw [hhalf, Nat.mul_left_comm, ← Nat.mul_assoc, ← Nat.succ_mul]

/-- On the way up the cursor gets to the node above, between the block and the one beside. -/
theorem climb_at (n i t : Nat) :
    (Walk.at n i t).climb =
      some ((Walk.at n i (t + 1)).cursor, 2 * (beside (i / 2 ^ t) * 2 ^ t) + (2 ^ t - 1)) := by
  have hpos : 0 < 2 ^ t := Nat.two_pow_pos t
  have htwice : 2 ^ (t + 1) = 2 * 2 ^ t := Nat.pow_succ'
  unfold Walk.climb Walk.at
  simp only [level_succ, htwice]
  generalize 2 ^ t = q at hpos ⊢
  generalize i / q = b
  rcases Nat.mod_two_eq_zero_or_one b with hbit | hbit
  · have hbegin := begin_even q hbit
    have hbeside : (b + 1) * q = b * q + q := Nat.succ_mul b q
    rw [if_pos hbit, beside_even hbit, Option.some.injEq, Prod.mk.injEq]
    omega
  · have hbegin := begin_odd q hbit
    have hbeside : (b - 1) * q + q = b * q := by
      rw [← Nat.succ_mul]
      congr 1
      omega
    have hodd : ¬ b % 2 = 0 := by omega
    rw [if_neg hodd, beside_odd hbit, if_pos (by omega), Option.some.injEq, Prod.mk.injEq]
    omega

variable {mh : MerkleHash T} {leaves : List T} {i : Nat}

/-- The root of a block that is not the last one. -/
theorem getElem?_whole {t b : Nat} (hb : b * 2 ^ t + 2 ^ t ≤ leaves.length) :
    (layout mh leaves)[2 * (b * 2 ^ t) + (2 ^ t - 1)]? = some (value mh (blockAt leaves t b)) := by
  have hpos : 0 < 2 ^ t := Nat.two_pow_pos t
  have hbegin : b * 2 ^ t < leaves.length := by omega
  have hlength : (blockAt leaves t b).length = 2 ^ t := by
    rw [length_blockAt]
    omega
  have hroot := getElem?_blockAt mh hbegin
  rwa [hlength, rootIndex_perfect] at hroot

/-- The blocks of a level up to the last one. -/
theorem block_lt {t b : Nat} (hb : b < (leaves.length - 1) / 2 ^ t) :
    b * 2 ^ t + 2 ^ t ≤ (leaves.length - 1) / 2 ^ t * 2 ^ t ∧
      (leaves.length - 1) / 2 ^ t * 2 ^ t ≤ leaves.length - 1 := by
  refine ⟨?_, Nat.div_mul_le_self _ _⟩
  rw [← Nat.succ_mul]
  exact Nat.mul_le_mul_right _ hb

variable (mh) in
/-- Where the right edge goes up without a node, the sibling is a whole block or missing. -/
theorem getElem?_beside_even (hi : i < leaves.length) {t : Nat}
    (hbit : (leaves.length - 1) / 2 ^ t % 2 = 0) :
    (layout mh leaves)[2 * (beside (i / 2 ^ t) * 2 ^ t) + (2 ^ t - 1)]? =
      siblingAt mh leaves i t := by
  have hpos : 0 < 2 ^ t := Nat.two_pow_pos t
  have hle : i / 2 ^ t ≤ (leaves.length - 1) / 2 ^ t := Nat.div_le_div_right (by omega)
  have hne : leaves ≠ [] := List.length_pos_iff.mp (by omega)
  have hsize : (layout mh leaves).length = 2 * leaves.length - 1 := length_layout hne
  unfold siblingAt
  by_cases hin : beside (i / 2 ^ t) * 2 ^ t < leaves.length
  · -- the last block is a left one, so it is not beside another
    have hlast : beside (i / 2 ^ t) < (leaves.length - 1) / 2 ^ t :=
      beside_lt_last hle hbit ((Nat.le_div_iff_mul_le hpos).mpr (by omega))
    obtain ⟨hwhole, hfit⟩ := block_lt hlast
    rw [if_pos hin, getElem?_whole (by omega)]
  · rw [if_neg hin, List.getElem?_eq_none (by omega)]

variable (mh) in
/-- Where the right edge goes through a node, the sibling is there, and if it is the last
block its root is at the clamp. -/
theorem getElem?_beside_odd (hi : i < leaves.length) {t : Nat}
    (hbit : (leaves.length - 1) / 2 ^ t % 2 = 1) :
    ∃ node, siblingAt mh leaves i t = some node ∧
      (layout mh leaves)[min (2 * (beside (i / 2 ^ t) * 2 ^ t) + (2 ^ t - 1))
        (Walk.at leaves.length i t).clamp]? = some node := by
  have hpos : 0 < 2 ^ t := Nat.two_pow_pos t
  have hle : i / 2 ^ t ≤ (leaves.length - 1) / 2 ^ t := Nat.div_le_div_right (by omega)
  have hlast : beside (i / 2 ^ t) ≤ (leaves.length - 1) / 2 ^ t := beside_le hle hbit
  have hin : beside (i / 2 ^ t) * 2 ^ t ≤ (leaves.length - 1) / 2 ^ t * 2 ^ t :=
    Nat.mul_le_mul_right _ hlast
  have hfit : (leaves.length - 1) / 2 ^ t * 2 ^ t ≤ leaves.length - 1 := Nat.div_mul_le_self _ _
  refine ⟨_, if_pos (by omega), ?_⟩
  rcases Nat.lt_or_eq_of_le hlast with hlt | heq
  · obtain ⟨hwhole, -⟩ := block_lt hlt
    rw [Nat.min_eq_left, getElem?_whole (by omega)]
    show _ ≤ 2 * ((leaves.length - 1) / 2 ^ t * 2 ^ t) + rootIndex _
    omega
  · rw [heq]
    have hshort : leaves.length - (leaves.length - 1) / 2 ^ t * 2 ^ t ≤ 2 ^ t := by
      have hmod := Nat.div_add_mod' (leaves.length - 1) (2 ^ t)
      have hlow : (leaves.length - 1) % 2 ^ t < 2 ^ t := Nat.mod_lt _ hpos
      omega
    have hlength : (blockAt leaves t ((leaves.length - 1) / 2 ^ t)).length =
        leaves.length - (leaves.length - 1) / 2 ^ t * 2 ^ t := by
      rw [length_blockAt]
      omega
    have hroot := getElem?_blockAt mh
      (show (leaves.length - 1) / 2 ^ t * 2 ^ t < leaves.length by omega)
    rw [hlength] at hroot
    have hclamp := rootIndex_le hshort
    rw [Nat.min_eq_right]
    · exact hroot
    · show 2 * ((leaves.length - 1) / 2 ^ t * 2 ^ t) + rootIndex _ ≤ _
      omega

/-- **On the right edge** the cursor gets to the node above the last block, the clamp with
it if it is a right one, and the value is the sibling. -/
theorem follow_at (hi : i < leaves.length) (t : Nat) :
    (Walk.at leaves.length i t).follow (layout mh leaves)
        (2 * (beside (i / 2 ^ t) * 2 ^ t) + (2 ^ t - 1)) =
      some ((Walk.at leaves.length i (t + 1)).clampCursor, (Walk.at leaves.length i (t + 1)).clamp,
        siblingAt mh leaves i t) := by
  have hpos : 0 < 2 ^ t := Nat.two_pow_pos t
  have htwice : 2 ^ (t + 1) = 2 * 2 ^ t := Nat.pow_succ'
  rcases Nat.mod_two_eq_zero_or_one ((leaves.length - 1) / 2 ^ t) with hbit | hbit
  · have hbegin := begin_even (2 ^ t) hbit
    have hsibling := getElem?_beside_even mh hi hbit
    unfold Walk.follow Walk.at
    simp only [level_succ, htwice, hbegin]
    rw [if_pos hbit, hsibling]
    congr 2
    omega
  · have hbegin := begin_odd (2 ^ t) hbit
    have hodd : ¬ (leaves.length - 1) / 2 ^ t % 2 = 0 := by omega
    have hmod := Nat.div_add_mod' (leaves.length - 1) (2 ^ t)
    have hlow : (leaves.length - 1) % 2 ^ t < 2 ^ t := Nat.mod_lt _ hpos
    obtain ⟨node, hsibling, hclamp⟩ := getElem?_beside_odd mh hi hbit
    unfold Walk.follow
    rw [hclamp, hsibling]
    unfold Walk.at
    simp only [level_succ, htwice]
    -- more than one block is left, so its root is the node above the first one
    have hroot : rootIndex (leaves.length - (leaves.length - 1) / 2 ^ t / 2 * (2 * 2 ^ t)) =
        2 * 2 ^ t - 1 := by
      rw [rootIndex_succ (t := t) (by omega) (by omega), htwice]
    rw [if_neg hodd, hroot, if_pos (by omega), Option.map_some, Option.some.injEq, Prod.mk.injEq,
      Prod.mk.injEq]
    refine ⟨?_, ?_, rfl⟩ <;> omega

/-- **One round** goes one level up and yields the sibling there. -/
theorem step_at (hi : i < leaves.length) (t : Nat) :
    (Walk.at leaves.length i t).step (layout mh leaves) =
      some (Walk.at leaves.length i (t + 1), siblingAt mh leaves i t) := by
  have htwice : 2 ^ (t + 1) = 2 ^ t * 2 := Nat.pow_succ 2 t
  unfold Walk.step
  simp only [climb_at, follow_at hi, Option.bind_eq_bind, Option.bind_some]
  unfold Walk.at
  simp only [htwice, Nat.div_div_eq_div_mul]

/-- **The rounds** yield the siblings, level by level. -/
theorem collect_at (hi : i < leaves.length) (fuel t : Nat) :
    (Walk.at leaves.length i t).collect (layout mh leaves) fuel =
      some ((List.range' t fuel).filterMap (siblingAt mh leaves i)) := by
  induction fuel generalizing t with
  | zero => rfl
  | succ fuel ih =>
      rw [Walk.collect, step_at hi, Option.bind_some, List.range'_succ]
      show (Walk.collect _ _ _).map _ = _
      rw [ih, Option.map_some]
      cases h : siblingAt mh leaves i t with
      | none => rw [List.filterMap_cons_none h]; rfl
      | some node => rw [List.filterMap_cons_some h]; rfl

/-- The fuel is enough to get to the root. -/
theorem length_le_log2 {n : Nat} (hn : 0 < n) : n ≤ 2 ^ (2 * n - 1).log2 := by
  have hlt : 2 * n - 1 < 2 ^ ((2 * n - 1).log2 + 1) := Nat.lt_log2_self
  rw [Nat.pow_succ] at hlt
  omega

/-- **The proof is the path.** -/
theorem proof_eq (tree : MerkleTree T) (htree : tree.nodes = layout mh leaves)
    (hi : i < leaves.length) :
    tree.proof (2 * i) = some ((authPath mh leaves i).map Sibling.node) := by
  have hne : leaves ≠ [] := List.length_pos_iff.mp (by omega)
  have hpos : 0 < leaves.length := by omega
  rw [proof, htree, length_layout hne, Walk.start_eq hpos, collect_at hi,
    nodes_authPath hi (length_le_log2 hpos), List.range_eq_range']

end OnionNetwork.Merkle.MerkleTree
