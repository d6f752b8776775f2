import OnionNetwork.Merkle.Proof

/-!
# Trees and their authentication paths

`incremental_eq_bulk`: pushing the leaves one by one builds the tree that
`from_base` builds from all of them, whose root is the value of the left-complete
tree over the leaves. `proof_is_path`: in a tree that `from_base` and any number of
pushes have built, the proof of a leaf is the path of siblings to the root, and the
leaf folded with it is the root.
-/

namespace OnionNetwork.Merkle.MerkleTree

/-! ## Bulk build and pushes -/

section Build

variable {T : Type} (mh : MerkleHash T)

/-- `push` of some leaves, one after the other. -/
def pushAll : MerkleTree T → List T → Option (MerkleTree T)
  | tree, [] => some tree
  | tree, leaf :: leaves => (push mh tree leaf).bind fun tree => pushAll tree leaves

variable {mh}

theorem pushAll_layout {tree : MerkleTree T} {leaves : List T} (hne : leaves ≠ [])
    (htree : tree.nodes = layout mh leaves) (more : List T) :
    ∃ tree', pushAll mh tree more = some tree' ∧ tree'.nodes = layout mh (leaves ++ more) := by
  induction more generalizing tree leaves with
  | nil => exact ⟨tree, rfl, by rw [htree, List.append_nil]⟩
  | cons leaf more ih =>
      obtain ⟨tree', hpush, hnodes⟩ := push_layout hne htree leaf
      obtain ⟨all, hall, hlayout⟩ := ih (by simp) hnodes
      refine ⟨all, ?_, ?_⟩
      · rw [pushAll, hpush, Option.bind_some, hall]
      · rw [hlayout, List.append_assoc, List.singleton_append]

/-- A tree is its array. -/
theorem eq_of_nodes {tree tree' : MerkleTree T} (h : tree.nodes = tree'.nodes) : tree = tree' := by
  cases tree
  cases tree'
  cases h
  rfl

/-- **Bulk build is incremental build.** No push fails, the array is the one of
`from_base`, so root and length are, and the root is the value of the left-complete
tree over the leaves. -/
theorem incremental_eq_bulk (mh : MerkleHash T) (first : T) (rest : List T) :
    pushAll mh (new first) rest = some (fromBase mh (first :: rest)) ∧
      (fromBase mh (first :: rest)).nodes = layout mh (first :: rest) ∧
      (fromBase mh (first :: rest)).root = value mh (first :: rest) ∧
      (fromBase mh (first :: rest)).len = (first :: rest).length := by
  have hne : first :: rest ≠ [] := List.cons_ne_nil _ _
  have hnodes : (fromBase mh (first :: rest)).nodes = layout mh (first :: rest) :=
    nodes_fromBase hne
  have hnew : (new first).nodes = layout mh [first] := by
    rw [layout]
    rfl
  obtain ⟨tree, hpush, htree⟩ := pushAll_layout (List.cons_ne_nil _ _) hnew rest
  have htree' : tree = fromBase mh (first :: rest) := eq_of_nodes (htree.trans hnodes.symm)
  refine ⟨by rw [hpush, htree'], hnodes, ?_, ?_⟩
  · have hbase : (first :: rest).intersperse mh.default ≠ [] := by
      rw [← List.length_pos_iff, length_intersperse mh.default hne, List.length_cons]
      omega
    rw [root_fromBase mh hbase, comuteRecur_intersperse hne
      (length_intersperse mh.default hne).ge]
  · rw [len, hnodes, length_layout hne, List.length_cons]
    omega

end Build

/-! ## The proof of a leaf -/

variable {T : Type} {mh : MerkleHash T}

/-- The trees there can be, with their leaves. -/
inductive Built (mh : MerkleHash T) : MerkleTree T → List T → Prop
  | new (root : T) : Built mh (new root) [root]
  | fromBase {base : List T} (hne : base ≠ []) : Built mh (fromBase mh base) base
  | default : Built mh (fromBase mh []) [mh.default]
  | push {tree tree' : MerkleTree T} {leaves : List T} {leaf : T} (hbuilt : Built mh tree leaves)
      (hpush : push mh tree leaf = some tree') : Built mh tree' (leaves ++ [leaf])

theorem layout_singleton (leaf : T) : layout mh [leaf] = [leaf] := by
  rw [layout]

/-- A built tree is laid out over its leaves, of which there is at least one. -/
theorem Built.layout {tree : MerkleTree T} {leaves : List T} (h : Built mh tree leaves) :
    leaves ≠ [] ∧ tree.nodes = MerkleTree.layout mh leaves := by
  induction h with
  | new root => exact ⟨List.cons_ne_nil _ _, (layout_singleton root).symm⟩
  | fromBase hne => exact ⟨hne, nodes_fromBase hne⟩
  | default => exact ⟨List.cons_ne_nil _ _, (layout_singleton mh.default).symm⟩
  | push hbuilt hpush ih =>
      obtain ⟨hne, hnodes⟩ := ih
      obtain ⟨tree, hpush', hlayout⟩ := push_layout hne hnodes _
      rw [hpush, Option.some.injEq] at hpush'
      subst hpush'
      exact ⟨by simp, hlayout⟩

/-- The root of a tree that is laid out over its leaves. -/
theorem root_of_layout {tree : MerkleTree T} {leaves : List T} (hne : leaves ≠ [])
    (h : tree.nodes = MerkleTree.layout mh leaves) : tree.root = value mh leaves := by
  have hroot : (MerkleTree.layout mh leaves)[midPoint (2 * leaves.length - 1)]? =
      some (value mh leaves) := getElem?_layout hne
  have hsize : tree.nodes.length = 2 * leaves.length - 1 := by rw [h, length_layout hne]
  have hget : tree.nodes[midPoint tree.nodes.length]? = some tree.root :=
    List.getElem?_eq_getElem _
  rw [hsize, h] at hget
  exact Option.some.inj (hget.symm.trans hroot)

/-- A leaf is at twice its place. -/
theorem getElem?_leaf {leaves : List T} {i : Nat} (hi : i < leaves.length) :
    (MerkleTree.layout mh leaves)[2 * i]? = some leaves[i] := by
  have hbegin : i * 2 ^ 0 < leaves.length := by rwa [Nat.pow_zero, Nat.mul_one]
  have hblock : blockAt leaves 0 i = [leaves[i]] := by
    rw [blockAt, Nat.pow_zero, Nat.mul_one, List.drop_eq_getElem_cons hi]
    rfl
  have hfirst : rootIndex [leaves[i]].length = 0 := rootIndex_perfect 0
  have hroot := getElem?_blockAt mh hbegin
  rw [hblock, value] at hroot
  rwa [Nat.pow_zero, Nat.mul_one, hfirst, Nat.add_zero] at hroot

/-- **Merkle proofs are the authentication path.** The leaf `i` is the node `2 * i`. Its
proof is read without a panic, is the path of siblings, and leads from the leaf to the
root: with the side of each node, or without where the order does not matter. -/
theorem proof_is_path (mh : MerkleHash T) (tree : MerkleTree T) (leaves : List T)
    (hbuilt : Built mh tree leaves) (i : Nat) (hi : i < leaves.length) :
    tree.nodes[2 * i]? = some leaves[i] ∧
      tree.proof (2 * i) = some ((authPath mh leaves i).map Sibling.node) ∧
      foldPath mh leaves[i] (authPath mh leaves i) = tree.root ∧
      ((∀ a b, mh.combine a b = mh.combine b a) →
        (tree.proof (2 * i)).map (List.foldl mh.combine leaves[i]) = some tree.root) := by
  obtain ⟨hne, hnodes⟩ := hbuilt.layout
  have hpath := proof_eq tree hnodes hi
  have hfold : foldPath mh leaves[i] (authPath mh leaves i) = tree.root := by
    rw [foldPath_authPath hi, root_of_layout hne hnodes]
  refine ⟨by rw [hnodes, getElem?_leaf hi], hpath, hfold, fun hcomm => ?_⟩
  rw [hpath, Option.map_some, ← foldPath_of_comm hcomm, hfold]

/-- A leaf pushed onto the tree over three others, with sums: its proof adds up to the root. -/
theorem proof_is_path_pushed :
    ∃ tree, push ⟨0, (· + ·)⟩ (fromBase ⟨0, (· + ·)⟩ [10, 11, 12]) 13 = some tree ∧
      tree.nodes[2 * 3]? = some 13 ∧
      (tree.proof (2 * 3)).map (List.foldl (· + ·) 13) = some tree.root := by
  let sum : MerkleHash Nat := ⟨0, (· + ·)⟩
  have hbase : Built sum (fromBase sum [10, 11, 12]) [10, 11, 12] := .fromBase (by simp)
  obtain ⟨hne, hnodes⟩ := hbase.layout
  obtain ⟨tree, hpush, -⟩ := push_layout hne hnodes 13
  obtain ⟨hleaf, -, -, hfold⟩ :=
    proof_is_path sum tree [10, 11, 12, 13] (hbase.push hpush) 3 (by simp)
  exact ⟨tree, hpush, hleaf, hfold fun a b => Nat.add_comm a b⟩

end OnionNetwork.Merkle.MerkleTree
