import Mathlib.Data.List.Basic
import OnionNetwork.Crypto.Primitives

/-!
# The Merkle tree

The in-order array of `merkle-tree`: leaves at the even positions, the parent
of two subtrees between them. `fromBase` spreads the leaves out and fills in
the parents from the bottom; `root_fromBase` says that the root slot holds the
value that recursion computes.
-/

namespace OnionNetwork.Merkle

/-- `MerkleHash`, as a dictionary: the hash one depends on the primitives. -/
structure MerkleHash (T : Type) where
  default : T
  combine : T → T → T

/-- `impl MerkleHash for Hash`. -/
def hashMerkle (cr : Crypto) : MerkleHash Hash := ⟨0, cr.combine⟩

/-- `usize::next_power_of_two`. -/
def nextPowerOfTwo (n : Nat) : Nat :=
  if n ≤ 1 then 1 else 2 ^ ((n - 1).log2 + 1)

/-- `MerkleTree::mid_point`; natural subtraction saturates. -/
def midPoint (len : Nat) : Nat := nextPowerOfTwo len / 2 - 1

/-- The middle lies strictly in front of the last node, unless there is one. -/
theorem midPoint_lt {len : Nat} (h : 2 ≤ len) : midPoint len + 1 < len := by
  have hpow : 2 ^ (len - 1).log2 ≤ len - 1 := Nat.log2_self_le (by omega)
  have hpos : 0 < 2 ^ (len - 1).log2 := Nat.two_pow_pos _
  have hhalf : nextPowerOfTwo len / 2 = 2 ^ (len - 1).log2 := by
    rw [nextPowerOfTwo, if_neg (by omega), Nat.pow_succ, Nat.mul_div_cancel _ (by decide)]
  rw [midPoint, hhalf]
  omega

theorem midPoint_lt_length {len : Nat} (h : 0 < len) : midPoint len < len := by
  by_cases hlen : 2 ≤ len
  · have := midPoint_lt hlen
    omega
  · obtain rfl : len = 1 := by omega
    decide

/-- `MerkleTree<T>`; the array is never empty. -/
structure MerkleTree (T : Type) where
  nodes : List T
  length_pos : 0 < nodes.length

namespace MerkleTree

variable {T : Type}

/-- `MerkleTree::new`. -/
def new (root : T) : MerkleTree T := ⟨[root], Nat.one_pos⟩

/-- `MerkleTree::root`. -/
def root (tree : MerkleTree T) : T :=
  tree.nodes.get ⟨midPoint tree.nodes.length, midPoint_lt_length tree.length_pos⟩

/-- `comute_recur`: the array with its inner nodes filled in, and its root. The
length of the array is enough fuel. The source never recurses into an empty
slice. -/
def comuteRecur (mh : MerkleHash T) : Nat → List T → List T × T
  | _, [] => ([], mh.default)
  | _, [node] => ([node], node)
  | 0, nodes => (nodes, mh.default)
  | fuel + 1, nodes =>
      let mid := midPoint nodes.length
      let (left, l) := comuteRecur mh fuel (nodes.take mid)
      let right := nodes.drop (mid + 1)
      if right.isEmpty then (left ++ [l], l)
      else
        let (right, r) := comuteRecur mh fuel right
        (left ++ mh.combine l r :: right, mh.combine l r)

/-- The recursion on an array of at least two nodes, whose right half is never
empty. -/
theorem comuteRecur_succ (mh : MerkleHash T) {fuel : Nat} {nodes : List T}
    (h : 2 ≤ nodes.length) :
    comuteRecur mh (fuel + 1) nodes =
      let left := comuteRecur mh fuel (nodes.take (midPoint nodes.length))
      let right := comuteRecur mh fuel (nodes.drop (midPoint nodes.length + 1))
      (left.1 ++ mh.combine left.2 right.2 :: right.1, mh.combine left.2 right.2) := by
  have hright : (nodes.drop (midPoint nodes.length + 1)).isEmpty = false := by
    have hmid := midPoint_lt h
    rw [List.isEmpty_eq_false_iff, Ne, List.drop_eq_nil_iff]
    omega
  match nodes, h with
  | a :: b :: rest, _ =>
      rw [comuteRecur]
      · simp only [hright, Bool.false_eq_true, if_false]
      · nofun
      · nofun

/-- Filling in the inner nodes keeps the array's length. -/
theorem length_comuteRecur (mh : MerkleHash T) (fuel : Nat) (nodes : List T) :
    (comuteRecur mh fuel nodes).1.length = nodes.length := by
  induction fuel generalizing nodes with
  | zero =>
      match nodes with
      | [] | [_] | _ :: _ :: _ => rfl
  | succ fuel ih =>
      by_cases hlen : 2 ≤ nodes.length
      · have hmid := midPoint_lt hlen
        rw [comuteRecur_succ mh hlen]
        simp only [List.length_append, List.length_cons, ih, List.length_take, List.length_drop]
        omega
      · match nodes with
        | [] | [_] => rfl
        | _ :: _ :: _ => simp at hlen

/-- The root of the recursion lands in the middle slot. -/
theorem getElem?_comuteRecur (mh : MerkleHash T) {fuel : Nat} {nodes : List T}
    (hpos : 0 < nodes.length) (hfuel : nodes.length ≤ fuel) :
    (comuteRecur mh fuel nodes).1[midPoint nodes.length]? =
      some (comuteRecur mh fuel nodes).2 := by
  by_cases hlen : 2 ≤ nodes.length
  · obtain ⟨fuel, rfl⟩ : ∃ n, fuel = n + 1 := ⟨fuel - 1, by omega⟩
    have hmid := midPoint_lt hlen
    rw [comuteRecur_succ mh hlen]
    have hleft : (comuteRecur mh fuel (nodes.take (midPoint nodes.length))).1.length =
        midPoint nodes.length := by
      rw [length_comuteRecur, List.length_take]
      omega
    simp only
    rw [List.getElem?_append_right (by omega), hleft, Nat.sub_self, List.getElem?_cons_zero]
  · match nodes, hpos with
    | [node], _ => cases fuel <;> simp [comuteRecur, midPoint, nextPowerOfTwo]
    | _ :: _ :: _, _ => simp at hlen

/-- `MerkleTree::from_base`: no leaves give the default tree. -/
def fromBase (mh : MerkleHash T) (base : List T) : MerkleTree T :=
  let nodes := base.intersperse mh.default
  if h : nodes = [] then new mh.default
  else
    ⟨(comuteRecur mh nodes.length nodes).1, by
      rw [length_comuteRecur]
      exact List.length_pos_iff.mpr h⟩

/-- The root of a built tree is what the recursion computes. -/
theorem root_fromBase (mh : MerkleHash T) {base : List T}
    (h : base.intersperse mh.default ≠ []) :
    (fromBase mh base).root =
      (comuteRecur mh (base.intersperse mh.default).length (base.intersperse mh.default)).2 := by
  obtain ⟨hlt, hroot⟩ := List.getElem_of_getElem?
    (getElem?_comuteRecur mh (List.length_pos_iff.mpr h) (Nat.le_refl _))
  simp only [fromBase, dif_neg h, root, List.get_eq_getElem, length_comuteRecur]
  exact hroot

end MerkleTree

end OnionNetwork.Merkle
