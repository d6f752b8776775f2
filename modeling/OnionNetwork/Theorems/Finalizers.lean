import OnionNetwork.Server.Send
import OnionNetwork.Server.Requests

/-!
# The finalizer of a block

The replica that proposes a block is elected by the length of its buffer, and the others
check it by the length of the block it cut. The two lengths differ by what was cut off the
end of the buffer. That is more than the part of a block the buffer ends with, but less than
one frame more, and the verifier rounds up where the proposer rounds down: both count the
same whole blocks (`finalizers_agree`).
-/

namespace OnionNetwork.Server

open Chat Lib

/-- `MAX_MESSAGE_SIZE`, the rest of the encoded message, and its length. -/
def maxFrameLen : Nat := maxMessageSize + sizeOfMessage + 2

example : maxFrameLen = 1042 := by decide

/-! ## The order of the group -/

/-- Closer to the selector, as `select_finalizer` sorts. -/
def Closer (selector a b : Hash) : Prop := a ^^^ selector ≤ b ^^^ selector

instance (selector : Hash) : DecidableRel (Closer selector) :=
  fun a b => inferInstanceAs (Decidable (a ^^^ selector ≤ b ^^^ selector))

instance (selector : Hash) : Std.Total (Closer selector) :=
  ⟨fun a b => BitVec.le_total (a ^^^ selector) (b ^^^ selector)⟩

instance (selector : Hash) : IsTrans Hash (Closer selector) :=
  ⟨fun _ _ _ => BitVec.le_trans⟩

/-- Two nodes at the same distance are one node. -/
theorem Closer.antisymm {selector a b : Hash} (hab : Closer selector a b)
    (hba : Closer selector b a) : a = b := by
  have hxor : a ^^^ selector = b ^^^ selector := BitVec.le_antisymm hab hba
  calc a = a ^^^ selector ^^^ selector := by rw [BitVec.xor_assoc, BitVec.xor_self, BitVec.xor_zero]
    _ = b ^^^ selector ^^^ selector := by rw [hxor]
    _ = b := by rw [BitVec.xor_assoc, BitVec.xor_self, BitVec.xor_zero]

/-- The order in which the group was given does not matter. -/
theorem insertionSort_closer {selector : Hash} {nodes nodes' : List Hash}
    (hperm : nodes.Perm nodes') :
    nodes.insertionSort (Closer selector) = nodes'.insertionSort (Closer selector) := by
  have hsort := List.perm_insertionSort (Closer selector) nodes
  have hsort' := List.perm_insertionSort (Closer selector) nodes'
  have hsorted := List.pairwise_insertionSort (Closer selector) nodes
  have hsorted' := List.pairwise_insertionSort (Closer selector) nodes'
  apply List.Perm.eq_of_pairwise ?_ hsorted hsorted' ((hsort.trans hperm).trans hsort'.symm)
  intro a b _ _ hab hba
  exact hab.antisymm hba

theorem get_round {sorted sorted' : List Hash} (h : sorted = sorted') {len len' : Nat}
    (hround : len / blockSize = len' / blockSize) (hpos : 0 < sorted.length)
    (hpos' : 0 < sorted'.length) :
    sorted.get ⟨len / blockSize % sorted.length, Nat.mod_lt _ hpos⟩ =
      sorted'.get ⟨len' / blockSize % sorted'.length, Nat.mod_lt _ hpos'⟩ := by
  subst h
  simp only [hround]

/-- The finalizer depends on the nodes of the group and the number of whole blocks. -/
theorem selectFinalizer_congr (selector : Hash) {group group' : FullReplGroup}
    (hperm : group.nodes.Perm group'.nodes) {len len' : Nat}
    (hround : len / blockSize = len' / blockSize) :
    selectFinalizer selector group len = selectFinalizer selector group' len' := by
  apply get_round (insertionSort_closer hperm) hround
  · rw [List.length_insertionSort, group.full]
    exact Nat.succ_pos _
  · rw [List.length_insertionSort, group'.full]
    exact Nat.succ_pos _

/-! ## The cut -/

/-- Where a list of frames outgrows a size. -/
theorem exists_outgrows (desired : Nat) (msgs : List Bytes)
    (hlen : desired < (logCode.frames msgs).length) :
    ∃ front msg back, msgs = front ++ msg :: back ∧ (logCode.frames front).length ≤ desired ∧
      desired < (logCode.frames front).length + (msg.length + 2) := by
  induction msgs using List.reverseRecOn with
  | nil => exact absurd hlen (Nat.not_lt_zero _)
  | append_singleton older msg ih =>
      rw [length_frames_concat] at hlen
      rcases Nat.lt_or_ge desired (logCode.frames older).length with hmore | hfits
      · obtain ⟨front, next, back, rfl, hfront, hnext⟩ := ih hmore
        refine ⟨front, next, back ++ [msg], ?_, hfront, hnext⟩
        simp
      · exact ⟨older, msg, [], rfl, hfits, hlen⟩

/-- Rounding the shorter length up counts as many blocks as rounding the longer one down. -/
theorem round_eq {len size : Nat} (hle : size ≤ len / blockSize * blockSize)
    (hlt : len / blockSize * blockSize < size + blockSize) :
    len / blockSize = (size + blockSize - 1) / blockSize := by
  have hpos : 0 < blockSize := by decide
  symm
  apply Nat.div_eq_of_lt_le
  · omega
  · rw [Nat.add_mul]
    omega

/-- A buffer worth a proposal ends in the second half of a block. -/
theorem worth_of_shouldFinalize {len prev : Nat}
    (hfin : Handle.shouldFinalize len prev = true) :
    blockSize < len ∧ blockSize / 2 < len % blockSize := by
  rw [Handle.shouldFinalize, decide_eq_true_eq] at hfin
  exact ⟨hfin.1, hfin.2.1⟩

/-- The block cut off such a buffer: whole frames that fill the whole blocks up to less than a
frame. -/
theorem cutBlock_of_worth {msgs : List Bytes} (hmsgs : ∀ m ∈ msgs, m.length + 2 ≤ maxFrameLen)
    (hhalf : blockSize / 2 < (logCode.frames msgs).length % blockSize) :
    ∃ front back, msgs = front ++ back ∧ cutBlock (logCode.frames msgs) = logCode.frames front ∧
      (logCode.frames front).length ≤ (logCode.frames msgs).length / blockSize * blockSize ∧
      (logCode.frames msgs).length / blockSize * blockSize <
        (logCode.frames front).length + maxFrameLen := by
  have hbound : logCode.Bounded msgs := by
    intro m hm
    have hframe := hmsgs m hm
    show m.length < 256 ^ 2
    have hmax : maxFrameLen < 256 ^ 2 := by decide
    omega
  have hdiv := Nat.div_add_mod' (logCode.frames msgs).length blockSize
  obtain ⟨front, msg, back, hsplit, hfits, hnext⟩ :=
    exists_outgrows ((logCode.frames msgs).length / blockSize * blockSize) msgs (by omega)
  refine ⟨front, msg :: back, hsplit, ?_, hfits, ?_⟩
  · rw [hsplit] at hbound
    have hcut := cutBlock_of_fits hbound rfl (by rw [← hsplit]; exact hfits)
      (by rw [← hsplit]; exact hnext)
    rw [hsplit]
    exact hcut
  · have hmem : msg ∈ msgs := by
      rw [hsplit]
      exact List.mem_append_right _ List.mem_cons_self
    have hframe := hmsgs msg hmem
    omega

/-- **The proposer and its verifiers elect the same finalizer**, and the block it cuts is a
nonempty run of frames from the front of its buffer. -/
theorem finalizers_agree (latestBlock : Hash) {group group' : FullReplGroup}
    (hperm : group.nodes.Perm group'.nodes) {msgs : List Bytes}
    (hmsgs : ∀ m ∈ msgs, m.length + 2 ≤ maxFrameLen) {prevBufferLen : Nat}
    (hfin : Handle.shouldFinalize (logCode.frames msgs).length prevBufferLen = true) :
    let buffer := logCode.frames msgs
    let block := cutBlock buffer
    selectFinalizer latestBlock group buffer.length =
        selectFinalizer latestBlock group' (block.length + blockSize - 1) ∧
      ∃ front back, msgs = front ++ back ∧ front ≠ [] ∧ block = logCode.frames front := by
  obtain ⟨hlen, hhalf⟩ := worth_of_shouldFinalize hfin
  obtain ⟨front, back, hsplit, hblock, hle, hlt⟩ := cutBlock_of_worth hmsgs hhalf
  have hframe : maxFrameLen ≤ blockSize := by decide
  intro buffer block
  refine ⟨?_, front, back, hsplit, ?_, hblock⟩
  · apply selectFinalizer_congr latestBlock hperm
    show buffer.length / blockSize = (block.length + blockSize - 1) / blockSize
    rw [show block = logCode.frames front from hblock]
    apply round_eq hle
    omega
  · -- one whole block is left, and the cut takes less than that
    rintro rfl
    have hone : blockSize ≤ (logCode.frames msgs).length / blockSize * blockSize :=
      Nat.le_mul_of_pos_left _ (Nat.div_pos (Nat.le_of_lt hlen) (by decide))
    rw [LenCode.frames_nil, List.length_nil] at hlt
    have hstrict : maxFrameLen < blockSize := by decide
    omega

/-- Twenty-four of the longest frames, and the group in two orders. -/
theorem finalizers_agree_longest :
    let buffer := logCode.frames (List.replicate 24 (List.replicate 1040 0))
    let block := cutBlock buffer
    selectFinalizer 0 replicas buffer.length =
        selectFinalizer 0 ⟨[4, 3, 2, 1, 0], rfl, by decide⟩ (block.length + blockSize - 1) ∧
      ∃ front back, List.replicate 24 (List.replicate 1040 0) = front ++ back ∧ front ≠ [] ∧
        block = logCode.frames front := by
  refine finalizers_agree 0 (by decide) ?_ (show Handle.shouldFinalize _ 23966 = true from ?_)
  · intro m hm
    rw [List.eq_of_mem_replicate hm, List.length_replicate]
    decide
  · rw [LenCode.length_frames_replicate, List.length_replicate]
    decide

end OnionNetwork.Server
