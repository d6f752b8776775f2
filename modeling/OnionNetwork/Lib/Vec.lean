import Mathlib.Data.List.Nodup
import Mathlib.Data.List.Basic

/-!
# Vectors with a capacity

`ArrayVec` is a list with its capacity bound as a field. Pushing into a full vector is the
one operation that can fail, and it fails visibly.

`Vec` is a growable vector as its elements and its capacity. Code that reads the
capacity (to fill the spare room, or to decide when to move things to the
front) depends on when the vector grows, so growth is modelled: `extend` keeps
the capacity if the elements fit and doubles it otherwise.

To remove one or another element comes to the same in a run of equal ones, and only there
(`eraseIdx_eq_iff`).
-/

namespace OnionNetwork.Lib

/-- At most `cap` elements, in push order. -/
structure ArrayVec (α : Type*) (cap : Nat) where
  toList : List α
  length_le : toList.length ≤ cap
  deriving DecidableEq

namespace ArrayVec

variable {α : Type*} {cap : Nat}

/-- The vector with no elements. -/
def empty : ArrayVec α cap := ⟨[], Nat.zero_le _⟩

instance : Membership α (ArrayVec α cap) := ⟨fun v a => a ∈ v.toList⟩

instance [DecidableEq α] (a : α) (v : ArrayVec α cap) : Decidable (a ∈ v) :=
  inferInstanceAs (Decidable (a ∈ v.toList))

/-- Append an element, unless the vector is full. -/
def push? (v : ArrayVec α cap) (a : α) : Option (ArrayVec α cap) :=
  if h : v.toList.length < cap then
    some ⟨v.toList ++ [a], by rw [List.length_append, List.length_singleton]; exact h⟩
  else none

/-- `ArrayVec::is_full`. -/
def isFull (v : ArrayVec α cap) : Bool := v.toList.length == cap

/-- `ArrayVec::remove`, of an element that is there. -/
def remove (v : ArrayVec α cap) (i : Nat) : ArrayVec α cap where
  toList := v.toList.eraseIdx i
  length_le := Nat.le_trans (List.eraseIdx_sublist _ _).length_le v.length_le

/-- `ArrayVec::retain`. -/
def retain (v : ArrayVec α cap) (p : α → Bool) : ArrayVec α cap where
  toList := v.toList.filter p
  length_le := Nat.le_trans (List.length_filter_le _ _) v.length_le

theorem mem_def {a : α} {v : ArrayVec α cap} : a ∈ v ↔ a ∈ v.toList := Iff.rfl

@[simp] theorem not_mem_empty (a : α) : a ∉ (empty : ArrayVec α cap) := List.not_mem_nil

theorem toList_of_push?_eq_some {v w : ArrayVec α cap} {a : α} (h : v.push? a = some w) :
    w.toList = v.toList ++ [a] := by
  unfold push? at h
  split at h
  · cases h; rfl
  · cases h

theorem mem_of_push?_eq_some {v w : ArrayVec α cap} {a b : α} (h : v.push? a = some w) :
    b ∈ w ↔ b ∈ v ∨ b = a := by
  rw [mem_def, toList_of_push?_eq_some h, List.mem_append, List.mem_singleton, mem_def]

end ArrayVec

end OnionNetwork.Lib

namespace OnionNetwork.Lib

/-- The elements, within the capacity. -/
structure Vec (β : Type*) where
  toList : List β
  capacity : Nat
  length_le : toList.length ≤ capacity
  deriving DecidableEq

namespace Vec

variable {β : Type*}

/-- `Vec::with_capacity`. -/
def withCapacity (n : Nat) : Vec β := ⟨[], n, Nat.zero_le n⟩

/-- The room behind the elements. -/
def spare (v : Vec β) : Nat := v.capacity - v.toList.length

/-- Write into the room behind the elements and count what fits as elements. -/
def fill (v : Vec β) (data : List β) : Vec β where
  toList := v.toList ++ data.take v.spare
  capacity := v.capacity
  length_le := by
    have := v.length_le
    simp only [List.length_append, List.length_take, spare]
    omega

/-- `Vec::extend`. -/
def extend (v : Vec β) (data : List β) : Vec β where
  toList := v.toList ++ data
  capacity :=
    if v.toList.length + data.length ≤ v.capacity then v.capacity
    else max (2 * v.capacity) (v.toList.length + data.length)
  length_le := by
    rw [List.length_append]
    split
    · assumption
    · exact Nat.le_max_right _ _

/-- `Vec::drain(..n)`. -/
def drain (v : Vec β) (n : Nat) : Vec β where
  toList := v.toList.drop n
  capacity := v.capacity
  length_le := by
    have := v.length_le
    rw [List.length_drop]
    omega

/-- Write over the elements from an offset on. -/
def overwrite (v : Vec β) (offset : Nat) (data : List β) : Vec β where
  toList :=
    (v.toList.take offset ++ data ++ v.toList.drop (offset + data.length)).take v.toList.length
  capacity := v.capacity
  length_le := Nat.le_trans (List.length_take_le _ _) v.length_le

@[simp] theorem capacity_fill (v : Vec β) (data : List β) : (v.fill data).capacity = v.capacity :=
  rfl

@[simp] theorem capacity_drain (v : Vec β) (n : Nat) : (v.drain n).capacity = v.capacity := rfl

@[simp] theorem toList_drain (v : Vec β) (n : Nat) : (v.drain n).toList = v.toList.drop n := rfl

@[simp] theorem capacity_overwrite (v : Vec β) (offset : Nat) (data : List β) :
    (v.overwrite offset data).capacity = v.capacity := rfl

@[simp] theorem toList_extend (v : Vec β) (data : List β) :
    (v.extend data).toList = v.toList ++ data := rfl

theorem toList_fill {v : Vec β} {data : List β} (h : data.length ≤ v.spare) :
    (v.fill data).toList = v.toList ++ data := by
  show v.toList ++ data.take v.spare = v.toList ++ data
  rw [List.take_of_length_le h]

theorem capacity_extend {v : Vec β} {data : List β}
    (h : v.toList.length + data.length ≤ v.capacity) :
    (v.extend data).capacity = v.capacity := if_pos h

theorem length_overwrite (v : Vec β) (offset : Nat) (data : List β) :
    (v.overwrite offset data).toList.length = v.toList.length := by
  simp only [overwrite, List.length_take, List.length_append, List.length_drop]
  omega

/-- Within the elements, overwriting replaces. -/
theorem toList_overwrite {v : Vec β} {front data data' back : List β}
    (h : v.toList = front ++ data ++ back) (hlen : data'.length = data.length) :
    (v.overwrite front.length data').toList = front ++ data' ++ back := by
  have hdrop : v.toList.drop (front.length + data'.length) = back := by
    rw [h, hlen, ← List.length_append, List.drop_left]
  have htake : v.toList.take front.length = front := by
    rw [h, List.append_assoc, List.take_left]
  have hv : v.toList.length = (front ++ data' ++ back).length := by
    rw [h]
    simp only [List.length_append, hlen]
  simp only [overwrite, hdrop, htake]
  rw [hv, List.take_length]

end Vec

/-- Removing the one or the other leaves the same elements exactly if all from the one to the
other are equal. -/
theorem eraseIdx_eq_iff {α : Type*} {l : List α} {i j : Nat} (hij : i ≤ j) :
    l.eraseIdx i = l.eraseIdx j ↔ ∀ k, i ≤ k → k ≤ j → l[k]? = l[i]? := by
  constructor
  · intro h k hik
    -- one step of the run: the elements at `k` and `k + 1`
    have hstep : ∀ k, i ≤ k → k < j → l[k + 1]? = l[k]? := by
      intro k hik hkj
      have hk := congrArg (·[k]?) h
      simpa [List.getElem?_eraseIdx, Nat.not_lt.mpr hik, hkj] using hk
    induction hik with
    | refl => exact fun _ => rfl
    | step hik ih => exact fun hkj => (hstep _ hik hkj).trans (ih (Nat.le_of_succ_le hkj))
  · intro h
    apply List.ext_getElem?
    intro k
    rw [List.getElem?_eraseIdx, List.getElem?_eraseIdx]
    split_ifs with hki hkj hkj
    · rfl
    · omega
    · rw [h (k + 1) (by omega) hkj, h k (Nat.not_lt.mp hki) (Nat.le_of_lt hkj)]
    · rfl

end OnionNetwork.Lib
