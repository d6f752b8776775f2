import Mathlib.Algebra.Order.Group.Nat
import OnionNetwork.Lib.Search
import OnionNetwork.Lib.Machine
import OnionNetwork.Lib.Selection
import OnionNetwork.Lib.Vec

/-!
# Sorted compact vectors

The free blocks of a file as ranges, kept as their starts and lengths in two parallel arrays.
`pop_exact` looks for a range with 64 lanes at a time, `pop_exact_slow` with one.

With debug assertions an overflow is a panic, without them it wraps. After a panic the vector is
what the call has made of it so far.
-/

namespace OnionNetwork.Storage

open Lib

/-! ## Elements and ranges -/

/-- `SortedElement`, an unsigned type of so many bits, in a build with or without checks. -/
structure SortedElement where
  bits : ℕ
  debugAssertions : Bool

namespace SortedElement

variable (t : SortedElement)

/-- `T::MAX`. -/
def max : ℕ := 2 ^ t.bits - 1

/-- `a + b`. -/
def add (a b : ℕ) : Option ℕ :=
  if a + b ≤ t.max then some (a + b)
  else if t.debugAssertions then none
  else some (a + b - 2 ^ t.bits)

/-- `a - b`. -/
def sub (a b : ℕ) : Option ℕ :=
  if b ≤ a then some (a - b)
  else if t.debugAssertions then none
  else some (a + 2 ^ t.bits - b)

variable {t} {a b v : ℕ}

theorem add_of_le (h : a + b ≤ t.max) : t.add a b = some (a + b) := if_pos h

theorem sub_of_le (h : b ≤ a) : t.sub a b = some (a - b) := if_pos h

/-- What an addition ends in can be added to 0. -/
theorem add_zero_isSome (h : t.add a b = some v) : (t.add v 0).isSome := by
  unfold add at *
  cases hdebug : t.debugAssertions <;> grind

end SortedElement

/-- `Range<T>`. -/
structure Range where
  start : ℕ
  stop : ℕ
  deriving DecidableEq

/-- The values of the range. -/
def Range.Has (r : Range) (v : ℕ) : Prop := r.start ≤ v ∧ v < r.stop

/-- `RangeRef`. -/
structure RangeRef where
  start : ℕ
  len : ℕ
  deriving DecidableEq

namespace RangeRef

/-- `RangeRef::end`. -/
def stop (t : SortedElement) (e : RangeRef) : Option ℕ := t.add e.start e.len

/-- The values of the entry. -/
def Has (e : RangeRef) (v : ℕ) : Prop := e.start ≤ v ∧ v < e.start + e.len

instance (e : RangeRef) (v : ℕ) : Decidable (e.Has v) :=
  inferInstanceAs (Decidable (_ ∧ _))

end RangeRef

/-- `SortedCompactVec`. -/
abbrev SortedCompactVec := List RangeRef

namespace SortedCompactVec

variable (t : SortedElement) (s : SortedCompactVec)

/-! ## The storage -/

/-- `SimdStorage::insert`. -/
def insert (index : ℕ) (elem : Range) : SortedCompactVec × Option Unit :=
  match t.sub elem.stop elem.start with
  | none =>
      -- the entries behind have been moved, and the start is written
      let len := (s[index]?.map RangeRef.len).getD 0
      ((s.insertIdx index ⟨elem.start, len⟩).take s.length, none)
  | some len => (s.insertIdx index ⟨elem.start, len⟩, some ())

/-- `SimdStorage::remove`. -/
def remove (index : ℕ) : SortedCompactVec × Option Range :=
  match s[index]? with
  | none => (s, none)
  | some elem =>
      -- the answer is a range, and the length takes the place of its end
      (s.eraseIdx index, some ⟨elem.start, elem.len⟩)

/-- `SimdStorage::pop`. -/
def storagePop : SortedCompactVec × Option Range :=
  if s.length = 0 then (s, none) else s.remove (s.length - 1)

/-- `SimdStorage::get`, at `index.wrapping_sub(1)`. -/
def getBefore (index : ℕ) : Option RangeRef :=
  if index = 0 then none else s[index - 1]?

/-- `SimdStorage::last_mut`. There is no entry at `usize::MAX`. -/
def lastMut : Option (Option RangeRef) :=
  if s.length = 0 then if t.debugAssertions then none else some none
  else some s[s.length - 1]?

/-! ## The vector -/

/-- `SortedCompactVec::new`. -/
def new : SortedCompactVec := [⟨0, t.max⟩]

/-- `SortedCompactVec::allocated`. -/
def allocated : SortedCompactVec := []

/-- `inc_prev`. -/
def incPrev (i : ℕ) (range : Range) : Option Bool :=
  match s.getBefore i with
  | none => some false
  | some other => do
      let stop ← other.stop t
      let next ← t.add stop 1
      some (range.start == next)

/-- `dec_next`. -/
def decNext (i : ℕ) (range : Range) : Option Bool :=
  match s[i]? with
  | none => some false
  | some other => do
      let next ← t.add other.start 1
      some (range.stop == next)

/-- `*get_mut(i).len += by`. -/
def addLen (i : ℕ) (by' : Option ℕ) : SortedCompactVec × Option Bool :=
  match s[i]?, by' with
  | some e, some n =>
      match t.add e.len n with
      | none => (s, none)
      | some len => (s.set i { e with len := len }, some true)
  | _, _ => (s, none)

/-- `SortedCompactVec::push_range`. -/
def pushRange (range : Range) : SortedCompactVec × Option Bool :=
  match binarySearchByKey RangeRef.start range.start s with
  | .ok _ => (s, some false)
  | .error i =>
      match incPrev t s i range, decNext t s i range with
      | some true, some true =>
          -- the next entry goes, and the previous one is to take it in
          match s.remove i with
          | (s, none) => (s, none)
          | (s, some other) => addLen t s (i - 1) (t.sub other.stop other.start)
      | some true, some false => addLen t s (i - 1) (t.sub range.stop range.start)
      | some false, some true =>
          -- the next entry begins with the range from now on
          match s[i]? with
          | none => (s, none)
          | some e =>
              addLen t (s.set i { e with start := range.start }) i
                (t.sub range.stop range.start)
      | some false, some false =>
          match insert t s i range with
          | (s, none) => (s, none)
          | (s, some ()) => (s, some true)
      | _, _ => (s, none)

/-- `SortedCompactVec::pop`. -/
def pop : SortedCompactVec × Option (Option ℕ) :=
  match lastMut t s with
  | none => (s, none)
  | some none => (s, some none)
  | some (some last) =>
      if last.len = 0 then
        let (s, r) := s.storagePop
        (s, some (r.map Range.start))
      else
        let last := { last with len := last.len - 1 }
        -- one behind the new end, so the old end
        (s.set (s.length - 1) last, do
          let stop ← last.stop t
          let value ← t.add stop 1
          some (some value))

/-- The end of a call that takes `n` values of the entry at `i`, which has as many. -/
def shrink (i : ℕ) (e : RangeRef) (n : ℕ) : SortedCompactVec × Option (Option Range) :=
  let e := { e with len := e.len - n }
  (s.set i e, do
    let start ← e.stop t
    let stop ← t.add start n
    some (some ⟨start, stop⟩))

/-- `SortedCompactVec::pop_n`. -/
def popN (n : ℕ) : SortedCompactVec × Option (Option Range) :=
  match lastMut t s with
  | none => (s, none)
  | some none => (s, some none)
  | some (some last) =>
      if last.len < n then
        let (s, r) := s.storagePop
        (s, some r)
      else shrink t s (s.length - 1) last n

/-! ## The searches -/

/-- `LANES`. -/
def lanes : ℕ := 64

/-- `to_bitmask`: the first lane is the lowest bit. -/
def toBitmask : List Bool → ℕ
  | [] => 0
  | lane :: mask => lane.toNat + 2 * toBitmask mask

/-- `trailing_zeros` of a number of so many bits. -/
def trailingZeros : ℕ → ℕ → ℕ
  | 0, _ => 0
  | bits + 1, mask => if mask % 2 = 1 then 0 else trailingZeros bits (mask / 2) + 1

/-- The number of the values in full blocks. -/
def full : ℕ := s.length / lanes * lanes

/-- The lengths in the full block `i`. -/
def block (i : ℕ) : List ℕ := ((s.map RangeRef.len).drop (i * lanes)).take lanes

/-- `lens_simd`. -/
def lensSimd : List (List ℕ) := (List.range (s.length / lanes)).map s.block

/-- `lens`, the lengths behind the full blocks. -/
def lensTail : List ℕ := (s.map RangeRef.len).drop s.full

/-- What is found in a block. -/
def findInBlock (n i : ℕ) (len : List ℕ) : Option ℕ :=
  let bitMask := toBitmask (len.map fun l => decide (n ≤ l))
  if bitMask = 0 then none else some (i * lanes + trailingZeros lanes bitMask)

/-- The search of `pop_exact`. -/
def find (n : ℕ) : Option ℕ :=
  -- only where no block has one, the entries behind the blocks are looked at
  (findLast (findInBlock n) s.lensSimd).or
    (findLast (fun i len => if n ≤ len then some (i + s.lensSimd.length * lanes) else none)
      s.lensTail)

/-- The search of `pop_exact_slow`. -/
def findSlow (n : ℕ) : Option ℕ :=
  findLast (fun i len => if n ≤ len then some i else none) (s.map RangeRef.len)

/-- What both do with the entry they find. -/
def takeAt (n i : ℕ) : SortedCompactVec × Option (Option Range) :=
  match s[i]? with
  | none => (s, none)
  | some changed =>
      if changed.len = n then
        let (s, r) := s.remove i
        (s, some r)
      else shrink t s i changed n

/-- `SortedCompactVec::pop_exact`. -/
def popExact (n : ℕ) : SortedCompactVec × Option (Option Range) :=
  match s.find n with
  | none => (s, some none)
  | some i => takeAt t s n i

/-- `SortedCompactVec::pop_exact_slow`. -/
def popExactSlow (n : ℕ) : SortedCompactVec × Option (Option Range) :=
  match s.findSlow n with
  | none => (s, some none)
  | some i => takeAt t s n i

/-! ## Calls -/

/-- The calls that change a vector. -/
inductive Op where
  | push (range : Range)
  | pop
  | popN (n : ℕ)
  | popExact (n : ℕ)

/-- Their answers. -/
inductive Answer where
  | pushed (done : Bool)
  | value (v : Option ℕ)
  | range (r : Option Range)
  deriving DecidableEq

/-- A call, and its answer unless it panics. -/
def step : Op → SortedCompactVec × Option Answer
  | .push range => (pushRange t s range).map id (·.map .pushed)
  | .pop => (pop t s).map id (·.map .value)
  | .popN n => (popN t s n).map id (·.map .range)
  | .popExact n => (popExact t s n).map id (·.map .range)

/-- The machine of the calls. -/
def machine : Machine SortedCompactVec Op (Option Answer) where
  step := step t

/-! ## What the searches find -/

section Bits

variable {mask front : List Bool} {bits : ℕ}

@[simp] theorem toBitmask_false : toBitmask (false :: mask) = 2 * toBitmask mask := by
  simp [toBitmask]

@[simp] theorem toBitmask_true : toBitmask (true :: mask) = 2 * toBitmask mask + 1 := by
  simp [toBitmask, Nat.add_comm]

theorem toBitmask_eq_zero : toBitmask mask = 0 ↔ ∀ lane ∈ mask, lane = false := by
  induction mask with
  | nil => simp [toBitmask]
  | cons lane mask ih =>
      cases lane with
      | false => simpa [Nat.mul_eq_zero] using ih
      | true => simp

/-- The first lane that is set. -/
theorem exists_first_lane (h : toBitmask mask ≠ 0) :
    ∃ front back, mask = front ++ true :: back ∧ ∀ lane ∈ front, lane = false := by
  induction mask with
  | nil => exact absurd rfl h
  | cons lane mask ih =>
      cases lane with
      | true => exact ⟨[], mask, rfl, by simp⟩
      | false =>
          have hrest : toBitmask mask ≠ 0 := by simpa [Nat.mul_eq_zero] using h
          obtain ⟨front, back, rfl, hfront⟩ := ih hrest
          exact ⟨false :: front, back, rfl, by simpa using hfront⟩

/-- The trailing zeros are the lanes in front of the first one that is set. -/
theorem trailingZeros_toBitmask (back : List Bool) (hfront : ∀ lane ∈ front, lane = false)
    (hbits : front.length < bits) :
    trailingZeros bits (toBitmask (front ++ true :: back)) = front.length := by
  induction front generalizing bits with
  | nil =>
      obtain ⟨bits, rfl⟩ := Nat.exists_eq_succ_of_ne_zero hbits.ne'
      simp [trailingZeros]
  | cons lane front ih =>
      obtain ⟨bits, rfl⟩ := Nat.exists_eq_succ_of_ne_zero (Nat.ne_zero_of_lt hbits)
      obtain ⟨hlane, hrest⟩ := List.forall_mem_cons.mp hfront
      have hlength : front.length < bits := by simpa using hbits
      simp [hlane, trailingZeros, ih hrest hlength]

end Bits

/-- The entry at `i` has `n` values. -/
def Fits (n i : ℕ) : Prop := ∃ e, s[i]? = some e ∧ n ≤ e.len

/-- The last entry with `n` values. -/
structure Last (n i : ℕ) : Prop where
  fits : s.Fits n i
  last : ∀ j, s.Fits n j → j ≤ i

/-- Of the last full block that has an entry with `n` values the first one. Where no full block
has one, the last one behind them. -/
structure Picked (n i : ℕ) : Prop where
  fits : s.Fits n i
  inBlock : i < s.full → ∀ j < s.full, s.Fits n j → j / lanes ≤ i / lanes
  first : i < s.full → ∀ j < s.full, s.Fits n j → j / lanes = i / lanes → i ≤ j
  behind : s.full ≤ i → ∀ j, s.Fits n j → s.full ≤ j ∧ j ≤ i

section Search

variable {s} {n i j b r : ℕ}

theorem fits_iff : s.Fits n i ↔ ∃ len, (s.map RangeRef.len)[i]? = some len ∧ n ≤ len := by
  simp [Fits]

theorem lt_full_iff : i < s.full ↔ i / lanes < s.length / lanes :=
  (Nat.div_lt_iff_lt_mul (by decide)).symm

theorem getElem?_lensSimd (hb : b < s.length / lanes) : s.lensSimd[b]? = some (s.block b) := by
  simp [lensSimd, hb]

/-- The lanes of a full block. -/
theorem fits_block (hr : r < lanes) :
    s.Fits n (b * lanes + r) ↔ ∃ len, (s.block b)[r]? = some len ∧ n ≤ len := by
  simp [fits_iff, block, hr]

/-- A block without such an entry. -/
theorem findInBlock_eq_none :
    findInBlock n b (s.block b) = none ↔ ∀ r < lanes, ¬ s.Fits n (b * lanes + r) := by
  have hzero : findInBlock n b (s.block b) = none ↔ ∀ len ∈ s.block b, ¬ n ≤ len := by
    simp [findInBlock, toBitmask_eq_zero]
  rw [hzero]
  constructor
  · intro h r hr hfits
    obtain ⟨len, hlen, hn⟩ := (fits_block hr).mp hfits
    exact h len (List.mem_of_getElem? hlen) hn
  · intro h len hlen hn
    obtain ⟨r, hr⟩ := List.mem_iff_getElem?.mp hlen
    have hlt : r < lanes :=
      (List.getElem?_eq_some_iff.mp hr).1.trans_le (List.length_take_le _ _)
    exact h r hlt ((fits_block hlt).mpr ⟨len, hr, hn⟩)

/-- In a block the first such entry is found. -/
theorem findInBlock_eq_some (h : findInBlock n b (s.block b) = some i) :
    ∃ r < lanes, i = b * lanes + r ∧ s.Fits n i ∧ ∀ j < r, ¬ s.Fits n (b * lanes + j) := by
  have hmask : toBitmask ((s.block b).map fun l => decide (n ≤ l)) ≠ 0 := by
    intro hzero
    simp [findInBlock, hzero] at h
  -- the mask and the block have the same places, and the first lane that is set has `r` in front
  obtain ⟨front, back, hsplit, hfront⟩ := exists_first_lane hmask
  have hlane (j : ℕ) :
      ((s.block b)[j]?).map (fun l => decide (n ≤ l)) = (front ++ true :: back)[j]? := by
    rw [← hsplit, List.getElem?_map]
  have hlt : front.length < lanes := by
    have hlen : (front ++ true :: back).length ≤ lanes := by
      rw [← hsplit, List.length_map]
      exact List.length_take_le _ _
    simp only [List.length_append, List.length_cons] at hlen
    omega
  obtain ⟨-, hi⟩ : _ ∧ b * lanes + front.length = i := by
    simpa [findInBlock, hsplit, trailingZeros_toBitmask back hfront hlt] using h
  refine ⟨front.length, hlt, hi.symm, ?_, ?_⟩
  · have hset := hlane front.length
    rw [List.getElem?_append_right le_rfl, Nat.sub_self, List.getElem?_cons_zero] at hset
    obtain ⟨len, hlen, hn⟩ := Option.map_eq_some_iff.mp hset
    rw [← hi]
    exact (fits_block hlt).mpr ⟨len, hlen, of_decide_eq_true hn⟩
  · intro j hj hfits
    obtain ⟨len, hlen, hn⟩ := (fits_block (hj.trans hlt)).mp hfits
    have hclear := hlane j
    rw [List.getElem?_append_left hj, hlen, Option.map_some, decide_eq_true hn] at hclear
    exact absurd (hfront true (List.mem_of_getElem? hclear.symm)) (by simp)

theorem mem_lensSimd {len : List ℕ} (h : s.lensSimd[b]? = some len) :
    b < s.length / lanes ∧ len = s.block b := by
  have hb : b < s.length / lanes := by
    simpa [lensSimd] using (List.getElem?_eq_some_iff.mp h).1
  rw [getElem?_lensSimd hb] at h
  exact ⟨hb, (Option.some.inj h).symm⟩

theorem not_fits_of_findInBlock (h : findInBlock n b (s.block b) = none) (hj : j / lanes = b) :
    ¬ s.Fits n j := by
  subst hj
  have hnot := findInBlock_eq_none.mp h (j % lanes) (Nat.mod_lt _ (by decide))
  rwa [Nat.div_add_mod'] at hnot

/-- The full blocks have no such entry. -/
theorem findLast_block_eq_none (h : findLast (findInBlock n) s.lensSimd = none) :
    ∀ j, s.Fits n j → s.full ≤ j := by
  intro j hj
  by_contra hlt
  have hb := lt_full_iff.mp (not_le.mp hlt)
  exact not_fits_of_findInBlock (findLast_eq_none.mp h _ _ (getElem?_lensSimd hb)) rfl hj

/-- The search of the full blocks. -/
theorem picked_of_block (h : findLast (findInBlock n) s.lensSimd = some i) : s.Picked n i := by
  obtain ⟨b, len, hlen, hfind, hlater⟩ := findLast_eq_some.mp h
  obtain ⟨hb, rfl⟩ := mem_lensSimd hlen
  obtain ⟨r, hr, rfl, hfits, hfirst⟩ := findInBlock_eq_some hfind
  have hdiv : (b * lanes + r) / lanes = b := by
    rw [Nat.mul_comm, Nat.mul_add_div (by decide), Nat.div_eq_of_lt hr, Nat.add_zero]
  have hfull : b * lanes + r < s.full := by
    rw [lt_full_iff, hdiv]
    exact hb
  refine ⟨hfits, ?_, ?_, fun hle => absurd hfull (not_lt.mpr hle)⟩
  · intro _ j hj hjfits
    rw [hdiv]
    by_contra hlt
    have hnone := hlater (j / lanes) _ (not_le.mp hlt) (getElem?_lensSimd (lt_full_iff.mp hj))
    exact not_fits_of_findInBlock hnone rfl hjfits
  · intro _ j hj hjfits hsame
    rw [hdiv] at hsame
    by_contra hlt
    -- an entry of the same block that is further in front
    have hj' : j = b * lanes + j % lanes := by
      rw [← hsame, Nat.div_add_mod']
    refine hfirst (j % lanes) (by omega) ?_
    rwa [← hj']

/-- A search from the end down to `k` finds the last entry. -/
theorem findFrom_eq_some {k : ℕ}
    (h : findLast (fun i len => if n ≤ len then some (i + k) else none)
      ((s.map RangeRef.len).drop k) = some i) :
    s.Fits n i ∧ k ≤ i ∧ ∀ j, s.Fits n j → j ≤ i := by
  obtain ⟨r, len, hlen, hfind, hlater⟩ := findLast_eq_some.mp h
  rw [List.getElem?_drop] at hlen
  obtain ⟨hn, rfl⟩ : n ≤ len ∧ r + k = i := by simpa using hfind
  refine ⟨fits_iff.mpr ⟨len, by rwa [Nat.add_comm], hn⟩, Nat.le_add_left k r, ?_⟩
  intro j hj
  by_contra hlt
  obtain ⟨len', hlen', hn'⟩ := fits_iff.mp hj
  have hj' : k + (j - k) = j := by omega
  have hnone := hlater (j - k) len' (by omega) (by rwa [List.getElem?_drop, hj'])
  simp [hn'] at hnone

theorem findFrom_eq_none {k : ℕ}
    (h : findLast (fun i len => if n ≤ len then some (i + k) else none)
      ((s.map RangeRef.len).drop k) = none) (hj : s.Fits n j) : j < k := by
  by_contra hle
  obtain ⟨len, hlen, hn⟩ := fits_iff.mp hj
  have hj' : k + (j - k) = j := by omega
  have hnone := findLast_eq_none.mp h (j - k) len (by rwa [List.getElem?_drop, hj'])
  simp [hn] at hnone

theorem length_lensSimd : s.lensSimd.length * lanes = s.full := by
  simp [lensSimd, full]

theorem find_eq :
    s.find n = (findLast (findInBlock n) s.lensSimd).or
      (findLast (fun i len => if n ≤ len then some (i + s.full) else none)
        ((s.map RangeRef.len).drop s.full)) := by
  rw [find, length_lensSimd, lensTail]

theorem findSlow_eq :
    s.findSlow n = findLast (fun i len => if n ≤ len then some (i + 0) else none)
      ((s.map RangeRef.len).drop 0) := rfl

/-- What the search of `pop_exact` finds. -/
theorem picked_of_find (h : s.find n = some i) : s.Picked n i := by
  rw [find_eq] at h
  cases hblock : findLast (findInBlock n) s.lensSimd with
  | some k =>
      rw [hblock, Option.some_or] at h
      exact picked_of_block (hblock.trans h)
  | none =>
      rw [hblock, Option.none_or] at h
      obtain ⟨hfits, hle, hlast⟩ := findFrom_eq_some h
      exact {
        fits := hfits
        inBlock := fun hlt => absurd hlt (not_lt.mpr hle)
        first := fun hlt => absurd hlt (not_lt.mpr hle)
        behind := fun _ j hj => ⟨findLast_block_eq_none hblock j hj, hlast j hj⟩ }

theorem not_fits_of_find (h : s.find n = none) (j : ℕ) : ¬ s.Fits n j := by
  intro hj
  rw [find_eq, Option.or_eq_none_iff] at h
  exact absurd (findFrom_eq_none h.2 hj) (not_lt.mpr (findLast_block_eq_none h.1 j hj))

/-- What the search of `pop_exact_slow` finds. -/
theorem last_of_findSlow (h : s.findSlow n = some i) : s.Last n i := by
  rw [findSlow_eq] at h
  obtain ⟨hfits, -, hlast⟩ := findFrom_eq_some h
  exact ⟨hfits, hlast⟩

theorem not_fits_of_findSlow (h : s.findSlow n = none) (j : ℕ) : ¬ s.Fits n j := by
  intro hj
  rw [findSlow_eq] at h
  exact absurd (findFrom_eq_none h hj) (Nat.not_lt_zero j)

theorem Last.unique (h : s.Last n i) (h' : s.Last n j) : i = j :=
  le_antisymm (h'.last i h.fits) (h.last j h'.fits)

theorem Picked.unique (h : s.Picked n i) (h' : s.Picked n j) : i = j := by
  rcases Nat.lt_or_ge i s.full with hi | hi <;> rcases Nat.lt_or_ge j s.full with hj | hj
  · have hblock : i / lanes = j / lanes :=
      le_antisymm (h'.inBlock hj i hi h.fits) (h.inBlock hi j hj h'.fits)
    exact le_antisymm (h.first hi j hj h'.fits hblock.symm) (h'.first hj i hi h.fits hblock)
  · exact absurd (h'.behind hj i h.fits).1 (not_le.mpr hi)
  · exact absurd (h.behind hi j h'.fits).1 (not_le.mpr hj)
  · exact le_antisymm (h'.behind hj i h.fits).2 (h.behind hi j h'.fits).2

/-- **The two searches**, by the entries they find. -/
theorem find_eq_some_iff : s.find n = some i ↔ s.Picked n i := by
  refine ⟨picked_of_find, fun h => ?_⟩
  cases hfind : s.find n with
  | none => exact absurd h.fits (not_fits_of_find hfind i)
  | some k => rw [(picked_of_find hfind).unique h]

theorem findSlow_eq_some_iff : s.findSlow n = some i ↔ s.Last n i := by
  refine ⟨last_of_findSlow, fun h => ?_⟩
  cases hfind : s.findSlow n with
  | none => exact absurd h.fits (not_fits_of_findSlow hfind i)
  | some k => rw [(last_of_findSlow hfind).unique h]

end Search

/-! ## How the calls end -/

section Ends

variable {t} {s front back : SortedCompactVec} {e : RangeRef} {n : ℕ} {range : Range}

/-- The entry at an index, with what is in front of it and behind. -/
theorem exists_place {i : ℕ} (h : s[i]? = some e) :
    ∃ front back, s = front ++ e :: back ∧ i = front.length := by
  obtain ⟨hi, rfl⟩ := List.getElem?_eq_some_iff.mp h
  refine ⟨s.take i, s.drop (i + 1), ?_, (List.length_take_of_le hi.le).symm⟩
  rw [List.getElem_cons_drop, List.take_append_drop]

theorem getElem?_place : (front ++ e :: back)[front.length]? = some e := by simp

theorem set_place (e' : RangeRef) :
    (front ++ e :: back).set front.length e' = front ++ e' :: back := by simp

theorem remove_place :
    (front ++ e :: back).remove front.length = (front ++ back, some ⟨e.start, e.len⟩) := by
  simp [remove, List.eraseIdx_append_of_length_le]

theorem lastMut_concat : lastMut t (front ++ [e]) = some (some e) := by simp [lastMut]

theorem storagePop_concat : (front ++ [e]).storagePop = (front, some ⟨e.start, e.len⟩) := by
  have hremove : (front ++ [e]).remove front.length = (front ++ [], _) := remove_place
  simpa [storagePop] using hremove

theorem stop_of_le (h : e.start + e.len ≤ t.max) : e.stop t = some (e.start + e.len) :=
  SortedElement.add_of_le h

/-- The last values of an entry are taken. -/
theorem shrink_place (h : e.start + e.len ≤ t.max) (hn : n ≤ e.len) :
    shrink t (front ++ e :: back) front.length e n =
      (front ++ ⟨e.start, e.len - n⟩ :: back,
        some (some ⟨e.start + (e.len - n), e.start + e.len⟩)) := by
  have hstart : (⟨e.start, e.len - n⟩ : RangeRef).stop t = some (e.start + (e.len - n)) :=
    stop_of_le (by show e.start + (e.len - n) ≤ t.max; omega)
  have hstop : e.start + (e.len - n) + n = e.start + e.len := by omega
  have hadd : t.add (e.start + (e.len - n)) n = some (e.start + e.len) := by
    rw [SortedElement.add_of_le (by omega), hstop]
  simp [shrink, hstart, hadd]

theorem pop_nil : pop t [] = ([], if t.debugAssertions then none else some none) := by
  cases hdebug : t.debugAssertions <;> simp [pop, lastMut, hdebug]

theorem pop_concat_zero (h : e.len = 0) :
    pop t (front ++ [e]) = (front, some (some e.start)) := by
  simp [pop, lastMut_concat, h, storagePop_concat]

theorem pop_concat (h : e.start + e.len ≤ t.max) (hpos : e.len ≠ 0) :
    pop t (front ++ [e]) =
      (front ++ [⟨e.start, e.len - 1⟩], some (some (e.start + e.len))) := by
  have hstop : (⟨e.start, e.len - 1⟩ : RangeRef).stop t = some (e.start + (e.len - 1)) :=
    stop_of_le (by show e.start + (e.len - 1) ≤ t.max; omega)
  have hvalue : e.start + (e.len - 1) + 1 = e.start + e.len := by omega
  have hadd : t.add (e.start + (e.len - 1)) 1 = some (e.start + e.len) := by
    rw [SortedElement.add_of_le (by omega), hvalue]
  simp [pop, lastMut_concat, hpos, hstop, hadd]

theorem popN_nil : popN t [] n = ([], if t.debugAssertions then none else some none) := by
  cases hdebug : t.debugAssertions <;> simp [popN, lastMut, hdebug]

theorem popN_concat_lt (h : e.len < n) :
    popN t (front ++ [e]) n = (front, some (some ⟨e.start, e.len⟩)) := by
  simp [popN, lastMut_concat, h, storagePop_concat]

theorem popN_concat (hn : n ≤ e.len) :
    popN t (front ++ [e]) n = shrink t (front ++ [e]) front.length e n := by
  simp [popN, lastMut_concat, not_lt.mpr hn]

theorem addLen_place {d : ℕ} (h : e.len + d ≤ t.max) :
    addLen t (front ++ e :: back) front.length (some d) =
      (front ++ ⟨e.start, e.len + d⟩ :: back, some true) := by
  simp [addLen, SortedElement.add_of_le h]

theorem addLen_none {i : ℕ} : addLen t s i none = (s, none) := by
  cases h : s[i]? <;> simp [addLen]

theorem incPrev_nil : incPrev t s 0 range = some false := rfl

theorem incPrev_place (h : e.start + e.len + 1 ≤ t.max) :
    incPrev t (front ++ e :: back) (front.length + 1) range =
      some (range.start == e.start + e.len + 1) := by
  simp [incPrev, getBefore, stop_of_le (Nat.le_of_succ_le h), SortedElement.add_of_le h]

theorem decNext_nil : decNext t front front.length range = some false := by simp [decNext]

theorem decNext_place (h : e.start + 1 ≤ t.max) :
    decNext t (front ++ e :: back) front.length range = some (range.stop == e.start + 1) := by
  simp [decNext, SortedElement.add_of_le h]

theorem insert_place (h : range.start ≤ range.stop) :
    insert t (front ++ back) front.length range =
      (front ++ ⟨range.start, range.stop - range.start⟩ :: back, some ()) := by
  simp [insert, SortedElement.sub_of_le h, insertIdx_length]

end Ends

end SortedCompactVec

end OnionNetwork.Storage
