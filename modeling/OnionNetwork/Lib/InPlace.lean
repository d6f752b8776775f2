import Mathlib.Algebra.BigOperators.Ring.Finset
import Mathlib.Algebra.Field.Defs
import Mathlib.Algebra.GroupWithZero.Units.Basic

/-!
# Loops that work in place

A matrix applied in place: one pass over the rows of a matrix, in order, replaces the value of
some of the places by the product of their row with the vector as it stands, so that a later
row reads what the earlier ones wrote. Where the product with the original vector is known to
be `goal`, the pass ends at `goal` exactly when every place that is replaced, except the last,
already held its goal (`inPlace_eq_iff`).

Pairs of places that are `h` apart, replaced in blocks of `2 * h` places: no pair reads what another
one wrote, so every place ends at what its pair makes of the values before the pass
(`pairRound_low`, `pairRound_high`).
-/

namespace OnionNetwork.Lib

open Finset

section Matrix

variable {F : Type*} [Field F] {k : Nat} {a : Nat → Nat → F} {miss : Nat → Prop}
  [DecidablePred miss] {src goal : Nat → F}

/-- The row `i` is applied. -/
def inPlaceStep (k : Nat) (a : Nat → Nat → F) (miss : Nat → Prop) [DecidablePred miss]
    (x : Nat → F) (i : Nat) : Nat → F :=
  if miss i then Function.update x i (∑ j ∈ range k, a i j * x j) else x

/-- The rows below `i` are applied, in order. -/
def inPlace (k : Nat) (a : Nat → Nat → F) (miss : Nat → Prop) [DecidablePred miss]
    (src : Nat → F) : Nat → Nat → F
  | 0 => src
  | i + 1 => inPlaceStep k a miss (inPlace k a miss src i) i

theorem inPlaceStep_of_ne {x : Nat → F} {i j : Nat} (h : j ≠ i) :
    inPlaceStep k a miss x i j = x j := by
  unfold inPlaceStep
  split
  · exact Function.update_of_ne h _ _
  · rfl

/-- The places from the next row on have not been touched. -/
theorem inPlace_of_le {i j : Nat} (h : i ≤ j) : inPlace k a miss src i j = src j := by
  induction i with
  | zero => rfl
  | succ i ih =>
      rw [inPlace, inPlaceStep_of_ne (by omega), ih (by omega)]

/-- The places behind the next row are not touched again. -/
theorem inPlace_of_lt {i m j : Nat} (hj : j < i) (him : i ≤ m) :
    inPlace k a miss src m j = inPlace k a miss src i j := by
  induction m with
  | zero => omega
  | succ m ih =>
      rcases Nat.eq_or_lt_of_le him with rfl | hlt
      · rfl
      · rw [inPlace, inPlaceStep_of_ne (by omega), ih (by omega)]

/-- **The pass in place is right exactly when what it reads back does not matter**, or was
right from the start. -/
theorem inPlace_eq_iff (a : Nat → Nat → F) (miss : Nat → Prop) [DecidablePred miss]
    (src goal : Nat → F) (hgoal : ∀ i < k, ∑ j ∈ range k, a i j * src j = goal i)
    (hkeep : ∀ i < k, ¬ miss i → src i = goal i)
    (hne : ∀ i < k, ∀ j < k, miss i → miss j → i ≠ j → a i j ≠ 0) :
    (∀ i < k, inPlace k a miss src k i = goal i) ↔
      ∀ j < k, miss j → (∃ l < k, j < l ∧ miss l) → src j = goal j := by
  constructor
  · intro hend
    -- at every row the pass holds the goal before it and the source from it on
    have hat : ∀ i ≤ k, ∀ j < k, inPlace k a miss src i j = if j < i then goal j else src j := by
      intro i hi j hj
      split
      · next hlt => rw [← inPlace_of_lt hlt hi, hend j hj]
      · next hle => exact inPlace_of_le (by omega)
    intro j
    induction j using Nat.strong_induction_on with
    | _ j ih =>
        intro hj hmiss hlater
        -- the first row after `j` that is applied reads the goal of `j`
        classical
        let l := Nat.find hlater
        obtain ⟨hl, hjl, hmissl⟩ : l < k ∧ j < l ∧ miss l := Nat.find_spec hlater
        have hfirst : ∀ m, j < m → m < l → ¬ miss m := by
          intro m hjm hml hm
          exact Nat.find_min hlater hml ⟨by omega, hjm, hm⟩
        have hrow : ∑ i ∈ range k, a l i * (if i < l then goal i else src i) =
            ∑ i ∈ range k, a l i * src i := by
          rw [hgoal l hl, ← hend l hl, inPlace_of_lt (Nat.lt_succ_self l) hl, inPlace,
            inPlaceStep, if_pos hmissl, Function.update_self]
          apply sum_congr rfl
          intro i hi
          rw [hat l hl.le i (mem_range.mp hi)]
        have hother : ∀ i ∈ (range k).erase j,
            a l i * (if i < l then goal i else src i) = a l i * src i := by
          intro i hi
          obtain ⟨hij, hik⟩ := mem_erase.mp hi
          split
          · next hil =>
              by_cases hm : miss i
              · have hlt : i < j := by
                  by_contra hge
                  exact hfirst i (by omega) hil hm
                rw [ih i hlt (mem_range.mp hik) hm ⟨l, hl, by omega, hmissl⟩]
              · rw [hkeep i (mem_range.mp hik) hm]
          · rfl
        rw [← add_sum_erase _ _ (mem_range.mpr hj), ← add_sum_erase _ _ (mem_range.mpr hj),
          sum_congr rfl hother, add_left_inj, if_pos hjl] at hrow
        exact (mul_left_cancel₀ (hne l hl j hj hmissl hmiss (by omega)) hrow).symm
  · intro hread
    have hat : ∀ i ≤ k, ∀ j < k, inPlace k a miss src i j = if j < i then goal j else src j := by
      intro i
      induction i with
      | zero =>
          intro _ j _
          rw [if_neg (Nat.not_lt_zero j)]
          rfl
      | succ i ih =>
          intro hi j hj
          by_cases hji : j = i
          · rw [hji, if_pos (Nat.lt_succ_self i), inPlace, inPlaceStep]
            split
            · next hmiss =>
                rw [Function.update_self, ← hgoal i hi]
                apply sum_congr rfl
                intro m hm
                rw [ih (by omega) m (mem_range.mp hm)]
                split
                · next hmi =>
                    by_cases hmissm : miss m
                    · rw [hread m (mem_range.mp hm) hmissm ⟨i, hi, hmi, hmiss⟩]
                    · rw [hkeep m (mem_range.mp hm) hmissm]
                · rfl
            · next hmiss => rw [inPlace_of_le (Nat.le_refl i), hkeep i hi hmiss]
          · rw [inPlace, inPlaceStep_of_ne hji, ih (by omega) j hj]
            by_cases hlt : j < i
            · rw [if_pos hlt, if_pos (by omega)]
            · rw [if_neg hlt, if_neg (by omega)]
    intro i hi
    rw [hat k (Nat.le_refl k) i hi, if_pos hi]

end Matrix

/-! ### Pairs in place -/

/-- `i = lo; while i < hi { .. i += 1; }` -/
def forRange {σ : Type*} (lo hi : Nat) (body : σ → Nat → σ) (s : σ) : σ :=
  (List.range' lo (hi - lo)).foldl body s

section ForRange

variable {σ : Type*} {lo hi c : Nat} {body : σ → Nat → σ} {s : σ}

theorem forRange_of_le (h : hi ≤ lo) : forRange lo hi body s = s := by
  rw [forRange, Nat.sub_eq_zero_of_le h]
  rfl

/-- The last round. -/
theorem forRange_succ (h : lo ≤ hi) :
    forRange lo (hi + 1) body s = body (forRange lo hi body s) hi := by
  rw [forRange, Nat.sub_add_comm h, List.range'_1_concat, List.foldl_concat, ← forRange,
    Nat.add_sub_cancel' h]

/-- What every round keeps. -/
theorem forRange_induction {P : Nat → σ → Prop} (h : lo ≤ hi) (hs : P lo s)
    (hbody : ∀ i s, lo ≤ i → i < hi → P i s → P (i + 1) (body s i)) :
    P hi (forRange lo hi body s) := by
  induction hi, h using Nat.le_induction with
  | base =>
      rw [forRange_of_le (Nat.le_refl lo)]
      exact hs
  | succ hi hle ih =>
      rw [forRange_succ hle]
      exact hbody hi _ hle (Nat.lt_succ_self hi) (ih fun i s hlo hhi => hbody i s hlo (by omega))

/-- A loop that stops at the first round that is not let in. -/
theorem forRange_guard {σ : Type*} (bad : Nat → Prop) [DecidablePred bad] (body : σ → Nat → σ)
    (n : Nat) (s : σ) :
    forRange 0 n (fun s u => s.bind fun s => if bad u then none else some (body s u)) (some s) =
      if ∀ u < n, ¬ bad u then some (forRange 0 n body s) else none := by
  induction n with
  | zero =>
      rw [if_pos fun u hu => absurd hu (Nat.not_lt_zero u)]
      rfl
  | succ n ih =>
      rw [forRange_succ (Nat.zero_le n), ih, forRange_succ (Nat.zero_le n)]
      by_cases hall : ∀ u < n, ¬ bad u
      · rw [if_pos hall, Option.bind_some]
        by_cases hn : bad n
        · rw [if_pos hn, if_neg fun h => h n (Nat.lt_succ_self n) hn]
        · rw [if_neg hn, if_pos]
          intro u hu
          rcases Nat.lt_or_eq_of_le (Nat.le_of_lt_succ hu) with hlt | rfl
          · exact hall u hlt
          · exact hn
      · rw [if_neg hall, Option.bind_none, if_neg fun h => hall fun u hu => h u (by omega)]

/-- A loop over the places of an array, each by itself. -/
theorem forRange_update {α : Type*} (f : Nat → α → α) (n : Nat) (a : Nat → α) (x : Nat) :
    forRange 0 n (fun a u => Function.update a u (f u (a u))) a x =
      if x < n then f x (a x) else a x := by
  induction n with
  | zero => rfl
  | succ n ih =>
      rw [forRange_succ (Nat.zero_le n)]
      by_cases hx : x = n
      · subst hx
        rw [Function.update_self, ih, if_neg (Nat.lt_irrefl x), if_pos (Nat.lt_succ_self x)]
      · rw [Function.update_of_ne hx, ih]
        congr 1
        exact propext (by omega)

end ForRange

section Pairs

variable {α : Type*} {f : Nat → α → α → α × α} {m h i j x : Nat} {a : Nat → α}

/-- The pair at `j`. -/
def pairStep (f : α → α → α × α) (h : Nat) (a : Nat → α) (j : Nat) : Nat → α :=
  Function.update (Function.update a j (f (a j) (a (j + h))).1) (j + h) (f (a j) (a (j + h))).2

/-- The pairs of `m` blocks. -/
def pairRound (f : Nat → α → α → α × α) (m h : Nat) (a : Nat → α) : Nat → α :=
  forRange 0 m (fun a i => forRange (i * (2 * h)) (i * (2 * h) + h) (pairStep (f i) h) a) a

/-- The pairs of one block: what is done, what is not done yet, and what is not of this block. -/
private theorem forRange_pairStep (f : α → α → α × α) (h lo : Nat) (a : Nat → α) :
    ∀ c ≤ h, (∀ j < c, forRange lo (lo + c) (pairStep f h) a (lo + j) =
          (f (a (lo + j)) (a (lo + j + h))).1 ∧
        forRange lo (lo + c) (pairStep f h) a (lo + j + h) =
          (f (a (lo + j)) (a (lo + j + h))).2) ∧
      ∀ x, (∀ j < c, x ≠ lo + j ∧ x ≠ lo + j + h) →
        forRange lo (lo + c) (pairStep f h) a x = a x := by
  intro c hc
  induction c with
  | zero => exact ⟨by omega, fun x _ => by rw [Nat.add_zero, forRange_of_le (Nat.le_refl lo)]⟩
  | succ c ih =>
      obtain ⟨hdone, hkeep⟩ := ih (by omega)
      rw [← Nat.add_assoc, forRange_succ (by omega)]
      generalize forRange lo (lo + c) (pairStep f h) a = b at *
      have hnext : b (lo + c) = a (lo + c) := hkeep _ (by omega)
      have hpair : b (lo + c + h) = a (lo + c + h) := hkeep _ (by omega)
      refine ⟨?_, ?_⟩
      · intro j hj
        rcases Nat.lt_or_eq_of_le (Nat.le_of_lt_succ hj) with hlt | rfl
        · obtain ⟨hlow, hhigh⟩ := hdone j hlt
          refine ⟨?_, ?_⟩
          · rw [pairStep, Function.update_of_ne (by omega), Function.update_of_ne (by omega), hlow]
          · rw [pairStep, Function.update_of_ne (by omega), Function.update_of_ne (by omega), hhigh]
        · refine ⟨?_, ?_⟩
          · rw [pairStep, Function.update_of_ne (by omega), Function.update_self, hnext, hpair]
          · rw [pairStep, Function.update_self, hnext, hpair]
      · intro x hx
        obtain ⟨hlow, hhigh⟩ := hx c (by omega)
        rw [pairStep, Function.update_of_ne hhigh, Function.update_of_ne hlow]
        exact hkeep x fun j hj => hx j (by omega)

/-- The first blocks, each from what was there before the pass. -/
private theorem pairRound_spec (f : Nat → α → α → α × α) (h : Nat) (a : Nat → α) (m : Nat) :
    (∀ i < m, ∀ j < h,
      pairRound f m h a (i * (2 * h) + j) =
          (f i (a (i * (2 * h) + j)) (a (i * (2 * h) + j + h))).1 ∧
        pairRound f m h a (i * (2 * h) + j + h) =
          (f i (a (i * (2 * h) + j)) (a (i * (2 * h) + j + h))).2) ∧
      ∀ x, m * (2 * h) ≤ x → pairRound f m h a x = a x := by
  induction m with
  | zero => exact ⟨by omega, fun x _ => rfl⟩
  | succ m ih =>
      obtain ⟨hdone, hkeep⟩ := ih
      rw [pairRound, forRange_succ (Nat.zero_le m), ← pairRound]
      obtain ⟨hblock, hrest⟩ :=
        forRange_pairStep (f m) h (m * (2 * h)) (pairRound f m h a) h (Nat.le_refl h)
      generalize pairRound f m h a = b at *
      refine ⟨?_, ?_⟩
      · intro i hi j hj
        rcases Nat.lt_or_eq_of_le (Nat.le_of_lt_succ hi) with hlt | rfl
        · have hbehind := Nat.mul_le_mul_right (2 * h) (show i + 1 ≤ m from hlt)
          rw [Nat.succ_mul] at hbehind
          rw [hrest _ (by omega), hrest _ (by omega)]
          exact hdone i hlt j hj
        · obtain ⟨hlow, hhigh⟩ := hblock j hj
          rw [hkeep _ (by omega), hkeep _ (by omega)] at hlow hhigh
          exact ⟨hlow, hhigh⟩
      · intro x hx
        rw [Nat.succ_mul] at hx
        rw [hrest x (by omega), hkeep x (by omega)]

theorem pairRound_low (hi : i < m) (hj : j < h) :
    pairRound f m h a (i * (2 * h) + j) =
      (f i (a (i * (2 * h) + j)) (a (i * (2 * h) + (j + h)))).1 := by
  rw [← Nat.add_assoc]
  exact ((pairRound_spec f h a m).1 i hi j hj).1

theorem pairRound_high (hi : i < m) (hj : j < h) :
    pairRound f m h a (i * (2 * h) + (j + h)) =
      (f i (a (i * (2 * h) + j)) (a (i * (2 * h) + (j + h)))).2 := by
  rw [← Nat.add_assoc]
  exact ((pairRound_spec f h a m).1 i hi j hj).2

theorem pairRound_of_le (hx : m * (2 * h) ≤ x) : pairRound f m h a x = a x :=
  (pairRound_spec f h a m).2 x hx

end Pairs

end OnionNetwork.Lib
