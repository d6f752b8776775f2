import Mathlib.Data.List.DropRight
import Mathlib.Data.List.Nodup

/-!
# Lists that keep the most recent elements

A log of bounded size that drops the oldest element for a new one keeps
`(kept ++ new).rtake cap`. Elements may also be taken out. `Remembers` is what
holds then of the kept ones and of all that were ever recorded: the kept ones
are some of the recorded ones, in order, and the last `cap` recorded ones are
kept unless they were taken out.
-/

namespace OnionNetwork.Lib

variable {α : Type*}

theorem mem_rtake_iff {l : List α} {n : Nat} {x : α} :
    x ∈ l.rtake n ↔ ∃ front back, l = front ++ x :: back ∧ back.length < n := by
  constructor
  · intro h
    obtain ⟨mid, back, hsplit⟩ := List.append_of_mem h
    refine ⟨l.take (l.length - n) ++ mid, back, ?_, ?_⟩
    · rw [List.append_assoc, ← hsplit, List.rtake]
      exact (List.take_append_drop _ _).symm
    · have hlen := congrArg List.length hsplit
      simp only [List.rtake, List.length_drop, List.length_append, List.length_cons] at hlen
      omega
  · rintro ⟨front, back, rfl, hlt⟩
    have hle : (front ++ x :: back).length - n ≤ front.length := by
      simp only [List.length_append, List.length_cons]
      omega
    rw [List.rtake, List.drop_append_of_le_length hle]
    exact List.mem_append_right _ List.mem_cons_self

theorem mem_of_mem_rtake {l : List α} {n : Nat} {x : α} (h : x ∈ l.rtake n) : x ∈ l :=
  (List.drop_sublist _ _).mem h

theorem rtake_of_length_le {l : List α} {n : Nat} (h : l.length ≤ n) : l.rtake n = l := by
  rw [List.rtake, Nat.sub_eq_zero_of_le h, List.drop_zero]

theorem length_rtake (l : List α) (n : Nat) : (l.rtake n).length = min n l.length := by
  rw [List.rtake, List.length_drop]
  omega

/-- Dropping the oldest in between makes no difference. -/
theorem rtake_rtake_append (l m : List α) (n : Nat) :
    (l.rtake n ++ m).rtake n = (l ++ m).rtake n := by
  have hsplit : l ++ m = l.take (l.length - n) ++ (l.rtake n ++ m) := by
    rw [← List.append_assoc, List.rtake, List.take_append_drop]
  have hlen : (l ++ m).length - n =
      (l.take (l.length - n)).length + ((l.rtake n ++ m).length - n) := by
    simp only [List.length_append, List.length_take, length_rtake]
    omega
  calc (l.rtake n ++ m).rtake n
      = (l.take (l.length - n) ++ (l.rtake n ++ m)).drop
          ((l.take (l.length - n)).length + ((l.rtake n ++ m).length - n)) :=
        (List.drop_length_add_append _).symm
    _ = (l ++ m).rtake n := by rw [← hlen, ← hsplit]; rfl

/-- Behind an element, a sublist without repetitions has no more than the list. -/
theorem sublist_behind {l m front back front' back' : List α} {x : α} (h : l.Sublist m)
    (hnodup : m.Nodup) (hl : l = front ++ x :: back) (hm : m = front' ++ x :: back') :
    back.Sublist back' := by
  subst hl hm
  obtain ⟨a, b, hab, ha, hb⟩ := List.sublist_append_iff.mp h
  have hx : x ∉ front' ∧ x ∉ back' := by
    obtain ⟨-, hcons, hdisj⟩ := List.nodup_append.mp hnodup
    refine ⟨fun hf => hdisj x hf x List.mem_cons_self rfl, (List.nodup_cons.mp hcons).1⟩
  have hxa : x ∉ a := fun hin => hx.1 (ha.mem hin)
  -- the element is the first one of the second part
  have hfront : front = a ∧ x :: back = b := by
    have hmem : x ∈ b := by
      have hin : x ∈ a ++ b := hab ▸ List.mem_append_right _ List.mem_cons_self
      exact (List.mem_append.mp hin).resolve_left hxa
    cases b with
    | nil => cases hmem
    | cons y b =>
        have hyx : y = x := by
          cases hb with
          | cons _ hb => exact absurd (hb.mem hmem) hx.2
          | cons_cons _ hb => rfl
        subst hyx
        have hnodup' : (front ++ y :: back).Nodup := hnodup.sublist h
        have hy : y ∉ front ∧ y ∉ back := by
          obtain ⟨-, hcons, hdisj⟩ := List.nodup_append.mp hnodup'
          exact ⟨fun hf => hdisj y hf y List.mem_cons_self rfl, (List.nodup_cons.mp hcons).1⟩
        obtain ⟨hfront, -, hback⟩ := (List.append_cons_inj_of_notMem hy.1 hy.2).mp hab
        exact ⟨hfront, by rw [hback]⟩
  obtain ⟨-, rfl⟩ := hfront
  cases hb with
  | cons _ hb => exact absurd (hb.mem List.mem_cons_self) hx.2
  | cons_cons _ hb => exact hb

/-- What holds of the kept elements, all recorded ones and the taken ones. -/
structure Remembers (cap : Nat) (kept recorded : List α) (taken : α → Prop) : Prop where
  sublist : kept.Sublist recorded
  nodup : recorded.Nodup
  recent : ∀ x ∈ recorded.rtake cap, taken x ∨ x ∈ kept

namespace Remembers

variable {cap : Nat} {kept recorded : List α} {taken : α → Prop}

theorem nil : Remembers cap ([] : List α) [] taken where
  sublist := List.Sublist.refl []
  nodup := List.nodup_nil
  recent x hx := by
    rw [List.rtake_nil] at hx
    cases hx

/-- New elements are recorded, the oldest kept ones dropped. -/
theorem record (h : Remembers cap kept recorded taken) {new : List α}
    (hnodup : (recorded ++ new).Nodup) :
    Remembers cap ((kept ++ new).rtake cap) (recorded ++ new) taken where
  sublist := (List.drop_sublist _ _).trans (h.sublist.append (List.Sublist.refl new))
  nodup := hnodup
  recent x hx := by
    obtain ⟨front, back, hsplit, hlt⟩ := mem_rtake_iff.mp hx
    have hsub : (kept ++ new).Sublist (recorded ++ new) := h.sublist.append (List.Sublist.refl new)
    -- an element among the last of all was kept, or is new
    have hmem : taken x ∨ x ∈ kept ++ new := by
      by_cases hnew : x ∈ new
      · exact .inr (List.mem_append_right _ hnew)
      · have hold : x ∈ recorded.rtake cap := by
          have hin : x ∈ recorded := by
            have hin' : x ∈ recorded ++ new := mem_of_mem_rtake hx
            exact (List.mem_append.mp hin').resolve_right hnew
          obtain ⟨front', back', hsplit'⟩ := List.append_of_mem hin
          refine mem_rtake_iff.mpr ⟨front', back', hsplit', ?_⟩
          have hbehind : (back' ++ new).Sublist back := by
            have hsplit'' : recorded ++ new = front' ++ x :: (back' ++ new) := by
              rw [hsplit', List.append_assoc, List.cons_append]
            exact sublist_behind (List.Sublist.refl _) hnodup hsplit'' hsplit
          have hle := hbehind.length_le
          rw [List.length_append] at hle
          omega
        exact (h.recent x hold).imp id (List.mem_append_left _)
    refine hmem.imp id fun hin => ?_
    obtain ⟨front', back', hsplit'⟩ := List.append_of_mem hin
    refine mem_rtake_iff.mpr ⟨front', back', hsplit', ?_⟩
    exact Nat.lt_of_le_of_lt (sublist_behind hsub hnodup hsplit' hsplit).length_le hlt

/-- An element is taken out. -/
theorem take {kept' : List α} (h : Remembers cap kept recorded taken) (x : α)
    (hsub : kept'.Sublist kept) (hkept : ∀ y ∈ kept, y = x ∨ y ∈ kept') {taken' : α → Prop}
    (htaken : ∀ y, taken y ∨ y = x → taken' y) : Remembers cap kept' recorded taken' where
  sublist := hsub.trans h.sublist
  nodup := h.nodup
  recent y hy := by
    rcases h.recent y hy with htak | hin
    · exact .inl (htaken y (.inl htak))
    · exact (hkept y hin).imp (fun hyx => htaken y (.inr hyx)) id

end Remembers

end OnionNetwork.Lib
