import OnionNetwork.Chat.Member
import OnionNetwork.Lib.Selection
import Mathlib.Data.BitVec

/-!
# Combining the records of a member

`Member::combine` makes one record out of the records several replicas keep for the
same member: the largest replay counter, the most common permissions, rank and
cooldown, and the median of the times until which the member is frozen. The list is
sorted again for each field; none of the results depends on how it was sorted before
(`combine_spec`, `Combines.unique`).
-/

namespace OnionNetwork.Chat

open Lib

/-- The derived order of the flags. -/
instance : LinearOrder Permissions :=
  LinearOrder.lift' (fun p => p.bits.toNat) fun p q h => by
    cases p
    cases q
    exact congrArg Permissions.mk (BitVec.eq_of_toNat_eq h)

namespace Member

variable {κ : Type*} [LinearOrder κ]

/-- `most_common` of `Member::combine`: the list it leaves sorted, and the key. -/
def mostCommon (list : List Member) (f : Member → κ) : Option (List Member × κ) :=
  let list := sortByCachedKey f list
  (longestRun f list).map fun key => (list, key)

/-- `median` of `Member::combine`. -/
def median (list : List Member) (f : Member → κ) : Option κ :=
  let list := sortByCachedKey f list
  list[list.length / 2]?.map f

/-- `Member::combine`; an empty list fails the assertion. -/
def combine (list : List Member) : Option Member := do
  guard (list ≠ [])
  let action ← (list.map action).max?
  let (list, permissions) ← mostCommon list permissions
  let (list, rank) ← mostCommon list rank
  let (list, actionCooldownMs) ← mostCommon list actionCooldownMs
  let frozenUntil ← median list frozenUntil
  some { action, permissions, rank, actionCooldownMs, frozenUntil }

/-- What a combined record has of the records it is made from. -/
structure Combines (list : List Member) (m : Member) : Prop where
  action : (list.map Member.action).max? = some m.action
  permissions : Leads (list.map Member.permissions) m.permissions
  rank : Leads (list.map Member.rank) m.rank
  cooldown : Leads (list.map Member.actionCooldownMs) m.actionCooldownMs
  frozen : medianKey Member.frozenUntil list = some m.frozenUntil

theorem mostCommon_spec (f : Member → κ) {list : List Member} (h : list ≠ []) :
    ∃ sorted key, mostCommon list f = some (sorted, key) ∧ sorted.Perm list ∧
      Leads (list.map f) key := by
  obtain ⟨key, hkey, hleads⟩ := mostCommonKey_spec f h
  refine ⟨sortByCachedKey f list, key, ?_, sortByCachedKey_perm f list, hleads⟩
  show (mostCommonKey f list).map _ = _
  rw [hkey]
  rfl

theorem median_eq (f : Member → κ) (list : List Member) : median list f = medianKey f list := by
  have hlength : (sortByCachedKey f list).length = list.length :=
    (sortByCachedKey_perm f list).length_eq
  simp only [median, medianKey, hlength]

/-- A list of records that is not empty is combined. -/
theorem combine_spec {list : List Member} (h : list ≠ []) :
    ∃ m, combine list = some m ∧ Combines list m := by
  obtain ⟨action, haction⟩ : ∃ action, (list.map Member.action).max? = some action := by
    rw [← Option.isSome_iff_exists]
    simpa using h
  obtain ⟨list₁, perms, hperms, hp₁, hlead₁⟩ := mostCommon_spec permissions h
  have hne₁ : list₁ ≠ [] := fun hnil => h (hnil ▸ hp₁).symm.eq_nil
  obtain ⟨list₂, rank', hrank, hp₂, hlead₂⟩ := mostCommon_spec rank hne₁
  have hne₂ : list₂ ≠ [] := fun hnil => hne₁ (hnil ▸ hp₂).symm.eq_nil
  obtain ⟨list₃, cooldown, hcooldown, hp₃, hlead₃⟩ := mostCommon_spec actionCooldownMs hne₂
  have hne₃ : list₃ ≠ [] := fun hnil => hne₂ (hnil ▸ hp₃).symm.eq_nil
  obtain ⟨frozen, hfrozen⟩ := Option.isSome_iff_exists.mp (medianKey_isSome frozenUntil hne₃)
  have hto₂ : list₂.Perm list := hp₂.trans hp₁
  have hto₃ : list₃.Perm list := hp₃.trans hto₂
  refine ⟨⟨action, perms, rank', cooldown, frozen⟩, ?_, haction, hlead₁,
    hlead₂.perm (hp₁.map _), hlead₃.perm (hto₂.map _), ?_⟩
  · simp [combine, h, haction, hperms, hrank, hcooldown, median_eq, hfrozen, guard]
  · rw [← hfrozen]
    exact medianKey_perm _ hto₃.symm

/-- The order of the records does not matter. -/
theorem Combines.unique {list list' : List Member} {m m' : Member} (h : Combines list m)
    (h' : Combines list' m') (hperm : list.Perm list') : m = m' := by
  have haction : m.action = m'.action := by
    have hmax := List.max?_eq_some_iff.mp h.action
    have hmax' := List.max?_eq_some_iff.mp h'.action
    have hmem := fun x => (hperm.map Member.action).mem_iff (a := x)
    exact le_antisymm (hmax'.2 _ ((hmem _).mp hmax.1)) (hmax.2 _ ((hmem _).mpr hmax'.1))
  have hpermissions := (h.permissions.perm (hperm.map _)).unique h'.permissions
  have hrank := (h.rank.perm (hperm.map _)).unique h'.rank
  have hcooldown := (h.cooldown.perm (hperm.map _)).unique h'.cooldown
  have hfrozen : m.frozenUntil = m'.frozenUntil := by
    have hsame := medianKey_perm Member.frozenUntil hperm
    rw [h.frozen, h'.frozen] at hsame
    exact Option.some.inj hsame
  cases m
  cases m'
  simp_all

theorem combine_perm {list list' : List Member} (h : list.Perm list') :
    combine list = combine list' := by
  by_cases hne : list = []
  · subst hne
    rw [h.symm.eq_nil]
  · have hne' : list' ≠ [] := fun hnil => hne (hnil ▸ h).eq_nil
    obtain ⟨m, hm, hcomb⟩ := combine_spec hne
    obtain ⟨m', hm', hcomb'⟩ := combine_spec hne'
    rw [hm, hm', hcomb.unique hcomb' h]

/-- Copies of one record in the majority decide everything but the replay counter. -/
theorem Combines.of_majority {list : List Member} {m h : Member} (hm : Combines list m)
    (hmajority : list.length < 2 * list.count h) :
    m.permissions = h.permissions ∧ m.rank = h.rank ∧
      m.actionCooldownMs = h.actionCooldownMs := by
  have hlead : ∀ {κ : Type} [LinearOrder κ] (f : Member → κ), Leads (list.map f) (f h) := by
    intro κ _ f
    refine Leads.of_majority ?_
    have hle : list.count h ≤ (list.map f).count (f h) := List.count_le_count_map
    rw [List.length_map]
    omega
  exact ⟨hm.permissions.unique (hlead _), hm.rank.unique (hlead _), hm.cooldown.unique (hlead _)⟩

end Member

end OnionNetwork.Chat
