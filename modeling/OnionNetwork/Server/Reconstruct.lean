import OnionNetwork.Chat.Combine
import OnionNetwork.Chat.Types
import OnionNetwork.Lib.HashMap

/-!
# Reconstructing the members of a chat

`reconstruct_chat` of `api::chat`: from the member tables of several replicas, the
members that at least two of them list, each with its records combined. The filters
for outliers act on more than `REPLICATION_FACTOR` elements only, and a `ReplVec`
never has so many: they keep everything (`retainOutliers_eq`). A panic of the source
is no result.

`reconstructChat_spec`: the result is a function of the records that the responses
hold for each identity.
-/

namespace OnionNetwork.Server

open Chat Lib

/-- A replica, and the member table it answered with. -/
abbrev ChatData := NodeIdentity × HashMap Identity Member

/-- `usize::abs_diff`. -/
def absDiff (a b : Nat) : Nat := (a - b) + (b - a)

/-- `retain_outliers`. -/
def retainOutliers {T : Type} (tolerance : Nat → Nat) (field : T → Nat) (blockData : ReplVec T) :
    Option (ReplVec T) :=
  if blockData.toList.length ≤ replicationFactor then some blockData
  else do
    let sorted := sortByCachedKey field blockData.toList
    let low ← sorted[sorted.length / 2 - 1]?
    let high ← sorted[sorted.length / 2]?
    let median := (field low + field high) / 2
    let tolerance := tolerance median
    some (ArrayVec.retain
      ⟨sorted, by rw [(sortByCachedKey_perm field _).length_eq]; exact blockData.length_le⟩
      fun data => absDiff (field data) median ≤ tolerance)

/-- `retain_members`. The order is the one in which `member_count_map` is iterated. -/
def retainMembers (order : IterOrder (Identity × ReplVec Member)) (blockData : ReplVec ChatData) :
    Option (HashMap Identity Member) := do
  let memberCountMap ← group (blockData.toList.flatMap fun data => data.2.entries)
  let memberCountMap ← (order.1 memberCountMap).mapM fun (id, v) =>
    (retainOutliers (fun _ => 10) Member.action v).map fun v => (id, v)
  let memberCountMap := memberCountMap.filter fun (_, v) => replicationFactor / 2 ≤ v.toList.length
  let members ← (order.1 memberCountMap).mapM fun (id, v) =>
    (Member.combine v.toList).map fun member => (id, member)
  some (HashMap.ofList members)

/-- `reconstruct_chat`. -/
def reconstructChat (order : IterOrder (Identity × ReplVec Member)) (blockData : ReplVec ChatData) :
    Option (HashMap Identity Member) := do
  let blockData ← retainOutliers (fun m => min (max (m / 10) 1) 3)
    (fun data => data.2.entries.length) blockData
  retainMembers order blockData

/-- The early return of `retain_outliers` is always taken. -/
theorem retainOutliers_eq {T : Type} (tolerance : Nat → Nat) (field : T → Nat) (v : ReplVec T) :
    retainOutliers tolerance field v = some v := if_pos v.length_le

/-- The records that the responses hold for an identity. -/
def copies (id : Identity) (blockData : List ChatData) : List Member :=
  blockData.filterMap fun data => data.2.get id

theorem valuesOf_flatMap (id : Identity) (blockData : List ChatData) :
    valuesOf id (blockData.flatMap fun data => data.2.entries) = copies id blockData := by
  induction blockData with
  | nil => rfl
  | cons data blockData ih =>
      rw [List.flatMap_cons, valuesOf_append, ih, valuesOf_entries]
      cases h : data.2.get id with
      | none => simp [copies, h]
      | some m => simp [copies, h]

theorem length_copies (id : Identity) (blockData : ReplVec ChatData) :
    (copies id blockData.toList).length ≤ replicationFactor :=
  le_trans (List.length_filterMap_le _ _) blockData.length_le

/-- **What is reconstructed**: exactly the identities that two responses list, each
with its records combined; and it never panics. -/
theorem reconstructChat_spec (order : IterOrder (Identity × ReplVec Member))
    (blockData : ReplVec ChatData) :
    ∃ out, reconstructChat order blockData = some out ∧ ∀ id m, out.get id = some m ↔
      2 ≤ (copies id blockData.toList).length ∧
        Member.combine (copies id blockData.toList) = some m := by
  have hgroup : ∃ counts : List (Identity × ReplVec Member),
      group (blockData.toList.flatMap fun data => data.2.entries) = some counts ∧
        Grouped (blockData.toList.flatMap fun data => data.2.entries) counts := by
    refine group_spec (by decide) fun id => ?_
    rw [valuesOf_flatMap]
    exact length_copies id blockData
  obtain ⟨counts, hcounts, hgrouped⟩ := hgroup
  have hmem : ∀ id (v : ReplVec Member), (id, v) ∈ counts ↔
      v.toList = copies id blockData.toList ∧ copies id blockData.toList ≠ [] := by
    intro id v
    rw [hgrouped.mem_iff, valuesOf_flatMap]
  -- the filter for outliers keeps every vector, the next one those with two records
  have hall : ((order.1 counts).mapM fun e : Identity × ReplVec Member => some (e.1, e.2)) =
      some (order.1 counts) :=
    List.mapM_pure.trans (congrArg some (List.map_id _))
  set kept := (order.1 counts).filter fun e => replicationFactor / 2 ≤ e.2.toList.length with hkept
  have hkeptMem : ∀ id (v : ReplVec Member), (id, v) ∈ order.1 kept ↔
      v.toList = copies id blockData.toList ∧ 2 ≤ (copies id blockData.toList).length := by
    intro id v
    rw [(order.2 kept).mem_iff, hkept, List.mem_filter, (order.2 counts).mem_iff, hmem]
    have htwo : replicationFactor / 2 = 2 := rfl
    constructor
    · rintro ⟨⟨hv, -⟩, hlen⟩
      have hlen' := of_decide_eq_true hlen
      rw [htwo, hv] at hlen'
      exact ⟨hv, hlen'⟩
    · rintro ⟨hv, hlen⟩
      refine ⟨⟨hv, ?_⟩, decide_eq_true (by rw [htwo, hv]; exact hlen)⟩
      rintro hnil
      rw [hnil] at hlen
      cases hlen
  have hcombine : ∀ e ∈ order.1 kept, ∃ m, Member.combine e.2.toList = some m := by
    intro e he
    obtain ⟨hv, hlen⟩ := (hkeptMem e.1 e.2).mp he
    have hne : e.2.toList ≠ [] := by
      intro hnil
      rw [← hv, hnil] at hlen
      cases hlen
    obtain ⟨m, hm, -⟩ := Member.combine_spec hne
    exact ⟨m, hm⟩
  obtain ⟨members, hmembers, hkeys, hvalues⟩ :=
    exists_mapM_values (f := fun v : ReplVec Member => Member.combine v.toList) hcombine
  refine ⟨HashMap.ofList members, ?_, ?_⟩
  · simp only [reconstructChat, retainOutliers_eq, Option.bind_eq_bind, Option.bind_some,
      retainMembers, hcounts, Option.map_some, hall]
    rw [← hkept, hmembers]
    rfl
  · intro id m
    have hnodup : (members.map Prod.fst).Nodup := by
      have hcounted : ((order.1 counts).map Prod.fst).Nodup :=
        ((order.2 counts).map Prod.fst).nodup_iff.mpr hgrouped.nodup
      rw [hkeys, ((order.2 kept).map Prod.fst).nodup_iff]
      exact hcounted.sublist (List.filter_sublist.map Prod.fst)
    rw [HashMap.get_eq_some_iff, HashMap.entries_ofList hnodup, hvalues]
    constructor
    · rintro ⟨v, hv, hm⟩
      obtain ⟨hcopies, hlen⟩ := (hkeptMem id v).mp hv
      exact ⟨hlen, hcopies ▸ hm⟩
    · rintro ⟨hlen, hm⟩
      exact ⟨⟨copies id blockData.toList, length_copies id blockData⟩,
        (hkeptMem id _).mpr ⟨rfl, hlen⟩, hm⟩

end OnionNetwork.Server
