import OnionNetwork.Client.Keys
import OnionNetwork.Lib.Replica
import OnionNetwork.Lib.SortedMap

/-!
# A device as a replica of the vault

The storage of a device is a replica of the vault on the server: its components
are the vault keys, `VaultKeys` is what it tracks and `VaultChanges` what is
pending. `merkleHash_eq` turns equal entries into equal roots.
-/

namespace OnionNetwork.Client

open Chat Lib Merkle Server

variable {UserName : Type} [LinearOrder UserName] {cr : Crypto} {V : Suite UserName}

/-- A storage as a replica. -/
def Storage.replica (s : Storage UserName) : Replica (VaultKey UserName) Hash Bytes where
  store := s.values.get
  tracked id := id ∈ s.keys.keys
  pending id := id ∈ s.changes.keys

/-- What the server has for a user. -/
def remote (server : Server.Storage) (user : Identity) (k : Hash) : Option Bytes :=
  (server.profiles user).bind fun pf => pf.vault.get k

variable {s : Storage UserName} {v : Vault V} {pf : Profile.Handle}

/-! ### The lists and the entries -/

theorem mem_leaves {h : Hash} :
    h ∈ v.leaves cr s ↔ ∃ k value, Replica.Entry (v.getKey cr) s.replica k value ∧
      h = cr.kv k value := by
  simp only [Vault.leaves, List.mem_filterMap, Option.map_eq_some_iff]
  constructor
  · rintro ⟨k, ⟨id, hid, hk⟩, value, hvalue, rfl⟩
    exact ⟨k, value, ⟨id, hid, hk, hvalue⟩, rfl⟩
  · rintro ⟨k, value, ⟨id, hid, hk, hvalue⟩, rfl⟩
    exact ⟨k, ⟨id, hid, hk⟩, value, hvalue, rfl⟩

theorem mem_changed {k : Hash} {value : Bytes} :
    (k, value) ∈ v.changed cr s ↔ Replica.Sent (v.getKey cr) s.replica k value := by
  simp only [Vault.changed, List.mem_filterMap, Option.map_eq_some_iff, Prod.mk.injEq]
  constructor
  · rintro ⟨k', ⟨id, hid, hk⟩, value', hvalue, rfl, rfl⟩
    exact ⟨id, hid, hk, hvalue⟩
  · rintro ⟨id, hid, hk, hvalue⟩
    exact ⟨k, ⟨id, hid, hk⟩, value, hvalue, rfl, rfl⟩

/-- **Equal roots.** A device in step with the server that tracks all the server
has signs the root the server computes. -/
theorem merkleHash_eq (h : Replica.InStep (v.getKey cr) s.replica pf.vault.get)
    (hcovers : Replica.Covers (v.getKey cr) s.replica pf.vault.get)
    (hnodup : (v.leaves cr s).Nodup) :
    v.merkleHash cr s = Server.Storage.vaultRoot cr
      (Server.Storage.vaultLeaves cr pf (v.changed cr s)) := by
  rw [Vault.merkleHash, Server.Storage.vaultRoot, insertionSort_eq_eraseReps hnodup]
  intro x
  rw [mem_leaves, Server.Storage.mem_vaultLeaves]
  refine exists_congr fun k => exists_congr fun value => and_congr_left fun _ => ?_
  rw [Replica.entry_iff h hcovers]
  simp only [mem_changed]

/-! ### What the calls do to the replica -/

/-- A component that is written becomes tracked and pending. -/
theorem write_replica (s : Storage UserName) (id : VaultKey UserName) (k : Hash) (value : Bytes) :
    (s.write id k value).replica =
      { store := Function.update s.replica.store k (some value)
        tracked := fun j => j = id ∨ s.replica.tracked j
        pending := fun j => j = id ∨ s.replica.pending j } := by
  have htracked : (fun j => j ∈ (s.keys.insert id).keys) = fun j => j = id ∨ j ∈ s.keys.keys :=
    funext fun j => propext (SortedMap.mem_keys_put _ _ _ _)
  have hpending : (fun j => j ∈ (s.changes.insert id).keys) =
      fun j => j = id ∨ j ∈ s.changes.keys :=
    funext fun j => propext (SortedMap.mem_keys_put _ _ _ _)
  exact congr (congr (congrArg Replica.mk (values_put s k value)) htracked) hpending

variable {r : Hash → Option Bytes} {key : SharedSecret}

/-- `Vault::update` keeps the replica in step. -/
theorem update_inStep (d : Device V) (id : VaultKey UserName × V.Rng) (hown : d.vault.Own cr)
    (h : Replica.InStep (d.vault.getKey cr) d.storage.replica r) :
    Replica.InStep (d.vault.getKey cr) (d.update cr key id).storage.replica r := by
  rcases update_cases cr key d id with heq | ⟨k, value, hk, -, heq⟩
  · rw [heq]
    exact h
  · rw [heq]
    show Replica.InStep (d.vault.getKey cr) (d.storage.write id.1 k value).replica r
    rw [write_replica]
    exact h.write hk (fun j hj => hown j id.1 k hj hk) value

theorem ensure_unpushed {id : VaultKey UserName} {k : SharedSecret} (hk : v.getKey cr id = some k)
    (h : Replica.Unpushed (v.getKey cr) s.replica) (value : Bytes) :
    Replica.Unpushed (v.getKey cr) (Vault.ensure s k id value).replica := by
  rcases ensure_cases s k id value with heq | heq
  · rw [heq]
    exact h
  · rw [heq, write_replica]
    exact h.write hk value

/-- What `Vault::repair` adds is pending. -/
theorem repair_unpushed (h : Replica.Unpushed (v.getKey cr) s.replica) (rngs : V.Rng × V.Rng) :
    Replica.Unpushed (v.getKey cr) (Vault.repair V cr s key rngs).replica :=
  ensure_unpushed rfl (ensure_unpushed rfl (ensure_unpushed rfl h _) _) _

/-- A storage whose sets are empty. -/
theorem unpushed_of_empty (hkeys : s.keys = .empty) (hchanges : s.changes = .empty) :
    Replica.Unpushed (v.getKey cr) s.replica where
  all_pending i := by
    show i ∈ s.changes.keys ↔ i ∈ s.keys.keys
    rw [hkeys, hchanges]
  stored i k hi := by
    have hi : i ∈ s.keys.keys := hi
    rw [hkeys] at hi
    cases hi

/-- `Vault::refresh` of an empty storage. -/
theorem refresh_values (m : SortedMap Hash Bytes) :
    (Vault.refresh (.empty : Storage UserName) m.entries).values.get = m.get := by
  have hentries : ∀ entry ∈ m.entries, m.get entry.1 = some entry.2 := by
    intro entry hentry
    exact m.mem_entries_iff.mp hentry
  funext k
  refine (SortedMap.get_foldl_put hentries .empty k).trans ?_
  by_cases hk : k ∈ m.keys
  · exact if_pos hk
  · refine (if_neg hk).trans ?_
    cases hget : m.get k with
    | none => rfl
    | some value => exact absurd (m.mem_keys_iff.mpr ⟨value, hget⟩) hk

/-- An edit keeps the replica in step. -/
theorem edit_inStep {d : Device V} {e : Edit V} (hfresh : e.IdFresh cr d r)
    (h : Replica.InStep (d.vault.getKey cr) d.storage.replica r) :
    Replica.InStep ((e.apply d.vault).getKey cr) d.storage.replica r := by
  obtain ⟨i, hother, hnew⟩ := edit_cases hfresh
  exact h.rekey hother (hnew.imp_right fun hnew k hk => (hnew k hk).2)

end OnionNetwork.Client
