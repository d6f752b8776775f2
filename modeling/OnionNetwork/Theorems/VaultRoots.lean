import OnionNetwork.Client.Replica
import Mathlib.Logic.Encodable.Basic
import Mathlib.Logic.Equiv.List

/-!
# The root a device signs

`roots_agree`: at each flush of a run of one user's devices the signed root is
the root the server computes, as long as the device is up to date. A fresh
device that has loaded a vault is not: `Vault::refresh` stores the values
without adding their components to `VaultKeys`, and `Vault::repair` adds none
whose value is there, so the device signs a root over what it has written
itself (`fresh_device_refused`).
-/

namespace OnionNetwork.Client

open Chat Lib Merkle

variable {UserName : Type} [LinearOrder UserName] {cr : Crypto} {V : Suite UserName}

/-- A device that flushes is up to date: it tracks every entry of the vault on
the server and, if another device's flush was accepted meanwhile, the server has
what it holds for each component that it does not send. -/
def Device.UpToDate (cr : Crypto) (d : Device V) (pf : Server.Profile.Handle) (overtaken : Bool) :
    Prop :=
  (∀ entry ∈ pf.vault.entries,
    ∃ id ∈ d.storage.keys.keys, d.vault.getKey cr id = some entry.1) ∧
  (overtaken = true → ∀ id ∈ d.storage.keys.keys, ∀ k ∈ d.vault.getKey cr id,
    id ∉ d.storage.changes.keys ∨ d.storage.values.get k = none →
      pf.vault.get k = d.storage.values.get k)

instance (d : Device V) (pf : Server.Profile.Handle) (overtaken : Bool) :
    Decidable (d.UpToDate cr pf overtaken) :=
  -- the key is looked up: there are too many hashes to try
  have (id : VaultKey UserName) : Decidable (∀ k ∈ d.vault.getKey cr id,
      id ∉ d.storage.changes.keys ∨ d.storage.values.get k = none →
        pf.vault.get k = d.storage.values.get k) := Option.decidableForallMem _
  inferInstanceAs (Decidable (_ ∧ (_ → _)))

/-- The device of a save is up to date behind its updates. -/
def UpToDate (keys : UserKeys cr) (s : System V) : Action cr V → Prop
  | .save d ids _ _ _ _ =>
      ∀ device ∈ s.devices d, ∀ pf ∈ s.server.profiles keys.identity,
        (device.updates cr keys.vault ids).UpToDate cr pf (s.overtaken d)
  | _ => True

/-- New ids are new, and the entries of a device that saves have different
hashes. -/
def NoCollision (keys : UserKeys cr) (s : System V) : Action cr V → Prop
  | .edit d e =>
      ∀ device ∈ s.devices d, e.IdFresh cr device (remote s.server keys.identity)
  | .save d ids _ _ _ _ =>
      ∀ device ∈ s.devices d,
        ((device.updates cr keys.vault ids).vault.leaves cr
          (device.updates cr keys.vault ids).storage).Nodup
  | _ => True

instance (keys : UserKeys cr) (s : System V) : DecidablePred (UpToDate keys s)
  | .login _ _ => isTrue trivial
  | .edit _ _ => isTrue trivial
  | .update _ _ _ => isTrue trivial
  | .save d ids _ _ _ _ =>
      inferInstanceAs (Decidable (∀ device ∈ s.devices d, ∀ pf ∈ s.server.profiles keys.identity,
        (device.updates cr keys.vault ids).UpToDate cr pf (s.overtaken d)))

instance (keys : UserKeys cr) (s : System V) : DecidablePred (NoCollision keys s)
  | .login _ _ => isTrue trivial
  | .edit d e =>
      inferInstanceAs (Decidable (∀ device ∈ s.devices d,
        e.IdFresh cr device (remote s.server keys.identity)))
  | .update _ _ _ => isTrue trivial
  | .save d ids _ _ _ _ =>
      inferInstanceAs (Decidable (∀ device ∈ s.devices d,
        ((device.updates cr keys.vault ids).vault.leaves cr
          (device.updates cr keys.vault ids).storage).Nodup))

/-- The root of a flush is the root that the server computes from its entries
and the changes, and the server does not refuse it. -/
def RootsAgree (keys : UserKeys cr) (s : System V) (a : Action cr V) : Prop :=
  ∀ flush ∈ (s.step keys a).2,
    (∃ pf, s.server.profiles keys.identity = some pf ∧
      flush.totalHash =
        Server.Storage.vaultRoot cr (Server.Storage.vaultLeaves cr pf flush.changes)) ∧
    flush.answer ≠ .error .invalidProofContext

variable {keys : UserKeys cr} {s : System V} {pf : Server.Profile.Handle}

/-! ### The devices -/

/-- What holds of a device in every run. -/
structure DeviceOk (keys : UserKeys cr) (remote : Hash → Option Bytes) (overtaken : Bool)
    (d : Device V) : Prop where
  own : d.vault.Own cr
  lists : ListsApart V cr keys.vault d.storage.values.get
  pending_tracked : ∀ i, d.storage.replica.pending i → d.storage.replica.tracked i
  inStep : overtaken = false → Replica.InStep (d.vault.getKey cr) d.storage.replica remote

variable {r r' : Hash → Option Bytes} {overtaken overtaken' : Bool} {d : Device V}

theorem update_getKey (cr : Crypto) (key : SharedSecret) (d : Device V)
    (id : VaultKey UserName × V.Rng) :
    (d.update cr key id).vault.getKey cr = d.vault.getKey cr := by
  rcases update_cases cr key d id with heq | ⟨k, value, -, -, heq⟩
  · rw [heq]
  · rw [heq]
    rfl

theorem update_pending {key : SharedSecret}
    (h : ∀ i, d.storage.replica.pending i → d.storage.replica.tracked i)
    (id : VaultKey UserName × V.Rng) (i : VaultKey UserName)
    (hi : (d.update cr key id).storage.replica.pending i) :
    (d.update cr key id).storage.replica.tracked i := by
  rcases update_cases cr key d id with heq | ⟨k, value, -, -, heq⟩
  · rw [heq] at hi ⊢
    exact h i hi
  · rw [heq] at hi ⊢
    have hi : (d.storage.write id.1 k value).replica.pending i := hi
    show (d.storage.write id.1 k value).replica.tracked i
    rw [write_replica] at hi ⊢
    exact hi.imp_right (h i)

theorem DeviceOk.update (hlaw : V.Lawful) (h : DeviceOk keys r overtaken d)
    (id : VaultKey UserName × V.Rng) : DeviceOk keys r overtaken (d.update cr keys.vault id) where
  own := by
    rw [Vault.Own, update_getKey]
    exact h.own
  lists := update_listsApart hlaw h.own h.lists id
  pending_tracked := update_pending h.pending_tracked id
  inStep hnot := by
    rw [update_getKey]
    exact update_inStep d id h.own (h.inStep hnot)

theorem DeviceOk.updates (hlaw : V.Lawful) (h : DeviceOk keys r overtaken d)
    (ids : List (VaultKey UserName × V.Rng)) :
    DeviceOk keys r overtaken (d.updates cr keys.vault ids) := by
  induction ids generalizing d with
  | nil => exact h
  | cons id ids ih => exact ih (h.update hlaw id)

theorem DeviceOk.edit (h : DeviceOk keys r overtaken d) {e : Edit V} (hfresh : e.IdFresh cr d r) :
    DeviceOk keys r overtaken { d with vault := e.apply d.vault } where
  own := edit_own hfresh h.own
  lists := h.lists
  pending_tracked := h.pending_tracked
  inStep hnot := edit_inStep hfresh (h.inStep hnot)

theorem DeviceOk.withVersion (h : DeviceOk keys r overtaken d) (version : Nonce) :
    DeviceOk keys r overtaken { d with vaultVersion := version } :=
  ⟨h.own, h.lists, h.pending_tracked, h.inStep⟩

/-- A repaired storage whose sets were empty, with a vault that fits its list. -/
theorem DeviceOk.repaired (hlaw : V.Lawful) (hconst : ConstantsApart cr) {s : Storage UserName}
    {v : Vault V} (hkeys : s.keys = .empty) (hchanges : s.changes = .empty)
    (hlists : ListsApart V cr keys.vault s.values.get) (rngs : V.Rng × V.Rng)
    (hown : ListsApart V cr keys.vault (Vault.repair V cr s keys.vault rngs).values.get → v.Own cr)
    (version : Nonce) :
    DeviceOk keys r overtaken ⟨Vault.repair V cr s keys.vault rngs, v, version⟩ := by
  have hlists' := repair_listsApart hlaw hconst hlists rngs
  have hunpushed : Replica.Unpushed (v.getKey cr) (Vault.repair V cr s keys.vault rngs).replica :=
    repair_unpushed (unpushed_of_empty hkeys hchanges) rngs
  exact ⟨hown hlists', hlists', fun i hi => (hunpushed.all_pending i).mp hi,
    fun _ => hunpushed.inStep⟩

theorem DeviceOk.login (hlaw : V.Lawful) (hconst : ConstantsApart cr)
    (hlists : ListsApart V cr keys.vault pf.vault.get) {rngs : V.Rng × V.Rng}
    (hlogin : Device.login V keys pf rngs = some d) : DeviceOk keys r overtaken d := by
  obtain ⟨v, hload, hd⟩ := Option.bind_eq_some_iff.mp hlogin
  obtain rfl := Option.some.inj hd
  refine DeviceOk.repaired hlaw hconst rfl rfl ?_ rngs (fun h => fromStorage_own h hload) _
  rw [refresh_values]
  exact hlists

/-! ### A save -/

/-- What a save of the device `d`, behind its updates, ends in: nothing is sent or
the request is lost, the server refuses, or it accepts and the device may have
cleared its changes. -/
inductive Saved (keys : UserKeys cr) (server : Server.Storage) (d : Device V) :
    Server.Storage × Device V × Option Flush → Prop
  | unsent (version : Nonce) :
      Saved keys server d (server, { d with vaultVersion := version }, none)
  | refused (version : Nonce) {proof : Proof cr Hash} {e : ChatError}
      (signed : proof.context = d.vault.merkleHash cr d.storage)
      (answer :
        server.insertToVault keys.identity (d.vault.changed cr d.storage) proof = .error e) :
      Saved keys server d
        (server, { d with vaultVersion := version },
          some ⟨d.vault.changed cr d.storage, d.vault.merkleHash cr d.storage, .error e⟩)
  | accepted {d' : Device V} {proof : Proof cr Hash} {pf : Server.Profile.Handle}
      {pending : VaultKey UserName → Prop}
      (signed : proof.context = d.vault.merkleHash cr d.storage)
      (checks : Server.Storage.MeetsVaultChecks server keys.identity
        (d.vault.changed cr d.storage) proof pf)
      (getKey : d'.vault.getKey cr = d.vault.getKey cr)
      (sub : ∀ i, pending i → d.storage.replica.pending i)
      (replica : d'.storage.replica = { d.storage.replica with pending }) :
      Saved keys server d
        (server.setProfile keys.identity
            (Server.Storage.inserted pf (d.vault.changed cr d.storage) proof.nonce),
          d', some ⟨d.vault.changed cr d.storage, d.vault.merkleHash cr d.storage, .ok ()⟩)

theorem changes_cases (v : Vault V) (s : Storage UserName) (forced elapsed : Bool) :
    v.changes cr s forced elapsed = [] ∨ v.changes cr s forced elapsed = v.changed cr s := by
  unfold Vault.changes
  split
  · exact .inr rfl
  · exact .inl rfl

theorem save_cases (keys : UserKeys cr) (server : Server.Storage) (d : Device V)
    (ids : List (VaultKey UserName × V.Rng)) (forced elapsed : Bool) (link : Link) (rng : cr.Rng) :
    Saved keys server (d.updates cr keys.vault ids)
      (d.saveVaultComponentsLow keys server ids forced elapsed link rng) := by
  unfold Device.saveVaultComponentsLow
  generalize d.updates cr keys.vault ids = d
  dsimp only
  rcases @changes_cases _ _ cr _ d.vault d.storage forced elapsed with heq | heq
  · rw [heq]
    exact .unsent d.vaultVersion
  · rw [heq]
    split
    · exact .unsent d.vaultVersion
    · split
      · exact .unsent _
      · rename_i hanswer
        exact .refused _ rfl hanswer
      · rename_i hanswer
        obtain ⟨pf, hchecks, rfl⟩ := Server.Storage.insertToVault_eq_ok.mp hanswer
        exact .accepted rfl hchecks rfl (fun i hi => hi) rfl
      · rename_i hanswer
        obtain ⟨pf, hchecks, rfl⟩ := Server.Storage.insertToVault_eq_ok.mp hanswer
        have hcleared : ∀ i ∈ (SortedMap.empty : SortedSet (VaultKey UserName)).keys,
            d.storage.replica.pending i := by
          intro i hi
          cases hi
        exact .accepted rfl hchecks rfl hcleared rfl

theorem remote_eq {server : Server.Storage} {user : Identity}
    (h : server.profiles user = some pf) : remote server user = pf.vault.get := by
  funext k
  rw [remote, h]
  rfl

/-- The vault behind accepted changes. -/
theorem inserted_get (s : Storage UserName) (v : Vault V) (pf : Server.Profile.Handle)
    (nonce : Nonce) (k : Hash) :
    (Server.Storage.inserted pf (v.changed cr s) nonce).vault.get k =
      if k ∈ (v.changed cr s).map Prod.fst then s.values.get k else pf.vault.get k := by
  refine SortedMap.get_foldl_put ?_ pf.vault k
  intro change hchange
  obtain ⟨-, -, -, hstore⟩ := mem_changed.mp hchange
  exact hstore

theorem inserted_inStep (hinv : Replica.InStep (d.vault.getKey cr) d.storage.replica pf.vault.get)
    {pending : VaultKey UserName → Prop} (hsub : ∀ i, pending i → d.storage.replica.pending i)
    (nonce : Nonce) :
    Replica.InStep (d.vault.getKey cr) { d.storage.replica with pending }
      (Server.Storage.inserted pf (d.vault.changed cr d.storage) nonce).vault.get := by
  refine hinv.push hsub ?_ ?_
  · intro k value hsent
    have hin : k ∈ (d.vault.changed cr d.storage).map Prod.fst :=
      List.mem_map.mpr ⟨(k, value), mem_changed.mpr hsent, rfl⟩
    obtain ⟨-, -, -, hstore⟩ := hsent
    rw [inserted_get, if_pos hin]
    exact hstore
  · intro k hnone
    rw [inserted_get, if_neg]
    intro hin
    obtain ⟨⟨k', value⟩, hchange, rfl⟩ := List.mem_map.mp hin
    exact hnone value (mem_changed.mp hchange)

theorem inserted_lists {key : SharedSecret} (hlocal : ListsApart V cr key d.storage.values.get)
    (hremote : ListsApart V cr key pf.vault.get) (nonce : Nonce) :
    ListsApart V cr key
      (Server.Storage.inserted pf (d.vault.changed cr d.storage) nonce).vault.get := by
  intro value plain names hvalue
  rw [inserted_get] at hvalue
  split at hvalue
  · exact hlocal value plain names hvalue
  · exact hremote value plain names hvalue

/-! ### The system -/

/-- What holds in every run without collisions. -/
structure Ok (keys : UserKeys cr) (s : System V) : Prop where
  profile : ∃ pf, s.server.profiles keys.identity = some pf
  lists : ListsApart V cr keys.vault (remote s.server keys.identity)
  devices : ∀ d device, s.devices d = some device →
    DeviceOk keys (remote s.server keys.identity) (s.overtaken d) device

theorem Ok.replace (h : Ok keys s) {s' : System V} (d : Nat) (hserver : s'.server = s.server)
    (hother : ∀ d' ≠ d, s'.devices d' = s.devices d' ∧ s'.overtaken d' = s.overtaken d')
    (hdevice : ∀ device, s'.devices d = some device →
      DeviceOk keys (remote s.server keys.identity) (s'.overtaken d) device) : Ok keys s' where
  profile := by
    rw [hserver]
    exact h.profile
  lists := by
    rw [hserver]
    exact h.lists
  devices d' device hget := by
    rw [hserver]
    by_cases hd : d' = d
    · subst hd
      exact hdevice device hget
    · obtain ⟨hdevices, hovertaken⟩ := hother d' hd
      rw [hdevices] at hget
      rw [hovertaken]
      exact h.devices d' device hget

/-- The device before the first flush. -/
theorem start_ok (hlaw : V.Lawful) (hconst : ConstantsApart cr) (keys : UserKeys cr)
    (server : Server.Storage) (rngs : V.Rng × V.Rng) :
    Ok keys (System.start V keys server rngs) where
  profile := ⟨System.newProfile, Server.Storage.setProfile_self _ _ _⟩
  lists := by
    have hprofile : (System.start V keys server rngs).server.profiles keys.identity =
        some System.newProfile := Server.Storage.setProfile_self _ _ _
    rw [remote_eq hprofile]
    intro value plain names hvalue
    cases hvalue
  devices d device hget := by
    have hget : (if d = 0 then some
        (⟨Vault.repair V cr .empty keys.vault rngs, Vault.newLow, 1⟩ : Device V) else none) =
          some device := hget
    split at hget
    · obtain rfl := Option.some.inj hget
      refine DeviceOk.repaired hlaw hconst rfl rfl ?_ rngs ?_ 1
      · intro value plain names hvalue
        cases hvalue
      · intro _ i j k hi hj
        exact keysApart_nil hconst i j k (keyed_names.mpr hi) (keyed_names.mpr hj)
    · cases hget

theorem Ok.setDevice (h : Ok keys s) {d : Nat} {device : Device V}
    (hdevice : DeviceOk keys (remote s.server keys.identity) (s.overtaken d) device) :
    Ok keys (s.setDevice d device) := by
  refine h.replace d rfl ?_ ?_
  · intro d' hd
    exact ⟨Function.update_of_ne hd _ _, rfl⟩
  · intro device' hget
    have hself : (s.setDevice d device).devices d = some device := Function.update_self _ _ _
    rw [hself] at hget
    obtain rfl := Option.some.inj hget
    exact hdevice

theorem Ok.login (h : Ok keys s) (hlaw : V.Lawful) (hconst : ConstantsApart cr) (d : Nat)
    (rngs : V.Rng × V.Rng) : Ok keys (s.step keys (.login d rngs)).1 := by
  obtain ⟨pf, hpf⟩ := h.profile
  have hlists := h.lists
  rw [remote_eq hpf] at hlists
  cases hd : s.devices d with
  | some device =>
      simp only [System.step, hd]
      exact h
  | none =>
      cases hlogin : Device.login V keys pf rngs with
      | none =>
          simp only [System.step, hd, hpf, hlogin]
          exact h
      | some device =>
          simp only [System.step, hd, hpf, hlogin]
          refine h.replace d rfl ?_ ?_
          · intro d' hne
            exact ⟨Function.update_of_ne hne _ _, Function.update_of_ne hne _ _⟩
          · intro device' hget
            have hself : (s.setDevice d device).devices d = some device :=
              Function.update_self _ _ _
            obtain rfl := Option.some.inj (hself.symm.trans hget)
            exact DeviceOk.login hlaw hconst hlists hlogin

/-- A device is saved and nothing changes on the server. -/
theorem Ok.kept (h : Ok keys s) {d : Nat} {device : Device V}
    (hdevice : DeviceOk keys (remote s.server keys.identity) (s.overtaken d) device) :
    Ok keys { s.setDevice d device with
      server := s.server
      overtaken := fun d' => s.overtaken d' || (false && d' != d) } := by
  have hsame : (fun d' => s.overtaken d' || (false && d' != d)) = s.overtaken := by
    funext d'
    rw [Bool.false_and, Bool.or_false]
  rw [hsame]
  exact h.setDevice hdevice

/-- An accepted save: every other device is overtaken. -/
theorem Ok.accepted (h : Ok keys s) {d : Nat} {device device' : Device V}
    (hdevice : DeviceOk keys (remote s.server keys.identity) (s.overtaken d) device)
    (hprofile : s.server.profiles keys.identity = some pf)
    (hkeys : device'.vault.getKey cr = device.vault.getKey cr)
    {pending : VaultKey UserName → Prop} (hsub : ∀ i, pending i → device.storage.replica.pending i)
    (hreplica : device'.storage.replica = { device.storage.replica with pending }) (nonce : Nonce) :
    Ok keys { s.setDevice d device' with
      server := s.server.setProfile keys.identity
        (Server.Storage.inserted pf (device.vault.changed cr device.storage) nonce)
      overtaken := fun d' => s.overtaken d' || (true && d' != d) } := by
  have hremote := remote_eq hprofile
  have hremote' : remote (s.server.setProfile keys.identity
      (Server.Storage.inserted pf (device.vault.changed cr device.storage) nonce)) keys.identity =
      (Server.Storage.inserted pf (device.vault.changed cr device.storage) nonce).vault.get :=
    remote_eq (Server.Storage.setProfile_self _ _ _)
  have hstore : device'.storage.values.get = device.storage.values.get :=
    congrArg Replica.store hreplica
  refine ⟨⟨_, Server.Storage.setProfile_self _ _ _⟩, ?_, ?_⟩
  · show ListsApart V cr keys.vault (remote (s.server.setProfile _ _) _)
    rw [hremote']
    refine inserted_lists hdevice.lists ?_ nonce
    rw [← hremote]
    exact h.lists
  · intro d' result hget
    show DeviceOk keys (remote (s.server.setProfile _ _) _) _ result
    rw [hremote']
    -- the device that saved is in step with the new vault; of the others nothing is said any more
    by_cases hd : d' = d
    · subst hd
      have hself : (s.setDevice d' device').devices d' = some device' := Function.update_self _ _ _
      obtain rfl := Option.some.inj (hself.symm.trans hget)
      refine ⟨?_, ?_, ?_, ?_⟩
      · rw [Vault.Own, hkeys]
        exact hdevice.own
      · rw [hstore]
        exact hdevice.lists
      · rw [hreplica]
        intro i hi
        exact hdevice.pending_tracked i (hsub i hi)
      · intro hnot
        have hnot : s.overtaken d' = false := (Bool.or_eq_false_iff.mp hnot).1
        have hstep := hdevice.inStep hnot
        rw [hremote] at hstep
        rw [hkeys, hreplica]
        exact inserted_inStep hstep hsub nonce
    · have hother : (s.setDevice d device').devices d' = s.devices d' :=
        Function.update_of_ne hd _ _
      have hresult := h.devices d' result (hother.symm.trans hget)
      refine ⟨hresult.own, hresult.lists, hresult.pending_tracked, fun hnot => ?_⟩
      have hnot : (s.overtaken d' || (true && d' != d)) = false := hnot
      simp [hd] at hnot

theorem Ok.save (h : Ok keys s) (hlaw : V.Lawful) (d : Nat)
    (ids : List (VaultKey UserName × V.Rng)) (forced elapsed : Bool) (link : Link) (rng : cr.Rng) :
    Ok keys (s.step keys (.save d ids forced elapsed link rng)).1 := by
  cases hd : s.devices d with
  | none =>
      simp only [System.step, hd]
      exact h
  | some device =>
      simp only [System.step, hd]
      have hdevice := (h.devices d device hd).updates hlaw ids
      have hsaved := save_cases keys s.server device ids forced elapsed link rng
      revert hsaved hdevice
      generalize device.updates cr keys.vault ids = device'
      generalize device.saveVaultComponentsLow keys s.server ids forced elapsed link rng = result
      intro hdevice hsaved
      cases hsaved with
      | unsent version => exact h.kept (hdevice.withVersion version)
      | refused version signed answer => exact h.kept (hdevice.withVersion version)
      | accepted signed checks getKey sub replica =>
          exact h.accepted hdevice checks.found getKey sub replica _

theorem step_ok (hlaw : V.Lawful) (hconst : ConstantsApart cr) (s : System V) (a : Action cr V)
    (h : Ok keys s) (ha : NoCollision keys s a) : Ok keys (s.step keys a).1 := by
  cases a with
  | login d rngs => exact h.login hlaw hconst d rngs
  | edit d e =>
      cases hd : s.devices d with
      | none =>
          simp only [System.step, hd]
          exact h
      | some device =>
          simp only [System.step, hd]
          exact h.setDevice ((h.devices d device hd).edit (ha device hd))
  | update d id rng =>
      cases hd : s.devices d with
      | none =>
          simp only [System.step, hd]
          exact h
      | some device =>
          simp only [System.step, hd]
          exact h.setDevice ((h.devices d device hd).update hlaw (id, rng))
  | save d ids forced elapsed link rng => exact h.save hlaw d ids forced elapsed link rng

/-! ### The root of a flush -/

/-- An up-to-date device is in step with the server. -/
theorem DeviceOk.inStep_of_upToDate (h : DeviceOk keys pf.vault.get overtaken d)
    (hup : d.UpToDate cr pf overtaken) :
    Replica.InStep (d.vault.getKey cr) d.storage.replica pf.vault.get := by
  cases hover : overtaken with
  | false => exact h.inStep hover
  | true =>
      have hcurrent := hup.2 hover
      refine ⟨h.pending_tracked, ?_, ?_⟩
      · intro i k hi hnot hk
        exact hcurrent i hi k hk (.inl hnot)
      · intro i k hi hk hnone
        exact (hcurrent i hi k hk (.inr hnone)).trans hnone

theorem covers_of_upToDate (hup : d.UpToDate cr pf overtaken) :
    Replica.Covers (d.vault.getKey cr) d.storage.replica pf.vault.get := by
  intro k value hget
  obtain ⟨i, hi, hk⟩ := hup.1 (k, value) (pf.vault.mem_entries_iff.mpr hget)
  exact ⟨i, hi, hk⟩

/-- The flush of an up-to-date device. -/
theorem rootsAgree_of_upToDate (hlaw : V.Lawful) {a : Action cr V} (h : Ok keys s)
    (ha : NoCollision keys s a) (hup : UpToDate keys s a) : RootsAgree keys s a := by
  -- only a save flushes
  have hnone : (s.step keys a).2 = none → RootsAgree keys s a := by
    intro hflush flush hmem
    rw [hflush] at hmem
    cases hmem
  cases a with
  | login d rngs =>
      refine hnone ?_
      obtain ⟨pf, hpf⟩ := h.profile
      cases hd : s.devices d with
      | some device => simp only [System.step, hd]
      | none =>
          cases hlogin : Device.login V keys pf rngs <;>
            simp only [System.step, hd, hpf, hlogin]
  | edit d e =>
      refine hnone ?_
      cases hd : s.devices d <;> simp only [System.step, hd]
  | update d id rng =>
      refine hnone ?_
      cases hd : s.devices d <;> simp only [System.step, hd]
  | save d ids forced elapsed link rng =>
      cases hd : s.devices d with
      | none =>
          refine hnone ?_
          simp only [System.step, hd]
      | some device =>
          obtain ⟨pf, hpf⟩ := h.profile
          have hdevice := (h.devices d device hd).updates hlaw ids
          rw [remote_eq hpf] at hdevice
          have hup := hup device hd pf hpf
          -- the device in step with the server computes the root that the server expects
          have hroot := merkleHash_eq (hdevice.inStep_of_upToDate hup) (covers_of_upToDate hup)
            (ha device hd)
          have hsaved := save_cases keys s.server device ids forced elapsed link rng
          intro flush hflush
          simp only [System.step, hd] at hflush
          revert hsaved hroot hflush
          generalize device.updates cr keys.vault ids = device'
          generalize device.saveVaultComponentsLow keys s.server ids forced elapsed link rng =
            result
          intro hroot hsaved hflush
          cases hsaved with
          | unsent version => cases hflush
          | refused version signed answer =>
              obtain rfl := Option.some.inj hflush
              refine ⟨⟨pf, hpf, hroot⟩, ?_⟩
              -- refused for something else than the root, such as the nonce
              rintro heq
              obtain rfl := Except.error.inj heq
              exact Server.Storage.insertToVault_ne_invalidProofContext hpf
                (hroot.symm.trans signed.symm) answer
          | accepted signed checks getKey sub replica =>
              obtain rfl := Option.some.inj hflush
              refine ⟨⟨pf, hpf, hroot⟩, ?_⟩
              intro heq
              cases heq

/-- **The vault root.** In every run of a user's devices against the server, each
flush of a device that is up to date carries the root that the server computes
and is not refused for it. -/
theorem roots_agree (hlaw : V.Lawful) (hconst : ConstantsApart cr) (keys : UserKeys cr)
    (server : Server.Storage) (rngs : V.Rng × V.Rng) (as : List (Action cr V))
    (h : (vaultMachine V keys).EachStep (NoCollision keys) (System.start V keys server rngs) as) :
    (vaultMachine V keys).EachStep (fun s a => UpToDate keys s a → RootsAgree keys s a)
      (System.start V keys server rngs) as :=
  Machine.eachStep_of_invariant (fun s a hok ha => step_ok hlaw hconst s a hok ha)
    (fun _ _ hok ha hup => rootsAgree_of_upToDate hlaw hok ha hup)
    (start_ok hlaw hconst keys server rngs) h

/-- Components of one byte, without secrets. A friend list other than the empty
one is counted in unary. -/
def Suite.plain : Suite Nat where
  Chats := UInt8
  Theme := UInt8
  Friend := UInt8
  Rng := Unit
  noChats := 0
  defaultTheme := 0
  chatsBytes chats := [chats]
  chatsOf := List.head?
  themeBytes theme := [theme]
  themeOf := List.head?
  friendBytes friend := [friend]
  friendOf := List.head?
  namesBytes names :=
    if names = [] then [0]
    else List.replicate (Encodable.encode (names.map fun (name, id) => (name, id.toNat))) 1
  namesOf bytes :=
    if bytes = [0] then some []
    else (Encodable.decode bytes.length).map fun names : List (Nat × Nat) =>
      names.map fun (name, id) => (name, BitVec.ofNat 256 id)
  encrypt plain _ _ := plain
  decrypt cipher _ := some cipher

theorem Suite.plain_lawful : Suite.plain.Lawful where
  decrypt_encrypt _ _ _ := rfl
  namesOf_zero := rfl
  namesOf_namesBytes names := by
    cases names with
    | nil => rfl
    | cons name names =>
        have hne : ∀ n, List.replicate n (1 : UInt8) ≠ [0] := by
          intro n h
          have hmem : (0 : UInt8) ∈ List.replicate n 1 := by
            rw [h]
            exact List.mem_cons_self
          cases List.eq_of_mem_replicate hmem
        simp only [Suite.plain, reduceCtorEq, if_false, hne, List.length_replicate,
          Encodable.encodek, Option.map_some, List.map_map]
        simp [Function.comp_def]

/-- The keys of a user. -/
def plainKeys : UserKeys Crypto.transparent := ⟨(5 : Hash), 6⟩

/-- The server has no profile yet. -/
def plainStart : System Suite.plain :=
  System.start Suite.plain plainKeys ⟨fun _ => none, fun _ => none⟩ ((), ())

/-- Two devices, the second one set up before the first flush of the first one. -/
def twoDevices : List (Action Crypto.transparent Suite.plain) :=
  [.login 1 ((), ()), .edit 0 (.theme (7 : UInt8)), .save 0 [(.theme, ())] true false .up (),
    .save 1 [] true false .up (), .edit 0 (.friend 3 ⟨(9 : UInt8), 77⟩),
    .save 0 [(.friend 3, ()), (.theme, ())] true false .answerLost ()]

/-- In this run each flush is up to date. -/
theorem roots_agree_two :
    (vaultMachine Suite.plain plainKeys).EachStep (RootsAgree plainKeys) plainStart twoDevices := by
  have hconst : ConstantsApart Crypto.transparent := by decide
  have hagree := roots_agree Suite.plain_lawful hconst plainKeys ⟨fun _ => none, fun _ => none⟩
    ((), ()) twoDevices (by decide +kernel)
  have hup : (vaultMachine Suite.plain plainKeys).EachStep (UpToDate plainKeys) plainStart
      twoDevices := by decide +kernel
  exact (hagree.and hup).mono fun _ _ h => h.1 h.2

/-- The first device has flushed, the second one is fresh and changes the theme. -/
def freshDevice : List (Action Crypto.transparent Suite.plain) :=
  [.save 0 [] true false .up (), .login 1 ((), ()), .edit 1 (.theme (7 : UInt8))]

/-- The flush of a fresh device is refused. -/
theorem fresh_device_refused :
    (vaultMachine Suite.plain plainKeys).EachStep (NoCollision plainKeys) plainStart
        (freshDevice ++ [.save 1 [(.theme, ())] true false .up ()]) ∧
      ¬ (vaultMachine Suite.plain plainKeys).EachStep (RootsAgree plainKeys) plainStart
        (freshDevice ++ [.save 1 [(.theme, ())] true false .up ()]) := by
  refine ⟨by decide +kernel, ?_⟩
  intro h
  have hanswer : (((((vaultMachine Suite.plain plainKeys).run plainStart freshDevice).step plainKeys
      (.save 1 [(.theme, ())] true false .up ())).2.map fun flush =>
        flush.answer)) = some (.error .invalidProofContext) := by decide +kernel
  obtain ⟨flush, hflush, hrefused⟩ := Option.map_eq_some_iff.mp hanswer
  have hlast := (((vaultMachine Suite.plain plainKeys).eachStep_append _ _ _ _).mp h).2.1
  exact (hlast flush hflush).2 hrefused

end OnionNetwork.Client
