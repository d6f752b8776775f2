import OnionNetwork.Client.Vault
import OnionNetwork.Lib.Machine
import OnionNetwork.Server.Profile

/-!
# The devices of one user

The calls that keep the vaults of one user's devices and the vault on a server
together: what `Node::new` does on a fresh device (`login`), the changes a
`RequestContext` makes to a vault, `Vault::update`, and
`save_vault_components_low`. The first device has created the profile.
-/

namespace OnionNetwork.Client

open Chat Lib

variable {UserName : Type} [LinearOrder UserName] {cr : Crypto} {V : Suite UserName}

/-- `UserKeys`, the keys that are used here. -/
structure UserKeys (cr : Crypto) where
  sign : cr.Keypair
  vault : SharedSecret

/-- `UserKeys::identity`. -/
def UserKeys.identity (keys : UserKeys cr) : Identity :=
  cr.identity (cr.publicKey keys.sign)

/-- A device: its storage, the vault in memory and the nonce of the next proof. -/
structure Device (V : Suite UserName) where
  storage : Storage UserName
  vault : Vault V
  vaultVersion : Nonce

/-- What becomes of a request. -/
inductive Link
  | up
  | answerLost
  | requestLost
  deriving DecidableEq, Repr

/-- A flush that reached the server: the changes that were sent, the signed root
and the server's answer. -/
structure Flush where
  changes : List (Hash × Bytes)
  totalHash : Hash
  answer : Except ChatError Unit

namespace Device

/-- `Vault::update` on a device. -/
def update (cr : Crypto) (key : SharedSecret) (d : Device V) (id : VaultKey UserName × V.Rng) :
    Device V :=
  let (storage, vault) := Vault.update cr d.storage d.vault id.1 key id.2
  { d with storage, vault }

/-- The components that a save begins with. -/
def updates (cr : Crypto) (key : SharedSecret) (d : Device V)
    (ids : List (VaultKey UserName × V.Rng)) : Device V :=
  ids.foldl (update cr key) d

/-- `save_vault_components_low`. When its request fails, nothing is cleared. -/
def saveVaultComponentsLow (keys : UserKeys cr) (server : Server.Storage) (d : Device V)
    (ids : List (VaultKey UserName × V.Rng)) (forced elapsed : Bool) (link : Link) (rng : cr.Rng) :
    Server.Storage × Device V × Option Flush :=
  let d := d.updates cr keys.vault ids
  let changes := d.vault.changes cr d.storage forced elapsed
  if changes.isEmpty then (server, d, none)
  else
    let totalHash := d.vault.merkleHash cr d.storage
    let (proof, vaultVersion) := Proof.new keys.sign d.vaultVersion totalHash rng
    match link, server.insertToVault keys.identity changes proof with
    | .requestLost, _ => (server, { d with vaultVersion }, none)
    | _, .error e => (server, { d with vaultVersion }, some ⟨changes, totalHash, .error e⟩)
    | .answerLost, .ok server =>
        (server, { d with vaultVersion }, some ⟨changes, totalHash, .ok ()⟩)
    | .up, .ok server =>
        let (storage, vault) := d.vault.clearChanges d.storage (proof.nonce + 1)
        (server, { storage, vault, vaultVersion }, some ⟨changes, totalHash, .ok ()⟩)

/-- A fresh device in `Node::new`: it fetches the vault and loads it. -/
def login (V : Suite UserName) (keys : UserKeys cr) (pf : Server.Profile.Handle)
    (rngs : V.Rng × V.Rng) : Option (Device V) := do
  let storage := Vault.refresh (.empty : Storage UserName) pf.vault.entries
  let storage := Vault.repair V cr storage keys.vault rngs
  let vault ← Vault.fromStorage V cr storage keys.vault
  some { storage, vault, vaultVersion := pf.root.vaultVersion + 1 }

end Device

/-- What a `RequestContext` changes in a vault. -/
inductive Edit (V : Suite UserName)
  | chats (chats : V.Chats)
  | theme (theme : V.Theme)
  | friend (name : UserName) (friend : FriendMeta V)

/-- The vault after the change. -/
def Edit.apply : Edit V → Vault V → Vault V
  | .chats newChats, v => { v with chats := newChats }
  | .theme newTheme, v => { v with theme := newTheme }
  | .friend name newFriend, v => { v with friends := v.friends.put name newFriend }

/-- The devices of a user and the server. Whether a flush of another device was
accepted since a device was set up is history that nobody stores. -/
structure System (V : Suite UserName) where
  server : Server.Storage
  devices : Nat → Option (Device V)
  overtaken : Nat → Bool

/-- A call on one of the devices. -/
inductive Action (cr : Crypto) (V : Suite UserName)
  | login (d : Nat) (rngs : V.Rng × V.Rng)
  | edit (d : Nat) (e : Edit V)
  | update (d : Nat) (id : VaultKey UserName) (rng : V.Rng)
  | save (d : Nat) (ids : List (VaultKey UserName × V.Rng)) (forced elapsed : Bool) (link : Link)
      (rng : cr.Rng)

namespace System

/-- A profile as `create_profile` leaves it. -/
def newProfile : Server.Profile.Handle := ⟨.empty, ⟨0, 0⟩, []⟩

/-- Device 0 has created the profile. -/
def start (V : Suite UserName) (keys : UserKeys cr) (server : Server.Storage)
    (rngs : V.Rng × V.Rng) : System V where
  server := server.setProfile keys.identity newProfile
  devices := fun d =>
    if d = 0 then
      let (storage, vault) := Vault.new V cr .empty keys.vault rngs
      some { storage, vault, vaultVersion := 1 }
    else none
  overtaken := fun _ => false

/-- A device in a new state. -/
def setDevice (s : System V) (d : Nat) (device : Device V) : System V :=
  { s with devices := Function.update s.devices d (some device) }

/-- One call, and the flush that it makes. -/
def step (keys : UserKeys cr) (s : System V) : Action cr V → System V × Option Flush
  | .login d rngs =>
      match s.devices d, s.server.profiles keys.identity with
      | none, some pf =>
          match Device.login V keys pf rngs with
          | some device =>
              ({ s.setDevice d device with overtaken := Function.update s.overtaken d false }, none)
          | none => (s, none)
      | _, _ => (s, none)
  | .edit d e =>
      match s.devices d with
      | some device => (s.setDevice d { device with vault := e.apply device.vault }, none)
      | none => (s, none)
  | .update d id rng =>
      match s.devices d with
      | some device => (s.setDevice d (device.update cr keys.vault (id, rng)), none)
      | none => (s, none)
  | .save d ids forced elapsed link rng =>
      match s.devices d with
      | some device =>
          let (server, device, flush) :=
            device.saveVaultComponentsLow keys s.server ids forced elapsed link rng
          let accepted := flush.any fun flush => flush.answer.isOk
          ({ s.setDevice d device with
             server
             overtaken := fun d' => s.overtaken d' || (accepted && d' != d) }, flush)
      | none => (s, none)

end System

/-- The devices and the server, call by call. -/
def vaultMachine (V : Suite UserName) (keys : UserKeys cr) :
    Machine (System V) (Action cr V) (Option Flush) where
  step := System.step keys

end OnionNetwork.Client
