import OnionNetwork.Lib.SortedMap
import OnionNetwork.Merkle.Tree
import OnionNetwork.Crypto.Primitives
import OnionNetwork.Crypto.Proof
import Mathlib.Data.Prod.Lex
import Mathlib.Order.WithBot

/-!
# The vault of a client

`client-node/src/vault.rs`: a client keeps its chats, friends and theme, each
component encoded and encrypted as a value in the local storage, together with
the set of components it knows to be stored (`VaultKeys`) and the set of those
that changed since the last flush (`VaultChanges`). `merkle_hash` is the root a
flush signs.

The storage is the part of `client-node/src/chain.rs` that belongs to one user
on one device. What the components hold enters by its encoding only.
-/

namespace OnionNetwork.Client

open Lib Merkle

/-- `FriendId`. -/
abbrev FriendId := SharedSecret

/-- What the components of a vault hold, how it is encoded, and the encryption
of `chain_api`. A nonce is an argument of its own type. -/
structure Suite (UserName : Type) where
  Chats : Type
  Theme : Type
  /-- The ratchet and the identity of a friend. -/
  Friend : Type
  Rng : Type
  noChats : Chats
  defaultTheme : Theme
  chatsBytes : Chats → Bytes
  chatsOf : Bytes → Option Chats
  themeBytes : Theme → Bytes
  themeOf : Bytes → Option Theme
  friendBytes : Friend → Bytes
  friendOf : Bytes → Option Friend
  namesBytes : List (UserName × FriendId) → Bytes
  namesOf : Bytes → Option (List (UserName × FriendId))
  encrypt : Bytes → SharedSecret → Rng → Bytes
  decrypt : Bytes → SharedSecret → Option Bytes

/-- What is relied on: decryption undoes encryption, and the friend list is read
back as it was written. The zero byte is an empty list. -/
structure Suite.Lawful {UserName : Type} (V : Suite UserName) : Prop where
  decrypt_encrypt : ∀ plain key rng, V.decrypt (V.encrypt plain key rng) key = some plain
  namesOf_namesBytes : ∀ names, V.namesOf (V.namesBytes names) = some names
  namesOf_zero : V.namesOf [0] = some []

/-- `VaultKey`. -/
inductive VaultKey (UserName : Type)
  | chats
  | friend (name : UserName)
  | friendNames
  | theme
  deriving DecidableEq, Repr

namespace VaultKey

variable {UserName : Type}

/-- The derived order: by variant, friends by name. -/
def rank : VaultKey UserName → ℕ ×ₗ WithBot UserName
  | chats => toLex (0, ⊥)
  | friend name => toLex (1, name)
  | friendNames => toLex (2, ⊥)
  | theme => toLex (3, ⊥)

theorem rank_injective : Function.Injective (@rank UserName) := by
  intro a b h
  cases a <;> cases b <;> simp_all [rank]

instance [LinearOrder UserName] : LinearOrder (VaultKey UserName) :=
  LinearOrder.lift' rank rank_injective

end VaultKey

variable {UserName : Type} [LinearOrder UserName] {V : Suite UserName}

/-- `Storage`, the values of one user. The sets read as empty until they are
written. -/
structure Storage (UserName : Type) [LinearOrder UserName] where
  /-- `VaultValue` -/
  values : SortedMap Hash Bytes
  /-- `VaultKeys` -/
  keys : SortedSet (VaultKey UserName)
  /-- `VaultChanges` -/
  changes : SortedSet (VaultKey UserName)
  /-- `VaultVersion` -/
  version : Option Nonce

namespace Storage

/-- The storage of a fresh device. -/
def empty : Storage UserName := ⟨.empty, .empty, .empty, none⟩

/-- `Storage::update` of the two sets. -/
def touch (s : Storage UserName) (id : VaultKey UserName) : Storage UserName :=
  { s with keys := s.keys.insert id, changes := s.changes.insert id }

/-- `Storage::ensure`: whether the value was missing. -/
def ensure (s : Storage UserName) (key : Hash) (value : Bytes) : Storage UserName × Bool :=
  match s.values.get key with
  | none => ({ s with values := s.values.put key value }, true)
  | some _ => (s, false)

end Storage

/-- `FriendMeta`. -/
structure FriendMeta (V : Suite UserName) where
  state : V.Friend
  id : FriendId

/-- `Vault`. The index of the friends by session is not read here, and the time
since the last update is an argument where it is asked for. -/
structure Vault (V : Suite UserName) where
  chats : V.Chats
  friends : SortedMap UserName (FriendMeta V)
  theme : V.Theme
  changeCount : Nat

/-- `constant_key`. -/
def constantKey (cr : Crypto) (name : Bytes) : SharedSecret :=
  cr.blake3 (cr.blake3 name).toBytes

/-- `chats`. -/
def chatsKey (cr : Crypto) : SharedSecret := constantKey cr [99, 104, 97, 116, 115]

/-- `theme`. -/
def themeKey (cr : Crypto) : SharedSecret := constantKey cr [116, 104, 101, 109, 101]

/-- `friends`. -/
def friendsKey (cr : Crypto) : SharedSecret := constantKey cr [102, 114, 105, 101, 110, 100, 115]

/-- `get_encrypted`. -/
def getEncrypted {T : Type} (V : Suite UserName) (of : Bytes → Option T) (s : Storage UserName)
    (key : Hash) (decryptionKey : SharedSecret) : Option T := do
  let v ← s.values.get key
  let v ← V.decrypt v decryptionKey
  of v

namespace Vault

variable {cr : Crypto}

/-- `Vault::new_low`. -/
def newLow : Vault V := ⟨V.noChats, .empty, V.defaultTheme, 0⟩

/-- The function inside `Vault::repair`. -/
def ensure (s : Storage UserName) (key : SharedSecret) (id : VaultKey UserName) (value : Bytes) :
    Storage UserName :=
  let (s, missing) := s.ensure key value
  if missing then s.touch id else s

/-- `Vault::repair`, with the nonces of the two encryptions. -/
def repair (V : Suite UserName) (cr : Crypto) (s : Storage UserName) (key : SharedSecret)
    (rngs : V.Rng × V.Rng) : Storage UserName :=
  let s := ensure s (chatsKey cr) .chats (V.encrypt [0] key rngs.1)
  let s := ensure s (themeKey cr) .theme (V.themeBytes V.defaultTheme)
  ensure s (friendsKey cr) .friendNames (V.encrypt [0] key rngs.2)

/-- `Vault::new`. -/
def new (V : Suite UserName) (cr : Crypto) (s : Storage UserName) (key : SharedSecret)
    (rngs : V.Rng × V.Rng) : Storage UserName × Vault V :=
  (repair V cr s key rngs, newLow)

/-- `Vault::from_storage`. -/
def fromStorage (V : Suite UserName) (cr : Crypto) (s : Storage UserName) (key : SharedSecret) :
    Option (Vault V) := do
  let names ← getEncrypted V V.namesOf s (friendsKey cr) key
  let metas ← names.mapM fun (name, id) => do
    let state ← getEncrypted V V.friendOf s id key
    some (name, (⟨state, id⟩ : FriendMeta V))
  let chats ← getEncrypted V V.chatsOf s (chatsKey cr) key
  let theme ← (s.values.get (themeKey cr)).bind V.themeOf
  some
    { chats
      theme
      friends := metas.foldl (fun friends entry => friends.put entry.1 entry.2) .empty
      changeCount := 0 }

/-- `Vault::refresh`. -/
def refresh (s : Storage UserName) (values : List (Hash × Bytes)) : Storage UserName :=
  { s with values := values.foldl (fun values entry => values.put entry.1 entry.2) s.values }

/-- `Vault::get_key`. -/
def getKey (cr : Crypto) (v : Vault V) : VaultKey UserName → Option SharedSecret
  | .chats => some (chatsKey cr)
  | .theme => some (themeKey cr)
  | .friend name => (v.friends.get name).map FriendMeta.id
  | .friendNames => some (friendsKey cr)

/-- The friends with their ids, as `Vault::get_repr` lists them. -/
def names (v : Vault V) : List (UserName × FriendId) :=
  v.friends.entries.map fun (n, f) => (n, f.id)

/-- `Vault::get_repr`, with the nonce of the encryption. -/
def getRepr (v : Vault V) (id : VaultKey UserName) (key : SharedSecret) (rng : V.Rng) :
    Option Bytes :=
  match id with
  | .chats => some (V.encrypt (V.chatsBytes v.chats) key rng)
  | .theme => some (V.themeBytes v.theme)
  | .friend name =>
      (v.friends.get name).map fun friend => V.encrypt (V.friendBytes friend.state) key rng
  | .friendNames =>
      some (V.encrypt (V.namesBytes v.names) key rng)

/-- `Vault::update`. -/
def update (cr : Crypto) (s : Storage UserName) (v : Vault V) (id : VaultKey UserName)
    (key : SharedSecret) (rng : V.Rng) : Storage UserName × Vault V :=
  match v.getRepr id key rng, v.getKey cr id with
  | some value, some key =>
      if s.values.get key = some value then (s, v)
      else
        (({ s with values := s.values.put key value } : Storage UserName).touch id,
          { v with changeCount := v.changeCount + 1 })
  | _, _ => (s, v)

/-- The hashes `Vault::merkle_hash` sorts. -/
def leaves (cr : Crypto) (s : Storage UserName) (v : Vault V) : List Hash :=
  (s.keys.keys.filterMap (v.getKey cr)).filterMap fun k =>
    (s.values.get k).map fun value => cr.kv k value

/-- `Vault::merkle_hash`. -/
def merkleHash (cr : Crypto) (s : Storage UserName) (v : Vault V) : Hash :=
  (MerkleTree.fromBase (hashMerkle cr) ((v.leaves cr s).insertionSort (· ≤ ·))).root

/-- What `Vault::changes` sends if it is time to. -/
def changed (cr : Crypto) (s : Storage UserName) (v : Vault V) : List (Hash × Bytes) :=
  (s.changes.keys.filterMap (v.getKey cr)).filterMap fun k =>
    (s.values.get k).map fun value => (k, value)

/-- `Vault::changes`; `elapsed` says that the last update is more than a minute
ago. -/
def changes (cr : Crypto) (s : Storage UserName) (v : Vault V) (forced elapsed : Bool) :
    List (Hash × Bytes) :=
  if 40 < v.changeCount ∨ elapsed ∨ 10 < s.changes.keys.length ∨ forced then v.changed cr s else []

/-- `Vault::clear_changes`. -/
def clearChanges (s : Storage UserName) (v : Vault V) (version : Nonce) :
    Storage UserName × Vault V :=
  ({ s with changes := .empty, version := some version }, { v with changeCount := 0 })

end Vault

end OnionNetwork.Client
