import OnionNetwork.Merkle.Tree
import OnionNetwork.Server.Directories
import OnionNetwork.Server.Reconstruct
import OnionNetwork.Server.Repl

/-!
# Recovering from the replicas

`recover` of `api::chat` and of `api::profile`: what the other nodes answer is checked,
and replaces what is on disk. A panic is no result.

A profile is chosen by the sum of its two nonces. In a build with overflow checks a sum
above `u64::MAX` panics, in one without it wraps around; the sort is unstable, so where
equal sums go is open, and the sorted list is an argument.
-/

namespace OnionNetwork.Server

open Chat Lib Merkle

variable {cr : Crypto}

namespace Directories

/-! ### Chats -/

/-- The answers to `FETCH_CHAT_DATA` that are tables. -/
def usable (resps : ReplVec (NodeIdentity × Response (HashMap Identity Member))) :
    ReplVec ChatData where
  toList := resps.toList.filterMap fun (p, s) => s.toOption.map fun s => (p, s)
  length_le := le_trans (List.length_filterMap_le _ _) resps.length_le

/-- `api::chat::recover`, on what `repl_rpc` returned. -/
def recoverChatFrom (s : Directories cr) (order : IterOrder (Identity × ReplVec Member))
    (name : ChatName)
    (resps : Except ChatError (ReplVec (NodeIdentity × Response (HashMap Identity Member))))
    (commits : Bool) : Option (Outcome cr Unit) :=
  match resps with
  | .error e => some (s, .error e)
  | .ok resps =>
      let replChatData := usable resps
      if replChatData.toList.length ≤ replicationFactor / 2 then
        match s.removeChat name with
        | (s, .error e) => some (s, .error e)
        | (s, .ok ()) => some (s, .error .notFound)
      else
        (reconstructChat order replChatData).map fun chatData =>
          s.recoverChat name chatData commits

/-! ### Profiles -/

/-- A node, and the root it answered with. -/
abbrev ProfileAnswer (cr : Crypto) := NodeIdentity × Profile.RootFile cr

/-- The answers to `FETCH_PROFILE_FULL` that pass the filters. -/
def candidates (identity : Identity)
    (resps : ReplVec (NodeIdentity × Response (Profile.RootFile cr))) :
    List (ProfileAnswer cr) :=
  ((resps.toList.filterMap fun (p, r) => r.toOption.map fun r => (p, r)).filter fun (_, r) =>
    r.identity = identity).filter fun (_, r) => r.isValid

/-- The sum of the nonces. -/
def nonceSum (answer : ProfileAnswer cr) : Nat := answer.2.vaultVersion + answer.2.mailAction

/-- The key of the sort: the sum as a `u64`. -/
def sortKey (answer : ProfileAnswer cr) : Nat := nonceSum answer % 2 ^ 64

/-- Sorting two answers or more computes the key of each of them. -/
def sortPanics (overflowChecks : Bool) (resps : List (ProfileAnswer cr)) : Bool :=
  overflowChecks && 2 ≤ resps.length && resps.any fun a => 2 ^ 64 ≤ nonceSum a

/-- The root of the entries that were served. -/
def servedRoot (cr : Crypto) (vault : Bytes) : Hash :=
  (MerkleTree.fromBase (hashMerkle cr)
    (((vaultEntries vault).map fun (id, val) => cr.kv id val).insertionSort (· ≤ ·))).root

/-- A round of the loop: the vault that the node serves, if it is the one of the root. -/
def fetchServed (vaults : NodeIdentity → Except ChatError Bytes) (answer : ProfileAnswer cr) :
    Option (Profile.RootFile cr × Bytes) :=
  match vaults answer.1 with
  | .error _ => none
  | .ok vault => if servedRoot cr vault ≠ answer.2.vaultRoot then none else some (answer.2, vault)

/-- `api::profile::recover`, on what `repl_rpc` returned and on the answers to
`FETCH_VAULT`. -/
def recoverProfileFrom (s : Directories cr) (overflowChecks : Bool)
    (sort : List (ProfileAnswer cr) → List (ProfileAnswer cr)) (identity : Identity)
    (resps : Except ChatError (ReplVec (NodeIdentity × Response (Profile.RootFile cr))))
    (vaults : NodeIdentity → Except ChatError Bytes) (commits : Bytes → Bool) :
    Option (Outcome cr Unit) :=
  match resps with
  | .error e => some (s, .error e)
  | .ok resps =>
      let resps := candidates identity resps
      if sortPanics overflowChecks resps then none
      else
        match (sort resps).findSome? (fetchServed vaults) with
        | none => some (s, .error .notFound)
        | some (profile, vault) => some (s.recoverProfile profile vault (commits vault))

end Directories

end OnionNetwork.Server
