import OnionNetwork.Codec.Types
import OnionNetwork.Crypto.Proof
import OnionNetwork.Fec.Rebuild
import OnionNetwork.Lib.HashMap
import OnionNetwork.Lib.Machine

/-!
# The nodes of a satellite

`NodeProfiles` keeps a record for each node, and the free space of each node a second time in an
index. A node has one nonce for two calls: `update_addr` is to take any greater one,
`request_gc` takes the next one.

An outer `Option` is a panic. With debug assertions an overflow is one, without them it wraps.
-/

namespace OnionNetwork.Storage

open Lib Codec

/-! ## Machine integers -/

/-- `a - b` of two `u64`. -/
def subU64 (debugAssertions : Bool) (a b : Nat) : Option Nat :=
  if b ≤ a then some (a - b)
  else if debugAssertions then none
  else some (a + 2 ^ 64 - b)

/-- `n + 1` of a `u64`. -/
def succU64 (debugAssertions : Bool) (n : Nonce) : Option Nonce :=
  if n + 1 < 2 ^ 64 then some (n + 1)
  else if debugAssertions then none
  else some 0

/-! ## Node profiles -/

/-- `GC_COOLDOWN`. -/
def gcCooldown : Nat := 60 * 60

/-- `NodeProfile`. -/
structure NodeProfile where
  identity : Hash
  preIdentity : Hash
  nonce : Nonce
  ourNonce : Nonce
  lastRequestedGc : Nat
  freeBlocks : Nat
  addr : SocketAddr
  deriving DecidableEq

/-- `Address`. -/
structure Address where
  id : Hash
  size : Nat
  deriving DecidableEq

/-- `NodeProfiles`. The ids are `u16`. -/
structure NodeProfiles where
  records : List NodeProfile
  identityToId : HashMap Hash Nat
  freeSpaceIndex : List (Nat × Nat)

namespace NodeProfiles

/-- `i as NodeId`. -/
def nodeId (i : Nat) : Nat := i % 2 ^ 16

/-- `NodeProfiles::decode`, from the records that were read. -/
def ofRecords (records : List NodeProfile) : NodeProfiles where
  records := records
  identityToId := HashMap.ofList (records.zipIdx.map fun e => (e.1.identity, nodeId e.2))
  freeSpaceIndex := records.zipIdx.map fun e => (e.1.freeBlocks, nodeId e.2)

variable (debugAssertions : Bool) (s : NodeProfiles)

/-- `NodeProfiles::register_node`. -/
def registerNode (identity preIdentity : Hash) (addr : SocketAddr) (freeBlocks : Nat) :
    NodeProfiles × Bool :=
  let id := nodeId s.records.length
  match s.identityToId.get identity with
  | some _ => (s, false)
  | none =>
      ({ identityToId := s.identityToId.insert identity id
         freeSpaceIndex := s.freeSpaceIndex ++ [(freeBlocks, id)]
         records := s.records ++ [{
           identity := identity
           preIdentity := preIdentity
           nonce := 0
           ourNonce := 0
           lastRequestedGc := 0
           freeBlocks := freeBlocks
           addr := addr }] }, true)

/-- `NodeProfiles::request_gc`, at the seconds since the epoch. -/
def requestGc (currentTime : Nat) (identity : Hash) (nonce : Nonce) :
    Option (NodeProfiles × Option Nat) :=
  match s.identityToId.get identity with
  | none => some (s, none)
  | some id => do
      let profile ← s.records[id]?
      let elapsed ← subU64 debugAssertions currentTime profile.lastRequestedGc
      if elapsed < gcCooldown then some (s, none)
      else
        let next ← succU64 debugAssertions profile.nonce
        if next ≠ nonce then some (s, none)
        else
          some ({ s with
            records := s.records.set id
              { profile with lastRequestedGc := currentTime, nonce := next } }, some id)

/-- `alloc_size`. -/
def allocSize (size : Nat) : Nat :=
  (size + dataPieces debugAssertions - 1) / dataPieces debugAssertions

/-- The loop of `allocate_file`. -/
def takeSpace (allocSize : Nat) :
    List (Nat × Nat) → List NodeProfile → Option (List (Nat × Nat) × List NodeProfile)
  | [], records => some ([], records)
  | (free, id) :: mostFree, records => do
      let free ← subU64 debugAssertions free allocSize
      let profile ← records[id]?
      let freeBlocks ← subU64 debugAssertions profile.freeBlocks allocSize
      let (mostFree, records) ← takeSpace allocSize mostFree
        (records.set id { profile with freeBlocks := freeBlocks })
      some ((free, id) :: mostFree, records)

/-- `our_nonce.next()` of each holder. -/
def nextNonces : List Nat → List NodeProfile → Option (List Nonce × List NodeProfile)
  | [], records => some ([], records)
  | id :: holders, records => do
      let profile ← records[id]?
      let ourNonce ← succU64 debugAssertions profile.ourNonce
      let (nonces, records) ← nextNonces holders
        (records.set id { profile with ourNonce := ourNonce })
      some (profile.ourNonce :: nonces, records)

/-- `most_free`, the last nodes of the index. -/
def mostFree : List (Nat × Nat) :=
  s.freeSpaceIndex.drop (s.freeSpaceIndex.length - maxPieces debugAssertions)

/-- `NodeProfiles::allocate_file`, with the secret that is drawn for the id. -/
def allocateFile (size : Nat) (secret : Hash) :
    Option (NodeProfiles × Option (Address × List Nat × List Nonce)) :=
  let allocSize := allocSize debugAssertions size
  if s.freeSpaceIndex.length < maxPieces debugAssertions then some (s, none)
  else
    let mostFree := s.mostFree debugAssertions
    if (mostFree.any fun e => e.1 < allocSize) = false then some (s, none)
    else do
      let (taken, records) ← takeSpace debugAssertions allocSize mostFree s.records
      let holders := mostFree.map (·.2)
      let (nonces, records) ← nextNonces debugAssertions holders records
      let front := s.freeSpaceIndex.take (s.freeSpaceIndex.length - maxPieces debugAssertions)
      some ({ s with records := records, freeSpaceIndex := front ++ taken },
        some (⟨secret, size⟩, holders, nonces))

/-- `NodeProfiles::update_addr`. -/
def updateAddr (identity : Hash) (nonce : Nonce) (addr : SocketAddr) :
    Option (NodeProfiles × Bool) :=
  match s.identityToId.get identity with
  | none => some (s, false)
  | some id => do
      let profile ← s.records[id]?
      let (advanced, moved) := profile.nonce.advanceTo nonce
      let profile := { profile with nonce := advanced }
      if moved then some ({ s with records := s.records.set id profile }, false)
      else
        let next ← succU64 debugAssertions profile.nonce
        some ({ s with records := s.records.set id { profile with nonce := next, addr := addr } },
          true)

end NodeProfiles

/-- The calls. -/
inductive NodeCall
  | registerNode (identity preIdentity : Hash) (addr : SocketAddr) (freeBlocks : Nat)
  | requestGc (currentTime : Nat) (identity : Hash) (nonce : Nonce)
  | allocateFile (size : Nat) (secret : Hash)
  | updateAddr (identity : Hash) (nonce : Nonce) (addr : SocketAddr)

/-- What they return. -/
inductive NodeAnswer
  | registered (success : Bool)
  | gc (node : Option Nat)
  | allocated (file : Option (Address × List Nat × List Nonce))
  | updated (success : Bool)
  | panicked
  deriving DecidableEq

namespace NodeProfiles

/-- A call that may panic. -/
def answer {α : Type} (s : NodeProfiles) (f : α → NodeAnswer) :
    Option (NodeProfiles × α) → NodeProfiles × NodeAnswer
  | none => (s, .panicked)
  | some (s', a) => (s', f a)

/-- One call. -/
def serve (debugAssertions : Bool) (s : NodeProfiles) : NodeCall → NodeProfiles × NodeAnswer
  | .registerNode identity preIdentity addr freeBlocks =>
      let (s, success) := s.registerNode identity preIdentity addr freeBlocks
      (s, .registered success)
  | .requestGc currentTime identity nonce =>
      s.answer .gc (s.requestGc debugAssertions currentTime identity nonce)
  | .allocateFile size secret =>
      s.answer .allocated (s.allocateFile debugAssertions size secret)
  | .updateAddr identity nonce addr =>
      s.answer .updated (s.updateAddr debugAssertions identity nonce addr)

end NodeProfiles

/-- The nodes of a satellite, under every order of calls. -/
def nodeMachine (debugAssertions : Bool) : Machine NodeProfiles NodeCall NodeAnswer :=
  ⟨NodeProfiles.serve debugAssertions⟩

/-! ## How the calls end -/

/-- The node asked for its garbage less than the cooldown ago. -/
def NodeProfile.Cools (profile : NodeProfile) (currentTime : Nat) : Prop :=
  profile.lastRequestedGc ≤ currentTime ∧ currentTime - profile.lastRequestedGc < gcCooldown

namespace NodeProfiles

variable {debugAssertions : Bool} {s : NodeProfiles} {identity : Hash} {nonce : Nonce}

/-- A node that is registered, with its place and its record. -/
def Registered (s : NodeProfiles) (identity : Hash) (id : Nat) (profile : NodeProfile) : Prop :=
  s.identityToId.get identity = some id ∧ s.records[id]? = some profile

/-- The record at a place is written. -/
def setRecord (s : NodeProfiles) (id : Nat) (profile : NodeProfile) : NodeProfiles :=
  { s with records := s.records.set id profile }

/-- An element is replaced by one that looks the same. -/
theorem map_set_of_eq {α β : Type} {f : α → β} {l : List α} {i : Nat} {x x' : α}
    (h : l[i]? = some x) (hf : f x' = f x) : (l.set i x').map f = l.map f := by
  refine List.ext_getElem? fun j => ?_
  rw [List.getElem?_map, List.getElem?_map, List.getElem?_set]
  split
  · next hsame =>
      subst hsame
      have hlt := (List.getElem?_eq_some_iff.mp h).1
      rw [if_pos hlt, h, Option.map_some, Option.map_some, hf]
  · rfl

/-- A call for the next nonce takes it, after the cooldown, or leaves everything as it is. -/
theorem requestGc_cases (debugAssertions : Bool) (s : NodeProfiles) (currentTime : Nat)
    (identity : Hash) (nonce : Nonce) :
    s.requestGc debugAssertions currentTime identity nonce = none ∨
      s.requestGc debugAssertions currentTime identity nonce = some (s, none) ∨
      ∃ id profile, s.Registered identity id profile ∧ ¬ profile.Cools currentTime ∧
        succU64 debugAssertions profile.nonce = some nonce ∧
        s.requestGc debugAssertions currentTime identity nonce =
          some (s.setRecord id { profile with lastRequestedGc := currentTime, nonce := nonce },
            some id) := by
  unfold requestGc Registered
  cases hget : s.identityToId.get identity with
  | none => exact .inr (.inl rfl)
  | some id =>
      cases hrecord : s.records[id]? with
      | none => exact .inl (by simp [hrecord])
      | some profile =>
          cases helapsed : subU64 debugAssertions currentTime profile.lastRequestedGc with
          | none => exact .inl (by simp [hrecord, helapsed])
          | some elapsed =>
              by_cases hcool : elapsed < gcCooldown
              · exact .inr (.inl (by simp [hrecord, helapsed, hcool]))
              · cases hnext : succU64 debugAssertions profile.nonce with
                | none => exact .inl (by simp [hrecord, helapsed, hcool, hnext])
                | some next =>
                    by_cases hsame : next = nonce
                    · subst hsame
                      refine .inr (.inr ⟨id, profile, ⟨rfl, hrecord⟩, ?_, hnext, ?_⟩)
                      · rintro ⟨hle, hlt⟩
                        rw [subU64, if_pos hle] at helapsed
                        exact hcool (Option.some.inj helapsed ▸ hlt)
                      · simp [hrecord, helapsed, hcool, hnext, setRecord]
                    · exact .inr (.inl (by simp [hrecord, helapsed, hnext, hsame]))

/-- A greater nonce is stored and refused. -/
theorem updateAddr_of_lt {id : Nat} {profile : NodeProfile} (h : s.Registered identity id profile)
    (hlt : profile.nonce < nonce) (addr : SocketAddr) :
    s.updateAddr debugAssertions identity nonce addr =
      some (s.setRecord id { profile with nonce := nonce }, false) := by
  simp [updateAddr, h.1, h.2, Nonce.advanceTo, hlt, setRecord]

/-- Any other one is accepted, and the stored one goes up by one. -/
theorem updateAddr_of_le {id : Nat} {profile : NodeProfile} (h : s.Registered identity id profile)
    (hle : nonce ≤ profile.nonce) (addr : SocketAddr) :
    s.updateAddr debugAssertions identity nonce addr =
      (succU64 debugAssertions profile.nonce).map fun next =>
        (s.setRecord id { profile with nonce := next, addr := addr }, true) := by
  have hstays : profile.nonce.advanceTo nonce = (profile.nonce, false) :=
    if_neg (Nat.not_lt.mpr hle)
  cases hnext : succU64 debugAssertions profile.nonce with
  | none => simp [updateAddr, h.1, h.2, hstays, hnext]
  | some next => simp [updateAddr, h.1, h.2, hstays, hnext, setRecord]

/-- A node that is not registered has nothing to update. -/
theorem updateAddr_of_not_registered (debugAssertions : Bool) (nonce : Nonce) (addr : SocketAddr)
    (h : ∀ id profile, ¬ s.Registered identity id profile) :
    s.updateAddr debugAssertions identity nonce addr = some (s, false) ∨
      s.updateAddr debugAssertions identity nonce addr = none := by
  unfold updateAddr
  cases hget : s.identityToId.get identity with
  | none => exact .inl rfl
  | some id =>
      cases hrecord : s.records[id]? with
      | none => exact .inr (by simp [hrecord])
      | some profile => exact absurd ⟨hget, hrecord⟩ (h id profile)

end NodeProfiles

end OnionNetwork.Storage
