import Mathlib.Data.Finset.Insert
import OnionNetwork.Dht.RoutingTable
import OnionNetwork.Lib.HandleCache
import OnionNetwork.Lib.Machine

/-!
# The gateway

Inbound connections are authenticated by who sits behind them: `handle_pending_inbound_connection`
turns away an address that is being authenticated, `handle_established_inbound_connection` starts
an authentication, and `poll` hears how they end. `OnePerIp` is what the first of the three is
for: each address that is being authenticated is so once.

The check is made when a connection is pending, and nothing is registered before it is
established. So a step keeps `OnePerIp` exactly if it registers no address that is registered
(`onePerIp_step_iff`).
-/

namespace OnionNetwork

/-! ## Caches of bounded size -/

namespace Lib

variable {K : Type*} [DecidableEq K]

/-- `LruCache::get`: what is used goes to the front. -/
def lruGet (cap : Nat) (cache : HashMap K Nat) (k : K) : Option Nat × HashMap K Nat :=
  match cache.get k with
  | none => (none, cache)
  | some v => (some v, HandleStore.touch cap cache k v)

end Lib

namespace Gateway

open Lib Codec Dht

/-- `NodeId`. -/
abbrev NodeId := Fixed UInt8 32

/-- `ALLOWED_CACHE_SIZE`. -/
def allowedCacheSize : Nat := 3000

/-- `BANNED_CACHE_SIZE`. -/
def bannedCacheSize : Nat := 1000

/-- `is_valid`, at the seconds since the epoch, if the clock shows a time behind it. -/
def isValid (now : Option Nat) (validity : Nat) : Bool :=
  match now with
  | none => false
  | some now => now < validity

/-- `find_ip_addr`. -/
def findIpAddr (addr : Multiaddr) : Option IpAddr :=
  addr.findSome? fun
    | .ip4 ip => some (.v4 ip)
    | .ip6 ip => some (.v6 ip)
    | .tcp _ | .other _ _ => none

/-- `IpAddr::is_loopback`. -/
def isLoopback : IpAddr → Bool
  | .v4 octets => octets.toList.head? = some 127
  | .v6 octets => octets.toList = List.replicate 15 0 ++ [1]

/-- The trait `Auth`, with what its methods do to the value that implements it. -/
structure Auth where
  State : Type
  PeerId : Type
  shouldValidate : State → (remote here : Multiaddr) → Bool × State
  translatePeerId : State → PeerId → Option NodeId × State
  translateNodeId : State → NodeId → PeerId × State
  /-- Start a future. -/
  auth : State → NodeId → State

/-- Why a connection is denied. -/
inductive Denied
  | expectedIpAddr
  | alreadyAuthenticating
  | invalidPeerId
  | banned
  deriving DecidableEq, Repr

/-- `Behaviour`. -/
structure Behaviour (A : Auth) where
  auth : A.State
  allowed : HashMap NodeId Nat
  banned : HashMap IpAddr Nat
  progressingAuths : Finset IpAddr
  auths : List (NodeId × IpAddr)

variable {A : Auth}

namespace Behaviour

/-- `Behaviour::new`. -/
def new (filter : A.State) : Behaviour A :=
  ⟨filter, ⟨[], List.nodup_nil⟩, ⟨[], List.nodup_nil⟩, ∅, []⟩

variable (b : Behaviour A)

/-- `handle_pending_inbound_connection`. -/
def handlePendingInboundConnection (now : Option Nat) (localAddr remoteAddr : Multiaddr) :
    Behaviour A × Except Denied Unit :=
  let (validate, auth) := A.shouldValidate b.auth remoteAddr localAddr
  let b := { b with auth }
  if validate = false then (b, .ok ())
  else
    match findIpAddr remoteAddr with
    | none => (b, .error .expectedIpAddr)
    | some ip =>
        if ip ∈ b.progressingAuths then (b, .error .alreadyAuthenticating)
        else
          match lruGet bannedCacheSize b.banned ip with
          | (none, _) => (b, .ok ())
          | (some validity, banned) =>
              if isValid now validity then ({ b with banned }, .error .banned)
              else ({ b with banned := banned.remove ip }, .ok ())

/-- The end of `handle_established_inbound_connection`. -/
def startAuth (nodeId : NodeId) (ip : IpAddr) : Behaviour A :=
  { b with
    progressingAuths := insert ip b.progressingAuths
    auths := b.auths ++ [(nodeId, ip)]
    auth := A.auth b.auth nodeId }

/-- `handle_established_inbound_connection`. -/
def handleEstablishedInboundConnection (now : Option Nat) (peer : A.PeerId)
    (localAddr remoteAddr : Multiaddr) : Behaviour A × Except Denied Unit :=
  let (validate, auth) := A.shouldValidate b.auth remoteAddr localAddr
  let b := { b with auth }
  if validate = false then (b, .ok ())
  else
    match findIpAddr remoteAddr with
    | none => (b, .error .expectedIpAddr)
    | some ip =>
        let (nodeId, auth) := A.translatePeerId b.auth peer
        let b := { b with auth }
        match nodeId with
        | none => (b, .error .invalidPeerId)
        | some nodeId =>
            match lruGet allowedCacheSize b.allowed nodeId with
            | (none, _) => (b.startAuth nodeId ip, .ok ())
            | (some validity, allowed) =>
                if isValid now validity then ({ b with allowed }, .ok ())
                else ({ b with allowed := allowed.remove nodeId }.startAuth nodeId ip, .ok ())

/-- `poll`, with the futures that are ready, one after the other: a peer to disconnect from, or
`Pending`. -/
def poll (b : Behaviour A) : List (Nat × Except Nat Nat) → Behaviour A × Option A.PeerId
  | [] => (b, none)
  | (i, result) :: ready =>
      match b.auths[i]? with
      | none => (b, none)
      | some (node, ip) =>
          let b := { b with
            auths := b.auths.eraseIdx i
            progressingAuths := b.progressingAuths.erase ip }
          match result with
          | .ok validity =>
              let b :=
                { b with allowed := HandleStore.touch allowedCacheSize b.allowed node validity }
              b.poll ready
          | .error validity =>
              let banned :=
                if isLoopback ip then b.banned
                else HandleStore.touch bannedCacheSize b.banned ip validity
              let (peerId, auth) := A.translateNodeId b.auth node
              ({ b with banned, auth }, some peerId)

end Behaviour

/-- The calls of the swarm that do something. -/
inductive Input (A : Auth)
  | pendingInbound (now : Option Nat) (localAddr remoteAddr : Multiaddr)
  | establishedInbound (now : Option Nat) (peer : A.PeerId) (localAddr remoteAddr : Multiaddr)
  | poll (ready : List (Nat × Except Nat Nat))

/-- What they return. -/
inductive Output (A : Auth)
  | connection (result : Except Denied Unit)
  | polled (disconnect : Option A.PeerId)

/-- Gateways, under every order of calls. -/
def machine (A : Auth) : Machine (Behaviour A) (Input A) (Output A) where
  step b
    | .pendingInbound now localAddr remoteAddr =>
        let (b, result) := b.handlePendingInboundConnection now localAddr remoteAddr
        (b, .connection result)
    | .establishedInbound now peer localAddr remoteAddr =>
        let (b, result) := b.handleEstablishedInboundConnection now peer localAddr remoteAddr
        (b, .connection result)
    | .poll ready =>
        let (b, disconnect) := b.poll ready
        (b, .polled disconnect)

/-! ## One authentication for each address -/

namespace Behaviour

/-- The addresses of the authentications, one after the other. -/
def authIps (b : Behaviour A) : List IpAddr := b.auths.map Prod.snd

/-- The addresses that are in progress are those of the authentications, each of them once. -/
structure OnePerIp (b : Behaviour A) : Prop where
  mem_iff : ∀ ip, ip ∈ b.progressingAuths ↔ ip ∈ b.authIps
  nodup : b.authIps.Nodup

/-- The connection starts an authentication of the address: it is to be validated, and its node
has not been allowed, or not for long enough. -/
def Registers (b : Behaviour A) (now : Option Nat) (peer : A.PeerId)
    (localAddr remoteAddr : Multiaddr) (ip : IpAddr) : Prop :=
  (A.shouldValidate b.auth remoteAddr localAddr).1 = true ∧
    findIpAddr remoteAddr = some ip ∧
    ∃ nodeId, (A.translatePeerId (A.shouldValidate b.auth remoteAddr localAddr).2 peer).1 =
        some nodeId ∧
      ∀ validity, b.allowed.get nodeId = some validity → isValid now validity = false

/-- Not a connection that starts an authentication of an address that is in progress. -/
def Careful (b : Behaviour A) : Input A → Prop
  | .establishedInbound now peer localAddr remoteAddr =>
      ∀ ip, b.Registers now peer localAddr remoteAddr ip → ip ∉ b.progressingAuths
  | .pendingInbound .. | .poll _ => True

variable {b b' : Behaviour A} {now : Option Nat} {peer : A.PeerId}
  {localAddr remoteAddr : Multiaddr}

/-- The authentications are those of before. -/
def SameAuths (b b' : Behaviour A) : Prop :=
  b'.progressingAuths = b.progressingAuths ∧ b'.auths = b.auths

theorem SameAuths.onePerIp_iff (h : SameAuths b b') : b'.OnePerIp ↔ b.OnePerIp := by
  obtain ⟨hprogressing, hauths⟩ := h
  constructor
  · rintro ⟨hmem, hnodup⟩
    simp only [authIps, hauths, hprogressing] at hmem hnodup
    exact ⟨hmem, hnodup⟩
  · rintro ⟨hmem, hnodup⟩
    refine ⟨?_, ?_⟩
    · simp only [authIps, hauths, hprogressing]
      exact hmem
    · simp only [authIps, hauths]
      exact hnodup

/-- A pending connection starts nothing. -/
theorem sameAuths_pending (b : Behaviour A) (now : Option Nat) (localAddr remoteAddr : Multiaddr) :
    SameAuths b (b.handlePendingInboundConnection now localAddr remoteAddr).1 := by
  simp only [handlePendingInboundConnection]
  split
  · exact ⟨rfl, rfl⟩
  · split
    · exact ⟨rfl, rfl⟩
    · split
      · exact ⟨rfl, rfl⟩
      · split
        · exact ⟨rfl, rfl⟩
        · split <;> exact ⟨rfl, rfl⟩

/-- An established connection starts one authentication or none. -/
theorem established_cases (b : Behaviour A) (now : Option Nat) (peer : A.PeerId)
    (localAddr remoteAddr : Multiaddr) :
    ((∀ ip, ¬ b.Registers now peer localAddr remoteAddr ip) ∧
        SameAuths b (b.handleEstablishedInboundConnection now peer localAddr remoteAddr).1) ∨
      ∃ ip nodeId, b.Registers now peer localAddr remoteAddr ip ∧
        (b.handleEstablishedInboundConnection now peer localAddr remoteAddr).1.progressingAuths =
          insert ip b.progressingAuths ∧
        (b.handleEstablishedInboundConnection now peer localAddr remoteAddr).1.auths =
          b.auths ++ [(nodeId, ip)] := by
  obtain ⟨validate, auth, hvalidate⟩ :
      ∃ validate auth, A.shouldValidate b.auth remoteAddr localAddr = (validate, auth) :=
    ⟨_, _, rfl⟩
  obtain ⟨node, auth', hnode⟩ : ∃ node auth', A.translatePeerId auth peer = (node, auth') :=
    ⟨_, _, rfl⟩
  simp only [handleEstablishedInboundConnection, Registers, hvalidate]
  cases validate with
  | false => exact .inl ⟨fun ip h => by simp at h, rfl, rfl⟩
  | true =>
      cases hip : findIpAddr remoteAddr with
      | none => exact .inl ⟨fun ip h => by simp at h, rfl, rfl⟩
      | some ip =>
          simp only [hnode]
          cases node with
          | none => exact .inl ⟨fun ip h => by simp at h, rfl, rfl⟩
          | some nodeId =>
              -- a node that is known and valid passes; a stale or unknown one has to show who it is
              cases hallowed : b.allowed.get nodeId with
              | none =>
                  refine .inr ⟨ip, nodeId, ⟨trivial, rfl, nodeId, rfl, ?_⟩, ?_⟩
                  · simp [hallowed]
                  · simp [lruGet, hallowed, startAuth]
              | some validity =>
                  cases hvalid : isValid now validity with
                  | true =>
                      refine .inl ⟨?_, ?_⟩
                      · rintro ip ⟨-, -, node, hsame, hnever⟩
                        obtain rfl := Option.some.inj hsame
                        have hnot := hnever validity hallowed
                        rw [hvalid] at hnot
                        cases hnot
                      · simp [lruGet, hallowed, hvalid, SameAuths]
                  | false =>
                      refine .inr ⟨ip, nodeId, ⟨trivial, rfl, nodeId, rfl, ?_⟩, ?_⟩
                      · rw [hallowed]
                        rintro v heq
                        obtain rfl := Option.some.inj heq
                        exact hvalid
                      · simp [lruGet, hallowed, hvalid, startAuth]

/-- One more authentication is fine if its address was not in progress. -/
theorem OnePerIp.start_iff (h : b.OnePerIp) {ip : IpAddr} {nodeId : NodeId}
    (hprogressing : b'.progressingAuths = insert ip b.progressingAuths)
    (hauths : b'.auths = b.auths ++ [(nodeId, ip)]) :
    b'.OnePerIp ↔ ip ∉ b.progressingAuths := by
  have hips : b'.authIps = b.authIps ++ [ip] := by
    simp [authIps, hauths]
  constructor
  · rintro ⟨-, hnodup⟩ hmem
    rw [hips, List.nodup_append] at hnodup
    exact hnodup.2.2 ip ((h.mem_iff ip).mp hmem) ip List.mem_cons_self rfl
  · intro hnot
    refine ⟨fun other => ?_, ?_⟩
    · rw [hprogressing, hips, Finset.mem_insert, List.mem_append, List.mem_singleton, h.mem_iff,
        or_comm]
    · rw [hips, List.nodup_append]
      refine ⟨h.nodup, List.nodup_singleton ip, ?_⟩
      rintro other hother _ hsame rfl
      rw [List.mem_singleton.mp hsame] at hother
      exact hnot ((h.mem_iff ip).mpr hother)

/-- An authentication that ends is the only one of its address. -/
theorem OnePerIp.finish (h : b.OnePerIp) {i : Nat} {node : NodeId} {ip : IpAddr}
    (hget : b.auths[i]? = some (node, ip))
    (hprogressing : b'.progressingAuths = b.progressingAuths.erase ip)
    (hauths : b'.auths = b.auths.eraseIdx i) : b'.OnePerIp := by
  have hips : b'.authIps = b.authIps.erase ip := by
    have hi : b.authIps[i]? = some ip := by
      rw [authIps, List.getElem?_map, hget]
      rfl
    obtain ⟨hlt, hat⟩ := List.getElem?_eq_some_iff.mp hi
    rw [authIps, hauths, ← List.eraseIdx_map, ← hat]
    exact (h.nodup.erase_getElem i hlt).symm
  refine ⟨fun other => ?_, ?_⟩
  · rw [hprogressing, hips, Finset.mem_erase, h.nodup.mem_erase_iff, h.mem_iff]
  · rw [hips]
    exact h.nodup.erase ip

/-- Whatever ends while polling. -/
theorem OnePerIp.poll (h : b.OnePerIp) (ready : List (Nat × Except Nat Nat)) :
    (b.poll ready).1.OnePerIp := by
  induction ready generalizing b with
  | nil => exact h
  | cons next ready ih =>
      obtain ⟨i, result⟩ := next
      cases hget : b.auths[i]? with
      | none =>
          simp only [Behaviour.poll, hget]
          exact h
      | some auth =>
          obtain ⟨node, ip⟩ := auth
          simp only [Behaviour.poll, hget]
          cases result with
          | ok validity => exact ih (h.finish hget rfl rfl)
          | error validity => exact h.finish hget rfl rfl

theorem onePerIp_new (filter : A.State) : (new filter).OnePerIp :=
  ⟨fun ip => by simp [new, authIps], List.nodup_nil⟩

/-- **One step** keeps one authentication for each address exactly if it is careful. -/
theorem onePerIp_step_iff (h : b.OnePerIp) (input : Input A) :
    ((machine A).step b input).1.OnePerIp ↔ b.Careful input := by
  cases input with
  | pendingInbound now localAddr remoteAddr =>
      exact iff_of_true ((sameAuths_pending b now localAddr remoteAddr).onePerIp_iff.mpr h) trivial
  | poll ready => exact iff_of_true (h.poll ready) trivial
  | establishedInbound now peer localAddr remoteAddr =>
      show (b.handleEstablishedInboundConnection now peer localAddr remoteAddr).1.OnePerIp ↔
        ∀ ip, b.Registers now peer localAddr remoteAddr ip → ip ∉ b.progressingAuths
      rcases established_cases b now peer localAddr remoteAddr with
        ⟨hnone, hsame⟩ | ⟨ip, nodeId, hregisters, hprogressing, hauths⟩
      · exact iff_of_true (hsame.onePerIp_iff.mpr h) fun ip hip => absurd hip (hnone ip)
      · rw [h.start_iff hprogressing hauths]
        constructor
        · intro hnot other hother
          obtain rfl := Option.some.inj (hother.2.1.symm.trans hregisters.2.1)
          exact hnot
        · exact fun hall => hall ip hregisters

end Behaviour

end Gateway

end OnionNetwork
