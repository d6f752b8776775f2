import OnionNetwork.Crypto.Primitives
import OnionNetwork.Lib.Search
import OnionNetwork.Codec.Types
import OnionNetwork.Lib.Machine
import OnionNetwork.Lib.SortedMap
import OnionNetwork.Server.VaultBytes

/-!
# The routing table and the replication groups

`protocols/dht` and the stake events of `chain/api` that drive it: a node keeps the routes to the
other nodes in a vector, and `closest` scans it for the ids with the smallest XOR distance to the
hash of a key, in a vector of at most `COUNT` slots. The replication group of a topic is what it
finds for the topic's bytes. `closest_eq` says that the scan is sorting by distance and taking
the first `COUNT`.

The routes are a vector that every operation searches by bisection, so all of them rest on its
order: `Sorted` is the invariant, and `contents` is the map a sorted table stands for.
`insert_spec`, `remove_spec` and `get_spec` say that the operations are those of the map.
-/

namespace OnionNetwork.Dht

open Lib

/-- `Route`. -/
structure Route (Addr : Type) where
  id : Hash
  addr : Addr

/-- `RoutingTable`. -/
structure RoutingTable (Addr : Type) where
  routes : List (Route Addr)

namespace RoutingTable

variable {Addr : Type}

/-- The ids of the routes. -/
def ids (table : RoutingTable Addr) : List Hash := table.routes.map Route.id

/-- The XOR distance to `key`. -/
def distance (key id : Hash) : Hash := id ^^^ key

/-- `slice::partition_point` of a slice on which `p` does not become true again. -/
def partitionPoint (p : Hash → Bool) (slots : List Hash) : Nat := (slots.takeWhile p).length

/-- The loop of `closest` behind the first `COUNT` ids. `none` is the panic of the
`unwrap` on an empty `slots`. -/
def scan (key : Hash) : List Hash → List Hash → Option (List Hash)
  | slots, [] => some slots
  | slots, id :: iter =>
      match slots.getLast? with
      | none => none
      | some last =>
          if distance key last ≤ distance key id then scan key slots iter
          else
            let slots := slots.dropLast
            let point := partitionPoint (fun slot => distance key slot < distance key id) slots
            scan key (slots.insertIdx point id) iter

/-- `RoutingTable::closest`. -/
def closest (cr : Crypto) (count : Nat) (table : RoutingTable Addr) (key : Bytes) :
    Option (List Hash) :=
  let key := cr.blake3 key
  let slots := sortByKey (distance key) (table.ids.take count)
  scan key slots (table.ids.drop count)

/-- `FullReplGroup` of a topic, of `REPLICATION_FACTOR + 1` nodes. -/
def fullReplGroup (cr : Crypto) (table : RoutingTable Addr) (topic : Bytes) : Option (List Hash) :=
  table.closest cr 5 topic

/-- `ReplGroup`: the group without the node itself. -/
def replGroup (cr : Crypto) (table : RoutingTable Addr) (localPeerId : Hash) (topic : Bytes) :
    Option (List Hash) :=
  (table.fullReplGroup cr topic).map fun group => group.filter fun r => r ≠ localPeerId

/-! ### The scan -/

theorem distance_injective (key : Hash) : Function.Injective (distance key) := by
  intro a b h
  have hcancel := congrArg (fun w => w ^^^ key) h
  simpa only [distance, BitVec.xor_assoc, BitVec.xor_self, BitVec.xor_zero] using hcancel

theorem keysDistinct_of_nodup (key : Hash) {l : List Hash} (h : l.Nodup) :
    KeysDistinct (distance key) l :=
  h.map (distance_injective key)

/-- Inserting at the partition point is inserting in order. -/
theorem insertIdx_partitionPoint (key id : Hash) (slots : List Hash) :
    slots.insertIdx (partitionPoint (fun slot => distance key slot < distance key id) slots) id =
      slots.orderedInsert (ByKey (distance key)) id := by
  induction slots with
  | nil => rfl
  | cons slot slots ih =>
      by_cases hle : ByKey (distance key) id slot
      · have hnot : decide (distance key slot < distance key id) = false :=
          decide_eq_false (not_lt.mpr hle)
        rw [partitionPoint, List.takeWhile_cons, hnot, List.orderedInsert_cons, if_pos hle]
        rfl
      · have hlt : decide (distance key slot < distance key id) = true :=
          decide_eq_true (not_le.mp hle)
        rw [partitionPoint, List.takeWhile_cons, hlt, List.orderedInsert_cons, if_neg hle,
          if_pos rfl, List.length_cons, List.insertIdx_succ_cons]
        exact congrArg (slot :: ·) ih

/-- Behind the ids `seen`, the slots hold the closest of them. -/
theorem scan_eq {count : Nat} (hcount : 1 ≤ count) (key : Hash) (seen rest : List Hash)
    (hnodup : (seen ++ rest).Nodup) (hseen : rest = [] ∨ count ≤ seen.length) :
    scan key (smallest (distance key) count seen) rest =
      some (smallest (distance key) count (seen ++ rest)) := by
  induction rest generalizing seen with
  | nil => rw [scan, List.append_nil]
  | cons id rest ih =>
      have hfull : count ≤ seen.length := hseen.resolve_left (List.cons_ne_nil _ _)
      have hsplit : seen ++ id :: rest = (seen ++ [id]) ++ rest := by simp
      rw [hsplit] at hnodup ⊢
      have hdistinct : KeysDistinct (distance key) (seen ++ [id]) :=
        keysDistinct_of_nodup key hnodup.of_append_left
      have hnext : rest = [] ∨ count ≤ (seen ++ [id]).length := by
        rw [List.length_append]
        exact .inr (Nat.le_add_right_of_le hfull)
      cases hlast : (smallest (distance key) count seen).getLast? with
      | none =>
          have hlength : (smallest (distance key) count seen).length = count := by
            rw [length_smallest, Nat.min_eq_left hfull]
          rw [List.getLast?_eq_none_iff.mp hlast] at hlength
          exact absurd hcount (by rw [← hlength]; decide)
      | some last =>
          rw [scan, hlast]
          by_cases hle : distance key last ≤ distance key id
          · simp only [if_pos hle]
            rw [← smallest_snoc_of_le hdistinct hfull hlast hle]
            exact ih (seen ++ [id]) hnodup hnext
          · simp only [if_neg hle]
            rw [insertIdx_partitionPoint,
              ← smallest_snoc_of_lt hdistinct hfull hlast (not_le.mp hle)]
            exact ih (seen ++ [id]) hnodup hnext

/-- **The scan is exact.** -/
theorem closest_eq (cr : Crypto) {count : Nat} (hcount : 1 ≤ count) {table : RoutingTable Addr}
    (hnodup : table.ids.Nodup) (key : Bytes) :
    table.closest cr count key = some (smallest (distance (cr.blake3 key)) count table.ids) := by
  have hfirst : sortByKey (distance (cr.blake3 key)) (table.ids.take count) =
      smallest (distance (cr.blake3 key)) count (table.ids.take count) := by
    refine (List.take_of_length_le ?_).symm
    rw [length_sortByKey, List.length_take]
    exact Nat.min_le_left _ _
  have hrest : table.ids.drop count = [] ∨ count ≤ (table.ids.take count).length := by
    rw [List.drop_eq_nil_iff, List.length_take]
    omega
  have hsplit := List.take_append_drop count table.ids
  have hscan := scan_eq hcount (cr.blake3 key) (table.ids.take count) (table.ids.drop count)
    (hsplit.symm ▸ hnodup) hrest
  rw [hsplit] at hscan
  rw [closest, hfirst]
  exact hscan

end RoutingTable

end OnionNetwork.Dht

/-! ## The operations of the routing table -/

namespace OnionNetwork.Dht

open Lib Codec

/-! ## Peers and addresses -/

/-- `libp2p::PeerId`: a multihash. -/
structure PeerId where
  code : Nat
  digest : Bytes
  deriving DecidableEq

/-- `hash_to_peer_id`: the hash itself, under the code of the identity. -/
def hashToPeerId (hash : Hash) : PeerId := ⟨0, hash.toBytes⟩

/-- `peer_id_to_hash`. -/
def peerIdToHash (peerId : PeerId) : Option Hash :=
  if peerId.digest.length = 32 then some (Hash.ofBytes peerId.digest) else none

/-- `PeerIdExt::to_hash`: the zero hash where the digest is no hash. -/
def PeerId.toHash (peerId : PeerId) : Hash := (peerIdToHash peerId).getD 0

@[simp] theorem toHash_hashToPeerId (hash : Hash) : (hashToPeerId hash).toHash = hash := by
  have hlength : hash.toBytes.length = 32 := hash.length_toBytes
  rw [PeerId.toHash, peerIdToHash, hashToPeerId, if_pos hlength, Hash.ofBytes_toBytes]
  rfl

/-- `multiaddr::Protocol`: the kinds that are used here, and any other one by its code and its
bytes. -/
inductive Protocol
  | ip4 (octets : Fixed UInt8 4)
  | ip6 (octets : Fixed UInt8 16)
  | tcp (port : BitVec 16)
  | other (code : Nat) (data : Bytes)
  deriving DecidableEq

/-- `Multiaddr`. -/
abbrev Multiaddr := List Protocol

/-- `chain_types::NodeAddress`: the octets, then the port in big-endian order. -/
inductive NodeAddress
  | ip4 (bytes : Fixed UInt8 6)
  | ip6 (bytes : Fixed UInt8 18)
  deriving DecidableEq

/-- `u16::from_be_bytes`. -/
def fromBeBytes (high low : UInt8) : BitVec 16 := high.toBitVec ++ low.toBitVec

/-- `From<NodeAddress> for SocketAddr`. -/
def NodeAddress.toSocketAddr : NodeAddress → SocketAddr
  | ip4 ⟨bytes, h⟩ =>
      have hip : (bytes.take 4).length = 4 := by rw [List.length_take, h]; rfl
      .new (.v4 ⟨bytes.take 4, hip⟩) (fromBeBytes (bytes.getD 4 0) (bytes.getD 5 0))
  | ip6 ⟨bytes, h⟩ =>
      have hip : (bytes.take 16).length = 16 := by rw [List.length_take, h]; rfl
      .new (.v6 ⟨bytes.take 16, hip⟩) (fromBeBytes (bytes.getD 16 0) (bytes.getD 17 0))

/-- `unpack_addr`. -/
def unpackAddr (addr : SocketAddr) : Multiaddr :=
  [match addr.ip with
    | .v4 ip => .ip4 ip
    | .v6 ip => .ip6 ip] ++ [.tcp addr.port]

/-! ## The table -/

namespace RoutingTable

variable {Addr : Type}

/-- `RoutingTable::default`. -/
def default : RoutingTable Addr := ⟨[]⟩

/-- `RoutingTable::bulk_insert`. `none` is the panic of the `assert!`. -/
def bulkInsert (table : RoutingTable Addr) (routes : List (Route Addr)) :
    Option (RoutingTable Addr) :=
  if table.routes = [] then some ⟨sortByKey Route.id (table.routes ++ routes)⟩ else none

/-- `RoutingTable::insert`. -/
def insert (table : RoutingTable Addr) (route : Route Addr) : RoutingTable Addr :=
  match binarySearchByKey Route.id route.id table.routes with
  | .ok index => ⟨table.routes.set index route⟩
  | .error index => ⟨table.routes.insertIdx index route⟩

/-- `RoutingTable::remove`. -/
def remove (table : RoutingTable Addr) (id : Hash) : Option (Route Addr) × RoutingTable Addr :=
  match binarySearchByKey Route.id id table.routes with
  | .ok index => (table.routes[index]?, ⟨table.routes.eraseIdx index⟩)
  | .error _ => (none, table)

/-- `RoutingTable::get`. -/
def get (table : RoutingTable Addr) (id : PeerId) : Option Addr :=
  match binarySearchByKey Route.id id.toHash table.routes with
  | .ok index => (table.routes[index]?).map Route.addr
  | .error _ => none

/-- The routes are strictly sorted by their ids. -/
def Sorted (table : RoutingTable Addr) : Prop := Increasing Route.id table.routes

/-- A route as an entry of a map. -/
def entry (route : Route Addr) : Hash × Addr := (route.id, route.addr)

/-- The map that a sorted table stands for. -/
def contents (table : RoutingTable Addr) (h : table.Sorted) : SortedMap Hash Addr :=
  ⟨table.routes.map entry, List.pairwise_map.mpr h⟩

variable {table : RoutingTable Addr}

/-! ### Around a key -/

section Around

variable {id : Hash} {front back : List (Route Addr)}

theorem entries_smaller (h : Around Route.id id front back) :
    ∀ e ∈ front.map entry, e.1 < id := by
  intro e he
  obtain ⟨r, hr, rfl⟩ := List.mem_map.mp he
  exact h.smaller r hr

theorem entries_larger (h : Around Route.id id front back) :
    ∀ e ∈ back.map entry, id < e.1 := by
  intro e he
  obtain ⟨r, hr, rfl⟩ := List.mem_map.mp he
  exact h.larger r hr

/-- Nothing is erased on either side of the key. -/
theorem filter_around (h : Around Route.id id front back) :
    (front.map entry).filter (fun e => decide (e.1 ≠ id)) ++
        (back.map entry).filter (fun e => decide (e.1 ≠ id)) =
      front.map entry ++ back.map entry := by
  have hfront : (front.map entry).filter (fun e => decide (e.1 ≠ id)) = front.map entry :=
    List.filter_eq_self.mpr fun e he => decide_eq_true (entries_smaller h e he).ne
  have hback : (back.map entry).filter (fun e => decide (e.1 ≠ id)) = back.map entry :=
    List.filter_eq_self.mpr fun e he => decide_eq_true (entries_larger h e he).ne'
  rw [hfront, hback]

theorem increasing_around {x : Route Addr} (hx : x.id = id)
    (haround : Around Route.id id front back) (hinc : Increasing Route.id (front ++ back)) :
    Increasing Route.id (front ++ x :: back) := by
  obtain ⟨hfront, hback, hcross⟩ := List.pairwise_append.mp hinc
  refine List.pairwise_append.mpr ⟨hfront, List.pairwise_cons.mpr ⟨?_, hback⟩, ?_⟩
  · exact fun r hr => hx ▸ haround.larger r hr
  · intro a ha b hb
    rcases List.mem_cons.mp hb with rfl | hb
    · exact hx ▸ haround.smaller a ha
    · exact hcross a ha b hb

end Around

/-! ### The operations are those of the map -/

/-- `bulk_insert` of routes with distinct ids. -/
theorem bulkInsert_spec {routes : List (Route Addr)} (hdistinct : KeysDistinct Route.id routes) :
    ∃ table, default.bulkInsert routes = some table ∧ table.Sorted ∧
      ∀ r, r ∈ table.routes ↔ r ∈ routes :=
  ⟨⟨sortByKey Route.id routes⟩, rfl, increasing_sortByKey hdistinct, fun _ => mem_sortByKey⟩

/-- What `insert` leaves, whether or not the id was there. -/
theorem insert_routes (h : table.Sorted) (route : Route Addr) :
    ∃ front back, Around Route.id route.id front back ∧ Increasing Route.id (front ++ back) ∧
      (table.insert route).routes = front ++ route :: back ∧
      SortedMap.insertEntry route.id route.addr (table.routes.map entry) =
        front.map entry ++ entry route :: back.map entry := by
  rcases binarySearch_cases h route.id with
    ⟨front, x, back, hroutes, hx, haround, hsearch⟩ | ⟨front, back, hroutes, haround, hsearch⟩
  · have hinc : Increasing Route.id (front ++ x :: back) := hroutes ▸ h
    refine ⟨front, back, haround, ?_, ?_, ?_⟩
    · exact hinc.sublist ((List.sublist_cons_self x back).append_left front)
    · rw [insert, hsearch, hroutes]
      simp
    · have hkey : (entry x).1 = route.id := hx
      rw [hroutes, List.map_append, SortedMap.insertEntry_append_of_lt (entries_smaller haround),
        List.map_cons, SortedMap.insertEntry, hkey, if_neg (lt_irrefl _), if_pos rfl]
      rfl
  · refine ⟨front, back, haround, hroutes ▸ h, ?_, ?_⟩
    · rw [insert, hsearch, hroutes]
      exact insertIdx_length route front back
    · rw [hroutes, List.map_append, SortedMap.insertEntry_append_of_lt (entries_smaller haround),
        SortedMap.insertEntry_of_gt (entries_larger haround)]
      rfl

theorem insert_spec (h : table.Sorted) (route : Route Addr) :
    ∃ h' : (table.insert route).Sorted,
      (table.insert route).contents h' = (table.contents h).put route.id route.addr := by
  obtain ⟨front, back, haround, hinc, hroutes, hmap⟩ := insert_routes h route
  have hsorted : (table.insert route).Sorted := by
    rw [Sorted, hroutes]
    exact increasing_around rfl haround hinc
  refine ⟨hsorted, ?_⟩
  unfold contents SortedMap.put
  simp only [hroutes, hmap, List.map_append, List.map_cons]

theorem get_spec (h : table.Sorted) (peer : PeerId) :
    table.get peer = (table.contents h).get peer.toHash := by
  show _ = SortedMap.lookup peer.toHash (table.routes.map entry)
  rcases binarySearch_cases h peer.toHash with
    ⟨front, x, back, hroutes, hx, haround, hsearch⟩ | ⟨front, back, hroutes, haround, hsearch⟩
  · have hkey : (entry x).1 = peer.toHash := hx
    rw [get, hsearch, hroutes, List.map_append,
      SortedMap.lookup_append_of_lt (entries_smaller haround), List.map_cons, SortedMap.lookup,
      if_pos hkey]
    simp [entry]
  · rw [get, hsearch, hroutes, List.map_append,
      SortedMap.lookup_append_of_lt (entries_smaller haround),
      SortedMap.lookup_eq_none_of_gt (entries_larger haround)]

theorem remove_spec (h : table.Sorted) (id : Hash) :
    (table.remove id).1 = ((table.contents h).get id).map (Route.mk id) ∧
    ∃ h' : (table.remove id).2.Sorted,
      (table.remove id).2.contents h' = (table.contents h).erase id := by
  have hget : (table.contents h).get id = SortedMap.lookup id (table.routes.map entry) := rfl
  rcases binarySearch_cases h id with
    ⟨front, x, back, hroutes, hx, haround, hsearch⟩ | ⟨front, back, hroutes, haround, hsearch⟩
  · have hremoved : table.remove id = (some x, ⟨front ++ back⟩) := by
      rw [remove, hsearch, hroutes]
      simp [List.eraseIdx_append_of_length_le]
    have hinc : Increasing Route.id (front ++ x :: back) := hroutes ▸ h
    have hsorted : (table.remove id).2.Sorted := by
      rw [hremoved]
      exact hinc.sublist ((List.sublist_cons_self x back).append_left front)
    refine ⟨?_, hsorted, ?_⟩
    · have hkey : (entry x).1 = id := hx
      rw [hget, hremoved, hroutes, List.map_append,
        SortedMap.lookup_append_of_lt (entries_smaller haround), List.map_cons, SortedMap.lookup,
        if_pos hkey, ← hx]
      rfl
    · have hdrop : decide ((entry x).1 ≠ id) = false := decide_eq_false (not_not.mpr hx)
      unfold contents SortedMap.erase
      simp only [hremoved, hroutes, List.map_append, List.map_cons, List.filter_append,
        List.filter_cons, hdrop, filter_around haround, if_neg Bool.false_ne_true]
  · have hremoved : table.remove id = (none, table) := by
      rw [remove, hsearch]
    refine ⟨?_, hremoved ▸ h, ?_⟩
    · rw [hget, hremoved, hroutes, List.map_append,
        SortedMap.lookup_append_of_lt (entries_smaller haround),
        SortedMap.lookup_eq_none_of_gt (entries_larger haround)]
      rfl
    · unfold contents SortedMap.erase
      simp only [hremoved, hroutes, List.map_append, List.filter_append, filter_around haround]

end RoutingTable

/-! ## Stake events -/

/-- `pallet_node_staker::Event`, the chat nodes'. -/
inductive ChatStakeEvent
  | joined (identity : Hash) (addr : NodeAddress)
  | addrChanged (identity : Hash) (addr : NodeAddress)
  | reclaimed (identity : Hash)
  | voted (source target : Hash)

/-- `pallet_node_staker::Event2`, the satellites'. -/
inductive SateliteStakeEvent
  | joined (identity : Hash) (addr : NodeAddress)
  | addrChanged (identity : Hash) (addr : NodeAddress)
  | reclaimed (identity : Hash)
  | voted (source target : Hash)

/-- `From<PNSE2> for PNSE`. -/
def SateliteStakeEvent.toChat : SateliteStakeEvent → ChatStakeEvent
  | joined identity addr => .joined identity addr
  | addrChanged identity addr => .addrChanged identity addr
  | reclaimed identity => .reclaimed identity
  | voted source target => .voted source target

/-- `stake_event`. -/
def stakeEvent (table : RoutingTable Multiaddr) : ChatStakeEvent → RoutingTable Multiaddr
  | .joined identity addr | .addrChanged identity addr =>
      table.insert ⟨identity, unpackAddr addr.toSocketAddr⟩
  | .reclaimed identity => (table.remove identity).2
  | .voted _ _ => table

end OnionNetwork.Dht
