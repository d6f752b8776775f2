import OnionNetwork.Dht.RoutingTable
import OnionNetwork.Crypto.Proof

/-!
# The routing table

`closest_exact`: `RoutingTable::closest` returns the closest ids, in order of
their distance, whatever the order of the routes; nodes that know the same ids
agree on the group of every topic.

`routes_are_map`: a table that `bulk_insert` filled with routes of distinct ids, and that calls
and stake events changed from then on, is the map that these writes leave, in the order of the
ids. Every read of it is the last write of the id.
-/

namespace OnionNetwork.Dht

open Lib

/-! ## Replication groups -/

section Groups

open RoutingTable

variable {Addr : Type}

/-- Tables with the same ids find the same ids. -/
theorem closest_congr (cr : Crypto) {count : Nat} (hcount : 1 ≤ count)
    {table other : RoutingTable Addr} (hnodup : table.ids.Nodup) (hnodup' : other.ids.Nodup)
    (hids : ∀ id, id ∈ other.ids ↔ id ∈ table.ids) (key : Bytes) :
    other.closest cr count key = table.closest cr count key := by
  rw [closest_eq cr hcount hnodup, closest_eq cr hcount hnodup']
  exact congrArg some (smallest_congr (keysDistinct_of_nodup _ hnodup')
    (keysDistinct_of_nodup _ hnodup) hids count)

/-- **The closest ids.** For a table of distinct ids the scan returns `count` of
them, or all if there are fewer, in strictly increasing distance to the hash of
the key, and every other id is farther away than each of them. The result and the
replication group of every topic depend only on which ids there are. -/
theorem closest_exact (cr : Crypto) {table : RoutingTable Addr} (hnodup : table.ids.Nodup)
    {count : Nat} (hcount : 1 ≤ count) (key : Bytes) :
    ∃ group, table.closest cr count key = some group ∧
      group.length = min count table.ids.length ∧
      (group.Pairwise fun a b => distance (cr.blake3 key) a < distance (cr.blake3 key) b) ∧
      (∀ id ∈ group, id ∈ table.ids) ∧
      (∀ id ∈ table.ids, id ∉ group → ∀ near ∈ group,
        distance (cr.blake3 key) near < distance (cr.blake3 key) id) ∧
      ∀ other : RoutingTable Addr, other.ids.Nodup → (∀ id, id ∈ other.ids ↔ id ∈ table.ids) →
        other.closest cr count key = some group ∧
          ∀ topic, other.fullReplGroup cr topic = table.fullReplGroup cr topic := by
  have hdistinct := keysDistinct_of_nodup (cr.blake3 key) hnodup
  refine ⟨_, closest_eq cr hcount hnodup key, length_smallest, increasing_smallest hdistinct,
    fun id hid => mem_of_mem_smallest hid, ?_, ?_⟩
  · intro id hid hnot near hnear
    exact lt_of_not_mem_smallest hdistinct hnear hid hnot
  · intro other hnodup' hids
    refine ⟨?_, ?_⟩
    · rw [closest_congr cr hcount hnodup hnodup' hids, closest_eq cr hcount hnodup]
    · intro topic
      exact closest_congr cr (by decide) hnodup hnodup' hids topic

/-- Six nodes. -/
def sixNodes : RoutingTable Unit := ⟨[⟨5, ()⟩, ⟨9, ()⟩, ⟨12, ()⟩, ⟨300, ()⟩, ⟨301, ()⟩, ⟨999, ()⟩]⟩

/-- The closest two of six nodes. -/
theorem closest_exact_six :
    ∃ group, sixNodes.closest Crypto.transparent 2 [9] = some group ∧ group.length = 2 := by
  obtain ⟨group, hgroup, hlength, -⟩ := closest_exact Crypto.transparent
    (show sixNodes.ids.Nodup by decide) (show 1 ≤ 2 by decide) [9]
  exact ⟨group, hgroup, hlength⟩

end Groups

/-! ## Writes and their replay -/

/-- A write of an id: its new address, or that it goes. -/
abbrev Write := Hash × Option Multiaddr

/-- One write of a map. -/
def Write.apply (m : SortedMap Hash Multiaddr) : Write → SortedMap Hash Multiaddr
  | (id, some addr) => m.put id addr
  | (id, none) => m.erase id

/-- The map that a history of writes leaves. -/
def replay (history : List Write) : SortedMap Hash Multiaddr :=
  history.foldl Write.apply SortedMap.empty

/-- The address of the last insert of the id, unless a remove follows it. -/
def lastWrite (history : List Write) (id : Hash) : Option Multiaddr :=
  ((history.filter fun w => w.1 = id).getLast?).bind Prod.snd

theorem lastWrite_snoc (history : List Write) (w : Write) (id : Hash) :
    lastWrite (history ++ [w]) id = if w.1 = id then w.2 else lastWrite history id := by
  by_cases h : w.1 = id
  · simp [lastWrite, h]
  · simp [lastWrite, h]

theorem get_apply (m : SortedMap Hash Multiaddr) (w : Write) (id : Hash) :
    (Write.apply m w).get id = if w.1 = id then w.2 else m.get id := by
  obtain ⟨k, addr | _⟩ := w
  · exact SortedMap.get_erase m k id
  · exact SortedMap.get_put m k id _

/-- **Replay is the last write.** -/
theorem get_replay (history : List Write) (id : Hash) :
    (replay history).get id = lastWrite history id := by
  induction history using List.reverseRecOn with
  | nil => rfl
  | append_singleton history w ih =>
      have hstep : replay (history ++ [w]) = Write.apply (replay history) w := by
        rw [replay, List.foldl_append]
        rfl
      rw [hstep, get_apply, lastWrite_snoc, ih]

/-! ## The calls -/

/-- What changes a table: calls of its operations, and the stake events of both pallets. -/
inductive Change
  | insert (route : Route Multiaddr)
  | remove (id : Hash)
  | chatEvent (event : ChatStakeEvent)
  | sateliteEvent (event : SateliteStakeEvent)

/-- The writes of a stake event. -/
def ChatStakeEvent.writes : ChatStakeEvent → List Write
  | joined identity addr | addrChanged identity addr =>
      [(identity, some (unpackAddr addr.toSocketAddr))]
  | reclaimed identity => [(identity, none)]
  | voted _ _ => []

/-- The writes of a change. -/
def Change.writes : Change → List Write
  | insert route => [(route.id, some route.addr)]
  | remove id => [(id, none)]
  | chatEvent event => event.writes
  | sateliteEvent event => event.toChat.writes

/-- The table as a machine over the changes, which answers a `remove`. -/
def changes : Machine (RoutingTable Multiaddr) Change (Option (Route Multiaddr)) where
  step table
    | .insert route => (table.insert route, none)
    | .remove id => ((table.remove id).2, (table.remove id).1)
    | .chatEvent event => (stakeEvent table event, none)
    | .sateliteEvent event => (stakeEvent table event.toChat, none)

/-- The writes of the routes of `bulk_insert` and of the changes after it. -/
def history (routes : List (Route Multiaddr)) (inputs : List Change) : List Write :=
  routes.map (fun r => (r.id, some r.addr)) ++ inputs.flatMap Change.writes

/-- The table is the map of a history. -/
structure IsMap (table : RoutingTable Multiaddr) (history : List Write) : Prop where
  sorted : table.routes.Pairwise fun a b => a.id < b.id
  replayed : table.routes.map RoutingTable.entry = (replay history).entries
  reads : ∀ peer, table.get peer = lastWrite history peer.toHash
  removes : ∀ peer, (table.remove peer.toHash).1 = (table.get peer).map (Route.mk peer.toHash)

variable {table : RoutingTable Multiaddr}

/-! ## One change -/

/-- The map of a sorted table after a change. -/
def Follows (table table' : RoutingTable Multiaddr) (h : table.Sorted) (writes : List Write) :
    Prop :=
  ∃ h' : table'.Sorted, table'.contents h' = writes.foldl Write.apply (table.contents h)

theorem insert_follows (h : table.Sorted) (route : Route Multiaddr) :
    Follows table (table.insert route) h [(route.id, some route.addr)] :=
  RoutingTable.insert_spec h route

theorem remove_follows (h : table.Sorted) (id : Hash) :
    Follows table (table.remove id).2 h [(id, none)] :=
  (RoutingTable.remove_spec h id).2

theorem stakeEvent_follows (h : table.Sorted) (event : ChatStakeEvent) :
    Follows table (stakeEvent table event) h event.writes := by
  cases event with
  | joined identity addr => exact insert_follows h ⟨identity, _⟩
  | addrChanged identity addr => exact insert_follows h ⟨identity, _⟩
  | reclaimed identity => exact remove_follows h identity
  | voted source target => exact ⟨h, rfl⟩

theorem step_follows (h : table.Sorted) (c : Change) :
    Follows table (changes.step table c).1 h c.writes := by
  cases c with
  | insert route => exact insert_follows h route
  | remove id => exact remove_follows h id
  | chatEvent event => exact stakeEvent_follows h event
  | sateliteEvent event => exact stakeEvent_follows h event.toChat

/-! ## Runs -/

theorem run_follows (h : table.Sorted) (inputs : List Change) :
    Follows table (changes.run table inputs) h (inputs.flatMap Change.writes) := by
  induction inputs generalizing table with
  | nil => exact ⟨h, rfl⟩
  | cons c inputs ih =>
      obtain ⟨hnext, hcontents⟩ := step_follows h c
      obtain ⟨hlast, hrest⟩ := ih hnext
      refine ⟨hlast, ?_⟩
      rw [List.flatMap_cons, List.foldl_append, ← hcontents]
      exact hrest

/-- The map of what `bulk_insert` was given. -/
theorem bulkInsert_replay {routes : List (Route Multiaddr)}
    (hmem : ∀ r, r ∈ table.routes ↔ r ∈ routes) (h : table.Sorted) :
    table.contents h = replay (routes.map fun r => (r.id, some r.addr)) := by
  have hreplay : replay (routes.map fun r => (r.id, some r.addr)) =
      (routes.map RoutingTable.entry).foldl (fun m change => m.put change.1 change.2)
        SortedMap.empty := by
    rw [replay, List.foldl_map, List.foldl_map]
    rfl
  have hentry : ∀ change ∈ routes.map RoutingTable.entry,
      (table.contents h).get change.1 = some change.2 := by
    intro change hchange
    obtain ⟨r, hr, rfl⟩ := List.mem_map.mp hchange
    exact (SortedMap.mem_entries_iff _).mp (List.mem_map_of_mem ((hmem r).mpr hr))
  refine SortedMap.eq_of_get fun id => ?_
  rw [hreplay, SortedMap.get_foldl_put hentry]
  split
  · rfl
  · next hnot =>
      cases hget : (table.contents h).get id with
      | none => rfl
      | some addr =>
          obtain ⟨r, hr, heq⟩ := List.mem_map.mp ((SortedMap.mem_entries_iff _).mpr hget)
          have hin : (RoutingTable.entry r).1 ∈ (routes.map RoutingTable.entry).map Prod.fst :=
            List.mem_map_of_mem (List.mem_map_of_mem ((hmem r).mp hr))
          rw [heq] at hin
          exact absurd hin hnot

theorem isMap_of_contents {writes : List Write} (h : table.Sorted)
    (hcontents : table.contents h = replay writes) : IsMap table writes where
  sorted := h
  replayed := congrArg SortedMap.entries hcontents
  reads peer := by rw [RoutingTable.get_spec h, hcontents, get_replay]
  removes peer := by rw [RoutingTable.get_spec h, (RoutingTable.remove_spec h _).1]

/-- **The routing table is a map**: whatever `bulk_insert` was given and whatever changed the
table since, it is sorted, it is the replay of the writes, `get` finds the last one, and
`remove` returns what `get` would have. -/
theorem routes_are_map {routes : List (Route Multiaddr)} (inputs : List Change)
    (hdistinct : KeysDistinct Route.id routes) :
    ∃ table, RoutingTable.default.bulkInsert routes = some table ∧
      IsMap (changes.run table inputs) (history routes inputs) := by
  obtain ⟨table, hbulk, hsorted, hmem⟩ := RoutingTable.bulkInsert_spec hdistinct
  obtain ⟨hrun, hcontents⟩ := run_follows hsorted inputs
  refine ⟨table, hbulk, isMap_of_contents hrun ?_⟩
  rw [hcontents, bulkInsert_replay hmem hsorted, history, replay, replay, List.foldl_append]

/-- Two nodes, one of which moves and the other leaves. -/
theorem routes_are_map_two :
    ∃ table, RoutingTable.default.bulkInsert [⟨7, []⟩, ⟨3, [.tcp 80]⟩] = some table ∧
      IsMap (changes.run table [.chatEvent (.reclaimed 3), .insert ⟨7, [.tcp 81]⟩])
        (history [⟨7, []⟩, ⟨3, [.tcp 80]⟩]
          [.chatEvent (.reclaimed 3), .insert ⟨7, [.tcp 81]⟩]) :=
  routes_are_map _ (List.nodup_iff_pairwise_ne.mpr (by decide))

end OnionNetwork.Dht
