import OnionNetwork.Storage.Bandwidths
import OnionNetwork.Storage.NodeProfiles

/-!
# What nodes tell the satellite

The receipt that reaches the amount of an allocation leaves the entry as it was, so it can be shown
again and again (`receipt_replayed`), and no allocation is ever exhausted. Below the amount every
receipt is counted once.

`update_addr` gives up where `advance_to` has moved the nonce, and goes on where it has not: it
refuses a greater nonce, which is stored all the same, and accepts any other one. `request_gc`
takes the next nonce only, and does so once (`Remembered.step`).
-/

/-! ## Bandwidth is granted once -/

namespace OnionNetwork.Storage

open Lib Bandwidths

variable {cr : Crypto} [Encode cr.Signature]

/-- **Bandwidth is granted at most once** in every state of a run, exactly if no signed receipt
reaches the amount of its allocation. -/
theorem granted_once_iff (calls : List (BandwidthCall cr)) :
    (∀ before after, calls = before ++ after →
      Fair ((grantingMachine cr).run (new, fun _ => 0) before)) ↔
      (grantingMachine cr).EachStep Careful (new, fun _ => 0) calls := by
  refine Machine.careful_reached_iff (Q := Behind) ?_ ?_ ?_ behind_new
  · exact fun s h => fair_of_behind h
  · exact fun s call h hcareful => h.step hcareful
  · exact fun s call h hnot => not_fair_step h hnot

/-- A signature of the instance, as bytes. -/
instance : Encode Crypto.transparent.Signature := ⟨fun s => s.1.toBytes ++ s.2⟩

/-- A satellite (1) lets a user (2) have ten bytes. -/
def tenBytes : Proof Crypto.transparent BandwidthContext := Proof.transparent 1 0 ⟨2, 2, 10⟩

/-- The user has got them. -/
def allOfThem : CompactBandwidthUse Crypto.transparent :=
  ⟨(Proof.transparent 2 0 (⟨tenBytes, 10⟩ : BandwidthUse Crypto.transparent)).signature, 10⟩

/-- The satellite's key says so, and the node knows the user by theirs. -/
def withAllocation : Bandwidths Crypto.transparent :=
  { bandwidths := (⟨[], List.nodup_nil⟩ : HashMap Hash _).insert 2 (fresh (2 : Hash) tenBytes)
    finishedBandwidths := [] }

theorem register_tenBytes :
    (new : Bandwidths Crypto.transparent).register (2 : Hash) tenBytes =
      (withAllocation, .ok ()) := by
  have hverify : tenBytes.verify = true := Proof.verify_transparent 1 0 _
  simp only [register, hverify]
  rfl

/-- Whatever was put aside, the receipt is worth all of the bytes. -/
theorem update_allOfThem
    (finished : List (Proof Crypto.transparent (BandwidthUse Crypto.transparent))) :
    ({ withAllocation with finishedBandwidths := finished } : Bandwidths _).updateAllocation 2
        allOfThem =
      ({ withAllocation with finishedBandwidths :=
          finished ++ [newBandwidth (fresh (2 : Hash) tenBytes) allOfThem] }, some 10) := by
  have hsigned : Signed { withAllocation with finishedBandwidths := finished } 2 allOfThem
      (fresh (2 : Hash) tenBytes) :=
    ⟨rfl, by decide,
      Proof.verify_transparent 2 0 (⟨tenBytes, 10⟩ : BandwidthUse Crypto.transparent)⟩
  exact hsigned.update

/-- The receipt for all of the bytes yields them a second time. -/
theorem receipt_replayed :
    ((grantingMachine Crypto.transparent).run (new, fun _ => 0)
      [.register (2 : Hash) tenBytes, .updateAllocation 2 allOfThem,
        .updateAllocation 2 allOfThem]).2 2 = 20 ∧
    ¬ Fair ((grantingMachine Crypto.transparent).run (new, fun _ => 0)
      [.register (2 : Hash) tenBytes, .updateAllocation 2 allOfThem,
        .updateAllocation 2 allOfThem]) := by
  have hrun : (grantingMachine Crypto.transparent).run (new, fun _ => 0)
      [.register (2 : Hash) tenBytes, .updateAllocation 2 allOfThem,
        .updateAllocation 2 allOfThem] =
      ({ withAllocation with finishedBandwidths :=
          [newBandwidth (fresh (2 : Hash) tenBytes) allOfThem,
            newBandwidth (fresh (2 : Hash) tenBytes) allOfThem] },
        Function.update (Function.update (Function.update (fun _ => 0) 2 0) 2 10) 2 20) := by
    have hfirst : withAllocation.updateAllocation 2 allOfThem = _ := update_allOfThem []
    simp only [Machine.run, grantingMachine, Machine.withGhost, bandwidthMachine, Granted.add,
      register_tenBytes, hfirst, update_allOfThem]
    simp [tenBytes, Proof.transparent, Proof.new]
  rw [hrun]
  refine ⟨rfl, fun hfair => ?_⟩
  have hentry : withAllocation.bandwidths.get 2 = some (fresh (2 : Hash) tenBytes) := rfl
  have hwithin : 20 ≤ 10 := hfair.within hentry
  exact absurd hwithin (by decide)

end OnionNetwork.Storage

/-! ## Heartbeats -/

namespace OnionNetwork.Storage

open Lib Codec

namespace NodeProfiles

variable {debugAssertions : Bool} {s : NodeProfiles} {identity : Hash} {nonce : Nonce}

/-! ## Nonces -/

/-- The nonces that were accepted of each node so far. -/
abbrev Accepted := Hash → List Nonce

/-- A call is recorded. -/
def Accepted.add (debugAssertions : Bool) (accepted : Accepted) (s : NodeProfiles) :
    NodeCall → Accepted
  | .updateAddr identity nonce addr =>
      match (s.serve debugAssertions (.updateAddr identity nonce addr)).2 with
      | .updated true => Function.update accepted identity (nonce :: accepted identity)
      | _ => accepted
  | .requestGc currentTime identity nonce =>
      match (s.serve debugAssertions (.requestGc currentTime identity nonce)).2 with
      | .gc (some _) => Function.update accepted identity (nonce :: accepted identity)
      | _ => accepted
  | .registerNode .. | .allocateFile .. => accepted

/-- What a node relies on: `update_addr` accepts a nonce exactly if it is greater than the stored
one, and then stores it with the address; what is refused changes nothing; and nothing is accepted
twice. -/
structure Unreplayed (debugAssertions : Bool) (s : NodeProfiles × Accepted) (call : NodeCall) :
    Prop where
  updates : ∀ {identity nonce addr id profile}, call = .updateAddr identity nonce addr →
    s.1.Registered identity id profile →
      s.1.serve debugAssertions call =
        if profile.nonce < nonce then
          (s.1.setRecord id { profile with nonce := nonce, addr := addr }, .updated true)
        else (s.1, .updated false)
  refused : ((s.1.serve debugAssertions call).2 = .updated false ∨
      (s.1.serve debugAssertions call).2 = .gc none ∨
        (s.1.serve debugAssertions call).2 = .registered false) →
    (s.1.serve debugAssertions call).1 = s.1
  once : ∀ {identity nonce}, (∃ addr, call = .updateAddr identity nonce addr ∧
      (s.1.serve debugAssertions call).2 = .updated true) ∨
      (∃ currentTime node, call = .requestGc currentTime identity nonce ∧
        (s.1.serve debugAssertions call).2 = .gc (some node)) →
    nonce ∉ s.2 identity

/-- Not an update of a registered node, and not a request for the nonce 0 of a node at the last
nonce that the cooldown lets through. -/
def Steady (s : NodeProfiles × Accepted) : NodeCall → Prop
  | .updateAddr identity _ _ => ∀ id profile, ¬ s.1.Registered identity id profile
  | .requestGc currentTime identity nonce => ∀ id profile, s.1.Registered identity id profile →
      nonce = 0 → profile.nonce + 1 < 2 ^ 64 ∨ profile.Cools currentTime
  | .registerNode .. | .allocateFile .. => True

/-- What was accepted of a node is not above its stored nonce. -/
def Remembered (s : NodeProfiles × Accepted) : Prop :=
  ∀ identity, ∀ nonce ∈ s.2 identity, ∃ id profile, s.1.Registered identity id profile ∧
    nonce ≤ profile.nonce

theorem succU64_eq_some {n next : Nonce} (h : succU64 debugAssertions n = some next) :
    next = n + 1 ∨ ¬ n + 1 < 2 ^ 64 ∧ next = 0 := by
  unfold succU64 at h
  split at h
  · exact .inl (Option.some.inj h).symm
  · rename_i hmax
    split at h
    · cases h
    · exact .inr ⟨hmax, (Option.some.inj h).symm⟩

theorem takeSpace_nonces {allocSize : Nat} {mostFree taken : List (Nat × Nat)}
    {records records' : List NodeProfile}
    (h : takeSpace debugAssertions allocSize mostFree records = some (taken, records')) :
    records'.map (·.nonce) = records.map (·.nonce) := by
  induction mostFree generalizing records taken with
  | nil =>
      cases h
      rfl
  | cons e mostFree ih =>
      simp only [takeSpace, Option.bind_eq_bind, Option.bind_eq_some_iff] at h
      obtain ⟨free, -, profile, hrecord, freeBlocks, -, ⟨rest, last⟩, hrest, heq⟩ := h
      cases heq
      exact (ih hrest).trans (map_set_of_eq hrecord rfl)

theorem nextNonces_nonces {holders : List Nat} {nonces : List Nonce}
    {records records' : List NodeProfile}
    (h : nextNonces debugAssertions holders records = some (nonces, records')) :
    records'.map (·.nonce) = records.map (·.nonce) := by
  induction holders generalizing records nonces with
  | nil =>
      cases h
      rfl
  | cons id holders ih =>
      simp only [nextNonces, Option.bind_eq_bind, Option.bind_eq_some_iff] at h
      obtain ⟨profile, hrecord, ourNonce, -, ⟨rest, last⟩, hrest, heq⟩ := h
      cases heq
      exact (ih hrest).trans (map_set_of_eq hrecord rfl)

/-- An allocation has nothing to do with the nonces of `update_addr` and `request_gc`. -/
theorem allocateFile_nonces {size : Nat} {secret : Hash} {s' : NodeProfiles}
    {file : Option (Address × List Nat × List Nonce)}
    (h : s.allocateFile debugAssertions size secret = some (s', file)) :
    s'.identityToId = s.identityToId ∧ s'.records.map (·.nonce) = s.records.map (·.nonce) := by
  unfold allocateFile at h
  dsimp only at h
  split at h
  · cases h
    exact ⟨rfl, rfl⟩
  · split at h
    · cases h
      exact ⟨rfl, rfl⟩
    · simp only [Option.bind_eq_bind, Option.bind_eq_some_iff] at h
      obtain ⟨⟨taken, records⟩, htake, ⟨nonces, records'⟩, hnext, heq⟩ := h
      cases heq
      exact ⟨rfl, (nextNonces_nonces hnext).trans (takeSpace_nonces htake)⟩

/-- Where identities and nonces are the same, nothing is forgotten. -/
theorem Remembered.same {accepted : Accepted} (h : Remembered (s, accepted)) {s' : NodeProfiles}
    (hids : s'.identityToId = s.identityToId)
    (hnonces : s'.records.map (·.nonce) = s.records.map (·.nonce)) : Remembered (s', accepted) := by
  intro identity nonce hmem
  obtain ⟨id, profile, ⟨hid, hrecord⟩, hle⟩ := h identity nonce hmem
  have hsame := congrArg (·[id]?) hnonces
  simp only [List.getElem?_map] at hsame
  rw [show s.records[id]? = some profile from hrecord, Option.map_some,
    Option.map_eq_some_iff] at hsame
  obtain ⟨profile', hrecord', heq⟩ := hsame
  exact ⟨id, profile', ⟨by rw [hids]; exact hid, hrecord'⟩, heq ▸ hle⟩

theorem Remembered.registerNode {accepted : Accepted} (h : Remembered (s, accepted))
    (identity preIdentity : Hash) (addr : SocketAddr) (freeBlocks : Nat) :
    Remembered ((s.registerNode identity preIdentity addr freeBlocks).1, accepted) := by
  unfold NodeProfiles.registerNode
  cases hget : s.identityToId.get identity with
  | some id => exact h
  | none =>
      intro other nonce hmem
      obtain ⟨id, profile, ⟨hid, hrecord⟩, hle⟩ := h other nonce hmem
      have hne : other ≠ identity := by
        rintro rfl
        rw [hget] at hid
        cases hid
      have hlt := (List.getElem?_eq_some_iff.mp hrecord).1
      refine ⟨id, profile, ⟨?_, ?_⟩, hle⟩
      · rw [HashMap.get_insert, if_neg hne]
        exact hid
      · rw [List.getElem?_append_left hlt]
        exact hrecord

/-- The next nonce of a node is accepted. -/
theorem Remembered.advance {accepted : Accepted} (h : Remembered (s, accepted)) {id : Nat}
    {profile profile' : NodeProfile} (hregistered : s.Registered identity id profile)
    (hnonce : profile'.nonce = profile.nonce + 1) :
    Remembered (s.setRecord id profile',
      Function.update accepted identity ((profile.nonce + 1) :: accepted identity)) := by
  have hlt := (List.getElem?_eq_some_iff.mp hregistered.2).1
  have hnew : (s.setRecord id profile').Registered identity id profile' :=
    ⟨hregistered.1, List.getElem?_set_self hlt⟩
  -- the nonce of the record went up, and the other records are what they were
  have hkept : ∀ other id' record, s.Registered other id' record →
      ∃ record', (s.setRecord id profile').Registered other id' record' ∧
        record.nonce ≤ record'.nonce := by
    rintro other id' record ⟨hid', hrecord⟩
    by_cases hsame : id = id'
    · subst hsame
      obtain rfl := Option.some.inj (hregistered.2.symm.trans hrecord)
      exact ⟨profile', ⟨hid', List.getElem?_set_self hlt⟩, hnonce ▸ Nat.le_succ _⟩
    · refine ⟨record, ⟨hid', ?_⟩, Nat.le_refl _⟩
      rw [setRecord, List.getElem?_set_ne hsame]
      exact hrecord
  intro other nonce hmem
  have hold : nonce ∈ accepted other →
      ∃ id₁ profile₁, (s.setRecord id profile').Registered other id₁ profile₁ ∧
        nonce ≤ profile₁.nonce := by
    intro hin
    obtain ⟨id', record, hrecord, hle⟩ := h other nonce hin
    obtain ⟨record', hrecord', hle'⟩ := hkept other id' record hrecord
    exact ⟨id', record', hrecord', Nat.le_trans hle hle'⟩
  dsimp only at hmem
  by_cases hsame : other = identity
  · rw [hsame, Function.update_self] at hmem
    rcases List.mem_cons.mp hmem with rfl | hin
    · exact ⟨id, profile', hsame ▸ hnew, hnonce.ge⟩
    · exact hold (hsame ▸ hin)
  · rw [Function.update_of_ne hsame] at hmem
    exact hold hmem

/-- The nonce that a steady `request_gc` takes is the next one: it does not wrap around to 0. -/
theorem requestGc_next {currentTime id : Nat} {s' : NodeProfiles}
    (hsteady : ∀ id profile, s.Registered identity id profile → nonce = 0 →
      profile.nonce + 1 < 2 ^ 64 ∨ profile.Cools currentTime)
    (h : s.requestGc debugAssertions currentTime identity nonce = some (s', some id)) :
    ∃ profile, s.Registered identity id profile ∧ nonce = profile.nonce + 1 ∧
      s' = s.setRecord id { profile with lastRequestedGc := currentTime, nonce := nonce } := by
  rcases requestGc_cases debugAssertions s currentTime identity nonce with
    hnone | hsame | ⟨id', profile, hregistered, hcools, hnext, hset⟩
  · rw [hnone] at h
    cases h
  · rw [hsame] at h
    cases h
  · rw [hset] at h
    cases h
    refine ⟨profile, hregistered, ?_, rfl⟩
    rcases succU64_eq_some hnext with hsucc | ⟨hmax, hzero⟩
    · exact hsucc
    · -- the last nonce: only the nonce 0 is next, and a steady call for it has to wait
      rcases hsteady id profile hregistered hzero with hlt | hcool
      · exact absurd hlt hmax
      · exact absurd hcool hcools

/-- What is refused leaves everything as it is. -/
theorem requestGc_refused {currentTime : Nat} {s' : NodeProfiles}
    (h : s.requestGc debugAssertions currentTime identity nonce = some (s', none)) : s' = s := by
  rcases requestGc_cases debugAssertions s currentTime identity nonce with
    hnone | hsame | ⟨id', profile, -, -, -, hset⟩
  · rw [hnone] at h
    cases h
  · rw [hsame] at h
    cases h
    rfl
  · rw [hset] at h
    cases h

end NodeProfiles

/-- The nodes of a satellite, and the nonces that were accepted. -/
def recordingMachine (debugAssertions : Bool) :
    Machine (NodeProfiles × NodeProfiles.Accepted) NodeCall NodeAnswer :=
  (nodeMachine debugAssertions).withGhost (NodeProfiles.Accepted.add debugAssertions)

namespace NodeProfiles

variable {debugAssertions : Bool} {s : NodeProfiles} {identity : Hash} {nonce : Nonce}
  {accepted : Accepted}

/-- **A steady call** is not one that a node has to fear. -/
theorem unreplayed_of_steady (h : Remembered (s, accepted)) {call : NodeCall}
    (hsteady : Steady (s, accepted) call) : Unreplayed debugAssertions (s, accepted) call := by
  cases call with
  | registerNode identity preIdentity addr freeBlocks =>
      refine ⟨by rintro _ _ _ _ _ ⟨⟩, ?_, ?_⟩
      · simp only [serve, registerNode]
        cases s.identityToId.get identity with
        | some id => exact fun _ => rfl
        | none => rintro (h | h | h) <;> cases h
      · rintro identity nonce (⟨_, heq, -⟩ | ⟨_, _, heq, -⟩) <;> cases heq
  | allocateFile size secret =>
      refine ⟨by rintro _ _ _ _ _ ⟨⟩, ?_, ?_⟩
      · simp only [serve]
        cases s.allocateFile debugAssertions size secret with
        | none => exact fun _ => rfl
        | some r => rintro (h | h | h) <;> cases h
      · rintro identity nonce (⟨_, heq, -⟩ | ⟨_, _, heq, -⟩) <;> cases heq
  | requestGc currentTime identity nonce =>
      refine ⟨by rintro _ _ _ _ _ ⟨⟩, ?_, ?_⟩
      · simp only [serve]
        cases hcall : s.requestGc debugAssertions currentTime identity nonce with
        | none => exact fun _ => rfl
        | some r =>
            obtain ⟨s', node⟩ := r
            cases node with
            | none => exact fun _ => requestGc_refused hcall
            | some node => rintro (h | h | h) <;> cases h
      · rintro _ _ (⟨_, heq, -⟩ | ⟨_, node, heq, haccepted⟩)
        · cases heq
        · cases heq
          simp only [serve] at haccepted
          cases hcall : s.requestGc debugAssertions currentTime identity nonce with
          | none =>
              rw [hcall] at haccepted
              cases haccepted
          | some r =>
              obtain ⟨s', answer⟩ := r
              rw [hcall] at haccepted
              cases haccepted
              obtain ⟨profile, hregistered, hnext, -⟩ := requestGc_next hsteady hcall
              intro hmem
              obtain ⟨id', profile', hregistered', hle⟩ := h identity nonce hmem
              obtain rfl := Option.some.inj (hregistered.1.symm.trans hregistered'.1)
              obtain rfl := Option.some.inj (hregistered.2.symm.trans hregistered'.2)
              exact Nat.not_succ_le_self _ (hnext ▸ hle)
  | updateAddr identity nonce addr =>
      have hserve : s.serve debugAssertions (.updateAddr identity nonce addr) =
          (s, .updated false) ∨
          s.serve debugAssertions (.updateAddr identity nonce addr) = (s, .panicked) := by
        simp only [serve]
        rcases updateAddr_of_not_registered debugAssertions nonce addr hsteady with heq | heq
        · exact .inl (by rw [heq, answer])
        · exact .inr (by rw [heq, answer])
      refine ⟨?_, ?_, ?_⟩
      · rintro _ _ _ id profile heq hregistered
        cases heq
        exact absurd hregistered (hsteady id profile)
      · intro _
        rcases hserve with heq | heq <;> simp only [heq]
      · rintro _ _ (⟨_, heq, haccepted⟩ | ⟨_, _, heq, -⟩)
        · rcases hserve with hsame | hsame
          · simp only [hsame] at haccepted
            cases haccepted
          · simp only [hsame] at haccepted
            cases haccepted
        · cases heq

/-- **Step by step** what was accepted is remembered, as long as the calls are steady. -/
theorem Remembered.step (h : Remembered (s, accepted)) {call : NodeCall}
    (hsteady : Steady (s, accepted) call) :
    Remembered ((recordingMachine debugAssertions).step (s, accepted) call).1 := by
  cases call with
  | registerNode identity preIdentity addr freeBlocks =>
      exact h.registerNode identity preIdentity addr freeBlocks
  | allocateFile size secret =>
      show Remembered
        ((s.answer .allocated (s.allocateFile debugAssertions size secret)).1, accepted)
      cases hcall : s.allocateFile debugAssertions size secret with
      | none => exact h
      | some r =>
          obtain ⟨hids, hnonces⟩ := allocateFile_nonces hcall
          exact h.same hids hnonces
  | requestGc currentTime identity nonce =>
      show Remembered ((s.serve debugAssertions (.requestGc currentTime identity nonce)).1,
        accepted.add debugAssertions s (.requestGc currentTime identity nonce))
      simp only [serve, Accepted.add]
      cases hcall : s.requestGc debugAssertions currentTime identity nonce with
      | none => exact h
      | some r =>
          obtain ⟨s', node⟩ := r
          cases node with
          | none =>
              rw [requestGc_refused hcall]
              exact h
          | some id =>
              obtain ⟨profile, hregistered, rfl, rfl⟩ := requestGc_next hsteady hcall
              exact h.advance hregistered rfl
  | updateAddr identity nonce addr =>
      show Remembered ((s.serve debugAssertions (.updateAddr identity nonce addr)).1,
        accepted.add debugAssertions s (.updateAddr identity nonce addr))
      simp only [serve, Accepted.add]
      rcases updateAddr_of_not_registered debugAssertions nonce addr hsteady with heq | heq
      · rw [heq]
        exact h
      · rw [heq]
        exact h

/-- Every update of a registered node goes wrong: a greater nonce is refused and stored, any other
one accepted. -/
theorem not_unreplayed_updateAddr {id : Nat} {profile : NodeProfile}
    (h : s.Registered identity id profile) (nonce : Nonce) (addr : SocketAddr) :
    ¬ Unreplayed debugAssertions (s, accepted) (.updateAddr identity nonce addr) := by
  intro hsafe
  have hserve := hsafe.updates rfl h
  by_cases hlt : profile.nonce < nonce
  · rw [if_pos hlt] at hserve
    simp only [serve, updateAddr_of_lt h hlt, answer] at hserve
    cases congrArg Prod.snd hserve
  · rw [if_neg hlt] at hserve
    simp only [serve, updateAddr_of_le h (Nat.not_lt.mp hlt)] at hserve
    cases hnext : succU64 debugAssertions profile.nonce with
    | none =>
        rw [hnext] at hserve
        cases congrArg Prod.snd hserve
    | some next =>
        rw [hnext] at hserve
        cases congrArg Prod.snd hserve

/-- **Heartbeats are safe** in every run of steady calls, and in none that updates a registered
node. -/
theorem unreplayed_run (debugAssertions : Bool) (s : NodeProfiles) (calls : List NodeCall) :
    ((recordingMachine debugAssertions).EachStep Steady (s, fun _ => []) calls →
      (recordingMachine debugAssertions).EachStep (Unreplayed debugAssertions) (s, fun _ => [])
        calls) ∧
    ∀ before identity nonce addr after id profile,
      calls = before ++ .updateAddr identity nonce addr :: after →
        ((recordingMachine debugAssertions).run (s, fun _ => []) before).1.Registered identity id
          profile →
        ¬ (recordingMachine debugAssertions).EachStep (Unreplayed debugAssertions)
          (s, fun _ => []) calls := by
  constructor
  · intro hsteady
    refine Machine.eachStep_of_invariant (P := Remembered) ?_ ?_ ?_ hsteady
    · exact fun s call h hcall => h.step hcall
    · exact fun s call h hcall => unreplayed_of_steady h hcall
    · exact fun identity nonce hmem => absurd hmem List.not_mem_nil
  · rintro before identity nonce addr after id profile rfl hregistered hall
    exact not_unreplayed_updateAddr hregistered nonce addr
      (((recordingMachine debugAssertions).eachStep_append ..).mp hall).2.1

/-- A node. -/
def heartbeatNode : NodeCall := .registerNode 1 0 (.v4 ⟨[10, 0, 0, 1], by decide⟩ 4000) 100

/-- It asks for its garbage. -/
theorem unreplayed_run_gc :
    (recordingMachine true).EachStep (Unreplayed true) (ofRecords [], fun _ => [])
      [heartbeatNode, .requestGc 3600 1 1] := by
  refine (unreplayed_run true (ofRecords []) [heartbeatNode, .requestGc 3600 1 1]).1
    ⟨trivial, ?_, trivial⟩
  intro id profile _ hzero
  exact absurd hzero Nat.one_ne_zero

/-- The node sends its first heartbeat three times, from a new address. The first one is refused,
and the nonce of the others is accepted twice. -/
theorem heartbeat_replayed :
    ((recordingMachine true).run (ofRecords [], fun _ => [])
      [heartbeatNode, .updateAddr 1 1 (.v4 ⟨[10, 0, 0, 2], rfl⟩ 4000),
        .updateAddr 1 1 (.v4 ⟨[10, 0, 0, 2], rfl⟩ 4000),
        .updateAddr 1 1 (.v4 ⟨[10, 0, 0, 2], rfl⟩ 4000)]).2 1 = [1, 1] ∧
    ¬ (recordingMachine true).EachStep (Unreplayed true) (ofRecords [], fun _ => [])
      [heartbeatNode, .updateAddr 1 1 (.v4 ⟨[10, 0, 0, 2], rfl⟩ 4000),
        .updateAddr 1 1 (.v4 ⟨[10, 0, 0, 2], rfl⟩ 4000),
        .updateAddr 1 1 (.v4 ⟨[10, 0, 0, 2], rfl⟩ 4000)] := by
  constructor
  · decide
  · intro hall
    have hregistered : ((nodeMachine true).run (ofRecords []) [heartbeatNode]).Registered 1 0
        ⟨1, 0, 0, 0, 0, 100, .v4 ⟨[10, 0, 0, 1], rfl⟩ 4000⟩ := ⟨rfl, rfl⟩
    exact not_unreplayed_updateAddr hregistered _ _ hall.2.1

end NodeProfiles

end OnionNetwork.Storage
