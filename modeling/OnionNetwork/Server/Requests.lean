import OnionNetwork.Server.Send
import OnionNetwork.Lib.Machine

/-!
# The signed requests of a chat

The four requests that carry a proof, as one machine over the handle of a
chat. `MemberStep` lists what an authorised request does to the member table
and what it needed; `serve_memberStep` says that nothing else ever changes the
table.
-/

namespace OnionNetwork.Server

open Chat Lib

variable {cr : Crypto}

/-- A request with a proof, and what else the handler reads: the clock, and for
a message the replica's own id and its view of the replication group. -/
inductive Request (cr : Crypto)
  | addMember (currentMs : Nat) (proof : Proof cr ChatName) (id : Identity) (member : Member)
  | updateMember (proof : Proof cr ChatName) (id : Identity) (member : Member)
  | kickMember (currentMs : Nat) (proof : Proof cr ChatName) (id : Identity)
  | sendMessage (currentMs : Nat) (localPeerId : NodeIdentity) (group : FullReplGroup)
      (proof : Proof cr ReminderOwned)

namespace Request

/-- The identity the proof claims. -/
def signer : Request cr → Identity
  | addMember _ proof _ _ | updateMember proof _ _ | kickMember _ proof _ => proof.identity
  | sendMessage _ _ _ proof => proof.identity

/-- The nonce of the proof. -/
def nonce : Request cr → Nonce
  | addMember _ proof _ _ | updateMember proof _ _ | kickMember _ proof _ => proof.nonce
  | sendMessage _ _ _ proof => proof.nonce

/-- Whose record the request asks to write, if it is an addition or an update. -/
def writes : Request cr → Option Identity
  | addMember _ _ id _ | updateMember _ id _ => some id
  | kickMember _ _ _ | sendMessage _ _ _ _ => none

/-- Whose record the request is about, besides the signer's. -/
def target : Request cr → Option Identity
  | addMember _ _ id _ | updateMember _ id _ | kickMember _ _ id => some id
  | sendMessage _ _ _ _ => none

end Request

/-- A membership operation leaves the handle alone when it fails. -/
def settled (h : Handle) : Except ChatError Handle → Handle × Except Fault Unit
  | .ok h' => (h', .ok ())
  | .error e => (h, .error (.chat e))

/-- The handlers of `api::chat`, on the chat the request is addressed to. -/
def Handle.serve (h : Handle) : Request cr → Handle × Except Fault Unit
  | .addMember currentMs proof id member => settled h (h.addMember currentMs proof id member)
  | .updateMember proof id member => settled h (h.updateMember proof id member)
  | .kickMember currentMs proof id => settled h (h.kickMember currentMs proof id)
  | .sendMessage currentMs localPeerId group proof =>
      let reply := h.sendMessage currentMs localPeerId group proof
      (reply.handle, reply.result.map fun _ => ())

/-- One chat under its signed requests. -/
def chatMachine (cr : Crypto) : Machine Handle (Request cr) (Except Fault Unit) :=
  ⟨Handle.serve⟩

/-- The request is answered with `Ok`. -/
def Handle.Accepts (h : Handle) (r : Request cr) : Prop := (h.serve r).2 = .ok ()

instance (h : Handle) (r : Request cr) : Decidable (h.Accepts r) :=
  match hres : (h.serve r).2 with
  | .ok () => isTrue hres
  | .error _ => isFalse fun hacc => by rw [Handle.Accepts, hres] at hacc; cases hacc

/-- What an authorised request does to the member table. -/
inductive MemberStep (ms : Members) : Request cr → Members → Prop
  | added {currentMs : Nat} {proof : Proof cr ChatName} {id : Identity} {m member : Member}
      (hmay : MayAdd ms currentMs proof id m) :
      MemberStep ms (.addMember currentMs proof id member)
        ((ms.put proof.identity (spent m proof.nonce currentMs)).put id (clampTo m member))
  | updated {proof : Proof cr ChatName} {id : Identity} {m member : Member}
      (hmay : MayUpdate ms proof id m) :
      MemberStep ms (.updateMember proof id member)
        ((ms.put proof.identity { m with action := proof.nonce }).put id (clampTo m member))
  | left {currentMs : Nat} {proof : Proof cr ChatName} {m : Member}
      (hauth : Authenticated ms proof m) :
      MemberStep ms (.kickMember currentMs proof proof.identity)
        ((ms.put proof.identity { m with action := proof.nonce }).erase proof.identity)
  | kicked {currentMs : Nat} {proof : Proof cr ChatName} {id : Identity} {m target : Member}
      (hmay : MayKick ms currentMs proof id m target) (hrank : target.rank < m.rank) :
      MemberStep ms (.kickMember currentMs proof id)
        ((ms.put proof.identity (spent m proof.nonce currentMs)).erase id)
  | sent {currentMs : Nat} {localPeerId : NodeIdentity} {group : FullReplGroup}
      {proof : Proof cr ReminderOwned} {m : Member} (hauth : Authenticated ms proof m)
      (hact : MayAct m currentMs .send) :
      MemberStep ms (.sendMessage currentMs localPeerId group proof)
        (ms.put proof.identity (spent m proof.nonce currentMs))

/-- The answers to the operations that meet their guards. -/
theorem serve_addMember {h : Handle} {currentMs : Nat} {proof : Proof cr ChatName}
    {id : Identity} {m : Member} (member : Member) (hmay : MayAdd h.members currentMs proof id m) :
    h.serve (.addMember currentMs proof id member) =
      ({ h with
          members := (h.members.put proof.identity (spent m proof.nonce currentMs)).put id
            (clampTo m member) }, .ok ()) := by
  simp only [Handle.serve, addMember_eq_ok.mpr ⟨m, hmay, rfl⟩, settled]

theorem serve_updateMember {h : Handle} {proof : Proof cr ChatName} {id : Identity} {m : Member}
    (member : Member) (hmay : MayUpdate h.members proof id m) :
    h.serve (.updateMember proof id member) =
      ({ h with
          members := (h.members.put proof.identity { m with action := proof.nonce }).put id
            (clampTo m member) }, .ok ()) := by
  simp only [Handle.serve, updateMember_eq_ok.mpr ⟨m, hmay, rfl⟩, settled]

theorem serve_kickMember {h : Handle} {currentMs : Nat} {proof : Proof cr ChatName}
    {id : Identity} {m target : Member} (hmay : MayKick h.members currentMs proof id m target)
    (hrank : target.rank < m.rank) :
    h.serve (.kickMember currentMs proof id) =
      ({ h with
          members := (h.members.put proof.identity (spent m proof.nonce currentMs)).erase id },
        .ok ()) := by
  simp only [Handle.serve, kickMember_eq_ok.mpr (.inr ⟨m, target, hmay, hrank, rfl⟩), settled]

theorem serve_leave {h : Handle} {currentMs : Nat} {proof : Proof cr ChatName} {m : Member}
    (hauth : Authenticated h.members proof m) :
    h.serve (.kickMember currentMs proof proof.identity) =
      ({ h with
          members := (h.members.put proof.identity { m with action := proof.nonce }).erase
            proof.identity }, .ok ()) := by
  simp only [Handle.serve, kickMember_eq_ok.mpr (.inl ⟨m, hauth, rfl, rfl⟩), settled]

theorem accepts_sendMessage {h : Handle} {currentMs : Nat} {proof : Proof cr ReminderOwned}
    {m : Member} (localPeerId : NodeIdentity) (group : FullReplGroup)
    (hauth : Authenticated h.members proof m) (hact : MayAct m currentMs .send)
    (hlen : (Encode.encode (Handle.messageOf proof)).length ≤ maxMessageSize + sizeOfMessage)
    (hcp : h.root.checkpoint ≤ h.blocks.length)
    (hhistory : h.blocks.length - h.root.checkpoint ≤ blockHistory * blockSize)
    (hsmall : h.root.bufferLen +
      (logCode.frame (Encode.encode (Handle.messageOf proof))).length ≤ blockSize) :
    h.Accepts (.sendMessage currentMs localPeerId group proof) := by
  have hspend := spendAction_eq_ok.mpr
    ⟨hauth.1, m, hauth.2.1, hauth.2.2, hact.1, hact.2, rfl⟩
  have hsend := sendMessage_of_small localPeerId group hspend hlen hcp hhistory hsmall
  simp only [Handle.Accepts, Handle.serve, hsend, Except.map]

/-- The frame of a step: only the records of the signer and of the target can
change. -/
theorem MemberStep.get_of_ne {ms ms' : Members} {r : Request cr} (hstep : MemberStep ms r ms')
    {t : Identity} (hsigner : r.signer ≠ t) (htarget : r.target ≠ some t) :
    ms'.get t = ms.get t := by
  have hne : ∀ id, r.target = some id → id ≠ t := by
    rintro id hid rfl
    exact htarget hid
  cases hstep with
  | @added _ proof id _ _ _ =>
      have hput : proof.identity ≠ t := hsigner
      rw [SortedMap.get_put_ne _ (hne id rfl), SortedMap.get_put_ne _ hput]
  | @updated proof id _ _ _ =>
      have hput : proof.identity ≠ t := hsigner
      rw [SortedMap.get_put_ne _ (hne id rfl), SortedMap.get_put_ne _ hput]
  | @left _ proof _ _ =>
      have hput : proof.identity ≠ t := hsigner
      rw [SortedMap.get_erase_ne _ hput, SortedMap.get_put_ne _ hput]
  | @kicked _ proof id _ _ _ _ =>
      have hput : proof.identity ≠ t := hsigner
      rw [SortedMap.get_erase_ne _ (hne id rfl), SortedMap.get_put_ne _ hput]
  | @sent _ _ _ proof _ _ _ =>
      have hput : proof.identity ≠ t := hsigner
      rw [SortedMap.get_put_ne _ hput]

theorem settled_cases (h : Handle) (res : Except ChatError Handle) :
    (∃ h', res = .ok h' ∧ settled h res = (h', .ok ())) ∨
      ((settled h res).2 ≠ .ok () ∧ (settled h res).1 = h) := by
  cases res with
  | ok h' => exact .inl ⟨h', rfl, rfl⟩
  | error e => exact .inr ⟨nofun, rfl⟩

/-- Proposing a block leaves the members alone. -/
theorem proposeBlock_members (cr : Crypto) (h : Handle) (localPeerId : NodeIdentity)
    (group : FullReplGroup) (prevBufferLen : Nat) :
    (h.proposeBlock cr localPeerId group prevBufferLen).handle.members = h.members := by
  rcases proposeBlock_cases cr h localPeerId group prevBufferLen with
    ⟨hsame, -, -⟩ | ⟨buffer, -, -, -, -, hreply⟩
  · rw [hsame]
  · rw [hreply]
    rfl

/-- A message touches the member table only through the spent action, and is
accepted only after it. -/
theorem sendMessage_members (h : Handle) (currentMs : Nat) (localPeerId : NodeIdentity)
    (group : FullReplGroup) (proof : Proof cr ReminderOwned) :
    (∃ e, (h.sendMessage currentMs localPeerId group proof).result = .error e ∧
        (h.sendMessage currentMs localPeerId group proof).handle.members = h.members) ∨
      ∃ members, h.spendAction currentMs proof = .ok members ∧
        (h.sendMessage currentMs localPeerId group proof).handle.members = members := by
  rcases sendMessage_cases h currentMs localPeerId group proof with
    ⟨e, -, hreply⟩ | ⟨members, hspend, ⟨log, e, -, hreply⟩ | ⟨log, -, hreply⟩⟩
  · exact .inl ⟨.chat e, by rw [hreply], by rw [hreply]⟩
  · exact .inr ⟨members, hspend, by rw [hreply]⟩
  · exact .inr ⟨members, hspend, by rw [hreply, proposeBlock_members]⟩

/-- **Only authorised requests touch the member table.** A request that is not
a `MemberStep` is refused and changes nothing in it; an addition or update that
is one is accepted. -/
theorem serve_memberStep (h : Handle) (r : Request cr) :
    (MemberStep h.members r (h.serve r).1.members ∧ (r.writes ≠ none → h.Accepts r)) ∨
      (¬ h.Accepts r ∧ (h.serve r).1.members = h.members) := by
  cases r with
  | addMember currentMs proof id member =>
      rcases settled_cases h (h.addMember currentMs proof id member) with
        ⟨h', hok, hset⟩ | ⟨hno, hsame⟩
      · obtain ⟨m, hmay, rfl⟩ := addMember_eq_ok.mp hok
        refine .inl ⟨?_, fun _ => congrArg Prod.snd hset⟩
        simp only [Handle.serve, hset]
        exact .added hmay
      · exact .inr ⟨hno, by simp only [Handle.serve, hsame]⟩
  | updateMember proof id member =>
      rcases settled_cases h (h.updateMember proof id member) with
        ⟨h', hok, hset⟩ | ⟨hno, hsame⟩
      · obtain ⟨m, hmay, rfl⟩ := updateMember_eq_ok.mp hok
        refine .inl ⟨?_, fun _ => congrArg Prod.snd hset⟩
        simp only [Handle.serve, hset]
        exact .updated hmay
      · exact .inr ⟨hno, by simp only [Handle.serve, hsame]⟩
  | kickMember currentMs proof id =>
      rcases settled_cases h (h.kickMember currentMs proof id) with
        ⟨h', hok, hset⟩ | ⟨hno, hsame⟩
      · refine .inl ⟨?_, fun hw => absurd rfl hw⟩
        simp only [Handle.serve, hset]
        rcases kickMember_eq_ok.mp hok with ⟨m, hauth, rfl, rfl⟩ | ⟨m, target, hmay, hrank, rfl⟩
        · exact .left hauth
        · exact .kicked hmay hrank
      · exact .inr ⟨hno, by simp only [Handle.serve, hsame]⟩
  | sendMessage currentMs localPeerId group proof =>
      rcases sendMessage_members h currentMs localPeerId group proof with
        ⟨e, hres, hsame⟩ | ⟨members, hspend, hmem⟩
      · refine .inr ⟨?_, hsame⟩
        simp [Handle.Accepts, Handle.serve, hres, Except.map]
      · obtain ⟨hverify, m, hget, hnonce, hfrozen, hperm, rfl⟩ := spendAction_eq_ok.mp hspend
        refine .inl ⟨?_, fun hw => absurd rfl hw⟩
        simp only [Handle.serve, hmem]
        exact .sent ⟨hverify, hget, hnonce⟩ ⟨hfrozen, hperm⟩

/-- An accepted request is a step of the member table. -/
theorem memberStep_of_accepts {h : Handle} {r : Request cr} (hacc : h.Accepts r) :
    MemberStep h.members r (h.serve r).1.members := by
  rcases serve_memberStep h r with ⟨hstep, -⟩ | ⟨hno, -⟩
  · exact hstep
  · exact absurd hacc hno

/-! ## A small chat for concrete runs -/

def lobby : ChatName := ⟨"lobby", by decide⟩

/-- A moderator of rank 1 and a newcomer of rank 7. -/
def lobbyMembers : Members :=
  (SortedMap.empty.put 1 { permissions := .all, rank := 1, actionCooldownMs := 10 }).put 2
    { permissions := .all, rank := 7 }

theorem identity_newcomer (nonce : Nonce) (content : ReminderOwned) :
    (Proof.transparent 2 nonce content).identity = 2 := by
  show Crypto.transparent.identity (2 : Hash) = 2
  decide

/-- The newcomer may send a first message. -/
theorem spendAction_newcomer {h : Handle} (hmembers : h.members = lobbyMembers) {nonce : Nonce}
    {currentMs : Nat} (hnonce : 0 < nonce) (hms : 0 < currentMs) (content : ReminderOwned) :
    ∃ members, h.spendAction currentMs (Proof.transparent 2 nonce content) = .ok members := by
  have hget : h.members.get (Proof.transparent 2 nonce content).identity =
      some { permissions := .all, rank := 7 } := by
    rw [hmembers, identity_newcomer]
    decide
  exact ⟨_, spendAction_eq_ok.mpr ⟨Proof.verify_transparent 2 nonce content, _, hget, hnonce, hms,
    by decide, rfl⟩⟩

/-- Five nodes, in the order of their distance from the zero hash. -/
def replicas : FullReplGroup := ⟨[0, 1, 2, 3, 4], rfl, by decide⟩

end OnionNetwork.Server
