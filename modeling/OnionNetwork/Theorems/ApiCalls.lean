import OnionNetwork.Server.Api

/-!
# Refused messages and member events

`rejected_no_trace_iff`: a message that is refused, other than by an error of a file, leaves
no trace, unless it is too long to be stored. That is found out when the action is already
spent: the limit on the body of the request is not the limit on what is stored.

`pushed_member_iff`: the event of an added or updated member carries the record of the
request, and the storage keeps it clamped to the record of the signer. They agree exactly
for requests that are within the signer's record already and have no nonce.
-/

namespace OnionNetwork.Server

open Chat Lib

variable {cr : Crypto}

/-- The record of the sender, the root and the blocks file are as before. -/
structure NoTrace (h h' : Handle) (sender : Identity) : Prop where
  record : h'.members.get sender = h.members.get sender
  root : h'.root = h.root
  blocks : h'.blocks = h.blocks

/-- What the transaction of `send_message` asks for. -/
def Handle.MaySend (h : Handle) (currentMs : Nat) (proof : Proof cr ReminderOwned) : Prop :=
  proof.verify = true ∧ ∃ m, h.members.get proof.identity = some m ∧ m.action < proof.nonce ∧
    m.frozenUntil < currentMs ∧ m.permissions.contains .send = true

/-- The transaction is committed for those that may send. -/
theorem maySend_iff {h : Handle} {currentMs : Nat} {proof : Proof cr ReminderOwned} :
    h.MaySend currentMs proof ↔ ∃ members, h.spendAction currentMs proof = .ok members := by
  simp only [spendAction_eq_ok, Handle.MaySend]
  constructor
  · rintro ⟨hverify, m, hget, hnonce, hfrozen, hsend⟩
    exact ⟨_, hverify, m, hget, hnonce, hfrozen, hsend, rfl⟩
  · rintro ⟨members, hverify, m, hget, hnonce, hfrozen, hsend, -⟩
    exact ⟨hverify, m, hget, hnonce, hfrozen, hsend⟩

/-- A committed transaction is seen in the record of the sender. -/
theorem record_ne_of_spend {h : Handle} {currentMs : Nat} {proof : Proof cr ReminderOwned}
    {members : Members} (hspend : h.spendAction currentMs proof = .ok members) :
    members.get proof.identity ≠ h.members.get proof.identity := by
  obtain ⟨-, m, hget, hnonce, -, -, rfl⟩ := spendAction_eq_ok.mp hspend
  rw [SortedMap.get_put_self, hget]
  intro hsame
  have haction : proof.nonce = m.action := congrArg Member.action (Option.some.inj hsame)
  exact absurd haction (Nat.ne_of_gt hnonce)

/-- The length of a message as it is stored. -/
theorem length_encode_message (proof : Proof cr ReminderOwned) :
    (Encode.encode (Handle.messageOf proof)).length =
      32 + (base128Encode proof.nonce).length + proof.context.bytes.length := by
  have hencoded : Encode.encode (Handle.messageOf proof) =
      proof.identity.toBytes ++ base128Encode proof.nonce ++ proof.context.bytes := rfl
  rw [hencoded, List.length_append, List.length_append, Hash.length_toBytes]

/-- A message that is too long is refused when its action is spent. -/
theorem sendMessage_of_long {h : Handle} {currentMs : Nat} {proof : Proof cr ReminderOwned}
    {members : Members} (localPeerId : NodeIdentity) (group : FullReplGroup)
    (hspend : h.spendAction currentMs proof = .ok members)
    (hlong : maxMessageSize + sizeOfMessage < (Encode.encode (Handle.messageOf proof)).length) :
    h.sendMessage currentMs localPeerId group proof =
      { handle := { h with members }, result := .error (.chat .ise) } := by
  have hstore := storeMessage_of_long ⟨h.root, h.blocks, h.discardedBytes⟩ hlong
  simp only [Handle.sendMessage, hspend, hstore]

/-- **A rejected message leaves no trace** exactly if the sender may not send it or it fits
the buffer it is encoded into. -/
theorem rejected_no_trace_iff (h : Handle) (currentMs : Nat) (localPeerId : NodeIdentity)
    (group : FullReplGroup) (proof : Proof cr ReminderOwned) :
    (∀ e, (h.sendMessage currentMs localPeerId group proof).result = .error (.chat e) →
        ¬ IsIo e →
        NoTrace h (h.sendMessage currentMs localPeerId group proof).handle proof.identity) ↔
      ¬ h.MaySend currentMs proof ∨
        32 + (base128Encode proof.nonce).length + proof.context.bytes.length ≤
          maxMessageSize + sizeOfMessage := by
  rw [← length_encode_message, maySend_iff]
  rcases sendMessage_cases h currentMs localPeerId group proof with
    ⟨e, hspend, hreply⟩ | ⟨members, hspend, hstored⟩
  · -- the transaction is dropped
    have hnot : ¬ ∃ members, h.spendAction currentMs proof = .ok members := by
      rintro ⟨members, hok⟩
      cases hspend.symm.trans hok
    rw [hreply]
    exact ⟨fun _ => .inl hnot, fun _ _ _ _ => ⟨rfl, rfl, rfl⟩⟩
  · have hmay : ∃ members, h.spendAction currentMs proof = .ok members := ⟨members, hspend⟩
    simp only [hmay, not_true_eq_false, false_or]
    by_cases hlen : (Encode.encode (Handle.messageOf proof)).length ≤
        maxMessageSize + sizeOfMessage
    · -- only the file can fail
      refine ⟨fun _ => hlen, fun _ e herror hio => absurd ?_ hio⟩
      rcases hstored with ⟨log, fault, hstore, hreply⟩ | ⟨log, hstore, hreply⟩
      · rw [hreply] at herror
        obtain rfl := Except.error.inj herror
        exact storeMessage_error hlen hstore
      · rw [hreply] at herror
        exact proposeBlock_error herror
    · -- the action is spent, and the message is refused
      have hreply := sendMessage_of_long localPeerId group hspend (Nat.lt_of_not_le hlen)
      refine ⟨fun htrace => ?_, fun hfits => absurd hfits hlen⟩
      rw [hreply] at htrace
      exact absurd (htrace .ise rfl id).record (record_ne_of_spend hspend)

/-- A message of the newcomer that is short enough for the handler and too long for the log. -/
def longNote : Proof .transparent ReminderOwned := Proof.transparent 2 1 ⟨List.replicate 1010 0⟩

/-- Its body is read, it is refused, and its nonce is spent. -/
theorem rejected_message_spends :
    sendMessageBodyLen longNote ≤ sendMessageBodyCap ∧
      ((Handle.fresh lobbyMembers).sendMessage 20 0 replicas longNote).result =
        .error (.chat .ise) ∧
      ¬ IsIo .ise ∧
      ¬ NoTrace (.fresh lobbyMembers)
        ((Handle.fresh lobbyMembers).sendMessage 20 0 replicas longNote).handle
        longNote.identity := by
  have hnonce : (base128Encode longNote.nonce).length = 1 := by
    rw [base128Encode_of_lt (show longNote.nonce < 128 by decide)]
    rfl
  have hcontent : longNote.context.bytes.length = 1010 := List.length_replicate
  have hlen : ¬ (Encode.encode (Handle.messageOf longNote)).length ≤
      maxMessageSize + sizeOfMessage := by
    rw [length_encode_message, hnonce, hcontent]
    decide
  obtain ⟨members, hspend⟩ : ∃ members,
      (Handle.fresh lobbyMembers).spendAction 20 longNote = .ok members :=
    spendAction_newcomer rfl Nat.one_pos (by decide) ⟨List.replicate 1010 0⟩
  have hreply := sendMessage_of_long 0 replicas hspend (Nat.lt_of_not_le hlen)
  refine ⟨?_, by rw [hreply], id, ?_⟩
  · rw [sendMessageBodyLen, hnonce, hcontent]
    decide
  · rw [hreply]
    exact fun htrace => record_ne_of_spend hspend htrace.record

end OnionNetwork.Server

namespace OnionNetwork.Server

open Chat Lib

variable {cr : Crypto}

/-- The record a request asks to write. -/
def Request.record : Request cr → Option Member
  | addMember _ _ _ member | updateMember _ _ member => some member
  | kickMember _ _ _ | sendMessage _ _ _ _ => none

/-- Two records that look the same to the members of a chat. -/
structure SameMember (shown stored : Member) : Prop where
  permissions : shown.permissions = stored.permissions
  rank : shown.rank = stored.rank
  cooldown : shown.actionCooldownMs = stored.actionCooldownMs
  action : shown.action = stored.action

/-- What the subscribers are told of a member is what is stored. -/
def Storage.ShowsStored (s : Storage) (topic : ChatName) (r : Request cr) : Prop :=
  ∃ id shown h stored, s.pushed topic r = some (r.chat topic, .member id shown) ∧
    (s.serveChat topic r).1.chats (r.chat topic) = some h ∧ h.members.get id = some stored ∧
    SameMember shown stored

/-- A record that clamping to another one leaves as it is. -/
structure WithinSigner (byMember member : Member) : Prop where
  permissions : byMember.permissions.contains member.permissions = true
  rank : byMember.rank ≤ member.rank
  cooldown : byMember.actionCooldownMs ≤ member.actionCooldownMs
  action : member.action = 0

theorem sameMember_clampTo_iff (byMember member : Member) :
    SameMember member (clampTo byMember member) ↔ WithinSigner byMember member := by
  constructor
  · rintro ⟨hpermissions, hrank, hcooldown, haction⟩
    exact ⟨Permissions.and_eq_left_iff.mp hpermissions.symm, max_eq_right_iff.mp hrank.symm,
      max_eq_right_iff.mp hcooldown.symm, haction⟩
  · rintro ⟨hpermissions, hrank, hcooldown, haction⟩
    exact ⟨(Permissions.and_eq_left_iff.mpr hpermissions).symm, (max_eq_right hrank).symm,
      (max_eq_right hcooldown).symm, haction⟩

/-- An accepted addition or update stores the clamped record. -/
theorem serve_stores {h : Handle} {r : Request cr} {id : Identity} {member : Member}
    (hwrites : r.writes = some id) (hrecord : r.record = some member) (haccepted : h.Accepts r) :
    ∃ m, h.members.get r.signer = some m ∧
      (h.serve r).1.members.get id = some (clampTo m member) := by
  have hstep := memberStep_of_accepts haccepted
  generalize (h.serve r).1.members = ms at hstep ⊢
  cases hstep with
  | added hmay =>
      obtain rfl := Option.some.inj hwrites
      obtain rfl := Option.some.inj hrecord
      exact ⟨_, hmay.1.2.1, SortedMap.get_put_self _ _ _⟩
  | updated hmay =>
      obtain rfl := Option.some.inj hwrites
      obtain rfl := Option.some.inj hrecord
      exact ⟨_, hmay.1.2.1, SortedMap.get_put_self _ _ _⟩
  | left | kicked | sent => cases hwrites

/-- The event shows the record of the request, and the storage has the clamped one. -/
theorem showsStored_iff {s : Storage} {topic : ChatName} {r : Request cr} {h : Handle}
    {member m : Member} (hchat : s.chats (r.chat topic) = some h)
    (hsigner : h.members.get r.signer = some m) (hrecord : r.record = some member)
    (haccepted : s.Accepts topic r) :
    s.ShowsStored topic r ↔ SameMember member (clampTo m member) := by
  have hserved : s.serveChat topic r = (s.setChat (r.chat topic) (h.serve r).1, (h.serve r).2) := by
    simp only [Storage.serveChat, Storage.getChat, hchat]
  have hok : (h.serve r).2 = .ok () := by
    rw [Storage.Accepts, hserved] at haccepted
    exact haccepted
  obtain ⟨id, hwrites, hevent⟩ : ∃ id, r.writes = some id ∧ r.event = .member id member := by
    cases r with
    | addMember currentMs proof id requested =>
        obtain rfl := Option.some.inj hrecord
        exact ⟨id, rfl, rfl⟩
    | updateMember proof id requested =>
        obtain rfl := Option.some.inj hrecord
        exact ⟨id, rfl, rfl⟩
    | kickMember | sendMessage => cases hrecord
  obtain ⟨m', hsigner', hstored⟩ := serve_stores hwrites hrecord hok
  obtain rfl := Option.some.inj (hsigner.symm.trans hsigner')
  have hpushed : s.pushed topic r = some (r.chat topic, .member id member) := by
    rw [Storage.pushed, hserved, hok, hevent]
  have hafter : (s.serveChat topic r).1.chats (r.chat topic) = some (h.serve r).1 := by
    rw [hserved]
    exact Function.update_self _ _ _
  constructor
  · rintro ⟨id', shown, h', stored, hpushed', hafter', hget, hsame⟩
    cases hpushed.symm.trans hpushed'
    cases hafter.symm.trans hafter'
    cases hstored.symm.trans hget
    exact hsame
  · intro hsame
    exact ⟨id, member, _, _, hpushed, hafter, hstored, hsame⟩

/-- **Subscribers see what the server stores** exactly if the record of the request is
within the one of the signer. -/
theorem pushed_member_iff (s : Storage) (topic : ChatName) (r : Request cr) (h : Handle)
    (member m : Member) (hchat : s.chats (r.chat topic) = some h)
    (hsigner : h.members.get r.signer = some m) (hrecord : r.record = some member)
    (haccepted : s.Accepts topic r) :
    s.ShowsStored topic r ↔ WithinSigner m member :=
  (showsStored_iff hchat hsigner hrecord haccepted).trans (sameMember_clampTo_iff m member)

/-- A server with the lobby. -/
def lobbyServer : Storage where
  profiles _ := none
  chats name := if name = lobby then some (.fresh lobbyMembers) else none

/-- The moderator adds a member. -/
def addition (member : Member) : Request .transparent :=
  .addMember 20 (Proof.transparent 1 1 lobby) 3 member

theorem lobbyServer_chat : lobbyServer.chats lobby = some (.fresh lobbyMembers) := by
  simp [lobbyServer]

theorem moderator_record (member : Member) :
    (Handle.fresh lobbyMembers).members.get (addition member).signer =
      some { permissions := .all, rank := 1, actionCooldownMs := 10 } := by
  show lobbyMembers.get (Crypto.transparent.identity (1 : Hash)) = _
  decide

theorem addition_accepted (member : Member) : lobbyServer.Accepts lobby (addition member) := by
  refine Storage.accepts_iff.mpr ⟨_, lobbyServer_chat, ?_⟩
  have hsigner : (Proof.transparent 1 1 lobby).identity ≠ 3 := by decide
  have hfree : lobbyMembers.get 3 = none := by decide
  have hmay : MayAdd (Handle.fresh lobbyMembers).members 20 (Proof.transparent 1 1 lobby) 3
      { permissions := .all, rank := 1, actionCooldownMs := 10 } :=
    ⟨⟨Proof.verify_transparent 1 1 lobby, moderator_record member, Nat.one_pos⟩,
      ⟨Nat.succ_pos 19, by decide⟩, hsigner, hfree⟩
  exact congrArg Prod.snd (serve_addMember member hmay)

/-- A member of lower rank than the moderator is shown as it is stored. -/
theorem pushed_member_lower :
    lobbyServer.ShowsStored lobby
      (addition { permissions := .send, rank := 5, actionCooldownMs := 10 }) :=
  (pushed_member_iff lobbyServer lobby (addition _) (.fresh lobbyMembers) _ _ lobbyServer_chat
    (moderator_record _) rfl (addition_accepted _)).mpr ⟨by decide, by decide, by decide, rfl⟩

/-- `Member::best` is shown with rank 0 and no cooldown, and stored with the ones of the
moderator. -/
theorem pushed_member_best :
    lobbyServer.Accepts lobby (addition .best) ∧
      ¬ lobbyServer.ShowsStored lobby (addition .best) := by
  refine ⟨addition_accepted _, fun hshows => ?_⟩
  have hsame := (showsStored_iff lobbyServer_chat (moderator_record _) rfl
    (addition_accepted .best)).mp hshows
  exact absurd hsame.rank (by decide)

end OnionNetwork.Server
