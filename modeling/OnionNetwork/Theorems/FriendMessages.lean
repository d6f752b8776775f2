import OnionNetwork.Client.Friends
import OnionNetwork.Ratchet.Routing

/-!
# Friends write to each other

Two clients that are friends, and the mail between them, handled in any order. A mail is found if
its session is the receiver hash of the friend it is from. The first message of a chain has the
session of the chain before, so the other messages of the chain are found behind it only; and what
is late in a chain that was left is not found. All others are returned (`messages_returned`).
-/

namespace OnionNetwork.Friends

open Lib Ratchet

variable {S : Suite} {UserName : Type} [DecidableEq UserName] {M : Mailing S UserName}

/-- The clients of two parties: their vaults, what each of them has mailed, with the message in it,
and which of the mails of the other one each has handled. -/
structure Pair (S : Suite) (UserName : Type) [DecidableEq UserName] where
  vault : Party → Vault S UserName
  mails : Party → List (FriendMessage × MailVariant S)
  handled : Party → List Nat

/-- A call of `send_frined_message`, or of `handle_sync` for a mail of the other party. -/
inductive Call (M : Mailing S UserName)
  | send (p : Party) (message : FriendMessage) (rng : M.Rng)
  | handle (p : Party) (i : Nat) (draws : Draws S)

/-- What the call returned. -/
inductive Reply (S : Suite) (UserName : Type)
  | mailed (mail : MailVariant S)
  | failed (e : String)
  | handled (result : Except String (Option (UserName × FriendMessage)))
  | nothing

/-- The call returned a message. -/
def Reply.isMessage : Reply S UserName → Bool
  | .handled (.ok (some _)) => true
  | _ => false

/-- One call. No mail comes in while one is on its way out. -/
def Pair.step (M : Mailing S UserName) (name : Party → UserName)
    (enc : Party → Enc.Keypair S.exchange) (s : Pair S UserName) :
    Call M → Pair S UserName × Reply S UserName
  | .send p message rng =>
      match (s.vault p).prepareMessage M (name p.other) message rng with
      | .error e => (s, .failed e)
      | .ok (frined, mail) =>
          ({ s with
             vault := Function.update s.vault p ((s.vault p).writeBack (name p.other) frined)
             mails := Function.update s.mails p (s.mails p ++ [(message, mail)]) }, .mailed mail)
  | .handle p i draws =>
      match (s.mails p.other)[i]? with
      | none => (s, .nothing)
      | some (_, mail) =>
          let (vault, result) := (s.vault p).handleSync M (enc p) draws mail
          ({ s with
             vault := Function.update s.vault p vault
             handled := Function.update s.handled p (s.handled p ++ [i]) }, .handled result)

/-- The two clients, call by call. -/
def pairMachine (M : Mailing S UserName) (name : Party → UserName)
    (enc : Party → Enc.Keypair S.exchange) :
    Machine (Pair S UserName) (Call M) (Reply S UserName) :=
  ⟨Pair.step M name enc⟩

/-- The clients once each has entered the other into its vault, from one secret. -/
def befriended (vault : Party → Vault S UserName) (name : Party → UserName)
    (identity : Party → Hash) (secret : SharedSecret) (aliceDraws bobDraws : Draws S) :
    Pair S UserName :=
  let (alice, init, id) := DoubleRatchet.initiator secret aliceDraws
  let (bob, id') := DoubleRatchet.recipient secret init bobDraws
  { vault := fun
      | .alice => (vault .alice).addFriend (name .bob)
          { dr := alice, identity := identity .bob, id }
      | .bob => (vault .bob).addFriend (name .alice)
          { dr := bob, identity := identity .alice, id := id' }
    mails := fun _ => []
    handled := fun _ => [] }

/-- The header of a mail. -/
def MailVariant.header? : MailVariant S → Option (MessageHeader S)
  | .friendMessage header _ _ => some header
  | .friendRequest _ _ => none

/-- Each mail is handled once, and the messages that are skipped and not handled yet are at most as
many as there is room for. -/
def Scheduled (name : Party → UserName) (s : Pair S UserName) : Call M → Prop
  | .send _ _ _ => True
  | .handle p i _ => i ∉ s.handled p ∧
      ∀ friend ∈ (s.vault p).friends.get (name p.other), ∀ mail ∈ (s.mails p.other)[i]?,
        ∀ header ∈ mail.2.header?, HasRoom friend.dr header

/-- A chain is entered with its first message, and nothing of a chain is handled when it was left;
and the counters of a chain are in range. -/
def Timely (name : Party → UserName) (s : Pair S UserName) : Call M → Prop
  | .send p _ _ => ∀ friend ∈ (s.vault p).friends.get (name p.other),
      friend.dr.sender.step = u32Max →
        owner friend.dr.root.step = p.other ∧ friend.dr.root.step < u32Max
  | .handle p i _ => ∀ friend ∈ (s.vault p).friends.get (name p.other),
      ∀ mail ∈ (s.mails p.other)[i]?, ∀ header ∈ mail.2.header?, InTime friend.dr header

instance (name : Party → UserName) (s : Pair S UserName) :
    DecidablePred (Scheduled (M := M) name s)
  | .send _ _ _ => isTrue trivial
  | .handle _ _ _ => inferInstanceAs (Decidable (_ ∧ ∀ _ ∈ _, ∀ _ ∈ _, ∀ _ ∈ _, HasRoom _ _))

instance (name : Party → UserName) (s : Pair S UserName) : DecidablePred (Timely (M := M) name s)
  | .send _ _ _ => inferInstanceAs (Decidable (∀ _ ∈ _, _ → _))
  | .handle _ _ _ => inferInstanceAs (Decidable (∀ _ ∈ _, ∀ _ ∈ _, ∀ _ ∈ _, InTime _ _))

/-- A message is mailed; and a mail that is handled is found by its session and returned. -/
def Returned (M : Mailing S UserName) (name : Party → UserName)
    (enc : Party → Enc.Keypair S.exchange) (s : Pair S UserName) : Call M → Prop
  | .send p message rng => ∃ mail, (s.step M name enc (.send p message rng)).2 = .mailed mail
  | .handle p i draws => ∀ message mail, (s.mails p.other)[i]? = some (message, mail) →
      (∃ header session content, mail = .friendMessage header session content ∧
        (s.vault p).friendIndex.get session = some (name p.other)) ∧
      (s.step M name enc (.handle p i draws)).2 = .handled (.ok (some (name p.other, message)))

/-! ### The ratchets in the vaults -/

/-- The mail of a message. -/
def Carries (M : Mailing S UserName) (tags : List (MessageId × Hash))
    (mail : FriendMessage × MailVariant S) (e : MessageHeader S × SharedSecret) : Prop :=
  ∃ session rng, mail.2 = .friendMessage e.1 session (M.newEncrypted mail.1 e.2 rng) ∧
    (e.1.id, session) ∈ tags

/-- The clients hold the ratchets of a conversation, find each other by the receiver hashes, and
have mailed what was sent. -/
structure Follows (M : Mailing S UserName) (name : Party → UserName) (s : Pair S UserName)
    (d : Duplex S) (tags : Tags) : Prop where
  friend : ∀ p, ∃ friend, (s.vault p).friends.get (name p.other) = some friend ∧
    friend.dr = d.ratchet p
  index : ∀ p, (s.vault p).friendIndex.get (d.ratchet p).receiverHash = some (name p.other)
  mails : ∀ p, List.Forall₂ (Carries M (tags p)) (s.mails p) (d.sent p)
  handled : s.handled = d.delivered

variable {name : Party → UserName} {s : Pair S UserName} {d : Duplex S} {tags : Tags} {p : Party}

/-- **A message is mailed.** -/
theorem Follows.send (h : Follows M name s d tags) (enc : Party → Enc.Keypair S.exchange)
    (p : Party) (message : FriendMessage) (rng : M.Rng) :
    (∃ mail, (s.step M name enc (.send p message rng)).2 = .mailed mail) ∧
      Follows M name (s.step M name enc (.send p message rng)).1 (d.step (.send p)).1
        (tags.send d p) := by
  obtain ⟨friend, hfriend, hdr⟩ := h.friend p
  have hprepared : (s.vault p).prepareMessage M (name p.other) message rng =
      .ok ({ friend with dr := (d.ratchet p).send.1 },
        .friendMessage (d.ratchet p).send.2.1 (d.ratchet p).senderHash
          (M.newEncrypted message (d.ratchet p).send.2.2 rng)) := by
    simp only [Vault.prepareMessage, hfriend, hdr]
  simp only [Pair.step, hprepared]
  refine ⟨⟨_, rfl⟩, ?_, ?_, ?_, h.handled⟩
  · intro q
    rcases Party.eq_or_eq_other p q with rfl | rfl
    · simp only [Function.update_self, step_send_ratchet, Vault.writeBack, HashMap.get_insert]
      exact ⟨_, if_pos trivial, rfl⟩
    · simp only [Function.update_of_ne p.other_ne, step_send_ratchet_other]
      exact h.friend _
  · intro q
    rcases Party.eq_or_eq_other p q with rfl | rfl
    · simp only [Function.update_self, step_send_ratchet]
      rw [(DoubleRatchet.send_receiver _).2]
      exact h.index _
    · simp only [Function.update_of_ne p.other_ne, step_send_ratchet_other]
      exact h.index _
  · intro q
    rcases Party.eq_or_eq_other p q with rfl | rfl
    · simp only [Function.update_self, step_send_sent, Tags.send]
      refine List.rel_append ((h.mails _).imp ?_) (.cons ?_ .nil)
      · rintro mail e ⟨session, rng', hmail, htag⟩
        exact ⟨session, rng', hmail, List.mem_append_left _ htag⟩
      · exact ⟨_, rng, rfl, List.mem_append_right _ List.mem_cons_self⟩
    · simp only [Function.update_of_ne p.other_ne, step_send_sent_other, Tags.send]
      exact h.mails _

/-- What a mail carries was sent. -/
theorem Follows.sent (h : Follows M name s d tags) {i : Nat} {message : FriendMessage}
    {mail : MailVariant S} (hmail : (s.mails p)[i]? = some (message, mail)) :
    ∃ header key, (d.sent p)[i]? = some (header, key) ∧
      Carries M (tags p) (message, mail) (header, key) := by
  obtain ⟨hlt, hat⟩ := List.getElem?_eq_some_iff.mp hmail
  have hlen := (h.mails p).length_eq
  have hlt' : i < (d.sent p).length := by omega
  refine ⟨(d.sent p)[i].1, (d.sent p)[i].2, List.getElem?_eq_getElem hlt', ?_⟩
  have hcarries := (h.mails p).get hlt hlt'
  rw [List.get_eq_getElem, List.get_eq_getElem, hat] at hcarries
  exact hcarries

/-- **A mail is found and returned.** -/
theorem Follows.handle (hex : S.exchange.Lawful) (hM : M.Lawful) (h : Follows M name s d tags)
    (hrouted : Routed d tags) (enc : Party → Enc.Keypair S.exchange) {i : Nat} (draws : Draws S)
    (hscheduled : Scheduled name s (.handle (M := M) p i draws))
    (htimely : Timely name s (.handle (M := M) p i draws)) {message : FriendMessage}
    {mail : MailVariant S} (hmail : (s.mails p.other)[i]? = some (message, mail)) :
    (∃ header session content, mail = .friendMessage header session content ∧
        (s.vault p).friendIndex.get session = some (name p.other)) ∧
      (s.step M name enc (.handle p i draws)).2 =
        .handled (.ok (some (name p.other, message))) ∧
      ∃ d', Follows M name (s.step M name enc (.handle p i draws)).1 d' tags ∧ Routed d' tags := by
  obtain ⟨header, key, hsent, session, rng, hcarried, htag⟩ := h.sent hmail
  obtain rfl : mail = .friendMessage header session (M.newEncrypted message key rng) := hcarried
  obtain ⟨friend, hfriend, hdr⟩ := h.friend p
  obtain ⟨hnew, hroom⟩ := hscheduled
  have hroom := hroom friend hfriend _ hmail header rfl
  have htime := htimely friend hfriend _ hmail header rfl
  rw [h.handled] at hnew
  rw [hdr] at hroom htime
  -- the session leads to the friend, and the ratchet has the key
  have hsession := hrouted.session_eq hsent hnew htime htag
  obtain ⟨ratchet, hrecv, hrouted'⟩ := hrouted.deliver hex hsent hnew htime hroom draws
  have hindex : (s.vault p).friendIndex.get session = some (name p.other) := by
    rw [hsession]
    exact h.index p
  have hresult := Vault.handleMessage_ok hindex hfriend (hdr ▸ hrecv)
    (M.decryptMessage_newEncrypted hM message key rng)
  have hstep : s.step M name enc (.handle p i draws) =
      ({ s with
         vault := Function.update s.vault p
           { friendIndex :=
               ((s.vault p).friendIndex.remove session).insert ratchet.receiverHash (name p.other)
             friends := (s.vault p).friends.insert (name p.other) { friend with dr := ratchet } }
         handled := Function.update s.handled p (s.handled p ++ [i]) },
        .handled (.ok (some (name p.other, message)))) := by
    simp only [Pair.step, hmail, Vault.handleSync, hresult]
  rw [hstep]
  refine ⟨⟨header, session, _, rfl, hindex⟩, rfl,
    d.received p i header ratchet (d.accepted p ++ [header]), ⟨?_, ?_, h.mails, ?_⟩, hrouted'⟩
  · intro q
    rcases Party.eq_or_eq_other p q with rfl | rfl
    · simp only [Duplex.received, Function.update_self, HashMap.get_insert]
      exact ⟨_, if_pos trivial, rfl⟩
    · simp only [Duplex.received, Function.update_of_ne p.other_ne]
      exact h.friend _
  · intro q
    rcases Party.eq_or_eq_other p q with rfl | rfl
    · simp only [Duplex.received, Function.update_self, HashMap.get_insert]
      exact if_pos trivial
    · simp only [Duplex.received, Function.update_of_ne p.other_ne]
      exact h.index _
  · simp only [Duplex.received, h.handled]

/-! ### Runs -/

theorem follows_befriended (vault : Party → Vault S UserName) (identity : Party → Hash)
    (secret : SharedSecret) (aliceDraws bobDraws : Draws S) :
    Follows M name (befriended vault name identity secret aliceDraws bobDraws)
      (Duplex.start secret aliceDraws bobDraws) fun _ => [] := by
  refine ⟨?_, ?_, fun p => .nil, rfl⟩
  · intro p
    cases p
    · simp only [befriended, Vault.addFriend, Party.other, HashMap.get_insert]
      exact ⟨_, if_pos trivial, rfl⟩
    · simp only [befriended, Vault.addFriend, Party.other, HashMap.get_insert]
      exact ⟨_, if_pos trivial, rfl⟩
  · intro p
    cases p
    · simp only [befriended, Vault.addFriend, Party.other, HashMap.get_insert]
      exact if_pos rfl
    · simp only [befriended, Vault.addFriend, Party.other, HashMap.get_insert]
      exact if_pos rfl

/-- What a run of messages in time keeps. -/
def Routable (M : Mailing S UserName) (name : Party → UserName) (s : Pair S UserName) : Prop :=
  ∃ d tags, Follows M name s d tags ∧ Routed d tags

theorem Routable.step (hex : S.exchange.Lawful) (hM : M.Lawful) (h : Routable M name s)
    (enc : Party → Enc.Keypair S.exchange) (call : Call M) (hscheduled : Scheduled name s call)
    (htimely : Timely name s call) :
    Returned M name enc s call ∧ Routable M name (s.step M name enc call).1 := by
  obtain ⟨d, tags, hfollows, hrouted⟩ := h
  cases call with
  | send p message rng =>
      obtain ⟨hmailed, hfollows'⟩ := hfollows.send enc p message rng
      have hfits : Fits d (.send p) := by
        obtain ⟨friend, hfriend, hdr⟩ := hfollows.friend p
        rw [Fits, ← hdr]
        exact htimely friend hfriend
      exact ⟨hmailed, _, _, hfollows', hrouted.send hex hfits⟩
  | handle p i draws =>
      cases hmail : (s.mails p.other)[i]? with
      | none =>
          have hstep : s.step M name enc (.handle p i draws) = (s, .nothing) := by
            simp only [Pair.step, hmail]
          rw [hstep]
          refine ⟨?_, d, tags, hfollows, hrouted⟩
          intro message mail hsome
          rw [hmail] at hsome
          cases hsome
      | some entry =>
          obtain ⟨hfound, hresult, d', hfollows', hrouted'⟩ :=
            hfollows.handle hex hM hrouted enc draws hscheduled htimely hmail
          refine ⟨?_, d', tags, hfollows', hrouted'⟩
          intro message mail hsome
          obtain rfl := Option.some.inj (hmail.symm.trans hsome)
          exact ⟨hfound, hresult⟩

/-- **Every message is found and returned** in a run in which the mails are handled in time,
whatever else is in the vaults. -/
theorem messages_returned (hex : S.exchange.Lawful) (hM : M.Lawful)
    (vault : Party → Vault S UserName) (name : Party → UserName)
    (enc : Party → Enc.Keypair S.exchange) (identity : Party → Hash) (secret : SharedSecret)
    (aliceDraws bobDraws : Draws S) (calls : List (Call M))
    (hscheduled : (pairMachine M name enc).EachStep (Scheduled name)
      (befriended vault name identity secret aliceDraws bobDraws) calls)
    (htimely : (pairMachine M name enc).EachStep (Timely name)
      (befriended vault name identity secret aliceDraws bobDraws) calls) :
    (pairMachine M name enc).EachStep (Returned M name enc)
      (befriended vault name identity secret aliceDraws bobDraws) calls := by
  have hstart : Routable M name (befriended vault name identity secret aliceDraws bobDraws) :=
    ⟨_, _, follows_befriended vault identity secret aliceDraws bobDraws,
      routed_start hex secret aliceDraws bobDraws⟩
  apply Machine.eachStep_of_invariant _ _ hstart (hscheduled.and htimely)
  · rintro s call h ⟨hcall, hcall'⟩
    exact (h.step hex hM enc call hcall hcall').2
  · rintro s call h ⟨hcall, hcall'⟩
    exact (h.step hex hM enc call hcall hcall').1

/-! ### Three messages -/

/-- The names of the two. -/
def nameOf : Party → String
  | .alice => "alice"
  | .bob => "bob"

/-- Two new friends who know nobody else. -/
def newFriends : Pair Suite.transparent String :=
  befriended (fun _ => Vault.fromStorage (HashMap.ofList [])) nameOf (fun _ => 0) 0
    (transparentDraws 1) (transparentDraws 2)

/-- `bob` sends three messages, which are handled in an order. -/
def threeMessages (order : List (Nat × Draws Suite.transparent)) :
    List (Call Mailing.transparent) :=
  [.send .bob (.directMessage "one") (), .send .bob (.directMessage "two") (),
    .send .bob (.directMessage "three") ()] ++
    order.map fun (i, draws) => .handle .alice i draws

/-- The first message first, and the answer. -/
theorem messages_returned_answer :
    (pairMachine Mailing.transparent nameOf fun _ => transparentKeys).EachStep
      (Returned Mailing.transparent nameOf fun _ => transparentKeys)
      newFriends
      (threeMessages [(0, transparentDraws 3), (2, transparentDraws 4), (1, transparentDraws 5)] ++
        [.send .alice (.directMessage "four") (), .handle .bob 0 (transparentDraws 6)]) := by
  refine messages_returned Exchange.transparent_lawful Mailing.transparent_lawful _ nameOf _ _ 0
    (transparentDraws 1) (transparentDraws 2) _ ?_ ?_
  · decide
  · decide

/-- The second message of three first: its session is not known yet. -/
theorem overtaking_message_lost :
    let calls := threeMessages [(1, transparentDraws 3)]
    (pairMachine Mailing.transparent nameOf fun _ => transparentKeys).EachStep (Scheduled nameOf)
        newFriends calls ∧
      ¬ (pairMachine Mailing.transparent nameOf fun _ => transparentKeys).EachStep
        (Returned Mailing.transparent nameOf fun _ => transparentKeys) newFriends calls := by
  constructor
  · decide
  · rintro ⟨-, -, -, hreturned, -⟩
    obtain ⟨-, hresult⟩ := hreturned _ _ rfl
    have hmessage := congrArg Reply.isMessage hresult
    exact absurd hmessage (by decide)

end OnionNetwork.Friends
