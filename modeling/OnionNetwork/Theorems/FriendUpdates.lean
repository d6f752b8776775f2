import OnionNetwork.Client.Friends
import OnionNetwork.Lib.Machine
import OnionNetwork.Ratchet.Calls

/-!
# Updates of a friend's ratchet

A message is sent on a clone of the friend, and the clone is written back when the mail has gone
out. Until then mail is handled on the ratchet in the vault, and other messages are sent. What was
done in between is overwritten, and the index keeps the session that it led to. A request under the
name of a friend replaces the ratchet. In a run without either, the index is the one of the friends
and each ratchet is what the mailed and the returned messages make of it (`no_update_lost`).
-/

namespace OnionNetwork.Friends

open Lib Ratchet

variable {S : Suite} {UserName : Type} [DecidableEq UserName] {M : Mailing S UserName}

/-- A call of `send_frined_message` whose mail is on the way: the friend it cloned, and the clone
that it will write back. -/
structure Sending (S : Suite) (UserName : Type) where
  name : UserName
  cloned : FriendMeta S
  frined : FriendMeta S

/-- A client: its vault, and its calls by number; none where the call is over. -/
structure Client (S : Suite) (UserName : Type) [DecidableEq UserName] where
  vault : Vault S UserName
  calls : List (Option (Sending S UserName))

/-- What `send_mail` came to: the mail is out, it is not, or it is out and the answer was lost. -/
inductive Outcome
  | ok
  | failed
  | unanswered
  deriving DecidableEq, Repr

/-- What may happen next: a message is sent, the `send_mail` of a call returns, mail comes in, or a
request of the user's own has gone out. -/
inductive Input (M : Mailing S UserName)
  | send (name : UserName) (message : FriendMessage) (rng : M.Rng)
  | sent (call : Nat) (outcome : Outcome)
  | mail (variant : MailVariant S) (draws : Draws S)
  | requested (name : UserName) (friend : FriendMeta S)

/-- What the user or the network sees of it. -/
inductive Answer (S : Suite) (UserName : Type)
  | mails (variant : MailVariant S)
  | handled (result : Except String (Option (UserName × FriendMessage)))
  | done

namespace Client

/-- A step. -/
def step (M : Mailing S UserName) (enc : Enc.Keypair S.exchange) (c : Client S UserName) :
    Input M → Client S UserName × Answer S UserName
  | .send name message rng =>
      match c.vault.friends.get name, c.vault.prepareMessage M name message rng with
      | some cloned, .ok (frined, variant) =>
          ({ c with calls := c.calls ++ [some ⟨name, cloned, frined⟩] }, .mails variant)
      | _, .error e => (c, .handled (.error e))
      | none, .ok _ => (c, .done)
  | .sent call outcome =>
      match c.calls[call]? with
      | some (some sending) =>
          -- an error of `send_mail` ends the call
          let vault := match outcome with
            | .ok => c.vault.writeBack sending.name sending.frined
            | .failed | .unanswered => c.vault
          ({ vault, calls := c.calls.set call none }, .done)
      | _ => (c, .done)
  | .mail variant draws =>
      let (vault, result) := c.vault.handleSync M enc draws variant
      ({ c with vault }, .handled result)
  | .requested name friend => ({ c with vault := c.vault.addFriend name friend }, .done)

end Client

/-- A client under inputs. -/
def clientMachine (M : Mailing S UserName) (enc : Enc.Keypair S.exchange) :
    Machine (Client S UserName) (Input M) (Answer S UserName) :=
  ⟨Client.step M enc⟩

/-! ### What should be in the ratchets -/

/-- A call of the ratchet that counts: its message was mailed, or returned to the user. -/
inductive Counted (S : Suite)
  | send
  | recv (header : MessageHeader S) (draws : Draws S)

/-- What the call makes of a ratchet. -/
def Counted.apply (dr : DoubleRatchet S) : Counted S → DoubleRatchet S
  | .send => dr.send.1
  | .recv header draws => (dr.recv header draws).1

/-- The ratchet a friendship began with, and the calls that count since then. -/
structure Account (S : Suite) where
  origin : DoubleRatchet S
  calls : List (Counted S)

/-- What all of the calls make of the ratchet. -/
def Account.ratchet (a : Account S) : DoubleRatchet S := a.calls.foldl Counted.apply a.origin

/-- The accounts of all friends. -/
abbrev Ledger (S : Suite) (UserName : Type) := UserName → Option (Account S)

/-- The call that counts, if there is one. -/
def counted (M : Mailing S UserName) (c : Client S UserName) :
    Input M → Option (UserName × Counted S)
  | .sent call outcome =>
      match outcome, c.calls[call]? with
      | .ok, some (some sending) | .unanswered, some (some sending) => some (sending.name, .send)
      | _, _ => none
  | .mail (.friendMessage header session content) draws =>
      match (c.vault.handleMessage M header session content draws).2 with
      | .ok (some (name, _)) => some (name, .recv header draws)
      | _ => none
  | _ => none

/-- The friend that is entered, if there is one. -/
def entered (M : Mailing S UserName) (enc : Enc.Keypair S.exchange) :
    Input M → Option (UserName × FriendMeta S)
  | .mail (.friendRequest cp payload) draws => (Vault.openRequest M enc cp payload draws).toOption
  | .requested name friend => some (name, friend)
  | _ => none

namespace Ledger

/-- A call is entered into the account of a friend. -/
def record (ledger : Ledger S UserName) (name : UserName) (call : Counted S) :
    Ledger S UserName :=
  Function.update ledger name
    ((ledger name).map fun a => { a with calls := a.calls ++ [call] })

/-- An account is opened. One that is there already goes on. -/
def open_ (ledger : Ledger S UserName) (name : UserName) (dr : DoubleRatchet S) :
    Ledger S UserName :=
  Function.update ledger name (some ((ledger name).getD ⟨dr, []⟩))

/-- The accounts after a step. -/
def step (M : Mailing S UserName) (enc : Enc.Keypair S.exchange) (ledger : Ledger S UserName)
    (c : Client S UserName) (input : Input M) : Ledger S UserName :=
  match counted M c input, entered M enc input with
  | some (name, call), _ => ledger.record name call
  | none, some (name, friend) => ledger.open_ name friend.dr
  | none, none => ledger

end Ledger

/-- A client with the accounts of its friends. -/
def accountedMachine (M : Mailing S UserName) (enc : Enc.Keypair S.exchange) :
    Machine (Client S UserName × Ledger S UserName) (Input M) (Answer S UserName) :=
  (clientMachine M enc).withGhost (Ledger.step M enc)

/-- The ratchet of each friend is what the calls that count make of it. -/
def Incorporated (friends : HashMap UserName (FriendMeta S)) (ledger : Ledger S UserName) : Prop :=
  ∀ name, (friends.get name).map FriendMeta.dr = (ledger name).map Account.ratchet

/-- The index leads from the receiver hashes of the friends to their names. -/
def Vault.IndexOfFriends (v : Vault S UserName) : Prop :=
  Indexes FriendMeta.receiverHash v.friendIndex v.friends

/-- A step that overwrites nothing: a call whose mail is out returns to the ratchet that it cloned,
and hears that the mail is out; a message does not give a friend the receiver hash of another one;
a request has a new name and a receiver hash of its own. -/
def Careful (M : Mailing S UserName) (enc : Enc.Keypair S.exchange) (c : Client S UserName)
    (input : Input M) : Prop :=
  match input with
  | .send _ _ _ => True
  | .sent call outcome => outcome ≠ .failed → ∀ sending, c.calls[call]? = some (some sending) →
      outcome = .ok ∧ (c.vault.friends.get sending.name).map FriendMeta.dr = some sending.cloned.dr
  | .mail (.friendMessage header session content) draws =>
      ∀ name friend dr key, c.vault.friendIndex.get session = some name →
        c.vault.friends.get name = some friend → friend.dr.recv header draws = (dr, .ok key) →
        (M.decryptMessage content key).isSome = true →
        KeyFree FriendMeta.receiverHash c.vault.friends name dr.receiverHash
  | .mail (.friendRequest cp payload) draws =>
      ∀ name friend, Vault.openRequest M enc cp payload draws = .ok (name, friend) →
        c.vault.friends.get name = none ∧
          KeyFree FriendMeta.receiverHash c.vault.friends name friend.receiverHash
  | .requested name friend => c.vault.friends.get name = none ∧
      KeyFree FriendMeta.receiverHash c.vault.friends name friend.receiverHash

/-! ### The accounts -/

section Accounts

variable {friends : HashMap UserName (FriendMeta S)} {ledger : Ledger S UserName}
  {name : UserName} {friend : FriendMeta S}

omit [DecidableEq UserName] in
theorem Account.ratchet_append (a : Account S) (call : Counted S) :
    Account.ratchet { a with calls := a.calls ++ [call] } = call.apply a.ratchet := by
  simp [Account.ratchet]

/-- A call that counts reaches the ratchet and the account. -/
theorem Incorporated.record (h : Incorporated friends ledger) {dr : DoubleRatchet S}
    {call : Counted S} (hat : (friends.get name).map FriendMeta.dr = some dr)
    (hcall : friend.dr = call.apply dr) :
    Incorporated (friends.insert name friend) (ledger.record name call) := by
  intro n
  rw [HashMap.get_insert, Ledger.record]
  by_cases hn : n = name
  · subst hn
    rw [h n, Option.map_eq_some_iff] at hat
    obtain ⟨a, ha, hratchet⟩ := hat
    rw [if_pos rfl, Function.update_self, ha, Option.map_some, Option.map_some, Option.map_some,
      Account.ratchet_append, hratchet, hcall]
  · rw [if_neg hn, Function.update_of_ne hn]
    exact h n

/-- An account for a new name. -/
theorem Incorporated.enter (h : Incorporated friends ledger) (hnew : friends.get name = none) :
    Incorporated (friends.insert name friend) (ledger.open_ name friend.dr) := by
  intro n
  rw [HashMap.get_insert, Ledger.open_]
  by_cases hn : n = name
  · subst hn
    have hnone := h n
    rw [hnew, Option.map_none, eq_comm, Option.map_eq_none_iff] at hnone
    rw [if_pos rfl, Function.update_self, hnone]
    rfl
  · rw [if_neg hn, Function.update_of_ne hn]
    exact h n

end Accounts

/-! ### A careful step -/

/-- The index and the ratchets are right, and a call on the way has a clone that sent. -/
structure Kept (s : Client S UserName × Ledger S UserName) : Prop where
  index : s.1.vault.IndexOfFriends
  incorporated : Incorporated s.1.vault.friends s.2
  clones : ∀ sending, some sending ∈ s.1.calls → sending.frined.dr = sending.cloned.dr.send.1

variable {enc : Enc.Keypair S.exchange} {c : Client S UserName} {ledger : Ledger S UserName}

/-- A clone is made. -/
theorem Kept.send (h : Kept (c, ledger)) (name : UserName) (message : FriendMessage)
    (rng : M.Rng) : Kept ((c.step M enc (.send name message rng)).1, ledger) := by
  simp only [Client.step]
  split
  · next cloned frined variant hcloned hprepared =>
      refine ⟨h.index, h.incorporated, ?_⟩
      intro sending hmem
      rcases List.mem_append.mp hmem with hmem | hmem
      · exact h.clones sending hmem
      · -- the new call
        obtain rfl := Option.some.inj (List.mem_singleton.mp hmem)
        simp only [Vault.prepareMessage, hcloned] at hprepared
        obtain ⟨rfl, -⟩ := Prod.mk.inj (Except.ok.inj hprepared)
        rfl
  · exact h
  · exact h

/-- A call returns to the ratchet that it cloned. -/
theorem Kept.sent (h : Kept (c, ledger)) {call : Nat} {outcome : Outcome}
    (hcareful : Careful M enc c (.sent call outcome)) :
    Kept ((c.step M enc (.sent call outcome)).1, ledger.step M enc c (.sent call outcome)) := by
  cases hcall : c.calls[call]? with
  | none =>
      simp only [Client.step, Ledger.step, counted, entered, hcall]
      cases outcome <;> exact h
  | some pending =>
      cases pending with
      | none =>
          simp only [Client.step, Ledger.step, counted, entered, hcall]
          cases outcome <;> exact h
      | some sending =>
          have hclones : ∀ sending', some sending' ∈ c.calls.set call none →
              sending'.frined.dr = sending'.cloned.dr.send.1 := by
            intro sending' hmem
            rcases List.mem_or_eq_of_mem_set hmem with hmem | hnone
            · exact h.clones sending' hmem
            · cases hnone
          have hsent := h.clones sending (List.mem_of_getElem? hcall)
          simp only [Client.step, Ledger.step, counted, entered, hcall]
          cases outcome with
          | failed => exact ⟨h.index, h.incorporated, hclones⟩
          | unanswered =>
              obtain ⟨hok, -⟩ := hcareful (by decide) sending hcall
              cases hok
          | ok =>
              obtain ⟨-, hsame⟩ := hcareful (by decide) sending hcall
              obtain ⟨friend, hfriend, hdr⟩ := Option.map_eq_some_iff.mp hsame
              refine ⟨?_, ?_, hclones⟩
              · refine (indexes_replace_iff h.index hfriend).mpr ?_
                show sending.frined.dr.receiverHash = friend.dr.receiverHash
                rw [hsent, hdr, (DoubleRatchet.send_receiver _).2]
              · exact h.incorporated.record hsame hsent

/-- A message that is returned moves its friend in the index. -/
theorem Kept.message (h : Kept (c, ledger)) {header : MessageHeader S} {session : Hash}
    {content : Bytes} {draws : Draws S}
    (hcareful : Careful M enc c (.mail (.friendMessage header session content) draws)) :
    Kept ((c.step M enc (.mail (.friendMessage header session content) draws)).1,
      ledger.step M enc c (.mail (.friendMessage header session content) draws)) := by
  have hcases := Vault.handleMessage_cases c.vault M header session content draws
  simp only [Client.step, Vault.handleSync, Ledger.step, counted, entered]
  generalize c.vault.handleMessage M header session content draws = r at *
  cases hcases with
  | refused e => exact h
  | @returned nm friend dr key message hindex hfriend hrecv hmessage =>
      have hfree := hcareful nm friend dr key hindex hfriend hrecv (by rw [hmessage]; rfl)
      -- the session that was found is the receiver hash of the friend
      obtain ⟨friend', hfriend', rfl⟩ := (h.index session nm).mp hindex
      obtain rfl := Option.some.inj (hfriend'.symm.trans hfriend)
      have hfree' : KeyFree FriendMeta.receiverHash c.vault.friends nm
          (FriendMeta.receiverHash { friend' with dr }) := hfree
      have hat : (c.vault.friends.get nm).map FriendMeta.dr = some friend'.dr := by
        rw [hfriend]
        rfl
      refine ⟨(indexes_rekey_iff h.index hfriend).mpr hfree', h.incorporated.record hat ?_,
        h.clones⟩
      show dr = (friend'.dr.recv header draws).1
      rw [hrecv]

/-- A friend is entered. -/
theorem Kept.enter (h : Kept (c, ledger)) {name : UserName} {friend : FriendMeta S}
    (hnew : c.vault.friends.get name = none)
    (hfree : KeyFree FriendMeta.receiverHash c.vault.friends name friend.receiverHash) :
    Kept ({ c with vault := c.vault.addFriend name friend }, ledger.open_ name friend.dr) :=
  ⟨(indexes_add_iff h.index hnew).mpr hfree, h.incorporated.enter hnew, h.clones⟩

/-- **One careful step.** -/
theorem Kept.step (h : Kept (c, ledger)) (input : Input M) (hcareful : Careful M enc c input) :
    Kept ((c.step M enc input).1, ledger.step M enc c input) := by
  cases input with
  | send name message rng => exact h.send name message rng
  | sent call outcome => exact h.sent hcareful
  | requested name friend => exact h.enter hcareful.1 hcareful.2
  | mail variant draws =>
      cases variant with
      | friendMessage header session content => exact h.message hcareful
      | friendRequest cp payload =>
          simp only [Client.step, Vault.handleSync, Ledger.step, counted, entered]
          cases hopen : Vault.openRequest M enc cp payload draws with
          | error e => exact h
          | ok entry =>
              obtain ⟨hnew, hfree⟩ := hcareful entry.1 entry.2 hopen
              exact h.enter hnew hfree

/-! ### Runs -/

/-- A client that has loaded its friends, and their accounts. -/
def loaded (friends : HashMap UserName (FriendMeta S)) :
    Client S UserName × Ledger S UserName :=
  (⟨Vault.fromStorage friends, []⟩,
    fun name => (friends.get name).map fun friend => ⟨friend.dr, []⟩)

theorem kept_loaded {friends : HashMap UserName (FriendMeta S)}
    (hdistinct : (friends.entries.map fun e => e.2.receiverHash).Nodup) :
    Kept (loaded friends) := by
  refine ⟨(indexes_ofTable_iff friends).mpr hdistinct, ?_, ?_⟩
  · intro name
    simp only [loaded, Vault.fromStorage, Option.map_map]
    rfl
  · intro sending hmem
    cases hmem

/-- **No update is lost** in a run of careful steps, from friends with receiver hashes of their
own: in every state the index is the one of the friends, and each ratchet is what the mailed and
the returned messages make of it. -/
theorem no_update_lost (M : Mailing S UserName) (enc : Enc.Keypair S.exchange)
    (friends : HashMap UserName (FriendMeta S))
    (hdistinct : (friends.entries.map fun e => e.2.receiverHash).Nodup) (inputs : List (Input M))
    (hcareful : (accountedMachine M enc).EachStep (fun s input => Careful M enc s.1 input)
      (loaded friends) inputs)
    (pre post : List (Input M)) (hsplit : inputs = pre ++ post) :
    let s := (accountedMachine M enc).run (loaded friends) pre
    s.1.vault.IndexOfFriends ∧ Incorporated s.1.vault.friends s.2 := by
  rw [hsplit, Machine.eachStep_append] at hcareful
  have hkept : Kept ((accountedMachine M enc).run (loaded friends) pre) := by
    refine Machine.invariant_run ?_ (kept_loaded hdistinct) hcareful.1
    rintro ⟨c, ledger⟩ input h hinput
    exact h.step input hinput
  exact ⟨hkept.index, hkept.incorporated⟩

/-! ### `alice` and her friend `bob` -/

/-- What `alice` loads: one friend, who has not written yet. -/
def friendsOfAlice : HashMap String (FriendMeta Suite.transparent) :=
  let (dr, _, id) := DoubleRatchet.initiator 0 (transparentDraws 1)
  HashMap.ofList [("bob", { dr, identity := 0, id })]

/-- The ratchet of `bob`. -/
def ratchetOfBob : DoubleRatchet Suite.transparent :=
  (DoubleRatchet.recipient 0 (DoubleRatchet.initiator 0 (transparentDraws 1)).2.1
    (transparentDraws 2)).1

/-- The first message of `bob`. -/
def mailOfBob : Input Mailing.transparent :=
  let (_, header, key) := ratchetOfBob.send
  .mail (.friendMessage header ratchetOfBob.senderHash
    (Mailing.transparent.newEncrypted (.directMessage "hi") key ())) (transparentDraws 3)

/-- The state of `alice` behind a run. -/
def behind (inputs : List (Input Mailing.transparent)) :
    Client Suite.transparent String × Ledger Suite.transparent String :=
  (accountedMachine Mailing.transparent transparentKeys).run (loaded friendsOfAlice) inputs

/-- `alice` writes, and hears from `bob` when her own mail is out. -/
theorem no_update_lost_in_turn :
    let s := (accountedMachine Mailing.transparent transparentKeys).run (loaded friendsOfAlice)
      [.send "bob" (.directMessage "hello") (), .sent 0 .ok, mailOfBob]
    s.1.vault.IndexOfFriends ∧ Incorporated s.1.vault.friends s.2 := by
  refine no_update_lost Mailing.transparent transparentKeys friendsOfAlice (by decide)
    [.send "bob" (.directMessage "hello") (), .sent 0 .ok, mailOfBob] ⟨trivial, ?_, ?_, trivial⟩
    _ [] rfl
  · intro _ sending hcall
    obtain rfl := Option.some.inj (Option.some.inj hcall)
    exact ⟨rfl, rfl⟩
  · -- there is no other friend
    rintro name friend dr key hindex - - - ⟨other, value⟩ hother hne
    let s := behind [.send "bob" (.directMessage "hello") (), .sent 0 .ok]
    have hbob : s.1.vault.friendIndex.get ratchetOfBob.senderHash = some "bob" := by
      decide
    have hall : ∀ e ∈ s.1.vault.friends.entries, e.1 = "bob" := by decide
    rw [← Option.some.inj (hbob.symm.trans hindex)] at hne
    exact absurd (hall _ hother) hne

/-- What the first message of `bob` makes of the index and of the account, and what the mail that
was on its way meanwhile makes of the friend. -/
theorem overlapping_hashes :
    let s := behind [.send "bob" (.directMessage "hello") (), mailOfBob, .sent 0 .ok]
    s.1.vault.friendIndex.get ratchetOfBob.send.1.senderHash = some "bob" ∧
      (s.2 "bob").map (fun a => a.ratchet.receiverHash) = some ratchetOfBob.send.1.senderHash ∧
      (s.1.vault.friends.get "bob").map FriendMeta.receiverHash = some ratchetOfBob.senderHash ∧
      ratchetOfBob.send.1.senderHash ≠ ratchetOfBob.senderHash := by
  decide

/-- A message that is handled while a mail is on its way is undone when the mail is out. -/
theorem overlapping_update_lost :
    let s := (accountedMachine Mailing.transparent transparentKeys).run (loaded friendsOfAlice)
      [.send "bob" (.directMessage "hello") (), mailOfBob, .sent 0 .ok]
    ¬ s.1.vault.IndexOfFriends ∧ ¬ Incorporated s.1.vault.friends s.2 := by
  obtain ⟨hindex, haccount, hfriend, hne⟩ := overlapping_hashes
  constructor
  · intro h
    obtain ⟨friend, hget, hhash⟩ := (h _ _).mp hindex
    have hold := congrArg (Option.map FriendMeta.receiverHash) hget
    exact hne (hhash.symm.trans (Option.some.inj (hold.symm.trans hfriend)))
  · intro h
    have hboth := congrArg (Option.map DoubleRatchet.receiverHash) (h "bob")
    rw [Option.map_map, Option.map_map] at hboth
    exact hne (Option.some.inj (haccount.symm.trans (hboth.symm.trans hfriend)))

end OnionNetwork.Friends
