import OnionNetwork.Lib.DerivedIndex
import OnionNetwork.Ratchet.DoubleRatchet

/-!
# Friends and their messages

The friends of a vault with the index that leads from a session to a friend, and what
`client-node/src/requests.rs` does with them: `send_frined_message` in its two parts, before the
mail is sent and after it, and `MailVariant::handle_sync`. A chat invite changes the chats only,
and is left out.
-/

namespace OnionNetwork.Friends

open Lib Ratchet

/-- `FriendMessage`. -/
inductive FriendMessage
  | directMessage (content : String)
  deriving DecidableEq, Repr

/-- `FriendRequest`. -/
structure FriendRequest (S : Suite) (UserName : Type) where
  username : UserName
  identity : Hash
  init : InitiatiorKey S

/-- The codec of what is mailed, and the encryption of `chain_api`. A nonce is an argument of its
own type. -/
structure Mailing (S : Suite) (UserName : Type) where
  Rng : Type
  messageBytes : FriendMessage → Bytes
  messageOf : Bytes → Option FriendMessage
  requestOf : Bytes → Option (FriendRequest S UserName)
  encrypt : Bytes → SharedSecret → Rng → Bytes
  decrypt : Bytes → SharedSecret → Option Bytes

/-- What is relied on: decryption undoes encryption, and a message is read back as it was
written. -/
structure Mailing.Lawful {S : Suite} {UserName : Type} (M : Mailing S UserName) : Prop where
  decrypt_encrypt : ∀ plain key rng, M.decrypt (M.encrypt plain key rng) key = some plain
  messageOf_messageBytes : ∀ message, M.messageOf (M.messageBytes message) = some message

variable {S : Suite} {UserName : Type} [DecidableEq UserName] {M : Mailing S UserName}

/-- `Encrypted::new` of a message. -/
def Mailing.newEncrypted (M : Mailing S UserName) (message : FriendMessage) (secret : SharedSecret)
    (rng : M.Rng) : Bytes := M.encrypt (M.messageBytes message) secret rng

/-- `Encrypted::decrypt` of a message. -/
def Mailing.decryptMessage (M : Mailing S UserName) (content : Bytes) (secret : SharedSecret) :
    Option FriendMessage := (M.decrypt content secret).bind M.messageOf

omit [DecidableEq UserName] in
theorem Mailing.decryptMessage_newEncrypted (hM : M.Lawful) (message : FriendMessage)
    (secret : SharedSecret) (rng : M.Rng) :
    M.decryptMessage (M.newEncrypted message secret rng) secret = some message := by
  rw [decryptMessage, newEncrypted, hM.decrypt_encrypt, Option.bind_some, hM.messageOf_messageBytes]

/-- An instance without secrets: a message behind the key it is for. No requests. -/
def Mailing.transparent : Mailing Suite.transparent String where
  Rng := Unit
  messageBytes | .directMessage content => content.toUTF8.data.toList
  messageOf bytes := (String.fromUTF8? ⟨bytes.toArray⟩).map .directMessage
  requestOf _ := none
  encrypt plain key _ := key.toBytes ++ plain
  decrypt content key :=
    if content.take 32 = key.toBytes then some (content.drop 32) else none

theorem Mailing.transparent_lawful : Mailing.transparent.Lawful where
  decrypt_encrypt plain key _ := by
    have hlen : key.toBytes.length = 32 := Hash.length_toBytes key
    simp only [transparent]
    rw [List.take_left' hlen, if_pos rfl, List.drop_left' hlen]
  messageOf_messageBytes := by
    rintro ⟨content⟩
    have hread : String.fromUTF8? content.toUTF8 = some content := dif_pos content.isValidUTF8
    simp only [transparent]
    rw [Array.toArray_toList, hread]
    rfl

/-- Keys of the transparent instance. -/
def transparentKeys : Enc.Keypair Suite.transparent.exchange := ⟨(0 : Hash), (0 : Hash)⟩

/-- `FriendMeta`. -/
structure FriendMeta (S : Suite) where
  dr : DoubleRatchet S
  identity : Hash
  id : SharedSecret

/-- The receiver hash of the ratchet. -/
def FriendMeta.receiverHash (friend : FriendMeta S) : Hash := friend.dr.receiverHash

/-- `Vault`, the part that is about friends. -/
structure Vault (S : Suite) (UserName : Type) [DecidableEq UserName] where
  friendIndex : HashMap Hash UserName
  friends : HashMap UserName (FriendMeta S)

/-- `MailVariant`. -/
inductive MailVariant (S : Suite)
  | friendMessage (header : MessageHeader S) (session : Hash) (content : Bytes)
  | friendRequest (cp : Enc.Ciphertext S.exchange) (payload : Bytes)

namespace Vault

/-- `Vault::from_storage`, of the friends that were loaded. -/
def fromStorage (friends : HashMap UserName (FriendMeta S)) : Vault S UserName where
  friendIndex := HashMap.ofList (friends.entries.map fun e => (e.2.receiverHash, e.1))
  friends

/-- `send_frined_message` up to `send_mail`, on a clone: the friend it will write back, and the
mail. -/
def prepareMessage (v : Vault S UserName) (M : Mailing S UserName) (name : UserName)
    (message : FriendMessage) (rng : M.Rng) : Except String (FriendMeta S × MailVariant S) :=
  match v.friends.get name with
  | none => .error "friend not found"
  | some frined =>
      let session := frined.dr.senderHash
      let (dr, header, ss) := frined.dr.send
      let content := M.newEncrypted message ss rng
      .ok ({ frined with dr }, .friendMessage header session content)

/-- `send_frined_message` behind `send_mail`. -/
def writeBack (v : Vault S UserName) (name : UserName) (frined : FriendMeta S) :
    Vault S UserName :=
  { v with friends := v.friends.insert name frined }

/-- A friend is entered, at the end of `send_friend_request` and of a handled request. -/
def addFriend (v : Vault S UserName) (name : UserName) (friend : FriendMeta S) :
    Vault S UserName where
  friendIndex := v.friendIndex.insert friend.receiverHash name
  friends := v.friends.insert name friend

/-- `MailVariant::handle_sync` of a message. -/
def handleMessage (v : Vault S UserName) (M : Mailing S UserName) (header : MessageHeader S)
    (session : Hash) (content : Bytes) (draws : Draws S) :
    Vault S UserName × Except String (Option (UserName × FriendMessage)) :=
  match v.friendIndex.get session with
  | none => (v, .error "friend not found")
  | some nm =>
      match v.friends.get nm with
      | none => (v, .error "friend not found, wath?")
      | some friend =>
          match friend.dr.recv header draws with
          | (_, .error _) => (v, .error "failed to determine message key")
          | (tempDr, .ok key) =>
              match M.decryptMessage content key with
              | none => (v, .error "failed to decrypt message")
              | some message =>
                  let friend := { friend with dr := tempDr }
                  ({ friendIndex := (v.friendIndex.remove session).insert friend.receiverHash nm
                     friends := v.friends.insert nm friend }, .ok (some (nm, message)))

/-- A message fails and changes nothing, or it is the next one of the friend that its session leads
to. -/
inductive Handled (v : Vault S UserName) (M : Mailing S UserName) (header : MessageHeader S)
    (session : Hash) (content : Bytes) (draws : Draws S) :
    Vault S UserName × Except String (Option (UserName × FriendMessage)) → Prop
  | refused (e : String) : Handled v M header session content draws (v, .error e)
  | returned {nm : UserName} {friend : FriendMeta S} {dr : DoubleRatchet S} {key : SharedSecret}
      {message : FriendMessage} (hindex : v.friendIndex.get session = some nm)
      (hfriend : v.friends.get nm = some friend)
      (hrecv : friend.dr.recv header draws = (dr, .ok key))
      (hmessage : M.decryptMessage content key = some message) :
      Handled v M header session content draws
        ({ friendIndex := (v.friendIndex.remove session).insert dr.receiverHash nm
           friends := v.friends.insert nm { friend with dr } }, .ok (some (nm, message)))

/-- A message of a friend that is found and has a key. -/
theorem handleMessage_ok {v : Vault S UserName} {header : MessageHeader S} {session : Hash}
    {content : Bytes} {draws : Draws S} {nm : UserName} {friend : FriendMeta S}
    {dr : DoubleRatchet S} {key : SharedSecret} {message : FriendMessage}
    (hindex : v.friendIndex.get session = some nm) (hfriend : v.friends.get nm = some friend)
    (hrecv : friend.dr.recv header draws = (dr, .ok key))
    (hmessage : M.decryptMessage content key = some message) :
    v.handleMessage M header session content draws =
      ({ friendIndex := (v.friendIndex.remove session).insert dr.receiverHash nm
         friends := v.friends.insert nm { friend with dr } }, .ok (some (nm, message))) := by
  simp only [handleMessage, hindex, hfriend, hrecv, hmessage]
  rfl

theorem handleMessage_cases (v : Vault S UserName) (M : Mailing S UserName)
    (header : MessageHeader S) (session : Hash) (content : Bytes) (draws : Draws S) :
    Handled v M header session content draws (v.handleMessage M header session content draws) := by
  cases hindex : v.friendIndex.get session with
  | none =>
      simp only [handleMessage, hindex]
      exact .refused _
  | some nm =>
      cases hfriend : v.friends.get nm with
      | none =>
          simp only [handleMessage, hindex, hfriend]
          exact .refused _
      | some friend =>
          cases hrecv : friend.dr.recv header draws with
          | mk dr result =>
              cases result with
              | error e =>
                  simp only [handleMessage, hindex, hfriend, hrecv]
                  exact .refused _
              | ok key =>
                  cases hmessage : M.decryptMessage content key with
                  | none =>
                      simp only [handleMessage, hindex, hfriend, hrecv, hmessage]
                      exact .refused _
                  | some message =>
                      rw [handleMessage_ok hindex hfriend hrecv hmessage]
                      exact .returned hindex hfriend hrecv hmessage

/-- The friend that a request stands for. -/
def openRequest (M : Mailing S UserName) (enc : Enc.Keypair S.exchange)
    (cp : Enc.Ciphertext S.exchange) (payload : Bytes) (draws : Draws S) :
    Except String (UserName × FriendMeta S) :=
  match enc.decapsulate cp with
  | .error _ => .error "fialed to decapsulate friend request"
  | .ok secret =>
      match (M.decrypt payload secret).bind M.requestOf with
      | none => .error "failed to decrypt frined request"
      | some request =>
          let (dr, id) := DoubleRatchet.recipient secret request.init draws
          .ok (request.username, { dr, identity := request.identity, id })

/-- `MailVariant::handle_sync`. -/
def handleSync (v : Vault S UserName) (M : Mailing S UserName) (enc : Enc.Keypair S.exchange)
    (draws : Draws S) :
    MailVariant S → Vault S UserName × Except String (Option (UserName × FriendMessage))
  | .friendMessage header session content => v.handleMessage M header session content draws
  | .friendRequest cp payload =>
      match openRequest M enc cp payload draws with
      | .error e => (v, .error e)
      | .ok (username, friend) => (v.addFriend username friend, .ok none)

end Vault

end OnionNetwork.Friends
