import OnionNetwork.Server.Requests
import OnionNetwork.Server.Profile

/-!
# Requests to the chats of a server

How `api::chat` finds the chat a request is about: the membership operations
take the name from the context of their proof, `send_message` takes it from the
topic in the request header.
-/

namespace OnionNetwork.Server

open Chat Lib

variable {cr : Crypto}

/-- `size_of::<crypto::sign::PublicKey>()`: `falcon::PUBLICKEYBYTES` and
`ed25519_dalek::PUBLIC_KEY_LENGTH`. -/
def sizeOfPublicKey : Nat := 897 + 32

/-- `size_of::<crypto::sign::Signature>()`: `falcon::BYTES` and
`ed25519_dalek::SIGNATURE_LENGTH`. -/
def sizeOfSignature : Nat := 668 + 64

/-- `size_of::<Proof<ReminderOwned>>()`: key, nonce, signature and a vector of three words,
rounded up to whole words. -/
def sizeOfProof : Nat := (sizeOfPublicKey + 8 + sizeOfSignature + 24 + 7) / 8 * 8

/-- The length of the body of a `send_message`: key and signature as they are, the nonce as
a number, and the content to the end. -/
def sendMessageBodyLen (proof : Proof cr ReminderOwned) : Nat :=
  sizeOfPublicKey + (base128Encode proof.nonce).length + sizeOfSignature +
    proof.context.bytes.length

/-- The buffer of `dec!(Proof<ReminderOwned>; MAX_MESSAGE_SIZE)`; a longer body is not read. -/
def sendMessageBodyCap : Nat := sizeOfProof + maxMessageSize

namespace Storage

/-- `Storage::get_chat`: the root file of a missing chat cannot be opened. -/
def getChat (s : Storage) (name : ChatName) : Except ChatError Handle :=
  match s.chats name with
  | some h => .ok h
  | none => .error (.io .notFound)

/-- The chat as a request leaves it. -/
def setChat (s : Storage) (name : ChatName) (h : Handle) : Storage :=
  { s with chats := Function.update s.chats name (some h) }

end Storage

/-- The chat a request is served by, given the topic of its header. -/
def Request.chat (topic : ChatName) : Request cr → ChatName
  | addMember _ proof _ _ | updateMember proof _ _ | kickMember _ proof _ => proof.context
  | sendMessage _ _ _ _ => topic

/-- `api::chat::{add_member, update_member, kick_member, send_message}`. -/
def Storage.serveChat (s : Storage) (topic : ChatName) (r : Request cr) :
    Storage × Except Fault Unit :=
  match s.getChat (r.chat topic) with
  | .error e => (s, .error (.chat e))
  | .ok h => (s.setChat (r.chat topic) (h.serve r).1, (h.serve r).2)

/-- `chat_spec::ChatEvent`. -/
inductive ChatEvent
  | message (sender : Identity) (content : ReminderOwned)
  | member (id : Identity) (member : Member)
  | memberRemoved (id : Identity)
  deriving DecidableEq

/-- What the handler makes of a request it has answered with `Ok`. -/
def Request.event : Request cr → ChatEvent
  | addMember _ _ id member | updateMember _ id member => .member id member
  | kickMember _ _ id => .memberRemoved id
  | sendMessage _ _ _ proof => .message proof.identity proof.context

/-- What is pushed to the subscribers of a chat. -/
def Storage.pushed (s : Storage) (topic : ChatName) (r : Request cr) :
    Option (ChatName × ChatEvent) :=
  match (s.serveChat topic r).2 with
  | .ok () => some (r.chat topic, r.event)
  | .error _ => none

/-- The server answers the request with `Ok`. -/
def Storage.Accepts (s : Storage) (topic : ChatName) (r : Request cr) : Prop :=
  (s.serveChat topic r).2 = .ok ()

/-- The server accepts what the chat accepts. -/
theorem Storage.accepts_iff {s : Storage} {topic : ChatName} {r : Request cr} :
    s.Accepts topic r ↔ ∃ h, s.chats (r.chat topic) = some h ∧ h.Accepts r := by
  unfold Storage.Accepts Storage.serveChat Storage.getChat
  cases s.chats (r.chat topic) with
  | none => simp
  | some h => simp [Handle.Accepts]

end OnionNetwork.Server
