import OnionNetwork.Chat.Message
import OnionNetwork.Lib.ByteFile
import OnionNetwork.Lib.HeadFrame
import OnionNetwork.Lib.Machine
import OnionNetwork.Server.Profile
import Mathlib.Data.UInt

/-!
# The mailbox file

`append_mail` and `read_mail` of `storage::profile::Handle` on the mailbox
file, whose position they share: `load` puts it at the end, an append writes
wherever it stands, and `read_mail` truncates the file behind its back. A
stored mail is its length as a big-endian `u16` and its bytes; `unpack_mail`
reads such a buffer forwards. Errors of the file system are left out.
-/

namespace OnionNetwork.Server

open Chat Lib

/-- `MAIL_BOX_CAP`. -/
def mailBoxCap : Nat := 1024 * 1024

/-- `MAX_MAIL_SIZE`. -/
def maxMailSize : Nat := 1024 * 8

/-- `unpack_mail`, run to its first `None`; the length of the buffer is enough
fuel. -/
def unpackMailLoop : Nat → Bytes → List Bytes
  | 0, _ => []
  | fuel + 1, buffer =>
      match takeFront 2 buffer with
      | none => []
      | some (len, buffer) =>
          match takeFront (fromBe16 len) buffer with
          | none => []
          | some (mail, buffer) => mail :: unpackMailLoop fuel buffer

def unpackMail (buffer : Bytes) : List Bytes := unpackMailLoop buffer.length buffer

/-- The file of `Handle::mailbox`. -/
abbrev Mailbox := FileCursor UInt8

namespace Mailbox

/-- The mailbox part of `Handle::load`: the file is opened at its start and the
position moved to its end. -/
def load (file : Bytes) : Mailbox := FileCursor.seekEnd ⟨file, 0⟩

/-- `Handle::append_mail`. -/
def appendMail (mailbox : Mailbox) (mail : Bytes) : Except ChatError Mailbox := do
  ensure (mail ≠ []) .pleaseDont
  let nextLen := mailbox.file.length + mail.length
  ensure (nextLen ≤ mailBoxCap) .mailboxFull
  .ok ((mailbox.writeAll (toBe16 mail.length)).writeAll mail)

/-- `Handle::read_mail`. -/
def readMail (mailbox : Mailbox) : Mailbox × Bytes :=
  let (mailbox, buf) := (mailbox.seekStart 0).readToEnd
  (mailbox.setLen 0, buf)

/-- Whether the checks of `append_mail` pass. -/
def Accepts (mailbox : Mailbox) (mail : Bytes) : Prop :=
  mail ≠ [] ∧ mailbox.file.length + mail.length ≤ mailBoxCap

instance (mailbox : Mailbox) (mail : Bytes) : Decidable (mailbox.Accepts mail) :=
  inferInstanceAs (Decidable (_ ∧ _))

theorem appendMail_of_accepts {mailbox : Mailbox} {mail : Bytes} (h : mailbox.Accepts mail) :
    mailbox.appendMail mail = .ok (mailbox.writeAll (logCode.packet mail)) := by
  have hwrite : (mailbox.writeAll (toBe16 mail.length)).writeAll mail =
      mailbox.writeAll (logCode.packet mail) := mailbox.writeAll_writeAll _ _
  simp only [appendMail, ensure_of h.1, ensure_of h.2, hwrite]
  rfl

theorem appendMail_of_not_accepts {mailbox : Mailbox} {mail : Bytes}
    (h : ¬ mailbox.Accepts mail) : ∃ e, mailbox.appendMail mail = .error e := by
  cases happ : mailbox.appendMail mail with
  | error e => exact ⟨e, rfl⟩
  | ok mailbox' =>
      refine absurd ?_ h
      simp only [appendMail, bind_eq_ok, ensure_eq_ok, exists_const] at happ
      exact ⟨happ.1, happ.2.1⟩

/-- A read returns the contents and leaves an empty file, with the position
behind what was read. -/
theorem readMail_eq (mailbox : Mailbox) :
    mailbox.readMail = (⟨[], mailbox.file.length⟩, mailbox.file) := by
  simp [readMail, FileCursor.seekStart, FileCursor.readToEnd, FileCursor.setLen, ByteFile.setLen]

end Mailbox

/-- `unpack_mail` is reading with the framing of the log from the front. -/
theorem unpackMail_eq (buffer : Bytes) : unpackMail buffer = logCode.unpack buffer := by
  have hloop : ∀ fuel buffer, unpackMailLoop fuel buffer = logCode.unpackFuel fuel buffer := by
    intro fuel
    induction fuel with
    | zero => exact fun _ => rfl
    | succ fuel ih =>
        intro buffer
        rw [unpackMailLoop, LenCode.unpackFuel, logCode_width]
        cases takeFront 2 buffer with
        | none => rfl
        | some x =>
            simp only [logCode_dec]
            cases takeFront (fromBe16 x.1) x.2 with
            | none => rfl
            | some y => simp only [ih]
  exact hloop _ _

/-- The mailbox of a profile, as `read_mail` sees it: the profile model keeps the
contents only, and reading both gives the same mail and leaves both empty. -/
theorem readMail_contents (pf : Profile.Handle) (mailbox : Mailbox)
    (h : pf.mailbox = mailbox.file) :
    pf.readMail.2 = mailbox.readMail.2 ∧ pf.readMail.1.mailbox = mailbox.readMail.1.file := by
  rw [Mailbox.readMail_eq]
  exact ⟨h, rfl⟩

/-- A call on the mailbox of a profile. -/
inductive MailCall
  | append (mail : Bytes)
  | read
  deriving DecidableEq

/-- What a call answers. -/
inductive MailReply
  | appended (res : Except ChatError Unit)
  | mail (bytes : Bytes)

/-- One call; a refused append leaves the file as it is. -/
def Mailbox.serve (mailbox : Mailbox) : MailCall → Mailbox × MailReply
  | .append mail =>
      match mailbox.appendMail mail with
      | .ok mailbox => (mailbox, .appended (.ok ()))
      | .error e => (mailbox, .appended (.error e))
  | .read => (mailbox.readMail.1, .mail mailbox.readMail.2)

def mailboxMachine : Machine Mailbox MailCall MailReply := ⟨Mailbox.serve⟩

/-- The mails whose append was accepted, and the mails read so far. -/
structure MailHistory where
  appended : List Bytes
  delivered : List Bytes

/-- How a call extends the history. -/
def MailHistory.extend (history : MailHistory) (mailbox : Mailbox) (call : MailCall) :
    MailHistory :=
  match call, (mailbox.serve call).2 with
  | .append mail, .appended (.ok ()) => { history with appended := history.appended ++ [mail] }
  | .read, .mail bytes => { history with delivered := history.delivered ++ unpackMail bytes }
  | _, _ => history

/-- The mailbox with its history. -/
def mailMachine : Machine (Mailbox × MailHistory) MailCall MailReply :=
  mailboxMachine.withGhost MailHistory.extend

section Step

variable {mailbox : Mailbox} {history : MailHistory} {mail : Bytes}

theorem mailMachine_append (h : mailbox.Accepts mail) :
    (mailMachine.step (mailbox, history) (.append mail)).1 =
      (mailbox.writeAll (logCode.packet mail),
        { history with appended := history.appended ++ [mail] }) := by
  simp [mailMachine, Machine.withGhost, mailboxMachine, Mailbox.serve, MailHistory.extend,
    Mailbox.appendMail_of_accepts h]

theorem mailMachine_refused (h : ¬ mailbox.Accepts mail) :
    (mailMachine.step (mailbox, history) (.append mail)).1 = (mailbox, history) := by
  obtain ⟨e, he⟩ := Mailbox.appendMail_of_not_accepts h
  simp [mailMachine, Machine.withGhost, mailboxMachine, Mailbox.serve, MailHistory.extend, he]

theorem mailMachine_read :
    (mailMachine.step (mailbox, history) .read).1 =
      (⟨[], mailbox.file.length⟩,
        { history with delivered := history.delivered ++ logCode.unpack mailbox.file }) := by
  simp [mailMachine, Machine.withGhost, mailboxMachine, Mailbox.serve, MailHistory.extend,
    Mailbox.readMail_eq, unpackMail_eq]

end Step

end OnionNetwork.Server
