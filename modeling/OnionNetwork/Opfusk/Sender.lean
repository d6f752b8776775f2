import OnionNetwork.Codec.Decode
import OnionNetwork.Opfusk.Output

/-!
# The writing end, with all that can go wrong

`Output::poll_write` and `Output::poll_flush` over a transport that answers each of its polls,
with the indexing, the subtractions and the assertion that can panic, and with the loops as
long as they run. A `Sender` keeps account of the chunks that were encrypted and of what the
transport took.
-/

namespace OnionNetwork.Opfusk

open Chat Lib

/-- The answers to the polls of a transport, in their order: to write, and to flush. -/
structure Transport where
  write : Nat → Answer
  flush : Nat → Answer

/-- The transport takes some bytes in every poll. -/
def Transport.Accepts (t : Transport) : Prop := ∀ k, ∃ n, 0 < n ∧ t.write k = .ready n

/-- A chunk as it is put into the buffer: its length field, the tag and nonce, and the body. -/
structure Emitted where
  lenField : Bytes
  tag : Bytes
  body : Bytes

/-- The chunk on the wire. -/
def Emitted.bytes (c : Emitted) : Bytes := c.lenField ++ c.tag ++ c.body

/-- The length field is the length of the body. -/
def Emitted.Honest (c : Emitted) : Prop := fromBe16 c.lenField = c.body.length

/-- How a poll is left early. -/
inductive Halt
  | panic
  | error (e : ErrorKind)
  deriving DecidableEq

/-- `Output`, the polls that its transport has answered, the chunks encrypted so far and the
bytes that were taken. -/
structure Sender (aead : Aead) where
  out : Output aead
  writes : Nat
  flushes : Nat
  chunks : List Emitted
  sent : Bytes

namespace Sender

variable {aead : Aead}

/-- `Output::new`: too large a capacity is a panic. -/
def new (rng : aead.Rng) (secret : SharedSecret) (bufferSize : Nat) : Option (Sender aead) :=
  if isizeMax < bufferSize then none
  else
    some
      { out := .new rng secret bufferSize
        writes := 0
        flushes := 0
        chunks := []
        sent := [] }

/-- Behind `Output::encrypt_in_progress`. -/
def encrypted (s : Sender aead) : Sender aead :=
  let o := s.out
  let message := (o.writeBuffer.toList.drop o.writableEnd).drop tagSize
  let (cipher, tag) := (aead.encrypt message o.secret o.rng).1
  { s with
    out := o.encryptInProgress
    chunks := s.chunks ++ [⟨toBe16 message.length, tag, cipher⟩] }

/-- `Output::encrypt_in_progress`: the slice from `writable_end` on is split behind a header,
and an assertion of debug builds wants room for the next one. -/
def encryptInProgress (debugAssertions : Bool) (s : Sender aead) : Option (Sender aead) :=
  let o := s.out
  if o.writeBuffer.toList.length < o.writableEnd then none
  else if o.writeBuffer.toList.length - o.writableEnd < tagSize then none
  else if debugAssertions ∧ o.writeBuffer.capacity - o.writeBuffer.toList.length < tagSize then none
  else some s.encrypted

/-- The transport took some of the bytes. -/
def taken (s : Sender aead) (n : Nat) : Sender aead :=
  { s with
    out := { s.out with writableStart := s.out.writableStart + n }
    writes := s.writes + 1
    sent := s.sent ++ s.out.writable.take n }

end Sender

/-- A `poll_write` on its way, with what is left of the caller's bytes. -/
structure Sending (aead : Aead) where
  sender : Sender aead
  buf : Bytes

namespace Sending

variable {aead : Aead}

/-- The block `'encrypt`. -/
def encrypt (debugAssertions : Bool) (w : Sending aead) : Outcome (Sending aead) Halt :=
  let o := w.sender.out
  if o.writeBuffer.toList.length < o.writableEnd then .stop w .panic
  else if o.writeBuffer.toList.length - o.writableEnd < o.writeBuffer.capacity / 2 then
    .next w false
  else
    match w.sender.encryptInProgress debugAssertions with
    | none => .stop w .panic
    | some sender => .next { w with sender } true

/-- The block `'write_inner`. -/
def writeInner (t : Transport) (w : Sending aead) : Outcome (Sending aead) Halt :=
  let s := w.sender
  let o := s.out
  if o.writableEnd < o.writableStart ∨ o.writeBuffer.toList.length < o.writableEnd then
    .stop w .panic
  else
    let available := o.writable
    if available = [] then .next w false
    else
      match t.write s.writes with
      | .pending => .next { w with sender := { s with writes := s.writes + 1 } } false
      | .failed e => .stop { w with sender := { s with writes := s.writes + 1 } } (.error e)
      | .ready n =>
          let n := min n available.length
          if n = 0 then
            .stop { w with sender := { s with writes := s.writes + 1 } } (.error .writeZero)
          else .next { w with sender := s.taken n } true

/-- What the transport took is removed from the buffer. -/
def collected (w : Sending aead) : Sending aead :=
  let o := w.sender.out
  { w with
    sender :=
      { w.sender with
        out :=
          { o with
            writeBuffer := o.writeBuffer.drain o.writableStart
            writableEnd := o.writableEnd - o.writableStart
            writableStart := 0 } } }

/-- The block `'gc`. -/
def gc (w : Sending aead) : Outcome (Sending aead) Halt :=
  let o := w.sender.out
  if o.writeBuffer.capacity < tagSize then .stop w .panic
  else if o.writeBuffer.toList.length < o.writeBuffer.capacity - tagSize ∨ o.writableStart = 0 then
    .next w false
  else if o.writeBuffer.toList.length < o.writableStart ∨ o.writableEnd < o.writableStart then
    .stop w .panic
  else .next w.collected true

/-- Some of the caller's bytes are copied into the room behind the buffer. -/
def filled (w : Sending aead) (toWrite : Nat) : Sending aead :=
  let o := w.sender.out
  { sender :=
      { w.sender with
        out := { o with writeBuffer := o.writeBuffer.fill (w.buf.take toWrite) } }
    buf := w.buf.drop toWrite }

/-- The block `'write_buf`. -/
def writeBuf (w : Sending aead) : Outcome (Sending aead) Halt :=
  let toWrite := min (w.sender.out.writeBuffer.spare - tagSize) w.buf.length
  if toWrite = 0 then .next w false else .next (w.filled toWrite) true

/-- One round of the loop of `poll_write`. -/
def round (debugAssertions : Bool) (t : Transport) (w : Sending aead) :
    Outcome (Sending aead) Halt :=
  (((w.encrypt debugAssertions).andThen (writeInner t)).andThen gc).andThen writeBuf

/-! ### The blocks, case by case -/

section Blocks

variable {debugAssertions : Bool} {t : Transport} {w : Sending aead}

theorem encrypt_idle (hend : w.sender.out.writableEnd ≤ w.sender.out.writeBuffer.toList.length)
    (hhalf : w.sender.out.writeBuffer.toList.length - w.sender.out.writableEnd <
      w.sender.out.writeBuffer.capacity / 2) : w.encrypt debugAssertions = .next w false := by
  rw [encrypt, if_neg (not_lt.mpr hend), if_pos hhalf]

/-- With half of the buffer to encrypt, the block does or panics. -/
theorem encrypt_full (hend : w.sender.out.writableEnd ≤ w.sender.out.writeBuffer.toList.length)
    (hhalf : w.sender.out.writeBuffer.capacity / 2 ≤
      w.sender.out.writeBuffer.toList.length - w.sender.out.writableEnd) :
    w.encrypt debugAssertions =
      match w.sender.encryptInProgress debugAssertions with
      | none => .stop w .panic
      | some sender => .next { w with sender } true := by
  rw [encrypt, if_neg (not_lt.mpr hend), if_neg (not_lt.mpr hhalf)]

theorem writeInner_idle (hstart : w.sender.out.writableStart ≤ w.sender.out.writableEnd)
    (hend : w.sender.out.writableEnd ≤ w.sender.out.writeBuffer.toList.length)
    (hnil : w.sender.out.writable = []) : w.writeInner t = .next w false := by
  rw [writeInner, if_neg (by omega)]
  exact if_pos hnil

theorem writeInner_ready (hstart : w.sender.out.writableStart ≤ w.sender.out.writableEnd)
    (hend : w.sender.out.writableEnd ≤ w.sender.out.writeBuffer.toList.length)
    (hne : w.sender.out.writable ≠ []) {n : Nat} (hn : 0 < n)
    (hwrite : t.write w.sender.writes = .ready n) :
    w.writeInner t =
      .next { w with sender := w.sender.taken (min n w.sender.out.writable.length) } true := by
  have hpos : 0 < w.sender.out.writable.length := List.length_pos_iff.mpr hne
  have hmin : min n w.sender.out.writable.length ≠ 0 := by omega
  rw [writeInner, if_neg (by omega)]
  simp only [if_neg hne, hwrite, if_neg hmin]

theorem gc_idle (hcap : tagSize ≤ w.sender.out.writeBuffer.capacity)
    (h : w.sender.out.writeBuffer.toList.length < w.sender.out.writeBuffer.capacity - tagSize ∨
      w.sender.out.writableStart = 0) : w.gc = .next w false := by
  rw [gc, if_neg (not_lt.mpr hcap), if_pos h]

theorem gc_collects (hcap : tagSize ≤ w.sender.out.writeBuffer.capacity)
    (hstart : w.sender.out.writableStart ≤ w.sender.out.writableEnd)
    (hend : w.sender.out.writableEnd ≤ w.sender.out.writeBuffer.toList.length)
    (h : ¬ (w.sender.out.writeBuffer.toList.length < w.sender.out.writeBuffer.capacity - tagSize ∨
      w.sender.out.writableStart = 0)) : w.gc = .next w.collected true := by
  rw [gc, if_neg (not_lt.mpr hcap), if_neg h, if_neg (by omega)]

end Blocks

end Sending

namespace Sender

variable {aead : Aead}

/-- `Output::poll_write`, if so many rounds are enough for it. -/
def pollWrite (debugAssertions : Bool) (t : Transport) (fuel : Nat) (s : Sender aead)
    (buf : Bytes) : Option (Sender aead × Except Halt (Poll Nat)) :=
  match whileUpdated (Sending.round debugAssertions t) fuel ⟨s, buf⟩ with
  | none => none
  | some (w, some halt) => some (w.sender, .error halt)
  | some (w, none) =>
      let red := buf.length - w.buf.length
      some (w.sender, .ok (if red = 0 then .pending else .ready red))

/-- The loop of `poll_flush`, and the flush of the transport behind it. -/
def flushLoop (t : Transport) : Nat → Sender aead → Option (Sender aead × Except Halt (Poll Unit))
  | 0, _ => none
  | fuel + 1, s =>
      let toWrite := s.out.writable
      if toWrite = [] then
        match t.flush s.flushes with
        | .pending => some ({ s with flushes := s.flushes + 1 }, .ok .pending)
        | .failed e => some ({ s with flushes := s.flushes + 1 }, .error (.error e))
        | .ready _ => some ({ s with flushes := s.flushes + 1 }, .ok (.ready ()))
      else
        match t.write s.writes with
        | .pending => some ({ s with writes := s.writes + 1 }, .ok .pending)
        | .failed e => some ({ s with writes := s.writes + 1 }, .error (.error e))
        | .ready n => flushLoop t fuel (s.taken (min n toWrite.length))

/-- `Output::poll_flush`, if so many polls of the transport are enough for it. -/
def pollFlush (debugAssertions : Bool) (t : Transport) (fuel : Nat) (s : Sender aead) :
    Option (Sender aead × Except Halt (Poll Unit)) :=
  let encrypted :=
    if s.out.writeBuffer.toList.length - s.out.writableEnd ≠ tagSize then
      s.encryptInProgress debugAssertions
    else some s
  match encrypted with
  | none => some (s, .error .panic)
  | some s =>
      let o := s.out
      if o.writableEnd < o.writableStart ∨ o.writeBuffer.toList.length < o.writableEnd then
        some (s, .error .panic)
      else flushLoop t fuel s

/-- The states between the polls of a sender, whatever is written and flushed. -/
inductive Run (debugAssertions : Bool) (t : Transport) (start : Sender aead) : Sender aead → Prop
  | new : Run debugAssertions t start start
  | write {s s' : Sender aead} {fuel : Nat} {buf : Bytes} {r : Except Halt (Poll Nat)}
      (hs : Run debugAssertions t start s)
      (h : s.pollWrite debugAssertions t fuel buf = some (s', r)) : Run debugAssertions t start s'
  | flush {s s' : Sender aead} {fuel : Nat} {r : Except Halt (Poll Unit)}
      (hs : Run debugAssertions t start s)
      (h : s.pollFlush debugAssertions t fuel = some (s', r)) : Run debugAssertions t start s'

end Sender

end OnionNetwork.Opfusk
