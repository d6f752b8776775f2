import OnionNetwork.Chat.Message
import OnionNetwork.Crypto.Primitives
import OnionNetwork.Lib.HeadFrame
import OnionNetwork.Lib.Loop
import OnionNetwork.Lib.Vec

/-!
# The encrypted stream

`opfusk::Output`: what is written is collected behind a place for a header,
encrypted in place as one chunk

    length (u16) | tag and nonce (28 bytes) | body

and handed to the transport; what is read is collected, decrypted in place a
chunk at a time and delivered. Each buffer is a `Vec` with two indices: up to
the first one it is used up, up to the second one it is encrypted (decrypted).

One call of `poll_write`, `poll_flush` or `poll_read` gets the list of answers
the transport gives to the polls it makes; the transport of a reader is the
bytes on their way and whether the peer has closed.

What it puts on the wire is a sequence of chunks. `sealedBytes` is a chunk on the wire,
`openedBytes` the same chunk after it was decrypted in place; `wire` and `text` are what a
sequence of chunks is on the wire and to the reader.
-/

namespace OnionNetwork.Opfusk

open Chat Lib

/-- `crypto::TAG_SIZE`: the tag and the nonce. -/
def cryptoTagSize : Nat := 16 + 12

/-- `TAG_SIZE`. -/
def tagSize : Nat := cryptoTagSize + 2

/-- `crypto::encrypt` and `crypto::decrypt_separate_tag`, over the AEAD of
another crate: the body is encrypted in place, the tag carries the nonce. -/
structure Aead where
  Rng : Type
  encrypt : Bytes → SharedSecret → Rng → (Bytes × Bytes) × Rng
  decrypt : Bytes → SharedSecret → Bytes → Option Bytes

/-- Decryption undoes encryption, which keeps the length. -/
structure Aead.Lawful (aead : Aead) : Prop where
  length_encrypt (data : Bytes) (secret : SharedSecret) (rng : aead.Rng) :
    (aead.encrypt data secret rng).1.1.length = data.length
  length_tag (data : Bytes) (secret : SharedSecret) (rng : aead.Rng) :
    (aead.encrypt data secret rng).1.2.length = cryptoTagSize
  decrypt_encrypt (data : Bytes) (secret : SharedSecret) (rng : aead.Rng) :
    aead.decrypt (aead.encrypt data secret rng).1.1 secret (aead.encrypt data secret rng).1.2 =
      some data

/-- Encryption that leaves the body as it is. -/
def Aead.plain : Aead where
  Rng := Unit
  encrypt data _ _ := ((data, List.replicate cryptoTagSize 0), ())
  decrypt data _ _ := some data

theorem Aead.plain_lawful : Aead.plain.Lawful where
  length_encrypt _ _ _ := rfl
  length_tag _ _ _ := List.length_replicate
  decrypt_encrypt _ _ _ := rfl

/-- `std::task::Poll`. -/
inductive Poll (α : Type)
  | pending
  | ready (a : α)
  deriving DecidableEq, Repr

/-- What the transport says to one poll. A write of `n` bytes takes what there
is of them, and so does a read. -/
inductive Answer
  | pending
  | ready (n : Nat)
  | failed (e : ErrorKind)
  deriving DecidableEq, Repr

/-- The answer of a transport that never errors, ends or takes nothing. -/
def Answer.Steady : Answer → Prop
  | .pending => True
  | .ready n => 0 < n
  | .failed _ => False

instance : DecidablePred Answer.Steady
  | .pending => isTrue trivial
  | .ready n => inferInstanceAs (Decidable (0 < n))
  | .failed _ => isFalse id

/-- `Output`, without the stream. -/
structure Output (aead : Aead) where
  rng : aead.Rng
  secret : SharedSecret
  readBuffer : Vec UInt8
  readableEnd : Nat
  readableStart : Nat
  chunkReminder : Nat
  writeBuffer : Vec UInt8
  writableEnd : Nat
  writableStart : Nat

namespace Output

variable {aead : Aead}

/-- `Output::new`. -/
def new (rng : aead.Rng) (secret : SharedSecret) (bufferCap : Nat) : Output aead where
  rng
  secret
  readBuffer := .withCapacity bufferCap
  chunkReminder := 0
  readableEnd := 0
  readableStart := 0
  writeBuffer := (Vec.withCapacity bufferCap).extend (List.replicate tagSize 0)
  writableEnd := 0
  writableStart := 0

/-- `Output::encrypt_in_progress`. -/
def encryptInProgress (o : Output aead) : Output aead :=
  let message := (o.writeBuffer.toList.drop o.writableEnd).drop tagSize
  let ((cipher, tag), rng) := aead.encrypt message o.secret o.rng
  let bodyLen := toBe16 message.length
  let writeBuffer := o.writeBuffer.overwrite o.writableEnd (bodyLen ++ tag ++ cipher)
  { o with
    rng
    writableEnd := writeBuffer.toList.length
    writeBuffer := writeBuffer.extend (List.replicate tagSize 0) }

/-- `&write_buffer[writable_start..writable_end]`. -/
def writable (o : Output aead) : Bytes :=
  (o.writeBuffer.toList.take o.writableEnd).drop o.writableStart

end Output

/-! ## Writing -/

/-- A `poll_write` on its way: what is left of the caller's bytes, the answers
the transport has left, and what was handed to it. -/
structure Writing (aead : Aead) where
  out : Output aead
  buf : Bytes
  answers : List Answer
  sent : Bytes

namespace Writing

variable {aead : Aead}

/-- The block `'encrypt`. -/
def encrypt (w : Writing aead) : Outcome (Writing aead) ErrorKind :=
  if w.out.writeBuffer.toList.length - w.out.writableEnd < w.out.writeBuffer.capacity / 2 then
    .next w false
  else .next { w with out := w.out.encryptInProgress } true

/-- The block `'write_inner`. -/
def writeInner (w : Writing aead) : Outcome (Writing aead) ErrorKind :=
  let available := w.out.writable
  if available = [] then .next w false
  else
    match w.answers with
    | [] => .next w false
    | .pending :: answers => .next { w with answers } false
    | .failed e :: answers => .stop { w with answers } e
    | .ready n :: answers =>
        let n := min n available.length
        if n = 0 then .stop { w with answers } .writeZero
        else
          .next
            { w with
              answers
              out := { w.out with writableStart := w.out.writableStart + n }
              sent := w.sent ++ available.take n } true

/-- The block `'gc`. -/
def gc (w : Writing aead) : Outcome (Writing aead) ErrorKind :=
  let o := w.out
  if o.writeBuffer.toList.length < o.writeBuffer.capacity - tagSize ∨ o.writableStart = 0 then
    .next w false
  else
    .next
      { w with
        out :=
          { o with
            writeBuffer := o.writeBuffer.drain o.writableStart
            writableEnd := o.writableEnd - o.writableStart
            writableStart := 0 } } true

/-- The block `'write_buf`. -/
def writeBuf (w : Writing aead) : Outcome (Writing aead) ErrorKind :=
  let toWrite := min (w.out.writeBuffer.spare - tagSize) w.buf.length
  if toWrite = 0 then .next w false
  else
    .next
      { w with
        out := { w.out with writeBuffer := w.out.writeBuffer.fill (w.buf.take toWrite) }
        buf := w.buf.drop toWrite } true

/-- One round of the loop of `poll_write`. -/
def round (w : Writing aead) : Outcome (Writing aead) ErrorKind :=
  ((w.encrypt.andThen writeInner).andThen gc).andThen writeBuf

/-- Enough rounds for the loop to end. -/
def fuel (w : Writing aead) : Nat :=
  64 * (w.buf.length + w.out.writeBuffer.toList.length) + 1

end Writing

namespace Output

variable {aead : Aead}

/-- `Output::poll_write`: the stream, what it handed to the transport, and the
number of bytes accepted. -/
def pollWrite (o : Output aead) (buf : Bytes) (answers : List Answer) :
    Option (Output aead × Bytes × Poll (Except ErrorKind Nat)) :=
  let start : Writing aead := { out := o, buf, answers, sent := [] }
  match whileUpdated Writing.round start.fuel start with
  | none => none
  | some (w, some e) => some (w.out, w.sent, .ready (.error e))
  | some (w, none) =>
      let red := buf.length - w.buf.length
      some (w.out, w.sent, if red = 0 then .pending else .ready (.ok red))

/-- The loop of `poll_flush`, and the flush of the transport behind it. -/
def flushLoop (o : Output aead) (sent : Bytes) :
    List Answer → Output aead × Bytes × Poll (Except ErrorKind Unit)
  | [] => (o, sent, .pending)
  | answer :: answers =>
      let toWrite := o.writable
      match answer with
      | .pending => (o, sent, .pending)
      | .failed e => (o, sent, .ready (.error e))
      | .ready n =>
          if toWrite = [] then (o, sent, .ready (.ok ()))
          else
            let n := min n toWrite.length
            flushLoop { o with writableStart := o.writableStart + n } (sent ++ toWrite.take n)
              answers

/-- `Output::poll_flush`. -/
def pollFlush (o : Output aead) (answers : List Answer) :
    Output aead × Bytes × Poll (Except ErrorKind Unit) :=
  let o := if o.writeBuffer.toList.length - o.writableEnd ≠ tagSize then o.encryptInProgress else o
  o.flushLoop [] answers

end Output

/-! ## Reading -/

/-- A `poll_read` on its way: the room left in the caller's buffer and what was
copied into it, the answers the transport has left, the bytes on their way,
and whether the peer closed behind them. -/
structure Reading (aead : Aead) where
  out : Output aead
  room : Nat
  got : Bytes
  answers : List Answer
  wire : Bytes
  closed : Bool

namespace Reading

variable {aead : Aead}

/-- The block `'gc`. -/
def gc (r : Reading aead) : Outcome (Reading aead) ErrorKind :=
  let o := r.out
  if o.readBuffer.toList.length ≠ o.readBuffer.capacity ∨ o.readableStart = 0 then .next r false
  else
    .next
      { r with
        out :=
          { o with
            readBuffer := o.readBuffer.drain o.readableStart
            readableEnd := o.readableEnd - o.readableStart
            readableStart := 0 } } true

/-- The loop `'read_inner`. Without bytes on their way the transport is pending,
or at its end. -/
def readLoop (r : Reading aead) (updated : Bool) :
    List Answer → Outcome (Reading aead) ErrorKind
  | [] => .next { r with answers := [] } updated
  | answer :: answers =>
      if r.out.readBuffer.spare = 0 then .next { r with answers := answer :: answers } updated
      else
        match answer with
        | .pending => .next { r with answers } updated
        | .failed e => .stop { r with answers } e
        | .ready n =>
            if r.wire = [] then
              if r.closed then .stop { r with answers } .unexpectedEof
              else .next { r with answers } updated
            else
              let n := max 1 (min n (min r.out.readBuffer.spare r.wire.length))
              readLoop
                { r with
                  out := { r.out with readBuffer := r.out.readBuffer.fill (r.wire.take n) }
                  wire := r.wire.drop n } true answers

/-- The block `'read_inner`. -/
def readInner (r : Reading aead) : Outcome (Reading aead) ErrorKind :=
  r.readLoop false r.answers

/-- One turn of the loop `'decyrpt`: `none` without a complete chunk, `some none`
for a chunk that does not decrypt. -/
def decryptOne (o : Output aead) : Option (Option (Output aead)) :=
  match takeFront 2 (o.readBuffer.toList.drop o.readableEnd) with
  | none => none
  | some (len, rest) =>
      let len := fromBe16 len + cryptoTagSize
      match takeFront len rest with
      | none => none
      | some (body, _) =>
          let tag := body.take cryptoTagSize
          let body := body.drop cryptoTagSize
          match aead.decrypt body o.secret tag with
          | none => some none
          | some plain =>
              some (some
                { o with
                  readBuffer := o.readBuffer.overwrite (o.readableEnd + (2 + cryptoTagSize)) plain
                  readableEnd := o.readableEnd + (len + 2) })

/-- The loop `'decyrpt`. -/
def decryptLoop : Nat → Reading aead → Bool → Outcome (Reading aead) ErrorKind
  | 0, r, updated => .next r updated
  | fuel + 1, r, updated =>
      match decryptOne r.out with
      | none => .next r updated
      | some none => .stop r .permissionDenied
      | some (some out) => decryptLoop fuel { r with out } true

/-- The block `'decyrpt`: every chunk takes bytes, so there are fewer than that. -/
def decrypt (r : Reading aead) : Outcome (Reading aead) ErrorKind :=
  decryptLoop r.out.readBuffer.toList.length r false

/-- The block `'advacne_chunk`: start on the next chunk when the last one is
delivered. -/
def advanceChunk (o : Output aead) : Output aead × Bool :=
  if o.chunkReminder ≠ 0 ∨ o.readableStart = o.readableEnd then (o, false)
  else
    ({ o with
       readableStart := o.readableStart + tagSize
       chunkReminder := fromBe16 ((o.readBuffer.toList.drop o.readableStart).take 2) }, true)

/-- The loop `'write_buf`. -/
def writeLoop : Nat → Reading aead → Bool → Outcome (Reading aead) ErrorKind
  | 0, r, updated => .next r updated
  | fuel + 1, r, updated =>
      let (out, advanced) := advanceChunk r.out
      let readLen := min out.chunkReminder r.room
      if readLen = 0 then .next { r with out } (updated || advanced)
      else
        writeLoop fuel
          { r with
            out :=
              { out with
                chunkReminder := out.chunkReminder - readLen
                readableStart := out.readableStart + readLen }
            room := r.room - readLen
            got := r.got ++ (out.readBuffer.toList.drop out.readableStart).take readLen } true

/-- The block `'write_buf`: every turn but the last fills some of the room. -/
def writeBuf (r : Reading aead) : Outcome (Reading aead) ErrorKind :=
  writeLoop (r.room + 1) r false

/-- One round of the loop of `poll_read`. -/
def round (r : Reading aead) : Outcome (Reading aead) ErrorKind :=
  ((r.gc.andThen readInner).andThen decrypt).andThen writeBuf

/-- Enough rounds for the loop to end. -/
def fuel (r : Reading aead) : Nat :=
  4 * (r.wire.length + r.out.readBuffer.toList.length) + 1

end Reading

namespace Output

variable {aead : Aead}

/-- `Output::poll_read` into a buffer of `room` bytes: the stream, the bytes
left on their way, and the bytes read. -/
def pollRead (o : Output aead) (room : Nat) (answers : List Answer) (wire : Bytes)
    (closed : Bool) : Option (Output aead × Bytes × Poll (Except ErrorKind Bytes)) :=
  let start : Reading aead := { out := o, room, got := [], answers, wire, closed }
  match whileUpdated Reading.round start.fuel start with
  | none => none
  | some (r, some e) => some (r.out, r.wire, .ready (.error e))
  | some (r, none) =>
      some (r.out, r.wire, if r.got.length = 0 then .pending else .ready (.ok r.got))

end Output

end OnionNetwork.Opfusk

/-! ## Chunks -/

namespace OnionNetwork.Opfusk

open Chat Lib

/-- A chunk: the encrypted body, its tag, and what it decrypts to. -/
structure Chunk where
  cipher : Bytes
  tag : Bytes
  plain : Bytes

namespace Chunk

/-- The length of the body, the tag and the nonce. -/
def header (c : Chunk) : Bytes := toBe16 c.plain.length ++ c.tag

/-- The chunk on the wire. -/
def sealedBytes (c : Chunk) : Bytes := c.header ++ c.cipher

/-- The chunk in a read buffer, decrypted. -/
def openedBytes (c : Chunk) : Bytes := c.header ++ c.plain

/-- A chunk an `Output` with a buffer of `cap` bytes could have sent. -/
structure Valid (aead : Aead) (secret : SharedSecret) (cap : Nat) (c : Chunk) : Prop where
  decrypt : aead.decrypt c.cipher secret c.tag = some c.plain
  length_tag : c.tag.length = cryptoTagSize
  length_cipher : c.cipher.length = c.plain.length
  plain_pos : 0 < c.plain.length
  fits : c.plain.length + tagSize ≤ cap
  short : c.plain.length < 2 ^ 16

/-- The chunks on the wire, one after the other. -/
def wire (cs : List Chunk) : Bytes := (cs.map sealedBytes).flatten

/-- The chunks in a read buffer, decrypted. -/
def opened (cs : List Chunk) : Bytes := (cs.map openedBytes).flatten

/-- What the chunks say. -/
def text (cs : List Chunk) : Bytes := (cs.map plain).flatten

@[simp] theorem wire_nil : wire [] = [] := rfl

@[simp] theorem wire_cons (c : Chunk) (cs : List Chunk) :
    wire (c :: cs) = c.sealedBytes ++ wire cs :=
  rfl

@[simp] theorem wire_append (cs ds : List Chunk) : wire (cs ++ ds) = wire cs ++ wire ds := by
  simp [wire]

@[simp] theorem opened_nil : opened [] = [] := rfl

@[simp] theorem opened_cons (c : Chunk) (cs : List Chunk) :
    opened (c :: cs) = c.openedBytes ++ opened cs :=
  rfl

@[simp] theorem opened_append (cs ds : List Chunk) :
    opened (cs ++ ds) = opened cs ++ opened ds := by
  simp [opened]

@[simp] theorem text_nil : text [] = [] := rfl

@[simp] theorem text_cons (c : Chunk) (cs : List Chunk) : text (c :: cs) = c.plain ++ text cs :=
  rfl

@[simp] theorem text_append (cs ds : List Chunk) : text (cs ++ ds) = text cs ++ text ds := by
  simp [text]

theorem wire_prefix {cs ds : List Chunk} (h : cs <+: ds) : wire cs <+: wire ds := by
  obtain ⟨es, rfl⟩ := h
  rw [wire_append]
  exact List.prefix_append _ _

theorem text_prefix {cs ds : List Chunk} (h : cs <+: ds) : text cs <+: text ds := by
  obtain ⟨es, rfl⟩ := h
  rw [text_append]
  exact List.prefix_append _ _

/-- The length field reads back. -/
theorem fromBe16_toBe16 {n : Nat} (h : n < 2 ^ 16) : fromBe16 (toBe16 n) = n := logCode.dec_enc n h

theorem length_toBe16 (n : Nat) : (toBe16 n).length = 2 := rfl

variable {aead : Aead} {secret : SharedSecret} {cap : Nat} {c : Chunk}

theorem Valid.length_header (h : c.Valid aead secret cap) : c.header.length = tagSize := by
  rw [header, List.length_append, length_toBe16, h.length_tag]
  rfl

theorem Valid.length_sealedBytes (h : c.Valid aead secret cap) :
    c.sealedBytes.length = tagSize + c.plain.length := by
  rw [sealedBytes, List.length_append, h.length_header, h.length_cipher]

theorem Valid.length_openedBytes (h : c.Valid aead secret cap) :
    c.openedBytes.length = tagSize + c.plain.length := by
  rw [openedBytes, List.length_append, h.length_header]

/-- No chunk is empty on the wire. -/
theorem eq_nil_of_wire {cs : List Chunk} (h : ∀ c ∈ cs, c.Valid aead secret cap)
    (hnil : wire cs = []) : cs = [] := by
  cases cs with
  | nil => rfl
  | cons c cs =>
      have hlen := (h c List.mem_cons_self).length_sealedBytes
      have hc : c.sealedBytes = [] := (List.append_eq_nil_iff.mp hnil).1
      rw [hc] at hlen
      simp [tagSize] at hlen
      omega

/-- No chunk says nothing. -/
theorem eq_nil_of_text {cs : List Chunk} (h : ∀ c ∈ cs, c.Valid aead secret cap)
    (hnil : text cs = []) : cs = [] := by
  cases cs with
  | nil => rfl
  | cons c cs =>
      have hpos := (h c List.mem_cons_self).plain_pos
      have hc : c.plain = [] := (List.append_eq_nil_iff.mp hnil).1
      rw [hc] at hpos
      exact absurd hpos (Nat.lt_irrefl 0)

end Chunk

end OnionNetwork.Opfusk
