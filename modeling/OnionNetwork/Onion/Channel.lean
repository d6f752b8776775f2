import OnionNetwork.Chat.Message
import OnionNetwork.Lib.FramedLoop
import OnionNetwork.Opfusk.Output

/-!
# Relaying bytes

`Channel::poll` alternates between reading into a buffer and writing out of it, until neither
makes progress. It stops at every call of a stream, so the state between two calls says which
call is next (`Next`), and a step is the answer to it. `Relay` keeps what the calls came to: the
bytes that were read, and what was done to the sink.

`Relay.Faithful` is the invariant: what was written and what is still in the buffer are the bytes
that were read (`Relay.Inv.step`). A `Route` is two channels, one for each direction.
-/

namespace OnionNetwork

/-! ## Windows of an array -/

namespace Lib.Fixed

variable {β : Type*} {n : Nat}

/-- `buf[start..stop]`. -/
def slice (buf : Fixed β n) (start stop : Nat) : List β := (buf.toList.take stop).drop start

/-- Write over the array from an offset on, up to its end. -/
def overwrite (buf : Fixed β n) (offset : Nat) (data : List β) : Fixed β n where
  toList :=
    (buf.toList.take offset ++ data ++ buf.toList.drop (offset + data.length)).take n
  length_eq := by
    simp only [List.length_take, List.length_append, List.length_drop, length_eq]
    omega

variable {buf : Fixed β n} {start stop : Nat}

@[simp] theorem length_slice : (buf.slice start stop).length = min stop n - start := by
  simp [slice]

@[simp] theorem slice_self : buf.slice start start = [] := by
  simp [slice]

/-- What was written behind a window becomes part of it. -/
theorem slice_overwrite {data : List β} (hstart : start ≤ stop) (hfits : stop + data.length ≤ n) :
    (buf.overwrite stop data).slice start (stop + data.length) = buf.slice start stop ++ data := by
  have hfront : (buf.toList.take stop).length = stop := by simp; omega
  have htake : ((buf.toList.take stop ++ data ++ buf.toList.drop (stop + data.length)).take n).take
      (stop + data.length) = buf.toList.take stop ++ data := by
    rw [List.take_take, min_eq_left hfits]
    exact List.take_left' (by simp; omega)
  show (((buf.toList.take stop ++ data ++ buf.toList.drop (stop + data.length)).take n).take
    (stop + data.length)).drop start = (buf.toList.take stop).drop start ++ data
  rw [htake, List.drop_append_of_le_length (by omega)]

/-- The front of a window and what is left behind it. -/
theorem take_append_slice (k : Nat) :
    (buf.slice start stop).take k ++ buf.slice (start + k) stop = buf.slice start stop := by
  have hrest : buf.slice (start + k) stop = (buf.slice start stop).drop k := by
    simp [slice]
  rw [hrest, List.take_append_drop]

end Lib.Fixed

namespace Onion

open Lib Opfusk Chat

/-! ## One direction -/

/-- The length of `Channel::buf`. -/
def bufLen : Nat := 1 <<< 14

/-- `Channel`. -/
structure Channel where
  buf : Fixed UInt8 bufLen
  readableStart : Nat
  writtenEnd : Nat

/-- The call that comes next: none outside of `Channel::poll`, one of those it makes of `from` and
`to`, or how it returned an error. In front of a write the loop remembers whether this round has
`updated` anything. -/
inductive Next
  | poll
  | read
  | write (updated : Bool)
  | flush
  | close
  | unexpectedEof
  | writeZero
  | failed (e : ErrorKind)
  deriving DecidableEq, Repr

namespace Channel

/-- `Channel::new`. -/
def new : Channel := ⟨⟨List.replicate bufLen 0, List.length_replicate⟩, 0, 0⟩

/-- `&self.buf[self.readable_start..self.written_end]`. -/
def writeBuf (c : Channel) : Bytes := c.buf.slice c.readableStart c.writtenEnd

/-- The length of `read_buf`. -/
def room (c : Channel) : Nat := bufLen - c.writtenEnd

/-- A full buffer that was partly written out is moved to the front. -/
def compact (c : Channel) : Channel :=
  if c.writtenEnd = bufLen ∧ c.readableStart ≠ 0 then
    { buf := c.buf.overwrite 0 c.writeBuf
      writtenEnd := c.writtenEnd - c.readableStart
      readableStart := 0 }
  else c

/-- What a read left in `read_buf`. -/
def fill (c : Channel) (data : Bytes) : Channel :=
  { c with
    buf := c.buf.overwrite c.writtenEnd data
    writtenEnd := c.writtenEnd + data.length }

/-- What a write took of `write_buf`. -/
def drain (c : Channel) (n : Nat) : Channel := { c with readableStart := c.readableStart + n }

/-- A round of the loop, up to its first call. A round that can neither read nor write is the last
one. -/
def round (c : Channel) : Channel × Next :=
  let c := c.compact
  if c.room ≠ 0 then (c, .read)
  else if c.writeBuf ≠ [] then (c, .write false)
  else (c, .poll)

/-- The end of a round. -/
def endRound (c : Channel) (updated : Bool) : Channel × Next :=
  if updated then c.round else (c, .poll)

/-- The second half of a round. -/
def writeHalf (c : Channel) (updated : Bool) : Channel × Next :=
  if c.writeBuf ≠ [] then (c, .write updated) else c.endRound updated

end Channel

/-- What was done to the sink. -/
inductive SinkCall
  | wrote (data : Bytes)
  | flushed
  | closed
  deriving DecidableEq, Repr

/-- The bytes that a call wrote. -/
def SinkCall.bytes : SinkCall → Bytes
  | wrote data => data
  | flushed | closed => []

/-- A channel, where its `poll` is, the bytes it has read, and what it did to the sink. -/
structure Relay where
  channel : Channel
  next : Next
  read : Bytes
  sink : List SinkCall

/-- What the two streams say when they are called. A read of some bytes hands over as many as
there is room for, and a write of `n` takes what there is of them. -/
structure Answers where
  read : Poll (Except ErrorKind Bytes)
  write : Poll (Except ErrorKind Nat)
  flush : Poll (Except ErrorKind Unit)
  close : Poll (Except ErrorKind Unit)

namespace Relay

/-- A new channel. -/
def new : Relay := ⟨.new, .poll, [], []⟩

/-- The bytes that were written to `to`. -/
def written (r : Relay) : Bytes := r.sink.flatMap SinkCall.bytes

/-- Go on with the next call. -/
def goTo (r : Relay) (cn : Channel × Next) : Relay := { r with channel := cn.1, next := cn.2 }

/-- A call of `Channel::poll`, up to its first call of a stream. -/
def start (r : Relay) : Relay := r.goTo r.channel.round

/-- `from.poll_read` has answered. -/
def afterRead (r : Relay) : Poll (Except ErrorKind Bytes) → Relay
  | .pending => r.goTo (r.channel.writeHalf false)
  | .ready (.error e) => { r with next := .failed e }
  | .ready (.ok bytes) =>
      let data := bytes.take r.channel.room
      if data = [] then
        if r.channel.readableStart = r.channel.writtenEnd then { r with next := .flush }
        else r.goTo (r.channel.writeHalf false)
      else { r with read := r.read ++ data }.goTo ((r.channel.fill data).writeHalf true)

/-- `to.poll_write` has answered. -/
def afterWrite (r : Relay) (updated : Bool) : Poll (Except ErrorKind Nat) → Relay
  | .pending => r.goTo (r.channel.endRound updated)
  | .ready (.error e) => { r with next := .failed e }
  | .ready (.ok n) =>
      let data := r.channel.writeBuf.take n
      if data = [] then { r with next := .writeZero }
      else
        { r with sink := r.sink ++ [SinkCall.wrote data] }.goTo
          ((r.channel.drain data.length).endRound true)

/-- `to.poll_flush` has answered. -/
def afterFlush (r : Relay) : Poll (Except ErrorKind Unit) → Relay
  | .pending => { r with next := .poll }
  | .ready (.error e) => { r with next := .failed e }
  | .ready (.ok ()) => { r with sink := r.sink ++ [.flushed], next := .close }

/-- `to.poll_close` has answered. -/
def afterClose (r : Relay) : Poll (Except ErrorKind Unit) → Relay
  | .pending => { r with next := .poll }
  | .ready (.error e) => { r with next := .failed e }
  | .ready (.ok ()) => { r with sink := r.sink ++ [.closed], next := .unexpectedEof }

/-- From one call to the next. A channel that failed is not polled again. -/
def step (r : Relay) (a : Answers) : Relay :=
  match r.next with
  | .poll => r.start
  | .read => r.afterRead a.read
  | .write updated => r.afterWrite updated a.write
  | .flush => r.afterFlush a.flush
  | .close => r.afterClose a.close
  | .unexpectedEof | .writeZero | .failed _ => r

/-- Channels under every schedule of answers. -/
def machine : Machine Relay Answers Unit := ⟨fun r a => (r.step a, ())⟩

end Relay

/-! ### The invariant -/

namespace Channel

variable {c : Channel}

/-- The indices are in order and inside of the buffer. -/
structure InBounds (c : Channel) : Prop where
  start_le : c.readableStart ≤ c.writtenEnd
  end_le : c.writtenEnd ≤ bufLen

@[simp] theorem length_writeBuf (h : c.InBounds) :
    c.writeBuf.length = c.writtenEnd - c.readableStart := by
  rw [writeBuf, Fixed.length_slice, min_eq_left h.end_le]

theorem writeBuf_eq_nil (h : c.InBounds) : c.writeBuf = [] ↔ c.readableStart = c.writtenEnd := by
  have hle := h.start_le
  rw [← List.length_eq_zero_iff, length_writeBuf h]
  omega

theorem InBounds.compact (h : c.InBounds) : c.compact.InBounds := by
  unfold Channel.compact
  split
  · exact ⟨Nat.zero_le _, Nat.le_trans (Nat.sub_le _ _) h.end_le⟩
  · exact h

/-- Moving the buffer to the front keeps what is to be written. -/
theorem writeBuf_compact (h : c.InBounds) : c.compact.writeBuf = c.writeBuf := by
  have hlength := length_writeBuf h
  have hend := h.end_le
  unfold Channel.compact
  split
  · have hmove : (c.buf.overwrite 0 c.writeBuf).slice 0 (0 + c.writeBuf.length) =
        c.buf.slice 0 0 ++ c.writeBuf := Fixed.slice_overwrite (Nat.le_refl 0) (by omega)
    rw [Nat.zero_add, Fixed.slice_self, List.nil_append, hlength] at hmove
    exact hmove
  · rfl

theorem InBounds.fill {data : Bytes} (h : c.InBounds) (hroom : data.length ≤ c.room) :
    (c.fill data).InBounds := by
  have hend := h.end_le
  unfold Channel.room at hroom
  exact ⟨Nat.le_trans h.start_le (Nat.le_add_right _ _),
    show c.writtenEnd + data.length ≤ bufLen by omega⟩

theorem writeBuf_fill {data : Bytes} (h : c.InBounds) (hroom : data.length ≤ c.room) :
    (c.fill data).writeBuf = c.writeBuf ++ data := by
  have hend := h.end_le
  unfold Channel.room at hroom
  exact Fixed.slice_overwrite h.start_le (by omega)

theorem InBounds.drain {n : Nat} (h : c.InBounds) (hn : n ≤ c.writeBuf.length) :
    (c.drain n).InBounds := by
  have hle := h.start_le
  rw [length_writeBuf h] at hn
  exact ⟨show c.readableStart + n ≤ c.writtenEnd by omega, h.end_le⟩

/-- What was taken, and what is left. -/
theorem take_append_drain (c : Channel) (n : Nat) :
    c.writeBuf.take n ++ (c.drain n).writeBuf = c.writeBuf :=
  Fixed.take_append_slice n

/-- The calls inside of the loop, and its end. -/
def Loops : Next → Prop
  | .poll | .read | .write _ => True
  | _ => False

/-- Until the next call the channel is at most moved to the front. -/
def Continues (c : Channel) (cn : Channel × Next) : Prop :=
  (cn.1 = c ∨ cn.1 = c.compact) ∧ Loops cn.2

theorem continues_round (c : Channel) : c.Continues c.round := by
  simp only [round]
  split
  · exact ⟨.inr rfl, trivial⟩
  · split
    · exact ⟨.inr rfl, trivial⟩
    · exact ⟨.inr rfl, trivial⟩

theorem continues_endRound (c : Channel) (updated : Bool) : c.Continues (c.endRound updated) := by
  cases updated with
  | false => exact ⟨.inl rfl, trivial⟩
  | true => exact c.continues_round

theorem continues_writeHalf (c : Channel) (updated : Bool) : c.Continues (c.writeHalf updated) := by
  unfold writeHalf
  split
  · exact ⟨.inl rfl, trivial⟩
  · exact c.continues_endRound updated

theorem Continues.writeBuf {cn : Channel × Next} (h : c.Continues cn) (hin : c.InBounds) :
    cn.1.writeBuf = c.writeBuf ∧ cn.1.InBounds := by
  rcases h.1 with heq | heq
  · rw [heq]
    exact ⟨rfl, hin⟩
  · rw [heq]
    exact ⟨writeBuf_compact hin, hin.compact⟩

end Channel

namespace Relay

variable {r : Relay}

/-- Behind an end of the source: everything read was written, and the sink was called so far. -/
def Ended (r : Relay) (calls : List SinkCall) : Prop :=
  r.written = r.read ∧ ∃ before, r.sink = before ++ calls

/-- What a channel is for: no byte is lost, doubled or changed, and the end of the source is
reported when everything was written, flushed and closed. -/
structure Faithful (r : Relay) : Prop where
  copied : r.written ++ r.channel.writeBuf = r.read
  inBounds : r.channel.InBounds
  reported : r.next = .unexpectedEof → r.Ended [.flushed, .closed]

/-- With what the calls at the end of the source need. -/
structure Inv (r : Relay) : Prop where
  copied : r.written ++ r.channel.writeBuf = r.read
  inBounds : r.channel.InBounds
  flushing : r.next = .flush → r.channel.writeBuf = []
  closing : r.next = .close → r.channel.writeBuf = [] ∧ r.Ended [.flushed]
  reported : r.next = .unexpectedEof → r.Ended [.flushed, .closed]

theorem Inv.faithful (h : r.Inv) : r.Faithful := ⟨h.copied, h.inBounds, h.reported⟩

theorem inv_new : Relay.new.Inv where
  copied := by
    show [] ++ Channel.new.writeBuf = []
    rw [Channel.writeBuf, List.nil_append]
    exact Fixed.slice_self
  inBounds := ⟨Nat.le_refl 0, Nat.zero_le _⟩
  flushing := nofun
  closing := nofun
  reported := nofun

@[simp] theorem written_goTo (r : Relay) (cn : Channel × Next) : (r.goTo cn).written = r.written :=
  rfl

/-- On the way to the next call nothing is lost. -/
theorem inv_goTo {c : Channel} {cn : Channel × Next} (hcopied : r.written ++ c.writeBuf = r.read)
    (hin : c.InBounds) (hcn : c.Continues cn) : (r.goTo cn).Inv := by
  obtain ⟨hbuf, hin'⟩ := hcn.writeBuf hin
  have hloops : Channel.Loops (r.goTo cn).next := hcn.2
  refine ⟨?_, hin', ?_, ?_, ?_⟩
  · show r.written ++ cn.1.writeBuf = r.read
    rw [hbuf, hcopied]
  · intro hnext
    rw [hnext] at hloops
    cases hloops
  · intro hnext
    rw [hnext] at hloops
    cases hloops
  · intro hnext
    rw [hnext] at hloops
    cases hloops

theorem Inv.start (h : r.Inv) : r.start.Inv :=
  inv_goTo h.copied h.inBounds r.channel.continues_round

/-- A call that failed, or that is to be made again, leaves everything as it was. -/
theorem Inv.leave (h : r.Inv) {next : Next} (hflush : next ≠ .flush) (hclose : next ≠ .close)
    (heof : next ≠ .unexpectedEof) : ({ r with next } : Relay).Inv :=
  ⟨h.copied, h.inBounds, fun hnext => absurd hnext hflush, fun hnext => absurd hnext hclose,
    fun hnext => absurd hnext heof⟩

/-- **A read** goes behind what is to be written. -/
theorem Inv.afterRead (h : r.Inv) (answer : Poll (Except ErrorKind Bytes)) :
    (r.afterRead answer).Inv := by
  cases answer with
  | pending => exact inv_goTo h.copied h.inBounds (r.channel.continues_writeHalf false)
  | ready result =>
      cases result with
      | error e => exact h.leave nofun nofun nofun
      | ok bytes =>
          simp only [Relay.afterRead]
          by_cases hdata : bytes.take r.channel.room = []
          · rw [if_pos hdata]
            by_cases hempty : r.channel.readableStart = r.channel.writtenEnd
            · rw [if_pos hempty]
              have hbuf := (Channel.writeBuf_eq_nil h.inBounds).mpr hempty
              exact ⟨h.copied, h.inBounds, fun _ => hbuf, nofun, nofun⟩
            · rw [if_neg hempty]
              exact inv_goTo h.copied h.inBounds (r.channel.continues_writeHalf false)
          · rw [if_neg hdata]
            have hroom : (bytes.take r.channel.room).length ≤ r.channel.room :=
              List.length_take_le _ _
            refine inv_goTo ?_ (h.inBounds.fill hroom)
              ((r.channel.fill (bytes.take r.channel.room)).continues_writeHalf true)
            show r.written ++ (r.channel.fill (bytes.take r.channel.room)).writeBuf = _
            rw [Channel.writeBuf_fill h.inBounds hroom, ← List.append_assoc, h.copied]

/-- **A write** takes from the front of what is to be written. -/
theorem Inv.afterWrite (h : r.Inv) (updated : Bool) (answer : Poll (Except ErrorKind Nat)) :
    (r.afterWrite updated answer).Inv := by
  cases answer with
  | pending => exact inv_goTo h.copied h.inBounds (r.channel.continues_endRound updated)
  | ready result =>
      cases result with
      | error e => exact h.leave nofun nofun nofun
      | ok n =>
          simp only [Relay.afterWrite]
          by_cases hdata : r.channel.writeBuf.take n = []
          · rw [if_pos hdata]
            exact h.leave nofun nofun nofun
          · rw [if_neg hdata]
            have htaken : (r.channel.writeBuf.take n).length ≤ r.channel.writeBuf.length :=
              List.length_take_le' _ _
            refine inv_goTo ?_ (h.inBounds.drain htaken)
              ((r.channel.drain (r.channel.writeBuf.take n).length).continues_endRound true)
            have hsplit := r.channel.take_append_drain (r.channel.writeBuf.take n).length
            have hself : r.channel.writeBuf.take (r.channel.writeBuf.take n).length =
                r.channel.writeBuf.take n := by simp
            rw [hself] at hsplit
            have hcopied := h.copied
            rw [← hsplit, ← List.append_assoc] at hcopied
            simpa [Relay.written, SinkCall.bytes] using hcopied

/-- The sink is flushed and closed behind the last byte. -/
theorem Inv.afterFlush (h : r.Inv) (hnext : r.next = .flush)
    (answer : Poll (Except ErrorKind Unit)) : (r.afterFlush answer).Inv := by
  cases answer with
  | pending => exact h.leave nofun nofun nofun
  | ready result =>
      cases result with
      | error e => exact h.leave nofun nofun nofun
      | ok u =>
          have hbuf := h.flushing hnext
          have hcopied := h.copied
          have hall : r.written = r.read := by rwa [hbuf, List.append_nil] at hcopied
          have hsame : ({ r with sink := r.sink ++ [.flushed], next := .close } : Relay).written =
              r.written := by simp [Relay.written, SinkCall.bytes]
          refine ⟨?_, h.inBounds, nofun, fun _ => ⟨hbuf, ?_, r.sink, rfl⟩, nofun⟩
          · rw [Relay.afterFlush, hsame]
            exact hcopied
          · rw [Relay.afterFlush, hsame]
            exact hall

theorem Inv.afterClose (h : r.Inv) (hnext : r.next = .close)
    (answer : Poll (Except ErrorKind Unit)) : (r.afterClose answer).Inv := by
  cases answer with
  | pending => exact h.leave nofun nofun nofun
  | ready result =>
      cases result with
      | error e => exact h.leave nofun nofun nofun
      | ok u =>
          obtain ⟨-, hall, before, hsink⟩ := h.closing hnext
          have hsame : ({ r with sink := r.sink ++ [.closed], next := .unexpectedEof } :
              Relay).written = r.written := by simp [Relay.written, SinkCall.bytes]
          refine ⟨?_, h.inBounds, nofun, nofun, fun _ => ⟨?_, before, ?_⟩⟩
          · rw [Relay.afterClose, hsame]
            exact h.copied
          · rw [Relay.afterClose, hsame]
            exact hall
          · show r.sink ++ [.closed] = before ++ [.flushed, .closed]
            rw [hsink, List.append_assoc]
            rfl

/-- **One step**, whatever the streams answer. -/
theorem Inv.step (h : r.Inv) (a : Answers) : (r.step a).Inv := by
  unfold Relay.step
  split
  · exact h.start
  · exact h.afterRead a.read
  · exact h.afterWrite _ a.write
  · next hnext => exact h.afterFlush hnext a.flush
  · next hnext => exact h.afterClose hnext a.close
  · exact h
  · exact h
  · exact h

end Relay

/-! ## Both directions -/

/-- Which part of `Route::poll` runs: none, one of the channels, or it returned an error. -/
inductive Turn
  | poll
  | forward
  | backward
  | ended (e : ErrorKind)
  deriving DecidableEq, Repr

/-- `Route`, with the streams as what its channels made of them, and where its `poll` is. -/
structure Route where
  lastPacket : Nat
  forward : Relay
  backward : Relay
  closed : Bool
  turn : Turn

/-- How a channel failed. -/
def Next.error : Next → Option ErrorKind
  | .unexpectedEof => some .unexpectedEof
  | .writeZero => some .writeZero
  | .failed e => some e
  | _ => none

namespace Route

/-- `Route::new`. -/
def new (now : Nat) : Route := ⟨now, .new, .new, false, .poll⟩

/-- `Route::try_close`: whether it stays open. -/
def tryClose (route : Route) (now interval : Nat) : Route × Bool :=
  if interval < now - route.lastPacket then ({ route with closed := true }, false)
  else (route, true)

/-- Behind a call of the backward channel. -/
def afterBackward (route : Route) (now : Nat) : Route :=
  match route.backward.next.error with
  | some e => { route with turn := .ended e }
  | none =>
      if route.backward.next = .poll then { route with turn := .poll, lastPacket := now }
      else { route with turn := .backward }

/-- Behind a call of the forward channel. -/
def afterForward (route : Route) (now : Nat) : Route :=
  match route.forward.next.error with
  | some e => { route with turn := .ended e }
  | none =>
      if route.forward.next = .poll then
        { route with backward := route.backward.start }.afterBackward now
      else { route with turn := .forward }

/-- `Route::poll`, from one call of a stream to the next. -/
def step (route : Route) (now : Nat) (a : Answers) : Route :=
  match route.turn with
  | .poll =>
      if route.closed then { route with turn := .ended .connectionAborted }
      else { route with forward := route.forward.start }.afterForward now
  | .forward => { route with forward := route.forward.step a }.afterForward now
  | .backward => { route with backward := route.backward.step a }.afterBackward now
  | .ended _ => route

/-- What happens to a route. -/
inductive Input
  | step (now : Nat) (a : Answers)
  | tryClose (now interval : Nat)

/-- Routes, polled and closed in any order. -/
def machine : Machine Route Input Bool where
  step route
    | .step now a => (route.step now a, true)
    | .tryClose now interval => route.tryClose now interval

/-- Both channels keep their invariant. -/
structure Inv (route : Route) : Prop where
  forward : route.forward.Inv
  backward : route.backward.Inv

variable {route : Route}

theorem inv_new (now : Nat) : (new now).Inv := ⟨Relay.inv_new, Relay.inv_new⟩

theorem Inv.tryClose (h : route.Inv) (now interval : Nat) :
    (route.tryClose now interval).1.Inv := by
  unfold Route.tryClose
  split
  · exact ⟨h.forward, h.backward⟩
  · exact h

theorem Inv.afterBackward (h : route.Inv) (now : Nat) : (route.afterBackward now).Inv := by
  unfold Route.afterBackward
  split
  · exact ⟨h.forward, h.backward⟩
  · split <;> exact ⟨h.forward, h.backward⟩

theorem Inv.afterForward (h : route.Inv) (now : Nat) : (route.afterForward now).Inv := by
  unfold Route.afterForward
  split
  · exact ⟨h.forward, h.backward⟩
  · split
    · have hstart : ({ route with backward := route.backward.start } : Route).Inv :=
        ⟨h.forward, h.backward.start⟩
      exact hstart.afterBackward now
    · exact ⟨h.forward, h.backward⟩

/-- A step of a route is a step of one of its channels, or the start of one. -/
theorem Inv.step (h : route.Inv) (now : Nat) (a : Answers) : (route.step now a).Inv := by
  unfold Route.step
  split
  · split
    · exact ⟨h.forward, h.backward⟩
    · have hstart : ({ route with forward := route.forward.start } : Route).Inv :=
        ⟨h.forward.start, h.backward⟩
      exact hstart.afterForward now
  · have hforward : ({ route with forward := route.forward.step a } : Route).Inv :=
      ⟨h.forward.step a, h.backward⟩
    exact hforward.afterForward now
  · have hbackward : ({ route with backward := route.backward.step a } : Route).Inv :=
      ⟨h.forward, h.backward.step a⟩
    exact hbackward.afterBackward now
  · exact h

end Route

end Onion

end OnionNetwork
