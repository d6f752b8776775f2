import OnionNetwork.Lib.Machine
import OnionNetwork.Opfusk.Reader
import OnionNetwork.Opfusk.Writer

/-!
# The stream delivers what was written

Two `Output`s with one secret and one buffer size, and the bytes between them.
`stream_transparent`: whatever is written, flushed and read, in any order and
however the transport cuts and delays it, what is read is a beginning of what
was accepted, and what was flushed can be read to its end.

`eof_lossless_iff` is about the end of the stream: the poll that meets it reports
it ahead of what it just read and of what is buffered, so nothing is lost exactly
if that poll started with everything delivered.
-/

namespace OnionNetwork.Opfusk

open Chat Lib

/-- Both ends, the bytes on their way, everything accepted and returned so far,
and what had been accepted when a flush was last ready. -/
structure Link (aead : Aead) where
  writer : Output aead
  reader : Output aead
  wire : Bytes
  accepted : Bytes
  returned : Bytes
  flushed : Bytes

/-- A poll of one of the ends and the answers its transport gives. -/
inductive LinkCall
  | write (buf : Bytes) (answers : List Answer)
  | flush (answers : List Answer)
  | read (room : Nat) (answers : List Answer)
  deriving Repr

/-- How a poll ended; `stuck` if it did not. -/
inductive LinkResult
  | pending
  | ready
  | failed (e : ErrorKind)
  | stuck
  deriving DecidableEq, Repr

/-- The result of a poll. -/
def Poll.result {α : Type} : Poll (Except ErrorKind α) → LinkResult
  | .pending => .pending
  | .ready (.ok _) => .ready
  | .ready (.error e) => .failed e

namespace Link

variable {aead : Aead}

/-- Two ends that have just shaken hands. -/
def new (writerRng readerRng : aead.Rng) (secret : SharedSecret) (bufferCap : Nat) : Link aead where
  writer := .new writerRng secret bufferCap
  reader := .new readerRng secret bufferCap
  wire := []
  accepted := []
  returned := []
  flushed := []

/-- One poll. -/
def step (s : Link aead) : LinkCall → Link aead × LinkResult
  | .write buf answers =>
      match s.writer.pollWrite buf answers with
      | none => (s, .stuck)
      | some (writer, handed, poll) =>
          let n := match poll with
            | .ready (.ok n) => n
            | _ => 0
          ({ s with writer, wire := s.wire ++ handed, accepted := s.accepted ++ buf.take n },
            poll.result)
  | .flush answers =>
      let (writer, handed, poll) := s.writer.pollFlush answers
      let flushed := match poll with
        | .ready (.ok ()) => s.accepted
        | _ => s.flushed
      ({ s with writer, wire := s.wire ++ handed, flushed }, poll.result)
  | .read room answers =>
      match s.reader.pollRead room answers s.wire false with
      | none => (s, .stuck)
      | some (reader, wire, poll) =>
          let got := match poll with
            | .ready (.ok got) => got
            | _ => []
          ({ s with reader, wire, returned := s.returned ++ got }, poll.result)

end Link

/-- The two ends, poll by poll. -/
def linkMachine (aead : Aead) : Machine (Link aead) LinkCall LinkResult where
  step := Link.step

/-- The transport never errors, ends or takes nothing. -/
def LinkCall.Steady : LinkCall → Prop
  | .write _ answers => ∀ a ∈ answers, a.Steady
  | .flush answers => ∀ a ∈ answers, a.Steady
  | .read _ answers => ∀ a ∈ answers, a.Steady

instance : DecidablePred LinkCall.Steady
  | .write _ answers => inferInstanceAs (Decidable (∀ a ∈ answers, a.Steady))
  | .flush answers => inferInstanceAs (Decidable (∀ a ∈ answers, a.Steady))
  | .read _ answers => inferInstanceAs (Decidable (∀ a ∈ answers, a.Steady))

/-- A read with room, whose transport hands over everything that is on its way. -/
def LinkCall.Drains {aead : Aead} (s : Link aead) : LinkCall → Prop
  | .read room answers => 0 < room ∧ Delivers s.wire answers
  | _ => False

instance {aead : Aead} (s : Link aead) : DecidablePred (LinkCall.Drains s)
  | .read room answers => inferInstanceAs (Decidable (0 < room ∧ Delivers s.wire answers))
  | .write _ _ => isFalse id
  | .flush _ => isFalse id

/-- The poll came to an end without an error. -/
def LinkResult.Fine (r : LinkResult) : Prop := r = .pending ∨ r = .ready

variable {aead : Aead} {cap : Nat} {secret : SharedSecret} {s : Link aead} {call : LinkCall}

/-- Both ends are in their invariants over the same chunks, the transport holds
what the reader did not take, and what was flushed is whole chunks on the wire. -/
def Link.Inv (cap : Nat) (secret : SharedSecret) (s : Link aead) : Prop :=
  ∃ chunks sent taken, s.writer.Writes cap secret chunks sent s.accepted ∧
    s.reader.Reads cap secret chunks taken s.returned ∧ taken ++ s.wire = sent ∧
    ∃ whole, whole <+: chunks ∧ s.flushed = Chunk.text whole ∧ Chunk.wire whole <+: sent

theorem Output.Writes.sent_prefix {o : Output aead} {chunks : List Chunk} {sent accepted : Bytes}
    (h : o.Writes cap secret chunks sent accepted) : sent <+: Chunk.wire chunks := by
  obtain ⟨gone, pending, header, progress, hw⟩ := h
  exact ⟨pending, hw.sent_eq⟩

theorem Output.Writes.text_prefix {o : Output aead} {chunks : List Chunk} {sent accepted : Bytes}
    (h : o.Writes cap secret chunks sent accepted) : Chunk.text chunks <+: accepted := by
  obtain ⟨gone, pending, header, progress, hw⟩ := h
  exact ⟨progress, hw.accepted_eq.symm⟩

theorem Output.Writes.valid {o : Output aead} {chunks : List Chunk} {sent accepted : Bytes}
    (h : o.Writes cap secret chunks sent accepted) : ∀ c ∈ chunks, c.Valid aead secret cap := by
  obtain ⟨gone, pending, header, progress, hw⟩ := h
  exact hw.valid

theorem link_new_inv (writerRng readerRng : aead.Rng) (hlo : 62 ≤ cap) :
    (Link.new writerRng readerRng secret cap).Inv cap secret := by
  refine ⟨[], [], [], Output.new_writes writerRng ?_, Output.new_reads readerRng ?_, rfl, [], ?_,
    rfl, ?_⟩
  · simp only [tagSize, cryptoTagSize]
    omega
  · intro c hc
    cases hc
  · exact List.nil_prefix
  · exact List.nil_prefix

/-- What a poll of the writer leaves to show for the rest of the link. -/
theorem link_writer_inv {writer : Output aead} {handed accepted flushed : Bytes}
    {chunks more : List Chunk} {sent taken : Bytes}
    (hwriter : writer.Writes cap secret (chunks ++ more) (sent ++ handed) accepted)
    (hreader : s.reader.Reads cap secret chunks taken s.returned) (htaken : taken ++ s.wire = sent)
    (hflushed : ∃ whole, whole <+: chunks ++ more ∧ flushed = Chunk.text whole ∧
      Chunk.wire whole <+: sent ++ handed) :
    ({ s with writer, wire := s.wire ++ handed, accepted, flushed } : Link aead).Inv cap
      secret := by
  refine ⟨chunks ++ more, sent ++ handed, taken, hwriter, hreader.mono hwriter.valid, ?_, hflushed⟩
  show taken ++ (s.wire ++ handed) = sent ++ handed
  rw [← List.append_assoc, htaken]

/-- Whole chunks stay on the wire. -/
theorem whole_mono {chunks more : List Chunk} {sent handed flushed : Bytes}
    (h : ∃ whole, whole <+: chunks ∧ flushed = Chunk.text whole ∧ Chunk.wire whole <+: sent) :
    ∃ whole, whole <+: chunks ++ more ∧ flushed = Chunk.text whole ∧
      Chunk.wire whole <+: sent ++ handed := by
  obtain ⟨whole, hwhole, hflushed, hwire⟩ := h
  exact ⟨whole, hwhole.trans (List.prefix_append _ _), hflushed,
    hwire.trans (List.prefix_append _ _)⟩

/-- A poll keeps the invariant and comes to an end without an error. -/
theorem link_step (law : aead.Lawful) (hlo : 62 ≤ cap) (hhi : cap ≤ 2 ^ 16)
    (h : s.Inv cap secret) (hcall : call.Steady) :
    (s.step call).1.Inv cap secret ∧ (s.step call).2.Fine := by
  obtain ⟨chunks, sent, taken, hwriter, hreader, htaken, hwhole⟩ := h
  cases call with
  | write buf answers =>
      obtain ⟨writer, handed, n, more, hpoll, hwriter'⟩ :=
        Output.pollWrite_spec law hlo hhi hwriter buf hcall
      simp only [Link.step, hpoll]
      by_cases hn : n = 0
      · simp only [if_pos hn]
        rw [hn] at hwriter'
        exact ⟨link_writer_inv hwriter' hreader htaken (whole_mono hwhole), .inl rfl⟩
      · simp only [if_neg hn]
        exact ⟨link_writer_inv hwriter' hreader htaken (whole_mono hwhole), .inr rfl⟩
  | flush answers =>
      obtain ⟨writer, handed, poll, more, hpoll, hwriter', hready⟩ :=
        Output.pollFlush_spec law hhi hwriter hcall
      simp only [Link.step, hpoll]
      rcases hready with rfl | ⟨rfl, hsent, haccepted⟩
      · exact ⟨link_writer_inv hwriter' hreader htaken (whole_mono hwhole), .inl rfl⟩
      · refine ⟨link_writer_inv hwriter' hreader htaken ?_, .inr rfl⟩
        exact ⟨chunks ++ more, List.prefix_rfl, haccepted, by rw [hsent]⟩
  | read room answers =>
      rcases Output.pollRead_spec hwriter.sent_prefix hreader htaken room hcall false with
        ⟨reader, wire, got, hpoll, ⟨taken', htaken', hreader'⟩, -⟩ | ⟨hf, -⟩
      · simp only [Link.step, hpoll]
        by_cases hgot : got.length = 0
        · simp only [if_pos hgot]
          rw [List.length_eq_zero_iff.mp hgot] at hreader'
          exact ⟨⟨chunks, sent, taken', hwriter, hreader', htaken', hwhole⟩, .inl rfl⟩
        · simp only [if_neg hgot]
          exact ⟨⟨chunks, sent, taken', hwriter, hreader', htaken', hwhole⟩, .inr rfl⟩
      · cases hf

/-- What was returned is a beginning of what was accepted, and so is what was
flushed. -/
theorem link_prefixes (h : s.Inv cap secret) :
    s.returned <+: s.accepted ∧ s.flushed <+: s.accepted := by
  obtain ⟨chunks, sent, taken, hwriter, hreader, -, whole, hwhole, hflushed, -⟩ := h
  refine ⟨hreader.returned_prefix.trans hwriter.text_prefix, ?_⟩
  rw [hflushed]
  exact (Chunk.text_prefix hwhole).trans hwriter.text_prefix

/-- A reader that is up to date returned what was flushed. -/
theorem flushed_le_of_upToDate {chunks : List Chunk} {sent returned flushed : Bytes}
    (h : Output.UpToDate chunks sent returned)
    (hwhole : ∃ whole, whole <+: chunks ∧ flushed = Chunk.text whole ∧ Chunk.wire whole <+: sent) :
    flushed.length ≤ returned.length := by
  obtain ⟨done, rest, rfl, rfl, hnext⟩ := h
  obtain ⟨whole, hwhole, rfl, hwire⟩ := hwhole
  rcases List.prefix_or_prefix_of_prefix hwhole (List.prefix_append done rest) with hle | hle
  · exact (Chunk.text_prefix hle).length_le
  · obtain ⟨extra, rfl⟩ := hle
    cases extra with
    | nil =>
        rw [List.append_nil]
    | cons c extra =>
        -- the chunk after the returned ones is on the wire
        obtain ⟨behind, hbehind⟩ := (List.prefix_append_right_inj done).mp hwhole
        refine absurd ?_ (hnext c (extra ++ behind) hbehind.symm)
        refine List.IsPrefix.trans (Chunk.wire_prefix ?_) hwire
        exact ⟨extra, by rw [List.append_assoc, List.singleton_append]⟩

/-- A read that drains the transport returns a byte while flushed ones are left. -/
theorem link_drain (h : s.Inv cap secret) (hcall : call.Steady) (hdrains : call.Drains s) :
    (s.step call).1.flushed = s.flushed ∧
      min s.flushed.length (s.returned.length + 1) ≤ (s.step call).1.returned.length := by
  obtain ⟨chunks, sent, taken, hwriter, hreader, htaken, hwhole⟩ := h
  cases call with
  | write buf answers => exact hdrains.elim
  | flush answers => exact hdrains.elim
  | read room answers =>
      obtain ⟨hroom, hdelivers⟩ := hdrains
      rcases Output.pollRead_spec hwriter.sent_prefix hreader htaken room hcall false with
        ⟨reader, wire, got, hpoll, -, hquiet⟩ | ⟨hf, -⟩
      · simp only [Link.step, hpoll]
        by_cases hgot : got.length = 0
        · have hupto := hquiet hdelivers hroom (List.length_eq_zero_iff.mp hgot)
          have hle := flushed_le_of_upToDate hupto hwhole
          simp only [if_pos hgot, List.append_nil]
          exact ⟨trivial, Nat.le_trans (Nat.min_le_left _ _) hle⟩
        · simp only [if_neg hgot, List.length_append]
          exact ⟨trivial, by omega⟩
      · cases hf

/-- Draining reads return the flushed bytes one by one, at least. -/
theorem link_drain_run (law : aead.Lawful) (hlo : 62 ≤ cap) (hhi : cap ≤ 2 ^ 16)
    (h : s.Inv cap secret) {reads : List LinkCall} (hreads : ∀ call ∈ reads, call.Steady)
    (hdrain : (linkMachine aead).EachStep (fun s call => call.Drains s) s reads) :
    ((linkMachine aead).run s reads).flushed = s.flushed ∧
      min s.flushed.length (s.returned.length + reads.length) ≤
        ((linkMachine aead).run s reads).returned.length := by
  induction reads generalizing s with
  | nil => exact ⟨rfl, Nat.min_le_right _ _⟩
  | cons call reads ih =>
      obtain ⟨hcall, hreads⟩ := List.forall_mem_cons.mp hreads
      obtain ⟨hnow, hlater⟩ := hdrain
      obtain ⟨hinv, -⟩ := link_step law hlo hhi h hcall
      obtain ⟨hflushed, hmore⟩ := link_drain h hcall hnow
      obtain ⟨hflushed', hrest⟩ := ih hinv hreads hlater
      rw [hflushed] at hrest
      refine ⟨hflushed'.trans hflushed, Nat.le_trans ?_ hrest⟩
      rw [List.length_cons]
      omega

/-- **Transparency of the encrypted stream.** Over any run of polls on both ends
and a transport that never errors, ends or takes nothing: every poll comes to
an end without an error, what was returned is a beginning of what was accepted,
and then any reads whose transport hands over what it holds return everything
that had been accepted when a flush was last ready, at least a byte each. -/
theorem stream_transparent {aead : Aead} (law : aead.Lawful) {cap : Nat} (hlo : 62 ≤ cap)
    (hhi : cap ≤ 65536) (secret : SharedSecret) (writerRng readerRng : aead.Rng)
    (calls : List LinkCall) (hcalls : ∀ call ∈ calls, call.Steady) :
    let m := linkMachine aead
    let s := m.run (Link.new writerRng readerRng secret cap) calls
    m.EachStep (fun s call => (m.step s call).2.Fine)
      (Link.new writerRng readerRng secret cap) calls ∧
      s.returned <+: s.accepted ∧
      ∀ reads : List LinkCall, (∀ call ∈ reads, call.Steady) →
        m.EachStep (fun s call => call.Drains s) s reads → s.flushed.length ≤ reads.length →
        s.flushed <+: (m.run s reads).returned := by
  intro m s
  have hkeep : ∀ s call, Link.Inv cap secret s → call.Steady →
      Link.Inv cap secret (m.step s call).1 := fun s call h hc => (link_step law hlo hhi h hc).1
  have hnew : (Link.new writerRng readerRng secret cap).Inv cap secret :=
    link_new_inv writerRng readerRng hlo
  have hsteady := Machine.EachStep.of_forall (m := m) hcalls
    (Link.new writerRng readerRng secret cap)
  have hs : s.Inv cap secret := Machine.invariant_run hkeep hnew hsteady
  refine ⟨?_, (link_prefixes hs).1, ?_⟩
  · exact Machine.eachStep_of_invariant hkeep (fun s call h hc => (link_step law hlo hhi h hc).2)
      hnew hsteady
  · intro reads hreads hdrain hlen
    have hafter : (m.run s reads).Inv cap secret :=
      Machine.invariant_run hkeep hs (Machine.EachStep.of_forall hreads s)
    obtain ⟨hflushed, hcount⟩ : (m.run s reads).flushed = s.flushed ∧
        min s.flushed.length (s.returned.length + reads.length) ≤
          (m.run s reads).returned.length := link_drain_run law hlo hhi hs hreads hdrain
    refine List.prefix_of_prefix_length_le ?_ (link_prefixes hafter).1 ?_
    · rw [← hflushed]
      exact (link_prefixes hafter).2
    · rw [Nat.min_eq_left (Nat.le_trans hlen (Nat.le_add_left _ _))] at hcount
      exact hcount

/-- Three bytes are written, flushed through a transport that takes two bytes at
first, and read two at a time. -/
theorem stream_transparent_three :
    let calls : List LinkCall :=
      [.write [1, 2, 3] [.pending], .flush [.ready 2, .pending], .read 2 [.ready 1, .pending],
        .flush [.ready 100, .ready 1]]
    let reads : List LinkCall := List.replicate 3 (.read 2 (List.replicate 33 (.ready 7)))
    let m := linkMachine Aead.plain
    let s := m.run (Link.new () () 0 128) calls
    s.flushed = [1, 2, 3] ∧ s.flushed <+: (m.run s reads).returned := by
  intro calls reads m s
  obtain ⟨-, -, hreads⟩ := stream_transparent Aead.plain_lawful (show 62 ≤ 128 by decide)
    (show 128 ≤ 65536 by decide) 0 () () calls (by decide)
  refine ⟨by decide, hreads reads (by decide) (by decide) (by decide)⟩

/-! ## The end of the stream -/

/-- A reader, the bytes on their way, behind which the transport is at its end,
and what was returned so far. -/
structure Ending (aead : Aead) where
  reader : Output aead
  wire : Bytes
  returned : Bytes

namespace Ending

/-- A new reader and the chunks of a stream that is over. -/
def new {aead : Aead} (rng : aead.Rng) (secret : SharedSecret) (bufferCap : Nat)
    (chunks : List Chunk) : Ending aead where
  reader := .new rng secret bufferCap
  wire := Chunk.wire chunks
  returned := []

/-- One `poll_read`, with the room and the answers of the transport. -/
def step {aead : Aead} (s : Ending aead) (call : Nat × List Answer) : Ending aead × LinkResult :=
  match s.reader.pollRead call.1 call.2 s.wire true with
  | none => (s, .stuck)
  | some (reader, wire, poll) =>
      let got := match poll with
        | .ready (.ok got) => got
        | _ => []
      ({ reader, wire, returned := s.returned ++ got }, poll.result)

/-- Nothing is on its way and nothing in the buffer. -/
def Drained {aead : Aead} (s : Ending aead) : Prop :=
  s.wire = [] ∧ s.reader.readableStart = s.reader.readBuffer.toList.length

instance {aead : Aead} (s : Ending aead) : Decidable s.Drained :=
  inferInstanceAs (Decidable (_ ∧ _))

end Ending

/-- The reader of a stream that is over, poll by poll. -/
def endingMachine (aead : Aead) : Machine (Ending aead) (Nat × List Answer) LinkResult where
  step := Ending.step

/-- The reader is in its invariant and the transport holds the rest. -/
def Ending.Inv {aead : Aead} (cap : Nat) (secret : SharedSecret) (chunks : List Chunk)
    (e : Ending aead) : Prop :=
  ∃ taken, taken ++ e.wire = Chunk.wire chunks ∧
    e.reader.Reads cap secret chunks taken e.returned

variable {chunks : List Chunk} {e : Ending aead} {poll : Nat × List Answer}

/-- A poll that does not report the end keeps the invariant; one that does
returns nothing. -/
theorem ending_step (h : e.Inv cap secret chunks) (hpoll : ∀ a ∈ poll.2, a.Steady) :
    ((e.step poll).2 ≠ .failed .unexpectedEof → (e.step poll).1.Inv cap secret chunks) ∧
      ((e.step poll).2 = .failed .unexpectedEof → (e.step poll).1.returned = e.returned) := by
  obtain ⟨taken, htaken, hreader⟩ := h
  rcases Output.pollRead_spec List.prefix_rfl hreader htaken poll.1 hpoll true with
    ⟨reader, wire, got, hread, ⟨taken', htaken', hreader'⟩, -⟩ | ⟨-, reader, wire, hread⟩
  · simp only [Ending.step, hread]
    by_cases hgot : got.length = 0
    · simp only [if_pos hgot]
      rw [List.length_eq_zero_iff.mp hgot] at hreader'
      refine ⟨fun _ => ⟨taken', htaken', hreader'⟩, ?_⟩
      intro hf
      cases hf
    · simp only [if_neg hgot]
      refine ⟨fun _ => ⟨taken', htaken', hreader'⟩, ?_⟩
      intro hf
      cases hf
  · simp only [Ending.step, hread]
    refine ⟨?_, ?_⟩
    · intro hne
      exact absurd rfl hne
    · intro _
      exact List.append_nil _

/-- All chunks are returned exactly when nothing is left anywhere. -/
theorem returned_all_iff (h : e.Inv cap secret chunks) :
    e.returned = Chunk.text chunks ↔ e.Drained := by
  obtain ⟨taken, htaken, junk, cur, raw, done, dec, rest, rfl, hr⟩ := h
  have hlength := hr.length_buffer
  constructor
  · intro hall
    have hsplit : cur ++ Chunk.text (dec ++ rest) = [] := by
      have heq : e.returned ++ (cur ++ Chunk.text (dec ++ rest)) = e.returned ++ [] := by
        rw [← List.append_assoc, hr.returned_eq, ← Chunk.text_append, ← List.append_assoc,
          List.append_nil]
        exact hall.symm
      exact List.append_cancel_left heq
    -- no chunk is empty, so no chunk is left
    obtain ⟨rfl, htext⟩ := List.append_eq_nil_iff.mp hsplit
    have hnone : dec ++ rest = [] := by
      have hvalid : ∀ c ∈ dec ++ rest, c.Valid aead secret cap := by
        intro c hc
        apply hr.valid c
        rw [List.append_assoc]
        exact List.mem_append_right _ hc
      exact Chunk.eq_nil_of_text hvalid htext
    obtain ⟨rfl, rfl⟩ := List.append_eq_nil_iff.mp hnone
    have hraw : raw = [] := List.eq_nil_of_prefix_nil hr.raw_prefix
    subst hraw
    refine ⟨?_, ?_⟩
    · rw [hr.taken_eq] at htaken
      simpa using htaken
    · rw [hlength, hr.start, hr.stop]
      rfl
  · rintro ⟨hwire, hstart⟩
    rw [hlength, hr.start, hr.stop] at hstart
    -- the three stretches of the buffer are empty, and so is the wire
    have hcur : cur = [] := List.length_eq_zero_iff.mp (by omega)
    have hraw : raw = [] := List.length_eq_zero_iff.mp (by omega)
    have hdec : dec = [] := by
      have hvalid : ∀ c ∈ dec, c.Valid aead secret cap := by
        intro c hc
        exact hr.valid c (List.mem_append_left _ (List.mem_append_right _ hc))
      apply Output.opened_eq_nil hvalid
      omega
    subst hcur hraw hdec
    have hrest : Chunk.wire rest = [] := by
      rw [hwire, hr.taken_eq] at htaken
      simpa using htaken
    have hnil : rest = [] := by
      have hvalid : ∀ c ∈ rest, c.Valid aead secret cap := by
        intro c hc
        exact hr.valid c (List.mem_append_right _ hc)
      exact Chunk.eq_nil_of_wire hvalid hrest
    rw [hnil, List.append_nil, List.append_nil, ← hr.returned_eq, List.append_nil]

/-- **The end of the stream.** A transport delivers whole chunks and then
end-of-file. When a poll reports it, all bytes of the chunks were returned if
and only if that poll started with nothing on its way and nothing left in the
read buffer. -/
theorem eof_lossless_iff {aead : Aead} (rng : aead.Rng) (secret : SharedSecret) (cap : Nat)
    (chunks : List Chunk) (hchunks : ∀ c ∈ chunks, c.Valid aead secret cap)
    (polls : List (Nat × List Answer)) (last : Nat × List Answer)
    (hsteady : ∀ poll ∈ polls ++ [last], ∀ a ∈ poll.2, a.Steady)
    (hgoing : (endingMachine aead).EachStep
      (fun e poll => (e.step poll).2 ≠ .failed .unexpectedEof) (.new rng secret cap chunks) polls)
    (hend : (((endingMachine aead).run (.new rng secret cap chunks) polls).step last).2 =
      .failed .unexpectedEof) :
    ((endingMachine aead).run (.new rng secret cap chunks) (polls ++ [last])).returned =
        Chunk.text chunks ↔
      ((endingMachine aead).run (.new rng secret cap chunks) polls).Drained := by
  have hnew : (Ending.new rng secret cap chunks).Inv cap secret chunks :=
    ⟨[], rfl, Output.new_reads rng hchunks⟩
  have hsteady' := Machine.EachStep.of_forall (m := endingMachine aead)
    (fun poll hpoll => hsteady poll (List.mem_append_left [last] hpoll))
    (Ending.new rng secret cap chunks)
  have hinv : ((endingMachine aead).run (.new rng secret cap chunks) polls).Inv cap secret chunks :=
    Machine.invariant_run (P := Ending.Inv cap secret chunks)
      (fun e poll h hok => (ending_step h hok.1).1 hok.2) hnew (hsteady'.and hgoing)
  have hlast := hsteady last (List.mem_append_right _ (List.mem_singleton.mpr rfl))
  have hsame := (ending_step hinv hlast).2 hend
  rw [Machine.run_append, Machine.run_cons, Machine.run_nil]
  exact (iff_of_eq (congrArg (· = Chunk.text chunks) hsame)).trans (returned_all_iff hinv)

/-- A chunk of one byte. -/
def oneByte : Chunk where
  cipher := [7]
  tag := List.replicate cryptoTagSize 0
  plain := [7]

/-- The chunk and the end of the stream are seen by different polls. -/
theorem eof_lossless_iff_apart :
    ((endingMachine Aead.plain).run (.new () 0 62 [oneByte])
      ([(5, [.ready 40, .pending])] ++ [(5, [.ready 1])])).returned = Chunk.text [oneByte] := by
  have hvalid : ∀ c ∈ [oneByte], c.Valid Aead.plain 0 62 := by
    intro c hc
    rw [List.mem_singleton.mp hc]
    exact ⟨rfl, rfl, rfl, by decide, by decide, by decide⟩
  refine (@eof_lossless_iff Aead.plain () 0 62 [oneByte] hvalid [(5, [.ready 40, .pending])]
    (5, [.ready 1]) (by decide) ?_ ?_).mpr ?_
  · decide
  · decide
  · decide

/-- A chunk and the end of the stream in one poll: the end is reported, nothing
is returned. -/
theorem eof_drops_chunk :
    ((Ending.new () 0 62 [oneByte] : Ending Aead.plain).step (5, [.ready 40, .ready 1])).2 =
        .failed .unexpectedEof ∧
      ((endingMachine Aead.plain).run (.new () 0 62 [oneByte])
          [(5, [.ready 40, .ready 1])]).returned ≠
        Chunk.text [oneByte] := by
  decide

end OnionNetwork.Opfusk
