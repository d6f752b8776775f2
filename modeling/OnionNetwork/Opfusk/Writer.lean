import OnionNetwork.Opfusk.Output

/-!
# The writing end

The write buffer is, from the front: bytes handed to the transport, encrypted
bytes that are not, the place for a header, and collected bytes. `Writes`
relates it to the chunks sealed so far, to everything handed to the transport
and to everything accepted; each block of `poll_write` keeps it
(`round_spec`), and so do the calls (`pollWrite_spec`, `pollFlush_spec`).
-/

namespace OnionNetwork.Opfusk

open Chat Lib

variable {aead : Aead} {cap : Nat} {secret : SharedSecret}

namespace Output

/-- The write buffer, divided. -/
structure WritesAs (o : Output aead) (cap : Nat) (secret : SharedSecret) (chunks : List Chunk)
    (sent accepted gone pending header progress : Bytes) : Prop where
  secret_eq : o.secret = secret
  capacity : o.writeBuffer.capacity = cap
  valid : ∀ c ∈ chunks, c.Valid aead secret cap
  buffer : o.writeBuffer.toList = gone ++ pending ++ (header ++ progress)
  start : o.writableStart = gone.length
  stop : o.writableEnd = (gone ++ pending).length
  length_header : header.length = tagSize
  room : progress ≠ [] → o.writeBuffer.toList.length + tagSize ≤ cap
  sent_eq : sent ++ pending = Chunk.wire chunks
  accepted_eq : accepted = Chunk.text chunks ++ progress

/-- The sealed chunks are on the wire up to what is pending; they and what is
collected are what was accepted. -/
def Writes (o : Output aead) (cap : Nat) (secret : SharedSecret) (chunks : List Chunk)
    (sent accepted : Bytes) : Prop :=
  ∃ gone pending header progress,
    o.WritesAs cap secret chunks sent accepted gone pending header progress

variable {o : Output aead} {chunks : List Chunk}
  {sent accepted gone pending header progress : Bytes}

theorem new_writes (rng : aead.Rng) (hcap : tagSize ≤ cap) :
    (Output.new rng secret cap : Output aead).Writes cap secret [] [] [] := by
  refine ⟨[], [], List.replicate tagSize 0, [], rfl, ?_, ?_, ?_, rfl, rfl, ?_, ?_, rfl, rfl⟩
  · exact Vec.capacity_extend (by simpa [Vec.withCapacity] using hcap)
  · intro c hc
    cases hc
  · rfl
  · exact List.length_replicate
  · intro h
    exact absurd rfl h

namespace WritesAs

theorem length_buffer
    (h : o.WritesAs cap secret chunks sent accepted gone pending header progress) :
    o.writeBuffer.toList.length = o.writableEnd + (tagSize + progress.length) := by
  have hend : (header ++ progress).length = tagSize + progress.length := by
    rw [List.length_append, h.length_header]
  rw [h.buffer, h.stop, List.length_append, hend]

theorem writable_eq (h : o.WritesAs cap secret chunks sent accepted gone pending header progress) :
    o.writable = pending := by
  rw [writable, h.buffer, h.start, h.stop, List.take_left, List.drop_left]

theorem stop_sub_start
    (h : o.WritesAs cap secret chunks sent accepted gone pending header progress) :
    o.writableEnd - o.writableStart = pending.length := by
  rw [h.start, h.stop, List.length_append]
  omega

theorem start_le_stop
    (h : o.WritesAs cap secret chunks sent accepted gone pending header progress) :
    o.writableStart ≤ o.writableEnd := by
  rw [h.start, h.stop, List.length_append]
  exact Nat.le_add_right _ _

/-- Sealing what is collected turns it into a pending chunk. -/
theorem encryptInProgress (law : aead.Lawful) (hcap : cap ≤ 2 ^ 16)
    (h : o.WritesAs cap secret chunks sent accepted gone pending header progress)
    (hne : progress ≠ []) :
    ∃ c : Chunk, c.plain = progress ∧
      o.encryptInProgress.WritesAs cap secret (chunks ++ [c]) sent accepted gone
        (pending ++ c.sealedBytes) (List.replicate tagSize 0) [] := by
  have hmessage : (o.writeBuffer.toList.drop o.writableEnd).drop tagSize = progress := by
    rw [h.buffer, h.stop, List.drop_left, ← h.length_header, List.drop_left]
  have hroom := h.room hne
  have hlength := h.length_buffer
  have hpos : 0 < progress.length := List.length_pos_iff.mpr hne
  -- the chunk that is sealed, and that it is one the reader can open
  let c : Chunk :=
    { cipher := (aead.encrypt progress secret o.rng).1.1
      tag := (aead.encrypt progress secret o.rng).1.2
      plain := progress }
  have hvalid : c.Valid aead secret cap :=
    { decrypt := law.decrypt_encrypt progress secret o.rng
      length_tag := law.length_tag progress secret o.rng
      length_cipher := law.length_encrypt progress secret o.rng
      plain_pos := hpos
      fits := by show progress.length + tagSize ≤ cap; omega
      short := by show progress.length < 2 ^ 16; simp only [tagSize, cryptoTagSize] at *; omega }
  have hbytes : toBe16 progress.length ++ c.tag ++ c.cipher = c.sealedBytes := rfl
  -- the sealed bytes take the place of the header and the plain text, byte for byte
  have hover : (o.writeBuffer.overwrite o.writableEnd c.sealedBytes).toList =
      gone ++ pending ++ c.sealedBytes := by
    have hold : o.writeBuffer.toList = gone ++ pending ++ (header ++ progress) ++ [] := by
      rw [h.buffer, List.append_nil]
    have hlen : c.sealedBytes.length = (header ++ progress).length := by
      rw [hvalid.length_sealedBytes, List.length_append, h.length_header]
    rw [h.stop, Vec.toList_overwrite hold hlen, List.append_nil]
  have hnew : o.encryptInProgress =
      { o with
        rng := (aead.encrypt progress secret o.rng).2
        writableEnd := (o.writeBuffer.overwrite o.writableEnd c.sealedBytes).toList.length
        writeBuffer := (o.writeBuffer.overwrite o.writableEnd c.sealedBytes).extend
          (List.replicate tagSize 0) } := by
    simp only [Output.encryptInProgress, hmessage, h.secret_eq, ← hbytes, c]
  refine ⟨c, rfl, ?_⟩
  rw [hnew]
  refine
    { secret_eq := h.secret_eq
      capacity := ?_
      valid := ?_
      buffer := ?_
      start := h.start
      stop := ?_
      length_header := List.length_replicate
      room := ?_
      sent_eq := ?_
      accepted_eq := ?_ }
  · show ((o.writeBuffer.overwrite o.writableEnd c.sealedBytes).extend _).capacity = cap
    rw [Vec.capacity_extend, Vec.capacity_overwrite, h.capacity]
    rw [Vec.length_overwrite, List.length_replicate, Vec.capacity_overwrite, h.capacity]
    exact hroom
  · intro d hd
    rcases List.mem_append.mp hd with hd | hd
    · exact h.valid d hd
    · rw [List.mem_singleton.mp hd]
      exact hvalid
  · show (Vec.overwrite _ _ _).toList ++ List.replicate tagSize 0 = _
    rw [hover, List.append_nil, List.append_assoc gone]
  · show (Vec.overwrite _ _ _).toList.length = _
    rw [hover, List.append_assoc]
  · intro hnil
    exact absurd rfl hnil
  · rw [← List.append_assoc, h.sent_eq, Chunk.wire_append, Chunk.wire_cons, Chunk.wire_nil,
      List.append_nil]
  · rw [h.accepted_eq, List.append_nil, Chunk.text_append, Chunk.text_cons, Chunk.text_nil,
      List.append_nil]

/-- The transport takes some of what is pending. -/
theorem advance (h : o.WritesAs cap secret chunks sent accepted gone pending header progress)
    {n : Nat} (hn : n ≤ pending.length) :
    ({ o with writableStart := o.writableStart + n } : Output aead).WritesAs cap secret chunks
      (sent ++ pending.take n) accepted (gone ++ pending.take n) (pending.drop n) header
      progress := by
  have hsplit : gone ++ pending.take n ++ pending.drop n = gone ++ pending := by
    rw [List.append_assoc, List.take_append_drop]
  refine
    { secret_eq := h.secret_eq
      capacity := h.capacity
      valid := h.valid
      buffer := ?_
      start := ?_
      stop := ?_
      length_header := h.length_header
      room := h.room
      sent_eq := ?_
      accepted_eq := h.accepted_eq }
  · rw [hsplit]
    exact h.buffer
  · show o.writableStart + n = _
    rw [h.start, List.length_append, List.length_take_of_le hn]
  · rw [hsplit]
    exact h.stop
  · rw [List.append_assoc, List.take_append_drop]
    exact h.sent_eq

/-- What the transport took is moved out of the buffer. -/
theorem gc (h : o.WritesAs cap secret chunks sent accepted gone pending header progress) :
    ({ o with
       writeBuffer := o.writeBuffer.drain o.writableStart
       writableEnd := o.writableEnd - o.writableStart
       writableStart := 0 } : Output aead).WritesAs cap secret chunks sent accepted [] pending
      header progress := by
  have hbuffer : o.writeBuffer.toList.drop o.writableStart =
      [] ++ pending ++ (header ++ progress) := by
    rw [h.buffer, h.start, List.append_assoc, List.drop_left]
    rfl
  refine
    { secret_eq := h.secret_eq
      capacity := h.capacity
      valid := h.valid
      buffer := hbuffer
      start := rfl
      stop := h.stop_sub_start
      length_header := h.length_header
      room := ?_
      sent_eq := h.sent_eq
      accepted_eq := h.accepted_eq }
  intro hne
  have hroom := h.room hne
  show (o.writeBuffer.toList.drop o.writableStart).length + tagSize ≤ cap
  rw [List.length_drop]
  omega

/-- More bytes are collected, with room left for the next header. -/
theorem fill (h : o.WritesAs cap secret chunks sent accepted gone pending header progress)
    {data : Bytes} (hdata : data.length ≤ o.writeBuffer.spare - tagSize) (hne : data ≠ []) :
    ({ o with writeBuffer := o.writeBuffer.fill data } : Output aead).WritesAs cap secret chunks
      sent (accepted ++ data) gone pending header (progress ++ data) := by
  have hlist : (o.writeBuffer.fill data).toList = o.writeBuffer.toList ++ data :=
    Vec.toList_fill (Nat.le_trans hdata (Nat.sub_le _ _))
  refine
    { secret_eq := h.secret_eq
      capacity := h.capacity
      valid := h.valid
      buffer := ?_
      start := h.start
      stop := h.stop
      length_header := h.length_header
      room := ?_
      sent_eq := h.sent_eq
      accepted_eq := ?_ }
  · show (o.writeBuffer.fill data).toList = _
    rw [hlist, h.buffer, List.append_assoc, List.append_assoc header]
  · intro _
    have hpos : 0 < data.length := List.length_pos_iff.mpr hne
    have hcap := h.capacity
    show (o.writeBuffer.fill data).toList.length + tagSize ≤ cap
    rw [hlist, List.length_append]
    simp only [Vec.spare] at hdata
    omega
  · rw [h.accepted_eq, List.append_assoc]

end WritesAs

end Output

/-! ## `poll_write` -/

namespace Writing

/-- What a `poll_write` of `buf` keeps, from a stream that had sealed `chunks`,
handed over `sent` and accepted `accepted`. -/
structure Inv (cap : Nat) (secret : SharedSecret) (chunks : List Chunk) (sent accepted buf : Bytes)
    (w : Writing aead) : Prop where
  steady : ∀ a ∈ w.answers, a.Steady
  writes : ∃ more taken, w.out.Writes cap secret (chunks ++ more) (sent ++ w.sent)
    (accepted ++ taken) ∧ taken ++ w.buf = buf

/-- Every byte moves on: from the caller to the chunk collected, to the sealed
chunks, to the transport, out of the buffer. -/
def measure (w : Writing aead) : Nat :=
  64 * w.buf.length +
    63 * (w.out.writeBuffer.toList.length - w.out.writableEnd - tagSize) +
    2 * (w.out.writableEnd - w.out.writableStart) + w.out.writableStart

/-- No error leaves the loop. -/
def Unfailing (_ : Writing aead) (_ : ErrorKind) : Prop := False

variable {chunks : List Chunk} {sent accepted buf : Bytes} {w : Writing aead}

theorem encrypt_spec (law : aead.Lawful) (hlo : 62 ≤ cap) (hhi : cap ≤ 2 ^ 16)
    (h : w.Inv cap secret chunks sent accepted buf) :
    w.encrypt.Advances (Inv cap secret chunks sent accepted buf) Unfailing measure w.measure := by
  obtain ⟨hsteady, more, taken, ⟨gone, pending, header, progress, hw⟩, hbuf⟩ := h
  have hlength := hw.length_buffer
  have hpending := hw.stop_sub_start
  rw [encrypt]
  split
  · refine .idle ⟨hsteady, more, taken, ⟨gone, pending, header, progress, hw⟩, hbuf⟩ ?_
    exact Nat.le_refl _
  · rename_i hfull
    -- half of the buffer is more than a header, so something is collected
    have hne : progress ≠ [] := by
      intro hnil
      rw [hlength, hw.capacity, hnil] at hfull
      simp only [List.length_nil, tagSize, cryptoTagSize] at hfull
      omega
    obtain ⟨c, hc, hw'⟩ := hw.encryptInProgress law hhi hne
    refine .change ⟨hsteady, more ++ [c], taken, ?_, hbuf⟩ ?_
    · rw [← List.append_assoc]
      exact ⟨_, _, _, _, hw'⟩
    · have hpos : 0 < progress.length := List.length_pos_iff.mpr hne
      have hlength' := hw'.length_buffer
      have hpending' := hw'.stop_sub_start
      have hstart : w.out.encryptInProgress.writableStart = w.out.writableStart := rfl
      have hsealed :=
        (hw'.valid c (List.mem_append_right _ (List.mem_singleton.mpr rfl))).length_sealedBytes
      rw [List.length_append, hsealed, hc, hstart] at hpending'
      simp only [measure, hlength, hlength', hpending, hpending', hstart, List.length_nil, tagSize,
        cryptoTagSize]
      omega

theorem writeInner_spec (h : w.Inv cap secret chunks sent accepted buf) :
    w.writeInner.Advances (Inv cap secret chunks sent accepted buf) Unfailing measure
      w.measure := by
  have hinv := h
  obtain ⟨hsteady, more, taken, ⟨gone, pending, header, progress, hw⟩, hbuf⟩ := h
  rw [writeInner, hw.writable_eq]
  split
  · exact .idle hinv (Nat.le_refl _)
  · rename_i hne
    cases hanswers : w.answers with
    | nil => exact .idle hinv (Nat.le_refl _)
    | cons answer answers =>
        rw [hanswers] at hsteady
        obtain ⟨hanswer, hrest⟩ := List.forall_mem_cons.mp hsteady
        cases answer with
        | pending =>
            exact .idle ⟨hrest, more, taken, ⟨gone, pending, header, progress, hw⟩, hbuf⟩
              (Nat.le_refl _)
        | failed e => exact hanswer.elim
        | ready n =>
            have hn : 0 < n := hanswer
            have hpos : 0 < pending.length := List.length_pos_iff.mpr hne
            have hmin : min n pending.length ≠ 0 := by omega
            have hle : min n pending.length ≤ pending.length := Nat.min_le_right _ _
            have hw' := hw.advance hle
            have hpending := hw.stop_sub_start
            have hpending' := hw'.stop_sub_start
            have hlt : w.out.writableStart < w.out.writableEnd := by omega
            simp only [if_neg hmin]
            refine .change ⟨hrest, more, taken, ?_, hbuf⟩ ?_
            · rw [← List.append_assoc]
              exact ⟨_, _, _, _, hw'⟩
            · simp only [measure]
              omega

theorem gc_spec (h : w.Inv cap secret chunks sent accepted buf) :
    w.gc.Advances (Inv cap secret chunks sent accepted buf) Unfailing measure w.measure := by
  have hinv := h
  obtain ⟨hsteady, more, taken, ⟨gone, pending, header, progress, hw⟩, hbuf⟩ := h
  rw [gc]
  split
  · exact .idle hinv (Nat.le_refl _)
  · rename_i hguard
    have hstart : w.out.writableStart ≠ 0 := fun h0 => hguard (.inr h0)
    have hlength := hw.length_buffer
    have hpending := hw.stop_sub_start
    have hlength' := hw.gc.length_buffer
    have hpending' := hw.gc.stop_sub_start
    refine .change ⟨hsteady, more, taken, ⟨_, _, _, _, hw.gc⟩, hbuf⟩ ?_
    simp only [measure] at hlength' hpending' ⊢
    omega

theorem writeBuf_spec (h : w.Inv cap secret chunks sent accepted buf) :
    w.writeBuf.Advances (Inv cap secret chunks sent accepted buf) Unfailing measure w.measure := by
  have hinv := h
  obtain ⟨hsteady, more, taken, ⟨gone, pending, header, progress, hw⟩, hbuf⟩ := h
  simp only [writeBuf]
  generalize hmin : min (w.out.writeBuffer.spare - tagSize) w.buf.length = toWrite
  split
  · exact .idle hinv (Nat.le_refl _)
  · rename_i hzero
    have hle : toWrite ≤ w.buf.length := by omega
    have hlen : (w.buf.take toWrite).length = toWrite := List.length_take_of_le hle
    have hfits : (w.buf.take toWrite).length ≤ w.out.writeBuffer.spare - tagSize := by
      rw [hlen]
      omega
    have hne : w.buf.take toWrite ≠ [] := by
      intro hnil
      rw [hnil] at hlen
      exact hzero hlen.symm
    have hw' := hw.fill hfits hne
    have hlength := hw.length_buffer
    have hlength' := hw'.length_buffer
    refine .change ⟨hsteady, more, taken ++ w.buf.take toWrite, ?_, ?_⟩ ?_
    · rw [← List.append_assoc]
      exact ⟨_, _, _, _, hw'⟩
    · show taken ++ w.buf.take toWrite ++ w.buf.drop toWrite = buf
      rw [List.append_assoc, List.take_append_drop]
      exact hbuf
    · rw [List.length_append, hlen] at hlength'
      simp only [measure, List.length_drop] at hlength' ⊢
      omega

/-- One round keeps the invariant and moves bytes on, if it does anything. -/
theorem round_spec (law : aead.Lawful) (hlo : 62 ≤ cap) (hhi : cap ≤ 2 ^ 16)
    (h : w.Inv cap secret chunks sent accepted buf) :
    w.round.Advances (Inv cap secret chunks sent accepted buf) Unfailing measure w.measure :=
  (((encrypt_spec law hlo hhi h).andThen fun _ => writeInner_spec).andThen fun _ =>
    gc_spec).andThen fun _ => writeBuf_spec

end Writing

namespace Output

variable {o : Output aead} {chunks : List Chunk} {sent accepted : Bytes}

/-- **`poll_write`** accepts some of the bytes and hands some to the transport. -/
theorem pollWrite_spec (law : aead.Lawful) (hlo : 62 ≤ cap) (hhi : cap ≤ 2 ^ 16)
    (h : o.Writes cap secret chunks sent accepted) (buf : Bytes) {answers : List Answer}
    (hanswers : ∀ a ∈ answers, a.Steady) :
    ∃ o' handed n more, o.pollWrite buf answers =
        some (o', handed, if n = 0 then .pending else .ready (.ok n)) ∧
      o'.Writes cap secret (chunks ++ more) (sent ++ handed) (accepted ++ buf.take n) := by
  let start : Writing aead := { out := o, buf, answers, sent := [] }
  have hstart : start.Inv cap secret chunks sent accepted buf := by
    refine ⟨hanswers, [], [], ?_, rfl⟩
    simpa [start] using h
  have hfuel : start.measure < start.fuel := by
    obtain ⟨gone, pending, header, progress, hw⟩ := h
    have hlength := hw.length_buffer
    have hle := hw.start_le_stop
    simp only [Writing.measure, Writing.fuel, start]
    omega
  rcases whileUpdated_spec (fun w hw => Writing.round_spec law hlo hhi hw) hstart hfuel with
    ⟨-, w, hrun, hw, -, -⟩ | ⟨w, e, -, hfalse⟩
  · obtain ⟨-, more, taken, hwrites, hbuf⟩ := hw
    have hlen : buf.length - w.buf.length = taken.length := by
      rw [← hbuf, List.length_append]
      omega
    have htake : buf.take taken.length = taken := by
      rw [← hbuf, List.take_left]
    refine ⟨w.out, w.sent, taken.length, more, ?_, ?_⟩
    · simp only [pollWrite]
      rw [show whileUpdated Writing.round _ _ = some (w, none) from hrun]
      simp only [hlen]
    · rw [htake]
      exact hwrites
  · exact hfalse.elim

/-- The loop of `poll_flush` hands over what is pending. -/
theorem WritesAs.flushLoop {gone pending header progress : Bytes}
    (h : o.WritesAs cap secret chunks sent accepted gone pending header progress)
    {answers : List Answer} (hanswers : ∀ a ∈ answers, a.Steady) (before : Bytes) :
    ∃ o' handed poll gone' pending', o.flushLoop before answers = (o', before ++ handed, poll) ∧
      o'.WritesAs cap secret chunks (sent ++ handed) accepted gone' pending' header progress ∧
      (poll = .pending ∨ poll = .ready (.ok ()) ∧ pending' = []) := by
  induction answers generalizing o sent gone pending before with
  | nil =>
      refine ⟨o, [], .pending, gone, pending, ?_, ?_, .inl rfl⟩
      · rw [List.append_nil]
        rfl
      · rw [List.append_nil]
        exact h
  | cons answer answers ih =>
      obtain ⟨hanswer, hrest⟩ := List.forall_mem_cons.mp hanswers
      cases answer with
      | pending =>
          refine ⟨o, [], .pending, gone, pending, ?_, ?_, .inl rfl⟩
          · rw [List.append_nil]
            rfl
          · rw [List.append_nil]
            exact h
      | failed e => exact hanswer.elim
      | ready n =>
          simp only [Output.flushLoop, h.writable_eq]
          split
          · rename_i hnil
            refine ⟨o, [], .ready (.ok ()), gone, pending, ?_, ?_, .inr ⟨rfl, hnil⟩⟩
            · rw [List.append_nil]
            · rw [List.append_nil]
              exact h
          · have hle : min n pending.length ≤ pending.length := Nat.min_le_right _ _
            obtain ⟨o', handed, poll, gone', pending', hloop, hw, hpoll⟩ :=
              ih (h.advance hle) hrest (before ++ pending.take (min n pending.length))
            refine ⟨o', pending.take (min n pending.length) ++ handed, poll, gone', pending', ?_,
              ?_, hpoll⟩
            · rw [hloop, List.append_assoc]
            · rw [← List.append_assoc]
              exact hw

/-- **`poll_flush`** seals what is collected; when it is ready, everything
accepted is on the wire. -/
theorem pollFlush_spec (law : aead.Lawful) (hhi : cap ≤ 2 ^ 16)
    (h : o.Writes cap secret chunks sent accepted) {answers : List Answer}
    (hanswers : ∀ a ∈ answers, a.Steady) :
    ∃ o' handed poll more, o.pollFlush answers = (o', handed, poll) ∧
      o'.Writes cap secret (chunks ++ more) (sent ++ handed) accepted ∧
      (poll = .pending ∨ poll = .ready (.ok ()) ∧
        sent ++ handed = Chunk.wire (chunks ++ more) ∧ accepted = Chunk.text (chunks ++ more)) := by
  obtain ⟨gone, pending, header, progress, hw⟩ := h
  -- behind the first block nothing is collected
  obtain ⟨o₁, more, pending₁, header₁, ho₁, hw₁⟩ : ∃ o₁ more pending₁ header₁,
      (if o.writeBuffer.toList.length - o.writableEnd ≠ tagSize then o.encryptInProgress else o) =
        o₁ ∧
      o₁.WritesAs cap secret (chunks ++ more) sent accepted gone pending₁ header₁ [] := by
    have hlength := hw.length_buffer
    by_cases hne : progress = []
    · have hsize : o.writeBuffer.toList.length - o.writableEnd = tagSize := by
        rw [hlength, hne, List.length_nil]
        omega
      refine ⟨o, [], pending, header, if_neg (not_not_intro hsize), ?_⟩
      rw [List.append_nil, ← hne]
      exact hw
    · have hpos : 0 < progress.length := List.length_pos_iff.mpr hne
      have hsize : o.writeBuffer.toList.length - o.writableEnd ≠ tagSize := by omega
      obtain ⟨c, -, hw'⟩ := hw.encryptInProgress law hhi hne
      exact ⟨_, [c], _, _, if_pos hsize, hw'⟩
  obtain ⟨o', handed, poll, gone', pending', hloop, hw', hpoll⟩ := hw₁.flushLoop hanswers []
  refine ⟨o', handed, poll, more, ?_, ⟨_, _, _, _, hw'⟩, ?_⟩
  · simp only [pollFlush]
    rw [ho₁]
    exact hloop
  · rcases hpoll with hpoll | ⟨hpoll, hnil⟩
    · exact .inl hpoll
    · refine .inr ⟨hpoll, ?_, ?_⟩
      · have hsent := hw'.sent_eq
        rwa [hnil, List.append_nil] at hsent
      · have haccepted := hw'.accepted_eq
        rwa [List.append_nil] at haccepted

end Output

end OnionNetwork.Opfusk
