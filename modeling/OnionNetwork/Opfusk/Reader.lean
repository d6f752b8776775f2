import OnionNetwork.Opfusk.Output

/-!
# The reading end

The read buffer is, from the front: bytes used up, what is left of the chunk
being delivered, chunks decrypted in place, and bytes as they came. `Reads`
relates it to the chunks of the stream, to what the transport delivered and to
what was returned; each block of `poll_read` keeps it (`round_spec`), and so
does the call (`pollRead_spec`), which returns nothing only if there is no
whole chunk to decrypt.
-/

namespace OnionNetwork.Opfusk

open Chat Lib

variable {aead : Aead} {cap : Nat} {secret : SharedSecret}

namespace Output

/-- The read buffer, divided: `done` are delivered or being delivered, `dec`
decrypted, `rest` not. -/
structure ReadsAs (o : Output aead) (cap : Nat) (secret : SharedSecret)
    (taken returned junk cur raw : Bytes) (done dec rest : List Chunk) : Prop where
  secret_eq : o.secret = secret
  capacity : o.readBuffer.capacity = cap
  valid : ∀ c ∈ done ++ dec ++ rest, c.Valid aead secret cap
  buffer : o.readBuffer.toList = junk ++ (cur ++ (Chunk.opened dec ++ raw))
  start : o.readableStart = junk.length
  stop : o.readableEnd = junk.length + (cur.length + (Chunk.opened dec).length)
  reminder : o.chunkReminder = cur.length
  taken_eq : taken = Chunk.wire (done ++ dec) ++ raw
  returned_eq : returned ++ cur = Chunk.text done
  raw_prefix : raw <+: Chunk.wire rest

/-- What the transport delivered is a beginning of the chunks on the wire, and
what was returned the same beginning of what they say. -/
def Reads (o : Output aead) (cap : Nat) (secret : SharedSecret) (chunks : List Chunk)
    (taken returned : Bytes) : Prop :=
  ∃ junk cur raw done dec rest, chunks = done ++ dec ++ rest ∧
    o.ReadsAs cap secret taken returned junk cur raw done dec rest

variable {o : Output aead} {taken returned junk cur raw : Bytes} {done dec rest chunks : List Chunk}

theorem new_reads (rng : aead.Rng) (hvalid : ∀ c ∈ chunks, c.Valid aead secret cap) :
    (Output.new rng secret cap : Output aead).Reads cap secret chunks [] [] := by
  refine ⟨[], [], [], [], [], chunks, rfl, rfl, rfl, hvalid, rfl, rfl, rfl, rfl, rfl, rfl, ?_⟩
  exact List.nil_prefix

/-- What was returned is a beginning of what the chunks say. -/
theorem Reads.returned_prefix (h : o.Reads cap secret chunks taken returned) :
    returned <+: Chunk.text chunks := by
  obtain ⟨junk, cur, raw, done, dec, rest, rfl, hr⟩ := h
  refine ⟨cur ++ Chunk.text (dec ++ rest), ?_⟩
  rw [← List.append_assoc, hr.returned_eq, ← Chunk.text_append, List.append_assoc]

/-- More chunks may follow. -/
theorem Reads.mono (h : o.Reads cap secret chunks taken returned) {more : List Chunk}
    (hmore : ∀ c ∈ chunks ++ more, c.Valid aead secret cap) :
    o.Reads cap secret (chunks ++ more) taken returned := by
  obtain ⟨junk, cur, raw, done, dec, rest, rfl, hr⟩ := h
  rw [List.append_assoc] at hmore ⊢
  refine ⟨junk, cur, raw, done, dec, rest ++ more, rfl,
    { hr with valid := hmore, raw_prefix := ?_ }⟩
  rw [Chunk.wire_append]
  exact hr.raw_prefix.trans (List.prefix_append _ _)

namespace ReadsAs

theorem length_buffer (h : o.ReadsAs cap secret taken returned junk cur raw done dec rest) :
    o.readBuffer.toList.length = o.readableEnd + raw.length := by
  rw [h.buffer, h.stop]
  simp only [List.length_append]
  omega

theorem start_le_stop (h : o.ReadsAs cap secret taken returned junk cur raw done dec rest) :
    o.readableStart ≤ o.readableEnd := by
  rw [h.start, h.stop]
  exact Nat.le_add_right _ _

/-- The bytes that are not decrypted. -/
theorem drop_stop (h : o.ReadsAs cap secret taken returned junk cur raw done dec rest) :
    o.readBuffer.toList.drop o.readableEnd = raw := by
  have hsplit : o.readBuffer.toList = (junk ++ (cur ++ Chunk.opened dec)) ++ raw := by
    rw [h.buffer, List.append_assoc, List.append_assoc]
  have hstop : o.readableEnd = (junk ++ (cur ++ Chunk.opened dec)).length := by
    rw [h.stop, List.length_append, List.length_append]
  rw [hsplit, hstop, List.drop_left]

/-- The bytes that are not used up. -/
theorem drop_start (h : o.ReadsAs cap secret taken returned junk cur raw done dec rest) :
    o.readBuffer.toList.drop o.readableStart = cur ++ (Chunk.opened dec ++ raw) := by
  rw [h.buffer, h.start, List.drop_left]

/-- What is used up is moved out of the buffer. -/
theorem gc (h : o.ReadsAs cap secret taken returned junk cur raw done dec rest) :
    ({ o with
       readBuffer := o.readBuffer.drain o.readableStart
       readableEnd := o.readableEnd - o.readableStart
       readableStart := 0 } : Output aead).ReadsAs cap secret taken returned [] cur raw done dec
      rest := by
  refine { h with buffer := ?_, start := rfl, stop := ?_ }
  · exact h.drop_start
  · show o.readableEnd - o.readableStart = _
    rw [h.start, h.stop, List.length_nil]
    omega

/-- The transport delivers more. -/
theorem fill (h : o.ReadsAs cap secret taken returned junk cur raw done dec rest) {data : Bytes}
    (hfits : data.length ≤ o.readBuffer.spare)
    (hbegin : taken ++ data <+: Chunk.wire (done ++ dec ++ rest)) :
    ({ o with readBuffer := o.readBuffer.fill data } : Output aead).ReadsAs cap secret
      (taken ++ data) returned junk cur (raw ++ data) done dec rest := by
  refine { h with buffer := ?_, taken_eq := ?_, raw_prefix := ?_ }
  · show (o.readBuffer.fill data).toList = _
    rw [Vec.toList_fill hfits, h.buffer]
    simp only [List.append_assoc]
  · rw [h.taken_eq, List.append_assoc]
  · rw [h.taken_eq, List.append_assoc, Chunk.wire_append (done ++ dec)] at hbegin
    exact (List.prefix_append_right_inj _).mp hbegin

/-- A whole chunk is decrypted in place. -/
theorem decryptOne_some {c : Chunk} {rest : List Chunk} {raw : Bytes}
    (h : o.ReadsAs cap secret taken returned junk cur (c.sealedBytes ++ raw) done dec (c :: rest)) :
    ∃ o', Reading.decryptOne o = some (some o') ∧
      o'.ReadsAs cap secret taken returned junk cur raw done (dec ++ [c]) rest ∧
      o'.readBuffer.toList.length = o.readBuffer.toList.length ∧
      o'.readableEnd = o.readableEnd + c.sealedBytes.length ∧
      o'.readableStart = o.readableStart := by
  have hc : c.Valid aead secret cap :=
    h.valid c (List.mem_append_right _ List.mem_cons_self)
  have hlen : fromBe16 (toBe16 c.plain.length) = c.plain.length := Chunk.fromBe16_toBe16 hc.short
  have hbody : (c.tag ++ c.cipher).length = c.plain.length + cryptoTagSize := by
    rw [List.length_append, hc.length_tag, hc.length_cipher, Nat.add_comm]
  have hfirst : takeFront 2 (c.sealedBytes ++ raw) =
      some (toBe16 c.plain.length, c.tag ++ c.cipher ++ raw) := by
    have htake := takeFront_append (toBe16 c.plain.length) (c.tag ++ c.cipher ++ raw)
    rw [Chunk.length_toBe16] at htake
    rw [← htake, Chunk.sealedBytes, Chunk.header]
    simp only [List.append_assoc]
  have hsecond := takeFront_append (c.tag ++ c.cipher) raw
  rw [hbody] at hsecond
  have htag : (c.tag ++ c.cipher).take cryptoTagSize = c.tag := by
    rw [← hc.length_tag, List.take_left]
  have hcipher : (c.tag ++ c.cipher).drop cryptoTagSize = c.cipher := by
    rw [← hc.length_tag, List.drop_left]
  have hplain : aead.decrypt c.cipher o.secret c.tag = some c.plain := by
    rw [h.secret_eq]
    exact hc.decrypt
  have hsealed := hc.length_sealedBytes
  -- the body stands behind the header
  have hover : (o.readBuffer.overwrite (o.readableEnd + (2 + cryptoTagSize)) c.plain).toList =
      junk ++ (cur ++ (Chunk.opened (dec ++ [c]) ++ raw)) := by
    have hold : o.readBuffer.toList =
        (junk ++ (cur ++ (Chunk.opened dec ++ c.header))) ++ c.cipher ++ raw := by
      rw [h.buffer, Chunk.sealedBytes]
      simp only [List.append_assoc]
    have hoffset : o.readableEnd + (2 + cryptoTagSize) =
        (junk ++ (cur ++ (Chunk.opened dec ++ c.header))).length := by
      rw [h.stop]
      simp only [List.length_append, hc.length_header, tagSize]
      omega
    rw [hoffset, Vec.toList_overwrite hold hc.length_cipher.symm]
    simp [Chunk.openedBytes]
  let o' : Output aead :=
    { o with
      readBuffer := o.readBuffer.overwrite (o.readableEnd + (2 + cryptoTagSize)) c.plain
      readableEnd := o.readableEnd + (c.plain.length + cryptoTagSize + 2) }
  refine ⟨o', ?_, ?_, ?_, ?_, rfl⟩
  · simp only [Reading.decryptOne, h.drop_stop, hfirst, hlen, hsecond, htag, hcipher, hplain, o']
  · refine
      { h with
        valid := ?_
        buffer := hover
        stop := ?_
        taken_eq := ?_
        raw_prefix := ?_ }
    · intro d hd
      refine h.valid d ?_
      simpa [or_assoc] using hd
    · show o.readableEnd + (c.plain.length + cryptoTagSize + 2) = _
      rw [h.stop, Chunk.opened_append, Chunk.opened_cons, Chunk.opened_nil, List.append_nil,
        List.length_append, hc.length_openedBytes]
      simp only [tagSize]
      omega
    · rw [h.taken_eq, ← List.append_assoc done, Chunk.wire_append (done ++ dec), Chunk.wire_cons,
        Chunk.wire_nil, List.append_nil, List.append_assoc]
    · exact (List.prefix_append_right_inj _).mp h.raw_prefix
  · exact Vec.length_overwrite _ _ _
  · show o.readableEnd + (c.plain.length + cryptoTagSize + 2) = _
    rw [hsealed]
    simp only [tagSize]
    omega

/-- Without a whole chunk there is nothing to decrypt. -/
theorem decryptOne_none (h : o.ReadsAs cap secret taken returned junk cur raw done dec rest)
    (hshort : ∀ c rest', rest = c :: rest' → raw.length < c.sealedBytes.length) :
    Reading.decryptOne o = none := by
  by_cases htwo : 2 ≤ raw.length
  · obtain ⟨c, rest', rfl⟩ : ∃ c rest', rest = c :: rest' := by
      cases rest with
      | nil =>
          have hnil := List.eq_nil_of_prefix_nil h.raw_prefix
          rw [hnil] at htwo
          exact absurd htwo (by decide)
      | cons c rest' => exact ⟨c, rest', rfl⟩
    have hc : c.Valid aead secret cap :=
      h.valid c (List.mem_append_right _ List.mem_cons_self)
    have hlt := hshort c rest' rfl
    -- what came starts with the length
    have hraw : toBe16 c.plain.length <+: raw := by
      refine List.prefix_of_prefix_length_le ?_ h.raw_prefix htwo
      rw [Chunk.wire_cons, Chunk.sealedBytes, Chunk.header, List.append_assoc, List.append_assoc]
      exact List.prefix_append _ _
    obtain ⟨behind, rfl⟩ := hraw
    have hfirst : takeFront 2 (toBe16 c.plain.length ++ behind) =
        some (toBe16 c.plain.length, behind) := takeFront_append (toBe16 c.plain.length) behind
    have hsecond : takeFront (c.plain.length + cryptoTagSize) behind = none := by
      refine if_neg ?_
      rw [hc.length_sealedBytes, List.length_append, Chunk.length_toBe16] at hlt
      simp only [tagSize] at hlt
      omega
    simp only [Reading.decryptOne, h.drop_stop, hfirst, Chunk.fromBe16_toBe16 hc.short, hsecond]
  · have hfirst : takeFront 2 raw = none := if_neg htwo
    simp only [Reading.decryptOne, h.drop_stop, hfirst]

/-- A whole chunk that came is the next one. -/
theorem raw_eq (h : o.ReadsAs cap secret taken returned junk cur raw done dec rest) {c : Chunk}
    {rest' : List Chunk} (hrest : rest = c :: rest') (hlen : c.sealedBytes.length ≤ raw.length) :
    ∃ raw', raw = c.sealedBytes ++ raw' := by
  have hbegin : c.sealedBytes <+: raw := by
    refine List.prefix_of_prefix_length_le ?_ h.raw_prefix hlen
    rw [hrest, Chunk.wire_cons]
    exact List.prefix_append _ _
  obtain ⟨raw', hraw⟩ := hbegin
  exact ⟨raw', hraw.symm⟩

/-- The next decrypted chunk is delivered. -/
theorem advance {c : Chunk} {dec : List Chunk}
    (h : o.ReadsAs cap secret taken returned junk [] raw done (c :: dec) rest) :
    Reading.advanceChunk o =
        ({ o with
           readableStart := o.readableStart + tagSize
           chunkReminder := c.plain.length }, true) ∧
      ({ o with
         readableStart := o.readableStart + tagSize
         chunkReminder := c.plain.length } : Output aead).ReadsAs cap secret taken returned
        (junk ++ c.header) c.plain raw (done ++ [c]) dec rest := by
  have hc : c.Valid aead secret cap := by
    refine h.valid c (List.mem_append_left _ (List.mem_append_right _ List.mem_cons_self))
  have hopened := hc.length_openedBytes
  have hzero : o.chunkReminder = 0 := h.reminder
  -- a chunk that waits is not empty, so the loop goes on to it
  have hmore : o.readableStart ≠ o.readableEnd := by
    rw [h.start, h.stop, Chunk.opened_cons, List.length_append]
    have := hc.plain_pos
    omega
  have hguard : ¬ (o.chunkReminder ≠ 0 ∨ o.readableStart = o.readableEnd) := by
    rintro (hne | heq)
    · exact hne hzero
    · exact hmore heq
  have htwo : (o.readBuffer.toList.drop o.readableStart).take 2 = toBe16 c.plain.length := by
    rw [h.drop_start, Chunk.opened_cons, Chunk.openedBytes, Chunk.header]
    simp only [List.append_assoc, List.nil_append]
    rfl
  constructor
  · rw [Reading.advanceChunk, if_neg hguard, htwo, Chunk.fromBe16_toBe16 hc.short]
  · refine
      { h with
        valid := ?_
        buffer := ?_
        start := ?_
        stop := ?_
        reminder := rfl
        taken_eq := ?_
        returned_eq := ?_ }
    · intro d hd
      refine h.valid d ?_
      simpa [or_assoc] using hd
    · rw [h.buffer, Chunk.opened_cons, Chunk.openedBytes]
      simp only [List.append_assoc, List.nil_append]
    · show o.readableStart + tagSize = _
      rw [h.start, List.length_append, hc.length_header]
    · rw [h.stop, Chunk.opened_cons, List.length_append, List.length_append, hopened,
        hc.length_header, List.length_nil]
      omega
    · rw [h.taken_eq, List.append_assoc done]
      rfl
    · have hret := h.returned_eq
      rw [List.append_nil] at hret
      rw [hret, Chunk.text_append, Chunk.text_cons, Chunk.text_nil, List.append_nil]

/-- Some of the chunk is delivered. -/
theorem deliver (h : o.ReadsAs cap secret taken returned junk cur raw done dec rest) {n : Nat}
    (hn : n ≤ cur.length) :
    ({ o with
       chunkReminder := o.chunkReminder - n
       readableStart := o.readableStart + n } : Output aead).ReadsAs cap secret taken
      (returned ++ (o.readBuffer.toList.drop o.readableStart).take n) (junk ++ cur.take n)
      (cur.drop n) raw done dec rest := by
  have htake : (o.readBuffer.toList.drop o.readableStart).take n = cur.take n := by
    rw [h.drop_start, List.take_append_of_le_length hn]
  refine
    { h with
      buffer := ?_
      start := ?_
      stop := ?_
      reminder := ?_
      returned_eq := ?_ }
  · rw [h.buffer, List.append_assoc, ← List.append_assoc (cur.take n), List.take_append_drop]
  · show o.readableStart + n = _
    rw [h.start, List.length_append, List.length_take_of_le hn]
  · rw [h.stop, List.length_append, List.length_take_of_le hn, List.length_drop]
    omega
  · show o.chunkReminder - n = _
    rw [h.reminder, List.length_drop]
  · rw [htake, List.append_assoc, List.take_append_drop]
    exact h.returned_eq

end ReadsAs

end Output

/-! ## `poll_read` -/

/-- The transport hands over everything it holds, in any fragments, before it
is pending. -/
def Delivers (wire : Bytes) (answers : List Answer) : Prop :=
  wire.length ≤ answers.length ∧ .pending ∉ answers.take wire.length

instance (wire : Bytes) (answers : List Answer) : Decidable (Delivers wire answers) :=
  inferInstanceAs (Decidable (_ ∧ _))

/-- A fragment later it still does. -/
theorem Delivers.drop {wire : Bytes} {n m : Nat} {answers : List Answer}
    (h : Delivers wire (.ready n :: answers)) (hne : wire ≠ []) (hm : 0 < m) :
    Delivers (wire.drop m) answers := by
  obtain ⟨hlen, hmem⟩ := h
  obtain ⟨k, hk⟩ := Nat.exists_eq_succ_of_ne_zero fun h0 => hne (List.length_eq_zero_iff.mp h0)
  rw [hk] at hlen hmem
  have hle : (wire.drop m).length ≤ k := by
    rw [List.length_drop]
    omega
  refine ⟨Nat.le_trans hle (Nat.le_of_succ_le_succ hlen), ?_⟩
  intro hin
  exact hmem (List.mem_cons_of_mem _ ((List.take_sublist_take_left hle).mem hin))

/-- A transport with something to hand over is ready. -/
theorem Delivers.ready {wire : Bytes} {answers : List Answer} (h : Delivers wire answers)
    (hne : wire ≠ []) (hsteady : ∀ a ∈ answers, a.Steady) :
    ∃ n answers', answers = .ready n :: answers' := by
  obtain ⟨hlen, hmem⟩ := h
  obtain ⟨k, hk⟩ := Nat.exists_eq_succ_of_ne_zero fun h0 => hne (List.length_eq_zero_iff.mp h0)
  rw [hk] at hlen hmem
  cases answers with
  | nil => exact absurd hlen (Nat.not_succ_le_zero k)
  | cons answer answers =>
      cases answer with
      | pending => exact absurd List.mem_cons_self hmem
      | failed e => exact (hsteady _ List.mem_cons_self).elim
      | ready n => exact ⟨n, answers, rfl⟩

namespace Reading

/-- What a `poll_read` into `room` bytes keeps, of a stream whose transport got
`stream` in all, from a reader that had returned `returned`. -/
structure Inv (cap : Nat) (secret : SharedSecret) (chunks : List Chunk) (stream returned : Bytes)
    (room : Nat) (closed : Bool) (r : Reading aead) : Prop where
  closed_eq : r.closed = closed
  room_eq : r.got.length + r.room = room
  reads : ∃ taken, taken ++ r.wire = stream ∧
    r.out.Reads cap secret chunks taken (returned ++ r.got)

/-- The answers that are left; `full` when the transport hands over everything. -/
structure Answers (full : Prop) (r : Reading aead) : Prop where
  steady : ∀ a ∈ r.answers, a.Steady
  delivers : full → Delivers r.wire r.answers

/-- Every byte moves on: from the transport to the bytes not decrypted, to the
decrypted ones, to the used up ones, out of the buffer. -/
def measure (r : Reading aead) : Nat :=
  4 * r.wire.length + 3 * (r.out.readBuffer.toList.length - r.out.readableEnd) +
    2 * (r.out.readableEnd - r.out.readableStart) + r.out.readableStart

/-- The only error is the end of a closed transport. -/
def AtEnd (closed : Bool) (_ : Reading aead) (e : ErrorKind) : Prop :=
  closed = true ∧ e = .unexpectedEof

variable {chunks : List Chunk} {stream returned : Bytes} {room bound : Nat} {full : Prop}
  {closed : Bool} {r : Reading aead}

/-- The invariant of the loop. -/
def Kept (cap : Nat) (secret : SharedSecret) (chunks : List Chunk) (stream returned : Bytes)
    (room : Nat) (closed : Bool) (full : Prop) (r : Reading aead) : Prop :=
  r.Inv cap secret chunks stream returned room closed ∧ r.Answers full

theorem gc_spec (h : r.Kept cap secret chunks stream returned room closed full) :
    r.gc.Advances (Kept cap secret chunks stream returned room closed full) (AtEnd closed) measure
      r.measure := by
  have hkept := h
  obtain ⟨⟨hclosed, hroom, taken, htaken, junk, cur, raw, done, dec, rest, hchunks, hr⟩,
    hanswers⟩ := h
  rw [gc]
  split
  · exact .idle hkept (Nat.le_refl _)
  · rename_i hguard
    have hstart : r.out.readableStart ≠ 0 := fun h0 => hguard (.inr h0)
    have hlength := hr.length_buffer
    have hle := hr.start_le_stop
    refine .change ⟨⟨hclosed, hroom, taken, htaken, _, _, _, _, _, _, hchunks, hr.gc⟩,
      ⟨hanswers.steady, hanswers.delivers⟩⟩ ?_
    simp only [measure, Vec.toList_drain, List.length_drop]
    omega

theorem readLoop_spec (hstream : stream <+: Chunk.wire chunks) {answers : List Answer}
    {updated : Bool} (h : r.Inv cap secret chunks stream returned room closed)
    (hanswers : ∀ a ∈ answers, a.Steady) (hfull : full → Delivers r.wire answers)
    (hle : r.measure ≤ bound) (hlt : updated = true → r.measure < bound) :
    (r.readLoop updated answers).Advances
      (Kept cap secret chunks stream returned room closed full) (AtEnd closed) measure bound := by
  induction answers generalizing r updated with
  | nil => exact ⟨⟨⟨h.closed_eq, h.room_eq, h.reads⟩, ⟨hanswers, hfull⟩⟩, hle, hlt⟩
  | cons answer answers ih =>
      obtain ⟨hclosed, hroom, hreads⟩ := h
      obtain ⟨hanswer, hrest⟩ := List.forall_mem_cons.mp hanswers
      simp only [readLoop]
      split
      · exact ⟨⟨⟨hclosed, hroom, hreads⟩, ⟨hanswers, hfull⟩⟩, hle, hlt⟩
      · rename_i hspare
        cases answer with
        | pending =>
            refine ⟨⟨⟨hclosed, hroom, hreads⟩, ⟨hrest, ?_⟩⟩, hle, hlt⟩
            intro hf
            obtain ⟨hlen, hmem⟩ := hfull hf
            -- an answer that delivers everything cannot be pending while bytes are on the wire
            have hnil : r.wire = [] := by
              by_contra hne
              obtain ⟨k, hk⟩ :=
                Nat.exists_eq_succ_of_ne_zero fun h0 => hne (List.length_eq_zero_iff.mp h0)
              rw [hk] at hmem
              exact hmem List.mem_cons_self
            rw [hnil]
            exact ⟨Nat.zero_le _, List.not_mem_nil⟩
        | failed e => exact hanswer.elim
        | ready n =>
            dsimp only
            split
            · rename_i hnil
              split
              · rename_i hc
                rw [hclosed] at hc
                exact ⟨⟨hc, rfl⟩, trivial⟩
              · refine ⟨⟨⟨hclosed, hroom, hreads⟩, ⟨hrest, ?_⟩⟩, hle, hlt⟩
                intro hf
                show Delivers r.wire answers
                rw [hnil]
                exact ⟨Nat.zero_le _, List.not_mem_nil⟩
            · rename_i hne
              obtain ⟨taken, htaken, junk, cur, raw, done, dec, rest, rfl, hr⟩ := hreads
              -- a read of at least one byte, and of no more than there is room for
              generalize hm : max 1 (min n (min r.out.readBuffer.spare r.wire.length)) = m
              have hpos : 0 < r.wire.length := List.length_pos_iff.mpr hne
              have hfits : (r.wire.take m).length ≤ r.out.readBuffer.spare := by
                rw [List.length_take]
                omega
              have hwire : taken ++ r.wire.take m ++ r.wire.drop m = stream := by
                rw [List.append_assoc, List.take_append_drop, htaken]
              have hbegin : taken ++ r.wire.take m <+: Chunk.wire (done ++ dec ++ rest) := by
                refine List.IsPrefix.trans ?_ hstream
                exact ⟨_, hwire⟩
              have hr' := hr.fill hfits hbegin
              have hlength := hr.length_buffer
              have hlength' := hr'.length_buffer
              -- bytes that moved from the wire to the buffer count for less
              have hlower : ({ r with
                  out := { r.out with readBuffer := r.out.readBuffer.fill (r.wire.take m) }
                  wire := r.wire.drop m } : Reading aead).measure < r.measure := by
                have hraw : (raw ++ r.wire.take m).length = raw.length + (r.wire.take m).length :=
                  List.length_append
                have htake := List.length_take (i := m) (l := r.wire)
                simp only [measure, List.length_drop] at hlength' ⊢
                omega
              refine ih ?_ hrest ?_ ?_ ?_
              · exact ⟨hclosed, hroom, _, hwire, _, _, _, _, _, _, rfl, hr'⟩
              · intro hf
                exact (hfull hf).drop hne (by omega)
              · exact Nat.le_of_lt (Nat.lt_of_lt_of_le hlower hle)
              · exact fun _ => Nat.lt_of_lt_of_le hlower hle

theorem readInner_spec (hstream : stream <+: Chunk.wire chunks)
    (h : r.Kept cap secret chunks stream returned room closed full) :
    r.readInner.Advances (Kept cap secret chunks stream returned room closed full) (AtEnd closed)
      measure r.measure := by
  refine readLoop_spec hstream h.1 h.2.steady h.2.delivers (Nat.le_refl _) ?_
  intro hf
  cases hf

/-- Chunks are decrypted while whole ones are there. -/
theorem decryptLoop_spec {fuel : Nat} {updated : Bool}
    (h : r.Kept cap secret chunks stream returned room closed full) (hle : r.measure ≤ bound)
    (hlt : updated = true → r.measure < bound) :
    (decryptLoop fuel r updated).Advances (Kept cap secret chunks stream returned room closed full)
      (AtEnd closed) measure bound := by
  induction fuel generalizing r updated with
  | zero => exact ⟨h, hle, hlt⟩
  | succ fuel ih =>
      have hkept := h
      obtain ⟨⟨hclosed, hroom, taken, htaken, junk, cur, raw, done, dec, rest, hchunks, hr⟩,
        hanswers⟩ := h
      rw [decryptLoop]
      by_cases hwhole : ∃ c rest', rest = c :: rest' ∧ c.sealedBytes.length ≤ raw.length
      · obtain ⟨c, rest', rfl, hlen⟩ := hwhole
        obtain ⟨raw', rfl⟩ := hr.raw_eq rfl hlen
        obtain ⟨o', hone, hr', hbuffer, hstop, hstart⟩ := hr.decryptOne_some
        have hc := (hr.valid c (List.mem_append_right _ List.mem_cons_self)).length_sealedBytes
        -- a decrypted chunk loses its tag, so less is left to do
        have hlower : ({ r with out := o' } : Reading aead).measure < r.measure := by
          have hlength := hr.length_buffer
          have hstop_le := hr.start_le_stop
          have hsealed : 0 < c.sealedBytes.length := by
            rw [hc]
            simp only [tagSize]
            omega
          rw [List.length_append] at hlength
          simp only [measure, hbuffer, hstop, hstart]
          omega
        rw [hone]
        refine ih ⟨⟨hclosed, hroom, taken, htaken, _, _, _, _, _, _, ?_, hr'⟩, ?_⟩ ?_ ?_
        · rw [hchunks]
          simp only [List.append_assoc, List.singleton_append]
        · exact ⟨hanswers.steady, hanswers.delivers⟩
        · exact Nat.le_of_lt (Nat.lt_of_lt_of_le hlower hle)
        · exact fun _ => Nat.lt_of_lt_of_le hlower hle
      · -- less than a chunk is left in the buffer
        have hnone : decryptOne r.out = none := by
          refine hr.decryptOne_none ?_
          intro c rest' hrest
          by_contra hge
          exact hwhole ⟨c, rest', hrest, Nat.le_of_not_lt hge⟩
        rw [hnone]
        exact ⟨hkept, hle, hlt⟩

theorem decrypt_spec (h : r.Kept cap secret chunks stream returned room closed full) :
    r.decrypt.Advances (Kept cap secret chunks stream returned room closed full) (AtEnd closed)
      measure r.measure := by
  refine decryptLoop_spec h (Nat.le_refl _) ?_
  intro hf
  cases hf

/-- Starting on the next chunk. -/
theorem advanceChunk_spec (h : r.Inv cap secret chunks stream returned room closed) :
    ({ r with out := (advanceChunk r.out).1 } : Reading aead).Inv cap secret chunks stream returned
        room closed ∧
      ({ r with out := (advanceChunk r.out).1 } : Reading aead).measure ≤ r.measure ∧
      ((advanceChunk r.out).2 = true →
        ({ r with out := (advanceChunk r.out).1 } : Reading aead).measure < r.measure) := by
  have hinv := h
  obtain ⟨hclosed, hroom, taken, htaken, junk, cur, raw, done, dec, rest, hchunks, hr⟩ := h
  by_cases hguard : r.out.chunkReminder ≠ 0 ∨ r.out.readableStart = r.out.readableEnd
  · have hidle : advanceChunk r.out = (r.out, false) := if_pos hguard
    rw [hidle]
    refine ⟨hinv, Nat.le_refl _, ?_⟩
    intro hf
    cases hf
  · have hcur : cur = [] := by
      have hreminder := hr.reminder
      refine List.length_eq_zero_iff.mp ?_
      rw [← hreminder]
      exact not_not.mp fun hne => hguard (.inl hne)
    subst hcur
    cases dec with
    | nil =>
        exact absurd (hr.start.trans hr.stop.symm) fun heq => hguard (.inr heq)
    | cons c dec =>
        obtain ⟨hadvance, hr'⟩ := hr.advance
        have hlower : ({ r with
            out := { r.out with
              readableStart := r.out.readableStart + tagSize
              chunkReminder := c.plain.length } } : Reading aead).measure < r.measure := by
          have hstop := hr'.start_le_stop
          simp only [measure, tagSize] at hstop ⊢
          omega
        rw [hadvance]
        refine ⟨⟨hclosed, hroom, taken, htaken, _, _, _, _, _, _, ?_, hr'⟩, Nat.le_of_lt hlower,
          fun _ => hlower⟩
        rw [hchunks]
        simp only [List.append_assoc, List.singleton_append]

/-- Decrypted chunks are delivered while there is room. -/
theorem writeLoop_spec {fuel : Nat} {updated : Bool}
    (h : r.Kept cap secret chunks stream returned room closed full) (hle : r.measure ≤ bound)
    (hlt : updated = true → r.measure < bound) :
    (writeLoop fuel r updated).Advances (Kept cap secret chunks stream returned room closed full)
      (AtEnd closed) measure bound := by
  induction fuel generalizing r updated with
  | zero => exact ⟨h, hle, hlt⟩
  | succ fuel ih =>
      obtain ⟨hinv, hanswers⟩ := h
      obtain ⟨hinv', hle', hlt'⟩ := advanceChunk_spec hinv
      simp only [writeLoop]
      generalize hout : (advanceChunk r.out).1 = out at hinv' hle' hlt' ⊢
      generalize hm : min out.chunkReminder r.room = m
      split
      · -- nothing to deliver, or no room for it
        refine ⟨⟨hinv', ⟨hanswers.steady, hanswers.delivers⟩⟩, Nat.le_trans hle' hle, ?_⟩
        intro hor
        rcases Bool.or_eq_true _ _ |>.mp hor with hu | hu
        · exact Nat.lt_of_le_of_lt hle' (hlt hu)
        · exact Nat.lt_of_lt_of_le (hlt' hu) hle
      · rename_i hpos
        obtain ⟨hclosed, hroom, taken, htaken, junk, cur, raw, done, dec, rest, hchunks, hr⟩ :=
          hinv'
        have hcur : m ≤ cur.length := by
          rw [← hr.reminder]
          show m ≤ out.chunkReminder
          omega
        have hr' := hr.deliver hcur
        -- what is delivered is the front of the current chunk
        have hlen : ((out.readBuffer.toList.drop out.readableStart).take m).length = m := by
          have hdrop := congrArg List.length hr.drop_start
          simp only [List.length_append] at hdrop
          rw [List.length_take, hdrop]
          omega
        have hlower : ({ r with
            out := { out with
              chunkReminder := out.chunkReminder - m
              readableStart := out.readableStart + m }
            room := r.room - m
            got := r.got ++ (out.readBuffer.toList.drop out.readableStart).take m } :
              Reading aead).measure < r.measure := by
          have hstop := hr'.start_le_stop
          simp only [measure] at hle' hstop ⊢
          omega
        refine ih ⟨⟨hclosed, ?_, taken, htaken, ?_⟩, ?_⟩ ?_ ?_
        · show (r.got ++ _).length + (r.room - m) = room
          have hroom' : r.got.length + r.room = room := hroom
          rw [List.length_append, hlen]
          omega
        · show Output.Reads _ cap secret chunks taken (returned ++ (r.got ++ _))
          rw [← List.append_assoc]
          exact ⟨_, _, _, _, _, _, hchunks, hr'⟩
        · exact ⟨hanswers.steady, hanswers.delivers⟩
        · exact Nat.le_of_lt (Nat.lt_of_lt_of_le hlower hle)
        · exact fun _ => Nat.lt_of_lt_of_le hlower hle

theorem writeBuf_spec (h : r.Kept cap secret chunks stream returned room closed full) :
    r.writeBuf.Advances (Kept cap secret chunks stream returned room closed full) (AtEnd closed)
      measure r.measure := by
  refine writeLoop_spec h (Nat.le_refl _) ?_
  intro hf
  cases hf

/-- One round keeps the invariant and moves bytes on, if it does anything. -/
theorem round_spec (hstream : stream <+: Chunk.wire chunks)
    (h : r.Kept cap secret chunks stream returned room closed full) :
    r.round.Advances (Kept cap secret chunks stream returned room closed full)
      (AtEnd closed) measure
      r.measure :=
  (((gc_spec h).andThen fun _ => readInner_spec hstream).andThen fun _ => decrypt_spec).andThen
    fun _ => writeBuf_spec

/-! ### The last round -/

theorem gc_quiet {s : Reading aead} (h : r.gc = .next s false) :
    s = r ∧ (r.out.readBuffer.toList.length ≠ r.out.readBuffer.capacity ∨
      r.out.readableStart = 0) := by
  simp only [gc] at h
  split at h
  · rename_i hguard
    obtain ⟨rfl, -⟩ := Outcome.next.inj h
    exact ⟨rfl, hguard⟩
  · obtain ⟨-, hf⟩ := Outcome.next.inj h
    cases hf

/-- Once something was read, a change is reported. -/
theorem readLoop_updated {answers : List Answer} {s : Reading aead} :
    r.readLoop true answers ≠ .next s false := by
  induction answers generalizing r with
  | nil =>
      intro h
      obtain ⟨-, hf⟩ := Outcome.next.inj h
      cases hf
  | cons answer answers ih =>
      intro h
      simp only [readLoop] at h
      split at h
      · obtain ⟨-, hf⟩ := Outcome.next.inj h
        cases hf
      · cases answer with
        | pending =>
            obtain ⟨-, hf⟩ := Outcome.next.inj h
            cases hf
        | failed e => cases h
        | ready n =>
            dsimp only at h
            split at h
            · split at h
              · cases h
              · obtain ⟨-, hf⟩ := Outcome.next.inj h
                cases hf
            · exact ih h

/-- Nothing is read when the buffer is full, or when the transport is pending or
has nothing. -/
theorem readInner_quiet {s : Reading aead} (h : r.readInner = .next s false) :
    (∃ answers, s = { r with answers }) ∧
      (r.out.readBuffer.spare = 0 ∨ r.wire = [] ∨
        ∀ n answers, r.answers ≠ .ready n :: answers) := by
  simp only [readInner] at h
  cases hanswers : r.answers with
  | nil =>
      rw [hanswers] at h
      obtain ⟨rfl, -⟩ := Outcome.next.inj h
      refine ⟨⟨[], rfl⟩, .inr (.inr ?_)⟩
      intro n answers hcons
      cases hcons
  | cons answer answers =>
      rw [hanswers] at h
      simp only [readLoop] at h
      split at h
      · rename_i hspare
        obtain ⟨rfl, -⟩ := Outcome.next.inj h
        exact ⟨⟨_, rfl⟩, .inl hspare⟩
      · cases answer with
        | pending =>
            obtain ⟨rfl, -⟩ := Outcome.next.inj h
            refine ⟨⟨_, rfl⟩, .inr (.inr ?_)⟩
            intro n answers' hcons
            obtain ⟨hf, -⟩ := List.cons.inj hcons
            cases hf
        | failed e => cases h
        | ready n =>
            dsimp only at h
            split at h
            · rename_i hnil
              split at h
              · cases h
              · obtain ⟨rfl, -⟩ := Outcome.next.inj h
                exact ⟨⟨_, rfl⟩, .inr (.inl hnil)⟩
            · exact absurd h readLoop_updated

theorem decryptLoop_updated {fuel : Nat} {s : Reading aead} :
    decryptLoop fuel r true ≠ .next s false := by
  induction fuel generalizing r with
  | zero =>
      intro h
      obtain ⟨-, hf⟩ := Outcome.next.inj h
      cases hf
  | succ fuel ih =>
      intro h
      rw [decryptLoop] at h
      split at h
      · obtain ⟨-, hf⟩ := Outcome.next.inj h
        cases hf
      · cases h
      · exact ih h

theorem decrypt_quiet {s : Reading aead} (h : r.decrypt = .next s false) :
    s = r ∧ (r.out.readBuffer.toList = [] ∨ decryptOne r.out = none) := by
  rw [decrypt] at h
  cases hlen : r.out.readBuffer.toList.length with
  | zero =>
      rw [hlen] at h
      obtain ⟨rfl, -⟩ := Outcome.next.inj h
      exact ⟨rfl, .inl (List.length_eq_zero_iff.mp hlen)⟩
  | succ fuel =>
      rw [hlen, decryptLoop] at h
      split at h
      · rename_i hnone
        obtain ⟨rfl, -⟩ := Outcome.next.inj h
        exact ⟨rfl, .inr hnone⟩
      · cases h
      · exact absurd h decryptLoop_updated

theorem writeLoop_updated {fuel : Nat} {s : Reading aead} :
    writeLoop fuel r true ≠ .next s false := by
  induction fuel generalizing r with
  | zero =>
      intro h
      obtain ⟨-, hf⟩ := Outcome.next.inj h
      cases hf
  | succ fuel ih =>
      intro h
      simp only [writeLoop] at h
      split at h
      · obtain ⟨-, hf⟩ := Outcome.next.inj h
        cases hf
      · exact ih h

theorem writeBuf_quiet {s : Reading aead} (h : r.writeBuf = .next s false) :
    s = r ∧ (r.out.chunkReminder ≠ 0 ∨ r.out.readableStart = r.out.readableEnd) ∧
      min r.out.chunkReminder r.room = 0 := by
  simp only [writeBuf, writeLoop, Bool.false_or] at h
  split at h
  · rename_i hzero
    obtain ⟨hs, hadvanced⟩ := Outcome.next.inj h
    by_cases hguard : r.out.chunkReminder ≠ 0 ∨ r.out.readableStart = r.out.readableEnd
    · have hidle : advanceChunk r.out = (r.out, false) := if_pos hguard
      rw [hidle] at hs hzero
      exact ⟨hs.symm, hguard, hzero⟩
    · rw [advanceChunk, if_neg hguard] at hadvanced
      cases hadvanced
  · exact absurd h writeLoop_updated

/-- The last round found the buffer not full or without anything to move out,
could read nothing, had no whole chunk, and nothing or no room to deliver. -/
theorem round_quiet {s : Reading aead} (h : r.round = .next s false) :
    (∃ answers, s = { r with answers }) ∧
      (r.out.readBuffer.toList.length ≠ r.out.readBuffer.capacity ∨ r.out.readableStart = 0) ∧
      (r.out.readBuffer.spare = 0 ∨ r.wire = [] ∨ ∀ n answers, r.answers ≠ .ready n :: answers) ∧
      (r.out.readBuffer.toList = [] ∨ decryptOne r.out = none) ∧
      (r.out.chunkReminder ≠ 0 ∨ r.out.readableStart = r.out.readableEnd) ∧
      min r.out.chunkReminder r.room = 0 := by
  obtain ⟨t₃, h, hwrite⟩ := Outcome.andThen_quiet h
  obtain ⟨t₂, h, hdecrypt⟩ := Outcome.andThen_quiet h
  obtain ⟨t₁, hgc, hread⟩ := Outcome.andThen_quiet h
  obtain ⟨rfl, hfull⟩ := gc_quiet hgc
  obtain ⟨⟨answers, rfl⟩, hempty⟩ := readInner_quiet hread
  obtain ⟨rfl, hnone⟩ := decrypt_quiet hdecrypt
  obtain ⟨rfl, hdelivered⟩ := writeBuf_quiet hwrite
  exact ⟨⟨answers, rfl⟩, hfull, hempty, hnone, hdelivered⟩

end Reading

namespace Output

variable {o : Output aead} {taken returned junk cur raw : Bytes} {done dec rest chunks : List Chunk}

/-- Nothing is kept from the reader: all of the first chunks was returned, and
the next one is not on the wire yet. -/
def UpToDate (chunks : List Chunk) (stream returned : Bytes) : Prop :=
  ∃ done rest, chunks = done ++ rest ∧ returned = Chunk.text done ∧
    ∀ c rest', rest = c :: rest' → ¬ Chunk.wire (done ++ [c]) <+: stream

theorem opened_eq_nil {cs : List Chunk} (h : ∀ c ∈ cs, c.Valid aead secret cap)
    (hnil : (Chunk.opened cs).length = 0) : cs = [] := by
  cases cs with
  | nil => rfl
  | cons c cs =>
      have hc := (h c List.mem_cons_self).length_openedBytes
      rw [Chunk.opened_cons, List.length_append, hc] at hnil
      simp only [tagSize] at hnil
      omega

/-- Where the loop of `poll_read` ends without a byte although there was room and
the transport handed over everything, the reader is up to date. -/
theorem upToDate_of_quiet {r s : Reading aead} {stream : Bytes} {room : Nat} {closed : Bool}
    {full : Prop} (h : r.Kept cap secret chunks stream returned room closed full) (hfull : full)
    (hquiet : r.round = .next s false) (hroom : 0 < room) (hgot : s.got = []) :
    UpToDate chunks stream returned := by
  obtain ⟨⟨answers, rfl⟩, hgc, hread, hdecrypt, hchunk, hmin⟩ := Reading.round_quiet hquiet
  obtain ⟨⟨-, hroom', taken, htaken, junk, cur, raw, done, dec, rest, hchunks, hr⟩, hanswers⟩ := h
  have hgot' : r.got = [] := hgot
  rw [hgot'] at hr hroom'
  rw [List.append_nil] at hr
  -- the last chunk is delivered and no other one is decrypted
  have hreminder : r.out.chunkReminder = 0 := by
    simp only [List.length_nil] at hroom'
    omega
  have hcur : cur = [] := by
    refine List.length_eq_zero_iff.mp ?_
    rw [← hr.reminder]
    exact hreminder
  have hdec : dec = [] := by
    have hvalid : ∀ c ∈ dec, c.Valid aead secret cap := by
      intro c hc
      exact hr.valid c (List.mem_append_left _ (List.mem_append_right _ hc))
    have heq := hchunk.resolve_left (not_not_intro hreminder)
    rw [hr.start, hr.stop] at heq
    apply opened_eq_nil hvalid
    omega
  subst hcur hdec
  refine ⟨done, rest, ?_, ?_, ?_⟩
  · rw [hchunks, List.append_nil]
  · rw [← hr.returned_eq, List.append_nil]
  · intro c rest' hrest hbegin
    have hc : c.Valid aead secret cap := by
      refine hr.valid c (List.mem_append_right _ ?_)
      rw [hrest]
      exact List.mem_cons_self
    have hsealed := hc.length_sealedBytes
    have hshort : raw.length < c.sealedBytes.length := by
      by_contra hge
      have hge' : c.sealedBytes.length ≤ raw.length := Nat.le_of_not_lt hge
      obtain ⟨raw', rfl⟩ := hr.raw_eq hrest hge'
      subst hrest
      rcases hdecrypt with hnil | hnone
      · have hbuffer := hr.buffer
        rw [hnil] at hbuffer
        have hlen := congrArg List.length hbuffer
        simp only [List.length_append, List.length_nil, hsealed, tagSize] at hlen
        omega
      · obtain ⟨o', hsome, -⟩ := hr.decryptOne_some
        rw [hnone] at hsome
        cases hsome
    have hlength := hr.length_buffer
    have hended : r.out.readBuffer.spare = 0 ∨ r.wire = [] := by
      rcases hread with hspare | hnil | hpending
      · exact .inl hspare
      · exact .inr hnil
      · by_contra hne
        obtain ⟨-, hwire⟩ := not_or.mp hne
        obtain ⟨n, answers', hready⟩ := (hanswers.delivers hfull).ready hwire hanswers.steady
        exact hpending n answers' hready
    rcases hended with hspare | hnil
    · -- a full buffer without junk holds the chunk
      have hle := r.out.readBuffer.length_le
      have hcap := hr.capacity
      have hfullbuf : r.out.readBuffer.toList.length = r.out.readBuffer.capacity := by
        simp only [Vec.spare] at hspare
        omega
      have hstart := hgc.resolve_left (not_not_intro hfullbuf)
      have hjunk := hr.start
      have hstop := hr.stop
      have hfits := hc.fits
      simp only [Chunk.opened_nil, List.length_nil] at hstop
      omega
    · -- the chunk came with the rest of the stream
      rw [hnil, List.append_nil] at htaken
      rw [← htaken, hr.taken_eq, Chunk.wire_append, List.append_nil, Chunk.wire_cons,
        Chunk.wire_nil, List.append_nil] at hbegin
      have hlen := ((List.prefix_append_right_inj _).mp hbegin).length_le
      omega

/-- **`poll_read`** returns the next bytes of the stream, or the end of a closed
transport. When it returns nothing although there was room and the transport
handed over everything, the reader is up to date. -/
theorem pollRead_spec {stream wire : Bytes} (hstream : stream <+: Chunk.wire chunks)
    (h : o.Reads cap secret chunks taken returned) (hwire : taken ++ wire = stream) (room : Nat)
    {answers : List Answer} (hanswers : ∀ a ∈ answers, a.Steady) (closed : Bool) :
    (∃ o' wire' got, o.pollRead room answers wire closed =
        some (o', wire', if got.length = 0 then .pending else .ready (.ok got)) ∧
      (∃ taken', taken' ++ wire' = stream ∧
        o'.Reads cap secret chunks taken' (returned ++ got)) ∧
      (Delivers wire answers → 0 < room → got = [] → UpToDate chunks stream returned)) ∨
    (closed = true ∧ ∃ o' wire', o.pollRead room answers wire closed =
      some (o', wire', .ready (.error .unexpectedEof))) := by
  let start : Reading aead := { out := o, room, got := [], answers, wire, closed }
  have hstart : start.Kept cap secret chunks stream returned room closed
      (Delivers wire answers) := by
    refine ⟨⟨rfl, ?_, taken, hwire, ?_⟩, ⟨hanswers, id⟩⟩
    · exact Nat.zero_add room
    · simpa [start] using h
  have hfuel : start.measure < start.fuel := by
    obtain ⟨junk, cur, raw, done, dec, rest, -, hr⟩ := h
    have hlength := hr.length_buffer
    have hle := hr.start_le_stop
    simp only [Reading.measure, Reading.fuel, start]
    omega
  rcases whileUpdated_spec (fun r hr => Reading.round_spec hstream hr) hstart hfuel with
    ⟨t, r, hrun, hr, ht, hquiet⟩ | ⟨r, e, hrun, hclosed, he⟩
  · obtain ⟨⟨-, -, hreads⟩, -⟩ := hr
    refine .inl ⟨r.out, r.wire, r.got, ?_, hreads, ?_⟩
    · simp only [pollRead]
      rw [show whileUpdated Reading.round _ _ = some (r, none) from hrun]
    · intro hfull hroom hgot
      exact upToDate_of_quiet ht hfull hquiet hroom hgot
  · refine .inr ⟨hclosed, r.out, r.wire, ?_⟩
    simp only [pollRead]
    rw [show whileUpdated Reading.round _ _ = some (r, some e) from hrun, he]

end Output

end OnionNetwork.Opfusk
