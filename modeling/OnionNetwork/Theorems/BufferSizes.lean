import OnionNetwork.Opfusk.Output
import OnionNetwork.Opfusk.Moves

/-!
# Which buffer sizes work

`Config::with_buffer_size` takes every size above `crypto::TAG_SIZE`, but the buffer holds a
header of `TAG_SIZE` bytes in front of a chunk and one behind it, and a length field of 16 bits.
`accepted_size_works_iff`: the sizes that work, in builds with debug assertions and without.
Too small a buffer fails the assertion, or is half full with nothing but a header, so that
`poll_write` encrypts empty chunks for ever; too large a one collects chunks whose length does
not fit into its field.
-/

namespace OnionNetwork.Opfusk

open Chat Lib Relation

variable {aead : Aead} {debugAssertions : Bool} {t : Transport} {rng : aead.Rng}
  {secret : SharedSecret} {bufferSize : Nat} {s s' start : Sender aead} {w w' : Sending aead}

/-! ### A new sender -/

/-- A new sender: a header, and the capacity that a vector has behind `extend`. -/
structure Sender.IsNew (s : Sender aead) (bufferSize : Nat) : Prop where
  start_eq : s.out.writableStart = 0
  end_eq : s.out.writableEnd = 0
  length_eq : s.out.writeBuffer.toList.length = tagSize
  capacity_eq : tagSize ≤ bufferSize → s.out.writeBuffer.capacity = bufferSize
  capacity_grown : bufferSize < tagSize →
    s.out.writeBuffer.capacity = max (2 * bufferSize) tagSize
  chunks_eq : s.chunks = []
  sent_eq : s.sent = []

theorem Sender.isNew_of_new (h : Sender.new rng secret bufferSize = some s) :
    s.IsNew bufferSize := by
  rw [new] at h
  split at h
  · cases h
  · obtain rfl := Option.some.inj h
    have hlen : (Vec.withCapacity bufferSize : Vec UInt8).toList.length +
        (List.replicate tagSize (0 : UInt8)).length = tagSize := by
      rw [List.length_replicate]
      exact Nat.zero_add _
    refine ⟨rfl, rfl, List.length_replicate, fun hle => ?_, fun hlt => ?_, rfl, rfl⟩
    · exact if_pos (hlen.le.trans hle)
    · show (if _ ≤ bufferSize then _ else max (2 * bufferSize) _) = _
      rw [hlen]
      exact if_neg (not_le.mpr hlt)

theorem Sender.new_isSome (h : bufferSize ≤ isizeMax) :
    ∃ s : Sender aead, Sender.new rng secret bufferSize = some s :=
  ⟨_, if_neg (not_lt.mpr h)⟩

/-! ### The chunk that is encrypted -/

namespace Sender

/-- The bytes that are collected. -/
def message (s : Sender aead) : Bytes :=
  (s.out.writeBuffer.toList.drop s.out.writableEnd).drop tagSize

/-- The chunk that they are encrypted to. -/
def nextChunk (s : Sender aead) : Emitted where
  lenField := toBe16 s.message.length
  tag := (aead.encrypt s.message s.out.secret s.out.rng).1.2
  body := (aead.encrypt s.message s.out.secret s.out.rng).1.1

theorem chunks_encrypted (s : Sender aead) : s.encrypted.chunks = s.chunks ++ [s.nextChunk] := rfl

theorem length_message (s : Sender aead) :
    s.message.length = s.out.writeBuffer.toList.length - s.out.writableEnd - tagSize := by
  rw [message, List.length_drop, List.length_drop]

theorem length_body (law : aead.Lawful) (s : Sender aead) :
    s.nextChunk.body.length = s.message.length :=
  law.length_encrypt _ _ _

/-- The length field holds the length modulo `2 ^ 16`. -/
theorem honest_nextChunk_iff (law : aead.Lawful) (s : Sender aead) :
    s.nextChunk.Honest ↔ s.message.length < 2 ^ 16 := by
  rw [Emitted.Honest, s.length_body law]
  constructor
  · intro h
    have hhi := (UInt8.ofNat (s.message.length / 256)).toNat_lt
    have hlo := (UInt8.ofNat s.message.length).toNat_lt
    rw [← h]
    show (UInt8.ofNat (s.message.length / 256)).toNat * 256 +
      (UInt8.ofNat s.message.length).toNat < 2 ^ 16
    omega
  · exact Chunk.fromBe16_toBe16

/-- Encrypting puts the chunk behind the bytes that the transport has not taken. -/
theorem writable_encrypted (law : aead.Lawful) (h : Sound debugAssertions s.out) :
    s.encrypted.out.writable = s.out.writable ++ s.nextChunk.bytes := by
  have hstart := h.start_le
  have hend := h.end_le
  have hle : s.out.writableEnd ≤ s.out.writeBuffer.toList.length := by omega
  have hfront : (s.out.writeBuffer.toList.take s.out.writableEnd).length = s.out.writableEnd :=
    List.length_take_of_le hle
  have htag : s.nextChunk.tag.length = cryptoTagSize := law.length_tag _ _ _
  have hbody := s.length_body law
  rw [s.length_message] at hbody
  have hlength : s.nextChunk.bytes.length =
      (s.out.writeBuffer.toList.drop s.out.writableEnd).length := by
    rw [Emitted.bytes, List.length_append, List.length_append, htag, hbody, List.length_drop]
    show 2 + cryptoTagSize + _ = _
    simp only [tagSize, cryptoTagSize] at *
    omega
  have hbuffer : s.out.writeBuffer.toList =
      s.out.writeBuffer.toList.take s.out.writableEnd ++
        s.out.writeBuffer.toList.drop s.out.writableEnd ++ [] := by
    rw [List.append_nil, List.take_append_drop]
  have hover := Vec.toList_overwrite hbuffer hlength
  rw [hfront, List.append_nil] at hover
  have hlen : (s.out.writeBuffer.overwrite s.out.writableEnd s.nextChunk.bytes).toList.length =
      s.out.writeBuffer.toList.length := Vec.length_overwrite _ _ _
  show (((s.out.writeBuffer.overwrite s.out.writableEnd s.nextChunk.bytes).toList ++
    List.replicate tagSize 0).take
      (s.out.writeBuffer.overwrite s.out.writableEnd s.nextChunk.bytes).toList.length).drop
        s.out.writableStart = _
  rw [List.take_left, hover, List.drop_append_of_le_length (by omega)]
  rfl

end Sender

/-! ### The sizes that work -/

/-- What all the states of a run have in common, if the buffer is not too large. -/
structure Kept (debugAssertions : Bool) (s : Sender aead) : Prop where
  sound : Sound debugAssertions s.out
  capacity_le : s.out.writeBuffer.capacity ≤ 65595
  honest : ∀ c ∈ s.chunks, c.Honest
  wire : s.sent ++ s.out.writable = (s.chunks.map Emitted.bytes).flatten

/-- A small buffer grows to less than twice its size, and another one does not grow. -/
theorem Sound.capacity_encrypted_le (h : Sound debugAssertions s.out)
    (hseal : s.out.writableEnd + tagSize < s.out.writeBuffer.toList.length ∨
      s.out.writeBuffer.capacity < 62) (hle : s.out.writeBuffer.capacity ≤ 65595) :
    s.encrypted.out.writeBuffer.capacity ≤ 65595 := by
  have hcap := s.out.capacity_encryptInProgress
  show s.out.encryptInProgress.writeBuffer.capacity ≤ 65595
  by_cases hsmall : s.out.writeBuffer.capacity < 62
  · obtain ⟨-, hnew, -, -⟩ := h.small hsmall
    simp only [hnew, tagSize, cryptoTagSize] at hcap
    split at hcap <;> omega
  · rw [hcap, if_pos (h.room (hseal.resolve_right hsmall))]
    exact hle

/-- The collected bytes leave room for two headers. -/
theorem Sound.length_message_lt (h : Sound debugAssertions s.out)
    (hle : s.out.writeBuffer.capacity ≤ 65595) : s.message.length < 2 ^ 16 := by
  have hlen := s.length_message
  have hroom := h.room
  simp only [tagSize, cryptoTagSize] at *
  omega

theorem Kept.moves (law : aead.Lawful) (h : Kept debugAssertions w.sender) (hmove : Moves w w') :
    Kept debugAssertions w'.sender := by
  have hsound := h.sound.moves hmove
  have hle : w.sender.out.writableEnd ≤ w.sender.out.writeBuffer.toList.length :=
    le_trans (Nat.le_add_right _ _) h.sound.end_le
  cases hmove with
  | encrypt hseal =>
      refine ⟨hsound, h.sound.capacity_encrypted_le hseal h.capacity_le, ?_, ?_⟩
      · intro c hc
        rw [Sender.chunks_encrypted, List.mem_append, List.mem_singleton] at hc
        rcases hc with hc | rfl
        · exact h.honest c hc
        · -- the new chunk is honest, as what is sealed fits the two bytes of its length
          exact (Sender.honest_nextChunk_iff law _).mpr (h.sound.length_message_lt h.capacity_le)
      · show w.sender.sent ++ w.sender.encrypted.out.writable = _
        rw [Sender.writable_encrypted law h.sound, ← List.append_assoc, h.wire,
          Sender.chunks_encrypted, List.map_append, List.flatten_append, List.map_singleton,
          List.flatten_singleton]
  | @take n hpos hn =>
      refine ⟨hsound, h.capacity_le, h.honest, ?_⟩
      show w.sender.sent ++ w.sender.out.writable.take n ++ (w.sender.taken n).out.writable = _
      have hrest : (w.sender.taken n).out.writable = w.sender.out.writable.drop n :=
        List.drop_drop.symm
      rw [hrest, List.append_assoc, List.take_append_drop]
      exact h.wire
  | collect hpos =>
      refine ⟨hsound, h.capacity_le, h.honest, ?_⟩
      -- moving the rest to the front does not change what is to be written
      have hrest : w.collected.sender.out.writable = w.sender.out.writable := by
        show ((w.sender.out.writeBuffer.toList.drop w.sender.out.writableStart).take
          (w.sender.out.writableEnd - w.sender.out.writableStart)).drop 0 = _
        rw [List.drop_zero]
        exact List.drop_take.symm
      show w.sender.sent ++ w.collected.sender.out.writable = _
      rw [hrest]
      exact h.wire
  | @fill n hpos hroom hn =>
      refine ⟨hsound, h.capacity_le, h.honest, ?_⟩
      have hfit : (w.buf.take n).length ≤ w.sender.out.writeBuffer.spare := by
        rw [List.length_take_of_le hn]
        omega
      have hrest : (w.filled n).sender.out.writable = w.sender.out.writable := by
        show ((w.sender.out.writeBuffer.fill (w.buf.take n)).toList.take
          w.sender.out.writableEnd).drop w.sender.out.writableStart = _
        rw [Vec.toList_fill hfit, List.take_append_of_le_length hle]
        rfl
      show w.sender.sent ++ (w.filled n).sender.out.writable = _
      rw [hrest]
      exact h.wire

/-- The sizes that leave room for a header on both sides of a chunk and for its length in 16
bits; without assertions, also the ones that grow to such a size with the first chunk. -/
def WorkingSize (debugAssertions : Bool) (bufferSize : Nat) : Prop :=
  bufferSize ≤ 65595 ∧
    (62 ≤ bufferSize ∨ debugAssertions = false ∧ bufferSize ≤ 59 ∧ bufferSize ≠ 30)

instance (debugAssertions : Bool) (bufferSize : Nat) :
    Decidable (WorkingSize debugAssertions bufferSize) :=
  inferInstanceAs (Decidable (_ ∧ _))

theorem Sender.IsNew.kept (h : s.IsNew bufferSize) (hsize : cryptoTagSize < bufferSize)
    (hwork : WorkingSize debugAssertions bufferSize) : Kept debugAssertions s := by
  obtain ⟨hstart, hend, hlength, hcap, hgrown, hchunks, hsent⟩ := h
  obtain ⟨hle, hwork⟩ := hwork
  have hfits := s.out.writeBuffer.length_le
  refine ⟨⟨by omega, by omega, by omega, fun hsmall => ?_⟩, ?_, ?_, ?_⟩
  · have hrelease : debugAssertions = false ∧ bufferSize ≤ 59 ∧ bufferSize ≠ 30 := by
      refine hwork.resolve_left fun hlarge => ?_
      simp only [tagSize, cryptoTagSize] at *
      omega
    refine ⟨hrelease.1, hlength, ?_⟩
    simp only [tagSize, cryptoTagSize] at *
    omega
  · simp only [tagSize, cryptoTagSize] at *
    omega
  · rw [hchunks]
    intro c hc
    cases hc
  · rw [hchunks, hsent, Output.writable, hend, List.take_zero, List.drop_nil]
    rfl

/-- **Runs of a size that works**: every state keeps what a new sender has. -/
theorem kept_of_run (law : aead.Lawful) (ht : t.Accepts) (hstart : Kept debugAssertions start)
    (hrun : Sender.Run debugAssertions t start s) : Kept debugAssertions s :=
  hrun.invariant (I := Kept debugAssertions) (fun _ h => h.sound)
    (fun _ _ h hmove => h.moves law hmove)
    (fun _ h => ⟨h.sound, h.capacity_le, h.honest, h.wire⟩) ht hstart

/-! ### The sizes that do not -/

/-- In a debug build a small buffer has no room for a second header. -/
theorem Sender.IsNew.panics (h : s.IsNew bufferSize) (hsmall : bufferSize < 60) (t : Transport)
    (buf : Bytes) :
    s.pollWrite true t 1 buf = some (s, .error .panic) := by
  obtain ⟨hstart, hend, hlength, hcap, hgrown, -, -⟩ := h
  have htag : tagSize = 30 := rfl
  have hfits := s.out.writeBuffer.length_le
  have hassert : true ∧ s.out.writeBuffer.capacity - s.out.writeBuffer.toList.length < tagSize :=
    ⟨rfl, by omega⟩
  have hnone : s.encryptInProgress true = none := by
    rw [Sender.encryptInProgress, if_neg (by omega), if_neg (by omega), if_pos hassert]
  have hend' : s.out.writableEnd ≤ s.out.writeBuffer.toList.length := by omega
  have hhalf : s.out.writeBuffer.capacity / 2 ≤
      s.out.writeBuffer.toList.length - s.out.writableEnd := by omega
  have hencrypt : Sending.encrypt true ⟨s, buf⟩ = .stop ⟨s, buf⟩ .panic := by
    rw [Sending.encrypt_full hend' hhalf]
    simp only [hnone]
  have hround : Sending.round true t ⟨s, buf⟩ = .stop ⟨s, buf⟩ .panic := by
    rw [Sending.round, hencrypt]
    rfl
  rw [Sender.pollWrite, whileUpdated, hround]

/-- A transport that takes whatever it gets. -/
def greedy : Transport where
  write _ := .ready (2 ^ 64)
  flush _ := .ready 0

theorem greedy_accepts : greedy.Accepts := fun _ => ⟨2 ^ 64, by decide, rfl⟩

/-- Half of the buffer is a header: there is always something to encrypt. -/
structure Endless (debugAssertions : Bool) (o : Output aead) : Prop where
  start_eq : o.writableStart = 0
  end_eq : o.writableEnd = 0
  header : tagSize ≤ o.writeBuffer.toList.length
  size : 60 ≤ o.writeBuffer.capacity ∧ o.writeBuffer.capacity ≤ 61 ∧
      o.writeBuffer.toList.length + tagSize ≤ o.writeBuffer.capacity ∨
    debugAssertions = false ∧ o.writeBuffer.capacity = 30

/-- Behind its first block the buffer is a chunk of `n` bytes and the next header. -/
structure Full (n : Nat) (o : Output aead) : Prop where
  start_eq : o.writableStart = 0
  end_eq : o.writableEnd = n
  header : tagSize ≤ n
  length_eq : o.writeBuffer.toList.length = n + tagSize
  capacity_ge : 60 ≤ o.writeBuffer.capacity
  capacity_le : o.writeBuffer.capacity ≤ 61
  fits : n + tagSize ≤ o.writeBuffer.capacity

theorem Endless.encrypt (h : Endless debugAssertions w.sender.out) :
    w.encrypt debugAssertions = .next { w with sender := w.sender.encrypted } true ∧
      Full w.sender.out.writeBuffer.toList.length w.sender.encrypted.out := by
  obtain ⟨hstart, hend, hheader, hsize⟩ := h
  have htag : tagSize = 30 := rfl
  have hfits := w.sender.out.writeBuffer.length_le
  have hassert : ¬ (debugAssertions ∧
      w.sender.out.writeBuffer.capacity - w.sender.out.writeBuffer.toList.length < tagSize) := by
    rintro ⟨rfl, hlt⟩
    rcases hsize with hsize | ⟨hfalse, -⟩
    · omega
    · cases hfalse
  have hsome : w.sender.encryptInProgress debugAssertions = some w.sender.encrypted := by
    rw [Sender.encryptInProgress, if_neg (by omega), if_neg (by omega), if_neg hassert]
  -- a capacity of 30 grows to 60
  have hcap : 60 ≤ w.sender.encrypted.out.writeBuffer.capacity ∧
      w.sender.encrypted.out.writeBuffer.capacity ≤ 61 ∧
      w.sender.out.writeBuffer.toList.length + tagSize ≤
        w.sender.encrypted.out.writeBuffer.capacity := by
    have hcap := w.sender.out.capacity_encryptInProgress
    change w.sender.encrypted.out.writeBuffer.capacity = _ at hcap
    split at hcap
    · omega
    · omega
  refine ⟨?_, hstart, w.sender.out.writableEnd_encryptInProgress, hheader,
    w.sender.out.length_encryptInProgress, hcap.1, hcap.2.1, hcap.2.2⟩
  rw [Sending.encrypt_full (by omega) (by omega)]
  simp only [hsome]

/-- The transport takes the chunk, and it is removed from the buffer. -/
theorem Full.handOver {n : Nat} (h : Full n w.sender.out) :
    ∃ w', w.writeInner greedy = .next w' true ∧ w'.gc = .next w'.collected true ∧
      w'.collected.sender.out.writeBuffer.toList.length = tagSize ∧
      w'.collected.sender.out.writableEnd = 0 ∧
      w'.collected.sender.out.writeBuffer.capacity = w.sender.out.writeBuffer.capacity := by
  obtain ⟨hstart, hend, hheader, hlength, hlo, hhi, hfits⟩ := h
  have htag : tagSize = 30 := rfl
  have hwritable : w.sender.out.writable.length = n := by
    rw [Output.length_writable (by omega), hend, hstart]
    rfl
  have hne : w.sender.out.writable ≠ [] := by
    rw [← List.length_pos_iff]
    omega
  have hmin : min (2 ^ 64) w.sender.out.writable.length = n := by omega
  let w' : Sending aead := { w with sender := w.sender.taken n }
  have hinner : w.writeInner greedy = .next w' true := by
    rw [Sending.writeInner_ready (by omega) (by omega) hne (by decide) rfl, hmin]
  have hstart' : w'.sender.out.writableStart = n := by
    show w.sender.out.writableStart + n = n
    omega
  have hend' : w'.sender.out.writableEnd = n := hend
  have hlength' : w'.sender.out.writeBuffer.toList.length = n + tagSize := hlength
  have hcap' : w'.sender.out.writeBuffer.capacity = w.sender.out.writeBuffer.capacity := rfl
  refine ⟨w', hinner, ?_, ?_, ?_, rfl⟩
  · exact Sending.gc_collects (by omega) (by omega) (by omega) (by omega)
  · show (w'.sender.out.writeBuffer.toList.drop w'.sender.out.writableStart).length = _
    rw [List.length_drop]
    omega
  · show w'.sender.out.writableEnd - w'.sender.out.writableStart = 0
    omega

/-- What is left is a header, and room for a byte at most behind the next one. -/
theorem endless_writeBuf (hstart : w.sender.out.writableStart = 0)
    (hend : w.sender.out.writableEnd = 0)
    (hlength : w.sender.out.writeBuffer.toList.length = tagSize)
    (hlo : 60 ≤ w.sender.out.writeBuffer.capacity) (hhi : w.sender.out.writeBuffer.capacity ≤ 61) :
    ∃ w' updated, w.writeBuf = .next w' updated ∧ Endless debugAssertions w'.sender.out := by
  have htag : tagSize = 30 := rfl
  rw [Sending.writeBuf]
  split
  · exact ⟨_, _, rfl, hstart, hend, hlength.ge, .inl (by omega)⟩
  · have hlength' := length_filled (Nat.min_le_left _ w.buf.length) (Nat.min_le_right _ _)
    have hroom : w.sender.out.writeBuffer.spare - tagSize ≤
        w.sender.out.writeBuffer.capacity - 60 := by
      rw [Vec.spare, hlength]
      omega
    refine ⟨_, _, rfl, hstart, hend, ?_, .inl ⟨hlo, hhi, ?_⟩⟩
    · rw [hlength']
      omega
    · rw [hlength']
      show _ ≤ w.sender.out.writeBuffer.capacity
      omega

/-- **A round** encrypts, hands the chunk over and is where it was. -/
theorem Endless.round (h : Endless debugAssertions w.sender.out) :
    ∃ w', w.round debugAssertions greedy = .next w' true ∧
      Endless debugAssertions w'.sender.out := by
  obtain ⟨hencrypt, hfull⟩ := h.encrypt
  obtain ⟨u, hinner, hgc, hlength, hend, hcap⟩ :=
    Full.handOver (w := { w with sender := w.sender.encrypted }) hfull
  obtain ⟨w', updated, hfill, hendless⟩ :=
    endless_writeBuf (w := u.collected) rfl hend hlength (hfull.capacity_ge.trans hcap.ge)
      (hcap.le.trans hfull.capacity_le)
  refine ⟨w', ?_, hendless⟩
  simp only [Sending.round, hencrypt, Outcome.andThen, hinner, hgc, hfill, Bool.true_or]

/-- `poll_write` never returns. -/
theorem Endless.pollWrite (h : Endless debugAssertions s.out) (fuel : Nat) (buf : Bytes) :
    s.pollWrite debugAssertions greedy fuel buf = none := by
  have hloop := whileUpdated_endless
    (P := fun w : Sending aead => Endless debugAssertions w.sender.out)
    (fun w hw => hw.round) fuel (s := ⟨s, buf⟩) h
  rw [Sender.pollWrite, hloop]

/-- A chunk was encrypted whose length field is not its length. -/
def Spoiled (s : Sender aead) : Prop := ∃ c ∈ s.chunks, ¬ c.Honest

theorem Spoiled.moves (h : Spoiled w.sender) (hmove : Moves w w') : Spoiled w'.sender := by
  obtain ⟨c, hc, hbad⟩ := h
  cases hmove with
  | encrypt _ => exact ⟨c, List.mem_append_left _ hc, hbad⟩
  | take _ _ => exact ⟨c, hc, hbad⟩
  | collect _ => exact ⟨c, hc, hbad⟩
  | fill _ _ _ => exact ⟨c, hc, hbad⟩

theorem Spoiled.steps (h : Spoiled w.sender) (hsteps : ReflTransGen Moves w w') :
    Spoiled w'.sender :=
  reflTransGen_preserves (P := fun w : Sending aead => Spoiled w.sender)
    (fun _ _ hs hmove => hs.moves hmove) h hsteps

theorem spoiled_encrypted (law : aead.Lawful) (h : 2 ^ 16 ≤ s.message.length) :
    Spoiled s.encrypted := by
  refine ⟨s.nextChunk, ?_, ?_⟩
  · rw [Sender.chunks_encrypted]
    exact List.mem_append_right _ (List.mem_singleton.mpr rfl)
  · rw [Sender.honest_nextChunk_iff law]
    exact not_lt.mpr h

/-- A chunk whose length is not its length field is there, or is going to be. -/
structure Doomed (debugAssertions : Bool) (s : Sender aead) : Prop where
  sound : Sound debugAssertions s.out
  spoils : Spoiled s ∨ 2 ^ 16 ≤ s.message.length

theorem Doomed.moves (law : aead.Lawful) (h : Doomed debugAssertions w.sender)
    (hmove : Moves w w') : Doomed debugAssertions w'.sender := by
  refine ⟨h.sound.moves hmove, ?_⟩
  rcases h.spoils with hspoiled | hlong
  · exact .inl (hspoiled.moves hmove)
  have hstart := h.sound.start_le
  have hend := h.sound.end_le
  rw [Sender.length_message] at hlong
  cases hmove with
  | encrypt _ =>
      left
      exact spoiled_encrypted law (by rwa [Sender.length_message])
  | take _ _ =>
      right
      rwa [Sender.length_message]
  | collect _ =>
      right
      rw [Sender.length_message]
      show _ ≤ (w.sender.out.writeBuffer.toList.drop w.sender.out.writableStart).length -
        (w.sender.out.writableEnd - w.sender.out.writableStart) - tagSize
      rw [List.length_drop]
      omega
  | fill _ hroom hn =>
      right
      rw [Sender.length_message, length_filled hroom hn]
      show _ ≤ _ - w.sender.out.writableEnd - tagSize
      omega

/-- Behind a flush the chunk is there. -/
theorem Doomed.pollFlush (law : aead.Lawful) (ht : t.Accepts) (h : Doomed debugAssertions s) :
    ∃ fuel s' r, s.pollFlush debugAssertions t fuel = some (s', r) ∧ Spoiled s' := by
  have hsealed : Spoiled s.sealed := by
    rcases h.spoils with hspoiled | hlong
    · exact hspoiled.steps (w := ⟨s, []⟩) (Sender.sealed_steps h.sound)
    · have hlen := s.length_message
      rw [Sender.sealed, if_pos (by omega)]
      exact spoiled_encrypted law hlong
  obtain ⟨fuel, s', r, hpoll⟩ := Sender.pollFlush_returns ht h.sound
  refine ⟨fuel, s', r, hpoll, ?_⟩
  rw [Sender.pollFlush_eq h.sound] at hpoll
  have hsound := h.sound.steps (w := ⟨s, []⟩) (Sender.sealed_steps h.sound)
  obtain ⟨u, hsteps, rfl, -⟩ := Sender.flushLoop_moves ht hsound hpoll
  exact hsealed.steps (w := ⟨_, []⟩) hsteps

/-- As many bytes as a length field cannot count. -/
def tooMany : Bytes := List.replicate (2 ^ 16) 0

/-- In its first round a large buffer collects them as one chunk. -/
theorem Sender.IsNew.round_doomed (h : s.IsNew bufferSize) (hsize : 65595 < bufferSize) :
    ∃ w, Sending.round debugAssertions greedy ⟨s, tooMany⟩ = .next w true ∧
      Doomed debugAssertions w.sender := by
  obtain ⟨hstart, hend, hlength, hcap, -, -, -⟩ := h
  have htag : tagSize = 30 := rfl
  have hmany : tooMany.length = 2 ^ 16 := List.length_replicate
  have hcapacity : s.out.writeBuffer.capacity = bufferSize := hcap (by omega)
  have hsound : Sound debugAssertions s.out :=
    ⟨by omega, by omega, by omega, fun hsmall => absurd hsmall (by omega)⟩
  let w₀ : Sending aead := ⟨s, tooMany⟩
  -- nothing is to be encrypted, sent or removed yet
  have hend' : s.out.writableEnd ≤ s.out.writeBuffer.toList.length := by omega
  have hhalf : s.out.writeBuffer.toList.length - s.out.writableEnd <
      s.out.writeBuffer.capacity / 2 := by omega
  have hencrypt : w₀.encrypt debugAssertions = .next w₀ false := Sending.encrypt_idle hend' hhalf
  have hnone : s.out.writable = [] := by
    rw [Output.writable, hend, List.take_zero, List.drop_nil]
  have hinner : w₀.writeInner greedy = .next w₀ false :=
    Sending.writeInner_idle hsound.start_le hend' hnone
  have hgc : w₀.gc = .next w₀ false :=
    Sending.gc_idle (show tagSize ≤ s.out.writeBuffer.capacity by omega) (.inr hstart)
  have hmin : min (s.out.writeBuffer.spare - tagSize) tooMany.length = 2 ^ 16 := by
    rw [Vec.spare, hcapacity, hlength, hmany]
    omega
  have hfill : w₀.writeBuf = .next (w₀.filled (2 ^ 16)) true := by
    simp only [Sending.writeBuf, w₀, hmin]
    rfl
  have hroom : 2 ^ 16 ≤ w₀.sender.out.writeBuffer.spare - tagSize :=
    hmin.ge.trans (Nat.min_le_left _ _)
  refine ⟨w₀.filled (2 ^ 16), ?_, hsound.moves (w := w₀) (.fill (by decide) hroom hmany.ge),
    .inr ?_⟩
  · show w₀.round debugAssertions greedy = _
    simp only [Sending.round, hencrypt, Outcome.andThen, hinner, hgc, hfill, Bool.or_true]
  · rw [Sender.length_message, length_filled hroom hmany.ge]
    show 2 ^ 16 ≤ s.out.writeBuffer.toList.length + 2 ^ 16 - s.out.writableEnd - tagSize
    omega

/-- The other rounds do not change that, and they come to an end. -/
theorem Sender.IsNew.pollWrite_doomed (law : aead.Lawful) (h : s.IsNew bufferSize)
    (hsize : 65595 < bufferSize) :
    ∃ fuel s' r, s.pollWrite debugAssertions greedy fuel tooMany = some (s', r) ∧
      Doomed debugAssertions s' := by
  obtain ⟨w, hround, hdoomed⟩ : ∃ w, Sending.round debugAssertions greedy ⟨s, tooMany⟩ =
      .next w true ∧ Doomed debugAssertions w.sender := h.round_doomed hsize
  obtain ⟨w', hloop⟩ := Sending.loop_returns greedy_accepts hdoomed.sound
  obtain ⟨-, hsteps, -⟩ := Sending.loop_moves greedy_accepts hdoomed.sound hloop
  have hrun : whileUpdated (Sending.round debugAssertions greedy) (w.measure + 2) ⟨s, tooMany⟩ =
      some (w', none) := by
    rw [whileUpdated, hround]
    exact hloop
  refine ⟨w.measure + 2, w'.sender,
    .ok (if tooMany.length - w'.buf.length = 0 then .pending
      else .ready (tooMany.length - w'.buf.length)), ?_, ?_⟩
  · rw [Sender.pollWrite, hrun]
  · exact reflTransGen_preserves (P := fun w : Sending aead => Doomed debugAssertions w.sender)
      (fun _ _ hs hmove => hs.moves law hmove) hdoomed hsteps

/-! ### What it takes to work -/

/-- A state between the polls of a sender with a buffer of this size. -/
def Reached (debugAssertions : Bool) (rng : aead.Rng) (secret : SharedSecret) (bufferSize : Nat)
    (t : Transport) (s : Sender aead) : Prop :=
  ∃ start, Sender.new rng secret bufferSize = some start ∧ Sender.Run debugAssertions t start s

/-- A buffer size works: over every transport that takes bytes, whatever is polled. -/
structure Works (debugAssertions : Bool) (rng : aead.Rng) (secret : SharedSecret)
    (bufferSize : Nat) : Prop where
  /-- `Output::new` does not panic. -/
  created : (Sender.new rng secret bufferSize).isSome
  /-- Neither does a `poll_write`. -/
  write_safe : ∀ t, t.Accepts → ∀ s, Reached debugAssertions rng secret bufferSize t s →
    ∀ fuel buf s', s.pollWrite debugAssertions t fuel buf ≠ some (s', .error .panic)
  /-- Neither does a `poll_flush`. -/
  flush_safe : ∀ t, t.Accepts → ∀ s, Reached debugAssertions rng secret bufferSize t s →
    ∀ fuel s', s.pollFlush debugAssertions t fuel ≠ some (s', .error .panic)
  /-- Behind a completed flush a `poll_write` of some bytes returns and accepts one. -/
  accepts : ∀ t, t.Accepts → ∀ s, Reached debugAssertions rng secret bufferSize t s →
    ∀ fuel s', s.pollFlush debugAssertions t fuel = some (s', .ok (.ready ())) →
      ∀ buf, buf ≠ [] → ∃ fuel s'' n,
        s'.pollWrite debugAssertions t fuel buf = some (s'', .ok (.ready n)) ∧ 0 < n
  /-- The length fields are the lengths of the bodies. -/
  honest : ∀ t, t.Accepts → ∀ s, Reached debugAssertions rng secret bufferSize t s →
    ∀ c ∈ s.chunks, c.Honest

theorem works_of_workingSize (law : aead.Lawful) (hsize : cryptoTagSize < bufferSize)
    (hwork : WorkingSize debugAssertions bufferSize) :
    Works debugAssertions rng secret bufferSize := by
  have hle : bufferSize ≤ isizeMax := le_trans hwork.1 (by decide)
  have hkept : ∀ t : Transport, t.Accepts → ∀ s : Sender aead,
      Reached debugAssertions rng secret bufferSize t s → Kept debugAssertions s := by
    rintro t ht s ⟨start, hnew, hrun⟩
    exact kept_of_run law ht ((Sender.isNew_of_new hnew).kept hsize hwork) hrun
  refine ⟨Option.isSome_iff_exists.mpr (Sender.new_isSome hle), ?_, ?_, ?_, ?_⟩
  · intro t ht s hs fuel buf s' hpoll
    cases (Sender.pollWrite_moves ht (hkept t ht s hs).sound hpoll).2
  · intro t ht s hs fuel s' hpoll
    obtain ⟨-, -, -, hr⟩ := Sender.pollFlush_moves ht (hkept t ht s hs).sound hpoll
    exact hr rfl
  · rintro t ht s ⟨start, hnew, hrun⟩ fuel s' hpoll buf hne
    have hs' := hkept t ht s' ⟨start, hnew, hrun.flush hpoll⟩
    obtain ⟨fuel', s'', r, hwrite⟩ := Sender.pollWrite_returns ht hs'.sound buf
    have hpos : 0 < buf.length := List.length_pos_iff.mpr hne
    obtain ⟨-, rfl⟩ := Sender.pollWrite_moves ht hs'.sound hwrite
    rw [if_neg (Nat.pos_iff_ne_zero.mp hpos)] at hwrite
    exact ⟨fuel', s'', buf.length, hwrite, hpos⟩
  · intro t ht s hs
    exact (hkept t ht s hs).honest

/-- Too small for a debug build. -/
theorem not_works_of_small (hsmall : bufferSize < 60) : ¬ Works true rng secret bufferSize := by
  intro hworks
  obtain ⟨start, hnew⟩ := Option.isSome_iff_exists.mp hworks.created
  exact hworks.write_safe greedy greedy_accepts start ⟨start, hnew, .new⟩ 1 [] start
    ((Sender.isNew_of_new hnew).panics hsmall greedy [])

/-- A buffer that is half full with a header: the first flush has nothing to do, and the write
behind it does not return. -/
theorem not_works_of_endless
    (hendless : ∀ s : Sender aead, s.IsNew bufferSize → Endless debugAssertions s.out) :
    ¬ Works debugAssertions rng secret bufferSize := by
  intro hworks
  obtain ⟨start, hnew⟩ := Option.isSome_iff_exists.mp hworks.created
  have hisNew := Sender.isNew_of_new hnew
  have hflush : start.pollFlush debugAssertions greedy 1 =
      some ({ start with flushes := start.flushes + 1 }, .ok (.ready ())) := by
    have hstart := hisNew.start_eq
    have hend := hisNew.end_eq
    have hlength := hisNew.length_eq
    have hnil : start.out.writable = [] := by
      rw [Output.writable, hend, List.take_zero, List.drop_nil]
    have hheader : ¬ start.out.writeBuffer.toList.length - start.out.writableEnd ≠ tagSize := by
      omega
    have hbounds : ¬ (start.out.writableEnd < start.out.writableStart ∨
        start.out.writeBuffer.toList.length < start.out.writableEnd) := by omega
    simp only [Sender.pollFlush, if_neg hheader, if_neg hbounds, Sender.flushLoop, if_pos hnil,
      greedy]
  obtain ⟨fuel, s'', n, hwrite, -⟩ := hworks.accepts greedy greedy_accepts start
    ⟨start, hnew, .new⟩ 1 _ hflush [0] (List.cons_ne_nil _ _)
  have hnone : Sender.pollWrite debugAssertions greedy fuel
      { start with flushes := start.flushes + 1 } [0] = none :=
    Endless.pollWrite (s := { start with flushes := start.flushes + 1 }) (hendless start hisNew)
      fuel [0]
  rw [hnone] at hwrite
  cases hwrite

/-- Too large for the length field. -/
theorem not_works_of_large (law : aead.Lawful) (hsize : 65595 < bufferSize) :
    ¬ Works debugAssertions rng secret bufferSize := by
  intro hworks
  obtain ⟨start, hnew⟩ := Option.isSome_iff_exists.mp hworks.created
  obtain ⟨fuel, s, r, hwrite, hdoomed⟩ : ∃ fuel s r, start.pollWrite debugAssertions greedy fuel
      tooMany = some (s, r) ∧ Doomed debugAssertions s :=
    (Sender.isNew_of_new hnew).pollWrite_doomed law hsize
  obtain ⟨fuel', s', r', hflush, c, hc, hbad⟩ := hdoomed.pollFlush law greedy_accepts
  have hrun : Sender.Run debugAssertions greedy start s' :=
    (Sender.Run.new.write hwrite).flush hflush
  exact hbad (hworks.honest greedy greedy_accepts s' ⟨start, hnew, hrun⟩ c hc)

theorem Sender.IsNew.endless (h : s.IsNew bufferSize)
    (hsize : bufferSize = 60 ∨ bufferSize = 61 ∨ debugAssertions = false ∧ bufferSize = 30) :
    Endless debugAssertions s.out := by
  have htag : tagSize = 30 := rfl
  have hlength := h.length_eq
  have hcap := h.capacity_eq
  refine ⟨h.start_eq, h.end_eq, hlength.ge, ?_⟩
  rcases hsize with rfl | rfl | ⟨hrelease, rfl⟩
  · left
    omega
  · left
    omega
  · right
    exact ⟨hrelease, hcap (by omega)⟩

/-- **Exactly these buffer sizes work** of those that `with_buffer_size` accepts: the ones from
twice a header and two bytes to that of a chunk whose length fits into 16 bits; without debug
assertions, the ones below 60 other than 30 as well. -/
theorem accepted_size_works_iff (law : aead.Lawful) (rng : aead.Rng) (secret : SharedSecret)
    (debugAssertions : Bool) {bufferSize : Nat} (hsize : cryptoTagSize < bufferSize) :
    Works debugAssertions rng secret bufferSize ↔ WorkingSize debugAssertions bufferSize := by
  refine ⟨fun hworks => ?_, works_of_workingSize law hsize⟩
  have hle : bufferSize ≤ 65595 := by
    by_contra hlarge
    exact not_works_of_large law (not_le.mp hlarge) hworks
  have hfull : ¬ (bufferSize = 60 ∨ bufferSize = 61 ∨ debugAssertions = false ∧ bufferSize = 30) :=
    fun hendless => not_works_of_endless (fun _ h => h.endless hendless) hworks
  obtain ⟨hne, hne', hgrown⟩ : bufferSize ≠ 60 ∧ bufferSize ≠ 61 ∧
      ¬ (debugAssertions = false ∧ bufferSize = 30) :=
    ⟨fun h => hfull (.inl h), fun h => hfull (.inr (.inl h)), fun h => hfull (.inr (.inr h))⟩
  refine ⟨hle, ?_⟩
  cases debugAssertions with
  | true =>
      have hsmall : ¬ bufferSize < 60 := fun hsmall => not_works_of_small hsmall hworks
      exact .inl (by omega)
  | false =>
      have hother : bufferSize ≠ 30 := fun h => hgrown ⟨rfl, h⟩
      by_cases hlarge : 62 ≤ bufferSize
      · exact .inl hlarge
      · exact .inr ⟨rfl, by omega, hother⟩

/-- The default size. -/
theorem accepted_size_works_iff_default :
    @Works Aead.plain true () 0 (1024 * 64) :=
  (accepted_size_works_iff Aead.plain_lawful () 0 true (by decide)).mpr (by decide)

/-- A debug build with 32 bytes panics, 60 bytes are never enough, and 70000 are too many. -/
theorem some_sizes_fail :
    ¬ @Works Aead.plain true () 0 32 ∧ ¬ @Works Aead.plain false () 0 60 ∧
      ¬ @Works Aead.plain false () 0 70000 :=
  ⟨not_works_of_small (by decide),
    not_works_of_endless fun _ h => h.endless (.inl rfl),
    not_works_of_large Aead.plain_lawful (by decide)⟩

end OnionNetwork.Opfusk
