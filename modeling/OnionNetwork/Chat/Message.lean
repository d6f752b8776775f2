import OnionNetwork.Chat.Types
import OnionNetwork.Lib.TailFrame

/-!
# Messages and the message log

A stored message is its encoding followed by its length as a big-endian `u16`.
`unpack_messages` walks such a buffer from the end; `retain_messages` filters
it in place, moving the kept messages towards the end of the slice behind
three cursors. Both are modelled as the source runs them; `logCode` is the
framing they implement, and `unpackMessages_eq` and `retainMessages_eq` state
what they compute in its terms.
-/

namespace OnionNetwork.Chat

open Lib

/-- `u16::to_be_bytes` after the `as u16` cast. -/
def toBe16 (len : Nat) : Bytes := [UInt8.ofNat (len / 256), UInt8.ofNat len]

/-- `u16::from_be_bytes`. -/
def fromBe16 (bytes : Bytes) : Nat :=
  match bytes with
  | [hi, lo] => hi.toNat * 256 + lo.toNat
  | _ => 0

/-- The framing of the message log. -/
def logCode : LenCode UInt8 where
  width := 2
  bound := 2 ^ 16
  enc := toBe16
  dec := fromBe16
  width_pos := by decide
  length_enc _ := rfl
  dec_enc n hn := by
    simp only [toBe16, fromBe16, UInt8.toNat_ofNat']
    omega
  dec_lt l := by
    unfold fromBe16
    split
    · rename_i hi lo
      have := hi.toNat_lt
      have := lo.toNat_lt
      omega
    · decide
  enc_dec l hl := by
    match l, hl with
    | [hi, lo], _ =>
        have hhi := hi.toNat_lt
        have hlo := lo.toNat_lt
        simp only [fromBe16, toBe16]
        refine congrArg₂ (fun a b => [a, b]) ?_ ?_
        · rw [show (hi.toNat * 256 + lo.toNat) / 256 = hi.toNat by omega, UInt8.ofNat_toNat]
        · refine UInt8.toNat.inj ?_
          rw [UInt8.toNat_ofNat']
          omega

@[simp] theorem logCode_width : logCode.width = 2 := rfl

@[simp] theorem logCode_dec : logCode.dec = fromBe16 := rfl

/-- `chat_spec::Message`. -/
structure Message where
  sender : Identity
  nonce : Nonce
  content : Bytes

/-- The derived codec of `Message`; the content is a `Reminder`. -/
instance : Encode Message :=
  ⟨fun m => Encode.encode m.sender ++ base128Encode m.nonce ++ m.content⟩

/-- `size_of::<Message>()`: the sender, the nonce and a slice. -/
def sizeOfMessage : Nat := 32 + 8 + 16

/-- `Encode::encode_to_slice` into a slice of the given length. -/
def encodeToSlice (bytes : Bytes) (sliceLen : Nat) : Option Bytes :=
  if bytes.length ≤ sliceLen then some bytes else none

/-- `unpack_messages` and `unpack_messages_ref`, run to the end. `take` with a
wrapped-around start is out of range, which is `takeBack` failing. -/
def unpackLoop : Nat → Bytes → List Bytes
  | 0, _ => []
  | fuel + 1, buffer =>
      match takeBack 2 buffer with
      | none => []
      | some (buffer, len) =>
          match takeBack (fromBe16 len) buffer with
          | none => []
          | some (buffer, message) => message :: unpackLoop fuel buffer

/-- Every round takes at least two bytes, so the length bounds the rounds. -/
def unpackMessages (buffer : Bytes) : List Bytes := unpackLoop buffer.length buffer

/-- The iterator reads the log framing, newest message first. -/
theorem unpackMessages_eq (buffer : Bytes) : unpackMessages buffer = logCode.unframe buffer := by
  have hloop : ∀ fuel buffer, unpackLoop fuel buffer = logCode.unframeFuel fuel buffer := by
    intro fuel
    induction fuel with
    | zero => intro _; rfl
    | succ fuel ih =>
        intro buffer
        rw [unpackLoop, LenCode.unframeFuel, logCode_width]
        cases takeBack 2 buffer with
        | none => rfl
        | some x =>
            obtain ⟨front, len⟩ := x
            simp only [logCode_dec]
            cases takeBack (fromBe16 len) front with
            | none => rfl
            | some y => simp only [ih]
  exact hloop _ _

/-- `std::ptr::copy` of `len` bytes inside one buffer. -/
def copyWithin (buf : Bytes) (src dst len : Nat) : Bytes :=
  buf.take dst ++ (buf.drop src).take len ++ buf.drop (dst + len)

/-- `move_mem`: move the messages kept since the last hole in front of the ones
already written. Cursors are offsets into the buffer. -/
def moveMem (buf : Bytes) (holeEnd cursor writeCursor len : Nat) : Bytes × Nat :=
  if holeEnd = cursor then (buf, writeCursor)
  else
    let writeLen := holeEnd - cursor - len
    let buf :=
      if holeEnd ≠ writeCursor then
        copyWithin buf (holeEnd - writeLen) (writeCursor - writeLen) writeLen
      else buf
    (buf, writeCursor - writeLen)

/-- The loop of `retain_messages`, up to the final `move_mem`: the buffer and
the three cursors. -/
def retainLoop (predicate : Bytes → Bool) : Nat → Bytes → Nat → Nat → Nat → Bytes × Nat × Nat × Nat
  | 0, buf, writeCursor, cursor, holeEnd => (buf, writeCursor, cursor, holeEnd)
  | fuel + 1, buf, writeCursor, cursor, holeEnd =>
      if cursor < 2 then (buf, writeCursor, cursor, holeEnd)
      else
        let len := fromBe16 ((buf.drop (cursor - 2)).take 2)
        if cursor < len + 2 then (buf, writeCursor, cursor, holeEnd)
        else
          let cursor := cursor - (len + 2)
          if predicate ((buf.drop cursor).take len) then
            retainLoop predicate fuel buf writeCursor cursor holeEnd
          else
            let (buf, writeCursor) := moveMem buf holeEnd cursor writeCursor (len + 2)
            retainLoop predicate fuel buf writeCursor cursor cursor

/-- The end of `retain_messages`: the last move and the kept region. -/
def retainFinish : Bytes × Nat × Nat × Nat → Bytes
  | (buf, writeCursor, cursor, holeEnd) =>
      let (buf, writeCursor) := moveMem buf holeEnd cursor writeCursor 0
      buf.drop writeCursor

/-- `retain_messages`: the kept region at the end of the buffer. -/
def retainMessages (buffer : Bytes) (predicate : Bytes → Bool) : Bytes :=
  retainFinish
    (retainLoop predicate buffer.length buffer buffer.length buffer.length buffer.length)

/-- What `retain_messages` leaves in the buffer, the arbitrary bytes at the front too. -/
def retainedBuffer (buffer : Bytes) (predicate : Bytes → Bool) : Bytes :=
  match retainLoop predicate buffer.length buffer buffer.length buffer.length buffer.length with
  | (buf, writeCursor, cursor, holeEnd) => (moveMem buf holeEnd cursor writeCursor 0).1

/-- `retain_messages_in_vec`: drain everything in front of the kept region. -/
def retainMessagesInVec (buffer : Bytes) (predicate : Bytes → Bool) : Bytes :=
  let len := (retainMessages buffer predicate).length
  let buffer := retainedBuffer buffer predicate
  buffer.drop (buffer.length - len)

/-- What is left in the vector is the kept region. -/
theorem retainMessagesInVec_eq (buffer : Bytes) (predicate : Bytes → Bool) :
    retainMessagesInVec buffer predicate = retainMessages buffer predicate := by
  obtain ⟨writeCursor, hkept⟩ : ∃ writeCursor,
      retainMessages buffer predicate = (retainedBuffer buffer predicate).drop writeCursor :=
    ⟨_, rfl⟩
  simp only [retainMessagesInVec, hkept, List.length_drop]
  rcases Nat.le_total writeCursor (retainedBuffer buffer predicate).length with hle | hge
  · rw [Nat.sub_sub_self hle]
  · rw [Nat.sub_eq_zero_of_le hge, Nat.sub_zero, List.drop_length, List.drop_of_length_le hge]

/-- One move: the kept stretch `kept` slides over the gap to the written part,
and the bytes up to `low` stay. -/
theorem moveMem_append (low kept gap written : Bytes) (cursor len : Nat)
    (hcursor : cursor + len = low.length) :
    ∃ gap' : Bytes, gap'.length = gap.length ∧
      moveMem (low ++ (kept ++ (gap ++ written))) (low.length + kept.length) cursor
          (low.length + kept.length + gap.length) len =
        (low ++ (gap' ++ (kept ++ written)), low.length + gap.length) := by
  unfold moveMem
  by_cases hend : low.length + kept.length = cursor
  · -- nothing was kept and nothing is skipped: the cursors stand still
    have hkept : kept = [] := List.length_eq_zero_iff.mp (by omega)
    subst hkept
    exact ⟨gap, rfl, by rw [if_pos hend]; simp⟩
  · have hlen : low.length + kept.length - cursor - len = kept.length := by omega
    rw [if_neg hend]
    simp only [hlen]
    by_cases hgap : gap = []
    · subst hgap
      exact ⟨[], rfl, by simp⟩
    · have hpos : 0 < gap.length := List.length_pos_iff.mpr hgap
      refine ⟨(kept ++ gap).take gap.length, by simp, ?_⟩
      rw [if_pos (by omega)]
      refine Prod.ext ?_ (by simp only; omega)
      have hsrc : low.length + kept.length - kept.length = low.length := by omega
      have hdst : low.length + kept.length + gap.length - kept.length =
          low.length + gap.length := by omega
      have hend' : low.length + gap.length + kept.length =
          low.length + (kept ++ gap).length := by simp only [List.length_append]; omega
      simp only [copyWithin, hsrc, hdst, hend']
      rw [List.take_length_add_append, List.drop_left, List.take_left,
        List.drop_length_add_append, ← List.append_assoc kept gap written, List.drop_left,
        List.take_append_of_le_length (by simp), List.append_assoc, List.append_assoc]

/-- Where the loop stops, the last move brings the kept stretch home. -/
theorem retainFinish_append (low kept gap written : Bytes) :
    retainFinish (low ++ (kept ++ (gap ++ written)), low.length + kept.length + gap.length,
      low.length, low.length + kept.length) = kept ++ written := by
  obtain ⟨gap', hgap, hmove⟩ :=
    moveMem_append low kept gap written low.length 0 rfl
  rw [retainFinish, hmove, ← hgap]
  simp only [List.drop_length_add_append, List.drop_left]

/-- **The loop invariant.** With `low` still unread, `kept` the messages kept
since the last hole and `written` those already in place, the loop delivers
the kept messages of `low`, then `kept`, then `written`. -/
theorem retainLoop_append (predicate : Bytes → Bool) {fuel : Nat} {low : Bytes}
    (hfuel : low.length ≤ fuel) (kept gap written : Bytes) :
    retainFinish (retainLoop predicate fuel (low ++ (kept ++ (gap ++ written)))
        (low.length + kept.length + gap.length) low.length (low.length + kept.length)) =
      logCode.frames ((logCode.unframe low).reverse.filter predicate) ++ (kept ++ written) := by
  induction fuel generalizing low kept gap written with
  | zero =>
      have hlow : low = [] := List.length_eq_zero_iff.mp (Nat.le_zero.mp hfuel)
      subst hlow
      simpa [retainLoop] using retainFinish_append [] kept gap written
  | succ fuel ih =>
      rw [retainLoop, logCode.unframe_eq, logCode_width]
      cases hlen : takeBack 2 low with
      | none =>
          -- not even a length is left
          have hshort : low.length < 2 := takeBack_eq_none hlen
          rw [if_pos hshort]
          simpa using retainFinish_append low kept gap written
      | some x =>
          obtain ⟨front, len⟩ := x
          obtain ⟨rfl, hw⟩ := takeBack_eq_some hlen
          have hread : ((front ++ len ++ (kept ++ (gap ++ written))).drop
              ((front ++ len).length - 2)).take 2 = len := by
            have hcut : (front ++ len).length - 2 = front.length := by
              rw [List.length_append, hw]; omega
            rw [hcut, List.append_assoc, List.drop_left, ← hw, List.take_left]
          rw [if_neg (by rw [List.length_append, hw]; omega)]
          simp only [hread, logCode_dec]
          cases hp : takeBack (fromBe16 len) front with
          | none =>
              -- the length reaches further than the buffer: the loop stops there
              have hshort : front.length < fromBe16 len := takeBack_eq_none hp
              rw [if_pos (by rw [List.length_append, hw]; omega)]
              simpa using retainFinish_append (front ++ len) kept gap written
          | some y =>
              obtain ⟨rest, p⟩ := y
              obtain ⟨rfl, hpl⟩ := takeBack_eq_some hp
              have hframe : p ++ len = logCode.frame p := by
                rw [LenCode.frame, hpl, ← logCode_dec, logCode.enc_dec len hw]
              have hsum : (rest ++ p ++ len).length = rest.length + (fromBe16 len + 2) := by
                rw [List.length_append, List.length_append, hpl, hw]; omega
              have hcursor : (rest ++ p ++ len).length - (fromBe16 len + 2) = rest.length := by
                omega
              have hslice : ((rest ++ p ++ len ++ (kept ++ (gap ++ written))).drop
                  rest.length).take (fromBe16 len) = p := by
                rw [List.append_assoc, List.append_assoc, List.drop_left, ← hpl, List.take_left]
              have hrest : rest.length ≤ fuel := by omega
              rw [if_neg (by omega)]
              simp only [hcursor, hslice]
              by_cases hpred : predicate p = true
              · -- kept: the frame joins the stretch in front of the last hole
                rw [if_pos hpred]
                have hstep := ih hrest (logCode.frame p ++ kept) gap written
                have hbuf : rest ++ p ++ len ++ (kept ++ (gap ++ written)) =
                    rest ++ (logCode.frame p ++ kept ++ (gap ++ written)) := by
                  rw [← hframe]; simp only [List.append_assoc]
                have hend : (rest ++ p ++ len).length =
                    rest.length + (logCode.frame p).length := by
                  rw [← hframe]; simp only [List.length_append]; omega
                rw [hbuf, hend, Nat.add_assoc rest.length (logCode.frame p).length kept.length,
                  ← List.length_append, hstep]
                simp [hpred]
              · -- dropped: what was kept behind it is moved, and a new hole starts
                rw [if_neg hpred]
                obtain ⟨gap', hgap, hmove⟩ := moveMem_append (rest ++ p ++ len) kept gap written
                  rest.length (fromBe16 len + 2) hsum.symm
                rw [hmove]
                have hstep := ih hrest [] (p ++ len ++ gap') (kept ++ written)
                simp only [List.nil_append, List.length_nil, Nat.add_zero] at hstep
                have hbuf : rest ++ p ++ len ++ (gap' ++ (kept ++ written)) =
                    rest ++ (p ++ len ++ gap' ++ (kept ++ written)) := by
                  simp only [List.append_assoc]
                have hend : (rest ++ p ++ len).length + gap.length =
                    rest.length + (p ++ len ++ gap').length := by
                  simp only [List.length_append, hgap]; omega
                simp only
                rw [hbuf, hend, hstep]
                simp [hpred]

/-- `retain_messages` returns the frames that satisfy the predicate, in order;
an unreadable prefix is stripped. -/
theorem retainMessages_eq (buffer : Bytes) (predicate : Bytes → Bool) :
    retainMessages buffer predicate =
      logCode.frames ((logCode.unframe buffer).reverse.filter predicate) := by
  have hloop := retainLoop_append predicate (Nat.le_refl buffer.length) [] [] []
  simpa [retainMessages] using hloop

/-! ### Reading from the end -/

/-- The bytes no message can be read from: there is no room for a length, or for as many
bytes as it says. -/
def Unreadable (buffer : Bytes) : Prop :=
  buffer.length < 2 ∨ buffer.length < fromBe16 (buffer.drop (buffer.length - 2)) + 2

/-- The buffer parsed from its end: what cannot be read, and the messages behind it. -/
structure Parses (buffer rest : Bytes) (messages : List Bytes) : Prop where
  buffer_eq : buffer = rest ++ logCode.frames messages
  bounded : logCode.Bounded messages
  unreadable : Unreadable rest

theorem unreadable_iff (buffer : Bytes) : Unreadable buffer ↔ logCode.unframe buffer = [] := by
  rw [Unreadable, logCode.unframe_eq, logCode_width]
  unfold takeBack
  by_cases hshort : 2 ≤ buffer.length
  · rw [if_pos hshort]
    simp only [logCode_dec, List.length_take]
    split <;> rename_i h <;> split at h <;> simp at h ⊢ <;> omega
  · rw [if_neg hshort]
    simp only [iff_true]
    omega

/-- Every buffer parses. -/
theorem exists_parses (buffer : Bytes) : ∃ rest messages, Parses buffer rest messages := by
  obtain ⟨⟨rest, hbuffer, hrest⟩, hbounded⟩ := logCode.unframe_spec buffer
  exact ⟨rest, _, hbuffer, hbounded.subset fun p hp => List.mem_reverse.mp hp,
    (unreadable_iff rest).mpr hrest⟩

/-- The reader finds the messages of the parse. -/
theorem Parses.unframe_eq {buffer rest : Bytes} {messages : List Bytes}
    (h : Parses buffer rest messages) : logCode.unframe buffer = messages.reverse := by
  rw [h.buffer_eq, logCode.unframe_append_frames rest h.bounded,
    (unreadable_iff rest).mp h.unreadable, List.append_nil]

end OnionNetwork.Chat
