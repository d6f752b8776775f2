import OnionNetwork.Opfusk.Sender

/-!
# What the polls of a sender do

Over a transport that takes bytes, `poll_write` and `poll_flush` are sequences of `Moves`: a
chunk is encrypted, the transport takes bytes, these are removed from the buffer, and bytes of
the caller are copied into it. `Sound` is what the moves keep, and all that the checks of the
source need: nothing panics (`pollWrite_moves`, `pollFlush_moves`), every poll returns, and
`poll_write` accepts everything.
-/

namespace OnionNetwork.Opfusk

open Chat Lib Relation

variable {aead : Aead}

/-! ### Encryption -/

namespace Output

variable (o : Output aead)

@[simp] theorem length_encryptInProgress :
    o.encryptInProgress.writeBuffer.toList.length = o.writeBuffer.toList.length + tagSize := by
  show (_ ++ List.replicate tagSize (0 : UInt8)).length = _
  rw [List.length_append, List.length_replicate, Vec.length_overwrite]

@[simp] theorem writableEnd_encryptInProgress :
    o.encryptInProgress.writableEnd = o.writeBuffer.toList.length :=
  Vec.length_overwrite _ _ _

/-- The next header does not fit: the buffer grows. -/
theorem capacity_encryptInProgress :
    o.encryptInProgress.writeBuffer.capacity =
      if o.writeBuffer.toList.length + tagSize ≤ o.writeBuffer.capacity then
        o.writeBuffer.capacity
      else max (2 * o.writeBuffer.capacity) (o.writeBuffer.toList.length + tagSize) := by
  show (if (Vec.overwrite _ _ _).toList.length + (List.replicate tagSize (0 : UInt8)).length ≤ _
    then _ else _) = _
  rw [Vec.length_overwrite, List.length_replicate]
  rfl

end Output

/-! ### The invariant -/

/-- A buffer with room for two headers and a byte collects chunks that leave room for the next
header. A smaller one has not been used yet, and there are no assertions. -/
structure Sound (debugAssertions : Bool) (o : Output aead) : Prop where
  start_le : o.writableStart ≤ o.writableEnd
  end_le : o.writableEnd + tagSize ≤ o.writeBuffer.toList.length
  room : o.writableEnd + tagSize < o.writeBuffer.toList.length →
    o.writeBuffer.toList.length + tagSize ≤ o.writeBuffer.capacity
  small : o.writeBuffer.capacity < 62 → debugAssertions = false ∧
    o.writeBuffer.toList.length = tagSize ∧ 31 ≤ o.writeBuffer.capacity ∧
    o.writeBuffer.capacity < 60

/-- One change of the buffers. -/
inductive Moves : Sending aead → Sending aead → Prop
  | encrypt {w : Sending aead}
      (h : w.sender.out.writableEnd + tagSize < w.sender.out.writeBuffer.toList.length ∨
        w.sender.out.writeBuffer.capacity < 62) :
      Moves w { w with sender := w.sender.encrypted }
  | take {w : Sending aead} {n : Nat} (hpos : 0 < n) (hn : n ≤ w.sender.out.writable.length) :
      Moves w { w with sender := w.sender.taken n }
  | collect {w : Sending aead} (h : 0 < w.sender.out.writableStart) : Moves w w.collected
  | fill {w : Sending aead} {n : Nat} (hpos : 0 < n)
      (hroom : n ≤ w.sender.out.writeBuffer.spare - tagSize) (hn : n ≤ w.buf.length) :
      Moves w (w.filled n)

variable {debugAssertions : Bool} {o : Output aead} {w w' : Sending aead} {s s' : Sender aead}

theorem Output.length_writable (h : o.writableEnd ≤ o.writeBuffer.toList.length) :
    o.writable.length = o.writableEnd - o.writableStart := by
  rw [writable, List.length_drop, List.length_take_of_le h]

theorem Sound.length_writable (h : Sound debugAssertions o) :
    o.writable.length = o.writableEnd - o.writableStart :=
  Output.length_writable (le_trans (Nat.le_add_right _ _) h.end_le)

/-- The elements behind a `fill` that has room. -/
theorem length_filled {n : Nat} (hroom : n ≤ w.sender.out.writeBuffer.spare - tagSize)
    (hn : n ≤ w.buf.length) :
    (w.filled n).sender.out.writeBuffer.toList.length =
      w.sender.out.writeBuffer.toList.length + n := by
  have hlen : (w.buf.take n).length = n := List.length_take_of_le hn
  have hfit : (w.buf.take n).length ≤ w.sender.out.writeBuffer.spare := by omega
  show (Vec.fill _ _).toList.length = _
  rw [Vec.toList_fill hfit, List.length_append, hlen]

/-- Every move keeps the invariant. -/
theorem Sound.moves (h : Sound debugAssertions w.sender.out) (hmove : Moves w w') :
    Sound debugAssertions w'.sender.out := by
  have hlen := w.sender.out.writeBuffer.length_le
  cases hmove with
  | encrypt hseal =>
      have hcap := w.sender.out.capacity_encryptInProgress
      have hend := w.sender.out.writableEnd_encryptInProgress
      have hlength := w.sender.out.length_encryptInProgress
      have hstart := h.start_le
      have hend_le := h.end_le
      -- behind it the buffer is a large one: it has room already, or it grows
      have hlarge : 62 ≤ w.sender.encrypted.out.writeBuffer.capacity := by
        show 62 ≤ w.sender.out.encryptInProgress.writeBuffer.capacity
        by_cases hsmall : w.sender.out.writeBuffer.capacity < 62
        · obtain ⟨-, hnew, hlo, hhi⟩ := h.small hsmall
          rw [hcap, if_neg (by simp only [hnew, tagSize, cryptoTagSize]; omega)]
          omega
        · rcases hseal with hne | hlt
          · rw [hcap, if_pos (h.room hne)]
            exact not_lt.mp hsmall
          · exact absurd hlt hsmall
      refine ⟨?_, ?_, ?_, fun hlt => absurd hlt (not_lt.mpr hlarge)⟩
      · show w.sender.out.writableStart ≤ w.sender.out.encryptInProgress.writableEnd
        omega
      · show w.sender.out.encryptInProgress.writableEnd + tagSize ≤
          w.sender.out.encryptInProgress.writeBuffer.toList.length
        omega
      · show w.sender.out.encryptInProgress.writableEnd + tagSize <
          w.sender.out.encryptInProgress.writeBuffer.toList.length → _
        omega
  | @take n hpos hn =>
      rw [h.length_writable] at hn
      have hstart := h.start_le
      refine ⟨?_, h.end_le, h.room, h.small⟩
      show w.sender.out.writableStart + n ≤ w.sender.out.writableEnd
      omega
  | collect hpos =>
      have hstart := h.start_le
      have hend := h.end_le
      have hroom := h.room
      have hsmall := h.small
      have hdrop : w.collected.sender.out.writeBuffer.toList.length =
          w.sender.out.writeBuffer.toList.length - w.sender.out.writableStart := List.length_drop
      have hcap : w.collected.sender.out.writeBuffer.capacity =
          w.sender.out.writeBuffer.capacity := rfl
      have hend' : w.collected.sender.out.writableEnd =
          w.sender.out.writableEnd - w.sender.out.writableStart := rfl
      refine ⟨Nat.zero_le _, ?_, ?_, ?_⟩
      · omega
      · omega
      · intro hlt
        obtain ⟨-, hnew, -⟩ := hsmall hlt
        omega
  | @fill n hpos hroom hn =>
      have hlength := length_filled hroom hn
      have hend := h.end_le
      have hsmall := h.small
      have hcap : (w.filled n).sender.out.writeBuffer.capacity =
          w.sender.out.writeBuffer.capacity := rfl
      have hend' : (w.filled n).sender.out.writableEnd = w.sender.out.writableEnd := rfl
      simp only [Vec.spare, tagSize, cryptoTagSize] at hroom
      refine ⟨h.start_le, ?_, ?_, ?_⟩
      · omega
      · simp only [tagSize, cryptoTagSize]
        omega
      · intro hlt
        obtain ⟨-, hnew, -, hhi⟩ := hsmall hlt
        simp only [tagSize, cryptoTagSize] at hnew
        omega

theorem Sound.steps (h : Sound debugAssertions w.sender.out) (hsteps : ReflTransGen Moves w w') :
    Sound debugAssertions w'.sender.out :=
  reflTransGen_preserves (P := fun w => Sound debugAssertions w.sender.out)
    (fun _ _ hs hmove => hs.moves hmove) h hsteps

/-- Every byte moves on: from the caller to the chunk collected, to the encrypted ones, to the
transport, out of the buffer. -/
def measureOf (buf length stop start capacity : Nat) : Nat :=
  64 * buf + 63 * (length - stop - tagSize) + 2 * (stop - start) + start +
    if capacity < 62 then 61 else 0

/-- The measure of a poll on its way. -/
def Sending.measure (w : Sending aead) : Nat :=
  measureOf w.buf.length w.sender.out.writeBuffer.toList.length w.sender.out.writableEnd
    w.sender.out.writableStart w.sender.out.writeBuffer.capacity

/-- Every move lowers the measure. -/
theorem Sound.measure_lt (h : Sound debugAssertions w.sender.out) (hmove : Moves w w') :
    w'.measure < w.measure := by
  have hstart := h.start_le
  have hend := h.end_le
  have hsmall := h.small
  have hsmall' := (h.moves hmove).small
  cases hmove with
  | encrypt hseal =>
      have hlength := w.sender.out.length_encryptInProgress
      have hend' := w.sender.out.writableEnd_encryptInProgress
      -- a small buffer would have grown
      have hlarge : ¬ w.sender.out.encryptInProgress.writeBuffer.capacity < 62 := by
        intro hlt
        obtain ⟨-, hnew, -⟩ := hsmall' hlt
        change w.sender.out.encryptInProgress.writeBuffer.toList.length = _ at hnew
        simp only [tagSize, cryptoTagSize] at *
        omega
      show measureOf w.buf.length w.sender.out.encryptInProgress.writeBuffer.toList.length
        w.sender.out.encryptInProgress.writableEnd w.sender.out.writableStart
        w.sender.out.encryptInProgress.writeBuffer.capacity < _
      rw [Sending.measure, measureOf, measureOf, hlength, hend', if_neg hlarge]
      simp only [tagSize, cryptoTagSize] at *
      split
      · omega
      · omega
  | @take n hpos hn =>
      rw [h.length_writable] at hn
      show measureOf w.buf.length w.sender.out.writeBuffer.toList.length w.sender.out.writableEnd
        (w.sender.out.writableStart + n) w.sender.out.writeBuffer.capacity < _
      rw [Sending.measure, measureOf, measureOf]
      omega
  | collect hpos =>
      have hdrop : (w.sender.out.writeBuffer.drain w.sender.out.writableStart).toList.length =
          w.sender.out.writeBuffer.toList.length - w.sender.out.writableStart := List.length_drop
      show measureOf w.buf.length
        (w.sender.out.writeBuffer.drain w.sender.out.writableStart).toList.length
        (w.sender.out.writableEnd - w.sender.out.writableStart) 0
        w.sender.out.writeBuffer.capacity < _
      rw [Sending.measure, measureOf, measureOf, hdrop]
      omega
  | @fill n hpos hroom hn =>
      have hlength := length_filled hroom hn
      have hdrop : (w.filled n).buf.length = w.buf.length - n := List.length_drop
      show measureOf (w.filled n).buf.length (w.filled n).sender.out.writeBuffer.toList.length
        w.sender.out.writableEnd w.sender.out.writableStart w.sender.out.writeBuffer.capacity < _
      rw [Sending.measure, measureOf, measureOf, hlength, hdrop]
      omega

/-! ### `poll_write` -/

variable {t : Transport}

/-- Nothing is in the way of encrypting what is collected, or the first header of a small
buffer. -/
theorem Sound.encryptInProgress_eq (h : Sound debugAssertions s.out)
    (hseal : s.out.writableEnd + tagSize < s.out.writeBuffer.toList.length ∨
      s.out.writeBuffer.capacity < 62) :
    s.encryptInProgress debugAssertions = some s.encrypted := by
  have hend := h.end_le
  have hassert : ¬ (debugAssertions ∧
      s.out.writeBuffer.capacity - s.out.writeBuffer.toList.length < tagSize) := by
    rintro ⟨hdebug, hlt⟩
    have hlarge : ¬ s.out.writeBuffer.capacity < 62 := by
      intro hsmall
      rw [(h.small hsmall).1] at hdebug
      cases hdebug
    have hroom := h.room (hseal.resolve_right hlarge)
    omega
  rw [Sender.encryptInProgress, if_neg (by omega), if_neg (by omega), if_neg hassert]

namespace Sending

theorem encrypt_steps (h : Sound debugAssertions w.sender.out) :
    (w.encrypt debugAssertions).StepsBy Moves w := by
  have hend := h.end_le
  have hle : w.sender.out.writableEnd ≤ w.sender.out.writeBuffer.toList.length := by omega
  by_cases hhalf : w.sender.out.writeBuffer.toList.length - w.sender.out.writableEnd <
      w.sender.out.writeBuffer.capacity / 2
  · rw [encrypt_idle hle hhalf]
    exact .idle
  · -- half of a large buffer is more than a header
    have hseal : w.sender.out.writableEnd + tagSize < w.sender.out.writeBuffer.toList.length ∨
        w.sender.out.writeBuffer.capacity < 62 := by
      simp only [tagSize, cryptoTagSize] at *
      omega
    rw [encrypt_full hle (not_lt.mp hhalf), h.encryptInProgress_eq hseal]
    exact .single (.encrypt hseal)

theorem writeInner_steps (ht : t.Accepts) (h : Sound debugAssertions w.sender.out) :
    (w.writeInner t).StepsBy Moves w := by
  have hend := h.end_le
  have hle : w.sender.out.writableEnd ≤ w.sender.out.writeBuffer.toList.length := by omega
  by_cases hnil : w.sender.out.writable = []
  · rw [writeInner_idle h.start_le hle hnil]
    exact .idle
  · obtain ⟨n, hn, hwrite⟩ := ht w.sender.writes
    have hpos : 0 < w.sender.out.writable.length := List.length_pos_iff.mpr hnil
    rw [writeInner_ready h.start_le hle hnil hn hwrite]
    exact .single (.take (by omega) (Nat.min_le_right _ _))

theorem gc_steps (h : Sound debugAssertions w.sender.out) : w.gc.StepsBy Moves w := by
  have hend := h.end_le
  have hfits := w.sender.out.writeBuffer.length_le
  have hcap : tagSize ≤ w.sender.out.writeBuffer.capacity := by omega
  have hle : w.sender.out.writableEnd ≤ w.sender.out.writeBuffer.toList.length := by omega
  by_cases hguard : w.sender.out.writeBuffer.toList.length <
      w.sender.out.writeBuffer.capacity - tagSize ∨ w.sender.out.writableStart = 0
  · rw [gc_idle hcap hguard]
    exact .idle
  · rw [gc_collects hcap h.start_le hle hguard]
    exact .single (.collect (by omega))

theorem writeBuf_steps : w.writeBuf.StepsBy Moves w := by
  rw [writeBuf]
  split
  · exact .idle
  · rename_i hzero
    exact .single (.fill (by omega) (Nat.min_le_left _ _) (Nat.min_le_right _ _))

/-- One round. -/
theorem round_steps (ht : t.Accepts) (h : Sound debugAssertions w.sender.out) :
    (w.round debugAssertions t).StepsBy Moves w := by
  have h₁ := (encrypt_steps h).andThen fun w' hw' => writeInner_steps ht (h.steps hw')
  have h₂ := h₁.andThen fun w' hw' => gc_steps (h.steps hw')
  exact h₂.andThen fun w' _ => writeBuf_steps

/-- A round that changes nothing has found the transport up to date and no bytes left: half of a
large buffer and the room in front of its end overlap. -/
theorem buf_eq_nil_of_quiet (ht : t.Accepts) (h : Sound debugAssertions w.sender.out)
    (hquiet : w.round debugAssertions t = .next w false) : w.buf = [] := by
  obtain ⟨w₁, hround, hwrite⟩ := Outcome.andThen_quiet hquiet
  obtain ⟨w₂, hround, hgc⟩ := Outcome.andThen_quiet hround
  obtain ⟨w₃, hencrypt, hinner⟩ := Outcome.andThen_quiet hround
  obtain rfl := (encrypt_steps h).eq_of_quiet hencrypt
  obtain rfl := (writeInner_steps ht h).eq_of_quiet hinner
  obtain rfl := (gc_steps h).eq_of_quiet hgc
  have hend := h.end_le
  have hfits := w₁.sender.out.writeBuffer.length_le
  have hle : w₁.sender.out.writableEnd ≤ w₁.sender.out.writeBuffer.toList.length := by omega
  have hhalf : w₁.sender.out.writeBuffer.toList.length - w₁.sender.out.writableEnd <
      w₁.sender.out.writeBuffer.capacity / 2 := by
    by_contra hfull
    rw [encrypt_full hle (not_lt.mp hfull)] at hencrypt
    split at hencrypt
    · cases hencrypt
    · cases (Outcome.next.inj hencrypt).2
  have hsent : w₁.sender.out.writable = [] := by
    by_contra hne
    obtain ⟨n, hn, hwrite⟩ := ht w₁.sender.writes
    rw [writeInner_ready h.start_le hle hne hn hwrite] at hinner
    cases (Outcome.next.inj hinner).2
  have hcollected : w₁.sender.out.writeBuffer.toList.length <
      w₁.sender.out.writeBuffer.capacity - tagSize ∨ w₁.sender.out.writableStart = 0 := by
    by_contra hguard
    rw [gc_collects (by omega) h.start_le hle hguard] at hgc
    cases (Outcome.next.inj hgc).2
  have hfull : min (w₁.sender.out.writeBuffer.spare - tagSize) w₁.buf.length = 0 := by
    by_contra hroom
    simp only [writeBuf, if_neg hroom] at hwrite
    cases (Outcome.next.inj hwrite).2
  have hnone := h.length_writable
  rw [hsent, List.length_nil] at hnone
  apply List.length_eq_zero_iff.mp
  simp only [Vec.spare, tagSize, cryptoTagSize] at *
  omega

/-- **The loop of `poll_write`**, where it ends: a sequence of moves that leaves no bytes. -/
theorem loop_moves (ht : t.Accepts) (h : Sound debugAssertions w.sender.out) {fuel : Nat}
    {r : Option Halt} (hloop : whileUpdated (round debugAssertions t) fuel w = some (w', r)) :
    r = none ∧ ReflTransGen Moves w w' ∧ w'.buf = [] := by
  obtain ⟨hr, hsteps, hquiet⟩ :=
    whileUpdated_steps (P := fun w => Sound debugAssertions w.sender.out)
      (fun _ _ hs hmove => hs.moves hmove) (fun _ hs => round_steps ht hs) h hloop
  exact ⟨hr, hsteps, buf_eq_nil_of_quiet ht (h.steps hsteps) hquiet⟩

theorem loop_returns (ht : t.Accepts) (h : Sound debugAssertions w.sender.out) :
    ∃ w', whileUpdated (round debugAssertions t) (w.measure + 1) w = some (w', none) :=
  whileUpdated_returns (P := fun w => Sound debugAssertions w.sender.out)
    (fun _ _ hs hmove => hs.moves hmove) (fun _ _ hs hmove => hs.measure_lt hmove)
    (fun _ hs => round_steps ht hs) h (Nat.lt_succ_self _)

end Sending

namespace Sender

variable {fuel : Nat} {buf : Bytes}

/-- **`poll_write`**, where it returns: a sequence of moves that accepts all of the bytes. -/
theorem pollWrite_moves (ht : t.Accepts) (h : Sound debugAssertions s.out)
    {r : Except Halt (Poll Nat)} (hpoll : s.pollWrite debugAssertions t fuel buf = some (s', r)) :
    ReflTransGen Moves ⟨s, buf⟩ ⟨s', []⟩ ∧
      r = .ok (if buf.length = 0 then .pending else .ready buf.length) := by
  rw [pollWrite] at hpoll
  split at hpoll
  · cases hpoll
  · rename_i w halt hloop
    cases (Sending.loop_moves ht h hloop).1
  · rename_i w hloop
    obtain ⟨-, hsteps, hbuf⟩ := Sending.loop_moves ht h hloop
    obtain ⟨rfl, rfl⟩ := Prod.mk.inj (Option.some.inj hpoll)
    obtain ⟨sender, rest⟩ := w
    obtain rfl : rest = [] := hbuf
    exact ⟨hsteps, rfl⟩

theorem pollWrite_returns (ht : t.Accepts) (h : Sound debugAssertions s.out) (buf : Bytes) :
    ∃ fuel s' r, s.pollWrite debugAssertions t fuel buf = some (s', r) := by
  obtain ⟨w', hloop⟩ := Sending.loop_returns (w := ⟨s, buf⟩) ht h
  refine ⟨(⟨s, buf⟩ : Sending aead).measure + 1, w'.sender, .ok (if buf.length - w'.buf.length = 0
    then .pending else .ready (buf.length - w'.buf.length)), ?_⟩
  rw [pollWrite, hloop]

/-! ### `poll_flush` -/

/-- The loop of `poll_flush`, where it ends: moves, and a poll that the transport answers. -/
theorem flushLoop_moves (ht : t.Accepts) (h : Sound debugAssertions s.out)
    {r : Except Halt (Poll Unit)} (hloop : flushLoop t fuel s = some (s', r)) :
    ∃ u, ReflTransGen Moves (⟨s, []⟩ : Sending aead) ⟨u, []⟩ ∧
      s' = { u with flushes := u.flushes + 1 } ∧ r ≠ .error .panic := by
  induction fuel generalizing s with
  | zero => cases hloop
  | succ fuel ih =>
      rw [flushLoop] at hloop
      by_cases hnil : s.out.writable = []
      · simp only [if_pos hnil] at hloop
        refine ⟨s, .refl, ?_⟩
        split at hloop
        all_goals
          obtain ⟨rfl, rfl⟩ := Prod.mk.inj (Option.some.inj hloop)
          exact ⟨rfl, by simp⟩
      · obtain ⟨n, hn, hwrite⟩ := ht s.writes
        have hpos : 0 < s.out.writable.length := List.length_pos_iff.mpr hnil
        simp only [if_neg hnil, hwrite] at hloop
        have hmove : Moves (⟨s, []⟩ : Sending aead)
            ⟨s.taken (min n s.out.writable.length), []⟩ :=
          .take (w := ⟨s, []⟩) (by omega) (Nat.min_le_right _ _)
        have hsound := h.steps (w := ⟨s, []⟩) (.single hmove)
        obtain ⟨u, hsteps, hs', hr⟩ := ih hsound hloop
        exact ⟨u, .head hmove hsteps, hs', hr⟩

theorem flushLoop_returns (ht : t.Accepts) (h : Sound debugAssertions s.out)
    (hfuel : s.out.writable.length < fuel) : ∃ s' r, flushLoop t fuel s = some (s', r) := by
  induction fuel generalizing s with
  | zero => exact absurd hfuel (Nat.not_lt_zero _)
  | succ fuel ih =>
      rw [flushLoop]
      by_cases hnil : s.out.writable = []
      · simp only [if_pos hnil]
        split
        · exact ⟨_, _, rfl⟩
        · exact ⟨_, _, rfl⟩
        · exact ⟨_, _, rfl⟩
      · obtain ⟨n, hn, hwrite⟩ := ht s.writes
        have hpos : 0 < s.out.writable.length := List.length_pos_iff.mpr hnil
        simp only [if_neg hnil, hwrite]
        have hmove : Moves (⟨s, []⟩ : Sending aead)
            ⟨s.taken (min n s.out.writable.length), []⟩ :=
          .take (w := ⟨s, []⟩) (by omega) (Nat.min_le_right _ _)
        have hsound := h.moves (w := ⟨s, []⟩) hmove
        have hlen := h.length_writable
        have hlen' : (s.taken (min n s.out.writable.length)).out.writable.length =
            s.out.writableEnd - (s.out.writableStart + min n s.out.writable.length) :=
          hsound.length_writable
        exact ih hsound (by omega)

/-- What is collected is encrypted by a flush. -/
def sealed (s : Sender aead) : Sender aead :=
  if s.out.writeBuffer.toList.length - s.out.writableEnd ≠ tagSize then s.encrypted else s

theorem sealed_steps (h : Sound debugAssertions s.out) :
    ReflTransGen Moves (⟨s, []⟩ : Sending aead) ⟨s.sealed, []⟩ := by
  have hend := h.end_le
  rw [sealed]
  split
  · have hlt : s.out.writableEnd + tagSize < s.out.writeBuffer.toList.length := by omega
    exact .single (.encrypt (w := ⟨s, []⟩) (.inl hlt))
  · exact .refl

theorem pollFlush_eq (h : Sound debugAssertions s.out) :
    s.pollFlush debugAssertions t fuel = flushLoop t fuel s.sealed := by
  have hend := h.end_le
  have hsound := h.steps (w := ⟨s, []⟩) (sealed_steps h)
  have hstart' : s.sealed.out.writableStart ≤ s.sealed.out.writableEnd := hsound.start_le
  have hend' : s.sealed.out.writableEnd + tagSize ≤ s.sealed.out.writeBuffer.toList.length :=
    hsound.end_le
  have hencrypted : (if s.out.writeBuffer.toList.length - s.out.writableEnd ≠ tagSize then
      s.encryptInProgress debugAssertions else some s) = some s.sealed := by
    rw [sealed]
    split
    · exact h.encryptInProgress_eq (.inl (by omega))
    · rfl
  simp only [pollFlush, hencrypted]
  rw [if_neg (by omega)]

/-- **`poll_flush`**, where it returns: moves, and a poll that the transport answers. -/
theorem pollFlush_moves (ht : t.Accepts) (h : Sound debugAssertions s.out)
    {r : Except Halt (Poll Unit)} (hpoll : s.pollFlush debugAssertions t fuel = some (s', r)) :
    ∃ u, ReflTransGen Moves (⟨s, []⟩ : Sending aead) ⟨u, []⟩ ∧
      s' = { u with flushes := u.flushes + 1 } ∧ r ≠ .error .panic := by
  rw [pollFlush_eq h] at hpoll
  have hsteps := sealed_steps h
  obtain ⟨u, hloop, hs', hr⟩ := flushLoop_moves ht (h.steps (w := ⟨s, []⟩) hsteps) hpoll
  exact ⟨u, hsteps.trans hloop, hs', hr⟩

theorem pollFlush_returns (ht : t.Accepts) (h : Sound debugAssertions s.out) :
    ∃ fuel s' r, s.pollFlush debugAssertions t fuel = some (s', r) := by
  have hsound := h.steps (w := ⟨s, []⟩) (sealed_steps h)
  obtain ⟨s', r, hloop⟩ := flushLoop_returns ht hsound (Nat.lt_succ_self _)
  exact ⟨_, s', r, (pollFlush_eq h).trans hloop⟩

/-! ### Runs -/

/-- What implies `Sound` and is kept by every move and by the polls of the flush holds all along
a run. -/
theorem Run.invariant {I : Sender aead → Prop} {start : Sender aead}
    (hsound : ∀ s, I s → Sound debugAssertions s.out)
    (hmoves : ∀ w w' : Sending aead, I w.sender → Moves w w' → I w'.sender)
    (hflush : ∀ s, I s → I { s with flushes := s.flushes + 1 }) (ht : t.Accepts)
    (hstart : I start) (hrun : Run debugAssertions t start s) : I s := by
  have hsteps : ∀ {w w' : Sending aead}, I w.sender → ReflTransGen Moves w w' → I w'.sender :=
    fun {w w'} h hsteps => reflTransGen_preserves (P := fun w => I w.sender) hmoves h hsteps
  induction hrun with
  | new => exact hstart
  | write _ hpoll ih =>
      exact hsteps (w := ⟨_, _⟩) ih (pollWrite_moves ht (hsound _ ih) hpoll).1
  | flush _ hpoll ih =>
      obtain ⟨u, hmoved, rfl, -⟩ := pollFlush_moves ht (hsound _ ih) hpoll
      exact hflush u (hsteps (w := ⟨_, _⟩) ih hmoved)

end Sender

end OnionNetwork.Opfusk
