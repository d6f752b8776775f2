import OnionNetwork.Opfusk.Sender

/-!
# The sender is the writing end

What a `Sender` does without a panic is what the `Output` does with the list of the answers
that the transport has in store: block by block, round by round (`Agrees.round`), and so for
whole polls (`pollWrite_agrees`).
-/

namespace OnionNetwork.Opfusk

open Chat Lib

variable {aead : Aead} {debugAssertions : Bool} {t : Transport}

/-- The next answers of a transport. -/
def Transport.polls (t : Transport) (start count : Nat) : List Answer :=
  (List.range' start count).map t.write

theorem Transport.polls_succ (t : Transport) (start count : Nat) :
    t.polls start (count + 1) = t.write start :: t.polls (start + 1) count := by
  rw [polls, List.range'_succ, List.map_cons]
  rfl

/-- The same poll on its way, with `k` answers or more in store. -/
structure Agrees (t : Transport) (before : Bytes) (k : Nat) (w : Sending aead) (v : Writing aead) :
    Prop where
  out_eq : v.out = w.sender.out
  buf_eq : v.buf = w.buf
  sent_eq : w.sender.sent = before ++ v.sent
  answers_eq : ∃ m, k ≤ m ∧ v.answers = t.polls w.sender.writes m

variable {before : Bytes} {k : Nat} {w : Sending aead} {v : Writing aead}

theorem Agrees.mono (h : Agrees t before (k + 1) w v) : Agrees t before k w v := by
  obtain ⟨m, hm, hanswers⟩ := h.answers_eq
  exact ⟨h.out_eq, h.buf_eq, h.sent_eq, m, Nat.le_of_succ_le hm, hanswers⟩

theorem encrypted_of_some {s s' : Sender aead}
    (h : s.encryptInProgress debugAssertions = some s') : s' = s.encrypted := by
  rw [Sender.encryptInProgress] at h
  split at h
  · cases h
  · split at h
    · cases h
    · split at h
      · cases h
      · exact (Option.some.inj h).symm

namespace Agrees

theorem encrypt (h : Agrees t before k w v) :
    (w.encrypt debugAssertions).Follows (Agrees t before k) v.encrypt := by
  intro w' updated hblock
  rw [Writing.encrypt, h.out_eq]
  rw [Sending.encrypt] at hblock
  split at hblock
  · cases hblock
  · split at hblock
    · rename_i hhalf
      obtain ⟨rfl, rfl⟩ := Outcome.next.inj hblock
      rw [if_pos hhalf]
      exact ⟨v, rfl, h⟩
    · rename_i hhalf
      split at hblock
      · cases hblock
      · rename_i sender hsome
        obtain ⟨rfl, rfl⟩ := Outcome.next.inj hblock
        obtain rfl := encrypted_of_some hsome
        rw [if_neg hhalf]
        exact ⟨_, rfl, rfl, h.buf_eq, h.sent_eq, h.answers_eq⟩

/-- The block that polls the transport uses up an answer at most. -/
theorem writeInner (h : Agrees t before (k + 1) w v) :
    (w.writeInner t).Follows (Agrees t before k) v.writeInner := by
  intro w' updated hblock
  rw [Writing.writeInner, h.out_eq]
  rw [Sending.writeInner] at hblock
  split at hblock
  · cases hblock
  · by_cases hnil : w.sender.out.writable = []
    · simp only [if_pos hnil] at hblock ⊢
      obtain ⟨rfl, rfl⟩ := Outcome.next.inj hblock
      exact ⟨v, rfl, h.mono⟩
    · obtain ⟨m, hm, hanswers⟩ := h.answers_eq
      obtain ⟨m, rfl⟩ := Nat.exists_eq_add_of_lt (Nat.lt_of_lt_of_le (Nat.succ_pos k) hm)
      rw [Nat.zero_add, t.polls_succ] at hanswers
      have hm' : k ≤ m := by omega
      simp only [if_neg hnil, hanswers] at hblock ⊢
      cases hanswer : t.write w.sender.writes with
      | pending =>
          rw [hanswer] at hblock
          obtain ⟨rfl, rfl⟩ := Outcome.next.inj hblock
          exact ⟨_, rfl, rfl, h.buf_eq, h.sent_eq, m, hm', rfl⟩
      | failed e =>
          rw [hanswer] at hblock
          cases hblock
      | ready n =>
          rw [hanswer] at hblock
          simp only at hblock ⊢
          split at hblock
          · cases hblock
          · rename_i hzero
            obtain ⟨rfl, rfl⟩ := Outcome.next.inj hblock
            rw [if_neg hzero]
            refine ⟨_, rfl, rfl, h.buf_eq, ?_, m, hm', rfl⟩
            show w.sender.sent ++ _ = before ++ (v.sent ++ _)
            rw [h.sent_eq, List.append_assoc]

theorem gc (h : Agrees t before k w v) : w.gc.Follows (Agrees t before k) v.gc := by
  intro w' updated hblock
  rw [Writing.gc, h.out_eq]
  rw [Sending.gc] at hblock
  split at hblock
  · cases hblock
  · split at hblock
    · rename_i hguard
      obtain ⟨rfl, rfl⟩ := Outcome.next.inj hblock
      exact ⟨v, if_pos hguard, h⟩
    · rename_i hguard
      split at hblock
      · cases hblock
      · obtain ⟨rfl, rfl⟩ := Outcome.next.inj hblock
        exact ⟨_, if_neg hguard, rfl, h.buf_eq, h.sent_eq, h.answers_eq⟩

theorem writeBuf (h : Agrees t before k w v) :
    w.writeBuf.Follows (Agrees t before k) v.writeBuf := by
  intro w' updated hblock
  rw [Writing.writeBuf, h.out_eq, h.buf_eq]
  rw [Sending.writeBuf] at hblock
  split at hblock
  · rename_i hzero
    obtain ⟨rfl, rfl⟩ := Outcome.next.inj hblock
    exact ⟨v, if_pos hzero, h⟩
  · rename_i hzero
    obtain ⟨rfl, rfl⟩ := Outcome.next.inj hblock
    exact ⟨_, if_neg hzero, rfl, rfl, h.sent_eq, h.answers_eq⟩

/-- **A round** of the one is a round of the other. -/
theorem round (h : Agrees t before (k + 1) w v) :
    (w.round debugAssertions t).Follows (Agrees t before k) v.round :=
  ((h.encrypt.andThen fun _ _ h' => h'.writeInner).andThen fun _ _ h' => h'.gc).andThen
    fun _ _ h' => h'.writeBuf

end Agrees

/-- A poll without an error. -/
def Poll.fine {α : Type} : Poll α → Poll (Except ErrorKind α)
  | .pending => .pending
  | .ready a => .ready (.ok a)

/-- **`poll_write`** of a sender, where it does not panic, is the one of the stream: the same
buffers, the same bytes for the transport, the same result. -/
theorem Sender.pollWrite_agrees {s s' : Sender aead} {fuel : Nat} {buf : Bytes} {p : Poll Nat}
    {r : Output aead × Bytes × Poll (Except ErrorKind Nat)}
    (h : s.pollWrite debugAssertions t fuel buf = some (s', .ok p))
    (hout : s.out.pollWrite buf (t.polls s.writes fuel) = some r) :
    r.1 = s'.out ∧ s'.sent = s.sent ++ r.2.1 ∧ r.2.2 = p.fine := by
  rw [pollWrite] at h
  split at h
  · cases h
  · cases h
  · rename_i w hloop
    obtain ⟨rfl, hp⟩ := Prod.mk.inj (Option.some.inj h)
    obtain rfl := Except.ok.inj hp
    have hstart : Agrees t s.sent fuel ⟨s, buf⟩
        { out := s.out, buf, answers := t.polls s.writes fuel, sent := [] } :=
      ⟨rfl, rfl, (List.append_nil _).symm, fuel, Nat.le_refl _, rfl⟩
    obtain ⟨v, k, hrun, hv⟩ := whileUpdated_follows (fun k _ _ h => h.round) hstart hloop
    rw [Output.pollWrite] at hout
    simp only at hout
    split at hout
    · cases hout
    · rename_i u e hfailed
      cases whileUpdated_unique hfailed hrun
    · rename_i u hreturned
      obtain rfl : u = v := (Prod.mk.inj (whileUpdated_unique hreturned hrun)).1
      obtain rfl := Option.some.inj hout
      refine ⟨hv.out_eq, hv.sent_eq, ?_⟩
      rw [hv.buf_eq]
      split
      · rfl
      · rfl

end OnionNetwork.Opfusk
