import OnionNetwork.Ratchet.Runs

/-!
# Message keys are right and used once

Whatever the network loses, repeats and reorders, a key that `recv` returns is
the one `send` returned with the header, and no header is accepted twice. A party
that uses up a chain breaks this: behind its last message the chain looks like a
guard, and the next `send` opens a chain from a seed nobody else has.
-/

namespace OnionNetwork.Ratchet

open Lib

variable {S : Suite}

/-- What a delivery may return: the key of the header, which was not accepted
before. -/
def Sound (s : Duplex S) : Action S → Prop
  | .send _ => True
  | .deliver p i draws =>
      ∀ key, (s.step (.deliver p i draws)).2 = .received (.ok key) →
        ∃ header, (s.sent p.other)[i]? = some (header, key) ∧
          ∀ h ∈ s.accepted p, h.id ≠ header.id

/-- The invariant says so. -/
theorem sound_of_inv (hex : S.exchange.Lawful) {s : Duplex S} (h : Inv s) (a : Action S) :
    Sound s a := by
  cases a with
  | send p => trivial
  | deliver p i draws =>
      intro key hevent
      have hcases := deliver_cases hex h p i draws
      generalize s.step (.deliver p i draws) = r at *
      obtain ⟨s', event⟩ := r
      cases hcases with
      | nothing hget => cases hevent
      | fresh hget hfresh hinv heq hahead =>
          rw [← Except.ok.inj (received_inj hevent)]
          refine ⟨_, hget, ?_⟩
          intro m hm hid
          obtain ⟨hbefore, -⟩ := (h.tracks p).done m hm
          rw [hid] at hbefore
          exact hahead hbefore
      | kept hget hkept =>
          rw [← Except.ok.inj (received_inj hevent)]
          refine ⟨_, hget, ?_⟩
          intro m hm hid
          obtain ⟨-, hnot⟩ := (h.tracks p).done m hm
          rw [hid] at hnot
          exact hnot hkept
      | lost hget hlost => cases received_inj hevent

/-- **Sound keys, each used once.** In every run whose sends find their counters
in range, over a network that loses, repeats and reorders headers as it likes. -/
theorem keys_sound (hex : S.exchange.Lawful) (secret : SharedSecret)
    (aliceDraws bobDraws : Draws S) (actions : List (Action S))
    (hfits : (duplexMachine S).EachStep Fits (Duplex.start secret aliceDraws bobDraws) actions) :
    (duplexMachine S).EachStep Sound (Duplex.start secret aliceDraws bobDraws) actions := by
  apply Machine.eachStep_of_invariant _ _ (start_inv hex) hfits
  · intro s a h hfits
    exact step_inv hex h a hfits
  · intro s a h _
    exact sound_of_inv hex h a

/-- Headers in both directions, delivered late, twice and out of order. -/
theorem keys_sound_reordered :
    let actions := [.send .bob, .send .bob, .send .alice, .deliver .alice 1 (transparentDraws 3),
      .deliver .alice 0 (transparentDraws 4), .deliver .bob 0 (transparentDraws 5),
      .deliver .alice 0 (transparentDraws 6), .send .alice, .deliver .bob 1 (transparentDraws 7)]
    (duplexMachine Suite.transparent).EachStep Fits
        (Duplex.start 0 (transparentDraws 1) (transparentDraws 2)) actions ∧
      (duplexMachine Suite.transparent).EachStep Sound
        (Duplex.start 0 (transparentDraws 1) (transparentDraws 2)) actions := by
  have hfits : (duplexMachine Suite.transparent).EachStep Fits
      (Duplex.start 0 (transparentDraws 1) (transparentDraws 2))
      [.send .bob, .send .bob, .send .alice, .deliver .alice 1 (transparentDraws 3),
        .deliver .alice 0 (transparentDraws 4), .deliver .bob 0 (transparentDraws 5),
        .deliver .alice 0 (transparentDraws 6), .send .alice,
        .deliver .bob 1 (transparentDraws 7)] := by
    decide
  exact ⟨hfits, keys_sound Exchange.transparent_lawful _ _ _ _ hfits⟩

/-- A chain of the transparent instance counts. -/
theorem stateAt_transparent (root : SharedSecret) (n : Nat) :
    stateAt (kdfSc Suite.transparent) root n = root + BitVec.ofNat 256 n := by
  induction n with
  | zero => exact (BitVec.add_zero root).symm
  | succ n ih =>
      rw [stateAt_succ, ih, BitVec.ofNat_add, ← BitVec.add_assoc]
      rfl

/-- `bob` behind the last message of chain 3. -/
def usedUp : DoubleRatchet Suite.transparent :=
  let bob :=
    ((Duplex.start 0 (transparentDraws 1) (transparentDraws 2)).step (.send .bob)).1.ratchet .bob
  { bob with sender := ⟨u32Max, bob.sender.root + BitVec.ofNat 256 (u32Max - 1)⟩ }

/-- What `alice` makes of the header it sends then. -/
theorem usedUp_send :
    (((Duplex.start 0 (transparentDraws 1) (transparentDraws 2)).ratchet .alice).recv
        usedUp.send.2.1 (transparentDraws 3)).2.toOption = some 4 ∧
      usedUp.send.2.2 ≠ 4 := by
  decide

/-- `bob` uses up chain 3 and goes on: `alice`, who heard nothing so far, takes
the next header for the one that opens chain 3. -/
theorem used_up_chain_unsound :
    ¬ (duplexMachine Suite.transparent).EachStep Sound
        (Duplex.start 0 (transparentDraws 1) (transparentDraws 2))
        (List.replicate (u32Max + 1) (.send .bob) ++
          [.deliver .alice u32Max (transparentDraws 3)]) := by
  intro hsound
  let s₀ : Duplex Suite.transparent := Duplex.start 0 (transparentDraws 1) (transparentDraws 2)
  let s₁ := (s₀.step (.send .bob)).1
  obtain ⟨out, hlen, hrun⟩ := run_use_up s₁ .bob rfl
  rw [stateAt_transparent] at hrun
  -- the state behind the used up chain
  let s₂ : Duplex Suite.transparent :=
    { s₁ with
      ratchet := Function.update s₁.ratchet .bob usedUp
      sent := Function.update s₁.sent .bob (s₁.sent .bob ++ out) }
  have hrun' : (duplexMachine Suite.transparent).run s₀ (List.replicate (u32Max + 1) (.send .bob)) =
      (s₂.step (.send .bob)).1 := by
    rw [List.replicate_succ, Machine.run_cons]
    exact hrun
  rw [Machine.eachStep_append] at hsound
  obtain ⟨-, hlast, -⟩ := hsound
  rw [hrun'] at hlast
  -- the header it sends next is the last one
  have hget : ((s₂.step (.send .bob)).1.sent Party.alice.other)[u32Max]? = some usedUp.send.2 := by
    have hsent : (s₂.step (.send .bob)).1.sent .bob = s₁.sent .bob ++ out ++ [usedUp.send.2] := by
      simp only [Duplex.step, s₂, Function.update_self]
    have hat : u32Max = (s₁.sent .bob ++ out).length := by
      have hfirst : (s₁.sent .bob).length = 1 := rfl
      rw [List.length_append, hlen, hfirst]
      decide
    show ((s₂.step (.send .bob)).1.sent .bob)[u32Max]? = _
    rw [hsent, hat, List.getElem?_append_right (Nat.le_refl _), Nat.sub_self]
    rfl
  obtain ⟨hsome, hne⟩ := usedUp_send
  obtain ⟨alice, hrecv⟩ : ∃ alice, ((s₂.step (.send .bob)).1.ratchet .alice).recv usedUp.send.2.1
      (transparentDraws 3) = (alice, .ok 4) := by
    have hsame : (s₂.step (.send .bob)).1.ratchet .alice = s₀.ratchet .alice := rfl
    rw [hsame]
    cases hresult : (s₀.ratchet .alice).recv usedUp.send.2.1 (transparentDraws 3) with
    | mk alice result =>
        rw [hresult] at hsome
        cases result with
        | error e => cases hsome
        | ok key => exact ⟨alice, by rw [Option.some.inj hsome]⟩
  have hevent := congrArg Prod.snd (step_deliver_ok (i := u32Max) hget hrecv)
  obtain ⟨header, hheader, -⟩ := hlast _ hevent
  rw [hget] at hheader
  exact hne (congrArg Prod.snd (Option.some.inj hheader))

end OnionNetwork.Ratchet
