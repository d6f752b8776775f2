import OnionNetwork.Opfusk.Handshake
import OnionNetwork.Opfusk.Sessions

/-!
# What the handshake agrees on

Both directions of the handshake mix in the same X25519 value, and the session
secret is the XOR of the two directions: the X25519 value cancels and the
secret is the XOR of the two Kyber secrets (`handshake_secret`). So it changes
with either Kyber secret, never with the X25519 value (`hybrid_iff`).

The signatures cover the challenges only, so two honest sides can complete with
each other's identity although the attacker exchanged the ephemeral keys and
the ciphertexts between them. `agreed_iff` says exactly what has to arrive
undisturbed for the two secrets to be one secret the attacker does not know.
-/

/-! ## What the session secret depends on -/

namespace OnionNetwork.Opfusk

variable {cr : Crypto} {ex : Exchange SharedSecret}

/-- The two sides of a connection. -/
structure Connection (cr : Crypto) {S : Type} (ex : Exchange S) where
  initiator : Side cr ex
  responder : Side cr ex

namespace Connection

/-- The secrets that go into a handshake: both Kyber secrets and the X25519
value. -/
def kems (c : Connection cr ex) : SharedSecret × SharedSecret :=
  (responderKem c.initiator c.responder, initiatorKem c.initiator c.responder)

def xValue (c : Connection cr ex) : SharedSecret := sharedValue c.initiator c.responder

/-- Both sides complete the handshake with this session secret. -/
def Derives (c : Connection cr ex) (secret : SharedSecret) : Prop :=
  ∃ peer peer', handshake c.initiator c.responder = .ok ((peer, secret), (peer', secret))

end Connection

/-- `c` and `c'` do not show the session secret independent of a component:
both sides of each derive one secret, other X25519 values under the same Kyber
secrets give other session secrets, and so does changing exactly one Kyber
secret under the same X25519 value. -/
def Hybrid (c c' : Connection cr ex) : Prop :=
  ∃ secret secret', c.Derives secret ∧ c'.Derives secret' ∧
    (c.kems = c'.kems → c.xValue ≠ c'.xValue → secret ≠ secret') ∧
    (c.xValue = c'.xValue →
      (c.kems.1 ≠ c'.kems.1 ∧ c.kems.2 = c'.kems.2 ∨
        c.kems.1 = c'.kems.1 ∧ c.kems.2 ≠ c'.kems.2) → secret ≠ secret')

/-- The X25519 value is mixed in twice and cancels. -/
theorem xor_hybrid_cancel (k1 k2 x : SharedSecret) : (k1 ^^^ x) ^^^ (k2 ^^^ x) = k1 ^^^ k2 := by
  rw [BitVec.xor_comm k2 x, BitVec.xor_assoc, ← BitVec.xor_assoc x x, BitVec.xor_self,
    BitVec.zero_xor]

theorem xor_left_cancel {a b c : SharedSecret} (h : a ^^^ b = a ^^^ c) : b = c := by
  have hxor := congrArg (a ^^^ ·) h
  simpa only [← BitVec.xor_assoc, BitVec.xor_self, BitVec.zero_xor] using hxor

/-- The session secret of an undisturbed handshake, on both sides. -/
theorem handshake_secret (hex : ex.Lawful) (hcr : SignsCorrectly cr) (c : Connection cr ex)
    (secret : SharedSecret) : c.Derives secret ↔ secret = c.kems.1 ^^^ c.kems.2 := by
  have hrun := handshake_eq c.initiator c.responder hex hcr
  simp only [xor_hybrid_cancel] at hrun
  rw [BitVec.xor_comm (initiatorKem _ _)] at hrun
  constructor
  · rintro ⟨peer, peer', h⟩
    rw [hrun] at h
    have hpair := Except.ok.inj h
    exact (congrArg (fun r => r.2.2) hpair).symm
  · rintro rfl
    exact ⟨_, _, hrun⟩

/-- **The session secret is hybrid in the Kyber secrets only.** Two handshakes
are as the hybrid construction promises if and only if they do not have the
same two Kyber secrets under different X25519 values. -/
theorem hybrid_iff (hex : ex.Lawful) (hcr : SignsCorrectly cr) (c c' : Connection cr ex) :
    Hybrid c c' ↔ ¬ (c.kems = c'.kems ∧ c.xValue ≠ c'.xValue) := by
  simp only [Hybrid, handshake_secret hex hcr]
  constructor
  · rintro ⟨secret, secret', rfl, rfl, hx, -⟩ ⟨hkems, hne⟩
    exact hx hkems hne (by rw [hkems])
  · intro hno
    refine ⟨_, _, rfl, rfl, fun hkems hne => absurd ⟨hkems, hne⟩ hno, fun _ hone heq => ?_⟩
    rcases hone with ⟨h1, h2⟩ | ⟨h1, h2⟩
    · rw [h2, BitVec.xor_comm, BitVec.xor_comm c'.kems.1] at heq
      exact h1 (xor_left_cancel heq)
    · rw [h1] at heq
      exact h2 (xor_left_cancel heq)

/-- A connection between the keys 1 and 2, in the transparent instances: the
X25519 secrets, the Kyber secrets drawn by the responder and the initiator. -/
def plainConnection (xi xr k1 k2 : Hash) : Connection .transparent .transparent where
  initiator := ⟨(1 : Hash), ⟨(11 : Hash), xi⟩, 5, k2, ()⟩
  responder := ⟨(2 : Hash), ⟨(12 : Hash), xr⟩, 6, k1, ()⟩

theorem signsCorrectly_transparent : SignsCorrectly .transparent := fun kp data rng =>
  (Crypto.transparent_verify_iff kp data data rng).mpr rfl

/-- Two handshakes that differ in one Kyber secret. -/
theorem hybrid_iff_plain :
    Hybrid (plainConnection 3 4 7 8) (plainConnection 3 4 9 8) ↔
      ¬ ((plainConnection 3 4 7 8).kems = (plainConnection 3 4 9 8).kems ∧
        (plainConnection 3 4 7 8).xValue ≠ (plainConnection 3 4 9 8).xValue) :=
  hybrid_iff Exchange.transparent_lawful signsCorrectly_transparent _ _

/-- The X25519 values 12 and 15 under the Kyber secrets 7 and 8: both handshakes
derive 7 XOR 8, so the session secret is not hybrid. -/
theorem x25519_cancels :
    (plainConnection 3 4 7 8).kems = (plainConnection 3 5 7 8).kems ∧
      (plainConnection 3 4 7 8).xValue ≠ (plainConnection 3 5 7 8).xValue ∧
      (plainConnection 3 4 7 8).Derives 15 ∧ (plainConnection 3 5 7 8).Derives 15 ∧
      ¬ Hybrid (plainConnection 3 4 7 8) (plainConnection 3 5 7 8) := by
  have hderives : ∀ (c : Connection .transparent .transparent) (secret : SharedSecret),
      c.Derives secret ↔ secret = c.kems.1 ^^^ c.kems.2 :=
    handshake_secret Exchange.transparent_lawful signsCorrectly_transparent
  refine ⟨rfl, by decide, (hderives _ _).mpr rfl, (hderives _ _).mpr rfl, ?_⟩
  rintro ⟨secret, secret', h, h', hx, -⟩
  refine hx rfl (by decide) ?_
  rw [(hderives _ _).mp h, (hderives _ _).mp h']
  rfl

end OnionNetwork.Opfusk

/-! ## Agreement -/

namespace OnionNetwork.Opfusk

open Lib

variable {cr : Crypto}

/-- The session secret of connection `n`: `k` was encapsulated to the peer's key
and `d` is what its own key answered; `x` and `x'` are the X25519 keys it was
sent as the peer's key and inside the ciphertext. -/
def sessionSecret (n : Name) (k d : Atom) (x x' : Name) : Finset Atom :=
  xorSecrets ({k} ^^^ {.dh s(n, x)}) ({d} ^^^ {.dh s(n, x')})

/-- Secrets of Kyber, in contrast to X25519 values. -/
def Atom.IsKyber : Atom → Prop
  | .dh _ => False
  | _ => True

theorem Atom.isKyber_answer (sk : Name) (cp : Name × Name) : (Atom.answer sk cp).IsKyber := by
  unfold answer
  split <;> trivial

theorem mem_symmDiff_iff {a : Atom} {s t : Finset Atom} :
    a ∈ symmDiff s t ↔ ¬ (a ∈ s ↔ a ∈ t) :=
  Finset.mem_symmDiff.trans (xor_iff_not_iff (a ∈ s) (a ∈ t))

theorem mem_xorSecrets {a : Atom} {s t : Finset Atom} :
    a ∈ xorSecrets s t ↔ ¬ (a ∈ s ↔ a ∈ t) := mem_symmDiff_iff

theorem mem_sessionSecret {a : Atom} {n : Name} {k d : Atom} {x x' : Name} :
    a ∈ sessionSecret n k d x x' ↔
      ¬ (¬ (a = k ↔ a = .dh s(n, x)) ↔ ¬ (a = d ↔ a = .dh s(n, x'))) := by
  rw [sessionSecret, mem_xorSecrets]
  show ¬ (a ∈ xorSecrets {k} {Atom.dh s(n, x)} ↔ a ∈ xorSecrets {d} {Atom.dh s(n, x')}) ↔ _
  simp only [mem_xorSecrets, Finset.mem_singleton]

/-- Of the Kyber secrets, the session secret contains those two, unless they
are the same. -/
theorem mem_sessionSecret_kyber {a : Atom} (ha : a.IsKyber) {n : Name} {k d : Atom}
    {x x' : Name} : a ∈ sessionSecret n k d x x' ↔ ¬ (a = k ↔ a = d) := by
  have hne : ∀ e, a ≠ .dh e := by
    rintro e rfl
    exact ha
  simp only [mem_sessionSecret, hne, iff_false, not_not]

/-- The X25519 values in it are those two, unless they are the same. -/
theorem mem_sessionSecret_dh {e : Sym2 Name} {n : Name} {k d : Atom} (hk : k.IsKyber)
    (hd : d.IsKyber) {x x' : Name} :
    .dh e ∈ sessionSecret n k d x x' ↔ ¬ (e = s(n, x) ↔ e = s(n, x')) := by
  have hne : ∀ {a : Atom}, a.IsKyber → .dh e ≠ a := by
    rintro a ha rfl
    exact ha
  simp only [mem_sessionSecret, hne hk, hne hd, Atom.dh.injEq, false_iff, not_not]

/-- Same X25519 keys on both ways cancel. -/
theorem sessionSecret_same (n : Name) {k d : Atom} (x : Name) :
    sessionSecret n k d x x = symmDiff {k} {d} := by
  ext a
  rw [mem_sessionSecret, mem_symmDiff_iff, Finset.mem_singleton, Finset.mem_singleton]
  tauto

/-- Two different connections that share a secret with different X25519 keys on
the two ways: impossible, for a shared X25519 value is one between the two. -/
theorem dh_same_of_eq {n n' : Name} (hn : n ≠ n') {k d k' d' : Atom} (hk : k.IsKyber)
    (hd : d.IsKyber) (hk' : k'.IsKyber) (hd' : d'.IsKyber) {x₁ x₂ x₃ x₄ : Name}
    (h : sessionSecret n k d x₁ x₂ = sessionSecret n' k' d' x₃ x₄) : x₁ = x₂ := by
  have hmem : ∀ e, ¬ (e = s(n, x₁) ↔ e = s(n, x₂)) ↔ ¬ (e = s(n', x₃) ↔ e = s(n', x₄)) := by
    intro e
    rw [← mem_sessionSecret_dh hk hd, ← mem_sessionSecret_dh hk' hd', h]
  by_contra hne
  -- a value of `n` with `x` that `n'` computes as well has `n'` as its other end
  have hend : ∀ x y, s(n, x) = s(n', y) → x = n' := by
    intro x y hxy
    rcases Sym2.eq_iff.mp hxy with ⟨h1, -⟩ | ⟨-, h2⟩
    · exact absurd h1 hn
    · exact h2
  have hsym : s(n, x₁) ≠ s(n, x₂) := fun heq => hne (Sym2.congr_right.mp heq)
  have hpeer : ∀ x, x = x₁ ∨ x = x₂ → x = n' := by
    intro x hx
    have hin : ¬ (s(n, x) = s(n, x₁) ↔ s(n, x) = s(n, x₂)) := by
      rcases hx with rfl | rfl
      · simpa using hsym
      · simpa using hsym.symm
    by_contra hno
    exact (hmem _).mp hin
      (iff_of_false (fun he => hno (hend _ _ he)) (fun he => hno (hend _ _ he)))
  exact hne ((hpeer x₁ (.inl rfl)).trans (hpeer x₂ (.inr rfl)).symm)

/-- The same Kyber secret cannot be computed by two connections, and the one
connection `i` encapsulates is computed by `j` exactly when it was for the key of
`j` and arrived there. -/
theorem kem_eq_answer_iff {i j : Name} {receiver : Name} {cp : Name × Name} :
    Atom.kem receiver i = Atom.answer j cp ↔ receiver = j ∧ cp = (j, i) := by
  unfold Atom.answer
  constructor
  · intro h
    split at h
    · rename_i hcp
      obtain ⟨rfl, rfl⟩ := Atom.kem.inj h
      exact ⟨rfl, Prod.ext hcp rfl⟩
    · cases h
  · rintro ⟨rfl, rfl⟩
    rw [if_pos rfl]

/-- **Agreement on a secret with something in it.** Two connections compute the
same non-empty secret exactly when each got the other's Kyber key and
ciphertext and saw one X25519 key of the peer. -/
theorem sessionSecret_eq_iff {i j : Name} (hij : i ≠ j) (p q : Name) (c₁ c₂ : Name × Name)
    (x₁ x₂ x₃ x₄ : Name) :
    (sessionSecret i (.kem p i) (.answer i c₁) x₁ x₂ =
        sessionSecret j (.kem q j) (.answer j c₂) x₃ x₄ ∧
      sessionSecret i (.kem p i) (.answer i c₁) x₁ x₂ ≠ ∅) ↔
      (p = j ∧ c₂ = (j, i)) ∧ (q = i ∧ c₁ = (i, j)) ∧ x₁ = x₂ ∧ x₃ = x₄ := by
  have hd₁ := Atom.isKyber_answer i c₁
  have hd₂ := Atom.isKyber_answer j c₂
  have hkyber : ∀ receiver rng, (Atom.kem receiver rng).IsKyber := fun _ _ => trivial
  constructor
  · rintro ⟨heq, hne⟩
    have hx : x₁ = x₂ := dh_same_of_eq hij (hkyber _ _) hd₁ (hkyber _ _) hd₂ heq
    have hx' : x₃ = x₄ :=
      dh_same_of_eq hij.symm (hkyber _ _) hd₂ (hkyber _ _) hd₁ heq.symm
    subst hx hx'
    rw [sessionSecret_same, sessionSecret_same] at heq
    rw [sessionSecret_same] at hne
    have hk₁ : Atom.kem p i ≠ Atom.answer i c₁ := fun h => hne (by rw [h, symmDiff_self]; rfl)
    have hk₂ : Atom.kem q j ≠ Atom.answer j c₂ := by
      intro h
      rw [h, symmDiff_self] at heq
      exact hne heq
    have hkem : Atom.kem p i ≠ Atom.kem q j := fun h => hij (Atom.kem.inj h).2
    -- the two secrets have the same atoms, and each has two
    have hmem : ∀ a, ¬ (a = Atom.kem p i ↔ a = Atom.answer i c₁) ↔
        ¬ (a = Atom.kem q j ↔ a = Atom.answer j c₂) := by
      intro a
      have ha := congrArg (fun s => a ∈ s) heq
      simpa only [mem_symmDiff_iff, Finset.mem_singleton, eq_iff_iff] using ha
    -- the own key is not the other's own key, so it is the other's ciphertext
    have h₂ : Atom.kem p i = Atom.answer j c₂ := by
      by_contra hne₂
      have hboth := (hmem (.kem p i)).mp fun h => hk₁ (h.mp rfl)
      exact hboth (iff_of_false hkem hne₂)
    have h₁ : Atom.kem q j = Atom.answer i c₁ := by
      by_contra hne₁
      have hboth := (hmem (.kem q j)).mpr fun h => hk₂ (h.mp rfl)
      exact hboth (iff_of_false hkem.symm hne₁)
    exact ⟨kem_eq_answer_iff.mp h₂, kem_eq_answer_iff.mp h₁, rfl, rfl⟩
  · rintro ⟨hi, hj, rfl, rfl⟩
    rw [sessionSecret_same, sessionSecret_same, ← kem_eq_answer_iff.mpr hi,
      ← kem_eq_answer_iff.mpr hj, symmDiff_comm]
    refine ⟨rfl, fun h => hij ?_⟩
    have hbot := Finset.singleton_injective (symmDiff_eq_bot.mp h)
    exact (Atom.kem.inj hbot).2.symm

/-- An undisturbed secret contains what was encapsulated to the peer. -/
theorem kem_mem_sessionSecret {i j p : Name} {c : Name × Name} (hij : i ≠ j) (hp : p = j)
    (hc : c = (i, j)) {x x' : Name} :
    .kem j i ∈ sessionSecret i (.kem p i) (.answer i c) x x' := by
  subst hp hc
  have hanswer : Atom.answer i (i, p) = .kem i p := (kem_eq_answer_iff.mpr ⟨rfl, rfl⟩).symm
  have hkyber : (Atom.kem p i).IsKyber := trivial
  rw [mem_sessionSecret_kyber hkyber, hanswer]
  intro hiff
  exact hij (Atom.kem.inj (hiff.mp rfl)).2

/-- The secret of the initiator `i`, from what it received. -/
theorem outboundFinish_secret {i : Nat} {kp : cr.Keypair} {challinge : Hash} {signRng : cr.Rng}
    {initResp : InitResponse cr Exchange.symbolic} {finalReq : FinalRequest cr Exchange.symbolic}
    {peer : Hash} {secret : Finset Atom}
    (h : (sideOf i kp challinge signRng).outboundFinish initResp =
      .ok (finalReq, peer, secret)) :
    secret = sessionSecret (.session i) (.kem initResp.encPk.post (.session i))
      (.answer (.session i) initResp.cp.pl) initResp.encPk.pre initResp.cp.x := by
  unfold Side.outboundFinish at h
  split at h
  · obtain ⟨-, -, rfl⟩ := Prod.mk.inj (Except.ok.inj h) |>.imp_right Prod.mk.inj
    rfl
  · cases h

/-- The secret of the responder `j`, from what it received. -/
theorem inboundFinish_secret {j : Nat} {kp : cr.Keypair} {challinge : Hash} {signRng : cr.Rng}
    {initReq : InitRequest cr Exchange.symbolic} {finalReq : FinalRequest cr Exchange.symbolic}
    {peer : Hash} {secret : Finset Atom}
    (h : (sideOf j kp challinge signRng).inboundFinish initReq finalReq = .ok (peer, secret)) :
    secret = sessionSecret (.session j) (.kem initReq.encPk.post (.session j))
      (.answer (.session j) finalReq.cp.pl) initReq.encPk.pre finalReq.cp.x := by
  unfold Side.inboundFinish at h
  split at h
  · obtain ⟨-, rfl⟩ := Prod.mk.inj (Except.ok.inj h)
    rfl
  · cases h

/-- The Kyber keys and ciphertexts of the two sides arrived as the other side
made them, and each side was sent one X25519 key, as the peer's key and in the
ciphertext. What the signatures cover is not mentioned: no signature covers
these parts. -/
def Completed.Undisturbed {w : World cr} {i j : Nat} (c : Completed w i j) : Prop :=
  (c.initResp.encPk.post = c.responder.tempKey.publicKey.post ∧
    c.finalReq.cp.pl =
      (c.initiator.tempKey.encapsulate c.responder.tempKey.publicKey c.initiator.rng).1.pl) ∧
  (c.initReq.encPk.post = c.initiator.tempKey.publicKey.post ∧
    c.initResp.cp.pl =
      (c.responder.tempKey.encapsulate c.initiator.tempKey.publicKey c.responder.rng).1.pl) ∧
  c.initResp.encPk.pre = c.initResp.cp.x ∧ c.initReq.encPk.pre = c.finalReq.cp.x

/-- The two sides have one session secret, and the attacker cannot compute it. -/
def Completed.Agreed {w : World cr} {i j : Nat} (corrupt : Set cr.Keypair)
    (c : Completed w i j) : Prop :=
  c.initiatorSecret = c.responderSecret ∧ ¬ w.Knows corrupt (.secret c.initiatorSecret) ∧
    ¬ w.Knows corrupt (.secret c.responderSecret)

/-- **Handshake agreement.** Whatever the attacker delivers in a run of any
number of connections: an initiator and a responder that completed with each
other's identity agree on a secret unknown to the attacker if and only if the
key exchange between them was not disturbed. -/
theorem agreed_iff (corrupt : Set cr.Keypair) (es : List (Event cr)) (i j : Nat)
    (c : Completed ((opfuskMachine cr).run World.start es) i j) :
    c.Agreed corrupt ↔ c.Undisturbed := by
  have hsound := World.sound_run es
  generalize (opfuskMachine cr).run World.start es = w at hsound c
  obtain ⟨initiator, responder, initReq, initResp, finalSent, finalReq, si, sj, hout, hin⟩ := c
  obtain ⟨⟨kpi, ci, ri, rfl⟩, hfinish⟩ := hsound i _ hout
  obtain ⟨⟨kpj, cj, rj, rfl⟩, hfinish'⟩ := hsound j _ hin
  have hsi := outboundFinish_secret (hfinish _ _ _ _ rfl)
  have hsj := inboundFinish_secret (hfinish' _ _ _ _ rfl)
  have hij : Name.session i ≠ Name.session j := by
    intro h
    obtain rfl := Name.session.inj h
    rw [hout] at hin
    cases hin
  have hiff := sessionSecret_eq_iff hij initResp.encPk.post initReq.encPk.post initResp.cp.pl
    finalReq.cp.pl initResp.encPk.pre initResp.cp.x initReq.encPk.pre finalReq.cp.x
  rw [← hsi, ← hsj] at hiff
  show (si = sj ∧ ¬ w.Knows corrupt (.secret si) ∧ ¬ w.Knows corrupt (.secret sj)) ↔ _
  constructor
  · rintro ⟨heq, hsecret, -⟩
    refine hiff.mp ⟨heq, ?_⟩
    rintro rfl
    exact hsecret (w.knows_zero corrupt)
  · intro hun
    obtain ⟨heq, -⟩ := hiff.mpr hun
    -- the secret contains what the initiator encapsulated to the responder
    have hmem : Atom.kem (.session j) (.session i) ∈ si := by
      obtain ⟨⟨hp, -⟩, ⟨-, hc⟩, -⟩ := hun
      rw [hsi]
      exact kem_mem_sessionSecret hij hp hc
    have hprot : (Atom.kem (.session j) (.session i)).Protected := ⟨trivial, trivial⟩
    exact ⟨heq, World.not_knows_of_protected hmem hprot,
      heq ▸ World.not_knows_of_protected hmem hprot⟩

section Runs

variable {kpi kpj : cr.Keypair} {ci cj : Hash} {ri rj : cr.Rng}

/-- A run of one initiator and one responder, with these messages delivered. -/
def pairRun (kpi kpj : cr.Keypair) (ci cj : Hash) (ri rj : cr.Rng)
    (initReq : InitRequest cr Exchange.symbolic) (initResp : InitResponse cr Exchange.symbolic)
    (finalReq : FinalRequest cr Exchange.symbolic) : List (Event cr) :=
  [.openOutbound kpi ci ri, .openInbound kpj cj rj, .deliver 1 (.request initReq),
    .deliver 0 (.response initResp), .deliver 1 (.final finalReq)]

/-- Where it ends when both sides accept. -/
theorem run_pairRun {initReq : InitRequest cr Exchange.symbolic}
    {initResp : InitResponse cr Exchange.symbolic}
    {finalSent finalReq : FinalRequest cr Exchange.symbolic} {pi pj : Hash} {si sj : Finset Atom}
    (ho : (sideOf 0 kpi ci ri).outboundFinish initResp = .ok (finalSent, pi, si))
    (hi : (sideOf 1 kpj cj rj).inboundFinish initReq finalReq = .ok (pj, sj)) :
    (opfuskMachine cr).run World.start (pairRun kpi kpj ci cj ri rj initReq initResp finalReq) =
      { sessions :=
          [.outbound (sideOf 0 kpi ci ri) (.done initResp finalSent pi si),
            .inbound (sideOf 1 kpj cj rj) (.done initReq finalReq pj sj)]
        sent :=
          [.final finalSent, .response ((sideOf 1 kpj cj rj).inboundResponse initReq).1,
            .request (sideOf 0 kpi ci ri).initRequest] } := by
  simp [pairRun, opfuskMachine, World.step, World.start, Session.receive, ho, hi]

/-- An initiator whose peer signed its challenge completes. -/
theorem outboundFinish_of_verify (i : Nat) {initResp : InitResponse cr Exchange.symbolic}
    (h : cr.verify initResp.signPk ci.toBytes initResp.proof = true) :
    (sideOf i kpi ci ri).outboundFinish initResp =
      .ok ({ cp := ⟨(initResp.encPk.post, Name.session i), Name.session i⟩
             proof := cr.sign kpi initResp.challinge.toBytes ri },
        cr.identity initResp.signPk,
        sessionSecret (.session i) (.kem initResp.encPk.post (.session i))
          (.answer (.session i) initResp.cp.pl) initResp.encPk.pre initResp.cp.x) := by
  unfold Side.outboundFinish
  exact if_pos h

/-- So does a responder. -/
theorem inboundFinish_of_verify (j : Nat) {initReq : InitRequest cr Exchange.symbolic}
    {finalReq : FinalRequest cr Exchange.symbolic}
    (h : cr.verify initReq.signPk cj.toBytes finalReq.proof = true) :
    (sideOf j kpj cj rj).inboundFinish initReq finalReq =
      .ok (cr.identity initReq.signPk,
        sessionSecret (.session j) (.kem initReq.encPk.post (.session j))
          (.answer (.session j) finalReq.cp.pl) initReq.encPk.pre finalReq.cp.x) := by
  unfold Side.inboundFinish
  exact if_pos h

end Runs

/-- The initiator with key 1 and the responder with key 2 of the example runs. -/
def exampleInitiator : Side .transparent Exchange.symbolic := sideOf 0 (1 : Hash) 5 ()

def exampleResponder : Side .transparent Exchange.symbolic := sideOf 1 (2 : Hash) 6 ()

/-- What the responder answers to a request with the challenge of the initiator
and this encryption key, with an encryption key and a ciphertext in place of
its own. -/
def exampleResponse (encPk : Enc.PublicKey Exchange.symbolic)
    (cp : Enc.Ciphertext Exchange.symbolic) : InitResponse .transparent Exchange.symbolic where
  challinge := 6
  signPk := (2 : Hash)
  encPk
  proof := ((2 : Hash), Hash.toBytes 5)
  cp

/-- The last message with this ciphertext. -/
def exampleFinal (cp : Enc.Ciphertext Exchange.symbolic) :
    FinalRequest .transparent Exchange.symbolic where
  cp
  proof := ((1 : Hash), Hash.toBytes 6)

/-- A run in which the responder is given `toResponder` as the initiator's key
and `cj` as its ciphertext, the initiator `toInitiator` and `ci`. -/
def exampleRun (toResponder toInitiator : Enc.PublicKey Exchange.symbolic)
    (ci cj : Enc.Ciphertext Exchange.symbolic) : List (Event .transparent) :=
  pairRun (1 : Hash) (2 : Hash) 5 6 () ()
    { exampleInitiator.initRequest with encPk := toResponder }
    (exampleResponse toInitiator ci) (exampleFinal cj)

section

variable (toResponder toInitiator : Enc.PublicKey Exchange.symbolic)
  (ci cj : Enc.Ciphertext Exchange.symbolic)

/-- The initiator accepts: its challenge was signed by 2. -/
theorem exampleInitiator_finish :
    exampleInitiator.outboundFinish (exampleResponse toInitiator ci) =
      .ok (exampleFinal ⟨(toInitiator.post, Name.session 0), Name.session 0⟩,
        Crypto.transparent.identity (2 : Hash),
        sessionSecret (.session 0) (.kem toInitiator.post (.session 0))
          (.answer (.session 0) ci.pl) toInitiator.pre ci.x) :=
  outboundFinish_of_verify 0 ((Crypto.transparent_verify_iff (2 : Hash) _ _ ()).mpr rfl)

/-- The responder accepts: its challenge was signed by 1. -/
theorem exampleResponder_finish :
    exampleResponder.inboundFinish { exampleInitiator.initRequest with encPk := toResponder }
        (exampleFinal cj) =
      .ok (Crypto.transparent.identity (1 : Hash),
        sessionSecret (.session 1) (.kem toResponder.post (.session 1))
          (.answer (.session 1) cj.pl) toResponder.pre cj.x) :=
  inboundFinish_of_verify 1 ((Crypto.transparent_verify_iff (1 : Hash) _ _ ()).mpr rfl)

/-- Where such a run ends. -/
theorem run_exampleRun :
    (opfuskMachine .transparent).run World.start (exampleRun toResponder toInitiator ci cj) =
      { sessions :=
          [.outbound exampleInitiator (.done (exampleResponse toInitiator ci)
              (exampleFinal ⟨(toInitiator.post, Name.session 0), Name.session 0⟩)
              (Crypto.transparent.identity (2 : Hash))
              (sessionSecret (.session 0) (.kem toInitiator.post (.session 0))
                (.answer (.session 0) ci.pl) toInitiator.pre ci.x)),
            .inbound exampleResponder
              (.done { exampleInitiator.initRequest with encPk := toResponder } (exampleFinal cj)
                (Crypto.transparent.identity (1 : Hash))
                (sessionSecret (.session 1) (.kem toResponder.post (.session 1))
                  (.answer (.session 1) cj.pl) toResponder.pre cj.x))]
        sent :=
          [.final (exampleFinal ⟨(toInitiator.post, Name.session 0), Name.session 0⟩),
            .response (exampleResponse exampleResponder.tempKey.publicKey
              ⟨(toResponder.post, Name.session 1), Name.session 1⟩),
            .request exampleInitiator.initRequest] } :=
  run_pairRun (exampleInitiator_finish toInitiator ci) (exampleResponder_finish toResponder cj)

/-- Both sides complete, with each other's identity. -/
def exampleRun_completed :
    Completed ((opfuskMachine .transparent).run World.start
      (exampleRun toResponder toInitiator ci cj)) 0 1 where
  initiator := exampleInitiator
  responder := exampleResponder
  initReq := { exampleInitiator.initRequest with encPk := toResponder }
  initResp := exampleResponse toInitiator ci
  finalSent := exampleFinal ⟨(toInitiator.post, Name.session 0), Name.session 0⟩
  finalReq := exampleFinal cj
  initiatorSecret :=
    sessionSecret (.session 0) (.kem toInitiator.post (.session 0)) (.answer (.session 0) ci.pl)
      toInitiator.pre ci.x
  responderSecret :=
    sessionSecret (.session 1) (.kem toResponder.post (.session 1)) (.answer (.session 1) cj.pl)
      toResponder.pre cj.x
  outbound := by
    rw [run_exampleRun]
    rfl
  inbound := by
    rw [run_exampleRun]
    rfl

end

/-- The undisturbed run: everything arrives as it was sent. -/
theorem agreed_iff_undisturbed :
    let c := exampleRun_completed ⟨Name.session 0, Name.session 0⟩ ⟨Name.session 1, Name.session 1⟩
      ⟨(Name.session 0, Name.session 1), Name.session 1⟩
      ⟨(Name.session 1, Name.session 0), Name.session 0⟩
    c.Agreed ∅ ↔ c.Undisturbed :=
  agreed_iff ∅ _ 0 1 _

namespace World

variable {corrupt : Set cr.Keypair} {w : World cr}

/-- The attacker knows the parts of what was sent. -/
theorem knows_sent {m : Message cr Exchange.symbolic} (hm : m ∈ w.sent)
    {d : Datum cr Exchange.symbolic} (hd : d ∈ m.parts) : w.Knows corrupt d :=
  .known (.inr (.inr (.inr (.inr ⟨m, hm, hd⟩))))

/-- It has key pairs of its own. -/
theorem knows_attacker (n : Nat) :
    w.Knows corrupt (.kyberSecret (Name.attacker n)) ∧
      w.Knows corrupt (.kyberPublic (Name.attacker n)) ∧
      w.Knows corrupt (.xPublic (Name.attacker n)) ∧ w.Knows corrupt (.rng (Name.attacker n)) := by
  have hseed : w.Knows corrupt (.kyberSeed (Name.attacker n)) := .known (.inr (.inl ⟨n, rfl⟩))
  have hsecret : w.Knows corrupt (.kyberSecret (Name.attacker n)) :=
    .rule₁ (@Rule.kyberGenerate cr _ _ Exchange.symbolic (Name.attacker n)) hseed
  have hstatic : w.Knows corrupt (.staticSecret (Name.attacker n)) := .known (.inl ⟨n, rfl⟩)
  exact ⟨hsecret, .rule₁ (@Rule.kyberPublic cr _ _ Exchange.symbolic (Name.attacker n)) hsecret,
    .rule₁ (@Rule.xPublic cr _ _ Exchange.symbolic (Name.attacker n)) hstatic,
    .known (.inr (.inr (.inl ⟨n, rfl⟩)))⟩

/-- What was encapsulated to its key it can decapsulate. -/
theorem knows_kem {n : Nat} {rng : Name}
    (h : w.Knows corrupt (.kyberCiphertext (Name.attacker n, rng))) :
    w.Knows corrupt (.secret ({.kem (.attacker n) rng} : Finset Atom)) := by
  refine .rule₂ (@Rule.decapsulate cr _ _ Exchange.symbolic (Name.attacker n, rng)
    (Name.attacker n) _ ?_) h (knows_attacker n).1
  exact congrArg (fun a : Atom => some ({a} : Finset Atom)) (if_pos rfl)

/-- It can encapsulate to any key it saw. -/
theorem knows_encapsulate {pk : Name} {n : Nat} (h : w.Knows corrupt (.kyberPublic pk)) :
    w.Knows corrupt (.kyberCiphertext (pk, Name.attacker n)) ∧
      w.Knows corrupt (.secret ({.kem pk (.attacker n)} : Finset Atom)) :=
  ⟨.rule₂ (@Rule.encapsulate cr _ _ Exchange.symbolic pk (Name.attacker n)) h
      (knows_attacker n).2.2.2,
    .rule₂ (@Rule.encapsulated cr _ _ Exchange.symbolic pk (Name.attacker n)) h
      (knows_attacker n).2.2.2⟩

end World

/-- The attack: both sides are given the attacker's keys as the ephemeral keys
of the peer and ciphertexts the attacker made; challenges and signatures are
handed on. -/
def swappedKeys : List (Event .transparent) :=
  exampleRun ⟨Name.attacker 0, Name.attacker 0⟩ ⟨Name.attacker 0, Name.attacker 0⟩
    ⟨(Name.session 0, Name.attacker 0), Name.attacker 0⟩
    ⟨(Name.session 1, Name.attacker 0), Name.attacker 0⟩

/-- The attacker, who has no signing key, can make every message it delivers. -/
theorem swappedKeys_delivered :
    (opfuskMachine .transparent).EachStep (World.CanDeliver ∅) World.start swappedKeys := by
  refine ⟨trivial, trivial, ?_, ?_, ?_, trivial⟩
  · -- the request: its keys are the attacker's
    intro d hd
    simp only [Message.parts, List.mem_cons, List.not_mem_nil, or_false] at hd
    rcases hd with rfl | rfl | rfl | rfl
    · exact .rule₀ (.challinge _)
    · exact .rule₀ (.signPk _)
    · exact (World.knows_attacker 0).2.1
    · exact (World.knows_attacker 0).2.2.1
  · -- the response: the signature was sent, the initiator's key as well
    intro d hd
    simp only [Message.parts, List.mem_cons, List.not_mem_nil, or_false] at hd
    rcases hd with rfl | rfl | rfl | rfl | rfl | rfl | rfl
    · exact .rule₀ (.challinge _)
    · exact .rule₀ (.signPk _)
    · exact (World.knows_attacker 0).2.1
    · exact (World.knows_attacker 0).2.2.1
    · exact World.knows_sent List.mem_cons_self (by simp [Message.parts]; rfl)
    · exact (World.knows_encapsulate (World.knows_sent
        (List.mem_cons_of_mem _ List.mem_cons_self) (by simp [Message.parts]; rfl))).1
    · exact (World.knows_attacker 0).2.2.1
  · -- the last message: the signature was sent, the responder's key as well
    intro d hd
    simp only [Message.parts, List.mem_cons, List.not_mem_nil, or_false] at hd
    rcases hd with rfl | rfl | rfl
    · exact (World.knows_encapsulate (World.knows_sent
        (List.mem_cons_of_mem _ List.mem_cons_self) (by simp [Message.parts]; rfl))).1
    · exact (World.knows_attacker 0).2.2.1
    · exact World.knows_sent List.mem_cons_self (by simp [Message.parts]; rfl)

/-- A connection that was given the attacker's key and a ciphertext of the
attacker ends with a secret the attacker computes from what it sent. -/
theorem World.knows_swapped {w : World cr} {corrupt : Set cr.Keypair} {i n : Nat}
    (hpk : w.Knows corrupt (.kyberPublic (Name.session i)))
    (hcp : w.Knows corrupt (.kyberCiphertext (Name.attacker n, Name.session i))) :
    w.Knows corrupt (.secret (sessionSecret (.session i) (.kem (.attacker n) (.session i))
      (.answer (.session i) (.session i, .attacker n)) (.attacker n) (.attacker n))) := by
  have hanswer : Atom.answer (.session i) (.session i, .attacker n) =
      .kem (.session i) (.attacker n) := (kem_eq_answer_iff.mpr ⟨rfl, rfl⟩).symm
  rw [sessionSecret_same, hanswer]
  exact .rule₂ (Rule.xor _ _) (World.knows_kem hcp) (World.knows_encapsulate hpk).2

/-- **Both sides complete with each other's identity, with different secrets,
and the attacker knows both.** -/
theorem swappedKeys_disagree :
    (opfuskMachine .transparent).EachStep (World.CanDeliver ∅) World.start swappedKeys ∧
      ∃ c : Completed ((opfuskMachine .transparent).run World.start swappedKeys) 0 1,
        c.initiatorSecret ≠ c.responderSecret ∧
        ((opfuskMachine .transparent).run World.start swappedKeys).Knows ∅
          (.secret c.initiatorSecret) ∧
        ((opfuskMachine .transparent).run World.start swappedKeys).Knows ∅
          (.secret c.responderSecret) ∧ ¬ c.Agreed ∅ := by
  refine ⟨swappedKeys_delivered, exampleRun_completed _ _ _ _, ?_⟩
  have hrun := run_exampleRun ⟨Name.attacker 0, Name.attacker 0⟩ ⟨Name.attacker 0, Name.attacker 0⟩
    ⟨(Name.session 0, Name.attacker 0), Name.attacker 0⟩
    ⟨(Name.session 1, Name.attacker 0), Name.attacker 0⟩
  have hinitiator : ((opfuskMachine .transparent).run World.start swappedKeys).Knows ∅
      (.secret (sessionSecret (.session 0) (.kem (.attacker 0) (.session 0))
        (.answer (.session 0) (.session 0, .attacker 0)) (.attacker 0) (.attacker 0))) := by
    rw [swappedKeys, hrun]
    refine World.knows_swapped (World.knows_sent (List.mem_cons_of_mem _ (List.mem_cons_of_mem _
      List.mem_cons_self)) (by simp [Message.parts]; rfl)) ?_
    exact World.knows_sent List.mem_cons_self (by simp [Message.parts, exampleFinal])
  have hresponder : ((opfuskMachine .transparent).run World.start swappedKeys).Knows ∅
      (.secret (sessionSecret (.session 1) (.kem (.attacker 0) (.session 1))
        (.answer (.session 1) (.session 1, .attacker 0)) (.attacker 0) (.attacker 0))) := by
    rw [swappedKeys, hrun]
    refine World.knows_swapped (World.knows_sent (List.mem_cons_of_mem _ List.mem_cons_self)
      (by simp [Message.parts]; rfl)) ?_
    exact World.knows_sent (List.mem_cons_of_mem _ List.mem_cons_self)
      (by simp [Message.parts, exampleResponse])
  refine ⟨?_, hinitiator, hresponder, fun hagreed => hagreed.2.1 hinitiator⟩
  show sessionSecret _ _ _ _ _ ≠ sessionSecret _ _ _ _ _
  decide

end OnionNetwork.Opfusk
