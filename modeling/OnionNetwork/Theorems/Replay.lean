import OnionNetwork.Server.Requests

/-!
# Replays

The only thing a chat remembers about spent proofs is the `action` counter in
the member's record. `replay_protected_iff`: a proof stays spent exactly as
long as nobody rewrites that record by adding or updating the member, because
the rewritten record starts again from a counter of zero.
-/

namespace OnionNetwork.Server

open Chat Lib

variable {cr : Crypto}

/-- The chat would still take this nonce from this signer. -/
def Handle.Usable (h : Handle) (signer : Identity) (nonce : Nonce) : Prop :=
  ∃ m, h.members.get signer = some m ∧ m.action < nonce

/-- The request is an addition or an update of `id` that will be accepted. -/
def RewritesRecord (h : Handle) (r : Request cr) (id : Identity) : Prop :=
  (∃ currentMs proof member m, r = .addMember currentMs proof id member ∧
      MayAdd h.members currentMs proof id m) ∨
    ∃ proof member m, r = .updateMember proof id member ∧ MayUpdate h.members proof id m

/-- A table in which `id` has counter `action`, or no record, does not take a
nonce up to `action`. -/
theorem not_usable_of_get {h : Handle} {signer : Identity} {nonce : Nonce}
    (hget : ∀ m, h.members.get signer = some m → nonce ≤ m.action) : ¬ h.Usable signer nonce := by
  rintro ⟨m, hm, hlt⟩
  exact absurd hlt (Nat.not_lt.mpr (hget m hm))

/-- An accepted proof is spent. -/
theorem not_usable_of_accepts {h : Handle} {r : Request cr} (hacc : h.Accepts r) :
    ¬ (h.serve r).1.Usable r.signer r.nonce := by
  have hstep := memberStep_of_accepts hacc
  refine not_usable_of_get ?_
  generalize (h.serve r).1.members = ms at hstep ⊢
  intro m' hget
  cases hstep with
  | added hmay =>
      simp only [Request.signer] at hget
      rw [SortedMap.get_put_ne _ hmay.2.2.1.symm, SortedMap.get_put_self] at hget
      obtain rfl := Option.some.inj hget
      exact Nat.le_refl _
  | updated hmay =>
      simp only [Request.signer] at hget
      rw [SortedMap.get_put_ne _ hmay.2.1.symm, SortedMap.get_put_self] at hget
      obtain rfl := Option.some.inj hget
      exact Nat.le_refl _
  | left _ =>
      simp only [Request.signer] at hget
      rw [SortedMap.get_erase_self] at hget
      cases hget
  | kicked hmay hrank =>
      simp only [Request.signer] at hget
      rw [SortedMap.get_erase_ne _ hmay.2.2.1.symm, SortedMap.get_put_self] at hget
      obtain rfl := Option.some.inj hget
      exact Nat.le_refl _
  | sent _ _ =>
      simp only [Request.signer] at hget
      rw [SortedMap.get_put_self] at hget
      obtain rfl := Option.some.inj hget
      exact Nat.le_refl _

/-- An accepted proof was usable. -/
theorem usable_of_accepts {h : Handle} {r : Request cr} (hacc : h.Accepts r) :
    h.Usable r.signer r.nonce := by
  have hstep := memberStep_of_accepts hacc
  generalize (h.serve r).1.members = ms at hstep
  cases hstep with
  | added hmay => exact ⟨_, hmay.1.2⟩
  | updated hmay => exact ⟨_, hmay.1.2⟩
  | left hauth => exact ⟨_, hauth.2⟩
  | kicked hmay _ => exact ⟨_, hmay.1.2⟩
  | sent hauth _ => exact ⟨_, hauth.2⟩

/-- A spent nonce stays spent over a request that does not rewrite the record. -/
theorem not_usable_step {h : Handle} {r : Request cr} {id : Identity} {nonce : Nonce}
    (hspent : ¬ h.Usable id nonce) (hkeep : ¬ RewritesRecord h r id) :
    ¬ (h.serve r).1.Usable id nonce := by
  have hle : ∀ m, h.members.get id = some m → nonce ≤ m.action := fun m hm =>
    Nat.le_of_not_lt fun hlt => hspent ⟨m, hm, hlt⟩
  refine not_usable_of_get ?_
  rcases serve_memberStep h r with ⟨hstep, -⟩ | ⟨-, hsame⟩
  · -- advancing the counter of the signer only spends more of it
    have hadvance : ∀ {T : Type} [Encode T] {proof : Proof cr T} {m m' : Member},
        Authenticated h.members proof m → m'.action = proof.nonce →
        ∀ m'', (h.members.put proof.identity m').get id = some m'' → nonce ≤ m''.action := by
      intro T _ proof m m' hauth haction m'' hget
      by_cases hid : proof.identity = id
      · subst hid
        rw [SortedMap.get_put_self] at hget
        obtain rfl := Option.some.inj hget
        rw [haction]
        exact Nat.le_trans (hle m hauth.2.1) (Nat.le_of_lt hauth.2.2)
      · rw [SortedMap.get_put_ne _ hid] at hget
        exact hle m'' hget
    have herase : ∀ {ms : Members} {k : Identity},
        (∀ m'', ms.get id = some m'' → nonce ≤ m''.action) →
        ∀ m'', (ms.erase k).get id = some m'' → nonce ≤ m''.action := by
      intro ms k hms m'' hget
      by_cases hk : k = id
      · subst hk
        rw [SortedMap.get_erase_self] at hget
        cases hget
      · rw [SortedMap.get_erase_ne _ hk] at hget
        exact hms m'' hget
    generalize (h.serve r).1.members = ms at hstep ⊢
    cases hstep with
    | @added currentMs proof k m member hmay =>
        -- the record of the identity itself is not the one that is added or replaced
        have hk : k ≠ id := by
          rintro rfl
          exact hkeep (.inl ⟨currentMs, proof, member, m, rfl, hmay⟩)
        intro m'' hget
        rw [SortedMap.get_put_ne _ hk] at hget
        exact hadvance hmay.1 rfl m'' hget
    | @updated proof k m member hmay =>
        have hk : k ≠ id := by
          rintro rfl
          exact hkeep (.inr ⟨proof, member, m, rfl, hmay⟩)
        intro m'' hget
        rw [SortedMap.get_put_ne _ hk] at hget
        exact hadvance hmay.1 rfl m'' hget
    | left hauth => exact herase (hadvance hauth rfl)
    | kicked hmay hrank => exact herase (hadvance hmay.1 rfl)
    | sent hauth _ => exact hadvance hauth rfl
  · rwa [hsame]

/-- A rewritten record takes every nonce from one on. -/
theorem usable_of_rewritesRecord {h : Handle} {r : Request cr} {id : Identity} {nonce : Nonce}
    (hrewrite : RewritesRecord h r id) (hpos : 0 < nonce) : (h.serve r).1.Usable id nonce := by
  rcases hrewrite with ⟨currentMs, proof, member, m, rfl, hmay⟩ | ⟨proof, member, m, rfl, hmay⟩
  · refine ⟨clampTo m member, ?_, hpos⟩
    simp only [serve_addMember member hmay, SortedMap.get_put_self]
  · refine ⟨clampTo m member, ?_, hpos⟩
    simp only [serve_updateMember member hmay, SortedMap.get_put_self]

/-- **Replay protection up to a rewrite.** After an accepted request its nonce
is spent for its signer in every later state of the run if and only if no later
request rewrites the signer's record; and while none does, no later request
with this signer and nonce is accepted. -/
theorem replay_protected_iff (h : Handle) (r : Request cr) (hacc : h.Accepts r)
    (rs : List (Request cr)) :
    ((∀ pre post, rs = pre ++ post →
        ¬ ((chatMachine cr).run (h.serve r).1 pre).Usable r.signer r.nonce) ↔
      (chatMachine cr).EachStep (fun s r' => ¬ RewritesRecord s r' r.signer) (h.serve r).1 rs) ∧
    ((chatMachine cr).EachStep (fun s r' => ¬ RewritesRecord s r' r.signer) (h.serve r).1 rs →
      (chatMachine cr).EachStep
        (fun s r' => ¬ (s.Accepts r' ∧ r'.signer = r.signer ∧ r'.nonce = r.nonce))
        (h.serve r).1 rs) := by
  have hspent := not_usable_of_accepts hacc
  have hpos : 0 < r.nonce := by
    obtain ⟨m, -, hlt⟩ := usable_of_accepts hacc
    exact Nat.lt_of_le_of_lt (Nat.zero_le _) hlt
  have hkeep : ∀ (s : Handle) r', ¬ s.Usable r.signer r.nonce → ¬ RewritesRecord s r' r.signer →
      ¬ ((chatMachine cr).step s r').1.Usable r.signer r.nonce := fun s r' hs hr =>
    not_usable_step hs hr
  refine ⟨⟨fun hall => ?_, fun hno pre post hsplit => ?_⟩, fun hno => ?_⟩
  · refine Machine.eachStep_iff.mpr fun pre r' post hsplit hrewrite => ?_
    have hafter := hall (pre ++ [r']) post
      (by rw [hsplit, List.append_assoc, List.singleton_append])
    rw [Machine.run_append] at hafter
    exact hafter (usable_of_rewritesRecord hrewrite hpos)
  · rw [hsplit, Machine.eachStep_append] at hno
    exact Machine.invariant_run (P := fun s => ¬ s.Usable r.signer r.nonce) hkeep hspent hno.1
  · refine Machine.eachStep_of_invariant (P := fun s => ¬ s.Usable r.signer r.nonce) hkeep ?_
      hspent hno
    rintro s r' hs - ⟨hacc', hsigner, hnonce⟩
    have husable := usable_of_accepts hacc'
    rw [hsigner, hnonce] at husable
    exact hs husable

/-- The newcomer says hello. -/
def greeting : Request .transparent :=
  .sendMessage 20 0 replicas (Proof.transparent 2 1 ⟨[104, 105]⟩)

/-- The moderator confirms the newcomer's record. -/
def confirmation : Request .transparent :=
  .updateMember (Proof.transparent 1 1 lobby) 2 { permissions := .all, rank := 7 }

/-- A later message of the newcomer does not make the greeting usable again. -/
theorem replay_protected_greeting :
    let rs : List (Request .transparent) :=
      [.sendMessage 40 0 replicas (Proof.transparent 2 2 ⟨[]⟩)]
    let h := Handle.fresh lobbyMembers
    ((∀ pre post, rs = pre ++ post →
        ¬ ((chatMachine .transparent).run (h.serve greeting).1 pre).Usable greeting.signer
          greeting.nonce) ↔
      (chatMachine .transparent).EachStep (fun s r' => ¬ RewritesRecord s r' greeting.signer)
        (h.serve greeting).1 rs) ∧
    ((chatMachine .transparent).EachStep (fun s r' => ¬ RewritesRecord s r' greeting.signer)
        (h.serve greeting).1 rs →
      (chatMachine .transparent).EachStep
        (fun s r' => ¬ (s.Accepts r' ∧ r'.signer = greeting.signer ∧
          r'.nonce = greeting.nonce)) (h.serve greeting).1 rs) :=
  replay_protected_iff (.fresh lobbyMembers) greeting (by decide +kernel) _

/-- The greeting is accepted, the record is confirmed, and the same greeting is
accepted again. -/
theorem confirmation_enables_replay :
    let h := Handle.fresh lobbyMembers
    h.Accepts greeting ∧ (h.serve greeting).1.Accepts confirmation ∧
      ((chatMachine .transparent).run h [greeting, confirmation]).Accepts greeting := by
  decide +kernel

end OnionNetwork.Server
