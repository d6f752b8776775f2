import OnionNetwork.Server.Requests

/-!
# The cooldown between two actions

A gated action freezes its member until its time plus the cooldown of the record. Nothing
but `update_member` writes that field otherwise, and it writes zero: the rate limit holds
as long as no member is updated while it is frozen (`actions_apart`).
-/

namespace OnionNetwork.Server

open Chat Lib

variable {cr : Crypto}

namespace Request

/-- The clock the handler reads. -/
def clock : Request cr → Option Nat
  | addMember currentMs _ _ _ | kickMember currentMs _ _ => some currentMs
  | sendMessage currentMs _ _ _ => some currentMs
  | updateMember _ _ _ => none

/-- An action of the member that its cooldown gates: leaving the chat and updates are not. -/
def GatedFor (r : Request cr) (id : Identity) : Prop :=
  r.signer = id ∧ r.clock ≠ none ∧ r.target ≠ some id

end Request

/-- A request and the time at which it is handled. -/
structure TimedRequest (cr : Crypto) where
  request : Request cr
  now : Nat
  on_time : ∀ t ∈ request.clock, t = now

/-- One chat and the time of its last request. -/
def timedMachine (cr : Crypto) :
    Machine (Handle × Nat) (TimedRequest cr) (Except Fault Unit) :=
  ⟨fun s r => (((s.1.serve r.request).1, r.now), (s.1.serve r.request).2)⟩

/-- The clock does not run backwards. -/
def OnTime (s : Handle × Nat) (r : TimedRequest cr) : Prop := s.2 ≤ r.now

/-- The member is still in the chat after the request. -/
def Stays (id : Identity) (s : Handle × Nat) (r : TimedRequest cr) : Prop :=
  (s.1.serve r.request).1.members.get id ≠ none

/-- The member is not updated while it is frozen. -/
def LeavesFrozen (id : Identity) (s : Handle × Nat) (r : TimedRequest cr) : Prop :=
  ∀ proof member m, r.request = .updateMember proof id member →
    MayUpdate s.1.members proof id m →
    ∀ rec, s.1.members.get id = some rec → rec.frozenUntil < r.now

/-- The member's cooldown is at least `c`. -/
def CooldownAtLeast (id : Identity) (c : Nat) (s : Handle × Nat) : Prop :=
  ∀ rec, s.1.members.get id = some rec → c ≤ rec.actionCooldownMs

/-- The member is frozen up to that time, or it has passed. -/
def Cooling (id : Identity) (thaw : Nat) (s : Handle × Nat) : Prop :=
  ∃ rec, s.1.members.get id = some rec ∧ (thaw ≤ rec.frozenUntil ∨ thaw < s.2)

/-- An accepted gated action found the member thawed, and freezes it for its cooldown. -/
theorem spent_of_gated {h : Handle} {r : Request cr} {id : Identity} {t : Nat}
    (hacc : h.Accepts r) (hgated : r.GatedFor id) (hclock : ∀ t' ∈ r.clock, t' = t) :
    ∃ rec, h.members.get id = some rec ∧ rec.frozenUntil < t ∧
      (h.serve r).1.members.get id = some (spent rec r.nonce t) := by
  obtain ⟨rfl, htime, htarget⟩ := hgated
  have hstep := memberStep_of_accepts hacc
  generalize (h.serve r).1.members = ms at hstep ⊢
  cases hstep with
  | @added currentMs proof id m member hmay =>
      obtain rfl := hclock currentMs rfl
      refine ⟨m, hmay.1.2.1, hmay.2.1.1, ?_⟩
      show SortedMap.get _ proof.identity = _
      rw [SortedMap.get_put_ne _ hmay.2.2.1.symm, SortedMap.get_put_self]
      rfl
  | updated hmay => exact absurd rfl htime
  | left hauth => exact absurd rfl htarget
  | @kicked currentMs proof id m target hmay hrank =>
      obtain rfl := hclock currentMs rfl
      refine ⟨m, hmay.1.2.1, hmay.2.1.1, ?_⟩
      show SortedMap.get _ proof.identity = _
      rw [SortedMap.get_erase_ne _ hmay.2.2.1.symm, SortedMap.get_put_self]
      rfl
  | @sent currentMs localPeerId group proof m hauth hact =>
      obtain rfl := hclock currentMs rfl
      refine ⟨m, hauth.2.1, hact.1, ?_⟩
      show SortedMap.get _ proof.identity = _
      rw [SortedMap.get_put_self]
      rfl

/-- What a step does to the time a member is frozen: nothing, or the member has gone, or it has
acted and was thawed, or somebody has updated it. -/
theorem MemberStep.frozen_cases {ms ms' : Members} {r : Request cr} (hstep : MemberStep ms r ms')
    {id : Identity} {rec : Member} (hget : ms.get id = some rec) :
    (∃ rec', ms'.get id = some rec' ∧ rec'.frozenUntil = rec.frozenUntil) ∨ ms'.get id = none ∨
      (∃ t ∈ r.clock, rec.frozenUntil < t) ∨
      ∃ proof member m, r = .updateMember proof id member ∧ MayUpdate ms proof id m := by
  by_cases hother : r.signer ≠ id ∧ r.target ≠ some id
  · left
    rw [hstep.get_of_ne hother.1 hother.2]
    exact ⟨rec, hget, rfl⟩
  · -- the request is signed by the identity, or it is about it
    have hsigner : r.target ≠ some id → r.signer = id := fun htarget =>
      by_contra fun hne => hother ⟨hne, htarget⟩
    have hown : ∀ {m}, ms.get r.signer = some m → r.target ≠ some id → rec = m := by
      intro m hm htarget
      rw [hsigner htarget, hget] at hm
      exact Option.some.inj hm
    cases hstep with
    | @added currentMs proof k m member hmay =>
        have hk : k ≠ id := by
          rintro rfl
          cases hget.symm.trans hmay.2.2.2
        obtain rfl := hown hmay.1.2.1 fun h => hk (Option.some.inj h)
        exact .inr (.inr (.inl ⟨currentMs, rfl, hmay.2.1.1⟩))
    | @updated proof k m member hmay =>
        by_cases hk : k = id
        · subst hk
          exact .inr (.inr (.inr ⟨proof, member, m, rfl, hmay⟩))
        · have htarget : some k ≠ some id := fun h => hk (Option.some.inj h)
          have hproof : proof.identity = id := hsigner htarget
          -- the signer of an update is not frozen by it
          obtain rfl := hown hmay.1.2.1 htarget
          left
          rw [SortedMap.get_put_ne _ hk, hproof, SortedMap.get_put_self]
          exact ⟨_, rfl, rfl⟩
    | @left currentMs proof m hauth =>
        have hproof : proof.identity = id := by
          by_contra hne
          exact hother ⟨hne, fun h => hne (Option.some.inj h)⟩
        right
        left
        rw [hproof, SortedMap.get_erase_self]
    | @kicked currentMs proof k m target hmay hrank =>
        by_cases hk : k = id
        · subst hk
          right
          left
          rw [SortedMap.get_erase_self]
        · obtain rfl := hown hmay.1.2.1 fun h => hk (Option.some.inj h)
          exact .inr (.inr (.inl ⟨currentMs, rfl, hmay.2.1.1⟩))
    | @sent currentMs localPeerId group proof m hauth hact =>
        obtain rfl := hown hauth.2.1 nofun
        exact .inr (.inr (.inl ⟨currentMs, rfl, hact.1⟩))

/-- **One request keeps the member cooling.** -/
theorem cooling_step {id : Identity} {thaw : Nat} {s : Handle × Nat} {r : TimedRequest cr}
    (hcool : Cooling id thaw s) (htime : OnTime s r) (hstays : Stays id s r)
    (hfrozen : LeavesFrozen id s r) : Cooling id thaw ((timedMachine cr).step s r).1 := by
  obtain ⟨rec, hget, hthaw⟩ := hcool
  have hlater : thaw ≤ rec.frozenUntil ∨ thaw < r.now :=
    hthaw.imp_right fun hlt => Nat.lt_of_lt_of_le hlt htime
  -- where the member turns out to be thawed, the time has passed
  have hpassed : rec.frozenUntil < r.now → Cooling id thaw ((timedMachine cr).step s r).1 := by
    intro hlt
    obtain ⟨rec', hget'⟩ := Option.ne_none_iff_exists'.mp hstays
    refine ⟨rec', hget', .inr ?_⟩
    rcases hlater with hle | hdone
    · exact Nat.lt_of_le_of_lt hle hlt
    · exact hdone
  rcases serve_memberStep s.1 r.request with ⟨hstep, -⟩ | ⟨-, hsame⟩
  · rcases hstep.frozen_cases hget with ⟨rec', hget', heq⟩ | hgone | ⟨t, ht, hlt⟩ |
      ⟨proof, member, m, hreq, hmay⟩
    · refine ⟨rec', hget', ?_⟩
      rw [heq]
      exact hlater
    · exact absurd hgone hstays
    · exact hpassed (r.on_time t ht ▸ hlt)
    · exact hpassed (hfrozen proof member m hreq hmay rec hget)
  · refine ⟨rec, ?_, hlater⟩
    show (s.1.serve r.request).1.members.get id = some rec
    rw [hsame]
    exact hget

/-- **The cooldown is a rate limit** for a member that nobody updates while it is frozen: two of its
gated actions that are accepted lie further apart than any bound its cooldown keeps in
between. -/
theorem actions_apart {id : Identity} {s : Handle × Nat} {first last : TimedRequest cr}
    (between : List (TimedRequest cr)) {c : Nat}
    (hfirst : s.1.Accepts first.request ∧ first.request.GatedFor id)
    (htime : (timedMachine cr).EachStep OnTime s (first :: between ++ [last]))
    (hstays : (timedMachine cr).EachStep (Stays id) ((timedMachine cr).step s first).1 between)
    (hfrozen : (timedMachine cr).EachStep (LeavesFrozen id) ((timedMachine cr).step s first).1
      between)
    (hcooldown : (timedMachine cr).EachStep (fun s _ => CooldownAtLeast id c s)
      ((timedMachine cr).step s first).1 (between ++ [last]))
    (hlast : ((timedMachine cr).run s (first :: between)).1.Accepts last.request ∧
      last.request.GatedFor id) :
    first.now + c < last.now := by
  obtain ⟨rec, hget, -, hspent⟩ := spent_of_gated hfirst.1 hfirst.2 first.on_time
  set s₁ := ((timedMachine cr).step s first).1 with hs₁
  have hget₁ : s₁.1.members.get id = some (spent rec first.request.nonce first.now) := hspent
  have hc : c ≤ rec.actionCooldownMs := by
    have hstart : CooldownAtLeast id c s₁ := by
      cases between with
      | nil => exact hcooldown.1
      | cons r rest => exact hcooldown.1
    exact hstart (spent rec first.request.nonce first.now) hget₁
  rw [List.cons_append, Machine.eachStep_cons, Machine.eachStep_append] at htime
  have hcool : Cooling id (first.now + rec.actionCooldownMs)
      ((timedMachine cr).run s₁ between) := by
    apply Machine.invariant_run (P := Cooling id (first.now + rec.actionCooldownMs)) ?_ ?_
      ((htime.2.1.and hstays).and hfrozen)
    · rintro st r hst ⟨⟨hr, hin⟩, hleaves⟩
      exact cooling_step hst hr hin hleaves
    · exact ⟨_, hget₁, .inl (Nat.le_refl _)⟩
  -- the last action finds the member thawed
  obtain ⟨rec', hget', hthawed, -⟩ := spent_of_gated hlast.1 hlast.2 last.on_time
  obtain ⟨rec'', hget'', hthaw⟩ := hcool
  have hsame : rec'' = rec' := Option.some.inj (hget''.symm.trans hget')
  have hlate : ((timedMachine cr).run s₁ between).2 ≤ last.now := htime.2.2.1
  rw [hsame] at hthaw
  omega

/-- A moderator, and a member that may write once a second. -/
def slowMembers : Members :=
  (SortedMap.empty.put 1 { permissions := .all, rank := 1, actionCooldownMs := 10 }).put 2
    { permissions := .all, rank := 7, actionCooldownMs := 1000 }

/-- The member writes. -/
def slowWrites (nonce now : Nat) : TimedRequest .transparent where
  request := .sendMessage now 0 replicas (Proof.transparent 2 nonce ⟨[104, 105]⟩)
  now := now
  on_time := by
    intro t ht
    exact (Option.some.inj ht).symm

/-- The moderator writes the same record again. -/
def confirmsSlow (now : Nat) : TimedRequest .transparent where
  request := .updateMember (Proof.transparent 1 1 lobby) 2
    { permissions := .all, rank := 7, actionCooldownMs := 1000 }
  now := now
  on_time := nofun

/-- The slow chat after some requests. -/
def slowAfter (rs : List (TimedRequest .transparent)) : Handle × Nat :=
  (timedMachine .transparent).run (.fresh slowMembers, 0) rs

theorem cooldownAtLeast_of_get {s : Handle × Nat} {id : Identity} {c : Nat} {rec : Member}
    (hget : s.1.members.get id = some rec) (hc : c ≤ rec.actionCooldownMs) :
    CooldownAtLeast id c s := by
  intro rec' hrec'
  obtain rfl := Option.some.inj (hget.symm.trans hrec')
  exact hc

/-- Two messages of the slow member. -/
theorem actions_apart_slow : (slowWrites 1 20).now + 1000 < (slowWrites 2 1021).now := by
  have hget : (slowAfter [slowWrites 1 20]).1.members.get 2 =
      some { permissions := .all, rank := 7, actionCooldownMs := 1000, action := 1
             frozenUntil := 1020 } := by decide +kernel
  have hlater : 20 ≤ 1021 := by decide
  exact actions_apart (s := (.fresh slowMembers, 0)) []
    ⟨by decide +kernel, by decide, nofun, nofun⟩ ⟨Nat.zero_le _, hlater, trivial⟩ trivial
    trivial ⟨cooldownAtLeast_of_get hget (Nat.le_refl 1000), trivial⟩
    ⟨by decide +kernel, by decide, nofun, nofun⟩

/-- After an update the member writes again two milliseconds later, with a cooldown of a second all
the time. -/
theorem update_thaws :
    (slowAfter []).1.Accepts (slowWrites 1 20).request ∧
      (slowAfter [slowWrites 1 20]).1.Accepts (confirmsSlow 21).request ∧
      (slowAfter [slowWrites 1 20, confirmsSlow 21]).1.Accepts (slowWrites 2 22).request ∧
      CooldownAtLeast 2 1000 (slowAfter [slowWrites 1 20]) ∧
      CooldownAtLeast 2 1000 (slowAfter [slowWrites 1 20, confirmsSlow 21]) ∧
      ¬ (slowWrites 1 20).now + 1000 < (slowWrites 2 22).now := by
  have hget : (slowAfter [slowWrites 1 20]).1.members.get 2 =
      some { permissions := .all, rank := 7, actionCooldownMs := 1000, action := 1
             frozenUntil := 1020 } := by decide +kernel
  have hget' : (slowAfter [slowWrites 1 20, confirmsSlow 21]).1.members.get 2 =
      some { permissions := .all, rank := 7, actionCooldownMs := 1000 } := by decide +kernel
  refine ⟨by decide +kernel, by decide +kernel, by decide +kernel,
    cooldownAtLeast_of_get hget (Nat.le_refl _), cooldownAtLeast_of_get hget' (Nat.le_refl _), ?_⟩
  show ¬ 20 + 1000 < 22
  omega

end OnionNetwork.Server
