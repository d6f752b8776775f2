import OnionNetwork.Server.Requests
import OnionNetwork.Lib.Delegation

/-!
# Privileges in a chat

What members can do to each other's records. `coalition_bounded`: no chain of
additions and updates writes a record beyond what the members that started it
had between them. `kick_breaks_rank`: the rank order protects a member from
less privileged ones in every operation but `kick_member`, whose comparison
points the other way.
-/

namespace OnionNetwork.Server

open Chat Lib

variable {cr : Crypto}

/-! ## Delegation -/

/-- The attributes of a record that delegation limits. -/
structure Authority where
  permissions : Permissions
  rank : Nat
  actionCooldownMs : Nat

/-- `a ≤ b`: fewer permissions, a larger rank, a longer cooldown. -/
instance : Preorder Authority where
  le a b := b.permissions.contains a.permissions = true ∧ b.rank ≤ a.rank ∧
    b.actionCooldownMs ≤ a.actionCooldownMs
  le_refl a := ⟨a.permissions.contains_refl, Nat.le_refl _, Nat.le_refl _⟩
  le_trans _ _ _ hab hbc :=
    ⟨Permissions.contains_trans hbc.1 hab.1, Nat.le_trans hbc.2.1 hab.2.1,
      Nat.le_trans hbc.2.2 hab.2.2⟩

/-- The authority of a record. -/
def authority (m : Member) : Authority := ⟨m.permissions, m.rank, m.actionCooldownMs⟩

/-- The authority of a member of the chat. -/
def Handle.authorityOf (h : Handle) (id : Identity) : Option Authority :=
  (h.members.get id).map authority

/-- The record a request writes: the target of an accepted addition or update. -/
def Handle.grants (h : Handle) (r : Request cr) : Option Identity :=
  if h.Accepts r then r.writes else none

/-- A clamped record has no more authority than the member that wrote it. -/
theorem authority_clampTo (byMember member : Member) :
    authority (clampTo byMember member) ≤ authority byMember :=
  ⟨Permissions.contains_and_right _ _, Nat.le_max_left _ _, Nat.le_max_left _ _⟩

/-- Advancing a nonce or spending an action keeps everybody's authority. -/
theorem authority_put {ms : Members} {id k : Identity} {m m' : Member} {a : Authority}
    (hget : ms.get id = some m) (hauth : ((ms.put id m').get k).map authority = some a)
    (hsame : authority m' = authority m) : (ms.get k).map authority = some a := by
  by_cases hk : id = k
  · subst hk
    rw [SortedMap.get_put_self, Option.map_some, hsame] at hauth
    rw [hget, Option.map_some, hauth]
  · rwa [SortedMap.get_put_ne _ hk] at hauth

/-- What is left after an erasure was there before. -/
theorem authority_erase {ms : Members} {id k : Identity} {a : Authority}
    (hauth : ((ms.erase id).get k).map authority = some a) : (ms.get k).map authority = some a := by
  by_cases hk : id = k
  · subst hk
    rw [SortedMap.get_erase_self] at hauth
    cases hauth
  · rwa [SortedMap.get_erase_ne _ hk] at hauth

/-- A request grants what it asks for, or nothing and leaves the table alone. -/
theorem grants_cases (h : Handle) (r : Request cr) :
    (MemberStep h.members r (h.serve r).1.members ∧ h.grants r = r.writes) ∨
      (h.grants r = none ∧ (h.serve r).1.members = h.members) := by
  unfold Handle.grants
  rcases serve_memberStep h r with ⟨hstep, hacc⟩ | ⟨hno, hsame⟩
  · refine .inl ⟨hstep, ?_⟩
    by_cases hw : r.writes = none
    · simp [hw]
    · rw [if_pos (hacc hw)]
  · exact .inr ⟨if_neg hno, hsame⟩

/-- Requests attenuate: an addition or update is clamped to its signer, and no
other authority changes. -/
theorem attenuates (cr : Crypto) :
    (chatMachine cr).Attenuates Handle.authorityOf Request.signer Handle.grants where
  written s r k a hgrants hauth := by
    change ((s.serve r).1.members.get k).map authority = some a at hauth
    change ∃ b, (s.members.get r.signer).map authority = some b ∧ a ≤ b
    rcases grants_cases s r with ⟨hstep, hwrites⟩ | ⟨hnone, -⟩
    · rw [hwrites] at hgrants
      generalize (s.serve r).1.members = ms at hstep hauth
      cases hstep with
      | @added _ proof id m member hmay =>
          -- what is written is clamped to the signer
          obtain rfl : id = k := Option.some.inj hgrants
          rw [SortedMap.get_put_self, Option.map_some] at hauth
          obtain rfl := Option.some.inj hauth
          exact ⟨_, congrArg _ hmay.1.2.1, authority_clampTo m member⟩
      | @updated proof id m member hmay =>
          obtain rfl : id = k := Option.some.inj hgrants
          rw [SortedMap.get_put_self, Option.map_some] at hauth
          obtain rfl := Option.some.inj hauth
          exact ⟨_, congrArg _ hmay.1.2.1, authority_clampTo m member⟩
      | left _ => cases hgrants
      | kicked _ _ => cases hgrants
      | sent _ _ => cases hgrants
    · rw [hnone] at hgrants
      cases hgrants
  kept s r k a hgrants hauth := by
    change ((s.serve r).1.members.get k).map authority = some a at hauth
    change (s.members.get k).map authority = some a
    rcases grants_cases s r with ⟨hstep, hwrites⟩ | ⟨-, hsame⟩
    · rw [hwrites] at hgrants
      generalize (s.serve r).1.members = ms at hstep hauth
      cases hstep with
      | added hmay =>
          rw [SortedMap.get_put_ne _ fun h => hgrants (congrArg some h)] at hauth
          exact authority_put hmay.1.2.1 hauth rfl
      | updated hmay =>
          rw [SortedMap.get_put_ne _ fun h => hgrants (congrArg some h)] at hauth
          exact authority_put hmay.1.2.1 hauth rfl
      | left hact => exact authority_put hact.2.1 (authority_erase hauth) rfl
      | kicked hmay hrank => exact authority_put hmay.1.2.1 (authority_erase hauth) rfl
      | sent hact _ => exact authority_put hact.2.1 hauth rfl
    · rwa [hsame] at hauth

/-- The records of the members in `S`. -/
def coalition (h : Handle) (S : Set Identity) [DecidablePred (· ∈ S)] : List Member :=
  (h.members.entries.filter fun entry => entry.1 ∈ S).map Prod.snd

/-- The union of the permissions of some records. -/
def unionPermissions (ms : List Member) : Permissions :=
  ms.foldr (fun m acc => m.permissions ||| acc) .empty

/-- The smallest rank and the smallest cooldown among some records. -/
def minRank (ms : List Member) : Option Nat := (ms.map Member.rank).min?

def minCooldown (ms : List Member) : Option Nat := (ms.map Member.actionCooldownMs).min?

/-- A chat that remembers whose records were written. -/
def grantingMachine (cr : Crypto) :
    Machine (Handle × List Identity) (Request cr) (Except Fault Unit) :=
  (chatMachine cr).withGhost (Machine.recordWrites Handle.grants)

theorem mem_coalition {h : Handle} {S : Set Identity} [DecidablePred (· ∈ S)] {m : Member} :
    m ∈ coalition h S ↔ ∃ id ∈ S, h.members.get id = some m := by
  simp only [coalition, List.mem_map, List.mem_filter, decide_eq_true_eq, Prod.exists,
    exists_eq_right, SortedMap.mem_entries_iff]
  exact ⟨fun ⟨id, hget, hid⟩ => ⟨id, hid, hget⟩, fun ⟨id, hid, hget⟩ => ⟨id, hget, hid⟩⟩

theorem unionPermissions_contains {ms : List Member} {m : Member} (hm : m ∈ ms) :
    (unionPermissions ms).contains m.permissions = true := by
  induction ms with
  | nil => cases hm
  | cons m' ms ih =>
      rcases List.mem_cons.mp hm with rfl | hm
      · exact Permissions.contains_or_left _ _
      · exact Permissions.contains_trans (Permissions.contains_or_right _ _) (ih hm)

/-- Below any bound on the coalition, everything granted is below it. -/
theorem grants_bounded {h : Handle} {S : Set Identity} [DecidablePred (· ∈ S)]
    (bound : Authority) (hbound : ∀ m ∈ coalition h S, authority m ≤ bound) {rs : List (Request cr)}
    (hsigned : (grantingMachine cr).EachStep
      (fun s r => s.1.Accepts r → r.signer ∈ S ∨ r.signer ∈ s.2) (h, []) rs) :
    (grantingMachine cr).EachStep
      (fun s r => ∀ id m, s.1.grants r = some id → (s.1.serve r).1.members.get id = some m →
        authority m ≤ bound) (h, []) rs := by
  have hcoalition : ∀ id a, id ∈ S → h.authorityOf id = some a → a ≤ bound := by
    intro id a hid hauth
    obtain ⟨m, hget, rfl⟩ := Option.map_eq_some_iff.mp hauth
    exact hbound m (mem_coalition.mpr ⟨id, hid, hget⟩)
  have hwithin : (grantingMachine cr).EachStep
      (Machine.SignedWithin Request.signer Handle.grants (· ∈ S)) (h, []) rs := by
    refine Machine.EachStep.mono (fun s r hs hw => hs ?_) hsigned
    by_contra hno
    exact hw (if_neg hno)
  have hgranted := Machine.writes_le_of_attenuates (attenuates cr) hcoalition hwithin
  refine hgranted.mono fun s r hs id m hgrants hget => hs id (authority m) hgrants ?_
  change ((s.1.serve r).1.members.get id).map authority = _
  rw [hget, Option.map_some]

/-- An accepted addition or update leaves the record it wrote. -/
theorem written_exists {h : Handle} {r : Request cr} {id : Identity} (hacc : h.Accepts r)
    (hwrites : r.writes = some id) :
    h.grants r = some id ∧ ∃ m, (h.serve r).1.members.get id = some m := by
  refine ⟨by rw [Handle.grants, if_pos hacc, hwrites], ?_⟩
  have hstep := memberStep_of_accepts hacc
  generalize (h.serve r).1.members = ms at hstep
  cases hstep with
  | added hmay =>
      obtain rfl := Option.some.inj hwrites
      exact ⟨_, SortedMap.get_put_self _ _ _⟩
  | updated hmay =>
      obtain rfl := Option.some.inj hwrites
      exact ⟨_, SortedMap.get_put_self _ _ _⟩
  | left _ => cases hwrites
  | kicked _ _ => cases hwrites
  | sent _ _ => cases hwrites

theorem le_of_min? {xs : List Nat} {n x : Nat} (hmin : xs.min? = some n) (hx : x ∈ xs) : n ≤ x :=
  (List.min?_eq_some_iff.mp hmin).2 x hx

/-- **No escalation by a coalition.** Let `S` be any set of members, in any
state of the chat. While every accepted request is signed by `S` or by somebody
added or updated on the way, every record an addition or update writes has at
most the permissions of `S` together, and at least its smallest rank and its
smallest cooldown. -/
theorem coalition_bounded (h : Handle) (S : Set Identity) [DecidablePred (· ∈ S)]
    (rs : List (Request cr))
    (hsigned : (grantingMachine cr).EachStep
      (fun s r => s.1.Accepts r → r.signer ∈ S ∨ r.signer ∈ s.2) (h, []) rs) :
    (grantingMachine cr).EachStep
      (fun s r => ∀ id, s.1.Accepts r → r.writes = some id →
        ∃ m, (s.1.serve r).1.members.get id = some m ∧
          (unionPermissions (coalition h S)).contains m.permissions = true ∧
          (∀ rank, minRank (coalition h S) = some rank → rank ≤ m.rank) ∧
          ∀ ms, minCooldown (coalition h S) = some ms → ms ≤ m.actionCooldownMs)
      (h, []) rs := by
  have hbounded : ∀ rank ms, (∀ m ∈ coalition h S, rank ≤ m.rank) →
      (∀ m ∈ coalition h S, ms ≤ m.actionCooldownMs) → _ := fun rank ms hrank hms =>
    grants_bounded ⟨unionPermissions (coalition h S), rank, ms⟩
      (fun m hm => ⟨unionPermissions_contains hm, hrank m hm, hms m hm⟩) hsigned
  -- a coalition without members has no minima: zero is a bound in their place
  have hrank : ∀ m ∈ coalition h S, (minRank (coalition h S)).getD 0 ≤ m.rank := by
    intro m hm
    cases hmin : minRank (coalition h S) with
    | none => exact Nat.zero_le _
    | some rank => exact le_of_min? hmin (List.mem_map_of_mem hm)
  have hms : ∀ m ∈ coalition h S, (minCooldown (coalition h S)).getD 0 ≤ m.actionCooldownMs := by
    intro m hm
    cases hmin : minCooldown (coalition h S) with
    | none => exact Nat.zero_le _
    | some ms => exact le_of_min? hmin (List.mem_map_of_mem hm)
  refine (hbounded _ _ hrank hms).mono fun s r hs id hacc hwrites => ?_
  obtain ⟨hgrants, m, hget⟩ := written_exists hacc hwrites
  obtain ⟨hperm, hle, hcool⟩ := hs id m hgrants hget
  refine ⟨m, hget, hperm, fun rank hmin => ?_, fun ms hmin => ?_⟩
  · simpa [authority, hmin] using hle
  · simpa [authority, hmin] using hcool

/-- The moderator invites somebody at full rights, who invites somebody else. -/
def invitations : List (Request .transparent) :=
  [.addMember 5 (Proof.transparent 1 1 lobby) 3 Member.best,
    .addMember 5 (Proof.transparent 3 1 lobby) 4 Member.best]

theorem coalition_bounded_invitations :
    (grantingMachine .transparent).EachStep
      (fun s r => ∀ id, s.1.Accepts r → r.writes = some id →
        ∃ m, (s.1.serve r).1.members.get id = some m ∧
          (unionPermissions (coalition (.fresh lobbyMembers) {1})).contains m.permissions = true ∧
          (∀ rank, minRank (coalition (.fresh lobbyMembers) {1}) = some rank → rank ≤ m.rank) ∧
          ∀ ms, minCooldown (coalition (.fresh lobbyMembers) {1}) = some ms →
            ms ≤ m.actionCooldownMs)
      (.fresh lobbyMembers, []) invitations := by
  refine coalition_bounded (.fresh lobbyMembers) {1} invitations ⟨?_, ?_, trivial⟩
  · decide +kernel
  · decide +kernel

/-! ## Ranks -/

/-- The rank order protects the members of `h` from `r`: an accepted request
leaves every other member of at most the signer's rank as it was, and an
authenticated holder of `KICK` that may act can kick whom it outranks. -/
def RankProtected (h : Handle) (r : Request cr) : Prop :=
  (∀ s, h.members.get r.signer = some s → h.Accepts r →
    ∀ t mt, t ≠ r.signer → h.members.get t = some mt → mt.rank ≤ s.rank →
      (h.serve r).1.members.get t = some mt) ∧
  ∀ currentMs proof id s target, r = .kickMember currentMs proof id →
    MayKick h.members currentMs proof id s target → s.rank < target.rank → h.Accepts r

/-- The request is a kick of another member of a different rank, in order but
for the rank comparison. -/
def KicksOtherRank (h : Handle) (r : Request cr) : Prop :=
  ∃ currentMs proof id s target, r = .kickMember currentMs proof id ∧
    MayKick h.members currentMs proof id s target ∧ target.rank ≠ s.rank

/-- A kick of somebody else is accepted exactly below the signer's rank number. -/
theorem accepts_kick_iff {h : Handle} {currentMs : Nat} {proof : Proof cr ChatName}
    {id : Identity} {s target : Member} (hmay : MayKick h.members currentMs proof id s target) :
    h.Accepts (.kickMember currentMs proof id) ↔ target.rank < s.rank := by
  constructor
  · intro hacc
    have hstep := memberStep_of_accepts hacc
    generalize (h.serve (.kickMember currentMs proof id)).1.members = ms at hstep
    cases hstep with
    | left _ => exact absurd rfl hmay.2.2.1
    | kicked hmay' hrank =>
        obtain rfl := Option.some.inj (hmay.1.2.1.symm.trans hmay'.1.2.1)
        obtain rfl := Option.some.inj (hmay.2.2.2.symm.trans hmay'.2.2.2)
        exact hrank
  · intro hrank
    simp only [Handle.Accepts, serve_kickMember hmay hrank]

/-- **Rank protection fails exactly on kicks across ranks.** `kick_member`
removes the target when its rank is the smaller number, that is, the more
privileged one; every other request respects the order. -/
theorem kick_breaks_rank (h : Handle) (r : Request cr) :
    RankProtected h r ↔ ¬ KicksOtherRank h r := by
  constructor
  · rintro ⟨hkeeps, hkicks⟩ ⟨currentMs, proof, id, s, target, rfl, hmay, hne⟩
    rcases Nat.lt_or_gt_of_ne hne with hlt | hgt
    · -- the target is the more privileged one: it is removed
      have hacc := (accepts_kick_iff hmay).mpr hlt
      have hkept := hkeeps s hmay.1.2.1 hacc id target hmay.2.2.1.symm hmay.2.2.2
        (Nat.le_of_lt hlt)
      simp [serve_kickMember hmay hlt] at hkept
    · -- the target is the less privileged one: the kick is refused
      have hacc := hkicks currentMs proof id s target rfl hmay hgt
      exact absurd ((accepts_kick_iff hmay).mp hacc) (Nat.not_lt.mpr (Nat.le_of_lt hgt))
  · intro hno
    refine ⟨fun s hs hacc t mt hne hmt hle => ?_,
      fun currentMs proof id s target hr hmay hlt => absurd
        ⟨currentMs, proof, id, s, target, hr, hmay, Nat.ne_of_gt hlt⟩ hno⟩
    have hstep := memberStep_of_accepts hacc
    by_cases htarget : r.target = some t
    · -- the target itself: what the request needed contradicts its rank
      generalize (h.serve r).1.members = ms at hstep ⊢
      cases hstep with
      | added hmay =>
          obtain rfl := Option.some.inj htarget
          rw [hmay.2.2.2] at hmt
          cases hmt
      | updated hmay =>
          obtain rfl := Option.some.inj htarget
          obtain ⟨dest, hdest, hrank⟩ := hmay.2.2
          obtain rfl := Option.some.inj (hs.symm.trans hmay.1.2.1)
          obtain rfl := Option.some.inj (hmt.symm.trans hdest)
          exact absurd hrank (Nat.not_lt.mpr hle)
      | left _ => exact absurd (Option.some.inj htarget).symm hne
      | kicked hmay hrank => exact absurd ⟨_, _, _, _, _, rfl, hmay, Nat.ne_of_lt hrank⟩ hno
      | sent _ _ => cases htarget
    · rw [hstep.get_of_ne (Ne.symm hne) htarget, hmt]

/-- The newcomer kicks the moderator. -/
theorem newcomer_kicks_moderator :
    ¬ RankProtected (.fresh lobbyMembers)
      (.kickMember 5 (Proof.transparent 2 1 lobby) 1) := by
  rintro ⟨hkeeps, -⟩
  have hkept := hkeeps { permissions := .all, rank := 7 } (by decide) (by decide +kernel)
    1 { permissions := .all, rank := 1, actionCooldownMs := 10 } (by decide)
    (by decide) (by decide)
  revert hkept
  decide +kernel

end OnionNetwork.Server
