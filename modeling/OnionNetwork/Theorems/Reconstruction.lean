import OnionNetwork.Server.Reconstruct

/-!
# What a chat is reconstructed to

* `reconstruction_exact_iff`: with all but one response equal, the members come out
  as these responses have them exactly when the remaining one gives no member a larger
  replay counter. The counters are combined to their maximum, and the filter that
  should take outliers out before that never runs.
* `reconstruction_order_free`: neither the order of the responses nor the order in
  which a table is iterated matters.
-/

namespace OnionNetwork.Server

open Chat Lib

/-! ### One response differs -/

/-- All but at most one element. -/
def AllButOne {α : Type} (P : α → Prop) (l : List α) : Prop :=
  ∃ pre x post, l = pre ++ x :: post ∧ ∀ y ∈ pre ++ post, P y

/-- The members of `H`, each with its counter, permissions, rank and cooldown. -/
def Restores (H out : HashMap Identity Member) : Prop :=
  ∀ id, match H.get id with
    | none => out.get id = none
    | some h => ∃ m, out.get id = some m ∧ m.action = h.action ∧ m.permissions = h.permissions ∧
        m.rank = h.rank ∧ m.actionCooldownMs = h.actionCooldownMs

section OneDiffers

variable {H : HashMap Identity Member} {pre post : List ChatData} {x : ChatData} {id : Identity}

theorem copies_append (id : Identity) (l l' : List ChatData) :
    copies id (l ++ l') = copies id l ++ copies id l' :=
  List.filterMap_append

theorem copies_cons (id : Identity) (x : ChatData) (l : List ChatData) :
    copies id (x :: l) = (x.2.get id).toList ++ copies id l := by
  cases h : x.2.get id with
  | none => simp [copies, h]
  | some m => simp [copies, h]

/-- Responses that are equal to `H` hold as many copies as there are of them, or none. -/
theorem copies_of_same {l : List ChatData} (h : ∀ y ∈ l, y.2.Same H) :
    copies id l = (List.replicate l.length (H.get id).toList).flatten := by
  induction l with
  | nil => rfl
  | cons y l ih =>
      obtain ⟨hy, hl⟩ := List.forall_mem_cons.mp h
      rw [copies_cons, ih hl, hy id, List.length_cons, List.replicate_succ, List.flatten_cons]

/-- The copies of an identity: those of the equal responses, and at most one more. -/
theorem copies_perm (x : ChatData) (id : Identity) (h : ∀ y ∈ pre ++ post, y.2.Same H) :
    (copies id (pre ++ x :: post)).Perm
      ((List.replicate (pre ++ post).length (H.get id).toList).flatten ++
        (x.2.get id).toList) := by
  rw [← copies_of_same h, copies_append, copies_cons, copies_append, List.append_assoc]
  exact List.perm_append_comm.append_left _

/-- An identity that `H` does not list. -/
theorem length_copies_of_none (h : ∀ y ∈ pre ++ post, y.2.Same H) (hid : H.get id = none) :
    (copies id (pre ++ x :: post)).length < 2 := by
  rw [(copies_perm x id h).length_eq, hid]
  cases x.2.get id with
  | none => simp
  | some m => simp

/-- A member of `H` is in the majority. -/
theorem majority_of_some {m : Member} (h : ∀ y ∈ pre ++ post, y.2.Same H)
    (hid : H.get id = some m) (hlen : 3 ≤ (pre ++ x :: post).length) :
    (copies id (pre ++ x :: post)).length < 2 * (copies id (pre ++ x :: post)).count m ∧
      2 ≤ (copies id (pre ++ x :: post)).length := by
  have hperm := copies_perm x id h
  rw [hid, Option.toList_some] at hperm
  have hsingle : (List.replicate (pre ++ post).length [m]).flatten =
      List.replicate (pre ++ post).length m := by simp
  rw [hsingle] at hperm
  have hextra : (x.2.get id).toList.length ≤ 1 := by cases x.2.get id <;> simp
  have hcount : (pre ++ post).length ≤ (copies id (pre ++ x :: post)).count m := by
    rw [hperm.count_eq, List.count_append, List.count_replicate_self]
    exact Nat.le_add_right _ _
  have hlength : (copies id (pre ++ x :: post)).length =
      (pre ++ post).length + (x.2.get id).toList.length := by
    rw [hperm.length_eq, List.length_append, List.length_replicate]
  rw [List.length_append, List.length_cons] at hlen
  rw [List.length_append] at hcount hlength
  omega

/-- The combined counter is the one in `H` if no copy has a larger one. -/
theorem action_eq_iff {list : List Member} {m h : Member} (hm : Member.Combines list m)
    (hin : h ∈ list) : m.action = h.action ↔ ∀ c ∈ list, c.action ≤ h.action := by
  obtain ⟨hmem, hmax⟩ := List.max?_eq_some_iff.mp hm.action
  constructor
  · intro heq c hc
    rw [← heq]
    exact hmax _ (List.mem_map_of_mem hc)
  · intro hall
    obtain ⟨c, hc, hca⟩ := List.mem_map.mp hmem
    exact le_antisymm (hca ▸ hall c hc) (hmax _ (List.mem_map_of_mem hin))

end OneDiffers

/-- **One faulty replica.** Of three or four responses all but one are equal: the chat
comes out as these have it exactly when no response gives one of its members a larger
counter. -/
theorem reconstruction_exact_iff (order : IterOrder (Identity × ReplVec Member))
    (blockData : ReplVec ChatData) (H : HashMap Identity Member)
    (hlen : 3 ≤ blockData.toList.length)
    (hequal : AllButOne (fun data => data.2.Same H) blockData.toList) :
    (∃ out, reconstructChat order blockData = some out ∧ Restores H out) ↔
      ∀ data ∈ blockData.toList, ∀ id m h, data.2.get id = some m → H.get id = some h →
        m.action ≤ h.action := by
  obtain ⟨pre, x, post, hsplit, hsame⟩ := hequal
  obtain ⟨out, hout, hget⟩ := reconstructChat_spec order blockData
  rw [hsplit] at hget hlen ⊢
  -- what comes out for a member of `H`
  have hmember : ∀ id h, H.get id = some h → ∃ m, out.get id = some m ∧
      Member.Combines (copies id (pre ++ x :: post)) m ∧ h ∈ copies id (pre ++ x :: post) ∧
      m.permissions = h.permissions ∧ m.rank = h.rank ∧
      m.actionCooldownMs = h.actionCooldownMs := by
    intro id h hid
    obtain ⟨hmajority, htwo⟩ := majority_of_some hsame hid hlen
    have hin : h ∈ copies id (pre ++ x :: post) := List.count_pos_iff.mp (by omega)
    obtain ⟨m, hm, hcomb⟩ := Member.combine_spec (List.ne_nil_of_mem hin)
    obtain ⟨hperms, hrank, hcooldown⟩ := hcomb.of_majority hmajority
    exact ⟨m, (hget id m).mpr ⟨htwo, hm⟩, hcomb, hin, hperms, hrank, hcooldown⟩
  have hmemCopies : ∀ id m, m ∈ copies id (pre ++ x :: post) ↔
      ∃ data ∈ pre ++ x :: post, data.2.get id = some m := by
    intro id m
    exact List.mem_filterMap
  constructor
  · rintro ⟨out', hout', hrestores⟩ data hdata id m h hm hid
    obtain rfl := Option.some.inj (hout.symm.trans hout')
    have hall := hrestores id
    rw [hid] at hall
    obtain ⟨m', hm', haction, -⟩ := hall
    obtain ⟨m'', hm'', hcomb, hin, -⟩ := hmember id h hid
    obtain rfl := Option.some.inj (hm'.symm.trans hm'')
    exact (action_eq_iff hcomb hin).mp haction m ((hmemCopies id m).mpr ⟨data, hdata, hm⟩)
  · intro hsmall
    refine ⟨out, hout, fun id => ?_⟩
    cases hid : H.get id with
    | none =>
        -- one response at most lists the identity
        have hfew := length_copies_of_none (x := x) hsame hid
        refine Option.eq_none_iff_forall_ne_some.mpr fun m hm => ?_
        exact absurd ((hget id m).mp hm).1 (by omega)
    | some h =>
        obtain ⟨m, hm, hcomb, hin, hperms, hrank, hcooldown⟩ := hmember id h hid
        refine ⟨m, hm, (action_eq_iff hcomb hin).mpr fun c hc => ?_, hperms, hrank, hcooldown⟩
        obtain ⟨data, hdata, hdc⟩ := (hmemCopies id c).mp hc
        exact hsmall data hdata id c h hdc hid

/-- Tables iterated as they are. -/
def asStored {α : Type} : IterOrder α := ⟨id, fun _ => List.Perm.refl _⟩

/-- A table with one member, whose counter is given. -/
def oneMember (action : Nonce) : HashMap Identity Member :=
  ⟨[(7, { action, permissions := .all })], List.nodup_singleton _⟩

/-- Three replicas have the counter 5, the fourth one says otherwise. -/
def fourResponses (action : Nonce) : ReplVec ChatData :=
  ⟨[(1, oneMember 5), (2, oneMember 5), (3, oneMember 5), (4, oneMember action)], Nat.le_refl 4⟩

theorem fourResponses_allButOne (action : Nonce) :
    AllButOne (fun data => data.2.Same (oneMember 5)) (fourResponses action).toList := by
  refine ⟨[(1, oneMember 5), (2, oneMember 5), (3, oneMember 5)], (4, oneMember action), [],
    rfl, ?_⟩
  intro y hy
  simp only [List.append_nil, List.mem_cons, List.not_mem_nil, or_false] at hy
  rcases hy with rfl | rfl | rfl <;> exact fun _ => rfl

/-- A replica that fell behind does no harm. -/
theorem reconstruction_exact_behind :
    ∃ out, reconstructChat asStored (fourResponses 3) = some out ∧ Restores (oneMember 5) out := by
  refine (reconstruction_exact_iff asStored (fourResponses 3) (oneMember 5) (by decide)
    (fourResponses_allButOne 3)).mpr ?_
  intro data hdata id m h hm hid
  have hone : ∀ a m', (oneMember a).get id = some m' → m'.action = a := by
    intro a m' ha
    have hin := (oneMember a).get_eq_some_iff.mp ha
    rw [oneMember, List.mem_singleton] at hin
    rw [(Prod.mk.inj hin).2]
  rw [hone 5 h hid]
  simp only [fourResponses, List.mem_cons, List.not_mem_nil, or_false] at hdata
  rcases hdata with rfl | rfl | rfl | rfl
  · exact (hone 5 m hm).le
  · exact (hone 5 m hm).le
  · exact (hone 5 m hm).le
  · exact (hone 3 m hm).le.trans (by decide)

/-- One replica names the largest counter there is, and the member comes out with it. -/
theorem reconstruction_exact_hostile :
    AllButOne (fun data => data.2.Same (oneMember 5)) (fourResponses (2 ^ 64 - 1)).toList ∧
      3 ≤ (fourResponses (2 ^ 64 - 1)).toList.length ∧
      ¬ ∃ out, reconstructChat asStored (fourResponses (2 ^ 64 - 1)) = some out ∧
        Restores (oneMember 5) out := by
  refine ⟨fourResponses_allButOne _, by decide, ?_⟩
  rintro ⟨out, hout, hrestores⟩
  have hread : ((reconstructChat asStored (fourResponses (2 ^ 64 - 1))).bind fun out =>
      (out.get 7).map Member.action) = some (2 ^ 64 - 1) := by decide
  have hmember := hrestores 7
  rw [show (oneMember 5).get 7 = some { action := 5, permissions := .all } from rfl] at hmember
  obtain ⟨m, hm, haction, -⟩ := hmember
  rw [hout, Option.bind_some, hm, Option.map_some, haction] at hread
  exact absurd hread (by decide)

/-! ### Neither the order of the responses nor that of a table matters -/

/-- The same responses, in another order and with tables that are iterated otherwise. -/
def SameResponses (l l' : List ChatData) : Prop :=
  ∃ mid, l.Perm mid ∧ List.Forall₂ (fun d d' => d.1 = d'.1 ∧ d.2.Same d'.2) mid l'

theorem copies_of_forall₂ {l l' : List ChatData} (id : Identity)
    (h : List.Forall₂ (fun d d' => d.1 = d'.1 ∧ d.2.Same d'.2) l l') :
    copies id l = copies id l' := by
  induction h with
  | nil => rfl
  | cons hd hrest ih => rw [copies_cons, copies_cons, hd.2 id, ih]

theorem copies_of_sameResponses {l l' : List ChatData} (h : SameResponses l l') (id : Identity) :
    (copies id l).Perm (copies id l') := by
  obtain ⟨mid, hperm, hsame⟩ := h
  rw [← copies_of_forall₂ id hsame]
  exact hperm.filterMap _

/-- **Restored alike.** Two replicas that collected the same responses restore the same
members, whatever the order in which they arrived and in which any table is iterated;
and neither panics. -/
theorem reconstruction_order_free (order order' : IterOrder (Identity × ReplVec Member))
    (blockData blockData' : ReplVec ChatData)
    (h : SameResponses blockData.toList blockData'.toList) :
    ∃ out out', reconstructChat order blockData = some out ∧
      reconstructChat order' blockData' = some out' ∧ out.Same out' := by
  obtain ⟨out, hout, hget⟩ := reconstructChat_spec order blockData
  obtain ⟨out', hout', hget'⟩ := reconstructChat_spec order' blockData'
  refine ⟨out, out', hout, hout', fun id => Option.ext fun m => ?_⟩
  have hperm := copies_of_sameResponses h id
  rw [hget, hget', hperm.length_eq, Member.combine_perm hperm]

/-- Tables iterated from the back. -/
def reversed {α : Type} : IterOrder α := ⟨List.reverse, List.reverse_perm⟩

/-- The fourth response comes first, and the table is iterated from the back. -/
theorem reconstruction_order_free_reversed :
    ∃ out out', reconstructChat asStored (fourResponses 3) = some out ∧
      reconstructChat reversed ⟨(fourResponses 3).toList.reverse, Nat.le_refl 4⟩ = some out' ∧
      out.Same out' :=
  reconstruction_order_free asStored reversed _ _
    ⟨_, (List.reverse_perm _).symm, List.forall₂_same.mpr fun _ _ => ⟨rfl, fun _ => rfl⟩⟩

end OnionNetwork.Server
