import Mathlib.Data.List.Perm.Basic
import Mathlib.Data.List.Count
import Mathlib.Order.Nat
import Mathlib.Data.Nat.Basic

/-!
# Votes grouped by an equality of their own

A list of votes is grouped from the front: the first vote takes everything equal
to it out of the list, the next one what is left, and so on. The answer is a vote
whose group reaches the quota. The equality is any reflexive and symmetric
relation: where it is not transitive, the groups depend on the order.

* `pick_of_class` — votes that are equal to each other and to nothing else win
  in every order, when the quota is more than half;
* `decided_iff` — with one vote in front and the others in any order, exactly
  when the winner does not depend on the order and is every vote that has the
  quota.
-/

namespace OnionNetwork.Lib

variable {α : Type*} (eq : α → α → Bool) (quota : Nat)

/-- How many votes of the list are equal to `x`. -/
def alike (l : List α) (x : α) : Nat := l.countP (eq x)

/-- The votes that are left behind the group of `base`. -/
def others (base : α) (l : List α) : List α := l.filter fun x => !eq base x

/-- The vote whose group reaches the quota, the last such group. -/
def pick : List α → Option α
  | [] => none
  | base :: rest =>
      match pick (others eq base rest) with
      | some x => some x
      | none => if quota ≤ 1 + alike eq rest base then some base else none
termination_by l => l.length
decreasing_by exact Nat.lt_succ_of_le (List.length_filter_le _ _)

variable {eq quota} {l l' rest : List α} {base x y : α}

theorem alike_le_length : alike eq l x ≤ l.length := List.countP_le_length

theorem alike_le_of_sublist (h : l.Sublist l') : alike eq l x ≤ alike eq l' x := h.countP_le

theorem alike_congr (h : l.Perm l') : alike eq l x = alike eq l' x := h.countP_eq _

theorem alike_cons_self (hrefl : ∀ x, eq x x) : alike eq (x :: rest) x = 1 + alike eq rest x := by
  rw [alike, List.countP_cons_of_pos (hrefl x), Nat.add_comm]
  rfl

@[simp] theorem mem_others : x ∈ others eq base l ↔ x ∈ l ∧ eq base x = false := by
  simp [others]

theorem others_sublist : (others eq base l).Sublist l := List.filter_sublist

theorem others_perm (h : l.Perm l') : (others eq base l).Perm (others eq base l') := h.filter _

/-- A list splits into the group and the others. -/
theorem length_others (eq : α → α → Bool) (l : List α) (x : α) :
    alike eq l x + (others eq x l).length = l.length := by
  rw [alike, others, ← List.countP_eq_length_filter,
    List.length_eq_countP_add_countP (eq x) (l := l)]
  simp

/-- The winner is a vote that has the quota. -/
theorem mem_of_pick (hrefl : ∀ x, eq x x) (h : pick eq quota l = some x) :
    x ∈ l ∧ quota ≤ alike eq l x := by
  fun_induction pick eq quota l with
  | case1 => cases h
  | case2 base rest y hlater ih =>
      obtain ⟨hmem, hquota⟩ := ih (hlater.trans h)
      have hsub : (others eq base rest).Sublist (base :: rest) := others_sublist.cons base
      exact ⟨hsub.subset hmem, le_trans hquota (alike_le_of_sublist hsub)⟩
  | case3 base rest hnone hquota ih =>
      cases h
      exact ⟨List.mem_cons_self, le_of_le_of_eq hquota (alike_cons_self hrefl).symm⟩
  | case4 base rest hnone hquota ih => cases h

/-- Where no vote has the quota there is no winner. -/
theorem pick_eq_none (hrefl : ∀ x, eq x x) (h : ∀ x ∈ l, alike eq l x < quota) :
    pick eq quota l = none := by
  cases hpick : pick eq quota l with
  | none => rfl
  | some x =>
      obtain ⟨hmem, hquota⟩ := mem_of_pick hrefl hpick
      exact absurd hquota (not_le.mpr (h x hmem))

/-- A first vote without the quota only takes its group out. -/
theorem pick_cons_small (hrefl : ∀ x, eq x x) (h : alike eq (base :: rest) base < quota) :
    pick eq quota (base :: rest) = pick eq quota (others eq base rest) := by
  rw [alike_cons_self hrefl] at h
  rw [pick]
  split
  · next x hlater => exact hlater.symm
  · next hnone => rw [if_neg (not_le.mpr h), hnone]

/-- A first vote with more than half wins. -/
theorem pick_cons_large (hrefl : ∀ x, eq x x) (h : quota ≤ alike eq (base :: rest) base)
    (hlength : (base :: rest).length < 2 * quota) :
    pick eq quota (base :: rest) = some base := by
  rw [alike_cons_self hrefl] at h
  have hleft : pick eq quota (others eq base rest) = none := by
    refine pick_eq_none hrefl ?_
    intro x _
    have hsplit := length_others eq rest base
    have hle : alike eq (others eq base rest) x ≤ (others eq base rest).length := alike_le_length
    rw [List.length_cons] at hlength
    omega
  rw [pick, hleft, if_pos h]

/-- **Votes equal to each other and to no other vote win in every order.** -/
theorem pick_of_class (hrefl : ∀ x, eq x x) (hsymm : ∀ x y, eq x y → eq y x) (S : α → Bool)
    (hS : ∀ x ∈ l, S x → ∀ y ∈ l, eq x y = S y) (hquota : quota ≤ l.countP S)
    (hlength : l.length < 2 * quota) : ∃ x, pick eq quota l = some x ∧ x ∈ l ∧ S x := by
  induction hn : l.length using Nat.strong_induction_on generalizing l with
  | _ n ih =>
  cases l with
  | nil =>
      rw [List.length_nil] at hlength
      rw [List.countP_nil] at hquota
      omega
  | cons base rest =>
      cases hbase : S base with
      | true =>
          have hgroup : alike eq (base :: rest) base = (base :: rest).countP S :=
            List.countP_congr fun y hy => by rw [hS base List.mem_cons_self hbase y hy]
          exact ⟨base, pick_cons_large hrefl (hgroup ▸ hquota) hlength, List.mem_cons_self, hbase⟩
      | false =>
          -- no vote of the class is in the group of `base`
          have hapart : ∀ y ∈ base :: rest, S y → eq base y = false := by
            intro y hy hSy
            have hne : eq y base = false := (hS y hy hSy base List.mem_cons_self).trans hbase
            cases hyb : eq base y with
            | false => rfl
            | true => exact absurd (hsymm base y hyb) (by rw [hne]; exact Bool.false_ne_true)
          have hrest : rest.countP S = (base :: rest).countP S := by
            rw [List.countP_cons_of_neg (by rw [hbase]; exact Bool.false_ne_true)]
          have hkept : (others eq base rest).countP S = rest.countP S := by
            rw [others, List.countP_filter]
            refine List.countP_congr fun y hy => ?_
            cases hSy : S y with
            | false => simp
            | true => simp [hapart y (List.mem_cons_of_mem _ hy) hSy]
          have hsub : (others eq base rest).Sublist (base :: rest) := others_sublist.cons base
          have hlen : (others eq base rest).length < n := by
            rw [← hn, List.length_cons]
            exact Nat.lt_succ_of_le others_sublist.length_le
          obtain ⟨x, hpick, hmem, hSx⟩ := ih _ hlen
            (fun x hx hSx y hy => hS x (hsub.subset hx) hSx y (hsub.subset hy))
            (by rw [hkept, hrest]; exact hquota) (lt_trans (hn ▸ hlen) hlength) rfl
          have hsmall : alike eq (base :: rest) base < quota := by
            have hsplit := length_others eq rest base
            have hclass : rest.countP S ≤ (others eq base rest).length :=
              hkept ▸ List.countP_le_length
            rw [alike_cons_self hrefl]
            rw [List.length_cons] at hlength
            omega
          exact ⟨x, (pick_cons_small hrefl hsmall).trans hpick, hsub.subset hmem, hSx⟩

/-! ### One vote in front -/

section Front

variable (eq quota)

/-- With `us` in front, the others can come in any order: the winner is every vote
that has the quota. -/
def Decided (us : α) (rest : List α) : Prop :=
  ∀ rest', rest'.Perm rest → ∀ r ∈ us :: rest,
    (∃ x, pick eq quota (us :: rest') = some x ∧ eq x r) ↔ quota ≤ alike eq (us :: rest) r

/-- The votes that have the quota are the ones equal to `base`. -/
def Exact (l : List α) (base : α) : Prop := ∀ x ∈ l, eq base x ↔ quota ≤ alike eq l x

/-- No vote has the quota; or the first one has it, and the votes that have it
are the ones equal to it; or it has not, and the same is true of each vote that
has it and is not equal to the first, one of which does not need the first and
its equals. -/
def Clear (us : α) (rest : List α) : Prop :=
  (∀ x ∈ us :: rest, alike eq (us :: rest) x < quota) ∨
  (quota ≤ alike eq (us :: rest) us ∧ Exact eq quota (us :: rest) us) ∨
  (alike eq (us :: rest) us < quota ∧
    (∃ b ∈ others eq us rest, quota ≤ alike eq (others eq us rest) b) ∧
    ∀ b ∈ others eq us rest, quota ≤ alike eq (us :: rest) b → Exact eq quota (us :: rest) b)

end Front

/-- Two orders have equal winners. -/
theorem Decided.related (hrefl : ∀ x, eq x x) (hsymm : ∀ x y, eq x y → eq y x) {us : α}
    (h : Decided eq quota us rest) (hl : l.Perm rest) (hl' : l'.Perm rest) :
    Option.Rel (fun x y => eq x y) (pick eq quota (us :: l)) (pick eq quota (us :: l')) := by
  -- what wins in one order wins in the other
  have hwins : ∀ m m', m.Perm rest → m'.Perm rest → ∀ x, pick eq quota (us :: m) = some x →
      ∃ y, pick eq quota (us :: m') = some y ∧ eq y x := by
    intro m m' hm hm' x hx
    have hmem : x ∈ us :: rest := (hm.cons us).mem_iff.mp (mem_of_pick hrefl hx).1
    exact (h m' hm' x hmem).mpr ((h m hm x hmem).mp ⟨x, hx, hrefl x⟩)
  cases hx : pick eq quota (us :: l) with
  | none =>
      cases hy : pick eq quota (us :: l') with
      | none => exact Option.Rel.none
      | some y =>
          obtain ⟨x, hx', _⟩ := hwins l' l hl' hl y hy
          rw [hx] at hx'
          cases hx'
  | some x =>
      obtain ⟨y, hy, hyx⟩ := hwins l l' hl hl' x hx
      rw [hy]
      exact Option.Rel.some (hsymm y x hyx)

theorem decided_of_none (hrefl : ∀ x, eq x x) {us : α}
    (h : ∀ x ∈ us :: rest, alike eq (us :: rest) x < quota) : Decided eq quota us rest := by
  intro rest' hperm r hr
  have hnone : pick eq quota (us :: rest') = none := by
    refine pick_eq_none hrefl ?_
    intro x hx
    rw [alike_congr (hperm.cons us)]
    exact h x ((hperm.cons us).mem_iff.mp hx)
  rw [hnone]
  constructor
  · rintro ⟨x, hx, _⟩
    cases hx
  · intro hquota
    exact absurd hquota (not_le.mpr (h r hr))

theorem decided_of_front (hrefl : ∀ x, eq x x) {us : α}
    (hlength : (us :: rest).length < 2 * quota) (h : quota ≤ alike eq (us :: rest) us)
    (hexact : Exact eq quota (us :: rest) us) : Decided eq quota us rest := by
  intro rest' hperm r hr
  have hperm' := hperm.cons us
  have hus : pick eq quota (us :: rest') = some us := by
    refine pick_cons_large hrefl ?_ ?_
    · rw [alike_congr hperm']
      exact h
    · rw [hperm'.length_eq]
      exact hlength
  rw [← hexact r hr, hus]
  simp

theorem decided_of_rival (hrefl : ∀ x, eq x x) (hsymm : ∀ x y, eq x y → eq y x) {us : α}
    (hlength : (us :: rest).length < 2 * quota) (h : alike eq (us :: rest) us < quota)
    (hrival : ∃ b ∈ others eq us rest, quota ≤ alike eq (others eq us rest) b)
    (hexact : ∀ b ∈ others eq us rest, quota ≤ alike eq (us :: rest) b →
      Exact eq quota (us :: rest) b) : Decided eq quota us rest := by
  have hsub : (others eq us rest).Sublist (us :: rest) := others_sublist.cons us
  intro rest' hperm r hr
  have hothers : (others eq us rest').Perm (others eq us rest) := others_perm hperm
  have hsmall : alike eq (us :: rest') us < quota := by
    rw [alike_congr (hperm.cons us)]
    exact h
  -- the votes that have the quota and are not equal to the first are a class
  have hclass : ∀ x ∈ others eq us rest', decide (quota ≤ alike eq (us :: rest) x) = true →
      ∀ y ∈ others eq us rest', eq x y = decide (quota ≤ alike eq (us :: rest) y) := by
    intro x hx hq y hy
    have hx' := hothers.mem_iff.mp hx
    have hy' := hsub.subset (hothers.mem_iff.mp hy)
    have hiff := hexact x hx' (of_decide_eq_true hq) y hy'
    rw [Bool.eq_iff_iff, hiff, decide_eq_true_iff]
  have hcount : quota ≤
      (others eq us rest').countP fun x => decide (quota ≤ alike eq (us :: rest) x) := by
    obtain ⟨b, hb, hquota⟩ := hrival
    have hheavy : quota ≤ alike eq (us :: rest) b := le_trans hquota (alike_le_of_sublist hsub)
    rw [hothers.countP_eq]
    refine le_of_le_of_eq hquota (List.countP_congr ?_)
    intro y hy
    rw [hexact b hb hheavy y (hsub.subset hy), decide_eq_true_iff]
  have hshort : (others eq us rest').length < 2 * quota := by
    rw [hothers.length_eq]
    exact lt_of_le_of_lt hsub.length_le hlength
  obtain ⟨x, hpick, hmem, hSx⟩ := pick_of_class hrefl hsymm _ hclass hcount hshort
  have hxexact := hexact x (hothers.mem_iff.mp hmem) (of_decide_eq_true hSx)
  rw [← hxexact r hr, pick_cons_small hrefl hsmall, hpick]
  simp

theorem clear_of_decided (hrefl : ∀ x, eq x x) (hsymm : ∀ x y, eq x y → eq y x) {us : α}
    (hlength : (us :: rest).length < 2 * quota) (h : Decided eq quota us rest) :
    Clear eq quota us rest := by
  by_cases hsome : ∃ x ∈ us :: rest, quota ≤ alike eq (us :: rest) x
  swap
  · refine .inl ?_
    intro x hx
    exact not_le.mp fun hquota => hsome ⟨x, hx, hquota⟩
  obtain ⟨v, hv, hvquota⟩ := hsome
  by_cases hus : quota ≤ alike eq (us :: rest) us
  · refine .inr (.inl ⟨hus, ?_⟩)
    intro x hx
    rw [← h rest (List.Perm.refl _) x hx, pick_cons_large hrefl hus hlength]
    simp
  have hsmall : alike eq (us :: rest) us < quota := not_le.mp hus
  refine .inr (.inr ⟨hsmall, ?_, ?_⟩)
  · obtain ⟨x, hpick, _⟩ := (h rest (List.Perm.refl _) v hv).mpr hvquota
    rw [pick_cons_small hrefl hsmall] at hpick
    exact ⟨x, mem_of_pick hrefl hpick⟩
  · intro b hb hbquota
    obtain ⟨hbmem, hbus⟩ := mem_others.mp hb
    -- the order in which `b` comes right behind the first vote
    obtain ⟨s, t, rfl⟩ := List.append_of_mem hbmem
    have hperm : (b :: (s ++ t)).Perm (s ++ b :: t) := List.perm_middle.symm
    have hall := h _ hperm
    have hsmall' : alike eq (us :: b :: (s ++ t)) us < quota := by
      rw [alike_congr (hperm.cons us)]
      exact hsmall
    have hsplit : others eq us (b :: (s ++ t)) = b :: others eq us (s ++ t) := by
      simp [others, hbus]
    have hpick := pick_cons_small hrefl hsmall'
    rw [hsplit] at hpick
    by_cases hlarge : quota ≤ alike eq (b :: others eq us (s ++ t)) b
    · have hshort : (b :: others eq us (s ++ t)).length < 2 * quota := by
        have hle : (others eq us (b :: (s ++ t))).length ≤ (b :: (s ++ t)).length :=
          others_sublist.length_le
        rw [hsplit, hperm.length_eq] at hle
        rw [List.length_cons] at hlength
        omega
      rw [pick_cons_large hrefl hlarge hshort] at hpick
      intro x hx
      rw [← hall x hx, hpick]
      simp
    · -- its group is gone before the winner is found, but the winner equals it
      rw [pick_cons_small hrefl (not_le.mp hlarge)] at hpick
      obtain ⟨x, hx, hxb⟩ := (hall b (List.mem_cons_of_mem _ hbmem)).mpr hbquota
      obtain ⟨hmem, _⟩ := mem_of_pick hrefl (hpick.symm.trans hx)
      have hne := (mem_others.mp hmem).2
      rw [hsymm x b hxb] at hne
      cases hne

/-- **Exactly when the order does not matter.** -/
theorem decided_iff (hrefl : ∀ x, eq x x) (hsymm : ∀ x y, eq x y → eq y x) {us : α}
    (hlength : (us :: rest).length < 2 * quota) :
    Decided eq quota us rest ↔ Clear eq quota us rest := by
  constructor
  · exact clear_of_decided hrefl hsymm hlength
  · rintro (hnone | ⟨hus, hexact⟩ | ⟨hus, hrival, hexact⟩)
    · exact decided_of_none hrefl hnone
    · exact decided_of_front hrefl hlength hus hexact
    · exact decided_of_rival hrefl hsymm hlength hus hrival hexact

end OnionNetwork.Lib
