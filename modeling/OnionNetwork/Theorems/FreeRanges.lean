import OnionNetwork.Storage.SortedCompactVec

/-!
# Free ranges

`push_range` and `pop_n` take the end of a range for the value behind its last one, `inc_prev` and
`pop` take it for the last one, and a range that is removed as a whole is answered with its length
for its end. So values get lost and others come up, except in the runs of `conserved_run_iff`.

`pop_exact` and `pop_exact_slow` do the same with the range they find, but find different ones
(`searches_agree_iff`): within a block the vectorised search takes the first range that is large
enough, and it comes to the ranges behind the full blocks last.
-/

namespace OnionNetwork.Storage

open Lib

namespace SortedCompactVec

variable {t : SortedElement} {s : SortedCompactVec} {n i j k : ℕ} {e a b : RangeRef}

/-! ## Conservation -/

/-- The value is in a range of the vector. -/
def Stored (s : SortedCompactVec) (v : ℕ) : Prop := ∃ e ∈ s, e.Has v

/-- The ranges are sorted and disjoint. -/
structure Ordered (s : SortedCompactVec) : Prop where
  increasing : Increasing RangeRef.start s
  disjoint : s.Pairwise fun a b => ∀ v, a.Has v → ¬ b.Has v

/-- The values that a call hands in. -/
def Op.Has : Op → ℕ → Prop
  | .push range, v => range.Has v
  | .pop, _ | .popN _, _ | .popExact _, _ => False

/-- The values that it is handed out. -/
def Answer.Has : Answer → ℕ → Prop
  | .pushed _, _ => False
  | .value x, v => x = some v
  | .range r, v => ∃ range, r = some range ∧ range.Has v

/-- The values are conserved from `s` to `s'`. -/
structure Conserves (s s' : SortedCompactVec) (op : Op) (answer : Answer) : Prop where
  ordered : s'.Ordered
  taken : ∀ v, answer.Has v → s.Stored v
  stored : ∀ v, s'.Stored v ↔ (s.Stored v ∨ op.Has v) ∧ ¬ answer.Has v
  empty : s = [] → op = .pop → answer = .value none

/-- The call does not panic, and conserves the values. -/
def Conserved (t : SortedElement) (s : SortedCompactVec) (op : Op) : Prop :=
  ∃ answer, (step t s op).2 = some answer ∧ Conserves s (step t s op).1 op answer

/-- A push is of a range that is not empty, and disjoint from the stored ones. -/
def Allowed (t : SortedElement) (s : SortedCompactVec) : Op → Prop
  | .push range =>
      range.start < range.stop ∧ range.stop ≤ t.max ∧ ∀ v, range.Has v → ¬ s.Stored v
  | .pop | .popN _ | .popExact _ => True

/-- The last entry that starts below `v`. -/
def before (s : SortedCompactVec) (v : ℕ) : Option RangeRef :=
  (s.filter fun e => e.start < v).getLast?

/-- No push where an entry starts, or one in front of which an entry ends a value early, no `pop`
but in a release build of an empty vector, and no entry taken as a whole unless it starts at 0
or is empty. -/
def Careful (t : SortedElement) (s : SortedCompactVec) : Op → Prop
  | .push range =>
      (∀ e ∈ s, e.start ≠ range.start) ∧
        ∀ e ∈ s.before range.start, e.start + e.len + 1 ≠ range.start
  | .pop => s = [] ∧ t.debugAssertions = false
  | .popN n =>
      (s = [] → t.debugAssertions = false) ∧
        ∀ e ∈ s.getLast?, n ≤ e.len ∨ e.start = 0 ∨ e.len = 0
  | .popExact n =>
      ∀ i e, s.Picked n i → s[i]? = some e → e.len ≠ n ∨ e.start = 0 ∨ n = 0

/-! ### Ranges in order -/

section Order

variable {front back : SortedCompactVec} {v : ℕ} {op : Op} {answer : Answer}

/-- A range has its place between the others, and no value with them in common. -/
structure Fitting (front back : SortedCompactVec) (e : RangeRef) : Prop where
  around : Around RangeRef.start e.start front back
  front : ∀ a ∈ front, ∀ v, a.Has v → ¬ e.Has v
  back : ∀ b ∈ back, ∀ v, e.Has v → ¬ b.Has v

theorem ordered_place :
    Ordered (front ++ e :: back) ↔ Ordered (front ++ back) ∧ Fitting front back e := by
  constructor
  · rintro ⟨hinc, hdisj⟩
    have hsub : (front ++ back).Sublist (front ++ e :: back) :=
      (List.Sublist.refl front).append (List.sublist_cons_self e back)
    refine ⟨⟨hinc.sublist hsub, hdisj.sublist hsub⟩, ?_⟩
    simp only [Increasing, List.pairwise_append, List.pairwise_cons, List.forall_mem_cons]
      at hinc hdisj
    exact {
      around := ⟨fun a ha => (hinc.2.2 a ha).1, hinc.2.1.1⟩
      front := fun a ha => (hdisj.2.2 a ha).1
      back := hdisj.2.1.1 }
  · rintro ⟨⟨hinc, hdisj⟩, ⟨hsmall, hlarge⟩, hfront, hback⟩
    simp only [Increasing, List.pairwise_append] at hinc hdisj
    constructor
    · simp only [Increasing, List.pairwise_append, List.pairwise_cons, List.forall_mem_cons]
      exact ⟨hinc.1, ⟨hlarge, hinc.2.1⟩, fun a ha => ⟨hsmall a ha, hinc.2.2 a ha⟩⟩
    · simp only [List.pairwise_append, List.pairwise_cons, List.forall_mem_cons]
      exact ⟨hdisj.1, ⟨hback, hdisj.2.1⟩, fun a ha => ⟨hfront a ha, hdisj.2.2 a ha⟩⟩

theorem stored_place : Stored (front ++ e :: back) v ↔ Stored (front ++ back) v ∨ e.Has v := by
  simp only [Stored, List.mem_append, List.mem_cons]
  constructor
  · rintro ⟨x, hx | rfl | hx, hv⟩
    · exact Or.inl ⟨x, Or.inl hx, hv⟩
    · exact Or.inr hv
    · exact Or.inl ⟨x, Or.inr hx, hv⟩
  · rintro (⟨x, hx | hx, hv⟩ | hv)
    · exact ⟨x, Or.inl hx, hv⟩
    · exact ⟨x, Or.inr (Or.inr hx), hv⟩
    · exact ⟨e, Or.inr (Or.inl rfl), hv⟩

theorem Fitting.not_stored (h : Fitting front back e) (hv : e.Has v) :
    ¬ Stored (front ++ back) v := by
  rintro ⟨x, hx, hxv⟩
  rcases List.mem_append.mp hx with hx | hx
  · exact h.front x hx v hxv hv
  · exact h.back x hx v hv hxv

/-- A range keeps its place when it gives up its last values. -/
theorem Fitting.shrink (h : Fitting front back e) {len : ℕ} (hle : len ≤ e.len) :
    Fitting front back ⟨e.start, len⟩ := by
  have hsub : ∀ v, (⟨e.start, len⟩ : RangeRef).Has v → e.Has v :=
    fun v hv => ⟨hv.1, hv.2.trans_le (Nat.add_le_add_left hle _)⟩
  exact {
    around := h.around
    front := fun a ha v hav hv => h.front a ha v hav (hsub v hv)
    back := fun b hb v hv hbv => h.back b hb v (hsub v hv) hbv }

/-- A call that takes values out conserves them exactly if it answers with those. -/
theorem conserves_iff_of_gone {s s' : SortedCompactVec} {gone : ℕ → Prop} (hs : s ≠ [])
    (hordered : s'.Ordered) (hop : ∀ v, ¬ op.Has v) (hgone : ∀ v, gone v → s.Stored v)
    (hstored : ∀ v, s'.Stored v ↔ s.Stored v ∧ ¬ gone v) :
    Conserves s s' op answer ↔ ∀ v, answer.Has v ↔ gone v := by
  constructor
  · intro h v
    have hiff := h.stored v
    have htaken := h.taken v
    rw [hstored, or_iff_left (hop v)] at hiff
    constructor
    · intro hv
      by_contra hnot
      exact (hiff.mp ⟨htaken hv, hnot⟩).2 hv
    · intro hv
      by_contra hnot
      exact (hiff.mpr ⟨hgone v hv, hnot⟩).2 hv
  · intro h
    exact {
      ordered := hordered
      taken := fun v hv => hgone v ((h v).mp hv)
      stored := by
        intro v
        rw [hstored, or_iff_left (hop v), h]
      empty := fun hnil => absurd hnil hs }

/-- A range is removed. -/
theorem conserves_remove_iff (h : Ordered (front ++ e :: back)) (hop : ∀ v, ¬ op.Has v) :
    Conserves (front ++ e :: back) (front ++ back) op answer ↔
      ∀ v, answer.Has v ↔ e.Has v := by
  obtain ⟨hrest, hfit⟩ := ordered_place.mp h
  refine conserves_iff_of_gone (by simp) hrest hop (fun v hv => stored_place.mpr (Or.inr hv)) ?_
  intro v
  have hnot : e.Has v → ¬ Stored (front ++ back) v := hfit.not_stored
  rw [stored_place]
  tauto

/-- A range loses its last values. -/
theorem conserves_shrink_iff (h : Ordered (front ++ e :: back)) {len : ℕ} (hle : len ≤ e.len)
    (hop : ∀ v, ¬ op.Has v) :
    Conserves (front ++ e :: back) (front ++ ⟨e.start, len⟩ :: back) op answer ↔
      ∀ v, answer.Has v ↔ e.start + len ≤ v ∧ v < e.start + e.len := by
  obtain ⟨hrest, hfit⟩ := ordered_place.mp h
  have hgone : ∀ v, (e.start + len ≤ v ∧ v < e.start + e.len) ↔
      e.Has v ∧ ¬ (⟨e.start, len⟩ : RangeRef).Has v := by
    intro v
    simp only [RangeRef.Has]
    omega
  simp only [hgone]
  refine conserves_iff_of_gone (by simp) (ordered_place.mpr ⟨hrest, hfit.shrink hle⟩) hop
    (fun v hv => stored_place.mpr (Or.inr hv.1)) ?_
  intro v
  have hnot : e.Has v → ¬ Stored (front ++ back) v := hfit.not_stored
  have hsub : (⟨e.start, len⟩ : RangeRef).Has v → e.Has v :=
    fun hv => ⟨hv.1, hv.2.trans_le (Nat.add_le_add_left hle _)⟩
  rw [stored_place, stored_place]
  tauto

/-- A pushed range gets an entry of its own. -/
theorem conserves_insert {range : Range} (h : Ordered (front ++ back))
    (haround : Around RangeRef.start range.start front back) (hlt : range.start < range.stop)
    (hfree : ∀ v, range.Has v → ¬ s.Stored v)
    (hs : ∀ v, s.Stored v ↔ Stored (front ++ back) v) :
    Conserves s (front ++ ⟨range.start, range.stop - range.start⟩ :: back) (.push range)
      (.pushed true) := by
  have hhas : ∀ v, (⟨range.start, range.stop - range.start⟩ : RangeRef).Has v ↔ range.Has v := by
    intro v
    simp only [RangeRef.Has, Range.Has]
    omega
  have hnot : ∀ x ∈ front ++ back, ∀ v, x.Has v → ¬ range.Has v :=
    fun x hx v hv hrange => hfree v hrange ((hs v).mpr ⟨x, hx, hv⟩)
  refine {
    ordered := ordered_place.mpr ⟨h, haround, fun a ha v hv hv' => ?_, fun b hb v hv hv' => ?_⟩
    taken := fun v hv => False.elim hv
    stored := fun v => ?_
    empty := fun _ hpop => nomatch hpop }
  · exact hnot a (List.mem_append_left _ ha) v hv ((hhas v).mp hv')
  · exact hnot b (List.mem_append_right _ hb) v hv' ((hhas v).mp hv)
  · rw [stored_place, hhas, hs]
    exact (and_iff_left id).symm

/-- An entry that grows gets the value at its end, which was neither stored nor pushed. -/
theorem not_conserves_grown {back' : SortedCompactVec} {range : Range} {len : ℕ}
    (hlen : e.len < len) (hback : ∀ b ∈ back, e.start + e.len < b.start)
    (hstart : e.start + e.len < range.start) :
    ¬ Conserves (front ++ e :: back) (front ++ ⟨e.start, len⟩ :: back') (.push range) answer := by
  intro h
  have hgrown : (⟨e.start, len⟩ : RangeRef).Has (e.start + e.len) := by
    simp only [RangeRef.Has]
    omega
  obtain ⟨hbefore, -⟩ := (h.stored _).mp (stored_place.mpr (Or.inr hgrown))
  rcases hbefore with hbefore | hpushed
  -- stored before: an entry in front would now meet the grown one, and those behind start later
  · rcases stored_place.mp hbefore with ⟨x, hx, hxv⟩ | hev
    · rcases List.mem_append.mp hx with hx | hx
      · exact (ordered_place.mp h.ordered).2.front x hx _ hxv hgrown
      · exact absurd hxv.1 (not_le.mpr (hback x hx))
    · exact lt_irrefl _ hev.2
  · exact absurd hpushed.1 (not_le.mpr hstart)

end Order

/-! ### Each call -/

/-- What holds between the calls of a careful run: the ends of the ranges do not overflow. -/
structure Inv (t : SortedElement) (s : SortedCompactVec) : Prop where
  ordered : s.Ordered
  bounded : ∀ e ∈ s, e.start ≤ t.max - 1 ∧ e.start + e.len ≤ t.max

/-- What is to be shown of a call. -/
structure Settled (t : SortedElement) (s : SortedCompactVec) (op : Op) : Prop where
  conserved : Conserved t s op ↔ Careful t s op
  bounded : Careful t s op →
    ∀ e ∈ (step t s op).1, e.start ≤ t.max - 1 ∧ e.start + e.len ≤ t.max

section Push

variable {front back : SortedCompactVec} {range : Range}

theorem before_eq {v : ℕ} (h : Around RangeRef.start v front back) :
    before (front ++ back) v = front.getLast? := by
  have hfront : front.filter (fun e => e.start < v) = front := by
    rw [List.filter_eq_self]
    exact fun e he => decide_eq_true (h.smaller e he)
  have hback : back.filter (fun e => e.start < v) = [] := by
    rw [List.filter_eq_nil_iff]
    exact fun e he hlt => absurd (of_decide_eq_true hlt) (h.larger e he).le.not_gt
  rw [before, List.filter_append, hfront, hback, List.append_nil]

theorem careful_push_iff (h : Around RangeRef.start range.start front back) :
    Careful t (front ++ back) (.push range) ↔
      ∀ e ∈ front.getLast?, e.start + e.len + 1 ≠ range.start := by
  have hnone : ∀ e ∈ front ++ back, e.start ≠ range.start := by
    intro e he
    rcases List.mem_append.mp he with he | he
    · exact (h.smaller e he).ne
    · exact (h.larger e he).ne'
  rw [Careful, before_eq h]
  exact and_iff_right hnone

/-- An entry in front of a pushed range ends in front of it. -/
theorem stop_le_of_free (hlt : range.start < range.stop) (hfree : ∀ v, range.Has v → ¬ s.Stored v)
    (he : e ∈ s) (hstart : e.start < range.start) : e.start + e.len ≤ range.start := by
  by_contra hle
  exact hfree range.start ⟨le_rfl, hlt⟩ ⟨e, he, hstart.le, not_le.mp hle⟩

/-- An entry that a pushed range reaches is empty. -/
theorem len_eq_zero_of_free (hfree : ∀ v, range.Has v → ¬ s.Stored v) (he : e ∈ s)
    (hstart : range.start ≤ e.start) (hstop : e.start < range.stop) : e.len = 0 := by
  by_contra hpos
  exact hfree e.start ⟨hstart, hstop⟩
    ⟨e, he, le_rfl, Nat.lt_add_of_pos_right (Nat.pos_of_ne_zero hpos)⟩

/-- `inc_prev`: the entry in front ends a value early. -/
theorem incPrev_cases (h : Inv t (front ++ back)) (hlt : range.start < range.stop)
    (hmax : range.stop ≤ t.max) (hfree : ∀ v, range.Has v → ¬ (front ++ back).Stored v)
    (haround : Around RangeRef.start range.start front back) :
    incPrev t (front ++ back) front.length range = some false ∧
        (∀ e ∈ front.getLast?, e.start + e.len + 1 ≠ range.start) ∨
      incPrev t (front ++ back) front.length range = some true ∧
        ∃ init e, front = init ++ [e] ∧ e.start + e.len + 1 = range.start := by
  rcases List.eq_nil_or_concat' front with rfl | ⟨init, e, rfl⟩
  · exact Or.inl ⟨incPrev_nil, by simp⟩
  · have hmem : e ∈ init ++ [e] ++ back := by simp
    have hstop := stop_le_of_free hlt hfree hmem (haround.smaller e (by simp))
    have hinc : incPrev t (init ++ [e] ++ back) (init ++ [e]).length range =
        some (range.start == e.start + e.len + 1) := by
      rw [List.append_assoc, List.singleton_append, List.length_append, List.length_singleton]
      exact incPrev_place (by omega)
    rw [hinc]
    by_cases heq : e.start + e.len + 1 = range.start
    · exact Or.inr ⟨by simp [heq], init, e, rfl, heq⟩
    · exact Or.inl ⟨by simp [Ne.symm heq], by simpa using heq⟩

/-- `dec_next`: the pushed range ends with the start of the next entry, which is empty. -/
theorem decNext_cases (hlt : range.start < range.stop)
    (hmax : range.stop ≤ t.max) (h : Inv t (front ++ back))
    (hfree : ∀ v, range.Has v → ¬ (front ++ back).Stored v)
    (haround : Around RangeRef.start range.start front back) :
    decNext t (front ++ back) front.length range = some false ∨
      decNext t (front ++ back) front.length range = some true ∧
        ∃ e tail, back = e :: tail ∧ e.start + 1 = range.stop ∧ e.len = 0 := by
  cases back with
  | nil =>
      rw [List.append_nil]
      exact Or.inl decNext_nil
  | cons e tail =>
      have hmem : e ∈ front ++ e :: tail := by simp
      have hstart := (h.bounded e hmem).1
      rw [decNext_place (by omega)]
      by_cases heq : range.stop = e.start + 1
      · refine Or.inr ⟨by simp [heq], e, tail, rfl, heq.symm, ?_⟩
        exact len_eq_zero_of_free hfree hmem (haround.larger e (by simp)).le (by omega)
      · exact Or.inl (by simp [heq])

theorem conserved_of_step {op : Op} {s' : SortedCompactVec} {answer : Answer}
    (h : step t s op = (s', some answer)) : Conserved t s op ↔ Conserves s s' op answer := by
  simp [Conserved, h]

theorem not_conserved_of_panic {op : Op} {s' : SortedCompactVec} (h : step t s op = (s', none)) :
    ¬ Conserved t s op := by
  simp [Conserved, h]

theorem step_push {s' : SortedCompactVec} {done : Option Bool}
    (h : pushRange t s range = (s', done)) :
    step t s (.push range) = (s', done.map .pushed) := by
  simp [step, h]

/-- A push where an entry starts is refused. -/
theorem settled_push_found (hlt : range.start < range.stop)
    (hfree : ∀ v, range.Has v → ¬ s.Stored v) {i : ℕ}
    (hsearch : binarySearchByKey RangeRef.start range.start s = .ok i) (he : e ∈ s)
    (hstart : e.start = range.start) : Settled t s (.push range) := by
  have hpush : pushRange t s range = (s, some false) := by simp [pushRange, hsearch]
  have hstep : step t s (.push range) = (s, some (.pushed false)) := step_push hpush
  have hnot : ¬ Careful t s (.push range) := fun h => h.1 e he hstart
  refine ⟨iff_of_false (fun h => ?_) hnot, fun h => absurd h hnot⟩
  have hpushed : range.Has range.start := ⟨le_rfl, hlt⟩
  have hstored := (((conserved_of_step hstep).mp h).stored range.start).mpr ⟨Or.inr hpushed, id⟩
  exact hfree range.start hpushed hstored

/-- With the next entry taken out, what is added to the one in front is what is missing to the
next multiple of the type's size, where that does not panic. -/
theorem sub_zero_cases {x : ℕ} (hpos : 0 < x) (hx : x ≤ t.max) :
    t.sub 0 x = none ∨ ∃ d, t.sub 0 x = some d ∧ d + x = t.max + 1 := by
  have hmax : t.max + 1 = 2 ^ t.bits := Nat.sub_add_cancel Nat.one_le_two_pow
  have hle : ¬ x ≤ 0 := not_le.mpr hpos
  cases hdebug : t.debugAssertions with
  | true => exact Or.inl (by simp [SortedElement.sub, hle, hdebug])
  | false =>
      refine Or.inr ⟨0 + 2 ^ t.bits - x, by simp [SortedElement.sub, hle, hdebug], ?_⟩
      omega

/-- A push of a range in front of which an entry ends a value early makes that entry longer. -/
theorem not_conserved_push {init : SortedCompactVec} (h : Inv t (init ++ [e] ++ back))
    (hlt : range.start < range.stop) (hmax : range.stop ≤ t.max)
    (hfree : ∀ v, range.Has v → ¬ (init ++ [e] ++ back).Stored v)
    (haround : Around RangeRef.start range.start (init ++ [e]) back)
    (hsearch : binarySearchByKey RangeRef.start range.start (init ++ [e] ++ back) =
      .error (init ++ [e]).length)
    (hinc : incPrev t (init ++ [e] ++ back) (init ++ [e]).length range = some true)
    (hgap : e.start + e.len + 1 = range.start) :
    ¬ Conserved t (init ++ [e] ++ back) (.push range) := by
  have hlast : (init ++ [e]).length - 1 = init.length := by simp
  have hassoc (l : SortedCompactVec) : init ++ [e] ++ l = init ++ e :: l := by simp
  rcases decNext_cases hlt hmax h hfree haround with hdec | ⟨hdec, x, tail, rfl, hx, hempty⟩
  · -- the range is added to the entry, whose end lies one below its start
    have hsub : t.sub range.stop range.start = some (range.stop - range.start) :=
      SortedElement.sub_of_le hlt.le
    have hadd : addLen t (init ++ e :: back) init.length (some (range.stop - range.start)) =
        (init ++ ⟨e.start, e.len + (range.stop - range.start)⟩ :: back, some true) :=
      addLen_place (by omega)
    have hpush : pushRange t (init ++ [e] ++ back) range =
        (init ++ ⟨e.start, e.len + (range.stop - range.start)⟩ :: back, some true) := by
      simp only [pushRange, hsearch, hinc, hdec, hlast, hsub]
      rw [hassoc, hadd]
    rw [conserved_of_step (step_push hpush), hassoc]
    refine not_conserves_grown (by omega) (fun b hb => ?_) (by omega)
    have := haround.larger b hb
    omega
  · -- the next entry is empty: it is removed, and its length is taken for the one before
    have hmem : x ∈ init ++ [e] ++ x :: tail := by simp
    have hstart : range.start < x.start := haround.larger x (by simp)
    have hbound := (h.bounded x hmem).1
    have hremove : (init ++ [e] ++ x :: tail).remove (init ++ [e]).length =
        (init ++ [e] ++ tail, some ⟨x.start, x.len⟩) := remove_place
    have hwrap : t.sub 0 x.start = none ∨ ∃ d, t.sub 0 x.start = some d ∧ d + x.start = t.max + 1 :=
      sub_zero_cases (by omega) (by omega)
    rcases hwrap with hsub | ⟨d, hsub, hd⟩
    · -- the length 0 of the next entry, minus its start, is an overflow
      have hpush : pushRange t (init ++ [e] ++ x :: tail) range = (init ++ [e] ++ tail, none) := by
        simp only [pushRange, hsearch, hinc, hdec, hremove, hempty, hsub, addLen_none]
      exact not_conserved_of_panic (step_push hpush)
    · -- in a release build it wraps around, and the entry grows over its neighbours
      have hadd : addLen t (init ++ e :: tail) init.length (some d) =
          (init ++ ⟨e.start, e.len + d⟩ :: tail, some true) := addLen_place (by omega)
      have hpush : pushRange t (init ++ [e] ++ x :: tail) range =
          (init ++ ⟨e.start, e.len + d⟩ :: tail, some true) := by
        simp only [pushRange, hsearch, hinc, hdec, hremove, hempty, hlast, hsub]
        rw [hassoc, hadd]
      rw [conserved_of_step (step_push hpush), hassoc]
      refine not_conserves_grown (by omega) (fun b hb => ?_) (by omega)
      have := haround.larger b hb
      omega

/-- Where no entry ends a value early, a push adds its range: as an entry of its own, or as the
next entry, if that was empty. -/
theorem conserved_push (h : Inv t (front ++ back)) (hlt : range.start < range.stop)
    (hmax : range.stop ≤ t.max) (hfree : ∀ v, range.Has v → ¬ (front ++ back).Stored v)
    (haround : Around RangeRef.start range.start front back)
    (hsearch : binarySearchByKey RangeRef.start range.start (front ++ back) =
      .error front.length)
    (hinc : incPrev t (front ++ back) front.length range = some false) :
    ∃ rest, (∀ e ∈ rest, e ∈ back) ∧
      pushRange t (front ++ back) range =
        (front ++ ⟨range.start, range.stop - range.start⟩ :: rest, some true) ∧
      Conserved t (front ++ back) (.push range) := by
  rcases decNext_cases hlt hmax h hfree haround with hdec | ⟨hdec, x, tail, rfl, hx, hempty⟩
  · have hpush : pushRange t (front ++ back) range =
        (front ++ ⟨range.start, range.stop - range.start⟩ :: back, some true) := by
      simp only [pushRange, hsearch, hinc, hdec, insert_place hlt.le]
    refine ⟨back, fun _ he => he, hpush, ?_⟩
    rw [conserved_of_step (step_push hpush)]
    exact conserves_insert h.ordered haround hlt hfree fun _ => Iff.rfl
  · have hsub : t.sub range.stop range.start = some (range.stop - range.start) :=
      SortedElement.sub_of_le hlt.le
    have hadd : addLen t (front ++ ⟨range.start, x.len⟩ :: tail) front.length
        (some (range.stop - range.start)) =
          (front ++ ⟨range.start, x.len + (range.stop - range.start)⟩ :: tail, some true) :=
      addLen_place (by show x.len + _ ≤ _; omega)
    have hpush : pushRange t (front ++ x :: tail) range =
        (front ++ ⟨range.start, range.stop - range.start⟩ :: tail, some true) := by
      simp only [pushRange, hsearch, hinc, hdec, getElem?_place, set_place, hsub, hadd]
      rw [hempty, Nat.zero_add]
    refine ⟨tail, fun _ he => List.mem_cons_of_mem x he, hpush, ?_⟩
    rw [conserved_of_step (step_push hpush)]
    have htail : Around RangeRef.start range.start front tail :=
      ⟨haround.smaller, fun e he => haround.larger e (List.mem_cons_of_mem x he)⟩
    refine conserves_insert (ordered_place.mp h.ordered).1 htail hlt hfree fun v => ?_
    rw [stored_place, or_iff_left]
    rintro ⟨hle, hgt⟩
    omega

theorem settled_push (h : Inv t s) (hallowed : Allowed t s (.push range)) :
    Settled t s (.push range) := by
  obtain ⟨hlt, hmax, hfree⟩ := hallowed
  rcases binarySearch_cases h.ordered.increasing range.start with
    ⟨front, x, back, rfl, hx, -, hsearch⟩ | ⟨front, back, rfl, haround, hsearch⟩
  · exact settled_push_found hlt hfree hsearch (by simp) hx
  · have hiff := careful_push_iff (t := t) haround
    -- the entry in front decides, and the next one makes no difference
    rcases incPrev_cases h hlt hmax hfree haround with ⟨hinc, hends⟩ | ⟨hinc, init, e, rfl, hgap⟩
    · obtain ⟨rest, hrest, hpush, hcons⟩ :=
        conserved_push h hlt hmax hfree haround hsearch hinc
      refine ⟨iff_of_true hcons (hiff.mpr hends), fun _ e he => ?_⟩
      rw [step_push hpush] at he
      have hold : e ∈ front ∨ e ∈ rest → e ∈ front ++ back :=
        fun he => List.mem_append.mpr (he.imp_right (hrest e))
      rcases List.mem_append.mp he with he | he
      · exact h.bounded e (hold (Or.inl he))
      · rcases List.mem_cons.mp he with rfl | he
        · constructor
          · show range.start ≤ t.max - 1
            omega
          · show range.start + (range.stop - range.start) ≤ t.max
            omega
        · exact h.bounded e (hold (Or.inr he))
    · have hnot : ¬ Careful t (init ++ [e] ++ back) (.push range) :=
        fun hcareful => hiff.mp hcareful e (by simp) hgap
      have hcons := not_conserved_push h hlt hmax hfree haround hsearch hinc hgap
      exact ⟨iff_of_false hcons hnot, fun hcareful => absurd hcareful hnot⟩

end Push

section Pop

variable {front back : SortedCompactVec} {op : Op} {answer : Answer}

/-- A call that answers with nothing and changes nothing. -/
theorem conserves_nothing (h : s.Ordered) (hop : ∀ v, ¬ op.Has v) (hanswer : ∀ v, ¬ answer.Has v)
    (hempty : s = [] → op = .pop → answer = .value none) : Conserves s s op answer where
  ordered := h
  taken v hv := absurd hv (hanswer v)
  stored v := by rw [or_iff_left (hop v), and_iff_left (hanswer v)]
  empty := hempty

/-- The answer for a range that is removed is `start..len`. -/
theorem removed_answer_iff :
    (∀ v, (Answer.range (some ⟨e.start, e.len⟩)).Has v ↔ e.Has v) ↔ e.start = 0 ∨ e.len = 0 := by
  simp only [Answer.Has, Option.some.injEq, exists_eq_left', Range.Has, RangeRef.Has]
  constructor
  · intro h
    have hfirst := h e.start
    have hlast := h (e.start + e.len - 1)
    omega
  · intro h v
    omega

/-- The answer for a range that is shortened is what is behind. -/
theorem shortened_answer (v : ℕ) :
    (Answer.range (some ⟨e.start + (e.len - n), e.start + e.len⟩)).Has v ↔
      e.start + (e.len - n) ≤ v ∧ v < e.start + e.len := by
  simp [Answer.Has, Range.Has]

theorem bounded_of_sub (h : Inv t s) {s' : SortedCompactVec}
    (hsub : ∀ e' ∈ s', ∃ e ∈ s, e'.start = e.start ∧ e'.len ≤ e.len) :
    ∀ e ∈ s', e.start ≤ t.max - 1 ∧ e.start + e.len ≤ t.max := by
  intro e' he'
  obtain ⟨e, he, hstart, hlen⟩ := hsub e' he'
  have := h.bounded e he
  omega

/-- A call that removes a range. -/
theorem settled_removed (h : Inv t (front ++ e :: back))
    (hstep : step t (front ++ e :: back) op =
      (front ++ back, some (.range (some ⟨e.start, e.len⟩)))) (hop : ∀ v, ¬ op.Has v)
    (hcareful : Careful t (front ++ e :: back) op ↔ e.start = 0 ∨ e.len = 0) :
    Settled t (front ++ e :: back) op := by
  refine ⟨?_, fun _ => bounded_of_sub h fun x hx => ?_⟩
  · rw [conserved_of_step hstep, conserves_remove_iff h.ordered hop, removed_answer_iff, hcareful]
  · rw [hstep] at hx
    have hmem : x ∈ front ++ e :: back := by
      rcases List.mem_append.mp hx with hx | hx
      · exact List.mem_append_left _ hx
      · exact List.mem_append_right _ (List.mem_cons_of_mem e hx)
    exact ⟨x, hmem, rfl, le_rfl⟩

/-- A call that takes the last values of a range. -/
theorem settled_shortened (h : Inv t (front ++ e :: back)) (hn : n ≤ e.len)
    (hstep : step t (front ++ e :: back) op =
      (shrink t (front ++ e :: back) front.length e n).map id (·.map .range))
    (hop : ∀ v, ¬ op.Has v) (hcareful : Careful t (front ++ e :: back) op) :
    Settled t (front ++ e :: back) op := by
  have hmem : e ∈ front ++ e :: back := by simp
  rw [shrink_place (h.bounded e hmem).2 hn] at hstep
  simp only [Prod.map_apply, id_eq, Option.map_some] at hstep
  refine ⟨iff_of_true ?_ hcareful, fun _ => bounded_of_sub h fun x hx => ?_⟩
  · rw [conserved_of_step hstep, conserves_shrink_iff h.ordered (Nat.sub_le _ _) hop]
    exact shortened_answer
  · rw [hstep] at hx
    rcases List.mem_append.mp hx with hx | hx
    · exact ⟨x, List.mem_append_left _ hx, rfl, le_rfl⟩
    · rcases List.mem_cons.mp hx with rfl | hx
      · exact ⟨e, hmem, rfl, Nat.sub_le _ _⟩
      · exact ⟨x, List.mem_append_right _ (List.mem_cons_of_mem e hx), rfl, le_rfl⟩

/-- There is no last entry in an empty vector, and with debug assertions looking for it panics. -/
theorem settled_empty
    (hstep : step t [] op = ([], if t.debugAssertions then none else some answer))
    (hop : ∀ v, ¬ op.Has v) (hanswer : ∀ v, ¬ answer.Has v)
    (hempty : op = .pop → answer = .value none)
    (hcareful : Careful t [] op ↔ t.debugAssertions = false) : Settled t [] op := by
  refine ⟨?_, fun _ e he => ?_⟩
  · rw [hcareful]
    cases hdebug : t.debugAssertions with
    | true =>
        have hpanic : step t [] op = ([], none) := by simp [hstep, hdebug]
        exact iff_of_false (not_conserved_of_panic hpanic) (by simp)
    | false =>
        have hanswers : step t [] op = ([], some answer) := by simp [hstep, hdebug]
        have hnil : Ordered [] := ⟨List.Pairwise.nil, List.Pairwise.nil⟩
        refine iff_of_true ((conserved_of_step hanswers).mpr ?_) rfl
        exact conserves_nothing hnil hop hanswer fun _ => hempty
  · rw [hstep] at he
    exact absurd he List.not_mem_nil

/-- `pop` answers with the value behind the one that it takes out. -/
theorem settled_pop (h : Inv t s) : Settled t s .pop := by
  rcases List.eq_nil_or_concat' s with rfl | ⟨front, e, rfl⟩
  · have hstep : step t [] .pop =
        ([], if t.debugAssertions then none else some (.value none)) := by
      cases hdebug : t.debugAssertions <;> simp [step, pop_nil, hdebug]
    exact settled_empty hstep (fun _ => id) (by simp [Answer.Has]) (fun _ => rfl)
      (by simp [Careful])
  · have hnot : ¬ Careful t (front ++ [e]) .pop := fun hcareful => by simpa using hcareful.1
    refine ⟨iff_of_false ?_ hnot, fun hcareful => absurd hcareful hnot⟩
    by_cases hzero : e.len = 0
    · have hstep : step t (front ++ [e]) .pop = (front ++ [], some (.value (some e.start))) := by
        simp [step, pop_concat_zero hzero]
      rw [conserved_of_step hstep, conserves_remove_iff h.ordered fun _ => id]
      intro hanswer
      obtain ⟨-, hlt⟩ := (hanswer e.start).mp rfl
      omega
    · have hbound := (h.bounded e (by simp)).2
      have hstep : step t (front ++ [e]) .pop =
          (front ++ [⟨e.start, e.len - 1⟩], some (.value (some (e.start + e.len)))) := by
        simp [step, pop_concat hbound hzero]
      rw [conserved_of_step hstep,
        conserves_shrink_iff h.ordered (Nat.sub_le _ _) fun _ => id]
      intro hanswer
      exact lt_irrefl _ ((hanswer (e.start + e.len)).mp rfl).2

/-- `pop_n` takes the last values of the last entry. -/
theorem settled_popN (h : Inv t s) : Settled t s (.popN n) := by
  rcases List.eq_nil_or_concat' s with rfl | ⟨front, e, rfl⟩
  · have hstep : step t [] (.popN n) =
        ([], if t.debugAssertions then none else some (.range none)) := by
      cases hdebug : t.debugAssertions <;> simp [step, popN_nil, hdebug]
    exact settled_empty hstep (fun _ => id) (by simp [Answer.Has]) (by simp) (by simp [Careful])
  · have hcareful : Careful t (front ++ [e]) (.popN n) ↔
        n ≤ e.len ∨ e.start = 0 ∨ e.len = 0 := by
      simp [Careful]
    rcases Nat.lt_or_ge e.len n with hlt | hle
    · have hstep : step t (front ++ [e]) (.popN n) =
          (front ++ [], some (.range (some ⟨e.start, e.len⟩))) := by
        simp [step, popN_concat_lt hlt]
      exact settled_removed h hstep (fun _ => id)
        (hcareful.trans (or_iff_right (not_le.mpr hlt)))
    · refine settled_shortened h hle ?_ (fun _ => id) (hcareful.mpr (Or.inl hle))
      simp [step, popN_concat hle]

/-- `pop_exact` takes the last values of the entry it finds. -/
theorem settled_popExact (h : Inv t s) : Settled t s (.popExact n) := by
  cases hfind : s.find n with
  | none =>
      have hstep : step t s (.popExact n) = (s, some (.range none)) := by
        simp [step, popExact, hfind]
      have hcareful : Careful t s (.popExact n) :=
        fun i _ hi => absurd hi.fits (not_fits_of_find hfind i)
      refine ⟨iff_of_true ?_ hcareful, fun _ e he => ?_⟩
      · rw [conserved_of_step hstep]
        exact conserves_nothing h.ordered (fun _ => id) (by simp [Answer.Has]) (by simp)
      · rw [hstep] at he
        exact h.bounded e he
  | some i =>
      have hpicked : s.Picked n i := picked_of_find hfind
      obtain ⟨e, he, hn⟩ := hpicked.fits
      obtain ⟨front, back, rfl, rfl⟩ := exists_place he
      have hcareful : Careful t (front ++ e :: back) (.popExact n) ↔
          e.len ≠ n ∨ e.start = 0 ∨ n = 0 := by
        constructor
        · exact fun hcareful => hcareful front.length e hpicked he
        · intro hcond i e' hi he'
          obtain rfl := hpicked.unique hi
          obtain rfl := Option.some.inj (he.symm.trans he')
          exact hcond
      by_cases hlen : e.len = n
      · have hstep : step t (front ++ e :: back) (.popExact n) =
            (front ++ back, some (.range (some ⟨e.start, e.len⟩))) := by
          simp [step, popExact, hfind, takeAt, hlen, remove_place]
        refine settled_removed h hstep (fun _ => id) ?_
        rw [hcareful, hlen, or_iff_right (not_not.mpr rfl)]
      · refine settled_shortened h hn ?_ (fun _ => id) (hcareful.mpr (Or.inl hlen))
        simp [step, popExact, hfind, takeAt, hlen]

end Pop

/-! ### Runs -/

section Run

variable {op : Op} {ops : List Op}

theorem settled (h : Inv t s) (hallowed : Allowed t s op) : Settled t s op := by
  cases op with
  | push range => exact settled_push h hallowed
  | pop => exact settled_pop h
  | popN n => exact settled_popN h
  | popExact n => exact settled_popExact h

theorem Inv.step (h : Inv t s) (hallowed : Allowed t s op) (hcareful : Careful t s op) :
    Inv t (step t s op).1 := by
  obtain ⟨answer, -, hcons⟩ := (settled h hallowed).conserved.mpr hcareful
  exact ⟨hcons.ordered, (settled h hallowed).bounded hcareful⟩

theorem inv_allocated : Inv t allocated where
  ordered := ⟨List.Pairwise.nil, List.Pairwise.nil⟩
  bounded _ he := absurd he List.not_mem_nil

theorem inv_new : Inv t (new t) where
  ordered := ⟨List.pairwise_singleton _ _, List.pairwise_singleton _ _⟩
  bounded e he := by
    obtain rfl := List.mem_singleton.mp he
    exact ⟨Nat.zero_le _, (Nat.zero_add _).le⟩

/-- **Conservation.** In a run from a new vector or an allocated one, every call conserves the
values exactly if every call is careful. -/
theorem conserved_run_iff (hs : s = new t ∨ s = allocated)
    (hallowed : (machine t).EachStep (Allowed t) s ops) :
    (machine t).EachStep (Conserved t) s ops ↔ (machine t).EachStep (Careful t) s ops := by
  have hinv : Inv t s := by
    rcases hs with rfl | rfl
    · exact inv_new
    · exact inv_allocated
  exact Machine.eachStep_congr_of_guard (fun s op h hallowed => (settled h hallowed).conserved)
    (fun s op h hallowed hcareful => h.step hallowed hcareful) hinv hallowed

/-- A range from 0 on can be taken piece by piece. -/
theorem conserved_run_pieces :
    (machine ⟨64, true⟩).EachStep (Conserved ⟨64, true⟩) allocated
      [.push ⟨0, 4⟩, .popN 2, .popExact 2] := by
  have hpush : step ⟨64, true⟩ allocated (.push ⟨0, 4⟩) = ([⟨0, 4⟩], some (.pushed true)) := by
    decide +kernel
  have hpop : step ⟨64, true⟩ [⟨0, 4⟩] (.popN 2) =
      ([⟨0, 2⟩], some (.range (some ⟨2, 4⟩))) := by decide
  have hallowed : (machine ⟨64, true⟩).EachStep (Allowed ⟨64, true⟩) allocated
      [.push ⟨0, 4⟩, .popN 2, .popExact 2] :=
    ⟨⟨by decide, by decide, by simp [Stored, allocated]⟩, trivial, trivial, trivial⟩
  have hpushed : Careful ⟨64, true⟩ allocated (.push ⟨0, 4⟩) := by
    simp [Careful, allocated, before]
  have hpopped : Careful ⟨64, true⟩ [⟨0, 4⟩] (.popN 2) := by simp [Careful]
  have htaken : Careful ⟨64, true⟩ [⟨0, 2⟩] (.popExact 2) := by
    intro i e _ he
    obtain rfl := List.mem_singleton.mp (List.mem_of_getElem? he)
    exact Or.inr (Or.inl rfl)
  refine (conserved_run_iff (Or.inr rfl) hallowed).mpr ⟨hpushed, ?_⟩
  simpa [machine, hpush, hpop] using ⟨hpopped, htaken⟩

/-- The value 6 is not in 3..6, and `pop` answers with it. -/
theorem pop_answers_stop :
    (machine ⟨64, true⟩).EachStep (Allowed ⟨64, true⟩) allocated [.push ⟨3, 6⟩, .pop] ∧
      ¬ (machine ⟨64, true⟩).EachStep (Conserved ⟨64, true⟩) allocated [.push ⟨3, 6⟩, .pop] := by
  have hpush : step ⟨64, true⟩ allocated (.push ⟨3, 6⟩) = ([⟨3, 3⟩], some (.pushed true)) := by
    decide +kernel
  have hpop : step ⟨64, true⟩ [⟨3, 3⟩] .pop = ([⟨3, 2⟩], some (.value (some 6))) := by decide
  refine ⟨⟨⟨by decide, by decide, by simp [Stored, allocated]⟩, trivial, trivial⟩, ?_⟩
  rintro ⟨-, hconserved, -⟩
  have hafter : Conserved ⟨64, true⟩ [⟨3, 3⟩] .pop := by
    simpa [machine, hpush] using hconserved
  obtain ⟨e, he, hhas⟩ := ((conserved_of_step hpop).mp hafter).taken 6 rfl
  obtain rfl := List.mem_singleton.mp he
  exact absurd hhas (by decide)

end Run

/-! ## The two searches -/

/-- All ranges of `n` values are behind the full blocks, or none is, and the last one is the only
one of its block. -/
def Aligned (s : SortedCompactVec) (n : ℕ) : Prop :=
  (∀ j, s.Fits n j → s.full ≤ j) ∨
    ∀ i, s.Last n i → i < s.full ∧ ∀ j, s.Fits n j → j / lanes = i / lanes → j = i

/-- Nothing depends on which of the two ranges is taken: all from the one to the other are equal
and are removed, or nothing is taken and they end at the same value. -/
def Interchangeable (t : SortedElement) (s : SortedCompactVec) (n i j : ℕ) : Prop :=
  ∃ a b, s[i]? = some a ∧ s[j]? = some b ∧
    (a.len = n ∧ (∀ k, i ≤ k → k ≤ j → s[k]? = some a) ∨
      n = 0 ∧ a.len ≠ 0 ∧ b.len ≠ 0 ∧ a.stop t = b.stop t)

/-- The two searches are led to one range. -/
theorem aligned_iff (hpicked : s.Picked n i) (hlast : s.Last n j) : s.Aligned n ↔ i = j := by
  have hij : i ≤ j := hlast.last i hpicked.fits
  constructor
  · rintro (hbehind | honly)
    · exact le_antisymm hij (hpicked.behind (hbehind i hpicked.fits) j hlast.fits).2
    · obtain ⟨hj, honly⟩ := honly j hlast
      refine honly i hpicked.fits (le_antisymm (Nat.div_le_div_right hij) ?_)
      exact hpicked.inBlock (hij.trans_lt hj) j hj hlast.fits
  · rintro rfl
    rcases Nat.lt_or_ge i s.full with hi | hi
    · refine Or.inr fun k hk => ?_
      obtain rfl := hlast.unique hk
      refine ⟨hi, fun j hj hblock => le_antisymm (hlast.last j hj) ?_⟩
      exact hpicked.first hi j ((hlast.last j hj).trans_lt hi) hj hblock
    · exact Or.inl fun j hj => (hpicked.behind hi j hj).1

theorem takeAt_of_eq (he : s[i]? = some e) (hn : e.len = n) :
    takeAt t s n i = (s.eraseIdx i, some (some ⟨e.start, e.len⟩)) := by
  simp [takeAt, remove, he, hn]

theorem takeAt_of_ne (he : s[i]? = some e) (hn : e.len ≠ n) :
    takeAt t s n i = shrink t s i e n := by
  simp [takeAt, he, hn]

theorem shrink_fst : (shrink t s i e n).1 = s.set i { e with len := e.len - n } := rfl

/-- A call that takes nothing tells where the range ends. -/
theorem shrink_zero_iff (ha : s[i]? = some a) (hb : s[j]? = some b) :
    shrink t s i a 0 = shrink t s j b 0 ↔ a.stop t = b.stop t := by
  have hset : ∀ {i a}, s[i]? = some a → s.set i a = s := by
    intro i a h
    obtain ⟨hi, rfl⟩ := List.getElem?_eq_some_iff.mp h
    exact List.set_getElem_self hi
  simp only [shrink, Nat.sub_zero, hset ha, hset hb, Prod.mk.injEq, true_and]
  cases hstop : a.stop t with
  | none =>
      cases hstop' : b.stop t with
      | none => simp
      | some v' =>
          obtain ⟨u', hu'⟩ := Option.isSome_iff_exists.mp (SortedElement.add_zero_isSome hstop')
          simp [hu']
  | some v =>
      obtain ⟨u, hu⟩ := Option.isSome_iff_exists.mp (SortedElement.add_zero_isSome hstop)
      cases hstop' : b.stop t with
      | none => simp [hu]
      | some v' =>
          obtain ⟨u', hu'⟩ := Option.isSome_iff_exists.mp (SortedElement.add_zero_isSome hstop')
          constructor
          · intro h
            simp_all
          · rintro ⟨⟩
            rfl

theorem interchangeable_iff (hi : s[i]? = some a) (hj : s[j]? = some b) :
    Interchangeable t s n i j ↔ a.len = n ∧ (∀ k, i ≤ k → k ≤ j → s[k]? = some a) ∨
      n = 0 ∧ a.len ≠ 0 ∧ b.len ≠ 0 ∧ a.stop t = b.stop t := by
  simp [Interchangeable, hi, hj]

/-- Shrinking two different ranges leaves the same only if nothing is taken. -/
theorem eq_zero_of_shrink (hi : s[i]? = some a) (ha : n ≤ a.len) (hij : i ≠ j)
    (h : shrink t s i a n = shrink t s j b n) : n = 0 := by
  have hset := congrArg (fun r => r.1[i]?) h
  obtain ⟨hlt, -⟩ := List.getElem?_eq_some_iff.mp hi
  simp only [shrink_fst, List.getElem?_set_self hlt, List.getElem?_set_ne hij.symm, hi,
    Option.some.injEq] at hset
  have hlen : a.len - n = a.len := congrArg RangeRef.len hset
  omega

/-- What a call does with one range and with another. Removing one and shrinking the other do
not come to the same. -/
theorem takeAt_eq_iff (hi : s[i]? = some a) (hj : s[j]? = some b) (ha : n ≤ a.len)
    (hij : i < j) : takeAt t s n i = takeAt t s n j ↔ Interchangeable t s n i j := by
  rw [interchangeable_iff hi hj]
  obtain ⟨hlt, -⟩ := List.getElem?_eq_some_iff.mp hi
  obtain ⟨hlt', -⟩ := List.getElem?_eq_some_iff.mp hj
  by_cases han : a.len = n <;> by_cases hbn : b.len = n
  -- both are removed
  · rw [takeAt_of_eq hi han, takeAt_of_eq hj hbn]
    constructor
    · intro h
      obtain ⟨herase, -⟩ := Prod.mk.inj h
      refine Or.inl ⟨han, fun k hik hkj => ?_⟩
      exact ((eraseIdx_eq_iff hij.le).mp herase k hik hkj).trans hi
    · rintro (⟨-, hrun⟩ | ⟨hzero, hane, -⟩)
      · have heq : a = b := Option.some.inj ((hrun j hij.le le_rfl).symm.trans hj)
        subst heq
        rw [(eraseIdx_eq_iff hij.le).mpr fun k hik hkj => (hrun k hik hkj).trans hi.symm]
      · exact absurd (han.trans hzero) hane
  -- one is removed: the lengths differ
  · rw [takeAt_of_eq hi han, takeAt_of_ne hj hbn]
    refine iff_of_false (fun h => ?_) ?_
    · have hlength := congrArg (fun r => r.1.length) h
      simp only [shrink_fst, List.length_set, List.length_eraseIdx_of_lt hlt] at hlength
      omega
    · rintro (⟨-, hrun⟩ | ⟨hzero, hane, -⟩)
      · have heq : a = b := Option.some.inj ((hrun j hij.le le_rfl).symm.trans hj)
        exact hbn (heq ▸ han)
      · exact hane (han.trans hzero)
  · rw [takeAt_of_ne hi han, takeAt_of_eq hj hbn]
    refine iff_of_false (fun h => ?_) ?_
    · have hlength := congrArg (fun r => r.1.length) h
      simp only [shrink_fst, List.length_set, List.length_eraseIdx_of_lt hlt'] at hlength
      omega
    · rintro (⟨han', -⟩ | ⟨hzero, -, hbne, -⟩)
      · exact han han'
      · exact hbne (hbn.trans hzero)
  -- both are shortened
  · rw [takeAt_of_ne hi han, takeAt_of_ne hj hbn]
    constructor
    · intro h
      obtain rfl := eq_zero_of_shrink hi ha hij.ne h
      exact Or.inr ⟨rfl, han, hbn, (shrink_zero_iff hi hj).mp h⟩
    · rintro (⟨han', -⟩ | ⟨rfl, -, -, hstop⟩)
      · exact absurd han' han
      · exact (shrink_zero_iff hi hj).mpr hstop

/-- The calls, by what the searches are led to. -/
theorem popExact_eq_iff (hpicked : s.Picked n i) (hlast : s.Last n j) :
    popExact t s n = popExactSlow t s n ↔ s.Aligned n ∨ Interchangeable t s n i j := by
  have hfind : s.find n = some i := find_eq_some_iff.mpr hpicked
  have hslow : s.findSlow n = some j := findSlow_eq_some_iff.mpr hlast
  rw [aligned_iff hpicked hlast, popExact, popExactSlow, hfind, hslow]
  rcases (hlast.last i hpicked.fits).eq_or_lt with rfl | hij
  · simp
  · obtain ⟨a, hi, ha⟩ := hpicked.fits
    obtain ⟨b, hj, -⟩ := hlast.fits
    simp only [takeAt_eq_iff hi hj ha hij, hij.ne, false_or]

/-- Both searches find a range, or there is none of `n` values. -/
theorem searches_find (s : SortedCompactVec) (n : ℕ) :
    (∀ j, ¬ s.Fits n j) ∨ ∃ i j, s.Picked n i ∧ s.Last n j := by
  cases hfind : s.find n with
  | none => exact Or.inl (not_fits_of_find hfind)
  | some i =>
      have hpicked := picked_of_find hfind
      cases hslow : s.findSlow n with
      | none => exact absurd hpicked.fits (not_fits_of_findSlow hslow i)
      | some j => exact Or.inr ⟨i, j, hpicked, last_of_findSlow hslow⟩

/-- Where there is no range of `n` values both calls answer with nothing. -/
theorem popExact_eq_of_none (h : ∀ j, ¬ s.Fits n j) : popExact t s n = popExactSlow t s n := by
  have hfind : s.find n = none :=
    Option.eq_none_iff_forall_ne_some.mpr fun i hi => h i (picked_of_find hi).fits
  have hslow : s.findSlow n = none :=
    Option.eq_none_iff_forall_ne_some.mpr fun j hj => h j (last_of_findSlow hj).fits
  rw [popExact, popExactSlow, hfind, hslow]

/-- **The two searches.** `pop_exact` and `pop_exact_slow` answer the same and leave the same
ranges exactly if both searches are led to one range, or to two that nothing depends on. -/
theorem searches_agree_iff (t : SortedElement) (s : SortedCompactVec) (n : ℕ) :
    popExact t s n = popExactSlow t s n ↔
      s.Aligned n ∨ ∃ i j, s.Picked n i ∧ s.Last n j ∧ Interchangeable t s n i j := by
  rcases searches_find s n with hnone | ⟨i, j, hpicked, hlast⟩
  · exact iff_of_true (popExact_eq_of_none hnone) (Or.inl (Or.inl fun j hj => absurd hj (hnone j)))
  · rw [popExact_eq_iff hpicked hlast]
    refine or_congr_right ⟨fun h => ⟨i, j, hpicked, hlast, h⟩, ?_⟩
    rintro ⟨i', j', hi', hj', h⟩
    rwa [hpicked.unique hi', hlast.unique hj']

/-- No two ranges of a vector in order are interchangeable. -/
theorem not_interchangeable (h : Inv t s) (hij : i < j) : ¬ Interchangeable t s n i j := by
  rintro ⟨a, b, hi, hj, hcase⟩
  obtain ⟨hlt, rfl⟩ := List.getElem?_eq_some_iff.mp hi
  obtain ⟨hlt', rfl⟩ := List.getElem?_eq_some_iff.mp hj
  rcases hcase with ⟨-, hrun⟩ | ⟨-, hane, hbne, hstop⟩
  · have hstart := h.ordered.increasing.get_lt hlt hlt' hij
    have hsame : s[i] = s[j] := Option.some.inj ((hrun j hij.le le_rfl).symm.trans hj)
    rw [hsame] at hstart
    exact lt_irrefl _ hstart
  · rw [stop_of_le (h.bounded _ (List.getElem_mem hlt)).2,
      stop_of_le (h.bounded _ (List.getElem_mem hlt')).2, Option.some.injEq] at hstop
    -- the last value of both
    have hdisjoint := List.pairwise_iff_getElem.mp h.ordered.disjoint i j hlt hlt' hij
    refine hdisjoint (s[i].start + s[i].len - 1) ?_ ?_
    · simp only [RangeRef.Has]
      omega
    · simp only [RangeRef.Has]
      omega

/-- In a vector in order, as the careful runs leave it, the calls agree exactly if both searches
are led to one range. -/
theorem popExact_eq_iff_aligned (h : Inv t s) :
    popExact t s n = popExactSlow t s n ↔ s.Aligned n := by
  rcases searches_find s n with hnone | ⟨i, j, hpicked, hlast⟩
  · exact iff_of_true (popExact_eq_of_none hnone) (Or.inl fun j hj => absurd hj (hnone j))
  · rw [popExact_eq_iff hpicked hlast, aligned_iff hpicked hlast]
    rcases (hlast.last i hpicked.fits).eq_or_lt with rfl | hij
    · simp
    · exact or_iff_left (not_interchangeable h hij)

/-- A full block of ranges with one value each: the search takes the first, not the last. -/
theorem searches_disagree :
    popExact ⟨64, true⟩ ((List.range 64).map fun k => ⟨3 * k, 1⟩) 1 ≠
      popExactSlow ⟨64, true⟩ ((List.range 64).map fun k => ⟨3 * k, 1⟩) 1 := by
  decide

end SortedCompactVec

end OnionNetwork.Storage
