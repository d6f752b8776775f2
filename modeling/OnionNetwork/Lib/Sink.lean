import Mathlib.Data.List.Basic

/-!
# Sinks

What takes items, one or many at a time. A program that is given for every sink makes the
same calls into each of them (`Writes`); what becomes of the calls is a matter of the sink
alone. A sink `Accepts` what keeps its contents within some bound; beyond it the sink
refuses the call or panics.
-/

namespace OnionNetwork.Lib

variable {α S : Type}

/-- Calls that change a sink: they panic, are refused, or are accepted. -/
abbrev SinkM (S : Type) := OptionT (StateT S Option)

/-- A call as what it does. -/
def SinkM.of (f : S → Option (Option Unit × S)) : SinkM S Unit := OptionT.mk f

/-- How a call ends, and the sink behind it. -/
def SinkM.runOn (x : SinkM S Unit) (s : S) : Option (Option Unit × S) :=
  StateT.run (OptionT.run x) s

/-- A sink: items are pushed one by one where nothing else is said. -/
class Sink (α : outParam Type) (S : Type) where
  push : α → SinkM S Unit
  extendFromSlice : List α → SinkM S Unit := fun l => l.forM push

/-- One call. -/
inductive Write (α : Type)
  | push (a : α)
  | extendFromSlice (l : List α)

namespace Write

/-- What a call writes. -/
def items : Write α → List α
  | push a => [a]
  | extendFromSlice l => l

/-- What calls write. -/
def allItems (ws : List (Write α)) : List α := ws.flatMap items

/-- The call. -/
def perform [Sink α S] : Write α → SinkM S Unit
  | push a => Sink.push a
  | extendFromSlice l => Sink.extendFromSlice l

/-- The calls, up to the first one that is refused. -/
def performAll [Sink α S] (ws : List (Write α)) : SinkM S Unit := ws.forM perform

@[simp] theorem allItems_nil : allItems ([] : List (Write α)) = [] := rfl

@[simp] theorem allItems_cons (w : Write α) (ws : List (Write α)) :
    allItems (w :: ws) = w.items ++ allItems ws := rfl

@[simp] theorem allItems_append (ws us : List (Write α)) :
    allItems (ws ++ us) = allItems ws ++ allItems us := List.flatMap_append

theorem performAll_append [Sink α S] (ws us : List (Write α)) :
    (performAll (ws ++ us) : SinkM S Unit) = (do performAll ws; performAll us) :=
  List.forM_append

end Write

open Write

namespace SinkM

variable {x y : SinkM S Unit} {s s' : S}

@[simp] theorem runOn_of (f : S → Option (Option Unit × S)) (s : S) : (of f).runOn s = f s := rfl

theorem runOn_bind_ok (h : x.runOn s = some (some (), s')) :
    (do x; y : SinkM S Unit).runOn s = y.runOn s' := by
  show (StateT.run (OptionT.run x) s).bind _ = _
  rw [show StateT.run (OptionT.run x) s = some (some (), s') from h]
  rfl

theorem runOn_bind_refused (h : x.runOn s = some (none, s')) :
    (do x; y : SinkM S Unit).runOn s = some (none, s') := by
  show (StateT.run (OptionT.run x) s).bind _ = _
  rw [show StateT.run (OptionT.run x) s = some (none, s') from h]
  rfl

theorem runOn_bind_panic (h : x.runOn s = none) : (do x; y : SinkM S Unit).runOn s = none := by
  show (StateT.run (OptionT.run x) s).bind _ = _
  rw [show StateT.run (OptionT.run x) s = none from h]
  rfl

end SinkM

/-! ### Programs for every sink -/

/-- The program makes the same calls into every sink, and they write the items. -/
def Writes (prog : ∀ (S : Type) [Sink α S], SinkM S Unit) (l : List α) : Prop :=
  ∃ ws : List (Write α), allItems ws = l ∧ ∀ (S : Type) [Sink α S], prog S = performAll ws

namespace Writes

variable {prog prog' : ∀ (S : Type) [Sink α S], SinkM S Unit} {l l' : List α}

theorem pure : Writes (fun (S : Type) [Sink α S] => (Pure.pure () : SinkM S Unit)) [] :=
  ⟨[], rfl, fun _ _ => rfl⟩

theorem push (a : α) : Writes (fun (S : Type) [Sink α S] => (Sink.push a : SinkM S Unit)) [a] :=
  ⟨[.push a], rfl, fun _ _ => (bind_pure _).symm⟩

theorem extendFromSlice (l : List α) :
    Writes (fun (S : Type) [Sink α S] => (Sink.extendFromSlice l : SinkM S Unit)) l :=
  ⟨[.extendFromSlice l], List.append_nil l, fun _ _ => (bind_pure _).symm⟩

/-- One program behind the other. -/
theorem seq (h : Writes prog l) (h' : Writes prog' l') :
    Writes (fun (S : Type) [Sink α S] => (do prog S; prog' S : SinkM S Unit)) (l ++ l') := by
  obtain ⟨ws, rfl, hws⟩ := h
  obtain ⟨us, rfl, hus⟩ := h'
  refine ⟨ws ++ us, allItems_append ws us, fun S _ => ?_⟩
  show (do prog S; prog' S) = _
  rw [performAll_append, hws S, hus S]

/-- A loop over the parts of a value. -/
theorem forM {β : Type} {f : β → ∀ (S : Type) [Sink α S], SinkM S Unit} {g : β → List α} :
    ∀ {parts : List β}, (∀ b ∈ parts, Writes (f b) (g b)) →
      Writes (fun (S : Type) [Sink α S] => (parts.forM fun b => f b S : SinkM S Unit))
        (parts.flatMap g)
  | [], _ => pure
  | _ :: _, h =>
      seq (h _ List.mem_cons_self) (forM fun b hb => h b (List.mem_cons_of_mem _ hb))

end Writes

/-! ### What a sink does with calls -/

section Kinds

variable (Rep : S → List α → Prop) (ok : List α → Prop)

/-- A call writes the items wherever the contents stay within the bound. -/
def Appends (x : SinkM S Unit) (m : List α) : Prop :=
  ∀ s l, Rep s l → ok (l ++ m) → ∃ s', x.runOn s = some (some (), s') ∧ Rep s' (l ++ m)

variable [Sink α S]

/-- A call is accepted if the contents stay within the bound, which holds of less, too. -/
structure Accepts : Prop where
  of_append : ∀ l m, ok (l ++ m) → ok l
  write : ∀ w : Write α, Appends Rep ok (w.perform : SinkM S Unit) w.items

/-- A call beyond the bound is refused, and leaves the contents. -/
def Refuses : Prop :=
  ∀ (w : Write α) s l, Rep s l → ¬ ok (l ++ w.items) →
    ∃ s', (w.perform : SinkM S Unit).runOn s = some (none, s') ∧ Rep s' l

/-- A call beyond the bound is a panic. -/
def Panics : Prop :=
  ∀ (w : Write α) s l, Rep s l → ¬ ok (l ++ w.items) → (w.perform : SinkM S Unit).runOn s = none

end Kinds

section Calls

variable {Rep : S → List α → Prop} {ok : List α → Prop}

/-- Calls one behind the other. -/
theorem Appends.forM {β : Type} {f : β → SinkM S Unit} {g : β → List α}
    (hle : ∀ l m, ok (l ++ m) → ok l) (hf : ∀ b, Appends Rep ok (f b) (g b)) (parts : List β) :
    Appends Rep ok (parts.forM f) (parts.flatMap g) := by
  induction parts with
  | nil =>
      intro s l hs _
      exact ⟨s, rfl, by rwa [List.flatMap_nil, List.append_nil]⟩
  | cons b parts ih =>
      intro s l hs hok
      rw [List.flatMap_cons, ← List.append_assoc] at hok ⊢
      obtain ⟨t, ht, hrep⟩ := hf b s l hs (hle _ _ hok)
      obtain ⟨s', hs', hrep'⟩ := ih t _ hrep hok
      exact ⟨s', (SinkM.runOn_bind_ok ht).trans hs', hrep'⟩

variable [Sink α S] {ws : List (Write α)} {s : S} {l : List α}

theorem Accepts.all (h : Accepts Rep ok) (ws : List (Write α)) :
    Appends Rep ok (performAll ws : SinkM S Unit) (allItems ws) :=
  Appends.forM h.of_append h.write ws

/-- Calls that do not fit: the sink is left with what the first ones of them wrote. -/
theorem Accepts.all_refused (h : Accepts Rep ok) (hr : Refuses Rep ok) (hs : Rep s l)
    (hl : ok l) (hok : ¬ ok (l ++ allItems ws)) :
    ∃ s' m, (performAll ws : SinkM S Unit).runOn s = some (none, s') ∧ Rep s' (l ++ m) ∧
      m <+: allItems ws := by
  induction ws generalizing s l with
  | nil => exact absurd (by rwa [allItems_nil, List.append_nil]) hok
  | cons w ws ih =>
      rw [allItems_cons, ← List.append_assoc] at hok
      by_cases hw : ok (l ++ w.items)
      · obtain ⟨t, ht, hrep⟩ := h.write w s l hs hw
        obtain ⟨s', m, hs', hrep', hm⟩ := ih hrep hw hok
        rw [List.append_assoc] at hrep'
        exact ⟨s', w.items ++ m, (SinkM.runOn_bind_ok ht).trans hs', hrep',
          List.prefix_append_right_inj _ |>.mpr hm⟩
      · obtain ⟨s', ht, hrep⟩ := hr w s l hs hw
        exact ⟨s', [], SinkM.runOn_bind_refused ht, by rwa [List.append_nil], List.nil_prefix⟩

theorem Accepts.all_panics (h : Accepts Rep ok) (hp : Panics Rep ok) (hs : Rep s l)
    (hl : ok l) (hok : ¬ ok (l ++ allItems ws)) :
    (performAll ws : SinkM S Unit).runOn s = none := by
  induction ws generalizing s l with
  | nil => exact absurd (by rwa [allItems_nil, List.append_nil]) hok
  | cons w ws ih =>
      rw [allItems_cons, ← List.append_assoc] at hok
      by_cases hw : ok (l ++ w.items)
      · obtain ⟨t, ht, hrep⟩ := h.write w s l hs hw
        exact (SinkM.runOn_bind_ok ht).trans (ih hrep hw hok)
      · exact SinkM.runOn_bind_panic (hp w s l hs hw)

end Calls

/-! ### Programs and sinks -/

section Programs

variable [Sink α S] {Rep : S → List α → Prop} {ok : List α → Prop} {s : S} {l m : List α}
  {prog : ∀ (S : Type) [Sink α S], SinkM S Unit}

theorem Writes.accepted (h : Writes prog m) (ha : Accepts Rep ok) : Appends Rep ok (prog S) m := by
  obtain ⟨ws, rfl, hws⟩ := h
  rw [hws S]
  exact ha.all ws

theorem Writes.refused (h : Writes prog m) (ha : Accepts Rep ok) (hr : Refuses Rep ok)
    (hs : Rep s l) (hl : ok l) (hok : ¬ ok (l ++ m)) :
    ∃ s' p, (prog S).runOn s = some (none, s') ∧ Rep s' (l ++ p) ∧ p <+: m := by
  obtain ⟨ws, rfl, hws⟩ := h
  rw [hws S]
  exact ha.all_refused hr hs hl hok

theorem Writes.panics (h : Writes prog m) (ha : Accepts Rep ok) (hp : Panics Rep ok)
    (hs : Rep s l) (hl : ok l) (hok : ¬ ok (l ++ m)) : (prog S).runOn s = none := by
  obtain ⟨ws, rfl, hws⟩ := h
  rw [hws S]
  exact ha.all_panics hp hs hl hok

end Programs

end OnionNetwork.Lib
