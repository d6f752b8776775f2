import Mathlib.Data.Set.Basic
import OnionNetwork.Lib.Machine
import Mathlib.Data.List.Perm.Basic
import Mathlib.Logic.Function.Basic

/-!
# Machines that send each other messages

A network runs one machine per node. A node handles requests from outside and
messages from other nodes; what it emits goes to each of its peers as a packet.
Packets wait in the network until they are delivered, each at most once, after
any delay and in any order, or lost. The schedule is the list of actions, so a
network is a machine again and the run rules apply to it.

* `step_cases` — an action makes one node handle one input, or loses a packet;
* `inbox` — the messages on their way to a node, and what the two kinds of
  steps do to it;
* `run_inputs` — requests that make a node emit nothing run its machine alone.

Who listens on a network derives messages from the ones it knows, by rules that are a
parameter (the public operations of a term algebra).

* `Derivable.mono` — more knowledge derives more;
* `Derivable.mem_of_closed` — the closed-set method: a set that contains what is
  known and is closed under the rules contains everything derivable, so a message
  outside of it stays secret.
-/

/-! ## What an attacker can derive -/

namespace OnionNetwork.Lib

/-- What follows from `known` by the rules. -/
inductive Derivable {M : Type*} (Rule : List M → M → Prop) (known : Set M) : M → Prop
  | known {m : M} : m ∈ known → Derivable Rule known m
  | rule {premises : List M} {m : M} : Rule premises m →
      (∀ p ∈ premises, Derivable Rule known p) → Derivable Rule known m

namespace Derivable

variable {M : Type*} {Rule : List M → M → Prop} {known known' : Set M} {m : M}

theorem mono (hsub : known ⊆ known') (h : Derivable Rule known m) : Derivable Rule known' m := by
  induction h with
  | known hm => exact .known (hsub hm)
  | rule hrule _ ih => exact .rule hrule ih

/-- **The closed-set method.** -/
theorem mem_of_closed {closed : Set M} (hknown : known ⊆ closed)
    (hclosed : ∀ premises m, Rule premises m → (∀ p ∈ premises, p ∈ closed) → m ∈ closed)
    (h : Derivable Rule known m) : m ∈ closed := by
  induction h with
  | known hm => exact hknown hm
  | rule hrule _ ih => exact hclosed _ _ hrule ih

/-- A rule without premises. -/
theorem rule₀ (h : Rule [] m) : Derivable Rule known m :=
  .rule h fun _ hp => absurd hp List.not_mem_nil

/-- A rule with one premise. -/
theorem rule₁ {p : M} (h : Rule [p] m) (hp : Derivable Rule known p) : Derivable Rule known m :=
  .rule h fun _ hmem => List.mem_singleton.mp hmem ▸ hp

/-- A rule with two premises. -/
theorem rule₂ {p q : M} (h : Rule [p, q] m) (hp : Derivable Rule known p)
    (hq : Derivable Rule known q) : Derivable Rule known m := by
  refine .rule h fun r hr => ?_
  rcases List.mem_cons.mp hr with rfl | hr
  · exact hp
  · exact List.mem_singleton.mp hr ▸ hq

end Derivable

end OnionNetwork.Lib

/-! ## Machines that send each other messages -/

namespace OnionNetwork.Lib

/-- A message on its way. -/
structure Packet (N μ : Type*) where
  dest : N
  origin : N
  body : μ

/-- The nodes and the packets in flight. -/
structure Net (N σ μ : Type*) where
  node : N → σ
  packets : List (Packet N μ)

/-- One move of the schedule; packets are named by their position. -/
inductive NetAction (N κ : Type*)
  | input (n : N) (request : κ)
  | deliver (k : Nat)
  | lose (k : Nat)

/-- What runs at the nodes and how they are connected. -/
structure Network (N σ κ ι ο μ : Type*) where
  machine : N → Machine σ ι ο
  request : κ → ι
  receive : N → μ → ι
  emit : ο → Option μ
  peers : N → List N
  peers_nodup : ∀ n, (peers n).Nodup
  self_notMem : ∀ n, n ∉ peers n

variable {N σ κ ι ο μ : Type*} [DecidableEq N]

/-- The messages on their way to a node. -/
def inbox (packets : List (Packet N μ)) (n : N) : List μ :=
  packets.filterMap fun p => if p.dest = n then some p.body else none

@[simp] theorem inbox_nil (n : N) : inbox ([] : List (Packet N μ)) n = [] := rfl

@[simp] theorem inbox_append (ps qs : List (Packet N μ)) (n : N) :
    inbox (ps ++ qs) n = inbox ps n ++ inbox qs n :=
  List.filterMap_append

theorem inbox_cons_self {p : Packet N μ} (ps : List (Packet N μ)) {n : N} (h : p.dest = n) :
    inbox (p :: ps) n = p.body :: inbox ps n := by
  rw [inbox, List.filterMap_cons, if_pos h]
  rfl

theorem inbox_cons_ne {p : Packet N μ} (ps : List (Packet N μ)) {n : N} (h : p.dest ≠ n) :
    inbox (p :: ps) n = inbox ps n := by
  rw [inbox, List.filterMap_cons, if_neg h]
  rfl

theorem inbox_perm {ps qs : List (Packet N μ)} (h : ps.Perm qs) (n : N) :
    (inbox ps n).Perm (inbox qs n) :=
  h.filterMap _

theorem inbox_sublist {ps qs : List (Packet N μ)} (h : ps.Sublist qs) (n : N) :
    (inbox ps n).Sublist (inbox qs n) :=
  h.filterMap _

namespace Network

variable (w : Network N σ κ ι ο μ)

/-- The packets of an output: one for each peer. -/
def broadcast (n : N) (o : ο) : List (Packet N μ) :=
  match w.emit o with
  | some body => (w.peers n).map fun dest => { dest, origin := n, body }
  | none => []

/-- One node handles one input, the packets left are `rest`. -/
def handle (s : Net N σ μ) (n : N) (i : ι) (rest : List (Packet N μ)) :
    Net N σ μ × Option (N × ο) :=
  let r := (w.machine n).step (s.node n) i
  ({ node := Function.update s.node n r.1, packets := rest ++ w.broadcast n r.2 },
    some (n, r.2))

/-- One action. -/
def step (s : Net N σ μ) : NetAction N κ → Net N σ μ × Option (N × ο)
  | .input n request => w.handle s n (w.request request) s.packets
  | .deliver k =>
      match s.packets[k]? with
      | some p => w.handle s p.dest (w.receive p.origin p.body) (s.packets.eraseIdx k)
      | none => (s, none)
  | .lose k => ({ s with packets := s.packets.eraseIdx k }, none)

/-- The network as a machine; its output is who answered what. -/
def toMachine : Machine (Net N σ μ) (NetAction N κ) (Option (N × ο)) := ⟨w.step⟩

theorem step_deliver {s : Net N σ μ} {k : Nat} {p : Packet N μ} (h : s.packets[k]? = some p) :
    w.step s (.deliver k) =
      w.handle s p.dest (w.receive p.origin p.body) (s.packets.eraseIdx k) := by
  simp only [step, h]

/-- What an action comes to. -/
inductive StepCases (s : Net N σ μ) : NetAction N κ → Net N σ μ × Option (N × ο) → Prop
  | input (n : N) (request : κ) :
      StepCases s (.input n request) (w.handle s n (w.request request) s.packets)
  | delivered (k : Nat) (p : Packet N μ) (rest : List (Packet N μ))
      (hperm : s.packets.Perm (p :: rest)) :
      StepCases s (.deliver k) (w.handle s p.dest (w.receive p.origin p.body) rest)
  | quiet (a : NetAction N κ) (packets : List (Packet N μ)) (hsub : packets.Sublist s.packets) :
      StepCases s a ({ s with packets }, none)

theorem step_cases (s : Net N σ μ) (a : NetAction N κ) : w.StepCases s a (w.step s a) := by
  cases a with
  | input n request => exact .input n request
  | deliver k =>
      cases hk : s.packets[k]? with
      | none =>
          have hstep : w.step s (.deliver k) = (s, none) := by simp only [step, hk]
          rw [hstep]
          exact .quiet _ s.packets (List.Sublist.refl _)
      | some p =>
          rw [w.step_deliver hk]
          obtain ⟨hlt, hget⟩ := List.getElem?_eq_some_iff.mp hk
          refine .delivered k p _ ?_
          rw [← hget]
          exact (List.getElem_cons_eraseIdx_perm hlt).symm
  | lose k => exact .quiet _ _ (List.eraseIdx_sublist _ _)

/-- One copy of a message for each node of a list. -/
theorem inbox_copies {dests : List N} (hnodup : dests.Nodup) (origin : N) (body : μ) (m : N) :
    inbox (dests.map fun dest => (⟨dest, origin, body⟩ : Packet N μ)) m =
      if m ∈ dests then [body] else [] := by
  induction dests with
  | nil => rfl
  | cons d dests ih =>
      obtain ⟨hd, hrest⟩ := List.nodup_cons.mp hnodup
      rw [List.map_cons]
      by_cases hm : d = m
      · rw [inbox_cons_self _ hm, ih hrest, if_neg (hm ▸ hd), if_pos (hm ▸ List.mem_cons_self)]
      · rw [inbox_cons_ne _ hm, ih hrest]
        by_cases hin : m ∈ dests
        · rw [if_pos hin, if_pos (List.mem_cons_of_mem _ hin)]
        · rw [if_neg hin, if_neg]
          intro hcons
          rcases List.mem_cons.mp hcons with heq | hin'
          · exact hm heq.symm
          · exact hin hin'

/-- A peer gets what is emitted once, others get nothing. -/
theorem inbox_broadcast (n m : N) (o : ο) :
    inbox (w.broadcast n o) m = if m ∈ w.peers n then (w.emit o).toList else [] := by
  unfold broadcast
  cases w.emit o with
  | none => simp
  | some body => exact inbox_copies (w.peers_nodup n) n body m

/-- The record after an action. -/
def recordOf {γ : Type*} (upd : γ → N → ο → γ) (g : γ) : Option (N × ο) → γ
  | some (n, o) => upd g n o
  | none => g

/-- A network whose schedule is recorded with what the nodes answered. -/
def withRecord {γ : Type*} (upd : γ → N → ο → γ) :
    Machine (Net N σ μ × γ) (NetAction N κ) (Option (N × ο)) :=
  w.toMachine.withGhost fun g s a => recordOf upd g (w.step s a).2

theorem withRecord_step {γ : Type*} (upd : γ → N → ο → γ) (s : Net N σ μ × γ)
    (a : NetAction N κ) :
    ((w.withRecord upd).step s a).1 = ((w.step s.1 a).1, recordOf upd s.2 (w.step s.1 a).2) := rfl

/-- A request, once it is known what the node makes of it. -/
theorem withRecord_input {γ : Type*} (upd : γ → N → ο → γ) {s : Net N σ μ} {g : γ} (n : N)
    (request : κ) {st : σ} {o : ο}
    (h : (w.machine n).step (s.node n) (w.request request) = (st, o)) :
    ((w.withRecord upd).step (s, g) (.input n request)).1 =
      ({ node := Function.update s.node n st, packets := s.packets ++ w.broadcast n o },
        upd g n o) := by
  have hstep : w.step s (.input n request) =
      ({ node := Function.update s.node n st, packets := s.packets ++ w.broadcast n o },
        some (n, o)) := by
    simp only [step, handle, h]
  rw [withRecord_step, hstep]
  rfl

/-- A delivery, once it is known what the node makes of the message. -/
theorem withRecord_deliver {γ : Type*} (upd : γ → N → ο → γ) {s : Net N σ μ} {g : γ} {k : Nat}
    {p : Packet N μ} {st : σ} {o : ο} (hk : s.packets[k]? = some p)
    (h : (w.machine p.dest).step (s.node p.dest) (w.receive p.origin p.body) = (st, o)) :
    ((w.withRecord upd).step (s, g) (.deliver k)).1 =
      ({ node := Function.update s.node p.dest st
         packets := s.packets.eraseIdx k ++ w.broadcast p.dest o },
        upd g p.dest o) := by
  have hstep : w.step s (.deliver k) =
      ({ node := Function.update s.node p.dest st
         packets := s.packets.eraseIdx k ++ w.broadcast p.dest o },
        some (p.dest, o)) := by
    rw [w.step_deliver hk]
    simp only [handle, h]
  rw [withRecord_step, hstep]
  rfl

/-- Requests to one node that make it emit nothing, and whose answers change
nothing in the record, run the machine of that node and nothing else. -/
theorem run_inputs {γ : Type*} (upd : γ → N → ο → γ) (g : γ) (n : N) {s : Net N σ μ}
    {requests : List κ}
    (hsilent : (w.machine n).EachStep
      (fun st i => w.emit ((w.machine n).step st i).2 = none ∧
        upd g n ((w.machine n).step st i).2 = g)
      (s.node n) (requests.map w.request)) :
    (w.withRecord upd).run (s, g) (requests.map (.input n)) =
      ({ s with
          node := Function.update s.node n
            ((w.machine n).run (s.node n) (requests.map w.request)) }, g) := by
  induction requests generalizing s with
  | nil => simp
  | cons r requests ih =>
      obtain ⟨⟨hemit, hupd⟩, hrest⟩ := hsilent
      have hsent : w.broadcast n ((w.machine n).step (s.node n) (w.request r)).2 = [] := by
        rw [broadcast, hemit]
      set st := ((w.machine n).step (s.node n) (w.request r)).1 with hst
      have hstep : ((w.withRecord upd).step (s, g) (.input n r)).1 =
          ({ s with node := Function.update s.node n st }, g) := by
        show (({ node := Function.update s.node n st, packets := s.packets ++ _ } : Net N σ μ),
          upd g n _) = _
        rw [hsent, hupd, List.append_nil]
      have hself : ({ s with node := Function.update s.node n st } : Net N σ μ).node n = st :=
        Function.update_self _ _ _
      have hih := ih (s := { s with node := Function.update s.node n st })
        (by rw [hself]; exact hrest)
      rw [List.map_cons, Machine.run_cons, hstep, hih, hself]
      simp [hst]

end Network

end OnionNetwork.Lib
