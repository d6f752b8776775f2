import OnionNetwork.Lib.Machine
import Mathlib.Data.List.Basic
import Mathlib.Order.Nat

/-!
# Loops that read frames and handle events

A frame is a header of fixed size and a body whose length the header tells. The
loop waits for the next header or for an event, whichever comes first; the bytes
of a header that is not complete are held by the wait itself. When an event comes
first the wait is given up, and these bytes with it.

* `Sound` — the bytes that arrived are the frames read, the part of a frame at
  hand and the bytes not read yet: `sound_step` for every step that handles no
  event in the middle of a header;
* `headers_of_sound`, `frames_of_sound`, `complete_of_sound` — then the loop reads
  the frames that were sent.
-/

namespace OnionNetwork.Lib

/-- An array of fixed length. -/
structure Fixed (β : Type*) (n : Nat) where
  toList : List β
  length_eq : toList.length = n
  deriving DecidableEq

namespace Fixed

attribute [simp] length_eq

variable {β : Type*} {n : Nat}

theorem ext_toList {a b : Fixed β n} (h : a.toList = b.toList) : a = b := by
  cases a
  cases b
  cases h
  rfl

end Fixed

/-- Headers of fixed size that tell the length of a body. -/
structure FrameFormat (β Header : Type*) where
  headerLen : Nat
  headerLen_pos : 0 < headerLen
  fromArray : Fixed β headerLen → Header
  asBytes : Header → Fixed β headerLen
  fromArray_asBytes : ∀ h, fromArray (asBytes h) = h
  asBytes_fromArray : ∀ b, asBytes (fromArray b) = b
  bodyLen : Header → Nat

variable {β Header Event σ : Type*}

/-- A header with the body it announces. -/
structure Frame (fmt : FrameFormat β Header) where
  header : Header
  body : List β
  length_body : body.length = fmt.bodyLen header

namespace Frame

variable {fmt : FrameFormat β Header}

/-- The bytes of a frame. -/
def encode (f : Frame fmt) : List β := (fmt.asBytes f.header).toList ++ f.body

/-- The bytes of some frames. -/
def encodeAll (l : List (Frame fmt)) : List β := l.flatMap encode

@[simp] theorem encodeAll_nil : encodeAll ([] : List (Frame fmt)) = [] := rfl

@[simp] theorem encodeAll_cons (f : Frame fmt) (l : List (Frame fmt)) :
    encodeAll (f :: l) = (fmt.asBytes f.header).toList ++ (f.body ++ encodeAll l) := by
  rw [encodeAll, List.flatMap_cons, encode, List.append_assoc]
  rfl

@[simp] theorem encodeAll_append (l l' : List (Frame fmt)) :
    encodeAll (l ++ l') = encodeAll l ++ encodeAll l' := List.flatMap_append

theorem encodeAll_singleton (f : Frame fmt) :
    encodeAll [f] = (fmt.asBytes f.header).toList ++ f.body := by simp

/-- Bytes that start with a header start with no other header. -/
theorem header_inj {h h' : Header} {x y : List β}
    (he : (fmt.asBytes h).toList ++ x = (fmt.asBytes h').toList ++ y) : h = h' ∧ x = y := by
  have hlength : (fmt.asBytes h).toList.length = (fmt.asBytes h').toList.length := by
    rw [Fixed.length_eq, Fixed.length_eq]
  obtain ⟨hbytes, hrest⟩ := List.append_inj he hlength
  have harray : fmt.asBytes h = fmt.asBytes h' := Fixed.ext_toList hbytes
  refine ⟨?_, hrest⟩
  rw [← fmt.fromArray_asBytes h, harray, fmt.fromArray_asBytes]

theorem ext_body {f g : Frame fmt} (hheader : f.header = g.header) (hbody : f.body = g.body) :
    f = g := by
  cases f
  cases g
  cases hheader
  cases hbody
  rfl

/-- Bytes that start with frames start with these frames only. -/
theorem frames_inj {l sent : List (Frame fmt)} {x : List β}
    (h : encodeAll l ++ x = encodeAll sent) : ∃ rest, sent = l ++ rest ∧ encodeAll rest = x := by
  induction l generalizing sent with
  | nil => exact ⟨sent, rfl, h.symm⟩
  | cons f l ih =>
      cases sent with
      | nil =>
          have hlength := congrArg List.length h
          have hpos := fmt.headerLen_pos
          simp at hlength
          omega
      | cons g sent =>
          rw [encodeAll_cons, encodeAll_cons, List.append_assoc, List.append_assoc] at h
          obtain ⟨hheader, htail⟩ := header_inj h
          have hlength : f.body.length = g.body.length := by
            rw [f.length_body, g.length_body, hheader]
          obtain ⟨hbody, hrest⟩ := List.append_inj htail hlength
          obtain ⟨rest, rfl, hx⟩ := ih hrest
          exact ⟨rest, by rw [ext_body hheader hbody, List.cons_append], hx⟩

end Frame

/-- What a loop does with a header, with a frame and with an event: it goes on in
a new state or it ends. -/
structure Service (fmt : FrameFormat β Header) (Event σ : Type*) where
  admits : σ → Header → Bool
  serve : σ → Frame fmt → Option σ
  onEvent : σ → Event → Option σ

/-- Where the loop is: in the `select!` with the bytes `read_exact` has got so far,
in the handler with a part of the body, or left with an error. -/
inductive Phase (β Header : Type*)
  | selecting (buf : List β)
  | reading (h : Header) (body : List β)
  | ended

/-- The loop and its stream; the last three fields are history. -/
structure Loop (fmt : FrameFormat β Header) (Event σ : Type*) where
  phase : Phase β Header
  unread : List β
  queue : List Event
  state : σ
  arrived : List β
  seen : List Header
  served : List (Frame fmt)

/-- What can happen: bytes arrive, an event is queued, the reading branch is polled
and gets up to `n` bytes, or the event branch is the first to be ready. -/
inductive LoopInput (β Event : Type*)
  | arrive (bytes : List β)
  | enqueue (e : Event)
  | poll (n : Nat)
  | event

namespace Loop

variable {fmt : FrameFormat β Header} (sv : Service fmt Event σ)

/-- A loop on a fresh stream. -/
def start (state : σ) : Loop fmt Event σ := ⟨.selecting [], [], [], state, [], [], []⟩

/-- The handler with the body so far. -/
def readBody (s : Loop fmt Event σ) (h : Header) (body : List β) : Loop fmt Event σ :=
  if hlen : body.length = fmt.bodyLen h then
    let f : Frame fmt := ⟨h, body, hlen⟩
    match sv.serve s.state f with
    | some state => { s with phase := .selecting [], state, served := s.served ++ [f] }
    | none => { s with phase := .ended, served := s.served ++ [f] }
  else { s with phase := .reading h body }

/-- The wait with the header so far. -/
def readHeader (s : Loop fmt Event σ) (buf : List β) : Loop fmt Event σ :=
  if hlen : buf.length = fmt.headerLen then
    let h := fmt.fromArray ⟨buf, hlen⟩
    if sv.admits s.state h then { s with seen := s.seen ++ [h] }.readBody sv h []
    else { s with phase := .ended, seen := s.seen ++ [h] }
  else { s with phase := .selecting buf }

/-- One step of the loop and of what is around it. -/
def step (s : Loop fmt Event σ) : LoopInput β Event → Loop fmt Event σ
  | .arrive bytes => { s with unread := s.unread ++ bytes, arrived := s.arrived ++ bytes }
  | .enqueue e => { s with queue := s.queue ++ [e] }
  | .poll n =>
      match s.phase with
      | .selecting buf =>
          let k := min n (fmt.headerLen - buf.length)
          { s with unread := s.unread.drop k }.readHeader sv (buf ++ s.unread.take k)
      | .reading h body =>
          let k := min n (fmt.bodyLen h - body.length)
          { s with unread := s.unread.drop k }.readBody sv h (body ++ s.unread.take k)
      | .ended => s
  | .event =>
      match s.phase, s.queue with
      | .selecting _, e :: queue =>
          match sv.onEvent s.state e with
          | some state => { s with phase := .selecting [], queue, state }
          | none => { s with phase := .ended, queue }
      | _, _ => s

/-- The loop as a machine. -/
def machine : Machine (Loop fmt Event σ) (LoopInput β Event) Unit where
  step s i := (s.step sv i, ())

/-- An event is handled only where no byte of a header was read. -/
def EventsBetweenFrames (s : Loop fmt Event σ) : LoopInput β Event → Prop
  | .event => ∀ buf, s.phase = .selecting buf → s.queue ≠ [] → buf = []
  | _ => True

/-! ### What was read and what is left -/

/-- The part of a frame at hand, and the headers that were seen. -/
def AtHand (part : List β) (seen : List Header) (served : List (Frame fmt)) :
    Phase β Header → Prop
  | .selecting buf =>
      part = buf ∧ buf.length < fmt.headerLen ∧ seen = served.map Frame.header
  | .reading h body =>
      part = (fmt.asBytes h).toList ++ body ∧ body.length < fmt.bodyLen h ∧
        seen = served.map Frame.header ++ [h]
  | .ended =>
      (part = [] ∧ seen = served.map Frame.header) ∨
        ∃ h, part = (fmt.asBytes h).toList ∧ seen = served.map Frame.header ++ [h]

/-- No byte was lost: what arrived are the frames read, the part at hand and what
is not read. -/
def Sound (s : Loop fmt Event σ) : Prop :=
  ∃ part, s.arrived = Frame.encodeAll s.served ++ part ++ s.unread ∧
    AtHand part s.seen s.served s.phase

theorem sound_start (state : σ) : (start state : Loop fmt Event σ).Sound :=
  ⟨[], rfl, rfl, fmt.headerLen_pos, rfl⟩

variable {sv}

theorem sound_readBody {s : Loop fmt Event σ} {h : Header} {body : List β}
    (harrived : s.arrived =
      Frame.encodeAll s.served ++ ((fmt.asBytes h).toList ++ body) ++ s.unread)
    (hseen : s.seen = s.served.map Frame.header ++ [h]) (hle : body.length ≤ fmt.bodyLen h) :
    (s.readBody sv h body).Sound := by
  unfold readBody
  split
  · next hlen =>
      generalize hf : (⟨h, body, hlen⟩ : Frame fmt) = f
      have hall : s.arrived = Frame.encodeAll (s.served ++ [f]) ++ [] ++ s.unread := by
        rw [harrived, Frame.encodeAll_append, Frame.encodeAll_singleton, List.append_nil, ← hf]
      have hheaders : s.seen = (s.served ++ [f]).map Frame.header := by
        rw [hseen, List.map_append, List.map_singleton, ← hf]
      dsimp only
      cases sv.serve s.state f with
      | some state => exact ⟨[], hall, rfl, fmt.headerLen_pos, hheaders⟩
      | none => exact ⟨[], hall, .inl ⟨rfl, hheaders⟩⟩
  · next hlen => exact ⟨_, harrived, rfl, lt_of_le_of_ne hle hlen, hseen⟩

theorem sound_readHeader {s : Loop fmt Event σ} {buf : List β}
    (harrived : s.arrived = Frame.encodeAll s.served ++ buf ++ s.unread)
    (hseen : s.seen = s.served.map Frame.header) (hle : buf.length ≤ fmt.headerLen) :
    (s.readHeader sv buf).Sound := by
  unfold readHeader
  split
  · next hlen =>
      have hbytes : (fmt.asBytes (fmt.fromArray ⟨buf, hlen⟩)).toList = buf := by
        rw [fmt.asBytes_fromArray]
      dsimp only
      split
      · refine sound_readBody ?_ ?_ (Nat.zero_le _)
        · show s.arrived = _
          rw [List.append_nil, hbytes]
          exact harrived
        · show s.seen ++ _ = _
          rw [hseen]
      · refine ⟨buf, harrived, .inr ⟨fmt.fromArray ⟨buf, hlen⟩, hbytes.symm, ?_⟩⟩
        show s.seen ++ _ = _
        rw [hseen]
  · next hlen => exact ⟨buf, harrived, rfl, lt_of_le_of_ne hle hlen, hseen⟩

/-- **The step lemma**: no step that keeps events between frames loses a byte. -/
theorem sound_step {s : Loop fmt Event σ} {i : LoopInput β Event} (hs : s.Sound)
    (hok : s.EventsBetweenFrames i) : (s.step sv i).Sound := by
  obtain ⟨part, harrived, hpart⟩ := hs
  cases i with
  | arrive bytes =>
      refine ⟨part, ?_, hpart⟩
      show s.arrived ++ bytes = _ ++ (s.unread ++ bytes)
      rw [harrived, List.append_assoc (_ ++ part)]
      rfl
  | enqueue e => exact ⟨part, harrived, hpart⟩
  | poll n =>
      simp only [step]
      split
      · next buf hphase =>
          rw [hphase] at hpart
          obtain ⟨rfl, hlen, hseen⟩ := hpart
          refine sound_readHeader ?_ hseen ?_
          · show s.arrived = _
            rw [harrived, List.append_assoc, List.append_assoc, List.append_assoc,
              List.take_append_drop]
          · rw [List.length_append, List.length_take]
            omega
      · next h body hphase =>
          rw [hphase] at hpart
          obtain ⟨rfl, hlen, hseen⟩ := hpart
          refine sound_readBody ?_ hseen ?_
          · show s.arrived = _
            rw [harrived]
            simp only [List.append_assoc, List.take_append_drop]
          · rw [List.length_append, List.length_take]
            omega
      · exact ⟨part, harrived, hpart⟩
  | event =>
      simp only [step]
      split
      · next buf e queue hphase hqueue =>
          -- an event is taken only between frames: the header has no byte yet
          have hbuf : buf = [] := hok buf hphase (by rw [hqueue]; exact List.cons_ne_nil _ _)
          rw [hphase, hbuf] at hpart
          obtain ⟨rfl, hlen, hseen⟩ := hpart
          split
          · exact ⟨[], harrived, rfl, hlen, hseen⟩
          · exact ⟨[], harrived, .inl ⟨rfl, hseen⟩⟩
      · exact ⟨part, harrived, hpart⟩

/-- The run lemma. -/
theorem sound_run {state : σ} {is : List (LoopInput β Event)}
    (hok : (machine sv).EachStep EventsBetweenFrames (start state) is) :
    ((machine sv).run (start state) is).Sound :=
  Machine.invariant_run (P := Sound) (fun _ _ hs hok => sound_step hs hok) (sound_start state) hok

/-! ### Against the frames that were sent -/

section Sent

variable {s : Loop fmt Event σ} {sent : List (Frame fmt)}

/-- What is left of the frames behind the ones that were read. -/
theorem rest_of_sound (hs : s.Sound) (harrived : s.arrived <+: Frame.encodeAll sent) :
    ∃ part rest later, sent = s.served ++ rest ∧ AtHand part s.seen s.served s.phase ∧
      Frame.encodeAll rest = part ++ (s.unread ++ later) ∧
      Frame.encodeAll sent = s.arrived ++ later := by
  obtain ⟨part, hbytes, hpart⟩ := hs
  obtain ⟨later, hlater⟩ := harrived
  have hsplit : Frame.encodeAll s.served ++ (part ++ (s.unread ++ later)) =
      Frame.encodeAll sent := by
    rw [← hlater, hbytes]
    simp only [List.append_assoc]
  obtain ⟨rest, hsent, hrest⟩ := Frame.frames_inj hsplit
  exact ⟨part, rest, later, hsent, hpart, hrest, hlater.symm⟩

theorem frames_of_sound (hs : s.Sound) (harrived : s.arrived <+: Frame.encodeAll sent) :
    s.served <+: sent := by
  obtain ⟨_, rest, _, hsent, _⟩ := rest_of_sound hs harrived
  exact ⟨rest, hsent.symm⟩

/-- A header at hand is the next one that was sent. -/
theorem next_header {rest : List (Frame fmt)} {h : Header} {x : List β}
    (hrest : Frame.encodeAll rest = (fmt.asBytes h).toList ++ x) :
    ∃ f l, rest = f :: l ∧ f.header = h ∧ f.body ++ Frame.encodeAll l = x := by
  cases rest with
  | nil =>
      have hlength := congrArg List.length hrest
      have hpos := fmt.headerLen_pos
      simp at hlength
      omega
  | cons f l =>
      rw [Frame.encodeAll_cons] at hrest
      obtain ⟨hheader, hx⟩ := Frame.header_inj hrest
      exact ⟨f, l, rfl, hheader, hx⟩

/-- The headers seen are the first ones that were sent. -/
theorem headers_of_sound (hs : s.Sound) (harrived : s.arrived <+: Frame.encodeAll sent) :
    s.seen <+: sent.map Frame.header := by
  obtain ⟨part, rest, later, hsent, hpart, hrest, -⟩ := rest_of_sound hs harrived
  rw [hsent, List.map_append]
  have hnext : ∀ h x, Frame.encodeAll rest = (fmt.asBytes h).toList ++ x →
      s.seen = s.served.map Frame.header ++ [h] →
      s.seen <+: s.served.map Frame.header ++ rest.map Frame.header := by
    intro h x hx hseen
    obtain ⟨f, l, rfl, rfl, _⟩ := next_header hx
    rw [hseen, List.map_cons]
    exact ⟨l.map Frame.header, by rw [List.append_assoc, List.singleton_append]⟩
  cases hphase : s.phase with
  | selecting buf =>
      rw [hphase] at hpart
      rw [hpart.2.2]
      exact List.prefix_append _ _
  | reading h body =>
      rw [hphase] at hpart
      obtain ⟨rfl, _, hseen⟩ := hpart
      rw [List.append_assoc] at hrest
      exact hnext h _ hrest hseen
  | ended =>
      rw [hphase] at hpart
      rcases hpart with ⟨_, hseen⟩ | ⟨h, rfl, hseen⟩
      · rw [hseen]
        exact List.prefix_append _ _
      · exact hnext h _ hrest hseen

/-- A loop that goes on and has read all that was sent has read all frames. -/
theorem complete_of_sound (hs : s.Sound) (harrived : s.arrived = Frame.encodeAll sent)
    (hunread : s.unread = []) (hphase : s.phase ≠ .ended) : s.served = sent := by
  have hprefix : s.arrived <+: Frame.encodeAll sent := harrived ▸ List.prefix_refl _
  obtain ⟨part, rest, later, hsent, hpart, hrest, hlater⟩ := rest_of_sound hs hprefix
  have hnone : later = [] := by
    rw [harrived] at hlater
    exact List.self_eq_append_right.mp hlater
  rw [hunread, hnone, List.append_nil, List.append_nil] at hrest
  have hdone : rest = [] := by
    cases rest with
    | nil => rfl
    | cons f l =>
        cases hp : s.phase with
        | selecting buf =>
            rw [hp] at hpart
            obtain ⟨rfl, hlen, _⟩ := hpart
            have hlength := congrArg List.length hrest
            simp at hlength
            omega
        | reading h body =>
            rw [hp] at hpart
            obtain ⟨rfl, hlen, _⟩ := hpart
            obtain ⟨g, l', hcons, hheader, hbody⟩ := next_header hrest
            have hlength := congrArg List.length hbody
            rw [List.length_append, g.length_body, hheader] at hlength
            omega
        | ended => exact absurd hp hphase
  rw [hsent, hdone, List.append_nil]

end Sent

/-! ### The reading branch drains the stream -/

@[simp] theorem unread_readBody (s : Loop fmt Event σ) (h : Header) (body : List β) :
    (s.readBody sv h body).unread = s.unread := by
  unfold readBody
  split
  · dsimp only
    split <;> rfl
  · rfl

@[simp] theorem unread_readHeader (s : Loop fmt Event σ) (buf : List β) :
    (s.readHeader sv buf).unread = s.unread := by
  unfold readHeader
  split
  · dsimp only
    split
    · exact unread_readBody _ _ _
    · rfl
  · rfl

@[simp] theorem arrived_readBody (s : Loop fmt Event σ) (h : Header) (body : List β) :
    (s.readBody sv h body).arrived = s.arrived := by
  unfold readBody
  split
  · dsimp only
    split <;> rfl
  · rfl

@[simp] theorem arrived_readHeader (s : Loop fmt Event σ) (buf : List β) :
    (s.readHeader sv buf).arrived = s.arrived := by
  unfold readHeader
  split
  · dsimp only
    split
    · exact arrived_readBody _ _ _
    · rfl
  · rfl

theorem arrived_poll (s : Loop fmt Event σ) (n : Nat) :
    (s.step sv (.poll n)).arrived = s.arrived := by
  simp only [step]
  split
  · exact arrived_readHeader _ _
  · exact arrived_readBody _ _ _
  · rfl

/-- A poll takes a byte off the stream. -/
theorem unread_poll {s : Loop fmt Event σ} (hs : s.Sound) (hphase : s.phase ≠ .ended) :
    (s.step sv (.poll 1)).unread = s.unread.drop 1 := by
  obtain ⟨part, _, hpart⟩ := hs
  simp only [step]
  split
  · next buf hp =>
      rw [hp] at hpart
      have hmin : min 1 (fmt.headerLen - buf.length) = 1 := by
        have hlen := hpart.2.1
        omega
      rw [unread_readHeader, hmin]
  · next h body hp =>
      rw [hp] at hpart
      have hmin : min 1 (fmt.bodyLen h - body.length) = 1 := by
        have hlen := hpart.2.1
        omega
      rw [unread_readBody, hmin]
  · next hp => exact absurd hp hphase

/-- As many polls as there are bytes left read all of them, or the loop ends. -/
theorem drained {s : Loop fmt Event σ} (hs : s.Sound) {n : Nat} (hn : s.unread.length ≤ n) :
    ∃ s', (machine sv).run s (List.replicate n (.poll 1)) = s' ∧ s'.Sound ∧
      s'.arrived = s.arrived ∧ (s'.phase = .ended ∨ s'.unread = []) := by
  induction n generalizing s with
  | zero => exact ⟨s, rfl, hs, rfl, .inr (List.length_eq_zero_iff.mp (Nat.le_zero.mp hn))⟩
  | succ n ih =>
      rw [List.replicate_succ, Machine.run_cons]
      have hs' : (s.step sv (.poll 1)).Sound := sound_step hs trivial
      by_cases hphase : s.phase = .ended
      · -- a loop that ended does not read
        have hstay : s.step sv (.poll 1) = s := by simp only [step, hphase]
        have hrun : ∀ m, (machine sv).run s (List.replicate m (.poll 1)) = s := by
          intro m
          induction m with
          | zero => rfl
          | succ m ihm =>
              rw [List.replicate_succ, Machine.run_cons]
              show (machine sv).run (s.step sv (.poll 1)) _ = s
              rw [hstay]
              exact ihm
        refine ⟨s, ?_, hs, rfl, .inl hphase⟩
        show (machine sv).run (s.step sv (.poll 1)) _ = s
        rw [hstay]
        exact hrun n
      · have hle : (s.step sv (.poll 1)).unread.length ≤ n := by
          rw [unread_poll hs hphase, List.length_drop]
          omega
        obtain ⟨s', hrun, hsound, harrived, hend⟩ := ih hs' hle
        exact ⟨s', hrun, hsound, harrived.trans (arrived_poll s 1), hend⟩

/-! ### Whole runs -/

variable (sv) in
/-- The loop reads what was sent: as long as the bytes that arrived are those of the
frames, it has seen the first headers and read the first frames, in order; and when
all bytes arrived, polling reads every frame, unless the loop ends. -/
def ReadsSent (sent : List (Frame fmt)) (s : Loop fmt Event σ) : Prop :=
  s.arrived <+: Frame.encodeAll sent →
    s.seen <+: sent.map Frame.header ∧ s.served <+: sent ∧
    (s.arrived = Frame.encodeAll sent → ∀ n, s.unread.length ≤ n →
      ((machine sv).run s (List.replicate n (.poll 1))).phase = .ended ∨
      ((machine sv).run s (List.replicate n (.poll 1))).served = sent)

theorem readsSent_of_sound {s : Loop fmt Event σ} (hs : s.Sound) (sent : List (Frame fmt)) :
    ReadsSent sv sent s := by
  intro harrived
  refine ⟨headers_of_sound hs harrived, frames_of_sound hs harrived, ?_⟩
  intro hall n hn
  obtain ⟨s', hrun, hsound, harrived', hend⟩ := @drained _ _ _ _ _ sv _ hs _ hn
  rw [hrun]
  by_cases hphase : s'.phase = .ended
  · exact .inl hphase
  · exact .inr (complete_of_sound hsound (harrived'.trans hall) (hend.resolve_left hphase) hphase)

/-- **Events between frames lose nothing.** -/
theorem readsSent_run {state : σ} {is : List (LoopInput β Event)}
    (hok : (machine sv).EachStep EventsBetweenFrames (start state) is)
    (sent : List (Frame fmt)) : ReadsSent sv sent ((machine sv).run (start state) is) :=
  readsSent_of_sound (sound_run hok) sent

end Loop

end OnionNetwork.Lib
