import OnionNetwork.Lib.FramedLoop

/-!
# Calls over a stream that is used again

A stream with an end that calls and an end that serves. A call writes a request and, where
one is expected, reads an answer; then the stream is there for the next call. The serving
end reads requests for as long as the stream lasts. Bytes are read in pieces, the ends take
their steps in any order, a write may break off, and each end may leave at any time.

* `Linked` — what holds in every run, by `linked_call`, `linked_recv` and `linked_poll`;
* `exact_of_linked` — requests are served in the order of the calls, each at most once, and
  what a call reads is the answer to its own request;
* `answered_of_linked` — where neither end leaves, a call is answered or its request refused.
-/

namespace OnionNetwork.Lib

variable {β Header Header' σ : Type*}

/-- What the ends do: whether the calling end reads an answer, which headers the serving end
goes on with, and what it makes of a request, its state and the bytes it writes. -/
structure CallService (req : FrameFormat β Header) (σ : Type*) where
  expects : Header → Bool
  admits : σ → Header → Bool
  serve : σ → Frame req → Option (σ × List β)

/-- A request that was served. -/
structure Execution (req : FrameFormat β Header) (σ : Type*) where
  before : σ
  request : Frame req
  after : σ
  answer : List β

variable {req : FrameFormat β Header} {resp : FrameFormat β Header'}

namespace CallService

/-- The serving end as a loop that records what it serves. -/
def service (sv : CallService req σ) : Service req Empty (σ × List (Execution req σ)) where
  admits s h := sv.admits s.1 h
  serve s f := (sv.serve s.1 f).map fun r => (r.1, s.2 ++ [⟨s.1, f, r.1, r.2⟩])
  onEvent _ e := e.elim

/-- Where an answer is expected one frame is written, and nothing elsewhere. -/
def Framed (sv : CallService req σ) (resp : FrameFormat β Header') : Prop :=
  ∀ s f s' out, sv.serve s f = some (s', out) →
    if sv.expects f.header then ∃ g : Frame resp, out = g.encode else out = []

end CallService

/-- The calling end as a loop that reads answers. -/
def replyService : Service resp Empty Unit where
  admits _ _ := true
  serve _ _ := some ()
  onEvent _ e := e.elim

/-- Where the calling end is. -/
inductive Caller
  | idle
  | waiting
  | gone
  deriving DecidableEq

/-- The stream: what the serving end reads and what the calling end reads. A write that broke
off stays so. The calls and what they read are history. -/
structure CallLink (req : FrameFormat β Header) (resp : FrameFormat β Header') (σ : Type*) where
  caller : Caller
  broken : Bool
  hungUp : Bool
  requests : Loop req Empty (σ × List (Execution req σ))
  replies : Loop resp Empty Unit
  made : List (Frame req)
  results : List (Option (Frame resp))

/-! ### What a poll does -/

namespace Loop

variable {fmt : FrameFormat β Header} {Event : Type*} {sv : Service fmt Event σ}

/-- From `s` to `s'` at most one frame is served. -/
def ServesOne (sv : Service fmt Event σ) (s s' : Loop fmt Event σ) : Prop :=
  (s'.served = s.served ∧ s'.state = s.state) ∨
  ∃ f, s'.served = s.served ++ [f] ∧
    ((sv.serve s.state f = some s'.state ∧ s'.phase = .selecting []) ∨
      (s'.state = s.state ∧ s'.phase = .ended ∧ sv.serve s.state f = none))

theorem servesOne_readBody (s : Loop fmt Event σ) (h : Header) (body : List β) :
    ServesOne sv s (s.readBody sv h body) := by
  unfold readBody
  split
  · next hlen =>
      dsimp only
      cases hserve : sv.serve s.state ⟨h, body, hlen⟩ with
      | some state => exact .inr ⟨_, rfl, .inl ⟨hserve, rfl⟩⟩
      | none => exact .inr ⟨_, rfl, .inr ⟨rfl, rfl, hserve⟩⟩
  · exact .inl ⟨rfl, rfl⟩

theorem servesOne_poll (sv : Service fmt Event σ) (s : Loop fmt Event σ) (n : Nat) :
    ServesOne sv s (s.step sv (.poll n)) := by
  simp only [step]
  split
  · unfold readHeader
    split
    · dsimp only
      split
      · exact servesOne_readBody { s with unread := _, seen := _ } _ _
      · exact .inl ⟨rfl, rfl⟩
    · exact .inl ⟨rfl, rfl⟩
  · exact servesOne_readBody { s with unread := _ } _ _
  · exact .inl ⟨rfl, rfl⟩

theorem ended_poll (sv : Service fmt Event σ) {s : Loop fmt Event σ} (hs : s.phase = .ended)
    (n : Nat) :
    s.step sv (.poll n) = s := by
  simp only [step, hs]

/-- The calling end does not stop reading. -/
theorem reads_poll {s : Loop resp Empty Unit} (hs : s.phase ≠ .ended) (n : Nat) :
    (s.step replyService (.poll n)).phase ≠ .ended := by
  have hbody (s : Loop resp Empty Unit) (h : Header') (body : List β) :
      (s.readBody replyService h body).phase ≠ .ended := by
    unfold readBody
    split
    · intro hphase
      cases hphase
    · intro hphase
      cases hphase
  simp only [step]
  split
  · unfold readHeader
    split
    · exact hbody _ _ _
    · intro hphase
      cases hphase
  · exact hbody _ _ _
  · next hphase => exact absurd hphase hs

end Loop

namespace CallLink

/-- A stream that was just opened. -/
def start (s : σ) : CallLink req resp σ :=
  ⟨.idle, false, false, Loop.start (s, []), Loop.start (), [], []⟩

/-- What the serving end served. -/
def executed (l : CallLink req resp σ) : List (Execution req σ) := l.requests.state.2

variable (sv : CallService req σ)

/-- A call writes the first `n` bytes of its request. -/
def call (f : Frame req) (n : Nat) (l : CallLink req resp σ) : CallLink req resp σ :=
  if l.caller = .idle then
    { l with
      caller := if sv.expects f.header then .waiting else .idle
      broken := l.broken || decide (n < f.encode.length)
      requests := l.requests.step sv.service
        (.arrive (if l.broken then [] else f.encode.take n))
      made := l.made ++ [f]
      results := if sv.expects f.header then l.results else l.results ++ [none] }
  else l

/-- The calling end reads up to `n` bytes of the answer. -/
def recv (n : Nat) (l : CallLink req resp σ) : CallLink req resp σ :=
  if l.caller = .waiting then
    let replies := l.replies.step replyService (.poll n)
    match replies.served.drop l.replies.served.length with
    | g :: _ => { l with caller := .idle, replies, results := l.results ++ [some g] }
    | [] => { l with replies }
  else l

/-- The serving end reads up to `n` bytes, in the state `s`. -/
def poll (s : σ) (n : Nat) (l : CallLink req resp σ) : σ × CallLink req resp σ :=
  if l.hungUp then (s, l)
  else
    let requests := { l.requests with state := (s, l.executed) }.step sv.service (.poll n)
    let out := (requests.state.2.drop l.executed.length).flatMap Execution.answer
    (requests.state.1,
      { l with requests, replies := l.replies.step replyService (.arrive out) })

/-- The calling end leaves the stream. -/
def abandon (l : CallLink req resp σ) : CallLink req resp σ := { l with caller := .gone }

/-- The serving end leaves the stream. -/
def hangUp (l : CallLink req resp σ) : CallLink req resp σ := { l with hungUp := true }

/-- How many calls are over. -/
def Counted (l : CallLink req resp σ) : Caller → Prop
  | .idle => l.results.length = l.made.length
  | .waiting => ∃ before f, l.made = before ++ [f] ∧ l.results.length = before.length ∧
      sv.expects f.header = true
  | .gone => l.results.length ≤ l.made.length

/-- What holds of the stream in every run. -/
structure Linked (l : CallLink req resp σ) : Prop where
  requests_sound : l.requests.Sound
  replies_sound : l.replies.Sound
  sent : l.requests.arrived <+: Frame.encodeAll l.made
  whole : l.broken = false → l.requests.arrived = Frame.encodeAll l.made
  answered : l.replies.arrived = l.executed.flatMap Execution.answer
  served : l.executed.map Execution.request <+: l.requests.served
  all_served : l.requests.phase ≠ .ended → l.executed.map Execution.request = l.requests.served
  executions : ∀ e ∈ l.executed, sv.serve e.before e.request = some (e.after, e.answer)
  received : l.replies.served = l.results.filterMap id
  reads : l.replies.phase ≠ .ended
  counted : l.Counted sv l.caller
  quiet : ∀ (k : Nat) (f : Frame req), l.results[k]? = some none → l.made[k]? = some f →
    sv.expects f.header = false
  replied : ∀ (k : Nat) (g : Frame resp), l.results[k]? = some (some g) →
    ∃ e : Execution req σ, l.executed[k]? = some e ∧ e.answer = g.encode

variable {sv} {l : CallLink req resp σ}

theorem linked_start (s : σ) : Linked sv (start s : CallLink req resp σ) where
  requests_sound := Loop.sound_start _
  replies_sound := Loop.sound_start _
  sent := List.prefix_refl _
  whole _ := rfl
  answered := rfl
  served := List.prefix_refl _
  all_served _ := rfl
  executions _ he := absurd he List.not_mem_nil
  received := rfl
  reads := by intro h; cases h
  counted := rfl
  quiet k f h := by simp [start] at h
  replied k g h := by simp [start] at h

/-! ### Calls -/

theorem call_made {f : Frame req} {n : Nat} (hidle : l.caller = .idle) :
    (l.call sv f n).made = l.made ++ [f] := by
  rw [call, if_pos hidle]

/-- What was served was called, and in this order. -/
theorem Linked.executed_prefix (h : Linked sv l) :
    l.executed.map Execution.request <+: l.made :=
  h.served.trans (Loop.frames_of_sound h.requests_sound h.sent)

theorem Linked.made_of_executed (h : Linked sv l) {k : Nat} {e : Execution req σ}
    (he : l.executed[k]? = some e) : l.made[k]? = some e.request := by
  obtain ⟨rest, hrest⟩ := h.executed_prefix
  have hmap : (l.executed.map Execution.request)[k]? = some e.request := by
    rw [List.getElem?_map, he]
    rfl
  rw [← hrest, List.getElem?_append_left (List.getElem?_eq_some_iff.mp hmap).1, hmap]

theorem Linked.length_executed (h : Linked sv l) : l.executed.length ≤ l.made.length := by
  have hle := h.executed_prefix.length_le
  rwa [List.length_map] at hle

private theorem getElem?_concat_iff {α : Type*} {as : List α} {a b : α} {k : Nat} :
    (as ++ [a])[k]? = some b ↔ as[k]? = some b ∨ k = as.length ∧ a = b := by
  rcases Nat.lt_trichotomy k as.length with hlt | rfl | hgt
  · simp [List.getElem?_append_left hlt, Nat.ne_of_lt hlt]
  · simp
  · have hlong : (as ++ [a]).length ≤ k := by
      rw [List.length_append]
      exact hgt
    simp [List.getElem?_eq_none hlong, List.getElem?_eq_none hgt.le, Nat.ne_of_gt hgt]

private theorem encodeAll_concat (fs : List (Frame req)) (f : Frame req) :
    Frame.encodeAll (fs ++ [f]) = Frame.encodeAll fs ++ f.encode := by
  rw [Frame.encodeAll_append, Frame.encodeAll_singleton, Frame.encode]

/-- The bytes of a call go behind those of the calls before. -/
theorem Linked.call_sent (h : Linked sv l) (f : Frame req) (n : Nat) :
    l.requests.arrived ++ (if l.broken then [] else f.encode.take n) <+:
        Frame.encodeAll (l.made ++ [f]) ∧
      ((l.broken || decide (n < f.encode.length)) = false →
        l.requests.arrived ++ (if l.broken then [] else f.encode.take n) =
          Frame.encodeAll (l.made ++ [f])) := by
  rw [encodeAll_concat]
  cases hbroken : l.broken with
  | true =>
      refine ⟨?_, fun hwhole => absurd hwhole (by simp)⟩
      rw [if_pos rfl, List.append_nil]
      exact h.sent.trans (List.prefix_append _ _)
  | false =>
      rw [if_neg (by decide), h.whole hbroken]
      refine ⟨List.prefix_append_right_inj _ |>.mpr (List.take_prefix n f.encode), fun hwhole => ?_⟩
      have hle : f.encode.length ≤ n := by simpa using hwhole
      rw [List.take_of_length_le hle]

/-- **A call** leaves what holds. -/
theorem linked_call (h : Linked sv l) (f : Frame req) (n : Nat) :
    Linked sv (l.call sv f n) := by
  unfold call
  split
  case isFalse => exact h
  case isTrue hidle =>
    have hcount : l.results.length = l.made.length := by
      have := h.counted
      rwa [hidle] at this
    obtain ⟨hsent, hwhole⟩ := h.call_sent f n
    -- the new call is behind all that have a result
    have hmade {k : Nat} {r : Option (Frame resp)} (hr : l.results[k]? = some r) :
        (l.made ++ [f])[k]? = l.made[k]? :=
      List.getElem?_append_left (hcount ▸ (List.getElem?_eq_some_iff.mp hr).1)
    refine ⟨Loop.sound_step h.requests_sound trivial, h.replies_sound, hsent, hwhole, h.answered,
      h.served, h.all_served, h.executions, ?_, h.reads, ?_, ?_, ?_⟩
    · show l.replies.served = _
      rw [h.received]
      dsimp only
      split
      · rfl
      · rw [List.filterMap_append]
        exact (List.append_nil _).symm
    · dsimp only
      by_cases hexpects : sv.expects f.header = true
      · rw [if_pos hexpects, if_pos hexpects]
        exact ⟨l.made, f, rfl, hcount, hexpects⟩
      · rw [if_neg hexpects, if_neg hexpects]
        show (l.results ++ [none]).length = (l.made ++ [f]).length
        rw [List.length_append, List.length_append, hcount]
        rfl
    · intro k f' hk hf'
      dsimp only at hk hf'
      split at hk
      · rw [hmade hk] at hf'
        exact h.quiet k f' hk hf'
      · next hexpects =>
          rcases getElem?_concat_iff.mp hk with hk | ⟨rfl, -⟩
          · rw [hmade hk] at hf'
            exact h.quiet k f' hk hf'
          · -- the call itself
            rw [hcount, List.getElem?_concat_length] at hf'
            rw [← Option.some.inj hf']
            exact Bool.not_eq_true _ ▸ hexpects
    · intro k g hk
      refine h.replied k g ?_
      dsimp only at hk
      split at hk
      · exact hk
      · rcases getElem?_concat_iff.mp hk with hk | ⟨-, hnone⟩
        · exact hk
        · cases hnone

/-! ### Answers -/

/-- Nothing is written where no answer is expected. -/
theorem Linked.no_answer (h : Linked sv l) (hf : sv.Framed resp) {k : Nat} {e : Execution req σ}
    (hk : l.results[k]? = some none) (he : l.executed[k]? = some e) : e.answer = [] := by
  have hout := hf _ _ _ _ (h.executions e (List.mem_of_getElem? he))
  rwa [h.quiet k _ hk (h.made_of_executed he), if_neg (by decide)] at hout

private theorem flatMap_answers {rs : List (Option (Frame resp))} (es : List (Execution req σ))
    (hnone : ∀ (k : Nat) (e : Execution req σ), rs[k]? = some none → es[k]? = some e →
      e.answer = [])
    (hsome : ∀ (k : Nat) (g : Frame resp), rs[k]? = some (some g) →
      ∃ e : Execution req σ, es[k]? = some e ∧ e.answer = g.encode) :
    (es.take rs.length).flatMap Execution.answer = Frame.encodeAll (rs.filterMap id) := by
  induction rs generalizing es with
  | nil => rfl
  | cons r rs ih =>
      cases es with
      | nil =>
          have hrest := ih [] (fun k e hr he => hnone (k + 1) e hr he)
            (fun k g hr => hsome (k + 1) g hr)
          cases r with
          | none => simpa using hrest
          | some g =>
              obtain ⟨e, he, -⟩ := hsome 0 g rfl
              cases he
      | cons e es =>
          have hrest := ih es (fun k e hr he => hnone (k + 1) e hr he)
            (fun k g hr => hsome (k + 1) g hr)
          rw [List.length_cons, List.take_succ_cons, List.flatMap_cons, hrest]
          cases r with
          | none =>
              rw [hnone 0 e rfl rfl]
              rfl
          | some g =>
              obtain ⟨e', he', hanswer⟩ := hsome 0 g rfl
              obtain rfl := Option.some.inj he'
              rw [hanswer]
              rfl

/-- The answers to the calls that are over were read. -/
theorem Linked.answers_received (h : Linked sv l) (hf : sv.Framed resp) :
    l.replies.arrived = Frame.encodeAll l.replies.served ++
      (l.executed.drop l.results.length).flatMap Execution.answer := by
  rw [h.received, ← flatMap_answers _ (fun k e hk he => h.no_answer hf hk he) h.replied,
    ← List.flatMap_append, List.take_append_drop, h.answered]

/-- **A frame that is read while a call waits is the answer to it.** -/
theorem Linked.next_answer (h : Linked sv l) (hf : sv.Framed resp) (hwaits : l.caller = .waiting)
    {g : Frame resp} (rest : List β)
    (hread : l.replies.arrived = Frame.encodeAll (l.replies.served ++ [g]) ++ rest) :
    ∃ e, l.executed[l.results.length]? = some e ∧ e.answer = g.encode := by
  obtain ⟨before, f, hmade, hcount, hexpects⟩ : l.Counted sv .waiting := hwaits ▸ h.counted
  have hanswers : (l.executed.drop l.results.length).flatMap Execution.answer =
      g.encode ++ rest := by
    rw [h.answers_received hf, encodeAll_concat, List.append_assoc] at hread
    exact List.append_cancel_left hread
  have hlen := h.length_executed
  rw [hmade, List.length_append, List.length_singleton, ← hcount] at hlen
  cases hdrop : l.executed.drop l.results.length with
  | nil =>
      have hbytes := congrArg List.length hanswers
      have hpos := resp.headerLen_pos
      rw [hdrop, Frame.encode] at hbytes
      simp at hbytes
      omega
  | cons e es =>
      have he : l.executed[l.results.length]? = some e := by
        rw [← Nat.add_zero l.results.length, ← List.getElem?_drop, hdrop]
        rfl
      have hes : es = [] := by
        have := congrArg List.length hdrop
        rw [List.length_drop, List.length_cons] at this
        exact List.length_eq_zero_iff.mp (by omega)
      -- the request is the one of the call, so the answer is a frame
      have hrequest : e.request = f := by
        have := h.made_of_executed he
        rw [hmade, hcount, List.getElem?_concat_length] at this
        exact (Option.some.inj this).symm
      have hout := hf _ _ _ _ (h.executions e (List.mem_of_getElem? he))
      rw [hrequest, if_pos hexpects] at hout
      obtain ⟨g', hg'⟩ := hout
      rw [hdrop, hes, List.flatMap_singleton, hg'] at hanswers
      have hinj : Frame.encodeAll [g] ++ rest = Frame.encodeAll [g'] := by
        rw [Frame.encodeAll_singleton, Frame.encodeAll_singleton]
        exact hanswers.symm
      obtain ⟨more, hmore, -⟩ := Frame.frames_inj hinj
      obtain ⟨rfl, -⟩ := List.cons.inj hmore
      exact ⟨e, he, hg'⟩

/-- **Reading an answer** leaves what holds. -/
theorem linked_recv (h : Linked sv l) (hf : sv.Framed resp) (n : Nat) :
    Linked sv (l.recv n) := by
  unfold recv
  split
  case isFalse => exact h
  case isTrue hwaits =>
    have hsound : (l.replies.step replyService (.poll n)).Sound :=
      Loop.sound_step h.replies_sound trivial
    have harrived : (l.replies.step replyService (.poll n)).arrived = l.replies.arrived :=
      Loop.arrived_poll l.replies n
    have hone := Loop.servesOne_poll replyService l.replies n
    have hreads := Loop.reads_poll h.reads n
    dsimp only
    generalize l.replies.step replyService (.poll n) = replies at *
    -- no response is complete yet, or one is, and it is the next one that the server wrote
    obtain ⟨hserved, -⟩ | ⟨g, hserved, ⟨-, hphase⟩ | ⟨-, -, hserve⟩⟩ := hone
    · rw [hserved, List.drop_length]
      exact { h with
        replies_sound := hsound
        answered := harrived.trans h.answered
        received := hserved.trans h.received
        reads := hreads
        counted := h.counted }
    · rw [hserved, List.drop_left]
      obtain ⟨part, hbytes, -⟩ := id hsound
      have hanswer : ∃ e, l.executed[l.results.length]? = some e ∧ e.answer = g.encode :=
        h.next_answer hf hwaits (part ++ replies.unread) (by
          rw [← harrived, hbytes, hserved, List.append_assoc])
      obtain ⟨before, f, hmade, hcount, -⟩ : l.Counted sv .waiting := hwaits ▸ h.counted
      refine ⟨h.requests_sound, hsound, h.sent, h.whole, harrived.trans h.answered, h.served,
        h.all_served, h.executions, ?_, hreads, ?_, fun k f' hk hf' => ?_, fun k g' hk => ?_⟩
      · show replies.served = _
        rw [hserved, h.received, List.filterMap_append]
        rfl
      · show (l.results ++ [some g]).length = l.made.length
        rw [hmade, List.length_append, List.length_append, hcount]
        rfl
      · rcases getElem?_concat_iff.mp hk with hk | ⟨-, hsome⟩
        · exact h.quiet k f' hk hf'
        · cases hsome
      · rcases getElem?_concat_iff.mp hk with hk | ⟨rfl, hsome⟩
        · exact h.replied k g' hk
        · rwa [← Option.some.inj hsome]
    · cases hserve

/-! ### Requests -/

/-- What serving does to the stream: up to one request is served, and its answer written. -/
theorem linked_serve (h : Linked sv l)
    {requests : Loop req Empty (σ × List (Execution req σ))}
    (new : List (Execution req σ)) (hsound : requests.Sound)
    (harrived : requests.arrived = l.requests.arrived)
    (hexecuted : requests.state.2 = l.executed ++ new)
    (hserved : (l.executed ++ new).map Execution.request <+: requests.served)
    (hall : requests.phase ≠ .ended →
      (l.executed ++ new).map Execution.request = requests.served)
    (hnew : ∀ e ∈ new, sv.serve e.before e.request = some (e.after, e.answer)) :
    Linked sv { l with
      requests
      replies := l.replies.step replyService (.arrive ((requests.state.2.drop
        l.executed.length).flatMap Execution.answer)) } := by
  refine ⟨hsound, Loop.sound_step h.replies_sound trivial, harrived ▸ h.sent,
    fun hwhole => harrived.trans (h.whole hwhole), ?_, ?_, ?_, ?_, h.received, h.reads, h.counted,
    h.quiet, fun k g hk => ?_⟩
  · show l.replies.arrived ++ _ = requests.state.2.flatMap Execution.answer
    rw [hexecuted, List.drop_left, List.flatMap_append, h.answered]
  · show requests.state.2.map Execution.request <+: _
    rwa [hexecuted]
  · intro hphase
    show requests.state.2.map Execution.request = _
    rw [hexecuted, hall hphase]
  · intro e he
    rw [executed, hexecuted] at he
    exact (List.mem_append.mp he).elim (h.executions e) (hnew e)
  · obtain ⟨e, he, hanswer⟩ := h.replied k g hk
    refine ⟨e, ?_, hanswer⟩
    show requests.state.2[k]? = some e
    rw [hexecuted, List.getElem?_append_left (List.getElem?_eq_some_iff.mp he).1, he]

/-- **Serving** leaves what holds. -/
theorem linked_poll (h : Linked sv l) (s : σ) (n : Nat) : Linked sv (l.poll sv s n).2 := by
  unfold poll
  split
  case isTrue => exact h
  case isFalse =>
    dsimp only
    generalize hstart : ({ l.requests with state := (s, l.executed) } :
      Loop req Empty (σ × List (Execution req σ))) = start
    have hstate : start.state = (s, l.executed) := hstart ▸ rfl
    have hold : start.served = l.requests.served := hstart ▸ rfl
    have hphase : start.phase = l.requests.phase := hstart ▸ rfl
    have hsound : (start.step sv.service (.poll n)).Sound :=
      Loop.sound_step (hstart ▸ h.requests_sound) trivial
    have harrived : (start.step sv.service (.poll n)).arrived = l.requests.arrived :=
      (Loop.arrived_poll start n).trans (hstart ▸ rfl)
    -- once ended, the loop stays as it is: a poll that serves was of one that goes on
    have hgoes : (start.step sv.service (.poll n)).phase ≠ .ended ∨
        (start.step sv.service (.poll n)).served ≠ start.served → l.requests.phase ≠ .ended := by
      intro hgoes hended
      have hstay := Loop.ended_poll sv.service (hphase.trans hended) n
      rw [hstay] at hgoes
      exact hgoes.elim (fun hne => hne (hphase.trans hended)) fun hne => hne rfl
    obtain ⟨hserved, hsame⟩ | ⟨f, hserved, ⟨hserve, -⟩ | ⟨hsame, hended, -⟩⟩ :=
      Loop.servesOne_poll sv.service start n
    · refine linked_serve h [] hsound harrived ?_ ?_ ?_ (fun e he => absurd he List.not_mem_nil)
      · rw [hsame, hstate, List.append_nil]
      · rw [hserved, hold, List.append_nil]
        exact h.served
      · intro hne
        rw [hserved, hold, List.append_nil]
        exact h.all_served (hgoes (.inl hne))
    · rw [hstate] at hserve
      obtain ⟨⟨s', out⟩, hrun, hstate'⟩ := Option.map_eq_some_iff.mp hserve
      have hall : (l.executed ++ [(⟨s, f, s', out⟩ : Execution req σ)]).map Execution.request =
          (start.step sv.service (.poll n)).served := by
        rw [hserved, hold, List.map_append, h.all_served (hgoes (.inr (by simp [hserved])))]
        rfl
      refine linked_serve h _ hsound harrived (by rw [← hstate']) (hall ▸ List.prefix_refl _)
        (fun _ => hall) fun e he => ?_
      rw [List.mem_singleton.mp he]
      exact hrun
    · refine linked_serve h [] hsound harrived ?_ ?_ (fun hne => absurd hended hne)
        (fun e he => absurd he List.not_mem_nil)
      · rw [hsame, hstate, List.append_nil]
      · rw [hserved, hold, List.append_nil]
        exact h.served.trans (List.prefix_append _ _)

/-! ### The ends leave -/

theorem linked_abandon (h : Linked sv l) : Linked sv l.abandon := by
  refine { h with counted := ?_ }
  show l.results.length ≤ l.made.length
  have hcount := h.counted
  cases hcaller : l.caller with
  | idle =>
      rw [hcaller] at hcount
      exact Nat.le_of_eq hcount
  | waiting =>
      rw [hcaller] at hcount
      obtain ⟨before, f, hmade, hlen, -⟩ := hcount
      rw [hmade, hlen, List.length_append]
      exact Nat.le_add_right _ _
  | gone =>
      rw [hcaller] at hcount
      exact hcount

theorem linked_hangUp (h : Linked sv l) : Linked sv l.hangUp := { h with counted := h.counted }

/-! ### What a call reads -/

/-- Requests are served in the order of the calls and each at most once, each by one step of
the server, and what a call reads is the answer to its own request. -/
structure Exact (sv : CallService req σ) (l : CallLink req resp σ) : Prop where
  once : l.executed.map Execution.request <+: l.made
  executions : ∀ e ∈ l.executed, sv.serve e.before e.request = some (e.after, e.answer)
  read : ∀ (k : Nat) (g : Frame resp), l.results[k]? = some (some g) →
    ∃ e : Execution req σ, l.executed[k]? = some e ∧ l.made[k]? = some e.request ∧
      e.answer = g.encode

theorem exact_of_linked (h : Linked sv l) : l.Exact sv where
  once := h.executed_prefix
  executions := h.executions
  read k g hk := by
    obtain ⟨e, he, hanswer⟩ := h.replied k g hk
    exact ⟨e, he, h.made_of_executed he, hanswer⟩

/-! ### A call that waits -/

/-- **A waiting call has something in flight**, unless its request was not written whole or the
serving end left the stream. -/
theorem Linked.in_flight (h : Linked sv l) (hf : sv.Framed resp) (hwaits : l.caller = .waiting)
    (hwhole : l.broken = false) (hserves : l.requests.phase ≠ .ended) :
    l.requests.unread ≠ [] ∨ l.replies.unread ≠ [] := by
  by_contra hnone
  obtain ⟨hrequests, hreplies⟩ := not_or.mp hnone
  obtain ⟨before, f, hmade, hcount, hexpects⟩ : l.Counted sv .waiting := hwaits ▸ h.counted
  -- all calls were served, the last one too
  have hall : l.executed.map Execution.request = l.made := by
    rw [h.all_served hserves]
    exact Loop.complete_of_sound h.requests_sound (h.whole hwhole) (not_not.mp hrequests) hserves
  have hlast : (l.executed.map Execution.request)[before.length]? = some f := by
    rw [hall, hmade, List.getElem?_concat_length]
  rw [List.getElem?_map] at hlast
  obtain ⟨e, he, hrequest⟩ := Option.map_eq_some_iff.mp hlast
  have hout := hf _ _ _ _ (h.executions e (List.mem_of_getElem? he))
  rw [hrequest, if_pos hexpects] at hout
  obtain ⟨g, hg⟩ := hout
  have hdrop : l.executed.drop l.results.length = [e] := by
    have hlen : l.executed.length = before.length + 1 := by
      rw [← List.length_map, hall, hmade, List.length_append]
      rfl
    obtain ⟨hlt, hget⟩ := List.getElem?_eq_some_iff.mp he
    rw [hcount, List.drop_eq_getElem_cons hlt, hget, List.drop_of_length_le (by omega)]
  -- so its answer arrived, and a loop without unread bytes has read it
  have harrived : l.replies.arrived = Frame.encodeAll (l.replies.served ++ [g]) := by
    rw [h.answers_received hf, hdrop, List.flatMap_singleton, hg, encodeAll_concat]
  have hdone := Loop.complete_of_sound h.replies_sound harrived (not_not.mp hreplies) h.reads
  simpa using congrArg List.length hdone

/-- The serving end reads byte by byte. -/
def polls (sv : CallService req σ) : Nat → σ × CallLink req resp σ → σ × CallLink req resp σ
  | 0, p => p
  | m + 1, p => polls sv m (p.2.poll sv p.1 1)

/-- The calling end reads byte by byte. -/
def recvs : Nat → CallLink req resp σ → CallLink req resp σ
  | 0, l => l
  | m + 1, l => recvs m (l.recv 1)

/-- The serving end does not touch what the calling end has. -/
theorem poll_caller (sv : CallService req σ) (s : σ) (n : Nat) (l : CallLink req resp σ) :
    (l.poll sv s n).2.caller = l.caller ∧ (l.poll sv s n).2.broken = l.broken ∧
      (l.poll sv s n).2.hungUp = l.hungUp := by
  unfold poll
  split
  · exact ⟨rfl, rfl, rfl⟩
  · exact ⟨rfl, rfl, rfl⟩

theorem exists_polls (h : Linked sv l) (hhung : l.hungUp = false) (s : σ) :
    ∃ m, Linked sv (polls sv m (s, l)).2 ∧ (polls sv m (s, l)).2.caller = l.caller ∧
      (polls sv m (s, l)).2.broken = l.broken ∧
      ((polls sv m (s, l)).2.requests.phase = .ended ∨
        (polls sv m (s, l)).2.requests.unread = []) := by
  generalize hn : l.requests.unread.length = n
  induction n generalizing s l with
  | zero => exact ⟨0, h, rfl, rfl, .inr (List.length_eq_zero_iff.mp hn)⟩
  | succ n ih =>
      by_cases hphase : l.requests.phase = .ended
      · exact ⟨0, h, rfl, rfl, .inl hphase⟩
      · obtain ⟨hcaller, hbroken, hhung'⟩ := poll_caller sv s 1 l
        have hlen : (l.poll sv s 1).2.requests.unread.length = n := by
          have hunread : (l.poll sv s 1).2.requests.unread = l.requests.unread.drop 1 := by
            rw [poll, if_neg (by simp [hhung])]
            exact Loop.unread_poll (s := { l.requests with state := (s, l.executed) })
              h.requests_sound hphase
          rw [hunread, List.length_drop, hn]
          rfl
        obtain ⟨m, hm⟩ := ih (linked_poll h s 1) (hhung'.trans hhung) (l.poll sv s 1).1 hlen
        exact ⟨m + 1, by rwa [hcaller, hbroken] at hm⟩

/-- A byte of an answer is read, and with the last one the call is over. -/
theorem recv_waiting (h : Linked sv l) (hwaits : l.caller = .waiting) :
    (l.recv 1).caller = .idle ∨ ((l.recv 1).caller = .waiting ∧
      (l.recv 1).requests = l.requests ∧ (l.recv 1).broken = l.broken ∧
        (l.recv 1).replies.unread = l.replies.unread.drop 1) := by
  have hunread : (l.replies.step replyService (.poll 1)).unread = l.replies.unread.drop 1 :=
    Loop.unread_poll h.replies_sound h.reads
  rw [recv, if_pos hwaits]
  dsimp only
  split
  · exact .inl rfl
  · exact .inr ⟨hwaits, rfl, rfl, hunread⟩

theorem exists_recvs (h : Linked sv l) (hf : sv.Framed resp) (hwaits : l.caller = .waiting)
    (hwhole : l.broken = false) (hserves : l.requests.phase ≠ .ended)
    (hread : l.requests.unread = []) : ∃ m, (recvs m l).caller = .idle := by
  generalize hn : l.replies.unread.length = n
  induction n generalizing l with
  | zero =>
      have hflight := h.in_flight hf hwaits hwhole hserves
      rw [hread, List.length_eq_zero_iff.mp hn] at hflight
      exact absurd hflight (by simp)
  | succ n ih =>
      rcases recv_waiting h hwaits with hidle | ⟨hwaits', hrequests, hbroken, hunread⟩
      · exact ⟨1, hidle⟩
      · obtain ⟨m, hm⟩ := ih (linked_recv h hf 1) hwaits' (hbroken.trans hwhole)
          (hrequests ▸ hserves) (hrequests ▸ hread)
          (by rw [hunread, List.length_drop, hn]; rfl)
        exact ⟨m + 1, hm⟩

/-- **A call is answered or refused**, where its request was written and the serving end stays. -/
theorem answered_of_linked (h : Linked sv l) (hf : sv.Framed resp) (hwaits : l.caller = .waiting)
    (hwhole : l.broken = false) (hhung : l.hungUp = false) (s : σ) :
    ∃ a b, (polls sv a (s, l)).2.requests.phase = .ended ∨
      (recvs b (polls sv a (s, l)).2).caller = .idle := by
  obtain ⟨a, hlinked, hcaller, hbroken, hend | hread⟩ := exists_polls h hhung s
  · exact ⟨a, 0, .inl hend⟩
  · by_cases hphase : (polls sv a (s, l)).2.requests.phase = .ended
    · exact ⟨a, 0, .inl hphase⟩
    · obtain ⟨b, hb⟩ := exists_recvs hlinked hf (hcaller.trans hwaits) (hbroken.trans hwhole)
        hphase hread
      exact ⟨a, b, .inr hb⟩

end CallLink

end OnionNetwork.Lib
