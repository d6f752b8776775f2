import OnionNetwork.Lib.WorkQueue
import OnionNetwork.Server.Rpc

/-!
# Reputation

`reputation::Rep`: every node rates the others. Bad responses raise the rating of a node, good
ones lower it, and a node whose rating goes beyond 1000 is reported and starts again from zero.
Reports go through `report_loop`, which votes on the chain; the votes of others count where
the node has made up half of its mind (`vote`).

Handlers run on many threads. `rate` holds the entry of the node it rates, so it is one step up
to the wake; `vote` looks at two entries and rates afterwards, so anything may happen in between.
-/

namespace OnionNetwork.Server

open Chat Lib

/-! ## Severities -/

/-- The `rate_map!` of an endpoint, where it has one. -/
def rater (rpcPrefix : Prefix) : Option (ChatError → Int) :=
  if rpcPrefix = Rpcs.sendBlock then
    some fun
      | .blockUnexpectedMessages => 100
      | .outdated => 5
      | _ => -1
  else if rpcPrefix = Rpcs.fetchChatData then some fun _ => 40
  else if rpcPrefix = Rpcs.voteBlock then
    some fun
      | .noReplicator => 50
      | .notFound => 5
      | .alreadyVoted => 30
      | _ => -1
  else if rpcPrefix = Rpcs.fetchProfileFull then some fun _ => 10
  else if rpcPrefix = Rpcs.fetchVault then some fun _ => 100
  else none

/-- Why a node is rated: what `Rated` saw of a response, a request from outside of the
replication group, a vault that could not be fetched, and whether its answer to a replicated
request was the one of the majority. -/
inductive Charge
  | response (rpcPrefix : Prefix) (res : Except ChatError Unit)
  | stranger
  | noVault
  | replicated (majority : Bool)

/-- How bad it is; nothing for an endpoint that is not rated. -/
def Charge.severity : Charge → Option Int
  | .response rpcPrefix res =>
      (rater rpcPrefix).map fun rate =>
        match res with
        | .ok _ => -1
        | .error e => rate e
  | .stranger => some 100
  | .noVault => some 40
  | .replicated majority => some (if majority then -1 else 10)

/-! ## Ratings -/

/-- `VOTE_DOWN_TRASHOLD`. -/
def voteDownTrashold : Nat := 1000

/-- `u64::saturating_add_signed`. -/
def saturatingAddSigned (r : Nat) (severity : Int) : Nat :=
  min ((r : Int) + severity).toNat (2 ^ 64 - 1)

/-- How far `vote` got. -/
inductive Voting
  | idle
  | sourced (target : NodeIdentity)
  | passed (target : NodeIdentity)
  deriving DecidableEq

/-- `Rep`, with `to_punish` and the waker as the queue of `report_loop`. -/
structure Rep where
  ratings : NodeIdentity → Option Nat
  toPunish : WorkQueue NodeIdentity
  voting : Voting

/-- What threads do: rate a node, take the next step of a vote, or a step of `report_loop`, where
`WorkInput.finish` is the end of a vote on the chain. -/
inductive RepInput
  | charge (identity : NodeIdentity) (c : Charge)
  | vote (source target : NodeIdentity)
  | lookAtTarget
  | rateTarget
  | loop (i : WorkInput)

namespace Rep

/-- `Rep::get`, at first. -/
def new : Rep := ⟨fun _ => none, WorkQueue.start, .idle⟩

/-- `Rep::rate`. -/
def rate (s : Rep) (identity : NodeIdentity) (severity : Int) : Rep :=
  let rat := saturatingAddSigned ((s.ratings identity).getD 0) severity
  if voteDownTrashold < rat then
    { s with
      ratings := Function.update s.ratings identity (some 0)
      toPunish := s.toPunish.push identity }
  else { s with ratings := Function.update s.ratings identity (some rat) }

/-- `Rep::vote`, where nothing comes in between. -/
def vote (s : Rep) (source target : NodeIdentity) : Rep :=
  if (s.ratings source).any fun r => decide (voteDownTrashold / 2 < r) then s
  else if (s.ratings target).any fun r => decide (r < voteDownTrashold / 2) then s
  else s.rate target 100

/-- One step. -/
def step (s : Rep) : RepInput → Rep
  | .charge identity c =>
      match c.severity with
      | some severity => s.rate identity severity
      | none => s
  | .vote source target =>
      if s.voting = .idle then
        if (s.ratings source).any fun r => decide (voteDownTrashold / 2 < r) then s
        else { s with voting := .sourced target }
      else s
  | .lookAtTarget =>
      match s.voting with
      | .sourced target =>
          if (s.ratings target).any fun r => decide (r < voteDownTrashold / 2) then
            { s with voting := .idle }
          else { s with voting := .passed target }
      | _ => s
  | .rateTarget =>
      match s.voting with
      | .passed target => { s.rate target 100 with voting := .idle }
      | _ => s
  | .loop i => { s with toPunish := s.toPunish.step i }

/-- The node as a machine. -/
def machine : Machine Rep RepInput Unit where
  step s i := (s.step i, ())

/-- The rating of a node; nodes that were never rated have none. -/
def rating (s : Rep) (x : NodeIdentity) : Nat := (s.ratings x).getD 0

/-- How often a node was reported, or is to be. -/
def punished (s : Rep) (x : NodeIdentity) : Nat := s.toPunish.pushed.count x

/-- What a vote that got through its checks is about to add. -/
def pending (s : Rep) (x : NodeIdentity) : Nat := if s.voting = .passed x then 100 else 0

end Rep

/-- What an input charges a node with. -/
def RepInput.charges (x : NodeIdentity) : RepInput → List Int
  | .charge identity c => if identity = x then c.severity.toList else []
  | _ => []

/-- The offences of a node, each as bad as it is. -/
def offences (charges : List Int) : Nat := (charges.map Int.toNat).sum

/-! ## Spec lemmas -/

theorem severity_bound {c : Charge} {severity : Int} (h : c.severity = some severity) :
    -1 ≤ severity ∧ severity ≤ 100 := by
  have hrater {rpcPrefix : Prefix} {rate : ChatError → Int} (hrate : rater rpcPrefix = some rate)
      (e : ChatError) : -1 ≤ rate e ∧ rate e ≤ 100 := by
    simp only [rater] at hrate
    split_ifs at hrate <;> obtain rfl := Option.some.inj hrate
    · dsimp only
      split <;> decide
    · simp
    · dsimp only
      split <;> decide
    · simp
    · simp
  cases c with
  | response rpcPrefix res =>
      obtain ⟨rate, hrate, rfl⟩ := Option.map_eq_some_iff.mp h
      cases res with
      | ok _ => simp
      | error e => exact hrater hrate e
  | stranger => obtain rfl := Option.some.inj h; decide
  | noVault => obtain rfl := Option.some.inj h; decide
  | replicated majority =>
      obtain rfl := Option.some.inj h
      cases majority <;> decide

namespace Rep

variable {s : Rep} {x y : NodeIdentity} {severity : Int}

/-- The new rating, before it is held against the threshold. -/
def raised (s : Rep) (x : NodeIdentity) (severity : Int) : Nat :=
  saturatingAddSigned (s.rating x) severity

theorem rate_of_le (h : s.raised x severity ≤ 1000) :
    s.rate x severity =
      { s with ratings := Function.update s.ratings x (some (s.raised x severity)) } :=
  if_neg (Nat.not_lt.mpr h)

theorem rate_of_gt (h : 1000 < s.raised x severity) :
    s.rate x severity =
      { s with
        ratings := Function.update s.ratings x (some 0)
        toPunish := s.toPunish.push x } :=
  if_pos h

/-- **What rating a node does to it.** -/
theorem rate_cases (s : Rep) (x : NodeIdentity) (severity : Int) :
    (s.raised x severity ≤ 1000 ∧ (s.rate x severity).rating x = s.raised x severity ∧
      (s.rate x severity).punished x = s.punished x) ∨
    (1000 < s.raised x severity ∧ (s.rate x severity).rating x = 0 ∧
      (s.rate x severity).punished x = s.punished x + 1) := by
  rcases Nat.lt_or_ge 1000 (s.raised x severity) with hgt | hle
  · rw [rate_of_gt hgt]
    refine .inr ⟨hgt, ?_, ?_⟩
    · simp only [rating, Function.update_self, Option.getD_some]
    · show (s.toPunish.pushed ++ [x]).count x = _
      rw [List.count_append, List.count_singleton_self, punished]
  · rw [rate_of_le hle]
    refine .inl ⟨hle, ?_, rfl⟩
    simp only [rating, Function.update_self, Option.getD_some]

theorem rate_known (s : Rep) (x : NodeIdentity) (severity : Int) :
    (s.rate x severity).ratings x ≠ none := by
  rcases Nat.lt_or_ge 1000 (s.raised x severity) with hgt | hle
  · simp [rate_of_gt hgt]
  · simp [rate_of_le hle]

/-- Rating a node leaves the others alone. -/
theorem rate_of_ne (s : Rep) (severity : Int) (hne : x ≠ y) :
    (s.rate y severity).ratings x = s.ratings x ∧
      (s.rate y severity).punished x = s.punished x := by
  rcases Nat.lt_or_ge 1000 (s.raised y severity) with hgt | hle
  · rw [rate_of_gt hgt]
    refine ⟨Function.update_of_ne hne .., ?_⟩
    show (s.toPunish.pushed ++ [y]).count x = _
    rw [List.count_append, List.count_singleton, if_neg (by simpa using hne.symm), Nat.add_zero,
      punished]
  · rw [rate_of_le hle]
    exact ⟨Function.update_of_ne hne .., rfl⟩

theorem rate_voting : (s.rate y severity).voting = s.voting := by
  rcases Nat.lt_or_ge 1000 (s.raised y severity) with hgt | hle
  · rw [rate_of_gt hgt]
  · rw [rate_of_le hle]

/-- The steps of a vote, one after the other. -/
theorem vote_steps (hidle : s.voting = .idle) (source target : NodeIdentity) :
    machine.run s [.vote source target, .lookAtTarget, .rateTarget] = s.vote source target := by
  obtain ⟨ratings, toPunish, voting⟩ := s
  obtain rfl : voting = .idle := hidle
  by_cases hsource : (ratings source).any fun r => decide (voteDownTrashold / 2 < r)
  · simp [Machine.run, machine, step, vote, hsource]
  · by_cases htarget : (ratings target).any fun r => decide (r < voteDownTrashold / 2)
    · simp [Machine.run, machine, step, vote, hsource, htarget]
    · have hsourced : step ⟨ratings, toPunish, .idle⟩ (.vote source target) =
          ⟨ratings, toPunish, .sourced target⟩ := by simp [step, hsource]
      have hpassed : step ⟨ratings, toPunish, .sourced target⟩ .lookAtTarget =
          ⟨ratings, toPunish, .passed target⟩ := by simp [step, htarget]
      simp only [Machine.run, machine, hsourced, hpassed]
      rw [vote, if_neg hsource, if_neg htarget]
      dsimp only [step, rate]
      split
      · rfl
      · rfl

/-! ## What holds of a node in every run -/

/-- The rating of a node and how often it was punished, beside its charges. -/
structure Judged (s : Rep) (x : NodeIdentity) (charges : List Int) : Prop where
  evidence : 400 * s.punished x + min (s.rating x + s.pending x) 500 ≤ offences charges + 100
  spent : charges.sum ≤ 1100 * s.punished x + s.rating x
  low : s.rating x ≤ 1000
  unknown : s.ratings x = none → s.punished x = 0

theorem offences_append (charges more : List Int) :
    offences (charges ++ more) = offences charges + offences more := by
  simp [offences]

variable {charges : List Int}

/-- Nothing about the node has changed. -/
theorem judged_of_eq {s' : Rep} (h : s.Judged x charges) (hrating : s'.ratings x = s.ratings x)
    (hpunished : s'.punished x = s.punished x) (hpending : s'.pending x ≤ s.pending x) :
    s'.Judged x charges := by
  have hsame : s'.rating x = s.rating x := by rw [rating, hrating, rating]
  refine ⟨?_, ?_, ?_, ?_⟩
  · have := h.evidence
    rw [hpunished, hsame]
    omega
  · rw [hpunished, hsame]
    exact h.spent
  · rw [hsame]
    exact h.low
  · rw [hpunished, hrating]
    exact h.unknown

theorem judged_charge (h : s.Judged x charges) (hsev : -1 ≤ severity ∧ severity ≤ 100) :
    (s.rate x severity).Judged x (charges ++ [severity]) := by
  have hpending : (s.rate x severity).pending x = s.pending x := by
    rw [pending, rate_voting, pending]
  have hpend : s.pending x ≤ 100 := by
    unfold pending
    split <;> omega
  have hoff : offences (charges ++ [severity]) = offences charges + severity.toNat := by
    rw [offences_append]
    rfl
  have hsum : (charges ++ [severity]).sum = charges.sum + severity := by simp
  have hevidence := h.evidence
  have hspent := h.spent
  have hlow := h.low
  have hraised : s.raised x severity = ((s.rating x : Int) + severity).toNat := by
    rw [raised, saturatingAddSigned]
    omega
  rcases rate_cases s x severity with ⟨hle, hrating, hpunished⟩ | ⟨hgt, hrating, hpunished⟩
  · refine ⟨?_, ?_, ?_, fun hnone => absurd hnone (rate_known s x severity)⟩
    · rw [hpunished, hrating, hpending, hoff]
      omega
    · rw [hpunished, hrating, hsum]
      omega
    · omega
  · refine ⟨?_, ?_, ?_, fun hnone => absurd hnone (rate_known s x severity)⟩
    · rw [hpunished, hrating, hpending, hoff]
      omega
    · rw [hpunished, hrating, hsum]
      push_cast
      omega
    · omega

/-- A vote that got through. -/
theorem judged_vote (h : s.Judged x charges) (hpassed : s.voting = .passed x) :
    ({ s.rate x 100 with voting := .idle } : Rep).Judged x charges := by
  have hpending : s.pending x = 100 := if_pos hpassed
  have hevidence := h.evidence
  have hspent := h.spent
  have hlow := h.low
  have hraised : s.raised x 100 = s.rating x + 100 := by
    rw [raised, saturatingAddSigned]
    omega
  have hnone (hnone : ({ s.rate x 100 with voting := .idle } : Rep).ratings x = none) :
      ({ s.rate x 100 with voting := .idle } : Rep).punished x = 0 :=
    absurd hnone (rate_known s x 100)
  rcases rate_cases s x 100 with ⟨hle, hrating, hpunished⟩ | ⟨hgt, hrating, hpunished⟩
  · refine ⟨?_, ?_, ?_, hnone⟩
    · show 400 * (s.rate x 100).punished x + min ((s.rate x 100).rating x + 0) 500 ≤ _
      rw [hpunished, hrating]
      omega
    · show _ ≤ 1100 * ((s.rate x 100).punished x : Int) + ((s.rate x 100).rating x : Int)
      rw [hpunished, hrating]
      omega
    · show (s.rate x 100).rating x ≤ 1000
      omega
  · refine ⟨?_, ?_, ?_, hnone⟩
    · show 400 * (s.rate x 100).punished x + min ((s.rate x 100).rating x + 0) 500 ≤ _
      rw [hpunished, hrating]
      omega
    · show _ ≤ 1100 * ((s.rate x 100).punished x : Int) + ((s.rate x 100).rating x : Int)
      rw [hpunished, hrating]
      push_cast
      omega
    · show (s.rate x 100).rating x ≤ 1000
      omega

/-- A vote on a node the others made up their mind about, or that is not known. -/
theorem judged_pass (h : s.Judged x charges)
    (hpass : (s.ratings x).any (fun r => decide (r < voteDownTrashold / 2)) = false) :
    ({ s with voting := .passed x } : Rep).Judged x charges := by
  have hpending : ({ s with voting := .passed x } : Rep).pending x = 100 := if_pos rfl
  refine ⟨?_, h.spent, h.low, h.unknown⟩
  rw [hpending]
  show 400 * s.punished x + min (s.rating x + 100) 500 ≤ _
  have hevidence := h.evidence
  cases hrating : s.ratings x with
  | none =>
      rw [h.unknown hrating, rating, hrating]
      simp
  | some r =>
      rw [hrating] at hpass
      have hhalf : 500 ≤ r := Nat.not_lt.mp (of_decide_eq_false hpass)
      rw [rating, hrating] at hevidence ⊢
      simp only [Option.getD_some] at hevidence ⊢
      omega

/-- The step lemma. -/
theorem judged_step (h : s.Judged x charges) (i : RepInput) :
    (s.step i).Judged x (charges ++ i.charges x) := by
  cases i with
  | charge y c =>
      simp only [step, RepInput.charges]
      cases hsev : c.severity with
      | none =>
          dsimp only
          split <;> simpa using h
      | some severity =>
          dsimp only
          split
          · next heq =>
              subst heq
              exact judged_charge h (severity_bound hsev)
          · next hne =>
              obtain ⟨hrating, hpunished⟩ := rate_of_ne s severity (Ne.symm hne)
              rw [List.append_nil]
              exact judged_of_eq h hrating hpunished
                (by rw [pending, rate_voting, pending])
  | vote source target =>
      simp only [step, RepInput.charges, List.append_nil]
      split
      · split
        · exact h
        · refine judged_of_eq h rfl rfl ?_
          rw [pending, if_neg (by simp)]
          exact Nat.zero_le _
      · exact h
  | lookAtTarget =>
      simp only [step, RepInput.charges, List.append_nil]
      split
      · next target _ =>
          split
          · refine judged_of_eq h rfl rfl ?_
            rw [pending, if_neg (by simp)]
            exact Nat.zero_le _
          · next hpass =>
              by_cases heq : target = x
              · subst heq
                -- the vote has passed its test: its severity is pending
                exact judged_pass h (by simpa using hpass)
              · refine judged_of_eq h rfl rfl ?_
                rw [pending, if_neg (by simpa using heq)]
                exact Nat.zero_le _
      · exact h
  | rateTarget =>
      simp only [step, RepInput.charges, List.append_nil]
      split
      · next target hpassed =>
          by_cases heq : target = x
          · subst heq
            exact judged_vote h hpassed
          · obtain ⟨hrating, hpunished⟩ := rate_of_ne s 100 (Ne.symm heq)
            refine judged_of_eq h hrating hpunished ?_
            rw [pending, if_neg (by simp)]
            exact Nat.zero_le _
      · exact h
  | loop i =>
      simp only [step, RepInput.charges, List.append_nil]
      exact judged_of_eq h rfl (congrArg (List.count x) (WorkQueue.step_pushed s.toPunish i))
        (Nat.le_refl _)

/-- The run lemma. -/
theorem judged_run (h : s.Judged x charges) (is : List RepInput) :
    (machine.run s is).Judged x (charges ++ is.flatMap (RepInput.charges x)) := by
  induction is generalizing s charges with
  | nil => simpa [Machine.run] using h
  | cons i is ih =>
      have hrest := ih (judged_step h i)
      rwa [List.append_assoc] at hrest

theorem judged_new (x : NodeIdentity) : new.Judged x [] where
  evidence := by simp [new, punished, rating, pending, WorkQueue.start, offences]
  spent := by simp [new, punished, rating, WorkQueue.start]
  low := by simp [new, rating]
  unknown _ := rfl

/-! ## Reports -/

theorem live_rate (h : s.toPunish.Live) (x : NodeIdentity) (severity : Int) :
    (s.rate x severity).toPunish.Live := by
  rcases Nat.lt_or_ge 1000 (s.raised x severity) with hgt | hle
  · rw [rate_of_gt hgt]
    exact WorkQueue.live_push h x
  · rw [rate_of_le hle]
    exact h

theorem live_step (h : s.toPunish.Live) (i : RepInput) : (s.step i).toPunish.Live := by
  cases i with
  | charge y c =>
      simp only [step]
      split
      · exact live_rate h y _
      · exact h
  | vote source target =>
      simp only [step]
      split
      · split
        · exact h
        · exact h
      · exact h
  | lookAtTarget =>
      simp only [step]
      split
      · split
        · exact h
        · exact h
      · exact h
  | rateTarget =>
      simp only [step]
      split
      · exact live_rate h _ 100
      · exact h
  | loop i => exact WorkQueue.live_step h i

theorem live_run (is : List RepInput) : (machine.run new is).toPunish.Live :=
  Machine.always_run (m := machine) (P := fun s => s.toPunish.Live) (fun _ i h => live_step h i)
    WorkQueue.live_start

/-- The loop on its own. -/
theorem run_loop (s : Rep) (is : List WorkInput) :
    (machine.run s (is.map .loop)).toPunish = (WorkQueue.machine _).run s.toPunish is := by
  induction is generalizing s with
  | nil => rfl
  | cons i is ih => exact ih (s.step (.loop i))

end Rep

end OnionNetwork.Server
