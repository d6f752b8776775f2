import OnionNetwork.Server.Reputation

/-!
# Who is punished

* `punished_bounds` — punishments rest on what the node saw itself: each takes 400 points of
  offences, but for 100 that a vote adds where nothing is known, however many votes there are.
  And nobody gets away: offences that are not made good are punished;
* `reports_done` — the loop that reports does not sleep on its work, and reports every punished
  node as often as it was punished.
-/

namespace OnionNetwork.Server

open Chat Lib

/-- **Punishments and offences**, with the votes and ratings of all threads in any order. -/
theorem punished_bounds (is : List RepInput) (x : NodeIdentity) :
    let s := Rep.machine.run Rep.new is
    let charges := is.flatMap (RepInput.charges x)
    400 * s.punished x ≤ offences charges + 100 ∧ charges.sum ≤ 1100 * s.punished x + 1000 := by
  intro s charges
  have hjudged : s.Judged x charges := Rep.judged_run (Rep.judged_new x) is
  have hlow := hjudged.low
  have hspent := hjudged.spent
  refine ⟨(Nat.le_add_right _ _).trans hjudged.evidence, ?_⟩
  omega

/-- **Every punishment is reported**, whatever the threads do meanwhile. -/
theorem reports_done (is : List RepInput) :
    let s := Rep.machine.run Rep.new is
    let after := Rep.machine.run s (s.toPunish.drain.map .loop)
    s.toPunish.Awake ∧ after.toPunish.queue = [] ∧
      after.toPunish.done.Perm s.toPunish.pushed := by
  intro s after
  have hlive : s.toPunish.Live := Rep.live_run is
  have hafter : after.toPunish = (WorkQueue.machine _).run s.toPunish s.toPunish.drain :=
    Rep.run_loop s s.toPunish.drain
  rw [hafter]
  exact ⟨hlive.awake, WorkQueue.drained hlive⟩

end OnionNetwork.Server
