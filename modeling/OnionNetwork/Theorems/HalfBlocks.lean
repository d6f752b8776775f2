import OnionNetwork.Lib.Crossings
import OnionNetwork.Server.Calls
import OnionNetwork.Theorems.LogFile

/-!
# Half-block crossings

`finalizes_once_iff`: while the buffer of unfinalized messages grows through a block,
`should_finalize` is true for exactly one call, unless a call leaves the buffer right at
the middle of the block. Then both comparisons of `should_finalize` are strict on the wrong
side, for that call and for the next one, and no attempt is made.
-/

namespace OnionNetwork.Server

open Chat Lib

variable {cr : Crypto}

/-- How many bytes a call adds to the buffer. -/
def Call.size : Call cr → Nat
  | .sendMessage _ _ proof => (newFrame proof).length
  | _ => 0

/-- A message is accepted and stays below the cap, and no other call accepts a block. -/
def Handle.OnlyGrows (localPeerId : NodeIdentity) (h : Handle) (c : Call cr) : Prop :=
  match c with
  | .sendMessage .. =>
      (h.answer localPeerId c).2.result = .ok () ∧
        h.root.bufferLen + c.size ≤ unfinalizedBufferCap
  | _ => (h.answer localPeerId c).2.accepted = none

/-- The length of the buffer behind the first `j` calls. -/
def bufferAfter (localPeerId : NodeIdentity) (h : Handle) (calls : List (Call cr)) (j : Nat) :
    Nat :=
  ((replicaMachine cr localPeerId).run h (calls.take j)).root.bufferLen

/-- `should_finalize` of the call `j`, which is the first for `j = 1`. -/
def finalizesAt (localPeerId : NodeIdentity) (h : Handle) (calls : List (Call cr)) (j : Nat) :
    Bool :=
  Handle.shouldFinalize (bufferAfter localPeerId h calls j)
    (bufferAfter localPeerId h calls (j - 1))

/-- An accepted message below the cap makes the buffer longer by its frame. -/
theorem sendMessage_bufferLen {h : Handle} {currentMs : Nat} {localPeerId : NodeIdentity}
    {group : FullReplGroup} {proof : Proof cr ReminderOwned}
    {req : Option (BlockNumber × Bytes)}
    (hok : (h.sendMessage currentMs localPeerId group proof).result = .ok req)
    (hcap : h.root.bufferLen + (newFrame proof).length ≤ unfinalizedBufferCap) :
    (h.sendMessage currentMs localPeerId group proof).handle.root.bufferLen =
        h.root.bufferLen + (newFrame proof).length ∧
      (newFrame proof).length ≤ 1042 := by
  obtain ⟨log, hstore, hroot, -⟩ := sendMessage_ok hok
  obtain ⟨hlen, hcp⟩ := storeMessage_eq_ok hstore
  have hsize : (newFrame proof).length = (Encode.encode (Handle.messageOf proof)).length + 2 := by
    rw [newFrame, LenCode.length_frame, logCode_width]
  refine ⟨?_, hsize.trans_le (Nat.add_le_add_right hlen 2)⟩
  rw [hroot]
  by_cases hhistory : h.blocks.length - h.root.checkpoint ≤ blockHistory * blockSize
  · rw [storeMessage_of_history _ hlen hcp hhistory, Log.discardOldest_of_le hcap] at hstore
    obtain rfl := congrArg Prod.fst hstore
    rfl
  · rw [storeMessage_of_compaction _ hlen (Nat.lt_of_not_le hhistory)] at hstore
    split at hstore
    · rw [Log.discardOldest_of_le hcap] at hstore
      obtain rfl := congrArg Prod.fst hstore
      rfl
    · cases congrArg Prod.snd hstore

/-- A call that accepts no block and is not a message leaves the root alone. -/
theorem answer_root_of_not_accepted {localPeerId : NodeIdentity} {h : Handle} {c : Call cr}
    (hother : ∀ currentMs group proof, c ≠ .sendMessage currentMs group proof)
    (haccepted : (h.answer localPeerId c).2.accepted = none) :
    (h.answer localPeerId c).1.root = h.root := by
  cases answer_callStep localPeerId h c with
  | quiet hquiet _ => exact hquiet.root
  | failed _ _ _ _ _ _ _ => exact absurd rfl (hother _ _ _)
  | stored _ _ _ _ _ _ _ => exact absurd rfl (hother _ _ _)
  | proposes _ _ _ _ _ _ _ _ _ _ => exact absurd rfl (hother _ _ _)
  | refused hwaits => exact hwaits.root
  | counted _ _ _ hwaits => exact hwaits.root
  | decided _ _ _ hdecides => cases haccepted.symm.trans hdecides.accepted
  | judged _ _ hwaits => exact hwaits.root
  | finalized _ hdecides => cases haccepted.symm.trans hdecides.accepted

/-- **One call** makes the buffer longer by its size. -/
theorem answer_bufferLen {localPeerId : NodeIdentity} {h : Handle} {c : Call cr}
    (hgrows : h.OnlyGrows localPeerId c) :
    (h.answer localPeerId c).1.root.bufferLen = h.root.bufferLen + c.size ∧ c.size ≤ 1042 := by
  cases c with
  | sendMessage currentMs group proof =>
      obtain ⟨hok, hcap⟩ := hgrows
      cases hres : (h.sendMessage currentMs localPeerId group proof).result with
      | ok req => exact sendMessage_bufferLen hres hcap
      | error fault => cases hok.symm.trans (answer_of_error Broadcast.ofFinalization hres).1
  | addMember | updateMember | kickMember | proposal | vote =>
      exact ⟨congrArg Root.bufferLen (answer_root_of_not_accepted nofun hgrows), Nat.zero_le _⟩

/-- **A run** fills the buffer with the sizes of its calls. -/
theorem run_bufferLen {localPeerId : NodeIdentity} {h : Handle} {calls : List (Call cr)}
    (hgrows : (replicaMachine cr localPeerId).EachStep (Handle.OnlyGrows localPeerId) h calls) :
    ((replicaMachine cr localPeerId).run h calls).root.bufferLen =
        h.root.bufferLen + (calls.map Call.size).sum ∧
      ∀ c ∈ calls, c.size ≤ 1042 := by
  induction calls generalizing h with
  | nil => exact ⟨rfl, List.forall_mem_nil _⟩
  | cons c calls ih =>
      obtain ⟨hlen, hsize⟩ := answer_bufferLen hgrows.1
      obtain ⟨hrun, hsizes⟩ := ih hgrows.2
      refine ⟨?_, List.forall_mem_cons.mpr ⟨hsize, hsizes⟩⟩
      show ((replicaMachine cr localPeerId).run (h.answer localPeerId c).1 calls).root.bufferLen = _
      rw [List.map_cons, List.sum_cons, ← Nat.add_assoc, ← hlen]
      exact hrun

/-- The buffer holds what the calls so far have added. -/
theorem bufferAfter_eq {localPeerId : NodeIdentity} {h : Handle} {calls : List (Call cr)}
    (hgrows : (replicaMachine cr localPeerId).EachStep (Handle.OnlyGrows localPeerId) h calls)
    (j : Nat) :
    bufferAfter localPeerId h calls j =
      h.root.bufferLen + ((calls.take j).map Call.size).sum := by
  have hsplit := List.take_append_drop j calls
  have htake : (replicaMachine cr localPeerId).EachStep (Handle.OnlyGrows localPeerId) h
      (calls.take j) := ((Machine.eachStep_append _ _ _ _ _).mp (hsplit ▸ hgrows)).1
  exact (run_bufferLen htake).1

/-- The buffer never gets shorter, nor longer than by a frame at once. -/
theorem bufferAfter_rises {localPeerId : NodeIdentity} {h : Handle} {calls : List (Call cr)}
    (hgrows : (replicaMachine cr localPeerId).EachStep (Handle.OnlyGrows localPeerId) h calls) :
    Rises (bufferAfter localPeerId h calls) 1042 calls.length := by
  have hnext : ∀ j (hj : j < calls.length),
      bufferAfter localPeerId h calls (j + 1) =
        bufferAfter localPeerId h calls j + calls[j].size := by
    intro j hj
    rw [bufferAfter_eq hgrows, bufferAfter_eq hgrows, List.take_succ_eq_append_getElem hj,
      List.map_append, List.sum_append, Nat.add_assoc]
    simp
  constructor
  · intro j hj
    rw [hnext j hj]
    exact Nat.le_add_right _ _
  · intro j hj
    rw [hnext j hj]
    exact Nat.add_le_add_left ((run_bufferLen hgrows).2 _ (List.getElem_mem hj)) _

/-- Behind the first block an attempt is made for the calls that cross a middle. -/
theorem shouldFinalize_iff {before after : Nat} (h : blockSize < after) :
    Handle.shouldFinalize after before = true ↔ Crosses (blockSize / 2) before after := by
  have hsize : 2 * (blockSize / 2) = blockSize := rfl
  simp only [Handle.shouldFinalize, Crosses, hsize, decide_eq_true_eq, h, true_and, gt_iff_lt]

/-- **One attempt for each half-block crossing**, exactly if no call leaves the buffer at
the middle of the block. -/
theorem finalizes_once_iff (localPeerId : NodeIdentity) (h : Handle) (calls : List (Call cr))
    (hempty : h.root.bufferLen = 0)
    (hgrows : (replicaMachine cr localPeerId).EachStep (Handle.OnlyGrows localPeerId) h calls)
    (k : Nat) (hk : 1 ≤ k) (last first : Nat)
    (hlast : IsLast (fun j => bufferAfter localPeerId h calls j < k * blockSize + blockSize / 2)
      calls.length last)
    (hfirst : IsFirst (fun j => (k + 1) * blockSize < bufferAfter localPeerId h calls j)
      calls.length first) :
    (∃! j, last < j ∧ j ≤ first ∧ finalizesAt localPeerId h calls j = true) ↔
      ∀ j ≤ calls.length,
        ((calls.take j).map Call.size).sum ≠ k * blockSize + blockSize / 2 := by
  have hhalf : 0 < blockSize / 2 := by decide
  have hcross := crosses_once_iff hhalf (show 1042 ≤ blockSize / 2 by decide)
    (bufferAfter_rises hgrows) hlast hfirst
  have hsum : ∀ j, bufferAfter localPeerId h calls j = ((calls.take j).map Call.size).sum := by
    intro j
    rw [bufferAfter_eq hgrows, hempty, Nat.zero_add]
  have hat : ∀ j, last < j ∧ j ≤ first ∧ finalizesAt localPeerId h calls j = true ↔
      last < j ∧ j ≤ first ∧ Crosses (blockSize / 2) (bufferAfter localPeerId h calls (j - 1))
        (bufferAfter localPeerId h calls j) := by
    intro j
    refine and_congr_right fun hlow => and_congr_right fun hhigh => shouldFinalize_iff ?_
    have hmid := Nat.le_of_not_lt (hlast.after j (Nat.le_trans hhigh hfirst.le) hlow)
    have hblock : 1 * blockSize ≤ k * blockSize := Nat.mul_le_mul_right _ hk
    omega
  simp only [hat, hcross, ← hsum]
  rfl

/-! ### Runs of equal messages -/

/-- Messages of the newcomer, one each millisecond, with contents of one size. -/
def notesFrom (content : Nat) : (nonce count : Nat) → List (Call .transparent)
  | _, 0 => []
  | nonce, count + 1 =>
      .sendMessage nonce replicas (Proof.transparent 2 nonce ⟨List.replicate content 0⟩) ::
        notesFrom content (nonce + 1) count

theorem length_notesFrom (content nonce count : Nat) :
    (notesFrom content nonce count).length = count := by
  induction count generalizing nonce with
  | zero => rfl
  | succ count ih => rw [notesFrom, List.length_cons, ih]

/-- A frame is the sender, a byte of the nonce, the content and its length. -/
theorem length_note {content nonce : Nat} (hnonce : nonce < 128) :
    (newFrame (Proof.transparent 2 nonce ⟨List.replicate content 0⟩)).length = content + 35 := by
  have hencoded : Encode.encode (Handle.messageOf
      (Proof.transparent 2 nonce (⟨List.replicate content 0⟩ : ReminderOwned))) =
      Hash.toBytes
          (Proof.transparent 2 nonce (⟨List.replicate content 0⟩ : ReminderOwned)).identity ++
        base128Encode nonce ++ List.replicate content 0 := rfl
  rw [newFrame, LenCode.length_frame, logCode_width, hencoded, base128Encode_of_lt hnonce]
  simp only [List.length_append, Hash.length_toBytes, List.length_singleton,
    List.length_replicate]
  omega

theorem sum_notesFrom {content nonce count : Nat} (hnonce : nonce + count ≤ 128) (j : Nat) :
    (((notesFrom content nonce count).take j).map Call.size).sum =
      min j count * (content + 35) := by
  induction count generalizing nonce j with
  | zero => simp [notesFrom]
  | succ count ih =>
      cases j with
      | zero => simp
      | succ j =>
          rw [notesFrom, List.take_succ_cons, List.map_cons, List.sum_cons, ih (by omega),
            Nat.succ_min_succ, Nat.succ_mul, Nat.add_comm]
          exact congrArg _ (length_note (by omega))

/-- Such messages are accepted while there is room. -/
theorem notesFrom_grow {content : Nat} (hcontent : content ≤ maxMessageSize) {nonce count : Nat}
    (hnonce : nonce + count ≤ 128) {h : Handle} {m : Member} (hget : h.members.get 2 = some m)
    (haction : m.action < nonce) (hfrozen : m.frozenUntil < nonce)
    (hsend : m.permissions.contains .send = true) (hcooldown : m.actionCooldownMs = 0)
    (hcheckpoint : h.root.checkpoint = 0) (hbuffer : h.root.bufferLen = h.blocks.length)
    (hroom : h.root.bufferLen + count * (content + 35) ≤ unfinalizedBufferCap) :
    (replicaMachine .transparent 0).EachStep (Handle.OnlyGrows 0) h
      (notesFrom content nonce count) := by
  induction count generalizing h m nonce with
  | zero => trivial
  | succ count ih =>
      rw [Nat.succ_mul] at hroom
      let proof : Proof .transparent ReminderOwned :=
        Proof.transparent 2 nonce ⟨List.replicate content 0⟩
      have hframe : (newFrame proof).length = content + 35 := length_note (by omega)
      have hlen : (Encode.encode (Handle.messageOf proof)).length ≤
          maxMessageSize + sizeOfMessage := by
        rw [newFrame, LenCode.length_frame, logCode_width] at hframe
        have hsize : sizeOfMessage = 56 := rfl
        omega
      -- the nonce is the time as well, so the member is never frozen
      have hspend := spendAction_eq_ok.mpr
        ⟨Proof.verify_transparent 2 nonce ⟨List.replicate content 0⟩, m,
          (identity_newcomer nonce _).symm ▸ hget, haction, hfrozen, hsend, rfl⟩
      have hhistory : h.blocks.length - h.root.checkpoint ≤ blockHistory * blockSize := by
        have hcap : unfinalizedBufferCap ≤ blockHistory * blockSize := by decide
        omega
      have hfits : h.root.bufferLen + (newFrame proof).length ≤ unfinalizedBufferCap := by omega
      obtain ⟨⟨req, hok⟩, hmembers, hroot, hblocks⟩ := sendMessage_of_fits_ok 0 replicas hspend hlen
        (by omega) hbuffer.le hhistory hfits
      -- what the first message leaves behind meets the assumptions for the others
      refine ⟨⟨(answer_of_ok Broadcast.ofFinalization hok).1, hfits⟩, ih (by omega) (m := { m with
        action := nonce, frozenUntil := nonce + m.actionCooldownMs }) ?_ ?_ ?_ hsend hcooldown
        ?_ ?_ ?_⟩
      · show SortedMap.get (h.sendMessage nonce 0 replicas proof).handle.members 2 = _
        rw [hmembers, identity_newcomer, SortedMap.get_put_self]
        rfl
      · exact Nat.lt_succ_self nonce
      · show nonce + m.actionCooldownMs < nonce + 1
        omega
      · show (h.sendMessage nonce 0 replicas proof).handle.root.checkpoint = 0
        rw [hroot]
        exact hcheckpoint
      · show (h.sendMessage nonce 0 replicas proof).handle.root.bufferLen =
          (h.sendMessage nonce 0 replicas proof).handle.blocks.length
        rw [hroot, hblocks, List.length_append, ← hbuffer]
        rfl
      · show (h.sendMessage nonce 0 replicas proof).handle.root.bufferLen + _ ≤ _
        rw [hroot]
        show h.root.bufferLen + (newFrame proof).length + _ ≤ _
        omega

/-- 43 notes in a fresh chat. -/
theorem notes_grow {content : Nat} (hcontent : content ≤ maxMessageSize) :
    (replicaMachine .transparent 0).EachStep (Handle.OnlyGrows 0) (.fresh lobbyMembers)
      (notesFrom content 1 43) := by
  have hmember : lobbyMembers.get 2 = some { permissions := .all, rank := 7 } := by decide
  have hroom : 43 * (content + 35) ≤ unfinalizedBufferCap := by
    have hmax : maxMessageSize = 984 := rfl
    have hcap : unfinalizedBufferCap = 81920 := rfl
    omega
  exact notesFrom_grow hcontent (by decide) hmember Nat.one_pos Nat.one_pos (by decide) rfl rfl rfl
    (by rwa [show (Handle.fresh lobbyMembers).root.bufferLen = 0 from rfl, Nat.zero_add])

theorem bufferAfter_notes {content : Nat} (hcontent : content ≤ maxMessageSize) (j : Nat) :
    bufferAfter 0 (.fresh lobbyMembers) (notesFrom content 1 43) j = min j 43 * (content + 35) := by
  have hempty : (Handle.fresh lobbyMembers).root.bufferLen = 0 := rfl
  rw [bufferAfter_eq (notes_grow hcontent), sum_notesFrom (by decide), hempty, Nat.zero_add]

/-- Their frames take 768 or 769 bytes: note 32 is the first one that gets to the middle of
the second block, and note 43 the first one behind its end. -/
theorem notes_range {content : Nat} (hlow : 733 ≤ content) (hhigh : content ≤ 734) :
    IsLast (fun j => bufferAfter 0 (.fresh lobbyMembers) (notesFrom content 1 43) j <
        1 * blockSize + blockSize / 2) (notesFrom content 1 43).length 31 ∧
      IsFirst (fun j => (1 + 1) * blockSize <
        bufferAfter 0 (.fresh lobbyMembers) (notesFrom content 1 43) j)
        (notesFrom content 1 43).length 43 := by
  have hcontent : content ≤ maxMessageSize := Nat.le_trans hhigh (by decide)
  have hblock : blockSize = 16384 := rfl
  have hframe : content = 733 ∨ content = 734 := by omega
  simp only [bufferAfter_notes hcontent, length_notesFrom, hblock]
  constructor
  · refine ⟨by decide, ?_, fun j hj hlast => ?_⟩ <;> rcases hframe with rfl | rfl <;> omega
  · refine ⟨Nat.le_refl _, ?_, fun j hj => ?_⟩ <;> rcases hframe with rfl | rfl <;> omega

/-- Frames of 769 bytes miss the middle of the second block, and one attempt is made. -/
theorem finalizes_once_notes :
    ∃! j, 31 < j ∧ j ≤ 43 ∧
      finalizesAt 0 (.fresh lobbyMembers) (notesFrom 734 1 43) j = true := by
  have hcontent : 734 ≤ maxMessageSize := by decide
  obtain ⟨hlast, hfirst⟩ := notes_range (show 733 ≤ 734 by decide) (by decide)
  refine (finalizes_once_iff 0 (.fresh lobbyMembers) (notesFrom 734 1 43) rfl
    (notes_grow hcontent) 1 (Nat.le_refl 1) 31 43 hlast hfirst).mpr fun j _ => ?_
  have hblock : blockSize = 16384 := rfl
  rw [sum_notesFrom (by decide), hblock]
  omega

/-- Frames of 768 bytes meet it, and no attempt is made on the way through the block. -/
theorem half_block_skipped :
    (replicaMachine .transparent 0).EachStep (Handle.OnlyGrows 0) (.fresh lobbyMembers)
        (notesFrom 733 1 43) ∧
      IsLast (fun j => bufferAfter 0 (.fresh lobbyMembers) (notesFrom 733 1 43) j <
        1 * blockSize + blockSize / 2) (notesFrom 733 1 43).length 31 ∧
      IsFirst (fun j => (1 + 1) * blockSize <
        bufferAfter 0 (.fresh lobbyMembers) (notesFrom 733 1 43) j)
        (notesFrom 733 1 43).length 43 ∧
      ¬ ∃! j, 31 < j ∧ j ≤ 43 ∧
        finalizesAt 0 (.fresh lobbyMembers) (notesFrom 733 1 43) j = true := by
  have hcontent : 733 ≤ maxMessageSize := by decide
  obtain ⟨hlast, hfirst⟩ := notes_range (show 733 ≤ 733 by decide) (by decide)
  have hnone : ∀ j ≤ 43, 31 < j →
      Handle.shouldFinalize (min j 43 * (733 + 35)) (min (j - 1) 43 * (733 + 35)) = false := by
    decide
  refine ⟨notes_grow hcontent, hlast, hfirst, ?_⟩
  rintro ⟨j, ⟨hlow, hhigh, hfinalizes⟩, -⟩
  rw [finalizesAt, bufferAfter_notes hcontent, bufferAfter_notes hcontent] at hfinalizes
  cases (hnone j hhigh hlow).symm.trans hfinalizes

end OnionNetwork.Server
