import OnionNetwork.Server.Replication

/-!
# Agreement on the finalized blocks

`replicas_agree`: the logs of any two replicas are prefixes of one another in
every run in which a replica proposes only when nothing is left to decide
(`OneAtATime`). `send_message` proposes whenever its buffer crosses the middle
of a block, whatever is under vote, and votes are kept per hash, so nothing in
the code keeps two blocks from being decided in different orders.

The induction carries the common part of the logs and the one block that may be
under decision: a replica either still has that block before it, or has applied
it and holds nothing.
-/

namespace OnionNetwork.Server

open Chat Lib

variable {cr : Crypto} {group : FullReplGroup}

/-- The block a message proposes. -/
def Broadcast.blockHash (cr : Crypto) : Broadcast → Option Hash
  | .sendBlock _ block => some (cr.blake3 block)
  | .voteBlock _ _ _ => none

/-- The proposed blocks on their way to a node. -/
def pendingBlocks (cr : Crypto) (packets : List (Packet NodeIdentity Broadcast))
    (n : NodeIdentity) : List Hash :=
  (inbox packets n).filterMap (Broadcast.blockHash cr)

/-- The state of the group in a run: the network and the logs. -/
abbrev GroupState := Net NodeIdentity Handle Broadcast × FinalizedLogs

/-- Nothing is left to decide: no replica holds a block, none is on its way, and
all have applied equally many. -/
structure Settled (cr : Crypto) (group : FullReplGroup) (s : GroupState) : Prop where
  noBlocks : ∀ n ∈ group, (s.1.node n).NoBlocks
  nonePending : ∀ n ∈ group, pendingBlocks cr s.1.packets n = []
  level : ∀ i ∈ group, ∀ j ∈ group, (s.2 i).length = (s.2 j).length

/-- The logs of any two replicas are prefixes of one another. -/
def LogsAgree (group : FullReplGroup) (logs : FinalizedLogs) : Prop :=
  ∀ i ∈ group, ∀ j ∈ group, logs i <+: logs j ∨ logs j <+: logs i

/-- A call that makes a replica propose comes when nothing is left to decide. -/
def OneAtATime (s : GroupState) : NetAction NodeIdentity (ClientCall cr group) → Prop
  | .input n c => (s.1.node n).Proposes n c.1 → Settled cr group s
  | .deliver _ => True
  | .lose _ => True

/-- A replica of a group whose logs agree on `common` and that decides about
`b`: it has the block before it, held or on its way, or has applied it. -/
def InStep (common : List Hash) (b : Hash) (log : List Hash) (h : Handle)
    (pending : List Hash) : Prop :=
  (log = common ∧ ((h.OnlyBlock b ∧ pending = []) ∨ (h.NoBlocks ∧ pending = [b]))) ∨
    (log = common ++ [b] ∧ h.NoBlocks ∧ pending = [])

/-- All replicas are in step. -/
def GroupInStep (cr : Crypto) (group : FullReplGroup) (s : GroupState) (common : List Hash)
    (b : Hash) : Prop :=
  ∀ n ∈ group, InStep common b (s.2 n) (s.1.node n) (pendingBlocks cr s.1.packets n)

/-- Replicas in step have logs that are prefixes of one another. -/
theorem InStep.prefix_or {common : List Hash} {b : Hash} {log log' : List Hash} {h h' : Handle}
    {pending pending' : List Hash} (hn : InStep common b log h pending)
    (hm : InStep common b log' h' pending') : log <+: log' ∨ log' <+: log := by
  rcases hn with ⟨rfl, -⟩ | ⟨rfl, -⟩
  · rcases hm with ⟨rfl, -⟩ | ⟨rfl, -⟩
    · exact .inl (List.prefix_refl _)
    · exact .inl (List.prefix_append _ _)
  · rcases hm with ⟨rfl, -⟩ | ⟨rfl, -⟩
    · exact .inr (List.prefix_append _ _)
    · exact .inl (List.prefix_refl _)

/-- The order of the messages on their way does not matter. -/
theorem InStep.perm {common : List Hash} {b : Hash} {log : List Hash} {h : Handle}
    {pending pending' : List Hash} (hn : InStep common b log h pending)
    (hperm : pending.Perm pending') : InStep common b log h pending' := by
  rcases hn with ⟨hlog, ⟨honly, rfl⟩ | ⟨hno, rfl⟩⟩ | ⟨hlog, hno, rfl⟩
  · exact .inl ⟨hlog, .inl ⟨honly, List.nil_perm.mp hperm⟩⟩
  · exact .inl ⟨hlog, .inr ⟨hno, (List.singleton_perm.mp hperm).symm⟩⟩
  · exact .inr ⟨hlog, hno, List.nil_perm.mp hperm⟩

/-- Losing messages keeps a replica in step. -/
theorem InStep.sublist {common : List Hash} {b : Hash} {log : List Hash} {h : Handle}
    {pending pending' : List Hash} (hn : InStep common b log h pending)
    (hsub : pending'.Sublist pending) : InStep common b log h pending' := by
  rcases hn with ⟨hlog, ⟨honly, rfl⟩ | ⟨hno, rfl⟩⟩ | ⟨hlog, hno, rfl⟩
  · exact .inl ⟨hlog, .inl ⟨honly, List.sublist_nil.mp hsub⟩⟩
  · rcases List.sublist_singleton.mp hsub with rfl | rfl
    · exact .inl ⟨hlog, .inl ⟨hno.only b, rfl⟩⟩
    · exact .inl ⟨hlog, .inr ⟨hno, rfl⟩⟩
  · exact .inr ⟨hlog, hno, List.sublist_nil.mp hsub⟩

/-- Only the votes of the handle matter. -/
theorem InStep.congr {common : List Hash} {b : Hash} {log : List Hash} {h h' : Handle}
    {pending : List Hash} (hn : InStep common b log h pending) (hvoting : h'.voting = h.voting) :
    InStep common b log h' pending := by
  unfold InStep Handle.OnlyBlock Handle.NoBlocks
  rw [hvoting]
  exact hn

/-- A decision about the common block is recorded, or the block is lost. -/
theorem inStep_of_accepted {logs : FinalizedLogs} {n : NodeIdentity} {a : Answer}
    {acc : Accepted} {h : Handle} (haccepted : a.accepted = some acc) (hno : h.NoBlocks) :
    InStep (logs n) acc.hash (recordFinalized logs n a n) h [] := by
  unfold recordFinalized
  rcases Answer.applied_of_accepted haccepted with hsome | hnone
  · rw [hsome]
    exact .inr ⟨Function.update_self _ _ _, hno, rfl⟩
  · rw [hnone]
    exact .inl ⟨rfl, .inl ⟨hno.only _, rfl⟩⟩

/-- Without an accepted block the logs stay. -/
theorem recordFinalized_of_not_accepted {logs : FinalizedLogs} {n : NodeIdentity} {a : Answer}
    (haccepted : a.accepted = none) : recordFinalized logs n a = logs := by
  unfold recordFinalized
  rw [Answer.applied_of_not_accepted haccepted]

theorem recordFinalized_ne {logs : FinalizedLogs} {n m : NodeIdentity} (a : Answer) (hne : m ≠ n) :
    recordFinalized logs n a m = logs m := by
  unfold recordFinalized
  cases a.applied with
  | none => rfl
  | some acc => exact Function.update_of_ne hne _ _

/-- A replica in step stays so under a vote. -/
theorem InStep.vote {common : List Hash} {b : Hash} {logs : FinalizedLogs} {n : NodeIdentity}
    {h : Handle} {pending : List Hash} (hn : InStep common b (logs n) h pending)
    (origin : NodeIdentity) (bn : BlockNumber) (hash : Hash) (agrees : Bool) :
    let r := h.answer n (.vote origin bn hash agrees : Call cr)
    InStep common b (recordFinalized logs n r.2 n) r.1 pending := by
  intro r
  have honly : h.OnlyBlock b := by
    rcases hn with ⟨-, ⟨honly, -⟩ | ⟨hno, -⟩⟩ | ⟨-, hno, -⟩
    · exact honly
    · exact hno.only b
    · exact hno.only b
  rcases vote_blocks n honly origin bn hash agrees with
    ⟨haccepted, honly', hno'⟩ | ⟨acc, haccepted, rfl, hno', hheld⟩
  · rw [recordFinalized_of_not_accepted haccepted]
    rcases hn with ⟨hlog, ⟨-, hpending⟩ | ⟨hno, hpending⟩⟩ | ⟨hlog, hno, hpending⟩
    · exact .inl ⟨hlog, .inl ⟨honly', hpending⟩⟩
    · exact .inl ⟨hlog, .inr ⟨hno' hno, hpending⟩⟩
    · exact .inr ⟨hlog, hno' hno, hpending⟩
  · -- the decided block was held, so nothing was on its way
    rcases hn with ⟨rfl, ⟨-, rfl⟩ | ⟨hno, -⟩⟩ | ⟨-, hno, -⟩
    · exact inStep_of_accepted haccepted hno'
    · exact absurd hno hheld
    · exact absurd hno hheld

/-- A replica that waits for the block stays in step when it arrives. -/
theorem inStep_proposal {b : Hash} {logs : FinalizedLogs} {n : NodeIdentity} {h : Handle}
    (hno : h.NoBlocks) (origin : NodeIdentity) (number : BlockNumber) (block : Bytes)
    (hb : cr.blake3 block = b) :
    let r := h.answer n (.proposal origin group number block : Call cr)
    InStep (logs n) b (recordFinalized logs n r.2 n) r.1 [] := by
  intro r
  subst hb
  rcases proposal_blocks n hno origin group number block with
    ⟨haccepted, honly⟩ | ⟨acc, haccepted, hacc, hno'⟩
  · rw [recordFinalized_of_not_accepted haccepted]
    exact .inl ⟨rfl, .inl ⟨honly, rfl⟩⟩
  · rw [← hacc]
    exact inStep_of_accepted haccepted hno'

/-! ## The network -/

theorem pendingBlocks_append (ps qs : List (Packet NodeIdentity Broadcast)) (n : NodeIdentity) :
    pendingBlocks cr (ps ++ qs) n = pendingBlocks cr ps n ++ pendingBlocks cr qs n := by
  rw [pendingBlocks, inbox_append, List.filterMap_append]
  rfl

theorem pendingBlocks_perm (cr : Crypto)
    {ps qs : List (Packet NodeIdentity Broadcast)} (h : ps.Perm qs)
    (n : NodeIdentity) : (pendingBlocks cr ps n).Perm (pendingBlocks cr qs n) :=
  (inbox_perm h n).filterMap _

/-- What is proposed goes to each other replica once. -/
theorem pendingBlocks_broadcast (n m : NodeIdentity) (a : Answer) :
    pendingBlocks cr ((chatNetwork cr group).broadcast n a) m =
      if m ∈ getOthers group n then
        (a.broadcast.toList.filterMap (Broadcast.blockHash cr))
      else [] := by
  rw [pendingBlocks, Network.inbox_broadcast]
  show List.filterMap _ (if m ∈ getOthers group n then a.broadcast.toList else []) = _
  by_cases hm : m ∈ getOthers group n
  · rw [if_pos hm, if_pos hm]
  · rw [if_neg hm, if_neg hm]
    rfl

/-- A call that proposes nothing adds no block to those on their way. -/
theorem pendingBlocks_noBlock {n : NodeIdentity} {a : Answer} (hno : a.NoBlock)
    (rest : List (Packet NodeIdentity Broadcast)) (m : NodeIdentity) :
    pendingBlocks cr (rest ++ (chatNetwork cr group).broadcast n a) m =
      pendingBlocks cr rest m := by
  have hnone : a.broadcast.toList.filterMap (Broadcast.blockHash cr) = [] := by
    cases hb : a.broadcast with
    | none => rfl
    | some body =>
        cases body with
        | sendBlock number block => exact absurd hb (hno number block)
        | voteBlock hash number agrees => rfl
  rw [pendingBlocks_append, pendingBlocks_broadcast, hnone, ite_self, List.append_nil]

/-- The group after one replica handled a call. -/
def handled (group : FullReplGroup) (s : GroupState) (n : NodeIdentity) (c : Call cr)
    (rest : List (Packet NodeIdentity Broadcast)) : GroupState :=
  (((chatNetwork cr group).handle s.1 n c rest).1,
    recordFinalized s.2 n ((s.1.node n).answer n c).2)

/-- A call that proposes nothing keeps the group in step if it keeps the replica
in step that handles it. -/
theorem groupInStep_handled {s : GroupState} {common : List Hash} {b : Hash} {n : NodeIdentity}
    {c : Call cr} {rest : List (Packet NodeIdentity Broadcast)}
    (hinv : GroupInStep cr group s common b)
    (hno : ((s.1.node n).answer n c).2.NoBlock)
    (hrest : ∀ m, m ≠ n → (pendingBlocks cr s.1.packets m).Perm (pendingBlocks cr rest m))
    (hself : n ∈ group → InStep common b (recordFinalized s.2 n ((s.1.node n).answer n c).2 n)
      ((s.1.node n).answer n c).1 (pendingBlocks cr rest n)) :
    GroupInStep cr group (handled group s n c rest) common b := by
  intro m hm
  show InStep common b (recordFinalized s.2 n ((s.1.node n).answer n c).2 m)
    (Function.update s.1.node n ((s.1.node n).answer n c).1 m)
    (pendingBlocks cr
      (rest ++ (chatNetwork cr group).broadcast n ((s.1.node n).answer n c).2) m)
  rw [pendingBlocks_noBlock hno]
  by_cases hmn : m = n
  · subst hmn
    rw [Function.update_self]
    exact hself hm
  · rw [Function.update_of_ne hmn, recordFinalized_ne _ hmn]
    exact (hinv m hm).perm (hrest m hmn)

/-- A settled group agrees on all it has applied. -/
theorem Settled.common {s : GroupState} {common : List Hash} {b : Hash}
    (hset : Settled cr group s) (hinv : GroupInStep cr group s common b) :
    ∃ all, ∀ n ∈ group, s.2 n = all := by
  by_cases hsome : ∃ n ∈ group, s.2 n = common
  · obtain ⟨n, hn, hlog⟩ := hsome
    refine ⟨common, fun m hm => ?_⟩
    rcases hinv m hm with ⟨hm', -⟩ | ⟨hm', -⟩
    · exact hm'
    · have hlen := hset.level n hn m hm
      rw [hlog, hm', List.length_append, List.length_singleton] at hlen
      omega
  · refine ⟨common ++ [b], fun m hm => ?_⟩
    rcases hinv m hm with ⟨hm', -⟩ | ⟨hm', -⟩
    · exact absurd ⟨m, hm, hm'⟩ hsome
    · exact hm'

/-- A settled group is in step about the block that is proposed next. -/
theorem groupInStep_proposed {s : GroupState} {all : List Hash} {n : NodeIdentity} {c : Call cr}
    {number : BlockNumber} {block : Bytes} {e : BlockProposal} (hset : Settled cr group s)
    (hall : ∀ m ∈ group, s.2 m = all)
    (haccepted : ((s.1.node n).answer n c).2.accepted = none)
    (hbroadcast : ((s.1.node n).answer n c).2.broadcast = some (.sendBlock number block))
    (hvoting : ((s.1.node n).answer n c).1.voting =
      Function.update (s.1.node n).voting (cr.blake3 block) (some e)) :
    GroupInStep cr group (handled group s n c s.1.packets) all (cr.blake3 block) := by
  intro m hm
  show InStep all (cr.blake3 block) (recordFinalized s.2 n ((s.1.node n).answer n c).2 m)
    (Function.update s.1.node n ((s.1.node n).answer n c).1 m)
    (pendingBlocks cr
      (s.1.packets ++ (chatNetwork cr group).broadcast n ((s.1.node n).answer n c).2) m)
  rw [recordFinalized_of_not_accepted haccepted, hall m hm, pendingBlocks_append,
    hset.nonePending m hm, List.nil_append, pendingBlocks_broadcast, hbroadcast]
  by_cases hmn : m = n
  · -- the proposer holds the block, and sends nothing to itself
    subst hmn
    have hself : m ∉ getOthers group m := (chatNetwork cr group).self_notMem m
    rw [Function.update_self, if_neg hself]
    refine .inl ⟨rfl, .inl ⟨?_, rfl⟩⟩
    intro hash p hp
    by_cases hkey : hash = cr.blake3 block
    · exact .inr hkey
    · rw [hvoting, Function.update_of_ne hkey] at hp
      exact .inl (hset.noBlocks m hm hash p hp)
  · rw [Function.update_of_ne hmn]
    by_cases hother : m ∈ getOthers group n
    · rw [if_pos hother]
      exact .inl ⟨rfl, .inr ⟨hset.noBlocks m hm, rfl⟩⟩
    · rw [if_neg hother]
      exact .inl ⟨rfl, .inl ⟨(hset.noBlocks m hm).only _, rfl⟩⟩

/-- **One action keeps the group in step**, if it proposes only in a settled
group. -/
theorem groupInStep_step {s : GroupState} {common : List Hash} {b : Hash}
    (a : NetAction NodeIdentity (ClientCall cr group)) (hinv : GroupInStep cr group s common b)
    (hone : OneAtATime s a) :
    ∃ common' b', GroupInStep cr group ((finalizedMachine cr group).step s a).1 common' b' := by
  rw [finalizedMachine, Network.withRecord_step]
  have hcases := (chatNetwork cr group).step_cases s.1 a
  generalize (chatNetwork cr group).step s.1 a = r at hcases ⊢
  cases hcases with
  | input n c =>
      rcases client_cases n (s.1.node n) c.2 with
        ⟨haccepted, ⟨hvoting, hno⟩ | ⟨hproposes, -, number, block, e, hsend, hvoting⟩⟩
      · refine ⟨common, b, groupInStep_handled hinv hno (fun m _ => List.Perm.refl _) ?_⟩
        intro hn
        show InStep common b (recordFinalized s.2 n ((s.1.node n).answer n c.1).2 n)
          ((s.1.node n).answer n c.1).1 _
        rw [recordFinalized_of_not_accepted haccepted]
        exact (hinv n hn).congr hvoting
      · -- the replicas are done with everything so far
        have hset := hone hproposes
        obtain ⟨all, hall⟩ := hset.common hinv
        exact ⟨all, _, groupInStep_proposed hset hall haccepted hsend hvoting⟩
  | delivered k p rest hperm =>
      have hother : ∀ m, m ≠ p.dest →
          (pendingBlocks cr s.1.packets m).Perm (pendingBlocks cr rest m) := by
        intro m hm
        have hp := pendingBlocks_perm cr hperm m
        rwa [pendingBlocks, pendingBlocks, inbox_cons_ne _ (Ne.symm hm)] at hp
      have hself := pendingBlocks_perm cr hperm p.dest
      rw [pendingBlocks, pendingBlocks, inbox_cons_self _ rfl] at hself
      have hno := receive_noBlock cr p.dest (s.1.node p.dest) group p.origin p.body
      refine ⟨common, b, groupInStep_handled hinv hno hother ?_⟩
      intro hn
      obtain ⟨dest, origin, body⟩ := p
      cases body with
      | voteBlock hash number agrees =>
          exact ((hinv dest hn).perm hself).vote origin number hash agrees
      | sendBlock number block =>
          -- the block on its way is the one the replica waits for
          have hstep := (hinv dest hn).perm hself
          rcases hstep with ⟨hlog, ⟨-, hnone⟩ | ⟨hblocks, hone'⟩⟩ | ⟨-, -, hnone⟩
          · cases hnone
          · obtain ⟨hb, hrest⟩ := List.cons.inj hone'
            rw [show pendingBlocks cr rest dest = [] from hrest, ← hlog]
            exact inStep_proposal hblocks origin number block hb
          · cases hnone
  | quiet _ packets hsub =>
      refine ⟨common, b, ?_⟩
      intro m hm
      exact (hinv m hm).sublist ((inbox_sublist hsub m).filterMap _)

/-- **Agreement, one block at a time.** The replicas start from the same files;
in a run in which a replica proposes only when nothing is left to decide, the
logs of any two of them are prefixes of one another. -/
theorem replicas_agree (members : Members) (root : Root) (blocks : Bytes)
    (actions : List (NetAction NodeIdentity (ClientCall cr group)))
    (hone : (finalizedMachine cr group).EachStep OneAtATime
      (⟨fun _ => .load members root blocks, []⟩, fun _ => []) actions) :
    (finalizedMachine cr group).EachStep
      (fun s a => LogsAgree group ((finalizedMachine cr group).step s a).1.2)
      (⟨fun _ => .load members root blocks, []⟩, fun _ => []) actions := by
  have hstart : GroupInStep cr group
      (⟨fun _ => .load members root blocks, []⟩, fun _ => []) [] 0 := by
    intro n hn
    exact .inl ⟨rfl, .inl ⟨nofun, rfl⟩⟩
  refine Machine.eachStep_of_invariant
    (P := fun s => ∃ common b, GroupInStep cr group s common b) ?_ ?_ ⟨[], 0, hstart⟩ hone
  · intro s a hinv ha
    obtain ⟨common, b, hinv⟩ := hinv
    exact groupInStep_step a hinv ha
  · intro s a hinv ha i hi j hj
    obtain ⟨common, b, hinv⟩ := hinv
    obtain ⟨common', b', hinv'⟩ := groupInStep_step a hinv ha
    exact (hinv' i hi).prefix_or (hinv' j hj)

/-! ## One block -/

/-- Who writes. -/
def writer : Identity := Crypto.transparent.identity (show Hash from 2)

/-- The writer's messages, a thousand bytes each once encoded. -/
def chatter (k : Nat) : Proof .transparent ReminderOwned :=
  Proof.transparent 2 (k + 1)
    ⟨List.replicate 937 0 ++ (List.replicate 29 0 ++ [UInt8.ofNat (k + 1)])⟩

/-- The first `k` messages as they are stored. -/
def chatterLog (k : Nat) : List Bytes :=
  (List.range k).map fun i => Encode.encode (Handle.messageOf (chatter i))

/-- A client sends message `k`. -/
def chatterCall (k : Nat) : ClientCall .transparent replicas :=
  ⟨.sendMessage (20 + k) replicas (chatter k), rfl⟩

/-- A client hands a replica the first `k` messages. -/
def chatterTo (n : NodeIdentity) (k : Nat) :
    List (NetAction NodeIdentity (ClientCall .transparent replicas)) :=
  ((List.range' 0 k).map chatterCall).map (.input n)

theorem chatter_eq {k : Nat} (hk : k < 127) :
    Encode.encode (Handle.messageOf (chatter k)) =
      writer.toBytes ++ [UInt8.ofNat (k + 1)] ++
        (List.replicate 937 0 ++ (List.replicate 29 0 ++ [UInt8.ofNat (k + 1)])) := by
  have henc : Encode.encode (Handle.messageOf (chatter k)) =
      writer.toBytes ++ base128Encode (k + 1) ++
        (List.replicate 937 0 ++ (List.replicate 29 0 ++ [UInt8.ofNat (k + 1)])) := rfl
  rw [henc, base128Encode_of_lt (by omega)]

theorem length_chatter {k : Nat} (hk : k < 127) :
    (Encode.encode (Handle.messageOf (chatter k))).length = 1000 := by
  rw [chatter_eq hk]
  simp only [List.length_append, List.length_replicate, List.length_singleton, Hash.length_toBytes]

theorem chatterLog_succ (k : Nat) :
    chatterLog (k + 1) = chatterLog k ++ [Encode.encode (Handle.messageOf (chatter k))] := by
  rw [chatterLog, List.range_succ, List.map_append]
  rfl

/-- The later messages come after the first ones. -/
theorem chatterLog_append {j k : Nat} (hjk : j ≤ k) :
    ∃ rest, chatterLog k = chatterLog j ++ rest := by
  obtain ⟨d, rfl⟩ := Nat.exists_eq_add_of_le hjk
  refine ⟨(List.range d).map fun i => Encode.encode (Handle.messageOf (chatter (j + i))), ?_⟩
  rw [chatterLog, List.range_add, List.map_append, List.map_map]
  rfl

theorem chatterLog_bounded {k : Nat} (hk : k ≤ 127) : logCode.Bounded (chatterLog k) := by
  intro p hp
  obtain ⟨i, hi, rfl⟩ := List.mem_map.mp hp
  have hi' := List.mem_range.mp hi
  rw [length_chatter (by omega)]
  decide

/-- No two messages are the same. -/
theorem chatterLog_nodup {k : Nat} (hk : k ≤ 127) : (chatterLog k).Nodup := by
  refine List.Nodup.map_on ?_ List.nodup_range
  intro i hi j hj heq
  have hi' := List.mem_range.mp hi
  have hj' := List.mem_range.mp hj
  rw [chatter_eq (by omega), chatter_eq (by omega)] at heq
  -- they differ in the last byte
  have hcontent := List.append_inj_right' heq
    (by simp only [List.length_append, List.length_replicate, List.length_singleton])
  have hback := List.append_cancel_left (List.append_cancel_left hcontent)
  have hnat := congrArg UInt8.toNat (List.singleton_inj.mp hback)
  simp only [UInt8.toNat_ofNat'] at hnat
  omega

theorem length_frames_chatterLog {k : Nat} (hk : k ≤ 127) :
    (logCode.frames (chatterLog k)).length = k * 1002 := by
  induction k with
  | zero => rfl
  | succ k ih =>
      rw [chatterLog_succ, LenCode.frames_append, LenCode.frames_singleton, List.length_append,
        LenCode.length_frame, length_chatter (by omega), ih (by omega), logCode_width]
      omega

/-- The hash of a block of messages comes from its last message. -/
theorem blake3_frames_chatterLog {k : Nat} (hk : k < 127) :
    Crypto.transparent.blake3 (logCode.frames (chatterLog (k + 1))) =
      Crypto.transparent.blake3 (List.replicate 29 0 ++ [UInt8.ofNat (k + 1), 3, 232]) := by
  have hframe : logCode.frame (Encode.encode (Handle.messageOf (chatter k))) =
      (writer.toBytes ++ [UInt8.ofNat (k + 1)] ++ List.replicate 937 0) ++
        (List.replicate 29 0 ++ [UInt8.ofNat (k + 1), 3, 232]) := by
    rw [LenCode.frame, length_chatter hk, chatter_eq hk, show logCode.enc 1000 = [3, 232] from rfl]
    simp only [List.append_assoc, List.cons_append, List.nil_append]
  rw [chatterLog_succ, LenCode.frames_append, LenCode.frames_singleton, hframe,
    ← List.append_assoc]
  refine Crypto.transparent_blake3_append _ ?_
  rw [List.length_append, List.length_replicate]
  exact Nat.le_refl 32

/-- A buffer of messages is cut back to whole blocks. -/
theorem cutBlock_chatterLog {j k : Nat} (hk : k ≤ 127) (hjk : j < k)
    (hfits : j * 1002 ≤ k * 1002 / blockSize * blockSize)
    (hnext : k * 1002 / blockSize * blockSize < j * 1002 + 1002) :
    cutBlock (logCode.frames (chatterLog k)) = logCode.frames (chatterLog j) := by
  obtain ⟨rest, hrest⟩ := chatterLog_append hjk
  have hsplit : chatterLog k =
      chatterLog j ++ Encode.encode (Handle.messageOf (chatter j)) :: rest := by
    rw [hrest, chatterLog_succ, List.append_assoc, List.singleton_append]
  have hbound := chatterLog_bounded hk
  have hlen := length_frames_chatterLog hk
  have hfront := length_frames_chatterLog (k := j) (by omega)
  rw [hsplit] at hbound hlen ⊢
  refine cutBlock_of_fits hbound rfl ?_ ?_
  · rw [hlen, hfront]
    exact hfits
  · rw [hlen, hfront, length_chatter (by omega)]
    exact hnext

/-- A replica that has stored the first `k` messages and seen nothing else. -/
structure Filled (k : Nat) (h : Handle) : Prop where
  voting : h.voting = fun _ => none
  root : h.root = { bufferLen := k * 1002 }
  blocks : h.blocks = logCode.frames (chatterLog k)
  member : ∃ m, h.members.get writer = some m ∧ m.action ≤ k ∧ m.frozenUntil < 20 + k ∧
    m.permissions.contains .send = true ∧ m.actionCooldownMs = 0

theorem filled_load : Filled 0 (.load lobbyMembers {} []) := by
  refine ⟨rfl, rfl, rfl, { permissions := .all, rank := 7 }, ?_, ?_, ?_, ?_, rfl⟩
  · decide
  · decide
  · decide
  · decide

/-- The next message is stored, and then the replica may propose. -/
theorem Filled.send {k : Nat} {h : Handle} (hf : Filled k h) (hk : k < 80) (n : NodeIdentity) :
    ∃ h', Filled (k + 1) h' ∧
      h.sendMessage (20 + k) n replicas (chatter k) =
        h'.proposeBlock .transparent n replicas (k * 1002) := by
  obtain ⟨m, hget, haction, hfrozen, hsend, hcooldown⟩ := hf.member
  have hlen : (Encode.encode (Handle.messageOf (chatter k))).length = 1000 :=
    length_chatter (by omega)
  have hspend : h.spendAction (20 + k) (chatter k) =
      .ok (h.members.put writer
        { m with action := (chatter k).nonce, frozenUntil := 20 + k + m.actionCooldownMs }) :=
    spendAction_eq_ok.mpr ⟨Proof.verify_transparent _ _ _, m, hget, Nat.lt_succ_of_le haction,
      hfrozen, hsend, rfl⟩
  have hprev : h.root.bufferLen = k * 1002 := by rw [hf.root]
  have hcheckpoint : h.root.checkpoint = 0 := by rw [hf.root]
  have hblocks : h.blocks.length = k * 1002 := by
    rw [hf.blocks, length_frames_chatterLog (by omega)]
  have hsum : k * 1002 + (1000 + 2) = (k + 1) * 1002 := by omega
  -- 80 messages of 1002 bytes are under the cap, so nothing is discarded
  have hstep := sendMessage_of_fits n replicas hspend (by rw [hlen]; decide)
    (by rw [hcheckpoint]; exact Nat.zero_le _)
    (by
      rw [hcheckpoint, hblocks]
      show k * 1002 - 0 ≤ 8 * (1024 * 16)
      omega)
    (by
      rw [hprev, LenCode.length_frame, hlen]
      show k * 1002 + (1000 + 2) ≤ 1024 * 16 * 5
      omega)
  rw [hprev] at hstep
  refine ⟨_, ?_, hstep⟩
  refine ⟨hf.voting, ?_, ?_, ?_⟩
  · simp only [Handle.withMessage, hf.root, LenCode.length_frame, hlen, logCode_width, hsum]
  · show h.blocks ++ _ = _
    rw [hf.blocks, chatterLog_succ, LenCode.frames_append, LenCode.frames_singleton]
  · refine ⟨_, SortedMap.get_put_self h.members writer _, Nat.le_refl (k + 1), ?_, hsend,
      hcooldown⟩
    show 20 + k + m.actionCooldownMs < 20 + (k + 1)
    omega

/-- Messages up to the one that makes the replica propose are stored, and that
is all. -/
theorem Filled.silent {n : NodeIdentity} {j k : Nat} {h : Handle} (hf : Filled j h)
    (hjk : j + k ≤ 80) (logs : FinalizedLogs)
    (hnot : ∀ i < j + k, ¬ MustPropose n replicas (i * 1002) { bufferLen := (i + 1) * 1002 }) :
    (replicaMachine .transparent n).EachStep
        (fun st c => (st.voting = fun _ => none) ∧
          ((replicaMachine .transparent n).step st c).2.broadcast = none ∧
          recordFinalized logs n ((replicaMachine .transparent n).step st c).2 = logs)
        h (((List.range' j k).map chatterCall).map Subtype.val) ∧
      Filled (j + k)
        ((replicaMachine .transparent n).run h
          (((List.range' j k).map chatterCall).map Subtype.val)) := by
  induction k generalizing j h with
  | zero => exact ⟨trivial, hf⟩
  | succ k ih =>
      obtain ⟨h', hf', hsend⟩ := hf.send (by omega) n
      have hnot' : ¬ MustPropose n replicas (j * 1002) h'.root := by
        rw [hf'.root]
        exact hnot j (by omega)
      rw [proposeBlock_of_not .transparent hnot'] at hsend
      have hanswer : (replicaMachine .transparent n).step h (chatterCall j).1 =
          (h', { result := .ok (), accepted := none }) := by
        simp only [replicaMachine, chatterCall, Handle.answer, hsend]
        rfl
      obtain ⟨heach, hfilled⟩ := ih hf' (by omega) fun i hi => hnot i (by omega)
      rw [List.range'_succ, List.map_cons, List.map_cons, Machine.run_cons,
        Machine.eachStep_cons, hanswer]
      refine ⟨⟨⟨hf.voting, rfl, rfl⟩, heach⟩, ?_⟩
      rw [← Nat.add_right_comm] at hfilled
      exact hfilled

/-- The message that makes a replica propose: the first `j` messages come under vote. -/
theorem Filled.proposes_local {n : NodeIdentity} {j k : Nat} {h : Handle} (hf : Filled k h)
    (hk : k < 80) (hmust : MustPropose n replicas (k * 1002) { bufferLen := (k + 1) * 1002 })
    (hcut : cutBlock (logCode.frames (chatterLog (k + 1))) = logCode.frames (chatterLog j)) :
    ∃ h', Filled (k + 1) h' ∧
      (replicaMachine .transparent n).step h (chatterCall k).1 =
        (h'.insertVoting (Crypto.transparent.blake3 (logCode.frames (chatterLog j)))
            { yes := 1, proposal := .localBlock (logCode.frames (chatterLog j)).length },
          { result := .ok (), accepted := none
            broadcast := some (.sendBlock 0 (logCode.frames (chatterLog j))) }) := by
  obtain ⟨h', hf', hsend⟩ := hf.send hk n
  have hroot : h'.root.bufferLen = (logCode.frames (chatterLog (k + 1))).length := by
    rw [hf'.root, length_frames_chatterLog (by omega)]
  have hblocks : h'.blocks = [] ++ logCode.frames (chatterLog (k + 1)) := hf'.blocks
  rw [proposeBlock_of_must .transparent (by rw [hf'.root]; exact hmust) hblocks hroot, hcut,
    hf'.root] at hsend
  refine ⟨h', hf', ?_⟩
  simp only [replicaMachine, chatterCall, Handle.answer, hsend]
  rfl

/-- A replica hears messages that do not make it propose. -/
theorem run_chatterTo (nodes : NodeIdentity → Handle)
    (packets : List (Packet NodeIdentity Broadcast)) (logs : FinalizedLogs) {n : NodeIdentity}
    {k : Nat} (hf : Filled 0 (nodes n)) (hk : k ≤ 80)
    (hnot : ∀ i < k, ¬ MustPropose n replicas (i * 1002) { bufferLen := (i + 1) * 1002 }) :
    ∃ h, Filled k h ∧
      (finalizedMachine .transparent replicas).run (⟨nodes, packets⟩, logs) (chatterTo n k) =
        (⟨Function.update nodes n h, packets⟩, logs) := by
  obtain ⟨hsilent, hfilled⟩ := hf.silent (n := n) (k := k) (by omega) logs
    (fun i hi => hnot i (by omega))
  rw [Nat.zero_add] at hfilled
  exact ⟨_, hfilled, (chatNetwork .transparent replicas).run_inputs recordFinalized logs n
    (hsilent.mono fun _ _ h => h.2)⟩

/-- A replica hears messages, and the last one makes it propose the first `j`. -/
theorem run_chatterTo_proposing (nodes : NodeIdentity → Handle)
    (packets : List (Packet NodeIdentity Broadcast)) (logs : FinalizedLogs) {n : NodeIdentity}
    {j k : Nat} (hf : Filled 0 (nodes n)) (hk : k < 80)
    (hnot : ∀ i < k, ¬ MustPropose n replicas (i * 1002) { bufferLen := (i + 1) * 1002 })
    (hmust : MustPropose n replicas (k * 1002) { bufferLen := (k + 1) * 1002 })
    (hcut : cutBlock (logCode.frames (chatterLog (k + 1))) = logCode.frames (chatterLog j)) :
    ∃ h, (finalizedMachine .transparent replicas).run (⟨nodes, packets⟩, logs)
        (chatterTo n (k + 1)) =
      (⟨Function.update nodes n h,
        packets ++ sentTo replicas n (.sendBlock 0 (logCode.frames (chatterLog j)))⟩, logs) := by
  obtain ⟨h, hfilled, hrun⟩ := run_chatterTo nodes packets logs hf (Nat.le_of_lt hk) hnot
  obtain ⟨h', -, hanswer⟩ := hfilled.proposes_local hk hmust hcut
  have hlast : chatterTo n (k + 1) = chatterTo n k ++ [.input n (chatterCall k)] := by
    rw [chatterTo, List.range'_1_concat, List.map_append, List.map_append, Nat.zero_add]
    rfl
  have hself : Function.update nodes n h n = h := Function.update_self _ _ _
  rw [← hself] at hanswer
  have hstep := (chatNetwork .transparent replicas).withRecord_input recordFinalized
    (s := ⟨Function.update nodes n h, packets⟩) (g := logs) n (chatterCall k) hanswer
  rw [Function.update_idem] at hstep
  rw [hlast, Machine.run_append, hrun]
  exact ⟨_, hstep⟩

/-- Where no replica has seen a proposal and nothing is on its way, all is settled. -/
theorem settled_of_unseen {nodes : NodeIdentity → Handle}
    (hnone : ∀ m, (nodes m).voting = fun _ => none) :
    Settled .transparent replicas (⟨nodes, []⟩, fun _ => []) := by
  refine ⟨fun m _ hash e he => ?_, fun _ _ => rfl, fun _ _ _ _ => rfl⟩
  rw [show ((nodes m).voting hash) = none by rw [hnone]] at he
  cases he

theorem chatterTo_take (n : NodeIdentity) {j k : Nat} (hjk : j ≤ k) :
    (chatterTo n k).take j = chatterTo n j := by
  rw [chatterTo, ← List.map_take, ← List.map_take, List.take_range'_of_length_ge hjk]
  rfl

/-- Until a replica proposes, the group is settled. -/
theorem oneAtATime_chatterTo {nodes : NodeIdentity → Handle} {n : NodeIdentity} {k : Nat}
    (hnone : ∀ m, (nodes m).voting = fun _ => none) (hf : Filled 0 (nodes n)) (hk : k ≤ 80)
    (hnot : ∀ i, i + 1 < k → ¬ MustPropose n replicas (i * 1002) { bufferLen := (i + 1) * 1002 }) :
    (finalizedMachine .transparent replicas).EachStep OneAtATime (⟨nodes, []⟩, fun _ => [])
      (chatterTo n k) := by
  rw [Machine.eachStep_iff]
  intro pre a post hsplit
  have hlen := congrArg List.length hsplit
  rw [chatterTo, List.length_map, List.length_map, List.length_range', List.length_append,
    List.length_cons] at hlen
  have hpre : pre = chatterTo n pre.length := by
    rw [← chatterTo_take n (show pre.length ≤ k by omega), hsplit, List.take_left]
  obtain ⟨h, hfilled, hrun⟩ := run_chatterTo (k := pre.length) nodes [] (fun _ => []) hf (by omega)
    fun i hi => hnot i (by omega)
  rw [hpre, hrun]
  cases a with
  | deliver j => trivial
  | lose j => trivial
  | input m c =>
      refine fun _ => settled_of_unseen fun m' => ?_
      by_cases hm : m' = n
      · rw [hm, Function.update_self, hfilled.voting]
      · rw [Function.update_of_ne hm, hnone]

/-- With all messages stored, a replica passes a block of the first ones. -/
theorem Filled.passes {j k : Nat} {h : Handle} (hf : Filled k h) (hk : k ≤ 127) (hjk : j ≤ k)
    {origin : NodeIdentity} (hselected : selectFinalizer 0 replicas (j * 1002 + blockSize - 1) =
      origin) (voting : Hash → Option BlockProposal) :
    Handle.Passes { h with voting } origin replicas 0 (logCode.frames (chatterLog j)) {} := by
  have hlen := length_frames_chatterLog (k := j) (by omega)
  refine ⟨⟨rfl, ArrayVec.not_mem_empty _, ?_⟩, rfl, ?_, ?_⟩
  · show selectFinalizer h.root.latestBlock replicas _ = origin
    rw [hf.root, hlen]
    exact hselected
  · show h.root.bufferLen ≤ h.blocks.length
    rw [hf.root, hf.blocks, length_frames_chatterLog hk]
  · show Handle.MessagesPresent _ (h.blocks.drop (h.blocks.length - h.root.bufferLen))
    obtain ⟨rest, hrest⟩ := chatterLog_append hjk
    have hbound := chatterLog_bounded hk
    have hnodup := chatterLog_nodup hk
    rw [hf.root, hf.blocks, length_frames_chatterLog hk, Nat.sub_self, List.drop_zero, hrest]
    rw [hrest] at hbound hnodup
    exact Handle.messagesPresent_of_append hbound hnodup

/-- The third yes for a held block. -/
theorem deliver_third_yes (nodes : NodeIdentity → Handle)
    {packets : List (Packet NodeIdentity Broadcast)} (logs : FinalizedLogs) {k : Nat}
    {dest origin : NodeIdentity} {hash : Hash} {data : Bytes}
    (hk : packets[k]? = some ⟨dest, origin, .voteBlock hash 0 true⟩)
    (hheld : (nodes dest).voting hash = some { yes := 2, proposal := .remoteBlock data })
    (hfits : (nodes dest).root.bufferLen ≤ (nodes dest).blocks.length) :
    ∃ h, ((finalizedMachine .transparent replicas).step (⟨nodes, packets⟩, logs)
        (.deliver k)).1 =
      (⟨Function.update nodes dest h, packets.eraseIdx k⟩,
        Function.update logs dest (logs dest ++ [hash])) := by
  have hpush : (ArrayVec.empty : ReplVec Hash).push? origin =
      some ⟨[origin], by simp [replicationFactor]⟩ := rfl
  exact deliver_vote .transparent logs hk hheld rfl (ArrayVec.not_mem_empty origin) hpush rfl
    (Nat.lt_succ_self 2) hfits

/-- A replica that has yet to see the block of the first 16 messages, and passes it. -/
structure Judges (h : Handle) : Prop where
  number : h.root.number = 0
  voting : h.voting = fun _ => none
  fits : h.root.bufferLen ≤ h.blocks.length
  passes : Handle.Passes h 1 replicas 0 (logCode.frames (chatterLog 16)) {}

theorem Filled.judges {h : Handle} (hf : Filled 25 h) : Judges h := by
  refine ⟨by rw [hf.root], hf.voting, ?_, hf.passes (by decide) (by decide) (by decide) _⟩
  rw [hf.root, hf.blocks, length_frames_chatterLog (by decide)]

/-- The proposal of replica 1 reaches 3 and 4, and the votes of the two reach each other. -/
def votedBlock : List (NetAction NodeIdentity (ClientCall .transparent replicas)) :=
  [.deliver 2, .deliver 2, .deliver 9, .deliver 5]

theorem run_votedBlock (nodes : NodeIdentity → Handle) (h3 : Judges (nodes 3))
    (h4 : Judges (nodes 4)) :
    let block := logCode.frames (chatterLog 16)
    let s := (finalizedMachine .transparent replicas).run
      (⟨nodes, sentTo replicas 1 (.sendBlock 0 block)⟩, fun _ => []) votedBlock
    s.2 3 = [Crypto.transparent.blake3 block] ∧ s.2 4 = [Crypto.transparent.blake3 block] := by
  intro block
  set hash := Crypto.transparent.blake3 block with hhash
  set held : BlockProposal := { yes := 2, proposal := .remoteBlock block } with hheld
  set packets := sentTo replicas 1 (.sendBlock 0 block)
  -- both hold the block and vote for it
  have hfirst := deliver_proposal .transparent (k := 2) (fun _ => [])
    (show packets[2]? = some ⟨3, 1, .sendBlock 0 block⟩ from rfl) (Nat.le_of_eq h3.number)
    (by rw [h3.voting]) h3.passes
  set nodes₁ := Function.update nodes 3 ((nodes 3).insertVoting hash held) with hnodes₁
  set packets₁ := packets.eraseIdx 2 ++ sentTo replicas 3 (.voteBlock hash 0 true)
  have hsame : nodes₁ 4 = nodes 4 := Function.update_of_ne (by decide) _ _
  rw [← hsame] at h4
  have hsecond := deliver_proposal .transparent (k := 2) (fun _ => [])
    (show packets₁[2]? = some ⟨4, 1, .sendBlock 0 block⟩ from rfl) (Nat.le_of_eq h4.number)
    (by rw [h4.voting]) h4.passes
  set nodes₂ := Function.update nodes₁ 4 ((nodes₁ 4).insertVoting hash held) with hnodes₂
  set packets₂ := packets₁.eraseIdx 2 ++ sentTo replicas 4 (.voteBlock hash 0 true)
  -- with the vote of the other each has three
  have hnode3 : nodes₂ 3 = (nodes 3).insertVoting hash held := by
    rw [hnodes₂, Function.update_of_ne (by decide), hnodes₁, Function.update_self]
  have hnode4 : nodes₂ 4 = (nodes₁ 4).insertVoting hash held := by
    rw [hnodes₂, Function.update_self]
  obtain ⟨h3', hthird⟩ := deliver_third_yes nodes₂ (fun _ => []) (k := 9)
    (show packets₂[9]? = some ⟨3, 4, .voteBlock hash 0 true⟩ from rfl)
    (by rw [hnode3]; exact Handle.insertVoting_voting_self _ _ _)
    (by rw [hnode3]; exact h3.fits)
  set nodes₃ := Function.update nodes₂ 3 h3' with hnodes₃
  set logs₃ := Function.update (fun _ => []) (3 : NodeIdentity) [hash] with hlogs₃
  have hother : nodes₃ 4 = (nodes₁ 4).insertVoting hash held := by
    rw [hnodes₃, Function.update_of_ne (by decide), hnode4]
  obtain ⟨h4', hfourth⟩ := deliver_third_yes nodes₃ logs₃ (k := 5)
    (show (packets₂.eraseIdx 9)[5]? = some ⟨4, 3, .voteBlock hash 0 true⟩ from rfl)
    (by rw [hother]; exact Handle.insertVoting_voting_self _ _ _)
    (by rw [hother]; exact h4.fits)
  have hlog3 : logs₃ 3 = [hash] := Function.update_self _ _ _
  have hlog4 : logs₃ 4 = [] := Function.update_of_ne (by decide) _ _
  intro s
  have hs : s.2 = Function.update logs₃ 4 (logs₃ 4 ++ [hash]) := by
    show ((finalizedMachine .transparent replicas).run _ votedBlock).2 = _
    rw [votedBlock, Machine.run_cons, Machine.run_cons, Machine.run_cons, Machine.run_cons,
      Machine.run_nil, hfirst, hsecond, hthird]
    exact congrArg Prod.snd hfourth
  rw [hs, hlog4]
  exact ⟨(Function.update_of_ne (by decide) _ _).trans hlog3, Function.update_self _ _ _⟩

/-- Replicas 3, 4 and 1 hear 25 messages, the last of which makes 1 propose the first 16. -/
def heardBlock : List (NetAction NodeIdentity (ClientCall .transparent replicas)) :=
  chatterTo 3 25 ++ chatterTo 4 25 ++ chatterTo 1 25

theorem run_heardBlock :
    let start : GroupState := (⟨fun _ => .load lobbyMembers {} [], []⟩, fun _ => [])
    (finalizedMachine .transparent replicas).EachStep OneAtATime start heardBlock ∧
      ∃ nodes : NodeIdentity → Handle, Judges (nodes 3) ∧ Judges (nodes 4) ∧
        (finalizedMachine .transparent replicas).run start heardBlock =
          (⟨nodes, sentTo replicas 1 (.sendBlock 0 (logCode.frames (chatterLog 16)))⟩,
            fun _ => []) := by
  set nodes : NodeIdentity → Handle := fun _ => .load lobbyMembers {} []
  have hnone : ∀ m, (nodes m).voting = fun _ => none := fun _ => rfl
  -- whoever has heard a message or more has no vote under way
  have hheard : ∀ {nodes : NodeIdentity → Handle} {n k h}, (∀ m, (nodes m).voting = fun _ => none) →
      Filled k h → ∀ m, (Function.update nodes n h m).voting = fun _ => none := by
    intro nodes n k h hnone hf m
    by_cases hm : m = n
    · rw [hm, Function.update_self, hf.voting]
    · rw [Function.update_of_ne hm, hnone]
  -- the members 3 and 4 hear all messages and are not the ones to propose
  obtain ⟨h3, hf3, hrun3⟩ := run_chatterTo (n := 3) (k := 25) nodes [] (fun _ => [])
    filled_load (by decide) (by decide)
  have hone3 := oneAtATime_chatterTo (n := 3) (k := 25) hnone filled_load (by decide)
    fun i hi => (by decide : ∀ i < 24, ¬ MustPropose 3 replicas (i * 1002)
      { bufferLen := (i + 1) * 1002 }) i (by omega)
  set nodes₁ := Function.update nodes 3 h3 with hnodes₁
  have hnone₁ : ∀ m, (nodes₁ m).voting = fun _ => none := hheard hnone hf3
  obtain ⟨h4, hf4, hrun4⟩ := run_chatterTo (n := 4) (k := 25) nodes₁ [] (fun _ => [])
    filled_load (by decide) (by decide)
  have hone4 := oneAtATime_chatterTo (n := 4) (k := 25) hnone₁ filled_load (by decide)
    fun i hi => (by decide : ∀ i < 24, ¬ MustPropose 4 replicas (i * 1002)
      { bufferLen := (i + 1) * 1002 }) i (by omega)
  set nodes₂ := Function.update nodes₁ 4 h4 with hnodes₂
  have hnone₂ : ∀ m, (nodes₂ m).voting = fun _ => none := hheard hnone₁ hf4
  -- with the last message the member 1 cuts the block
  obtain ⟨h1, hrun1⟩ := run_chatterTo_proposing (n := 1) (k := 24) nodes₂ [] (fun _ => [])
    filled_load (by decide) (by decide) (by decide)
    (cutBlock_chatterLog (j := 16) (by decide) (by decide) (by decide) (by decide))
  have hone1 := oneAtATime_chatterTo (n := 1) (k := 25) hnone₂ filled_load (by decide)
    fun i hi => (by decide : ∀ i < 24, ¬ MustPropose 1 replicas (i * 1002)
      { bufferLen := (i + 1) * 1002 }) i (by omega)
  refine ⟨?_, Function.update nodes₂ 1 h1, ?_, ?_, ?_⟩
  · rw [heardBlock, Machine.eachStep_append, Machine.eachStep_append, Machine.run_append, hrun3,
      hrun4]
    exact ⟨⟨hone3, hone4⟩, hone1⟩
  · rw [Function.update_of_ne (by decide), hnodes₂, Function.update_of_ne (by decide), hnodes₁,
      Function.update_self]
    exact hf3.judges
  · rw [Function.update_of_ne (by decide), hnodes₂, Function.update_self]
    exact hf4.judges
  · rw [heardBlock, Machine.run_append, Machine.run_append, hrun3, hrun4]
    exact hrun1

/-- A block is proposed in a settled group, and two replicas accept it. -/
theorem replicas_agree_votedBlock :
    let start : GroupState := (⟨fun _ => .load lobbyMembers {} [], []⟩, fun _ => [])
    (∃ a, ((finalizedMachine .transparent replicas).run start (heardBlock ++ votedBlock)).2 3 =
        [a] ∧
      ((finalizedMachine .transparent replicas).run start (heardBlock ++ votedBlock)).2 4 = [a]) ∧
      (finalizedMachine .transparent replicas).EachStep
        (fun s a => LogsAgree replicas ((finalizedMachine .transparent replicas).step s a).1.2)
        start (heardBlock ++ votedBlock) := by
  intro start
  obtain ⟨hone, nodes, h3, h4, hrun⟩ := run_heardBlock
  refine ⟨⟨Crypto.transparent.blake3 (logCode.frames (chatterLog 16)), ?_⟩,
    replicas_agree lobbyMembers {} [] _ ?_⟩
  · rw [Machine.run_append, hrun]
    exact run_votedBlock nodes h3 h4
  · rw [Machine.eachStep_append]
    exact ⟨hone, trivial, trivial, trivial, trivial, trivial⟩

/-! ## Two blocks at once -/

/-- A replica that can judge two blocks, proposed by 1 and 2: it has seen
neither, and each passes its checks. -/
structure JudgesBoth (a b : Bytes) (h : Handle) : Prop where
  number : h.root.number = 0
  voting : h.voting = fun _ => none
  fits : h.root.bufferLen ≤ h.blocks.length
  passes_left : ∀ voting, Handle.Passes { h with voting } 1 replicas 0 a {}
  passes_right : ∀ voting, Handle.Passes { h with voting } 2 replicas 0 b {}

theorem Filled.judgesBoth {h : Handle} (hf : Filled 32 h) :
    JudgesBoth (logCode.frames (chatterLog 16)) (logCode.frames (chatterLog 32)) h := by
  refine ⟨by rw [hf.root], hf.voting, ?_, ?_, ?_⟩
  · rw [hf.root, hf.blocks, length_frames_chatterLog (by decide)]
  · exact hf.passes (by decide) (by decide) (by decide)
  · exact hf.passes (by decide) (by decide) (by decide)

/-- The replica after it has judged both. -/
def Handle.judged (a b : Bytes) (h : Handle) : Handle :=
  (h.insertVoting (Crypto.transparent.blake3 a)
    { yes := 2, proposal := .remoteBlock a }).insertVoting
    (Crypto.transparent.blake3 b) { yes := 2, proposal := .remoteBlock b }

theorem Handle.judged_left (h : Handle) {a b : Bytes}
    (hne : Crypto.transparent.blake3 b ≠ Crypto.transparent.blake3 a) :
    (h.judged a b).voting (Crypto.transparent.blake3 a) =
      some { yes := 2, proposal := .remoteBlock a } := by
  rw [judged, insertVoting_voting_ne _ (Ne.symm hne), insertVoting_voting_self]

theorem Handle.judged_right (h : Handle) (a b : Bytes) :
    (h.judged a b).voting (Crypto.transparent.blake3 b) =
      some { yes := 2, proposal := .remoteBlock b } :=
  insertVoting_voting_self _ _ _

/-- Both blocks reach a replica that can judge them. -/
theorem deliver_both {nodes : NodeIdentity → Handle}
    {packets : List (Packet NodeIdentity Broadcast)} (logs : FinalizedLogs) {i j : Nat}
    {dest : NodeIdentity} {a b : Bytes}
    (hne : Crypto.transparent.blake3 b ≠ Crypto.transparent.blake3 a)
    (hjudges : JudgesBoth a b (nodes dest))
    (hi : packets[i]? = some ⟨dest, 1, .sendBlock 0 a⟩)
    (hj : (packets.eraseIdx i ++
        sentTo replicas dest (.voteBlock (Crypto.transparent.blake3 a) 0 true))[j]? =
      some ⟨dest, 2, .sendBlock 0 b⟩) :
    (finalizedMachine .transparent replicas).run (⟨nodes, packets⟩, logs)
        [.deliver i, .deliver j] =
      (⟨Function.update nodes dest ((nodes dest).judged a b),
        (packets.eraseIdx i ++
            sentTo replicas dest (.voteBlock (Crypto.transparent.blake3 a) 0 true)).eraseIdx j ++
          sentTo replicas dest (.voteBlock (Crypto.transparent.blake3 b) 0 true)⟩, logs) := by
  have hfirst := deliver_proposal .transparent logs hi (Nat.le_of_eq hjudges.number)
    (by rw [hjudges.voting]) (hjudges.passes_left _)
  rw [Machine.run_cons, Machine.run_cons, Machine.run_nil, hfirst]
  set h := (nodes dest).insertVoting (Crypto.transparent.blake3 a)
    { yes := 2, proposal := .remoteBlock a } with hh
  have hself : Function.update nodes dest h dest = h := Function.update_self _ _ _
  have hnumber : h.root.number ≤ 0 := Nat.le_of_eq hjudges.number
  have hnew : h.voting (Crypto.transparent.blake3 b) = none := by
    rw [hh, Handle.insertVoting_voting_ne _ hne, hjudges.voting]
  have hpasses : h.Passes 2 replicas 0 b {} := hjudges.passes_right _
  rw [← hself] at hnumber hnew hpasses
  rw [deliver_proposal .transparent logs hj hnumber hnew hpasses, hself, Function.update_idem]
  rfl

/-- Replicas 3 and 4 judge both blocks, and each gets the other's yes for one of
them. -/
def crossedVotes : List (NetAction NodeIdentity (ClientCall .transparent replicas)) :=
  [.deliver 2, .deliver 5] ++ [.deliver 2, .deliver 4] ++ [.deliver 15, .deliver 11]

theorem run_crossedVotes (nodes : NodeIdentity → Handle) (logs : FinalizedLogs) {a b : Bytes}
    (hne : Crypto.transparent.blake3 b ≠ Crypto.transparent.blake3 a)
    (h3 : JudgesBoth a b (nodes 3)) (h4 : JudgesBoth a b (nodes 4)) :
    let s := (finalizedMachine .transparent replicas).run
      (⟨nodes, sentTo replicas 1 (.sendBlock 0 a) ++ sentTo replicas 2 (.sendBlock 0 b)⟩, logs)
      crossedVotes
    s.2 3 = logs 3 ++ [Crypto.transparent.blake3 a] ∧
      s.2 4 = logs 4 ++ [Crypto.transparent.blake3 b] := by
  set packets := sentTo replicas 1 (.sendBlock 0 a) ++ sentTo replicas 2 (.sendBlock 0 b)
  -- replica 3 judges both
  have ha3 : packets[2]? = some ⟨3, 1, .sendBlock 0 a⟩ := rfl
  have hthree := deliver_both logs (j := 5) hne h3 ha3 rfl
  set packets₁ := (packets.eraseIdx 2 ++
      sentTo replicas 3 (.voteBlock (Crypto.transparent.blake3 a) 0 true)).eraseIdx 5 ++
    sentTo replicas 3 (.voteBlock (Crypto.transparent.blake3 b) 0 true)
  set nodes₁ := Function.update nodes 3 ((nodes 3).judged a b) with hnodes₁
  -- replica 4 judges both
  have h4' : JudgesBoth a b (nodes₁ 4) := by
    rw [hnodes₁, Function.update_of_ne (by decide)]
    exact h4
  have ha4 : packets₁[2]? = some ⟨4, 1, .sendBlock 0 a⟩ := rfl
  have hfour := deliver_both logs (j := 4) hne h4' ha4 rfl
  set packets₂ := (packets₁.eraseIdx 2 ++
      sentTo replicas 4 (.voteBlock (Crypto.transparent.blake3 a) 0 true)).eraseIdx 4 ++
    sentTo replicas 4 (.voteBlock (Crypto.transparent.blake3 b) 0 true)
  set nodes₂ := Function.update nodes₁ 4 ((nodes₁ 4).judged a b) with hnodes₂
  have hnode3 : nodes₂ 3 = (nodes 3).judged a b := by
    rw [hnodes₂, Function.update_of_ne (by decide), hnodes₁, Function.update_self]
  have hnode4 : nodes₂ 4 = (nodes 4).judged a b := by
    rw [hnodes₂, Function.update_self, hnodes₁, Function.update_of_ne (by decide)]
  -- replica 3 has two yes for the first block and gets a third from 4
  have hvote3 : packets₂[15]? = some ⟨3, 4, .voteBlock (Crypto.transparent.blake3 a) 0 true⟩ := rfl
  have hheld3 := (nodes 3).judged_left hne
  have hfits3 : ((nodes 3).judged a b).root.bufferLen ≤ ((nodes 3).judged a b).blocks.length :=
    h3.fits
  rw [← hnode3] at hheld3 hfits3
  obtain ⟨h3', hstep3⟩ := deliver_third_yes nodes₂ logs hvote3 hheld3 hfits3
  -- replica 4 has two yes for the second block and gets a third from 3
  have hvote4 : (packets₂.eraseIdx 15)[11]? =
      some ⟨4, 3, .voteBlock (Crypto.transparent.blake3 b) 0 true⟩ := rfl
  have hother : Function.update nodes₂ 3 h3' 4 = (nodes 4).judged a b := by
    rw [Function.update_of_ne (by decide), hnode4]
  have hheld4 := (nodes 4).judged_right a b
  have hfits4 : ((nodes 4).judged a b).root.bufferLen ≤ ((nodes 4).judged a b).blocks.length :=
    h4.fits
  rw [← hother] at hheld4 hfits4
  set logs₁ := Function.update logs 3 (logs 3 ++ [Crypto.transparent.blake3 a])
  obtain ⟨h4'', hstep4⟩ := deliver_third_yes _ logs₁ hvote4 hheld4 hfits4
  rw [crossedVotes, Machine.run_append, Machine.run_append, hthree, hfour, Machine.run_cons,
    Machine.run_cons, Machine.run_nil, hstep3, hstep4]
  have hlog3 : logs₁ 3 = logs 3 ++ [Crypto.transparent.blake3 a] := Function.update_self _ _ _
  have hlog4 : logs₁ 4 = logs 4 := Function.update_of_ne (by decide) _ _
  constructor
  · show Function.update logs₁ 4 (logs₁ 4 ++ [Crypto.transparent.blake3 b]) 3 = _
    rw [Function.update_of_ne (by decide), hlog3]
  · show Function.update logs₁ 4 (logs₁ 4 ++ [Crypto.transparent.blake3 b]) 4 = _
    rw [Function.update_self, hlog4]

/-- Replicas 3 and 4 hear 32 messages, 1 and 2 as many as make them propose;
then 3 and 4 judge both blocks and vote. -/
def crossedBlocks : List (NetAction NodeIdentity (ClientCall .transparent replicas)) :=
  chatterTo 3 32 ++ chatterTo 4 32 ++ chatterTo 1 25 ++ chatterTo 2 41 ++ crossedVotes

theorem run_crossedBlocks :
    let s := (finalizedMachine .transparent replicas).run
      (⟨fun _ => .load lobbyMembers {} [], []⟩, fun _ => []) crossedBlocks
    ∃ a b, a ≠ b ∧ s.2 3 = [a] ∧ s.2 4 = [b] := by
  set nodes : NodeIdentity → Handle := fun _ => .load lobbyMembers {} []
  obtain ⟨h3, hf3, hrun3⟩ := run_chatterTo (n := 3) (k := 32) nodes [] (fun _ => [])
    filled_load (by decide) (by decide)
  set nodes₁ := Function.update nodes 3 h3
  obtain ⟨h4, hf4, hrun4⟩ := run_chatterTo (n := 4) (k := 32) nodes₁ [] (fun _ => [])
    filled_load (by decide) (by decide)
  set nodes₂ := Function.update nodes₁ 4 h4
  -- one block of messages in the first round, two in the second
  obtain ⟨h1, hrun1⟩ := run_chatterTo_proposing (n := 1) (k := 24) nodes₂ [] (fun _ => [])
    filled_load (by decide) (by decide)
    (by decide)
    (cutBlock_chatterLog (j := 16) (by decide) (by decide) (by decide) (by decide))
  set nodes₃ := Function.update nodes₂ 1 h1
  obtain ⟨h2, hrun2⟩ := run_chatterTo_proposing (n := 2) (k := 40) nodes₃
    ([] ++ sentTo replicas 1 (.sendBlock 0 (logCode.frames (chatterLog 16)))) (fun _ => [])
    filled_load (by decide) (by decide)
    (by decide)
    (cutBlock_chatterLog (j := 32) (by decide) (by decide) (by decide) (by decide))
  set nodes₄ := Function.update nodes₃ 2 h2
  have hne : Crypto.transparent.blake3 (logCode.frames (chatterLog 32)) ≠
      Crypto.transparent.blake3 (logCode.frames (chatterLog 16)) := by
    rw [blake3_frames_chatterLog (k := 31) (by decide),
      blake3_frames_chatterLog (k := 15) (by decide)]
    decide
  rw [crossedBlocks, Machine.run_append, Machine.run_append, Machine.run_append,
    Machine.run_append, hrun3, hrun4, hrun1, hrun2]
  exact ⟨_, _, Ne.symm hne, run_crossedVotes nodes₄ (fun _ => []) hne hf3.judgesBoth
    hf4.judgesBoth⟩

/-- The two replicas finalize different blocks. -/
theorem crossedBlocks_disagree :
    ¬ (finalizedMachine .transparent replicas).EachStep
      (fun s a => LogsAgree replicas ((finalizedMachine .transparent replicas).step s a).1.2)
      (⟨fun _ => .load lobbyMembers {} [], []⟩, fun _ => []) crossedBlocks := by
  intro h
  have hagree : LogsAgree replicas ((finalizedMachine .transparent replicas).run
      (⟨fun _ => .load lobbyMembers {} [], []⟩, fun _ => []) crossedBlocks).2 :=
    h.run (P := fun s : GroupState => LogsAgree replicas s.2)
      (fun _ _ _ _ => .inl (List.prefix_refl _))
  obtain ⟨a, b, hne, hthree, hfour⟩ := run_crossedBlocks
  generalize ((finalizedMachine .transparent replicas).run _ crossedBlocks).2 = logs
    at hagree hthree hfour
  rcases hagree 3 (by decide) 4 (by decide) with hprefix | hprefix
  · rw [hthree, hfour] at hprefix
    exact hne (List.singleton_prefix_cons_iff.mp hprefix)
  · rw [hthree, hfour] at hprefix
    exact hne (List.singleton_prefix_cons_iff.mp hprefix).symm

end OnionNetwork.Server
