import OnionNetwork.Server.Mailbox
import OnionNetwork.Server.SendMail

/-!
# Mail comes in order, and once

`read_mail` truncates the file and leaves the position behind what it read, so
the next mail is written behind a gap of zeros, which `unpack_mail` takes for
empty mails. `mailbox_fifo_iff`: the mailbox is a lossless queue exactly as
long as every mail is appended at the end of the file.

`mail_once_iff`: when a `SEND_MAIL` is finished, every replica stored the mail at
most once, every subscription got it at most once, and a mail that is reported as
sent directly is nowhere stored, exactly when the forwarded request and the
replicated one do not both end on one node, and three replicas do not outvote the
others.
-/

namespace OnionNetwork.Server

open Chat Lib

/-- Mails as `append_mail` takes them: not empty and not too large. -/
def Mails (ms : List Bytes) : Prop := ∀ m ∈ ms, m ≠ [] ∧ m.length ≤ maxMailSize

instance (ms : List Bytes) : Decidable (Mails ms) := inferInstanceAs (Decidable (∀ _ ∈ _, _))

/-- A mail to append is not too large. -/
def MailCall.Sized : MailCall → Prop
  | .append mail => mail.length ≤ maxMailSize
  | .read => True

/-- Everything appended was delivered or is still stored, once and in order. -/
def Fifo (stored : List Bytes) (s : Mailbox × MailHistory) : Prop :=
  s.2.delivered ++ unpackMail s.1.file = stored ++ s.2.appended

/-- A mail that is appended now ends up at the end of the file. -/
def AppendsAtEnd (s : Mailbox × MailHistory) (call : MailCall) : Prop :=
  ∀ mail, call = .append mail → s.1.Accepts mail → s.1.pos = s.1.file.length

/-- The mailbox is in order: it holds the mails not delivered yet and stands at
its end, or it was emptied by the last read and stands behind its end. -/
def InOrder (stored : List Bytes) (s : Mailbox × MailHistory) : Prop :=
  Mails (stored ++ s.2.appended) ∧
    ((∃ kept, s.1.file = logCode.packets kept ∧ s.1.pos = s.1.file.length ∧
        s.2.delivered ++ kept = stored ++ s.2.appended) ∨
      (s.1.file = [] ∧ 2 ≤ s.1.pos ∧ s.2.delivered = stored ++ s.2.appended))

/-- An empty mail nobody sent was delivered or will be. -/
def Spoiled (stored : List Bytes) (s : Mailbox × MailHistory) : Prop :=
  Mails (stored ++ s.2.appended) ∧
    ([] ∈ s.2.delivered ∨ ∃ rest, s.1.file = 0 :: 0 :: rest ∧ 2 ≤ s.1.pos)

theorem Mails.append {ms : List Bytes} (h : Mails ms) {mail : Bytes} (hne : mail ≠ [])
    (hsize : mail.length ≤ maxMailSize) : Mails (ms ++ [mail]) := by
  intro m hm
  rcases List.mem_append.mp hm with hm | hm
  · exact h m hm
  · rw [List.mem_singleton.mp hm]
    exact ⟨hne, hsize⟩

theorem Mails.bounded {ms : List Bytes} (h : Mails ms) : logCode.Bounded ms := fun m hm =>
  Nat.lt_of_le_of_lt (h m hm).2 (by decide)

/-- Two zero bytes read as an empty mail. -/
theorem unpack_zeros (rest : Bytes) :
    logCode.unpack (0 :: 0 :: rest) = [] :: logCode.unpack rest := by
  have hnil : ([] : Bytes).length < logCode.bound := by decide
  exact logCode.unpack_packet_append hnil rest

variable {stored : List Bytes} {s : Mailbox × MailHistory} {call : MailCall}

/-- An append at the end and any read keep the mailbox in order. -/
theorem inOrder_step (h : InOrder stored s) (hsized : call.Sized) (hend : AppendsAtEnd s call) :
    InOrder stored (mailMachine.step s call).1 := by
  obtain ⟨mailbox, history⟩ := s
  obtain ⟨hmails, hcase⟩ := h
  cases call with
  | append mail =>
      by_cases hacc : mailbox.Accepts mail
      · have hpos : mailbox.pos = mailbox.file.length := hend mail rfl hacc
        rw [mailMachine_append hacc, FileCursor.writeAll_end hpos]
        refine ⟨?_, .inl ?_⟩
        · rw [← List.append_assoc]
          exact hmails.append hacc.1 hsized
        · -- behind a read the cursor is past the end of the empty file: no append is at the end
          rcases hcase with ⟨kept, hfile, -, hall⟩ | ⟨hfile, hgap, -⟩
          · refine ⟨kept ++ [mail], ?_, rfl, ?_⟩
            · show mailbox.file ++ logCode.packet mail = _
              have hfile' : mailbox.file = logCode.packets kept := hfile
              rw [hfile', LenCode.packets_append, LenCode.packets_singleton]
            · have hall' : history.delivered ++ kept = stored ++ history.appended := hall
              show history.delivered ++ (kept ++ [mail]) = stored ++ (history.appended ++ [mail])
              rw [← List.append_assoc, hall', List.append_assoc]
          · have hfile' : mailbox.file = [] := hfile
            have hgap' : 2 ≤ mailbox.pos := hgap
            rw [hpos, hfile'] at hgap'
            exact absurd hgap' (by decide)
      · rw [mailMachine_refused hacc]
        exact ⟨hmails, hcase⟩
  | read =>
      rw [mailMachine_read]
      refine ⟨hmails, ?_⟩
      rcases hcase with ⟨kept, hfile, -, hall⟩ | ⟨hfile, -, hall⟩
      · have hfile' : mailbox.file = logCode.packets kept := hfile
        have hall' : history.delivered ++ kept = stored ++ history.appended := hall
        have hkept : Mails kept := fun m hm =>
          hmails m (hall ▸ List.mem_append_right _ hm)
        rw [hfile', logCode.unpack_packets hkept.bounded]
        -- a read of mails leaves the cursor where it was, one of nothing changes nothing
        cases kept with
        | nil => exact .inl ⟨[], rfl, rfl, by simpa using hall'⟩
        | cons m kept =>
            refine .inr ⟨rfl, ?_, hall'⟩
            simp only [LenCode.packets_cons, List.length_append, LenCode.length_packet,
              logCode_width]
            omega
      · have hfile' : mailbox.file = [] := hfile
        have hall' : history.delivered = stored ++ history.appended := hall
        refine .inl ⟨[], rfl, ?_, ?_⟩
        · rw [hfile']
        · simp [hfile', hall']

/-- Any other append spoils it: the gap reads as an empty mail. -/
theorem spoiled_of_gap (h : InOrder stored s) (hsized : call.Sized)
    (hgap : ¬ AppendsAtEnd s call) : Spoiled stored (mailMachine.step s call).1 := by
  obtain ⟨mailbox, history⟩ := s
  obtain ⟨hmails, hcase⟩ := h
  simp only [AppendsAtEnd, not_forall] at hgap
  obtain ⟨mail, rfl, hacc, hpos⟩ := hgap
  rcases hcase with ⟨kept, -, hend, -⟩ | ⟨hfile, htwo, -⟩
  · exact absurd hend hpos
  · rw [mailMachine_append hacc, FileCursor.writeAll_gap hfile]
    refine ⟨?_, .inr ?_⟩
    · rw [← List.append_assoc]
      exact hmails.append hacc.1 hsized
    · obtain ⟨k, hk⟩ := Nat.exists_eq_add_of_le htwo
      have hk' : mailbox.pos = k + 2 := by
        rw [Nat.add_comm]
        exact hk
      refine ⟨List.replicate k 0 ++ logCode.packet mail, ?_, ?_⟩
      · rw [hk']
        rfl
      · exact Nat.le_add_right_of_le htwo

/-- What is spoiled stays so. -/
theorem spoiled_step (h : Spoiled stored s) (hsized : call.Sized) :
    Spoiled stored (mailMachine.step s call).1 := by
  obtain ⟨mailbox, history⟩ := s
  obtain ⟨hmails, hcase⟩ := h
  cases call with
  | append mail =>
      by_cases hacc : mailbox.Accepts mail
      · rw [mailMachine_append hacc]
        refine ⟨?_, ?_⟩
        · rw [← List.append_assoc]
          exact hmails.append hacc.1 hsized
        · rcases hcase with hdel | ⟨rest, hfile, htwo⟩
          · exact .inl hdel
          · -- the write is behind the two zeros
            have hfile' : mailbox.file = 0 :: 0 :: rest := hfile
            have hlen : 2 ≤ mailbox.file.length := by
              rw [hfile']
              exact Nat.le_add_left 2 rest.length
            have htake := FileCursor.take_writeAll (c := mailbox) htwo hlen (logCode.packet mail)
            have hsplit := List.take_append_drop 2 (mailbox.writeAll (logCode.packet mail)).file
            rw [htake, hfile'] at hsplit
            exact .inr ⟨_, hsplit.symm, Nat.le_add_right_of_le htwo⟩
      · rw [mailMachine_refused hacc]
        exact ⟨hmails, hcase⟩
  | read =>
      rw [mailMachine_read]
      refine ⟨hmails, .inl ?_⟩
      rcases hcase with hdel | ⟨rest, hfile, -⟩
      · exact List.mem_append_left _ hdel
      · have hfile' : mailbox.file = 0 :: 0 :: rest := hfile
        rw [hfile', unpack_zeros]
        exact List.mem_append_right _ List.mem_cons_self

theorem fifo_of_inOrder (h : InOrder stored s) : Fifo stored s := by
  obtain ⟨hmails, ⟨kept, hfile, -, hall⟩ | ⟨hfile, -, hall⟩⟩ := h
  · have hkept : Mails kept := fun m hm => hmails m (hall ▸ List.mem_append_right _ hm)
    rw [Fifo, hfile, unpackMail_eq, logCode.unpack_packets hkept.bounded, hall]
  · rw [Fifo, hfile, unpackMail_eq, LenCode.unpack_nil, List.append_nil, hall]

theorem not_fifo_of_spoiled (h : Spoiled stored s) : ¬ Fifo stored s := by
  intro hfifo
  have hnil : [] ∈ s.2.delivered ++ unpackMail s.1.file := by
    rcases h.2 with hdel | ⟨rest, hfile, -⟩
    · exact List.mem_append_left _ hdel
    · rw [hfile, unpackMail_eq, unpack_zeros]
      exact List.mem_append_right _ List.mem_cons_self
  rw [hfifo] at hnil
  exact (h.1 [] hnil).1 rfl

/-- A loaded mailbox, before the first call. -/
def loaded (stored : List Bytes) : Mailbox × MailHistory :=
  (Mailbox.load (logCode.packets stored), ⟨[], []⟩)

/-- **The mailbox as a queue.** After any sequence of calls on a loaded mailbox,
what was read and what is still stored are the mails stored before and appended
since, in order, if and only if every accepted append found the position at the
end of the file. -/
theorem mailbox_fifo_iff (stored : List Bytes) (hstored : Mails stored) (calls : List MailCall)
    (hcalls : ∀ call ∈ calls, call.Sized) :
    Fifo stored (mailMachine.run (loaded stored) calls) ↔
      mailMachine.EachStep AppendsAtEnd (loaded stored) calls := by
  have hloaded : InOrder stored (loaded stored) :=
    ⟨by simpa [loaded] using hstored, .inl ⟨stored, rfl, rfl, by simp [loaded]⟩⟩
  exact Machine.goal_run_iff (fun _ _ h hR hok => inOrder_step h hR hok)
    (fun _ _ h hR hno => spoiled_of_gap h hR hno) (fun _ _ h hR => spoiled_step h hR)
    (fun _ h => fifo_of_inOrder h) (fun _ h => not_fifo_of_spoiled h) hloaded hcalls

/-- A mailbox that is read after its last mail. -/
theorem mailbox_fifo_iff_read :
    Fifo [[1]] (mailMachine.run (loaded [[1]]) [.append [7], .append [8], .read]) ↔
      mailMachine.EachStep AppendsAtEnd (loaded [[1]]) [.append [7], .append [8], .read] :=
  mailbox_fifo_iff [[1]] (by decide) [.append [7], .append [8], .read] (by
    intro call hcall
    simp only [List.mem_cons, List.not_mem_nil, or_false] at hcall
    rcases hcall with rfl | rfl | rfl
    · show (1 : Nat) ≤ maxMailSize
      decide
    · show (1 : Nat) ≤ maxMailSize
      decide
    · trivial)

/-- A mail appended after a read: it is lost, and two empty mails take its
place. -/
theorem append_after_read_lost :
    (mailMachine.run (loaded []) [.append [7], .read, .append [8], .read]).2.appended =
        [[7], [8]] ∧
      (mailMachine.run (loaded []) [.append [7], .read, .append [8], .read]).2.delivered =
        [[7], [], []] ∧
      ¬ Fifo [] (mailMachine.run (loaded []) [.append [7], .read, .append [8], .read]) := by
  refine ⟨by decide, by decide, ?_⟩
  show ¬ (_ : List Bytes) = _
  decide

end OnionNetwork.Server

namespace OnionNetwork.Server

open Chat Lib MailContext MailNode

/-! ### Votes for a mail that was sent directly -/

/-- The call answers that the mail was sent directly when three others do. -/
theorem resp_call_sentDirectly {localPeerId : NodeIdentity} {ongoing : Bool} {us : Response Unit}
    {others : ReplVec (Ballot Unit)} (hus : us ≠ .error .sentDirectly) :
    (Repl.call localPeerId ongoing us (.ok others)).resp = .error .sentDirectly ↔
      3 ≤ others.toList.countP fun b => b.2 = .error .sentDirectly := by
  have hpick : (Repl.call localPeerId ongoing us (.ok others)).pick =
      Lib.pick Response.eq 3 (us :: (others.toList.map Prod.snd).reverse) :=
    pick_call localPeerId ongoing hus
  have hcount : (us :: (others.toList.map Prod.snd).reverse).countP
      (fun r => r = .error .sentDirectly) =
        others.toList.countP fun b => b.2 = .error .sentDirectly := by
    rw [List.countP_cons_of_neg (by simpa using hus), List.countP_reverse, List.countP_map]
    rfl
  -- the direct answer is alike to itself only, so its class is counted exactly
  have halone : ∀ r : Response Unit,
      Response.eq (.error .sentDirectly) r = decide (r = .error .sentDirectly) := by
    intro r
    rw [Bool.eq_iff_iff, decide_eq_true_iff]
    constructor
    · exact fun h => (Response.eq_of_no_limit (by simp) h).symm
    · rintro rfl
      exact Response.eq_refl _
  -- less than twice the quota: no other class can reach it
  have hlength : (us :: (others.toList.map Prod.snd).reverse).length < 2 * 3 := by
    have hle : others.toList.length ≤ 4 := others.length_le
    rw [List.length_cons, List.length_reverse, List.length_map]
    omega
  constructor
  · intro hresp
    cases hwinner : (Repl.call localPeerId ongoing us (.ok others)).pick with
    | none =>
        rw [resp_of_none hus hwinner] at hresp
        cases ongoing <;> cases hresp
    | some r =>
        rw [resp_of_pick hwinner] at hresp
        rw [hwinner, hresp] at hpick
        have hquota := (mem_of_pick Response.eq_refl hpick.symm).2
        rw [alike, List.countP_congr fun r _ => by rw [halone r]] at hquota
        rwa [← hcount]
  · intro hquota
    rw [← hcount] at hquota
    obtain ⟨r, hwinner, _, hr⟩ := pick_of_class Response.eq_refl Response.eq_symm
      (fun r => decide (r = .error .sentDirectly))
      (fun x _ hx y _ => by rw [of_decide_eq_true hx, halone y]) hquota hlength
    rw [hwinner, of_decide_eq_true hr] at hpick
    exact resp_of_pick hpick

namespace MailRequest

variable {req : MailRequest} {routes : Routes} {nodes : MailNodes} {id peer : NodeIdentity}

/-! ### The handler of the node that is asked -/

theorem deliver_apply (peer id : NodeIdentity) : req.deliver nodes peer id =
    if id = peer then (nodes id).receive req.localPeerId req.mail else nodes id := by
  by_cases h : id = peer
  · rw [if_pos h, h, deliver, Function.update_self]
  · rw [if_neg h, deliver, Function.update_of_ne h]

theorem nodes_sendRpc : (req.sendRpc routes nodes peer).1 =
    if routes.forward.arrivesFirst then req.deliver nodes peer else nodes := by
  unfold sendRpc
  split <;> simp [Forward.arrivesFirst, *]

theorem answer_sendRpc : (req.sendRpc routes nodes peer).2 = .ok (.error .sentDirectly) ↔
    routes.forward = .answered ∧ (nodes peer).cx.hasProfile = true ∧ 0 < (nodes peer).cx.room := by
  rw [← response_serverSendMail req.localPeerId req.mail]
  unfold sendRpc
  split <;> simp [answerOf, *]

theorem finish_self (served : Served) : (req.finish nodes served).1 req.localPeerId =
    (nodes req.localPeerId).follow served := Function.update_self ..

theorem finish_of_ne (served : Served) (h : id ≠ req.localPeerId) :
    (req.finish nodes served).1 id = nodes id := Function.update_of_ne h ..

/-- The node answers that it sent the mail directly: it pushed the mail itself, or the
node it asked did and says so. -/
def Direct (req : MailRequest) (routes : Routes) (nodes : MailNodes) : Prop :=
  match (nodes req.localPeerId).cx.online with
  | none => False
  | some (.localPath p) => p ≠ req.origin ∧ 0 < (nodes req.localPeerId).cx.room
  | some (.remote peer) =>
      routes.forward = .answered ∧ (nodes peer).cx.hasProfile = true ∧ 0 < (nodes peer).cx.room

/-- The owner writes to itself on the path on which it is online. -/
def ToSelf (req : MailRequest) (nodes : MailNodes) : Prop :=
  (nodes req.localPeerId).cx.online = some (.localPath req.origin)

/-- The node of the handler, before its own part of the work. -/
def ownNode (req : MailRequest) (routes : Routes) (nodes : MailNodes) : MailNode :=
  if req.forwardsTo nodes = some req.localPeerId ∧ routes.forward.arrivesFirst then
    (nodes req.localPeerId).receive req.localPeerId req.mail
  else nodes req.localPeerId

theorem ownNode_of_forwards (hforwards : req.forwardsTo nodes = some peer) :
    req.ownNode routes nodes = (req.sendRpc routes nodes peer).1 req.localPeerId := by
  rw [nodes_sendRpc, ownNode, hforwards]
  cases routes.forward.arrivesFirst with
  | false => simp
  | true => simp [deliver_apply, eq_comm]

/-- The handler leaves the other nodes alone, but for the one it forwards to. -/
theorem localSendMail_of_ne (h : id ≠ req.localPeerId) : (req.localSendMail routes nodes).1 id =
    if req.forwardsTo nodes = some id ∧ routes.forward.arrivesFirst then
      (nodes id).receive req.localPeerId req.mail
    else nodes id := by
  have hstep := sendMail_localStep (nodes req.localPeerId).cx req.origin req.mail
  unfold localSendMail
  generalize (nodes req.localPeerId).cx.sendMail (.localPath req.origin) req.mail = handled at hstep
  cases hstep with
  | toSelf honline => simp [finish_of_ne _ h, forwardsTo, honline]
  | pushes honline _ _ => simp [finish_of_ne _ h, forwardsTo, honline]
  | stores honline _ _ =>
      rcases honline with honline | ⟨p, honline, _⟩
      · simp [finish_of_ne _ h, forwardsTo, honline]
      · simp [finish_of_ne _ h, forwardsTo, honline]
  | @forwards peer honline =>
      have hforwards : req.forwardsTo nodes = some peer := by simp only [forwardsTo, honline]
      simp only [finish_of_ne _ h, nodes_sendRpc, hforwards]
      cases routes.forward.arrivesFirst with
      | false => simp
      | true => simp [deliver_apply, eq_comm]

/-- What the handler answers and does on its own node, when the mail is not sent
directly. -/
theorem localSendMail_stores (hdirect : ¬ req.Direct routes nodes) (hself : ¬ req.ToSelf nodes) :
    (req.localSendMail routes nodes).2 ≠ .error .sentDirectly ∧
      Appends req.mail (req.ownNode routes nodes)
        ((req.localSendMail routes nodes).1 req.localPeerId) := by
  have hstep := sendMail_localStep (nodes req.localPeerId).cx req.origin req.mail
  unfold localSendMail
  generalize (nodes req.localPeerId).cx.sendMail (.localPath req.origin) req.mail = handled at hstep
  cases hstep with
  | toSelf honline => exact absurd honline hself
  | @pushes p path event cx' honline hne hroom =>
      refine absurd ?_ hdirect
      simp only [Direct, honline]
      exact ⟨hne, hroom⟩
  | @stores cx' honline hhas hsame =>
      have hown : req.ownNode routes nodes = nodes req.localPeerId := by
        rcases honline with honline | ⟨p, honline, _⟩
        · simp [ownNode, forwardsTo, honline]
        · simp [ownNode, forwardsTo, honline]
      simp only [finish_self, hown]
      exact ⟨(storeOffline_spec cx' req.mail).2.2, appends_storeOffline hhas hsame⟩
  | @forwards peer honline =>
      have hforwards : req.forwardsTo nodes = some peer := by simp only [forwardsTo, honline]
      have hanswer : (req.sendRpc routes nodes peer).2 ≠ .ok (.error .sentDirectly) := by
        intro h
        refine hdirect ?_
        simp only [Direct, honline]
        exact answer_sendRpc.mp h
      have hafter : ∀ cx : MailContext,
          cx.afterRpc req.mail (req.sendRpc routes nodes peer).2 = cx.storeOffline req.mail :=
        fun cx => if_neg hanswer
      simp only [finish_self, hafter, ownNode_of_forwards hforwards]
      exact ⟨(storeOffline_spec _ req.mail).2.2, appends_storeOffline rfl rfl⟩

/-- A mail to itself is refused. -/
theorem localSendMail_toSelf (hself : req.ToSelf nodes) :
    req.localSendMail routes nodes =
      req.finish nodes ⟨(nodes req.localPeerId).cx, none, .error .sendingToSelf⟩ := by
  have hsend : (nodes req.localPeerId).cx.sendMail (.localPath req.origin) req.mail =
      .done ⟨(nodes req.localPeerId).cx, none, .error .sendingToSelf⟩ := by
    simp [sendMail, show (nodes req.localPeerId).cx.online = _ from hself]
  simp only [localSendMail, hsend]

/-- A mail that is sent directly was pushed by one node, and stored by none. -/
theorem localSendMail_direct (hdirect : req.Direct routes nodes) (id : NodeIdentity) :
    (req.localSendMail routes nodes).2 = .error .sentDirectly ∧
      ((req.localSendMail routes nodes).1 id).stored = (nodes id).stored ∧
      ((req.localSendMail routes nodes).1 id).pushed ≤ (nodes id).pushed + 1 := by
  have hstep := sendMail_localStep (nodes req.localPeerId).cx req.origin req.mail
  unfold localSendMail
  generalize (nodes req.localPeerId).cx.sendMail (.localPath req.origin) req.mail = handled at hstep
  cases hstep with
  | toSelf honline =>
      simp only [Direct, honline] at hdirect
      exact absurd rfl hdirect.1
  | pushes honline _ _ =>
      refine ⟨rfl, ?_⟩
      -- the client is online here: this node pushes the mail
      by_cases hid : id = req.localPeerId
      · rw [hid, finish_self, stored_follow, pushed_follow]
        exact ⟨rfl, le_rfl⟩
      · rw [finish_of_ne _ hid]
        exact ⟨rfl, Nat.le_succ _⟩
  | stores honline _ _ =>
      rcases honline with honline | ⟨p, honline, hne, hroom⟩
      · simp only [Direct, honline] at hdirect
      · simp only [Direct, honline, hroom] at hdirect
        exact absurd hdirect.2 (lt_irrefl 0)
  | @forwards peer honline =>
      simp only [Direct, honline] at hdirect
      -- the client is online at `peer`, which pushes the mail
      obtain ⟨hforward, hprofile, hroom⟩ := hdirect
      have hne : peer ≠ req.localPeerId := by
        rintro rfl
        simp [room, honline] at hroom
      have hanswer : (req.sendRpc routes nodes peer).2 = .ok (.error .sentDirectly) :=
        answer_sendRpc.mpr ⟨hforward, hprofile, hroom⟩
      have hnodes : (req.sendRpc routes nodes peer).1 = req.deliver nodes peer := by
        rw [nodes_sendRpc, hforward]
        rfl
      simp only [afterRpc, hanswer, hnodes, if_true]
      refine ⟨rfl, ?_⟩
      by_cases hid : id = req.localPeerId
      · rw [hid, finish_self, stored_follow, pushed_follow, deliver_apply, if_neg hne.symm]
        exact ⟨rfl, Nat.le_succ _⟩
      · rw [finish_of_ne _ hid, deliver_apply]
        split
        · next hpeer =>
            rw [← hpeer] at hprofile hroom
            obtain ⟨hstored, hpushed, _⟩ :=
              receive_of_room req.localPeerId req.mail hprofile hroom
            exact ⟨hstored, hpushed.le⟩
        · exact ⟨rfl, Nat.le_succ _⟩

theorem response_localSendMail : (req.localSendMail routes nodes).2 = .error .sentDirectly ↔
    req.Direct routes nodes := by
  constructor
  · intro h
    by_contra hdirect
    by_cases hself : req.ToSelf nodes
    · rw [localSendMail_toSelf hself] at h
      cases h
    · exact (localSendMail_stores hdirect hself).1 h
  · intro hdirect
    exact (localSendMail_direct hdirect req.localPeerId).1

/-! ### The nodes once the call is finished -/

theorem deliverLate_apply (handled : MailNodes) (id : NodeIdentity) :
    req.deliverLate routes handled nodes id =
      if req.forwardsTo nodes = some id ∧ routes.forward.arrives ∧
          ¬ routes.forward.arrivesFirst then
        (handled id).receive req.localPeerId req.mail
      else handled id := by
  unfold deliverLate
  cases req.forwardsTo nodes with
  | none => simp
  | some peer =>
      cases routes.forward with
      | notConnected => simp [Forward.arrives]
      | lost kind => simp [Forward.arrives]
      | answered => simp [Forward.arrivesFirst]
      | unanswered kind late =>
          cases late with
          | false => simp [Forward.arrivesFirst]
          | true => simp [Forward.arrives, Forward.arrivesFirst, deliver_apply, eq_comm]

/-- A node of the group has others to send to. -/
theorem getOthersFor_of_mem {closest : GroupVec NodeIdentity} {localPeerId : NodeIdentity}
    (h : localPeerId ∈ closest) : ∃ others, getOthersFor closest localPeerId = some others ∧
      others.toList = closest.toList.filter fun peer => peer ≠ localPeerId := by
  have hlt : (closest.toList.filter fun peer => peer ≠ localPeerId).length <
      closest.toList.length := by
    apply List.length_filter_lt_length_iff_exists.mpr
    exact ⟨localPeerId, h, by simp⟩
  have hne : (closest.toList.filter fun peer => peer ≠ localPeerId).length ≠
      replicationFactor + 1 := (lt_of_lt_of_le hlt closest.length_le).ne
  unfold getOthersFor
  rw [dif_neg hne]
  exact ⟨_, rfl, rfl⟩

/-- How often the mail arrives at another node. -/
def arrivals (req : MailRequest) (routes : Routes) (nodes : MailNodes) (id : NodeIdentity) : Nat :=
  (if req.forwardsTo nodes = some id ∧ routes.forward.arrives then 1 else 0) +
    if id ∈ req.closest ∧ (routes.replicated id).arrives then 1 else 0

section Run

variable (ongoing : Bool)

theorem run_direct (hdirect : req.Direct routes nodes) :
    req.run routes nodes ongoing = req.localSendMail routes nodes :=
  if_pos (response_localSendMail.mpr hdirect)

/-- The others, and what a call that is not sent directly leaves and answers. -/
theorem run_replicated (hmem : req.localPeerId ∈ req.closest)
    (hdirect : ¬ req.Direct routes nodes) :
    ∃ others : ReplVec NodeIdentity,
      others.toList = req.closest.toList.filter (fun peer => peer ≠ req.localPeerId) ∧
      req.run routes nodes ongoing =
        (req.deliverLate routes
            (req.replicate routes (req.localSendMail routes nodes).1 others) nodes,
          (Repl.call req.localPeerId ongoing (req.localSendMail routes nodes).2
            (joinStreams
              (req.streams routes (req.localSendMail routes nodes).1 others))).resp) := by
  obtain ⟨others, hothers, hlist⟩ := getOthersFor_of_mem hmem
  refine ⟨others, hlist, ?_⟩
  have hus : (req.localSendMail routes nodes).2 ≠ .error .sentDirectly :=
    fun h => hdirect (response_localSendMail.mp h)
  simp only [run, if_neg hus, hothers]

theorem run_of_ne (hmem : req.localPeerId ∈ req.closest) (hdirect : ¬ req.Direct routes nodes)
    (hne : id ≠ req.localPeerId) : (req.run routes nodes ongoing).1 id =
      (MailNode.receive req.localPeerId req.mail)^[req.arrivals routes nodes id] (nodes id) := by
  obtain ⟨others, hothers, hrun⟩ := run_replicated ongoing hmem hdirect
  have hid : id ∈ others ↔ id ∈ req.closest := by
    simp [ArrayVec.mem_def, hothers, hne]
  rw [hrun]
  show req.deliverLate routes _ nodes id = _
  rw [deliverLate_apply]
  simp only [replicate, hid, localSendMail_of_ne hne, arrivals]
  -- in front of the replicated request or behind it, a forwarded request counts once
  by_cases hforwards : req.forwardsTo nodes = some id
  · cases hfirst : routes.forward.arrivesFirst with
    | true =>
        have harrives := Forward.arrives_of_first hfirst
        by_cases hrepl : id ∈ req.closest ∧ (routes.replicated id).arrives
        · simp [hforwards, harrives, hrepl]
        · simp [hforwards, harrives, hrepl]
    | false =>
        by_cases hrepl : id ∈ req.closest ∧ (routes.replicated id).arrives
        · cases harrives : routes.forward.arrives <;> simp [hforwards, hrepl]
        · cases harrives : routes.forward.arrives <;> simp [hforwards, hrepl]
  · by_cases hrepl : id ∈ req.closest ∧ (routes.replicated id).arrives
    · simp [hforwards, hrepl]
    · simp [hforwards, hrepl]

instance (req : MailRequest) (nodes : MailNodes) : Decidable (req.ToSelf nodes) :=
  inferInstanceAs (Decidable (_ = _))

/-- How often the node that is asked tries to store the mail: by itself, and because
of a request that it forwarded to itself. -/
def attempts (req : MailRequest) (routes : Routes) (nodes : MailNodes) : Nat :=
  if req.ToSelf nodes then 0
  else 1 + if req.forwardsTo nodes = some req.localPeerId ∧ routes.forward.arrives ∧
    (nodes req.localPeerId).cx.hasProfile then 1 else 0

theorem forwardsTo_eq_some :
    req.forwardsTo nodes = some peer ↔ (nodes req.localPeerId).cx.online = some (.remote peer) := by
  unfold forwardsTo
  split
  · next honline => rw [honline, Option.some_inj, Option.some_inj, OnlineLocation.remote.injEq]
  · next hother => exact iff_of_false (fun h => nomatch h) (hother peer)

/-- The node that is asked, behind its own part of the work. -/
theorem run_self_apply (hmem : req.localPeerId ∈ req.closest)
    (hdirect : ¬ req.Direct routes nodes) :
    (req.run routes nodes ongoing).1 req.localPeerId =
      if req.forwardsTo nodes = some req.localPeerId ∧ routes.forward.arrives ∧
          ¬ routes.forward.arrivesFirst then
        ((req.localSendMail routes nodes).1 req.localPeerId).receive req.localPeerId req.mail
      else (req.localSendMail routes nodes).1 req.localPeerId := by
  obtain ⟨others, hothers, hrun⟩ := run_replicated ongoing hmem hdirect
  have hnot : req.localPeerId ∉ others := by simp [ArrayVec.mem_def, hothers]
  rw [hrun]
  show req.deliverLate routes _ nodes _ = _
  rw [deliverLate_apply]
  simp only [replicate, hnot, false_and, if_false]

theorem run_self (hmem : req.localPeerId ∈ req.closest) (hdirect : ¬ req.Direct routes nodes) :
    ((req.run routes nodes ongoing).1 req.localPeerId).stored =
        (nodes req.localPeerId).stored +
          taken req.mail (req.attempts routes nodes) (nodes req.localPeerId).cx.profile ∧
      ((req.run routes nodes ongoing).1 req.localPeerId).pushed =
        (nodes req.localPeerId).pushed := by
  rw [run_self_apply ongoing hmem hdirect]
  by_cases hself : req.ToSelf nodes
  · have hnone : req.forwardsTo nodes ≠ some req.localPeerId := by
      rw [ne_eq, forwardsTo_eq_some, show (nodes req.localPeerId).cx.online = _ from hself]
      simp
    rw [if_neg fun h => hnone h.1, localSendMail_toSelf hself, finish_self, stored_follow,
      pushed_follow, attempts, if_pos hself]
    exact ⟨rfl, rfl⟩
  have happend := (localSendMail_stores hdirect hself).2
  rw [attempts, if_neg hself]
  by_cases hforwards : req.forwardsTo nodes = some req.localPeerId
  swap
  · have hown : req.ownNode routes nodes = nodes req.localPeerId := if_neg fun h => hforwards h.1
    rw [hown] at happend
    rw [if_neg fun h => hforwards h.1, if_neg fun h => hforwards h.1, happend.stored,
      happend.pushed]
    exact ⟨rfl, rfl⟩
  have hfull : (nodes req.localPeerId).cx.room = 0 := by
    rw [room, forwardsTo_eq_some.mp hforwards]
  -- the request to itself is one more append, before the own one or after it
  cases hfirst : routes.forward.arrivesFirst with
  | true =>
      have harrives := Forward.arrives_of_first hfirst
      have hown : req.ownNode routes nodes =
          (nodes req.localPeerId).receive req.localPeerId req.mail := if_pos ⟨hforwards, hfirst⟩
      rw [hown] at happend
      rw [if_neg (by simp)]
      cases hprofile : (nodes req.localPeerId).cx.hasProfile with
      | true =>
          have hreceive : Appends req.mail (nodes req.localPeerId)
              ((nodes req.localPeerId).receive req.localPeerId req.mail) :=
            receive_of_full hprofile hfull
          rw [if_pos ⟨hforwards, harrives, rfl⟩]
          exact ⟨hreceive.twice happend, happend.pushed.trans hreceive.pushed⟩
      | false =>
          rw [receive_of_missing hprofile] at happend
          rw [if_neg (by simp)]
          exact ⟨happend.stored, happend.pushed⟩
  | false =>
      have hown : req.ownNode routes nodes = nodes req.localPeerId := if_neg (by simp [hfirst])
      rw [hown] at happend
      cases harrives : routes.forward.arrives with
      | false =>
          rw [if_neg (by simp), if_neg (by simp)]
          exact ⟨happend.stored, happend.pushed⟩
      | true =>
          rw [if_pos ⟨hforwards, rfl, by simp⟩]
          cases hprofile : (nodes req.localPeerId).cx.hasProfile with
          | true =>
              have hreceive : Appends req.mail _ (MailNode.receive req.localPeerId req.mail _) :=
                receive_of_full (happend.hasProfile.trans hprofile) happend.room
              rw [if_pos ⟨hforwards, rfl, rfl⟩]
              exact ⟨happend.twice hreceive, hreceive.pushed.trans happend.pushed⟩
          | false =>
              rw [receive_of_missing (happend.hasProfile.trans hprofile), if_neg (by simp)]
              exact ⟨happend.stored, happend.pushed⟩

/-! ### The answer of the call -/

/-- How often the forwarded request is handled before the replicated one. -/
def before (req : MailRequest) (routes : Routes) (nodes : MailNodes) (id : NodeIdentity) : Nat :=
  if req.forwardsTo nodes = some id ∧ routes.forward.arrivesFirst then 1 else 0

/-- The node answers the replicated request in time, and that it sent the mail
directly. -/
def Tells (req : MailRequest) (routes : Routes) (nodes : MailNodes) (id : NodeIdentity) : Prop :=
  (routes.replicated id).inTime ∧ (nodes id).cx.hasProfile ∧
    req.before routes nodes id < (nodes id).cx.room

instance (req : MailRequest) (routes : Routes) (nodes : MailNodes) (id : NodeIdentity) :
    Decidable (req.Tells routes nodes id) :=
  inferInstanceAs (Decidable (_ ∧ _ ∧ _))

theorem answerOf_localSendMail (hne : id ≠ req.localPeerId) :
    req.answerOf (req.localSendMail routes nodes).1 id = .error .sentDirectly ↔
      (nodes id).cx.hasProfile = true ∧ req.before routes nodes id < (nodes id).cx.room := by
  rw [answerOf, response_serverSendMail, localSendMail_of_ne hne, before]
  split
  swap
  · rfl
  cases hprofile : (nodes id).cx.hasProfile with
  | false => simp [receive_of_missing hprofile, hprofile]
  | true =>
      rcases Nat.eq_zero_or_pos (nodes id).cx.room with hfull | hroom
      · have hreceive : Appends req.mail (nodes id)
            ((nodes id).receive req.localPeerId req.mail) := receive_of_full hprofile hfull
        rw [hreceive.room, hfull]
        simp
      · obtain ⟨_, _, _, hroom', hprofile'⟩ :=
          receive_of_room req.localPeerId req.mail hprofile hroom
        rw [hroom', hprofile']
        constructor
        · rintro ⟨_, hlt⟩
          exact ⟨rfl, by omega⟩
        · rintro ⟨_, hlt⟩
          exact ⟨rfl, by omega⟩

theorem firstFailure_streams_eq_none {others : ReplVec NodeIdentity} :
    firstFailure (req.streams routes nodes others).toList = none ↔
      ∀ id ∈ others, (routes.replicated id).fails = false := by
  rw [firstFailure_eq_none]
  constructor
  · intro h id hid
    by_contra hfails
    obtain ⟨afterMs, e, hfuture, _⟩ :=
      Route.future_of_fails (req.answerOf nodes id) (Bool.not_eq_false _ ▸ hfails)
    refine h (afterMs, .error e) (List.mem_filterMap.mpr ⟨id, hid, ?_⟩) e rfl
    rw [hfuture]
    rfl
  · intro h f hf e he
    obtain ⟨id, hid, hmap⟩ := List.mem_filterMap.mp hf
    cases htime : (routes.replicated id).inTime with
    | true =>
        obtain ⟨afterMs, hfuture⟩ := Route.future_of_inTime (req.answerOf nodes id) htime
        rw [hfuture] at hmap
        cases hmap
        cases he
    | false =>
        rw [Route.eq_notConnected htime (h id hid)] at hmap
        cases hmap

theorem firstFailure_streams_ne {others : ReplVec NodeIdentity} {e : ChatError}
    (h : firstFailure (req.streams routes nodes others).toList = some e) : e ≠ .sentDirectly := by
  obtain ⟨failure, hmin, rfl⟩ := Option.map_eq_some_iff.mp h
  obtain ⟨f, hf, hfailure⟩ := List.mem_filterMap.mp (List.argmin_mem hmin)
  obtain ⟨id, hid, hmap⟩ := List.mem_filterMap.mp hf
  cases htime : (routes.replicated id).inTime with
  | true =>
      obtain ⟨afterMs, hfuture⟩ := Route.future_of_inTime (req.answerOf nodes id) htime
      rw [hfuture] at hmap
      cases hmap
      cases hfailure
  | false =>
      cases hfails : (routes.replicated id).fails with
      | false =>
          rw [Route.eq_notConnected htime hfails] at hmap
          cases hmap
      | true =>
          obtain ⟨afterMs, e, hfuture, hne⟩ :=
            Route.future_of_fails (req.answerOf nodes id) hfails
          rw [hfuture] at hmap
          cases hmap
          cases hfailure
          exact hne

/-- The votes for a mail that was sent directly, where no stream fails. -/
theorem countP_streams {others : ReplVec NodeIdentity}
    (hfails : ∀ id ∈ others, (routes.replicated id).fails = false) :
    ((req.streams routes nodes others).toList.filterMap fun f => f.2.toOption).countP
        (fun b => b.2 = .error .sentDirectly) =
      others.toList.countP fun id => (routes.replicated id).inTime ∧
        req.answerOf nodes id = .error .sentDirectly := by
  simp only [streams, List.filterMap_filterMap, List.countP_filterMap]
  refine List.countP_congr fun id hid => ?_
  cases htime : (routes.replicated id).inTime with
  | true =>
      obtain ⟨afterMs, hfuture⟩ := Route.future_of_inTime (req.answerOf nodes id) htime
      simp [hfuture, Except.map, Except.toOption]
  | false =>
      rw [Route.eq_notConnected htime (hfails id hid)]
      simp [Route.future, Route.reply, PeerReply.future]

/-- The call answers that the mail was sent directly though the handler of the node
does not. -/
theorem response_run (hmem : req.localPeerId ∈ req.closest) (hdirect : ¬ req.Direct routes nodes) :
    (req.run routes nodes ongoing).2 = .error .sentDirectly ↔
      (∀ id ∈ req.closest, id ≠ req.localPeerId → (routes.replicated id).fails = false) ∧
        3 ≤ req.closest.toList.countP fun id =>
          id ≠ req.localPeerId ∧ req.Tells routes nodes id := by
  obtain ⟨others, hothers, hrun⟩ := run_replicated ongoing hmem hdirect
  have hus : (req.localSendMail routes nodes).2 ≠ .error .sentDirectly :=
    fun h => hdirect (response_localSendMail.mp h)
  have hmem_others : ∀ id, id ∈ others ↔ id ∈ req.closest ∧ id ≠ req.localPeerId := by
    intro id
    simp [ArrayVec.mem_def, hothers]
  have hconnected : (∀ id ∈ others, (routes.replicated id).fails = false) ↔
      ∀ id ∈ req.closest, id ≠ req.localPeerId → (routes.replicated id).fails = false := by
    simp only [hmem_others, and_imp]
  rw [hrun, ← hconnected]
  show (Repl.call _ _ _ _).resp = _ ↔ _
  cases hfirst : firstFailure
      (req.streams routes (req.localSendMail routes nodes).1 others).toList with
  | some e =>
      -- a failed connection answers for the call, and it is never "sent directly"
      have hne := firstFailure_streams_ne hfirst
      have hsome : ¬ ∀ id ∈ others, (routes.replicated id).fails = false := by
        rw [← firstFailure_streams_eq_none, hfirst]
        simp
      rw [joinStreams_of_failure hfirst, Repl.call, if_neg hus]
      simp [hne, hsome]
  | none =>
      have hnone := firstFailure_streams_eq_none.mp hfirst
      -- otherwise the votes decide, and the node itself has not voted for it
      obtain ⟨ballots, hjoin, hballots⟩ := joinStreams_of_none hfirst
      rw [hjoin, resp_call_sentDirectly hus, hballots, countP_streams hnone, hothers,
        List.countP_filter]
      have hcount : ∀ id ∈ req.closest.toList,
          (decide ((routes.replicated id).inTime = true ∧
            req.answerOf (req.localSendMail routes nodes).1 id = .error .sentDirectly) &&
              decide (id ≠ req.localPeerId)) = true ↔
            decide (id ≠ req.localPeerId ∧ req.Tells routes nodes id) = true := by
        intro id _
        by_cases hid : id = req.localPeerId
        · simp [hid]
        · simp [hid, Tells, answerOf_localSendMail hid]
      rw [List.countP_congr hcount]
      exact (and_iff_right hnone).symm

end Run

/-! ### When the mail is stored once -/

/-- Two requests with the mail end on one node: the one that was forwarded to it, and
the replicated one or, if it is the node that is asked, the one of the client. The
node stores both, or it pushes both and the answer to the first is lost. -/
def Doubled (req : MailRequest) (routes : Routes) (nodes : MailNodes) (id : NodeIdentity) : Prop :=
  req.forwardsTo nodes = some id ∧ routes.forward.arrives ∧ (nodes id).cx.hasProfile ∧
    (id = req.localPeerId ∨ id ∈ req.closest ∧ (routes.replicated id).arrives) ∧
    ((nodes id).cx.room = 0 ∧ taken req.mail 2 (nodes id).cx.profile = 2 ∨
      2 ≤ (nodes id).cx.room ∧ routes.forward ≠ .answered)

/-- The node stores the mail. -/
def Keeps (req : MailRequest) (routes : Routes) (nodes : MailNodes) (id : NodeIdentity) : Prop :=
  taken req.mail 1 (nodes id).cx.profile = 1 ∧
    if id = req.localPeerId then ¬ req.ToSelf nodes
    else (nodes id).cx.hasProfile ∧ (nodes id).cx.room < req.arrivals routes nodes id

/-- Three others answer that they sent the mail directly, and some node stored it. -/
def Outvoted (req : MailRequest) (routes : Routes) (nodes : MailNodes) : Prop :=
  ¬ req.Direct routes nodes ∧
    (∀ id ∈ req.closest, id ≠ req.localPeerId → (routes.replicated id).fails = false) ∧
    3 ≤ req.closest.toList.countP
      (fun id => id ≠ req.localPeerId ∧ req.Tells routes nodes id) ∧
    ∃ id ∈ req.closest, req.Keeps routes nodes id

end MailRequest

/-- Every replica stored the mail at most once, every subscription got it at most
once, and if it was sent directly no replica stored it. -/
structure MailOnce (closest : GroupVec NodeIdentity) (result : MailNodes × Response Unit) :
    Prop where
  stored : ∀ id ∈ closest, (result.1 id).stored ≤ 1
  pushed : ∀ id, (result.1 id).pushed ≤ 1
  direct : result.2 = .error .sentDirectly → ∀ id ∈ closest, (result.1 id).stored = 0

/-- The nodes in front of a call. -/
def idle (cxs : NodeIdentity → MailContext) : MailNodes := fun id => ⟨cxs id, []⟩

section Once

open MailRequest

variable {req : MailRequest} {routes : Routes} {nodes : MailNodes}
  {cxs : NodeIdentity → MailContext} {id : NodeIdentity}

theorem once_direct (ongoing : Bool) (hdirect : req.Direct routes (idle cxs)) :
    MailOnce req.closest (req.run routes (idle cxs) ongoing) := by
  rw [run_direct ongoing hdirect]
  constructor
  · intro id _
    rw [(localSendMail_direct hdirect id).2.1]
    exact Nat.zero_le _
  · exact fun id => (localSendMail_direct hdirect id).2.2
  · intro _ id _
    rw [(localSendMail_direct hdirect id).2.1]
    rfl

/-- A mail that was sent directly is not handled a second time. -/
theorem not_doubled (hdirect : req.Direct routes (idle cxs)) (id : NodeIdentity) :
    ¬ req.Doubled routes (idle cxs) id := by
  rintro ⟨hforwards, _, _, _, hroom⟩
  simp only [Direct, forwardsTo_eq_some.mp hforwards] at hdirect
  rcases hroom with ⟨hfull, _⟩ | ⟨_, hlost⟩
  · omega
  · exact hlost hdirect.1

theorem arrivals_eq_two : req.arrivals routes nodes id = 2 ↔
    (req.forwardsTo nodes = some id ∧ routes.forward.arrives) ∧
      id ∈ req.closest ∧ (routes.replicated id).arrives := by
  unfold arrivals
  split <;> split <;> simp [*]

theorem arrivals_le_two : req.arrivals routes nodes id ≤ 2 := by
  unfold arrivals
  split <;> split <;> simp

theorem two_le_attempts : 2 ≤ req.attempts routes nodes ↔
    req.forwardsTo nodes = some req.localPeerId ∧ routes.forward.arrives ∧
      (nodes req.localPeerId).cx.hasProfile := by
  unfold attempts
  by_cases hself : req.ToSelf nodes
  · have hnone : req.forwardsTo nodes ≠ some req.localPeerId := by
      rw [ne_eq, forwardsTo_eq_some, show (nodes req.localPeerId).cx.online = _ from hself]
      simp
    simp [hself, hnone]
  · rw [if_neg hself]
    split <;> simp [*]

/-- A node gets a mail twice into its mailbox or twice to its client where two requests
end on it. -/
theorem twice_iff (ongoing : Bool) (hmem : req.localPeerId ∈ req.closest)
    (hdirect : ¬ req.Direct routes (idle cxs)) (id : NodeIdentity) :
    (2 ≤ ((req.run routes (idle cxs) ongoing).1 id).stored ∨
      2 ≤ ((req.run routes (idle cxs) ongoing).1 id).pushed) ↔
        req.Doubled routes (idle cxs) id := by
  by_cases hid : id = req.localPeerId
  · -- the node that serves the request: once by itself, and once where it forwards to itself
    obtain ⟨hstored, hpushed⟩ := run_self ongoing hmem hdirect
    have hroom : req.forwardsTo (idle cxs) = some req.localPeerId →
        (idle cxs req.localPeerId).cx.room = 0 := by
      intro hforwards
      rw [room, forwardsTo_eq_some.mp hforwards]
    rw [hid, hstored, hpushed]
    show 2 ≤ 0 + _ ∨ 2 ≤ 0 ↔ _
    rw [Nat.zero_add, le_taken, two_le_attempts]
    constructor
    · rintro (⟨⟨hforwards, harrives, hprofile⟩, htaken⟩ | hfalse)
      · exact ⟨hforwards, harrives, hprofile, .inl rfl, .inl ⟨hroom hforwards, htaken⟩⟩
      · omega
    · rintro ⟨hforwards, harrives, hprofile, _, ⟨_, htaken⟩ | ⟨hlarge, _⟩⟩
      · exact .inl ⟨⟨hforwards, harrives, hprofile⟩, htaken⟩
      · rw [hroom hforwards] at hlarge
        omega
  rw [run_of_ne ongoing hmem hdirect hid]
  cases hprofile : (idle cxs id).cx.hasProfile with
  | false =>
      rw [receive_iterate_of_missing hprofile]
      show (2 ≤ 0 ∨ 2 ≤ 0) ↔ _
      simp [Doubled, hprofile]
  | true =>
      obtain ⟨hstored, hpushed⟩ := receive_iterate req.localPeerId req.mail hprofile
        (req.arrivals routes (idle cxs) id)
      -- another node: the forwarded request and the replicated one
      have hle : req.arrivals routes (idle cxs) id ≤ 2 := arrivals_le_two
      rw [hstored, hpushed]
      show 2 ≤ 0 + _ ∨ 2 ≤ 0 + _ ↔ _
      rw [Nat.zero_add, Nat.zero_add, le_taken]
      constructor
      · intro h
        have htwo : req.arrivals routes (idle cxs) id = 2 := by omega
        obtain ⟨⟨hforwards, harrives⟩, hrepl⟩ := arrivals_eq_two.mp htwo
        refine ⟨hforwards, harrives, hprofile, .inr hrepl, ?_⟩
        rcases h with ⟨hroom, htaken⟩ | hroom
        · exact .inl ⟨by omega, htaken⟩
        · refine .inr ⟨by omega, fun hanswered => hdirect ?_⟩
          simp only [Direct, forwardsTo_eq_some.mp hforwards]
          exact ⟨hanswered, hprofile, by omega⟩
      · rintro ⟨hforwards, harrives, _, hsecond, hroom⟩
        have htwo := arrivals_eq_two.mpr ⟨⟨hforwards, harrives⟩, hsecond.resolve_left hid⟩
        rcases hroom with ⟨hfull, htaken⟩ | ⟨hlarge, _⟩
        · exact .inl ⟨by omega, htaken⟩
        · exact .inr (by omega)

/-- Which replicas store a mail that is not sent directly by the node itself. -/
theorem keeps_iff (ongoing : Bool) (hmem : req.localPeerId ∈ req.closest)
    (hdirect : ¬ req.Direct routes (idle cxs)) (id : NodeIdentity) :
    1 ≤ ((req.run routes (idle cxs) ongoing).1 id).stored ↔ req.Keeps routes (idle cxs) id := by
  unfold Keeps
  by_cases hid : id = req.localPeerId
  · rw [if_pos hid, hid, (run_self ongoing hmem hdirect).1]
    show 1 ≤ 0 + _ ↔ _
    rw [Nat.zero_add, le_taken, and_comm]
    refine and_congr_right fun _ => ?_
    unfold attempts
    split
    · next hself => simp [hself]
    · next hself => simp [hself]
  rw [if_neg hid, run_of_ne ongoing hmem hdirect hid]
  cases hprofile : (idle cxs id).cx.hasProfile with
  | false =>
      rw [receive_iterate_of_missing hprofile]
      show 1 ≤ 0 ↔ _
      simp
  | true =>
      rw [(receive_iterate req.localPeerId req.mail hprofile _).1]
      show 1 ≤ 0 + _ ↔ _
      rw [Nat.zero_add, le_taken, and_comm]
      refine and_congr_right fun _ => ?_
      constructor
      · intro hle
        exact ⟨rfl, by omega⟩
      · rintro ⟨_, hlt⟩
        omega

/-- **A finished `SEND_MAIL`** stored the mail at most once on every replica, sent it at
most once to every subscription, and stored it nowhere if it was sent directly, exactly
when no two requests with the mail end on one node that stores both or that pushes both
after its first answer was lost, and not three others outvote a node that stored it. -/
theorem mail_once_iff (req : MailRequest) (routes : Routes) (cxs : NodeIdentity → MailContext)
    (ongoing : Bool) (hmem : req.localPeerId ∈ req.closest) :
    MailOnce req.closest (req.run routes (idle cxs) ongoing) ↔
      (∀ id, ¬ req.Doubled routes (idle cxs) id) ∧ ¬ req.Outvoted routes (idle cxs) := by
  by_cases hdirect : req.Direct routes (idle cxs)
  · exact iff_of_true (once_direct ongoing hdirect) ⟨not_doubled hdirect, fun h => h.1 hdirect⟩
  constructor
  · intro honce
    constructor
    · intro id hdoubled
      have hmember : id ∈ req.closest := by
        rcases hdoubled.2.2.2.1 with rfl | ⟨hmember, _⟩
        · exact hmem
        · exact hmember
      rcases (twice_iff ongoing hmem hdirect id).mpr hdoubled with hstored | hpushed
      · have hle := honce.stored id hmember
        omega
      · have hle := honce.pushed id
        omega
    · -- the call says "sent directly", though the node `id` keeps the mail
      rintro ⟨_, hfails, hvotes, id, hid, hkeeps⟩
      have hresp := (response_run ongoing hmem hdirect).mpr ⟨hfails, hvotes⟩
      have hstored := (keeps_iff ongoing hmem hdirect id).mpr hkeeps
      rw [honce.direct hresp id hid] at hstored
      omega
  · -- a second copy, stored or pushed, needs two requests that end on one node
    rintro ⟨hsingle, hvotes⟩
    constructor
    · intro id _
      by_contra hstored
      exact hsingle id ((twice_iff ongoing hmem hdirect id).mp (.inl (by omega)))
    · intro id
      by_contra hpushed
      exact hsingle id ((twice_iff ongoing hmem hdirect id).mp (.inr (by omega)))
    · intro hresp id hid
      by_contra hstored
      obtain ⟨hfails, htold⟩ := (response_run ongoing hmem hdirect).mp hresp
      exact hvotes ⟨hdirect, hfails, htold, id, hid,
        (keeps_iff ongoing hmem hdirect id).mp (by omega)⟩

end Once

/-! ### Two runs -/

/-- A client of the node `0`; the owner read its mail on the node `1`. -/
def asked : MailRequest where
  localPeerId := 0
  origin := 7
  mail := [1]
  closest := ⟨[0, 1, 2, 3, 4], le_rfl⟩

/-- The mailboxes are empty; on the node `1` the owner has subscribed on the path `3`,
and the task of this client is as `client` says. -/
def ownerOnOne (client : Option Client) (id : NodeIdentity) : MailContext where
  online := some (if id = 1 then .localPath 3 else .remote 1)
  profileSub := if id = 1 then some (3, ⟨[0, 0, 0, 0], rfl⟩) else none
  clients := fun path => if path = 3 then client else none
  hasProfile := true
  profile := some ⟨[], 0⟩

/-- All requests are answered at once. -/
def allAnswered : Routes := ⟨.answered, fun _ => .answered 0⟩

/-- While the owner listens, its mail goes to its subscription alone. -/
theorem listening_once : MailOnce asked.closest
    (asked.run allAnswered (idle (ownerOnOne (some ⟨false, 30⟩))) false) := by
  have hdirect : asked.Direct allAnswered (idle (ownerOnOne (some ⟨false, 30⟩))) :=
    ⟨rfl, rfl, by decide⟩
  refine (mail_once_iff asked allAnswered (ownerOnOne (some ⟨false, 30⟩)) false ?_).mpr
    ⟨not_doubled hdirect, fun h => h.1 hdirect⟩
  exact List.mem_cons_self

/-- The task of the client has ended, and its entries are still there: the node `1`
stores the mail that is forwarded to it, answers `Ok(())`, and stores the mail that is
replicated to it. -/
theorem gone_twice : ¬ MailOnce asked.closest
    (asked.run allAnswered (idle (ownerOnOne none)) false) := by
  have hmem : asked.localPeerId ∈ asked.closest := List.mem_cons_self
  have hdirect : ¬ asked.Direct allAnswered (idle (ownerOnOne none)) := by
    rintro ⟨_, _, hroom⟩
    exact absurd hroom (by decide)
  have hdoubled : asked.Doubled allAnswered (idle (ownerOnOne none)) 1 :=
    ⟨rfl, rfl, rfl, .inr ⟨List.mem_cons_of_mem _ List.mem_cons_self, rfl⟩, .inl ⟨rfl, by decide⟩⟩
  intro honce
  rcases (twice_iff false hmem hdirect 1).mpr hdoubled with hstored | hpushed
  · exact absurd (honce.stored 1 (List.mem_cons_of_mem _ List.mem_cons_self)) (not_le.mpr hstored)
  · exact absurd (honce.pushed 1) (not_le.mpr hpushed)

end OnionNetwork.Server
