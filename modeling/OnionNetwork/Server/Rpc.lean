import OnionNetwork.Chat.Loops
import OnionNetwork.Lib.CallLink

/-!
# Calls between servers

`Context::send_rpc` and `repl_rpc_low` at one end of a stream, `server_response` at the
other. The node that calls keeps a stream whose call is over in its `StreamCache` and uses it
for the next call; the node that answers puts the stream back to where it waits for a header.

A node may drop its end of a stream at any time: after an error, when a response takes longer
than two seconds, when no header comes for five, when a channel is full.
-/

namespace OnionNetwork.Server

open Chat Lib

/-- `chat_spec::Prefix`. -/
abbrev Prefix := ByteArr 2

/-- The prefix of the `n`-th name of `rpcs!`. -/
def rpc (n : Nat) : Prefix := ⟨[UInt8.ofNat (n / 2 ^ 8), UInt8.ofNat n], rfl⟩

namespace Rpcs

def createChat := rpc 0
def addMember := rpc 1
def updateMember := rpc 2
def kickMember := rpc 3
def sendMessage := rpc 4
def sendBlock := rpc 5
def fetchChatData := rpc 6
def voteBlock := rpc 8
def fetchProfileFull := rpc 11
def createProfile := rpc 12
def sendMail := rpc 13
def readMail := rpc 14
def insertToVault := rpc 15
def removeFromVault := rpc 16
def fetchVault := rpc 17

end Rpcs

/-- An endpoint of `server_router`: whether it reads a body (`Dec`, `ArrDec`) or none (`()`),
and whether it responds or is wrapped in `no_resp`. -/
structure Endpoint where
  rpcPrefix : Prefix
  hasBody : Bool
  responds : Bool
  deriving DecidableEq

/-- `server_router`. -/
def serverRouter : List Endpoint := [
  ⟨Rpcs.createChat, true, true⟩,
  ⟨Rpcs.addMember, true, true⟩,
  ⟨Rpcs.updateMember, true, true⟩,
  ⟨Rpcs.kickMember, true, true⟩,
  ⟨Rpcs.sendBlock, true, false⟩,
  ⟨Rpcs.fetchChatData, false, true⟩,
  ⟨Rpcs.sendMessage, true, true⟩,
  ⟨Rpcs.voteBlock, true, false⟩,
  ⟨Rpcs.createProfile, true, true⟩,
  ⟨Rpcs.sendMail, true, true⟩,
  ⟨Rpcs.readMail, true, true⟩,
  ⟨Rpcs.insertToVault, true, true⟩,
  ⟨Rpcs.removeFromVault, true, true⟩,
  ⟨Rpcs.fetchProfileFull, false, true⟩,
  ⟨Rpcs.fetchVault, false, true⟩]

/-- The endpoint a prefix stands for. -/
def endpoint (rpcPrefix : Prefix) : Option Endpoint :=
  serverRouter.find? fun e => e.rpcPrefix = rpcPrefix

/-- `size_of::<R>() != 0`: only blocks and votes are sent with `R = ()`. -/
def hasResult (rpcPrefix : Prefix) : Bool :=
  rpcPrefix ≠ Rpcs.sendBlock ∧ rpcPrefix ≠ Rpcs.voteBlock

/-- What `server_response` gets from the rest of the node: `RoutingTable::closest` for the key
of a topic, the buffers of the endpoints, and their handlers. -/
structure RpcContext (σ : Type) where
  closest : σ → Bytes → List NodeIdentity
  /-- `BUFFER_SIZE` of the `Dec` that reads the body. -/
  bufferSize : Prefix → Nat
  /-- What the handler makes of a body, with the bytes of its `Ok` or `Err`; nothing when the
  body does not decode or an argument is missing. -/
  call : σ → NodeIdentity → Prefix → Topic → Bytes → Option (σ × Except Bytes Bytes)

/-- `Encode for Result`. -/
def encodeResult : Except Bytes Bytes → Bytes
  | .ok r => 1 :: r
  | .error e => 0 :: e

/-- What `Handler::handle` writes; an empty response is not written. -/
def respond (id : CallId) (res : Bytes) : Bytes :=
  if res.isEmpty then []
  else (⟨id, u32ToBeBytes res.length⟩ : ResponseHeader).asBytes.toList ++ res

private theorem length_noCallId : ([0, 0, 0, 0] : Bytes).length = 4 := rfl

/-- `[0; 4]`. -/
def noCallId : CallId := ⟨[0, 0, 0, 0], length_noCallId⟩

/-- `server_response` for requests of the node `identity`. -/
def serverResponse {σ : Type} (cx : RpcContext σ) (identity : NodeIdentity) :
    CallService requestFormat σ where
  expects h := hasResult h.rpcPrefix
  admits s h :=
    (cx.closest s (Topic.decompress h.topic).asBytes).contains identity &&
      match endpoint h.rpcPrefix with
      | some e => if e.hasBody then decide (h.getLen ≤ cx.bufferSize h.rpcPrefix)
          else decide (h.getLen = 0)
      | none => false
  serve s f :=
    (cx.call s identity f.header.rpcPrefix (Topic.decompress f.header.topic) f.body).map fun r =>
      (r.1, respond noCallId
        (if (endpoint f.header.rpcPrefix).all Endpoint.responds then encodeResult r.2 else []))

/-! ## Requests and responses as frames -/

theorem u32FromBeBytes_toBeBytes {n : Nat} (hn : n < 2 ^ 32) :
    u32FromBeBytes (u32ToBeBytes n) = n := by
  simp only [u32FromBeBytes, u32ToBeBytes, List.foldl_cons, List.foldl_nil, UInt8.toNat_ofNat']
  omega

/-- A body as long as its length can say. -/
abbrev Body := { b : Bytes // b.length < 2 ^ 32 }

/-- What `send_rpc` and `repl_rpc_low` write. -/
def rpcRequest (topic : Topic) (rpcPrefix : Prefix) (body : Body) : Frame requestFormat where
  header := ⟨rpcPrefix, noCallId, Client.compress topic, u32ToBeBytes body.1.length⟩
  body := body.1
  length_body := (u32FromBeBytes_toBeBytes body.2).symm

/-- The frame of a response. -/
def responseFrame (id : CallId) (res : Body) : Frame responseFormat where
  header := ⟨id, u32ToBeBytes res.1.length⟩
  body := res.1
  length_body := (u32FromBeBytes_toBeBytes res.2).symm

theorem encodeResult_ne_nil (r : Except Bytes Bytes) : encodeResult r ≠ [] := by
  cases r <;> exact List.cons_ne_nil _ _

/-- **An endpoint responds where its callers wait for a response.** -/
theorem responds_iff (rpcPrefix : Prefix) :
    (endpoint rpcPrefix).all Endpoint.responds = hasResult rpcPrefix := by
  have htable : ∀ e ∈ serverRouter, e.responds = hasResult e.rpcPrefix := by decide
  cases hfind : endpoint rpcPrefix with
  | some e =>
      have hname : decide (e.rpcPrefix = rpcPrefix) = true :=
        List.find?_some (p := fun e : Endpoint => decide (e.rpcPrefix = rpcPrefix)) hfind
      rw [← of_decide_eq_true hname]
      exact htable e (List.mem_of_find?_eq_some hfind)
  | none =>
      have hnone := List.find?_eq_none.mp hfind
      have hblock : rpcPrefix ≠ Rpcs.sendBlock := fun h =>
        hnone ⟨Rpcs.sendBlock, true, false⟩ (by decide) (decide_eq_true h.symm)
      have hvote : rpcPrefix ≠ Rpcs.voteBlock := fun h =>
        hnone ⟨Rpcs.voteBlock, true, false⟩ (by decide) (decide_eq_true h.symm)
      exact (decide_eq_true ⟨hblock, hvote⟩).symm

/-- The responses of a node are as long as their length can say. -/
def RpcContext.ShortResponses {σ : Type} (cx : RpcContext σ) : Prop :=
  ∀ s identity rpcPrefix topic body s' r,
    cx.call s identity rpcPrefix topic body = some (s', r) → (encodeResult r).length < 2 ^ 32

theorem framed_serverResponse {σ : Type} {cx : RpcContext σ} (hshort : cx.ShortResponses)
    (identity : NodeIdentity) : (serverResponse cx identity).Framed responseFormat := by
  intro s f s' out hserve
  obtain ⟨⟨s'', r⟩, hcall, heq⟩ := Option.map_eq_some_iff.mp hserve
  obtain ⟨-, rfl⟩ := Prod.mk.inj heq
  show if hasResult f.header.rpcPrefix = true then _ else _
  rw [responds_iff]
  split
  · refine ⟨responseFrame noCallId ⟨encodeResult r, hshort _ _ _ _ _ _ _ hcall⟩, ?_⟩
    rw [respond, if_neg (by simpa using encodeResult_ne_nil r)]
    rfl
  · rfl

/-! ## The nodes and their streams -/

/-- A stream between two nodes. -/
abbrev RpcLink (σ : Type) := CallLink requestFormat responseFormat σ

/-- `STREAM_CACHE_SIZE`. -/
def streamCacheSize : Nat := 10

/-- `STREAM_POOL_STREAM_LIFETIME - Duration::from_secs(2)`, in milliseconds. -/
def reuseMs : Nat := 3000

/-- `StreamCache::recycle`, in the slot of a peer: a full slot drops the stream. -/
def recycle (slot : List (Nat × Nat)) (stream now : Nat) : List (Nat × Nat) :=
  if slot.length < streamCacheSize then slot ++ [(stream, now)] else slot

/-- `StreamCache::reuse`: streams that are not fresh are dropped, the last one is used. -/
def reuse (slot : List (Nat × Nat)) (now : Nat) : List (Nat × Nat) × Option Nat :=
  let live := slot.filter fun e => now - e.2 < reuseMs
  (live.dropLast, live.getLast?.map Prod.fst)

/-- Nodes and the streams that were opened, each from one node to another. `cache` has the
`StreamCache` of every node, by its peer. -/
structure RpcNet (σ : Type) where
  states : NodeIdentity → σ
  links : Nat → RpcLink σ
  ends : Nat → NodeIdentity × NodeIdentity
  opened : Nat
  cache : NodeIdentity × NodeIdentity → List (Nat × Nat)

/-- What can happen: a call, of whose request `written` bytes get through; the caller reads, or
drops the stream it waits on; the other node reads and serves, or drops the stream; and
anything else a node does to its state. -/
inductive RpcInput (σ : Type)
  | call (ends : NodeIdentity × NodeIdentity) (topic : Topic) (rpcPrefix : Prefix) (body : Body)
      (written now : Nat)
  | read (i n now : Nat)
  | abandon (i : Nat)
  | serve (i n : Nat)
  | hangUp (i : Nat)
  | elsewhere (node : NodeIdentity) (s : σ)

namespace RpcNet

variable {σ : Type} (cx : NodeIdentity → RpcContext σ)

/-- No stream is open. -/
def start (states : NodeIdentity → σ) : RpcNet σ where
  states
  links _ := CallLink.start (states 0)
  ends _ := (0, 0)
  opened := 0
  cache _ := []

/-- How the stream is served. -/
def service (net : RpcNet σ) (i : Nat) : CallService requestFormat σ :=
  serverResponse (cx (net.ends i).2) (net.ends i).1

/-- `Context::open_stream_with`. -/
def openStreamWith (net : RpcNet σ) (ends : NodeIdentity × NodeIdentity) (now : Nat) :
    Nat × RpcNet σ :=
  let (slot, stream) := reuse (net.cache ends) now
  match stream with
  | some i => (i, { net with cache := Function.update net.cache ends slot })
  | none =>
      (net.opened, { net with
        links := Function.update net.links net.opened (CallLink.start (net.states ends.2))
        ends := Function.update net.ends net.opened ends
        opened := net.opened + 1
        cache := Function.update net.cache ends slot })

/-- What becomes of the stream: it is recycled when its call is over. -/
def settle (net : RpcNet σ) (i : Nat) (link : RpcLink σ) (now : Nat) : RpcNet σ :=
  { net with
    links := Function.update net.links i link
    cache :=
      if link.caller = .idle then
        Function.update net.cache (net.ends i) (recycle (net.cache (net.ends i)) i now)
      else net.cache }

/-- One step. -/
def step (net : RpcNet σ) : RpcInput σ → RpcNet σ
  | .call ends topic rpcPrefix body written now =>
      let (i, net) := net.openStreamWith ends now
      net.settle i ((net.links i).call (net.service cx i) (rpcRequest topic rpcPrefix body)
        written) now
  | .read i n now =>
      if (net.links i).caller = .waiting then net.settle i ((net.links i).recv n) now else net
  | .abandon i =>
      if (net.links i).caller = .waiting then
        { net with links := Function.update net.links i (net.links i).abandon }
      else net
  | .serve i n =>
      let (s, link) := (net.links i).poll (net.service cx i) (net.states (net.ends i).2) n
      { net with
        states := Function.update net.states (net.ends i).2 s
        links := Function.update net.links i link }
  | .hangUp i => { net with links := Function.update net.links i (net.links i).hangUp }
  | .elsewhere node s => { net with states := Function.update net.states node s }

/-- The nodes as a machine. -/
def machine : Machine (RpcNet σ) (RpcInput σ) Unit where
  step net i := (net.step cx i, ())

/-! ### What holds in every run -/

/-- A stream in a cache was opened for this peer, and its last call is over. -/
structure Ok (net : RpcNet σ) : Prop where
  linked : ∀ i, CallLink.Linked (net.service cx i) (net.links i)
  cached : ∀ ends, ∀ e ∈ net.cache ends,
    e.1 < net.opened ∧ net.ends e.1 = ends ∧ (net.links e.1).caller = .idle
  distinct : ∀ ends, ((net.cache ends).map Prod.fst).Nodup
  bounded : ∀ ends, (net.cache ends).length ≤ streamCacheSize
  unopened : ∀ i, net.opened ≤ i → (net.links i).caller = .idle

variable {cx} {net : RpcNet σ}

theorem ok_start (states : NodeIdentity → σ) : Ok cx (start states) where
  linked _ := CallLink.linked_start _
  cached _ _ he := absurd he List.not_mem_nil
  distinct _ := List.nodup_nil
  bounded _ := Nat.zero_le _
  unopened _ _ := rfl

/-- What is left in a slot, and the stream that is used. -/
theorem reuse_cases (slot : List (Nat × Nat)) (now : Nat) :
    (reuse slot now = ([], none)) ∨ ∃ rest e, reuse slot now = (rest, some e.1) ∧
      (rest ++ [e]).Sublist slot ∧ now - e.2 < reuseMs := by
  generalize hlive : (slot.filter fun e => decide (now - e.2 < reuseMs)) = live
  have hreuse : reuse slot now = (live.dropLast, live.getLast?.map Prod.fst) := by
    rw [reuse, hlive]
  rcases List.eq_nil_or_concat live with rfl | ⟨rest, e, rfl⟩
  · exact .inl hreuse
  · have hsub : (rest ++ [e]).Sublist slot := by
      rw [← List.concat_eq_append, ← hlive]
      exact List.filter_sublist
    have hfresh : e ∈ slot.filter fun e => decide (now - e.2 < reuseMs) := by
      rw [hlive]
      simp
    refine .inr ⟨rest, e, ?_, hsub, of_decide_eq_true (List.mem_filter.mp hfresh).2⟩
    rw [hreuse]
    simp

/-- A stream at hand: open between these nodes, no call on it, and in no cache. -/
structure AtHand (net : RpcNet σ) (i : Nat) (ends : NodeIdentity × NodeIdentity) : Prop where
  lt : i < net.opened
  ends_eq : net.ends i = ends
  idle : (net.links i).caller = .idle
  taken : ∀ ends, ∀ e ∈ net.cache ends, e.1 ≠ i

/-- A slot that only loses streams. -/
theorem ok_slot (h : Ok cx net) {ends : NodeIdentity × NodeIdentity} {slot : List (Nat × Nat)}
    (hsub : slot.Sublist (net.cache ends)) :
    Ok cx { net with cache := Function.update net.cache ends slot } := by
  have hslot (ends' : NodeIdentity × NodeIdentity) :
      (Function.update net.cache ends slot ends').Sublist (net.cache ends') := by
    by_cases heq : ends' = ends
    · rw [heq, Function.update_self]
      exact hsub
    · rw [Function.update_of_ne heq]
  exact {
    linked := h.linked
    cached := fun ends' e he => h.cached ends' e ((hslot ends').subset he)
    distinct := fun ends' => (h.distinct ends').sublist ((hslot ends').map Prod.fst)
    bounded := fun ends' => (hslot ends').length_le.trans (h.bounded ends')
    unopened := h.unopened }

/-- A new stream. -/
theorem ok_new (h : Ok cx net) (ends : NodeIdentity × NodeIdentity) :
    Ok cx { net with
      links := Function.update net.links net.opened (CallLink.start (net.states ends.2))
      ends := Function.update net.ends net.opened ends
      opened := net.opened + 1 } where
  linked j := by
    by_cases hj : j = net.opened
    · subst hj
      show CallLink.Linked _ (Function.update net.links net.opened _ net.opened)
      rw [Function.update_self]
      exact CallLink.linked_start _
    · show CallLink.Linked (serverResponse (cx (Function.update net.ends net.opened ends j).2)
        (Function.update net.ends net.opened ends j).1) (Function.update net.links net.opened _ j)
      rw [Function.update_of_ne hj, Function.update_of_ne hj]
      exact h.linked j
  cached ends' e he := by
    obtain ⟨hlt, hends, hidle⟩ := h.cached ends' e he
    have hne : e.1 ≠ net.opened := Nat.ne_of_lt hlt
    refine ⟨Nat.lt_succ_of_lt hlt, ?_, ?_⟩
    · show Function.update net.ends net.opened ends e.1 = ends'
      rw [Function.update_of_ne hne, hends]
    · show (Function.update net.links net.opened _ e.1).caller = .idle
      rw [Function.update_of_ne hne, hidle]
  distinct := h.distinct
  bounded := h.bounded
  unopened j hj := by
    show (Function.update net.links net.opened _ j).caller = .idle
    rw [Function.update_of_ne (Nat.ne_of_gt hj)]
    exact h.unopened j (Nat.le_of_succ_le hj)

/-- **A call gets a stream of its own**, recycled or new. -/
theorem ok_open (h : Ok cx net) (ends : NodeIdentity × NodeIdentity) (now : Nat) :
    Ok cx (net.openStreamWith ends now).2 ∧
      AtHand (net.openStreamWith ends now).2 (net.openStreamWith ends now).1 ends := by
  rcases reuse_cases (net.cache ends) now with hreuse | ⟨rest, e, hreuse, hsub, -⟩
  · rw [openStreamWith, hreuse]
    refine ⟨ok_slot (ok_new h ends) (List.nil_sublist _), Nat.lt_succ_self _,
      Function.update_self .., ?_, fun ends' e he => ?_⟩
    · show (Function.update net.links net.opened _ net.opened).caller = .idle
      rw [Function.update_self]
      rfl
    · by_cases heq : ends' = ends
      · subst heq
        have he' : e ∈ Function.update net.cache ends' [] ends' := he
        rw [Function.update_self] at he'
        exact absurd he' List.not_mem_nil
      · have he' : e ∈ Function.update net.cache ends [] ends' := he
        rw [Function.update_of_ne heq] at he'
        exact Nat.ne_of_lt (h.cached ends' e he').1
  · rw [openStreamWith, hreuse]
    obtain ⟨hlt, hends, hidle⟩ := h.cached ends e (hsub.subset (by simp))
    refine ⟨ok_slot h ((List.sublist_append_left _ _).trans hsub), hlt, hends, hidle,
      fun ends' e' he' => ?_⟩
    change e' ∈ Function.update net.cache ends rest ends' at he'
    by_cases heq : ends' = ends
    · subst heq
      rw [Function.update_self] at he'
      have hnodup := (h.distinct ends').sublist (hsub.map Prod.fst)
      rw [List.map_append, List.nodup_append] at hnodup
      exact hnodup.2.2 _ (List.mem_map_of_mem he') _
        (List.mem_map_of_mem (List.mem_singleton_self e))
    · rw [Function.update_of_ne heq] at he'
      intro hsame
      rw [← (h.cached ends' e' he').2.1, hsame, hends] at heq
      exact heq rfl

/-- Which stream it is. -/
theorem openStreamWith_cases (net : RpcNet σ) (ends : NodeIdentity × NodeIdentity) (now : Nat) :
    ((net.openStreamWith ends now).1 = net.opened ∧
      (net.openStreamWith ends now).2.links net.opened = CallLink.start (net.states ends.2)) ∨
    ∃ e ∈ net.cache ends, now - e.2 < reuseMs ∧ (net.openStreamWith ends now).1 = e.1 ∧
      (net.openStreamWith ends now).2.links e.1 = net.links e.1 := by
  rcases reuse_cases (net.cache ends) now with hreuse | ⟨rest, e, hreuse, hsub, hfresh⟩
  · rw [openStreamWith, hreuse]
    exact .inl ⟨rfl, Function.update_self ..⟩
  · rw [openStreamWith, hreuse]
    exact .inr ⟨e, hsub.subset (by simp), hfresh, rfl, rfl⟩

/-- What a call does to the stream it gets. -/
theorem step_call (net : RpcNet σ) (ends : NodeIdentity × NodeIdentity) (topic : Topic)
    (rpcPrefix : Prefix) (body : Body) (written now : Nat) :
    (net.step cx (.call ends topic rpcPrefix body written now)).links
        (net.openStreamWith ends now).1 =
      ((net.openStreamWith ends now).2.links (net.openStreamWith ends now).1).call
        ((net.openStreamWith ends now).2.service cx (net.openStreamWith ends now).1)
        (rpcRequest topic rpcPrefix body) written :=
  Function.update_self ..

theorem recycle_cases (slot : List (Nat × Nat)) (stream now : Nat) :
    recycle slot stream now = slot ∨
      recycle slot stream now = slot ++ [(stream, now)] ∧ slot.length < streamCacheSize := by
  unfold recycle
  split
  · next hlt => exact .inr ⟨rfl, hlt⟩
  · exact .inl rfl

/-- What settling does to a slot. -/
theorem settle_cache (net : RpcNet σ) (i : Nat) (link : RpcLink σ) (now : Nat)
    (ends : NodeIdentity × NodeIdentity) :
    (net.settle i link now).cache ends = net.cache ends ∨
      (net.settle i link now).cache ends = net.cache ends ++ [(i, now)] ∧
        (net.cache ends).length < streamCacheSize ∧ net.ends i = ends ∧ link.caller = .idle := by
  unfold settle
  dsimp only
  split
  · next hidle =>
      by_cases heq : ends = net.ends i
      · rw [heq, Function.update_self]
        rcases recycle_cases (net.cache (net.ends i)) i now with hsame | ⟨hadd, hlt⟩
        · exact .inl hsame
        · exact .inr ⟨hadd, hlt, rfl, hidle⟩
      · rw [Function.update_of_ne heq]
        exact .inl rfl
  · exact .inl rfl

/-- A stream after a call, or after a part of a response was read. -/
theorem ok_settle (h : Ok cx net) {i : Nat} {link : RpcLink σ} (now : Nat)
    (hlinked : CallLink.Linked (net.service cx i) link) (hlt : i < net.opened)
    (htaken : ∀ ends, ∀ e ∈ net.cache ends, e.1 ≠ i) : Ok cx (net.settle i link now) where
  linked j := by
    show CallLink.Linked _ (Function.update net.links i link j)
    by_cases hj : j = i
    · subst hj
      rw [Function.update_self]
      exact hlinked
    · rw [Function.update_of_ne hj]
      exact h.linked j
  cached ends e he := by
    -- a stream that was in the cache before is not this one
    have hold (he : e ∈ net.cache ends) : e.1 < net.opened ∧ net.ends e.1 = ends ∧
        (Function.update net.links i link e.1).caller = .idle := by
      rw [Function.update_of_ne (htaken ends e he)]
      exact h.cached ends e he
    rcases settle_cache net i link now ends with hsame | ⟨hadd, -, hends, hidle⟩
    · exact hold (hsame ▸ he)
    · rw [hadd] at he
      rcases List.mem_append.mp he with he | he
      · exact hold he
      · rw [List.mem_singleton.mp he]
        refine ⟨hlt, hends, ?_⟩
        show (Function.update net.links i link i).caller = .idle
        rw [Function.update_self]
        exact hidle
  distinct ends := by
    rcases settle_cache net i link now ends with hsame | ⟨hadd, -⟩
    · rw [hsame]
      exact h.distinct ends
    · rw [hadd, List.map_append, List.nodup_append]
      refine ⟨h.distinct ends, List.nodup_singleton _, fun a ha b hb hab => ?_⟩
      obtain ⟨e, he, rfl⟩ := List.mem_map.mp ha
      exact htaken ends e he (hab.trans (List.mem_singleton.mp hb))
  bounded ends := by
    rcases settle_cache net i link now ends with hsame | ⟨hadd, hroom, -⟩
    · rw [hsame]
      exact h.bounded ends
    · rw [hadd, List.length_append]
      exact hroom
  unopened j hj := by
    show (Function.update net.links i link j).caller = .idle
    rw [Function.update_of_ne (Nat.ne_of_gt (hlt.trans_le hj))]
    exact h.unopened j hj

/-- Nothing but the stream `i` changes, and a stream in a cache stays idle. -/
theorem ok_link (h : Ok cx net) {i : Nat} {link : RpcLink σ}
    (hlinked : CallLink.Linked (net.service cx i) link)
    (hidle : (net.links i).caller = .idle → link.caller = .idle)
    (states : NodeIdentity → σ) :
    Ok cx { net with states, links := Function.update net.links i link } where
  linked j := by
    show CallLink.Linked _ (Function.update net.links i link j)
    by_cases hj : j = i
    · subst hj
      rw [Function.update_self]
      exact hlinked
    · rw [Function.update_of_ne hj]
      exact h.linked j
  cached ends e he := by
    obtain ⟨hlt, hends, hwas⟩ := h.cached ends e he
    refine ⟨hlt, hends, ?_⟩
    show (Function.update net.links i link e.1).caller = .idle
    by_cases he' : e.1 = i
    · rw [he', Function.update_self]
      exact hidle (he' ▸ hwas)
    · rwa [Function.update_of_ne he']
  distinct := h.distinct
  bounded := h.bounded
  unopened j hj := by
    have hwas := h.unopened j hj
    show (Function.update net.links i link j).caller = .idle
    by_cases hj' : j = i
    · rw [hj', Function.update_self]
      exact hidle (hj' ▸ hwas)
    · rwa [Function.update_of_ne hj']

/-- The step lemma. -/
theorem ok_step (hshort : ∀ node, (cx node).ShortResponses) (h : Ok cx net) (i : RpcInput σ) :
    Ok cx (net.step cx i) := by
  cases i with
  | call ends topic rpcPrefix body written now =>
      obtain ⟨hok, hhand⟩ := ok_open h ends now
      exact ok_settle hok now (CallLink.linked_call (hok.linked _) _ _) hhand.lt hhand.taken
  | read i n now =>
      simp only [step]
      split
      · next hwaits =>
          have htaken : ∀ ends, ∀ e ∈ net.cache ends, e.1 ≠ i := fun ends e he hi => by
            have hidle := (h.cached ends e he).2.2
            rw [hi, hwaits] at hidle
            cases hidle
          have hlt : i < net.opened := by
            refine Nat.lt_of_not_le fun hge => ?_
            rw [h.unopened i hge] at hwaits
            cases hwaits
          exact ok_settle h now (CallLink.linked_recv (h.linked i)
            (framed_serverResponse (hshort _) _) n) hlt htaken
      · exact h
  | abandon i =>
      simp only [step]
      split
      · next hwaits =>
          refine ok_link h (CallLink.linked_abandon (h.linked i)) (fun hidle => ?_) net.states
          rw [hwaits] at hidle
          cases hidle
      · exact h
  | serve i n =>
      have hcaller := CallLink.poll_caller (net.service cx i) (net.states (net.ends i).2) n
        (net.links i)
      exact ok_link h (CallLink.linked_poll (h.linked i) _ n) (fun hidle => hcaller.1.trans hidle) _
  | hangUp i => exact ok_link h (CallLink.linked_hangUp (h.linked i)) id net.states
  | elsewhere node s =>
      exact ⟨h.linked, h.cached, h.distinct, h.bounded, h.unopened⟩

/-- The run lemma. -/
theorem ok_run (hshort : ∀ node, (cx node).ShortResponses) (states : NodeIdentity → σ)
    (is : List (RpcInput σ)) : Ok cx ((machine cx).run (start states) is) :=
  Machine.always_run (m := machine cx) (P := Ok cx) (fun _ i h => ok_step hshort h i)
    (ok_start states)

end RpcNet

end OnionNetwork.Server
