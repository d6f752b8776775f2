import OnionNetwork.Server.Log
import Mathlib.Data.UInt

/-!
# Paging through the history

`fetch_messages` serves the blocks file from its end, a page of fixed length at a time. A
cursor is a position of the file plus the bytes that were discarded from its front; the page
holds the bytes in front of it, right-aligned, and the cursor that is returned lies in front
of the whole messages of the page. The client reads a page up to the first empty message
(`unpackPage`), which the zeros in front of the file are to it.
-/

namespace OnionNetwork.Server

open Chat Lib

/-- `MAX_MESSAGE_FETCH_SIZE`. -/
def maxMessageFetchSize : Nat := 1024 * 8

/-- `chat_spec::Cursor`. -/
abbrev Cursor := UInt64

/-- `Cursor::MAX`. -/
def Cursor.max : Cursor := UInt64.ofNat (2 ^ 64 - 1)

/-- What stops a handler, and an addition over 64 bits. -/
inductive CursorFault
  | stops (fault : Fault)
  | overflow
  deriving DecidableEq

/-- The sum of two `u64`. -/
def checkedAdd (a b : Nat) : Except CursorFault Nat :=
  if a + b < 2 ^ 64 then .ok (a + b) else .error .overflow

/-- The length of a file in its metadata, a `u64`. -/
def metadataLen (blocks : Bytes) : Nat := blocks.length % 2 ^ 64

namespace Handle

/-- The position a cursor stands for; the greatest one is the end of the file. -/
def resolve (h : Handle) (cursor : Cursor) : Except CursorFault Nat :=
  if cursor = Cursor.max then checkedAdd (metadataLen h.blocks) h.discardedBytes
  else .ok cursor.toNat

/-- The body of `fetch_messages`: the page of `size` bytes in front of a position. -/
def fetchPage (h : Handle) (size cursor : Nat) : Except CursorFault (Bytes × Cursor) :=
  match checkedSub cursor h.discardedBytes with
  | .error e => .error (.stops e)
  | .ok offset =>
      -- `saturating_sub`
      let finalOffset := offset - size
      let red := offset - finalOffset
      match ByteFile.readExactAt h.blocks red finalOffset with
      | none => .error (.stops (.chat (.io .unexpectedEof)))
      | some bytes =>
          let buf := List.replicate (size - red) 0 ++ bytes
          match checkedSub cursor ((unpackMessages bytes).map fun msg => msg.length + 2).sum with
          | .error e => .error (.stops e)
          | .ok cursor => .ok (buf, if red = 0 then Cursor.max else UInt64.ofNat cursor)

/-- `Handle::fetch_messages`. -/
def fetchMessages (h : Handle) (cursor : Cursor) : Except CursorFault (Bytes × Cursor) :=
  h.resolve cursor >>= h.fetchPage maxMessageFetchSize

end Handle

/-- What the client makes of a page: `unpack_messages_ref` up to the first empty message. -/
def unpackPage (page : Bytes) : List Bytes :=
  (unpackMessages page).takeWhile fun msg => !msg.isEmpty

/-- The client's pages in a row, until a call returns the greatest cursor; `none` if it has not
by then. -/
def Handle.fetchPages (h : Handle) : Nat → Cursor → Except CursorFault (Option (List Bytes))
  | 0, _ => .ok none
  | fuel + 1, cursor => do
      let (page, next) ← h.fetchMessages cursor
      if next = Cursor.max then .ok (some (unpackPage page))
      else
        let rest ← h.fetchPages fuel next
        .ok (rest.map fun msgs => unpackPage page ++ msgs)

/-! ## One page -/

theorem Cursor.toNat_max : Cursor.max.toNat = 2 ^ 64 - 1 := by decide

/-- A cursor below the greatest stands for itself. -/
theorem resolve_of_lt (h : Handle) {pos : Nat} (hpos : pos < 2 ^ 64 - 1) :
    UInt64.ofNat pos ≠ Cursor.max ∧ h.resolve (UInt64.ofNat pos) = .ok pos := by
  have hval : (UInt64.ofNat pos).toNat = pos := by
    rw [UInt64.toNat_ofNat', Nat.mod_eq_of_lt (by omega)]
  have hne : UInt64.ofNat pos ≠ Cursor.max := by
    intro heq
    have hnat := congrArg UInt64.toNat heq
    rw [hval, Cursor.toNat_max] at hnat
    omega
  refine ⟨hne, ?_⟩
  rw [Handle.resolve, if_neg hne, hval]

/-- The greatest cursor stands for the end of the file. -/
theorem resolve_max {h : Handle} (hfits : h.blocks.length + h.discardedBytes < 2 ^ 64) :
    h.resolve Cursor.max = .ok (h.discardedBytes + h.blocks.length) := by
  have hlen : metadataLen h.blocks = h.blocks.length := Nat.mod_eq_of_lt (by omega)
  rw [Handle.resolve, if_pos rfl, checkedAdd, hlen, if_pos hfits, Nat.add_comm]

theorem fetchMessages_of_resolve {h : Handle} {cursor : Cursor} {pos : Nat}
    (hcursor : h.resolve cursor = .ok pos) :
    h.fetchMessages cursor = h.fetchPage maxMessageFetchSize pos := by
  rw [Handle.fetchMessages, hcursor]
  rfl

/-- A position among the discarded bytes is none of the file. -/
theorem fetchPage_of_lt {h : Handle} (size : Nat) {pos : Nat} (hpos : pos < h.discardedBytes) :
    h.fetchPage size pos = .error (.stops .underflow) := by
  rw [Handle.fetchPage, checkedSub, if_neg (Nat.not_le.mpr hpos)]

/-- The lengths a reader counts are those of the frames. -/
theorem sum_lengths (msgs : List Bytes) :
    (msgs.map fun msg => msg.length + 2).sum = (logCode.frames msgs).length := by
  induction msgs with
  | nil => rfl
  | cons msg msgs ih =>
      rw [List.map_cons, List.sum_cons, ih, LenCode.frames_cons, List.length_append,
        LenCode.length_frame, logCode_width]

/-- **What a call does**, at any position of the file. -/
theorem fetchPage_of_le {h : Handle} (size : Nat) {offset : Nat} (hin : offset ≤ h.blocks.length) :
    let red := min offset size
    let bytes := (h.blocks.drop (offset - red)).take red
    h.fetchPage size (h.discardedBytes + offset) =
      .ok (List.replicate (size - red) 0 ++ bytes,
        if red = 0 then Cursor.max
        else UInt64.ofNat (h.discardedBytes + offset -
          (logCode.frames (unpackMessages bytes)).length)) := by
  intro red bytes
  have hfinal : offset - size = offset - red := by omega
  have hred : offset - (offset - red) = red := by omega
  have hread : ByteFile.readExactAt h.blocks red (offset - red) = some bytes :=
    if_pos (by omega)
  have hbytes : bytes.length ≤ red := List.length_take_le _ _
  have hframes : (logCode.frames (unpackMessages bytes)).length ≤ bytes.length := by
    rw [unpackMessages_eq]
    exact logCode.length_frames_unframe_le bytes
  have hfits : (logCode.frames (unpackMessages bytes)).length ≤ h.discardedBytes + offset := by
    omega
  unfold Handle.fetchPage
  rw [checkedSub_of_le (Nat.le_add_right _ _), Nat.add_sub_cancel_left]
  simp only [hfinal, hred, hread, sum_lengths, checkedSub_of_le hfits]

/-! ## Pages of frames -/

/-- Zeros read as empty messages, and so as none to the client. -/
theorem takeWhile_unframe_zeros (n : Nat) :
    (logCode.unframe (List.replicate n 0)).takeWhile (fun msg => !msg.isEmpty) = [] := by
  by_cases hn : n < 2
  · have hnone : takeBack 2 (List.replicate n (0 : UInt8)) = none := by
      rw [takeBack, if_neg (by rw [List.length_replicate]; omega)]
    rw [LenCode.unframe_eq, logCode_width, hnone]
    rfl
  · have hframe : List.replicate n (0 : UInt8) =
        List.replicate (n - 2) 0 ++ logCode.frame [] := by
      rw [show logCode.frame [] = List.replicate 2 (0 : UInt8) from rfl,
        List.replicate_append_replicate]
      congr 1
      omega
    rw [hframe, logCode.unframe_append_frame _ (by decide)]
    rfl

/-- The client reads the nonempty messages behind anything that yields it none. -/
theorem unpackPage_append {front : Bytes} {msgs : List Bytes} (hmsgs : logCode.Bounded msgs)
    (hne : ∀ m ∈ msgs, m ≠ [])
    (hfront : (logCode.unframe front).takeWhile (fun msg => !msg.isEmpty) = []) :
    unpackPage (front ++ logCode.frames msgs) = msgs.reverse := by
  rw [unpackPage, unpackMessages_eq, logCode.unframe_append_frames _ hmsgs,
    List.takeWhile_append_of_pos, hfront, List.append_nil]
  intro m hm
  simp [hne m (List.mem_reverse.mp hm)]

/-- A page that does not reach back to the start of its frames is cut inside one of them. -/
theorem tail_of_whole {ps older newer : List Bytes} {tail : Bytes} (hps : logCode.Bounded ps)
    (hsplit : ps = older ++ newer) (hdrop : logCode.frames ps = tail ++ logCode.frames newer)
    (htail : logCode.unframe tail = []) : older = [] ∧ tail = [] := by
  have hframes : tail = logCode.frames older := by
    rw [hsplit, LenCode.frames_append] at hdrop
    exact (List.append_cancel_right hdrop).symm
  have hbound : logCode.Bounded older :=
    hps.subset fun m hm => hsplit ▸ List.mem_append_left _ hm
  rw [hframes, logCode.unframe_frames hbound, List.reverse_eq_nil_iff] at htail
  exact ⟨htail, by rw [hframes, htail]; rfl⟩

/-- **One page of a log.** It yields the newest messages in front of the position, all that
are in it as a whole, and the next position lies in front of them. -/
theorem fetchPage_frames {h : Handle} {size : Nat} {msgs rest : List Bytes}
    (hblocks : h.blocks = logCode.frames (msgs ++ rest)) (hmsgs : logCode.Bounded msgs)
    (hne : ∀ m ∈ msgs, m ≠ []) (hsize : ∀ m ∈ msgs, m.length + 2 ≤ size) :
    ∃ older newer page, msgs = older ++ newer ∧ (msgs ≠ [] → newer ≠ []) ∧
      unpackPage page = newer.reverse ∧
      h.fetchPage size (h.discardedBytes + (logCode.frames msgs).length) =
        .ok (page, if msgs = [] then Cursor.max
          else UInt64.ofNat (h.discardedBytes + (logCode.frames older).length)) := by
  set offset := (logCode.frames msgs).length with hoffset
  have hin : offset ≤ h.blocks.length := by
    rw [hblocks, LenCode.frames_append, List.length_append]
    exact Nat.le_add_right _ _
  have hpage := fetchPage_of_le size hin
  dsimp only at hpage
  -- what is read: a page, or all there is in front of the position
  set red := min offset size with hred
  have hbytes : (h.blocks.drop (offset - red)).take red =
      (logCode.frames msgs).drop (offset - red) := by
    rw [hblocks, LenCode.frames_append, List.drop_append_of_le_length (Nat.sub_le _ _)]
    apply List.take_left'
    rw [List.length_drop]
    omega
  have hnewest : msgs ≠ [] → ∃ front m, msgs = front ++ [m] ∧ m.length + 2 ≤ offset ∧
      m.length + 2 ≤ size := by
    intro hsome
    obtain ⟨front, m, hm⟩ := (List.eq_nil_or_concat' msgs).resolve_left hsome
    refine ⟨front, m, hm, ?_, hsize m ?_⟩
    · rw [hoffset, hm, length_frames_concat]
      omega
    · rw [hm]
      exact List.mem_append_right _ List.mem_cons_self
  -- the page begins within a frame; its tail cannot be read and is passed over
  obtain ⟨older, newer, tail, hsplit, hdrop, htail, hlen, hlast⟩ :=
    logCode.drop_frames hmsgs (Nat.sub_le offset red)
  have hnewer : logCode.Bounded newer :=
    hmsgs.subset fun m hm => hsplit ▸ List.mem_append_right _ hm
  have hsum : offset = (logCode.frames older).length + (logCode.frames newer).length := by
    rw [hoffset, hsplit, LenCode.frames_append, List.length_append]
  have hread : unpackMessages (tail ++ logCode.frames newer) = newer.reverse := by
    rw [unpackMessages_eq, logCode.unframe_append_frames _ hnewer, htail, List.append_nil]
  rw [hbytes, hdrop, hread, LenCode.length_frames_reverse] at hpage
  refine ⟨older, newer, List.replicate (size - red) 0 ++ (tail ++ logCode.frames newer), hsplit, ?_,
    ?_, ?_⟩
  · -- the page holds the newest frame
    intro hsome hnil
    obtain ⟨front, m, hm, hframe, hfits⟩ := hnewest hsome
    rw [hnil, List.append_nil] at hsplit
    rw [hnil, LenCode.frames_nil, List.length_nil] at hsum
    have hshort := hlast m (by rw [← hsplit, hm, List.getLast?_concat]; rfl)
    rw [LenCode.length_frame, logCode_width] at hshort
    omega
  · rw [← List.append_assoc]
    apply unpackPage_append hnewer fun m hm => hne m (hsplit ▸ List.mem_append_right _ hm)
    rcases Nat.le_total offset size with hall | hcut
    · -- the page reaches to the start of the file: the zeros in front of it are no frames
      have hzero : offset - red = 0 := by omega
      rw [hzero, List.drop_zero] at hdrop
      obtain ⟨-, rfl⟩ := tail_of_whole hmsgs hsplit hdrop htail
      rw [List.append_nil]
      exact takeWhile_unframe_zeros _
    · rw [show size - red = 0 by omega, List.replicate_zero, List.nil_append, htail]
      rfl
  · rw [hpage]
    by_cases hnil : msgs = []
    · rw [if_pos hnil, if_pos]
      rw [hred, hoffset, hnil]
      exact Nat.zero_min _
    · obtain ⟨front, m, hm, hframe, hfits⟩ := hnewest hnil
      rw [if_neg hnil, if_neg (by omega), hsum]
      congr 4
      omega

end OnionNetwork.Server
