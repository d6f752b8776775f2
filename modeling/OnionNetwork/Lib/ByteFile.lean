import Mathlib.Data.List.Basic
import Mathlib.Algebra.Group.Basic

/-!
# Files as sequences of bytes

Positioned reads and writes on a file that is nothing but its contents. Gaps a
write or a `setLen` opens read as zero.

* `copyDown` — the loop that moves the tail of a file to its front in chunks;
* `copyDown_setLen` — followed by a truncation it leaves the bytes copied.

A file together with the one position that reading, writing and seeking share.
Truncating leaves the position where it is, so it can stand behind the end of
the file; the next write then fills the gap with zeros.

* `writeAll_writeAll` — two writes are one write of both;
* `writeAll_end` — at the end of the file a write appends;
* `writeAll_gap` — behind the end of an empty file it appends to zeros.
-/

namespace OnionNetwork.Lib.ByteFile

variable {β : Type*}

/-- The position `n` bytes before the end; `none` when that is before the start. -/
def seekEnd (file : List β) (n : Nat) : Option Nat :=
  if n ≤ file.length then some (file.length - n) else none

/-- Read exactly `n` bytes at an offset; `none` at the end of the file. -/
def readExactAt (file : List β) (n offset : Nat) : Option (List β) :=
  if offset + n ≤ file.length then some ((file.drop offset).take n) else none

/-- Write at an offset, growing the file as needed. -/
def writeAllAt [Zero β] (file data : List β) (offset : Nat) : List β :=
  file.take offset ++ List.replicate (offset - file.length) 0 ++ data ++
    file.drop (offset + data.length)

/-- Truncate or extend to a length. -/
def setLen [Zero β] (file : List β) (n : Nat) : List β :=
  file.take n ++ List.replicate (n - file.length) 0

/-- Copy `toCopy` bytes from `source + copied` to `copied`, a chunk at a time;
the file and the number of bytes copied in all. -/
def copyDown [Zero β] (chunk source : Nat) :
    Nat → List β → Nat → Nat → Option (List β × Nat)
  | 0, file, _, copied => some (file, copied)
  | fuel + 1, file, toCopy, copied =>
      if 0 < toCopy then
        let red := min chunk toCopy
        match readExactAt file red (source + copied) with
        | none => none
        | some buffer =>
            copyDown chunk source fuel (writeAllAt file buffer copied) (toCopy - red)
              (copied + red)
      else some (file, copied)

theorem seekEnd_append (front back : List β) :
    seekEnd (front ++ back) back.length = some front.length := by
  simp [seekEnd]

theorem readExactAt_append (front mid back : List β) :
    readExactAt (front ++ (mid ++ back)) mid.length front.length = some mid := by
  have hin : front.length + mid.length ≤ (front ++ (mid ++ back)).length := by
    simp only [List.length_append]
    omega
  rw [readExactAt, if_pos hin, List.drop_left, List.take_left]

theorem setLen_of_le [Zero β] {file : List β} {n : Nat} (h : n ≤ file.length) :
    setLen file n = file.take n := by
  simp [setLen, Nat.sub_eq_zero_of_le h]

theorem writeAllAt_of_le [Zero β] {file : List β} (data : List β) {offset : Nat}
    (h : offset ≤ file.length) :
    writeAllAt file data offset = file.take offset ++ data ++ file.drop (offset + data.length) := by
  simp [writeAllAt, Nat.sub_eq_zero_of_le h]

/-- Writing over the last bytes of a file and truncating behind what was written. -/
theorem setLen_writeAllAt [Zero β] {file : List β} (data : List β) {offset : Nat}
    (h : offset ≤ file.length) :
    setLen (writeAllAt file data offset) (offset + data.length) = file.take offset ++ data := by
  have hlen : (file.take offset ++ data).length = offset + data.length := by
    rw [List.length_append, List.length_take, Nat.min_eq_left h]
  rw [writeAllAt_of_le data h, setLen_of_le (by rw [List.length_append, hlen]; omega), ← hlen,
    List.take_left]

/-- **The loop invariant.** With the first `copied` bytes in place and
everything from `source + copied` on still as it was, the loop finishes with
all of them in place. -/
theorem copyDown_eq [Zero β] {chunk : Nat} (hchunk : 0 < chunk) (source : Nat) (orig : List β)
    {fuel : Nat} (toCopy copied : Nat) {file : List β} (hfuel : toCopy ≤ fuel)
    (hlen : file.length = orig.length) (hall : source + copied + toCopy ≤ orig.length)
    (hdone : file.take copied = (orig.drop source).take copied)
    (hrest : file.drop (source + copied) = orig.drop (source + copied)) :
    ∃ file', copyDown chunk source fuel file toCopy copied = some (file', copied + toCopy) ∧
      file'.length = orig.length ∧
      file'.take (copied + toCopy) = (orig.drop source).take (copied + toCopy) := by
  induction fuel generalizing file toCopy copied with
  | zero =>
      obtain rfl : toCopy = 0 := Nat.le_zero.mp hfuel
      exact ⟨file, rfl, hlen, hdone⟩
  | succ fuel ih =>
      unfold copyDown
      by_cases hpos : 0 < toCopy
      · rw [if_pos hpos]
        set red := min chunk toCopy with hred
        have hred_pos : 0 < red := by omega
        have hred_le : red ≤ toCopy := Nat.min_le_right _ _
        -- the chunk read is still the original one: writes stay below the source
        have hread : readExactAt file red (source + copied) =
            some ((orig.drop (source + copied)).take red) := by
          rw [readExactAt, if_pos (by omega), hrest]
        set buffer := (orig.drop (source + copied)).take red with hbuffer
        have hbuflen : buffer.length = red := by
          rw [hbuffer, List.length_take, List.length_drop]
          omega
        have hin : copied ≤ file.length := by omega
        have hwrite := writeAllAt_of_le buffer hin
        have hlen' : (writeAllAt file buffer copied).length = orig.length := by
          rw [hwrite]
          simp only [List.length_append, List.length_take, List.length_drop, hbuflen]
          omega
        have hdone' : (writeAllAt file buffer copied).take (copied + red) =
            (orig.drop source).take (copied + red) := by
          have htake : (file.take copied).length = copied := by
            rw [List.length_take]; omega
          have hfront : (file.take copied ++ buffer).length = copied + red := by
            rw [List.length_append, htake, hbuflen]
          rw [hwrite, ← hfront, List.take_left, hfront, hdone, hbuffer, List.take_add,
            List.drop_drop]
        have hrest' : (writeAllAt file buffer copied).drop (source + (copied + red)) =
            orig.drop (source + (copied + red)) := by
          have hfront : (file.take copied ++ buffer).length = copied + red := by
            rw [List.length_append, List.length_take, hbuflen]; omega
          have hsplit : source + (copied + red) = (file.take copied ++ buffer).length + source := by
            omega
          rw [hwrite, hsplit, List.drop_length_add_append, List.drop_drop, hfront, hbuflen]
          have hdrop := congrArg (List.drop red) hrest
          rw [List.drop_drop, List.drop_drop] at hdrop
          have hcomm : copied + red + source = source + copied + red := by omega
          rw [hcomm]
          exact hdrop
        obtain ⟨file', hrun, hres⟩ :=
          ih (toCopy - red) (copied + red) (by omega) hlen' (by omega) hdone' hrest'
        have hsum : copied + red + (toCopy - red) = copied + toCopy := by omega
        rw [hsum] at hrun hres
        exact ⟨file', by simp only [hread, hrun], hres⟩
      · rw [if_neg hpos]
        obtain rfl : toCopy = 0 := by omega
        exact ⟨file, rfl, hlen, hdone⟩

/-- Copying `toCopy` bytes from `source` on to the front and truncating there. -/
theorem copyDown_setLen [Zero β] {chunk : Nat} (hchunk : 0 < chunk) {source toCopy : Nat}
    {file : List β} (h : source + toCopy ≤ file.length) {fuel : Nat} (hfuel : toCopy ≤ fuel) :
    ∃ file', copyDown chunk source fuel file toCopy 0 = some (file', toCopy) ∧
      setLen file' toCopy = (file.drop source).take toCopy := by
  obtain ⟨file', hrun, hlen, htake⟩ :=
    copyDown_eq hchunk source file toCopy 0 hfuel rfl (by omega) (by simp) (by simp)
  rw [Nat.zero_add] at hrun htake
  refine ⟨file', hrun, ?_⟩
  rw [setLen_of_le (by omega), htake]

end OnionNetwork.Lib.ByteFile

/-! ## An open file -/

namespace OnionNetwork.Lib

/-- The contents and the position. -/
structure FileCursor (β : Type*) where
  file : List β
  pos : Nat
  deriving DecidableEq

namespace FileCursor

variable {β : Type*} [Zero β]

omit [Zero β] in
/-- `seek(SeekFrom::Start(n))`. -/
def seekStart (c : FileCursor β) (n : Nat) : FileCursor β := { c with pos := n }

omit [Zero β] in
/-- `seek(SeekFrom::End(0))`. -/
def seekEnd (c : FileCursor β) : FileCursor β := { c with pos := c.file.length }

omit [Zero β] in
/-- `read_to_end`. -/
def readToEnd (c : FileCursor β) : FileCursor β × List β :=
  ({ c with pos := max c.pos c.file.length }, c.file.drop c.pos)

/-- `write_all`. -/
def writeAll (c : FileCursor β) (data : List β) : FileCursor β :=
  { file := ByteFile.writeAllAt c.file data c.pos, pos := c.pos + data.length }

/-- `set_len`. -/
def setLen (c : FileCursor β) (n : Nat) : FileCursor β :=
  { c with file := ByteFile.setLen c.file n }

/-- What a write leaves in front of the data has the length of the position. -/
theorem length_front (file : List β) (offset : Nat) :
    (file.take offset ++ List.replicate (offset - file.length) 0).length = offset := by
  simp only [List.length_append, List.length_take, List.length_replicate]
  omega

/-- Two writes in a row are one. -/
theorem writeAll_writeAll (c : FileCursor β) (a b : List β) :
    (c.writeAll a).writeAll b = c.writeAll (a ++ b) := by
  obtain ⟨file, pos⟩ := c
  set front := file.take pos ++ List.replicate (pos - file.length) 0 with hfront
  have hlen : (front ++ a).length = pos + a.length := by
    rw [List.length_append, hfront, length_front]
  have hin : pos + a.length ≤ (front ++ a ++ file.drop (pos + a.length)).length := by
    rw [List.length_append, hlen]
    omega
  have hfile : ByteFile.writeAllAt (ByteFile.writeAllAt file a pos) b (pos + a.length) =
      ByteFile.writeAllAt file (a ++ b) pos := by
    have hinner : ByteFile.writeAllAt file a pos = front ++ a ++ file.drop (pos + a.length) := rfl
    have hboth : ByteFile.writeAllAt file (a ++ b) pos =
        front ++ (a ++ b) ++ file.drop (pos + (a ++ b).length) := rfl
    rw [hinner, ByteFile.writeAllAt_of_le b hin, hboth, ← hlen, List.take_left,
      List.drop_length_add_append, List.drop_drop, hlen, List.length_append, Nat.add_assoc,
      List.append_assoc front a b]
  simp only [writeAll, hfile, List.length_append, Nat.add_assoc]

/-- At the end of the file a write appends. -/
theorem writeAll_end {c : FileCursor β} (h : c.pos = c.file.length) (data : List β) :
    c.writeAll data = ⟨c.file ++ data, (c.file ++ data).length⟩ := by
  obtain ⟨file, pos⟩ := c
  obtain rfl : pos = file.length := h
  simp [writeAll, ByteFile.writeAllAt]

/-- Behind the end of an empty file a write starts with zeros. -/
theorem writeAll_gap {c : FileCursor β} (h : c.file = []) (data : List β) :
    c.writeAll data = ⟨List.replicate c.pos 0 ++ data, c.pos + data.length⟩ := by
  simp [writeAll, ByteFile.writeAllAt, h]

/-- A write leaves what is in front of the position. -/
theorem take_writeAll {c : FileCursor β} {n : Nat} (hn : n ≤ c.pos) (hlen : n ≤ c.file.length)
    (data : List β) : (c.writeAll data).file.take n = c.file.take n := by
  have hpre : n ≤ (c.file.take c.pos).length := by
    rw [List.length_take]
    omega
  simp only [writeAll, ByteFile.writeAllAt, List.append_assoc]
  rw [List.take_append_of_le_length hpre, List.take_take, Nat.min_eq_left hn]

end FileCursor

end OnionNetwork.Lib
