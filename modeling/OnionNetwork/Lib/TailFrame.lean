import Mathlib.Data.List.Basic
import Mathlib.Data.List.Induction

/-!
# Frames read from the end

A log of frames in which every payload is *followed* by its length is parsed
backwards: the last bytes say how far back the last payload starts, and what is
left is again such a log. The framing is given by a `LenCode`, a fixed-width
encoding of the lengths below a bound.

* `unframe` reads the payloads, newest first, and stops where no frame fits;
* `unframe_frames` and `unframe_spec` — it inverts `frames`, and on any input
  it finds the frames behind some unreadable rest;
* `Framed` — the inputs that are frames throughout, closed under `++`, and cut
  by a framed suffix into framed parts (`Framed.prefix_of_append`).
-/

namespace OnionNetwork.Lib

variable {β : Type*}

/-- A fixed-width encoding of the lengths below `bound`. -/
structure LenCode (β : Type*) where
  width : Nat
  bound : Nat
  enc : Nat → List β
  dec : List β → Nat
  width_pos : 0 < width
  length_enc : ∀ n, (enc n).length = width
  dec_enc : ∀ n < bound, dec (enc n) = n
  dec_lt : ∀ l, dec l < bound
  enc_dec : ∀ l, l.length = width → enc (dec l) = l

/-- Split off the last `n` elements; `none` when there are fewer. -/
def takeBack (n : Nat) (buf : List β) : Option (List β × List β) :=
  if n ≤ buf.length then some (buf.take (buf.length - n), buf.drop (buf.length - n)) else none

theorem takeBack_append (xs ys : List β) : takeBack ys.length (xs ++ ys) = some (xs, ys) := by
  simp [takeBack]

theorem takeBack_eq_some {n : Nat} {buf xs ys : List β} (h : takeBack n buf = some (xs, ys)) :
    buf = xs ++ ys ∧ ys.length = n := by
  unfold takeBack at h
  split at h
  · rename_i hn
    obtain ⟨rfl, rfl⟩ := Prod.mk.inj (Option.some.inj h)
    exact ⟨(List.take_append_drop _ _).symm, by rw [List.length_drop]; omega⟩
  · cases h

theorem takeBack_eq_none {n : Nat} {buf : List β} (h : takeBack n buf = none) :
    buf.length < n := by
  unfold takeBack at h
  split at h
  · cases h
  · omega

namespace LenCode

variable (c : LenCode β)

/-- A payload followed by its length. -/
def frame (p : List β) : List β := p ++ c.enc p.length

/-- A log of payloads, oldest first. -/
def frames (ps : List (List β)) : List β := (ps.map c.frame).flatten

/-- Read at most `fuel` payloads from the end. -/
def unframeFuel : Nat → List β → List (List β)
  | 0, _ => []
  | fuel + 1, buf =>
      match takeBack c.width buf with
      | none => []
      | some (front, len) =>
          match takeBack (c.dec len) front with
          | none => []
          | some (front, p) => p :: unframeFuel fuel front

/-- Read the payloads from the end, newest first. -/
def unframe (buf : List β) : List (List β) := c.unframeFuel buf.length buf

/-- Every payload is short enough for its length to be encoded. -/
def Bounded (ps : List (List β)) : Prop := ∀ p ∈ ps, p.length < c.bound

/-- The input is frames throughout. -/
def Framed (buf : List β) : Prop := ∃ ps, c.Bounded ps ∧ buf = c.frames ps

@[simp] theorem length_frame (p : List β) : (c.frame p).length = p.length + c.width := by
  rw [frame, List.length_append, c.length_enc]

@[simp] theorem frames_nil : c.frames [] = [] := rfl

@[simp] theorem frames_cons (p : List β) (ps : List (List β)) :
    c.frames (p :: ps) = c.frame p ++ c.frames ps := by
  simp [frames]

@[simp] theorem frames_append (ps qs : List (List β)) :
    c.frames (ps ++ qs) = c.frames ps ++ c.frames qs := by
  simp [frames]

theorem frames_singleton (p : List β) : c.frames [p] = c.frame p := by
  simp

theorem Bounded.append {c : LenCode β} {ps qs : List (List β)} (hp : c.Bounded ps)
    (hq : c.Bounded qs) : c.Bounded (ps ++ qs) := by
  intro p hmem
  rcases List.mem_append.mp hmem with h | h
  · exact hp p h
  · exact hq p h

theorem Bounded.subset {c : LenCode β} {ps qs : List (List β)} (hq : c.Bounded qs)
    (h : ∀ p ∈ ps, p ∈ qs) : c.Bounded ps :=
  fun p hp => hq p (h p hp)

@[simp] theorem unframeFuel_nil (fuel : Nat) : c.unframeFuel fuel [] = [] := by
  cases fuel with
  | zero => rfl
  | succ fuel =>
      have hnone : takeBack c.width ([] : List β) = none :=
        if_neg (Nat.not_le.mpr c.width_pos)
      rw [unframeFuel, hnone]

/-- Reading one payload leaves a strictly shorter input. -/
theorem length_of_takeBack {c : LenCode β} {buf front len rest p : List β}
    (hlen : takeBack c.width buf = some (front, len))
    (hp : takeBack (c.dec len) front = some (rest, p)) : rest.length < buf.length := by
  obtain ⟨rfl, hw⟩ := takeBack_eq_some hlen
  obtain ⟨rfl, -⟩ := takeBack_eq_some hp
  have := c.width_pos
  simp only [List.length_append]
  omega

/-- Any two amounts of fuel that cover the input read the same payloads. -/
theorem unframeFuel_congr {fuel fuel' : Nat} {buf : List β} (h : buf.length ≤ fuel)
    (h' : buf.length ≤ fuel') : c.unframeFuel fuel buf = c.unframeFuel fuel' buf := by
  induction fuel generalizing fuel' buf with
  | zero =>
      rw [List.length_eq_zero_iff.mp (Nat.le_zero.mp h)]
      simp
  | succ fuel ih =>
      cases fuel' with
      | zero =>
          rw [List.length_eq_zero_iff.mp (Nat.le_zero.mp h')]
          simp
      | succ fuel' =>
          rw [unframeFuel, unframeFuel]
          cases hlen : takeBack c.width buf with
          | none => rfl
          | some x =>
              obtain ⟨front, len⟩ := x
              cases hp : takeBack (c.dec len) front with
              | none => simp only [hp]
              | some y =>
                  obtain ⟨rest, p⟩ := y
                  have hshort := length_of_takeBack hlen hp
                  have hle : rest.length ≤ fuel := by omega
                  have hle' : rest.length ≤ fuel' := by omega
                  simp only [hp, ih hle hle']

@[simp] theorem unframe_nil : c.unframe [] = [] := rfl

/-- The defining equation of the reader, without fuel. -/
theorem unframe_eq (buf : List β) :
    c.unframe buf =
      match takeBack c.width buf with
      | none => []
      | some (front, len) =>
          match takeBack (c.dec len) front with
          | none => []
          | some (rest, p) => p :: c.unframe rest := by
  rw [unframe, c.unframeFuel_congr (Nat.le_refl _) (Nat.le_succ buf.length), unframeFuel]
  cases hlen : takeBack c.width buf with
  | none => rfl
  | some x =>
      obtain ⟨front, len⟩ := x
      cases hp : takeBack (c.dec len) front with
      | none => simp only [hp]
      | some y =>
          obtain ⟨rest, p⟩ := y
          have hshort := length_of_takeBack hlen hp
          simp only [hp]
          rw [unframe, c.unframeFuel_congr (Nat.le_of_lt hshort) (Nat.le_refl _)]

/-- Reading inverts appending one frame, whatever precedes it. -/
theorem unframe_append_frame (buf : List β) {p : List β} (hp : p.length < c.bound) :
    c.unframe (buf ++ c.frame p) = p :: c.unframe buf := by
  have hlen := takeBack_append (buf ++ p) (c.enc p.length)
  rw [c.length_enc] at hlen
  rw [unframe_eq, frame, ← List.append_assoc, hlen]
  simp only [c.dec_enc p.length hp, takeBack_append]

/-- Reading inverts appending a log, whatever precedes it. -/
theorem unframe_append_frames (buf : List β) {ps : List (List β)} (h : c.Bounded ps) :
    c.unframe (buf ++ c.frames ps) = ps.reverse ++ c.unframe buf := by
  induction ps generalizing buf with
  | nil => simp
  | cons p ps ih =>
      have hps : c.Bounded ps := h.subset fun q hq => List.mem_cons_of_mem _ hq
      rw [frames_cons, ← List.append_assoc, ih _ hps,
        c.unframe_append_frame _ (h p List.mem_cons_self)]
      simp

/-- Reading inverts framing. -/
theorem unframe_frames {ps : List (List β)} (h : c.Bounded ps) :
    c.unframe (c.frames ps) = ps.reverse := by
  simpa using c.unframe_append_frames [] h

/-- What is read are the frames behind some unreadable rest, and each of them
is a payload the framing can carry. -/
theorem unframe_spec (buf : List β) :
    (∃ rest, buf = rest ++ c.frames (c.unframe buf).reverse ∧ c.unframe rest = []) ∧
      c.Bounded (c.unframe buf) := by
  induction hn : buf.length using Nat.strongRecOn generalizing buf with
  | ind n ih =>
      have hstuck : c.unframe buf = [] →
          (∃ rest, buf = rest ++ c.frames (c.unframe buf).reverse ∧ c.unframe rest = []) ∧
            c.Bounded (c.unframe buf) := fun hnil =>
        ⟨⟨buf, by simp [hnil], hnil⟩, by simp [hnil, Bounded]⟩
      cases hlen : takeBack c.width buf with
      | none => exact hstuck (by rw [unframe_eq, hlen])
      | some x =>
          obtain ⟨front, len⟩ := x
          cases hp : takeBack (c.dec len) front with
          | none => exact hstuck (by rw [unframe_eq, hlen]; simp only [hp])
          | some y =>
              obtain ⟨rest, p⟩ := y
              have hshort := length_of_takeBack hlen hp
              obtain ⟨rfl, hw⟩ := takeBack_eq_some hlen
              obtain ⟨rfl, hpl⟩ := takeBack_eq_some hp
              -- the bytes read as a length are the encoding of that length
              have hframe : p ++ len = c.frame p := by
                rw [frame, hpl, c.enc_dec len hw]
              have hbound : p.length < c.bound := by rw [hpl]; exact c.dec_lt len
              obtain ⟨⟨junk, hrest, hjunk⟩, hall⟩ := ih rest.length (hn ▸ hshort) rest rfl
              rw [List.append_assoc, hframe, c.unframe_append_frame _ hbound]
              refine ⟨⟨junk, ?_, hjunk⟩, ?_⟩
              · rw [List.reverse_cons, frames_append, frames_singleton, ← List.append_assoc,
                  ← hrest]
              · intro q hq
                rcases List.mem_cons.mp hq with rfl | hq
                · exact hbound
                · exact hall q hq

@[simp] theorem length_frames_replicate (n : Nat) (p : List β) :
    (c.frames (List.replicate n p)).length = n * (p.length + c.width) := by
  induction n with
  | zero => simp
  | succ n ih =>
      rw [List.replicate_succ, frames_cons, List.length_append, ih, length_frame, Nat.succ_mul,
        Nat.add_comm]

/-- The payloads of a log and of its reverse take equally many bytes. -/
theorem length_frames_reverse (ps : List (List β)) :
    (c.frames ps.reverse).length = (c.frames ps).length := by
  induction ps with
  | nil => rfl
  | cons p ps ih =>
      rw [List.reverse_cons, frames_append, frames_singleton, frames_cons, List.length_append,
        List.length_append, ih, Nat.add_comm]

/-- What is read takes no more bytes than there are. -/
theorem length_frames_unframe_le (buf : List β) :
    (c.frames (c.unframe buf)).length ≤ buf.length := by
  obtain ⟨⟨rest, hrest, -⟩, -⟩ := c.unframe_spec buf
  have hlen := congrArg List.length hrest
  rw [List.length_append, length_frames_reverse] at hlen
  omega

variable {c}

theorem Framed.nil : c.Framed [] := ⟨[], by intro p hp; simp at hp, rfl⟩

theorem Framed.frames {ps : List (List β)} (h : c.Bounded ps) : c.Framed (c.frames ps) :=
  ⟨ps, h, rfl⟩

theorem Framed.append {xs ys : List β} (hx : c.Framed xs) (hy : c.Framed ys) :
    c.Framed (xs ++ ys) := by
  obtain ⟨ps, hp, rfl⟩ := hx
  obtain ⟨qs, hq, rfl⟩ := hy
  exact ⟨ps ++ qs, hp.append hq, (c.frames_append ps qs).symm⟩

/-- A framed input is what its own reading frames. -/
theorem framed_iff {buf : List β} : c.Framed buf ↔ buf = c.frames (c.unframe buf).reverse := by
  constructor
  · rintro ⟨ps, hp, rfl⟩
    rw [c.unframe_frames hp, List.reverse_reverse]
  · intro h
    exact ⟨_, (c.unframe_spec buf).2.subset fun p hp => List.mem_reverse.mp hp, h⟩

instance [DecidableEq β] (buf : List β) : Decidable (c.Framed buf) :=
  decidable_of_iff _ framed_iff.symm

/-- Equal logs are logs of equal payloads. -/
theorem frames_inj {ps qs : List (List β)} (hp : c.Bounded ps) (hq : c.Bounded qs)
    (h : c.frames ps = c.frames qs) : ps = qs := by
  have hread := congrArg c.unframe h
  rw [c.unframe_frames hp, c.unframe_frames hq] at hread
  exact List.reverse_injective hread

/-- Cutting a framed suffix off a framed input leaves a framed input. -/
theorem Framed.prefix_of_append {xs ys : List β} (h : c.Framed (xs ++ ys))
    (hy : c.Framed ys) : c.Framed xs := by
  obtain ⟨ps, hp, hps⟩ := h
  obtain ⟨qs, hq, rfl⟩ := hy
  have hread : ps.reverse = qs.reverse ++ c.unframe xs := by
    rw [← c.unframe_frames hp, ← hps, c.unframe_append_frames xs hq]
  have hsplit : ps = (c.unframe xs).reverse ++ qs := by
    rw [← List.reverse_reverse ps, hread, List.reverse_append, List.reverse_reverse]
  refine framed_iff.mpr ?_
  rw [hsplit, frames_append] at hps
  exact List.append_cancel_right hps

/-! ## Reading from the middle of a frame -/

/-- What is left of a frame that is cut at its front cannot be read. -/
theorem unframe_cut {p : List β} (hp : p.length < c.bound) {k : Nat} (hk : 0 < k)
    (hle : k ≤ (c.frame p).length) : c.unframe ((c.frame p).drop k) = [] := by
  rw [length_frame] at hle
  rw [unframe_eq]
  cases htake : takeBack c.width ((c.frame p).drop k) with
  | none => rfl
  | some x =>
      obtain ⟨front, len⟩ := x
      obtain ⟨hsplit, hwidth⟩ := takeBack_eq_some htake
      -- the length is still whole, so the payload has become too short for it
      have hlen := congrArg List.length hsplit
      rw [List.length_drop, length_frame, List.length_append, hwidth] at hlen
      have hin : k ≤ p.length := by omega
      rw [frame, List.drop_append_of_le_length hin] at hsplit
      have henc : len = c.enc p.length :=
        (List.append_inj_right' hsplit (by rw [c.length_enc, hwidth])).symm
      have hfront : front = p.drop k :=
        (List.append_inj_left' hsplit (by rw [c.length_enc, hwidth])).symm
      have hnone : takeBack p.length front = none := by
        rw [takeBack, if_neg]
        rw [hfront, List.length_drop]
        omega
      simp only [henc, c.dec_enc _ hp, hnone]

/-- The end of a log, from any byte on: the rest of a frame that cannot be read, and the frames
behind it. Nothing whole is lost. -/
theorem drop_frames {ps : List (List β)} (hps : c.Bounded ps) {k : Nat}
    (hk : k ≤ (c.frames ps).length) :
    ∃ older newer tail, ps = older ++ newer ∧ (c.frames ps).drop k = tail ++ c.frames newer ∧
      c.unframe tail = [] ∧ k + tail.length = (c.frames older).length ∧
      ∀ p ∈ older.getLast?, tail.length < (c.frame p).length := by
  induction ps using List.reverseRecOn generalizing k with
  | nil =>
      obtain rfl : k = 0 := Nat.le_zero.mp hk
      exact ⟨[], [], [], rfl, rfl, rfl, rfl, nofun⟩
  | append_singleton ps p ih =>
      have hp : p.length < c.bound := hps p (List.mem_append_right _ List.mem_cons_self)
      rw [frames_append, frames_singleton] at hk ⊢
      rcases Nat.lt_or_ge (c.frames ps).length k with hcut | hin
      · refine ⟨ps ++ [p], [], (c.frame p).drop (k - (c.frames ps).length), by simp, ?_, ?_, ?_, ?_⟩
        · rw [frames_nil, List.append_nil, List.drop_append,
            List.drop_of_length_le (Nat.le_of_lt hcut), List.nil_append]
        · rw [List.length_append] at hk
          exact c.unframe_cut hp (by omega) (by omega)
        · rw [frames_append, frames_singleton, List.length_append, List.length_drop]
          rw [List.length_append] at hk
          omega
        · intro q hq
          rw [List.getLast?_concat, Option.mem_some_iff] at hq
          subst hq
          rw [List.length_drop]
          rw [List.length_append] at hk
          omega
      · obtain ⟨older, newer, tail, rfl, hdrop, htail, hlen, hlast⟩ :=
          ih (hps.subset fun q hq => List.mem_append_left _ hq) hin
        refine ⟨older, newer ++ [p], tail, by simp, ?_, htail, hlen, hlast⟩
        rw [List.drop_append_of_le_length hin, hdrop, frames_append, frames_singleton,
          List.append_assoc]

end LenCode

end OnionNetwork.Lib
