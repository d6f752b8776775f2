import OnionNetwork.Lib.TailFrame

/-!
# Frames read from the front

The other framing with a `LenCode`: every payload is *preceded* by its length,
and a buffer is read forwards, a frame at a time, until no complete frame is
left.

* `unpack` reads the payloads, oldest first;
* `unpack_packets_append` — it reads a sequence of packets, whatever follows.
-/

namespace OnionNetwork.Lib

variable {β : Type*}

/-- Split off the first `n` elements; `none` when there are fewer. -/
def takeFront (n : Nat) (buf : List β) : Option (List β × List β) :=
  if n ≤ buf.length then some (buf.take n, buf.drop n) else none

theorem takeFront_append (xs ys : List β) : takeFront xs.length (xs ++ ys) = some (xs, ys) := by
  simp [takeFront]

theorem takeFront_eq_some {n : Nat} {buf xs ys : List β} (h : takeFront n buf = some (xs, ys)) :
    buf = xs ++ ys ∧ xs.length = n := by
  unfold takeFront at h
  split at h
  · rename_i hn
    obtain ⟨rfl, rfl⟩ := Prod.mk.inj (Option.some.inj h)
    exact ⟨(List.take_append_drop _ _).symm, by rw [List.length_take]; omega⟩
  · cases h

namespace LenCode

variable (c : LenCode β)

/-- A payload behind its length. -/
def packet (p : List β) : List β := c.enc p.length ++ p

/-- Payloads one after the other, oldest first. -/
def packets (ps : List (List β)) : List β := (ps.map c.packet).flatten

/-- Read at most `fuel` payloads from the front. -/
def unpackFuel : Nat → List β → List (List β)
  | 0, _ => []
  | fuel + 1, buf =>
      match takeFront c.width buf with
      | none => []
      | some (len, rest) =>
          match takeFront (c.dec len) rest with
          | none => []
          | some (p, rest) => p :: unpackFuel fuel rest

/-- Read the payloads from the front. -/
def unpack (buf : List β) : List (List β) := c.unpackFuel buf.length buf

@[simp] theorem length_packet (p : List β) : (c.packet p).length = c.width + p.length := by
  rw [packet, List.length_append, c.length_enc]

@[simp] theorem packets_nil : c.packets [] = [] := rfl

@[simp] theorem packets_cons (p : List β) (ps : List (List β)) :
    c.packets (p :: ps) = c.packet p ++ c.packets ps := by
  simp [packets]

@[simp] theorem packets_append (ps qs : List (List β)) :
    c.packets (ps ++ qs) = c.packets ps ++ c.packets qs := by
  simp [packets]

theorem packets_singleton (p : List β) : c.packets [p] = c.packet p := by
  simp

@[simp] theorem unpackFuel_nil (fuel : Nat) : c.unpackFuel fuel [] = [] := by
  cases fuel with
  | zero => rfl
  | succ fuel =>
      have hnone : takeFront c.width ([] : List β) = none :=
        if_neg (Nat.not_le.mpr c.width_pos)
      rw [unpackFuel, hnone]

@[simp] theorem unpack_nil : c.unpack [] = [] := rfl

/-- Any two amounts of fuel that cover the input read the same payloads. -/
theorem unpackFuel_congr {fuel fuel' : Nat} {buf : List β} (h : buf.length ≤ fuel)
    (h' : buf.length ≤ fuel') : c.unpackFuel fuel buf = c.unpackFuel fuel' buf := by
  induction fuel generalizing fuel' buf with
  | zero =>
      rw [List.length_eq_zero_iff.mp (Nat.le_zero.mp h)]
      simp
  | succ fuel ih =>
      cases fuel' with
      | zero =>
          rw [List.length_eq_zero_iff.mp (Nat.le_zero.mp h')]
          simp
      | succ fuel' =>
          rw [unpackFuel, unpackFuel]
          cases hlen : takeFront c.width buf with
          | none => rfl
          | some x =>
              obtain ⟨len, rest⟩ := x
              cases hp : takeFront (c.dec len) rest with
              | none => simp only [hp]
              | some y =>
                  obtain ⟨p, rest'⟩ := y
                  -- a packet takes at least its length field
                  have hshort : rest'.length < buf.length := by
                    obtain ⟨rfl, hw⟩ := takeFront_eq_some hlen
                    obtain ⟨rfl, -⟩ := takeFront_eq_some hp
                    have := c.width_pos
                    simp only [List.length_append]
                    omega
                  have hle : rest'.length ≤ fuel := by omega
                  have hle' : rest'.length ≤ fuel' := by omega
                  simp only [hp, ih hle hle']

/-- Reading takes the first packet off, whatever follows. -/
theorem unpack_packet_append {p : List β} (hp : p.length < c.bound) (rest : List β) :
    c.unpack (c.packet p ++ rest) = p :: c.unpack rest := by
  have hfuel : (c.packet p ++ rest).length ≤ rest.length + p.length + c.width := by
    rw [List.length_append, length_packet]
    omega
  rw [unpack, c.unpackFuel_congr (Nat.le_refl _) (Nat.le_succ_of_le hfuel), Nat.succ_eq_add_one,
    unpackFuel, packet, List.append_assoc]
  have hlen := takeFront_append (c.enc p.length) (p ++ rest)
  rw [c.length_enc] at hlen
  simp only [hlen, c.dec_enc p.length hp, takeFront_append]
  rw [unpack, c.unpackFuel_congr _ (Nat.le_refl _)]
  omega

/-- Reading inverts packing, whatever follows. -/
theorem unpack_packets_append {ps : List (List β)} (h : c.Bounded ps) (rest : List β) :
    c.unpack (c.packets ps ++ rest) = ps ++ c.unpack rest := by
  induction ps with
  | nil => rfl
  | cons p ps ih =>
      have hps : c.Bounded ps := h.subset fun q hq => List.mem_cons_of_mem _ hq
      rw [packets_cons, List.append_assoc, c.unpack_packet_append (h p List.mem_cons_self), ih hps,
        List.cons_append]

theorem unpack_packets {ps : List (List β)} (h : c.Bounded ps) : c.unpack (c.packets ps) = ps := by
  simpa using c.unpack_packets_append h []

end LenCode

end OnionNetwork.Lib
