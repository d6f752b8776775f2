import OnionNetwork.Codec.Types

/-!
# What decoders do on any input

Every decoder is honest about its faults: it ends in one exactly when its log has
an event that leads to it, and it never reserves memory for more elements than there
are bytes left. One lemma for each codec, by the rules of `Parser.Honest`.
-/

namespace OnionNetwork

open Lib Parser

/-- The event is followed by a fault: a product that is no `usize`, a reservation
above the largest allocation, an element that takes no byte. -/
def DecodeEvent.Bad : DecodeEvent → Prop
  | shift _ => False
  | slice _ _ => False
  | product n => usizeSize ≤ n
  | reserve _ bytes _ => isizeMax < bytes
  | element consumed => consumed = 0

/-- A shift is one of a `u64`, a slice is one of the input, and a reservation is for
no more elements than there are bytes left. -/
def DecodeEvent.Kept : DecodeEvent → Prop
  | shift bits => bits < 64
  | slice index len => index ≤ len
  | reserve elements _ left => elements ≤ left
  | _ => True

namespace Codec

variable {α β : Type}

/-- The run of the decoder is honest, on every input. -/
def IsHonest (p : Decoder α) : Prop :=
  ∀ input, Honest DecodeEvent.Bad DecodeEvent.Kept (p input)

variable {p : Decoder α} {c : Codec α} {d : Codec β}

theorem isHonest_accept (a : α) : IsHonest (accept a) := fun _ => honest_accept

theorem isHonest_reject : IsHonest (reject : Decoder α) := fun _ => honest_reject

theorem IsHonest.andThen {f : α → Decoder β} (hp : IsHonest p) (hf : ∀ a, IsHonest (f a)) :
    IsHonest (p.andThen f) := fun input => (hp input).andThen fun a rest _ => hf a rest

theorem IsHonest.map (hp : IsHonest p) (f : α → β) : IsHonest (p.map f) :=
  fun input => (hp input).map

theorem isHonest_ite {P : Prop} [Decidable P] {q r : Decoder α} (hq : IsHonest q)
    (hr : IsHonest r) : IsHonest (if P then q else r) := by
  split
  · exact hq
  · exact hr

theorem isHonest_takeFirst : IsHonest takeFirst := by
  intro input
  cases input with
  | nil => exact isHonest_reject []
  | cons byte rest => exact isHonest_accept byte rest

theorem honest_splitAt {n : Nat} {buffer : Bytes} (h : n ≤ buffer.length) :
    Honest DecodeEvent.Bad DecodeEvent.Kept (splitAt n buffer) := by
  unfold splitAt
  refine Honest.andThen (honest_noteOr ?_ h) fun _ _ _ => honest_accept
  show decide (buffer.length < n) = true ↔ False
  simp [h]

/-- Every shift of the loop is one of a `u64`, and the slice behind the last byte is
within the input. -/
theorem honest_base128DecodeFrom {bytes buffer : Bytes} {advanced shift value : Nat}
    (hlen : advanced + bytes.length ≤ buffer.length) (hshift : shift + 7 * bytes.length ≤ 70) :
    Honest DecodeEvent.Bad DecodeEvent.Kept
      (base128DecodeFrom bytes advanced shift value buffer) := by
  induction bytes generalizing advanced shift value with
  | nil => exact honest_reject
  | cons byte bytes ih =>
      rw [List.length_cons] at hlen hshift
      have hlt : shift < 64 := by omega
      rw [base128DecodeFrom]
      refine Honest.andThen (honest_noteOr ?_ hlt) fun _ rest hnote => ?_
      · show decide (64 ≤ shift) = true ↔ False
        simp [hlt]
      · rw [decide_eq_false (not_le.mpr hlt), result_noteOr] at hnote
        cases hnote
        show Honest _ _ (ite _ (map _ _) _ _)
        split
        · exact (honest_splitAt (by omega)).map
        · exact ih (by omega) (by omega)

theorem isHonest_base128Decode : IsHonest base128Decode := by
  intro input
  have hlen := List.length_take_le 10 input
  have hle := List.length_take_le' 10 input
  exact honest_base128DecodeFrom (by omega) (by omega)

theorem isHonest_uint (width : Nat) : IsHonest (uint width).decode :=
  isHonest_base128Decode.andThen fun _ => isHonest_ite (isHonest_accept _) isHonest_reject

theorem isHonest_bool : IsHonest bool.decode :=
  isHonest_takeFirst.andThen fun _ =>
    isHonest_ite (isHonest_accept _) (isHonest_ite (isHonest_accept _) isHonest_reject)

theorem IsHonest.pair (hc : IsHonest c.decode) (hd : IsHonest d.decode) :
    IsHonest (pair c d).decode := hc.andThen fun _ => hd.map _

theorem IsHonest.option (hc : IsHonest c.decode) : IsHonest (option c).decode :=
  isHonest_bool.andThen fun _ => isHonest_ite (hc.map _) (isHonest_accept _)

theorem IsHonest.result (hc : IsHonest c.decode) (hd : IsHonest d.decode) :
    IsHonest (result c d).decode :=
  isHonest_bool.andThen fun _ => isHonest_ite (hc.map _) (hd.map _)

theorem isHonest_enum {n : Nat} {γ : Fin n → Type} {variants : ∀ i, Codec (γ i)}
    (h : ∀ i, IsHonest (variants i).decode) : IsHonest (enum variants).decode := by
  refine isHonest_takeFirst.andThen fun byte => ?_
  split
  · exact (h _).map _
  · exact isHonest_reject

theorem IsHonest.checked (hc : IsHonest c.decode) (P : α → Prop) [DecidablePred P] :
    IsHonest (checked c P).decode := by
  refine hc.andThen fun v => ?_
  split
  · exact isHonest_accept _
  · exact isHonest_reject

theorem isHonest_byteSlice : IsHonest byteSlice.decode := by
  refine (isHonest_uint 64).andThen fun len input => ?_
  split
  · exact honest_reject
  · next henough =>
      refine (honest_splitAt (not_lt.mp henough)).andThen fun bytes rest _ => ?_
      split
      · exact honest_accept
      · exact honest_reject

theorem IsHonest.decodeMany (hc : IsHonest c.decode) (len : Nat) :
    IsHonest (decodeMany c len) := by
  induction len with
  | zero => exact isHonest_accept _
  | succ len ih => exact hc.andThen fun _ => ih.map _

theorem isHonest_ipAddr : IsHonest ipAddr.decode :=
  isHonest_takeFirst.andThen fun _ =>
    isHonest_ite ((isHonest_takeFirst.decodeMany 4).map _)
      (isHonest_ite ((isHonest_takeFirst.decodeMany 16).map _) isHonest_reject)

theorem isHonest_socketAddr : IsHonest socketAddr.decode :=
  isHonest_ipAddr.andThen fun _ => (isHonest_uint 16).map _

theorem isHonest_errorKind : IsHonest errorKind.decode := by
  refine (isHonest_uint 64).andThen fun idx => ?_
  split
  · exact isHonest_accept _
  · exact isHonest_reject

/-! ### Collections -/

theorem isHonest_lengthGuarded (scale : Nat) : IsHonest (lengthGuarded scale) := by
  refine (isHonest_uint 64).andThen fun len input => ?_
  refine Honest.andThen (honest_noteOr ?_ trivial) fun _ left _ => ?_
  · exact decide_eq_true_iff
  · split
    · exact honest_reject
    · exact honest_accept

/-- A length is passed on if it is a length and the input has enough bytes for it. -/
theorem lengthGuarded_eq_ok {scale : Nat} {input left : Bytes}
    {len : BitVec 64} :
    (lengthGuarded scale input).result = .ok (len, left) ↔
      (usize.decode input).result = .ok (len, left) ∧ len.toNat * scale < usizeSize ∧
        len.toNat * scale ≤ left.length := by
  unfold lengthGuarded
  cases hlen : (usize.decode input).result with
  | error stop => simp [result_andThen_error hlen]
  | ok r =>
      obtain ⟨n, rest⟩ := r
      rw [result_andThen_ok hlen]
      by_cases hproduct : usizeSize ≤ n.toNat * scale
      · have hfault : (noteOr (fun _ => DecodeEvent.product (n.toNat * scale))
            (decide (usizeSize ≤ n.toNat * scale)) DecodeFault.overflow rest).result =
              .error (.fault .overflow) := by
          simp only [noteOr, decide_eq_true hproduct, if_true]
        rw [result_andThen_error hfault]
        refine iff_of_false (fun h => ?_) ?_
        · cases h
        · rintro ⟨heq, hlt, -⟩
          cases heq
          exact absurd hproduct (not_le.mpr hlt)
      · rw [decide_eq_false hproduct, result_andThen_ok result_noteOr]
        by_cases hshort : rest.length < n.toNat * scale
        · rw [if_pos hshort]
          refine iff_of_false (fun h => ?_) ?_
          · cases h
          · rintro ⟨heq, -, hle⟩
            cases heq
            exact absurd hshort (not_lt.mpr hle)
        · rw [if_neg hshort]
          constructor
          · intro heq
            cases heq
            exact ⟨rfl, not_le.mp hproduct, not_lt.mp hshort⟩
          · rintro ⟨heq, -⟩
            exact heq

/-- Behind the guard there is at least a byte for each element. -/
theorem le_of_lengthGuarded {scale : Nat} (hscale : 0 < scale) {input left : Bytes}
    {len : BitVec 64} (h : (lengthGuarded scale input).result = .ok (len, left)) :
    len.toNat ≤ left.length :=
  le_trans (Nat.le_mul_of_pos_right _ hscale) (lengthGuarded_eq_ok.mp h).2.2

theorem IsHonest.reserved (hc : IsHonest c.decode) {scale : Nat} (hscale : 0 < scale)
    (layout : Layout) : IsHonest (reserved scale layout c) := by
  intro input
  refine (isHonest_lengthGuarded scale input).andThen fun len left hlen => ?_
  have hle := le_of_lengthGuarded hscale hlen
  refine Honest.andThen (honest_noteOr decide_eq_true_iff hle) fun _ rest _ => ?_
  refine (hc.decodeMany len.toNat rest).andThen fun xs rest _ => ?_
  split
  · exact honest_accept
  · exact honest_reject

theorem IsHonest.unreserved (hc : IsHonest c.decode) (scale : Nat) :
    IsHonest (unreserved scale c) :=
  (isHonest_lengthGuarded scale).andThen fun _ => (hc.decodeMany _).map _

theorem IsHonest.arrayVec (hc : IsHonest c.decode) (cap : Nat) :
    IsHonest (arrayVec c cap).decode := by
  refine (isHonest_uint 64).andThen fun len => ?_
  split
  · exact isHonest_reject
  · exact (hc.decodeMany _).map _

/-- One element, then the others. -/
theorem decodeReminder_eq {input : Bytes} (hne : input ≠ []) :
    decodeReminder c input =
      c.decode.andThen (fun x rest =>
        (noteOr (fun rest => .element (input.length - rest.length))
          (input.length ≤ rest.length) .endless).andThen
            (fun _ => Parser.map (x :: ·) (decodeReminder c)) rest) input := by
  rw [decodeReminder, if_neg hne]
  cases h : (c.decode input).result with
  | error stop =>
      unfold Parser.andThen
      rw [h]
  | ok r =>
      obtain ⟨x, rest⟩ := r
      by_cases hlt : rest.length < input.length
      · have hle : ¬ input.length ≤ rest.length := not_le.mpr hlt
        cases htail : decodeReminder c rest with
        | mk log result =>
            cases result <;>
              simp [Parser.andThen, Parser.map, noteOr, accept, h, hlt, hle, htail, Except.map]
      · have hle : input.length ≤ rest.length := not_lt.mp hlt
        simp [Parser.andThen, noteOr, h, hlt, hle]

theorem IsHonest.reminderVec (hc : IsHonest c.decode) : IsHonest (reminderVec c).decode := by
  intro input
  show Honest _ _ (decodeReminder c input)
  induction hn : input.length using Nat.strong_induction_on generalizing input with
  | _ n ih =>
  by_cases hne : input = []
  · rw [decodeReminder, if_pos hne]
    exact isHonest_accept [] []
  · rw [decodeReminder_eq hne]
    refine (hc input).andThen fun x rest _ => ?_
    refine Honest.andThen (honest_noteOr ?_ trivial) fun _ rest' hnote => ?_
    · show decide (input.length ≤ rest.length) = true ↔ input.length - rest.length = 0
      rw [decide_eq_true_iff, Nat.sub_eq_zero_iff_le]
    · -- the loop goes on only behind an element of at least one byte
      by_cases hlt : rest.length < input.length
      · rw [decide_eq_false (not_le.mpr hlt), result_noteOr] at hnote
        cases hnote
        exact (ih rest.length (hn ▸ hlt) rest rfl).map
      · rw [decide_eq_true (not_lt.mp hlt)] at hnote
        cases hnote

end Codec

end OnionNetwork
