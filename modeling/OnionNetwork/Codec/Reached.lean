import OnionNetwork.Codec.Honest
import OnionNetwork.Codec.Laws

/-!
# The lengths and the elements that a decoder reaches

A decoder stops at the first length that is too long, and an element is read where the one
before it ends. `Both`, `Each`, `Counted` and `Remaining` say of two values, of some elements,
of a collection and of a `ReminderVec` that what the input has at these places satisfies a
condition. With the condition that the log is clean they say that the log of the whole is clean:
one lemma for each codec.
-/

namespace OnionNetwork.Codec

open Lib Parser

variable {α β : Type}

/-! ### Places in the input -/

/-- A value, and what is read behind it. -/
def Both (c : Codec α) (H H' : Bytes → Prop) (input : Bytes) : Prop :=
  H input ∧ ∀ x rest, (c.decode input).result = .ok (x, rest) → H' rest

/-- The first elements of a sequence. -/
def Each (c : Codec α) (H : Bytes → Prop) : Nat → Bytes → Prop
  | 0, _ => True
  | n + 1, input => Both c H (Each c H n) input

/-- Memory for so many elements is not above the largest allocation. -/
def Layout.Allocates (layout : Layout) (len : Nat) : Prop := layout.bytes len ≤ isizeMax

instance (layout : Layout) (len : Nat) : Decidable (layout.Allocates len) := Nat.decLe _ _

/-- The length of a collection, times the bytes that an element takes at least, is a `usize`. If
the input has so many bytes, memory can be reserved, and then the elements follow. -/
def Counted (scale : Nat) (fits : Nat → Prop) (c : Codec α) (H : Bytes → Prop) (input : Bytes) :
    Prop :=
  ∀ len left, (usize.decode input).result = .ok (len, left) →
    len.toNat * scale < usizeSize ∧
      (len.toNat * scale ≤ left.length → fits len.toNat ∧ Each c H len.toNat left)

/-- The elements up to the end of the input, each of at least one byte. -/
inductive Remaining (c : Codec α) (H : Bytes → Prop) : Bytes → Prop
  | done : Remaining c H []
  | element {input : Bytes} (first : H input)
      (shorter : ∀ x rest, (c.decode input).result = .ok (x, rest) →
        rest.length < input.length)
      (others : ∀ x rest, (c.decode input).result = .ok (x, rest) → Remaining c H rest) :
      Remaining c H input

/-! ### Clean decoders -/

/-- No event of the decoder on the input is one that a fault follows. -/
abbrev CleanOn (p : Decoder α) (input : Bytes) : Prop := Clean DecodeEvent.Bad (p input)

variable {p : Decoder α} {c : Codec α} {d : Codec β} {H H' : Bytes → Prop} {input : Bytes}

theorem cleanOn_takeFirst (input : Bytes) : CleanOn takeFirst input := by
  cases input with
  | nil => exact fun _ he => absurd he List.not_mem_nil
  | cons byte rest => exact fun _ he => absurd he List.not_mem_nil

theorem cleanOn_uint (width : Nat) (input : Bytes) : CleanOn (uint width).decode input :=
  (isHonest_uint width input).clean_iff.mpr (noFault_uint width input)

theorem cleanOn_byteSlice (input : Bytes) : CleanOn byteSlice.decode input :=
  (isHonest_byteSlice input).clean_iff.mpr (noFault_byteSlice input)

theorem cleanOn_bool (input : Bytes) : CleanOn bool.decode input := by
  refine clean_andThen_iff.mpr ⟨cleanOn_takeFirst input, fun byte rest _ => ?_⟩
  split
  · exact clean_accept
  · split
    · exact clean_accept
    · exact clean_reject

theorem cleanOn_errorKind (input : Bytes) : CleanOn errorKind.decode input := by
  refine clean_andThen_iff.mpr ⟨cleanOn_uint 64 input, fun idx rest _ => ?_⟩
  cases errorList[idx.toNat]? with
  | none => exact clean_reject
  | some kind => exact clean_accept

theorem cleanOn_decodeMany_u8 (n : Nat) (input : Bytes) : CleanOn (decodeMany u8 n) input :=
  (IsHonest.decodeMany (c := u8) isHonest_takeFirst n input).clean_iff.mpr
    (noFault_decodeMany_u8 n input)

theorem cleanOn_ipAddr (input : Bytes) : CleanOn ipAddr.decode input := by
  refine clean_andThen_iff.mpr ⟨cleanOn_takeFirst input, fun byte rest _ => ?_⟩
  split
  · exact clean_map_iff.mpr (cleanOn_decodeMany_u8 4 rest)
  · split
    · exact clean_map_iff.mpr (cleanOn_decodeMany_u8 16 rest)
    · exact clean_reject

theorem cleanOn_socketAddr (input : Bytes) : CleanOn socketAddr.decode input :=
  clean_andThen_iff.mpr ⟨cleanOn_ipAddr input, fun _ rest _ =>
    clean_map_iff.mpr (cleanOn_uint 16 rest)⟩

/-! ### Composites -/

theorem cleanOn_checked_iff {P : α → Prop} [DecidablePred P] :
    CleanOn (checked c P).decode input ↔ CleanOn c.decode input := by
  refine clean_andThen_iff.trans ⟨And.left, fun h => ⟨h, fun v rest _ => ?_⟩⟩
  split
  · exact clean_accept
  · exact clean_reject

theorem cleanOn_pair_iff (hc : ∀ input, CleanOn c.decode input ↔ H input)
    (hd : ∀ input, CleanOn d.decode input ↔ H' input) :
    CleanOn (pair c d).decode input ↔ Both c H H' input := by
  refine clean_andThen_iff.trans (and_congr (hc input) ?_)
  exact forall₃_congr fun _ rest _ => clean_map_iff.trans (hd rest)

theorem cleanOn_decodeMany_iff (hc : ∀ input, CleanOn c.decode input ↔ H input) (len : Nat)
    (input : Bytes) : CleanOn (decodeMany c len) input ↔ Each c H len input := by
  induction len generalizing input with
  | zero => exact iff_of_true clean_accept trivial
  | succ len ih =>
      refine clean_andThen_iff.trans (and_congr (hc input) ?_)
      exact forall₃_congr fun _ rest _ => clean_map_iff.trans (ih rest)

/-- The first byte of the input is taken off it. -/
theorem takeFirst_eq_ok {byte : UInt8} {rest : Bytes} :
    (takeFirst input).result = .ok (byte, rest) ↔ input = byte :: rest := by
  cases input with
  | nil => exact iff_of_false nofun nofun
  | cons b bs =>
      simp only [takeFirst, Except.ok.injEq, Prod.mk.injEq, List.cons.injEq]

theorem bool_eq_ok {b : Bool} {rest : Bytes} :
    (bool.decode input).result = .ok (b, rest) ↔ input = (if b then 1 else 0) :: rest := by
  cases input with
  | nil => exact iff_of_false nofun nofun
  | cons byte bs =>
      have hbyte : (bool.decode (byte :: bs)).result =
          ((if byte = 0 then accept false else if byte = 1 then accept true else reject :
            Decoder Bool) bs).result := rfl
      rw [hbyte]
      by_cases hzero : byte = 0
      · subst hzero
        cases b <;> simp [accept]
      · by_cases hone : byte = 1
        · subst hone
          cases b <;> simp [accept]
        · rw [if_neg hzero, if_neg hone]
          cases b <;> simp [reject, hzero, hone]

theorem cleanOn_option_iff (hc : ∀ input, CleanOn c.decode input ↔ H input) :
    CleanOn (option c).decode input ↔ ∀ rest, input = 1 :: rest → H rest := by
  refine clean_andThen_iff.trans ⟨fun h rest hinput => ?_, fun h => ⟨cleanOn_bool input, ?_⟩⟩
  · exact (hc rest).mp (clean_map_iff.mp (h.2 true rest (bool_eq_ok.mpr hinput)))
  · intro isSome rest hbool
    cases isSome with
    | false => exact clean_accept
    | true => exact clean_map_iff.mpr ((hc rest).mpr (h rest (bool_eq_ok.mp hbool)))

theorem cleanOn_result_iff (hc : ∀ input, CleanOn c.decode input ↔ H input)
    (hd : ∀ input, CleanOn d.decode input ↔ H' input) :
    CleanOn (result c d).decode input ↔
      (∀ rest, input = 1 :: rest → H rest) ∧ ∀ rest, input = 0 :: rest → H' rest := by
  refine clean_andThen_iff.trans ⟨fun h => ⟨fun rest hinput => ?_, fun rest hinput => ?_⟩,
    fun h => ⟨cleanOn_bool input, ?_⟩⟩
  · exact (hc rest).mp (clean_map_iff.mp (h.2 true rest (bool_eq_ok.mpr hinput)))
  · exact (hd rest).mp (clean_map_iff.mp (h.2 false rest (bool_eq_ok.mpr hinput)))
  · intro isOk rest hbool
    cases isOk with
    | false => exact clean_map_iff.mpr ((hd rest).mpr (h.2 rest (bool_eq_ok.mp hbool)))
    | true => exact clean_map_iff.mpr ((hc rest).mpr (h.1 rest (bool_eq_ok.mp hbool)))

theorem cleanOn_enum_iff {n : Nat} {γ : Fin n → Type} {variants : ∀ i, Codec (γ i)}
    {H : Fin n → Bytes → Prop}
    (h : ∀ i input, CleanOn (variants i).decode input ↔ H i input) :
    CleanOn (enum variants).decode input ↔
      ∀ byte rest, input = byte :: rest → ∀ hlt : byte.toNat < n, H ⟨byte.toNat, hlt⟩ rest := by
  refine clean_andThen_iff.trans ⟨fun hclean byte rest hinput hlt => ?_,
    fun hvariant => ⟨cleanOn_takeFirst input, fun byte rest hbyte => ?_⟩⟩
  · have hrest := hclean.2 byte rest (takeFirst_eq_ok.mpr hinput)
    rw [dif_pos hlt] at hrest
    exact (h _ rest).mp (clean_map_iff.mp hrest)
  · by_cases hlt : byte.toNat < n
    · rw [dif_pos hlt]
      exact clean_map_iff.mpr ((h _ rest).mpr (hvariant byte rest (takeFirst_eq_ok.mp hbyte) hlt))
    · rw [dif_neg hlt]
      exact clean_reject

/-! ### Collections -/

variable {scale : Nat}

theorem cleanOn_lengthGuarded_iff :
    CleanOn (lengthGuarded scale) input ↔
      ∀ len left, (usize.decode input).result = .ok (len, left) →
        len.toNat * scale < usizeSize := by
  refine clean_andThen_iff.trans ⟨fun h len left hlen => ?_, fun h => ⟨cleanOn_uint 64 input, ?_⟩⟩
  · exact not_le.mp (clean_noteOr_iff.mp (clean_andThen_iff.mp (h.2 len left hlen)).1)
  · intro len left hlen
    refine clean_andThen_iff.mpr ⟨clean_noteOr_iff.mpr (not_le.mpr (h len left hlen)), ?_⟩
    intro _ rest _
    split
    · exact clean_reject
    · exact clean_accept

/-- What is clean behind the length of a collection is what `Counted` says of it. -/
theorem cleanOn_counted_iff {q : BitVec 64 → Decoder β} {fits : Nat → Prop}
    (hq : ∀ len left, CleanOn (q len) left ↔ fits len.toNat ∧ Each c H len.toNat left) :
    CleanOn ((lengthGuarded scale).andThen q) input ↔ Counted scale fits c H input := by
  refine clean_andThen_iff.trans ⟨fun h len left hlen => ?_, fun h => ⟨?_, fun len left hlen => ?_⟩⟩
  · have hproduct := cleanOn_lengthGuarded_iff.mp h.1 len left hlen
    refine ⟨hproduct, fun henough => (hq len left).mp (h.2 len left ?_)⟩
    exact lengthGuarded_eq_ok.mpr ⟨hlen, hproduct, henough⟩
  · exact cleanOn_lengthGuarded_iff.mpr fun len left hlen => (h len left hlen).1
  · obtain ⟨hread, -, henough⟩ := lengthGuarded_eq_ok.mp hlen
    exact (hq len left).mpr ((h len left hread).2 henough)

theorem cleanOn_reserved_iff (hc : ∀ input, CleanOn c.decode input ↔ H input) {layout : Layout} :
    CleanOn (reserved scale layout c) input ↔ Counted scale layout.Allocates c H input := by
  refine cleanOn_counted_iff fun len left => ?_
  refine clean_andThen_iff.trans ⟨fun h => ?_, fun h => ⟨?_, fun _ rest hreserve => ?_⟩⟩
  · have hfits : layout.Allocates len.toNat := not_lt.mp (clean_noteOr_iff.mp h.1)
    have hreserve : (reserve layout len.toNat left).result = .ok ((), left) := by
      unfold reserve
      rw [decide_eq_false (not_lt.mpr hfits), result_noteOr]
    have hmany := (clean_andThen_iff.mp (h.2 () left hreserve)).1
    exact ⟨hfits, (cleanOn_decodeMany_iff hc _ left).mp hmany⟩
  · exact clean_noteOr_iff.mpr (not_lt.mpr h.1)
  · unfold reserve at hreserve
    rw [decide_eq_false (not_lt.mpr h.1), result_noteOr] at hreserve
    cases hreserve
    refine clean_andThen_iff.mpr ⟨(cleanOn_decodeMany_iff hc _ left).mpr h.2, fun xs rest _ => ?_⟩
    split
    · exact clean_accept
    · exact clean_reject

theorem cleanOn_unreserved_iff (hc : ∀ input, CleanOn c.decode input ↔ H input) :
    CleanOn (unreserved scale c) input ↔ Counted scale (fun _ => True) c H input := by
  refine cleanOn_counted_iff fun len left => ?_
  rw [true_and]
  exact clean_map_iff.trans (cleanOn_decodeMany_iff hc _ left)

theorem cleanOn_arrayVec_iff (hc : ∀ input, CleanOn c.decode input ↔ H input) {cap : Nat} :
    CleanOn (arrayVec c cap).decode input ↔
      ∀ len left, (usize.decode input).result = .ok (len, left) → len.toNat ≤ cap →
        Each c H len.toNat left := by
  refine clean_andThen_iff.trans ⟨fun h len left hlen hle => ?_,
    fun h => ⟨cleanOn_uint 64 input, fun len left hlen => ?_⟩⟩
  · have hmany := h.2 len left hlen
    rw [dif_neg (not_lt.mpr hle)] at hmany
    exact (cleanOn_decodeMany_iff hc _ left).mp (clean_map_iff.mp hmany)
  · by_cases hlt : cap < len.toNat
    · rw [dif_pos hlt]
      exact clean_reject
    · rw [dif_neg hlt]
      exact clean_map_iff.mpr
        ((cleanOn_decodeMany_iff hc _ left).mpr (h len left hlen (not_lt.mp hlt)))

/-- The loop of a `ReminderVec` is clean if its elements are, and none of them takes no byte. -/
theorem cleanOn_reminderVec_iff (hc : ∀ input, CleanOn c.decode input ↔ H input) (input : Bytes) :
    CleanOn (reminderVec c).decode input ↔ Remaining c H input := by
  show Clean DecodeEvent.Bad (decodeReminder c input) ↔ _
  induction hn : input.length using Nat.strong_induction_on generalizing input with
  | _ n ih =>
  by_cases hne : input = []
  · subst hne
    rw [decodeReminder, if_pos rfl]
    exact iff_of_true (fun _ he => absurd he List.not_mem_nil) .done
  · rw [decodeReminder_eq hne, clean_andThen_iff]
    constructor
    · rintro ⟨hfirst, hothers⟩
      have hshorter : ∀ x rest, (c.decode input).result = .ok (x, rest) →
          rest.length < input.length := by
        intro x rest hread
        have hnote := clean_noteOr_iff.mp (clean_andThen_iff.mp (hothers x rest hread)).1
        exact Nat.lt_of_sub_pos (Nat.pos_of_ne_zero hnote)
      refine .element ((hc input).mp hfirst) hshorter fun x rest hread => ?_
      have hlt := hshorter x rest hread
      have htail := (clean_andThen_iff.mp (hothers x rest hread)).2 () rest (by
        rw [decide_eq_false (not_le.mpr hlt), result_noteOr])
      exact (ih rest.length (hn ▸ hlt) rest rfl).mp (clean_map_iff.mp htail)
    · intro hall
      cases hall with
      | done => exact absurd rfl hne
      | element first shorter others =>
          refine ⟨(hc input).mpr first, fun x rest hread => ?_⟩
          have hlt := shorter x rest hread
          refine clean_andThen_iff.mpr ⟨clean_noteOr_iff.mpr (Nat.sub_ne_zero_of_lt hlt), ?_⟩
          intro _ rest' hnote
          rw [decide_eq_false (not_le.mpr hlt), result_noteOr] at hnote
          cases hnote
          exact clean_map_iff.mpr ((ih rest.length (hn ▸ hlt) rest rfl).mpr (others x rest hread))

end OnionNetwork.Codec
