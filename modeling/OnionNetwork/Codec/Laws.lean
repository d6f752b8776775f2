import OnionNetwork.Codec.Types

/-!
# Decoding what was encoded

`Law c Fits Plain` says what the decoder of a codec makes of an encoded value with
other bytes behind it: where the value `Fits` these, it reads back a value and leaves
the other bytes, and the value is the encoded one if that is `Plain`; where it does
not fit, the decoder rejects. One lemma for each codec.

Integers, arrays and byte strings are decoded without a panic, whatever the input is
(`NoFault`).
-/

namespace OnionNetwork

open Lib Parser

/-! ### Integers -/

theorem and_eq_zero_iff_lt : ∀ n < 256, (UInt8.ofNat n &&& 0x80 = 0 ↔ n < 128) := by
  decide +kernel

theorem and_toNat_eq_mod : ∀ n < 256, (UInt8.ofNat n &&& 0x7f).toNat = n % 128 := by
  decide +kernel

/-- Seven bits go on top of the ones that were read. -/
theorem or_shiftLeft {value group shift : Nat} (hvalue : value < 2 ^ shift)
    (hsum : value + group * 2 ^ shift < 2 ^ 64) :
    value ||| (group <<< shift) % 2 ^ 64 = value + group * 2 ^ shift := by
  have hlt : group <<< shift < 2 ^ 64 := by
    rw [Nat.shiftLeft_eq]
    omega
  rw [Nat.mod_eq_of_lt hlt, Nat.or_comm, ← Nat.shiftLeft_add_eq_or_of_lt hvalue,
    Nat.shiftLeft_eq, Nat.add_comm]

theorem result_splitAt {n : Nat} {buffer : Bytes} (h : n ≤ buffer.length) :
    (splitAt n buffer).result = .ok (buffer.take n, buffer.drop n) := by
  unfold splitAt
  rw [decide_eq_false (not_lt.mpr h), result_andThen_ok result_noteOr]
  rfl

section Loop

variable {n advanced shift value : Nat} {bytes buffer : Bytes}

/-- A last byte ends the loop. -/
theorem result_base128DecodeFrom_last (hn : n < 128) (hshift : shift < 64)
    (hvalue : value < 2 ^ shift) (hsum : value + n * 2 ^ shift < 2 ^ 64)
    (hlen : advanced + 1 ≤ buffer.length) :
    (base128DecodeFrom (UInt8.ofNat n :: bytes) advanced shift value buffer).result =
      .ok (value + n * 2 ^ shift, buffer.drop (advanced + 1)) := by
  have hlast := (and_eq_zero_iff_lt n (by omega)).mpr hn
  rw [base128DecodeFrom, decide_eq_false (not_le.mpr hshift), result_andThen_ok result_noteOr]
  simp only [hlast, if_true, and_toNat_eq_mod n (by omega), Nat.mod_eq_of_lt hn,
    or_shiftLeft hvalue hsum]
  exact result_map_ok (result_splitAt hlen)

/-- A byte that is not the last one is put on top of the groups in front of it. -/
theorem result_base128DecodeFrom_more (hshift : shift < 64)
    (hvalue : value < 2 ^ shift) (hsum : value + n % 128 * 2 ^ shift < 2 ^ 64) :
    (base128DecodeFrom (UInt8.ofNat (n % 128 + 128) :: bytes) advanced shift value buffer).result =
      (base128DecodeFrom bytes (advanced + 1) (shift + 7) (value + n % 128 * 2 ^ shift)
        buffer).result := by
  have hbyte : n % 128 + 128 < 256 := by omega
  have hmore : ¬ UInt8.ofNat (n % 128 + 128) &&& 0x80 = 0 := by
    rw [and_eq_zero_iff_lt _ hbyte]
    omega
  have hgroup : (n % 128 + 128) % 128 = n % 128 := by omega
  rw [base128DecodeFrom, decide_eq_false (not_le.mpr hshift), result_andThen_ok result_noteOr]
  simp only [hmore, if_false, and_toNat_eq_mod _ hbyte, hgroup, or_shiftLeft hvalue hsum]

/-- The loop reads back a value, on top of the groups in front. -/
theorem result_base128DecodeFrom (hshift : shift < 64) (hvalue : value < 2 ^ shift)
    (hsum : value + n * 2 ^ shift < 2 ^ 64)
    (hlen : advanced + (base128Encode n).length ≤ buffer.length) :
    (base128DecodeFrom (base128Encode n ++ bytes) advanced shift value buffer).result =
      .ok (value + n * 2 ^ shift, buffer.drop (advanced + (base128Encode n).length)) := by
  induction n using Nat.strongRecOn generalizing advanced shift value with
  | ind n ih =>
      by_cases hn : n < 128
      · rw [base128Encode_of_lt hn] at hlen ⊢
        exact result_base128DecodeFrom_last hn hshift hvalue hsum hlen
      · have hpow : 2 ^ (shift + 7) = 128 * 2 ^ shift := by
          rw [Nat.pow_add, Nat.mul_comm]
        have hsplit : value + n * 2 ^ shift =
            value + n % 128 * 2 ^ shift + n / 128 * 2 ^ (shift + 7) := by
          rw [hpow, Nat.add_assoc, ← Nat.mul_assoc, ← Nat.add_mul, Nat.mul_comm (n / 128),
            Nat.mod_add_div]
        have hfront : value + n % 128 * 2 ^ shift < 2 ^ 64 := by
          rw [hsplit] at hsum
          omega
        have hless : value + n % 128 * 2 ^ shift < 2 ^ (shift + 7) := by
          have hmul : n % 128 * 2 ^ shift ≤ 127 * 2 ^ shift :=
            Nat.mul_le_mul_right _ (by omega)
          rw [hpow]
          omega
        -- a group is left, so the next shift is still one of a `u64`
        have hnext : shift + 7 < 64 := by
          have hone : 1 * 2 ^ (shift + 7) ≤ n / 128 * 2 ^ (shift + 7) :=
            Nat.mul_le_mul_right _ (by omega)
          exact (Nat.pow_lt_pow_iff_right (by decide)).mp (by omega : 2 ^ (shift + 7) < 2 ^ 64)
        have hplace : advanced + ((base128Encode (n / 128)).length + 1) =
            advanced + 1 + (base128Encode (n / 128)).length := by omega
        rw [base128Encode_of_ge hn, List.length_cons, hplace] at hlen
        rw [base128Encode_of_ge hn, List.length_cons, hplace, List.cons_append,
          result_base128DecodeFrom_more hshift hvalue hfront, hsplit,
          ih (n / 128) (by omega) hnext hless (hsplit ▸ hsum) hlen]

end Loop

/-- A `u64` takes ten bytes at most. -/
theorem length_base128Encode {n : Nat} (groups : Nat) (hn : n < 128 ^ (groups + 1)) :
    (base128Encode n).length ≤ groups + 1 := by
  induction groups generalizing n with
  | zero =>
      rw [base128Encode_of_lt (by omega)]
      exact Nat.le_refl 1
  | succ groups ih =>
      by_cases hlt : n < 128
      · rw [base128Encode_of_lt hlt, List.length_singleton]
        exact Nat.le_add_left _ _
      · rw [base128Encode_of_ge hlt, List.length_cons]
        rw [Nat.pow_succ] at hn
        exact Nat.succ_le_succ (ih (Nat.div_lt_of_lt_mul (by rwa [Nat.mul_comm])))

theorem result_base128Decode {n : Nat} (hn : n < 2 ^ 64) (rest : Bytes) :
    (base128Decode (base128Encode n ++ rest)).result = .ok (n, rest) := by
  have hlen : (base128Encode n).length ≤ 10 :=
    length_base128Encode 9 (lt_trans hn (by decide))
  have hvalue : 0 + n * 2 ^ 0 = n := by
    rw [Nat.pow_zero, Nat.mul_one, Nat.zero_add]
  unfold base128Decode
  rw [List.take_append, List.take_of_length_le hlen,
    result_base128DecodeFrom (by decide) (by decide) (hvalue.symm ▸ hn) (by simp), hvalue,
    Nat.zero_add, List.drop_left]

namespace Codec

variable {α β : Type}

/-- What a decoder makes of an encoded value with other bytes behind it. -/
structure Law (c : Codec α) (Fits : α → Bytes → Prop) (Plain : α → Prop) : Prop where
  reads : ∀ v rest, Fits v rest → ∃ w,
    (c.decode (c.encode v ++ rest)).result = .ok (w, rest) ∧ Plain w ∧ (Plain v → w = v)
  fails : ∀ v rest, ¬ Fits v rest → ∃ stop, (c.decode (c.encode v ++ rest)).result = .error stop

/-- Every value is read back. -/
def Exact (c : Codec α) : Prop :=
  ∀ v rest, (c.decode (c.encode v ++ rest)).result = .ok (v, rest)

/-- Nothing to ask of a value and of the bytes behind it. -/
abbrev AlwaysFits : α → Bytes → Prop := fun _ _ => True

/-- Nothing to ask of a value. -/
abbrev AlwaysPlain : α → Prop := fun _ => True

theorem Exact.law {c : Codec α} (h : c.Exact) : c.Law AlwaysFits AlwaysPlain where
  reads v rest _ := ⟨v, h v rest, trivial, fun _ => rfl⟩
  fails _ _ hnot := absurd trivial hnot

/-- The value is read back exactly where it fits and is plain. -/
theorem Law.roundTrip_iff {c : Codec α} {Fits : α → Bytes → Prop} {Plain : α → Prop}
    (h : c.Law Fits Plain) (v : α) (rest : Bytes) :
    (c.decode (c.encode v ++ rest)).result = .ok (v, rest) ↔ Fits v rest ∧ Plain v := by
  constructor
  · intro hread
    have hfits : Fits v rest := by
      by_contra hnot
      obtain ⟨stop, hstop⟩ := h.fails v rest hnot
      rw [hread] at hstop
      cases hstop
    obtain ⟨w, hw, hplain, _⟩ := h.reads v rest hfits
    rw [hread] at hw
    cases hw
    exact ⟨hfits, hplain⟩
  · rintro ⟨hfits, hplain⟩
    obtain ⟨w, hw, _, heq⟩ := h.reads v rest hfits
    rw [hw, heq hplain]

/-! ### Single values -/

theorem exact_uint {width : Nat} (hwidth : width ≤ 64) : (uint width).Exact := by
  intro n rest
  have hpow : 2 ^ width ≤ 2 ^ 64 := Nat.pow_le_pow_right (by decide) hwidth
  have hlt : n.toNat < 2 ^ 64 := lt_of_lt_of_le n.isLt hpow
  have hread := result_base128Decode hlt rest
  simp only [uint, Nat.mod_eq_of_lt hlt]
  rw [result_andThen_ok hread, if_pos n.isLt, BitVec.ofNat_toNat, BitVec.setWidth_eq]
  rfl

/-- A length is read back. -/
theorem result_usize {n : Nat} (hn : n < usizeSize) (rest : Bytes) :
    (usize.decode (base128Encode n ++ rest)).result = .ok (BitVec.ofNat 64 n, rest) := by
  have hread := exact_uint (Nat.le_refl 64) (BitVec.ofNat 64 n) rest
  have hn' : n < 2 ^ 64 := hn
  have hencode : (uint 64).encode (BitVec.ofNat 64 n) = base128Encode n := by
    simp only [uint, BitVec.toNat_ofNat, Nat.mod_eq_of_lt hn']
  rw [hencode] at hread
  exact hread

theorem toNat_ofNat_length {n : Nat} (hn : n < usizeSize) : (BitVec.ofNat 64 n).toNat = n := by
  rw [BitVec.toNat_ofNat]
  exact Nat.mod_eq_of_lt hn

theorem exact_u8 : u8.Exact := fun _ _ => rfl

theorem exact_bool : bool.Exact := by
  intro b rest
  cases b <;> rfl

theorem exact_unit : unit.Exact := fun _ _ => rfl

theorem exact_byteSlice : byteSlice.Exact := by
  rintro ⟨b, hb⟩ rest
  simp only [byteSlice, encodeSlice, List.append_assoc]
  rw [result_andThen_ok (result_usize hb _)]
  have hlen : (BitVec.ofNat 64 b.length).toNat = b.length := by
    rw [BitVec.toNat_ofNat]
    exact Nat.mod_eq_of_lt hb
  have henough : ¬ (b ++ rest).length < b.length := by
    rw [List.length_append]
    omega
  have hle : b.length ≤ (b ++ rest).length := not_lt.mp henough
  simp only [hlen, if_neg henough]
  rw [result_andThen_ok (result_splitAt hle)]
  simp only [List.take_left, List.drop_left, dif_pos hb, result_accept]

theorem Exact.checked {c : Codec α} (h : c.Exact) (p : α → Prop) [DecidablePred p] :
    (checked c p).Exact := by
  rintro ⟨v, hv⟩ rest
  simp only [Codec.checked]
  rw [result_andThen_ok (h v rest), dif_pos hv]
  rfl

theorem exact_str : str.Exact := exact_byteSlice.checked _

theorem exact_arrayString (cap : Nat) : (arrayString cap).Exact := exact_str.checked _

/-! ### Products and sums -/

section Composite

variable {a : Codec α} {b : Codec β} {Fa : α → Bytes → Prop} {Fb : β → Bytes → Prop}
  {Pa : α → Prop} {Pb : β → Prop}

theorem Law.pair (ha : a.Law Fa Pa) (hb : b.Law Fb Pb) :
    (pair a b).Law (fun v rest => Fa v.1 (b.encode v.2 ++ rest) ∧ Fb v.2 rest)
      (fun v => Pa v.1 ∧ Pb v.2) where
  reads := by
    rintro ⟨x, y⟩ rest ⟨hx, hy⟩
    obtain ⟨x', hreadx, hplainx, heqx⟩ := ha.reads x _ hx
    obtain ⟨y', hready, hplainy, heqy⟩ := hb.reads y rest hy
    refine ⟨(x', y'), ?_, ⟨hplainx, hplainy⟩, ?_⟩
    · simp only [Codec.pair, List.append_assoc]
      rw [result_andThen_ok hreadx, result_map_ok hready]
    · rintro ⟨hx', hy'⟩
      rw [heqx hx', heqy hy']
  fails := by
    rintro ⟨x, y⟩ rest hnot
    simp only [Codec.pair, List.append_assoc]
    by_cases hx : Fa x (b.encode y ++ rest)
    · obtain ⟨x', hreadx, _⟩ := ha.reads x _ hx
      obtain ⟨stop, hstop⟩ := hb.fails y rest (fun hy => hnot ⟨hx, hy⟩)
      exact ⟨stop, by rw [result_andThen_ok hreadx, result_map_error hstop]⟩
    · obtain ⟨stop, hstop⟩ := ha.fails x _ hx
      exact ⟨stop, result_andThen_error hstop⟩

theorem Law.iso (ha : a.Law Fa Pa) (e : α ≃ β) :
    (iso a e).Law (fun v rest => Fa (e.symm v) rest) (fun v => Pa (e.symm v)) where
  reads := by
    intro v rest hv
    obtain ⟨w, hread, hplain, heq⟩ := ha.reads _ rest hv
    refine ⟨e w, result_map_ok hread, by rwa [e.symm_apply_apply], ?_⟩
    intro hv'
    rw [heq hv', e.apply_symm_apply]
  fails := by
    intro v rest hnot
    obtain ⟨stop, hstop⟩ := ha.fails _ rest hnot
    exact ⟨stop, result_map_error hstop⟩

theorem Exact.pair (ha : a.Exact) (hb : b.Exact) : (Codec.pair a b).Exact := by
  intro v rest
  exact ((ha.law.pair hb.law).roundTrip_iff v rest).mpr ⟨⟨trivial, trivial⟩, trivial, trivial⟩

theorem Exact.iso (ha : a.Exact) (e : α ≃ β) : (Codec.iso a e).Exact := by
  intro v rest
  exact ((ha.law.iso e).roundTrip_iff v rest).mpr ⟨trivial, trivial⟩

theorem Law.option (ha : a.Law Fa Pa) :
    (option a).Law (fun v rest => ∀ x, v = some x → Fa x rest)
    (fun v => ∀ x, v = some x → Pa x) where
  reads := by
    intro v rest hv
    cases v with
    | none => exact ⟨none, rfl, (fun _ h => by cases h), fun _ => rfl⟩
    | some x =>
        obtain ⟨w, hread, hplain, heq⟩ := ha.reads x rest (hv x rfl)
        refine ⟨some w, ?_, (fun y hy => by cases hy; exact hplain), fun hx => ?_⟩
        swap
        · rw [heq (hx x rfl)]
        simp only [Codec.option, List.append_assoc]
        rw [result_andThen_ok (exact_bool true _), if_pos rfl, result_map_ok hread]
  fails := by
    intro v rest hnot
    cases v with
    | none => exact absurd (fun _ h => by cases h) hnot
    | some x =>
        obtain ⟨stop, hstop⟩ := ha.fails x rest
          (fun hx => hnot fun y hy => by cases hy; exact hx)
        refine ⟨stop, ?_⟩
        simp only [Codec.option, List.append_assoc]
        rw [result_andThen_ok (exact_bool true _), if_pos rfl, result_map_error hstop]

theorem Law.result (ha : a.Law Fa Pa) (hb : b.Law Fb Pb) :
    (result a b).Law (fun v rest => Sum.elim (fun x => Fa x rest) (fun y => Fb y rest) v)
      (Sum.elim Pa Pb) where
  reads := by
    intro v rest hv
    cases v with
    | inl x =>
        obtain ⟨w, hread, hplain, heq⟩ := ha.reads x rest hv
        refine ⟨.inl w, ?_, hplain, fun hx => by rw [heq hx]⟩
        simp only [Codec.result, List.append_assoc]
        rw [result_andThen_ok (exact_bool true _), if_pos rfl, result_map_ok hread]
    | inr y =>
        obtain ⟨w, hread, hplain, heq⟩ := hb.reads y rest hv
        refine ⟨.inr w, ?_, hplain, fun hy => by rw [heq hy]⟩
        simp only [Codec.result, List.append_assoc]
        rw [result_andThen_ok (exact_bool false _), if_neg Bool.false_ne_true, result_map_ok hread]
  fails := by
    intro v rest hnot
    cases v with
    | inl x =>
        obtain ⟨stop, hstop⟩ := ha.fails x rest hnot
        refine ⟨stop, ?_⟩
        simp only [Codec.result, List.append_assoc]
        rw [result_andThen_ok (exact_bool true _), if_pos rfl, result_map_error hstop]
    | inr y =>
        obtain ⟨stop, hstop⟩ := hb.fails y rest hnot
        refine ⟨stop, ?_⟩
        simp only [Codec.result, List.append_assoc]
        rw [result_andThen_ok (exact_bool false _), if_neg Bool.false_ne_true,
          result_map_error hstop]

theorem Law.enum {n : Nat} {γ : Fin n → Type} {variants : ∀ i, Codec (γ i)}
    {F : ∀ i, γ i → Bytes → Prop} {P : ∀ i, γ i → Prop} (hn : n ≤ 256)
    (h : ∀ i, (variants i).Law (F i) (P i)) :
    (enum variants).Law (fun v rest => F v.1 v.2 rest) (fun v => P v.1 v.2) := by
  have hdecode : ∀ (i : Fin n) (input : Bytes),
      ((Codec.enum variants).decode (UInt8.ofNat i :: input)).result =
        (((variants i).decode.map fun x => (⟨i, x⟩ : Σ i, γ i)) input).result := by
    intro i input
    have htag : (UInt8.ofNat i).toNat = i := by
      rw [UInt8.toNat_ofNat']
      exact Nat.mod_eq_of_lt (lt_of_lt_of_le i.isLt hn)
    have hi : (⟨(UInt8.ofNat i).toNat, htag.symm ▸ i.isLt⟩ : Fin n) = i := Fin.ext htag
    have hfirst : (takeFirst (UInt8.ofNat i :: input)).result = .ok (UInt8.ofNat i, input) := rfl
    simp only [Codec.enum]
    rw [result_andThen_ok hfirst, dif_pos (htag.symm ▸ i.isLt), hi]
  constructor
  · rintro ⟨i, x⟩ rest hx
    obtain ⟨w, hread, hplain, heq⟩ := (h i).reads x rest hx
    refine ⟨⟨i, w⟩, ?_, hplain, fun hv => by rw [heq hv]⟩
    exact (hdecode i _).trans (result_map_ok hread)
  · rintro ⟨i, x⟩ rest hnot
    obtain ⟨stop, hstop⟩ := (h i).fails x rest hnot
    exact ⟨stop, (hdecode i _).trans (result_map_error hstop)⟩

end Composite

/-! ### Sequences -/

section Sequences

variable {c : Codec α} {F : α → Bytes → Prop} {P : α → Prop}

/-- Every element fits the ones behind it. -/
def FitsAll (c : Codec α) (F : α → Bytes → Prop) : List α → Bytes → Prop
  | [], _ => True
  | x :: xs, rest => F x (encodeAll c xs ++ rest) ∧ FitsAll c F xs rest

/-- Every element is plain. -/
abbrev PlainAll (P : α → Prop) (l : List α) : Prop := ∀ x ∈ l, P x

theorem encodeAll_cons (x : α) (xs : List α) :
    encodeAll c (x :: xs) = c.encode x ++ encodeAll c xs := List.flatMap_cons

/-- Bytes are encoded as they are. -/
@[simp] theorem encodeAll_u8 (bytes : Bytes) : encodeAll u8 bytes = bytes :=
  List.flatMap_singleton' bytes

@[simp] theorem encode_rawBytes {n : Nat} (v : Fixed UInt8 n) : (rawBytes n).encode v = v.toList :=
  encodeAll_u8 v.toList

theorem fitsAll_of_always (l : List α) (rest : Bytes) : FitsAll c AlwaysFits l rest := by
  induction l with
  | nil => trivial
  | cons x xs ih => exact ⟨trivial, ih⟩

/-- A number of elements is read back. -/
theorem Law.many (h : c.Law F P) {l : List α} {n : Nat} (hn : l.length = n) (rest : Bytes)
    (hfits : FitsAll c F l rest) :
    ∃ ws, (decodeMany c n (encodeAll c l ++ rest)).result = .ok (ws, rest) ∧
      PlainAll P ws.toList ∧ (PlainAll P l → ws.toList = l) := by
  induction l generalizing n with
  | nil =>
      obtain rfl : n = 0 := hn.symm
      exact ⟨⟨[], rfl⟩, rfl, fun x hx => absurd hx List.not_mem_nil, fun _ => rfl⟩
  | cons x xs ih =>
      obtain rfl : n = xs.length + 1 := hn.symm
      obtain ⟨hx, hxs⟩ := hfits
      obtain ⟨w, hread, hplain, heq⟩ := h.reads x _ hx
      obtain ⟨ws, hreads, hplains, heqs⟩ := ih rfl hxs
      refine ⟨⟨w :: ws.toList, congrArg Nat.succ ws.length_eq⟩, ?_, ?_, ?_⟩
      · rw [encodeAll_cons, List.append_assoc, decodeMany, result_andThen_ok hread,
          result_map_ok hreads]
      · exact List.forall_mem_cons.mpr ⟨hplain, hplains⟩
      · intro hall
        obtain ⟨hpx, hpxs⟩ := List.forall_mem_cons.mp hall
        show w :: ws.toList = x :: xs
        rw [heq hpx, heqs hpxs]

theorem Law.many_fails (h : c.Law F P) {l : List α} {n : Nat} (hn : l.length = n) (rest : Bytes)
    (hnot : ¬ FitsAll c F l rest) :
    ∃ stop, (decodeMany c n (encodeAll c l ++ rest)).result = .error stop := by
  induction l generalizing n with
  | nil => exact absurd trivial hnot
  | cons x xs ih =>
      obtain rfl : n = xs.length + 1 := hn.symm
      rw [encodeAll_cons, List.append_assoc, decodeMany]
      by_cases hx : F x (encodeAll c xs ++ rest)
      · obtain ⟨w, hread, _⟩ := h.reads x _ hx
        obtain ⟨stop, hstop⟩ := ih rfl (fun hxs => hnot ⟨hx, hxs⟩)
        exact ⟨stop, by rw [result_andThen_ok hread, result_map_error hstop]⟩
      · obtain ⟨stop, hstop⟩ := h.fails x _ hx
        exact ⟨stop, result_andThen_error hstop⟩

theorem Law.array (h : c.Law F P) (len : Nat) :
    (array c len).Law (fun v rest => FitsAll c F v.toList rest) (fun v => PlainAll P v.toList) where
  reads := by
    intro v rest hv
    obtain ⟨ws, hread, hplain, heq⟩ := h.many v.length_eq rest hv
    exact ⟨ws, hread, hplain, fun hall => Fixed.ext_toList (heq hall)⟩
  fails := by
    intro v rest hnot
    exact h.many_fails v.length_eq rest hnot

theorem exact_rawBytes (len : Nat) : (rawBytes len).Exact := by
  intro v rest
  exact ((exact_u8.law.array len).roundTrip_iff v rest).mpr
    ⟨fitsAll_of_always _ _, fun _ _ => trivial⟩

/-- A number of bytes is taken off the input, if there are so many. -/
theorem result_decodeMany_u8 (n : Nat) (input : Bytes) :
    (decodeMany u8 n input).result =
      if h : n ≤ input.length then
        .ok (⟨input.take n, List.length_take_of_le h⟩, input.drop n)
      else .error .reject := by
  induction n generalizing input with
  | zero => rfl
  | succ n ih =>
      cases input with
      | nil => rfl
      | cons byte rest =>
          have hhead : (u8.decode (byte :: rest)).result = .ok (byte, rest) := rfl
          rw [decodeMany, result_andThen_ok hhead]
          have htail := ih rest
          by_cases h : n ≤ rest.length
          · rw [dif_pos h] at htail
            have hle : n + 1 ≤ (byte :: rest).length := Nat.succ_le_succ h
            rw [dif_pos hle, result_map_ok htail]
            rfl
          · rw [dif_neg h] at htail
            have hnot : ¬ n + 1 ≤ (byte :: rest).length := fun hle => h (Nat.le_of_succ_le_succ hle)
            rw [dif_neg hnot, result_map_error htail]

/-- The guard of a collection: no overflow, and enough bytes are left. -/
def Enough (scale len : Nat) (left : Bytes) : Prop :=
  len * scale < usizeSize ∧ len * scale ≤ left.length

theorem result_lengthGuarded {scale len : Nat} (hlen : len < usizeSize) {left : Bytes}
    (h : Enough scale len left) :
    (lengthGuarded scale (base128Encode len ++ left)).result = .ok (BitVec.ofNat 64 len, left) := by
  unfold lengthGuarded
  have hproduct : decide (usizeSize ≤ len * scale) = false := decide_eq_false (not_le.mpr h.1)
  rw [result_andThen_ok (result_usize hlen left)]
  simp only [toNat_ofNat_length hlen, hproduct]
  rw [result_andThen_ok result_noteOr, if_neg (not_lt.mpr h.2)]
  rfl

theorem lengthGuarded_fails {scale len : Nat} (hlen : len < usizeSize) {left : Bytes}
    (h : ¬ Enough scale len left) :
    ∃ stop, (lengthGuarded scale (base128Encode len ++ left)).result = .error stop := by
  unfold lengthGuarded
  rw [result_andThen_ok (result_usize hlen left)]
  simp only [toNat_ofNat_length hlen]
  by_cases hproduct : usizeSize ≤ len * scale
  · refine ⟨.fault .overflow, result_andThen_error ?_⟩
    simp only [noteOr, decide_eq_true hproduct, if_true]
  · have hshort : left.length < len * scale :=
      not_le.mp fun hle => h ⟨not_le.mp hproduct, hle⟩
    refine ⟨.reject, ?_⟩
    rw [decide_eq_false hproduct, result_andThen_ok result_noteOr, if_pos hshort]
    rfl

/-- Elements of at least one byte are enough for the guard of a sequence. -/
theorem enough_of_nonempty (hne : ∀ x, c.encode x ≠ []) {l : List α} (hlen : l.length < usizeSize)
    (rest : Bytes) : Enough 1 l.length (encodeAll c l ++ rest) := by
  have hle : l.length ≤ (encodeAll c l).length := by
    clear hlen
    induction l with
    | nil => exact Nat.zero_le _
    | cons x xs ih =>
        have hx := List.length_pos_iff.mpr (hne x)
        rw [encodeAll_cons, List.length_append, List.length_cons]
        omega
  rw [Enough, Nat.mul_one, List.length_append]
  exact ⟨hlen, by omega⟩

theorem result_reserve {layout : Layout} {n : Nat} (h : layout.bytes n ≤ isizeMax) {left : Bytes} :
    (reserve layout n left).result = .ok ((), left) := by
  unfold reserve
  rw [decide_eq_false (not_lt.mpr h)]
  rfl

/-- A collection with reserved memory. -/
theorem Law.reserved (h : c.Law F P) {scale : Nat} {layout : Layout} {l : List α}
    (hlen : l.length < usizeSize) (hlayout : layout.bytes l.length ≤ isizeMax) (rest : Bytes)
    (henough : Enough scale l.length (encodeAll c l ++ rest)) (hfits : FitsAll c F l rest) :
    ∃ ws, (reserved scale layout c (encodeCounted c l ++ rest)).result = .ok (ws, rest) ∧
      PlainAll P ws.toList ∧ (PlainAll P l → ws.toList = l) := by
  have htoNat := toNat_ofNat_length hlen
  obtain ⟨ws, hread, hplain, heq⟩ := h.many htoNat.symm rest hfits
  have hle : layout.bytes (BitVec.ofNat 64 l.length).toNat ≤ isizeMax := by rwa [htoNat]
  refine ⟨⟨ws.toList, ?_, ?_⟩, ?_, hplain, heq⟩
  · rw [ws.length_eq]
    exact (BitVec.ofNat 64 l.length).isLt
  · rwa [ws.length_eq]
  · unfold Codec.reserved encodeCounted
    rw [List.append_assoc, result_andThen_ok (result_lengthGuarded hlen henough),
      result_andThen_ok (result_reserve hle), result_andThen_ok hread, dif_pos hle]
    rfl

theorem Law.reserved_fails (h : c.Law F P) {scale : Nat} {layout : Layout} {l : List α}
    (hlen : l.length < usizeSize) (hlayout : layout.bytes l.length ≤ isizeMax) (rest : Bytes)
    (hnot : ¬ (Enough scale l.length (encodeAll c l ++ rest) ∧ FitsAll c F l rest)) :
    ∃ stop, (Codec.reserved scale layout c (encodeCounted c l ++ rest)).result = .error stop := by
  have htoNat := toNat_ofNat_length hlen
  unfold Codec.reserved encodeCounted
  rw [List.append_assoc]
  by_cases henough : Enough scale l.length (encodeAll c l ++ rest)
  · have hle : layout.bytes (BitVec.ofNat 64 l.length).toNat ≤ isizeMax := by rwa [htoNat]
    obtain ⟨stop, hstop⟩ := h.many_fails htoNat.symm rest (fun hfits => hnot ⟨henough, hfits⟩)
    refine ⟨stop, ?_⟩
    rw [result_andThen_ok (result_lengthGuarded hlen henough),
      result_andThen_ok (result_reserve hle), result_andThen_error hstop]
  · obtain ⟨stop, hstop⟩ := lengthGuarded_fails hlen henough
    exact ⟨stop, result_andThen_error hstop⟩

/-- A collection that grows. -/
theorem Law.unreserved (h : c.Law F P) {scale : Nat} {l : List α} (hlen : l.length < usizeSize)
    (rest : Bytes) (henough : Enough scale l.length (encodeAll c l ++ rest))
    (hfits : FitsAll c F l rest) :
    ∃ ws, (unreserved scale c (encodeCounted c l ++ rest)).result = .ok (ws, rest) ∧
      PlainAll P ws.1 ∧ (PlainAll P l → ws.1 = l) := by
  obtain ⟨ws, hread, hplain, heq⟩ := h.many (toNat_ofNat_length hlen).symm rest hfits
  refine ⟨⟨ws.toList, ?_⟩, ?_, hplain, heq⟩
  · rw [ws.length_eq]
    exact (BitVec.ofNat 64 l.length).isLt
  · unfold Codec.unreserved encodeCounted
    rw [List.append_assoc, result_andThen_ok (result_lengthGuarded hlen henough),
      result_map_ok hread]

theorem Law.unreserved_fails (h : c.Law F P) {scale : Nat} {l : List α}
    (hlen : l.length < usizeSize) (rest : Bytes)
    (hnot : ¬ (Enough scale l.length (encodeAll c l ++ rest) ∧ FitsAll c F l rest)) :
    ∃ stop, (Codec.unreserved scale c (encodeCounted c l ++ rest)).result = .error stop := by
  unfold Codec.unreserved encodeCounted
  rw [List.append_assoc]
  by_cases henough : Enough scale l.length (encodeAll c l ++ rest)
  · obtain ⟨stop, hstop⟩ := h.many_fails (toNat_ofNat_length hlen).symm rest
      (fun hfits => hnot ⟨henough, hfits⟩)
    refine ⟨stop, ?_⟩
    rw [result_andThen_ok (result_lengthGuarded hlen henough), result_map_error hstop]
  · obtain ⟨stop, hstop⟩ := lengthGuarded_fails hlen henough
    exact ⟨stop, result_andThen_error hstop⟩

/-! ### Collections -/

theorem Vec.ext_toList {layout : Layout} {v w : Vec layout α} (h : v.toList = w.toList) :
    v = w := by
  cases v
  cases w
  cases h
  rfl

theorem Law.vec (h : c.Law F P) (hne : ∀ x, c.encode x ≠ []) (layout : Layout) :
    (vec c layout).Law (fun v rest => FitsAll c F v.toList rest)
      (fun v => PlainAll P v.toList) where
  reads := by
    intro v rest hv
    obtain ⟨ws, hread, hplain, heq⟩ := h.reserved v.length_lt v.fits rest
      (enough_of_nonempty hne v.length_lt rest) hv
    exact ⟨ws, hread, hplain, fun hall => Vec.ext_toList (heq hall)⟩
  fails := by
    intro v rest hnot
    exact h.reserved_fails v.length_lt v.fits rest fun hv => hnot hv.2

theorem Law.vecDeque (h : c.Law F P) (hne : ∀ x, c.encode x ≠ []) (layout : Layout) :
    (vecDeque c layout).Law (fun v rest => FitsAll c F v.toList rest)
      (fun v => PlainAll P v.toList) := h.vec hne layout

/-- A length that is within the capacity leaves the elements to read. -/
theorem result_arrayVec {cap : Nat} (hcap : cap < usizeSize) (v : ArrayVec α cap) (rest : Bytes) :
    ∃ hle : (BitVec.ofNat 64 v.toList.length).toNat ≤ cap,
      ((arrayVec c cap).decode ((arrayVec c cap).encode v ++ rest)).result =
        ((decodeMany c (BitVec.ofNat 64 v.toList.length).toNat).map (pushAll hle)
          (encodeAll c v.toList ++ rest)).result := by
  have hlen : v.toList.length < usizeSize := lt_of_le_of_lt v.length_le hcap
  have hle : (BitVec.ofNat 64 v.toList.length).toNat ≤ cap := by
    rw [toNat_ofNat_length hlen]
    exact v.length_le
  refine ⟨hle, ?_⟩
  simp only [arrayVec, encodeCounted, List.append_assoc]
  rw [result_andThen_ok (result_usize hlen _), dif_neg (not_lt.mpr hle)]

theorem Law.arrayVec (h : c.Law F P) {cap : Nat} (hcap : cap < usizeSize) :
    (arrayVec c cap).Law (fun v rest => FitsAll c F v.toList rest)
      (fun v => PlainAll P v.toList) where
  reads := by
    intro v rest hv
    have hlen : v.toList.length < usizeSize := lt_of_le_of_lt v.length_le hcap
    obtain ⟨hle, hdecode⟩ := result_arrayVec (c := c) hcap v rest
    obtain ⟨ws, hread, hplain, heq⟩ := h.many (toNat_ofNat_length hlen).symm rest hv
    refine ⟨pushAll hle ws, hdecode.trans (result_map_ok hread), hplain, ?_⟩
    intro hall
    have hlist : (pushAll hle ws).toList = v.toList := heq hall
    cases v
    cases hpush : pushAll hle ws
    rw [hpush] at hlist
    cases hlist
    rfl
  fails := by
    intro v rest hnot
    have hlen : v.toList.length < usizeSize := lt_of_le_of_lt v.length_le hcap
    obtain ⟨hle, hdecode⟩ := result_arrayVec (c := c) hcap v rest
    obtain ⟨stop, hstop⟩ := h.many_fails (toNat_ofNat_length hlen).symm rest hnot
    exact ⟨stop, hdecode.trans (result_map_error hstop)⟩

theorem Exact.arrayVec (h : c.Exact) {cap : Nat} (hcap : cap < usizeSize) :
    (arrayVec c cap).Exact := by
  intro v rest
  exact ((h.law.arrayVec hcap).roundTrip_iff v rest).mpr
    ⟨fitsAll_of_always _ _, fun _ _ => trivial⟩

/-- Elements of at least one byte are read up to the end of the input. -/
theorem Exact.reminderVec (h : c.Exact) (hne : ∀ x, c.encode x ≠ []) (l : List α) :
    ((reminderVec c).decode ((reminderVec c).encode l)).result = .ok (l, []) := by
  show (decodeReminder c (encodeAll c l)).result = _
  induction l with
  | nil =>
      rw [decodeReminder, if_pos]
      rfl
  | cons x xs ih =>
      have hpos := List.length_pos_iff.mpr (hne x)
      have hsome : c.encode x ++ encodeAll c xs ≠ [] := by simp [hne x]
      have hless : (encodeAll c xs).length < (c.encode x ++ encodeAll c xs).length := by
        rw [List.length_append]
        omega
      rw [encodeAll_cons, decodeReminder, if_neg hsome, h x (encodeAll c xs)]
      simp only [if_pos hless, ih]
      rfl

theorem Law.hashSet [DecidableEq α] (h : c.Law F P) (hne : ∀ x, c.encode x ≠ [])
    (layout : Layout) :
    (hashSet c layout).Law (fun s rest => FitsAll c F s.toList rest)
      (fun s => PlainAll P s.toList) where
  reads := by
    intro s rest hs
    obtain ⟨ws, hread, hplain, heq⟩ := h.reserved s.length_lt s.fits rest
      (enough_of_nonempty hne s.length_lt rest) hs
    refine ⟨HashSet.ofVec ws, result_map_ok hread, ?_, ?_⟩
    · intro x hx
      exact hplain x (List.mem_dedup.mp hx)
    · intro hall
      have hlist : (HashSet.ofVec ws).toList = s.toList := by
        show ws.toList.dedup = s.toList
        rw [heq hall, s.nodup.dedup]
      cases s
      cases hset : HashSet.ofVec ws
      rw [hset] at hlist
      cases hlist
      rfl
  fails := by
    intro s rest hnot
    obtain ⟨stop, hstop⟩ := h.reserved_fails s.length_lt s.fits rest fun hs => hnot hs.2
    exact ⟨stop, result_map_error hstop⟩

/-- The elements of a set are its entries. -/
theorem entries_of_keys [LinearOrder α] (s : SortedMap α Unit) :
    s.keys.map (fun x => (x, ())) = s.entries := by
  rw [SortedMap.keys, List.map_map]
  exact List.map_id _

theorem Law.bTreeSet [LinearOrder α] (h : c.Law F P) (hne : ∀ x, c.encode x ≠ []) :
    (bTreeSet c).Law (fun s rest => FitsAll c F s.1.keys rest)
      (fun s => PlainAll P s.1.keys) where
  reads := by
    intro s rest hs
    have hlen : s.1.keys.length < usizeSize := by
      rw [SortedMap.keys, List.length_map]
      exact s.2
    obtain ⟨ws, hread, hplain, heq⟩ := h.unreserved hlen rest (enough_of_nonempty hne hlen rest) hs
    refine ⟨_, result_map_ok hread, ?_, ?_⟩
    · intro x hx
      obtain ⟨e, he, rfl⟩ := List.mem_map.mp hx
      obtain ⟨y, hy, rfl⟩ := List.mem_map.mp (SortedMap.mem_of_mem_ofList he)
      exact hplain y hy
    · intro hall
      refine Subtype.ext ?_
      show SortedMap.ofList (ws.1.map fun x => (x, ())) = s.1
      rw [heq hall, entries_of_keys, SortedMap.ofList_entries]
  fails := by
    intro s rest hnot
    have hlen : s.1.keys.length < usizeSize := by
      rw [SortedMap.keys, List.length_map]
      exact s.2
    obtain ⟨stop, hstop⟩ := h.unreserved_fails hlen rest fun hs => hnot hs.2
    exact ⟨stop, result_map_error hstop⟩

theorem Law.hashMap [DecidableEq α] {d : Codec β} {F : α × β → Bytes → Prop} {P : α × β → Prop}
    (h : (Codec.pair c d).Law F P) (layout : Layout) :
    (hashMap c d layout).Law
      (fun m rest => Enough 2 m.entries.length (encodeAll (Codec.pair c d) m.entries ++ rest) ∧
        FitsAll (Codec.pair c d) F m.entries rest)
      (fun m => PlainAll P m.entries) where
  reads := by
    intro m rest hm
    obtain ⟨ws, hread, hplain, heq⟩ := h.reserved m.length_lt m.fits rest hm.1 hm.2
    refine ⟨HashMap.ofVec ws, result_map_ok hread, ?_, ?_⟩
    · intro e he
      exact hplain e (KeyedList.mem_of_mem_ofList he)
    · intro hall
      have hlist : (HashMap.ofVec ws).entries = m.entries := by
        show KeyedList.ofList ws.toList = m.entries
        rw [heq hall, KeyedList.ofList_of_nodup m.nodup]
      cases m
      cases hmap : HashMap.ofVec ws
      rw [hmap] at hlist
      cases hlist
      rfl
  fails := by
    intro m rest hnot
    obtain ⟨stop, hstop⟩ := h.reserved_fails m.length_lt m.fits rest hnot
    exact ⟨stop, result_map_error hstop⟩

theorem Law.bTreeMap [LinearOrder α] {d : Codec β} {F : α × β → Bytes → Prop} {P : α × β → Prop}
    (h : (Codec.pair c d).Law F P) :
    (bTreeMap c d).Law
      (fun m rest => Enough 2 m.1.entries.length (encodeAll (Codec.pair c d) m.1.entries ++ rest) ∧
        FitsAll (Codec.pair c d) F m.1.entries rest)
      (fun m => PlainAll P m.1.entries) where
  reads := by
    intro m rest hm
    obtain ⟨ws, hread, hplain, heq⟩ := h.unreserved m.2 rest hm.1 hm.2
    refine ⟨_, result_map_ok hread, ?_, ?_⟩
    · intro e he
      exact hplain e (SortedMap.mem_of_mem_ofList he)
    · intro hall
      refine Subtype.ext ?_
      show SortedMap.ofList ws.1 = m.1
      rw [heq hall, SortedMap.ofList_entries]
  fails := by
    intro m rest hnot
    obtain ⟨stop, hstop⟩ := h.unreserved_fails m.2 rest hnot
    exact ⟨stop, result_map_error hstop⟩

end Sequences

/-! ### Addresses -/

theorem exact_ipAddr : ipAddr.Exact := by
  intro a rest
  cases a with
  | v4 octets =>
      simp only [ipAddr, List.append_assoc]
      rw [result_andThen_ok (exact_u8 0 _), if_pos rfl,
        result_map_ok (exact_rawBytes 4 octets rest)]
  | v6 octets =>
      simp only [ipAddr, List.append_assoc]
      rw [result_andThen_ok (exact_u8 1 _), if_neg (by decide), if_pos rfl,
        result_map_ok (exact_rawBytes 16 octets rest)]

/-- An address without a flow and a scope. -/
def SocketAddr.IsPlain : SocketAddr → Prop
  | v4 _ _ => True
  | v6 _ _ flowinfo scopeId => flowinfo = 0 ∧ scopeId = 0

/-- The flow and the scope of an address are not encoded. -/
theorem law_socketAddr : socketAddr.Law AlwaysFits SocketAddr.IsPlain where
  reads := by
    intro a rest _
    refine ⟨SocketAddr.new a.ip a.port, ?_, ?_, ?_⟩
    · simp only [socketAddr, List.append_assoc]
      rw [result_andThen_ok (exact_ipAddr a.ip _),
        result_map_ok (exact_uint (by decide) a.port rest)]
    · cases a with
      | v4 octets port => trivial
      | v6 octets port flowinfo scopeId => exact ⟨rfl, rfl⟩
    · intro hplain
      cases a with
      | v4 octets port => rfl
      | v6 octets port flowinfo scopeId =>
          obtain ⟨rfl, rfl⟩ := hplain
          rfl
  fails _ _ hnot := absurd trivial hnot

end Codec

end OnionNetwork

/-! ## Decoders that return -/

namespace OnionNetwork.Codec

open Lib Parser

variable {α β : Type} {p : Decoder α} {f : α → Decoder β} {input : Bytes}

/-- The run does not end in a fault. -/
def NoFault (r : Run UInt8 DecodeEvent DecodeFault α) : Prop :=
  ∀ f, r.result ≠ .error (.fault f)

theorem noFault_accept (a : α) : NoFault ((accept a : Decoder α) input) := nofun

theorem noFault_reject : NoFault ((reject : Decoder α) input) := nofun

theorem NoFault.andThen (hp : NoFault (p input))
    (hf : ∀ a rest, (p input).result = .ok (a, rest) → NoFault (f a rest)) :
    NoFault (p.andThen f input) := by
  cases h : (p input).result with
  | error stop =>
      intro f' hfault
      rw [result_andThen_error h] at hfault
      exact hp f' (h.trans (congrArg Except.error (Except.error.inj hfault)))
  | ok r =>
      intro f' hfault
      rw [result_andThen_ok h] at hfault
      exact hf r.1 r.2 h f' hfault

theorem NoFault.map {g : α → β} (hp : NoFault (p input)) : NoFault (p.map g input) :=
  hp.andThen fun _ _ _ => noFault_accept _

theorem noFault_splitAt {n : Nat} (h : n ≤ input.length) : NoFault (splitAt n input) := by
  refine NoFault.andThen ?_ fun _ _ _ => noFault_accept _
  rw [decide_eq_false (not_lt.mpr h)]
  exact nofun

theorem noFault_base128DecodeFrom {bytes : Bytes} {advanced shift value : Nat}
    (hlen : advanced + bytes.length ≤ input.length) (hshift : shift + 7 * bytes.length ≤ 70) :
    NoFault (base128DecodeFrom bytes advanced shift value input) := by
  induction bytes generalizing advanced shift value with
  | nil => exact noFault_reject
  | cons byte bytes ih =>
      rw [List.length_cons] at hlen hshift
      have hlt : shift < 64 := by omega
      rw [base128DecodeFrom, decide_eq_false (not_le.mpr hlt)]
      refine NoFault.andThen nofun fun _ rest hnote => ?_
      rw [result_noteOr] at hnote
      cases hnote
      show NoFault (ite _ (map _ _) _ _)
      split
      · exact (noFault_splitAt (by omega)).map
      · exact ih (by omega) (by omega)

theorem noFault_uint (width : Nat) (input : Bytes) : NoFault ((uint width).decode input) := by
  have hle := List.length_take_le 10 input
  have hle' := List.length_take_le' 10 input
  refine NoFault.andThen (noFault_base128DecodeFrom (by omega) (by omega)) fun n rest _ => ?_
  show NoFault ((ite _ (accept _) reject) rest)
  split
  · exact noFault_accept _
  · exact noFault_reject

theorem noFault_decodeMany_u8 (n : Nat) (input : Bytes) : NoFault (decodeMany u8 n input) := by
  intro f h
  rw [result_decodeMany_u8] at h
  split at h <;> cases h

theorem noFault_byteSlice (input : Bytes) : NoFault (byteSlice.decode input) := by
  refine (noFault_uint 64 input).andThen fun len rest _ => ?_
  show NoFault (ite _ (reject rest) _)
  split
  · exact noFault_reject
  · next henough =>
      refine (noFault_splitAt (not_lt.mp henough)).andThen fun bytes rest _ => ?_
      show NoFault (dite _ _ _)
      split
      · exact noFault_accept _
      · exact noFault_reject

/-! ### Composites -/

variable {c : Codec α} {d : Codec β}

theorem noFault_pair (hc : ∀ input, NoFault (c.decode input))
    (hd : ∀ input, NoFault (d.decode input)) (input : Bytes) :
    NoFault ((pair c d).decode input) :=
  (hc input).andThen fun _ rest _ => (hd rest).map

theorem noFault_iso (hc : ∀ input, NoFault (c.decode input)) (e : α ≃ β) (input : Bytes) :
    NoFault ((iso c e).decode input) := (hc input).map

theorem noFault_arrayVec_u8 (cap : Nat) (input : Bytes) :
    NoFault ((arrayVec u8 cap).decode input) := by
  refine (noFault_uint 64 input).andThen fun len rest _ => ?_
  by_cases h : cap < len.toNat
  · rw [dif_pos h]
    exact noFault_reject
  · rw [dif_neg h]
    exact (noFault_decodeMany_u8 _ rest).map

end OnionNetwork.Codec
