import OnionNetwork.Codec.Reached

/-!
# Codecs

`Built` are the codecs of the types built from the integers, byte strings,
addresses, products, sums and collections, each with what its values have to satisfy
to be read back. `round_trip_iff`: exactly these are read back, and what follows
them is left. Only two things can go wrong: the flow and the scope of an IPv6 socket
address are not encoded, and a map wants two bytes for each of its entries.

`Wire` are the codecs of all types of the crate. `decode_total_iff`: on any input a
decoder returns, with memory reserved for at most as many elements as there are bytes
left, unless it meets one of three things: twice the length of a map is no `usize`, a
reservation is above the largest allocation, or an element of a `ReminderVec` takes no
byte. Shifts and slices are always in range.
-/

/-! ## The round trip -/

namespace OnionNetwork.Codec

open Lib Parser

/-- The types, by their codecs: when a value fits the bytes behind it,
and when it is plain. Elements of sequences and entries of maps take at least one
byte. -/
inductive Built : {α : Type} → Codec α → (α → Bytes → Prop) → (α → Prop) → Prop
  | bool : Built bool AlwaysFits AlwaysPlain
  | u8 : Built u8 AlwaysFits AlwaysPlain
  /-- `u16`, `u32`, `u64`, `usize`. -/
  | uint {width : Nat} (hwidth : width ≤ 64) : Built (uint width) AlwaysFits AlwaysPlain
  | unit : Built unit AlwaysFits AlwaysPlain
  | byteSlice : Built byteSlice AlwaysFits AlwaysPlain
  | str : Built str AlwaysFits AlwaysPlain
  | arrayString (cap : Nat) : Built (arrayString cap) AlwaysFits AlwaysPlain
  | ipAddr : Built ipAddr AlwaysFits AlwaysPlain
  | socketAddr : Built socketAddr AlwaysFits SocketAddr.IsPlain
  /-- Tuples, the fields of structs and variants. -/
  | pair {α β : Type} {c : Codec α} {d : Codec β} {F P G Q} (hc : Built c F P)
      (hd : Built d G Q) :
      Built (pair c d) (fun v rest => F v.1 (d.encode v.2 ++ rest) ∧ G v.2 rest)
        (fun v => P v.1 ∧ Q v.2)
  | range {α : Type} {c : Codec α} {F P} (hc : Built c F P) :
      Built (range c) (fun v rest => F v.1 (c.encode v.2 ++ rest) ∧ F v.2 rest)
        (fun v => P v.1 ∧ P v.2)
  /-- A tuple or a struct as its fields. -/
  | iso {α β : Type} {c : Codec α} {F P} (hc : Built c F P) (e : α ≃ β) :
      Built (iso c e) (fun v rest => F (e.symm v) rest) (fun v => P (e.symm v))
  /-- A derived enum. -/
  | enum {n : Nat} {γ : Fin n → Type} {variants : ∀ i, Codec (γ i)}
      {F : ∀ i, γ i → Bytes → Prop} {P : ∀ i, γ i → Prop} (hn : n ≤ 256)
      (h : ∀ i, Built (variants i) (F i) (P i)) :
      Built (enum variants) (fun v rest => F v.1 v.2 rest) (fun v => P v.1 v.2)
  | option {α : Type} {c : Codec α} {F P} (hc : Built c F P) :
      Built (option c) (fun v rest => ∀ x, v = some x → F x rest)
        (fun v => ∀ x, v = some x → P x)
  | result {α β : Type} {c : Codec α} {d : Codec β} {F P G Q} (hc : Built c F P)
      (hd : Built d G Q) :
      Built (result c d) (fun v rest => Sum.elim (fun x => F x rest) (fun y => G y rest) v)
        (Sum.elim P Q)
  | array {α : Type} {c : Codec α} {F P} (hc : Built c F P) (len : Nat) :
      Built (array c len) (fun v rest => FitsAll c F v.toList rest)
        (fun v => PlainAll P v.toList)
  | arrayVec {α : Type} {c : Codec α} {F P} (hc : Built c F P) {cap : Nat}
      (hcap : cap < usizeSize) :
      Built (arrayVec c cap) (fun v rest => FitsAll c F v.toList rest)
        (fun v => PlainAll P v.toList)
  | vec {α : Type} {c : Codec α} {F P} (hc : Built c F P) (hne : ∀ x, c.encode x ≠ [])
      (layout : Layout) :
      Built (vec c layout) (fun v rest => FitsAll c F v.toList rest)
        (fun v => PlainAll P v.toList)
  | vecDeque {α : Type} {c : Codec α} {F P} (hc : Built c F P) (hne : ∀ x, c.encode x ≠ [])
      (layout : Layout) :
      Built (vecDeque c layout) (fun v rest => FitsAll c F v.toList rest)
        (fun v => PlainAll P v.toList)
  | hashSet {α : Type} [DecidableEq α] {c : Codec α} {F P} (hc : Built c F P)
      (hne : ∀ x, c.encode x ≠ []) (layout : Layout) :
      Built (hashSet c layout) (fun s rest => FitsAll c F s.toList rest)
        (fun s => PlainAll P s.toList)
  | bTreeSet {α : Type} [LinearOrder α] {c : Codec α} {F P} (hc : Built c F P)
      (hne : ∀ x, c.encode x ≠ []) :
      Built (bTreeSet c) (fun s rest => FitsAll c F s.1.keys rest)
        (fun s => PlainAll P s.1.keys)
  | hashMap {α β : Type} [DecidableEq α] {c : Codec α} {d : Codec β} {F P}
      (h : Built (Codec.pair c d) F P) (hne : ∀ e, (Codec.pair c d).encode e ≠ [])
      (layout : Layout) :
      Built (hashMap c d layout)
        (fun m rest => Enough 2 m.entries.length (encodeAll (Codec.pair c d) m.entries ++ rest) ∧
          FitsAll (Codec.pair c d) F m.entries rest)
        (fun m => PlainAll P m.entries)
  | bTreeMap {α β : Type} [LinearOrder α] {c : Codec α} {d : Codec β} {F P}
      (h : Built (Codec.pair c d) F P) (hne : ∀ e, (Codec.pair c d).encode e ≠ []) :
      Built (bTreeMap c d)
        (fun m rest =>
          Enough 2 m.1.entries.length (encodeAll (Codec.pair c d) m.1.entries ++ rest) ∧
          FitsAll (Codec.pair c d) F m.1.entries rest)
        (fun m => PlainAll P m.1.entries)

/-- Every built codec obeys its law. -/
theorem Built.law {α : Type} {c : Codec α} {F : α → Bytes → Prop} {P : α → Prop}
    (h : Built c F P) : c.Law F P := by
  induction h with
  | bool => exact exact_bool.law
  | u8 => exact exact_u8.law
  | uint hwidth => exact (exact_uint hwidth).law
  | unit => exact exact_unit.law
  | byteSlice => exact exact_byteSlice.law
  | str => exact exact_str.law
  | arrayString cap => exact (exact_arrayString cap).law
  | ipAddr => exact exact_ipAddr.law
  | socketAddr => exact law_socketAddr
  | pair _ _ ihc ihd => exact ihc.pair ihd
  | range _ ihc => exact ihc.pair ihc
  | iso _ e ihc => exact ihc.iso e
  | enum hn _ ih => exact Law.enum hn ih
  | option _ ihc => exact ihc.option
  | result _ _ ihc ihd => exact ihc.result ihd
  | array _ len ihc => exact ihc.array len
  | arrayVec _ hcap ihc => exact ihc.arrayVec hcap
  | vec _ hne layout ihc => exact ihc.vec hne layout
  | vecDeque _ hne layout ihc => exact ihc.vecDeque hne layout
  | hashSet _ hne layout ihc => exact ihc.hashSet hne layout
  | bTreeSet _ hne ihc => exact ihc.bTreeSet hne
  | hashMap _ _ layout ih => exact ih.hashMap layout
  | bTreeMap _ _ ih => exact ih.bTreeMap

/-- **The round trip.** An encoded value with other bytes behind it is decoded to the
value and leaves these bytes, exactly where it fits them and is plain. -/
theorem round_trip_iff {α : Type} {c : Codec α} {F : α → Bytes → Prop} {P : α → Prop}
    (h : Built c F P) (v : α) (rest : Bytes) :
    (c.decode (c.encode v ++ rest)).result = .ok (v, rest) ↔ F v rest ∧ P v :=
  h.law.roundTrip_iff v rest

/-! ### Examples -/

/-- A sequence of flags and counters. -/
def flags : Vec (Layout.array 4) (Bool × BitVec 16) :=
  ⟨[(true, 300), (false, 5)], by decide, by decide⟩

theorem round_trip_flags :
    ((vec (pair bool (uint 16)) (Layout.array 4)).decode
      ((vec (pair bool (uint 16)) (Layout.array 4)).encode flags ++ [7])).result =
        .ok (flags, [7]) := by
  have hbuilt := Built.vec (Built.pair .bool (@Built.uint 16 (by decide)))
    (fun e => List.append_ne_nil_of_left_ne_nil (List.cons_ne_nil _ _) _) (Layout.array 4)
  refine (round_trip_iff hbuilt flags [7]).mpr ⟨?_, fun _ _ => ⟨trivial, trivial⟩⟩
  exact ⟨⟨trivial, trivial⟩, ⟨trivial, trivial⟩, trivial⟩

/-- An address with a flow. -/
def flowing : SocketAddr := .v6 ⟨List.replicate 16 0, rfl⟩ 80 1 0

/-- A map of one entry of one byte. -/
def singleEntry : HashMap (Layout.array 2) UInt8 Unit :=
  ⟨[(5, ())], by decide, by decide, by decide⟩

/-- The flow of the address is lost, and the map is not read back. -/
theorem round_trip_lost :
    (socketAddr.decode (socketAddr.encode flowing ++ [])).result ≠ .ok (flowing, []) ∧
      ((hashMap u8 unit (Layout.array 2)).decode
        ((hashMap u8 unit (Layout.array 2)).encode singleEntry ++ [])).result ≠
          .ok (singleEntry, []) := by
  constructor
  · intro hread
    have hplain := ((law_socketAddr.roundTrip_iff flowing []).mp hread).2
    exact absurd hplain.1 (by decide)
  · intro hread
    have hlaw := (exact_u8.law.pair exact_unit.law).hashMap (Layout.array 2)
    have henough := ((hlaw.roundTrip_iff singleEntry []).mp hread).1.1
    exact absurd henough.2 (by decide)

end OnionNetwork.Codec

/-! ## Hostile input -/

namespace OnionNetwork.Codec

open Lib Parser

/-- The types of the crate, by their codecs. -/
inductive Wire : {α : Type} → Codec α → Type 1
  | bool : Wire bool
  | u8 : Wire u8
  /-- `u16`, `u32`, `u64`, `u128`, `usize`. -/
  | uint (width : Nat) : Wire (uint width)
  | unit : Wire unit
  | infallible : Wire infallible
  | byteSlice : Wire byteSlice
  /-- Strings, and other values with a check behind them. -/
  | checked {α : Type} {c : Codec α} (hc : Wire c) (p : α → Prop) [DecidablePred p] :
      Wire (checked c p)
  | reminder : Wire reminder
  | errorKind : Wire errorKind
  | ipAddr : Wire ipAddr
  | socketAddr : Wire socketAddr
  /-- Tuples, `Range`, the fields of structs and variants. -/
  | pair {α β : Type} {c : Codec α} {d : Codec β} (hc : Wire c) (hd : Wire d) : Wire (pair c d)
  | skip {α : Type} (default : α) : Wire (skip default)
  | iso {α β : Type} {c : Codec α} (hc : Wire c) (e : α ≃ β) : Wire (iso c e)
  | enum {n : Nat} {γ : Fin n → Type} {variants : ∀ i, Codec (γ i)}
      (h : ∀ i, Wire (variants i)) : Wire (enum variants)
  | option {α : Type} {c : Codec α} (hc : Wire c) : Wire (option c)
  | result {α β : Type} {c : Codec α} {d : Codec β} (hc : Wire c) (hd : Wire d) :
      Wire (result c d)
  | array {α : Type} {c : Codec α} (hc : Wire c) (len : Nat) : Wire (array c len)
  | arrayVec {α : Type} {c : Codec α} (hc : Wire c) (cap : Nat) : Wire (arrayVec c cap)
  | vec {α : Type} {c : Codec α} (hc : Wire c) (layout : Layout) : Wire (vec c layout)
  | vecDeque {α : Type} {c : Codec α} (hc : Wire c) (layout : Layout) :
      Wire (vecDeque c layout)
  | reminderVec {α : Type} {c : Codec α} (hc : Wire c) : Wire (reminderVec c)
  | hashSet {α : Type} [DecidableEq α] {c : Codec α} (hc : Wire c) (layout : Layout) :
      Wire (hashSet c layout)
  | bTreeSet {α : Type} [LinearOrder α] {c : Codec α} (hc : Wire c) : Wire (bTreeSet c)
  | hashMap {α β : Type} [DecidableEq α] {c : Codec α} {d : Codec β} (hc : Wire c)
      (hd : Wire d) (layout : Layout) : Wire (hashMap c d layout)
  | bTreeMap {α β : Type} [LinearOrder α] {c : Codec α} {d : Codec β} (hc : Wire c)
      (hd : Wire d) : Wire (bTreeMap c d)

/-- Every decoder of the crate is honest. -/
theorem Wire.isHonest {α : Type} {c : Codec α} (h : Wire c) : IsHonest c.decode := by
  induction h with
  | bool => exact isHonest_bool
  | u8 => exact isHonest_takeFirst
  | uint width => exact isHonest_uint width
  | unit => exact isHonest_accept ()
  | infallible => exact isHonest_reject
  | byteSlice => exact isHonest_byteSlice
  | checked _ p ihc => exact ihc.checked p
  | reminder =>
      intro input
      exact isHonest_accept input []
  | errorKind => exact isHonest_errorKind
  | ipAddr => exact isHonest_ipAddr
  | socketAddr => exact isHonest_socketAddr
  | pair _ _ ihc ihd => exact ihc.pair ihd
  | skip default => exact isHonest_accept default
  | iso _ e ihc => exact ihc.map e
  | enum _ ih => exact isHonest_enum ih
  | option _ ihc => exact ihc.option
  | result _ _ ihc ihd => exact ihc.result ihd
  | array _ len ihc => exact ihc.decodeMany len
  | arrayVec _ cap ihc => exact ihc.arrayVec cap
  | vec _ layout ihc => exact ihc.reserved (by decide) layout
  | vecDeque _ layout ihc => exact ihc.reserved (by decide) layout
  | reminderVec _ ihc => exact ihc.reminderVec
  | hashSet _ layout ihc => exact (ihc.reserved (by decide) layout).map _
  | bTreeSet _ ihc => exact (ihc.unreserved 1).map _
  | hashMap _ _ layout ihc ihd => exact ((ihc.pair ihd).reserved (by decide) layout).map _
  | bTreeMap _ _ ihc ihd => exact ((ihc.pair ihd).unreserved 2).map _

/-- The decoder returns, with shifts and slices in range and no more reserved than
there are bytes left. -/
structure Total {α : Type} (c : Codec α) (input : Bytes) : Prop where
  returns : ∀ f, (c.decode input).result ≠ .error (.fault f)
  shifts : ∀ bits, DecodeEvent.shift bits ∈ (c.decode input).log → bits < 64
  slices : ∀ index len, DecodeEvent.slice index len ∈ (c.decode input).log → index ≤ len
  reserves : ∀ elements bytes left,
    DecodeEvent.reserve elements bytes left ∈ (c.decode input).log → elements ≤ left

/-- The input is harmless for the type: of the places that its decoder reaches, no map begins
with a length that is no `usize` when it is doubled, no collection with one whose elements are
above the largest allocation, and each element of a `ReminderVec` takes a byte. -/
def Wire.Harmless : {α : Type} → {c : Codec α} → Wire c → Bytes → Prop
  | _, _, .bool, _ => True
  | _, _, .u8, _ => True
  | _, _, .uint _, _ => True
  | _, _, .unit, _ => True
  | _, _, .infallible, _ => True
  | _, _, .byteSlice, _ => True
  | _, _, @Wire.checked _ _ hc _ _, input => hc.Harmless input
  | _, _, .reminder, _ => True
  | _, _, .errorKind, _ => True
  | _, _, .ipAddr, _ => True
  | _, _, .socketAddr, _ => True
  | _, _, @Wire.pair _ _ c _ hc hd, input => Both c hc.Harmless hd.Harmless input
  | _, _, .skip _, _ => True
  | _, _, .iso hc _, input => hc.Harmless input
  | _, _, @Wire.enum n _ _ h, input => ∀ byte rest, input = byte :: rest →
      ∀ hlt : byte.toNat < n, (h ⟨byte.toNat, hlt⟩).Harmless rest
  | _, _, .option hc, input => ∀ rest, input = 1 :: rest → hc.Harmless rest
  | _, _, .result hc hd, input =>
      (∀ rest, input = 1 :: rest → hc.Harmless rest) ∧ ∀ rest, input = 0 :: rest → hd.Harmless rest
  | _, _, @Wire.array _ c hc len, input => Each c hc.Harmless len input
  | _, _, @Wire.arrayVec _ c hc cap, input => ∀ len left,
      (usize.decode input).result = .ok (len, left) → len.toNat ≤ cap →
        Each c hc.Harmless len.toNat left
  | _, _, @Wire.vec _ c hc layout, input => Counted 1 layout.Allocates c hc.Harmless input
  | _, _, @Wire.vecDeque _ c hc layout, input => Counted 1 layout.Allocates c hc.Harmless input
  | _, _, @Wire.reminderVec _ c hc, input => Remaining c hc.Harmless input
  | _, _, @Wire.hashSet _ _ c hc layout, input => Counted 1 layout.Allocates c hc.Harmless input
  | _, _, @Wire.bTreeSet _ _ c hc, input => Counted 1 (fun _ => True) c hc.Harmless input
  | _, _, @Wire.hashMap _ _ _ c d hc hd layout, input =>
      Counted 2 layout.Allocates (Codec.pair c d) (Both c hc.Harmless hd.Harmless) input
  | _, _, @Wire.bTreeMap _ _ _ c d hc hd, input =>
      Counted 2 (fun _ => True) (Codec.pair c d) (Both c hc.Harmless hd.Harmless) input

/-- The decoder is clean on exactly the inputs that are harmless. -/
theorem Wire.harmless_iff {α : Type} {c : Codec α} (h : Wire c) (input : Bytes) :
    CleanOn c.decode input ↔ h.Harmless input := by
  induction h generalizing input with
  | bool => exact iff_of_true (cleanOn_bool input) trivial
  | u8 => exact iff_of_true (cleanOn_takeFirst input) trivial
  | uint width => exact iff_of_true (cleanOn_uint width input) trivial
  | unit => exact iff_of_true clean_accept trivial
  | infallible => exact iff_of_true (fun _ he => absurd he List.not_mem_nil) trivial
  | byteSlice => exact iff_of_true (cleanOn_byteSlice input) trivial
  | checked _ p ihc => exact cleanOn_checked_iff.trans (ihc input)
  | reminder => exact iff_of_true (fun _ he => absurd he List.not_mem_nil) trivial
  | errorKind => exact iff_of_true (cleanOn_errorKind input) trivial
  | ipAddr => exact iff_of_true (cleanOn_ipAddr input) trivial
  | socketAddr => exact iff_of_true (cleanOn_socketAddr input) trivial
  | pair _ _ ihc ihd => exact cleanOn_pair_iff ihc ihd
  | skip default => exact iff_of_true clean_accept trivial
  | iso _ e ihc => exact clean_map_iff.trans (ihc input)
  | enum _ ih => exact cleanOn_enum_iff ih
  | option _ ihc => exact cleanOn_option_iff ihc
  | result _ _ ihc ihd => exact cleanOn_result_iff ihc ihd
  | array _ len ihc => exact cleanOn_decodeMany_iff ihc len input
  | arrayVec _ cap ihc => exact cleanOn_arrayVec_iff ihc
  | vec _ layout ihc => exact cleanOn_reserved_iff ihc
  | vecDeque _ layout ihc => exact cleanOn_reserved_iff ihc
  | reminderVec _ ihc => exact cleanOn_reminderVec_iff ihc input
  | hashSet _ layout ihc => exact clean_map_iff.trans (cleanOn_reserved_iff ihc)
  | bTreeSet _ ihc => exact clean_map_iff.trans (cleanOn_unreserved_iff ihc)
  | hashMap _ _ layout ihc ihd =>
      exact clean_map_iff.trans (cleanOn_reserved_iff fun input => cleanOn_pair_iff ihc ihd)
  | bTreeMap _ _ ihc ihd =>
      exact clean_map_iff.trans (cleanOn_unreserved_iff fun input => cleanOn_pair_iff ihc ihd)

/-- **Decoders are total** exactly on what is harmless. -/
theorem decode_total_iff {α : Type} {c : Codec α} (h : Wire c) (input : Bytes) :
    Total c input ↔ h.Harmless input := by
  have hhonest := h.isHonest input
  rw [← h.harmless_iff, CleanOn, hhonest.clean_iff]
  constructor
  · exact Total.returns
  · intro hreturns
    constructor
    · exact hreturns
    · intro bits he
      exact hhonest.kept _ he
    · intro index len he
      exact hhonest.kept _ he
    · intro elements bytes left he
      exact hhonest.kept _ he

/-! ### Examples -/

/-- A map of one entry: one is its length, doubled it is within the input, and two bytes are
reserved. -/
theorem decode_total_entry : Total (hashMap u8 u8 (Layout.array 2)) [1, 2, 3] := by
  refine (decode_total_iff (.hashMap .u8 .u8 _) [1, 2, 3]).mpr fun len left hlen => ?_
  have hread : (usize.decode [1, 2, 3]).result = .ok (1, [2, 3]) := by decide
  obtain ⟨rfl, rfl⟩ := Prod.mk.inj (Except.ok.inj (hread.symm.trans hlen))
  refine ⟨by decide, fun _ => ⟨by decide, ⟨trivial, fun _ _ _ => trivial⟩, fun _ _ _ => trivial⟩⟩

/-- The length `2 ^ 63`. -/
def longLength : Bytes := List.replicate 9 0x80 ++ [1]

/-- Twice the length of the map overflows. -/
theorem decode_not_total : ¬ Total (hashMap u8 u8 (Layout.array 2)) longLength := by
  intro htotal
  exact htotal.returns .overflow (by rfl)

end OnionNetwork.Codec
