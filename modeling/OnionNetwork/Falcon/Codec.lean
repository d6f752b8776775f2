import OnionNetwork.Lib.Bits
import OnionNetwork.Lib.InPlace
import Mathlib.Tactic.IntervalCases

/-!
# The codecs of keys

`modq_encode` and `modq_decode` for public keys, `trim_i8_encode` and `trim_i8_decode` for secret
keys. All go through an accumulator of 32 bits: the bits that are waiting in it, and the bytes
behind the cursor, are one string of bits (`fieldLoop_spec`), which the loops read as code words.

The result 0 of the source is `none`. The output is not a null pointer, and an entry that is
decoded is appended.
-/

namespace OnionNetwork.Falcon

open Lib Lib.Bits

/-! ## Writing -/

/-- `while acc_len >= 8 { acc_len -= 8; *buf++ = (acc >> acc_len) as u8; }` -/
def flush (acc : UInt32) (accLen : Nat) (buf : List UInt8) : Nat × List UInt8 :=
  if 8 ≤ accLen then
    flush acc (accLen - 8) (buf ++ [(acc >>> UInt32.ofNat (accLen - 8)).toUInt8])
  else (accLen, buf)

/-- The loop over the entries, where each takes `w` bits. -/
def writeFields (w : Nat) (field : Nat → UInt32) (n : Nat) : UInt32 × Nat × List UInt8 :=
  forRange 0 n (fun s u =>
    let acc := s.1 <<< UInt32.ofNat w ||| field u
    let accLen := s.2.1 + w
    (acc, flush acc accLen s.2.2)) (0, 0, [])

/-- `if acc_len > 0 { *buf = (acc << (8 - acc_len)) as u8; }` -/
def lastByte (s : UInt32 × Nat × List UInt8) : List UInt8 :=
  if s.2.1 > 0 then s.2.2 ++ [(s.1 <<< UInt32.ofNat (8 - s.2.1)).toUInt8] else s.2.2

/-- `modq_encode`. -/
def modqEncode (maxOutLen : Nat) (x : Nat → UInt16) (logn : Nat) : Option (Nat × List UInt8) :=
  let n := 2 ^ logn
  if ∃ u < n, 12289 ≤ x u then none else
    let outLen := (n * 14 + 7) / 8
    if outLen > maxOutLen then none else
      some (outLen, lastByte (writeFields 14 (fun u => (x u).toUInt32) n))

/-- `trim_i8_encode`. -/
def trimI8Encode (maxOutLen : Nat) (x : Nat → Int8) (logn bits : Nat) :
    Option (Nat × List UInt8) :=
  let n := 2 ^ logn
  let maxv := (2 : Int) ^ (bits - 1) - 1
  let minv := -maxv
  if ∃ u < n, (x u).toInt < minv ∨ (x u).toInt > maxv then none else
    let outLen := (n * bits + 7) / 8
    if outLen > maxOutLen then none else
      let mask := (1 : UInt32) <<< UInt32.ofNat bits - 1
      some (outLen, lastByte (writeFields bits (fun u => (x u).toUInt8.toUInt32 &&& mask) n))

/-! ## Reading -/

/-- What a decoder has when it stops: the bytes behind the cursor, the accumulator, how many bits
wait in it, and the entries. -/
structure Read (α : Type) where
  buf : List UInt8
  acc : UInt32
  accLen : Nat
  x : List α

/-- `acc << 8 | *buf++`. -/
def takeByte (acc : UInt32) (b : UInt8) : UInt32 := acc <<< 8 ||| b.toUInt32

/-- `modq_decode`: the loop over the bytes, with the number of entries that are missing. -/
def modqLoop : List UInt8 → Nat → UInt32 → Nat → List UInt16 → Option (Read UInt16)
  | buf, 0, acc, accLen, x => some ⟨buf, acc, accLen, x⟩
  | [], _ + 1, _, _, _ => none
  | b :: buf, todo + 1, acc, accLen, x =>
      let acc := takeByte acc b
      let accLen := accLen + 8
      if accLen ≥ 14 then
        let accLen := accLen - 14
        let w := acc >>> UInt32.ofNat accLen &&& 0x3fff
        if w ≥ 12289 then none else modqLoop buf todo acc accLen (x ++ [w.toUInt16])
      else modqLoop buf (todo + 1) acc accLen x

/-- The check at the end: the bits that are left are zero. -/
def restIsZero {α : Type} (r : Read α) : Bool :=
  r.acc &&& ((1 : UInt32) <<< UInt32.ofNat r.accLen - 1) = 0

/-- `modq_decode`. -/
def modqDecode (logn : Nat) (input : List UInt8) : Option (Nat × List UInt16) :=
  let n := 2 ^ logn
  let inLen := (n * 14 + 7) / 8
  if inLen > input.length then none else do
    let r ← modqLoop input n 0 0 []
    if restIsZero r then some (inLen, r.x) else none

/-- `trim_i8_decode`: the inner loop. -/
def drain {α : Type} (w : Nat) (field : UInt32 → Option α) (acc : UInt32) :
    Nat → Nat → List α → Option (Nat × Nat × List α)
  | 0, accLen, x => some (0, accLen, x)
  | todo + 1, accLen, x =>
      if accLen ≥ w then
        (field (acc >>> UInt32.ofNat (accLen - w))).bind fun y =>
          drain w field acc todo (accLen - w) (x ++ [y])
      else some (todo + 1, accLen, x)

/-- `trim_i8_decode`: the loop over the bytes. -/
def fieldLoop {α : Type} (w : Nat) (field : UInt32 → Option α) :
    List UInt8 → Nat → UInt32 → Nat → List α → Option (Read α)
  | buf, 0, acc, accLen, x => some ⟨buf, acc, accLen, x⟩
  | [], _ + 1, _, _, _ => none
  | b :: buf, todo + 1, acc, accLen, x =>
      let acc := takeByte acc b
      (drain w field acc (todo + 1) (accLen + 8) x).bind fun r =>
        fieldLoop w field buf r.1 acc r.2.1 r.2.2

/-- `trim_i8_decode`: one entry, its sign extended. -/
def trimField (bits : Nat) (v : UInt32) : Option Int8 :=
  let mask1 := (1 : UInt32) <<< UInt32.ofNat bits - 1
  let mask2 := (1 : UInt32) <<< UInt32.ofNat (bits - 1)
  let w := v &&& mask1
  let w := w ||| -(w &&& mask2)
  if w = -mask2 then none else some w.toInt32.toInt8

/-- `trim_i8_decode`. -/
def trimI8Decode (logn bits : Nat) (input : List UInt8) : Option (Nat × List Int8) :=
  let n := 2 ^ logn
  let inLen := (n * bits + 7) / 8
  if inLen > input.length then none else do
    let r ← fieldLoop bits (trimField bits) input n 0 0 []
    if restIsZero r then some (inLen, r.x) else none

/-! ## What was written -/

section Writing

variable {acc v : UInt32} {accLen w : Nat} {buf : List UInt8} {s : UInt32 × Nat × List UInt8}
  {S : List Bool}

theorem toNat_shift {k : Nat} (hk : k < 32) : (UInt32.ofNat k).toNat = k := by
  rw [UInt32.toNat_ofNat', Nat.mod_eq_of_lt (by omega)]

theorem bits_toUInt8 (v : UInt32) : bits 8 v.toUInt8.toNat = bits 8 v.toNat := by
  rw [UInt32.toNat_toUInt8]
  exact bits_mod 8 v.toNat

/-- The bytes that are written are the oldest bits. -/
theorem flush_spec (hlen : accLen ≤ 32) : (flush acc accLen buf).1 < 8 ∧
    byteBits (flush acc accLen buf).2 ++ bits (flush acc accLen buf).1 acc.toNat =
      byteBits buf ++ bits accLen acc.toNat := by
  induction accLen, buf using flush.induct acc with
  | case1 accLen buf hge ih =>
      have hsplit : bits (8 + (accLen - 8)) acc.toNat = _ :=
        bits_shiftRight (toNat_shift (by omega)) (by omega)
      rw [show 8 + (accLen - 8) = accLen by omega] at hsplit
      obtain ⟨hlt, heq⟩ := ih (by omega)
      rw [flush, if_pos hge]
      refine ⟨hlt, heq.trans ?_⟩
      rw [byteBits_append, byteBits_cons, bits_toUInt8, hsplit, List.append_assoc,
        List.append_assoc]
      rfl
  | case2 accLen buf hlt =>
      rw [flush, if_neg hlt]
      exact ⟨by omega, rfl⟩

/-- The bits that are written or wait, less than a byte of them. -/
def Wrote (s : UInt32 × Nat × List UInt8) (S : List Bool) : Prop :=
  s.2.1 < 8 ∧ byteBits s.2.2 ++ bits s.2.1 s.1.toNat = S

theorem Wrote.field (hs : Wrote s S) (hw : w ≤ 24) (hv : v.toNat < 2 ^ w) :
    Wrote (s.1 <<< UInt32.ofNat w ||| v,
      flush (s.1 <<< UInt32.ofNat w ||| v) (s.2.1 + w) s.2.2) (S ++ bits w v.toNat) := by
  obtain ⟨hlt, rfl⟩ := hs
  have hlen : s.2.1 + w ≤ 32 := by omega
  refine ⟨(flush_spec hlen).1, (flush_spec hlen).2.trans ?_⟩
  rw [bits_shiftLeft_or (toNat_shift (by omega)) (by omega) (by omega) hv, List.append_assoc]

/-- **The loop writes the code words**, one behind the other. -/
theorem writeFields_spec {field : Nat → UInt32} (hw : w ≤ 24) {n : Nat}
    (hfield : ∀ u < n, (field u).toNat < 2 ^ w) :
    Wrote (writeFields w field n) ((List.range n).flatMap fun u => bits w (field u).toNat) := by
  induction n with
  | zero => exact ⟨Nat.zero_lt_succ 7, rfl⟩
  | succ n ih =>
      rw [writeFields, forRange_succ (Nat.zero_le n), ← writeFields, List.range_succ,
        List.flatMap_append]
      have := (ih fun u hu => hfield u (by omega)).field hw (hfield n (Nat.lt_succ_self n))
      rwa [← List.flatMap_singleton (fun u => bits w (field u).toNat) n] at this

/-- At the end zeros fill a byte. -/
theorem Wrote.lastByte (hs : Wrote s S) :
    ∃ k < 8, byteBits (Falcon.lastByte s) = S ++ List.replicate k false := by
  obtain ⟨hlt, rfl⟩ := hs
  rw [Falcon.lastByte]
  split
  · next hpos =>
      refine ⟨8 - s.2.1, by omega, ?_⟩
      have hshift : bits (s.2.1 + (8 - s.2.1)) (s.1 <<< UInt32.ofNat (8 - s.2.1) ||| 0).toNat = _ :=
        bits_shiftLeft_or (toNat_shift (by omega)) (by omega) (by omega) (Nat.two_pow_pos _)
      rw [UInt32.or_zero, show s.2.1 + (8 - s.2.1) = 8 by omega,
        show (0 : UInt32).toNat = 0 from rfl, bits_zero] at hshift
      rw [byteBits_append, byteBits_cons, bits_toUInt8, hshift, show byteBits [] = [] from rfl,
        List.append_nil, List.append_assoc]
  · next hzero =>
      refine ⟨0, by omega, ?_⟩
      rw [show s.2.1 = 0 by omega, bits, List.append_assoc, List.nil_append, List.replicate_zero,
        List.append_nil]

end Writing

/-! ## What was read -/

section Reading

variable {α : Type} {c : Code α} {w todo accLen : Nat} {field : UInt32 → Option α} {acc : UInt32}
  {S : List Bool} {x : List α} {buf : List UInt8}

theorem bits_takeByte (hlen : accLen ≤ 24) (b : UInt8) (S : List Bool) :
    bits (accLen + 8) (takeByte acc b).toNat ++ S =
      bits accLen acc.toNat ++ (bits 8 b.toNat ++ S) := by
  have hb : b.toUInt32.toNat < 2 ^ 8 := by
    rw [UInt8.toNat_toUInt32]
    exact b.toNat_lt
  rw [takeByte, bits_shiftLeft_or (w := 8) rfl (by omega) (by omega) hb, UInt8.toNat_toUInt32,
    List.append_assoc]

/-- `field` reads the words of the code, which have `w` bits. -/
structure Reads (c : Code α) (w : Nat) (field : UInt32 → Option α) : Prop where
  short : ∀ S, S.length < w → c.dec S = none
  dec : ∀ v S, c.dec (bits w v.toNat ++ S) = (field v).map fun y => (y, S)

/-- What is found in a number of entries, behind those that there are. -/
def found (c : Code α) (x : List α) (todo : Nat) (S : List Bool) : Option (List α × List Bool) :=
  (readMany c todo S).map fun p => (x ++ p.1, p.2)

@[simp]
theorem found_zero : found c x 0 S = some (x, S) := by
  rw [found, readMany, Option.map_some, List.append_nil]

theorem found_succ :
    found c x (todo + 1) S = (c.dec S).bind fun p => found c (x ++ [p.1]) todo p.2 := by
  rw [found, readMany]
  cases c.dec S with
  | none => rfl
  | some p =>
      rw [Option.bind_some, Option.bind_some, found, Option.map_map]
      congr 1
      funext q
      rw [Function.comp_apply, List.append_assoc]
      rfl

/-- The inner loop takes the entries that are there. -/
theorem drain_spec (hc : Reads c w field) (hlen : accLen < 32) (hw : 0 < w) :
    (found c x todo (bits accLen acc.toNat ++ S) =
      (drain w field acc todo accLen x).bind fun r =>
        found c r.2.2 r.1 (bits r.2.1 acc.toNat ++ S)) ∧
    ∀ r, drain w field acc todo accLen x = some r → accLen < w + 8 → (todo = 0 → accLen < 8) →
      (r.1 = 0 → r.2.1 < 8) ∧ (r.1 ≠ 0 → r.2.1 < w) := by
  induction todo generalizing accLen x with
  | zero =>
      refine ⟨rfl, fun r hr _ hzero => ?_⟩
      obtain rfl := Option.some.inj hr
      exact ⟨fun _ => hzero rfl, fun h => absurd rfl h⟩
  | succ todo ih =>
      rw [drain]
      split
      · next hge =>
          have hsplit : bits (w + (accLen - w)) acc.toNat = _ :=
            bits_shiftRight (toNat_shift (by omega)) (by omega)
          rw [show w + (accLen - w) = accLen by omega] at hsplit
          rw [found_succ, hsplit, List.append_assoc, hc.dec]
          cases field (acc >>> UInt32.ofNat (accLen - w)) with
          | none => exact ⟨rfl, by intro r hr; cases hr⟩
          | some y =>
              have hlen' : accLen - w < 32 := by omega
              exact ⟨(ih hlen').1, fun r hr hlt _ =>
                (ih hlen').2 r hr (by omega) fun _ => by omega⟩
      · next hlt =>
          refine ⟨rfl, fun r hr _ _ => ?_⟩
          obtain rfl := Option.some.inj hr
          exact ⟨fun h => absurd h (Nat.succ_ne_zero todo), fun _ => Nat.lt_of_not_le hlt⟩

/-- What a reader has found, and the bits behind. -/
def Read.result (r : Read α) : List α × List Bool :=
  (r.x, bits r.accLen r.acc.toNat ++ byteBits r.buf)

/-- **The loop reads the code words** in the bits that wait and in the bytes behind the cursor. -/
theorem fieldLoop_spec (hc : Reads c w field) (hpos : 0 < w) (hle : w ≤ 16)
    (hzero : todo = 0 → accLen < 8) (hlen : todo ≠ 0 → accLen < w) :
    (fieldLoop w field buf todo acc accLen x).map Read.result =
      found c x todo (bits accLen acc.toNat ++ byteBits buf) ∧
    ∀ r, fieldLoop w field buf todo acc accLen x = some r → r.accLen < 8 := by
  induction buf generalizing todo acc accLen x with
  | nil =>
      cases todo with
      | zero =>
          refine ⟨found_zero.symm, fun r hr => ?_⟩
          obtain rfl := Option.some.inj hr
          exact hzero rfl
      | succ todo =>
          have hshort := hc.short (bits accLen acc.toNat) (by
            rw [length_bits]
            exact hlen (Nat.succ_ne_zero todo))
          refine ⟨?_, by intro r hr; cases hr⟩
          rw [found_succ, show byteBits [] = [] from rfl, List.append_nil, hshort]
          rfl
  | cons b buf ih =>
      cases todo with
      | zero =>
          refine ⟨found_zero.symm, fun r hr => ?_⟩
          obtain rfl := Option.some.inj hr
          exact hzero rfl
      | succ todo =>
          have hlt := hlen (Nat.succ_ne_zero todo)
          have hlen' : accLen + 8 < 32 := by omega
          rw [fieldLoop, byteBits_cons, ← bits_takeByte (by omega), (drain_spec hc hlen' hpos).1]
          cases hdrain : drain w field (takeByte acc b) (todo + 1) (accLen + 8) x with
          | none => exact ⟨rfl, by intro r hr; cases hr⟩
          | some r =>
              obtain ⟨hdone, hmore⟩ := (drain_spec (S := byteBits buf) hc hlen' hpos).2 r hdrain
                (by omega) (fun h => absurd h (by omega))
              exact ih hdone hmore

/-- **What a decoder accepts.** The bytes that it has taken are the code words of the entries, with
zeros behind them that do not fill a byte. -/
theorem decoded_iff {loop : Option (Read α)} {input : List UInt8} {n k : Nat} {v : List α}
    (hloop : loop.map Read.result = found c [] n (byteBits input))
    (hlt : ∀ r, loop = some r → r.accLen < 8) :
    (∃ r, loop = some r ∧ restIsZero r = true ∧ r.x = v ∧ input.length - r.buf.length = k) ↔
      v.length = n ∧ (∀ y ∈ v, c.Valid y) ∧ k ≤ input.length ∧
        ∃ j < 8, byteBits (input.take k) = v.flatMap c.enc ++ List.replicate j false := by
  have hzero {r : Read α} (hr : r.accLen < 8) :
      restIsZero r = true ↔ bits r.accLen r.acc.toNat = List.replicate r.accLen false := by
    rw [restIsZero, decide_eq_true_eq]
    exact and_mask_eq_zero_iff (toNat_shift (by omega)) (by omega)
  constructor
  · rintro ⟨r, hr, hrest, rfl, rfl⟩
    have hr8 := hlt r hr
    rw [hr, Option.map_some] at hloop
    obtain ⟨p, hmany, hp⟩ := Option.map_eq_some_iff.mp hloop.symm
    obtain ⟨hx, hS⟩ := Prod.mk.inj hp
    obtain ⟨hlen, hvalid, hinput⟩ := (readMany_eq_some c).mp (show readMany c n _ = some (p.1, p.2)
      from hmany)
    rw [List.nil_append] at hx
    rw [hx] at hlen hvalid hinput
    rw [hS, ← List.append_assoc] at hinput
    have hlens := congrArg List.length hinput
    simp only [length_byteBits, List.length_append, length_bits] at hlens
    refine ⟨hlen, hvalid, by omega, r.accLen, hr8, ?_⟩
    have htake := List.take_append_drop (input.length - r.buf.length) input
    rw [← htake, byteBits_append] at hinput
    have hdrop : (byteBits (input.drop (input.length - r.buf.length))).length =
        (byteBits r.buf).length := by
      rw [length_byteBits, length_byteBits, List.length_drop]
      omega
    obtain ⟨hfront, -⟩ := List.append_inj' hinput hdrop
    rw [hfront, (hzero hr8).mp hrest]
  · rintro ⟨hlen, hvalid, hk, j, hj, hbytes⟩
    have hinput : byteBits input =
        v.flatMap c.enc ++ (List.replicate j false ++ byteBits (input.drop k)) := by
      conv_lhs => rw [← List.take_append_drop k input]
      rw [byteBits_append, hbytes, List.append_assoc]
    have hmany := (readMany_eq_some c).mpr ⟨hlen, hvalid, hinput⟩
    rw [found, hmany, Option.map_some, List.nil_append] at hloop
    obtain ⟨r, rfl, hresult⟩ := Option.map_eq_some_iff.mp hloop
    obtain ⟨hx, hS⟩ := Prod.mk.inj hresult
    have hr8 := hlt r rfl
    have hlens := congrArg List.length hS
    simp only [length_byteBits, List.length_append, length_bits, List.length_replicate,
      List.length_drop] at hlens
    obtain rfl : r.accLen = j := by omega
    obtain ⟨hbits, -⟩ := List.append_inj hS (by simp)
    exact ⟨r, rfl, (hzero hr8).mpr hbits, hx, by omega⟩

/-- How many bytes words of one width take. -/
theorem length_of_words {v : List α} {out : List UInt8} {j : Nat} (henc : ∀ y, (c.enc y).length = w)
    (hj : j < 8) (hbytes : byteBits out = v.flatMap c.enc ++ List.replicate j false) :
    out.length = (v.length * w + 7) / 8 := by
  have hsize : (v.flatMap c.enc).length = v.length * w := by
    rw [List.length_flatMap, List.map_congr_left fun y _ => henc y, List.map_const',
      List.sum_replicate_nat]
  have hlens := congrArg List.length hbytes
  rw [length_byteBits, List.length_append, List.length_replicate, hsize] at hlens
  omega

/-- Words of one width, of which a number of bytes is read. -/
theorem fieldsDecoded_iff (input : List UInt8) (n : Nat) {v : List α}
    (hc : Reads c w field) (hpos : 0 < w) (hle : w ≤ 16) (henc : ∀ y, (c.enc y).length = w) :
    (∃ r, fieldLoop w field input n 0 0 [] = some r ∧ restIsZero r = true ∧ r.x = v) ↔
      v.length = n ∧ (∀ y ∈ v, c.Valid y) ∧ (n * w + 7) / 8 ≤ input.length ∧ ∃ j < 8,
        byteBits (input.take ((n * w + 7) / 8)) =
          v.flatMap c.enc ++ List.replicate j false := by
  have hloop : (fieldLoop w field input n 0 0 []).map Read.result = _ :=
    (fieldLoop_spec hc hpos hle (fun _ => by omega) fun _ => hpos).1
  have hlt : ∀ r, fieldLoop w field input n 0 0 [] = some r → r.accLen < 8 :=
    (fieldLoop_spec hc hpos hle (fun _ => by omega) fun _ => hpos).2
  rw [bits, List.nil_append] at hloop
  rw [← decoded_iff hloop hlt]
  constructor
  · rintro ⟨r, hr, hrest, hx⟩
    refine ⟨r, hr, hrest, hx, ?_⟩
    obtain ⟨hlen, -, hk, j, hj, hbytes⟩ := (decoded_iff hloop hlt).mp ⟨r, hr, hrest, hx, rfl⟩
    have hsize := length_of_words henc hj hbytes
    rw [List.length_take_of_le hk, hlen] at hsize
    exact hsize
  · rintro ⟨r, hr, hrest, hx, -⟩
    exact ⟨r, hr, hrest, hx⟩

end Reading

/-- Words of one width, read with a mask. -/
theorem reads_word {α : Type} {w : Nat} (m : Meaning (word w) α) {field : UInt32 → Option α}
    (hfield : ∀ v : UInt32, m.ofWord (v.toNat % 2 ^ w) = field v) : Reads m.code w field where
  short S hS := by
    show (wordDec w S).bind (fun q => (m.ofWord q.1).map fun y => (y, q.2)) = none
    rw [wordDec, if_pos hS]
    rfl
  dec v S := by
    show (wordDec w _).bind (fun q => (m.ofWord q.1).map fun y => (y, q.2)) = _
    rw [wordDec_bits, Option.bind_some, hfield]

/-! ### Public keys -/

/-- `modq_decode`: one entry. -/
def modqField (v : UInt32) : Option UInt16 :=
  let w := v &&& 0x3fff
  if w ≥ 12289 then none else some w.toUInt16

theorem modqLoop_eq {buf : List UInt8} {todo accLen : Nat} {acc : UInt32} {x : List UInt16}
    (hlt : accLen < 14) :
    modqLoop buf todo acc accLen x = fieldLoop 14 modqField buf todo acc accLen x := by
  induction buf generalizing todo acc accLen x with
  | nil => cases todo <;> rfl
  | cons b buf ih =>
      cases todo with
      | zero => rfl
      | succ todo =>
          rw [modqLoop, fieldLoop, drain]
          by_cases hge : accLen + 8 ≥ 14
          · rw [if_pos hge, if_pos hge, modqField]
            by_cases hlarge : takeByte acc b >>> UInt32.ofNat (accLen + 8 - 14) &&& 0x3fff ≥ 12289
            · rw [if_pos hlarge, if_pos hlarge]
              rfl
            · rw [if_neg hlarge, if_neg hlarge, ih (by omega), Option.bind_some]
              cases todo with
              | zero => rfl
              | succ todo =>
                  rw [drain, if_neg (by omega)]
                  rfl
          · rw [if_neg hge, if_neg hge, ih (by omega)]
            rfl

theorem modqWord_lt (x : UInt16) (hx : x < 12289) : x.toNat < 2 ^ 14 := by
  have : x.toNat < 12289 := hx
  omega

/-- What a word of a public key stands for. -/
def modqValue (v : Nat) : Option UInt16 := if v ≥ 12289 then none else some (UInt16.ofNat v)

theorem modqValue_eq_some (v : Nat) (hv : v < 2 ^ 14) (x : UInt16) :
    modqValue v = some x ↔ x < 12289 ∧ x.toNat = v := by
  rw [modqValue]
  split
  · next hlarge =>
      constructor
      · intro h
        cases h
      · rintro ⟨hx, rfl⟩
        have : x.toNat < 12289 := hx
        omega
  · next hsmall =>
      rw [Option.some.injEq]
      constructor
      · rintro rfl
        have hnat : (UInt16.ofNat v).toNat = v := by
          rw [UInt16.toNat_ofNat', Nat.mod_eq_of_lt (by omega)]
        refine ⟨?_, hnat⟩
        rw [UInt16.lt_iff_toNat_lt, hnat]
        exact Nat.lt_of_not_le hsmall
      · rintro ⟨-, rfl⟩
        exact UInt16.ofNat_toNat

/-- The residues below the modulus, in words of 14 bits. -/
def modqMeaning : Meaning (word 14) UInt16 where
  toWord := UInt16.toNat
  ofWord := modqValue
  Valid x := x < 12289
  toWord_valid := modqWord_lt
  ofWord_eq_some := modqValue_eq_some

theorem modqReads : Reads modqMeaning.code 14 modqField := by
  apply reads_word
  intro v
  have hmask : (v &&& 0x3fff).toNat = v.toNat % 2 ^ 14 := toNat_and_mask (k := 14) rfl (by omega)
  show modqValue _ = _
  rw [modqValue, modqField, ← hmask]
  congr 1

/-! ### Secret keys -/

section Trim

theorem toInt8_toInt32 (w : UInt32) : w.toInt32.toInt8 = w.toUInt8.toInt8 :=
  Int8.toBitVec_inj.mp (BitVec.signExtend_eq_setWidth_of_le _ (by omega))

theorem toInt_eq_toUInt8 (x : Int8) :
    x.toInt = if 2 * x.toUInt8.toNat < 256 then (x.toUInt8.toNat : Int)
      else x.toUInt8.toNat - 256 :=
  BitVec.toInt_eq_toNat_cond x.toBitVec

/-- Ones above a word whose top bit is set. -/
theorem or_ones {b m : Nat} (hb : b < 32) (hge : 2 ^ b ≤ m) (hlt : m < 2 ^ (b + 1)) :
    m ||| (2 ^ 32 - 2 ^ b) = 2 ^ 32 - 2 ^ b + (m - 2 ^ b) := by
  obtain ⟨r, rfl⟩ := Nat.exists_eq_add_of_le hge
  have hr : r < 2 ^ b := by
    rw [Nat.pow_succ] at hlt
    omega
  have hones : 2 ^ 32 - 2 ^ b = 2 ^ b * (2 ^ (32 - b) - 1) := by
    rw [Nat.mul_sub, ← Nat.pow_add, Nat.add_sub_cancel' hb.le, Nat.mul_one]
  rw [Nat.add_sub_cancel_left, hones]
  apply Nat.eq_of_testBit_eq
  intro i
  have hword : (2 ^ b + r).testBit i = (2 ^ b * 1 + r).testBit i := by rw [Nat.mul_one]
  rw [Nat.testBit_or, Nat.testBit_two_pow_mul, hword, Nat.testBit_two_pow_mul_add _ hr,
    Nat.testBit_two_pow_mul_add _ hr]
  rcases Nat.lt_or_ge i b with hi | hi
  · rw [if_pos hi, if_pos hi, decide_eq_false (by omega), Bool.false_and, Bool.or_false]
  · rw [if_neg (by omega), if_neg (by omega), decide_eq_true hi, Bool.true_and,
      Nat.testBit_two_pow_sub_one]
    by_cases hzero : i - b = 0
    · simp [hzero, hb]
    · rw [Nat.testBit_eq_false_of_lt (n := 1) (i := i - b), Bool.false_or]
      exact Nat.one_lt_two_pow hzero

variable {bits : Nat}

/-- What a word of a secret key stands for. -/
def trimValue (bits v : Nat) : Option Int8 :=
  if v = 2 ^ (bits - 1) then none
  else some (UInt8.ofNat (if v < 2 ^ (bits - 1) then v else v + 2 ^ 8 - 2 ^ bits)).toInt8

/-- The word of an entry. -/
def trimWord (bits : Nat) (x : Int8) : Nat := x.toUInt8.toNat % 2 ^ bits

/-- The entries with a word: all of them but one have their negative. -/
def TrimValid (bits : Nat) (x : Int8) : Prop :=
  ¬(x.toInt < -((2 : Int) ^ (bits - 1) - 1) ∨ x.toInt > (2 : Int) ^ (bits - 1) - 1)

theorem trimWord_lt (x : Int8) : trimWord bits x < 2 ^ bits :=
  Nat.mod_lt _ (Nat.two_pow_pos bits)

/-- An entry and its word, read off the byte of the entry. -/
theorem trimWord_eq_iff (hpos : 0 < bits) (hle : bits ≤ 8) (v : Nat) (hv : v < 2 ^ bits) (x : Int8) :
    TrimValid bits x ∧ trimWord bits x = v ↔ v ≠ 2 ^ (bits - 1) ∧
      (if v < 2 ^ (bits - 1) then v else v + 2 ^ 8 - 2 ^ bits) = x.toUInt8.toNat := by
  obtain ⟨b, rfl⟩ := Nat.exists_eq_succ_of_ne_zero hpos.ne'
  obtain ⟨q, hq⟩ : 2 ^ b ∣ 2 ^ 7 := Nat.pow_dvd_pow 2 (by omega)
  have hx := x.toUInt8.toNat_lt
  have hcast : (2 : Int) ^ b = (2 ^ b : Nat) := by push_cast; rfl
  rw [TrimValid, trimWord, toInt_eq_toUInt8, Nat.succ_eq_add_one, Nat.add_sub_cancel, hcast]
  rw [Nat.pow_succ] at hv ⊢
  generalize x.toUInt8.toNat = n at *
  generalize 2 ^ b = p at *
  have hqpos : 0 < q := Nat.pos_of_ne_zero (by rintro rfl; omega)
  have hple : p ≤ 128 := Nat.le_of_dvd (by decide) ⟨q, hq⟩
  by_cases hlow : n < p
  · rw [if_pos (show 2 * n < 256 by omega), Nat.mod_eq_of_lt (by omega)]
    split <;> omega
  · by_cases hhigh : 256 - p < n
    · -- the ones above the word are a multiple of its size
      have hones : 256 - p * 2 = p * 2 * (q - 1) := by
        rw [Nat.mul_sub, Nat.mul_one, Nat.mul_right_comm, ← hq]
      have hword : n % (p * 2) = n - (256 - p * 2) := by
        have hsplit : n = n - (256 - p * 2) + p * 2 * (q - 1) := by omega
        rw [hsplit, Nat.add_mul_mod_self_left, ← hsplit]
        exact Nat.mod_eq_of_lt (by omega)
      rw [if_neg (show ¬ 2 * n < 256 by omega), hword]
      split <;> omega
    · refine iff_of_false (fun h => h.1 ?_) ?_
      · split <;> omega
      · split <;> omega

theorem trimValue_eq_some (hpos : 0 < bits) (hle : bits ≤ 8) (v : Nat) (hv : v < 2 ^ bits)
    (x : Int8) : trimValue bits v = some x ↔ TrimValid bits x ∧ trimWord bits x = v := by
  have hsize : (if v < 2 ^ (bits - 1) then v else v + 2 ^ 8 - 2 ^ bits) < 256 := by
    have := Nat.pow_le_pow_right (n := 2) (by omega) hle
    have := Nat.pow_le_pow_right (n := 2) (by omega) (show bits - 1 ≤ 8 by omega)
    split <;> omega
  rw [trimWord_eq_iff hpos hle v hv x, trimValue]
  split
  · next heq =>
      constructor
      · intro h
        cases h
      · rintro ⟨hne, -⟩
        exact absurd heq hne
  · next hne =>
      rw [Option.some.injEq]
      constructor
      · rintro rfl
        refine ⟨hne, ?_⟩
        rw [UInt8.toUInt8_toInt8, UInt8.toNat_ofNat', Nat.mod_eq_of_lt hsize]
      · rintro ⟨-, heq⟩
        rw [heq, UInt8.ofNat_toNat]
        rfl

private theorem toNat_one_shiftLeft {b : Nat} (hb : b < 32) :
    ((1 : UInt32) <<< UInt32.ofNat b).toNat = 2 ^ b := by
  rw [UInt32.toNat_shiftLeft, toNat_shift hb, Nat.mod_eq_of_lt hb]
  show 1 <<< b % 2 ^ 32 = _
  rw [Nat.one_shiftLeft, Nat.mod_eq_of_lt (Nat.pow_lt_pow_right (by omega) hb)]

/-- The masks of `trim_i8_decode` cut a word out and extend its sign. -/
theorem trimField_eq (hpos : 0 < bits) (hle : bits ≤ 8) (v : UInt32) :
    trimField bits v = trimValue bits (v.toNat % 2 ^ bits) := by
  obtain ⟨b, rfl⟩ := Nat.exists_eq_succ_of_ne_zero hpos.ne'
  have hmask : (v &&& ((1 : UInt32) <<< UInt32.ofNat (b + 1) - 1)).toNat = v.toNat % 2 ^ (b + 1) :=
    toNat_and_mask (toNat_shift (by omega)) (by omega)
  have hlt := Nat.mod_lt v.toNat (Nat.two_pow_pos (b + 1))
  have htop := toNat_one_shiftLeft (b := b) (by omega)
  rw [trimField, trimValue, Nat.succ_eq_add_one, Nat.add_sub_cancel]
  generalize v &&& ((1 : UInt32) <<< UInt32.ofNat (b + 1) - 1) = w at hmask
  generalize v.toNat % 2 ^ (b + 1) = m at hmask hlt
  generalize (1 : UInt32) <<< UInt32.ofNat b = top at htop
  have hb : 2 ^ b ≤ 2 ^ 7 := Nat.pow_le_pow_right (by omega) (by omega)
  have hneg : (-top).toNat = 2 ^ 32 - 2 ^ b := by
    rw [UInt32.toNat_neg, htop]
    exact Nat.mod_eq_of_lt (Nat.sub_lt (Nat.two_pow_pos 32) (Nat.two_pow_pos b))
  have hbit : (w &&& top).toNat = (m.testBit b).toNat * 2 ^ b := by
    rw [UInt32.toNat_and, hmask, htop, Nat.and_two_pow]
  rcases Nat.lt_or_ge m (2 ^ b) with hm | hm
  · -- the sign bit is not set: the mask adds nothing
    have hand : w &&& top = 0 := by
      rw [Nat.testBit_eq_false_of_lt hm, Bool.toNat_false, Nat.zero_mul] at hbit
      exact UInt32.toNat_inj.mp hbit
    have hne : w ≠ -top := by
      intro h
      rw [h, hneg] at hmask
      omega
    rw [hand, UInt32.neg_zero, UInt32.or_zero, if_neg hne, if_neg hm.ne, if_pos hm, toInt8_toInt32,
      ← hmask]
    rfl
  · -- it is set: the bits above it are filled with ones
    have htrue := Nat.testBit_of_two_pow_le_and_two_pow_add_one_gt hm hlt
    have hand : w &&& top = top := by
      rw [htrue, Bool.toNat_true, Nat.one_mul, ← htop] at hbit
      exact UInt32.toNat_inj.mp hbit
    have hor : (w ||| -top).toNat = 2 ^ 32 - 2 ^ b + (m - 2 ^ b) := by
      rw [UInt32.toNat_or, hmask, hneg, or_ones (by omega) hm hlt]
    rw [hand, toInt8_toInt32]
    by_cases heq : m = 2 ^ b
    · rw [if_pos heq, if_pos]
      apply UInt32.toNat_inj.mp
      rw [hor, hneg]
      omega
    · rw [if_neg heq, if_neg, if_neg (Nat.not_lt_of_ge hm)]
      · congr 2
        apply UInt8.toNat_inj.mp
        rw [UInt32.toNat_toUInt8, hor, UInt8.toNat_ofNat', Nat.pow_succ]
        omega
      · intro h
        rw [h, hneg] at hor
        omega

/-- The entries of a secret key, in words of `bits` bits. -/
def trimMeaning (hpos : 0 < bits) (hle : bits ≤ 8) : Meaning (word bits) Int8 where
  toWord := trimWord bits
  ofWord := trimValue bits
  Valid := TrimValid bits
  toWord_valid x _ := trimWord_lt x
  ofWord_eq_some := trimValue_eq_some hpos hle

theorem trimReads (hpos : 0 < bits) (hle : bits ≤ 8) :
    Reads (trimMeaning hpos hle).code bits (trimField bits) :=
  reads_word _ fun v => (trimField_eq hpos hle v).symm

end Trim

/-! ### The encoders -/

theorem eq_lastByte_iff {s : UInt32 × Nat × List UInt8} {S : List Bool} {out : List UInt8}
    (hs : Wrote s S) :
    lastByte s = out ↔ ∃ j < 8, byteBits out = S ++ List.replicate j false := by
  obtain ⟨k, hk, hlast⟩ := hs.lastByte
  constructor
  · rintro rfl
    exact ⟨k, hk, hlast⟩
  · rintro ⟨j, hj, hout⟩
    exact eq_of_padded hk hj hlast hout

/-- **What an encoder writes**, where it writes all entries. -/
theorem encoded_iff {P : Prop} [Decidable P] {outLen maxOutLen v : Nat}
    {s : UInt32 × Nat × List UInt8} {S : List Bool} {out : List UInt8} (hs : ¬P → Wrote s S) :
    (if P then none else if outLen > maxOutLen then none else some (outLen, lastByte s)) =
        some (v, out) ↔
      ¬P ∧ v = outLen ∧ v ≤ maxOutLen ∧
        ∃ j < 8, byteBits out = S ++ List.replicate j false := by
  by_cases hP : P
  · rw [if_pos hP]
    exact ⟨fun h => absurd h (by simp), fun h => absurd hP h.1⟩
  · rw [if_neg hP]
    by_cases hlong : outLen > maxOutLen
    · rw [if_pos hlong]
      refine ⟨fun h => absurd h (by simp), ?_⟩
      rintro ⟨-, rfl, hv, -⟩
      exact absurd hv (Nat.not_le_of_gt hlong)
    · rw [if_neg hlong, Option.some.injEq, Prod.mk.injEq, eq_lastByte_iff (hs hP)]
      constructor
      · rintro ⟨rfl, hout⟩
        exact ⟨hP, rfl, Nat.le_of_not_lt hlong, hout⟩
      · rintro ⟨-, rfl, -, hout⟩
        exact ⟨rfl, hout⟩

theorem modqEncode_eq_some {maxOutLen logn v : Nat} {x : Nat → UInt16} {out : List UInt8} :
    modqEncode maxOutLen x logn = some (v, out) ↔
      (∀ u < 2 ^ logn, x u < 12289) ∧ v = (2 ^ logn * 14 + 7) / 8 ∧ v ≤ maxOutLen ∧
        ∃ j < 8, byteBits out =
          (List.range (2 ^ logn)).flatMap (fun u => modqMeaning.code.enc (x u)) ++
            List.replicate j false := by
  have hbad : (¬∃ u < 2 ^ logn, 12289 ≤ x u) ↔ ∀ u < 2 ^ logn, x u < 12289 := by
    simp only [not_exists, not_and, UInt16.not_le]
  rw [← hbad]
  apply encoded_iff
  intro hgood
  exact writeFields_spec (by omega) fun u hu => modqWord_lt (x u) (hbad.mp hgood u hu)

theorem trimI8Encode_eq_some {maxOutLen logn bits v : Nat} (hpos : 0 < bits) (hle : bits ≤ 8)
    {x : Nat → Int8} {out : List UInt8} :
    trimI8Encode maxOutLen x logn bits = some (v, out) ↔
      (∀ u < 2 ^ logn, TrimValid bits (x u)) ∧ v = (2 ^ logn * bits + 7) / 8 ∧ v ≤ maxOutLen ∧
        ∃ j < 8, byteBits out =
          (List.range (2 ^ logn)).flatMap (fun u => (trimMeaning hpos hle).code.enc (x u)) ++
            List.replicate j false := by
  have hbad : (∀ u < 2 ^ logn, TrimValid bits (x u)) ↔
      ¬∃ u < 2 ^ logn, (x u).toInt < -((2 : Int) ^ (bits - 1) - 1) ∨
        (x u).toInt > (2 : Int) ^ (bits - 1) - 1 := by
    simp only [TrimValid, not_exists, not_and]
  have hword (u : Nat) : ((x u).toUInt8.toUInt32 &&&
      ((1 : UInt32) <<< UInt32.ofNat bits - 1)).toNat = trimWord bits (x u) := by
    rw [toNat_and_mask (toNat_shift (by omega)) (by omega), UInt8.toNat_toUInt32, trimWord]
  rw [hbad]
  apply encoded_iff
  intro _
  have hwrote : Wrote (writeFields bits (fun u =>
      (x u).toUInt8.toUInt32 &&& ((1 : UInt32) <<< UInt32.ofNat bits - 1)) (2 ^ logn)) _ :=
    writeFields_spec (by omega) fun u _ => by
      rw [hword]
      exact trimWord_lt (x u)
  simp only [hword] at hwrote
  exact hwrote

theorem exists_modqEncode {maxOutLen : Nat} (logn : Nat) {x : Nat → UInt16}
    (hx : ∀ u < 2 ^ logn, x u < 12289) (hfits : (2 ^ logn * 14 + 7) / 8 ≤ maxOutLen) :
    ∃ out, modqEncode maxOutLen x logn = some ((2 ^ logn * 14 + 7) / 8, out) := by
  rw [modqEncode, if_neg, if_neg (Nat.not_lt.mpr hfits)]
  · exact ⟨_, rfl⟩
  · rintro ⟨u, hu, hxu⟩
    exact absurd (hx u hu) (UInt16.not_lt.mpr hxu)

theorem exists_trimI8Encode {maxOutLen : Nat} (logn bits : Nat) {x : Nat → Int8}
    (hx : ∀ u < 2 ^ logn, TrimValid bits (x u)) (hfits : (2 ^ logn * bits + 7) / 8 ≤ maxOutLen) :
    ∃ out, trimI8Encode maxOutLen x logn bits = some ((2 ^ logn * bits + 7) / 8, out) := by
  rw [trimI8Encode, if_neg, if_neg (Nat.not_lt.mpr hfits)]
  · exact ⟨_, rfl⟩
  · rintro ⟨u, hu, hxu⟩
    exact hx u hu hxu

/-! ### The decoders -/

/-- How a decoder ends, where the number of bytes is known before. -/
theorem sized_iff {α : Type} {loop : Option (Read α)} {input : List UInt8} {inLen v : Nat}
    {xs : List α} :
    (if inLen > input.length then none
      else loop.bind fun r => if restIsZero r = true then some (inLen, r.x) else none) =
        some (v, xs) ↔
      v = inLen ∧ inLen ≤ input.length ∧
        ∃ r, loop = some r ∧ restIsZero r = true ∧ r.x = xs := by
  constructor
  · intro h
    split at h
    · cases h
    · next hlong =>
        obtain ⟨r, hr, hrest⟩ := Option.bind_eq_some_iff.mp h
        split at hrest
        · next hzero =>
            obtain ⟨rfl, rfl⟩ := Prod.mk.inj (Option.some.inj hrest)
            exact ⟨rfl, Nat.le_of_not_lt hlong, r, hr, hzero, rfl⟩
        · cases hrest
  · rintro ⟨rfl, hle, r, rfl, hzero, rfl⟩
    rw [if_neg (Nat.not_lt.mpr hle), Option.bind_some, if_pos hzero]

section Decoders

variable {logn bits v : Nat} {input : List UInt8}

theorem modqDecode_eq_some {xs : List UInt16} :
    modqDecode logn input = some (v, xs) ↔
      v = (2 ^ logn * 14 + 7) / 8 ∧ v ≤ input.length ∧
        xs.length = 2 ^ logn ∧ (∀ y ∈ xs, y < 12289) ∧ ∃ j < 8,
          byteBits (input.take v) = xs.flatMap modqMeaning.code.enc ++ List.replicate j false := by
  have hdecoded : (∃ r, _ ∧ restIsZero r = true ∧ r.x = xs) ↔ _ :=
    fieldsDecoded_iff input (2 ^ logn) modqReads (by omega) (by omega)
      (fun y => length_bits 14 y.toNat)
  rw [← modqLoop_eq (by omega)] at hdecoded
  rw [modqDecode]
  refine sized_iff.trans ?_
  rw [hdecoded]
  constructor
  · rintro ⟨rfl, hle, hlen, hvalid, -, hbytes⟩
    exact ⟨rfl, hle, hlen, hvalid, hbytes⟩
  · rintro ⟨rfl, hle, hlen, hvalid, hbytes⟩
    exact ⟨rfl, hle, hlen, hvalid, hle, hbytes⟩

theorem trimI8Decode_eq_some (hpos : 0 < bits) (hle : bits ≤ 8) {xs : List Int8} :
    trimI8Decode logn bits input = some (v, xs) ↔
      v = (2 ^ logn * bits + 7) / 8 ∧ v ≤ input.length ∧
        xs.length = 2 ^ logn ∧ (∀ y ∈ xs, TrimValid bits y) ∧ ∃ j < 8,
          byteBits (input.take v) =
            xs.flatMap (trimMeaning hpos hle).code.enc ++ List.replicate j false := by
  have hdecoded : (∃ r, _ ∧ restIsZero r = true ∧ r.x = xs) ↔ _ :=
    fieldsDecoded_iff input (2 ^ logn) (trimReads hpos hle) hpos (by omega)
      (fun y => length_bits bits (trimWord bits y))
  rw [trimI8Decode]
  refine sized_iff.trans ?_
  rw [hdecoded]
  constructor
  · rintro ⟨rfl, hfits, hlen, hvalid, -, hbytes⟩
    exact ⟨rfl, hfits, hlen, hvalid, hbytes⟩
  · rintro ⟨rfl, hfits, hlen, hvalid, hbytes⟩
    exact ⟨rfl, hfits, hlen, hvalid, hfits, hbytes⟩

/-- What an encoder has written is found in front of anything else. -/
theorem trimI8Decode_encoded (hpos : 0 < bits) (hle : bits ≤ 8) {maxOutLen : Nat} {x : Nat → Int8}
    {out : List UInt8} (h : trimI8Encode maxOutLen x logn bits = some (v, out))
    (rest : List UInt8) :
    out.length = v ∧
      trimI8Decode logn bits (out ++ rest) = some (v, (List.range (2 ^ logn)).map x) := by
  obtain ⟨hx, hv, -, j, hj, hbytes⟩ := (trimI8Encode_eq_some hpos hle).mp h
  rw [← List.flatMap_map] at hbytes
  have hlen : out.length = v := by
    have := length_of_words (fun y => length_bits bits (trimWord bits y)) hj hbytes
    rw [List.length_map, List.length_range] at this
    omega
  refine ⟨hlen, (trimI8Decode_eq_some hpos hle).mpr ⟨hv, ?_, by simp, ?_, j, hj, ?_⟩⟩
  · rw [List.length_append, hlen]
    exact Nat.le_add_right ..
  · intro y hy
    obtain ⟨u, hu, rfl⟩ := List.mem_map.mp hy
    exact hx u (List.mem_range.mp hu)
  · rw [← hlen, List.take_left]
    exact hbytes

theorem modqDecode_encoded {maxOutLen : Nat} {x : Nat → UInt16} {out : List UInt8}
    (h : modqEncode maxOutLen x logn = some (v, out)) (rest : List UInt8) :
    out.length = v ∧ modqDecode logn (out ++ rest) = some (v, (List.range (2 ^ logn)).map x) := by
  obtain ⟨hx, hv, -, j, hj, hbytes⟩ := modqEncode_eq_some.mp h
  rw [← List.flatMap_map] at hbytes
  have hlen : out.length = v := by
    have := length_of_words (fun y : UInt16 => length_bits 14 y.toNat) hj hbytes
    rw [List.length_map, List.length_range] at this
    omega
  refine ⟨hlen, modqDecode_eq_some.mpr ⟨hv, ?_, by simp, ?_, j, hj, ?_⟩⟩
  · rw [List.length_append, hlen]
    exact Nat.le_add_right ..
  · intro y hy
    obtain ⟨u, hu, rfl⟩ := List.mem_map.mp hy
    exact hx u (List.mem_range.mp hu)
  · rw [← hlen, List.take_left]
    exact hbytes

end Decoders

end OnionNetwork.Falcon
