import Mathlib.Data.Nat.Bitwise
import Mathlib.Data.List.Basic
import Mathlib.Algebra.Order.Group.Nat
import Mathlib.Tactic.Ring

/-!
# Bit strings behind bytes and accumulators

A number as its bits, the most significant one first; bytes as the string of all their bits;
codes whose decoder gives back the rest of the string.

* `bits_add` — a number splits where its digits do;
* `bits_shiftLeft_or`, `bits_shiftRight` — a 32-bit accumulator as a queue of bits: new ones
  are shifted in behind, the oldest ones are read in front;
* `readMany_eq_some` — a sequence of code words is read back as what was written, and as
  nothing else;
* `word`, `unary`, `pair`, `Meaning.code` — codes from codes.
-/

namespace OnionNetwork.Lib.Bits

/-- The lowest `w` bits of a number. -/
def bits : Nat → Nat → List Bool
  | 0, _ => []
  | w + 1, v => v.testBit w :: bits w v

/-- The number with these bits. -/
def value (l : List Bool) : Nat := l.foldl (fun v b => 2 * v + b.toNat) 0

/-- The bits of a byte string. -/
def byteBits (l : List UInt8) : List Bool := l.flatMap fun b => bits 8 b.toNat

section Numbers

variable {w u v : Nat}

@[simp]
theorem length_bits (w v : Nat) : (bits w v).length = w := by
  induction w with
  | zero => rfl
  | succ w ih => rw [bits, List.length_cons, ih]

theorem bits_congr (h : ∀ i < w, u.testBit i = v.testBit i) : bits w u = bits w v := by
  induction w with
  | zero => rfl
  | succ w ih => rw [bits, bits, h w (Nat.lt_succ_self w), ih fun i hi => h i (by omega)]

theorem testBit_of_bits_eq (h : bits w u = bits w v) {i : Nat} (hi : i < w) :
    u.testBit i = v.testBit i := by
  induction w with
  | zero => omega
  | succ w ih =>
      obtain ⟨hhead, htail⟩ := List.cons.inj h
      rcases Nat.lt_or_eq_of_le (Nat.le_of_lt_succ hi) with hlt | rfl
      · exact ih htail hlt
      · exact hhead

theorem bits_eq_iff : bits w u = bits w v ↔ u % 2 ^ w = v % 2 ^ w := by
  constructor
  · intro h
    apply Nat.eq_of_testBit_eq
    intro i
    rw [Nat.testBit_mod_two_pow, Nat.testBit_mod_two_pow]
    rcases Nat.lt_or_ge i w with hi | hi
    · rw [testBit_of_bits_eq h hi]
    · rw [decide_eq_false (Nat.not_lt_of_ge hi), Bool.false_and, Bool.false_and]
  · intro h
    apply bits_congr
    intro i hi
    have hbit := congrArg (Nat.testBit · i) h
    simpa only [Nat.testBit_mod_two_pow, decide_eq_true hi, Bool.true_and] using hbit

theorem bits_mod (w v : Nat) : bits w (v % 2 ^ w) = bits w v :=
  bits_eq_iff.mpr (Nat.mod_mod _ _)

theorem bits_add (a b v : Nat) : bits (a + b) v = bits a (v >>> b) ++ bits b v := by
  induction a with
  | zero => rw [Nat.zero_add, bits, List.nil_append]
  | succ a ih =>
      rw [Nat.add_right_comm, bits, ih, bits, List.cons_append, Nat.testBit_shiftRight,
        Nat.add_comm]

theorem bits_zero (w : Nat) : bits w 0 = List.replicate w false := by
  induction w with
  | zero => rfl
  | succ w ih => rw [bits, ih, Nat.zero_testBit, List.replicate_succ]

theorem bits_eq_replicate_iff : bits w v = List.replicate w false ↔ v % 2 ^ w = 0 := by
  rw [← bits_zero, bits_eq_iff, Nat.zero_mod]

private theorem foldl_value (l : List Bool) (v : Nat) :
    l.foldl (fun v b => 2 * v + b.toNat) v = v * 2 ^ l.length + value l := by
  induction l generalizing v with
  | nil => simp [value]
  | cons b l ih =>
      rw [value, List.foldl_cons, List.foldl_cons, ih, ih (2 * 0 + b.toNat), List.length_cons,
        pow_succ]
      ring

theorem value_cons (b : Bool) (l : List Bool) :
    value (b :: l) = b.toNat * 2 ^ l.length + value l := by
  rw [value, List.foldl_cons, foldl_value, Nat.mul_zero, Nat.zero_add]

theorem value_lt (l : List Bool) : value l < 2 ^ l.length := by
  induction l with
  | nil => exact Nat.zero_lt_one
  | cons b l ih =>
      have hb : b.toNat ≤ 1 := Bool.toNat_le b
      have := Nat.mul_le_mul_right (2 ^ l.length) hb
      rw [value_cons, List.length_cons, pow_succ]
      omega

theorem bits_value (l : List Bool) : bits l.length (value l) = l := by
  induction l with
  | nil => rfl
  | cons b l ih =>
      have hlt := value_lt l
      rw [List.length_cons, bits, value_cons]
      congr 1
      · rw [Nat.testBit_eq_decide_div_mod_eq, Nat.add_comm,
          Nat.add_mul_div_right _ _ (Nat.two_pow_pos _), Nat.div_eq_of_lt hlt, Nat.zero_add]
        cases b <;> rfl
      · rw [bits_eq_iff.mpr (Nat.mul_add_mod_self_right _ _ _), ih]

theorem value_bits (w v : Nat) : value (bits w v) = v % 2 ^ w := by
  have h := bits_value (bits w v)
  rw [length_bits, bits_eq_iff] at h
  rw [← h, Nat.mod_eq_of_lt]
  simpa using value_lt (bits w v)

end Numbers

section Bytes

@[simp]
theorem byteBits_append (a b : List UInt8) : byteBits (a ++ b) = byteBits a ++ byteBits b :=
  List.flatMap_append ..

theorem byteBits_cons (b : UInt8) (l : List UInt8) :
    byteBits (b :: l) = bits 8 b.toNat ++ byteBits l :=
  List.flatMap_cons ..

@[simp]
theorem length_byteBits (l : List UInt8) : (byteBits l).length = 8 * l.length := by
  induction l with
  | nil => rfl
  | cons b l ih =>
      rw [byteBits_cons, List.length_append, length_bits, ih, List.length_cons]
      omega

theorem byteBits_inj {a b : List UInt8} : byteBits a = byteBits b ↔ a = b := by
  refine ⟨fun h => ?_, congrArg byteBits⟩
  induction a generalizing b with
  | nil =>
      have := congrArg List.length h
      rw [length_byteBits, length_byteBits] at this
      exact (List.eq_nil_of_length_eq_zero (by simpa using this.symm)).symm
  | cons x a ih =>
      cases b with
      | nil =>
          have := congrArg List.length h
          rw [length_byteBits, length_byteBits] at this
          simp at this
      | cons y b =>
          rw [byteBits_cons, byteBits_cons] at h
          obtain ⟨hhead, htail⟩ := List.append_inj h (by simp)
          rw [bits_eq_iff, Nat.mod_eq_of_lt x.toNat_lt, Nat.mod_eq_of_lt y.toNat_lt] at hhead
          rw [UInt8.toNat.inj hhead, ih htail]

/-- A byte string is known by its bits with some zeros behind them, if these do not fill a byte. -/
theorem eq_of_padded {a b : List UInt8} {s : List Bool} {j k : Nat} (hj : j < 8) (hk : k < 8)
    (ha : byteBits a = s ++ List.replicate j false)
    (hb : byteBits b = s ++ List.replicate k false) :
    a = b := by
  have hla := congrArg List.length ha
  have hlb := congrArg List.length hb
  simp only [length_byteBits, List.length_append, List.length_replicate] at hla hlb
  obtain rfl : j = k := by omega
  exact byteBits_inj.mp (ha.trans hb.symm)

end Bytes

/-! ### Accumulators -/

section Words

variable {acc v k : UInt32} {len w : Nat}

/-- Bits are shifted in behind the `len` bits that are waiting. -/
theorem bits_shiftLeft_or (hk : k.toNat = w) (hw : w < 32) (hlen : len + w ≤ 32)
    (hv : v.toNat < 2 ^ w) :
    bits (len + w) (acc <<< k ||| v).toNat = bits len acc.toNat ++ bits w v.toNat := by
  have hor : (acc <<< k ||| v).toNat = (acc.toNat <<< w) % 2 ^ 32 ||| v.toNat := by
    rw [UInt32.toNat_or, UInt32.toNat_shiftLeft, hk, Nat.mod_eq_of_lt hw]
  rw [hor, bits_add]
  congr 1
  · apply bits_congr
    intro i hi
    rw [Nat.testBit_shiftRight, Nat.testBit_or, Nat.testBit_mod_two_pow, Nat.testBit_shiftLeft,
      Nat.testBit_eq_false_of_lt (hv.trans_le (Nat.pow_le_pow_right (by omega) (by omega))),
      decide_eq_true (by omega), decide_eq_true (by omega), Nat.add_sub_cancel_left]
    simp
  · apply bits_congr
    intro i hi
    rw [Nat.testBit_or, Nat.testBit_mod_two_pow, Nat.testBit_shiftLeft,
      decide_eq_false (p := w ≤ i) (by omega)]
    simp

/-- The oldest bits are read in front. -/
theorem bits_shiftRight (hk : k.toNat = len) (hlen : len < 32) :
    bits (w + len) acc.toNat = bits w (acc >>> k).toNat ++ bits len acc.toNat := by
  rw [bits_add, UInt32.toNat_shiftRight, hk, Nat.mod_eq_of_lt hlen]

/-- The mask that keeps `len` bits. -/
theorem toNat_and_mask (hk : k.toNat = len) (hlen : len < 32) :
    (acc &&& ((1 : UInt32) <<< k - 1)).toNat = acc.toNat % 2 ^ len := by
  have hpow : 2 ^ len < 2 ^ 32 := Nat.pow_lt_pow_right (by omega) hlen
  have hpos := Nat.two_pow_pos len
  have hone : ((1 : UInt32) <<< k).toNat = 2 ^ len := by
    rw [UInt32.toNat_shiftLeft, hk, Nat.mod_eq_of_lt hlen]
    show 1 <<< len % 2 ^ 32 = _
    rw [Nat.one_shiftLeft, Nat.mod_eq_of_lt hpow]
  have hmask : ((1 : UInt32) <<< k - 1).toNat = 2 ^ len - 1 := by
    rw [UInt32.toNat_sub, hone]
    show (2 ^ 32 - 1 + 2 ^ len) % 2 ^ 32 = _
    omega
  rw [UInt32.toNat_and, hmask, Nat.and_two_pow_sub_one_eq_mod]

/-- The bits that are waiting are all zero. -/
theorem and_mask_eq_zero_iff (hk : k.toNat = len) (hlen : len < 32) :
    acc &&& ((1 : UInt32) <<< k - 1) = 0 ↔ bits len acc.toNat = List.replicate len false := by
  rw [bits_eq_replicate_iff, ← toNat_and_mask hk hlen, ← UInt32.toNat_inj]
  rfl

end Words

/-! ### Codes -/

/-- A code: the decoder finds exactly the code words of valid values in front of a string. -/
structure Code (α : Type*) where
  enc : α → List Bool
  dec : List Bool → Option (α × List Bool)
  Valid : α → Prop
  dec_eq_some : ∀ s a rest, dec s = some (a, rest) ↔ Valid a ∧ s = enc a ++ rest

section Codes

variable {α : Type*} (c : Code α)

/-- A number of values, one behind the other. -/
def readMany : Nat → List Bool → Option (List α × List Bool)
  | 0, s => some ([], s)
  | m + 1, s => (c.dec s).bind fun p => (readMany m p.2).map fun q => (p.1 :: q.1, q.2)

/-- **Reading back.** -/
theorem readMany_eq_some {m : Nat} {s rest : List Bool} {xs : List α} :
    readMany c m s = some (xs, rest) ↔
      xs.length = m ∧ (∀ x ∈ xs, c.Valid x) ∧ s = xs.flatMap c.enc ++ rest := by
  induction m generalizing s xs with
  | zero =>
      constructor
      · intro h
        obtain ⟨rfl, rfl⟩ := Prod.mk.inj (Option.some.inj h)
        exact ⟨rfl, by simp, rfl⟩
      · rintro ⟨hlen, -, rfl⟩
        obtain rfl := List.eq_nil_of_length_eq_zero hlen
        rfl
  | succ m ih =>
      rw [readMany]
      constructor
      · intro h
        obtain ⟨⟨x, t⟩, hdec, hmap⟩ := Option.bind_eq_some_iff.mp h
        obtain ⟨⟨ys, r⟩, hread, hpair⟩ := Option.map_eq_some_iff.mp hmap
        obtain ⟨rfl, rfl⟩ := Prod.mk.inj hpair
        obtain ⟨hx, rfl⟩ := (c.dec_eq_some _ _ _).mp hdec
        obtain ⟨rfl, hys, ht⟩ := ih.mp hread
        refine ⟨rfl, ?_, ?_⟩
        · intro y hy
          rcases List.mem_cons.mp hy with rfl | hy
          · exact hx
          · exact hys y hy
        · rw [List.flatMap_cons, List.append_assoc]
          exact congrArg _ ht
      · rintro ⟨hlen, hvalid, rfl⟩
        cases xs with
        | nil => cases hlen
        | cons x ys =>
            have hread := ih.mpr ⟨Nat.succ.inj hlen,
              fun y hy => hvalid y (List.mem_cons_of_mem _ hy), rfl⟩
            have hdec := (c.dec_eq_some (c.enc x ++ (ys.flatMap c.enc ++ rest)) x _).mpr
              ⟨hvalid x (List.mem_cons_self ..), rfl⟩
            rw [List.flatMap_cons, List.append_assoc, hdec, Option.bind_some, hread]
            rfl

end Codes

/-! ### How codes are made -/

section Making

variable {α β : Type*}

/-- Words of a fixed width. -/
def wordDec (w : Nat) (s : List Bool) : Option (Nat × List Bool) :=
  if s.length < w then none else some (value (s.take w), s.drop w)

theorem wordDec_bits (w v : Nat) (rest : List Bool) :
    wordDec w (bits w v ++ rest) = some (v % 2 ^ w, rest) := by
  rw [wordDec, if_neg (by simp), List.take_left' (length_bits _ _),
    List.drop_left' (length_bits _ _), value_bits]

theorem wordDec_eq_some (w : Nat) (s : List Bool) (v : Nat) (rest : List Bool) :
    wordDec w s = some (v, rest) ↔ v < 2 ^ w ∧ s = bits w v ++ rest := by
  constructor
  · intro h
    rw [wordDec] at h
    split at h
    · cases h
    · next hlen =>
        obtain ⟨rfl, rfl⟩ := Prod.mk.inj (Option.some.inj h)
        have htake : (s.take w).length = w := List.length_take_of_le (Nat.le_of_not_lt hlen)
        have hv := value_lt (s.take w)
        have hbits := bits_value (s.take w)
        rw [htake] at hv hbits
        exact ⟨hv, by rw [hbits, List.take_append_drop]⟩
  · rintro ⟨hv, rfl⟩
    rw [wordDec_bits, Nat.mod_eq_of_lt hv]

/-- The numbers of `w` bits. -/
def word (w : Nat) : Code Nat where
  enc := bits w
  dec := wordDec w
  Valid v := v < 2 ^ w
  dec_eq_some := wordDec_eq_some w

/-- Zeros up to the first one, at most `m` of them. -/
def unaryDec : Nat → List Bool → Option (Nat × List Bool)
  | _, [] => none
  | _, true :: s => some (0, s)
  | 0, false :: _ => none
  | m + 1, false :: s => (unaryDec m s).map fun r => (r.1 + 1, r.2)

theorem unaryDec_eq_some (m : Nat) (s : List Bool) (k : Nat) (rest : List Bool) :
    unaryDec m s = some (k, rest) ↔
      k ≤ m ∧ s = List.replicate k false ++ [true] ++ rest := by
  induction s generalizing m k with
  | nil => cases k <;> simp [unaryDec]
  | cons b s ih =>
      cases b with
      | true =>
          rw [unaryDec, Option.some.injEq, Prod.mk.injEq]
          cases k with
          | zero => simp
          | succ k => simp [List.replicate_succ]
      | false =>
          cases m with
          | zero =>
              rw [unaryDec]
              cases k with
              | zero => simp
              | succ k => simp
          | succ m =>
              rw [unaryDec, Option.map_eq_some_iff]
              cases k with
              | zero => simp
              | succ k => simp [List.replicate_succ, ih]

/-- The numbers up to `m`, as zeros with a one behind them. -/
def unary (m : Nat) : Code Nat where
  enc k := List.replicate k false ++ [true]
  dec := unaryDec m
  Valid k := k ≤ m
  dec_eq_some := unaryDec_eq_some m

theorem pair_eq_some (c : Code α) (d : Code β) (s : List Bool) (p : α × β) (rest : List Bool) :
    ((c.dec s).bind fun q => (d.dec q.2).map fun r => ((q.1, r.1), r.2)) = some (p, rest) ↔
      (c.Valid p.1 ∧ d.Valid p.2) ∧ s = c.enc p.1 ++ d.enc p.2 ++ rest := by
  constructor
  · intro h
    obtain ⟨⟨a, t⟩, hc, hmap⟩ := Option.bind_eq_some_iff.mp h
    obtain ⟨⟨b, r⟩, hd, hpair⟩ := Option.map_eq_some_iff.mp hmap
    obtain ⟨rfl, rfl⟩ := Prod.mk.inj hpair
    obtain ⟨ha, rfl⟩ := (c.dec_eq_some _ _ _).mp hc
    obtain ⟨hb, ht⟩ := (d.dec_eq_some _ _ _).mp hd
    refine ⟨⟨ha, hb⟩, ?_⟩
    rw [List.append_assoc]
    exact congrArg _ ht
  · rintro ⟨⟨ha, hb⟩, rfl⟩
    have hc := (c.dec_eq_some (c.enc p.1 ++ (d.enc p.2 ++ rest)) p.1 _).mpr ⟨ha, rfl⟩
    have hd := (d.dec_eq_some (d.enc p.2 ++ rest) p.2 _).mpr ⟨hb, rfl⟩
    rw [List.append_assoc, hc, Option.bind_some, hd]
    rfl

/-- A value of one code, and behind it a value of another. -/
def pair (c : Code α) (d : Code β) : Code (α × β) where
  enc p := c.enc p.1 ++ d.enc p.2
  dec s := (c.dec s).bind fun q => (d.dec q.2).map fun r => ((q.1, r.1), r.2)
  Valid p := c.Valid p.1 ∧ d.Valid p.2
  dec_eq_some := pair_eq_some c d

/-- What the values of a code stand for, where some stand for nothing. -/
structure Meaning (c : Code α) (β : Type*) where
  toWord : β → α
  ofWord : α → Option β
  Valid : β → Prop
  toWord_valid : ∀ b, Valid b → c.Valid (toWord b)
  ofWord_eq_some : ∀ a, c.Valid a → ∀ b, ofWord a = some b ↔ Valid b ∧ toWord b = a

theorem meaning_eq_some {c : Code α} (m : Meaning c β) (s : List Bool) (b : β) (rest : List Bool) :
    ((c.dec s).bind fun q => (m.ofWord q.1).map fun b => (b, q.2)) = some (b, rest) ↔
      m.Valid b ∧ s = c.enc (m.toWord b) ++ rest := by
  constructor
  · intro h
    obtain ⟨⟨a, t⟩, hdec, hmap⟩ := Option.bind_eq_some_iff.mp h
    obtain ⟨b', hb, hpair⟩ := Option.map_eq_some_iff.mp hmap
    obtain ⟨rfl, rfl⟩ := Prod.mk.inj hpair
    obtain ⟨ha, rfl⟩ := (c.dec_eq_some _ _ _).mp hdec
    obtain ⟨hvalid, rfl⟩ := (m.ofWord_eq_some a ha _).mp hb
    exact ⟨hvalid, rfl⟩
  · rintro ⟨hvalid, rfl⟩
    have hword := m.toWord_valid b hvalid
    rw [(c.dec_eq_some _ _ _).mpr ⟨hword, rfl⟩, Option.bind_some,
      (m.ofWord_eq_some _ hword b).mpr ⟨hvalid, rfl⟩]
    rfl

/-- The code of what the values stand for. -/
def Meaning.code {c : Code α} (m : Meaning c β) : Code β where
  enc b := c.enc (m.toWord b)
  dec s := (c.dec s).bind fun q => (m.ofWord q.1).map fun b => (b, q.2)
  Valid := m.Valid
  dec_eq_some := meaning_eq_some m

end Making

end OnionNetwork.Lib.Bits
