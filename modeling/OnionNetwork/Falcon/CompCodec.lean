import OnionNetwork.Falcon.Codec

/-!
# The codec of signatures

`comp_encode` and `comp_decode`: of each coefficient the sign and the seven low bits, then the high
bits as a number of zeros with a one behind them. `compLoop_spec` says what the reader finds,
`writeComp_spec` what the writer leaves.
-/

namespace OnionNetwork.Falcon

open Lib Lib.Bits

/-! ## The loops -/

/-- `comp_encode`: the loop that writes bytes, which stops at the end of the output. -/
def flushMax (maxOutLen : Nat) (acc : UInt32) (accLen : Nat) (buf : List UInt8) :
    Option (Nat × List UInt8) :=
  if 8 ≤ accLen then
    if buf.length ≥ maxOutLen then none
    else flushMax maxOutLen acc (accLen - 8) (buf ++ [(acc >>> UInt32.ofNat (accLen - 8)).toUInt8])
  else some (accLen, buf)

/-- `comp_encode`: the accumulator after one coefficient, before bytes are written. -/
def compPush (x : Int16) (acc : UInt32) (accLen : Nat) : UInt32 × Nat :=
  let acc := acc <<< 1
  let t := x.toInt32
  let acc := if t < 0 then acc ||| 1 else acc
  let t := if t < 0 then -t else t
  let w := t.toUInt32
  let acc := acc <<< 7
  let acc := acc ||| (w &&& 127)
  let w := w >>> 7
  let accLen := accLen + 8
  let acc := acc <<< (w + 1)
  let acc := acc ||| 1
  let accLen := accLen + (w + 1).toNat
  (acc, accLen)

/-- `comp_encode`. -/
def compEncode (maxOutLen : Nat) (x : Nat → Int16) (logn : Nat) : Option (List UInt8) :=
  let n := 2 ^ logn
  if ∃ u < n, (x u).toInt < -2047 ∨ (x u).toInt > 2047 then none else do
    let s ← forRange 0 n (fun s u => s.bind fun (s : UInt32 × Nat × List UInt8) =>
      let (acc, accLen) := compPush (x u) s.1 s.2.1
      (flushMax maxOutLen acc accLen s.2.2).map fun r => (acc, r)) (some (0, 0, []))
    if s.2.1 > 0 ∧ s.2.2.length ≥ maxOutLen then none else some (lastByte s)

/-- `if acc_len == 0 { .. acc_len = 8; }` -/
def refill : List UInt8 → UInt32 → Nat → Option (List UInt8 × UInt32 × Nat)
  | buf, acc, accLen + 1 => some (buf, acc, accLen + 1)
  | [], _, 0 => none
  | b :: buf, acc, 0 => some (buf, takeByte acc b, 8)

/-- `comp_decode`: the loop over the high bits of a coefficient. A coefficient is below 2048, so 16
rounds are enough. -/
def compUnary : Nat → List UInt8 → UInt32 → Nat → UInt32 →
    Option (List UInt8 × UInt32 × Nat × UInt32)
  | 0, _, _, _, _ => none
  | fuel + 1, buf, acc, accLen, m =>
      (refill buf acc accLen).bind fun (buf, acc, accLen) =>
        let accLen := accLen - 1
        if acc >>> UInt32.ofNat accLen &&& 1 ≠ 0 then some (buf, acc, accLen, m)
        else
          let m := m + 128
          if m > 2047 then none else compUnary fuel buf acc accLen m

/-- `comp_decode`: the loop over the coefficients. -/
def compLoop : Nat → List UInt8 → UInt32 → Nat → List Int16 → Option (Read Int16)
  | 0, buf, acc, accLen, x => some ⟨buf, acc, accLen, x⟩
  | _ + 1, [], _, _, _ => none
  | todo + 1, b :: buf, acc, accLen, x =>
      let acc := takeByte acc b
      let b := acc >>> UInt32.ofNat accLen
      let s := b &&& 128
      let m := b &&& 127
      (compUnary 16 buf acc accLen m).bind fun (buf, acc, accLen, m) =>
        if s ≠ 0 ∧ m = 0 then none
        else compLoop todo buf acc accLen
          (x ++ [if s ≠ 0 then (-m).toUInt16.toInt16 else m.toUInt16.toInt16])

/-- `comp_decode`: how many bytes were read, and the coefficients. -/
def compDecode (logn : Nat) (input : List UInt8) : Option (Nat × List Int16) := do
  let r ← compLoop (2 ^ logn) input 0 0 []
  if restIsZero r then some (input.length - r.buf.length, r.x) else none

/-! ## Reading -/

section Comp

variable {acc m : UInt32} {accLen n : Nat} {buf : List UInt8} {x : Int16} {S : List Bool}

/-- The coefficients that are written. -/
def CompValid (x : Int16) : Prop := ¬(x.toInt < -2047 ∨ x.toInt > 2047)

/-- The sign and the low bits of a coefficient, and how many zeros follow them. -/
def compWord (x : Int16) : Nat × Nat :=
  ((if x.toInt < 0 then 128 else 0) + x.toInt.natAbs % 128, x.toInt.natAbs / 128)

/-- The coefficient of a sign and low bits, and of a number of zeros. There is no negative zero. -/
def compValue (p : Nat × Nat) : Option Int16 :=
  let m := p.1 % 128 + 128 * p.2
  if 128 ≤ p.1 ∧ m = 0 then none
  else some (Int16.ofInt (if 128 ≤ p.1 then -(m : Int) else m))

theorem compWord_valid (x : Int16) (hx : CompValid x) :
    (compWord x).1 < 2 ^ 8 ∧ (compWord x).2 ≤ 15 := by
  rw [CompValid] at hx
  refine ⟨?_, ?_⟩
  · rw [compWord]
    dsimp only
    split <;> omega
  · rw [compWord]
    dsimp only
    omega

theorem compValue_eq_some (p : Nat × Nat) (hp : p.1 < 2 ^ 8 ∧ p.2 ≤ 15) (x : Int16) :
    compValue p = some x ↔ CompValid x ∧ compWord x = p := by
  obtain ⟨b, k⟩ := p
  obtain ⟨hb, hk⟩ : b < 2 ^ 8 ∧ k ≤ 15 := hp
  have hiff {t : Int} (hlow : -2047 ≤ t) (hhigh : t ≤ 2047) : Int16.ofInt t = x ↔ x.toInt = t := by
    have ht := Int16.toInt_ofInt_of_le (n := t) (by omega) (by omega)
    constructor
    · rintro rfl
      exact ht
    · intro h
      rw [← h, Int16.ofInt_toInt]
  rw [compValue, CompValid, compWord, Prod.mk.injEq]
  dsimp only
  by_cases hb' : 128 ≤ b
  · by_cases hm : b % 128 + 128 * k = 0
    · rw [if_pos ⟨hb', hm⟩]
      refine ⟨fun h => absurd h (by simp), ?_⟩
      rintro ⟨hx, h1, h2⟩
      split at h1 <;> omega
    · rw [if_neg (fun h => hm h.2), if_pos hb', Option.some.injEq, hiff (by omega) (by omega)]
      split <;> omega
  · rw [if_neg (fun h => hb' h.1), if_neg hb', Option.some.injEq, hiff (by omega) (by omega)]
    split <;> omega

/-- A sign, seven bits, and zeros up to a one. -/
def compMeaning : Meaning (pair (word 8) (unary 15)) Int16 where
  toWord := compWord
  ofWord := compValue
  Valid := CompValid
  toWord_valid := compWord_valid
  ofWord_eq_some := compValue_eq_some

theorem refill_spec (acc : UInt32) (buf : List UInt8) (hlen : accLen < 8) :
    (bits accLen acc.toNat ++ byteBits buf = [] ∧ refill buf acc accLen = none) ∨
    ∃ buf' acc' len, refill buf acc accLen = some (buf', acc', len + 1) ∧ len < 8 ∧
      bits accLen acc.toNat ++ byteBits buf = bits (len + 1) acc'.toNat ++ byteBits buf' := by
  cases accLen with
  | succ len => exact .inr ⟨buf, acc, len, by cases buf <;> rfl, by omega, rfl⟩
  | zero =>
      cases buf with
      | nil => exact .inl ⟨rfl, rfl⟩
      | cons b buf =>
          refine .inr ⟨buf, takeByte acc b, 7, rfl, by omega, ?_⟩
          rw [byteBits_cons, ← bits_takeByte (Nat.zero_le 24)]

theorem bit_ne_zero_iff (acc : UInt32) {len : Nat} (hlen : len < 32) :
    acc >>> UInt32.ofNat len &&& 1 ≠ 0 ↔ acc.toNat.testBit len = true := by
  have hbit : (acc >>> UInt32.ofNat len &&& 1).toNat = (acc.toNat.testBit len).toNat := by
    rw [UInt32.toNat_and, UInt32.toNat_shiftRight, toNat_shift hlen, Nat.mod_eq_of_lt hlen]
    show acc.toNat >>> len &&& 1 = _
    rw [Nat.and_one_is_mod, Nat.testBit_eq_decide_div_mod_eq, Nat.shiftRight_eq_div_pow]
    rcases Nat.mod_two_eq_zero_or_one (acc.toNat / 2 ^ len) with h | h <;> simp [h]
  rw [ne_eq, ← UInt32.toNat_inj, hbit]
  cases acc.toNat.testBit len <;> simp

theorem toNat_add_128 (hm : m.toNat < 2048) : (m + 128).toNat = m.toNat + 128 := by
  rw [UInt32.toNat_add, show (128 : UInt32).toNat = 128 from rfl, Nat.mod_eq_of_lt (by omega)]

/-- One round of the loop over the high bits, by the bit that is next. -/
theorem compUnary_round (fuel : Nat) (acc : UInt32) (buf : List UInt8) (hlen : accLen < 8)
    (hm : m.toNat < 2048) :
    (bits accLen acc.toNat ++ byteBits buf = [] ∧ compUnary (fuel + 1) buf acc accLen m = none) ∨
    ∃ buf' acc' len, len < 8 ∧
      (bits accLen acc.toNat ++ byteBits buf = true :: (bits len acc'.toNat ++ byteBits buf') ∧
        compUnary (fuel + 1) buf acc accLen m = some (buf', acc', len, m) ∨
      bits accLen acc.toNat ++ byteBits buf = false :: (bits len acc'.toNat ++ byteBits buf') ∧
        compUnary (fuel + 1) buf acc accLen m =
          if m.toNat + 128 > 2047 then none else compUnary fuel buf' acc' len (m + 128)) := by
  rw [compUnary]
  rcases refill_spec acc buf hlen with
    ⟨hS, hrefill⟩ | ⟨buf', acc', len, hrefill, hlt, hS⟩
  · rw [hrefill]
    exact .inl ⟨hS, rfl⟩
  · have hbit := bit_ne_zero_iff acc' (show len < 32 by omega)
    rw [hS, hrefill, bits, List.cons_append, Option.bind_some]
    dsimp only
    rw [Nat.add_sub_cancel]
    refine .inr ⟨buf', acc', len, hlt, ?_⟩
    cases htest : acc'.toNat.testBit len with
    | true =>
        rw [if_pos (hbit.mpr htest)]
        exact .inl ⟨rfl, rfl⟩
    | false =>
        have hlarge : m + 128 > 2047 ↔ m.toNat + 128 > 2047 := by
          rw [gt_iff_lt, UInt32.lt_iff_toNat_lt, toNat_add_128 hm]
          rfl
        rw [if_neg (by rw [hbit, htest]; exact Bool.false_ne_true)]
        simp only [hlarge, and_self, or_true]

/-- The high bits that were read, and the bits behind. -/
def unaryResult (r : List UInt8 × UInt32 × Nat × UInt32) : Nat × List Bool :=
  (r.2.2.2.toNat, bits r.2.2.1 r.2.1.toNat ++ byteBits r.1)

/-- The loop over the high bits counts zeros; what it is given as fuel is never used up. -/
theorem compUnary_spec (fuel : Nat) (acc : UInt32) (buf : List UInt8) (hlen : accLen < 8)
    (hlow : m.toNat + 128 * fuel < 2048)
    (hhigh : 2047 < m.toNat + 128 * (fuel + 1)) :
    (compUnary (fuel + 1) buf acc accLen m).map unaryResult =
      (unaryDec fuel (bits accLen acc.toNat ++ byteBits buf)).map
        (fun q => (m.toNat + 128 * q.1, q.2)) ∧
    ∀ r, compUnary (fuel + 1) buf acc accLen m = some r → r.2.2.1 < 8 := by
  induction fuel generalizing buf acc accLen m with
  | zero =>
      obtain ⟨hS, hround⟩ | ⟨buf', acc', len, hlt, ⟨hS, hround⟩ | ⟨hS, hround⟩⟩ :=
        compUnary_round 0 acc buf hlen (m := m) (by omega)
      · rw [hS, hround]
        exact ⟨rfl, fun r hr => absurd hr (by simp)⟩
      · rw [hS, hround]
        refine ⟨rfl, fun r hr => ?_⟩
        obtain rfl := Option.some.inj hr
        exact hlt
      · rw [hS, hround, if_pos (by omega)]
        exact ⟨rfl, fun r hr => absurd hr (by simp)⟩
  | succ fuel ih =>
      obtain ⟨hS, hround⟩ | ⟨buf', acc', len, hlt, ⟨hS, hround⟩ | ⟨hS, hround⟩⟩ :=
        compUnary_round (fuel + 1) acc buf hlen (m := m) (by omega)
      · rw [hS, hround]
        exact ⟨rfl, fun r hr => absurd hr (by simp)⟩
      · rw [hS, hround]
        refine ⟨rfl, fun r hr => ?_⟩
        obtain rfl := Option.some.inj hr
        exact hlt
      · have hm := toNat_add_128 (m := m) (by omega)
        have hlow' : (m + 128).toNat + 128 * fuel < 2048 := by omega
        obtain ⟨heq, hstop⟩ := ih acc' buf' hlt hlow' (by omega)
        rw [hS, hround, if_neg (by omega)]
        refine ⟨heq.trans ?_, hstop⟩
        rw [unaryDec, Option.map_map, hm]
        congr 1
        funext q
        rw [Function.comp_apply, Nat.mul_succ, Nat.add_assoc, Nat.add_comm (128 * q.1)]

theorem toNat_and_127 (b : UInt32) : (b &&& 127).toNat = b.toNat % 2 ^ 7 :=
  toNat_and_mask (k := 7) rfl (by omega)

theorem and_128_ne_zero_iff (b : UInt32) : b &&& 128 ≠ 0 ↔ 128 ≤ b.toNat % 2 ^ 8 := by
  have hbit : (b &&& 128).toNat = (b.toNat.testBit 7).toNat * 2 ^ 7 := by
    rw [UInt32.toNat_and]
    exact Nat.and_two_pow b.toNat 7
  rw [ne_eq, ← UInt32.toNat_inj, hbit, Nat.testBit_eq_decide_div_mod_eq]
  by_cases h : b.toNat / 2 ^ 7 % 2 = 1
  · rw [decide_eq_true h]
    simp
    omega
  · rw [decide_eq_false h]
    simp
    omega

/-- `comp_decode`: the sign and the high bits as a coefficient. -/
def compField (s m : UInt32) : Option Int16 :=
  if s ≠ 0 ∧ m = 0 then none
  else some (if s ≠ 0 then (-m).toUInt16.toInt16 else m.toUInt16.toInt16)

theorem compField_eq {b m : UInt32} {k : Nat} (hm : m.toNat = b.toNat % 2 ^ 7 + 128 * k) :
    compField (b &&& 128) m = compValue (b.toNat % 2 ^ 8, k) := by
  have hzero : m = 0 ↔ m.toNat = 0 := UInt32.toNat_inj.symm
  have hmod : b.toNat % 2 ^ 8 % 128 + 128 * k = m.toNat := by omega
  rw [compField, compValue]
  simp only [and_128_ne_zero_iff, hzero, hmod]
  split
  · rfl
  · congr 1
    have hpos : m.toUInt16.toInt16 = Int16.ofInt m.toNat := rfl
    have hneg : (-m).toUInt16.toInt16 = Int16.ofInt (-m.toNat) := by
      rw [UInt32.toUInt16_neg, Int16.ofInt_neg, ← hpos]
      rfl
    rw [hpos, hneg]
    split <;> rfl

theorem compLoop_succ {todo : Nat} {b : UInt8} {xs : List Int16} :
    compLoop (todo + 1) (b :: buf) acc accLen xs =
      (compUnary 16 buf (takeByte acc b) accLen
        (takeByte acc b >>> UInt32.ofNat accLen &&& 127)).bind fun r =>
        (compField (takeByte acc b >>> UInt32.ofNat accLen &&& 128) r.2.2.2).bind fun y =>
          compLoop todo r.1 r.2.1 r.2.2.1 (xs ++ [y]) := by
  rw [compLoop]
  congr 1
  funext r
  rw [compField]
  dsimp only
  split <;> rfl

theorem compCode_dec {v : UInt32} :
    compMeaning.code.dec (bits 8 v.toNat ++ S) = (unaryDec 15 S).bind fun q =>
      (compValue (v.toNat % 2 ^ 8, q.1)).map fun y => (y, q.2) := by
  show ((wordDec 8 (bits 8 v.toNat ++ S)).bind fun q =>
    (unaryDec 15 q.2).map fun r => ((q.1, r.1), r.2)).bind
      (fun q => (compValue q.1).map fun y => (y, q.2)) = _
  rw [wordDec_bits, Option.bind_some]
  cases unaryDec 15 S <;> rfl

/-- **The loop reads coefficients** in the bits that wait and in the bytes behind the cursor. -/
theorem compLoop_spec {todo : Nat} {xs : List Int16} (hlen : accLen < 8) :
    (compLoop todo buf acc accLen xs).map Read.result =
      found compMeaning.code xs todo (bits accLen acc.toNat ++ byteBits buf) ∧
    ∀ r, compLoop todo buf acc accLen xs = some r → r.accLen < 8 := by
  induction todo generalizing buf acc accLen xs with
  | zero =>
      rw [compLoop, found_zero]
      refine ⟨rfl, fun r hr => ?_⟩
      obtain rfl := Option.some.inj hr
      exact hlen
  | succ todo ih =>
      cases buf with
      | nil =>
          -- less than a byte waits: no field can be read
          have hshort : compMeaning.code.dec (bits accLen acc.toNat) = none := by
            show ((wordDec 8 _).bind fun q =>
              (unaryDec 15 q.2).map fun r => ((q.1, r.1), r.2)).bind
                (fun q => (compValue q.1).map fun y => (y, q.2)) = _
            rw [wordDec, if_pos (by rwa [length_bits])]
            rfl
          rw [compLoop, found_succ, show byteBits [] = [] from rfl, List.append_nil, hshort]
          exact ⟨rfl, fun r hr => absurd hr (by simp)⟩
      | cons b buf =>
          -- eight bits for sign and low part, then the unary part behind them
          have hsplit : bits (8 + accLen) (takeByte acc b).toNat = _ :=
            bits_shiftRight (toNat_shift (by omega)) (by omega)
          rw [compLoop_succ, found_succ, byteBits_cons, ← bits_takeByte (by omega),
            Nat.add_comm accLen 8, hsplit, List.append_assoc, compCode_dec]
          generalize takeByte acc b = acc'
          have hlow := toNat_and_127 (acc' >>> UInt32.ofNat accLen)
          obtain ⟨heq, hstop⟩ := compUnary_spec 15 acc' buf hlen
            (m := acc' >>> UInt32.ofNat accLen &&& 127) (by omega) (by omega)
          cases hread : compUnary 16 buf acc' accLen (acc' >>> UInt32.ofNat accLen &&& 127) with
          | none =>
              rw [hread, Option.map_none] at heq
              rw [Option.map_eq_none_iff.mp heq.symm]
              exact ⟨rfl, fun r hr => absurd hr (by simp)⟩
          | some r =>
              rw [hread, Option.map_some] at heq
              obtain ⟨q, hq, hr⟩ := Option.map_eq_some_iff.mp heq.symm
              obtain ⟨hm, hS⟩ := Prod.mk.inj hr
              rw [hlow] at hm
              rw [hq, Option.bind_some, Option.bind_some, compField_eq hm.symm]
              cases compValue ((acc' >>> UInt32.ofNat accLen).toNat % 2 ^ 8, q.1) with
              | none => exact ⟨rfl, fun r hr => absurd hr (by simp)⟩
              | some y =>
                  rw [Option.bind_some, Option.map_some, Option.bind_some, hS]
                  exact ih (hstop r hread)

theorem compDecode_eq_some {logn v : Nat} {input : List UInt8} {xs : List Int16} :
    compDecode logn input = some (v, xs) ↔
      v ≤ input.length ∧ xs.length = 2 ^ logn ∧ (∀ y ∈ xs, CompValid y) ∧ ∃ j < 8,
        byteBits (input.take v) = xs.flatMap compMeaning.code.enc ++ List.replicate j false := by
  have hloop : (compLoop (2 ^ logn) input 0 0 []).map Read.result = _ :=
    (compLoop_spec (by omega)).1
  have hlt : ∀ r, compLoop (2 ^ logn) input 0 0 [] = some r → r.accLen < 8 :=
    (compLoop_spec (by omega)).2
  rw [bits, List.nil_append] at hloop
  have hdecoded := decoded_iff (k := v) (v := xs) hloop hlt
  rw [compDecode]
  constructor
  · intro h
    obtain ⟨r, hr, hrest⟩ := Option.bind_eq_some_iff.mp h
    split at hrest
    · next hzero =>
        obtain ⟨hv, rfl⟩ := Prod.mk.inj (Option.some.inj hrest)
        obtain ⟨hlen, hvalid, hle, hbytes⟩ := hdecoded.mp ⟨r, hr, hzero, rfl, hv⟩
        exact ⟨hle, hlen, hvalid, hbytes⟩
    · cases hrest
  · rintro ⟨hle, hlen, hvalid, hbytes⟩
    obtain ⟨r, hr, hzero, rfl, rfl⟩ := hdecoded.mpr ⟨hlen, hvalid, hle, hbytes⟩
    rw [hr]
    exact if_pos hzero

end Comp

/-! ## Writing -/

section CompWriting

variable {acc : UInt32} {accLen n maxOutLen : Nat} {buf : List UInt8} {S : List Bool}

theorem length_le_flush (acc : UInt32) (accLen : Nat) (buf : List UInt8) :
    buf.length ≤ (flush acc accLen buf).2.length := by
  induction accLen, buf using flush.induct acc with
  | case1 accLen buf hge ih =>
      rw [flush, if_pos hge]
      exact (List.length_append ▸ Nat.le_add_right ..).trans ih
  | case2 accLen buf hlt => rw [flush, if_neg hlt]

/-- The loop that stops at the end of the output, against the one that does not. -/
theorem flushMax_eq (hbuf : buf.length ≤ maxOutLen) :
    flushMax maxOutLen acc accLen buf =
      if (flush acc accLen buf).2.length ≤ maxOutLen then some (flush acc accLen buf)
      else none := by
  induction accLen, buf using flush.induct acc with
  | case1 accLen buf hge ih =>
      rw [flushMax, if_pos hge, flush, if_pos hge]
      by_cases hfull : buf.length ≥ maxOutLen
      · have hle := length_le_flush acc (accLen - 8)
          (buf ++ [(acc >>> UInt32.ofNat (accLen - 8)).toUInt8])
        rw [List.length_append, List.length_singleton] at hle
        rw [if_pos hfull, if_neg (by omega)]
      · rw [if_neg hfull]
        apply ih
        rw [List.length_append, List.length_singleton]
        omega
  | case2 accLen buf hlt => rw [flushMax, if_neg hlt, flush, if_neg hlt, if_pos hbuf]

private theorem toNat_of_nonneg {y : Int32} {t : Int} (hy : y.toInt = t) (ht : 0 ≤ t) :
    (y.toUInt32.toNat : Int) = t := by
  have hcond : y.toInt = if 2 * y.toUInt32.toNat < 2 ^ 32 then (y.toUInt32.toNat : Int)
      else y.toUInt32.toNat - (2 ^ 32 : Nat) := BitVec.toInt_eq_toNat_cond y.toBitVec
  have hlt := y.toUInt32.toNat_lt
  split at hcond <;> omega

theorem toInt32_neg_iff (x : Int16) : x.toInt32 < 0 ↔ x.toInt < 0 := by
  rw [Int32.lt_iff_toInt_lt, Int16.toInt_toInt32]
  rfl

/-- `t = -t` where `t` is negative. -/
theorem natAbs_toUInt32 (x : Int16) :
    (if x.toInt32 < 0 then -x.toInt32 else x.toInt32).toUInt32.toNat = x.toInt.natAbs := by
  have hlow := Int16.le_toInt x
  have hhigh := Int16.toInt_lt x
  have hsign := toInt32_neg_iff x
  apply Int.ofNat_inj.mp
  split
  · next hneg =>
      rw [hsign] at hneg
      apply toNat_of_nonneg
      · rw [Int32.toInt_neg, Int16.toInt_toInt32, Int.bmod_eq_of_le (by omega) (by omega)]
        omega
      · omega
  · next hpos =>
      rw [hsign] at hpos
      exact toNat_of_nonneg ((Int16.toInt_toInt32 x).trans (by omega)) (by omega)

theorem enc_comp (x : Int16) : compMeaning.code.enc x =
    bits 1 (if x.toInt < 0 then 1 else 0) ++ (bits 7 (x.toInt.natAbs % 2 ^ 7) ++
      bits (x.toInt.natAbs / 128 + 1) 1) := by
  have hone : bits (x.toInt.natAbs / 128 + 1) 1 =
      List.replicate (x.toInt.natAbs / 128) false ++ [true] := by
    rw [bits_add, show 1 >>> 1 = 0 from rfl, bits_zero]
    rfl
  have hword : bits 8 (compWord x).1 =
      bits 1 (if x.toInt < 0 then 1 else 0) ++ bits 7 (x.toInt.natAbs % 2 ^ 7) := by
    rw [show 8 = 1 + 7 from rfl, bits_add, compWord]
    dsimp only
    congr 1
    · rw [bits_eq_iff, Nat.shiftRight_eq_div_pow]
      split <;> omega
    · rw [bits_eq_iff]
      split <;> omega
  rw [hone, ← List.append_assoc, ← hword]
  rfl

/-- A coefficient goes into the accumulator as its code word. -/
theorem compPush_spec (acc : UInt32) {x : Int16} (hlen : accLen < 8) (hx : CompValid x) :
    (compPush x acc accLen).2 ≤ 32 ∧
    bits (compPush x acc accLen).2 (compPush x acc accLen).1.toNat =
      bits accLen acc.toNat ++ compMeaning.code.enc x := by
  have habs := natAbs_toUInt32 x
  have hsign := toInt32_neg_iff x
  rw [CompValid] at hx
  rw [compPush, enc_comp]
  simp only [hsign] at habs ⊢
  generalize (if x.toInt < 0 then -x.toInt32 else x.toInt32).toUInt32 = w at habs ⊢
  have hw : (w >>> 7 + 1).toNat = x.toInt.natAbs / 128 + 1 := by
    rw [UInt32.toNat_add, UInt32.toNat_shiftRight, habs]
    show (x.toInt.natAbs >>> 7 + 1) % 2 ^ 32 = _
    rw [Nat.shiftRight_eq_div_pow]
    omega
  rw [hw]
  refine ⟨by omega, ?_⟩
  have hor : (if x.toInt < 0 then acc <<< 1 ||| 1 else acc <<< 1) =
      acc <<< 1 ||| (if x.toInt < 0 then 1 else 0) := by
    split
    · rfl
    · rw [UInt32.or_zero]
  have hlow : (w &&& 127).toNat = x.toInt.natAbs % 2 ^ 7 := by
    rw [toNat_and_127, habs]
  have hbit : ((if x.toInt < 0 then 1 else 0 : UInt32)).toNat = if x.toInt < 0 then 1 else 0 := by
    split <;> rfl
  have h1 : bits (accLen + 1) (acc <<< 1 ||| (if x.toInt < 0 then 1 else 0)).toNat = _ :=
    bits_shiftLeft_or rfl (by omega) (by omega) (by rw [hbit]; split <;> omega)
  generalize acc <<< 1 ||| (if x.toInt < 0 then 1 else 0) = signed at hor h1
  have h2 : bits (accLen + 1 + 7) (signed <<< 7 ||| w &&& 127).toNat = _ :=
    bits_shiftLeft_or rfl (by omega) (by omega) (by rw [hlow]; omega)
  have hone : (1 : UInt32).toNat < 2 ^ (x.toInt.natAbs / 128 + 1) :=
    Nat.one_lt_two_pow (Nat.succ_ne_zero _)
  rw [hor, bits_shiftLeft_or hw (by omega) (by omega) hone, h2, h1, hbit, hlow, List.append_assoc,
    List.append_assoc]
  rfl

/-- `comp_encode` without an end of the output. -/
def writeComp (x : Nat → Int16) (n : Nat) : UInt32 × Nat × List UInt8 :=
  forRange 0 n (fun s u =>
    ((compPush (x u) s.1 s.2.1).1,
      flush (compPush (x u) s.1 s.2.1).1 (compPush (x u) s.1 s.2.1).2 s.2.2)) (0, 0, [])

theorem writeComp_succ (x : Nat → Int16) (n : Nat) :
    writeComp x (n + 1) =
      ((compPush (x n) (writeComp x n).1 (writeComp x n).2.1).1,
        flush (compPush (x n) (writeComp x n).1 (writeComp x n).2.1).1
          (compPush (x n) (writeComp x n).1 (writeComp x n).2.1).2 (writeComp x n).2.2) := by
  rw [writeComp, forRange_succ (Nat.zero_le n)]
  rfl

theorem writeComp_spec {x : Nat → Int16} (hx : ∀ u < n, CompValid (x u)) :
    Wrote (writeComp x n) ((List.range n).flatMap fun u => compMeaning.code.enc (x u)) := by
  induction n with
  | zero => exact ⟨Nat.zero_lt_succ 7, rfl⟩
  | succ n ih =>
      obtain ⟨hlt, hS⟩ := ih fun u hu => hx u (by omega)
      obtain ⟨hlen, hbits⟩ := compPush_spec (writeComp x n).1 hlt (hx n (Nat.lt_succ_self n))
      rw [writeComp_succ, List.range_succ, List.flatMap_append, List.flatMap_singleton, ← hS,
        List.append_assoc, ← hbits]
      exact flush_spec hlen

/-- The loop of `comp_encode` ends where the output is long enough. -/
theorem compEncode_loop (x : Nat → Int16) (n : Nat) :
    forRange 0 n (fun s u => s.bind fun (s : UInt32 × Nat × List UInt8) =>
      let (acc, accLen) := compPush (x u) s.1 s.2.1
      (flushMax maxOutLen acc accLen s.2.2).map fun r => (acc, r)) (some (0, 0, [])) =
    if (writeComp x n).2.2.length ≤ maxOutLen then some (writeComp x n) else none := by
  induction n with
  | zero => exact (if_pos (Nat.zero_le maxOutLen)).symm
  | succ n ih =>
      rw [forRange_succ (Nat.zero_le n), ih, writeComp_succ]
      have hgrow := length_le_flush (compPush (x n) (writeComp x n).1 (writeComp x n).2.1).1
        (compPush (x n) (writeComp x n).1 (writeComp x n).2.1).2 (writeComp x n).2.2
      by_cases hfits : (writeComp x n).2.2.length ≤ maxOutLen
      · rw [if_pos hfits, Option.bind_some]
        dsimp only
        rw [flushMax_eq hfits]
        split <;> rfl
      · rw [if_neg hfits, if_neg (fun h => hfits (hgrow.trans h))]
        rfl

theorem length_lastByte_le_iff (maxOutLen : Nat) (s : UInt32 × Nat × List UInt8) :
    (lastByte s).length ≤ maxOutLen ↔
      s.2.2.length ≤ maxOutLen ∧ ¬(s.2.1 > 0 ∧ s.2.2.length ≥ maxOutLen) := by
  rw [lastByte]
  split
  · rw [List.length_append, List.length_singleton]
    omega
  · omega

theorem compEncode_eq_some {logn : Nat} {x : Nat → Int16} {out : List UInt8} :
    compEncode maxOutLen x logn = some out ↔
      (∀ u < 2 ^ logn, CompValid (x u)) ∧ out.length ≤ maxOutLen ∧ ∃ j < 8,
        byteBits out = (List.range (2 ^ logn)).flatMap (fun u => compMeaning.code.enc (x u)) ++
          List.replicate j false := by
  have hbad : (∀ u < 2 ^ logn, CompValid (x u)) ↔
      ¬∃ u < 2 ^ logn, (x u).toInt < -2047 ∨ (x u).toInt > 2047 := by
    simp only [CompValid, not_exists, not_and]
  rw [compEncode]
  dsimp only
  rw [compEncode_loop]
  by_cases hx : ∀ u < 2 ^ logn, CompValid (x u)
  · rw [if_neg (hbad.mp hx), ← eq_lastByte_iff (writeComp_spec hx)]
    have hlast := length_lastByte_le_iff maxOutLen (writeComp x (2 ^ logn))
    by_cases hfits : (writeComp x (2 ^ logn)).2.2.length ≤ maxOutLen
    · rw [if_pos hfits]
      show (if _ then none else some (lastByte (writeComp x (2 ^ logn)))) = some out ↔ _
      by_cases hfull : (writeComp x (2 ^ logn)).2.1 > 0 ∧
          (writeComp x (2 ^ logn)).2.2.length ≥ maxOutLen
      · rw [if_pos hfull]
        refine ⟨fun h => absurd h (by simp), ?_⟩
        rintro ⟨-, hout, rfl⟩
        exact absurd hfull (hlast.mp hout).2
      · rw [if_neg hfull, Option.some.injEq]
        refine ⟨?_, fun h => h.2.2⟩
        rintro rfl
        exact ⟨hx, hlast.mpr ⟨hfits, hfull⟩, rfl⟩
    · rw [if_neg hfits]
      refine ⟨fun h => absurd h (by simp), ?_⟩
      rintro ⟨-, hout, rfl⟩
      exact absurd (hlast.mp hout).1 hfits
  · rw [if_pos (not_not.mp (mt hbad.mpr hx))]
    exact ⟨fun h => absurd h (by simp), fun h => absurd h.1 hx⟩

/-- Coefficients in range can be written, if there is room. -/
theorem exists_compEncode (maxOutLen logn : Nat) {x : Nat → Int16}
    (hx : ∀ u < 2 ^ logn, CompValid (x u))
    (hroom : ((List.range (2 ^ logn)).flatMap fun u => compMeaning.code.enc (x u)).length ≤
      8 * maxOutLen) : ∃ out, compEncode maxOutLen x logn = some out ∧
        8 * out.length <
          ((List.range (2 ^ logn)).flatMap fun u => compMeaning.code.enc (x u)).length + 8 := by
  obtain ⟨j, hj, hbytes⟩ := (writeComp_spec hx).lastByte
  have hlen := congrArg List.length hbytes
  rw [length_byteBits, List.length_append, List.length_replicate] at hlen
  exact ⟨_, compEncode_eq_some.mpr ⟨hx, by omega, j, hj, hbytes⟩, by omega⟩

/-- What was written is found in front of anything else. -/
theorem compDecode_encoded {logn : Nat} {x : Nat → Int16} {out : List UInt8}
    (h : compEncode maxOutLen x logn = some out) (rest : List UInt8) :
    compDecode logn (out ++ rest) = some (out.length, (List.range (2 ^ logn)).map x) := by
  obtain ⟨hx, -, j, hj, hbytes⟩ := compEncode_eq_some.mp h
  rw [← List.flatMap_map] at hbytes
  refine compDecode_eq_some.mpr ⟨?_, by simp, ?_, j, hj, ?_⟩
  · rw [List.length_append]
    exact Nat.le_add_right ..
  · intro y hy
    obtain ⟨u, hu, rfl⟩ := List.mem_map.mp hy
    exact hx u (List.mem_range.mp hu)
  · rw [List.take_left]
    exact hbytes

end CompWriting

end OnionNetwork.Falcon
