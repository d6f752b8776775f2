import OnionNetwork.Falcon.Ntt
import Mathlib.Tactic.Linarith

/-!
# Verification and key completion

`is_short` and `is_short_half`, which add up squares in a `u32` and notice in `ng` when the sum
reached the top bit, and the functions of the verifier that work with the transform. A C `int`
that is 0 or 1 is a `Bool`. Where a function can stop in a loop with the result 0, it is an
`Option`, and what it had written into its output by then is left out.
-/

namespace OnionNetwork.Falcon

open Lib

/-! ## Lengths of vectors -/

/-- `l2bound`. -/
def l2bound : List UInt32 :=
  [0, 101498, 208714, 428865, 892039, 1852696, 3842630, 7959734, 16468416, 34034726, 70265242]

/-- `s = s.wrapping_add((z * z) as u32); ng |= s;` -/
def addSquare (z : Int16) (acc : UInt32 × UInt32) : UInt32 × UInt32 :=
  let z := z.toInt32
  let s := acc.1 + (z * z).toUInt32
  (s, acc.2 ||| s)

/-- `is_short`. -/
def isShort (s1 s2 : Nat → Int16) (logn : Nat) : Bool :=
  let n := 2 ^ logn
  let (s, ng) := forRange 0 n (fun acc u => addSquare (s2 u) (addSquare (s1 u) acc)) (0, 0)
  let s := s ||| -(ng >>> 31)
  s ≤ l2bound.getD logn 0

/-- `is_short_half`. -/
def isShortHalf (sqn : UInt32) (s2 : Nat → Int16) (logn : Nat) : Bool :=
  let n := 2 ^ logn
  let ng := -(sqn >>> 31)
  let (sqn, ng) := forRange 0 n (fun acc u => addSquare (s2 u) acc) (sqn, ng)
  let sqn := sqn ||| -(ng >>> 31)
  sqn ≤ l2bound.getD logn 0

/-! ## Polynomials -/

/-- `mq_poly_tomonty`. -/
def mqPolyTomonty (f : Nat → UInt16) (logn : Nat) : Nat → UInt16 :=
  forRange 0 (2 ^ logn) (fun f u =>
    Function.update f u (mqMontymul (f u).toUInt32 10952).toUInt16) f

/-- `mq_poly_montymul_ntt`. -/
def mqPolyMontymulNtt (f g : Nat → UInt16) (logn : Nat) : Nat → UInt16 :=
  forRange 0 (2 ^ logn) (fun f u =>
    Function.update f u (mqMontymul (f u).toUInt32 (g u).toUInt32).toUInt16) f

/-- `mq_poly_sub`. -/
def mqPolySub (f g : Nat → UInt16) (logn : Nat) : Nat → UInt16 :=
  forRange 0 (2 ^ logn) (fun f u =>
    Function.update f u (mqSub (f u).toUInt32 (g u).toUInt32).toUInt16) f

/-- `to_ntt_monty`. -/
def toNttMonty (h : Nat → UInt16) (logn : Nat) : Nat → UInt16 :=
  mqPolyTomonty (mqNtt h logn) logn

/-- The word of a signed coefficient: `w = s as u32; w += 12289 & -(w >> 31);` -/
def signedWord (s : Int16) : UInt32 :=
  let w := s.toInt32.toUInt32
  w + ((12289 : UInt32) &&& -(w >>> 31))

/-- The representative between -6144 and 6144 that `verify_raw` takes. -/
def centre (x : UInt16) : Int16 :=
  let w := x.toUInt32
  (w.toInt32 - ((12289 : UInt32) &&& -((6144 - w) >>> 31)).toInt32).toInt16

/-- The loop of `compute_public` and of `complete_private` that divides by a transform and stops
at a zero. -/
def divNtt (h tt : Nat → UInt16) (logn : Nat) : Option (Nat → UInt16) :=
  forRange 0 (2 ^ logn) (fun h u => h.bind fun h =>
    if tt u = 0 then none
    else some (Function.update h u (mqDiv12289 (h u).toUInt32 (tt u).toUInt32).toUInt16)) (some h)

/-- `verify_raw`; the buffer `tmp` is only written before it is read. -/
def verifyRaw (c0 : Nat → UInt16) (s2 : Nat → Int16) (h : Nat → UInt16) (logn : Nat) : Bool :=
  let tt := fun u => (signedWord (s2 u)).toUInt16
  let tt := mqNtt tt logn
  let tt := mqPolyMontymulNtt tt h logn
  let tt := mqIntt tt logn
  let tt := mqPolySub tt c0 logn
  isShort (fun u => centre (tt u)) s2 logn

/-- `compute_public`. -/
def computePublic (f g : Nat → Int8) (logn : Nat) : Option (Nat → UInt16) := do
  let tt := fun u => (mqConvSmall (f u).toInt32).toUInt16
  let h := fun u => (mqConvSmall (g u).toInt32).toUInt16
  let h := mqNtt h logn
  let tt := mqNtt tt logn
  let h ← divNtt h tt logn
  some (mqIntt h logn)

/-- The last loop of `complete_private`: centred coefficients that fit. -/
def centredWord (x : UInt16) : Int32 :=
  let w := x.toUInt32
  (w - ((12289 : UInt32) &&& ~~~(-((w - 6144) >>> 31)))).toInt32

/-- `complete_private`. -/
def completePrivate (f g F : Nat → Int8) (logn : Nat) : Option (Nat → Int8) := do
  let t1 := fun u => (mqConvSmall (g u).toInt32).toUInt16
  let t2 := fun u => (mqConvSmall (F u).toInt32).toUInt16
  let t1 := mqNtt t1 logn
  let t2 := mqNtt t2 logn
  let t1 := mqPolyTomonty t1 logn
  let t1 := mqPolyMontymulNtt t1 t2 logn
  let t2 := fun u => (mqConvSmall (f u).toInt32).toUInt16
  let t2 := mqNtt t2 logn
  let t1 ← divNtt t1 t2 logn
  let t1 := mqIntt t1 logn
  forRange 0 (2 ^ logn) (fun G u => G.bind fun G =>
    let gi := centredWord (t1 u)
    if gi < -127 ∨ gi > 127 then none else some (Function.update G u gi.toInt8)) (some fun _ => 0)

/-! ## Words and integers -/

theorem toNat_toUInt32 (x : Int32) : (x.toUInt32.toNat : Int) = x.toInt % 2 ^ 32 := by
  have h := x.toBitVec.toInt_eq_toNat_cond
  have hlt := x.toBitVec.isLt
  show (x.toBitVec.toNat : Int) = x.toBitVec.toInt % 2 ^ 32
  rw [h]
  split <;> omega

/-- The square of a number that is small enough does not overflow. -/
theorem toNat_mul_self {z : Int32} (hz : |z.toInt| ≤ 46340) :
    ((z * z).toUInt32.toNat : Int) = z.toInt ^ 2 := by
  obtain ⟨hlo, hhi⟩ := abs_le.mp hz
  have hsq : 0 ≤ z.toInt * z.toInt ∧ z.toInt * z.toInt ≤ 46340 * 46340 := by
    constructor <;> nlinarith
  rw [toNat_toUInt32, Int32.toInt_mul, sq, Int.bmod_def]
  generalize z.toInt * z.toInt = d at *
  split <;> omega

theorem toNat_square (z : Int16) :
    ((z.toInt32 * z.toInt32).toUInt32.toNat : Int) = z.toInt ^ 2 := by
  have hlo := z.le_toInt
  have hhi := z.toInt_lt
  rw [toNat_mul_self, Int16.toInt_toInt32]
  rw [Int16.toInt_toInt32, abs_le]
  omega

/-- The square of the length of a vector. -/
def normSq (n : Nat) (s : Nat → Int) : Int := ∑ u ∈ Finset.range n, s u ^ 2

/-- The sum of the squares so far, or that it reached the top bit. -/
def Adds (acc : UInt32 × UInt32) (total : Int) : Prop :=
  (total < 2 ^ 31 ∧ (acc.1.toNat : Int) = total ∧ acc.2.toNat < 2 ^ 31) ∨
    (2 ^ 31 ≤ total ∧ 2 ^ 31 ≤ acc.2.toNat)

/-- A word of at most `2 ^ 31` cannot take the sum past the top bit unseen. -/
theorem Adds.add {acc : UInt32 × UInt32} {total : Int} (h : Adds acc total) {d : UInt32}
    (hd : d.toNat ≤ 2 ^ 31) : Adds (acc.1 + d, acc.2 ||| (acc.1 + d)) (total + d.toNat) := by
  have hor : (acc.2 ||| (acc.1 + d)).toNat = acc.2.toNat ||| (acc.1 + d).toNat :=
    UInt32.toNat_or _ _
  have hadd : (acc.1 + d).toNat = (acc.1.toNat + d.toNat) % 2 ^ 32 := UInt32.toNat_add _ _
  rcases h with ⟨htotal, hs, hng⟩ | ⟨htotal, hng⟩
  · have hs' : ((acc.1 + d).toNat : Int) = total + d.toNat := by
      rw [hadd]
      omega
    rcases Int.lt_or_le (total + d.toNat) (2 ^ 31) with hlt | hge
    · exact .inl ⟨hlt, hs', hor ▸ Nat.or_lt_two_pow hng (by omega)⟩
    · exact .inr ⟨hge, hor ▸ Nat.le_trans (by omega) Nat.right_le_or⟩
  · exact .inr ⟨by omega, hor ▸ Nat.le_trans hng Nat.left_le_or⟩

theorem Adds.addSquare {acc : UInt32 × UInt32} {total : Int} (h : Adds acc total) (z : Int16) :
    Adds (addSquare z acc) (total + z.toInt ^ 2) := by
  have hsq := toNat_square z
  have hlo := z.le_toInt
  have hhi := z.toInt_lt
  have hle : z.toInt ^ 2 ≤ 2 ^ 30 := by nlinarith
  rw [← hsq]
  exact h.add (by omega)

theorem l2bound_lt (logn : Nat) : (l2bound.getD logn 0).toNat < 2 ^ 31 := by
  rcases Nat.lt_or_ge logn 11 with h | h
  · have hall : ∀ k < 11, (l2bound.getD k 0).toNat < 2 ^ 31 := by decide
    exact hall logn h
  · rw [List.getD_eq_default _ _ h]
    decide

/-- What the mask makes of the sum: nothing, or the largest word. -/
theorem Adds.masked {s ng : UInt32} {total : Int} (h : Adds (s, ng) total) :
    (total < 2 ^ 31 ∧ ((s ||| -(ng >>> 31)).toNat : Int) = total) ∨
      (2 ^ 31 ≤ total ∧ 2 ^ 32 - 1 ≤ (s ||| -(ng >>> 31)).toNat) := by
  rcases h with ⟨htotal, hs, hng⟩ | ⟨htotal, hng⟩
  · rcases top_bit_cases ng with ⟨-, hbit⟩ | ⟨hge, -⟩
    · rw [hbit, UInt32.neg_zero, UInt32.or_zero]
      exact .inl ⟨htotal, hs⟩
    · simp only at hng
      omega
  · rcases top_bit_cases ng with ⟨hlt, -⟩ | ⟨-, hbit⟩
    · simp only at hng
      omega
    · rw [hbit, show (-1 : UInt32) = 0xffffffff from rfl, UInt32.toNat_or]
      exact .inr ⟨htotal, Nat.right_le_or⟩

/-- The comparison at the end sees the sum itself. -/
theorem Adds.le_iff {s ng bound : UInt32} {total : Int} (h : Adds (s, ng) total)
    (hbound : bound.toNat < 2 ^ 31) : s ||| -(ng >>> 31) ≤ bound ↔ total ≤ bound.toNat := by
  rw [UInt32.le_iff_toNat_le]
  rcases h.masked with ⟨htotal, hvalue⟩ | ⟨htotal, hvalue⟩ <;> omega

theorem normSq_succ (n : Nat) (s : Nat → Int) : normSq (n + 1) s = normSq n s + s n ^ 2 :=
  Finset.sum_range_succ _ _

/-- **`is_short` is exact**, although it adds modulo `2 ^ 32`. -/
theorem isShort_iff (s1 s2 : Nat → Int16) (logn : Nat) : isShort s1 s2 logn = true ↔
    normSq (2 ^ logn) (fun u => (s1 u).toInt) + normSq (2 ^ logn) (fun u => (s2 u).toInt) ≤
      (l2bound.getD logn 0).toNat := by
  have hadds : ∀ n, Adds
      (forRange 0 n (fun acc u => addSquare (s2 u) (addSquare (s1 u) acc)) (0, 0))
      (normSq n (fun u => (s1 u).toInt) + normSq n (fun u => (s2 u).toInt)) := by
    intro n
    induction n with
    | zero =>
        exact .inl ⟨show (0 : Int) < 2 ^ 31 by decide, rfl,
          show (0 : UInt32).toNat < 2 ^ 31 by decide⟩
    | succ n ih =>
        rw [forRange_succ (Nat.zero_le n), normSq_succ, normSq_succ]
        have := (ih.addSquare (s1 n)).addSquare (s2 n)
        rwa [show ∀ p q r t : Int, p + q + r + t = p + r + (q + t) by intros; ring] at this
  rw [isShort, decide_eq_true_iff]
  exact (hadds (2 ^ logn)).le_iff (l2bound_lt logn)

/-- **`is_short_half` is exact** on any partial sum. -/
theorem isShortHalf_iff (sqn : UInt32) (s2 : Nat → Int16) (logn : Nat) :
    isShortHalf sqn s2 logn = true ↔
      sqn.toNat + normSq (2 ^ logn) (fun u => (s2 u).toInt) ≤ (l2bound.getD logn 0).toNat := by
  have hadds : ∀ n, Adds (forRange 0 n (fun acc u => addSquare (s2 u) acc) (sqn, -(sqn >>> 31)))
      (sqn.toNat + normSq n (fun u => (s2 u).toInt)) := by
    intro n
    induction n with
    | zero =>
        rw [forRange_of_le (Nat.le_refl 0), normSq, Finset.sum_range_zero, Int.add_zero]
        rcases top_bit_cases sqn with ⟨hlt, hbit⟩ | ⟨hge, hbit⟩
        · rw [hbit]
          exact .inl ⟨by omega, rfl, show (-0 : UInt32).toNat < 2 ^ 31 by decide⟩
        · rw [hbit]
          exact .inr ⟨by omega, show 2 ^ 31 ≤ (-1 : UInt32).toNat by decide⟩
    | succ n ih =>
        rw [forRange_succ (Nat.zero_le n), normSq_succ]
        have := ih.addSquare (s2 n)
        rwa [Int.add_assoc] at this
  rw [isShortHalf, decide_eq_true_iff]
  exact (hadds (2 ^ logn)).le_iff (l2bound_lt logn)

/-! ## Signed coefficients -/

/-- A signed number below the modulus becomes the word of its residue. -/
theorem mqConvSmall_spec {x : Int32} (hx : x.toInt ^ 2 < 12289 ^ 2) :
    (mqConvSmall x).toNat < 12289 ∧ toZq (mqConvSmall x) = (x.toInt : Zq) := by
  obtain ⟨hlo, hhi⟩ := abs_lt.mp (abs_lt_of_sq_lt_sq hx (by decide))
  have hword := toNat_toUInt32 x
  have hvalue : ((mqConvSmall x).toNat : Int) =
      if x.toInt < 0 then x.toInt + 12289 else x.toInt := by
    rw [mqConvSmall, toNat_add_mask, show (12289 : UInt32).toNat = 12289 from rfl]
    split <;> split <;> omega
  refine ⟨?_, ?_⟩
  · split at hvalue <;> omega
  · have hcast := congrArg (Int.cast (R := Zq)) hvalue
    rw [Int.cast_natCast] at hcast
    rw [toZq, hcast]
    split
    · rw [Int.cast_add, show ((12289 : Int) : Zq) = 0 from rfl, add_zero]
    · rfl

theorem signedWord_spec {s : Int16} (hs : s.toInt ^ 2 < 12289 ^ 2) :
    (signedWord s).toNat < 12289 ∧ toZq (signedWord s) = (s.toInt : Zq) := by
  have h := mqConvSmall_spec (x := s.toInt32) (by rwa [Int16.toInt_toInt32])
  rwa [Int16.toInt_toInt32] at h

theorem int8_spec (x : Int8) : (mqConvSmall x.toInt32).toNat < 12289 ∧
    toZq (mqConvSmall x.toInt32) = (x.toInt : Zq) := by
  have hlo := x.le_toInt
  have hhi := x.toInt_lt
  have h := mqConvSmall_spec (x := x.toInt32) (by rw [Int8.toInt_toInt32]; nlinarith)
  rwa [Int8.toInt_toInt32] at h

theorem toInt_toInt32 {w : UInt32} (hw : w.toNat < 2 ^ 31) : w.toInt32.toInt = w.toNat := by
  show w.toBitVec.toInt = w.toBitVec.toNat
  have hw' : w.toBitVec.toNat < 2 ^ 31 := hw
  rw [BitVec.toInt_eq_toNat_cond, if_pos (by omega)]

/-- The representatives of a residue that are used for vectors. -/
theorem toInt_centre {x : UInt16} (hx : x.toUInt32.toNat < 12289) :
    (centre x).toInt = if x.toNat ≤ 6144 then (x.toNat : Int) else x.toNat - 12289 := by
  have hword : (6144 - x.toUInt32).toNat = (2 ^ 32 - x.toNat + 6144) % 2 ^ 32 :=
    UInt32.toNat_sub _ _
  rw [UInt16.toNat_toUInt32] at hx
  have hx' : x.toUInt32.toInt32.toInt = x.toNat :=
    toInt_toInt32 (by rw [UInt16.toNat_toUInt32]; omega)
  rw [centre, Int32.toInt_toInt16, Int32.toInt_sub, hx']
  rcases top_bit_cases (6144 - x.toUInt32) with ⟨hlt, hbit⟩ | ⟨hge, hbit⟩
  · rw [hbit, and_neg_bit _ (.inl rfl), if_neg (by decide), if_pos (by omega),
      show (0 : UInt32).toInt32.toInt = 0 from rfl]
    rw [Int.bmod_def, Int.bmod_def]
    split <;> split <;> omega
  · rw [hbit, and_neg_bit _ (.inr rfl), if_pos rfl, if_neg (by omega),
      show (12289 : UInt32).toInt32.toInt = 12289 from rfl]
    rw [Int.bmod_def, Int.bmod_def]
    split <;> split <;> omega

theorem cast_centre {x : UInt16} (hx : x.toUInt32.toNat < 12289) :
    ((centre x).toInt : Zq) = residue x := by
  rw [toInt_centre hx, residue, toZq, UInt16.toNat_toUInt32]
  split
  · exact Int.cast_natCast _
  · rw [Int.cast_sub, Int.cast_natCast, show ((12289 : Int) : Zq) = 0 from rfl, sub_zero]

/-- No other representative is shorter. -/
theorem centre_sq_le {x : UInt16} (hx : x.toUInt32.toNat < 12289) {z : Int}
    (hz : (z : Zq) = residue x) : (centre x).toInt ^ 2 ≤ z ^ 2 := by
  rw [← cast_centre hx, ZMod.intCast_eq_intCast_iff_dvd_sub] at hz
  have hsmall : |(centre x).toInt| ≤ 6144 := by
    rw [toInt_centre hx, abs_le]
    rw [UInt16.toNat_toUInt32] at hx
    split <;> omega
  obtain ⟨hlo, hhi⟩ := abs_le.mp hsmall
  obtain ⟨k, hk⟩ := hz
  apply sq_le_sq.mpr
  rcases eq_or_ne k 0 with rfl | hne
  · rw [show z = (centre x).toInt by omega]
  · refine hsmall.trans ?_
    rcases lt_or_gt_of_ne hne with hneg | hpos
    · exact le_abs.mpr (.inl (by push_cast at hk; omega))
    · exact le_abs.mpr (.inr (by push_cast at hk; omega))

/-- The representatives that `complete_private` takes. -/
theorem toInt_centredWord {x : UInt16} (hx : x.toUInt32.toNat < 12289) :
    (centredWord x).toInt = if x.toNat < 6144 then (x.toNat : Int) else x.toNat - 12289 := by
  have hword : (x.toUInt32 - 6144).toNat = (2 ^ 32 - 6144 + x.toNat) % 2 ^ 32 :=
    UInt32.toNat_sub _ _
  rw [UInt16.toNat_toUInt32] at hx
  have hx' : x.toUInt32.toInt32.toInt = x.toNat :=
    toInt_toInt32 (by rw [UInt16.toNat_toUInt32]; omega)
  rcases top_bit_cases (x.toUInt32 - 6144) with ⟨hlt, hbit⟩ | ⟨hge, hbit⟩
  · rw [centredWord, hbit, show ~~~(-0 : UInt32) = 0xffffffff from rfl, if_neg (by omega),
      show (12289 : UInt32) &&& 0xffffffff = 12289 from rfl]
    show (x.toUInt32.toInt32 - (12289 : UInt32).toInt32).toInt = _
    rw [Int32.toInt_sub, hx', show (12289 : UInt32).toInt32.toInt = 12289 from rfl, Int.bmod_def]
    split <;> omega
  · rw [centredWord, hbit, show ~~~(-1 : UInt32) = 0 from rfl, if_pos (by omega),
      show (12289 : UInt32) &&& 0 = 0 from rfl, UInt32.sub_zero, hx']

theorem cast_centredWord {x : UInt16} (hx : x.toUInt32.toNat < 12289) :
    ((centredWord x).toInt : Zq) = residue x := by
  rw [toInt_centredWord hx, residue, toZq, UInt16.toNat_toUInt32]
  split
  · exact Int.cast_natCast _
  · rw [Int.cast_sub, Int.cast_natCast, show ((12289 : Int) : Zq) = 0 from rfl, sub_zero]

/-- A small representative is the one that is taken. -/
theorem toInt_centredWord_of_small {x : UInt16} (hx : x.toUInt32.toNat < 12289) {z : Int}
    (hz : (z : Zq) = residue x) (hsmall : |z| ≤ 127) : (centredWord x).toInt = z := by
  rw [← cast_centredWord hx, ZMod.intCast_eq_intCast_iff_dvd_sub] at hz
  have hrange : |(centredWord x).toInt| ≤ 6145 := by
    rw [toInt_centredWord hx, abs_le]
    rw [UInt16.toNat_toUInt32] at hx
    split <;> omega
  obtain ⟨hlo, hhi⟩ := abs_le.mp hrange
  obtain ⟨hzlo, hzhi⟩ := abs_le.mp hsmall
  obtain ⟨k, hk⟩ := hz
  push_cast at hk
  omega

/-! ## What the loops over polynomials compute -/

section Polynomials

variable {logn : Nat} {f g : Nat → UInt16} {v w : Nat → Zq}

theorem holds_signed {n : Nat} {s : Nat → Int16} (hs : ∀ x < n, (s x).toInt ^ 2 < 12289 ^ 2) :
    Holds n (fun u => (signedWord (s u)).toUInt16) (fun u => ((s u).toInt : Zq)) := fun x hx =>
  stored (signedWord_spec (hs x hx)).1 (signedWord_spec (hs x hx)).2

theorem holds_int8 (n : Nat) (s : Nat → Int8) :
    Holds n (fun u => (mqConvSmall (s u).toInt32).toUInt16) (fun u => ((s u).toInt : Zq)) :=
  fun x _ => stored (int8_spec (s x)).1 (int8_spec (s x)).2

theorem mqPolyTomonty_spec (hf : Holds (2 ^ logn) f v) :
    Holds (2 ^ logn) (mqPolyTomonty f logn) (fun x => radix * v x) := by
  intro x hx
  obtain ⟨hlt, hres⟩ := hf x hx
  rw [mqPolyTomonty, forRange_update (fun _ y => (mqMontymul y.toUInt32 10952).toUInt16),
    if_pos hx]
  refine stored (toNat_mqMontymul_lt (mul_lt_of_lt hlt (by decide))) ?_
  rw [toZq_mqMontymul_r2 hlt, show toZq _ = _ from hres]

theorem mqPolyMontymulNtt_spec (hf : Holds (2 ^ logn) f v) (hg : Holds (2 ^ logn) g w) :
    Holds (2 ^ logn) (mqPolyMontymulNtt f g logn) (fun x => v x * w x / radix) := by
  intro x hx
  obtain ⟨hflt, hfres⟩ := hf x hx
  obtain ⟨hglt, hgres⟩ := hg x hx
  rw [mqPolyMontymulNtt,
    forRange_update (fun u y => (mqMontymul y.toUInt32 (g u).toUInt32).toUInt16), if_pos hx]
  refine stored (toNat_mqMontymul_lt (mul_lt_of_lt hflt hglt)) ?_
  rw [eq_div_iff radix_ne_zero, toZq_mqMontymul (mul_lt_of_lt hflt hglt),
    show toZq _ = _ from hfres, show toZq _ = _ from hgres]

theorem mqPolySub_spec (hf : Holds (2 ^ logn) f v) (hg : Holds (2 ^ logn) g w) :
    Holds (2 ^ logn) (mqPolySub f g logn) (fun x => v x - w x) := by
  intro x hx
  obtain ⟨hflt, hfres⟩ := hf x hx
  obtain ⟨hglt, hgres⟩ := hg x hx
  rw [mqPolySub, forRange_update (fun u y => (mqSub y.toUInt32 (g u).toUInt32).toUInt16),
    if_pos hx]
  refine stored (toNat_mqSub_lt hflt hglt) ?_
  rw [toZq_mqSub hflt hglt, show toZq _ = _ from hfres, show toZq _ = _ from hgres]

theorem toNttMonty_spec (hlogn : logn ≤ 10) (hf : Holds (2 ^ logn) f v) :
    Holds (2 ^ logn) (toNttMonty f logn)
      (fun x => radix * Ntt.layers twiddles.root logn logn v x) :=
  mqPolyTomonty_spec (mqNtt_spec hlogn hf)

/-- A reduced entry is zero where its residue is. -/
theorem Holds.eq_zero_iff {n x : Nat} (hf : Holds n f v) (hx : x < n) : f x = 0 ↔ v x = 0 := by
  obtain ⟨hlt, hres⟩ := hf x hx
  rw [← hres]
  constructor
  · intro h
    rw [h]
    rfl
  · intro h
    have hz : (f x).toUInt32 = 0 :=
      (toZq_inj hlt (show (0 : UInt32).toNat < 12289 by decide)).mp (h.trans rfl)
    apply UInt16.toNat.inj
    rw [← UInt16.toNat_toUInt32, hz]
    rfl

/-- Division stops exactly at a zero. -/
theorem divNtt_spec (hf : Holds (2 ^ logn) f v) (hg : Holds (2 ^ logn) g w) :
    if ∀ x < 2 ^ logn, w x ≠ 0 then
      ∃ q, divNtt f g logn = some q ∧ Holds (2 ^ logn) q (fun x => v x / w x)
    else divNtt f g logn = none := by
  have hbad : (∀ u < 2 ^ logn, ¬ g u = 0) ↔ ∀ x < 2 ^ logn, w x ≠ 0 :=
    forall₂_congr fun x hx => not_congr (hg.eq_zero_iff hx)
  rw [divNtt, forRange_guard fun u => g u = 0]
  split
  · next hall =>
      refine ⟨_, if_pos (hbad.mpr hall), ?_⟩
      intro x hx
      obtain ⟨hflt, hfres⟩ := hf x hx
      obtain ⟨hglt, hgres⟩ := hg x hx
      obtain ⟨hlt, hdiv⟩ := mqDiv12289_spec hflt hglt
      rw [forRange_update (fun u y => (mqDiv12289 y.toUInt32 (g u).toUInt32).toUInt16), if_pos hx]
      exact stored hlt (by rw [hdiv, show toZq _ = _ from hfres, show toZq _ = _ from hgres])
  · next hall => exact if_neg fun h => hall (hbad.mp h)

end Polynomials

end OnionNetwork.Falcon
