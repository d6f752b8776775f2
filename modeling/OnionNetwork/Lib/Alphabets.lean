import Mathlib.Data.Nat.Digits.Lemmas
import Mathlib.Data.List.Basic
import Mathlib.Data.List.GetD

/-!
# Bytes as letters

Base58: a byte string is read as a number and written with 58 letters, without `0`, `O`, `I` and
`l`. Since a number does not tell how many zeros are in front of it, each zero byte in front
becomes a letter of its own.

* `Base58.rebase_rebase` — to change the base of a digit string and back undoes itself;
* `Base58.decode_encode` — so reading undoes writing;
* `Base58.alphanum_encode` — what is written are letters and digits.

Base64 in the URL-safe alphabet, without padding: three bytes are written with four letters, one or
two bytes at the end with two or three.

* `Base64.decode_encode` — reading undoes writing, so different bytes are written differently
  (`Base64.encode_injective`);
* `Base64.letters_encode` — what is written are letters, digits, `-` and `_`;
* `Base64.length_encode` — and how many.
-/

namespace OnionNetwork.Lib.Base58

open Nat

/-! ## Changing the base -/

/-- The digits in base `b'` of a digit string in base `b`, the first digit in front. The zeros
in front stay. -/
def rebase (b b' : ℕ) (digits : List ℕ) : List ℕ :=
  let rest := digits.dropWhile (· == 0)
  List.replicate (digits.length - rest.length) 0 ++
    (Nat.digits b' (ofDigits b rest.reverse)).reverse

variable {b b' z : ℕ} {digits rest : List ℕ}

/-- No zero is in front. -/
def Headed (rest : List ℕ) : Prop := ∀ d ∈ rest.head?, d ≠ 0

theorem dropWhile_of_headed (h : Headed rest) : rest.dropWhile (· == 0) = rest := by
  cases rest with
  | nil => rfl
  | cons d rest =>
      have hd : d ≠ 0 := h d rfl
      simp [hd]

theorem dropWhile_replicate (h : Headed rest) :
    (List.replicate z 0 ++ rest).dropWhile (· == 0) = rest := by
  induction z with
  | zero => exact dropWhile_of_headed h
  | succ z ih => simpa [List.replicate_succ] using ih

/-- A digit string is zeros, and a string with no zero in front. -/
theorem exists_headed (digits : List ℕ) :
    ∃ z rest, digits = List.replicate z 0 ++ rest ∧ Headed rest := by
  induction digits with
  | nil => exact ⟨0, [], rfl, by simp [Headed]⟩
  | cons d digits ih =>
      by_cases hd : d = 0
      · obtain ⟨z, rest, rfl, hrest⟩ := ih
        exact ⟨z + 1, rest, by rw [hd, List.replicate_succ, List.cons_append], hrest⟩
      · exact ⟨0, d :: digits, rfl, by simpa [Headed] using hd⟩

theorem rebase_replicate (h : Headed rest) :
    rebase b b' (List.replicate z 0 ++ rest) =
      List.replicate z 0 ++ (Nat.digits b' (ofDigits b rest.reverse)).reverse := by
  simp [rebase, dropWhile_replicate h]

theorem headed_digits (b n : ℕ) : Headed (Nat.digits b n).reverse := by
  intro d hd
  rw [List.head?_reverse] at hd
  rcases eq_or_ne n 0 with rfl | hn
  · simp at hd
  · have hne : Nat.digits b n ≠ [] := digits_ne_nil_iff_ne_zero.mpr hn
    rw [List.getLast?_eq_some_getLast hne, Option.mem_some_iff] at hd
    rw [← hd]
    exact getLast_digit_ne_zero b hn

/-- **There and back.** -/
theorem rebase_rebase (hb : 1 < b) (hdigits : ∀ d ∈ digits, d < b) :
    rebase b' b (rebase b b' digits) = digits := by
  obtain ⟨z, rest, rfl, hrest⟩ := exists_headed digits
  have hlt : ∀ d ∈ rest.reverse, d < b :=
    fun d hd => hdigits d (List.mem_append_right _ (List.mem_reverse.mp hd))
  have hlast : ∀ h : rest.reverse ≠ [], rest.reverse.getLast h ≠ 0 := by
    intro h
    have hne : rest ≠ [] := by simpa using h
    rw [List.getLast_reverse]
    exact hrest _ (List.head?_eq_some_head hne)
  -- the zeros stay, and the number is the same in between
  rw [rebase_replicate hrest, rebase_replicate (headed_digits _ _), List.reverse_reverse,
    ofDigits_digits, digits_ofDigits b hb _ hlt hlast, List.reverse_reverse]

theorem rebase_lt (hb' : 1 < b') : ∀ d ∈ rebase b b' digits, d < b' := by
  intro d hd
  rcases List.mem_append.mp hd with hd | hd
  · rw [List.eq_of_mem_replicate hd]
    omega
  · exact digits_lt_base hb' (List.mem_reverse.mp hd)

/-- Where a digit of base `b` takes at most `k` digits of base `b'`, so does each of a string. -/
theorem length_rebase_le {k : ℕ} (hb : 1 < b) (hb' : 1 < b') (hk : b ≤ b' ^ k) (hpos : 0 < k)
    (hdigits : ∀ d ∈ digits, d < b) : (rebase b b' digits).length ≤ k * digits.length := by
  obtain ⟨z, rest, rfl, hrest⟩ := exists_headed digits
  have hlt : ∀ d ∈ rest.reverse, d < b :=
    fun d hd => hdigits d (List.mem_append_right _ (List.mem_reverse.mp hd))
  have hvalue : ofDigits b rest.reverse < b' ^ (k * rest.length) := by
    calc ofDigits b rest.reverse < b ^ rest.reverse.length := ofDigits_lt_base_pow_length hb hlt
      _ = b ^ rest.length := by rw [List.length_reverse]
      _ ≤ (b' ^ k) ^ rest.length := Nat.pow_le_pow_left hk _
      _ = b' ^ (k * rest.length) := (pow_mul _ _ _).symm
  have hlength := (digits_length_le_iff hb' _).mpr hvalue
  rw [rebase_replicate hrest]
  simp only [List.length_append, List.length_replicate, List.length_reverse]
  have hz : z ≤ k * z := Nat.le_mul_of_pos_left z hpos
  rw [Nat.mul_add]
  omega

/-! ## Letters -/

/-- The letters, by their values. -/
def alphabet : List Char :=
  ['1', '2', '3', '4', '5', '6', '7', '8', '9', 'A', 'B', 'C', 'D', 'E', 'F', 'G', 'H', 'J', 'K',
    'L', 'M', 'N', 'P', 'Q', 'R', 'S', 'T', 'U', 'V', 'W', 'X', 'Y', 'Z', 'a', 'b', 'c', 'd', 'e',
    'f', 'g', 'h', 'i', 'j', 'k', 'm', 'n', 'o', 'p', 'q', 'r', 's', 't', 'u', 'v', 'w', 'x', 'y',
    'z']

/-- The letter of a digit. -/
def letter (digit : ℕ) : Char := alphabet.getD digit '1'

/-- The digit of a letter. -/
def digitOf (letter : Char) : Option ℕ := alphabet.findIdx? (· == letter)

set_option maxRecDepth 2000 in
/-- The letters are in the order of their codes. -/
theorem pairwise_alphabet : alphabet.Pairwise fun c c' => c.toNat < c'.toNat := by
  have hcodes : (alphabet.map Char.toNat).Pairwise (· < ·) :=
    List.isChain_iff_pairwise.mp (by decide)
  exact List.pairwise_map.mp hcodes

theorem digitOf_letter {d : ℕ} (h : d < 58) : digitOf (letter d) = some d := by
  have hlen : d < alphabet.length := h
  rw [digitOf, letter, List.getD_eq_getElem _ _ hlen, List.findIdx?_eq_some_iff_getElem]
  refine ⟨hlen, beq_self_eq_true _, fun j hj heq => ?_⟩
  have hlt := List.pairwise_iff_getElem.mp pairwise_alphabet j d (Nat.lt_trans hj hlen) hlen hj
  rw [beq_iff_eq.mp heq] at hlt
  exact absurd hlt (Nat.lt_irrefl _)

theorem alphanum_letter {d : ℕ} (h : d < 58) : (letter d).isAlphanum := by
  have hall : alphabet.all Char.isAlphanum = true := by decide
  rw [letter, List.getD_eq_getElem _ _ h]
  exact List.all_eq_true.mp hall _ (List.getElem_mem h)

/-- Bytes as letters. -/
def encode (bytes : List UInt8) : List Char :=
  (rebase 256 58 (bytes.map UInt8.toNat)).map letter

/-- Letters as bytes. -/
def decode (letters : List Char) : Option (List UInt8) := do
  let digits ← letters.mapM digitOf
  some ((rebase 58 256 digits).map UInt8.ofNat)

theorem toNat_lt (bytes : List UInt8) : ∀ d ∈ bytes.map UInt8.toNat, d < 256 := by
  intro d hd
  obtain ⟨byte, -, rfl⟩ := List.mem_map.mp hd
  exact byte.toNat_lt

theorem mapM_digitOf {digits : List ℕ} (h : ∀ d ∈ digits, d < 58) :
    (digits.map letter).mapM digitOf = some digits := by
  induction digits with
  | nil => rfl
  | cons d digits ih =>
      obtain ⟨hd, hdigits⟩ := List.forall_mem_cons.mp h
      simp [digitOf_letter hd, ih hdigits]

/-- **Reading undoes writing.** -/
theorem decode_encode (bytes : List UInt8) : decode (encode bytes) = some bytes := by
  have hletters : (encode bytes).mapM digitOf = some (rebase 256 58 (bytes.map UInt8.toNat)) :=
    mapM_digitOf (rebase_lt (by decide))
  have hbytes : (bytes.map UInt8.toNat).map UInt8.ofNat = bytes := by
    rw [List.map_map]
    exact List.map_id'' (fun byte => UInt8.ofNat_toNat) bytes
  rw [decode, hletters, Option.bind_eq_bind, Option.bind_some,
    rebase_rebase (by decide) (toNat_lt bytes), hbytes]

theorem alphanum_encode (bytes : List UInt8) : ∀ c ∈ encode bytes, c.isAlphanum := by
  intro c hc
  obtain ⟨d, hd, rfl⟩ := List.mem_map.mp hc
  exact alphanum_letter (rebase_lt (by decide) d hd)

theorem length_encode_le (bytes : List UInt8) : (encode bytes).length ≤ 2 * bytes.length := by
  have hlength : (rebase 256 58 (bytes.map UInt8.toNat)).length ≤
      2 * (bytes.map UInt8.toNat).length :=
    length_rebase_le (by decide) (by decide) (by decide) (by decide) (toNat_lt bytes)
  simpa [encode] using hlength

end OnionNetwork.Lib.Base58

namespace OnionNetwork.Lib.Base64

/-- The letter of six bits. -/
def letter (bits : Nat) : UInt8 :=
  if bits < 26 then UInt8.ofNat (65 + bits)
  else if bits < 52 then UInt8.ofNat (97 + (bits - 26))
  else if bits < 62 then UInt8.ofNat (48 + (bits - 52))
  else if bits = 62 then 45
  else 95

/-- The six bits of a letter. -/
def bitsOf (letter : UInt8) : Nat :=
  if 65 ≤ letter.toNat ∧ letter.toNat ≤ 90 then letter.toNat - 65
  else if 97 ≤ letter.toNat ∧ letter.toNat ≤ 122 then letter.toNat - 97 + 26
  else if 48 ≤ letter.toNat ∧ letter.toNat ≤ 57 then letter.toNat - 48 + 52
  else if letter.toNat = 45 then 62
  else 63

/-- Bytes as letters. -/
def encode : List UInt8 → List UInt8
  | [] => []
  | [a] => [letter (a.toNat / 4), letter (a.toNat % 4 * 16)]
  | [a, b] => [letter (a.toNat / 4), letter (a.toNat % 4 * 16 + b.toNat / 16),
      letter (b.toNat % 16 * 4)]
  | a :: b :: c :: bytes => letter (a.toNat / 4) :: letter (a.toNat % 4 * 16 + b.toNat / 16) ::
      letter (b.toNat % 16 * 4 + c.toNat / 64) :: letter (c.toNat % 64) :: encode bytes

/-- Letters as bytes. -/
def decode : List UInt8 → List UInt8
  | [p, q] => [UInt8.ofNat (bitsOf p * 4 + bitsOf q / 16)]
  | [p, q, r] => [UInt8.ofNat (bitsOf p * 4 + bitsOf q / 16),
      UInt8.ofNat (bitsOf q % 16 * 16 + bitsOf r / 4)]
  | p :: q :: r :: s :: letters => UInt8.ofNat (bitsOf p * 4 + bitsOf q / 16) ::
      UInt8.ofNat (bitsOf q % 16 * 16 + bitsOf r / 4) ::
      UInt8.ofNat (bitsOf r % 4 * 64 + bitsOf s) :: decode letters
  | _ => []

/-! ## Letters -/

/-- What a look at each letter shows. -/
private theorem letters64 : ∀ bits < 64, bitsOf (letter bits) = bits ∧
    letter bits ≠ 46 ∧ letter bits ≠ 47 := by
  decide

theorem bitsOf_letter {bits : Nat} (h : bits < 64) : bitsOf (letter bits) = bits :=
  (letters64 bits h).1

/-- No letter is a dot or a slash. -/
theorem letter_plain {bits : Nat} (h : bits < 64) : letter bits ≠ 46 ∧ letter bits ≠ 47 :=
  (letters64 bits h).2

/-- The number of a byte, put together again. -/
theorem ofNat_toNat_of_eq {n : Nat} {a : UInt8} (h : n = a.toNat) : UInt8.ofNat n = a := by
  rw [h, UInt8.ofNat_toNat]

/-! ## Reading undoes writing -/

theorem decode_encode (bytes : List UInt8) : decode (encode bytes) = bytes := by
  induction bytes using encode.induct with
  | case1 => rfl
  | case2 a =>
      have ha := a.toNat_lt
      simp only [encode, decode]
      rw [bitsOf_letter (by omega), bitsOf_letter (by omega)]
      rw [ofNat_toNat_of_eq (a := a) (by omega)]
  | case3 a b =>
      have ha := a.toNat_lt
      have hb := b.toNat_lt
      simp only [encode, decode]
      rw [bitsOf_letter (by omega), bitsOf_letter (by omega), bitsOf_letter (by omega)]
      rw [ofNat_toNat_of_eq (a := a) (by omega), ofNat_toNat_of_eq (a := b) (by omega)]
  | case4 a b c bytes ih =>
      have ha := a.toNat_lt
      have hb := b.toNat_lt
      have hc := c.toNat_lt
      simp only [encode, decode]
      rw [bitsOf_letter (by omega), bitsOf_letter (by omega), bitsOf_letter (by omega),
        bitsOf_letter (by omega)]
      rw [ofNat_toNat_of_eq (a := a) (by omega), ofNat_toNat_of_eq (a := b) (by omega),
        ofNat_toNat_of_eq (a := c) (by omega), ih]

theorem encode_injective : Function.Injective encode := by
  intro bytes bytes' h
  rw [← decode_encode bytes, h, decode_encode]

theorem encode_eq_nil {bytes : List UInt8} : encode bytes = [] ↔ bytes = [] := by
  constructor
  · intro h
    exact encode_injective (h.trans rfl)
  · rintro rfl
    rfl

/-! ## What is written -/

/-- What is written has neither dots nor slashes. -/
theorem letters_encode (bytes : List UInt8) : ∀ c ∈ encode bytes, c ≠ 46 ∧ c ≠ 47 := by
  induction bytes using encode.induct with
  | case1 => exact fun c hc => absurd hc List.not_mem_nil
  | case2 a =>
      have ha := a.toNat_lt
      simp only [encode, List.forall_mem_cons]
      exact ⟨letter_plain (by omega), letter_plain (by omega),
        fun c hc => absurd hc List.not_mem_nil⟩
  | case3 a b =>
      have ha := a.toNat_lt
      have hb := b.toNat_lt
      simp only [encode, List.forall_mem_cons]
      exact ⟨letter_plain (by omega), letter_plain (by omega), letter_plain (by omega),
        fun c hc => absurd hc List.not_mem_nil⟩
  | case4 a b c bytes ih =>
      have ha := a.toNat_lt
      have hb := b.toNat_lt
      have hc := c.toNat_lt
      simp only [encode, List.forall_mem_cons]
      exact ⟨letter_plain (by omega), letter_plain (by omega), letter_plain (by omega),
        letter_plain (by omega), ih⟩

theorem length_encode (bytes : List UInt8) :
    (encode bytes).length = (4 * bytes.length + 2) / 3 := by
  induction bytes using encode.induct with
  | case1 => rfl
  | case2 a => simp [encode]
  | case3 a b => simp [encode]
  | case4 a b c bytes ih =>
      simp only [encode, List.length_cons, ih]
      omega

end OnionNetwork.Lib.Base64
