import OnionNetwork.Storage.NodeProfiles

/-!
# File URIs

`Display` writes the values of a URI between separators, and `FromStr` cuts a string at the
separators. A `str` is the list of its characters, and `bs58` comes from another crate.
-/

namespace OnionNetwork.Storage

/-! ## Strings -/

/-- `str::len`. -/
def utf8Len (s : List Char) : ℕ := (s.map Char.utf8Size).sum

/-- `str::strip_prefix`. -/
def stripPrefix (front s : List Char) : Option (List Char) :=
  if front.isPrefixOf s then some (s.drop front.length) else none

/-- `str::split_once`. -/
def splitOnce (delimiter : Char) : List Char → Option (List Char × List Char)
  | [] => none
  | c :: s =>
      if c = delimiter then some ([], s)
      else (splitOnce delimiter s).map fun parts => (c :: parts.1, parts.2)

/-- `Option::ok_or`. -/
def okOr {ε α : Type} (error : ε) : Option α → Except ε α
  | none => .error error
  | some a => .ok a

theorem okOr_eq_ok {ε α : Type} {error : ε} {x : Option α} {a : α} :
    okOr error x = .ok a ↔ x = some a := by
  cases x <;> simp [okOr]

/-- A `u64`. -/
abbrev U64 := { n : ℕ // n < 2 ^ 64 }

/-- The loop of `u64::from_str`. -/
def parseDigits : List Char → U64 → Option U64
  | [], result => some result
  | c :: digits, result =>
      if c.isDigit then
        if h : 10 * result.1 + (c.toNat - '0'.toNat) < 2 ^ 64 then parseDigits digits ⟨_, h⟩
        else none
      else none

/-- `u64::from_str`. -/
def parseU64 : List Char → Option U64
  | [] => none
  -- a sign alone is no number
  | ['+'] => none
  | '+' :: digits => parseDigits digits ⟨0, by decide⟩
  | digits => parseDigits digits ⟨0, by decide⟩

/-! ## The URI -/

/-- `MAX_PASS_PHRASE_LEN`. -/
def maxPassPhraseLen : ℕ := 48

/-- `ArrayString<MAX_PASS_PHRASE_LEN>`. -/
structure PassPhrase where
  chars : List Char
  len_le : utf8Len chars ≤ maxPassPhraseLen
  deriving DecidableEq

/-- `ArrayString::new`. -/
def PassPhrase.empty : PassPhrase := ⟨[], Nat.zero_le _⟩

/-- `Uri`. -/
structure Uri where
  satelite : Hash
  address : Address
  size_lt : address.size < 2 ^ 64
  passPhrase : PassPhrase
  deriving DecidableEq

/-- `bs58`: the letters of a hash, and what they decode to in an array of its size. -/
structure Bs58 (ε : Type) where
  encode : Hash → List Char
  decode : List Char → Except ε Hash

/-- Decoding undoes encoding, the letters are alphanumeric, and the buffer has room for those of a
hash. -/
structure Bs58.Lawful {ε : Type} (bs58 : Bs58 ε) : Prop where
  decode_encode : ∀ h, bs58.decode (bs58.encode h) = .ok h
  alphanumeric : ∀ h, ∀ c ∈ bs58.encode h, c.isAlphanum
  length_le : ∀ h, (bs58.encode h).length ≤ 64

/-- `UriParseError`. -/
inductive UriParseError (ε : Type) where
  | notOrion
  | missingAdress
  | invalidSatelite (error : ε)
  | invalidFileId (error : ε)
  | invalidSize
  | invalidPass
  | missingSize
  | unknownParam (i : ℕ)
  deriving DecidableEq

namespace Uri

variable {ε : Type} (bs58 : Bs58 ε)

/-- `bs58::encode(hash).onto(buf)`, into a buffer of 64 bytes. -/
def encodeOnto (hash : Hash) : Option (List Char) :=
  if (bs58.encode hash).length ≤ 64 then some (bs58.encode hash) else none

/-- `orion://`. -/
def scheme : List Char := ['o', 'r', 'i', 'o', 'n', ':', '/', '/']

/-- `size`. -/
def sizeName : List Char := ['s', 'i', 'z', 'e']

/-- `pass`. -/
def passName : List Char := ['p', 'a', 's', 's']

/-- What is written behind the question mark. -/
def displayParams (u : Uri) : List Char :=
  sizeName ++ '=' :: Nat.toDigits 10 u.address.size ++
    if u.passPhrase.chars = [] then [] else '&' :: passName ++ '=' :: u.passPhrase.chars

/-- `Uri::fmt`, unless an `unwrap` panics. -/
def display (u : Uri) : Option (List Char) := do
  let satelite ← encodeOnto bs58 u.satelite
  let id ← encodeOnto bs58 u.address.id
  some (scheme ++ satelite ++ '/' :: id ++ '?' :: u.displayParams)

/-- The parameters that have been read. -/
structure Params where
  size : Option U64
  passPhrase : PassPhrase

/-- The body of the loop. -/
def readParam (i : ℕ) (param : List Char) (params : Params) : Except (UriParseError ε) Params :=
  let (name, value) := (splitOnce '=' param).getD (param, [])
  -- a parameter that comes again takes the place of the first
  if name = sizeName then
    match parseU64 value with
    | none => .error .invalidSize
    | some size => .ok { params with size := some size }
  else if name = passName then
    if h : utf8Len value ≤ maxPassPhraseLen then
      .ok { params with passPhrase := ⟨value, h⟩ }
    else .error .invalidPass
  else .error (.unknownParam i)

/-- The loop over the parameters. -/
def readParams : ℕ → List (List Char) → Params → Except (UriParseError ε) Params
  | _, [], params => .ok params
  | i, param :: rest, params => do
      let params ← readParam i param params
      readParams (i + 1) rest params

/-- `Uri::from_str`. -/
def fromStr (s : List Char) : Except (UriParseError ε) Uri := do
  let path ← okOr .notOrion (stripPrefix scheme s)
  let (sateliteB58, rest) ← okOr .missingAdress (splitOnce '/' path)
  let satelite ← (bs58.decode sateliteB58).mapError .invalidSatelite
  let (addressB58, params) ← okOr .missingSize (splitOnce '?' rest)
  let id ← (bs58.decode addressB58).mapError .invalidFileId
  let params ← readParams 0 (params.splitOn '&') ⟨none, PassPhrase.empty⟩
  let size ← okOr .missingSize params.size
  .ok {
    satelite
    address := ⟨id, size.1⟩
    size_lt := size.2
    passPhrase := params.passPhrase }

end Uri

/-! ## What is read of what is written -/

section Strings

variable {front back s digits : List Char} {c : Char}

theorem stripPrefix_append (front s : List Char) : stripPrefix front (front ++ s) = some s := by
  simp [stripPrefix]

theorem splitOnce_append (h : c ∉ front) (back : List Char) :
    splitOnce c (front ++ c :: back) = some (front, back) := by
  induction front with
  | nil => simp [splitOnce]
  | cons x front ih =>
      simp only [List.mem_cons, not_or] at h
      simp [splitOnce, Ne.symm h.1, ih h.2]

/-- The part behind a delimiter has the characters that it has. -/
theorem mem_of_splitOnce {parts : List Char × List Char} (h : splitOnce c s = some parts) :
    ∀ x ∈ parts.2, x ∈ s := by
  induction s generalizing parts with
  | nil => simp [splitOnce] at h
  | cons y s ih =>
      intro x hx
      by_cases hy : y = c
      · simp only [splitOnce, if_pos hy, Option.some.injEq] at h
        subst h
        exact List.mem_cons_of_mem y hx
      · simp only [splitOnce, if_neg hy] at h
        obtain ⟨rest, hrest, rfl⟩ := Option.map_eq_some_iff.mp h
        exact List.mem_cons_of_mem y (ih hrest x hx)

/-- No part has a delimiter. -/
theorem not_mem_of_mem_splitOn : ∀ part ∈ s.splitOn c, c ∉ part := by
  induction s with
  | nil => simp
  | cons x s ih =>
      rw [List.splitOn_cons_eq_if_modifyHead]
      split_ifs with hx
      · simpa using ih
      · intro part hpart
        cases hsplit : s.splitOn c with
        | nil => exact absurd hsplit (List.splitOn_ne_nil c s)
        | cons head parts =>
            rw [hsplit] at hpart ih
            obtain ⟨hhead, hparts⟩ := List.forall_mem_cons.mp ih
            rw [List.modifyHead_cons, List.mem_cons] at hpart
            rcases hpart with rfl | hpart
            · have hne : c ≠ x := fun heq => hx (beq_iff_eq.mpr heq.symm)
              simp [hne, hhead]
            · exact hparts part hpart

theorem le_ofDigitChars (digits : List Char) (n : ℕ) : n ≤ Nat.ofDigitChars 10 digits n := by
  induction digits generalizing n with
  | nil => simp
  | cons c digits ih =>
      rw [Nat.ofDigitChars_cons]
      have := ih (10 * n + (c.toNat - '0'.toNat))
      omega

/-- Digits whose number is a `u64` are read as that. -/
theorem parseDigits_eq (hdigits : ∀ c ∈ digits, c.isDigit) {result : U64} {n : U64}
    (hn : Nat.ofDigitChars 10 digits result.1 = n.1) : parseDigits digits result = some n := by
  induction digits generalizing result with
  | nil => exact congrArg some (Subtype.ext (by simpa using hn))
  | cons c digits ih =>
      obtain ⟨hc, hdigits⟩ := List.forall_mem_cons.mp hdigits
      rw [Nat.ofDigitChars_cons] at hn
      have hlt : 10 * result.1 + (c.toNat - '0'.toNat) < 2 ^ 64 :=
        (le_ofDigitChars digits _).trans_lt (hn ▸ n.2)
      rw [parseDigits, if_pos hc, dif_pos hlt]
      exact ih hdigits hn

theorem isDigit_of_mem_toDigits {n : ℕ} (hc : c ∈ Nat.toDigits 10 n) : c.isDigit :=
  Nat.isDigit_of_mem_toDigits (by decide) (by decide) hc

/-- A number is read as it was written. -/
theorem parseU64_toDigits (n : U64) : parseU64 (Nat.toDigits 10 n.1) = some n := by
  have hread : parseDigits (Nat.toDigits 10 n.1) ⟨0, by decide⟩ = some n :=
    parseDigits_eq (fun c hc => isDigit_of_mem_toDigits hc) Nat.ofDigitChars_ten_toDigits
  cases hdigits : Nat.toDigits 10 n.1 with
  | nil => exact absurd hdigits Nat.toDigits_ne_nil
  | cons c digits =>
      have hc : c.isDigit := isDigit_of_mem_toDigits (hdigits ▸ List.mem_cons_self)
      rw [hdigits] at hread
      have hsign : c ≠ '+' := by
        rintro rfl
        exact absurd hc (by decide)
      simpa [parseU64, hsign] using hread

end Strings

end OnionNetwork.Storage
