import OnionNetwork.Falcon.CompCodec
import OnionNetwork.Falcon.HashToPoint
import OnionNetwork.Falcon.Ring

/-!
# Keys and signatures as bytes

`crypto_sign_keypair`, `do_sign`, `do_verify` and what `Keypair` and `PublicKey` make of them, for
`n = 512`.

SHAKE-256 is a parameter: the byte string that is read after some bytes were absorbed. So is what
is computed with floating-point numbers and big integers: in key generation the candidates, the
bound on their orthogonal norm and the solution of the NTRU equation, in signing the lattice
vectors of the attempts. What is done with all that is here.
-/

namespace OnionNetwork.Falcon

open Lib

/-- `max_fg_bits`. -/
def maxFgBits : List Nat := [0, 8, 8, 8, 8, 8, 7, 7, 6, 6, 5]

/-- `max_FG_bits`. -/
def maxFGBits : List Nat := [0, 8, 8, 8, 8, 8, 8, 8, 8, 8, 8]

/-- The hash: what is read after these bytes. -/
abbrev Shake := List UInt8 → Nat → UInt8

/-- The lattice vectors of the attempts, from the random bytes, the secret key and the hashed
message. -/
abbrev Nearest := (Nat → UInt8) → (Nat → Int8) → (Nat → Int8) → (Nat → Int8) → (Nat → Int8) →
  (Nat → UInt16) → Nat → (Nat → Int64) × (Nat → Int64)

/-- An array of the decoders. -/
def entries {α : Type} [OfNat α 0] (xs : List α) (u : Nat) : α := xs.getD u 0

/-! ## Keys -/

/-- What `keygen` finds. -/
structure Keys where
  f : Nat → Int8
  g : Nat → Int8
  F : Nat → Int8
  h : Nat → UInt16

/-- What `keygen` calls: `poly_small_mkgauss` in each round, the bound on the orthogonal norm, and
`solve_NTRU`. -/
structure Gen where
  candidate : (Nat → UInt8) → Nat → (Nat → Int8) × (Nat → Int8)
  orthogonal : (Nat → Int8) → (Nat → Int8) → Bool
  solveNtru : (Nat → Int8) → (Nat → Int8) → Option (Nat → Int8)

/-- `poly_small_sqnorm`. -/
def polySmallSqnorm (f : Nat → Int8) (logn : Nat) : UInt32 :=
  let (s, ng) := forRange 0 (2 ^ logn) (fun (acc : UInt32 × UInt32) u =>
    let z := (f u).toInt32
    let s := acc.1 + (z * z).toUInt32
    (s, acc.2 ||| s)) (0, 0)
  s ||| -(ng >>> 31)

/-- `keygen`: the checks of a candidate before the NTRU equation. -/
def acceptable (gen : Gen) (f g : Nat → Int8) (logn : Nat) : Bool :=
  let lim := (2 : Int) ^ (maxFgBits.getD logn 0 - 1)
  if ∃ u < 2 ^ logn, (f u).toInt ≥ lim ∨ (f u).toInt ≤ -lim ∨ (g u).toInt ≥ lim ∨
      (g u).toInt ≤ -lim then false else
    let normf := polySmallSqnorm f logn
    let normg := polySmallSqnorm g logn
    let norm := normf + normg ||| -((normf ||| normg) >>> 31)
    norm < 16823 && gen.orthogonal f g

/-- `keygen`: rounds from `k` on, `fuel` of them at most. -/
def keygen (gen : Gen) (stream : Nat → UInt8) (logn : Nat) : Nat → Nat → Option Keys
  | 0, _ => none
  | fuel + 1, k =>
      let (f, g) := gen.candidate stream k
      if !acceptable gen f g logn then keygen gen stream logn fuel (k + 1) else
        match computePublic f g logn with
        | none => keygen gen stream logn fuel (k + 1)
        | some h =>
            match gen.solveNtru f g with
            | none => keygen gen stream logn fuel (k + 1)
            | some F => some ⟨f, g, F, h⟩

/-- `Keypair`: the bytes of the public and of the secret key. -/
structure Keypair where
  pk : Vector UInt8 897
  sk : Vector UInt8 1281

/-- `crypto_sign_keypair`: the secret key. -/
def encodeSecret (keys : Keys) : Option (List UInt8) := do
  let u := 1
  let (v, f) ← trimI8Encode (1281 - u) keys.f 9 (maxFgBits.getD 9 0)
  let u := u + v
  let (v, g) ← trimI8Encode (1281 - u) keys.g 9 (maxFgBits.getD 9 0)
  let u := u + v
  let (v, F) ← trimI8Encode (1281 - u) keys.F 9 (maxFGBits.getD 9 0)
  let u := u + v
  if u ≠ 1281 then none else some (0x59 :: (f ++ g ++ F))

/-- `crypto_sign_keypair`: the public key. -/
def encodePublic (keys : Keys) : Option (List UInt8) := do
  let (v, h) ← modqEncode (897 - 1) keys.h 9
  if v ≠ 897 - 1 then none else some (9 :: h)

/-- Bytes as an array of a fixed length. -/
def sized (n : Nat) (l : List UInt8) : Option (Vector UInt8 n) :=
  if h : l.toArray.size = n then some ⟨l.toArray, h⟩ else none

/-- `Keypair::new` for what key generation has found. -/
def Keypair.new (keys : Keys) : Option Keypair := do
  let sk ← encodeSecret keys
  let pk ← encodePublic keys
  some ⟨← sized 897 pk, ← sized 1281 sk⟩

/-- `do_sign`: what is read from the secret key, with the part that is computed again. -/
def decodeSecret (sk : List UInt8) :
    Option ((Nat → Int8) × (Nat → Int8) × (Nat → Int8) × (Nat → Int8)) :=
  if sk.getD 0 0 ≠ 0x59 then none else do
    let u := 1
    let (v, f) ← trimI8Decode 9 (maxFgBits.getD 9 0) (sk.drop u)
    let u := u + v
    let (v, g) ← trimI8Decode 9 (maxFgBits.getD 9 0) (sk.drop u)
    let u := u + v
    let (v, F) ← trimI8Decode 9 (maxFGBits.getD 9 0) (sk.drop u)
    let u := u + v
    if u ≠ 1281 then none else
      let G ← completePrivate (entries f) (entries g) (entries F) 9
      some (entries f, entries g, entries F, G)

/-! ## Signing -/

/-- `do_sign_dyn`: the end of an attempt, where the lattice vector `t0`, `t1` was found. -/
def signAttempt (hm : Nat → UInt16) (t0 t1 : Nat → Int64) (logn : Nat) : Option (Nat → Int16) :=
  let n := 2 ^ logn
  let (sqn, ng) := forRange 0 n (fun (acc : UInt32 × UInt32) u =>
    let z := (hm u).toUInt32.toInt32 - (t0 u).toInt32
    let sqn := acc.1 + (z * z).toUInt32
    (sqn, acc.2 ||| sqn)) (0, 0)
  let sqn := sqn ||| -(ng >>> 31)
  let s2 := fun u => (-t1 u).toInt16
  if isShortHalf sqn s2 logn then some s2 else none

/-- `sign_dyn`: attempts from `k` on, `fuel` of them at most. -/
def signDyn (hm : Nat → UInt16) (vectors : Nat → (Nat → Int64) × (Nat → Int64)) (logn : Nat) :
    Nat → Nat → Option (Nat → Int16)
  | 0, _ => none
  | fuel + 1, k =>
      match signAttempt hm (vectors k).1 (vectors k).2 logn with
      | some s2 => some s2
      | none => signDyn hm vectors logn fuel (k + 1)

/-- How signing ends. The array for the signature has 668 bytes, but 752 may be written:
`overflow` stands for a write behind the array, `looping` for more attempts than fuel. -/
inductive Signed where
  | failed
  | overflow
  | looping
  | signature (sig : Vector UInt8 668)

/-- The two bytes of a length at the end of the array. -/
def withLength (sig : Vector UInt8 668) (len : Nat) : Vector UInt8 668 :=
  (sig.set 666 (UInt16.ofNat len).toUInt8).set 667 (UInt16.ofNat len >>> 8).toUInt8

/-- `Keypair::sign`, with the bytes that the generator fills in: the nonce and the seed of the
attempts. -/
def Keypair.sign (shake : Shake) (nearest : Nearest) (fuel : Nat) (kp : Keypair)
    (message : List UInt8) (nonce : Vector UInt8 40) (seed : Vector UInt8 48) : Signed :=
  match decodeSecret kp.sk.toList with
  | none => .failed
  | some (f, g, F, G) =>
      let hm := hashToPointCt (shake (nonce.toList ++ message)) 9
      match signDyn hm (nearest (shake seed.toList) f g F G hm) 9 fuel 0 with
      | none => .looping
      | some s2 =>
          match compEncode (752 - 40 - 1) s2 9 with
          | none => if ∃ u : Nat, u < 512 ∧ ((s2 u).toInt < -2047 ∨ (s2 u).toInt > 2047)
              then .failed else .overflow
          | some out =>
              let len := 1 + 40 + out.length
              match sized 668 (0x39 :: nonce.toList ++ out ++ List.replicate (668 - len) 0) with
              | none => .overflow
              | some sig => .signature (withLength sig len)

/-! ## Verifying -/

/-- `do_verify`: the bytes behind the compressed ones. -/
def paddingOk (sigbuf : List UInt8) (v : Nat) : Bool :=
  v = sigbuf.length || (sigbuf.length = 666 - 40 - 1 && (sigbuf.drop v).all (· = 0))

/-- `do_verify`. -/
def doVerify (shake : Shake) (nonce sigbuf m pk : List UInt8) : Bool :=
  if pk.getD 0 0 ≠ 9 then false else
    match modqDecode 9 (pk.drop 1) with
    | none => false
    | some (v, h) =>
        if v ≠ 897 - 1 then false else
          let h := toNttMonty (entries h) 9
          if sigbuf.length = 0 then false else
            match compDecode 9 sigbuf with
            | none => false
            | some (v, sig) =>
                if !paddingOk sigbuf v then false else
                  let hm := hashToPointCt (shake (nonce ++ m)) 9
                  verifyRaw hm (entries sig) h 9

/-- `crypto_sign_verify`. -/
def cryptoSignVerify (shake : Shake) (sig m pk : List UInt8) : Bool :=
  if sig.length < 1 + 40 then false
  else if sig.getD 0 0 ≠ 0x39 then false
  else doVerify shake ((sig.drop 1).take 40) ((sig.drop 1).drop 40) m pk

/-- The length that a signature states. -/
def statedLength (sig : Vector UInt8 668) : Nat :=
  (sig[666].toUInt16 ||| sig[667].toUInt16 <<< 8).toNat

/-- `PublicKey::verify`. The length is not compared with the array: `behind` is the memory that
follows it. -/
def verify (shake : Shake) (behind : Nat → UInt8) (pk : Vector UInt8 897)
    (message : List UInt8) (sig : Vector UInt8 668) : Bool :=
  let len := statedLength sig
  cryptoSignVerify shake ((sig.toList ++ (List.range len).map behind).take len) message pk.toList

/-! ## Arrays that were encoded -/

section Arrays

variable {α : Type} [OfNat α 0] {n : Nat}

/-- The first `n` entries of an array, as a decoder returns them. -/
abbrev kept (n : Nat) (x : Nat → α) : Nat → α := entries ((List.range n).map x)

theorem kept_eq (x : Nat → α) {u : Nat} (hu : u < n) : kept n x u = x u := by
  rw [kept, entries, List.getD_eq_getElem _ _ (by simpa using hu), List.getElem_map,
    List.getElem_range]

theorem int8Poly_kept (x : Nat → Int8) : int8Poly 9 (kept (2 ^ 9) x) = int8Poly 9 x :=
  Lib.Ntt.NegaRing.ofCoeffs_congr fun u hu => by
    dsimp only
    rw [kept_eq x hu]

theorem wordPoly_kept (x : Nat → UInt16) : wordPoly 9 (kept (2 ^ 9) x) = wordPoly 9 x :=
  Lib.Ntt.NegaRing.ofCoeffs_congr fun u hu => by rw [kept_eq x hu]

theorem sized_eq_some {l : List UInt8} {v : Vector UInt8 n} :
    sized n l = some v ↔ v.toList = l := by
  rw [sized]
  constructor
  · intro h
    split at h
    · obtain rfl := Option.some.inj h
      rfl
    · cases h
  · rintro rfl
    rw [dif_pos (by simp)]
    rfl

theorem exists_sized {l : List UInt8} (h : l.length = n) :
    ∃ v : Vector UInt8 n, sized n l = some v :=
  ⟨⟨l.toArray, h⟩, sized_eq_some.mpr rfl⟩

end Arrays

/-! ## Key generation -/

section Generation

variable {gen : Gen} {stream : Nat → UInt8} {logn fuel k : Nat} {keys : Keys}

/-- What is known of generated keys, whatever the parameters are. -/
theorem keygen_eq_some (h : keygen gen stream logn fuel k = some keys) :
    (∀ u < 2 ^ logn, |(keys.f u).toInt| < (2 : Int) ^ (maxFgBits.getD logn 0 - 1) ∧
      |(keys.g u).toInt| < (2 : Int) ^ (maxFgBits.getD logn 0 - 1)) ∧
    computePublic keys.f keys.g logn = some keys.h ∧ gen.solveNtru keys.f keys.g = some keys.F := by
  induction fuel generalizing k with
  | zero => cases h
  | succ fuel ih =>
      rw [keygen] at h
      dsimp only at h
      split at h
      · exact ih h
      · next hok =>
          split at h
          · exact ih h
          · next hpublic =>
              split at h
              · exact ih h
              · next hsolve =>
                  obtain rfl := Option.some.inj h
                  refine ⟨?_, hpublic, hsolve⟩
                  intro u hu
                  rw [acceptable] at hok
                  by_contra hlarge
                  refine hok ?_
                  rw [if_pos]
                  · rfl
                  · refine ⟨u, hu, ?_⟩
                    simp only [abs_lt] at hlarge
                    omega

end Generation

/-! ## The secret key -/

section Secret

variable {keys : Keys} {sk : List UInt8}

/-- What `do_sign` reads in a secret key that `crypto_sign_keypair` has written. -/
theorem decodeSecret_encoded (h : encodeSecret keys = some sk) :
    decodeSecret sk =
      (completePrivate (kept (2 ^ 9) keys.f) (kept (2 ^ 9) keys.g) (kept (2 ^ 9) keys.F) 9).map
      fun G => (kept (2 ^ 9) keys.f, kept (2 ^ 9) keys.g, kept (2 ^ 9) keys.F, G) := by
  rw [encodeSecret] at h
  obtain ⟨⟨v1, f⟩, hf, h⟩ := Option.bind_eq_some_iff.mp h
  obtain ⟨⟨v2, g⟩, hg, h⟩ := Option.bind_eq_some_iff.mp h
  obtain ⟨⟨v3, F⟩, hF, h⟩ := Option.bind_eq_some_iff.mp h
  dsimp only at hf hg hF h
  split at h
  · cases h
  · next hsize =>
      obtain rfl := Option.some.inj h
      obtain ⟨hlen1, hdec1⟩ := trimI8Decode_encoded (by decide) (by decide) hf (g ++ F)
      obtain ⟨hlen2, hdec2⟩ := trimI8Decode_encoded (by decide) (by decide) hg F
      obtain ⟨hlen3, hdec3⟩ := trimI8Decode_encoded (by decide) (by decide) hF []
      have hdrop1 : (0x59 :: (f ++ g ++ F)).drop 1 = f ++ (g ++ F) := List.append_assoc f g F
      have hdrop2 : (0x59 :: (f ++ g ++ F)).drop (1 + v1) = g ++ F := by
        rw [← List.drop_drop, hdrop1, ← hlen1, List.drop_left]
      have hdrop3 : (0x59 :: (f ++ g ++ F)).drop (1 + v1 + v2) = F ++ [] := by
        rw [← List.drop_drop, hdrop2, ← hlen2, List.drop_left, List.append_nil]
      rw [decodeSecret, if_neg (by simp)]
      dsimp only
      rw [hdrop1, hdec1]
      dsimp only [Option.bind_eq_bind, Option.bind_some]
      rw [hdrop2, hdec2]
      dsimp only [Option.bind_some]
      rw [hdrop3, hdec3]
      dsimp only [Option.bind_some]
      rw [if_neg hsize]
      exact Option.map_eq_bind.symm

/-- **The signer works with the generated key**, if there is a `G` that belongs to it. -/
theorem decodeSecret_of_ntru (h : encodeSecret keys = some sk) (hunit : IsUnit (int8Poly 9 keys.f))
    {G : Nat → Int} (hG : ∀ u < 2 ^ 9, |G u| ≤ 127)
    (hntru : int8Poly 9 keys.f * intPoly 9 G = int8Poly 9 keys.g * int8Poly 9 keys.F) :
    ∃ G', decodeSecret sk =
        some (kept (2 ^ 9) keys.f, kept (2 ^ 9) keys.g, kept (2 ^ 9) keys.F, G') ∧
      int8Poly 9 G' = intPoly 9 G := by
  obtain ⟨G', hrun, hG'⟩ := (completePrivate_iff (show 9 ≤ 10 by decide) (kept (2 ^ 9) keys.f)
    (kept (2 ^ 9) keys.g) (kept (2 ^ 9) keys.F) G).mpr (by
      rw [int8Poly_kept, int8Poly_kept, int8Poly_kept]
      exact ⟨hunit, hG, hntru⟩)
  refine ⟨G', ?_, Lib.Ntt.NegaRing.ofCoeffs_congr fun u hu =>
    congrArg (Int.cast : Int → Zq) (hG' u hu)⟩
  rw [decodeSecret_encoded h, hrun]
  rfl

private theorem trimValid_of_abs_lt {bits : Nat} {x : Int8} (h : |x.toInt| < 2 ^ (bits - 1)) :
    TrimValid bits x := by
  rw [TrimValid]
  have := abs_lt.mp h
  omega

/-- Keys in range can be written. -/
theorem exists_encodeSecret
    (hf : ∀ u < 2 ^ 9, |(keys.f u).toInt| < 2 ^ 5 ∧ |(keys.g u).toInt| < 2 ^ 5)
    (hF : ∀ u < 2 ^ 9, |(keys.F u).toInt| < 2 ^ 7) :
    ∃ sk, encodeSecret keys = some sk ∧ sk.length = 1281 := by
  obtain ⟨f, hf'⟩ := exists_trimI8Encode 9 6 (fun u hu => trimValid_of_abs_lt (hf u hu).1)
    (show (2 ^ 9 * 6 + 7) / 8 ≤ 1281 - 1 by decide)
  obtain ⟨g, hg'⟩ := exists_trimI8Encode 9 6 (fun u hu => trimValid_of_abs_lt (hf u hu).2)
    (show (2 ^ 9 * 6 + 7) / 8 ≤ 1281 - (1 + 384) by decide)
  obtain ⟨F, hF'⟩ := exists_trimI8Encode 9 8 (fun u hu => trimValid_of_abs_lt (hF u hu))
    (show (2 ^ 9 * 8 + 7) / 8 ≤ 1281 - (1 + 384 + 384) by decide)
  have hlen1 := (trimI8Decode_encoded (by decide) (by decide) hf' []).1
  have hlen2 := (trimI8Decode_encoded (by decide) (by decide) hg' []).1
  have hlen3 := (trimI8Decode_encoded (by decide) (by decide) hF' []).1
  refine ⟨0x59 :: (f ++ g ++ F), ?_, ?_⟩
  · rw [encodeSecret]
    refine Option.bind_eq_some_iff.mpr ⟨(384, f), hf', ?_⟩
    refine Option.bind_eq_some_iff.mpr ⟨(384, g), hg', ?_⟩
    exact Option.bind_eq_some_iff.mpr ⟨(512, F), hF', rfl⟩
  · rw [List.length_cons, List.length_append, List.length_append, hlen1, hlen2, hlen3]
    rfl

end Secret

/-! ## The public key -/

section Public

variable {keys : Keys} {pk : List UInt8}

/-- What `do_verify` reads in a public key that was written. -/
theorem decodePublic_encoded (h : encodePublic keys = some pk) :
    pk.getD 0 0 = 9 ∧
      modqDecode 9 (pk.drop 1) = some (897 - 1, (List.range (2 ^ 9)).map keys.h) := by
  rw [encodePublic] at h
  obtain ⟨⟨v, out⟩, hout, h⟩ := Option.bind_eq_some_iff.mp h
  dsimp only at hout h
  split at h
  · cases h
  · next hv =>
      obtain rfl := Option.some.inj h
      have hdec := (modqDecode_encoded hout []).2
      rw [List.append_nil, not_not.mp hv] at hdec
      exact ⟨rfl, hdec⟩

theorem exists_encodePublic (hh : Reduced (2 ^ 9) keys.h) :
    ∃ pk, encodePublic keys = some pk ∧ pk.length = 897 := by
  obtain ⟨out, hout⟩ := exists_modqEncode 9 (fun u hu => UInt16.lt_iff_toNat_lt.mpr (hh u hu))
    (show (2 ^ 9 * 14 + 7) / 8 ≤ 897 - 1 by decide)
  have hlen := (modqDecode_encoded hout []).1
  refine ⟨9 :: out, ?_, ?_⟩
  · rw [encodePublic]
    exact Option.bind_eq_some_iff.mpr ⟨(896, out), hout, rfl⟩
  · rw [List.length_cons, hlen]
    rfl

end Public

/-- Keys in range give a key pair, and the key pair gives them back. -/
theorem exists_keypair {keys : Keys}
    (hf : ∀ u < 2 ^ 9, |(keys.f u).toInt| < 2 ^ 5 ∧ |(keys.g u).toInt| < 2 ^ 5)
    (hF : ∀ u < 2 ^ 9, |(keys.F u).toInt| < 2 ^ 7) (hh : Reduced (2 ^ 9) keys.h) :
    ∃ kp, Keypair.new keys = some kp := by
  obtain ⟨sk, hsk, hsklen⟩ := exists_encodeSecret hf hF
  obtain ⟨pk, hpk, hpklen⟩ := exists_encodePublic hh
  obtain ⟨pk', hpk'⟩ := exists_sized hpklen
  obtain ⟨sk', hsk'⟩ := exists_sized hsklen
  refine ⟨⟨pk', sk'⟩, ?_⟩
  rw [Keypair.new]
  refine Option.bind_eq_some_iff.mpr ⟨sk, hsk, ?_⟩
  refine Option.bind_eq_some_iff.mpr ⟨pk, hpk, ?_⟩
  refine Option.bind_eq_some_iff.mpr ⟨pk', hpk', ?_⟩
  exact Option.bind_eq_some_iff.mpr ⟨sk', hsk', rfl⟩

theorem Keypair.new_eq_some {keys : Keys} {kp : Keypair} (h : Keypair.new keys = some kp) :
    encodeSecret keys = some kp.sk.toList ∧ encodePublic keys = some kp.pk.toList := by
  rw [Keypair.new] at h
  obtain ⟨sk, hsk, h⟩ := Option.bind_eq_some_iff.mp h
  obtain ⟨pk, hpk, h⟩ := Option.bind_eq_some_iff.mp h
  obtain ⟨pk', hpk', h⟩ := Option.bind_eq_some_iff.mp h
  obtain ⟨sk', hsk', h⟩ := Option.bind_eq_some_iff.mp h
  obtain rfl := Option.some.inj h
  rw [sized_eq_some.mp hpk', sized_eq_some.mp hsk']
  exact ⟨hsk, hpk⟩

/-! ## Signing -/

section Signing

open Lib.Ntt

variable {hm h : Nat → UInt16} {f g F G : Nat → Int8} {s2 : Nat → Int16}
  {t : (Nat → Int64) × (Nat → Int64)}

/-- `s2` is a signature of the point `c` under the public key `h`. -/
def ShortFor (h c : Nat → UInt16) (s2 : Nat → Int16) : Prop :=
  ∃ s1 : Nat → Int,
    intPoly 9 s1 = intPoly 9 (fun x => (s2 x).toInt) * wordPoly 9 h - wordPoly 9 c ∧
      normSq (2 ^ 9) s1 + normSq (2 ^ 9) (fun x => (s2 x).toInt) ≤ 34034726

/-- What an attempt starts from: a vector of the lattice of the key, not too far from the point. -/
structure LatticeVector (f g F G : Nat → Int8) (hm : Nat → UInt16)
    (t : (Nat → Int64) × (Nat → Int64)) : Prop where
  near : ∀ u < 2 ^ 9, |((hm u).toNat : Int) - (t.1 u).toInt| ≤ 46340 ∧ |(t.2 u).toInt| < 2 ^ 15
  lattice : ∃ z0 z1 : NegaRing Zq (2 ^ 9),
    intPoly 9 (fun u => (t.1 u).toInt) = z0 * int8Poly 9 g + z1 * int8Poly 9 G ∧
      intPoly 9 (fun u => (t.2 u).toInt) = -(z0 * int8Poly 9 f + z1 * int8Poly 9 F)

theorem toInt_difference {u : Nat} {t0 : Nat → Int64}
    (hnear : |((hm u).toNat : Int) - (t0 u).toInt| ≤ 46340) :
    ((hm u).toUInt32.toInt32 - (t0 u).toInt32).toInt = (hm u).toNat - (t0 u).toInt := by
  have hlt := (hm u).toNat_lt
  have hword : (hm u).toUInt32.toInt32.toInt = (hm u).toNat := by
    rw [toInt_toInt32] <;> rw [UInt16.toNat_toUInt32]
    omega
  have hnear := abs_le.mp hnear
  have hlow : (t0 u).toInt32.toInt = (t0 u).toInt := by
    rw [Int64.toInt_toInt32, Int.bmod_def]
    split <;> omega
  rw [Int32.toInt_sub, hword, hlow, Int.bmod_def]
  split <;> omega

/-- An attempt succeeds exactly with a vector that is short. -/
theorem signAttempt_eq (hnear : ∀ u < 2 ^ 9,
      |((hm u).toNat : Int) - (t.1 u).toInt| ≤ 46340 ∧ |(t.2 u).toInt| < 2 ^ 15) :
    (∀ u < 2 ^ 9, (-t.2 u).toInt16.toInt = -(t.2 u).toInt) ∧
    signAttempt hm t.1 t.2 9 =
      if normSq (2 ^ 9) (fun u => (hm u).toNat - (t.1 u).toInt) +
          normSq (2 ^ 9) (fun u => (-t.2 u).toInt16.toInt) ≤ 34034726
        then some (fun u => (-t.2 u).toInt16) else none := by
  -- the wrapping sum of squares is the true one until its top bit is set, and that bit stays
  have hadds : ∀ n ≤ 2 ^ 9, Adds (forRange 0 n (fun (acc : UInt32 × UInt32) u =>
      let z := (hm u).toUInt32.toInt32 - (t.1 u).toInt32
      let sqn := acc.1 + (z * z).toUInt32
      (sqn, acc.2 ||| sqn)) (0, 0)) (normSq n fun u => (hm u).toNat - (t.1 u).toInt) := by
    intro n hn
    induction n with
    | zero =>
        exact .inl ⟨show (0 : Int) < 2 ^ 31 by decide, rfl,
          show (0 : UInt32).toNat < 2 ^ 31 by decide⟩
    | succ n ih =>
        have hdiff := toInt_difference (hnear n (by omega)).1
        have hsquare := toNat_mul_self (z := (hm n).toUInt32.toInt32 - (t.1 n).toInt32) (by
          rw [hdiff]
          exact (hnear n (by omega)).1)
        have hle : ((hm n).toNat - (t.1 n).toInt) ^ 2 ≤ 46340 ^ 2 := by
          rw [← sq_abs]
          exact pow_le_pow_left₀ (abs_nonneg _) (hnear n (by omega)).1 2
        rw [forRange_succ (Nat.zero_le n), normSq_succ]
        rw [hdiff] at hsquare
        rw [← hsquare] at hle ⊢
        exact (ih (by omega)).add (by omega)
  have hsum := hadds (2 ^ 9) (Nat.le_refl _)
  refine ⟨fun u hu => ?_, ?_⟩
  · have hsmall := abs_lt.mp (hnear u hu).2
    rw [Int64.toInt_toInt16, Int64.toInt_neg, Int.bmod_def, Int.bmod_def]
    split <;> split <;> omega
  · rw [signAttempt]
    generalize forRange 0 (2 ^ 9) _ _ = acc at hsum ⊢
    obtain ⟨sqn, ng⟩ := acc
    dsimp only
    congr 1
    rw [isShortHalf_iff, show (l2bound.getD 9 0).toNat = 34034726 from rfl, eq_iff_iff]
    have hnonneg := normSq_nonneg (2 ^ 9) fun u => (-t.2 u).toInt16.toInt
    rcases hsum.masked with ⟨htotal, hvalue⟩ | ⟨htotal, hvalue⟩ <;> omega

/-- **A short vector of the lattice is a signature.** -/
theorem shortFor_of_attempt (hunit : IsUnit (int8Poly 9 f))
    (hpublic : wordPoly 9 h * int8Poly 9 f = int8Poly 9 g)
    (hntru : int8Poly 9 f * int8Poly 9 G = int8Poly 9 g * int8Poly 9 F)
    (ht : LatticeVector f g F G hm t) (hs : signAttempt hm t.1 t.2 9 = some s2) :
    ShortFor h hm s2 := by
  obtain ⟨hneg, heq⟩ := signAttempt_eq ht.near
  obtain ⟨z0, z1, ht0, ht1⟩ := ht.lattice
  rw [heq, Option.ite_none_right_eq_some] at hs
  obtain ⟨hle, hs2⟩ := hs
  obtain rfl := Option.some.inj hs2
  refine ⟨fun u => (t.1 u).toInt - (hm u).toNat, ?_, ?_⟩
  · have hs1 : intPoly 9 (fun u => (t.1 u).toInt - (hm u).toNat) =
        intPoly 9 (fun u => (t.1 u).toInt) - wordPoly 9 hm := by
      rw [intPoly, intPoly, wordPoly, ← NegaRing.ofCoeffs_sub]
      exact NegaRing.ofCoeffs_congr fun u _ => by
        rw [Int.cast_sub, Int.cast_natCast]
        rfl
    have hs2 : intPoly 9 (fun u => (-t.2 u).toInt16.toInt) =
        -intPoly 9 (fun u => (t.2 u).toInt) := by
      rw [intPoly, intPoly, ← NegaRing.ofCoeffs_neg]
      exact NegaRing.ofCoeffs_congr fun u hu => by rw [hneg u hu, Int.cast_neg]
    -- the public key turns `F` into `G`, as it turns `f` into `g`
    have hG : int8Poly 9 G = wordPoly 9 h * int8Poly 9 F := by
      apply hunit.mul_left_cancel
      rw [hntru, ← hpublic]
      ring
    rw [hs1, hs2, ht0, ht1, hG, ← hpublic]
    ring
  · have hflip : normSq (2 ^ 9) (fun u => (t.1 u).toInt - (hm u).toNat) =
        normSq (2 ^ 9) (fun u => (hm u).toNat - (t.1 u).toInt) :=
      Finset.sum_congr rfl fun u _ => by ring
    rw [hflip]
    exact hle

/-- A first attempt that succeeds ends the signing. -/
theorem signDyn_of_attempt {vectors : Nat → (Nat → Int64) × (Nat → Int64)} {logn fuel k : Nat}
    (hvector : vectors k = t) (hs : signAttempt hm t.1 t.2 logn = some s2) :
    signDyn hm vectors logn (fuel + 1) k = some s2 := by
  rw [signDyn, hvector, hs]

theorem signDyn_eq_some {vectors : Nat → (Nat → Int64) × (Nat → Int64)} {logn fuel k : Nat}
    (h : signDyn hm vectors logn fuel k = some s2) :
    ∃ j, signAttempt hm (vectors j).1 (vectors j).2 logn = some s2 := by
  induction fuel generalizing k with
  | zero => cases h
  | succ fuel ih =>
      rw [signDyn] at h
      split at h
      · next hs => exact ⟨k, hs.trans h⟩
      · exact ih h

end Signing

/-! ## Verifying -/

section Verifying

variable {shake : Shake} {nonce sigbuf m pk : List UInt8}

/-- The hashed point that `do_verify` compares with. -/
theorem hashedPoint (henough : 2 ^ 9 ≤ (goodSamples (shake (nonce ++ m)) 9).length) :
    Reduced (2 ^ 9) (hashToPointCt (shake (nonce ++ m)) 9) ∧
      wordPoly 9 (hashToPointCt (shake (nonce ++ m)) 9) =
        wordPoly 9 (entries ((goodSamples (shake (nonce ++ m)) 9).take (2 ^ 9))) := by
  have hspec := hashToPointCt_spec (by decide) henough
  have hentry : ∀ u < 2 ^ 9, hashToPointCt (shake (nonce ++ m)) 9 u =
      entries ((goodSamples (shake (nonce ++ m)) 9).take (2 ^ 9)) u := by
    intro u hu
    rw [← hspec]
    exact (kept_eq _ hu).symm
  refine ⟨fun u hu => ?_, Lib.Ntt.NegaRing.ofCoeffs_congr fun u hu => by rw [hentry u hu]⟩
  have hlen : u < ((goodSamples (shake (nonce ++ m)) 9).take (2 ^ 9)).length := by
    rw [List.length_take_of_le henough]
    exact hu
  rw [hentry u hu, entries, List.getD_eq_getElem _ _ hlen]
  exact mem_goodSamples (List.mem_of_mem_take (List.getElem_mem hlen))

theorem shortFor_congr {h h' c c' : Nat → UInt16} {s2 s2' : Nat → Int16}
    (hh : wordPoly 9 h = wordPoly 9 h') (hc : wordPoly 9 c = wordPoly 9 c')
    (hs2 : ∀ u < 2 ^ 9, s2 u = s2' u) : ShortFor h c s2 ↔ ShortFor h' c' s2' := by
  have hpoly : intPoly 9 (fun x => (s2 x).toInt) = intPoly 9 fun x => (s2' x).toInt :=
    Lib.Ntt.NegaRing.ofCoeffs_congr fun u hu => by
      dsimp only
      rw [hs2 u hu]
  have hnorm : normSq (2 ^ 9) (fun x => (s2 x).toInt) = normSq (2 ^ 9) fun x => (s2' x).toInt :=
    Finset.sum_congr rfl fun u hu => by
      dsimp only
      rw [hs2 u (Finset.mem_range.mp hu)]
  rw [ShortFor, ShortFor, hh, hc, hpoly, hnorm]

theorem reduced_decoded {v : Nat} {h : List UInt16} (hh : modqDecode 9 pk = some (v, h)) :
    Reduced (2 ^ 9) (entries h) := by
  obtain ⟨-, -, hlen, hlt, -⟩ := modqDecode_eq_some.mp hh
  intro u hu
  rw [entries, List.getD_eq_getElem _ _ (hlen ▸ hu)]
  exact UInt16.lt_iff_toNat_lt.mp (hlt _ (List.getElem_mem _))

/-- **What `do_verify` accepts.** -/
theorem doVerify_iff (henough : 2 ^ 9 ≤ (goodSamples (shake (nonce ++ m)) 9).length) :
    doVerify shake nonce sigbuf m pk = true ↔
      pk.getD 0 0 = 9 ∧ ∃ h v s2, modqDecode 9 (pk.drop 1) = some (897 - 1, h) ∧
        compDecode 9 sigbuf = some (v, s2) ∧ paddingOk sigbuf v = true ∧
        ShortFor (entries h) (entries ((goodSamples (shake (nonce ++ m)) 9).take (2 ^ 9)))
          (entries s2) := by
  obtain ⟨hred, hpoly⟩ := hashedPoint henough
  -- with key and signature decoded, what is left is the test of `verify_raw`
  have hraw {v : Nat} {h : List UInt16} (hh : modqDecode 9 (pk.drop 1) = some (v, h))
      (s2 : List Int16) :
      verifyRaw (hashToPointCt (shake (nonce ++ m)) 9) (entries s2) (toNttMonty (entries h) 9) 9 =
          true ↔
        ShortFor (entries h) (entries ((goodSamples (shake (nonce ++ m)) 9).take (2 ^ 9)))
          (entries s2) :=
    (verifyRaw_iff (by decide) hred (reduced_decoded hh) (entries s2)).trans
      (shortFor_congr rfl hpoly fun _ _ => rfl)
  rw [doVerify]
  constructor
  · intro hok
    split at hok
    · cases hok
    · next hheader =>
        refine ⟨not_not.mp hheader, ?_⟩
        split at hok
        · cases hok
        · next v h hh =>
            split at hok
            · cases hok
            · next hv =>
                rw [not_not.mp hv] at hh
                dsimp only at hok
                split at hok
                · cases hok
                · split at hok
                  · cases hok
                  · next w s2 hs2 =>
                      split at hok
                      · cases hok
                      · next hpad =>
                          exact ⟨h, w, s2, hh, hs2, by simpa using hpad, (hraw hh s2).mp hok⟩
  · rintro ⟨hheader, h, v, s2, hh, hs2, hpad, hshort⟩
    -- an empty signature decodes to nothing
    have hne : sigbuf.length ≠ 0 := by
      intro hzero
      rw [List.eq_nil_of_length_eq_zero hzero] at hs2
      cases hs2
    rw [if_neg (not_not.mpr hheader), hh]
    dsimp only
    rw [if_neg (by decide), if_neg hne, hs2]
    dsimp only
    rw [hpad, if_neg (by decide)]
    exact (hraw hh s2).mpr hshort

end Verifying

/-! ## Signatures as bytes -/

section Bytes

variable {shake : Shake} {nearest : Nearest} {fuel : Nat} {kp : Keypair} {message : List UInt8}
  {nonce : Vector UInt8 40} {seed : Vector UInt8 48} {sig : Vector UInt8 668}

theorem statedLength_withLength (sig : Vector UInt8 668) {len : Nat} (hlen : len < 2 ^ 16) :
    statedLength (withLength sig len) = len := by
  have hlow : (withLength sig len)[666] = (UInt16.ofNat len).toUInt8 := by simp [withLength]
  have hhigh : (withLength sig len)[667] = (UInt16.ofNat len >>> 8).toUInt8 := by simp [withLength]
  have hlow' : (UInt16.ofNat len).toUInt8.toUInt16.toNat = len % 2 ^ 8 := by
    rw [UInt8.toNat_toUInt16, UInt16.toNat_toUInt8, UInt16.toNat_ofNat', Nat.mod_eq_of_lt hlen]
  have hhigh' : ((UInt16.ofNat len >>> 8).toUInt8.toUInt16 <<< 8).toNat = (len / 2 ^ 8) <<< 8 := by
    rw [UInt16.toNat_shiftLeft, UInt8.toNat_toUInt16, UInt16.toNat_toUInt8,
      UInt16.toNat_shiftRight, UInt16.toNat_ofNat', Nat.mod_eq_of_lt hlen]
    show (len >>> 8 % 2 ^ 8) <<< 8 % 2 ^ 16 = _
    rw [Nat.shiftRight_eq_div_pow, Nat.shiftLeft_eq, Nat.shiftLeft_eq]
    omega
  rw [statedLength, hlow, hhigh, UInt16.toNat_or, hlow', hhigh', Nat.or_comm,
    ← Nat.shiftLeft_add_eq_or_of_lt (Nat.mod_lt len (Nat.two_pow_pos 8)), Nat.shiftLeft_eq,
    Nat.div_add_mod']

theorem take_withLength (sig : Vector UInt8 668) (len : Nat) {k : Nat} (hk : k ≤ 666) :
    (withLength sig len).toList.take k = sig.toList.take k := by
  rw [withLength, Vector.toList_set, Vector.toList_set, List.take_set_of_le (by omega),
    List.take_set_of_le (by omega)]

/-- What is in a signature that was made. -/
theorem Keypair.sign_eq_signature
    (h : kp.sign shake nearest fuel message nonce seed = .signature sig) :
    ∃ f g F G s2 out base, decodeSecret kp.sk.toList = some (f, g, F, G) ∧
      (let hm := hashToPointCt (shake (nonce.toList ++ message)) 9
       signDyn hm (nearest (shake seed.toList) f g F G hm) 9 fuel 0 = some s2) ∧
      compEncode (752 - 40 - 1) s2 9 = some out ∧ 1 + 40 + out.length ≤ 668 ∧
      base.toList = 0x39 :: nonce.toList ++ out ++
        List.replicate (668 - (1 + 40 + out.length)) 0 ∧
      sig = withLength base (1 + 40 + out.length) := by
  rw [Keypair.sign] at h
  split at h
  · cases h
  · next f g F G hsecret =>
      dsimp only at h
      split at h
      · cases h
      · next s2 hs2 =>
          split at h
          · split at h <;> cases h
          · next out hout =>
              split at h
              · cases h
              · next base hbase =>
                  have hbytes := sized_eq_some.mp hbase
                  refine ⟨f, g, F, G, s2, out, base, hsecret, hs2, hout, ?_, hbytes, ?_⟩
                  · have hlen := congrArg List.length hbytes
                    simp at hlen
                    omega
                  · exact (Signed.signature.inj h).symm

/-- A compressed signature that fits is returned. -/
theorem Keypair.exists_signature {f g F G : Nat → Int8} {s2 : Nat → Int16} {out : List UInt8}
    (hsecret : decodeSecret kp.sk.toList = some (f, g, F, G))
    (hs2 : let hm := hashToPointCt (shake (nonce.toList ++ message)) 9
      signDyn hm (nearest (shake seed.toList) f g F G hm) 9 fuel 0 = some s2)
    (hout : compEncode (752 - 40 - 1) s2 9 = some out) (hlen : 1 + 40 + out.length ≤ 668) :
    ∃ base, base.toList = 0x39 :: nonce.toList ++ out ++
        List.replicate (668 - (1 + 40 + out.length)) 0 ∧
      kp.sign shake nearest fuel message nonce seed =
        .signature (withLength base (1 + 40 + out.length)) := by
  obtain ⟨base, hbase⟩ := exists_sized (n := 668)
    (l := 0x39 :: nonce.toList ++ out ++ List.replicate (668 - (1 + 40 + out.length)) 0) (by
      simp
      omega)
  refine ⟨base, sized_eq_some.mp hbase, ?_⟩
  dsimp only at hs2
  rw [Keypair.sign, hsecret]
  dsimp only
  rw [hs2]
  dsimp only
  rw [hout]
  dsimp only
  rw [hbase]

/-- A signature is read as header, nonce and compressed coefficients, if the length is not written
over these. -/
theorem verify_withLength (behind : Nat → UInt8) (pk : Vector UInt8 897) {base : Vector UInt8 668}
    {out : List UInt8} (hlen : 1 + 40 + out.length ≤ 666)
    (hbase : base.toList =
      0x39 :: nonce.toList ++ out ++ List.replicate (668 - (1 + 40 + out.length)) 0) :
    verify shake behind pk message (withLength base (1 + 40 + out.length)) =
      doVerify shake nonce.toList out message pk.toList := by
  have hfront : 0x39 :: nonce.toList ++ out =
      (base.toList).take (1 + 40 + out.length) := by
    rw [hbase, List.take_left']
    simp
    omega
  rw [verify, statedLength_withLength base (by omega),
    List.take_append_of_le_length (by rw [Vector.length_toList]; omega),
    take_withLength base _ hlen, ← hfront, cryptoSignVerify, if_neg (by simp), if_neg (by simp)]
  have hnonce : nonce.toList.length = 40 := by simp
  congr 1
  · rw [List.cons_append, List.drop_succ_cons, List.drop_zero, List.take_left' hnonce]
  · rw [List.cons_append, List.drop_succ_cons, List.drop_zero, List.drop_left' hnonce]

/-- Bytes of coefficients that are short under the public key are accepted. -/
theorem verify_of_shortFor {keys : Keys} (hpk : encodePublic keys = some kp.pk.toList)
    {s2 : Nat → Int16} {out : List UInt8} {base : Vector UInt8 668}
    (hout : compEncode (752 - 40 - 1) s2 9 = some out) (hlen : 1 + 40 + out.length ≤ 666)
    (hbase : base.toList =
      0x39 :: nonce.toList ++ out ++ List.replicate (668 - (1 + 40 + out.length)) 0)
    (henough : 2 ^ 9 ≤ (goodSamples (shake (nonce.toList ++ message)) 9).length)
    (hshort : ShortFor keys.h (hashToPointCt (shake (nonce.toList ++ message)) 9) s2)
    (behind : Nat → UInt8) :
    verify shake behind kp.pk message (withLength base (1 + 40 + out.length)) = true := by
  obtain ⟨hheader, hmodq⟩ := decodePublic_encoded hpk
  obtain ⟨-, hpoint⟩ := hashedPoint henough
  have hcomp := compDecode_encoded hout []
  rw [List.append_nil] at hcomp
  rw [verify_withLength behind kp.pk hlen hbase, doVerify_iff henough]
  refine ⟨hheader, _, _, _, hmodq, hcomp, by simp [paddingOk], ?_⟩
  exact (shortFor_congr (wordPoly_kept keys.h) hpoint.symm fun u hu => kept_eq s2 hu).mpr hshort

end Bytes

end OnionNetwork.Falcon
