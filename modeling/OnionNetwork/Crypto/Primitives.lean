import Mathlib.Order.Basic
import Mathlib.Data.BitVec

/-!
# Hashes and hybrid encapsulation

`[u8; 32]` values (hashes, identities, node ids) are 256-bit words read
big-endian, the reading `U256::from` uses: the XOR metric is word XOR, and the
lexicographic byte order of keys and of `sort_unstable` is the numeric order.

The primitives that come from other crates (blake3, the hybrid signature) are
the fields of `Crypto`; what is assumed about them is stated where it is used.

`crypto::enc` is a Kyber key pair and an X25519 key pair side by side. A shared
secret is the XOR of the secret of the Kyber encapsulation with the X25519
value of the two static keys, so the X25519 part of `encapsulate` and of
`decapsulate` between the same two key pairs is the same value. Kyber and X25519
are the fields of `Exchange`, over a type of shared secrets with an XOR, and what
is relied on about them is `Exchange.Lawful`.
-/

namespace OnionNetwork

/-- A byte string. -/
abbrev Bytes := List UInt8

/-- `crypto::Hash`. -/
abbrev Hash := BitVec 256

namespace Hash

instance : LinearOrder Hash where
  le a b := a ≤ b
  lt a b := a < b
  le_refl a := Nat.le_refl a.toNat
  le_trans _ _ _ hab hbc := Nat.le_trans hab hbc
  lt_iff_le_not_ge _ _ := Nat.lt_iff_le_and_not_ge
  le_antisymm _ _ hab hba := BitVec.eq_of_toNat_eq (Nat.le_antisymm hab hba)
  le_total a b := Nat.le_total a.toNat b.toNat
  toDecidableLE a b := inferInstanceAs (Decidable (a.toNat ≤ b.toNat))
  toDecidableEq := inferInstance
  toDecidableLT a b := inferInstanceAs (Decidable (a.toNat < b.toNat))

/-- Byte `i` of the array, the most significant one first. -/
def byte (h : Hash) (i : Nat) : UInt8 :=
  UInt8.ofBitVec (h.extractLsb' (8 * (31 - i)) 8)

/-- The array as a byte string. -/
def toBytes (h : Hash) : Bytes :=
  (List.range 32).map h.byte

@[simp] theorem length_toBytes (h : Hash) : h.toBytes.length = 32 := by
  simp [toBytes]

/-- The bytes determine the hash. -/
theorem toBytes_injective : Function.Injective toBytes := by
  intro a b hab
  have hbyte : ∀ i < 32, a.byte i = b.byte i := by
    intro i hi
    have hget := congrArg (fun l => l[i]?) hab
    simpa [toBytes, List.getElem?_map, List.getElem?_range hi] using hget
  apply BitVec.eq_of_getLsbD_eq
  intro j hj
  have hword := congrArg UInt8.toBitVec (hbyte (31 - j / 8) (by omega))
  have hbit := congrArg (fun v => v.getLsbD (j % 8)) hword
  have hidx : 8 * (31 - (31 - j / 8)) + j % 8 = j := by omega
  have hmod : j % 8 < 8 := Nat.mod_lt _ (by decide)
  simpa [byte, BitVec.getLsbD_extractLsb', hmod, hidx] using hbit

end Hash

/-- The primitives of the other crates: the blake3 hash and the hybrid
signature (`crypto::sign`). `verify` is `PublicKey::verify(data, sig).is_ok()`. -/
structure Crypto where
  Keypair : Type
  PublicKey : Type
  Signature : Type
  /-- The randomness a signature consumes. -/
  Rng : Type
  blake3 : Bytes → Hash
  /-- `PublicKey::as_ref`. -/
  publicKeyBytes : PublicKey → Bytes
  publicKey : Keypair → PublicKey
  sign : Keypair → Bytes → Rng → Signature
  verify : PublicKey → Bytes → Signature → Bool

namespace Crypto

variable (cr : Crypto)

/-- `hash::combine`: both arguments are fed to one hasher. -/
def combine (left right : Hash) : Hash :=
  cr.blake3 (left.toBytes ++ right.toBytes)

/-- `hash::kv`. -/
def kv (key : Hash) (value : Bytes) : Hash :=
  cr.blake3 (key.toBytes ++ value)

/-- `PublicKey::identity`. -/
def identity (pk : cr.PublicKey) : Hash :=
  cr.blake3 (cr.publicKeyBytes pk)

end Crypto

end OnionNetwork

namespace OnionNetwork

/-- `crypto::SharedSecret`, the same `[u8; 32]` as `Hash`. -/
abbrev SharedSecret := Hash

/-- `crypto::xor_secrets`. -/
def xorSecrets {S : Type} [XorOp S] (b a : S) : S := b ^^^ a

/-- The key exchange primitives of the other crates. Randomness is an argument
of its own type. -/
structure Exchange (S : Type) where
  KyberSeed : Type
  KyberSecret : Type
  KyberPublic : Type
  KyberCiphertext : Type
  StaticSecret : Type
  XPublic : Type
  Rng : Type
  /-- `kyber::Keypair::generate`, from the bytes the generator hands out. -/
  kyberGenerate : KyberSeed → KyberPublic × KyberSecret
  /-- `kyber::public`. -/
  kyberPublic : KyberSecret → KyberPublic
  /-- `kyber::encapsulate`, whose result the source unwraps. -/
  kyberEncapsulate : KyberPublic → Rng → KyberCiphertext × S
  kyberDecapsulate : KyberCiphertext → KyberSecret → Option S
  /-- `x25519_dalek::PublicKey::from`. -/
  xPublic : StaticSecret → XPublic
  diffieHellman : StaticSecret → XPublic → S

/-- What is documented of them: a key pair belongs together, decapsulation
gives back what was encapsulated, and both ends of a Diffie-Hellman exchange
compute the same value. -/
structure Exchange.Lawful {S : Type} (ex : Exchange S) : Prop where
  kyberPublic_generate (seed : ex.KyberSeed) :
    ex.kyberPublic (ex.kyberGenerate seed).2 = (ex.kyberGenerate seed).1
  decapsulate_encapsulate (sk : ex.KyberSecret) (rng : ex.Rng) :
    ex.kyberDecapsulate (ex.kyberEncapsulate (ex.kyberPublic sk) rng).1 sk =
      some (ex.kyberEncapsulate (ex.kyberPublic sk) rng).2
  diffieHellman_comm (a b : ex.StaticSecret) :
    ex.diffieHellman a (ex.xPublic b) = ex.diffieHellman b (ex.xPublic a)

/-- An instance without secrets: a public key is its secret key, a ciphertext
holds the receiver's key and the secret, and X25519 multiplies. Concrete runs
are evaluated in it. -/
def Exchange.transparent : Exchange SharedSecret where
  KyberSeed := Hash
  KyberSecret := Hash
  KyberPublic := Hash
  KyberCiphertext := Hash × SharedSecret
  StaticSecret := Hash
  XPublic := Hash
  Rng := SharedSecret
  kyberGenerate seed := (seed, seed)
  kyberPublic := id
  kyberEncapsulate pk rng := ((pk, rng), rng)
  kyberDecapsulate cp sk := some (if cp.1 = sk then cp.2 else 0)
  xPublic := id
  diffieHellman a b := a * b

theorem Exchange.transparent_lawful : Exchange.transparent.Lawful where
  kyberPublic_generate _ := rfl
  decapsulate_encapsulate _ _ := congrArg some (if_pos rfl)
  diffieHellman_comm a b := BitVec.mul_comm a b

namespace Enc

variable {S : Type}

/-- `enc::Ciphertext`. -/
structure Ciphertext (ex : Exchange S) where
  pl : ex.KyberCiphertext
  x : ex.XPublic

/-- `enc::PublicKey`. -/
structure PublicKey (ex : Exchange S) where
  post : ex.KyberPublic
  pre : ex.XPublic

/-- `enc::Keypair`. -/
structure Keypair (ex : Exchange S) where
  post : ex.KyberSecret
  pre : ex.StaticSecret

/-- `enc::DecapsulationError`. -/
inductive DecapsulationError
  | kyber
  | aes
  deriving DecidableEq, Repr

namespace Keypair

variable {ex : Exchange S} [XorOp S]

omit [XorOp S] in
/-- `Keypair::new`, from what it draws. -/
def new (seed : ex.KyberSeed) (pre : ex.StaticSecret) : Keypair ex :=
  { post := (ex.kyberGenerate seed).2, pre }

omit [XorOp S] in
/-- `Keypair::public_key`. -/
def publicKey (kp : Keypair ex) : PublicKey ex :=
  { post := ex.kyberPublic kp.post, pre := ex.xPublic kp.pre }

/-- `Keypair::encapsulate`. -/
def encapsulate (kp : Keypair ex) (publicKey : PublicKey ex) (rng : ex.Rng) : Ciphertext ex × S :=
  let (data, kSecret) := ex.kyberEncapsulate publicKey.post rng
  let xSecret := ex.diffieHellman kp.pre publicKey.pre
  ({ pl := data, x := ex.xPublic kp.pre }, kSecret ^^^ xSecret)

/-- `Keypair::decapsulate`. -/
def decapsulate (kp : Keypair ex) (ciphertext : Ciphertext ex) : Except DecapsulationError S :=
  let xSecret := ex.diffieHellman kp.pre ciphertext.x
  match ex.kyberDecapsulate ciphertext.pl kp.post with
  | none => .error .kyber
  | some kSecret => .ok (kSecret ^^^ xSecret)

/-- Decapsulation undoes encapsulation. -/
theorem decapsulate_encapsulate (hex : ex.Lawful) (kp other : Keypair ex) (rng : ex.Rng) :
    other.decapsulate (kp.encapsulate other.publicKey rng).1 =
      .ok (kp.encapsulate other.publicKey rng).2 := by
  simp only [decapsulate, encapsulate, publicKey, hex.decapsulate_encapsulate,
    hex.diffieHellman_comm other.pre kp.pre]

end Keypair

end Enc

end OnionNetwork
