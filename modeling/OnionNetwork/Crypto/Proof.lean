import OnionNetwork.Codec.Encode

/-!
# Signed proofs

A `Proof` carries the signer's key, a nonce, a context and one signature. What
is signed is `pack_payload`: the hash of the encoded nonce followed by the
encoded context. The type of the context is not part of the payload, only its
bytes are (`packPayload` depends on the context through `Encode.encode`).
-/

namespace OnionNetwork

/-- `proof::Nonce`. -/
abbrev Nonce := Nat

/-- `NonceInt::advance_to`: the value left behind and whether it moved. -/
def Nonce.advanceTo (self target : Nonce) : Nonce × Bool :=
  if self < target then (target, true) else (self, false)

/-- `proof::Proof<T>`. -/
structure Proof (cr : Crypto) (T : Type) where
  pk : cr.PublicKey
  nonce : Nonce
  signature : cr.Signature
  context : T

namespace Proof

variable {cr : Crypto} {T : Type} [Encode T]

/-- `Proof::pack_payload`. -/
def packPayload (cr : Crypto) (nonce : Nonce) (context : T) : Hash :=
  cr.blake3 (base128Encode nonce ++ Encode.encode context)

/-- `Proof::new`: the proof and the signer's next nonce. -/
def new (kp : cr.Keypair) (nonce : Nonce) (context : T) (rng : cr.Rng) : Proof cr T × Nonce :=
  let signature := cr.sign kp (packPayload cr nonce context).toBytes rng
  ({ pk := cr.publicKey kp, nonce, signature, context }, nonce + 1)

/-- `Proof::verify`. -/
def verify (p : Proof cr T) : Bool :=
  cr.verify p.pk (packPayload cr p.nonce p.context).toBytes p.signature

omit [Encode T] in
/-- `Proof::identity`. -/
def identity (p : Proof cr T) : Hash :=
  cr.identity p.pk

end Proof

/-- An instance of the primitives without secrets: a signature is the key and
the message, and the hash reads its input as one number (with a leading one, so
that no two inputs below 32 bytes collide). Concrete runs are evaluated in it. -/
def Crypto.transparent : Crypto where
  Keypair := Hash
  PublicKey := Hash
  Signature := Hash × Bytes
  Rng := Unit
  blake3 bytes := BitVec.ofNat 256 (bytes.foldl (fun acc b => acc * 256 + b.toNat) 1)
  publicKeyBytes := Hash.toBytes
  publicKey := id
  sign kp message _ := (kp, message)
  verify pk message signature := signature == (pk, message)

/-- The hash of the transparent instance sees the last 32 bytes of an input. -/
theorem Crypto.transparent_blake3_append (front : Bytes) {back : Bytes} (h : 32 ≤ back.length) :
    Crypto.transparent.blake3 (front ++ back) = Crypto.transparent.blake3 back := by
  -- what was read before is shifted out: its weight is a multiple of 2 ^ 256
  have hread : ∀ (bytes : Bytes) (acc : Nat),
      bytes.foldl (fun acc b => acc * 256 + b.toNat) acc =
        acc * 256 ^ bytes.length + bytes.foldl (fun acc b => acc * 256 + b.toNat) 0 := by
    intro bytes
    induction bytes with
    | nil => simp
    | cons b bytes ih =>
        intro acc
        simp only [List.foldl_cons, List.length_cons]
        rw [ih (acc * 256 + b.toNat), ih (0 * 256 + b.toNat), Nat.pow_succ, Nat.add_mul,
          Nat.mul_assoc acc, Nat.mul_comm 256, Nat.zero_mul, Nat.zero_add, Nat.add_assoc]
  have hweight : ∀ acc : Nat, acc * 256 ^ back.length % 2 ^ 256 = 0 := by
    intro acc
    obtain ⟨k, hk⟩ := Nat.exists_eq_add_of_le h
    rw [hk, Nat.pow_add, show (256 : Nat) ^ 32 = 2 ^ 256 from rfl, ← Nat.mul_assoc,
      Nat.mul_right_comm]
    exact Nat.mul_mod_left _ _
  refine BitVec.eq_of_toNat_eq ?_
  show List.foldl _ 1 (front ++ back) % 2 ^ 256 = List.foldl _ 1 back % 2 ^ 256
  rw [List.foldl_append, hread back (List.foldl _ 1 front), hread back 1, Nat.add_mod, hweight,
    Nat.add_mod (1 * _), hweight]

/-- Its signatures verify, and for the signed message only. -/
theorem Crypto.transparent_verify_iff (kp : Crypto.transparent.Keypair) (message message' : Bytes)
    (rng : Crypto.transparent.Rng) :
    Crypto.transparent.verify (Crypto.transparent.publicKey kp) message'
      (Crypto.transparent.sign kp message rng) = true ↔ message' = message := by
  have hpair : ∀ (k : Hash) (a b : Bytes), ((k, a) == (k, b)) = true ↔ b = a := by
    intro k a b
    rw [beq_iff_eq, Prod.mk.injEq]
    exact ⟨fun h => h.2.symm, fun h => ⟨rfl, h.symm⟩⟩
  exact hpair kp message message'

/-- A proof in the transparent instance, signed by the key with this identity. -/
def Proof.transparent {T : Type} [Encode T] (kp : Hash) (nonce : Nonce) (context : T) :
    Proof Crypto.transparent T :=
  (Proof.new kp nonce context () : Proof Crypto.transparent T × Nonce).1

theorem Proof.verify_transparent {T : Type} [Encode T] (kp : Hash) (nonce : Nonce) (context : T) :
    (Proof.transparent kp nonce context).verify = true :=
  (Crypto.transparent_verify_iff kp _ _ ()).mpr rfl

/-- The transparent instance with a hash that all bytes go into. -/
def Crypto.mixed : Crypto :=
  { Crypto.transparent with
    blake3 := fun bytes =>
      BitVec.ofNat 256 (bytes.foldl (fun acc b => acc * 257 + b.toNat + 1) 0) }

/-- A proof in that instance. -/
def Proof.mixed {T : Type} [Encode T] (kp : Hash) (nonce : Nonce) (context : T) :
    Proof Crypto.mixed T :=
  (Proof.new kp nonce context () : Proof Crypto.mixed T × Nonce).1

end OnionNetwork
