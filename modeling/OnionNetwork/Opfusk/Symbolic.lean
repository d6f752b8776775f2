import OnionNetwork.Opfusk.Handshake
import OnionNetwork.Lib.Network
import Mathlib.Data.Finset.SymmDiff
import Mathlib.Data.Sym.Sym2

/-!
# The symbolic attacker

Shared secrets as formal XORs: finite sets of atoms, where an atom is the
secret of one Kyber encapsulation, the answer to a ciphertext that was made for
another key (Kyber rejects implicitly), or the X25519 value of two keys. XOR is
the symmetric difference, so nothing but the XOR laws relates two secrets.

What is drawn at random is a name. Honest connections and the attacker draw
different names, and names of different connections differ. `Rule` lists what
the attacker can do with what it knows; signing needs the key pair, which is
what makes signatures unforgeable. `safe_closed`: the attacker never gets hold of a
secret that contains an atom between two honest connections.
-/

namespace OnionNetwork.Opfusk

open Lib

/-- What is drawn at random: by the connection with this number, or by the
attacker. -/
inductive Name
  | session (i : Nat)
  | attacker (i : Nat)
  deriving DecidableEq, Repr

/-- What shared secrets are made of. -/
inductive Atom
  /-- The secret encapsulated to the key `receiver` with randomness `rng`. -/
  | kem (receiver rng : Name)
  /-- What the key `sk` answers to a ciphertext that is not for it. -/
  | reject (sk receiver rng : Name)
  /-- The X25519 value of two keys. -/
  | dh (ends : Sym2 Name)
  deriving DecidableEq

instance : XorOp (Finset Atom) := ⟨symmDiff⟩

theorem xor_def (a b : Finset Atom) : a ^^^ b = symmDiff a b := rfl

/-- What the key `sk` makes of a ciphertext. -/
def Atom.answer (sk : Name) (cp : Name × Name) : Atom :=
  if cp.1 = sk then .kem sk cp.2 else .reject sk cp.1 cp.2

/-- The key exchange over names. -/
def Exchange.symbolic : Exchange (Finset Atom) where
  KyberSeed := Name
  KyberSecret := Name
  KyberPublic := Name
  KyberCiphertext := Name × Name
  StaticSecret := Name
  XPublic := Name
  Rng := Name
  kyberGenerate seed := (seed, seed)
  kyberPublic := id
  kyberEncapsulate pk rng := ((pk, rng), {.kem pk rng})
  kyberDecapsulate cp sk := some {.answer sk cp}
  xPublic := id
  diffieHellman a b := {.dh s(a, b)}

theorem Exchange.symbolic_lawful : Exchange.symbolic.Lawful where
  kyberPublic_generate _ := rfl
  decapsulate_encapsulate _ _ :=
    congrArg (fun a : Atom => some ({a} : Finset Atom)) (if_pos rfl)
  diffieHellman_comm _ _ :=
    congrArg (fun ends : Sym2 Name => ({Atom.dh ends} : Finset Atom)) Sym2.eq_swap

/-- What the attacker may know. -/
inductive Datum (cr : Crypto) {S : Type} (ex : Exchange S)
  | secret (s : S)
  | staticSecret (a : ex.StaticSecret)
  | kyberSeed (seed : ex.KyberSeed)
  | kyberSecret (sk : ex.KyberSecret)
  | rng (rng : ex.Rng)
  | keypair (kp : cr.Keypair)
  | xPublic (pk : ex.XPublic)
  | kyberPublic (pk : ex.KyberPublic)
  | kyberCiphertext (cp : ex.KyberCiphertext)
  | challinge (c : Hash)
  | signPk (pk : cr.PublicKey)
  | signature (sig : cr.Signature)

/-- What the attacker can do: every operation of the key exchange, XOR, and
signing with a key pair it has. Challenges and signing keys are public. -/
inductive Rule {cr : Crypto} {S : Type} [XorOp S] {ex : Exchange S} :
    List (Datum cr ex) → Datum cr ex → Prop
  | challinge (c : Hash) : Rule [] (.challinge c)
  | signPk (pk : cr.PublicKey) : Rule [] (.signPk pk)
  | sign (kp : cr.Keypair) (c : Hash) (rng : cr.Rng) :
      Rule [.keypair kp] (.signature (cr.sign kp c.toBytes rng))
  | kyberGenerate (seed : ex.KyberSeed) :
      Rule [.kyberSeed seed] (.kyberSecret (ex.kyberGenerate seed).2)
  | kyberPublic (sk : ex.KyberSecret) : Rule [.kyberSecret sk] (.kyberPublic (ex.kyberPublic sk))
  | xPublic (a : ex.StaticSecret) : Rule [.staticSecret a] (.xPublic (ex.xPublic a))
  | encapsulate (pk : ex.KyberPublic) (rng : ex.Rng) :
      Rule [.kyberPublic pk, .rng rng] (.kyberCiphertext (ex.kyberEncapsulate pk rng).1)
  | encapsulated (pk : ex.KyberPublic) (rng : ex.Rng) :
      Rule [.kyberPublic pk, .rng rng] (.secret (ex.kyberEncapsulate pk rng).2)
  | decapsulate (cp : ex.KyberCiphertext) (sk : ex.KyberSecret) (s : S) :
      ex.kyberDecapsulate cp sk = some s →
        Rule [.kyberCiphertext cp, .kyberSecret sk] (.secret s)
  | diffieHellman (a : ex.StaticSecret) (b : ex.XPublic) :
      Rule [.staticSecret a, .xPublic b] (.secret (ex.diffieHellman a b))
  | xor (a b : S) : Rule [.secret a, .secret b] (.secret (a ^^^ b))

/-- The name was drawn by an honest connection. -/
def Name.Honest : Name → Prop
  | .session _ => True
  | .attacker _ => False

/-- The atom needs a secret of an honest connection, whoever sees the
messages. -/
def Atom.Protected : Atom → Prop
  | .kem receiver rng => receiver.Honest ∧ rng.Honest
  | .reject sk _ _ => sk.Honest
  | .dh ends => ∀ n ∈ ends, n.Honest

/-- What may be in the hands of the attacker. -/
def Safe {cr : Crypto} : Datum cr Exchange.symbolic → Prop
  | .secret s => ∀ a ∈ (s : Finset Atom), ¬ a.Protected
  | .staticSecret n | .kyberSeed n | .kyberSecret n | .rng n => ¬ Name.Honest n
  | _ => True

/-- **Every operation of the attacker stays within what is safe.** -/
theorem safe_closed {cr : Crypto} (premises : List (Datum cr Exchange.symbolic))
    (m : Datum cr Exchange.symbolic) (hrule : Rule premises m) (h : ∀ p ∈ premises, Safe p) :
    Safe m := by
  cases hrule with
  | challinge _ => trivial
  | signPk _ => trivial
  | sign _ _ _ => trivial
  | kyberGenerate seed => exact h (.kyberSeed seed) (by simp)
  | kyberPublic _ => trivial
  | xPublic _ => trivial
  | encapsulate _ _ => trivial
  | encapsulated pk rng =>
      have hrng : ¬ Name.Honest rng := h (.rng rng) (by simp)
      intro a ha hprot
      obtain rfl := Finset.mem_singleton.mp ha
      exact hrng hprot.2
  | decapsulate cp sk s hdec =>
      have hsk : ¬ Name.Honest sk := h (.kyberSecret sk) (by simp)
      obtain rfl := Option.some.inj hdec
      intro a ha hprot
      obtain rfl := Finset.mem_singleton.mp ha
      unfold Atom.answer at hprot
      split at hprot
      · exact hsk hprot.1
      · exact hsk hprot
  | diffieHellman x y =>
      have hx : ¬ Name.Honest x := h (.staticSecret x) (by simp)
      intro a ha hprot
      obtain rfl := Finset.mem_singleton.mp ha
      exact hx (hprot x (Sym2.mem_mk_left _ _))
  | xor s t =>
      intro a ha
      rcases Finset.mem_symmDiff.mp ha with ⟨hs, -⟩ | ⟨ht, -⟩
      · exact h (.secret s) (by simp) a hs
      · exact h (.secret t) (by simp) a ht

end OnionNetwork.Opfusk
