import OnionNetwork.Fec.Standard
import OnionNetwork.Fec.Code

/-!
# Decoding with errors

`Poly` and `invert_matrix_with`, which solve for the polynomials of Berlekamp and Welch.
A polynomial is an array of 256 coefficients, the lowest first, of which the first `len`
are in use. The outer `Option` is a panic, the inner one the `Option` of the source.

`Fec::decode`: the syndromes of the shares, the correction of each byte that one of them
points at, and the rebuild. A share that was corrected is marked by its number, which
becomes `usize::MAX - number`.
-/

/-! ## The arithmetic of the correction -/

namespace OnionNetwork.Fec

structure Poly where
  data : Nat → Gf
  len : Nat

namespace Poly

/-- `Poly::from_iter`. -/
def fromIter (l : List Gf) : Option Poly :=
  if l.length ≤ 256 then some ⟨fun i => l.getD i 0, l.length⟩ else none

def zero (size : Nat) : Poly := ⟨fun _ => 0, size⟩

def asSlice (p : Poly) : List Gf := (List.range p.len).map p.data

def isZero (p : Poly) : Bool := p.asSlice.all (· = 0)

def deg (p : Poly) : Option Nat := if p.len = 0 then none else some (p.len - 1)

/-- The order of `Option<usize>`. -/
def degLe : Option Nat → Option Nat → Bool
  | none, _ => true
  | some _, none => false
  | some a, some b => a ≤ b

def scale (p : Poly) (factor : Gf) : Poly :=
  { p with data := fun i => if i < p.len then Galois.mul factor (p.data i) else p.data i }

def add (p b : Poly) : Poly :=
  { p with data := fun i =>
      if i < p.len ∧ i < b.len then Galois.add (p.data i) (b.data i) else p.data i }

def sanitize (p : Poly) : Poly :=
  let trailingZeros := (p.asSlice.reverse.takeWhile (· = 0)).length
  { p with len := max (p.len - trailingZeros) 1 }

def push (p : Poly) (x : Gf) : Option Poly :=
  if p.len < 256 then some ⟨Function.update p.data p.len x, p.len + 1⟩ else none

/-- `Poly::pop` reads the element behind the last one, and panics where the array ends. -/
def pop (p : Poly) : Option (Option Gf × Poly) :=
  if p.len = 0 then some (none, p)
  else if p.len < 256 then some (some (p.data p.len), { p with len := p.len - 1 })
  else none

/-- `as_mut_slice().reverse()`. -/
def reverse (p : Poly) : Poly :=
  { p with data := fun i => if i < p.len then p.data (p.len - 1 - i) else p.data i }

/-- A round of the loop of `div`, on `q` and `p`. -/
def divRound (debugAssertions : Bool) (b q p : Poly) : Option (Option (Poly × Poly)) :=
  let leadingP := p.asSlice.getLast?.getD 0
  match b.asSlice.getLast? with
  | none => none
  | some leadingB =>
      match Galois.div leadingP leadingB with
      | none => some none
      | some coef =>
          match q.push coef with
          | none => some none
          | some q =>
              let scaled := b.scale coef
              match p.deg, scaled.deg with
              | some degP, some degScaled => do
                  let padded ← fromIter (List.replicate (degP - degScaled) 0 ++ scaled.asSlice)
                  let (pop, p) ← (p.add padded).pop
                  if debugAssertions && pop ≠ some 0 then none else some (some (q, p))
              | _, _ => some none

/-- The loop of `div`: a round takes one off the length of `p`, which the recursion is on. -/
def divLoop (debugAssertions : Bool) (b : Poly) : Nat → Poly → Poly →
    Option (Option (Poly × Poly))
  | 0, q, p => some (some (q, p))
  | len + 1, q, p =>
      if degLe b.deg p.deg then
        match divRound debugAssertions b q p with
        | none => none
        | some none => some none
        | some (some (q, p)) => divLoop debugAssertions b len q p
      else some (some (q, p))

/-- `Poly::div`: the quotient and the remainder. -/
def div (debugAssertions : Bool) (p b : Poly) : Option (Option (Poly × Poly)) :=
  let p := p.sanitize
  let b := b.sanitize
  if b.asSlice = [] then some none
  else if p.asSlice = [] then some (some (zero 1, zero 1))
  else
    match divLoop debugAssertions b p.len (zero 1) p with
    | none => none
    | some none => some none
    | some (some (q, p)) => some (some (q.reverse.sanitize, p.sanitize))

def eval (p : Poly) (x : Gf) : Gf :=
  (p.asSlice.zipIdx.map fun coef => Galois.mul coef.1 (Galois.exp x coef.2)).foldl Galois.add 0

end Poly

/-! ## The inversion beside another matrix -/

/-- `clearRows`, with the same factors for a second matrix. -/
def clearBoth (i : Nat) (rows : List Nat) (s : Mat × Mat) : Mat × Mat :=
  rows.foldl (fun s j =>
    let fac := s.1 j i
    (matrixAddMulRows s.1 i j fac, matrixAddMulRows s.2 i j fac)) s

/-- One round downwards of `invert_matrix_with`. -/
def invertWithRound (debugAssertions : Bool) (k : Nat) (s : Mat × Mat) (i : Nat) :
    Option (Mat × Mat) :=
  match findPivot s.1 i k with
  | none => some s
  | some (pRow, pVal) => do
      let s := if pRow ≠ i then (matrixSwapRows s.1 i pRow, matrixSwapRows s.2 i pRow) else s
      let inv ← Galois.div 1 pVal
      let s := (mulRow s.1 i inv, mulRow s.2 i inv)
      if debugAssertions && s.1 i i ≠ 1 then none
      else some (clearBoth i (List.range' (i + 1) (k - (i + 1))) s)

/-- `invert_matrix_with`: what becomes of `out`. -/
def invertMatrixWith (debugAssertions : Bool) (k : Nat) (mx out : Mat) : Option Mat := do
  let s ← (List.range k).foldlM (invertWithRound debugAssertions k) (mx, out)
  let s := (List.range k).reverse.foldl (fun s i => clearBoth i (List.range i).reverse s) s
  if debugAssertions && !(List.range k).all fun i => s.1 i i = 1 then none else some s.2

end OnionNetwork.Fec

/-! ## The decoder -/

namespace OnionNetwork.Fec

-- the code is named as the crate's module is
set_option linter.dupNamespace false

open Lib

inductive ResourcesError
  | duplicateShares
  | notEnoughShares
  | notEqualLengths
deriving DecidableEq

inductive BerklekampWelchError
  | notEnoughShares
  | invertMatrix
  | divPoly
  | cannotRecover
deriving DecidableEq

inductive SyndromeMatrixError
  | failedToStandardize
deriving DecidableEq

inductive CorrectError
  | invalidShares (numbers : List Nat)
  | syndromeMatrix (error : SyndromeMatrixError)
  | berklekampWelch (error : BerklekampWelchError)
deriving DecidableEq

inductive DecodeError
  | initResources (error : ResourcesError)
  | correct (error : CorrectError)
  | rebuild (error : RebuildError)
deriving DecidableEq

/-- A call that can panic, or return an error. -/
abbrev Call (ε α : Type) := ExceptT ε Option α

/-- What panics. -/
def orPanic {ε α : Type} (x : Option α) : Call ε α := ExceptT.lift x

/-- `map_err`. -/
def mapErr {ε ε' α : Type} (g : ε → ε') (x : Call ε α) : Call ε' α := ExceptT.adapt g x

/-- `Resources`, of which only the numbers are more than zeroed memory. -/
structure Resources where
  e : Nat
  q : Nat

/-- `Resources::new`, with the sorted shares. -/
def Resources.new (required : Nat) (shares : List Share) :
    Except ResourcesError (Resources × List Share) :=
  let shares := sortByKey Share.number shares
  if (shares.zip shares.tail).any fun pair => pair.1.number = pair.2.number then
    .error .duplicateShares
  else if shares.length < required then .error .notEnoughShares
  else
    let shareLen := (shares.head?.map (·.data.length)).getD 0
    if shares.any fun s => s.data.length ≠ shareLen then .error .notEqualLengths
    else
      let e := (shares.length - required) / 2
      if e = 0 then .error .notEnoughShares else .ok (⟨e, e + required⟩, shares)

/-! ## Syndromes -/

/-- The loop over the columns for one row: the columns of missing shares are skipped. -/
def syndromeRow (keepers : Nat → Bool) (total : Nat) (row : Nat → Gf) : Nat → Gf :=
  ((List.range total).foldl (fun (s : (Nat → Gf) × Nat) col =>
    if keepers col then (Function.update s.1 (col - s.2) (row col), s.2) else (s.1, s.2 + 1))
    (fun _ => 0, 0)).1

/-- The set of the shares there are. -/
def presenceSet (shares : List Share) : Nat → Bool :=
  shares.foldl (fun keepers s => Function.update keepers s.number true) fun _ => false

/-- `Fec::syndrome_matrix`. The index into the set is a panic beyond it. -/
def Fec.syndromeMatrix (f : Fec) (shares : List Share) : Option Mat :=
  if shares.any fun s => f.total ≤ s.number then none
  else
    let keepers := presenceSet shares
    let out : Mat := fun row =>
      syndromeRow keepers f.total (vandMatrix f.required f.total row)
    (standardizeMatrix f.required out).map (parityMatrix f.required)

/-! ## One byte -/

/-- `eval_point`. -/
def evalPoint (num : Nat) : Gf := if num = 0 then 0 else Galois.exp two (num - 1)

/-- The point of a share and its byte. -/
def pointAndByte (shares : List Share) (j i : Nat) : Gf × Gf :=
  match shares[i]? with
  | none => (0, 0)
  | some share => (evalPoint share.number, share.data.getD j 0)

/-- `Fec::berklekamp_welch`: the values of the polynomial at all points. -/
def Fec.berklekampWelch (f : Fec) (debugAssertions : Bool) (res : Resources)
    (shares : List Share) (j : Nat) : Call BerklekampWelchError (Nat → Gf) := do
  let dim := res.q + res.e
  let value : Nat → Gf := fun i =>
    let (x, r) := pointAndByte shares j i
    Galois.mul (Galois.exp x res.e) r
  let s : Mat := fun i col =>
    let (x, r) := pointAndByte shares j i
    if col < res.q then Galois.exp x col else Galois.mul (Galois.exp x (col - res.q)) r
  let a ← orPanic (invertMatrixWith debugAssertions dim s fun i col => if i = col then 1 else 0)
  let u : List Gf := (List.range dim).map fun i =>
    ((List.range dim).map fun col => Galois.mul (a i col) (value col)).foldl Galois.add 0
  let qPoly ← orPanic (Poly.fromIter (u.take res.q))
  let ePoly ← orPanic (Poly.fromIter (u.drop res.q ++ [1]))
  match ← orPanic (qPoly.div debugAssertions ePoly) with
  | none => throw .divPoly
  | some (pPoly, rem) =>
      if rem.isZero then pure fun i => pPoly.eval (evalPoint i) else throw .cannotRecover

/-! ## The shares -/

/-- A share is marked, and takes its byte from the correction. -/
def Fec.correctShare (f : Fec) (correction : Nat → Gf) (j : Nat) (share : Share) : Option Share :=
  let number := if share.number < f.total then usizeMax - share.number else share.number
  if usizeMax - number < f.total then
    some ⟨number, share.data.set j (correction (usizeMax - number))⟩
  else none

/-- The body of the loop over the bytes of a syndrome that are not 0. -/
def Fec.correctByte (f : Fec) (debugAssertions : Bool) (res : Resources) (shares : List Share)
    (j : Nat) : Call CorrectError (List Share) := do
  let correction ← mapErr .berklekampWelch (f.berklekampWelch debugAssertions res shares j)
  orPanic (shares.mapM (f.correctShare correction j))

/-- The syndrome of a row of the matrix. -/
def syndrome (synd : Mat) (shareLen : Nat) (shares : List Share) (i : Nat) : List Gf :=
  mulSlicesXor (synd i) (shares.map Share.data) (List.replicate shareLen 0)

/-- The body of the loop over the syndromes. -/
def Fec.correctRow (f : Fec) (debugAssertions : Bool) (res : Resources) (synd : Mat)
    (shareLen : Nat) (shares : List Share) (i : Nat) : Call CorrectError (List Share) :=
  let buf := syndrome synd shareLen shares i
  ((List.range shareLen).filter fun j => byte buf j ≠ 0).foldlM
    (f.correctByte debugAssertions res) shares

/-- The end of `correct`: the marked shares get their numbers back, and are reported. -/
def Fec.report (f : Fec) (reportInvalid : Bool) (shares : List Share) :
    Call CorrectError (List Share) :=
  let shares := sortByKey Share.number shares
  let valid := shares.takeWhile (·.number < f.total)
  let invalid := (shares.drop valid.length).map fun s => { s with number := usizeMax - s.number }
  if reportInvalid && valid.length ≠ shares.length then
    throw (.invalidShares (invalid.map Share.number))
  else pure (valid ++ invalid)

/-- `Fec::correct`. -/
def Fec.correct (f : Fec) (debugAssertions reportInvalid : Bool) (res : Resources)
    (shares : List Share) : Call CorrectError (List Share) := do
  let synd ← orPanic (f.syndromeMatrix shares)
  let shareLen := (shares.head?.map (·.data.length)).getD 0
  let shares ← (List.range (shares.length - f.required)).foldlM
    (f.correctRow debugAssertions res synd shareLen) shares
  f.report reportInvalid shares

/-- `Fec::decode`. -/
def Fec.decode (f : Fec) (debugAssertions reportInvalid : Bool) (shares : List Share) :
    Call DecodeError (List Share) := do
  let (res, shares) ← mapErr .initResources (ExceptT.mk (some (Resources.new f.required shares)))
  let shares ← mapErr .correct (f.correct debugAssertions reportInvalid res shares)
  mapErr .rebuild (ExceptT.mk (f.rebuild shares))

end OnionNetwork.Fec
