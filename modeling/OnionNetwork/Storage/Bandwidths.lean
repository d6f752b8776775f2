import OnionNetwork.Crypto.Proof
import OnionNetwork.Lib.HashMap
import OnionNetwork.Lib.Machine

/-!
# Bandwidth

A node gives away traffic against an allocation that a satellite signed, in return for receipts
that the user signs: each receipt has the total so far, and what it is above the last one is the
allowance. `Fair` is what the node relies on: with what was granted for each allocation so far,
no more than it was signed for, nothing once that is reached, and the next allocation exactly
then.

The receipt that reaches the amount is put aside, and the entry stays at the one before. So
nothing of that holds once a receipt reaches the amount, or goes beyond it (`fair_of_behind`,
`not_fair_step`).
-/

namespace OnionNetwork.Storage

open Lib

variable {cr : Crypto}

/-- `BandwidthContext`. -/
structure BandwidthContext where
  dest : Hash
  issuer : Hash
  amount : Nat

/-- `CompactBandwidthUse`. -/
structure CompactBandwidthUse (cr : Crypto) where
  signature : cr.Signature
  amount : Nat

/-- `BandwidthUse`. -/
structure BandwidthUse (cr : Crypto) where
  proof : Proof cr BandwidthContext
  amount : Nat

/-- `BandwidthUse::is_exhaused`. -/
def BandwidthUse.isExhaused (buse : BandwidthUse cr) : Bool :=
  buse.amount = buse.proof.context.amount

instance : Encode BandwidthContext :=
  ⟨fun c => c.dest.toBytes ++ c.issuer.toBytes ++ base128Encode c.amount⟩

/-- `Proof`, field by field. -/
instance {T : Type} [Encode cr.Signature] [Encode T] : Encode (Proof cr T) :=
  ⟨fun p => cr.publicKeyBytes p.pk ++ base128Encode p.nonce ++ Encode.encode p.signature ++
    Encode.encode p.context⟩

instance [Encode cr.Signature] : Encode (BandwidthUse cr) :=
  ⟨fun buse => Encode.encode buse.proof ++ base128Encode buse.amount⟩

/-- `ClientError`, what of it is answered here. -/
inductive ClientError
  | alreadyRegistered
  | invalidProof
  | invalidNonce (expected : Nonce)
  deriving DecidableEq, Repr

/-- `Bandwidths`. -/
structure Bandwidths (cr : Crypto) where
  bandwidths : HashMap Hash (Proof cr (BandwidthUse cr))
  finishedBandwidths : List (Proof cr (BandwidthUse cr))

namespace Bandwidths

/-- `Bandwidths::new`. -/
def new : Bandwidths cr := ⟨⟨[], List.nodup_nil⟩, []⟩

variable (b : Bandwidths cr)

/-- `Bandwidths::register`. -/
def register (issuer : cr.PublicKey) (allocation : Proof cr BandwidthContext) :
    Bandwidths cr × Except ClientError Unit :=
  if allocation.context.amount = 0 then (b, .error .invalidProof)
  else if allocation.context.issuer ≠ allocation.context.dest then (b, .error .invalidProof)
  else if allocation.verify = false then (b, .error .invalidProof)
  else
    let poof : Proof cr (BandwidthUse cr) :=
      { pk := issuer
        nonce := 0
        signature := allocation.signature
        context := { proof := allocation, amount := 0 } }
    let inserted := { b with bandwidths := b.bandwidths.insert allocation.context.issuer poof }
    match b.bandwidths.get allocation.context.issuer with
    | some o =>
        if o.context.isExhaused then
          let expectedNonce := o.context.proof.nonce + 1
          if expectedNonce = allocation.nonce then (inserted, .ok ())
          else (b, .error (.invalidNonce expectedNonce))
        else (b, .error .alreadyRegistered)
    | none => (inserted, .ok ())

variable [Encode cr.Signature]

omit [Encode cr.Signature] in
/-- `new_bandwidth`. -/
def newBandwidth (bandwidth : Proof cr (BandwidthUse cr)) (buse : CompactBandwidthUse cr) :
    Proof cr (BandwidthUse cr) :=
  { bandwidth with
    signature := buse.signature
    context := { bandwidth.context with amount := buse.amount } }

/-- `Bandwidths::update_allocation`. -/
def updateAllocation (issuer : Hash) (buse : CompactBandwidthUse cr) :
    Bandwidths cr × Option Nat :=
  match b.bandwidths.get issuer with
  | none => (b, none)
  | some bandwidth =>
      if buse.amount ≤ bandwidth.context.amount then (b, none)
      else
        let allowance := buse.amount - bandwidth.context.amount
        let new := newBandwidth bandwidth buse
        if new.verify = false then (b, none)
        else if new.context.isExhaused then
          ({ b with finishedBandwidths := b.finishedBandwidths ++ [new] }, some allowance)
        else ({ b with bandwidths := b.bandwidths.insert issuer new }, some allowance)

end Bandwidths

/-- The calls. -/
inductive BandwidthCall (cr : Crypto)
  | register (issuer : cr.PublicKey) (allocation : Proof cr BandwidthContext)
  | updateAllocation (issuer : Hash) (buse : CompactBandwidthUse cr)

/-- What they return. -/
inductive BandwidthAnswer
  | registered (result : Except ClientError Unit)
  | allowance (result : Option Nat)

variable [Encode cr.Signature]

/-- Bandwidths, under every order of calls. -/
def bandwidthMachine (cr : Crypto) [Encode cr.Signature] :
    Machine (Bandwidths cr) (BandwidthCall cr) BandwidthAnswer where
  step b
    | .register issuer allocation =>
        let (b, result) := b.register issuer allocation
        (b, .registered result)
    | .updateAllocation issuer buse =>
        let (b, result) := b.updateAllocation issuer buse
        (b, .allowance result)

/-! ## What is granted -/

/-- What was granted for the allocation of each user so far. -/
abbrev Granted := Hash → Nat

/-- A call is added up. -/
def Granted.add (granted : Granted) (b : Bandwidths cr) : BandwidthCall cr → Granted
  | .register issuer allocation =>
      match (b.register issuer allocation).2 with
      | .ok () => Function.update granted allocation.context.issuer 0
      | .error _ => granted
  | .updateAllocation issuer buse =>
      match (b.updateAllocation issuer buse).2 with
      | some allowance => Function.update granted issuer (granted issuer + allowance)
      | none => granted

/-- Bandwidths, and what they have granted. -/
def grantingMachine (cr : Crypto) [Encode cr.Signature] :
    Machine (Bandwidths cr × Granted) (BandwidthCall cr) BandwidthAnswer :=
  (bandwidthMachine cr).withGhost Granted.add

namespace Bandwidths

/-- The allocation may be registered, if the one before it is exhausted. -/
def Acceptable (allocation : Proof cr BandwidthContext) : Prop :=
  allocation.context.amount ≠ 0 ∧ allocation.context.issuer = allocation.context.dest ∧
    allocation.verify = true

/-- Bandwidth is granted at most once. -/
structure Fair (s : Bandwidths cr × Granted) : Prop where
  /-- No more than the allocation is signed for. -/
  within : ∀ {issuer entry}, s.1.bandwidths.get issuer = some entry →
    s.2 issuer ≤ entry.context.proof.context.amount
  /-- Nothing once all of it was granted. -/
  exhausted : ∀ {issuer entry}, s.1.bandwidths.get issuer = some entry →
    s.2 issuer = entry.context.proof.context.amount →
      ∀ buse, (s.1.updateAllocation issuer buse).2 = none
  /-- The next one exactly then. -/
  renewed : ∀ {entry} (pk : cr.PublicKey) (allocation : Proof cr BandwidthContext),
    Acceptable allocation → s.1.bandwidths.get allocation.context.issuer = some entry →
      allocation.nonce = entry.context.proof.nonce + 1 →
      ((s.1.register pk allocation).2 = .ok () ↔
        s.2 allocation.context.issuer = entry.context.proof.context.amount)

/-- Every entry is behind its amount, and has what was granted. -/
def Behind (s : Bandwidths cr × Granted) : Prop :=
  ∀ issuer entry, s.1.bandwidths.get issuer = some entry →
    s.2 issuer = entry.context.amount ∧ entry.context.amount < entry.context.proof.context.amount

/-- A receipt that is signed for the entry of a user, above the last one. -/
def Signed (b : Bandwidths cr) (issuer : Hash) (buse : CompactBandwidthUse cr)
    (entry : Proof cr (BandwidthUse cr)) : Prop :=
  b.bandwidths.get issuer = some entry ∧ entry.context.amount < buse.amount ∧
    (newBandwidth entry buse).verify = true

/-- Not a signed receipt that reaches the amount of the allocation. -/
def Careful (s : Bandwidths cr × Granted) : BandwidthCall cr → Prop
  | .updateAllocation issuer buse => ∀ entry, s.1.Signed issuer buse entry →
      buse.amount < entry.context.proof.context.amount
  | .register .. => True

variable {b : Bandwidths cr} {granted : Granted} {issuer : Hash} {buse : CompactBandwidthUse cr}
  {entry : Proof cr (BandwidthUse cr)}

omit [Encode cr.Signature] in
theorem not_isExhaused_of_lt {u : BandwidthUse cr} (h : u.amount < u.proof.context.amount) :
    u.isExhaused = false := by
  simp only [BandwidthUse.isExhaused, decide_eq_false_iff_not]
  omega

/-- A signed receipt is put aside if it is for the whole amount; otherwise it is the new entry. -/
theorem Signed.update (h : b.Signed issuer buse entry) :
    b.updateAllocation issuer buse =
      (if buse.amount = entry.context.proof.context.amount then
          { b with finishedBandwidths := b.finishedBandwidths ++ [newBandwidth entry buse] }
        else { b with bandwidths := b.bandwidths.insert issuer (newBandwidth entry buse) },
        some (buse.amount - entry.context.amount)) := by
  obtain ⟨hentry, habove, hverify⟩ := h
  have hexhaused : (newBandwidth entry buse).context.isExhaused =
      decide (buse.amount = entry.context.proof.context.amount) := rfl
  simp only [updateAllocation, hentry, if_neg (Nat.not_le.mpr habove), hverify, hexhaused]
  by_cases hall : buse.amount = entry.context.proof.context.amount
  · simp [hall]
  · simp [hall]

theorem updateAllocation_of_not_signed (h : ∀ entry, ¬ b.Signed issuer buse entry) :
    b.updateAllocation issuer buse = (b, none) := by
  unfold updateAllocation
  split
  · rfl
  · next entry hentry =>
      split
      · rfl
      · next habove =>
          dsimp only
          split
          · rfl
          · next hverify =>
              exact absurd ⟨hentry, Nat.not_le.mp habove, by simpa using hverify⟩ (h entry)

/-- The entry of a new allocation. -/
def fresh (pk : cr.PublicKey) (allocation : Proof cr BandwidthContext) :
    Proof cr (BandwidthUse cr) :=
  { pk := pk, nonce := 0, signature := allocation.signature, context := ⟨allocation, 0⟩ }

omit [Encode cr.Signature] in
/-- A registration is refused, or it makes an entry where there is none that is not exhausted. -/
theorem register_cases (b : Bandwidths cr) (pk : cr.PublicKey)
    (allocation : Proof cr BandwidthContext) :
    (∃ e, b.register pk allocation = (b, .error e)) ∨
      (Acceptable allocation ∧
        (∀ entry, b.bandwidths.get allocation.context.issuer = some entry →
          entry.context.isExhaused = true) ∧
        b.register pk allocation =
          ({ b with
              bandwidths := b.bandwidths.insert allocation.context.issuer (fresh pk allocation) },
            .ok ())) := by
  unfold register
  by_cases hamount : allocation.context.amount = 0
  · exact .inl ⟨_, if_pos hamount⟩
  · rw [if_neg hamount]
    by_cases hdest : allocation.context.issuer = allocation.context.dest
    · rw [if_neg (not_not.mpr hdest)]
      cases hverify : allocation.verify with
      | false => exact .inl ⟨_, rfl⟩
      | true =>
          rw [if_neg nofun]
          cases hentry : b.bandwidths.get allocation.context.issuer with
          | none => exact .inr ⟨⟨hamount, hdest, hverify⟩, nofun, rfl⟩
          | some entry =>
              cases hexhaused : entry.context.isExhaused with
              | false => exact .inl ⟨.alreadyRegistered, by simp [hexhaused]⟩
              | true =>
                  by_cases hnonce : entry.context.proof.nonce + 1 = allocation.nonce
                  · refine .inr ⟨⟨hamount, hdest, hverify⟩, ?_, ?_⟩
                    · rintro _ heq
                      obtain rfl := Option.some.inj heq
                      exact hexhaused
                    · simp [hexhaused, hnonce, fresh]
                  · exact .inl ⟨.invalidNonce (entry.context.proof.nonce + 1),
                      by simp [hexhaused, hnonce]⟩
    · rw [if_pos hdest]
      exact .inl ⟨_, rfl⟩

/-- What the node relies on holds as long as all entries are behind. -/
theorem fair_of_behind {s : Bandwidths cr × Granted} (h : Behind s) : Fair s where
  within hentry := by
    obtain ⟨hgranted, hlt⟩ := h _ _ hentry
    omega
  exhausted hentry hall := by
    obtain ⟨hgranted, hlt⟩ := h _ _ hentry
    omega
  renewed pk allocation _ hentry _ := by
    obtain ⟨hgranted, hlt⟩ := h _ _ hentry
    refine iff_of_false ?_ (by omega)
    rcases register_cases s.1 pk allocation with ⟨e, heq⟩ | ⟨-, hexhaused, -⟩
    · rw [heq]
      exact nofun
    · have hopen := not_isExhaused_of_lt hlt
      rw [hexhaused _ hentry] at hopen
      cases hopen

omit [Encode cr.Signature] in
theorem behind_new : Behind ((new, fun _ => 0) : Bandwidths cr × Granted) := nofun

omit [Encode cr.Signature] in
/-- An entry is written, with what was granted for it. -/
theorem Behind.insert (h : Behind (b, granted)) {n : Nat} (hgranted : n = entry.context.amount)
    (hlt : entry.context.amount < entry.context.proof.context.amount) :
    Behind ({ b with bandwidths := b.bandwidths.insert issuer entry },
      Function.update granted issuer n) := by
  intro other old hold
  have hfound := b.bandwidths.get_insert issuer other entry
  rw [show (b.bandwidths.insert issuer entry).get other = some old from hold] at hfound
  show Function.update granted issuer n other = _ ∧ _
  by_cases hsame : other = issuer
  · rw [if_pos hsame] at hfound
    obtain rfl := Option.some.inj hfound
    rw [hsame, Function.update_self]
    exact ⟨hgranted, hlt⟩
  · rw [if_neg hsame] at hfound
    rw [Function.update_of_ne hsame]
    exact h other old hfound.symm

/-- A registration starts with nothing granted. -/
theorem Behind.register (h : Behind (b, granted)) (pk : cr.PublicKey)
    (allocation : Proof cr BandwidthContext) :
    Behind ((b.register pk allocation).1, granted.add b (.register pk allocation)) := by
  rcases register_cases b pk allocation with ⟨e, heq⟩ | ⟨⟨hamount, -, -⟩, -, heq⟩
  · simp only [Granted.add, heq]
    exact h
  · simp only [Granted.add, heq]
    have hpos : (fresh pk allocation).context.amount <
        (fresh pk allocation).context.proof.context.amount := Nat.pos_of_ne_zero hamount
    exact h.insert rfl hpos

/-- **Behind, step by step**, as long as no receipt reaches the amount. -/
theorem Behind.step {s : Bandwidths cr × Granted} (h : Behind s) {call : BandwidthCall cr}
    (hcareful : Careful s call) : Behind ((grantingMachine cr).step s call).1 := by
  obtain ⟨b, granted⟩ := s
  cases call with
  | register pk allocation => exact h.register pk allocation
  | updateAllocation issuer buse =>
      show Behind
        ((b.updateAllocation issuer buse).1, granted.add b (.updateAllocation issuer buse))
      by_cases hsigned : ∃ entry, b.Signed issuer buse entry
      · obtain ⟨entry, hsigned⟩ := hsigned
        have hlt := hcareful entry hsigned
        have hgranted := (h _ _ hsigned.1).1
        have habove := hsigned.2.1
        simp only [Granted.add, hsigned.update, if_neg (Nat.ne_of_lt hlt)]
        refine h.insert ?_ hlt
        show granted issuer + (buse.amount - entry.context.amount) = buse.amount
        dsimp only at hgranted
        omega
      · have hnone := updateAllocation_of_not_signed (not_exists.mp hsigned)
        simp only [Granted.add, hnone]
        exact h

/-- A receipt that reaches the amount can be shown again; one beyond it was granted too much. -/
theorem not_fair_step {s : Bandwidths cr × Granted} (h : Behind s) {call : BandwidthCall cr}
    (hcareful : ¬ Careful s call) : ¬ Fair ((grantingMachine cr).step s call).1 := by
  obtain ⟨b, granted⟩ := s
  cases call with
  | register pk allocation => exact absurd trivial hcareful
  | updateAllocation issuer buse =>
      simp only [Careful, not_forall, Nat.not_lt] at hcareful
      obtain ⟨entry, hsigned, hreaches⟩ := hcareful
      obtain ⟨hgranted, hlt⟩ := h _ _ hsigned.1
      have habove := hsigned.2.1
      dsimp only at hgranted
      have hsum : granted.add b (.updateAllocation issuer buse) issuer = buse.amount := by
        simp only [Granted.add, hsigned.update, Function.update_self]
        omega
      intro hfair
      by_cases hexact : buse.amount = entry.context.proof.context.amount
      · -- the entry is what it was, and so is what the receipt is above it
        have hstays : (b.updateAllocation issuer buse).1.bandwidths = b.bandwidths := by
          rw [hsigned.update, if_pos hexact]
        have hagain : Signed (b.updateAllocation issuer buse).1 issuer buse entry :=
          ⟨by rw [hstays, hsigned.1], habove, hsigned.2.2⟩
        have hnone := hfair.exhausted hagain.1 (hsum.trans hexact) buse
        exact absurd (hnone.symm.trans (congrArg Prod.snd hagain.update)) nofun
      · have hinserted : (b.updateAllocation issuer buse).1.bandwidths.get issuer =
            some (newBandwidth entry buse) := by
          rw [hsigned.update, if_neg hexact]
          simp
        have hwithin : granted.add b (.updateAllocation issuer buse) issuer ≤
            (newBandwidth entry buse).context.proof.context.amount := hfair.within hinserted
        have hsame : (newBandwidth entry buse).context.proof = entry.context.proof := rfl
        rw [hsame] at hwithin
        omega

end Bandwidths

end OnionNetwork.Storage
