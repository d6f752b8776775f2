import OnionNetwork.Server.Profile
import OnionNetwork.Lib.Machine

/-!
# Who may change a vault

`vault_authorised_iff`: an insertion into a vault is answered with `Ok` whoever
signed it, as long as the sizes, the root and the nonce are right. The owner's
vault is safe from a stranger's request exactly when that request fails one of
those checks.
-/

namespace OnionNetwork.Server

open Chat Lib

variable {cr : Crypto}

/-- A request to `insert_to_vault`: the topic, the changes and the proof. -/
structure VaultRequest (cr : Crypto) where
  id : Identity
  changes : List (Hash × Bytes)
  proof : Proof cr Hash

/-- The proof is a valid one of the identity whose vault is addressed. -/
def VaultRequest.SignedByOwner (r : VaultRequest cr) : Prop :=
  r.proof.verify = true ∧ r.proof.identity = r.id

/-- The checks the handler makes, none of which is about the signature. -/
def Storage.PassesChecks (s : Storage) (r : VaultRequest cr) : Prop :=
  ∃ pf, Storage.MeetsVaultChecks s r.id r.changes r.proof pf

/-- `api::profile::insert_to_vault`. -/
def Storage.serveVault (s : Storage) (r : VaultRequest cr) : Storage × Except ChatError Unit :=
  match s.insertToVault r.id r.changes r.proof with
  | .ok s' => (s', .ok ())
  | .error e => (s, .error e)

/-- A server under insertions into its vaults. -/
def vaultMachine (cr : Crypto) : Machine Storage (VaultRequest cr) (Except ChatError Unit) :=
  ⟨Storage.serveVault⟩

/-- An insertion that passes the checks is done. -/
theorem serveVault_of_checks {s : Storage} {r : VaultRequest cr} {pf : Profile.Handle}
    (h : Storage.MeetsVaultChecks s r.id r.changes r.proof pf) :
    s.serveVault r =
      (s.setProfile r.id (Storage.inserted pf r.changes r.proof.nonce), .ok ()) := by
  simp only [Storage.serveVault, Storage.insertToVault_eq_ok.mpr ⟨pf, h, rfl⟩]

/-- Any other insertion is refused and changes nothing. -/
theorem serveVault_of_not_checks {s : Storage} {r : VaultRequest cr} (h : ¬ s.PassesChecks r) :
    (s.serveVault r).1 = s ∧ (s.serveVault r).2 ≠ .ok () := by
  unfold Storage.serveVault
  cases hins : s.insertToVault r.id r.changes r.proof with
  | ok s' =>
      obtain ⟨pf, hchecks, -⟩ := Storage.insertToVault_eq_ok.mp hins
      exact absurd ⟨pf, hchecks⟩ h
  | error e => exact ⟨rfl, nofun⟩

theorem serveVault_ok_iff {s : Storage} {r : VaultRequest cr} :
    (s.serveVault r).2 = .ok () ↔ s.PassesChecks r := by
  constructor
  · intro hok
    by_contra hno
    exact (serveVault_of_not_checks hno).2 hok
  · rintro ⟨pf, hchecks⟩
    rw [serveVault_of_checks hchecks]

/-- One request changes the profile of `owner` exactly when it addresses it and
passes the checks: the nonce moves. -/
theorem serveVault_profile_iff {s : Storage} {r : VaultRequest cr} {owner : Identity} :
    (s.serveVault r).1.profiles owner = s.profiles owner ↔
      (r.id = owner → ¬ s.PassesChecks r) := by
  constructor
  · rintro hsame rfl ⟨pf, hchecks⟩
    rw [serveVault_of_checks hchecks, Storage.setProfile_self, hchecks.found] at hsame
    have hnonce := congrArg (fun pf => pf.root.vaultVersion) (Option.some.inj hsame)
    exact absurd hchecks.fresh (hnonce ▸ Nat.lt_irrefl _)
  · intro hno
    by_cases hchecks : s.PassesChecks r
    · obtain ⟨pf, hpf⟩ := hchecks
      have hne : owner ≠ r.id := fun h => hno h.symm ⟨pf, hpf⟩
      rw [serveVault_of_checks hpf, Storage.setProfile_ne s hne]
    · rw [(serveVault_of_not_checks hchecks).1]

/-- **Vault authorisation.** An accepted insertion is signed by the owner of the
vault if and only if it is so signed or fails a check that is not about the
signature. In a run of insertions the owner did not sign, the owner's vault and
nonce stay as they were if and only if each insertion that addresses them fails
such a check. -/
theorem vault_authorised_iff (s : Storage) :
    (∀ r : VaultRequest cr, ((s.serveVault r).2 = .ok () → r.SignedByOwner) ↔
      (r.SignedByOwner ∨ ¬ s.PassesChecks r)) ∧
    ∀ (owner : Identity) (rs : List (VaultRequest cr)),
      (∀ r ∈ rs, r.id = owner → ¬ r.SignedByOwner) →
      ((∀ pre post, rs = pre ++ post →
          ((vaultMachine cr).run s pre).profiles owner = s.profiles owner) ↔
        (vaultMachine cr).EachStep (fun s r => r.id = owner → ¬ s.PassesChecks r) s rs) := by
  refine ⟨fun r => ?_, fun owner rs _ => ⟨fun hall => ?_, fun hno pre post hsplit => ?_⟩⟩
  · rw [serveVault_ok_iff]
    by_cases hsigned : r.SignedByOwner
    · simp [hsigned]
    · simp [hsigned]
  · refine Machine.eachStep_iff.mpr fun pre r post hsplit => ?_
    have hbefore := hall pre (r :: post) hsplit
    have hafter := hall (pre ++ [r]) post
      (by rw [hsplit, List.append_assoc, List.singleton_append])
    rw [Machine.run_append, ← hbefore] at hafter
    exact serveVault_profile_iff.mp hafter
  · rw [hsplit, Machine.eachStep_append] at hno
    refine Machine.invariant_run (P := fun t => t.profiles owner = s.profiles owner)
      (fun t r ht hr => ?_) rfl hno.1
    exact (serveVault_profile_iff.mpr hr).trans ht

/-- A server with one profile, whose vault is empty. -/
def oneVault : Storage :=
  Storage.setProfile ⟨fun _ => none, fun _ => none⟩ 7 ⟨.empty, ⟨0, 0⟩, []⟩

/-- A write to the vault of 7, with the public key of 9 and no signature. -/
def forgedInsert : VaultRequest .transparent where
  id := 7
  changes := [(1, [42])]
  proof :=
    { pk := (9 : Hash), nonce := 1, signature := ((0 : Hash), []),
      context := Crypto.transparent.kv 1 [42] }

/-- Two insertions of that stranger: the first one repeats the nonce, the second one has the
context of other changes. -/
def refusedInserts : List (VaultRequest .transparent) :=
  [{ forgedInsert with proof := { forgedInsert.proof with nonce := 0 } },
    { forgedInsert with changes := [(1, [43])] }]

theorem refusedInserts_refused : (vaultMachine .transparent).EachStep
    (fun s r => r.id = 7 → ¬ s.PassesChecks r) oneVault refusedInserts := by
  refine ⟨fun _ => ?_, fun _ => ?_, trivial⟩
  · rintro ⟨pf, hchecks⟩
    exact absurd hchecks.fresh (Nat.not_lt_zero _)
  · rintro ⟨pf, hchecks⟩
    have hpassed := serveVault_ok_iff.mpr ⟨pf, hchecks⟩
    revert hpassed
    decide

/-- Both are refused, and the vault of 7 stays as it was. -/
theorem vault_authorised_refused :
    ∀ pre post, refusedInserts = pre ++ post →
      ((vaultMachine .transparent).run oneVault pre).profiles 7 = oneVault.profiles 7 :=
  ((vault_authorised_iff oneVault).2 7 refusedInserts (by
    intro r hr _ hsigned
    have hforged : ∀ r ∈ refusedInserts, ¬ r.SignedByOwner := by
      unfold VaultRequest.SignedByOwner
      decide
    exact hforged r hr hsigned)).mpr refusedInserts_refused

/-- The forged insertion is accepted and changes the vault. -/
theorem forgedInsert_accepted :
    (oneVault.serveVault forgedInsert).2 = .ok () ∧ forgedInsert.proof.verify = false ∧
      forgedInsert.proof.identity ≠ forgedInsert.id ∧
      ((oneVault.serveVault forgedInsert).1.profiles 7).map (fun pf => pf.vault.get 1) =
        some (some [42]) := by
  decide

end OnionNetwork.Server
