import OnionNetwork.Lib.Alphabets
import OnionNetwork.Server.VaultBytes
import OnionNetwork.Storage.Uri

/-!
# File URIs there and back

A pass phrase is written as it is, and the parameters are cut at each `&` before anything else is
read of them. So no pass phrase that is read has an `&` (`pass_of_fromStr`), and a URI is read as
it was written exactly if its pass phrase has none (`read_back_iff`). The other separators do no
harm: `/` and `?` are looked for in front of the pass phrase, and only the first `=` counts.
-/

namespace OnionNetwork.Storage.Uri

open Lib

variable {ε : Type} {bs58 : Bs58 ε} {u : Uri} {s : List Char}

/-! ## What is read has no separator -/

theorem pass_of_readParam {i : ℕ} {param : List Char} {params params' : Params}
    (hparam : '&' ∉ param) (hparams : '&' ∉ params.passPhrase.chars)
    (h : readParam i param params = (.ok params' : Except (UriParseError ε) Params)) :
    '&' ∉ params'.passPhrase.chars := by
  have hvalue : '&' ∉ ((splitOnce '=' param).getD (param, [])).2 := by
    cases hsplit : splitOnce '=' param with
    | none => simp
    | some parts => exact fun hmem => hparam (mem_of_splitOnce hsplit _ hmem)
  simp only [readParam] at h
  split_ifs at h
  · split at h
    · contradiction
    · obtain rfl := Except.ok.inj h
      exact hparams
  · obtain rfl := Except.ok.inj h
    exact hvalue

theorem pass_of_readParams {i : ℕ} {list : List (List Char)} {params params' : Params}
    (hlist : ∀ param ∈ list, '&' ∉ param) (hparams : '&' ∉ params.passPhrase.chars)
    (h : readParams i list params = (.ok params' : Except (UriParseError ε) Params)) :
    '&' ∉ params'.passPhrase.chars := by
  induction list generalizing i params with
  | nil =>
      obtain rfl := Except.ok.inj h
      exact hparams
  | cons param list ih =>
      obtain ⟨hparam, hlist⟩ := List.forall_mem_cons.mp hlist
      rw [readParams] at h
      cases hread : readParam (ε := ε) i param params with
      | error e => simp [hread, bind, Except.bind] at h
      | ok next =>
          rw [hread] at h
          exact ih hlist (pass_of_readParam hparam hparams hread) h

/-- No pass phrase that is read has an `&`. -/
theorem pass_of_fromStr (h : fromStr bs58 s = .ok u) : '&' ∉ u.passPhrase.chars := by
  simp only [fromStr, Chat.bind_eq_ok, okOr_eq_ok] at h
  obtain ⟨path, -, ⟨sateliteB58, rest⟩, -, satelite, -, ⟨addressB58, params⟩, -, id, -, read,
    hread, size, -, hu⟩ := h
  obtain rfl := Except.ok.inj hu
  exact pass_of_readParams not_mem_of_mem_splitOn List.not_mem_nil hread

/-! ## What is written is read -/

theorem plain_of_alphanum {c : Char} (h : c.isAlphanum) : c ≠ '/' ∧ c ≠ '?' := by
  constructor <;> rintro rfl <;> exact absurd h (by decide)

theorem sizeParam_free (n : ℕ) : '&' ∉ sizeName ++ '=' :: Nat.toDigits 10 n := by
  intro hmem
  rcases List.mem_append.mp hmem with hmem | hmem
  · exact absurd hmem (by decide)
  · rcases List.mem_cons.mp hmem with hmem | hmem
    · exact absurd hmem (by decide)
    · exact absurd (isDigit_of_mem_toDigits hmem) (by decide)

theorem passParam_free (h : '&' ∉ s) : '&' ∉ passName ++ '=' :: s := by
  simp [passName, h]

theorem readParam_size (i : ℕ) (size : U64) (params : Params) :
    readParam i (sizeName ++ '=' :: Nat.toDigits 10 size.1) params =
      (.ok { params with size := some size } : Except (UriParseError ε) Params) := by
  simp [readParam, splitOnce_append (by decide : '=' ∉ sizeName), parseU64_toDigits]

theorem readParam_pass (i : ℕ) (pass : PassPhrase) (params : Params) :
    readParam i (passName ++ '=' :: pass.chars) params =
      (.ok { params with passPhrase := pass } : Except (UriParseError ε) Params) := by
  have hname : passName ≠ sizeName := by decide
  simp [readParam, splitOnce_append (by decide : '=' ∉ passName), hname, pass.len_le]

/-- The parameters that are written are read. -/
theorem readParams_display (h : '&' ∉ u.passPhrase.chars) :
    readParams 0 (u.displayParams.splitOn '&') ⟨none, PassPhrase.empty⟩ =
      (.ok ⟨some ⟨u.address.size, u.size_lt⟩, u.passPhrase⟩ :
        Except (UriParseError ε) Params) := by
  have hsize := sizeParam_free u.address.size
  by_cases hempty : u.passPhrase.chars = []
  · have hsplit : u.displayParams.splitOn '&' =
        [sizeName ++ '=' :: Nat.toDigits 10 u.address.size] := by
      rw [displayParams, if_pos hempty, List.append_nil]
      exact List.splitOn_eq_singleton hsize
    have hpass : u.passPhrase = PassPhrase.empty := by
      cases hchars : u.passPhrase
      simp_all [PassPhrase.empty]
    rw [hsplit, readParams, readParam_size 0 ⟨u.address.size, u.size_lt⟩, hpass]
    rfl
  · have hsplit : u.displayParams.splitOn '&' =
        [sizeName ++ '=' :: Nat.toDigits 10 u.address.size,
          passName ++ '=' :: u.passPhrase.chars] := by
      rw [displayParams, if_neg hempty, List.cons_append,
        List.splitOn_append_cons_self_of_not_mem hsize,
        List.splitOn_eq_singleton (passParam_free h)]
    rw [hsplit, readParams, readParam_size 0 ⟨u.address.size, u.size_lt⟩]
    show readParams 1 [passName ++ '=' :: u.passPhrase.chars] _ = _
    rw [readParams, readParam_pass]
    rfl

/-- The separators of the path are not letters of a hash. -/
theorem not_mem_encode (hlawful : bs58.Lawful) (h : Hash) :
    '/' ∉ bs58.encode h ∧ '?' ∉ bs58.encode h :=
  ⟨fun hmem => (plain_of_alphanum (hlawful.alphanumeric h _ hmem)).1 rfl,
    fun hmem => (plain_of_alphanum (hlawful.alphanumeric h _ hmem)).2 rfl⟩

theorem display_eq (hlawful : bs58.Lawful) (u : Uri) :
    display bs58 u = some (scheme ++ (bs58.encode u.satelite ++ '/' ::
      (bs58.encode u.address.id ++ '?' :: u.displayParams))) := by
  have honto (h : Hash) : encodeOnto bs58 h = some (bs58.encode h) := if_pos (hlawful.length_le h)
  simp [display, honto]

/-- The path is read as it was written, and the parameters as they are. -/
theorem fromStr_display (hlawful : bs58.Lawful) (h : '&' ∉ u.passPhrase.chars) :
    fromStr bs58 (scheme ++ (bs58.encode u.satelite ++ '/' ::
      (bs58.encode u.address.id ++ '?' :: u.displayParams))) = .ok u := by
  simp only [fromStr, Chat.bind_eq_ok, okOr_eq_ok, stripPrefix_append]
  refine ⟨_, rfl, _, splitOnce_append (not_mem_encode hlawful _).1 _, u.satelite, ?_, _,
    splitOnce_append (not_mem_encode hlawful _).2 _, u.address.id, ?_, _, readParams_display h,
    ⟨u.address.size, u.size_lt⟩, rfl, rfl⟩
  · rw [hlawful.decode_encode, Except.mapError]
  · rw [hlawful.decode_encode, Except.mapError]

/-- **There and back.** A URI is read as it was written exactly if its pass phrase has no `&`. -/
theorem read_back_iff (hlawful : bs58.Lawful) (u : Uri) :
    (display bs58 u).map (fromStr bs58) = some (.ok u) ↔ '&' ∉ u.passPhrase.chars := by
  rw [display_eq hlawful, Option.map_some, Option.some.injEq]
  exact ⟨pass_of_fromStr, fromStr_display hlawful⟩

/-! ## With the letters of `bs58` -/

/-- `bs58`, with its own alphabet: a hash that is too short is filled up with zeros, one that is
too long is an error. -/
def bitcoin : Bs58 Unit where
  encode h := Base58.encode h.toBytes
  decode s :=
    match Base58.decode s with
    | none => .error ()
    | some bytes =>
        if bytes.length ≤ 32 then .ok (Hash.ofBytes (bytes ++ List.replicate (32 - bytes.length) 0))
        else .error ()

theorem bitcoin_lawful : bitcoin.Lawful where
  decode_encode h := by
    simp [bitcoin, Base58.decode_encode]
  alphanumeric h := Base58.alphanum_encode h.toBytes
  length_le h := by
    have hlength := Base58.length_encode_le h.toBytes
    rwa [Hash.length_toBytes] at hlength

/-- With separators of the path, and with two `=`. -/
theorem read_back_separators :
    let u : Uri := ⟨7, ⟨0, 2 ^ 64 - 1⟩, by decide, ⟨['/', '?', '=', 'a', '='], by decide⟩⟩
    (display bitcoin u).map (fromStr bitcoin) = some (.ok u) :=
  (read_back_iff bitcoin_lawful _).mpr (by decide)

/-- The pass phrase `a&b` is read as `a`, and then `b` is no parameter. -/
theorem ampersand_unknown :
    let u : Uri := ⟨7, ⟨0, 5⟩, by decide, ⟨['a', '&', 'b'], by decide⟩⟩
    bitcoin.Lawful ∧ (display bitcoin u).map (fromStr bitcoin) = some (.error (.unknownParam 2)) :=
  ⟨bitcoin_lawful, by decide⟩

end OnionNetwork.Storage.Uri
