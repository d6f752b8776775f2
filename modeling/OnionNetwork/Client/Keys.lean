import OnionNetwork.Client.Devices

/-!
# The keys of the components

Chats, theme and friend list are stored under three constants, a friend under
its id. As long as the constants differ and a new id is a new one, no two
components of a vault share a key (`Vault.Own`). The ids travel in the stored
friend list, so a device that loads a vault inherits this from the device that
wrote the list (`fromStorage_own`).
-/

namespace OnionNetwork.Client

open Lib

variable {UserName : Type} [LinearOrder UserName] {cr : Crypto} {V : Suite UserName}

/-- No two components of a vault have one key. -/
def Vault.Own (cr : Crypto) (v : Vault V) : Prop :=
  ∀ i j k, v.getKey cr i = some k → v.getKey cr j = some k → i = j

/-- The keys of the components, those of the friends as a list has them. -/
def Keyed (cr : Crypto) (names : List (UserName × FriendId)) :
    VaultKey UserName → SharedSecret → Prop
  | .chats, k => k = chatsKey cr
  | .friend name, k => (name, k) ∈ names
  | .friendNames, k => k = friendsKey cr
  | .theme, k => k = themeKey cr

/-- No two components have one key. -/
def KeysApart (cr : Crypto) (names : List (UserName × FriendId)) : Prop :=
  ∀ i j k, Keyed cr names i k → Keyed cr names j k → i = j

/-- The three constants differ. -/
def ConstantsApart (cr : Crypto) : Prop :=
  [chatsKey cr, themeKey cr, friendsKey cr].Nodup

instance : Decidable (ConstantsApart cr) := inferInstanceAs (Decidable (List.Nodup _))

/-- The keys a vault uses. -/
def Vault.usedKeys (cr : Crypto) (v : Vault V) : List SharedSecret :=
  [chatsKey cr, themeKey cr, friendsKey cr] ++ v.names.map Prod.snd

variable {s : Storage UserName} {v : Vault V} {key : SharedSecret} {i : VaultKey UserName}
  {k : SharedSecret}

theorem keyed_names : Keyed cr v.names i k ↔ v.getKey cr i = some k := by
  cases i with
  | chats => exact eq_comm.trans (Option.some_inj).symm
  | friendNames => exact eq_comm.trans (Option.some_inj).symm
  | theme => exact eq_comm.trans (Option.some_inj).symm
  | friend name =>
      show (name, k) ∈ v.names ↔ (v.friends.get name).map FriendMeta.id = some k
      simp only [Vault.names, List.mem_map, Prod.mk.injEq, Option.map_eq_some_iff]
      constructor
      · rintro ⟨⟨name', friend⟩, hentry, rfl, rfl⟩
        exact ⟨friend, v.friends.mem_entries_iff.mp hentry, rfl⟩
      · rintro ⟨friend, hget, rfl⟩
        exact ⟨(name, friend), v.friends.mem_entries_iff.mpr hget, rfl, rfl⟩

theorem Vault.Own.keysApart (h : v.Own cr) : KeysApart cr v.names := by
  intro i j k hi hj
  exact h i j k (keyed_names.mp hi) (keyed_names.mp hj)

theorem mem_usedKeys (h : v.getKey cr i = some k) : k ∈ v.usedKeys cr := by
  have hkeyed := keyed_names.mpr h
  cases i with
  | chats => simp_all [Keyed, Vault.usedKeys]
  | friendNames => simp_all [Keyed, Vault.usedKeys]
  | theme => simp_all [Keyed, Vault.usedKeys]
  | friend name => exact List.mem_append_right _ (List.mem_map.mpr ⟨(name, k), hkeyed, rfl⟩)

omit [LinearOrder UserName] in
theorem keysApart_nil (h : ConstantsApart cr) : KeysApart cr ([] : List (UserName × FriendId)) := by
  simp only [ConstantsApart, List.nodup_cons, List.mem_cons, List.not_mem_nil, or_false,
    not_or] at h
  obtain ⟨⟨hct, hcf⟩, htf, -⟩ := h
  intro i j k hi hj
  cases i <;> cases j <;> simp_all [Keyed]

/-! ### Loading -/

/-- What is stored as a friend list keeps the components apart. -/
def ListsApart (V : Suite UserName) (cr : Crypto) (key : SharedSecret)
    (store : Hash → Option Bytes) : Prop :=
  ∀ value plain names, store (friendsKey cr) = some value → V.decrypt value key = some plain →
    V.namesOf plain = some names → KeysApart cr names

theorem mem_of_mapM {α β : Type} {f : α → Option β} {l : List α} {l' : List β}
    (h : l.mapM f = some l') {b : β} (hb : b ∈ l') : ∃ a ∈ l, f a = some b := by
  induction l generalizing l' with
  | nil =>
      rw [List.mapM_nil] at h
      obtain rfl := Option.some.inj h
      cases hb
  | cons a l ih =>
      cases head : f a with
      | none => simp [List.mapM_cons, head] at h
      | some b' =>
          cases tail : l.mapM f with
          | none => simp [List.mapM_cons, head, tail] at h
          | some rest =>
              simp only [List.mapM_cons, head, tail, Option.bind_eq_bind, Option.bind_some,
                Option.pure_def, Option.some.injEq] at h
              subst h
              rcases List.mem_cons.mp hb with rfl | hb
              · exact ⟨a, List.mem_cons_self, head⟩
              · obtain ⟨a', ha', hf⟩ := ih tail hb
                exact ⟨a', List.mem_cons_of_mem _ ha', hf⟩

/-- The components of a loaded vault have their own keys. -/
theorem fromStorage_own (h : ListsApart V cr key s.values.get)
    (hload : Vault.fromStorage V cr s key = some v) : v.Own cr := by
  simp only [Vault.fromStorage, getEncrypted, Option.bind_eq_bind, Option.bind_eq_some_iff] at hload
  obtain ⟨names, ⟨value, hvalue, plain, hplain, hnames⟩, metas, hmetas, _, _, _, _, hv⟩ := hload
  have hapart := h value plain names hvalue hplain hnames
  have hkeyed : ∀ i k, v.getKey cr i = some k → Keyed cr names i k := by
    intro i k hk
    have hi := keyed_names.mpr hk
    cases i with
    | chats => exact hi
    | friendNames => exact hi
    | theme => exact hi
    | friend name =>
        obtain ⟨friend, hget, rfl⟩ := Option.map_eq_some_iff.mp hk
        have hfriends : v.friends =
            metas.foldl (fun friends entry => friends.put entry.1 entry.2) .empty := by
          rw [← Option.some.inj hv]
        rw [hfriends] at hget
        rcases SortedMap.get_foldl_put_cases metas .empty name with ⟨v', hin, hget'⟩ | ⟨-, habsent⟩
        · obtain rfl := Option.some.inj (hget'.symm.trans hget)
          obtain ⟨⟨name', id⟩, hentry, hmeta⟩ := mem_of_mapM hmetas hin
          obtain ⟨state, -, hstate⟩ := Option.bind_eq_some_iff.mp hmeta
          obtain ⟨rfl, rfl⟩ := Prod.mk.inj (Option.some.inj hstate)
          exact hentry
        · cases habsent.symm.trans hget
  intro i j k hi hj
  exact hapart i j k (hkeyed i k hi) (hkeyed j k hj)

/-! ### Writing -/

omit [LinearOrder UserName] in
/-- A write under another key, or of a list that keeps the components apart. -/
theorem ListsApart.write {store : Hash → Option Bytes} {value : Bytes}
    (h : ListsApart V cr key store)
    (hnew : k = friendsKey cr → ∀ plain names, V.decrypt value key = some plain →
      V.namesOf plain = some names → KeysApart cr names) :
    ListsApart V cr key (Function.update store k (some value)) := by
  intro value' plain names hvalue hplain hnames
  by_cases hk : friendsKey cr = k
  · rw [hk, Function.update_self] at hvalue
    obtain rfl := Option.some.inj hvalue
    exact hnew hk.symm plain names hplain hnames
  · rw [Function.update_of_ne hk] at hvalue
    exact h value' plain names hvalue hplain hnames

/-- A written value is read under its key. -/
theorem values_put (s : Storage UserName) (k : Hash) (value : Bytes) :
    (s.values.put k value).get = Function.update s.values.get k (some value) := by
  funext k'
  by_cases hk : k = k'
  · subst hk
    rw [SortedMap.get_put_self, Function.update_self]
  · rw [SortedMap.get_put_ne _ hk, Function.update_of_ne (Ne.symm hk)]

/-- A component is written. -/
def Storage.write (s : Storage UserName) (id : VaultKey UserName) (k : Hash) (value : Bytes) :
    Storage UserName :=
  ({ s with values := s.values.put k value } : Storage UserName).touch id

@[simp] theorem write_values (s : Storage UserName) (id : VaultKey UserName) (k : Hash)
    (value : Bytes) : (s.write id k value).values = s.values.put k value := rfl

/-- What the function inside `Vault::repair` can do. -/
theorem ensure_cases (s : Storage UserName) (k : SharedSecret) (id : VaultKey UserName)
    (value : Bytes) :
    Vault.ensure s k id value = s ∨ Vault.ensure s k id value = s.write id k value := by
  cases hget : s.values.get k with
  | none =>
      refine .inr ?_
      simp only [Vault.ensure, Storage.ensure, hget, if_true]
      rfl
  | some value' =>
      refine .inl ?_
      simp only [Vault.ensure, Storage.ensure, hget, Bool.false_eq_true, if_false]

/-- What `Vault::update` can do. -/
theorem update_cases (cr : Crypto) (key : SharedSecret) (d : Device V)
    (id : VaultKey UserName × V.Rng) :
    d.update cr key id = d ∨ ∃ k value, d.vault.getKey cr id.1 = some k ∧
      d.vault.getRepr id.1 key id.2 = some value ∧
      d.update cr key id =
        { d with
          storage := d.storage.write id.1 k value
          vault := { d.vault with changeCount := d.vault.changeCount + 1 } } := by
  cases hvalue : d.vault.getRepr id.1 key id.2 with
  | none => exact .inl (by simp only [Device.update, Vault.update, hvalue])
  | some value =>
      cases hk : d.vault.getKey cr id.1 with
      | none => exact .inl (by simp only [Device.update, Vault.update, hvalue, hk])
      | some k =>
          by_cases hsame : d.storage.values.get k = some value
          · exact .inl (by simp only [Device.update, Vault.update, hvalue, hk, hsame, if_true])
          · refine .inr ⟨k, value, rfl, rfl, ?_⟩
            simp only [Device.update, Vault.update, hvalue, hk, hsame, if_false]
            rfl

theorem ensure_listsApart (h : ListsApart V cr key s.values.get) (k : SharedSecret)
    (id : VaultKey UserName) (value : Bytes)
    (hnew : k = friendsKey cr → ∀ plain names, V.decrypt value key = some plain →
      V.namesOf plain = some names → KeysApart cr names) :
    ListsApart V cr key (Vault.ensure s k id value).values.get := by
  rcases ensure_cases s k id value with heq | heq
  · rw [heq]
    exact h
  · rw [heq, write_values, values_put]
    exact h.write hnew

/-- `Vault::repair` adds at most an empty friend list. -/
theorem repair_listsApart (hlaw : V.Lawful) (hconst : ConstantsApart cr)
    (h : ListsApart V cr key s.values.get) (rngs : V.Rng × V.Rng) :
    ListsApart V cr key (Vault.repair V cr s key rngs).values.get := by
  have hne := hconst
  simp only [ConstantsApart, List.nodup_cons, List.mem_cons, List.not_mem_nil, or_false, not_or]
    at hne
  obtain ⟨⟨-, hchats⟩, htheme, -⟩ := hne
  refine ensure_listsApart (ensure_listsApart (ensure_listsApart h _ _ _ ?_) _ _ _ ?_) _ _ _ ?_
  · intro heq
    exact absurd heq hchats
  · intro heq
    exact absurd heq htheme
  · intro _ plain names hplain hnames
    rw [hlaw.decrypt_encrypt] at hplain
    obtain rfl := Option.some.inj hplain
    rw [hlaw.namesOf_zero] at hnames
    obtain rfl := Option.some.inj hnames
    exact keysApart_nil hconst

/-- `Vault::update` writes the friend list of its vault. -/
theorem update_listsApart (hlaw : V.Lawful) {d : Device V} (hown : d.vault.Own cr)
    (h : ListsApart V cr key d.storage.values.get) (id : VaultKey UserName × V.Rng) :
    ListsApart V cr key (d.update cr key id).storage.values.get := by
  rcases update_cases cr key d id with heq | ⟨k, value, hk, hvalue, heq⟩
  · rw [heq]
    exact h
  · rw [heq]
    show ListsApart V cr key (d.storage.values.put k value).get
    rw [values_put]
    refine h.write ?_
    rintro rfl plain names hplain hnames
    have hid : id.1 = .friendNames := hown id.1 .friendNames _ hk rfl
    rw [hid] at hvalue
    obtain rfl := Option.some.inj hvalue
    rw [hlaw.decrypt_encrypt] at hplain
    obtain rfl := Option.some.inj hplain
    rw [hlaw.namesOf_namesBytes] at hnames
    obtain rfl := Option.some.inj hnames
    exact hown.keysApart

/-! ### Changing a vault -/

/-- A friend keeps its id or gets a new draw, which neither the vault uses nor
anything is stored under. -/
def Edit.IdFresh (cr : Crypto) (d : Device V) (remote : Hash → Option Bytes) : Edit V → Prop
  | .chats _ => True
  | .theme _ => True
  | .friend name newFriend =>
      (d.vault.friends.get name).map FriendMeta.id = some newFriend.id ∨
        newFriend.id ∉ d.vault.usedKeys cr ∧ d.storage.values.get newFriend.id = none ∧
          remote newFriend.id = none

instance (cr : Crypto) (d : Device V) (remote : Hash → Option Bytes) (e : Edit V) :
    Decidable (e.IdFresh cr d remote) :=
  match e with
  | .chats _ => isTrue trivial
  | .theme _ => isTrue trivial
  | .friend name newFriend =>
      inferInstanceAs (Decidable ((d.vault.friends.get name).map FriendMeta.id = some newFriend.id ∨
        newFriend.id ∉ d.vault.usedKeys cr ∧ d.storage.values.get newFriend.id = none ∧
          remote newFriend.id = none))

/-- What an edit does to the keys: one component may get a new one. -/
theorem edit_cases {d : Device V} {remote : Hash → Option Bytes} {e : Edit V}
    (h : e.IdFresh cr d remote) :
    ∃ i, (∀ j ≠ i, (e.apply d.vault).getKey cr j = d.vault.getKey cr j) ∧
      ((e.apply d.vault).getKey cr i = d.vault.getKey cr i ∨
        ∀ k, (e.apply d.vault).getKey cr i = some k →
          k ∉ d.vault.usedKeys cr ∧ d.storage.values.get k = none ∧ remote k = none) := by
  cases e with
  | chats newChats => exact ⟨.chats, fun j _ => by cases j <;> rfl, .inl rfl⟩
  | theme newTheme => exact ⟨.theme, fun j _ => by cases j <;> rfl, .inl rfl⟩
  | friend name friend =>
      refine ⟨.friend name, ?_, ?_⟩
      · intro j hj
        cases j with
        | chats => rfl
        | friendNames => rfl
        | theme => rfl
        | friend other =>
            have hne : name ≠ other := by
              rintro rfl
              exact hj rfl
            show ((d.vault.friends.put name friend).get other).map FriendMeta.id = _
            rw [SortedMap.get_put_ne _ hne]
            rfl
      · have hnew : (Edit.apply (.friend name friend) d.vault).getKey cr (.friend name) =
            some friend.id := by
          show ((d.vault.friends.put name friend).get name).map FriendMeta.id = _
          rw [SortedMap.get_put_self]
          rfl
        rw [hnew]
        rcases h with hsame | hfresh
        · exact .inl hsame.symm
        · refine .inr fun k hk => ?_
          obtain rfl := Option.some.inj hk
          exact hfresh

theorem edit_own {d : Device V} {remote : Hash → Option Bytes} {e : Edit V}
    (h : e.IdFresh cr d remote) (hown : d.vault.Own cr) : (e.apply d.vault).Own cr := by
  obtain ⟨i, hother, hnew⟩ := edit_cases h
  rcases hnew with hsame | hnew
  · have hkeys : (e.apply d.vault).getKey cr = d.vault.getKey cr := by
      funext j
      by_cases hj : j = i
      · rw [hj]
        exact hsame
      · exact hother j hj
    intro j j' k
    rw [hkeys]
    exact hown j j' k
  · intro j j' k hj hj'
    by_cases hji : j = i
    · by_cases hji' : j' = i
      · rw [hji, hji']
      · rw [hji] at hj
        rw [hother j' hji'] at hj'
        exact absurd (mem_usedKeys hj') (hnew k hj).1
    · rw [hother j hji] at hj
      by_cases hji' : j' = i
      · rw [hji'] at hj'
        exact absurd (mem_usedKeys hj) (hnew k hj').1
      · rw [hother j' hji'] at hj'
        exact hown j j' k hj hj'

end OnionNetwork.Client
