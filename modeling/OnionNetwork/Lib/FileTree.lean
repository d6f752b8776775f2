import Mathlib.Data.List.Induction
import Mathlib.Logic.Function.Basic

/-!
# Paths and file trees

A path is text, and leads from the working directory, or from the top if it starts with a
separator, to a place in a tree of directories. Files are numbered, so that an open file
stays the file it was when no path leads to it any more. There are no links.

* `Path.resolve_push` — where a path leads after a name is pushed to it;
* `FileTree.Unchanged` — a directory, and all below it, is as it was. Operations on other
  places keep it (`createDirAll_spec`, `createDir_spec`, `write_spec`,
  `removeDirAll_spec`, `HeldBelow.unchanged`).
-/

namespace OnionNetwork.Lib

/-- A place in a tree: the names on the way to it. -/
abbrev Place := List (List UInt8)

namespace Path

/-- `/`. -/
def separator : UInt8 := 47

/-- `.`. -/
def dot : UInt8 := 46

/-- `PathBuf::push`: an absolute name replaces the path. -/
def push (path name : List UInt8) : List UInt8 :=
  if name.head? = some separator then name
  else if path = [] ∨ path.getLast? = some separator then path ++ name
  else path ++ separator :: name

/-- One name of a path: nothing and `.` stay in the directory, `..` leaves it. -/
def enter (place : Place) (name : List UInt8) : Place :=
  if name = [] ∨ name = [dot] then place
  else if name = [dot, dot] then place.dropLast
  else place ++ [name]

/-- The place a path leads to. -/
def resolve (workingDir : Place) (path : List UInt8) : Place :=
  (path.splitOn separator).foldl enter (if path.head? = some separator then [] else workingDir)

variable {workingDir : Place} {path name : List UInt8}

/-- Where a path leads after a relative name is pushed to it. -/
theorem resolve_push (workingDir : Place) (path : List UInt8)
    (hname : name.head? ≠ some separator) :
    resolve workingDir (push path name) =
      (name.splitOn separator).foldl enter (resolve workingDir path) := by
  unfold push
  rw [if_neg hname]
  by_cases hnil : path = []
  · rw [if_pos (.inl hnil), hnil, List.nil_append]
    simp only [resolve, if_neg hname, List.head?_nil, reduceCtorEq, if_false, List.splitOn_nil]
    rfl
  obtain ⟨front, last, hlast⟩ : ∃ front last, path = front ++ [last] :=
    ⟨path.dropLast, path.getLast hnil, (List.dropLast_concat_getLast hnil).symm⟩
  have hhead : ∀ behind, (path ++ behind).head? = path.head? := by
    intro behind
    obtain ⟨c, rest, rfl⟩ := List.exists_cons_of_ne_nil hnil
    rfl
  by_cases hsep : path.getLast? = some separator
  · rw [if_pos (.inr hsep)]
    obtain rfl : last = separator := by
      rw [hlast, List.getLast?_concat] at hsep
      exact Option.some.inj hsep
    -- the last piece of the path is empty
    have hpieces : path.splitOn separator = front.splitOn separator ++ [[]] := by
      rw [hlast, List.splitOn_append_cons_self, List.splitOn_nil]
    have hpushed : (path ++ name).splitOn separator =
        front.splitOn separator ++ name.splitOn separator := by
      rw [hlast, List.append_assoc, List.singleton_append, List.splitOn_append_cons_self]
    simp only [resolve, hhead, hpieces, hpushed, List.foldl_append, List.foldl_cons,
      List.foldl_nil]
    rfl
  · rw [if_neg (not_or.mpr ⟨hnil, hsep⟩)]
    simp only [resolve, hhead, List.splitOn_append_cons_self, List.foldl_append]

/-- A name that has no separator is one name. -/
theorem splitOn_plain (hname : ∀ c ∈ name, c ≠ separator) : name.splitOn separator = [name] :=
  List.splitOn_eq_singleton fun hmem => hname _ hmem rfl

theorem head?_ne_separator (hname : ∀ c ∈ name, c ≠ separator) :
    name.head? ≠ some separator := by
  intro hhead
  exact hname separator (List.mem_of_head? hhead) rfl

/-- The empty name leads nowhere. -/
theorem resolve_push_nil : resolve workingDir (push path []) = resolve workingDir path := by
  rw [resolve_push _ _ (by simp), List.splitOn_nil]
  rfl

/-- Any other name without separators leads one step down. -/
theorem resolve_push_plain (hnil : name ≠ []) (hone : name ≠ [dot]) (htwo : name ≠ [dot, dot])
    (hname : ∀ c ∈ name, c ≠ separator) :
    resolve workingDir (push path name) = resolve workingDir path ++ [name] := by
  rw [resolve_push _ _ (head?_ne_separator hname), splitOn_plain hname]
  simp [enter, hnil, hone, htwo]

end Path

/-! ### Trees -/

/-- What is at a place. -/
inductive Entry
  | dir
  | file (number : Nat)
  deriving DecidableEq

/-- Why an operation fails. -/
inductive FileError
  | notFound
  | alreadyExists
  | notADirectory
  | isADirectory
  deriving DecidableEq

/-- Directories and files with contents `F`. Files are numbered in the order in which they
were made. -/
structure FileTree (F : Type*) where
  entry : Place → Option Entry
  /-- The contents, also of a file that no path leads to any more. -/
  content : Nat → F
  made : Nat
  parent : ∀ place name, entry (place ++ [name]) ≠ none → entry place = some .dir
  file_lt : ∀ place n, entry place = some (.file n) → n < made
  file_inj : ∀ place place' n, entry place = some (.file n) → entry place' = some (.file n) →
    place = place'

namespace FileTree

variable {F : Type*}

/-- Nothing but the top. -/
def empty (blank : F) : FileTree F where
  entry place := if place = [] then some .dir else none
  content _ := blank
  made := 0
  parent := by simp
  file_lt := by simp
  file_inj := by simp

/-- `Path::exists`. -/
def present (t : FileTree F) (place : Place) : Bool := (t.entry place).isSome

/-- A file is at the place. -/
def isFile (t : FileTree F) (place : Place) : Bool :=
  match t.entry place with
  | some (.file _) => true
  | _ => false

/-- `fs::create_dir_all`. It fails where a file is in the way. -/
def createDirAll (t : FileTree F) (place : Place) : Except FileError (FileTree F) :=
  if place.inits.any t.isFile then .error .notADirectory
  else .ok { t with
    entry := fun place' => if place' <+: place then some .dir else t.entry place'
    parent := by
      intro place' name hne
      by_cases hpre : place' <+: place
      · rw [if_pos hpre]
      · have hlong : ¬ place' ++ [name] <+: place := fun hpre' =>
          hpre ((List.prefix_append _ _).trans hpre')
        rw [if_neg hlong] at hne
        rw [if_neg hpre]
        exact t.parent place' name hne
    file_lt := by
      intro place' n hn
      split at hn
      · cases hn
      · exact t.file_lt place' n hn
    file_inj := by
      intro place' place'' n hn hn'
      split at hn
      · cases hn
      split at hn'
      · cases hn'
      exact t.file_inj place' place'' n hn hn' }

/-- The directory above a place is there, and nothing is at the place. -/
def Free (t : FileTree F) (place : Place) : Prop :=
  place ≠ [] ∧ t.entry place = none ∧ t.entry place.dropLast = some .dir

instance (t : FileTree F) (place : Place) : Decidable (t.Free place) :=
  inferInstanceAs (Decidable (_ ∧ _ ∧ _))

/-- What comes to a free place has its directory. -/
theorem parent_update {t : FileTree F} {place : Place} {e : Entry} (hfree : t.Free place)
    (place' : Place) (name : List UInt8)
    (hne : Function.update t.entry place (some e) (place' ++ [name]) ≠ none) :
    Function.update t.entry place (some e) place' = some .dir := by
  obtain ⟨-, hnone, habove⟩ := hfree
  by_cases hat : place' ++ [name] = place
  · have hshort : place' ≠ place := by
      rintro rfl
      exact absurd hat (by simp)
    rw [Function.update_of_ne hshort]
    rwa [← hat, List.dropLast_concat] at habove
  · rw [Function.update_of_ne hat] at hne
    have hold := t.parent place' name hne
    have hshort : place' ≠ place := by
      rintro rfl
      rw [hnone] at hold
      cases hold
    rw [Function.update_of_ne hshort, hold]

/-- `fs::create_dir`. -/
def createDir (t : FileTree F) (place : Place) : Except FileError (FileTree F) :=
  if h : t.Free place then
    .ok { t with
      entry := Function.update t.entry place (some .dir)
      parent := parent_update h
      file_lt := by
        intro place' n hn
        rw [Function.update_apply] at hn
        split at hn
        · cases hn
        · exact t.file_lt place' n hn
      file_inj := by
        intro place' place'' n hn hn'
        rw [Function.update_apply] at hn hn'
        split at hn
        · cases hn
        split at hn'
        · cases hn'
        exact t.file_inj place' place'' n hn hn' }
  else .error (if t.present place then .alreadyExists else .notFound)

/-- Write to an open file. -/
def writeOpen (t : FileTree F) (n : Nat) (contents : F) : FileTree F :=
  { t with content := Function.update t.content n contents }

/-- `fs::write`: a file that is there stays the same file. -/
def write (t : FileTree F) (place : Place) (contents : F) : Except FileError (FileTree F) :=
  match t.entry place with
  | some .dir => .error .isADirectory
  | some (.file n) => .ok (t.writeOpen n contents)
  | none =>
      if h : t.Free place then
        .ok { t with
          entry := Function.update t.entry place (some (.file t.made))
          content := Function.update t.content t.made contents
          made := t.made + 1
          parent := parent_update h
          file_lt := by
            intro place' n hn
            rw [Function.update_apply] at hn
            split at hn
            · cases hn
              exact Nat.lt_succ_self _
            · exact Nat.lt_succ_of_lt (t.file_lt place' n hn)
          file_inj := by
            intro place' place'' n hn hn'
            rw [Function.update_apply] at hn hn'
            split at hn
            · next hat =>
                cases hn
                split at hn'
                · next hat' => exact hat.trans hat'.symm
                · exact absurd (t.file_lt place'' _ hn') (Nat.lt_irrefl _)
            · split at hn'
              · cases hn'
                exact absurd (t.file_lt place' _ hn) (Nat.lt_irrefl _)
              · exact t.file_inj place' place'' n hn hn' }
      else .error .notFound

/-- `fs::remove_dir_all`. -/
def removeDirAll (t : FileTree F) (place : Place) : Except FileError (FileTree F) :=
  match t.entry place with
  | none => .error .notFound
  | some (.file _) => .error .notADirectory
  | some .dir => .ok { t with
      entry := fun place' => if place <+: place' then none else t.entry place'
      parent := by
        intro place' name hne
        by_cases hbelow : place <+: place' ++ [name]
        · exact absurd (if_pos hbelow) hne
        · have hout : ¬ place <+: place' := fun hpre => hbelow (hpre.trans (List.prefix_append _ _))
          rw [if_neg hbelow] at hne
          rw [if_neg hout]
          exact t.parent place' name hne
      file_lt := by
        intro place' n hn
        split at hn
        · cases hn
        · exact t.file_lt place' n hn
      file_inj := by
        intro place' place'' n hn hn'
        split at hn
        · cases hn
        split at hn'
        · cases hn'
        exact t.file_inj place' place'' n hn hn' }

/-- Open a file that is there. -/
def openFile (t : FileTree F) (place : Place) : Except FileError Nat :=
  match t.entry place with
  | none => .error .notFound
  | some .dir => .error .isADirectory
  | some (.file n) => .ok n

/-! ### What an operation leaves alone -/

/-- The place, and all below it, is as it was. -/
def Unchanged (top : Place) (t t' : FileTree F) : Prop :=
  ∀ place, top <+: place → t'.entry place = t.entry place ∧
    ∀ n, t.entry place = some (.file n) → t'.content n = t.content n

/-- No file comes to another place. -/
def OpenKept (t t' : FileTree F) : Prop :=
  t.made ≤ t'.made ∧ ∀ place, ∀ n < t.made, t'.entry place = some (.file n) →
    t.entry place = some (.file n)

/-- Neither of the places is below the other. -/
def Apart (place place' : Place) : Prop := ¬ place <+: place' ∧ ¬ place' <+: place

section Frames

variable {t t' t'' : FileTree F} {top place : Place} {n : Nat} {contents : F}

theorem Unchanged.refl (top : Place) (t : FileTree F) : Unchanged top t t :=
  fun _ _ => ⟨rfl, fun _ _ => rfl⟩

theorem Unchanged.trans (h : Unchanged top t t') (h' : Unchanged top t' t'') :
    Unchanged top t t'' := by
  intro place hbelow
  obtain ⟨hentry, hcontent⟩ := h place hbelow
  obtain ⟨hentry', hcontent'⟩ := h' place hbelow
  refine ⟨hentry'.trans hentry, fun n hn => ?_⟩
  rw [hcontent' n (hentry.trans hn), hcontent n hn]

theorem Apart.symm {place place' : Place} (h : Apart place place') : Apart place' place :=
  ⟨h.2, h.1⟩

/-- What is below different names of one directory is apart. -/
theorem apart_of_ne {name name' : List UInt8} (h : name ≠ name') (more more' : Place) :
    Apart (place ++ name :: more) (place ++ name' :: more') := by
  constructor
  · intro hpre
    rw [List.prefix_append_right_inj, List.cons_prefix_cons] at hpre
    exact h hpre.1
  · intro hpre
    rw [List.prefix_append_right_inj, List.cons_prefix_cons] at hpre
    exact h hpre.1.symm

theorem createDirAll_spec (h : t.createDirAll place = .ok t') :
    t'.entry place = some .dir ∧ OpenKept t t' ∧
      ∀ top, ¬ top <+: place → Unchanged top t t' := by
  unfold createDirAll at h
  split at h
  · cases h
  · obtain rfl := Except.ok.inj h
    refine ⟨if_pos (List.prefix_refl _), ⟨Nat.le_refl _, fun place' n _ hn => ?_⟩,
      fun top hout place' hbelow => ?_⟩
    · change (if place' <+: place then _ else _) = _ at hn
      split at hn
      · cases hn
      · exact hn
    · have hlong : ¬ place' <+: place := fun hpre => hout (hbelow.trans hpre)
      exact ⟨if_neg hlong, fun _ _ => rfl⟩

/-- A place that is below another one is not a place that is not. -/
theorem ne_of_below {place' : Place} (hout : ¬ top <+: place) (hbelow : top <+: place') :
    place' ≠ place := by
  rintro rfl
  exact hout hbelow

theorem createDir_spec (h : t.createDir place = .ok t') :
    OpenKept t t' ∧ ∀ top, ¬ top <+: place → Unchanged top t t' := by
  unfold createDir at h
  split at h
  · obtain rfl := Except.ok.inj h
    refine ⟨⟨Nat.le_refl _, fun place' n _ hn => ?_⟩, fun top hout place' hbelow => ?_⟩
    · change Function.update t.entry place _ place' = _ at hn
      rw [Function.update_apply] at hn
      split at hn
      · cases hn
      · exact hn
    · exact ⟨Function.update_of_ne (ne_of_below hout hbelow) _ _, fun _ _ => rfl⟩
  · cases h

theorem writeOpen_openKept (t : FileTree F) (n : Nat) (contents : F) :
    OpenKept t (t.writeOpen n contents) := ⟨Nat.le_refl _, fun _ _ _ h => h⟩

/-- A write to an open file changes nothing below a place that the file is not below. -/
theorem unchanged_writeOpen (contents : F)
    (hout : ∀ place, top <+: place → t.entry place ≠ some (.file n)) :
    Unchanged top t (t.writeOpen n contents) := by
  intro place hbelow
  refine ⟨rfl, fun m hm => Function.update_of_ne ?_ _ _⟩
  rintro rfl
  exact hout place hbelow hm

theorem write_spec (h : t.write place contents = .ok t') :
    (∃ n, t'.entry place = some (.file n)) ∧ OpenKept t t' ∧
      ∀ top, ¬ top <+: place → Unchanged top t t' := by
  unfold write at h
  split at h
  · cases h
  · next n hn =>
      obtain rfl := Except.ok.inj h
      refine ⟨⟨n, hn⟩, writeOpen_openKept t n contents, fun top hout => ?_⟩
      apply unchanged_writeOpen
      -- the file is at this place only
      intro place' hbelow hn'
      exact ne_of_below hout hbelow (t.file_inj _ _ _ hn' hn)
  · split at h
    · obtain rfl := Except.ok.inj h
      refine ⟨⟨t.made, Function.update_self _ _ _⟩, ⟨Nat.le_succ _, fun place' n hlt hn => ?_⟩,
        fun top hout place' hbelow => ⟨?_, fun n hn => ?_⟩⟩
      · change Function.update t.entry place _ place' = _ at hn
        rw [Function.update_apply] at hn
        split at hn
        · cases hn
          exact absurd hlt (Nat.lt_irrefl _)
        · exact hn
      · exact Function.update_of_ne (ne_of_below hout hbelow) _ _
      · exact Function.update_of_ne (Nat.ne_of_lt (t.file_lt place' n hn)) _ _
    · cases h

theorem removeDirAll_spec (h : t.removeDirAll place = .ok t') :
    (∀ place', place <+: place' → t'.entry place' = none) ∧ OpenKept t t' ∧
      ∀ top, Apart top place → Unchanged top t t' := by
  unfold removeDirAll at h
  split at h
  · cases h
  · cases h
  · obtain rfl := Except.ok.inj h
    refine ⟨fun place' hbelow => if_pos hbelow, ⟨Nat.le_refl _, fun place' n _ hn => ?_⟩,
      fun top hapart place' hbelow => ⟨?_, fun _ _ => rfl⟩⟩
    · change (if place <+: place' then _ else _) = _ at hn
      split at hn
      · cases hn
      · exact hn
    · apply if_neg
      intro hpre
      rcases List.prefix_or_prefix_of_prefix hbelow hpre with hle | hle
      · exact hapart.1 hle
      · exact hapart.2 hle

/-- A directory that is there can be removed. -/
theorem removeDirAll_of_dir (h : t.entry place = some .dir) :
    ∃ t', t.removeDirAll place = .ok t' := by
  unfold removeDirAll
  split
  · next hnone => cases h.symm.trans hnone
  · next n hn => cases h.symm.trans hn
  · exact ⟨_, rfl⟩

/-- What is on the way to something is a directory. -/
theorem entry_above {above : Place} (h : t.entry place = some .dir) (hpre : above <+: place) :
    t.entry above = some .dir := by
  obtain ⟨more, rfl⟩ := hpre
  induction more using List.reverseRecOn with
  | nil => rwa [List.append_nil] at h
  | append_singleton more name ih =>
      rw [← List.append_assoc] at h
      exact ih (t.parent _ name (by rw [h]; exact Option.some_ne_none _))

/-- There is a tree in which a place is a directory. -/
theorem exists_dir (blank : F) (place : Place) :
    ∃ t : FileTree F, t.entry place = some .dir := by
  have hfree : (place.inits.any (FileTree.empty blank).isFile) = false := by
    rw [List.any_eq_false]
    intro place' _
    simp only [isFile, empty]
    split <;> simp_all
  obtain ⟨t', ht'⟩ : ∃ t', (FileTree.empty blank).createDirAll place = .ok t' := by
    unfold createDirAll
    rw [hfree]
    exact ⟨_, rfl⟩
  exact ⟨t', (createDirAll_spec ht').1⟩

theorem openFile_eq_ok : t.openFile place = .ok n ↔ t.entry place = some (.file n) := by
  unfold openFile
  split <;> simp_all

/-! ### Open files -/

/-- The open file is below the place, or nowhere. -/
def HeldBelow (top : Place) (t : FileTree F) (n : Nat) : Prop :=
  n < t.made ∧ ∀ place, t.entry place = some (.file n) → top <+: place

theorem HeldBelow.openKept (h : HeldBelow top t n) (hkept : OpenKept t t') :
    HeldBelow top t' n :=
  ⟨Nat.lt_of_lt_of_le h.1 hkept.1, fun place hn => h.2 place (hkept.2 place n h.1 hn)⟩

/-- A file that was opened is held below every directory on the way to it. -/
theorem heldBelow_of_entry (h : t.entry place = some (.file n)) (hbelow : top <+: place) :
    HeldBelow top t n := by
  refine ⟨t.file_lt place n h, fun place' hn => ?_⟩
  rwa [t.file_inj place' place n hn h]

/-- Nothing changes apart from the place below which the file is held. -/
theorem HeldBelow.unchanged {place : Place} (h : HeldBelow place t n) (hapart : Apart top place)
    (contents : F) : Unchanged top t (t.writeOpen n contents) := by
  apply unchanged_writeOpen
  intro place' hbelow hn
  rcases List.prefix_or_prefix_of_prefix hbelow (h.2 place' hn) with hle | hle
  · exact hapart.1 hle
  · exact hapart.2 hle

end Frames

end FileTree

end OnionNetwork.Lib
