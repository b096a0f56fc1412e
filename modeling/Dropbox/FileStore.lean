import Mathlib.Algebra.Group.Nat.Defs
import Mathlib.Data.List.AList

/-!
Paths as std::filesystem splits them, and a file store with the calls the program
makes on it. Names are resolved without symbolic links, `.` and `..`; a trailing
slash asks for a directory. `refused` is what the kernel denies for reasons outside
the tree (permissions, limits). A reply `none` is a thrown filesystem_error.
-/
namespace DropboxFileStore

abbrev Byte := UInt8
abbrev Path := List Byte

def slash : Byte := 47

def isAbsolute (p : Path) : Bool := p.head? == some slash

def names (p : Path) : List Path := (p.splitOn slash).filter fun s => !s.isEmpty

def filename (p : Path) : Path := (p.splitOn slash).getLast?.getD []

/-- The empty last element of a path that ends in a slash after a name. -/
def trailing (p : Path) : List Path := if filename p = [] ∧ names p ≠ [] then [[]] else []

/-- The elements a path iterates over. -/
def components (p : Path) : List Path :=
  (if isAbsolute p then [[slash]] else []) ++ names p ++ trailing p

/-- What stands between the slashes of the path in generic format. -/
def pieces (p : Path) : List Path :=
  (if isAbsolute p then [[]] else []) ++ names p ++ trailing p

/-- path::generic_string: the same elements with single slashes. -/
def genericString (p : Path) : Path :=
  if names p = [] then (if isAbsolute p then [slash] else []) else [slash].intercalate (pieces p)

/-- `p / q`. -/
def joinPath (p q : Path) : Path :=
  if isAbsolute q then q else if filename p = [] then p ++ q else p ++ slash :: q

theorem slash_not_mem_splitOn (p : Path) : ∀ s ∈ p.splitOn slash, slash ∉ s := by
  induction p with
  | nil => simp
  | cons b rest ih =>
    rw [List.splitOn_cons_eq_if_modifyHead]
    split
    · simpa using ih
    · rename_i other
      cases split : rest.splitOn slash with
      | nil => simp
      | cons head tail =>
        rw [split] at ih
        intro s member
        rcases List.mem_cons.mp member with rfl | later
        · intro inside
          rcases List.mem_cons.mp inside with same | deeper
          · exact other (by simp [same])
          · exact ih head (List.mem_cons_self ..) deeper
        · exact ih s (List.mem_cons_of_mem _ later)

theorem names_plain {p s : Path} (member : s ∈ names p) : slash ∉ s ∧ s ≠ [] := by
  obtain ⟨piece, filled⟩ := List.mem_filter.mp member
  exact ⟨slash_not_mem_splitOn p s piece, by simpa using filled⟩

theorem trailing_cases (p : Path) : trailing p = [] ∨ trailing p = [[]] := by
  unfold trailing
  split <;> simp

theorem filename_eq_nil_iff {p : Path} (named : names p ≠ []) :
    filename p = [] ↔ trailing p = [[]] := by
  simp [trailing, named]

/-- A path is absolute when the first slash has nothing before it. -/
theorem isAbsolute_iff_splitOn (p : Path) :
    isAbsolute p = true ↔ ∃ next rest, p.splitOn slash = [] :: next :: rest := by
  cases p with
  | nil => simp [isAbsolute]
  | cons b rest =>
    obtain ⟨head, tail, shape⟩ := List.exists_cons_of_ne_nil (List.splitOn_ne_nil slash rest)
    rw [List.splitOn_cons_eq_if_modifyHead, shape]
    by_cases same : b = slash <;> simp [isAbsolute, same]

theorem splitOn_genericString {p : Path} (named : names p ≠ []) :
    (genericString p).splitOn slash = pieces p := by
  rw [genericString, if_neg named]
  apply List.splitOn_intercalate
  · intro s member
    have cases : s = [] ∨ s ∈ names p := by
      rcases trailing_cases p with ends | ends <;> by_cases rooted : isAbsolute p <;>
        simp [pieces, ends, rooted] at member <;> tauto
    rcases cases with rfl | inside
    · simp
    · exact (names_plain inside).1
  · simp [pieces, named]

theorem components_genericString (p : Path) : components (genericString p) = components p := by
  by_cases named : names p = []
  · have bare : trailing p = [] := by simp [trailing, named]
    by_cases rooted : isAbsolute p
    · have text : genericString p = [slash] := by simp [genericString, named, rooted]
      simp only [text, components, named, rooted, bare]
      decide
    · have text : genericString p = [] := by simp [genericString, named, rooted]
      simp only [text, components, named, rooted, bare]
      decide
  · have split := splitOn_genericString named
    have filled : (names p).filter (fun s => !s.isEmpty) = names p := by
      rw [List.filter_eq_self]
      intro s member
      simpa using (names_plain member).2
    have sameNames : names (genericString p) = names p := by
      rw [names, split, pieces]
      rcases trailing_cases p with ends | ends <;> by_cases rooted : isAbsolute p <;>
        simp [ends, rooted, filled]
    obtain ⟨first, rest, shape⟩ := List.exists_cons_of_ne_nil named
    have plain : ∀ s ∈ first :: rest, s ≠ [] := fun s member => (names_plain (shape ▸ member)).2
    have sameRoot : isAbsolute (genericString p) = isAbsolute p := by
      rw [Bool.eq_iff_iff, isAbsolute_iff_splitOn, split, pieces, shape]
      by_cases rooted : isAbsolute p
      · simp [rooted]
      · simp [rooted, plain first (List.mem_cons_self ..)]
    have sameFile : filename (genericString p) = [] ↔ filename p = [] := by
      rw [filename_eq_nil_iff named, filename, split, pieces]
      rcases trailing_cases p with ends | ends
      · have last : (first :: rest).getLast (by simp) ≠ [] := plain _ (List.getLast_mem _)
        simp [ends, shape, last, List.getLast?_eq_some_getLast]
      · simp [ends, List.getLast?_append]
    simp only [components, trailing, sameNames, sameRoot, sameFile]

/-- A place in the tree: relative to the working directory or to the root. -/
structure Key where
  absolute : Bool
  names : List Path
  deriving DecidableEq, Repr

/-- The kernel sees a path up to its first NUL. -/
def cString (p : Path) : Path := p.takeWhile (· != 0)

def key (p : Path) : Key := ⟨isAbsolute (cString p), names (cString p)⟩

def wantsDirectory (p : Path) : Bool := (cString p).getLast? == some slash

inductive Entry where
  | file (content : List Byte)
  | dir
  deriving DecidableEq, Repr

inductive Access where
  | status
  | openRead
  | size
  | openWrite
  | remove
  | create
  | list
  deriving DecidableEq, Repr

/-- `render` is the table text of ListDirectory, which shows metadata the model does not have. -/
structure Fs where
  files : AList (fun _ : Key => Entry)
  refused : Access → Key → Bool
  render : AList (fun _ : Key => Entry) → Path → List Byte

def Fs.empty : Fs := ⟨∅, fun _ _ => false, fun _ _ => []⟩

def Fs.entry (fs : Fs) (k : Key) : Option Entry :=
  if k.names = [] then (if k.absolute then some .dir else none) else fs.files.lookup k

def Fs.put (fs : Fs) (k : Key) (e : Entry) : Fs := { fs with files := fs.files.insert k e }

def Fs.erase (fs : Fs) (k : Key) : Fs := { fs with files := fs.files.erase k }

/-- What a path names; a file does not answer to a trailing slash. -/
def Fs.stat (fs : Fs) (p : Path) : Option Entry :=
  match fs.entry (key p) with
  | some (.file content) => if wantsDirectory p then none else some (.file content)
  | found => found

def Fs.parentIsDir (fs : Fs) (k : Key) : Bool :=
  k.names.length ≤ 1 || fs.entry ⟨k.absolute, k.names.dropLast⟩ = some .dir

def Key.within (k q : Key) : Bool := k.absolute = q.absolute && k.names.isPrefixOf q.names

def isRegularFile (fs : Fs) (p : Path) : Option Bool :=
  if fs.refused .status (key p) then none
  else match fs.stat p with
    | some (.file _) => some true
    | _ => some false

def pathExists (fs : Fs) (p : Path) : Option Bool :=
  if fs.refused .status (key p) then none else some (fs.stat p).isSome

/-- A regular file stands where the path needs a directory (ENOTDIR). -/
def Fs.belowFile (fs : Fs) (k : Key) : Bool :=
  k.names.dropLast.inits.any fun above =>
    match fs.entry ⟨k.absolute, above⟩ with
    | some (.file _) => true
    | _ => false

/-- std::filesystem::remove: refused for a directory that still has something in it. Nothing to
    remove is no error where the kernel says ENOENT. -/
def remove (fs : Fs) (p : Path) : Option (Bool × Fs) :=
  match fs.entry (key p) with
  | none => if fs.refused .remove (key p) || fs.belowFile (key p) then none else some (false, fs)
  | some e =>
    if fs.refused .remove (key p) || (key p).names = [] then none
    else match e with
      | .file _ => if wantsDirectory p then none else some (true, fs.erase (key p))
      | .dir =>
        if fs.files.keys.any (fun q => (key p).within q && q ≠ key p) then none
        else some (true, fs.erase (key p))

def removeAll (fs : Fs) (p : Path) : Option Fs :=
  match fs.entry (key p) with
  | none => if fs.refused .remove (key p) || fs.belowFile (key p) then none else some fs
  | some e =>
    if fs.refused .remove (key p) then none
    else match e with
      | .file _ => if wantsDirectory p then none else some (fs.erase (key p))
      | .dir => some ((fs.files.keys.filter (key p).within).foldl Fs.erase fs)

/-- std::filesystem::create_directory; nothing happens when the directory is there already. -/
def createDirectory (fs : Fs) (p : Path) : Option (Bool × Fs) :=
  match fs.entry (key p) with
  | some .dir => some (false, fs)
  | some (.file _) => none
  | none =>
    if (key p).names ≠ [] ∧ fs.parentIsDir (key p) ∧ ¬ fs.refused .create (key p) then
      some (true, fs.put (key p) .dir)
    else none

def canOpenOut (fs : Fs) (p : Path) : Bool :=
  (key p).names ≠ [] && !wantsDirectory p && fs.parentIsDir (key p) &&
    fs.entry (key p) ≠ some .dir && !fs.refused .openWrite (key p)

/-- Opens with std::ios::trunc. -/
def openOut (fs : Fs) (p : Path) : Bool × Fs :=
  if canOpenOut fs p then (true, fs.put (key p) (.file [])) else (false, fs)

/-- A write to the file opened last under this path; it goes to the end. -/
def writeOut (fs : Fs) (p : Path) (bytes : List Byte) : Fs :=
  match fs.entry (key p) with
  | some (.file content) => fs.put (key p) (.file (content ++ bytes))
  | _ => fs

/-- A directory can be opened for reading; only the reads fail then. -/
def openIn (fs : Fs) (p : Path) : Bool := (fs.stat p).isSome && !fs.refused .openRead (key p)

/-- std::filesystem::file_size; off_t has 63 bits. -/
def fileSize (fs : Fs) (p : Path) : Option Nat :=
  match fs.stat p with
  | some (.file content) =>
    if fs.refused .size (key p) ∨ 2 ^ 63 ≤ content.length then none else some content.length
  | _ => none

/-- At most `n` bytes from position `pos` of an open file; `none` is a read error. -/
def readIn (fs : Fs) (p : Path) (pos n : Nat) : Option (List Byte) :=
  match fs.stat p with
  | some (.file content) => some ((content.drop pos).take n)
  | _ => none

/-- std::filesystem::copy_file with overwrite_existing. -/
def copyFile (fs : Fs) (p q : Path) : Option Fs :=
  match fs.stat p with
  | some (.file content) =>
    if openIn fs p ∧ key p ≠ key q ∧ canOpenOut fs q then some (fs.put (key q) (.file content))
    else none
  | _ => none

/-- The names in a directory, in iteration order. -/
def listDirectory (fs : Fs) (p : Path) : Option (List Path) :=
  if fs.entry (key p) = some .dir ∧ ¬ fs.refused .list (key p) then
    some (fs.files.keys.filterMap fun q =>
      if q.absolute = (key p).absolute ∧ q.names.dropLast = (key p).names ∧ q.names ≠ [] then
        q.names.getLast?
      else none)
  else none

/-- The text ListDirectory makes of a directory. -/
def directoryTable (fs : Fs) (p : Path) : Option (List Byte) :=
  (listDirectory fs p).map fun _ => fs.render fs.files p

/-- The content of a file that can be opened and measured. -/
def readable (fs : Fs) (p : Path) : Option (List Byte) :=
  match fs.stat p with
  | some (.file content) =>
    if openIn fs p = true ∧ (fileSize fs p).isSome then some content else none
  | _ => none

/-- What opening a destination does: whatever stands in the way is removed, and the file made
    empty; `false` when it cannot be opened. `none` is a refused removal or query. -/
def openDestination (fs : Fs) (p : Path) : Option (Bool × Fs) :=
  (isRegularFile fs p).bind fun regular =>
    ((if regular then some fs else removeAll fs p)).map fun cleared => openOut cleared p

/-- The store after a file has been received whole. -/
def storeFile (fs : Fs) (p : Path) (content : List Byte) : Option Fs :=
  match openDestination fs p with
  | some (true, opened) => some (opened.put (key p) (.file content))
  | _ => none

@[simp] theorem refused_put (fs : Fs) (k : Key) (e : Entry) : (fs.put k e).refused = fs.refused := rfl

@[simp] theorem refused_erase (fs : Fs) (k : Key) : (fs.erase k).refused = fs.refused := rfl

theorem entry_put_self {fs : Fs} {k : Key} {e : Entry} (named : k.names ≠ []) :
    (fs.put k e).entry k = some e := by
  simp [Fs.entry, Fs.put, named]

theorem entry_put_other {fs : Fs} {k q : Key} {e : Entry} (other : q ≠ k) :
    (fs.put k e).entry q = fs.entry q := by
  simp [Fs.entry, Fs.put, AList.lookup_insert_ne other]

theorem put_put (fs : Fs) (k : Key) (e f : Entry) : (fs.put k e).put k f = fs.put k f := by
  simp [Fs.put, AList.insert_insert]

theorem readable_eq_some {fs : Fs} {p : Path} {content : List Byte}
    (holds : readable fs p = some content) :
    openIn fs p = true ∧ fileSize fs p = some content.length ∧ fs.stat p = some (.file content) ∧
      content.length < 2 ^ 63 := by
  unfold readable at holds
  split at holds
  · rename_i inside found
    split at holds
    · rename_i both
      obtain rfl := Option.some.inj holds
      obtain ⟨size, known⟩ := Option.isSome_iff_exists.mp both.2
      have given := known
      simp only [fileSize, found] at given
      split at given
      · exact absurd given (by simp)
      · rename_i bounds
        obtain rfl := Option.some.inj given
        exact ⟨both.1, known, found, by omega⟩
    · exact absurd holds (by simp)
  · exact absurd holds (by simp)

theorem readable_eq_none {fs : Fs} {p : Path} (fails : readable fs p = none) :
    openIn fs p = false ∨ fileSize fs p = none := by
  by_contra both
  obtain ⟨opens, sized⟩ := not_or.mp both
  cases found : fs.stat p with
  | none => simp [fileSize, found] at sized
  | some e =>
    cases e with
    | file content =>
      have some := Option.isSome_iff_ne_none.mpr sized
      simp [readable, found, some] at fails
      exact opens fails
    | dir => simp [fileSize, found] at sized

theorem openDestination_opened {fs opened : Fs} {p : Path}
    (opens : openDestination fs p = some (true, opened)) :
    (key p).names ≠ [] ∧ ∃ cleared : Fs, opened = cleared.put (key p) (.file []) := by
  obtain ⟨regular, _, rest⟩ := Option.bind_eq_some_iff.mp opens
  obtain ⟨cleared, _, result⟩ := Option.map_eq_some_iff.mp rest
  unfold openOut at result
  split at result
  · rename_i can
    obtain rfl := (Prod.mk.inj result).2
    simp only [canOpenOut, Bool.and_eq_true, decide_eq_true_eq] at can
    exact ⟨can.1.1.1.1, cleared, rfl⟩
  · exact absurd (Prod.mk.inj result).1 (by simp)

theorem storeFile_eq_some {fs after : Fs} {p : Path} {content : List Byte}
    (stores : storeFile fs p content = some after) :
    ∃ opened, openDestination fs p = some (true, opened) ∧
      after = opened.put (key p) (.file content) := by
  unfold storeFile at stores
  split at stores
  · rename_i opened opens
    exact ⟨opened, opens, (Option.some.inj stores).symm⟩
  · exact absurd stores (by simp)

theorem writeOut_put {fs : Fs} {p : Path} {content bytes : List Byte} (named : (key p).names ≠ []) :
    writeOut (fs.put (key p) (.file content)) p bytes =
      fs.put (key p) (.file (content ++ bytes)) := by
  rw [writeOut, entry_put_self named]
  exact put_put ..

/-- The same entries; the order in which they are listed may differ. -/
def Fs.Same (fs gs : Fs) : Prop := ∀ k, fs.entry k = gs.entry k

theorem entry_erase {fs : Fs} {k q : Key} :
    (fs.erase q).entry k = if k = q ∧ k.names ≠ [] then none else fs.entry k := by
  by_cases same : k = q
  · subst same
    by_cases named : k.names = [] <;> simp [Fs.entry, Fs.erase, named]
  · simp [Fs.entry, Fs.erase, AList.lookup_erase_ne same, same]

theorem entry_foldl_erase (gone : List Key) (fs : Fs) (k : Key) :
    (gone.foldl Fs.erase fs).entry k = if k ∈ gone ∧ k.names ≠ [] then none else fs.entry k := by
  induction gone generalizing fs with
  | nil => simp
  | cons q gone ih =>
    rw [List.foldl_cons, ih, entry_erase]
    by_cases same : k = q
    · subst same
      by_cases named : k.names = [] <;> simp [named]
    · simp [same]

/-- What stands in the tree after a destination has been cleared. -/
def afterClearing (fs : Fs) (p : Path) (k : Key) : Option Entry :=
  if fs.entry (key p) = some .dir ∧ (key p).within k ∧ k.names ≠ [] then none else fs.entry k

theorem removeAll_absent {fs cleared : Fs} {p : Path} (absent : fs.entry (key p) = none)
    (clearing : removeAll fs p = some cleared) : cleared = fs := by
  rw [removeAll, absent] at clearing
  exact (Option.some.inj (Option.ite_none_left_eq_some.mp clearing).2).symm

theorem remove_absent {fs after : Fs} {p : Path} {removed : Bool}
    (absent : fs.entry (key p) = none) (removing : remove fs p = some (removed, after)) :
    removed = false ∧ after = fs := by
  rw [remove, absent] at removing
  obtain ⟨rfl, rfl⟩ := Prod.mk.inj (Option.some.inj (Option.ite_none_left_eq_some.mp removing).2)
  exact ⟨rfl, rfl⟩

theorem removeAll_directory {fs cleared : Fs} {p : Path} (found : fs.entry (key p) = some .dir)
    (clearing : removeAll fs p = some cleared) (k : Key) : cleared.entry k = afterClearing fs p k := by
  unfold removeAll at clearing
  rw [found] at clearing
  by_cases refused : fs.refused .remove (key p)
  · simp [refused] at clearing
  · simp only [refused, Bool.false_eq_true, if_false, Option.some.injEq] at clearing
    subst clearing
    rw [entry_foldl_erase, afterClearing, found]
    by_cases named : k.names = []
    · simp [named]
    · by_cases stored : k ∈ fs.files.keys
      · simp [named, stored]
      · have absent : fs.entry k = none := by
          rw [Fs.entry, if_neg named]
          exact AList.lookup_eq_none.mpr stored
        simp [named, stored, absent]

theorem openDestination_cleared {fs opened : Fs} {p : Path} {ok : Bool}
    (opens : openDestination fs p = some (ok, opened)) :
    ∃ cleared, openOut cleared p = (ok, opened) ∧ ∀ k, cleared.entry k = afterClearing fs p k := by
  obtain ⟨regular, asked, rest⟩ := Option.bind_eq_some_iff.mp opens
  obtain ⟨cleared, clearing, result⟩ := Option.map_eq_some_iff.mp rest
  refine ⟨cleared, result, ?_⟩
  have kind : regular = true ↔ ∃ content, fs.stat p = some (.file content) := by
    unfold isRegularFile at asked
    split at asked
    · exact absurd asked (by simp)
    · split at asked
      · rename_i content found
        simp [found, ← Option.some.inj asked]
      · rename_i other
        simp only [← Option.some.inj asked, Bool.false_eq_true, false_iff]
        exact fun found => other _ found.choose_spec
  have nothing : fs.entry (key p) ≠ some .dir → ∀ k, afterClearing fs p k = fs.entry k :=
    fun other k => if_neg fun all => other all.1
  cases found : fs.entry (key p) with
  | none =>
    have same : cleared = fs := by
      cases regular with
      | true => simpa [eq_comm] using clearing
      | false => exact removeAll_absent found (by simpa using clearing)
    subst same
    exact fun k => (nothing (by simp [found]) k).symm
  | some e =>
    cases e with
    | dir =>
      cases regular with
      | true =>
        obtain ⟨content, file⟩ := kind.mp rfl
        simp [Fs.stat, found] at file
      | false => exact removeAll_directory found (by simpa using clearing)
    | file content =>
      have same : cleared = fs := by
        cases regular with
        | true => simpa [eq_comm] using clearing
        | false =>
          by_cases slashed : wantsDirectory p
          · simp [removeAll, found, slashed] at clearing
          · have file : fs.stat p = some (.file content) := by simp [Fs.stat, found, slashed]
            exact absurd (kind.mpr ⟨content, file⟩) (by simp)
      subst same
      exact fun k => (nothing (by simp [found]) k).symm

theorem openDestination_closed {fs opened : Fs} {p : Path}
    (closed : openDestination fs p = some (false, opened)) (k : Key) :
    opened.entry k = afterClearing fs p k := by
  obtain ⟨cleared, result, entries⟩ := openDestination_cleared closed
  unfold openOut at result
  split at result
  · exact absurd (Prod.mk.inj result).1 (by simp)
  · obtain rfl := (Prod.mk.inj result).2
    exact entries k

theorem openDestination_put {fs opened : Fs} {p : Path} (content : List Byte)
    (opens : openDestination fs p = some (true, opened)) (k : Key) :
    (opened.put (key p) (.file content)).entry k =
      if k = key p then some (.file content) else afterClearing fs p k := by
  have named := (openDestination_opened opens).1
  obtain ⟨cleared, result, entries⟩ := openDestination_cleared opens
  unfold openOut at result
  split at result
  · obtain rfl := (Prod.mk.inj result).2
    rw [put_put]
    by_cases same : k = key p
    · rw [if_pos same, same, entry_put_self named]
    · rw [if_neg same, entry_put_other same, entries]
  · exact absurd (Prod.mk.inj result).1 (by simp)

theorem remove_entry {fs after : Fs} {p : Path} {removed : Bool}
    (removing : remove fs p = some (removed, after)) (k : Key) :
    after.entry k = if k = key p then none else fs.entry k := by
  by_cases absent : fs.entry (key p) = none
  · rw [(remove_absent absent removing).2]
    by_cases same : k = key p
    · rw [if_pos same, same, absent]
    · rw [if_neg same]
  unfold remove at removing
  split at removing
  · exact absurd ‹_› absent
  · split at removing
    · exact absurd removing (by simp)
    · rename_i allowed
      have named : (key p).names ≠ [] := by
        intro empty
        exact allowed (by simp [empty])
      have after_eq : after = fs.erase (key p) := by
        split at removing <;> split at removing <;> simp_all
      rw [after_eq, entry_erase]
      by_cases same : k = key p
      · simp [same, named]
      · simp [same]

theorem createDirectory_eq_some {fs after : Fs} {p : Path} {made : Bool}
    (creates : createDirectory fs p = some (made, after)) :
    made = false ∧ after = fs ∨ made = true ∧ after = fs.put (key p) .dir ∧
      fs.entry (key p) = none ∧ (key p).names ≠ [] := by
  unfold createDirectory at creates
  split at creates
  · obtain ⟨rfl, rfl⟩ := Prod.mk.inj (Option.some.inj creates)
    exact .inl ⟨rfl, rfl⟩
  · exact absurd creates (by simp)
  · rename_i absent
    split at creates
    · rename_i can
      obtain ⟨rfl, rfl⟩ := Prod.mk.inj (Option.some.inj creates)
      exact .inr ⟨rfl, rfl, absent, can.1⟩
    · exact absurd creates (by simp)

end DropboxFileStore
