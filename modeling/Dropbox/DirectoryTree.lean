import Mathlib.Data.List.Induction
import Mathlib.Data.List.Infix
import Dropbox.FileStore

/-!
Where a path leads when a name is appended to it or when it is sent in generic format,
and stores that are trees: every entry stands in a directory and has a name the kernel
can keep there.
-/
namespace DropboxDirectoryTree
open DropboxFileStore

def Plain (name : Path) : Prop := name ≠ [] ∧ slash ∉ name ∧ 0 ∉ name

instance (name : Path) : Decidable (Plain name) :=
  inferInstanceAs (Decidable (name ≠ [] ∧ slash ∉ name ∧ 0 ∉ name))

theorem cString_eq {p : Path} (ends : 0 ∉ p) : cString p = p := by
  have kept : ∀ b ∈ p, (b != 0) = true := by
    intro b inside
    have apart : b ≠ 0 := by
      rintro rfl
      exact ends inside
    simpa using apart
  have whole : (p ++ []).takeWhile (· != 0) = p ++ [].takeWhile (· != 0) :=
    List.takeWhile_append_of_pos kept
  simpa [cString] using whole

theorem key_eq {p : Path} (ends : 0 ∉ p) : key p = ⟨isAbsolute p, names p⟩ := by
  rw [key, cString_eq ends]

theorem filename_nil_ends {p : Path} (bare : filename p = []) :
    p = [] ∨ ∃ init, p = init ++ [slash] := by
  induction p with
  | nil => exact Or.inl rfl
  | cons b rest ih =>
    right
    obtain ⟨head, tail, shape⟩ := List.exists_cons_of_ne_nil (List.splitOn_ne_nil slash rest)
    rw [filename, List.splitOn_cons_eq_if_modifyHead, shape] at bare
    have later : rest ≠ [] → filename rest = [] → ∃ init, b :: rest = init ++ [slash] := by
      intro more none_left
      rcases ih none_left with empty | ⟨init, same⟩
      · exact absurd empty more
      · exact ⟨b :: init, by rw [same, List.cons_append]⟩
    by_cases same : b = slash
    · by_cases alone : rest = []
      · exact ⟨[], by rw [same, alone, List.nil_append]⟩
      · refine later alone ?_
        rw [filename, shape]
        simpa [same] using bare
    · have off : (b == slash) = false := by simpa using same
      rw [off] at bare
      cases tail with
      | nil => simp at bare
      | cons next tail =>
        refine later ?_ ?_
        · rintro rfl
          simp at shape
        · rw [filename, shape]
          simpa using bare

theorem splitOn_plain {name : Path} (plain : Plain name) : name.splitOn slash = [name] :=
  List.splitOn_eq_singleton plain.2.1

theorem names_plain_name {name : Path} (plain : Plain name) : names name = [name] := by
  rw [names, splitOn_plain plain]
  simp [plain.1]

theorem filename_plain {name : Path} (plain : Plain name) : filename name = name := by
  rw [filename, splitOn_plain plain]
  rfl

theorem names_cons_ne_nil {b : Byte} {rest : Path} (other : b ≠ slash) : names (b :: rest) ≠ [] := by
  obtain ⟨head, tail, shape⟩ := List.exists_cons_of_ne_nil (List.splitOn_ne_nil slash rest)
  have off : (b == slash) = false := by simpa using other
  rw [names, List.splitOn_cons_eq_if_modifyHead, shape, off]
  simp

theorem names_append_slash (p q : Path) : names (p ++ slash :: q) = names p ++ names q := by
  rw [names, List.splitOn_append_cons_self, List.filter_append, names, names]

theorem filename_append_slash (p q : Path) : filename (p ++ slash :: q) = filename q := by
  have rest := List.splitOn_ne_nil slash q
  rw [filename, List.splitOn_append_cons_self, List.getLast?_append_of_ne_nil _ rest, filename]

theorem relative_plain {name : Path} (plain : Plain name) : isAbsolute name = false := by
  obtain ⟨filled, unbroken, _⟩ := plain
  cases name with
  | nil => exact absurd rfl filled
  | cons b rest =>
    have apart : b ≠ slash := by
      rintro rfl
      exact unbroken List.mem_cons_self
    simpa [isAbsolute] using apart

/-- Appending a name puts exactly one slash before it. -/
theorem joinPath_plain {p name : Path} (filled : p ≠ []) (plain : Plain name) :
    ∃ front, joinPath p name = front ++ slash :: name ∧ names front = names p ∧
      isAbsolute (front ++ slash :: name) = isAbsolute p := by
  rw [joinPath, relative_plain plain, if_neg Bool.false_ne_true]
  by_cases bare : filename p = []
  · rw [if_pos bare]
    obtain empty | ⟨init, rfl⟩ := filename_nil_ends bare
    · exact absurd empty filled
    · refine ⟨init, by simp, ?_, ?_⟩
      · rw [names_append_slash]
        simp [names]
      · cases init <;> rfl
  · rw [if_neg bare]
    refine ⟨p, rfl, rfl, ?_⟩
    cases p with
    | nil => exact absurd rfl filled
    | cons b rest => rfl

theorem zero_not_mem_joinPath {p name : Path} (ends : 0 ∉ p) (plain : Plain name) :
    0 ∉ joinPath p name := by
  rw [joinPath, relative_plain plain, if_neg Bool.false_ne_true]
  split
  · simp [ends, plain.2.2]
  · have apart : (0 : Byte) ≠ slash := by decide
    simp [ends, plain.2.2, apart]

/-- The place below the directory of a path. -/
def child (p : Path) (below : List Path) : Key := ⟨(key p).absolute, (key p).names ++ below⟩

theorem key_joinPath {p name : Path} (filled : p ≠ []) (ends : 0 ∉ p) (plain : Plain name) :
    key (joinPath p name) = child p [name] := by
  obtain ⟨front, shape, sameNames, sameRoot⟩ := joinPath_plain filled plain
  rw [child, key_eq (zero_not_mem_joinPath ends plain), key_eq ends, shape, names_append_slash, sameNames,
    sameRoot, names_plain_name plain]

theorem names_joinPath {p name : Path} (filled : p ≠ []) (plain : Plain name) :
    names (joinPath p name) = names p ++ [name] := by
  obtain ⟨front, shape, sameNames, _⟩ := joinPath_plain filled plain
  rw [shape, names_append_slash, sameNames, names_plain_name plain]

theorem filename_joinPath {p name : Path} (filled : p ≠ []) (plain : Plain name) :
    filename (joinPath p name) = name := by
  obtain ⟨front, shape, _⟩ := joinPath_plain filled plain
  rw [shape, filename_append_slash, filename_plain plain]

theorem names_eq_filter (p : Path) :
    names p = (components p).filter fun s => s ≠ [] ∧ s ≠ [slash] := by
  have kept : (names p).filter (fun s => s ≠ [] ∧ s ≠ [slash]) = names p := by
    rw [List.filter_eq_self]
    intro s member
    obtain ⟨unbroken, filled⟩ := names_plain member
    have apart : s ≠ [slash] := by
      rintro rfl
      exact unbroken (List.mem_singleton.mpr rfl)
    simp [filled, apart]
  rw [components, List.filter_append, List.filter_append, kept]
  rcases trailing_cases p with alone | alone <;> by_cases rooted : isAbsolute p <;>
    simp [alone, rooted]

theorem isAbsolute_iff_components (p : Path) : isAbsolute p = true ↔ [slash] ∈ components p := by
  have other : [slash] ∉ names p := fun member =>
    (names_plain member).1 (List.mem_singleton.mpr rfl)
  rcases trailing_cases p with alone | alone <;> by_cases rooted : isAbsolute p <;>
    simp [components, alone, rooted, other]

theorem trailing_iff_components (p : Path) : trailing p = [[]] ↔ [] ∈ components p := by
  have other : [] ∉ names p := fun member => (names_plain member).2 rfl
  rcases trailing_cases p with alone | alone <;> by_cases rooted : isAbsolute p <;>
    simp [components, alone, rooted, other]

theorem names_genericString (p : Path) : names (genericString p) = names p := by
  rw [names_eq_filter, components_genericString, ← names_eq_filter]

theorem isAbsolute_genericString (p : Path) : isAbsolute (genericString p) = isAbsolute p := by
  rw [Bool.eq_iff_iff, isAbsolute_iff_components, components_genericString,
    ← isAbsolute_iff_components]

theorem mem_of_mem_splitOn {p s : Path} {b : Byte} (member : s ∈ p.splitOn slash) (inside : b ∈ s) :
    b ∈ p := by
  induction p generalizing s with
  | nil =>
    rw [List.splitOn_nil, List.mem_singleton] at member
    rwa [member] at inside
  | cons c rest ih =>
    rw [List.splitOn_cons_eq_if_modifyHead] at member
    split at member
    · rcases List.mem_cons.mp member with rfl | later
      · cases inside
      · exact List.mem_cons_of_mem _ (ih later inside)
    · obtain ⟨head, tail, shape⟩ := List.exists_cons_of_ne_nil (List.splitOn_ne_nil slash rest)
      rw [shape, List.modifyHead_cons] at member
      rw [shape] at ih
      rcases List.mem_cons.mp member with rfl | later
      · rcases List.mem_cons.mp inside with rfl | deeper
        · exact List.mem_cons_self
        · exact List.mem_cons_of_mem _ (ih List.mem_cons_self deeper)
      · exact List.mem_cons_of_mem _ (ih (List.mem_cons_of_mem _ later) inside)

theorem mem_of_mem_intercalate {pieces : List Path} {b : Byte}
    (inside : b ∈ [slash].intercalate pieces) : b = slash ∨ ∃ s ∈ pieces, b ∈ s := by
  induction pieces with
  | nil => cases inside
  | cons s rest ih =>
    cases rest with
    | nil =>
      rw [List.intercalate_singleton] at inside
      exact Or.inr ⟨s, List.mem_cons_self, inside⟩
    | cons next rest =>
      rw [List.intercalate_cons_cons, List.mem_append, List.mem_append, List.mem_singleton] at inside
      rcases inside with (first | same) | later
      · exact Or.inr ⟨s, List.mem_cons_self, first⟩
      · exact Or.inl same
      · rcases ih later with same | ⟨s', member, deeper⟩
        · exact Or.inl same
        · exact Or.inr ⟨s', List.mem_cons_of_mem _ member, deeper⟩

theorem key_names_plain (p : Path) : ∀ name ∈ (key p).names, Plain name := by
  intro name member
  obtain ⟨unbroken, filled⟩ := names_plain member
  refine ⟨filled, unbroken, fun inside => ?_⟩
  have kept := mem_of_mem_splitOn (List.mem_filter.mp member).1 inside
  have apart := List.all_eq_true.mp List.all_takeWhile 0 kept
  simp at apart

theorem zero_not_mem_genericString {p : Path} (ends : 0 ∉ p) : 0 ∉ genericString p := by
  have apart : (0 : Byte) ≠ slash := by decide
  have outside : ∀ s ∈ pieces p, 0 ∉ s := by
    intro s member inside
    have kinds : s = [] ∨ s ∈ names p := by
      rcases trailing_cases p with alone | alone <;> by_cases rooted : isAbsolute p <;>
        simp [pieces, alone, rooted] at member <;> tauto
    rcases kinds with rfl | named
    · cases inside
    · exact ends (mem_of_mem_splitOn (List.mem_filter.mp named).1 inside)
  rw [genericString]
  split
  · split
    · simpa using apart
    · simp
  · intro inside
    rcases mem_of_mem_intercalate inside with same | ⟨s, member, deeper⟩
    · exact apart same
    · exact outside s member deeper

theorem key_genericString {p : Path} (ends : 0 ∉ p) : key (genericString p) = key p := by
  rw [key_eq (zero_not_mem_genericString ends), key_eq ends, names_genericString,
    isAbsolute_genericString]

theorem wantsDirectory_of_filename {p : Path} (ends : 0 ∉ p) (filled : filename p ≠ []) :
    wantsDirectory p = false := by
  rw [wantsDirectory, cString_eq ends]
  by_contra slashed
  have last : p.getLast? = some slash := by simpa using slashed
  obtain ⟨init, rfl⟩ := List.getLast?_eq_some_iff.mp last
  rw [filename_append_slash] at filled
  exact filled rfl

theorem filename_genericString {p : Path} (named : names p ≠ []) (filled : filename p ≠ []) :
    filename (genericString p) ≠ [] := by
  have same := names_genericString p
  rw [Ne, filename_eq_nil_iff (by rwa [same]), trailing_iff_components, components_genericString,
    ← trailing_iff_components, ← filename_eq_nil_iff named]
  exact filled

/-- Every entry has a name the kernel can keep, and stands in a directory. -/
def TreeShaped (fs : Fs) : Prop :=
  ∀ k e, fs.entry k = some e → k.names ≠ [] →
    (∀ name ∈ k.names, Plain name) ∧ fs.parentIsDir k = true

theorem child_nil (p : Path) : child p [] = key p := by
  rw [child, List.append_nil]

theorem within_child {p name : Path} {below : List Path} :
    (child p [name]).within (child p below) = true ↔ below.head? = some name := by
  simp only [child, Key.within, decide_true, Bool.true_and, List.isPrefixOf_iff_prefix,
    List.prefix_append_right_inj]
  cases below with
  | nil => simp
  | cons first rest => simp [eq_comm]

theorem within_iff {k q : Key} : k.within q = true ↔ ∃ below, q = ⟨k.absolute, k.names ++ below⟩ := by
  obtain ⟨rooted, ns⟩ := q
  simp only [Key.within, Bool.and_eq_true, decide_eq_true_eq, List.isPrefixOf_iff_prefix]
  constructor
  · rintro ⟨rfl, below, rfl⟩
    exact ⟨below, rfl⟩
  · rintro ⟨below, same⟩
    obtain ⟨rfl, rfl⟩ := Key.mk.inj same
    exact ⟨rfl, below, rfl⟩

theorem directory_above {fs : Fs} (tree : TreeShaped fs) {rooted : Bool} {above below : List Path}
    (named : above ≠ []) (deeper : below ≠ []) (there : fs.entry ⟨rooted, above ++ below⟩ ≠ none) :
    fs.entry ⟨rooted, above⟩ = some .dir := by
  induction below using List.reverseRecOn with
  | nil => exact absurd rfl deeper
  | append_singleton front last ih =>
    obtain ⟨e, found⟩ := Option.ne_none_iff_exists'.mp there
    have parent := (tree _ e found (by simp)).2
    have long : 0 < above.length := List.length_pos_iff.mpr named
    rw [Fs.parentIsDir] at parent
    have shape : (above ++ (front ++ [last])).dropLast = above ++ front := by
      rw [← List.append_assoc, List.dropLast_concat]
    simp only [shape, Bool.or_eq_true, decide_eq_true_eq, List.length_append,
      List.length_singleton] at parent
    have dir : fs.entry ⟨rooted, above ++ front⟩ = some .dir := parent.resolve_left (by omega)
    by_cases only : front = []
    · rwa [only, List.append_nil] at dir
    · exact ih only (by simp [dir])

/-- No file stands above what is in a directory. -/
theorem not_belowFile {fs : Fs} {k : Key} (tree : TreeShaped fs)
    (parent : fs.parentIsDir k = true) :
    fs.belowFile k = false := by
  rw [Fs.belowFile, List.any_eq_false]
  intro above member
  obtain ⟨below, shape⟩ := (List.mem_inits above _).mp member
  suffices other : ∀ content, fs.entry ⟨k.absolute, above⟩ ≠ some (.file content) by
    split <;> simp_all
  intro content found
  have named : above ≠ [] := by
    rintro rfl
    rw [Fs.entry, if_pos rfl] at found
    split at found <;> cases found
  have longer : ¬ k.names.length ≤ 1 := by
    intro short
    have empty : k.names.dropLast = [] := List.length_eq_zero_iff.mp (by simp; omega)
    rw [empty] at shape
    exact named (List.append_eq_nil_iff.mp shape).1
  rw [Fs.parentIsDir, Bool.or_eq_true, decide_eq_true_eq, decide_eq_true_eq] at parent
  have dir := parent.resolve_left longer
  rw [← shape] at dir
  by_cases here : below = []
  · rw [here, List.append_nil, found] at dir
    cases dir
  · rw [directory_above tree named here (by simp [dir])] at found
    cases found

/-- There is nothing below what is not a directory. -/
theorem nothing_below {fs : Fs} {k q : Key} (tree : TreeShaped fs) (named : q.names ≠ [])
    (other : fs.entry q ≠ some .dir) (inside : q.within k = true) (apart : k ≠ q) :
    fs.entry k = none := by
  obtain ⟨below, rfl⟩ := within_iff.mp inside
  by_contra there
  refine other (directory_above tree named ?_ there)
  rintro rfl
  exact apart (by rw [List.append_nil])

/-- remove_all takes away a whole part of the tree. -/
theorem removeAll_entry {fs cleared : Fs} {p : Path} (tree : TreeShaped fs) (named : (key p).names ≠ [])
    (clearing : removeAll fs p = some cleared) (k : Key) :
    cleared.entry k = if (key p).within k then none else fs.entry k := by
  cases found : fs.entry (key p) with
  | none =>
    obtain rfl := removeAll_absent found clearing
    by_cases inside : (key p).within k
    · rw [if_pos inside]
      by_cases here : k = key p
      · rw [here, found]
      · exact nothing_below tree named (by simp [found]) inside here
    · rw [if_neg inside]
  | some e =>
    cases e with
    | dir =>
      have dropped := removeAll_directory found clearing k
      rw [afterClearing] at dropped
      rw [dropped]
      by_cases inside : (key p).within k
      · obtain ⟨below, rfl⟩ := within_iff.mp inside
        simp [found, inside, named]
      · simp [inside]
    | file content =>
      simp only [removeAll, found] at clearing
      split at clearing
      · cases clearing
      · split at clearing
        · cases clearing
        · cases clearing
          rw [entry_erase]
          by_cases here : k = key p
          · have inside : (key p).within (key p) = true := within_iff.mpr ⟨[], by simp⟩
            rw [here, if_pos ⟨rfl, named⟩, if_pos inside]
          · rw [if_neg fun both => here both.1]
            by_cases inside : (key p).within k
            · rw [if_pos inside, nothing_below tree named (by simp [found]) inside here]
            · rw [if_neg inside]

/-- Taking away a whole part leaves a tree. -/
theorem tree_of_part {fs cleared : Fs} {k : Key} (tree : TreeShaped fs)
    (entries : ∀ q, q.names ≠ [] → cleared.entry q = if k.within q then none else fs.entry q)
    (rest : ∀ q, q.names = [] → cleared.entry q = fs.entry q) : TreeShaped cleared := by
  intro q e found filled
  rw [entries q filled] at found
  split at found
  · cases found
  · rename_i outside
    obtain ⟨plain, parent⟩ := tree q e found filled
    refine ⟨plain, ?_⟩
    rw [Fs.parentIsDir] at parent ⊢
    by_cases top : q.names.dropLast = []
    · rwa [rest _ top]
    · rw [entries _ top, if_neg]
      · exact parent
      · intro inside
        obtain ⟨below, same⟩ := within_iff.mp inside
        obtain ⟨rooted, shape⟩ := Key.mk.inj same
        refine outside (within_iff.mpr ⟨below ++ [q.names.getLast filled], ?_⟩)
        rw [← List.append_assoc, ← shape, List.dropLast_concat_getLast, ← rooted]

theorem removeAll_tree {fs cleared : Fs} {p : Path} (tree : TreeShaped fs)
    (clearing : removeAll fs p = some cleared) : TreeShaped cleared := by
  by_cases named : (key p).names = []
  · cases found : fs.entry (key p) with
    | none =>
      obtain rfl := removeAll_absent found clearing
      exact tree
    | some e =>
      have dir : fs.entry (key p) = some .dir := by
        rw [Fs.entry, if_pos named] at found ⊢
        split at found
        · rename_i rooted
          rw [if_pos rooted]
        · cases found
      refine tree_of_part (k := key p) tree (fun q filled => ?_) fun q bare => ?_
      · rw [removeAll_directory dir clearing, afterClearing]
        simp [dir, filled]
      · rw [removeAll_directory dir clearing, afterClearing]
        simp [bare]
  · refine tree_of_part (k := key p) tree (fun q _ => removeAll_entry tree named clearing q) ?_
    intro q bare
    rw [removeAll_entry tree named clearing, if_neg]
    intro inside
    obtain ⟨below, same⟩ := within_iff.mp inside
    obtain ⟨_, shape⟩ := Key.mk.inj same
    rw [bare] at shape
    exact named (List.append_eq_nil_iff.mp shape.symm).1

theorem empty_tree : TreeShaped .empty := by
  intro k e found named
  rw [Fs.entry, if_neg named] at found
  cases found

/-- A new entry, or one in the place of a file, in a directory that is there. -/
theorem put_tree {fs : Fs} {k : Key} (e : Entry) (tree : TreeShaped fs)
    (plain : ∀ name ∈ k.names, Plain name) (free : fs.entry k ≠ some .dir)
    (parent : fs.parentIsDir k = true) : TreeShaped (fs.put k e) := by
  have parents : ∀ q, fs.parentIsDir q = true → (fs.put k e).parentIsDir q = true := by
    intro q above
    rw [Fs.parentIsDir, Bool.or_eq_true, decide_eq_true_eq, decide_eq_true_eq] at above ⊢
    rcases above with short | dir
    · exact Or.inl short
    · have apart : (⟨q.absolute, q.names.dropLast⟩ : Key) ≠ k := by
        intro same
        exact free (same ▸ dir)
      exact Or.inr (by rwa [entry_put_other apart])
  intro q f found named
  by_cases same : q = k
  · subst same
    exact ⟨plain, parents q parent⟩
  · rw [entry_put_other same] at found
    obtain ⟨plain', above⟩ := tree q f found named
    exact ⟨plain', parents q above⟩

theorem mem_listDirectory {fs : Fs} {p name : Path} {listed : List Path}
    (lists : listDirectory fs p = some listed) :
    name ∈ listed ↔ fs.entry (child p [name]) ≠ none := by
  unfold listDirectory at lists
  split at lists
  · cases lists
    rw [List.mem_filterMap, Fs.entry, child, if_neg (by simp), Ne, AList.lookup_eq_none,
      not_not]
    constructor
    · rintro ⟨q, stored, chosen⟩
      simp only [Option.ite_none_right_eq_some] at chosen
      obtain ⟨⟨rooted, above, _⟩, last⟩ := chosen
      have shape : q.names = (key p).names ++ [name] := by
        rw [← above]
        exact (List.dropLast_append_getLast? name last).symm
      have same : q = ⟨(key p).absolute, (key p).names ++ [name]⟩ := by rw [← rooted, ← shape]
      rwa [← same]
    · intro stored
      exact ⟨_, stored, by simp⟩
  · cases lists

theorem listed_plain {fs : Fs} {p : Path} {listed : List Path} (tree : TreeShaped fs)
    (lists : listDirectory fs p = some listed) : ∀ name ∈ listed, Plain name := by
  intro name member
  obtain ⟨e, found⟩ := Option.ne_none_iff_exists'.mp ((mem_listDirectory lists).mp member)
  exact (tree _ e found (by simp [child])).1 name (by simp [child])

theorem stat_eq_entry {fs : Fs} {p : Path} (plainly : wantsDirectory p = false) :
    fs.stat p = fs.entry (key p) := by
  unfold Fs.stat
  split
  · rename_i content found
    rw [plainly, if_neg Bool.false_ne_true, found]
  · rfl

theorem refused_foldl_erase (gone : List Key) (fs : Fs) :
    (gone.foldl Fs.erase fs).refused = fs.refused := by
  induction gone generalizing fs with
  | nil => rfl
  | cons k gone ih => rw [List.foldl_cons, ih, refused_erase]

theorem readable_entry {fs : Fs} {p name : Path} {content : List Byte} (filled : p ≠ [])
    (ends : 0 ∉ p) (plain : Plain name) (holds : readable fs (joinPath p name) = some content) :
    fs.entry (child p [name]) = some (.file content) := by
  have bare : filename (joinPath p name) ≠ [] := by
    rw [filename_joinPath filled plain]
    exact plain.1
  obtain ⟨_, _, found, _⟩ := readable_eq_some holds
  rwa [stat_eq_entry (wantsDirectory_of_filename (zero_not_mem_joinPath ends plain) bare),
    key_joinPath filled ends plain] at found

theorem removeAll_allowed {fs : Fs} {p : Path} (allowed : ∀ a k, fs.refused a k = false)
    (plainly : wantsDirectory p = false) (clear : fs.belowFile (key p) = false) :
    ∃ cleared, removeAll fs p = some cleared ∧ cleared.refused = fs.refused := by
  unfold removeAll
  rw [allowed, plainly, clear]
  cases fs.entry (key p) with
  | none => exact ⟨fs, rfl, rfl⟩
  | some e =>
    cases e with
    | file content => exact ⟨_, rfl, refused_erase fs (key p)⟩
    | dir => exact ⟨_, rfl, refused_foldl_erase _ fs⟩

/-- A file can be received into a directory where nothing is refused. -/
theorem storeFile_allowed {fs : Fs} {p : Path} (content : List Byte)
    (allowed : ∀ a k, fs.refused a k = false) (named : (key p).names ≠ [])
    (plainly : wantsDirectory p = false) (tree : TreeShaped fs)
    (parent : fs.parentIsDir (key p) = true) (free : fs.entry (key p) ≠ some .dir) :
    storeFile fs p content = some (fs.put (key p) (.file content)) := by
  have can : canOpenOut fs p = true := by
    simp [canOpenOut, named, plainly, parent, free, allowed]
  have opens : openDestination fs p = some (true, fs.put (key p) (.file [])) := by
    rw [openDestination, isRegularFile, allowed, if_neg Bool.false_ne_true, stat_eq_entry plainly]
    cases found : fs.entry (key p) with
    | none =>
      have clear := not_belowFile tree parent
      simp [removeAll, found, allowed, clear, openOut, can]
    | some e =>
      cases e with
      | dir => exact absurd found free
      | file old => simp [openOut, can]
  rw [storeFile, opens]
  simp only [put_put]

end DropboxDirectoryTree
