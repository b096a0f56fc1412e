import Dropbox.HandlerCalls

/-!
What a call on the files sees. A call whose paths lie inside the directory of a user reads
only what stands there, so that stores with the same entries in it answer alike and change
alike, whatever the other directories hold.
-/
namespace DropboxLocalCalls
open DropboxFileStore DropboxDirectoryTree DropboxHost DropboxFileTouches DropboxProtocol
open DropboxHandlerCalls
variable {username : List Byte}

abbrev Files := AList (fun _ : Key => Entry)

def directory (username : List Byte) : Key := key (syncDirWithPrefix username)

/-- The entries in the directory of the user, in the order in which they are stored. -/
def part (username : List Byte) (files : Files) : List ((_ : Key) × Entry) :=
  files.entries.filter fun e => (directory username).within e.1

/-- The same in every way that the user's handlers can see. -/
structure Agree (username : List Byte) (fs gs : Fs) : Prop where
  refused : fs.refused = gs.refused
  tables : fs.render = gs.render
  entries : part username fs.files = part username gs.files

/-- The table of a directory shows what is in it. -/
def TablesLocal (render : Files → Path → List Byte) : Prop :=
  ∀ (files others : Files) p, (files.entries.filter fun e => (key p).within e.1) =
    (others.entries.filter fun e => (key p).within e.1) → render files p = render others p

/-- The path names nothing, or something strictly inside the directory. -/
def Within (username : List Byte) (p : Path) : Prop :=
  key p = ⟨false, []⟩ ∨ Below username (key p)

def Local (username : List Byte) : FileCall → Prop
  | .isRegularFile p | .pathExists p | .remove p | .removeAll p | .createDirectory p | .openOut p
  | .writeOut p _ | .openIn p | .fileSize p | .readIn p _ _ => Within username p
  | .copyFile p q => Within username p ∧ Within username q
  | .listDirectory p | .directoryTable p => (directory username).within (key p) = true

section lists
variable (within : Key → Bool) (k : Key) (l : List ((_ : Key) × Entry))

theorem dlookup_filter (inside : within k = true) :
    (l.filter fun e => within e.1).dlookup k = l.dlookup k := by
  induction l with
  | nil => rfl
  | cons e rest ih =>
    by_cases same : k = e.1
    · obtain ⟨q, e⟩ := e
      obtain rfl : k = q := same
      rw [List.filter_cons_of_pos (by exact inside), List.dlookup_cons_eq, List.dlookup_cons_eq]
    · rw [List.dlookup_cons_ne _ _ same, List.filter_cons]
      split
      · rw [List.dlookup_cons_ne _ _ same, ih]
      · exact ih

theorem filter_kerase :
    ((l.kerase k).filter fun e => within e.1) = (l.filter fun e => within e.1).kerase k := by
  induction l with
  | nil => rfl
  | cons e rest ih =>
    by_cases same : k = e.1
    · rw [List.kerase_cons_eq same, List.filter_cons]
      split
      · rw [List.kerase_cons_eq same]
      · rename_i outside
        rw [List.kerase_of_notMem_keys]
        intro stored
        obtain ⟨f, member, key⟩ := List.mem_map.mp stored
        have inside := (List.mem_filter.mp member).2
        rw [key, same] at inside
        exact outside inside
    · rw [List.kerase_cons_ne same, List.filter_cons, List.filter_cons]
      split
      · rw [List.kerase_cons_ne same, ih]
      · exact ih

end lists

theorem part_erase (files : Files) (k : Key) :
    part username (files.erase k) = (part username files).kerase k :=
  filter_kerase (directory username).within k files.entries

theorem part_insert (files : Files) (k : Key) (e : Entry) :
    part username (files.insert k e) =
      (if (directory username).within k then [⟨k, e⟩] else []) ++ (part username files).kerase k := by
  have stored : (files.insert k e).entries = ⟨k, e⟩ :: files.entries.kerase k := rfl
  rw [part, stored, List.filter_cons]
  have rest := filter_kerase (directory username).within k files.entries
  split
  · rw [rest]
    rfl
  · rw [rest]
    rfl

/-- The entry made or taken away. -/
abbrev Edit := Key × Option Entry

def Fs.edit (fs : Fs) : Edit → Fs
  | (k, some e) => fs.put k e
  | (k, none) => fs.erase k

theorem agree_refl (fs : Fs) : Agree username fs fs := ⟨rfl, rfl, rfl⟩

theorem agree_put {fs gs : Fs} (agree : Agree username fs gs) (k : Key) (e : Entry) :
    Agree username (fs.put k e) (gs.put k e) := by
  refine ⟨agree.refused, agree.tables, ?_⟩
  simp only [Fs.put, part_insert, agree.entries]

theorem agree_erase {fs gs : Fs} (agree : Agree username fs gs) (k : Key) :
    Agree username (fs.erase k) (gs.erase k) := by
  refine ⟨agree.refused, agree.tables, ?_⟩
  simp only [Fs.erase, part_erase, agree.entries]

theorem agree_edits {fs gs : Fs} (agree : Agree username fs gs) (edits : List Edit) :
    Agree username (edits.foldl Fs.edit fs) (edits.foldl Fs.edit gs) := by
  induction edits generalizing fs gs with
  | nil => exact agree
  | cons one rest ih =>
    obtain ⟨k, e⟩ := one
    cases e with
    | none => exact ih (agree_erase agree k)
    | some e => exact ih (agree_put agree k e)

theorem render_edits (edits : List Edit) (fs : Fs) : (edits.foldl Fs.edit fs).render = fs.render := by
  induction edits generalizing fs with
  | nil => rfl
  | cons one rest ih =>
    rw [List.foldl_cons, ih]
    obtain ⟨k, e⟩ := one
    cases e <;> rfl

theorem kerase_outside {fs : Fs} {k : Key} (outside : (directory username).within k = false) :
    (part username fs.files).kerase k = part username fs.files := by
  apply List.kerase_of_notMem_keys
  intro stored
  obtain ⟨e, member, rfl⟩ := List.mem_map.mp stored
  have inside := (List.mem_filter.mp member).2
  rw [outside] at inside
  cases inside

/-- What is made or taken away elsewhere does not show. -/
theorem agree_elsewhere {fs gs : Fs} (agree : Agree username fs gs) {edits : List Edit}
    (elsewhere : ∀ one ∈ edits, (directory username).within one.1 = false) :
    Agree username (edits.foldl Fs.edit fs) gs := by
  induction edits generalizing fs with
  | nil => exact agree
  | cons one rest ih =>
    have outside := elsewhere one List.mem_cons_self
    refine ih ?_ fun other member => elsewhere other (List.mem_cons_of_mem _ member)
    obtain ⟨k, e⟩ := one
    refine ⟨?_, ?_, ?_⟩
    · rw [← agree.refused]
      cases e <;> rfl
    · rw [← agree.tables]
      cases e <;> rfl
    · have kept : (part username fs.files).kerase k = part username fs.files :=
        kerase_outside outside
      rw [← agree.entries]
      cases e with
      | none => exact (part_erase fs.files k).trans kept
      | some e =>
        have off : (directory username).within k = false := outside
        have added : part username (fs.files.insert k e) = _ := part_insert fs.files k e
        rw [off, kept] at added
        exact added

section reading
variable {fs gs : Fs} {p : Path}

theorem directory_names : (directory username).names ≠ [] := by
  have filled : (115 : Byte) ≠ slash := by decide
  have start : cString (syncDirWithPrefix username) = 115 :: ((cString (syncDirWithPrefix username)).drop 1) := by
    rfl
  rw [directory, key, start]
  exact names_cons_ne_nil filled

theorem within_named {k : Key} (inside : (directory username).within k = true) : k.names ≠ [] := by
  obtain ⟨below, rfl⟩ := within_iff.mp inside
  intro empty
  exact directory_names (List.append_eq_nil_iff.mp empty).1

theorem entry_agrees (agree : Agree username fs gs) {k : Key}
    (inside : (directory username).within k = true) : fs.entry k = gs.entry k := by
  have named := within_named inside
  rw [Fs.entry, Fs.entry, if_neg named, if_neg named]
  show fs.files.entries.dlookup k = gs.files.entries.dlookup k
  rw [← dlookup_filter _ k fs.files.entries inside, ← dlookup_filter _ k gs.files.entries inside]
  exact congrArg (List.dlookup k) agree.entries

theorem parent_agrees (agree : Agree username fs gs) {k : Key} (below : Below username k) :
    fs.parentIsDir k = gs.parentIsDir k := by
  obtain ⟨inside, apart⟩ := below
  obtain ⟨more, rfl⟩ := within_iff.mp inside
  have deeper : more ≠ [] := by
    rintro rfl
    exact apart (by rw [List.append_nil])
  have above : (directory username).within
      ⟨(directory username).absolute, ((directory username).names ++ more).dropLast⟩ = true := by
    rw [List.dropLast_append_of_ne_nil deeper]
    exact within_iff.mpr ⟨_, rfl⟩
  have same := entry_agrees agree above
  simp only [Fs.parentIsDir]
  unfold directory at same
  rw [same]

/-- The directory of a user whose name has no slash in it has one name. -/
theorem directory_flat (ends : 0 ∉ username) (unbroken : slash ∉ username) :
    (directory username).names = [syncDirWithPrefix username] := by
  have plain : Plain (syncDirWithPrefix username) := by
    simp [Plain, syncDirWithPrefix, kSyncDirPrefix, slash, ends]
    simpa [slash] using unbroken
  rw [directory, key_eq plain.2.2, names_plain_name plain]

/-- What stands above a place in the directory is the directory, or in it. -/
theorem belowFile_agrees (flat : (directory username).names = [syncDirWithPrefix username])
    (agree : Agree username fs gs) {k : Key} (below : Below username k) :
    fs.belowFile k = gs.belowFile k := by
  obtain ⟨inside, apart⟩ := below
  obtain ⟨more, rfl⟩ := within_iff.mp inside
  have deeper : more ≠ [] := by
    rintro rfl
    exact apart (by rw [List.append_nil])
  have above : ∀ front, (directory username).within
      ⟨(directory username).absolute, syncDirWithPrefix username :: front⟩ = true := by
    intro front
    exact within_iff.mpr ⟨front, by rw [flat]; rfl⟩
  have single : (key (syncDirWithPrefix username)).names = [syncDirWithPrefix username] := flat
  simp only [Fs.belowFile, single,
    List.cons_append, List.nil_append, List.dropLast_cons_of_ne_nil deeper, List.inits_cons,
    List.any_cons, List.any_map]
  refine congrArg₂ or rfl (List.any_congr rfl fun front => ?_)
  have same := entry_agrees agree (above front)
  simp only [directory] at same
  simp only [Function.comp_apply, same]

theorem belowFile_within (flat : (directory username).names = [syncDirWithPrefix username])
    (agree : Agree username fs gs) (within : Within username p) :
    fs.belowFile (key p) = gs.belowFile (key p) := by
  rcases within with bare | below
  · rw [bare]
    rfl
  · exact belowFile_agrees flat agree below

theorem entry_within (agree : Agree username fs gs) (within : Within username p) :
    fs.entry (key p) = gs.entry (key p) := by
  rcases within with bare | below
  · rw [bare]
    rfl
  · exact entry_agrees agree below.1

theorem stat_agrees (agree : Agree username fs gs) (within : Within username p) :
    fs.stat p = gs.stat p := by
  rw [Fs.stat, Fs.stat, entry_within agree within]

theorem keys_agree (agree : Agree username fs gs) {k : Key}
    (inside : (directory username).within k = true) :
    fs.files.keys.filter k.within = gs.files.keys.filter k.within := by
  have smaller : ∀ q, k.within q = true → (directory username).within q = true := by
    intro q deeper
    obtain ⟨below, rfl⟩ := within_iff.mp inside
    obtain ⟨more, rfl⟩ := within_iff.mp deeper
    exact within_iff.mpr ⟨below ++ more, by simp⟩
  have seen : ∀ files : Files, files.keys.filter k.within =
      ((part username files).map Sigma.fst).filter k.within := by
    intro files
    rw [part, List.filter_map, List.filter_filter]
    show (files.entries.map Sigma.fst).filter k.within = _
    rw [List.filter_map]
    congr 1
    apply List.filter_congr
    intro e _
    have step := smaller e.1
    simp only [Function.comp_apply]
    cases within : k.within e.1 with
    | false => rfl
    | true => rw [step within, Bool.and_self]
  rw [seen, seen, agree.entries]

theorem canOpenOut_agrees (agree : Agree username fs gs) (within : Within username p) :
    canOpenOut fs p = canOpenOut gs p := by
  rcases within with bare | below
  · simp [canOpenOut, bare]
  · simp only [canOpenOut, parent_agrees agree below, entry_agrees agree below.1, agree.refused]

theorem openIn_agrees (agree : Agree username fs gs) (within : Within username p) :
    openIn fs p = openIn gs p := by
  simp only [openIn, stat_agrees agree within, agree.refused]

theorem listDirectory_agrees (agree : Agree username fs gs)
    (inside : (directory username).within (key p) = true) :
    listDirectory fs p = listDirectory gs p := by
  have chosen : ∀ files : Files, (files.keys.filterMap fun q =>
      if q.absolute = (key p).absolute ∧ q.names.dropLast = (key p).names ∧ q.names ≠ [] then
        q.names.getLast?
      else none) = (files.keys.filter (key p).within).filterMap fun q =>
      if q.absolute = (key p).absolute ∧ q.names.dropLast = (key p).names ∧ q.names ≠ [] then
        q.names.getLast?
      else none := by
    intro files
    rw [List.filterMap_filter]
    apply List.filterMap_congr
    intro q _
    split
    · rename_i listed
      obtain ⟨rooted, above, filled⟩ := listed
      have within : (key p).within q = true := by
        refine within_iff.mpr ⟨[q.names.getLast filled], ?_⟩
        rw [← above, List.dropLast_concat_getLast, ← rooted]
      rw [if_pos within]
    · simp
  simp only [listDirectory, entry_agrees agree inside, agree.refused]
  rw [chosen, chosen, keys_agree agree inside]

end reading

/-- The same reply, and the same entries made and taken away, all inside the directory. -/
def Alike {A : Type} (username : List Byte) (fs gs : Fs) (r q : A × Fs) : Prop :=
  q.1 = r.1 ∧ ∃ edits : List Edit, (∀ one ∈ edits, (directory username).within one.1 = true) ∧
    r.2 = edits.foldl Fs.edit fs ∧ q.2 = edits.foldl Fs.edit gs

section calls
variable {fs gs : Fs} {p : Path} {A : Type}

theorem alike_unchanged {a b : A} (same : b = a) : Alike username fs gs (a, fs) (b, gs) :=
  ⟨same, [], by simp, rfl, rfl⟩

theorem alike_put {k : Key} {e : Entry} (a : A) (inside : (directory username).within k = true) :
    Alike username fs gs (a, fs.put k e) (a, gs.put k e) :=
  ⟨rfl, [(k, some e)], by simpa using inside, rfl, rfl⟩

theorem alike_erase {k : Key} (a : A) (inside : (directory username).within k = true) :
    Alike username fs gs (a, fs.erase k) (a, gs.erase k) :=
  ⟨rfl, [(k, none)], by simpa using inside, rfl, rfl⟩

theorem inside_of_entry (within : Within username p) (there : fs.entry (key p) ≠ none) :
    Below username (key p) := by
  rcases within with bare | below
  · rw [bare] at there
    exact absurd rfl there
  · exact below

theorem remove_alike (flat : (directory username).names = [syncDirWithPrefix username])
    (agree : Agree username fs gs) (within : Within username p) :
    Alike username fs gs (orSame fs (remove fs p)) (orSame gs (remove gs p)) := by
  unfold remove
  rw [← entry_within agree within, ← agree.refused, ← belowFile_within flat agree within]
  cases found : fs.entry (key p) with
  | none =>
    dsimp only
    split
    · exact alike_unchanged rfl
    · exact alike_unchanged rfl
  | some e =>
    have below := inside_of_entry within (by simp [found] : fs.entry (key p) ≠ none)
    dsimp only
    split
    · exact alike_unchanged rfl
    · cases e with
      | file content =>
        dsimp only
        split
        · exact alike_unchanged rfl
        · exact alike_erase _ below.1
      | dir =>
        have filtered : ∀ store : Fs, (store.files.keys.any fun q =>
            (key p).within q && q ≠ key p) =
            (store.files.keys.filter (key p).within).any fun q => q ≠ key p := by
          intro store
          rw [List.any_filter]
        dsimp only
        rw [filtered, filtered, ← keys_agree agree below.1]
        split
        · exact alike_unchanged rfl
        · exact alike_erase _ below.1

theorem foldl_erase (gone : List Key) (store : Fs) :
    gone.foldl Fs.erase store = (gone.map fun k => ((k, none) : Edit)).foldl Fs.edit store := by
  rw [List.foldl_map]
  rfl

theorem removeAll_alike (flat : (directory username).names = [syncDirWithPrefix username])
    (agree : Agree username fs gs) (within : Within username p) :
    Alike username fs gs (orSame fs ((removeAll fs p).map ((), ·)))
      (orSame gs ((removeAll gs p).map ((), ·))) := by
  unfold removeAll
  rw [← entry_within agree within, ← agree.refused, ← belowFile_within flat agree within]
  cases found : fs.entry (key p) with
  | none =>
    dsimp only
    split
    · exact alike_unchanged rfl
    · exact alike_unchanged rfl
  | some e =>
    have below := inside_of_entry within (by simp [found] : fs.entry (key p) ≠ none)
    dsimp only
    split
    · exact alike_unchanged rfl
    · cases e with
      | file content =>
        dsimp only
        split
        · exact alike_unchanged rfl
        · exact alike_erase _ below.1
      | dir =>
        refine ⟨rfl, (fs.files.keys.filter (key p).within).map fun k => (k, none), ?_, ?_, ?_⟩
        · intro one member
          obtain ⟨k, deeper, rfl⟩ := List.mem_map.mp member
          exact (below_within below (List.mem_filter.mp deeper).2).1
        · exact foldl_erase _ fs
        · rw [keys_agree agree below.1]
          exact foldl_erase _ gs

theorem createDirectory_alike (agree : Agree username fs gs) (within : Within username p) :
    Alike username fs gs (orSame fs (createDirectory fs p)) (orSame gs (createDirectory gs p)) := by
  unfold createDirectory
  rw [← entry_within agree within, ← agree.refused]
  cases found : fs.entry (key p) with
  | some e =>
    cases e with
    | file content => exact alike_unchanged rfl
    | dir => exact alike_unchanged rfl
  | none =>
    dsimp only
    rcases within with bare | below
    · rw [if_neg (by simp [bare]), if_neg (by simp [bare])]
      exact alike_unchanged rfl
    · rw [← parent_agrees agree below]
      split
      · exact alike_put _ below.1
      · exact alike_unchanged rfl

theorem openOut_alike (agree : Agree username fs gs) (within : Within username p) :
    Alike username fs gs (openOut fs p) (openOut gs p) := by
  unfold openOut
  rw [← canOpenOut_agrees agree within]
  split
  · rename_i can
    rcases within with bare | below
    · simp [canOpenOut, bare] at can
    · exact alike_put _ below.1
  · exact alike_unchanged rfl

theorem writeOut_alike (agree : Agree username fs gs) (within : Within username p)
    (bytes : List Byte) :
    Alike username fs gs ((), writeOut fs p bytes) ((), writeOut gs p bytes) := by
  unfold writeOut
  rw [← entry_within agree within]
  cases found : fs.entry (key p) with
  | none => exact alike_unchanged rfl
  | some e =>
    have below := inside_of_entry within (by simp [found] : fs.entry (key p) ≠ none)
    cases e with
    | dir => exact alike_unchanged rfl
    | file content => exact alike_put _ below.1

theorem copyFile_alike {q : Path} (agree : Agree username fs gs) (from_ : Within username p)
    (within : Within username q) :
    Alike username fs gs (orSame fs ((copyFile fs p q).map ((), ·)))
      (orSame gs ((copyFile gs p q).map ((), ·))) := by
  unfold copyFile
  rw [← stat_agrees agree from_, ← openIn_agrees agree from_, ← canOpenOut_agrees agree within]
  cases found : fs.stat p with
  | none => exact alike_unchanged rfl
  | some e =>
    cases e with
    | dir => exact alike_unchanged rfl
    | file content =>
      dsimp only
      split
      · rename_i can
        rcases within with bare | below
        · simp [canOpenOut, bare] at can
        · exact alike_put _ below.1
      · exact alike_unchanged rfl

theorem directoryTable_agrees (agree : Agree username fs gs) (tables : TablesLocal fs.render)
    (inside : (directory username).within (key p) = true) :
    directoryTable fs p = directoryTable gs p := by
  have smaller : ∀ files : Files, (files.entries.filter fun e => (key p).within e.1) =
      (part username files).filter fun e => (key p).within e.1 := by
    intro files
    rw [part, List.filter_filter]
    apply List.filter_congr
    intro e _
    cases within : (key p).within e.1 with
    | false => rfl
    | true =>
      obtain ⟨below, above⟩ := within_iff.mp inside
      obtain ⟨more, deeper⟩ := within_iff.mp within
      rw [above] at deeper
      have whole : (directory username).within e.1 = true :=
        within_iff.mpr ⟨below ++ more, by rw [deeper]; simp⟩
      rw [whole, Bool.and_self]
  have same : fs.render fs.files p = gs.render gs.files p := by
    rw [← agree.tables]
    apply tables
    rw [smaller, smaller, agree.entries]
  rw [directoryTable, directoryTable, listDirectory_agrees agree inside, same]

/-- A call inside the directory does the same on stores that agree on it. -/
theorem fileCall_alike (flat : (directory username).names = [syncDirWithPrefix username])
    (agree : Agree username fs gs) (tables : TablesLocal fs.render) {c : FileCall}
    (inside : Local username c) : Alike username fs gs (fileCall fs c) (fileCall gs c) := by
  cases c with
  | isRegularFile p =>
    refine alike_unchanged ?_
    simp only [isRegularFile, stat_agrees agree inside, agree.refused]
  | pathExists p =>
    refine alike_unchanged ?_
    simp only [pathExists, stat_agrees agree inside, agree.refused]
  | remove p => exact remove_alike flat agree inside
  | removeAll p => exact removeAll_alike flat agree inside
  | createDirectory p => exact createDirectory_alike agree inside
  | openOut p => exact openOut_alike agree inside
  | writeOut p bytes => exact writeOut_alike agree inside bytes
  | openIn p => exact alike_unchanged (openIn_agrees agree inside).symm
  | fileSize p =>
    refine alike_unchanged ?_
    simp only [fileSize, stat_agrees agree inside, agree.refused]
  | readIn p pos n =>
    refine alike_unchanged ?_
    simp only [readIn, stat_agrees agree inside]
  | copyFile p q => exact copyFile_alike agree inside.1 inside.2
  | listDirectory p => exact alike_unchanged (listDirectory_agrees agree inside).symm
  | directoryTable p => exact alike_unchanged (directoryTable_agrees agree tables inside).symm

end calls

section confined
variable {p : Path}

/-- Any place with names the kernel can keep is a directory in some tree. -/
theorem tower (rooted : Bool) (names : List Path) (plain : ∀ name ∈ names, Plain name)
    (named : names ≠ []) : ∃ fs, TreeShaped fs ∧ fs.entry ⟨rooted, names⟩ = some .dir := by
  induction names using List.reverseRecOn with
  | nil => exact absurd rfl named
  | append_singleton front last ih =>
    have before : ∃ fs, TreeShaped fs ∧ fs.parentIsDir ⟨rooted, front ++ [last]⟩ = true := by
      by_cases top : front = []
      · exact ⟨.empty, empty_tree, by simp [Fs.parentIsDir, top]⟩
      · have above : ∀ name ∈ front, Plain name :=
          fun name member => plain name (List.mem_append_left _ member)
        obtain ⟨fs, tree, dir⟩ := ih above top
        exact ⟨fs, tree, by simp [Fs.parentIsDir, dir]⟩
    obtain ⟨fs, tree, parent⟩ := before
    by_cases there : fs.entry ⟨rooted, front ++ [last]⟩ = some .dir
    · exact ⟨fs, tree, there⟩
    · exact ⟨fs.put _ .dir, put_tree .dir tree plain there parent, entry_put_self (by simp)⟩

theorem stored_somewhere (p : Path) :
    key p = ⟨false, []⟩ ∨ ∃ fs, TreeShaped fs ∧ fs.entry (key p) ≠ none := by
  by_cases named : (key p).names = []
  · cases rooted : (key p).absolute with
    | false =>
      left
      rw [← named, ← rooted]
    | true => exact Or.inr ⟨.empty, empty_tree, by simp [Fs.entry, named, rooted]⟩
  · right
    obtain ⟨fs, tree, dir⟩ := tower (key p).absolute _ (key_names_plain p) named
    exact ⟨fs, tree, by rw [dir]; simp⟩

theorem within_of_touched (touched : ∀ fs, TreeShaped fs → fs.entry (key p) ≠ none →
    Below username (key p)) : Within username p := by
  rcases stored_somewhere p with bare | ⟨fs, tree, there⟩
  · exact Or.inl bare
  · exact Or.inr (touched fs tree there)

theorem listing_inside (touched : ∀ fs, TreeShaped fs → fs.entry (child p [[120]]) ≠ none →
    Below username (child p [[120]])) : (directory username).within (key p) = true := by
  have plain : ∀ name ∈ (key p).names ++ [[120]], Plain name := by
    intro name member
    rcases List.mem_append.mp member with above | last
    · exact key_names_plain p name above
    · rw [List.mem_singleton.mp last]
      decide
  obtain ⟨fs, tree, dir⟩ := tower (key p).absolute _ plain (by simp)
  obtain ⟨inside, apart⟩ := touched fs tree (by rw [child, dir]; simp)
  obtain ⟨below, same⟩ := within_iff.mp inside
  obtain ⟨rooted, shape⟩ := Key.mk.inj same
  have deeper : below ≠ [] := by
    rintro rfl
    exact apart (by rw [same, List.append_nil])
  refine within_iff.mpr ⟨below.dropLast, ?_⟩
  have above := congrArg List.dropLast shape
  rw [List.dropLast_concat, List.dropLast_append_of_ne_nil deeper] at above
  rw [directory, ← rooted, ← above]

/-- What touches only entries in the directory, in every tree, has its paths there. -/
theorem local_of_touches {c : FileCall}
    (touches : ∀ fs, TreeShaped fs → ∀ k, Touches fs c k → Below username k) :
    Local username c := by
  cases c with
  | isRegularFile p | pathExists p | remove p | createDirectory p | openOut p | writeOut p bytes
  | openIn p | fileSize p | readIn p pos n =>
    apply within_of_touched
    intro fs tree there
    exact touches fs tree _ ⟨rfl, Or.inl there⟩
  | removeAll p =>
    apply within_of_touched
    intro fs tree there
    exact touches fs tree _ ⟨within_iff.mpr ⟨[], by simp⟩, there, there⟩
  | copyFile p q =>
    constructor
    · apply within_of_touched
      intro fs tree there
      exact touches fs tree _ ⟨Or.inl rfl, Or.inl there⟩
    · apply within_of_touched
      intro fs tree there
      exact touches fs tree _ ⟨Or.inr rfl, Or.inl there⟩
  | listDirectory p | directoryTable p =>
    apply listing_inside
    intro fs tree there
    exact touches fs tree _ ⟨⟨_, rfl⟩, there⟩

end confined
end DropboxLocalCalls
