import Dropbox.Host

/-!
Files as a process sees them from its working directory: a path is walked a component
at a time, "." and ".." included. The four calls are those that Receive makes; they
answer as std::filesystem and std::ofstream do on POSIX. There are no symbolic links.
-/
namespace DropboxLocalFiles
open DropboxFileStore DropboxHost

/-- The names on the way from the root. -/
abbrev Location := List Path

/-- `other` is neither a regular file nor a directory. -/
inductive Node where
  | file (content : List Byte)
  | dir
  | other
  deriving DecidableEq, Repr

structure Local where
  entry : Location → Option Node
  cwd : Location
  refused : Access → Path → Bool

def dot : Path := [46]

def dotdot : Path := [46, 46]

/-- Where a component leads from here. -/
def follow (here : Location) (c : Path) : Location :=
  if c = dot then here else if c = dotdot then here.dropLast else here ++ [c]

/-- What is walked through has to be a directory; the last component may be anything. -/
def Local.walk (l : Local) : Location → List Path → Option Location
  | here, [] => some here
  | here, c :: rest =>
    if rest = [] ∨ c = dot ∨ c = dotdot ∨ l.entry (follow here c) = some .dir then
      l.walk (follow here c) rest
    else none

/-- Where a path begins. -/
def Local.base (l : Local) (p : Path) : Location := if isAbsolute (cString p) then [] else l.cwd

def Local.resolve (l : Local) (p : Path) : Option Location :=
  if cString p = [] then none else l.walk (l.base p) (names (cString p))

/-- What is walked through is there and no directory (ENOTDIR). -/
def Local.barred (l : Local) : Location → List Path → Bool
  | _, [] => false
  | here, c :: rest =>
    if rest = [] ∨ c = dot ∨ c = dotdot ∨ l.entry (follow here c) = some .dir then
      l.barred (follow here c) rest
    else (l.entry (follow here c)).isSome

/-- The last component is a name. -/
def isNamed (p : Path) : Bool :=
  match (names (cString p)).getLast? with
  | none => false
  | some c => c ≠ dot && c ≠ dotdot

/-- Strictly below a directory. -/
def Below (k q : Location) : Prop := k <+: q ∧ q ≠ k

instance (k q : Location) : Decidable (Below k q) := inferInstanceAs (Decidable (_ ∧ _))

def Local.put (l : Local) (k : Location) (e : Option Node) : Local :=
  { l with entry := Function.update l.entry k e }

def Local.clearBelow (l : Local) (k : Location) : Local :=
  { l with entry := fun q => if Below k q then none else l.entry q }

def Local.isRegularFile (l : Local) (p : Path) : Option Bool :=
  if l.refused .status p then none
  else match l.resolve p with
    | none => some false
    | some k =>
      match l.entry k with
      | some (.file _) => some (!wantsDirectory p)
      | _ => some false

/-- std::filesystem::remove_all: what is in a directory goes first, then the path is removed.
    "." and ".." cannot be removed; a path that no longer leads anywhere need not be, unless a
    file is in its way. -/
def Local.removeAll (l : Local) (p : Path) : Option Unit × Local :=
  if l.refused .remove p then (none, l)
  else match l.resolve p with
    | none => if l.barred (l.base p) (names (cString p)) then (none, l) else (some (), l)
    | some k =>
      match l.entry k with
      | none => (some (), l)
      | some .dir =>
        match (l.clearBelow k).resolve p with
        | none => (some (), l.clearBelow k)
        | some k =>
          if isNamed p then (some (), (l.clearBelow k).put k none) else (none, l.clearBelow k)
      | some _ => if wantsDirectory p then (none, l) else (some (), l.put k none)

/-- Opens with std::ios::trunc. -/
def Local.openOut (l : Local) (p : Path) : Bool × Local :=
  match l.resolve p with
  | none => (false, l)
  | some k =>
    if !isNamed p || wantsDirectory p || l.refused .openWrite p then (false, l)
    else match l.entry k with
      | none => if l.entry k.dropLast = some .dir then (true, l.put k (some (.file []))) else (false, l)
      | some (.file _) => (true, l.put k (some (.file [])))
      | some .dir => (false, l)
      | some .other => (true, l)

/-- A write to the file opened last under this path; it goes to the end. -/
def Local.writeOut (l : Local) (p : Path) (bytes : List Byte) : Local :=
  match l.resolve p with
  | none => l
  | some k =>
    match l.entry k with
    | some (.file content) => l.put k (some (.file (content ++ bytes)))
    | _ => l

variable {l m : Local} {p : Path} {k q : Location}

/-- A walk that comes to its end comes to one place, whatever the files are. -/
theorem walk_place {here : Location} {cs : List Path} (walked : l.walk here cs = some k) :
    k = cs.foldl follow here := by
  induction cs generalizing here with
  | nil => exact (Option.some.inj walked).symm
  | cons c rest ih =>
    rw [Local.walk] at walked
    split at walked
    · exact ih walked
    · cases walked

theorem resolve_place (home : m.cwd = l.cwd) (here : l.resolve p = some k)
    (there : m.resolve p = some q) : q = k := by
  unfold Local.resolve at here there
  split at here
  · cases here
  · rename_i named
    rw [if_neg named] at there
    have same : m.base p = l.base p := by simp only [Local.base, home]
    rw [walk_place here, walk_place there, same]

/-- Only the directories count for a walk. -/
theorem walk_congr (dirs : ∀ k, m.entry k = some .dir ↔ l.entry k = some .dir) (here : Location)
    (cs : List Path) : m.walk here cs = l.walk here cs := by
  induction cs generalizing here with
  | nil => rfl
  | cons c rest ih => simp only [Local.walk, ih, dirs]

theorem resolve_congr (home : m.cwd = l.cwd)
    (dirs : ∀ k, m.entry k = some .dir ↔ l.entry k = some .dir) (p : Path) :
    m.resolve p = l.resolve p := by
  simp only [Local.resolve, Local.base, home, walk_congr dirs]

theorem clearBelow_eq (empty : ∀ q, Below k q → l.entry q = none) : l.clearBelow k = l := by
  have same : (fun q => if Below k q then none else l.entry q) = l.entry := by
    funext q
    split
    · rename_i inside
      exact (empty q inside).symm
    · rfl
  unfold Local.clearBelow
  rw [same]

/-- Only what a path leads to, and what is below it, can be removed with it. -/
theorem removeAll_frame (l : Local) (p : Path) (q : Location) :
    (l.removeAll p).2.entry q = l.entry q ∨
      ∃ k, l.resolve p = some k ∧ (q = k ∨ Below k q) ∧ (l.removeAll p).2.entry q = none := by
  unfold Local.removeAll
  split
  · exact .inl rfl
  · split
    · split
      · exact .inl rfl
      · exact .inl rfl
    · rename_i k there
      have cleared : (l.clearBelow k).entry q = l.entry q ∨
          Below k q ∧ (l.clearBelow k).entry q = none := by
        by_cases inside : Below k q
        · exact .inr ⟨inside, if_pos inside⟩
        · exact .inl (if_neg inside)
      split
      · exact .inl rfl
      · split
        · rcases cleared with same | ⟨inside, gone⟩
          · exact .inl same
          · exact .inr ⟨k, there, .inr inside, gone⟩
        · rename_i k' still
          have home : (l.clearBelow k).cwd = l.cwd := rfl
          obtain rfl := resolve_place home there still
          split
          · by_cases top : q = k'
            · exact .inr ⟨k', there, .inl top, by simp [Local.put, top]⟩
            · rcases cleared with same | ⟨inside, gone⟩
              · exact .inl (by simpa [Local.put, top] using same)
              · exact .inr ⟨k', there, .inr inside, by simpa [Local.put, top] using gone⟩
          · rcases cleared with same | ⟨inside, gone⟩
            · exact .inl same
            · exact .inr ⟨k', there, .inr inside, gone⟩
      · split
        · exact .inl rfl
        · by_cases top : q = k
          · exact .inr ⟨k, there, .inl top, by simp [Local.put, top]⟩
          · exact .inl (by simp [Local.put, top])

theorem removeAll_home (l : Local) (p : Path) : (l.removeAll p).2.cwd = l.cwd := by
  unfold Local.removeAll
  repeat' split
  all_goals rfl

end DropboxLocalFiles
