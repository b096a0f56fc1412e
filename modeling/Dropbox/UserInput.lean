import Dropbox.General.TextStream
import Dropbox.Host

/-!
The command line of the client (client/user_input.cpp). Lines come from std::cin;
at its end std::getline leaves the new string empty. What the file system says and
whether a call returns may change from line to line.
-/
namespace DropboxUserInput
open DropboxFileStore DropboxHost TextStream Words

/-- The characters of a string of the source. -/
def text (s : String) : List Byte := s.toList.map fun c => UInt8.ofNat c.toNat

def kCommandMap : List (List Byte × Command) :=
  [(text "upload", .kUpload), (text "download", .kDownload), (text "delete", .kDelete),
    (text "list_server", .kListServer), (text "list_client", .kListClient),
    (text "get_sync_dir", .kGetSyncDir), (text "exit", .kExit), (text "error", .kError),
    (text "success", .kSuccess), (text "username", .kUsername)]

def commandFromStr (str : List Byte) : Option Command := kCommandMap.lookup str

/-- isspace: space, and from tab to carriage return. -/
def isSpace (c : Byte) : Bool := c == 32 || (9 ≤ c && c ≤ 13)

/-- The calls on the client that commands come to. -/
inductive Operation where
  | upload (path : Path)
  | download (path : Path)
  | delete (path : Path)
  | listServer
  | listClient
  | exit
  deriving DecidableEq, Repr

/-- By line: is_regular_file, `none` when it throws, and whether a call returns or throws. -/
structure World where
  isRegularFile : Nat → Path → Option Bool
  returns : Nat → Operation → Bool

structure UserInput where
  lines : List (List Byte)   -- left in std::cin
  line : Nat
  reading : Bool
  inputPath : Path
  performed : List Operation
  threw : Bool
  deriving DecidableEq, Repr

/-- When Start has set `reading_`. -/
def start (lines : List (List Byte)) : UserInput := ⟨lines, 0, true, [], [], false⟩

def UserInput.perform (w : World) (operation : Operation) (s : UserInput) : UserInput :=
  { s with performed := s.performed ++ [operation], threw := !w.returns s.line operation }

def UserInput.handleCommand (w : World) (command : Command) (s : UserInput) : UserInput :=
  match command with
  | .kUpload =>
    if s.inputPath = [] then s
    else
      match w.isRegularFile s.line s.inputPath with
      | some true => s.perform w (.upload s.inputPath)
      | some false => s
      | none => { s with threw := true }
  | .kDownload => if s.inputPath = [] then s else s.perform w (.download s.inputPath)
  | .kDelete => if s.inputPath = [] then s else s.perform w (.delete s.inputPath)
  | .kListServer => s.perform w .listServer
  | .kListClient => s.perform w .listClient
  | .kExit =>
    let s := s.perform w .exit
    if s.threw then s else { s with reading := false }
  | _ => s

/-- One round of the loop of Start, which is over when `reading` is false or a call threw. -/
def UserInput.turn (w : World) (s : UserInput) : UserInput :=
  if !s.reading || s.threw then s
  else
    let userInput := s.lines.headD []
    let (iss, inputCommand) := (Istringstream.over userInput).extract isSpace []
    let (_, inputPath) := iss.extract isSpace s.inputPath
    let s := { s with lines := s.lines.tail, inputPath := inputPath }
    let s := match commandFromStr inputCommand with
      | none => s
      | some command => s.handleCommand w command
    { s with line := s.line + 1 }

def UserInput.turns (w : World) : Nat → UserInput → UserInput
  | 0, s => s
  | n + 1, s => (s.turn w).turns w n

/-- What a line names, from its words: its first word applied to its second one. -/
def named (w : World) (line : Nat) : List (List Byte) → List Operation
  | [] => []
  | first :: rest =>
    match commandFromStr first, rest.head? with
    | some .kUpload, some path =>
      if w.isRegularFile line path = some true then [.upload path] else []
    | some .kDownload, some path => [.download path]
    | some .kDelete, some path => [.delete path]
    | some .kListServer, _ => [.listServer]
    | some .kListClient, _ => [.listClient]
    | some .kExit, _ => [.exit]
    | _, _ => []

def commandOf (words : List (List Byte)) : Option Command := words.head?.bind commandFromStr

/-- What the lines name, up to the first exit. -/
def expected (w : World) : Nat → List (List Byte) → List Operation
  | _, [] => []
  | line, userInput :: rest =>
    named w line (words isSpace userInput) ++
      if commandOf (words isSpace userInput) = some .kExit then [] else expected w (line + 1) rest

/-- Start ends, and has performed what the lines name. -/
def Obeys (w : World) (lines : List (List Byte)) : Prop :=
  ∃ n, ((start lines).turns w n).reading = false ∧ ((start lines).turns w n).threw = false ∧
    ((start lines).turns w n).performed = expected w 0 lines

theorem command_of_first (ws : List (List Byte)) :
    commandFromStr (ws.headD []) = commandOf ws := by
  cases ws with
  | nil => rfl
  | cons first rest => rfl

/-- What a command does with the path that `inputPath` has. -/
def chosen (w : World) (line : Nat) (path : Path) : Option Command → List Operation
  | some .kUpload =>
    if path ≠ [] ∧ w.isRegularFile line path = some true then [.upload path] else []
  | some .kDownload => if path = [] then [] else [.download path]
  | some .kDelete => if path = [] then [] else [.delete path]
  | some .kListServer => [.listServer]
  | some .kListClient => [.listClient]
  | some .kExit => [.exit]
  | _ => []

/-- An exception leaves Start. -/
def Fails (w : World) (line : Nat) (path : Path) (command : Option Command) : Prop :=
  command = some .kUpload ∧ path ≠ [] ∧ w.isRegularFile line path = none ∨
    ∃ operation ∈ chosen w line path command, w.returns line operation = false

/-- From a state at its line to the next one, with the words of the line. -/
structure Turned (w : World) (s t : UserInput) (ws : List (List Byte)) : Prop where
  lines : t.lines = s.lines.tail
  line : t.line = s.line + 1
  inputPath : t.inputPath = ws.tail.headD s.inputPath
  performed : t.performed =
    s.performed ++ chosen w s.line (ws.tail.headD s.inputPath) (commandOf ws)
  threw : t.threw = true ↔ Fails w s.line (ws.tail.headD s.inputPath) (commandOf ws)
  reading : t.threw = false → (t.reading = false ↔ commandOf ws = some .kExit)

theorem performs {w : World} {s : UserInput} {operation : Operation} :
    (s.perform w operation).performed = s.performed ++ [operation] ∧
      ((s.perform w operation).threw = true ↔ w.returns s.line operation = false) := by
  simp [UserInput.perform]

theorem handle_command {w : World} {s : UserInput} {command : Command} (reading : s.reading = true)
    (calm : s.threw = false) :
    (s.handleCommand w command).lines = s.lines ∧ (s.handleCommand w command).line = s.line ∧
      (s.handleCommand w command).inputPath = s.inputPath ∧
      (s.handleCommand w command).performed =
        s.performed ++ chosen w s.line s.inputPath (some command) ∧
      ((s.handleCommand w command).threw = true ↔ Fails w s.line s.inputPath (some command)) ∧
      ((s.handleCommand w command).threw = false →
        ((s.handleCommand w command).reading = false ↔ command = .kExit)) := by
  cases command with
  | kUpload =>
    by_cases missing : s.inputPath = []
    · simp [UserInput.handleCommand, missing, chosen, Fails, calm, reading]
    · cases isFile : w.isRegularFile s.line s.inputPath with
      | none => simp [UserInput.handleCommand, missing, isFile, chosen, Fails]
      | some regular =>
        cases regular <;>
          simp [UserInput.handleCommand, missing, isFile, chosen, Fails, UserInput.perform, calm,
            reading]
  | kDownload =>
    by_cases missing : s.inputPath = [] <;>
      simp [UserInput.handleCommand, missing, chosen, Fails, UserInput.perform, calm, reading]
  | kDelete =>
    by_cases missing : s.inputPath = [] <;>
      simp [UserInput.handleCommand, missing, chosen, Fails, UserInput.perform, calm, reading]
  | kExit =>
    cases returns : w.returns s.line .exit <;>
      simp [UserInput.handleCommand, returns, chosen, Fails, UserInput.perform]
  | _ => simp [UserInput.handleCommand, chosen, Fails, UserInput.perform, calm, reading]

theorem not_fails_none {w : World} {line : Nat} {path : Path} : ¬ Fails w line path none := by
  rintro (⟨upload, _⟩ | ⟨operation, performed, _⟩)
  · cases upload
  · cases performed

theorem turn_turned {w : World} {s : UserInput} (reading : s.reading = true)
    (calm : s.threw = false) : Turned w s (s.turn w) (words isSpace (s.lines.headD [])) := by
  have fresh : (Istringstream.over (s.lines.headD [])).good = false →
      (Istringstream.over (s.lines.headD [])).rest = [] := fun h => by cases h
  obtain ⟨first, left, ended⟩ := extract_takes isSpace fresh []
  obtain ⟨second, _, _⟩ := extract_takes isSpace ended s.inputPath
  rw [left] at second
  unfold UserInput.turn
  rw [if_neg (by simp [reading, calm])]
  simp only [over_rest] at first second
  dsimp only
  rw [first, second, command_of_first]
  generalize words isSpace (s.lines.headD []) = ws
  cases found : commandOf ws with
  | none =>
    refine ⟨rfl, rfl, rfl, ?_, ?_, fun _ => ?_⟩
    · rw [found]
      exact (List.append_nil _).symm
    · rw [found]
      exact iff_of_false (by simp [calm]) not_fails_none
    · rw [found]
      simp [reading]
  | some command =>
    obtain ⟨lines, line, inputPath, performed, threw, goesOn⟩ := @handle_command w
      { s with lines := s.lines.tail, inputPath := ws.tail.headD s.inputPath } command reading calm
    refine ⟨lines, congrArg (· + 1) line, inputPath, ?_, ?_, fun calm' => ?_⟩
    · rw [found]
      exact performed
    · rw [found]
      exact threw
    · rw [found, Option.some.injEq]
      exact goesOn calm'

def takesPath (command : Option Command) : Prop :=
  command = some .kUpload ∨ command = some .kDownload ∨ command = some .kDelete

/-- Nothing throws at a line, and the path of an earlier line is not used for one it lacks; an
    upload may find that the old path is no file. -/
structure Clean (w : World) (line : Nat) (stale : Path) (ws : List (List Byte)) : Prop where
  calls : ∀ operation ∈ named w line ws, w.returns line operation = true
  file : ∀ path, commandOf ws = some .kUpload → ws.tail.head? = some path →
    w.isRegularFile line path ≠ none
  bare : takesPath (commandOf ws) → ws.tail = [] → stale ≠ [] →
    commandOf ws = some .kUpload ∧ w.isRegularFile line stale = some false

/-- An exit is named, and every line up to it is clean. -/
def Obedient (w : World) : Nat → Path → List (List Byte) → Prop
  | _, _, [] => False
  | line, stale, userInput :: rest =>
    Clean w line stale (words isSpace userInput) ∧
      (commandOf (words isSpace userInput) = some .kExit ∨
        Obedient w (line + 1) ((words isSpace userInput).tail.headD stale) rest)

/-- With its own path a line chooses what it names. -/
theorem chosen_own {w : World} {line : Nat} {first path : List Byte} {rest : List (List Byte)}
    (present : path ≠ []) :
    chosen w line path (commandOf (first :: path :: rest)) =
      named w line (first :: path :: rest) := by
  simp only [commandOf, List.head?_cons, Option.bind_some, named]
  cases commandFromStr first with
  | none => rfl
  | some command => cases command <;> simp [chosen, present]

theorem chosen_bare {w : World} {line : Nat} {stale : Path} {first : List Byte}
    (other : ¬ takesPath (commandOf [first])) :
    chosen w line stale (commandOf [first]) = named w line [first] := by
  simp only [commandOf, List.head?_cons, Option.bind_some, named, takesPath] at other ⊢
  cases found : commandFromStr first with
  | none => rfl
  | some command =>
    rw [found] at other
    cases command <;> simp [chosen] at other ⊢

theorem named_bare {w : World} {line : Nat} {first : List Byte}
    (takes : takesPath (commandOf [first])) : named w line [first] = [] := by
  simp only [commandOf, List.head?_cons, Option.bind_some, takesPath] at takes
  rcases takes with found | found | found <;> simp [named, found]

theorem chosen_missing {w : World} {line : Nat} {command : Option Command}
    (takes : takesPath command) : chosen w line [] command = [] := by
  rcases takes with rfl | rfl | rfl <;> simp [chosen]

/-- A path of an earlier line is used by every command but an upload of no file. -/
theorem chosen_stale {w : World} {line : Nat} {stale : Path} {command : Option Command}
    (takes : takesPath command) (held : stale ≠ []) :
    (chosen w line stale command = [] ∧ ¬ Fails w line stale command) ↔
      command = some .kUpload ∧ w.isRegularFile line stale = some false := by
  rcases takes with rfl | rfl | rfl
  · cases isFile : w.isRegularFile line stale with
    | none => simp [chosen, Fails, held, isFile]
    | some regular => cases regular <;> simp [chosen, Fails, held, isFile]
  · simp [chosen, held]
  · simp [chosen, held]

theorem clean_own {w : World} {line : Nat} {stale : Path} {first path : List Byte}
    {rest : List (List Byte)} (present : path ≠ []) : Clean w line stale (first :: path :: rest) ↔
      ¬ Fails w line path (commandOf (first :: path :: rest)) := by
  constructor
  · rintro ⟨calls, file, _⟩ (⟨upload, _, missing⟩ | ⟨operation, performed, fails⟩)
    · exact file path upload rfl missing
    · rw [chosen_own present] at performed
      rw [calls operation performed] at fails
      cases fails
  · intro succeeds
    refine ⟨fun operation performed => ?_, fun other upload same missing => ?_, fun _ bare => ?_⟩
    · by_contra fails
      rw [← chosen_own present] at performed
      exact succeeds (Or.inr ⟨operation, performed, by simpa using fails⟩)
    · obtain rfl : path = other := by simpa using same
      exact succeeds (Or.inl ⟨upload, present, missing⟩)
    · cases bare

theorem clean_bare {w : World} {line : Nat} {stale : Path} {first : List Byte} :
    Clean w line stale [first] ↔
      chosen w line stale (commandOf [first]) = named w line [first] ∧
        ¬ Fails w line stale (commandOf [first]) := by
  by_cases takes : takesPath (commandOf [first])
  · rw [named_bare takes]
    have bare : Clean w line stale [first] ↔ (stale ≠ [] →
        commandOf [first] = some .kUpload ∧ w.isRegularFile line stale = some false) := by
      constructor
      · intro clean held
        exact clean.bare takes rfl held
      · intro allowed
        refine ⟨?_, fun path _ same => (by cases same), fun _ _ => allowed⟩
        rw [named_bare takes]
        simp
    rw [bare]
    by_cases held : stale = []
    · subst stale
      refine iff_of_true (fun held => absurd rfl held) ⟨chosen_missing takes, ?_⟩
      rintro (⟨_, present, _⟩ | ⟨operation, performed, _⟩)
      · exact present rfl
      · rw [chosen_missing takes] at performed
        cases performed
    · rw [chosen_stale takes held]
      simp [held]
  · have same : chosen w line stale (commandOf [first]) = named w line [first] := chosen_bare takes
    constructor
    · rintro ⟨calls, _, _⟩
      refine ⟨same, ?_⟩
      rintro (⟨upload, _, _⟩ | ⟨operation, performed, fails⟩)
      · exact takes (Or.inl upload)
      · rw [same] at performed
        rw [calls operation performed] at fails
        cases fails
    · rintro ⟨_, succeeds⟩
      refine ⟨fun operation performed => ?_, fun path _ same => (by cases same),
        fun takes' => absurd takes' takes⟩
      by_contra fails
      rw [← same] at performed
      exact succeeds (Or.inr ⟨operation, performed, by simpa using fails⟩)

/-- A line is clean when it chooses what it names and nothing throws. -/
theorem clean_iff {w : World} {line : Nat} {stale : Path} {ws : List (List Byte)}
    (solid : ∀ word ∈ ws, word ≠ []) : Clean w line stale ws ↔
      chosen w line (ws.tail.headD stale) (commandOf ws) = named w line ws ∧
        ¬ Fails w line (ws.tail.headD stale) (commandOf ws) := by
  cases ws with
  | nil =>
    refine iff_of_true ⟨?_, fun path h => (by cases h), ?_⟩ ⟨rfl, not_fails_none⟩
    · simp [named]
    · rintro (h | h | h) <;> cases h
  | cons first rest =>
    cases rest with
    | nil => exact clean_bare
    | cons path rest =>
      have present : path ≠ [] := solid path (by simp)
      rw [clean_own present]
      simp [chosen_own present]

/-- A line may choose more than it names, not less. -/
theorem named_length (w : World) (line : Nat) (stale : Path) {ws : List (List Byte)}
    (solid : ∀ word ∈ ws, word ≠ []) : (named w line ws).length ≤
      (chosen w line (ws.tail.headD stale) (commandOf ws)).length ∧
    ((named w line ws).length =
        (chosen w line (ws.tail.headD stale) (commandOf ws)).length →
      chosen w line (ws.tail.headD stale) (commandOf ws) = named w line ws) := by
  cases ws with
  | nil => simp [named, chosen, commandOf]
  | cons first rest =>
    cases rest with
    | nil =>
      by_cases takes : takesPath (commandOf [first])
      · rw [named_bare takes]
        exact ⟨Nat.zero_le _, fun same => List.eq_nil_of_length_eq_zero same.symm⟩
      · have same : chosen w line stale (commandOf [first]) = named w line [first] :=
          chosen_bare takes
        simp [same]
    | cons path rest =>
      have present : path ≠ [] := solid path (by simp)
      simp [chosen_own present]

theorem turns_over {w : World} {s : UserInput} (over' : s.reading = false ∨ s.threw = true)
    (n : Nat) : s.turns w n = s := by
  have still : s.turn w = s := by
    unfold UserInput.turn
    rw [if_pos]
    rcases over' with stopped | threw
    · simp [stopped]
    · simp [threw]
  induction n with
  | zero => rfl
  | succ n ih => rw [UserInput.turns, still, ih]

/-- At the end of the input the loop of Start goes on. -/
theorem turns_at_end {w : World} {s : UserInput} (reading : s.reading = true)
    (calm : s.threw = false) (ended : s.lines = []) (n : Nat) : (s.turns w n).reading = true := by
  induction n generalizing s with
  | zero => exact reading
  | succ n ih =>
    have turned := turn_turned (w := w) reading calm
    have blank : words isSpace (s.lines.headD []) = [] := by rw [ended]; rfl
    rw [blank] at turned
    have calm' : (s.turn w).threw = false := by
      simpa using (not_congr turned.threw).mpr not_fails_none
    have reading' : (s.turn w).reading = true := by
      have goesOn := (not_congr (turned.reading calm')).mpr (fun h => by cases h)
      simpa using goesOn
    exact ih reading' calm' (by rw [turned.lines, ended]; rfl)

/-- The loop has made a turn when it is over. -/
theorem ends_after_turn {w : World} {s : UserInput} (reading : s.reading = true)
    (P : UserInput → Prop) : (∃ n, (s.turns w n).reading = false ∧ P (s.turns w n)) ↔
      ∃ n, ((s.turn w).turns w n).reading = false ∧ P ((s.turn w).turns w n) := by
  constructor
  · rintro ⟨n, ends⟩
    cases n with
    | zero =>
      rw [UserInput.turns, reading] at ends
      cases ends.1
    | succ n => exact ⟨n, ends⟩
  · rintro ⟨n, ends⟩
    exact ⟨n + 1, ends⟩

/-- However the loop ends, it has performed as much as the lines name. -/
theorem performs_enough {w : World} {s : UserInput} {n : Nat} (reading : s.reading = true)
    (calm : s.threw = false) (stopped : (s.turns w n).reading = false)
    (quiet : (s.turns w n).threw = false) :
    s.performed.length + (expected w s.line s.lines).length ≤ (s.turns w n).performed.length := by
  cases n with
  | zero =>
    rw [UserInput.turns, reading] at stopped
    cases stopped
  | succ n =>
    cases held : s.lines with
    | nil =>
      rw [turns_at_end reading calm held] at stopped
      cases stopped
    | cons userInput rest =>
      have turned := turn_turned (w := w) reading calm
      rw [held, List.headD_cons] at turned
      have solid : ∀ word ∈ words isSpace userInput, word ≠ [] := fun word within =>
        word_nonempty within
      have enough := (named_length w s.line s.inputPath solid).1
      rw [UserInput.turns] at stopped quiet ⊢
      have performed := congrArg List.length turned.performed
      rw [List.length_append] at performed
      have calm' : (s.turn w).threw = false := by
        by_contra threw
        rw [turns_over (Or.inr (by simpa using threw))] at quiet
        exact threw quiet
      simp only [expected, List.length_append]
      by_cases isExit : commandOf (words isSpace userInput) = some .kExit
      · rw [turns_over (Or.inl ((turned.reading calm').mpr isExit)), if_pos isExit]
        simp only [List.length_nil]
        omega
      · have reading' : (s.turn w).reading = true := by
          simpa using (not_congr (turned.reading calm')).mpr isExit
        have later := performs_enough reading' calm' stopped quiet
        rw [turned.line, turned.lines, held, List.tail_cons] at later
        rw [if_neg isExit]
        omega
termination_by s.lines.length
decreasing_by
  rw [turned.lines, held]
  simp

/-- From a line on, the loop ends with what the lines name exactly when they are obedient. -/
theorem ends_iff {w : World} (lines : List (List Byte)) {s : UserInput} (held : s.lines = lines)
    (reading : s.reading = true) (calm : s.threw = false) :
    (∃ n, (s.turns w n).reading = false ∧ (s.turns w n).threw = false ∧
      (s.turns w n).performed = s.performed ++ expected w s.line lines) ↔
      Obedient w s.line s.inputPath lines := by
  induction lines generalizing s with
  | nil =>
    refine iff_of_false ?_ id
    rintro ⟨n, stopped, _⟩
    rw [turns_at_end reading calm held] at stopped
    cases stopped
  | cons userInput rest ih =>
    have solid : ∀ word ∈ words isSpace userInput, word ≠ [] := fun word within =>
      word_nonempty within
    have turned := turn_turned (w := w) reading calm
    rw [held, List.headD_cons] at turned
    have clean : Clean w s.line s.inputPath (words isSpace userInput) ↔ _ := clean_iff solid
    rw [Obedient, clean]
    refine (ends_after_turn reading fun t => t.threw = false ∧
      t.performed = s.performed ++ expected w s.line (userInput :: rest)).trans ?_
    cases calm' : (s.turn w).threw with
    | true =>
      refine iff_of_false ?_ fun obedient => obedient.1.2 (turned.threw.mp calm')
      rintro ⟨n, _, quiet, _⟩
      rw [turns_over (Or.inr calm'), calm'] at quiet
      cases quiet
    | false =>
      have succeeds : ¬ Fails w s.line ((words isSpace userInput).tail.headD s.inputPath)
          (commandOf (words isSpace userInput)) := by
        rw [← turned.threw, calm']
        simp
      rw [expected]
      by_cases isExit : commandOf (words isSpace userInput) = some .kExit
      · have over' := turns_over (w := w) (Or.inl ((turned.reading calm').mpr isExit))
        rw [if_pos isExit, List.append_nil]
        simp only [over', calm', (turned.reading calm').mpr isExit, turned.performed,
          List.append_cancel_left_eq, true_and, exists_const, isExit, true_or, and_true]
        rw [← isExit]
        exact (and_iff_left succeeds).symm
      · have reading' : (s.turn w).reading = true := by
          simpa using (not_congr (turned.reading calm')).mpr isExit
        have later := ih (s := s.turn w) (by rw [turned.lines, held]; rfl) reading' calm'
        rw [turned.line, turned.inputPath, turned.performed] at later
        rw [if_neg isExit, ← later]
        simp only [isExit, false_or]
        constructor
        · rintro ⟨n, stopped, quiet, performed⟩
          have enough := performs_enough reading' calm' stopped quiet
          rw [performed, turned.line, turned.lines, held, List.tail_cons, turned.performed] at enough
          simp only [List.length_append] at enough
          obtain ⟨atLeast, whenEqual⟩ := named_length w s.line s.inputPath solid
          have equal := whenEqual (by omega)
          refine ⟨⟨equal, succeeds⟩, n, stopped, quiet, ?_⟩
          rw [performed, equal, List.append_assoc]
        · rintro ⟨⟨equal, _⟩, n, stopped, quiet, performed⟩
          refine ⟨n, stopped, quiet, ?_⟩
          rw [performed, equal, List.append_assoc]

/-- The command line does what its lines say for the obedient ones. -/
theorem command_line_obeys_iff (w : World) (lines : List (List Byte)) :
    Obeys w lines ↔ Obedient w 0 [] lines :=
  ends_iff lines rfl rfl rfl

/-- The input ends without an exit. -/
theorem end_of_input_reads_on : ¬ ∀ (w : World) (lines : List (List Byte)), Obeys w lines := by
  intro claim
  obtain ⟨n, stopped, _⟩ := claim ⟨fun _ _ => some true, fun _ _ => true⟩ []
  rw [turns_at_end rfl rfl rfl] at stopped
  cases stopped

example : ((start [text "delete a.txt", text "delete", text "exit"]).turns
    ⟨fun _ _ => some true, fun _ _ => true⟩ 3).performed =
      [.delete (text "a.txt"), .delete (text "a.txt"), .exit] := by decide

end DropboxUserInput
