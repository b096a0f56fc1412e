import Dropbox.ChangingFile
import Dropbox.ClientHandler
import Dropbox.StreamCalls

/-!
The noexcept functions of the exchange layer (FileExchange and ClientHandler::ListServer)
when what they call fails: the file system throws, the OS refuses a write, the stream
brings too little.
-/
namespace DropboxExchangeFaults
open Calls Programs Codec DropboxFileStore DropboxHost DropboxSocketStream DropboxProtocol
open DropboxDelivery DropboxStreamCalls DropboxChangingFile DropboxProtocolRules

inductive Exchange where
  | send
  | receive
  | sendPath
  | receivePath
  | sendCommand (command : Command)
  | receiveCommand
  | listServer (username : List Byte)
  deriving DecidableEq, Repr

/-- What it reports, for SendCommand nothing. -/
def Exchange.perform (fuel : Nat) : Exchange → Io FileExchange (Option Bool)
  | send => do pure (some (← DropboxProtocol.send fuel))
  | receive => do pure (some (← DropboxProtocol.receive fuel))
  | sendPath => do pure (some (← DropboxProtocol.sendPath))
  | receivePath => do pure (some (← DropboxProtocol.receivePath))
  | sendCommand command => do
    DropboxProtocol.sendCommand command
    pure none
  | receiveCommand => do
    match ← DropboxProtocol.receiveCommand with
    | .ok _ => pure (some true)
    | .error _ => pure (some false)
  | listServer username => do pure (some (← DropboxClientHandler.listServer username))

/-- One of `n` characters is refused. -/
def Refuses (n : Nat) (o : Outlet) : Prop := n ≠ 0 ∧ (o.puts n).good = false

/-- One of `n` characters comes when the put area is past its end. -/
def Overruns (n : Nat) (o : Outlet) : Prop :=
  ∃ j < n, (o.puts j).good = true ∧ kBufferSize < (o.puts j).level

/-- The string at the beginning of these bytes, as an archive reads it. -/
def stringOf (bytes : List Byte) : Option (List Byte) :=
  if 9 ≤ bytes.length ∧ headerWord bytes < 2 ^ 63 ∧ 9 + headerWord bytes ≤ bytes.length then
    some ((bytes.drop 9).take (headerWord bytes))
  else none

/-- Something that the function calls fails, and it cannot do what it is for. -/
def Exchange.Fails (fe : FileExchange) (f : Reader) : Exchange → Prop
  | send => f.opens = false ∨ f.size = none ∨ Refuses 9 (outlet fe.buf f.machine true) ∨
    (∀ k, ¬ EndsAt f.outcome k) ∨
    ∃ k, EndsAt f.outcome k ∧ Refuses (brings f.outcome k) (contentOutlet fe f.machine)
  | receive => (openDestination f.machine.world.fs fe.path).map Prod.fst ≠ some true ∨
    (available fe.buf f.machine).length < 9 ∨ ¬ Arrives fe f.machine
  | sendPath => Refuses (encodePath fe.path).length (outlet fe.buf f.machine true)
  | receivePath => stringOf (available fe.buf f.machine) = none
  | sendCommand _ => Refuses 2 (outlet fe.buf f.machine true)
  | receiveCommand => (available fe.buf f.machine).length < 2
  | listServer username =>
    match directoryTable f.machine.world.fs (syncDirWithPrefix username) with
    | none => True
    | some table => Refuses (encodeString table).length (outlet fe.buf f.machine true)

/-- The function returns, no exception leaves it, xsputn does not end the process, and where it has
    failed it does not say that it has succeeded. -/
def Exchange.Reports (fe : FileExchange) (f : Reader) (x : Exchange) : Prop :=
  ∃ fuel report, (Comp.exec fileHost (x.perform fuel) fe f).1 = .ok report ∧
    overruns (Comp.exec fileHost (x.perform fuel) fe f).2.2.machine = overruns f.machine ∧
    (x.Fails fe f → report ≠ some true)

/-- What has to be so for that. -/
def Exchange.Sound (fe : FileExchange) (f : Reader) : Exchange → Prop
  | send => f.opens = true → f.size ≠ none → ¬ Overruns 9 (outlet fe.buf f.machine true) ∧
    (¬ Refuses 9 (outlet fe.buf f.machine true) → ∃ k, EndsAt f.outcome k ∧
      ¬ Refuses (brings f.outcome k) (contentOutlet fe f.machine) ∧
      ¬ Overruns (brings f.outcome k) (contentOutlet fe f.machine))
  | receive => ∃ opened after,
    openDestination f.machine.world.fs fe.path = some (opened, after) ∧
      (opened = true → 9 ≤ (available fe.buf f.machine).length → Arrives fe f.machine)
  | sendPath => ¬ Overruns (encodePath fe.path).length (outlet fe.buf f.machine true)
  | receivePath | receiveCommand => True
  | sendCommand _ => ¬ Refuses 2 (outlet fe.buf f.machine true) ∧
    ¬ Overruns 2 (outlet fe.buf f.machine true)
  | listServer username => ∃ table,
    directoryTable f.machine.world.fs (syncDirWithPrefix username) = some table ∧
      ¬ Overruns (encodeString table).length (outlet fe.buf f.machine true)

section Output
variable {fe : FileExchange} {f : Reader}

theorem refuses_iff {n : Nat} {o : Outlet} (some : n ≠ 0) :
    Refuses n o ↔ (o.puts n).good = false := ⟨fun refused => refused.2, fun bad => ⟨some, bad⟩⟩

theorem put_overruns (o : Outlet) : o.put.overruns =
    o.overruns + if o.good = true ∧ kBufferSize < o.level then 1 else 0 := by
  unfold Outlet.put
  cases o.good with
  | false => simp
  | true =>
    by_cases room : o.level < kBufferSize
    · have within : ¬ kBufferSize < o.level := by omega
      simp [room, within]
    · simp only [room, if_true, if_false, true_and]
      split <;> rfl

theorem le_puts_overruns (n : Nat) (o : Outlet) : o.overruns ≤ (o.puts n).overruns := by
  induction n generalizing o with
  | zero => exact Nat.le_refl _
  | succ n ih =>
    have first : o.overruns ≤ o.put.overruns := by
      rw [put_overruns]
      exact Nat.le_add_right ..
    exact Nat.le_trans first (ih o.put)

theorem puts_overruns {n : Nat} {o : Outlet} :
    (o.puts n).overruns = o.overruns ↔ ¬ Overruns n o := by
  induction n generalizing o with
  | zero => simp [Overruns, Outlet.puts]
  | succ n ih =>
    have later := le_puts_overruns n o.put
    have one := put_overruns o
    have shifted : Overruns (n + 1) o ↔
        (o.good = true ∧ kBufferSize < o.level) ∨ Overruns n o.put := by
      constructor
      · rintro ⟨j, small, past⟩
        cases j with
        | zero => exact .inl past
        | succ j => exact .inr ⟨j, Nat.lt_of_succ_lt_succ small, past⟩
      · rintro (now | ⟨j, small, past⟩)
        · exact ⟨0, Nat.succ_pos n, now⟩
        · exact ⟨j + 1, Nat.succ_lt_succ small, past⟩
    rw [puts_succ, shifted, not_or, ← ih]
    by_cases now : o.good = true ∧ kBufferSize < o.level
    · rw [if_pos now] at one
      exact iff_of_false (by omega) fun none_over => none_over.1 now
    · rw [if_neg now, Nat.add_zero] at one
      rw [one]
      exact (and_iff_right now).symm

/-- xsputn sends when the put area is full, so a character that is refused lies past its end. -/
theorem refused_past {n : Nat} {o : Outlet} (good : o.good = true)
    (refused : (o.puts n).good = false) : kBufferSize < (o.puts n).level := by
  induction n generalizing o with
  | zero =>
    have same : o.good = false := refused
    rw [good] at same
    cases same
  | succ n ih =>
    rw [puts_succ] at refused ⊢
    by_cases goes : o.put.good = true
    · exact ih goes refused
    · rw [puts_failed (Bool.eq_false_iff.mpr goes)]
      unfold Outlet.put at goes ⊢
      rw [if_pos good] at goes ⊢
      split at goes
      · exact absurd good goes
      · rename_i full
        rw [if_neg full]
        split at goes
        · exact absurd rfl goes
        · show kBufferSize < o.level + 1
          omega
        · exact absurd rfl goes

theorem saves_string (text : List Byte) :
    Saves (encodeString text).length (do outputArchive; saveString text) := by
  have size : (encodeString text).length = 1 + (8 + text.length) := by
    simp [encodeString, lengthPrefixed, Nat.add_comm]
  have word := saves_binary (toLittle 8 text.length)
  rw [toLittle_length] at word
  rw [size]
  exact saves_bind (f := fun _ => saveString text) (saves_binary [1])
    (saves_bind (f := fun _ => saveBinary text) word (saves_binary text))

theorem saves_command (c : Command) : Saves 2 (do outputArchive; saveBinary [c.toByte]) :=
  saves_bind (f := fun _ => saveBinary [c.toByte]) (saves_binary [1]) (saves_binary [c.toByte])

/-- The process has not ended in xsputn if and only if there was room for all `n` characters. -/
def Spared (n : Nat) (fe : FileExchange) (f g : Reader) : Prop :=
  overruns g.machine = overruns f.machine ↔ ¬ Overruns n (outlet fe.buf f.machine true)

theorem spared_of_outlet {n : Nat} {b : SocketBuffer} {g : Reader} {good : Bool}
    (now : outlet b g.machine good = (outlet fe.buf f.machine true).puts n) : Spared n fe f g := by
  have count : overruns g.machine = ((outlet fe.buf f.machine true).puts n).overruns :=
    congrArg Outlet.overruns now
  rw [Spared, count]
  exact puts_overruns

/-- An exception says exactly that a character is refused. -/
theorem saves_on_rdbuf {n : Nat} {x : Io SocketBuffer Unit} (saves : Saves n x) (some : n ≠ 0)
    (fe : FileExchange) (f : Reader) : Comp.ensures (answers fileHost) (onRdbuf x)
      (fun r _ g => (r = .ok () ∧ ¬ Refuses n (outlet fe.buf f.machine true) ∨
        (∃ e, r = .error e ∧ e.isException) ∧ Refuses n (outlet fe.buf f.machine true)) ∧
          Spared n fe f g) fe f := by
  rw [ensures_onRdbuf, refuses_iff some]
  refine Comp.ensures_mono (saves fe.buf f) ?_
  rintro r c g ⟨_, ⟨rfl, now⟩ | ⟨failed, now⟩⟩
  · refine ⟨.inl ⟨rfl, ?_⟩, spared_of_outlet now⟩
    rw [← now]
    simp [outlet]
  · refine ⟨.inr ⟨failed, ?_⟩, spared_of_outlet now⟩
    rw [← now]
    rfl

/-- As the functions with a try block write: they return whether all could be written. -/
theorem saves_reported {n : Nat} {x : Io SocketBuffer Unit} (saves : Saves n x) (some : n ≠ 0)
    (fe : FileExchange) (f : Reader) : Comp.ensures (answers fileHost)
      (tryCatch (do onRdbuf x; pure true) fun _ => pure false)
      (fun r _ g => (∃ b, r = .ok b ∧
        (b = true ↔ ¬ Refuses n (outlet fe.buf f.machine true))) ∧ Spared n fe f g) fe f := by
  rw [ensures_tryCatch, Comp.ensures_bind]
  refine Comp.ensures_mono (saves_on_rdbuf saves some fe f) ?_
  rintro r fe' g ⟨⟨rfl, taken⟩ | ⟨⟨e, rfl, kind⟩, refused⟩, spared⟩
  · exact ⟨⟨true, rfl, by simp [taken]⟩, spared⟩
  · simp only [Comp.either_error, kind, if_true]
    exact ⟨⟨false, rfl, by simp [refused]⟩, spared⟩

theorem sendPath_reported (fe : FileExchange) (f : Reader) :
    Comp.ensures (answers fileHost) sendPath (fun r _ g => (∃ b, r = .ok b ∧
      (b = true ↔ ¬ Exchange.sendPath.Fails fe f)) ∧
        Spared (encodePath fe.path).length fe f g) fe f := by
  have reported := saves_reported (saves_string (genericString fe.path)) (by simp [encodeString])
    fe f
  rw [ensures_tryCatch] at reported
  rw [sendPath, ensures_tryCatch, Comp.ensures_bind, getPath, Comp.ensures_bind, Comp.ensures_get,
    Comp.either_ok, Comp.ensures_pure, Comp.either_ok]
  exact reported

theorem listServer_reported (username : List Byte) (fe : FileExchange) (f : Reader) :
    Comp.ensures (answers fileHost) (DropboxClientHandler.listServer username) (fun r _ g =>
      directoryTable f.machine.world.fs (syncDirWithPrefix username) = none ∧
          r = .error .terminate ∨
        ∃ table, directoryTable f.machine.world.fs (syncDirWithPrefix username) = some table ∧
          (∃ b, r = .ok b ∧ (b = true ↔ ¬ (Exchange.listServer username).Fails fe f)) ∧
          Spared (encodeString table).length fe f g) fe f := by
  have listing : fileHost f (.file (.directoryTable (syncDirWithPrefix username))) =
      (directoryTable f.machine.world.fs (syncDirWithPrefix username), f) := rfl
  rw [DropboxClientHandler.listServer, noexcept, ensures_tryCatch, Comp.ensures_bind, orThrow,
    Comp.ensures_bind, onFiles, Comp.ensures_call_answers, Comp.either_ok, listing]
  simp only [Exchange.Fails]
  cases directoryTable f.machine.world.fs (syncDirWithPrefix username) with
  | none => exact .inl ⟨rfl, rfl⟩
  | some table =>
    simp only [Comp.ensures_pure, Comp.either_ok]
    refine Comp.ensures_mono (saves_reported (saves_string table) (by simp [encodeString]) fe f) ?_
    rintro r fe' g ⟨⟨b, rfl, exact⟩, spared⟩
    exact .inr ⟨table, rfl, ⟨b, rfl, exact⟩, spared⟩

theorem sendCommand_returns (c : Command) (fe : FileExchange) (f : Reader) :
    Comp.ensures (answers fileHost) (sendCommand c) (fun r _ g =>
      (r = .ok () ∧ ¬ (Exchange.sendCommand c).Fails fe f ∨
        r = .error .terminate ∧ (Exchange.sendCommand c).Fails fe f) ∧ Spared 2 fe f g) fe f := by
  rw [sendCommand, noexcept, ensures_tryCatch]
  refine Comp.ensures_mono (saves_on_rdbuf (saves_command c) (by decide) fe f) ?_
  rintro r fe' g ⟨⟨rfl, taken⟩ | ⟨⟨e, rfl, kind⟩, refused⟩, spared⟩
  · exact ⟨.inl ⟨rfl, taken⟩, spared⟩
  · simp only [Comp.either_error, kind, if_true]
    exact ⟨.inr ⟨rfl, refused⟩, spared⟩

end Output

-- From here on the rules alone take a computation apart.
attribute [local irreducible] Comp.ensures

section Input

/-- A string is read if and only if it is all there. -/
theorem string_answers (b : SocketBuffer) (m : Machine) :
    Comp.ensures (answers host) (do let swap ← inputArchive; loadString swap)
      (fun r _ _ => (∃ text, stringOf (available b m) = some text ∧ r = .ok text) ∨
        stringOf (available b m) = none ∧ ∃ f, r = .error f ∧ f.isException) b m := by
  have word := headerWord_answers b m
  simp only [loadString]
  rw [← Comp.bind_assoc, Comp.ensures_bind]
  refine Comp.ensures_mono word ?_
  rintro r c k ⟨_, ⟨header, moved, rfl⟩ | ⟨short, f, rfl, kind⟩⟩
  · simp only [Comp.either_ok]
    by_cases fits : headerWord (available b m) < 2 ^ 63
    · rw [if_pos fits]
      refine Comp.ensures_mono (loadBinary_answers _ c k) ?_
      rw [moved.next, List.length_drop]
      rintro r d l ⟨_, ⟨enough, rfl, _⟩ | ⟨few, f, rfl, kind⟩⟩
      · have whole : 9 ≤ (available b m).length ∧ headerWord (available b m) < 2 ^ 63 ∧
            9 + headerWord (available b m) ≤ (available b m).length := ⟨header, fits, by omega⟩
        exact .inl ⟨_, if_pos whole, rfl⟩
      · refine .inr ⟨if_neg fun whole => ?_, f, rfl, kind⟩
        omega
    · rw [if_neg fits, Comp.ensures_throw]
      exact .inr ⟨if_neg fun whole => fits whole.2.1, _, rfl, rfl⟩
  · refine .inr ⟨if_neg fun whole => ?_, f, rfl, kind⟩
    omega

theorem receivePath_reported (fe : FileExchange) (m : Machine) :
    Comp.ensures (answers host) receivePath (fun r _ _ => ∃ b, r = .ok b ∧
      (b = true ↔ stringOf (available fe.buf m) ≠ none)) fe m := by
  rw [receivePath, ensures_tryCatch, Comp.ensures_bind, ensures_onRdbuf]
  refine Comp.ensures_mono (string_answers fe.buf m) ?_
  rintro r c k (⟨text, whole, rfl⟩ | ⟨lacks, f, rfl, kind⟩)
  · simp only [Comp.either_ok, setPath, Comp.ensures_bind, Comp.ensures_modify, Comp.ensures_pure]
    exact ⟨true, rfl, by simp [whole]⟩
  · simp only [Comp.either_error, kind, if_true, Comp.ensures_pure]
    exact ⟨false, rfl, by simp [lacks]⟩

theorem receiveCommand_reported (fe : FileExchange) (m : Machine) :
    Comp.ensures (answers host) receiveCommand (fun r _ _ =>
      (∃ c, r = .ok (.ok c)) ∧ 2 ≤ (available fe.buf m).length ∨
        (∃ e, r = .ok (.error e)) ∧ (available fe.buf m).length < 2) fe m := by
  rw [receiveCommand, ensures_tryCatch, Comp.ensures_bind, ensures_onRdbuf]
  simp only [inputArchive, Comp.ensures_bind]
  refine Comp.ensures_mono (loadBinary_answers 1 fe.buf m) ?_
  rintro r c k ⟨_, ⟨flag, rfl, moved⟩ | ⟨none, f, rfl, kind⟩⟩
  · simp only [Comp.either_ok, Comp.ensures_pure]
    refine Comp.ensures_mono (loadBinary_answers 1 c k) ?_
    rw [moved.next, List.length_drop]
    rintro r d l ⟨_, ⟨enough, rfl, _⟩ | ⟨few, f, rfl, kind⟩⟩
    · rw [Comp.either_ok, Comp.ensures_pure]
      exact .inl ⟨⟨_, rfl⟩, by omega⟩
    · simp only [Comp.either_error, kind, if_true]
      -- the two reasons that are told apart
      split
      · exact Comp.ensures_pure.mpr (.inr ⟨⟨_, rfl⟩, by omega⟩)
      · exact Comp.ensures_pure.mpr (.inr ⟨⟨_, rfl⟩, by omega⟩)
  · simp only [Comp.either_error, kind, if_true]
    split
    · exact Comp.ensures_pure.mpr (.inr ⟨⟨_, rfl⟩, by omega⟩)
    · exact Comp.ensures_pure.mpr (.inr ⟨⟨_, rfl⟩, by omega⟩)

end Input

/-- Receive is true only after a whole header. -/
theorem receive_header (fuel : Nat) (fe : FileExchange) (m : Machine) :
    Comp.ensures (answers host) (receive fuel)
      (fun r _ _ => r = .ok true → 9 ≤ (available fe.buf m).length) fe m := by
  rw [receive, noexcept, ensures_tryCatch, Comp.ensures_bind, getPath, Comp.ensures_bind,
    Comp.ensures_get, Comp.either_ok, Comp.ensures_pure, Comp.either_ok, Comp.ensures_bind]
  refine Comp.ensures_mono (prepare_answers fe.path fe m) ?_
  rintro r fe' k ⟨same, result⟩
  rw [same]
  rcases result with ⟨_, rfl⟩ | ⟨opened, after, _, rfl, rfl⟩
  · refine Comp.ensures_throw.mpr fun succeeded => ?_
    cases succeeded
  · cases opened with
    | false =>
      refine Comp.ensures_pure.mpr fun succeeded => ?_
      cases succeeded
    | true =>
      simp only [Comp.either_ok, if_true]
      rw [ensures_tryCatch, Comp.ensures_bind, ensures_onRdbuf]
      refine Comp.ensures_mono (headerWord_answers fe.buf (withFiles after m)) ?_
      rintro r c k ⟨_, ⟨header, _, rfl⟩ | ⟨_, e, rfl, kind⟩⟩
      · have all : 9 ≤ (available fe.buf m).length := header
        refine Comp.ensures_mono (Comp.ensures_answers.mpr trivial) fun r fe' k (_ : True) => ?_
        cases r with
        | ok b => exact fun _ => all
        | error e =>
          simp only [Comp.either_error]
          split
          · exact Comp.ensures_pure.mpr fun _ => all
          · exact fun _ => all
      · simp only [Comp.either_error, kind, if_true]
        refine Comp.ensures_pure.mpr fun succeeded => ?_
        cases succeeded

section Whole
variable {fe : FileExchange} {f : Reader}

/-- The calls that are not about the file that is sent. -/
def Direct (s : Sys) : Prop :=
  ∀ f, host f.machine s = ((fileHost f s).1, (fileHost f s).2.machine)

theorem direct_network : Network Direct := ⟨⟨fun _ _ => rfl, fun _ _ => rfl⟩, fun _ _ => rfl⟩

theorem direct_writes (p : Path) : Writes Direct p :=
  ⟨fun _ => rfl, fun _ => rfl, fun _ => rfl, fun _ _ => rfl⟩

theorem exec_direct {A : Type} {x : Io FileExchange A} (made : Makes Direct x)
    (fe : FileExchange) (f : Reader) :
    (Comp.exec fileHost x fe f).1 = (exec x fe f.machine).1 := by
  have agree : ∀ (f : Reader) (s : Sys), Direct s →
      host (Reader.machine f) s = ((fileHost f s).1, Reader.machine (fileHost f s).2) :=
    fun f _ direct => direct f
  have same := exec_agrees agree made fe f
  exact (congrArg Prod.fst same).symm

/-- A call that does not tell of an overrun. -/
def Silent (s : Sys) : Prop :=
  ∀ f : Reader, overruns (fileHost f s).2.machine = overruns f.machine

theorem silent_wire : Wire Silent := by
  refine ⟨fun n f => ?_, fun bytes f => ?_⟩
  · show overruns (f.machine.recv n).2 = _
    unfold Machine.recv overruns
    split <;> rfl
  · show overruns (f.machine.send bytes).2 = _
    unfold Machine.send overruns
    split <;> rfl

theorem silent_writes (p : Path) : Writes Silent p :=
  ⟨fun _ => rfl, fun _ => rfl, fun _ => rfl, fun _ _ => rfl⟩

/-- Nothing is given to xsputn. -/
theorem exec_silent {A : Type} {x : Io FileExchange A} (made : Makes Silent x)
    (fe : FileExchange) (f : Reader) :
    overruns (Comp.exec fileHost x fe f).2.2.machine = overruns f.machine := by
  have keeps : ∀ (g : Reader) (s : Sys) (r : s.Reply) (h : Reader),
      overruns g.machine = overruns f.machine → Silent s → fileHost g s = (r, h) →
        overruns h.machine = overruns f.machine := by
    intro g s r h before silent reply
    obtain rfl : (fileHost g s).2 = h := congrArg Prod.snd reply
    exact (silent g).trans before
  have kept := ensures_makes (e := answers fileHost)
    (I := fun g : Reader => overruns g.machine = overruns f.machine)
    (fun _ _ _ _ => trivial) keeps rfl made fe
  exact Comp.ensures_answers.mp kept

theorem reports_bool {y : Nat → Io FileExchange Bool} {failed : Prop} :
    (∃ fuel report, (Comp.exec fileHost (do pure (some (← y fuel))) fe f).1 = .ok report ∧
      overruns (Comp.exec fileHost (do pure (some (← y fuel))) fe f).2.2.machine =
        overruns f.machine ∧ (failed → report ≠ some true)) ↔
    ∃ fuel b, (Comp.exec fileHost (y fuel) fe f).1 = .ok b ∧
      overruns (Comp.exec fileHost (y fuel) fe f).2.2.machine = overruns f.machine ∧
      (failed → b = false) := by
  simp only [Comp.exec_map_rest]
  constructor
  · rintro ⟨fuel, report, ended, spared, honest⟩
    rw [Comp.exec_map] at ended
    cases returned : (Comp.exec fileHost (y fuel) fe f).1 with
    | error e =>
      rw [returned] at ended
      cases ended
    | ok b =>
      rw [returned] at ended
      cases ended
      exact ⟨fuel, b, returned, spared, fun fails => by simpa using honest fails⟩
  · rintro ⟨fuel, b, ended, spared, honest⟩
    refine ⟨fuel, some b, ?_, spared, fun fails => by simp [honest fails]⟩
    rw [Comp.exec_map, ended]
    rfl

/-- A function that returns and says what has become of it. -/
theorem reports_of_reported {y : Io FileExchange Bool} {failed : Prop}
    (reported : ∃ b, (Comp.exec fileHost y fe f).1 = .ok b ∧ (b = true ↔ ¬ failed)) :
    (∃ (_ : Nat) (report : Option Bool),
      (Comp.exec fileHost (do pure (some (← y))) fe f).1 = .ok report ∧
      overruns (Comp.exec fileHost (do pure (some (← y))) fe f).2.2.machine = overruns f.machine ∧
      (failed → report ≠ some true)) ↔
    overruns (Comp.exec fileHost y fe f).2.2.machine = overruns f.machine := by
  refine reports_bool.trans ⟨fun ⟨_, _, _, spared, _⟩ => spared, fun spared => ?_⟩
  obtain ⟨b, returned, honest⟩ := reported
  refine ⟨0, b, returned, spared, fun fails => ?_⟩
  exact Bool.eq_false_iff.mpr fun success => honest.mp success fails

/-- A file that cannot be opened or measured is reported. -/
theorem send_unread (fuel : Nat) (fe : FileExchange) {f : Reader}
    (closed : f.opens = false ∨ f.size = none) :
    (Comp.exec fileHost (DropboxProtocol.send fuel) fe f).1 = .ok false ∧
      (Comp.exec fileHost (DropboxProtocol.send fuel) fe f).2.2 = f := by
  have opening : fileHost f (.file (.openIn fe.path)) = (f.opens, f) := rfl
  have sizing : fileHost f (.file (.fileSize fe.path)) = (f.size, f) := rfl
  have ended : Comp.ensures (answers fileHost) (DropboxProtocol.send fuel)
      (fun r _ g => r = .ok false ∧ g = f) fe f := by
    rw [DropboxProtocol.send, Comp.ensures_bind, getPath, Comp.ensures_bind, Comp.ensures_get,
      Comp.either_ok, Comp.ensures_pure, Comp.either_ok, Comp.ensures_bind, onFiles,
      Comp.ensures_call_answers, Comp.either_ok, opening]
    cases opens : f.opens with
    | false => exact Comp.ensures_pure.mpr ⟨rfl, rfl⟩
    | true =>
      have size : f.size = none := closed.resolve_left (by simp [opens])
      rw [if_pos rfl, ensures_tryCatch, Comp.ensures_bind, orThrow, Comp.ensures_bind, onFiles,
        Comp.ensures_call_answers, Comp.either_ok, sizing, size]
      exact Comp.ensures_throw.mpr (Comp.ensures_pure.mpr ⟨rfl, rfl⟩)
  exact Comp.ensures_answers.mp ended

/-- What the header and the content have each added to the overruns. -/
theorem content_overruns {k : Nat} :
    ((contentOutlet fe f.machine).puts k).overruns = overruns f.machine ↔
      ¬ Overruns 9 (outlet fe.buf f.machine true) ∧ ¬ Overruns k (contentOutlet fe f.machine) := by
  have first : overruns f.machine ≤ (contentOutlet fe f.machine).overruns :=
    le_puts_overruns 9 (outlet fe.buf f.machine true)
  have second := le_puts_overruns k (contentOutlet fe f.machine)
  have header : (contentOutlet fe f.machine).overruns = overruns f.machine ↔
      ¬ Overruns 9 (outlet fe.buf f.machine true) := puts_overruns
  rw [← header, ← puts_overruns]
  omega

theorem send_sent (fuel : Nat) (fe : FileExchange) (fine : f.failed = false) : ∃ o,
    Sent fe f fuel (Comp.exec fileHost (DropboxProtocol.send fuel) fe f).1 o ∧
      o.overruns = overruns (Comp.exec fileHost (DropboxProtocol.send fuel) fe f).2.2.machine :=
  ⟨_, Comp.ensures_answers.mp (send_outlet fuel fe fine), rfl⟩

theorem send_reports (fine : f.failed = false) :
    Exchange.send.Reports fe f ↔ Exchange.send.Sound fe f := by
  have header : Refuses 9 (outlet fe.buf f.machine true) ↔ (afterHeader fe f.machine).good = false :=
    refuses_iff (by decide)
  refine reports_bool.trans ⟨?_, ?_⟩
  · rintro ⟨fuel, b, returned, spared, honest⟩ opens size
    obtain ⟨o, sent, count⟩ := send_sent fuel fe fine
    rw [spared] at count
    rw [returned] at sent
    cases sent with
    | closed closed =>
      rcases closed with closed | unknown
      · rw [closed] at opens
        cases opens
      · exact absurd unknown size
    | refused refused =>
      exact ⟨(content_overruns (k := 0).mp count).1, fun taken => absurd (header.mpr refused) taken⟩
    | @whole k known ends =>
      obtain ⟨room, content⟩ := content_overruns.mp count
      refine ⟨room, fun _ => ⟨k, ends, fun refused => ?_, content⟩⟩
      cases honest (.inr (.inr (.inr (.inr ⟨k, ends, refused⟩))))
  · intro sound
    by_cases closed : f.opens = false ∨ f.size = none
    · obtain ⟨returned, same⟩ := send_unread 0 fe closed
      exact ⟨0, false, returned, by rw [same], fun _ => rfl⟩
    · simp only [not_or, Bool.not_eq_false] at closed
      obtain ⟨opens, size⟩ := closed
      obtain ⟨room, goes⟩ := sound opens size
      by_cases taken : Refuses 9 (outlet fe.buf f.machine true)
      · have bad := header.mp taken
        obtain ⟨o, sent, count⟩ := send_sent 0 fe fine
        refine ⟨0, ?_⟩
        rw [← count]
        generalize (Comp.exec fileHost (DropboxProtocol.send 0) fe f).1 = r at sent ⊢
        cases sent with
        | closed closed => exact ⟨false, rfl, rfl, fun _ => rfl⟩
        | refused refused => exact ⟨false, rfl, puts_overruns.mpr room, fun _ => rfl⟩
        | whole known ends =>
          rw [bad] at known
          cases known
        | hangs opens size known more =>
          rw [bad] at known
          cases known
      · obtain ⟨k, ends, whole, content⟩ := goes taken
        obtain ⟨o, sent, count⟩ := send_sent (k + 1) fe fine
        refine ⟨k + 1, ?_⟩
        rw [← count]
        generalize (Comp.exec fileHost (DropboxProtocol.send (k + 1)) fe f).1 = r at sent ⊢
        cases sent with
        | closed closed => exact ⟨false, rfl, rfl, fun _ => rfl⟩
        | refused refused => exact absurd (header.mpr refused) taken
        | @whole j known ends' =>
          obtain rfl := endsAt_unique ends ends'
          refine ⟨true, rfl, content_overruns.mpr ⟨room, content⟩, fun fails => ?_⟩
          rcases fails with never | unknown | refused | endless | ⟨j, there, refused⟩
          · rw [opens] at never
            cases never
          · exact absurd unknown size
          · exact absurd refused taken
          · exact absurd ends (endless k)
          · obtain rfl := endsAt_unique there ends
            exact absurd refused whole
        | hangs opens size known more => exact absurd (more k ends) (by omega)

theorem receive_reports : Exchange.receive.Reports fe f ↔ Exchange.receive.Sound fe f := by
  have same := fun fuel => exec_direct (makes_receive direct_network.toWire direct_writes fuel) fe f
  have spared := fun fuel => exec_silent (makes_receive silent_wire silent_writes fuel) fe f
  refine reports_bool.trans ?_
  simp only [same, spared, true_and]
  refine Iff.trans ?_ (receive_returns fe f.machine)
  constructor
  · rintro ⟨fuel, b, returned, _⟩
    exact ⟨fuel, b, returned⟩
  · rintro ⟨fuel, b, returned⟩
    refine ⟨fuel, b, returned, ?_⟩
    have received := Comp.ensures_answers.mp (receive_answers fuel fe f.machine)
    rw [← exec, returned] at received
    cases received with
    | closed closed stays => exact fun _ => rfl
    | headless opens short => exact fun _ => rfl
    | whole opens arrives taken =>
      have header := Comp.ensures_answers.mp (receive_header fuel fe f.machine) returned
      intro fails
      rcases fails with shut | short | lacks
      · exact absurd (by rw [opens]; rfl) shut
      · omega
      · exact absurd arrives lacks

theorem sendCommand_reports (c : Command) :
    (Exchange.sendCommand c).Reports fe f ↔ (Exchange.sendCommand c).Sound fe f := by
  obtain ⟨ended, spared⟩ := Comp.ensures_answers.mp (sendCommand_returns c fe f)
  have mapped : ∀ fuel, (Comp.exec fileHost ((Exchange.sendCommand c).perform fuel) fe f).1 =
      (Comp.exec fileHost (DropboxProtocol.sendCommand c) fe f).1.map fun _ => none :=
    fun _ => Comp.exec_map (fun _ => none) _ fe f
  have rest : ∀ fuel, (Comp.exec fileHost ((Exchange.sendCommand c).perform fuel) fe f).2 =
      (Comp.exec fileHost (DropboxProtocol.sendCommand c) fe f).2 :=
    fun _ => Comp.exec_map_rest (fun _ => none) _ fe f
  unfold Exchange.Reports
  simp only [rest]
  constructor
  · rintro ⟨fuel, report, returned, none_over, _⟩
    refine ⟨?_, spared.mp none_over⟩
    rcases ended with ⟨_, taken⟩ | ⟨terminated, _⟩
    · exact taken
    · rw [mapped, terminated] at returned
      cases returned
  · rintro ⟨taken, room⟩
    rcases ended with ⟨returned, _⟩ | ⟨_, refused⟩
    · refine ⟨0, none, ?_, spared.mpr room, fun _ => by simp⟩
      rw [mapped, returned]
      rfl
    · exact absurd refused taken

theorem listServer_reports (username : List Byte) :
    (Exchange.listServer username).Reports fe f ↔ (Exchange.listServer username).Sound fe f := by
  rcases Comp.ensures_answers.mp (listServer_reported username fe f) with
    ⟨unlisted, terminated⟩ | ⟨table, listed, reported, spared⟩
  · refine iff_of_false (fun reports => ?_) ?_
    · obtain ⟨_, b, returned, _⟩ := reports_bool.mp reports
      rw [terminated] at returned
      cases returned
    · rintro ⟨table, listed, _⟩
      rw [unlisted] at listed
      cases listed
  · refine (reports_of_reported reported).trans (spared.trans ?_)
    simp only [Exchange.Sound, listed, Option.some.injEq, exists_eq_left']

theorem sendPath_reports : Exchange.sendPath.Reports fe f ↔ Exchange.sendPath.Sound fe f := by
  obtain ⟨reported, spared⟩ := Comp.ensures_answers.mp (sendPath_reported fe f)
  exact (reports_of_reported reported).trans spared

/-- Send says nothing of content that the OS has refused, and the next SendPath ends the process. -/
theorem refused_send_ends_next {fuel k : Nat} (fine : f.failed = false)
    (good : fe.stream.good = true) (ends : EndsAt f.outcome k)
    (refused : Refuses (brings f.outcome k) (contentOutlet fe f.machine))
    (returned : (Comp.exec fileHost (DropboxProtocol.send fuel) fe f).1 = .ok true) :
    ¬ Exchange.sendPath.Reports (Comp.exec fileHost (DropboxProtocol.send fuel) fe f).2.1
      (Comp.exec fileHost (DropboxProtocol.send fuel) fe f).2.2 := by
  have sent := Comp.ensures_answers.mp (send_outlet fuel fe fine)
  rw [returned] at sent
  generalize Comp.exec fileHost (DropboxProtocol.send fuel) fe f = done at sent ⊢
  obtain ⟨_, fe', g⟩ := done
  have past : kBufferSize < fe'.buf.pptr := by
    generalize left : outlet fe'.stream.buf g.machine fe'.stream.good = o at sent
    have level : fe'.buf.pptr = o.level := congrArg Outlet.level left
    rw [level]
    cases sent with
    | @whole j _ ends' =>
      obtain rfl := endsAt_unique ends ends'
      exact refused_past good refused.2
  rw [sendPath_reports]
  exact not_not_intro ⟨0, by simp [encodePath, encodeString], rfl, past⟩

theorem receivePath_reports : Exchange.receivePath.Reports fe f := by
  have ended : ∃ b, (exec receivePath fe f.machine).1 = .ok b ∧
      (b = true ↔ stringOf (available fe.buf f.machine) ≠ none) :=
    Comp.ensures_answers.mp (receivePath_reported fe f.machine)
  rw [← exec_direct (makes_receivePath direct_network.toWire) fe f] at ended
  exact (reports_of_reported ended).mpr (exec_silent (makes_receivePath silent_wire) fe f)

theorem receiveCommand_reports : Exchange.receiveCommand.Reports fe f := by
  have ended : (∃ c, (exec receiveCommand fe f.machine).1 = .ok (.ok c)) ∧
        2 ≤ (available fe.buf f.machine).length ∨
      (∃ e, (exec receiveCommand fe f.machine).1 = .ok (.error e)) ∧
        (available fe.buf f.machine).length < 2 :=
    Comp.ensures_answers.mp (receiveCommand_reported fe f.machine)
  rw [← exec_direct (makes_receiveCommand direct_network.toWire) fe f] at ended
  have spared := exec_silent (makes_receiveCommand silent_wire) fe f
  have told : Comp.ensures (answers fileHost) (Exchange.receiveCommand.perform 0)
      (fun r _ g => ∃ report, r = .ok report ∧ overruns g.machine = overruns f.machine ∧
        (Exchange.receiveCommand.Fails fe f → report ≠ some true)) fe f := by
    rw [Exchange.perform, Comp.ensures_bind, Comp.ensures_answers]
    generalize Comp.exec fileHost receiveCommand fe f = done at ended spared ⊢
    rcases ended with ⟨⟨c, returned⟩, all⟩ | ⟨⟨e, returned⟩, _⟩
    · rw [returned]
      refine Comp.ensures_pure.mpr ⟨some true, rfl, spared, fun short => ?_⟩
      exact absurd short (Nat.not_lt.mpr all)
    · rw [returned]
      exact Comp.ensures_pure.mpr ⟨some false, rfl, spared, fun _ => by simp⟩
  exact ⟨0, Comp.ensures_answers.mp told⟩

end Whole

/-- Which of the functions come back from what fails, and when the others do. -/
theorem exchange_reports_iff (x : Exchange) (fe : FileExchange) (m : Machine) (opens : Bool)
    (size : Option Nat) (outcome : Nat → Option (List Byte)) :
    x.Reports fe ⟨m, opens, size, outcome, false⟩ ↔ x.Sound fe ⟨m, opens, size, outcome, false⟩ := by
  cases x with
  | send => exact send_reports rfl
  | receive => exact receive_reports
  | sendPath => exact sendPath_reports
  | receivePath => exact iff_of_true receivePath_reports trivial
  | sendCommand command => exact sendCommand_reports command
  | receiveCommand => exact iff_of_true receiveCommand_reports trivial
  | listServer username => exact listServer_reports username

/-- A store like most: names have at most 255 characters. -/
def shortNames : Machine :=
  ⟨⟨{ Fs.empty with refused := fun _ k => k.names.any fun name => 255 < name.length }, [], [], []⟩,
    [], []⟩

/-- A received path with a longer name ends the program. -/
theorem long_name_terminates :
    (exec (DropboxProtocol.receive 1) (.fresh (fun _ => 0) (List.replicate 256 97)) shortNames).1 =
        .error .terminate ∧
      ¬ Exchange.receive.Reports (.fresh (fun _ => 0) (List.replicate 256 97))
        ⟨shortNames, false, none, fun _ => none, false⟩ := by
  refine ⟨by decide +kernel, fun reports => ?_⟩
  obtain ⟨opened, after, dest, _⟩ := receive_reports.mp reports
  have refused : (openDestination shortNames.world.fs (List.replicate 256 97)).isSome = false := by
    decide +kernel
  have there : openDestination shortNames.world.fs (List.replicate 256 97) = some (opened, after) :=
    dest
  rw [there] at refused
  cases refused

end DropboxExchangeFaults
