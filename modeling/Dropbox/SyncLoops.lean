import Dropbox.Backup
import Dropbox.Client
import Dropbox.ClientHandler
import Dropbox.EndOfStream

/-!
The three loops that apply the uploads and deletes of another party: SyncFromClient
on the primary, MainLoop of a backup, SyncFromServer of a client. What a message
does to store, path_ and broadcasts is stated once, and each loop does it.
-/
namespace DropboxSyncLoops
open DropboxFileStore DropboxHost DropboxSocketStream DropboxStreamRules DropboxProtocol
open DropboxProtocolRules DropboxEndOfStream Programs Codec

inductive Message where
  | upload (p : Path) (content : List Byte)
  | delete (p : Path)
  deriving DecidableEq, Repr

def Message.command : Message → Command
  | .upload _ _ => .kUpload
  | .delete _ => .kDelete

def Message.path : Message → Path
  | .upload p _ | .delete p => p

def Message.body : Message → List Byte
  | .upload _ content => encodeFile content
  | .delete _ => []

def encodeMessage (m : Message) : List Byte :=
  encodeCommand m.command ++ (encodeString m.path ++ m.body)

/-- A std::string and a file hold fewer than 2^63 bytes, and the loop of Receive has fuel. -/
def Message.Sized (fuel : Nat) : Message → Prop
  | .upload p content => p.length < 2 ^ 63 ∧ content.length < 2 ^ 63 ∧ content.length < fuel
  | .delete p => p.length < 2 ^ 63

inductive Loop where
  | primary
  | backup
  | client
  deriving DecidableEq, Repr

/-- The loops, stopped after so many turns. -/
def Loop.turns (fuel : Nat) : Loop → Nat → Io FileExchange Unit
  | .primary, n => DropboxClientHandler.syncLoop fuel n
  | .backup, n => do
    let _ ← DropboxBackup.mainLoop fuel n
    pure ()
  | .client, n => DropboxClient.syncFromServer fuel n

/-- The functions around the loops; the primary first sends the addresses of the servers. -/
def Loop.run (fuel : Nat) (servers : List Byte) : Loop → Nat → Io FileExchange Unit
  | .primary, n => DropboxClientHandler.syncFromClient fuel servers n
  | loop, n => loop.turns fuel n

/-- The store, path_ and the log between two turns. -/
structure Point where
  fs : Fs
  path : Path
  log : List Event

/-- The loop goes on with the next message, an exception has ended it, or the content of a file that
    could not be opened is still on the stream. -/
inductive Fate where
  | goes
  | stops
  | strays
  deriving DecidableEq, Repr

/-- What is done to the store before a path is handled; `none` is an exception. -/
def Loop.enter : Loop → Fs → Path → Option Fs
  | .backup, fs, p => (createDirectory fs (DropboxBackup.firstPart p)).map Prod.snd
  | _, fs, _ => some fs

def Loop.announce : Loop → Event → List Event → List Event
  | .primary, e, log => log ++ [e]
  | _, _, log => log

def Loop.discard : Loop → Fs → Path → Option Fs
  | .primary, fs, p => (remove fs p).map Prod.snd
  | _, fs, p => (pathExists fs p).bind fun present =>
      if present then (remove fs p).map Prod.snd else some fs

/-- An upload of this content under this path. -/
def Loop.store (loop : Loop) (s : Point) (p : Path) (content : List Byte) : Point × Fate :=
  match loop.enter s.fs p with
  | none => (⟨s.fs, p, s.log⟩, .stops)
  | some fs =>
    match openDestination fs p with
    | none => (⟨fs, p, s.log⟩, .stops)
    | some (false, opened) => (⟨opened, p, loop.announce (.broadcastUpload p) s.log⟩, .strays)
    | some (true, opened) =>
      (⟨opened.put (key p) (.file content), p, loop.announce (.broadcastUpload p) s.log⟩, .goes)

/-- A delete of this path. -/
def Loop.erase (loop : Loop) (s : Point) (p : Path) : Point × Fate :=
  match loop.enter s.fs p with
  | none => (⟨s.fs, p, s.log⟩, .stops)
  | some fs =>
    match loop.discard fs p with
    | none => (⟨fs, p, s.log⟩, .stops)
    | some after => (⟨after, p, loop.announce (.broadcastDelete p) s.log⟩, .goes)

def Loop.apply (loop : Loop) (s : Point) : Message → Point × Fate
  | .upload p content => loop.store s p content
  | .delete p => loop.erase s p

/-- The messages one after the other, as long as the loop goes on. -/
def Loop.course (loop : Loop) : Point → List Message → Point × Fate
  | s, [] => (s, .goes)
  | s, m :: rest =>
    match loop.apply s m with
    | (t, .goes) => loop.course t rest
    | ended => ended

def isBroadcast : Event → Bool
  | .broadcastUpload _ | .broadcastDelete _ => true
  | _ => false

def broadcasts (log : List Event) : List Event := log.filter isBroadcast

/-- Store and broadcasts of the world are those of the point. -/
def Shows (s : Point) (w : World) : Prop := w.fs = s.fs ∧ broadcasts w.log = broadcasts s.log

def Stands (s : Point) : FileExchange → World → Prop := At s.path s.fs s.log

theorem stands_shows {s : Point} (fe : FileExchange) (w : World) (here : Stands s fe w) :
    Shows s w := ⟨here.2.2.1, by rw [here.2.2.2]⟩

variable {input all rest left : List Byte} {loop : Loop} {s t : Point} {p : Path} {fs after : Fs}
variable {log : List Event} {fuel turns : Nat} {F : World → Prop}

theorem ends_assoc {A B C : Type} {I : FileExchange → World → Prop} {x : Io FileExchange A}
    {f : A → Io FileExchange B} {g : B → Io FileExchange C}
    (nested : Ends input FileExchange.buf I (x >>= fun a => f a >>= g) rest F) :
    Ends input FileExchange.buf I ((x >>= f) >>= g) rest F := by
  intro written fe w here before
  have meets := nested here before
  rw [Comp.ensures_bind] at meets ⊢
  rw [Comp.ensures_bind]
  apply Comp.ensures_mono meets
  intro r k v done
  cases r with
  | ok a => rwa [Comp.either_ok, Comp.ensures_bind] at done
  | error e => exact done

theorem ends_fault {A B : Type} {I J : FileExchange → World → Prop} {x : Io FileExchange A}
    {f : A → Io FileExchange B} {e : Fault}
    (head : Reads input FileExchange.buf I x rest (.error e) left J) (final : ∀ fe w, J fe w → F w) :
    Ends input FileExchange.buf I (x >>= f) rest F := ends_of_reads (reads_fault head) final

theorem ends_pure {A : Type} {a : A} (final : ∀ fe w, Stands s fe w → F w) :
    Ends input FileExchange.buf (Stands s) (pure a : Io FileExchange A) rest F :=
  ends_of_reads (reads_pure a rest) final

/-- A broadcast is logged, whatever it answers. -/
theorem ends_broadcast {B : Type} {e : Event} {f : Bool → Io FileExchange B}
    (tail : ∀ b, Ends input FileExchange.buf (At p fs (log ++ [e])) (f b) rest F) :
    Ends input FileExchange.buf (At p fs log) (broadcast e >>= f) rest F := by
  rintro written fe w ⟨good, path, files, logged⟩ ⟨taken, split, linked⟩
  rw [Comp.ensures_bind, ensures_broadcast]
  refine ⟨trivial, fun b => ?_⟩
  rw [Comp.either_ok]
  exact tail b ⟨good, path, files, by rw [logged]⟩
    ⟨taken, split, linked_of_same linked rfl rfl rfl⟩

/-- Discarding the value of the loop does not change how it ends. -/
theorem ends_value {A : Type} {I : FileExchange → World → Prop} {x : Io FileExchange A} :
    Ends input FileExchange.buf I (do let _ ← x; pure ()) rest F ↔
      Ends input FileExchange.buf I x rest F := by
  have same : ∀ fe w, Comp.ensures (delivers input).env (do let _ ← x; pure ())
      (fun _ _ v => F v) fe w ↔ Comp.ensures (delivers input).env x (fun _ _ v => F v) fe w := by
    intro fe w
    rw [Comp.ensures_bind]
    constructor <;> intro meets <;> apply Comp.ensures_mono meets <;> intro r k v final <;>
      cases r <;> exact final
  simp only [Ends, same]

/-- The directory of a backup is made, or cannot be made. -/
theorem reads_enter (input : List Byte) (log : List Event)
    (entered : Loop.backup.enter fs p = some after) (rest : List Byte) :
    ∃ made, Reads input FileExchange.buf (At p fs log)
      (orThrow (onFiles (.createDirectory (DropboxBackup.firstPart p)))) rest (.ok made) rest
      (At p after log) := by
  obtain ⟨⟨made, _⟩, creating, rfl⟩ := Option.map_eq_some_iff.mp entered
  exact ⟨made, reads_of_keeps
    (keeps_orThrow (keeps_onFiles (by simp [fileCall, creating, orSame]))) rest⟩

theorem reads_enter_refused (refused : Loop.backup.enter fs p = none) (rest : List Byte) :
    Reads input FileExchange.buf (At p fs log)
      (orThrow (onFiles (.createDirectory (DropboxBackup.firstPart p)))) rest (.error .filesystem)
      rest (At p fs log) := by
  have stuck : createDirectory fs (DropboxBackup.firstPart p) = none :=
    Option.map_eq_none_iff.mp refused
  exact reads_refused (keeps_onFiles (by simp [fileCall, stuck, orSame])) rest

/-- A turn with an upload, from what ReceivePath and Receive come to. -/
theorem ends_upload {got done : Bool} {afterCommand : List Byte}
    (command : Reads input FileExchange.buf (Stands s) receiveCommand all (.ok (.ok (some .kUpload)))
      afterCommand (Stands s))
    (path : Reads input FileExchange.buf (Stands s) receivePath afterCommand (.ok got) rest
      (At p s.fs s.log))
    (entered : loop.enter s.fs p = some fs)
    (received : Reads input FileExchange.buf (At p fs s.log) (receive fuel) rest (.ok done) left
      (At p after s.log))
    (tail : Ends input FileExchange.buf
      (At p after (loop.announce (.broadcastUpload p) s.log)) (loop.turns fuel turns) left F) :
    Ends input FileExchange.buf (Stands s) (loop.turns fuel (turns + 1)) all F := by
  cases loop with
  | primary =>
    obtain rfl : s.fs = fs := Option.some.inj entered
    refine ends_assoc ?_
    refine ends_bind command ?_
    refine ends_assoc ?_
    refine ends_bind path ?_
    refine ends_assoc ?_
    refine ends_bind received ?_
    refine ends_assoc ?_
    refine ends_bind (reads_of_keeps keeps_getPath left) ?_
    refine ends_assoc ?_
    exact ends_broadcast fun _ => tail
  | backup =>
    obtain ⟨made, entering⟩ := reads_enter input s.log entered rest
    refine ends_value.mpr ?_
    refine ends_bind command ?_
    refine ends_bind path ?_
    refine ends_bind (reads_of_keeps keeps_getPath rest) ?_
    refine ends_bind entering ?_
    refine ends_bind received ?_
    exact ends_value.mp tail
  | client =>
    obtain rfl : s.fs = fs := Option.some.inj entered
    refine ends_bind command ?_
    refine ends_bind path ?_
    exact ends_bind received tail

/-- Receive does not return. -/
theorem ends_upload_fault {got : Bool} {e : Fault} {J : FileExchange → World → Prop}
    {afterCommand : List Byte}
    (command : Reads input FileExchange.buf (Stands s) receiveCommand all (.ok (.ok (some .kUpload)))
      afterCommand (Stands s))
    (path : Reads input FileExchange.buf (Stands s) receivePath afterCommand (.ok got) rest
      (At p s.fs s.log))
    (entered : loop.enter s.fs p = some fs)
    (received : Reads input FileExchange.buf (At p fs s.log) (receive fuel) rest (.error e) left J)
    (final : ∀ fe w, J fe w → F w) :
    Ends input FileExchange.buf (Stands s) (loop.turns fuel (turns + 1)) all F := by
  cases loop with
  | primary =>
    obtain rfl : s.fs = fs := Option.some.inj entered
    refine ends_assoc ?_
    refine ends_bind command ?_
    refine ends_assoc ?_
    refine ends_bind path ?_
    refine ends_assoc ?_
    exact ends_fault received final
  | backup =>
    obtain ⟨made, entering⟩ := reads_enter input s.log entered rest
    refine ends_value.mpr ?_
    refine ends_bind command ?_
    refine ends_bind path ?_
    refine ends_bind (reads_of_keeps keeps_getPath rest) ?_
    refine ends_bind entering ?_
    exact ends_fault received final
  | client =>
    obtain rfl : s.fs = fs := Option.some.inj entered
    refine ends_bind command ?_
    refine ends_bind path ?_
    exact ends_fault received final

/-- The directory of the path cannot be made. -/
theorem ends_stuck {got : Bool} {c : Command} (kind : c = .kUpload ∨ c = .kDelete)
    {afterCommand : List Byte}
    (command : Reads input FileExchange.buf (Stands s) receiveCommand all (.ok (.ok (some c)))
      afterCommand (Stands s))
    (path : Reads input FileExchange.buf (Stands s) receivePath afterCommand (.ok got) rest
      (At p s.fs s.log))
    (refused : loop.enter s.fs p = none) (final : ∀ fe w, At p s.fs s.log fe w → F w) :
    Ends input FileExchange.buf (Stands s) (loop.turns fuel (turns + 1)) all F := by
  cases loop with
  | backup =>
    refine ends_value.mpr ?_
    rcases kind with rfl | rfl
    all_goals
      refine ends_bind command ?_
      refine ends_bind path ?_
      refine ends_bind (reads_of_keeps keeps_getPath rest) ?_
      exact ends_fault (reads_enter_refused refused rest) final
  | primary => exact absurd refused (by simp [Loop.enter])
  | client => exact absurd refused (by simp [Loop.enter])

theorem reads_remove {removed : Bool} (removing : remove fs p = some (removed, after))
    (rest : List Byte) :
    Reads input FileExchange.buf (At p fs log) (orThrow (onFiles (.remove p))) rest (.ok removed) rest
      (At p after log) :=
  reads_of_keeps (keeps_orThrow (keeps_onFiles (by simp [fileCall, removing, orSame]))) rest

/-- What backup and client do to a path that is to be deleted, and then go on. -/
theorem ends_discard {A : Type} {next : Io FileExchange A}
    (discards : Loop.client.discard fs p = some after)
    (tail : Ends input FileExchange.buf (At p after log) next rest F) :
    Ends input FileExchange.buf (At p fs log) (do
      if ← orThrow (onFiles (.pathExists p)) then
        let _ ← orThrow (onFiles (.remove p))
        next
      else next) rest F := by
  obtain ⟨present, asked, discarding⟩ := Option.bind_eq_some_iff.mp discards
  have asks : Keeps (delivers input) FileExchange.buf (At p fs log)
      (orThrow (onFiles (.pathExists p))) present (At p fs log) :=
    keeps_orThrow (keeps_onFiles (by simp [fileCall, asked]))
  refine ends_bind (reads_of_keeps asks rest) ?_
  cases present with
  | false =>
    obtain rfl : fs = after := by simpa using discarding
    exact tail
  | true =>
    rw [if_pos rfl] at discarding ⊢
    obtain ⟨⟨removed, _⟩, removing, rfl⟩ := Option.map_eq_some_iff.mp discarding
    exact ends_bind (reads_remove removing rest) tail

theorem ends_discard_refused {A : Type} {next : Io FileExchange A}
    (refused : Loop.client.discard fs p = none) (final : ∀ fe w, At p fs log fe w → F w) :
    Ends input FileExchange.buf (At p fs log) (do
      if ← orThrow (onFiles (.pathExists p)) then
        let _ ← orThrow (onFiles (.remove p))
        next
      else next) rest F := by
  cases asked : pathExists fs p with
  | none => exact ends_fault (reads_refused (keeps_onFiles (by simp [fileCall, asked])) rest) final
  | some present =>
    have asks : Keeps (delivers input) FileExchange.buf (At p fs log)
        (orThrow (onFiles (.pathExists p))) present (At p fs log) :=
      keeps_orThrow (keeps_onFiles (by simp [fileCall, asked]))
    refine ends_bind (reads_of_keeps asks rest) ?_
    simp only [Loop.discard, asked, Option.bind_some] at refused
    cases present with
    | false => exact absurd refused (by simp)
    | true =>
      have stuck : remove fs p = none := by simpa using refused
      exact ends_fault (reads_refused (keeps_onFiles (by simp [fileCall, stuck, orSame])) rest) final

/-- A turn with a delete, from what ReceivePath comes to. -/
theorem ends_delete {got : Bool} {afterCommand : List Byte}
    (command : Reads input FileExchange.buf (Stands s) receiveCommand all (.ok (.ok (some .kDelete)))
      afterCommand (Stands s))
    (path : Reads input FileExchange.buf (Stands s) receivePath afterCommand (.ok got) rest
      (At p s.fs s.log))
    (entered : loop.enter s.fs p = some fs) (discards : loop.discard fs p = some after)
    (tail : Ends input FileExchange.buf
      (At p after (loop.announce (.broadcastDelete p) s.log)) (loop.turns fuel turns) rest F) :
    Ends input FileExchange.buf (Stands s) (loop.turns fuel (turns + 1)) all F := by
  cases loop with
  | primary =>
    obtain rfl : s.fs = fs := Option.some.inj entered
    obtain ⟨⟨removed, _⟩, removing, rfl⟩ := Option.map_eq_some_iff.mp discards
    refine ends_assoc ?_
    refine ends_bind command ?_
    refine ends_assoc ?_
    refine ends_bind path ?_
    refine ends_assoc ?_
    refine ends_bind (reads_of_keeps keeps_getPath rest) ?_
    refine ends_assoc ?_
    refine ends_bind (reads_remove removing rest) ?_
    refine ends_assoc ?_
    exact ends_broadcast fun _ => tail
  | backup =>
    obtain ⟨made, entering⟩ := reads_enter input s.log entered rest
    refine ends_value.mpr ?_
    refine ends_bind command ?_
    refine ends_bind path ?_
    refine ends_bind (reads_of_keeps keeps_getPath rest) ?_
    refine ends_bind entering ?_
    exact ends_discard discards (ends_value.mp tail)
  | client =>
    obtain rfl : s.fs = fs := Option.some.inj entered
    refine ends_bind command ?_
    refine ends_bind path ?_
    refine ends_bind (reads_of_keeps keeps_getPath rest) ?_
    exact ends_discard discards tail

theorem ends_delete_fault {got : Bool} {afterCommand : List Byte}
    (command : Reads input FileExchange.buf (Stands s) receiveCommand all (.ok (.ok (some .kDelete)))
      afterCommand (Stands s))
    (path : Reads input FileExchange.buf (Stands s) receivePath afterCommand (.ok got) rest
      (At p s.fs s.log))
    (entered : loop.enter s.fs p = some fs) (refused : loop.discard fs p = none)
    (final : ∀ fe w, At p fs s.log fe w → F w) :
    Ends input FileExchange.buf (Stands s) (loop.turns fuel (turns + 1)) all F := by
  cases loop with
  | primary =>
    obtain rfl : s.fs = fs := Option.some.inj entered
    have stuck : remove s.fs p = none := Option.map_eq_none_iff.mp refused
    refine ends_assoc ?_
    refine ends_bind command ?_
    refine ends_assoc ?_
    refine ends_bind path ?_
    refine ends_assoc ?_
    refine ends_bind (reads_of_keeps keeps_getPath rest) ?_
    refine ends_assoc ?_
    exact ends_fault (reads_refused (keeps_onFiles (by simp [fileCall, stuck, orSame])) rest) final
  | backup =>
    obtain ⟨made, entering⟩ := reads_enter input s.log entered rest
    refine ends_value.mpr ?_
    refine ends_bind command ?_
    refine ends_bind path ?_
    refine ends_bind (reads_of_keeps keeps_getPath rest) ?_
    refine ends_bind entering ?_
    exact ends_discard_refused refused final
  | client =>
    obtain rfl : s.fs = fs := Option.some.inj entered
    refine ends_bind command ?_
    refine ends_bind path ?_
    refine ends_bind (reads_of_keeps keeps_getPath rest) ?_
    exact ends_discard_refused refused final

/-- At the end of the stream, and after the first byte of a command, nothing more happens. -/
theorem ends_over (s : Point) (short : rest = [] ∨ rest = [1]) (loop : Loop) (fuel turns : Nat) :
    Ends input FileExchange.buf (Stands s) (loop.turns fuel turns) rest (Shows s) := by
  have silent : Reads input FileExchange.buf (Stands s) receiveCommand rest
      (.ok (.error .connectionAborted)) [] (Stands s) := reads_receiveCommand_short short
  cases loop with
  | primary =>
    induction turns generalizing rest with
    | zero => exact ends_pure stands_shows
    | succ turns ih =>
      refine ends_assoc ?_
      refine ends_bind silent ?_
      refine ends_bind (reads_pure () []) ?_
      exact ih (.inl rfl) (reads_receiveCommand_short (.inl rfl))
  | backup =>
    refine ends_value.mpr ?_
    cases turns with
    | zero => exact ends_pure stands_shows
    | succ turns =>
      refine ends_bind silent ?_
      exact ends_pure stands_shows
  | client =>
    cases turns with
    | zero => exact ends_pure stands_shows
    | succ turns =>
      refine ends_bind silent ?_
      rintro written fe w ⟨good, path, files, logged⟩ before
      rw [ensures_note]
      exact ⟨trivial, files, by simp [logged, broadcasts, isBroadcast]⟩

/-- A turn with an upload whose file is not opened does what `store` says. -/
theorem ends_opening {got : Bool} {afterCommand : List Byte} (content : List Byte)
    (command : Reads input FileExchange.buf (Stands s) receiveCommand all (.ok (.ok (some .kUpload)))
      afterCommand (Stands s))
    (path : Reads input FileExchange.buf (Stands s) receivePath afterCommand (.ok got) rest
      (At p s.fs s.log))
    (opened : ∀ fs after, loop.enter s.fs p = some fs → openDestination fs p = some (true, after) →
      Ends input FileExchange.buf (Stands s) (loop.turns fuel (turns + 1)) all F)
    (stops : (loop.store s p content).2 = .stops → ∀ w, Shows (loop.store s p content).1 w → F w)
    (strays : (loop.store s p content).2 = .strays →
      Ends input FileExchange.buf (Stands (loop.store s p content).1) (loop.turns fuel turns) rest F) :
    Ends input FileExchange.buf (Stands s) (loop.turns fuel (turns + 1)) all F := by
  cases entered : loop.enter s.fs p with
  | none =>
    have result : loop.store s p content = (⟨s.fs, p, s.log⟩, .stops) := by
      simp [Loop.store, entered]
    rw [result] at stops
    exact ends_stuck (.inl rfl) command path entered fun fe w here =>
      stops rfl w (stands_shows fe w here)
  | some fs =>
    cases opens : openDestination fs p with
    | none =>
      have result : loop.store s p content = (⟨fs, p, s.log⟩, .stops) := by
        simp [Loop.store, entered, opens]
      rw [result] at stops
      exact ends_upload_fault command path entered (reads_receive_refused opens fuel rest)
        fun fe w here => stops rfl w (stands_shows fe w here)
    | some reply =>
      obtain ⟨ok, after⟩ := reply
      cases ok with
      | false =>
        have result : loop.store s p content =
            (⟨after, p, loop.announce (.broadcastUpload p) s.log⟩, .strays) := by
          simp [Loop.store, entered, opens]
        rw [result] at strays
        exact ends_upload command path entered (reads_receive_closed opens fuel rest) (strays rfl)
      | true => exact opened fs after entered opens

/-- A turn with an upload does what `store` says. -/
theorem ends_store {got done : Bool} {afterCommand : List Byte} (content left : List Byte)
    (command : Reads input FileExchange.buf (Stands s) receiveCommand all (.ok (.ok (some .kUpload)))
      afterCommand (Stands s))
    (path : Reads input FileExchange.buf (Stands s) receivePath afterCommand (.ok got) rest
      (At p s.fs s.log))
    (received : ∀ fs opened, openDestination fs p = some (true, opened) →
      Reads input FileExchange.buf (At p fs s.log) (receive fuel) rest (.ok done) left
        (At p (opened.put (key p) (.file content)) s.log))
    (goes : (loop.store s p content).2 = .goes →
      Ends input FileExchange.buf (Stands (loop.store s p content).1) (loop.turns fuel turns) left F)
    (stops : (loop.store s p content).2 = .stops → ∀ w, Shows (loop.store s p content).1 w → F w)
    (strays : (loop.store s p content).2 = .strays →
      Ends input FileExchange.buf (Stands (loop.store s p content).1) (loop.turns fuel turns) rest F) :
    Ends input FileExchange.buf (Stands s) (loop.turns fuel (turns + 1)) all F := by
  refine ends_opening content command path ?_ stops strays
  intro fs opened entered opens
  have result : loop.store s p content = (⟨opened.put (key p) (.file content), p,
      loop.announce (.broadcastUpload p) s.log⟩, .goes) := by
    simp [Loop.store, entered, opens]
  rw [result] at goes
  exact ends_upload command path entered (received fs opened opens) (goes rfl)

/-- A turn with a delete does what `erase` says. -/
theorem ends_erase {got : Bool} {afterCommand : List Byte}
    (command : Reads input FileExchange.buf (Stands s) receiveCommand all (.ok (.ok (some .kDelete)))
      afterCommand (Stands s))
    (path : Reads input FileExchange.buf (Stands s) receivePath afterCommand (.ok got) rest
      (At p s.fs s.log))
    (goes : (loop.erase s p).2 = .goes →
      Ends input FileExchange.buf (Stands (loop.erase s p).1) (loop.turns fuel turns) rest F)
    (stops : (loop.erase s p).2 = .stops → ∀ w, Shows (loop.erase s p).1 w → F w) :
    Ends input FileExchange.buf (Stands s) (loop.turns fuel (turns + 1)) all F := by
  cases entered : loop.enter s.fs p with
  | none =>
    have result : loop.erase s p = (⟨s.fs, p, s.log⟩, .stops) := by simp [Loop.erase, entered]
    rw [result] at stops
    exact ends_stuck (.inr rfl) command path entered fun fe w here =>
      stops rfl w (stands_shows fe w here)
  | some fs =>
    cases discards : loop.discard fs p with
    | none =>
      have result : loop.erase s p = (⟨fs, p, s.log⟩, .stops) := by
        simp [Loop.erase, entered, discards]
      rw [result] at stops
      exact ends_delete_fault command path entered discards fun fe w here =>
        stops rfl w (stands_shows fe w here)
    | some after =>
      have result : loop.erase s p =
          (⟨after, p, loop.announce (.broadcastDelete p) s.log⟩, .goes) := by
        simp [Loop.erase, entered, discards]
      rw [result] at goes
      exact ends_delete command path entered discards (goes rfl)

theorem reads_command (c : Command) (rest : List Byte) :
    Reads input FileExchange.buf (Stands s) receiveCommand (encodeCommand c ++ rest)
      (.ok (.ok (some c))) rest (Stands s) := reads_of_takes (takes_receiveCommand c) rest

theorem reads_path {text : Path} (fits : text.length < 2 ^ 63) (rest : List Byte) :
    Reads input FileExchange.buf (Stands s) receivePath (encodeString text ++ rest) (.ok true) rest
      (At text s.fs s.log) := reads_of_takes (takes_receivePath fits) rest

theorem reads_file {content : List Byte} (fits : content.length < 2 ^ 63)
    (enough : content.length < fuel) (rest : List Byte) (fs opened : Fs)
    (opens : openDestination fs p = some (true, opened)) :
    Reads input FileExchange.buf (At p fs log) (receive fuel) (encodeFile content ++ rest) (.ok true)
      rest (At p (opened.put (key p) (.file content)) log) := by
  have stores : storeFile fs p content = some (opened.put (key p) (.file content)) := by
    simp [storeFile, opens]
  exact reads_of_takes (takes_receive stores fits enough) rest

/-- A turn with a whole message. -/
theorem ends_apply {m : Message} (sized : m.Sized fuel) (straight : (loop.apply s m).2 ≠ .strays)
    (goes : (loop.apply s m).2 = .goes →
      Ends input FileExchange.buf (Stands (loop.apply s m).1) (loop.turns fuel turns) rest F)
    (stops : (loop.apply s m).2 = .stops → ∀ w, Shows (loop.apply s m).1 w → F w) :
    Ends input FileExchange.buf (Stands s) (loop.turns fuel (turns + 1)) (encodeMessage m ++ rest)
      F := by
  rw [encodeMessage, List.append_assoc, List.append_assoc]
  cases m with
  | upload p content =>
    obtain ⟨text, file, enough⟩ := sized
    exact ends_store content rest (reads_command .kUpload _) (reads_path text _)
      (reads_file file enough rest) goes stops fun strays => absurd strays straight
  | delete p =>
    exact ends_erase (reads_command .kDelete _) (reads_path sized _) goes stops

/-- The loop carries out the messages one after the other, whatever follows them. -/
theorem ends_course (msgs : List Message) (s : Point) (sized : ∀ m ∈ msgs, m.Sized fuel)
    (straight : (loop.course s msgs).2 ≠ .strays)
    (goes : (loop.course s msgs).2 = .goes →
      Ends input FileExchange.buf (Stands (loop.course s msgs).1) (loop.turns fuel turns) rest F)
    (stops : (loop.course s msgs).2 = .stops → ∀ w, Shows (loop.course s msgs).1 w → F w) :
    Ends input FileExchange.buf (Stands s) (loop.turns fuel (turns + msgs.length))
      (msgs.flatMap encodeMessage ++ rest) F := by
  induction msgs generalizing s with
  | nil => exact goes rfl
  | cons m msgs ih =>
    have first := sized m (List.mem_cons_self ..)
    have others := fun m member => sized m (List.mem_cons_of_mem _ member)
    rw [List.flatMap_cons, List.append_assoc, List.length_cons, ← Nat.add_assoc]
    rcases result : loop.apply s m with ⟨t, fate⟩
    cases fate with
    | goes =>
      have onward : loop.course s (m :: msgs) = loop.course t msgs := by simp [Loop.course, result]
      rw [onward] at straight goes stops
      refine ends_apply first (by simp [result]) (fun _ => ?_) (by simp [result])
      rw [result]
      exact ih t others straight goes stops
    | stops =>
      have ended : loop.course s (m :: msgs) = (t, .stops) := by simp [Loop.course, result]
      rw [ended] at stops
      refine ends_apply first (by simp [result]) (by simp [result]) fun _ => ?_
      rw [result]
      exact stops rfl
    | strays =>
      have ended : loop.course s (m :: msgs) = (t, .strays) := by simp [Loop.course, result]
      exact absurd (by rw [ended]) straight

/-- What the loop comes to is what the function around it comes to. -/
theorem ensures_run {fe : FileExchange} {w : World} (loop : Loop) (fuel turns : Nat)
    (servers : List Byte) (here : At p fs log fe w) (linked : Linked (delivers input) [] [] fe.buf w)
    (exhausted : fe.buf.unread = [])
    (ends : Ends input FileExchange.buf (At p fs log) (loop.turns fuel turns) input F) :
    Comp.ensures (delivers input).env (loop.run fuel servers turns) (fun _ _ v => F v) fe w := by
  cases loop with
  | primary =>
    have greeting : Puts (delivers input) FileExchange.buf (At p fs log)
        (onRdbuf do outputArchive; saveString servers) (encodeString servers) () (At p fs log) :=
      puts_onRdbuf (puts_bind (puts_saveBinary [1]) (puts_saveString servers))
    rw [Loop.run, DropboxClientHandler.syncFromClient, Comp.ensures_bind]
    apply Comp.ensures_mono (greeting here linked exhausted fun _ _ => trivial)
    rintro r k v ⟨rfl, there, linked', exhausted', _⟩
    rw [Comp.either_ok, Comp.ensures_bind]
    apply Comp.ensures_mono (puts_flushExchange there linked' exhausted' fun _ _ => trivial)
    rintro r k' v' ⟨rfl, there', linked'', _⟩
    rw [Comp.either_ok]
    exact ends there' ⟨[], rfl, linked''⟩
  | backup => exact ends here ⟨[], rfl, linked⟩
  | client => exact ends here ⟨[], rfl, linked⟩

theorem exec_run {m : Machine} (loop : Loop) (fuel turns : Nat) (servers : List Byte)
    (mem : Nat → Byte) (p : Path) (sound : m.Sound) (nothing : m.world.rcvd = [])
    (silent : m.world.sent = [])
    (ends : Ends m.coming FileExchange.buf (Stands ⟨m.world.fs, p, m.world.log⟩)
      (loop.turns fuel turns) m.coming F) :
    F (exec (loop.run fuel servers turns) (.fresh mem p) m).2.2.world := by
  have live := live_fresh mem p sound nothing silent
  have meets := ensures_run loop fuel turns servers ⟨rfl, rfl, rfl, rfl⟩ live.linked rfl ends
  exact (exec_ensures live meets).1

end DropboxSyncLoops
