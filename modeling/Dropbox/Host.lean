import Dropbox.FileStore
import Dropbox.General.Programs

/-!
What the programs of this project call: read and write on their socket, the file
store, and outputs an observer can see (console lines, broadcasts). A contract says
what a connection delivers and what its owner may do; a machine answers every call
from a list of OS reads.
-/
namespace DropboxHost
open DropboxFileStore Programs

/-- The enumerators of Command; its underlying type is int8_t. -/
inductive Command where
  | kError
  | kSuccess
  | kGetSyncDir
  | kUpload
  | kDownload
  | kDelete
  | kUsername
  | kListClient
  | kListServer
  | kExit
  deriving DecidableEq, Repr

def Command.toByte : Command → Byte
  | kError => 255
  | kSuccess => 0
  | kGetSyncDir => 1
  | kUpload => 2
  | kDownload => 3
  | kDelete => 4
  | kUsername => 5
  | kListClient => 6
  | kListServer => 7
  | kExit => 8

/-- A byte need not be one of the enumerators. -/
def Command.ofByte (b : Byte) : Option Command :=
  [kError, kSuccess, kGetSyncDir, kUpload, kDownload, kDelete, kUsername, kListClient,
    kListServer, kExit].find? fun c => c.toByte == b

@[simp] theorem Command.ofByte_toByte (c : Command) : ofByte c.toByte = some c := by
  cases c <;> decide

theorem Command.toByte_injective {c d : Command} (same : c.toByte = d.toByte) : c = d := by
  have both : some c = some d := by rw [← ofByte_toByte c, ← ofByte_toByte d, same]
  exact Option.some.inj both

inductive Event where
  | ordered (c : Option Command)
  | broadcastUpload (p : Path)
  | broadcastDelete (p : Path)
  | reported (success : Bool)
  | notAFile (p : Path)
  | missingPath
  | printed (text : List Byte)
  | clientSyncExit
  | reconnecting
  | overUnread   -- an output character was stored while the get area held unread input
  | overrun   -- xsputn had characters left and the put area was past its end: the process ends here
  deriving DecidableEq, Repr

inductive FileCall where
  | isRegularFile (p : Path)
  | pathExists (p : Path)
  | remove (p : Path)
  | removeAll (p : Path)
  | createDirectory (p : Path)
  | openOut (p : Path)
  | writeOut (p : Path) (bytes : List Byte)
  | openIn (p : Path)
  | fileSize (p : Path)
  | readIn (p : Path) (pos n : Nat)
  | copyFile (p q : Path)
  | listDirectory (p : Path)
  | directoryTable (p : Path)

/-- `none` is an exception or, for a read, an error. -/
abbrev FileCall.Reply : FileCall → Type
  | isRegularFile _ | pathExists _ | remove _ | createDirectory _ => Option Bool
  | removeAll _ | copyFile _ _ => Option Unit
  | openOut _ | openIn _ => Bool
  | writeOut _ _ => Unit
  | fileSize _ => Option Nat
  | readIn _ _ _ | directoryTable _ => Option (List Byte)
  | listDirectory _ => Option (List Path)

/-- The store after a call that may have thrown. -/
def orSame {A : Type} (fs : Fs) : Option (A × Fs) → Option A × Fs
  | some (a, after) => (some a, after)
  | none => (none, fs)

def fileCall (fs : Fs) : (c : FileCall) → c.Reply × Fs
  | .isRegularFile p => (isRegularFile fs p, fs)
  | .pathExists p => (pathExists fs p, fs)
  | .remove p => orSame fs (remove fs p)
  | .removeAll p => orSame fs ((removeAll fs p).map ((), ·))
  | .createDirectory p => orSame fs (createDirectory fs p)
  | .openOut p => openOut fs p
  | .writeOut p bytes => ((), writeOut fs p bytes)
  | .openIn p => (openIn fs p, fs)
  | .fileSize p => (fileSize fs p, fs)
  | .readIn p pos n => (readIn fs p pos n, fs)
  | .copyFile p q => orSame fs ((copyFile fs p q).map ((), ·))
  | .listDirectory p => (listDirectory fs p, fs)
  | .directoryTable p => (directoryTable fs p, fs)

/-- `recv n` is read into a buffer of `n` bytes: `none` is an error, no bytes are the end of the
    stream. `send` answers how many bytes were taken, `broadcast` whether it was a success. -/
inductive Sys where
  | recv (n : Nat)
  | send (bytes : List Byte)
  | file (c : FileCall)
  | note (e : Event)
  | broadcast (e : Event)

abbrev Sys.Reply : Sys → Type
  | recv _ => Option (List Byte)
  | send _ => Option Nat
  | file c => c.Reply
  | note _ => Unit
  | broadcast _ => Bool

structure World where
  fs : Fs
  rcvd : List Byte
  sent : List Byte
  log : List Event

/-- How a computation can leave off. `hang` is a loop that makes no further progress, `terminate`
    an exception that leaves a noexcept function; the rest are exceptions. -/
inductive Fault where
  | system
  | cerealRead (needed got : Nat)
  | cerealWrite (needed written : Nat)
  | length
  | filesystem
  | hang
  | terminate
  deriving DecidableEq, Repr

def Fault.isException : Fault → Bool
  | hang | terminate => false
  | _ => true

abbrev Io (L A : Type) := Comp Sys Sys.Reply L Fault A

section calls
variable {L : Type}

def osRead (n : Nat) : Io L (Option (List Byte)) := Comp.call (Sys.recv n)

def osWrite (bytes : List Byte) : Io L (Option Nat) := Comp.call (Sys.send bytes)

def onFiles (c : FileCall) : Io L c.Reply := Comp.call (Sys.file c)

def note (e : Event) : Io L Unit := Comp.call (Sys.note e)

def broadcast (e : Event) : Io L Bool := Comp.call (Sys.broadcast e)

end calls

/-- try { x } catch (std::exception&) { handler } -/
def tryCatch {L A : Type} (x : Io L A) (handler : Fault → Io L A) : Io L A :=
  x.catching fun f => if f.isException then handler f else Comp.throw f

/-- What leaves a noexcept function as an exception ends the program. -/
def noexcept {L A : Type} (x : Io L A) : Io L A := tryCatch x fun _ => Comp.throw .terminate

/-- A file-system call that throws when it is refused. -/
def orThrow {L A : Type} (x : Io L (Option A)) : Io L A := do
  match ← x with
  | some a => pure a
  | none => Comp.throw .filesystem

/-- A connection as its owner sees it: `arrived` relates the bytes received to the bytes sent so
    far, `waiting` (which also sees the owner's files and log) and `sending` are what the owner owes
    when it reads and writes. -/
structure Contract where
  input : List Byte
  arrived : List Byte → List Byte → Prop
  ended : List Byte → Prop
  waiting : Fs → List Event → List Byte → List Byte → Prop
  sending : List Byte → List Byte → Prop
  logging : List Event → Event → Prop
  arrived_prefix : ∀ {r s}, arrived r s → r <+: input
  arrived_mono : ∀ {r s} (more), arrived r s → arrived r (s ++ more)
  ended_input : ∀ {r s}, arrived r s → ended r → r = input

def Contract.env (K : Contract) : Env Sys Sys.Reply World where
  pre w
    | .recv _ => K.waiting w.fs w.log w.rcvd w.sent
    | .send bytes => K.sending w.rcvd (w.sent ++ bytes)
    | .file _ => True
    | .note e | .broadcast e => K.logging w.log e
  post w
    | .recv n, reply, v => ∃ bytes, reply = some bytes ∧ bytes.length ≤ n ∧
        v = { w with rcvd := w.rcvd ++ bytes } ∧ K.arrived v.rcvd v.sent ∧
        (bytes = [] → n = 0 ∨ K.ended w.rcvd)
    | .send bytes, reply, v => reply = some bytes.length ∧ v = { w with sent := w.sent ++ bytes }
    | .file c, reply, v => (reply, v) = ((fileCall w.fs c).1, { w with fs := (fileCall w.fs c).2 })
    | .note e, _, v | .broadcast e, _, v => v = { w with log := w.log ++ [e] }

section rules
variable {K : Contract} {L : Type} {l : L} {w : World}

@[simp] theorem ensures_osRead {n : Nat} {Q : Except Fault (Option (List Byte)) → L → World → Prop} :
    Comp.ensures K.env (osRead n : Io L _) Q l w ↔ K.waiting w.fs w.log w.rcvd w.sent ∧
      ∀ bytes, bytes.length ≤ n → K.arrived (w.rcvd ++ bytes) w.sent →
        (bytes = [] → n = 0 ∨ K.ended w.rcvd) →
        Q (.ok (some bytes)) l { w with rcvd := w.rcvd ++ bytes } := by
  simp only [osRead, Comp.ensures_call, Contract.env]
  constructor
  · rintro ⟨owed, later⟩
    exact ⟨owed, fun bytes fits comes ended => later _ _ ⟨bytes, rfl, fits, rfl, comes, ended⟩⟩
  · rintro ⟨owed, later⟩
    refine ⟨owed, ?_⟩
    rintro _ _ ⟨bytes, rfl, fits, rfl, comes, ended⟩
    exact later bytes fits comes ended

@[simp] theorem ensures_osWrite {bytes : List Byte}
    {Q : Except Fault (Option Nat) → L → World → Prop} :
    Comp.ensures K.env (osWrite bytes : Io L _) Q l w ↔
      K.sending w.rcvd (w.sent ++ bytes) ∧
        Q (.ok (some bytes.length)) l { w with sent := w.sent ++ bytes } := by
  simp only [osWrite, Comp.ensures_call, Contract.env]
  constructor
  · rintro ⟨owed, later⟩
    exact ⟨owed, later _ _ ⟨rfl, rfl⟩⟩
  · rintro ⟨owed, later⟩
    refine ⟨owed, ?_⟩
    rintro _ _ ⟨rfl, rfl⟩
    exact later

@[simp] theorem ensures_onFiles {c : FileCall} {Q : Except Fault c.Reply → L → World → Prop} :
    Comp.ensures K.env (onFiles c : Io L _) Q l w ↔
      Q (.ok (fileCall w.fs c).1) l { w with fs := (fileCall w.fs c).2 } := by
  simp only [onFiles, Comp.ensures_call, Contract.env]
  constructor
  · rintro ⟨_, later⟩
    exact later _ _ rfl
  · intro now
    refine ⟨trivial, ?_⟩
    intro reply v same
    obtain ⟨rfl, rfl⟩ := Prod.mk.inj same
    exact now

@[simp] theorem ensures_note {e : Event} {Q : Except Fault Unit → L → World → Prop} :
    Comp.ensures K.env (note e : Io L _) Q l w ↔
      K.logging w.log e ∧ Q (.ok ()) l { w with log := w.log ++ [e] } := by
  simp only [note, Comp.ensures_call, Contract.env]
  constructor
  · rintro ⟨owed, later⟩
    exact ⟨owed, later () _ rfl⟩
  · rintro ⟨owed, now⟩
    refine ⟨owed, ?_⟩
    rintro _ _ rfl
    exact now

@[simp] theorem ensures_broadcast {e : Event} {Q : Except Fault Bool → L → World → Prop} :
    Comp.ensures K.env (broadcast e : Io L _) Q l w ↔
      K.logging w.log e ∧ ∀ b, Q (.ok b) l { w with log := w.log ++ [e] } := by
  simp only [broadcast, Comp.ensures_call, Contract.env]
  constructor
  · rintro ⟨owed, later⟩
    exact ⟨owed, fun b => later b _ rfl⟩
  · rintro ⟨owed, now⟩
    refine ⟨owed, ?_⟩
    rintro b _ rfl
    exact now b

theorem ensures_tryCatch {A G : Type} {e : Env Sys Sys.Reply G} {x : Io L A}
    {handler : Fault → Io L A} {Q : Except Fault A → L → G → Prop} {g : G} :
    Comp.ensures e (tryCatch x handler) Q l g ↔
      Comp.ensures e x (Comp.either (fun a => Q (.ok a)) fun f k h =>
        if f.isException then Comp.ensures e (handler f) Q k h else Q (.error f) k h) l g := by
  have agree : (fun f => Comp.ensures e
      (if f.isException then handler f else Comp.throw f : Io L A) Q) =
      fun f k h => if f.isException then Comp.ensures e (handler f) Q k h
        else Q (.error f) k h := by
    funext f k h
    cases f.isException <;> simp
  rw [tryCatch, Comp.ensures_catching, agree]

end rules

/-- What one OS read delivers. -/
structure Segment where
  bytes : List Byte
  nonempty : bytes ≠ []

/-- `inbox` are the reads to come (`none` fails), then the stream ends; `accepts` are the results
    of the next writes, after which all bytes are taken. -/
structure Machine where
  world : World
  inbox : List (Option Segment)
  accepts : List (Option Nat)

def Machine.recv (m : Machine) (n : Nat) : Option (List Byte) × Machine :=
  match m.inbox with
  | [] => (some [], m)
  | none :: rest => (none, { m with inbox := rest })
  | some segment :: rest =>
    let bytes := segment.bytes.take n
    let left := if tail : segment.bytes.drop n = [] then rest else some ⟨_, tail⟩ :: rest
    (some bytes, { m with world := { m.world with rcvd := m.world.rcvd ++ bytes }, inbox := left })

def Machine.send (m : Machine) (bytes : List Byte) : Option Nat × Machine :=
  match m.accepts with
  | [] => (some bytes.length, { m with world := { m.world with sent := m.world.sent ++ bytes } })
  | none :: rest => (none, { m with accepts := rest })
  | some n :: rest =>
    let taken := bytes.take n
    (some taken.length,
      { m with world := { m.world with sent := m.world.sent ++ taken }, accepts := rest })

def Machine.note (m : Machine) (e : Event) : Machine :=
  { m with world := { m.world with log := m.world.log ++ [e] } }

def host (m : Machine) : (s : Sys) → s.Reply × Machine
  | .recv n => m.recv n
  | .send bytes => m.send bytes
  | .file c =>
    ((fileCall m.world.fs c).1, { m with world := { m.world with fs := (fileCall m.world.fs c).2 } })
  | .note e => ((), m.note e)
  | .broadcast e => (true, m.note e)

def exec {L A : Type} (x : Io L A) (l : L) (m : Machine) : Except Fault A × L × Machine :=
  Comp.exec host x l m

/-- The bytes still to come. -/
def Machine.coming (m : Machine) : List Byte :=
  m.inbox.flatMap fun s => (s.map Segment.bytes).getD []

/-- No read and no write fails, and every write takes all bytes. -/
def Machine.Sound (m : Machine) : Prop := none ∉ m.inbox ∧ m.accepts = []

/-- A connection that delivers `input` and ends, with an owner who may do anything. -/
def delivers (input : List Byte) : Contract where
  input := input
  arrived r _ := r <+: input
  ended r := r = input
  waiting _ _ _ _ := True
  sending _ _ := True
  logging _ _ := True
  arrived_prefix := id
  arrived_mono _ := id
  ended_input _ := id

theorem recv_sound {input : List Byte} (m : Machine) (n : Nat) (sound : m.Sound)
    (whole : m.world.rcvd ++ m.coming = input) :
    ∃ bytes, (m.recv n).1 = some bytes ∧ bytes.length ≤ n ∧
      (m.recv n).2.world = { m.world with rcvd := m.world.rcvd ++ bytes } ∧
      (m.recv n).2.world.rcvd ++ (m.recv n).2.coming = input ∧ (m.recv n).2.Sound ∧
      (bytes = [] → n = 0 ∨ m.world.rcvd = input) := by
  obtain ⟨w, inbox, accepts⟩ := m
  obtain ⟨reads, all⟩ := sound
  match inbox, reads, whole with
  | [], reads, whole =>
    refine ⟨[], rfl, by simp, by simp [Machine.recv], whole, ⟨reads, all⟩, fun _ => .inr ?_⟩
    simpa [Machine.coming] using whole
  | none :: rest, reads, _ => simp at reads
  | some segment :: rest, reads, whole =>
    have later : none ∉ rest := fun inside => reads (List.mem_cons_of_mem _ inside)
    have content : w.rcvd ++ (segment.bytes ++ rest.flatMap fun s =>
        (s.map Segment.bytes).getD []) = input := by
      simpa [Machine.coming] using whole
    have halves := List.take_append_drop n segment.bytes
    refine ⟨segment.bytes.take n, rfl, List.length_take_le .., rfl, ?_, ?_, ?_⟩
    · rw [← content]
      by_cases tail : segment.bytes.drop n = []
      · rw [tail, List.append_nil] at halves
        simp [Machine.recv, Machine.coming, tail, halves]
      · simp only [Machine.recv, Machine.coming, tail, dite_false, List.flatMap_cons,
          Option.map_some, Option.getD_some, List.append_assoc]
        rw [← List.append_assoc (segment.bytes.take n), halves]
    · refine ⟨?_, all⟩
      by_cases tail : segment.bytes.drop n = [] <;> simp [Machine.recv, tail, later]
    · intro empty
      rcases List.take_eq_nil_iff.mp empty with zero | none
      · exact .inl zero
      · exact absurd none segment.nonempty

theorem host_sound {input : List Byte} (m : Machine) (s : Sys)
    (fine : m.Sound ∧ m.world.rcvd ++ m.coming = input)
    (_ : (delivers input).env.pre m.world s) :
    (delivers input).env.post m.world s (host m s).1 (host m s).2.world ∧
      ((host m s).2.Sound ∧ (host m s).2.world.rcvd ++ (host m s).2.coming = input) := by
  obtain ⟨sound, whole⟩ := fine
  cases s with
  | recv n =>
    obtain ⟨bytes, reply, fits, world, left, still, ended⟩ := recv_sound m n sound whole
    exact ⟨⟨bytes, reply, fits, world, ⟨_, left⟩, ended⟩, still, left⟩
  | send bytes =>
    obtain ⟨w, inbox, accepts⟩ := m
    obtain ⟨reads, rfl⟩ := sound
    exact ⟨⟨rfl, rfl⟩, ⟨reads, rfl⟩, whole⟩
  | file c => exact ⟨rfl, sound, whole⟩
  | note e => exact ⟨rfl, sound, whole⟩
  | broadcast e => exact ⟨rfl, sound, whole⟩

/-- What holds under the contract holds of the run on every segmentation. -/
theorem exec_meets {L A : Type} {x : Io L A} {Q : Except Fault A → L → World → Prop} {l : L}
    {m : Machine} (sound : m.Sound)
    (meets : Comp.ensures (delivers (m.world.rcvd ++ m.coming)).env x Q l m.world) :
    Q (exec x l m).1 (exec x l m).2.1 (exec x l m).2.2.world ∧ (exec x l m).2.2.Sound ∧
      (exec x l m).2.2.world.rcvd ++ (exec x l m).2.2.coming = m.world.rcvd ++ m.coming :=
  Comp.exec_meets host_sound ⟨sound, rfl⟩ meets

end DropboxHost
