import Mathlib.Data.List.AList
import Dropbox.Watcher

/-!
Client::ReconnectToServer under the client's own watcher. GetSyncDir empties the sync
directory and downloads it again without a pause, and it can break off anywhere; the
watcher and the sending loop (Watcher) go on meanwhile. The user changes nothing.
The server's directory is the one of the primary the client connects to.
-/
namespace DropboxReconnect
open Transitions DropboxHost DropboxWatcher
variable {N B T : Type} [DecidableEq N] [DecidableEq T]

inductive Entry (B : Type) where
  | file (content : List B)
  | dir
  deriving DecidableEq, Repr

abbrev Directory (N B : Type) := AList fun _ : N => Entry B

abbrev Files (N B : Type) := AList fun _ : N => List B

/-- What SyncFromClient sends for an action; `half` is an upload of a file that cannot be opened. -/
inductive Message (N B : Type) where
  | upload (name : N) (content : List B)
  | delete (name : N)
  | half (name : N)
  deriving DecidableEq, Repr

/-- Where SyncFromServer is. -/
inductive Place (N B : Type) where
  | following                                            -- in ReceiveCommand
  | connecting
  | wiping (left : List N)                               -- in RemoveAllFromDirectory
  | downloading (left : List N)                          -- between two files
  | receiving (name : N) (todo : List B) (left : List N)
  deriving DecidableEq, Repr

structure State (N B T : Type) where
  watch : DropboxWatcher.State N T
  directory : Directory N B
  server : Files N B
  place : Place N B
  channel : List (Message N B)

def start (directory : Directory N B) (server : Files N B) : State N B T :=
  ⟨DropboxWatcher.start, directory, server, .following, []⟩

/-- A step of the watcher or the sending loop that sends nothing. -/
inductive Background where
  | read (n : Nat)
  | test
  | append
  | wake
  | clear
  deriving DecidableEq, Repr

def Background.action : Background → DropboxWatcher.Action N T
  | .read n => .read n
  | .test => .test
  | .append => .append
  | .wake => .wake
  | .clear => .clear

inductive Action (N : Type) where
  | background (b : Background)
  | send
  | handle               -- the server handles the next message
  | cut (n : Nat)        -- messages on their way get lost with their connection
  | lose                 -- ReceiveCommand finds the connection closed
  | connectFails
  | connect
  | wipe (name : N)
  | wiped
  | openFile (name : N)
  | receive (n : Nat)
  | close
  | finish
  | breaks               -- GetSyncDir returns false, which ReconnectToServer ignores
  deriving DecidableEq, Repr

def isDirectory (directory : Directory N B) (name : N) : Bool :=
  match directory.lookup name with
  | some (.file _) => false
  | _ => true

def State.notice (s : State N B T) (kind : Kind) (isDir : Bool) (name : N) : State N B T :=
  { s with watch := s.watch.enqueue ⟨kind, isDir, some name, .own⟩ }

/-- No delete is queued or sent, and the server keeps its files. -/
structure Harmless (server : Files N B) (s : State N B T) : Prop where
  queued : ∀ a ∈ s.watch.vector, a.command ≠ .kDelete
  sent : ∀ name, Message.delete name ∉ s.channel
  handed : ∀ a ∈ s.watch.handed, a.command ≠ .kDelete
  kept : ∀ name, s.server.lookup name = server.lookup name

/-- The wipe finds no file, and no download of a file breaks off in the middle. -/
def Careful (s : State N B T) : Action N → Prop
  | .connect => ∀ name ∈ s.directory.keys, isDirectory s.directory name = true
  | .breaks =>
    match s.place with
    | .receiving _ todo _ => todo = []
    | _ => True
  | _ => True

instance (s : State N B T) (a : Action N) : Decidable (Careful s a) := by
  cases a <;> simp only [Careful] <;> (try split) <;> infer_instance

/-- The action sends a file as the server has it. -/
def Resends (server : Files N B) (directory : Directory N B) (a : LocalAction N) : Prop :=
  a.command = .kUpload ∧ ∃ content, directory.lookup a.path = some (.file content) ∧
    server.lookup a.path = some content

/-- What is left to do, and how the directory looks by then. -/
def Placed (server : Files N B) (directory : Directory N B) : Place N B → Prop
  | .following | .connecting => True
  | .wiping _ => ∀ name, isDirectory directory name = true
  | .downloading left => left.Nodup ∧ ∀ name ∈ left, isDirectory directory name = true
  | .receiving name todo left =>
    (left.Nodup ∧ ∀ other ∈ left, isDirectory directory other = true) ∧ name ∉ left ∧
      ∃ done, directory.lookup name = some (.file done) ∧ server.lookup name = some (done ++ todo)

structure Faithful (server : Files N B) (s : State N B T) : Prop where
  kept : ∀ name, s.server.lookup name = server.lookup name
  sent : ∀ m ∈ s.channel, ∃ name content, m = .upload name content ∧
    server.lookup name = some content
  events : ∀ e ∈ s.watch.queue ++ s.watch.watch.batch, ∀ a, e.action = some a →
    Resends server s.directory a
  vector : ∀ a ∈ s.watch.vector, Resends server s.directory a
  handed : ∀ a ∈ s.watch.handed, a.command ≠ .kDelete
  place : Placed server s.directory s.place

end DropboxReconnect
