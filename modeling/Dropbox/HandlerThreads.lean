import Mathlib.Logic.Function.Basic
import Dropbox.ClientHandler

/-!
The threads of a server's client handlers (GetSyncDir and MainLoop of one thread,
SyncFromClient of the other) on one file store, one call at a time. A thread is what is
left of a part of its loop: of the reading of a command, of the reading of its path, or of
the rest. What arrives on a connection is arbitrary.
-/
namespace DropboxHandlerThreads
open Programs DropboxFileStore DropboxHost DropboxSocketStream DropboxProtocol
open DropboxClientHandler

inductive Kind where
  | payload
  | clientSync
  deriving DecidableEq, Repr

def namesPath : Kind → Option Command → Bool
  | .payload, some .kUpload | .payload, some .kDownload | .payload, some .kDelete => true
  | .clientSync, some .kUpload | .clientSync, some .kDelete => true
  | _, _ => false

/-- Up to the path of a command. -/
def naming : Kind → Option Command → Io FileExchange Bool
  | .payload, c => do
    note (.ordered c)
    receivePath
  | .clientSync, _ => receivePath

/-- Upload, Download and Delete after ReceivePath. -/
def handle (fuel : Nat) : Option Command → Bool → Io FileExchange Bool
  | some .kUpload, true => do
    if ← receive fuel then
      let path ← getPath
      broadcast (.broadcastUpload path)
    else pure false
  | some .kDownload, true => do
    let path ← getPath
    if ← orThrow (onFiles (.pathExists path)) then
      sendCommand .kSuccess
      send fuel
    else
      sendCommand .kError
      pure false
  | some .kDelete, true => do
    let path ← getPath
    if ← orThrow (onFiles (.pathExists path)) then
      let _ ← orThrow (onFiles (.remove path))
      broadcast (.broadcastDelete path)
    else pure false
  | _, _ => pure false

/-- From the path of a command to the end of the turn; the result says whether the loop goes on. -/
def afterPath (fuel : Nat) : Kind → Option Command → Bool → Io FileExchange Bool
  | .payload, c, received => do
    let _ ← handle fuel c received
    flushExchange
    pure true
  | .clientSync, some .kUpload, _ => do
    let _ ← receive fuel
    let path ← getPath
    let _ ← broadcast (.broadcastUpload path)
    pure true
  | .clientSync, some .kDelete, _ => do
    let path ← getPath
    let _ ← orThrow (onFiles (.remove path))
    let _ ← broadcast (.broadcastDelete path)
    pure true
  | .clientSync, _, _ => pure true

/-- A turn with a command that names no path. -/
def pathless (fuel : Nat) (username : List Byte) : Kind → Option Command → Io FileExchange Bool
  | .payload, c => do
    note (.ordered c)
    let receiving ← serve fuel username c
    flushExchange
    pure receiving
  | .clientSync, _ => pure true

/-- Before the loop: GetSyncDir, or the list of servers that SyncFromClient sends. -/
def opening (fuel : Nat) (username servers : List Byte) : Kind → Io FileExchange Bool
  | .payload => do
    let _ ← getSyncDir fuel username
    pure true
  | .clientSync => do
    onRdbuf do
      outputArchive
      saveString servers
    flushExchange
    pure true

/-- A turn of the loop after its command, in one piece. -/
def turn (fuel : Nat) (username : List Byte) (kind : Kind) (c : Option Command) :
    Io FileExchange Bool :=
  if namesPath kind c then naming kind c >>= afterPath fuel kind c
  else pathless fuel username kind c

theorem upload_eq (fuel : Nat) : upload fuel = receivePath >>= handle fuel (some .kUpload) := by
  show receivePath >>= _ = receivePath >>= _
  congr 1
  funext received
  cases received <;> rfl

theorem download_eq (fuel : Nat) : download fuel = receivePath >>= handle fuel (some .kDownload) := by
  show receivePath >>= _ = receivePath >>= _
  congr 1
  funext received
  cases received <;> rfl

theorem delete_eq (fuel : Nat) : delete = receivePath >>= handle fuel (some .kDelete) := by
  show receivePath >>= _ = receivePath >>= _
  congr 1
  funext received
  cases received <;> rfl

theorem serve_turn (fuel : Nat) (username : List Byte) (c : Option Command) :
    (do note (.ordered c)
        let receiving ← serve fuel username c
        flushExchange
        pure receiving) = turn fuel username .payload c := by
  have named : ∀ x : Io FileExchange Bool, ∀ d, serve fuel username d = (do let _ ← x; pure true) →
      x = receivePath >>= handle fuel d → namesPath .payload d = true →
      (do note (.ordered d)
          let receiving ← serve fuel username d
          flushExchange
          pure receiving) = turn fuel username .payload d := by
    intro x d serves shape names
    rw [turn, if_pos names, serves, shape]
    simp only [Comp.bind_assoc, Comp.pure_bind, naming]
    rfl
  obtain _ | c := c
  · rfl
  · cases c with
    | kUpload => exact named _ _ rfl (upload_eq fuel) rfl
    | kDownload => exact named _ _ rfl (download_eq fuel) rfl
    | kDelete => exact named _ _ rfl (delete_eq fuel) rfl
    | _ => rfl

/-- The loop of MainLoop, in the parts its threads are made of. -/
theorem mainLoop_eq (fuel turns attempts : Nat) (username : List Byte) :
    mainLoop fuel username (turns + 1) attempts = receiveCommand >>= fun r =>
      match r with
      | .ok c => turn fuel username .payload c >>= fun receiving =>
          if receiving then mainLoop fuel username turns kAttemptAmount else pure ()
      | .error _ =>
          if attempts - 1 = 0 then pure () else mainLoop fuel username turns (attempts - 1) := by
  rw [mainLoop]
  congr 1
  funext r
  cases r with
  | error _ => rfl
  | ok c =>
    simp only [← serve_turn, Comp.bind_assoc, Comp.pure_bind]

theorem syncTurn_eq (fuel : Nat) (username : List Byte) :
    syncTurn fuel = receiveCommand >>= fun r =>
      match r with
      | .ok c => turn fuel username .clientSync c >>= fun _ => pure ()
      | .error _ => pure () := by
  rw [syncTurn]
  congr 1
  funext r
  obtain _ | c := r
  · rfl
  · obtain _ | c := c
    · rfl
    · cases c with
      | kUpload =>
        simp only [turn, namesPath, if_true, naming, afterPath, Comp.bind_assoc, Comp.pure_bind]
      | kDelete =>
        simp only [turn, namesPath, if_true, naming, afterPath, Comp.bind_assoc, Comp.pure_bind]
      | _ => rfl

abbrev Running (A : Type) := Prog Sys Sys.Reply (Except Fault A × FileExchange)

inductive Thread where
  | command (attempts : Nat) (p : Running (Except ErrorCode (Option Command)))
  | path (c : Option Command) (p : Running Bool)
  | rest (p : Running Bool)
  | ended

/-- The part has run to its end; the thread goes on with the next one. -/
def Thread.next (fuel : Nat) (username : List Byte) (kind : Kind) : Thread → Option Thread
  | .command attempts (.ret (r, fe)) =>
    match r, kind with
    | .ok (.ok c), _ =>
      if namesPath kind c then some (.path c (naming kind c fe))
      else some (.rest (pathless fuel username kind c fe))
    | .ok (.error _), .payload =>
      if attempts - 1 = 0 then some .ended
      else some (.command (attempts - 1) (receiveCommand fe))
    | .ok (.error _), .clientSync => some (.rest ((pure true : Io FileExchange Bool) fe))
    | .error _, _ => some .ended
  | .path c (.ret (.ok received, fe)) => some (.rest (afterPath fuel kind c received fe))
  | .path _ (.ret (.error _, _)) => some .ended
  | .rest (.ret (.ok true, fe)) => some (.command kAttemptAmount (receiveCommand fe))
  | .rest (.ret _) => some .ended
  | _ => none

/-- What a call is answered with, as far as the files do not decide it, or a step without a call. -/
inductive Answer where
  | received (bytes : Option (List Byte))
  | sent (n : Option Nat)
  | heard (success : Bool)
  | done
  | next
  | stop
  deriving DecidableEq, Repr

/-- A broadcast of an upload reads the file. -/
def fileOf : Sys → Option FileCall
  | .file c => some c
  | .broadcast (.broadcastUpload p) => some (.openIn p)
  | _ => none

def answer {A : Type} (fs : Fs) : Prog Sys Sys.Reply A → Answer →
    Option (Prog Sys Sys.Reply A × Fs × Option FileCall)
  | .call (.recv n) next, .received bytes =>
    if (bytes.getD []).length ≤ n then some (next bytes, fs, none) else none
  | .call (.send out) next, .sent n =>
    if n.getD 0 ≤ out.length then some (next n, fs, none) else none
  | .call (.file c) next, .done => some (next (fileCall fs c).1, (fileCall fs c).2, some c)
  | .call (.note _) next, .done => some (next (), fs, none)
  | .call (.broadcast e) next, .heard success =>
    some (next success, fs, fileOf (.broadcast e))
  | _, _ => none

def Thread.answered (fs : Fs) (a : Answer) : Thread → Option (Thread × Fs × Option FileCall)
  | .command attempts p => (answer fs p a).map fun r => (.command attempts r.1, r.2)
  | .path c p => (answer fs p a).map fun r => (.path c r.1, r.2)
  | .rest p => (answer fs p a).map fun r => (.rest r.1, r.2)
  | .ended => none

/-- The calls on files so far, each with its handler and the store it found. -/
structure State (H : Type) where
  fs : Fs
  thread : H → Kind → Thread
  calls : List (H × Fs × FileCall)

variable {H : Type} [DecidableEq H]

def State.setThread (s : State H) (h : H) (kind : Kind) (t : Thread) : State H :=
  { s with thread := Function.update s.thread h (Function.update (s.thread h) kind t) }

def handlerStep (fuel : Nat) (user : H → List Byte) (s : State H) :
    H × Kind × Answer → Option (State H)
  | (h, kind, .next) => ((s.thread h kind).next fuel (user h) kind).map (s.setThread h kind)
  | (h, .clientSync, .stop) =>
    match s.thread h .clientSync with
    | .rest (.ret (.ok true, _)) => some (s.setThread h .clientSync .ended)
    | _ => none
  | (h, kind, a) => ((s.thread h kind).answered s.fs a).map fun r =>
      { s.setThread h kind r.1 with fs := r.2.1, calls := s.calls ++ (r.2.2.map (h, s.fs, ·)).toList }

def start (fuel : Nat) (user : H → List Byte) (servers : List Byte) (fs : Fs)
    (stream : H → Kind → SocketStream) : State H :=
  ⟨fs, fun h kind => .rest (opening fuel (user h) servers kind ⟨stream h kind, []⟩), []⟩

end DropboxHandlerThreads
