import Dropbox.Protocol

/-!
ClientHandler on its payload and client-sync streams. A broadcast is an output; so is
"ordered", which MainLoop prints for each command. sleep and the other prints are
left out. `fuel` bounds the file loops, the loops of MainLoop and SyncFromClient have
their own bound: attempts to read a command for the first, turns until the stop
token is set for the second.
-/
namespace DropboxClientHandler
open DropboxFileStore DropboxHost DropboxSocketStream DropboxProtocol Programs

def kAttemptAmount : Nat := 5

def upload (fuel : Nat) : Io FileExchange Bool := do
  if ← receivePath then
    if ← receive fuel then
      let path ← getPath
      broadcast (.broadcastUpload path)
    else pure false
  else pure false

def delete : Io FileExchange Bool := do
  if ← receivePath then
    let path ← getPath
    if ← orThrow (onFiles (.pathExists path)) then
      let _ ← orThrow (onFiles (.remove path))
      broadcast (.broadcastDelete path)
    else pure false
  else pure false

def download (fuel : Nat) : Io FileExchange Bool := do
  if ← receivePath then
    let path ← getPath
    if ← orThrow (onFiles (.pathExists path)) then
      sendCommand .kSuccess
      send fuel
    else
      sendCommand .kError
      pure false
  else pure false

/-- The loop of GetSyncDir over the names found in the directory. -/
def sendEntries (fuel : Nat) (syncPath : Path) : List Path → Io FileExchange Bool
  | [] => do
    sendCommand .kExit
    pure true
  | name :: rest => do
    sendCommand .kSuccess
    setPath (joinPath syncPath (filename name))
    if ← sendPath then
      if ← send fuel then sendEntries fuel syncPath rest else pure false
    else pure false

def getSyncDir (fuel : Nat) (username : List Byte) : Io FileExchange Bool := do
  let names ← orThrow (onFiles (.listDirectory (syncDirWithPrefix username)))
  sendEntries fuel (syncDirWithPrefix username) names

def listServer (username : List Byte) : Io FileExchange Bool :=
  noexcept do
    let table ← orThrow (onFiles (.directoryTable (syncDirWithPrefix username)))
    tryCatch (do
      onRdbuf do
        outputArchive
        saveString table
      pure true) fun _ => pure false

/-- The switch of MainLoop; the result is `receiving`. -/
def serve (fuel : Nat) (username : List Byte) : Option Command → Io FileExchange Bool
  | some .kUpload => do
    let _ ← upload fuel
    pure true
  | some .kDownload => do
    let _ ← download fuel
    pure true
  | some .kDelete => do
    let _ ← delete
    pure true
  | some .kExit => pure false
  | some .kListServer => do
    let _ ← listServer username
    pure true
  | _ => pure true

def mainLoop (fuel : Nat) (username : List Byte) : Nat → Nat → Io FileExchange Unit
  | 0, _ => Comp.throw .hang
  | turns + 1, attempts => do
    match ← receiveCommand with
    | .ok command =>
      note (.ordered command)
      let receiving ← serve fuel username command
      flushExchange
      if receiving then mainLoop fuel username turns kAttemptAmount else pure ()
    | .error _ =>
      if attempts - 1 = 0 then pure () else mainLoop fuel username turns (attempts - 1)

/-- A turn of SyncFromClient's loop. -/
def syncTurn (fuel : Nat) : Io FileExchange Unit := do
  match ← receiveCommand with
  | .error _ => pure ()
  | .ok (some .kUpload) =>
    let _ ← receivePath
    let _ ← receive fuel
    let path ← getPath
    let _ ← broadcast (.broadcastUpload path)
    pure ()
  | .ok (some .kDelete) =>
    let _ ← receivePath
    let path ← getPath
    let _ ← orThrow (onFiles (.remove path))
    let _ ← broadcast (.broadcastDelete path)
    pure ()
  | .ok _ => pure ()

/-- The loop of SyncFromClient, stopped after so many turns. -/
def syncLoop (fuel : Nat) : Nat → Io FileExchange Unit
  | 0 => pure ()
  | turns + 1 => do
    syncTurn fuel
    syncLoop fuel turns

def syncFromClient (fuel : Nat) (servers : List Byte) (turns : Nat) : Io FileExchange Unit := do
  onRdbuf do
    outputArchive
    saveString servers
  flushExchange
  syncLoop fuel turns

end DropboxClientHandler
