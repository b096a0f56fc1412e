import Dropbox.Protocol

/-!
The client's operations on its payload stream (Client and UserInput::HandleCommand),
one action of SyncFromClient on the client-sync stream, and the loop of SyncFromServer.
Pause and Resume of the watcher and its mutex are left out. The exit command on the
client-sync stream is an output of the payload side.
-/
namespace DropboxClient
open DropboxFileStore DropboxHost DropboxSocketStream DropboxProtocol Programs

def upload (fuel : Nat) (username : List Byte) (path : Path) : Io FileExchange Bool := do
  sendCommand .kUpload
  let destPath := joinPath (syncDirWithPrefix username) (filename path)
  setPath destPath
  if ← sendPath then
    setPath path
    if ← send fuel then
      tryCatch (do
        orThrow (onFiles (.copyFile path destPath))
        pure true) fun _ => pure false
    else pure false
  else pure false

def delete (username : List Byte) (filePath : Path) : Io FileExchange Bool := do
  sendCommand .kDelete
  setPath (joinPath (syncDirWithPrefix username) (filename filePath))
  if ← sendPath then
    tryCatch (do
      let path ← getPath
      let _ ← orThrow (onFiles (.remove path))
      pure true) fun _ => pure false
  else pure false

def download (fuel : Nat) (username : List Byte) (fileName : Path) : Io FileExchange Bool := do
  sendCommand .kDownload
  setPath (joinPath (syncDirWithPrefix username) fileName)
  if ← sendPath then
    flushExchange
    match ← receiveCommand with
    | .error _ => pure false
    | .ok received =>
      if received = some .kError then pure false
      else
        setPath fileName
        receive fuel
  else pure false

/-- The loop of RemoveAllFromDirectory over the names found in the directory. -/
def removeEntries (path : Path) : List Path → Io FileExchange Unit
  | [] => pure ()
  | name :: rest => do
    orThrow (onFiles (.removeAll (joinPath path name)))
    removeEntries path rest

def removeAllFromDirectory (path : Path) : Io FileExchange Unit := do
  let names ← orThrow (onFiles (.listDirectory path))
  removeEntries path names

/-- The loop of GetSyncDir. -/
def receiveEntries (fuel : Nat) : Nat → Io FileExchange Bool
  | 0 => Comp.throw .hang
  | turns + 1 => do
    match ← receiveCommand with
    | .ok (some .kSuccess) =>
      if ← receivePath then
        if ← receive fuel then receiveEntries fuel turns else pure false
      else pure false
    | .ok (some .kExit) => pure true
    | _ => pure false

/-- The existence check and the call of create_directory. -/
def makeSyncDir (path : Path) : Io FileExchange Unit := do
  if ← orThrow (onFiles (.pathExists path)) then pure ()
  else
    let _ ← orThrow (onFiles (.createDirectory path))
    pure ()

def getSyncDir (fuel turns : Nat) (username : List Byte) : Io FileExchange Bool := do
  makeSyncDir (syncDirWithPrefix username)
  removeAllFromDirectory (syncDirWithPrefix username)
  receiveEntries fuel turns

def exit : Io FileExchange Unit := do
  note .clientSyncExit
  sendCommand .kExit

def listServer : Io FileExchange Bool := do
  sendCommand .kListServer
  tryCatch (do
    let table ← onRdbuf do
      let swap ← inputArchive
      loadString swap
    note (.printed table)
    pure true) fun _ => pure false

def listClient (username : List Byte) : Io FileExchange Bool := do
  let table ← orThrow (onFiles (.directoryTable (syncDirWithPrefix username)))
  note (.printed table)
  pure true

def doAndReport (method : Io FileExchange Bool) : Io FileExchange Unit := do
  let success ← method
  note (.reported success)

/-- UserInput::HandleCommand with its input_path_; the result is `reading_`. -/
def handleCommand (fuel : Nat) (username : List Byte) (command : Command) (inputPath : Path) :
    Io FileExchange Bool := do
  let reading ← match command with
    | .kUpload => do
      if inputPath = [] then note .missingPath
      else if ← orThrow (onFiles (.isRegularFile inputPath)) then
        doAndReport (upload fuel username inputPath)
      else note (.notAFile inputPath)
      pure true
    | .kDownload => do
      if inputPath = [] then note .missingPath else doAndReport (download fuel username inputPath)
      pure true
    | .kDelete => do
      if inputPath = [] then note .missingPath else doAndReport (delete username inputPath)
      pure true
    | .kListServer => do
      let _ ← listServer
      pure true
    | .kListClient => do
      let _ ← listClient username
      pure true
    | .kExit => do
      exit
      pure false
    | _ => pure true
  flushExchange
  pure reading

/-- The commands of a user, until one of them is exit. -/
def issue (fuel : Nat) (username : List Byte) : List (Command × Path) → Io FileExchange Unit
  | [] => pure ()
  | (command, path) :: rest => do
    if ← handleCommand fuel username command path then issue fuel username rest else pure ()

/-- What SyncFromClient does for one inotify action. -/
def syncAction (fuel : Nat) (username : List Byte) (command : Command) (path : Path) :
    Io FileExchange Unit := do
  match command with
  | .kUpload =>
    sendCommand .kUpload
    setPath (joinPath (syncDirWithPrefix username) path)
    let _ ← sendPath
    setPath (joinPath (syncDirWithPrefix username) path)
    let _ ← send fuel
    pure ()
  | .kDelete =>
    sendCommand .kDelete
    setPath (joinPath (syncDirWithPrefix username) path)
    let _ ← sendPath
    pure ()
  | _ => pure ()
  flushExchange

/-- SyncFromServer up to the loss of the connection (`reconnecting`) or, after so many turns, the
    stop token. -/
def syncFromServer (fuel : Nat) : Nat → Io FileExchange Unit
  | 0 => pure ()
  | turns + 1 => do
    match ← receiveCommand with
    | .error .connectionAborted => note .reconnecting
    | .error .fromErrno => syncFromServer fuel turns
    | .ok (some .kUpload) =>
      let _ ← receivePath
      let _ ← receive fuel
      syncFromServer fuel turns
    | .ok (some .kDelete) =>
      let _ ← receivePath
      let path ← getPath
      if ← orThrow (onFiles (.pathExists path)) then
        let _ ← orThrow (onFiles (.remove path))
        syncFromServer fuel turns
      else syncFromServer fuel turns
    | .ok _ => syncFromServer fuel turns

end DropboxClient
