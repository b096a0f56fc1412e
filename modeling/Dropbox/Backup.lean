import Dropbox.Protocol

/-!
Backup::MainLoop on the connection to the primary. It creates the directory a path
begins with before it handles the path; an exception of a file-system call leaves it.
-/
namespace DropboxBackup
open DropboxFileStore DropboxHost DropboxSocketStream DropboxProtocol Programs

inductive MainLoopReply where
  | kLostConnectionToPrimary
  | kShutdown
  deriving DecidableEq, Repr

/-- std::getline up to the first slash. -/
def firstPart (p : Path) : Path := (cString p).takeWhile (· != slash)

/-- The shutdown flag is set after so many turns. -/
def mainLoop (fuel : Nat) : Nat → Io FileExchange MainLoopReply
  | 0 => pure .kShutdown
  | turns + 1 => do
    match ← receiveCommand with
    | .error .connectionAborted => pure .kLostConnectionToPrimary
    | .error .fromErrno => mainLoop fuel turns
    | .ok (some .kUpload) =>
      let _ ← receivePath
      let path ← getPath
      let _ ← orThrow (onFiles (.createDirectory (firstPart path)))
      let _ ← receive fuel
      mainLoop fuel turns
    | .ok (some .kDelete) =>
      let _ ← receivePath
      let path ← getPath
      let _ ← orThrow (onFiles (.createDirectory (firstPart path)))
      if ← orThrow (onFiles (.pathExists path)) then
        let _ ← orThrow (onFiles (.remove path))
        mainLoop fuel turns
      else mainLoop fuel turns
    | .ok _ => mainLoop fuel turns

end DropboxBackup
