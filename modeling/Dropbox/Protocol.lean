import Dropbox.General.Codec
import Dropbox.SocketStream

/-!
FileExchange over cereal's portable binary archives: one flag byte for each archive
object, then fixed-width little-endian values; strings carry their size in 64 bits.
The archives use the stream buffer directly. `fuel` bounds the two file loops; a
loop that uses it up hangs.
-/
namespace DropboxProtocol
open DropboxFileStore DropboxHost DropboxSocketStream Programs Codec

/-- PortableBinaryOutputArchive::saveBinary -/
def saveBinary (bytes : List Byte) : Io SocketBuffer Unit := do
  let n ← xsputn bytes
  if n = bytes.length then pure () else Comp.throw (.cerealWrite bytes.length n)

/-- PortableBinaryInputArchive::loadBinary -/
def loadBinary (size : Nat) : Io SocketBuffer (List Byte) := do
  let bytes ← xsgetn size
  if bytes.length = size then pure bytes else Comp.throw (.cerealRead size bytes.length)

/-- The constructor writes the byte order: 1 for little-endian. -/
def outputArchive : Io SocketBuffer Unit := saveBinary [1]

/-- The constructor; the result says whether words have to be swapped. -/
def inputArchive : Io SocketBuffer Bool := do
  let flag ← loadBinary 1
  pure (flag != [1])

def loadWord (swap : Bool) : Io SocketBuffer Nat := do
  let bytes ← loadBinary 8
  pure (ofLittle (if swap then bytes.reverse else bytes))

def saveString (text : List Byte) : Io SocketBuffer Unit := do
  saveBinary (toLittle 8 text.length)
  saveBinary text

/-- std::string holds fewer than 2^63 characters; resize throws beyond. -/
def loadString (swap : Bool) : Io SocketBuffer (List Byte) := do
  let size ← loadWord swap
  if size < 2 ^ 63 then loadBinary size else Comp.throw .length

/-- The value of an int64_t with these bits. -/
def toInt64 (bits : Nat) : Int := if bits < 2 ^ 63 then bits else bits - 2 ^ 64

structure FileExchange where
  stream : SocketStream
  path : Path

/-- On a new stream, over an array with any content. -/
def FileExchange.fresh (mem : Nat → Byte) (p : Path) : FileExchange := ⟨.fresh mem, p⟩

def FileExchange.buf (fe : FileExchange) : SocketBuffer := fe.stream.buf

def onStream {A : Type} (x : Io SocketStream A) : Io FileExchange A :=
  x.zoom FileExchange.stream fun s fe => { fe with stream := s }

def onRdbuf {A : Type} (x : Io SocketBuffer A) : Io FileExchange A := onStream (rdbuf x)

def setPath (p : Path) : Io FileExchange Unit := Comp.modify fun fe => { fe with path := p }

def getPath : Io FileExchange Path := do
  let fe ← Comp.get
  pure fe.path

def flushExchange : Io FileExchange Unit := onStream flush

inductive ErrorCode where
  | connectionAborted
  | fromErrno
  deriving DecidableEq, Repr

def sendCommand (c : Command) : Io FileExchange Unit :=
  noexcept (onRdbuf do
    outputArchive
    saveBinary [c.toByte])

/-- A received byte that is no enumerator is `none`. "Read 0" is in the message of cereal's
    exception when nothing could be read. -/
def receiveCommand : Io FileExchange (Except ErrorCode (Option Command)) :=
  tryCatch (do
    let bytes ← onRdbuf do
      let _ ← inputArchive
      loadBinary 1
    pure (.ok (Command.ofByte (bytes.headD 0)))) fun
    | .cerealRead _ 0 => pure (.error .connectionAborted)
    | _ => pure (.error .fromErrno)

def sendPath : Io FileExchange Bool :=
  tryCatch (do
    let path ← getPath
    onRdbuf do
      outputArchive
      saveString (genericString path)
    pure true) fun _ => pure false

def receivePath : Io FileExchange Bool :=
  tryCatch (do
    let text ← onRdbuf do
      let swap ← inputArchive
      loadString swap
    setPath text
    pure true) fun _ => pure false

/-- The do-while loop of Send from position `pos` of the file; it tests eof only. -/
def sendLoop (p : Path) : Nat → Nat → Io FileExchange Unit
  | 0, _ => Comp.throw .hang
  | fuel + 1, pos => do
    match ← onFiles (.readIn p pos kPacketSize) with
    | none =>
      onStream (write [])
      sendLoop p fuel pos
    | some bytes =>
      onStream (write bytes)
      if bytes.length < kPacketSize then pure () else sendLoop p fuel (pos + bytes.length)

def send (fuel : Nat) : Io FileExchange Bool := do
  let path ← getPath
  if ← onFiles (.openIn path) then
    tryCatch (do
      let size ← orThrow (onFiles (.fileSize path))
      onRdbuf do
        outputArchive
        saveBinary (toLittle 8 size)
      sendLoop path fuel 0
      pure true) fun _ => pure false
  else pure false

/-- The while loop of Receive. gcount is never kInvalidRead, so that test of the source is left out. -/
def receiveLoop (p : Path) : Nat → Int → Io FileExchange Unit
  | 0, _ => Comp.throw .hang
  | fuel + 1, remaining => do
    if remaining = 0 then pure ()
    else
      let bytes ← onStream (read (min remaining kPacketSize))
      onFiles (.writeOut p bytes)
      receiveLoop p fuel (remaining - bytes.length)

/-- The first lines of Receive, up to is_open. -/
def prepare (path : Path) : Io FileExchange Bool := do
  let regular ← orThrow (onFiles (.isRegularFile path))
  if regular then pure () else orThrow (onFiles (.removeAll path))
  onFiles (.openOut path)

def receive (fuel : Nat) : Io FileExchange Bool :=
  noexcept do
    let path ← getPath
    if ← prepare path then
      tryCatch (do
        let bits ← onRdbuf do
          let swap ← inputArchive
          loadWord swap
        receiveLoop path fuel (toInt64 bits)
        pure true) fun _ => pure false
    else pure false

/-- composite::Sender::Upload -/
def senderUpload (fuel : Nat) (path : Path) : Io FileExchange Bool := do
  sendCommand .kUpload
  setPath path
  if ← sendPath then
    if ← send fuel then
      flushExchange
      pure true
    else pure false
  else pure false

/-- composite::Sender::Delete -/
def senderDelete (path : Path) : Io FileExchange Bool := do
  sendCommand .kDelete
  setPath path
  if ← sendPath then
    flushExchange
    pure true
  else pure false

/-- "sync_dir_" -/
def kSyncDirPrefix : List Byte := [115, 121, 110, 99, 95, 100, 105, 114, 95]

def syncDirWithPrefix (username : List Byte) : Path := kSyncDirPrefix ++ username

/-- A command on the wire. -/
def encodeCommand (c : Command) : List Byte := [1, c.toByte]

def encodeString (text : List Byte) : List Byte := 1 :: lengthPrefixed 8 text

def encodePath (p : Path) : List Byte := encodeString (genericString p)

/-- A file on the wire: its size, then its content. -/
def encodeFile (content : List Byte) : List Byte := 1 :: lengthPrefixed 8 content

end DropboxProtocol
