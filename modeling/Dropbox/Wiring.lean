import Dropbox.AcceptQueue
import Dropbox.DeviceThreads
import Dropbox.SocketOwner
import Dropbox.SocketStream

/-!
Which objects point to which. A stream borrows a socket and an exchange borrows a stream,
by reference; BackupHandlers lie in a vector that moves them when it grows, and the objects
of a ClientHandler come out of the thread that read the username (composite/Base.hpp,
networking/SocketStream.hpp, replica/Primary.cpp, ClientHandler.cpp, ClientComposite.cpp).
A step is `none` where it would go through a reference to something that is not there.
-/
namespace DropboxWiring
open Transitions
open DropboxFileStore (Path)
open DropboxSocketOwner (Socket SocketType kInvalidSocket)
open DropboxSocketStream (SocketBuffer)
open DropboxAcceptQueue (SocketRole)
open DropboxDeviceThreads (kDeviceLimit)

/-- Blocks of storage, threads and list nodes are numbered as they come. -/
inductive Place where
  | newBackup                                    -- the local of AcceptBackupLoop
  | accepted (role : SocketRole)                 -- the locals of Primary::MainLoop
  | backup (storage index : Nat)
  | argument (thread : Nat) (role : SocketRole)  -- what the thread of NewClient was given
  | handler (node : Nat) (role : SocketRole)
  deriving DecidableEq, Repr

/-- `buffer` is the array of the SocketBuffer with the pointers into it, `none` after a move;
    `socket` is what the SocketBuffer borrows. -/
structure SocketStream where
  rdbuf : Place
  eofbit : Bool
  failbit : Bool
  badbit : Bool
  socket : Place
  buffer : Option SocketBuffer

structure FileExchange where
  stream : Place
  path : Path

/-- The objects of a composite::Base lie at one place, as do those a ClientHandler has for one
    of its connections. -/
structure Cell where
  socket : Option Socket
  stream : Option SocketStream
  exchange : Option FileExchange
  mutex : Option Nat

def Cell.empty : Cell := ⟨none, none, none, none⟩

abbrev Memory := Place → Cell

def Memory.put (m : Memory) (p : Place) (c : Cell) : Memory := Function.update m p c

/-- Socket(Socket &&other) -/
def moveSocket (this other : Place) (m : Memory) : Option Memory := do
  let socket ← (m other).socket
  let m := m.put this { m this with socket := some socket.moveConstruct.1 }
  some (m.put other { m other with socket := some socket.moveConstruct.2 })

/-- SocketStream(Socket &socket) -/
def constructStream (this socket : Place) (m : Memory) : Memory :=
  m.put this { m this with
    stream := some ⟨this, false, false, false, socket, some (.fresh fun _ => 0)⟩ }

/-- SocketStream(SocketStream &&other): the array changes hands, the socket stays the same. -/
def moveStream (this other : Place) (m : Memory) : Option Memory := do
  let stream ← (m other).stream
  let m := m.put this { m this with stream := some { stream with rdbuf := this } }
  some (m.put other { m other with stream := some { stream with buffer := none } })

/-- FileExchange(SocketStream &stream) -/
def constructExchange (this stream : Place) (m : Memory) : Memory :=
  m.put this { m this with exchange := some ⟨stream, []⟩ }

/-- FileExchange(FileExchange &&other) = default -/
def moveExchange (this other : Place) (m : Memory) : Option Memory := do
  let exchange ← (m other).exchange
  let m := m.put this { m this with exchange := some exchange }
  some (m.put other { m other with exchange := some { exchange with path := [] } })

def setSocket (this socket : Place) (m : Memory) : Option Memory := do
  let stream ← (m this).stream
  some (m.put this { m this with stream := some { stream with socket := socket } })

def setStream (this stream : Place) (m : Memory) : Option Memory := do
  let exchange ← (m this).exchange
  some (m.put this { m this with exchange := some { exchange with stream := stream } })

/-- composite::Base(Socket &&socket), which is Sender's too. -/
def constructBase (this socket : Place) (m : Memory) : Option Memory := do
  let m ← moveSocket this socket m
  let m := constructStream this this m
  some (constructExchange this this m)

/-- composite::Base(Base &&other), which is Sender's too. -/
def moveBase (this other : Place) (m : Memory) : Option Memory := do
  let m ← moveSocket this other m
  let m ← moveStream this other m
  let m ← moveExchange this other m
  let m ← setSocket this this m
  setStream this this m

/-- BackupHandler(Socket &&socket), with the mutex make_unique made. -/
def constructBackupHandler (this socket : Place) (mutex : Nat) (m : Memory) : Option Memory := do
  let m ← constructBase this socket m
  some (m.put this { m this with mutex := some mutex })

/-- BackupHandler(BackupHandler &&other) = default -/
def moveBackupHandler (this other : Place) (m : Memory) : Option Memory := do
  let m ← moveBase this other m
  let mutex := (m other).mutex
  let m := m.put this { m this with mutex := mutex }
  some (m.put other { m other with mutex := none })

/-- ClientHandler's constructor up to its body, with the objects of `thread`. -/
def constructClientHandler (node thread : Nat) (m : Memory) : Option Memory := do
  let m ← moveSocket (.handler node .payload) (.argument thread .payload) m
  let m ← moveSocket (.handler node .clientSync) (.argument thread .clientSync) m
  let m ← constructBase (.handler node .serverSync) (.argument thread .serverSync) m
  let m ← moveStream (.handler node .payload) (.argument thread .payload) m
  let m := constructStream (.handler node .clientSync) (.handler node .clientSync) m
  let m := constructExchange (.handler node .payload) (.handler node .payload) m
  let m := constructExchange (.handler node .clientSync) (.handler node .clientSync) m
  setSocket (.handler node .payload) (.handler node .payload) m

/-- Where the function of a thread of NewClient is. -/
inductive Phase where
  | absent
  | greeting     -- the username is being read
  | handed       -- its sockets and its stream were moved into a handler
  deriving DecidableEq, Repr

/-- What an exchange or a stream came to: a call to the OS with the descriptor, under the mutex. -/
structure Talk where
  mutex : Option Nat
  descriptor : SocketType
  deriving DecidableEq, Repr

/-- `storage`, `size` and `capacity` are those of backups_, `clients` has the nodes of each
    list_. `made` and `nodes` count the mutexes and the nodes so far. -/
structure State (U : Type) where
  memory : Memory
  storage : Nat
  size : Nat
  capacity : Nat
  made : Nat
  nodes : Nat
  threads : Nat → Phase
  clients : U → List Nat
  closed : List SocketType
  talks : List Talk

def start {U : Type} : State U :=
  ⟨fun _ => .empty, 0, 0, 0, 0, 0, fun _ => .absent, fun _ => [], [], []⟩

variable {U : Type} [DecidableEq U]

/-- The objects at a place are destroyed; ~Socket closes a valid descriptor. -/
def State.destroy (p : Place) (s : State U) : Option (State U) := do
  let socket ← (s.memory p).socket
  some { s with memory := s.memory.put p .empty, closed := s.closed ++ socket.descriptor.toList }

def State.adopt (p : Place) (accepted : SocketType) (s : State U) : State U :=
  { s with memory := s.memory.put p { Cell.empty with socket := some ⟨accepted⟩ } }

/-- The first elements go to the new storage, one after the other. -/
def State.relocate (storage : Nat) : Nat → State U → Option (State U)
  | 0, s => some s
  | n + 1, s => do
    let s ← s.relocate storage n
    let m ← moveBackupHandler (.backup storage n) (.backup s.storage n) s.memory
    State.destroy (.backup s.storage n) { s with memory := m }

/-- backups_.emplace_back; storage that has to grow gets `room` for that many elements more. -/
def State.emplaceBack (socket : Place) (room : Nat) (s : State U) : Option (State U) :=
  if s.size < s.capacity then do
    let m ← constructBackupHandler (.backup s.storage s.size) socket s.made s.memory
    some { s with memory := m, size := s.size + 1, made := s.made + 1 }
  else do
    let m ← constructBackupHandler (.backup (s.storage + 1) s.size) socket s.made s.memory
    let t ← State.relocate (s.storage + 1) s.size { s with memory := m }
    some { t with storage := s.storage + 1, size := s.size + 1, capacity := s.size + 1 + room,
                  made := s.made + 1 }

/-- A turn of AcceptBackupLoop. -/
def State.acceptBackup (accepted : SocketType) (room : Nat) (s : State U) : Option (State U) := do
  let s := s.adopt .newBackup accepted
  if accepted = kInvalidSocket then s.destroy .newBackup
  else
    let s ← s.emplaceBack .newBackup room
    s.destroy .newBackup

def roles : List SocketRole := [.payload, .clientSync, .serverSync]

/-- The objects of the places are destroyed in this order. -/
def State.destroyAll : List Place → State U → Option (State U)
  | [], s => some s
  | p :: rest, s => do
    let s ← s.destroy p
    s.destroyAll rest

/-- A turn of Primary::MainLoop; the thread of NewClient begins with its stream. -/
def State.newClient (thread : Nat) (accepted : SocketRole → SocketType) (s : State U) :
    Option (State U) :=
  if s.threads thread = .absent then do
    let s := roles.foldl (fun s role => s.adopt (.accepted role) (accepted role)) s
    if roles.any fun role => accepted role = kInvalidSocket then
      s.destroyAll (roles.reverse.map .accepted)
    else
      let m ← moveSocket (.argument thread .payload) (.accepted .payload) s.memory
      let m ← moveSocket (.argument thread .clientSync) (.accepted .clientSync) m
      let m ← moveSocket (.argument thread .serverSync) (.accepted .serverSync) m
      let s ← State.destroyAll (roles.reverse.map .accepted) { s with memory := m }
      let m := constructStream (.argument thread .payload) (.argument thread .payload) s.memory
      some { s with memory := m, threads := Function.update s.threads thread .greeting }
  else none

abbrev Operation := DropboxSocketStream.SocketStream → DropboxSocketStream.SocketStream

/-- An operation of the stream at the place. -/
def State.operate (mutex : Option Nat) (this : Place) (operation : Operation) (s : State U) :
    Option (State U) := do
  let stream ← (s.memory this).stream
  let below ← (s.memory stream.rdbuf).stream
  let buffer ← below.buffer
  let socket ← (s.memory below.socket).socket
  let after := operation ⟨buffer, stream.eofbit, stream.failbit, stream.badbit⟩
  let m := s.memory.put stream.rdbuf { s.memory stream.rdbuf with
    stream := some { below with buffer := some after.buf } }
  let stream ← (m this).stream
  let m := m.put this { m this with
    stream := some { stream with eofbit := after.eofbit, failbit := after.failbit,
                                 badbit := after.badbit } }
  some { s with memory := m, talks := s.talks ++ [⟨mutex, socket.socket⟩] }

/-- An operation of the exchange at the place, which may set its path. -/
def State.exchange (mutex : Option Nat) (this : Place) (operation : Operation)
    (path : Option Path) (s : State U) : Option (State U) := do
  let exchange ← (s.memory this).exchange
  let s ← s.operate mutex exchange.stream operation
  let exchange ← (s.memory this).exchange
  some { s with memory := s.memory.put this { s.memory this with
    exchange := some { exchange with path := path.getD exchange.path } } }

/-- BackupHandler::Upload and BackupHandler::Delete lock *mutex_. -/
def State.syncBackup (this : Place) (operation : Operation) (path : Option Path) (s : State U) :
    Option (State U) := do
  let mutex ← (s.memory this).mutex
  s.exchange (some mutex) this operation path

def State.endThread (thread : Nat) (s : State U) : Option (State U) := do
  let s ← s.destroyAll (roles.map (.argument thread))
  some { s with threads := Function.update s.threads thread .absent }

def State.destroyHandler (node : Nat) (s : State U) : Option (State U) :=
  s.destroyAll (roles.reverse.map (.handler node))

/-- ClientPool::Emplace with ClientComposite::Emplace; `throws` says that the constructor's body
    does, in the directory_iterator of GetSyncDir. -/
def State.emplace (thread : Nat) (username : U) (throws : Bool) (s : State U) :
    Option (State U) :=
  if s.threads thread ≠ .greeting then none
  else if (s.clients username).length ≥ kDeviceLimit then s.endThread thread
  else do
    let m ← constructClientHandler s.nodes thread s.memory
    let t := { s with memory := m, nodes := s.nodes + 1,
                      threads := Function.update s.threads thread .handed }
    if throws then
      let t ← t.destroyHandler s.nodes
      t.endThread thread
    else
      some { t with
        clients := Function.update s.clients username (s.clients username ++ [s.nodes]) }

/-- ClientHandler::GetId -/
def State.getId (node : Nat) (s : State U) : Option SocketType :=
  (s.memory (.handler node .payload)).socket.map Socket.socket

def State.destroyHandlers : List Nat → State U → Option (State U)
  | [], s => some s
  | node :: rest, s => do
    let s ← s.destroyHandler node
    s.destroyHandlers rest

/-- ClientComposite::Remove -/
def State.remove (username : U) (clientId : SocketType) (s : State U) : Option (State U) :=
  let cut := (s.clients username).filter fun node => s.getId node = some clientId
  let left := (s.clients username).filter fun node => s.getId node ≠ some clientId
  State.destroyHandlers cut { s with clients := Function.update s.clients username left }

inductive Action (U : Type) where
  | acceptBackup (accepted : SocketType) (room : Nat)
  | newClient (thread : Nat) (accepted : SocketRole → SocketType)
  | readUsername (thread : Nat) (operation : Operation)
  | emplace (thread : Nat) (username : U) (throws : Bool)
  | endThread (thread : Nat)
  | remove (username : U) (clientId : SocketType)
  | exchange (node : Nat) (role : SocketRole) (operation : Operation) (path : Option Path)
  | stream (node : Nat) (role : SocketRole) (operation : Operation)
  | syncBackup (index : Nat) (operation : Operation) (path : Option Path)

def wiringStep (s : State U) : Action U → Option (State U)
  | .acceptBackup accepted room => s.acceptBackup accepted room
  | .newClient thread accepted => s.newClient thread accepted
  | .readUsername thread operation =>
    if s.threads thread = .greeting then
      s.operate none (.argument thread .payload) operation
    else none
  | .emplace thread username throws => s.emplace thread username throws
  | .endThread thread => if s.threads thread = .absent then none else s.endThread thread
  | .remove username clientId => s.remove username clientId
  | .exchange node role operation path => s.exchange none (.handler node role) operation path
  | .stream node role operation => s.operate none (.handler node role) operation
  | .syncBackup index operation path =>
    if index < s.size then s.syncBackup (.backup s.storage index) operation path else none

/-- What an exchange works on, and the mutex that goes with it. -/
structure Connection where
  descriptor : SocketType
  stream : DropboxSocketStream.SocketStream
  path : Path
  mutex : Option Nat

def Connection.fresh (d : SocketType) : Connection := ⟨d, .fresh fun _ => 0, [], none⟩

def Connection.after (operation : Operation) (path : Option Path) (c : Connection) : Connection :=
  { c with stream := operation c.stream, path := path.getD c.path }

/-- What a thread of NewClient has: nothing yet, three sockets and a stream on the first, or what
    is left of them. -/
inductive Guest where
  | absent
  | greeting (stream : DropboxSocketStream.SocketStream) (descriptor : SocketRole → SocketType)
  | handed

def Guest.phase : Guest → Phase
  | .absent => .absent
  | .greeting _ _ => .greeting
  | .handed => .handed

/-- The same without places: every handler simply has its connections. -/
structure Spec (U : Type) where
  backups : List Connection
  threads : Nat → Guest
  handlers : Nat → Option (SocketRole → Connection)
  nodes : Nat
  clients : U → List Nat
  closed : List SocketType
  talks : List Talk

def Spec.start : Spec U := ⟨[], fun _ => .absent, fun _ => none, 0, fun _ => [], [], []⟩

/-- What closing these sockets closes. -/
def closes (descriptors : List SocketType) : List SocketType :=
  descriptors.flatMap fun d => (Socket.mk d).descriptor.toList

def hired (stream : DropboxSocketStream.SocketStream) (descriptor : SocketRole → SocketType) :
    SocketRole → Connection
  | .payload => { Connection.fresh (descriptor .payload) with stream := stream }
  | .clientSync => .fresh (descriptor .clientSync)
  | .serverSync => .fresh (descriptor .serverSync)

def Spec.getId (a : Spec U) (node : Nat) : Option SocketType :=
  (a.handlers node).map fun h => (h .payload).descriptor

/-- The sockets a handler closes when it goes. -/
def Spec.leaving (a : Spec U) (node : Nat) : List SocketType :=
  ((a.handlers node).map fun h =>
    closes (roles.reverse.map fun role => (h role).descriptor)).getD []

def Spec.use (node : Nat) (role : SocketRole) (operation : Operation) (path : Option Path)
    (a : Spec U) : Option (Spec U) :=
  (a.handlers node).map fun h =>
    { a with handlers := Function.update a.handlers node
               (some (Function.update h role ((h role).after operation path))),
             talks := a.talks ++ [⟨none, (h role).descriptor⟩] }

def specStep (a : Spec U) : Action U → Option (Spec U)
  | .acceptBackup accepted _ =>
    some (if accepted = kInvalidSocket then a
      else { a with
        backups := a.backups ++
          [{ Connection.fresh accepted with mutex := some a.backups.length }] })
  | .newClient thread accepted =>
    match a.threads thread with
    | .absent =>
      some (if roles.any fun role => accepted role = kInvalidSocket then
        { a with closed := a.closed ++ closes (roles.reverse.map accepted) }
      else { a with
        threads := Function.update a.threads thread (.greeting (.fresh fun _ => 0) accepted) })
    | _ => none
  | .readUsername thread operation =>
    match a.threads thread with
    | .greeting stream descriptor =>
      some { a with threads := Function.update a.threads thread
                      (.greeting (operation stream) descriptor),
                    talks := a.talks ++ [⟨none, descriptor .payload⟩] }
    | _ => none
  | .emplace thread username throws =>
    match a.threads thread with
    | .greeting stream descriptor =>
      some (if (a.clients username).length ≥ kDeviceLimit then
        { a with threads := Function.update a.threads thread .absent,
                 closed := a.closed ++ closes (roles.map descriptor) }
      else if throws then
        { a with nodes := a.nodes + 1,
                 threads := Function.update a.threads thread .absent,
                 closed := a.closed ++ closes (roles.reverse.map descriptor) }
      else
        { a with handlers := Function.update a.handlers a.nodes (some (hired stream descriptor)),
                 nodes := a.nodes + 1,
                 clients := Function.update a.clients username
                   (a.clients username ++ [a.nodes]),
                 threads := Function.update a.threads thread .handed })
    | _ => none
  | .endThread thread =>
    match a.threads thread with
    | .absent => none
    | .greeting _ descriptor =>
      some { a with threads := Function.update a.threads thread .absent,
                    closed := a.closed ++ closes (roles.map descriptor) }
    | .handed => some { a with threads := Function.update a.threads thread .absent }
  | .remove username clientId =>
    let cut := (a.clients username).filter fun node => a.getId node = some clientId
    let left := (a.clients username).filter fun node => a.getId node ≠ some clientId
    some { a with clients := Function.update a.clients username left,
                  handlers := fun node => if node ∈ cut then none else a.handlers node,
                  closed := a.closed ++ cut.flatMap a.leaving }
  | .exchange node role operation path => a.use node role operation path
  | .stream node role operation => a.use node role operation none
  | .syncBackup index operation path =>
    (a.backups[index]?).map fun c =>
      { a with backups := a.backups.set index (c.after operation path),
               talks := a.talks ++ [⟨c.mutex, c.descriptor⟩] }

/-- The objects of a connection where all of them are at the place and point to one another. -/
def wired (p : Place) (c : Connection) : Cell :=
  ⟨some ⟨c.descriptor⟩,
    some ⟨p, c.stream.eofbit, c.stream.failbit, c.stream.badbit, p, some c.stream.buf⟩,
    some ⟨p, c.path⟩, c.mutex⟩

/-- What is left of them after a move. -/
def husk (p : Place) (c : Connection) : Cell :=
  ⟨some ⟨kInvalidSocket⟩,
    some ⟨p, c.stream.eofbit, c.stream.failbit, c.stream.badbit, p, none⟩,
    some ⟨p, []⟩, c.mutex⟩

def seat (p : Place) : Option Connection → Cell
  | none => .empty
  | some c => wired p c

/-- What lies at the places of a thread. Moved sockets close nothing. -/
def Hosts (thread : Nat) (role : SocketRole) (c : Cell) : Guest → Prop
  | .absent => c = .empty
  | .greeting stream descriptor => c = ⟨some ⟨descriptor role⟩,
      if role = .payload then some ⟨.argument thread role, stream.eofbit, stream.failbit,
        stream.badbit, .argument thread role, some stream.buf⟩ else none, none, none⟩
  | .handed => c.socket = some ⟨kInvalidSocket⟩

@[simp] theorem put_self (m : Memory) (p : Place) (c : Cell) : m.put p c p = c :=
  Function.update_self ..

theorem put_other {m : Memory} {p q : Place} {c : Cell} (other : q ≠ p) : m.put p c q = m q :=
  Function.update_of_ne other ..

section moves
variable {m : Memory} {this other : Place} {a b : Cell} {c : Connection}

/-- The memory with these objects at the two places of a move. -/
def Memory.pair (m : Memory) (this other : Place) (a b : Cell) : Memory :=
  (m.put this a).put other b

theorem pair_this (apart : this ≠ other) : m.pair this other a b this = a := by
  rw [Memory.pair, put_other apart, put_self]

theorem pair_other : m.pair this other a b other = b := put_self ..

theorem pair_elsewhere {p : Place} (notThis : p ≠ this) (notOther : p ≠ other) :
    m.pair this other a b p = m p := by
  rw [Memory.pair, put_other notOther, put_other notThis]

theorem pair_same : m.pair this other (m this) (m other) = m := by
  funext p
  by_cases here : p = other
  · rw [here, pair_other]
  · by_cases there : p = this
    · rw [there, Memory.pair, put_other (there ▸ here), put_self]
    · rw [pair_elsewhere there here]

theorem put_pair_this (apart : this ≠ other) (new : Cell) :
    (m.pair this other a b).put this new = m.pair this other new b := by
  funext p
  by_cases here : p = this
  · rw [here, put_self, pair_this apart]
  · by_cases there : p = other
    · rw [there, put_other apart.symm, pair_other, pair_other]
    · rw [put_other here, pair_elsewhere here there, pair_elsewhere here there]

theorem put_pair_other (new : Cell) :
    (m.pair this other a b).put other new = m.pair this other a new := by
  funext p
  by_cases here : p = other
  · rw [here, put_self, pair_other]
  · rw [put_other here, Memory.pair, Memory.pair, put_other here, put_other here]

theorem moveSocket_pair {socket : Socket} (apart : this ≠ other) (held : b.socket = some socket) :
    moveSocket this other (m.pair this other a b) = some (m.pair this other
      { a with socket := some socket } { b with socket := some ⟨kInvalidSocket⟩ }) := by
  simp only [moveSocket, pair_other, held, pair_this apart, Option.bind_eq_bind, Option.bind_some,
    put_pair_this apart, put_pair_other, Socket.moveConstruct]

theorem moveStream_pair {stream : SocketStream} (apart : this ≠ other)
    (held : b.stream = some stream) :
    moveStream this other (m.pair this other a b) = some (m.pair this other
      { a with stream := some { stream with rdbuf := this } }
      { b with stream := some { stream with buffer := none } }) := by
  simp only [moveStream, pair_other, held, pair_this apart, Option.bind_eq_bind, Option.bind_some,
    put_pair_this apart, put_pair_other]

theorem moveExchange_pair {exchange : FileExchange} (apart : this ≠ other)
    (held : b.exchange = some exchange) :
    moveExchange this other (m.pair this other a b) = some (m.pair this other
      { a with exchange := some exchange }
      { b with exchange := some { exchange with path := [] } }) := by
  simp only [moveExchange, pair_other, held, pair_this apart, Option.bind_eq_bind,
    Option.bind_some, put_pair_this apart, put_pair_other]

theorem setSocket_pair {socket : Place} {stream : SocketStream} (apart : this ≠ other)
    (held : a.stream = some stream) :
    setSocket this socket (m.pair this other a b) = some (m.pair this other
      { a with stream := some { stream with socket := socket } } b) := by
  simp only [setSocket, pair_this apart, held, Option.bind_eq_bind, Option.bind_some,
    put_pair_this apart]

theorem setStream_pair {stream : Place} {exchange : FileExchange} (apart : this ≠ other)
    (held : a.exchange = some exchange) :
    setStream this stream (m.pair this other a b) = some (m.pair this other
      { a with exchange := some { exchange with stream := stream } } b) := by
  simp only [setStream, pair_this apart, held, Option.bind_eq_bind, Option.bind_some,
    put_pair_this apart]

theorem constructBase_pair (socket : Socket) (apart : this ≠ other)
    (held : b.socket = some socket) :
    constructBase this other (m.pair this other a b) = some (m.pair this other
      { a with socket := some socket,
               stream := some ⟨this, false, false, false, this, some (.fresh fun _ => 0)⟩,
               exchange := some ⟨this, []⟩ }
      { b with socket := some ⟨kInvalidSocket⟩ }) := by
  simp only [constructBase, moveSocket_pair apart held, Option.bind_eq_bind, Option.bind_some,
    constructStream, constructExchange, pair_this apart, put_pair_this apart]

theorem moveBase_pair {p : Place} (apart : this ≠ other) :
    moveBase this other (m.pair this other a (wired p c)) = some (m.pair this other
      { wired this c with mutex := a.mutex }
      (husk p c)) := by
  rw [moveBase, moveSocket_pair apart rfl, Option.bind_eq_bind, Option.bind_some]
  rw [moveStream_pair apart rfl, Option.bind_some, moveExchange_pair apart rfl, Option.bind_some]
  rw [setSocket_pair apart rfl, Option.bind_some, setStream_pair apart rfl]
  rfl

theorem constructBase_wired (d : SocketType) (left : Cell) (apart : this ≠ other)
    (free : m this = .empty) (there : m other = { left with socket := some ⟨d⟩ }) :
    constructBase this other m = some (m.pair this other (wired this (.fresh d))
      { left with socket := some ⟨kInvalidSocket⟩ }) := by
  have made := constructBase_pair (m := m) (a := m this) (b := m other) ⟨d⟩ apart
    (by rw [there])
  rw [pair_same] at made
  rw [made, free, there]
  rfl

theorem constructBackupHandler_wired {d : SocketType} {left : Cell} (mutex : Nat)
    (apart : this ≠ other) (free : m this = .empty)
    (there : m other = { left with socket := some ⟨d⟩ }) :
    constructBackupHandler this other mutex m = some (m.pair this other
      (wired this { Connection.fresh d with mutex := some mutex })
      { left with socket := some ⟨kInvalidSocket⟩ }) := by
  rw [constructBackupHandler, constructBase_wired d left apart free there, Option.bind_eq_bind,
    Option.bind_some, pair_this apart, put_pair_this apart]
  rfl

theorem moveBackupHandler_wired (apart : this ≠ other) (free : m this = .empty)
    (there : m other = wired other c) :
    moveBackupHandler this other m = some (m.pair this other (wired this c)
      { husk other c with mutex := none }) := by
  have moved := moveBase_pair (m := m) (a := .empty) (c := c) (p := other) apart
  rw [← free, ← there, pair_same] at moved
  rw [moveBackupHandler, moved, Option.bind_eq_bind, Option.bind_some]
  simp only [pair_this apart, pair_other, put_pair_this apart, put_pair_other]
  rfl

end moves

section destroying
variable {s : State U} {p : Place} {d : SocketType}

omit [DecidableEq U] in
theorem destroy_socket (there : (s.memory p).socket = some ⟨d⟩) :
    s.destroy p = some { s with memory := s.memory.put p .empty,
                                closed := s.closed ++ closes [d] } := by
  simp [State.destroy, there, closes]

theorem closes_moved : closes [kInvalidSocket] = [] := rfl

omit [DecidableEq U] in
theorem destroy_moved (there : (s.memory p).socket = some ⟨kInvalidSocket⟩) :
    s.destroy p = some { s with memory := s.memory.put p .empty } := by
  simp [destroy_socket there, closes_moved]

def Memory.clear (places : List Place) (m : Memory) : Memory :=
  fun q => if q ∈ places then .empty else m q

theorem clear_member {m : Memory} {places : List Place} {q : Place} (member : q ∈ places) :
    m.clear places q = .empty := if_pos member

theorem clear_other {m : Memory} {places : List Place} {q : Place} (other : q ∉ places) :
    m.clear places q = m q := if_neg other

theorem mem_roles (role : SocketRole) : role ∈ roles := by
  cases role <;> simp [roles]

theorem mem_roles_reverse (role : SocketRole) : role ∈ roles.reverse :=
  List.mem_reverse.mpr (mem_roles role)

theorem roles_nodup : roles.Nodup := by decide

variable {place : SocketRole → Place} {order : List SocketRole}

omit [DecidableEq U] in
theorem destroyAll_closes (held : SocketRole → SocketType) (apart : Function.Injective place)
    (different : order.Nodup)
    (there : ∀ role ∈ order, (s.memory (place role)).socket = some ⟨held role⟩) :
    s.destroyAll (order.map place) = some { s with
      memory := s.memory.clear (order.map place),
      closed := s.closed ++ closes (order.map held) } := by
  induction order generalizing s with
  | nil =>
    have kept : Memory.clear [] s.memory = s.memory := by
      funext q
      simp [Memory.clear]
    simp [State.destroyAll, closes, kept]
  | cons role rest ih =>
    obtain ⟨first, later⟩ := List.nodup_cons.mp different
    have gone := destroy_socket (there role List.mem_cons_self)
    have others : ∀ r ∈ rest,
        (s.memory.put (place role) .empty (place r)).socket = some ⟨held r⟩ := by
      intro r member
      have other : place r ≠ place role := by
        intro same
        rw [apart same] at member
        exact first member
      rw [put_other other]
      exact there r (List.mem_cons_of_mem _ member)
    rw [List.map_cons, State.destroyAll, gone]
    simp only [Option.bind_eq_bind, Option.bind_some]
    rw [ih later others, List.map_cons]
    congr 2
    · funext q
      show Memory.clear (rest.map place) (s.memory.put (place role) .empty) q =
        Memory.clear (place role :: rest.map place) s.memory q
      by_cases here : q = place role
      · have inside : q ∈ place role :: rest.map place := by
          rw [here]
          exact List.mem_cons_self
        rw [clear_member inside]
        by_cases member : q ∈ rest.map place
        · exact clear_member member
        · rw [clear_other member, here, put_self]
      · by_cases member : q ∈ rest.map place
        · rw [clear_member member, clear_member (List.mem_cons_of_mem _ member)]
        · have outside : q ∉ place role :: rest.map place :=
            fun within => (List.mem_cons.mp within).elim here member
          rw [clear_other member, put_other here, clear_other outside]
    · simp [closes]

omit [DecidableEq U] in
theorem destroyAll_moved (apart : Function.Injective place) (different : order.Nodup)
    (there : ∀ role ∈ order, (s.memory (place role)).socket = some ⟨kInvalidSocket⟩) :
    s.destroyAll (order.map place) =
      some { s with memory := s.memory.clear (order.map place) } := by
  have silent : closes (order.map fun _ => kInvalidSocket) = [] := by
    apply List.flatMap_eq_nil_iff.mpr
    intro d member
    obtain ⟨_, _, rfl⟩ := List.mem_map.mp member
    rfl
  rw [destroyAll_closes (fun _ => kInvalidSocket) apart different there, silent,
    List.append_nil]

end destroying

section storage

theorem other_index {k l i j : Nat} (apart : i ≠ j) : Place.backup k i ≠ .backup l j := by
  intro same
  cases same
  exact apart rfl

theorem other_storage {k l i j : Nat} (apart : k ≠ l) : Place.backup k i ≠ .backup l j := by
  intro same
  cases same
  exact apart rfl

variable {s : State U} {storage : Nat} (connections : List Connection)

omit [DecidableEq U] in
theorem relocate_moves {n : Nat} (apart : storage ≠ s.storage) (within : n ≤ connections.length)
    (here : ∀ i < n, s.memory (.backup s.storage i) = seat (.backup s.storage i) connections[i]?)
    (free : ∀ i < n, s.memory (.backup storage i) = .empty) :
    ∃ m, s.relocate storage n = some { s with memory := m } ∧
      (∀ i < n, m (.backup storage i) = seat (.backup storage i) connections[i]?) ∧
      (∀ i < n, m (.backup s.storage i) = .empty) ∧
      ∀ p, (∀ i < n, p ≠ .backup storage i ∧ p ≠ .backup s.storage i) → m p = s.memory p := by
  induction n with
  | zero => exact ⟨s.memory, rfl, by simp, by simp, fun _ _ => rfl⟩
  | succ n ih =>
    obtain ⟨m, before, moved, left, rest⟩ := ih (by omega)
      (fun i less => here i (by omega)) (fun i less => free i (by omega))
    have places : Place.backup storage n ≠ .backup s.storage n := other_storage apart
    have beyond : ∀ k, ∀ i < n, Place.backup k n ≠ .backup storage i ∧
        Place.backup k n ≠ .backup s.storage i := by
      intro k i less
      exact ⟨other_index (by omega), other_index (by omega)⟩
    have present : connections[n]? = some connections[n] := List.getElem?_eq_getElem within
    have source : m (.backup s.storage n) = wired (.backup s.storage n) connections[n] := by
      rw [rest _ (beyond _), here n (by omega), present]
      rfl
    have target : m (.backup storage n) = .empty := by
      rw [rest _ (beyond _), free n (by omega)]
    have step := moveBackupHandler_wired places target source
    have gone : State.destroy (.backup s.storage n) { s with
        memory := m.pair (.backup storage n) (.backup s.storage n)
          (wired (.backup storage n) connections[n])
          { husk (.backup s.storage n) connections[n] with mutex := none } } = _ :=
      destroy_moved (by simp only [pair_other, husk])
    refine ⟨m.pair (.backup storage n) (.backup s.storage n)
      (wired (.backup storage n) connections[n]) .empty, ?_, ?_, ?_, ?_⟩
    · rw [State.relocate, before]
      simp only [Option.bind_eq_bind, Option.bind_some, step, gone, put_pair_other]
    · intro i less
      by_cases last : i = n
      · rw [last, pair_this places, present]
        rfl
      · rw [pair_elsewhere (other_index last) (other_index last), moved i (by omega)]
    · intro i less
      by_cases last : i = n
      · rw [last, pair_other]
      · rw [pair_elsewhere (other_index last) (other_index last), left i (by omega)]
    · intro p outside
      obtain ⟨notNew, notOld⟩ := outside n (by omega)
      rw [pair_elsewhere notNew notOld]
      exact rest p fun i less => outside i (by omega)

/-- The vector has one element more, made from what is at `socket`, and nothing else has changed. -/
structure Appended (s : State U) (socket : Place) (left : Cell) (after : List Connection)
    (storage : Nat) (m : Memory) : Prop where
  elements : ∀ i, m (.backup storage i) = seat (.backup storage i) after[i]?
  gone : ∀ other i, other ≠ storage → m (.backup other i) = .empty
  source : m socket = { left with socket := some ⟨kInvalidSocket⟩ }
  elsewhere : ∀ p, (∀ storage i, p ≠ .backup storage i) → p ≠ socket → m p = s.memory p

section emplacing
variable {d : SocketType} (socket : Place) (left : Cell)

section
omit [DecidableEq U]

theorem emplaceBack_in_place (room : Nat)
    (here : ∀ i, s.memory (.backup s.storage i) = seat (.backup s.storage i) connections[i]?)
    (free : ∀ storage i, storage ≠ s.storage → s.memory (.backup storage i) = .empty)
    (size : s.size = connections.length) (space : s.size < s.capacity)
    (outside : ∀ storage i, socket ≠ .backup storage i)
    (there : s.memory socket = { left with socket := some ⟨d⟩ }) :
    ∃ m, s.emplaceBack socket room = some { s with
        memory := m, size := s.size + 1, made := s.made + 1 } ∧
      Appended s socket left
        (connections ++ [{ Connection.fresh d with mutex := some s.made }]) s.storage m := by
  have empty : s.memory (.backup s.storage s.size) = .empty := by
    rw [here, size, List.getElem?_eq_none (Nat.le_refl _)]
    rfl
  have made := constructBackupHandler_wired s.made (outside _ _).symm empty there
  refine ⟨_, by rw [State.emplaceBack, if_pos space, made]; rfl, ?_, ?_, ?_, ?_⟩
  · intro i
    by_cases last : i = s.size
    · rw [last, pair_this (outside _ _).symm, size]
      simp [seat]
    · rw [pair_elsewhere (other_index last) (outside _ _).symm, here]
      by_cases inside : i < connections.length
      · rw [List.getElem?_append_left inside]
      · rw [List.getElem?_eq_none (by omega), List.getElem?_eq_none (by simp; omega)]
  · intro other i apart
    rw [pair_elsewhere (other_storage apart) (outside _ _).symm, free other i apart]
  · exact pair_other
  · intro p notBackup notSocket
    exact pair_elsewhere (notBackup _ _) notSocket

/-- The new element is made before the others are moved to the new storage. -/
theorem emplaceBack_grows (room : Nat)
    (here : ∀ i, s.memory (.backup s.storage i) = seat (.backup s.storage i) connections[i]?)
    (free : ∀ storage i, storage ≠ s.storage → s.memory (.backup storage i) = .empty)
    (size : s.size = connections.length) (full : ¬ s.size < s.capacity)
    (outside : ∀ storage i, socket ≠ .backup storage i)
    (there : s.memory socket = { left with socket := some ⟨d⟩ }) :
    ∃ m, s.emplaceBack socket room = some { s with
        memory := m, storage := s.storage + 1, size := s.size + 1,
        capacity := s.size + 1 + room, made := s.made + 1 } ∧
      Appended s socket left
        (connections ++ [{ Connection.fresh d with mutex := some s.made }]) (s.storage + 1) m := by
  have next : s.storage + 1 ≠ s.storage := by omega
  have empty : s.memory (.backup (s.storage + 1) s.size) = .empty := free _ _ next
  obtain ⟨n, made, new, left', elsewhere⟩ : ∃ n,
      constructBackupHandler (.backup (s.storage + 1) s.size) socket s.made s.memory = some n ∧
      n (.backup (s.storage + 1) s.size) = wired (.backup (s.storage + 1) s.size)
        { Connection.fresh d with mutex := some s.made } ∧
      n socket = { left with socket := some ⟨kInvalidSocket⟩ } ∧
      ∀ p, p ≠ .backup (s.storage + 1) s.size → p ≠ socket → n p = s.memory p :=
    ⟨_, constructBackupHandler_wired s.made (outside _ _).symm empty there,
      pair_this (outside _ _).symm, pair_other, fun p => pair_elsewhere⟩
  obtain ⟨m, moved, arrived, cleared, rest⟩ := relocate_moves connections (n := s.size)
    (s := { s with memory := n }) next (by omega)
    (by
      intro i less
      exact (elsewhere _ (other_storage next.symm) (outside _ _).symm).trans (here i))
    (by
      intro i less
      exact (elsewhere _ (other_index (by omega)) (outside _ _).symm).trans (free _ _ next))
  have kept : ∀ p, (∀ i < s.size, p ≠ .backup (s.storage + 1) i ∧ p ≠ .backup s.storage i) →
      p ≠ .backup (s.storage + 1) s.size → p ≠ socket → m p = s.memory p := by
    intro p apart notNew notSocket
    rw [rest p apart]
    exact elsewhere p notNew notSocket
  have beyond : ∀ k i, s.size ≤ i → ∀ j < s.size, Place.backup k i ≠ .backup (s.storage + 1) j ∧
      Place.backup k i ≠ .backup s.storage j := by
    intro k i later j less
    exact ⟨other_index (by omega), other_index (by omega)⟩
  refine ⟨m, ?_, ?_, ?_, ?_, ?_⟩
  · rw [State.emplaceBack, if_neg full, made]
    simp only [Option.bind_eq_bind, Option.bind_some, moved]
  · intro i
    by_cases inside : i < s.size
    · rw [arrived i inside, List.getElem?_append_left (by omega)]
    · by_cases last : i = s.size
      · rw [last, rest _ (beyond _ _ (Nat.le_refl _))]
        refine new.trans ?_
        rw [size]
        simp [seat]
      · rw [kept _ (beyond _ _ (by omega)) (other_index last) (outside _ _).symm, free _ _ next]
        rw [List.getElem?_eq_none (by simp; omega)]
        rfl
  · intro other i apart
    by_cases old : other = s.storage
    · subst old
      by_cases inside : i < s.size
      · exact cleared i inside
      · rw [kept _ (beyond _ _ (by omega)) (other_storage apart) (outside _ _).symm, here]
        rw [List.getElem?_eq_none (by omega)]
        rfl
    · rw [kept _ (fun j less => ⟨other_storage apart, other_storage old⟩)
        (other_storage apart) (outside _ _).symm, free _ _ old]
  · rw [rest _ fun j less => ⟨outside _ _, outside _ _⟩]
    exact left'
  · intro p notBackup notSocket
    exact kept p (fun j less => ⟨notBackup _ _, notBackup _ _⟩) (notBackup _ _) notSocket

/-- emplace_back appends, whether the storage has to grow or not. -/
theorem emplaceBack_appends (room : Nat)
    (here : ∀ i, s.memory (.backup s.storage i) = seat (.backup s.storage i) connections[i]?)
    (free : ∀ storage i, storage ≠ s.storage → s.memory (.backup storage i) = .empty)
    (size : s.size = connections.length)
    (outside : ∀ storage i, socket ≠ .backup storage i)
    (there : s.memory socket = { left with socket := some ⟨d⟩ }) :
    ∃ m storage capacity, s.emplaceBack socket room = some { s with
        memory := m, storage := storage, size := s.size + 1, capacity := capacity,
        made := s.made + 1 } ∧
      s.size + 1 ≤ capacity ∧ Appended s socket left
        (connections ++ [{ Connection.fresh d with mutex := some s.made }]) storage m := by
  by_cases space : s.size < s.capacity
  · obtain ⟨m, emplaced, appended⟩ :=
      emplaceBack_in_place connections socket left room here free size space outside there
    exact ⟨m, s.storage, s.capacity, emplaced, space, appended⟩
  · obtain ⟨m, emplaced, appended⟩ :=
      emplaceBack_grows connections socket left room here free size space outside there
    exact ⟨m, s.storage + 1, s.size + 1 + room, emplaced, by omega, appended⟩

end

end emplacing

end storage

section handlers
variable {m : Memory} {node thread : Nat}

theorem moveSocket_held (this other : Place) (socket : Socket) (apart : this ≠ other)
    (held : (m other).socket = some socket) :
    moveSocket this other m = some (m.pair this other { m this with socket := some socket }
      { m other with socket := some ⟨kInvalidSocket⟩ }) := by
  have moved := moveSocket_pair (m := m) (a := m this) (b := m other) apart held
  rwa [pair_same] at moved

theorem moveStream_held (this other : Place) (stream : SocketStream) (apart : this ≠ other)
    (held : (m other).stream = some stream) :
    moveStream this other m = some (m.pair this other
      { m this with stream := some { stream with rdbuf := this } }
      { m other with stream := some { stream with buffer := none } }) := by
  have moved := moveStream_pair (m := m) (a := m this) (b := m other) apart held
  rwa [pair_same] at moved

/-- A ClientHandler is built from a thread's sockets and stream. -/
theorem constructClientHandler_hires {stream : DropboxSocketStream.SocketStream}
    {descriptor : SocketRole → SocketType}
    (free : ∀ role, m (.handler node role) = .empty)
    (guest : ∀ role, Hosts thread role (m (.argument thread role)) (.greeting stream descriptor)) :
    ∃ n, constructClientHandler node thread m = some n ∧
      (∀ role, n (.handler node role) =
        wired (.handler node role) (hired stream descriptor role)) ∧
      (∀ role, (n (.argument thread role)).socket = some ⟨kInvalidSocket⟩) ∧
      ∀ p, (∀ role, p ≠ .handler node role) → (∀ role, p ≠ .argument thread role) →
        n p = m p := by
  have payload := guest .payload
  have clientSync := guest .clientSync
  have serverSync := guest .serverSync
  simp only [Hosts, ↓reduceIte, reduceCtorEq] at payload clientSync serverSync
  have first := moveSocket_held (m := m) (.handler node .payload) (.argument thread .payload)
    ⟨descriptor .payload⟩ (by simp)
    (by rw [payload])
  generalize one : m.pair _ _ _ _ = m₁ at first
  have second := moveSocket_held (m := m₁) (.handler node .clientSync)
    (.argument thread .clientSync) ⟨descriptor .clientSync⟩ (by simp)
    (by rw [← one, pair_elsewhere (by simp) (by simp), clientSync])
  generalize two : m₁.pair _ _ _ _ = m₂ at second
  have third := constructBase_wired (m := m₂) (descriptor .serverSync) ⟨none, none, none, none⟩
    (show Place.handler node .serverSync ≠ .argument thread .serverSync by simp)
    (by rw [← two, pair_elsewhere (by simp) (by simp), ← one, pair_elsewhere (by simp) (by simp),
      free])
    (by rw [← two, pair_elsewhere (by simp) (by simp), ← one, pair_elsewhere (by simp) (by simp),
      serverSync])
  generalize three : m₂.pair _ _ _ _ = m₃ at third
  have fourth := moveStream_held (m := m₃) (.handler node .payload) (.argument thread .payload)
    ⟨.argument thread .payload, stream.eofbit, stream.failbit, stream.badbit,
      .argument thread .payload, some stream.buf⟩ (by simp)
    (by rw [← three, pair_elsewhere (by simp) (by simp), ← two, pair_elsewhere (by simp) (by simp),
      ← one, pair_other, payload])
  generalize four : m₃.pair _ _ _ _ = m₄ at fourth
  have payload' : m₄ (.handler node .payload) = ⟨some ⟨descriptor .payload⟩,
      some ⟨.handler node .payload, stream.eofbit, stream.failbit, stream.badbit,
        .argument thread .payload, some stream.buf⟩, none, none⟩ := by
    rw [← four, pair_this (by simp), ← three, pair_elsewhere (by simp) (by simp), ← two,
      pair_elsewhere (by simp) (by simp), ← one, pair_this (by simp), free]
    rfl
  have clientSync' : m₄ (.handler node .clientSync) =
      ⟨some ⟨descriptor .clientSync⟩, none, none, none⟩ := by
    rw [← four, pair_elsewhere (by simp) (by simp), ← three, pair_elsewhere (by simp) (by simp),
      ← two, pair_this (by simp), ← one, pair_elsewhere (by simp) (by simp), free]
    rfl
  have serverSync' : m₄ (.handler node .serverSync) =
      wired (.handler node .serverSync) (.fresh (descriptor .serverSync)) := by
    rw [← four, pair_elsewhere (by simp) (by simp), ← three, pair_this (by simp)]
  simp only [constructClientHandler, first, second, third, fourth, Option.bind_eq_bind,
    Option.bind_some, constructStream, constructExchange, setSocket]
  -- what is left changes the cells of the handler's payload and client-sync connections only
  have apart : Place.handler node .payload ≠ .handler node .clientSync := by simp
  simp only [put_other apart, put_other apart.symm, put_self, payload', clientSync',
    Option.bind_some]
  refine ⟨_, rfl, ?_, ?_, ?_⟩
  · intro role
    cases role with
    | payload =>
      rw [put_self]
      rfl
    | clientSync =>
      rw [put_other apart.symm, put_self]
      rfl
    | serverSync =>
      rw [put_other (by simp), put_other (by simp), put_other (by simp), put_other (by simp),
        serverSync']
      rfl
  · intro role
    rw [put_other (by simp), put_other (by simp), put_other (by simp), put_other (by simp), ← four]
    cases role with
    | payload => rw [pair_other, ← three, pair_elsewhere (by simp) (by simp), ← two,
        pair_elsewhere (by simp) (by simp), ← one, pair_other]
    | clientSync => rw [pair_elsewhere (by simp) (by simp), ← three,
        pair_elsewhere (by simp) (by simp), ← two, pair_other]
    | serverSync => rw [pair_elsewhere (by simp) (by simp), ← three, pair_other]
  · intro p notHandler notArgument
    rw [put_other (notHandler _), put_other (notHandler _), put_other (notHandler _),
      put_other (notHandler _), ← four, pair_elsewhere (notHandler _) (notArgument _), ← three,
      pair_elsewhere (notHandler _) (notArgument _), ← two,
      pair_elsewhere (notHandler _) (notArgument _), ← one,
      pair_elsewhere (notHandler _) (notArgument _)]

end handlers

section talking
variable {s : State U} {p : Place} {c : Connection}

theorem put_put (m : Memory) (a b : Cell) : (m.put p a).put p b = m.put p b :=
  Function.update_idem ..

section
omit [DecidableEq U]

theorem operate_own {stream : DropboxSocketStream.SocketStream} {d : SocketType}
    {exchange : Option FileExchange} {held : Option Nat} (mutex : Option Nat)
    (operation : Operation)
    (there : s.memory p = ⟨some ⟨d⟩,
      some ⟨p, stream.eofbit, stream.failbit, stream.badbit, p, some stream.buf⟩, exchange, held⟩) :
    s.operate mutex p operation = some { s with
      memory := s.memory.put p ⟨some ⟨d⟩, some ⟨p, (operation stream).eofbit,
        (operation stream).failbit, (operation stream).badbit, p, some (operation stream).buf⟩,
        exchange, held⟩,
      talks := s.talks ++ [⟨mutex, d⟩] } := by
  simp only [State.operate, there, Option.bind_eq_bind, Option.bind_some, put_self, put_put]

theorem operate_wired (mutex : Option Nat) (operation : Operation)
    (there : s.memory p = wired p c) :
    s.operate mutex p operation = some { s with
      memory := s.memory.put p (wired p (c.after operation none)),
      talks := s.talks ++ [⟨mutex, c.descriptor⟩] } := operate_own mutex operation there

theorem exchange_wired (mutex : Option Nat) (operation : Operation) (path : Option Path)
    (there : s.memory p = wired p c) :
    s.exchange mutex p operation path = some { s with
      memory := s.memory.put p (wired p (c.after operation path)),
      talks := s.talks ++ [⟨mutex, c.descriptor⟩] } := by
  have operated := operate_wired mutex operation there
  have own : (s.memory p).exchange = some ⟨p, c.path⟩ := by rw [there]; rfl
  simp only [State.exchange, own, Option.bind_eq_bind, Option.bind_some, operated, put_self,
    put_put]
  rfl

theorem syncBackup_wired {mutex : Nat} (operation : Operation) (path : Option Path)
    (there : s.memory p = wired p c) (held : c.mutex = some mutex) :
    s.syncBackup p operation path = some { s with
      memory := s.memory.put p (wired p (c.after operation path)),
      talks := s.talks ++ [⟨c.mutex, c.descriptor⟩] } := by
  have own : (s.memory p).mutex = some mutex := by
    rw [there]
    exact held
  rw [State.syncBackup, own, Option.bind_eq_bind, Option.bind_some, exchange_wired _ _ _ there,
    held]

end

end talking

end DropboxWiring
