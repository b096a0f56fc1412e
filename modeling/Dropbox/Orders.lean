import Dropbox.Client
import Dropbox.ClientHandler
import Dropbox.Dialogue

/-!
What a list of user commands comes to: for each one the exchange on the payload
connection, both stores after it and what both sides log. No result means that a file
is not what the command needs it to be, or that a file-system call fails.
-/
namespace DropboxOrders
open DropboxFileStore DropboxHost DropboxSocketStream DropboxProtocol DropboxDialogue Programs

inductive Order where
  | upload (p : Path)
  | delete (p : Path)
  | download (p : Path)
  | listServer
  | exit
  deriving DecidableEq, Repr

def Order.command : Order → Command
  | upload _ => .kUpload
  | delete _ => .kDelete
  | download _ => .kDownload
  | listServer => .kListServer
  | exit => .kExit

/-- input_path_ -/
def Order.path : Order → Path
  | upload p | delete p | download p => p
  | listServer | exit => []

/-- HandleCommand asks for a path and has none. -/
def Order.lacksPath : Order → Bool
  | upload p | delete p | download p => p = []
  | listServer | exit => false

def entered (orders : List Order) : List (Command × Path) := orders.map fun o => (o.command, o.path)

/-- What one command comes to; there is no exchange when its path is missing. -/
structure Turn where
  exchange : Option Exchange
  client : Fs
  server : Fs
  shown : List Event
  served : List Event

/-- path_ of the client when it sends a path. -/
def destination (user : List Byte) (p : Path) : Path := joinPath (syncDirWithPrefix user) p

def asking (c : Command) (body reply : List Byte) : Exchange where
  request := encodeCommand c ++ body
  reply := reply
  asks := by simp [encodeCommand]

def missing (client server : Fs) : Turn := ⟨none, client, server, [.missingPath], []⟩

def uploadTurn (fuel : Nat) (user : List Byte) (client server : Fs) (p : Path) : Option Turn :=
  let dest := destination user (filename p)
  if p ≠ [] ∧ isRegularFile client p = some true ∧ (genericString dest).length < 2 ^ 63 then
    (readable client p).bind fun content =>
      if content.length < fuel then
        (storeFile server (genericString dest) content).map fun stored =>
          { exchange := some (asking .kUpload (encodePath dest ++ encodeFile content) [])
            client := (copyFile client p dest).getD client
            server := stored
            shown := [.reported (copyFile client p dest).isSome]
            served := [.ordered (some .kUpload), .broadcastUpload (genericString dest)] }
      else none
  else none

/-- What the handler does to its store, and whether it broadcasts. -/
def discard (server : Fs) (p : Path) : Option (Fs × List Event) :=
  (pathExists server p).bind fun present =>
    if present then (remove server p).map fun removed => (removed.2, [.broadcastDelete p])
    else some (server, [])

def deleteTurn (user : List Byte) (client server : Fs) (p : Path) : Option Turn :=
  let dest := destination user (filename p)
  if p = [] then some (missing client server)
  else if (genericString dest).length < 2 ^ 63 then
    (discard server (genericString dest)).map fun discarded =>
      { exchange := some (asking .kDelete (encodePath dest) [])
        client := ((remove client dest).map Prod.snd).getD client
        server := discarded.1
        shown := [.reported (remove client dest).isSome]
        served := .ordered (some .kDelete) :: discarded.2 }
  else none

/-- The reply of the handler and the store of the client after it. -/
def fetch (fuel : Nat) (client server : Fs) (p : Path) (source : Path) :
    Option (List Byte × Fs × Bool) :=
  (pathExists server source).bind fun present =>
    if present then
      (readable server source).bind fun content =>
        if content.length < fuel then
          (storeFile client p content).map fun stored =>
            (encodeCommand .kSuccess ++ encodeFile content, stored, true)
        else none
    else some (encodeCommand .kError, client, false)

def downloadTurn (fuel : Nat) (user : List Byte) (client server : Fs) (p : Path) : Option Turn :=
  let dest := destination user p
  if p = [] then some (missing client server)
  else if (genericString dest).length < 2 ^ 63 then
    (fetch fuel client server p (genericString dest)).map fun fetched =>
      { exchange := some (asking .kDownload (encodePath dest) fetched.1)
        client := fetched.2.1
        server := server
        shown := [.reported fetched.2.2]
        served := [.ordered (some .kDownload)] }
  else none

def listTurn (user : List Byte) (client server : Fs) : Option Turn :=
  (directoryTable server (syncDirWithPrefix user)).bind fun table =>
    if table.length < 2 ^ 63 then
      some { exchange := some (asking .kListServer [] (encodeString table))
             client := client
             server := server
             shown := [.printed table]
             served := [.ordered (some .kListServer)] }
    else none

def exitTurn (client server : Fs) : Turn :=
  ⟨some (asking .kExit [] []), client, server, [.clientSyncExit], [.ordered (some .kExit)]⟩

def Order.turn (fuel : Nat) (user : List Byte) (client server : Fs) : Order → Option Turn
  | upload p => uploadTurn fuel user client server p
  | delete p => deleteTurn user client server p
  | download p => downloadTurn fuel user client server p
  | listServer => listTurn user client server
  | exit => some (exitTurn client server)

/-- What a list of commands comes to; `ended` says whether it came to an exit. -/
structure Script where
  exchanges : List Exchange
  client : Fs
  server : Fs
  shown : List Event
  served : List Event
  ended : Bool

def Turn.followedBy (t : Turn) (s : Script) : Script where
  exchanges := t.exchange.toList ++ s.exchanges
  client := s.client
  server := s.server
  shown := t.shown ++ s.shown
  served := t.served ++ s.served
  ended := s.ended

/-- One command after the other, up to an exit. -/
def script (fuel : Nat) (user : List Byte) : Fs → Fs → List Order → Option Script
  | client, server, [] => some ⟨[], client, server, [], [], false⟩
  | client, server, o :: rest =>
    (o.turn fuel user client server).bind fun t =>
      if o = .exit then some (t.followedBy ⟨[], t.client, t.server, [], [], true⟩)
      else (script fuel user t.client t.server rest).map t.followedBy

/-- The commands that reach the handler. -/
def issued : List Order → List Order
  | [] => []
  | o :: rest => (if o.lacksPath then [] else [o]) ++ if o = .exit then [] else issued rest

def isOrdered : Event → Option Command
  | .ordered c => c
  | _ => none

/-- The commands a handler has printed. -/
def printed (log : List Event) : List Command := log.filterMap isOrdered

variable {fuel : Nat} {user : List Byte} {client server : Fs} {t : Turn} {s : Script} {o : Order}

/-- What a discard logs, if anything. -/
theorem discard_events {p : Path} {discarded : Fs × List Event}
    (discards : discard server p = some discarded) :
    discarded.2 = [] ∨ discarded.2 = [.broadcastDelete p] := by
  obtain ⟨present, _, rest⟩ := Option.bind_eq_some_iff.mp discards
  cases present with
  | false =>
    obtain rfl := Option.some.inj rest
    exact .inl rfl
  | true =>
    obtain ⟨_, _, rfl⟩ := Option.map_eq_some_iff.mp rest
    exact .inr rfl

/-- A command without its path comes to nothing; any other is one exchange, which the handler
    prints once. -/
theorem turn_cases (planned : o.turn fuel user client server = some t) :
    o.lacksPath = true ∧ t = missing client server ∨
      o.lacksPath = false ∧ (∃ e, t.exchange = some e) ∧ printed t.served = [o.command] ∧
        .overUnread ∉ t.shown ∧ .overUnread ∉ t.served := by
  cases o with
  | upload p =>
    simp only [Order.turn, uploadTurn, Option.ite_none_right_eq_some, Option.bind_eq_some_iff,
      Option.map_eq_some_iff] at planned
    obtain ⟨⟨named, _⟩, _, _, _, _, _, rfl⟩ := planned
    exact .inr ⟨decide_eq_false named, ⟨_, rfl⟩, rfl, by simp, by simp⟩
  | delete p =>
    simp only [Order.turn, deleteTurn] at planned
    split at planned
    · rename_i missing_path
      exact .inl ⟨decide_eq_true missing_path, (Option.some.inj planned).symm⟩
    · rename_i named
      simp only [Option.ite_none_right_eq_some, Option.map_eq_some_iff] at planned
      obtain ⟨_, discarded, discards, rfl⟩ := planned
      refine .inr ⟨decide_eq_false named, ⟨_, rfl⟩, ?_, by simp, ?_⟩
      · rcases discard_events discards with none_logged | logged
        · simp [none_logged, printed, isOrdered, Order.command]
        · simp [logged, printed, isOrdered, Order.command]
      · rcases discard_events discards with none_logged | logged
        · simp [none_logged]
        · simp [logged]
  | download p =>
    simp only [Order.turn, downloadTurn] at planned
    split at planned
    · rename_i missing_path
      exact .inl ⟨decide_eq_true missing_path, (Option.some.inj planned).symm⟩
    · rename_i named
      simp only [Option.ite_none_right_eq_some, Option.map_eq_some_iff] at planned
      obtain ⟨_, _, _, rfl⟩ := planned
      exact .inr ⟨decide_eq_false named, ⟨_, rfl⟩, rfl, by simp, by simp⟩
  | listServer =>
    simp only [Order.turn, listTurn, Option.bind_eq_some_iff, Option.ite_none_right_eq_some] at planned
    obtain ⟨_, _, _, same⟩ := planned
    obtain rfl := Option.some.inj same
    exact .inr ⟨rfl, ⟨_, rfl⟩, rfl, by simp, by simp⟩
  | exit =>
    obtain rfl := Option.some.inj planned
    exact .inr ⟨rfl, ⟨_, rfl⟩, rfl, by simp [exitTurn], by simp [exitTurn]⟩

theorem turn_printed (planned : o.turn fuel user client server = some t) :
    printed t.served = (if o.lacksPath then [] else [o]).map Order.command := by
  rcases turn_cases planned with ⟨lacks, rfl⟩ | ⟨has, _, once, _⟩
  · rw [if_pos lacks]
    rfl
  · rw [once, has]
    rfl

theorem turn_silent (planned : o.turn fuel user client server = some t) :
    .overUnread ∉ t.shown ∧ .overUnread ∉ t.served := by
  rcases turn_cases planned with ⟨_, rfl⟩ | ⟨_, _, _, shown, served⟩
  · simp [missing]
  · exact ⟨shown, served⟩

/-- The handler prints the commands that reach it, in their order, and no log tells of a store over
    unread input. -/
theorem script_logs (orders : List Order) (planned : script fuel user client server orders = some s) :
    printed s.served = (issued orders).map Order.command ∧ .overUnread ∉ s.shown ∧
      .overUnread ∉ s.served := by
  induction orders generalizing client server s with
  | nil =>
    obtain rfl := Option.some.inj planned
    exact ⟨rfl, by simp, by simp⟩
  | cons o rest ih =>
    obtain ⟨t, turned, onward⟩ := Option.bind_eq_some_iff.mp planned
    obtain ⟨shown, served⟩ := turn_silent turned
    have now := turn_printed turned
    rw [issued, List.map_append, ← now]
    by_cases last : o = .exit
    · obtain rfl := Option.some.inj ((if_pos last).symm.trans onward)
      rw [if_pos last]
      simp only [Turn.followedBy, List.append_nil, List.map_nil]
      exact ⟨trivial, shown, served⟩
    · obtain ⟨s', onwards, rfl⟩ := Option.map_eq_some_iff.mp ((if_neg last).symm.trans onward)
      obtain ⟨later, shown', served'⟩ := ih onwards
      rw [if_neg last, ← later]
      simp only [Turn.followedBy, List.mem_append, not_or]
      exact ⟨List.filterMap_append, ⟨shown, shown'⟩, served, served'⟩

end DropboxOrders
