import Dropbox.Backup
import Dropbox.Client
import Dropbox.Delivery
import Dropbox.General.Transitions
import Dropbox.HandlerThreads

/-!
The four loops that receive files, an iteration at a time: MainLoop and SyncFromClient
of a client handler, MainLoop of a backup, SyncFromServer of a client. Where a loop
stands in its stream is what is still available to it.
-/
namespace DropboxReceiverFraming
open DropboxFileStore DropboxHost DropboxSocketStream DropboxProtocol DropboxProtocolRules
open DropboxDelivery Programs Transitions Codec

inductive Receiver where
  | payload
  | primary
  | backup
  | client
  deriving DecidableEq, Repr

/-- What a loop does about a command; the result says whether it goes on. -/
def body (fuel : Nat) (username : List Byte) : Receiver → Option Command → Io FileExchange Bool
  | .payload, c => DropboxHandlerThreads.turn fuel username .payload c
  | .primary, c => DropboxHandlerThreads.turn fuel username .clientSync c
  | .backup, some .kUpload => do
    let _ ← receivePath
    let path ← getPath
    let _ ← orThrow (onFiles (.createDirectory (DropboxBackup.firstPart path)))
    let _ ← receive fuel
    pure true
  | .backup, some .kDelete => do
    let _ ← receivePath
    let path ← getPath
    let _ ← orThrow (onFiles (.createDirectory (DropboxBackup.firstPart path)))
    if ← orThrow (onFiles (.pathExists path)) then
      let _ ← orThrow (onFiles (.remove path))
      pure true
    else pure true
  | .client, some .kUpload => do
    let _ ← receivePath
    let _ ← receive fuel
    pure true
  | .client, some .kDelete => do
    let _ ← receivePath
    let path ← getPath
    if ← orThrow (onFiles (.pathExists path)) then
      let _ ← orThrow (onFiles (.remove path))
      pure true
    else pure true
  | _, _ => pure true

/-- An iteration, with the command it carries out; `none` when it gets no command. -/
def iteration (fuel : Nat) (username : List Byte) (r : Receiver) :
    Io FileExchange (Option (Option Command × Bool)) := do
  match ← receiveCommand with
  | .ok c =>
    let receiving ← body fuel username r c
    pure (some (c, receiving))
  | .error _ => pure none

theorem primary_loop (fuel turns : Nat) (username : List Byte) :
    DropboxClientHandler.syncLoop fuel (turns + 1) = iteration fuel username .primary >>= fun _ =>
      DropboxClientHandler.syncLoop fuel turns := by
  rw [DropboxClientHandler.syncLoop, DropboxHandlerThreads.syncTurn_eq fuel username, iteration]
  simp only [Comp.bind_assoc]
  congr 1
  funext r
  cases r with
  | error e => rfl
  | ok c => simp only [Comp.bind_assoc, Comp.pure_bind, body]

theorem backup_loop (fuel turns : Nat) (username : List Byte) :
    DropboxBackup.mainLoop fuel (turns + 1) = receiveCommand >>= fun r =>
      match r with
      | .ok c => body fuel username .backup c >>= fun _ => DropboxBackup.mainLoop fuel turns
      | .error .connectionAborted => pure .kLostConnectionToPrimary
      | .error .fromErrno => DropboxBackup.mainLoop fuel turns := by
  rw [DropboxBackup.mainLoop]
  congr 1
  funext r
  cases r with
  | error e => cases e <;> rfl
  | ok c =>
    obtain _ | c := c
    · rfl
    · cases c with
      | kUpload => simp only [body, Comp.bind_assoc, Comp.pure_bind]
      | kDelete =>
        simp only [body, Comp.bind_assoc]
        congr 1
        funext received
        congr 1
        funext path
        congr 1
        funext made
        congr 1
        funext present
        cases present
        · rfl
        · simp only [if_true, Comp.bind_assoc, Comp.pure_bind]
      | _ => rfl

theorem client_loop (fuel turns : Nat) (username : List Byte) :
    DropboxClient.syncFromServer fuel (turns + 1) = receiveCommand >>= fun r =>
      match r with
      | .ok c => body fuel username .client c >>= fun _ => DropboxClient.syncFromServer fuel turns
      | .error .connectionAborted => note .reconnecting
      | .error .fromErrno => DropboxClient.syncFromServer fuel turns := by
  rw [DropboxClient.syncFromServer]
  congr 1
  funext r
  cases r with
  | error e => cases e <;> rfl
  | ok c =>
    obtain _ | c := c
    · rfl
    · cases c with
      | kUpload => simp only [body, Comp.bind_assoc, Comp.pure_bind]
      | kDelete =>
        simp only [body, Comp.bind_assoc]
        congr 1
        funext received
        congr 1
        funext path
        congr 1
        funext present
        cases present
        · rfl
        · simp only [if_true, Comp.bind_assoc, Comp.pure_bind]
      | _ => rfl

/-- MainLoop on the payload stream is `mainLoop_eq`; `body` is its turn. -/
theorem payload_loop (fuel turns attempts : Nat) (username : List Byte) :
    DropboxClientHandler.mainLoop fuel username (turns + 1) attempts =
      receiveCommand >>= fun r =>
        match r with
        | .ok c => body fuel username .payload c >>= fun receiving =>
            if receiving then
              DropboxClientHandler.mainLoop fuel username turns DropboxClientHandler.kAttemptAmount
            else pure ()
        | .error _ =>
            if attempts - 1 = 0 then pure ()
            else DropboxClientHandler.mainLoop fuel username turns (attempts - 1) :=
  DropboxHandlerThreads.mainLoop_eq fuel turns attempts username

/-- What a peer sends; a command without a path is followed by nothing. -/
inductive Message where
  | upload (p : Path) (content : List Byte)
  | delete (p : Path)
  | download (p : Path)
  | plain (c : Command)
  deriving DecidableEq, Repr

def Message.command : Message → Command
  | .upload _ _ => .kUpload
  | .delete _ => .kDelete
  | .download _ => .kDownload
  | .plain c => c

/-- What follows the command. -/
def Message.rest : Message → List Byte
  | .upload p content => encodeString p ++ encodeFile content
  | .delete p | .download p => encodeString p
  | .plain _ => []

def encodeMessage (m : Message) : List Byte := encodeCommand m.command ++ m.rest

/-- A message of the protocol of a loop, of a size that std::string and off_t have. -/
def Receiver.Expects (r : Receiver) : Message → Prop
  | .upload p content => p.length < 2 ^ 63 ∧ content.length < 2 ^ 63
  | .delete p => p.length < 2 ^ 63
  | .download p => r = .payload ∧ p.length < 2 ^ 63
  | .plain c => c ≠ .kUpload ∧ c ≠ .kDelete ∧ (r = .payload → c ≠ .kDownload)

section reading
variable {b : SocketBuffer} {fe : FileExchange} {m : Machine} {bytes rest : List Byte}

theorem advances_bytes {c : SocketBuffer} {k : Machine} (coming : available b m = bytes ++ rest)
    (moved : Advances bytes.length b c m k) : available c k = rest := by
  rw [moved.next, coming, List.drop_left]

theorem loads_answers (coming : available b m = bytes ++ rest) :
    Comp.ensures (answers host) (loadBinary bytes.length) (fun r c k => r = .ok bytes ∧
      k.world.fs = m.world.fs ∧ available c k = rest ∧ Advances bytes.length b c m k) b m := by
  refine Comp.ensures_mono (loadBinary_answers bytes.length b m) ?_
  rintro r c k ⟨files, ⟨_, rfl, moved⟩ | ⟨short, _⟩⟩
  · rw [coming, List.take_left]
    exact ⟨rfl, files, advances_bytes coming moved, moved⟩
  · rw [coming, List.length_append] at short
    omega

theorem archive_answers (coming : available b m = 1 :: rest) :
    Comp.ensures (answers host) inputArchive (fun r c k => r = .ok false ∧
      k.world.fs = m.world.fs ∧ available c k = rest ∧ Advances 1 b c m k) b m := by
  have flag : available b m = [1] ++ rest := coming
  rw [inputArchive, Comp.ensures_bind]
  refine Comp.ensures_mono (loads_answers flag) ?_
  rintro r c k ⟨rfl, files, left, moved⟩
  exact ⟨rfl, files, left, moved⟩

/-- A command that is all there is taken. -/
theorem receiveCommand_answers {c : Command} (coming : available fe.buf m = encodeCommand c ++ rest) :
    Comp.ensures (answers host) receiveCommand (fun r fe' k => r = .ok (.ok (some c)) ∧
      fe'.stream.good = fe.stream.good ∧ k.world.fs = m.world.fs ∧ available fe'.buf k = rest ∧
      Advances 2 fe.buf fe'.buf m k) fe m := by
  simp only [receiveCommand, ensures_tryCatch, Comp.ensures_bind, ensures_onRdbuf]
  refine Comp.ensures_mono (archive_answers coming) ?_
  rintro r b k ⟨rfl, files, left, moved⟩
  have byte : available b k = [c.toByte] ++ rest := left
  simp only [Comp.either_ok]
  refine Comp.ensures_mono (loads_answers byte) ?_
  rintro r d l ⟨rfl, files', left', moved'⟩
  refine ⟨?_, rfl, files'.trans files, left', advances_trans moved moved'⟩
  simp

theorem word_answers {n : Nat} (fits : n < 2 ^ 64) (coming : available b m = toLittle 8 n ++ rest) :
    Comp.ensures (answers host) (loadWord false) (fun r c k => r = .ok n ∧
      k.world.fs = m.world.fs ∧ available c k = rest ∧ Advances 8 b c m k) b m := by
  have size : (toLittle 8 n).length = 8 := toLittle_length ..
  rw [loadWord, Comp.ensures_bind, ← size]
  refine Comp.ensures_mono (loads_answers coming) ?_
  rintro r c k ⟨rfl, files, left, moved⟩
  exact ⟨congrArg Except.ok (ofLittle_toLittle_of_lt (by simpa using fits)), files, left, moved⟩

/-- A path that is all there becomes path_. -/
theorem receivePath_answers {text : Path} (fits : text.length < 2 ^ 63)
    (coming : available fe.buf m = encodeString text ++ rest) :
    Comp.ensures (answers host) receivePath (fun r fe' k => r = .ok true ∧ fe'.path = text ∧
      fe'.stream.good = fe.stream.good ∧ k.world.fs = m.world.fs ∧ available fe'.buf k = rest ∧
      Advances (encodeString text).length fe.buf fe'.buf m k) fe m := by
  have size : (encodeString text).length = 1 + (8 + text.length) := by
    simp [encodeString, lengthPrefixed, Nat.add_comm]
  simp only [receivePath, setPath, ensures_tryCatch, Comp.ensures_bind, ensures_onRdbuf]
  rw [← Comp.ensures_bind]
  refine Comp.ensures_bind.mpr (Comp.ensures_mono (archive_answers coming) ?_)
  rintro r b k ⟨rfl, files, left, moved⟩
  simp only [Comp.either_ok, loadString, Comp.ensures_bind]
  have word : available b k = toLittle 8 text.length ++ (text ++ rest) := by
    rw [left]
    exact List.append_assoc ..
  refine Comp.ensures_mono (word_answers (by omega) word) ?_
  rintro r c k' ⟨rfl, files', left', moved'⟩
  simp only [Comp.either_ok, if_pos fits]
  refine Comp.ensures_mono (loads_answers left') ?_
  rintro r d l ⟨rfl, files'', left'', moved''⟩
  rw [size]
  exact ⟨rfl, rfl, rfl, (files''.trans files').trans files, left'',
    advances_trans moved (advances_trans moved' moved'')⟩

end reading

/-- The bounds of the get area and the reads to come: a computation that does not read leaves them
    as they are. -/
def getArea (b : SocketBuffer) (m : Machine) : Nat × Nat × List (Option Segment) :=
  (b.gptr, b.egptr, m.inbox)

/-- And the content of the array, which stays if it does not write either. -/
def input (b : SocketBuffer) (m : Machine) : (Nat → Byte) × Nat × Nat × List (Option Segment) :=
  (b.buffer, getArea b m)

def Still {L A : Type} (buf : L → SocketBuffer) (x : Io L A) : Prop :=
  Comp.leaves (answers host) (fun l m => getArea (buf l) m) x

def Idle {L A : Type} (buf : L → SocketBuffer) (x : Io L A) : Prop :=
  Comp.leaves (answers host) (fun l m => input (buf l) m) x

section frames
variable {L A V : Type} {buf : L → SocketBuffer} {view : L → Machine → V}

theorem still_of_idle {x : Io L A} (idle : Idle buf x) : Still buf x := Comp.leaves_mono Prod.snd idle

theorem leaves_tryCatch {x : Io L A} {handler : Fault → Io L A}
    (tried : Comp.leaves (answers host) view x)
    (handled : ∀ f, Comp.leaves (answers host) view (handler f)) :
    Comp.leaves (answers host) view (tryCatch x handler) := by
  refine Comp.leaves_catching tried fun f => ?_
  split
  · exact handled f
  · exact Comp.leaves_throw f

theorem leaves_orThrow {x : Io L (Option A)} (asked : Comp.leaves (answers host) view x) :
    Comp.leaves (answers host) view (orThrow x) := by
  refine Comp.leaves_bind asked fun r => ?_
  cases r with
  | none => exact Comp.leaves_throw _
  | some a => exact Comp.leaves_pure a

/-- A call that is not a read. -/
theorem idle_call {c : Sys} (other : ∀ m, (host m c).2.inbox = m.inbox) :
    Idle buf (Comp.call c : Io L c.Reply) := by
  refine Comp.leaves_call (fun _ => trivial) fun l m r k reply => ?_
  obtain rfl : (host m c).2 = k := congrArg Prod.snd reply
  rw [input, getArea, other]
  rfl

theorem idle_onFiles (c : FileCall) : Idle buf (onFiles c : Io L c.Reply) := idle_call fun _ => rfl

theorem idle_note (e : Event) : Idle buf (note e : Io L Unit) := idle_call fun _ => rfl

theorem idle_broadcast (e : Event) : Idle buf (broadcast e : Io L Bool) := idle_call fun _ => rfl

theorem idle_getPath : Idle FileExchange.buf getPath :=
  Comp.leaves_bind Comp.leaves_get fun _ => Comp.leaves_pure _

theorem idle_sync : Idle id sync := by
  intro b m
  refine Comp.ensures_mono (sync_answers b m) ?_
  rintro r c k ⟨_, get, finish, same, inbox, _⟩
  show (c.buffer, c.gptr, c.egptr, k.inbox) = (b.buffer, b.gptr, b.egptr, m.inbox)
  rw [get, finish, same, inbox]

theorem leaves_rdbuf {view : SocketBuffer → Machine → V} {x : Io SocketBuffer A}
    (inner : Comp.leaves (answers host) view x) :
    Comp.leaves (answers host) (fun s m => view (SocketStream.buf s) m) (rdbuf x) :=
  Comp.leaves_zoom (fun _ _ => rfl) inner

theorem leaves_onStream {v : SocketStream → Machine → V} {x : Io SocketStream A}
    (inner : Comp.leaves (answers host) v x) :
    Comp.leaves (answers host) (fun fe m => v (FileExchange.stream fe) m) (onStream x) :=
  Comp.leaves_zoom (fun _ _ => rfl) inner

theorem idle_flush : Idle FileExchange.buf flushExchange := by
  refine leaves_onStream (v := fun s m => input s.buf m) ?_
  refine Comp.leaves_bind Comp.leaves_get fun s => ?_
  split
  · refine Comp.leaves_bind (leaves_rdbuf idle_sync) fun sent => ?_
    split
    · exact Comp.leaves_pure _
    · exact Comp.leaves_modify fun _ _ => rfl
  · exact Comp.leaves_pure _

theorem still_store (ch : Byte) : Still id (store ch) := by
  refine Comp.leaves_bind Comp.leaves_get fun b => ?_
  split
  · exact Comp.leaves_bind (still_of_idle (idle_note _)) fun _ => Comp.leaves_modify fun _ _ => rfl
  · exact Comp.leaves_modify fun _ _ => rfl

theorem still_sputc (ch : Byte) : Still id (sputc ch) := by
  refine Comp.leaves_bind Comp.leaves_get fun b => ?_
  split
  · exact Comp.leaves_bind (still_store ch) fun _ => Comp.leaves_pure _
  · refine Comp.leaves_bind ?_ fun r => Comp.leaves_pure _
    refine Comp.leaves_bind (still_store ch) fun _ => ?_
    refine Comp.leaves_bind (still_of_idle idle_sync) fun sent => ?_
    split
    · exact Comp.leaves_pure _
    · exact Comp.leaves_pure _

theorem still_xsputc (ch : Byte) : Still id (xsputc ch) := by
  refine Comp.leaves_bind Comp.leaves_get fun b => ?_
  split
  · exact Comp.leaves_bind (still_of_idle (idle_note _)) fun _ => still_sputc ch
  · exact still_sputc ch

theorem still_xsputn (bytes : List Byte) : Still id (xsputn bytes) := by
  induction bytes with
  | nil => exact Comp.leaves_pure _
  | cons ch rest ih =>
    refine Comp.leaves_bind (still_xsputc ch) fun stored => ?_
    split
    · exact Comp.leaves_bind ih fun n => Comp.leaves_pure _
    · exact Comp.leaves_pure _

theorem still_saveBinary (bytes : List Byte) : Still id (saveBinary bytes) := by
  refine Comp.leaves_bind (still_xsputn bytes) fun n => ?_
  split
  · exact Comp.leaves_pure _
  · exact Comp.leaves_throw _

theorem still_onRdbuf {x : Io SocketBuffer A} (inner : Still id x) :
    Still FileExchange.buf (onRdbuf x) := leaves_onStream (leaves_rdbuf inner)

theorem still_sendCommand (c : Command) : Still FileExchange.buf (sendCommand c) := by
  refine leaves_tryCatch ?_ fun f => Comp.leaves_throw _
  exact still_onRdbuf (Comp.leaves_bind (still_saveBinary [1]) fun _ => still_saveBinary _)

theorem still_write (bytes : List Byte) : Still FileExchange.buf (onStream (write bytes)) := by
  refine leaves_onStream (v := fun s m => getArea s.buf m) ?_
  refine Comp.leaves_bind Comp.leaves_get fun s => ?_
  split
  · refine Comp.leaves_bind (leaves_rdbuf (still_xsputn bytes)) fun n => ?_
    split
    · exact Comp.leaves_pure _
    · exact Comp.leaves_modify fun _ _ => rfl
  · exact Comp.leaves_pure _

theorem still_sendLoop (p : Path) (fuel pos : Nat) : Still FileExchange.buf (sendLoop p fuel pos) := by
  induction fuel generalizing pos with
  | zero => exact Comp.leaves_throw _
  | succ fuel ih =>
    refine Comp.leaves_bind (still_of_idle (idle_onFiles _)) fun got => ?_
    cases got with
    | none => exact Comp.leaves_bind (still_write []) fun _ => ih pos
    | some bytes =>
      refine Comp.leaves_bind (still_write bytes) fun _ => ?_
      split
      · exact Comp.leaves_pure _
      · exact ih _

theorem still_send (fuel : Nat) : Still FileExchange.buf (send fuel) := by
  refine Comp.leaves_bind (still_of_idle idle_getPath) fun path => ?_
  refine Comp.leaves_bind (still_of_idle (idle_onFiles _)) fun opens => ?_
  split
  · refine leaves_tryCatch ?_ fun f => Comp.leaves_pure _
    refine Comp.leaves_bind (leaves_orThrow (still_of_idle (idle_onFiles _))) fun size => ?_
    refine Comp.leaves_bind (still_onRdbuf ?_) fun _ => ?_
    · exact Comp.leaves_bind (still_saveBinary [1]) fun _ => still_saveBinary _
    · exact Comp.leaves_bind (still_sendLoop path fuel 0) fun _ => Comp.leaves_pure _
  · exact Comp.leaves_pure _

end frames

theorem advances_of_input {b c : SocketBuffer} {m k : Machine} (same : input c k = input b m) :
    Advances 0 b c m k := by
  obtain ⟨content, area⟩ := Prod.mk.inj same
  obtain ⟨get, area⟩ := Prod.mk.inj area
  obtain ⟨finish, inbox⟩ := Prod.mk.inj area
  exact advances_of_same get finish content inbox

/-- Where nothing is unread, writing leaves all that is available. -/
theorem available_of_area {b c : SocketBuffer} {m k : Machine} (same : getArea c k = getArea b m)
    (exhausted : b.unread = []) : available c k = available b m := by
  obtain ⟨get, area⟩ := Prod.mk.inj same
  obtain ⟨finish, inbox⟩ := Prod.mk.inj area
  have none : c.unread = [] := by
    rw [← List.length_eq_zero_iff, SocketBuffer.unread, window_length] at exhausted ⊢
    rw [get, finish]
    exact exhausted
  rw [available, available, none, exhausted, inbox]

theorem unread_of_endsSegment {b : SocketBuffer} {m : Machine} (ends : EndsSegment 0 b m) :
    b.unread = [] := by
  obtain ⟨whole, rest, _, size⟩ := ends
  exact List.eq_nil_of_length_eq_zero (by omega)

/-- What a loop makes of the file system before it handles a path. -/
def Receiver.enter : Receiver → Fs → Path → Option Fs
  | .backup, fs, p => (createDirectory fs (DropboxBackup.firstPart p)).map Prod.snd
  | _, fs, _ => some fs

/-- The destination of an upload is opened, or an exception keeps the loop from going on. -/
def Opens (r : Receiver) (fs : Fs) : Message → Prop
  | .upload p _ => ∀ entered, r.enter fs p = some entered →
      ∀ after, openDestination entered p ≠ some (false, after)
  | _ => True

/-- A request to which the loop replies comes with the last bytes of a segment. -/
def Clear (r : Receiver) (fe : FileExchange) (k : Machine) (m : Message) : Prop :=
  r = .payload → m.command = .kDownload ∨ m.command = .kListServer →
    EndsSegment (encodeMessage m).length fe.buf k

/-- A turn has taken its message, if the loop goes on; or it has left a file on the stream. -/
def Turned (opens : Prop) (rest : List Byte) (r : Except Fault Bool) (fe : FileExchange)
    (k : Machine) : Prop :=
  opens ∧ (∀ receiving, r = .ok receiving → available fe.buf k = rest) ∨
    ¬ opens ∧ r = .ok true ∧ available fe.buf k ≠ rest

theorem turned_of_error {opens : Prop} {rest : List Byte} {f : Fault} (fe : FileExchange)
    (k : Machine) (holds : opens) : Turned opens rest (.error f) fe k :=
  .inl ⟨holds, fun receiving same => by cases same⟩

-- From here on the rules alone take a computation apart.
attribute [local irreducible] Comp.ensures

section turns
variable {fe : FileExchange} {m : Machine} {p : Path} {content rest : List Byte} {fuel : Nat}

theorem announced_file (fits : content.length < 2 ^ 63) (rest : List Byte) :
    announced (encodeFile content ++ rest) = content.length := by
  have size : (toLittle 8 content.length).length = 8 := toLittle_length ..
  have word : ((encodeFile content ++ rest).drop 1).take 8 = toLittle 8 content.length := by
    show (toLittle 8 content.length ++ content ++ rest).take 8 = _
    rw [List.append_assoc, List.take_left' size]
  have flag : (encodeFile content ++ rest).take 1 = [1] := rfl
  have value : ofLittle (toLittle 8 content.length) = content.length :=
    ofLittle_toLittle_of_lt (by simp; omega)
  rw [announced, flag, word]
  simp only [bne_self_eq_false, Bool.false_eq_true, if_false, value]
  exact if_pos fits

/-- A file that is received, or stays on the stream when it cannot be opened. On a good stream
    only an exception of the file system keeps the loop from going on. -/
theorem receive_turned {tail : Bool → Io FileExchange Bool}
    (idle : ∀ done, Idle FileExchange.buf (tail done))
    (goes : ∀ done l k, Comp.ensures (answers host) (tail done) (fun r _ _ => r = .ok true) l k)
    (fits : content.length < 2 ^ 63) (coming : available fe.buf m = encodeFile content ++ rest) :
    Comp.ensures (answers host) (receive fuel >>= tail) (fun r fe' k =>
      Turned (∀ after, openDestination m.world.fs fe.path ≠ some (false, after)) rest r fe' k ∧
      (fe.stream.good → content.length < fuel → openDestination m.world.fs fe.path ≠ none →
        r = .ok true)) fe m := by
  have size : (encodeFile content ++ rest).length = 9 + content.length + rest.length := by
    simp [encodeFile, lengthPrefixed]
    omega
  have amount : announced (available fe.buf m) = content.length := by
    rw [coming, announced_file fits]
  rw [Comp.ensures_bind]
  refine Comp.ensures_mono (receive_answers fuel fe m) ?_
  rintro r fe' k received
  cases received with
  | refused refused =>
    refine ⟨turned_of_error fe' k fun after closed => ?_,
      fun _ _ reached => absurd refused reached⟩
    rw [refused] at closed
    cases closed
  | closed closed stays =>
    have left : available fe'.buf k = encodeFile content ++ rest := by
      rw [stays.next, coming]
      rfl
    have same := Comp.ensures_answers.mp (idle false fe' k)
    have returned := Comp.ensures_answers.mp (goes false fe' k)
    rw [Comp.either_ok, Comp.ensures_answers]
    refine ⟨.inr ⟨fun all => all _ closed, returned, ?_⟩, fun _ _ _ => returned⟩
    rw [(advances_of_input same).next, left]
    intro shorter
    have lengths := congrArg List.length shorter
    rw [List.drop_zero, size] at lengths
    omega
  | headless opens short =>
    rw [coming, size] at short
    omega
  | whole opens arrives taken =>
    have whole : 9 + (announced (available fe.buf m)).toNat = (encodeFile content).length := by
      rw [amount]
      simp [encodeFile, lengthPrefixed]
      omega
    rw [whole] at taken
    have left : available fe'.buf k = rest := advances_bytes coming taken
    have same := Comp.ensures_answers.mp (idle true fe' k)
    have returned := Comp.ensures_answers.mp (goes true fe' k)
    rw [Comp.either_ok, Comp.ensures_answers]
    refine ⟨.inl ⟨fun after closed => ?_, ?_⟩, fun _ _ _ => returned⟩
    · rw [opens] at closed
      cases closed
    · intro receiving _
      rw [(advances_of_input same).next, left]
      rfl
  | hangs opens header lacks =>
    refine ⟨turned_of_error fe' k fun after closed => ?_, fun good enough _ => ?_⟩
    · rw [opens] at closed
      cases closed
    · have arrives : Arrives fe m := by
        rw [Arrives, amount, coming, size]
        by_cases none : content.length = 0
        · exact .inl (by omega)
        · exact .inr ⟨good, by omega, by omega⟩
      have exhausted := lacks arrives
      rw [amount] at exhausted
      omega

/-- What does not read leaves what comes next. -/
theorem idle_turned {x : Io FileExchange Bool} (idle : Idle FileExchange.buf x)
    (coming : available fe.buf m = rest) :
    Comp.ensures (answers host) x (Turned True rest) fe m := by
  refine Comp.ensures_mono (idle fe m) fun r fe' k same => .inl ⟨trivial, fun _ _ => ?_⟩
  rw [(advances_of_input same).next, coming]
  rfl

/-- Nor does what writes where nothing is unread. -/
theorem still_turned {x : Io FileExchange Bool} (still : Still FileExchange.buf x)
    (exhausted : fe.buf.unread = []) (coming : available fe.buf m = rest) :
    Comp.ensures (answers host) x (Turned True rest) fe m := by
  refine Comp.ensures_mono (still fe m) fun r fe' k same => .inl ⟨trivial, fun _ _ => ?_⟩
  rw [available_of_area same exhausted, coming]

theorem path_turned {tail : Bool → Io FileExchange Bool}
    (idle : ∀ received, Idle FileExchange.buf (tail received)) (fits : p.length < 2 ^ 63)
    (coming : available fe.buf m = encodeString p ++ rest) :
    Comp.ensures (answers host) (receivePath >>= tail) (Turned True rest) fe m := by
  rw [Comp.ensures_bind]
  refine Comp.ensures_mono (receivePath_answers fits coming) ?_
  rintro r fe' k ⟨rfl, _, _, _, left, _⟩
  rw [Comp.either_ok]
  exact idle_turned (idle true) left

/-- A reply, where the path of its request was the last that had come. -/
theorem reply_turned {tail : Bool → Io FileExchange Bool}
    (still : ∀ received, Still FileExchange.buf (tail received)) (fits : p.length < 2 ^ 63)
    (coming : available fe.buf m = encodeString p ++ rest)
    (last : EndsSegment (encodeString p).length fe.buf m) :
    Comp.ensures (answers host) (receivePath >>= tail) (Turned True rest) fe m := by
  rw [Comp.ensures_bind]
  refine Comp.ensures_mono (receivePath_answers fits coming) ?_
  rintro r fe' k ⟨rfl, _, _, _, left, moved⟩
  have exhausted := unread_of_endsSegment (moved.segment 0 (by rwa [Nat.zero_add]))
  rw [Comp.either_ok]
  exact still_turned (still true) exhausted left

theorem flush_answers (fe : FileExchange) (m : Machine) :
    Comp.ensures (answers host) flushExchange (fun r _ _ => r = .ok ()) fe m := by
  simp only [flushExchange, ensures_onStream, flush, Comp.ensures_bind, Comp.ensures_get,
    Comp.either_ok]
  cases fe.stream.good with
  | false => exact Comp.ensures_pure.mpr rfl
  | true =>
    rw [if_pos rfl, Comp.ensures_bind, ensures_rdbuf]
    refine Comp.ensures_mono (sync_answers fe.stream.buf m) ?_
    rintro r c k ⟨⟨sent, rfl⟩, _⟩
    cases sent with
    | false => exact Comp.ensures_modify.mpr rfl
    | true => exact Comp.ensures_pure.mpr rfl

/-- The end of a turn of MainLoop. -/
theorem idle_turn_end (b : Bool) : Idle FileExchange.buf (do flushExchange; pure b) :=
  Comp.leaves_bind idle_flush fun _ => Comp.leaves_pure b

theorem turn_end_answers (b : Bool) (fe : FileExchange) (m : Machine) :
    Comp.ensures (answers host) (do flushExchange; pure b) (fun r _ _ => r = .ok b) fe m := by
  rw [Comp.ensures_bind]
  refine Comp.ensures_mono (flush_answers fe m) ?_
  rintro r _ _ rfl
  exact Comp.ensures_pure.mpr rfl

/-- Only a backup does something to the store before it receives. -/
theorem opens_upload {r : Receiver} (other : r ≠ .backup) (fs : Fs) :
    Opens r fs (.upload p content) = ∀ after, openDestination fs p ≠ some (false, after) := by
  cases r with
  | backup => exact absurd rfl other
  | _ => simp [Opens, Receiver.enter]

/-- What is printed first does not matter. -/
theorem note_ensures {e : Event} {x : Io FileExchange Bool}
    {Q : Except Fault Bool → FileExchange → Machine → Prop}
    (meets : ∀ k, k.world.fs = m.world.fs → k.inbox = m.inbox →
      Comp.ensures (answers host) x Q fe k) :
    Comp.ensures (answers host) (do note e; x) Q fe m := by
  rw [Comp.ensures_bind, note, Comp.ensures_call_answers]
  exact meets (m.note e) rfl rfl

theorem available_inbox {k : Machine} (b : SocketBuffer) (inbox : k.inbox = m.inbox) :
    available b k = available b m := by rw [available, available, inbox]

theorem payload_named {c : Option Command} (username : List Byte)
    (names : DropboxHandlerThreads.namesPath .payload c = true) :
    body fuel username .payload c = (do
      note (.ordered c)
      receivePath >>= DropboxHandlerThreads.afterPath fuel .payload c) := by
  rw [body, DropboxHandlerThreads.turn, if_pos names, DropboxHandlerThreads.naming,
    Comp.bind_assoc]

/-- The broadcasts of SyncFromClient. -/
theorem idle_announce (e : Path → Event) : Idle FileExchange.buf (do
    let path ← getPath
    let _ ← broadcast (e path)
    pure true) :=
  Comp.leaves_bind idle_getPath fun _ =>
    Comp.leaves_bind (idle_broadcast _) fun _ => Comp.leaves_pure true

theorem announce_answers (e : Path → Event) (fe : FileExchange) (m : Machine) :
    Comp.ensures (answers host) (do
      let path ← getPath
      let _ ← broadcast (e path)
      pure true) (fun r _ _ => r = .ok true) fe m := by
  simp only [getPath, broadcast, Comp.ensures_bind, Comp.ensures_get, Comp.either_ok,
    Comp.ensures_pure, Comp.ensures_call_answers]

/-- The way to the content of an upload throws nothing. -/
def Receiver.Reaches (r : Receiver) (fs : Fs) (p : Path) : Prop :=
  ∃ entered, r.enter fs p = some entered ∧ openDestination entered p ≠ none

theorem reaches_destination {r : Receiver} {fs : Fs} (other : r ≠ .backup)
    (reached : r.Reaches fs p) : openDestination fs p ≠ none := by
  obtain ⟨entered, same, reached⟩ := reached
  cases r with
  | backup => exact absurd rfl other
  | _ => exact Option.some.inj same ▸ reached

/-- Where nothing is done to the store first. -/
theorem upload_turned {r : Receiver} (other : r ≠ .backup) {tail : Bool → Io FileExchange Bool}
    (idle : ∀ done, Idle FileExchange.buf (tail done))
    (goes : ∀ done l k, Comp.ensures (answers host) (tail done) (fun r _ _ => r = .ok true) l k)
    (fits : content.length < 2 ^ 63) (coming : available fe.buf m = encodeFile content ++ rest) :
    Comp.ensures (answers host) (receive fuel >>= tail) (fun done fe' k =>
      Turned (Opens r m.world.fs (.upload fe.path content)) rest done fe' k ∧
      (fe.stream.good → content.length < fuel → r.Reaches m.world.fs fe.path →
        done = .ok true)) fe m := by
  rw [opens_upload other]
  refine Comp.ensures_mono (receive_turned idle goes fits coming) ?_
  rintro done fe' k ⟨turned, sure⟩
  exact ⟨turned, fun good enough reached => sure good enough (reaches_destination other reached)⟩

/-- MainLoop of a backup makes a directory first. -/
theorem entered_turned (fits : content.length < 2 ^ 63)
    (coming : available fe.buf m = encodeFile content ++ rest) :
    Comp.ensures (answers host) (do
      let path ← getPath
      let _ ← orThrow (onFiles (.createDirectory (DropboxBackup.firstPart path)))
      let _ ← receive fuel
      pure true) (fun done fe' k =>
      Turned (Opens .backup m.world.fs (.upload fe.path content)) rest done fe' k ∧
      (fe.stream.good → content.length < fuel → Receiver.backup.Reaches m.world.fs fe.path →
        done = .ok true)) fe m := by
  simp only [getPath, orThrow, onFiles, Comp.ensures_bind, Comp.ensures_get, Comp.either_ok,
    Comp.ensures_pure, Comp.ensures_call_answers]
  simp only [host, fileCall]
  cases made : createDirectory m.world.fs (DropboxBackup.firstPart fe.path) with
  | none =>
    have never : Receiver.backup.enter m.world.fs fe.path = none := by
      rw [Receiver.enter, made]
      rfl
    simp only [orSame, Comp.ensures_throw, Comp.either_error]
    refine ⟨turned_of_error _ _ fun entered same => ?_, fun _ _ reached => ?_⟩
    · rw [never] at same
      cases same
    · obtain ⟨entered, same, _⟩ := reached
      rw [never] at same
      cases same
  | some created =>
    obtain ⟨new, entered⟩ := created
    have enters : Receiver.backup.enter m.world.fs fe.path = some entered := by
      rw [Receiver.enter, made]
      rfl
    have opens : Opens .backup m.world.fs (.upload fe.path content) =
        ∀ after, openDestination entered fe.path ≠ some (false, after) := by
      simp [Opens, enters]
    rw [opens]
    simp only [orSame, Comp.ensures_pure, Comp.either_ok]
    refine Comp.ensures_mono (receive_turned (m := withFiles entered m)
      (fun _ => Comp.leaves_pure true) (fun _ _ _ => Comp.ensures_pure.mpr rfl) fits coming) ?_
    rintro done fe' k ⟨turned, sure⟩
    refine ⟨turned, fun good enough reached => sure good enough ?_⟩
    obtain ⟨other, same, reached⟩ := reached
    obtain rfl : entered = other := Option.some.inj (enters.symm.trans same)
    exact reached

theorem body_upload (username : List Byte) (r : Receiver) (named : p.length < 2 ^ 63)
    (fits : content.length < 2 ^ 63)
    (coming : available fe.buf m = encodeString p ++ (encodeFile content ++ rest)) :
    Comp.ensures (answers host) (body fuel username r (some .kUpload)) (fun done fe' k =>
      Turned (Opens r m.world.fs (.upload p content)) rest done fe' k ∧
      (fe.stream.good → content.length < fuel → r.Reaches m.world.fs p → done = .ok true)) fe m := by
  cases r with
  | payload =>
    rw [payload_named username rfl]
    refine note_ensures fun k files inbox => ?_
    rw [← available_inbox fe.buf inbox] at coming
    rw [Comp.ensures_bind, ← files]
    refine Comp.ensures_mono (receivePath_answers named coming) ?_
    rintro _ fe' l ⟨rfl, rfl, good, files', left, _⟩
    rw [Comp.either_ok, DropboxHandlerThreads.afterPath, DropboxHandlerThreads.handle,
      Comp.bind_assoc, ← files', ← good]
    refine upload_turned (by decide) (fun done => ?_) (fun done _ _ => ?_) fits left
    · cases done with
      | false => exact idle_turn_end true
      | true =>
        refine Comp.leaves_bind ?_ fun _ => idle_turn_end true
        exact Comp.leaves_bind idle_getPath fun _ => idle_broadcast _
    · cases done with
      | false => exact turn_end_answers true _ _
      | true =>
        rw [if_pos rfl, Comp.ensures_bind]
        simp only [getPath, broadcast, Comp.ensures_bind, Comp.ensures_get, Comp.either_ok,
          Comp.ensures_pure, Comp.ensures_call_answers]
        exact Comp.ensures_bind.mp (turn_end_answers true _ _)
  | primary =>
    show Comp.ensures (answers host) (receivePath >>= fun _ => receive fuel >>= fun _ => do
      let path ← getPath
      let _ ← broadcast (.broadcastUpload path)
      pure true) _ fe m
    rw [Comp.ensures_bind]
    refine Comp.ensures_mono (receivePath_answers named coming) ?_
    rintro _ fe' k ⟨rfl, rfl, good, files, left, _⟩
    rw [Comp.either_ok, ← files, ← good]
    exact upload_turned (by decide) (fun _ => idle_announce _) (fun _ => announce_answers _)
      fits left
  | backup =>
    rw [body, Comp.ensures_bind]
    refine Comp.ensures_mono (receivePath_answers named coming) ?_
    rintro _ fe' k ⟨rfl, rfl, good, files, left, _⟩
    rw [Comp.either_ok, ← files, ← good]
    exact entered_turned fits left
  | client =>
    rw [body, Comp.ensures_bind]
    refine Comp.ensures_mono (receivePath_answers named coming) ?_
    rintro _ fe' k ⟨rfl, rfl, good, files, left, _⟩
    rw [Comp.either_ok, ← files, ← good]
    exact upload_turned (by decide) (fun _ => Comp.leaves_pure true)
      (fun _ _ _ => Comp.ensures_pure.mpr rfl) fits left

theorem idle_remove (p : Path) (e : Event) : Idle FileExchange.buf (do
    let _ ← orThrow (onFiles (.remove p))
    broadcast e) :=
  Comp.leaves_bind (leaves_orThrow (idle_onFiles _)) fun _ => idle_broadcast e

theorem idle_removed (p : Path) : Idle FileExchange.buf (do
    if ← orThrow (onFiles (.pathExists p)) then
      let _ ← orThrow (onFiles (.remove p))
      pure true
    else pure true) := by
  refine Comp.leaves_bind (leaves_orThrow (idle_onFiles _)) fun present => ?_
  split
  · exact Comp.leaves_bind (leaves_orThrow (idle_onFiles _)) fun _ => Comp.leaves_pure true
  · exact Comp.leaves_pure true

theorem body_delete (username : List Byte) (r : Receiver) (named : p.length < 2 ^ 63)
    (coming : available fe.buf m = encodeString p ++ rest) :
    Comp.ensures (answers host) (body fuel username r (some .kDelete)) (Turned True rest) fe m := by
  cases r with
  | payload =>
    rw [payload_named username rfl]
    refine note_ensures fun k files inbox => ?_
    rw [← available_inbox fe.buf inbox] at coming
    refine path_turned (fun received => ?_) named coming
    refine Comp.leaves_bind ?_ fun _ => idle_turn_end true
    cases received with
    | false => exact Comp.leaves_pure false
    | true =>
      refine Comp.leaves_bind idle_getPath fun path => ?_
      refine Comp.leaves_bind (leaves_orThrow (idle_onFiles _)) fun present => ?_
      split
      · exact idle_remove path _
      · exact Comp.leaves_pure false
  | primary =>
    refine path_turned (fun received => ?_) named coming
    refine Comp.leaves_bind idle_getPath fun path => ?_
    refine Comp.leaves_bind (leaves_orThrow (idle_onFiles _)) fun _ => ?_
    exact Comp.leaves_bind (idle_broadcast _) fun _ => Comp.leaves_pure true
  | backup =>
    refine path_turned (fun received => ?_) named coming
    refine Comp.leaves_bind idle_getPath fun path => ?_
    refine Comp.leaves_bind (leaves_orThrow (idle_onFiles _)) fun _ => ?_
    exact idle_removed path
  | client =>
    refine path_turned (fun received => ?_) named coming
    exact Comp.leaves_bind idle_getPath fun path => idle_removed path

/-- Download reads its path and replies. -/
theorem body_download (username : List Byte) (named : p.length < 2 ^ 63)
    (coming : available fe.buf m = encodeString p ++ rest)
    (last : EndsSegment (encodeString p).length fe.buf m) :
    Comp.ensures (answers host) (body fuel username .payload (some .kDownload))
      (Turned True rest) fe m := by
  rw [payload_named username rfl]
  refine note_ensures fun k files inbox => ?_
  rw [← available_inbox fe.buf inbox] at coming
  have ends : EndsSegment (encodeString p).length fe.buf k := by
    rw [EndsSegment, inbox]
    exact last
  refine reply_turned (fun received => ?_) named coming ends
  refine Comp.leaves_bind ?_ fun _ => still_of_idle (idle_turn_end true)
  cases received with
  | false => exact Comp.leaves_pure false
  | true =>
    refine Comp.leaves_bind (still_of_idle idle_getPath) fun path => ?_
    refine Comp.leaves_bind (leaves_orThrow (still_of_idle (idle_onFiles _))) fun present => ?_
    split
    · exact Comp.leaves_bind (still_sendCommand _) fun _ => still_send fuel
    · exact Comp.leaves_bind (still_sendCommand _) fun _ => Comp.leaves_pure false

theorem still_listServer (username : List Byte) :
    Still FileExchange.buf (DropboxClientHandler.listServer username) := by
  refine leaves_tryCatch ?_ fun f => Comp.leaves_throw _
  refine Comp.leaves_bind (leaves_orThrow (still_of_idle (idle_onFiles _))) fun table => ?_
  refine leaves_tryCatch ?_ fun f => Comp.leaves_pure false
  refine Comp.leaves_bind (still_onRdbuf ?_) fun _ => Comp.leaves_pure true
  refine Comp.leaves_bind (still_saveBinary [1]) fun _ => ?_
  exact Comp.leaves_bind (still_saveBinary _) fun _ => still_saveBinary table

theorem idle_serve (username : List Byte) {c : Command} (uploads : c ≠ .kUpload)
    (downloads : c ≠ .kDownload) (deletes : c ≠ .kDelete) (lists : c ≠ .kListServer) :
    Idle FileExchange.buf (DropboxClientHandler.serve fuel username (some c)) := by
  cases c with
  | kUpload => exact absurd rfl uploads
  | kDownload => exact absurd rfl downloads
  | kDelete => exact absurd rfl deletes
  | kListServer => exact absurd rfl lists
  | _ => exact Comp.leaves_pure _

theorem body_plain (username : List Byte) (r : Receiver) {c : Command}
    (expected : r.Expects (.plain c)) (coming : available fe.buf m = rest)
    (last : r = .payload → c = .kListServer → fe.buf.unread = []) :
    Comp.ensures (answers host) (body fuel username r (some c)) (Turned True rest) fe m := by
  obtain ⟨uploads, deletes, downloads⟩ := expected
  cases r with
  | payload =>
    have pathless : DropboxHandlerThreads.namesPath .payload (some c) = false := by
      cases c with
      | kUpload => exact absurd rfl uploads
      | kDelete => exact absurd rfl deletes
      | kDownload => exact absurd rfl (downloads rfl)
      | _ => rfl
    rw [body, DropboxHandlerThreads.turn, pathless]
    refine note_ensures fun k _ inbox => ?_
    rw [← available_inbox fe.buf inbox] at coming
    by_cases lists : c = .kListServer
    · refine still_turned (Comp.leaves_bind ?_ fun _ => still_of_idle (idle_turn_end _))
        (last rfl lists) coming
      rw [lists]
      exact Comp.leaves_bind (still_listServer username) fun _ => Comp.leaves_pure true
    · exact idle_turned (Comp.leaves_bind
        (idle_serve username uploads (downloads rfl) deletes lists) fun _ => idle_turn_end _) coming
  | _ =>
    cases c with
    | kUpload => exact absurd rfl uploads
    | kDelete => exact absurd rfl deletes
    | _ => exact idle_turned (Comp.leaves_pure true) coming

theorem iteration_ensures {username : List Byte} {r : Receiver} {message : Message}
    {Q : Except Fault Bool → FileExchange → Machine → Prop}
    (coming : available fe.buf m = encodeMessage message ++ rest)
    (meets : ∀ fe' k, fe'.stream.good = fe.stream.good → k.world.fs = m.world.fs →
      available fe'.buf k = message.rest ++ rest → Advances 2 fe.buf fe'.buf m k →
      Comp.ensures (answers host) (body fuel username r (some message.command)) Q fe' k) :
    Comp.ensures (answers host) (iteration fuel username r) (fun result fe' k =>
      ∃ done, result = done.map (fun goes => some (some message.command, goes)) ∧ Q done fe' k)
      fe m := by
  rw [encodeMessage, List.append_assoc] at coming
  rw [iteration, Comp.ensures_bind]
  refine Comp.ensures_mono (receiveCommand_answers coming) ?_
  rintro _ fe' k ⟨rfl, good, files, left, moved⟩
  simp only [Comp.either_ok, Comp.ensures_bind]
  refine Comp.ensures_mono (meets fe' k good files left moved) fun done fe'' l met => ?_
  cases done with
  | ok goes => exact Comp.ensures_pure.mpr ⟨.ok goes, rfl, met⟩
  | error f => exact ⟨.error f, rfl, met⟩

/-- An iteration carries out the command of its message. -/
theorem iteration_turned (fuel : Nat) (username : List Byte) {r : Receiver} {message : Message}
    (expected : r.Expects message) (clear : Clear r fe m message)
    (coming : available fe.buf m = encodeMessage message ++ rest) :
    Comp.ensures (answers host) (iteration fuel username r) (fun result fe' k =>
      ∃ done, result = done.map (fun goes => some (some message.command, goes)) ∧
        Turned (Opens r m.world.fs message) rest done fe' k) fe m := by
  refine iteration_ensures coming fun fe' k _ files left moved => ?_
  have size : (encodeMessage message).length = message.rest.length + 2 := by
    simp [encodeMessage, encodeCommand]
  rw [← files]
  cases message with
  | upload p content =>
    rw [Message.rest, List.append_assoc] at left
    refine Comp.ensures_mono (body_upload username r expected.1 expected.2 left) ?_
    exact fun _ _ _ turned => turned.1
  | delete p => exact body_delete username r expected left
  | download p =>
    obtain ⟨rfl, named⟩ := expected
    have ends := clear rfl (.inl rfl)
    rw [size] at ends
    exact body_download username named left (moved.segment _ ends)
  | plain c =>
    refine body_plain username r expected left fun payload lists => ?_
    have ends := clear payload (.inr lists)
    rw [size] at ends
    exact unread_of_endsSegment (moved.segment 0 ends)

/-- On a good stream an upload keeps a loop from going on only by an exception of the file
    system. -/
theorem upload_goes_on (username : List Byte) {r : Receiver} (named : p.length < 2 ^ 63)
    (fits : content.length < 2 ^ 63) (good : fe.stream.good) (enough : content.length < fuel)
    (reached : r.Reaches m.world.fs p)
    (coming : available fe.buf m = encodeMessage (.upload p content) ++ rest) :
    Comp.ensures (answers host) (iteration fuel username r) (fun result _ _ =>
      result = .ok (some (some .kUpload, true))) fe m := by
  refine Comp.ensures_mono (iteration_ensures (Q := fun done _ _ => done = .ok true) coming ?_) ?_
  · intro fe' k good' files left _
    rw [Message.rest, List.append_assoc] at left
    refine Comp.ensures_mono (body_upload username r named fits left) fun done _ _ turned => ?_
    exact turned.2 (by rw [good', good]) enough (by rwa [files])
  · rintro _ _ _ ⟨_, rfl, rfl⟩
    rfl

end turns

/-- `left` is what the peer has sent and no iteration has been for. -/
structure State where
  fe : FileExchange
  machine : Machine
  executed : List (Option Command)
  left : List Message
  receiving : Bool

def start (fe : FileExchange) (m : Machine) (messages : List Message) : State :=
  ⟨fe, m, [], messages, true⟩

/-- The iteration for a message, if it ends and the loop comes to it. -/
def step (fuel : Nat) (username : List Byte) (r : Receiver) (s : State) (_ : Message) :
    Option State :=
  if s.receiving then
    match exec (iteration fuel username r) s.fe s.machine with
    | (.ok (some (c, receiving)), fe, machine) =>
      some ⟨fe, machine, s.executed ++ [c], s.left.tail, receiving⟩
    | _ => none
  else none

/-- The commands carried out are those of the messages sent, up to the ones that are left; and
    these are what comes next on the stream. -/
def InStep (messages : List Message) (tail : List Byte) (s : State) : Prop :=
  s.executed ++ s.left.map (fun m => some m.command) = messages.map (fun m => some m.command) ∧
    available s.fe.buf s.machine = s.left.flatMap encodeMessage ++ tail

section run
variable {fuel : Nat} {username : List Byte} {r : Receiver} {s t : State} {m : Message}
  {messages later : List Message} {tail : List Byte}

/-- What an iteration for the next message does. -/
theorem step_turned (fuel : Nat) (username : List Byte) (going : s.receiving)
    (next : s.left = m :: later) (expected : r.Expects m)
    (clear : Clear r s.fe s.machine m) (framed : InStep messages tail s) :
    ∃ done fe k, step fuel username r s m = (match done with
        | .ok receiving => some ⟨fe, k, s.executed ++ [some m.command], later, receiving⟩
        | .error _ => none) ∧
      Turned (Opens r s.machine.world.fs m) (later.flatMap encodeMessage ++ tail) done fe k := by
  have coming : available s.fe.buf s.machine =
      encodeMessage m ++ (later.flatMap encodeMessage ++ tail) := by
    rw [framed.2, next, List.flatMap_cons, List.append_assoc]
  have turn := Comp.ensures_answers.mp
    (iteration_turned fuel username expected clear coming)
  rw [← exec] at turn
  rw [step, if_pos going, next]
  generalize exec (iteration fuel username r) s.fe s.machine = outcome at turn ⊢
  obtain ⟨result, fe, k⟩ := outcome
  obtain ⟨done, rfl, turned⟩ := turn
  refine ⟨done, fe, k, ?_, turned⟩
  cases done <;> rfl

theorem inStep_start {fe : FileExchange} {k : Machine}
    (coming : available fe.buf k = messages.flatMap encodeMessage ++ tail) :
    InStep messages tail (start fe k messages) := ⟨rfl, coming⟩

/-- An iteration for an upload ends in step if and only if the destination is opened. -/
theorem inStep_iff_opens (next : s.left = m :: later) (expected : r.Expects m)
    (clear : s.receiving → Clear r s.fe s.machine m) (framed : InStep messages tail s)
    (taken : step fuel username r s m = some t) :
    InStep messages tail t ↔ (s.receiving → Opens r s.machine.world.fs m) := by
  by_cases going : s.receiving
  · obtain ⟨done, fe, k, result, turned⟩ :=
      step_turned fuel username going next expected (clear going) framed
    rw [result] at taken
    obtain ⟨commands, _⟩ := framed
    rw [next, List.map_cons, List.append_cons] at commands
    cases done with
    | error f => cases taken
    | ok receiving =>
      obtain rfl := Option.some.inj taken
      rcases turned with ⟨opens, left⟩ | ⟨closed, _, left⟩
      · exact iff_of_true ⟨commands, left receiving rfl⟩ fun _ => opens
      · exact iff_of_false (fun framed => left framed.2) fun opens => closed (opens going)
  · rw [step, if_neg going] at taken
    cases taken

theorem opens_of_stuck (next : s.left = m :: later) (expected : r.Expects m)
    (clear : s.receiving → Clear r s.fe s.machine m) (framed : InStep messages tail s)
    (stuck : step fuel username r s m = none) (going : s.receiving) :
    Opens r s.machine.world.fs m := by
  obtain ⟨done, fe, k, result, ⟨opens, _⟩ | ⟨_, rfl, _⟩⟩ :=
    step_turned fuel username going next expected (clear going) framed
  · exact opens
  · rw [result] at stuck
    cases stuck

theorem step_left (taken : step fuel username r s m = some t) : t.left = s.left.tail := by
  rw [step] at taken
  split at taken
  · split at taken
    · obtain rfl := Option.some.inj taken
      rfl
    · cases taken
  · cases taken

/-- The message is the next one, and one that the loop expects. -/
def Due (r : Receiver) (s : State) (m : Message) : Prop :=
  (∃ later, s.left = m :: later) ∧ r.Expects m ∧ (s.receiving → Clear r s.fe s.machine m)

theorem due_in_order (next : s.left = messages) (expected : ∀ m ∈ messages, r.Expects m)
    (clear : Allowed (step fuel username r) (fun s m => s.receiving → Clear r s.fe s.machine m)
      s messages) :
    Allowed (step fuel username r) (Due r) s messages := by
  induction messages generalizing s with
  | nil => trivial
  | cons m later ih =>
    refine ⟨⟨⟨later, next⟩, expected m List.mem_cons_self, clear.1⟩, fun t taken => ?_⟩
    refine ih ?_ (fun m among => expected m (List.mem_cons_of_mem _ among)) (clear.2 t taken)
    rw [step_left taken, next, List.tail_cons]

/-- A loop stays in step with its peer if and only if every upload that it comes to finds a
    destination it can open, or ends the loop with an exception; a reply needs its request to be
    the last that has been read from the connection. -/
theorem stays_framed_iff (fuel : Nat) (username : List Byte) (r : Receiver) {fe : FileExchange}
    {k : Machine} (coming : available fe.buf k = messages.flatMap encodeMessage ++ tail)
    (expected : ∀ m ∈ messages, r.Expects m)
    (clear : Allowed (step fuel username r) (fun s m => s.receiving → Clear r s.fe s.machine m)
      (start fe k messages) messages) :
    Along (step fuel username r) (InStep messages tail) (start fe k messages) messages ↔
      Allowed (step fuel username r) (fun s m => s.receiving → Opens r s.machine.world.fs m)
        (start fe k messages) messages := by
  refine along_iff_allowed_given ?_ ?_ (due_in_order rfl expected clear) (inStep_start coming)
  · rintro s m t framed ⟨⟨later, next⟩, expected, clear⟩ taken
    exact inStep_iff_opens next expected clear framed taken
  · rintro s m framed ⟨⟨later, next⟩, expected, clear⟩ stuck
    exact opens_of_stuck next expected clear framed stuck

end run

/-- A store with the file "b" and no directory "d". -/
def flat : Fs := Fs.empty.put (key [98]) (.file [7])

/-- The first destination is "d/a". -/
def uploads : List Message := [.upload [100, 47, 97] [0, 1, 98, 0], .upload [98] [8]]

def inbox : Machine :=
  ⟨⟨flat, [], [], []⟩, [some ⟨uploads.flatMap encodeMessage, by decide⟩], []⟩

theorem stays_framed_iff_client :
    Along (step 5 [] .client) (InStep uploads []) (start (.fresh (fun _ => 0) []) inbox uploads)
        uploads ↔
      Allowed (step 5 [] .client)
        (fun s m => s.receiving → Opens .client s.machine.world.fs m)
        (start (.fresh (fun _ => 0) []) inbox uploads) uploads := by
  refine stays_framed_iff 5 [] .client rfl ?_ ?_
  · intro m among
    simp only [uploads, List.mem_cons, List.not_mem_nil, or_false] at among
    obtain rfl | rfl := among
    · exact ⟨by decide, by decide⟩
    · exact ⟨by decide, by decide⟩
  · have clear : ∀ fe k m, Clear .client fe k m := fun fe k m payload => by cases payload
    exact ⟨fun _ => clear _ _ _, fun _ _ => ⟨fun _ => clear _ _ _, fun _ _ => trivial⟩⟩

/-- The size of the file that cannot be stored is read as a command, and its content as the path
    of a file to delete. -/
theorem unstored_upload_deletes :
    ¬ Along (step 5 [] .client) (InStep uploads [])
        (start (.fresh (fun _ => 0) []) inbox uploads) uploads ∧
      flat.entry (key [98]) = some (.file [7]) ∧
      (runs (step 5 [] .client) (start (.fresh (fun _ => 0) []) inbox uploads) uploads).map
          (fun s => (s.executed, s.left, s.machine.world.fs.entry (key [98]))) =
        some ([some .kUpload, some .kDelete], [], none) := by
  have outcome : (runs (step 5 [] .client) (start (.fresh (fun _ => 0) []) inbox uploads)
      uploads).map (fun s => (s.executed, s.left, s.machine.world.fs.entry (key [98]))) =
        some ([some .kUpload, some .kDelete], [], none) := by
    decide +kernel
  refine ⟨fun along => ?_, rfl, outcome⟩
  obtain ⟨t, run, shape⟩ := Option.map_eq_some_iff.mp outcome
  obtain ⟨executed, shape⟩ := Prod.mk.inj shape
  obtain ⟨left, _⟩ := Prod.mk.inj shape
  have commands := (along uploads t List.prefix_rfl run).1
  rw [executed, left] at commands
  exact absurd commands (by decide)

end DropboxReceiverFraming
