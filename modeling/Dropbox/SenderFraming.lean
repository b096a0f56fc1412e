import Dropbox.Backup
import Dropbox.Client
import Dropbox.ClientHandler
import Dropbox.ProtocolRules

/-!
The functions that send files, each run on the same stream with a store of its own.
Command and path are on the stream before Send looks at the file, so the stream is
made of complete messages exactly when every file to be sent can be opened and
measured.
-/
namespace DropboxSenderFraming
open DropboxFileStore DropboxHost DropboxSocketStream DropboxStreamRules DropboxProtocol
open DropboxProtocolRules Programs Codec

/-- `download` is the handler's answer to a request for this path. -/
inductive SenderOp where
  | upload (p : Path)
  | delete (p : Path)
  | clientUpload (p : Path)
  | action (command : Command) (p : Path)
  | download (p : Path)
  | getSyncDir
  deriving DecidableEq, Repr

def perform (fuel : Nat) (user : List Byte) : SenderOp → Io FileExchange Unit
  | .upload p => do
    let _ ← senderUpload fuel p
    pure ()
  | .delete p => do
    let _ ← senderDelete p
    pure ()
  | .clientUpload p => do
    let _ ← DropboxClient.upload fuel user p
    pure ()
  | .action command p => do
    DropboxClient.syncAction fuel user command p
    pure ()
  | .download _ => do
    let _ ← DropboxClientHandler.download fuel
    pure ()
  | .getSyncDir => do
    let _ ← DropboxClientHandler.getSyncDir fuel user
    pure ()

/-- What the operation reads before it sends. -/
def request : SenderOp → List Byte
  | .download p => encodeString p
  | _ => []

/-- An operation, the store it meets and the OS reads of its request. -/
structure Step where
  op : SenderOp
  fs : Fs
  reads : List Segment

/-- What has been written to the stream, sent or not. -/
def output (fe : FileExchange) (m : Machine) : List Byte := m.world.sent ++ fe.buf.pending

def Step.machine (s : Step) (m : Machine) : Machine :=
  { m with world := { m.world with fs := s.fs }, inbox := s.reads.map some }

/-- The bytes each step appends to the stream. -/
def appended (fuel : Nat) (user : List Byte) : List Step → FileExchange → Machine → List (List Byte)
  | [], _, _ => []
  | s :: rest, fe, m =>
    let out := exec (perform fuel user s.op) fe (s.machine m)
    (output out.2.1 out.2.2).drop (output fe m).length :: appended fuel user rest out.2.1 out.2.2

/-- The messages of the protocol: uploads and deletes, the entries of GetSyncDir and their end, the
    answers to a download. -/
inductive Frame where
  | upload (p content : List Byte)
  | delete (p : List Byte)
  | entry (p content : List Byte)
  | done
  | found (content : List Byte)
  | notFound
  deriving DecidableEq, Repr

def Frame.command : Frame → Command
  | .upload _ _ => .kUpload
  | .delete _ => .kDelete
  | .entry _ _ | .found _ => .kSuccess
  | .done => .kExit
  | .notFound => .kError

def Frame.body : Frame → List Byte
  | .upload p content | .entry p content => encodeString p ++ encodeFile content
  | .delete p => encodeString p
  | .found content => encodeFile content
  | .done | .notFound => []

def encodeFrame (f : Frame) : List Byte := encodeCommand f.command ++ f.body

/-- A std::string and a file hold fewer than 2^63 bytes. -/
def Frame.Sized : Frame → Prop
  | .upload p content | .entry p content => p.length < 2 ^ 63 ∧ content.length < 2 ^ 63
  | .delete p => p.length < 2 ^ 63
  | .found content => content.length < 2 ^ 63
  | .done | .notFound => True

/-- The frames the peer of the operation parses. -/
def Expected : SenderOp → Frame → Prop
  | .download _, .found _ | .download _, .notFound => True
  | .getSyncDir, .entry _ _ | .getSyncDir, .done => True
  | .download _, _ | .getSyncDir, _ => False
  | _, .upload _ _ | _, .delete _ => True
  | _, _ => False

/-- A download has one answer, and GetSyncDir ends with its end mark; other operations may send
    nothing. -/
def Whole : SenderOp → List Frame → Prop
  | .download _, frames => frames.length = 1
  | .getSyncDir, frames => ∃ entries, frames = entries ++ [.done]
  | _, _ => True

/-- The bytes are complete messages for the peer. -/
def Framed (op : SenderOp) (bytes : List Byte) : Prop :=
  ∃ frames, (∀ f ∈ frames, f.Sized ∧ Expected op f) ∧ Whole op frames ∧
    bytes = frames.flatMap encodeFrame

/-- The path under which the operation looks for its file. -/
def target (user : List Byte) : SenderOp → Path
  | .action _ p => joinPath (syncDirWithPrefix user) p
  | .upload p | .delete p | .clientUpload p | .download p => p
  | .getSyncDir => syncDirWithPrefix user

def entryPath (user : List Byte) (name : Path) : Path :=
  joinPath (syncDirWithPrefix user) (filename name)

/-- The entry of GetSyncDir for this name, if its file can be sent. -/
def reportEntry (user : List Byte) (fs : Fs) (name : Path) : List Frame :=
  ((readable fs (entryPath user name)).map (.entry (genericString (entryPath user name)))).toList

/-- What the operation succeeded in sending. -/
def report (user : List Byte) (fs : Fs) : SenderOp → List Frame
  | .upload p => ((readable fs p).map (.upload (genericString p))).toList
  | .delete p => [.delete (genericString p)]
  | .clientUpload p => ((readable fs p).map
      (.upload (genericString (joinPath (syncDirWithPrefix user) (filename p))))).toList
  | .action .kUpload p =>
    let path := joinPath (syncDirWithPrefix user) p
    ((readable fs path).map (.upload (genericString path))).toList
  | .action .kDelete p => [.delete (genericString (joinPath (syncDirWithPrefix user) p))]
  | .action _ _ => []
  | .download p =>
    if pathExists fs p = some false then [.notFound] else ((readable fs p).map .found).toList
  | .getSyncDir =>
    ((listDirectory fs (syncDirWithPrefix user)).getD []).flatMap (reportEntry user fs) ++ [.done]

/-- A peer that parses the bytes finds what succeeded and nothing else. -/
def Recovered (user : List Byte) (fs : Fs) (op : SenderOp) (bytes : List Byte) : Prop :=
  ∀ frames, (∀ f ∈ frames, f.Sized ∧ Expected op f) → bytes = frames.flatMap encodeFrame →
    frames = report user fs op

/-- Every file the operation sends can be opened and measured; GetSyncDir can also list the
    directory, and a download may ask for a file that is not there. -/
def Sendable (user : List Byte) (fs : Fs) : SenderOp → Prop
  | .upload p | .clientUpload p => (readable fs p).isSome
  | .action .kUpload p => (readable fs (joinPath (syncDirWithPrefix user) p)).isSome
  | .delete _ | .action _ _ => True
  | .download p => pathExists fs p = some false ∨
      pathExists fs p = some true ∧ (readable fs p).isSome
  | .getSyncDir => ∃ names, listDirectory fs (syncDirWithPrefix user) = some names ∧
      ∀ name ∈ names, (readable fs (entryPath user name)).isSome

/-- The paths the operation puts on the stream. -/
def sentPaths (user : List Byte) (fs : Fs) : SenderOp → List Path
  | .upload p | .delete p => [p]
  | .clientUpload p => [joinPath (syncDirWithPrefix user) (filename p)]
  | .action _ p => [joinPath (syncDirWithPrefix user) p]
  | .download _ => []
  | .getSyncDir => ((listDirectory fs (syncDirWithPrefix user)).getD []).map (entryPath user)

theorem command_cancel {c d : Command} {x y : List Byte}
    (same : encodeCommand c ++ x = encodeCommand d ++ y) : c = d ∧ x = y := by
  obtain ⟨_, rest⟩ := List.cons.inj same
  obtain ⟨byte, tails⟩ := List.cons.inj rest
  exact ⟨Command.toByte_injective byte, tails⟩

theorem string_cancel {s t x y : List Byte} (fits : s.length < 2 ^ 63) (fits' : t.length < 2 ^ 63)
    (same : encodeString s ++ x = encodeString t ++ y) : s = t ∧ x = y :=
  lengthPrefixed_cancel (by omega) (by omega) (List.cons.inj same).2

theorem frames_code (op : SenderOp) :
    PrefixCode (fun f => f.Sized ∧ Expected op f) encodeFrame where
  nonempty f _ := by simp [encodeFrame, encodeCommand]
  cancels := by
    rintro f g ⟨sized, expected⟩ ⟨sized', expected'⟩ x y same
    rw [encodeFrame, encodeFrame, List.append_assoc, List.append_assoc] at same
    obtain ⟨command, bodies⟩ := command_cancel same
    cases f <;> cases g <;> simp only [Frame.command, reduceCtorEq] at command
    case upload.upload p content q content' =>
      simp only [Frame.body, List.append_assoc] at bodies
      obtain ⟨rfl, tails⟩ := string_cancel sized.1 sized'.1 bodies
      obtain ⟨rfl, rest⟩ := string_cancel sized.2 sized'.2 tails
      exact ⟨rfl, rest⟩
    case delete.delete p q =>
      obtain ⟨rfl, rest⟩ := string_cancel sized sized' bodies
      exact ⟨rfl, rest⟩
    case entry.entry p content q content' =>
      simp only [Frame.body, List.append_assoc] at bodies
      obtain ⟨rfl, tails⟩ := string_cancel sized.1 sized'.1 bodies
      obtain ⟨rfl, rest⟩ := string_cancel sized.2 sized'.2 tails
      exact ⟨rfl, rest⟩
    case found.found content content' =>
      obtain ⟨rfl, rest⟩ := string_cancel sized sized' bodies
      exact ⟨rfl, rest⟩
    case entry.found => cases op <;> simp [Expected] at expected expected'
    case found.entry => cases op <;> simp [Expected] at expected expected'
    case done.done => exact ⟨rfl, bodies⟩
    case notFound.notFound => exact ⟨rfl, bodies⟩

/-- An upload message on the stream, as far as it gets. -/
def uploadBytes (fs : Fs) (announced file : Path) : List Byte :=
  encodeCommand .kUpload ++ (encodePath announced ++ sentFile fs file)

/-- The loop of GetSyncDir ends with the first file it cannot send. -/
def entriesBytes (user : List Byte) (fs : Fs) : List Path → List Byte
  | [] => encodeCommand .kExit
  | name :: rest =>
    let path := entryPath user name
    encodeCommand .kSuccess ++ (encodePath path ++ (sentFile fs path ++
      if (readable fs path).isSome then entriesBytes user fs rest else []))

/-- What the operation appends to the stream. -/
def opBytes (user : List Byte) (fs : Fs) : SenderOp → List Byte
  | .upload p => uploadBytes fs p p
  | .delete p => encodeCommand .kDelete ++ encodePath p
  | .clientUpload p => uploadBytes fs (joinPath (syncDirWithPrefix user) (filename p)) p
  | .action .kUpload p => uploadBytes fs (joinPath (syncDirWithPrefix user) p)
      (joinPath (syncDirWithPrefix user) p)
  | .action .kDelete p => encodeCommand .kDelete ++ encodePath (joinPath (syncDirWithPrefix user) p)
  | .action _ _ => []
  | .download p =>
    match pathExists fs p with
    | none => []
    | some false => encodeCommand .kError
    | some true => encodeCommand .kSuccess ++ sentFile fs p
  | .getSyncDir =>
    match listDirectory fs (syncDirWithPrefix user) with
    | none => []
    | some names => entriesBytes user fs names

section appending
variable {K : Contract} {fs : Fs} {log : List Event} {user : List Byte} {fuel : Nat} {p : Path}

/-- The stream has not failed. -/
def Working (fe : FileExchange) (_ : World) : Prop := fe.stream.good = true

theorem puts_senderUpload (q : Path)
    (enough : ∀ content, readable fs p = some content → content.length < fuel) :
    Puts K FileExchange.buf (At q fs log) (senderUpload fuel p) (uploadBytes fs p p)
      (readable fs p).isSome (At p fs log) := by
  refine puts_bind (puts_sendCommand .kUpload) ?_
  refine puts_after (keeps_setPath p) ?_
  refine puts_bind puts_sendPath ?_
  rw [if_pos rfl]
  refine puts_then (puts_sentFile enough) ?_
  cases (readable fs p).isSome
  · exact puts_pure false fun _ _ => id
  · exact puts_then puts_flushExchange (puts_pure true fun _ _ => id)

theorem puts_senderDelete (q : Path) :
    Puts K FileExchange.buf (At q fs log) (senderDelete p) (encodeCommand .kDelete ++ encodePath p)
      true (At p fs log) := by
  refine puts_bind (puts_sendCommand .kDelete) ?_
  refine puts_after (keeps_setPath p) ?_
  refine puts_then puts_sendPath ?_
  rw [if_pos rfl]
  exact puts_then puts_flushExchange (puts_pure true fun _ _ => id)

theorem puts_copyFile (q : Path) :
    Puts K FileExchange.buf (At p fs log)
      (tryCatch (do orThrow (onFiles (.copyFile p q)); pure true) fun _ => pure false) []
      (copyFile fs p q).isSome Working := by
  cases copied : copyFile fs p q with
  | none =>
    apply puts_catch (f := .filesystem) (J := Working) rfl _ (puts_pure false fun _ _ => id)
    rintro taken written fe w ⟨good, path, rfl, logged⟩ linked exhausted _
    rw [Comp.ensures_bind, orThrow, Comp.ensures_bind, ensures_onFiles]
    simp only [fileCall, copied, Option.map_none, orSame]
    exact ⟨rfl, good, by simpa using linked, exhausted, rfl⟩
  | some after =>
    have copying : Keeps K FileExchange.buf (At p fs log) (orThrow (onFiles (.copyFile p q))) ()
        (At p after log) := keeps_orThrow (keeps_onFiles (by simp [fileCall, copied, orSame]))
    refine puts_tryCatch ?_
    exact puts_then (puts_of_keeps copying) (puts_pure true fun _ _ here => here.1)

theorem puts_clientUpload (q : Path)
    (enough : ∀ content, readable fs p = some content → content.length < fuel) :
    ∃ success, Puts K FileExchange.buf (At q fs log) (DropboxClient.upload fuel user p)
      (uploadBytes fs (joinPath (syncDirWithPrefix user) (filename p)) p) success Working := by
  let dest := joinPath (syncDirWithPrefix user) (filename p)
  refine ⟨(readable fs p).isSome && (copyFile fs p dest).isSome, ?_⟩
  refine puts_bind (puts_sendCommand .kUpload) ?_
  refine puts_after (keeps_setPath dest) ?_
  refine puts_bind puts_sendPath ?_
  rw [if_pos rfl]
  refine puts_after (keeps_setPath p) ?_
  refine puts_then (puts_sentFile enough) ?_
  cases (readable fs p).isSome
  · exact puts_pure false fun _ _ here => here.1
  · exact puts_copyFile dest

theorem puts_syncAction (q : Path) (command : Command) (enough : ∀ content,
      readable fs (joinPath (syncDirWithPrefix user) p) = some content → content.length < fuel) :
    Puts K FileExchange.buf (At q fs log) (DropboxClient.syncAction fuel user command p)
      (opBytes user fs (.action command p)) () Working := by
  have flushing : ∀ q, Puts K FileExchange.buf (At q fs log) flushExchange [] () Working :=
    fun _ => puts_weaken puts_flushExchange fun _ _ here => here.1
  let path := joinPath (syncDirWithPrefix user) p
  cases command with
  | kUpload =>
    refine puts_bind (puts_sendCommand .kUpload) ?_
    refine puts_after (keeps_setPath path) ?_
    refine puts_bind puts_sendPath ?_
    refine puts_after (keeps_setPath path) ?_
    exact puts_then (puts_sentFile enough) (flushing path)
  | kDelete =>
    refine puts_bind (puts_sendCommand .kDelete) ?_
    refine puts_after (keeps_setPath path) ?_
    exact puts_then puts_sendPath (flushing path)
  | _ => exact flushing q

theorem puts_sendEntries (q : Path) (names : List Path) (enough : ∀ name ∈ names, ∀ content,
      readable fs (entryPath user name) = some content → content.length < fuel) :
    Puts K FileExchange.buf (At q fs log)
      (DropboxClientHandler.sendEntries fuel (syncDirWithPrefix user) names)
      (entriesBytes user fs names)
      (names.all fun name => (readable fs (entryPath user name)).isSome) (Somewhere fs log) := by
  induction names generalizing q with
  | nil => exact puts_then (puts_sendCommand .kExit) (puts_pure true fun _ _ here => ⟨q, here⟩)
  | cons name rest ih =>
    let path := entryPath user name
    refine puts_bind (puts_sendCommand .kSuccess) ?_
    refine puts_after (keeps_setPath path) ?_
    refine puts_bind puts_sendPath ?_
    rw [if_pos rfl]
    refine puts_bind (puts_sentFile (enough name (List.mem_cons_self ..))) ?_
    have tail := ih path fun name member => enough name (List.mem_cons_of_mem _ member)
    cases sent : (readable fs path).isSome
    · simp only [path] at sent
      simp only [List.all_cons, sent]
      exact puts_pure false fun _ _ here => ⟨path, here⟩
    · simp only [path] at sent
      simp only [List.all_cons, sent]
      exact tail

/-- The answer of Download to the path it has received. -/
theorem puts_answer {present : Bool} (user : List Byte) (asked : pathExists fs p = some present)
    (enough : ∀ content, readable fs p = some content → content.length < fuel) :
    ∃ success, Puts K FileExchange.buf (At p fs log)
      (do
        let path ← getPath
        if ← orThrow (onFiles (.pathExists path)) then
          sendCommand .kSuccess
          send fuel
        else
          sendCommand .kError
          pure false)
      (opBytes user fs (.download p)) success Working := by
  have asking : Keeps K FileExchange.buf (At p fs log) (orThrow (onFiles (.pathExists p))) present
      (At p fs log) := keeps_orThrow (keeps_onFiles (by simp [fileCall, asked]))
  cases present
  · have bytes : opBytes user fs (.download p) = encodeCommand .kError := by simp [opBytes, asked]
    refine ⟨false, ?_⟩
    rw [bytes]
    refine puts_after keeps_getPath ?_
    refine puts_after asking ?_
    exact puts_then (puts_sendCommand .kError) (puts_pure false fun _ _ here => here.1)
  · have bytes : opBytes user fs (.download p) = encodeCommand .kSuccess ++ sentFile fs p := by
      simp [opBytes, asked]
    refine ⟨(readable fs p).isSome, ?_⟩
    rw [bytes]
    refine puts_after keeps_getPath ?_
    refine puts_after asking ?_
    exact puts_bind (puts_sendCommand .kSuccess)
      (puts_weaken (puts_sentFile enough) fun _ _ here => here.1)

attribute [local irreducible] Comp.ensures

/-- Whatever it comes to, the operation appends just these bytes. -/
theorem ensures_perform {taken written : List Byte} (op : SenderOp) {fe : FileExchange} {w : World}
    (enough : ∀ q content, readable w.fs q = some content → content.length < fuel)
    (text : ∀ q, op = .download q → q.length < 2 ^ 63) (good : fe.stream.good = true)
    (linked : Linked (delivers (taken ++ request op)) taken written fe.buf w)
    (exhausted : fe.buf.unread = []) :
    Comp.ensures (delivers (taken ++ request op)).env (perform fuel user op) (fun _ k v =>
      k.stream.good = true ∧ Linked (delivers (taken ++ request op)) (taken ++ request op)
        (written ++ opBytes user w.fs op) k.buf v ∧ k.buf.unread = []) fe w := by
  have here : At fe.path w.fs w.log fe w := ⟨good, rfl, rfl, rfl⟩
  have sends : ∀ {a : Type} {x : Io FileExchange a} {value : a},
      Puts (delivers (taken ++ request op)) FileExchange.buf (At fe.path w.fs w.log) x
        (opBytes user w.fs op) value Working → request op = [] →
      Comp.ensures (delivers (taken ++ request op)).env (do let _ ← x; pure ()) (fun _ k v =>
        k.stream.good = true ∧ Linked (delivers (taken ++ request op)) (taken ++ request op)
          (written ++ opBytes user w.fs op) k.buf v ∧ k.buf.unread = []) fe w := by
    intro a x value puts nothing
    rw [Comp.ensures_bind]
    apply Comp.ensures_mono (puts here linked exhausted fun _ _ => trivial)
    rintro r k v ⟨rfl, working, linked', exhausted', _⟩
    rw [Comp.either_ok, Comp.ensures_pure]
    rw [nothing, List.append_nil] at linked' ⊢
    exact ⟨working, linked', exhausted'⟩
  cases op with
  | upload p =>
    exact sends (puts_weaken (puts_senderUpload _ (enough p)) fun _ _ here => here.1) rfl
  | delete p => exact sends (puts_weaken (puts_senderDelete _) fun _ _ here => here.1) rfl
  | clientUpload p =>
    obtain ⟨success, puts⟩ := puts_clientUpload fe.path (enough p)
    exact sends puts rfl
  | action command p => exact sends (puts_syncAction _ command (enough _)) rfl
  | download p =>
    rw [perform, Comp.ensures_bind, DropboxClientHandler.download, Comp.ensures_bind]
    apply Comp.ensures_mono (takes_receivePath (text p rfl) here linked
      (List.append_nil _).symm fun _ _ _ => delivers_asks _ _ _)
    rintro r k v ⟨rfl, there, linked'⟩
    have complete := unread_of_complete linked'
    rw [Comp.either_ok, if_pos rfl]
    cases asked : pathExists w.fs p with
    | none =>
      obtain ⟨good', path, files, _⟩ := there
      have bytes : opBytes user w.fs (.download p) = [] := by simp [opBytes, asked]
      rw [bytes, List.append_nil, Comp.ensures_bind]
      simp only [getPath, Comp.ensures_bind, Comp.ensures_get, Comp.either_ok, Comp.ensures_pure,
        path]
      rw [orThrow, Comp.ensures_bind, ensures_onFiles]
      simp only [fileCall, files ▸ asked]
      exact Comp.ensures_throw.mpr ⟨good', linked', complete⟩
    | some present =>
      obtain ⟨success, puts⟩ := puts_answer user asked (enough p)
      apply Comp.ensures_mono (puts there linked' complete fun _ _ => trivial)
      rintro r k' v' ⟨rfl, working, linked'', exhausted', _⟩
      exact Comp.ensures_pure.mpr ⟨working, linked'', exhausted'⟩
  | getSyncDir =>
    have nothing : taken ++ request .getSyncDir = taken := List.append_nil _
    rw [nothing] at linked ⊢
    rw [perform, Comp.ensures_bind, DropboxClientHandler.getSyncDir, Comp.ensures_bind]
    cases listed : listDirectory w.fs (syncDirWithPrefix user) with
    | none =>
      have bytes : opBytes user w.fs .getSyncDir = [] := by simp [opBytes, listed]
      rw [orThrow, Comp.ensures_bind, ensures_onFiles, bytes, List.append_nil]
      simp only [fileCall, listed]
      exact Comp.ensures_throw.mpr ⟨good, linked, exhausted⟩
    | some names =>
      have bytes : opBytes user w.fs .getSyncDir = entriesBytes user w.fs names := by
        simp [opBytes, listed]
      rw [orThrow, Comp.ensures_bind, ensures_onFiles, bytes]
      simp only [fileCall, listed, Comp.either_ok, Comp.ensures_pure]
      apply Comp.ensures_mono (puts_sendEntries _ names (fun name _ => enough _) here linked
        exhausted fun _ _ => trivial)
      rintro r k v ⟨rfl, ⟨_, working, _⟩, linked', exhausted', _⟩
      exact Comp.ensures_pure.mpr ⟨working, linked', exhausted'⟩

end appending

section framing
variable {user : List Byte} {fs : Fs}

theorem uploadBytes_sent {announced file : Path} {content : List Byte}
    (holds : readable fs file = some content) :
    uploadBytes fs announced file = encodeFrame (.upload (genericString announced) content) := by
  simp [uploadBytes, sentFile, holds, encodeFrame, Frame.command, Frame.body, encodePath]

theorem entriesBytes_sent {names : List Path}
    (all : ∀ name ∈ names, (readable fs (entryPath user name)).isSome) :
    entriesBytes user fs names =
      (names.flatMap (reportEntry user fs) ++ [Frame.done]).flatMap encodeFrame := by
  induction names with
  | nil => rfl
  | cons name rest ih =>
    obtain ⟨content, holds⟩ := Option.isSome_iff_exists.mp (all name (List.mem_cons_self ..))
    have tail := ih fun name member => all name (List.mem_cons_of_mem _ member)
    simp [entriesBytes, sentFile, reportEntry, holds, tail, encodeFrame, Frame.command, Frame.body,
      encodePath]

/-- When every file can be sent, the operation sends exactly what it reports. -/
theorem opBytes_sendable (op : SenderOp) (sendable : Sendable user fs op) :
    opBytes user fs op = (report user fs op).flatMap encodeFrame := by
  have uploads : ∀ {announced file : Path}, (readable fs file).isSome →
      uploadBytes fs announced file =
        ((readable fs file).map (.upload (genericString announced))).toList.flatMap encodeFrame := by
    intro announced file known
    obtain ⟨content, holds⟩ := Option.isSome_iff_exists.mp known
    simp [uploadBytes_sent holds, holds]
  have deletes : ∀ {path : Path}, encodeCommand .kDelete ++ encodePath path =
      [Frame.delete (genericString path)].flatMap encodeFrame := by
    intro path
    simp [encodeFrame, Frame.command, Frame.body, encodePath]
  cases op with
  | upload p => exact uploads sendable
  | delete p => exact deletes
  | clientUpload p => exact uploads sendable
  | action command p =>
    cases command with
    | kUpload => exact uploads sendable
    | kDelete => exact deletes
    | _ => rfl
  | download p =>
    rcases sendable with absent | ⟨present, known⟩
    · simp [opBytes, report, absent, encodeFrame, Frame.command, Frame.body]
    · obtain ⟨content, holds⟩ := Option.isSome_iff_exists.mp known
      simp [opBytes, report, present, holds, sentFile, encodeFrame, Frame.command, Frame.body]
  | getSyncDir =>
    obtain ⟨names, listed, all⟩ := sendable
    simp only [opBytes, report, listed, Option.getD_some]
    exact entriesBytes_sent all

/-- The strings the operation handles are std::strings. -/
def Short (user : List Byte) (fs : Fs) (op : SenderOp) : Prop :=
  (∀ q ∈ sentPaths user fs op, (genericString q).length < 2 ^ 63) ∧
    ∀ q, op = .download q → q.length < 2 ^ 63

theorem mem_sent {file : Path} {f : Frame} {make : List Byte → Frame}
    (member : f ∈ ((readable fs file).map make).toList) :
    ∃ content, f = make content ∧ content.length < 2 ^ 63 := by
  cases holds : readable fs file with
  | none => simp [holds] at member
  | some content =>
    refine ⟨content, by simpa [holds] using member, (readable_eq_some holds).2.2.2⟩

theorem report_frames {op : SenderOp} (short : Short user fs op) :
    ∀ f ∈ report user fs op, f.Sized ∧ Expected op f := by
  intro f member
  cases op with
  | upload p =>
    obtain ⟨content, rfl, fits⟩ := mem_sent member
    exact ⟨⟨short.1 _ (List.mem_singleton_self _), fits⟩, trivial⟩
  | delete p =>
    obtain rfl := List.mem_singleton.mp member
    exact ⟨short.1 _ (List.mem_singleton_self _), trivial⟩
  | clientUpload p =>
    obtain ⟨content, rfl, fits⟩ := mem_sent member
    exact ⟨⟨short.1 _ (List.mem_singleton_self _), fits⟩, trivial⟩
  | action command p =>
    cases command with
    | kUpload =>
      obtain ⟨content, rfl, fits⟩ := mem_sent member
      exact ⟨⟨short.1 _ (List.mem_singleton_self _), fits⟩, trivial⟩
    | kDelete =>
      obtain rfl := List.mem_singleton.mp member
      exact ⟨short.1 _ (List.mem_singleton_self _), trivial⟩
    | _ => simp [report] at member
  | download p =>
    simp only [report] at member
    split at member
    · obtain rfl := List.mem_singleton.mp member
      exact ⟨trivial, trivial⟩
    · obtain ⟨content, rfl, fits⟩ := mem_sent member
      exact ⟨fits, trivial⟩
  | getSyncDir =>
    rcases List.mem_append.mp member with entry | last
    · obtain ⟨name, listed, sent⟩ := List.mem_flatMap.mp entry
      obtain ⟨content, rfl, fits⟩ := mem_sent sent
      exact ⟨⟨short.1 _ (List.mem_map_of_mem listed), fits⟩, trivial⟩
    · obtain rfl := List.mem_singleton.mp last
      exact ⟨trivial, trivial⟩

theorem report_whole {op : SenderOp} (sendable : Sendable user fs op) :
    Whole op (report user fs op) := by
  cases op with
  | download p =>
    rcases sendable with absent | ⟨present, known⟩
    · simp [Whole, report, absent]
    · obtain ⟨content, holds⟩ := Option.isSome_iff_exists.mp known
      simp [Whole, report, present, holds]
  | getSyncDir => exact ⟨_, rfl⟩
  | _ => trivial

theorem correct_of_sendable {op : SenderOp} (short : Short user fs op)
    (sendable : Sendable user fs op) :
    Framed op (opBytes user fs op) ∧ Recovered user fs op (opBytes user fs op) := by
  have bytes := opBytes_sendable op sendable
  have frames := report_frames short
  refine ⟨⟨report user fs op, frames, report_whole sendable, bytes⟩, ?_⟩
  intro other inside same
  exact code_injective (frames_code op) inside frames (same.symm.trans bytes)

/-- A message that breaks off makes the bytes no sequence of messages. -/
theorem not_framed_of_half {op : SenderOp} {before : List Frame} {f : Frame}
    {half rest : List Byte} (inside : ∀ f ∈ before, f.Sized ∧ Expected op f)
    (last : f.Sized ∧ Expected op f) (parts : half ++ rest = encodeFrame f) (begun : half ≠ [])
    (missing : rest ≠ []) : ¬ Framed op (before.flatMap encodeFrame ++ half) := by
  rintro ⟨frames, all, _, same⟩
  exact code_not_half (frames_code op) inside all last parts begun missing same

theorem not_framed_upload {op : SenderOp} {announced file : Path}
    (expected : ∀ p content, Expected op (.upload p content))
    (short : (genericString announced).length < 2 ^ 63) (fails : readable fs file = none) :
    ¬ Framed op (uploadBytes fs announced file) := by
  have half : uploadBytes fs announced file =
      ([] : List Frame).flatMap encodeFrame ++ (encodeCommand .kUpload ++ encodePath announced) := by
    simp [uploadBytes, sentFile, fails]
  rw [half]
  have parts : encodeCommand .kUpload ++ encodePath announced ++ encodeFile [] =
      encodeFrame (.upload (genericString announced) []) := by
    simp [encodeFrame, Frame.command, Frame.body, encodePath]
  have last : (Frame.upload (genericString announced) []).Sized ∧
      Expected op (.upload (genericString announced) []) := ⟨⟨short, by simp⟩, expected _ _⟩
  exact not_framed_of_half (by simp) last parts (by simp [encodeCommand]) (by simp [encodeFile])

theorem entriesBytes_broken {names : List Path}
    (short : ∀ name ∈ names, (genericString (entryPath user name)).length < 2 ^ 63)
    (broken : ¬ ∀ name ∈ names, (readable fs (entryPath user name)).isSome) :
    ∃ (before : List Frame) (path : Path), (∀ f ∈ before, f.Sized ∧ Expected .getSyncDir f) ∧
      (genericString path).length < 2 ^ 63 ∧ entriesBytes user fs names =
        before.flatMap encodeFrame ++ (encodeCommand .kSuccess ++ encodePath path) := by
  induction names with
  | nil => simp at broken
  | cons name rest ih =>
    have now := short name (List.mem_cons_self ..)
    cases holds : readable fs (entryPath user name) with
    | none => exact ⟨[], _, by simp, now, by simp [entriesBytes, sentFile, holds]⟩
    | some content =>
      have later : ¬ ∀ name ∈ rest, (readable fs (entryPath user name)).isSome := by
        intro all
        apply broken
        intro other member
        rcases List.mem_cons.mp member with rfl | later
        · simp [holds]
        · exact all other later
      obtain ⟨before, path, inside, fits, bytes⟩ :=
        ih (fun name member => short name (List.mem_cons_of_mem _ member)) later
      refine ⟨.entry (genericString (entryPath user name)) content :: before, path, ?_, fits, ?_⟩
      · intro f member
        rcases List.mem_cons.mp member with rfl | later
        · exact ⟨⟨now, (readable_eq_some holds).2.2.2⟩, trivial⟩
        · exact inside f later
      · simp [entriesBytes, sentFile, holds, bytes, encodeFrame, Frame.command, Frame.body,
          encodePath]

theorem not_framed_nil {op : SenderOp} (some : ∀ frames, Whole op frames → frames ≠ []) :
    ¬ Framed op [] := by
  rintro ⟨frames, _, whole, same⟩
  obtain ⟨f, rest, rfl⟩ := List.exists_cons_of_ne_nil (some frames whole)
  simp [encodeFrame, encodeCommand] at same

/-- An operation that cannot send a file breaks off a message. -/
theorem sendable_of_framed {op : SenderOp} (short : Short user fs op)
    (framed : Framed op (opBytes user fs op)) : Sendable user fs op := by
  have upload : ∀ op announced file, (∀ p content, Expected op (.upload p content)) →
      (genericString announced).length < 2 ^ 63 → Framed op (uploadBytes fs announced file) →
      (readable fs file).isSome := by
    intro op announced file expected fits framed
    by_contra fails
    exact not_framed_upload expected fits (Option.not_isSome_iff_eq_none.mp fails) framed
  cases op with
  | upload p =>
    exact upload (.upload p) p p (fun _ _ => trivial) (short.1 _ (List.mem_singleton_self _)) framed
  | delete p => trivial
  | clientUpload p =>
    exact upload (.clientUpload p) _ p (fun _ _ => trivial)
      (short.1 _ (List.mem_singleton_self _)) framed
  | action command p =>
    cases command with
    | kUpload =>
      exact upload (.action .kUpload p) _ _ (fun _ _ => trivial)
        (short.1 _ (List.mem_singleton_self _)) framed
    | _ => trivial
  | download p =>
    cases asked : pathExists fs p with
    | none =>
      simp only [opBytes, asked] at framed
      exact absurd framed (not_framed_nil fun frames one => by rintro rfl; simp [Whole] at one)
    | some present =>
      cases present
      · exact .inl asked
      · refine .inr ⟨asked, ?_⟩
        by_contra fails
        have half : opBytes user fs (.download p) =
            ([] : List Frame).flatMap encodeFrame ++ encodeCommand .kSuccess := by
          simp [opBytes, asked, sentFile, Option.not_isSome_iff_eq_none.mp fails]
        rw [half] at framed
        have last : (Frame.found []).Sized ∧ Expected (.download p) (.found []) :=
          ⟨by simp [Frame.Sized], trivial⟩
        have parts : encodeCommand .kSuccess ++ encodeFile [] = encodeFrame (.found []) := rfl
        exact not_framed_of_half (by simp) last parts (by simp [encodeCommand])
          (by simp [encodeFile]) framed
  | getSyncDir =>
    cases listed : listDirectory fs (syncDirWithPrefix user) with
    | none =>
      simp only [opBytes, listed] at framed
      refine absurd framed (not_framed_nil ?_)
      rintro frames ⟨entries, rfl⟩
      simp
    | some names =>
      refine ⟨names, listed, ?_⟩
      by_contra broken
      have fits : ∀ name ∈ names, (genericString (entryPath user name)).length < 2 ^ 63 := by
        intro name member
        exact short.1 _ (by simpa [sentPaths, listed] using ⟨name, member, rfl⟩)
      obtain ⟨before, path, inside, now, bytes⟩ := entriesBytes_broken fits broken
      simp only [opBytes, listed, bytes] at framed
      have parts : encodeCommand .kSuccess ++ encodePath path ++ encodeFile [] =
          encodeFrame (.entry (genericString path) []) := by
        simp [encodeFrame, Frame.command, Frame.body, encodePath]
      have last : (Frame.entry (genericString path) []).Sized ∧
          Expected .getSyncDir (.entry (genericString path) []) := ⟨⟨now, by simp⟩, trivial⟩
      exact not_framed_of_half inside last parts (by simp [encodeCommand]) (by simp [encodeFile])
        framed

end framing

section run
variable {user : List Byte} {fuel : Nat}

/-- Between two steps everything received is taken, and this much is written. -/
structure Idle (taken written : List Byte) (fe : FileExchange) (m : Machine) : Prop where
  accepting : m.accepts = []
  good : fe.stream.good = true
  linked : Linked (delivers taken) taken written fe.buf m.world

/-- The assumptions on a step: its reads deliver the request, and its strings and files are of the
    sizes that std::string, off_t and the fuel allow. -/
structure Fair (user : List Byte) (fuel : Nat) (s : Step) : Prop where
  served : s.reads.flatMap Segment.bytes = request s.op
  short : Short user s.fs s.op
  enough : ∀ q content, readable s.fs q = some content → content.length < fuel

theorem step_appends {taken written : List Byte} {fe : FileExchange} {m : Machine} {s : Step}
    (idle : Idle taken written fe m) (fair : Fair user fuel s) :
    Idle (taken ++ request s.op) (written ++ opBytes user s.fs s.op)
      (exec (perform fuel user s.op) fe (s.machine m)).2.1
      (exec (perform fuel user s.op) fe (s.machine m)).2.2 := by
  have exhausted := unread_of_complete idle.linked
  have received : m.world.rcvd = taken := by simpa [exhausted] using idle.linked.received
  have coming : (s.machine m).coming = request s.op := by
    rw [← fair.served]
    simp [Step.machine, Machine.coming, List.flatMap_map]
  have linked : Linked (delivers (taken ++ request s.op)) taken written fe.buf
      (s.machine m).world :=
    ⟨idle.linked.get, idle.linked.array, idle.linked.put, idle.linked.received,
      idle.linked.produced, by
        show m.world.rcvd <+: _
        rw [received]
        exact List.prefix_append ..⟩
  have live : Live (taken ++ request s.op) FileExchange.buf taken written fe (s.machine m) :=
    ⟨⟨by simp [Step.machine], idle.accepting⟩, by
      rw [coming]
      show m.world.rcvd ++ _ = _
      rw [received], linked⟩
  obtain ⟨⟨good, linked', _⟩, sound, _⟩ := exec_ensures live
    (ensures_perform s.op fair.enough fair.short.2 idle.good linked exhausted)
  exact ⟨sound.2, good, linked'⟩

/-- Step by step, the stream gets the bytes of the operations. -/
theorem appended_eq {taken written : List Byte} (steps : List Step) {fe : FileExchange} {m : Machine}
    (idle : Idle taken written fe m) (fair : ∀ s ∈ steps, Fair user fuel s) :
    appended fuel user steps fe m = steps.map fun s => opBytes user s.fs s.op := by
  induction steps generalizing taken written fe m with
  | nil => rfl
  | cons s rest ih =>
    have next := step_appends idle (fair s (List.mem_cons_self ..))
    have before : output fe m = written := idle.linked.produced.symm
    have after : output _ _ = written ++ opBytes user s.fs s.op := next.linked.produced.symm
    rw [appended, ih next fun s member => fair s (List.mem_cons_of_mem _ member)]
    simp only [before, after, List.drop_left, List.map_cons]

theorem forall_map {P : Step → List Byte → Prop} {f : Step → List Byte} (steps : List Step) :
    List.Forall₂ P steps (steps.map f) ↔ ∀ s ∈ steps, P s (f s) := by
  simp [List.forall₂_map_right_iff, List.forall₂_same]

theorem idle_fresh {m : Machine} (mem : Nat → Byte) (p : Path) (accepting : m.accepts = [])
    (nothing : m.world.rcvd = []) (silent : m.world.sent = []) :
    Idle [] [] (FileExchange.fresh mem p) m :=
  ⟨accepting, rfl, Nat.le_refl _, Nat.zero_le _, Nat.zero_le _, nothing, by
    simp [FileExchange.fresh, FileExchange.buf, SocketStream.fresh, SocketBuffer.fresh,
      SocketBuffer.pending, silent], by simp [delivers, nothing]⟩

/-- The stream consists of complete messages that say what succeeded, in every step, if and only if
    every file to be sent can be opened and measured. Otherwise it has a broken message. -/
theorem framing_iff_sendable (user : List Byte) (fuel : Nat) (mem : Nat → Byte) (p : Path)
    (m : Machine) (steps : List Step) (accepting : m.accepts = []) (nothing : m.world.rcvd = [])
    (silent : m.world.sent = []) (fair : ∀ s ∈ steps, Fair user fuel s) :
    (List.Forall₂ (fun s bytes => Framed s.op bytes ∧ Recovered user s.fs s.op bytes) steps
        (appended fuel user steps (.fresh mem p) m) ↔ ∀ s ∈ steps, Sendable user s.fs s.op) ∧
      (List.Forall₂ (fun s bytes => Framed s.op bytes) steps
        (appended fuel user steps (.fresh mem p) m) → ∀ s ∈ steps, Sendable user s.fs s.op) := by
  have idle := idle_fresh mem p accepting nothing silent
  rw [appended_eq steps idle fair, forall_map, forall_map]
  refine ⟨⟨?_, ?_⟩, ?_⟩
  · intro correct s member
    exact sendable_of_framed (fair s member).short (correct s member).1
  · intro sendable s member
    exact correct_of_sendable (fair s member).short (sendable s member)
  · intro framed s member
    exact sendable_of_framed (fair s member).short (framed s member)

end run

theorem readable_empty (p : Path) : readable .empty p = none := by
  have shape : Fs.entry .empty (key p) = none ∨ Fs.entry .empty (key p) = some .dir := by
    unfold Fs.entry
    split
    · split <;> simp
    · exact .inl rfl
  rcases shape with found | found <;> simp [readable, Fs.stat, found]

/-- A machine with an empty store on which nothing has happened yet. -/
def idleMachine : Machine := ⟨⟨.empty, [], [], []⟩, [], []⟩

/-- The directory of "u" with a file "x" of two bytes. -/
def oneFile : Fs :=
  (Fs.empty.put (key (syncDirWithPrefix [117])) .dir).put (key (entryPath [117] [120]))
    (.file [7, 8])

theorem readable_oneFile {q content : List Byte} (holds : readable oneFile q = some content) :
    content = [7, 8] := by
  have found : oneFile.entry (key q) = some (.file content) := by
    have seen := (readable_eq_some holds).2.2.1
    unfold Fs.stat at seen
    split at seen
    · rename_i inside there
      split at seen
      · cases seen
      · exact there.trans seen
    · exact seen
  rw [oneFile] at found
  by_cases file : key q = key (entryPath [117] [120])
  · rw [file, entry_put_self (by decide +kernel)] at found
    cases found
    rfl
  · rw [entry_put_other file] at found
    by_cases directory : key q = key (syncDirWithPrefix [117])
    · rw [directory, entry_put_self (by decide +kernel)] at found
      cases found
    · rw [entry_put_other directory, Fs.entry] at found
      split at found
      · split at found <;> cases found
      · cases found

/-- The request for the file, in two reads. -/
def asked : List Segment :=
  [⟨(encodeString (entryPath [117] [120])).take 10, by decide +kernel⟩,
    ⟨(encodeString (entryPath [117] [120])).drop 10, by decide +kernel⟩]

/-- The file is sent, downloaded, listed and deleted, and then asked for once more. -/
def visit : List Step :=
  [⟨.upload (entryPath [117] [120]), oneFile, []⟩,
    ⟨.download (entryPath [117] [120]), oneFile, asked⟩,
    ⟨.getSyncDir, oneFile, []⟩,
    ⟨.delete (entryPath [117] [120]), oneFile, []⟩,
    ⟨.download (entryPath [117] [120]), .empty, asked⟩]

theorem visit_fair : ∀ s ∈ visit, Fair [117] 3 s := by
  have held : ∀ q content, readable oneFile q = some content → content.length < 3 := by
    intro q content holds
    rw [readable_oneFile holds]
    decide
  have bare : ∀ q content, readable .empty q = some content → content.length < 3 := by
    intro q content holds
    rw [readable_empty] at holds
    cases holds
  intro s member
  simp only [visit, List.mem_cons, List.not_mem_nil, or_false] at member
  rcases member with rfl | rfl | rfl | rfl | rfl
  · exact ⟨rfl, ⟨by decide +kernel, nofun⟩, held⟩
  · refine ⟨by decide +kernel, ⟨nofun, ?_⟩, held⟩
    rintro q ⟨⟩
    decide +kernel
  · exact ⟨rfl, ⟨by decide +kernel, nofun⟩, held⟩
  · exact ⟨rfl, ⟨by decide +kernel, nofun⟩, held⟩
  · refine ⟨by decide +kernel, ⟨nofun, ?_⟩, bare⟩
    rintro q ⟨⟩
    decide +kernel

theorem visit_sendable : ∀ s ∈ visit, Sendable [117] s.fs s.op := by
  have there : (readable oneFile (entryPath [117] [120])).isSome = true := by decide +kernel
  intro s member
  simp only [visit, List.mem_cons, List.not_mem_nil, or_false] at member
  rcases member with rfl | rfl | rfl | rfl | rfl
  · exact there
  · exact .inr ⟨by decide +kernel, there⟩
  · exact ⟨[[120]], by decide +kernel, by decide +kernel⟩
  · trivial
  · exact .inl (by decide +kernel)

theorem framing_iff_sendable_visit :
    List.Forall₂ (fun s bytes => Framed s.op bytes ∧ Recovered [117] s.fs s.op bytes) visit
      (appended 3 [117] visit (.fresh (fun _ => 0) []) idleMachine) :=
  (framing_iff_sendable [117] 3 (fun _ => 0) [] idleMachine visit rfl rfl rfl visit_fair).1.mpr
    visit_sendable

/-- The file of an upload is gone: command and path are left on the stream. -/
def vanished : Step := ⟨.upload [97], .empty, []⟩

theorem vanished_file_breaks_framing :
    ¬ ∀ (user : List Byte) (fuel : Nat) (mem : Nat → Byte) (p : Path) (m : Machine)
      (steps : List Step), m.accepts = [] → m.world.rcvd = [] → m.world.sent = [] →
        (∀ s ∈ steps, Fair user fuel s) →
        List.Forall₂ (fun s bytes => Framed s.op bytes ∧ Recovered user s.fs s.op bytes) steps
          (appended fuel user steps (.fresh mem p) m) := by
  intro claim
  have short : Short [] .empty (.upload [97]) := by
    refine ⟨?_, nofun⟩
    intro q sent
    obtain rfl := List.mem_singleton.mp sent
    decide
  have fair : ∀ s ∈ [vanished], Fair [] 1 s := by
    intro s member
    obtain rfl := List.mem_singleton.mp member
    exact ⟨rfl, short, fun q content holds => absurd holds (by simp [vanished, readable_empty])⟩
  have idle : Idle [] [] (FileExchange.fresh (fun _ => 0) []) idleMachine :=
    idle_fresh (fun _ => 0) [] rfl rfl rfl
  have correct := claim [] 1 (fun _ => 0) [] idleMachine [vanished] rfl rfl rfl fair
  rw [appended_eq [vanished] idle fair, forall_map] at correct
  have sendable := sendable_of_framed short (correct vanished (List.mem_singleton_self _)).1
  exact absurd sendable (by simp [Sendable, readable_empty])

end DropboxSenderFraming
