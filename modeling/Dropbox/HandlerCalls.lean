import Dropbox.FileTouches
import Dropbox.HandlerThreads
import Dropbox.StreamCalls

/-!
The calls on files that the parts of a handler make, for any bytes received and whatever
other threads do to the store meanwhile: all are at path_ or in the user's own directory.
-/
namespace DropboxHandlerCalls
open Calls Programs DropboxFileStore DropboxDirectoryTree DropboxHost DropboxFileTouches
open DropboxSocketStream DropboxProtocol DropboxStreamCalls DropboxClientHandler
open DropboxHandlerThreads

/-- Strictly inside SyncDirPath. -/
def Below (username : List Byte) (k : Key) : Prop :=
  (key (syncDirWithPrefix username)).within k = true ∧ k ≠ key (syncDirWithPrefix username)

instance (username : List Byte) (k : Key) : Decidable (Below username k) :=
  inferInstanceAs (Decidable (_ ∧ _))

variable {username : List Byte} {L A B : Type}

/-- The calls a handler may make, whatever the other threads do to the files. -/
def confines (username : List Byte) : Env Sys Sys.Reply Unit where
  pre _ s := ∀ c, fileOf s = some c → ∀ fs, TreeShaped fs → ∀ k, Touches fs c k → Below username k
  post _ s r _ :=
    match s, r with
    | .file c, r => ∃ fs, TreeShaped fs ∧ r = (fileCall fs c).1
    | _, _ => True

/-- path_ before anything is received, or after a careful reception. -/
def Fine (username : List Byte) (p : Path) : Prop := p = [] ∨ Below username (key p)

/-- A computation on a part of the stream, without a call on the files. -/
def NoFiles (username : List Byte) (x : Io L A) : Prop :=
  ∀ (Q : Except Fault A → L → Unit → Prop) l, (∀ r k, Q r k ()) →
    Comp.ensures (confines username) x Q l ()

theorem noFiles_of_makes {x : Io L A} (made : Makes (fun s => fileOf s = none) x) :
    NoFiles username x := by
  intro Q l all
  have permitted : ∀ (g : Unit) (s : Sys), True → fileOf s = none →
      (confines username).pre g s := by
    intro g s _ none_there c same
    rw [none_there] at same
    cases same
  apply Comp.ensures_mono (ensures_makes permitted (fun _ _ _ _ _ _ _ => trivial) trivial made l)
  intro r k _ _
  exact all r k

theorem fileless : Network fun s => fileOf s = none :=
  ⟨⟨fun _ => rfl, fun _ => rfl⟩, fun _ => rfl⟩

/-- Its calls on the files stay inside, as does path_. -/
def Calm (username : List Byte) (x : Io FileExchange A) : Prop :=
  ∀ fe, Fine username fe.path →
    Comp.ensures (confines username) x (fun _ k _ => Fine username k.path) fe ()

theorem calm_pure (a : A) : Calm username (pure a : Io FileExchange A) := fun _ fine => fine

theorem calm_throw (f : Fault) : Calm username (Comp.throw f : Io FileExchange A) :=
  fun _ fine => fine

theorem calm_bind {x : Io FileExchange A} {f : A → Io FileExchange B} (head : Calm username x)
    (tail : ∀ a, Calm username (f a)) : Calm username (x >>= f) := by
  intro fe fine
  rw [Comp.ensures_bind]
  apply Comp.ensures_mono (head fe fine)
  intro r k g fine'
  cases r with
  | ok a => exact tail a k fine'
  | error f => exact fine'

theorem calm_tryCatch {x : Io FileExchange A} {handler : Fault → Io FileExchange A}
    (tried : Calm username x) (handled : ∀ f, Calm username (handler f)) :
    Calm username (DropboxHost.tryCatch x handler) := by
  intro fe fine
  rw [DropboxHost.tryCatch, Comp.ensures_catching]
  apply Comp.ensures_mono (tried fe fine)
  intro r k g fine'
  cases r with
  | ok a => exact fine'
  | error f =>
    rw [Comp.either_error]
    split
    · exact handled f k fine'
    · exact fine'

theorem calm_noexcept {x : Io FileExchange A} (tried : Calm username x) :
    Calm username (noexcept x) := calm_tryCatch tried fun _ => calm_throw _

theorem calm_orThrow {x : Io FileExchange (Option A)} (asked : Calm username x) :
    Calm username (orThrow x) := by
  refine calm_bind asked ?_
  intro r
  cases r with
  | none => exact calm_throw _
  | some a => exact calm_pure a

theorem calm_onStream {x : Io SocketStream A} (inner : Makes (fun s => fileOf s = none) x) :
    Calm username (onStream x) := by
  intro fe fine
  rw [onStream, Comp.ensures_zoom]
  exact noFiles_of_makes inner _ _ fun _ _ => fine

theorem calm_onRdbuf {x : Io SocketBuffer A} (inner : Makes (fun s => fileOf s = none) x) :
    Calm username (onRdbuf x) := calm_onStream (makes_zoom inner)

theorem calm_saves {x : Io SocketBuffer A} (saves : Makes (fun s => fileOf s = none) x) :
    Calm username (onRdbuf do outputArchive; x) :=
  calm_onRdbuf (makes_bind (makes_outputArchive fileless) fun _ => saves)

theorem calm_loads {x : Bool → Io SocketBuffer A}
    (loads : ∀ swap, Makes (fun s => fileOf s = none) (x swap)) :
    Calm username (onRdbuf do let swap ← inputArchive; x swap) :=
  calm_onRdbuf (makes_bind (makes_inputArchive fileless.toWire) loads)

theorem calm_call {s : Sys} (allowed : ∀ c, fileOf s = some c → ∀ fs, TreeShaped fs → ∀ k,
    Touches fs c k → Below username k) : Calm username (Comp.call s : Io FileExchange s.Reply) :=
  fun _ fine => ⟨allowed, fun _ _ _ => fine⟩

theorem calm_note (e : Event) : Calm username (note e) := by
  refine calm_call ?_
  intro c same
  cases same

theorem calm_getPath {f : Path → Io FileExchange A}
    (tail : ∀ p, Fine username p → Calm username (f p)) : Calm username (getPath >>= f) :=
  fun fe fine => tail fe.path fine fe fine

theorem calm_setPath {p : Path} (fine : Fine username p) : Calm username (setPath p) :=
  fun _ _ => fine

theorem entry_empty (fs : Fs) : fs.entry (key []) = none := by
  simp [key, cString, names, isAbsolute, Fs.entry]

theorem below_within {k q : Key} (below : Below username k) (inside : k.within q = true) :
    Below username q := by
  obtain ⟨within, apart⟩ := below
  obtain ⟨front, same⟩ := within_iff.mp within
  obtain ⟨more, rfl⟩ := within_iff.mp inside
  rw [same] at apart ⊢
  refine ⟨within_iff.mpr ⟨front ++ more, by simp⟩, ?_⟩
  intro equal
  have sizes := congrArg (fun k : Key => k.names.length) equal
  simp only [List.length_append] at sizes
  have empty : front = [] := List.eq_nil_of_length_eq_zero (by omega)
  exact apart (by rw [empty, List.append_nil])

/-- A call on the entry that path_ names. -/
def CallAt (p : Path) : FileCall → Prop
  | .isRegularFile q | .pathExists q | .remove q | .removeAll q | .createDirectory q | .openOut q
  | .writeOut q _ | .openIn q | .fileSize q | .readIn q _ _ => q = p
  | .copyFile _ _ | .listDirectory _ | .directoryTable _ => False

theorem below_of_entry {p : Path} {fs gs : Fs} (fine : Fine username p)
    (there : fs.entry (key p) ≠ none ∨ gs.entry (key p) ≠ none) : Below username (key p) := by
  rcases fine with rfl | below
  · rw [entry_empty, entry_empty] at there
    simp at there
  · exact below

theorem confines_callAt {p : Path} {c : FileCall} (fine : Fine username p) (here : CallAt p c) :
    ∀ fs, TreeShaped fs → ∀ k, Touches fs c k → Below username k := by
  intro fs _ k touched
  cases c with
  | copyFile q r => cases here
  | listDirectory q => cases here
  | directoryTable q => cases here
  | removeAll q =>
    obtain rfl := here
    obtain ⟨inside, there, _⟩ := touched
    exact below_within (below_of_entry fine (Or.inl there : _ ∨ fs.entry (key q) ≠ none)) inside
  | isRegularFile q | pathExists q | remove q | createDirectory q | openOut q | writeOut q bytes
  | openIn q | fileSize q | readIn q pos n =>
    obtain rfl := here
    obtain ⟨rfl, there⟩ := touched
    exact below_of_entry fine there

theorem calm_file {p : Path} {c : FileCall} (fine : Fine username p) (here : CallAt p c) :
    Calm username (onFiles c) := by
  refine calm_call ?_
  intro d same
  cases same
  exact confines_callAt fine here

theorem calm_broadcast {e : Event} (reads : ∀ p, e = .broadcastUpload p → Fine username p) :
    Calm username (broadcast e) := by
  refine calm_call ?_
  intro c same
  cases e with
  | broadcastUpload p =>
    cases same
    exact confines_callAt (reads p rfl) rfl
  | _ => cases same

theorem calm_ensures {x : Io FileExchange A} (calm : Calm username x) {fe : FileExchange}
    (fine : Fine username fe.path) :
    Comp.ensures (confines username) x (fun _ k _ => Fine username k.path) fe () := calm fe fine

-- From here on the rules alone take a computation apart.
attribute [local irreducible] Calm

theorem calm_flush : Calm username flushExchange := calm_onStream (makes_flush fileless.toWire)

theorem calm_receiveCommand : Calm username receiveCommand := by
  refine calm_tryCatch ?_ ?_
  · apply calm_bind
    · exact calm_loads fun _ => makes_loadBinary fileless.toWire 1
    · exact fun _ => calm_pure _
  · intro f
    split <;> exact calm_pure _

theorem calm_sendCommand (c : Command) : Calm username (sendCommand c) :=
  calm_noexcept (calm_saves (makes_saveBinary fileless _))

theorem calm_sendPath : Calm username sendPath := by
  refine calm_tryCatch ?_ ?_
  · apply calm_getPath
    intro p fine
    refine calm_bind ?_ ?_
    · exact calm_saves (makes_saveString fileless _)
    · exact fun _ => calm_pure _
  · exact fun _ => calm_pure _

theorem calm_sendLoop {p : Path} (fine : Fine username p) (fuel pos : Nat) :
    Calm username (sendLoop p fuel pos) := by
  induction fuel generalizing pos with
  | zero => exact calm_throw _
  | succ fuel ih =>
    refine calm_bind (calm_file fine rfl) ?_
    intro r
    cases r with
    | none =>
      refine calm_bind (calm_onStream (makes_write fileless _)) ?_
      exact fun _ => ih pos
    | some bytes =>
      refine calm_bind (calm_onStream (makes_write fileless _)) ?_
      intro _
      split
      · exact calm_pure _
      · exact ih _

theorem calm_send (fuel : Nat) : Calm username (send fuel) := by
  refine calm_getPath ?_
  intro p fine
  refine calm_bind (calm_file fine rfl) ?_
  intro opened
  split
  · apply calm_tryCatch
    · refine calm_bind (calm_orThrow (calm_file fine rfl)) ?_
      intro size
      refine calm_bind ?_ ?_
      · exact calm_saves (makes_saveBinary fileless _)
      · intro _
        exact calm_bind (calm_sendLoop fine fuel 0) fun _ => calm_pure _
    · exact fun _ => calm_pure _
  · exact calm_pure _

theorem calm_receiveLoop {p : Path} (fine : Fine username p) (fuel : Nat) (remaining : Int) :
    Calm username (receiveLoop p fuel remaining) := by
  induction fuel generalizing remaining with
  | zero => exact calm_throw _
  | succ fuel ih =>
    rw [receiveLoop]
    split
    · exact calm_pure _
    · apply calm_bind (calm_onStream (makes_read fileless.toWire _))
      intro bytes
      refine calm_bind (calm_file fine rfl) ?_
      exact fun _ => ih _

theorem calm_prepare {p : Path} (fine : Fine username p) : Calm username (prepare p) := by
  refine calm_bind (calm_orThrow (calm_file fine rfl)) ?_
  intro regular
  dsimp only
  split
  · exact calm_file fine rfl
  · refine calm_bind (calm_orThrow (calm_file fine rfl)) ?_
    exact fun _ => calm_file fine rfl

theorem calm_receive (fuel : Nat) : Calm username (receive fuel) := by
  refine calm_noexcept ?_
  refine calm_getPath ?_
  intro p fine
  refine calm_bind (calm_prepare fine) ?_
  intro opened
  split
  · apply calm_tryCatch
    · apply calm_bind
      · exact calm_loads (makes_loadWord fileless.toWire)
      · intro bits
        exact calm_bind (calm_receiveLoop fine fuel _) fun _ => calm_pure _
    · exact fun _ => calm_pure _
  · exact calm_pure _

theorem calm_receivePath {fe : FileExchange} (fine : Fine username fe.path) :
    Comp.ensures (confines username) receivePath
      (fun r k _ => r ≠ .ok true → Fine username k.path) fe () := by
  have loads : Calm username (onRdbuf do let swap ← inputArchive; loadString swap) :=
    calm_loads (makes_loadString fileless.toWire)
  rw [receivePath, DropboxHost.tryCatch, Comp.ensures_catching, Comp.ensures_bind]
  apply Comp.ensures_mono (calm_ensures loads fine)
  intro r k g fine'
  cases r with
  | ok text => exact fun other => absurd rfl other
  | error f =>
    rw [Comp.either_error, Comp.either_error]
    split
    · exact fun _ => fine'
    · exact fun _ => fine'

attribute [local irreducible] Comp.ensures

theorem calm_naming {fe : FileExchange} (fine : Fine username fe.path) (kind : Kind)
    (c : Option Command) : Comp.ensures (confines username) (naming kind c)
      (fun r k _ => r ≠ .ok true → Fine username k.path) fe () := by
  cases kind with
  | payload =>
    rw [naming, Comp.ensures_bind]
    apply Comp.ensures_mono (calm_ensures (calm_note _) fine)
    intro r k g fine'
    cases r with
    | ok _ => exact calm_receivePath fine'
    | error f => exact fun _ => fine'
  | clientSync =>
    rw [naming]
    exact calm_receivePath fine

theorem calm_handle (fuel : Nat) (c : Option Command) (received : Bool) :
    Calm username (handle fuel c received) := by
  unfold handle
  split
  · apply calm_bind (calm_receive fuel)
    intro stored
    split
    · apply calm_getPath
      intro p fine
      refine calm_broadcast ?_
      rintro q ⟨⟩
      exact fine
    · exact calm_pure _
  · apply calm_getPath
    intro p fine
    refine calm_bind (calm_orThrow (calm_file fine rfl)) ?_
    intro there
    split
    · exact calm_bind (calm_sendCommand _) fun _ => calm_send fuel
    · exact calm_bind (calm_sendCommand _) fun _ => calm_pure _
  · apply calm_getPath
    intro p fine
    refine calm_bind (calm_orThrow (calm_file fine rfl)) ?_
    intro there
    split
    · refine calm_bind (calm_orThrow (calm_file fine rfl)) ?_
      intro _
      refine calm_broadcast ?_
      rintro q ⟨⟩
    · exact calm_pure _
  · exact calm_pure _

theorem calm_afterPath (fuel : Nat) (kind : Kind) (c : Option Command) (received : Bool) :
    Calm username (afterPath fuel kind c received) := by
  unfold afterPath
  split
  · apply calm_bind (calm_handle fuel _ received)
    exact fun _ => calm_bind calm_flush fun _ => calm_pure _
  · apply calm_bind (calm_receive fuel)
    intro _
    refine calm_getPath ?_
    intro p fine
    refine calm_bind (calm_broadcast ?_) fun _ => calm_pure _
    rintro q ⟨⟩
    exact fine
  · apply calm_getPath
    intro p fine
    refine calm_bind (calm_orThrow (calm_file fine rfl)) fun _ => ?_
    refine calm_bind (calm_broadcast ?_) fun _ => calm_pure _
    rintro q ⟨⟩
  · exact calm_pure _

theorem below_child {below : List Path} (deeper : below ≠ []) :
    Below username (child (syncDirWithPrefix username) below) := by
  refine ⟨within_iff.mpr ⟨below, rfl⟩, ?_⟩
  rw [← child_nil (syncDirWithPrefix username)]
  simpa [child] using deeper

theorem calm_listServer : Calm username (listServer username) := by
  refine calm_noexcept ?_
  refine calm_bind ?_ ?_
  · apply calm_orThrow
    refine calm_call ?_
    rintro c ⟨⟩ fs _ k ⟨⟨name, rfl⟩, _⟩
    exact below_child (by simp)
  · intro table
    refine calm_tryCatch ?_ ?_
    · apply calm_bind
      · exact calm_saves (makes_saveString fileless _)
      · exact fun _ => calm_pure _
    · exact fun _ => calm_pure _

theorem calm_pathless (fuel : Nat) (kind : Kind) {c : Option Command}
    (other : namesPath kind c ≠ true) : Calm username (pathless fuel username kind c) := by
  cases kind with
  | clientSync => exact calm_pure _
  | payload =>
    have serves : Calm username (serve fuel username c) := by
      obtain _ | c := c
      · exact calm_pure _
      · cases c with
        | kUpload => exact (other rfl).elim
        | kDownload => exact (other rfl).elim
        | kDelete => exact (other rfl).elim
        | kListServer => exact calm_bind calm_listServer fun _ => calm_pure _
        | _ => exact calm_pure _
    refine calm_bind (calm_note _) ?_
    intro _
    refine calm_bind serves ?_
    exact fun _ => calm_bind calm_flush fun _ => calm_pure _

theorem calm_sendEntries (ends : 0 ∉ username) (fuel : Nat) {listed : List Path}
    (plain : ∀ name ∈ listed, Plain name) :
    Calm username (sendEntries fuel (syncDirWithPrefix username) listed) := by
  induction listed with
  | nil => exact calm_bind (calm_sendCommand _) fun _ => calm_pure _
  | cons name rest ih =>
    have first := plain name List.mem_cons_self
    have fine : Fine username (joinPath (syncDirWithPrefix username) (filename name)) := by
      right
      rw [filename_plain first, key_joinPath (by simp [syncDirWithPrefix, kSyncDirPrefix])
        (by simp [syncDirWithPrefix, kSyncDirPrefix, ends]) first]
      exact below_child (by simp)
    refine calm_bind (calm_sendCommand _) ?_
    intro _
    refine calm_bind (calm_setPath fine) ?_
    intro _
    refine calm_bind calm_sendPath ?_
    intro sent
    split
    · apply calm_bind (calm_send fuel)
      intro done
      split
      · exact ih fun other member => plain other (List.mem_cons_of_mem _ member)
      · exact calm_pure _
    · exact calm_pure _

theorem calm_getSyncDir (ends : 0 ∉ username) (fuel : Nat) :
    Calm username (getSyncDir fuel username) := by
  unfold Calm
  intro fe fine
  rw [getSyncDir, Comp.ensures_bind, orThrow, Comp.ensures_bind, onFiles, Comp.ensures_call]
  constructor
  · rintro c ⟨⟩ fs _ k ⟨⟨name, rfl⟩, _⟩
    exact below_child (by simp)
  · rintro reply g ⟨fs, tree, rfl⟩
    rw [Comp.either_ok]
    cases lists : listDirectory fs (syncDirWithPrefix username) with
    | none =>
      simp only [fileCall, lists]
      exact Comp.ensures_throw.mpr fine
    | some listed =>
      simp only [fileCall, lists, Comp.ensures_pure, Comp.either_ok]
      exact calm_ensures (calm_sendEntries ends fuel (listed_plain tree lists)) fine

theorem calm_opening (ends : 0 ∉ username) (fuel : Nat) (servers : List Byte) (kind : Kind) :
    Calm username (opening fuel username servers kind) := by
  cases kind with
  | payload => exact calm_bind (calm_getSyncDir ends fuel) fun _ => calm_pure _
  | clientSync =>
    refine calm_bind ?_ ?_
    · exact calm_saves (makes_saveString fileless _)
    · exact fun _ => calm_bind calm_flush fun _ => calm_pure _

end DropboxHandlerCalls
