import Dropbox.BroadcastLock
import Dropbox.DeviceThreads
import Dropbox.Replication

/-!
A device that joins while others change files: ClientComposite::Emplace with GetSyncDir
in the constructor of ClientHandler, Remove, and BroadcastCommand under the locking of
BroadcastLock. A file is received bit by bit, without a lock, and sent in one step.
The backups and the mutex of the pool are left out.
-/
namespace DropboxDeviceJoin
open Transitions DropboxBroadcastLock
open DropboxReplication (Message Method applyMessage)
open DropboxDeviceThreads (kDeviceLimit)
variable {P V T C D : Type} [DecidableEq P] [DecidableEq T] [DecidableEq C] [DecidableEq D]

/-- What a thread of a handler is about. -/
inductive Work (P D : Type) where
  | free
  | storing (path : P)                                -- Receive writes the file
  | due (method : Method) (path : P)                  -- BroadcastCommand is called
  | sending (method : Method) (path : P) (left : List D)   -- in its loop
  | constructing                                      -- in emplace_back, before GetSyncDir
  | serving (names : List P)                          -- GetSyncDir still has to send these
  | removing
  deriving DecidableEq, Repr

/-- `channel` is what the device has not gone through yet: the payload connection with what
    GetSyncDir sent, then the connection for changes. `copy` is its sync directory. -/
structure State (P V T C D : Type) where
  lock : DropboxBroadcastLock.State T C
  work : T → Work P D
  files : C → P → Option V
  list : C → List D
  channel : D → List (Message P V)
  copy : D → P → Option V

def start (files : C → P → Option V) : State P V T C D :=
  ⟨DropboxBroadcastLock.start, fun _ => .free, files, fun _ => [], fun _ => [], fun _ _ => none⟩

/-- `erase` is the end of Remove. The names are what directory_iterator came upon. -/
inductive Action (P V T C D : Type) where
  | write (t : T) (path : P) (content : V)
  | close (t : T)
  | delete (t : T) (path : P) (checked : Bool)
  | lock (a : DropboxBroadcastLock.Action T C)
  | send (t : T)
  | emplace (t : T)
  | list (t : T) (names : List P)
  | serve (t : T)
  | construct (t : T)
  | remove (t : T)
  | erase (t : T)
  | apply (d : D)

def State.setWork (s : State P V T C D) (t : T) (w : Work P D) : State P V T C D :=
  { s with work := Function.update s.work t w }

def State.store (s : State P V T C D) (c : C) (path : P) (content : Option V) : State P V T C D :=
  { s with files := Function.update s.files c (Function.update (s.files c) path content) }

def State.post (s : State P V T C D) (d : D) (m : Message P V) : State P V T C D :=
  { s with channel := Function.update s.channel d (s.channel d ++ [m]) }

/-- The device connects anew, with an empty sync directory. -/
def State.connect (s : State P V T C D) (d : D) : State P V T C D :=
  { s with
    channel := Function.update s.channel d [], copy := Function.update s.copy d fun _ => none }

section Steps
variable (device : T → D) (username : D → C)

/-- The loop of BroadcastCommand begins when its thread iterates, and is over at the decrement. -/
def locked (s : State P V T C D) (l : DropboxBroadcastLock.State T C) :
    DropboxBroadcastLock.Action T C → Option (State P V T C D)
  | .increment t c =>
    match s.work t with
    | .due _ _ => if c = username (device t) then some { s with lock := l } else none
    | _ => none
  | .testFirst t | .lock t =>
    match s.work t, l.thread t with
    | .due method path, .iterating c =>
      some (({ s with lock := l } : State P V T C D).setWork t
        (.sending method path ((s.list c).filter (· ≠ device t))))
    | _, _ => some { s with lock := l }
  | .sendFails t => some (({ s with lock := l } : State P V T C D).setWork t .free)
  | .decrement t =>
    match s.work t with
    | .sending _ _ [] => some (({ s with lock := l } : State P V T C D).setWork t .free)
    | _ => none
  | .testLast _ | .unlock _ => some { s with lock := l }
  | .guard _ _ | .release _ => none   -- these come with emplace, construct, remove and erase

def joinStep (s : State P V T C D) : Action P V T C D → Option (State P V T C D)
  | .write t path content =>
    match s.work t with
    | .free =>
      if s.lock.thread t = .outside then
        some ((s.store (username (device t)) path (some content)).setWork t (.storing path))
      else none
    | .storing before =>
      if path = before then
        some ((s.store (username (device t)) path (some content)).setWork t (.storing path))
      else none
    | _ => none
  | .close t =>
    match s.work t with
    | .storing path => some (s.setWork t (.due .upload path))
    | _ => none
  | .delete t path checked =>
    match s.work t with
    | .free =>
      if s.lock.thread t = .outside then
        if checked = true ∧ (s.files (username (device t)) path).isNone = true then some s
        else some ((s.store (username (device t)) path none).setWork t (.due .delete path))
      else none
    | _ => none
  | .lock a => (lockStep s.lock a).bind fun l => locked device username s l a
  | .send t =>
    match s.work t with
    | .sending .delete path (d :: left) =>
      some ((s.post d (.delete path)).setWork t (.sending .delete path left))
    | .sending .upload path (d :: left) =>
      -- where the file is gone the send fails
      (s.files (username (device t)) path).map fun content =>
        (s.post d (.upload path content)).setWork t (.sending .upload path left)
    | _ => none
  | .emplace t =>
    match s.work t with
    | .free =>
      -- accept never answers with a descriptor that is open
      if device t ∈ s.list (username (device t)) then none
      else (lockStep s.lock (.guard t (username (device t)))).map fun l =>
        if kDeviceLimit ≤ (s.list (username (device t))).length then s
        else (({ s with lock := l } : State P V T C D).connect (device t)).setWork t .constructing
    | _ => none
  | .list t names =>
    match s.work t with
    | .constructing => some (s.setWork t (.serving names))
    | _ => none
  | .serve t =>
    match s.work t with
    | .serving (name :: rest) =>
      match s.files (username (device t)) name with
      | some content => some ((s.post (device t) (.upload name content)).setWork t (.serving rest))
      | none => some (s.setWork t (.serving []))   -- GetSyncDir returns false
    | _ => none
  | .construct t =>
    match s.work t with
    | .serving [] =>
      (lockStep s.lock (.release t)).map fun l =>
        ({ s with
          lock := l
          list := Function.update s.list (username (device t))
            (s.list (username (device t)) ++ [device t]) } : State P V T C D).setWork t .free
    | _ => none
  | .remove t =>
    match s.work t with
    | .free =>
      (lockStep s.lock (.guard t (username (device t)))).map fun l =>
        ({ s with lock := l } : State P V T C D).setWork t .removing
    | _ => none
  | .erase t =>
    match s.work t with
    | .removing =>
      (lockStep s.lock (.release t)).map fun l =>
        ({ s with
          lock := l
          list := Function.update s.list (username (device t))
            ((s.list (username (device t))).filter (· ≠ device t)) } :
          State P V T C D).setWork t .free
    | _ => none
  | .apply d =>
    match s.channel d with
    | [] => none
    | m :: rest =>
      some { s with
        copy := Function.update s.copy d (applyMessage (s.copy d) m)
        channel := Function.update s.channel d rest }

/-- What each step finds and does. -/
inductive Stepped (s : State P V T C D) : Action P V T C D → State P V T C D → Prop where
  | write (t : T) (path : P) (content : V)
      (ready : s.work t = .free ∨ s.work t = .storing path) :
    Stepped s (.write t path content)
      ((s.store (username (device t)) path (some content)).setWork t (.storing path))
  | close (t : T) (path : P) (storing : s.work t = .storing path) :
    Stepped s (.close t) (s.setWork t (.due .upload path))
  | absent (t : T) (path : P) (checked : Bool) : Stepped s (.delete t path checked) s
  | delete (t : T) (path : P) (checked : Bool) (free : s.work t = .free) :
    Stepped s (.delete t path checked)
      ((s.store (username (device t)) path none).setWork t (.due .delete path))
  | moved (a : DropboxBroadcastLock.Action T C) (l : DropboxBroadcastLock.State T C)
      (taken : lockStep s.lock a = some l)
      (enters : ∀ t c, a = .increment t c ∨ a = .guard t c → c = username (device t))
      (stays : ∀ t, a ≠ .sendFails t ∧ a ≠ .decrement t ∧ a ≠ .release t) :
    Stepped s (.lock a) { s with lock := l }
  | begins (a : DropboxBroadcastLock.Action T C) (l : DropboxBroadcastLock.State T C) (t : T)
      (method : Method) (path : P) (c : C) (taken : lockStep s.lock a = some l)
      (first : a = .testFirst t ∨ a = .lock t) (due : s.work t = .due method path)
      (iterates : l.thread t = .iterating c) :
    Stepped s (.lock a) (({ s with lock := l } : State P V T C D).setWork t
      (.sending method path ((s.list c).filter (· ≠ device t))))
  | fails (t : T) (l : DropboxBroadcastLock.State T C)
      (taken : lockStep s.lock (.sendFails t) = some l) :
    Stepped s (.lock (.sendFails t)) (({ s with lock := l } : State P V T C D).setWork t .free)
  | ends (t : T) (l : DropboxBroadcastLock.State T C) (method : Method) (path : P)
      (taken : lockStep s.lock (.decrement t) = some l)
      (sent : s.work t = .sending method path []) :
    Stepped s (.lock (.decrement t)) (({ s with lock := l } : State P V T C D).setWork t .free)
  | send (t : T) (method : Method) (path : P) (d : D) (left : List D) (m : Message P V)
      (sending : s.work t = .sending method path (d :: left))
      (message : (method = .delete ∧ m = .delete path) ∨
        ∃ content, s.files (username (device t)) path = some content ∧ m = .upload path content) :
    Stepped s (.send t) ((s.post d m).setWork t (.sending method path left))
  | full (t : T) : Stepped s (.emplace t) s
  | emplace (t : T) (l : DropboxBroadcastLock.State T C) (free : s.work t = .free)
      (unlisted : device t ∉ s.list (username (device t)))
      (taken : lockStep s.lock (.guard t (username (device t))) = some l) :
    Stepped s (.emplace t)
      ((({ s with lock := l } : State P V T C D).connect (device t)).setWork t .constructing)
  | list (t : T) (names : List P) (here : s.work t = .constructing) :
    Stepped s (.list t names) (s.setWork t (.serving names))
  | serve (t : T) (name : P) (rest : List P) (content : V)
      (serving : s.work t = .serving (name :: rest))
      (found : s.files (username (device t)) name = some content) :
    Stepped s (.serve t) ((s.post (device t) (.upload name content)).setWork t (.serving rest))
  | cut (t : T) (name : P) (rest : List P) (serving : s.work t = .serving (name :: rest))
      (gone : s.files (username (device t)) name = none) :
    Stepped s (.serve t) (s.setWork t (.serving []))
  | construct (t : T) (l : DropboxBroadcastLock.State T C) (served : s.work t = .serving [])
      (taken : lockStep s.lock (.release t) = some l) :
    Stepped s (.construct t) (({ s with
      lock := l
      list := Function.update s.list (username (device t))
        (s.list (username (device t)) ++ [device t]) } : State P V T C D).setWork t .free)
  | remove (t : T) (l : DropboxBroadcastLock.State T C) (free : s.work t = .free)
      (taken : lockStep s.lock (.guard t (username (device t))) = some l) :
    Stepped s (.remove t) (({ s with lock := l } : State P V T C D).setWork t .removing)
  | erase (t : T) (l : DropboxBroadcastLock.State T C) (removing : s.work t = .removing)
      (taken : lockStep s.lock (.release t) = some l) :
    Stepped s (.erase t) (({ s with
      lock := l
      list := Function.update s.list (username (device t))
        ((s.list (username (device t))).filter (· ≠ device t)) } :
      State P V T C D).setWork t .free)
  | apply (d : D) (m : Message P V) (rest : List (Message P V)) (head : s.channel d = m :: rest) :
    Stepped s (.apply d) { s with
      copy := Function.update s.copy d (applyMessage (s.copy d) m)
      channel := Function.update s.channel d rest }

variable {device username}

theorem locked_cases {s u : State P V T C D} {a : DropboxBroadcastLock.Action T C}
    {l : DropboxBroadcastLock.State T C} (taken : lockStep s.lock a = some l)
    (step : locked device username s l a = some u) : Stepped device username s (.lock a) u := by
  cases a with
  | increment t c =>
    simp only [locked] at step
    split at step
    · split at step
      · rename_i own
        cases step
        refine .moved _ l taken ?_ (by simp)
        intro v e enters
        cases enters with
        | inl same =>
          cases same
          exact own
        | inr same => cases same
      · cases step
    · cases step
  | testFirst t =>
    simp only [locked] at step
    split at step
    · rename_i method path c due iterates
      cases step
      exact .begins _ l t method path c taken (Or.inl rfl) due iterates
    · cases step
      exact .moved _ l taken (by simp) (by simp)
  | lock t =>
    simp only [locked] at step
    split at step
    · rename_i method path c due iterates
      cases step
      exact .begins _ l t method path c taken (Or.inr rfl) due iterates
    · cases step
      exact .moved _ l taken (by simp) (by simp)
  | sendFails t =>
    cases step
    exact .fails t l taken
  | decrement t =>
    simp only [locked] at step
    split at step
    · rename_i method path sent
      cases step
      exact .ends t l method path taken sent
    · cases step
  | testLast t =>
    cases step
    exact .moved _ l taken (by simp) (by simp)
  | unlock t =>
    cases step
    exact .moved _ l taken (by simp) (by simp)
  | guard t c => cases step
  | release t => cases step

theorem step_cases {s u : State P V T C D} {a : Action P V T C D}
    (step : joinStep device username s a = some u) : Stepped device username s a u := by
  cases a with
  | write t path content =>
    simp only [joinStep] at step
    split at step
    · rename_i free
      split at step
      · cases step
        exact .write t path content (Or.inl free)
      · cases step
    · rename_i before storing
      split at step
      · rename_i same
        cases step
        exact .write t path content (Or.inr (by rw [storing, same]))
      · cases step
    · cases step
  | close t =>
    simp only [joinStep] at step
    split at step
    · rename_i path storing
      cases step
      exact .close t path storing
    · cases step
  | delete t path checked =>
    simp only [joinStep] at step
    split at step
    · rename_i free
      split at step
      · split at step
        · cases step
          exact .absent t path checked
        · cases step
          exact .delete t path checked free
      · cases step
    · cases step
  | lock a =>
    obtain ⟨l, taken, beside⟩ := Option.bind_eq_some_iff.mp step
    exact locked_cases taken beside
  | send t =>
    simp only [joinStep] at step
    split at step
    · rename_i path d left sending
      cases step
      exact .send t .delete path d left _ sending (Or.inl ⟨rfl, rfl⟩)
    · rename_i path d left sending
      obtain ⟨content, found, rfl⟩ := Option.map_eq_some_iff.mp step
      exact .send t .upload path d left _ sending (Or.inr ⟨content, found, rfl⟩)
    · cases step
  | emplace t =>
    simp only [joinStep] at step
    split at step
    · rename_i free
      split at step
      · cases step
      · rename_i unlisted
        obtain ⟨l, taken, ends⟩ := Option.map_eq_some_iff.mp step
        split at ends
        · obtain rfl := ends
          exact .full t
        · obtain rfl := ends
          exact .emplace t l free unlisted taken
    · cases step
  | list t names =>
    simp only [joinStep] at step
    split at step
    · rename_i here
      cases step
      exact .list t names here
    · cases step
  | serve t =>
    simp only [joinStep] at step
    split at step
    · rename_i name rest serving
      split at step
      · rename_i content found
        cases step
        exact .serve t name rest content serving found
      · rename_i gone
        cases step
        exact .cut t name rest serving gone
    · cases step
  | construct t =>
    simp only [joinStep] at step
    split at step
    · rename_i served
      obtain ⟨l, taken, rfl⟩ := Option.map_eq_some_iff.mp step
      exact .construct t l served taken
    · cases step
  | remove t =>
    simp only [joinStep] at step
    split at step
    · rename_i free
      obtain ⟨l, taken, rfl⟩ := Option.map_eq_some_iff.mp step
      exact .remove t l free taken
    · cases step
  | erase t =>
    simp only [joinStep] at step
    split at step
    · rename_i removing
      obtain ⟨l, taken, rfl⟩ := Option.map_eq_some_iff.mp step
      exact .erase t l removing taken
    · cases step
  | apply d =>
    simp only [joinStep] at step
    split at step
    · cases step
    · rename_i m rest head
      cases step
      exact .apply d m rest head

end Steps

section Places
variable {l m : DropboxBroadcastLock.State T C} {a : DropboxBroadcastLock.Action T C}

/-- The one thread that a step of the locking moves, and where from and to. -/
inductive Moves : DropboxBroadcastLock.Action T C → T → Position C → Position C → Prop where
  | increment (t : T) (c : C) : Moves (.increment t c) t .outside (.entered c)
  | first (t : T) (c : C) : Moves (.testFirst t) t (.entered c) (.locking c)
  | beside (t : T) (c : C) : Moves (.testFirst t) t (.entered c) (.iterating c)
  | lock (t : T) (c : C) : Moves (.lock t) t (.locking c) (.iterating c)
  | sendFails (t : T) (c : C) : Moves (.sendFails t) t (.iterating c) .outside
  | decrement (t : T) (c : C) : Moves (.decrement t) t (.iterating c) (.leaving c)
  | last (t : T) (c : C) : Moves (.testLast t) t (.leaving c) (.unlocking c)
  | leave (t : T) (c : C) : Moves (.testLast t) t (.leaving c) .outside
  | unlock (t : T) (c : C) : Moves (.unlock t) t (.unlocking c) .outside
  | guard (t : T) (c : C) : Moves (.guard t c) t .outside (.changing c)
  | release (t : T) (c : C) : Moves (.release t) t (.changing c) .outside

/-- The composite a thread is in. -/
def composite : Position C → Option C
  | .entered c | .locking c | .iterating c | .leaving c | .unlocking c | .changing c => some c
  | .outside => none

end Places

/-- In Emplace or Remove. -/
def Work.changes : Work P D → Bool
  | .constructing | .serving _ | .removing => true
  | .free | .storing _ | .due _ _ | .sending _ _ _ => false

/-- The thread still has to say that this path has changed. -/
def Work.covers (w : Work P D) (path : P) (d : D) : Prop :=
  match w with
  | .storing q | .due _ q => q = path
  | .sending _ q left => q = path ∧ d ∈ left
  | .free | .constructing | .serving _ | .removing => False

section Listener
variable (device : T → D) (username : D → C) (d : D)

/-- A change of this path by the device's user is still to be passed on to it. -/
def Covered (s : State P V T C D) (path : P) : Prop :=
  ∃ t, username (device t) = username d ∧ (s.work t).covers path d

/-- The sync directory once the device has gone through its channel. -/
def settled (s : State P V T C D) : P → Option V := (s.channel d).foldl applyMessage (s.copy d)

variable [Fintype T]

/-- The locking is as it should be, no delete is sent stale, directory_iterator leaves out no file
    but one that is being changed, and what it names is still there when its turn comes. The device
    changes nothing itself. -/
def Careful (s : State P V T C D) : Action P V T C D → Prop
  | .write t _ _ | .delete t _ _ => device t ≠ d
  | .lock a => Calm s.lock a
  | .send t => ∀ path left, s.work t = .sending .delete path (d :: left) →
      s.files (username (device t)) path = none ∨
        Covered device username d (s.setWork t (.sending .delete path left)) path
  | .list t names => device t = d → ∀ path, s.files (username d) path ≠ none →
      path ∈ names ∨ Covered device username d s path
  | .serve t => device t = d → ∀ name rest, s.work t = .serving (name :: rest) →
      s.files (username d) name ≠ none
  | _ => True

/-- Where a thread is in the locking goes with what it is about. -/
structure Placed (s : State P V T C D) : Prop where
  orderly : Orderly s.lock
  own : ∀ t c, composite (s.lock.thread t) = some c → c = username (device t)
  sends : ∀ t method path left, s.work t = .sending method path left →
    s.lock.thread t = .iterating (username (device t))
  changes : ∀ t, (s.work t).changes = true → s.lock.thread t = .changing (username (device t))

/-- The device is in the list, or GetSyncDir still has to send it these. -/
def Follows (s : State P V T C D) (names : List P) : Prop :=
  (names = [] ∧ d ∈ s.list (username d)) ∨ ∃ t, device t = d ∧ s.work t = .serving names

variable {device username d}

section
omit [DecidableEq P] [DecidableEq D]

end

omit [DecidableEq T] [DecidableEq C] [Fintype T] in
theorem settled_post (s : State P V T C D) (m : Message P V) :
    settled d (s.post d m) = applyMessage (settled d s) m := by
  simp [settled, State.post]

section
omit [DecidableEq C]

end

end Listener

/-- The server's files before. -/
def oneFile : Unit → Nat → Option Nat := fun _ path => if path = 1 then some 5 else none

end DropboxDeviceJoin
