import Mathlib.Logic.Function.Basic
import Dropbox.General.Transitions
import Dropbox.Host

/-!
The client's watcher (client/inotify.cpp) after Start, the threads that pause it
while they change the sync directory (Client::SyncFromServer, Upload and Delete),
and the sending loop of Client::SyncFromClient. The kernel queue outlives a pause;
`appended`, `seen`, `handed` and `cleared` record what has happened so far.
-/
namespace DropboxWatcher
open Transitions DropboxHost
variable {N T : Type} [DecidableEq T]

/-- The bits of the watched mask. -/
inductive Kind where
  | closeWrite
  | movedTo
  | delete
  | movedFrom
  | modify
  deriving DecidableEq, Repr

/-- Who made the change: the local user, or one of the client's own threads. -/
inductive Origin where
  | user
  | own
  deriving DecidableEq, Repr

/-- An inotify_event; its `name` is empty (`none`) when it is about the directory itself. -/
structure KernelEvent (N : Type) where
  kind : Kind
  isDir : Bool
  name : Option N
  origin : Origin
  deriving DecidableEq, Repr

/-- Inotify::Action -/
structure LocalAction (N : Type) where
  command : Command
  path : N
  deriving DecidableEq, Repr

/-- The body of the loop over a batch. -/
def KernelEvent.action (e : KernelEvent N) : Option (LocalAction N) :=
  match e.name with
  | none => none
  | some name =>
    match e.kind with
    | .closeWrite | .movedTo => if e.isDir then none else some ⟨.kUpload, name⟩
    | .delete | .movedFrom => if e.isDir then none else some ⟨.kDelete, name⟩
    | .modify => none

/-- Where Inotify::MainLoop is. -/
inductive Watch (N : Type) where
  | reading
  | testing (batch : List (KernelEvent N))     -- before the test of pause_
  | appending (batch : List (KernelEvent N))   -- before collection_mutex_.lock()
  deriving DecidableEq, Repr

def Watch.batch : Watch N → List (KernelEvent N)
  | .reading => []
  | .testing batch | .appending batch => batch

/-- Where a thread that changes the directory is; Client::Upload holds collection_mutex_. -/
inductive Change where
  | idle
  | locked
  | changing (holds : Bool)
  deriving DecidableEq, Repr

/-- Where the loop of SyncFromClient is; it holds collection_mutex_ while it sends. -/
inductive Sender where
  | waiting
  | sending (sent : Nat)
  deriving DecidableEq, Repr

def Sender.sent : Sender → Nat
  | .waiting => 0
  | .sending k => k

structure State (N T : Type) where
  queue : List (KernelEvent N)
  pause : Bool
  mutex : Bool
  vector : List (LocalAction N)
  watch : Watch N
  change : T → Change
  sender : Sender
  seen : List (KernelEvent N)
  appended : List (KernelEvent N)
  handed : List (LocalAction N)
  cleared : List (LocalAction N)

/-- Start has set `pause_` to false. -/
def start : State N T :=
  { queue := [], pause := false, mutex := false, vector := [], watch := .reading,
    change := fun _ => .idle, sender := .waiting, seen := [], appended := [], handed := [],
    cleared := [] }

inductive Action (N T : Type) where
  | userChange (kind : Kind) (isDir : Bool) (name : Option N)
  | read (n : Nat)
  | test
  | append
  | lockUpload (t : T)
  | sendFails (t : T)    -- Upload gives up before it changes anything
  | pause (t : T)
  | change (t : T) (kind : Kind) (isDir : Bool) (name : Option N)
  | resume (t : T)
  | fails (t : T)        -- the change throws: Resume is skipped
  | wake
  | send
  | clear
  deriving DecidableEq, Repr

def State.setChange (s : State N T) (t : T) (c : Change) : State N T :=
  { s with change := Function.update s.change t c }

def State.enqueue (s : State N T) (e : KernelEvent N) : State N T :=
  { s with queue := s.queue ++ [e] }

def watchStep (s : State N T) : Action N T → Option (State N T)
  | .userChange kind isDir name => some (s.enqueue ⟨kind, isDir, name, .user⟩)
  | .read n =>
    -- an empty queue makes read fail with EWOULDBLOCK, and the loop goes on
    match s.watch with
    | .reading =>
      if 0 < n ∧ n ≤ s.queue.length then
        some { s with queue := s.queue.drop n, watch := .testing (s.queue.take n),
                      seen := s.seen ++ s.queue.take n }
      else none
    | _ => none
  | .test =>
    match s.watch with
    | .testing batch =>
      some { s with watch := if s.pause then .reading else .appending batch }
    | _ => none
  | .append =>
    match s.watch with
    | .appending batch =>
      if s.mutex then none
      else some { s with vector := s.vector ++ batch.filterMap KernelEvent.action,
                         watch := .reading, appended := s.appended ++ batch }
    | _ => none
  | .lockUpload t =>
    if s.change t = .idle ∧ s.mutex = false then
      some { s.setChange t .locked with mutex := true }
    else none
  | .sendFails t =>
    if s.change t = .locked then some { s.setChange t .idle with mutex := false } else none
  | .pause t =>
    match s.change t with
    | .idle => some { s.setChange t (.changing false) with pause := true }
    | .locked => some { s.setChange t (.changing true) with pause := true }
    | .changing _ => none
  | .change t kind isDir name =>
    match s.change t with
    | .changing _ => some (s.enqueue ⟨kind, isDir, name, .own⟩)
    | _ => none
  | .resume t =>
    match s.change t with
    | .changing holds =>
      some { s.setChange t .idle with pause := false, mutex := s.mutex && !holds }
    | _ => none
  | .fails t =>
    match s.change t with
    | .changing holds => some { s.setChange t .idle with mutex := s.mutex && !holds }
    | _ => none
  | .wake =>
    if s.sender = .waiting ∧ s.vector ≠ [] ∧ s.mutex = false then
      some { s with sender := .sending 0, mutex := true }
    else none
  | .send =>
    match s.sender with
    | .sending k =>
      match s.vector[k]? with
      | some a => some { s with sender := .sending (k + 1), handed := s.handed ++ [a] }
      | none => none
    | .waiting => none
  | .clear =>
    match s.sender with
    | .sending k =>
      if k = s.vector.length then
        some { s with sender := .waiting, mutex := false, vector := [],
                      cleared := s.cleared ++ s.vector }
      else none
    | .waiting => none

/-- What each step finds and does, a branch of `watchStep` at a time. -/
inductive Stepped (s : State N T) : Action N T → State N T → Prop where
  | userChange (kind : Kind) (isDir : Bool) (name : Option N) :
    Stepped s (.userChange kind isDir name) (s.enqueue ⟨kind, isDir, name, .user⟩)
  | read (n : Nat) (here : s.watch = .reading) :
    Stepped s (.read n) { s with queue := s.queue.drop n, watch := .testing (s.queue.take n),
                                 seen := s.seen ++ s.queue.take n }
  | dropped (batch : List (KernelEvent N)) (here : s.watch = .testing batch)
      (flag : s.pause = true) : Stepped s .test { s with watch := .reading }
  | passed (batch : List (KernelEvent N)) (here : s.watch = .testing batch)
      (flag : s.pause = false) : Stepped s .test { s with watch := .appending batch }
  | append (batch : List (KernelEvent N)) (here : s.watch = .appending batch)
      (free : s.mutex = false) :
    Stepped s .append { s with vector := s.vector ++ batch.filterMap KernelEvent.action,
                               watch := .reading, appended := s.appended ++ batch }
  | lockUpload (t : T) (idle : s.change t = .idle) (free : s.mutex = false) :
    Stepped s (.lockUpload t) { s.setChange t .locked with mutex := true }
  | sendFails (t : T) (here : s.change t = .locked) :
    Stepped s (.sendFails t) { s.setChange t .idle with mutex := false }
  | pause (t : T) (holds : Bool) (here : s.change t = if holds then .locked else .idle) :
    Stepped s (.pause t) { s.setChange t (.changing holds) with pause := true }
  | change (t : T) (kind : Kind) (isDir : Bool) (name : Option N) :
    Stepped s (.change t kind isDir name) (s.enqueue ⟨kind, isDir, name, .own⟩)
  | resume (t : T) (holds : Bool) (here : s.change t = .changing holds) :
    Stepped s (.resume t)
      { s.setChange t .idle with pause := false, mutex := s.mutex && !holds }
  | fails (t : T) (holds : Bool) (here : s.change t = .changing holds) :
    Stepped s (.fails t) { s.setChange t .idle with mutex := s.mutex && !holds }
  | wake (idle : s.sender = .waiting) (free : s.mutex = false) :
    Stepped s .wake { s with sender := .sending 0, mutex := true }
  | send (k : Nat) (a : LocalAction N) (here : s.sender = .sending k)
      (found : s.vector[k]? = some a) :
    Stepped s .send { s with sender := .sending (k + 1), handed := s.handed ++ [a] }
  | clear (here : s.sender = .sending s.vector.length) :
    Stepped s .clear { s with sender := .waiting, mutex := false, vector := [],
                              cleared := s.cleared ++ s.vector }

theorem step_cases {s t : State N T} {a : Action N T} (step : watchStep s a = some t) :
    Stepped s a t := by
  cases a with
  | userChange kind isDir name =>
    simp only [watchStep, Option.some.injEq] at step
    subst t
    exact .userChange kind isDir name
  | read n =>
    simp only [watchStep] at step
    split at step
    · rename_i here
      simp only [Option.ite_none_right_eq_some, Option.some.injEq] at step
      obtain ⟨_, rfl⟩ := step
      exact .read n here
    · cases step
  | test =>
    simp only [watchStep] at step
    split at step
    · rename_i batch here
      cases step
      by_cases flag : s.pause = true
      · rw [if_pos flag]
        exact .dropped batch here flag
      · rw [if_neg flag]
        exact .passed batch here (Bool.eq_false_iff.mpr flag)
    · cases step
  | append =>
    simp only [watchStep] at step
    split at step
    · rename_i batch here
      split at step
      · cases step
      · rename_i free
        cases step
        exact .append batch here (Bool.eq_false_iff.mpr free)
    · cases step
  | lockUpload t =>
    simp only [watchStep, Option.ite_none_right_eq_some, Option.some.injEq] at step
    obtain ⟨⟨idle, free⟩, rfl⟩ := step
    exact .lockUpload t idle free
  | sendFails t =>
    simp only [watchStep, Option.ite_none_right_eq_some, Option.some.injEq] at step
    obtain ⟨here, rfl⟩ := step
    exact .sendFails t here
  | pause t =>
    simp only [watchStep] at step
    split at step
    · rename_i here
      cases step
      exact .pause t false here
    · rename_i here
      cases step
      exact .pause t true here
    · cases step
  | change t kind isDir name =>
    simp only [watchStep] at step
    split at step
    · cases step
      exact .change t kind isDir name
    · cases step
  | resume t =>
    simp only [watchStep] at step
    split at step
    · rename_i holds here
      cases step
      exact .resume t holds here
    · cases step
  | fails t =>
    simp only [watchStep] at step
    split at step
    · rename_i holds here
      cases step
      exact .fails t holds here
    · cases step
  | wake =>
    simp only [watchStep, Option.ite_none_right_eq_some, Option.some.injEq] at step
    obtain ⟨⟨idle, _, free⟩, rfl⟩ := step
    exact .wake idle free
  | send =>
    simp only [watchStep] at step
    split at step
    · rename_i k here
      split at step
      · rename_i a found
        cases step
        exact .send k a here found
      · cases step
    · cases step
  | clear =>
    simp only [watchStep] at step
    split at step
    · rename_i k here
      simp only [Option.ite_none_right_eq_some, Option.some.injEq] at step
      obtain ⟨rfl, rfl⟩ := step
      exact .clear here
    · cases step

/-- The event is of this origin and becomes an action when its batch is appended. -/
def KernelEvent.isOf (o : Origin) (e : KernelEvent N) : Bool := e.action.isSome && e.origin == o

def Free (o : Origin) (events : List (KernelEvent N)) : Prop := ∀ e ∈ events, e.isOf o = false

instance (o : Origin) (events : List (KernelEvent N)) : Decidable (Free o events) :=
  inferInstanceAs (Decidable (∀ e ∈ events, e.isOf o = false))

theorem free_append {o : Origin} {xs ys : List (KernelEvent N)} :
    Free o (xs ++ ys) ↔ Free o xs ∧ Free o ys := by
  simp only [Free, List.mem_append, or_imp, forall_and]

theorem free_take_drop {o : Origin} {events : List (KernelEvent N)} (n : Nat) (free : Free o events) :
    Free o (events.take n) ∧ Free o (events.drop n) := by
  rw [← free_append, List.take_append_drop]
  exact free

theorem free_other {o : Origin} {e : KernelEvent N} (other : e.origin ≠ o) : Free o [e] := by
  intro x member
  rw [List.mem_singleton.mp member]
  simp [KernelEvent.isOf, other]

theorem filter_of_free {o : Origin} {events : List (KernelEvent N)} (free : Free o events) :
    events.filter (KernelEvent.isOf o) = [] := by
  rw [List.filter_eq_nil_iff]
  intro e member
  simp [free e member]

/-- No action comes from a change that the client made itself. -/
def NoEcho (s : State N T) : Prop := Free .own s.appended

/-- SyncFromServer writes a file between Pause and Resume, and the watcher reads the event later. -/
theorem own_change_is_echoed :
    ¬ ∀ (actions : List (Action Nat Unit)) (s : State Nat Unit),
      runs watchStep start actions = some s → NoEcho s := by
  intro claim
  have quiet := claim [.pause (), .change () .closeWrite false (some 0), .resume (), .read 1, .test,
    .append] _ rfl ⟨.closeWrite, false, some 0, .own⟩ (by decide)
  cases quiet

/-- A change is made only while the flag is set, and Resume is called only when no event of an own
    change is left in the kernel queue or in a batch that is not appended yet. -/
def Drained (s : State N T) : Action N T → Prop
  | .change _ kind isDir name => s.pause = true ∨ Free .own [⟨kind, isDir, name, .own⟩]
  | .resume _ => Free .own s.queue ∧ Free .own s.watch.batch
  | _ => True

instance (s : State N T) (a : Action N T) : Decidable (Drained s a) := by
  cases a <;> simp only [Drained] <;> infer_instance

/-- With the flag clear, nothing of the client's own is on its way. -/
structure Quiet (s : State N T) : Prop where
  flag : s.pause = false → Free .own s.queue ∧ Free .own s.watch.batch
  passed : ∀ batch, s.watch = .appending batch → Free .own batch
  noEcho : NoEcho s

theorem step_quiet (s : State N T) (a : Action N T) (t : State N T) (quiet : Quiet s)
    (drained : Drained s a) (step : watchStep s a = some t) : Quiet t := by
  cases step_cases step with
  | userChange kind isDir name =>
    refine ⟨fun clear => ?_, quiet.passed, quiet.noEcho⟩
    obtain ⟨queue, batch⟩ := quiet.flag clear
    exact ⟨free_append.mpr ⟨queue, free_other (by simp)⟩, batch⟩
  | read n here =>
    refine ⟨fun clear => ?_, ?_, quiet.noEcho⟩
    · obtain ⟨front, rest⟩ := free_take_drop n (quiet.flag clear).1
      exact ⟨rest, front⟩
    · intro batch appending
      cases appending
  | dropped batch here flag =>
    refine ⟨fun clear => ?_, ?_, quiet.noEcho⟩
    · exact absurd (flag.symm.trans clear) (by simp)
    · intro other appending
      cases appending
  | passed batch here flag =>
    obtain ⟨queue, free⟩ := quiet.flag flag
    rw [here] at free
    refine ⟨fun _ => ⟨queue, free⟩, ?_, quiet.noEcho⟩
    intro other appending
    cases appending
    exact free
  | append batch here free =>
    refine ⟨fun clear => ⟨(quiet.flag clear).1, ?_⟩, ?_, ?_⟩
    · intro e member
      cases member
    · intro other appending
      cases appending
    · exact free_append.mpr ⟨quiet.noEcho, quiet.passed batch here⟩
  | pause t holds here =>
    exact ⟨fun clear => absurd clear (by simp), quiet.passed, quiet.noEcho⟩
  | change t kind isDir name =>
    refine ⟨fun clear => ?_, quiet.passed, quiet.noEcho⟩
    obtain ⟨queue, batch⟩ := quiet.flag clear
    rcases drained with set | free
    · exact absurd (set.symm.trans clear) (by simp)
    · exact ⟨free_append.mpr ⟨queue, free⟩, batch⟩
  | resume t holds here => exact ⟨fun _ => drained, quiet.passed, quiet.noEcho⟩
  | lockUpload | sendFails | fails | wake | send | clear =>
    exact ⟨quiet.flag, quiet.passed, quiet.noEcho⟩

/-- In every run in which each Resume waits for the events of the change, and no other thread
    resumes in the middle of one, no own change comes back as a local action. -/
theorem drained_runs_do_not_echo {actions : List (Action N T)} {s : State N T}
    (drained : Allowed watchStep Drained start actions)
    (run : runs watchStep start actions = some s) : NoEcho s := by
  have begins : Quiet (start : State N T) := by
    refine ⟨fun _ => ⟨?_, ?_⟩, ?_, ?_⟩
    all_goals
      intro e member
      cases member
  exact (invariant_of_allowed step_quiet drained run begins).noEcho

/-- The watcher reads the event of an own change while it is paused, then a change of the user. -/
theorem drained_runs_do_not_echo_download :
    ∃ s : State Nat Unit, s.vector = [⟨.kDelete, 1⟩] ∧ NoEcho s :=
  have drained : Allowed watchStep Drained (start : State Nat Unit) [.pause (),
      .change () .closeWrite false (some 0), .read 1, .test, .resume (),
      .userChange .delete false (some 1), .read 1, .test, .append] := by
    decide
  ⟨_, rfl, drained_runs_do_not_echo drained rfl⟩

/-- Every action of the user's that the watcher has read is queued, and the queued actions are
    handed to the sending loop in order, each once, before they are cleared. -/
structure NothingLost (s : State N T) : Prop where
  appended : s.seen.filter (KernelEvent.isOf .user) =
    s.appended.filter (KernelEvent.isOf .user) ++ s.watch.batch.filter (KernelEvent.isOf .user)
  queued : s.cleared ++ s.vector = s.appended.filterMap KernelEvent.action
  handed : s.handed = s.cleared ++ s.vector.take s.sender.sent

/-- A file of the user's is closed, then another thread pauses the watcher, which drops the batch. -/
theorem paused_watcher_loses_change :
    ¬ ∀ (actions : List (Action Nat Unit)) (s : State Nat Unit),
      runs watchStep start actions = some s → NothingLost s := by
  intro claim
  have lost := (claim [.userChange .closeWrite false (some 0), .pause (), .read 1, .test] _
    rfl).appended
  exact absurd lost (by decide)

/-- The user changes nothing while the flag is set, and it is set only when the watcher has tested
    all events of the user's. -/
def Unhurried (s : State N T) : Action N T → Prop
  | .userChange kind isDir name => s.pause = false ∨ Free .user [⟨kind, isDir, name, .user⟩]
  | .pause _ =>
    Free .user s.queue ∧
      match s.watch with
      | .testing batch => Free .user batch
      | .reading | .appending _ => True
  | _ => True

instance (s : State N T) (a : Action N T) : Decidable (Unhurried s a) := by
  cases a <;> simp only [Unhurried] <;> (try split) <;> infer_instance

/-- The thread holds `collection_mutex_`. -/
def Change.holds : Change → Bool
  | .idle => false
  | .locked => true
  | .changing holds => holds

/-- `collection_mutex_` has one owner, and only the owner of the mutex sends. -/
structure Locked (s : State N T) : Prop where
  sender : ∀ k, s.sender = .sending k → s.mutex = true ∧ ∀ t, (s.change t).holds = false
  change : ∀ t, (s.change t).holds = true →
    s.mutex = true ∧ ∀ u, (s.change u).holds = true → u = t
  sent : s.sender.sent ≤ s.vector.length

/-- With the flag set, nothing of the user's is on its way to the test. -/
structure Waiting (s : State N T) : Prop where
  queue : s.pause = true → Free .user s.queue
  batch : s.pause = true → ∀ batch, s.watch = .testing batch → Free .user batch

theorem change_setChange (s : State N T) (t u : T) (c : Change) :
    (s.setChange t c).change u = if u = t then c else s.change u := by
  simp [State.setChange, Function.update_apply]

/-- A thread that holds the mutex goes on holding it, or one that does not goes on without. -/
theorem locked_keep {s : State N T} {t : T} {c : Change} (locked : Locked s)
    (same : c.holds = (s.change t).holds) : Locked (s.setChange t c) := by
  have holds : ∀ u, ((s.setChange t c).change u).holds = (s.change u).holds := by
    intro u
    rw [change_setChange]
    split
    · rename_i equal
      rw [equal, same]
    · rfl
  refine ⟨fun k sending => ?_, fun u held => ?_, locked.sent⟩
  · obtain ⟨mutex, others⟩ := locked.sender k sending
    exact ⟨mutex, fun u => (holds u).trans (others u)⟩
  · obtain ⟨mutex, only⟩ := locked.change u ((holds u).symm.trans held)
    exact ⟨mutex, fun v held' => only v ((holds v).symm.trans held')⟩

/-- The owner lets go of the mutex. -/
theorem locked_release {s : State N T} {t : T} (locked : Locked s)
    (held : (s.change t).holds = true) : Locked { s.setChange t .idle with mutex := false } := by
  refine ⟨fun k sending => ?_, fun u held' => ?_, locked.sent⟩
  · have free := (locked.sender k sending).2 t
    rw [held] at free
    cases free
  · change ((s.setChange t .idle).change u).holds = true at held'
    rw [change_setChange] at held'
    split at held'
    · cases held'
    · rename_i apart
      exact absurd ((locked.change t held).2 u held') apart

/-- A thread that changes the directory stops, and unlocks the mutex if it is the owner. -/
theorem locked_stop {s : State N T} {t : T} {holds : Bool} (locked : Locked s)
    (here : s.change t = .changing holds) :
    Locked { s.setChange t .idle with mutex := s.mutex && !holds } := by
  cases holds with
  | false =>
    have kept : Locked (s.setChange t .idle) := locked_keep locked (by rw [here]; rfl)
    rw [Bool.not_false, Bool.and_true]
    exact kept
  | true =>
    rw [Bool.not_true, Bool.and_false]
    exact locked_release locked (by rw [here]; rfl)

omit [DecidableEq T] in
theorem locked_same {s t : State N T} (locked : Locked s) (mutex : t.mutex = s.mutex)
    (change : t.change = s.change) (sender : t.sender = s.sender) (vector : t.vector = s.vector) :
    Locked t := by
  refine ⟨?_, ?_, ?_⟩
  · rw [mutex, change, sender]
    exact locked.sender
  · rw [mutex, change]
    exact locked.change
  · rw [sender, vector]
    exact locked.sent

theorem step_locked (s : State N T) (a : Action N T) (t : State N T) (locked : Locked s)
    (step : watchStep s a = some t) : Locked t := by
  cases step_cases step with
  | userChange | read | dropped | passed | change => exact locked_same locked rfl rfl rfl rfl
  | append batch here free =>
    refine ⟨locked.sender, locked.change, ?_⟩
    exact Nat.le_trans locked.sent (by simp)
  | lockUpload t idle free =>
    have nobody : ∀ u, (s.change u).holds = false := by
      intro u
      cases held : (s.change u).holds with
      | false => rfl
      | true => exact absurd ((locked.change u held).1.symm.trans free) (by simp)
    refine ⟨fun k sending => ?_, fun u held => ⟨rfl, fun v held' => ?_⟩, locked.sent⟩
    · exact absurd ((locked.sender k sending).1.symm.trans free) (by simp)
    · have only : ∀ w, ((s.setChange t .locked).change w).holds = true → w = t := by
        intro w holds
        rw [change_setChange] at holds
        split at holds
        · assumption
        · rw [nobody w] at holds
          cases holds
      rw [only v held', only u held]
  | sendFails t here => exact locked_release locked (by rw [here]; rfl)
  | pause t holds here =>
    have kept : Locked (s.setChange t (.changing holds)) :=
      locked_keep locked (by rw [here]; cases holds <;> rfl)
    exact locked_same kept rfl rfl rfl rfl
  | resume t holds here => exact locked_same (locked_stop locked here) rfl rfl rfl rfl
  | fails t holds here => exact locked_stop locked here
  | wake idle free =>
    have nobody : ∀ u, (s.change u).holds = true → False := by
      intro u held
      exact absurd ((locked.change u held).1.symm.trans free) (by simp)
    refine ⟨fun k _ => ⟨rfl, fun u => ?_⟩, fun u held => (nobody u held).elim, Nat.zero_le _⟩
    cases held : (s.change u).holds with
    | false => rfl
    | true => exact (nobody u held).elim
  | send k a here found =>
    refine ⟨fun j _ => locked.sender k here, locked.change, ?_⟩
    exact (List.getElem?_eq_some_iff.mp found).1
  | clear here =>
    refine ⟨fun j sending => ?_, fun u held => ?_, Nat.le_refl _⟩
    · cases sending
    · have free := (locked.sender _ here).2 u
      exact absurd (free.symm.trans held) (by simp)

theorem step_waiting (s : State N T) (a : Action N T) (t : State N T) (waiting : Waiting s)
    (unhurried : Unhurried s a) (step : watchStep s a = some t) : Waiting t := by
  cases step_cases step with
  | userChange kind isDir name =>
    refine ⟨fun set => ?_, waiting.batch⟩
    rcases unhurried with clear | free
    · exact absurd (clear.symm.trans set) (by simp)
    · exact free_append.mpr ⟨waiting.queue set, free⟩
  | read n here =>
    refine ⟨fun set => (free_take_drop n (waiting.queue set)).2, fun set batch testing => ?_⟩
    cases testing
    exact (free_take_drop n (waiting.queue set)).1
  | dropped batch here flag | append batch here free =>
    refine ⟨waiting.queue, fun _ other testing => ?_⟩
    cases testing
  | passed batch here flag =>
    refine ⟨waiting.queue, fun _ other testing => ?_⟩
    cases testing
  | pause t holds here =>
    obtain ⟨queue, batch⟩ := unhurried
    refine ⟨fun _ => queue, fun _ found testing => ?_⟩
    change s.watch = .testing found at testing
    rw [testing] at batch
    exact batch
  | change t kind isDir name =>
    refine ⟨fun set => ?_, waiting.batch⟩
    exact free_append.mpr ⟨waiting.queue set, free_other (by simp)⟩
  | resume t holds here =>
    exact ⟨fun set => absurd set (by simp), fun set => absurd set (by simp)⟩
  | lockUpload | sendFails | fails | wake | send | clear => exact ⟨waiting.queue, waiting.batch⟩

theorem step_nothingLost (s : State N T) (a : Action N T) (t : State N T) (locked : Locked s)
    (waiting : Waiting s) (kept : NothingLost s) (step : watchStep s a = some t) :
    NothingLost t := by
  cases step_cases step with
  | read n here =>
    refine ⟨?_, kept.queued, kept.handed⟩
    have before := kept.appended
    rw [here] at before
    rw [List.filter_append, before]
    simp [Watch.batch]
  | dropped batch here flag =>
    -- the batch holds nothing of the user's
    refine ⟨?_, kept.queued, kept.handed⟩
    have before := kept.appended
    rw [here, Watch.batch, filter_of_free (waiting.batch flag batch here)] at before
    exact before
  | passed batch here flag =>
    refine ⟨?_, kept.queued, kept.handed⟩
    have before := kept.appended
    rw [here] at before
    exact before
  | append batch here free =>
    refine ⟨?_, ?_, ?_⟩
    · have before := kept.appended
      rw [here] at before
      simpa [Watch.batch] using before
    · rw [List.filterMap_append, ← kept.queued, List.append_assoc]
    · have before := kept.handed
      cases sender : s.sender with
      | waiting => simpa [sender, Sender.sent] using before
      | sending k => exact absurd ((locked.sender k sender).1.symm.trans free) (by simp)
  | wake idle free =>
    have before := kept.handed
    rw [idle] at before
    exact ⟨kept.appended, kept.queued, before⟩
  | send k a here found =>
    refine ⟨kept.appended, kept.queued, ?_⟩
    have before := kept.handed
    rw [here] at before
    simp only [Sender.sent] at before ⊢
    rw [before, List.take_add_one, found, List.append_assoc]
    rfl
  | clear here =>
    refine ⟨kept.appended, ?_, ?_⟩
    · rw [List.append_nil]
      exact kept.queued
    · have before := kept.handed
      rw [here, Sender.sent, List.take_length] at before
      simpa [Sender.sent] using before
  | userChange | lockUpload | sendFails | pause | change | resume | fails =>
    exact ⟨kept.appended, kept.queued, kept.handed⟩

/-- What the runs below keep. -/
structure Safe (s : State N T) : Prop where
  locked : Locked s
  waiting : Waiting s
  kept : NothingLost s

omit [DecidableEq T] in
theorem safe_start : Safe (start : State N T) := by
  refine ⟨⟨?_, ?_, Nat.le_refl _⟩, ⟨?_, ?_⟩, rfl, rfl, rfl⟩
  · intro k sending
    cases sending
  · intro t held
    cases held
  · intro set
    cases set
  · intro set
    cases set

theorem step_safe (s : State N T) (a : Action N T) (t : State N T) (safe : Safe s)
    (unhurried : Unhurried s a) (step : watchStep s a = some t) : Safe t :=
  ⟨step_locked s a t safe.locked step, step_waiting s a t safe.waiting unhurried step,
    step_nothingLost s a t safe.locked safe.waiting safe.kept step⟩

/-- In every run in which the user changes nothing while the watcher is paused, and it is paused
    only when it has tested all events of the user's, no change of the user's is lost. -/
theorem unhurried_runs_lose_nothing {actions : List (Action N T)} {s : State N T}
    (unhurried : Allowed watchStep Unhurried start actions)
    (run : runs watchStep start actions = some s) : NothingLost s :=
  (invariant_of_allowed step_safe unhurried run safe_start).kept

/-- The user writes and deletes a file around a download, and the sender hands on one of the two
    actions. -/
theorem unhurried_runs_lose_nothing_two :
    ∃ s : State Nat Unit, s.handed = [⟨.kUpload, 0⟩] ∧ s.vector = [⟨.kUpload, 0⟩, ⟨.kDelete, 0⟩] ∧
      NothingLost s :=
  have unhurried : Allowed watchStep Unhurried (start : State Nat Unit) [
      .userChange .closeWrite false (some 0), .read 1, .test, .append, .pause (),
      .change () .modify false (some 1), .resume (), .userChange .delete false (some 0), .read 2,
      .test, .append, .wake, .send] := by
    decide
  ⟨_, rfl, rfl, unhurried_runs_lose_nothing unhurried rfl⟩

end DropboxWatcher
