import Dropbox.General.Stuttering

/-!
The threads of the client from their start to the end of main (client/main.cpp):
Inotify::MainLoop, Client::SyncFromClient with its wait on `cv_`, Client::SyncFromServer
and the statements main runs after UserInput::Start. What is sent and received is left
out, and so is `pause_`: a read that is thrown away is a read of nothing.
-/
namespace DropboxClientShutdown
open Transitions Stuttering
variable {A : Type}

/-- The threads of main, in the order of their definitions. -/
inductive Thread where
  | inotify | fileExchange | sync
  deriving DecidableEq, Repr

inductive Statement where
  | requestStop (t : Thread)
  | join (t : Thread)
  deriving DecidableEq, Repr

/-- The destructor of std::jthread. -/
def destroy (t : Thread) : List Statement := [.requestStop t, .join t]

/-- What leaves the scope of the threads does: the last one defined goes first. -/
def unwinding : List Statement := destroy .sync ++ destroy .fileExchange ++ destroy .inotify

/-- What main has left to do when UserInput::Start returns. -/
def exiting : List Statement :=
  [.requestStop .sync, .requestStop .fileExchange, .requestStop .inotify] ++ unwinding

/-- `running true` is in Client::Upload, which holds `collection_mutex_`. -/
inductive Main where
  | running (uploads : Bool)
  | ending (todo : List Statement)
  deriving DecidableEq, Repr

/-- Where Inotify::MainLoop is; `leaving` is behind the loop, before its last `notify_one`. -/
inductive Watch (A : Type) where
  | testing
  | reading
  | appending (batch : List A)
  | notifying
  | leaving
  | ended
  deriving DecidableEq, Repr

/-- Where SyncFromClient is. It tests the condition of `wait` under the mutex, is `parking` when it
    was false, gives the mutex up when it is `parked` and takes it again when it is `woken`. -/
inductive Sender where
  | starting    -- waits for the server's list of servers
  | locking
  | testing
  | parking
  | parked
  | woken
  | passed      -- before the test of the stop token
  | sending
  | unlocked    -- before `notify_one`
  | ended
  deriving DecidableEq, Repr

def Sender.holds : Sender → Bool
  | .testing | .parking | .passed | .sending => true
  | .starting | .locking | .parked | .woken | .unlocked | .ended => false

/-- Where SyncFromServer is. -/
inductive Sync where
  | testing
  | receiving
  | reconnecting
  | ended
  deriving DecidableEq, Repr

inductive Holder where
  | main | sender
  deriving DecidableEq, Repr

/-- `missed` records that the last `notify_one` came between the test and the wait. -/
structure State (A : Type) where
  main : Main
  stop : Thread → Bool
  mutex : Option Holder
  actions : List A
  watch : Watch A
  sender : Sender
  sync : Sync
  missed : Bool

def start : State A :=
  ⟨.running false, fun _ => false, none, [], .testing, .starting, .testing, false⟩

def Watch.hasEnded : Watch A → Bool
  | .ended => true
  | .testing | .reading | .appending _ | .notifying | .leaving => false

def State.hasEnded (s : State A) : Thread → Bool
  | .inotify => s.watch.hasEnded
  | .fileExchange => decide (s.sender = .ended)
  | .sync => decide (s.sync = .ended)

/-- SyncFromClient is the only thread that waits. -/
def State.notifyOne (s : State A) : State A :=
  match s.sender with
  | .parked => { s with sender := .woken }
  | _ => s

inductive MainTurn where
  | lock       -- the lock_guard of Client::Upload
  | unlock
  | exit       -- UserInput::Start returns
  | throws
  | statement
  deriving DecidableEq, Repr

inductive WatchTurn (A : Type) where
  | test
  | read (batch : Option (List A))
  | append
  | notify
  deriving DecidableEq, Repr

inductive SenderTurn where
  | servers
  | lock
  | test
  | park
  | spurious
  | check
  | send
  | notify
  deriving DecidableEq, Repr

inductive SyncTurn where
  | test
  | message
  | failure      -- an error other than connection_aborted
  | aborted
  | reconnect (connects : Bool)
  deriving DecidableEq, Repr

inductive Action (A : Type) where
  | main (turn : MainTurn)
  | watch (turn : WatchTurn A)
  | sender (turn : SenderTurn)
  | sync (turn : SyncTurn)
  deriving DecidableEq, Repr

def mainStep (s : State A) : MainTurn → Option (State A)
  | .lock =>
    match s.main, s.mutex with
    | .running false, none => some { s with main := .running true, mutex := some .main }
    | _, _ => none
  | .unlock =>
    match s.main with
    | .running true => some { s with main := .running false, mutex := none }
    | _ => none
  | .exit =>
    match s.main with
    | .running false => some { s with main := .ending exiting }
    | _ => none
  | .throws =>
    -- the lock_guard gives the mutex up
    match s.main with
    | .running true => some { s with main := .ending unwinding, mutex := none }
    | .running false => some { s with main := .ending unwinding }
    | .ending _ => none
  | .statement =>
    match s.main with
    | .ending (.requestStop t :: todo) =>
      some { s with main := .ending todo, stop := Function.update s.stop t true }
    | .ending (.join t :: todo) => if s.hasEnded t then some { s with main := .ending todo } else none
    | _ => none

def watchStep (s : State A) : WatchTurn A → Option (State A)
  | .test =>
    match s.watch with
    | .testing => some { s with watch := if s.stop .inotify then .leaving else .reading }
    | _ => none
  | .read batch =>
    match s.watch, batch with
    | .reading, some batch => some { s with watch := .appending batch }
    | .reading, none => some { s with watch := .testing }
    | _, _ => none
  | .append =>
    match s.watch, s.mutex with
    | .appending batch, none => some { s with actions := s.actions ++ batch, watch := .notifying }
    | _, _ => none
  | .notify =>
    match s.watch with
    | .notifying => some { s.notifyOne with watch := .testing }
    | .leaving =>
      some { s.notifyOne with watch := .ended, missed := decide (s.sender = .parking) }
    | _ => none

def senderStep (s : State A) : SenderTurn → Option (State A)
  | .servers =>
    match s.sender with
    | .starting => some { s with sender := .locking }
    | _ => none
  | .lock =>
    match s.sender, s.mutex with
    | .locking, none | .woken, none => some { s with sender := .testing, mutex := some .sender }
    | _, _ => none
  | .test =>
    match s.sender with
    | .testing =>
      some { s with
        sender := if s.actions.isEmpty && !s.stop .fileExchange then .parking else .passed }
    | _ => none
  | .park =>
    match s.sender with
    | .parking => some { s with sender := .parked, mutex := none }
    | _ => none
  | .spurious =>
    match s.sender with
    | .parked => some { s with sender := .woken }
    | _ => none
  | .check =>
    match s.sender with
    | .passed =>
      if s.stop .fileExchange then some { s with sender := .ended, mutex := none }
      else some { s with sender := .sending }
    | _ => none
  | .send =>
    match s.sender with
    | .sending => some { s with sender := .unlocked, actions := [], mutex := none }
    | _ => none
  | .notify =>
    match s.sender with
    | .unlocked => some { s with sender := .locking }
    | _ => none

def syncStep (s : State A) : SyncTurn → Option (State A)
  | .test =>
    match s.sync with
    | .testing => some { s with sync := if s.stop .sync then .ended else .receiving }
    | _ => none
  | .message | .failure =>
    match s.sync with
    | .receiving => some { s with sync := .testing }
    | _ => none
  | .aborted =>
    match s.sync with
    | .receiving => some { s with sync := .reconnecting }
    | _ => none
  | .reconnect connects =>
    -- the loop around ReconnectToServer does not look at the stop token
    match s.sync with
    | .reconnecting => some { s with sync := if connects then .testing else .reconnecting }
    | _ => none

def clientStep (s : State A) : Action A → Option (State A)
  | .main turn => mainStep s turn
  | .watch turn => watchStep s turn
  | .sender turn => senderStep s turn
  | .sync turn => syncStep s turn

/-- What a thread does by itself; the rest needs the user, the file system or the server. -/
def own : Action A → Bool
  | .main turn => turn = .statement
  | .watch (.read (some _)) => false
  | .watch _ => true
  | .sender turn => turn ≠ .servers && turn ≠ .spurious
  | .sync turn => turn = .test

/-- No thread has anything to do by itself. -/
def Waiting (s : State A) : Prop := ∀ a, own a = true → clientStep s a = none

/-- What the mutex protects, and that an action that was appended is still to be notified of when
    SyncFromClient waits. -/
structure Sound (s : State A) : Prop where
  sender : s.mutex = some .sender ↔ s.sender.holds = true
  uploads : s.mutex = some .main ↔ s.main = .running true
  fresh : s.sender = .parking → s.actions = []
  pending : s.sender = .parked → s.actions ≠ [] → s.watch = .notifying

theorem start_sound : Sound (start : State A) := by
  constructor <;> simp [start, Sender.holds]

section Soundness
variable {s t : State A}

/-- Outside Upload main changes nothing that the mutex protects. -/
theorem sound_main (sound : Sound s) (before : s.main ≠ .running true) {main : Main}
    (after : main ≠ .running true) (stop : Thread → Bool) :
    Sound { s with main := main, stop := stop } := by
  have free : s.mutex ≠ some .main := fun held => before (sound.uploads.mp held)
  exact ⟨sound.sender, iff_of_false free after, sound.fresh, sound.pending⟩

/-- Whoever leaves Upload gives the mutex up. -/
theorem sound_release (sound : Sound s) (uploads : s.main = .running true) {main : Main}
    (after : main ≠ .running true) : Sound { s with main := main, mutex := none } := by
  have held := sound.uploads.mpr uploads
  have other : s.sender.holds ≠ true := by
    intro holds
    have twice := sound.sender.mpr holds
    rw [held] at twice
    cases twice
  exact ⟨iff_of_false (by simp) other, iff_of_false (by simp) after, sound.fresh, sound.pending⟩

theorem main_sound {a : MainTurn} (sound : Sound s) (step : mainStep s a = some t) : Sound t := by
  cases a with
  | lock =>
    simp only [mainStep] at step
    split at step
    · rename_i free
      cases step
      have other : s.sender.holds ≠ true := by
        intro holds
        have held := sound.sender.mpr holds
        rw [free] at held
        cases held
      exact ⟨iff_of_false (by simp) other, iff_of_true rfl rfl, sound.fresh, sound.pending⟩
    · cases step
  | unlock =>
    simp only [mainStep] at step
    split at step
    · rename_i uploads
      cases step
      exact sound_release sound uploads (by simp)
    · cases step
  | exit =>
    simp only [mainStep] at step
    split at step
    · rename_i idle
      cases step
      exact sound_main sound (by rw [idle]; simp) (by simp) s.stop
    · cases step
  | throws =>
    simp only [mainStep] at step
    split at step
    · rename_i uploads
      cases step
      exact sound_release sound uploads (by simp)
    · rename_i idle
      cases step
      exact sound_main sound (by rw [idle]; simp) (by simp) s.stop
    · cases step
  | statement =>
    simp only [mainStep] at step
    split at step
    · rename_i ending
      cases step
      exact sound_main sound (by rw [ending]; simp) (by simp) _
    · rename_i ending
      split at step
      · cases step
        exact sound_main sound (by rw [ending]; simp) (by simp) s.stop
      · cases step
    · cases step

/-- Away from `notify_one` nobody is left waiting with actions. -/
theorem sound_watch (sound : Sound s) (quiet : s.watch ≠ .notifying) (watch : Watch A) :
    Sound { s with watch := watch } :=
  ⟨sound.sender, sound.uploads, sound.fresh,
    fun parked filled => absurd (sound.pending parked filled) quiet⟩

theorem sound_notify (sound : Sound s) (watch : Watch A) (missed : Bool) :
    Sound { s.notifyOne with watch := watch, missed := missed } := by
  by_cases parked : s.sender = .parked
  · have woken : s.notifyOne = { s with sender := .woken } := by rw [State.notifyOne, parked]
    have free := sound.sender
    rw [parked] at free
    rw [woken]
    exact ⟨free, sound.uploads, by simp, by simp⟩
  · have same : s.notifyOne = s := by
      rw [State.notifyOne]
      split
      · contradiction
      · rfl
    rw [same]
    exact ⟨sound.sender, sound.uploads, sound.fresh, fun waits => absurd waits parked⟩

theorem watch_sound {a : WatchTurn A} (sound : Sound s) (step : watchStep s a = some t) :
    Sound t := by
  cases a with
  | test =>
    simp only [watchStep] at step
    split at step
    · rename_i testing
      cases step
      exact sound_watch sound (by rw [testing]; simp) _
    · cases step
  | read batch =>
    simp only [watchStep] at step
    split at step
    · rename_i reading
      cases step
      exact sound_watch sound (by rw [reading]; simp) _
    · rename_i reading
      cases step
      exact sound_watch sound (by rw [reading]; simp) _
    · cases step
  | append =>
    simp only [watchStep] at step
    split at step
    · rename_i batch appending free
      cases step
      refine ⟨sound.sender, sound.uploads, ?_, fun _ _ => rfl⟩
      intro parking
      have held := sound.sender.mpr (by rw [parking]; rfl)
      rw [free] at held
      cases held
    · cases step
  | notify =>
    simp only [watchStep] at step
    split at step
    · cases step
      exact sound_notify sound .testing _
    · cases step
      exact sound_notify sound .ended _
    · cases step

theorem sender_sound {a : SenderTurn} (sound : Sound s) (step : senderStep s a = some t) :
    Sound t := by
  have uploads : s.sender.holds = true → s.main ≠ .running true := by
    intro holds running
    have mine := sound.sender.mpr holds
    rw [sound.uploads.mpr running] at mine
    cases mine
  have free : s.sender.holds = false → s.mutex ≠ some .sender := by
    intro idle held
    rw [sound.sender.mp held] at idle
    cases idle
  cases a with
  | servers =>
    simp only [senderStep] at step
    split at step
    · rename_i here
      cases step
      exact ⟨iff_of_false (free (by rw [here]; rfl)) (by simp [Sender.holds]), sound.uploads, by simp,
        by simp⟩
    · cases step
  | lock =>
    simp only [senderStep] at step
    have taken : s.mutex = none → Sound { s with sender := .testing, mutex := some .sender } := by
      intro unheld
      have idle : s.main ≠ .running true := by
        intro running
        have held := sound.uploads.mpr running
        rw [unheld] at held
        cases held
      exact ⟨iff_of_true rfl rfl, iff_of_false (by simp) idle, by simp, by simp⟩
    split at step
    · rename_i unheld
      cases step
      exact taken unheld
    · rename_i unheld
      cases step
      exact taken unheld
    · cases step
  | test =>
    simp only [senderStep] at step
    split at step
    · rename_i here
      cases step
      have held := sound.sender.mpr (by rw [here]; rfl)
      refine ⟨iff_of_true held ?_, sound.uploads, ?_, ?_⟩
      · split <;> rfl
      · intro parking
        by_cases empty : (s.actions.isEmpty && !s.stop .fileExchange) = true
        · exact List.isEmpty_iff.mp (Bool.and_eq_true_iff.mp empty).1
        · simp [empty] at parking
      · intro parked
        split at parked <;> cases parked
    · cases step
  | park =>
    simp only [senderStep] at step
    split at step
    · rename_i here
      cases step
      refine ⟨iff_of_false (by simp) (by simp [Sender.holds]), ?_, by simp, ?_⟩
      · exact iff_of_false (by simp) (uploads (by rw [here]; rfl))
      · exact fun _ filled => absurd (sound.fresh here) filled
    · cases step
  | spurious =>
    simp only [senderStep] at step
    split at step
    · rename_i here
      cases step
      exact ⟨iff_of_false (free (by rw [here]; rfl)) (by simp [Sender.holds]), sound.uploads, by simp,
        by simp⟩
    · cases step
  | check =>
    simp only [senderStep] at step
    split at step
    · rename_i here
      have idle := uploads (by rw [here]; rfl)
      split at step
      · cases step
        exact ⟨iff_of_false (by simp) (by simp [Sender.holds]), iff_of_false (by simp) idle, by simp,
          by simp⟩
      · cases step
        have held := sound.sender.mpr (by rw [here]; rfl)
        exact ⟨iff_of_true held rfl, sound.uploads, by simp, by simp⟩
    · cases step
  | send =>
    simp only [senderStep] at step
    split at step
    · rename_i here
      cases step
      have idle := uploads (by rw [here]; rfl)
      exact ⟨iff_of_false (by simp) (by simp [Sender.holds]), iff_of_false (by simp) idle, by simp,
        by simp⟩
    · cases step
  | notify =>
    simp only [senderStep] at step
    split at step
    · rename_i here
      cases step
      exact ⟨iff_of_false (free (by rw [here]; rfl)) (by simp [Sender.holds]), sound.uploads, by simp,
        by simp⟩
    · cases step

theorem sync_other {a : SyncTurn} (step : syncStep s a = some t) :
    ∃ sync, t = { s with sync := sync } := by
  cases a <;> simp only [syncStep] at step <;> split at step <;> cases step <;> exact ⟨_, rfl⟩

theorem step_sound (s : State A) (a : Action A) (t : State A) (sound : Sound s)
    (step : clientStep s a = some t) : Sound t := by
  cases a with
  | main a => exact main_sound sound step
  | watch a => exact watch_sound sound step
  | sender a => exact sender_sound sound step
  | sync a =>
    obtain ⟨sync, rfl⟩ := sync_other step
    exact ⟨sound.sender, sound.uploads, sound.fresh, sound.pending⟩

/-- In every run: when SyncFromClient waits on `cv_` and there are actions, the watcher is about to
    notify it of them. -/
theorem actions_wake {t : State A} (reach : Reachable clientStep start t)
    (waits : t.sender = .parked) (filled : t.actions ≠ []) : t.watch = .notifying :=
  (invariant_of_reachable step_sound reach start_sound).pending waits filled

/-- SyncFromClient waits and one change is read. -/
def oneChange : List (Action Unit) :=
  [.sender .servers, .sender .lock, .sender .test, .sender .park, .watch .test,
    .watch (.read (some [()])), .watch .append]

theorem actions_wake_one : ∃ t : State Unit, runs clientStep start oneChange = some t ∧
    t.actions = [()] ∧ t.watch = .notifying := by
  have wakes : ∀ t : State Unit, runs clientStep start oneChange = some t → t.watch = .notifying := by
    intro t run
    have reach : Reachable clientStep start t := ⟨oneChange, run⟩
    cases run
    exact actions_wake reach rfl (by decide)
  exact ⟨_, rfl, rfl, wakes _ rfl⟩

end Soundness

/-- UserInput::Start returns, and a wait ends by a notification only. -/
def calm : Action A → Bool
  | .main turn => turn ≠ .throws
  | .sender turn => turn ≠ .spurious
  | .watch _ | .sync _ => true

def calmStep (s : State A) (a : Action A) : Option (State A) :=
  if calm a then clientStep s a else none

/-- Main has gone through the statements `done`, and what they did is still so. -/
def Exits (s : State A) : Prop :=
  (∃ uploads, s.main = .running uploads ∧ ∀ t, s.stop t = false) ∨
    ∃ done todo, s.main = .ending todo ∧ done ++ todo = exiting ∧
      ∀ t, (s.stop t = true ↔ .requestStop t ∈ done) ∧ (.join t ∈ done → s.hasEnded t = true)

structure Orderly (s : State A) : Prop where
  exits : Exits s
  leaving : s.watch = .leaving ∨ s.watch = .ended → s.stop .inotify = true
  lost : s.missed = true → s.watch = .ended ∧ (s.sender = .parking ∨ s.sender = .parked)
  found : s.watch = .ended → s.sender = .parking ∨ s.sender = .parked → s.missed = true

section Order
variable {s t : State A}

/-- The watcher is asked to stop after SyncFromClient. -/
theorem exits_order (exits : Exits s) (asked : s.stop .inotify = true) :
    s.stop .fileExchange = true := by
  rcases exits with ⟨_, _, none⟩ | ⟨done, todo, _, whole, so⟩
  · rw [none] at asked
    cases asked
  · have cut : done = exiting.take done.length := by rw [← whole, List.take_left]
    have short : done.length < 10 := by
      have total := congrArg List.length whole
      simp [exiting, unwinding, destroy] at total
      omega
    have order : ∀ k < 10, Statement.requestStop .inotify ∈ exiting.take k →
        Statement.requestStop .fileExchange ∈ exiting.take k := by decide
    have there := (so .inotify).1.mp asked
    rw [cut] at there
    refine (so .fileExchange).1.mpr ?_
    rw [cut]
    exact order done.length short there

theorem watch_frame {a : WatchTurn A} (step : watchStep s a = some t) :
    t.main = s.main ∧ t.stop = s.stop ∧ t.sync = s.sync ∧ s.watch.hasEnded = false ∧
      (t.sender = s.sender ∨ (s.sender = .parked ∧ t.sender = .woken)) := by
  have notified : s.notifyOne.main = s.main ∧ s.notifyOne.stop = s.stop ∧
      s.notifyOne.sync = s.sync ∧
      (s.notifyOne.sender = s.sender ∨ (s.sender = .parked ∧ s.notifyOne.sender = .woken)) := by
    rw [State.notifyOne]
    split
    · rename_i parked
      exact ⟨rfl, rfl, rfl, Or.inr ⟨parked, rfl⟩⟩
    · exact ⟨rfl, rfl, rfl, Or.inl rfl⟩
  obtain ⟨main, stop, sync, sender⟩ := notified
  cases a with
  | notify =>
    simp only [watchStep] at step
    split at step
    · rename_i here
      cases step
      exact ⟨main, stop, sync, by rw [here]; rfl, sender⟩
    · rename_i here
      cases step
      exact ⟨main, stop, sync, by rw [here]; rfl, sender⟩
    · cases step
  | test =>
    simp only [watchStep] at step
    split at step
    · rename_i here
      cases step
      exact ⟨rfl, rfl, rfl, by rw [here]; rfl, Or.inl rfl⟩
    · cases step
  | read batch =>
    simp only [watchStep] at step
    split at step
    · rename_i here
      cases step
      exact ⟨rfl, rfl, rfl, by rw [here]; rfl, Or.inl rfl⟩
    · rename_i here
      cases step
      exact ⟨rfl, rfl, rfl, by rw [here]; rfl, Or.inl rfl⟩
    · cases step
  | append =>
    simp only [watchStep] at step
    split at step
    · rename_i here _
      cases step
      exact ⟨rfl, rfl, rfl, by rw [here]; rfl, Or.inl rfl⟩
    · cases step

theorem sender_frame {a : SenderTurn} (step : senderStep s a = some t) :
    t.main = s.main ∧ t.stop = s.stop ∧ t.sync = s.sync ∧ t.watch = s.watch ∧
      t.missed = s.missed ∧ s.sender ≠ .ended := by
  cases a with
  | check =>
    simp only [senderStep] at step
    split at step
    · rename_i here
      split at step <;> cases step <;> exact ⟨rfl, rfl, rfl, rfl, rfl, by rw [here]; simp⟩
    · cases step
  | lock =>
    simp only [senderStep] at step
    split at step
    · rename_i here _
      cases step
      exact ⟨rfl, rfl, rfl, rfl, rfl, by rw [here]; simp⟩
    · rename_i here _
      cases step
      exact ⟨rfl, rfl, rfl, rfl, rfl, by rw [here]; simp⟩
    · cases step
  | _ =>
    simp only [senderStep] at step
    split at step
    · rename_i here
      cases step
      exact ⟨rfl, rfl, rfl, rfl, rfl, by rw [here]; simp⟩
    · cases step

/-- A thread that has ended stays so. -/
theorem ended_stays {a : Action A} (step : clientStep s a = some t) (x : Thread)
    (gone : s.hasEnded x = true) : t.hasEnded x = true := by
  cases a with
  | main a =>
    have same : t.watch = s.watch ∧ t.sender = s.sender ∧ t.sync = s.sync := by
      cases a <;> simp only [clientStep, mainStep] at step <;> split at step <;>
        try split at step
      all_goals first | cases step; exact ⟨rfl, rfl, rfl⟩ | cases step
    cases x <;> simpa only [State.hasEnded, same] using gone
  | watch a =>
    obtain ⟨_, _, sync, runs, sender⟩ := watch_frame step
    cases x with
    | inotify =>
      rw [State.hasEnded, runs] at gone
      cases gone
    | fileExchange =>
      have ended : s.sender = .ended := by simpa [State.hasEnded] using gone
      rcases sender with same | ⟨parked, _⟩
      · simpa only [State.hasEnded, same] using gone
      · rw [ended] at parked
        cases parked
    | sync => simpa only [State.hasEnded, sync] using gone
  | sender a =>
    obtain ⟨_, _, sync, watch, _, runs⟩ := sender_frame step
    cases x with
    | inotify => simpa only [State.hasEnded, watch] using gone
    | fileExchange => exact absurd (by simpa [State.hasEnded] using gone) runs
    | sync => simpa only [State.hasEnded, sync] using gone
  | sync a =>
    obtain ⟨sync, same⟩ := sync_other step
    cases x with
    | inotify => simpa only [State.hasEnded, same] using gone
    | fileExchange => simpa only [State.hasEnded, same] using gone
    | sync =>
      have ended : s.sync = .ended := by simpa [State.hasEnded] using gone
      cases a <;> simp [clientStep, syncStep, ended] at step

/-- Where main does not move it has gone through the same statements. -/
theorem exits_same {a : Action A} (exits : Exits s) (step : clientStep s a = some t)
    (main : t.main = s.main) (stop : t.stop = s.stop) : Exits t := by
  rcases exits with ⟨uploads, running, none⟩ | ⟨done, todo, ending, whole, so⟩
  · exact Or.inl ⟨uploads, main.trans running, fun x => by rw [stop, none]⟩
  · refine Or.inr ⟨done, todo, main.trans ending, whole, fun x => ⟨?_, fun joined => ?_⟩⟩
    · rw [stop]
      exact (so x).1
    · exact ended_stays step x ((so x).2 joined)

theorem exits_main {a : MainTurn} (exits : Exits s) (quiet : a ≠ .throws)
    (step : mainStep s a = some t) : Exits t := by
  cases a with
  | lock =>
    simp only [mainStep] at step
    split at step
    · rename_i running _
      cases step
      rcases exits with ⟨_, _, none⟩ | ⟨_, _, ending, _⟩
      · exact Or.inl ⟨true, rfl, none⟩
      · rw [running] at ending
        cases ending
    · cases step
  | unlock =>
    simp only [mainStep] at step
    split at step
    · rename_i running
      cases step
      rcases exits with ⟨_, _, none⟩ | ⟨_, _, ending, _⟩
      · exact Or.inl ⟨false, rfl, none⟩
      · rw [running] at ending
        cases ending
    · cases step
  | exit =>
    simp only [mainStep] at step
    split at step
    · rename_i running
      cases step
      rcases exits with ⟨_, _, none⟩ | ⟨_, _, ending, _⟩
      · refine Or.inr ⟨[], exiting, rfl, rfl, fun x => ⟨?_, by simp⟩⟩
        simp [none]
      · rw [running] at ending
        cases ending
    · cases step
  | throws => exact absurd rfl quiet
  | statement =>
    rcases exits with ⟨_, running, _⟩ | ⟨done, todo, ending, whole, so⟩
    · simp [mainStep, running] at step
    · cases todo with
      | nil => simp [mainStep, ending] at step
      | cons first todo =>
        have longer : (done ++ [first]) ++ todo = exiting := by
          rw [List.append_assoc]
          exact whole
        cases first with
        | requestStop x =>
          simp only [mainStep, ending] at step
          cases step
          refine Or.inr ⟨_, todo, rfl, longer, fun y => ⟨?_, fun joined => ?_⟩⟩
          · by_cases same : y = x
            · subst y
              simp
            · simp [same, (so y).1]
          · exact (so y).2 (by simpa using joined)
        | join x =>
          simp only [mainStep, ending] at step
          split at step
          · rename_i gone
            cases step
            refine Or.inr ⟨_, todo, rfl, longer, fun y => ⟨?_, fun joined => ?_⟩⟩
            · simp [(so y).1]
            · rcases List.mem_append.mp joined with before | now
              · exact (so y).2 before
              · obtain rfl : y = x := by simpa using now
                exact gone
          · cases step

theorem main_frame {a : MainTurn} (step : mainStep s a = some t) :
    t.watch = s.watch ∧ t.sender = s.sender ∧ t.sync = s.sync ∧ t.missed = s.missed ∧
      ∀ x, s.stop x = true → t.stop x = true := by
  cases a with
  | lock =>
    simp only [mainStep] at step
    split at step
    · cases step
      exact ⟨rfl, rfl, rfl, rfl, fun _ asked => asked⟩
    · cases step
  | throws =>
    simp only [mainStep] at step
    split at step
    · cases step
      exact ⟨rfl, rfl, rfl, rfl, fun _ asked => asked⟩
    · cases step
      exact ⟨rfl, rfl, rfl, rfl, fun _ asked => asked⟩
    · cases step
  | statement =>
    simp only [mainStep] at step
    split at step
    · rename_i y todo _
      cases step
      refine ⟨rfl, rfl, rfl, rfl, fun x asked => ?_⟩
      by_cases same : x = y
      · simp [same]
      · simpa [same] using asked
    · split at step
      · cases step
        exact ⟨rfl, rfl, rfl, rfl, fun _ asked => asked⟩
      · cases step
    · cases step
  | _ =>
    simp only [mainStep] at step
    split at step
    · cases step
      exact ⟨rfl, rfl, rfl, rfl, fun _ asked => asked⟩
    · cases step

theorem start_orderly : Orderly (start : State A) :=
  ⟨Or.inl ⟨false, rfl, fun _ => rfl⟩, by simp [start], by simp [start], by simp [start]⟩

theorem watch_orderly {a : WatchTurn A} (orderly : Orderly s) (step : watchStep s a = some t) :
    Orderly t := by
  obtain ⟨main, stop, sync, running, sender⟩ := watch_frame step
  have exits := exits_same (a := .watch a) orderly.exits step main stop
  have unmissed : s.missed = false := by
    cases missed : s.missed with
    | false => rfl
    | true =>
      rw [(orderly.lost missed).1] at running
      cases running
  cases a with
  | test =>
    simp only [watchStep] at step
    split at step
    · cases step
      refine ⟨exits, ?_, by simp [unmissed], ?_⟩
      · cases asked : s.stop .inotify <;> simp
      · cases asked : s.stop .inotify <;> simp
    · cases step
  | read batch =>
    simp only [watchStep] at step
    split at step
    · cases step
      exact ⟨exits, by simp, by simp [unmissed], by simp⟩
    · cases step
      exact ⟨exits, by simp, by simp [unmissed], by simp⟩
    · cases step
  | append =>
    simp only [watchStep] at step
    split at step
    · cases step
      exact ⟨exits, by simp, by simp [unmissed], by simp⟩
    · cases step
  | notify =>
    simp only [watchStep] at step
    have same : s.notifyOne.stop = s.stop ∧ s.notifyOne.missed = s.missed := by
      rw [State.notifyOne]
      split <;> exact ⟨rfl, rfl⟩
    split at step
    · cases step
      refine ⟨exits, by simp, ?_, by simp⟩
      simp [same.2, unmissed]
    · rename_i leaving
      cases step
      have parking : s.notifyOne.sender = .parking ∨ s.notifyOne.sender = .parked ↔
          s.sender = .parking := by
        cases here : s.sender <;> simp [State.notifyOne, here]
      refine ⟨exits, fun _ => ?_, fun lost => ⟨rfl, ?_⟩, fun _ waits => ?_⟩
      · rw [same.1]
        exact orderly.leaving (Or.inl leaving)
      · exact parking.mpr (by simpa using lost)
      · simpa using parking.mp waits
    · cases step

theorem sender_orderly {a : SenderTurn} (orderly : Orderly s) (quiet : a ≠ .spurious)
    (step : senderStep s a = some t) : Orderly t := by
  obtain ⟨main, stop, _, watch, missed, _⟩ := sender_frame step
  have exits := exits_same (a := .sender a) orderly.exits step main stop
  have leaving : t.watch = .leaving ∨ t.watch = .ended → t.stop .inotify = true := by
    rw [watch, stop]
    exact orderly.leaving
  -- who waits goes on waiting, and who does not begins to only before the watcher has ended
  have waits : (s.sender = .parking ∨ s.sender = .parked → t.sender = .parking ∨ t.sender = .parked) ∧
      (s.watch = .ended → t.sender = .parking ∨ t.sender = .parked →
        s.sender = .parking ∨ s.sender = .parked) := by
    cases a with
    | test =>
      simp only [senderStep] at step
      split at step
      · rename_i here
        cases step
        refine ⟨by simp [here], fun gone waiting => ?_⟩
        have asked := exits_order orderly.exits (orderly.leaving (Or.inr gone))
        simp [asked] at waiting
      · cases step
    | park =>
      simp only [senderStep] at step
      split at step
      · rename_i here
        cases step
        exact ⟨fun _ => Or.inr rfl, fun _ _ => Or.inl here⟩
      · cases step
    | spurious => exact absurd rfl quiet
    | lock =>
      simp only [senderStep] at step
      split at step
      · rename_i here _
        cases step
        exact ⟨by simp [here], by simp⟩
      · rename_i here _
        cases step
        exact ⟨by simp [here], by simp⟩
      · cases step
    | check =>
      simp only [senderStep] at step
      split at step
      · rename_i here
        split at step
        · cases step
          exact ⟨by simp [here], by simp⟩
        · cases step
          exact ⟨by simp [here], by simp⟩
      · cases step
    | _ =>
      simp only [senderStep] at step
      split at step
      · rename_i here
        cases step
        exact ⟨by simp [here], by simp⟩
      · cases step
  refine ⟨exits, leaving, ?_, ?_⟩
  · rw [missed, watch]
    exact fun lost => ⟨(orderly.lost lost).1, waits.1 (orderly.lost lost).2⟩
  · rw [missed, watch]
    exact fun gone waiting => orderly.found gone (waits.2 gone waiting)

theorem step_orderly (s : State A) (a : Action A) (t : State A)
    (before : Sound s ∧ Orderly s) (step : calmStep s a = some t) : Sound t ∧ Orderly t := by
  simp only [calmStep, Option.ite_none_right_eq_some] at step
  obtain ⟨quiet, step⟩ := step
  obtain ⟨sound, orderly⟩ := before
  refine ⟨step_sound s a t sound step, ?_⟩
  cases a with
  | main a =>
    obtain ⟨watch, sender, _, missed, stop⟩ := main_frame step
    refine ⟨exits_main orderly.exits (by simpa [calm] using quiet) step, ?_, ?_, ?_⟩
    · rw [watch]
      exact fun leaving => stop _ (orderly.leaving leaving)
    · rw [watch, sender, missed]
      exact orderly.lost
    · rw [watch, sender, missed]
      exact orderly.found
  | watch a => exact watch_orderly orderly step
  | sender a => exact sender_orderly orderly (by simpa [calm] using quiet) step
  | sync a =>
    obtain ⟨sync, same⟩ := sync_other step
    refine ⟨exits_same (a := .sync a) orderly.exits step (by rw [same]) (by rw [same]), ?_, ?_, ?_⟩
    · rw [same]
      exact orderly.leaving
    · rw [same]
      exact orderly.lost
    · rw [same]
      exact orderly.found

end Order

def Main.rank : Main → Nat
  | .running _ => 0
  | .ending todo => todo.length

def Watch.rank : Watch A → Nat
  | .reading => 5
  | .appending _ => 4
  | .notifying => 3
  | .testing => 2
  | .leaving => 1
  | .ended => 0

def Sender.rank : Sender → Nat
  | .sending | .parking => 5
  | .starting | .unlocked | .parked => 4
  | .woken | .locking => 3
  | .testing => 2
  | .passed => 1
  | .ended => 0

def Sync.rank : Sync → Nat
  | .receiving | .reconnecting => 2
  | .testing => 1
  | .ended => 0

/-- What the threads still do by themselves once all of them have been asked to stop. -/
def State.rank (s : State A) : Nat := s.main.rank + s.watch.rank + s.sender.rank + s.sync.rank

/-- Main has asked all threads to stop. -/
def Asked (s : State A) : Prop := ∀ x, s.stop x = true

section Ranks
variable {s t : State A}

theorem main_rank {a : MainTurn} (exits : Exits s) (asked : Asked s) (step : mainStep s a = some t) :
    t.rank < s.rank := by
  obtain ⟨watch, sender, sync, _⟩ := main_frame step
  have shorter : t.main.rank < s.main.rank := by
    rcases exits with ⟨_, _, none⟩ | ⟨_, todo, ending, _⟩
    · have never := asked .sync
      rw [none] at never
      cases never
    · cases a with
      | statement =>
        simp only [mainStep, ending] at step
        split at step
        · rename_i same
          cases same
          cases step
          simp [Main.rank, ending]
        · rename_i same
          cases same
          split at step
          · cases step
            simp [Main.rank, ending]
          · cases step
        · cases step
      | _ => simp [mainStep, ending] at step
  simp only [State.rank, watch, sender, sync]
  omega

theorem watch_rank {a : WatchTurn A} (asked : Asked s) (step : watchStep s a = some t) :
    t.rank < s.rank := by
  obtain ⟨main, _, sync, _, sender⟩ := watch_frame step
  have lower : t.sender.rank ≤ s.sender.rank := by
    rcases sender with same | ⟨parked, woken⟩
    · exact Nat.le_of_eq (congrArg Sender.rank same)
    · rw [parked, woken]
      decide
  have shorter : t.watch.rank < s.watch.rank := by
    cases a with
    | test =>
      simp only [watchStep] at step
      split at step
      · rename_i here
        cases step
        simp [here, Watch.rank, asked .inotify]
      · cases step
    | read batch =>
      simp only [watchStep] at step
      split at step
      · rename_i here
        cases step
        simp [here, Watch.rank]
      · rename_i here
        cases step
        simp [here, Watch.rank]
      · cases step
    | append =>
      simp only [watchStep] at step
      split at step
      · rename_i here _
        cases step
        simp [here, Watch.rank]
      · cases step
    | notify =>
      simp only [watchStep] at step
      split at step
      · rename_i here
        cases step
        simp [here, Watch.rank]
      · rename_i here
        cases step
        simp [here, Watch.rank]
      · cases step
  simp only [State.rank, main, sync]
  omega

theorem sender_rank {a : SenderTurn} (asked : Asked s) (step : senderStep s a = some t) :
    t.rank < s.rank := by
  obtain ⟨main, _, sync, watch, _⟩ := sender_frame step
  have lower : t.sender.rank < s.sender.rank := by
    cases a with
    | test =>
      simp only [senderStep] at step
      split at step
      · rename_i here
        cases step
        simp [here, Sender.rank, asked .fileExchange]
      · cases step
    | lock =>
      simp only [senderStep] at step
      split at step
      · rename_i here _
        cases step
        simp [here, Sender.rank]
      · rename_i here _
        cases step
        simp [here, Sender.rank]
      · cases step
    | check =>
      simp only [senderStep] at step
      split at step
      · rename_i here
        rw [if_pos (asked .fileExchange)] at step
        cases step
        simp [here, Sender.rank]
      · cases step
    | _ =>
      simp only [senderStep] at step
      split at step
      · rename_i here
        cases step
        simp [here, Sender.rank]
      · cases step
  simp only [State.rank, main, watch, sync]
  omega

/-- SyncFromServer waits for the server as often as it does not connect. -/
theorem sync_rank {a : SyncTurn} (asked : Asked s) (step : syncStep s a = some t) :
    t.rank ≤ s.rank ∧ (a = .test → t.rank < s.rank) := by
  obtain ⟨sync, same⟩ := sync_other step
  have lower : t.sync.rank ≤ s.sync.rank ∧ (a = .test → t.sync.rank < s.sync.rank) := by
    cases a with
    | reconnect connects =>
      simp only [syncStep] at step
      split at step
      · rename_i here
        cases step
        cases connects <;> simp [here, Sync.rank]
      · cases step
    | test =>
      simp only [syncStep] at step
      split at step
      · rename_i here
        cases step
        simp [here, Sync.rank, asked .sync]
      · cases step
    | _ =>
      simp only [syncStep] at step
      split at step
      · rename_i here
        cases step
        simp [here, Sync.rank]
      · cases step
  rw [same] at lower ⊢
  simp only [State.rank] at lower ⊢
  exact ⟨by omega, fun test => by have less := lower.2 test; omega⟩

theorem asked_stays {a : Action A} (asked : Asked s) (step : clientStep s a = some t) : Asked t := by
  intro x
  cases a with
  | main a =>
    obtain ⟨_, _, _, _, stop⟩ := main_frame step
    exact stop x (asked x)
  | watch a =>
    obtain ⟨_, stop, _⟩ := watch_frame step
    rw [stop]
    exact asked x
  | sender a =>
    obtain ⟨_, stop, _⟩ := sender_frame step
    rw [stop]
    exact asked x
  | sync a =>
    obtain ⟨sync, rfl⟩ := sync_other step
    exact asked x

/-- Every turn a thread takes by itself brings the end nearer, and no other turn delays it. -/
theorem calm_rank {a : Action A} (before : (Sound s ∧ Orderly s) ∧ Asked s)
    (step : calmStep s a = some t) : t.rank ≤ s.rank ∧ (own a = true → t.rank < s.rank) := by
  simp only [calmStep, Option.ite_none_right_eq_some] at step
  obtain ⟨_, step⟩ := step
  obtain ⟨⟨_, orderly⟩, asked⟩ := before
  cases a with
  | main a =>
    have less := main_rank orderly.exits asked step
    exact ⟨Nat.le_of_lt less, fun _ => less⟩
  | watch a =>
    have less := watch_rank asked step
    exact ⟨Nat.le_of_lt less, fun _ => less⟩
  | sender a =>
    have less := sender_rank asked step
    exact ⟨Nat.le_of_lt less, fun _ => less⟩
  | sync a =>
    obtain ⟨most, test⟩ := sync_rank asked step
    exact ⟨most, fun mine => test (by simpa [own] using mine)⟩

theorem rank_bounded (before : Orderly s) : s.rank ≤ 21 := by
  have program : s.main.rank ≤ 9 := by
    rcases before.exits with ⟨_, running, _⟩ | ⟨done, todo, ending, whole, _⟩
    · simp [running, Main.rank]
    · have total := congrArg List.length whole
      simp [exiting, unwinding, destroy] at total
      simp only [ending, Main.rank]
      omega
  have watch : s.watch.rank ≤ 5 := by
    cases s.watch <;> simp [Watch.rank]
  have sender : s.sender.rank ≤ 5 := by
    cases s.sender <;> simp [Sender.rank]
  have sync : s.sync.rank ≤ 2 := by
    cases s.sync <;> simp [Sync.rank]
  simp only [State.rank]
  omega

end Ranks

section Ends
variable {s t : State A}

/-- Where the threads are when none has anything left to do by itself. -/
theorem waiting_places (sound : Sound s) (orderly : Orderly s) (waiting : Waiting s)
    (asked : Asked s) : s.watch = .ended ∧
      (s.sender = .starting ∨ s.sender = .ended ∨ (s.sender = .parked ∧ s.missed = true)) := by
  have ending : ∀ uploads, s.main ≠ .running uploads := by
    intro uploads running
    rcases orderly.exits with ⟨_, _, none⟩ | ⟨_, _, later, _⟩
    · have never := asked .sync
      rw [none] at never
      cases never
    · rw [running] at later
      cases later
  have idle : s.sender.holds = false := by
    cases here : s.sender with
    | testing => simpa [clientStep, senderStep, here] using waiting (.sender .test) rfl
    | parking => simpa [clientStep, senderStep, here] using waiting (.sender .park) rfl
    | passed =>
      simpa [clientStep, senderStep, here, asked .fileExchange] using waiting (.sender .check) rfl
    | sending => simpa [clientStep, senderStep, here] using waiting (.sender .send) rfl
    | starting | locking | parked | woken | unlocked | ended => rfl
  have free : s.mutex = none := by
    cases held : s.mutex with
    | none => rfl
    | some holder =>
      cases holder with
      | main => exact absurd (sound.uploads.mp held) (ending true)
      | sender =>
        rw [sound.sender.mp held] at idle
        cases idle
  have gone : s.watch = .ended := by
    cases here : s.watch with
    | ended => rfl
    | testing => simpa [clientStep, watchStep, here] using waiting (.watch .test) rfl
    | reading => simpa [clientStep, watchStep, here] using waiting (.watch (.read none)) rfl
    | appending batch =>
      simpa [clientStep, watchStep, here, free] using waiting (.watch .append) rfl
    | notifying => simpa [clientStep, watchStep, here] using waiting (.watch .notify) rfl
    | leaving => simpa [clientStep, watchStep, here] using waiting (.watch .notify) rfl
  refine ⟨gone, ?_⟩
  cases here : s.sender with
  | starting => exact Or.inl rfl
  | ended => exact Or.inr (Or.inl rfl)
  | parked => exact Or.inr (Or.inr ⟨rfl, orderly.found gone (Or.inr here)⟩)
  | locking => simpa [clientStep, senderStep, here, free] using waiting (.sender .lock) rfl
  | woken => simpa [clientStep, senderStep, here, free] using waiting (.sender .lock) rfl
  | unlocked => simpa [clientStep, senderStep, here] using waiting (.sender .notify) rfl
  | testing | parking | passed | sending =>
    rw [here] at idle
    cases idle

/-- When the user exits, the threads are soon left to wait, and the client has ended then unless
    SyncFromServer waits for the server, or SyncFromClient for its list of servers or, because the
    last `notify_one` came between the test of its condition and its wait, for nothing at all. -/
theorem exit_completes_iff (reach : Reachable calmStep start s) (asked : Asked s) :
    (∀ more t, runs calmStep s more = some t → (more.filter own).length ≤ 21) ∧
      ∀ t, Reachable calmStep s t → Waiting t →
        (t.main = .ending [] ↔ t.sync = .ended ∧ t.sender ≠ .starting ∧ t.missed = false) := by
  have kept : ∀ (s : State A) a t, (Sound s ∧ Orderly s) ∧ Asked s → calmStep s a = some t →
      (Sound t ∧ Orderly t) ∧ Asked t := by
    intro s a t before step
    refine ⟨step_orderly s a t before.1 step, asked_stays (a := a) before.2 ?_⟩
    simp only [calmStep, Option.ite_none_right_eq_some] at step
    exact step.2
  have here := invariant_of_reachable step_orderly reach ⟨start_sound, start_orderly⟩
  constructor
  · intro more t run
    have few := own_steps_bounded own kept (fun s a t before step => (calm_rank before step).1)
      (fun s a t before mine step => (calm_rank before step).2 mine) run ⟨here, asked⟩
    have bound := rank_bounded here.2
    omega
  · intro t onward waiting
    obtain ⟨⟨sound, orderly⟩, asked'⟩ := invariant_of_reachable kept onward ⟨here, asked⟩
    obtain ⟨gone, sender⟩ := waiting_places sound orderly waiting asked'
    constructor
    · intro finished
      rcases orderly.exits with ⟨_, running, _⟩ | ⟨done, todo, ending, whole, so⟩
      · rw [finished] at running
        cases running
      · obtain rfl : todo = [] := by
          rw [finished] at ending
          cases ending
          rfl
        rw [List.append_nil] at whole
        subst whole
        have joined : ∀ x, t.hasEnded x = true := by
          intro x
          refine (so x).2 ?_
          cases x <;> decide
        have sync : t.sync = .ended := by simpa [State.hasEnded] using joined .sync
        have exchange : t.sender = .ended := by simpa [State.hasEnded] using joined .fileExchange
        refine ⟨sync, by rw [exchange]; simp, ?_⟩
        cases lost : t.missed with
        | false => rfl
        | true =>
          have still := (orderly.lost lost).2
          rw [exchange] at still
          simp at still
    · rintro ⟨sync, begun, heard⟩
      have exchange : t.sender = .ended := by
        rcases sender with starting | ended | ⟨_, lost⟩
        · exact absurd starting begun
        · exact ended
        · rw [heard] at lost
          cases lost
      have joinable : ∀ x, t.hasEnded x = true := by
        intro x
        cases x <;> simp [State.hasEnded, gone, exchange, sync, Watch.hasEnded]
      have statement := waiting (.main .statement) rfl
      rcases orderly.exits with ⟨_, _, none⟩ | ⟨done, todo, ending, _⟩
      · have never := asked' .sync
        rw [none] at never
        cases never
      · cases todo with
        | nil => exact ending
        | cons first todo =>
          cases first <;> simp [clientStep, mainStep, ending, joinable] at statement

/-- SyncFromClient finds nothing to send, then main asks all threads to stop and the watcher leaves,
    and only then SyncFromClient waits. -/
def lateWait : List (Action Unit) :=
  [.sender .servers, .sender .lock, .sender .test, .main .exit, .main .statement, .main .statement,
    .main .statement, .watch .test, .watch .notify, .sender .park, .sync .test, .main .statement,
    .main .statement, .main .statement]

theorem exit_completes_iff_late : ∃ t : State Unit, runs calmStep start lateWait = some t ∧
    t.sender = .parked ∧ t.watch = .ended ∧ ¬ t.main = .ending [] := by
  have asked : ∀ t : State Unit, runs calmStep start lateWait = some t → Asked t := by
    intro t run x
    cases run
    cases x <;> rfl
  have waiting : ∀ t : State Unit, runs calmStep start lateWait = some t → Waiting t := by
    intro t run a mine
    cases run
    rcases a with (_ | _ | _ | _ | _) | (_ | _ | _ | _) | (_ | _ | _ | _ | _ | _ | _ | _) |
      (_ | _ | _ | _ | _) <;> first | rfl | cases mine
  refine ⟨_, rfl, rfl, rfl, fun finished => ?_⟩
  have completes := exit_completes_iff ⟨lateWait, rfl⟩ (asked _ rfl)
  have heard := ((completes.2 _ (reachable_refl _) (waiting _ rfl)).mp finished).2.2
  cases heard

end Ends

section Throwing
variable {s t : State A}

/-- While UserInput::Start runs no thread is asked to stop. -/
theorem running_unasked (reach : Reachable clientStep start s) {uploads : Bool}
    (running : s.main = .running uploads) (x : Thread) : s.stop x = false := by
  have kept : ∀ (s : State A) a t, (∀ uploads, s.main = .running uploads → ∀ x, s.stop x = false) →
      clientStep s a = some t → ∀ uploads, t.main = .running uploads → ∀ x, t.stop x = false := by
    intro s a t before step uploads later x
    cases a with
    | watch a =>
      obtain ⟨main, stop, _⟩ := watch_frame step
      rw [stop]
      exact before uploads (main.symm.trans later) x
    | sender a =>
      obtain ⟨main, stop, _⟩ := sender_frame step
      rw [stop]
      exact before uploads (main.symm.trans later) x
    | sync a =>
      obtain ⟨sync, rfl⟩ := sync_other step
      exact before uploads later x
    | main a =>
      cases a with
      | lock =>
        simp only [clientStep, mainStep] at step
        split at step
        · rename_i here _
          cases step
          exact before false here x
        · cases step
      | unlock =>
        simp only [clientStep, mainStep] at step
        split at step
        · rename_i here
          cases step
          exact before true here x
        · cases step
      | exit =>
        simp only [clientStep, mainStep] at step
        split at step <;> cases step
        cases later
      | throws =>
        simp only [clientStep, mainStep] at step
        split at step <;> cases step <;> cases later
      | statement =>
        simp only [clientStep, mainStep] at step
        split at step
        · cases step
          cases later
        · split at step <;> cases step
          cases later
        · cases step
  exact invariant_of_reachable kept reach (fun _ _ _ => rfl) uploads running x

/-- Nothing changes in the sync directory, and a wait ends by a notification only. -/
def still : Action A → Bool
  | .watch (.read (some _)) => false
  | .sender turn => turn ≠ .spurious
  | .main _ | .watch _ | .sync _ => true

def stillStep (s : State A) (a : Action A) : Option (State A) :=
  if still a then clientStep s a else none

/-- SyncFromClient waits, nobody is about to notify it, and main wants to join it before it asks the
    watcher to stop. -/
def Hangs (s : State A) : Prop :=
  s.sender = .parked ∧ (s.watch = .testing ∨ s.watch = .reading) ∧ s.stop .inotify = false ∧
    ∃ k ≤ 3, s.main = .ending (unwinding.drop k)

theorem hangs_step (s : State A) (a : Action A) (t : State A) (hangs : Hangs s)
    (step : stillStep s a = some t) : Hangs t := by
  simp only [stillStep, Option.ite_none_right_eq_some] at step
  obtain ⟨quiet, step⟩ := step
  obtain ⟨parked, watching, unasked, k, bound, ending⟩ := hangs
  cases a with
  | sync a =>
    obtain ⟨sync, rfl⟩ := sync_other step
    exact ⟨parked, watching, unasked, k, bound, ending⟩
  | sender a =>
    have other : a ≠ .spurious := by simpa [still] using quiet
    cases a <;> simp [clientStep, senderStep, parked] at step other
  | watch a =>
    cases a with
    | test =>
      rcases watching with here | here
      · simp only [clientStep, watchStep, here, unasked] at step
        cases step
        exact ⟨parked, Or.inr rfl, unasked, k, bound, ending⟩
      · simp [clientStep, watchStep, here] at step
    | read batch =>
      cases batch with
      | some batch => cases quiet
      | none =>
        rcases watching with here | here
        · simp [clientStep, watchStep, here] at step
        · simp only [clientStep, watchStep, here] at step
          cases step
          exact ⟨parked, Or.inl rfl, unasked, k, bound, ending⟩
    | append => rcases watching with here | here <;> simp [clientStep, watchStep, here] at step
    | notify => rcases watching with here | here <;> simp [clientStep, watchStep, here] at step
  | main a =>
    cases a with
    | statement =>
      -- main comes as far as `join` of SyncFromClient, which is the fourth statement
      have place : k = 0 ∨ k = 1 ∨ k = 2 ∨ k = 3 := by omega
      simp only [clientStep, mainStep, ending] at step
      rcases place with rfl | rfl | rfl | rfl
      · cases step
        exact ⟨parked, watching, unasked, 1, by omega, rfl⟩
      · simp only [unwinding, destroy, List.cons_append, List.nil_append, List.drop_succ_cons,
          List.drop_zero] at step
        split at step <;> cases step
        exact ⟨parked, watching, unasked, 2, by omega, rfl⟩
      · cases step
        exact ⟨parked, watching, unasked, 3, by omega, rfl⟩
      · simp [unwinding, destroy, State.hasEnded, parked] at step
    | _ => simp [clientStep, mainStep, ending] at step

/-- When UserInput::Start throws while SyncFromClient waits, main does not come to its end before
    something changes in the sync directory: the watcher, which would notify SyncFromClient, is only
    asked to stop once SyncFromClient has been joined. -/
theorem throw_waits_for_change (reach : Reachable clientStep start s)
    (thrown : mainStep s .throws = some t) (waits : s.sender = .parked)
    (quiet : s.watch = .testing ∨ s.watch = .reading) {more : List (Action A)} {u : State A}
    (run : runs stillStep t more = some u) :
    u.sender = .parked ∧ ∃ todo, u.main = .ending todo ∧ .join .fileExchange ∈ todo := by
  have begins : Hangs t := by
    simp only [mainStep] at thrown
    split at thrown
    · rename_i running
      cases thrown
      exact ⟨waits, quiet, running_unasked reach running .inotify, 0, by omega, rfl⟩
    · rename_i running
      cases thrown
      exact ⟨waits, quiet, running_unasked reach running .inotify, 0, by omega, rfl⟩
    · cases thrown
  obtain ⟨parked, _, _, k, bound, ending⟩ := invariant_of_runs hangs_step run begins
  have place : k = 0 ∨ k = 1 ∨ k = 2 ∨ k = 3 := by omega
  refine ⟨parked, _, ending, ?_⟩
  rcases place with rfl | rfl | rfl | rfl <;> decide

/-- SyncFromClient waits, and Start throws in the middle of an upload. -/
def uploadThrows : List (Action Unit) :=
  [.sender .servers, .sender .lock, .sender .test, .sender .park, .main .lock]

theorem throw_waits_for_change_upload :
    ∃ s t u : State Unit, runs clientStep start uploadThrows = some s ∧
      mainStep s .throws = some t ∧
      runs stillStep t [.main .statement, .sync .test, .main .statement, .watch .test,
        .watch (.read none), .main .statement] = some u ∧ u.sender = .parked := by
  have hangs : ∀ s t u : State Unit, runs clientStep start uploadThrows = some s →
      mainStep s .throws = some t →
      runs stillStep t [.main .statement, .sync .test, .main .statement, .watch .test,
        .watch (.read none), .main .statement] = some u → u.sender = .parked := by
    intro s t u before thrown run
    cases before
    exact (throw_waits_for_change ⟨uploadThrows, rfl⟩ thrown rfl (Or.inl rfl) run).1
  exact ⟨_, _, _, rfl, rfl, rfl, hangs _ _ _ rfl rfl rfl⟩

end Throwing

end DropboxClientShutdown
