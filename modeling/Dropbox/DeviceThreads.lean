import Mathlib.Logic.Function.Basic
import Dropbox.General.Transitions

/-!
The thread that Primary::NewClient starts for a device, and the thread of
ClientHandler::SyncFromClient inside it. `list` holds the handlers of a user's
composite. Emplace runs under the mutex of the pool; the mutex of the composite
(BroadcastLock) is left out, nothing here relies on it. An exception in
SyncFromClient ends the process, so it needs no step.
-/
namespace DropboxDeviceThreads
open Transitions
variable {U H : Type} [DecidableEq U] [DecidableEq H]

def kDeviceLimit : Nat := 2

/-- What a device's thread is given: the user it logs in as, and the descriptor of its payload
    socket, which becomes the id of the handler. -/
structure Client (U : Type) where
  username : U
  id : Nat

/-- Where thread_function is. -/
inductive Main where
  | outside
  | called          -- about to take the mutex of the pool
  | emplacing       -- in ClientComposite::Emplace, before the test of the limit
  | constructing    -- in emplace_back
  | refused         -- left by FullList, or by an exception of the constructor
  | emplaced        -- the handler is in the list, kSyncThread is not started
  | serving         -- in MainLoop
  | removing        -- in Remove
  | removed         -- about to leave the scope of kSyncThread
  | joining
  | ended
  | unwinding       -- an exception leaves the scope of kSyncThread
  | unwindJoining
  | failed          -- left by an exception, with the handler still in the list
  deriving DecidableEq, Repr

/-- Where SyncFromClient is. -/
inductive Sync where
  | off
  | starting        -- archive(GetServers()) and the flush
  | testing         -- the head of the loop
  | receiving       -- ReceiveCommand
  | uploadPath
  | uploadFile
  | deletePath
  | deleteFile
  | broadcasting
  | done
  deriving DecidableEq, Repr

structure State (U H : Type) where
  isOpen : Nat → Bool
  pool : Option H
  list : U → List H
  main : H → Main
  sync : H → Sync
  stop : H → Bool

def start : State U H :=
  ⟨fun _ => false, none, fun _ => [], fun _ => .outside, fun _ => .off, fun _ => false⟩

/-- What SyncFromClient received as a command. -/
inductive Received where
  | upload
  | delete
  | other           -- another command, or none
  deriving DecidableEq, Repr

inductive Action (H : Type) where
  | connect (h : H)
  | lockPool (h : H)
  | checkLimit (h : H)
  | construct (h : H) (throws : Bool)
  | spawn (h : H) (throws : Bool)
  | serve (h : H)
  | serveThrows (h : H)      -- an exception leaves MainLoop
  | finish (h : H)           -- exit or time-out
  | remove (h : H)
  | requestStop (h : H)
  | join (h : H)
  | syncTest (h : H)
  | sync (h : H) (r : Received)
  deriving DecidableEq, Repr

def State.setMain (s : State U H) (h : H) (p : Main) : State U H :=
  { s with main := Function.update s.main h p }

def State.setSync (s : State U H) (h : H) (p : Sync) : State U H :=
  { s with sync := Function.update s.sync h p }

/-- The socket is closed with its owner. -/
def State.close (s : State U H) (id : Nat) : State U H :=
  { s with isOpen := Function.update s.isOpen id false }

/-- One step of SyncFromClient that works on the handler. -/
def Sync.next (r : Received) : Sync → Option Sync
  | .starting => some .testing
  | .receiving =>
    match r with
    | .upload => some .uploadPath
    | .delete => some .deletePath
    | .other => some .testing
  | .uploadPath => some .uploadFile
  | .deletePath => some .deleteFile
  | .uploadFile | .deleteFile => some .broadcasting
  | .broadcasting => some .testing
  | .off | .testing | .done => none

def deviceStep (clients : H → Client U) (s : State U H) : Action H → Option (State U H)
  | .connect h =>
    -- accept never answers with a descriptor that is open
    if s.main h = .outside ∧ s.isOpen (clients h).id = false then
      some { s.setMain h .called with isOpen := Function.update s.isOpen (clients h).id true }
    else none
  | .lockPool h =>
    if s.main h = .called ∧ s.pool = none then
      some { s.setMain h .emplacing with pool := some h }
    else none
  | .checkLimit h =>
    if s.main h = .emplacing then
      if kDeviceLimit ≤ (s.list (clients h).username).length then
        some { (s.setMain h .refused).close (clients h).id with pool := none }
      else some (s.setMain h .constructing)
    else none
  | .construct h throws =>
    if s.main h = .constructing then
      if throws then some { (s.setMain h .refused).close (clients h).id with pool := none }
      else some { s.setMain h .emplaced with
        pool := none,
        list := Function.update s.list (clients h).username (s.list (clients h).username ++ [h]) }
    else none
  | .spawn h throws =>
    if s.main h = .emplaced then
      if throws then some (s.setMain h .failed) else some ((s.setMain h .serving).setSync h .starting)
    else none
  | .serve h => if s.main h = .serving then some s else none
  | .serveThrows h => if s.main h = .serving then some (s.setMain h .unwinding) else none
  | .finish h => if s.main h = .serving then some (s.setMain h .removing) else none
  | .remove h =>
    if s.main h = .removing then
      some { (s.setMain h .removed).close (clients h).id with
        list := Function.update s.list (clients h).username
          ((s.list (clients h).username).filter fun g => (clients g).id ≠ (clients h).id) }
    else none
  | .requestStop h =>
    match s.main h with
    | .removed => some { s.setMain h .joining with stop := Function.update s.stop h true }
    | .unwinding => some { s.setMain h .unwindJoining with stop := Function.update s.stop h true }
    | _ => none
  | .join h =>
    if s.sync h = .done then
      match s.main h with
      | .joining => some (s.setMain h .ended)
      | .unwindJoining => some (s.setMain h .failed)
      | _ => none
    else none
  | .syncTest h =>
    if s.sync h = .testing then some (s.setSync h (if s.stop h then .done else .receiving)) else none
  | .sync h r => ((s.sync h).next r).map (s.setSync h)

/-- What each step finds and does, a branch of `deviceStep` at a time. -/
inductive Stepped (clients : H → Client U) (s : State U H) : Action H → State U H → Prop where
  | connect (h : H) (outside : s.main h = .outside) (fresh : s.isOpen (clients h).id = false) :
    Stepped clients s (.connect h)
      { s.setMain h .called with isOpen := Function.update s.isOpen (clients h).id true }
  | lockPool (h : H) (called : s.main h = .called) (free : s.pool = none) :
    Stepped clients s (.lockPool h) { s.setMain h .emplacing with pool := some h }
  | refused (h : H) (here : s.main h = .emplacing) :
    Stepped clients s (.checkLimit h)
      { (s.setMain h .refused).close (clients h).id with pool := none }
  | checked (h : H) (here : s.main h = .emplacing)
      (below : (s.list (clients h).username).length < kDeviceLimit) :
    Stepped clients s (.checkLimit h) (s.setMain h .constructing)
  | constructThrows (h : H) (here : s.main h = .constructing) :
    Stepped clients s (.construct h true)
      { (s.setMain h .refused).close (clients h).id with pool := none }
  | construct (h : H) (here : s.main h = .constructing) :
    Stepped clients s (.construct h false) { s.setMain h .emplaced with
      pool := none,
      list := Function.update s.list (clients h).username (s.list (clients h).username ++ [h]) }
  | spawnThrows (h : H) (here : s.main h = .emplaced) :
    Stepped clients s (.spawn h true) (s.setMain h .failed)
  | spawn (h : H) (here : s.main h = .emplaced) :
    Stepped clients s (.spawn h false) ((s.setMain h .serving).setSync h .starting)
  | serve (h : H) : Stepped clients s (.serve h) s
  | serveThrows (h : H) (here : s.main h = .serving) :
    Stepped clients s (.serveThrows h) (s.setMain h .unwinding)
  | finish (h : H) (here : s.main h = .serving) :
    Stepped clients s (.finish h) (s.setMain h .removing)
  | remove (h : H) (leaving : s.main h = .removing) :
    Stepped clients s (.remove h) { (s.setMain h .removed).close (clients h).id with
      list := Function.update s.list (clients h).username
        ((s.list (clients h).username).filter fun g => (clients g).id ≠ (clients h).id) }
  | requestStop (h : H) (here : s.main h = .removed) :
    Stepped clients s (.requestStop h)
      { s.setMain h .joining with stop := Function.update s.stop h true }
  | requestStopUnwinding (h : H) (here : s.main h = .unwinding) :
    Stepped clients s (.requestStop h)
      { s.setMain h .unwindJoining with stop := Function.update s.stop h true }
  | join (h : H) (elapsed : s.sync h = .done) (here : s.main h = .joining) :
    Stepped clients s (.join h) (s.setMain h .ended)
  | joinUnwinding (h : H) (elapsed : s.sync h = .done) (here : s.main h = .unwindJoining) :
    Stepped clients s (.join h) (s.setMain h .failed)
  | syncTest (h : H) (here : s.sync h = .testing) :
    Stepped clients s (.syncTest h) (s.setSync h (if s.stop h then .done else .receiving))
  | sync (h : H) (r : Received) (p : Sync) (next : (s.sync h).next r = some p) :
    Stepped clients s (.sync h r) (s.setSync h p)

theorem step_cases {clients : H → Client U} {s t : State U H} {a : Action H}
    (step : deviceStep clients s a = some t) : Stepped clients s a t := by
  cases a with
  | connect h =>
    simp only [deviceStep, Option.ite_none_right_eq_some, Option.some.injEq] at step
    obtain ⟨⟨outside, fresh⟩, rfl⟩ := step
    exact .connect h outside fresh
  | lockPool h =>
    simp only [deviceStep, Option.ite_none_right_eq_some, Option.some.injEq] at step
    obtain ⟨⟨called, free⟩, rfl⟩ := step
    exact .lockPool h called free
  | checkLimit h =>
    simp only [deviceStep, Option.ite_none_right_eq_some] at step
    obtain ⟨here, step⟩ := step
    split at step
    · cases step
      exact .refused h here
    · rename_i below
      cases step
      exact .checked h here (Nat.lt_of_not_le below)
  | construct h throws =>
    simp only [deviceStep, Option.ite_none_right_eq_some] at step
    obtain ⟨here, step⟩ := step
    cases throws with
    | true =>
      cases step
      exact .constructThrows h here
    | false =>
      cases step
      exact .construct h here
  | spawn h throws =>
    simp only [deviceStep, Option.ite_none_right_eq_some] at step
    obtain ⟨here, step⟩ := step
    cases throws with
    | true =>
      cases step
      exact .spawnThrows h here
    | false =>
      cases step
      exact .spawn h here
  | serve h =>
    simp only [deviceStep, Option.ite_none_right_eq_some, Option.some.injEq] at step
    obtain ⟨_, rfl⟩ := step
    exact .serve h
  | serveThrows h =>
    simp only [deviceStep, Option.ite_none_right_eq_some, Option.some.injEq] at step
    obtain ⟨here, rfl⟩ := step
    exact .serveThrows h here
  | finish h =>
    simp only [deviceStep, Option.ite_none_right_eq_some, Option.some.injEq] at step
    obtain ⟨here, rfl⟩ := step
    exact .finish h here
  | remove h =>
    simp only [deviceStep, Option.ite_none_right_eq_some, Option.some.injEq] at step
    obtain ⟨leaving, rfl⟩ := step
    exact .remove h leaving
  | requestStop h =>
    simp only [deviceStep] at step
    split at step
    · rename_i here
      cases step
      exact .requestStop h here
    · rename_i here
      cases step
      exact .requestStopUnwinding h here
    · cases step
  | join h =>
    simp only [deviceStep, Option.ite_none_right_eq_some] at step
    obtain ⟨elapsed, step⟩ := step
    split at step
    · rename_i here
      cases step
      exact .join h elapsed here
    · rename_i here
      cases step
      exact .joinUnwinding h elapsed here
    · cases step
  | syncTest h =>
    simp only [deviceStep, Option.ite_none_right_eq_some, Option.some.injEq] at step
    obtain ⟨here, rfl⟩ := step
    exact .syncTest h here
  | sync h r =>
    simp only [deviceStep, Option.map_eq_some_iff] at step
    obtain ⟨p, next, rfl⟩ := step
    exact .sync h r p next

/-- The handler is in the list of its composite. -/
def Main.listed : Main → Bool
  | .emplaced | .serving | .removing | .unwinding | .unwindJoining | .failed => true
  | _ => false

/-- The payload socket is open. -/
def Main.connected : Main → Bool
  | .called | .emplacing | .constructing => true
  | p => p.listed

/-- In Emplace, under the mutex of the pool. -/
def Main.inPool : Main → Bool
  | .emplacing | .constructing => true
  | _ => false

structure Registered (clients : H → Client U) (s : State U H) : Prop where
  listed : ∀ u h, h ∈ s.list u ↔ (clients h).username = u ∧ (s.main h).listed = true
  nodup : ∀ u, (s.list u).Nodup
  opened : ∀ h, (s.main h).connected = true → s.isOpen (clients h).id = true
  unique : ∀ g h, (s.main g).connected = true → (s.main h).connected = true →
    (clients g).id = (clients h).id → g = h
  pooled : ∀ h, (s.main h).inPool = true → s.pool = some h
  limited : ∀ u, (s.list u).length ≤ kDeviceLimit
  room : ∀ h, s.main h = .constructing → (s.list (clients h).username).length < kDeviceLimit

omit [DecidableEq U] [DecidableEq H] in
theorem registered_start (clients : H → Client U) : Registered clients start := by
  constructor <;> simp [start, Main.listed, Main.connected, Main.inPool]

omit [DecidableEq U] in
theorem main_setMain (s : State U H) (h g : H) (p : Main) :
    (s.setMain h p).main g = if g = h then p else s.main g := by
  simp [State.setMain, Function.update_apply]

theorem connected_of_listed {p : Main} (listed : p.listed = true) : p.connected = true := by
  cases p <;> first | rfl | cases listed

theorem connected_of_inPool {p : Main} (inside : p.inPool = true) : p.connected = true := by
  cases p <;> first | rfl | cases inside

omit [DecidableEq U] in
/-- A move that changes neither the list nor the open sockets. -/
theorem registered_move {clients : H → Client U} {s : State U H} {h : H} {p : Main}
    (registered : Registered clients s) (listed : p.listed = (s.main h).listed)
    (connected : p.connected = (s.main h).connected)
    (pooled : p.inPool = true → s.pool = some h)
    (room : p = .constructing → (s.list (clients h).username).length < kDeviceLimit) :
    Registered clients (s.setMain h p) := by
  have same_connected : ∀ g, ((s.setMain h p).main g).connected = (s.main g).connected := by
    intro g
    rw [main_setMain]
    split
    · rename_i same
      rw [same, connected]
    · rfl
  refine ⟨?_, registered.nodup, ?_, ?_, ?_, registered.limited, ?_⟩
  · intro u g
    rw [main_setMain]
    split
    · rename_i same
      rw [same, listed]
      exact registered.listed u h
    · exact registered.listed u g
  · intro g
    rw [same_connected]
    exact registered.opened g
  · intro g k
    rw [same_connected, same_connected]
    exact registered.unique g k
  · intro g
    rw [main_setMain]
    split
    · rename_i same
      rw [same]
      exact pooled
    · exact registered.pooled g
  · intro g
    rw [main_setMain]
    split
    · rename_i same
      rw [same]
      exact room
    · exact registered.room g

omit [DecidableEq U] in
/-- A move outside Emplace. -/
theorem registered_within {clients : H → Client U} {s : State U H} {h : H} {p : Main}
    (registered : Registered clients s) (listed : p.listed = (s.main h).listed)
    (connected : p.connected = (s.main h).connected) (outside : p.inPool = false) :
    Registered clients (s.setMain h p) := by
  refine registered_move registered listed connected ?_ ?_
  · intro inside
    rw [outside] at inside
    cases inside
  · rintro rfl
    cases outside

omit [DecidableEq U] [DecidableEq H] in
theorem registered_sync {clients : H → Client U} {s : State U H} (registered : Registered clients s)
    (sync : H → Sync) (stop : H → Bool) :
    Registered clients { s with sync := sync, stop := stop } :=
  ⟨registered.listed, registered.nodup, registered.opened, registered.unique, registered.pooled,
    registered.limited, registered.room⟩

omit [DecidableEq U] in
/-- A device that is not listed gives its socket back. -/
theorem registered_leave {clients : H → Client U} {s : State U H} {h : H} {p : Main}
    (registered : Registered clients s) (inside : (s.main h).connected = true)
    (unlisted : (s.main h).listed = false) (gone : p.connected = false) (pool : Option H)
    (pooled : ∀ g, g ≠ h → (s.main g).inPool = true → pool = some g) :
    Registered clients { (s.setMain h p).close (clients h).id with pool := pool } := by
  have other : ∀ {g}, g ≠ h → (s.setMain h p).main g = s.main g := by
    intro g apart
    rw [main_setMain, if_neg apart]
  have here : (s.setMain h p).main h = p := by rw [main_setMain, if_pos rfl]
  have closed : p.connected ≠ true := Bool.eq_false_iff.mp gone
  have unlisted' : p.listed = false := Bool.eq_false_iff.mpr (mt connected_of_listed closed)
  have not_inside : p.inPool = false := Bool.eq_false_iff.mpr (mt connected_of_inPool closed)
  refine ⟨?_, registered.nodup, ?_, ?_, ?_, registered.limited, ?_⟩
  · intro u g
    show g ∈ s.list u ↔ _ ∧ ((s.setMain h p).main g).listed = true
    by_cases same : g = h
    · rw [same, here, unlisted', registered.listed, unlisted]
    · rw [other same]
      exact registered.listed u g
  · intro g still
    change ((s.setMain h p).main g).connected = true at still
    by_cases same : g = h
    · rw [same, here, gone] at still
      cases still
    · rw [other same] at still
      have apart : (clients g).id ≠ (clients h).id := fun equal =>
        same (registered.unique g h still inside equal)
      simpa [State.close, State.setMain, apart] using registered.opened g still
  · intro g k first second equal
    change ((s.setMain h p).main g).connected = true at first
    change ((s.setMain h p).main k).connected = true at second
    by_cases sameG : g = h
    · rw [sameG, here, gone] at first
      cases first
    · by_cases sameK : k = h
      · rw [sameK, here, gone] at second
        cases second
      · rw [other sameG] at first
        rw [other sameK] at second
        exact registered.unique g k first second equal
  · intro g within
    change ((s.setMain h p).main g).inPool = true at within
    by_cases same : g = h
    · rw [same, here, not_inside] at within
      cases within
    · rw [other same] at within
      exact pooled g same within
  · intro g building
    change (s.setMain h p).main g = .constructing at building
    by_cases same : g = h
    · rw [same, here] at building
      rw [building] at gone
      cases gone
    · rw [other same] at building
      exact registered.room g building

omit [DecidableEq U] in
theorem registered_connect {clients : H → Client U} {s : State U H} {h : H}
    (registered : Registered clients s) (outside : s.main h = .outside)
    (fresh : s.isOpen (clients h).id = false) :
    Registered clients { s.setMain h .called with
      isOpen := Function.update s.isOpen (clients h).id true } := by
  -- no thread's socket has the new descriptor
  have apart : ∀ g, (s.main g).connected = true → (clients g).id ≠ (clients h).id := by
    intro g inside equal
    have opened := registered.opened g inside
    rw [equal, fresh] at opened
    cases opened
  have unlisted : ∀ g, ((s.setMain h .called).main g).listed = (s.main g).listed := by
    intro g
    rw [main_setMain]
    split
    · rename_i same
      rw [same, outside]
      rfl
    · rfl
  have connected : ∀ g, ((s.setMain h .called).main g).connected = true →
      g = h ∨ (s.main g).connected = true := by
    intro g inside
    rw [main_setMain] at inside
    split at inside
    · exact Or.inl ‹_›
    · exact Or.inr inside
  refine ⟨?_, registered.nodup, ?_, ?_, ?_, registered.limited, ?_⟩
  · intro u g
    show g ∈ s.list u ↔ _ ∧ ((s.setMain h .called).main g).listed = true
    rw [unlisted]
    exact registered.listed u g
  · intro g inside
    rcases connected g inside with rfl | before
    · simp
    · simpa [apart g before] using registered.opened g before
  · intro g k first second equal
    rcases connected g first with rfl | firstBefore
    · rcases connected k second with rfl | secondBefore
      · rfl
      · exact absurd equal.symm (apart k secondBefore)
    · rcases connected k second with rfl | secondBefore
      · exact absurd equal (apart g firstBefore)
      · exact registered.unique g k firstBefore secondBefore equal
  · intro g within
    change ((s.setMain h .called).main g).inPool = true at within
    rw [main_setMain] at within
    split at within
    · cases within
    · exact registered.pooled g within
  · intro g building
    change (s.setMain h .called).main g = .constructing at building
    rw [main_setMain] at building
    split at building
    · cases building
    · exact registered.room g building

omit [DecidableEq U] [DecidableEq H] in
/-- The holder of the pool is the only thread in Emplace. -/
theorem only_in_pool {clients : H → Client U} {s : State U H} {h g : H}
    (registered : Registered clients s) (inside : (s.main h).inPool = true) (apart : g ≠ h) :
    (s.main g).inPool = false := by
  cases within : (s.main g).inPool with
  | false => rfl
  | true =>
    have both := (registered.pooled h inside).symm.trans (registered.pooled g within)
    exact absurd (Option.some.inj both).symm apart

theorem registered_construct {clients : H → Client U} {s : State U H} {h : H}
    (registered : Registered clients s) (building : s.main h = .constructing) :
    Registered clients { s.setMain h .emplaced with
      pool := none,
      list := Function.update s.list (clients h).username
        (s.list (clients h).username ++ [h]) } := by
  have inside : (s.main h).inPool = true := by rw [building]; rfl
  have absent : ∀ u, h ∉ s.list u := by
    intro u member
    have listed := ((registered.listed u h).mp member).2
    rw [building] at listed
    cases listed
  have connected : ∀ g, ((s.setMain h .emplaced).main g).connected = (s.main g).connected := by
    intro g
    rw [main_setMain]
    split
    · rename_i same
      rw [same, building]
      rfl
    · rfl
  have others : ∀ g, ((s.setMain h .emplaced).main g).inPool = true → False := by
    intro g within
    rw [main_setMain] at within
    split at within
    · cases within
    · rename_i apart
      rw [only_in_pool registered inside apart] at within
      cases within
  refine ⟨?_, ?_, ?_, ?_, ?_, ?_, ?_⟩
  · intro u g
    show g ∈ Function.update s.list _ _ u ↔ _ ∧ ((s.setMain h .emplaced).main g).listed = true
    rw [main_setMain]
    by_cases user : u = (clients h).username
    · by_cases same : g = h
      · simp [user, same, Main.listed]
      · simpa [user, same] using registered.listed (clients h).username g
    · by_cases same : g = h
      · simp [user, same, absent, Ne.symm user]
      · simpa [user, same] using registered.listed u g
  · intro u
    by_cases user : u = (clients h).username
    · simpa [user] using
        List.nodup_append.mpr ⟨registered.nodup _, by simp, by
          simpa using fun g member same => absent _ (same ▸ member)⟩
    · simpa [user] using registered.nodup u
  · intro g still
    exact registered.opened g ((connected g).symm.trans still)
  · intro g k first second
    exact registered.unique g k ((connected g).symm.trans first) ((connected k).symm.trans second)
  · exact fun g within => (others g within).elim
  · intro u
    have fits := registered.room h building
    by_cases user : u = (clients h).username
    · simpa [user] using Nat.succ_le_of_lt fits
    · simpa [user] using registered.limited u
  · intro g within
    change (s.setMain h .emplaced).main g = .constructing at within
    exact (others g (by rw [within]; rfl)).elim

omit [DecidableEq U] [DecidableEq H] in
/-- remove_if takes out one handler, the ids of the listed ones being different. -/
theorem remove_own {clients : H → Client U} {s : State U H} {h g : H} {u : U}
    (registered : Registered clients s) (leaving : s.main h = .removing) :
    g ∈ (s.list u).filter (fun k => (clients k).id ≠ (clients h).id) ↔ g ∈ s.list u ∧ g ≠ h := by
  rw [List.mem_filter, decide_eq_true_eq]
  constructor
  · rintro ⟨member, different⟩
    refine ⟨member, ?_⟩
    rintro rfl
    exact different rfl
  · rintro ⟨member, apart⟩
    refine ⟨member, fun equal => apart ?_⟩
    have inside := connected_of_listed ((registered.listed u g).mp member).2
    exact registered.unique g h inside (by rw [leaving]; rfl) equal

theorem registered_remove {clients : H → Client U} {s : State U H} {h : H}
    (registered : Registered clients s) (leaving : s.main h = .removing) :
    Registered clients { (s.setMain h .removed).close (clients h).id with
      list := Function.update s.list (clients h).username
        ((s.list (clients h).username).filter fun g => (clients g).id ≠ (clients h).id) } := by
  have shorter : ∀ u, List.Sublist (Function.update s.list (clients h).username
      ((s.list (clients h).username).filter fun g => (clients g).id ≠ (clients h).id) u)
      (s.list u) := by
    intro u
    by_cases user : u = (clients h).username
    · rw [user, Function.update_self]
      exact List.filter_sublist
    · rw [Function.update_of_ne user]
  have connected : ∀ g, ((s.setMain h .removed).main g).connected = true →
      g ≠ h ∧ (s.main g).connected = true := by
    intro g inside
    rw [main_setMain] at inside
    split at inside
    · cases inside
    · exact ⟨‹_›, inside⟩
  refine ⟨?_, fun u => (registered.nodup u).sublist (shorter u), ?_, ?_, ?_, ?_, ?_⟩
  · intro u g
    show g ∈ Function.update s.list _ _ u ↔ _ ∧ ((s.setMain h .removed).main g).listed = true
    rw [main_setMain]
    by_cases user : u = (clients h).username
    · rw [user, Function.update_self, remove_own registered leaving, registered.listed]
      by_cases same : g = h
      · simp [same, Main.listed]
      · simp [same]
    · rw [Function.update_of_ne user, registered.listed]
      by_cases same : g = h
      · simp [same, Ne.symm user]
      · simp [same]
  · intro g inside
    obtain ⟨apart, before⟩ := connected g inside
    have different : (clients g).id ≠ (clients h).id := fun equal =>
      apart (registered.unique g h before (by rw [leaving]; rfl) equal)
    simpa [State.close, State.setMain, different] using registered.opened g before
  · intro g k first second
    exact registered.unique g k (connected g first).2 (connected k second).2
  · intro g within
    change ((s.setMain h .removed).main g).inPool = true at within
    rw [main_setMain] at within
    split at within
    · cases within
    · exact registered.pooled g within
  · intro u
    exact Nat.le_trans (shorter u).length_le (registered.limited u)
  · intro g building
    change (s.setMain h .removed).main g = .constructing at building
    rw [main_setMain] at building
    split at building
    · cases building
    · exact Nat.lt_of_le_of_lt (shorter _).length_le (registered.room g building)

omit [DecidableEq U] in
theorem registered_lockPool {clients : H → Client U} {s : State U H} {h : H}
    (registered : Registered clients s) (called : s.main h = .called) (free : s.pool = none) :
    Registered clients { s.setMain h .emplacing with pool := some h } := by
  have nobody : ∀ g, (s.main g).inPool = true → some h = some g := by
    intro g within
    have held := registered.pooled g within
    rw [free] at held
    cases held
  have locked : Registered clients { s with pool := some h } :=
    ⟨registered.listed, registered.nodup, registered.opened, registered.unique, nobody,
      registered.limited, registered.room⟩
  refine registered_move (s := { s with pool := some h }) locked ?_ ?_ (fun _ => rfl) ?_
  · show _ = (s.main h).listed
    rw [called]
    rfl
  · show _ = (s.main h).connected
    rw [called]
    rfl
  · intro building
    cases building

omit [DecidableEq U] in
/-- Emplace throws, with the list as it was. -/
theorem registered_refuse {clients : H → Client U} {s : State U H} {h : H}
    (registered : Registered clients s) (inside : (s.main h).inPool = true) :
    Registered clients { (s.setMain h .refused).close (clients h).id with pool := none } := by
  have position : s.main h = .emplacing ∨ s.main h = .constructing := by
    cases here : s.main h <;> simp_all [Main.inPool]
  refine registered_leave registered ?_ ?_ rfl none ?_
  · rcases position with here | here <;> rw [here] <;> rfl
  · rcases position with here | here <;> rw [here] <;> rfl
  · intro g apart within
    rw [only_in_pool registered inside apart] at within
    cases within

theorem step_registered {clients : H → Client U} (s : State U H) (a : Action H) (t : State U H)
    (registered : Registered clients s) (step : deviceStep clients s a = some t) :
    Registered clients t := by
  cases step_cases step with
  | connect h outside fresh => exact registered_connect registered outside fresh
  | lockPool h called free => exact registered_lockPool registered called free
  | refused h here =>
    have inside : (s.main h).inPool = true := by rw [here]; rfl
    exact registered_refuse registered inside
  | checked h here below =>
    have inside : (s.main h).inPool = true := by rw [here]; rfl
    refine registered_move registered (by rw [here]; rfl) (by rw [here]; rfl) ?_ ?_
    · exact fun _ => registered.pooled h inside
    · exact fun _ => below
  | constructThrows h here =>
    have inside : (s.main h).inPool = true := by rw [here]; rfl
    exact registered_refuse registered inside
  | construct h here => exact registered_construct registered here
  | spawn h here =>
    have moved : Registered clients (s.setMain h .serving) :=
      registered_within registered (by rw [here]; rfl) (by rw [here]; rfl) rfl
    exact registered_sync moved _ _
  | serve h => exact registered
  | remove h leaving => exact registered_remove registered leaving
  | requestStop h here =>
    have moved : Registered clients (s.setMain h .joining) :=
      registered_within registered (by rw [here]; rfl) (by rw [here]; rfl) rfl
    exact registered_sync moved _ _
  | requestStopUnwinding h here =>
    have moved : Registered clients (s.setMain h .unwindJoining) :=
      registered_within registered (by rw [here]; rfl) (by rw [here]; rfl) rfl
    exact registered_sync moved _ _
  | spawnThrows h here | serveThrows h here | finish h here =>
    exact registered_within registered (by rw [here]; rfl) (by rw [here]; rfl) rfl
  | join h elapsed here | joinUnwinding h elapsed here =>
    exact registered_within registered (by rw [here]; rfl) (by rw [here]; rfl) rfl
  | syncTest h here => exact registered_sync registered _ _
  | sync h r p next => exact registered_sync registered _ _

/-- Between Emplace and the end of MainLoop. -/
def Main.serves : Main → Bool
  | .emplaced | .serving => true
  | _ => false

/-- In Emplace or Remove. -/
def Main.changing : Main → Bool
  | .emplacing | .constructing | .removing => true
  | _ => false

/-- Left, or being left, by an exception, with the handler in the list. -/
def Main.raised : Main → Bool
  | .unwinding | .unwindJoining | .failed => true
  | _ => false

/-- The devices in a composite's list are those whose threads still serve them. -/
structure SlotsTrack (clients : H → Client U) (s : State U H) : Prop where
  limited : ∀ u, (s.list u).length ≤ kDeviceLimit
  nodup : ∀ u, (s.list u).Nodup
  devices : ∀ u, (∀ h, (clients h).username = u → (s.main h).changing = false) →
    ∀ h, h ∈ s.list u ↔ (clients h).username = u ∧ (s.main h).serves = true
  refusals : ∀ h t, deviceStep clients s (.checkLimit h) = some t → t.main h = .refused →
    (s.list (clients h).username).length = kDeviceLimit ∧
      ∀ g ∈ s.list (clients h).username, (s.main g).serves = true ∨ s.main g = .removing
  broadcasts : ∀ u, ∀ g ∈ s.list u, (s.main g).serves = true ∨ s.main g = .removing

/-- Two devices whose handlers end by an exception keep their slots, and a third is refused. -/
theorem exceptions_keep_slots :
    ¬ ∀ (actions : List (Action (Fin 3))) (s : State Unit (Fin 3)),
      runs (deviceStep fun h : Fin 3 => ⟨(), h.val⟩) start actions = some s →
        SlotsTrack (fun h : Fin 3 => ⟨(), h.val⟩) s := by
  intro claim
  have track := claim ([0, 1].flatMap (fun h => [.connect h, .lockPool h, .checkLimit h,
    .construct h false, .spawn h false, .serveThrows h, .requestStop h, .sync h .other, .syncTest h,
    .join h]) ++ [.connect 2, .lockPool 2]) _ rfl
  rcases (track.refusals 2 _ rfl rfl).2 0 (by decide) with serves | removing
  · exact absurd serves (by decide)
  · exact absurd removing (by decide)

/-- No exception leaves thread_function once the handler is in the list. -/
def NoException : State U H → Action H → Prop
  | _, .spawn _ throws => throws = false
  | _, .serveThrows _ => False
  | _, _ => True

instance (s : State U H) (a : Action H) : Decidable (NoException s a) := by
  cases a <;> simp only [NoException] <;> infer_instance

omit [DecidableEq U] in
theorem raised_move {s : State U H} {h : H} {p : Main} (none_raised : ∀ g, (s.main g).raised = false)
    (calm : p.raised = false) (g : H) : ((s.setMain h p).main g).raised = false := by
  rw [main_setMain]
  split
  · exact calm
  · exact none_raised g

theorem step_none_raised {clients : H → Client U} (s : State U H) (a : Action H) (t : State U H)
    (none_raised : ∀ g, (s.main g).raised = false) (calm : NoException s a)
    (step : deviceStep clients s a = some t) : ∀ g, (t.main g).raised = false := by
  cases step_cases step with
  | spawnThrows h here => cases calm
  | serveThrows h here => exact absurd calm id
  | requestStopUnwinding h here =>
    have quiet := none_raised h
    rw [here] at quiet
    cases quiet
  | joinUnwinding h elapsed here =>
    have quiet := none_raised h
    rw [here] at quiet
    cases quiet
  | serve | syncTest | sync => exact none_raised
  | connect | lockPool | refused | checked | constructThrows | construct | spawn | finish | remove
  | requestStop | join => exact raised_move none_raised rfl

theorem listed_iff {p : Main} (calm : p.raised = false) :
    p.listed = true ↔ p.serves = true ∨ p = .removing := by
  cases p with
  | unwinding | unwindJoining | failed => cases calm
  | _ => simp [Main.listed, Main.serves]

theorem slotsTrack_of_registered {clients : H → Client U} {s : State U H}
    (registered : Registered clients s) (none_raised : ∀ g, (s.main g).raised = false) :
    SlotsTrack clients s := by
  have kinds : ∀ g, (s.main g).listed = true ↔ (s.main g).serves = true ∨ s.main g = .removing :=
    fun g => listed_iff (none_raised g)
  have members : ∀ u, ∀ g ∈ s.list u, (s.main g).serves = true ∨ s.main g = .removing :=
    fun u g member => (kinds g).mp ((registered.listed u g).mp member).2
  refine ⟨registered.limited, registered.nodup, ?_, ?_, members⟩
  · intro u settled h
    rw [registered.listed, kinds]
    constructor
    · rintro ⟨user, serves | removing⟩
      · exact ⟨user, serves⟩
      · have quiet := settled h user
        rw [removing] at quiet
        cases quiet
    · rintro ⟨user, serves⟩
      exact ⟨user, Or.inl serves⟩
  · intro h t step refused
    refine ⟨Nat.le_antisymm (registered.limited _) ?_, members _⟩
    simp only [deviceStep, Option.ite_none_right_eq_some] at step
    obtain ⟨_, step⟩ := step
    split at step
    · assumption
    · cases step
      rw [main_setMain, if_pos rfl] at refused
      cases refused

/-- In every run in which no exception leaves thread_function past Emplace, the lists hold exactly
    the devices that are served. -/
theorem slots_track_devices {clients : H → Client U} {actions : List (Action H)} {s : State U H}
    (calm : Allowed (deviceStep clients) NoException start actions)
    (run : runs (deviceStep clients) start actions = some s) : SlotsTrack clients s := by
  have registered := invariant_of_runs step_registered run (registered_start clients)
  have none_raised := invariant_of_allowed step_none_raised calm run fun _ => rfl
  exact slotsTrack_of_registered registered none_raised

/-- Two devices of one user, one of which has left. -/
theorem slots_track_devices_two :
    ∃ s : State Unit (Fin 3), s.list () = [1] ∧ SlotsTrack (fun h : Fin 3 => ⟨(), h.val⟩) s :=
  have calm : Allowed (deviceStep fun h : Fin 3 => ⟨(), h.val⟩) NoException start
      ([0, 1].flatMap (fun h => [.connect h, .lockPool h, .checkLimit h, .construct h false,
        .spawn h false, .serve h]) ++ [.finish 0, .remove 0]) := by
    decide
  ⟨_, rfl, slots_track_devices calm rfl⟩

/-- A step of SyncFromClient that works on its handler. -/
def Sync.uses : Sync → Bool
  | .off | .testing | .done => false
  | _ => true

/-- The handler SyncFromClient works on is in the list of its composite. -/
def UsesListed (clients : H → Client U) (s : State U H) : Action H → Prop
  | .sync h _ => (s.sync h).uses = true → h ∈ s.list (clients h).username
  | _ => True

/-- The main loop ends while SyncFromClient waits for a command: Remove destroys the handler, and
    SyncFromClient goes on with it. -/
theorem sync_outlives_handler :
    ¬ ∀ (actions : List (Action Unit)) (s : State Unit Unit),
      runs (deviceStep fun _ => ⟨(), 0⟩) start actions = some s →
        Allowed (deviceStep fun _ => ⟨(), 0⟩) (UsesListed fun _ => ⟨(), 0⟩) start actions := by
  intro claim
  have uses := claim ([.connect (), .lockPool (), .checkLimit (), .construct () false,
    .spawn () false, .sync () .other, .syncTest (), .finish (), .remove ()] ++ [.sync () .upload])
    _ rfl
  have last := (allowed_append uses rfl).2.1 rfl
  cases last

/-- Remove is called only while SyncFromClient is at the head of its loop, and from then on it
    stays there until a stop is requested. -/
def Careful (clients : H → Client U) (s : State U H) : Action H → Prop
  | .remove h => s.sync h = .testing
  | .syncTest h => h ∈ s.list (clients h).username ∨ s.stop h = true
  | _ => True

instance (clients : H → Client U) (s : State U H) (a : Action H) :
    Decidable (Careful clients s a) := by
  cases a <;> simp only [Careful] <;> infer_instance

/-- While SyncFromClient works, its handler is in the list. -/
def Retained (s : State U H) : Prop := ∀ h, (s.sync h).uses = true → (s.main h).listed = true

omit [DecidableEq U] in
theorem retained_move {s : State U H} {h : H} {p : Main} (retained : Retained s)
    (kept : (s.sync h).uses = true → (s.main h).listed = true → p.listed = true) :
    Retained (s.setMain h p) := by
  intro g uses
  rw [main_setMain]
  split
  · rename_i same
    rw [same] at uses
    exact kept uses (retained h uses)
  · exact retained g uses

omit [DecidableEq U] in
theorem retained_sync {s : State U H} {h : H} {p : Sync} (retained : Retained s)
    (held : p.uses = true → (s.main h).listed = true) : Retained (s.setSync h p) := by
  intro g uses
  by_cases same : g = h
  · rw [same] at uses ⊢
    exact held (by simpa [State.setSync] using uses)
  · exact retained g (by simpa [State.setSync, same] using uses)

theorem uses_of_next {p q : Sync} {r : Received} (next : p.next r = some q) : p.uses = true := by
  cases p with
  | off | testing | done => cases next
  | _ => rfl

/-- Everything but Remove keeps a listed handler listed. -/
theorem step_retained {clients : H → Client U} (s : State U H) (a : Action H) (t : State U H)
    (good : Registered clients s ∧ Retained s) (careful : Careful clients s a)
    (step : deviceStep clients s a = some t) : Registered clients t ∧ Retained t := by
  refine ⟨step_registered s a t good.1 step, ?_⟩
  obtain ⟨registered, retained⟩ := good
  cases step_cases step with
  | connect h here | lockPool h here | refused h here | checked h here | constructThrows h here
  | requestStop h here =>
    refine retained_move retained fun _ listed => ?_
    rw [here] at listed
    cases listed
  | construct | spawnThrows | serveThrows | finish | requestStopUnwinding | joinUnwinding =>
    exact retained_move retained fun _ _ => rfl
  | spawn h here =>
    have moved : Retained (s.setMain h .serving) := retained_move retained fun _ _ => rfl
    refine retained_sync moved fun _ => ?_
    rw [main_setMain, if_pos rfl]
    rfl
  | serve h => exact retained
  | remove h leaving =>
    have idle : s.sync h = .testing := careful
    refine retained_move retained fun uses _ => ?_
    rw [idle] at uses
    cases uses
  | join h elapsed here =>
    refine retained_move retained fun uses _ => ?_
    rw [elapsed] at uses
    cases uses
  | syncTest h here =>
    refine retained_sync retained fun uses => ?_
    split at uses
    · cases uses
    · rename_i going
      rcases careful with member | stopped
      · exact ((registered.listed _ h).mp member).2
      · exact absurd stopped going
  | sync h r p next =>
    exact retained_sync retained fun _ => retained h (uses_of_next next)

/-- In every run in which Remove finds SyncFromClient at the head of its loop, and no stop token is
    tested between Remove and the request to stop, SyncFromClient works on listed handlers only. -/
theorem sync_stays_within_handler {clients : H → Client U} {actions : List (Action H)}
    (careful : Allowed (deviceStep clients) (Careful clients) start actions) :
    Allowed (deviceStep clients) (UsesListed clients) start actions := by
  have begins : Registered clients (start : State U H) ∧ Retained (start : State U H) := by
    refine ⟨registered_start clients, fun h uses => ?_⟩
    cases uses
  refine allowed_of_invariant step_retained ?_ careful begins
  rintro s a ⟨registered, retained⟩ _
  cases a with
  | sync h r => exact fun uses => (registered.listed _ h).mpr ⟨rfl, retained h uses⟩
  | _ => trivial

/-- The sync loop handles a delete, comes back to its head, and there the handler is removed. -/
theorem sync_stays_within_handler_delete :
    Allowed (deviceStep fun _ : Unit => ⟨(), 0⟩) (UsesListed fun _ => ⟨(), 0⟩) start
      [.connect (), .lockPool (), .checkLimit (), .construct () false, .spawn () false,
        .sync () .other, .syncTest (), .sync () .delete, .sync () .other, .sync () .other,
        .sync () .other, .finish (), .remove (), .requestStop (), .syncTest (), .join ()] :=
  sync_stays_within_handler (by decide)

end DropboxDeviceThreads
