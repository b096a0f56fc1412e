import Mathlib.Logic.Function.Basic
import Dropbox.DeviceThreads
import Dropbox.General.Transitions

/-!
ClientComposite::BroadcastCommand, Emplace and Remove, called one after the other.
`users` is the static counter of BroadcastCommand. What a recipient's method does is an
argument; of a call that waits for a mutex that nobody unlocks there is no result.
-/
namespace DropboxBroadcast
open Transitions DropboxDeviceThreads
variable {D B C R : Type} [DecidableEq C] {getId : D → Int}

/-- How a bool function ends: with true, with false, or with an exception. -/
inductive Outcome where
  | success
  | failure
  | throws
  deriving DecidableEq, Repr

/-- `list` has the devices of each composite. -/
structure State (D C : Type) where
  users : UInt8
  mutex : C → Bool
  list : C → List D

def start (list : C → List D) : State D C := ⟨0, fun _ => false, list⟩

def State.lock (s : State D C) (c : C) : Option (State D C) :=
  if s.mutex c then none else some { s with mutex := Function.update s.mutex c true }

def State.unlock (s : State D C) (c : C) : State D C :=
  { s with mutex := Function.update s.mutex c false }

/-- A loop over recipients, up to the first one whose method does not return true. -/
def invokeEach (method : R → Outcome) : List R → List R × Outcome
  | [] => ([], .success)
  | r :: rest =>
    match method r with
    | .success => (r :: (invokeEach method rest).1, (invokeEach method rest).2)
    | ended => ([r], ended)

/-- What a broadcast has done: how it ended, whose methods it called, the state it left. -/
structure Broadcast (D B C : Type) where
  outcome : Outcome
  clients : List D
  backups : List B
  state : State D C

/-- The recipients of a broadcast and what becomes of each. -/
structure Command (D B : Type) where
  method : D → Outcome
  backupMethod : B → Outcome
  origin : Int
  backups : List B

/-- The filter_view. -/
def Command.clients (getId : D → Int) (m : Command D B) (list : List D) : List D :=
  list.filter fun d => getId d ≠ m.origin

/-- The lock at the beginning of BroadcastCommand. -/
def State.enter (s : State D C) (c : C) : Option (State D C) :=
  let s := { s with users := s.users + 1 }
  if s.users = 1 then s.lock c else some s

/-- The unlock at its end. -/
def State.leave (s : State D C) (c : C) : State D C :=
  let s := { s with users := s.users - 1 }
  if s.users = 0 then s.unlock c else s

def broadcastCommand (getId : D → Int) (m : Command D B) (s : State D C) (c : C) :
    Option (Broadcast D B C) := do
  let s ← s.enter c
  let clients := invokeEach m.method (m.clients getId (s.list c))
  if clients.2 ≠ .success then return ⟨clients.2, clients.1, [], s⟩
  let backups := invokeEach m.backupMethod m.backups
  if backups.2 ≠ .success then return ⟨backups.2, clients.1, backups.1, s⟩
  return ⟨.success, clients.1, backups.1, s.leave c⟩

inductive Call (D B C : Type) where
  | broadcast (c : C) (m : Command D B)
  | emplace (c : C) (d : D) (constructs : Bool)   -- false: the constructor throws
  | remove (c : C) (i : Int)

/-- A std::lock_guard around a function that may throw. -/
def State.guarded (s : State D C) (c : C) (f : State D C → State D C) : Option (State D C) := do
  let s ← s.lock c
  return (f s).unlock c

def State.setList (s : State D C) (c : C) (l : List D) : State D C :=
  { s with list := Function.update s.list c l }

def callStep (getId : D → Int) (s : State D C) : Call D B C → Option (State D C)
  | .broadcast c m => (broadcastCommand getId m s c).map Broadcast.state
  | .emplace c d constructs =>
    s.guarded c fun s =>
      if kDeviceLimit ≤ (s.list c).length then s
      else if constructs then s.setList c (s.list c ++ [d]) else s
  | .remove c i => s.guarded c fun s => s.setList c ((s.list c).filter fun d => getId d ≠ i)

theorem invokeEach_success (method : R → Outcome) (rs : List R) :
    (invokeEach method rs).2 = .success ↔ ∀ r ∈ rs, method r = .success := by
  induction rs with
  | nil => simp [invokeEach]
  | cons r rest ih =>
    rw [List.forall_mem_cons, ← ih]
    cases ended : method r <;> simp [invokeEach, ended]

theorem invokeEach_all {method : R → Outcome} {rs : List R}
    (succeed : ∀ r ∈ rs, method r = .success) : (invokeEach method rs).1 = rs := by
  induction rs with
  | nil => rfl
  | cons r rest ih =>
    obtain ⟨first, later⟩ := List.forall_mem_cons.mp succeed
    simp only [invokeEach, first, ih later]

/-- The loop gets to the end of the list if no recipient before the last one stops it. -/
theorem invokeEach_reaches (method : R → Outcome) (rs : List R) :
    (invokeEach method rs).1 = rs ↔ ∀ o ∈ (rs.map method).dropLast, o = .success := by
  induction rs with
  | nil => simp [invokeEach]
  | cons r rest ih =>
    cases rest with
    | nil => cases ended : method r <;> simp [invokeEach, ended]
    | cons next rest =>
      rw [List.map_cons, List.map_cons, List.dropLast_cons_cons, List.forall_mem_cons,
        ← List.map_cons, ← ih]
      cases ended : method r with
      | success =>
        rw [invokeEach, ended]
        simp
      | failure => simp [invokeEach, ended]
      | throws => simp [invokeEach, ended]

theorem enter_list {s t : State D C} {c : C} (entered : s.enter c = some t) : t.list = s.list := by
  simp only [State.enter, State.lock] at entered
  split at entered
  · split at entered
    · cases entered
    · cases entered
      rfl
  · cases entered
    rfl

/-- Every device but the origin. -/
def AllClients (getId : D → Int) (m : Command D B) (list : List D) : Prop :=
  ∀ d ∈ m.clients getId list, m.method d = .success

def AllBackups (m : Command D B) : Prop := ∀ b ∈ m.backups, m.backupMethod b = .success

/-- A broadcast ends in the first loop, in the second one, or after both. -/
theorem broadcast_cases {m : Command D B} {s : State D C} {c : C} {b : Broadcast D B C}
    (returns : broadcastCommand getId m s c = some b) :
    ∃ t, s.enter c = some t ∧ b.clients = (invokeEach m.method (m.clients getId (s.list c))).1 ∧
      (¬ AllClients getId m (s.list c) ∧ b.outcome ≠ .success ∧ b.backups = [] ∧ b.state = t ∨
        AllClients getId m (s.list c) ∧ b.backups = (invokeEach m.backupMethod m.backups).1 ∧
          (¬ AllBackups m ∧ b.outcome ≠ .success ∧ b.state = t ∨
            AllBackups m ∧ b.outcome = .success ∧ b.state = t.leave c)) := by
  obtain ⟨t, entered, rest⟩ := Option.bind_eq_some_iff.mp returns
  refine ⟨t, entered, ?_⟩
  dsimp only at rest
  rw [enter_list entered] at rest
  have clients := invokeEach_success m.method (m.clients getId (s.list c))
  have backups := invokeEach_success m.backupMethod m.backups
  by_cases first : (invokeEach m.method (m.clients getId (s.list c))).2 = .success
  · have all : AllClients getId m (s.list c) := clients.mp first
    rw [if_neg (not_not.mpr first)] at rest
    by_cases second : (invokeEach m.backupMethod m.backups).2 = .success
    · rw [if_neg (not_not.mpr second)] at rest
      cases rest
      exact ⟨rfl, Or.inr ⟨all, rfl, Or.inr ⟨backups.mp second, rfl, rfl⟩⟩⟩
    · rw [if_pos second] at rest
      cases rest
      exact ⟨rfl, Or.inr ⟨all, rfl, Or.inl ⟨fun every => second (backups.mpr every), second, rfl⟩⟩⟩
  · rw [if_pos first] at rest
    cases rest
    exact ⟨rfl, Or.inl ⟨fun every => first (clients.mpr every), first, rfl, rfl⟩⟩

/-- The methods that a broadcast is to call, and the answer it is to give. -/
structure ReachesAll (getId : D → Int) (m : Command D B) (list : List D) (b : Broadcast D B C) :
    Prop where
  clients : b.clients = m.clients getId list
  backups : b.backups = m.backups
  answer : b.outcome = .success ↔ AllClients getId m list ∧ AllBackups m

/-- How the methods of all recipients end, in the order of the two loops. -/
def Command.outcomes (getId : D → Int) (m : Command D B) (list : List D) : List Outcome :=
  (m.clients getId list).map m.method ++ m.backups.map m.backupMethod

/-- A broadcast reaches everyone if and only if every recipient before the last one succeeds. -/
theorem broadcast_reaches_iff {m : Command D B} {s : State D C} {c : C} {b : Broadcast D B C}
    (returns : broadcastCommand getId m s c = some b) :
    ReachesAll getId m (s.list c) b ↔
      ∀ o ∈ (m.outcomes getId (s.list c)).dropLast, o = .success := by
  obtain ⟨t, entered, clients, result⟩ := broadcast_cases returns
  have reaches := invokeEach_reaches m.method (m.clients getId (s.list c))
  have reaches' := invokeEach_reaches m.backupMethod m.backups
  rw [Command.outcomes]
  rcases result with ⟨some_fails, failed, none, _⟩ | ⟨all, backups, result⟩
  · by_cases alone : m.backups = []
    · rw [alone, List.map_nil, List.append_nil, ← reaches, ← clients]
      refine ⟨fun reached => reached.clients, fun whole => ⟨whole, by rw [none, alone], ?_⟩⟩
      exact iff_of_false failed fun both => some_fails both.1
    · refine iff_of_false (fun reached => ?_) fun early => some_fails ?_
      · have empty := reached.backups
        rw [none] at empty
        exact alone empty.symm
      · intro d member
        rw [List.dropLast_append_of_ne_nil (by simpa using alone)] at early
        exact early _ (List.mem_append_left _ (List.mem_map_of_mem member))
  · have answer : b.outcome = .success ↔ AllClients getId m (s.list c) ∧ AllBackups m := by
      rcases result with ⟨some_fails, failed, _⟩ | ⟨every, succeeded, _⟩
      · exact iff_of_false failed fun both => some_fails both.2
      · exact iff_of_true succeeded ⟨all, every⟩
    have whole : b.clients = m.clients getId (s.list c) := clients.trans (invokeEach_all all)
    have front : ∀ o ∈ (m.clients getId (s.list c)).map m.method, o = .success := by
      intro o member
      obtain ⟨d, listed, rfl⟩ := List.mem_map.mp member
      exact all d listed
    have condition : (∀ o ∈ ((m.clients getId (s.list c)).map m.method ++
        m.backups.map m.backupMethod).dropLast, o = .success) ↔ b.backups = m.backups := by
      rw [backups, reaches']
      by_cases alone : m.backups = []
      · rw [alone, List.map_nil, List.append_nil]
        refine iff_of_true (fun o member => front o (List.dropLast_subset _ member)) ?_
        simp
      · rw [List.dropLast_append_of_ne_nil (by simpa using alone)]
        refine ⟨fun early o member => early o (List.mem_append_right _ member), ?_⟩
        intro later o member
        rcases List.mem_append.mp member with first | second
        · exact front o first
        · exact later o second
    rw [condition]
    exact ⟨fun reached => reached.backups, fun every => ⟨whole, every, answer⟩⟩

/-- The other device cannot be reached, and that keeps the update from the backup. -/
theorem failed_device_stops_broadcast :
    ¬ ∀ (m : Command Int Nat) (s : State Int Unit) (b : Broadcast Int Nat Unit),
      broadcastCommand id m s () = some b → ReachesAll id m (s.list ()) b := by
  intro claim
  have reached := claim
    ⟨fun d => if d = 5 then .failure else .success, fun _ => .success, 4, [0]⟩
    (start fun _ => [4, 5]) _ rfl
  exact absurd reached.backups (by decide)

/-- Only the last backup cannot be reached. -/
def lastFails : Command Int Nat :=
  ⟨fun _ => .success, fun b => if b = 1 then .failure else .success, 4, [0, 1]⟩

theorem broadcast_reaches_iff_last :
    ∃ b : Broadcast Int Nat Unit, b.clients = [5] ∧ b.backups = [0, 1] ∧ b.outcome = .failure ∧
      (ReachesAll id lastFails [4, 5] b ↔
        ∀ o ∈ (lastFails.outcomes id [4, 5]).dropLast, o = .success) :=
  ⟨_, rfl, rfl, rfl, broadcast_reaches_iff (s := start fun _ => [4, 5]) (c := ()) rfl⟩

/-- Nobody holds a mutex, and no broadcast is counted. -/
structure Clean (s : State D C) : Prop where
  users : s.users = 0
  mutex : ∀ c, s.mutex c = false

/-- Each call returns, one way or the other, and leaves all mutexes and the counter as they were. -/
def Restores (getId : D → Int) (s : State D C) (calls : List (Call D B C)) : Prop :=
  (∃ t, runs (callStep getId) s calls = some t) ∧ Along (callStep getId) Clean s calls

/-- No recipient of a broadcast fails or throws. -/
def Succeeds (getId : D → Int) (s : State D C) : Call D B C → Prop
  | .broadcast c m => AllClients getId m (s.list c) ∧ AllBackups m
  | .emplace _ _ _ | .remove _ _ => True

theorem clean_enter {s : State D C} (clean : Clean s) (c : C) :
    s.enter c = some { s with users := 1, mutex := Function.update s.mutex c true } := by
  simp [State.enter, State.lock, clean.users, clean.mutex]

theorem clean_guarded {s : State D C} (clean : Clean s) (c : C) (f : State D C → State D C)
    (keeps : ∀ s, (f s).users = s.users ∧ (f s).mutex = s.mutex) :
    ∃ t, s.guarded c f = some t ∧ Clean t := by
  have locked : s.lock c = some { s with mutex := Function.update s.mutex c true } := by
    simp [State.lock, clean.mutex]
  refine ⟨_, by rw [State.guarded, locked]; rfl, ?_, ?_⟩
  · exact (keeps _).1.trans clean.users
  · intro d
    show Function.update (f _).mutex c false d = false
    rw [(keeps _).2]
    by_cases same : d = c
    · simp [same]
    · simp [same, clean.mutex]

/-- From a clean state every call takes its mutex and returns. -/
theorem clean_returns {s : State D C} (clean : Clean s) (a : Call D B C) :
    ∃ t, callStep getId s a = some t ∧ (Clean t ↔ Succeeds getId s a) := by
  cases a with
  | broadcast c m =>
    have entered := clean_enter clean c
    obtain ⟨b, returns⟩ : ∃ b, broadcastCommand getId m s c = some b := by
      rw [broadcastCommand, entered]
      dsimp only [Option.bind_eq_bind, Option.bind_some]
      split
      · exact ⟨_, rfl⟩
      · split <;> exact ⟨_, rfl⟩
    refine ⟨b.state, by rw [callStep, returns]; rfl, ?_⟩
    obtain ⟨t, entered', _, result⟩ := broadcast_cases returns
    obtain rfl := Option.some.inj (entered.symm.trans entered')
    rcases result with ⟨some_fails, _, _, same⟩ | ⟨all, _, ⟨some_fails, _, same⟩ | ⟨every, _, same⟩⟩
    · refine iff_of_false (fun clean' => ?_) fun both => some_fails both.1
      have counted := clean'.users
      rw [same] at counted
      cases counted
    · refine iff_of_false (fun clean' => ?_) fun both => some_fails both.2
      have counted := clean'.users
      rw [same] at counted
      cases counted
    · refine iff_of_true ?_ ⟨all, every⟩
      rw [same]
      refine ⟨by simp [State.leave, State.unlock], fun d => ?_⟩
      by_cases own : d = c
      · simp [State.leave, State.unlock, own]
      · simp [State.leave, State.unlock, own, clean.mutex]
  | emplace c d constructs =>
    obtain ⟨t, returns, clean'⟩ := clean_guarded clean c (fun s =>
      if kDeviceLimit ≤ (s.list c).length then s
      else if constructs then s.setList c (s.list c ++ [d]) else s) (by
        intro s
        split
        · exact ⟨rfl, rfl⟩
        · split <;> exact ⟨rfl, rfl⟩)
    exact ⟨t, returns, iff_of_true clean' trivial⟩
  | remove c i =>
    obtain ⟨t, returns, clean'⟩ := clean_guarded clean c
      (fun s => s.setList c ((s.list c).filter fun d => getId d ≠ i)) fun _ => ⟨rfl, rfl⟩
    exact ⟨t, returns, iff_of_true clean' trivial⟩

/-- A device that cannot be reached: the mutex stays locked, and Remove waits for it for ever. -/
theorem failed_broadcast_keeps_lock :
    ¬ ∀ calls : List (Call Int Nat Unit), Restores id (start fun _ => [4, 5]) calls := by
  intro claim
  obtain ⟨⟨t, returns⟩, _⟩ := claim
    [.broadcast () ⟨fun _ => .failure, fun _ => .success, 4, []⟩, .remove () 5]
  cases returns

/-- A sequence of calls leaves the locking state as it was after each of them if and only if no
    recipient of its broadcasts fails. -/
theorem calls_restore_iff (getId : D → Int) (list : C → List D) (calls : List (Call D B C)) :
    Restores getId (start list) calls ↔ Allowed (callStep getId) (Succeeds getId) (start list) calls := by
  have clean : Clean (start list) := ⟨rfl, fun _ => rfl⟩
  have exact : ∀ (s : State D C) (a : Call D B C) t, True → Clean s → callStep getId s a = some t →
      (Clean t ↔ Succeeds getId s a) := by
    intro s a t _ clean step
    obtain ⟨t', step', iff⟩ := clean_returns clean a
    obtain rfl := Option.some.inj (step.symm.trans step')
    exact iff
  have progress : ∀ (s : State D C) (a : Call D B C), Clean s → Succeeds getId s a →
      ∃ t, callStep getId s a = some t ∧ Clean t := by
    intro s a clean succeeds
    obtain ⟨t, step, iff⟩ := clean_returns clean a
    exact ⟨t, step, iff.mpr succeeds⟩
  generalize start list = s at clean ⊢
  constructor
  · rintro ⟨⟨t, run⟩, along⟩
    exact (along_iff_allowed (fun _ _ _ _ _ => trivial) exact run trivial clean).mp along
  · intro succeed
    obtain ⟨t, run⟩ := run_of_allowed progress clean succeed
    exact ⟨⟨t, run⟩,
      (along_iff_allowed (fun _ _ _ _ _ => trivial) exact run trivial clean).mpr succeed⟩

end DropboxBroadcast
