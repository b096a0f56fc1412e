import Dropbox.Failover

/-!
The do-while loop of main (server/main.cpp) with its local variables. `loopResult`
is not initialised: a run starts from any value of its underlying type. `events`
records what HandleElection finds in `replica_` and what it returns.
-/
namespace DropboxServerMain
open Transitions DropboxElection DropboxBackup DropboxFailover
variable {Ip : Type}

/-- The underlying value of a MainLoopReply. -/
def value : MainLoopReply → Int8
  | .kLostConnectionToPrimary => -1
  | .kShutdown => 0

/-- How what an iteration calls ends. `false` of `createNext`, `primary` or `keepalive` and `none`
    of `mainLoop` stand for an exception; `primary` is for all that is done with a Primary. -/
structure Outcomes where
  hasConnectionToNext : Bool
  createNext : Bool
  connectNext : Bool
  performElection : Except Error IdType
  primary : Bool
  attempts : List Bool
  keepalive : Bool
  mainLoop : Option MainLoopReply

inductive Event where
  | get (found : Bool)   -- std::get<Backup>(*replica_)
  | returned (reply : MainLoopReply)
  deriving DecidableEq, Repr

inductive Handled (Ip : Type) where
  | waits   -- the constructor of Backup is still trying
  | threw (events : List Event)
  | returned (s : Server Ip) (reply : MainLoopReply) (events : List Event)

/-- Backup::MainLoop, called on the Backup that `get` found. -/
def Outcomes.follow (o : Outcomes) (s : Server Ip) (events : List Event) : Handled Ip :=
  match o.mainLoop with
  | none => .threw (events ++ [.get true])
  | some reply => .returned s reply (events ++ [.get true])

/-- An id is one of a configured server, so there is no behaviour for another one. -/
def handleElection (round : Nat) (o : Outcomes) (id : IdType) (s : Server Ip) :
    Option (Handled Ip) :=
  if id = s.getId then
    some (if o.primary then .returned { s with replica := some .primary } .kShutdown [] else .threw [])
  else
    (s.servers[id.toNat]?).map fun addr =>
      let address := (addr.setPort kBackupPort).addr
      match s.replica with
      | some (.backup b) =>
        let b := ((b.setPrimaryAddr address).connectToPrimary round (o.attempts.headD false)).2
        o.follow { s with replica := some (.backup b) } [.get true]
      | some .primary => .threw [.get false]
      | none =>
        match (Backup.mk address .unconnected).connecting round o.attempts with
        | none => .waits
        | some b =>
          if o.keepalive then o.follow { s with replica := some (.backup b) } [] else .threw []

/-- Whether main is in its loop, has left it by its condition, or through `catch`. -/
inductive Control where
  | looping
  | left
  | caught
  deriving DecidableEq, Repr

structure Main (Ip : Type) where
  server : Server Ip
  round : Nat
  loopResult : Int8
  offset : Nat
  control : Control
  events : List Event

def start (addrIndex : Nat) (servers : List (Addr Ip)) (loopResult : Int8) : Main Ip :=
  ⟨⟨addrIndex, servers, none⟩, 0, loopResult, 1, .looping, []⟩

/-- `election_result`, `none` when CreateNext throws. -/
def Outcomes.electionResult (o : Outcomes) (own : IdType) : Option (Except Error IdType) :=
  if o.hasConnectionToNext then some o.performElection
  else if !o.createNext then none
  else if o.connectNext then some o.performElection
  else some (.ok own)

/-- The condition of the loop. -/
def Main.checked (m : Main Ip) : Main Ip :=
  if m.loopResult = value .kShutdown then { m with control := .left } else m

def Main.threw (events : List Event) (m : Main Ip) : Main Ip :=
  { m with control := .caught, events := m.events ++ events }

/-- HandleElection has returned; `offset` is a size_t. -/
def Main.handled (s : Server Ip) (reply : MainLoopReply) (events : List Event) (m : Main Ip) :
    Main Ip :=
  { m with
    server := s, loopResult := value reply, events := m.events ++ events ++ [.returned reply],
    offset := if reply = .kLostConnectionToPrimary then (m.offset + 1) % 2 ^ 64 else m.offset }

def mainStep (m : Main Ip) (o : Outcomes) : Option (Main Ip) :=
  if m.control ≠ .looping then none
  else
    let next := { m with round := m.round + 1 }
    match o.electionResult m.server.getId with
    | none => some (next.threw [])
    | some (.error _) => some next.checked
    | some (.ok id) =>
      match handleElection m.round o id m.server with
      | none => none
      | some .waits => none
      | some (.threw events) => some (next.threw events)
      | some (.returned s reply events) => some (next.handled s reply events).checked

/-- The loop is left by its condition only after a shutdown, every `get` finds a Backup, and
    `offset` counts the primaries lost. -/
structure Orderly (m : Main Ip) : Prop where
  leaves : m.control = .left → .returned .kShutdown ∈ m.events
  gets : ∀ found, Event.get found ∈ m.events → found = true
  offset : m.offset = 1 + m.events.count (.returned .kLostConnectionToPrimary)

/-- `loopResult` has the value of a shutdown when an election fails. -/
def Forgotten (m : Main Ip) (o : Outcomes) : Prop :=
  m.loopResult = value .kShutdown ∧ ∃ e, o.electionResult m.server.getId = some (.error e)

/-- Another server is elected, and this one comes to follow and to lose it. -/
def Loses (m : Main Ip) (o : Outcomes) : Prop :=
  o.mainLoop = some .kLostConnectionToPrimary ∧
    (∃ id, o.electionResult m.server.getId = some (.ok id) ∧ id ≠ m.server.getId) ∧
    (m.server.replica = none → o.keepalive = true)

/-- What has to be so before an iteration; `offset` must not wrap either. -/
def Sound (m : Main Ip) (o : Outcomes) : Prop :=
  ¬ Forgotten m o ∧ (Loses m o → m.offset + 1 < 2 ^ 64)

/-- Only a Backup is left in `replica_` by an iteration after which the loop goes on. -/
structure Steady (m : Main Ip) : Prop where
  replica : m.control = .looping → m.server.replica ≠ some .primary
  pending : m.control = .looping → Event.returned .kShutdown ∉ m.events

theorem steady_start (addrIndex : Nat) (servers : List (Addr Ip)) (loopResult : Int8) :
    Steady (start addrIndex servers loopResult) where
  replica _ := by simp [start]
  pending _ := by simp [start]

theorem orderly_start (addrIndex : Nat) (servers : List (Addr Ip)) (loopResult : Int8) :
    Orderly (start addrIndex servers loopResult) where
  leaves left := by simp [start] at left
  gets found member := by simp [start] at member
  offset := by simp [start]

/-- How HandleElection goes when `replica_` is no Primary. -/
inductive Goes (s : Server Ip) (o : Outcomes) (id : IdType) : Handled Ip → Prop where
  | waits : Goes s o id .waits
  | threw (events : List Event) (gets : ∀ e ∈ events, e = .get true)
      (why : id = s.getId ∨ o.mainLoop = none ∨ s.replica = none ∧ o.keepalive = false) :
      Goes s o id (.threw events)
  | primary (t : Server Ip) (own : id = s.getId) : Goes s o id (.returned t .kShutdown [])
  | backup (t : Server Ip) (reply : MainLoopReply) (events : List Event)
      (gets : ∀ e ∈ events, e = .get true) (other : id ≠ s.getId)
      (replies : o.mainLoop = some reply) (keepalive : s.replica = none → o.keepalive = true)
      (follows : t.replica ≠ some .primary) : Goes s o id (.returned t reply events)

theorem follow_goes {s t : Server Ip} {o : Outcomes} {id : IdType} {events : List Event}
    (gets : ∀ e ∈ events, e = .get true) (other : id ≠ s.getId)
    (keepalive : s.replica = none → o.keepalive = true) (follows : t.replica ≠ some .primary) :
    Goes s o id (o.follow t events) := by
  have gets' : ∀ e ∈ events ++ [.get true], e = .get true := by
    simpa [or_imp, forall_and] using gets
  unfold Outcomes.follow
  split
  · rename_i nothing
    exact .threw _ gets' (Or.inr (Or.inl nothing))
  · rename_i reply replies
    exact .backup t reply _ gets' other replies keepalive follows

theorem handle_election_goes {s : Server Ip} {round : Nat} {o : Outcomes} {id : IdType}
    {h : Handled Ip} (backup : s.replica ≠ some .primary)
    (handled : handleElection round o id s = some h) : Goes s o id h := by
  unfold handleElection at handled
  split at handled
  · rename_i own
    cases handled
    split
    · exact .primary _ own
    · exact .threw [] (by simp) (Or.inl own)
  · rename_i other
    obtain ⟨addr, listed, rfl⟩ := Option.map_eq_some_iff.mp handled
    dsimp only
    split
    · rename_i b present
      exact follow_goes (by simp) other (by simp [present]) (by simp)
    · rename_i primary
      exact absurd primary backup
    · rename_i absent
      split
      · exact .waits
      · rename_i b done
        split
        · rename_i keepalive
          exact follow_goes (by simp) other (fun _ => keepalive) (by simp)
        · rename_i none
          exact .threw [] (by simp) (Or.inr (Or.inr ⟨absent, by simpa using none⟩))

/-- The iterations the loop can make. -/
inductive Turn (m : Main Ip) (o : Outcomes) : Main Ip → Prop where
  | noSocket (none : o.electionResult m.server.getId = none) :
      Turn m o ({ m with round := m.round + 1 }.threw [])
  | failed (e : Error) (failure : o.electionResult m.server.getId = some (.error e)) :
      Turn m o { m with round := m.round + 1 }.checked
  | threw (id : IdType) (events : List Event)
      (elected : o.electionResult m.server.getId = some (.ok id))
      (goes : Goes m.server o id (.threw events)) :
      Turn m o ({ m with round := m.round + 1 }.threw events)
  | returned (id : IdType) (s : Server Ip) (reply : MainLoopReply) (events : List Event)
      (elected : o.electionResult m.server.getId = some (.ok id))
      (goes : Goes m.server o id (.returned s reply events)) :
      Turn m o ({ m with round := m.round + 1 }.handled s reply events).checked

theorem step_turn {m t : Main Ip} {o : Outcomes} (steady : Steady m)
    (step : mainStep m o = some t) : m.control = .looping ∧ Turn m o t := by
  simp only [mainStep, ne_eq, ite_not, Option.ite_none_right_eq_some] at step
  obtain ⟨looping, step⟩ := step
  refine ⟨looping, ?_⟩
  have backup := steady.replica looping
  split at step
  · rename_i none
    cases step
    exact .noSocket none
  · rename_i e failure
    cases step
    exact .failed e failure
  · rename_i id elected
    split at step
    · cases step
    · cases step
    · rename_i events handled
      cases step
      exact .threw id events elected (handle_election_goes backup handled)
    · rename_i s reply events handled
      cases step
      exact .returned id s reply events elected (handle_election_goes backup handled)

@[simp] theorem checked_events (m : Main Ip) : m.checked.events = m.events := by
  unfold Main.checked
  split <;> rfl

@[simp] theorem checked_server (m : Main Ip) : m.checked.server = m.server := by
  unfold Main.checked
  split <;> rfl

@[simp] theorem checked_offset (m : Main Ip) : m.checked.offset = m.offset := by
  unfold Main.checked
  split <;> rfl

theorem checked_left {m : Main Ip} (looping : m.control = .looping) :
    m.checked.control = .left ↔ m.loopResult = value .kShutdown := by
  unfold Main.checked
  split
  · rename_i shutdown
    simp [shutdown]
  · rename_i goesOn
    simp [looping, goesOn]

theorem checked_looping {m : Main Ip} (looping : m.checked.control = .looping) :
    m.loopResult ≠ value .kShutdown := by
  intro shutdown
  simp [Main.checked, shutdown] at looping

theorem value_shutdown {reply : MainLoopReply} : value reply = value .kShutdown ↔
    reply = .kShutdown := by
  cases reply <;> decide

/-- What HandleElection finds and returns, as events: no other events are recorded. -/
theorem gets_only {events : List Event} (gets : ∀ e ∈ events, e = .get true)
    (reply : MainLoopReply) : Event.returned reply ∉ events := by
  intro member
  cases gets _ member

theorem step_steady (m : Main Ip) (o : Outcomes) (t : Main Ip) (steady : Steady m)
    (step : mainStep m o = some t) : Steady t := by
  obtain ⟨looping, turn⟩ := step_turn steady step
  cases turn with
  | noSocket none => constructor <;> (intro h; cases h)
  | failed e failure =>
    constructor
    · intro _
      rw [checked_server]
      exact steady.replica looping
    · intro _
      rw [checked_events]
      exact steady.pending looping
  | threw id events elected goes => constructor <;> (intro h; cases h)
  | returned id s reply events elected goes =>
    cases goes with
    | primary _ own => constructor <;> (intro h; exact absurd rfl (checked_looping h))
    | backup _ _ _ gets other replies keepalive follows =>
      refine ⟨fun _ => by simpa [Main.handled] using follows, fun h => ?_⟩
      have lost : reply ≠ .kShutdown := fun same => checked_looping h (by simp [Main.handled, same])
      simp only [checked_events, Main.handled, List.mem_append, List.mem_singleton,
        Event.returned.injEq, not_or]
      exact ⟨⟨steady.pending looping, gets_only gets .kShutdown⟩, fun same => lost same.symm⟩

/-- An exception keeps main from leaving by the condition. -/
theorem orderly_threw {m : Main Ip} {events : List Event} (orderly : Orderly m)
    (only : ∀ e ∈ events, e = .get true) : Orderly (m.threw events) := by
  constructor
  · intro left
    cases left
  · intro found member
    rcases List.mem_append.mp member with before | new
    · exact orderly.gets found before
    · cases only _ new
      rfl
  · have none := List.count_eq_zero_of_not_mem (gets_only only .kLostConnectionToPrimary)
    simp only [Main.threw, List.count_append, none, Nat.add_zero]
    exact orderly.offset

theorem orderly_failed {m : Main Ip} (orderly : Orderly m) (looping : m.control = .looping)
    (pending : Event.returned .kShutdown ∉ m.events) :
    Orderly m.checked ↔ m.loopResult ≠ value .kShutdown := by
  constructor
  · intro after shutdown
    have there := after.leaves ((checked_left looping).mpr shutdown)
    rw [checked_events] at there
    exact pending there
  · intro goesOn
    refine ⟨fun left => absurd ((checked_left looping).mp left) goesOn, ?_, ?_⟩
    · rw [checked_events]
      exact orderly.gets
    · rw [checked_offset, checked_events]
      exact orderly.offset

/-- A reply keeps the loop orderly, except where it makes `offset` wrap. -/
theorem orderly_returned {m : Main Ip} {s : Server Ip} {reply : MainLoopReply}
    {events : List Event} (orderly : Orderly m) (looping : m.control = .looping)
    (only : ∀ e ∈ events, e = .get true) :
    Orderly (m.handled s reply events).checked ↔
      (reply = .kLostConnectionToPrimary → m.offset + 1 < 2 ^ 64) := by
  have none := List.count_eq_zero_of_not_mem (gets_only only .kLostConnectionToPrimary)
  have leaves : (m.handled s reply events).checked.control = .left →
      Event.returned .kShutdown ∈ (m.handled s reply events).checked.events := by
    intro left
    have kept : (m.handled s reply events).control = .looping := looping
    have shutdown : reply = .kShutdown := value_shutdown.mp ((checked_left kept).mp left)
    simp [Main.handled, shutdown]
  have gets : ∀ found, Event.get found ∈ (m.handled s reply events).checked.events →
      found = true := by
    intro found member
    simp only [checked_events, Main.handled, List.mem_append, List.mem_singleton, reduceCtorEq,
      or_false] at member
    rcases member with before | new
    · exact orderly.gets found before
    · cases only _ new
      rfl
  have offset := orderly.offset
  cases reply with
  | kShutdown =>
    refine iff_of_true ⟨leaves, gets, ?_⟩ (fun h => by cases h)
    simpa [Main.handled, none] using offset
  | kLostConnectionToPrimary =>
    have counted : (m.handled s .kLostConnectionToPrimary events).checked.events.count
        (.returned .kLostConnectionToPrimary) = m.offset := by
      simp only [checked_events, Main.handled, List.count_append, none, List.count_singleton_self]
      omega
    have moved : (m.handled s .kLostConnectionToPrimary events).checked.offset =
        (m.offset + 1) % 2 ^ 64 := by
      simp [Main.handled]
    constructor
    · intro after _
      have same := after.offset
      omega
    · intro fits
      have small := fits rfl
      exact ⟨leaves, gets, by omega⟩

theorem remembered_of_elected {m : Main Ip} {o : Outcomes} {id : IdType}
    (elected : o.electionResult m.server.getId = some (.ok id)) : ¬ Forgotten m o := by
  rintro ⟨_, e, failure⟩
  rw [elected] at failure
  cases failure

/-- A primary is lost only after the election of another server. -/
theorem loses_other {m : Main Ip} {o : Outcomes} {r : Option (Except Error IdType)}
    (result : o.electionResult m.server.getId = r) (loses : Loses m o) :
    ∃ id, r = some (.ok id) ∧ id ≠ m.server.getId := by
  obtain ⟨_, ⟨id, elected, apart⟩, _⟩ := loses
  exact ⟨id, result.symm.trans elected, apart⟩

theorem step_orderly (m : Main Ip) (o : Outcomes) (t : Main Ip) (steady : Steady m)
    (orderly : Orderly m) (step : mainStep m o = some t) : Orderly t ↔ Sound m o := by
  obtain ⟨looping, turn⟩ := step_turn steady step
  have next : Orderly { m with round := m.round + 1 } :=
    ⟨orderly.leaves, orderly.gets, orderly.offset⟩
  cases turn with
  | noSocket none =>
    refine iff_of_true (orderly_threw next (by simp)) ⟨?_, fun loses => ?_⟩
    · rintro ⟨_, e, failure⟩
      rw [none] at failure
      cases failure
    · obtain ⟨id, elected, _⟩ := loses_other none loses
      cases elected
  | failed e failure =>
    rw [orderly_failed next looping (steady.pending looping)]
    constructor
    · intro goesOn
      refine ⟨fun forgotten => goesOn forgotten.1, fun loses => ?_⟩
      obtain ⟨id, elected, _⟩ := loses_other failure loses
      cases elected
    · rintro ⟨remembered, _⟩ shutdown
      exact remembered ⟨shutdown, e, failure⟩
  | threw id events elected goes =>
    cases goes with
    | threw _ only why =>
      refine iff_of_true (orderly_threw next only) ⟨remembered_of_elected elected, fun loses => ?_⟩
      obtain ⟨other, same, apart⟩ := loses_other elected loses
      cases same
      obtain ⟨lost, _, keepalive⟩ := loses
      rcases why with own | nothing | ⟨absent, none⟩
      · exact absurd own apart
      · rw [nothing] at lost
        cases lost
      · rw [keepalive absent] at none
        cases none
  | returned id s reply events elected goes =>
    have remembered := remembered_of_elected elected
    cases goes with
    | primary _ own =>
      rw [orderly_returned next looping (by simp)]
      refine iff_of_true (fun h => by cases h) ⟨remembered, fun loses => ?_⟩
      obtain ⟨other, same, apart⟩ := loses_other elected loses
      cases same
      exact absurd own apart
    | backup _ _ _ only other replies keepalive follows =>
      rw [orderly_returned next looping only]
      constructor
      · intro fits
        refine ⟨remembered, fun loses => fits ?_⟩
        exact Option.some.inj (replies.symm.trans loses.1)
      · rintro ⟨_, fits⟩ rfl
        exact fits ⟨replies, ⟨id, elected, other⟩, keepalive⟩

/-- main stays in its loop until a shutdown, with a Backup for every get and the offset right, in
    the runs where the result is not forgotten and the offset does not wrap. -/
theorem main_loop_orderly_iff {addrIndex : Nat} {servers : List (Addr Ip)} {loopResult : Int8}
    {rounds : List Outcomes} {m : Main Ip}
    (run : runs mainStep (start addrIndex servers loopResult) rounds = some m) :
    Along mainStep Orderly (start addrIndex servers loopResult) rounds ↔
      Allowed mainStep Sound (start addrIndex servers loopResult) rounds :=
  along_iff_allowed step_steady step_orderly run (steady_start addrIndex servers loopResult)
    (orderly_start addrIndex servers loopResult)

/-- The next server is there and the election fails. -/
def failedElection : Outcomes :=
  ⟨true, true, true, .error .kPreviousBroken, true, [], true, none⟩

theorem main_leaves_without_shutdown :
    ¬ ∀ (addrIndex : Nat) (servers : List (Addr Nat)) (loopResult : Int8)
      (rounds : List Outcomes) (m : Main Nat),
      runs mainStep (start addrIndex servers loopResult) rounds = some m → Orderly m := by
  intro claim
  have ended := claim 0 threeServers 0 [failedElection] _ rfl
  have there := ended.leaves rfl
  cases there

/-- An election fails, another server is primary and is lost, and this one is elected. -/
def threeRounds : List Outcomes :=
  [failedElection, ⟨false, true, true, .ok 2, true, [false, true], true,
      some .kLostConnectionToPrimary⟩, ⟨true, true, true, .ok 0, true, [], true, none⟩]

theorem main_loop_orderly_iff_here : ∃ m : Main Nat,
    runs mainStep (start 0 threeServers 7) threeRounds = some m ∧ m.control = .left ∧
      (Along mainStep Orderly (start 0 threeServers 7) threeRounds ↔
        Allowed mainStep Sound (start 0 threeServers 7) threeRounds) :=
  ⟨_, rfl, rfl, main_loop_orderly_iff rfl⟩

end DropboxServerMain
