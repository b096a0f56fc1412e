import Dropbox.Backup
import Dropbox.Election
import Dropbox.General.Transitions

/-!
One server through the elections of main (server/main.cpp, Server::HandleElection)
and the connection its Backup has to the primary. A round is what one election
brings: its result, how the connection attempts made after it end, whether keepalive
can be set, and what MainLoop returns. `calls` records the calls of Backup::MainLoop.
-/
namespace DropboxFailover
open Transitions DropboxElection DropboxBackup
variable {Ip : Type}

/-- sockaddr_in -/
structure SockAddr (Ip : Type) where
  ip : Ip
  port : Nat
  deriving DecidableEq, Repr

structure Addr (Ip : Type) where
  id : IdType
  ip : Ip
  port : Nat
  addr : SockAddr Ip
  deriving DecidableEq, Repr

def Addr.setPort (port : Nat) (a : Addr Ip) : Addr Ip :=
  { a with port := port, addr := { a.addr with port := port } }

/-- Primary::kBackupPort -/
def kBackupPort : Nat := 54321

/-- A TCP socket: new, or with the connection it got after the election of this round. -/
inductive Socket (Ip : Type) where
  | unconnected
  | connected (peer : SockAddr Ip) (round : Nat)
  deriving DecidableEq, Repr

/-- connect fails on a socket that already had a connection, and when the peer refuses. -/
def Socket.connect (round : Nat) (accepted : Bool) (address : SockAddr Ip) :
    Socket Ip → Bool × Socket Ip
  | .unconnected => if accepted then (true, .connected address round) else (false, .unconnected)
  | .connected peer since => (false, .connected peer since)

/-- `exchange` is the socket of `exchange_`. -/
structure Backup (Ip : Type) where
  primaryAddr : SockAddr Ip
  exchange : Socket Ip
  deriving DecidableEq, Repr

def Backup.connectToPrimary (round : Nat) (accepted : Bool) (b : Backup Ip) : Bool × Backup Ip :=
  ((b.exchange.connect round accepted b.primaryAddr).1,
    { b with exchange := (b.exchange.connect round accepted b.primaryAddr).2 })

def Backup.setPrimaryAddr (address : SockAddr Ip) (b : Backup Ip) : Backup Ip :=
  { b with primaryAddr := address }

/-- The loop of the constructor; it is not over when the attempts run out. -/
def Backup.connecting (round : Nat) : List Bool → Backup Ip → Option (Backup Ip)
  | [], _ => none
  | accepted :: rest, b =>
    match b.connectToPrimary round accepted with
    | (true, b) => some b
    | (false, b) => b.connecting round rest

inductive Replica (Ip : Type) where
  | primary
  | backup (b : Backup Ip)
  deriving DecidableEq, Repr

structure Server (Ip : Type) where
  addrIndex : Nat
  servers : List (Addr Ip)
  replica : Option (Replica Ip)
  deriving DecidableEq, Repr

def Server.getId (s : Server Ip) : IdType := UInt8.ofNat s.addrIndex

/-- What follows an election; its result `none` is an error of PerformElection. -/
structure Round where
  result : Option IdType
  attempts : List Bool
  keepalive : Bool
  reply : MainLoopReply
  deriving DecidableEq, Repr

/-- How HandleElection goes on. -/
inductive Handled (Ip : Type) where
  | primary (s : Server Ip)       -- the main loop of Primary has returned
  | connecting                    -- the constructor of Backup is still trying
  | threw
  | backup (s : Server Ip) (exchange : Socket Ip)   -- Backup::MainLoop is called
  deriving DecidableEq, Repr

/-- There is no behaviour for an id outside `servers_`; `get` throws on the other alternative. -/
def Server.handleElection (round : Nat) (r : Round) (id : IdType) (s : Server Ip) : Handled Ip :=
  if id = s.getId then .primary { s with replica := some .primary }
  else
    match s.servers[id.toNat]? with
    | none => .threw
    | some addr =>
      let address := (addr.setPort kBackupPort).addr
      match s.replica with
      | some (.backup b) =>
        -- the result of ConnectToPrimary is not looked at
        let b := ((b.setPrimaryAddr address).connectToPrimary round (r.attempts.headD false)).2
        .backup { s with replica := some (.backup b) } b.exchange
      | some .primary => .threw
      | none =>
        match (Backup.mk address .unconnected).connecting round r.attempts with
        | none => .connecting
        | some b =>
          if r.keepalive then .backup { s with replica := some (.backup b) } b.exchange else .threw

/-- A call of Backup::MainLoop. -/
structure Call (Ip : Type) where
  round : Nat
  id : IdType
  exchange : Socket Ip
  deriving DecidableEq, Repr

structure Main (Ip : Type) where
  server : Server Ip
  round : Nat
  offset : Nat
  shutdown : Bool
  calls : List (Call Ip)
  deriving DecidableEq, Repr

def start (addrIndex : Nat) (servers : List (Addr Ip)) : Main Ip :=
  ⟨⟨addrIndex, servers, none⟩, 0, 1, false, []⟩

/-- The do-while loop of main. -/
def mainStep (m : Main Ip) (r : Round) : Option (Main Ip) :=
  if m.shutdown then none
  else
    match r.result with
    | none => some { m with round := m.round + 1 }
    | some id =>
      match m.server.handleElection m.round r id with
      | .connecting => none
      | .threw => some { m with round := m.round + 1, shutdown := true }
      | .primary s => some { m with server := s, round := m.round + 1, shutdown := true }
      | .backup s exchange =>
        some { m with
          server := s, round := m.round + 1, calls := m.calls ++ [⟨m.round, id, exchange⟩],
          offset := if r.reply = .kLostConnectionToPrimary then m.offset + 1 else m.offset,
          shutdown := decide (r.reply = .kShutdown) }

/-- Every call of MainLoop was on a connection to the elected server, of after the election. -/
def Follows (m : Main Ip) : Prop :=
  ∀ c ∈ m.calls, ∃ addr, m.server.servers[c.id.toNat]? = some addr ∧
    c.exchange = .connected (addr.setPort kBackupPort).addr c.round

/-- Another server is elected when `replica_` has a value already. -/
def Retargets (m : Main Ip) (r : Round) : Prop :=
  ∃ id addr, r.result = some id ∧ id ≠ m.server.getId ∧
    m.server.servers[id.toNat]? = some addr ∧ m.server.replica ≠ none

theorem connecting_connected {round : Nat} {attempts : List Bool} {address : SockAddr Ip}
    {b : Backup Ip}
    (done : (Backup.mk address .unconnected).connecting round attempts = some b) :
    b = ⟨address, .connected address round⟩ := by
  induction attempts with
  | nil => cases done
  | cons accepted rest ih =>
    cases accepted with
    | true =>
      simp only [Backup.connecting, Backup.connectToPrimary, Socket.connect, if_true,
        Option.some.injEq] at done
      exact done.symm
    | false =>
      simp only [Backup.connecting, Backup.connectToPrimary, Socket.connect, Bool.false_eq_true,
        if_false] at done
      exact ih done

/-- A Backup that has been constructed keeps its first connection, which is of an earlier round. -/
structure Settled (m : Main Ip) : Prop where
  replica : m.shutdown = false → m.server.replica ≠ some .primary
  exchange : ∀ b, m.server.replica = some (.backup b) →
    ∃ peer since, b.exchange = .connected peer since ∧ since < m.round

theorem settled_start (addrIndex : Nat) (servers : List (Addr Ip)) :
    Settled (start addrIndex servers) := by
  refine ⟨fun _ => ?_, fun b present => ?_⟩
  · simp [start]
  · cases present

/-- HandleElection calls Backup::MainLoop with the exchange it has had, or with a new connection. -/
theorem handled_backup {s t : Server Ip} {round : Nat} {r : Round} {id : IdType}
    {exchange : Socket Ip} (handled : s.handleElection round r id = .backup t exchange) :
    id ≠ s.getId ∧ t.servers = s.servers ∧ t.getId = s.getId ∧
      ∃ addr, s.servers[id.toNat]? = some addr ∧
        ∃ b, t.replica = some (.backup b) ∧ b.exchange = exchange ∧
          ((∃ c accepted, s.replica = some (.backup c) ∧
              exchange = (c.exchange.connect round accepted (addr.setPort kBackupPort).addr).2) ∨
            (s.replica = none ∧ exchange = .connected (addr.setPort kBackupPort).addr round)) := by
  unfold Server.handleElection at handled
  split at handled
  · cases handled
  · rename_i other
    split at handled
    · cases handled
    · rename_i addr listed
      dsimp only at handled
      split at handled
      · rename_i c present
        cases handled
        exact ⟨other, rfl, rfl, addr, listed, _, rfl, rfl, Or.inl ⟨c, _, present, rfl⟩⟩
      · cases handled
      · rename_i absent
        split at handled
        · cases handled
        · rename_i b done
          split at handled
          · cases handled
            have made := connecting_connected done
            exact ⟨other, rfl, rfl, addr, listed, b, rfl, rfl, Or.inr ⟨absent, by rw [made]⟩⟩
          · cases handled

theorem handled_primary {s t : Server Ip} {round : Nat} {r : Round} {id : IdType}
    (handled : s.handleElection round r id = .primary t) :
    id = s.getId ∧ t.servers = s.servers ∧ t.replica = some .primary := by
  unfold Server.handleElection at handled
  split at handled
  · rename_i own
    cases handled
    exact ⟨own, rfl, rfl⟩
  · split at handled
    · cases handled
    · dsimp only at handled
      split at handled
      · cases handled
      · cases handled
      · split at handled
        · cases handled
        · split at handled <;> cases handled

theorem handled_threw {s : Server Ip} {round : Nat} {r : Round} {id : IdType}
    (handled : s.handleElection round r id = .threw) :
    s.servers[id.toNat]? = none ∨ s.replica = some .primary ∨ s.replica = none := by
  unfold Server.handleElection at handled
  split at handled
  · cases handled
  · split at handled
    · rename_i unlisted
      exact Or.inl unlisted
    · dsimp only at handled
      split at handled
      · cases handled
      · rename_i primary
        exact Or.inr (Or.inl primary)
      · rename_i absent
        exact Or.inr (Or.inr absent)

theorem step_settled (m : Main Ip) (r : Round) (t : Main Ip) (settled : Settled m)
    (step : mainStep m r = some t) : Settled t := by
  simp only [mainStep] at step
  split at step
  · cases step
  · have kept : ∀ b, m.server.replica = some (.backup b) →
        ∃ peer since, b.exchange = .connected peer since ∧ since < m.round + 1 := by
      intro b present
      obtain ⟨peer, since, connected, earlier⟩ := settled.exchange b present
      exact ⟨peer, since, connected, Nat.lt_succ_of_lt earlier⟩
    split at step
    · cases step
      exact ⟨settled.replica, kept⟩
    · split at step
      · cases step
      · cases step
        exact ⟨nofun, kept⟩
      · rename_i s handled
        cases step
        refine ⟨nofun, fun b present => ?_⟩
        rw [(handled_primary handled).2.2] at present
        cases present
      · rename_i s exchange handled
        cases step
        obtain ⟨_, _, _, addr, _, b, present, same, origin⟩ := handled_backup handled
        refine ⟨fun _ => by rw [present]; simp, fun c found => ?_⟩
        obtain rfl : b = c := by simpa [present] using found
        rcases origin with ⟨c, accepted, before, connects⟩ | ⟨_, connects⟩
        · obtain ⟨peer, since, connected, earlier⟩ := kept c before
          refine ⟨peer, since, ?_, earlier⟩
          rw [same, connects, connected]
          rfl
        · exact ⟨_, m.round, by rw [same, connects], Nat.lt_succ_self _⟩

theorem step_follows (m : Main Ip) (r : Round) (t : Main Ip) (settled : Settled m)
    (follows : Follows m) (step : mainStep m r = some t) : Follows t ↔ ¬ Retargets m r := by
  simp only [mainStep] at step
  split at step
  · cases step
  · rename_i running
    split at step
    · rename_i failed
      cases step
      refine iff_of_true follows ?_
      rintro ⟨id, _, elected, _⟩
      rw [failed] at elected
      cases elected
    · rename_i id elected
      have alone : ∀ other, r.result = some other → other = id := by
        intro other same
        rw [elected] at same
        exact (Option.some.inj same).symm
      split at step
      · cases step
      · rename_i threw
        cases step
        refine iff_of_true follows ?_
        rintro ⟨other, addr, same, _, listed, present⟩
        obtain rfl := alone other same
        rcases handled_threw threw with unlisted | primary | absent
        · rw [listed] at unlisted
          cases unlisted
        · exact settled.replica (by simpa using running) primary
        · exact present absent
      · rename_i s handled
        cases step
        obtain ⟨own, same, _⟩ := handled_primary handled
        refine iff_of_true (fun c member => ?_) ?_
        · rw [same]
          exact follows c member
        · rintro ⟨other, addr, elected', apart, _⟩
          rw [alone other elected'] at apart
          exact apart own
      · rename_i s exchange handled
        cases step
        obtain ⟨apart, same, _, addr, listed, b, _, _, origin⟩ := handled_backup handled
        rcases origin with ⟨c, accepted, before, connects⟩ | ⟨absent, connects⟩
        · -- the socket has had a connection, so it keeps the one of an earlier round
          obtain ⟨peer, since, connected, earlier⟩ := settled.exchange c before
          have stale : exchange = .connected peer since := by
            rw [connects, connected]
            rfl
          refine iff_of_false (fun follows' => ?_) (not_not.mpr ?_)
          · obtain ⟨_, _, fresh⟩ := follows' ⟨m.round, id, exchange⟩ (by simp)
            rw [stale] at fresh
            have now : since = m.round := (Socket.connected.inj fresh).2
            omega
          · exact ⟨id, addr, elected, apart, listed, by rw [before]; simp⟩
        · refine iff_of_true (fun c member => ?_) ?_
          · rw [same]
            rcases List.mem_append.mp member with old | new
            · exact follows c old
            · rw [List.mem_singleton.mp new]
              exact ⟨addr, listed, connects⟩
          · rintro ⟨_, _, _, _, _, present⟩
            exact present absent

/-- A backup follows every primary that is elected in a run if and only if another server is never
    elected once it has been a backup. -/
theorem backups_follow_iff {addrIndex : Nat} {servers : List (Addr Ip)} {rounds : List Round}
    {m : Main Ip} (run : runs mainStep (start addrIndex servers) rounds = some m) :
    Along mainStep Follows (start addrIndex servers) rounds ↔
      Allowed mainStep (fun m r => ¬ Retargets m r) (start addrIndex servers) rounds :=
  along_iff_allowed step_settled step_follows run (settled_start addrIndex servers)
    fun _ member => by cases member

/-- Three servers with their ports in the ring. -/
def threeServers : List (Addr Nat) :=
  [⟨0, 10, 7000, ⟨10, 7000⟩⟩, ⟨1, 11, 7001, ⟨11, 7001⟩⟩, ⟨2, 12, 7002, ⟨12, 7002⟩⟩]

/-- The last server is primary until it is lost; then the second one is elected, and would accept. -/
def oneFailover : List Round :=
  [⟨some 2, [false, true], true, .kLostConnectionToPrimary⟩,
    ⟨some 1, [true], true, .kLostConnectionToPrimary⟩]

theorem backup_keeps_lost_primary :
    ¬ ∀ (addrIndex : Nat) (servers : List (Addr Nat)) (rounds : List Round) (m : Main Nat),
      runs mainStep (start addrIndex servers) rounds = some m → Follows m := by
  intro claim
  obtain ⟨addr, listed, fresh⟩ := claim 0 threeServers oneFailover _ rfl
    ⟨1, 1, .connected ⟨12, kBackupPort⟩ 0⟩ (by decide)
  obtain rfl := Option.some.inj listed
  exact absurd fresh (by decide)

/-- The last server is primary until it is lost; then this one is elected. -/
def onePromotion : List Round :=
  [⟨some 2, [false, true], true, .kLostConnectionToPrimary⟩, ⟨some 1, [], true, .kShutdown⟩]

theorem backups_follow_iff_promoted :
    ∃ m : Main Nat, runs mainStep (start 1 threeServers) onePromotion = some m ∧
      m.calls = [⟨0, 2, .connected ⟨12, kBackupPort⟩ 0⟩] ∧
      (Along mainStep Follows (start 1 threeServers) onePromotion ↔
        Allowed mainStep (fun m r => ¬ Retargets m r) (start 1 threeServers) onePromotion) :=
  ⟨_, rfl, rfl, backups_follow_iff rfl⟩

end DropboxFailover
