import Dropbox.General.Stuttering
import Dropbox.ElectionTermination
import Dropbox.NextScan
import Dropbox.Failover

/-!
From the start of the servers to their first primary (server/main.cpp). Each server
joins the ring, its accept thread takes the connection of the one before it, and
PerformElection follows; all servers do so side by side. `live` is the set of servers
that run. A connection has no name of its own, it goes by the server that made it.
-/
namespace DropboxFirstElection
open RingOrder Transitions Stuttering DropboxElection DropboxElectionSafety DropboxElectionPhases
open DropboxElectionTermination DropboxRingFormation
variable {n : Nat}

/-- Where main is in its first turn before HandleElection; it is `waiting` until HasPrev. -/
inductive Stage where
  | joining
  | waiting
  | performing (p : Progress)

/-- `backlog` holds the connections that AcceptPrev has not taken, `wire i` what server `i` has
    written to its connection and nobody has read. -/
structure Startup (n : Nat) where
  stage : Fin n → Stage
  next : Fin n → Next n
  backlog : Fin n → List (Fin n)
  prev : Fin n → Option (Fin n)
  wire : Fin n → List ElectionData

def launched (n : Nat) : Startup n :=
  ⟨fun _ => .joining, fun _ => .invalid, fun _ => [], fun _ => none, fun _ => []⟩

/-- Server::GetId -/
def getId (i : Fin n) : IdType := UInt8.ofNat i.val

inductive Turn where
  | join | accept | enter | start | reply
  deriving DecidableEq, Repr

namespace Startup

def atStage (s : Startup n) (i : Fin n) (stage : Stage) : Startup n :=
  { s with stage := Function.update s.stage i stage }

def write (s : Startup n) (i : Fin n) (sent : Option ElectionData) : Startup n :=
  { s with wire := Function.update s.wire i (s.wire i ++ sent.toList) }

/-- What a successful connect does at the server it reaches. -/
def connect (s : Startup n) (i : Fin n) (next : Next n) : Startup n :=
  match next with
  | .connected q =>
    { s with
      next := Function.update s.next i next, backlog := Function.update s.backlog q (s.backlog q ++ [i]) }
  | .invalid | .unconnected => { s with next := Function.update s.next i next }

end Startup

section Steps
variable [NeZero n]

/-- One turn of server `i`; `none` where it cannot be taken yet. -/
def turn (live : Finset (Fin n)) (turns : Fin n → Fin n → Nat) (s : Startup n) (i : Fin n) :
    Turn → Option (Startup n)
  | .join =>
    match s.stage i with
    | .joining =>
      match (⟨i, s.next i⟩ : Server n).joinRing live (turns i) 1 with
      | some (true, server) => some ((s.connect i server.next).atStage i .waiting)
      -- no servers found, the election is skipped
      | some (false, server) =>
        some ((s.connect i server.next).atStage i (.performing (.returned (.ok (getId i)))))
      | none => none
    | _ => none
  | .accept =>
    match s.backlog i with
    | peer :: rest =>
      some { s with
        backlog := Function.update s.backlog i rest, prev := Function.update s.prev i (some peer) }
    | [] => none
  | .enter =>
    match s.stage i, s.prev i with
    | .waiting, some _ => some (s.atStage i (.performing (.starting (construct (getId i)))))
    | _, _ => none
  | .start =>
    match s.stage i with
    | .performing (.starting e) =>
      let o := startElection e true
      some ((s.write i o.sent).atStage i (.performing (afterStart o)))
    | _ => none
  | .reply =>
    match s.stage i, s.prev i with
    | .performing (.replying e), some peer =>
      match s.wire peer with
      | data :: rest =>
        let o := replyElection e (some data) true
        some ((({ s with wire := Function.update s.wire peer rest } : Startup n).write i o.sent).atStage i
          (.performing (afterReply o)))
      | [] => none
    | _, _ => none

/-- Everything one turn can do. -/
theorem turn_cases {live : Finset (Fin n)} {turns : Fin n → Fin n → Nat} {s t : Startup n}
    {i : Fin n} {c : Turn} (step : turn live turns s i c = some t) :
    (∃ found server, c = .join ∧ s.stage i = .joining ∧
      (⟨i, s.next i⟩ : Server n).joinRing live (turns i) 1 = some (found, server) ∧
      t = (s.connect i server.next).atStage i
        (if found then .waiting else .performing (.returned (.ok (getId i))))) ∨
    (∃ peer rest, c = .accept ∧ s.backlog i = peer :: rest ∧ t = { s with
      backlog := Function.update s.backlog i rest, prev := Function.update s.prev i (some peer) }) ∨
    (c = .enter ∧ s.stage i = .waiting ∧
      t = s.atStage i (.performing (.starting (construct (getId i))))) ∨
    (∃ e, c = .start ∧ s.stage i = .performing (.starting e) ∧
      t = (s.write i (startElection e true).sent).atStage i
        (.performing (afterStart (startElection e true)))) ∨
    ∃ e peer data rest, c = .reply ∧ s.stage i = .performing (.replying e) ∧ s.prev i = some peer ∧
      s.wire peer = data :: rest ∧
      t = (({ s with wire := Function.update s.wire peer rest } : Startup n).write i
        (replyElection e (some data) true).sent).atStage i
          (.performing (afterReply (replyElection e (some data) true))) := by
  cases c with
  | join =>
    simp only [turn] at step
    split at step
    · rename_i joining
      split at step
      · rename_i server joins
        exact Or.inl ⟨true, server, rfl, joining, joins, (Option.some.inj step).symm⟩
      · rename_i server joins
        exact Or.inl ⟨false, server, rfl, joining, joins, (Option.some.inj step).symm⟩
      · cases step
    · cases step
  | accept =>
    simp only [turn] at step
    split at step
    · rename_i peer rest pending
      exact Or.inr (Or.inl ⟨peer, rest, rfl, pending, (Option.some.inj step).symm⟩)
    · cases step
  | enter =>
    simp only [turn] at step
    split at step
    · rename_i waiting _
      exact Or.inr (Or.inr (Or.inl ⟨rfl, waiting, (Option.some.inj step).symm⟩))
    · cases step
  | start =>
    simp only [turn] at step
    split at step
    · rename_i e found
      exact Or.inr (Or.inr (Or.inr (Or.inl ⟨e, rfl, found, (Option.some.inj step).symm⟩)))
    · cases step
  | reply =>
    simp only [turn] at step
    split at step
    · rename_i e peer found previous
      split at step
      · rename_i data rest waiting
        exact Or.inr (Or.inr (Or.inr (Or.inr
          ⟨e, peer, data, rest, rfl, found, previous, waiting, (Option.some.inj step).symm⟩)))
      · cases step
    · cases step

def startupStep (live : Finset (Fin n)) (turns : Fin n → Fin n → Nat) (s : Startup n)
    (move : Fin n × Turn) : Option (Startup n) :=
  if move.1 ∈ live then turn live turns s move.1 move.2 else none

end Steps

/-- The server finds the next one of those that run. -/
theorem joinRing_finds [NeZero n] {live : Finset (Fin n)} (turns : Fin n → Nat) {i : Fin n}
    {next : Next n} (idle : next = .invalid) (others : ∃ p ∈ live, p ≠ i) :
    ∃ q, IsNext live i q ∧
      (⟨i, next⟩ : Server n).joinRing live turns 1 = some (true, ⟨i, .connected q⟩) := by
  subst idle
  exact joinRing_connects (s := ⟨i, .invalid⟩) rfl others

/-- Before PerformElection a server is as one that is about to start an election. -/
def progress (i : Fin n) : Stage → Progress
  | .joining | .waiting => .starting (construct (getId i))
  | .performing p => p

/-- The ring that the election sees; `place` numbers the servers in the order of the ring. -/
def ringOf {k : Nat} (place : Fin k → Fin n) (s : Startup n) : RingState k :=
  ⟨fun j => progress (place j) (s.stage (place j)), fun j => s.wire (place j)⟩

/-- How far each server has got with its connection to `next`. -/
structure Shaped (live : Finset (Fin n)) (next : Fin n → Fin n) (s : Startup n) : Prop where
  joining : ∀ i ∈ live, s.stage i = .joining →
    s.next i = .invalid ∧ s.backlog (next i) = [] ∧ s.prev (next i) = none
  joined : ∀ i ∈ live, s.stage i ≠ .joining →
    (s.backlog (next i) = [i] ∧ s.prev (next i) = none) ∨
      (s.backlog (next i) = [] ∧ s.prev (next i) = some i)

def stepsLeft : Stage → Nat
  | .joining => 3
  | .waiting => 1
  | .performing _ => 0

/-- What servers still have to do before their elections. -/
def turnsLeft (live : Finset (Fin n)) (s : Startup n) : Nat :=
  (∑ i, if i ∈ live then stepsLeft (s.stage i) else 0) + ∑ i, (s.backlog i).length

theorem turnsLeft_stage (live : Finset (Fin n)) (s : Startup n) {i : Fin n} (alive : i ∈ live)
    (stage : Stage) : turnsLeft live (s.atStage i stage) + stepsLeft (s.stage i) =
      turnsLeft live s + stepsLeft stage := by
  have changed := sum_update (fun i stage => if i ∈ live then stepsLeft stage else 0) s.stage i stage
  simp only [if_pos alive] at changed
  simp only [turnsLeft, Startup.atStage]
  omega

theorem turnsLeft_backlog (live : Finset (Fin n)) (s : Startup n) (i : Fin n)
    (backlog : List (Fin n)) :
    turnsLeft live { s with backlog := Function.update s.backlog i backlog } +
      (s.backlog i).length = turnsLeft live s + backlog.length := by
  have changed := sum_update (fun _ backlog => backlog.length) s.backlog i backlog
  simp only [turnsLeft]
  omega

theorem turnsLeft_launched (live : Finset (Fin n)) : turnsLeft live (launched n) = 3 * live.card := by
  simp [turnsLeft, launched, stepsLeft, Nat.mul_comm]

section Rings
variable {k : Nat} [NeZero k] {live : Finset (Fin n)} {next : Fin n → Fin n} {place : Fin k → Fin n}

theorem update_at (places : Places live next place) {V : Type} (f : Fin n → V) (i j : Fin k) (v : V) :
    Function.update f (place j) v (place i) = Function.update (fun i => f (place i)) j v i :=
  congrFun (Function.update_comp_eq_of_injective f places.injective j v) i

theorem ringOf_stage (places : Places live next place) (s : Startup n) (j : Fin k) (p : Progress)
    (sent : Option ElectionData) :
    ringOf place ((s.write (place j) sent).atStage (place j) (.performing p)) =
      (ringOf place s).become j p sent := by
  have servers : ∀ i, progress (place i) (Function.update s.stage (place j) (.performing p) (place i)) =
      Function.update (fun i => progress (place i) (s.stage (place i))) j p i := by
    intro i
    rw [update_at places]
    by_cases same : i = j
    · subst i
      simp [progress]
    · rw [Function.update_of_ne same, Function.update_of_ne same]
  have channels : ∀ i, Function.update s.wire (place j) (s.wire (place j) ++ sent.toList) (place i) =
      Function.update (fun i => s.wire (place i)) j (s.wire (place j) ++ sent.toList) i :=
    fun i => update_at places s.wire i j _
  simp only [ringOf, RingState.become, Startup.write, Startup.atStage, servers, channels]

theorem ringOf_consume (places : Places live next place) (s : Startup n) (j : Fin k)
    {data : ElectionData} {rest : List ElectionData} (waiting : s.wire (place j) = data :: rest) :
    ringOf place { s with wire := Function.update s.wire (place j) rest } =
      (ringOf place s).consume j := by
  simp only [ringOf, RingState.consume, update_at places, waiting, List.tail_cons]

omit [NeZero k] in
/-- A server that comes to PerformElection looks to the election as it did before. -/
theorem ringOf_unseen (s : Startup n) {i : Fin n} {stage : Stage}
    (same : progress i stage = progress i (s.stage i)) :
    ringOf place (s.atStage i stage) = ringOf place s := by
  have servers : ∀ j, progress (place j) (Function.update s.stage i stage (place j)) =
      progress (place j) (s.stage (place j)) := by
    intro j
    by_cases here : place j = i
    · rw [here, Function.update_self, same]
    · rw [Function.update_of_ne here]
  simp only [ringOf, Startup.atStage, servers]

section Shapes
variable {s : Startup n} {i : Fin n}

/-- What a server does on its own socket pair leaves the connections as they are. -/
theorem shaped_same (shaped : Shaped live next s) {t : Startup n} (nexts : t.next = s.next)
    (backlogs : t.backlog = s.backlog) (prevs : t.prev = s.prev)
    (stages : ∀ j, t.stage j = .joining ↔ s.stage j = .joining) : Shaped live next t := by
  constructor
  · intro j alive joining
    rw [nexts, backlogs, prevs]
    exact shaped.joining j alive ((stages j).mp joining)
  · intro j alive joined
    rw [backlogs, prevs]
    exact shaped.joined j alive fun joining => joined ((stages j).mpr joining)

theorem joining_atStage (stage : Stage) (before : s.stage i ≠ .joining) (after : stage ≠ .joining)
    (j : Fin n) : (s.atStage i stage).stage j = .joining ↔ s.stage j = .joining := by
  by_cases same : j = i
  · subst j
    simp [Startup.atStage, before, after]
  · simp [Startup.atStage, same]

theorem shaped_join (shaped : Shaped live next s) (once : Set.InjOn next live) (alive : i ∈ live)
    (joining : s.stage i = .joining) :
    Shaped live next ((s.connect i (.connected (next i))).atStage i .waiting) := by
  obtain ⟨_, empty, nobody⟩ := shaped.joining i alive joining
  constructor
  · intro j alive' still
    have apart : j ≠ i := by
      rintro rfl
      simp [Startup.atStage] at still
    have elsewhere : next j ≠ next i := fun same => apart (once alive' alive same)
    have before : s.stage j = .joining := by simpa [Startup.atStage, Startup.connect, apart] using still
    simpa [Startup.atStage, Startup.connect, apart, elsewhere] using shaped.joining j alive' before
  · intro j alive' joined
    by_cases same : j = i
    · subst j
      exact Or.inl ⟨by simp [Startup.atStage, Startup.connect, empty], nobody⟩
    · have elsewhere : next j ≠ next i := fun equal => same (once alive' alive equal)
      have before : s.stage j ≠ .joining := by
        simpa [Startup.atStage, Startup.connect, same] using joined
      simpa [Startup.atStage, Startup.connect, elsewhere] using shaped.joined j alive' before

theorem shaped_accept (shaped : Shaped live next s) (once : Set.InjOn next live) (alive : i ∈ live)
    {peer : Fin n} {rest : List (Fin n)} (pending : s.backlog (next i) = peer :: rest) :
    peer = i ∧ rest = [] ∧ Shaped live next { s with
      backlog := Function.update s.backlog (next i) rest
      prev := Function.update s.prev (next i) (some peer) } := by
  have joined : s.stage i ≠ .joining := by
    intro joining
    rw [(shaped.joining i alive joining).2.1] at pending
    cases pending
  obtain ⟨rfl, rfl⟩ : peer = i ∧ rest = [] := by
    cases shaped.joined i alive joined with
    | inl queued =>
      rw [queued.1] at pending
      cases pending
      exact ⟨rfl, rfl⟩
    | inr taken =>
      rw [taken.1] at pending
      cases pending
  refine ⟨rfl, rfl, ?_⟩
  constructor
  · intro j alive' joining
    have apart : next j ≠ next peer := by
      intro same
      exact joined (once alive' alive same ▸ joining)
    simpa [apart] using shaped.joining j alive' joining
  · intro j alive' joined'
    by_cases same : j = peer
    · subst j
      exact Or.inr ⟨by simp, by simp⟩
    · have elsewhere : next j ≠ next peer := fun equal => same (once alive' alive equal)
      simpa [elsewhere] using shaped.joined j alive' joined'

/-- The connection that a server's messages come from is the one of the server before it. -/
theorem prev_place (places : Places live next place) (shaped : Shaped live next s) {j : Fin k}
    {peer : Fin n} (previous : s.prev (place j) = some peer) : peer = place (j - 1) := by
  have before : next (place (j - 1)) = place j := by rw [places.follows, pred_succ]
  by_cases joining : s.stage (place (j - 1)) = .joining
  · have nobody := (shaped.joining _ (places.member _) joining).2.2
    rw [before, previous] at nobody
    cases nobody
  · cases shaped.joined _ (places.member _) joining with
    | inl queued =>
      rw [before, previous] at queued
      cases queued.2
    | inr taken =>
      rw [before, previous] at taken
      exact Option.some.inj taken.2

end Shapes

/-- A turn that the election sees, or one that it does not see and that is then done with. -/
def Follows [NeZero n] (live : Finset (Fin n)) (place : Fin k → Fin n) (s t : Startup n) : Prop :=
  (ringOf place t = ringOf place s ∧ turnsLeft live t < turnsLeft live s) ∨
    (turnsLeft live t ≤ turnsLeft live s ∧
      ∃ b, reliableStep (fun j => getId (place j)) (ringOf place s) b = some (ringOf place t))

section Turns
variable [NeZero n] {s : Startup n} {j : Fin k}

theorem join_follows (alive : place j ∈ live) (q : Fin n) (joining : s.stage (place j) = .joining) :
    Follows live place s ((s.connect (place j) (.connected q)).atStage (place j) .waiting) := by
  have staged := turnsLeft_stage live (s.connect (place j) (.connected q)) alive .waiting
  have queued : turnsLeft live (s.connect (place j) (.connected q)) = turnsLeft live s + 1 := by
    have added := turnsLeft_backlog live s q (s.backlog q ++ [place j])
    have same : turnsLeft live (s.connect (place j) (.connected q)) = turnsLeft live
      { s with backlog := Function.update s.backlog q (s.backlog q ++ [place j]) } := rfl
    rw [same]
    simp only [List.length_append, List.length_singleton] at added
    omega
  have before : (s.connect (place j) (.connected q)).stage (place j) = .joining := joining
  rw [before] at staged
  refine Or.inl ⟨?_, ?_⟩
  · rw [ringOf_unseen (s.connect (place j) (.connected q)) (by rw [before]; rfl)]
    rfl
  · simp only [stepsLeft] at staged
    omega

theorem accept_follows {i peer : Fin n} {rest : List (Fin n)} (pending : s.backlog i = peer :: rest) :
    Follows live place s { s with
      backlog := Function.update s.backlog i rest, prev := Function.update s.prev i (some peer) } := by
  have taken := turnsLeft_backlog live s i rest
  rw [pending, List.length_cons] at taken
  refine Or.inl ⟨rfl, ?_⟩
  show turnsLeft live { s with backlog := Function.update s.backlog i rest } < turnsLeft live s
  omega

theorem enter_follows (alive : place j ∈ live) (waiting : s.stage (place j) = .waiting) :
    Follows live place s
      (s.atStage (place j) (.performing (.starting (construct (getId (place j)))))) := by
  have staged := turnsLeft_stage live s alive (.performing (.starting (construct (getId (place j)))))
  rw [waiting] at staged
  refine Or.inl ⟨?_, ?_⟩
  · exact ringOf_unseen s (by rw [waiting]; rfl)
  · simp only [stepsLeft] at staged
    omega

omit [NeZero k] [NeZero n] in
/-- Inside PerformElection nothing is done that the election does not see. -/
theorem turnsLeft_performing (alive : place j ∈ live) {p q : Progress}
    (found : s.stage (place j) = .performing p) (sent : Option ElectionData) :
    turnsLeft live ((s.write (place j) sent).atStage (place j) (.performing q)) ≤
      turnsLeft live s := by
  have staged := turnsLeft_stage live (s.write (place j) sent) alive (.performing q)
  have before : (s.write (place j) sent).stage (place j) = .performing p := found
  have same : turnsLeft live (s.write (place j) sent) = turnsLeft live s := rfl
  rw [before, same] at staged
  simp only [stepsLeft] at staged
  omega

theorem start_follows (places : Places live next place) {e : Election}
    (found : s.stage (place j) = .performing (.starting e)) :
    Follows live place s ((s.write (place j) (startElection e true).sent).atStage (place j)
      (.performing (afterStart (startElection e true)))) := by
  refine Or.inr ⟨turnsLeft_performing (places.member j) found _, .start j true, ?_⟩
  have server : (ringOf place s).server j = .starting e := by simp only [ringOf, found, progress]
  rw [ringOf_stage places]
  simp [reliableStep, reliable, ringStep, server]

theorem reply_follows (places : Places live next place) {e : Election} {data : ElectionData}
    {rest : List ElectionData} (found : s.stage (place j) = .performing (.replying e))
    (coming : s.wire (place (j - 1)) = data :: rest) :
    Follows live place s
      ((({ s with wire := Function.update s.wire (place (j - 1)) rest } : Startup n).write (place j)
        (replyElection e (some data) true).sent).atStage (place j)
          (.performing (afterReply (replyElection e (some data) true)))) := by
  refine Or.inr ⟨?_, .reply j true, ?_⟩
  · exact turnsLeft_performing (s := { s with wire := Function.update s.wire (place (j - 1)) rest })
      (places.member j) found _
  · have server : (ringOf place s).server j = .replying e := by simp only [ringOf, found, progress]
    have channel : (ringOf place s).channel (j - 1) = data :: rest := coming
    rw [ringOf_stage places, ringOf_consume places s (j - 1) coming]
    simp [reliableStep, reliable, ringStep, server, channel]

/-- The servers' start refines the election: what they do before it is not seen. -/
theorem startup_refines (places : Places live next place)
    (nexts : ∀ i ∈ live, IsNext live i (next i)) (others : ∀ i ∈ live, ∃ p ∈ live, p ≠ i)
    (turns : Fin n → Fin n → Nat) :
    Refines (startupStep live turns) (reliableStep fun j => getId (place j)) (ringOf place)
      (Shaped live next) (turnsLeft live) := by
  have once := injOn_next nexts
  have steps : ∀ s m t, Shaped live next s → startupStep live turns s m = some t →
      Shaped live next t ∧ Follows live place s t := by
    rintro s ⟨i, c⟩ t shaped step
    simp only [startupStep, Option.ite_none_right_eq_some] at step
    obtain ⟨alive, step⟩ := step
    obtain ⟨j, rfl⟩ := places.onto i alive
    rcases turn_cases step with ⟨found, server, rfl, joining, joins, rfl⟩ |
      ⟨peer, rest, rfl, pending, rfl⟩ | ⟨rfl, waiting, rfl⟩ | ⟨e, rfl, starting, rfl⟩ |
      ⟨e, peer, data, rest, rfl, replying, previous, coming, rfl⟩
    · have idle := (shaped.joining _ alive joining).1
      obtain ⟨q, first, result⟩ := joinRing_finds (turns (place j)) idle (others _ alive)
      rw [joins] at result
      cases result
      obtain rfl := isNext_unique first (nexts _ alive)
      exact ⟨shaped_join shaped once alive joining, join_follows alive _ joining⟩
    · have before : next (place (j - 1)) = place j := by rw [places.follows, pred_succ]
      rw [← before] at pending ⊢
      exact ⟨(shaped_accept shaped once (places.member _) pending).2.2, accept_follows pending⟩
    · have stages := joining_atStage (s := s) (i := place j)
        (.performing (.starting (construct (getId (place j))))) (by rw [waiting]; simp) (by simp)
      exact ⟨shaped_same shaped rfl rfl rfl stages, enter_follows alive waiting⟩
    · have stages := joining_atStage (s := s) (i := place j)
        (.performing (afterStart (startElection e true))) (by rw [starting]; simp) (by simp)
      exact ⟨shaped_same shaped rfl rfl rfl stages, start_follows places starting⟩
    · obtain rfl := prev_place places shaped previous
      have stages := joining_atStage (s := s) (i := place j)
        (.performing (afterReply (replyElection e (some data) true))) (by rw [replying]; simp)
        (by simp)
      exact ⟨shaped_same shaped rfl rfl rfl stages, reply_follows places replying coming⟩
  exact ⟨fun s m t shaped step => (steps s m t shaped step).1,
    fun s m t shaped step => (steps s m t shaped step).2⟩

/-- Where no turn is left to take, every server is in PerformElection with the connection of the one
    before it. -/
theorem stuck_performing (others : ∀ i ∈ live, ∃ p ∈ live, p ≠ i) {turns : Fin n → Fin n → Nat}
    (places : Places live next place) (shaped : Shaped live next s)
    (stuck : Stuck (startupStep live turns) s) (j : Fin k) :
    (∃ p, s.stage (place j) = .performing p) ∧ s.prev (place j) = some (place (j - 1)) := by
  have joined : ∀ i ∈ live, s.stage i ≠ .joining := by
    intro i alive joining
    obtain ⟨q, _, result⟩ := joinRing_finds (turns i) (shaped.joining i alive joining).1
      (others i alive)
    have impossible := stuck (i, .join)
    simp [startupStep, turn, alive, joining, result] at impossible
  have before : next (place (j - 1)) = place j := by rw [places.follows, pred_succ]
  have previous : s.prev (place j) = some (place (j - 1)) := by
    have there := places.member (j - 1)
    cases shaped.joined _ there (joined _ there) with
    | inl queued =>
      have impossible := stuck (place j, .accept)
      rw [before] at queued
      simp [startupStep, turn, places.member j, queued.1] at impossible
    | inr taken =>
      rw [before] at taken
      exact taken.2
  refine ⟨?_, previous⟩
  cases here : s.stage (place j) with
  | joining => exact absurd here (joined _ (places.member j))
  | waiting =>
    have impossible := stuck (place j, .enter)
    simp [startupStep, turn, places.member j, here, previous] at impossible
  | performing p => exact ⟨p, rfl⟩

theorem stuck_ring (others : ∀ i ∈ live, ∃ p ∈ live, p ≠ i) {turns : Fin n → Fin n → Nat}
    (places : Places live next place) (shaped : Shaped live next s)
    (stuck : Stuck (startupStep live turns) s) :
    Stuck (reliableStep fun j => getId (place j)) (ringOf place s) := by
  intro b
  cases taken : reliableStep (fun j => getId (place j)) (ringOf place s) b with
  | none => rfl
  | some t =>
    have server : ∀ j p, (ringOf place s).server j = p → s.stage (place j) = .performing p := by
      intro j p found
      obtain ⟨q, here⟩ := (stuck_performing others places shaped stuck j).1
      simp only [ringOf, here, progress] at found
      rw [here, found]
    rcases reliable_cases taken with ⟨j, e, _, found, _⟩ | ⟨j, e, data, rest, _, found, coming, _⟩
    · have impossible := stuck (place j, .start)
      simp [startupStep, turn, places.member j, server j _ found] at impossible
    · have previous := (stuck_performing others places shaped stuck j).2
      have wire : s.wire (place (j - 1)) = data :: rest := coming
      have impossible := stuck (place j, .reply)
      simp [startupStep, turn, places.member j, server j _ found, previous, wire] at impossible

end Turns

end Rings

section Elected
variable [NeZero n]

/-- What a server of the ring has been told, it was told right. -/
theorem returned_elected {k : Nat} [NeZero k] {ids : Fin k → IdType} {x : Fin k} {s : RingState k}
    (phase : Phase ids x s) {j : Fin k} {r : Except Error IdType} (found : s.server j = .returned r) :
    r = .ok (ids x) := by
  have electing : ∀ i, Electing ids s i → s.server i ≠ .returned r := by
    rintro i (starting | ⟨started, replying⟩) returned
    · rw [starting] at returned
      cases returned
    · rw [replying] at returned
      cases returned
  rcases phase with gathering | ⟨p, circling⟩ | ⟨p, announcing⟩ | finished
  · exact absurd found (electing j (gathering.servers j))
  · exact absurd found (electing j (circling.servers j))
  · by_cases heard : j ≠ x ∧ gap x j ≤ gap x p
    · rw [announcing.heard j heard.1 heard.2] at found
      cases found
      rfl
    · have waits : j = x ∨ gap x p < gap x j := by
        by_cases home : j = x
        · exact Or.inl home
        · refine Or.inr ?_
          by_contra within
          exact heard ⟨home, by omega⟩
      exact absurd found (electing j (Or.inr (announcing.waiting j waits)))
  · rw [finished.results] at found
    cases found
    rfl

omit [NeZero n] in
theorem getId_le {i j : Fin n} (few : n ≤ 256) : getId i ≤ getId j ↔ i ≤ j := by
  have hi := i.isLt
  have hj := j.isLt
  have size : UInt8.size = 256 := rfl
  rw [UInt8.le_iff_toNat_le, getId, getId, UInt8.toNat_ofNat_of_lt' (by omega),
    UInt8.toNat_ofNat_of_lt' (by omega)]
  exact Iff.rfl

omit [NeZero n] in
theorem getId_injective (few : n ≤ 256) : Function.Injective (getId (n := n)) := by
  intro i j same
  have le := (getId_le few).mp (UInt8.le_of_eq same)
  have ge := (getId_le few).mp (UInt8.le_of_eq same.symm)
  exact le_antisymm le ge

/-- The first election tells every server that it is `p`, whatever the order of the turns. -/
structure Elects (live : Finset (Fin n)) (turns : Fin n → Fin n → Nat) (p : Fin n) : Prop where
  ends : ∀ moves t, runs (startupStep live turns) (launched n) moves = some t →
    moves.length ≤ live.card * (2 * live.card + 5)
  told : ∀ t, Reachable (startupStep live turns) (launched n) t → ∀ i ∈ live, ∀ r,
    t.stage i = .performing (.returned r) → r = .ok (getId p)
  completes : ∀ t, Reachable (startupStep live turns) (launched n) t →
    Stuck (startupStep live turns) t → ∀ i ∈ live,
      t.stage i = .performing (.returned (.ok (getId p)))

omit [NeZero n] in
theorem ringOf_launched {k : Nat} [NeZero k] (place : Fin k → Fin n) :
    ringOf place (launched n) = entered (fun j => getId (place j)) fun _ => true := rfl

omit [NeZero n] in
theorem launched_shaped (live : Finset (Fin n)) (next : Fin n → Fin n) :
    Shaped live next (launched n) := by
  constructor
  · intro i _ _
    exact ⟨rfl, rfl, rfl⟩
  · intro i _ joined
    exact absurd rfl joined

/-- Two servers or more elect the one with the highest id. -/
theorem several_elect {live : Finset (Fin n)} (two : 2 ≤ live.card) (few : n ≤ 256)
    (turns : Fin n → Fin n → Nat) :
    ∃ p ∈ live, (∀ i ∈ live, i ≤ p) ∧ Elects live turns p := by
  have nonempty : live.Nonempty := Finset.card_pos.mp (by omega)
  have : NeZero live.card := ⟨by omega⟩
  have others : ∀ i ∈ live, ∃ p ∈ live, p ≠ i := fun i _ => Finset.exists_mem_ne two i
  have firsts : ∀ i, ∃ q, IsNext live i q := by
    intro i
    obtain ⟨p, member, other⟩ := Finset.exists_mem_ne two i
    obtain ⟨q, first, _⟩ := joinRing_finds (turns i) rfl ⟨p, member, other⟩
    exact ⟨q, first⟩
  choose next isNext using firsts
  obtain ⟨place, places⟩ := exists_places (fun i _ => isNext i) nonempty
  have distinct : Function.Injective fun j => getId (place j) :=
    (getId_injective few).comp places.injective
  have refines := startup_refines places (fun i _ => isNext i) others turns
  obtain ⟨x, top⟩ := exists_top fun j => getId (place j)
  have begins : Electable (fun j => getId (place j)) x (entered (fun j => getId (place j)) fun _ => true) :=
    entered_electable _ x ⟨x, rfl⟩
  have shaped := launched_shaped live next
  have reached : ∀ t, Reachable (startupStep live turns) (launched n) t →
      Shaped live next t ∧ Phase (fun j => getId (place j)) x (ringOf place t) := by
    intro t reach
    obtain ⟨sound, seen⟩ := refines.reachable reach shaped
    rw [ringOf_launched] at seen
    exact ⟨sound, (invariant_of_reachable (step_electable distinct top) seen begins).2⟩
  refine ⟨place x, places.member x, ?_, ?_, ?_, ?_⟩
  · intro i alive
    obtain ⟨j, rfl⟩ := places.onto i alive
    exact (getId_le few).mp (top j)
  · intro moves t run
    have bound := refines.length_bounded (step_electable distinct top) (step_decreases distinct) run
      shaped (by rw [ringOf_launched]; exact begins)
    have room := entered_callsLeft (fun j => getId (place j)) fun _ => true
    rw [ringOf_launched, turnsLeft_launched] at bound
    have total : live.card * (2 * live.card + 5) =
        live.card * (2 * live.card + 2) + 3 * live.card := by
      rw [Nat.mul_comm 3, ← Nat.mul_add]
    omega
  · intro t reach i alive r returned
    obtain ⟨j, rfl⟩ := places.onto i alive
    have server : (ringOf place t).server j = .returned r := by
      simp only [ringOf, returned, progress]
    exact returned_elected (reached t reach).2 server
  · intro t reach stuck i alive
    obtain ⟨j, rfl⟩ := places.onto i alive
    obtain ⟨sound, phase⟩ := reached t reach
    have finished := stuck_finished phase (stuck_ring others places sound stuck)
    obtain ⟨p, here⟩ := (stuck_performing others places sound stuck j).1
    have server := finished.results j
    simp only [ringOf, here, progress] at server
    rw [here, server]

/-- Where a server that runs alone is: it has no one to connect to and goes on without election. -/
def Alone (p : Fin n) (s : Startup n) : Prop :=
  s.backlog p = [] ∧ ((s.stage p = .joining ∧ s.next p = .invalid) ∨
    s.stage p = .performing (.returned (.ok (getId p))))

theorem alone_step {p : Fin n} {turns : Fin n → Fin n → Nat} {s t : Startup n} {m : Fin n × Turn}
    (alone : Alone p s) (step : startupStep {p} turns s m = some t) :
    s.stage p = .joining ∧ t.stage p = .performing (.returned (.ok (getId p))) ∧ t.backlog p = [] := by
  obtain ⟨i, c⟩ := m
  simp only [startupStep, Option.ite_none_right_eq_some, Finset.mem_singleton] at step
  obtain ⟨rfl, step⟩ := step
  obtain ⟨empty, ⟨joining, idle⟩ | returned⟩ := alone
  · rcases turn_cases step with ⟨found, server, rfl, _, joins, rfl⟩ | ⟨peer, rest, rfl, pending, rfl⟩ |
      ⟨rfl, waiting, rfl⟩ | ⟨e, rfl, starting, rfl⟩ | ⟨e, peer, data, rest, rfl, replying, _⟩
    · have nobody : ¬ DropboxNextScan.Covers {i} 1 i := by
        rintro ⟨p, member, other, _⟩
        exact other (Finset.mem_singleton.mp member)
      rw [Server.joinRing, Server.hasConnectionToNext, idle] at joins
      rcases DropboxNextScan.connectNext_result {i} (turns i) 1
        (s := (⟨i, .invalid⟩ : Server n).createNext) rfl with ⟨covers, _⟩ | ⟨_, result⟩
      · exact absurd covers nobody
      · simp only [Bool.false_eq_true, if_false] at joins
        rw [result] at joins
        cases joins
        exact ⟨joining, by simp [Startup.atStage], empty⟩
    · rw [empty] at pending
      cases pending
    · rw [joining] at waiting
      cases waiting
    · rw [joining] at starting
      cases starting
    · rw [joining] at replying
      cases replying
  · rcases turn_cases step with ⟨found, server, rfl, joining, _⟩ | ⟨peer, rest, rfl, pending, rfl⟩ |
      ⟨rfl, waiting, rfl⟩ | ⟨e, rfl, starting, rfl⟩ | ⟨e, peer, data, rest, rfl, replying, _⟩
    · rw [returned] at joining
      cases joining
    · rw [empty] at pending
      cases pending
    · rw [returned] at waiting
      cases waiting
    · rw [returned] at starting
      cases starting
    · rw [returned] at replying
      cases replying

theorem one_elects (p : Fin n) (turns : Fin n → Fin n → Nat) : Elects {p} turns p := by
  have kept : ∀ s m t, Alone p s → startupStep {p} turns s m = some t → Alone p t := by
    intro s m t alone step
    obtain ⟨_, after, empty⟩ := alone_step alone step
    exact ⟨empty, Or.inr after⟩
  have begins : Alone p (launched n) := ⟨rfl, Or.inl ⟨rfl, rfl⟩⟩
  constructor
  · intro moves t run
    have lower : ∀ s m t, Alone p s → startupStep {p} turns s m = some t →
        stepsLeft (t.stage p) < stepsLeft (s.stage p) := by
      intro s m t alone step
      obtain ⟨before, after, _⟩ := alone_step alone step
      rw [before, after]
      exact Nat.zero_lt_succ 2
    have bound := run_length_bounded kept lower run begins
    have first : stepsLeft ((launched n).stage p) = 3 := rfl
    rw [Finset.card_singleton]
    omega
  · intro t reach i alive r returned
    obtain rfl := Finset.mem_singleton.mp alive
    rcases (invariant_of_reachable kept reach begins).2 with ⟨joining, _⟩ | told
    · rw [joining] at returned
      cases returned
    · rw [told] at returned
      cases returned
      rfl
  · intro t reach stuck i alive
    obtain rfl := Finset.mem_singleton.mp alive
    rcases (invariant_of_reachable kept reach begins).2 with ⟨joining, idle⟩ | told
    · rcases DropboxNextScan.connectNext_result {i} (turns i) 1
        (s := (⟨i, .invalid⟩ : Server n).createNext) rfl with ⟨_, q, result⟩ | ⟨_, result⟩
      · have impossible := stuck (i, .join)
        simp [startupStep, turn, joining, idle, Server.joinRing, Server.hasConnectionToNext,
          result] at impossible
      · have impossible := stuck (i, .join)
        simp [startupStep, turn, joining, idle, Server.joinRing, Server.hasConnectionToNext,
          result] at impossible
    · exact told

end Elected

section Handling
variable {Ip : Type} [NeZero n] {servers : List (DropboxFailover.Addr Ip)} {round : Nat}
  {r : DropboxFailover.Round}

omit [NeZero n] in
theorem elected_is_primary (p : Fin n) :
    (⟨p, servers, none⟩ : DropboxFailover.Server Ip).handleElection round r (getId p) =
      .primary ⟨p, servers, some .primary⟩ := by
  simp [DropboxFailover.Server.handleElection, DropboxFailover.Server.getId, getId]

theorem connecting_succeeds {attempts : List Bool} {address : DropboxFailover.SockAddr Ip}
    (accepts : true ∈ attempts) :
    (DropboxFailover.Backup.mk address .unconnected).connecting round attempts =
      some ⟨address, .connected address round⟩ := by
  induction attempts with
  | nil => cases accepts
  | cons accepted rest ih =>
    cases accepted with
    | true => rfl
    | false =>
      have later : true ∈ rest := by simpa using accepts
      exact ih later

omit [NeZero n] in
/-- A server that was not elected becomes a backup on a connection to the one that was. -/
theorem other_is_backup {i p : Fin n} (few : n ≤ 256) (other : i ≠ p)
    {addr : DropboxFailover.Addr Ip} (listed : servers[p.val]? = some addr)
    (accepts : true ∈ r.attempts) (keepalive : r.keepalive = true) :
    (⟨i, servers, none⟩ : DropboxFailover.Server Ip).handleElection round r (getId p) =
      .backup ⟨i, servers, some (.backup ⟨(addr.setPort DropboxFailover.kBackupPort).addr,
        .connected (addr.setPort DropboxFailover.kBackupPort).addr round⟩)⟩
        (.connected (addr.setPort DropboxFailover.kBackupPort).addr round) := by
  have apart : getId p ≠ DropboxFailover.Server.getId ⟨i, servers, none⟩ :=
    fun same => other (getId_injective few same).symm
  have index : (getId p).toNat = p.val := by
    have bound := p.isLt
    have size : UInt8.size = 256 := rfl
    rw [getId, UInt8.toNat_ofNat_of_lt' (by omega)]
  simp [DropboxFailover.Server.handleElection, apart, index, listed, connecting_succeeds accepts,
    keepalive]

/-- Whatever servers run and in whatever order they take their turns, the one with the highest id
    becomes primary and every other one its backup. -/
theorem highest_becomes_primary {live : Finset (Fin n)} (nonempty : live.Nonempty) (few : n ≤ 256)
    (turns : Fin n → Fin n → Nat) (servers : List (DropboxFailover.Addr Ip)) :
    ∃ p ∈ live, (∀ i ∈ live, i ≤ p) ∧ Elects live turns p ∧
      (∀ round r, (⟨p, servers, none⟩ : DropboxFailover.Server Ip).handleElection round r (getId p) =
        .primary ⟨p, servers, some .primary⟩) ∧
      ∀ i ∈ live, i ≠ p → ∀ addr, servers[p.val]? = some addr → ∀ round r,
        true ∈ r.attempts → r.keepalive = true →
        ∃ t, (⟨i, servers, none⟩ : DropboxFailover.Server Ip).handleElection round r (getId p) =
          .backup t (.connected (addr.setPort DropboxFailover.kBackupPort).addr round) := by
  have elected : ∃ p ∈ live, (∀ i ∈ live, i ≤ p) ∧ Elects live turns p := by
    by_cases two : 2 ≤ live.card
    · exact several_elect two few turns
    · have one : live.card = 1 := by
        have positive := Finset.card_pos.mpr nonempty
        omega
      obtain ⟨p, rfl⟩ := Finset.card_eq_one.mp one
      refine ⟨p, Finset.mem_singleton_self p, ?_, one_elects p turns⟩
      intro i alive
      rw [Finset.mem_singleton.mp alive]
  obtain ⟨p, alive, highest, elects⟩ := elected
  refine ⟨p, alive, highest, elects, fun round r => elected_is_primary p, ?_⟩
  intro i _ other addr listed round r accepts keepalive
  exact ⟨_, other_is_backup few other listed accepts keepalive⟩

/-- Of five servers the second and the fourth are down. -/
theorem highest_becomes_primary_three : Elects ({0, 2, 4} : Finset (Fin 5)) (fun _ _ => 7) 4 := by
  have running : ({0, 2, 4} : Finset (Fin 5)).Nonempty := ⟨0, by decide⟩
  obtain ⟨p, alive, highest, elects, _⟩ := highest_becomes_primary running (by decide)
    (fun _ _ => 7) DropboxFailover.threeServers
  obtain rfl : p = 4 := by
    have above := highest 4 (by decide)
    omega
  exact elects

end Handling

end DropboxFirstElection
