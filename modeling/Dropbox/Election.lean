import Mathlib.Algebra.GroupWithZero.Nat
import Mathlib.Logic.Function.Basic
import Dropbox.General.Transitions

/-!
Ring election between the servers (server/election/Election.cpp and
Server::PerformElection). Sockets carry whole `ElectionData` messages in order;
what one `read` or `write` call reports is an argument of the modelled call.
-/
namespace DropboxElection

/-- Addr::IdType, a `uint8_t`. -/
abbrev IdType := UInt8

inductive Status where
  | kUnderway
  | kElected
  deriving DecidableEq, Repr

structure ElectionData where
  status : Status
  id : IdType
  deriving DecidableEq, Repr

inductive Error where
  | kPreviousBroken
  | kNextBroken
  deriving DecidableEq, Repr

/-- The members of the class; the ring it borrows is the state of the whole system below. -/
structure Election where
  id : IdType
  electionStarted : Bool
  deriving DecidableEq, Repr

def construct (id : IdType) : Election := ⟨id, false⟩

/-- What one call leaves behind: the object, the message written to `next_`, the value returned. -/
structure Outcome (Result : Type) where
  election : Election
  sent : Option ElectionData
  result : Result

def startElection (e : Election) (writes : Bool) : Outcome Bool :=
  let message : ElectionData := ⟨.kUnderway, e.id⟩
  let e := { e with electionStarted := true }
  if writes then ⟨e, some message, true⟩ else ⟨e, none, false⟩

/-- The lambda `send_election` with the check of its result. -/
def sendElection (writes : Bool) (e : Election) (data : ElectionData) (result : Option IdType) :
    Outcome (Except Error (Option IdType)) :=
  if writes then ⟨e, some data, .ok result⟩ else ⟨e, none, .error .kNextBroken⟩

/-- `received` is `none` when `read` does not return `sizeof(data)`. -/
def replyElection (e : Election) (received : Option ElectionData) (writes : Bool) :
    Outcome (Except Error (Option IdType)) :=
  match received with
  | none => ⟨e, none, .error .kPreviousBroken⟩
  | some data =>
    match data.status with
    | .kUnderway =>
      if data.id < e.id then
        if e.electionStarted then ⟨e, none, .ok none⟩
        else sendElection writes { e with electionStarted := true } { data with id := e.id } none
      else if data.id = e.id then sendElection writes e { data with status := .kElected } none
      else sendElection writes e data none
    | .kElected =>
      let e := { e with electionStarted := false }
      if data.id ≠ e.id then sendElection writes e data (some data.id)
      else ⟨e, none, .ok (some data.id)⟩

section Replies
variable {e : Election} {id : IdType} {writes : Bool}

theorem reply_swallows (lower : id < e.id) (started : e.electionStarted = true) :
    replyElection e (some ⟨.kUnderway, id⟩) writes = ⟨e, none, .ok none⟩ := by
  simp [replyElection, lower, started]

theorem reply_substitutes (lower : id < e.id) (fresh : e.electionStarted = false) :
    replyElection e (some ⟨.kUnderway, id⟩) writes =
      sendElection writes ⟨e.id, true⟩ ⟨.kUnderway, e.id⟩ none := by
  simp [replyElection, lower, fresh]

theorem reply_wins :
    replyElection e (some ⟨.kUnderway, e.id⟩) writes = sendElection writes e ⟨.kElected, e.id⟩ none := by
  simp [replyElection, UInt8.lt_irrefl]

theorem reply_forwards (higher : e.id < id) :
    replyElection e (some ⟨.kUnderway, id⟩) writes = sendElection writes e ⟨.kUnderway, id⟩ none := by
  have apart : id ≠ e.id := by
    rintro rfl
    exact UInt8.lt_irrefl _ higher
  simp [replyElection, UInt8.lt_asymm higher, apart]

theorem reply_announces (other : id ≠ e.id) :
    replyElection e (some ⟨.kElected, id⟩) writes =
      sendElection writes ⟨e.id, false⟩ ⟨.kElected, id⟩ (some id) := by
  simp [replyElection, other]

theorem reply_finishes :
    replyElection e (some ⟨.kElected, e.id⟩) writes = ⟨⟨e.id, false⟩, none, .ok (some e.id)⟩ := by
  simp [replyElection]

end Replies

/-- Where a server is in `PerformElection`. `starting` has constructed its `Election`,
    `replying` is in the loop over `ReplyElection`. -/
inductive Progress where
  | idle
  | starting (e : Election)
  | replying (e : Election)
  | returned (result : Except Error IdType)

def afterStart (o : Outcome Bool) : Progress :=
  if o.result then .replying o.election else .returned (.error .kNextBroken)

def afterReply (o : Outcome (Except Error (Option IdType))) : Progress :=
  match o.result with
  | .error error => .returned (.error error)
  | .ok none => .replying o.election
  | .ok (some id) => .returned (.ok id)

inductive Role where
  | primary
  | backup
  deriving DecidableEq, Repr

/-- The branch `HandleElection(id)` takes on a server with id `own`. -/
def handleElection (own id : IdType) : Role := if id = own then .primary else .backup

/-- `channel i` is what server `i` has written to `next_` and server `i + 1` has not read. -/
structure RingState (n : Nat) where
  server : Fin n → Progress
  channel : Fin n → List ElectionData

namespace RingState
variable {n : Nat}

def quiet (n : Nat) : RingState n := ⟨fun _ => .idle, fun _ => []⟩

def become (s : RingState n) (i : Fin n) (p : Progress) (sent : Option ElectionData) : RingState n :=
  ⟨Function.update s.server i p,
    Function.update s.channel i (s.channel i ++ sent.toList)⟩

def consume (s : RingState n) (p : Fin n) : RingState n :=
  { s with channel := Function.update s.channel p (s.channel p).tail }

section Updates
variable (s : RingState n) {i q : Fin n} (p : Progress) (sent : Option ElectionData)

@[simp] theorem become_server_self : (s.become i p sent).server i = p := by simp [become]

@[simp] theorem become_server_ne (apart : q ≠ i) : (s.become i p sent).server q = s.server q := by
  simp [become, apart]

@[simp] theorem become_channel_self :
    (s.become i p sent).channel i = s.channel i ++ sent.toList := by simp [become]

@[simp] theorem become_channel_ne (apart : q ≠ i) :
    (s.become i p sent).channel q = s.channel q := by simp [become, apart]

@[simp] theorem consume_server : (s.consume i).server = s.server := rfl

@[simp] theorem consume_channel_self : (s.consume i).channel i = (s.channel i).tail := by
  simp [consume]

@[simp] theorem consume_channel_ne (apart : q ≠ i) : (s.consume i).channel q = s.channel q := by
  simp [consume, apart]

end Updates

end RingState

/-- `perform` calls PerformElection; `listen` is a server that replies without starting an
    election of its own. `readFails` is a `read` that does not return a whole message. -/
inductive Action (n : Nat) where
  | perform (i : Fin n)
  | listen (i : Fin n)
  | start (i : Fin n) (writes : Bool)
  | reply (i : Fin n) (writes : Bool)
  | readFails (i : Fin n)
  deriving DecidableEq, Repr

def Progress.inElection : Progress → Bool
  | .starting _ | .replying _ => true
  | .idle | .returned _ => false

section Steps
variable {n : Nat} [NeZero n]

def ringStep (ids : Fin n → IdType) (s : RingState n) : Action n → Option (RingState n)
  | .perform i =>
    if (s.server i).inElection then none else some (s.become i (.starting (construct (ids i))) none)
  | .listen i =>
    if (s.server i).inElection then none else some (s.become i (.replying (construct (ids i))) none)
  | .start i writes =>
    match s.server i with
    | .starting e =>
      let o := startElection e writes
      some (s.become i (afterStart o) o.sent)
    | _ => none
  | .reply i writes =>
    match s.server i, s.channel (i - 1) with
    | .replying e, data :: _ =>
      let o := replyElection e (some data) writes
      some ((s.consume (i - 1)).become i (afterReply o) o.sent)
    | _, _ => none
  | .readFails i =>
    match s.server i with
    | .replying e =>
      let o := replyElection e none true
      some (s.become i (afterReply o) o.sent)
    | _ => none

/-- Everything one action can do. -/
theorem step_cases {ids : Fin n → IdType} {s t : RingState n} {a : Action n}
    (step : ringStep ids s a = some t) :
    (∃ i p, (a = .perform i ∨ a = .listen i) ∧ (s.server i).inElection = false ∧
      (p = .starting (construct (ids i)) ∨ p = .replying (construct (ids i))) ∧
      t = s.become i p none) ∨
    (∃ i writes e, a = .start i writes ∧ s.server i = .starting e ∧
      t = s.become i (afterStart (startElection e writes)) (startElection e writes).sent) ∨
    (∃ i writes e data rest, a = .reply i writes ∧ s.server i = .replying e ∧
      s.channel (i - 1) = data :: rest ∧
      t = (s.consume (i - 1)).become i (afterReply (replyElection e (some data) writes))
        (replyElection e (some data) writes).sent) ∨
    (∃ i e, a = .readFails i ∧ s.server i = .replying e ∧
      t = s.become i (.returned (.error .kPreviousBroken)) none) := by
  cases a with
  | perform i =>
    simp only [ringStep, Option.ite_none_left_eq_some, Option.some.injEq, Bool.not_eq_true] at step
    exact Or.inl ⟨i, _, Or.inl rfl, step.1, Or.inl rfl, step.2.symm⟩
  | listen i =>
    simp only [ringStep, Option.ite_none_left_eq_some, Option.some.injEq, Bool.not_eq_true] at step
    exact Or.inl ⟨i, _, Or.inr rfl, step.1, Or.inr rfl, step.2.symm⟩
  | start i writes =>
    simp only [ringStep] at step
    split at step
    · rename_i e found
      exact Or.inr (Or.inl ⟨i, writes, e, rfl, found, (Option.some.inj step).symm⟩)
    · cases step
  | reply i writes =>
    simp only [ringStep] at step
    split at step
    · rename_i e data rest found waiting
      exact Or.inr (Or.inr (Or.inl
        ⟨i, writes, e, data, rest, rfl, found, waiting, (Option.some.inj step).symm⟩))
    · cases step
  | readFails i =>
    simp only [ringStep] at step
    split at step
    · rename_i e found
      exact Or.inr (Or.inr (Or.inr ⟨i, e, rfl, found, (Option.some.inj step).symm⟩))
    · cases step

/-- No call fails and no election is restarted: every server still makes the calls of the
    one PerformElection (or loop over ReplyElection) it is in. -/
def reliable : Action n → Bool
  | .start _ writes | .reply _ writes => writes
  | .perform _ | .listen _ | .readFails _ => false

def reliableStep (ids : Fin n → IdType) (s : RingState n) (a : Action n) : Option (RingState n) :=
  if reliable a then ringStep ids s a else none

/-- The servers in `starts` call StartElection before their first ReplyElection, the others never. -/
def entered (ids : Fin n → IdType) (starts : Fin n → Bool) : RingState n :=
  ⟨fun i => if starts i then .starting (construct (ids i)) else .replying (construct (ids i)),
    fun _ => []⟩

theorem reliable_cases {ids : Fin n → IdType} {s t : RingState n} {a : Action n}
    (step : reliableStep ids s a = some t) :
    (∃ i e, a = .start i true ∧ s.server i = .starting e ∧
      t = s.become i (.replying ⟨e.id, true⟩) (some ⟨.kUnderway, e.id⟩)) ∨
    (∃ i e data rest, a = .reply i true ∧ s.server i = .replying e ∧
      s.channel (i - 1) = data :: rest ∧
      t = (s.consume (i - 1)).become i (afterReply (replyElection e (some data) true))
        (replyElection e (some data) true).sent) := by
  simp only [reliableStep, Option.ite_none_right_eq_some] at step
  obtain ⟨calm, step⟩ := step
  rcases step_cases step with ⟨i, p, kind, _⟩ | ⟨i, writes, e, rfl, found, rfl⟩ |
    ⟨i, writes, e, data, rest, rfl, found, waiting, rfl⟩ | ⟨i, e, rfl, _⟩
  · rcases kind with rfl | rfl <;> simp [reliable] at calm
  · obtain rfl : writes = true := calm
    exact Or.inl ⟨i, e, rfl, found, rfl⟩
  · obtain rfl : writes = true := calm
    exact Or.inr ⟨i, e, data, rest, rfl, found, waiting, rfl⟩
  · simp [reliable] at calm

end Steps

section Maximum
variable {n : Nat}

def IsMaximum (ids : Fin n → IdType) (id : IdType) : Prop := (∃ o, ids o = id) ∧ ∀ j, ids j ≤ id

theorem maximum_unique {ids : Fin n → IdType} {a b : IdType}
    (ha : IsMaximum ids a) (hb : IsMaximum ids b) : a = b := by
  obtain ⟨⟨i, rfl⟩, above⟩ := ha
  obtain ⟨⟨j, rfl⟩, below⟩ := hb
  exact UInt8.le_antisymm (below i) (above j)

end Maximum

end DropboxElection
