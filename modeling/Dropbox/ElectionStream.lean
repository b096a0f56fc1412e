import Dropbox.Election
import Dropbox.FileStore

/-!
ReplyElection on the byte stream of `prev_`. A message is two bytes, and one call of
read gives at least one byte and at most two, as many as the OS has at hand, until the
stream ends. The successor makes the calls of one PerformElection after the other on
the same socket.
-/
namespace DropboxElectionStream
open Transitions DropboxFileStore DropboxElection

/-- The underlying value of a status. -/
def statusByte : Status → Byte
  | .kUnderway => 255
  | .kElected => 0

def statusOf (b : Byte) : Option Status :=
  if b = 255 then some .kUnderway else if b = 0 then some .kElected else none

/-- The bytes of the struct. -/
def bytes (data : ElectionData) : List Byte := [statusByte data.status, data.id]

def encode (messages : List ElectionData) : List Byte := messages.flatMap bytes

/-- A call of read returns -1, or gives what there is of so many bytes. -/
inductive Read where
  | fails
  | gives (n : Nat)
  deriving DecidableEq, Repr

/-- The bytes that land in `data`. -/
def Read.takes (unread : List Byte) : Read → List Byte
  | .fails => []
  | .gives n => unread.take (min n 2)

/-- What ReplyElection makes of them; its switch has no case for another status. -/
inductive Received where
  | short
  | unknown
  | message (data : ElectionData)
  deriving DecidableEq, Repr

def received : List Byte → Received
  | [status, id] =>
    match statusOf status with
    | some status => .message ⟨status, id⟩
    | none => .unknown
  | _ => .short

/-- A message acted on, or kPreviousBroken with whether the stream had ended or failed. -/
inductive Report where
  | actedOn (data : ElectionData)
  | previousBroken (really : Bool)
  deriving DecidableEq, Repr

def Report.message : Report → Option ElectionData
  | .actedOn data => some data
  | .previousBroken _ => none

structure Successor where
  progress : Progress
  unread : List Byte
  sent : List ElectionData
  reports : List Report
  undefined : Bool

/-- Before its first election, with all that the predecessor writes. -/
def start (messages : List ElectionData) : Successor := ⟨.idle, encode messages, [], [], false⟩

inductive Action where
  | perform
  | start (writes : Bool)
  | reply (read : Read) (writes : Bool)
  deriving DecidableEq, Repr

/-- The call of ReplyElection in PerformElection, on the bytes that were read. -/
def Successor.reply (e : Election) (data : List Byte) (really writes : Bool) (s : Successor) :
    Successor :=
  let s := { s with unread := s.unread.drop data.length }
  match received data with
  | .short =>
    { s with progress := afterReply (replyElection e none writes),
             reports := s.reports ++ [.previousBroken really] }
  | .unknown => { s with undefined := true }
  | .message data =>
    let o := replyElection e (some data) writes
    { s with progress := afterReply o, sent := s.sent ++ o.sent.toList,
             reports := s.reports ++ [.actedOn data] }

def successorStep (id : IdType) (s : Successor) : Action → Option Successor
  | .perform =>
    if s.undefined || s.progress.inElection then none
    else some { s with progress := .starting (construct id) }
  | .start writes =>
    match s.undefined, s.progress with
    | false, .starting e =>
      let o := startElection e writes
      some { s with progress := afterStart o, sent := s.sent ++ o.sent.toList }
    | _, _ => none
  | .reply read writes =>
    match s.undefined, s.progress with
    | false, .replying e =>
      if read = .gives 0 then none
      else some (s.reply e (read.takes s.unread) (decide (read = .fails ∨ s.unread = [])) writes)
    | _, _ => none

/-- The messages ReplyElection has acted on. -/
def Successor.acted (s : Successor) : List ElectionData := s.reports.filterMap Report.message

/-- The calls have acted on the messages in order, what is unread begins with the next one, and
    kPreviousBroken was reported of a stream that had ended or failed. -/
structure Aligned (messages : List ElectionData) (s : Successor) : Prop where
  defined : s.undefined = false
  order : ∃ rest, messages = s.acted ++ rest ∧ s.unread = encode rest
  broken : ∀ really, Report.previousBroken really ∈ s.reports → really = true

/-- A read fails, or gives a whole message where there is one. -/
def Whole (s : Successor) : Action → Prop
  | .reply (.gives n) _ => s.unread = [] ∨ 2 ≤ n
  | _ => True

instance (s : Successor) (a : Action) : Decidable (Whole s a) := by
  cases a with
  | reply read writes => cases read <;> simp only [Whole] <;> infer_instance
  | _ => exact isTrue trivial

theorem aligned_start (messages : List ElectionData) : Aligned messages (start messages) where
  defined := rfl
  order := ⟨messages, rfl, rfl⟩
  broken := by simp [start]

theorem received_bytes (data : ElectionData) : received (bytes data) = .message data := by
  obtain ⟨status, id⟩ := data
  cases status <;> rfl

/-- Nothing is read and no reply is made. -/
theorem aligned_of_same {messages : List ElectionData} {s t : Successor}
    (aligned : Aligned messages s) (defined : t.undefined = s.undefined)
    (unread : t.unread = s.unread) (reports : t.reports = s.reports) : Aligned messages t := by
  obtain ⟨isDefined, order, broken⟩ := aligned
  refine ⟨defined.trans isDefined, ?_, ?_⟩
  · rw [unread, Successor.acted, reports]
    exact order
  · rw [reports]
    exact broken

variable {messages rest : List ElectionData} {e : Election} {really writes : Bool} {s : Successor}

/-- The stream has ended or the read failed. -/
theorem reply_ended (aligned : Aligned messages s) :
    Aligned messages (s.reply e [] true writes) := by
  obtain ⟨defined, ⟨left, whole, unread⟩, broken⟩ := aligned
  refine ⟨defined, ⟨left, ?_, unread⟩, fun really member => ?_⟩
  · simpa [Successor.reply, received, Successor.acted, List.filterMap_cons, Report.message] using whole
  · simp only [Successor.reply, received, List.mem_append, List.mem_singleton,
      Report.previousBroken.injEq] at member
    rcases member with before | now
    · exact broken really before
    · exact now

/-- One byte of a message is taken for a broken connection. -/
theorem reply_cut (b : Byte) : ¬ Aligned messages (s.reply e [b] false writes) := by
  intro aligned
  have wrong := aligned.broken false (by simp [Successor.reply, received])
  cases wrong

theorem reply_whole {data : ElectionData} (aligned : Aligned messages s)
    (whole : messages = s.acted ++ data :: rest) (unread : s.unread = encode (data :: rest)) :
    Aligned messages (s.reply e (bytes data) really writes) := by
  unfold Successor.reply
  rw [received_bytes]
  refine ⟨aligned.defined, ⟨rest, ?_, ?_⟩, fun really member => ?_⟩
  · rw [whole]
    simp [Successor.acted, Report.message]
  · rw [unread]
    rfl
  · have before : Report.previousBroken really ∈ s.reports := by simpa using member
    exact aligned.broken really before

/-- A call of ReplyElection keeps the order when it reads a whole message. -/
theorem reply_aligned {read : Read} (some : read ≠ .gives 0) (aligned : Aligned messages s) :
    Aligned messages (s.reply e (read.takes s.unread)
      (decide (read = .fails ∨ s.unread = [])) writes) ↔ Whole s (.reply read writes) := by
  cases read with
  | fails => exact iff_of_true (reply_ended aligned) trivial
  | gives n =>
    obtain ⟨left, whole, unread⟩ := aligned.order
    cases left with
    | nil =>
      have ended : s.unread = [] := unread
      simp only [ended, Read.takes, List.take_nil, or_true, decide_true]
      exact iff_of_true (reply_ended aligned) (Or.inl ended)
    | cons data left =>
      have more : s.unread ≠ [] := by
        rw [unread]
        exact List.cons_ne_nil _ _
      simp only [Whole, more, reduceCtorEq, or_self, decide_false, false_or]
      by_cases both : 2 ≤ n
      · have taken : (Read.gives n).takes s.unread = bytes data := by
          rw [Read.takes, Nat.min_eq_right both, unread]
          rfl
        rw [taken]
        exact iff_of_true (reply_whole aligned whole unread) both
      · have one : n = 1 := by
          have positive : n ≠ 0 := fun zero => some (congrArg Read.gives zero)
          omega
        have taken : (Read.gives n).takes s.unread = [statusByte data.status] := by
          rw [one, unread]
          rfl
        rw [taken]
        exact iff_of_false (reply_cut _) both

theorem step_aligned {id : IdType} (s : Successor) (a : Action) (t : Successor)
    (aligned : Aligned messages s) (step : successorStep id s a = some t) :
    Aligned messages t ↔ Whole s a := by
  cases a with
  | perform =>
    simp only [successorStep, Option.ite_none_left_eq_some, Option.some.injEq] at step
    obtain ⟨_, rfl⟩ := step
    exact iff_of_true (aligned_of_same aligned rfl rfl rfl) trivial
  | start writes =>
    simp only [successorStep] at step
    split at step
    · cases step
      exact iff_of_true (aligned_of_same aligned rfl rfl rfl) trivial
    · cases step
  | reply read writes =>
    simp only [successorStep] at step
    split at step
    · rename_i e defined replying
      simp only [Option.ite_none_left_eq_some, Option.some.injEq] at step
      obtain ⟨some, rfl⟩ := step
      exact reply_aligned some aligned
    · cases step

/-- The replies act on the messages that were written, whatever the cuts, exactly in the runs
    where no read gives one byte of a message. -/
theorem replies_aligned_iff {id : IdType} (messages : List ElectionData) {actions : List Action}
    {t : Successor} (run : runs (successorStep id) (start messages) actions = some t) :
    Along (successorStep id) (Aligned messages) (start messages) actions ↔
      Allowed (successorStep id) Whole (start messages) actions :=
  @along_iff_allowed Successor Action (successorStep id) (fun _ => True) (Aligned messages) Whole
    (fun _ _ _ _ _ => trivial) (fun s a t _ aligned step => step_aligned s a t aligned step)
    _ _ _ run trivial (aligned_start messages)

/-- The winner's message comes one byte at a time. -/
theorem cut_message_breaks_previous :
    ¬ ∀ (id : IdType) (messages : List ElectionData) (actions : List Action) (t : Successor),
      runs (successorStep id) (start messages) actions = some t → Aligned messages t := by
  intro claim
  have aligned := claim 1 [⟨.kElected, 3⟩] [.perform, .start true, .reply (.gives 1) true] _ rfl
  have wrong := aligned.broken false (by decide)
  cases wrong

/-- Two elections on the same socket, the first one broken by a failing write, and the end of the
    stream. -/
def twoElections : List Action :=
  [.perform, .start true, .reply (.gives 4) false, .perform, .start true, .reply (.gives 2) true,
    .perform, .start true, .reply (.gives 1) true]

theorem replies_aligned_iff_here : ∃ t,
    runs (successorStep 1) (start [⟨.kUnderway, 3⟩, ⟨.kElected, 3⟩]) twoElections = some t ∧
    (Along (successorStep 1) (Aligned [⟨.kUnderway, 3⟩, ⟨.kElected, 3⟩])
        (start [⟨.kUnderway, 3⟩, ⟨.kElected, 3⟩]) twoElections ↔
      Allowed (successorStep 1) Whole (start [⟨.kUnderway, 3⟩, ⟨.kElected, 3⟩]) twoElections) :=
  ⟨_, rfl, replies_aligned_iff _ rfl⟩

end DropboxElectionStream
