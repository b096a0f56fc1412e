import Mathlib.Data.Fintype.Basic
import Mathlib.Logic.Function.Basic
import Dropbox.General.Transitions
import Dropbox.SyncLoops

/-!
Broadcasts of several threads to the same recipients (composite::Sender, used by
ClientHandler::SyncUpload and SyncDelete without a lock, and by BackupHandler under
one). SendCommand, SetPath and SendPath, Send, and Flush are one step each; path_
and the stream belong to the recipient and are shared by the threads.
-/
namespace DropboxSendInterleaving
open Transitions DropboxFileStore DropboxHost DropboxProtocol DropboxSyncLoops
variable {T R : Type} [DecidableEq T] [DecidableEq R]

/-- A call of Sender::Upload or Sender::Delete. -/
inductive Call where
  | upload (path : Path)
  | delete (path : Path)
  deriving DecidableEq, Repr

def Call.path : Call → Path
  | .upload path | .delete path => path

def Call.command : Call → Command
  | .upload _ => .kUpload
  | .delete _ => .kDelete

/-- The message of the call, for a file with this content. -/
def Call.message (content : List Byte) : Call → Message
  | .upload path => .upload (genericString path) content
  | .delete path => .delete (genericString path)

/-- Where a thread is in its call; `content` is what its own file held when Send read path_. -/
inductive Stage where
  | locking
  | commanding
  | pathing
  | sending
  | flushing (content : List Byte)
  deriving DecidableEq, Repr

structure Busy (R : Type) where
  recipient : R
  call : Call
  stage : Stage
  deriving DecidableEq, Repr

/-- `whole` are the messages of the calls that are over, one for each, in the order of their ends. -/
structure State (T R : Type) where
  files : Path → Option (List Byte)
  path : R → Path
  pending : R → List Byte
  sent : R → List Byte
  mutex : R → Option T
  thread : T → Option (Busy R)
  whole : R → List Message

def start (files : Path → Option (List Byte)) : State T R :=
  { files := files, path := fun _ => [], pending := fun _ => [], sent := fun _ => [],
    mutex := fun _ => none, thread := fun _ => none, whole := fun _ => [] }

inductive Action (T R : Type) where
  | call (t : T) (r : R) (c : Call)
  | lock (t : T)
  | sendCommand (t : T)
  | sendPath (t : T)
  | send (t : T)
  | flush (t : T)
  | spill (r : R) (n : Nat)                            -- the buffer is full and sends a part
  | store (p : Path) (content : Option (List Byte))    -- a handler changes a file
  deriving DecidableEq, Repr

def State.setThread (s : State T R) (t : T) (b : Option (Busy R)) : State T R :=
  { s with thread := Function.update s.thread t b }

def State.put (s : State T R) (r : R) (bytes : List Byte) : State T R :=
  { s with pending := Function.update s.pending r (s.pending r ++ bytes) }

/-- The lock_guard of a BackupHandler ends with the call. -/
def State.unlock (s : State T R) (guarded : R → Bool) (r : R) : State T R :=
  if guarded r then { s with mutex := Function.update s.mutex r none } else s

/-- `guarded` says of a recipient that it is a BackupHandler. -/
def sendStep (guarded : R → Bool) (s : State T R) : Action T R → Option (State T R)
  | .call t r c =>
    match s.thread t with
    | none => some (s.setThread t (some ⟨r, c, if guarded r then .locking else .commanding⟩))
    | some _ => none
  | .lock t =>
    match s.thread t with
    | some ⟨r, c, .locking⟩ =>
      if s.mutex r = none then
        some { s.setThread t (some ⟨r, c, .commanding⟩) with
          mutex := Function.update s.mutex r (some t) }
      else none
    | _ => none
  | .sendCommand t =>
    match s.thread t with
    | some ⟨r, c, .commanding⟩ =>
      some ((s.setThread t (some ⟨r, c, .pathing⟩)).put r (encodeCommand c.command))
    | _ => none
  | .sendPath t =>
    match s.thread t with
    | some ⟨r, .upload p, .pathing⟩ =>
      some { (s.setThread t (some ⟨r, .upload p, .sending⟩)).put r (encodePath p) with
        path := Function.update s.path r p }
    | some ⟨r, .delete p, .pathing⟩ =>
      some { (s.setThread t (some ⟨r, .delete p, .flushing []⟩)).put r (encodePath p) with
        path := Function.update s.path r p }
    | _ => none
  | .send t =>
    match s.thread t with
    | some ⟨r, c, .sending⟩ =>
      match s.files (s.path r) with
      | some content =>
        some ((s.setThread t (some ⟨r, c, .flushing ((s.files c.path).getD [])⟩)).put r
          (encodeFile content))
      | none => some ((s.setThread t none).unlock guarded r)   -- Upload returns false
    | _ => none
  | .flush t =>
    match s.thread t with
    | some ⟨r, c, .flushing content⟩ =>
      some { (s.setThread t none).unlock guarded r with
        sent := Function.update s.sent r (s.sent r ++ s.pending r)
        pending := Function.update s.pending r []
        whole := Function.update s.whole r (s.whole r ++ [c.message content]) }
    | _ => none
  | .spill r n =>
    some { s with
      sent := Function.update s.sent r (s.sent r ++ (s.pending r).take n)
      pending := Function.update s.pending r ((s.pending r).drop n) }
  | .store p content => some { s with files := Function.update s.files p content }

/-- All bytes put into the stream of a recipient, sent or not. -/
def State.stream (s : State T R) (r : R) : List Byte := s.sent r ++ s.pending r

/-- Between the first and the last step that puts something. -/
def Busy.inside (b : Busy R) : Bool :=
  match b.stage with
  | .locking | .commanding => false
  | .pathing | .sending | .flushing _ => true

/-- What the call has put so far. -/
def Busy.part (b : Busy R) : List Byte :=
  match b.stage with
  | .locking | .commanding => []
  | .pathing => encodeCommand b.call.command
  | .sending => encodeCommand b.call.command ++ encodePath b.call.path
  | .flushing content => encodeMessage (b.call.message content)

/-- This thread is in the middle of a message to this recipient. -/
def Inside (s : State T R) (r : R) (t : T) (b : Busy R) : Prop :=
  s.thread t = some b ∧ b.recipient = r ∧ b.inside = true

/-- The stream of the recipient holds one whole message for each call that is over, and after them
    what the only call under way has put. -/
def Framed (s : State T R) (r : R) : Prop :=
  ∃ part, s.stream r = (s.whole r).flatMap encodeMessage ++ part ∧
    (∀ t b, Inside s r t b → part = b.part) ∧ ((∀ t b, ¬ Inside s r t b) → part = [])

/-- Two uploads are sent to one device: the commands and the paths mix, and each upload goes out
    with the content of the file whose path was set last. -/
theorem broadcasts_to_device_interleave :
    ¬ ∀ (actions : List (Action Bool Unit)) (s : State Bool Unit),
      runs (sendStep fun _ => false) (start fun p => some p) actions = some s → ∀ r, Framed s r := by
  intro claim
  obtain ⟨part, stream, _, idle⟩ := claim [.call true () (.upload [97]), .call false () (.upload [98]),
    .sendCommand true, .sendCommand false, .sendPath true, .sendPath false, .send true, .send false,
    .flush true, .flush false] _ rfl ()
  have nobody := idle (by
    rintro t b ⟨busy, _⟩
    cases t <;> cases busy)
  rw [nobody] at stream
  exact absurd stream (by decide)

/-- To a device a message is begun only when no other thread is in the middle of one, and no upload
    is sent of a file that is gone. -/
def Careful (guarded : R → Bool) (s : State T R) : Action T R → Prop
  | .sendCommand t => ∀ b ∈ s.thread t, guarded b.recipient = true ∨
      ∀ u, ∀ c ∈ s.thread u, c.recipient = b.recipient → c.inside = false
  | .send t => ∀ b ∈ s.thread t, s.files b.call.path ≠ none
  | _ => True

instance [Fintype T] (guarded : R → Bool) (s : State T R) (a : Action T R) :
    Decidable (Careful guarded s a) := by
  cases a <;> simp only [Careful] <;> infer_instance

structure Orderly (guarded : R → Bool) (s : State T R) : Prop where
  alone : ∀ r t u b c, Inside s r t b → Inside s r u c → t = u
  owner : ∀ t b, s.thread t = some b → guarded b.recipient = true → b.stage ≠ .locking →
    s.mutex b.recipient = some t
  path : ∀ t b, s.thread t = some b → b.stage = .sending → b.call = .upload (s.path b.recipient)
  framed : ∀ r, Framed s r

omit [DecidableEq T] [DecidableEq R] in
theorem orderly_start (guarded : R → Bool) (files : Path → Option (List Byte)) :
    Orderly guarded (start files : State T R) := by
  refine ⟨?_, ?_, ?_, fun r => ⟨[], rfl, ?_, fun _ => rfl⟩⟩
  · rintro r t u b c ⟨busy, _⟩
    cases busy
  · intro t b busy
    cases busy
  · intro t b busy
    cases busy
  · rintro t b ⟨busy, _⟩
    cases busy

omit [DecidableEq R] in
theorem thread_setThread (s : State T R) (t u : T) (b : Option (Busy R)) :
    (s.setThread t b).thread u = if u = t then b else s.thread u := by
  simp [State.setThread, Function.update_apply]

section
omit [DecidableEq T] [DecidableEq R]

theorem framed_of_sole {s : State T R} {r : R} {t : T} {part : List Byte}
    (sole : ∀ u b, Inside s r u b → u = t)
    (stream : s.stream r = (s.whole r).flatMap encodeMessage ++ part)
    (own : ∀ b, Inside s r t b → part = b.part)
    (idle : (∀ b, ¬ Inside s r t b) → part = []) : Framed s r := by
  refine ⟨part, stream, ?_, ?_⟩
  · intro u b inside
    obtain rfl := sole u b inside
    exact own b inside
  · intro nobody
    exact idle fun b => nobody t b

/-- A step that puts nothing and leaves who is inside as it was. -/
theorem framed_same {s s' : State T R} {r : R} (framed : Framed s r)
    (stream : s'.stream r = s.stream r) (whole : s'.whole r = s.whole r)
    (inside : ∀ u b, Inside s' r u b ↔ Inside s r u b) : Framed s' r := by
  obtain ⟨part, shape, own, idle⟩ := framed
  refine ⟨part, by rw [stream, whole, shape], ?_, ?_⟩
  · intro u b here
    exact own u b ((inside u b).mp here)
  · intro nobody
    exact idle fun u b here => nobody u b ((inside u b).mpr here)

/-- What the thread of the call under way knows about the stream. -/
theorem stream_of_inside {guarded : R → Bool} {s : State T R} {r : R} {t : T} {b : Busy R}
    (orderly : Orderly guarded s) (inside : Inside s r t b) :
    s.stream r = (s.whole r).flatMap encodeMessage ++ b.part := by
  obtain ⟨part, stream, own, _⟩ := orderly.framed r
  rw [stream, own t b inside]

end

omit [DecidableEq R] in
/-- A thread moves outside its messages. -/
theorem inside_move {s : State T R} {t : T} {b' : Option (Busy R)}
    (before : ∀ b, s.thread t = some b → b.inside = false)
    (after : ∀ b, b' = some b → b.inside = false) (r : R) (u : T) (b : Busy R) :
    Inside (s.setThread t b') r u b ↔ Inside s r u b := by
  simp only [Inside, thread_setThread]
  split
  · rename_i same
    constructor
    · rintro ⟨busy, _, inside⟩
      rw [after b busy] at inside
      cases inside
    · rintro ⟨busy, _, inside⟩
      rw [same] at busy
      rw [before b busy] at inside
      cases inside
  · rfl

omit [DecidableEq R] in
theorem orderly_outside {guarded : R → Bool} {s : State T R} {t : T} (b' : Option (Busy R))
    (orderly : Orderly guarded s) (before : ∀ b, s.thread t = some b → b.inside = false)
    (after : ∀ b, b' = some b → b.inside = false)
    (owner : ∀ b, b' = some b → guarded b.recipient = true → b.stage ≠ .locking →
      s.mutex b.recipient = some t) : Orderly guarded (s.setThread t b') := by
  have inside := inside_move before after
  refine ⟨?_, ?_, ?_, ?_⟩
  · intro r u v b c first second
    exact orderly.alone r u v b c ((inside r u b).mp first) ((inside r v c).mp second)
  · intro u b busy
    rw [thread_setThread] at busy
    split at busy
    · rename_i same
      rw [same]
      exact owner b busy
    · exact orderly.owner u b busy
  · intro u b busy stage
    rw [thread_setThread] at busy
    split at busy
    · have outside := after b busy
      rw [Busy.inside, stage] at outside
      cases outside
    · exact orderly.path u b busy stage
  · intro r
    exact framed_same (orderly.framed r) rfl rfl (inside r)

/-- The only thread inside a message to `r` takes a step on it. -/
theorem orderly_active {guarded : R → Bool} {s s' : State T R} {r : R} {t : T} {b : Busy R}
    (b' : Option (Busy R)) (part : List Byte) (orderly : Orderly guarded s)
    (busy : s.thread t = some b) (here : b.recipient = r)
    (thread : s'.thread = (s.setThread t b').thread) (sole : ∀ u c, Inside s r u c → u = t)
    (others : ∀ q, q ≠ r → s'.stream q = s.stream q ∧ s'.whole q = s.whole q)
    (paths : ∀ q, q ≠ r → s'.path q = s.path q)
    (mutexes : ∀ u c, s.thread u = some c → u ≠ t → guarded c.recipient = true →
      c.stage ≠ .locking → s'.mutex c.recipient = s.mutex c.recipient)
    (stream : s'.stream r = (s'.whole r).flatMap encodeMessage ++ part)
    (after : ∀ c, b' = some c → c.recipient = r ∧ c.inside = true ∧ part = c.part ∧
      (guarded r = true → s'.mutex r = some t) ∧ (c.stage = .sending → c.call = .upload (s'.path r)))
    (empty : b' = none → part = []) : Orderly guarded s' := by
  have at_t : s'.thread t = b' := by rw [thread, thread_setThread, if_pos rfl]
  have at_other : ∀ u, u ≠ t → s'.thread u = s.thread u := by
    intro u apart
    rw [thread, thread_setThread, if_neg apart]
  have old : ∀ q u c, u ≠ t → (Inside s' q u c ↔ Inside s q u c) := by
    intro q u c apart
    rw [Inside, Inside, at_other u apart]
  have sole' : ∀ u c, Inside s' r u c → u = t := by
    intro u c inside
    by_contra apart
    exact apart (sole u c ((old r u c apart).mp inside))
  have own : ∀ q c, Inside s' q t c → q = r := by
    rintro q c ⟨found, recipient, _⟩
    rw [at_t] at found
    rw [← recipient, (after c found).1]
  refine ⟨?_, ?_, ?_, ?_⟩
  · intro q u v c d first second
    by_cases same : q = r
    · subst same
      rw [sole' u c first, sole' v d second]
    · have apartU : u ≠ t := by
        rintro rfl
        exact same (own q c first)
      have apartV : v ≠ t := by
        rintro rfl
        exact same (own q d second)
      exact orderly.alone q u v c d ((old q u c apartU).mp first) ((old q v d apartV).mp second)
  · intro u c found backup stage
    by_cases apart : u = t
    · rw [apart, at_t] at found
      obtain ⟨recipient, _, _, locked, _⟩ := after c found
      rw [recipient] at backup ⊢
      rw [apart]
      exact locked backup
    · rw [at_other u apart] at found
      rw [mutexes u c found apart backup stage]
      exact orderly.owner u c found backup stage
  · intro u c found stage
    by_cases apart : u = t
    · rw [apart, at_t] at found
      obtain ⟨recipient, _, _, _, path⟩ := after c found
      rw [recipient]
      exact path stage
    · rw [at_other u apart] at found
      have known := orderly.path u c found stage
      have elsewhere : c.recipient ≠ r := by
        intro same
        refine apart (sole u c ⟨found, same, ?_⟩)
        rw [Busy.inside, stage]
      rw [paths _ elsewhere]
      exact known
  · intro q
    by_cases same : q = r
    · subst same
      refine framed_of_sole sole' stream ?_ ?_
      · rintro c ⟨found, _, _⟩
        rw [at_t] at found
        exact (after c found).2.2.1
      · intro nobody
        cases found : b' with
        | none => exact empty found
        | some c =>
          obtain ⟨recipient, inside, _⟩ := after c found
          exact absurd ⟨by rw [at_t, found], recipient, inside⟩ (nobody c)
    · refine framed_same (orderly.framed q) (others q same).1 (others q same).2 ?_
      intro u c
      by_cases apart : u = t
      · subst apart
        constructor
        · intro inside
          exact absurd (own q c inside) same
        · rintro ⟨found, recipient, _⟩
          rw [busy] at found
          cases found
          exact absurd (recipient.symm.trans here) same
      · exact old q u c apart

section
omit [DecidableEq T]

theorem stream_put (s : State T R) (r : R) (bytes : List Byte) :
    (s.put r bytes).stream r = s.stream r ++ bytes := by
  simp [State.stream, State.put]

theorem stream_put_other (s : State T R) {q r : R} (bytes : List Byte) (apart : q ≠ r) :
    (s.put r bytes).stream q = s.stream q := by
  simp [State.stream, State.put, apart]

theorem unlock_other {guarded : R → Bool} {s s' : State T R} {t u : T} {b c : Busy R}
    (same : s'.mutex = s.mutex) (orderly : Orderly guarded s) (busy : s.thread t = some b) (found : s.thread u = some c)
    (apart : u ≠ t) (held : b.stage ≠ .locking) (backup : guarded c.recipient = true)
    (stage : c.stage ≠ .locking) :
    (s'.unlock guarded b.recipient).mutex c.recipient = s.mutex c.recipient := by
  unfold State.unlock
  rw [← same]
  split
  · rename_i kind
    have different : c.recipient ≠ b.recipient := by
      intro equal
      have first := orderly.owner t b busy kind held
      have second := orderly.owner u c found backup stage
      rw [equal, first] at second
      exact apart (Option.some.inj second).symm
    simp [different]
  · rfl

theorem files_unlock (guarded : R → Bool) (s : State T R) (r : R) :
    (s.unlock guarded r).sent = s.sent ∧ (s.unlock guarded r).pending = s.pending ∧
      (s.unlock guarded r).whole = s.whole ∧ (s.unlock guarded r).path = s.path ∧
      (s.unlock guarded r).thread = s.thread := by
  unfold State.unlock
  split <;> exact ⟨rfl, rfl, rfl, rfl, rfl⟩

end

omit [DecidableEq T] [DecidableEq R] in
theorem sole_of_inside {guarded : R → Bool} {s : State T R} {r : R} {t : T} {b : Busy R}
    (orderly : Orderly guarded s) (inside : Inside s r t b) : ∀ u c, Inside s r u c → u = t :=
  fun u c other => orderly.alone r u t c b other inside

theorem sendCommand_orderly {guarded : R → Bool} {s s' : State T R} {t : T}
    (orderly : Orderly guarded s) (careful : Careful guarded s (.sendCommand t))
    (step : sendStep guarded s (.sendCommand t) = some s') : Orderly guarded s' := by
  simp only [sendStep] at step
  split at step
  · rename_i r c busy
    cases step
    have outside : ∀ u d, ¬ Inside s r u d := by
      rintro u d ⟨found, recipient, inside⟩
      rcases careful _ busy with kind | nobody
      · -- the mutex of the backup has one owner
        have mine := orderly.owner t _ busy kind (by simp)
        have stage : d.stage ≠ .locking := by
          intro locking
          rw [Busy.inside, locking] at inside
          cases inside
        have other := orderly.owner u d found (by rw [recipient, kind]) stage
        rw [recipient, mine] at other
        obtain rfl := Option.some.inj other
        rw [busy] at found
        cases found
        cases inside
      · rw [nobody u d found recipient] at inside
        cases inside
    obtain ⟨part, stream, _, idle⟩ := orderly.framed r
    rw [idle outside, List.append_nil] at stream
    refine orderly_active (some ⟨r, c, .pathing⟩) (encodeCommand c.command) orderly busy
      rfl rfl (fun u d inside => absurd inside (outside u d)) ?_ (fun _ _ => rfl)
      (fun _ _ _ _ _ _ => rfl) ?_ ?_ (fun none => by cases none)
    · intro q apart
      exact ⟨stream_put_other s _ apart, rfl⟩
    · rw [stream_put]
      exact congrArg (· ++ _) stream
    · intro d same
      cases same
      refine ⟨rfl, rfl, rfl, fun kind => orderly.owner t _ busy kind (by simp), fun stage => ?_⟩
      cases stage
  · cases step

theorem sendPath_orderly {guarded : R → Bool} {s s' : State T R} {t : T}
    (orderly : Orderly guarded s) (step : sendStep guarded s (.sendPath t) = some s') :
    Orderly guarded s' := by
  simp only [sendStep] at step
  split at step
  · rename_i r p busy
    cases step
    have inside : Inside s r t ⟨r, .upload p, .pathing⟩ := ⟨busy, rfl, rfl⟩
    refine orderly_active (some ⟨r, .upload p, .sending⟩)
      (encodeCommand .kUpload ++ encodePath p) orderly busy rfl rfl
      (sole_of_inside orderly inside) ?_ ?_ (fun _ _ _ _ _ _ => rfl) ?_ ?_ (fun none => by cases none)
    · intro q apart
      exact ⟨stream_put_other s _ apart, rfl⟩
    · intro q apart
      simp [apart]
    · show (s.put r (encodePath p)).stream r = _
      rw [stream_put, stream_of_inside orderly inside, List.append_assoc]
      rfl
    · intro d same
      cases same
      refine ⟨rfl, rfl, rfl, fun kind => orderly.owner t _ busy kind (by simp), fun _ => ?_⟩
      simp
  · rename_i r p busy
    cases step
    have inside : Inside s r t ⟨r, .delete p, .pathing⟩ := ⟨busy, rfl, rfl⟩
    refine orderly_active (some ⟨r, .delete p, .flushing []⟩)
      (encodeCommand .kDelete ++ encodePath p) orderly busy rfl rfl
      (sole_of_inside orderly inside) ?_ ?_ (fun _ _ _ _ _ _ => rfl) ?_ ?_ (fun none => by cases none)
    · intro q apart
      exact ⟨stream_put_other s _ apart, rfl⟩
    · intro q apart
      simp [apart]
    · show (s.put r (encodePath p)).stream r = _
      rw [stream_put, stream_of_inside orderly inside, List.append_assoc]
      rfl
    · intro d same
      cases same
      refine ⟨rfl, rfl, ?_, fun kind => orderly.owner t _ busy kind (by simp), fun stage => ?_⟩
      · simp [Busy.part, Call.message, encodeMessage, Message.command, Message.path, Message.body,
          encodePath]
      · cases stage
  · cases step

theorem send_orderly {guarded : R → Bool} {s s' : State T R} {t : T}
    (orderly : Orderly guarded s) (careful : Careful guarded s (.send t))
    (step : sendStep guarded s (.send t) = some s') : Orderly guarded s' := by
  simp only [sendStep] at step
  split at step
  · rename_i r c busy
    have named : c = .upload (s.path r) := orderly.path t _ busy rfl
    have inside : Inside s r t ⟨r, c, .sending⟩ := ⟨busy, rfl, rfl⟩
    split at step
    · rename_i content held
      cases step
      have own : (s.files c.path).getD [] = content := by
        rw [named, Call.path, held]
        rfl
      rw [own]
      refine orderly_active (some ⟨r, c, .flushing content⟩)
        (encodeMessage (c.message content)) orderly busy rfl rfl
        (sole_of_inside orderly inside) ?_ (fun _ _ => rfl) (fun _ _ _ _ _ _ => rfl) ?_ ?_
        (fun none => by cases none)
      · intro q apart
        exact ⟨stream_put_other s _ apart, rfl⟩
      · rw [stream_put]
        show s.stream r ++ _ = _
        rw [stream_of_inside orderly inside, named]
        simp [Busy.part, Call.message, encodeMessage, Message.command, Message.path, Message.body,
          encodePath, Call.command, Call.path, State.put, State.setThread]
      · intro d same
        cases same
        refine ⟨rfl, rfl, rfl, fun kind => orderly.owner t _ busy kind (by simp), fun stage => ?_⟩
        cases stage
    · rename_i gone
      refine absurd ?_ (careful _ busy)
      show s.files c.path = none
      rw [named]
      exact gone
  · cases step

theorem flush_orderly {guarded : R → Bool} {s s' : State T R} {t : T}
    (orderly : Orderly guarded s) (step : sendStep guarded s (.flush t) = some s') :
    Orderly guarded s' := by
  simp only [sendStep] at step
  split at step
  · rename_i r c content busy
    cases step
    have inside : Inside s r t ⟨r, c, .flushing content⟩ := ⟨busy, rfl, rfl⟩
    obtain ⟨_, _, _, path, thread⟩ := files_unlock guarded (s.setThread t none) r
    refine orderly_active none [] orderly busy rfl thread
      (sole_of_inside orderly inside) ?_ ?_ ?_ ?_ (fun d none => by cases none) (fun _ => rfl)
    · intro q apart
      simp [State.stream, apart]
    · intro q _
      show ((s.setThread t none).unlock guarded r).path q = s.path q
      rw [path]
      rfl
    · intro u d found apart backup stage
      have kept : (s.setThread t none).mutex = s.mutex := rfl
      exact unlock_other kept orderly busy found apart (by simp) backup stage
    · have before := stream_of_inside orderly inside
      simpa [State.stream, Busy.part] using before
  · cases step

theorem step_orderly {guarded : R → Bool} (s : State T R) (a : Action T R) (s' : State T R)
    (orderly : Orderly guarded s) (careful : Careful guarded s a)
    (step : sendStep guarded s a = some s') : Orderly guarded s' := by
  cases a with
  | call t r c =>
    simp only [sendStep] at step
    split at step
    · rename_i idle
      cases step
      refine orderly_outside _ orderly ?_ ?_ ?_
      · intro b busy
        rw [idle] at busy
        cases busy
      · rintro b begun
        cases begun
        cases guarded r <;> rfl
      · rintro b begun backup stage
        cases begun
        change guarded r = true at backup
        rw [if_pos backup] at stage
        exact absurd rfl stage
    · cases step
  | lock t =>
    simp only [sendStep] at step
    split at step
    · rename_i r c busy
      simp only [Option.ite_none_right_eq_some, Option.some.injEq] at step
      obtain ⟨free, rfl⟩ := step
      have taken : Orderly guarded { s with mutex := Function.update s.mutex r (some t) } := by
        refine ⟨orderly.alone, fun u d found backup stage => ?_, orderly.path, orderly.framed⟩
        have owned := orderly.owner u d found backup stage
        have apart : d.recipient ≠ r := by
          intro same
          rw [same, free] at owned
          cases owned
        simpa [apart] using owned
      refine orderly_outside (some ⟨r, c, .commanding⟩) taken ?_ ?_ ?_
      · intro b found
        change s.thread t = some b at found
        rw [busy] at found
        cases found
        rfl
      · intro b begun
        cases begun
        rfl
      · intro b begun _ _
        cases begun
        simp
    · cases step
  | sendCommand t => exact sendCommand_orderly orderly careful step
  | sendPath t => exact sendPath_orderly orderly step
  | send t => exact send_orderly orderly careful step
  | flush t => exact flush_orderly orderly step
  | spill r n =>
    cases step
    refine ⟨orderly.alone, orderly.owner, orderly.path, fun q => ?_⟩
    refine framed_same (orderly.framed q) ?_ rfl fun u b => Iff.rfl
    by_cases same : q = r
    · rw [same]
      simp [State.stream]
    · simp [State.stream, same]
  | store p content =>
    cases step
    exact ⟨orderly.alone, orderly.owner, orderly.path, orderly.framed⟩

/-- In every run in which no message to a device is begun in the middle of another one, and no
    upload is sent of a file that is gone, every stream holds whole messages, each with the path
    and the content of its own broadcast. -/
theorem careful_runs_frame {guarded : R → Bool} {files : Path → Option (List Byte)}
    {actions : List (Action T R)} {s : State T R}
    (careful : Allowed (sendStep guarded) (Careful guarded) (start files) actions)
    (run : runs (sendStep guarded) (start files) actions = some s) : ∀ r, Framed s r :=
  (invariant_of_allowed step_orderly careful run (orderly_start guarded files)).framed

/-- Two threads send to a backup (`true`) at the same time, and one after the other to a device. -/
theorem careful_runs_frame_two :
    ∃ s : State Bool Bool, s.thread true = none ∧ s.thread false = none ∧ ∀ r, Framed s r :=
  have careful : Allowed (sendStep id) (Careful id) (start some) [
      .call true true (.upload [97]), .call false false (.upload [98]), .lock true,
      .sendCommand true, .sendCommand false, .sendPath false, .sendPath true, .send false,
      .send true, .flush false, .call false true (.delete [97]), .flush true, .lock false,
      .sendCommand false, .call true false (.delete [98]), .sendCommand true, .sendPath true,
      .sendPath false, .flush true, .flush false] := by
    decide
  ⟨_, rfl, rfl, careful_runs_frame careful rfl⟩

end DropboxSendInterleaving
