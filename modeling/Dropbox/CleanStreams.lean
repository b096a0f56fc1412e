import Dropbox.AcceptQueue
import Dropbox.Client
import Dropbox.Delivery
import Dropbox.General.Calls

/-!
The client's three streams when Client::ReconnectToServer puts new sockets under them.
SetSocket rebinds a reference: buffers, their pointers and the flags stay as they are.
A new connection has sent nothing yet and takes every write whole; what it brings, and
where it fails, is left open.
-/
namespace DropboxCleanStreams
open Programs Codec DropboxFileStore DropboxHost DropboxSocketStream DropboxProtocol
open DropboxProtocolRules DropboxDelivery DropboxAcceptQueue Calls

/-- Client::SendUsername -/
def sendUsername (username : List Byte) : Io FileExchange Unit := do
  onRdbuf do
    outputArchive
    saveString username
  flushExchange

/-- What ReconnectToServer does once its sockets are connected. -/
def register (fuel turns : Nat) (username : List Byte) : Io FileExchange Bool := do
  sendUsername username
  let _ ← DropboxClient.getSyncDir fuel turns username
  pure true

structure Client where
  payload : FileExchange
  clientSync : FileExchange
  serverSync : FileExchange

def Client.exchange (c : Client) : SocketRole → FileExchange
  | .payload => c.payload
  | .clientSync => c.clientSync
  | .serverSync => c.serverSync

/-- What the new connections bring. -/
structure Connections where
  fs : Fs
  log : List Event
  inbox : SocketRole → List (Option Segment)

def Connections.machine (now : Connections) (role : SocketRole) : Machine :=
  ⟨⟨now.fs, [], [], now.log⟩, now.inbox role, []⟩

/-- `fails` has the socket whose Connect returns false. -/
inductive Attempt where
  | fails (role : SocketRole)
  | connects (now : Connections)

/-- Its result, the client, and the payload connection if there is one. -/
def reconnectToServer (fuel turns : Nat) (username : List Byte) (c : Client) :
    Attempt → Except Fault Bool × Client × Option Machine
  | .fails _ => (.ok false, c, none)
  | .connects now =>
    let ended := exec (register fuel turns username) c.payload (now.machine .payload)
    (ended.1, { c with payload := ended.2.1 }, some ended.2.2)

/-- The attempts of the loop in SyncFromServer that fail. -/
def afterFailures (fuel turns : Nat) (username : List Byte) (c : Client)
    (failures : List SocketRole) : Client :=
  failures.foldl (fun c role => (reconnectToServer fuel turns username c (.fails role)).2.1) c

/-- An exchange and its connection when SendUsername has returned. -/
def started (username : List Byte) (c : Client) (now : Connections) :
    SocketRole → FileExchange × Machine
  | .payload => (exec (sendUsername username) c.payload (now.machine .payload)).2
  | .clientSync => (c.clientSync, now.machine .clientSync)
  | .serverSync => (c.serverSync, now.machine .serverSync)

/-- `sent` is what the payload connection has got from SendUsername, `first` what comes first in
    all that it gets until the reconnect is done. -/
structure StartsClean (username : List Byte) (c : Client) (now : Connections) : Prop where
  sent : (started username c now .payload).2.world.sent = encodeString username
  first : ∀ fuel turns after k, reconnectToServer fuel turns username c (.connects now) =
    (.ok true, after, some k) → encodeString username <+: k.world.sent
  parsed : ∀ role n bytes,
    (exec (xsgetn n) (started username c now role).1.buf (started username c now role).2).1 =
      .ok bytes → bytes <+: deliverable (now.inbox role)
  flags : ∀ role, (started username c now role).1.stream.good = true

/-- What has to be so when the connection is lost. -/
structure Clean (c : Client) : Prop where
  pending : c.payload.buf.pending = []
  unread : ∀ role, (c.exchange role).buf.unread = []
  flags : ∀ role, (c.exchange role).stream.good = true

/-- Characters have been added to the output, and only the output has changed. -/
structure Poured (bytes : List Byte) (b c : SocketBuffer) (m k : Machine) : Prop where
  get : c.gptr = b.gptr
  finish : c.egptr = b.egptr
  inbox : k.inbox = m.inbox
  accepts : k.accepts = []
  all : k.world.sent ++ c.pending = m.world.sent ++ b.pending ++ bytes

def Pours (bytes : List Byte) {A : Type} (x : Io SocketBuffer A) (a : A) : Prop :=
  ∀ b m, m.accepts = [] →
    Comp.ensures (answers host) x (fun r c k => r = .ok a ∧ Poured bytes b c m k) b m

theorem poured_trans {first second : List Byte} {b c d : SocketBuffer} {m k l : Machine}
    (left : Poured first b c m k) (right : Poured second c d k l) :
    Poured (first ++ second) b d m l where
  get := right.get.trans left.get
  finish := right.finish.trans left.finish
  inbox := right.inbox.trans left.inbox
  accepts := right.accepts
  all := by rw [right.all, left.all, List.append_assoc]

theorem pours_bind {A B : Type} {x : Io SocketBuffer A} {f : A → Io SocketBuffer B} {a : A} {b : B}
    {first second : List Byte} (head : Pours first x a) (tail : Pours second (f a) b) :
    Pours (first ++ second) (x >>= f) b := by
  intro c m takes
  rw [Comp.ensures_bind]
  refine Comp.ensures_mono (head c m takes) ?_
  rintro r d k ⟨rfl, poured⟩
  rw [Comp.either_ok]
  refine Comp.ensures_mono (tail d k poured.accepts) ?_
  rintro r e l ⟨rfl, poured'⟩
  exact ⟨rfl, poured_trans poured poured'⟩

theorem pours_pure {A : Type} (a : A) : Pours [] (pure a : Io SocketBuffer A) a :=
  fun _ _ takes => ⟨rfl, rfl, rfl, rfl, takes, by simp⟩

/-- Everything that is pending goes to the OS. -/
theorem sync_pours (b : SocketBuffer) (m : Machine) (takes : m.accepts = []) :
    Comp.ensures (answers host) sync
      (fun r c k => r = .ok true ∧ c.pending = [] ∧ Poured [] b c m k) b m := by
  have size : b.pending.length = b.pptr := window_length ..
  have reply : host m (.send b.pending) = (some b.pending.length,
      { m with world := { m.world with sent := m.world.sent ++ b.pending } }) := by
    simp [host, Machine.send, takes]
  simp only [sync, sendData, osWrite, Comp.ensures_bind, Comp.ensures_get, Comp.either_ok,
    Comp.ensures_call_answers, reply, Comp.ensures_modify, Comp.ensures_pure, size, Nat.sub_self]
  have none : SocketBuffer.pending { b with pptr := 0 } = [] := rfl
  exact ⟨trivial, none, rfl, rfl, rfl, takes, by simp [none]⟩

theorem store_pours (ch : Byte) : Pours [ch] (store ch) () := by
  intro b m takes
  have output := stored_pending ch b
  simp only [store, note, Comp.ensures_bind, Comp.ensures_get, Comp.either_ok]
  by_cases ready : b.gptr < b.egptr
  · rw [if_pos ready, Comp.ensures_bind, Comp.ensures_call_answers]
    refine ⟨rfl, rfl, rfl, rfl, takes, ?_⟩
    rw [output, List.append_assoc]
    rfl
  · rw [if_neg ready, Comp.ensures_modify]
    exact ⟨rfl, rfl, rfl, rfl, takes, by rw [output, List.append_assoc]⟩

theorem sputc_pours (ch : Byte) : Pours [ch] (sputc ch) true := by
  intro b m takes
  simp only [sputc, Comp.ensures_bind, Comp.ensures_get, Comp.either_ok]
  by_cases room : b.pptr < kBufferSize
  · rw [if_pos room, Comp.ensures_bind]
    refine Comp.ensures_mono (store_pours ch b m takes) ?_
    rintro r c k ⟨rfl, poured⟩
    exact ⟨rfl, poured⟩
  · rw [if_neg room]
    simp only [overflow, Comp.ensures_bind]
    refine Comp.ensures_mono (store_pours ch b m takes) ?_
    rintro r c k ⟨rfl, poured⟩
    simp only [Comp.either_ok, Comp.ensures_bind]
    refine Comp.ensures_mono (sync_pours c k poured.accepts) ?_
    rintro r d l ⟨rfl, _, poured'⟩
    exact ⟨rfl, poured_trans poured poured'⟩

theorem xsputc_pours (ch : Byte) : Pours [ch] (xsputc ch) true := by
  intro b m takes
  simp only [xsputc, note, Comp.ensures_bind, Comp.ensures_get, Comp.either_ok]
  by_cases past : kBufferSize < b.pptr
  · rw [if_pos past, Comp.ensures_bind, Comp.ensures_call_answers, Comp.either_ok]
    refine Comp.ensures_mono (sputc_pours ch b _ takes) ?_
    rintro r c k ⟨rfl, poured⟩
    exact ⟨rfl, poured.get, poured.finish, poured.inbox, poured.accepts, poured.all⟩
  · rw [if_neg past]
    exact sputc_pours ch b m takes

theorem xsputn_pours (bytes : List Byte) : Pours bytes (xsputn bytes) bytes.length := by
  induction bytes with
  | nil => exact pours_pure 0
  | cons ch rest ih =>
    rw [xsputn]
    change Pours ([ch] ++ rest) _ _
    refine pours_bind (xsputc_pours ch) ?_
    have counted := pours_bind (f := fun n => pure (n + 1)) ih (pours_pure (rest.length + 1))
    rw [List.append_nil] at counted
    exact counted

theorem saveBinary_pours (bytes : List Byte) : Pours bytes (saveBinary bytes) () := by
  have whole : Pours (bytes ++ []) (saveBinary bytes) () := by
    refine pours_bind (xsputn_pours bytes) ?_
    rw [if_pos rfl]
    exact pours_pure ()
  rw [List.append_nil] at whole
  exact whole

theorem saveString_pours (text : List Byte) :
    Pours (encodeString text) (do outputArchive; saveString text) () := by
  change Pours ([1] ++ (toLittle 8 text.length ++ text)) _ _
  exact pours_bind (saveBinary_pours [1])
    (pours_bind (saveBinary_pours (toLittle 8 text.length)) (saveBinary_pours text))

theorem unread_eq_nil {b c : SocketBuffer} (get : c.gptr = b.gptr) (finish : c.egptr = b.egptr) :
    c.unread = [] ↔ b.unread = [] := by
  simp only [SocketBuffer.unread, ← List.length_eq_zero_iff, window_length, get, finish]

/-- SendUsername on a new connection. -/
theorem sendUsername_answers (username : List Byte) (fe : FileExchange) (m : Machine)
    (takes : m.accepts = []) :
    Comp.ensures (answers host) (sendUsername username) (fun r fe' k => r = .ok () ∧
      fe'.stream.good = fe.stream.good ∧ (fe'.buf.unread = [] ↔ fe.buf.unread = []) ∧
      k.inbox = m.inbox ∧
      k.world.sent ++ fe'.buf.pending = m.world.sent ++ fe.buf.pending ++ encodeString username ∧
      (fe.stream.good = true → fe'.buf.pending = [])) fe m := by
  rw [sendUsername, Comp.ensures_bind, ensures_onRdbuf]
  refine Comp.ensures_mono (saveString_pours username fe.buf m takes) ?_
  rintro r b k ⟨rfl, poured⟩
  simp only [Comp.either_ok, flushExchange, ensures_onStream, flush, Comp.ensures_bind,
    Comp.ensures_get]
  cases good : SocketStream.good { fe.stream with buf := b } with
  | false =>
    have bad : fe.stream.good = false := good
    rw [if_neg (by simp)]
    refine ⟨rfl, rfl, unread_eq_nil poured.get poured.finish, poured.inbox, poured.all, ?_⟩
    intro fine
    rw [bad] at fine
    cases fine
  | true =>
    rw [if_pos rfl, Comp.ensures_bind, ensures_rdbuf]
    refine Comp.ensures_mono (sync_pours b k poured.accepts) ?_
    rintro r c l ⟨rfl, empty, poured'⟩
    have both := poured_trans poured poured'
    rw [List.append_nil] at both
    exact ⟨rfl, rfl, unread_eq_nil both.get both.finish, both.inbox, both.all, fun _ => empty⟩

/-- Only what a connection delivers is read if and only if nothing is unread before. -/
theorem reads_delivered_iff (b : SocketBuffer) (m : Machine) :
    (∀ n bytes, (exec (xsgetn n) b m).1 = .ok bytes → bytes <+: deliverable m.inbox) ↔
      b.unread = [] := by
  have reads := fun n => Comp.ensures_answers.mp (xsgetn_answers n b m)
  constructor
  · intro all
    obtain ⟨_, ⟨_, got, _⟩ | ⟨short, _⟩⟩ := reads (available b m).length
    · have inside := (all _ _ got).length_le
      rw [List.take_length, available, List.length_append] at inside
      exact List.eq_nil_of_length_eq_zero (by omega)
    · exact absurd short (Nat.lt_irrefl _)
  · intro none n bytes got
    have same : available b m = deliverable m.inbox := by rw [available, none, List.nil_append]
    have result := reads n
    rw [same] at result
    change _ ∧ (_ ∧ (exec (xsgetn n) b m).1 = _ ∧ _ ∨
      _ ∧ ((exec (xsgetn n) b m).1 = _ ∨ (exec (xsgetn n) b m).1 = _)) at result
    rw [got] at result
    obtain ⟨_, ⟨_, taken, _⟩ | ⟨_, taken | failed⟩⟩ := result
    · cases taken
      exact List.take_prefix n _
    · cases taken
      exact List.prefix_rfl
    · cases failed

/-- The failed attempts leave the streams alone. -/
theorem afterFailures_eq (fuel turns : Nat) (username : List Byte) (c : Client)
    (failures : List SocketRole) : afterFailures fuel turns username c failures = c := by
  induction failures with
  | nil => rfl
  | cons role failures ih => exact ih

theorem host_sends (before : List Byte) (m : Machine) (s : Sys) (r : s.Reply) (k : Machine)
    (first : before <+: m.world.sent) (reply : host m s = (r, k)) : before <+: k.world.sent := by
  obtain rfl : (host m s).2 = k := congrArg Prod.snd reply
  cases s with
  | recv n =>
    refine first.trans ?_
    show m.world.sent <+: (m.recv n).2.world.sent
    unfold Machine.recv
    split <;> exact List.prefix_rfl
  | send bytes =>
    refine first.trans ?_
    show m.world.sent <+: (m.send bytes).2.world.sent
    unfold Machine.send
    split
    · exact List.prefix_append ..
    · exact List.prefix_rfl
    · exact List.prefix_append ..
  | file c => exact first
  | note e => exact first
  | broadcast e => exact first

-- From here on the rules alone take a computation apart.
attribute [local irreducible] Comp.ensures Makes

/-- What is sent first stays in front. -/
theorem sent_bind {L A B : Type} (x : Io L A) (f : A → Io L B) (l : L) (m : Machine) :
    (exec x l m).2.2.world.sent <+: (exec (x >>= f) l m).2.2.world.sent := by
  have goes : Comp.ensures (answers host) (x >>= f)
      (fun _ _ k => (exec x l m).2.2.world.sent <+: k.world.sent) l m := by
    rw [Comp.ensures_bind, Comp.ensures_answers]
    cases (Comp.exec host x l m).1 with
    | error e => exact List.prefix_rfl
    | ok a =>
      exact ensures_makes (e := answers host)
        (I := fun k : Machine => (exec x l m).2.2.world.sent <+: k.world.sent)
        (fun _ _ _ _ => trivial) (fun k s r h first _ reply => host_sends _ k s r h first reply)
        List.prefix_rfl (makes_any _) _
  exact Comp.ensures_answers.mp goes

theorem sent_first (fuel turns : Nat) (username : List Byte) (fe : FileExchange) (m : Machine) :
    (exec (sendUsername username) fe m).2.2.world.sent <+:
      (exec (register fuel turns username) fe m).2.2.world.sent := sent_bind ..

theorem started_unread (username : List Byte) (c : Client) (now : Connections) (role : SocketRole) :
    ((started username c now role).1.buf.unread = [] ↔ (c.exchange role).buf.unread = []) ∧
      (started username c now role).2.inbox = now.inbox role ∧
      (started username c now role).1.stream.good = (c.exchange role).stream.good := by
  cases role with
  | payload =>
    obtain ⟨_, good, unread, inbox, _⟩ := Comp.ensures_answers.mp
      (sendUsername_answers username c.payload (now.machine .payload) rfl)
    exact ⟨unread, inbox, good⟩
  | clientSync => exact ⟨Iff.rfl, rfl, rfl⟩
  | serverSync => exact ⟨Iff.rfl, rfl, rfl⟩

/-- A reconnect starts from clean streams if and only if they were clean before. -/
theorem starts_clean_iff (fuel turns : Nat) (username : List Byte) (c : Client)
    (failures : List SocketRole) (now : Connections) :
    StartsClean username (afterFailures fuel turns username c failures) now ↔ Clean c := by
  rw [afterFailures_eq]
  obtain ⟨_, _, _, _, all, flushed⟩ := Comp.ensures_answers.mp
    (sendUsername_answers username c.payload (now.machine .payload) rfl)
  change (started username c now .payload).2.world.sent ++
    (started username c now .payload).1.buf.pending = [] ++ _ ++ _ at all
  change _ → (started username c now .payload).1.buf.pending = [] at flushed
  have reads : ∀ role, (∀ n bytes, (exec (xsgetn n) (started username c now role).1.buf
      (started username c now role).2).1 = .ok bytes → bytes <+: deliverable (now.inbox role)) ↔
      (c.exchange role).buf.unread = [] := by
    intro role
    obtain ⟨unread, inbox, _⟩ := started_unread username c now role
    rw [← inbox]
    exact (reads_delivered_iff _ _).trans unread
  constructor
  · intro starts
    have flags : ∀ role, (c.exchange role).stream.good = true := fun role =>
      (started_unread username c now role).2.2.symm.trans (starts.flags role)
    refine ⟨?_, fun role => (reads role).mp (starts.parsed role), flags⟩
    rw [flushed (flags .payload), starts.sent, List.append_nil, List.nil_append] at all
    exact List.self_eq_append_left.mp all
  · intro clean
    have sent : (started username c now .payload).2.world.sent = encodeString username := by
      rw [flushed (clean.flags .payload), clean.pending] at all
      simpa using all
    refine ⟨sent, ?_, fun role => (reads role).mpr (clean.unread role), fun role => ?_⟩
    · intro fuel turns after k done
      rw [← sent]
      obtain rfl : (exec (register fuel turns username) c.payload (now.machine .payload)).2.2 = k :=
        Option.some.inj (congrArg (fun r => r.2.2) done)
      exact sent_first fuel turns username c.payload (now.machine .payload)
    · exact (started_unread username c now role).2.2.trans (clean.flags role)

/-- A client with a command in the put area of its payload stream. -/
def unsent : Client :=
  ⟨⟨⟨⟨fun i => [1, 8].getD i 0, 0, 0, 2⟩, false, false, false⟩, []⟩, .fresh (fun _ => 0) [],
    .fresh (fun _ => 0) []⟩

def silence : Connections := ⟨Fs.empty, [], fun _ => []⟩

/-- The new server gets the rest of what the old one did not, and then the username. -/
theorem old_output_comes_first :
    (started [117] unsent silence .payload).2.world.sent = [1, 8] ++ encodeString [117] ∧
      ¬ StartsClean [117] unsent silence := by
  have sent : (started [117] unsent silence .payload).2.world.sent =
      [1, 8] ++ encodeString [117] := by decide +kernel
  refine ⟨sent, fun starts => ?_⟩
  have both := starts.sent.symm.trans sent
  exact absurd both (by decide)

end DropboxCleanStreams
