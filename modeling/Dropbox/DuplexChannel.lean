import Dropbox.General.Transitions
import Dropbox.SocketStream

/-!
One owner reads, writes and flushes one SocketStream. What it obtains is a prefix of
the input and what is sent a prefix of the output in every run that stores no
character over unread input; otherwise the shared array mixes the two directions.
-/
namespace DropboxDuplexChannel
open DropboxFileStore DropboxHost DropboxSocketStream Programs Transitions

/-- sgetn and sputn go to the buffer, the others are members of the stream. -/
inductive StreamOp where
  | sgetn (n : Nat)
  | read (n : Nat)
  | sputn (bytes : List Byte)
  | write (bytes : List Byte)
  | flush
  deriving DecidableEq, Repr

/-- With the bytes the owner has obtained, and those it has written that were not refused. -/
structure Channel where
  stream : SocketStream
  machine : Machine
  obtained : List Byte
  accepted : List Byte

def start (mem : Nat → Byte) (m : Machine) : Channel := ⟨.fresh mem, m, [], []⟩

/-- One operation, with the characters it obtained and the characters it took. -/
def perform : StreamOp → Io SocketStream (List Byte × List Byte)
  | .sgetn n => do
    let bytes ← rdbuf (xsgetn n)
    pure (bytes, [])
  | .read n => do
    let bytes ← read n
    pure (bytes, [])
  | .sputn bytes => do
    let n ← rdbuf (xsputn bytes)
    pure ([], bytes.take n)
  | .write bytes => do
    let s ← Comp.get
    write bytes
    pure ([], if s.good then bytes else [])
  | .flush => do
    flush
    pure ([], [])

def channelStep (c : Channel) (op : StreamOp) : Option Channel :=
  match exec (perform op) c.stream c.machine with
  | (.ok (got, took), s, m) => some ⟨s, m, c.obtained ++ got, c.accepted ++ took⟩
  | (.error _, _, _) => none

/-- The owner writes only where no unread input lies, and flushes only a stream that has not
    failed or has nothing pending. A failed stream refuses `write` and `flush`. -/
def Careful (c : Channel) : StreamOp → Prop
  | .sputn bytes => c.stream.buf.Spares bytes.length
  | .write bytes => c.stream.good → c.stream.buf.Spares bytes.length
  | .flush => c.stream.good ∨ c.stream.buf.pending = []
  | _ => True

/-- Everything received is obtained or unread, everything written is sent or pending. -/
structure Faithful (input : List Byte) (c : Channel) : Prop where
  sound : c.machine.Sound
  whole : c.machine.world.rcvd ++ c.machine.coming = input
  linked : Linked (delivers input) c.obtained c.accepted c.stream.buf c.machine.world

theorem start_faithful (mem : Nat → Byte) {m : Machine} (sound : m.Sound)
    (nothing : m.world.rcvd = []) (silent : m.world.sent = []) :
    Faithful m.coming (start mem m) where
  sound := sound
  whole := by simp [start, nothing]
  linked := ⟨Nat.le_refl _, Nat.zero_le _, Nat.zero_le _, nothing,
    by simp [start, SocketStream.fresh, SocketBuffer.fresh, SocketBuffer.pending, silent],
    by simp [delivers, start, nothing]⟩

variable {input obtained accepted : List Byte} {s : SocketStream} {w : World}

theorem ensures_perform (op : StreamOp)
    (linked : Linked (delivers input) obtained accepted s.buf w)
    (careful : ∀ m, Careful ⟨s, m, obtained, accepted⟩ op) :
    Comp.ensures (delivers input).env (perform op) (fun r t v => ∃ got took, r = .ok (got, took) ∧
      Linked (delivers input) (obtained ++ got) (accepted ++ took) t.buf v ∧
      (op = .flush → v.sent = accepted ++ took)) s w := by
  have free : ∀ d, Asks (delivers input) (obtained ++ d) accepted := fun _ => delivers_asks _ _ _
  have care := careful ⟨w, [], []⟩
  cases op with
  | sgetn n =>
    rw [perform, Comp.ensures_bind, ensures_rdbuf]
    apply Comp.ensures_mono (ensures_xsgetn n linked fun d _ _ => free d _ _)
    rintro r b v ⟨_, bytes, rfl, _, now, _⟩
    exact ⟨bytes, [], rfl, by simpa using now, by simp⟩
  | read n =>
    rw [perform, Comp.ensures_bind]
    apply Comp.ensures_mono (ensures_read n linked fun d _ _ => free d _ _)
    rintro r t v ⟨_, bytes, rfl, _, now, _⟩
    exact ⟨bytes, [], rfl, by simpa using now, by simp⟩
  | sputn bytes =>
    rw [perform, Comp.ensures_bind, ensures_rdbuf]
    apply Comp.ensures_mono (ensures_xsputn bytes linked care (fun _ _ => trivial)
      fun _ _ => trivial)
    rintro r b v ⟨rfl, now, _⟩
    exact ⟨[], _, rfl, by simpa using now, by simp⟩
  | write bytes =>
    rw [perform, Comp.ensures_bind, Comp.ensures_get, Comp.either_ok, Comp.ensures_bind]
    cases state : s.good
    · simp only [write, Comp.ensures_bind, Comp.ensures_get, Comp.either_ok, state]
      exact ⟨[], [], rfl, by simpa using linked, by simp⟩
    · apply Comp.ensures_mono (ensures_write bytes state linked (care state) (fun _ _ => trivial)
        fun _ _ => trivial)
      rintro r t v ⟨rfl, _, now, _⟩
      exact ⟨[], bytes, rfl, by simpa using now, by simp⟩
  | flush =>
    rw [perform, Comp.ensures_bind]
    cases state : s.good
    · have nothing : s.buf.pending = [] := care.resolve_left (by simp [state])
      have all : w.sent = accepted := by simpa [nothing] using linked.produced.symm
      simp only [flush, Comp.ensures_bind, Comp.ensures_get, Comp.either_ok, state]
      exact ⟨[], [], rfl, by simpa using linked, fun _ => by simpa using all⟩
    · apply Comp.ensures_mono (ensures_flush state linked trivial)
      rintro r t v ⟨rfl, _, now, _, rfl⟩
      exact ⟨[], [], rfl, by simpa using now, fun _ => by simp⟩

theorem channelStep_faithful {c d : Channel} {op : StreamOp} (faithful : Faithful input c)
    (careful : Careful c op) (step : channelStep c op = some d) :
    Faithful input d ∧ (op = .flush → d.machine.world.sent = d.accepted) := by
  obtain ⟨sound, whole, linked⟩ := faithful
  have meets := ensures_perform op linked (w := c.machine.world) fun _ => by
    cases op <;> exact careful
  rw [← whole] at meets
  obtain ⟨⟨got, took, ended, now, flushed⟩, still, left⟩ := exec_meets sound meets
  unfold channelStep at step
  generalize result : exec (perform op) c.stream c.machine = outcome at *
  obtain ⟨r, s, m⟩ := outcome
  obtain rfl : r = .ok (got, took) := ended
  obtain rfl : _ = d := Option.some.inj step
  rw [whole] at now left
  exact ⟨⟨still, left, now⟩, flushed⟩

/-- Every run that is careful in this sense is a faithful duplex channel. -/
theorem careful_runs_are_faithful (mem : Nat → Byte) (m : Machine) (ops : List StreamOp) (c : Channel)
    (sound : m.Sound) (nothing : m.world.rcvd = []) (silent : m.world.sent = [])
    (careful : Allowed channelStep Careful (start mem m) ops)
    (run : runs channelStep (start mem m) ops = some c) :
    c.obtained <+: m.coming ∧ c.machine.world.sent <+: c.accepted ∧
      (ops.getLast? = some .flush → c.machine.world.sent = c.accepted) := by
  have preserved : ∀ s op t, Faithful m.coming s → Careful s op → channelStep s op = some t →
      Faithful m.coming t := fun s op t now care step => (channelStep_faithful now care step).1
  have begin := start_faithful mem sound nothing silent
  have final := invariant_of_allowed preserved careful run begin
  refine ⟨?_, ?_, ?_⟩
  · have received : c.obtained <+: c.machine.world.rcvd := by
      rw [final.linked.received]
      exact List.prefix_append ..
    exact received.trans final.linked.arrived
  · rw [final.linked.produced]
    exact List.prefix_append ..
  · intro last
    obtain ⟨before, rfl⟩ : ∃ before, ops = before ++ [.flush] := by
      exact List.getLast?_eq_some_iff.mp last
    obtain ⟨mid, first, second⟩ := runs_append.mp run
    obtain ⟨calm, late⟩ := allowed_append careful first
    have there := invariant_of_allowed preserved calm first begin
    obtain ⟨d, step, done⟩ := runs_cons.mp second
    obtain rfl : d = c := by simpa [runs] using done
    exact (channelStep_faithful there late.1 step).2 rfl

/-- A connection on which one read will deliver these bytes. -/
def delivering (segment : Segment) : Machine := ⟨⟨.empty, [], [], []⟩, [some segment], []⟩

/-- "AB" arrives, "A" is read, "XY" is written: the next character read is "Y". -/
theorem write_replaces_unread_input :
    ¬ ∀ (mem : Nat → Byte) (m : Machine) (ops : List StreamOp) (c : Channel),
      m.Sound → m.world.rcvd = [] → m.world.sent = [] →
        runs channelStep (start mem m) ops = some c →
        c.obtained <+: m.coming ∧ c.machine.world.sent <+: c.accepted ∧
          (ops.getLast? = some .flush → c.machine.world.sent = c.accepted) := by
  intro claim
  let m := delivering ⟨[65, 66], by decide⟩
  have mixed : (runs channelStep (start (fun _ => 0) m) [.sgetn 1, .sputn [88, 89], .sgetn 1]).map
      Channel.obtained = some [65, 89] := by decide
  obtain ⟨c, run, obtained⟩ := Option.map_eq_some_iff.mp mixed
  have kept := (claim _ m _ c (by simp [m, delivering, Machine.Sound]) rfl rfl run).1
  rw [obtained] at kept
  revert kept
  decide

/-- The same bytes when all of the input is read before the write. -/
theorem careful_runs_are_faithful_read_first :
    ∃ c, runs channelStep (start (fun _ => 0) (delivering ⟨[65, 66], by decide⟩))
        [.sgetn 2, .sputn [88, 89], .flush] = some c ∧
      c.obtained <+: [65, 66] ∧ c.machine.world.sent <+: c.accepted ∧
        (some StreamOp.flush = some .flush → c.machine.world.sent = c.accepted) := by
  have runs_through : (runs channelStep (start (fun _ => 0) (delivering ⟨[65, 66], by decide⟩))
      [.sgetn 2, .sputn [88, 89], .flush]).isSome := by decide
  obtain ⟨c, run⟩ := Option.isSome_iff_exists.mp runs_through
  refine ⟨c, run, careful_runs_are_faithful _ _ _ c (by simp [delivering, Machine.Sound]) rfl rfl
    ?_ run⟩
  refine ⟨trivial, fun a first => ⟨?_, fun b second => ⟨?_, fun d _ => trivial⟩⟩⟩
  · have ends : (channelStep (start (fun _ => 0) (delivering ⟨[65, 66], by decide⟩)) (.sgetn 2)).map
        (fun c => (c.stream.buf.gptr, c.stream.buf.egptr)) = some (2, 2) := by decide
    rw [first] at ends
    simp only [Option.map_some, Option.some.injEq, Prod.mk.injEq] at ends
    exact spares_of_exhausted (by omega) _
  · have good : ((channelStep (start (fun _ => 0) (delivering ⟨[65, 66], by decide⟩)) (.sgetn 2)).bind
        fun c => channelStep c (.sputn [88, 89])).map (fun c => c.stream.good) = some true := by decide
    rw [first, Option.bind_some, second] at good
    exact .inl (Option.some.inj good)

end DropboxDuplexChannel
