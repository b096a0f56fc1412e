import Dropbox.General.Transitions
import Dropbox.SocketStream

/-!
The put area of a SocketStream on which its owner only writes, a character or a flush
at a time, under any answers of the OS. `written` are the characters given to the
buffer. The array has content beyond its end too; what an overrun damages there is
not part of the model.
-/
namespace DropboxPutArea
open DropboxFileStore DropboxHost DropboxSocketStream Programs Transitions

/-- ostream::put -/
def put (ch : Byte) : Io SocketStream Unit := do
  let s ← Comp.get
  if s.good then
    if ← rdbuf (sputc ch) then pure () else Comp.modify fun s => { s with badbit := true }
  else pure ()

/-- A character of ostream::write. -/
def putNext (ch : Byte) : Io SocketStream Unit := do
  let s ← Comp.get
  if s.good then
    if ← rdbuf (xsputc ch) then pure () else Comp.modify fun s => { s with badbit := true }
  else pure ()

/-- While the put area is not past its end that is a character like any other. -/
theorem putNext_within {ch : Byte} {s : SocketStream} (within : s.buf.pptr ≤ kBufferSize) :
    putNext ch s = put ch s := by
  have inside : ¬ kBufferSize < s.buf.pptr := Nat.not_lt.mpr within
  have same : xsputc ch s.buf = sputc ch s.buf := by
    show (if kBufferSize < s.buf.pptr then _ else _ : Io SocketBuffer Bool) s.buf = _
    rw [if_neg inside]
  have same' : rdbuf (xsputc ch) s = rdbuf (sputc ch) s := by
    show (xsputc ch s.buf).bind _ = (sputc ch s.buf).bind _
    rw [same]
  by_cases good : s.good
  · show (if s.good then _ else _ : Io SocketStream Unit) s =
      (if s.good then _ else _ : Io SocketStream Unit) s
    rw [if_pos good, if_pos good]
    show (rdbuf (xsputc ch) s).bind _ = (rdbuf (sputc ch) s).bind _
    rw [same']
  · show (if s.good then _ else _ : Io SocketStream Unit) s =
      (if s.good then _ else _ : Io SocketStream Unit) s
    rw [if_neg good, if_neg good]

theorem xsputn_cons (ch : Byte) (rest : List Byte) :
    rdbuf (xsputn (ch :: rest)) = (do
      if ← rdbuf (xsputc ch) then
        let n ← rdbuf (xsputn rest)
        pure (n + 1)
      else pure 0) := by
  have zoomed : ∀ {A B : Type} (x : Io SocketBuffer A) (f : A → Io SocketBuffer B),
      rdbuf (x >>= f) = rdbuf x >>= fun a => rdbuf (f a) :=
    Comp.zoom_bind (fun _ _ => rfl) (fun _ _ _ => rfl)
  have zoomed' : ∀ {A : Type} (a : A), rdbuf (pure a : Io SocketBuffer A) = pure a :=
    Comp.zoom_pure fun _ => rfl
  rw [xsputn, zoomed]
  congr 1
  funext stored
  cases stored with
  | true => exact (zoomed _ _).trans (congrArg _ (funext fun n => zoomed' (n + 1)))
  | false => exact zoomed' 0

theorem write_cons {ch : Byte} {rest : List Byte} {s : SocketStream} (good : s.good) :
    write (ch :: rest) s = (putNext ch >>= fun _ => write rest) s := by
  have left : write (ch :: rest) s = (rdbuf (xsputn (ch :: rest)) >>= fun n =>
      if n = (ch :: rest).length then pure ()
      else Comp.modify fun s => { s with badbit := true }) s := by
    show (if s.good then _ else _ : Io SocketStream Unit) s = _
    rw [if_pos good]
  have right : (putNext ch >>= fun _ => write rest) s = (rdbuf (xsputc ch) >>= fun stored =>
      (if stored then pure () else Comp.modify fun s => { s with badbit := true }) >>=
        fun _ => write rest) s := by
    rw [← Comp.bind_assoc]
    show Comp.bind (putNext ch) (fun _ => write rest) s = Comp.bind _ (fun _ => write rest) s
    unfold Comp.bind
    congr 1
    show (if s.good then _ else _ : Io SocketStream Unit) s = _
    rw [if_pos good]
  rw [left, right, xsputn_cons, Comp.bind_assoc]
  refine Comp.zoom_bind_congr fun stored b => ?_
  cases stored with
  | true =>
    have still : SocketStream.good { s with buf := b } := good
    show ((rdbuf (xsputn rest) >>= fun n => pure (n + 1)) >>= _) _ =
      (if SocketStream.good { s with buf := b } then _ else _ : Io SocketStream Unit) _
    rw [if_pos still, Comp.bind_assoc]
    refine congrFun (congrArg (rdbuf (xsputn rest) >>= ·) (funext fun n => ?_)) _
    rw [Comp.pure_bind]
    simp only [List.length_cons, Nat.add_right_cancel_iff]
  | false =>
    have failed : SocketStream.good { s with buf := b, badbit := true } = false := by
      simp [SocketStream.good]
    show Programs.Prog.ret (Except.ok (), { s with buf := b, badbit := true }) =
      (if SocketStream.good { s with buf := b, badbit := true } then _ else _ :
        Io SocketStream Unit) _
    rw [failed]
    rfl

theorem write_failed {bytes : List Byte} {s : SocketStream} (failed : s.good = false) :
    write bytes s = .ret (.ok (), s) := by
  show (if s.good then _ else _ : Io SocketStream Unit) s = _
  rw [failed]
  rfl

/-- ostream::write gives its characters to the buffer one after the other, up to a failure. -/
theorem write_puts (bytes : List Byte) : write bytes = bytes.forM putNext := by
  induction bytes with
  | nil =>
    funext s
    show (if s.good then _ else _ : Io SocketStream Unit) s = _
    cases s.good <;> rfl
  | cons ch rest ih =>
    show write (ch :: rest) = putNext ch >>= fun _ => rest.forM putNext
    rw [← ih]
    funext s
    by_cases good : s.good
    · exact write_cons good
    · have failed : s.good = false := Bool.eq_false_iff.mpr good
      have first : putNext ch s = .ret (.ok (), s) := by
        show (if s.good then _ else _ : Io SocketStream Unit) s = _
        rw [failed]
        rfl
      rw [write_failed failed]
      show _ = (putNext ch s).bind _
      rw [first]
      exact (write_failed failed).symm

/-- Single characters; `sputc` goes directly to the buffer. What the archives write goes there
    through sputn, several characters at once. -/
inductive Output where
  | put (ch : Byte)
  | sputc (ch : Byte)
  | flush
  deriving DecidableEq, Repr

def Output.perform : Output → Io SocketStream Unit
  | .put ch => DropboxPutArea.put ch
  | .sputc ch => do
    let _ ← rdbuf (DropboxSocketStream.sputc ch)
    pure ()
  | .flush => DropboxSocketStream.flush

/-- `reply` is what the OS answers in case the output writes to the socket. -/
structure Action where
  output : Output
  reply : Option Nat
  deriving DecidableEq, Repr

structure State where
  stream : SocketStream
  world : World
  written : List Byte

def start (mem : Nat → Byte) (fs : Fs) : State := ⟨.fresh mem, ⟨fs, [], [], []⟩, []⟩

/-- What an output gives to the buffer; a stream that has failed takes nothing. -/
def Output.given (s : SocketStream) : Output → List Byte
  | .put ch => if s.good then [ch] else []
  | .sputc ch => [ch]
  | .flush => []

def step (s : State) (a : Action) : Option State :=
  let ended := exec a.output.perform s.stream ⟨s.world, [], [a.reply]⟩
  some ⟨ended.2.1, ended.2.2.world, s.written ++ a.output.given s.stream⟩

/-- Whether an output writes to the socket. -/
def Output.sends (s : SocketStream) : Output → Bool
  | .put _ => s.good && kBufferSize ≤ s.buf.pptr
  | .sputc _ => kBufferSize ≤ s.buf.pptr
  | .flush => s.good

/-- Whether the stream sees that the OS failed. -/
def Output.onStream : Output → Bool
  | .sputc _ => false
  | _ => true

/-- The buffer when the output has stored its character. -/
def Output.held (s : SocketStream) (o : Output) : SocketBuffer :=
  (o.given s).foldl (fun b ch => b.stored ch) s.buf

/-- The part of the put area that the OS takes. -/
def accepted (b : SocketBuffer) : Option Nat → List Byte
  | none => []
  | some n => b.pending.take n

def synced (reply : Option Nat) (b : SocketBuffer) : SocketBuffer :=
  { b with pptr := b.pptr - (accepted b reply).length }

section results
variable {b : SocketBuffer} {s : SocketStream} {m : Machine} {reply : Option Nat}
variable {rest : List (Option Nat)}

/-- The machine after a write that the OS answers so. -/
def replied (b : SocketBuffer) (reply : Option Nat) (rest : List (Option Nat)) (m : Machine) :
    Machine :=
  { m with world := { m.world with sent := m.world.sent ++ accepted b reply }, accepts := rest }

theorem sync_answers {Q : Except Fault Bool → SocketBuffer → Machine → Prop}
    (next : m.accepts = reply :: rest) :
    Comp.ensures (answers host) sync Q b m ↔
      Q (.ok reply.isSome) (synced reply b) (replied b reply rest m) := by
  obtain ⟨w, inbox, accepts⟩ := m
  obtain rfl : accepts = reply :: rest := next
  simp only [sync, sendData, osWrite, Comp.ensures_bind, Comp.ensures_get, Comp.either_ok,
    Comp.ensures_call_answers]
  cases reply with
  | none =>
    simp [host, Machine.send, synced, accepted, replied]
  | some n =>
    simp [host, Machine.send, synced, accepted, replied]

theorem store_answers {ch : Byte} {Q : Except Fault Unit → SocketBuffer → Machine → Prop}
    (exhausted : b.gptr = b.egptr) :
    Comp.ensures (answers host) (store ch) Q b m ↔ Q (.ok ()) (b.stored ch) m := by
  simp only [store, Comp.ensures_bind, Comp.ensures_get, Comp.either_ok, exhausted,
    lt_irrefl, if_false, Comp.ensures_modify]

theorem sputc_answers {ch : Byte} {Q : Except Fault Bool → SocketBuffer → Machine → Prop}
    (exhausted : b.gptr = b.egptr) (next : m.accepts = reply :: rest) :
    Comp.ensures (answers host) (sputc ch) Q b m ↔
      if kBufferSize ≤ b.pptr then
        Q (.ok reply.isSome) (synced reply (b.stored ch)) (replied (b.stored ch) reply rest m)
      else Q (.ok true) (b.stored ch) m := by
  simp only [sputc, Comp.ensures_bind, Comp.ensures_get, Comp.either_ok]
  by_cases full : kBufferSize ≤ b.pptr
  · rw [if_neg (by omega), if_pos full]
    simp only [overflow, Comp.ensures_bind, store_answers exhausted, Comp.either_ok,
      sync_answers next]
    cases reply <;> simp
  · rw [if_pos (by omega), if_neg full]
    simp only [Comp.ensures_bind, store_answers exhausted, Comp.either_ok, Comp.ensures_pure]

end results

/-- The state after an output on a stream that is only written to. -/
def after (s : State) (a : Action) : State :=
  let b := a.output.held s.stream
  let written := s.written ++ a.output.given s.stream
  if a.output.sends s.stream then
    { stream := { s.stream with
        buf := synced a.reply b
        badbit := s.stream.badbit || (a.output.onStream && a.reply.isNone) }
      world := { s.world with sent := s.world.sent ++ accepted b a.reply }
      written }
  else { s with stream := { s.stream with buf := b }, written }

theorem step_eq {s : State} {a : Action} (exhausted : s.stream.buf.gptr = s.stream.buf.egptr) :
    step s a = some (after s a) := by
  have ended : Comp.ensures (answers host) a.output.perform (fun _ k m =>
      k = (after s a).stream ∧ m.world = (after s a).world) s.stream ⟨s.world, [], [a.reply]⟩ := by
    obtain ⟨o, reply⟩ := a
    have next : (Machine.mk s.world [] [reply]).accepts = reply :: [] := rfl
    cases o with
    | put ch =>
      simp only [Output.perform, put, Comp.ensures_bind, Comp.ensures_get, Comp.either_ok]
      by_cases good : s.stream.good
      · rw [if_pos good]
        simp only [Comp.ensures_bind, ensures_rdbuf, sputc_answers exhausted next]
        by_cases full : kBufferSize ≤ s.stream.buf.pptr
        · cases reply <;> simp [full, good, after, Output.sends, Output.held, Output.given,
            Output.onStream, replied]
        · simp [full, good, after, Output.sends, Output.held, Output.given]
      · simp [good, after, Output.sends, Output.held, Output.given]
    | sputc ch =>
      simp only [Output.perform, Comp.ensures_bind, ensures_rdbuf, sputc_answers exhausted next]
      by_cases full : kBufferSize ≤ s.stream.buf.pptr
      · simp [full, after, Output.sends, Output.held, Output.given, Output.onStream, replied]
      · simp [full, after, Output.sends, Output.held, Output.given]
    | flush =>
      simp only [Output.perform, flush, Comp.ensures_bind, Comp.ensures_get, Comp.either_ok]
      by_cases good : s.stream.good
      · rw [if_pos good]
        simp only [Comp.ensures_bind, ensures_rdbuf, sync_answers next]
        cases reply <;> simp [good, after, Output.sends, Output.held, Output.given,
          Output.onStream, replied]
      · simp [good, after, Output.sends, Output.held, Output.given]
  obtain ⟨stream, world⟩ := Comp.ensures_answers.mp ended
  rw [step, exec, stream, world]
  congr 1
  unfold after
  split <;> rfl

/-- The characters that are in the put area when the output may write to the socket. -/
def offered (s : State) (a : Action) : List Byte :=
  s.stream.buf.pending ++ a.output.given s.stream

/-- An output gives at most one character, and stores it at the end of the put area. -/
theorem held_cases (s : SocketStream) (o : Output) :
    o.given s = [] ∧ o.held s = s.buf ∨ ∃ ch, o.given s = [ch] ∧ o.held s = s.buf.stored ch := by
  cases o with
  | put ch =>
    by_cases good : s.good
    · exact .inr ⟨ch, by simp [Output.given, good], by simp [Output.held, Output.given, good]⟩
    · exact .inl ⟨by simp [Output.given, good], by simp [Output.held, Output.given, good]⟩
  | sputc ch => exact .inr ⟨ch, rfl, rfl⟩
  | flush => exact .inl ⟨rfl, rfl⟩

theorem held_pending (s : State) (a : Action) :
    (a.output.held s.stream).pending = offered s a := by
  unfold offered
  rcases held_cases s.stream a.output with ⟨given, held⟩ | ⟨ch, given, held⟩
  · rw [given, held, List.append_nil]
  · rw [given, held, stored_pending]

theorem window_take (mem : Nat → Byte) (start n k : Nat) :
    (window mem start n).take k = window mem start (min k n) := by
  apply List.ext_getElem
  · simp
  · intro i _ _
    simp [window]

theorem synced_pending (reply : Option Nat) (b : SocketBuffer) :
    (synced reply b).pending =
      b.pending.take (b.pending.length - (accepted b reply).length) := by
  have size : b.pending.length = b.pptr := window_length ..
  have within : min (b.pptr - (accepted b reply).length) b.pptr =
      b.pptr - (accepted b reply).length := by omega
  rw [size, SocketBuffer.pending, SocketBuffer.pending, window_take, within]
  rfl

theorem held_get (s : State) (a : Action) :
    (a.output.held s.stream).gptr = s.stream.buf.gptr ∧
      (a.output.held s.stream).egptr = s.stream.buf.egptr := by
  rcases held_cases s.stream a.output with ⟨_, held⟩ | ⟨ch, _, held⟩
  · rw [held]
    exact ⟨rfl, rfl⟩
  · rw [held]
    exact ⟨rfl, rfl⟩

section effect
variable {s : State} {a : Action}

theorem after_written : (after s a).written = s.written ++ a.output.given s.stream := by
  unfold after
  split <;> rfl

theorem after_sends (sends : a.output.sends s.stream) :
    (after s a).stream.buf = synced a.reply (a.output.held s.stream) ∧
      (after s a).world.sent = s.world.sent ++ accepted (a.output.held s.stream) a.reply := by
  rw [after, if_pos sends]
  exact ⟨rfl, rfl⟩

theorem after_keeps (keeps : ¬ a.output.sends s.stream) :
    (after s a).stream.buf = a.output.held s.stream ∧ (after s a).world.sent = s.world.sent := by
  rw [after, if_neg keeps]
  exact ⟨rfl, rfl⟩

end effect

/-- There is never anything to read. -/
def Exhausted (s : State) : Prop := s.stream.buf.gptr = s.stream.buf.egptr

theorem exhausted_step {s t : State} {a : Action} (exhausted : Exhausted s)
    (taken : step s a = some t) : Exhausted t := by
  rw [step_eq exhausted] at taken
  obtain rfl := Option.some.inj taken
  obtain ⟨get, finish⟩ := held_get s a
  have same : (a.output.held s.stream).gptr = (a.output.held s.stream).egptr := by
    rw [get, finish]
    exact exhausted
  unfold Exhausted
  by_cases sends : a.output.sends s.stream
  · rw [(after_sends sends).1]
    exact same
  · rw [(after_keeps sends).1]
    exact same

/-- What is written is what the OS has taken and then what is in the put area. -/
def Whole (s : State) : Prop := s.written = s.world.sent ++ s.stream.buf.pending

/-- If the OS takes `n` characters, those left over are the first ones once more. -/
def Calm (s : State) (a : Action) : Prop :=
  a.output.sends s.stream → ∀ n, a.reply = some n →
    (offered s a).drop n = (offered s a).take ((offered s a).length - n)

theorem whole_iff_calm {s : State} {a : Action} (whole : Whole s) :
    Whole (after s a) ↔ Calm s a := by
  have pending := held_pending s a
  have produced : (after s a).written = s.world.sent ++ offered s a := by
    rw [after_written, whole, offered, List.append_assoc]
  rw [Whole, produced]
  by_cases sends : a.output.sends s.stream
  · obtain ⟨buf, sent⟩ := after_sends sends
    rw [buf, sent, List.append_assoc, List.append_cancel_left_eq, synced_pending]
    cases reply : a.reply with
    | none => simp [accepted, pending, Calm, reply]
    | some n =>
      have split := List.take_append_drop n (offered s a)
      have size : (offered s a).length - ((offered s a).take n).length =
          (offered s a).length - n := by
        rw [List.length_take]
        omega
      simp only [accepted, pending, size, Calm, reply, sends, true_implies, Option.some.injEq,
        forall_eq']
      constructor
      · intro same
        exact List.append_cancel_left (split.trans same)
      · intro same
        rw [← same, split]
  · obtain ⟨buf, sent⟩ := after_keeps sends
    simp [buf, sent, pending, Calm, sends]

theorem runs_total (s : State) (actions : List Action) : ∃ t, runs step s actions = some t := by
  have ok : Allowed step (fun _ _ => True) s actions := by
    induction actions generalizing s with
    | nil => trivial
    | cons a rest ih => exact ⟨trivial, fun t _ => ih t⟩
  have taken : ∀ s a, True → True → ∃ t, step s a = some t ∧ True :=
    fun s a _ _ => ⟨_, rfl, trivial⟩
  exact run_of_allowed taken trivial ok

/-- Nothing is lost or sent twice up to the first write of which the OS takes a part and leaves
    something else than the first characters. -/
theorem output_whole_iff (mem : Nat → Byte) (fs : Fs) (actions : List Action) :
    Along step Whole (start mem fs) actions ↔ Allowed step Calm (start mem fs) actions := by
  obtain ⟨t, run⟩ := runs_total (start mem fs) actions
  have preserved : ∀ s a t, Exhausted s → step s a = some t → Exhausted t :=
    fun s a t => exhausted_step
  refine along_iff_allowed preserved ?_ run rfl rfl
  intro s a t exhausted whole taken
  rw [step_eq exhausted] at taken
  obtain rfl := Option.some.inj taken
  exact whole_iff_calm whole

instance (s : State) : Decidable (Whole s) :=
  inferInstanceAs (Decidable (s.written = s.world.sent ++ s.stream.buf.pending))

/-- The OS takes one of two characters: the one it took stays, the other is lost. -/
theorem partial_write_keeps_head : ¬ Along step Whole (start (fun _ => 0) Fs.empty)
    [⟨.put 1, none⟩, ⟨.put 2, none⟩, ⟨.flush, some 1⟩] := by
  intro along
  obtain ⟨t, run⟩ := runs_total (start (fun _ => 0) Fs.empty)
    [⟨.put 1, none⟩, ⟨.put 2, none⟩, ⟨.flush, some 1⟩]
  have ends : (runs step (start (fun _ => 0) Fs.empty)
      [⟨.put 1, none⟩, ⟨.put 2, none⟩, ⟨.flush, some 1⟩]).map (fun t => decide (Whole t)) =
        some false := by decide +kernel
  have whole : Whole t := along _ t (List.prefix_refl _) run
  rw [run] at ends
  simp [whole] at ends

/-- `mem` is what lies in memory at first, also behind the array. -/
def Inside (mem : Nat → Byte) (s : State) : Prop :=
  s.stream.buf.pptr ≤ kBufferSize ∧ ∀ i, kBufferSize ≤ i → s.stream.buf.buffer i = mem i

/-- The output finds room for its character. -/
def Roomy (s : State) (a : Action) : Prop :=
  a.output.given s.stream ≠ [] → s.stream.buf.pptr < kBufferSize

theorem after_buffer {s : State} {a : Action} :
    (after s a).stream.buf.buffer = (a.output.held s.stream).buffer := by
  unfold after
  split <;> rfl

theorem after_put_le {s : State} {a : Action} :
    (after s a).stream.buf.pptr ≤ (a.output.held s.stream).pptr := by
  unfold after
  split
  · exact Nat.sub_le ..
  · exact Nat.le_refl _

theorem inside_step {mem : Nat → Byte} {s t : State} {a : Action}
    (inside : Exhausted s ∧ Inside mem s) (roomy : Roomy s a) (taken : step s a = some t) :
    Exhausted t ∧ Inside mem t := by
  obtain ⟨exhausted, within, behind⟩ := inside
  refine ⟨exhausted_step exhausted taken, ?_⟩
  rw [step_eq exhausted] at taken
  obtain rfl := Option.some.inj taken
  have below := after_put_le (s := s) (a := a)
  unfold Inside
  rw [after_buffer]
  rcases held_cases s.stream a.output with ⟨_, held⟩ | ⟨ch, given, held⟩
  · rw [held] at below ⊢
    exact ⟨Nat.le_trans below within, behind⟩
  · have room : s.stream.buf.pptr < kBufferSize := roomy (by simp [given])
    rw [held] at below ⊢
    refine ⟨Nat.le_trans below room, fun i far => ?_⟩
    have other : i ≠ s.stream.buf.pptr := by omega
    exact (Function.update_of_ne other ..).trans (behind i far)

/-- Two streams that differ in the content of memory only. -/
structure Alike (s t : State) : Prop where
  exhausted : Exhausted s
  exhausted' : Exhausted t
  pptr : s.stream.buf.pptr = t.stream.buf.pptr
  eofbit : s.stream.eofbit = t.stream.eofbit
  failbit : s.stream.failbit = t.stream.failbit
  badbit : s.stream.badbit = t.stream.badbit

theorem alike_good {s t : State} (alike : Alike s t) : s.stream.good = t.stream.good := by
  unfold SocketStream.good
  rw [alike.eofbit, alike.failbit, alike.badbit]

theorem alike_given {s t : State} (alike : Alike s t) (o : Output) :
    o.given s.stream = o.given t.stream := by
  cases o with
  | put ch => simp only [Output.given, alike_good alike]
  | sputc ch => rfl
  | flush => rfl

theorem alike_sends {s t : State} (alike : Alike s t) (o : Output) :
    o.sends s.stream = o.sends t.stream := by
  cases o with
  | put ch => simp only [Output.sends, alike_good alike, alike.pptr]
  | sputc ch => simp only [Output.sends, alike.pptr]
  | flush => simp only [Output.sends, alike_good alike]

theorem alike_held {s t : State} (alike : Alike s t) (o : Output) :
    (o.held s.stream).pptr = (o.held t.stream).pptr := by
  have given := alike_given alike o
  rcases held_cases s.stream o with ⟨left, held⟩ | ⟨ch, left, held⟩ <;>
    rcases held_cases t.stream o with ⟨right, held'⟩ | ⟨ch', right, held'⟩
  · rw [held, held']
    exact alike.pptr
  · rw [left, right] at given
    cases given
  · rw [left, right] at given
    cases given
  · rw [held, held']
    exact congrArg (· + 1) alike.pptr

theorem synced_pptr (reply : Option Nat) (b : SocketBuffer) :
    (synced reply b).pptr = b.pptr - reply.elim 0 (min · b.pptr) := by
  cases reply with
  | none => rfl
  | some n =>
    have size : b.pending.length = b.pptr := window_length ..
    simp [synced, accepted, size]

theorem alike_step {s t : State} (alike : Alike s t) (a : Action) :
    Alike (after s a) (after t a) := by
  have held := alike_held alike a.output
  have sends := alike_sends alike a.output
  have exhausted := exhausted_step alike.exhausted (step_eq alike.exhausted (a := a))
  have exhausted' := exhausted_step alike.exhausted' (step_eq alike.exhausted' (a := a))
  refine ⟨exhausted, exhausted', ?_, ?_, ?_, ?_⟩
  · by_cases writes : a.output.sends s.stream
    · rw [(after_sends writes).1, (after_sends (sends ▸ writes)).1, synced_pptr, synced_pptr, held]
    · rw [(after_keeps writes).1, (after_keeps (sends ▸ writes)).1, held]
  all_goals
    unfold after
    rw [sends]
    split
    all_goals simp only [alike.eofbit, alike.failbit, alike.badbit]

/-- A character stored behind the array shows, whatever was there before it. -/
theorem roomy_of_inside {mem mem' : Nat → Byte} (differ : ∀ i, mem i ≠ mem' i) {s t : State}
    {actions : List Action} (alike : Alike s t) (inside : Along step (Inside mem) s actions)
    (inside' : Along step (Inside mem') t actions) : Allowed step Roomy s actions := by
  induction actions generalizing s t with
  | nil => trivial
  | cons a rest ih =>
    have head := step_eq alike.exhausted (a := a)
    have head' := step_eq alike.exhausted' (a := a)
    obtain ⟨here, later⟩ := (along_cons head).mp inside
    obtain ⟨here', later'⟩ := (along_cons head').mp inside'
    refine allowed_cons head ?_ (ih (alike_step alike a) later later')
    intro gives
    by_contra full
    have last : s.stream.buf.pptr = kBufferSize := Nat.le_antisymm here.1 (Nat.le_of_not_lt full)
    have last' : t.stream.buf.pptr = kBufferSize := alike.pptr ▸ last
    have next := (later [] _ List.nil_prefix rfl).2 kBufferSize (Nat.le_refl _)
    have next' := (later' [] _ List.nil_prefix rfl).2 kBufferSize (Nat.le_refl _)
    have given := alike_given alike a.output
    rw [after_buffer] at next next'
    rcases held_cases s.stream a.output with ⟨nothing, _⟩ | ⟨ch, left, held⟩
    · exact gives nothing
    · rcases held_cases t.stream a.output with ⟨nothing, _⟩ | ⟨ch', right, held'⟩
      · exact gives (given.trans nothing)
      · obtain rfl : ch = ch' := by
          rw [left, right] at given
          exact (List.cons.inj given).1
        rw [held] at next
        rw [held'] at next'
        have stored : (s.stream.buf.stored ch).buffer kBufferSize = ch := by
          rw [← last]
          exact Function.update_self ..
        have stored' : (t.stream.buf.stored ch).buffer kBufferSize = ch := by
          rw [← last']
          exact Function.update_self ..
        exact differ kBufferSize (next.symm.trans (stored.trans (stored'.symm.trans next')))

/-- Other bytes than those of `mem`. -/
def otherwise (mem : Nat → Byte) (i : Nat) : Byte := if mem i = 0 then 1 else 0

theorem otherwise_differs (mem : Nat → Byte) (i : Nat) : mem i ≠ otherwise mem i := by
  unfold otherwise
  split
  · rename_i zero
    rw [zero]
    decide
  · assumption

theorem alike_start (mem mem' : Nat → Byte) (fs : Fs) : Alike (start mem fs) (start mem' fs) :=
  ⟨rfl, rfl, rfl, rfl, rfl, rfl⟩

theorem inside_start (mem : Nat → Byte) (fs : Fs) : Inside mem (start mem fs) :=
  ⟨Nat.zero_le _, fun _ _ => rfl⟩

/-- The put area stays in the array, and nothing is stored elsewhere, if and only if no character
    is written while the area is full. -/
theorem area_inside_iff (fs : Fs) (actions : List Action) :
    (∀ mem, Along step (Inside mem) (start mem fs) actions) ↔
      ∀ mem, Allowed step Roomy (start mem fs) actions := by
  constructor
  · intro inside mem
    exact roomy_of_inside (otherwise_differs mem) (alike_start ..) (inside mem)
      (inside (otherwise mem))
  · intro roomy mem before t within run
    exact (along_of_allowed (fun _ _ _ => inside_step) (roomy mem) ⟨rfl, inside_start mem fs⟩
      before t within run).2

/-- While there is room, characters only go to the put area. -/
theorem puts_fill {s t : State} {ch : Byte} {reply : Option Nat} {n : Nat} (exhausted : Exhausted s)
    (good : s.stream.good) (room : s.stream.buf.pptr + n ≤ kBufferSize)
    (run : runs step s (List.replicate n ⟨.put ch, reply⟩) = some t) :
    t.stream.good ∧ t.stream.buf.pptr = s.stream.buf.pptr + n := by
  induction n generalizing s with
  | zero =>
    obtain rfl : s = t := by simpa [runs] using run
    exact ⟨good, rfl⟩
  | succ n ih =>
    rw [List.replicate_succ] at run
    obtain ⟨m, head, tail⟩ := runs_cons.mp run
    have stored : m = { s with
        stream := { s.stream with buf := s.stream.buf.stored ch }, written := s.written ++ [ch] } := by
      rw [step_eq exhausted] at head
      obtain rfl := Option.some.inj head
      have quiet : ¬ kBufferSize ≤ s.stream.buf.pptr := by omega
      simp [after, Output.sends, Output.held, Output.given, good, quiet]
    subst stored
    have later := ih (exhausted_step exhausted head) good (by simp [SocketBuffer.stored]; omega) tail
    refine ⟨later.1, later.2.trans ?_⟩
    simp [SocketBuffer.stored]
    omega

/-- One character more than the array holds, on an OS that takes everything. -/
theorem full_area_overruns : ¬ ∀ mem, Along step (Inside mem) (start mem Fs.empty)
    (List.replicate (kBufferSize + 1) ⟨.put 0, some (kBufferSize + 1)⟩) := by
  intro inside
  have zeros := inside fun _ => 0
  have ones := inside (otherwise fun _ => 0)
  have roomy := roomy_of_inside (otherwise_differs _) (alike_start ..) zeros ones
  rw [List.replicate_succ'] at roomy
  obtain ⟨t, run⟩ := runs_total (start (fun _ => 0) Fs.empty)
    (List.replicate kBufferSize ⟨.put 0, some (kBufferSize + 1)⟩)
  have exhausted : Exhausted (start (fun _ => 0) Fs.empty) := rfl
  have filled := puts_fill exhausted rfl (by simp [start, SocketStream.fresh, SocketBuffer.fresh]) run
  have last := (allowed_append roomy run).2.1 (by simp [Output.given, filled.1])
  rw [filled.2] at last
  simp [start, SocketStream.fresh, SocketBuffer.fresh] at last

end DropboxPutArea
