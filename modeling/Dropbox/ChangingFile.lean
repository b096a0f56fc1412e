import Dropbox.Delivery

/-!
Send with a file that others change while it is sent, so that its size and every read
of it can be anything, on a stream whose writes the OS may take in part or refuse. An
Outlet is what counts of the stream for this: how full its put area is, what the OS
will answer, whether it is still good, how many characters it has been given and how
often xsputn went on with the put area past its end, where the process ends.
-/
namespace DropboxChangingFile
open DropboxFileStore DropboxHost DropboxSocketStream DropboxProtocol DropboxProtocolRules
open DropboxDelivery Programs Codec

/-- `outcome` are the reads to come, `none` an error; an ifstream that has met one stays bad. -/
structure Reader where
  machine : Machine
  opens : Bool
  size : Option Nat
  outcome : Nat → Option (List Byte)
  failed : Bool

def Reader.read (n : Nat) (f : Reader) : Option (List Byte) × Reader :=
  if f.failed then (none, f)
  else match f.outcome 0 with
    | none => (none, { f with failed := true })
    | some bytes => (some (bytes.take n), { f with outcome := fun i => f.outcome (i + 1) })

/-- The file answers from `f`, everything else is as on a host. -/
def fileHost (f : Reader) : (s : Sys) → s.Reply × Reader
  | .file (.openIn _) => (f.opens, f)
  | .file (.fileSize _) => (f.size, f)
  | .file (.readIn _ _ n) => f.read n
  | s => ((host f.machine s).1, { f with machine := (host f.machine s).2 })

/-- Read number `k` is the first that brings less than it was asked for, and none failed before. -/
def EndsAt : (Nat → Option (List Byte)) → Nat → Prop
  | outcome, 0 => ∃ bytes, outcome 0 = some bytes ∧ bytes.length < kPacketSize
  | outcome, k + 1 => (∃ bytes, outcome 0 = some bytes ∧ kPacketSize ≤ bytes.length) ∧
      EndsAt (fun i => outcome (i + 1)) k

/-- The bytes of all reads up to number `k`. -/
def brings (outcome : Nat → Option (List Byte)) (k : Nat) : Nat :=
  k * kPacketSize + ((outcome k).getD []).length

structure Outlet where
  level : Nat
  answers : List (Option Nat)
  good : Bool
  given : Nat
  overruns : Nat

def Outlet.noted (o : Outlet) : Nat := o.overruns + if kBufferSize < o.level then 1 else 0

/-- One character of xsputn; the last one given is the one that the OS refuses. -/
def Outlet.put (o : Outlet) : Outlet :=
  if o.good then
    if o.level < kBufferSize then { o with level := o.level + 1, given := o.given + 1 }
    else match o.answers with
      | [] => ⟨0, [], true, o.given + 1, o.noted⟩
      | none :: rest => ⟨o.level + 1, rest, false, o.given + 1, o.noted⟩
      | some n :: rest => ⟨o.level + 1 - n, rest, true, o.given + 1, o.noted⟩
  else o

def Outlet.puts (n : Nat) (o : Outlet) : Outlet := Outlet.put^[n] o

/-- How often xsputn has gone on past the end of the put area. -/
def overruns (m : Machine) : Nat := m.world.log.count .overrun

def outlet (b : SocketBuffer) (m : Machine) (good : Bool) : Outlet :=
  ⟨b.pptr, m.accepts, good, m.world.sent.length + b.pptr, overruns m⟩

theorem puts_succ (n : Nat) (o : Outlet) : o.puts (n + 1) = o.put.puts n := rfl

theorem puts_add (a b : Nat) (o : Outlet) : o.puts (a + b) = (o.puts a).puts b := by
  rw [Nat.add_comm]
  exact Function.iterate_add_apply Outlet.put b a o

theorem puts_failed {o : Outlet} (failed : o.good = false) (n : Nat) : o.puts n = o := by
  have fixed : o.put = o := by simp [Outlet.put, failed]
  exact Function.iterate_fixed fixed n

/-- Only the socket is used: the file is as it was. -/
def SameFile (f g : Reader) : Prop :=
  g.opens = f.opens ∧ g.size = f.size ∧ g.outcome = f.outcome ∧ g.failed = f.failed

theorem sameFile_refl (f : Reader) : SameFile f f := ⟨rfl, rfl, rfl, rfl⟩

theorem sameFile_trans {f g h : Reader} (first : SameFile f g) (second : SameFile g h) :
    SameFile f h :=
  ⟨second.1.trans first.1, second.2.1.trans first.2.1, second.2.2.1.trans first.2.2.1,
    second.2.2.2.trans first.2.2.2⟩

section buffer
variable {b : SocketBuffer} {f : Reader}

theorem sync_outlet (b : SocketBuffer) (f : Reader) :
    Comp.ensures (answers fileHost) sync (fun r c g => SameFile f g ∧ ∃ sent, r = .ok sent ∧
      c.gptr = b.gptr ∧ c.egptr = b.egptr ∧
      outlet c g.machine sent = match f.machine.accepts with
        | [] => ⟨0, [], true, f.machine.world.sent.length + b.pptr, overruns f.machine⟩
        | none :: rest =>
          ⟨b.pptr, rest, false, f.machine.world.sent.length + b.pptr, overruns f.machine⟩
        | some n :: rest =>
          ⟨b.pptr - n, rest, true, f.machine.world.sent.length + b.pptr, overruns f.machine⟩)
      b f := by
  have size : b.pending.length = b.pptr := window_length ..
  obtain ⟨⟨w, inbox, accepts⟩, opens, size', outcome, failed⟩ := f
  simp only [sync, sendData, osWrite, Comp.ensures_bind, Comp.ensures_get, Comp.either_ok,
    Comp.ensures_call_answers]
  rcases accepts with _ | ⟨_ | n, rest⟩
  · simp [fileHost, host, Machine.send, SameFile, outlet, overruns, size]
  · simp [fileHost, host, Machine.send, SameFile, outlet, overruns]
  · simp [fileHost, host, Machine.send, SameFile, outlet, overruns, size]
    omega

theorem store_outlet (ch : Byte) (b : SocketBuffer) (f : Reader) :
    Comp.ensures (answers fileHost) (store ch) (fun r c g => SameFile f g ∧ r = .ok () ∧
      c = b.stored ch ∧ g.machine.accepts = f.machine.accepts ∧
      g.machine.world.sent = f.machine.world.sent ∧ overruns g.machine = overruns f.machine)
      b f := by
  simp only [store, note, Comp.ensures_bind, Comp.ensures_get, Comp.either_ok]
  by_cases ready : b.gptr < b.egptr
  · rw [if_pos ready, Comp.ensures_bind, Comp.ensures_call_answers]
    refine ⟨sameFile_refl f, rfl, rfl, rfl, rfl, ?_⟩
    show (f.machine.world.log ++ [Event.overUnread]).count Event.overrun = _
    rw [List.count_append]
    rfl
  · rw [if_neg ready, Comp.ensures_modify]
    exact ⟨sameFile_refl f, rfl, rfl, rfl, rfl, rfl⟩

theorem sputc_outlet (ch : Byte) (b : SocketBuffer) (f : Reader) :
    Comp.ensures (answers fileHost) (sputc ch) (fun r c g => SameFile f g ∧ ∃ stored,
      r = .ok stored ∧ outlet c g.machine stored =
        { (outlet b f.machine true).put with overruns := overruns f.machine }) b f := by
  simp only [sputc, Comp.ensures_bind, Comp.ensures_get, Comp.either_ok]
  by_cases room : b.pptr < kBufferSize
  · rw [if_pos room, Comp.ensures_bind]
    refine Comp.ensures_mono (store_outlet ch b f) ?_
    rintro r c g ⟨same, rfl, rfl, accepts, sent, log⟩
    refine ⟨same, true, rfl, ?_⟩
    simp [outlet, Outlet.put, SocketBuffer.stored, accepts, sent, log, room, Nat.add_assoc]
  · rw [if_neg room]
    simp only [overflow, Comp.ensures_bind]
    refine Comp.ensures_mono (store_outlet ch b f) ?_
    rintro r c g ⟨same, rfl, rfl, accepts, sent, log⟩
    simp only [Comp.either_ok, Comp.ensures_bind]
    refine Comp.ensures_mono (sync_outlet (b.stored ch) g) ?_
    rintro r d h ⟨same', done, rfl, _, _, now⟩
    have put : outlet d h.machine done =
        { (outlet b f.machine true).put with overruns := overruns f.machine } := by
      rw [now, accepts, sent, log]
      have level : (b.stored ch).pptr = b.pptr + 1 := rfl
      simp only [outlet, Outlet.put, room, if_true, if_false, level, ← Nat.add_assoc]
      split <;> rfl
    cases done with
    | true => exact ⟨sameFile_trans same same', true, rfl, put⟩
    | false => exact ⟨sameFile_trans same same', false, rfl, put⟩

/-- What a character does to the rest does not depend on the overruns before it. -/
theorem put_noted {b : SocketBuffer} {m : Machine} {log : List Event} {n : Nat}
    (noted : n = overruns m + if kBufferSize < b.pptr then 1 else 0) :
    { (outlet b { m with world := { m.world with log := log } } true).put with overruns := n } =
      (outlet b m true).put := by
  by_cases room : b.pptr < kBufferSize
  · have short : ¬ kBufferSize < b.pptr := by omega
    simp [outlet, Outlet.put, room, noted, short]
  · simp only [outlet, Outlet.put, Outlet.noted, room, noted, if_true, if_false]
    split <;> rfl

theorem xsputc_outlet (ch : Byte) (b : SocketBuffer) (f : Reader) :
    Comp.ensures (answers fileHost) (xsputc ch) (fun r c g => SameFile f g ∧ ∃ stored,
      r = .ok stored ∧ outlet c g.machine stored = (outlet b f.machine true).put) b f := by
  simp only [xsputc, note, Comp.ensures_bind, Comp.ensures_get, Comp.either_ok]
  by_cases past : kBufferSize < b.pptr
  · rw [if_pos past, Comp.ensures_bind, Comp.ensures_call_answers, Comp.either_ok]
    refine Comp.ensures_mono (sputc_outlet ch b _) ?_
    rintro r c g ⟨same, stored, rfl, now⟩
    refine ⟨same, stored, rfl, now.trans ?_⟩
    have more : overruns (fileHost f (.note .overrun)).2.machine = overruns f.machine + 1 := by
      show (f.machine.world.log ++ [Event.overrun]).count Event.overrun = _
      rw [List.count_append]
      rfl
    rw [more]
    exact put_noted (by rw [if_pos past])
  · rw [if_neg past]
    refine Comp.ensures_mono (sputc_outlet ch b f) ?_
    rintro r c g ⟨same, stored, rfl, now⟩
    refine ⟨same, stored, rfl, now.trans ?_⟩
    exact put_noted (by rw [if_neg past]; rfl)

/-- The buffer takes characters up to the first one that cannot be sent. -/
theorem xsputn_outlet (bytes : List Byte) (b : SocketBuffer) (f : Reader) :
    Comp.ensures (answers fileHost) (xsputn bytes) (fun r c g => SameFile f g ∧ ∃ n all,
      r = .ok n ∧ (n = bytes.length ↔ all = true) ∧
      outlet c g.machine all = (outlet b f.machine true).puts bytes.length) b f := by
  induction bytes generalizing b f with
  | nil => exact ⟨sameFile_refl f, 0, true, rfl, by simp, rfl⟩
  | cons ch rest ih =>
    rw [xsputn, Comp.ensures_bind]
    refine Comp.ensures_mono (xsputc_outlet ch b f) ?_
    rintro r c g ⟨same, stored, rfl, now⟩
    rw [List.length_cons, puts_succ, ← now]
    cases stored with
    | true =>
      simp only [Comp.either_ok, if_true, Comp.ensures_bind]
      refine Comp.ensures_mono (ih c g) ?_
      rintro r d h ⟨same', n, all, rfl, whole, later⟩
      exact ⟨sameFile_trans same same', n + 1, all, rfl, by simp [whole], later⟩
    | false =>
      refine ⟨same, 0, false, rfl, by simp, ?_⟩
      rw [puts_failed rfl]

end buffer

/-- A stream that fails has had a write refused; one that has failed takes nothing. -/
theorem write_outlet (bytes : List Byte) (s : SocketStream) (f : Reader) :
    Comp.ensures (answers fileHost) (write bytes) (fun r t g => SameFile f g ∧ r = .ok () ∧
      outlet t.buf g.machine t.good = (outlet s.buf f.machine s.good).puts bytes.length) s f := by
  simp only [write, Comp.ensures_bind, Comp.ensures_get, Comp.either_ok]
  cases state : s.good
  · rw [if_neg (by simp)]
    refine ⟨sameFile_refl f, rfl, ?_⟩
    rw [puts_failed rfl, state]
  · rw [if_pos rfl, Comp.ensures_bind, ensures_rdbuf]
    refine Comp.ensures_mono (xsputn_outlet bytes s.buf f) ?_
    rintro r b g ⟨same, n, all, rfl, whole, now⟩
    simp only [Comp.either_ok]
    by_cases complete : n = bytes.length
    · rw [if_pos complete]
      have good : SocketStream.good { s with buf := b } = true := state
      obtain rfl := whole.mp complete
      refine ⟨same, rfl, ?_⟩
      rw [good]
      exact now
    · rw [if_neg complete]
      have bad : SocketStream.good { s with buf := b, badbit := true } = false := by
        simp [SocketStream.good]
      obtain rfl : all = false := Bool.eq_false_iff.mpr fun yes => complete (whole.mpr yes)
      refine ⟨same, rfl, ?_⟩
      rw [bad]
      exact now

theorem endsAt_unique {outcome : Nat → Option (List Byte)} {j k : Nat} (first : EndsAt outcome j)
    (second : EndsAt outcome k) : j = k := by
  induction j generalizing outcome k with
  | zero =>
    obtain ⟨bytes, read, short⟩ := first
    cases k with
    | zero => rfl
    | succ k =>
      obtain ⟨⟨bytes', read', full⟩, _⟩ := second
      obtain rfl := Option.some.inj (read.symm.trans read')
      omega
  | succ j ih =>
    obtain ⟨⟨bytes, read, full⟩, later⟩ := first
    cases k with
    | zero =>
      obtain ⟨bytes', read', short⟩ := second
      obtain rfl := Option.some.inj (read.symm.trans read')
      omega
    | succ k => rw [ih later second.2]

theorem brings_succ {outcome : Nat → Option (List Byte)} {k : Nat} :
    brings outcome (k + 1) = kPacketSize + brings (fun i => outcome (i + 1)) k := by
  simp only [brings, Nat.succ_mul]
  omega

section loop
variable {p : Path}

/-- Reading on from a file stream that has failed never comes to its end. -/
theorem sendLoop_failed (fuel pos : Nat) (fe : FileExchange) {f : Reader} (failed : f.failed = true) :
    Comp.ensures (answers fileHost) (sendLoop p fuel pos) (fun r _ _ => r = .error .hang) fe f := by
  induction fuel generalizing pos fe f with
  | zero => rfl
  | succ fuel ih =>
    have reply : fileHost f (.file (.readIn p pos kPacketSize)) = (none, f) := by
      simp [fileHost, Reader.read, failed]
    simp only [sendLoop, onFiles, Comp.ensures_bind, Comp.ensures_call_answers, Comp.either_ok,
      reply, ensures_onStream]
    refine Comp.ensures_mono (write_outlet [] fe.stream f) ?_
    rintro r s g ⟨⟨_, _, _, still⟩, rfl, _⟩
    exact ih pos _ (still.trans failed)

/-- The stream gets what the reads bring, up to the first short one. -/
theorem sendLoop_outlet (fuel pos : Nat) (fe : FileExchange) {f : Reader} (fine : f.failed = false) :
    Comp.ensures (answers fileHost) (sendLoop p fuel pos) (fun r fe' g =>
      (∃ k, EndsAt f.outcome k ∧ r = .ok () ∧ outlet fe'.stream.buf g.machine fe'.stream.good =
        (outlet fe.stream.buf f.machine fe.stream.good).puts (brings f.outcome k)) ∨
      (r = .error .hang ∧ ∀ k, EndsAt f.outcome k → fuel ≤ k)) fe f := by
  induction fuel generalizing pos fe f with
  | zero => exact .inr ⟨rfl, fun k _ => Nat.zero_le k⟩
  | succ fuel ih =>
    simp only [sendLoop, onFiles, Comp.ensures_bind, Comp.ensures_call_answers, Comp.either_ok]
    cases read : f.outcome 0 with
    | none =>
      have reply : fileHost f (.file (.readIn p pos kPacketSize)) = (none, { f with failed := true }) := by
        simp [fileHost, Reader.read, fine, read]
      simp only [reply, Comp.ensures_bind, ensures_onStream]
      refine Comp.ensures_mono (write_outlet [] fe.stream _) ?_
      rintro r s g ⟨⟨_, _, _, failed⟩, rfl, _⟩
      simp only [Comp.either_ok]
      refine Comp.ensures_mono (sendLoop_failed fuel pos _ failed) ?_
      rintro r _ _ rfl
      refine .inr ⟨rfl, fun k ends => ?_⟩
      cases k with
      | zero =>
        obtain ⟨bytes, some, _⟩ := ends
        rw [read] at some
        cases some
      | succ k =>
        obtain ⟨⟨bytes, some, _⟩, _⟩ := ends
        rw [read] at some
        cases some
    | some bytes =>
      have reply : fileHost f (.file (.readIn p pos kPacketSize)) =
          (some (bytes.take kPacketSize), { f with outcome := fun i => f.outcome (i + 1) }) := by
        simp [fileHost, Reader.read, fine, read]
      simp only [reply, Comp.ensures_bind, ensures_onStream]
      refine Comp.ensures_mono (write_outlet (bytes.take kPacketSize) fe.stream _) ?_
      rintro r s g ⟨⟨_, _, outcome, still⟩, rfl, now⟩
      simp only [Comp.either_ok]
      by_cases short : (bytes.take kPacketSize).length < kPacketSize
      · rw [if_pos short]
        have size : (bytes.take kPacketSize).length = bytes.length := by
          rw [List.length_take] at short ⊢
          omega
        refine .inl ⟨0, ⟨bytes, read, size ▸ short⟩, rfl, ?_⟩
        rw [brings, read, Option.getD_some, Nat.zero_mul, Nat.zero_add, ← size]
        exact now
      · rw [if_neg short]
        have size : (bytes.take kPacketSize).length = kPacketSize := by
          rw [List.length_take] at short ⊢
          omega
        have full : kPacketSize ≤ bytes.length := by
          rw [List.length_take] at size
          omega
        refine Comp.ensures_mono (ih _ _ (still.trans fine)) ?_
        rw [outcome]
        rintro r fe' h (⟨k, ends, rfl, later⟩ | ⟨rfl, never⟩)
        · refine .inl ⟨k + 1, ⟨⟨bytes, read, full⟩, ends⟩, rfl, ?_⟩
          rw [later, brings_succ, puts_add, ← size, ← now]
        · refine .inr ⟨rfl, fun k ends => ?_⟩
          cases k with
          | zero =>
            obtain ⟨bytes', read', short'⟩ := ends
            obtain rfl := Option.some.inj (read.symm.trans read')
            omega
          | succ k => exact Nat.succ_le_succ (never k ends.2)

end loop

/-- The stream when Send has written the nine bytes of the header. -/
def afterHeader (fe : FileExchange) (m : Machine) : Outlet := (outlet fe.buf m true).puts 9

/-- A stream that had failed before takes the header, which goes to its buffer, and no content. -/
def contentOutlet (fe : FileExchange) (m : Machine) : Outlet :=
  { afterHeader fe m with good := fe.stream.good }

/-- All of `n` characters are written, or the OS refuses one and an exception says so. -/
def Saves (n : Nat) (x : Io SocketBuffer Unit) : Prop :=
  ∀ b f, Comp.ensures (answers fileHost) x (fun r c g => SameFile f g ∧
    (r = .ok () ∧ outlet c g.machine true = (outlet b f.machine true).puts n ∨
      (∃ e, r = .error e ∧ e.isException) ∧
        outlet c g.machine false = (outlet b f.machine true).puts n)) b f

theorem saves_binary (bytes : List Byte) : Saves bytes.length (saveBinary bytes) := by
  intro b f
  rw [saveBinary, Comp.ensures_bind]
  refine Comp.ensures_mono (xsputn_outlet bytes b f) ?_
  rintro r c g ⟨same, n, all, rfl, whole, now⟩
  simp only [Comp.either_ok]
  by_cases complete : n = bytes.length
  · rw [if_pos complete]
    obtain rfl := whole.mp complete
    exact ⟨same, .inl ⟨rfl, now⟩⟩
  · rw [if_neg complete]
    obtain rfl : all = false := Bool.eq_false_iff.mpr fun yes => complete (whole.mpr yes)
    exact ⟨same, .inr ⟨⟨_, rfl, rfl⟩, now⟩⟩

theorem saves_bind {i j : Nat} {x : Io SocketBuffer Unit} {f : Unit → Io SocketBuffer Unit}
    (first : Saves i x) (second : Saves j (f ())) : Saves (i + j) (x >>= f) := by
  intro b g
  rw [Comp.ensures_bind]
  refine Comp.ensures_mono (first b g) ?_
  rintro r c h ⟨same, ⟨rfl, now⟩ | ⟨⟨e, rfl, kind⟩, refused⟩⟩
  · simp only [Comp.either_ok]
    refine Comp.ensures_mono (second c h) ?_
    rintro r d k ⟨same', result⟩
    rw [now, ← puts_add] at result
    exact ⟨sameFile_trans same same', result⟩
  · refine ⟨same, .inr ⟨⟨e, rfl, kind⟩, ?_⟩⟩
    rw [puts_add, ← refused, puts_failed rfl]

theorem saves_header (n : Nat) : Saves 9 (do outputArchive; saveBinary (toLittle 8 n)) := by
  have word := saves_binary (toLittle 8 n)
  rw [toLittle_length] at word
  exact saves_bind (f := fun _ => saveBinary (toLittle 8 n)) (saves_binary [1]) word

/-- How Send ends, by what becomes of the file and of the header. -/
inductive Sent (fe : FileExchange) (f : Reader) (fuel : Nat) :
    Except Fault Bool → Outlet → Prop
  | closed (closed : f.opens = false ∨ f.size = none) :
      Sent fe f fuel (.ok false) (outlet fe.buf f.machine fe.stream.good)
  | refused (header : (afterHeader fe f.machine).good = false) :
      Sent fe f fuel (.ok false) (contentOutlet fe f.machine)
  | whole {k : Nat} (header : (afterHeader fe f.machine).good = true)
      (ends : EndsAt f.outcome k) :
      Sent fe f fuel (.ok true) ((contentOutlet fe f.machine).puts (brings f.outcome k))
  | hangs {o : Outlet} (opens : f.opens = true) (size : f.size ≠ none)
      (header : (afterHeader fe f.machine).good = true)
      (more : ∀ k, EndsAt f.outcome k → fuel ≤ k) : Sent fe f fuel (.error .hang) o

theorem send_outlet (fuel : Nat) (fe : FileExchange) {f : Reader} (fine : f.failed = false) :
    Comp.ensures (answers fileHost) (send fuel) (fun r fe' g =>
      Sent fe f fuel r (outlet fe'.stream.buf g.machine fe'.stream.good)) fe f := by
  simp only [send, getPath, orThrow, onFiles, Comp.ensures_bind, Comp.ensures_get, Comp.either_ok,
    Comp.ensures_pure, Comp.ensures_call_answers]
  have opening : fileHost f (.file (.openIn fe.path)) = (f.opens, f) := rfl
  have sizing : fileHost f (.file (.fileSize fe.path)) = (f.size, f) := rfl
  rw [opening]
  cases opens : f.opens with
  | false => exact .closed (.inl opens)
  | true =>
    simp only [if_true, ensures_tryCatch, Comp.ensures_bind, Comp.ensures_call_answers, sizing,
      Comp.either_ok]
    cases size : f.size with
    | none => exact .closed (.inr size)
    | some n =>
      simp only [Comp.ensures_pure, Comp.either_ok]
      rw [Comp.ensures_bind, ensures_onRdbuf]
      refine Comp.ensures_mono (saves_header n fe.buf f) ?_
      rintro r b g ⟨⟨_, _, outcome, still⟩, ⟨rfl, now⟩ | ⟨⟨e, rfl, kind⟩, refused⟩⟩
      · simp only [Comp.either_ok, Comp.ensures_bind]
        refine Comp.ensures_mono (sendLoop_outlet fuel 0 _ (still.trans fine)) ?_
        rw [outcome]
        have header : outlet b g.machine fe.stream.good = contentOutlet fe f.machine :=
          congrArg (fun o : Outlet => { o with good := fe.stream.good }) now
        have good : (afterHeader fe f.machine).good = true := by
          rw [afterHeader, ← now]
          rfl
        rintro r fe' h (⟨k, ends, rfl, later⟩ | ⟨rfl, never⟩)
        · simp only [Comp.either_ok, Comp.ensures_pure]
          rw [later]
          have same : outlet b g.machine (SocketStream.good { fe.stream with buf := b }) =
            contentOutlet fe f.machine := header
          rw [same]
          exact .whole good ends
        · exact .hangs opens (by simp [size]) good never
      · simp only [Comp.either_error, kind, if_true]
        have content : outlet b g.machine fe.stream.good = contentOutlet fe f.machine :=
          congrArg (fun o : Outlet => { o with good := fe.stream.good }) refused
        have bad : (afterHeader fe f.machine).good = false := by
          rw [afterHeader, ← refused]
          rfl
        have same : outlet b g.machine (SocketStream.good { fe.stream with buf := b }) =
          contentOutlet fe f.machine := content
        rw [same]
        exact .refused bad

/-- Send returns unless it gets to the file's content and no read comes short before one fails. -/
theorem send_returns (fe : FileExchange) {f : Reader} (fine : f.failed = false) :
    (∃ fuel b, (Comp.exec fileHost (send fuel) fe f).1 = .ok b) ↔
      (f.opens = true → f.size ≠ none → (afterHeader fe f.machine).good = true →
        ∃ k, EndsAt f.outcome k) := by
  constructor
  · rintro ⟨fuel, b, returns⟩ opens size header
    have sent := Comp.ensures_answers.mp (send_outlet fuel fe fine)
    generalize outlet _ _ _ = o at sent
    rw [returns] at sent
    cases sent with
    | closed closed =>
      rcases closed with closed | unknown
      · rw [closed] at opens
        cases opens
      · exact absurd unknown size
    | refused refused =>
      rw [refused] at header
      cases header
    | whole known ends => exact ⟨_, ends⟩
  · intro ending
    by_cases reaches : f.opens = true ∧ f.size ≠ none ∧ (afterHeader fe f.machine).good = true
    · obtain ⟨k, ends⟩ := ending reaches.1 reaches.2.1 reaches.2.2
      have sent := Comp.ensures_answers.mp (send_outlet (k + 1) fe fine)
      refine ⟨k + 1, ?_⟩
      generalize (Comp.exec fileHost (send (k + 1)) fe f).1 = r at sent ⊢
      generalize outlet _ _ _ = o at sent
      cases sent with
      | closed closed => exact ⟨_, rfl⟩
      | refused refused => exact ⟨_, rfl⟩
      | whole known ends => exact ⟨_, rfl⟩
      | hangs opens size header more => exact absurd (more k ends) (by omega)
    · have sent := Comp.ensures_answers.mp (send_outlet 0 fe fine)
      refine ⟨0, ?_⟩
      generalize (Comp.exec fileHost (send 0) fe f).1 = r at sent ⊢
      generalize outlet _ _ _ = o at sent
      cases sent with
      | closed closed => exact ⟨_, rfl⟩
      | refused refused => exact ⟨_, rfl⟩
      | whole known ends => exact ⟨_, rfl⟩
      | hangs opens size header more => exact absurd ⟨opens, size, header⟩ reaches

/-- A Send that opens its file anew. -/
def sending (fuel : Nat) (fe : FileExchange) (m : Machine) (opens : Bool) (size : Option Nat)
    (outcome : Nat → Option (List Byte)) : Except Fault Bool × FileExchange × Reader :=
  Comp.exec fileHost (send fuel) fe ⟨m, opens, size, outcome, false⟩

/-- When the two transfer loops end. -/
theorem transfers_return_iff (fe : FileExchange) (m : Machine) (opens : Bool) (size : Option Nat)
    (outcome : Nat → Option (List Byte)) :
    ((∃ fuel b, (exec (receive fuel) fe m).1 = .ok b) ↔
      ∃ opened after, openDestination m.world.fs fe.path = some (opened, after) ∧
        (opened = true → 9 ≤ (available fe.buf m).length → Arrives fe m)) ∧
    ((∃ fuel b, (sending fuel fe m opens size outcome).1 = .ok b) ↔
      (opens = true → size ≠ none → (afterHeader fe m).good = true → ∃ k, EndsAt outcome k)) :=
  ⟨receive_returns fe m, send_returns fe rfl⟩

/-- A header that announces one byte, and then nothing. -/
def headerOnly : Machine :=
  ⟨⟨Fs.empty, [], [], []⟩, [some ⟨[1, 1, 0, 0, 0, 0, 0, 0, 0], by simp⟩], []⟩

/-- A peer that disconnects before the content keeps Receive in its loop. -/
theorem truncated_receive_hangs :
    ¬ ∃ fuel b, (exec (receive fuel) (.fresh (fun _ => 0) [97]) headerOnly).1 = .ok b := by
  rw [receive_returns]
  rintro ⟨opened, after, dest, arrives⟩
  have opens : (openDestination Fs.empty [97]).map Prod.fst = some true := by decide +kernel
  have coming : available (FileExchange.fresh (fun _ => 0) [97]).buf headerOnly =
      [1, 1, 0, 0, 0, 0, 0, 0, 0] := rfl
  have size : announced [1, 1, 0, 0, 0, 0, 0, 0, 0] = 1 := by decide +kernel
  have same : openDestination Fs.empty [97] = some (opened, after) := dest
  rw [same] at opens
  have all := arrives (Option.some.inj opens) (by rw [coming]; decide)
  rw [Arrives, coming, size] at all
  rcases all with none | ⟨_, _, few⟩
  · cases none
  · exact absurd few (by decide)

theorem put_given_le (o : Outlet) : o.given ≤ o.put.given := by
  unfold Outlet.put
  split
  · split
    · exact Nat.le_succ _
    · split <;> exact Nat.le_succ _
  · exact Nat.le_refl _

theorem puts_given_le (n : Nat) (o : Outlet) : o.given ≤ (o.puts n).given := by
  induction n generalizing o with
  | zero => exact Nat.le_refl _
  | succ n ih => exact Nat.le_trans (put_given_le o) (ih o.put)

/-- An outlet that is still good has taken every character. -/
theorem puts_given {n : Nat} {o : Outlet} (good : (o.puts n).good = true) :
    (o.puts n).given = o.given + n := by
  induction n generalizing o with
  | zero => rfl
  | succ n ih =>
    have first : o.good = true := by
      by_contra failed
      rw [puts_failed (Bool.eq_false_iff.mpr failed)] at good
      exact failed good
    have one : o.put.given = o.given + 1 := by
      unfold Outlet.put
      rw [if_pos first]
      split
      · rfl
      · split <;> rfl
    have rest := ih (o := o.put) good
    rw [puts_succ, rest, one]
    omega

/-- How many of `n` characters an outlet takes. -/
def Outlet.takes (n : Nat) (o : Outlet) : Nat := (o.puts n).given - o.given

/-- The characters that a stream has been given, sent or not. -/
def given (fe : FileExchange) (m : Machine) : Nat := m.world.sent.length + fe.buf.pptr

/-- What follows the header is as long as it announces if and only if the reads, up to the first
    short one, bring as many bytes to a stream that takes them. -/
theorem announced_size_iff {fuel n : Nat} {fe : FileExchange} {m : Machine} {opens : Bool}
    {outcome : Nat → Option (List Byte)}
    (sent : (sending fuel fe m opens (some n) outcome).1 = .ok true) :
    (given (sending fuel fe m opens (some n) outcome).2.1
        (sending fuel fe m opens (some n) outcome).2.2.machine : Int) =
      given fe m + 9 + announced (1 :: toLittle 8 n) ↔
      ∃ k, EndsAt outcome k ∧
        ((contentOutlet fe m).takes (brings outcome k) : Int) = announced (1 :: toLittle 8 n) := by
  have result := Comp.ensures_answers.mp
    (send_outlet fuel fe (f := ⟨m, opens, some n, outcome, false⟩) rfl)
  rw [← sending, sent] at result
  change ((outlet (sending fuel fe m opens (some n) outcome).2.1.stream.buf
    (sending fuel fe m opens (some n) outcome).2.2.machine
    (sending fuel fe m opens (some n) outcome).2.1.stream.good).given : Int) = _ ↔ _
  generalize outlet _ _ (sending fuel fe m opens (some n) outcome).2.1.stream.good = o at result ⊢
  cases result with
  | @whole k header ends =>
    have start : (contentOutlet fe m).given = given fe m + 9 := puts_given header
    have more := puts_given_le (brings outcome k) (contentOutlet fe m)
    have taken : ((contentOutlet fe m).takes (brings outcome k) : Int) =
        ((contentOutlet fe m).puts (brings outcome k)).given - (given fe m + 9) := by
      rw [Outlet.takes]
      omega
    constructor
    · intro same
      refine ⟨k, ends, ?_⟩
      rw [taken, same]
      omega
    · rintro ⟨j, ends', same⟩
      obtain rfl := endsAt_unique ends ends'
      rw [taken] at same
      show (((contentOutlet fe m).puts (brings outcome k)).given : Int) = _
      omega

def idle : Machine := ⟨⟨Fs.empty, [], [], []⟩, [], []⟩

/-- A file of one byte that stays as it is. -/
theorem announced_size_iff_unchanged :
    (given (sending 1 (.fresh (fun _ => 0) [97]) idle true (some 1) fun _ => some [7]).2.1
        (sending 1 (.fresh (fun _ => 0) [97]) idle true (some 1) fun _ => some [7]).2.2.machine :
          Int) =
      given (.fresh (fun _ => 0) [97]) idle + 9 + announced (1 :: toLittle 8 1) ↔
      ∃ k, EndsAt (fun _ => some [7]) k ∧
        ((contentOutlet (.fresh (fun _ => 0) [97]) idle).takes (brings (fun _ => some [7]) k) : Int) =
          announced (1 :: toLittle 8 1) := by
  have sent : (sending 1 (.fresh (fun _ => 0) [97]) idle true (some 1) fun _ => some [7]).1 =
      .ok true := by decide +kernel
  exact announced_size_iff sent

/-- A file of two bytes that another thread has shortened before it is read. -/
theorem shortened_file_misleads :
    (sending 1 (.fresh (fun _ => 0) [97]) idle true (some 2) fun _ => some [7]).1 = .ok true ∧
      announced (1 :: toLittle 8 2) = 2 ∧
      given (sending 1 (.fresh (fun _ => 0) [97]) idle true (some 2) fun _ => some [7]).2.1
        (sending 1 (.fresh (fun _ => 0) [97]) idle true (some 2) fun _ => some [7]).2.2.machine =
          given (.fresh (fun _ => 0) [97]) idle + 9 + 1 := by
  decide +kernel

end DropboxChangingFile
