import Dropbox.ProtocolRules

/-!
What the receiving functions do when the stream ends inside what they read. Here
the whole rest of the input is known, so a rule says how a computation ends and
what it leaves of that rest. The store holds what a file stream was given; the
buffer of std::ofstream is not modelled.
-/
namespace DropboxEndOfStream
open DropboxFileStore DropboxHost DropboxSocketStream DropboxStreamRules DropboxProtocol
open DropboxProtocolRules Programs Codec

/-- The owner of the stream has not taken `rest` yet. -/
def Before (input rest written : List Byte) (b : SocketBuffer) (w : World) : Prop :=
  ∃ taken, input = taken ++ rest ∧ Linked (delivers input) taken written b w

/-- From `rest` on, the computation ends with `r` and leaves `left`. -/
def Reads {L A : Type} (input : List Byte) (buf : L → SocketBuffer) (I : L → World → Prop)
    (x : Io L A) (rest : List Byte) (r : Except Fault A) (left : List Byte)
    (J : L → World → Prop) : Prop :=
  ∀ ⦃written l w⦄, I l w → Before input rest written (buf l) w →
    Comp.ensures (delivers input).env x (fun r' k v => r' = r ∧ J k v ∧
      Before input left written (buf k) v) l w

/-- From `rest` on, the computation ends in such a world, in whatever way. -/
def Ends {L A : Type} (input : List Byte) (buf : L → SocketBuffer) (I : L → World → Prop)
    (x : Io L A) (rest : List Byte) (J : World → Prop) : Prop :=
  ∀ ⦃written l w⦄, I l w → Before input rest written (buf l) w →
    Comp.ensures (delivers input).env x (fun _ _ v => J v) l w

section rules
variable {L A B : Type} {input rest left last : List Byte} {buf : L → SocketBuffer}
variable {I J M : L → World → Prop} {F : World → Prop} {x : Io L A}

theorem reads_of_takes {bytes : List Byte} {a : A} (takes : Takes (delivers input) buf I x bytes a J)
    (left : List Byte) : Reads input buf I x (bytes ++ left) (.ok a) left J := by
  rintro written l w here ⟨taken, split, linked⟩
  have whole : input = taken ++ bytes ++ left := by rw [split, List.append_assoc]
  apply Comp.ensures_mono (takes here linked whole fun _ _ _ => delivers_asks _ _ _)
  rintro r k v ⟨rfl, there, linked'⟩
  exact ⟨rfl, there, _, whole, linked'⟩

theorem reads_of_keeps {a : A} (keeps : Keeps (delivers input) buf I x a J) (rest : List Byte) :
    Reads input buf I x rest (.ok a) rest J := reads_of_takes (takes_of_keeps keeps) rest

theorem reads_pure (a : A) (rest : List Byte) : Reads input buf I (pure a) rest (.ok a) rest I :=
  reads_of_keeps (keeps_pure a) rest

theorem reads_throw (e : Fault) (rest : List Byte) :
    Reads input buf I (Comp.throw e : Io L A) rest (.error e) rest I :=
  fun _ _ _ here before => ⟨rfl, here, before⟩

theorem reads_bind {f : A → Io L B} {a : A} {r : Except Fault B}
    (head : Reads input buf I x rest (.ok a) left J) (tail : Reads input buf J (f a) left r last M) :
    Reads input buf I (x >>= f) rest r last M := by
  intro written l w here before
  rw [Comp.ensures_bind]
  apply Comp.ensures_mono (head here before)
  rintro r' k v ⟨rfl, there, before'⟩
  exact tail there before'

theorem reads_fault {f : A → Io L B} {e : Fault}
    (head : Reads input buf I x rest (.error e) left J) :
    Reads input buf I (x >>= f) rest (.error e) left J := by
  intro written l w here before
  rw [Comp.ensures_bind]
  apply Comp.ensures_mono (head here before)
  rintro r' k v ⟨rfl, there⟩
  exact ⟨rfl, there⟩

theorem reads_tryCatch {handler : Fault → Io L A} {a : A}
    (tried : Reads input buf I x rest (.ok a) left J) :
    Reads input buf I (tryCatch x handler) rest (.ok a) left J := by
  intro written l w here before
  rw [ensures_tryCatch]
  apply Comp.ensures_mono (tried here before)
  rintro r k v ⟨rfl, there⟩
  exact ⟨rfl, there⟩

theorem reads_caught {handler : Fault → Io L A} {e : Fault} {r : Except Fault A}
    (raised : Reads input buf I x rest (.error e) left J) (kind : e.isException)
    (handled : Reads input buf J (handler e) left r last M) :
    Reads input buf I (tryCatch x handler) rest r last M := by
  intro written l w here before
  rw [ensures_tryCatch]
  apply Comp.ensures_mono (raised here before)
  rintro r' k v ⟨rfl, there, before'⟩
  simp only [Comp.either_error, kind, if_true]
  exact handled there before'

theorem reads_hang {handler : Fault → Io L A} (raised : Reads input buf I x rest (.error .hang) left J) :
    Reads input buf I (tryCatch x handler) rest (.error .hang) left J := by
  intro written l w here before
  rw [ensures_tryCatch]
  apply Comp.ensures_mono (raised here before)
  rintro r' k v ⟨rfl, there⟩
  exact ⟨rfl, there⟩

theorem ends_bind {f : A → Io L B} {a : A} (head : Reads input buf I x rest (.ok a) left J)
    (tail : Ends input buf J (f a) left F) : Ends input buf I (x >>= f) rest F := by
  intro written l w here before
  rw [Comp.ensures_bind]
  apply Comp.ensures_mono (head here before)
  rintro r' k v ⟨rfl, there, before'⟩
  exact tail there before'

theorem ends_of_reads {r : Except Fault A} (reads : Reads input buf I x rest r left J)
    (final : ∀ l w, J l w → F w) : Ends input buf I x rest F := by
  intro written l w here before
  apply Comp.ensures_mono (reads here before)
  rintro r' k v ⟨_, there, _⟩
  exact final k v there

end rules

section archives
variable {input rest : List Byte} {fs : Fs} {log : List Event}

/-- A read that wants more than there is gets all there is. -/
theorem got_rest {taken got written : List Byte} {b : SocketBuffer} {w : World} {n : Nat}
    (split : input = taken ++ rest) (now : Linked (delivers input) (taken ++ got) written b w)
    (short : rest.length < n)
    (ending : got.length < n → b.unread = [] ∧ (delivers input).ended w.rcvd) : got = rest := by
  have within : taken ++ got <+: taken ++ rest := by
    rw [← split]
    refine List.IsPrefix.trans ?_ now.arrived
    rw [now.received]
    exact List.prefix_append ..
  have inside := (List.prefix_append_right_inj taken).mp within
  obtain ⟨exhausted, ended⟩ := ending (Nat.lt_of_le_of_lt inside.length_le short)
  have whole : w.rcvd = taken ++ got := by rw [now.received, exhausted, List.append_nil]
  exact List.append_cancel_left (whole.symm.trans (Eq.trans ended split))

theorem reads_xsgetn_short {n : Nat} (short : rest.length < n) :
    Reads input id (Files fs log) (xsgetn n) rest (.ok rest) [] (Files fs log) := by
  rintro written b w here ⟨taken, split, linked⟩
  apply Comp.ensures_mono (ensures_xsgetn n linked fun _ _ _ => delivers_asks _ _ _ _ _)
  rintro r c v ⟨quiet, got, rfl, _, now, ending⟩
  obtain rfl := got_rest split now short ending
  exact ⟨rfl, ⟨quiet.1.trans here.1, quiet.2.trans here.2⟩, _, by simpa using split, now⟩

theorem reads_loadBinary_short {n : Nat} (short : rest.length < n) :
    Reads input id (Files fs log) (loadBinary n) rest (.error (.cerealRead n rest.length)) []
      (Files fs log) := by
  refine reads_bind (reads_xsgetn_short short) ?_
  rw [if_neg (by omega)]
  exact reads_throw _ []

theorem reads_inputArchive_short : Reads input id (Files fs log) inputArchive []
    (.error (.cerealRead 1 0)) [] (Files fs log) :=
  reads_fault (reads_loadBinary_short Nat.zero_lt_one)

theorem reads_loadWord_short {swap : Bool} (short : rest.length < 8) :
    Reads input id (Files fs log) (loadWord swap) rest (.error (.cerealRead 8 rest.length)) []
      (Files fs log) := reads_fault (reads_loadBinary_short short)

/-- The size and not all of the text. -/
theorem reads_loadString_short {text : List Byte} (fits : text.length < 2 ^ 63)
    (within : rest <+: lengthPrefixed 8 text) (proper : rest ≠ lengthPrefixed 8 text) :
    ∃ needed got, Reads input id (Files fs log) (loadString false) rest
      (.error (.cerealRead needed got)) [] (Files fs log) := by
  by_cases early : rest.length < 8
  · exact ⟨_, _, reads_fault (reads_loadWord_short early)⟩
  · obtain ⟨half, rfl, inside⟩ : ∃ half, rest = toLittle 8 text.length ++ half ∧ half <+: text := by
      obtain ⟨missing, whole⟩ := within
      have size : (toLittle 8 text.length).length = 8 := toLittle_length ..
      refine ⟨rest.drop 8, ?_, missing, ?_⟩
      · have front := congrArg (List.take 8) whole
        rw [List.take_append_of_le_length (by omega), lengthPrefixed, List.take_left' size] at front
        rw [← front, List.take_append_drop]
      · have back := congrArg (List.drop 8) whole
        rwa [List.drop_append_of_le_length (by omega), lengthPrefixed, List.drop_left' size] at back
    have short : half.length < text.length := by
      refine lt_of_le_of_ne inside.length_le fun same => proper ?_
      rw [lengthPrefixed, inside.eq_of_length same]
    have size : Reads input id (Files fs log) (loadWord false) (toLittle 8 text.length ++ half)
        (.ok text.length) half (Files fs log) := reads_of_takes (takes_loadWord (by omega)) half
    refine ⟨text.length, half.length, reads_bind size ?_⟩
    rw [if_pos fits]
    exact reads_loadBinary_short short

end archives

section exchange
variable {A : Type} {input rest left : List Byte} {p q : Path} {fs : Fs} {log : List Event}

theorem reads_onRdbuf {x : Io SocketBuffer A} {r : Except Fault A}
    (loads : Reads input id (Files fs log) x rest r left (Files fs log)) :
    Reads input FileExchange.buf (At p fs log) (onRdbuf x) rest r left (At p fs log) := by
  intro written fe w here before
  rw [ensures_onRdbuf]
  apply Comp.ensures_mono (loads here.2.2 before)
  rintro r b v ⟨rfl, files, before'⟩
  exact ⟨rfl, ⟨here.1, here.2.1, files⟩, before'⟩

/-- The stream ends before the command. -/
theorem reads_receiveCommand_short {cut : List Byte} (short : cut = [] ∨ cut = [1]) :
    Reads input FileExchange.buf (At p fs log) receiveCommand cut (.ok (.error .connectionAborted))
      [] (At p fs log) := by
  have loads : ∃ needed, Reads input id (Files fs log) (do let _ ← inputArchive; loadBinary 1) cut
      (.error (.cerealRead needed 0)) [] (Files fs log) := by
    rcases short with rfl | rfl
    · exact ⟨1, reads_fault reads_inputArchive_short⟩
    · exact ⟨1, reads_bind (reads_of_takes takes_inputArchive [])
        (reads_loadBinary_short Nat.zero_lt_one)⟩
  obtain ⟨needed, loads⟩ := loads
  exact reads_caught (reads_fault (reads_onRdbuf loads)) rfl (reads_pure _ [])

/-- The stream ends inside a path. -/
theorem reads_receivePath_short {text cut : List Byte} (fits : text.length < 2 ^ 63)
    (within : cut <+: encodeString text) (proper : cut ≠ encodeString text) :
    Reads input FileExchange.buf (At p fs log) receivePath cut (.ok false) [] (At p fs log) := by
  have loads : ∃ needed got, Reads input id (Files fs log)
      (do let swap ← inputArchive; loadString swap) cut (.error (.cerealRead needed got)) []
      (Files fs log) := by
    cases cut with
    | nil => exact ⟨1, 0, reads_fault reads_inputArchive_short⟩
    | cons flag half =>
      obtain ⟨rfl, inside⟩ := List.cons_prefix_cons.mp within
      have short : ∃ needed got, Reads input id (Files fs log) (loadString false) half
          (.error (.cerealRead needed got)) [] (Files fs log) :=
        reads_loadString_short fits inside (by rintro rfl; exact proper rfl)
      obtain ⟨needed, got, short⟩ := short
      exact ⟨needed, got, reads_bind (reads_of_takes takes_inputArchive half) short⟩
  obtain ⟨needed, got, loads⟩ := loads
  exact reads_caught (reads_fault (reads_onRdbuf loads)) rfl (reads_pure _ [])

/-- A refused file-system call throws. -/
theorem reads_refused {x : Io FileExchange (Option A)}
    (answered : Keeps (delivers input) FileExchange.buf (At p fs log) x none (At p fs log))
    (rest : List Byte) :
    Reads input FileExchange.buf (At p fs log) (orThrow x) rest (.error .filesystem) rest
      (At p fs log) := reads_bind (reads_of_keeps answered rest) (reads_throw _ rest)

theorem reads_prepare_refused (refused : openDestination fs p = none) (rest : List Byte) :
    Reads input FileExchange.buf (At p fs log) (prepare p) rest (.error .filesystem) rest
      (At p fs log) := by
  cases asked : isRegularFile fs p with
  | none => exact reads_fault (reads_refused (keeps_onFiles (by simp [fileCall, asked])) rest)
  | some regular =>
    have asks : Keeps (delivers input) FileExchange.buf (At p fs log)
        (orThrow (onFiles (.isRegularFile p))) regular (At p fs log) :=
      keeps_orThrow (keeps_onFiles (by simp [fileCall, asked]))
    refine reads_bind (reads_of_keeps asks rest) ?_
    cases regular with
    | true => simp [openDestination, asked] at refused
    | false =>
      have stuck : removeAll fs p = none := by simpa [openDestination, asked] using refused
      exact reads_fault (reads_refused (keeps_onFiles (by simp [fileCall, stuck, orSame])) rest)

/-- Receive is noexcept. -/
theorem reads_receive_refused (refused : openDestination fs p = none) (fuel : Nat)
    (rest : List Byte) :
    Reads input FileExchange.buf (At p fs log) (receive fuel) rest (.error .terminate) rest
      (At p fs log) := by
  refine reads_caught (e := .filesystem) ?_ rfl (reads_throw _ rest)
  refine reads_bind (reads_of_keeps keeps_getPath rest) ?_
  exact reads_fault (reads_prepare_refused refused rest)

/-- The file cannot be opened, and its bytes stay on the stream. -/
theorem reads_receive_closed {opened : Fs} (closed : openDestination fs p = some (false, opened))
    (fuel : Nat) (rest : List Byte) :
    Reads input FileExchange.buf (At p fs log) (receive fuel) rest (.ok false) rest
      (At p opened log) := by
  refine reads_tryCatch ?_
  refine reads_bind (reads_of_keeps keeps_getPath rest) ?_
  refine reads_bind (reads_of_keeps (keeps_openDestination closed) rest) ?_
  exact reads_pure false rest

/-- The stream ends inside the size of the file. -/
theorem reads_receive_headless {opened : Fs} {content cut : List Byte}
    (opens : openDestination fs p = some (true, opened)) (within : cut <+: encodeFile content)
    (short : cut.length < 9) (fuel : Nat) :
    Reads input FileExchange.buf (At p fs log) (receive fuel) cut (.ok false) []
      (At p opened log) := by
  have loads : ∃ needed got, Reads input id (Files opened log)
      (do let swap ← inputArchive; loadWord swap) cut (.error (.cerealRead needed got)) []
      (Files opened log) := by
    cases cut with
    | nil => exact ⟨1, 0, reads_fault reads_inputArchive_short⟩
    | cons flag half =>
      obtain ⟨rfl, inside⟩ := List.cons_prefix_cons.mp within
      have few : half.length < 8 := Nat.succ_lt_succ_iff.mp short
      exact ⟨_, _, reads_bind (reads_of_takes takes_inputArchive half) (reads_loadWord_short few)⟩
  obtain ⟨needed, got, loads⟩ := loads
  refine reads_tryCatch ?_
  refine reads_bind (reads_of_keeps keeps_getPath cut) ?_
  refine reads_bind (reads_of_keeps (keeps_openDestination opens) cut) ?_
  exact reads_caught (reads_fault (reads_onRdbuf loads)) rfl (reads_pure false [])

/-- The stream has failed. -/
def Failed (path : Path) (fs : Fs) (log : List Event) (fe : FileExchange) (w : World) : Prop :=
  fe.stream.good = false ∧ fe.path = path ∧ w.fs = fs ∧ w.log = log

theorem reads_read_short {n : Nat} (short : rest.length < n) :
    Reads input FileExchange.buf (At p fs log) (onStream (read n)) rest (.ok rest) []
      (Failed p fs log) := by
  rintro written fe w here ⟨taken, split, linked⟩
  rw [onStream, Comp.ensures_zoom]
  apply Comp.ensures_mono (ensures_read n linked fun _ _ _ => delivers_asks _ _ _ _ _)
  rintro r s v ⟨quiet, got, rfl, _, now, _, ending, _⟩
  obtain rfl := got_rest split now short fun few => ⟨(ending here.1 few).1, (ending here.1 few).2.1⟩
  exact ⟨rfl, ⟨(ending here.1 short).2.2, here.2.1, quiet.1.trans here.2.2.1,
    quiet.2.trans here.2.2.2⟩, _, by simpa using split, now⟩

theorem reads_read_failed (n : Int) (rest : List Byte) :
    Reads input FileExchange.buf (Failed p fs log) (onStream (read n)) rest (.ok []) rest
      (Failed p fs log) := by
  rintro written fe w ⟨failed, path, files⟩ before
  rw [onStream, Comp.ensures_zoom]
  simp only [DropboxSocketStream.read, Comp.ensures_bind, Comp.ensures_get, Comp.either_ok, failed,
    Bool.false_eq_true, if_false, Comp.ensures_modify, Comp.ensures_pure]
  exact ⟨trivial, ⟨by simp [SocketStream.good], path, files⟩, before⟩

theorem reads_writeOut_failed (named : (key p).names ≠ []) (done bytes rest : List Byte) :
    Reads input FileExchange.buf (Failed p (fs.put (key p) (.file done)) log)
      (onFiles (.writeOut p bytes)) rest (.ok ()) rest
      (Failed p (fs.put (key p) (.file (done ++ bytes))) log) := by
  rintro written fe w ⟨failed, path, files, logged⟩ ⟨taken, split, linked⟩
  have after : fileCall w.fs (.writeOut p bytes) =
      ((), fs.put (key p) (.file (done ++ bytes))) := by
    simp [fileCall, files, writeOut_put named]
  rw [ensures_onFiles, after]
  exact ⟨rfl, ⟨failed, path, rfl, logged⟩, taken, split, linked_of_same linked rfl rfl rfl⟩

/-- The loop waits for more on a stream that has failed. -/
theorem reads_receiveLoop_failed (named : (key p).names ≠ []) {done : List Byte} {remaining : Int}
    (more : remaining ≠ 0) (fuel : Nat) (rest : List Byte) :
    Reads input FileExchange.buf (Failed p (fs.put (key p) (.file done)) log)
      (receiveLoop p fuel remaining) rest (.error .hang) rest
      (Failed p (fs.put (key p) (.file done)) log) := by
  induction fuel with
  | zero => exact reads_throw _ rest
  | succ fuel ih =>
    have idle : Reads input FileExchange.buf (Failed p (fs.put (key p) (.file done)) log)
        (onFiles (.writeOut p [])) rest (.ok ()) rest
        (Failed p (fs.put (key p) (.file (done ++ []))) log) :=
      reads_writeOut_failed named done [] rest
    rw [List.append_nil] at idle
    rw [receiveLoop, if_neg more]
    apply reads_bind (reads_read_failed _ rest)
    refine reads_bind idle ?_
    rwa [List.length_nil, Int.natCast_zero, Int.sub_zero]

/-- The stream ends inside the content: what has come is in the file, and the loop hangs. -/
theorem reads_receiveLoop_short (named : (key p).names ≠ []) (fuel : Nat) {got done : List Byte}
    {size : Nat} (short : got.length < size) (enough : got.length < fuel) :
    Reads input FileExchange.buf (At p (fs.put (key p) (.file done)) log)
      (receiveLoop p fuel size) got (.error .hang) []
      (Failed p (fs.put (key p) (.file (done ++ got))) log) := by
  induction fuel generalizing got done size with
  | zero => omega
  | succ fuel ih =>
    have big : 0 < kPacketSize := by decide
    rw [receiveLoop, if_neg (by omega)]
    by_cases full : got.length < min size kPacketSize
    · have amount : min (size : Int) (kPacketSize : Nat) = (min size kPacketSize : Nat) := by omega
      rw [amount]
      refine reads_bind (reads_read_short full) ?_
      refine reads_bind (reads_writeOut_failed named done got []) ?_
      exact reads_receiveLoop_failed named (by omega) fuel []
    · have whole : min size kPacketSize = kPacketSize := by omega
      have amount : min (size : Int) (kPacketSize : Nat) = (kPacketSize : Nat) := by omega
      have chunk : (got.take kPacketSize).length = kPacketSize := by
        rw [List.length_take]
        omega
      have left : (size : Int) - (got.take kPacketSize).length = (size - kPacketSize : Nat) := by
        omega
      have appends : Keeps (delivers input) FileExchange.buf
          (At p (fs.put (key p) (.file done)) log) (onFiles (.writeOut p (got.take kPacketSize))) ()
          (At p (fs.put (key p) (.file (done ++ got.take kPacketSize))) log) :=
        keeps_onFiles (by simp [fileCall, writeOut_put named])
      have next := @ih (got.drop kPacketSize) (done ++ got.take kPacketSize) (size - kPacketSize)
        (by rw [List.length_drop]; omega) (by rw [List.length_drop]; omega)
      rw [List.append_assoc, List.take_append_drop, ← left] at next
      have first : Reads input FileExchange.buf (At p (fs.put (key p) (.file done)) log)
          (onStream (read kPacketSize)) (got.take kPacketSize ++ got.drop kPacketSize)
          (.ok (got.take kPacketSize)) (got.drop kPacketSize)
          (At p (fs.put (key p) (.file done)) log) := reads_of_takes (takes_read chunk) _
      rw [List.take_append_drop] at first
      rw [amount]
      refine reads_bind first ?_
      exact reads_bind (reads_of_keeps appends _) next

attribute [local irreducible] Comp.ensures

theorem reads_receive_part {opened : Fs} {content got : List Byte}
    (opens : openDestination fs p = some (true, opened)) (fits : content.length < 2 ^ 63)
    (short : got.length < content.length) {fuel : Nat} (enough : got.length < fuel) :
    Reads input FileExchange.buf (At p fs log) (receive fuel)
      (1 :: toLittle 8 content.length ++ got) (.error .hang) []
      (Failed p (opened.put (key p) (.file got)) log) := by
  obtain ⟨named, cleared, rfl⟩ := openDestination_opened opens
  have header : Takes (delivers input) id (Files (cleared.put (key p) (.file [])) log)
      (do let swap ← inputArchive; loadWord swap) (1 :: toLittle 8 content.length) content.length
      (Files (cleared.put (key p) (.file [])) log) :=
    takes_bind takes_inputArchive (takes_loadWord (by omega))
  have exact : toInt64 content.length = content.length := if_pos fits
  rw [put_put]
  apply reads_hang
  refine reads_bind (reads_of_keeps keeps_getPath _) ?_
  refine reads_bind (reads_of_keeps (keeps_openDestination opens) _) ?_
  rw [if_pos rfl]
  apply reads_hang
  refine reads_bind (reads_of_takes (takes_onRdbuf header) got) ?_
  rw [exact]
  exact reads_fault (reads_receiveLoop_short named fuel short enough)

end exchange

end DropboxEndOfStream
