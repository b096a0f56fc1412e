import Dropbox.Protocol
import Dropbox.StreamRules

/-!
What FileExchange takes from and puts on a connection that works: each receiving
function takes exactly one encoding, each sending function puts exactly one.
-/
namespace DropboxProtocolRules
open DropboxFileStore DropboxHost DropboxSocketStream DropboxStreamRules DropboxProtocol
open Programs Codec
variable {K : Contract} {A : Type} {fs : Fs} {log : List Event}

section archives
variable {I J : SocketBuffer → World → Prop}

theorem takes_loadBinary {n : Nat} {bytes : List Byte} (size : bytes.length = n) :
    Takes K id (Files fs log) (loadBinary n) bytes bytes (Files fs log) := by
  subst size
  refine takes_then (takes_xsgetn bytes) ?_
  rw [if_pos rfl]
  exact takes_pure bytes fun _ _ => id

theorem takes_inputArchive : Takes K id (Files fs log) inputArchive [1] false (Files fs log) :=
  takes_then (takes_loadBinary rfl) (takes_pure false fun _ _ => id)

theorem takes_loadWord {value : Nat} (fits : value < 2 ^ 64) :
    Takes K id (Files fs log) (loadWord false) (toLittle 8 value) value (Files fs log) := by
  refine takes_then (takes_loadBinary (toLittle_length 8 value)) ?_
  have same : ofLittle (toLittle 8 value) = value := ofLittle_toLittle_of_lt (by simpa using fits)
  simp only [Bool.false_eq_true, if_false, same]
  exact takes_pure value fun _ _ => id

theorem takes_loadString {text : List Byte} (fits : text.length < 2 ^ 63) :
    Takes K id (Files fs log) (loadString false) (lengthPrefixed 8 text) text (Files fs log) := by
  refine takes_bind (takes_loadWord (by omega)) ?_
  rw [if_pos fits]
  exact takes_loadBinary rfl

theorem puts_saveBinary (bytes : List Byte) :
    Puts K id (Files fs log) (saveBinary bytes) bytes () (Files fs log) := by
  refine puts_then (puts_xsputn bytes) ?_
  rw [if_pos rfl]
  exact puts_pure () fun _ _ => id

theorem puts_saveString (text : List Byte) :
    Puts K id (Files fs log) (saveString text) (lengthPrefixed 8 text) () (Files fs log) :=
  puts_bind (puts_saveBinary _) (puts_saveBinary _)

end archives

/-- The stream has not failed; path_, the files and the log have these values. -/
def At (path : Path) (fs : Fs) (log : List Event) (fe : FileExchange) (w : World) : Prop :=
  fe.stream.good = true ∧ fe.path = path ∧ w.fs = fs ∧ w.log = log

/-- The same with any path_. -/
def Somewhere (fs : Fs) (log : List Event) (fe : FileExchange) (w : World) : Prop :=
  ∃ p, At p fs log fe w

variable {p : Path}

theorem ensures_onRdbuf {G : Type} {e : Env Sys Sys.Reply G} {x : Io SocketBuffer A}
    {Q : Except Fault A → FileExchange → G → Prop} {fe : FileExchange} {g : G} :
    Comp.ensures e (onRdbuf x) Q fe g ↔ Comp.ensures e x
      (fun r b h => Q r { fe with stream := { fe.stream with buf := b } } h) fe.buf g := by
  rw [onRdbuf, onStream, Comp.ensures_zoom, ensures_rdbuf]
  rfl

theorem takes_onRdbuf {x : Io SocketBuffer A} {bytes : List Byte} {a : A}
    (loads : Takes K id (Files fs log) x bytes a (Files fs log)) :
    Takes K FileExchange.buf (At p fs log) (onRdbuf x) bytes a (At p fs log) := by
  intro taken written rest fe w here linked input asks
  rw [ensures_onRdbuf]
  apply Comp.ensures_mono (loads here.2.2 linked input asks)
  rintro r b v ⟨rfl, files, linked'⟩
  exact ⟨rfl, ⟨here.1, here.2.1, files⟩, linked'⟩

theorem puts_onRdbuf {x : Io SocketBuffer A} {bytes : List Byte} {a : A}
    (saves : Puts K id (Files fs log) x bytes a (Files fs log)) :
    Puts K FileExchange.buf (At p fs log) (onRdbuf x) bytes a (At p fs log) := by
  intro taken written fe w here linked exhausted may
  rw [ensures_onRdbuf]
  apply Comp.ensures_mono (saves here.2.2 linked exhausted may)
  rintro r b v ⟨rfl, files, rest⟩
  exact ⟨rfl, ⟨here.1, here.2.1, files⟩, rest⟩

theorem keeps_getPath :
    Keeps K FileExchange.buf (At p fs log) getPath p (At p fs log) := by
  intro fe w here
  exact ⟨congrArg Except.ok here.2.1, here, rfl, rfl, rfl⟩

theorem keeps_setPath (q : Path) :
    Keeps K FileExchange.buf (At p fs log) (setPath q) () (At q fs log) := by
  intro fe w here
  exact ⟨rfl, ⟨here.1, rfl, here.2.2⟩, rfl, rfl, rfl⟩

theorem keeps_setPath_somewhere (q : Path) :
    Keeps K FileExchange.buf (Somewhere fs log) (setPath q) () (At q fs log) :=
  fun _ _ ⟨_, here⟩ => keeps_setPath q here

theorem keeps_onFiles {c : FileCall} {reply : c.Reply} {after : Fs}
    (same : fileCall fs c = (reply, after)) :
    Keeps K FileExchange.buf (At p fs log) (onFiles c) reply (At p after log) := by
  rintro fe w ⟨good, path, rfl, logged⟩
  rw [ensures_onFiles, same]
  exact ⟨rfl, ⟨good, path, rfl, logged⟩, rfl, rfl, rfl⟩

theorem keeps_orThrow {x : Io FileExchange (Option A)} {a : A} {after : Fs}
    (answered : Keeps K FileExchange.buf (At p fs log) x (some a) (At p after log)) :
    Keeps K FileExchange.buf (At p fs log) (orThrow x) a (At p after log) :=
  keeps_bind answered (keeps_pure a)

theorem takes_receiveCommand (c : Command) :
    Takes K FileExchange.buf (At p fs log) receiveCommand (encodeCommand c) (.ok (some c))
      (At p fs log) := by
  refine takes_tryCatch ?_
  have loads : Takes K id (Files fs log) (do let _ ← inputArchive; loadBinary 1)
      (encodeCommand c) [c.toByte] (Files fs log) :=
    takes_bind takes_inputArchive (takes_loadBinary rfl)
  refine takes_then (takes_onRdbuf loads) ?_
  simp only [List.headD_cons, Command.ofByte_toByte]
  exact takes_pure _ fun _ _ => id

theorem puts_sendCommand (c : Command) :
    Puts K FileExchange.buf (At p fs log) (sendCommand c) (encodeCommand c) () (At p fs log) := by
  refine puts_tryCatch ?_
  apply puts_onRdbuf
  exact puts_bind (puts_saveBinary [1]) (puts_saveBinary [c.toByte])

theorem takes_receivePath {text : Path} (fits : text.length < 2 ^ 63) :
    Takes K FileExchange.buf (At p fs log) receivePath (encodeString text) true
      (At text fs log) := by
  refine takes_tryCatch ?_
  have loads : Takes K id (Files fs log) (do let swap ← inputArchive; loadString swap)
      (encodeString text) text (Files fs log) :=
    takes_bind takes_inputArchive (takes_loadString fits)
  refine takes_then (takes_onRdbuf loads) ?_
  exact takes_of_keeps (keeps_bind (keeps_setPath text) (keeps_pure true))

theorem puts_sendPath :
    Puts K FileExchange.buf (At p fs log) sendPath (encodePath p) true (At p fs log) := by
  refine puts_tryCatch ?_
  refine puts_after keeps_getPath ?_
  have saves : Puts K id (Files fs log) (do outputArchive; saveString (genericString p))
      (encodePath p) () (Files fs log) :=
    puts_bind (puts_saveBinary [1]) (puts_saveString _)
  exact puts_then (puts_onRdbuf saves) (puts_pure true fun _ _ => id)

theorem puts_write (bytes : List Byte) :
    Puts K FileExchange.buf (At p fs log) (onStream (write bytes)) bytes () (At p fs log) := by
  intro taken written fe w here linked exhausted may
  replace linked : Linked K taken written fe.stream.buf w := linked
  have order : ¬ fe.stream.buf.gptr < fe.stream.buf.egptr := (unread_eq_nil_iff linked).mp exhausted
  have get := linked.get
  rw [onStream, Comp.ensures_zoom]
  apply Comp.ensures_mono (ensures_write bytes here.1 linked (spares_of_exhausted (by omega) _)
    (fun ready => absurd ready order) may)
  rintro r s v ⟨rfl, good, now, sameGet, sameEnd, noted⟩
  refine ⟨rfl, ⟨good, here.2.1, noted.1.trans here.2.2.1, (noted.2.2 (by omega)).trans here.2.2.2⟩,
    now, ?_, noted.2.1⟩
  apply (unread_eq_nil_iff now).mpr
  rwa [sameGet, sameEnd]

theorem takes_read {n : Nat} {bytes : List Byte} (size : bytes.length = n) :
    Takes K FileExchange.buf (At p fs log) (onStream (read n)) bytes bytes (At p fs log) := by
  subst size
  intro taken written rest fe w here linked input asks
  rw [onStream, Comp.ensures_zoom]
  apply Comp.ensures_mono (ensures_read _ linked (asking input asks))
  rintro r s v ⟨quiet, got, rfl, fits, now, whole, short, _⟩
  obtain rfl := got_all now input fits fun less => ⟨(short here.1 less).1, (short here.1 less).2.1⟩
  exact ⟨rfl, ⟨whole here.1 rfl, here.2.1, quiet.1.trans here.2.2.1, quiet.2.trans here.2.2.2⟩, now⟩

/-- The loop of Send puts the rest of the file. -/
theorem puts_sendLoop {content : List Byte} (held : fs.stat p = some (.file content)) (fuel : Nat)
    {pos : Nat} (enough : content.length - pos < fuel) :
    Puts K FileExchange.buf (At p fs log) (sendLoop p fuel pos) (content.drop pos) ()
      (At p fs log) := by
  induction fuel generalizing pos with
  | zero => omega
  | succ fuel ih =>
    let chunk := (content.drop pos).take kPacketSize
    have reads : Keeps K FileExchange.buf (At p fs log) (onFiles (.readIn p pos kPacketSize))
        (some chunk) (At p fs log) := keeps_onFiles (by simp [fileCall, readIn, held, chunk])
    rw [sendLoop]
    refine puts_after reads ?_
    have size : chunk.length = min kPacketSize (content.length - pos) := by simp [chunk]
    by_cases last : chunk.length < kPacketSize
    · have all : chunk = content.drop pos := by
        apply List.take_of_length_le
        simp only [List.length_drop]
        omega
      rw [← all]
      refine puts_then (puts_write chunk) ?_
      rw [if_pos last]
      exact puts_pure () fun _ _ => id
    · have full : chunk.length = kPacketSize := by omega
      have split : content.drop pos = chunk ++ content.drop (pos + chunk.length) := by
        rw [full, ← List.drop_drop]
        exact (List.take_append_drop ..).symm
      rw [split]
      refine puts_bind (puts_write chunk) ?_
      rw [if_neg last]
      have positive : 0 < kPacketSize := by decide
      exact ih (by omega)

theorem puts_send {content : List Byte} (holds : readable fs p = some content) {fuel : Nat}
    (enough : content.length < fuel) :
    Puts K FileExchange.buf (At p fs log) (send fuel) (encodeFile content) true (At p fs log) := by
  obtain ⟨opens, size, held, fits⟩ := readable_eq_some holds
  have opening : Keeps K FileExchange.buf (At p fs log) (onFiles (.openIn p)) true (At p fs log) :=
    keeps_onFiles (by simp [fileCall, opens])
  have sizing : Keeps K FileExchange.buf (At p fs log) (orThrow (onFiles (.fileSize p)))
      content.length (At p fs log) := keeps_orThrow (keeps_onFiles (by simp [fileCall, size]))
  have header : Puts K id (Files fs log)
      (do outputArchive; saveBinary (toLittle 8 content.length))
      (1 :: toLittle 8 content.length) () (Files fs log) :=
    puts_bind (puts_saveBinary [1]) (puts_saveBinary _)
  refine puts_after keeps_getPath ?_
  refine puts_after opening ?_
  rw [if_pos rfl]
  refine puts_tryCatch ?_
  refine puts_after sizing ?_
  refine puts_bind (puts_onRdbuf header) ?_
  exact puts_then (puts_sendLoop held fuel (by omega)) (puts_pure true fun _ _ => id)

/-- A file that cannot be opened or measured leaves no trace on the stream. -/
theorem puts_send_failed (fails : readable fs p = none) (fuel : Nat) :
    Puts K FileExchange.buf (At p fs log) (send fuel) [] false (At p fs log) := by
  refine puts_after keeps_getPath ?_
  by_cases opens : openIn fs p
  · have unsized := (readable_eq_none fails).resolve_left (by simp [opens])
    have opening : Keeps K FileExchange.buf (At p fs log) (onFiles (.openIn p)) true
        (At p fs log) := keeps_onFiles (by simp [fileCall, opens])
    refine puts_after opening ?_
    rw [if_pos rfl]
    apply puts_catch (f := .filesystem) rfl _ (puts_pure false fun _ _ => id)
    rintro taken written fe w ⟨good, path, rfl, logged⟩ linked exhausted _
    rw [Comp.ensures_bind, orThrow, Comp.ensures_bind, ensures_onFiles]
    simp only [fileCall, unsized]
    exact ⟨rfl, ⟨good, path, rfl, logged⟩, by simpa using linked, exhausted, rfl⟩
  · have opening : Keeps K FileExchange.buf (At p fs log) (onFiles (.openIn p)) false
        (At p fs log) := keeps_onFiles (by simp [fileCall, opens])
    exact puts_after opening (puts_pure false fun _ _ => id)

/-- The loop of Receive appends the rest of the content to the file. -/
theorem takes_receiveLoop (named : (key p).names ≠ []) (fuel : Nat) {content : List Byte}
    (enough : content.length < fuel) {opened : Fs} {done : List Byte} :
    Takes K FileExchange.buf (At p (opened.put (key p) (.file done)) log)
      (receiveLoop p fuel content.length) content ()
      (At p (opened.put (key p) (.file (done ++ content))) log) := by
  induction fuel generalizing content done with
  | zero => omega
  | succ fuel ih =>
    rw [receiveLoop]
    by_cases finished : content = []
    · subst finished
      rw [List.length_nil, Int.natCast_zero, if_pos rfl, List.append_nil]
      exact takes_pure () fun _ _ => id
    · have some : 0 < content.length := List.length_pos_iff.mpr finished
      have big : 0 < kPacketSize := by decide
      let chunk := content.take kPacketSize
      have size : chunk.length = min content.length kPacketSize := by
        simp [chunk, Nat.min_comm]
      have amount : min (content.length : Int) (kPacketSize : Nat) = (chunk.length : Nat) := by
        rw [size]
        omega
      have left : (content.length : Int) - (chunk.length : Nat) =
          ((content.drop kPacketSize).length : Nat) := by
        rw [size, List.length_drop]
        omega
      have appends : Keeps K FileExchange.buf (At p (opened.put (key p) (.file done)) log)
          (onFiles (.writeOut p chunk)) ()
          (At p (opened.put (key p) (.file (done ++ chunk))) log) :=
        keeps_onFiles (by simp [fileCall, writeOut_put named])
      have fewer : (content.drop kPacketSize).length < fuel := by
        rw [List.length_drop]
        omega
      have rest := @ih (content.drop kPacketSize) fewer (done ++ chunk)
      have whole : chunk ++ content.drop kPacketSize = content := List.take_append_drop ..
      rw [List.append_assoc, whole, ← left] at rest
      rw [if_neg (by omega), amount]
      have turn : Takes K FileExchange.buf (At p (opened.put (key p) (.file done)) log)
          (onStream (read chunk.length) >>= fun bytes => onFiles (.writeOut p bytes) >>= fun _ =>
            receiveLoop p fuel (content.length - bytes.length))
          (chunk ++ ([] ++ content.drop kPacketSize)) ()
          (At p (opened.put (key p) (.file (done ++ content))) log) := by
        refine takes_bind (takes_read rfl) ?_
        exact takes_bind (takes_of_keeps appends) rest
      rwa [List.nil_append, whole] at turn

/-- The part of Receive that prepares the destination. -/
theorem keeps_openDestination {opened : Fs} {ok : Bool}
    (opens : openDestination fs p = some (ok, opened)) :
    Keeps K FileExchange.buf (At p fs log) (prepare p) ok (At p opened log) := by
  obtain ⟨regular, asked, rest⟩ := Option.bind_eq_some_iff.mp opens
  obtain ⟨cleared, clearing, result⟩ := Option.map_eq_some_iff.mp rest
  have asks : Keeps K FileExchange.buf (At p fs log) (orThrow (onFiles (.isRegularFile p))) regular
      (At p fs log) := keeps_orThrow (keeps_onFiles (by simp [fileCall, asked]))
  have opening : Keeps K FileExchange.buf (At p cleared log) (onFiles (.openOut p)) ok
      (At p opened log) := keeps_onFiles (by simp [fileCall, result])
  refine keeps_bind asks ?_
  cases regular
  · have removing : Keeps K FileExchange.buf (At p fs log) (orThrow (onFiles (.removeAll p))) ()
        (At p cleared log) := by
      have cleared : removeAll fs p = some cleared := by simpa using clearing
      exact keeps_orThrow (keeps_onFiles (by simp [fileCall, cleared, orSame]))
    exact keeps_bind removing opening
  · obtain rfl : fs = cleared := by simpa using clearing
    exact opening

theorem takes_receive {content : List Byte} {after : Fs}
    (stores : storeFile fs p content = some after) (fits : content.length < 2 ^ 63) {fuel : Nat}
    (enough : content.length < fuel) :
    Takes K FileExchange.buf (At p fs log) (receive fuel) (encodeFile content) true
      (At p after log) := by
  obtain ⟨opened, opens, rfl⟩ := storeFile_eq_some stores
  obtain ⟨named, cleared, rfl⟩ := openDestination_opened opens
  have header : Takes K id (Files (cleared.put (key p) (.file [])) log)
      (do let swap ← inputArchive; loadWord swap) (1 :: toLittle 8 content.length) content.length
      (Files (cleared.put (key p) (.file [])) log) :=
    takes_bind takes_inputArchive (takes_loadWord (by omega))
  have exact : toInt64 content.length = content.length := if_pos fits
  refine takes_tryCatch ?_
  refine takes_after keeps_getPath ?_
  refine takes_after (keeps_openDestination opens) ?_
  rw [if_pos rfl]
  refine takes_tryCatch ?_
  refine takes_bind (takes_onRdbuf header) ?_
  rw [exact]
  rw [put_put]
  exact takes_then (takes_receiveLoop named fuel enough) (takes_pure true fun _ _ => id)

theorem ensures_flushExchange {taken written : List Byte} {fe : FileExchange} {w : World}
    (here : At p fs log fe w) (linked : Linked K taken written fe.buf w)
    (may : K.sending w.rcvd written) :
    Comp.ensures K.env flushExchange (fun r k v => r = .ok () ∧ At p fs log k v ∧
      Linked K taken written k.buf v ∧ k.buf.unread = fe.buf.unread ∧
      v = { w with sent := written }) fe w := by
  rw [flushExchange, onStream, Comp.ensures_zoom]
  apply Comp.ensures_mono (ensures_flush here.1 linked may)
  rintro r s v ⟨rfl, good, now, same, rfl⟩
  exact ⟨rfl, ⟨good, here.2.1, here.2.2⟩, now, same, rfl⟩

theorem puts_flushExchange :
    Puts K FileExchange.buf (At p fs log) flushExchange [] () (At p fs log) := by
  intro taken written fe w here linked exhausted may
  apply Comp.ensures_mono (ensures_flushExchange here linked (by simpa using may [] (by simp)))
  rintro r k v ⟨rfl, there, linked', same, rfl⟩
  exact ⟨rfl, there, by simpa using linked', same.trans exhausted, rfl⟩

/-- What Send puts on the stream: nothing when the file cannot be opened or measured. -/
def sentFile (fs : Fs) (p : Path) : List Byte := ((readable fs p).map encodeFile).getD []

theorem puts_sentFile {fuel : Nat}
    (enough : ∀ content, readable fs p = some content → content.length < fuel) :
    Puts K FileExchange.buf (At p fs log) (send fuel) (sentFile fs p) (readable fs p).isSome
      (At p fs log) := by
  cases holds : readable fs p with
  | none =>
    have nothing : sentFile fs p = [] := by simp [sentFile, holds]
    rw [nothing]
    exact puts_send_failed holds fuel
  | some content =>
    have whole : sentFile fs p = encodeFile content := by simp [sentFile, holds]
    rw [whole]
    exact puts_send holds (enough content holds)

theorem live_fresh {m : Machine} (mem : Nat → Byte) (p : Path) (sound : m.Sound)
    (nothing : m.world.rcvd = []) (silent : m.world.sent = []) :
    Live m.coming FileExchange.buf [] [] (FileExchange.fresh mem p) m where
  sound := sound
  whole := by rw [nothing, List.nil_append]
  linked := ⟨Nat.le_refl _, Nat.zero_le _, Nat.zero_le _, nothing, by
    simp [FileExchange.fresh, FileExchange.buf, SocketStream.fresh, SocketBuffer.fresh,
      SocketBuffer.pending, silent], by simp [delivers, nothing]⟩

theorem fresh_somewhere (mem : Nat → Byte) (p : Path) (w : World) :
    Somewhere w.fs w.log (FileExchange.fresh mem p) w := ⟨p, rfl, rfl, rfl, rfl⟩

end DropboxProtocolRules
