import Dropbox.General.Calls
import Dropbox.Protocol

/-!
The calls that the functions of the stream and of FileExchange make, for every reply:
reads and writes of the connection, and of the files only what is done at path_.
-/
namespace DropboxStreamCalls
open Calls Programs DropboxFileStore DropboxHost DropboxSocketStream DropboxProtocol
variable {P : Sys → Prop} {L A : Type}

/-- The calls on the connection are among them. -/
structure Wire (P : Sys → Prop) : Prop where
  recv : ∀ n, P (.recv n)
  send : ∀ bytes, P (.send bytes)

/-- All calls that do not touch files are. -/
structure Network (P : Sys → Prop) : Prop extends Wire P where
  note : ∀ e, P (.note e)

/-- The calls Send makes for a path. -/
structure Reads (P : Sys → Prop) (p : Path) : Prop where
  openIn : P (.file (.openIn p))
  fileSize : P (.file (.fileSize p))
  readIn : ∀ pos n, P (.file (.readIn p pos n))

/-- The calls Receive makes for a path. -/
structure Writes (P : Sys → Prop) (p : Path) : Prop where
  isRegularFile : P (.file (.isRegularFile p))
  removeAll : P (.file (.removeAll p))
  openOut : P (.file (.openOut p))
  writeOut : ∀ bytes, P (.file (.writeOut p bytes))

theorem makes_tryCatch {x : Io L A} {handler : Fault → Io L A} (tried : Makes P x)
    (handled : ∀ f, Makes P (handler f)) : Makes P (DropboxHost.tryCatch x handler) := by
  refine makes_catching tried fun f => ?_
  split
  · exact handled f
  · exact makes_throw f

theorem makes_noexcept {x : Io L A} (tried : Makes P x) : Makes P (noexcept x) :=
  makes_tryCatch tried fun _ => makes_throw _

/-- No exception leaves it, and it makes no other calls. -/
theorem noexcept_faults {x : Io L A} (tried : Makes P x) (l : L) :
    Comp.ensures (allows P) (noexcept x)
      (fun r _ _ => ∀ f, r = .error f → f.isException = false) l () := by
  unfold noexcept
  rw [ensures_tryCatch]
  refine Comp.ensures_mono (tried l) fun r k _ _ => ?_
  cases r with
  | ok a =>
    intro f failed
    cases failed
  | error f =>
    show if f.isException then _ else _
    split
    · intro g failed
      cases failed
      rfl
    · rename_i fault
      intro g failed
      cases failed
      simpa using fault

theorem makes_orThrow {x : Io L (Option A)} (asked : Makes P x) : Makes P (orThrow x) := by
  refine makes_bind asked fun r => ?_
  cases r with
  | none => exact makes_throw _
  | some a => exact makes_pure a

section Wire
variable (wire : Wire P)
include wire

theorem makes_sync : Makes P sync := by
  refine makes_bind ?_ fun total => ?_
  · exact makes_bind makes_get fun _ => makes_call (wire.send _)
  · cases total with
    | none => exact makes_pure _
    | some n => exact makes_bind (makes_modify _) fun _ => makes_pure _

theorem makes_sbumpc : Makes P sbumpc := by
  have fills : Makes P underflow := by
    refine makes_bind makes_get fun b => ?_
    split
    · exact makes_pure _
    · refine makes_bind (makes_sync wire) fun _ => ?_
      refine makes_bind (makes_call (wire.recv _)) fun r => ?_
      rcases r with _ | (_ | ⟨first, rest⟩)
      · exact makes_throw _
      · exact makes_pure _
      · exact makes_bind (makes_modify _) fun _ => makes_pure _
  refine makes_bind fills fun r => ?_
  cases r with
  | none => exact makes_pure _
  | some ch => exact makes_bind (makes_modify _) fun _ => makes_pure _

theorem makes_xsgetn (n : Nat) : Makes P (xsgetn n) := by
  induction n with
  | zero => exact makes_pure _
  | succ n ih =>
    refine makes_bind (makes_sbumpc wire) fun r => ?_
    cases r with
    | none => exact makes_pure _
    | some ch => exact makes_bind ih fun _ => makes_pure _

theorem makes_loadBinary (n : Nat) : Makes P (loadBinary n) := by
  refine makes_bind (makes_xsgetn wire n) fun bytes => ?_
  split
  · exact makes_pure _
  · exact makes_throw _

theorem makes_inputArchive : Makes P inputArchive :=
  makes_bind (makes_loadBinary wire 1) fun _ => makes_pure _

theorem makes_loadWord (swap : Bool) : Makes P (loadWord swap) :=
  makes_bind (makes_loadBinary wire 8) fun _ => makes_pure _

theorem makes_loadString (swap : Bool) : Makes P (loadString swap) := by
  refine makes_bind (makes_loadWord wire swap) fun size => ?_
  split
  · exact makes_loadBinary wire size
  · exact makes_throw _

theorem makes_read (n : Int) : Makes P (read n) := by
  refine makes_bind makes_get fun s => ?_
  split
  · refine makes_tryCatch ?_ fun _ => makes_bind (makes_modify _) fun _ => makes_pure _
    refine makes_bind (makes_zoom (makes_xsgetn wire _)) fun bytes => ?_
    split
    · exact makes_pure _
    · exact makes_bind (makes_modify _) fun _ => makes_pure _
  · exact makes_bind (makes_modify _) fun _ => makes_pure _

theorem makes_flush : Makes P flush := by
  refine makes_bind makes_get fun s => ?_
  split
  · refine makes_bind (makes_zoom (makes_sync wire)) fun r => ?_
    split
    · exact makes_pure _
    · exact makes_modify _
  · exact makes_pure _

end Wire

section Stream
variable (network : Network P)
include network

theorem makes_store (ch : Byte) : Makes P (store ch) := by
  refine makes_bind makes_get fun b => ?_
  dsimp only
  split
  · exact makes_bind (makes_call (network.note _)) fun _ => makes_modify _
  · exact makes_modify _

theorem makes_sputc (ch : Byte) : Makes P (sputc ch) := by
  refine makes_bind makes_get fun b => ?_
  split
  · exact makes_bind (makes_store network ch) fun _ => makes_pure _
  · refine makes_bind ?_ fun _ => makes_pure _
    refine makes_bind (makes_store network ch) fun _ => ?_
    refine makes_bind (makes_sync network.toWire) fun r => ?_
    split
    · exact makes_pure _
    · exact makes_pure _

theorem makes_xsputc (ch : Byte) : Makes P (xsputc ch) := by
  refine makes_bind makes_get fun b => ?_
  dsimp only
  split
  · exact makes_bind (makes_call (network.note _)) fun _ => makes_sputc network ch
  · exact makes_sputc network ch

theorem makes_xsputn (bytes : List Byte) : Makes P (xsputn bytes) := by
  induction bytes with
  | nil => exact makes_pure _
  | cons ch rest ih =>
    refine makes_bind (makes_xsputc network ch) fun r => ?_
    split
    · exact makes_bind ih fun _ => makes_pure _
    · exact makes_pure _

theorem makes_saveBinary (bytes : List Byte) : Makes P (saveBinary bytes) := by
  refine makes_bind (makes_xsputn network bytes) fun n => ?_
  split
  · exact makes_pure _
  · exact makes_throw _

theorem makes_outputArchive : Makes P outputArchive := makes_saveBinary network [1]

theorem makes_saveString (text : List Byte) : Makes P (saveString text) :=
  makes_bind (makes_saveBinary network _) fun _ => makes_saveBinary network _

theorem makes_write (bytes : List Byte) : Makes P (write bytes) := by
  refine makes_bind makes_get fun s => ?_
  split
  · refine makes_bind (makes_zoom (makes_xsputn network bytes)) fun n => ?_
    split
    · exact makes_pure _
    · exact makes_modify _
  · exact makes_pure _

end Stream

theorem makes_onStream {x : Io SocketStream A} (inner : Makes P x) : Makes P (onStream x) := by
  unfold onStream
  exact makes_zoom inner

theorem makes_onRdbuf {x : Io SocketBuffer A} (inner : Makes P x) : Makes P (onRdbuf x) := by
  refine makes_onStream ?_
  unfold rdbuf
  exact makes_zoom inner

theorem makes_getPath : Makes P getPath := makes_bind makes_get fun _ => makes_pure _

-- From here on the rules alone take a computation apart.
attribute [local irreducible] Makes

section Exchange
variable (wire : Wire P) {p : Path}
include wire

theorem makes_flushExchange : Makes P flushExchange := makes_onStream (makes_flush wire)

theorem makes_receiveCommand : Makes P receiveCommand := by
  refine makes_tryCatch ?_ fun f => ?_
  · refine makes_bind (makes_onRdbuf ?_) fun _ => makes_pure _
    exact makes_bind (makes_inputArchive wire) fun _ => makes_loadBinary wire 1
  · split <;> exact makes_pure _

theorem makes_receivePath : Makes P receivePath := by
  refine makes_tryCatch ?_ fun _ => makes_pure _
  refine makes_bind (makes_onRdbuf ?_) fun text => ?_
  · exact makes_bind (makes_inputArchive wire) fun swap => makes_loadString wire swap
  · exact makes_bind (makes_modify _) fun _ => makes_pure _

theorem makes_receiveLoop (writeOut : ∀ bytes, P (.file (.writeOut p bytes))) (fuel : Nat)
    (remaining : Int) : Makes P (receiveLoop p fuel remaining) := by
  induction fuel generalizing remaining with
  | zero => exact makes_throw _
  | succ fuel ih =>
    rw [receiveLoop]
    split
    · exact makes_pure _
    · refine makes_bind (makes_onStream (makes_read wire _)) fun bytes => ?_
      exact makes_bind (makes_call (writeOut _)) fun _ => ih _

/-- What Receive does once its file is open. -/
theorem makes_content (writeOut : ∀ bytes, P (.file (.writeOut p bytes))) (fuel : Nat) :
    Makes P (DropboxHost.tryCatch (do
      let bits ← onRdbuf do
        let swap ← inputArchive
        loadWord swap
      receiveLoop p fuel (toInt64 bits)
      pure true) fun _ => pure false : Io FileExchange Bool) := by
  refine makes_tryCatch ?_ fun _ => makes_pure _
  refine makes_bind (makes_onRdbuf ?_) fun bits => ?_
  · exact makes_bind (makes_inputArchive wire) fun swap => makes_loadWord wire swap
  · exact makes_bind (makes_receiveLoop wire writeOut fuel _) fun _ => makes_pure _

/-- What Receive does once it has its path. -/
theorem makes_receiveAt (writes : Writes P p) (fuel : Nat) : Makes P (do
    if ← prepare p then
      DropboxHost.tryCatch (do
        let bits ← onRdbuf do
          let swap ← inputArchive
          loadWord swap
        receiveLoop p fuel (toInt64 bits)
        pure true) fun _ => pure false
    else pure false : Io FileExchange Bool) := by
  have prepares : Makes P (prepare p) := by
    refine makes_bind (makes_orThrow (makes_call writes.isRegularFile)) fun regular => ?_
    dsimp only
    split
    · exact makes_call writes.openOut
    · refine makes_bind (makes_orThrow (makes_call writes.removeAll)) fun _ => ?_
      exact makes_call writes.openOut
  refine makes_bind prepares fun opened => ?_
  split
  · exact makes_content wire writes.writeOut fuel
  · exact makes_pure _

theorem makes_receive (writes : ∀ p, Writes P p) (fuel : Nat) : Makes P (receive fuel) :=
  makes_noexcept (makes_bind (makes_getPath) fun path =>
    makes_receiveAt wire (writes path) fuel)

end Exchange

section Sending
variable (network : Network P) {p : Path}
include network

theorem makes_sendCommand (c : Command) : Makes P (sendCommand c) :=
  makes_noexcept (makes_onRdbuf
    (makes_bind (makes_outputArchive network) fun _ => makes_saveBinary network _))

theorem makes_sendPath : Makes P sendPath := by
  refine makes_tryCatch ?_ fun _ => makes_pure _
  refine makes_bind (makes_getPath) fun path => ?_
  refine makes_bind (makes_onRdbuf ?_) fun _ => makes_pure _
  exact makes_bind (makes_outputArchive network) fun _ => makes_saveString network _

theorem makes_sendLoop (reads : Reads P p) (fuel pos : Nat) : Makes P (sendLoop p fuel pos) := by
  induction fuel generalizing pos with
  | zero => exact makes_throw _
  | succ fuel ih =>
    refine makes_bind (makes_call (reads.readIn _ _)) fun r => ?_
    cases r with
    | none => exact makes_bind (makes_onStream (makes_write network _)) fun _ => ih pos
    | some bytes =>
      refine makes_bind (makes_onStream (makes_write network _)) fun _ => ?_
      split
      · exact makes_pure _
      · exact ih _

/-- Send with the calls for the path it finds. -/
theorem makes_send (reads : ∀ p, Reads P p) (fuel : Nat) : Makes P (send fuel) := by
  refine makes_bind (makes_getPath) fun path => ?_
  refine makes_bind (makes_call (reads path).openIn) fun opened => ?_
  split
  · refine makes_tryCatch ?_ fun _ => makes_pure _
    refine makes_bind (makes_orThrow (makes_call (reads path).fileSize)) fun size => ?_
    refine makes_bind (makes_onRdbuf ?_) fun _ => ?_
    · exact makes_bind (makes_outputArchive network) fun _ => makes_saveBinary network _
    · exact makes_bind (makes_sendLoop network (reads path) fuel 0) fun _ => makes_pure _
  · exact makes_pure _

end Sending

end DropboxStreamCalls
