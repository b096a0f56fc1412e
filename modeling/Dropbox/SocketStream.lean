import Mathlib.Logic.Function.Basic
import Dropbox.Host

/-!
SocketBuffer and SocketStream: one array serves as get area and as put area.
xsputn and xsgetn are libstdc++'s, a character at a time. overflow stores its
character one past the end of the array before it sends, so the array of the
model has that place too. Specifications are for OS writes that take every byte.
-/
namespace DropboxSocketStream
open DropboxFileStore DropboxHost Programs

def kPacketSize : Nat := 64 * 1024

def kBufferSize : Nat := kPacketSize

/-- eback and pbase are 0, epptr is kBufferSize. -/
structure SocketBuffer where
  buffer : Nat → Byte
  gptr : Nat
  egptr : Nat
  pptr : Nat

def window (mem : Nat → Byte) (start n : Nat) : List Byte := (List.range' start n).map mem

def SocketBuffer.unread (b : SocketBuffer) : List Byte := window b.buffer b.gptr (b.egptr - b.gptr)

def SocketBuffer.pending (b : SocketBuffer) : List Byte := window b.buffer 0 b.pptr

/-- InitializePointers, on an array with any content. -/
def SocketBuffer.fresh (mem : Nat → Byte) : SocketBuffer := ⟨mem, 0, 0, 0⟩

def receiveData : Io SocketBuffer (Option (List Byte)) := osRead kBufferSize

def sendData : Io SocketBuffer (Option Nat) := do
  let b ← Comp.get
  osWrite b.pending

/-- False where the source returns -1. -/
def sync : Io SocketBuffer Bool := do
  match ← sendData with
  | none => pure false
  | some total =>
    Comp.modify fun b => { b with pptr := b.pptr - total }
    pure true

/-- The bytes of a read lie at the beginning of the array. -/
def fill (received : List Byte) (b : SocketBuffer) : SocketBuffer :=
  { b with buffer := fun i => received.getD i (b.buffer i), gptr := 0, egptr := received.length }

/-- `none` is eof. -/
def underflow : Io SocketBuffer (Option Byte) := do
  let b ← Comp.get
  if b.gptr < b.egptr then pure (some (b.buffer b.gptr))
  else
    let _ ← sync
    match ← receiveData with
    | none => Comp.throw .system
    | some [] => pure none
    | some (first :: rest) =>
      Comp.modify (fill (first :: rest))
      pure (some first)

/-- `*pptr() = ch; pbump(1)` -/
def SocketBuffer.stored (ch : Byte) (b : SocketBuffer) : SocketBuffer :=
  { b with buffer := Function.update b.buffer b.pptr ch, pptr := b.pptr + 1 }

/-- The note is not in the source; it marks that the get area still held input. -/
def store (ch : Byte) : Io SocketBuffer Unit := do
  let b ← Comp.get
  if b.gptr < b.egptr then note .overUnread else pure ()
  Comp.modify (SocketBuffer.stored ch)

/-- The argument and the result `none` are eof. -/
def overflow (ch : Option Byte) : Io SocketBuffer (Option Byte) := do
  match ch with
  | some c => store c
  | none => pure ()
  if ← sync then pure ch else pure none

/-- False where the source returns eof. -/
def sputc (ch : Byte) : Io SocketBuffer Bool := do
  let b ← Comp.get
  if b.pptr < kBufferSize then
    store ch
    pure true
  else
    let r ← overflow (some ch)
    pure r.isSome

/-- A character of xsputn. libstdc++ copies as many as there is room for, and past the end of the
    area that is a negative number: the process ends. The note marks that, and what the model does
    after it is nothing that the source does. -/
def xsputc (ch : Byte) : Io SocketBuffer Bool := do
  let b ← Comp.get
  if kBufferSize < b.pptr then note .overrun else pure ()
  sputc ch

/-- The number of characters written. -/
def xsputn : List Byte → Io SocketBuffer Nat
  | [] => pure 0
  | ch :: rest => do
    if ← xsputc ch then
      let n ← xsputn rest
      pure (n + 1)
    else pure 0

/-- A character from the get area, or from uflow when there is none. -/
def sbumpc : Io SocketBuffer (Option Byte) := do
  match ← underflow with
  | none => pure none
  | some ch =>
    Comp.modify fun b => { b with gptr := b.gptr + 1 }
    pure (some ch)

def xsgetn : Nat → Io SocketBuffer (List Byte)
  | 0 => pure []
  | n + 1 => do
    match ← sbumpc with
    | none => pure []
    | some ch =>
      let more ← xsgetn n
      pure (ch :: more)

/-- A basic_iostream over the buffer, with its iostate. -/
structure SocketStream where
  buf : SocketBuffer
  eofbit : Bool
  failbit : Bool
  badbit : Bool

def SocketStream.good (s : SocketStream) : Bool := !s.eofbit && !s.failbit && !s.badbit

def SocketStream.fresh (mem : Nat → Byte) : SocketStream := ⟨.fresh mem, false, false, false⟩

def rdbuf {A : Type} (x : Io SocketBuffer A) : Io SocketStream A :=
  x.zoom SocketStream.buf fun b s => { s with buf := b }

/-- istream::read; the result are the gcount characters. An exception of the buffer sets badbit. -/
def read (n : Int) : Io SocketStream (List Byte) := do
  let s ← Comp.get
  if s.good then
    tryCatch (do
      let bytes ← rdbuf (xsgetn n.toNat)
      if bytes.length = n then pure bytes
      else
        Comp.modify fun s => { s with eofbit := true, failbit := true }
        pure bytes) fun _ => do
      Comp.modify fun s => { s with badbit := true }
      pure []
  else
    Comp.modify fun s => { s with failbit := true }
    pure []

def write (bytes : List Byte) : Io SocketStream Unit := do
  let s ← Comp.get
  if s.good then
    let n ← rdbuf (xsputn bytes)
    if n = bytes.length then pure () else Comp.modify fun s => { s with badbit := true }
  else pure ()

def flush : Io SocketStream Unit := do
  let s ← Comp.get
  if s.good then
    if ← rdbuf sync then pure () else Comp.modify fun s => { s with badbit := true }
  else pure ()

theorem window_succ (mem : Nat → Byte) (start n : Nat) :
    window mem start (n + 1) = mem start :: window mem (start + 1) n := by
  simp [window, List.range'_succ]

theorem window_concat (mem : Nat → Byte) (start n : Nat) :
    window mem start (n + 1) = window mem start n ++ [mem (start + n)] := by
  simp [window, List.range'_1_concat]

@[simp] theorem window_zero (mem : Nat → Byte) (start : Nat) : window mem start 0 = [] := rfl

@[simp] theorem window_length (mem : Nat → Byte) (start n : Nat) :
    (window mem start n).length = n := by simp [window]

theorem window_update {mem : Nat → Byte} {start n i : Nat} {ch : Byte}
    (outside : i < start ∨ start + n ≤ i) :
    window (Function.update mem i ch) start n = window mem start n := by
  apply List.map_congr_left
  intro j member
  have range := List.mem_range'_1.mp member
  exact Function.update_of_ne (by omega) ..

theorem window_fill (received : List Byte) (b : SocketBuffer) :
    window (fill received b).buffer 0 received.length = received := by
  apply List.ext_getElem
  · simp
  · intro i inside same
    simp [window, fill, same]

/-- The input taken so far and the rest of the get area are what has been received, and the
    output sent and the put area are what has been written. -/
structure Linked (K : Contract) (taken written : List Byte) (b : SocketBuffer) (w : World) : Prop where
  get : b.gptr ≤ b.egptr
  array : b.egptr ≤ kBufferSize
  put : b.pptr ≤ kBufferSize
  received : w.rcvd = taken ++ b.unread
  produced : written = w.sent ++ b.pending
  arrived : K.arrived w.rcvd w.sent

/-- What the owner of the stream owes when it reads on: everything is sent, then it waits. -/
def AsksIn (K : Contract) (fs : Fs) (log : List Event) (taken written : List Byte) : Prop :=
  K.waiting fs log taken written ∧ K.sending taken written

/-- The same, whatever the files and the log are then. -/
def Asks (K : Contract) (taken written : List Byte) : Prop :=
  ∀ fs log, AsksIn K fs log taken written

theorem delivers_asks (input taken written : List Byte) : Asks (delivers input) taken written :=
  fun _ _ => ⟨trivial, trivial⟩

/-- Files and log are as they were. -/
def Quiet (before after : World) : Prop := after.fs = before.fs ∧ after.log = before.log

theorem quiet_refl (w : World) : Quiet w w := ⟨rfl, rfl⟩

theorem quiet_trans {u v w : World} (first : Quiet u v) (second : Quiet v w) : Quiet u w :=
  ⟨second.1.trans first.1, second.2.trans first.2⟩

variable {K : Contract} {taken written : List Byte} {b : SocketBuffer} {w : World}

theorem ensures_sync (produced : written = w.sent ++ b.pending) (may : K.sending w.rcvd written) :
    Comp.ensures K.env sync (fun r c v => r = .ok true ∧ c = { b with pptr := 0 } ∧
      v = { w with sent := written }) b w := by
  have size : b.pending.length = b.pptr := window_length ..
  simp only [sync, sendData, Comp.ensures_bind, Comp.ensures_get, Comp.either_ok, ensures_osWrite,
    Comp.ensures_modify, Comp.ensures_pure, size, ← produced, Nat.sub_self, and_self, and_true]
  exact may

theorem linked_synced (linked : Linked K taken written b w) :
    Linked K taken written { b with pptr := 0 } { w with sent := written } where
  get := linked.get
  array := linked.array
  put := Nat.zero_le _
  received := linked.received
  produced := by simp [SocketBuffer.pending]
  arrived := by
    rw [linked.produced]
    exact K.arrived_mono _ linked.arrived

theorem unread_eq_nil_iff (linked : Linked K taken written b w) :
    b.unread = [] ↔ ¬ b.gptr < b.egptr := by
  have order := linked.get
  rw [← List.length_eq_zero_iff, SocketBuffer.unread, window_length]
  omega

theorem linked_fill {received : List Byte} (linked : Linked K taken written b w)
    (exhausted : b.unread = []) (sent : b.pptr = 0) (fits : received.length ≤ kBufferSize)
    (comes : K.arrived (w.rcvd ++ received) w.sent) :
    Linked K taken written (fill received b) { w with rcvd := w.rcvd ++ received } where
  get := Nat.zero_le _
  array := fits
  put := linked.put
  received := by
    have same := linked.received
    rw [exhausted, List.append_nil] at same
    have area : (fill received b).unread = received := window_fill received b
    simp only [same, area]
  produced := by
    have same := linked.produced
    simpa [SocketBuffer.pending, fill, sent] using same
  arrived := comes

theorem ensures_underflow (linked : Linked K taken written b w)
    (asks : b.unread = [] → AsksIn K w.fs w.log taken written) :
    Comp.ensures K.env underflow (fun r c v => Quiet w v ∧ Linked K taken written c v ∧
      ((c.gptr < c.egptr ∧ r = .ok (some (c.buffer c.gptr))) ∨
       (c.unread = [] ∧ r = .ok none ∧ K.ended v.rcvd))) b w := by
  simp only [underflow, Comp.ensures_bind, Comp.ensures_get, Comp.either_ok]
  by_cases ready : b.gptr < b.egptr
  · rw [if_pos ready]
    exact ⟨quiet_refl w, linked, .inl ⟨ready, rfl⟩⟩
  · rw [if_neg ready]
    have exhausted := (unread_eq_nil_iff linked).mpr ready
    obtain ⟨waits, sends⟩ := asks exhausted
    have whole : w.rcvd = taken := by simpa [exhausted] using linked.received
    rw [Comp.ensures_bind]
    apply Comp.ensures_mono (ensures_sync linked.produced (whole ▸ sends))
    rintro r c v ⟨rfl, rfl, rfl⟩
    have synced := linked_synced linked
    have still : ({ b with pptr := 0 } : SocketBuffer).unread = [] := exhausted
    simp only [Comp.either_ok, Comp.ensures_bind, receiveData, ensures_osRead]
    refine ⟨whole ▸ waits, ?_⟩
    intro bytes fits comes ended
    cases bytes with
    | nil =>
      have finished : K.ended w.rcvd := (ended rfl).resolve_left (by decide)
      simp only [Comp.ensures_pure, List.append_nil]
      refine ⟨⟨rfl, rfl⟩, synced, .inr ⟨still, ?_⟩⟩
      exact ⟨trivial, finished⟩
    | cons first rest =>
      simp only [Comp.either_ok, Comp.ensures_bind, Comp.ensures_modify, Comp.ensures_pure]
      exact ⟨⟨rfl, rfl⟩, linked_fill synced still rfl fits comes, .inl ⟨Nat.succ_pos _, rfl⟩⟩

theorem linked_gbump (linked : Linked K taken written b w) (ready : b.gptr < b.egptr) :
    Linked K (taken ++ [b.buffer b.gptr]) written { b with gptr := b.gptr + 1 } w where
  get := ready
  array := linked.array
  put := linked.put
  received := by
    obtain ⟨n, size⟩ : ∃ n, b.egptr - b.gptr = n + 1 := ⟨b.egptr - b.gptr - 1, by omega⟩
    have rest : b.egptr - (b.gptr + 1) = n := by omega
    have same := linked.received
    rw [SocketBuffer.unread, size, window_succ] at same
    simp [SocketBuffer.unread, rest, same]
  produced := linked.produced
  arrived := linked.arrived

theorem ensures_sbumpc (linked : Linked K taken written b w)
    (asks : b.unread = [] → AsksIn K w.fs w.log taken written) :
    Comp.ensures K.env sbumpc (fun r c v => Quiet w v ∧
      ((∃ ch, r = .ok (some ch) ∧ Linked K (taken ++ [ch]) written c v) ∨
       (r = .ok none ∧ Linked K taken written c v ∧ c.unread = [] ∧ K.ended v.rcvd))) b w := by
  rw [sbumpc, Comp.ensures_bind]
  apply Comp.ensures_mono (ensures_underflow linked asks)
  rintro r c v ⟨quiet, now, ⟨ready, rfl⟩ | ⟨exhausted, rfl, ended⟩⟩
  · simp only [Comp.either_ok, Comp.ensures_bind, Comp.ensures_modify, Comp.ensures_pure]
    exact ⟨quiet, .inl ⟨_, rfl, linked_gbump now ready⟩⟩
  · exact ⟨quiet, .inr ⟨rfl, now, exhausted, ended⟩⟩

/-- Reading `n` characters gives the next ones of the input, fewer only at the end of the stream. -/
theorem ensures_xsgetn (n : Nat) (linked : Linked K taken written b w)
    (asks : ∀ d, d.length < n → taken ++ d <+: K.input → AsksIn K w.fs w.log (taken ++ d) written) :
    Comp.ensures K.env (xsgetn n) (fun r c v => Quiet w v ∧ ∃ bytes, r = .ok bytes ∧
      bytes.length ≤ n ∧ Linked K (taken ++ bytes) written c v ∧
      (bytes.length < n → c.unread = [] ∧ K.ended v.rcvd)) b w := by
  induction n generalizing taken b w with
  | zero => exact ⟨quiet_refl w, [], rfl, Nat.le_refl _, by simpa using linked, by simp⟩
  | succ n ih =>
    rw [xsgetn, Comp.ensures_bind]
    have first : b.unread = [] → AsksIn K w.fs w.log taken written := by
      intro exhausted
      have whole : w.rcvd = taken := by simpa [exhausted] using linked.received
      have within := K.arrived_prefix linked.arrived
      simpa using asks [] (Nat.succ_pos n) (by simpa [whole] using within)
    apply Comp.ensures_mono (ensures_sbumpc linked first)
    rintro r c v ⟨quiet, ⟨ch, rfl, now⟩ | ⟨rfl, now, exhausted, ended⟩⟩
    · simp only [Comp.either_ok, Comp.ensures_bind]
      have later : ∀ d, d.length < n → (taken ++ [ch]) ++ d <+: K.input →
          AsksIn K v.fs v.log ((taken ++ [ch]) ++ d) written := by
        intro d short within
        rw [quiet.1, quiet.2]
        simpa using asks (ch :: d) (by simpa using short) (by simpa using within)
      apply Comp.ensures_mono (ih now later)
      rintro r' c' v' ⟨quiet', bytes, rfl, fits, now', rest⟩
      refine ⟨quiet_trans quiet quiet', ch :: bytes, rfl, ?_, ?_, ?_⟩
      · simpa using fits
      · simpa using now'
      · simpa using rest
    · refine ⟨quiet, [], rfl, Nat.zero_le _, by simpa using now, fun _ => ⟨exhausted, ended⟩⟩

/-- The place of the array that the `j`-th character from here on is stored at. -/
def SocketBuffer.place (b : SocketBuffer) (j : Nat) : Nat := (b.pptr + j) % (kBufferSize + 1)

/-- No character of an output of this length is stored over unread input. -/
def SocketBuffer.Spares (b : SocketBuffer) (n : Nat) : Prop :=
  ∀ j < n, ¬ (b.gptr ≤ b.place j ∧ b.place j < b.egptr)

theorem spares_of_exhausted (order : b.egptr ≤ b.gptr) (n : Nat) : b.Spares n := by
  intro j _ inside
  omega

/-- The log may tell of a store over the get area, nothing else changes. -/
def Noted (before after : World) (exhausted : Prop) : Prop :=
  after.fs = before.fs ∧ after.rcvd = before.rcvd ∧ (exhausted → after.log = before.log)

theorem stored_unread (ch : Byte) (linked : Linked K taken written b w) (spares : b.Spares 1) :
    (b.stored ch).unread = b.unread := by
  have bound := linked.put
  have order := linked.get
  have clear := spares 0 Nat.zero_lt_one
  have place : b.place 0 = b.pptr := Nat.mod_eq_of_lt (by omega)
  rw [place] at clear
  show window (Function.update b.buffer b.pptr ch) b.gptr (b.egptr - b.gptr) = _
  exact window_update (by omega)

theorem stored_pending (ch : Byte) (b : SocketBuffer) :
    (b.stored ch).pending = b.pending ++ [ch] := by
  show window (Function.update b.buffer b.pptr ch) 0 (b.pptr + 1) = _
  rw [window_concat, window_update (by omega)]
  simp [SocketBuffer.pending]

theorem ensures_store {ch : Byte}
    (logs : b.gptr < b.egptr → K.logging w.log .overUnread) :
    Comp.ensures K.env (store ch) (fun r c v => r = .ok () ∧ c = b.stored ch ∧
      Noted w v (b.gptr = b.egptr) ∧ v.sent = w.sent) b w := by
  simp only [store, Comp.ensures_bind, Comp.ensures_get, Comp.either_ok]
  by_cases ready : b.gptr < b.egptr
  · rw [if_pos ready, Comp.ensures_bind, ensures_note]
    exact ⟨logs ready, rfl, rfl, ⟨rfl, rfl, fun same => absurd ready (by omega)⟩, rfl⟩
  · rw [if_neg ready, Comp.ensures_modify]
    exact ⟨rfl, rfl, ⟨rfl, rfl, fun _ => rfl⟩, rfl⟩

theorem ensures_sputc {ch : Byte} (linked : Linked K taken written b w) (spares : b.Spares 1)
    (logs : b.gptr < b.egptr → K.logging w.log .overUnread)
    (may : K.sending w.rcvd (written ++ [ch])) :
    Comp.ensures K.env (sputc ch) (fun r c v => r = .ok true ∧
      Linked K taken (written ++ [ch]) c v ∧ c.gptr = b.gptr ∧ c.egptr = b.egptr ∧
      c.pptr = b.place 1 ∧ Noted w v (b.gptr = b.egptr)) b w := by
  have bound := linked.put
  have input := stored_unread ch linked spares
  have output := stored_pending ch b
  simp only [sputc, Comp.ensures_bind, Comp.ensures_get, Comp.either_ok]
  by_cases room : b.pptr < kBufferSize
  · rw [if_pos room, Comp.ensures_bind]
    apply Comp.ensures_mono (ensures_store logs)
    rintro r c v ⟨rfl, rfl, noted, sent⟩
    simp only [Comp.either_ok, Comp.ensures_pure, true_and]
    refine ⟨⟨linked.get, linked.array, room, ?_, ?_, ?_⟩, rfl, rfl, ?_, noted⟩
    · rw [noted.2.1, linked.received, input]
    · rw [sent, output, linked.produced, List.append_assoc]
    · rw [noted.2.1, sent]
      exact linked.arrived
    · show b.pptr + 1 = (b.pptr + 1) % (kBufferSize + 1)
      rw [Nat.mod_eq_of_lt (by omega)]
  · rw [if_neg room]
    have full : b.pptr = kBufferSize := by omega
    simp only [overflow, Comp.ensures_bind]
    apply Comp.ensures_mono (ensures_store logs)
    rintro r c v ⟨rfl, rfl, noted, sent⟩
    have produced : written ++ [ch] = v.sent ++ (b.stored ch).pending := by
      rw [sent, output, linked.produced, List.append_assoc]
    simp only [Comp.either_ok, Comp.ensures_bind]
    apply Comp.ensures_mono (ensures_sync produced (noted.2.1 ▸ may))
    rintro r c u ⟨rfl, rfl, rfl⟩
    simp only [Comp.either_ok, if_true, Comp.ensures_pure, Option.isSome_some, true_and]
    refine ⟨⟨linked.get, linked.array, Nat.zero_le _, ?_, ?_, ?_⟩, rfl, rfl, ?_, noted⟩
    · rw [noted.2.1, linked.received, ← input]
      rfl
    · simp [SocketBuffer.pending]
    · have same : written ++ [ch] = w.sent ++ (b.pending ++ [ch]) := by
        rw [linked.produced, List.append_assoc]
      rw [noted.2.1, same]
      exact K.arrived_mono _ linked.arrived
    · simp [SocketBuffer.place, full]

/-- The put area of a stream whose writes the OS takes whole is never past its end. -/
theorem ensures_xsputc {ch : Byte} (linked : Linked K taken written b w) (spares : b.Spares 1)
    (logs : b.gptr < b.egptr → K.logging w.log .overUnread)
    (may : K.sending w.rcvd (written ++ [ch])) :
    Comp.ensures K.env (xsputc ch) (fun r c v => r = .ok true ∧
      Linked K taken (written ++ [ch]) c v ∧ c.gptr = b.gptr ∧ c.egptr = b.egptr ∧
      c.pptr = b.place 1 ∧ Noted w v (b.gptr = b.egptr)) b w := by
  have within : ¬ kBufferSize < b.pptr := Nat.not_lt.mpr linked.put
  simp only [xsputc, Comp.ensures_bind, Comp.ensures_get, Comp.either_ok, if_neg within]
  exact ensures_sputc linked spares logs may

theorem noted_trans {u v x : World} {p : Prop} (first : Noted u v p) (second : Noted v x p) :
    Noted u x p :=
  ⟨second.1.trans first.1, second.2.1.trans first.2.1,
    fun exhausted => (second.2.2 exhausted).trans (first.2.2 exhausted)⟩

/-- Writing adds the characters to the output and leaves unread input alone that it spares. -/
theorem ensures_xsputn (bytes : List Byte) (linked : Linked K taken written b w)
    (spares : b.Spares bytes.length)
    (logs : b.gptr < b.egptr → ∀ log, K.logging log .overUnread)
    (may : ∀ d, d <+: bytes → K.sending w.rcvd (written ++ d)) :
    Comp.ensures K.env (xsputn bytes) (fun r c v => r = .ok bytes.length ∧
      Linked K taken (written ++ bytes) c v ∧ c.gptr = b.gptr ∧ c.egptr = b.egptr ∧
      Noted w v (b.gptr = b.egptr)) b w := by
  induction bytes generalizing written b w with
  | nil => exact ⟨rfl, by simpa using linked, rfl, rfl, rfl, rfl, fun _ => rfl⟩
  | cons ch rest ih =>
    have now : b.Spares 1 := fun j small => spares j (by simp; omega)
    rw [xsputn, Comp.ensures_bind]
    apply Comp.ensures_mono (ensures_xsputc linked now (fun ready => logs ready _)
      (may [ch] (by simp)))
    rintro r c v ⟨rfl, linked', sameGet, sameEnd, next, noted⟩
    have later : c.Spares rest.length := by
      intro j small
      have shifted : c.place j = b.place (j + 1) := by
        rw [SocketBuffer.place, next, SocketBuffer.place, Nat.mod_add_mod, SocketBuffer.place]
        congr 1
        omega
      rw [shifted, sameGet, sameEnd]
      exact spares (j + 1) (by simp; omega)
    simp only [Comp.either_ok, if_true, Comp.ensures_bind]
    have rest_may : ∀ d, d <+: rest → K.sending v.rcvd (written ++ [ch] ++ d) := by
      intro d within
      rw [noted.2.1]
      simpa using may (ch :: d) (by simpa using within)
    apply Comp.ensures_mono (ih linked' later (by rwa [sameGet, sameEnd]) rest_may)
    rintro r' c' v' ⟨rfl, linked'', sameGet', sameEnd', noted'⟩
    rw [sameGet, sameEnd] at noted'
    exact ⟨rfl, by simpa using linked'', sameGet'.trans sameGet, sameEnd'.trans sameEnd,
      noted_trans noted noted'⟩

theorem ensures_rdbuf {A G : Type} {e : Env Sys Sys.Reply G} {x : Io SocketBuffer A}
    {s : SocketStream} {Q : Except Fault A → SocketStream → G → Prop} {g : G} :
    Comp.ensures e (rdbuf x) Q s g ↔
      Comp.ensures e x (fun r b h => Q r { s with buf := b } h) s.buf g := Comp.ensures_zoom

/-- istream::read delivers what xsgetn does; a stream that has failed delivers nothing. -/
theorem ensures_read (n : Nat) {s : SocketStream} (linked : Linked K taken written s.buf w)
    (asks : ∀ d, d.length < n → taken ++ d <+: K.input → AsksIn K w.fs w.log (taken ++ d) written) :
    Comp.ensures K.env (read n) (fun r t v => Quiet w v ∧ ∃ bytes, r = .ok bytes ∧
      bytes.length ≤ n ∧ Linked K (taken ++ bytes) written t.buf v ∧
      (s.good → bytes.length = n → t.good) ∧
      (s.good → bytes.length < n → t.buf.unread = [] ∧ K.ended v.rcvd ∧ t.good = false) ∧
      (s.good = false → bytes = [] ∧ t.good = false)) s w := by
  simp only [read, Comp.ensures_bind, Comp.ensures_get, Comp.either_ok]
  cases state : s.good
  · simp only [Bool.false_eq_true, if_false, Comp.ensures_bind, Comp.ensures_modify,
      Comp.either_ok, Comp.ensures_pure]
    refine ⟨quiet_refl w, [], rfl, Nat.zero_le _, by simpa using linked, by simp, by simp, ?_⟩
    simp [SocketStream.good]
  · simp only [if_true, ensures_tryCatch, Comp.ensures_bind, ensures_rdbuf, Int.toNat_natCast]
    apply Comp.ensures_mono (ensures_xsgetn n linked asks)
    rintro r c v ⟨quiet, bytes, rfl, fits, now, rest⟩
    by_cases full : bytes.length = n
    · have same : (bytes.length : Int) = n := by simp [full]
      simp only [Comp.either_ok, if_pos same, Comp.ensures_pure]
      refine ⟨quiet, bytes, rfl, fits, now, ?_, by omega, by simp⟩
      exact fun _ _ => state
    · have other : (bytes.length : Int) ≠ n := by omega
      simp only [Comp.either_ok, if_neg other, Comp.ensures_bind, Comp.ensures_modify,
        Comp.ensures_pure]
      obtain ⟨exhausted, ended⟩ := rest (by omega)
      refine ⟨quiet, bytes, rfl, fits, now, fun _ same => absurd same full, ?_, by simp⟩
      exact fun _ _ => ⟨exhausted, ended, by simp [SocketStream.good]⟩

theorem ensures_write (bytes : List Byte) {s : SocketStream} (good : s.good)
    (linked : Linked K taken written s.buf w) (spares : s.buf.Spares bytes.length)
    (logs : s.buf.gptr < s.buf.egptr → ∀ log, K.logging log .overUnread)
    (may : ∀ d, d <+: bytes → K.sending w.rcvd (written ++ d)) :
    Comp.ensures K.env (write bytes) (fun r t v => r = .ok () ∧ t.good ∧
      Linked K taken (written ++ bytes) t.buf v ∧ t.buf.gptr = s.buf.gptr ∧
      t.buf.egptr = s.buf.egptr ∧ Noted w v (s.buf.gptr = s.buf.egptr)) s w := by
  simp only [write, Comp.ensures_bind, Comp.ensures_get, Comp.either_ok, if_pos good,
    ensures_rdbuf]
  apply Comp.ensures_mono (ensures_xsputn bytes linked spares logs may)
  rintro r c v ⟨rfl, rest⟩
  simp only [Comp.either_ok, if_true, Comp.ensures_pure, true_and]
  exact ⟨good, rest⟩

theorem ensures_flush {s : SocketStream} (good : s.good) (linked : Linked K taken written s.buf w)
    (may : K.sending w.rcvd written) :
    Comp.ensures K.env flush (fun r t v => r = .ok () ∧ t.good ∧ Linked K taken written t.buf v ∧
      t.buf.unread = s.buf.unread ∧ v = { w with sent := written }) s w := by
  simp only [flush, Comp.ensures_bind, Comp.ensures_get, Comp.either_ok, if_pos good,
    ensures_rdbuf]
  apply Comp.ensures_mono (ensures_sync linked.produced may)
  rintro r c v ⟨rfl, rfl, rfl⟩
  simp only [Comp.either_ok, if_true, Comp.ensures_pure, true_and, and_true]
  exact ⟨good, linked_synced linked, rfl⟩

end DropboxSocketStream
