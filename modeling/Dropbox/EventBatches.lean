import Dropbox.DirectoryTree
import Dropbox.General.Codec
import Dropbox.General.Tiles
import Dropbox.Watcher

/-!
The bytes Inotify::MainLoop reads (client/inotify.cpp): inotify_event records, on a
little-endian machine, and the loop that walks over a batch of them in its buffer.
`walks` records for each batch where the loop has read headers and where it ended.
-/
namespace DropboxEventBatches
open Codec Tiles Transitions DropboxFileStore DropboxDirectoryTree DropboxHost
open DropboxWatcher (LocalAction KernelEvent Kind Origin)

def inCloseWrite : UInt32 := 0x8
def inMovedFrom : UInt32 := 0x40
def inMovedTo : UInt32 := 0x80
def inDelete : UInt32 := 0x200
def inIsDir : UInt32 := 0x40000000

def kMaxEvents : Nat := 10
def pathMax : Nat := 4096
def kEventSize : Nat := 16
def kBufferLength : Nat := kMaxEvents * (kEventSize + pathMax)

/-- What the loop looks at in an inotify_event; `name` is the C string. -/
structure InotifyEvent where
  mask : UInt32
  len : UInt32
  name : Path
  deriving DecidableEq, Repr

def word (buffer : List Byte) (i : Nat) : UInt32 := UInt32.ofNat (ofLittle ((buffer.drop i).take 4))

/-- The reinterpret_cast of `&buffer[i]`; `wd` and `cookie` stand before `mask` and `len`. -/
def eventAt (buffer : List Byte) (i : Nat) : InotifyEvent :=
  ⟨word buffer (i + 4), word buffer (i + 12), cString (buffer.drop (i + kEventSize))⟩

structure Scan where
  i : Nat
  vector : List (LocalAction Path)
  headers : List Nat
  deriving DecidableEq, Repr

def InotifyEvent.append (event : InotifyEvent) (vector : List (LocalAction Path)) :
    List (LocalAction Path) :=
  if event.len ≠ 0 then
    if event.mask &&& (inCloseWrite ||| inMovedTo) ≠ 0 then
      if event.mask &&& inIsDir = 0 then vector ++ [⟨.kUpload, event.name⟩] else vector
    else if event.mask &&& (inDelete ||| inMovedFrom) ≠ 0 then
      if event.mask &&& inIsDir = 0 then vector ++ [⟨.kDelete, event.name⟩] else vector
    else vector
  else vector

/-- The body of the inner loop. -/
def Scan.next (event : InotifyEvent) (s : Scan) : Scan :=
  ⟨s.i + (kEventSize + event.len.toNat), event.append s.vector, s.headers ++ [s.i]⟩

/-- The inner loop, which every event moves on. -/
def scan (buffer : List Byte) (kLength : Nat) (s : Scan) : Scan :=
  if s.i < kLength then scan buffer kLength (s.next (eventAt buffer s.i)) else s
termination_by kLength - s.i
decreasing_by
  simp only [Scan.next, kEventSize]
  omega

/-- `kLength` of a batch, the offsets of the headers that were read, and `i` at the end. -/
structure Walk where
  kLength : Nat
  headers : List Nat
  ended : Nat
  deriving DecidableEq, Repr

structure Inotify where
  buffer : List Byte
  size : buffer.length = kBufferLength
  vector : List (LocalAction Path)
  pause : Bool
  cleared : List (LocalAction Path)
  walks : List Walk

/-- What read has put into the buffer; the rest is of earlier batches. -/
def Inotify.fill (s : Inotify) (bytes : List Byte) (fits : bytes.length ≤ kBufferLength) :
    Inotify :=
  { s with
    buffer := bytes ++ s.buffer.drop bytes.length
    size := by
      rw [List.length_append, List.length_drop, s.size]
      omega }

/-- The walk over the batch that has been read. -/
def Inotify.decode (kLength : Nat) (s : Inotify) : Inotify :=
  let done := scan s.buffer kLength ⟨0, s.vector, []⟩
  { s with vector := done.vector, walks := s.walks ++ [⟨kLength, done.headers, done.i⟩] }

/-- `none` is for a read that fails. The other threads set `pause_` and take the vector. -/
inductive Action where
  | read (got : Option (List Byte))
  | pause
  | resume
  | clear
  deriving DecidableEq, Repr

/-- An iteration of MainLoop, with what read brings, or a step of another thread. -/
def inotifyStep (s : Inotify) : Action → Option Inotify
  | .read none => some s
  | .read (some bytes) =>
    if fits : bytes.length ≤ kBufferLength then
      let filled := s.fill bytes fits
      some (if s.pause then filled else filled.decode bytes.length)
    else none
  | .pause => some { s with pause := true }
  | .resume => some { s with pause := false }
  | .clear => some { s with vector := [], cleared := s.cleared ++ s.vector }

/-- A record as the kernel writes it. `name` has no NUL and is followed by at least one; it is empty
    in a record about the directory itself, which has no bytes for it. -/
structure Record where
  wd : UInt32
  mask : UInt32
  cookie : UInt32
  name : List Byte
  padding : Nat
  solid : 0 ∉ name
  terminated : 0 < padding ↔ name ≠ []
  fits : name.length + padding < 2 ^ 32
  deriving DecidableEq, Repr

def Record.len (r : Record) : Nat := r.name.length + r.padding

def Record.header (r : Record) : List Byte :=
  toLittle 4 r.wd.toNat ++ toLittle 4 r.mask.toNat ++ toLittle 4 r.cookie.toNat ++ toLittle 4 r.len

def Record.encode (r : Record) : List Byte := r.header ++ (r.name ++ List.replicate r.padding 0)

def Record.has (r : Record) (bit : UInt32) : Prop := r.mask &&& bit ≠ 0

instance (r : Record) (bit : UInt32) : Decidable (r.has bit) := inferInstanceAs (Decidable (_ ≠ _))

/-- What a record says about a file. -/
def Record.action (r : Record) : Option (LocalAction Path) :=
  if r.name = [] ∨ r.has inIsDir then none
  else if r.has inCloseWrite ∨ r.has inMovedTo then some ⟨.kUpload, r.name⟩
  else if r.has inDelete ∨ r.has inMovedFrom then some ⟨.kDelete, r.name⟩
  else none

/-- The walk over a batch: a header for each record, where it begins, and no byte left. -/
def recordWalk (batch : List Record) : Walk :=
  ⟨extent Record.encode batch, starts Record.encode 0 batch, extent Record.encode batch⟩

/-- A header is read exactly where a record begins. -/
theorem header_begins_record {batch : List Record} {k : Nat} : k ∈ (recordWalk batch).headers ↔
    ∃ before r after, batch = before ++ r :: after ∧ k = extent Record.encode before := by
  rw [recordWalk, mem_starts]
  simp

/-- A batch comes while the watcher is not paused. -/
def Unpaused (s : Inotify) : Action → Prop
  | .read (some _) => s.pause = false
  | _ => True

instance (s : Inotify) (a : Action) : Decidable (Unpaused s a) := by
  cases a with
  | read got => cases got <;> simp only [Unpaused] <;> infer_instance
  | _ => exact isTrue trivial

def Action.batch : Action → Option (List Byte)
  | .read got => got
  | _ => none

section Decoding
variable {buffer rest : List Byte} {i : Nat} {r : Record}

theorem word_read {v : Nat} (fits : v < 2 ^ 32) (there : buffer.drop i = toLittle 4 v ++ rest) :
    word buffer i = UInt32.ofNat v := by
  have size : (toLittle 4 v).length = 4 := toLittle_length ..
  rw [word, there, List.take_left' size, ofLittle_toLittle_of_lt fits]

theorem header_length (r : Record) : r.header.length = kEventSize := by
  simp [Record.header, kEventSize]

theorem encode_length (r : Record) : r.encode.length = kEventSize + r.len := by
  simp [Record.encode, header_length, Record.len]

/-- The C string ends with the padding, before anything that comes after the record. -/
theorem name_read (named : r.name ≠ [])
    (there : buffer.drop i = r.name ++ List.replicate r.padding 0 ++ rest) :
    cString (buffer.drop i) = r.name := by
  obtain ⟨more, padded⟩ := Nat.exists_eq_succ_of_ne_zero (Nat.ne_of_gt (r.terminated.mpr named))
  have inside : ∀ c ∈ r.name, (c != 0) = true := by
    intro c member
    have other : c ≠ 0 := by
      rintro rfl
      exact r.solid member
    simpa using other
  rw [there, padded, cString, List.replicate_succ, List.append_assoc,
    List.takeWhile_append_of_pos inside]
  simp

/-- Where a record begins its fields are read back. -/
theorem event_at_record (there : r.encode <+: buffer.drop i) :
    (eventAt buffer i).mask = r.mask ∧ (eventAt buffer i).len.toNat = r.len ∧
      (r.name ≠ [] → (eventAt buffer i).name = r.name) := by
  obtain ⟨rest, whole⟩ := there
  simp only [Record.encode, Record.header, List.append_assoc] at whole
  have later : ∀ {j v : Nat} {back : List Byte}, buffer.drop j = toLittle 4 v ++ back →
      buffer.drop (j + 4) = back := by
    intro j v back split
    rw [← List.drop_drop, split, List.drop_left' (toLittle_length 4 v)]
  have atMask := later whole.symm
  have atLen := later (later atMask)
  have atName := later atLen
  refine ⟨?_, ?_, fun named => name_read named (atName.trans (List.append_assoc ..).symm)⟩
  · have mask : word buffer (i + 4) = _ := word_read r.mask.toNat_lt atMask
    exact mask.trans (UInt32.ofNat_toNat ..)
  · have len : word buffer (i + 12) = _ := word_read r.fits atLen
    rw [eventAt, len]
    exact Nat.mod_eq_of_lt r.fits

theorem has_either {a b : UInt32} : r.mask &&& (a ||| b) ≠ 0 ↔ r.has a ∨ r.has b := by
  have split : r.mask &&& (a ||| b) = (r.mask &&& a) ||| (r.mask &&& b) := by
    rw [← UInt32.toBitVec_inj]
    simp [BitVec.and_or_distrib_left]
  rw [split, Record.has, Record.has, ← not_and_or, ← UInt32.or_eq_zero_iff]

/-- The body of the loop does for a record what its mask and its name say. -/
theorem append_record {event : InotifyEvent} (mask : event.mask = r.mask)
    (len : event.len.toNat = r.len) (name : r.name ≠ [] → event.name = r.name)
    (vector : List (LocalAction Path)) : event.append vector = vector ++ r.action.toList := by
  unfold InotifyEvent.append Record.action
  by_cases named : r.name = []
  · have bare : r.padding = 0 := by
      by_contra padded
      exact r.terminated.mp (Nat.pos_of_ne_zero padded) named
    have none : event.len = 0 := by
      rw [← UInt32.toNat_inj, len, Record.len, named, bare]
      rfl
    simp [none, named]
  · have some : event.len ≠ 0 := by
      intro zero
      have padded := r.terminated.mpr named
      rw [zero, Record.len] at len
      have size : 0 = r.name.length + r.padding := len
      omega
    rw [if_pos some, mask, name named]
    simp only [has_either, named, false_or]
    by_cases isDir : r.has inIsDir
    · have masked : ¬ r.mask &&& inIsDir = 0 := isDir
      simp [isDir, masked]
    · have masked : r.mask &&& inIsDir = 0 := not_not.mp isDir
      simp only [isDir, masked, if_true, if_false]
      split
      · rfl
      · split
        · rfl
        · exact (List.append_nil _).symm

theorem next_record {s : Scan} (there : r.encode <+: buffer.drop s.i) :
    s.next (eventAt buffer s.i) =
      ⟨s.i + r.encode.length, s.vector ++ r.action.toList, s.headers ++ [s.i]⟩ := by
  obtain ⟨mask, len, name⟩ := event_at_record there
  rw [Scan.next, append_record mask len name, len, encode_length]

theorem scan_step {kLength : Nat} {s : Scan} (more : s.i < kLength) :
    scan buffer kLength s = scan buffer kLength (s.next (eventAt buffer s.i)) := by
  rw [scan, if_pos more]

theorem scan_end {kLength : Nat} {s : Scan} (done : kLength ≤ s.i) :
    scan buffer kLength s = s := by
  rw [scan, if_neg (Nat.not_lt.mpr done)]

/-- The inner loop over the records of a batch, by induction on what is left of it. -/
theorem scan_records {batch : List Record} {s : Scan}
    (tiled : TiledAt Record.encode buffer s.i batch) :
    scan buffer (s.i + extent Record.encode batch) s =
      ⟨s.i + extent Record.encode batch, s.vector ++ batch.filterMap Record.action,
        s.headers ++ starts Record.encode s.i batch⟩ := by
  induction batch generalizing s with
  | nil =>
    rw [scan_end (by simp)]
    simp [starts]
  | cons r batch ih =>
    obtain ⟨there, after⟩ := tiledAt_cons tiled
    have more : s.i < s.i + extent Record.encode (r :: batch) := by
      rw [extent_cons, encode_length, kEventSize]
      omega
    rw [scan_step more, next_record there, extent_cons, ← Nat.add_assoc]
    rw [ih (s := ⟨s.i + r.encode.length, s.vector ++ r.action.toList, s.headers ++ [s.i]⟩) after]
    cases said : r.action <;> simp [said, starts]

end Decoding

/-- Whatever the buffer holds, `i` fits in an ssize_t: neither its sum nor its cast changes it. -/
theorem index_fits {kLength : Nat} {s : Scan} (event : InotifyEvent) (inside : s.i < kLength)
    (fits : kLength ≤ kBufferLength) : (s.next event).i < 2 ^ 63 := by
  have len := event.len.toNat_lt
  have size : kBufferLength = 41120 := rfl
  simp only [Scan.next, kEventSize]
  omega

section Runs
variable {s t : Inotify} {batch : List Record}

/-- The walk leaves what the records of the batch say. -/
theorem decode_batch (tiled : TiledAt Record.encode s.buffer 0 batch) :
    s.decode (extent Record.encode batch) =
      { s with vector := s.vector ++ batch.filterMap Record.action,
               walks := s.walks ++ [recordWalk batch] } := by
  have scanned := scan_records (s := ⟨0, s.vector, []⟩) tiled
  rw [Nat.zero_add] at scanned
  rw [Inotify.decode, scanned]
  rfl

theorem read_batch (running : s.pause = false)
    (fits : (batch.flatMap Record.encode).length ≤ kBufferLength) :
    inotifyStep s (.read (some (batch.flatMap Record.encode))) =
      some { s.fill _ fits with vector := s.vector ++ batch.filterMap Record.action,
                                walks := s.walks ++ [recordWalk batch] } := by
  have decoded := decode_batch (s := s.fill _ fits) (tiledAt_front batch _)
  simp only [inotifyStep, running, Bool.false_eq_true, if_false]
  rw [dif_pos fits]
  exact congrArg some decoded

/-- Nothing but a batch is written to the vector. -/
theorem other_step {a : Action} (other : a.batch = none) :
    ∃ t, inotifyStep s a = some t ∧ t.cleared ++ t.vector = s.cleared ++ s.vector ∧
      t.walks = s.walks := by
  cases a with
  | read got =>
    cases got with
    | none => exact ⟨s, rfl, rfl, rfl⟩
    | some bytes => cases other
  | pause => exact ⟨_, rfl, rfl, rfl⟩
  | resume => exact ⟨_, rfl, rfl, rfl⟩
  | clear => exact ⟨_, rfl, List.append_nil _, rfl⟩

theorem still_running {a : Action} (running : s.pause = false) (other : .pause ≠ a)
    (step : inotifyStep s a = some t) : t.pause = false := by
  cases a with
  | read got =>
    cases got with
    | none =>
      cases step
      exact running
    | some bytes =>
      simp only [inotifyStep, running] at step
      split at step
      · cases step
        exact running
      · cases step
  | pause => exact absurd rfl other
  | resume =>
    cases step
    rfl
  | clear =>
    cases step
    exact running

theorem unpaused_of_running {actions : List Action} (running : s.pause = false)
    (never : .pause ∉ actions) : Allowed inotifyStep Unpaused s actions := by
  induction actions generalizing s with
  | nil => trivial
  | cons a rest ih =>
    simp only [List.mem_cons, not_or] at never
    refine ⟨?_, fun t step => ih (still_running running never.1 step) never.2⟩
    cases a with
    | read got =>
      cases got with
      | none => trivial
      | some bytes => exact running
    | _ => trivial

/-- Records are decoded one by one, however they are divided into batches. -/
theorem batches_decoded (records : List Record) (batches : List (List Record))
    (actions : List Action) (division : batches.flatten = records)
    (fits : ∀ batch ∈ batches, extent Record.encode batch ≤ kBufferLength)
    (reads : actions.filterMap Action.batch = batches.map fun batch => batch.flatMap Record.encode)
    (unpaused : Allowed inotifyStep Unpaused s actions) :
    ∃ t, runs inotifyStep s actions = some t ∧ t.walks = s.walks ++ batches.map recordWalk ∧
      t.cleared ++ t.vector = s.cleared ++ s.vector ++ records.filterMap Record.action := by
  subst division
  induction actions generalizing s batches with
  | nil =>
    obtain rfl : batches = [] := List.map_eq_nil_iff.mp reads.symm
    exact ⟨s, rfl, by simp, by simp⟩
  | cons a rest ih =>
    obtain ⟨first, later⟩ := unpaused
    cases brought : a.batch with
    | none =>
      rw [List.filterMap_cons_none brought] at reads
      obtain ⟨m, head, same, walked⟩ := other_step (s := s) brought
      obtain ⟨t, tail, walks, taken⟩ := ih batches fits reads (later m head)
      refine ⟨t, runs_cons.mpr ⟨m, head, tail⟩, ?_, ?_⟩
      · rw [walks, walked]
      · rw [taken, same]
    | some bytes =>
      rw [List.filterMap_cons_some brought] at reads
      cases batches with
      | nil => cases reads
      | cons batch batches =>
        obtain ⟨rfl, others⟩ := List.cons.inj reads
        obtain rfl : a = .read (some (batch.flatMap Record.encode)) := by
          cases a with
          | read got => exact congrArg Action.read brought
          | _ => cases brought
        have head := read_batch first (fits batch (List.mem_cons_self ..))
        have within : ∀ b ∈ batches, extent Record.encode b ≤ kBufferLength :=
          fun b member => fits b (List.mem_cons_of_mem _ member)
        obtain ⟨t, tail, walks, taken⟩ := ih batches within others (later _ head)
        refine ⟨t, runs_cons.mpr ⟨_, head, tail⟩, ?_, ?_⟩
        · rw [walks]
          simp
        · rw [taken]
          simp [Inotify.fill]

end Runs

/-- Before the first read, with nothing in the vector. -/
def fresh : Inotify :=
  ⟨List.replicate kBufferLength 255, List.length_replicate, [], false, [], []⟩

/-- A file written, a directory made, the watched directory touched, and the file deleted. -/
def fourRecords : List Record :=
  [⟨1, inCloseWrite, 0, [97], 15, by decide, by decide, by decide⟩,
    ⟨1, inMovedTo ||| inIsDir, 7, [100], 15, by decide, by decide, by decide⟩,
    ⟨1, inCloseWrite, 0, [], 0, by decide, by decide, by decide⟩,
    ⟨1, inDelete, 0, [97], 1, by decide, by decide, by decide⟩]

def divided : List (List Record) := [fourRecords.take 3, [], fourRecords.drop 3]

theorem batches_decoded_four : ∃ t, runs inotifyStep fresh
    (divided.flatMap fun batch => [.read (some (batch.flatMap Record.encode)), .read none, .clear]) =
      some t ∧
    t.walks = divided.map recordWalk ∧
    t.cleared ++ t.vector = [⟨.kUpload, [97]⟩, ⟨.kDelete, [97]⟩] :=
  batches_decoded (s := fresh) fourRecords divided _ rfl (by decide +kernel) (by decide +kernel)
    (unpaused_of_running rfl (by decide +kernel))

section Refinement
variable {T : Type} [DecidableEq T] {o : Origin} {r : Record}

def kindOf (mask : UInt32) : Kind :=
  if mask &&& inCloseWrite ≠ 0 then .closeWrite
  else if mask &&& inMovedTo ≠ 0 then .movedTo
  else if mask &&& inDelete ≠ 0 then .delete
  else if mask &&& inMovedFrom ≠ 0 then .movedFrom
  else .modify

/-- The event of the watcher's model for a record. -/
def Record.event (o : Origin) (r : Record) : KernelEvent Path :=
  ⟨kindOf r.mask, decide (r.has inIsDir), if r.name = [] then none else some r.name, o⟩

theorem event_action (o : Origin) (r : Record) : (r.event o).action = r.action := by
  by_cases named : r.name = []
  · simp [KernelEvent.action, Record.event, Record.action, named]
  · have kind : kindOf r.mask = if r.has inCloseWrite then .closeWrite
        else if r.has inMovedTo then .movedTo else if r.has inDelete then .delete
        else if r.has inMovedFrom then .movedFrom else .modify := rfl
    simp only [KernelEvent.action, Record.event, Record.action, named, if_false, false_or, kind]
    by_cases closed : r.has inCloseWrite
    · simp [closed]
    · by_cases arrived : r.has inMovedTo
      · simp [closed, arrived]
      · by_cases deleted : r.has inDelete
        · simp [closed, arrived, deleted]
        · by_cases left : r.has inMovedFrom
          · simp [closed, arrived, deleted, left]
          · simp [closed, arrived, deleted, left]

/-- The loop as the watcher's model has it: the same flag, actions and deliveries. -/
structure Follows (s : Inotify) (w : DropboxWatcher.State Path T) : Prop where
  vector : s.vector = w.vector
  pause : s.pause = w.pause
  cleared : s.cleared = w.cleared
  reading : w.watch = .reading
  free : w.mutex = false

/-- The steps of the watcher's model for a batch. -/
def batchSteps (pause : Bool) (n : Nat) : List (DropboxWatcher.Action Path T) :=
  if pause then [.read n, .test] else [.read n, .test, .append]

/-- The events stand for the records, whoever made the changes. -/
def Stands (batch : List Record) (events : List (KernelEvent Path)) : Prop :=
  List.Forall₂ (fun r e => ∃ o, e = Record.event o r) batch events

theorem stands_actions {batch : List Record} {events : List (KernelEvent Path)}
    (stands : Stands batch events) :
    batch.filterMap Record.action = events.filterMap KernelEvent.action := by
  induction stands with
  | nil => rfl
  | cons same _ ih =>
    obtain ⟨o, rfl⟩ := same
    rw [List.filterMap_cons, List.filterMap_cons, event_action, ih]

theorem stands_append {before after : List Record} {events : List (KernelEvent Path)}
    (stands : Stands (before ++ after) events) :
    ∃ front back, events = front ++ back ∧ Stands before front ∧ Stands after back := by
  have front := List.forall₂_take before.length stands
  have back := List.forall₂_drop before.length stands
  rw [List.take_left] at front
  rw [List.drop_left] at back
  exact ⟨_, _, (List.take_append_drop ..).symm, front, back⟩

section Steps
variable {w : DropboxWatcher.State Path T} {events later : List (KernelEvent Path)}

theorem watch_reads (present : events ≠ []) (queue : w.queue = events ++ later)
    (reading : w.watch = .reading) :
    DropboxWatcher.watchStep w (.read events.length) =
      some { w with queue := later, watch := .testing events, seen := w.seen ++ events } := by
  have positive : 0 < events.length := List.length_pos_iff.mpr present
  have enough : events.length ≤ w.queue.length := by
    rw [queue, List.length_append]
    omega
  simp only [DropboxWatcher.watchStep, reading]
  rw [if_pos ⟨positive, enough⟩, queue, List.drop_left, List.take_left]

/-- A paused watcher drops the batch after the test. -/
theorem watch_drops (present : events ≠ []) (queue : w.queue = events ++ later)
    (reading : w.watch = .reading) (paused : w.pause = true) :
    runs DropboxWatcher.watchStep w (batchSteps true events.length) =
      some { w with queue := later, seen := w.seen ++ events } := by
  have test : DropboxWatcher.watchStep
      { w with queue := later, watch := .testing events, seen := w.seen ++ events } .test =
        some { w with queue := later, seen := w.seen ++ events } := by
    simp only [DropboxWatcher.watchStep, paused, if_true, ← reading]
  have head := watch_reads present queue reading
  exact runs_cons.mpr ⟨_, head, runs_cons.mpr ⟨_, test, rfl⟩⟩

theorem watch_appends (present : events ≠ []) (queue : w.queue = events ++ later)
    (reading : w.watch = .reading) (running : w.pause = false) (free : w.mutex = false) :
    runs DropboxWatcher.watchStep w (batchSteps false events.length) =
      some { w with queue := later, seen := w.seen ++ events,
                    vector := w.vector ++ events.filterMap KernelEvent.action,
                    appended := w.appended ++ events } := by
  have test : DropboxWatcher.watchStep
      { w with queue := later, watch := .testing events, seen := w.seen ++ events } .test =
        some { w with queue := later, watch := .appending events, seen := w.seen ++ events } := by
    simp only [DropboxWatcher.watchStep, running, Bool.false_eq_true, if_false]
  have append : DropboxWatcher.watchStep
      { w with queue := later, watch := .appending events, seen := w.seen ++ events } .append =
        some { w with queue := later, seen := w.seen ++ events,
                      vector := w.vector ++ events.filterMap KernelEvent.action,
                      appended := w.appended ++ events } := by
    simp only [DropboxWatcher.watchStep, free, Bool.false_eq_true, if_false, ← reading]
  have head := watch_reads present queue reading
  exact runs_cons.mpr ⟨_, head, runs_cons.mpr ⟨_, test, runs_cons.mpr ⟨_, append, rfl⟩⟩⟩

end Steps

/-- A batch of records is read, tested and appended as the events it stands for. -/
theorem read_follows {s t : Inotify} {w : DropboxWatcher.State Path T} {batch : List Record}
    {events later : List (KernelEvent Path)} (follows : Follows s w) (present : batch ≠ [])
    (stands : Stands batch events) (queue : w.queue = events ++ later)
    (step : inotifyStep s (.read (some (batch.flatMap Record.encode))) = some t) :
    ∃ v, runs DropboxWatcher.watchStep w (batchSteps s.pause batch.length) = some v ∧
      Follows t v ∧ v.queue = later := by
  obtain ⟨vector, pause, cleared, reading, free⟩ := follows
  have size : batch.length = events.length := stands.length_eq
  have arrived : events ≠ [] := by
    rw [← List.length_pos_iff, ← size]
    exact List.length_pos_iff.mpr present
  have fits : (batch.flatMap Record.encode).length ≤ kBufferLength := by
    simp only [inotifyStep] at step
    split at step
    · assumption
    · cases step
  rw [size, pause]
  cases flag : w.pause with
  | true =>
    simp only [inotifyStep, dif_pos fits, pause, flag, if_true, Option.some.injEq] at step
    subst step
    exact ⟨_, watch_drops arrived queue reading flag,
      ⟨vector, pause, cleared, reading, free⟩, rfl⟩
  | false =>
    rw [read_batch (pause.trans flag) fits] at step
    cases step
    refine ⟨_, watch_appends arrived queue reading flag free,
      ⟨?_, pause, cleared, reading, free⟩, rfl⟩
    change s.vector ++ _ = w.vector ++ _
    rw [stands_actions stands, vector]

/-- The batches that are read one after the other are a run of the watcher's model. -/
theorem reads_follow {s t : Inotify} {w : DropboxWatcher.State Path T}
    {batches : List (List Record)} {events later : List (KernelEvent Path)} (follows : Follows s w)
    (present : ∀ batch ∈ batches, batch ≠ []) (stands : Stands batches.flatten events)
    (queue : w.queue = events ++ later)
    (run : runs inotifyStep s
      (batches.map fun batch => .read (some (batch.flatMap Record.encode))) = some t) :
    ∃ v, Reachable DropboxWatcher.watchStep w v ∧ Follows t v ∧ v.queue = later := by
  induction batches generalizing s w events with
  | nil =>
    cases stands
    cases run
    exact ⟨w, reachable_refl w, follows, queue⟩
  | cons batch batches ih =>
    rw [List.flatten_cons] at stands
    obtain ⟨front, back, rfl, first, rest⟩ := stands_append stands
    obtain ⟨m, head, tail⟩ := runs_cons.mp run
    rw [List.append_assoc] at queue
    obtain ⟨u, walked, between, left⟩ :=
      read_follows follows (present batch (List.mem_cons_self ..)) first queue head
    obtain ⟨v, reach, after, done⟩ := ih between
      (fun b member => present b (List.mem_cons_of_mem _ member)) rest left tail
    exact ⟨v, reachable_trans ⟨_, walked⟩ reach, after, done⟩

end Refinement

end DropboxEventBatches
