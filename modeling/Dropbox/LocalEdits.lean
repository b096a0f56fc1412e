import Dropbox.General.Notices
import Dropbox.Propagation
import Dropbox.Watcher

/-!
A user edits files in the sync directory while the watcher reads the kernel's events and
SyncFromClient sends what it finds, each file as it is when its turn comes. The edits go
on between any two steps of these threads. Nothing else changes the directory meanwhile.
-/
namespace DropboxLocalEdits
open Transitions Programs DropboxFileStore DropboxDirectoryTree DropboxHost DropboxSocketStream
open DropboxProtocol DropboxEndOfStream DropboxSyncLoops DropboxRelay DropboxPropagation
open DropboxWatcher hiding Change Waiting

/-- A file may be written bit by bit before it is closed. -/
inductive Edit where
  | write (name : Path) (content : List Byte)
  | close (name : Path)
  | moveIn (name : Path) (content : List Byte)
  | delete (name : Path)
  | moveOut (name : Path)
  deriving DecidableEq, Repr

def Edit.name : Edit → Path
  | .write name _ | .close name | .moveIn name _ | .delete name | .moveOut name => name

/-- The event the kernel queues. -/
def Edit.kind : Edit → Kind
  | .write _ _ => .modify
  | .close _ => .closeWrite
  | .moveIn _ _ => .movedTo
  | .delete _ => .delete
  | .moveOut _ => .movedFrom

def Edit.apply (user : Path) (fs : Fs) : Edit → Fs
  | .write name content | .moveIn name content => fs.put (place user name) (.file content)
  | .close _ => fs
  | .delete name | .moveOut name => fs.erase (place user name)

/-- A file that was removed or replaced while it was written is not the one written to any more. -/
def Edit.writing (open' : Path → Bool) : Edit → Path → Bool
  | .write name _ => Function.update open' name true
  | .close name | .moveIn name _ | .delete name | .moveOut name => Function.update open' name false

/-- `sent` are the changes handed to the connection, each with the files it was taken from. No
    other thread changes the directory, so there is no one to pause the watcher. -/
structure Device where
  watcher : State Path Empty
  files : Fs
  writing : Path → Bool
  sent : List (Change × Fs)

def Device.begin (files : Fs) : Device := ⟨start, files, fun _ => false, []⟩

/-- The action SyncFromClient comes to. -/
def Device.next? (d : Device) : Option (LocalAction Path) :=
  match d.watcher.sender with
  | .sending k => d.watcher.vector[k]?
  | .waiting => none

def carried (user : Path) (fs : Fs) (a : LocalAction Path) : Change :=
  match a.command with
  | .kUpload => .upload a.path ((readable fs (filePath user a.path)).getD [])
  | _ => .delete a.path

inductive Act where
  | edit (e : Edit)
  | step (a : Action Path Empty)

def deviceStep (user : Path) (d : Device) : Act → Option Device
  | .edit e =>
    (watchStep d.watcher (.userChange e.kind false (some e.name))).map fun w =>
      { d with watcher := w, files := e.apply user d.files, writing := e.writing d.writing }
  | .step .send =>
    d.next?.bind fun a =>
      (watchStep d.watcher .send).map fun w =>
        { d with watcher := w, sent := d.sent ++ [(carried user d.files a, d.files)] }
  | .step (.userChange _ _ _) => none   -- these are the edits
  | .step a => (watchStep d.watcher a).map fun w => { d with watcher := w }

/-- A file that is to be sent is there and can be read, and message and name fit. -/
def Sendable (fuel : Nat) (user : Path) (d : Device) : Act → Prop
  | .step .send => ∀ a ∈ d.next?, Fits fuel user (carried user d.files a) ∧
      (a.command = .kUpload → (readable d.files (filePath user a.path)).isSome = true)
  | _ => True

/-- Everything the user has done so far has been sent. -/
structure Drained (d : Device) : Prop where
  queue : d.watcher.queue = []
  batch : d.watcher.watch.batch = []
  vector : d.watcher.vector.drop d.watcher.sender.sent = []
  closed : ∀ name, d.writing name = false

def notice (a : LocalAction Path) : Notices.Notice Path :=
  match a.command with
  | .kUpload => .stored a.path
  | _ => .removed a.path

/-- What is on its way: actions not sent yet, then events that will become actions. -/
def onTheWay (w : State Path Empty) : List (LocalAction Path) :=
  w.vector.drop w.sender.sent ++ (w.watch.batch ++ w.queue).filterMap KernelEvent.action

/-- The device as a map and a copy of it that follows by notices. -/
def view (user : Path) (before : Folder) (d : Device) : Notices.State Path (List Byte) :=
  ⟨folder user d.files, (d.sent.map Prod.fst).foldl DropboxReplication.applyMessage before,
    (onTheWay d.watcher).map notice, d.writing⟩

section folders
variable {user name : Path} {fs : Fs}

theorem folder_put (content : List Byte) : folder user (fs.put (place user name) (.file content)) =
    Function.update (folder user fs) name (some content) := by
  have named : (place user name).names ≠ [] := by simp [place, child]
  refine folder_after (c := .upload name content) fun k => ?_
  split
  · rename_i here
    rw [here]
    exact entry_put_self named
  · rename_i other
    exact entry_put_other other

theorem folder_erase : folder user (fs.erase (place user name)) =
    Function.update (folder user fs) name none := by
  have named : (place user name).names ≠ [] := by simp [place, child]
  refine folder_after (c := .delete name) fun k => ?_
  rw [entry_erase]
  by_cases here : k = place user name
  · simp [here, named, changed, effect]
  · simp [here, changed]

theorem folder_of_readable {content : List Byte} (ends : 0 ∉ user) (plain : Plain name)
    (holds : readable fs (filePath user name) = some content) :
    folder user fs name = some content := by
  obtain ⟨_, _, found, _⟩ := readable_eq_some holds
  rw [stat_eq_entry (plainly ends plain), key_filePath ends plain] at found
  rw [folder, found]

end folders

/-- The flag is clear, and no more actions have been sent than there are. -/
structure Running (w : State Path Empty) : Prop where
  flag : w.pause = false
  sent : w.sender.sent ≤ w.vector.length

theorem step_running {w v : State Path Empty} {a : Action Path Empty} (running : Running w)
    (step : watchStep w a = some v) : Running v := by
  obtain ⟨flag, sent⟩ := running
  cases step_cases step with
  | userChange => exact ⟨flag, sent⟩
  | read => exact ⟨flag, sent⟩
  | dropped => exact ⟨flag, sent⟩
  | passed => exact ⟨flag, sent⟩
  | append batch =>
    refine ⟨flag, ?_⟩
    simp only [List.length_append]
    omega
  | lockUpload t => exact t.elim
  | sendFails t => exact t.elim
  | pause t => exact t.elim
  | change t => exact t.elim
  | resume t => exact t.elim
  | fails t => exact t.elim
  | wake => exact ⟨flag, Nat.zero_le _⟩
  | send k a here found =>
    obtain ⟨inside, _⟩ := List.getElem?_eq_some_iff.mp found
    exact ⟨flag, inside⟩
  | clear => exact ⟨flag, Nat.le_refl _⟩

/-- What the threads do among themselves keeps what is on its way. -/
theorem onTheWay_kept {w v : State Path Empty} {a : Action Path Empty} (running : Running w)
    (other : a ≠ .send) (own : ∀ kind isDir name, a ≠ .userChange kind isDir name)
    (step : watchStep w a = some v) : onTheWay v = onTheWay w := by
  cases step_cases step with
  | userChange kind isDir name => exact absurd rfl (own kind isDir name)
  | read n here => simp [onTheWay, here, Watch.batch]
  | dropped batch here flag =>
    rw [running.flag] at flag
    cases flag
  | passed batch here flag => simp [onTheWay, here, Watch.batch]
  | append batch here free =>
    simp [onTheWay, here, Watch.batch, List.drop_append_of_le_length running.sent]
  | lockUpload t => exact t.elim
  | sendFails t => exact t.elim
  | pause t => exact t.elim
  | change t => exact t.elim
  | resume t => exact t.elim
  | fails t => exact t.elim
  | wake idle free => simp [onTheWay, idle, Sender.sent]
  | send => exact absurd rfl other
  | clear here => simp [onTheWay, here, Sender.sent]

/-- An edit is a move of the map. -/
def Edit.move : Edit → Notices.Move Path (List Byte)
  | .write name content => .write name content
  | .close name => .finish name
  | .moveIn name content => .put name content
  | .delete name | .moveOut name => .remove name

theorem edit_moves {user : Path} {d t : Device} {e : Edit} (before : Folder)
    (step : deviceStep user d (.edit e) = some t) :
    Notices.step (view user before d) e.move = some (view user before t) := by
  simp only [deviceStep, Option.map_eq_some_iff] at step
  obtain ⟨w, taken, rfl⟩ := step
  cases step_cases taken with
  | userChange =>
    cases e with
    | write name content =>
      simp [Notices.step, Edit.move, view, Edit.apply, Edit.writing, folder_put, onTheWay,
        State.enqueue, Edit.kind, Edit.name, KernelEvent.action]
    | close name =>
      simp [Notices.step, Edit.move, view, Edit.apply, Edit.writing, onTheWay, State.enqueue,
        Edit.kind, Edit.name, KernelEvent.action, notice]
    | moveIn name content =>
      simp [Notices.step, Edit.move, view, Edit.apply, Edit.writing, folder_put, onTheWay,
        State.enqueue, Edit.kind, Edit.name, KernelEvent.action, notice]
    | delete name =>
      simp [Notices.step, Edit.move, view, Edit.apply, Edit.writing, folder_erase, onTheWay,
        State.enqueue, Edit.kind, Edit.name, KernelEvent.action, notice]
    | moveOut name =>
      simp [Notices.step, Edit.move, view, Edit.apply, Edit.writing, folder_erase, onTheWay,
        State.enqueue, Edit.kind, Edit.name, KernelEvent.action, notice]

theorem notice_cases (a : LocalAction Path) :
    (a.command = .kUpload ∧ notice a = .stored a.path ∧ ∀ user fs, carried user fs a =
        .upload a.path ((readable fs (filePath user a.path)).getD [])) ∨
      (notice a = .removed a.path ∧ ∀ user fs, carried user fs a = .delete a.path) := by
  cases command : a.command <;> simp [notice, carried, command]

/-- Sending an action delivers its notice. -/
theorem send_delivers {fuel : Nat} {user : Path} {d t : Device} (before : Folder) (ends : 0 ∉ user)
    (sendable : Sendable fuel user d (.step .send)) (step : deviceStep user d (.step .send) = some t) :
    Notices.step (view user before d) .deliver = some (view user before t) ∧
      ∃ c, t.sent = d.sent ++ [(c, d.files)] ∧ Fits fuel user c ∧ Held user (c, d.files) := by
  simp only [deviceStep, Option.bind_eq_some_iff, Option.map_eq_some_iff] at step
  obtain ⟨a, next, w, taken, rfl⟩ := step
  obtain ⟨fits, there⟩ := sendable a next
  cases step_cases taken with
  | send k b here found =>
    obtain rfl : b = a := by
      have coming : d.next? = some b := by simp only [Device.next?, here, found]
      exact Option.some.inj (coming.symm.trans next)
    obtain ⟨inside, same⟩ := List.getElem?_eq_some_iff.mp found
    have first : onTheWay d.watcher = b :: onTheWay
        { d.watcher with sender := .sending (k + 1), handed := d.watcher.handed ++ [b] } := by
      rw [onTheWay, here, Sender.sent, List.drop_eq_getElem_cons inside, same]
      rfl
    rcases notice_cases b with ⟨upload, stored, carries⟩ | ⟨removed, carries⟩
    · obtain ⟨content, holds⟩ := Option.isSome_iff_exists.mp (there upload)
      rw [carries, holds, Option.getD_some] at fits ⊢
      have current : folder user d.files b.path = some content :=
        folder_of_readable ends fits.1 holds
      refine ⟨?_, _, rfl, fits, holds⟩
      simp [Notices.step, view, first, stored, current, DropboxReplication.applyMessage]
    · rw [carries] at fits ⊢
      refine ⟨?_, _, rfl, fits, trivial⟩
      simp [Notices.step, view, first, removed, DropboxReplication.applyMessage]

/-- Every other step of the threads is silent. -/
theorem other_silent {user : Path} {d t : Device} {a : Action Path Empty} (before : Folder)
    (running : Running d.watcher) (other : a ≠ .send)
    (step : deviceStep user d (.step a) = some t) :
    view user before t = view user before d ∧ t.sent = d.sent ∧ Running t.watcher := by
  have shape : (∀ kind isDir name, a ≠ .userChange kind isDir name) ∧
      (watchStep d.watcher a).map (fun w => { d with watcher := w }) = some t := by
    cases a with
    | userChange => cases step
    | send => exact absurd rfl other
    | lockUpload t => exact t.elim
    | sendFails t => exact t.elim
    | pause t => exact t.elim
    | change t => exact t.elim
    | resume t => exact t.elim
    | fails t => exact t.elim
    | read | test | append | wake | clear => exact ⟨by simp, step⟩
  obtain ⟨own, moved⟩ := shape
  obtain ⟨w, taken, rfl⟩ := Option.map_eq_some_iff.mp moved
  refine ⟨?_, rfl, step_running running taken⟩
  simp only [view, onTheWay_kept running other own taken]

/-- No edit is forgotten, and what has been sent was fit to be. -/
structure InStep (fuel : Nat) (user : Path) (before : Folder) (d : Device) : Prop where
  running : Running d.watcher
  covered : Notices.Covered (view user before d)
  sent : ∀ x ∈ d.sent, Fits fuel user x.1 ∧ Held user x

theorem begin_inStep (fuel : Nat) (user : Path) (files : Fs) :
    InStep fuel user (folder user files) (Device.begin files) := by
  refine ⟨⟨rfl, Nat.le_refl _⟩, fun name => Or.inr rfl, ?_⟩
  intro x member
  cases member

theorem device_inStep {fuel : Nat} {user : Path} {before : Folder} (ends : 0 ∉ user) (d : Device)
    (a : Act) (t : Device) (inStep : InStep fuel user before d) (sendable : Sendable fuel user d a)
    (step : deviceStep user d a = some t) : InStep fuel user before t := by
  obtain ⟨running, covered, sent⟩ := inStep
  cases a with
  | edit e =>
    have moves := edit_moves before step
    simp only [deviceStep, Option.map_eq_some_iff] at step
    obtain ⟨w, taken, rfl⟩ := step
    exact ⟨step_running running taken, Notices.step_covered _ _ _ covered moves, sent⟩
  | step a =>
    by_cases sends : a = .send
    · subst sends
      obtain ⟨delivers, c, longer, fits, held⟩ := send_delivers before ends sendable step
      simp only [deviceStep, Option.bind_eq_some_iff, Option.map_eq_some_iff] at step
      obtain ⟨_, _, w, taken, rfl⟩ := step
      refine ⟨step_running running taken, Notices.step_covered _ _ _ covered delivers, ?_⟩
      intro x member
      rw [longer] at member
      rcases List.mem_append.mp member with old | new
      · exact sent x old
      · rw [List.mem_singleton.mp new]
        exact ⟨fits, held⟩
    · obtain ⟨same, kept, running'⟩ := other_silent before running sends step
      refine ⟨running', ?_, by rw [kept]; exact sent⟩
      rw [same]
      exact covered

/-- Once everything has been sent, the changes sent lead from the files as they were at the start to
    the files as they are. -/
theorem sent_changes {fuel : Nat} {user : Path} {files : Fs} {acts : List Act} {d : Device}
    (ends : 0 ∉ user)
    (sendable : Allowed (deviceStep user) (Sendable fuel user) (Device.begin files) acts)
    (run : runs (deviceStep user) (Device.begin files) acts = some d) (drained : Drained d) :
    (d.sent.map Prod.fst).foldl DropboxReplication.applyMessage (folder user files) =
        folder user d.files ∧ ∀ x ∈ d.sent, Fits fuel user x.1 ∧ Held user x := by
  have inStep := invariant_of_allowed (device_inStep ends) sendable run (begin_inStep fuel user files)
  refine ⟨?_, inStep.sent⟩
  refine Notices.copy_current inStep.covered ?_ drained.closed
  simp [view, onTheWay, drained.queue, drained.batch, drained.vector]

/-- Whatever a user does to the files in the sync directory, and however it interleaves with the
    watcher and the sender: as long as each file that is to be sent is still there when its turn
    comes, everyone has the user's files once everything has been sent, the server, and every backup
    and other device that goes through what the server passed on. -/
theorem edits_reach_everyone {fuel : Nat} {user : Path} {files : Fs} {acts : List Act} {d : Device}
    {servers : List Byte} {device m : Machine} {mem : Nat → Byte} {p q : Path}
    {peers : List Recipient} {heard : List Byte} (ends : 0 ∉ user) (unbroken : slash ∉ user)
    (sendable : Allowed (deviceStep user) (Sendable fuel user) (Device.begin files) acts)
    (run : runs (deviceStep user) (Device.begin files) acts = some d) (drained : Drained d)
    (short : servers.length < 2 ^ 63) (fresh : Fresh (encodeString servers) device)
    (fresh' : Fresh (syncFromClient fuel user d.sent ⟨.fresh mem p, device⟩).socket.world.sent m)
    (shelf : Shelf user m.world.fs) (begins : folder user m.world.fs = folder user files)
    (ready : ∀ r ∈ peers, Ready heard [] r) (mem' : Nat → Byte) :
    ∃ k v,
      Comp.exec (serverHost fuel) (DropboxClientHandler.syncFromClient fuel servers d.sent.length)
        (.fresh mem' q) ⟨m, peers⟩ = (.ok (), k, v) ∧
      folder user v.own.world.fs = folder user d.files ∧ v.peers.length = peers.length ∧
      ∀ r ∈ v.peers, ∀ (loop : Loop) (n : Machine) (mem : Nat → Byte) (p : Path) (turns : Nat),
        Fresh r.socket.world.sent n → Shelf user n.world.fs →
        folder user n.world.fs = folder user files →
        folder user (exec (loop.run fuel servers (turns + d.sent.length)) (.fresh mem p) n).2.2.world.fs
          = folder user d.files := by
  obtain ⟨leads, fits⟩ := sent_changes ends sendable run drained
  have sent := device_sends mem p d.sent fresh.sound fresh.nothing fresh.silent fresh.coming short
    fits
  have messages : (d.sent.map fun a => message user a.1) =
      (d.sent.map Prod.fst).map (message user) := by
    rw [List.map_map]
    rfl
  rw [messages] at sent
  rw [sent] at fresh'
  have fit : ∀ c ∈ d.sent.map Prod.fst, Fits fuel user c := by
    intro c member
    obtain ⟨a, inside, rfl⟩ := List.mem_map.mp member
    exact (fits a inside).1
  obtain ⟨k, v, ran, _, same, length, all⟩ := server_relays_changes (q := q) servers mem' ends
    unbroken fit fresh' shelf ready
  rw [begins, leads] at same
  rw [List.length_map] at ran all
  refine ⟨k, v, ran, same, length, ?_⟩
  intro r member loop n mem p turns fresh'' shelf' begins'
  rw [(all r member loop n mem p turns fresh'' shelf' (begins'.trans begins.symm)).2, same]

/-- File "x" is written and closed, and the threads go through it. -/
def oneEdit : List Act :=
  [.edit (.write [120] [7]), .step (.read 1), .edit (.close [120]), .step .test, .step .append,
    .step (.read 1), .step .test, .step .append, .step .wake, .step .send, .step .clear]

theorem oneEdit_sendable :
    Allowed (deviceStep [117]) (Sendable 9 [117]) (Device.begin emptyShelf) oneEdit := by
  have sends : ∀ d : Device, d.next? = some ⟨.kUpload, [120]⟩ →
      d.files = emptyShelf.put (place [117] [120]) (.file [7]) →
      Sendable 9 [117] d (.step .send) := by
    intro d next files a member
    obtain rfl : (⟨.kUpload, [120]⟩ : LocalAction Path) = a := Option.some.inj (next.symm.trans member)
    have held : readable d.files (filePath [117] [120]) = some [7] := by
      rw [files]
      decide +kernel
    have short : (genericString (filePath [117] [120])).length < 2 ^ 63 := by decide +kernel
    have carries : carried [117] d.files ⟨.kUpload, [120]⟩ = .upload [120] [7] := by
      simp [carried, held]
    rw [carries, held]
    exact ⟨⟨by decide, short, by decide, by decide⟩, fun _ => rfl⟩
  refine allowed_cons rfl trivial (allowed_cons rfl trivial (allowed_cons rfl trivial
    (allowed_cons rfl trivial (allowed_cons rfl trivial (allowed_cons rfl trivial
      (allowed_cons rfl trivial (allowed_cons rfl trivial (allowed_cons rfl trivial
        (allowed_cons rfl ?_ (allowed_cons rfl trivial trivial))))))))))
  exact sends _ rfl rfl

theorem edits_reach_everyone_one :
    ∃ (d : Device) (bytes : List Byte) (filled : bytes ≠ []) (k : FileExchange) (v : Server),
      runs (deviceStep [117]) (Device.begin emptyShelf) oneEdit = some d ∧ d.sent.length = 1 ∧
      Comp.exec (serverHost 9) (DropboxClientHandler.syncFromClient 9 [] d.sent.length)
        (.fresh (fun _ => 0) []) ⟨oneRead bytes filled, [newBackup]⟩ = (.ok (), k, v) ∧
      folder [117] v.own.world.fs = folder [117] d.files := by
  obtain ⟨d, run, drained, one⟩ : ∃ d, runs (deviceStep [117]) (Device.begin emptyShelf) oneEdit =
      some d ∧ Drained d ∧ d.sent.length = 1 :=
    ⟨_, rfl, ⟨rfl, rfl, rfl, fun name => by simp [Edit.writing, Device.begin, Function.update_apply]⟩,
      rfl⟩
  have fits := (sent_changes (by decide) oneEdit_sendable run drained).2
  have heard := oneRead_fresh (encodeString []) (by simp [encodeString])
  have sends := device_sends (fun _ => 0) [] d.sent heard.sound heard.nothing heard.silent
    heard.coming (by decide) fits
  obtain ⟨a, alone⟩ := List.length_eq_one_iff.mp one
  have filled : (syncFromClient 9 [117] d.sent ⟨.fresh (fun _ => 0) [],
      oneRead (encodeString []) (by simp [encodeString])⟩).socket.world.sent ≠ [] := by
    rw [sends, alone]
    cases a.1 <;> simp [message, encodeMessage, encodeCommand]
  have everyone := edits_reach_everyone (by decide) (by decide) oneEdit_sendable run drained
    (by decide) heard (oneRead_fresh _ filled) emptyShelf_shelf rfl
    (show ∀ r ∈ [newBackup], Ready [] [] r by simp [newBackup_ready]) (q := [])
  obtain ⟨k, v, ran, same, _⟩ := everyone (fun _ => 0)
  exact ⟨d, _, filled, k, v, run, one, ran, same⟩

end DropboxLocalEdits
