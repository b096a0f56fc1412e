import Dropbox.Client
import Dropbox.General.Transitions
import Dropbox.StreamCalls

/-!
The pause of the watcher around the client's own changes (Client::Upload, Client::Delete
and the loop of Client::SyncFromServer). The functions are those of Client with the flag
`pause_` of Inotify; the answers of the network and the file system are those of any host.
-/
namespace DropboxWatcherPause
open Calls Programs Transitions DropboxFileStore DropboxHost DropboxProtocol DropboxStreamCalls

structure Watched where
  fe : FileExchange
  paused : Bool

def onExchange {A : Type} (x : Io FileExchange A) : Io Watched A :=
  x.zoom Watched.fe fun fe s => { s with fe := fe }

/-- Inotify::Pause -/
def pause : Io Watched Unit := Comp.modify fun s => { s with paused := true }

/-- Inotify::Resume -/
def resume : Io Watched Unit := Comp.modify fun s => { s with paused := false }

def upload (fuel : Nat) (username : List Byte) (path : Path) : Io Watched Bool := do
  onExchange (sendCommand .kUpload)
  let destPath := joinPath (syncDirWithPrefix username) (filename path)
  onExchange (setPath destPath)
  if ← onExchange sendPath then
    onExchange (setPath path)
    if ← onExchange (send fuel) then
      tryCatch (do
        pause
        orThrow (onExchange (onFiles (.copyFile path destPath)))
        resume
        pure true) fun _ => pure false
    else pure false
  else pure false

def delete (username : List Byte) (filePath : Path) : Io Watched Bool := do
  onExchange (sendCommand .kDelete)
  onExchange (setPath (joinPath (syncDirWithPrefix username) (filename filePath)))
  if ← onExchange sendPath then
    tryCatch (do
      pause
      let path ← onExchange getPath
      let _ ← orThrow (onExchange (onFiles (.remove path)))
      resume
      pure true) fun _ => pure false
  else pure false

/-- An iteration of SyncFromServer; the result is false where it goes on to reconnect. -/
def syncFromServerTurn (fuel : Nat) : Io Watched Bool := do
  match ← onExchange receiveCommand with
  | .error .connectionAborted =>
    onExchange (note .reconnecting)
    pure false
  | .error .fromErrno => pure true
  | .ok (some .kUpload) =>
    let _ ← onExchange receivePath
    pause
    let _ ← onExchange (receive fuel)
    resume
    pure true
  | .ok (some .kDelete) =>
    let _ ← onExchange receivePath
    let path ← onExchange getPath
    if ← orThrow (onExchange (onFiles (.pathExists path))) then
      pause
      let _ ← orThrow (onExchange (onFiles (.remove path)))
      resume
      pure true
    else pure true
  | .ok _ => pure true

def syncFromServer (fuel : Nat) : Nat → Io Watched Unit
  | 0 => pure ()
  | turns + 1 => do
    if ← syncFromServerTurn fuel then syncFromServer fuel turns else pure ()

-- the rules for them are enough from here on
attribute [local irreducible] Comp.erases Comp.ensures

section Erasure
variable {A B : Type}

theorem erases_onExchange (x : Io FileExchange A) : Comp.erases Watched.fe (onExchange x) x :=
  Comp.erases_zoom (fun _ _ => rfl) x

theorem erases_orThrow {x : Io Watched (Option A)} {y : Io FileExchange (Option A)}
    (asked : Comp.erases Watched.fe x y) : Comp.erases Watched.fe (orThrow x) (orThrow y) := by
  refine Comp.erases_bind asked fun r => ?_
  cases r with
  | none => exact Comp.erases_throw _
  | some a => exact Comp.erases_pure a

theorem erases_tryCatch {x : Io Watched A} {y : Io FileExchange A} (a : A)
    (tried : Comp.erases Watched.fe x y) :
    Comp.erases Watched.fe (DropboxHost.tryCatch x fun _ => pure a)
      (DropboxHost.tryCatch y fun _ => pure a) := by
  refine Comp.erases_catching tried fun f => ?_
  split
  · exact Comp.erases_pure a
  · exact Comp.erases_throw f

theorem erases_pause {x : Io Watched A} {y : Io FileExchange A}
    (later : Comp.erases Watched.fe x y) : Comp.erases Watched.fe (do pause; x) y :=
  Comp.erases_modify (f := fun s : Watched => { s with paused := true }) (fun _ => rfl) later

theorem erases_resume {x : Io Watched A} {y : Io FileExchange A}
    (later : Comp.erases Watched.fe x y) : Comp.erases Watched.fe (do resume; x) y :=
  Comp.erases_modify (f := fun s : Watched => { s with paused := false }) (fun _ => rfl) later

/-- Without the flag these are the functions of the client. -/
theorem upload_erases (fuel : Nat) (username : List Byte) (path : Path) :
    Comp.erases Watched.fe (upload fuel username path)
      (DropboxClient.upload fuel username path) := by
  refine Comp.erases_bind (erases_onExchange _) fun _ => ?_
  refine Comp.erases_bind (erases_onExchange _) fun _ => ?_
  refine Comp.erases_bind (erases_onExchange _) fun sent => ?_
  cases sent with
  | false => exact Comp.erases_pure false
  | true =>
    refine Comp.erases_bind (erases_onExchange _) fun _ => ?_
    refine Comp.erases_bind (erases_onExchange _) fun whole => ?_
    cases whole with
    | false => exact Comp.erases_pure false
    | true =>
      refine erases_tryCatch false (erases_pause ?_)
      refine Comp.erases_bind (erases_orThrow (erases_onExchange _)) fun _ => ?_
      exact erases_resume (Comp.erases_pure true)

theorem delete_erases (username : List Byte) (filePath : Path) :
    Comp.erases Watched.fe (delete username filePath)
      (DropboxClient.delete username filePath) := by
  refine Comp.erases_bind (erases_onExchange _) fun _ => ?_
  refine Comp.erases_bind (erases_onExchange _) fun _ => ?_
  refine Comp.erases_bind (erases_onExchange _) fun sent => ?_
  cases sent with
  | false => exact Comp.erases_pure false
  | true =>
    refine erases_tryCatch false (erases_pause ?_)
    refine Comp.erases_bind (erases_onExchange _) fun path => ?_
    refine Comp.erases_bind (erases_orThrow (erases_onExchange _)) fun _ => ?_
    exact erases_resume (Comp.erases_pure true)

/-- The whole loop; its commands are told apart as in the source. -/
theorem syncFromServer_erases (fuel turns : Nat) :
    Comp.erases Watched.fe (syncFromServer fuel turns)
      (DropboxClient.syncFromServer fuel turns) := by
  induction turns with
  | zero => exact Comp.erases_pure ()
  | succ turns ih =>
    have goesOn : Comp.erases Watched.fe
        (do if ← (pure true : Io Watched Bool) then syncFromServer fuel turns else pure ())
        (DropboxClient.syncFromServer fuel turns) := ih
    unfold syncFromServer syncFromServerTurn DropboxClient.syncFromServer
    rw [Comp.bind_assoc]
    refine Comp.erases_bind (erases_onExchange _) fun received => ?_
    rcases received with (_ | _) | (_ | command)
    · rw [Comp.bind_assoc]
      exact Comp.erases_bind (erases_onExchange _) fun _ => Comp.erases_pure ()
    · exact goesOn
    · exact goesOn
    · cases command with
      | kUpload =>
        dsimp only
        rw [Comp.bind_assoc]
        refine Comp.erases_bind (erases_onExchange _) fun _ => ?_
        rw [Comp.bind_assoc]
        refine erases_pause ?_
        rw [Comp.bind_assoc]
        refine Comp.erases_bind (erases_onExchange _) fun _ => ?_
        rw [Comp.bind_assoc]
        exact erases_resume goesOn
      | kDelete =>
        dsimp only
        rw [Comp.bind_assoc]
        refine Comp.erases_bind (erases_onExchange _) fun _ => ?_
        rw [Comp.bind_assoc]
        refine Comp.erases_bind (erases_onExchange _) fun path => ?_
        rw [Comp.bind_assoc]
        refine Comp.erases_bind (erases_orThrow (erases_onExchange _)) fun there => ?_
        cases there with
        | false => exact goesOn
        | true =>
          simp only [if_true]
          rw [Comp.bind_assoc]
          refine erases_pause ?_
          rw [Comp.bind_assoc]
          refine Comp.erases_bind (erases_orThrow (erases_onExchange _)) fun _ => ?_
          rw [Comp.bind_assoc]
          exact erases_resume goesOn
      | _ => exact goesOn

end Erasure

/-- The streams with an exchange that is used here. -/
inductive Connection where
  | payload
  | server
  deriving DecidableEq, Repr

structure Client where
  payload : FileExchange
  server : FileExchange
  paused : Bool

def Client.watched (c : Client) : Connection → Watched
  | .payload => ⟨c.payload, c.paused⟩
  | .server => ⟨c.server, c.paused⟩

def Client.after (c : Client) : Connection → Watched → Client
  | .payload, w => { c with payload := w.fe, paused := w.paused }
  | .server, w => { c with server := w.fe, paused := w.paused }

inductive Operation where
  | upload (path : Path)
  | delete (filePath : Path)
  | syncFromServer
  deriving DecidableEq, Repr

def Operation.connection : Operation → Connection
  | upload _ | delete _ => .payload
  | syncFromServer => .server

def Operation.perform (fuel : Nat) (username : List Byte) : Operation → Io Watched Bool
  | upload path => DropboxWatcherPause.upload fuel username path
  | delete filePath => DropboxWatcherPause.delete username filePath
  | syncFromServer => syncFromServerTurn fuel

section Runs
variable {M : Type} (hosts : Connection → M → (s : Sys) → s.Reply × M) (fuel : Nat)
  (username : List Byte)

/-- An operation that comes to its end, by an exception as well. -/
def step (s : Client × M) (o : Operation) : Option (Client × M) :=
  let ended := Comp.exec (hosts o.connection) (o.perform fuel username)
    (s.1.watched o.connection) s.2
  let after := some (s.1.after o.connection ended.2.1, ended.2.2)
  match ended.1 with
  | .ok _ => after
  | .error f => if f.isException then after else none

/-- copy_file or remove throws. -/
def refused : (s : Sys) → s.Reply → Bool
  | .file (.copyFile _ _), reply => reply.isNone
  | .file (.remove _), reply => reply.isNone
  | _, _ => false

/-- One of these calls of the operation throws. -/
def Throws (s : Client × M) (o : Operation) : Prop :=
  (Comp.exec (Comp.recording (hosts o.connection) refused) (o.perform fuel username)
    (s.1.watched o.connection) (s.2, false)).2.2.2 = true

/-- How an operation leaves off that began when the watcher was not paused and nothing had
    thrown: if it ends, the watcher is paused just where something threw. -/
def Settled {A : Type} : Except Fault A → Watched → M × Bool → Prop :=
  Comp.either (fun _ w h => w.paused = h.2)
    fun f w h => if f.isException then w.paused = h.2 else h.2 = false

section Settling
variable {A : Type} {host : M → (s : Sys) → s.Reply × M} {w : Watched} {h : M × Bool}

theorem settled_refl (r : Except Fault A) (same : w.paused = h.2) (calm : h.2 = false) :
    Settled r w h := by
  cases r with
  | ok a => exact same
  | error f =>
    show if f.isException then _ else _
    split
    · exact same
    · exact calm

theorem ensures_pause {e : Env Sys Sys.Reply (M × Bool)} {x : Io Watched A}
    {Q : Except Fault A → Watched → M × Bool → Prop} :
    Comp.ensures e (do pause; x) Q w h ↔ Comp.ensures e x Q { w with paused := true } h := by
  rw [Comp.ensures_bind, pause, Comp.ensures_modify, Comp.either_ok]

/-- A call that is no copy_file and no remove. -/
def Plain (s : Sys) : Prop := ∀ r, refused s r = false

theorem plain_network : Network Plain := ⟨⟨fun _ _ => rfl, fun _ _ => rfl⟩, fun _ _ => rfl⟩

theorem plain_reads (p : Path) : Reads Plain p := ⟨fun _ => rfl, fun _ => rfl, fun _ _ _ => rfl⟩

theorem plain_writes (p : Path) : Writes Plain p :=
  ⟨fun _ => rfl, fun _ => rfl, fun _ => rfl, fun _ _ => rfl⟩

/-- What makes no other calls moves neither the flag nor the record. -/
theorem ensures_plain {x : Io FileExchange A} {Good : Except Fault A → Prop}
    (made : ∀ fe, Comp.ensures (allows Plain) x (fun r _ _ => Good r) fe ())
    {Q : Except Fault A → Watched → M × Bool → Prop}
    (next : ∀ r v k, Good r → v.paused = w.paused → k.2 = h.2 → Q r v k) :
    Comp.ensures (answers (Comp.recording host refused)) (onExchange x) Q w h := by
  unfold onExchange
  rw [Comp.ensures_zoom]
  have keeps : ∀ (g : M × Bool) (s : Sys) (r : s.Reply) (k : M × Bool), g.2 = h.2 → Plain s →
      Comp.recording host refused g s = (r, k) → k.2 = h.2 := by
    intro g s r k before plain reply
    obtain rfl : (Comp.recording host refused g s).2 = k := congrArg Prod.snd reply
    show (g.2 || refused s _) = h.2
    rw [plain, Bool.or_false, before]
  refine Comp.ensures_mono (ensures_of_allows (I := fun k : M × Bool => k.2 = h.2)
    (fun _ _ _ _ => trivial) keeps rfl (made w.fe)) fun r fe k kept => ?_
  exact next r _ k kept.1 rfl kept.2

/-- A step of an operation while the watcher is not paused. -/
theorem settled_then {B : Type} {x : Io FileExchange A} {f : A → Io Watched B}
    (made : Makes Plain x) (running : w.paused = false) (calm : h.2 = false)
    (next : ∀ a (v : Watched) (k : M × Bool), v.paused = false → k.2 = false →
      Comp.ensures (answers (Comp.recording host refused)) (f a) Settled v k) :
    Comp.ensures (answers (Comp.recording host refused)) (onExchange x >>= f) Settled w h := by
  rw [Comp.ensures_bind]
  refine ensures_plain made fun r v k _ same kept => ?_
  rw [running] at same
  rw [calm] at kept
  cases r with
  | ok a => exact next a v k same kept
  | error e => exact settled_refl (.error e : Except Fault B) (same.trans kept.symm) kept

theorem settled_orThrow_then {B : Type} {x : Io FileExchange (Option A)} {f : A → Io Watched B}
    (made : Makes Plain x) (running : w.paused = false) (calm : h.2 = false)
    (next : ∀ a (v : Watched) (k : M × Bool), v.paused = false → k.2 = false →
      Comp.ensures (answers (Comp.recording host refused)) (f a) Settled v k) :
    Comp.ensures (answers (Comp.recording host refused)) (orThrow (onExchange x) >>= f)
      Settled w h := by
  unfold orThrow
  rw [Comp.bind_assoc]
  refine settled_then made running calm fun reply v k running calm => ?_
  cases reply with
  | none =>
    refine Comp.ensures_bind.mpr (Comp.ensures_throw.mpr ?_)
    exact settled_refl (.error .filesystem : Except Fault B) (running.trans calm.symm) calm
  | some a => exact next a v k running calm

/-- A call that may throw, after Pause: the watcher goes on only where it did not throw. -/
theorem settled_change {B : Type} {x : Io Watched (Option B)}
    (asked : Comp.ensures (answers (Comp.recording host refused)) x
      (fun r v k => v.paused = w.paused ∧ ∃ reply, r = .ok reply ∧ k.2 = (h.2 || reply.isNone)) w h)
    (paused : w.paused = true) (calm : h.2 = false) :
    Comp.ensures (answers (Comp.recording host refused)) (do
      let _ ← orThrow x
      resume
      pure true) Settled w h := by
  unfold orThrow
  rw [Comp.bind_assoc, Comp.ensures_bind]
  refine Comp.ensures_mono asked fun r v k ended => ?_
  obtain ⟨same, reply, rfl, recorded⟩ := ended
  rw [calm, Bool.false_or] at recorded
  cases reply with
  | none =>
    refine Comp.ensures_bind.mpr (Comp.ensures_throw.mpr ?_)
    show v.paused = k.2
    rw [same, paused, recorded]
    rfl
  | some b =>
    refine Comp.ensures_bind.mpr (Comp.ensures_pure.mpr ?_)
    refine Comp.ensures_bind.mpr (Comp.ensures_modify.mpr (Comp.ensures_pure.mpr ?_))
    show false = k.2
    rw [recorded]
    rfl

theorem settled_copyFile (p q : Path) (paused : w.paused = true) (calm : h.2 = false) :
    Comp.ensures (answers (Comp.recording host refused)) (do
      orThrow (onExchange (onFiles (.copyFile p q)))
      resume
      pure true) Settled w h :=
  settled_change (x := onExchange (onFiles (.copyFile p q)))
    (Comp.ensures_call_answers.mpr ⟨rfl, _, rfl, rfl⟩) paused calm

theorem settled_remove (p : Path) (paused : w.paused = true) (calm : h.2 = false) :
    Comp.ensures (answers (Comp.recording host refused)) (do
      let _ ← orThrow (onExchange (onFiles (.remove p)))
      resume
      pure true) Settled w h :=
  settled_change (x := onExchange (onFiles (.remove p)))
    (Comp.ensures_call_answers.mpr ⟨rfl, _, rfl, rfl⟩) paused calm

theorem settled_tryCatch {x : Io Watched A} {a : A}
    (tried : Comp.ensures (answers (Comp.recording host refused)) x Settled w h) :
    Comp.ensures (answers (Comp.recording host refused))
      (DropboxHost.tryCatch x fun _ => pure a) Settled w h := by
  rw [ensures_tryCatch]
  refine Comp.ensures_mono tried fun r v k settled => ?_
  cases r with
  | ok a => exact settled
  | error f =>
    rw [Comp.either_error]
    simp only [Settled, Comp.either_error] at settled ⊢
    split
    · rename_i exception
      exact Comp.ensures_pure.mpr (by simpa [exception] using settled)
    · rename_i fault
      simpa [fault] using settled

end Settling

section Operations
variable {host : M → (s : Sys) → s.Reply × M} {w : Watched} {h : M × Bool} {fuel : Nat}
  {username : List Byte}

theorem upload_settled (path : Path) (running : w.paused = false) (calm : h.2 = false) :
    Comp.ensures (answers (Comp.recording host refused)) (upload fuel username path)
      Settled w h := by
  refine settled_then (makes_sendCommand plain_network _) running calm fun _ v k running calm => ?_
  refine settled_then (makes_modify _) running calm fun _ v k running calm => ?_
  refine settled_then (makes_sendPath plain_network) running calm fun sent v k running calm => ?_
  cases sent with
  | false => exact Comp.ensures_pure.mpr (running.trans calm.symm)
  | true =>
    refine settled_then (makes_modify _) running calm fun _ v k running calm => ?_
    refine settled_then (makes_send plain_network plain_reads fuel) running calm
      fun whole v k running calm => ?_
    cases whole with
    | false => exact Comp.ensures_pure.mpr (running.trans calm.symm)
    | true =>
      refine settled_tryCatch (ensures_pause.mpr ?_)
      exact settled_copyFile _ _ rfl calm

theorem delete_settled (filePath : Path) (running : w.paused = false) (calm : h.2 = false) :
    Comp.ensures (answers (Comp.recording host refused)) (delete username filePath)
      Settled w h := by
  refine settled_then (makes_sendCommand plain_network _) running calm fun _ v k running calm => ?_
  refine settled_then (makes_modify _) running calm fun _ v k running calm => ?_
  refine settled_then (makes_sendPath plain_network) running calm fun sent v k running calm => ?_
  cases sent with
  | false => exact Comp.ensures_pure.mpr (running.trans calm.symm)
  | true =>
    refine settled_tryCatch (ensures_pause.mpr ?_)
    rw [getPath, onExchange, Comp.ensures_bind, Comp.ensures_zoom, Comp.ensures_bind,
      Comp.ensures_get, Comp.either_ok, Comp.ensures_pure, Comp.either_ok]
    exact settled_remove v.fe.path rfl calm

/-- Receive lets no exception out between Pause and Resume. -/
theorem settled_receive (calm : h.2 = false) :
    Comp.ensures (answers (Comp.recording host refused)) (do
      pause
      let _ ← onExchange (receive fuel)
      resume
      pure true) Settled w h := by
  have made := noexcept_faults (makes_bind makes_getPath fun path =>
    makes_receiveAt plain_network.toWire (plain_writes path) fuel)
  rw [ensures_pause, Comp.ensures_bind]
  refine ensures_plain made fun r v k silent _ kept => ?_
  rw [calm] at kept
  cases r with
  | ok received =>
    rw [Comp.either_ok, resume, Comp.ensures_bind, Comp.ensures_modify, Comp.either_ok]
    exact Comp.ensures_pure.mpr kept.symm
  | error f =>
    show if f.isException then _ else _
    rw [silent f rfl]
    exact kept

theorem sync_settled (running : w.paused = false) (calm : h.2 = false) :
    Comp.ensures (answers (Comp.recording host refused)) (syncFromServerTurn fuel)
      Settled w h := by
  refine settled_then (makes_receiveCommand plain_network.toWire) running calm
    fun received v k running calm => ?_
  have still : v.paused = k.2 := running.trans calm.symm
  rcases received with (_ | _) | (_ | command)
  · refine settled_then (makes_call (plain_network.note _)) running calm
      fun _ v k running calm => ?_
    exact Comp.ensures_pure.mpr (running.trans calm.symm)
  · exact Comp.ensures_pure.mpr still
  · exact Comp.ensures_pure.mpr still
  · cases command with
    | kUpload =>
      refine settled_then (makes_receivePath plain_network.toWire) running calm
        fun _ v k running calm => ?_
      exact settled_receive calm
    | kDelete =>
      refine settled_then (makes_receivePath plain_network.toWire) running calm
        fun _ v k running calm => ?_
      refine settled_then makes_getPath running calm fun path v k running calm => ?_
      refine settled_orThrow_then (makes_call fun _ => rfl) running calm
        fun there v k running calm => ?_
      cases there with
      | false => exact Comp.ensures_pure.mpr (running.trans calm.symm)
      | true => exact ensures_pause.mpr (settled_remove path rfl calm)
    | _ => exact Comp.ensures_pure.mpr still

theorem perform_settled (o : Operation) (running : w.paused = false) (calm : h.2 = false) :
    Comp.ensures (answers (Comp.recording host refused)) (o.perform fuel username)
      Settled w h := by
  cases o with
  | upload path => exact upload_settled path running calm
  | delete filePath => exact delete_settled filePath running calm
  | syncFromServer => exact sync_settled running calm

end Operations

@[simp] theorem watched_paused (c : Client) (on : Connection) :
    (c.watched on).paused = c.paused := by
  cases on <;> rfl

@[simp] theorem after_paused (c : Client) (on : Connection) (w : Watched) :
    (c.after on w).paused = w.paused := by
  cases on <;> rfl

variable {hosts fuel username}

/-- An operation that ends leaves the watcher paused exactly where one of its calls throws; one
    that does not end comes to none that throws. -/
theorem step_pauses {s : Client × M} (o : Operation) (running : s.1.paused = false) :
    (∀ t, step hosts fuel username s o = some t →
      (t.1.paused = false ↔ ¬ Throws hosts fuel username s o)) ∧
    (step hosts fuel username s o = none → ¬ Throws hosts fuel username s o) := by
  have performed : Comp.ensures (answers (Comp.recording (hosts o.connection) refused))
      (o.perform fuel username) Settled (s.1.watched o.connection) (s.2, false) :=
    perform_settled o ((watched_paused s.1 o.connection).trans running) rfl
  have settled := Comp.ensures_answers.mp performed
  unfold step Throws
  rw [Comp.exec_recording _ refused _ _ _ false]
  generalize Comp.exec (Comp.recording (hosts o.connection) refused) (o.perform fuel username)
    (s.1.watched o.connection) (s.2, false) = ended at settled
  obtain ⟨r, w, m, thrown⟩ := ended
  have paused : w.paused = thrown → ∀ t, some (s.1.after o.connection w, m) = some t →
      (t.1.paused = false ↔ ¬ thrown = true) := by
    intro same t taken
    cases taken
    rw [after_paused, same, Bool.not_eq_true]
  cases r with
  | ok a => exact ⟨paused settled, fun none => absurd none (by simp)⟩
  | error f =>
    simp only [Settled, Comp.either_error] at settled
    cases exception : f.isException with
    | true =>
      rw [exception] at settled
      simp only [exception, if_true]
      exact ⟨paused settled, fun none => absurd none (by simp)⟩
    | false =>
      rw [exception] at settled
      simp only [exception, if_false, Bool.false_eq_true]
      refine ⟨fun t taken => absurd taken (by simp), fun _ => ?_⟩
      simpa using settled

end Runs

/-- The watcher goes on after each of the operations if and only if none of their calls of
    copy_file and remove throws. -/
theorem never_left_paused_iff {M : Type} (hosts : Connection → M → (s : Sys) → s.Reply × M)
    (fuel : Nat) (username : List Byte) {s : Client × M} (operations : List Operation)
    (start : s.1.paused = false) :
    Along (step hosts fuel username) (fun s => s.1.paused = false) s operations ↔
      Allowed (step hosts fuel username) (fun s o => ¬ Throws hosts fuel username s o) s
        operations := by
  have given : Allowed (step hosts fuel username) (fun _ _ => True) s operations :=
    allowed_everywhere (fun _ _ => trivial) s operations
  exact along_iff_allowed_given (fun s o t running _ taken => (step_pauses o running).1 t taken)
    (fun s o running _ none => (step_pauses o running).2 none) given start

/-- A user u whose directory holds a file a and a directory d that is not empty. -/
def home : Path := syncDirWithPrefix [117]

def stored : Machine :=
  ⟨⟨((Fs.empty.put (key home) .dir).put (key (joinPath home [97])) (.file [7])).put
      (key (joinPath home [100])) .dir |>.put (key (joinPath home [100, 47, 98])) (.file []),
    [], [], []⟩, [], []⟩

def atRest : Client := ⟨.fresh (fun _ => 0) [], .fresh (fun _ => 0) [], false⟩

theorem never_left_paused_iff_stored :
    atRest.paused = false ∧
    (Along (step (fun _ => host) 2 [117]) (fun s => s.1.paused = false) (atRest, stored)
        [.delete [97]] ↔
      Allowed (step (fun _ => host) 2 [117]) (fun s o => ¬ Throws (fun _ => host) 2 [117] s o)
        (atRest, stored) [.delete [97]]) :=
  ⟨rfl, never_left_paused_iff (fun _ => host) 2 [117] [.delete [97]] rfl⟩

/-- A file uploaded from the synchronised directory itself is copied onto itself. -/
theorem upload_onto_itself_pauses :
    atRest.paused = false ∧
      (runs (step (fun _ => host) 2 [117]) (atRest, stored) [.upload (joinPath home [97])]).map
        (fun s => s.1.paused) = some true := by
  decide +kernel

example : (runs (step (fun _ => host) 2 [117]) (atRest, stored) [.delete [100]]).map
    (fun s => s.1.paused) = some true := by
  decide +kernel

end DropboxWatcherPause
