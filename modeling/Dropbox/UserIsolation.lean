import Dropbox.Confinement
import Dropbox.General.Unwinding
import Dropbox.LocalCalls

/-!
Users do not see one another. As long as the paths a handler receives lead inside its
user's directory, the threads of one user and the directory they work on go through any
run as if the handlers of all other users were not there.
-/
namespace DropboxUserIsolation
open Transitions Programs Unwinding DropboxFileStore DropboxDirectoryTree DropboxHost
open DropboxFileTouches DropboxSocketStream DropboxProtocol DropboxHandlerThreads
open DropboxHandlerCalls DropboxLocalCalls DropboxConfinement
variable {H : Type} [DecidableEq H]

/-- The calls on files that the handlers of a user have made. -/
def callsOf (user : H → List Byte) (username : List Byte) (s : State H) : List (H × FileCall) :=
  (s.calls.filter fun call => user call.1 = username).map fun call => (call.1, call.2.2)

/-- Two states that are the same to a user. -/
structure Alike (user : H → List Byte) (username : List Byte) (s u : State H) : Prop where
  files : Agree username s.fs u.fs
  threads : ∀ h, user h = username → s.thread h = u.thread h
  calls : callsOf user username s = callsOf user username u

/-- Part of a step that has nothing to do with the files, or the answer to a call. -/
inductive Moves (fuel : Nat) (user : H → List Byte) (s : State H) (h : H) (kind : Kind)
    (a : Answer) : State H → Prop where
  | apart (thread : Thread) : (∀ u : State H, u.thread h = s.thread h →
      handlerStep fuel user u (h, kind, a) = some (u.setThread h kind thread)) →
      Moves fuel user s h kind a (s.setThread h kind thread)
  | answered (thread : Thread) (after : Fs) (call : Option FileCall) :
      (s.thread h kind).answered s.fs a = some (thread, after, call) →
      (∀ u : State H, handlerStep fuel user u (h, kind, a) =
        ((u.thread h kind).answered u.fs a).map fun r => { u.setThread h kind r.1 with
          fs := r.2.1, calls := u.calls ++ (r.2.2.map (h, u.fs, ·)).toList }) →
      Moves fuel user s h kind a { s.setThread h kind thread with
        fs := after, calls := s.calls ++ (call.map (h, s.fs, ·)).toList }

theorem step_moves {fuel : Nat} {user : H → List Byte} {s t : State H} {h : H} {kind : Kind}
    {a : Answer} (step : handlerStep fuel user s (h, kind, a) = some t) :
    Moves fuel user s h kind a t := by
  have answers : (∀ u : State H, handlerStep fuel user u (h, kind, a) =
      ((u.thread h kind).answered u.fs a).map fun r => { u.setThread h kind r.1 with
        fs := r.2.1, calls := u.calls ++ (r.2.2.map (h, u.fs, ·)).toList }) →
      Moves fuel user s h kind a t := by
    intro shape
    rw [shape] at step
    obtain ⟨⟨thread, after, call⟩, one, rfl⟩ := Option.map_eq_some_iff.mp step
    exact .answered thread after call one shape
  cases a with
  | next =>
    obtain ⟨thread, moved, rfl⟩ := Option.map_eq_some_iff.mp step
    refine .apart thread ?_
    intro u same
    rw [handlerStep, same, moved]
    rfl
  | stop =>
    cases kind with
    | payload => exact answers fun _ => rfl
    | clientSync =>
      simp only [handlerStep] at step
      split at step
      · rename_i fe here
        cases step
        refine .apart .ended ?_
        intro u same
        simp only [handlerStep, same, here]
      · cases step
  | received bytes => cases kind <;> exact answers fun _ => rfl
  | sent n => cases kind <;> exact answers fun _ => rfl
  | heard success => cases kind <;> exact answers fun _ => rfl
  | done => cases kind <;> exact answers fun _ => rfl

section parts
variable {username : List Byte} {A : Type}

/-- The same entries of the directory were made and taken away in both stores. -/
structure Same (username : List Byte) (fs gs after after' : Fs) : Prop where
  edits : ∃ edits : List Edit, (∀ one ∈ edits, (directory username).within one.1 = true) ∧
    after = edits.foldl Fs.edit fs ∧ after' = edits.foldl Fs.edit gs

theorem answer_alike {p q : Prog Sys Sys.Reply A} {Q : A → Unit → Prop} {fs gs after : Fs} {a : Answer}
    {call : Option FileCall} (flat : (directory username).names = [syncDirWithPrefix username])
    (calm : wp (confines username) p Q ()) (agree : Agree username fs gs)
    (tables : TablesLocal fs.render) (moved : answer fs p a = some (q, after, call)) :
    ∃ after', answer gs p a = some (q, after', call) ∧ Same username fs gs after after' := by
  have still : Same username fs gs fs gs := ⟨[], by simp, rfl, rfl⟩
  obtain _ | ⟨s, next⟩ := p
  · cases moved
  · cases s with
    | recv n =>
      cases a with
      | received bytes =>
        simp only [answer, Option.ite_none_right_eq_some, Option.some.injEq] at moved
        obtain ⟨fits, ⟨⟩⟩ := moved
        exact ⟨gs, if_pos fits, still⟩
      | _ => cases moved
    | send out =>
      cases a with
      | sent n =>
        simp only [answer, Option.ite_none_right_eq_some, Option.some.injEq] at moved
        obtain ⟨fits, ⟨⟩⟩ := moved
        exact ⟨gs, if_pos fits, still⟩
      | _ => cases moved
    | file c =>
      cases a with
      | done =>
        cases moved
        have inside : Local username c := local_of_touches (calm.1 c rfl)
        obtain ⟨reply, edits⟩ := fileCall_alike flat agree tables inside
        refine ⟨(fileCall gs c).2, ?_, ⟨edits⟩⟩
        rw [answer, reply]
      | _ => cases moved
    | note e =>
      cases a with
      | done =>
        cases moved
        exact ⟨gs, rfl, still⟩
      | _ => cases moved
    | broadcast e =>
      cases a with
      | heard success =>
        cases moved
        exact ⟨gs, rfl, still⟩
      | _ => cases moved

theorem answered_alike {t u : Thread} {fs gs after : Fs} {a : Answer} {call : Option FileCall}
    (flat : (directory username).names = [syncDirWithPrefix username])
    (calm : ThreadCalm username t) (agree : Agree username fs gs) (tables : TablesLocal fs.render)
    (moved : t.answered fs a = some (u, after, call)) :
    ∃ after', t.answered gs a = some (u, after', call) ∧ Same username fs gs after after' := by
  cases t with
  | command attempts p =>
    obtain ⟨⟨q, rest⟩, one, ⟨⟩⟩ := Option.map_eq_some_iff.mp moved
    obtain ⟨after', other, same⟩ := answer_alike flat calm agree tables one
    exact ⟨after', by rw [Thread.answered, other]; rfl, same⟩
  | path c p =>
    obtain ⟨⟨q, rest⟩, one, ⟨⟩⟩ := Option.map_eq_some_iff.mp moved
    obtain ⟨after', other, same⟩ := answer_alike flat calm agree tables one
    exact ⟨after', by rw [Thread.answered, other]; rfl, same⟩
  | rest p =>
    obtain ⟨⟨q, rest⟩, one, ⟨⟩⟩ := Option.map_eq_some_iff.mp moved
    obtain ⟨after', other, same⟩ := answer_alike flat calm agree tables one
    exact ⟨after', by rw [Thread.answered, other]; rfl, same⟩
  | ended => cases moved

theorem agree_after {fs gs after after' : Fs} (agree : Agree username fs gs)
    (same : Same username fs gs after after') : Agree username after after' := by
  obtain ⟨edits, _, rfl, rfl⟩ := same
  exact agree_edits agree edits

theorem render_after {fs gs after after' : Fs} (same : Same username fs gs after after') :
    after.render = fs.render := by
  obtain ⟨edits, _, rfl, _⟩ := same
  exact render_edits edits fs

/-- The directories of two users have no entry in common. -/
theorem directories_apart {v w : List Byte} (ends : 0 ∉ v) (ends' : 0 ∉ w) (unbroken : slash ∉ v)
    (unbroken' : slash ∉ w) (other : v ≠ w) {k : Key} (inside : (directory v).within k = true) :
    (directory w).within k = false := by
  by_contra both
  have inside' : (directory w).within k = true := by simpa using both
  obtain ⟨front, same⟩ := within_iff.mp inside
  obtain ⟨front', same'⟩ := within_iff.mp inside'
  have name : [120] ≠ ([] : Path) := by simp
  have deep : Below v ⟨k.absolute, k.names ++ [[120]]⟩ := by
    refine ⟨within_iff.mpr ⟨front ++ [[120]], by rw [same, List.append_assoc]; rfl⟩, ?_⟩
    intro equal
    rw [same] at equal
    have sizes := congrArg (fun k : Key => k.names.length) equal
    simp [directory] at sizes
  refine below_apart ends ends' unbroken unbroken' other deep ⟨?_, ?_⟩
  · exact within_iff.mpr ⟨front' ++ [[120]], by rw [same', List.append_assoc]; rfl⟩
  · intro equal
    rw [same'] at equal
    have sizes := congrArg (fun k : Key => k.names.length) equal
    simp [directory] at sizes

/-- A step inside one directory does not show in another. -/
theorem agree_apart {other : List Byte} {fs gs hs after after' : Fs}
    (apart : ∀ k, (directory username).within k = true → (directory other).within k = false)
    (same : Same username fs gs after after') (agree : Agree other fs hs) : Agree other after hs := by
  obtain ⟨edits, inside, rfl, _⟩ := same
  exact agree_elsewhere agree fun one member => apart one.1 (inside one member)

end parts

/-- What holds in every state of a run with careful paths. -/
structure Sound (user : H → List Byte) (s : State H) : Prop where
  safe : ∃ fs, Safe user fs s
  tables : TablesLocal s.fs.render

section steps
variable {user : H → List Byte} {username : List Byte} {fuel : Nat}

theorem step_sound (flat : ∀ h, (directory (user h)).names = [syncDirWithPrefix (user h)])
    (s : State H) (a : H × Kind × Answer) (t : State H) (sound : Sound user s)
    (careful : Careful user s a) (step : handlerStep fuel user s a = some t) : Sound user t := by
  obtain ⟨⟨fs, safe⟩, tables⟩ := sound
  refine ⟨⟨fs, step_safe s a t safe careful step⟩, ?_⟩
  obtain ⟨h, kind, a⟩ := a
  cases step_moves step with
  | apart thread same => exact tables
  | answered thread after call one shape =>
    obtain ⟨_, _, same⟩ := answered_alike (flat h) (safe.calm h kind) (agree_refl s.fs) tables one
    show TablesLocal after.render
    rw [render_after same]
    exact tables

omit [DecidableEq H] in
theorem callsOf_append (s u : State H) (more : List (H × Fs × FileCall))
    (calls : u.calls = s.calls ++ more) : callsOf user username u =
      callsOf user username s ++
        (more.filter fun call => user call.1 = username).map fun call => (call.1, call.2.2) := by
  rw [callsOf, calls, List.filter_append, List.map_append, callsOf]

theorem setThread_alike {s u : State H} {h : H} (kind : Kind) (thread : Thread)
    (mine : user h = username) (threads : ∀ g, user g = username → s.thread g = u.thread g) :
    ∀ g, user g = username →
      (s.setThread h kind thread).thread g = (u.setThread h kind thread).thread g := by
  intro g yours
  simp only [State.setThread, Function.update_apply]
  split
  · rw [threads h mine]
  · exact threads g yours

theorem setThread_apart {s : State H} {h : H} (kind : Kind) (thread : Thread)
    (other : user h ≠ username) : ∀ g, user g = username →
      (s.setThread h kind thread).thread g = s.thread g := by
  intro g yours
  have apart : g ≠ h := by
    rintro rfl
    exact other yours
  simp only [State.setThread, Function.update_of_ne apart]

theorem own_matched (flat : ∀ h, (directory (user h)).names = [syncDirWithPrefix (user h)]) :
    OwnMatched (handlerStep fuel user) (Careful user) (Sound user)
    (Sound user) (Alike user username) fun a => decide (user a.1 = username) := by
  rintro s u ⟨h, kind, a⟩ t sound sound' alike careful own step
  have mine : user h = username := of_decide_eq_true own
  have thread_eq := alike.threads h mine
  have also : Careful user u (h, kind, a) := by
    unfold Careful at careful ⊢
    rwa [← thread_eq]
  have later : ∀ v, handlerStep fuel user u (h, kind, a) = some v → Alike user username t v →
      ∃ v, handlerStep fuel user u (h, kind, a) = some v ∧ Alike user username t v ∧
        Sound user v ∧ Careful user u (h, kind, a) :=
    fun v taken same => ⟨v, taken, same, step_sound flat u _ v sound' also taken, also⟩
  cases step_moves step with
  | apart thread same =>
    refine later _ (same u thread_eq.symm) ⟨alike.files, ?_, alike.calls⟩
    exact setThread_alike kind thread mine alike.threads
  | answered thread after call one shape =>
    obtain ⟨fs, safe⟩ := sound.safe
    have calm : ThreadCalm username (s.thread h kind) := mine ▸ safe.calm h kind
    obtain ⟨after', other, same⟩ := answered_alike (mine ▸ flat h) calm alike.files sound.tables one
    have taken : handlerStep fuel user u (h, kind, a) = some { u.setThread h kind thread with
        fs := after', calls := u.calls ++ (call.map (h, u.fs, ·)).toList } := by
      rw [shape, ← thread_eq, other]
      rfl
    refine later _ taken ⟨agree_after alike.files same, ?_, ?_⟩
    · exact setThread_alike kind thread mine alike.threads
    · refine (callsOf_append s _ _ rfl).trans ((callsOf_append u _ _ rfl).trans ?_).symm
      rw [alike.calls]
      cases call with
      | none => rfl
      | some c => simp [mine]

theorem others_unseen (ends : ∀ h, 0 ∉ user h) (unbroken : ∀ h, slash ∉ user h) (ends' : 0 ∉ username)
    (unbroken' : slash ∉ username) : OthersUnseen (handlerStep fuel user) (Careful user)
      (Sound user) (Alike user username) fun a => decide (user a.1 = username) := by
  rintro s u ⟨h, kind, a⟩ t sound alike careful others step
  have other : user h ≠ username := of_decide_eq_false others
  have kept : ∀ thread g, user g = username →
      (s.setThread h kind thread).thread g = u.thread g := by
    intro thread g yours
    rw [setThread_apart kind thread other g yours, alike.threads g yours]
  cases step_moves step with
  | apart thread same => exact ⟨alike.files, kept thread, alike.calls⟩
  | answered thread after call one shape =>
    obtain ⟨fs, safe⟩ := sound.safe
    obtain ⟨_, _, same⟩ := answered_alike (directory_flat (ends h) (unbroken h)) (safe.calm h kind)
      (agree_refl s.fs) sound.tables one
    refine ⟨agree_apart ?_ same alike.files, kept thread, ?_⟩
    · exact fun k => directories_apart (ends h) ends' (unbroken h) unbroken' other
    · refine (callsOf_append s _ _ rfl).trans ?_
      rw [← alike.calls]
      cases call with
      | none => simp
      | some c => simp [other]

end steps

/-- In every run in which the paths that are received lead inside, what the handlers of one user
    have come to, the calls they have made and the directory they leave are those of their own steps
    run alone, from any store with the same directory. -/
theorem run_isolated {fuel : Nat} {user : H → List Byte} {servers username : List Byte} {fs gs : Fs}
    {stream : H → Kind → SocketStream} {actions : List (H × Kind × Answer)} {s : State H}
    (tree : TreeShaped fs) (tree' : TreeShaped gs) (tables : TablesLocal fs.render)
    (agree : Agree username fs gs) (ends : ∀ h, 0 ∉ user h) (unbroken : ∀ h, slash ∉ user h)
    (ends' : 0 ∉ username) (unbroken' : slash ∉ username)
    (careful : Allowed (handlerStep fuel user) (Careful user) (start fuel user servers fs stream)
      actions)
    (run : runs (handlerStep fuel user) (start fuel user servers fs stream) actions = some s) :
    ∃ t, runs (handlerStep fuel user) (start fuel user servers gs stream)
        (actions.filter fun a => user a.1 = username) = some t ∧ Alike user username s t := by
  have flat := fun h => directory_flat (ends h) (unbroken h)
  have sound : Sound user (start fuel user servers fs stream) :=
    ⟨⟨fs, start_safe ends tree servers stream⟩, tables⟩
  have sound' : Sound user (start fuel user servers gs stream) := by
    refine ⟨⟨gs, start_safe ends tree' servers stream⟩, ?_⟩
    show TablesLocal gs.render
    rwa [← agree.tables]
  have alike : Alike user username (start fuel user servers fs stream)
      (start fuel user servers gs stream) := ⟨agree, fun _ _ => rfl, rfl⟩
  obtain ⟨t, alone, same, _⟩ := run_projects (step_sound flat) (own_matched flat)
    (others_unseen ends unbroken ends' unbroken') sound sound' alike careful run
  exact ⟨t, alone, same⟩

/-- The directory of "b" alone. -/
def oneDirectory : Fs :=
  (Fs.empty.put (key (syncDirWithPrefix [98])) .dir).put (child (syncDirWithPrefix [98]) [[120]])
    (.file [2])

theorem oneDirectory_tree : TreeShaped oneDirectory :=
  put_tree _ (put_tree .dir empty_tree (by decide +kernel) (by decide +kernel) (by decide +kernel))
    (by decide +kernel) (by decide +kernel) (by decide +kernel)

/-- "a" and "b" each delete their own file. -/
def bothDelete : List (Bool × Kind × Answer) :=
  deletion (joinPath (syncDirWithPrefix [97]) [120]) ++
    (deletion (joinPath (syncDirWithPrefix [98]) [120])).map fun a => (true, a.2)

theorem run_isolated_delete : ∃ s t,
    runs (handlerStep 9 twoUsers) (start 9 twoUsers [] twoDirectories idleStreams) bothDelete =
      some s ∧
    runs (handlerStep 9 twoUsers) (start 9 twoUsers [] oneDirectory idleStreams)
      (bothDelete.filter fun a => twoUsers a.1 = [98]) = some t ∧
    Alike twoUsers [98] s t ∧ deletedBy [98] { t with calls := [] } = true := by
  have ran : (runs (handlerStep 9 twoUsers) (start 9 twoUsers [] twoDirectories idleStreams)
      bothDelete).map (fun s => deletedBy [98] { s with calls := [] }) = some true := by
    decide +kernel
  obtain ⟨s, run, deleted⟩ := Option.map_eq_some_iff.mp ran
  have careful : Allowed (handlerStep 9 twoUsers) (Careful twoUsers)
      (start 9 twoUsers [] twoDirectories idleStreams) bothDelete := by decide +kernel
  have agree : Agree [98] twoDirectories oneDirectory := ⟨rfl, rfl, by decide +kernel⟩
  obtain ⟨t, alone, same⟩ := run_isolated twoDirectories_tree oneDirectory_tree
    (fun _ _ _ _ => rfl) agree (by decide) (by decide) (by decide) (by decide) careful run
  have there := entry_agrees same.files (k := child (syncDirWithPrefix [98]) [[120]])
    (by decide +kernel)
  refine ⟨s, t, run, alone, same, ?_⟩
  simpa [deletedBy, there] using deleted

end DropboxUserIsolation
