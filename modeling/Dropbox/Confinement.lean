import Dropbox.General.Transitions
import Dropbox.HandlerCalls

/-!
Which files the handlers of a server touch. Nothing checks the path that a command names,
so a client reaches what it names; as long as it names places inside its own directory,
every interleaving of the handlers stays there.
-/
namespace DropboxConfinement
open Transitions Programs DropboxFileStore DropboxDirectoryTree DropboxHost DropboxFileTouches
open DropboxSocketStream DropboxProtocol DropboxHandlerThreads DropboxHandlerCalls
variable {H : Type} [DecidableEq H]

/-- The path leads there and has no element `.` or `..` on its way. -/
def Inside (username : List Byte) (p : Path) : Prop :=
  Below username (key p) ∧ [46] ∉ (key p).names ∧ [46, 46] ∉ (key p).names

instance (username : List Byte) (p : Path) : Decidable (Inside username p) :=
  inferInstanceAs (Decidable (_ ∧ _ ∧ _))

/-- What a handler touches lies inside the directory of its user, nothing else has changed, and
    nothing inside the directory of another user was touched. -/
structure Confined (user : H → List Byte) (fs : Fs) (s : State H) : Prop where
  inside : ∀ call ∈ s.calls, ∀ k, Touches call.2.1 call.2.2 k → Below (user call.1) k
  kept : ∀ k, s.fs.entry k ≠ fs.entry k → ∃ call ∈ s.calls, Touches call.2.1 call.2.2 k
  apart : ∀ call ∈ s.calls, ∀ k, Touches call.2.1 call.2.2 k → ∀ g, user g ≠ user call.1 →
    slash ∉ user g → slash ∉ user call.1 → ¬ Below (user g) k

/-- The path that has been received leads into the directory of the user. -/
def Careful (user : H → List Byte) (s : State H) (a : H × Kind × Answer) : Prop :=
  match s.thread a.1 a.2.1 with
  | .path _ (.ret (.ok true, fe)) => Inside (user a.1) fe.path
  | _ => True

instance (user : H → List Byte) (s : State H) (a : H × Kind × Answer) :
    Decidable (Careful user s a) := by
  unfold Careful
  split <;> infer_instance

/-- Users "a" and "b", each with a file "x". -/
def twoUsers : Bool → List Byte
  | false => [97]
  | true => [98]

def twoDirectories : Fs :=
  ((((Fs.empty.put (key (syncDirWithPrefix [97])) .dir).put
    (child (syncDirWithPrefix [97]) [[120]]) (.file [1])).put
    (key (syncDirWithPrefix [98])) .dir).put (child (syncDirWithPrefix [98]) [[120]]) (.file [2]))

theorem twoDirectories_tree : TreeShaped twoDirectories :=
  put_tree _ (put_tree .dir (put_tree _ (put_tree .dir empty_tree (by decide +kernel)
    (by decide +kernel) (by decide +kernel)) (by decide +kernel) (by decide +kernel)
    (by decide +kernel)) (by decide +kernel) (by decide +kernel) (by decide +kernel))
    (by decide +kernel) (by decide +kernel) (by decide +kernel)

def idleStreams : Bool → Kind → SocketStream := fun _ _ => .fresh fun _ => 0

/-- The payload thread of "a" sends the file and then serves a delete of this path. -/
def deletion (p : Path) : List (Bool × Kind × Answer) :=
  [.done, .done, .done, .done, .next, .sent (some 35),
    .received (some (encodeCommand .kDelete ++ encodePath p)), .next, .done, .next, .done,
    .done].map fun a => (false, .payload, a)

def afterDeletion (p : Path) : Option (State Bool) :=
  runs (handlerStep 9 twoUsers) (start 9 twoUsers [] twoDirectories idleStreams) (deletion p)

/-- The file below this directory is gone, and the handlers of "b" have called nothing. -/
def deletedBy (username : List Byte) (s : State Bool) : Bool :=
  s.fs.entry (child (syncDirWithPrefix username) [[120]]) = none && s.calls.all fun call => !call.1

/-- "a" deletes the file of "b". -/
theorem other_user_is_reached :
    ¬ ∀ (fuel : Nat) (user : Bool → List Byte) (servers : List Byte) (fs : Fs)
      (stream : Bool → Kind → SocketStream) (actions : List (Bool × Kind × Answer)) (s : State Bool),
      TreeShaped fs → (∀ h, 0 ∉ user h) →
        runs (handlerStep fuel user) (start fuel user servers fs stream) actions = some s →
          Confined user fs s := by
  intro claim
  have ran : (afterDeletion (joinPath (syncDirWithPrefix [98]) [120])).map (deletedBy [98]) =
      some true := by decide +kernel
  obtain ⟨s, run, deleted⟩ := Option.map_eq_some_iff.mp ran
  simp only [deletedBy, Bool.and_eq_true, decide_eq_true_eq, List.all_eq_true,
    Bool.not_eq_true'] at deleted
  obtain ⟨gone, callers⟩ := deleted
  have confined := claim _ _ _ _ _ _ s twoDirectories_tree (by decide) run
  have before : twoDirectories.entry (child (syncDirWithPrefix [98]) [[120]]) ≠ none := by
    decide +kernel
  obtain ⟨call, member, touched⟩ := confined.kept _ (by rw [gone]; exact Ne.symm before)
  have inside := confined.inside call member _ touched
  rw [callers call member] at inside
  exact absurd inside (by decide +kernel)

section parts
variable {username : List Byte} {A : Type}

attribute [local irreducible] receiveCommand

/-- What is left of the part stays inside, and path_ is fine where the thread goes on with it. -/
def ThreadCalm (username : List Byte) : Thread → Prop
  | .command _ p => wp (confines username) p (fun r _ => Fine username r.2.path) ()
  | .path _ p => wp (confines username) p (fun r _ => r.1 ≠ .ok true → Fine username r.2.path) ()
  | .rest p => wp (confines username) p (fun r _ => Fine username r.2.path) ()
  | .ended => True

/-- One answered call. -/
structure Answered (username : List Byte) (fs after : Fs) (call : Option FileCall) : Prop where
  tree : TreeShaped after
  inside : ∀ c, call = some c → ∀ k, Touches fs c k → Below username k
  kept : ∀ k, after.entry k ≠ fs.entry k → ∃ c, call = some c ∧ Touches fs c k

theorem answered_same {fs : Fs} {c : Option FileCall} (tree : TreeShaped fs)
    (inside : ∀ d, c = some d → ∀ k, Touches fs d k → Below username k) :
    Answered username fs fs c := ⟨tree, inside, fun _ changed => absurd rfl changed⟩

theorem answer_calm {p q : Prog Sys Sys.Reply A} {Q : A → Unit → Prop} {fs after : Fs} {a : Answer}
    {call : Option FileCall} (calm : wp (confines username) p Q ()) (tree : TreeShaped fs)
    (moved : answer fs p a = some (q, after, call)) :
    wp (confines username) q Q () ∧ Answered username fs after call := by
  obtain _ | ⟨s, next⟩ := p
  · cases moved
  · obtain ⟨owed, later⟩ := calm
    cases s with
    | recv n =>
      cases a with
      | received bytes =>
        simp only [answer, Option.ite_none_right_eq_some, Option.some.injEq] at moved
        obtain ⟨_, ⟨⟩⟩ := moved
        exact ⟨later _ _ trivial, answered_same tree (by simp)⟩
      | _ => cases moved
    | send out =>
      cases a with
      | sent n =>
        simp only [answer, Option.ite_none_right_eq_some, Option.some.injEq] at moved
        obtain ⟨_, ⟨⟩⟩ := moved
        exact ⟨later _ _ trivial, answered_same tree (by simp)⟩
      | _ => cases moved
    | file c =>
      cases a with
      | done =>
        cases moved
        refine ⟨later _ _ ⟨fs, tree, rfl⟩, fileCall_tree tree c, ?_, ?_⟩
        · rintro d ⟨⟩
          exact owed c rfl fs tree
        · intro k changed
          exact ⟨c, rfl, touches_of_changed tree changed⟩
      | _ => cases moved
    | note e =>
      cases a with
      | done =>
        cases moved
        exact ⟨later _ _ trivial, answered_same tree (by simp)⟩
      | _ => cases moved
    | broadcast e =>
      cases a with
      | heard success =>
        cases moved
        exact ⟨later _ _ trivial, answered_same tree fun d same => owed d same fs tree⟩
      | _ => cases moved

theorem thread_answered_calm {t u : Thread} {fs after : Fs} {a : Answer} {call : Option FileCall}
    (calm : ThreadCalm username t) (tree : TreeShaped fs)
    (moved : t.answered fs a = some (u, after, call)) :
    ThreadCalm username u ∧ Answered username fs after call := by
  cases t with
  | command attempts p =>
    obtain ⟨⟨q, rest⟩, one, ⟨⟩⟩ := Option.map_eq_some_iff.mp moved
    exact answer_calm calm tree one
  | path c p =>
    obtain ⟨⟨q, rest⟩, one, ⟨⟩⟩ := Option.map_eq_some_iff.mp moved
    exact answer_calm calm tree one
  | rest p =>
    obtain ⟨⟨q, rest⟩, one, ⟨⟩⟩ := Option.map_eq_some_iff.mp moved
    exact answer_calm calm tree one
  | ended => cases moved

/-- The next part starts calm, if a path that was received leads inside. -/
theorem thread_next_calm {t u : Thread} {fuel : Nat} {kind : Kind}
    (calm : ThreadCalm username t)
    (careful : ∀ c fe, t = .path c (.ret (.ok true, fe)) → Inside username fe.path)
    (moved : t.next fuel username kind = some u) : ThreadCalm username u := by
  match t, moved with
  | .command attempts (.ret (.ok (.ok c), fe)), moved =>
    simp only [Thread.next] at moved
    split at moved
    · cases moved
      exact calm_naming calm kind c
    · rename_i other
      cases moved
      exact calm_pathless fuel kind other fe calm
  | .command attempts (.ret (.ok (.error _), fe)), moved =>
    cases kind with
    | payload =>
      simp only [Thread.next] at moved
      split at moved
      · cases moved
        trivial
      · cases moved
        exact calm_receiveCommand fe calm
    | clientSync =>
      cases moved
      exact calm
  | .command attempts (.ret (.error _, fe)), moved =>
    cases moved
    trivial
  | .path c (.ret (.ok received, fe)), moved =>
    cases moved
    have fine : Fine username fe.path := by
      cases received with
      | true => exact Or.inr (careful c fe rfl).1
      | false => exact calm (by simp)
    exact calm_afterPath fuel kind c received fe fine
  | .path c (.ret (.error _, fe)), moved =>
    cases moved
    trivial
  | .rest (.ret (.ok true, fe)), moved =>
    cases moved
    exact calm_receiveCommand fe calm
  | .rest (.ret (.ok false, fe)), moved =>
    cases moved
    trivial
  | .rest (.ret (.error _, fe)), moved =>
    cases moved
    trivial

end parts

structure Safe (user : H → List Byte) (fs : Fs) (s : State H) : Prop where
  tree : TreeShaped s.fs
  inside : ∀ call ∈ s.calls, ∀ k, Touches call.2.1 call.2.2 k → Below (user call.1) k
  kept : ∀ k, s.fs.entry k ≠ fs.entry k → ∃ call ∈ s.calls, Touches call.2.1 call.2.2 k
  calm : ∀ h kind, ThreadCalm (user h) (s.thread h kind)

theorem setThread_calm {user : H → List Byte} {s : State H} {h : H} {kind : Kind} {t : Thread}
    (all : ∀ g other, ThreadCalm (user g) (s.thread g other)) (calm : ThreadCalm (user h) t) :
    ∀ g other, ThreadCalm (user g) ((s.setThread h kind t).thread g other) := by
  intro g other
  simp only [State.setThread, Function.update_apply]
  split
  · rename_i same
    subst same
    rw [Function.update_apply]
    split
    · exact calm
    · exact all g other
  · exact all g other

theorem answered_safe {user : H → List Byte} {fs : Fs} {s : State H} {h : H} {kind : Kind}
    {t : Thread} {after : Fs} {call : Option FileCall} (safe : Safe user fs s)
    (calm : ThreadCalm (user h) t) (one : Answered (user h) s.fs after call) :
    Safe user fs { s.setThread h kind t with
      fs := after, calls := s.calls ++ (call.map (h, s.fs, ·)).toList } := by
  refine ⟨one.tree, ?_, ?_, setThread_calm safe.calm calm⟩
  · intro made member
    rcases List.mem_append.mp member with old | new
    · exact safe.inside made old
    · obtain ⟨c, same, rfl⟩ := Option.map_eq_some_iff.mp (Option.mem_toList.mp new)
      exact one.inside c same
  · intro k changed
    by_cases now : after.entry k = s.fs.entry k
    · have before : s.fs.entry k ≠ fs.entry k := by rwa [← now]
      obtain ⟨made, member, touched⟩ := safe.kept k before
      exact ⟨made, List.mem_append_left _ member, touched⟩
    · obtain ⟨c, same, touched⟩ := one.kept k now
      refine ⟨(h, s.fs, c), List.mem_append_right _ ?_, touched⟩
      rw [same]
      exact List.mem_singleton.mpr rfl

theorem step_safe {fuel : Nat} {user : H → List Byte} {fs : Fs} (s : State H)
    (a : H × Kind × Answer) (t : State H) (safe : Safe user fs s) (careful : Careful user s a)
    (step : handlerStep fuel user s a = some t) : Safe user fs t := by
  obtain ⟨h, kind, a⟩ := a
  have answers : ∀ u : State H, ((s.thread h kind).answered s.fs a).map (fun r =>
      { s.setThread h kind r.1 with fs := r.2.1, calls := s.calls ++ (r.2.2.map (h, s.fs, ·)).toList }) =
        some u → Safe user fs u := by
    intro u moved
    obtain ⟨⟨thread, after, call⟩, one, rfl⟩ := Option.map_eq_some_iff.mp moved
    obtain ⟨calm, answered⟩ := thread_answered_calm (safe.calm h kind) safe.tree one
    exact answered_safe safe calm answered
  cases a with
  | next =>
    obtain ⟨thread, moved, rfl⟩ := Option.map_eq_some_iff.mp step
    have named : ∀ c fe, s.thread h kind = .path c (.ret (.ok true, fe)) →
        Inside (user h) fe.path := by
      intro c fe here
      simpa [Careful, here] using careful
    have calm := thread_next_calm (safe.calm h kind) named moved
    exact ⟨safe.tree, safe.inside, safe.kept, setThread_calm safe.calm calm⟩
  | stop =>
    cases kind with
    | payload => exact answers t step
    | clientSync =>
      simp only [handlerStep] at step
      split at step
      · cases step
        exact ⟨safe.tree, safe.inside, safe.kept, setThread_calm safe.calm trivial⟩
      · cases step
  | received bytes => cases kind <;> exact answers t step
  | sent n => cases kind <;> exact answers t step
  | heard success => cases kind <;> exact answers t step
  | done => cases kind <;> exact answers t step

omit [DecidableEq H] in
theorem start_safe {fuel : Nat} {user : H → List Byte} {fs : Fs} (ends : ∀ h, 0 ∉ user h)
    (tree : TreeShaped fs) (servers : List Byte) (stream : H → Kind → SocketStream) :
    Safe user fs (start fuel user servers fs stream) := by
  refine ⟨tree, ?_, fun _ changed => absurd rfl changed, ?_⟩
  · intro call member
    cases member
  · intro h kind
    exact calm_opening (ends h) fuel servers kind _ (Or.inl rfl)

/-- The directories of two users have nothing in common. -/
theorem below_apart {u v : List Byte} {k : Key} (ends : 0 ∉ u) (ends' : 0 ∉ v) (unbroken : slash ∉ u)
    (unbroken' : slash ∉ v) (other : u ≠ v) (below : Below u k) : ¬ Below v k := by
  have single : ∀ w : List Byte, 0 ∉ w → slash ∉ w →
      key (syncDirWithPrefix w) = ⟨false, [syncDirWithPrefix w]⟩ := by
    intro w ends unbroken
    have plain : Plain (syncDirWithPrefix w) := by
      refine ⟨by simp [syncDirWithPrefix, kSyncDirPrefix], ?_, ?_⟩
      · simpa [syncDirWithPrefix, kSyncDirPrefix, slash] using unbroken
      · simpa [syncDirWithPrefix, kSyncDirPrefix] using ends
    rw [key_eq plain.2.2, names_plain_name plain, relative_plain plain]
  intro below'
  obtain ⟨front, same⟩ := within_iff.mp below.1
  obtain ⟨front', same'⟩ := within_iff.mp below'.1
  rw [single u ends unbroken] at same
  rw [single v ends' unbroken'] at same'
  have names := congrArg Key.names (same.symm.trans same')
  simp only [List.cons_append, List.cons.injEq] at names
  exact other (List.append_cancel_left names.1)

/-- In every run in which each path a handler receives leads inside its user's directory, all files
    the handlers touch lie in the directories of their users. -/
theorem careful_paths_are_confined {fuel : Nat} {user : H → List Byte} {servers : List Byte} {fs : Fs}
    {stream : H → Kind → SocketStream} {actions : List (H × Kind × Answer)} {s : State H}
    (tree : TreeShaped fs) (ends : ∀ h, 0 ∉ user h)
    (careful : Allowed (handlerStep fuel user) (Careful user) (start fuel user servers fs stream)
      actions)
    (run : runs (handlerStep fuel user) (start fuel user servers fs stream) actions = some s) :
    Confined user fs s := by
  have safe := invariant_of_allowed step_safe careful run (start_safe ends tree servers stream)
  refine ⟨safe.inside, safe.kept, ?_⟩
  intro call member k touched g other unbroken unbroken'
  exact below_apart (ends _) (ends g) unbroken' unbroken (Ne.symm other)
    (safe.inside call member k touched)

/-- "a" deletes its own file. -/
theorem careful_paths_are_confined_delete :
    ∃ s, deletedBy [97] s = true ∧ Confined twoUsers twoDirectories s := by
  have ran : (afterDeletion (joinPath (syncDirWithPrefix [97]) [120])).map (deletedBy [97]) =
      some true := by decide +kernel
  obtain ⟨s, run, deleted⟩ := Option.map_eq_some_iff.mp ran
  have careful : Allowed (handlerStep 9 twoUsers) (Careful twoUsers)
      (start 9 twoUsers [] twoDirectories idleStreams)
      (deletion (joinPath (syncDirWithPrefix [97]) [120])) := by decide +kernel
  exact ⟨s, deleted, careful_paths_are_confined twoDirectories_tree (by decide) careful run⟩

end DropboxConfinement
