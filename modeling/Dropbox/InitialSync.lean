import Dropbox.DirectoryTree
import Dropbox.SenderFraming

/-!
ClientHandler::GetSyncDir puts a list of files on the stream, Client::GetSyncDir empties
its directory and takes them from it. The last bytes leave the server's buffer with its
next read.
-/
namespace DropboxInitialSync
open DropboxFileStore DropboxDirectoryTree DropboxHost DropboxSocketStream DropboxStreamRules
open DropboxProtocol DropboxProtocolRules DropboxSenderFraming Programs

/-- Between two uses: nothing has failed, is unread or waits to be sent. -/
structure Idle (fe : FileExchange) : Prop where
  good : fe.stream.good = true
  get : fe.buf.gptr = fe.buf.egptr
  array : fe.buf.egptr ≤ kBufferSize
  put : fe.buf.pptr = 0

/-- The directory can be listed and holds files that can be read, and nothing else. -/
structure Serves (fs : Fs) (p : Path) (fuel : Nat) (listed : List Path) : Prop where
  tree : TreeShaped fs
  lists : listDirectory fs p = some listed
  reads : ∀ name ∈ listed, ∃ content, readable fs (joinPath p name) = some content ∧
    content.length < fuel
  short : ∀ name ∈ listed, (genericString (joinPath p name)).length < 2 ^ 63

/-- A directory with any content, or none yet, and no call that fails. -/
structure Accepts (fs : Fs) (p : Path) : Prop where
  tree : TreeShaped fs
  allowed : ∀ a k, fs.refused a k = false
  place : fs.entry (key p) = some .dir ∨ fs.entry (key p) = none ∧ fs.parentIsDir (key p) = true

/-- The second store has the same entries in this directory as the first. -/
def SameDirectory (fs gs : Fs) (p : Path) : Prop :=
  gs.entry (key p) = some .dir ∧
    ∀ below, below ≠ [] → gs.entry (child p below) = fs.entry (child p below)

/-- The first so many names have been received, nothing else is in the directory. -/
structure Holds (fs gs : Fs) (p : Path) (done : List Path) : Prop where
  tree : TreeShaped gs
  allowed : ∀ a k, gs.refused a k = false
  made : gs.entry (key p) = some .dir
  below : ∀ below, below ≠ [] → gs.entry (child p below) =
    if ∃ name ∈ done, below = [name] then fs.entry (child p below) else none

variable {K : Contract} {fs gs : Fs} {log : List Event} {p q : Path} {fuel turns : Nat}
variable {user : List Byte}

theorem live_idle {fe : FileExchange} {m : Machine} (idle : Idle fe) (sound : m.Sound) :
    Live (m.world.rcvd ++ m.coming) FileExchange.buf m.world.rcvd m.world.sent fe m ∧
      fe.buf.unread = [] := by
  have none_unread : fe.buf.unread = [] := by
    rw [SocketBuffer.unread, idle.get, Nat.sub_self, window_zero]
  have none_pending : fe.buf.pending = [] := by
    rw [SocketBuffer.pending, idle.put, window_zero]
  refine ⟨⟨sound, rfl, ?_⟩, none_unread⟩
  refine ⟨idle.get.le, idle.array, ?_, ?_, ?_, List.prefix_append _ _⟩
  · rw [idle.put]
    exact Nat.zero_le _
  · rw [none_unread, List.append_nil]
  · rw [none_pending, List.append_nil]

/-- What stands in the directory of `p` once the parts below these names are gone. -/
def Emptied (fs gs : Fs) (p : Path) (gone : List Path) : Prop :=
  ∀ below, below ≠ [] → gs.entry (child p below) =
    if ∃ name ∈ gone, below.head? = some name then none else fs.entry (child p below)

theorem parentIsDir_child (name : Path) : gs.parentIsDir (child p [name]) =
    (decide (((key p).names ++ [name]).length ≤ 1) || decide (gs.entry (key p) = some .dir)) := by
  rw [Fs.parentIsDir, child, List.dropLast_concat]

/-- The loop of RemoveAllFromDirectory. -/
theorem keeps_removeEntries {listed gone : List Path} (log : List Event) (filled : p ≠ []) (ends : 0 ∉ p)
    (plain : ∀ name ∈ listed, Plain name) (tree : TreeShaped gs)
    (allowed : ∀ a k, gs.refused a k = false) (made : gs.entry (key p) = some .dir)
    (emptied : Emptied fs gs p gone) :
    ∃ wiped, TreeShaped wiped ∧ (∀ a k, wiped.refused a k = false) ∧ wiped.entry (key p) = some .dir ∧
      Emptied fs wiped p (gone ++ listed) ∧
      Keeps K FileExchange.buf (At q gs log) (DropboxClient.removeEntries p listed) ()
        (At q wiped log) := by
  induction listed generalizing gs gone with
  | nil =>
    refine ⟨gs, tree, allowed, made, ?_, keeps_pure ()⟩
    rwa [List.append_nil]
  | cons name rest ih =>
    have first := plain name List.mem_cons_self
    have here := key_joinPath filled ends first
    have named : (key (joinPath p name)).names ≠ [] := by
      rw [here, child]
      simp
    obtain ⟨cleared, clearing, same⟩ := removeAll_allowed allowed
      (wantsDirectory_of_filename (zero_not_mem_joinPath ends first) (by
        rw [filename_joinPath filled first]
        exact first.1)) (not_belowFile tree (by rw [here, parentIsDir_child, made]; simp))
    have entries := removeAll_entry tree named clearing
    rw [here] at entries
    have kept : cleared.entry (key p) = some .dir := by
      rw [entries, ← child_nil, if_neg, child_nil, made]
      rw [within_child]
      simp
    have emptied' : Emptied fs cleared p (gone ++ [name]) := by
      intro below filled'
      rw [entries, emptied below filled']
      simp only [within_child]
      by_cases now : below.head? = some name
      · rw [if_pos now, if_pos ⟨name, List.mem_append_right _ List.mem_cons_self, now⟩]
      · rw [if_neg now]
        by_cases before : ∃ name' ∈ gone, below.head? = some name'
        · obtain ⟨name', member, there⟩ := before
          rw [if_pos ⟨name', member, there⟩, if_pos ⟨name', List.mem_append_left _ member, there⟩]
        · rw [if_neg before, if_neg]
          rintro ⟨name', member, there⟩
          rcases List.mem_append.mp member with old | new
          · exact before ⟨name', old, there⟩
          · exact now (by rwa [← List.mem_singleton.mp new])
    obtain ⟨wiped, tree', allowed', made', all, keeps⟩ :=
      ih (fun other member => plain other (List.mem_cons_of_mem _ member))
        (removeAll_tree tree clearing) (by rwa [same]) kept emptied'
    refine ⟨wiped, tree', allowed', made', ?_, ?_⟩
    · rwa [List.append_assoc, List.singleton_append] at all
    · have removing : Keeps K FileExchange.buf (At q gs log)
          (orThrow (onFiles (.removeAll (joinPath p name)))) () (At q cleared log) :=
        keeps_orThrow (keeps_onFiles (by simp [fileCall, clearing, orSame]))
      exact keeps_bind removing keeps

theorem keeps_makeSyncDir (log : List Event) (named : (key p).names ≠ []) (accepts : Accepts gs p) :
    ∃ made, TreeShaped made ∧ (∀ a k, made.refused a k = false) ∧ made.entry (key p) = some .dir ∧
      Keeps K FileExchange.buf (At q gs log) (DropboxClient.makeSyncDir p) () (At q made log) := by
  obtain ⟨tree, allowed, place⟩ := accepts
  have asks : Keeps K FileExchange.buf (At q gs log) (orThrow (onFiles (.pathExists p)))
      (gs.stat p).isSome (At q gs log) :=
    keeps_orThrow (keeps_onFiles (by simp [fileCall, pathExists, allowed]))
  rcases place with there | ⟨absent, parent⟩
  · refine ⟨gs, tree, allowed, there, keeps_bind asks ?_⟩
    have found : (gs.stat p).isSome = true := by simp [Fs.stat, there]
    rw [found, if_pos rfl]
    exact keeps_pure ()
  · have made : createDirectory gs p = some (true, gs.put (key p) .dir) := by
      rw [createDirectory, absent]
      simp [named, parent, allowed]
    have creates : Keeps K FileExchange.buf (At q gs log) (orThrow (onFiles (.createDirectory p)))
        true (At q (gs.put (key p) .dir) log) :=
      keeps_orThrow (keeps_onFiles (by simp [fileCall, made, orSame]))
    refine ⟨gs.put (key p) .dir, ?_, allowed, entry_put_self named, keeps_bind asks ?_⟩
    · exact put_tree .dir tree (key_names_plain p) (by simp [absent]) parent
    · have found : (gs.stat p).isSome = false := by simp [Fs.stat, absent]
      rw [found, if_neg Bool.false_ne_true]
      exact keeps_bind creates (keeps_pure ())

/-- What GetSyncDir of the client does before it reads from the stream. -/
theorem keeps_wiped (fs : Fs) (log : List Event) (filled : p ≠ []) (ends : 0 ∉ p) (named : (key p).names ≠ [])
    (accepts : Accepts gs p) :
    ∃ made wiped, Holds fs wiped p [] ∧
      Keeps K FileExchange.buf (At q gs log) (DropboxClient.makeSyncDir p) () (At q made log) ∧
      Keeps K FileExchange.buf (At q made log) (DropboxClient.removeAllFromDirectory p) ()
        (At q wiped log) := by
  obtain ⟨made, tree, allowed, there, makes⟩ := keeps_makeSyncDir (K := K) (q := q) log
    named accepts
  obtain ⟨listed, lists⟩ : ∃ listed, listDirectory made p = some listed := by
    rw [listDirectory, if_pos ⟨there, by simp [allowed]⟩]
    exact ⟨_, rfl⟩
  have plain := listed_plain tree lists
  have untouched : Emptied made made p [] := by
    intro below _
    simp
  obtain ⟨wiped, tree', allowed', there', emptied, removes⟩ := keeps_removeEntries (K := K) (q := q)
    log filled ends plain tree allowed there untouched
  have listing : Keeps K FileExchange.buf (At q made log) (orThrow (onFiles (.listDirectory p)))
      listed (At q made log) := keeps_orThrow (keeps_onFiles (by simp [fileCall, lists]))
  refine ⟨made, wiped, ⟨tree', allowed', there', ?_⟩, makes, keeps_bind listing removes⟩
  intro below filled'
  rw [emptied below filled', List.nil_append]
  obtain ⟨name, rest, rfl⟩ := List.exists_cons_of_ne_nil filled'
  by_cases member : name ∈ listed
  · simp [member]
  · have absent : made.entry (child p [name]) = none := by
      by_contra present
      exact member ((mem_listDirectory lists).mpr present)
    have bare : made.entry (child p (name :: rest)) = none := by
      by_contra present
      by_cases only : rest = []
      · rw [only] at present
        exact present absent
      · have shape : child p (name :: rest) =
            ⟨(key p).absolute, ((key p).names ++ [name]) ++ rest⟩ := by
          simp [child]
        rw [shape] at present
        have dir := directory_above tree (by simp) only present
        have same : made.entry (child p [name]) = some .dir := dir
        rw [absent] at same
        cases same
    simp [member, bare]

theorem holds_put {name content : Path} {done : List Path} (plain : Plain name)
    (holds : Holds fs gs p done) (same : fs.entry (child p [name]) = some (.file content)) :
    Holds fs (gs.put (child p [name]) (.file content)) p (done ++ [name]) := by
  obtain ⟨tree, allowed, made, entries⟩ := holds
  have parts : ∀ part ∈ (child p [name]).names, Plain part := by
    intro part member
    rcases List.mem_append.mp member with above | last
    · exact key_names_plain p part above
    · rwa [List.mem_singleton.mp last]
  have free : gs.entry (child p [name]) ≠ some .dir := by
    rw [entries [name] (by simp), same]
    split <;> simp
  have parent : gs.parentIsDir (child p [name]) = true := by
    rw [parentIsDir_child, made]
    simp
  refine ⟨put_tree _ tree parts free parent, allowed, ?_, ?_⟩
  · have apart : key p ≠ child p [name] := by
      rw [← child_nil]
      simp [child]
    rw [entry_put_other apart, made]
  · intro below filled
    by_cases here : below = [name]
    · subst here
      rw [entry_put_self (by simp [child]), if_pos, same]
      exact ⟨name, List.mem_append_right _ List.mem_cons_self, rfl⟩
    · have apart : child p below ≠ child p [name] := by
        simpa [child] using here
      rw [entry_put_other apart, entries below filled]
      by_cases before : ∃ name' ∈ done, below = [name']
      · obtain ⟨name', member, shape⟩ := before
        rw [if_pos ⟨name', member, shape⟩, if_pos ⟨name', List.mem_append_left _ member, shape⟩]
      · rw [if_neg before, if_neg]
        rintro ⟨name', member, shape⟩
        rcases List.mem_append.mp member with old | new
        · exact before ⟨name', old, shape⟩
        · exact here (by rw [shape, List.mem_singleton.mp new])

/-- The entry's file goes where its name says, among the entries stored so far. -/
theorem storeFile_entry {done : List Path} {name : Path} {content : List Byte} (filled : p ≠ [])
    (ends : 0 ∉ p) (plain : Plain name) (holds : Holds fs gs p done)
    (held : readable fs (joinPath p name) = some content) :
    storeFile gs (genericString (joinPath p name)) content =
      some (gs.put (child p [name]) (.file content)) := by
  have named : names (joinPath p name) ≠ [] := by
    rw [names_joinPath filled plain]
    simp
  have bare : filename (joinPath p name) ≠ [] := by
    rw [filename_joinPath filled plain]
    exact plain.1
  have ends' := zero_not_mem_joinPath ends plain
  have there : key (genericString (joinPath p name)) = child p [name] := by
    rw [key_genericString ends', key_joinPath filled ends plain]
  rw [← there]
  refine storeFile_allowed content holds.allowed ?_ ?_ holds.tree ?_ ?_
  · rw [there]
    simp [child]
  · exact wantsDirectory_of_filename (zero_not_mem_genericString ends')
      (filename_genericString named bare)
  · rw [there, parentIsDir_child, holds.made]
    simp
  · rw [there, holds.below [name] (by simp)]
    split
    · rw [readable_entry filled ends plain held]
      simp
    · simp

/-- The loop of the client, from where it has received the first names of the list. -/
theorem takes_receiveEntries {listed done : List Path} (log : List Event)
    (base : p = syncDirWithPrefix user) (filled : p ≠ []) (ends : 0 ∉ p)
    (plain : ∀ name ∈ listed, Plain name)
    (reads : ∀ name ∈ listed, ∃ content, readable fs (joinPath p name) = some content ∧
      content.length < fuel)
    (short : ∀ name ∈ listed, (genericString (joinPath p name)).length < 2 ^ 63)
    (enough : listed.length < turns) (holds : Holds fs gs p done) :
    Takes K FileExchange.buf (At q gs log) (DropboxClient.receiveEntries fuel turns)
      (entriesBytes user fs listed) true
      (fun fe w => ∃ q gs', At q gs' log fe w ∧ Holds fs gs' p (done ++ listed)) := by
  induction listed generalizing gs q done turns with
  | nil =>
    obtain _ | turns := turns
    · cases enough
    · refine takes_then (takes_receiveCommand .kExit) ?_
      refine takes_pure true fun fe w here => ⟨q, gs, here, ?_⟩
      rwa [List.append_nil]
  | cons name rest ih =>
    obtain _ | turns := turns
    · cases enough
    · have first := plain name List.mem_cons_self
      obtain ⟨content, held, sized⟩ := reads name List.mem_cons_self
      have fits := (readable_eq_some held).2.2.2
      have found := readable_entry filled ends first held
      have stores := storeFile_entry filled ends first holds held
      have later := ih (q := genericString (joinPath p name))
        (fun other member => plain other (List.mem_cons_of_mem _ member))
        (fun other member => reads other (List.mem_cons_of_mem _ member))
        (fun other member => short other (List.mem_cons_of_mem _ member))
        (Nat.lt_of_succ_lt_succ enough) (holds_put first holds found)
      have bytes : entriesBytes user fs (name :: rest) = encodeCommand .kSuccess ++
          (encodePath (joinPath p name) ++ (encodeFile content ++ entriesBytes user fs rest)) := by
        have path : entryPath user name = joinPath p name := by
          rw [entryPath, filename_plain first, base]
        simp [entriesBytes, path, sentFile, held]
      rw [List.append_assoc, List.singleton_append] at later
      rw [bytes]
      refine takes_bind (takes_receiveCommand .kSuccess) ?_
      refine takes_bind (takes_receivePath (short name List.mem_cons_self)) ?_
      rw [if_pos rfl]
      refine takes_bind (takes_receive stores fits sized) ?_
      rw [if_pos rfl]
      exact later

section next_read
variable {L A B : Type} {input written : List Byte} {b : SocketBuffer} {w : World}

/-- All that was written has left the buffer. -/
def Pushed (written : List Byte) (b : SocketBuffer) (w : World) : Prop :=
  b.pptr = 0 ∧ w.sent = written

theorem ensures_all {P : L → World → Prop} {x : Io L A} {f : A → Io L B} {l : L}
    (head : Comp.ensures K.env x (fun _ k v => P k v) l w)
    (tail : ∀ a k v, P k v → Comp.ensures K.env (f a) (fun _ k' v' => P k' v') k v) :
    Comp.ensures K.env (x >>= f) (fun _ k v => P k v) l w := by
  rw [Comp.ensures_bind]
  apply Comp.ensures_mono head
  intro r k v holds
  cases r with
  | ok a => exact tail a k v holds
  | error e => exact holds

theorem pushes_underflow (produced : w.sent ++ b.pending = written)
    (ready : b.gptr < b.egptr → b.pptr = 0) :
    Comp.ensures (delivers input).env underflow (fun _ c v => Pushed written c v) b w := by
  simp only [underflow, Comp.ensures_bind, Comp.ensures_get, Comp.either_ok]
  by_cases unread : b.gptr < b.egptr
  · rw [if_pos unread]
    have none_pending : b.pending = [] := by
      rw [SocketBuffer.pending, ready unread, window_zero]
    rw [none_pending, List.append_nil] at produced
    exact ⟨ready unread, produced⟩
  · rw [if_neg unread, Comp.ensures_bind]
    apply Comp.ensures_mono (ensures_sync produced.symm trivial)
    rintro r c v ⟨rfl, rfl, rfl⟩
    simp only [Comp.either_ok, Comp.ensures_bind, receiveData, ensures_osRead]
    refine ⟨trivial, fun bytes _ _ _ => ?_⟩
    cases bytes with
    | nil => exact ⟨rfl, rfl⟩
    | cons first rest => exact ⟨rfl, rfl⟩

theorem pushes_sbumpc (produced : w.sent ++ b.pending = written)
    (ready : b.gptr < b.egptr → b.pptr = 0) :
    Comp.ensures (delivers input).env sbumpc (fun _ c v => Pushed written c v) b w := by
  apply ensures_all (pushes_underflow produced ready)
  intro r c v pushed
  cases r with
  | none => exact pushed
  | some ch => exact pushed

theorem pushed_xsgetn (n : Nat) (pushed : Pushed written b w) :
    Comp.ensures (delivers input).env (xsgetn n) (fun _ c v => Pushed written c v) b w := by
  induction n generalizing b w with
  | zero => exact pushed
  | succ n ih =>
    have produced : w.sent ++ b.pending = written := by
      rw [SocketBuffer.pending, pushed.1, window_zero, List.append_nil, pushed.2]
    apply ensures_all (pushes_sbumpc produced fun _ => pushed.1)
    intro r c v still
    cases r with
    | none => exact still
    | some ch => exact ensures_all (ih still) fun _ _ _ after => after

theorem pushed_loadBinary {n : Nat} (pushed : Pushed written b w) :
    Comp.ensures (delivers input).env (loadBinary n) (fun _ c v => Pushed written c v) b w := by
  apply ensures_all (pushed_xsgetn n pushed)
  intro bytes c v after
  split <;> exact after

/-- A read that finds the buffer empty first sends what waits in it. -/
theorem pushes_receiveCommand {fe : FileExchange} {taken : List Byte}
    (linked : Linked (delivers input) taken written fe.buf w) (exhausted : fe.buf.unread = []) :
    Comp.ensures (delivers input).env receiveCommand (fun _ _ v => v.sent = written) fe w := by
  have spent := (unread_eq_nil_iff linked).mp exhausted
  have first : Comp.ensures (delivers input).env (loadBinary 1)
      (fun _ c v => Pushed written c v) fe.buf w := by
    have one : Comp.ensures (delivers input).env (xsgetn 1)
        (fun _ c v => Pushed written c v) fe.buf w := by
      apply ensures_all (pushes_sbumpc linked.produced.symm fun unread => absurd unread spent)
      intro r c v still
      cases r with
      | none => exact still
      | some ch => exact still
    apply ensures_all one
    intro bytes c v after
    split <;> exact after
  have loads : Comp.ensures (delivers input).env (do let _ ← inputArchive; loadBinary 1)
      (fun _ c v => Pushed written c v) fe.buf w := by
    have flag : Comp.ensures (delivers input).env inputArchive
        (fun _ c v => Pushed written c v) fe.buf w := by
      apply ensures_all first
      intro flag c v after
      exact after
    apply ensures_all flag
    intro swap c v after
    exact pushed_loadBinary after
  rw [receiveCommand, ensures_tryCatch, Comp.ensures_bind, ensures_onRdbuf]
  apply Comp.ensures_mono loads
  intro r c v after
  cases r with
  | ok bytes => exact after.2
  | error f =>
    rw [Comp.either_error, Comp.either_error]
    split
    · split <;> exact after.2
    · exact after.2

end next_read

theorem syncDir_filled (user : List Byte) : syncDirWithPrefix user ≠ [] := by
  simp [syncDirWithPrefix, kSyncDirPrefix]

theorem syncDir_named (ends : 0 ∉ user) :
    0 ∉ syncDirWithPrefix user ∧ (key (syncDirWithPrefix user)).names ≠ [] := by
  have whole : 0 ∉ syncDirWithPrefix user := by
    simp [syncDirWithPrefix, kSyncDirPrefix, ends]
  refine ⟨whole, ?_⟩
  rw [key_eq whole]
  exact names_cons_ne_nil (by decide)

/-- The whole of Client::GetSyncDir. -/
theorem takes_getSyncDir {listed : List Path} (ends : 0 ∉ user)
    (serves : Serves fs (syncDirWithPrefix user) fuel listed)
    (accepts : Accepts gs (syncDirWithPrefix user)) (enough : listed.length < turns) :
    Takes K FileExchange.buf (At q gs log) (DropboxClient.getSyncDir fuel turns user)
      (entriesBytes user fs listed) true
      (fun fe w => ∃ q gs', At q gs' log fe w ∧ Holds fs gs' (syncDirWithPrefix user) listed) := by
  obtain ⟨whole, named⟩ := syncDir_named ends
  have filled := syncDir_filled user
  obtain ⟨made, wiped, holds, makes, wipes⟩ := keeps_wiped (K := K) (q := q) fs log
    filled whole named accepts
  have plain := listed_plain serves.tree serves.lists
  have receives := takes_receiveEntries (K := K) (q := q) log rfl filled whole plain
    serves.reads serves.short enough holds
  rw [List.nil_append] at receives
  exact takes_after makes (takes_after wipes receives)

/-- What the directory holds in the end. -/
theorem sameDirectory_of_holds {p : Path} {listed : List Path} (filled : p ≠ []) (ends : 0 ∉ p)
    (serves : Serves fs p fuel listed) (holds : Holds fs gs p listed) :
    SameDirectory fs gs p := by
  have plain := listed_plain serves.tree serves.lists
  refine ⟨holds.made, fun below deeper => ?_⟩
  rw [holds.below below deeper]
  split
  · rfl
  · rename_i other
    by_contra present
    obtain ⟨name, rest, rfl⟩ := List.exists_cons_of_ne_nil deeper
    by_cases only : rest = []
    · subst only
      exact other ⟨name, (mem_listDirectory serves.lists).mpr (Ne.symm present), rfl⟩
    · have shape : child p (name :: rest) =
          ⟨(key p).absolute, ((key p).names ++ [name]) ++ rest⟩ := by
        simp [child]
      rw [shape] at present
      have dir : fs.entry (child p [name]) = some .dir :=
        directory_above serves.tree (by simp) only (Ne.symm present)
      have there : fs.entry (child p [name]) ≠ none := by simp [dir]
      have member := (mem_listDirectory serves.lists).mpr there
      obtain ⟨content, holds', _⟩ := serves.reads name member
      rw [readable_entry filled ends (plain name member) holds'] at dir
      cases dir

/-- The whole of ClientHandler::GetSyncDir. -/
theorem puts_getSyncDir {listed : List Path}
    (serves : Serves fs (syncDirWithPrefix user) fuel listed) :
    Puts K FileExchange.buf (At q fs log) (DropboxClientHandler.getSyncDir fuel user)
      (entriesBytes user fs listed) true (Somewhere fs log) := by
  have plain := listed_plain serves.tree serves.lists
  have listing : Keeps K FileExchange.buf (At q fs log)
      (orThrow (onFiles (.listDirectory (syncDirWithPrefix user)))) listed (At q fs log) :=
    keeps_orThrow (keeps_onFiles (by simp [fileCall, serves.lists]))
  have enough : ∀ name ∈ listed, ∀ content,
      readable fs (entryPath user name) = some content → content.length < fuel := by
    intro name member content held
    obtain ⟨content', held', sized⟩ := serves.reads name member
    rw [entryPath, filename_plain (plain name member), held'] at held
    cases held
    exact sized
  have all : (listed.all fun name => (readable fs (entryPath user name)).isSome) = true := by
    rw [List.all_eq_true]
    intro name member
    obtain ⟨content, held, _⟩ := serves.reads name member
    rw [entryPath, filename_plain (plain name member), held]
    rfl
  rw [← all]
  exact puts_after listing (puts_sendEntries q listed enough)

attribute [local irreducible] Comp.ensures exec

theorem exec_served {server : Machine} {fe : FileExchange} {listed : List Path}
    (sound : server.Sound) (idle : Idle fe)
    (serves : Serves server.world.fs (syncDirWithPrefix user) fuel listed) :
    ∃ served left, exec (DropboxClientHandler.getSyncDir fuel user) fe server =
        (.ok true, served, left) ∧ served.buf.unread = [] ∧ left.world.fs = server.world.fs ∧
      (exec receiveCommand served left).2.2.world.sent =
        server.world.sent ++ entriesBytes user server.world.fs listed := by
  obtain ⟨live, exhausted⟩ := live_idle idle sound
  have here : At fe.path server.world.fs server.world.log fe server.world :=
    ⟨idle.good, rfl, rfl, rfl⟩
  have ran := exec_puts (puts_getSyncDir serves) live here exhausted
  generalize exec (DropboxClientHandler.getSyncDir fuel user) fe server = out at ran ⊢
  obtain ⟨r, served, left⟩ := out
  obtain ⟨rfl, ⟨_, _, _, files, _⟩, after, spent⟩ := ran
  have pushes := pushes_receiveCommand after.linked spent
  obtain ⟨pushed, -, -⟩ := exec_ensures after pushes
  exact ⟨served, left, rfl, spent, files, pushed⟩

theorem exec_synced {client : Machine} {fe : FileExchange} {listed : List Path}
    (sound : client.Sound) (idle : Idle fe) (ends : 0 ∉ user) (enough : listed.length < turns)
    (serves : Serves fs (syncDirWithPrefix user) fuel listed)
    (accepts : Accepts client.world.fs (syncDirWithPrefix user))
    (coming : client.coming = entriesBytes user fs listed) :
    ∃ synced left, exec (DropboxClient.getSyncDir fuel turns user) fe client =
        (.ok true, synced, left) ∧ SameDirectory fs left.world.fs (syncDirWithPrefix user) ∧
      synced.buf.unread = [] ∧ left.coming = [] := by
  obtain ⟨live, exhausted⟩ := live_idle idle sound
  have here : At fe.path client.world.fs client.world.log fe client.world :=
    ⟨idle.good, rfl, rfl, rfl⟩
  have within : client.world.rcvd ++ entriesBytes user fs listed <+:
      client.world.rcvd ++ client.coming := coming ▸ List.prefix_refl _
  have ran := exec_takes (takes_getSyncDir ends serves accepts enough) live here within
  generalize exec (DropboxClient.getSyncDir fuel turns user) fe client = out at ran ⊢
  obtain ⟨r, synced, left⟩ := out
  obtain ⟨rfl, ⟨_, gs, ⟨_, _, files, _⟩, holds⟩, final⟩ := ran
  rw [← coming] at final
  have drained := live_exhausted final
  refine ⟨synced, left, rfl, ?_, drained⟩
  replace files : left.world.fs = gs := files
  rw [files]
  exact sameDirectory_of_holds (syncDir_filled user) (syncDir_named ends).1 serves holds

/-- After both have finished, the client's directory is the server's. -/
theorem initial_sync_copies (fuel turns : Nat) (user : List Byte) (server client : Machine)
    (fe fe' : FileExchange) (listed : List Path) (sound : server.Sound) (sound' : client.Sound)
    (idle : Idle fe) (idle' : Idle fe') (ends : 0 ∉ user) (enough : listed.length < turns)
    (serves : Serves server.world.fs (syncDirWithPrefix user) fuel listed)
    (accepts : Accepts client.world.fs (syncDirWithPrefix user)) :
    let served := exec (DropboxClientHandler.getSyncDir fuel user) fe server
    let synced := exec (DropboxClient.getSyncDir fuel turns user) fe' client
    (exec receiveCommand served.2.1 served.2.2).2.2.world.sent =
        server.world.sent ++ client.coming →
      served.1 = .ok true ∧ served.2.1.buf.unread = [] ∧ served.2.2.world.fs = server.world.fs ∧
      synced.1 = .ok true ∧
      SameDirectory server.world.fs synced.2.2.world.fs (syncDirWithPrefix user) ∧
      synced.2.1.buf.unread = [] ∧ synced.2.2.coming = [] := by
  intro served synced transmitted
  obtain ⟨fe₁, left, ran, spent, files, pushed⟩ := exec_served sound idle serves
  have first : served = (.ok true, fe₁, left) := ran
  rw [first, pushed] at transmitted
  have bytes := List.append_cancel_left transmitted
  obtain ⟨fe₂, left', ran', same, unread, coming⟩ :=
    exec_synced sound' idle' ends enough serves accepts bytes.symm
  have second : synced = (.ok true, fe₂, left') := ran'
  rw [first, second]
  exact ⟨rfl, spent, files, rfl, same, unread, coming⟩

/-- "sync_dir_u", empty. -/
def oneDirectory : Fs := Fs.empty.put (key (syncDirWithPrefix [117])) .dir

def oneServed : Machine :=
  ⟨⟨oneDirectory.put (child (syncDirWithPrefix [117]) [[97]]) (.file [1, 2]), [], [], []⟩, [], []⟩

def oneListing : List Byte := entriesBytes [117] oneServed.world.fs [[97]]

def oneSynced : Machine :=
  ⟨⟨(oneDirectory.put (child (syncDirWithPrefix [117]) [[98]]) .dir).put
      (child (syncDirWithPrefix [117]) [[98], [99]]) (.file [3]), [], [], []⟩,
    [some ⟨oneListing.take 5, by decide +kernel⟩, some ⟨oneListing.drop 5, by decide +kernel⟩], []⟩

theorem oneServed_serves : Serves oneServed.world.fs (syncDirWithPrefix [117]) 3 [[97]] := by
  have base : TreeShaped oneDirectory := put_tree .dir empty_tree (by decide +kernel) (by decide +kernel)
    (by decide +kernel)
  refine ⟨put_tree _ base (by decide +kernel) (by decide +kernel) (by decide +kernel),
    by decide +kernel, ?_, ?_⟩
  · intro name member
    rw [List.mem_singleton.mp member]
    exact ⟨[1, 2], by decide +kernel, by decide⟩
  · intro name member
    rw [List.mem_singleton.mp member]
    have small : (genericString (joinPath (syncDirWithPrefix [117]) [97])).length < 13 := by
      decide +kernel
    omega

theorem oneSynced_accepts : Accepts oneSynced.world.fs (syncDirWithPrefix [117]) := by
  have base : TreeShaped oneDirectory := put_tree .dir empty_tree (by decide +kernel) (by decide +kernel)
    (by decide +kernel)
  have nested := put_tree (k := child (syncDirWithPrefix [117]) [[98]]) .dir base
    (by decide +kernel) (by decide +kernel) (by decide +kernel)
  exact ⟨put_tree _ nested (by decide +kernel) (by decide +kernel) (by decide +kernel),
    fun _ _ => rfl, Or.inl (by decide +kernel)⟩

/-- The client loses a nested directory and gets the one file of the server. -/
theorem initial_sync_copies_one :
    let fe := FileExchange.fresh (fun _ => 0) []
    let served := exec (DropboxClientHandler.getSyncDir 3 [117]) fe oneServed
    let synced := exec (DropboxClient.getSyncDir 3 2 [117]) fe oneSynced
    served.1 = .ok true ∧ served.2.1.buf.unread = [] ∧
      served.2.2.world.fs = oneServed.world.fs ∧ synced.1 = .ok true ∧
      SameDirectory oneServed.world.fs synced.2.2.world.fs (syncDirWithPrefix [117]) ∧
      synced.2.1.buf.unread = [] ∧ synced.2.2.coming = [] := by
  have idle : Idle (FileExchange.fresh (fun _ => 0) []) := ⟨rfl, rfl, Nat.zero_le _, rfl⟩
  have sound : oneServed.Sound := ⟨by simp [oneServed], rfl⟩
  have sound' : oneSynced.Sound := ⟨by simp [oneSynced], rfl⟩
  exact initial_sync_copies 3 2 [117] oneServed oneSynced _ _ [[97]] sound sound' idle idle
    (by decide) (by decide) oneServed_serves oneSynced_accepts (by decide +kernel)

end DropboxInitialSync
