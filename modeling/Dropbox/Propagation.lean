import Dropbox.DirectoryTree
import Dropbox.Relay
import Dropbox.Replication
import Dropbox.SenderFraming

/-!
How a change travels. A device tells the server what it changed, the server carries it out
and tells the backups and the other device. To a user a sync directory is a folder, names
with contents; in it every party does what one message of `Replication` does.
-/
namespace DropboxPropagation
open Programs DropboxFileStore DropboxDirectoryTree DropboxHost DropboxSocketStream
open DropboxStreamRules DropboxProtocol DropboxProtocolRules DropboxEndOfStream DropboxSyncLoops
open DropboxRelay

abbrev Change := DropboxReplication.Message Path (List Byte)

abbrev Folder := Path → Option (List Byte)

def filePath (user name : Path) : Path := joinPath (syncDirWithPrefix user) name

def place (user name : Path) : Key := child (syncDirWithPrefix user) [name]

/-- What the user sees of a store. -/
def folder (user : Path) (fs : Fs) : Folder := fun name =>
  match fs.entry (place user name) with
  | some (.file content) => some content
  | _ => none

/-- The user's directory is there, has no directories in it, and nothing is refused. -/
structure Shelf (user : Path) (fs : Fs) : Prop where
  tree : TreeShaped fs
  allowed : ∀ a k, fs.refused a k = false
  directory : fs.entry (key (syncDirWithPrefix user)) = some .dir
  flat : ∀ name, fs.entry (place user name) ≠ some .dir

/-- A message of the protocol for a change. -/
def message (user : Path) : Change → Message
  | .upload name content => .upload (genericString (filePath user name)) content
  | .delete name => .delete (genericString (filePath user name))

def changed : Change → Path
  | .upload name _ | .delete name => name

/-- The name is one the kernel can keep, and path and content fit. -/
def Fits (fuel : Nat) (user : Path) (c : Change) : Prop :=
  Plain (changed c) ∧ (message user c).Sized fuel

section paths
variable {user name : Path}

theorem directory_plain (ends : 0 ∉ user) (unbroken : slash ∉ user) :
    Plain (syncDirWithPrefix user) := by
  refine ⟨by simp [syncDirWithPrefix, kSyncDirPrefix], ?_, ?_⟩
  · simpa [syncDirWithPrefix, kSyncDirPrefix, slash] using unbroken
  · simpa [syncDirWithPrefix, kSyncDirPrefix] using ends

theorem filePath_eq (ends : 0 ∉ user) (unbroken : slash ∉ user) (plain : Plain name) :
    filePath user name = syncDirWithPrefix user ++ slash :: name := by
  have dir := directory_plain ends unbroken
  have bare : filename (syncDirWithPrefix user) ≠ [] := by
    rw [filename_plain dir]
    exact dir.1
  rw [filePath, joinPath, relative_plain plain, if_neg Bool.false_ne_true, if_neg bare]

theorem genericString_filePath (ends : 0 ∉ user) (unbroken : slash ∉ user) (plain : Plain name) :
    genericString (filePath user name) = filePath user name := by
  have dir := directory_plain ends unbroken
  have text := filePath_eq ends unbroken plain
  have split : (filePath user name).splitOn slash = [syncDirWithPrefix user, name] := by
    rw [text, List.splitOn_append_cons_self, splitOn_plain dir, splitOn_plain plain]
    rfl
  have named : names (filePath user name) = [syncDirWithPrefix user, name] := by
    simp [names, split, dir.1, plain.1]
  have bare : filename (filePath user name) = name := by
    rw [filename, split]
    rfl
  have last : trailing (filePath user name) = [] := by simp [trailing, bare, plain.1]
  have relative : isAbsolute (filePath user name) = false := by
    rw [text]
    rfl
  rw [genericString, if_neg (by rw [named]; simp), pieces, named, last, relative, text]
  simp [List.intercalate]

theorem key_filePath (ends : 0 ∉ user) (plain : Plain name) :
    key (filePath user name) = place user name :=
  key_joinPath (by simp [syncDirWithPrefix, kSyncDirPrefix])
    (by simp [syncDirWithPrefix, kSyncDirPrefix, ends]) plain

theorem place_injective {other : Path} (same : place user name = place user other) :
    name = other := by
  have names := (Key.mk.inj same).2
  simpa using List.append_cancel_left names

theorem place_ne_directory : place user name ≠ key (syncDirWithPrefix user) := by
  intro same
  have sizes := congrArg (fun k : Key => k.names.length) same
  simp [place, child] at sizes

theorem plainly (ends : 0 ∉ user) (plain : Plain name) :
    wantsDirectory (filePath user name) = false := by
  have filled : syncDirWithPrefix user ≠ [] := by simp [syncDirWithPrefix, kSyncDirPrefix]
  have ends' : 0 ∉ syncDirWithPrefix user := by simp [syncDirWithPrefix, kSyncDirPrefix, ends]
  refine wantsDirectory_of_filename (zero_not_mem_joinPath ends' plain) ?_
  rw [filePath, filename_joinPath filled plain]
  exact plain.1

theorem firstPart_filePath (ends : 0 ∉ user) (unbroken : slash ∉ user) (plain : Plain name) :
    DropboxBackup.firstPart (filePath user name) = syncDirWithPrefix user := by
  have dir := directory_plain ends unbroken
  have clean : 0 ∉ filePath user name := zero_not_mem_joinPath dir.2.2 plain
  rw [DropboxBackup.firstPart, cString_eq clean, filePath_eq ends unbroken plain,
    List.takeWhile_append_of_pos]
  · simp
  · intro b inside
    have apart : b ≠ slash := by
      rintro rfl
      exact dir.2.1 inside
    simpa using apart

end paths

/-- What stands in the place of the file afterwards. -/
def effect : Change → Option Entry
  | .upload _ content => some (.file content)
  | .delete _ => none

def announced (user : Path) : Change → Event
  | .upload name _ => .broadcastUpload (filePath user name)
  | .delete name => .broadcastDelete (filePath user name)

section loops
variable {user name : Path} {fs : Fs} {q : Path} (loop : Loop)

theorem parent_of_shelf (shelf : Shelf user fs) : fs.parentIsDir (place user name) = true := by
  have above : (⟨(place user name).absolute, (place user name).names.dropLast⟩ : Key) =
      key (syncDirWithPrefix user) := by
    simp only [place, child, List.dropLast_concat]
  rw [Fs.parentIsDir, above, shelf.directory]
  simp

theorem enter_shelf (ends : 0 ∉ user) (unbroken : slash ∉ user) (shelf : Shelf user fs)
    (plain : Plain name) : loop.enter fs (filePath user name) = some fs := by
  cases loop with
  | primary => rfl
  | client => rfl
  | backup =>
    rw [Loop.enter, firstPart_filePath ends unbroken plain, createDirectory, shelf.directory]
    rfl

theorem remove_shelf (ends : 0 ∉ user) (shelf : Shelf user fs) (plain : Plain name) :
    ∃ removed after, remove fs (filePath user name) = some (removed, after) ∧
      after.refused = fs.refused := by
  have spot := key_filePath ends plain
  have named : (place user name).names ≠ [] := by simp [place, child]
  unfold remove
  rw [spot]
  cases found : fs.entry (place user name) with
  | none =>
    have clear : fs.belowFile (place user name) = false :=
      not_belowFile shelf.tree (parent_of_shelf shelf)
    exact ⟨false, fs, by simp [shelf.allowed, clear], rfl⟩
  | some e =>
    cases e with
    | dir => exact absurd found (shelf.flat name)
    | file content =>
      refine ⟨true, fs.erase (place user name), ?_, refused_erase ..⟩
      simp [shelf.allowed, named, plainly ends plain]

theorem discard_shelf (ends : 0 ∉ user) (shelf : Shelf user fs) (plain : Plain name) :
    ∃ after, loop.discard fs (filePath user name) = some after ∧ after.refused = fs.refused ∧
      ∀ k, after.entry k = if k = place user name then none else fs.entry k := by
  have spot := key_filePath ends plain
  obtain ⟨removed, after, removing, kept⟩ := remove_shelf ends shelf plain
  have entries := remove_entry removing
  rw [spot] at entries
  have asked : ∀ present, (fs.stat (filePath user name)).isSome = present →
      (pathExists fs (filePath user name)) = some present := by
    intro present known
    rw [pathExists, shelf.allowed, if_neg Bool.false_ne_true, known]
  have checked : ∃ after, ((pathExists fs (filePath user name)).bind fun present =>
      if present then (remove fs (filePath user name)).map Prod.snd else some fs) = some after ∧
        after.refused = fs.refused ∧
        ∀ k, after.entry k = if k = place user name then none else fs.entry k := by
    cases there : (fs.stat (filePath user name)).isSome with
    | true =>
      rw [asked true there, Option.bind_some, if_pos rfl, removing]
      exact ⟨after, rfl, kept, entries⟩
    | false =>
      rw [asked false there, Option.bind_some, if_neg Bool.false_ne_true]
      refine ⟨fs, rfl, rfl, ?_⟩
      intro k
      rw [stat_eq_entry (plainly ends plain), spot] at there
      split
      · rename_i same
        rw [same]
        simpa using there
      · rfl
  cases loop with
  | primary =>
    refine ⟨after, ?_, kept, entries⟩
    rw [Loop.discard, removing]
    rfl
  | backup => exact checked
  | client => exact checked

/-- Every loop does to the store what the change says. -/
theorem apply_change (log : List Event) (ends : 0 ∉ user) (unbroken : slash ∉ user) (shelf : Shelf user fs)
    (c : Change) (plain : Plain (changed c)) : ∃ after,
      loop.apply ⟨fs, q, log⟩ (message user c) =
        (⟨after, filePath user (changed c), loop.announce (announced user c) log⟩, .goes) ∧
      after.refused = fs.refused ∧
      ∀ k, after.entry k = if k = place user (changed c) then effect c else fs.entry k := by
  cases c with
  | upload name content =>
    replace plain : Plain name := plain
    have spot := key_filePath ends plain
    have named : (place user name).names ≠ [] := by simp [place, child]
    have free : fs.entry (key (filePath user name)) ≠ some .dir := by
      rw [spot]
      exact shelf.flat name
    have parent : fs.parentIsDir (key (filePath user name)) = true := by
      rw [spot]
      exact parent_of_shelf shelf
    have stores := storeFile_allowed content shelf.allowed (by rwa [spot]) (plainly ends plain)
      shelf.tree parent free
    obtain ⟨opened, opens, same⟩ := storeFile_eq_some stores
    rw [spot] at same
    refine ⟨fs.put (place user name) (.file content), ?_, refused_put .., ?_⟩
    · rw [message, genericString_filePath ends unbroken plain, Loop.apply, Loop.store,
        enter_shelf loop ends unbroken shelf plain]
      simp only [opens, spot, ← same]
      rfl
    · intro k
      show (fs.put (place user name) (.file content)).entry k =
        if k = place user name then some (.file content) else fs.entry k
      split
      · rename_i here
        rw [here, entry_put_self named]
      · rename_i other
        exact entry_put_other other
  | delete name =>
    replace plain : Plain name := plain
    obtain ⟨after, discards, kept, entries⟩ := discard_shelf loop ends shelf plain
    refine ⟨after, ?_, kept, entries⟩
    rw [message, genericString_filePath ends unbroken plain, Loop.apply, Loop.erase,
      enter_shelf loop ends unbroken shelf plain]
    simp only [discards]
    rfl

/-- Changing one file of a directory leaves a tree. -/
theorem tree_after {after : Fs} {c : Change} (shelf : Shelf user fs) (plain : Plain (changed c))
    (entries : ∀ k, after.entry k = if k = place user (changed c) then effect c else fs.entry k) :
    TreeShaped after := by
  have parents : ∀ q, fs.parentIsDir q = true → after.parentIsDir q = true := by
    intro q above
    rw [Fs.parentIsDir, Bool.or_eq_true, decide_eq_true_eq, decide_eq_true_eq] at above ⊢
    refine above.imp id fun dir => ?_
    rw [entries, if_neg]
    · exact dir
    · intro same
      rw [same] at dir
      exact shelf.flat _ dir
  intro k e found named
  rw [entries] at found
  split at found
  · rename_i here
    subst here
    refine ⟨?_, parents _ (parent_of_shelf shelf)⟩
    intro name member
    rcases List.mem_append.mp member with above | last
    · exact key_names_plain _ name above
    · rw [List.mem_singleton.mp last]
      exact plain
  · obtain ⟨plain', above⟩ := shelf.tree k e found named
    exact ⟨plain', parents k above⟩

theorem shelf_after {after : Fs} {c : Change} (shelf : Shelf user fs) (plain : Plain (changed c))
    (kept : after.refused = fs.refused)
    (entries : ∀ k, after.entry k = if k = place user (changed c) then effect c else fs.entry k) :
    Shelf user after := by
  refine ⟨tree_after shelf plain entries, by rw [kept]; exact shelf.allowed, ?_, ?_⟩
  · rw [entries, if_neg (Ne.symm place_ne_directory)]
    exact shelf.directory
  · intro name
    rw [entries]
    split
    · cases c <;> simp [effect]
    · exact shelf.flat name

theorem folder_after {after : Fs} {c : Change}
    (entries : ∀ k, after.entry k = if k = place user (changed c) then effect c else fs.entry k) :
    folder user after = DropboxReplication.applyMessage (folder user fs) c := by
  funext name
  rw [folder, entries]
  by_cases same : name = changed c
  · subst same
    rw [if_pos rfl]
    cases c <;> simp [effect, changed, DropboxReplication.applyMessage]
  · rw [if_neg fun equal => same (place_injective equal)]
    cases c with
    | upload other content =>
      have apart : name ≠ other := same
      simp [DropboxReplication.applyMessage, apart, folder]
    | delete other =>
      have apart : name ≠ other := same
      simp [DropboxReplication.applyMessage, apart, folder]

/-- A whole list of changes, in any of the loops. -/
theorem course_changes (log : List Event) (ends : 0 ∉ user) (unbroken : slash ∉ user) (changes : List Change)
    (plain : ∀ c ∈ changes, Plain (changed c)) (shelf : Shelf user fs) : ∃ t : Point,
      loop.course ⟨fs, q, log⟩ (changes.map (message user)) = (t, .goes) ∧ Shelf user t.fs ∧
      folder user t.fs = changes.foldl DropboxReplication.applyMessage (folder user fs) := by
  induction changes generalizing fs q log with
  | nil => exact ⟨_, rfl, shelf, rfl⟩
  | cons c rest ih =>
    obtain ⟨after, applied, kept, entries⟩ := apply_change (q := q) loop log ends unbroken shelf c
      (plain c List.mem_cons_self)
    obtain ⟨t, later, shelf', same⟩ := ih _ (fun d member => plain d (List.mem_cons_of_mem _ member))
      (shelf_after shelf (plain c List.mem_cons_self) kept entries)
    refine ⟨t, ?_, shelf', ?_⟩
    · rw [List.map_cons, Loop.course, applied]
      exact later
    · rw [same, List.foldl_cons, folder_after entries]

end loops

section server
variable {user : Path} {fs : Fs} {fuel : Nat} {q : Path}

theorem relayed_message (ends : 0 ∉ user) (unbroken : slash ∉ user) {c : Change}
    (plain : Plain (changed c)) : relayed (message user c) = message user c := by
  cases c with
  | upload name content =>
    have same := genericString_filePath ends unbroken (show Plain name from plain)
    simp only [relayed, message, same]
  | delete name =>
    have same := genericString_filePath ends unbroken (show Plain name from plain)
    simp only [relayed, message, same]

theorem relayedBytes_changes (ends : 0 ∉ user) (unbroken : slash ∉ user) {changes : List Change}
    (plain : ∀ c ∈ changes, Plain (changed c)) :
    relayedBytes (changes.map (message user)) =
      (changes.map (message user)).flatMap encodeMessage := by
  rw [relayedBytes, List.map_map]
  congr 1
  apply List.map_congr_left
  intro c member
  exact relayed_message ends unbroken (plain c member)

/-- The server can carry out the changes and pass each of them on. -/
theorem carries_changes (log : List Event) (ends : 0 ∉ user) (unbroken : slash ∉ user) (changes : List Change)
    (fits : ∀ c ∈ changes, Fits fuel user c) (shelf : Shelf user fs) : ∃ t : Point,
      Carries fuel ⟨fs, q, log⟩ (changes.map (message user)) t ∧ Shelf user t.fs ∧
      folder user t.fs = changes.foldl DropboxReplication.applyMessage (folder user fs) := by
  induction changes generalizing fs q log with
  | nil => exact ⟨_, rfl, shelf, rfl⟩
  | cons c rest ih =>
    obtain ⟨plain, sized⟩ := fits c List.mem_cons_self
    obtain ⟨after, applied, kept, entries⟩ := apply_change (q := q) .primary log ends unbroken
      shelf c plain
    have shelf' := shelf_after shelf plain kept entries
    obtain ⟨t, later, shelf'', same⟩ := ih _ (fun d member => fits d (List.mem_cons_of_mem _ member))
      shelf'
    refine ⟨t, ⟨sized, _, applied, ?_, later⟩, shelf'', ?_⟩
    · cases c with
      | delete name => trivial
      | upload name content =>
        replace plain : Plain name := plain
        have short : content.length < 2 ^ 63 := sized.2.1
        have found : after.entry (key (filePath user name)) = some (.file content) := by
          rw [key_filePath ends plain, entries]
          exact if_pos rfl
        have stat : after.stat (filePath user name) = some (.file content) := by
          rw [stat_eq_entry (plainly ends plain), found]
        show readable after (genericString (filePath user name)) = some content
        rw [genericString_filePath ends unbroken plain]
        simpa [readable, stat, openIn, fileSize, shelf'.allowed] using short
    · rw [same, List.foldl_cons, folder_after entries]

end server

section device
variable {user : Path} {fuel : Nat} {heard written : List Byte}

def command : Change → Command
  | .upload _ _ => .kUpload
  | .delete _ => .kDelete

/-- What Client::SyncFromClient does before it waits for changes: it reads servers_. -/
def greeted : Io FileExchange (List Byte) :=
  onRdbuf do
    let swap ← inputArchive
    loadString swap

/-- Its loop over the changes, each on the files as they are when it comes to it. -/
def sendActions (fuel : Nat) (user : Path) : List (Change × Fs) → Recipient → Recipient
  | [], r => r
  | (c, fs) :: rest, r =>
    let out := exec (DropboxClient.syncAction fuel user (command c) (changed c)) r.exchange
      (r.machine fs)
    sendActions fuel user rest ⟨out.2.1, out.2.2⟩

def syncFromClient (fuel : Nat) (user : Path) (actions : List (Change × Fs)) (r : Recipient) :
    Recipient :=
  let out := exec greeted r.exchange r.socket
  sendActions fuel user actions ⟨out.2.1, out.2.2⟩

/-- A file that was changed can be read and has this content. -/
def Held (user : Path) : Change × Fs → Prop
  | (.upload name content, fs) => readable fs (filePath user name) = some content
  | (.delete _, _) => True

theorem puts_change {K : Contract} {fs : Fs} {log : List Event} (q : Path) {c : Change}
    (fits : Fits fuel user c) (held : Held user (c, fs)) :
    Puts K FileExchange.buf (At q fs log)
      (DropboxClient.syncAction fuel user (command c) (changed c)) (encodeMessage (message user c))
      () (Settled (filePath user (changed c)) fs log) := by
  cases c with
  | upload name content =>
    have enough : content.length < fuel := fits.2.2.2
    refine puts_bind (puts_sendCommand .kUpload) ?_
    refine puts_after (keeps_setPath (filePath user name)) ?_
    refine puts_bind puts_sendPath ?_
    refine puts_after (keeps_setPath (filePath user name)) ?_
    exact puts_then (puts_send held enough) puts_flush_settled
  | delete name =>
    refine puts_bind (puts_sendCommand .kDelete) ?_
    refine puts_after (keeps_setPath (filePath user name)) ?_
    have body : (message user (.delete name)).path = genericString (filePath user name) := rfl
    rw [body]
    refine puts_bind puts_sendPath ?_
    exact puts_flush_settled

theorem sendActions_ready (actions : List (Change × Fs)) {r : Recipient}
    (fits : ∀ a ∈ actions, Fits fuel user a.1 ∧ Held user a) (ready : Ready heard written r) :
    Ready heard (written ++ (actions.map fun a => message user a.1).flatMap encodeMessage)
      (sendActions fuel user actions r) := by
  induction actions generalizing written r with
  | nil => simpa [sendActions] using ready
  | cons a rest ih =>
    obtain ⟨c, fs⟩ := a
    obtain ⟨one, held⟩ := fits (c, fs) List.mem_cons_self
    obtain ⟨_, next⟩ := ready_after ready fun q _ => puts_change q one held
    have later := ih (fun b member => fits b (List.mem_cons_of_mem _ member)) next
    rw [List.map_cons, List.flatMap_cons, ← List.append_assoc]
    exact later

/-- The device sends one message for each change. -/
theorem device_sends {m : Machine} {servers : List Byte} (mem : Nat → Byte) (p : Path)
    (actions : List (Change × Fs)) (sound : m.Sound) (nothing : m.world.rcvd = [])
    (silent : m.world.sent = []) (coming : m.coming = encodeString servers)
    (short : servers.length < 2 ^ 63) (fits : ∀ a ∈ actions, Fits fuel user a.1 ∧ Held user a) :
    (syncFromClient fuel user actions ⟨.fresh mem p, m⟩).socket.world.sent =
      (actions.map fun a => message user a.1).flatMap encodeMessage := by
  have live := live_fresh mem p sound nothing silent
  have takes : Takes (delivers m.coming) FileExchange.buf (At p m.world.fs m.world.log) greeted
      (encodeString servers) servers (At p m.world.fs m.world.log) :=
    takes_onRdbuf (takes_bind takes_inputArchive (takes_loadString short))
  have begins : At p m.world.fs m.world.log (FileExchange.fresh mem p) m.world :=
    ⟨rfl, rfl, rfl, rfl⟩
  have greets := exec_takes takes live begins ⟨[], by rw [coming]; simp⟩
  rw [List.nil_append, ← coming] at greets
  obtain ⟨_, there, live'⟩ := greets
  have settled : (exec greeted (.fresh mem p) m).2.1.buf.pending = [] :=
    (List.append_eq_nil_iff.mp live'.linked.produced.symm).2
  have ready : Ready m.coming [] ⟨(exec greeted (.fresh mem p) m).2.1,
      (exec greeted (.fresh mem p) m).2.2⟩ := ⟨live', there.1, settled⟩
  have sends := sent_of_ready (sendActions_ready actions fits ready)
  rwa [List.nil_append] at sends

end device

/-- A connection on which nothing has happened, that works and will deliver these bytes. -/
structure Fresh (bytes : List Byte) (m : Machine) : Prop where
  sound : m.Sound
  nothing : m.world.rcvd = []
  silent : m.world.sent = []
  coming : m.coming = bytes

/-- A recipient that gets the bytes for the changes makes them. -/
theorem recipient_applies {fuel : Nat} {user : Path} {m : Machine} (mem : Nat → Byte) (q : Path)
    (loop : Loop) (servers : List Byte) (turns : Nat) (changes : List Change) (ends : 0 ∉ user)
    (unbroken : slash ∉ user) (fits : ∀ c ∈ changes, Fits fuel user c)
    (fresh : Fresh ((changes.map (message user)).flatMap encodeMessage) m)
    (shelf : Shelf user m.world.fs) :
    Shelf user (exec (loop.run fuel servers (turns + changes.length)) (.fresh mem q) m).2.2.world.fs ∧
      folder user (exec (loop.run fuel servers (turns + changes.length)) (.fresh mem q) m).2.2.world.fs
        = changes.foldl DropboxReplication.applyMessage (folder user m.world.fs) := by
  obtain ⟨sound, nothing, silent, coming⟩ := fresh
  obtain ⟨t, course, shelf', same⟩ := course_changes (q := q) loop m.world.log ends
    unbroken changes (fun c member => (fits c member).1) shelf
  have sized : ∀ n ∈ changes.map (message user), n.Sized fuel := by
    intro n member
    obtain ⟨c, inside, rfl⟩ := List.mem_map.mp member
    exact (fits c inside).2
  have reads : Ends m.coming FileExchange.buf (Stands ⟨m.world.fs, q, m.world.log⟩)
      (loop.turns fuel (turns + (changes.map (message user)).length))
      ((changes.map (message user)).flatMap encodeMessage ++ []) (Shows t) := by
    refine ends_course _ _ sized (by rw [course]; simp) ?_ (by rw [course]; simp)
    intro _
    rw [course]
    exact ends_over t (.inl rfl) loop fuel turns
  rw [List.append_nil, ← coming, List.length_map] at reads
  have shown := exec_run loop fuel (turns + changes.length) servers mem q sound nothing silent reads
  rw [shown.1]
  exact ⟨shelf', same⟩

/-- The server carries out the changes it is sent, and whoever reads what it passed on makes them
    as well. -/
theorem server_relays_changes {fuel : Nat} {user : Path} {changes : List Change} {m : Machine}
    {q : Path} {peers : List Recipient} {heard : List Byte} (servers : List Byte) (mem' : Nat → Byte)
    (ends : 0 ∉ user) (unbroken : slash ∉ user) (fits : ∀ c ∈ changes, Fits fuel user c)
    (fresh : Fresh ((changes.map (message user)).flatMap encodeMessage) m)
    (shelf : Shelf user m.world.fs) (ready : ∀ r ∈ peers, Ready heard [] r) :
    ∃ k v,
      Comp.exec (serverHost fuel) (DropboxClientHandler.syncFromClient fuel servers changes.length)
        (.fresh mem' q) ⟨m, peers⟩ = (.ok (), k, v) ∧ Shelf user v.own.world.fs ∧
      folder user v.own.world.fs =
        changes.foldl DropboxReplication.applyMessage (folder user m.world.fs) ∧
      v.peers.length = peers.length ∧
      ∀ r ∈ v.peers, ∀ (loop : Loop) (n : Machine) (mem : Nat → Byte) (p : Path) (turns : Nat),
        Fresh r.socket.world.sent n → Shelf user n.world.fs →
        folder user n.world.fs = folder user m.world.fs →
        Shelf user (exec (loop.run fuel servers (turns + changes.length)) (.fresh mem p) n).2.2.world.fs ∧
        folder user (exec (loop.run fuel servers (turns + changes.length)) (.fresh mem p) n).2.2.world.fs
          = folder user v.own.world.fs := by
  have plain : ∀ c ∈ changes, Plain (changed c) := fun c member => (fits c member).1
  have count : (changes.map (message user)).length = changes.length := by simp
  obtain ⟨t, carries, shelf', same⟩ := carries_changes (q := q) m.world.log ends unbroken changes
    fits shelf
  obtain ⟨k, v, ran, files, _, length, all⟩ := exec_relays mem' (changes.map (message user))
    servers fresh.sound fresh.nothing fresh.silent fresh.coming carries ready
  rw [count] at ran
  rw [← files] at shelf' same
  refine ⟨k, v, ran, shelf', same, length, ?_⟩
  intro r member loop n mem p turns fresh' shelf'' begins
  have bytes := sent_of_ready (all r member)
  rw [List.nil_append, relayedBytes_changes ends unbroken plain] at bytes
  rw [bytes] at fresh'
  have applied := recipient_applies mem p loop servers turns changes ends unbroken fits fresh'
    shelf''
  refine ⟨applied.1, ?_⟩
  rw [applied.2, begins, same]

/-- A device tells the server what it changed. Once the server's thread for it has gone through that,
    the server's folder has the changes in their order, and so has every backup and every other
    device as soon as it has gone through what the server sent it, whatever the portions in which
    anything was read. -/
theorem changes_reach_everyone {fuel : Nat} {user : Path} {servers : List Byte}
    {actions : List (Change × Fs)} {device m : Machine} {mem : Nat → Byte} {p q : Path}
    {peers : List Recipient} {heard : List Byte} (ends : 0 ∉ user) (unbroken : slash ∉ user)
    (short : servers.length < 2 ^ 63) (fits : ∀ a ∈ actions, Fits fuel user a.1 ∧ Held user a)
    (fresh : Fresh (encodeString servers) device)
    (fresh' : Fresh (syncFromClient fuel user actions ⟨.fresh mem p, device⟩).socket.world.sent m)
    (shelf : Shelf user m.world.fs) (ready : ∀ r ∈ peers, Ready heard [] r) (mem' : Nat → Byte) :
    ∃ k v,
      Comp.exec (serverHost fuel) (DropboxClientHandler.syncFromClient fuel servers actions.length)
        (.fresh mem' q) ⟨m, peers⟩ = (.ok (), k, v) ∧ Shelf user v.own.world.fs ∧
      folder user v.own.world.fs = (actions.map Prod.fst).foldl DropboxReplication.applyMessage
        (folder user m.world.fs) ∧ v.peers.length = peers.length ∧
      ∀ r ∈ v.peers, ∀ (loop : Loop) (n : Machine) (mem : Nat → Byte) (p : Path) (turns : Nat),
        Fresh r.socket.world.sent n → Shelf user n.world.fs →
        folder user n.world.fs = folder user m.world.fs →
        folder user (exec (loop.run fuel servers (turns + actions.length)) (.fresh mem p) n).2.2.world.fs
          = folder user v.own.world.fs := by
  have sent := device_sends mem p actions fresh.sound fresh.nothing fresh.silent fresh.coming short
    fits
  have messages : (actions.map fun a => message user a.1) =
      (actions.map Prod.fst).map (message user) := by
    rw [List.map_map]
    rfl
  rw [messages] at sent
  rw [sent] at fresh'
  have fit : ∀ c ∈ actions.map Prod.fst, Fits fuel user c := by
    intro c member
    obtain ⟨a, inside, rfl⟩ := List.mem_map.mp member
    exact (fits a inside).1
  obtain ⟨k, v, ran, shelf', same, length, all⟩ := server_relays_changes (q := q) servers mem' ends
    unbroken fit fresh' shelf ready
  rw [List.length_map] at ran all
  refine ⟨k, v, ran, shelf', same, length, ?_⟩
  intro r member loop n mem p turns fresh'' shelf'' begins
  exact (all r member loop n mem p turns fresh'' shelf'' begins).2

/-- User "u" has an empty directory on the server. -/
def emptyShelf : Fs := Fs.empty.put (key (syncDirWithPrefix [117])) .dir

theorem emptyShelf_entry (name : Path) : emptyShelf.entry (place [117] name) = none := by
  have absent : Fs.empty.entry (place [117] name) = none := by
    rw [Fs.entry, if_neg (by simp [place, child])]
    rfl
  rw [emptyShelf, entry_put_other place_ne_directory, absent]

theorem emptyShelf_shelf : Shelf [117] emptyShelf := by
  have tree := put_tree .dir empty_tree (k := key (syncDirWithPrefix [117])) (by decide +kernel)
    (by decide +kernel) (by decide +kernel)
  refine ⟨tree, fun _ _ => rfl, entry_put_self (by decide +kernel), ?_⟩
  intro name
  rw [emptyShelf_entry]
  simp

/-- File "x" is written and "y" deleted. -/
def twoActions : List (Change × Fs) :=
  [(.upload [120] [7], emptyShelf.put (place [117] [120]) (.file [7])), (.delete [121], emptyShelf)]

def oneRead (bytes : List Byte) (filled : bytes ≠ []) : Machine :=
  ⟨⟨emptyShelf, [], [], []⟩, [some ⟨bytes, filled⟩], []⟩

theorem oneRead_fresh (bytes : List Byte) (filled : bytes ≠ []) :
    Fresh bytes (oneRead bytes filled) :=
  ⟨⟨by simp [oneRead], rfl⟩, rfl, rfl, by simp [oneRead, Machine.coming]⟩

/-- One backup on a new connection. -/
def newBackup : Recipient := ⟨.fresh (fun _ => 0) [], ⟨⟨emptyShelf, [], [], []⟩, [], []⟩⟩

theorem newBackup_ready : Ready [] [] newBackup := by
  have sound : newBackup.socket.Sound := ⟨by simp [newBackup], rfl⟩
  exact ⟨live_fresh (fun _ => 0) [] sound rfl rfl, rfl, rfl⟩

theorem changes_reach_everyone_two : ∃ (bytes : List Byte) (filled : bytes ≠ []) (k : FileExchange)
    (v : Server), Comp.exec (serverHost 9) (DropboxClientHandler.syncFromClient 9 [] twoActions.length)
        (.fresh (fun _ => 0) []) ⟨oneRead bytes filled, [newBackup]⟩ = (.ok (), k, v) ∧
      folder [117] v.own.world.fs [120] = some [7] ∧ ∀ r ∈ v.peers, ∀ sent : r.socket.world.sent ≠ [],
        folder [117] (exec (Loop.backup.run 9 [] (0 + twoActions.length)) (.fresh (fun _ => 0) [])
          (oneRead r.socket.world.sent sent)).2.2.world.fs [120] = some [7] := by
  have fits : ∀ a ∈ twoActions, Fits 9 [117] a.1 ∧ Held [117] a := by
    intro a member
    rcases List.mem_cons.mp member with rfl | later
    · have held : readable (emptyShelf.put (place [117] [120]) (.file [7])) (filePath [117] [120]) =
          some [7] := by decide +kernel
      have short : (genericString (filePath [117] [120])).length < 2 ^ 63 := by decide +kernel
      exact ⟨⟨by decide, short, by decide, by decide⟩, held⟩
    · obtain rfl := List.mem_singleton.mp later
      have short : (genericString (filePath [117] [121])).length < 2 ^ 63 := by decide +kernel
      exact ⟨⟨by decide, short⟩, trivial⟩
  have heard := oneRead_fresh (encodeString []) (by simp [encodeString])
  have sends := device_sends (fun _ => 0) [] twoActions heard.sound heard.nothing heard.silent
    heard.coming (by decide) fits
  have filled : (syncFromClient 9 [117] twoActions ⟨.fresh (fun _ => 0) [],
      oneRead (encodeString []) (by simp [encodeString])⟩).socket.world.sent ≠ [] := by
    rw [sends]
    simp [twoActions, encodeMessage, encodeCommand]
  have everyone := changes_reach_everyone (by decide) (by decide) (by decide) fits heard
    (oneRead_fresh _ filled) emptyShelf_shelf
    (show ∀ r ∈ [newBackup], Ready [] [] r by simp [newBackup_ready]) (q := [])
  obtain ⟨k, v, ran, _, same, _, all⟩ := everyone (fun _ => 0)
  have there : folder [117] v.own.world.fs [120] = some [7] := by
    rw [same]
    show (twoActions.map Prod.fst).foldl DropboxReplication.applyMessage (folder [117] emptyShelf)
      [120] = some [7]
    decide +kernel
  refine ⟨_, filled, k, v, ran, there, ?_⟩
  intro r member sent
  have backup := all r member .backup (oneRead r.socket.world.sent sent) (fun _ => 0) [] 0
    (oneRead_fresh _ sent) emptyShelf_shelf rfl
  rw [backup, there]

end DropboxPropagation
