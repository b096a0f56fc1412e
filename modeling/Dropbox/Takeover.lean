import Dropbox.InitialSync
import Dropbox.Propagation

/-!
What is left when the primary is lost. A backup holds what the primary passed on to it;
once it is the primary itself, a client that connects to it is sent that directory.
-/
namespace DropboxTakeover
open Programs DropboxFileStore DropboxDirectoryTree DropboxHost DropboxSocketStream
open DropboxStreamRules DropboxProtocol DropboxProtocolRules DropboxEndOfStream DropboxSyncLoops
open DropboxRelay DropboxPropagation DropboxInitialSync

/-- Paths and contents of the folder fit into messages, and into what is read of them. -/
def Carriable (fuel : Nat) (user : Path) (held : Folder) : Prop :=
  ∀ name content, held name = some content → content.length < fuel ∧ content.length < 2 ^ 63 ∧
    (genericString (filePath user name)).length < 2 ^ 63

section folders
variable {fuel : Nat} {user name : Path} {fs gs : Fs}

theorem entry_of_folder {content : List Byte} (held : folder user fs name = some content) :
    fs.entry (place user name) = some (.file content) := by
  rw [folder] at held
  split at held
  · rename_i found
    cases held
    exact found
  · cases held

theorem readable_of_folder {content : List Byte} (ends : 0 ∉ user) (shelf : Shelf user fs)
    (plain : Plain name) (short : content.length < 2 ^ 63)
    (held : folder user fs name = some content) :
    readable fs (filePath user name) = some content := by
  have found := entry_of_folder held
  have stat : fs.stat (filePath user name) = some (.file content) := by
    rw [stat_eq_entry (plainly ends plain), key_filePath ends plain, found]
  simpa [readable, stat, openIn, fileSize, shelf.allowed] using short

/-- A folder that fits can be served. -/
theorem shelf_serves {listed : List Path} (ends : 0 ∉ user) (shelf : Shelf user fs)
    (carriable : Carriable fuel user (folder user fs))
    (lists : listDirectory fs (syncDirWithPrefix user) = some listed) :
    Serves fs (syncDirWithPrefix user) fuel listed := by
  have plain := listed_plain shelf.tree lists
  have held : ∀ name ∈ listed, ∃ content, folder user fs name = some content := by
    intro name member
    have there := (mem_listDirectory lists).mp member
    cases found : fs.entry (place user name) with
    | none => exact absurd found there
    | some e =>
      cases e with
      | dir => exact absurd found (shelf.flat name)
      | file content => exact ⟨content, by rw [folder, found]⟩
  refine ⟨shelf.tree, lists, ?_, ?_⟩
  · intro name member
    obtain ⟨content, holds⟩ := held name member
    obtain ⟨enough, short, _⟩ := carriable name content holds
    exact ⟨content, readable_of_folder ends shelf (plain name member) short holds, enough⟩
  · intro name member
    obtain ⟨content, holds⟩ := held name member
    exact (carriable name content holds).2.2

theorem shelf_lists (shelf : Shelf user fs) :
    ∃ listed, listDirectory fs (syncDirWithPrefix user) = some listed := by
  rw [listDirectory, if_pos]
  · exact ⟨_, rfl⟩
  · simp [shelf.directory, shelf.allowed]

theorem folder_same (same : SameDirectory fs gs (syncDirWithPrefix user)) :
    folder user gs = folder user fs := by
  funext name
  rw [folder, place, same.2 [name] (by simp)]
  rfl

end folders

/-- Both ends of a new payload connection, and the bytes that travel from the server to the client:
    the last of them leave with the handler's next read. -/
structure Joins (fuel rounds : Nat) (user : Path) (server client : Machine)
    (fe fe' : FileExchange) : Prop where
  sound : server.Sound
  sound' : client.Sound
  idle : Idle fe
  idle' : Idle fe'
  accepts : Accepts client.world.fs (syncDirWithPrefix user)
  enough : ∀ listed, listDirectory server.world.fs (syncDirWithPrefix user) = some listed →
    listed.length < rounds
  travels : ∀ served left,
    exec (DropboxClientHandler.getSyncDir fuel user) fe server = (.ok true, served, left) →
    (exec receiveCommand served left).2.2.world.sent = server.world.sent ++ client.coming

attribute [local irreducible] exec

/-- Who joins gets the server's folder. -/
theorem joins_folder {fuel rounds : Nat} {user : Path} {server client : Machine}
    {fe fe' : FileExchange} (ends : 0 ∉ user) (joins : Joins fuel rounds user server client fe fe')
    (shelf : Shelf user server.world.fs)
    (carriable : Carriable fuel user (folder user server.world.fs)) :
    folder user (exec (DropboxClient.getSyncDir fuel rounds user) fe' client).2.2.world.fs =
      folder user server.world.fs := by
  obtain ⟨listed, lists⟩ := shelf_lists shelf
  have serves := shelf_serves ends shelf carriable lists
  obtain ⟨served, left, ran, _, _, pushed⟩ := exec_served joins.sound joins.idle serves
  have transmitted := pushed.symm.trans (joins.travels served left ran)
  have bytes := List.append_cancel_left transmitted
  obtain ⟨synced, after, ran', same, _⟩ := exec_synced joins.sound' joins.idle' ends
    (joins.enough listed lists) serves joins.accepts bytes.symm
  rw [ran']
  exact folder_same same

/-- No change that the primary has passed on is lost with it: a client that joins a backup which has
    gone through what it was sent gets the folder the primary had. -/
theorem takeover_keeps_folder {fuel : Nat} {user : Path} {servers : List Byte} {changes : List Change}
    {m : Machine} {q : Path} {peers : List Recipient} {heard : List Byte} (ends : 0 ∉ user)
    (unbroken : slash ∉ user) (fits : ∀ c ∈ changes, Fits fuel user c)
    (fresh : Fresh ((changes.map (message user)).flatMap encodeMessage) m)
    (shelf : Shelf user m.world.fs) (ready : ∀ r ∈ peers, Ready heard [] r)
    (carriable : Carriable fuel user
      (changes.foldl DropboxReplication.applyMessage (folder user m.world.fs)))
    (mem : Nat → Byte) :
    ∃ k v,
      Comp.exec (serverHost fuel) (DropboxClientHandler.syncFromClient fuel servers changes.length)
        (.fresh mem q) ⟨m, peers⟩ = (.ok (), k, v) ∧ v.peers.length = peers.length ∧
      ∀ r ∈ v.peers, ∀ (backup : Machine) (mem : Nat → Byte) (p : Path) (turns : Nat),
        Fresh r.socket.world.sent backup → Shelf user backup.world.fs →
        folder user backup.world.fs = folder user m.world.fs →
        ∀ (rounds : Nat) (server client : Machine) (fe fe' : FileExchange),
          server.world.fs = (exec (Loop.backup.run fuel servers (turns + changes.length))
            (.fresh mem p) backup).2.2.world.fs →
          Joins fuel rounds user server client fe fe' →
          folder user (exec (DropboxClient.getSyncDir fuel rounds user) fe' client).2.2.world.fs =
            folder user v.own.world.fs := by
  obtain ⟨k, v, ran, _, same, length, all⟩ := server_relays_changes (q := q) servers mem ends unbroken
    fits fresh shelf ready
  refine ⟨k, v, ran, length, ?_⟩
  intro r member backup mem p turns fresh' shelf' begins rounds server client fe fe' files joins
  obtain ⟨shelf'', held⟩ := all r member .backup backup mem p turns fresh' shelf' begins
  rw [← files] at shelf'' held
  rw [← same, ← held] at carriable
  rw [joins_folder ends joins shelf'' carriable, held]

/-- File "x" has been uploaded. -/
def oneUpload : List Change := [.upload [120] [7]]

theorem oneUpload_fits : ∀ c ∈ oneUpload, Fits 9 [117] c := by
  intro c member
  obtain rfl := List.mem_singleton.mp member
  have short : (genericString (filePath [117] [120])).length < 2 ^ 63 := by decide +kernel
  exact ⟨by decide, short, by decide, by decide⟩

theorem oneUpload_carriable : Carriable 9 [117]
    (oneUpload.foldl DropboxReplication.applyMessage (folder [117] emptyShelf)) := by
  intro name content held
  have bare : folder [117] emptyShelf name = none := by rw [folder, emptyShelf_entry]
  by_cases here : name = [120]
  · subst here
    have same : content = [7] := by simpa [oneUpload, DropboxReplication.applyMessage, eq_comm] using held
    subst same
    exact ⟨by decide, by decide, by decide +kernel⟩
  · simp [oneUpload, DropboxReplication.applyMessage, here, bare] at held

/-- A new connection to a machine with an empty directory, which gets these bytes in one read. -/
def reads (bytes : List Byte) : Machine :=
  if filled : bytes ≠ [] then oneRead bytes filled else ⟨⟨emptyShelf, [], [], []⟩, [], []⟩

theorem reads_fresh (bytes : List Byte) :
    Fresh bytes (reads bytes) ∧ (reads bytes).world.fs = emptyShelf := by
  rw [reads]
  split
  · rename_i filled
    exact ⟨oneRead_fresh bytes filled, rfl⟩
  · rename_i bare
    rw [not_not] at bare
    exact ⟨⟨⟨by simp, rfl⟩, rfl, rfl, by simp [Machine.coming, bare]⟩, rfl⟩

theorem takeover_keeps_folder_one : ∃ (bytes : List Byte) (k : FileExchange) (v : Server)
    (rounds : Nat) (client : Machine),
    Comp.exec (serverHost 9) (DropboxClientHandler.syncFromClient 9 [] oneUpload.length)
      (.fresh (fun _ => 0) []) ⟨reads bytes, [newBackup]⟩ = (.ok (), k, v) ∧
    folder [117] (exec (DropboxClient.getSyncDir 9 rounds [117]) (.fresh (fun _ => 0) [])
      client).2.2.world.fs = folder [117] v.own.world.fs := by
  let bytes := (oneUpload.map (message [117])).flatMap encodeMessage
  obtain ⟨fresh, empty⟩ := reads_fresh bytes
  have shelf : Shelf [117] (reads bytes).world.fs := empty ▸ emptyShelf_shelf
  have carriable := oneUpload_carriable
  rw [← empty] at carriable
  obtain ⟨k, v, ran, length, all⟩ := takeover_keeps_folder (by decide) (by decide) oneUpload_fits
    fresh shelf (show ∀ r ∈ [newBackup], Ready [] [] r by simp [newBackup_ready]) carriable
    (fun _ => 0) (q := [])
  obtain ⟨r, single⟩ := List.length_eq_one_iff.mp length
  obtain ⟨fresh', empty'⟩ := reads_fresh r.socket.world.sent
  have shelf' : Shelf [117] (reads r.socket.world.sent).world.fs := empty' ▸ emptyShelf_shelf
  have joined := all r (by simp [single]) (reads r.socket.world.sent) (fun _ => 0) [] 0 fresh' shelf'
    (by rw [empty, empty'])
  have idle : Idle (FileExchange.fresh (fun _ => 0) []) := ⟨rfl, rfl, Nat.zero_le _, rfl⟩
  generalize (exec (Loop.backup.run 9 [] (0 + oneUpload.length)) (.fresh (fun _ => 0) [])
    (reads r.socket.world.sent)).2.2.world.fs = held at joined
  let server : Machine := ⟨⟨held, [], [], []⟩, [], []⟩
  let out := exec (DropboxClientHandler.getSyncDir 9 [117]) (.fresh (fun _ => 0) []) server
  obtain ⟨fresh'', empty''⟩ := reads_fresh (exec receiveCommand out.2.1 out.2.2).2.2.world.sent
  obtain ⟨rounds, enough⟩ : ∃ rounds, ∀ listed,
      listDirectory held (syncDirWithPrefix [117]) = some listed → listed.length < rounds := by
    cases lists : listDirectory held (syncDirWithPrefix [117]) with
    | none => exact ⟨0, fun _ impossible => by cases impossible⟩
    | some listed =>
      refine ⟨listed.length + 1, fun other same => ?_⟩
      rw [← Option.some.inj same]
      exact Nat.lt_succ_self _
  have joins : Joins 9 rounds [117] server
      (reads (exec receiveCommand out.2.1 out.2.2).2.2.world.sent) (.fresh (fun _ => 0) [])
      (.fresh (fun _ => 0) []) := by
    refine ⟨⟨by simp [server], rfl⟩, fresh''.sound, idle, idle, ?_, enough, ?_⟩
    · rw [empty'']
      exact ⟨emptyShelf_shelf.tree, fun _ _ => rfl, Or.inl emptyShelf_shelf.directory⟩
    · intro served left ran'
      have same : out = (.ok true, served, left) := ran'
      rw [fresh''.coming, same]
      rfl
  exact ⟨bytes, k, v, rounds, _, ran, joined rounds server _ _ _ rfl joins⟩

end DropboxTakeover
