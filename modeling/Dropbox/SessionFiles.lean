import Dropbox.Propagation
import Dropbox.Session

/-!
What a session is for. The commands of a user change a folder on the server, names with
contents, and a download brings back what the folder holds, in whatever order client and
handler take their steps.
-/
namespace DropboxSessionFiles
open DropboxFileStore DropboxDirectoryTree DropboxHost DropboxProtocol DropboxDialogue DropboxOrders
open DropboxSession DropboxPropagation DropboxInitialSync SideBySide Transitions

/-- The change of the folder that a command stands for. -/
def change (client : Fs) : Order → Option Change
  | .upload p => (readable client p).map fun content => .upload (filename p) content
  | .delete p => if p = [] then none else some (.delete (filename p))
  | .download _ | .listServer | .exit => none

/-- The changes of the commands up to an exit, each with the file as it is when its turn comes. -/
def changes (fuel : Nat) (user : List Byte) : Fs → Fs → List Order → List Change
  | _, _, [] => []
  | client, server, o :: rest =>
    match o.turn fuel user client server with
    | none => []
    | some t =>
      (change client o).toList ++ if o = .exit then [] else changes fuel user t.client t.server rest

/-- The file on the server has a name of its own. -/
def Named : Order → Prop
  | .upload p | .delete p => p ≠ [] → Plain (filename p)
  | .download _ | .listServer | .exit => True

variable {fuel : Nat} {user : List Byte} {client server : Fs} {t : Turn} {s : Script} {o : Order}

theorem upload_folder {p : Path} (ends : 0 ∉ user) (unbroken : slash ∉ user)
    (shelf : Shelf user server) (named : Named (.upload p))
    (planned : uploadTurn fuel user client server p = some t) :
    Shelf user t.server ∧ folder user t.server =
      (change client (.upload p)).toList.foldl DropboxReplication.applyMessage (folder user server) := by
  simp only [uploadTurn, Option.ite_none_right_eq_some, Option.bind_eq_some_iff,
    Option.map_eq_some_iff] at planned
  obtain ⟨⟨filled, _⟩, content, held, _, stored, stores, rfl⟩ := planned
  have plain : Plain (filename p) := named filled
  have spot := key_filePath ends plain
  have named' : (place user (filename p)).names ≠ [] := by simp [place, child]
  have text : genericString (destination user (filename p)) = filePath user (filename p) :=
    genericString_filePath ends unbroken plain
  have parent : server.parentIsDir (key (filePath user (filename p))) = true := by
    rw [spot]
    exact parent_of_shelf shelf
  have free : server.entry (key (filePath user (filename p))) ≠ some .dir := by
    rw [spot]
    exact shelf.flat (filename p)
  have same := storeFile_allowed content shelf.allowed (by rwa [spot]) (plainly ends plain)
    shelf.tree parent free
  rw [text, same, spot] at stores
  obtain rfl := Option.some.inj stores
  have entries : ∀ k, (server.put (place user (filename p)) (.file content)).entry k =
      if k = place user (changed (.upload (filename p) content)) then
        effect (.upload (filename p) content) else server.entry k := by
    intro k
    by_cases here : k = place user (filename p)
    · rw [here, entry_put_self named']
      simp [changed, effect]
    · rw [entry_put_other here]
      simp [changed, here]
  refine ⟨shelf_after (c := .upload (filename p) content) shelf plain rfl entries, ?_⟩
  rw [folder_after entries, change, held]
  rfl

theorem delete_folder {p : Path} (ends : 0 ∉ user) (unbroken : slash ∉ user)
    (shelf : Shelf user server) (named : Named (.delete p))
    (planned : deleteTurn user client server p = some t) :
    Shelf user t.server ∧ folder user t.server =
      (change client (.delete p)).toList.foldl DropboxReplication.applyMessage (folder user server) := by
  simp only [deleteTurn] at planned
  split at planned
  · rename_i empty
    obtain rfl := Option.some.inj planned
    simp [missing, change, empty, shelf]
  · rename_i filled
    simp only [Option.ite_none_right_eq_some, Option.map_eq_some_iff] at planned
    obtain ⟨_, discarded, discards, rfl⟩ := planned
    have plain : Plain (filename p) := named filled
    have text : genericString (destination user (filename p)) = filePath user (filename p) :=
      genericString_filePath ends unbroken plain
    rw [text] at discards
    -- the server asks whether the file is there, as the other loops do
    obtain ⟨after, clears, kept, entries⟩ := discard_shelf .backup ends shelf plain
    have same : discarded.1 = after := by
      have clears : ((pathExists server (filePath user (filename p))).bind fun present =>
          if present then (remove server (filePath user (filename p))).map Prod.snd
          else some server) = some after := clears
      unfold DropboxOrders.discard at discards
      obtain ⟨present, asked, gives⟩ := Option.bind_eq_some_iff.mp discards
      rw [asked, Option.bind_some] at clears
      cases present with
      | false =>
        rw [if_neg Bool.false_ne_true] at gives clears
        obtain rfl := Option.some.inj gives
        exact Option.some.inj clears
      | true =>
        rw [if_pos rfl] at gives clears
        obtain ⟨removed, removing, rfl⟩ := Option.map_eq_some_iff.mp gives
        rw [removing] at clears
        exact Option.some.inj clears
    have entries' : ∀ k, after.entry k = if k = place user (changed (.delete (filename p))) then
        effect (.delete (filename p)) else server.entry k := entries
    refine ⟨?_, ?_⟩
    · rw [same]
      exact shelf_after (c := .delete (filename p)) shelf plain kept entries'
    · rw [same, folder_after entries', change, if_neg filled]
      rfl

/-- A command does to the folder what it stands for. -/
theorem turn_folder (ends : 0 ∉ user) (unbroken : slash ∉ user) (shelf : Shelf user server)
    (named : Named o) (planned : o.turn fuel user client server = some t) :
    Shelf user t.server ∧ folder user t.server =
      (change client o).toList.foldl DropboxReplication.applyMessage (folder user server) := by
  cases o with
  | upload p => exact upload_folder ends unbroken shelf named planned
  | delete p => exact delete_folder ends unbroken shelf named planned
  | download p =>
    simp only [Order.turn, downloadTurn] at planned
    split at planned
    · obtain rfl := Option.some.inj planned
      exact ⟨shelf, rfl⟩
    · simp only [Option.ite_none_right_eq_some, Option.map_eq_some_iff] at planned
      obtain ⟨_, _, _, rfl⟩ := planned
      exact ⟨shelf, rfl⟩
  | listServer =>
    simp only [Order.turn, listTurn, Option.bind_eq_some_iff, Option.ite_none_right_eq_some,
      Option.some.injEq] at planned
    obtain ⟨_, _, _, rfl⟩ := planned
    exact ⟨shelf, rfl⟩
  | exit =>
    obtain rfl := Option.some.inj planned
    exact ⟨shelf, rfl⟩

/-- So does a list of commands. -/
theorem script_folder (orders : List Order) (ends : 0 ∉ user) (unbroken : slash ∉ user)
    (shelf : Shelf user server) (named : ∀ o ∈ orders, Named o)
    (planned : script fuel user client server orders = some s) :
    Shelf user s.server ∧ folder user s.server =
      (changes fuel user client server orders).foldl DropboxReplication.applyMessage
        (folder user server) := by
  induction orders generalizing client server s with
  | nil =>
    obtain rfl := Option.some.inj planned
    exact ⟨shelf, rfl⟩
  | cons o rest ih =>
    obtain ⟨t, turned, onward⟩ := Option.bind_eq_some_iff.mp planned
    obtain ⟨shelf', same⟩ := turn_folder ends unbroken shelf (named o List.mem_cons_self) turned
    rw [changes, turned]
    dsimp only
    by_cases last : o = .exit
    · obtain rfl := Option.some.inj ((if_pos last).symm.trans onward)
      rw [if_pos last, List.append_nil]
      exact ⟨shelf', same⟩
    · obtain ⟨s', onwards, rfl⟩ := Option.map_eq_some_iff.mp ((if_neg last).symm.trans onward)
      obtain ⟨shelf'', later⟩ := ih shelf' (fun p member => named p (List.mem_cons_of_mem _ member))
        onwards
      rw [if_neg last, List.foldl_append, ← same]
      exact ⟨shelf'', later⟩

/-- Without an exit the commands that follow go on from where the first ones led. -/
theorem script_append (before : List Order) {after : List Order} (stays : Order.exit ∉ before)
    (planned : script fuel user client server (before ++ after) = some s) :
    ∃ s₁ s₂, script fuel user client server before = some s₁ ∧
      script fuel user s₁.client s₁.server after = some s₂ ∧ s.client = s₂.client ∧
      s.server = s₂.server ∧ s.shown = s₁.shown ++ s₂.shown := by
  induction before generalizing client server s with
  | nil => exact ⟨_, s, rfl, planned, rfl, rfl, rfl⟩
  | cons o rest ih =>
    obtain ⟨t, turned, onward⟩ := Option.bind_eq_some_iff.mp planned
    have goes : o ≠ .exit := by
      intro last
      exact stays (by simp [last])
    obtain ⟨s', onwards, rfl⟩ := Option.map_eq_some_iff.mp ((if_neg goes).symm.trans onward)
    obtain ⟨s₁, s₂, first, second, client', server', shown⟩ :=
      ih (fun inside => stays (List.mem_cons_of_mem _ inside)) onwards
    refine ⟨t.followedBy s₁, s₂, ?_, second, client', server', ?_⟩
    · rw [script, turned, Option.bind_some, if_neg goes, first]
      rfl
    · simp [Turn.followedBy, shown]

/-- What a download does to the files of the client, and what it reports. -/
theorem download_fetches {name : Path} (ends : 0 ∉ user) (unbroken : slash ∉ user)
    (shelf : Shelf user server) (plain : Plain name)
    (planned : downloadTurn fuel user client server name = some t) :
    match folder user server name with
    | some content => t.client.entry (key name) = some (.file content) ∧ t.shown = [.reported true]
    | none => t.client = client ∧ t.shown = [.reported false] := by
  have text : genericString (destination user name) = filePath user name :=
    genericString_filePath ends unbroken plain
  simp only [downloadTurn, if_neg plain.1, Option.ite_none_right_eq_some, Option.map_eq_some_iff,
    text] at planned
  obtain ⟨_, fetched, fetches, rfl⟩ := planned
  obtain ⟨present, asked, rest⟩ := Option.bind_eq_some_iff.mp fetches
  have stat : server.stat (filePath user name) = server.entry (place user name) := by
    rw [stat_eq_entry (plainly ends plain), key_filePath ends plain]
  have there : present = (server.entry (place user name)).isSome := by
    rw [pathExists, shelf.allowed, if_neg Bool.false_ne_true, stat] at asked
    exact (Option.some.inj asked).symm
  cases found : server.entry (place user name) with
  | none =>
    rw [found] at there
    subst there
    obtain rfl := Option.some.inj rest
    simp [folder, found]
  | some e =>
    cases e with
    | dir => exact absurd found (shelf.flat name)
    | file content =>
      rw [found] at there
      subst there
      simp only [Option.isSome_some, if_true, Option.bind_eq_some_iff, Option.ite_none_right_eq_some,
        Option.map_eq_some_iff] at rest
      obtain ⟨read, holds, _, stored, stores, rfl⟩ := rest
      have same : content = read := by
        have held := (readable_eq_some holds).2.2.1
        rw [stat, found] at held
        simpa using held
      subst same
      obtain ⟨opened, opens, rfl⟩ := storeFile_eq_some stores
      simp [folder, found, openDestination_put content opens]

/-- In every interleaving, once neither side can go on, the server's folder is what the commands
    make of it, and a download has brought back what the folder holds. -/
theorem session_serves_files {turns : Nat} {before : List Order} {name : Path}
    {fe fe' : FileExchange} {q : Sides} (ends : 0 ∉ user) (unbroken : slash ∉ user)
    (shelf : Shelf user server) (named : ∀ o ∈ before, Named o) (stays : Order.exit ∉ before)
    (plain : Plain name)
    (planned : script fuel user client server (before ++ [.download name]) = some s)
    (room : s.exchanges.length < turns) (idle : Idle fe) (idle' : Idle fe')
    (reach : Reachable (pairStep calls calls)
      (start fuel turns user (before ++ [.download name]) client server fe fe') q)
    (stuck : Stuck (pairStep calls calls) q) :
    folder user q.rworld.fs =
        (changes fuel user client server before).foldl DropboxReplication.applyMessage
          (folder user server) ∧
      match folder user q.rworld.fs name with
      | some content => q.lworld.fs.entry (key name) = some (.file content) ∧
          q.lworld.log.getLast? = some (.reported true)
      | none => q.lworld.log.getLast? = some (.reported false) := by
  have commands := (script_logs _ planned).1
  have meets := meets_reachable (client_sound s) (handler_sound s) (start_meets planned room idle idle')
    reach
  obtain ⟨_, _, _, _, clientEnds, serverEnds⟩ := complete_of_stuck meets stuck commands
  obtain ⟨s₁, s₂, first, second, client', server', shown⟩ := script_append before stays planned
  obtain ⟨shelf', same⟩ := script_folder before ends unbroken shelf named first
  simp only [script, Order.turn, Option.bind_eq_some_iff] at second
  obtain ⟨t, turned, onward⟩ := second
  rw [if_neg (by simp)] at onward
  obtain rfl := Option.some.inj onward
  have fetched := download_fetches ends unbroken shelf' plain turned
  have untouched : t.server = s₁.server := by
    have kept := turned
    simp only [downloadTurn, if_neg plain.1, Option.ite_none_right_eq_some,
      Option.map_eq_some_iff] at kept
    obtain ⟨_, _, _, rfl⟩ := kept
    rfl
  have files : q.rworld.fs = s₁.server := by
    rw [serverEnds]
    exact server'.trans untouched
  rw [files, clientEnds]
  refine ⟨same, ?_⟩
  dsimp only
  rw [client', shown]
  cases held : folder user s₁.server name with
  | none =>
    rw [held] at fetched
    simp [Turn.followedBy, fetched.2]
  | some content =>
    rw [held] at fetched
    simp [Turn.followedBy, fetched.1, fetched.2]

/-- File "f" is uploaded and comes back. -/
theorem session_serves_files_again :
    ∃ q : Sides, folder [117] q.rworld.fs [102] = some [7] ∧
      q.lworld.fs.entry (key [102]) = some (.file [7]) := by
  have fresh : Idle (FileExchange.fresh (fun _ => 0) []) := ⟨rfl, rfl, Nat.zero_le _, rfl⟩
  have sizes : (script 2 [117] oneClient emptyShelf ([.upload [102]] ++ [.download [102]])).map
      (fun s => s.exchanges.length) = some 2 := by decide +kernel
  obtain ⟨s, planned, two⟩ := Option.map_eq_some_iff.mp sizes
  have room : s.exchanges.length < 3 := by omega
  obtain ⟨q, reach, stuck⟩ := reaches_stuck calls calls (start 2 3 [117]
    ([.upload [102]] ++ [.download [102]]) oneClient emptyShelf (.fresh (fun _ => 0) [])
    (.fresh (fun _ => 0) []))
  have named : ∀ o ∈ [Order.upload [102]], Named o := by
    intro o member
    obtain rfl := List.mem_singleton.mp member
    intro _
    decide +kernel
  have serves := session_serves_files (by decide) (by decide) emptyShelf_shelf named (by decide)
    (by decide) planned room fresh fresh reach stuck
  have made : changes 2 [117] oneClient emptyShelf [.upload [102]] = [.upload [102] [7]] := by
    decide +kernel
  obtain ⟨same, fetched⟩ := serves
  rw [made] at same
  have held : folder [117] q.rworld.fs [102] = some [7] := by
    rw [same]
    simp [DropboxReplication.applyMessage]
  rw [held] at fetched
  exact ⟨q, held, fetched.1⟩

end DropboxSessionFiles
