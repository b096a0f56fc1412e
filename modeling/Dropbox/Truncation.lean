import Dropbox.SyncLoops

/-!
A stream that ends inside a message, on the three loops. A failed ReceivePath leaves
path_ as the message before left it, and Receive empties its file before it has read
a size, so a cut message acts on the store and on the broadcasts unless the state
it meets happens to hide it.
-/
namespace DropboxTruncation
open DropboxFileStore DropboxHost DropboxStreamRules DropboxProtocol DropboxProtocolRules
open DropboxEndOfStream DropboxSyncLoops Codec

/-- Where in the message the stream ends; `content` says how much of the file has come. -/
inductive Stage where
  | command
  | path
  | size
  | content (got : List Byte)
  deriving DecidableEq, Repr

def Message.content : Message → List Byte
  | .upload _ content => content
  | .delete _ => []

def pathEnd (m : Message) : Nat := 2 + (encodeString m.path).length

/-- The stage after this many bytes of the message. -/
def stage (m : Message) (k : Nat) : Stage :=
  if k < 2 then .command
  else if k < pathEnd m then .path
  else if k < pathEnd m + 9 then .size
  else .content ((Message.content m).take (k - (pathEnd m + 9)))

/-- Clearing the destination takes nothing away. -/
def NothingToRemove (fs : Fs) (q : Path) : Prop :=
  fs.entry (key q) = some .dir → ∀ k, (key q).within k → k.names ≠ [] → fs.entry k = none

/-- Opening the destination and writing `got` to it leaves the store as it was. -/
def Unharmed (fs : Fs) (q : Path) (got : List Byte) : Prop :=
  match openDestination fs q with
  | none => True
  | some (false, _) => NothingToRemove fs q
  | some (true, _) => fs.entry (key q) = some (.file got)

/-- The directory just made at `d` is all that is removed again when the destination is cleared, and
    the destination cannot be opened. -/
def MadeInVain (fs made : Fs) (d : Key) (q : Path) : Prop :=
  match openDestination made q with
  | some (false, _) => made.entry (key q) = some .dir ∧ (key q).within d ∧
      ∀ k, (key q).within k → k.names ≠ [] → fs.entry k = none
  | _ => False

/-- Receive under this path, with this much content, leaves the store as it was. -/
def Spares (loop : Loop) (fs : Fs) (q : Path) (got : List Byte) : Prop :=
  match loop, createDirectory fs (DropboxBackup.firstPart q) with
  | .backup, none => True
  | .backup, some (true, made) => MadeInVain fs made (key (DropboxBackup.firstPart q)) q
  | _, _ => Unharmed fs q got

/-- The path is there, and removing it is not refused. -/
def Removes (fs : Fs) (q : Path) : Prop := pathExists fs q = some true ∧ (remove fs q).isSome

instance (fs : Fs) (q : Path) : Decidable (Removes fs q) :=
  inferInstanceAs (Decidable (pathExists fs q = some true ∧ (remove fs q).isSome))

/-- An upload without its size goes unnoticed. On the primary that takes an exception, since
    otherwise there is a broadcast. -/
def UploadHidden (loop : Loop) (fs : Fs) (q : Path) : Prop :=
  match loop with
  | .primary => openDestination fs q = none
  | _ => Spares loop fs q []

def DeleteHidden (loop : Loop) (fs : Fs) (q : Path) : Prop :=
  match loop, createDirectory fs (DropboxBackup.firstPart q) with
  | .primary, _ => remove fs q = none
  | .backup, none => True
  | .backup, some (true, made) => Removes made q ∧ key q = key (DropboxBackup.firstPart q)
  | _, _ => ¬ Removes fs q

/-- The state before the message hides that part of it has come. -/
def Hidden (loop : Loop) (s : Point) (m : Message) : Stage → Prop
  | .command => True
  | .path =>
    match m with
    | .upload _ _ => UploadHidden loop s.fs s.path
    | .delete _ => DeleteHidden loop s.fs s.path
  | .size => UploadHidden loop s.fs m.path
  | .content got => Spares loop s.fs m.path got

/-- The state after the part of the message. -/
def halfway (loop : Loop) (s : Point) (m : Message) : Stage → Point
  | .command => s
  | .path =>
    match m with
    | .upload _ _ => (loop.store s s.path []).1
    | .delete _ => (loop.erase s s.path).1
  | .size => (loop.store s m.path []).1
  | .content got => { (loop.store s m.path got).1 with log := s.log }

/-- Once its path has come whole, the file of the message can be opened. -/
def Straight (loop : Loop) (s : Point) (m : Message) : Stage → Prop
  | .command | .path => True
  | .size | .content _ => (loop.store s m.path []).2 ≠ .strays

section cutting
variable {m : Message} {cut : List Byte}

theorem take_encoding (within : cut <+: encodeMessage m) :
    cut = (encodeCommand m.command).take cut.length ++
      ((encodeString m.path).take (cut.length - 2) ++ m.body.take (cut.length - pathEnd m)) := by
  have whole := List.prefix_iff_eq_take.mp within
  rw [encodeMessage, List.take_append, List.take_append] at whole
  have size : (encodeCommand m.command).length = 2 := rfl
  rw [size, Nat.sub_sub] at whole
  exact whole

theorem command_part (early : cut.length < 2) (within : cut <+: encodeMessage m) :
    cut = [] ∨ cut = [1] := by
  match cut, within with
  | [], _ => exact .inl rfl
  | [b], within =>
    obtain ⟨rfl, _⟩ := List.cons_prefix_cons.mp (show [b] <+: 1 :: _ from within)
    exact .inr rfl
  | _ :: _ :: _, _ => exact absurd early (by simp)

theorem path_part (late : 2 ≤ cut.length) (early : cut.length < pathEnd m)
    (within : cut <+: encodeMessage m) :
    ∃ half, cut = encodeCommand m.command ++ half ∧ half <+: encodeString m.path ∧
      half ≠ encodeString m.path := by
  have whole := take_encoding within
  have none : cut.length - pathEnd m = 0 := by omega
  rw [none, List.take_zero, List.append_nil, List.take_of_length_le (l := encodeCommand m.command) late]
    at whole
  refine ⟨_, whole, List.take_prefix .., ?_⟩
  intro same
  have size := congrArg List.length same
  rw [List.length_take] at size
  unfold pathEnd at early
  omega

theorem body_part (late : pathEnd m ≤ cut.length) (within : cut <+: encodeMessage m) :
    cut = encodeCommand m.command ++ (encodeString m.path ++ m.body.take (cut.length - pathEnd m)) := by
  have whole := take_encoding within
  have order : 2 + (encodeString m.path).length ≤ cut.length := late
  have first : (encodeCommand m.command).take cut.length = encodeCommand m.command :=
    List.take_of_length_le (show 2 ≤ cut.length by omega)
  have second : (encodeString m.path).take (cut.length - 2) = encodeString m.path :=
    List.take_of_length_le (by omega)
  rwa [first, second] at whole

end cutting

section halfway
variable {input cut : List Byte} {loop : Loop} {s : Point} {m : Message} {fuel turns : Nat}

theorem store_fate (loop : Loop) (s : Point) (p : Path) (content : List Byte) :
    (loop.store s p content).2 = (loop.store s p []).2 := by
  unfold Loop.store
  split
  · rfl
  · split <;> rfl

/-- The file is empty when its size does not come. -/
theorem reads_headless {p : Path} {log : List Event} {half content : List Byte}
    (within : half <+: encodeFile content) (early : half.length < 9) (fs opened : Fs)
    (opens : openDestination fs p = some (true, opened)) :
    Reads input FileExchange.buf (At p fs log) (receive fuel) half (.ok false) []
      (At p (opened.put (key p) (.file [])) log) := by
  obtain ⟨_, cleared, rfl⟩ := openDestination_opened opens
  rw [put_put]
  exact reads_receive_headless opens within early fuel

/-- The stream ends inside the path: the loop takes the path it has. -/
theorem ends_path_cut (fits : m.path.length < 2 ^ 63) (late : 2 ≤ cut.length)
    (early : cut.length < pathEnd m) (within : cut <+: encodeMessage m) :
    Ends input FileExchange.buf (Stands s) (loop.turns fuel (turns + 1)) cut
      (Shows (halfway loop s m .path)) := by
  obtain ⟨half, rfl, inside, proper⟩ := path_part late early within
  have path : Reads input FileExchange.buf (Stands s) receivePath half (.ok false) []
      (At s.path s.fs s.log) := reads_receivePath_short fits inside proper
  cases m with
  | upload p content =>
    refine ends_store [] [] (reads_command .kUpload half) path
      (reads_headless (List.nil_prefix (l := encodeFile [])) (by decide)) ?_ ?_ ?_
    · exact fun _ => ends_over _ (.inl rfl) loop fuel turns
    · exact fun _ _ shown => shown
    · exact fun _ => ends_over _ (.inl rfl) loop fuel turns
  | delete p =>
    refine ends_erase (reads_command .kDelete half) path ?_ ?_
    · exact fun _ => ends_over _ (.inl rfl) loop fuel turns
    · exact fun _ _ shown => shown

/-- The stream ends inside the size of the file, which is empty then. -/
theorem ends_size_cut {p : Path} {content half : List Byte} (fits : p.length < 2 ^ 63)
    (within : half <+: encodeFile content) (early : half.length < 9)
    (straight : (loop.store s p []).2 ≠ .strays) :
    Ends input FileExchange.buf (Stands s) (loop.turns fuel (turns + 1))
      (encodeCommand .kUpload ++ (encodeString p ++ half)) (Shows (loop.store s p []).1) := by
  refine ends_store [] [] (reads_command .kUpload _) (reads_path fits half)
    (reads_headless within early) ?_ ?_ ?_
  · exact fun _ => ends_over _ (.inl rfl) loop fuel turns
  · exact fun _ _ shown => shown
  · exact fun strays => absurd strays straight

/-- The stream ends inside the content: the file holds what has come, and Receive hangs. -/
theorem ends_content_cut {p : Path} {content got : List Byte} (fits : p.length < 2 ^ 63)
    (small : content.length < 2 ^ 63) (short : got.length < content.length)
    (enough : got.length < fuel) (straight : (loop.store s p []).2 ≠ .strays) :
    Ends input FileExchange.buf (Stands s) (loop.turns fuel (turns + 1))
      (encodeCommand .kUpload ++ (encodeString p ++ (1 :: toLittle 8 content.length ++ got)))
      (Shows { (loop.store s p got).1 with log := s.log }) := by
  have path : Reads input FileExchange.buf (Stands s) receivePath
      (encodeString p ++ (1 :: toLittle 8 content.length ++ got)) (.ok true)
      (1 :: toLittle 8 content.length ++ got) (At p s.fs s.log) := reads_path fits _
  refine ends_opening got (reads_command .kUpload _) path ?_ ?_ ?_
  · intro fs opened entered opens
    have result : (loop.store s p got).1.fs = opened.put (key p) (.file got) := by
      simp [Loop.store, entered, opens]
    refine ends_upload_fault (reads_command .kUpload _) path entered
      (reads_receive_part opens small short enough) ?_
    rintro fe w ⟨_, _, files, logged⟩
    exact ⟨files.trans result.symm, by rw [logged]⟩
  · intro stops w shown
    have silent : (loop.store s p got).1.log = s.log := by
      revert stops
      unfold Loop.store
      split
      · exact fun _ => rfl
      · split <;> simp
    exact ⟨shown.1, by rw [shown.2, silent]⟩
  · intro strays
    rw [store_fate] at strays
    exact absurd strays straight

/-- Past the size, the body of an upload is its header and a part of the content. -/
theorem take_body (content : List Byte) {j : Nat} (late : 9 ≤ j) :
    (encodeFile content).take j = 1 :: toLittle 8 content.length ++ content.take (j - 9) := by
  have head : (1 :: toLittle 8 content.length : List Byte).length = 9 := by simp
  show List.take j ((1 :: toLittle 8 content.length) ++ content) = _
  rw [List.take_append, head, List.take_of_length_le (by omega)]

/-- The loop comes to a message that breaks off. -/
theorem ends_cut (sized : m.Sized fuel) (within : cut <+: encodeMessage m)
    (proper : cut ≠ encodeMessage m) (straight : Straight loop s m (stage m cut.length)) :
    Ends input FileExchange.buf (Stands s) (loop.turns fuel (turns + 1)) cut
      (Shows (halfway loop s m (stage m cut.length))) := by
  have few : cut.length < (encodeMessage m).length :=
    lt_of_le_of_ne within.length_le fun same => proper (within.eq_of_length same)
  have total : (encodeMessage m).length = pathEnd m + m.body.length := by
    simp [encodeMessage, encodeCommand, pathEnd, Nat.add_assoc]
    omega
  by_cases command : cut.length < 2
  · have here : stage m cut.length = .command := if_pos command
    rw [here]
    exact ends_over s (command_part command within) loop fuel (turns + 1)
  by_cases path : cut.length < pathEnd m
  · have here : stage m cut.length = .path := by simp [stage, command, path]
    have fits : m.path.length < 2 ^ 63 := by
      cases m with
      | upload p content => exact sized.1
      | delete p => exact sized
    rw [here]
    exact ends_path_cut fits (by omega) path within
  cases m with
  | delete p => exact absurd few (by rw [total]; simp [Message.body]; omega)
  | upload p content =>
    have parts := body_part (by omega) within
    obtain ⟨text, small, enough⟩ := sized
    by_cases size : cut.length < pathEnd (.upload p content) + 9
    · have here : stage (.upload p content) cut.length = .size := by
        simp [stage, command, path, size]
      rw [here] at straight ⊢
      rw [parts]
      refine ends_size_cut text (List.take_prefix _ (encodeFile content)) ?_ straight
      rw [List.length_take]
      omega
    · have here : stage (.upload p content) cut.length =
          .content (content.take (cut.length - (pathEnd (.upload p content) + 9))) := by
        simp [stage, command, path, size, Message.content]
      have body := take_body content (j := cut.length - pathEnd (.upload p content)) (by omega)
      have short : (content.take (cut.length - (pathEnd (.upload p content) + 9))).length <
          content.length := by
        have whole : (encodeFile content).length = 9 + content.length := by
          simp [encodeFile, lengthPrefixed]
          omega
        rw [total, Message.body, whole] at few
        rw [List.length_take]
        omega
      rw [here] at straight ⊢
      rw [Nat.sub_sub] at body
      rw [Message.body, body] at parts
      generalize content.take (cut.length - (pathEnd (.upload p content) + 9)) = got at *
      rw [parts]
      exact ends_content_cut text small short (Nat.lt_trans short enough) straight

end halfway

section harm
variable {fs made : Fs} {q : Path} {got : List Byte} {d : Key}

/-- The store after Receive. -/
def stored (fs : Fs) (q : Path) (got : List Byte) : Fs :=
  match openDestination fs q with
  | none => fs
  | some (false, opened) => opened
  | some (true, opened) => opened.put (key q) (.file got)

theorem unharmed_iff : (stored fs q got).Same fs ↔ Unharmed fs q got := by
  unfold stored Unharmed
  cases opens : openDestination fs q with
  | none => exact ⟨fun _ => trivial, fun _ _ => rfl⟩
  | some reply =>
    obtain ⟨ok, opened⟩ := reply
    cases ok with
    | false =>
      have entries := openDestination_closed opens
      constructor
      · intro same found k below named
        rw [← same k, entries, afterClearing, if_pos ⟨found, below, named⟩]
      · intro nothing k
        rw [entries, afterClearing]
        split
        · rename_i gone
          exact (nothing gone.1 k gone.2.1 gone.2.2).symm
        · rfl
    | true =>
      have entries := openDestination_put got opens
      constructor
      · intro same
        rw [← same (key q), entries, if_pos rfl]
      · intro held k
        rw [entries]
        split
        · rename_i here
          rw [here, held]
        · exact if_neg fun gone => absurd gone.1 (by simp [held])

theorem madeInVain_iff (named : d.names ≠ []) (absent : fs.entry d = none)
    (makes : made = fs.put d .dir) : (stored made q got).Same fs ↔ MadeInVain fs made d q := by
  have new : made.entry d = some .dir := by rw [makes, entry_put_self named]
  have old : ∀ k, k ≠ d → made.entry k = fs.entry k := fun k other => by
    rw [makes, entry_put_other other]
  have kept : ∀ entry : Key → Option Entry, entry d = made.entry d → ¬ ∀ k, entry k = fs.entry k := by
    intro entry there same
    rw [same, absent, new] at there
    exact absurd there (by simp)
  unfold stored MadeInVain
  cases opens : openDestination made q with
  | none => exact iff_of_false (kept _ rfl) id
  | some reply =>
    obtain ⟨ok, opened⟩ := reply
    cases ok with
    | false =>
      have entries := openDestination_closed opens
      constructor
      · intro same
        have gone : made.entry (key q) = some .dir ∧ (key q).within d ∧ d.names ≠ [] := by
          by_contra stays
          exact kept _ (by rw [entries, afterClearing, if_neg stays]) same
        refine ⟨gone.1, gone.2.1, fun k below filled => ?_⟩
        rw [← same k, entries, afterClearing, if_pos ⟨gone.1, below, filled⟩]
      · rintro ⟨found, below, empty⟩ k
        rw [entries, afterClearing]
        split
        · rename_i gone
          exact (empty k gone.2.1 gone.2.2).symm
        · rename_i stays
          refine old k ?_
          rintro rfl
          exact stays ⟨found, below, named⟩
    | true =>
      have entries := openDestination_put got opens
      refine iff_of_false (fun same => ?_) id
      have here : fs.entry (key q) = some (.file got) := by rw [← same, entries, if_pos rfl]
      have other : d ≠ key q := by
        rintro rfl
        rw [absent] at here
        exact absurd here (by simp)
      have file : made.entry (key q) ≠ some .dir := by
        rw [old _ other.symm, here]
        simp
      refine kept _ ?_ same
      rw [entries, if_neg other]
      exact if_neg fun gone => file gone.1

theorem store_fs (loop : Loop) (s : Point) (q : Path) (got : List Byte) :
    (loop.store s q got).1.fs =
      ((loop.enter s.fs q).map fun fs => stored fs q got).getD s.fs := by
  cases entered : loop.enter s.fs q with
  | none => simp [Loop.store, entered]
  | some fs =>
    cases opens : openDestination fs q with
    | none => simp [Loop.store, stored, entered, opens]
    | some reply =>
      obtain ⟨ok, opened⟩ := reply
      cases ok <;> simp [Loop.store, stored, entered, opens]

theorem spares_iff (loop : Loop) (s : Point) (q : Path) (got : List Byte) :
    (loop.store s q got).1.fs.Same s.fs ↔ Spares loop s.fs q got := by
  rw [store_fs]
  cases loop with
  | primary => exact unharmed_iff
  | client => exact unharmed_iff
  | backup =>
    cases creates : createDirectory s.fs (DropboxBackup.firstPart q) with
    | none =>
      simp only [Loop.enter, creates, Option.map_none, Option.getD_none, Spares, iff_true]
      exact fun _ => rfl
    | some reply =>
      obtain ⟨created, made⟩ := reply
      simp only [Loop.enter, creates, Option.map_some, Option.getD_some]
      rcases createDirectory_eq_some creates with ⟨rfl, rfl⟩ | ⟨rfl, makes, absent, named⟩
      · simpa only [Spares, creates] using unharmed_iff
      · simpa only [Spares, creates] using madeInVain_iff named absent makes

theorem pathExists_entry (present : pathExists fs q = some true) : fs.entry (key q) ≠ none := by
  intro absent
  unfold pathExists at present
  split at present
  · exact absurd present (by simp)
  · simp [Fs.stat, absent] at present

/-- The store after what backup and client do to a path that is to be deleted. -/
theorem discard_entry (fs : Fs) (q : Path) (k : Key) :
    ((Loop.client.discard fs q).getD fs).entry k =
      if Removes fs q ∧ k = key q then none else fs.entry k := by
  cases asked : pathExists fs q with
  | none => simp [Loop.discard, Removes, asked]
  | some present =>
    cases present with
    | false => simp [Loop.discard, Removes, asked]
    | true =>
      cases removing : remove fs q with
      | none => simp [Loop.discard, Removes, asked, removing]
      | some reply =>
        obtain ⟨removed, after⟩ := reply
        have entries := remove_entry removing k
        simpa [Loop.discard, Removes, asked, removing] using entries

theorem discard_iff : ((Loop.client.discard fs q).getD fs).Same fs ↔ ¬ Removes fs q := by
  constructor
  · intro same removes
    have gone := same (key q)
    rw [discard_entry, if_pos ⟨removes, rfl⟩] at gone
    exact pathExists_entry removes.1 gone.symm
  · intro stays k
    rw [discard_entry, if_neg fun both => stays both.1]

theorem discard_made_iff (absent : fs.entry d = none) (named : d.names ≠ [])
    (makes : made = fs.put d .dir) :
    ((Loop.client.discard made q).getD made).Same fs ↔ Removes made q ∧ key q = d := by
  have new : made.entry d = some .dir := by rw [makes, entry_put_self named]
  constructor
  · intro same
    by_contra other
    have there := same d
    rw [discard_entry, if_neg fun both => other ⟨both.1, both.2.symm⟩, new, absent] at there
    exact absurd there (by simp)
  · rintro ⟨removes, rfl⟩ k
    rw [discard_entry]
    split
    · rename_i both
      rw [both.2, absent]
    · rename_i other
      rw [makes, entry_put_other fun here => other ⟨removes, here⟩]

theorem erase_fs (loop : Loop) (s : Point) (q : Path) :
    (loop.erase s q).1.fs =
      ((loop.enter s.fs q).map fun fs => (loop.discard fs q).getD fs).getD s.fs := by
  cases entered : loop.enter s.fs q with
  | none => simp [Loop.erase, entered]
  | some fs =>
    cases discards : loop.discard fs q <;> simp [Loop.erase, entered, discards]

theorem log_kept {loop : Loop} (other : loop ≠ .primary) (s : Point) (q : Path) (got : List Byte) :
    (loop.store s q got).1.log = s.log ∧ (loop.erase s q).1.log = s.log := by
  have silent : ∀ e log, loop.announce e log = log := by
    intro e log
    cases loop <;> first | exact absurd rfl other | rfl
  constructor
  · unfold Loop.store
    split
    · rfl
    · split <;> first | rfl | exact silent _ _
  · unfold Loop.erase
    split
    · rfl
    · split <;> first | rfl | exact silent _ _

theorem broadcasts_longer {e : Event} (kind : isBroadcast e) (log : List Event) :
    broadcasts (log ++ [e]) ≠ broadcasts log := by
  simp [broadcasts, kind]

/-- A message without its content goes unnoticed exactly when the state hides it. -/
theorem uploadHidden_iff (loop : Loop) (s : Point) (q : Path) :
    ((loop.store s q []).1.fs.Same s.fs ∧
      broadcasts (loop.store s q []).1.log = broadcasts s.log) ↔ UploadHidden loop s.fs q := by
  cases loop with
  | primary =>
    cases opens : openDestination s.fs q with
    | none =>
      simp only [Loop.store, Loop.enter, opens, UploadHidden, and_true, iff_true]
      exact fun _ => rfl
    | some reply =>
      obtain ⟨ok, opened⟩ := reply
      have longer := broadcasts_longer (e := .broadcastUpload q) rfl s.log
      cases ok <;> simp [Loop.store, Loop.enter, Loop.announce, opens, UploadHidden, longer]
  | backup =>
    rw [(log_kept (by simp) s q []).1, spares_iff]
    exact and_iff_left rfl
  | client =>
    rw [(log_kept (by simp) s q []).1, spares_iff]
    exact and_iff_left rfl

theorem deleteHidden_iff (loop : Loop) (s : Point) (q : Path) :
    ((loop.erase s q).1.fs.Same s.fs ∧
      broadcasts (loop.erase s q).1.log = broadcasts s.log) ↔ DeleteHidden loop s.fs q := by
  cases loop with
  | primary =>
    cases removing : remove s.fs q with
    | none =>
      simp only [Loop.erase, Loop.enter, Loop.discard, removing, DeleteHidden, Option.map_none,
        and_true, iff_true]
      exact fun _ => rfl
    | some reply =>
      have longer := broadcasts_longer (e := .broadcastDelete q) rfl s.log
      simp [Loop.erase, Loop.enter, Loop.discard, Loop.announce, removing, DeleteHidden, longer]
  | backup =>
    rw [(log_kept (by simp) s q []).2, erase_fs]
    refine (and_iff_left rfl).trans ?_
    cases creates : createDirectory s.fs (DropboxBackup.firstPart q) with
    | none =>
      simp only [Loop.enter, creates, Option.map_none, Option.getD_none, DeleteHidden, iff_true]
      exact fun _ => rfl
    | some reply =>
      obtain ⟨created, made⟩ := reply
      simp only [Loop.enter, creates, Option.map_some, Option.getD_some]
      rcases createDirectory_eq_some creates with ⟨rfl, rfl⟩ | ⟨rfl, makes, absent, named⟩
      · simp only [DeleteHidden, creates]
        exact discard_iff
      · simp only [DeleteHidden, creates]
        exact discard_made_iff absent named makes
  | client =>
    rw [(log_kept (by simp) s q []).2, erase_fs]
    exact (and_iff_left rfl).trans discard_iff

/-- What the loop has made of a message that breaks off is nothing, exactly when the state hides
    it. -/
theorem hidden_iff (loop : Loop) (s : Point) (m : Message) (at_ : Stage) :
    ((halfway loop s m at_).fs.Same s.fs ∧
      broadcasts (halfway loop s m at_).log = broadcasts s.log) ↔ Hidden loop s m at_ := by
  cases at_ with
  | command => exact iff_of_true ⟨fun _ => rfl, rfl⟩ trivial
  | path =>
    cases m with
    | upload p content => exact uploadHidden_iff loop s s.path
    | delete p => exact deleteHidden_iff loop s s.path
  | size => exact uploadHidden_iff loop s m.path
  | content got => exact (and_iff_left rfl).trans (spares_iff loop s m.path got)

end harm

section runs
variable {fuel turns : Nat}

/-- The world the function around the loop leaves. -/
def final (loop : Loop) (fuel : Nat) (servers : List Byte) (turns : Nat) (mem : Nat → Byte) (p : Path)
    (m : Machine) : World :=
  (exec (loop.run fuel servers turns) (.fresh mem p) m).2.2.world

/-- A stream of whole messages and a part of one more. -/
structure CutStream (fuel turns : Nat) (msgs : List Message) (last : Message) (cut : List Byte) :
    Prop where
  sized : ∀ m ∈ msgs, m.Sized fuel
  lastSized : last.Sized fuel
  within : cut <+: encodeMessage last
  proper : cut ≠ encodeMessage last
  reached : msgs.length < turns

/-- Every file that is to be received can be opened when its turn comes. -/
structure Opens (loop : Loop) (s : Point) (msgs : List Message) (last : Message)
    (cut : List Byte) : Prop where
  whole : (loop.course s msgs).2 ≠ .strays
  part : (loop.course s msgs).2 = .goes →
    Straight loop (loop.course s msgs).1 last (stage last cut.length)

variable {loop : Loop} {p : Path} {m : Machine} {msgs : List Message} {last : Message}
variable {cut : List Byte}

/-- The store and the broadcasts after whole messages are those of their course. -/
theorem final_whole (servers : List Byte) (mem : Nat → Byte) (sound : m.Sound) (nothing : m.world.rcvd = [])
    (silent : m.world.sent = []) (arrives : m.coming = msgs.flatMap encodeMessage)
    (sized : ∀ m ∈ msgs, m.Sized fuel)
    (straight : (loop.course ⟨m.world.fs, p, m.world.log⟩ msgs).2 ≠ .strays) :
    Shows (loop.course ⟨m.world.fs, p, m.world.log⟩ msgs).1
      (final loop fuel servers (turns + msgs.length) mem p m) := by
  apply exec_run loop fuel _ servers mem p sound nothing silent
  have ends : Ends m.coming FileExchange.buf (Stands ⟨m.world.fs, p, m.world.log⟩)
      (loop.turns fuel (turns + msgs.length)) (msgs.flatMap encodeMessage ++ [])
      (Shows (loop.course ⟨m.world.fs, p, m.world.log⟩ msgs).1) :=
    ends_course msgs _ sized straight (fun _ => ends_over _ (.inl rfl) loop fuel turns)
      fun _ _ shown => shown
  rwa [List.append_nil, ← arrives] at ends

/-- After the part of a message, they are those of the point halfway, if the loop comes to it. -/
theorem final_cut (servers : List Byte) (mem : Nat → Byte) (sound : m.Sound) (nothing : m.world.rcvd = [])
    (silent : m.world.sent = []) (arrives : m.coming = msgs.flatMap encodeMessage ++ cut)
    (stream : CutStream fuel (turns + 1 + msgs.length) msgs last cut)
    (opens : Opens loop ⟨m.world.fs, p, m.world.log⟩ msgs last cut) :
    Shows (match loop.course ⟨m.world.fs, p, m.world.log⟩ msgs with
      | (t, .goes) => halfway loop t last (stage last cut.length)
      | (t, _) => t) (final loop fuel servers (turns + 1 + msgs.length) mem p m) := by
  apply exec_run loop fuel _ servers mem p sound nothing silent
  have straight := opens.part
  rw [show Ends m.coming FileExchange.buf _ _ m.coming _ = Ends m.coming FileExchange.buf _ _
    (msgs.flatMap encodeMessage ++ cut) _ by rw [← arrives]]
  rcases result : loop.course ⟨m.world.fs, p, m.world.log⟩ msgs with ⟨t, fate⟩
  rw [result] at straight
  cases fate with
  | goes =>
    apply ends_course msgs _ stream.sized opens.whole
    · intro _
      rw [result]
      exact ends_cut stream.lastSized stream.within stream.proper (straight rfl)
    · intro stops
      rw [result] at stops
      exact absurd stops (by simp)
  | stops =>
    apply ends_course msgs _ stream.sized opens.whole
    · intro goes
      rw [result] at goes
      exact absurd goes (by simp)
    · intro _ w shown
      rwa [result] at shown
  | strays => exact absurd (by rw [result]) opens.whole

/-- The stream that breaks off leaves the store and the broadcasts of its whole messages alone if and
    only if the loop does not come to the part, or the state before it hides it. -/
theorem cut_unnoticed_iff_hidden (loop : Loop) (fuel turns : Nat) (servers : List Byte)
    (mem mem' : Nat → Byte) (p : Path) (m m' : Machine) (msgs : List Message) (last : Message)
    (cut : List Byte) (sound : m.Sound) (sound' : m'.Sound) (same : m'.world = m.world)
    (nothing : m.world.rcvd = []) (silent : m.world.sent = [])
    (arrives : m.coming = msgs.flatMap encodeMessage ++ cut)
    (arrives' : m'.coming = msgs.flatMap encodeMessage)
    (stream : CutStream fuel turns msgs last cut)
    (opens : Opens loop ⟨m.world.fs, p, m.world.log⟩ msgs last cut) :
    ((final loop fuel servers turns mem p m).fs.Same (final loop fuel servers turns mem' p m').fs ∧
      broadcasts (final loop fuel servers turns mem p m).log =
        broadcasts (final loop fuel servers turns mem' p m').log) ↔
    ((loop.course ⟨m.world.fs, p, m.world.log⟩ msgs).2 = .goes →
      Hidden loop (loop.course ⟨m.world.fs, p, m.world.log⟩ msgs).1 last (stage last cut.length)) := by
  obtain ⟨more, rfl⟩ : ∃ more, turns = more + 1 + msgs.length :=
    ⟨turns - 1 - msgs.length, by have := stream.reached; omega⟩
  have whole : Shows (loop.course ⟨m'.world.fs, p, m'.world.log⟩ msgs).1
      (final loop fuel servers (more + 1 + msgs.length) mem' p m') :=
    final_whole servers mem' sound' (by rw [same, nothing]) (by rw [same, silent]) arrives' stream.sized
      (by rw [same]; exact opens.whole)
  have part := final_cut servers mem sound nothing silent arrives stream opens
  rw [same] at whole
  have straight := opens.whole
  rcases result : loop.course ⟨m.world.fs, p, m.world.log⟩ msgs with ⟨t, fate⟩
  rw [result] at whole part straight
  cases fate with
  | goes =>
    rw [part.1, part.2, whole.1, whole.2, hidden_iff]
    exact ⟨fun hidden _ => hidden, fun hidden => hidden rfl⟩
  | stops =>
    rw [part.1, part.2, whole.1, whole.2]
    exact iff_of_true ⟨fun _ => rfl, rfl⟩ (by simp)
  | strays => exact absurd rfl straight

/-- A client that has received the file "a" whole; a delete of "b" breaks off after its command. -/
def deleteCut : Machine := ⟨⟨.empty, [], [], []⟩,
  [some ⟨encodeMessage (.upload [97] [7]) ++ [1, 4], by decide⟩], []⟩

def uploadWhole : Machine := ⟨⟨.empty, [], [], []⟩,
  [some ⟨encodeMessage (.upload [97] [7]), by decide⟩], []⟩

theorem delete_cut_stream : CutStream 2 3 [.upload [97] [7]] (.delete [98]) [1, 4] := by
  refine ⟨?_, (by decide : List.length [98] < 2 ^ 63), by decide, by decide, by decide⟩
  intro m member
  obtain rfl := List.mem_singleton.mp member
  exact ⟨by decide, by decide, by decide⟩

theorem cut_unnoticed_iff_hidden_delete :
    ((final .client 2 [] 3 (fun _ => 0) [] deleteCut).fs.Same
        (final .client 2 [] 3 (fun _ => 0) [] uploadWhole).fs ∧
      broadcasts (final .client 2 [] 3 (fun _ => 0) [] deleteCut).log =
        broadcasts (final .client 2 [] 3 (fun _ => 0) [] uploadWhole).log) ↔
    ((Loop.client.course ⟨.empty, [], []⟩ [.upload [97] [7]]).2 = .goes →
      Hidden .client (Loop.client.course ⟨.empty, [], []⟩ [.upload [97] [7]]).1 (.delete [98])
        (stage (.delete [98]) 2)) :=
  cut_unnoticed_iff_hidden .client 2 3 [] (fun _ => 0) (fun _ => 0) [] deleteCut uploadWhole
    [.upload [97] [7]] (.delete [98]) [1, 4] (by simp [deleteCut, Machine.Sound])
    (by simp [uploadWhole, Machine.Sound]) rfl rfl rfl (by decide) (by decide) delete_cut_stream
    ⟨by decide +kernel, fun _ => trivial⟩

theorem stale_path_is_deleted :
    ((final .client 2 [] 3 (fun _ => 0) [] deleteCut).fs.entry (key [97]),
      (final .client 2 [] 3 (fun _ => 0) [] uploadWhole).fs.entry (key [97])) =
        (none, some (.file [7])) := by decide +kernel

theorem cut_message_has_effect :
    ¬ ∀ (loop : Loop) (fuel turns : Nat) (servers : List Byte) (mem mem' : Nat → Byte) (p : Path)
      (m m' : Machine) (msgs : List Message) (last : Message) (cut : List Byte),
      m.Sound → m'.Sound → m'.world = m.world → m.world.rcvd = [] → m.world.sent = [] →
      m.coming = msgs.flatMap encodeMessage ++ cut → m'.coming = msgs.flatMap encodeMessage →
      CutStream fuel turns msgs last cut →
      (final loop fuel servers turns mem p m).fs.Same (final loop fuel servers turns mem' p m').fs ∧
        broadcasts (final loop fuel servers turns mem p m).log =
          broadcasts (final loop fuel servers turns mem' p m').log := by
  intro claim
  have same := (claim .client 2 3 [] (fun _ => 0) (fun _ => 0) [] deleteCut uploadWhole
    [.upload [97] [7]] (.delete [98]) [1, 4] (by simp [deleteCut, Machine.Sound])
    (by simp [uploadWhole, Machine.Sound]) rfl rfl rfl (by decide) (by decide)
    delete_cut_stream).1 (key [97])
  obtain ⟨gone, kept⟩ := Prod.mk.inj stale_path_is_deleted
  rw [gone, kept] at same
  exact absurd same (by simp)

end runs

end DropboxTruncation
