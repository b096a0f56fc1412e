import Dropbox.Client
import Dropbox.ClientHandler
import Dropbox.LocalFiles
import Dropbox.StreamCalls

/-!
What Client::Download and ClientHandler::Download do to the files on either side. The
client's files are local files, with its working directory; the network answers
anything, so the server's directory is whatever it is.
-/
namespace DropboxDownloadTarget
open Calls Programs DropboxFileStore DropboxHost DropboxProtocol DropboxStreamCalls
open DropboxLocalFiles

/-- Download up to the server's answer; true where it goes on to Receive. -/
def request (username : List Byte) (fileName : Path) : Io FileExchange Bool := do
  sendCommand .kDownload
  setPath (joinPath (syncDirWithPrefix username) fileName)
  if ← sendPath then
    flushExchange
    match ← receiveCommand with
    | .error _ => pure false
    | .ok received => pure (received ≠ some .kError)
  else pure false

theorem download_request (fuel : Nat) (username : List Byte) (fileName : Path) :
    DropboxClient.download fuel username fileName = (do
      if ← request username fileName then
        setPath fileName
        receive fuel
      else pure false) := by
  unfold DropboxClient.download request
  rw [Comp.bind_assoc]
  refine bind_congr fun _ => ?_
  rw [Comp.bind_assoc]
  refine bind_congr fun _ => ?_
  rw [Comp.bind_assoc]
  refine bind_congr fun sent => ?_
  cases sent with
  | false => rfl
  | true =>
    simp only [if_true]
    rw [Comp.bind_assoc]
    refine bind_congr fun _ => ?_
    rw [Comp.bind_assoc]
    refine bind_congr fun answer => ?_
    cases answer with
    | error e => rfl
    | ok received =>
      dsimp only
      rw [Comp.pure_bind]
      by_cases refused : received = some .kError <;> simp [refused]

/-- At most the one regular file that the path names is made or overwritten. -/
def Harmless (l after : Local) (p : Path) : Prop :=
  ∀ k, after.entry k = l.entry k ∨ l.resolve p = some k ∧
    (l.entry k = none ∨ ∃ c, l.entry k = some (.file c)) ∧ ∃ c, after.entry k = some (.file c)

/-- The path leads to something that is no regular file, and remove_all finds something to remove:
    "." and ".." stay themselves. -/
def Wipes (l : Local) (p : Path) : Prop :=
  l.refused .status p = false ∧ l.refused .remove p = false ∧ ∃ k, l.resolve p = some k ∧
    (l.entry k = some .other ∧ wantsDirectory p = false ∨
      l.entry k = some .dir ∧ (isNamed p = true ∨ ∃ q, Below k q ∧ l.entry q ≠ none))

/-- The same, or what the path leads to is cleared away with all below it; a file may take its
    place. -/
def Confined (granted : Prop) (l after : Local) (p : Path) : Prop :=
  ∀ k, after.entry k = l.entry k ∨ l.resolve p = some k ∧
      (l.entry k = none ∨ ∃ c, l.entry k = some (.file c)) ∧ (∃ c, after.entry k = some (.file c)) ∨
    granted ∧ Wipes l p ∧ ∃ t, l.resolve p = some t ∧ (k = t ∨ Below t k) ∧
      (after.entry k = none ∨ k = t ∧ ∃ c, after.entry k = some (.file c))

section Host
variable {M : Type} (net : M → (s : Sys) → s.Reply × M)

/-- The client's host: its files are local, all else is answered by `net`. -/
def localHost (h : M × Local) : (s : Sys) → s.Reply × (M × Local)
  | .file (.isRegularFile p) => (h.2.isRegularFile p, h)
  | .file (.removeAll p) => ((h.2.removeAll p).1, h.1, (h.2.removeAll p).2)
  | .file (.openOut p) => ((h.2.openOut p).1, h.1, (h.2.openOut p).2)
  | .file (.writeOut p bytes) => ((), h.1, h.2.writeOut p bytes)
  | s => ((net h.1 s).1, (net h.1 s).2, h.2)

end Host

section Storing
variable {l after : Local} {p : Path}

/-- What opening the path and writing to it can make of the files. -/
structure Stored (l after : Local) (p : Path) : Prop where
  home : after.cwd = l.cwd
  harmless : Harmless l after p

theorem stored_refl (l : Local) (p : Path) : Stored l l p := ⟨rfl, fun _ => .inl rfl⟩

theorem harmless_dirs (harmless : Harmless l after p) (k : Location) :
    after.entry k = some .dir ↔ l.entry k = some .dir := by
  rcases harmless k with same | ⟨_, before | ⟨c, before⟩, d, now⟩
  · rw [same]
  · rw [before, now]
    simp
  · rw [before, now]
    simp

theorem stored_resolve (stored : Stored l after p) : after.resolve p = l.resolve p :=
  resolve_congr stored.home (harmless_dirs stored.harmless) p

/-- A file is put where there is one or where there is nothing. -/
theorem stored_put {k : Location} {content : List Byte} (stored : Stored l after p)
    (there : after.resolve p = some k)
    (free : after.entry k = none ∨ ∃ c, after.entry k = some (.file c)) :
    Stored l (after.put k (some (.file content))) p := by
  refine ⟨stored.home, fun q => ?_⟩
  by_cases same : q = k
  · subst same
    refine .inr ⟨(stored_resolve stored).symm.trans there, ?_, content, by simp [Local.put]⟩
    rcases stored.harmless q with same | ⟨_, before, _⟩
    · rwa [same] at free
    · exact before
  · have kept : (after.put k (some (.file content))).entry q = after.entry q := by
      simp [Local.put, same]
    rw [kept]
    exact stored.harmless q

theorem openOut_stored (stored : Stored l after p) : Stored l (after.openOut p).2 p := by
  unfold Local.openOut
  split
  · exact stored
  · rename_i k there
    split
    · exact stored
    · split
      · rename_i nothing
        split
        · exact stored_put stored there (.inl nothing)
        · exact stored
      · rename_i c found
        exact stored_put stored there (.inr ⟨c, found⟩)
      · exact stored
      · exact stored

theorem writeOut_stored (bytes : List Byte) (stored : Stored l after p) :
    Stored l (after.writeOut p bytes) p := by
  unfold Local.writeOut
  split
  · exact stored
  · rename_i k there
    split
    · rename_i c found
      exact stored_put stored there (.inr ⟨c, found⟩)
    · exact stored

end Storing

section Cleared
variable {l after : Local} {p : Path}

/-- How Receive can leave the files it finds. -/
inductive Received (l : Local) (p : Path) : Local → Prop where
  | unseen (refused : l.isRegularFile p = none) : Received l p l
  | stored (regular : l.isRegularFile p = some true) {after : Local} (stored : Stored l after p) :
      Received l p after
  | stuck (irregular : l.isRegularFile p = some false) (failed : (l.removeAll p).1 = none) :
      Received l p (l.removeAll p).2
  | cleared (irregular : l.isRegularFile p = some false) (removed : (l.removeAll p).1 = some ())
      {after : Local} (stored : Stored (l.removeAll p).2 after p) : Received l p after

theorem regular_file {b : Bool} (regular : l.isRegularFile p = some b) :
    l.refused .status p = false ∧ (b = true → ∃ k c, l.resolve p = some k ∧ l.entry k = some (.file c)) := by
  unfold Local.isRegularFile at regular
  split at regular
  · cases regular
  · rename_i seen
    refine ⟨by simpa using seen, fun yes => ?_⟩
    subst yes
    split at regular
    · cases regular
    · rename_i k there
      split at regular
      · rename_i c found
        exact ⟨k, c, there, found⟩
      · cases regular

/-- Where remove_all has nothing to remove it changes nothing. -/
theorem removeAll_idle (irregular : l.isRegularFile p = some false) (idle : ¬ Wipes l p) :
    (l.removeAll p).2 = l := by
  have seen := (regular_file irregular).1
  cases may : l.refused .remove p with
  | true => simp [Local.removeAll, may]
  | false =>
    cases there : l.resolve p with
    | none =>
      simp only [Local.removeAll, may, there, Bool.false_eq_true, if_false]
      split <;> rfl
    | some k =>
      have spared : ∀ e, l.entry k = some e → ¬ (e = .other ∧ wantsDirectory p = false ∨
          e = .dir ∧ (isNamed p = true ∨ ∃ q, Below k q ∧ l.entry q ≠ none)) := by
        rintro e found (⟨rfl, kind⟩ | ⟨rfl, more⟩)
        · exact idle ⟨seen, may, k, there, .inl ⟨found, kind⟩⟩
        · exact idle ⟨seen, may, k, there, .inr ⟨found, more⟩⟩
      cases found : l.entry k with
      | none => simp [Local.removeAll, may, there, found]
      | some e =>
        have clear := spared e found
        cases e with
        | dir =>
          simp only [reduceCtorEq, false_and, true_and, false_or, not_or, not_exists, not_and,
            not_not, Bool.not_eq_true] at clear
          simp [Local.removeAll, may, there, found, clearBelow_eq clear.2, clear.1]
        | other =>
          have slashed : wantsDirectory p = true := by simpa using clear
          simp [Local.removeAll, may, there, found, slashed]
        | file content =>
          have slashed : wantsDirectory p = true := by
            simpa [Local.isRegularFile, seen, there, found] using irregular
          simp [Local.removeAll, may, there, found, slashed]

/-- Otherwise it removes what the path leads to, or something that Receive does not come back to:
    it throws, or the path leads nowhere any more. -/
theorem removeAll_wipes (wipes : Wipes l p) :
    (∃ k, (l.entry k = some .other ∨ l.entry k = some .dir) ∧ (l.removeAll p).2.entry k = none) ∨
      ∃ q, l.entry q ≠ none ∧ (l.removeAll p).2.entry q = none ∧
        ((l.removeAll p).1 = none ∨ (l.removeAll p).2.resolve p = none) := by
  obtain ⟨_, may, k, there, ⟨found, kind⟩ | ⟨found, more⟩⟩ := wipes
  · refine .inl ⟨k, .inl found, ?_⟩
    simp [Local.removeAll, may, there, found, kind, Local.put]
  · have gone : ∀ q, Below k q → (l.clearBelow k).entry q = none := by
      intro q inside
      simp [Local.clearBelow, inside]
    cases still : (l.clearBelow k).resolve p with
    | none =>
      have result : l.removeAll p = (some (), l.clearBelow k) := by
        simp [Local.removeAll, may, there, found, still]
      have some_below : ∃ q, Below k q ∧ l.entry q ≠ none := by
        by_contra empty
        simp only [not_exists, not_and, not_not] at empty
        rw [clearBelow_eq empty, there] at still
        cases still
      obtain ⟨q, inside, present⟩ := some_below
      rw [result]
      exact .inr ⟨q, present, gone q inside, .inr still⟩
    | some k' =>
      have home : (l.clearBelow k).cwd = l.cwd := rfl
      obtain rfl := resolve_place home there still
      cases named : isNamed p with
      | true =>
        refine .inl ⟨k', .inr found, ?_⟩
        simp [Local.removeAll, may, there, found, still, named, Local.put]
      | false =>
        have result : l.removeAll p = (none, l.clearBelow k') := by
          simp [Local.removeAll, may, there, found, still, named]
        obtain ⟨q, inside, present⟩ := more.resolve_left (by simp [named])
        rw [result]
        exact .inr ⟨q, present, gone q inside, .inl rfl⟩

/-- Receive keeps to its target exactly where remove_all has nothing to remove. -/
theorem received_harmless_iff (received : Received l p after) :
    Harmless l after p ↔ ¬ Wipes l p := by
  constructor
  · intro harmless wipes
    have seen := wipes.1
    have lost : ∀ q, after.entry q = none → l.entry q = none := by
      intro q gone
      rcases harmless q with same | ⟨_, _, c, now⟩
      · rw [← same, gone]
      · rw [gone] at now
        cases now
    have kept : ∀ q, l.entry q = some .other ∨ l.entry q = some .dir →
        after.entry q = none ∨ (∃ c, after.entry q = some (.file c)) → False := by
      intro q kind now
      rcases harmless q with same | ⟨_, before | ⟨c, before⟩, _⟩
      · rw [← same] at kind
        rcases now with now | ⟨c, now⟩ <;> simp [now] at kind
      · simp [before] at kind
      · simp [before] at kind
    cases received with
    | unseen refused =>
      have visible : l.isRegularFile p ≠ none := by
        unfold Local.isRegularFile
        rw [seen, if_neg (by simp)]
        split
        · simp
        · split <;> simp
      exact visible refused
    | stored regular stored =>
      obtain ⟨k, c, there, found⟩ := (regular_file regular).2 rfl
      obtain ⟨_, _, q, leads, kind⟩ := wipes
      obtain rfl : k = q := Option.some.inj (there.symm.trans leads)
      simp [found] at kind
    | stuck irregular failed =>
      rcases removeAll_wipes wipes with ⟨k, kind, gone⟩ | ⟨q, present, gone, _⟩
      · exact kept k kind (.inl gone)
      · exact present (lost q gone)
    | cleared irregular removed stored =>
      rcases removeAll_wipes wipes with ⟨k, kind, gone⟩ | ⟨q, present, gone, threw | away⟩
      · refine kept k kind ?_
        rcases stored.harmless k with same | ⟨_, _, now⟩
        · exact .inl (same.trans gone)
        · exact .inr now
      · rw [removed] at threw
        cases threw
      · rcases stored.harmless q with same | ⟨leads, _⟩
        · exact present (lost q (same.trans gone))
        · rw [away] at leads
          cases leads
  · intro idle
    cases received with
    | unseen refused => exact fun _ => .inl rfl
    | stored regular stored => exact stored.harmless
    | stuck irregular failed =>
      rw [removeAll_idle irregular idle]
      exact fun _ => .inl rfl
    | cleared irregular removed stored =>
      rw [removeAll_idle irregular idle] at stored
      exact stored.harmless

/-- Nothing is changed but at the target and, where that is cleared away, below it. -/
theorem received_confined (received : Received l p after) : Confined True l after p := by
  by_cases wipes : Wipes l p
  · intro k
    cases received with
    | unseen refused => exact .inl rfl
    | stored regular stored =>
      rcases stored.harmless k with same | target
      · exact .inl same
      · exact .inr (.inl target)
    | stuck irregular failed =>
      rcases removeAll_frame l p k with same | ⟨t, leads, inside, gone⟩
      · exact .inl same
      · exact .inr (.inr ⟨trivial, wipes, t, leads, inside, .inl gone⟩)
    | cleared irregular removed stored =>
      have clears := wipes
      obtain ⟨_, _, t, leads, _⟩ := clears
      rcases stored.harmless k with same | ⟨again, _, now⟩
      · rcases removeAll_frame l p k with kept | ⟨t, leads, inside, gone⟩
        · exact .inl (same.trans kept)
        · exact .inr (.inr ⟨trivial, wipes, t, leads, inside, .inl (same.trans gone)⟩)
      · have top : k = t := resolve_place (removeAll_home l p) leads again
        exact .inr (.inr ⟨trivial, wipes, t, leads, .inl top, .inr ⟨top, now⟩⟩)
  · intro k
    rcases (received_harmless_iff received).mpr wipes k with same | target
    · exact .inl same
    · exact .inr (.inl target)

end Cleared

-- the rules for them are enough from here on
attribute [local irreducible] Makes Comp.ensures

section Runs
variable {M : Type} {net : M → (s : Sys) → s.Reply × M} {fe : FileExchange} {m : M} {l : Local}

variable (net) in
/-- A call that leaves an assertion about the local files true. -/
def Keeps (I : Local → Prop) (s : Sys) : Prop :=
  ∀ h : M × Local, I h.2 → I (localHost net h s).2.2

theorem keeps_network (I : Local → Prop) : Network (Keeps net I) :=
  ⟨⟨fun _ _ => id, fun _ _ => id⟩, fun _ _ => id⟩

/-- What makes only such calls keeps it. -/
theorem ensures_keeps {A L : Type} {I : Local → Prop} {x : Io L A} {k : L}
    (made : Makes (Keeps net I) x) (start : I l) :
    Comp.ensures (answers (localHost net)) x (fun _ _ h => I h.2) k (m, l) := by
  refine ensures_makes (I := fun h : M × Local => I h.2) (fun _ _ _ _ => trivial) ?_ start made k
  intro h s r after before keeps reply
  obtain rfl : (localHost net h s).2 = after := congrArg Prod.snd reply
  exact keeps h before

variable (net) in
theorem request_keeps (username : List Byte) (fileName : Path) (I : Local → Prop) :
    Makes (Keeps net I) (request username fileName) := by
  refine makes_bind (makes_sendCommand (keeps_network I) _) fun _ => ?_
  refine makes_bind (makes_modify _) fun _ => ?_
  refine makes_bind (makes_sendPath (keeps_network I)) fun sent => ?_
  cases sent with
  | false => exact makes_pure _
  | true =>
    refine makes_bind (makes_flushExchange (keeps_network I).toWire) fun _ => ?_
    refine makes_bind (makes_receiveCommand (keeps_network I).toWire) fun answer => ?_
    cases answer with
    | error e => exact makes_pure _
    | ok received => exact makes_pure _

/-- What is left when the file has been opened, or not. -/
theorem opened_stored (fuel : Nat) {p : Path} {base : Local} (stored : Stored base l p) :
    Comp.ensures (answers (localHost net)) (do
      if ← onFiles (.openOut p) then
        DropboxHost.tryCatch (do
          let bits ← onRdbuf do
            let swap ← inputArchive
            loadWord swap
          receiveLoop p fuel (toInt64 bits)
          pure true) fun _ => pure false
      else pure false) (fun _ _ h => Stored base h.2 p) fe (m, l) := by
  refine ensures_keeps (I := fun l => Stored base l p) (makes_bind (makes_call ?_) fun opened => ?_)
    stored
  · exact fun h before => openOut_stored before
  · cases opened with
    | false => exact makes_pure _
    | true =>
      exact makes_content (keeps_network _).toWire
        (fun bytes h before => writeOut_stored bytes before) fuel

/-- How it ends does not matter for what noexcept makes of it. -/
theorem ensures_noexcept {A L G : Type} {e : Env Sys Sys.Reply G} {x : Io L A} {I : G → Prop}
    {k : L} {g : G} (inner : Comp.ensures e x (fun _ _ h => I h) k g) :
    Comp.ensures e (noexcept x) (fun _ _ h => I h) k g := by
  rw [noexcept, ensures_tryCatch]
  refine Comp.ensures_mono inner fun r _ _ holds => ?_
  cases r with
  | ok a => exact holds
  | error f =>
    rw [Comp.either_error]
    split
    · exact Comp.ensures_throw.mpr holds
    · exact holds

theorem receive_received (fuel : Nat) (fe : FileExchange) (m : M) (l : Local) :
    Comp.ensures (answers (localHost net)) (receive fuel)
      (fun _ _ h => Received l fe.path h.2) fe (m, l) := by
  refine ensures_noexcept ?_
  have asked : localHost net (m, l) (.file (.isRegularFile fe.path)) =
      (l.isRegularFile fe.path, m, l) := rfl
  have removing : localHost net (m, l) (.file (.removeAll fe.path)) =
      ((l.removeAll fe.path).1, m, (l.removeAll fe.path).2) := rfl
  rw [getPath, Comp.bind_assoc, Comp.ensures_bind, Comp.ensures_get, Comp.either_ok,
    Comp.pure_bind, prepare, Comp.bind_assoc, Comp.ensures_bind, orThrow, Comp.ensures_bind,
    onFiles, Comp.ensures_call_answers, Comp.either_ok, asked]
  cases regular : l.isRegularFile fe.path with
  | none => exact Comp.ensures_throw.mpr (.unseen regular)
  | some there =>
    rw [Comp.ensures_pure, Comp.either_ok]
    cases there with
    | true =>
      refine Comp.ensures_mono (opened_stored fuel (stored_refl l fe.path)) ?_
      exact fun _ _ _ stored => .stored regular stored
    | false =>
      simp only [Bool.false_eq_true, if_false]
      rw [Comp.bind_assoc, orThrow, Comp.bind_assoc, Comp.ensures_bind, onFiles,
        Comp.ensures_call_answers, Comp.either_ok, removing]
      cases removed : (l.removeAll fe.path).1 with
      | none => exact Comp.ensures_bind.mpr (Comp.ensures_throw.mpr (.stuck regular removed))
      | some u =>
        refine Comp.ensures_mono (opened_stored fuel (stored_refl _ fe.path)) ?_
        exact fun _ _ _ stored => .cleared regular removed stored

variable (net) in
/-- The server has answered, and not with kError: Download goes on to Receive. -/
def Granted (username : List Byte) (fileName : Path) (fe : FileExchange) (m : M) (l : Local) : Prop :=
  (Comp.exec (localHost net) (request username fileName) fe (m, l)).1 = .ok true

variable (net) in
/-- Download stops before it comes to Receive, or does what Receive does. -/
theorem download_received (fuel : Nat) (username : List Byte) (fileName : Path)
    (fe : FileExchange) (m : M) (l : Local) :
    Comp.ensures (answers (localHost net)) (DropboxClient.download fuel username fileName)
      (fun _ _ h => ¬ Granted net username fileName fe m l ∧ h.2 = l ∨
        Granted net username fileName fe m l ∧ Received l fileName h.2) fe (m, l) := by
  have asked := Comp.ensures_answers.mp (ensures_keeps (m := m) (k := fe)
    (request_keeps net username fileName (· = l)) rfl)
  rw [download_request, Comp.ensures_bind, Comp.ensures_answers]
  unfold Granted
  generalize Comp.exec (localHost net) (request username fileName) fe (m, l) = answer at asked ⊢
  obtain ⟨r, fe', m', l'⟩ := answer
  change l' = l at asked
  rw [asked]
  cases r with
  | error e => exact .inl ⟨by simp, rfl⟩
  | ok granted =>
    cases granted with
    | false => exact Comp.ensures_pure.mpr (.inl ⟨by simp, rfl⟩)
    | true =>
      simp only [Comp.either_ok, if_true, setPath, Comp.ensures_bind, Comp.ensures_modify]
      refine Comp.ensures_mono (receive_received fuel { fe' with path := fileName } m' l) ?_
      exact fun _ _ _ received => .inr ⟨trivial, received⟩

end Runs

/-- A call that leaves the files of the server as they are. -/
def Quiet (s : Sys) : Prop := ∀ m, (host m s).2.world.fs = m.world.fs

theorem quiet_network : Network Quiet := by
  refine ⟨⟨fun n m => ?_, fun bytes m => ?_⟩, fun e m => rfl⟩
  · show (m.recv n).2.world.fs = m.world.fs
    unfold Machine.recv
    split <;> rfl
  · show (m.send bytes).2.world.fs = m.world.fs
    unfold Machine.send
    split <;> rfl

theorem quiet_reads (p : Path) : Reads Quiet p := ⟨fun _ => rfl, fun _ => rfl, fun _ _ _ => rfl⟩

theorem makes_download (fuel : Nat) : Makes Quiet (DropboxClientHandler.download fuel) := by
  refine makes_bind (makes_receivePath quiet_network.toWire) fun received => ?_
  cases received with
  | false => exact makes_pure _
  | true =>
    refine makes_bind makes_getPath fun path => ?_
    refine makes_bind (makes_orThrow (makes_call fun _ => rfl)) fun there => ?_
    cases there with
    | false => exact makes_bind (makes_sendCommand quiet_network _) fun _ => makes_pure _
    | true =>
      refine makes_bind (makes_sendCommand quiet_network _) fun _ => ?_
      exact makes_send quiet_network quiet_reads fuel

/-- The server's side only reads. -/
theorem server_reads (fuel : Nat) (fe : FileExchange) (m : Machine) :
    (exec (DropboxClientHandler.download fuel) fe m).2.2.world.fs = m.world.fs := by
  have keeps : ∀ (k : Machine) (s : Sys) (r : s.Reply) (h : Machine),
      k.world.fs = m.world.fs → Quiet s → host k s = (r, h) → h.world.fs = m.world.fs := by
    intro k s r h before quiet reply
    obtain rfl : (host k s).2 = h := congrArg Prod.snd reply
    exact (quiet k).trans before
  have kept := ensures_makes (e := answers host) (I := fun k : Machine => k.world.fs = m.world.fs)
    (fun _ _ _ _ => trivial) keeps rfl (makes_download fuel) fe
  rw [Comp.ensures_answers, ← exec] at kept
  exact kept

/-- Download changes at most its target if and only if it does not come to Receive with a path
    that leads to something else than a regular file and has something to remove. -/
theorem download_harmless_iff {M : Type} (net : M → (s : Sys) → s.Reply × M) (fuel : Nat)
    (username : List Byte) (fileName : Path) (fe : FileExchange) (m : M) (l : Local) :
    Harmless l (Comp.exec (localHost net) (DropboxClient.download fuel username fileName) fe
        (m, l)).2.2.2 fileName ↔
      ¬ (Granted net username fileName fe m l ∧ Wipes l fileName) := by
  rcases Comp.ensures_answers.mp (download_received net fuel username fileName fe m l) with
    ⟨stops, same⟩ | ⟨granted, received⟩
  · rw [same]
    exact iff_of_true (fun _ => .inl rfl) fun both => stops both.1
  · rw [and_iff_right granted]
    exact received_harmless_iff received

/-- Whatever comes over the network, Download changes only its target and, where it clears that
    away, what is below; the server's store stays as it is. -/
theorem download_confined {M : Type} (net : M → (s : Sys) → s.Reply × M) (fuel : Nat)
    (username : List Byte) (fileName : Path) (fe : FileExchange) (m : M) (l : Local) :
    Confined (Granted net username fileName fe m l) l
        (Comp.exec (localHost net) (DropboxClient.download fuel username fileName) fe
          (m, l)).2.2.2 fileName ∧
      ∀ serverFuel serverFe server,
        (exec (DropboxClientHandler.download serverFuel) serverFe server).2.2.world.fs =
          server.world.fs := by
  refine ⟨fun k => ?_, server_reads⟩
  rcases Comp.ensures_answers.mp (download_received net fuel username fileName fe m l) with
    ⟨_, same⟩ | ⟨granted, received⟩
  · rw [same]
    exact .inl rfl
  · rcases received_confined received k with kept | target | ⟨_, cleared⟩
    · exact .inl kept
    · exact .inr (.inl target)
    · exact .inr (.inr ⟨granted, cleared⟩)

/-- A client in /h, which holds a directory d with a file f. -/
def inHome : Local where
  entry k :=
    if k = [] ∨ k = [[104]] ∨ k = [[104], [100]] then some .dir
    else if k = [[104], [100], [102]] then some (.file [7])
    else none
  cwd := [[104]]
  refused _ _ := false

/-- The server has something of this name, and nothing comes of it. -/
def granting : Machine := ⟨⟨Fs.empty, [], [], []⟩, [some ⟨[1, 0], by decide⟩], []⟩

def downloaded (fileName : Path) : Except Fault Bool × Local :=
  let ended := Comp.exec (localHost host) (DropboxClient.download 1 [117] fileName)
    (.fresh (fun _ => 0) []) (granting, inHome)
  (ended.1, ended.2.2.2)

theorem download_wipes_directory :
    (downloaded [100]).1 = .ok false ∧ ¬ Harmless inHome (downloaded [100]).2 [100] := by
  have gone : (downloaded [100]).2.entry [[104], [100], [102]] = none := by decide +kernel
  have there : inHome.entry [[104], [100], [102]] = some (.file [7]) := by decide +kernel
  refine ⟨by decide +kernel, fun harmless => ?_⟩
  rcases harmless [[104], [100], [102]] with same | ⟨_, _, c, now⟩
  · rw [gone, there] at same
    cases same
  · rw [gone] at now
    cases now

/-- "." stays, and everything in it goes, before the exception ends the program. -/
example : (downloaded dot).1 = .error .terminate ∧
    (downloaded dot).2.entry [[104]] = some .dir ∧ (downloaded dot).2.entry [[104], [100]] = none := by
  decide +kernel

end DropboxDownloadTarget
