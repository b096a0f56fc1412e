import Mathlib.Data.List.Induction
import Dropbox.Replication

/-!
Backups that connect while the primary serves requests (Primary::AcceptBackupLoop).
A request is handled and broadcast to the connected backups in one step; a backup
that joins gets nothing but the messages of later requests.
-/
namespace DropboxBackupJoin
open Transitions DropboxReplication
variable {P V B : Type} [DecidableEq P] [DecidableEq B]

/-- `backups` is `backups_` in the order of joining. -/
structure State (P V B : Type) where
  primary : P → Option V
  backups : List B
  backup : B → P → Option V
  channel : B → List (Message P V)

/-- Every store of a backup is empty. -/
def start (store : P → Option V) : State P V B :=
  { primary := store, backups := [], backup := fun _ _ => none, channel := fun _ => [] }

inductive Action (P V B : Type) where
  | serve (r : Request P V)
  | join (b : B)
  | apply (b : B)
  deriving DecidableEq, Repr

def requestPath : Request P V → P
  | .upload path _ | .delete path _ => path

/-- BroadcastUpload or BroadcastDelete. -/
def State.broadcast (s : State P V B) (m : Message P V) : State P V B :=
  { s with channel := fun b => if b ∈ s.backups then s.channel b ++ [m] else s.channel b }

/-- ClientHandler::Upload, Delete, or the same command in SyncFromClient. -/
def State.handle (s : State P V B) : Request P V → State P V B
  | .upload path content =>
    { s with primary := Function.update s.primary path (some content) }.broadcast
      (.upload path content)
  | .delete path checked =>
    if checked ∧ s.primary path = none then s
    else { s with primary := Function.update s.primary path none }.broadcast (.delete path)

def joinStep (s : State P V B) : Action P V B → Option (State P V B)
  | .serve r => some (s.handle r)
  | .join b => if b ∈ s.backups then none else some { s with backups := s.backups ++ [b] }
  | .apply b =>
    match s.channel b with
    | [] => none
    | m :: rest =>
      some { s with backup := Function.update s.backup b (applyMessage (s.backup b) m),
                    channel := Function.update s.channel b rest }

/-- The store of a backup once all messages sent to it have been applied. -/
def State.settled (s : State P V B) (b : B) : P → Option V :=
  (s.channel b).foldl applyMessage (s.backup b)

def Replicas (s : State P V B) : Prop := ∀ b ∈ s.backups, s.settled b = s.primary

/-- After every request all backups have the primary's files. -/
def ReplicasThroughout (store : P → Option V) (actions : List (Action P V B)) : Prop :=
  ∀ before r after s, actions = before ++ .serve r :: after →
    runs joinStep (start store) (before ++ [.serve r]) = some s → Replicas s

/-- A backup joins when the primary holds a file, and the next request is about another one. -/
theorem late_backup_misses_files :
    ¬ ∀ (actions : List (Action Bool Nat Unit)) (s : State Bool Nat Unit),
      runs joinStep (start fun _ => none) actions = some s →
        ReplicasThroughout (fun _ => none) actions := by
  intro claim
  have throughout := claim [.serve (.upload true 1), .join (), .serve (.upload false 2)] _ rfl
  have equal := throughout [.serve (.upload true 1), .join ()] (.upload false 2) [] _ rfl rfl ()
    (by decide)
  have here := congrFun equal true
  cases here

/-- Some of these actions is a request for this path. -/
def Served (actions : List (Action P V B)) (path : P) : Prop :=
  ∃ r, .serve r ∈ actions ∧ requestPath r = path

/-- Whatever the primary holds when a backup joins has been served again by the end of the next
    request. -/
def JoinsComplete (store : P → Option V) (actions : List (Action P V B)) : Prop :=
  ∀ before b between r after s, actions = before ++ .join b :: (between ++ .serve r :: after) →
    runs joinStep (start store) before = some s →
      ∀ path, s.primary path ≠ none → Served (between ++ [.serve r]) path

/-- What a backup that joined at `origin` has in the end: everything served since, nothing else. -/
structure Since (origin s : State P V B) (b : B) (actions : List (Action P V B)) : Prop where
  member : b ∈ s.backups
  served : ∀ path, Served actions path → s.settled b path = s.primary path
  missed : ∀ path, ¬ Served actions path →
    s.settled b path = none ∧ s.primary path = origin.primary path

omit [DecidableEq P] [DecidableEq B] in
theorem served_snoc {actions : List (Action P V B)} {a : Action P V B} {path : P} :
    Served (actions ++ [a]) path ↔
      Served actions path ∨ ∃ r, a = .serve r ∧ requestPath r = path := by
  simp only [Served, List.mem_append, List.mem_singleton]
  constructor
  · rintro ⟨r, early | rfl, here⟩
    · exact Or.inl ⟨r, early, here⟩
    · exact Or.inr ⟨r, rfl, here⟩
  · rintro (⟨r, early, here⟩ | ⟨r, rfl, here⟩)
    · exact ⟨r, Or.inl early, here⟩
    · exact ⟨r, Or.inr rfl, here⟩

theorem settled_broadcast {s : State P V B} {b : B} (member : b ∈ s.backups) (m : Message P V) :
    (s.broadcast m).settled b = applyMessage (s.settled b) m := by
  simp [State.settled, State.broadcast, member]

theorem backups_handle (s : State P V B) (r : Request P V) : (s.handle r).backups = s.backups := by
  cases r with
  | upload path content => rfl
  | delete path checked =>
    simp only [State.handle]
    split <;> rfl

theorem handle_since {origin s : State P V B} {b : B} {actions : List (Action P V B)}
    (since : Since origin s b actions) (r : Request P V) :
    Since origin (s.handle r) b (actions ++ [.serve r]) := by
  -- at the path of the request the stores agree, elsewhere nothing changes
  have here : (s.handle r).settled b (requestPath r) = (s.handle r).primary (requestPath r) := by
    cases r with
    | upload path content =>
      rw [State.handle, settled_broadcast (by exact since.member)]
      simp [State.broadcast, applyMessage, requestPath]
    | delete path checked =>
      simp only [State.handle, requestPath]
      split
      · rename_i absent
        by_cases early : Served actions path
        · exact since.served path early
        · rw [(since.missed path early).1, absent.2]
      · rw [settled_broadcast (by exact since.member)]
        simp [State.broadcast, applyMessage]
  have there : ∀ path, path ≠ requestPath r →
      (s.handle r).settled b path = s.settled b path ∧ (s.handle r).primary path = s.primary path := by
    intro path apart
    cases r with
    | upload other content =>
      have apart' : path ≠ other := apart
      rw [State.handle, settled_broadcast (by exact since.member)]
      simp [State.broadcast, State.settled, applyMessage, apart']
    | delete other checked =>
      have apart' : path ≠ other := apart
      simp only [State.handle]
      split
      · exact ⟨rfl, rfl⟩
      · rw [settled_broadcast (by exact since.member)]
        simp [State.broadcast, State.settled, applyMessage, apart']
  refine ⟨by rw [backups_handle]; exact since.member, ?_, ?_⟩
  · intro path served
    by_cases same : path = requestPath r
    · rw [same]
      exact here
    · rw [(there path same).1, (there path same).2]
      rcases served_snoc.mp served with early | ⟨_, equal, found⟩
      · exact since.served path early
      · cases equal
        exact absurd found.symm same
  · intro path missed
    have early : ¬ Served actions path := fun served => missed (served_snoc.mpr (Or.inl served))
    have apart : path ≠ requestPath r := fun equal =>
      missed (served_snoc.mpr (Or.inr ⟨r, rfl, equal.symm⟩))
    rw [(there path apart).1, (there path apart).2]
    exact since.missed path early

/-- Applying a message does not change what the channel leads to. -/
theorem settled_apply {s t : State P V B} {c : B} (step : joinStep s (.apply c) = some t) (b : B) :
    t.settled b = s.settled b := by
  simp only [joinStep] at step
  split at step
  · cases step
  · rename_i m rest head
    cases step
    by_cases same : b = c
    · simp [State.settled, same, head]
    · simp [State.settled, same]

theorem step_since {origin s t : State P V B} {b : B} {actions : List (Action P V B)}
    {a : Action P V B} (since : Since origin s b actions) (step : joinStep s a = some t) :
    Since origin t b (actions ++ [a]) := by
  have unserved : (∀ r, a ≠ .serve r) → ∀ path, Served (actions ++ [a]) path ↔ Served actions path := by
    intro other path
    rw [served_snoc]
    constructor
    · rintro (early | ⟨r, equal, _⟩)
      · exact early
      · exact absurd equal (other r)
    · exact Or.inl
  cases a with
  | serve r =>
    cases step
    exact handle_since since r
  | join c =>
    simp only [joinStep, Option.ite_none_left_eq_some, Option.some.injEq] at step
    obtain ⟨_, rfl⟩ := step
    refine ⟨List.mem_append_left _ since.member, ?_, ?_⟩
    · intro path served
      exact since.served path ((unserved (by simp) path).mp served)
    · intro path missed
      exact since.missed path fun served => missed ((unserved (by simp) path).mpr served)
  | apply c =>
    have kept : t.primary = s.primary ∧ t.backups = s.backups := by
      simp only [joinStep] at step
      split at step
      · cases step
      · cases step
        exact ⟨rfl, rfl⟩
    refine ⟨by rw [kept.2]; exact since.member, ?_, ?_⟩
    · intro path served
      rw [settled_apply step, kept.1]
      exact since.served path ((unserved (by simp) path).mp served)
    · intro path missed
      rw [settled_apply step, kept.1]
      exact since.missed path fun served => missed ((unserved (by simp) path).mpr served)

theorem run_since {origin s t : State P V B} {b : B} {earlier actions : List (Action P V B)}
    (since : Since origin s b earlier) (run : runs joinStep s actions = some t) :
    Since origin t b (earlier ++ actions) := by
  induction actions generalizing s earlier with
  | nil =>
    obtain rfl : s = t := by simpa [runs] using run
    rwa [List.append_nil]
  | cons a rest ih =>
    obtain ⟨m, head, tail⟩ := runs_cons.mp run
    have later := ih (step_since since head) tail
    rwa [List.append_assoc] at later

/-- A backup that has not joined has an empty store, and nothing is on the way to it. -/
def Blank (s : State P V B) : Prop :=
  ∀ b, b ∉ s.backups → s.channel b = [] ∧ s.backup b = fun _ => none

theorem step_blank (s : State P V B) (a : Action P V B) (t : State P V B) (blank : Blank s)
    (step : joinStep s a = some t) : Blank t := by
  cases a with
  | serve r =>
    cases step
    intro b outside
    rw [backups_handle] at outside
    have before := blank b outside
    cases r with
    | upload path content => simpa [State.handle, State.broadcast, outside] using before
    | delete path checked =>
      simp only [State.handle]
      split
      · exact before
      · simpa [State.broadcast, outside] using before
  | join c =>
    simp only [joinStep, Option.ite_none_left_eq_some, Option.some.injEq] at step
    obtain ⟨_, rfl⟩ := step
    intro b outside
    exact blank b fun member => outside (List.mem_append_left _ member)
  | apply c =>
    simp only [joinStep] at step
    split at step
    · cases step
    · rename_i m rest head
      cases step
      intro b outside
      have before := blank b outside
      have apart : b ≠ c := by
        rintro rfl
        rw [before.1] at head
        cases head
      simpa [apart] using before

omit [DecidableEq P] [DecidableEq B] in
theorem blank_start (store : P → Option V) : Blank (start store : State P V B) :=
  fun _ _ => ⟨rfl, rfl⟩

/-- What a backup has that joined after `before`. -/
theorem since_join {store : P → Option V} {origin t : State P V B} {b : B}
    {before between : List (Action P V B)} (first : runs joinStep (start store) before = some origin)
    (rest : runs joinStep origin (.join b :: between) = some t) : Since origin t b between := by
  obtain ⟨m, joins, later⟩ := runs_cons.mp rest
  have blank := invariant_of_runs step_blank first (blank_start store)
  simp only [joinStep, Option.ite_none_left_eq_some, Option.some.injEq] at joins
  obtain ⟨outside, rfl⟩ := joins
  obtain ⟨channel, empty⟩ := blank b outside
  have begins : Since origin { origin with backups := origin.backups ++ [b] } b [] := by
    refine ⟨by simp, ?_, ?_⟩
    · rintro path ⟨r, member, _⟩
      cases member
    · intro path _
      simp [State.settled, channel, empty]
  exact run_since begins later

/-- Every backup has joined at some point of the run. -/
theorem joined_of_member {store : P → Option V} {actions : List (Action P V B)} {t : State P V B}
    {b : B} (run : runs joinStep (start store) actions = some t) (member : b ∈ t.backups) :
    ∃ before between, actions = before ++ .join b :: between := by
  induction actions using List.reverseRecOn generalizing t with
  | nil =>
    obtain rfl : start store = t := by simpa [runs] using run
    cases member
  | append_singleton actions a ih =>
    obtain ⟨s, first, last⟩ := runs_append.mp run
    obtain ⟨t', step, ending⟩ := runs_cons.mp last
    obtain rfl : t' = t := by simpa [runs] using ending
    have known : b ∈ s.backups ∨ a = .join b := by
      cases a with
      | serve r =>
        cases step
        rw [backups_handle] at member
        exact Or.inl member
      | join c =>
        simp only [joinStep, Option.ite_none_left_eq_some, Option.some.injEq] at step
        obtain ⟨_, rfl⟩ := step
        rcases List.mem_append.mp member with old | new
        · exact Or.inl old
        · exact Or.inr (by rw [List.mem_singleton.mp new])
      | apply c =>
        simp only [joinStep] at step
        split at step
        · cases step
        · cases step
          exact Or.inl member
    rcases known with old | rfl
    · obtain ⟨before, between, rfl⟩ := ih first old
      exact ⟨before, between ++ [a], by simp⟩
    · exact ⟨actions, [], rfl⟩

/-- The backups are replicas after every request exactly when nothing that the primary held at a
    join is still to be served again by then. -/
theorem replicas_iff_joins_complete {store : P → Option V} {actions : List (Action P V B)}
    {s : State P V B} (run : runs joinStep (start store) actions = some s) :
    ReplicasThroughout store actions ↔ JoinsComplete store actions := by
  constructor
  · intro throughout before b between r after origin split first path held
    have whole : actions = (before ++ .join b :: between) ++ .serve r :: after := by
      rw [split]
      simp
    rw [split] at run
    obtain ⟨origin', first', rest⟩ := runs_append.mp run
    obtain rfl : origin = origin' := Option.some.inj (first.symm.trans first')
    have cut : (.join b :: (between ++ .serve r :: after) : List (Action P V B)) =
        (.join b :: (between ++ [.serve r])) ++ after := by simp
    rw [cut] at rest
    obtain ⟨t, middle, _⟩ := runs_append.mp rest
    have since := since_join first middle
    have equal := throughout _ r after t whole (by
      rw [List.append_assoc, List.cons_append]
      exact runs_append.mpr ⟨origin, first, middle⟩) b since.member
    by_contra missed
    obtain ⟨nothing, still⟩ := since.missed path missed
    rw [equal, still] at nothing
    exact held nothing
  · intro complete before r after t split part b member
    obtain ⟨early, between, whole⟩ := joined_of_member part member
    -- the last action of the part is the request, so the join comes before it
    rcases List.eq_nil_or_concat between with rfl | ⟨between, last, rfl⟩
    · have ends := congrArg List.getLast? whole
      simp at ends
    · have same : before = early ++ .join b :: between ∧ Action.serve r = last := by
        rw [List.concat_eq_append, ← List.cons_append, ← List.append_assoc] at whole
        exact List.append_singleton_inj.mp whole
      obtain ⟨rfl, rfl⟩ := same
      rw [List.append_assoc, List.cons_append] at part
      obtain ⟨origin, first, rest⟩ := runs_append.mp part
      have since := since_join first rest
      funext path
      by_cases served : Served (between ++ [.serve r]) path
      · exact since.served path served
      · have absent : origin.primary path = none := by
          by_contra held
          refine served (complete early b between r after origin ?_ first path held)
          rw [split]
          simp
        obtain ⟨nothing, still⟩ := since.missed path served
        rw [nothing, still, absent]

/-- One file, uploaded before the backup joins and again after it. -/
theorem replicas_iff_joins_complete_reupload :
    ReplicasThroughout (P := Unit) (V := Nat) (B := Unit) (fun _ => none)
        [.serve (.upload () 1), .join (), .serve (.upload () 2), .apply ()] ↔
      JoinsComplete (fun _ => none)
        [.serve (.upload () 1), .join (), .serve (.upload () 2), .apply ()] :=
  replicas_iff_joins_complete rfl

end DropboxBackupJoin
