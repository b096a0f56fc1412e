import Mathlib.Logic.Function.Basic
import Dropbox.General.Transitions

/-!
One user's requests on the primary and their way to the backups (ClientHandler,
ClientComposite::BroadcastCommand, Backup::MainLoop). A request changes the
primary's store in one step and is sent to each backup in a later one; an upload
is sent with the content the file has then. No lock spans these steps.
-/
namespace DropboxReplication
open Transitions
variable {P V H B : Type} [DecidableEq P] [DecidableEq H] [DecidableEq B]

/-- `checked` is ClientHandler::Delete, which asks `exists` first; SyncFromClient does not. -/
inductive Request (P V : Type) where
  | upload (path : P) (content : V)
  | delete (path : P) (checked : Bool)
  deriving DecidableEq, Repr

inductive Message (P V : Type) where
  | upload (path : P) (content : V)
  | delete (path : P)
  deriving DecidableEq, Repr

inductive Method where
  | upload
  | delete
  deriving DecidableEq, Repr

/-- A call of BackupHandler::Upload or Delete that a broadcast still has to make. -/
structure Send (P B : Type) where
  method : Method
  path : P
  recipient : B
  deriving DecidableEq, Repr

structure State (P V H B : Type) where
  primary : P → Option V
  backup : B → P → Option V
  channel : B → List (Message P V)
  sends : H → List (Send P B)

/-- Every backup is connected and starts with the primary's store. -/
def start (store : P → Option V) : State P V H B := ⟨store, fun _ => store, fun _ => [], fun _ => []⟩

inductive Action (P V H B : Type) where
  | serve (h : H) (r : Request P V)
  | send (h : H)
  | apply (b : B)
  deriving DecidableEq, Repr

/-- What Backup::MainLoop does with one message. -/
def applyMessage (store : P → Option V) : Message P V → P → Option V
  | .upload path content => Function.update store path (some content)
  | .delete path => Function.update store path none

def State.setSends (s : State P V H B) (h : H) (left : List (Send P B)) : State P V H B :=
  { s with sends := Function.update s.sends h left }

def State.post (s : State P V H B) (b : B) (m : Message P V) : State P V H B :=
  { s with channel := Function.update s.channel b (s.channel b ++ [m]) }

def State.store (s : State P V H B) (path : P) (content : Option V) : State P V H B :=
  { s with primary := Function.update s.primary path content }

def replicationStep (backups : List B) (s : State P V H B) : Action P V H B → Option (State P V H B)
  | .serve h r =>
    if s.sends h ≠ [] then none
    else match r with
      | .upload path content =>
        some ((s.store path (some content)).setSends h (backups.map (⟨.upload, path, ·⟩)))
      | .delete path checked =>
        if checked ∧ s.primary path = none then some s
        else some ((s.store path none).setSends h (backups.map (⟨.delete, path, ·⟩)))
  | .send h =>
    match s.sends h with
    | [] => none
    | ⟨.delete, path, b⟩ :: rest => some ((s.post b (.delete path)).setSends h rest)
    | ⟨.upload, path, b⟩ :: rest =>
      match s.primary path with
      | some content => some ((s.post b (.upload path content)).setSends h rest)
      | none => some (s.setSends h [])   -- Send cannot open the file: the broadcast returns false
  | .apply b =>
    match s.channel b with
    | [] => none
    | m :: rest =>
      some { s with backup := Function.update s.backup b (applyMessage (s.backup b) m),
                    channel := Function.update s.channel b rest }

/-- All requests are finished and all messages applied. -/
def Quiescent (s : State P V H B) : Prop := (∀ h, s.sends h = []) ∧ ∀ b, s.channel b = []

/-- No upload is sent of a file that is gone by then. -/
def SendsSucceed (s : State P V H B) : Action P V H B → Prop
  | .send h => ∀ path b rest, s.sends h = ⟨.upload, path, b⟩ :: rest → s.primary path ≠ none
  | _ => True

omit [DecidableEq P] [DecidableEq H] [DecidableEq B] in
theorem sendsSucceed_of_deletes {s : State P V H B} {h : H} {path : P} {b : B}
    {rest : List (Send P B)} (head : s.sends h = ⟨.delete, path, b⟩ :: rest) :
    SendsSucceed s (.send h) := by
  intro path' b' rest' found
  rw [head] at found
  cases found

omit [DecidableEq P] [DecidableEq H] [DecidableEq B] in
theorem sendsSucceed_of_held {s : State P V H B} {h : H} {path : P} {b : B}
    {rest : List (Send P B)} (head : s.sends h = ⟨.upload, path, b⟩ :: rest)
    (held : s.primary path ≠ none) : SendsSucceed s (.send h) := by
  intro path' b' rest' found
  rw [head] at found
  cases found
  exact held

/-- One device deletes a file, another uploads it anew before the delete is broadcast: the backup
    gets the upload first and the stale delete last. -/
theorem stale_delete_parts_replicas :
    ¬ ∀ (actions : List (Action Unit Nat Bool Unit)) (s : State Unit Nat Bool Unit),
      Allowed (replicationStep [()]) SendsSucceed (start fun _ => some 0) actions →
        runs (replicationStep [()]) (start fun _ => some 0) actions = some s → Quiescent s →
          ∀ b ∈ [()], s.backup b = s.primary := by
  intro claim
  have equal := claim [.serve true (.delete () true), .serve false (.upload () 1), .send false,
    .send true, .apply (), .apply ()] _
    (allowed_cons rfl trivial (allowed_cons rfl trivial
      (allowed_cons rfl (sendsSucceed_of_held rfl (by decide))
        (allowed_cons rfl (sendsSucceed_of_deletes rfl)
          (allowed_cons rfl trivial (allowed_cons rfl trivial trivial)))))) rfl
    ⟨by decide, fun _ => rfl⟩ () List.mem_cons_self
  have here := congrFun equal ()
  cases here

/-- Some other call to send this path to this backup is still to be made. -/
def Covered (s : State P V H B) (path : P) (b : B) : Prop :=
  ∃ h, ∃ send ∈ s.sends h, send.path = path ∧ send.recipient = b

/-- A delete is sent only when the primary does not hold the file, or another request still has
    to send that path to that backup; and no upload is sent of a file that is gone. -/
def FreshSends (s : State P V H B) : Action P V H B → Prop
  | .send h =>
    match s.sends h with
    | [] => True
    | ⟨.upload, path, _⟩ :: _ => s.primary path ≠ none
    | ⟨.delete, path, b⟩ :: rest => s.primary path = none ∨ Covered (s.setSends h rest) path b
  | _ => True

/-- The store a backup will have when it has applied its channel. -/
def settled (s : State P V H B) (b : B) : P → Option V :=
  (s.channel b).foldl applyMessage (s.backup b)

def Agreeing (backups : List B) (s : State P V H B) : Prop :=
  ∀ b ∈ backups, ∀ path, ¬ Covered s path b → settled s b path = s.primary path

omit [DecidableEq H] in
theorem settled_post (s : State P V H B) (b : B) (m : Message P V) :
    settled (s.post b m) b = applyMessage (settled s b) m := by
  simp [settled, State.post]

omit [DecidableEq H] in
theorem settled_post_ne (s : State P V H B) {b c : B} (m : Message P V) (apart : c ≠ b) :
    settled (s.post b m) c = settled s c := by
  simp [settled, State.post, apart]

omit [DecidableEq P] [DecidableEq B] in
theorem covered_kept {s t : State P V H B} {h : H} {path : P} {b : B}
    (others : ∀ k, k ≠ h → t.sends k = s.sends k)
    (own : ∀ send ∈ s.sends h, send.path = path → send.recipient = b → Covered t path b)
    (covered : Covered s path b) : Covered t path b := by
  obtain ⟨k, send, member, there, goal⟩ := covered
  by_cases same : k = h
  · rw [same] at member
    exact own send member there goal
  · exact ⟨k, send, by rw [others k same]; exact member, there, goal⟩

omit [DecidableEq B] in
/-- A request leaves its path covered for every backup, and no other path is touched. -/
theorem serve_agreeing {backups : List B} {s : State P V H B} {h : H} {path : P}
    {content : Option V} {method : Method} (agreeing : Agreeing backups s) (idle : s.sends h = []) :
    Agreeing backups
      ((s.store path content).setSends h (backups.map (⟨method, path, ·⟩))) := by
  intro b member other uncovered
  by_cases same : other = path
  · refine absurd ⟨h, ⟨method, path, b⟩, ?_, same.symm, rfl⟩ uncovered
    simp [State.setSends, member]
  · have before : ¬ Covered s other b := by
      intro covered
      refine uncovered (covered_kept (h := h) ?_ ?_ covered)
      · intro k apart
        simp [State.setSends, State.store, apart]
      · intro send found
        rw [idle] at found
        cases found
    have kept := agreeing b member other before
    simpa [settled, State.setSends, State.store, same] using kept

theorem send_agreeing {backups : List B} {s : State P V H B} {h : H} (sent : Send P B)
    {rest : List (Send P B)} {m : Message P V} (agreeing : Agreeing backups s)
    (head : s.sends h = sent :: rest)
    (fresh : ¬ Covered (s.setSends h rest) sent.path sent.recipient →
      applyMessage (settled s sent.recipient) m sent.path = s.primary sent.path)
    (frame : ∀ other, other ≠ sent.path →
      applyMessage (settled s sent.recipient) m other = settled s sent.recipient other) :
    Agreeing backups ((s.post sent.recipient m).setSends h rest) := by
  intro b member path uncovered
  have view : settled ((s.post sent.recipient m).setSends h rest) b = settled (s.post sent.recipient m) b := rfl
  have uncovered' : ¬ Covered (s.setSends h rest) path b := uncovered
  rw [view]
  by_cases target : b = sent.recipient ∧ path = sent.path
  · obtain ⟨rfl, rfl⟩ := target
    rw [settled_post]
    exact fresh uncovered'
  · have before : ¬ Covered s path b := by
      intro covered
      refine uncovered' (covered_kept (h := h) ?_ ?_ covered)
      · intro k apart
        simp [State.setSends, apart]
      · intro send found there goal
        rw [head] at found
        rcases List.mem_cons.mp found with rfl | later
        · exact absurd ⟨goal.symm, there.symm⟩ target
        · exact ⟨h, send, by simpa [State.setSends] using later, there, goal⟩
    have kept := agreeing b member path before
    by_cases same : b = sent.recipient
    · have other : path ≠ sent.path := fun equal => target ⟨same, equal⟩
      rw [same, settled_post, frame path other, ← same]
      exact kept
    · rw [settled_post_ne s m same]
      exact kept

theorem step_agreeing {backups : List B} (s : State P V H B) (a : Action P V H B)
    (t : State P V H B) (agreeing : Agreeing backups s) (fresh : FreshSends s a)
    (step : replicationStep backups s a = some t) : Agreeing backups t := by
  cases a with
  | serve h r =>
    simp only [replicationStep, ne_eq, Option.ite_none_left_eq_some, not_not] at step
    obtain ⟨idle, step⟩ := step
    cases r with
    | upload path content =>
      cases step
      exact serve_agreeing agreeing idle
    | delete path checked =>
      simp only at step
      split at step
      · cases step
        exact agreeing
      · cases step
        exact serve_agreeing agreeing idle
  | send h =>
    simp only [replicationStep, FreshSends] at step fresh
    split at step
    · cases step
    · rename_i path b rest head
      cases step
      rw [head] at fresh
      refine send_agreeing ⟨.delete, path, b⟩ agreeing head ?_ ?_
      · intro uncovered
        rcases fresh with gone | covered
        · simp [applyMessage, gone]
        · exact absurd covered uncovered
      · intro other apart
        simp [applyMessage, apart]
    · rename_i path b rest head
      rw [head] at fresh
      split at step
      · rename_i content held
        cases step
        refine send_agreeing ⟨.upload, path, b⟩ agreeing head ?_ ?_
        · intro _
          simp [applyMessage, held]
        · intro other apart
          simp [applyMessage, apart]
      · rename_i gone
        exact absurd gone fresh
  | apply b =>
    simp only [replicationStep] at step
    split at step
    · cases step
    · rename_i m rest head
      cases step
      intro c member path uncovered
      have kept := agreeing c member path uncovered
      by_cases same : c = b
      · subst c
        simpa [settled, head] using kept
      · simpa [settled, same] using kept

/-- Replicas converge in every run in which no delete is sent stale. -/
theorem fresh_runs_converge {backups : List B} {store : P → Option V}
    {actions : List (Action P V H B)} {s : State P V H B}
    (fresh : Allowed (replicationStep backups) FreshSends (start store) actions)
    (run : runs (replicationStep backups) (start store) actions = some s) (quiet : Quiescent s) :
    ∀ b ∈ backups, s.backup b = s.primary := by
  have begins : Agreeing backups (start store : State P V H B) := fun _ _ _ _ => rfl
  have agreeing := invariant_of_allowed step_agreeing fresh run begins
  intro b member
  funext path
  have uncovered : ¬ Covered s path b := by
    rintro ⟨h, send, found, _⟩
    rw [quiet.1 h] at found
    cases found
  have equal := agreeing b member path uncovered
  rwa [settled, quiet.2 b] at equal

/-- Two uploads of one path may be sent in either order. -/
theorem fresh_runs_converge_pair :
    ∃ s : State Unit Nat Bool Unit, s.primary () = some 2 ∧ ∀ b ∈ [()], s.backup b = s.primary :=
  have fresh : Allowed (replicationStep [()]) FreshSends (start fun _ => none)
      [.serve true (.upload () 1), .serve false (.upload () 2), .send false, .send true, .apply (),
        .apply ()] :=
    allowed_cons rfl trivial (allowed_cons rfl trivial
      (allowed_cons rfl (Option.some_ne_none 2) (allowed_cons rfl (Option.some_ne_none 2)
        (allowed_cons rfl trivial (allowed_cons rfl trivial trivial)))))
  ⟨_, rfl, fresh_runs_converge fresh rfl ⟨by decide, fun _ => rfl⟩⟩

/-- The converse for one step: where `FreshSends` fails at a delete, the two stores part. -/
theorem stale_delete_diverges {backups : List B} {s t : State P V H B} {h : H} {path : P} {b : B}
    {rest : List (Send P B)} (head : s.sends h = ⟨.delete, path, b⟩ :: rest)
    (stale : ¬ FreshSends s (.send h)) (step : replicationStep backups s (.send h) = some t) :
    ¬ Covered t path b ∧ settled t b path ≠ t.primary path := by
  simp only [FreshSends, head, not_or] at stale
  simp only [replicationStep, head, Option.some.injEq] at step
  subst t
  refine ⟨stale.2, ?_⟩
  have view : settled ((s.post b (.delete path)).setSends h rest) b =
    settled (s.post b (.delete path)) b := rfl
  rw [view, settled_post]
  simpa [applyMessage, State.setSends, State.post] using Ne.symm stale.1

end DropboxReplication
