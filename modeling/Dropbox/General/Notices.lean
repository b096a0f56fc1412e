import Mathlib.Data.List.Basic
import Mathlib.Logic.Function.Basic
import Dropbox.General.Transitions

/-!
A copy of a map that is kept up to date by notices. A notice names a key and says
whether something was stored or removed there; the value is looked up only when the
notice is delivered, so it may be a later one. A value may also be written bit by bit
and get its notice at the end.
-/
namespace Notices
open Transitions
variable {K V : Type} [DecidableEq K]

inductive Notice (K : Type) where
  | stored (k : K)
  | removed (k : K)
  deriving DecidableEq, Repr

def Notice.key : Notice K → K
  | .stored k | .removed k => k

structure State (K V : Type) where
  current : K → Option V
  copy : K → Option V
  notices : List (Notice K)
  writing : K → Bool

inductive Move (K V : Type) where
  | write (k : K) (v : V)
  | finish (k : K)
  | put (k : K) (v : V)
  | remove (k : K)
  | deliver

/-- A notice of something stored is not delivered while there is nothing to deliver. -/
def step (s : State K V) : Move K V → Option (State K V)
  | .write k v =>
    some { s with
      current := Function.update s.current k (some v), writing := Function.update s.writing k true }
  | .finish k =>
    some { s with
      notices := s.notices ++ [.stored k], writing := Function.update s.writing k false }
  | .put k v =>
    some { s with
      current := Function.update s.current k (some v), notices := s.notices ++ [.stored k]
      writing := Function.update s.writing k false }
  | .remove k =>
    some { s with
      current := Function.update s.current k none, notices := s.notices ++ [.removed k]
      writing := Function.update s.writing k false }
  | .deliver =>
    match s.notices with
    | [] => none
    | .stored k :: rest =>
      match s.current k with
      | some v => some { s with copy := Function.update s.copy k (some v), notices := rest }
      | none => none
    | .removed k :: rest => some { s with copy := Function.update s.copy k none, notices := rest }

/-- The last notice about a key. -/
def last (notices : List (Notice K)) (k : K) : Option (Notice K) :=
  (notices.filter fun m => m.key = k).getLast?

/-- What is known of a key once nothing more is written there. -/
def Settled (s : State K V) (k : K) : Prop :=
  match last s.notices k with
  | none => s.copy k = s.current k
  | some (.stored _) => True
  | some (.removed _) => s.current k = none

/-- No change is forgotten: its notice is on the way or still to come, or the copy has it. -/
def Covered (s : State K V) : Prop := ∀ k, s.writing k = true ∨ Settled s k

theorem last_append (notices : List (Notice K)) (m : Notice K) (k : K) :
    last (notices ++ [m]) k = if m.key = k then some m else last notices k := by
  rw [last, List.filter_append]
  by_cases same : m.key = k
  · simp [same]
  · simp [same, last]

theorem last_cons_self {m : Notice K} {k : K} (same : m.key = k) (rest : List (Notice K)) :
    last (m :: rest) k = some ((last rest k).getD m) := by
  rw [last, List.filter_cons_of_pos (by simpa using same), List.getLast?_cons, last]

theorem last_cons_other {m : Notice K} {k : K} (other : m.key ≠ k) (rest : List (Notice K)) :
    last (m :: rest) k = last rest k := by
  rw [last, List.filter_cons_of_neg (by simpa using other), last]

/-- A key that the step is not about is as settled as before. -/
theorem settled_other {s t : State K V} {k : K} (settled : Settled s k)
    (notices : last t.notices k = last s.notices k) (current : t.current k = s.current k)
    (copy : t.copy k = s.copy k) : Settled t k := by
  rw [Settled, notices, current, copy]
  exact settled

/-- What is delivered settles its key, unless a later notice about it is still to come. -/
theorem settled_stored {s : State K V} {j k : K} {v : V} {rest : List (Notice K)}
    (waiting : s.notices = .stored j :: rest) (found : s.current j = some v) (settled : Settled s k) :
    Settled { s with copy := Function.update s.copy j (some v), notices := rest } k := by
  rw [Settled, waiting] at settled
  dsimp only [Settled]
  by_cases here : j = k
  · subst here
    rw [last_cons_self (m := .stored j) (k := j) rfl] at settled
    cases later : last rest j with
    | none => simp [found]
    | some m =>
      rw [later] at settled
      cases m with
      | stored i => trivial
      | removed i => exact settled
  · have apart : k ≠ j := fun same => here same.symm
    rw [last_cons_other (m := .stored j) here] at settled
    rw [Function.update_of_ne apart]
    exact settled

theorem settled_removed {s : State K V} {j k : K} {rest : List (Notice K)}
    (waiting : s.notices = .removed j :: rest) (settled : Settled s k) :
    Settled { s with copy := Function.update s.copy j none, notices := rest } k := by
  rw [Settled, waiting] at settled
  dsimp only [Settled]
  by_cases here : j = k
  · subst here
    rw [last_cons_self (m := .removed j) (k := j) rfl] at settled
    cases later : last rest j with
    | none =>
      rw [later] at settled
      simpa using settled.symm
    | some m =>
      rw [later] at settled
      cases m with
      | stored i => trivial
      | removed i => exact settled
  · have apart : k ≠ j := fun same => here same.symm
    rw [last_cons_other (m := .removed j) here] at settled
    rw [Function.update_of_ne apart]
    exact settled

theorem step_covered (s : State K V) (m : Move K V) (t : State K V) (covered : Covered s)
    (taken : step s m = some t) : Covered t := by
  intro k
  cases m with
  | write j v =>
    obtain rfl := Option.some.inj taken
    by_cases here : k = j
    · exact Or.inl (by simp [here])
    · cases covered k with
      | inl writing => exact Or.inl (by simpa [here] using writing)
      | inr settled => exact Or.inr (settled_other settled rfl (by simp [here]) rfl)
  | finish j =>
    obtain rfl := Option.some.inj taken
    by_cases here : j = k
    · refine Or.inr ?_
      simp [Settled, last_append, Notice.key, here]
    · have apart : k ≠ j := fun same => here same.symm
      cases covered k with
      | inl writing => exact Or.inl (by simpa [apart] using writing)
      | inr settled =>
        refine Or.inr (settled_other settled ?_ rfl rfl)
        simp [last_append, Notice.key, here]
  | put j v =>
    obtain rfl := Option.some.inj taken
    by_cases here : j = k
    · refine Or.inr ?_
      simp [Settled, last_append, Notice.key, here]
    · have apart : k ≠ j := fun same => here same.symm
      cases covered k with
      | inl writing => exact Or.inl (by simpa [apart] using writing)
      | inr settled =>
        refine Or.inr (settled_other settled ?_ (by simp [apart]) rfl)
        simp [last_append, Notice.key, here]
  | remove j =>
    obtain rfl := Option.some.inj taken
    by_cases here : j = k
    · refine Or.inr ?_
      simp [Settled, last_append, Notice.key, here]
    · have apart : k ≠ j := fun same => here same.symm
      cases covered k with
      | inl writing => exact Or.inl (by simpa [apart] using writing)
      | inr settled =>
        refine Or.inr (settled_other settled ?_ (by simp [apart]) rfl)
        simp [last_append, Notice.key, here]
  | deliver =>
    simp only [step] at taken
    split at taken
    · cases taken
    · rename_i j rest waiting
      split at taken
      · rename_i v found
        obtain rfl := Option.some.inj taken
        exact (covered k).imp id (settled_stored waiting found)
      · cases taken
    · rename_i j rest waiting
      obtain rfl := Option.some.inj taken
      exact (covered k).imp id (settled_removed waiting)

/-- With no notice left and nothing half written the copy is exact. -/
theorem copy_current {s : State K V} (covered : Covered s) (none : s.notices = [])
    (quiet : ∀ k, s.writing k = false) : s.copy = s.current := by
  funext k
  cases covered k with
  | inl writing =>
    rw [quiet k] at writing
    cases writing
  | inr settled => simpa [Settled, none, last] using settled

end Notices
