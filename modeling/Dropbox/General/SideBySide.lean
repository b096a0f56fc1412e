import Dropbox.General.Programs
import Dropbox.General.Transitions

/-!
Two interaction programs side by side. Each has a world of its own; a call of one may
look at the world of the other, and may have to wait there. When each program meets
its contract, and each call keeps the contract and the relation between the worlds,
then every interleaving does.
-/
namespace SideBySide
open Programs Transitions

structure Pair (S : Type) (R : S → Type) (A B V W : Type) where
  left : Prog S R A
  lworld : V
  right : Prog S R B
  rworld : W

variable {S : Type} {R : S → Type} {A B V W C : Type}

/-- What a call does to the world of its caller; `none` is a call that has to wait. The choice is
    what the environment is free to decide. -/
abbrev Calls (S : Type) (R : S → Type) (V W C : Type) := V → W → (s : S) → C → Option (R s × V)

variable (calls : Calls S R V W C) (calls' : Calls S R W V C)

/-- The label says who takes the next step. -/
def pairStep (p : Pair S R A B V W) : C ⊕ C → Option (Pair S R A B V W)
  | .inl c =>
    match p.left with
    | .ret _ => none
    | .call s next => (calls p.lworld p.rworld s c).map fun r =>
        { p with left := next r.1, lworld := r.2 }
  | .inr c =>
    match p.right with
    | .ret _ => none
    | .call s next => (calls' p.rworld p.lworld s c).map fun r =>
        { p with right := next r.1, rworld := r.2 }

/-- A call keeps the contract of its caller and the relation between the worlds. -/
def Sound (calls : Calls S R V W C) (e : Env S R V) (link : V → W → Prop) : Prop :=
  ∀ ⦃v w s c r v'⦄, link v w → e.pre v s → calls v w s c = some (r, v') →
    e.post v s r v' ∧ link v' w

/-- Both programs still meet their contracts, and the worlds fit together. -/
structure Meets (e : Env S R V) (e' : Env S R W) (link : V → W → Prop) (Q : A → V → Prop)
    (Q' : B → W → Prop) (p : Pair S R A B V W) : Prop where
  linked : link p.lworld p.rworld
  left : wp e p.left Q p.lworld
  right : wp e' p.right Q' p.rworld

variable {calls calls'}
variable {e : Env S R V} {e' : Env S R W} {link : V → W → Prop} {Q : A → V → Prop}
variable {Q' : B → W → Prop}

theorem meets_step (sound : Sound calls e link) (sound' : Sound calls' e' fun w v => link v w)
    {p q : Pair S R A B V W} {a : C ⊕ C} (meets : Meets e e' link Q Q' p)
    (moved : pairStep calls calls' p a = some q) : Meets e e' link Q Q' q := by
  obtain ⟨left, v, right, w⟩ := p
  obtain ⟨linked, first, second⟩ := meets
  cases a with
  | inl c =>
    cases left with
    | ret a => exact absurd moved (by simp [pairStep])
    | call s next =>
      obtain ⟨⟨r, v'⟩, done, rfl⟩ := Option.map_eq_some_iff.mp moved
      obtain ⟨relied, still⟩ := sound linked first.1 done
      exact ⟨still, first.2 r v' relied, second⟩
  | inr c =>
    cases right with
    | ret b => exact absurd moved (by simp [pairStep])
    | call s next =>
      obtain ⟨⟨r, w'⟩, done, rfl⟩ := Option.map_eq_some_iff.mp moved
      obtain ⟨relied, still⟩ := sound' linked second.1 done
      exact ⟨still, first, second.2 r w' relied⟩

/-- On every interleaving both programs keep meeting their contracts. -/
theorem meets_reachable (sound : Sound calls e link) (sound' : Sound calls' e' fun w v => link v w)
    {p q : Pair S R A B V W} (meets : Meets e e' link Q Q' p)
    (reach : Reachable (pairStep calls calls') p q) : Meets e e' link Q Q' q :=
  invariant_of_reachable (fun _ _ _ now moved => meets_step sound sound' now moved) reach meets

/-- A program has ended, or waits in a call that cannot be answered. -/
def Rests (e : Env S R V) (calls : Calls S R V W C) (Q : A → V → Prop) (v : V) (w : W) :
    Prog S R A → Prop
  | .ret a => Q a v
  | .call s _ => e.pre v s ∧ ∀ c, calls v w s c = none

/-- Where no step is possible both programs rest. -/
theorem rests_of_stuck {p : Pair S R A B V W} (meets : Meets e e' link Q Q' p)
    (stuck : Stuck (pairStep calls calls') p) :
    Rests e calls Q p.lworld p.rworld p.left ∧ Rests e' calls' Q' p.rworld p.lworld p.right := by
  obtain ⟨left, v, right, w⟩ := p
  obtain ⟨_, first, second⟩ := meets
  constructor
  · cases left with
    | ret a => exact first
    | call s next => exact ⟨first.1, fun c => Option.map_eq_none_iff.mp (stuck (.inl c))⟩
  · cases right with
    | ret b => exact second
    | call s next => exact ⟨second.1, fun c => Option.map_eq_none_iff.mp (stuck (.inr c))⟩

/-- Programs make finitely many calls, so no interleaving goes on for ever. -/
theorem step_wellFounded (calls : Calls S R V W C) (calls' : Calls S R W V C) :
    WellFounded fun q p : Pair S R A B V W => ∃ a, pairStep calls calls' p a = some q := by
  suffices all : ∀ left v right w, Acc (fun q p : Pair S R A B V W =>
      ∃ a, pairStep calls calls' p a = some q) ⟨left, v, right, w⟩ from
    ⟨fun p => all p.left p.lworld p.right p.rworld⟩
  intro left
  induction left with
  | ret a =>
    intro v right
    induction right with
    | ret b =>
      refine fun w => .intro _ ?_
      rintro q ⟨_ | _, moved⟩ <;> exact absurd moved (by simp [pairStep])
    | call s next ih =>
      refine fun w => .intro _ ?_
      rintro q ⟨_ | c, moved⟩
      · exact absurd moved (by simp [pairStep])
      · obtain ⟨⟨r, w'⟩, _, rfl⟩ := Option.map_eq_some_iff.mp moved
        exact ih r w'
  | call s next ih =>
    intro v right
    induction right with
    | ret b =>
      refine fun w => .intro _ ?_
      rintro q ⟨c | _, moved⟩
      · obtain ⟨⟨r, v'⟩, _, rfl⟩ := Option.map_eq_some_iff.mp moved
        exact ih r v' _ w
      · exact absurd moved (by simp [pairStep])
    | call s' next' ih' =>
      refine fun w => .intro _ ?_
      rintro q ⟨c | c, moved⟩
      · obtain ⟨⟨r, v'⟩, _, rfl⟩ := Option.map_eq_some_iff.mp moved
        exact ih r v' _ w
      · obtain ⟨⟨r, w'⟩, _, rfl⟩ := Option.map_eq_some_iff.mp moved
        exact ih' r w'

/-- From every pair some interleaving comes to where no step is possible. -/
theorem reaches_stuck (calls : Calls S R V W C) (calls' : Calls S R W V C) (p : Pair S R A B V W) :
    ∃ q, Reachable (pairStep calls calls') p q ∧ Stuck (pairStep calls calls') q := by
  induction p using (step_wellFounded calls calls').induction with
  | _ p ih =>
    by_cases stuck : Stuck (pairStep calls calls') p
    · exact ⟨p, reachable_refl p, stuck⟩
    · obtain ⟨a, moves⟩ := not_forall.mp stuck
      obtain ⟨q, moved⟩ := Option.ne_none_iff_exists'.mp moves
      obtain ⟨t, reach, final⟩ := ih q ⟨a, moved⟩
      exact ⟨t, reachable_trans ⟨[a], by simp [runs, moved]⟩ reach, final⟩

end SideBySide
