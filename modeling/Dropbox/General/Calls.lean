import Dropbox.General.Programs

/-!
The calls a computation can make, whatever replies it gets. `allows` is the contract
that permits some calls and promises nothing; what is shown under it holds in every
environment where these calls keep an invariant.
-/
namespace Calls
open Programs
variable {S : Type} {R : S → Type} {L K E G A B : Type} {P : S → Prop}

def allows (P : S → Prop) : Env S R Unit where
  pre _ s := P s
  post _ _ _ _ := True

/-- From every state it makes only these calls. -/
def Makes (P : S → Prop) (x : Comp S R L E A) : Prop :=
  ∀ l, Comp.ensures (allows P) x (fun _ _ _ => True) l ()

/-- Calls that keep an invariant of an environment keep it over a whole computation. -/
theorem ensures_of_allows {e : Env S R G} {I : G → Prop} {x : Comp S R L E A}
    {Q : Except E A → L → Prop} {l : L} {g : G} (may : ∀ g s, I g → P s → e.pre g s)
    (keeps : ∀ g s r h, I g → P s → e.post g s r h → I h) (start : I g)
    (made : Comp.ensures (allows P) x (fun r k _ => Q r k) l ()) :
    Comp.ensures e x (fun r k h => Q r k ∧ I h) l g := by
  have onProg : ∀ (p : Prog S R (Except E A × L)) (g : G), I g →
      wp (allows P) p (fun r _ => Q r.1 r.2) () → wp e p (fun r h => Q r.1 r.2 ∧ I h) g := by
    intro p
    induction p with
    | ret a => exact fun g sound ended => ⟨ended, sound⟩
    | call s next ih =>
      rintro g sound ⟨allowed, later⟩
      refine ⟨may g s sound allowed, fun r h relied => ?_⟩
      exact ih r h (keeps g s r h sound allowed relied) (later r () trivial)
  exact onProg (x l) g start made

theorem ensures_makes {e : Env S R G} {I : G → Prop} {x : Comp S R L E A} {g : G}
    (may : ∀ g s, I g → P s → e.pre g s)
    (keeps : ∀ g s r h, I g → P s → e.post g s r h → I h) (start : I g) (made : Makes P x)
    (l : L) : Comp.ensures e x (fun _ _ h => I h) l g :=
  Comp.ensures_mono (ensures_of_allows may keeps start (made l)) fun _ _ _ kept => kept.2

/-- Two hosts that answer these calls alike give the same run. -/
theorem exec_agrees {M N : Type} {host : M → (s : S) → R s × M} {other : N → (s : S) → R s × N}
    {part : M → N} (agree : ∀ m s, P s → other (part m) s = ((host m s).1, part (host m s).2))
    {x : Comp S R L E A} (made : Makes P x) (l : L) (m : M) :
    Comp.exec other x l (part m) = ((Comp.exec host x l m).1, (Comp.exec host x l m).2.1,
      part (Comp.exec host x l m).2.2) := by
  have onProg : ∀ (p : Prog S R (Except E A × L)) (m : M),
      wp (allows P) p (fun _ _ => True) () →
        run other p (part m) = ((run host p m).1, part (run host p m).2) := by
    intro p
    induction p with
    | ret a => exact fun m _ => rfl
    | call s next ih =>
      rintro m ⟨allowed, later⟩
      have reply := agree m s allowed
      have rest := ih (host m s).1 (host m s).2 (later _ () trivial)
      simp only [run, reply]
      exact rest
  unfold Comp.exec
  rw [onProg (x l) m (made l)]

theorem makes_any (x : Comp S R L E A) : Makes (fun _ => True) x := by
  have onProg : ∀ p : Prog S R (Except E A × L),
      wp (allows fun _ => True) p (fun _ _ => True) () := by
    intro p
    induction p with
    | ret a => trivial
    | call s next ih => exact ⟨trivial, fun r _ _ => ih r⟩
  exact fun l => onProg (x l)

theorem makes_pure (a : A) : Makes P (Pure.pure a : Comp S R L E A) := fun _ => trivial

theorem makes_throw (err : E) : Makes P (Comp.throw err : Comp S R L E A) := fun _ => trivial

theorem makes_get : Makes P (Comp.get : Comp S R L E L) := fun _ => trivial

theorem makes_modify (f : L → L) : Makes P (Comp.modify f : Comp S R L E Unit) := fun _ => trivial

theorem makes_call {s : S} (allowed : P s) : Makes P (Comp.call s : Comp S R L E (R s)) :=
  fun _ => ⟨allowed, fun _ _ _ => trivial⟩

theorem makes_bind {x : Comp S R L E A} {f : A → Comp S R L E B} (head : Makes P x)
    (tail : ∀ a, Makes P (f a)) : Makes P (x >>= f) := by
  intro l
  rw [Comp.ensures_bind]
  refine Comp.ensures_mono (head l) fun r k _ _ => ?_
  cases r with
  | ok a => exact tail a k
  | error err => trivial

theorem makes_catching {x : Comp S R L E A} {handler : E → Comp S R L E A} (tried : Makes P x)
    (handled : ∀ err, Makes P (handler err)) : Makes P (x.catching handler) := by
  intro l
  rw [Comp.ensures_catching]
  refine Comp.ensures_mono (tried l) fun r k _ _ => ?_
  cases r with
  | ok a => trivial
  | error err => exact handled err k

theorem makes_zoom {part : L → K} {put : K → L → L} {x : Comp S R K E A} (inner : Makes P x) :
    Makes P (x.zoom part put) := by
  intro l
  rw [Comp.ensures_zoom]
  exact inner (part l)

end Calls
