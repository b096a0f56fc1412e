import Mathlib.Logic.Basic

/-!
Interaction programs. A program ends with a value or makes a call and goes on
with the reply, so one text can be run on a deterministic host, or against any
environment that keeps a contract. `wp` is the weakest precondition under such a
contract: `pre` is what the program owes at a call, `post` what it may rely on.
-/
namespace Programs

inductive Prog (S : Type) (R : S → Type) (A : Type) where
  | ret (a : A)
  | call (s : S) (next : R s → Prog S R A)

structure Env (S : Type) (R : S → Type) (G : Type) where
  pre : G → S → Prop
  post : G → (s : S) → R s → G → Prop

variable {S : Type} {R : S → Type} {A B G M : Type}

def Prog.bind : Prog S R A → (A → Prog S R B) → Prog S R B
  | .ret a, f => f a
  | .call s next, f => .call s fun r => (next r).bind f

theorem Prog.bind_assoc {C : Type} (p : Prog S R A) (f : A → Prog S R B) (g : B → Prog S R C) :
    (p.bind f).bind g = p.bind fun a => (f a).bind g := by
  induction p with
  | ret a => rfl
  | call s next ih => simp only [Prog.bind, ih]

def wp (e : Env S R G) : Prog S R A → (A → G → Prop) → G → Prop
  | .ret a, Q, g => Q a g
  | .call s next, Q, g => e.pre g s ∧ ∀ r h, e.post g s r h → wp e (next r) Q h

/-- A host that answers every call. -/
def run (exec : M → (s : S) → R s × M) : Prog S R A → M → A × M
  | .ret a, m => (a, m)
  | .call s next, m => run exec (next (exec m s).1) (exec m s).2

variable {e : Env S R G}

theorem wp_bind {p : Prog S R A} {f : A → Prog S R B} {Q : B → G → Prop} {g : G} :
    wp e (p.bind f) Q g ↔ wp e p (fun a h => wp e (f a) Q h) g := by
  induction p generalizing g with
  | ret a => simp [Prog.bind, wp]
  | call s next ih => simp only [Prog.bind, wp, ih]

theorem wp_mono {p : Prog S R A} {Q Q' : A → G → Prop} {g : G}
    (weaker : ∀ a h, Q a h → Q' a h) (meets : wp e p Q g) : wp e p Q' g := by
  induction p generalizing g with
  | ret a => exact weaker a g meets
  | call s next ih =>
    obtain ⟨owed, later⟩ := meets
    exact ⟨owed, fun r h relied => ih r (later r h relied)⟩

/-- A host that keeps the contract makes what `wp` promises true. -/
theorem run_meets {exec : M → (s : S) → R s × M} {world : M → G} {ok : M → Prop}
    (sound : ∀ m s, ok m → e.pre (world m) s →
      e.post (world m) s (exec m s).1 (world (exec m s).2) ∧ ok (exec m s).2)
    {p : Prog S R A} {Q : A → G → Prop} {m : M} (fine : ok m) (meets : wp e p Q (world m)) :
    Q (run exec p m).1 (world (run exec p m).2) ∧ ok (run exec p m).2 := by
  induction p generalizing m with
  | ret a => exact ⟨meets, fine⟩
  | call s next ih =>
    obtain ⟨owed, later⟩ := meets
    obtain ⟨relied, still⟩ := sound m s fine owed
    exact ih (exec m s).1 still (later _ _ relied)

/-- The contract whose only host is this one, so that the rules for `wp` evaluate its runs. -/
def answers (exec : M → (s : S) → R s × M) : Env S R M where
  pre _ _ := True
  post m s r h := exec m s = (r, h)

theorem wp_answers {exec : M → (s : S) → R s × M} {p : Prog S R A} {Q : A → M → Prop} {m : M} :
    wp (answers exec) p Q m ↔ Q (run exec p m).1 (run exec p m).2 := by
  induction p generalizing m with
  | ret a => exact Iff.rfl
  | call s next ih =>
    simp only [wp, answers, run, true_and]
    constructor
    · intro later
      exact ih _ |>.mp (later _ _ rfl)
    · intro here r h reply
      obtain rfl : (exec m s).1 = r := congrArg Prod.fst reply
      obtain rfl : (exec m s).2 = h := congrArg Prod.snd reply
      exact (ih _).mpr here

/-- A computation with a local state and exceptions; an exception keeps the state. -/
def Comp (S : Type) (R : S → Type) (L E A : Type) : Type := L → Prog S R (Except E A × L)

namespace Comp
variable {L K E : Type}

def pure (a : A) : Comp S R L E A := fun l => .ret (.ok a, l)

def throw (err : E) : Comp S R L E A := fun l => .ret (.error err, l)

def bind (x : Comp S R L E A) (f : A → Comp S R L E B) : Comp S R L E B := fun l =>
  (x l).bind fun r =>
    match r.1 with
    | .ok a => f a r.2
    | .error err => .ret (.error err, r.2)

instance : Monad (Comp S R L E) where
  pure := Comp.pure
  bind := Comp.bind

def get : Comp S R L E L := fun l => .ret (.ok l, l)

def modify (f : L → L) : Comp S R L E Unit := fun l => .ret (.ok (), f l)

def call (s : S) : Comp S R L E (R s) := fun l => .call s fun r => .ret (.ok r, l)

/-- The handler runs in the state the exception left. -/
def catching (x : Comp S R L E A) (handler : E → Comp S R L E A) : Comp S R L E A := fun l =>
  (x l).bind fun r =>
    match r.1 with
    | .ok a => .ret (.ok a, r.2)
    | .error err => handler err r.2

/-- Runs a computation on a part of the local state. -/
def zoom (part : L → K) (put : K → L → L) (x : Comp S R K E A) : Comp S R L E A := fun l =>
  (x (part l)).bind fun r => .ret (r.1, put r.2 l)

theorem bind_assoc {C : Type} (x : Comp S R L E A) (f : A → Comp S R L E B)
    (g : B → Comp S R L E C) : (x >>= f) >>= g = x >>= fun a => f a >>= g := by
  funext l
  show ((x l).bind _).bind _ = (x l).bind _
  rw [Prog.bind_assoc]
  congr 1
  funext r
  obtain ⟨r, k⟩ := r
  cases r <;> rfl

theorem pure_bind (a : A) (f : A → Comp S R L E B) : (Pure.pure a : Comp S R L E A) >>= f = f a :=
  rfl

section zoom
variable {part : L → K} {put : K → L → L}

theorem zoom_pure (same : ∀ l, put (part l) l = l) (a : A) :
    zoom part put (Pure.pure a : Comp S R K E A) = (Pure.pure a : Comp S R L E A) := by
  funext l
  show Prog.ret (Except.ok a, put (part l) l) = _
  rw [same]
  rfl

theorem zoom_bind (got : ∀ k l, part (put k l) = k) (twice : ∀ k h l, put k (put h l) = put k l)
    (x : Comp S R K E A) (f : A → Comp S R K E B) :
    zoom part put (x >>= f) = zoom part put x >>= fun a => zoom part put (f a) := by
  funext l
  show ((x (part l)).bind _).bind _ = ((x (part l)).bind _).bind _
  rw [Prog.bind_assoc, Prog.bind_assoc]
  congr 1
  funext r
  obtain ⟨r, k⟩ := r
  cases r with
  | ok a =>
    show (f a k).bind _ = (f a (part (put k l))).bind _
    rw [got]
    simp only [twice]
  | error err => rfl

/-- What follows sees the rest of the state as it was. -/
theorem zoom_bind_congr {x : Comp S R K E A} {f g : A → Comp S R L E B} {l : L}
    (agree : ∀ a k, f a (put k l) = g a (put k l)) :
    (zoom part put x >>= f) l = (zoom part put x >>= g) l := by
  show ((x (part l)).bind _).bind _ = ((x (part l)).bind _).bind _
  rw [Prog.bind_assoc, Prog.bind_assoc]
  congr 1
  funext r
  obtain ⟨r, k⟩ := r
  cases r with
  | ok a => exact agree a k
  | error err => rfl

end zoom

/-- The weakest precondition of a computation; the postcondition sees both ways to end. -/
def ensures (e : Env S R G) (x : Comp S R L E A) (Q : Except E A → L → G → Prop) (l : L) (g : G) :
    Prop :=
  wp e (x l) (fun r h => Q r.1 r.2 h) g

/-- A postcondition by cases on how the computation ended. -/
def either (good : A → L → G → Prop) (bad : E → L → G → Prop) : Except E A → L → G → Prop
  | .ok a => good a
  | .error err => bad err

@[simp] theorem either_ok {good : A → L → G → Prop} {bad : E → L → G → Prop} {a : A} :
    either good bad (.ok a) = good a := rfl

@[simp] theorem either_error {good : A → L → G → Prop} {bad : E → L → G → Prop} {err : E} :
    either good bad (.error err) = bad err := rfl

variable {Q : Except E A → L → G → Prop} {l : L} {g : G}

@[simp] theorem ensures_pure {a : A} :
    ensures e (Pure.pure a : Comp S R L E A) Q l g ↔ Q (.ok a) l g := Iff.rfl

@[simp] theorem ensures_throw {err : E} :
    ensures e (throw err : Comp S R L E A) Q l g ↔ Q (.error err) l g := Iff.rfl

@[simp] theorem ensures_get {Q : Except E L → L → G → Prop} :
    ensures e (get : Comp S R L E L) Q l g ↔ Q (.ok l) l g := Iff.rfl

@[simp] theorem ensures_modify {f : L → L} {Q : Except E Unit → L → G → Prop} :
    ensures e (modify f : Comp S R L E Unit) Q l g ↔ Q (.ok ()) (f l) g := Iff.rfl

theorem ensures_call {s : S} {Q : Except E (R s) → L → G → Prop} :
    ensures e (call s : Comp S R L E (R s)) Q l g ↔
      e.pre g s ∧ ∀ r h, e.post g s r h → Q (.ok r) l h := Iff.rfl

theorem ensures_mono {x : Comp S R L E A} {Q' : Except E A → L → G → Prop}
    (meets : ensures e x Q l g) (weaker : ∀ r k h, Q r k h → Q' r k h) : ensures e x Q' l g :=
  wp_mono (fun r h q => weaker r.1 r.2 h q) meets

@[simp] theorem ensures_bind {x : Comp S R L E A} {f : A → Comp S R L E B}
    {Q : Except E B → L → G → Prop} :
    ensures e (x >>= f) Q l g ↔
      ensures e x (either (fun a => ensures e (f a) Q) (fun err => Q (.error err))) l g := by
  show wp e (Comp.bind x f l) _ g ↔ _
  simp only [Comp.bind, wp_bind, ensures]
  constructor
  · apply wp_mono
    rintro ⟨r, k⟩ h q
    cases r <;> exact q
  · apply wp_mono
    rintro ⟨r, k⟩ h q
    cases r <;> exact q

theorem ensures_catching {x : Comp S R L E A} {handler : E → Comp S R L E A} :
    ensures e (catching x handler) Q l g ↔
      ensures e x (either (fun a => Q (.ok a)) (fun err => ensures e (handler err) Q)) l g := by
  simp only [catching, wp_bind, ensures]
  constructor
  · apply wp_mono
    rintro ⟨r, k⟩ h q
    cases r <;> exact q
  · apply wp_mono
    rintro ⟨r, k⟩ h q
    cases r <;> exact q

theorem ensures_zoom {part : L → K} {put : K → L → L} {x : Comp S R K E A} :
    ensures e (zoom part put x) Q l g ↔
      ensures e x (fun r k h => Q r (put k l) h) (part l) g := by
  simp only [zoom, wp_bind, ensures, wp]

section leaves
variable {V : Type} {view : L → G → V}

/-- However the computation ends, what is in view stays as it is. -/
def leaves (e : Env S R G) (view : L → G → V) (x : Comp S R L E A) : Prop :=
  ∀ l g, ensures e x (fun _ k h => view k h = view l g) l g

theorem leaves_pure (a : A) : leaves e view (Pure.pure a : Comp S R L E A) := fun _ _ => rfl

theorem leaves_throw (err : E) : leaves e view (throw err : Comp S R L E A) := fun _ _ => rfl

theorem leaves_get : leaves e view (get : Comp S R L E L) := fun _ _ => rfl

theorem leaves_modify {f : L → L} (same : ∀ l g, view (f l) g = view l g) :
    leaves e view (modify f : Comp S R L E Unit) := same

theorem leaves_call {s : S} (may : ∀ g, e.pre g s)
    (same : ∀ l g r h, e.post g s r h → view l h = view l g) :
    leaves e view (call s : Comp S R L E (R s)) :=
  fun l g => ensures_call.mpr ⟨may g, fun r h => same l g r h⟩

theorem leaves_bind {x : Comp S R L E A} {f : A → Comp S R L E B} (head : leaves e view x)
    (tail : ∀ a, leaves e view (f a)) : leaves e view (x >>= f) := by
  intro l g
  rw [ensures_bind]
  refine ensures_mono (head l g) fun r k h same => ?_
  cases r with
  | ok a => exact ensures_mono (tail a k h) fun _ _ _ later => later.trans same
  | error err => exact same

theorem leaves_catching {x : Comp S R L E A} {handler : E → Comp S R L E A}
    (tried : leaves e view x) (handled : ∀ err, leaves e view (handler err)) :
    leaves e view (catching x handler) := by
  intro l g
  rw [ensures_catching]
  refine ensures_mono (tried l g) fun r k h same => ?_
  cases r with
  | ok a => exact same
  | error err => exact ensures_mono (handled err k h) fun _ _ _ later => later.trans same

/-- Only a part of the state is in view. -/
theorem leaves_zoom {part : L → K} {put : K → L → L} {view : K → G → V}
    (got : ∀ k l, part (put k l) = k) {x : Comp S R K E A} (inner : leaves e view x) :
    leaves e (fun l g => view (part l) g) (zoom part put x) := by
  intro l g
  rw [ensures_zoom]
  refine ensures_mono (inner (part l) g) fun _ k h same => ?_
  show view (part (put k l)) h = view (part l) g
  rw [got]
  exact same

theorem leaves_mono {W : Type} {x : Comp S R L E A} (f : V → W) (wide : leaves e view x) :
    leaves e (fun l g => f (view l g)) x :=
  fun l g => ensures_mono (wide l g) fun _ _ _ same => congrArg f same

end leaves

/-- Runs a computation on a host. -/
def exec (host : M → (s : S) → R s × M) (x : Comp S R L E A) (l : L) (m : M) : Except E A × L × M :=
  ((run host (x l) m).1.1, (run host (x l) m).1.2, (run host (x l) m).2)

theorem exec_meets {host : M → (s : S) → R s × M} {world : M → G} {ok : M → Prop}
    (sound : ∀ m s, ok m → e.pre (world m) s →
      e.post (world m) s (host m s).1 (world (host m s).2) ∧ ok (host m s).2)
    {x : Comp S R L E A} {m : M} (fine : ok m) (meets : ensures e x Q l (world m)) :
    Q (exec host x l m).1 (exec host x l m).2.1 (world (exec host x l m).2.2) ∧
      ok (exec host x l m).2.2 :=
  run_meets sound fine meets

theorem ensures_call_answers {host : M → (s : S) → R s × M} {s : S}
    {Q : Except E (R s) → L → M → Prop} {m : M} :
    ensures (answers host) (call s : Comp S R L E (R s)) Q l m ↔
      Q (.ok (host m s).1) l (host m s).2 := by
  rw [ensures_call]
  constructor
  · rintro ⟨_, later⟩
    exact later _ _ rfl
  · intro now
    refine ⟨trivial, fun r h reply => ?_⟩
    obtain rfl : (host m s).1 = r := congrArg Prod.fst reply
    obtain rfl : (host m s).2 = h := congrArg Prod.snd reply
    exact now

theorem ensures_answers {host : M → (s : S) → R s × M} {x : Comp S R L E A}
    {Q : Except E A → L → M → Prop} {m : M} :
    ensures (answers host) x Q l m ↔
      Q (exec host x l m).1 (exec host x l m).2.1 (exec host x l m).2.2 := wp_answers

theorem exec_map {host : M → (s : S) → R s × M} (f : A → B) (x : Comp S R L E A) (l : L) (m : M) :
    (exec host (x >>= fun a => Pure.pure (f a)) l m).1 = (exec host x l m).1.map f := by
  have mapped : ensures (answers host) (x >>= fun a => (Pure.pure (f a) : Comp S R L E B))
      (fun r _ _ => r = (exec host x l m).1.map f) l m := by
    rw [ensures_bind, ensures_answers]
    cases (exec host x l m).1 with
    | ok a => rfl
    | error err => rfl
  exact ensures_answers.mp mapped

theorem exec_map_rest {host : M → (s : S) → R s × M} (f : A → B) (x : Comp S R L E A) (l : L)
    (m : M) : (exec host (x >>= fun a => Pure.pure (f a)) l m).2 = (exec host x l m).2 := by
  have mapped : ensures (answers host) (x >>= fun a => (Pure.pure (f a) : Comp S R L E B))
      (fun _ k h => (k, h) = (exec host x l m).2) l m := by
    rw [ensures_bind, ensures_answers]
    cases (exec host x l m).1 with
    | ok a => rfl
    | error err => rfl
  exact ensures_answers.mp mapped

section recording

/-- A host that also records whether it gave a reply of some kind. -/
def recording (host : M → (s : S) → R s × M) (seen : (s : S) → R s → Bool) (m : M × Bool) (s : S) :
    R s × (M × Bool) :=
  ((host m.1 s).1, (host m.1 s).2, m.2 || seen s (host m.1 s).1)

/-- The record does not change what is computed. -/
theorem exec_recording (host : M → (s : S) → R s × M) (seen : (s : S) → R s → Bool)
    (x : Comp S R L E A) (l : L) (m : M) (b : Bool) :
    exec host x l m = ((exec (recording host seen) x l (m, b)).1,
      (exec (recording host seen) x l (m, b)).2.1,
      (exec (recording host seen) x l (m, b)).2.2.1) := by
  have onProg : ∀ (p : Prog S R (Except E A × L)) (m : M) (b : Bool),
      run host p m =
        ((run (recording host seen) p (m, b)).1, (run (recording host seen) p (m, b)).2.1) := by
    intro p
    induction p with
    | ret a => exact fun _ _ => rfl
    | call s next ih => exact fun m b => ih _ _ _
  unfold exec
  rw [onProg (x l) m b]

end recording

section erases

/-- The first computation is the second one on a part of its state. -/
def erases (part : L → K) (x : Comp S R L E A) (y : Comp S R K E A) : Prop :=
  ∀ l, ((x l).bind fun r => .ret (r.1, part r.2)) = y (part l)

variable {part : L → K}

theorem erases_pure (a : A) :
    erases part (Pure.pure a : Comp S R L E A) (Pure.pure a) := fun _ => rfl

theorem erases_throw (err : E) :
    erases part (throw err : Comp S R L E A) (throw err) := fun _ => rfl

theorem erases_zoom {put : K → L → L} (got : ∀ k l, part (put k l) = k)
    (x : Comp S R K E A) : erases part (zoom part put x) x := by
  intro l
  show ((x (part l)).bind _).bind _ = x (part l)
  rw [Prog.bind_assoc]
  have same : ∀ p : Prog S R (Except E A × K),
      (p.bind fun r => (Prog.ret (r.1, put r.2 l)).bind fun r => Prog.ret (r.1, part r.2)) = p := by
    intro p
    induction p with
    | ret a => simp only [Prog.bind, got]
    | call s next ih => exact congrArg (Prog.call s) (funext ih)
  exact same (x (part l))

theorem erases_bind {x : Comp S R L E A} {y : Comp S R K E A} {f : A → Comp S R L E B}
    {g : A → Comp S R K E B} (head : erases part x y) (tail : ∀ a, erases part (f a) (g a)) :
    erases part (x >>= f) (y >>= g) := by
  intro l
  show ((x l).bind _).bind _ = (y (part l)).bind _
  rw [← head l, Prog.bind_assoc, Prog.bind_assoc]
  congr 1
  funext r
  obtain ⟨r, k⟩ := r
  cases r with
  | ok a => exact tail a k
  | error err => rfl

theorem erases_catching {x : Comp S R L E A} {y : Comp S R K E A} {f : E → Comp S R L E A}
    {g : E → Comp S R K E A} (tried : erases part x y) (handled : ∀ err, erases part (f err) (g err)) :
    erases part (catching x f) (catching y g) := by
  intro l
  show ((x l).bind _).bind _ = (y (part l)).bind _
  rw [← tried l, Prog.bind_assoc, Prog.bind_assoc]
  congr 1
  funext r
  obtain ⟨r, k⟩ := r
  cases r with
  | ok a => rfl
  | error err => exact handled err k

/-- What is done to the rest of the state does not show. -/
theorem erases_modify {f : L → L} (same : ∀ l, part (f l) = part l) {x : Comp S R L E A}
    {y : Comp S R K E A} (tail : erases part x y) :
    erases part ((modify f : Comp S R L E Unit) >>= fun _ => x) y := by
  intro l
  show ((x (f l)).bind _) = _
  rw [tail (f l), same]

end erases

end Comp

end Programs
