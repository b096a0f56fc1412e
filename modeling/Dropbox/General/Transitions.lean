import Mathlib.Data.List.Basic

/-!
Partial labelled transition systems. In a state an action is either impossible
(`none`) or has one successor; a run is a list of actions, each possible where
it is taken. Interleavings of several parties are runs whose labels say who acts.
-/
namespace Transitions
variable {S A : Type}

def runs (step : S → A → Option S) : S → List A → Option S
  | s, [] => some s
  | s, a :: rest => (step s a).bind fun t => runs step t rest

/-- Every step of the run is taken in a state where `allowed` holds of it. -/
def Allowed (step : S → A → Option S) (allowed : S → A → Prop) : S → List A → Prop
  | _, [] => True
  | s, a :: rest => allowed s a ∧ ∀ t, step s a = some t → Allowed step allowed t rest

def Reachable (step : S → A → Option S) (start s : S) : Prop :=
  ∃ actions, runs step start actions = some s

/-- The property holds in every state the run comes to. -/
def Along (step : S → A → Option S) (good : S → Prop) (s : S) (actions : List A) : Prop :=
  ∀ before t, before <+: actions → runs step s before = some t → good t

/-- No action is possible. -/
def Stuck (step : S → A → Option S) (s : S) : Prop := ∀ a, step s a = none

variable {step : S → A → Option S}

theorem runs_cons {s t : S} {a : A} {rest : List A} :
    runs step s (a :: rest) = some t ↔ ∃ m, step s a = some m ∧ runs step m rest = some t := by
  simp only [runs, Option.bind_eq_some_iff]

theorem runs_append {s t : S} {before after : List A} :
    runs step s (before ++ after) = some t ↔
      ∃ m, runs step s before = some m ∧ runs step m after = some t := by
  induction before generalizing s with
  | nil => simp [runs]
  | cons a before ih =>
    rw [List.cons_append, runs_cons]
    constructor
    · rintro ⟨m, first, rest⟩
      obtain ⟨k, left, right⟩ := ih.mp rest
      exact ⟨k, runs_cons.mpr ⟨m, first, left⟩, right⟩
    · rintro ⟨k, left, right⟩
      obtain ⟨m, first, rest⟩ := runs_cons.mp left
      exact ⟨m, first, ih.mpr ⟨k, rest, right⟩⟩

theorem allowed_cons {allowed : S → A → Prop} {s m : S} {a : A} {rest : List A}
    (head : step s a = some m) (first : allowed s a) (later : Allowed step allowed m rest) :
    Allowed step allowed s (a :: rest) := by
  refine ⟨first, fun t same => ?_⟩
  obtain rfl : m = t := Option.some.inj (head.symm.trans same)
  exact later

theorem allowed_everywhere {allowed : S → A → Prop} (always : ∀ s a, allowed s a) (s : S)
    (actions : List A) : Allowed step allowed s actions := by
  induction actions generalizing s with
  | nil => trivial
  | cons a rest ih => exact ⟨always s a, fun t _ => ih t⟩

/-- A condition on the actions alone. -/
theorem allowed_of_mem {allowed : A → Prop} {s : S} {actions : List A}
    (all : ∀ a ∈ actions, allowed a) : Allowed step (fun _ a => allowed a) s actions := by
  induction actions generalizing s with
  | nil => trivial
  | cons a rest ih =>
    refine ⟨all a List.mem_cons_self, fun t _ => ih fun b member => ?_⟩
    exact all b (List.mem_cons_of_mem _ member)

def decideAllowed (allowed : S → A → Prop) [∀ s a, Decidable (allowed s a)] :
    (s : S) → (actions : List A) → Decidable (Allowed step allowed s actions)
  | _, [] => isTrue trivial
  | s, a :: rest =>
    match head : step s a with
    | none => decidable_of_iff (allowed s a) (by simp [Allowed, head])
    | some m =>
      have := decideAllowed allowed m rest
      decidable_of_iff (allowed s a ∧ Allowed step allowed m rest) (by simp [Allowed, head])

instance {allowed : S → A → Prop} [∀ s a, Decidable (allowed s a)] (s : S) (actions : List A) :
    Decidable (Allowed step allowed s actions) := decideAllowed allowed s actions

theorem allowed_append {allowed : S → A → Prop} {s m : S} {before after : List A}
    (ok : Allowed step allowed s (before ++ after)) (run : runs step s before = some m) :
    Allowed step allowed s before ∧ Allowed step allowed m after := by
  induction before generalizing s with
  | nil =>
    obtain rfl : s = m := by simpa [runs] using run
    exact ⟨trivial, ok⟩
  | cons a before ih =>
    obtain ⟨first, later⟩ := ok
    obtain ⟨k, head, tail⟩ := runs_cons.mp run
    refine ⟨⟨first, ?_⟩, (ih (later k head) tail).2⟩
    intro t same
    obtain rfl : k = t := Option.some.inj (head.symm.trans same)
    exact (ih (later k head) tail).1

theorem reachable_refl (s : S) : Reachable step s s := ⟨[], rfl⟩

theorem reachable_trans {a b c : S} (first : Reachable step a b) (second : Reachable step b c) :
    Reachable step a c := by
  obtain ⟨xs, hx⟩ := first
  obtain ⟨ys, hy⟩ := second
  exact ⟨xs ++ ys, runs_append.mpr ⟨b, hx, hy⟩⟩

/-- Induction over a run: what every possible step preserves holds at its end. -/
theorem invariant_of_runs {inv : S → Prop}
    (preserved : ∀ s a t, inv s → step s a = some t → inv t)
    {s t : S} {actions : List A} (run : runs step s actions = some t) (start : inv s) : inv t := by
  induction actions generalizing s with
  | nil =>
    obtain rfl : s = t := by simpa [runs] using run
    exact start
  | cons a rest ih =>
    obtain ⟨m, head, tail⟩ := runs_cons.mp run
    exact ih tail (preserved s a m start head)

theorem invariant_of_reachable {inv : S → Prop}
    (preserved : ∀ s a t, inv s → step s a = some t → inv t)
    {s t : S} (reach : Reachable step s t) (start : inv s) : inv t := by
  obtain ⟨_, run⟩ := reach
  exact invariant_of_runs preserved run start

/-- The same induction over the runs whose steps all meet a condition. -/
theorem invariant_of_allowed {inv : S → Prop} {allowed : S → A → Prop}
    (preserved : ∀ s a t, inv s → allowed s a → step s a = some t → inv t)
    {s t : S} {actions : List A} (ok : Allowed step allowed s actions)
    (run : runs step s actions = some t) (start : inv s) : inv t := by
  induction actions generalizing s with
  | nil =>
    obtain rfl : s = t := by simpa [runs] using run
    exact start
  | cons a rest ih =>
    obtain ⟨m, head, tail⟩ := runs_cons.mp run
    exact ih (ok.2 m head) tail (preserved s a m start ok.1 head)

/-- What an invariant of the allowed runs says about every step taken in one. -/
theorem allowed_of_invariant {inv : S → Prop} {allowed also : S → A → Prop}
    (preserved : ∀ s a t, inv s → allowed s a → step s a = some t → inv t)
    (gives : ∀ s a, inv s → allowed s a → also s a) {s : S} {actions : List A}
    (ok : Allowed step allowed s actions) (start : inv s) : Allowed step also s actions := by
  induction actions generalizing s with
  | nil => trivial
  | cons a rest ih =>
    refine ⟨gives s a start ok.1, fun t head => ?_⟩
    exact ih (ok.2 t head) (preserved s a t start ok.1 head)

/-- Where a condition on the step is enough to take it and to meet what the next one needs, the
    run goes through. -/
theorem run_of_allowed {good : S → Prop} {allowed : S → A → Prop}
    (progress : ∀ s a, good s → allowed s a → ∃ t, step s a = some t ∧ good t) {s : S}
    {actions : List A} (start : good s) (ok : Allowed step allowed s actions) :
    ∃ t, runs step s actions = some t := by
  induction actions generalizing s with
  | nil => exact ⟨s, rfl⟩
  | cons a rest ih =>
    obtain ⟨m, head, there⟩ := progress s a start ok.1
    obtain ⟨t, tail⟩ := ih there (ok.2 m head)
    exact ⟨t, runs_cons.mpr ⟨m, head, tail⟩⟩

theorem along_cons {good : S → Prop} {s m : S} {a : A} {rest : List A}
    (head : step s a = some m) :
    Along step good s (a :: rest) ↔ good s ∧ Along step good m rest := by
  constructor
  · intro along
    refine ⟨along [] s (List.nil_prefix) rfl, fun before t within run => ?_⟩
    refine along (a :: before) t ((List.prefix_cons_inj a).mpr within) ?_
    exact runs_cons.mpr ⟨m, head, run⟩
  · rintro ⟨here, later⟩ before t within run
    cases before with
    | nil =>
      obtain rfl : s = t := by simpa [runs] using run
      exact here
    | cons b before =>
      obtain ⟨rfl, inside⟩ := List.cons_prefix_cons.mp within
      obtain ⟨k, first, tail⟩ := runs_cons.mp run
      obtain rfl : m = k := Option.some.inj (head.symm.trans first)
      exact later before t inside tail

theorem along_of_allowed {inv : S → Prop} {allowed : S → A → Prop}
    (preserved : ∀ s a t, inv s → allowed s a → step s a = some t → inv t)
    {s : S} {actions : List A} (ok : Allowed step allowed s actions) (start : inv s) :
    Along step inv s actions := by
  rintro before t ⟨after, rfl⟩ run
  exact invariant_of_allowed preserved (allowed_append ok run).1 run start

/-- Where a condition on the step says exactly whether a step keeps the property, the runs along
    which it holds are those whose steps all meet the condition. -/
theorem along_iff_allowed {inv good : S → Prop} {allowed : S → A → Prop}
    (preserved : ∀ s a t, inv s → step s a = some t → inv t)
    (exact : ∀ s a t, inv s → good s → step s a = some t → (good t ↔ allowed s a))
    {s t : S} {actions : List A} (run : runs step s actions = some t) (sound : inv s)
    (start : good s) : Along step good s actions ↔ Allowed step allowed s actions := by
  induction actions generalizing s with
  | nil =>
    refine iff_of_true (fun before t within run => ?_) trivial
    obtain rfl := List.prefix_nil.mp within
    obtain rfl : s = t := by simpa [runs] using run
    exact start
  | cons a rest ih =>
    obtain ⟨m, head, tail⟩ := runs_cons.mp run
    have keeps := exact s a m sound start head
    have sound' := preserved s a m sound head
    rw [along_cons head]
    constructor
    · rintro ⟨_, later⟩
      have there : good m := later [] m List.nil_prefix rfl
      refine ⟨keeps.mp there, fun k same => ?_⟩
      obtain rfl : m = k := Option.some.inj (head.symm.trans same)
      exact (ih tail sound' there).mp later
    · rintro ⟨first, later⟩
      exact ⟨start, (ih tail sound' (keeps.mpr first)).mpr (later m head)⟩

/-- The same where a run may stop short, under a further condition on its steps. -/
theorem along_iff_allowed_given {good : S → Prop} {given allowed : S → A → Prop}
    (exact : ∀ s a t, good s → given s a → step s a = some t → (good t ↔ allowed s a))
    (stops : ∀ s a, good s → given s a → step s a = none → allowed s a)
    {s : S} {actions : List A} (ok : Allowed step given s actions) (start : good s) :
    Along step good s actions ↔ Allowed step allowed s actions := by
  induction actions generalizing s with
  | nil =>
    refine iff_of_true (fun before t within run => ?_) trivial
    obtain rfl := List.prefix_nil.mp within
    obtain rfl : s = t := by simpa [runs] using run
    exact start
  | cons a rest ih =>
    cases head : step s a with
    | none =>
      refine iff_of_true ?_ ⟨stops s a start ok.1 head, fun t taken => ?_⟩
      · intro before t within run
        cases before with
        | nil =>
          obtain rfl : s = t := by simpa [runs] using run
          exact start
        | cons b before =>
          obtain ⟨rfl, _⟩ := List.cons_prefix_cons.mp within
          obtain ⟨k, first, _⟩ := runs_cons.mp run
          rw [head] at first
          cases first
      · rw [head] at taken
        cases taken
    | some m =>
      have keeps := exact s a m start ok.1 head
      rw [along_cons head]
      constructor
      · rintro ⟨_, later⟩
        have there : good m := later [] m List.nil_prefix rfl
        exact allowed_cons head (keeps.mp there) ((ih (ok.2 m head) there).mp later)
      · rintro ⟨first, later⟩
        exact ⟨start, (ih (ok.2 m head) (keeps.mpr first)).mpr (later m head)⟩

/-- A measure that every step lowers bounds the length of every run. -/
theorem run_length_bounded {inv : S → Prop} {measure : S → Nat}
    (preserved : ∀ s a t, inv s → step s a = some t → inv t)
    (decreases : ∀ s a t, inv s → step s a = some t → measure t < measure s)
    {s t : S} {actions : List A} (run : runs step s actions = some t) (start : inv s) :
    actions.length + measure t ≤ measure s := by
  induction actions generalizing s with
  | nil =>
    obtain rfl : s = t := by simpa [runs] using run
    simp
  | cons a rest ih =>
    obtain ⟨m, head, tail⟩ := runs_cons.mp run
    have later := ih tail (preserved s a m start head)
    have now := decreases s a m start head
    simp only [List.length_cons]
    omega

end Transitions
