import Dropbox.General.Transitions

/-!
Refinement between transition systems. Seen through `view` a step is a step of the
specification, or it is silent: then it lowers `silent`, which no step raises. In the other
direction an implementation follows its specification step by step.
-/
namespace Stuttering
open Transitions
variable {S A T B : Type}

structure Refines (step : S → A → Option S) (spec : T → B → Option T) (view : S → T)
    (inv : S → Prop) (silent : S → Nat) : Prop where
  keeps : ∀ s a t, inv s → step s a = some t → inv t
  follows : ∀ s a t, inv s → step s a = some t →
    (view t = view s ∧ silent t < silent s) ∨
      (silent t ≤ silent s ∧ ∃ b, spec (view s) b = some (view t))

variable {step : S → A → Option S} {spec : T → B → Option T} {view : S → T} {inv : S → Prop}
  {silent : S → Nat}

theorem Refines.reachable (refines : Refines step spec view inv silent) {s t : S}
    (reach : Reachable step s t) (start : inv s) : inv t ∧ Reachable spec (view s) (view t) := by
  obtain ⟨actions, run⟩ := reach
  induction actions generalizing s with
  | nil =>
    obtain rfl : s = t := by simpa [runs] using run
    exact ⟨start, reachable_refl _⟩
  | cons a rest ih =>
    obtain ⟨m, head, tail⟩ := runs_cons.mp run
    obtain ⟨sound, later⟩ := ih (refines.keeps s a m start head) tail
    refine ⟨sound, ?_⟩
    cases refines.follows s a m start head with
    | inl hidden =>
      rw [hidden.1] at later
      exact later
    | inr seen =>
      obtain ⟨_, b, taken⟩ := seen
      exact reachable_trans ⟨[b], runs_cons.mpr ⟨view m, taken, rfl⟩⟩ later

/-- What the specification's steps lower bounds the runs of the refinement, with its silent steps
    on top. -/
theorem Refines.length_bounded (refines : Refines step spec view inv silent) {upper : T → Prop}
    {measure : T → Nat} (preserved : ∀ s a t, upper s → spec s a = some t → upper t)
    (decreases : ∀ s a t, upper s → spec s a = some t → measure t < measure s) {s t : S}
    {actions : List A} (run : runs step s actions = some t) (start : inv s)
    (begins : upper (view s)) : actions.length ≤ measure (view s) + silent s := by
  have preserved' : ∀ s a t, (inv s ∧ upper (view s)) → step s a = some t →
      inv t ∧ upper (view t) := by
    rintro s a t ⟨sound, above⟩ taken
    refine ⟨refines.keeps s a t sound taken, ?_⟩
    cases refines.follows s a t sound taken with
    | inl hidden =>
      rw [hidden.1]
      exact above
    | inr seen =>
      obtain ⟨_, b, taken'⟩ := seen
      exact preserved _ b _ above taken'
  have decreases' : ∀ s a t, (inv s ∧ upper (view s)) → step s a = some t →
      measure (view t) + silent t < measure (view s) + silent s := by
    rintro s a t ⟨sound, above⟩ taken
    cases refines.follows s a t sound taken with
    | inl hidden =>
      rw [hidden.1]
      omega
    | inr seen =>
      obtain ⟨kept, b, taken'⟩ := seen
      have lower := decreases _ b _ above taken'
      omega
  have bounded := run_length_bounded preserved' decreases' run ⟨start, begins⟩
  omega

/-- A relation that every step of the specification keeps, with a step under the same label,
    takes its runs to runs of the implementation. -/
theorem runs_follow {spec : T → A → Option T} (rel : S → T → Prop)
    (follows : ∀ s t a t', rel s t → spec t a = some t' → ∃ s', step s a = some s' ∧ rel s' t')
    {s : S} {t t' : T} {actions : List A} (run : runs spec t actions = some t')
    (start : rel s t) : ∃ s', runs step s actions = some s' ∧ rel s' t' := by
  induction actions generalizing s t with
  | nil =>
    obtain rfl : t = t' := by simpa [runs] using run
    exact ⟨s, rfl, start⟩
  | cons a rest ih =>
    obtain ⟨m, head, tail⟩ := runs_cons.mp run
    obtain ⟨n, taken, there⟩ := follows s t a m start head
    obtain ⟨s', ran, related⟩ := ih tail there
    exact ⟨s', runs_cons.mpr ⟨n, taken, ran⟩, related⟩

/-- Among actions that never raise a measure, those that lower it are few. -/
theorem own_steps_bounded {measure : S → Nat} (own : A → Bool)
    (preserved : ∀ s a t, inv s → step s a = some t → inv t)
    (never : ∀ s a t, inv s → step s a = some t → measure t ≤ measure s)
    (decreases : ∀ s a t, inv s → own a = true → step s a = some t → measure t < measure s)
    {s t : S} {actions : List A} (run : runs step s actions = some t) (start : inv s) :
    (actions.filter own).length + measure t ≤ measure s := by
  induction actions generalizing s with
  | nil =>
    obtain rfl : s = t := by simpa [runs] using run
    simp
  | cons a rest ih =>
    obtain ⟨m, head, tail⟩ := runs_cons.mp run
    have later := ih tail (preserved s a m start head)
    have now := never s a m start head
    cases mine : own a with
    | true =>
      have lower := decreases s a m start mine head
      rw [List.filter_cons_of_pos mine, List.length_cons]
      omega
    | false =>
      rw [List.filter_cons_of_neg (by simp [mine])]
      omega

end Stuttering
