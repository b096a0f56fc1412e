import Dropbox.General.Transitions

/-!
Unwinding. One party sees a part of the state. If its own steps give the same view from
states that look the same to it, and the steps of the others do not show, then what it
sees of a run is a run of its own steps alone, from any state that looks the same.
-/
namespace Unwinding
open Transitions
variable {S A : Type} {step : S → A → Option S} {allowed : S → A → Prop} {inv inv' : S → Prop}
  {sees : S → S → Prop} {mine : A → Bool}

/-- The own steps can be taken in both states and look the same afterwards. -/
def OwnMatched (step : S → A → Option S) (allowed : S → A → Prop) (inv inv' : S → Prop)
    (sees : S → S → Prop) (mine : A → Bool) : Prop :=
  ∀ s u a t, inv s → inv' u → sees s u → allowed s a → mine a = true → step s a = some t →
    ∃ v, step u a = some v ∧ sees t v ∧ inv' v ∧ allowed u a

/-- The steps of the others leave the view as it is. -/
def OthersUnseen (step : S → A → Option S) (allowed : S → A → Prop) (inv : S → Prop)
    (sees : S → S → Prop) (mine : A → Bool) : Prop :=
  ∀ s u a t, inv s → sees s u → allowed s a → mine a = false → step s a = some t → sees t u

theorem run_projects (preserved : ∀ s a t, inv s → allowed s a → step s a = some t → inv t)
    (own : OwnMatched step allowed inv inv' sees mine)
    (others : OthersUnseen step allowed inv sees mine) {s t u : S} {actions : List A}
    (sound : inv s) (sound' : inv' u) (alike : sees s u) (ok : Allowed step allowed s actions)
    (run : runs step s actions = some t) :
    ∃ v, runs step u (actions.filter mine) = some v ∧ sees t v ∧
      Allowed step allowed u (actions.filter mine) := by
  induction actions generalizing s u with
  | nil =>
    obtain rfl : s = t := by simpa [runs] using run
    exact ⟨u, rfl, alike, trivial⟩
  | cons a rest ih =>
    obtain ⟨m, head, tail⟩ := runs_cons.mp run
    have sound_m := preserved s a m sound ok.1 head
    have ok_m := ok.2 m head
    cases whose : mine a with
    | true =>
      obtain ⟨n, taken, alike_m, sound_n, also⟩ := own s u a m sound sound' alike ok.1 whose head
      obtain ⟨v, later, alike_t, ok_n⟩ := ih sound_m sound_n alike_m ok_m tail
      rw [List.filter_cons_of_pos whose]
      exact ⟨v, runs_cons.mpr ⟨n, taken, later⟩, alike_t, allowed_cons taken also ok_n⟩
    | false =>
      have alike_m := others s u a m sound alike ok.1 whose head
      rw [List.filter_cons_of_neg (by simp [whose])]
      exact ih sound_m sound' alike_m ok_m tail

end Unwinding
