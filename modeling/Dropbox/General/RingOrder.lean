import Mathlib.Data.ZMod.Defs
import Mathlib.Algebra.BigOperators.Group.Finset.Basic
import Mathlib.Tactic.Abel
import Mathlib.Data.Finset.Card

/-!
Positions on a ring of `n` places, each with one successor `p + 1`. The gap from
`o` to `p` counts the hops that lead from `o` to `p` in ring direction.
-/
namespace RingOrder
variable {n : Nat}

def gap (o p : Fin n) : Nat := (p - o).val

theorem gap_lt (o p : Fin n) : gap o p < n := (p - o).isLt

/-- Changing one place changes a sum over all places by that place's share. -/
theorem sum_update {I α : Type} [Fintype I] [DecidableEq I] (share : I → α → Nat) (f : I → α)
    (i : I) (v : α) :
    (∑ j, share j (Function.update f i v j)) + share i (f i) = (∑ j, share j (f j)) + share i v := by
  rw [← Finset.add_sum_erase Finset.univ _ (Finset.mem_univ i),
    ← Finset.add_sum_erase Finset.univ (fun j => share j (f j)) (Finset.mem_univ i)]
  have rest : ∑ j ∈ Finset.univ.erase i, share j (Function.update f i v j) =
      ∑ j ∈ Finset.univ.erase i, share j (f j) := by
    apply Finset.sum_congr rfl
    intro j member
    rw [Function.update_of_ne (Finset.ne_of_mem_erase member)]
  rw [rest, Function.update_self]
  omega

variable [NeZero n]

theorem gap_self (o : Fin n) : gap o o = 0 := by simp [gap]

theorem gap_injective {o p q : Fin n} (same : gap o p = gap o q) : p = q := by
  have differences : p - o = q - o := Fin.ext same
  exact sub_left_injective differences

theorem gap_eq_zero {o p : Fin n} : gap o p = 0 ↔ p = o := by
  constructor
  · intro zero
    exact gap_injective (zero.trans (gap_self o).symm)
  · rintro rfl
    exact gap_self p

theorem val_add_one (d : Fin n) : (d + 1).val = if d.val + 1 = n then 0 else d.val + 1 := by
  have bound := d.isLt
  rw [Fin.val_add, Fin.val_one']
  split
  · rename_i last
    rw [Nat.add_mod_mod, last, Nat.mod_self]
  · rw [Nat.add_mod_mod, Nat.mod_eq_of_lt (by omega)]

theorem gap_next (o p : Fin n) : gap o (p + 1) = if gap o p + 1 = n then 0 else gap o p + 1 := by
  have shift : p + 1 - o = (p - o) + 1 := by abel
  rw [gap, gap, shift]
  exact val_add_one (p - o)

theorem gap_succ {o p : Fin n} (stays : p + 1 ≠ o) : gap o (p + 1) = gap o p + 1 := by
  have step := gap_next o p
  split at step
  · exact absurd (gap_eq_zero.mp step) stays
  · exact step

/-- One hop before `o` every other place has been passed. -/
theorem gap_last {o p : Fin n} (closes : p + 1 = o) : gap o p + 1 = n := by
  have step := gap_next o p
  rw [closes, gap_self] at step
  split at step
  · assumption
  · omega

theorem gap_le_of_closing {o p : Fin n} (closes : p + 1 = o) (j : Fin n) : gap o j ≤ gap o p := by
  have last := gap_last closes
  have bound := gap_lt o j
  omega

theorem le_gap_succ {o p j : Fin n} (stays : p + 1 ≠ o) (within : gap o j ≤ gap o (p + 1)) :
    gap o j ≤ gap o p ∨ j = p + 1 := by
  rw [gap_succ stays] at within
  by_cases here : gap o j = gap o p + 1
  · exact Or.inr (gap_injective (here.trans (gap_succ stays).symm))
  · exact Or.inl (by omega)

/-- Hops compose around the ring. -/
theorem gap_add (o m p : Fin n) : gap o p = (gap o m + gap m p) % n := by
  have path : p - o = (m - o) + (p - m) := by abel
  rw [gap, gap, gap, path, Fin.val_add]

theorem gap_eq_add {o m p : Fin n} (short : gap o m + gap m p < n) :
    gap o p = gap o m + gap m p := by
  rw [gap_add o m p, Nat.mod_eq_of_lt short]

/-- A place on the way to `p` splits the way. -/
theorem gap_split {o m p : Fin n} (within : gap o m ≤ gap o p) : gap o p = gap o m + gap m p := by
  have whole := gap_add o m p
  have first := gap_lt o m
  have second := gap_lt m p
  by_cases short : gap o m + gap m p < n
  · exact gap_eq_add short
  · rw [Nat.mod_eq_sub_mod (by omega), Nat.mod_eq_of_lt (by omega)] at whole
    omega

/-- From `o` on, `q` is the first of the chosen places. -/
structure IsNext (chosen : Finset (Fin n)) (o q : Fin n) : Prop where
  member : q ∈ chosen
  moves : q ≠ o
  first : ∀ p ∈ chosen, p ≠ o → gap o q ≤ gap o p

/-- `next` passes all chosen places once and comes back. -/
def SingleCycle (chosen : Finset (Fin n)) (next : Fin n → Fin n) : Prop :=
  ∀ i ∈ chosen, next^[chosen.card] i = i ∧ ∀ j ∈ chosen, ∃! k, k < chosen.card ∧ next^[k] i = j

/-- The chosen places that are passed before `j`, starting with `i` itself. -/
def passed (chosen : Finset (Fin n)) (i j : Fin n) : Finset (Fin n) :=
  chosen.filter fun p => gap i p < gap i j

theorem passed_next {chosen : Finset (Fin n)} {i m j : Fin n} (here : i ∈ chosen)
    (next : IsNext chosen i m) (there : j ∈ chosen) (apart : j ≠ i) :
    passed chosen i j = insert i (passed chosen m j) := by
  have way := gap_split (next.first j there apart)
  have bound := gap_lt i j
  ext p
  simp only [passed, Finset.mem_filter, Finset.mem_insert]
  constructor
  · rintro ⟨member, before⟩
    by_cases same : p = i
    · exact Or.inl same
    · have further := gap_split (next.first p member same)
      exact Or.inr ⟨member, by omega⟩
  · rintro (rfl | ⟨member, before⟩)
    · refine ⟨here, ?_⟩
      have positive : gap p j ≠ 0 := fun zero => apart (gap_eq_zero.mp zero)
      rw [gap_self]
      omega
    · have further : gap i p = gap i m + gap m p := gap_eq_add (by omega)
      exact ⟨member, by omega⟩

theorem not_mem_passed_next {chosen : Finset (Fin n)} {i m j : Fin n}
    (next : IsNext chosen i m) (there : j ∈ chosen) (apart : j ≠ i) : i ∉ passed chosen m j := by
  intro member
  have before := (Finset.mem_filter.mp member).2
  have way := gap_split (next.first j there apart)
  have bound := gap_lt i j
  have round : gap i i = gap i m + gap m i := gap_eq_add (by omega)
  rw [gap_self] at round
  exact next.moves (gap_eq_zero.mp (by omega))

/-- Following `next` from `i` meets `j` after all places passed before it. -/
theorem iterate_passed {chosen : Finset (Fin n)} {next : Fin n → Fin n}
    (nexts : ∀ i ∈ chosen, IsNext chosen i (next i)) {j : Fin n} (there : j ∈ chosen) :
    ∀ i ∈ chosen, next^[(passed chosen i j).card] i = j := by
  intro i
  induction h : gap i j using Nat.strongRecOn generalizing i with
  | ind d ih =>
    intro here
    by_cases same : j = i
    · subst j
      simp [passed, gap_self]
    · have step := nexts i here
      have way := gap_split (step.first j there same)
      have positive : gap i (next i) ≠ 0 := fun zero => step.moves (gap_eq_zero.mp zero)
      rw [passed_next here step there same,
        Finset.card_insert_of_notMem (not_mem_passed_next step there same),
        Function.iterate_succ_apply]
      exact ih (gap (next i) j) (by omega) (next i) rfl step.member

omit [NeZero n] in
theorem card_passed_lt {chosen : Finset (Fin n)} {i j : Fin n} (there : j ∈ chosen) :
    (passed chosen i j).card < chosen.card := by
  apply Finset.card_lt_card
  exact (Finset.ssubset_iff_of_subset (Finset.filter_subset _ _)).mpr ⟨j, there, by simp⟩

omit [NeZero n] in
theorem iterate_mem {chosen : Finset (Fin n)} {next : Fin n → Fin n}
    (nexts : ∀ i ∈ chosen, IsNext chosen i (next i)) (k : Nat) :
    ∀ i ∈ chosen, next^[k] i ∈ chosen := by
  induction k with
  | zero => exact fun i here => here
  | succ k ih =>
    intro i here
    rw [Function.iterate_succ_apply]
    exact ih (next i) (nexts i here).member

/-- Every chosen place is the next one of another, so no two places have the same next one. -/
theorem injOn_next {chosen : Finset (Fin n)} {next : Fin n → Fin n}
    (nexts : ∀ i ∈ chosen, IsNext chosen i (next i)) : Set.InjOn next chosen := by
  refine Finset.injOn_of_surjOn_of_card_le next (fun i here => (nexts i here).member) ?_ le_rfl
  intro j there
  have other := nexts j there
  have reach := iterate_passed nexts there (next j) other.member
  cases count : (passed chosen (next j) j).card with
  | zero =>
    rw [count] at reach
    exact absurd reach other.moves
  | succ k =>
    rw [count, Function.iterate_succ_apply'] at reach
    exact ⟨_, iterate_mem nexts k (next j) other.member, reach⟩

/-- First successors close to one cycle. -/
theorem singleCycle_of_isNext {chosen : Finset (Fin n)} {next : Fin n → Fin n}
    (nexts : ∀ i ∈ chosen, IsNext chosen i (next i)) : SingleCycle chosen next := by
  intro i here
  -- as many steps as places, and every place is met
  have onto : Set.SurjOn (fun k => next^[k] i) (Finset.range chosen.card) chosen := by
    intro j there
    exact ⟨_, by simpa using card_passed_lt there, iterate_passed nexts there i here⟩
  have once : Set.InjOn (fun k => next^[k] i) (Finset.range chosen.card) :=
    Finset.injOn_of_surjOn_of_card_le _ (fun k _ => iterate_mem nexts k i here) onto (by simp)
  constructor
  · obtain ⟨last, whole⟩ : ∃ last, chosen.card = last + 1 :=
      ⟨_, (Nat.succ_pred_eq_of_pos (Finset.card_pos.mpr ⟨i, here⟩)).symm⟩
    have back := iterate_passed nexts (iterate_mem nexts chosen.card i here) i here
    have fewer := card_passed_lt (i := i) (iterate_mem nexts chosen.card i here)
    cases count : (passed chosen i (next^[chosen.card] i)).card with
    | zero =>
      rw [count] at back
      exact back.symm
    | succ k =>
      rw [count] at back fewer
      rw [whole, Function.iterate_succ_apply', Function.iterate_succ_apply'] at back
      have same := injOn_next nexts (iterate_mem nexts k i here) (iterate_mem nexts last i here) back
      have equal : k = last := once (by simp; omega) (by simp; omega) same
      omega
  · intro j there
    refine ⟨_, ⟨card_passed_lt there, iterate_passed nexts there i here⟩, ?_⟩
    rintro k ⟨bound, reach⟩
    apply once
    · simpa using bound
    · simpa using card_passed_lt there
    · simp only [reach, iterate_passed nexts there i here]

theorem isNext_unique {chosen : Finset (Fin n)} {o p q : Fin n} (first : IsNext chosen o p)
    (second : IsNext chosen o q) : p = q := by
  have le := first.first q second.member second.moves
  have ge := second.first p first.member first.moves
  exact gap_injective (Nat.le_antisymm le ge)

/-- `place` numbers the chosen places in the order in which `next` passes them. -/
structure Places {k : Nat} [NeZero k] (chosen : Finset (Fin n)) (next : Fin n → Fin n)
    (place : Fin k → Fin n) : Prop where
  injective : Function.Injective place
  member : ∀ j, place j ∈ chosen
  onto : ∀ i ∈ chosen, ∃ j, place j = i
  follows : ∀ j, next (place j) = place (j + 1)

theorem exists_places {chosen : Finset (Fin n)} {next : Fin n → Fin n}
    (nexts : ∀ i ∈ chosen, IsNext chosen i (next i)) (nonempty : chosen.Nonempty)
    [NeZero chosen.card] : ∃ place : Fin chosen.card → Fin n, Places chosen next place := by
  obtain ⟨i, here⟩ := nonempty
  obtain ⟨back, meets⟩ := singleCycle_of_isNext nexts i here
  have member : ∀ j : Fin chosen.card, next^[j.val] i ∈ chosen :=
    fun j => iterate_mem nexts j.val i here
  refine ⟨fun j => next^[j.val] i, ?_, member, ?_, ?_⟩
  · intro a b same
    obtain ⟨k, _, unique⟩ := meets (next^[b.val] i) (member b)
    exact Fin.ext ((unique a.val ⟨a.isLt, same⟩).trans (unique b.val ⟨b.isLt, rfl⟩).symm)
  · intro j there
    obtain ⟨k, ⟨bound, reach⟩, _⟩ := meets j there
    exact ⟨⟨k, bound⟩, reach⟩
  · intro j
    rw [← Function.iterate_succ_apply' next j.val i, val_add_one]
    split
    · rename_i last
      rw [Nat.succ_eq_add_one, last, back]
      rfl
    · rfl

end RingOrder
