import Mathlib.Data.Finset.Basic
import Mathlib.Logic.Equiv.Basic
import Mathlib.Logic.Function.Basic

/-!
Custody of tokens: who holds which one. Holders hold one token or none, no token
is held twice, and the tokens held are those of a given set. A token that is
given, exchanged or dropped keeps it so.
-/
namespace Custody
variable {H T : Type}

structure InCustody (holds : H → Option T) (tokens : Finset T) : Prop where
  exclusive : ∀ a b t, holds a = some t → holds b = some t → a = b
  covered : ∀ t, t ∈ tokens ↔ ∃ a, holds a = some t

variable {holds : H → Option T} {tokens : Finset T}

theorem custody_nothing {holds : H → Option T} (idle : ∀ a, holds a = none) :
    InCustody holds (∅ : Finset T) where
  exclusive a b t here there := by
    rw [idle a] at here
    cases here
  covered t := by simp [idle]

/-- Exactly one holder has a token of the set. -/
theorem InCustody.holder (c : InCustody holds tokens) {t : T} (isToken : t ∈ tokens) :
    ∃! a, holds a = some t := by
  obtain ⟨a, here⟩ := (c.covered t).mp isToken
  exact ⟨a, here, fun b there => c.exclusive b a t there here⟩

/-- With nobody holding anything there are no tokens. -/
theorem InCustody.empty_of_idle (c : InCustody holds tokens) (idle : ∀ a, holds a = none) :
    tokens = ∅ := by
  refine Finset.eq_empty_iff_forall_notMem.mpr fun t isToken => ?_
  obtain ⟨a, held⟩ := (c.covered t).mp isToken
  rw [idle a] at held
  cases held

variable [DecidableEq H]

/-- A token that nobody holds is given to someone with none. -/
theorem custody_give [DecidableEq T] (c : InCustody holds tokens) {a : H} {t : T} (without : holds a = none)
    (fresh : t ∉ tokens) : InCustody (Function.update holds a (some t)) (insert t tokens) := by
  have unheld : ∀ b, holds b ≠ some t := fun b held => fresh ((c.covered t).mpr ⟨b, held⟩)
  constructor
  · intro b e u hb he
    by_cases atB : b = a <;> by_cases atE : e = a
    · rw [atB, atE]
    · subst atB
      rw [Function.update_self] at hb
      rw [Function.update_of_ne atE, ← Option.some.inj hb] at he
      exact absurd he (unheld e)
    · subst atE
      rw [Function.update_self] at he
      rw [Function.update_of_ne atB, ← Option.some.inj he] at hb
      exact absurd hb (unheld b)
    · rw [Function.update_of_ne atB] at hb
      rw [Function.update_of_ne atE] at he
      exact c.exclusive b e u hb he
  · intro u
    rw [Finset.mem_insert, c.covered u]
    constructor
    · rintro (rfl | ⟨b, held⟩)
      · exact ⟨a, Function.update_self ..⟩
      · have apart : b ≠ a := by
          rintro rfl
          rw [without] at held
          cases held
        exact ⟨b, by rw [Function.update_of_ne apart, held]⟩
    · rintro ⟨b, held⟩
      by_cases atB : b = a
      · subst atB
        rw [Function.update_self] at held
        exact Or.inl (Option.some.inj held).symm
      · rw [Function.update_of_ne atB] at held
        exact Or.inr ⟨b, held⟩

/-- Two holders exchange what they have; with one who has none this hands a token over. -/
theorem custody_swap (c : InCustody holds tokens) (a b : H) :
    InCustody (fun e => holds (Equiv.swap a b e)) tokens := by
  constructor
  · intro e f t he hf
    exact (Equiv.swap a b).injective (c.exclusive _ _ t he hf)
  · intro t
    rw [c.covered t]
    exact ((Equiv.swap a b).exists_congr_left.trans (by simp [Equiv.symm_swap])).symm

/-- A holder gives its token back. -/
theorem custody_drop [DecidableEq T] (c : InCustody holds tokens) {a : H} {t : T} (held : holds a = some t) :
    InCustody (Function.update holds a none) (tokens.erase t) := by
  constructor
  · intro b e u hb he
    have atB : b ≠ a := by
      rintro rfl
      rw [Function.update_self] at hb
      cases hb
    have atE : e ≠ a := by
      rintro rfl
      rw [Function.update_self] at he
      cases he
    rw [Function.update_of_ne atB] at hb
    rw [Function.update_of_ne atE] at he
    exact c.exclusive b e u hb he
  · intro u
    rw [Finset.mem_erase, c.covered u]
    constructor
    · rintro ⟨other, b, hb⟩
      have apart : b ≠ a := by
        rintro rfl
        exact other (Option.some.inj (hb.symm.trans held))
      exact ⟨b, by rw [Function.update_of_ne apart, hb]⟩
    · rintro ⟨b, hb⟩
      have apart : b ≠ a := by
        rintro rfl
        rw [Function.update_self] at hb
        cases hb
      rw [Function.update_of_ne apart] at hb
      refine ⟨?_, b, hb⟩
      rintro rfl
      exact apart (c.exclusive b a u hb held)

end Custody
