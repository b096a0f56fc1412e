import Mathlib.Data.List.TakeWhile

/-!
The words of a text: its longest parts without a separator. A reader that skips
separators and takes what follows up to the next one gets them one after the other.
-/
namespace Words
variable {A : Type} {space : A → Bool}

def words (space : A → Bool) (text : List A) : List (List A) :=
  (text.splitOnP space).filter fun word => !word.isEmpty

theorem words_nil : words space [] = [] := rfl

theorem words_space {c : A} {text : List A} (blank : space c = true) :
    words space (c :: text) = words space text := by
  simp [words, List.splitOnP_cons_eq_if_modifyHead, blank]

/-- Separators before the first word do not matter. -/
theorem words_skip (text : List A) : words space (text.dropWhile space) = words space text := by
  induction text with
  | nil => rfl
  | cons c text ih =>
    by_cases blank : space c = true
    · rw [List.dropWhile_cons_of_pos blank, ih, words_space blank]
    · rw [List.dropWhile_cons_of_neg blank]

/-- The first word and the words of what follows it. -/
theorem words_first {word text : List A} (solid : ∀ c ∈ word, space c = false) (present : word ≠ [])
    (ends : ∀ c, text.head? = some c → space c = true) :
    words space (word ++ text) = word :: words space text := by
  have kept : word.isEmpty = false := by simpa using present
  cases text with
  | nil => simp [words, List.splitOnP_eq_singleton solid, kept]
  | cons c text =>
    have blank := ends c rfl
    rw [words_space blank, words, List.splitOnP_append_cons_of_forall_mem solid c blank,
      List.filter_cons_of_pos (by simp [kept])]
    rfl

/-- What a reader takes is the first word, and what it leaves has the other ones. -/
theorem words_take {text : List A} {c : A} (starts : text.head? = some c)
    (solid : space c = false) :
    words space text = text.takeWhile (fun c => !space c) ::
      words space (text.dropWhile fun c => !space c) := by
  have split := List.takeWhile_append_dropWhile (p := fun c => !space c) (l := text)
  have first : text.takeWhile (fun c => !space c) ≠ [] := by
    cases text with
    | nil => cases starts
    | cons d text =>
      obtain rfl : d = c := by simpa using starts
      simp [solid]
  have whole := congrArg (words space) split
  rw [← whole]
  refine words_first (fun d within => ?_) first fun d head => ?_
  · simpa using List.mem_takeWhile_imp within
  · have stops := List.head?_dropWhile_not (fun c => !space c) text
    rw [head] at stops
    simpa using stops

theorem no_words_iff {text : List A} : words space text = [] ↔ text.dropWhile space = [] := by
  rw [← words_skip]
  cases left : text.dropWhile space with
  | nil => simp [words_nil]
  | cons c rest =>
    have stops := List.head?_dropWhile_not space text
    rw [left] at stops
    have solid : space c = false := by simpa using stops
    rw [words_take (c := c) rfl solid]
    simp

theorem word_nonempty {text word : List A} (within : word ∈ words space text) : word ≠ [] := by
  have kept := (List.mem_filter.mp within).2
  simpa using kept

end Words
