import Dropbox.General.Words

/-!
An input stream over a text, as std::istringstream is one. Both readers leave their
string alone when the stream is not good any more; only `getline` clears it before
it finds the end.
-/
namespace TextStream
open Words
variable {A : Type}

structure Istringstream (A : Type) where
  rest : List A
  good : Bool
  deriving DecidableEq, Repr

def Istringstream.over (text : List A) : Istringstream A := ⟨text, true⟩

@[simp] theorem over_rest (text : List A) : (Istringstream.over text).rest = text := rfl

/-- operator>> into a string. A word that ends with the stream sets eofbit, and so does the end
    after blanks, where the string is not touched. -/
def Istringstream.extract (space : A → Bool) (iss : Istringstream A) (target : List A) :
    Istringstream A × List A :=
  if !iss.good then (iss, target)
  else
    match iss.rest.dropWhile space with
    | [] => (⟨[], false⟩, target)
    | c :: rest =>
      let left := (c :: rest).dropWhile fun c => !space c
      (⟨left, !left.isEmpty⟩, (c :: rest).takeWhile fun c => !space c)

/-- std::getline into a string, up to a delimiter, which is taken too. -/
def Istringstream.getline (delimiter : A → Bool) (iss : Istringstream A) (target : List A) :
    Istringstream A × List A :=
  if !iss.good then (iss, target)
  else
    match iss.rest.dropWhile fun c => !delimiter c with
    | [] => (⟨[], false⟩, iss.rest)
    | _ :: left => (⟨left, true⟩, iss.rest.takeWhile fun c => !delimiter c)

/-- An extraction takes the first word, or leaves the string as it was. -/
theorem extract_takes (space : A → Bool) {iss : Istringstream A}
    (ends : iss.good = false → iss.rest = []) (target : List A) :
    (iss.extract space target).2 = (words space iss.rest).headD target ∧
      words space (iss.extract space target).1.rest = (words space iss.rest).tail ∧
      ((iss.extract space target).1.good = false → (iss.extract space target).1.rest = []) := by
  unfold Istringstream.extract
  split
  · rename_i ended
    have empty := ends (by simpa using ended)
    rw [empty, words_nil]
    exact ⟨rfl, rfl, fun _ => rfl⟩
  · split
    · rename_i blank
      rw [no_words_iff.mpr blank]
      exact ⟨rfl, words_nil, fun _ => rfl⟩
    · rename_i c rest starts
      have stops := List.head?_dropWhile_not space iss.rest
      rw [starts] at stops
      have solid : space c = false := by simpa using stops
      have taken : words space (c :: rest) = _ := words_take rfl solid
      rw [← starts, words_skip, starts] at taken
      rw [taken]
      refine ⟨rfl, rfl, fun ended => ?_⟩
      simpa using ended

section Getline
variable {delimiter : A → Bool} {target : List A}

/-- A field that ends with a delimiter. -/
theorem getline_field {field rest : List A} {c : A} (solid : ∀ d ∈ field, delimiter d = false)
    (ends : delimiter c = true) :
    (Istringstream.over (field ++ c :: rest)).getline delimiter target = (.over rest, field) := by
  have inside : ∀ d ∈ field, (!delimiter d) = true := by
    intro d within
    simp [solid d within]
  unfold Istringstream.getline
  rw [if_neg (by simp [Istringstream.over])]
  simp only [Istringstream.over, List.dropWhile_append_of_pos inside, List.dropWhile_cons_of_neg,
    ends, Bool.not_true, Bool.false_eq_true, not_false_iff, List.takeWhile_append_of_pos inside,
    List.takeWhile_cons_of_neg, List.append_nil]

/-- At the end of the text the string is cleared and the stream is done. -/
theorem getline_end : (Istringstream.over []).getline delimiter target = (⟨[], false⟩, []) := rfl

theorem getline_done {rest : List A} :
    (Istringstream.mk rest false).getline delimiter target = (⟨rest, false⟩, target) := rfl

end Getline

end TextStream
