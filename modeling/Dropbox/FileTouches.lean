import Dropbox.DirectoryTree
import Dropbox.Host

/-!
The entries a call on the file store creates, overwrites, removes or looks at. No call
changes any other entry, and a store that is a tree stays one.
-/
namespace DropboxFileTouches
open DropboxFileStore DropboxDirectoryTree DropboxHost

def Touches (fs : Fs) (c : FileCall) (k : Key) : Prop :=
  match c with
  | .removeAll p => (key p).within k = true ∧ fs.entry (key p) ≠ none ∧ fs.entry k ≠ none
  | .listDirectory p | .directoryTable p => (∃ name, k = child p [name]) ∧ fs.entry k ≠ none
  | .copyFile p q => (k = key p ∨ k = key q) ∧
    (fs.entry k ≠ none ∨ (fileCall fs c).2.entry k ≠ none)
  | .isRegularFile p | .pathExists p | .remove p | .createDirectory p | .openOut p
  | .writeOut p _ | .openIn p | .fileSize p | .readIn p _ _ => k = key p ∧
    (fs.entry k ≠ none ∨ (fileCall fs c).2.entry k ≠ none)

variable {fs after : Fs} {p : Path} {k : Key}

theorem either_side {before now : Option Entry} (changed : now ≠ before) :
    before ≠ none ∨ now ≠ none := by
  by_contra both
  simp only [not_or, not_not] at both
  exact changed (by rw [both.1, both.2])

theorem entry_put_changed {e : Entry} {q : Key} (changed : (fs.put q e).entry k ≠ fs.entry k) :
    k = q := by
  by_contra apart
  exact changed (entry_put_other apart)

theorem removeAll_changed (tree : TreeShaped fs) (clearing : removeAll fs p = some after)
    (changed : after.entry k ≠ fs.entry k) :
    (key p).within k = true ∧ fs.entry (key p) ≠ none ∧ fs.entry k ≠ none := by
  have found : fs.entry (key p) ≠ none := by
    intro absent
    exact changed (by rw [removeAll_absent absent clearing])
  by_cases named : (key p).names = []
  · have dir : fs.entry (key p) = some .dir := by
      rw [Fs.entry, if_pos named] at found ⊢
      split at found
      · rename_i rooted
        rw [if_pos rooted]
      · exact absurd rfl found
    rw [removeAll_directory dir clearing, afterClearing] at changed
    split at changed
    · rename_i inside
      exact ⟨inside.2.1, found, Ne.symm changed⟩
    · exact absurd rfl changed
  · rw [removeAll_entry tree named clearing] at changed
    split at changed
    · rename_i inside
      exact ⟨inside, found, Ne.symm changed⟩
    · exact absurd rfl changed

theorem orSame_some {A : Type} {r : Option (A × Fs)} (changed : (orSame fs r).2.entry k ≠ fs.entry k) :
    ∃ a, r = some (a, (orSame fs r).2) := by
  cases r with
  | none => exact absurd rfl changed
  | some pair => exact ⟨pair.1, rfl⟩

/-- A call changes nothing but what it touches. -/
theorem touches_of_changed (tree : TreeShaped fs) {c : FileCall}
    (changed : (fileCall fs c).2.entry k ≠ fs.entry k) : Touches fs c k := by
  have either := either_side changed
  cases c with
  | isRegularFile p => exact absurd rfl changed
  | pathExists p => exact absurd rfl changed
  | openIn p => exact absurd rfl changed
  | fileSize p => exact absurd rfl changed
  | readIn p pos n => exact absurd rfl changed
  | listDirectory p => exact absurd rfl changed
  | directoryTable p => exact absurd rfl changed
  | remove p =>
    obtain ⟨removed, removing⟩ := orSame_some changed
    refine ⟨?_, either⟩
    by_contra apart
    have kept := remove_entry removing k
    rw [if_neg apart] at kept
    exact changed kept
  | removeAll p =>
    obtain ⟨_, removing⟩ := orSame_some changed
    obtain ⟨cleared, clearing, same⟩ := Option.map_eq_some_iff.mp removing
    have shape := (Prod.mk.inj same).2
    refine removeAll_changed tree clearing ?_
    rw [shape]
    exact changed
  | createDirectory p =>
    obtain ⟨made, making⟩ := orSame_some changed
    refine ⟨?_, either⟩
    rcases createDirectory_eq_some making with ⟨_, same⟩ | ⟨_, same, _⟩
    · exact absurd (by rw [fileCall, same]) changed
    · rw [fileCall, same] at changed
      exact entry_put_changed changed
  | openOut p =>
    refine ⟨?_, either⟩
    simp only [fileCall, openOut] at changed
    split at changed
    · exact entry_put_changed changed
    · exact absurd rfl changed
  | writeOut p bytes =>
    refine ⟨?_, either⟩
    simp only [fileCall, writeOut] at changed
    split at changed
    · exact entry_put_changed changed
    · exact absurd rfl changed
  | copyFile p q =>
    refine ⟨Or.inr ?_, either⟩
    obtain ⟨_, copying⟩ := orSame_some changed
    obtain ⟨copied, copies, same⟩ := Option.map_eq_some_iff.mp copying
    have shape := (Prod.mk.inj same).2
    rw [fileCall, ← shape] at changed
    unfold copyFile at copies
    split at copies
    · split at copies
      · cases copies
        exact entry_put_changed changed
      · cases copies
    · cases copies

theorem remove_tree {removed : Bool} (tree : TreeShaped fs)
    (removing : remove fs p = some (removed, after)) : TreeShaped after := by
  have entries := remove_entry removing
  cases found : fs.entry (key p) with
  | none =>
    rw [(remove_absent found removing).2]
    exact tree
  | some e =>
    rw [remove, found] at removing
    simp only at removing
    split at removing
    · cases removing
    · rename_i allowed
      have named : (key p).names ≠ [] := by
        intro empty
        exact allowed (by simp [empty])
      have bare : ∀ q, (key p).within q = true → q ≠ key p → fs.entry q = none := by
        intro q inside apart
        cases e with
        | file content => exact nothing_below tree named (by simp [found]) inside apart
        | dir =>
          simp only at removing
          split at removing
          · cases removing
          · rename_i clear
            rw [Fs.entry, if_neg]
            · rw [AList.lookup_eq_none]
              intro stored
              exact clear (List.any_eq_true.mpr ⟨q, stored, by simp [inside, apart]⟩)
            · intro top
              obtain ⟨below, same⟩ := within_iff.mp inside
              rw [(Key.mk.inj same).2] at top
              exact named (List.append_eq_nil_iff.mp top).1
      refine tree_of_part (k := key p) tree (fun q _ => ?_) fun q top => ?_
      · rw [entries]
        by_cases same : q = key p
        · have inside : (key p).within (key p) = true := within_iff.mpr ⟨[], by simp⟩
          rw [if_pos same, same, if_pos inside]
        · rw [if_neg same]
          by_cases inside : (key p).within q = true
          · rw [if_pos inside, bare q inside same]
          · rw [if_neg inside]
      · rw [entries, if_neg]
        rintro rfl
        exact named top

theorem canOpenOut_tree {content : List Byte} (tree : TreeShaped fs) (can : canOpenOut fs p = true) :
    TreeShaped (fs.put (key p) (.file content)) := by
  simp only [canOpenOut, Bool.and_eq_true, decide_eq_true_eq] at can
  exact put_tree _ tree (key_names_plain p) can.1.2 can.1.1.2

/-- The store stays a tree whatever is called. -/
theorem fileCall_tree (tree : TreeShaped fs) (c : FileCall) : TreeShaped (fileCall fs c).2 := by
  cases c with
  | isRegularFile p => exact tree
  | pathExists p => exact tree
  | openIn p => exact tree
  | fileSize p => exact tree
  | readIn p pos n => exact tree
  | listDirectory p => exact tree
  | directoryTable p => exact tree
  | remove p =>
    rw [fileCall]
    cases removing : remove fs p with
    | none => exact tree
    | some result => exact remove_tree tree removing
  | removeAll p =>
    rw [fileCall]
    cases clearing : removeAll fs p with
    | none => exact tree
    | some cleared => exact removeAll_tree tree clearing
  | createDirectory p =>
    rw [fileCall]
    cases creating : createDirectory fs p with
    | none => exact tree
    | some result =>
      unfold createDirectory at creating
      split at creating
      · cases creating
        exact tree
      · cases creating
      · rename_i absent
        split at creating
        · rename_i can
          cases creating
          exact put_tree .dir tree (key_names_plain p) (by simp [absent]) can.2.1
        · cases creating
  | openOut p =>
    rw [fileCall, openOut]
    split
    · rename_i can
      exact canOpenOut_tree tree can
    · exact tree
  | writeOut p bytes =>
    rw [fileCall, writeOut]
    split
    · rename_i content found
      have named : (key p).names ≠ [] := by
        intro top
        rw [Fs.entry, if_pos top] at found
        split at found <;> cases found
      exact put_tree _ tree (key_names_plain p) (by simp [found]) (tree _ _ found named).2
    · exact tree
  | copyFile p q =>
    rw [fileCall]
    cases copying : copyFile fs p q with
    | none => exact tree
    | some result =>
      unfold copyFile at copying
      split at copying
      · split at copying
        · rename_i can
          cases copying
          exact canOpenOut_tree tree can.2.2
        · cases copying
      · cases copying

end DropboxFileTouches
