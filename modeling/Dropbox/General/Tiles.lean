import Mathlib.Data.List.Basic

/-!
Records of any lengths laid one after the other in a buffer: what stands at an offset
and where each record begins.
-/
namespace Tiles
variable {M A : Type} {enc : M → List A}

/-- From the offset on the buffer has these records. -/
def TiledAt (enc : M → List A) (buffer : List A) (i : Nat) (ms : List M) : Prop :=
  ms.flatMap enc <+: buffer.drop i

/-- The offsets where the records begin. -/
def starts (enc : M → List A) : Nat → List M → List Nat
  | _, [] => []
  | i, m :: ms => i :: starts enc (i + (enc m).length) ms

/-- All that the records take up. -/
def extent (enc : M → List A) (ms : List M) : Nat := (ms.flatMap enc).length

@[simp] theorem extent_nil : extent enc [] = 0 := rfl

@[simp] theorem extent_cons (m : M) (ms : List M) :
    extent enc (m :: ms) = (enc m).length + extent enc ms := by
  simp [extent]

/-- Records that were put at the front of a buffer. -/
theorem tiledAt_front (ms : List M) (rest : List A) : TiledAt enc (ms.flatMap enc ++ rest) 0 ms :=
  List.prefix_append ..

theorem tiledAt_cons {buffer : List A} {i : Nat} {m : M} {ms : List M}
    (tiled : TiledAt enc buffer i (m :: ms)) :
    enc m <+: buffer.drop i ∧ TiledAt enc buffer (i + (enc m).length) ms := by
  obtain ⟨rest, whole⟩ := tiled
  rw [List.flatMap_cons, List.append_assoc] at whole
  refine ⟨⟨_, whole⟩, rest, ?_⟩
  rw [← List.drop_drop, ← whole, List.drop_left]

/-- An offset is listed if and only if a record begins there. -/
theorem mem_starts {i k : Nat} {ms : List M} : k ∈ starts enc i ms ↔
    ∃ before m after, ms = before ++ m :: after ∧ k = i + extent enc before := by
  induction ms generalizing i with
  | nil => simp [starts]
  | cons m ms ih =>
    rw [starts, List.mem_cons, ih]
    constructor
    · rintro (rfl | ⟨before, n, after, rfl, rfl⟩)
      · exact ⟨[], m, ms, rfl, rfl⟩
      · refine ⟨m :: before, n, after, rfl, ?_⟩
        rw [extent_cons, Nat.add_assoc]
    · rintro ⟨before, n, after, same, rfl⟩
      cases before with
      | nil => exact Or.inl rfl
      | cons b before =>
        obtain ⟨rfl, rfl⟩ := List.cons.inj same
        refine Or.inr ⟨before, n, after, rfl, ?_⟩
        rw [extent_cons, Nat.add_assoc]

end Tiles
