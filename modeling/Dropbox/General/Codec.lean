import Mathlib.Data.List.Basic
import Mathlib.Tactic.Ring

/-!
Little-endian words and length-prefixed strings of bytes: what is read back, and
that two encodings that begin one byte string are the same.
-/
namespace Codec

def toLittle : Nat → Nat → List UInt8
  | 0, _ => []
  | width + 1, value => UInt8.ofNat (value % 256) :: toLittle width (value / 256)

def ofLittle : List UInt8 → Nat
  | [] => 0
  | byte :: rest => byte.toNat + 256 * ofLittle rest

/-- A length in `width` bytes, then the bytes. -/
def lengthPrefixed (width : Nat) (bytes : List UInt8) : List UInt8 :=
  toLittle width bytes.length ++ bytes

@[simp] theorem toLittle_length (width value : Nat) : (toLittle width value).length = width := by
  induction width generalizing value with
  | zero => rfl
  | succ width ih => simp [toLittle, ih]

theorem ofLittle_toLittle (width value : Nat) :
    ofLittle (toLittle width value) = value % 256 ^ width := by
  induction width generalizing value with
  | zero => simp [toLittle, ofLittle, Nat.mod_one]
  | succ width ih =>
    have low : (UInt8.ofNat (value % 256)).toNat = value % 256 := by simp
    have split : value % 256 ^ (width + 1) = value % 256 + 256 * (value / 256 % 256 ^ width) := by
      rw [Nat.pow_succ', Nat.mod_mul]
    rw [toLittle, ofLittle, ih, low, split]

theorem ofLittle_toLittle_of_lt {width value : Nat} (fits : value < 256 ^ width) :
    ofLittle (toLittle width value) = value := by
  rw [ofLittle_toLittle, Nat.mod_eq_of_lt fits]

theorem toLittle_injective {width value other : Nat} (fits : value < 256 ^ width)
    (fits' : other < 256 ^ width) (same : toLittle width value = toLittle width other) :
    value = other := by
  rw [← ofLittle_toLittle_of_lt fits, same, ofLittle_toLittle_of_lt fits']

theorem lengthPrefixed_cancel {width : Nat} {bytes other rest rest' : List UInt8}
    (fits : bytes.length < 256 ^ width) (fits' : other.length < 256 ^ width)
    (same : lengthPrefixed width bytes ++ rest = lengthPrefixed width other ++ rest') :
    bytes = other ∧ rest = rest' := by
  simp only [lengthPrefixed, List.append_assoc] at same
  obtain ⟨sizes, tails⟩ := List.append_inj same (by simp)
  exact List.append_inj tails (toLittle_injective fits fits' sizes)

/-- On `S`, no encoding begins another one, and none is empty. -/
structure PrefixCode {M : Type} (S : M → Prop) (enc : M → List UInt8) : Prop where
  nonempty : ∀ f, S f → enc f ≠ []
  cancels : ∀ f g, S f → S g → ∀ x y, enc f ++ x = enc g ++ y → f = g ∧ x = y

section code
variable {M : Type} {S : M → Prop} {enc : M → List UInt8} (code : PrefixCode S enc)
include code

/-- A sequence of encodings is read back in one way only. -/
theorem code_injective {fs gs : List M} (inside : ∀ f ∈ fs, S f) (inside' : ∀ g ∈ gs, S g)
    (same : fs.flatMap enc = gs.flatMap enc) : fs = gs := by
  induction fs generalizing gs with
  | nil =>
    cases gs with
    | nil => rfl
    | cons g gs =>
      have empty : enc g = [] := (List.append_eq_nil_iff.mp same.symm).1
      exact absurd empty (code.nonempty g (inside' g (List.mem_cons_self ..)))
  | cons f fs ih =>
    cases gs with
    | nil =>
      have empty : enc f = [] := (List.append_eq_nil_iff.mp same).1
      exact absurd empty (code.nonempty f (inside f (List.mem_cons_self ..)))
    | cons g gs =>
      obtain ⟨rfl, rest⟩ := code.cancels f g (inside f (List.mem_cons_self ..))
        (inside' g (List.mem_cons_self ..)) _ _ same
      rw [ih (fun f member => inside f (List.mem_cons_of_mem _ member))
        (fun g member => inside' g (List.mem_cons_of_mem _ member)) rest]

/-- A sequence that breaks off inside an encoding is no sequence of encodings. -/
theorem code_not_half {fs gs : List M} {f : M} {half rest : List UInt8}
    (inside : ∀ f ∈ fs, S f) (inside' : ∀ g ∈ gs, S g) (last : S f) (parts : half ++ rest = enc f)
    (begun : half ≠ []) (missing : rest ≠ []) : fs.flatMap enc ++ half ≠ gs.flatMap enc := by
  intro same
  induction fs generalizing gs with
  | nil =>
    cases gs with
    | nil => exact begun same
    | cons g gs =>
      have longer : enc f ++ [] = enc g ++ (gs.flatMap enc ++ rest) := by
        rw [List.append_nil, ← parts, ← List.append_assoc]
        exact congrArg (· ++ rest) same
      obtain ⟨_, empty⟩ := code.cancels f g last (inside' g (List.mem_cons_self ..)) _ _ longer
      exact missing (List.append_eq_nil_iff.mp empty.symm).2
  | cons e fs ih =>
    rw [List.flatMap_cons, List.append_assoc] at same
    cases gs with
    | nil =>
      have empty : enc e = [] := (List.append_eq_nil_iff.mp same).1
      exact code.nonempty e (inside e (List.mem_cons_self ..)) empty
    | cons g gs =>
      obtain ⟨rfl, tail⟩ := code.cancels e g (inside e (List.mem_cons_self ..))
        (inside' g (List.mem_cons_self ..)) _ _ same
      exact ih (fun f member => inside f (List.mem_cons_of_mem _ member))
        (fun g member => inside' g (List.mem_cons_of_mem _ member)) tail

end code

end Codec
