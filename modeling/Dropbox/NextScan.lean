import Dropbox.RingFormation

/-!
Which servers ConnectNext tries. The scan starts `offset` places after the server's
own, unless the sum wraps, and ends there; main begins with offset 1 and adds one for
each primary lost.
-/
namespace DropboxNextScan
open RingOrder DropboxRingFormation
variable {n : Nat} [NeZero n]

/-- The servers that the rounds of the outer loop try from `nextI`, in this order. -/
def rounds (live : Finset (Fin n)) (turns : Fin n → Nat) : Nat → Fin n → Server n → List (Fin n)
  | 0, _, _ => []
  | fuel + 1, nextI, s =>
    if nextI = s.addrIndex then []
    else
      match s.tryServer live nextI (turns nextI + 1) with
      | (true, _) => [nextI]
      | (false, after) => nextI :: rounds live turns fuel (nextI + 1) after

/-- The same for a call of ConnectNext. -/
def tried (live : Finset (Fin n)) (turns : Fin n → Nat) (offset : Nat) (s : Server n) :
    List (Fin n) :=
  rounds live turns n (nextIndex s.addrIndex offset) s

/-- What main relies on when it calls ConnectNext on a new socket. -/
structure TriesOthers (live : Finset (Fin n)) (turns : Fin n → Nat) (offset : Nat)
    (s : Server n) : Prop where
  terminates : ∃ result, s.createNext.connectNext live turns offset = some result
  others : s.addrIndex ∉ tried live turns offset s.createNext
  once : (tried live turns offset s.createNext).Nodup
  exhaustive : ∀ after, s.createNext.connectNext live turns offset = some (false, after) →
    ∀ p ∈ live, p = s.addrIndex
  skips : ∀ after, s.joinRing live turns offset = some (false, after) →
    ∀ p ∈ live, p = s.addrIndex

/-- The scan connects to a live server that it comes to, or there is none and it ends. -/
theorem scan_result (live : Finset (Fin n)) (turns : Fin n → Nat) {s : Server n}
    (ready : s.next = .unconnected) (fuel : Nat) (nextI : Fin n) (away : nextI ≠ s.addrIndex)
    (enough : n < fuel + gap s.addrIndex nextI) :
    (∃ q ∈ live, q ≠ s.addrIndex ∧ gap s.addrIndex nextI ≤ gap s.addrIndex q ∧
        s.scan live turns fuel nextI = some (true, { s with next := .connected q })) ∨
      ((∀ q ∈ live, gap s.addrIndex q < gap s.addrIndex nextI) ∧
        s.scan live turns fuel nextI = some (false, s)) := by
  induction fuel generalizing nextI with
  | zero =>
    have bound := gap_lt s.addrIndex nextI
    omega
  | succ fuel ih =>
    rw [Server.scan, if_neg away]
    by_cases alive : nextI ∈ live
    · rw [tryServer_live ready alive]
      exact Or.inl ⟨nextI, alive, away, Nat.le_refl _, rfl⟩
    · rw [tryServer_dead ready alive]
      have apart : ∀ q ∈ live, gap s.addrIndex q ≠ gap s.addrIndex nextI := by
        intro q member same
        exact alive (gap_injective same ▸ member)
      by_cases turn : nextI + 1 = s.addrIndex
      · refine Or.inr ⟨fun q member => ?_, ?_⟩
        · exact lt_of_le_of_ne (gap_le_of_closing turn q) (apart q member)
        · obtain ⟨left, rfl⟩ : ∃ left, fuel = left + 1 := by
            have bound := gap_lt s.addrIndex nextI
            exact ⟨fuel - 1, by omega⟩
          show s.scan live turns (left + 1) (nextI + 1) = _
          rw [Server.scan, if_pos turn]
      · have hop := gap_succ turn
        rcases ih (nextI + 1) turn (by omega) with ⟨q, member, other, later, result⟩ | ⟨none, result⟩
        · exact Or.inl ⟨q, member, other, by omega, result⟩
        · refine Or.inr ⟨fun q member => ?_, result⟩
          have before := none q member
          have other := apart q member
          omega

/-- The rounds move away from the server's own place and never come back to it. -/
theorem rounds_later (live : Finset (Fin n)) (turns : Fin n → Nat) {s : Server n}
    (ready : s.next = .unconnected) (fuel : Nat) (nextI : Fin n) :
    s.addrIndex ∉ rounds live turns fuel nextI s ∧ (rounds live turns fuel nextI s).Nodup ∧
      ∀ p ∈ rounds live turns fuel nextI s, gap s.addrIndex nextI ≤ gap s.addrIndex p := by
  induction fuel generalizing nextI with
  | zero => simp [rounds]
  | succ fuel ih =>
    rw [rounds]
    by_cases own : nextI = s.addrIndex
    · simp [own]
    · rw [if_neg own]
      by_cases alive : nextI ∈ live
      · rw [tryServer_live ready alive]
        simp [Ne.symm own]
      · rw [tryServer_dead ready alive]
        by_cases turn : nextI + 1 = s.addrIndex
        · have none : rounds live turns fuel (nextI + 1) s = [] := by
            cases fuel with
            | zero => rfl
            | succ fuel => rw [rounds, if_pos turn]
          simp [none, Ne.symm own]
        · have hop := gap_succ turn
          obtain ⟨others, once, later⟩ := ih (nextI + 1)
          refine ⟨?_, ?_, ?_⟩
          · simp only [List.mem_cons, not_or]
            exact ⟨Ne.symm own, others⟩
          · refine List.nodup_cons.mpr ⟨fun again => ?_, once⟩
            have beyond := later nextI again
            omega
          · intro p member
            rcases List.mem_cons.mp member with rfl | member
            · exact Nat.le_refl _
            · have beyond := later p member
              omega

theorem gap_offset {own : Fin n} {offset : Nat} (fits : own + offset < sizes n) :
    gap own (nextIndex own offset) = offset % n := by
  have shift : own + Fin.ofNat n offset - own = Fin.ofNat n offset := by abel
  rw [nextIndex_of_lt fits, gap, shift]
  rfl

/-- Among the servers reachable, one lies in the part of the ring that the scan covers. -/
def Covers (live : Finset (Fin n)) (offset : Nat) (own : Fin n) : Prop :=
  ∃ p ∈ live, p ≠ own ∧ nextIndex own offset ≠ own ∧ gap own (nextIndex own offset) ≤ gap own p

instance (live : Finset (Fin n)) (offset : Nat) (own : Fin n) :
    Decidable (Covers live offset own) :=
  inferInstanceAs (Decidable (∃ p ∈ live, p ≠ own ∧ nextIndex own offset ≠ own ∧
    gap own (nextIndex own offset) ≤ gap own p))

/-- Where the sum does not wrap, `offset` itself says how far away the scan starts. -/
theorem covers_offset {live : Finset (Fin n)} {offset : Nat} {own : Fin n}
    (fits : own + offset < sizes n) : Covers live offset own ↔
      ∃ p ∈ live, p ≠ own ∧ offset % n ≠ 0 ∧ offset % n ≤ gap own p := by
  have start : nextIndex own offset ≠ own ↔ offset % n ≠ 0 := by
    rw [← gap_offset fits, Ne, Ne, gap_eq_zero]
  rw [Covers, start, gap_offset fits]

theorem scan_home (live : Finset (Fin n)) (turns : Fin n → Nat) {fuel : Nat} (positive : 0 < fuel)
    (s : Server n) : s.scan live turns fuel s.addrIndex = some (false, s) := by
  cases fuel with
  | zero => omega
  | succ fuel => rw [Server.scan, if_pos rfl]

/-- ConnectNext finds a server exactly when the scan covers one. -/
theorem connectNext_result (live : Finset (Fin n)) (turns : Fin n → Nat) (offset : Nat)
    {s : Server n} (ready : s.next = .unconnected) :
    (Covers live offset s.addrIndex ∧
        ∃ q, s.connectNext live turns offset = some (true, { s with next := .connected q })) ∨
      (¬ Covers live offset s.addrIndex ∧
        s.connectNext live turns offset = some (false, s)) := by
  have positive := Nat.pos_of_ne_zero (NeZero.ne n)
  by_cases home : nextIndex s.addrIndex offset = s.addrIndex
  · refine Or.inr ⟨?_, ?_⟩
    · rintro ⟨_, _, _, apart, _⟩
      exact apart home
    · rw [Server.connectNext, home]
      exact scan_home live turns positive s
  · have apart : gap s.addrIndex (nextIndex s.addrIndex offset) ≠ 0 :=
      fun none => home (gap_eq_zero.mp none)
    rcases scan_result live turns ready n _ home (by omega) with
      ⟨q, member, other, covered, result⟩ | ⟨none, result⟩
    · exact Or.inl ⟨⟨q, member, other, home, covered⟩, q, result⟩
    · refine Or.inr ⟨?_, result⟩
      rintro ⟨p, member, _, _, covered⟩
      have before := none p member
      omega

/-- ConnectNext tries every other server, as far as its result goes, if and only if no other one is
    reachable or one that the scan covers is. -/
theorem connectNext_tries_iff (live : Finset (Fin n)) (turns : Fin n → Nat) (offset : Nat)
    {s : Server n} (alone : s.hasConnectionToNext = false) :
    TriesOthers live turns offset s ↔
      (∀ p ∈ live, p = s.addrIndex) ∨ Covers live offset s.addrIndex := by
  have joins : s.joinRing live turns offset = s.createNext.connectNext live turns offset := by
    rw [Server.joinRing, alone]
    rfl
  have result := connectNext_result live turns offset (s := s.createNext) rfl
  have visits := rounds_later live turns (s := s.createNext) rfl n
    (nextIndex s.addrIndex offset)
  constructor
  · intro tries
    rcases result with ⟨covers, _⟩ | ⟨_, failed⟩
    · exact Or.inr covers
    · exact Or.inl (tries.exhaustive _ failed)
  · intro reachable
    have honest : ∀ after, s.createNext.connectNext live turns offset = some (false, after) →
        ∀ p ∈ live, p = s.addrIndex := by
      intro after failed
      rcases result with ⟨_, q, found⟩ | ⟨uncovered, _⟩
      · rw [found] at failed
        cases failed
      · exact reachable.resolve_right uncovered
    refine ⟨?_, visits.1, visits.2.1, honest, fun after failed => ?_⟩
    · rcases result with ⟨_, q, found⟩ | ⟨_, failed⟩
      · exact ⟨_, found⟩
      · exact ⟨_, failed⟩
    · rw [joins] at failed
      exact honest after failed

/-- After one lost primary the server after one's own is passed over: of three servers the first
    looks for the third alone, and takes itself to be the only one left. -/
theorem second_scan_misses_neighbour :
    ¬ ∀ (live : Finset (Fin 3)) (turns : Fin 3 → Nat) (offset : Nat) (s : Server 3),
      1 ≤ offset → s.hasConnectionToNext = false → TriesOthers live turns offset s := by
  intro claim
  have tries := claim {1} (fun _ => 7) 2 ⟨0, .unconnected⟩ (by decide) rfl
  exact absurd (tries.exhaustive ⟨0, .unconnected⟩ (by decide) 1 (by decide)) (by decide)

/-- The third of five servers finds the first one after it has lost two primaries. -/
theorem connectNext_tries_iff_third :
    TriesOthers {0, 2} (fun _ => 7) 3 (⟨2, .unconnected⟩ : Server 5) ↔
      (∀ p ∈ ({0, 2} : Finset (Fin 5)), p = 2) ∨ Covers {0, 2} 3 (2 : Fin 5) :=
  connectNext_tries_iff {0, 2} (fun _ => 7) 3 rfl

end DropboxNextScan
