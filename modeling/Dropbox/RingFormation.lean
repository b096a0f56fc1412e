import Dropbox.General.RingOrder

/-!
How a server joins the ring before an election (Server::ConnectNext and its caller,
main). Servers are numbered by their place in `servers_`. A connect succeeds exactly
when its target is in `live`; sleeping and the clock are left out: the eight seconds
spent on target `p` have time for `turns p + 1` attempts.
-/
namespace DropboxRingFormation
open RingOrder
variable {n : Nat} [NeZero n]

/-- The socket `next_` of a Ring: kInvalidSocket, a socket without connection, or a connected one. -/
inductive Next (n : Nat) where
  | invalid
  | unconnected
  | connected (peer : Fin n)
  deriving DecidableEq, Repr

structure Server (n : Nat) where
  addrIndex : Fin n
  next : Next n
  deriving DecidableEq, Repr

def Server.hasConnectionToNext (s : Server n) : Bool :=
  match s.next with
  | .connected _ => true
  | .invalid | .unconnected => false

def Server.createNext (s : Server n) : Server n := { s with next := .unconnected }

/-- Ring::ConnectNext; `connect` fails on an invalid socket and on a connected one. -/
def Server.ringConnectNext (live : Finset (Fin n)) (s : Server n) (target : Fin n) :
    Bool × Server n :=
  match s.next with
  | .unconnected =>
    if target ∈ live then (true, { s with next := .connected target }) else (false, s)
  | .invalid | .connected _ => (false, s)

/-- The inner loop of ConnectNext, which lasts eight seconds. -/
def Server.tryServer (live : Finset (Fin n)) (target : Fin n) : Nat → Server n → Bool × Server n
  | 0, s => (false, s)
  | turns + 1, s =>
    if s.hasConnectionToNext then (false, s)
    else
      match s.ringConnectNext live target with
      | (true, after) => (true, after)
      | (false, after) => after.tryServer live target turns

/-- The outer loop of ConnectNext from `nextI`; `none` stands for a loop that is not over. -/
def Server.scan (live : Finset (Fin n)) (turns : Fin n → Nat) :
    Nat → Fin n → Server n → Option (Bool × Server n)
  | 0, _, _ => none
  | fuel + 1, nextI, s =>
    if nextI = s.addrIndex then some (false, s)
    else
      match s.tryServer live nextI (turns nextI + 1) with
      | (true, after) => some (true, after)
      | (false, after) => after.scan live turns fuel (nextI + 1)

/-- How many values size_t has: no vector holds more servers than that. -/
def sizes (n : Nat) : Nat := max (2 ^ 64) n

/-- `(addr_index_ + offset) % servers_.size()` -/
def nextIndex (addrIndex : Fin n) (offset : Nat) : Fin n :=
  Fin.ofNat n ((addrIndex + offset) % sizes n)

/-- `n` turns are enough for the loop. -/
def Server.connectNext (live : Finset (Fin n)) (turns : Fin n → Nat) (offset : Nat) (s : Server n) :
    Option (Bool × Server n) :=
  s.scan live turns n (nextIndex s.addrIndex offset)

/-- What main does before it looks at `has_connection_to_next`. -/
def Server.joinRing (live : Finset (Fin n)) (turns : Fin n → Nat) (offset : Nat) (s : Server n) :
    Option (Bool × Server n) :=
  if s.hasConnectionToNext then some (true, s) else s.createNext.connectNext live turns offset

theorem nextIndex_of_lt {own : Fin n} {offset : Nat} (fits : own + offset < sizes n) :
    nextIndex own offset = own + Fin.ofNat n offset := by
  apply Fin.ext
  rw [nextIndex, Nat.mod_eq_of_lt fits, Fin.val_add]
  simp

theorem nextIndex_one (own : Fin n) : nextIndex own 1 = own + 1 := by
  have bound := own.isLt
  have enough : n ≤ sizes n := Nat.le_max_right ..
  by_cases fits : own + 1 < sizes n
  · exact nextIndex_of_lt fits
  · have last : (own : Nat) + 1 = sizes n := by omega
    have home : own + 1 = 0 := by
      apply Fin.ext
      rw [val_add_one, if_pos (by omega)]
      rfl
    rw [nextIndex, last, Nat.mod_self, home]
    rfl

omit [NeZero n] in
theorem tryServer_live {live : Finset (Fin n)} {s : Server n} {target : Fin n} {turns : Nat}
    (ready : s.next = .unconnected) (alive : target ∈ live) :
    s.tryServer live target (turns + 1) = (true, { s with next := .connected target }) := by
  simp [Server.tryServer, Server.hasConnectionToNext, Server.ringConnectNext, ready, alive]

omit [NeZero n] in
theorem tryServer_dead {live : Finset (Fin n)} {s : Server n} {target : Fin n}
    (ready : s.next = .unconnected) (dead : target ∉ live) (turns : Nat) :
    s.tryServer live target turns = (false, s) := by
  induction turns with
  | zero => rfl
  | succ turns ih =>
    simpa [Server.tryServer, Server.hasConnectionToNext, Server.ringConnectNext, ready, dead] using ih

/-- The scan stops at the first live server after its own, if one is at or after `nextI`. -/
theorem scan_finds {live : Finset (Fin n)} (turns : Fin n → Nat) {s : Server n}
    (ready : s.next = .unconnected) (fuel : Nat) (nextI : Fin n) (away : nextI ≠ s.addrIndex)
    (enough : n ≤ fuel + gap s.addrIndex nextI)
    (behind : ∀ p ∈ live, p ≠ s.addrIndex → gap s.addrIndex nextI ≤ gap s.addrIndex p)
    (some_live : ∃ p ∈ live, p ≠ s.addrIndex) :
    ∃ q, IsNext live s.addrIndex q ∧
      s.scan live turns fuel nextI = some (true, { s with next := .connected q }) := by
  induction fuel generalizing nextI with
  | zero =>
    have bound := gap_lt s.addrIndex nextI
    omega
  | succ fuel ih =>
    rw [Server.scan, if_neg away]
    by_cases alive : nextI ∈ live
    · rw [tryServer_live ready alive]
      exact ⟨nextI, ⟨alive, away, behind⟩, rfl⟩
    · rw [tryServer_dead ready alive]
      have further : ∀ p ∈ live, p ≠ s.addrIndex →
          gap s.addrIndex nextI < gap s.addrIndex p := by
        intro p member other
        have within := behind p member other
        have apart : gap s.addrIndex nextI ≠ gap s.addrIndex p := by
          intro same
          exact alive (gap_injective same ▸ member)
        omega
      have turn : nextI + 1 ≠ s.addrIndex := by
        intro closes
        obtain ⟨p, member, other⟩ := some_live
        have last := gap_le_of_closing closes p
        have beyond := further p member other
        omega
      have hop := gap_succ turn
      exact ih (nextI + 1) turn (by omega) (fun p member other => by
        have beyond := further p member other
        omega)

/-- With another live server, joining the ring connects to the first one after one's own place. -/
theorem joinRing_connects {live : Finset (Fin n)} {turns : Fin n → Nat} {s : Server n}
    (alone : s.hasConnectionToNext = false) (some_live : ∃ p ∈ live, p ≠ s.addrIndex) :
    ∃ q, IsNext live s.addrIndex q ∧
      s.joinRing live turns 1 = some (true, { s with next := .connected q }) := by
  have away : s.addrIndex + 1 ≠ s.addrIndex := by
    obtain ⟨p, _, other⟩ := some_live
    intro closes
    have last := gap_last closes
    have bound := gap_lt s.addrIndex p
    rw [gap_self] at last
    exact other (gap_eq_zero.mp (by omega))
  have hop := gap_succ away
  rw [gap_self] at hop
  have found := scan_finds (s := s.createNext) turns rfl n (s.addrIndex + 1) away
    (Nat.le_add_right ..) ?_ some_live
  · rw [Server.joinRing, alone, Server.connectNext, nextIndex_one]
    exact found
  · intro p _ other
    have apart : gap s.addrIndex p ≠ 0 := fun zero => other (gap_eq_zero.mp zero)
    show gap s.addrIndex (s.addrIndex + 1) ≤ gap s.addrIndex p
    omega

/-- Every live server connects to another one, and together they form one ring. -/
theorem ring_forms {live : Finset (Fin n)} (turns : Fin n → Fin n → Nat) {idle : Fin n → Next n}
    (two : 2 ≤ live.card)
    (alone : ∀ i, (⟨i, idle i⟩ : Server n).hasConnectionToNext = false) :
    ∃ next : Fin n → Fin n, SingleCycle live next ∧ ∀ i ∈ live, next i ≠ i ∧
      (⟨i, idle i⟩ : Server n).joinRing live (turns i) 1 = some (true, ⟨i, .connected (next i)⟩) := by
  have joins : ∀ i, ∃ q, IsNext live i q ∧
      (⟨i, idle i⟩ : Server n).joinRing live (turns i) 1 = some (true, ⟨i, .connected q⟩) := by
    intro i
    obtain ⟨p, member, other⟩ := Finset.exists_mem_ne two i
    exact joinRing_connects (alone i) ⟨p, member, other⟩
  choose next isNext result using joins
  refine ⟨next, singleCycle_of_isNext fun i _ => isNext i, ?_⟩
  intro i _
  exact ⟨(isNext i).moves, result i⟩

/-- Five servers, of which the second and the fourth are down. -/
theorem ring_forms_three :
    ∃ next : Fin 5 → Fin 5, SingleCycle {0, 2, 4} next ∧ ∀ i ∈ ({0, 2, 4} : Finset (Fin 5)),
      next i ≠ i ∧ (⟨i, .invalid⟩ : Server 5).joinRing {0, 2, 4} (fun _ => 7) 1 =
        some (true, ⟨i, .connected (next i)⟩) :=
  ring_forms (fun _ _ => 7) (by decide) fun _ => rfl

end DropboxRingFormation
