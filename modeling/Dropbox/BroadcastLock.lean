import Mathlib.Data.Fintype.Card
import Mathlib.Data.Fintype.Basic
import Dropbox.General.Transitions

/-!
The locking of server/ClientComposite.cpp. `users` is one static counter for all
composites, `mutex_` belongs to one of them; the counter's increment, its test
and `mutex_.lock()` are separate steps of the thread that broadcasts.
-/
namespace DropboxBroadcastLock
open Transitions
variable {T C : Type} [DecidableEq T] [DecidableEq C]

/-- Who called `lock` on a mutex: a broadcast, or the lock_guard of Emplace or Remove. -/
inductive Owner (T : Type) where
  | broadcast (t : T)
  | change (t : T)
  deriving DecidableEq, Repr

inductive Position (C : Type) where
  | outside
  | entered (c : C)     -- users += 1 is done
  | locking (c : C)     -- saw users == 1
  | iterating (c : C)
  | leaving (c : C)     -- users -= 1 is done
  | unlocking (c : C)   -- saw users == 0
  | changing (c : C)    -- in Emplace or Remove, under the lock_guard
  deriving DecidableEq, Repr

structure State (T C : Type) where
  users : UInt8
  mutex : C → Option (Owner T)
  thread : T → Position C

def start : State T C := ⟨0, fun _ => none, fun _ => .outside⟩

/-- `sendFails` is the early `return false` out of either loop of BroadcastCommand. -/
inductive Action (T C : Type) where
  | increment (t : T) (c : C)
  | testFirst (t : T)
  | lock (t : T)
  | sendFails (t : T)
  | decrement (t : T)
  | testLast (t : T)
  | unlock (t : T)
  | guard (t : T) (c : C)
  | release (t : T)
  deriving DecidableEq, Repr

def State.move (s : State T C) (t : T) (p : Position C) : State T C :=
  { s with thread := Function.update s.thread t p }

def State.setMutex (s : State T C) (c : C) (o : Option (Owner T)) : State T C :=
  { s with mutex := Function.update s.mutex c o }

def lockStep (s : State T C) : Action T C → Option (State T C)
  | .increment t c =>
    match s.thread t with
    | .outside => some { s.move t (.entered c) with users := s.users + 1 }
    | _ => none
  | .testFirst t =>
    match s.thread t with
    | .entered c => some (s.move t (if s.users = 1 then .locking c else .iterating c))
    | _ => none
  | .lock t =>
    match s.thread t with
    | .locking c =>
      if s.mutex c = none then some ((s.move t (.iterating c)).setMutex c (some (.broadcast t)))
      else none
    | _ => none
  | .sendFails t =>
    match s.thread t with
    | .iterating _ => some (s.move t .outside)
    | _ => none
  | .decrement t =>
    match s.thread t with
    | .iterating c => some { s.move t (.leaving c) with users := s.users - 1 }
    | _ => none
  | .testLast t =>
    match s.thread t with
    | .leaving c => some (s.move t (if s.users = 0 then .unlocking c else .outside))
    | _ => none
  | .unlock t =>
    match s.thread t with
    | .unlocking c => some ((s.move t .outside).setMutex c none)
    | _ => none
  | .guard t c =>
    match s.thread t with
    | .outside =>
      if s.mutex c = none then some ((s.move t (.changing c)).setMutex c (some (.change t)))
      else none
    | _ => none
  | .release t =>
    match s.thread t with
    | .changing c => some ((s.move t .outside).setMutex c none)
    | _ => none

/-- The composite a thread's BroadcastCommand call works on. -/
def Position.broadcasts : Position C → Option C
  | .entered c | .locking c | .iterating c | .leaving c | .unlocking c => some c
  | .outside | .changing _ => none

structure Exclusive (s : State T C) : Prop where
  lists : ∀ t u c, s.thread t = .iterating c → s.thread u ≠ .changing c
  unlocks : ∀ t c, s.thread t = .unlocking c ∨ s.thread t = .changing c → s.mutex c ≠ none
  released : ∀ c, (∀ t, (s.thread t).broadcasts ≠ some c) → ∀ t, s.mutex c ≠ some (.broadcast t)

def sends : Action T C → Bool
  | .sendFails _ => false
  | _ => true

/-- Broadcasts of two users overlap: the second finds `users` at 2 and iterates its own list
    without a lock while Remove changes it; it later unlocks a mutex that nobody locked, and the
    first user's mutex stays locked for good. -/
theorem overlapping_users_break_exclusion :
    (∃ (actions : List (Action (Fin 3) (Fin 2))) (s : State (Fin 3) (Fin 2)),
      (∀ a ∈ actions, sends a = true) ∧ runs lockStep start actions = some s ∧
        s.thread 1 = .iterating 1 ∧ s.thread 2 = .changing 1 ∧ ¬ Exclusive s) ∧
    (∃ (actions : List (Action (Fin 3) (Fin 2))) (s : State (Fin 3) (Fin 2)),
      (∀ a ∈ actions, sends a = true) ∧ runs lockStep start actions = some s ∧
        s.thread 1 = .unlocking 1 ∧ s.mutex 1 = none ∧
        (∀ t, (s.thread t).broadcasts ≠ some 0) ∧ s.mutex 0 = some (.broadcast 0)) := by
  refine ⟨⟨[.increment 0 0, .testFirst 0, .lock 0, .increment 1 1, .testFirst 1, .guard 2 1], _,
    by decide, rfl, rfl, rfl, fun exclusive => exclusive.lists 1 2 1 rfl rfl⟩, ?_⟩
  exact ⟨[.increment 0 0, .testFirst 0, .lock 0, .increment 1 1, .testFirst 1, .decrement 0,
    .testLast 0, .decrement 1, .testLast 1], _, by decide, rfl, rfl, rfl, by decide, rfl⟩

/-- Between its increment and its decrement. -/
def Position.counted : Position C → Bool
  | .entered _ | .locking _ | .iterating _ => true
  | .outside | .leaving _ | .unlocking _ | .changing _ => false

/-- Entered or leaving, but not through with the test and the lock call that follows it. -/
def Position.inTransit : Position C → Bool
  | .entered _ | .locking _ | .leaving _ | .unlocking _ => true
  | .outside | .iterating _ | .changing _ => false

/-- The composite whose mutex a broadcast in this position relies on. -/
def Position.relies : Position C → Option C
  | .iterating c | .leaving c | .unlocking c => some c
  | .outside | .entered _ | .locking _ | .changing _ => none

section
omit [DecidableEq C]

theorem transit_broadcasts {p : Position C} (transit : p.inTransit = true) :
    ∃ c, p.broadcasts = some c := by
  cases p <;> simp_all [Position.inTransit, Position.broadcasts]

theorem counted_broadcasts {p : Position C} (counted : p.counted = true) :
    ∃ c, p.broadcasts = some c := by
  cases p <;> simp_all [Position.counted, Position.broadcasts]

theorem relies_broadcasts {p : Position C} {c : C} (relies : p.relies = some c) :
    p.broadcasts = some c := by
  cases p <;> simp_all [Position.relies, Position.broadcasts]

theorem settled_cases {p : Position C} {c : C} (broadcasts : p.broadcasts = some c)
    (settled : p.inTransit = false) : p = .iterating c := by
  cases p <;> simp_all [Position.inTransit, Position.broadcasts]

end

variable [Fintype T]

def countedThreads (s : State T C) : Finset T :=
  Finset.univ.filter fun t => (s.thread t).counted = true

/-- No broadcast enters or leaves while another one is in transit, none enters beside the
    broadcast of another user, and fewer than 256 are counted at once. -/
def Calm (s : State T C) : Action T C → Prop
  | .increment t c =>
    (∀ u d, u ≠ t → (s.thread u).broadcasts = some d → s.thread u = .iterating c) ∧
      (countedThreads s).card < 255
  | .decrement t => ∀ u, u ≠ t → (s.thread u).inTransit = false
  | .sendFails _ => False
  | _ => True

instance [Fintype C] (s : State T C) (a : Action T C) : Decidable (Calm s a) := by
  cases a <;> simp only [Calm] <;> infer_instance

structure Orderly (s : State T C) : Prop where
  count : s.users.toNat = (countedThreads s).card
  together : ∀ t u c d, (s.thread t).broadcasts = some c → (s.thread u).broadcasts = some d → c = d
  apart : ∀ t u, u ≠ t → (s.thread t).inTransit = true → (s.thread u).inTransit = false
  aloneFirst : ∀ t u c, s.thread t = .locking c → u ≠ t → (s.thread u).broadcasts = none
  aloneLast : ∀ t u c, s.thread t = .unlocking c → u ≠ t → (s.thread u).broadcasts = none
  locked : ∀ t c, (s.thread t).relies = some c → ∃ u, s.mutex c = some (.broadcast u)
  owned : ∀ c u, s.mutex c = some (.broadcast u) → ∃ t, (s.thread t).relies = some c
  guarded : ∀ t c, s.thread t = .changing c → s.mutex c = some (.change t)

omit [DecidableEq T] [DecidableEq C] in
theorem counted_mem {s : State T C} {t : T} :
    t ∈ countedThreads s ↔ (s.thread t).counted = true := by simp [countedThreads]

omit [DecidableEq C] [Fintype T] in
theorem thread_move_self (s : State T C) (t : T) (p : Position C) : (s.move t p).thread t = p := by
  simp [State.move]

omit [DecidableEq C] [Fintype T] in
theorem thread_move_ne (s : State T C) {t u : T} (p : Position C) (apart : u ≠ t) :
    (s.move t p).thread u = s.thread u := by simp [State.move, apart]

omit [DecidableEq C] in
theorem countedThreads_move (s : State T C) (t : T) (p : Position C) :
    countedThreads (s.move t p) =
      if p.counted then insert t (countedThreads s) else (countedThreads s).erase t := by
  ext u
  rw [counted_mem]
  by_cases same : u = t
  · subst u
    rw [thread_move_self]
    cases p.counted <;> simp
  · rw [thread_move_ne s p same, ← counted_mem]
    cases p.counted <;> simp [same]

omit [DecidableEq T] [DecidableEq C] in
theorem orderly_start : Orderly (start : State T C) := by
  constructor <;> simp [start, countedThreads, Position.counted, Position.broadcasts,
    Position.inTransit, Position.relies]

omit [DecidableEq T] [DecidableEq C] in
/-- With no other broadcast counted and none in transit, no other broadcast is under way. -/
theorem alone_of_count {s : State T C} (orderly : Orderly s) {t u : T}
    (transit : (s.thread t).inTransit = true) (others : ∀ v ∈ countedThreads s, v = t)
    (apart : u ≠ t) : (s.thread u).broadcasts = none := by
  cases found : (s.thread u).broadcasts with
  | none => rfl
  | some d =>
    have settled := settled_cases found (orderly.apart t u apart transit)
    exact absurd (others u (counted_mem.mpr (by rw [settled]; rfl))) apart

omit [DecidableEq C] [Fintype T] in
/-- What one position rules out in the other threads stays ruled out by a move that keeps to it. -/
theorem apart_move {P R : Position C → Prop} {s u : State T C} {t : T} {p : Position C}
    (thread : u.thread = (s.move t p).thread)
    (before : ∀ v w, w ≠ v → P (s.thread v) → R (s.thread w))
    (moved : ∀ v, v ≠ t → (P p → R (s.thread v)) ∧ (P (s.thread v) → R p)) :
    ∀ v w, w ≠ v → P (u.thread v) → R (u.thread w) := by
  have here : u.thread t = p := by rw [thread, thread_move_self]
  have there : ∀ v, v ≠ t → u.thread v = s.thread v := by
    intro v other
    rw [thread, thread_move_ne s p other]
  intro v w other found
  by_cases sameV : v = t
  · rw [sameV] at found other
    rw [here] at found
    rw [there w other]
    exact (moved w other).1 found
  · rw [there v sameV] at found
    by_cases sameW : w = t
    · rw [sameW, here]
      exact (moved v sameV).2 found
    · rw [there w sameW]
      exact before v w other found

section
omit [DecidableEq C]

/-- The mutex is held by a broadcast exactly while one relies on it; a step that keeps this, the
    counter and the places of the broadcasts in transit keeps everything. -/
theorem orderly_move {s u : State T C} {t : T} {p : Position C} (orderly : Orderly s)
    (thread : u.thread = (s.move t p).thread)
    (count : u.users.toNat = (countedThreads (s.move t p)).card)
    (together : ∀ v c d, v ≠ t → p.broadcasts = some c → (s.thread v).broadcasts = some d → c = d)
    (apart : ∀ v, v ≠ t → (p.inTransit = true → (s.thread v).inTransit = false) ∧
      ((s.thread v).inTransit = true → p.inTransit = false))
    (aloneFirst : ∀ v c, v ≠ t → (p = .locking c → (s.thread v).broadcasts = none) ∧
      (s.thread v = .locking c → p.broadcasts = none))
    (aloneLast : ∀ v c, v ≠ t → (p = .unlocking c → (s.thread v).broadcasts = none) ∧
      (s.thread v = .unlocking c → p.broadcasts = none))
    (locked : ∀ v c, (u.thread v).relies = some c → ∃ w, u.mutex c = some (.broadcast w))
    (owned : ∀ c w, u.mutex c = some (.broadcast w) → ∃ v, (u.thread v).relies = some c)
    (guarded : ∀ v c, u.thread v = .changing c → u.mutex c = some (.change v)) : Orderly u := by
  have counted : countedThreads u = countedThreads (s.move t p) := by
    ext v
    rw [counted_mem, counted_mem, thread]
  refine ⟨by rw [counted]; exact count, ?_, ?_, ?_, ?_, locked, owned, guarded⟩
  · intro v w c d first second
    by_cases same : w = v
    · rw [same, first] at second
      exact Option.some.inj second
    · refine apart_move (P := fun q => q.broadcasts = some c)
        (R := fun q => ∀ d, q.broadcasts = some d → c = d) thread ?_ ?_ v w same first d second
      · intro v w _ first d second
        exact orderly.together v w c d first second
      · intro v other
        refine ⟨fun moves d under => together v c d other moves under, fun under d moves => ?_⟩
        exact (together v d c other moves under).symm
  · exact apart_move (P := fun q => q.inTransit = true) (R := fun q => q.inTransit = false) thread
      orderly.apart apart
  · intro v w c found other
    exact apart_move (P := fun q => q = .locking c) (R := fun q => q.broadcasts = none) thread
      (fun v w other found => orderly.aloneFirst v w c found other)
      (fun v other => aloneFirst v c other) v w other found
  · intro v w c found other
    exact apart_move (P := fun q => q = .unlocking c) (R := fun q => q.broadcasts = none) thread
      (fun v w other found => orderly.aloneLast v w c found other)
      (fun v other => aloneLast v c other) v w other found

/-- `orderly_move` beside broadcasts that are not in transit. -/
theorem orderly_beside {s u : State T C} {t : T} {p : Position C} (orderly : Orderly s)
    (thread : u.thread = (s.move t p).thread)
    (count : u.users.toNat = (countedThreads (s.move t p)).card)
    (together : ∀ v c d, v ≠ t → p.broadcasts = some c → (s.thread v).broadcasts = some d → c = d)
    (quiet : ∀ v, v ≠ t → (s.thread v).inTransit = false)
    (alone : ∀ c, p = .locking c ∨ p = .unlocking c → ∀ v, v ≠ t → (s.thread v).broadcasts = none)
    (mutexes : (∀ v c, (u.thread v).relies = some c → ∃ w, u.mutex c = some (.broadcast w)) ∧
      (∀ c w, u.mutex c = some (.broadcast w) → ∃ v, (u.thread v).relies = some c) ∧
      (∀ v c, u.thread v = .changing c → u.mutex c = some (.change v))) : Orderly u := by
  obtain ⟨locked, owned, guarded⟩ := mutexes
  refine orderly_move orderly thread count together ?_ ?_ ?_ locked owned guarded
  · intro v other
    refine ⟨fun _ => quiet v other, fun transit => ?_⟩
    rw [quiet v other] at transit
    cases transit
  · intro v c other
    refine ⟨fun enters => alone c (Or.inl enters) v other, fun locking => ?_⟩
    have calm := quiet v other
    rw [locking] at calm
    cases calm
  · intro v c other
    refine ⟨fun enters => alone c (Or.inr enters) v other, fun unlocking => ?_⟩
    have calm := quiet v other
    rw [unlocking] at calm
    cases calm

/-- A move between two positions that are both counted, or both not. -/
theorem countedThreads_kept {s : State T C} {t : T} {p : Position C}
    (same : p.counted = (s.thread t).counted) :
    countedThreads (s.move t p) = countedThreads s := by
  rw [countedThreads_move, same]
  cases counted : (s.thread t).counted with
  | true => exact Finset.insert_eq_of_mem (counted_mem.mpr counted)
  | false =>
    refine Finset.erase_eq_of_notMem ?_
    rw [counted_mem, counted]
    simp

end

omit [DecidableEq T] [DecidableEq C] in
/-- Beside a broadcast in transit, whoever is counted iterates for the same user. -/
theorem companion_iterates {s : State T C} (orderly : Orderly s) {t v : T} {c : C}
    (own : (s.thread t).broadcasts = some c) (transit : (s.thread t).inTransit = true)
    (other : v ≠ t) (counted : v ∈ countedThreads s) : s.thread v = .iterating c := by
  obtain ⟨d, under⟩ := counted_broadcasts (counted_mem.mp counted)
  have equal := orderly.together t v c d own under
  rw [← equal] at under
  exact settled_cases under (orderly.apart t v other transit)

section
omit [DecidableEq C]

/-- The part of `orderly_move` about mutexes, for the steps that touch none. -/
theorem mutexes_kept {s u : State T C} {t : T} {p : Position C} (orderly : Orderly s)
    (thread : u.thread = (s.move t p).thread) (mutex : u.mutex = s.mutex)
    (relies : ∀ c, p.relies = some c → ∃ w, s.mutex c = some (.broadcast w))
    (handedOn : ∀ c, (s.thread t).relies = some c → p.relies = some c ∨
      ∃ v, v ≠ t ∧ (s.thread v).relies = some c)
    (changes : ∀ c, p ≠ .changing c) :
    (∀ v c, (u.thread v).relies = some c → ∃ w, u.mutex c = some (.broadcast w)) ∧
    (∀ c w, u.mutex c = some (.broadcast w) → ∃ v, (u.thread v).relies = some c) ∧
    (∀ v c, u.thread v = .changing c → u.mutex c = some (.change v)) := by
  have there : ∀ v, v ≠ t → u.thread v = s.thread v := by
    intro v other
    rw [thread, thread_move_ne s p other]
  have here : u.thread t = p := by rw [thread, thread_move_self]
  rw [mutex]
  refine ⟨?_, ?_, ?_⟩
  · intro v c found
    by_cases same : v = t
    · rw [same, here] at found
      exact relies c found
    · rw [there v same] at found
      exact orderly.locked v c found
  · intro c w held
    obtain ⟨v, found⟩ := orderly.owned c w held
    by_cases same : v = t
    · rw [same] at found
      rcases handedOn c found with now | ⟨v', other, still⟩
      · exact ⟨t, by rw [here]; exact now⟩
      · exact ⟨v', by rw [there v' other]; exact still⟩
    · exact ⟨v, by rw [there v same]; exact found⟩
  · intro v c found
    by_cases same : v = t
    · rw [same, here] at found
      exact absurd found (changes c)
    · rw [there v same] at found
      exact orderly.guarded v c found

theorem increment_orderly {s : State T C} {t : T} {c : C} (orderly : Orderly s)
    (calm : Calm s (.increment t c)) (found : s.thread t = .outside) :
    Orderly { s.move t (.entered c) with users := s.users + 1 } := by
  obtain ⟨others, few⟩ := calm
  have mutexes := mutexes_kept (p := .entered c) (t := t)
    (u := { s.move t (.entered c) with users := s.users + 1 }) orderly rfl rfl
    (by intro d relies; cases relies) (by intro d relies; rw [found] at relies; cases relies)
    (by intro d same; cases same)
  refine orderly_beside orderly rfl ?_ ?_ ?_ ?_ mutexes
  · have fresh : t ∉ countedThreads s := by
      rw [counted_mem, found]
      simp [Position.counted]
    rw [countedThreads_move]
    simp only [Position.counted, if_true, Finset.card_insert_of_notMem fresh, ← orderly.count]
    rw [← orderly.count] at few
    rw [UInt8.toNat_add]
    simp only [UInt8.toNat_one]
    omega
  · intro v d e other first second
    cases first
    rw [others v e other second] at second
    exact Option.some.inj second
  · intro v other
    cases transit : (s.thread v).inTransit with
    | false => rfl
    | true =>
      obtain ⟨d, under⟩ := transit_broadcasts transit
      rw [others v d other under] at transit
      cases transit
  · rintro d (locking | unlocking)
    · cases locking
    · cases unlocking

theorem testFirst_orderly {s : State T C} {t : T} {c : C} (orderly : Orderly s)
    (found : s.thread t = .entered c) :
    Orderly (s.move t (if s.users = 1 then .locking c else .iterating c)) := by
  have counted : t ∈ countedThreads s := by
    rw [counted_mem, found]
    rfl
  have own : (s.thread t).broadcasts = some c := by
    rw [found]
    rfl
  have transit : (s.thread t).inTransit = true := by
    rw [found]
    rfl
  have quiet := fun v other => orderly.apart t v other transit
  by_cases first : s.users = 1
  · rw [if_pos first]
    have alone : ∀ v, v ≠ t → (s.thread v).broadcasts = none := by
      have single : (countedThreads s).card = 1 := by
        rw [← orderly.count, first]
        rfl
      obtain ⟨only, equal⟩ := Finset.card_eq_one.mp single
      intro v other
      refine alone_of_count orderly transit ?_ other
      intro w member
      rw [equal, Finset.mem_singleton] at member counted
      rw [member, counted]
    have mutexes := mutexes_kept (p := .locking c) orderly rfl rfl
      (by intro d relies; cases relies) (by intro d relies; rw [found] at relies; cases relies)
      (by intro d same; cases same)
    refine orderly_beside orderly rfl ?_ ?_ quiet (fun _ _ => alone) mutexes
    · rw [countedThreads_kept (by rw [found]; rfl)]
      exact orderly.count
    · intro v d e other _ second
      rw [alone v other] at second
      cases second
  · -- somebody else is counted, is iterating, and relies on the same mutex
    rw [if_neg first]
    have companion : ∃ v, v ≠ t ∧ v ∈ countedThreads s := by
      by_contra lonely
      apply first
      have single : countedThreads s = {t} := by
        apply Finset.eq_singleton_iff_unique_mem.mpr
        refine ⟨counted, fun v member => ?_⟩
        by_contra other
        exact lonely ⟨v, other, member⟩
      have value := orderly.count
      rw [single, Finset.card_singleton] at value
      exact UInt8.toNat_inj.mp value
    obtain ⟨companion, apart, member⟩ := companion
    have iterates := companion_iterates orderly own transit apart member
    have mutexes := mutexes_kept (p := .iterating c) orderly rfl rfl
      (by
        intro d relies
        cases relies
        exact orderly.locked companion c (by rw [iterates]; rfl))
      (by intro d relies; rw [found] at relies; cases relies) (by intro d same; cases same)
    refine orderly_beside orderly rfl ?_ ?_ quiet ?_ mutexes
    · rw [countedThreads_kept (by rw [found]; rfl)]
      exact orderly.count
    · intro v d e _ begins second
      cases begins
      exact orderly.together t v c e own second
    · rintro d (locking | unlocking)
      · cases locking
      · cases unlocking

theorem decrement_orderly {s : State T C} {t : T} {c : C} (orderly : Orderly s)
    (calm : Calm s (.decrement t)) (found : s.thread t = .iterating c) :
    Orderly { s.move t (.leaving c) with users := s.users - 1 } := by
  have counted : t ∈ countedThreads s := by
    rw [counted_mem, found]
    rfl
  have mutexes := mutexes_kept (p := .leaving c) (t := t)
    (u := { s.move t (.leaving c) with users := s.users - 1 }) orderly rfl rfl
    (by
      intro d relies
      cases relies
      exact orderly.locked t c (by rw [found]; rfl))
    (by
      intro d relies
      rw [found] at relies
      exact Or.inl relies)
    (by intro d same; cases same)
  refine orderly_beside orderly rfl ?_ ?_ calm ?_ mutexes
  · have positive := Finset.card_pos.mpr ⟨t, counted⟩
    have bound : 1 ≤ s.users := by
      rw [UInt8.le_iff_toNat_le, orderly.count]
      exact positive
    rw [countedThreads_move]
    simp only [Position.counted, Bool.false_eq_true, if_false, Finset.card_erase_of_mem counted]
    rw [UInt8.toNat_sub_of_le _ _ bound, orderly.count]
    rfl
  · intro v d e _ leaves second
    cases leaves
    exact orderly.together t v c e (by rw [found]; rfl) second
  · rintro d (locking | unlocking)
    · cases locking
    · cases unlocking

theorem testLast_orderly {s : State T C} {t : T} {c : C} (orderly : Orderly s)
    (found : s.thread t = .leaving c) :
    Orderly (s.move t (if s.users = 0 then .unlocking c else .outside)) := by
  have own : (s.thread t).broadcasts = some c := by
    rw [found]
    rfl
  have transit : (s.thread t).inTransit = true := by
    rw [found]
    rfl
  have quiet := fun v other => orderly.apart t v other transit
  have relied : ∀ d, (s.thread t).relies = some d → c = d := by
    intro d relies
    rw [found] at relies
    exact Option.some.inj relies
  by_cases last : s.users = 0
  · rw [if_pos last]
    have empty : countedThreads s = ∅ := by
      apply Finset.card_eq_zero.mp
      rw [← orderly.count, last]
      rfl
    have alone : ∀ v, v ≠ t → (s.thread v).broadcasts = none := by
      intro v other
      refine alone_of_count orderly transit ?_ other
      intro w member
      rw [empty] at member
      cases member
    have mutexes := mutexes_kept (p := .unlocking c) orderly rfl rfl
      (by
        intro d relies
        cases relies
        exact orderly.locked t c (by rw [found]; rfl))
      (by
        intro d relies
        rw [relied d relies]
        exact Or.inl rfl)
      (by intro d same; cases same)
    refine orderly_beside orderly rfl ?_ ?_ quiet (fun _ _ => alone) mutexes
    · rw [countedThreads_kept (by rw [found]; rfl)]
      exact orderly.count
    · intro v d e other _ second
      rw [alone v other] at second
      cases second
  · -- another broadcast still iterates under the mutex this one leaves locked
    rw [if_neg last]
    have companion : ∃ v, v ≠ t ∧ v ∈ countedThreads s := by
      have some_counted : (countedThreads s).Nonempty := by
        apply Finset.card_pos.mp
        rw [← orderly.count]
        exact Nat.pos_of_ne_zero (fun zero => last (UInt8.toNat_inj.mp zero))
      obtain ⟨v, member⟩ := some_counted
      refine ⟨v, ?_, member⟩
      rintro rfl
      rw [counted_mem, found] at member
      cases member
    obtain ⟨companion, apart, member⟩ := companion
    have iterates := companion_iterates orderly own transit apart member
    have mutexes := mutexes_kept (p := .outside) orderly rfl rfl
      (by intro d relies; cases relies)
      (by
        intro d relies
        rw [← relied d relies]
        exact Or.inr ⟨companion, apart, by rw [iterates]; rfl⟩)
      (by intro d same; cases same)
    refine orderly_beside orderly rfl ?_ ?_ quiet ?_ mutexes
    · rw [countedThreads_kept (by rw [found]; rfl)]
      exact orderly.count
    · intro v d e _ impossible
      cases impossible
    · rintro d (locking | unlocking)
      · cases locking
      · cases unlocking

end

omit [DecidableEq T] [Fintype T] in
theorem mutex_setMutex_self (s : State T C) (c : C) (o : Option (Owner T)) :
    (s.setMutex c o).mutex c = o := by simp [State.setMutex]

omit [DecidableEq T] [Fintype T] in
theorem mutex_setMutex_ne (s : State T C) {c d : C} (o : Option (Owner T)) (apart : d ≠ c) :
    (s.setMutex c o).mutex d = s.mutex d := by simp [State.setMutex, apart]

/-- A thread that is alone under its broadcast takes or gives back its composite's mutex. -/
theorem alone_orderly {s : State T C} {t : T} {c : C} {p : Position C} {o : Option (Owner T)}
    (orderly : Orderly s) (own : (s.thread t).broadcasts = some c)
    (alone : ∀ v, v ≠ t → (s.thread v).broadcasts = none)
    (change : (p = .iterating c ∧ (s.thread t).counted = true ∧ o = some (.broadcast t) ∧
        s.mutex c = none) ∨
      (p = .outside ∧ (s.thread t).counted = false ∧ o = none ∧
        ∃ w, s.mutex c = some (.broadcast w))) :
    Orderly ((s.move t p).setMutex c o) := by
  have idle : ∀ v d, v ≠ t → (s.thread v).relies ≠ some d := by
    intro v d other relies
    have under := relies_broadcasts relies
    rw [alone v other] at under
    cases under
  have onlyOwn : ∀ d, (s.thread t).relies = some d → d = c := by
    intro d relies
    have under := relies_broadcasts relies
    rw [own] at under
    exact (Option.some.inj under).symm
  have mutexSelf := mutex_setMutex_self (s.move t p) c o
  have mutexNe : ∀ d, d ≠ c → ((s.move t p).setMutex c o).mutex d = s.mutex d :=
    fun d other => mutex_setMutex_ne (s.move t p) o other
  have threadSelf : ((s.move t p).setMutex c o).thread t = p := thread_move_self s t p
  have threadNe : ∀ v, v ≠ t → ((s.move t p).setMutex c o).thread v = s.thread v :=
    fun v other => thread_move_ne s p other
  have free : ∀ v, s.mutex c ≠ some (.change v) := by
    intro v held
    rcases change with ⟨_, _, _, unlocked⟩ | ⟨_, _, _, w, locked⟩
    · rw [unlocked] at held
      cases held
    · rw [locked] at held
      cases held
  have sameCount : p.counted = (s.thread t).counted := by
    rcases change with ⟨rfl, counted, _⟩ | ⟨rfl, uncounted, _⟩
    · exact counted.symm
    · exact uncounted.symm
  refine orderly_beside orderly rfl ?_ ?_ ?_ (fun _ _ => alone) ⟨?_, ?_, ?_⟩
  · rw [countedThreads_kept sameCount]
    exact orderly.count
  · intro v d e other _ second
    rw [alone v other] at second
    cases second
  · intro v other
    cases transit : (s.thread v).inTransit with
    | false => rfl
    | true =>
      obtain ⟨d, under⟩ := transit_broadcasts transit
      rw [alone v other] at under
      cases under
  · intro v d relies
    by_cases same : v = t
    · rw [same, threadSelf] at relies
      rcases change with ⟨rfl, _, rfl, _⟩ | ⟨rfl, _⟩
      · cases relies
        exact ⟨t, mutexSelf⟩
      · cases relies
    · rw [threadNe v same] at relies
      exact absurd relies (idle v d same)
  · intro d w held
    by_cases equal : d = c
    · rcases change with ⟨rfl, _⟩ | ⟨rfl, _, rfl, _⟩
      · exact ⟨t, by rw [threadSelf, equal]; rfl⟩
      · rw [equal, mutexSelf] at held
        cases held
    · rw [mutexNe d equal] at held
      obtain ⟨v, relies⟩ := orderly.owned d w held
      by_cases same : v = t
      · rw [same] at relies
        exact absurd (onlyOwn d relies) equal
      · exact absurd relies (idle v d same)
  · intro v d changing
    by_cases same : v = t
    · rw [same, threadSelf] at changing
      rcases change with ⟨rfl, _⟩ | ⟨rfl, _⟩ <;> cases changing
    · rw [threadNe v same] at changing
      have held := orderly.guarded v d changing
      by_cases equal : d = c
      · rw [equal] at held
        exact absurd held (free v)
      · rw [mutexNe d equal]
        exact held

/-- Emplace and Remove take a free mutex and give it back. -/
theorem change_orderly {s : State T C} {t : T} {c : C} {p : Position C} {o : Option (Owner T)}
    (orderly : Orderly s)
    (change : (s.thread t = .outside ∧ p = .changing c ∧ o = some (.change t) ∧
        s.mutex c = none) ∨
      (s.thread t = .changing c ∧ p = .outside ∧ o = none)) :
    Orderly ((s.move t p).setMutex c o) := by
  have mutexSelf := mutex_setMutex_self (s.move t p) c o
  have mutexNe : ∀ d, d ≠ c → ((s.move t p).setMutex c o).mutex d = s.mutex d :=
    fun d other => mutex_setMutex_ne (s.move t p) o other
  have threadSelf : ((s.move t p).setMutex c o).thread t = p := thread_move_self s t p
  have threadNe : ∀ v, v ≠ t → ((s.move t p).setMutex c o).thread v = s.thread v :=
    fun v other => thread_move_ne s p other
  have silent : p.broadcasts = none ∧ p.relies = none ∧ p.inTransit = false := by
    rcases change with ⟨_, rfl, _⟩ | ⟨_, rfl, _⟩ <;> exact ⟨rfl, rfl, rfl⟩
  have unrelying : (s.thread t).relies = none := by
    rcases change with ⟨found, _⟩ | ⟨found, _⟩ <;> rw [found] <;> rfl
  have sameCount : p.counted = (s.thread t).counted := by
    rcases change with ⟨found, rfl, _⟩ | ⟨found, rfl, _⟩ <;> rw [found] <;> rfl
  have free : ∀ w, s.mutex c ≠ some (.broadcast w) := by
    intro w held
    rcases change with ⟨_, _, _, unlocked⟩ | ⟨found, _⟩
    · rw [unlocked] at held
      cases held
    · rw [orderly.guarded t c found] at held
      cases held
  refine orderly_move orderly rfl ?_ ?_ ?_ ?_ ?_ ?_ ?_ ?_
  · rw [countedThreads_kept sameCount]
    exact orderly.count
  · intro v d e _ first
    rw [silent.1] at first
    cases first
  · intro v _
    refine ⟨fun transit => ?_, fun _ => silent.2.2⟩
    rw [silent.2.2] at transit
    cases transit
  · intro v d _
    refine ⟨fun same => ?_, fun _ => silent.1⟩
    rw [same] at silent
    cases silent.1
  · intro v d _
    refine ⟨fun same => ?_, fun _ => silent.1⟩
    rw [same] at silent
    cases silent.1
  · intro v d relies
    by_cases same : v = t
    · rw [same, threadSelf, silent.2.1] at relies
      cases relies
    · rw [threadNe v same] at relies
      obtain ⟨w, held⟩ := orderly.locked v d relies
      by_cases equal : d = c
      · rw [equal] at held
        exact absurd held (free w)
      · exact ⟨w, by rw [mutexNe d equal]; exact held⟩
  · intro d w held
    by_cases equal : d = c
    · rw [equal, mutexSelf] at held
      rcases change with ⟨_, _, rfl, _⟩ | ⟨_, _, rfl⟩ <;> cases held
    · rw [mutexNe d equal] at held
      obtain ⟨v, relies⟩ := orderly.owned d w held
      by_cases same : v = t
      · rw [same, unrelying] at relies
        cases relies
      · exact ⟨v, by rw [threadNe v same]; exact relies⟩
  · intro v d changing
    by_cases same : v = t
    · rw [same, threadSelf] at changing
      rcases change with ⟨_, rfl, rfl, _⟩ | ⟨_, rfl, _⟩
      · cases changing
        rw [mutexSelf, same]
      · cases changing
    · rw [threadNe v same] at changing
      have held := orderly.guarded v d changing
      by_cases equal : d = c
      · rw [equal] at held
        rcases change with ⟨_, _, _, unlocked⟩ | ⟨found, _⟩
        · rw [unlocked] at held
          cases held
        · rw [orderly.guarded t c found] at held
          cases held
          exact absurd rfl same
      · rw [mutexNe d equal]
        exact held

theorem step_orderly (s : State T C) (a : Action T C) (u : State T C) (orderly : Orderly s)
    (calm : Calm s a) (step : lockStep s a = some u) : Orderly u := by
  cases a with
  | increment t c =>
    simp only [lockStep] at step
    split at step
    · rename_i found
      cases step
      exact increment_orderly orderly calm found
    · cases step
  | testFirst t =>
    simp only [lockStep] at step
    split at step
    · rename_i c found
      cases step
      exact testFirst_orderly orderly found
    · cases step
  | lock t =>
    simp only [lockStep] at step
    split at step
    · rename_i c found
      simp only [Option.ite_none_right_eq_some, Option.some.injEq] at step
      obtain ⟨unlocked, rfl⟩ := step
      refine alone_orderly orderly (by rw [found]; rfl)
        (fun v other => orderly.aloneFirst t v c found other)
        (Or.inl ⟨rfl, by rw [found]; rfl, rfl, unlocked⟩)
    · cases step
  | sendFails t => exact absurd calm id
  | decrement t =>
    simp only [lockStep] at step
    split at step
    · rename_i c found
      cases step
      exact decrement_orderly orderly calm found
    · cases step
  | testLast t =>
    simp only [lockStep] at step
    split at step
    · rename_i c found
      cases step
      exact testLast_orderly orderly found
    · cases step
  | unlock t =>
    simp only [lockStep] at step
    split at step
    · rename_i c found
      cases step
      refine alone_orderly orderly (by rw [found]; rfl)
        (fun v other => orderly.aloneLast t v c found other)
        (Or.inr ⟨rfl, by rw [found]; rfl, rfl, orderly.locked t c (by rw [found]; rfl)⟩)
    · cases step
  | guard t c =>
    simp only [lockStep] at step
    split at step
    · rename_i found
      simp only [Option.ite_none_right_eq_some, Option.some.injEq] at step
      obtain ⟨unlocked, rfl⟩ := step
      exact change_orderly orderly (Or.inl ⟨found, rfl, rfl, unlocked⟩)
    · cases step
  | release t =>
    simp only [lockStep] at step
    split at step
    · rename_i c found
      cases step
      exact change_orderly orderly (Or.inr ⟨found, rfl, rfl⟩)
    · cases step

omit [DecidableEq T] [DecidableEq C] in
theorem orderly_exclusive {s : State T C} (orderly : Orderly s) : Exclusive s := by
  refine ⟨?_, ?_, ?_⟩
  · intro t u c iterates changes
    obtain ⟨w, held⟩ := orderly.locked t c (by rw [iterates]; rfl)
    rw [orderly.guarded u c changes] at held
    cases held
  · intro t c position unlocked
    rcases position with unlocks | changes
    · obtain ⟨w, held⟩ := orderly.locked t c (by rw [unlocks]; rfl)
      rw [unlocked] at held
      cases held
    · rw [orderly.guarded t c changes] at unlocked
      cases unlocked
  · intro c always t held
    obtain ⟨v, relies⟩ := orderly.owned c t held
    exact always v (relies_broadcasts relies)

/-- In a run whose broadcasts enter and leave one at a time, and overlap only with those of the
    same user, iteration excludes list changes and every mutex is unlocked as it was locked. -/
theorem calm_runs_exclude {actions : List (Action T C)} {s : State T C}
    (calm : Allowed lockStep Calm start actions) (run : runs lockStep start actions = some s) :
    Exclusive s :=
  orderly_exclusive (invariant_of_allowed step_orderly calm run orderly_start)

/-- Two broadcasts of one user share the lock while a Remove waits for it. -/
theorem calm_runs_exclude_pair :
    ∃ s : State (Fin 2) (Fin 1), s.thread 1 = .iterating 0 ∧ Exclusive s :=
  have calm : Allowed lockStep Calm (start : State (Fin 2) (Fin 1))
      [.increment 0 0, .testFirst 0, .lock 0, .increment 1 0, .testFirst 1, .decrement 0,
        .testLast 0] :=
    allowed_cons rfl (by decide) (allowed_cons rfl (by decide) (allowed_cons rfl (by decide)
      (allowed_cons rfl (by decide) (allowed_cons rfl (by decide) (allowed_cons rfl (by decide)
        (allowed_cons rfl (by decide) trivial))))))
  ⟨_, rfl, calm_runs_exclude calm rfl⟩

end DropboxBroadcastLock
