import Mathlib.Data.Fintype.Basic
import Mathlib.Logic.Function.Basic
import Dropbox.General.Transitions

/-!
How Primary::MainLoop groups connections (server/replica/Primary.cpp). A client
opens its three sockets one after the other to one port (Client::Client and
Client::ReconnectToServer); the primary accepts them three at a time, by position.
-/
namespace DropboxAcceptQueue
open Transitions
variable {A : Type} [DecidableEq A]

/-- The sockets in the order of the array `to_connect`. -/
inductive SocketRole where
  | payload
  | clientSync
  | serverSync
  deriving DecidableEq, Repr

/-- `attempt` stands for one client process and one run of its connecting loop. -/
structure Connection (A : Type) where
  attempt : A
  role : SocketRole
  deriving DecidableEq, Repr

def toConnect (a : A) : List (Connection A) :=
  [⟨a, .payload⟩, ⟨a, .clientSync⟩, ⟨a, .serverSync⟩]

/-- The sockets NewClient hands to a ClientHandler. -/
structure ClientHandler (A : Type) where
  payloadSocket : Connection A
  clientSync : Connection A
  serverSync : Connection A
  deriving DecidableEq, Repr

structure State (A : Type) where
  made : A → Nat                            -- connects an attempt has made
  gaveUp : A → Bool
  queue : List (Connection A)               -- established, not yet accepted
  holding : List (Option (Connection A))    -- accepted in this round of MainLoop, none if invalid
  handlers : List (ClientHandler A)

def start : State A := ⟨fun _ => 0, fun _ => false, [], [], []⟩

/-- `retry` says that the failing `accept` left EAGAIN or EINTR in errno. -/
inductive Action (A : Type) where
  | connect (a : A)
  | giveUp (a : A)
  | accept
  | acceptFails (retry : Bool)
  deriving DecidableEq, Repr

/-- One of the three accept calls of a round returns. -/
def State.accepted (s : State A) (socket : Option (Connection A)) : State A :=
  match s.holding ++ [socket] with
  | [some payload, some clientSync, some serverSync] =>
    { s with holding := [], handlers := s.handlers ++ [⟨payload, clientSync, serverSync⟩] }
  | [_, _, _] => { s with holding := [] }   -- the sockets of the round are closed
  | sockets => { s with holding := sockets }

def acceptStep (s : State A) : Action A → Option (State A)
  | .connect a =>
    if s.gaveUp a then none
    else match (toConnect a)[s.made a]? with
      | some connection =>
        some { s with made := Function.update s.made a (s.made a + 1),
                      queue := s.queue ++ [connection] }
      | none => none
  | .giveUp a =>
    if s.made a < 3 then some { s with gaveUp := Function.update s.gaveUp a true } else none
  | .accept =>
    match s.queue with
    | connection :: rest => some ({ s with queue := rest }.accepted (some connection))
    | [] => none
  | .acceptFails retry =>
    if retry ∧ s.holding = [] then some s else some (s.accepted none)

def OneAttempt (h : ClientHandler A) : Prop :=
  ∃ a, h = ⟨⟨a, .payload⟩, ⟨a, .clientSync⟩, ⟨a, .serverSync⟩⟩

/-- Two clients connect at the same time: the first handler gets the payload sockets of both, the
    second what is left of the first and the sync sockets of the second. -/
theorem interleaved_connects_mix_clients :
    ¬ ∀ (actions : List (Action Bool)) (s : State Bool),
      (∀ a ∈ actions, a ≠ .acceptFails true ∧ a ≠ .acceptFails false) →
        runs acceptStep start actions = some s → ∀ h ∈ s.handlers, OneAttempt h := by
  intro claim
  have one := claim [.connect true, .connect false, .connect true, .connect true, .connect false,
    .connect false, .accept, .accept, .accept, .accept, .accept, .accept] _ (by decide) rfl
    ⟨⟨true, .payload⟩, ⟨false, .payload⟩, ⟨true, .clientSync⟩⟩ List.mem_cons_self
  obtain ⟨a, same⟩ := one
  cases same

/-- Some but not all of its sockets are connected. -/
def Open (s : State A) (a : A) : Prop := 0 < s.made a ∧ s.made a < 3

/-- An attempt begins only when no other is half way, none gives up half way, and no accept fails
    except as the first of a round with an errno that MainLoop retries on. -/
def Undisturbed (s : State A) : Action A → Prop
  | .connect a => s.made a = 0 → ∀ b, ¬ Open s b
  | .giveUp a => ¬ Open s a
  | .accept => True
  | .acceptFails retry => retry = true ∧ s.holding = []

instance [Fintype A] (s : State A) (a : Action A) : Decidable (Undisturbed s a) := by
  cases a <;> simp only [Undisturbed, Open] <;> infer_instance

structure Grouped (s : State A) : Prop where
  handlers : ∀ h ∈ s.handlers, OneAttempt h
  short : s.holding.length < 3
  waiting : ∃ (whole : List A) (part : List (Connection A)),
    s.holding ++ s.queue.map some = (whole.flatMap toConnect ++ part).map some ∧
    ((part = [] ∧ ∀ b, ¬ Open s b) ∨
      ∃ a, Open s a ∧ part = (toConnect a).take (s.made a) ∧ ∀ b, Open s b → b = a)

omit [DecidableEq A] in
theorem grouped_start : Grouped (start : State A) := by
  refine ⟨by simp [start], by simp [start], [], [], by simp [start], Or.inl ⟨rfl, ?_⟩⟩
  simp [Open, start]

theorem open_update {s : State A} {a b : A} {k : Nat} {queue : List (Connection A)} :
    Open { s with made := Function.update s.made a k, queue := queue } b ↔
      if b = a then 0 < k ∧ k < 3 else Open s b := by
  by_cases same : b = a
  · subst b
    simp [Open]
  · simp [Open, same]

theorem connect_grouped {s t : State A} {a : A} (grouped : Grouped s)
    (calm : Undisturbed s (.connect a)) (step : acceptStep s (.connect a) = some t) : Grouped t := by
  simp only [acceptStep, Option.ite_none_left_eq_some] at step
  obtain ⟨_, step⟩ := step
  split at step
  · rename_i connection found
    cases step
    obtain ⟨whole, part, line, progress⟩ := grouped.waiting
    have made : s.made a = 0 ∨ s.made a = 1 ∨ s.made a = 2 := by
      have bound := (List.getElem?_eq_some_iff.mp found).1
      simp only [toConnect, List.length_cons, List.length_nil] at bound
      omega
    refine ⟨grouped.handlers, grouped.short, ?_⟩
    have line' : s.holding ++ (s.queue ++ [connection]).map some =
        (whole.flatMap toConnect ++ (part ++ [connection])).map some := by
      rw [List.map_append, ← List.append_assoc, line]
      simp
    rcases made with first | later
    · -- a new attempt, with no other one half way
      rw [first] at found
      cases found
      have part_empty : part = [] := by
        rcases progress with ⟨empty, _⟩ | ⟨b, half, _⟩
        · exact empty
        · exact absurd half (calm first b)
      refine ⟨whole, part ++ [⟨a, .payload⟩], line', Or.inr ⟨a, ?_, ?_, ?_⟩⟩
      · rw [open_update]
        simp [first]
      · simp [part_empty, first, toConnect]
      · intro b half
        rw [open_update] at half
        by_contra other
        rw [if_neg other] at half
        exact calm first b half
    · have half : Open s a := by
        unfold Open
        omega
      have progress' : part = (toConnect a).take (s.made a) ∧ ∀ b, Open s b → b = a := by
        rcases progress with ⟨_, closed⟩ | ⟨b, halfB, filled, only⟩
        · exact absurd half (closed a)
        · rw [only a half]
          exact ⟨filled, only⟩
      obtain ⟨filled, only⟩ := progress'
      rcases later with second | third
      · rw [second] at found
        cases found
        refine ⟨whole, part ++ [⟨a, .clientSync⟩], line', Or.inr ⟨a, ?_, ?_, ?_⟩⟩
        · rw [open_update]
          simp [second]
        · simp [filled, second, toConnect]
        · intro b halfB
          rw [open_update] at halfB
          by_contra other
          rw [if_neg other] at halfB
          exact other (only b halfB)
      · rw [third] at found
        cases found
        refine ⟨whole ++ [a], [], ?_, Or.inl ⟨rfl, ?_⟩⟩
        · rw [line', filled, third]
          simp [toConnect]
        · intro b halfB
          rw [open_update] at halfB
          by_cases same : b = a
          · rw [if_pos same, third] at halfB
            omega
          · rw [if_neg same] at halfB
            exact same (only b halfB)
  · cases step

omit [DecidableEq A] in
theorem accepted_short {s : State A} (room : s.holding.length < 2) (socket : Option (Connection A)) :
    s.accepted socket = { s with holding := s.holding ++ [socket] } := by
  obtain ⟨made, gaveUp, queue, _ | ⟨x, _ | ⟨y, more⟩⟩, handlers⟩ := s
  · simp [State.accepted]
  · simp [State.accepted]
  · simp only [List.length_cons] at room
    omega

omit [DecidableEq A] in
theorem accepted_round {s : State A} {socket : Option (Connection A)} {p c v : Connection A}
    (round : s.holding ++ [socket] = [some p, some c, some v]) :
    s.accepted socket = { s with holding := [], handlers := s.handlers ++ [⟨p, c, v⟩] } := by
  rw [State.accepted, round]

/-- The third socket of a round belongs to the attempt of the first two. -/
theorem accept_grouped {s t : State A} (grouped : Grouped s)
    (step : acceptStep s .accept = some t) : Grouped t := by
  simp only [acceptStep] at step
  split at step
  · rename_i connection rest front
    cases step
    obtain ⟨whole, part, line, progress⟩ := grouped.waiting
    have halfPart : part.length < 3 := by
      rcases progress with ⟨rfl, _⟩ | ⟨a, half, rfl, _⟩
      · simp
      · have bound := half.2
        simp only [List.length_take]
        omega
    have line' : (s.holding ++ [some connection]) ++ rest.map some =
        (whole.flatMap toConnect ++ part).map some := by
      rw [← line, front]
      simp
    by_cases room : s.holding.length < 2
    · have waits := accepted_short (s := { s with queue := rest }) room (some connection)
      rw [waits]
      refine ⟨grouped.handlers, ?_, whole, part, line', progress⟩
      simpa using Nat.succ_lt_succ room
    · have two : s.holding.length = 2 := by
        have short := grouped.short
        omega
      obtain ⟨x, y, held⟩ := List.length_eq_two.mp two
      rw [held] at line'
      cases whole with
      | nil =>
        have lengths := congrArg List.length line'
        simp at lengths
        omega
      | cons a whole =>
        simp only [List.flatMap_cons, toConnect, List.cons_append, List.nil_append,
          List.map_cons, List.cons.injEq, Option.some.injEq] at line'
        obtain ⟨rfl, rfl, rfl, tail⟩ := line'
        have round : s.holding ++ [some ⟨a, .serverSync⟩] =
            [some ⟨a, .payload⟩, some ⟨a, .clientSync⟩, some ⟨a, .serverSync⟩] := by
          rw [held]
          rfl
        have hands := accepted_round (s := { s with queue := rest }) round
        rw [hands]
        refine ⟨?_, by simp, whole, part, tail, progress⟩
        intro h member
        rcases List.mem_append.mp member with old | new
        · exact grouped.handlers h old
        · obtain rfl := List.mem_singleton.mp new
          exact ⟨a, rfl⟩
  · cases step

theorem step_grouped (s : State A) (a : Action A) (t : State A) (grouped : Grouped s)
    (calm : Undisturbed s a) (step : acceptStep s a = some t) : Grouped t := by
  cases a with
  | connect a => exact connect_grouped grouped calm step
  | giveUp a =>
    simp only [acceptStep, Option.ite_none_right_eq_some, Option.some.injEq] at step
    obtain ⟨_, rfl⟩ := step
    exact ⟨grouped.handlers, grouped.short, grouped.waiting⟩
  | accept => exact accept_grouped grouped step
  | acceptFails retry =>
    have same : s = t := by simpa [acceptStep, calm.1, calm.2] using step
    rw [← same]
    exact grouped

/-- When attempts come one after the other and none stops half way, every handler owns the three
    sockets of one attempt in their roles. -/
theorem undisturbed_runs_keep_triples {actions : List (Action A)} {s : State A}
    (calm : Allowed acceptStep Undisturbed start actions)
    (run : runs acceptStep start actions = some s) : ∀ h ∈ s.handlers, OneAttempt h :=
  (invariant_of_allowed step_grouped calm run grouped_start).handlers

/-- A second client may connect while the first one's sockets still wait in the queue. -/
theorem undisturbed_runs_keep_triples_pair :
    ∃ s : State Bool, s.handlers.length = 2 ∧ ∀ h ∈ s.handlers, OneAttempt h :=
  have calm : Allowed acceptStep Undisturbed (start : State Bool)
      [.connect true, .accept, .connect true, .connect true, .connect false, .connect false, .accept,
        .connect false, .accept, .acceptFails true, .accept, .accept, .accept] :=
    allowed_cons rfl (by decide) (allowed_cons rfl (by decide) (allowed_cons rfl (by decide)
      (allowed_cons rfl (by decide) (allowed_cons rfl (by decide) (allowed_cons rfl (by decide)
        (allowed_cons rfl (by decide) (allowed_cons rfl (by decide) (allowed_cons rfl (by decide)
          (allowed_cons rfl (by decide) (allowed_cons rfl (by decide)
            (allowed_cons rfl (by decide) (allowed_cons rfl (by decide) trivial))))))))))))
  ⟨_, rfl, undisturbed_runs_keep_triples calm rfl⟩

end DropboxAcceptQueue
