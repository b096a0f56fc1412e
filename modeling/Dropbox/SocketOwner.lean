import Dropbox.General.Custody
import Dropbox.General.Transitions

/-!
Who owns the descriptors (common/networking/Socket.hpp). Objects are created,
moved and destroyed in any order; the OS hands out descriptors that are not
open. `closed` records every call of close, with whether the descriptor was open.
-/
namespace DropboxSocketOwner
open Custody Transitions

abbrev SocketType := Int

def kInvalidSocket : SocketType := -1

structure Socket where
  socket : SocketType
  deriving DecidableEq, Repr

def Socket.isValid (s : Socket) : Prop := s.socket ≠ kInvalidSocket

instance (s : Socket) : Decidable s.isValid := inferInstanceAs (Decidable (_ ≠ _))

/-- Socket(Socket &&other): the new object and what is left of `other`. -/
def Socket.moveConstruct (other : Socket) : Socket × Socket := (other, ⟨kInvalidSocket⟩)

/-- operator= on two objects: this one and what is left of `other`. -/
def Socket.moveAssign (this other : Socket) : Socket × Socket := (⟨other.socket⟩, ⟨this.socket⟩)

structure State (O : Type) where
  objects : O → Option Socket
  opened : Finset SocketType
  closed : List (SocketType × Bool)

def start {O : Type} : State O := ⟨fun _ => none, ∅, []⟩

/-- `construct` and `adopt` come with what `socket` and `accept` return. -/
inductive Action (O : Type) where
  | construct (o : O) (made : SocketType)
  | adopt (o : O) (accepted : SocketType)
  | moveConstruct (o other : O)
  | moveAssign (o other : O)
  | destroy (o : O)
  deriving DecidableEq, Repr

variable {O : Type} [DecidableEq O]

def State.put (s : State O) (o : O) (object : Option Socket) : State O :=
  { s with objects := Function.update s.objects o object }

/-- A descriptor comes from the OS and an object is created with it. -/
def State.adopts (s : State O) (o : O) (d : SocketType) : Option (State O) :=
  if d ∈ s.opened then none
  else some { s.put o (some ⟨d⟩) with opened := insert d s.opened }

def State.close (s : State O) (d : SocketType) : State O :=
  { s with opened := s.opened.erase d, closed := s.closed ++ [(d, decide (d ∈ s.opened))] }

def ownerStep (s : State O) : Action O → Option (State O)
  | .construct o made =>
    if s.objects o ≠ none then none
    else if made = kInvalidSocket then some s   -- SocketCreation is thrown
    else s.adopts o made
  | .adopt o accepted =>
    if s.objects o ≠ none then none
    else if accepted = kInvalidSocket then some (s.put o (some ⟨kInvalidSocket⟩))
    else s.adopts o accepted
  | .moveConstruct o other =>
    match s.objects o, s.objects other with
    | none, some theirs =>
      some ((s.put o (some theirs.moveConstruct.1)).put other (some theirs.moveConstruct.2))
    | _, _ => none
  | .moveAssign o other =>
    match s.objects o, s.objects other with
    | some this, some theirs =>
      if o = other then some s
      else some ((s.put o (some (this.moveAssign theirs).1)).put other
        (some (this.moveAssign theirs).2))
    | _, _ => none
  | .destroy o =>
    match s.objects o with
    | some this =>
      some (if this.isValid then (s.put o none).close this.socket else s.put o none)
    | none => none

def Socket.descriptor (this : Socket) : Option SocketType :=
  if this.isValid then some this.socket else none

/-- The valid descriptor of a live object. -/
def State.holds (s : State O) (o : O) : Option SocketType := (s.objects o).bind Socket.descriptor

theorem descriptor_some {this : Socket} {d : SocketType} :
    this.descriptor = some d ↔ this = ⟨d⟩ ∧ d ≠ kInvalidSocket := by
  obtain ⟨k⟩ := this
  unfold Socket.descriptor
  split
  · rename_i valid
    constructor
    · intro same
      cases same
      exact ⟨rfl, valid⟩
    · rintro ⟨same, _⟩
      cases same
      rfl
  · rename_i invalid
    refine iff_of_false (fun same => by cases same) ?_
    rintro ⟨same, valid⟩
    cases same
    exact invalid valid

theorem descriptor_invalid : (Socket.mk kInvalidSocket).descriptor = none := rfl

omit [DecidableEq O] in
theorem holds_some {s : State O} {o : O} {d : SocketType} :
    s.holds o = some d ↔ s.objects o = some ⟨d⟩ ∧ d ≠ kInvalidSocket := by
  simp only [State.holds, Option.bind_eq_some_iff, descriptor_some]
  constructor
  · rintro ⟨this, found, rfl, valid⟩
    exact ⟨found, valid⟩
  · rintro ⟨found, valid⟩
    exact ⟨_, found, rfl, valid⟩

@[simp] theorem holds_put {s : State O} {o : O} {object : Option Socket} :
    (s.put o object).holds = Function.update s.holds o (object.bind Socket.descriptor) := by
  funext e
  by_cases here : e = o
  · subst e
    simp [State.holds, State.put]
  · simp [State.holds, State.put, here]

/-- Every live object's descriptor is its own and open, and every close was of an open one. -/
structure Owned (s : State O) : Prop where
  custody : InCustody s.holds s.opened
  closes : ∀ c ∈ s.closed, c.2 = true

omit [DecidableEq O] in
theorem owned_start : Owned (start : State O) where
  custody := custody_nothing fun _ => rfl
  closes := by simp [start]

/-- What the operations do to the descriptors held. -/
inductive Moves (s t : State O) : Prop where
  | idle (same : t.holds = s.holds) (opened : t.opened = s.opened) (closed : t.closed = s.closed)
  | give (o : O) (d : SocketType) (without : s.holds o = none) (fresh : d ∉ s.opened)
      (holds : t.holds = Function.update s.holds o (some d)) (opened : t.opened = insert d s.opened)
      (closed : t.closed = s.closed)
  | swap (o other : O) (holds : t.holds = fun e => s.holds (Equiv.swap o other e))
      (opened : t.opened = s.opened) (closed : t.closed = s.closed)
  | drop (o : O) (d : SocketType) (held : s.holds o = some d)
      (holds : t.holds = Function.update s.holds o none) (opened : t.opened = s.opened.erase d)
      (closed : t.closed = s.closed ++ [(d, decide (d ∈ s.opened))])

theorem adopts_gives {s t : State O} {o : O} {d : SocketType} (valid : d ≠ kInvalidSocket)
    (step : s.adopts o d = some t) :
    d ∉ s.opened ∧ t.holds = Function.update s.holds o (some d) ∧ t.opened = insert d s.opened ∧
      t.closed = s.closed := by
  unfold State.adopts at step
  split at step
  · cases step
  · rename_i fresh
    cases step
    have holds : (s.put o (some ⟨d⟩)).holds = Function.update s.holds o (some d) := by
      rw [holds_put, Option.bind_some, descriptor_some.mpr ⟨rfl, valid⟩]
    exact ⟨fresh, holds, rfl, rfl⟩

theorem adopts_moves {s t : State O} {o : O} {d : SocketType} (unused : s.objects o = none)
    (valid : d ≠ kInvalidSocket) (step : s.adopts o d = some t) : Moves s t := by
  obtain ⟨fresh, holds, opened, closed⟩ := adopts_gives valid step
  exact .give o d (by simp [State.holds, unused]) fresh holds opened closed

/-- Each of two places gets an object with the descriptor the other one had. -/
theorem holds_exchanged {s : State O} {o other : O} {new left : Option Socket}
    (taken : new.bind Socket.descriptor = s.holds other)
    (given : left.bind Socket.descriptor = s.holds o) :
    ((s.put o new).put other left).holds = fun e => s.holds (Equiv.swap o other e) := by
  funext e
  rw [holds_put, holds_put, taken, given]
  by_cases second : e = other
  · subst e
    rw [Function.update_self, Equiv.swap_apply_right]
  · rw [Function.update_of_ne second]
    by_cases first : e = o
    · subst e
      rw [Function.update_self, Equiv.swap_apply_left]
    · rw [Function.update_of_ne first, Equiv.swap_apply_of_ne_of_ne first second]

theorem assign_exchanges {s t : State O} {o other : O}
    (step : ownerStep s (.moveAssign o other) = some t) :
    (t.holds = fun e => s.holds (Equiv.swap o other e)) ∧ t.opened = s.opened ∧
      t.closed = s.closed := by
  simp only [ownerStep] at step
  split at step
  · rename_i this theirs mine found
    split at step
    · rename_i itself
      cases step
      subst other
      exact ⟨by simp, rfl, rfl⟩
    · cases step
      refine ⟨holds_exchanged ?_ ?_, rfl, rfl⟩
      · simp [State.holds, found, Socket.moveAssign]
      · simp [State.holds, mine, Socket.moveAssign]
  · cases step

theorem destroy_drops {s t : State O} {o : O} (step : ownerStep s (.destroy o) = some t) :
    t.holds = Function.update s.holds o none ∧
      (s.holds o = none ∧ t.opened = s.opened ∧ t.closed = s.closed ∨
        ∃ d, s.holds o = some d ∧ t.opened = s.opened.erase d ∧
          t.closed = s.closed ++ [(d, decide (d ∈ s.opened))]) := by
  simp only [ownerStep] at step
  split at step
  · rename_i this found
    split at step
    · rename_i valid
      cases step
      exact ⟨holds_put, Or.inr ⟨this.socket, holds_some.mpr ⟨found, valid⟩, rfl, rfl⟩⟩
    · rename_i invalid
      cases step
      refine ⟨holds_put, Or.inl ⟨?_, rfl, rfl⟩⟩
      simp [State.holds, found, Socket.descriptor, invalid]
  · cases step

theorem step_moves {s t : State O} {a : Action O} (step : ownerStep s a = some t) : Moves s t := by
  cases a with
  | construct o made =>
    simp only [ownerStep, ne_eq, ite_not, Option.ite_none_right_eq_some] at step
    obtain ⟨unused, step⟩ := step
    split at step
    · cases step
      exact .idle rfl rfl rfl
    · exact adopts_moves unused ‹_› step
  | adopt o accepted =>
    simp only [ownerStep, ne_eq, ite_not, Option.ite_none_right_eq_some] at step
    obtain ⟨unused, step⟩ := step
    split at step
    · cases step
      refine .idle ?_ rfl rfl
      rw [holds_put, Function.update_eq_self_iff]
      simp [State.holds, unused, descriptor_invalid]
    · exact adopts_moves unused ‹_› step
  | moveConstruct o other =>
    simp only [ownerStep] at step
    split at step
    · rename_i theirs unused found
      cases step
      refine .swap o other (holds_exchanged ?_ ?_) rfl rfl
      · simp [State.holds, found, Socket.moveConstruct]
      · simp [State.holds, unused, Socket.moveConstruct, descriptor_invalid]
    · cases step
  | moveAssign o other =>
    obtain ⟨holds, opened, closed⟩ := assign_exchanges step
    exact .swap o other holds opened closed
  | destroy o =>
    obtain ⟨holds, ⟨without, opened, closed⟩ | ⟨d, held, opened, closed⟩⟩ := destroy_drops step
    · refine .idle ?_ opened closed
      rw [holds, Function.update_eq_self_iff, without]
    · exact .drop o d held holds opened closed

theorem owned_step {s : State O} {a : Action O} {t : State O} (owned : Owned s)
    (step : ownerStep s a = some t) : Owned t := by
  obtain ⟨custody, closes⟩ := owned
  cases step_moves step with
  | idle same opened closed =>
    exact ⟨by rwa [same, opened], by rwa [closed]⟩
  | give o d without fresh holds opened closed =>
    refine ⟨?_, by rwa [closed]⟩
    rw [holds, opened]
    exact custody_give custody without fresh
  | swap o other holds opened closed =>
    refine ⟨?_, by rwa [closed]⟩
    rw [holds, opened]
    exact custody_swap custody o other
  | drop o d held holds opened closed =>
    constructor
    · rw [holds, opened]
      exact custody_drop custody held
    · intro c within
      rw [closed, List.mem_append, List.mem_singleton] at within
      rcases within with before | rfl
      · exact closes c before
      · exact decide_eq_true ((custody.covered d).mpr ⟨o, held⟩)

theorem owned_run {s : State O} {actions : List (Action O)}
    (run : runs ownerStep start actions = some s) : Owned s :=
  invariant_of_runs (fun _ _ _ owned step => owned_step owned step) run owned_start

theorem descriptors_owned_once {s : State O} (actions : List (Action O))
    (run : runs ownerStep start actions = some s) :
    (∀ a b x y, s.objects a = some x → s.objects b = some y → x.isValid → x.socket = y.socket →
      a = b) ∧
    (∀ d ∈ s.opened, ∃! o, ∃ x, s.objects o = some x ∧ x.socket = d) ∧
    (∀ c ∈ s.closed, c.2 = true) ∧
    ((∀ o, s.objects o = none) → s.opened = ∅) := by
  obtain ⟨custody, closes⟩ := owned_run run
  refine ⟨?_, ?_, closes, ?_⟩
  · rintro a b ⟨x⟩ ⟨y⟩ atA atB valid same
    obtain rfl : x = y := same
    exact custody.exclusive a b x (holds_some.mpr ⟨atA, valid⟩) (holds_some.mpr ⟨atB, valid⟩)
  · intro d isOpen
    obtain ⟨o, held, only⟩ := custody.holder isOpen
    obtain ⟨object, valid⟩ := holds_some.mp held
    refine ⟨o, ⟨⟨d⟩, object, rfl⟩, ?_⟩
    rintro b ⟨⟨k⟩, other, rfl⟩
    exact only b (holds_some.mpr ⟨other, valid⟩)
  · intro none
    exact custody.empty_of_idle fun o => by simp [State.holds, none]

def mixedProgram : List (Action Nat) :=
  [.construct 0 5, .adopt 1 7, .moveAssign 0 1, .moveAssign 0 0, .adopt 2 kInvalidSocket,
    .moveAssign 2 0, .destroy 0, .moveConstruct 3 2, .destroy 2, .construct 4 kInvalidSocket,
    .destroy 3, .adopt 2 7, .destroy 1, .destroy 2]

theorem descriptors_owned_once_here : ∃ s : State Nat, runs ownerStep start mixedProgram = some s ∧
    (∀ c ∈ s.closed, c.2 = true) ∧ ((∀ o, s.objects o = none) → s.opened = ∅) := by
  have goesThrough : (runs ownerStep start mixedProgram).isSome := by decide +kernel
  obtain ⟨s, run⟩ := Option.isSome_iff_exists.mp goesThrough
  exact ⟨s, run, (descriptors_owned_once mixedProgram run).2.2⟩

/-- Ring::AcceptPrev; `newPrev` is its local. -/
def acceptPrev (prev newPrev : O) (accepted : SocketType) : List (Action O) :=
  if accepted = kInvalidSocket then [.adopt newPrev accepted, .destroy newPrev]
  else [.adopt newPrev accepted, .moveAssign prev newPrev, .destroy newPrev]

/-- `member = Socket()`, three times in ReconnectToServer and once in CreateNext. -/
def renew (member temporary : O) (made : SocketType) : List (Action O) :=
  if made = kInvalidSocket then [.construct temporary made]
  else [.construct temporary made, .moveAssign member temporary, .destroy temporary]

/-- The member gets the new descriptor, and the one it had is closed with the temporary. -/
theorem adopted_then_assigned {s t : State O} {member temporary : O} {d : SocketType}
    {new : Action O} (owned : Owned s) (valid : d ≠ kInvalidSocket) (apart : member ≠ temporary)
    (adopts : ∀ u, ownerStep s new = some u → s.adopts temporary d = some u)
    (run : runs ownerStep s [new, .moveAssign member temporary, .destroy temporary] = some t) :
    t.holds member = some d ∧ ∀ former, s.holds member = some former → former ∉ t.opened := by
  have owned' : Owned t :=
    invariant_of_runs (fun _ _ _ owned step => owned_step owned step) run owned
  obtain ⟨a, first, run⟩ := runs_cons.mp run
  obtain ⟨b, second, run⟩ := runs_cons.mp run
  obtain ⟨c, third, run⟩ := runs_cons.mp run
  cases run
  obtain ⟨fresh, given, _⟩ := adopts_gives valid (adopts a first)
  have exchanged := (assign_exchanges second).1
  have dropped := (destroy_drops third).1
  have mine : t.holds member = some d := by
    rw [dropped, Function.update_of_ne apart, exchanged, given]
    simp
  refine ⟨mine, fun former had isOpen => ?_⟩
  obtain ⟨o, held⟩ := (owned'.custody.covered former).mp isOpen
  have wasOpen : former ∈ s.opened := (owned.custody.covered former).mpr ⟨member, had⟩
  by_cases here : o = member
  · rw [here, mine] at held
    cases held
    exact fresh wasOpen
  · have away : o ≠ temporary := by
      rintro rfl
      rw [dropped, Function.update_self] at held
      cases held
    rw [dropped, Function.update_of_ne away, exchanged, given] at held
    simp only [Equiv.swap_apply_of_ne_of_ne here away, Function.update_of_ne away] at held
    exact here (owned.custody.exclusive o member former held had)

/-- After AcceptPrev with a connection the previous descriptor of `prev_` is closed. -/
theorem accept_prev_replaces {s t : State O} {prev newPrev : O} {accepted : SocketType}
    (owned : Owned s) (valid : accepted ≠ kInvalidSocket) (apart : prev ≠ newPrev)
    (run : runs ownerStep s (acceptPrev prev newPrev accepted) = some t) :
    t.holds prev = some accepted ∧ ∀ former, s.holds prev = some former → former ∉ t.opened := by
  rw [acceptPrev, if_neg valid] at run
  refine adopted_then_assigned owned valid apart (fun u step => ?_) run
  simp only [ownerStep, if_neg valid, ne_eq, ite_not, Option.ite_none_right_eq_some] at step
  exact step.2

theorem renew_replaces {s t : State O} {member temporary : O} {made : SocketType}
    (owned : Owned s) (valid : made ≠ kInvalidSocket) (apart : member ≠ temporary)
    (run : runs ownerStep s (renew member temporary made) = some t) :
    t.holds member = some made ∧ ∀ former, s.holds member = some former → former ∉ t.opened := by
  rw [renew, if_neg valid] at run
  refine adopted_then_assigned owned valid apart (fun u step => ?_) run
  simp only [ownerStep, if_neg valid, ne_eq, ite_not, Option.ite_none_right_eq_some] at step
  exact step.2

end DropboxSocketOwner
