import Dropbox.General.Stuttering
import Dropbox.Wiring

/-!
The objects over whole runs. Whatever is accepted, moved, handed over and removed, an
exchange goes through its own stream to its own socket, as the specification of Wiring has it.
-/
namespace DropboxWiredRuns
open Transitions Stuttering DropboxWiring
open DropboxFileStore (Path)
open DropboxSocketOwner (Socket SocketType kInvalidSocket)
open DropboxAcceptQueue (SocketRole)
open DropboxDeviceThreads (kDeviceLimit)

variable {U : Type} [DecidableEq U]

/-- Every object is where the specification has its connection. -/
structure Depicts (s : State U) (a : Spec U) : Prop where
  backups : ∀ i, s.memory (.backup s.storage i) = seat (.backup s.storage i) a.backups[i]?
  storages : ∀ storage i, storage ≠ s.storage → s.memory (.backup storage i) = .empty
  size : s.size = a.backups.length
  room : s.size ≤ s.capacity
  made : s.made = a.backups.length
  handlers : ∀ node role, s.memory (.handler node role) =
    seat (.handler node role) ((a.handlers node).map fun h => h role)
  nodes : s.nodes = a.nodes
  threads : ∀ thread, s.threads thread = (a.threads thread).phase
  guests : ∀ thread role, Hosts thread role (s.memory (.argument thread role)) (a.threads thread)
  clients : s.clients = a.clients
  closed : s.closed = a.closed
  talks : s.talks = a.talks

/-- Each backup has the mutex it was made with, and the lists have each handler once. -/
structure Sound (a : Spec U) : Prop where
  locked : ∀ i (c : Connection), a.backups[i]? = some c → c.mutex = some i
  listed : ∀ username, ∀ node ∈ a.clients username, (a.handlers node).isSome
  once : ∀ username, (a.clients username).Nodup
  apart : ∀ username other node, node ∈ a.clients username → node ∈ a.clients other →
    username = other
  fresh : ∀ node, a.nodes ≤ node → a.handlers node = none

section steps
variable {s : State U} {a : Spec U}

/-- The places a picture is about. -/
def Lasting (p : Place) : Prop := p ≠ .newBackup ∧ ∀ role, p ≠ .accepted role

theorem lasting_backup (storage i : Nat) : Lasting (.backup storage i) := by simp [Lasting]

theorem lasting_handler (node : Nat) (role : SocketRole) : Lasting (.handler node role) := by
  simp [Lasting]

theorem lasting_argument (thread : Nat) (role : SocketRole) : Lasting (.argument thread role) := by
  simp [Lasting]

section
omit [DecidableEq U]

theorem depicts_elsewhere {m : Memory} (depicts : Depicts s a)
    (same : ∀ p, Lasting p → m p = s.memory p) : Depicts { s with memory := m } a where
  backups i := (same _ (lasting_backup ..)).trans (depicts.backups i)
  storages storage i apart :=
    (same _ (lasting_backup ..)).trans (depicts.storages storage i apart)
  size := depicts.size
  room := depicts.room
  made := depicts.made
  handlers node role := (same _ (lasting_handler ..)).trans (depicts.handlers node role)
  nodes := depicts.nodes
  threads := depicts.threads
  guests thread role := by
    show Hosts thread role (m _) _
    rw [same _ (lasting_argument ..)]
    exact depicts.guests thread role
  clients := depicts.clients
  closed := depicts.closed
  talks := depicts.talks

theorem adopt_self {p : Place} {d : SocketType} :
    (s.adopt p d).memory p = { Cell.empty with socket := some ⟨d⟩ } := put_self _ p _

theorem adopt_other {p q : Place} {d : SocketType} (other : q ≠ p) :
    (s.adopt p d).memory q = s.memory q := put_other other

end

theorem depicts_acceptBackup (depicts : Depicts s a) (accepted : SocketType) (room : Nat)
    {b : Spec U} (step : specStep a (.acceptBackup accepted room) = some b) :
    ∃ t, s.acceptBackup accepted room = some t ∧ Depicts t b := by
  simp only [specStep, Option.some.injEq] at step
  by_cases invalid : accepted = kInvalidSocket
  · rw [if_pos invalid] at step
    subst step
    have gone := destroy_moved (s := s.adopt .newBackup accepted) (p := .newBackup)
      (by rw [adopt_self, invalid])
    refine ⟨_, (if_pos invalid).trans gone, ?_⟩
    refine depicts_elsewhere (s := s) depicts ?_
    intro p lasting
    rw [put_other lasting.1, adopt_other lasting.1]
  · rw [if_neg invalid] at step
    subst step
    obtain ⟨m, storage, capacity, grown, fits, backups, storages, left, rest⟩ :=
      emplaceBack_appends (s := s.adopt .newBackup accepted) (d := accepted) a.backups .newBackup
        .empty room
        (fun i => (adopt_other (by simp)).trans (depicts.backups i))
        (fun storage i apart => (adopt_other (by simp)).trans (depicts.storages storage i apart))
        depicts.size (by simp) adopt_self
    have made : s.made = a.backups.length := depicts.made
    have gone : State.destroy .newBackup { s.adopt .newBackup accepted with
        memory := m, storage := storage, size := s.size + 1, capacity := capacity,
        made := s.made + 1 } = _ := destroy_moved (by simp only [left])
    have emplaced := congrArg (Option.bind · (State.destroy .newBackup)) grown
    refine ⟨_, (if_neg invalid).trans (emplaced.trans gone), ?_⟩
    have kept : ∀ p, Lasting p → (∀ storage i, p ≠ .backup storage i) →
        m.put .newBackup .empty p = s.memory p := by
      intro p lasting notBackup
      rw [put_other lasting.1, rest p notBackup lasting.1, adopt_other lasting.1]
    constructor
    case backups =>
      intro i
      have seated := backups i
      rw [show (s.adopt .newBackup accepted).made = a.backups.length from made] at seated
      exact (put_other (p := .newBackup) (c := .empty) (by simp)).trans seated
    case storages =>
      intro other i apart
      exact (put_other (p := .newBackup) (c := .empty) (by simp)).trans (storages other i apart)
    case size =>
      rw [List.length_append, ← depicts.size]
      rfl
    case room => exact fits
    case made =>
      rw [List.length_append, ← made]
      rfl
    case handlers =>
      intro node role
      exact (kept _ (lasting_handler ..) (by simp)).trans (depicts.handlers node role)
    case nodes => exact depicts.nodes
    case threads => exact depicts.threads
    case guests =>
      intro thread role
      have hosts := depicts.guests thread role
      rw [← kept _ (lasting_argument ..) (by simp)] at hosts
      exact hosts
    case clients => exact depicts.clients
    case closed => exact depicts.closed
    case talks => exact depicts.talks

theorem accepted_injective : Function.Injective Place.accepted := by
  intro role other same
  cases same
  rfl

theorem argument_injective (thread : Nat) : Function.Injective (Place.argument thread) := by
  intro role other same
  cases same
  rfl

theorem handler_injective (node : Nat) : Function.Injective (Place.handler node) := by
  intro role other same
  cases same
  rfl

omit [DecidableEq U] in
/-- The locals of Primary::MainLoop. -/
theorem adopt_roles (accepted : SocketRole → SocketType) :
    ∃ m, roles.foldl (fun t role => t.adopt (.accepted role) (accepted role)) s =
        { s with memory := m } ∧
      (∀ role, m (.accepted role) = { Cell.empty with socket := some ⟨accepted role⟩ }) ∧
      ∀ p, Lasting p → m p = s.memory p := by
  let held := fun role : SocketRole => { Cell.empty with socket := some ⟨accepted role⟩ }
  refine ⟨((s.memory.put (.accepted .payload) (held .payload)).put (.accepted .clientSync)
    (held .clientSync)).put (.accepted .serverSync) (held .serverSync), rfl, ?_, ?_⟩
  · intro role
    cases role with
    | payload => rw [put_other (by simp), put_other (by simp), put_self]
    | clientSync => rw [put_other (by simp), put_self]
    | serverSync => rw [put_self]
  · intro p lasting
    rw [put_other (lasting.2 _), put_other (lasting.2 _), put_other (lasting.2 _)]

theorem lasting_not_accepted {p : Place} (lasting : Lasting p) (order : List SocketRole) :
    p ∉ order.map .accepted := by
  intro member
  obtain ⟨role, _, same⟩ := List.mem_map.mp member
  exact lasting.2 role same.symm

section
omit [DecidableEq U]

theorem depicts_closed (depicts : Depicts s a) (more : List SocketType) :
    Depicts { s with closed := s.closed ++ more } { a with closed := a.closed ++ more } where
  backups := depicts.backups
  storages := depicts.storages
  size := depicts.size
  room := depicts.room
  made := depicts.made
  handlers := depicts.handlers
  nodes := depicts.nodes
  threads := depicts.threads
  guests := depicts.guests
  clients := depicts.clients
  closed := congrArg (· ++ more) depicts.closed
  talks := depicts.talks

/-- A thread's places with its phase and a handler's places change, nothing else that lasts. -/
theorem depicts_changed {m : Memory} {g : Guest} {h : Option (SocketRole → Connection)}
    (thread node : Nat) (depicts : Depicts s a)
    (hosts : ∀ role, Hosts thread role (m (.argument thread role)) g)
    (seats : ∀ role, m (.handler node role) = seat (.handler node role) (h.map fun h => h role))
    (same : ∀ p, Lasting p → (∀ role, p ≠ .argument thread role) →
      (∀ role, p ≠ .handler node role) → m p = s.memory p) :
    Depicts { s with memory := m, threads := Function.update s.threads thread g.phase }
      { a with threads := Function.update a.threads thread g,
               handlers := Function.update a.handlers node h } where
  backups i := (same _ (lasting_backup ..) (by simp) (by simp)).trans (depicts.backups i)
  storages storage i apart :=
    (same _ (lasting_backup ..) (by simp) (by simp)).trans (depicts.storages storage i apart)
  size := depicts.size
  room := depicts.room
  made := depicts.made
  handlers other role := by
    show m (.handler other role) =
      seat (.handler other role) ((Function.update a.handlers node h other).map fun h => h role)
    by_cases here : other = node
    · subst here
      rw [Function.update_self]
      exact seats role
    · have apart : ∀ r, Place.handler other role ≠ .handler node r := by
        intro r equal
        cases equal
        exact here rfl
      rw [Function.update_of_ne here, same _ (lasting_handler ..) (by simp) apart]
      exact depicts.handlers other role
  nodes := depicts.nodes
  threads other := by
    by_cases here : other = thread
    · subst here
      simp
    · simp [Function.update_of_ne here, depicts.threads]
  guests other role := by
    show Hosts other role (m (.argument other role)) (Function.update a.threads thread g other)
    by_cases here : other = thread
    · subst here
      rw [Function.update_self]
      exact hosts role
    · have apart : ∀ r, Place.argument other role ≠ .argument thread r := by
        intro r equal
        cases equal
        exact here rfl
      rw [Function.update_of_ne here, same _ (lasting_argument ..) apart (by simp)]
      exact depicts.guests other role
  clients := depicts.clients
  closed := depicts.closed
  talks := depicts.talks

theorem depicts_thread {m : Memory} {g : Guest} (thread : Nat) (depicts : Depicts s a)
    (hosts : ∀ role, Hosts thread role (m (.argument thread role)) g)
    (same : ∀ p, Lasting p → (∀ role, p ≠ .argument thread role) → m p = s.memory p) :
    Depicts { s with memory := m, threads := Function.update s.threads thread g.phase }
      { a with threads := Function.update a.threads thread g } := by
  have changed := depicts_changed (h := a.handlers 0) thread 0 depicts hosts (by
    intro role
    rw [same _ (lasting_handler ..) (by simp)]
    exact depicts.handlers 0 role) (fun p lasting elsewhere _ => same p lasting elsewhere)
  rwa [Function.update_eq_self] at changed

theorem depicts_handler {m : Memory} {h : Option (SocketRole → Connection)} (node : Nat)
    (depicts : Depicts s a)
    (seats : ∀ role, m (.handler node role) = seat (.handler node role) (h.map fun h => h role))
    (same : ∀ p, Lasting p → (∀ role, p ≠ .handler node role) → m p = s.memory p) :
    Depicts { s with memory := m } { a with handlers := Function.update a.handlers node h } := by
  have changed := depicts_changed (g := a.threads 0) 0 node depicts (by
    intro role
    rw [same _ (lasting_argument ..) (by simp)]
    exact depicts.guests 0 role) seats (fun p lasting _ elsewhere => same p lasting elsewhere)
  rwa [Function.update_eq_self, ← depicts.threads, Function.update_eq_self] at changed

end

/-- The sockets that MainLoop accepted go to the thread of NewClient. -/
theorem hands_over {m : Memory} (thread : Nat) (accepted : SocketRole → SocketType)
    (there : ∀ role, m (.accepted role) = { Cell.empty with socket := some ⟨accepted role⟩ }) :
    ∃ n, (do
        let m ← moveSocket (.argument thread .payload) (.accepted .payload) m
        let m ← moveSocket (.argument thread .clientSync) (.accepted .clientSync) m
        moveSocket (.argument thread .serverSync) (.accepted .serverSync) m) = some n ∧
      (∀ role, (n (.accepted role)).socket = some ⟨kInvalidSocket⟩) ∧
      (∀ role, n (.argument thread role) =
        { m (.argument thread role) with socket := some ⟨accepted role⟩ }) ∧
      ∀ p, Lasting p → (∀ role, p ≠ .argument thread role) → n p = m p := by
  have first := moveSocket_held (m := m) (.argument thread .payload) (.accepted .payload)
    ⟨accepted .payload⟩ (by simp) (by rw [there])
  generalize one : m.pair _ _ _ _ = m₁ at first
  have second := moveSocket_held (m := m₁) (.argument thread .clientSync)
    (.accepted .clientSync) ⟨accepted .clientSync⟩ (by simp)
    (by rw [← one, pair_elsewhere (by simp) (by simp), there])
  generalize two : m₁.pair _ _ _ _ = m₂ at second
  have third := moveSocket_held (m := m₂) (.argument thread .serverSync)
    (.accepted .serverSync) ⟨accepted .serverSync⟩ (by simp)
    (by rw [← two, pair_elsewhere (by simp) (by simp), ← one,
      pair_elsewhere (by simp) (by simp), there])
  generalize three : m₂.pair _ _ _ _ = m₃ at third
  refine ⟨m₃, ?_, ?_, ?_, ?_⟩
  · simp only [first, second, third, Option.bind_eq_bind, Option.bind_some]
  · intro role
    cases role with
    | payload => rw [← three, pair_elsewhere (by simp) (by simp), ← two,
        pair_elsewhere (by simp) (by simp), ← one, pair_other]
    | clientSync => rw [← three, pair_elsewhere (by simp) (by simp), ← two, pair_other]
    | serverSync => rw [← three, pair_other]
  · intro role
    cases role with
    | payload => rw [← three, pair_elsewhere (by simp) (by simp), ← two,
        pair_elsewhere (by simp) (by simp), ← one, pair_this (by simp)]
    | clientSync => rw [← three, pair_elsewhere (by simp) (by simp), ← two,
        pair_this (by simp), ← one, pair_elsewhere (by simp) (by simp)]
    | serverSync => rw [← three, pair_this (by simp), ← two,
        pair_elsewhere (by simp) (by simp), ← one, pair_elsewhere (by simp) (by simp)]
  · intro p lasting elsewhere
    rw [← three, pair_elsewhere (elsewhere _) (lasting.2 _), ← two,
      pair_elsewhere (elsewhere _) (lasting.2 _), ← one,
      pair_elsewhere (elsewhere _) (lasting.2 _)]

theorem depicts_newClient (depicts : Depicts s a) (thread : Nat)
    (accepted : SocketRole → SocketType) {b : Spec U}
    (step : specStep a (.newClient thread accepted) = some b) :
    ∃ t, s.newClient thread accepted = some t ∧ Depicts t b := by
  cases phase : a.threads thread with
  | greeting _ _ => simp [specStep, phase] at step
  | handed => simp [specStep, phase] at step
  | absent =>
    simp only [specStep, phase, Option.some.injEq] at step
    have idle : s.threads thread = .absent := by rw [depicts.threads, phase]; rfl
    have free : ∀ role, s.memory (.argument thread role) = .empty := by
      intro role
      have hosts := depicts.guests thread role
      rw [phase] at hosts
      exact hosts
    obtain ⟨m, made, locals, others⟩ := adopt_roles (s := s) accepted
    rw [State.newClient, if_pos idle, made]
    by_cases invalid : roles.any fun role => accepted role = kInvalidSocket
    · rw [if_pos invalid] at step
      subst step
      rw [if_pos invalid, destroyAll_closes accepted accepted_injective
        (by decide) fun role _ => by simp only [locals]]
      have kept := depicts_elsewhere (m := m.clear (roles.reverse.map .accepted)) depicts (by
        intro p lasting
        rw [clear_other (lasting_not_accepted lasting _)]
        exact others p lasting)
      exact ⟨_, rfl, depicts_closed kept _⟩
    · rw [if_neg invalid] at step
      subst step
      rw [if_neg invalid]
      obtain ⟨n, handed, moved, given, kept⟩ := hands_over thread accepted locals
      simp only [Option.bind_eq_bind, ← Option.bind_assoc] at handed ⊢
      rw [handed, Option.bind_some,
        destroyAll_moved accepted_injective (by decide) fun role _ => moved role, Option.bind_some]
      have cleared : ∀ p, Lasting p → Memory.clear (roles.reverse.map .accepted) n p = n p :=
        fun p lasting => clear_other (lasting_not_accepted lasting _)
      have hosts : ∀ role, Hosts thread role (constructStream (.argument thread .payload)
          (.argument thread .payload) (Memory.clear (roles.reverse.map .accepted) n)
          (.argument thread role)) (.greeting (.fresh fun _ => 0) accepted) := by
        intro role
        have held := (cleared _ (lasting_argument ..)).trans (given role)
        rw [others _ (lasting_argument ..), free] at held
        cases role with
        | payload =>
          rw [constructStream, put_self, held]
          rfl
        | clientSync =>
          rw [constructStream, put_other (by simp), held]
          rfl
        | serverSync =>
          rw [constructStream, put_other (by simp), held]
          rfl
      have same : ∀ p, Lasting p → (∀ role, p ≠ .argument thread role) →
          constructStream (.argument thread .payload) (.argument thread .payload)
            (Memory.clear (roles.reverse.map .accepted) n) p = s.memory p := by
        intro p lasting elsewhere
        rw [constructStream, put_other (elsewhere _), cleared p lasting, kept p lasting elsewhere]
        exact others p lasting
      exact ⟨_, rfl, depicts_thread thread depicts hosts same⟩

omit [DecidableEq U] in
theorem depicts_talk (depicts : Depicts s a) (more : List Talk) :
    Depicts { s with talks := s.talks ++ more } { a with talks := a.talks ++ more } where
  backups := depicts.backups
  storages := depicts.storages
  size := depicts.size
  room := depicts.room
  made := depicts.made
  handlers := depicts.handlers
  nodes := depicts.nodes
  threads := depicts.threads
  guests := depicts.guests
  clients := depicts.clients
  closed := depicts.closed
  talks := congrArg (· ++ more) depicts.talks

omit [DecidableEq U] in
theorem depicts_lists (depicts : Depicts s a) (nodes : Nat) (clients : U → List Nat) :
    Depicts { s with nodes := nodes, clients := clients }
      { a with nodes := nodes, clients := clients } where
  backups := depicts.backups
  storages := depicts.storages
  size := depicts.size
  room := depicts.room
  made := depicts.made
  handlers := depicts.handlers
  nodes := rfl
  threads := depicts.threads
  guests := depicts.guests
  clients := rfl
  closed := depicts.closed
  talks := depicts.talks

theorem depicts_readUsername (depicts : Depicts s a) (thread : Nat) (operation : Operation)
    {b : Spec U} (step : specStep a (.readUsername thread operation) = some b) :
    ∃ t, wiringStep s (.readUsername thread operation) = some t ∧ Depicts t b := by
  cases phase : a.threads thread with
  | absent => simp [specStep, phase] at step
  | handed => simp [specStep, phase] at step
  | greeting stream descriptor =>
    simp only [specStep, phase, Option.some.injEq] at step
    subst step
    have reading : s.threads thread = .greeting := by rw [depicts.threads, phase]; rfl
    have hosts : ∀ role, Hosts thread role (s.memory (.argument thread role))
        (.greeting stream descriptor) := by
      intro role
      rw [← phase]
      exact depicts.guests thread role
    have own := hosts .payload
    rw [Hosts, if_pos rfl] at own
    have operated := operate_own none operation own
    have kept := depicts_thread (g := .greeting (operation stream) descriptor)
      (m := s.memory.put (.argument thread .payload) ⟨some ⟨descriptor .payload⟩,
        some ⟨.argument thread .payload, (operation stream).eofbit, (operation stream).failbit,
          (operation stream).badbit, .argument thread .payload, some (operation stream).buf⟩,
        none, none⟩) thread depicts (by
        intro role
        by_cases first : role = .payload
        · subst first
          rw [put_self]
          rfl
        · have apart : Place.argument thread role ≠ .argument thread .payload :=
            fun same => first (argument_injective thread same)
          rw [put_other apart]
          have other := hosts role
          rw [Hosts, if_neg first] at other ⊢
          exact other) (by
        intro p _ elsewhere
        exact put_other (elsewhere _))
    have unchanged : Function.update s.threads thread Phase.greeting = s.threads := by
      rw [← reading]
      exact Function.update_eq_self ..
    rw [show Guest.phase (.greeting (operation stream) descriptor) = .greeting from rfl,
      unchanged] at kept
    exact ⟨_, (if_pos reading).trans operated, depicts_talk kept _⟩

omit [DecidableEq U] in
theorem depicts_endThread {thread : Nat} (held : SocketRole → SocketType) (depicts : Depicts s a)
    (there : ∀ role, (s.memory (.argument thread role)).socket = some ⟨held role⟩) :
    ∃ t, s.endThread thread = some t ∧ Depicts t { a with
      threads := Function.update a.threads thread .absent,
      closed := a.closed ++ closes (roles.map held) } := by
  have gone := destroyAll_closes held (argument_injective thread) roles_nodup
    fun role _ => there role
  rw [State.endThread, gone]
  have kept := depicts_thread (g := .absent)
    (m := Memory.clear (roles.map (.argument thread)) s.memory) thread depicts (by
      intro role
      exact clear_member (List.mem_map_of_mem (mem_roles role))) (by
      intro p _ elsewhere
      refine clear_other fun member => ?_
      obtain ⟨role, _, same⟩ := List.mem_map.mp member
      exact elsewhere role same.symm)
  exact ⟨_, rfl, depicts_closed kept _⟩

theorem depicts_ended (depicts : Depicts s a) (thread : Nat) {b : Spec U}
    (step : specStep a (.endThread thread) = some b) :
    ∃ t, wiringStep s (.endThread thread) = some t ∧ Depicts t b := by
  have phase : s.threads thread = (a.threads thread).phase := depicts.threads thread
  have hosts := depicts.guests thread
  cases guest : a.threads thread with
  | absent => simp [specStep, guest] at step
  | greeting stream descriptor =>
    simp only [specStep, guest, Option.some.injEq] at step
    subst step
    rw [guest] at phase hosts
    obtain ⟨t, ended, pictured⟩ := depicts_endThread descriptor depicts
      fun role => by rw [hosts role]
    exact ⟨t, (if_neg (by simp [phase, Guest.phase])).trans ended, pictured⟩
  | handed =>
    simp only [specStep, guest, Option.some.injEq] at step
    subst step
    rw [guest] at phase hosts
    obtain ⟨t, ended, pictured⟩ := depicts_endThread (fun _ => kInvalidSocket) depicts
      fun role => hosts role
    rw [show closes (roles.map fun _ => kInvalidSocket) = [] from rfl, List.append_nil] at pictured
    exact ⟨t, (if_neg (by simp [phase, Guest.phase])).trans ended, pictured⟩

omit [DecidableEq U] in
/-- An exchange of a handler works on the handler's own connection. -/
theorem depicts_use (depicts : Depicts s a) (node : Nat) (role : SocketRole) (operation : Operation)
    (path : Option Path) {b : Spec U} (used : a.use node role operation path = some b) :
    ∃ c, s.memory (.handler node role) = wired (.handler node role) c ∧
      Depicts { s with
        memory := s.memory.put (.handler node role)
          (wired (.handler node role) (c.after operation path)),
        talks := s.talks ++ [⟨none, c.descriptor⟩] } b := by
  simp only [Spec.use, Option.map_eq_some_iff] at used
  obtain ⟨h, here, rfl⟩ := used
  have seats := depicts.handlers node
  rw [here] at seats
  refine ⟨h role, seats role, ?_⟩
  have kept := depicts_handler
    (h := some (Function.update h role ((h role).after operation path)))
    (m := s.memory.put (.handler node role)
      (wired (.handler node role) ((h role).after operation path))) node depicts (by
      intro other
      by_cases same : other = role
      · subst same
        rw [put_self, Option.map_some, Function.update_self]
        rfl
      · have apart : Place.handler node other ≠ .handler node role :=
          fun equal => same (handler_injective node equal)
        rw [put_other apart, seats other, Option.map_some, Option.map_some,
          Function.update_of_ne same]) (by
      intro p _ elsewhere
      exact put_other (elsewhere _))
  exact depicts_talk kept _

theorem depicts_exchange (depicts : Depicts s a) (node : Nat) (role : SocketRole)
    (operation : Operation) (path : Option Path) {b : Spec U}
    (step : specStep a (.exchange node role operation path) = some b) :
    ∃ t, wiringStep s (.exchange node role operation path) = some t ∧ Depicts t b := by
  obtain ⟨c, there, pictured⟩ := depicts_use depicts node role operation path step
  exact ⟨_, exchange_wired none operation path there, pictured⟩

theorem depicts_stream (depicts : Depicts s a) (node : Nat) (role : SocketRole)
    (operation : Operation) {b : Spec U}
    (step : specStep a (.stream node role operation) = some b) :
    ∃ t, wiringStep s (.stream node role operation) = some t ∧ Depicts t b := by
  obtain ⟨c, there, pictured⟩ := depicts_use depicts node role operation none step
  exact ⟨_, operate_wired none operation there, pictured⟩

theorem depicts_syncBackup (depicts : Depicts s a) (sound : Sound a) (index : Nat)
    (operation : Operation) (path : Option Path) {b : Spec U}
    (step : specStep a (.syncBackup index operation path) = some b) :
    ∃ t, wiringStep s (.syncBackup index operation path) = some t ∧ Depicts t b := by
  simp only [specStep, Option.map_eq_some_iff] at step
  obtain ⟨c, here, rfl⟩ := step
  obtain ⟨inside, _⟩ := List.getElem?_eq_some_iff.mp here
  have size := depicts.size
  have there := depicts.backups index
  rw [here] at there
  have synced := syncBackup_wired operation path there (sound.locked index c here)
  refine ⟨_, (if_pos (by omega)).trans synced, ?_⟩
  have elsewhere : ∀ p, p ≠ .backup s.storage index →
      s.memory.put (.backup s.storage index)
        (wired (.backup s.storage index) (c.after operation path)) p = s.memory p :=
    fun p => put_other
  constructor
  case backups =>
    intro i
    show s.memory.put _ _ (.backup s.storage i) = _
    by_cases same : i = index
    · subst same
      rw [put_self, List.getElem?_set_self inside]
      rfl
    · have apart : Place.backup s.storage i ≠ .backup s.storage index := by
        intro equal
        cases equal
        exact same rfl
      rw [elsewhere _ apart, depicts.backups, List.getElem?_set_ne (Ne.symm same)]
  case storages =>
    intro storage i apart
    have other : Place.backup storage i ≠ .backup s.storage index := by
      intro equal
      cases equal
      exact apart rfl
    exact (elsewhere _ other).trans (depicts.storages storage i apart)
  case size =>
    rw [List.length_set]
    exact size
  case room => exact depicts.room
  case made =>
    rw [List.length_set]
    exact depicts.made
  case handlers =>
    intro node role
    exact (elsewhere _ (by simp)).trans (depicts.handlers node role)
  case nodes => exact depicts.nodes
  case threads => exact depicts.threads
  case guests =>
    intro thread role
    have hosts := depicts.guests thread role
    rw [← elsewhere _ (by simp)] at hosts
    exact hosts
  case clients => exact depicts.clients
  case closed => exact depicts.closed
  case talks => exact congrArg (· ++ [⟨c.mutex, c.descriptor⟩]) depicts.talks

omit [DecidableEq U] in
/-- ~ClientHandler closes the three sockets. -/
theorem depicts_destroyHandler {h : SocketRole → Connection} (node : Nat) (depicts : Depicts s a)
    (here : a.handlers node = some h) :
    ∃ t, s.destroyHandler node = some t ∧ Depicts t { a with
      handlers := Function.update a.handlers node none,
      closed := a.closed ++ closes (roles.reverse.map fun role => (h role).descriptor) } := by
  have seats := depicts.handlers node
  rw [here] at seats
  have gone := destroyAll_closes (s := s) (fun role => (h role).descriptor)
    (handler_injective node) (List.nodup_reverse.mpr roles_nodup)
    fun role _ => by rw [seats role]; rfl
  have kept := depicts_handler (h := none)
    (m := Memory.clear (roles.reverse.map (.handler node)) s.memory) node depicts (by
      intro role
      exact clear_member (List.mem_map_of_mem (mem_roles_reverse role))) (by
      intro p _ elsewhere
      refine clear_other fun member => ?_
      obtain ⟨role, _, same⟩ := List.mem_map.mp member
      exact elsewhere role same.symm)
  exact ⟨_, gone, depicts_closed kept _⟩

theorem hired_descriptor (stream : DropboxSocketStream.SocketStream)
    (descriptor : SocketRole → SocketType) (role : SocketRole) :
    (hired stream descriptor role).descriptor = descriptor role := by
  cases role <;> rfl

theorem depicts_emplace (depicts : Depicts s a) (sound : Sound a) (thread : Nat) (username : U)
    (throws : Bool) {b : Spec U} (step : specStep a (.emplace thread username throws) = some b) :
    ∃ t, wiringStep s (.emplace thread username throws) = some t ∧ Depicts t b := by
  cases phase : a.threads thread with
  | absent => simp [specStep, phase] at step
  | handed => simp [specStep, phase] at step
  | greeting stream descriptor =>
    simp only [specStep, phase, Option.some.injEq] at step
    have greeting : s.threads thread = .greeting := by rw [depicts.threads, phase]; rfl
    have hosts : ∀ role, Hosts thread role (s.memory (.argument thread role))
        (.greeting stream descriptor) := by
      intro role
      rw [← phase]
      exact depicts.guests thread role
    have lists := depicts.clients
    have nodes := depicts.nodes
    rw [wiringStep, State.emplace, if_neg (by simp [greeting])]
    by_cases full : (a.clients username).length ≥ kDeviceLimit
    · rw [if_pos full] at step
      rw [if_pos (by rw [lists]; exact full)]
      subst step
      exact depicts_endThread descriptor depicts fun role => by rw [hosts role]
    · rw [if_neg full] at step
      rw [if_neg (by rw [lists]; exact full)]
      have vacant : a.handlers a.nodes = none := sound.fresh _ (Nat.le_refl _)
      have free : ∀ role, s.memory (.handler s.nodes role) = .empty := by
        intro role
        rw [depicts.handlers, nodes, vacant]
        rfl
      obtain ⟨n, built, seats, husks, rest⟩ := constructClientHandler_hires free hosts
      simp only [built, Option.bind_eq_bind, Option.bind_some]
      have hiring := depicts_changed (g := .handed) (h := some (hired stream descriptor)) thread
        s.nodes depicts husks seats
        fun p _ notArgument notHandler => rest p notHandler notArgument
      cases throws with
      | false =>
        simp only [Bool.false_eq_true, ↓reduceIte] at step ⊢
        subst step
        rw [nodes, lists]
        rw [nodes] at hiring
        exact ⟨_, rfl, depicts_lists hiring _ _⟩
      | true =>
        simp only [↓reduceIte] at step ⊢
        subst step
        have listed := depicts_lists hiring (s.nodes + 1) s.clients
        obtain ⟨t, destroyed, without⟩ := depicts_destroyHandler s.nodes listed
          (Function.update_self ..)
        have husks' : ∀ role,
            (t.memory (.argument thread role)).socket = some ⟨kInvalidSocket⟩ := by
          intro role
          have hosts' := without.guests thread role
          simp only [Function.update_self] at hosts'
          exact hosts'
        obtain ⟨u, ended, pictured⟩ := depicts_endThread _ without husks'
        have restored : Function.update a.handlers a.nodes none = a.handlers := by
          rw [← vacant, Function.update_eq_self]
        have silent : closes (roles.map fun _ => kInvalidSocket) = [] := rfl
        simp only [hired_descriptor, silent, Function.update_idem, List.append_nil, nodes, lists,
          restored] at pictured
        have unwound := congrArg (Option.bind · (State.endThread thread)) destroyed
        exact ⟨u, unwound.trans ended, pictured⟩

omit [DecidableEq U] in
theorem depicts_destroyHandlers (cut : List Nat) (depicts : Depicts s a) (different : cut.Nodup)
    (present : ∀ node ∈ cut, (a.handlers node).isSome) :
    ∃ t, s.destroyHandlers cut = some t ∧ Depicts t { a with
      handlers := fun node => if node ∈ cut then none else a.handlers node,
      closed := a.closed ++ cut.flatMap a.leaving } := by
  induction cut generalizing s a with
  | nil => exact ⟨s, rfl, by simpa using depicts⟩
  | cons node rest ih =>
    obtain ⟨first, later⟩ := List.nodup_cons.mp different
    obtain ⟨h, here⟩ := Option.isSome_iff_exists.mp (present node List.mem_cons_self)
    obtain ⟨t, destroyed, without⟩ := depicts_destroyHandler node depicts here
    have others : ∀ other ∈ rest,
        Function.update a.handlers node none other = a.handlers other := by
      intro other member
      refine Function.update_of_ne ?_ ..
      rintro rfl
      exact first member
    obtain ⟨u, rest', pictured⟩ := ih without later (by
      intro other member
      show (Function.update a.handlers node none other).isSome
      rw [others other member]
      exact present other (List.mem_cons_of_mem _ member))
    have listed : (fun other => if other ∈ rest then none
        else Function.update a.handlers node none other) =
        fun other => if other ∈ node :: rest then none else a.handlers other := by
      funext other
      by_cases same : other = node
      · subst same
        simp [first]
      · simp [same]
    have left : rest.flatMap (Spec.leaving { a with
        handlers := Function.update a.handlers node none,
        closed := a.closed ++ closes (roles.reverse.map fun role => (h role).descriptor) }) =
        rest.flatMap a.leaving := by
      apply List.flatMap_congr
      intro other member
      rw [Spec.leaving, Spec.leaving]
      simp only [others other member]
    have leaves : a.leaving node =
        closes (roles.reverse.map fun role => (h role).descriptor) := by
      rw [Spec.leaving, here]
      rfl
    simp only [listed, left] at pictured
    rw [List.append_assoc, ← leaves, ← List.flatMap_cons] at pictured
    have removed := congrArg (Option.bind · (State.destroyHandlers rest)) destroyed
    exact ⟨u, removed.trans rest', pictured⟩

theorem depicts_remove (depicts : Depicts s a) (sound : Sound a) (username : U)
    (clientId : SocketType) {b : Spec U}
    (step : specStep a (.remove username clientId) = some b) :
    ∃ t, wiringStep s (.remove username clientId) = some t ∧ Depicts t b := by
  simp only [specStep, Option.some.injEq] at step
  subst step
  have ids : ∀ node, s.getId node = a.getId node := by
    intro node
    rw [State.getId, Spec.getId, depicts.handlers]
    cases a.handlers node <;> rfl
  rw [wiringStep, State.remove]
  simp only [ids, depicts.clients]
  have listed := depicts_lists depicts s.nodes (Function.update a.clients username
    ((a.clients username).filter fun node => a.getId node ≠ some clientId))
  obtain ⟨t, removed, pictured⟩ := depicts_destroyHandlers
    ((a.clients username).filter fun node => a.getId node = some clientId) listed
    ((sound.once username).filter _) (by
      intro node member
      exact sound.listed username node (List.mem_of_mem_filter member))
  simp only [depicts.nodes] at pictured
  exact ⟨t, removed, pictured⟩

/-- Whatever the specification can do the objects do, and the references hold. -/
theorem depicts_step (depicts : Depicts s a) (sound : Sound a) (act : Action U) {b : Spec U}
    (step : specStep a act = some b) : ∃ t, wiringStep s act = some t ∧ Depicts t b := by
  cases act with
  | acceptBackup accepted room => exact depicts_acceptBackup depicts accepted room step
  | newClient thread accepted => exact depicts_newClient depicts thread accepted step
  | readUsername thread operation => exact depicts_readUsername depicts thread operation step
  | emplace thread username throws =>
    exact depicts_emplace depicts sound thread username throws step
  | endThread thread => exact depicts_ended depicts thread step
  | remove username clientId => exact depicts_remove depicts sound username clientId step
  | exchange node role operation path =>
    exact depicts_exchange depicts node role operation path step
  | stream node role operation => exact depicts_stream depicts node role operation step
  | syncBackup index operation path =>
    exact depicts_syncBackup depicts sound index operation path step

section
omit [DecidableEq U]

theorem depicts_start : Depicts (start : State U) Spec.start where
  backups _ := rfl
  storages _ _ _ := rfl
  size := rfl
  room := Nat.le_refl _
  made := rfl
  handlers _ _ := rfl
  nodes := rfl
  threads _ := rfl
  guests _ _ := rfl
  clients := rfl
  closed := rfl
  talks := rfl

theorem sound_start : Sound (Spec.start : Spec U) where
  locked i c here := by simp [Spec.start] at here
  listed username node member := by cases member
  once username := List.nodup_nil
  apart username other node member := by cases member
  fresh _ _ := rfl

theorem sound_same {b : Spec U} (sound : Sound a) (backups : b.backups = a.backups)
    (handlers : b.handlers = a.handlers) (clients : b.clients = a.clients)
    (nodes : a.nodes ≤ b.nodes) : Sound b where
  locked := by
    rw [backups]
    exact sound.locked
  listed := by
    rw [handlers, clients]
    exact sound.listed
  once := by
    rw [clients]
    exact sound.once
  apart := by
    rw [clients]
    exact sound.apart
  fresh node later := by
    rw [handlers]
    exact sound.fresh node (by omega)

theorem sound_use {node : Nat} {role : SocketRole} {operation : Operation} {path : Option Path}
    {b : Spec U} (sound : Sound a) (used : a.use node role operation path = some b) : Sound b := by
  simp only [Spec.use, Option.map_eq_some_iff] at used
  obtain ⟨h, here, rfl⟩ := used
  constructor
  case locked => exact sound.locked
  case listed =>
    intro username other member
    show (Function.update a.handlers node _ other).isSome
    by_cases same : other = node
    · subst same
      rw [Function.update_self]
      rfl
    · rw [Function.update_of_ne same]
      exact sound.listed username other member
  case once => exact sound.once
  case apart => exact sound.apart
  case fresh =>
    intro other later
    show Function.update a.handlers node _ other = none
    have vacant := sound.fresh other later
    by_cases same : other = node
    · subst same
      rw [vacant] at here
      cases here
    · rw [Function.update_of_ne same]
      exact vacant

end

/-- A new handler is at the end of its user's list and in no other. -/
theorem sound_hired (sound : Sound a) (username : U) (h : SocketRole → Connection)
    (threads : Nat → Guest) : Sound { a with
      handlers := Function.update a.handlers a.nodes (some h), nodes := a.nodes + 1,
      clients := Function.update a.clients username (a.clients username ++ [a.nodes]),
      threads := threads } := by
  have new : ∀ other, a.nodes ∉ a.clients other := by
    intro other member
    have present := sound.listed other _ member
    rw [sound.fresh _ (Nat.le_refl _)] at present
    cases present
  have members : ∀ other node, node ∈ Function.update a.clients username
      (a.clients username ++ [a.nodes]) other ↔
      node ∈ a.clients other ∨ other = username ∧ node = a.nodes := by
    intro other node
    by_cases same : other = username
    · subst same
      simp
    · simp [same]
  constructor
  case locked => exact sound.locked
  case listed =>
    intro other node member
    show (Function.update a.handlers a.nodes _ node).isSome
    by_cases same : node = a.nodes
    · rw [same, Function.update_self]
      rfl
    · rw [Function.update_of_ne same]
      cases (members other node).mp member with
      | inl old => exact sound.listed other node old
      | inr latest => exact absurd latest.2 same
  case once =>
    intro other
    show (Function.update a.clients username _ other).Nodup
    by_cases same : other = username
    · subst same
      rw [Function.update_self]
      refine List.nodup_append.mpr ⟨sound.once other, List.nodup_singleton _, ?_⟩
      rintro node old _ last rfl
      rw [List.mem_singleton] at last
      exact new other (last ▸ old)
    · rw [Function.update_of_ne same]
      exact sound.once other
  case apart =>
    intro one two node inOne inTwo
    cases (members one node).mp inOne with
    | inl old =>
      cases (members two node).mp inTwo with
      | inl old' => exact sound.apart one two node old old'
      | inr latest => exact absurd (latest.2 ▸ old) (new one)
    | inr latest =>
      cases (members two node).mp inTwo with
      | inl old' => exact absurd (latest.2 ▸ old') (new two)
      | inr latest' => exact latest.1.trans latest'.1.symm
  case fresh =>
    intro node later
    show Function.update a.handlers a.nodes _ node = none
    have later' : a.nodes + 1 ≤ node := later
    rw [Function.update_of_ne (by omega)]
    exact sound.fresh node (by omega)

theorem sound_removed (sound : Sound a) (username : U) (clientId : SocketType) {b : Spec U}
    (step : specStep a (.remove username clientId) = some b) : Sound b := by
  simp only [specStep, Option.some.injEq] at step
  subst step
  have fewer : ∀ other node, node ∈ Function.update a.clients username
      ((a.clients username).filter fun node => a.getId node ≠ some clientId) other →
      node ∈ a.clients other ∧ (other = username → a.getId node ≠ some clientId) := by
    intro other node member
    by_cases same : other = username
    · subst same
      rw [Function.update_self] at member
      obtain ⟨old, unnamed⟩ := List.mem_filter.mp member
      exact ⟨old, fun _ => of_decide_eq_true unnamed⟩
    · rw [Function.update_of_ne same] at member
      exact ⟨member, fun equal => absurd equal same⟩
  constructor
  case locked => exact sound.locked
  case listed =>
    intro other node member
    obtain ⟨old, kept⟩ := fewer other node member
    have outside : node ∉ (a.clients username).filter fun node => a.getId node = some clientId := by
      intro cut
      obtain ⟨listed, named⟩ := List.mem_filter.mp cut
      exact kept (sound.apart other username node old listed) (of_decide_eq_true named)
    show (if _ then _ else _ : Option (SocketRole → Connection)).isSome
    rw [if_neg outside]
    exact sound.listed other node old
  case once =>
    intro other
    show (Function.update a.clients username _ other).Nodup
    by_cases same : other = username
    · subst same
      rw [Function.update_self]
      exact (sound.once other).filter _
    · rw [Function.update_of_ne same]
      exact sound.once other
  case apart =>
    intro one two node inOne inTwo
    exact sound.apart one two node (fewer one node inOne).1 (fewer two node inTwo).1
  case fresh =>
    intro node later
    show (if _ then _ else _ : Option (SocketRole → Connection)) = none
    rw [sound.fresh node later]
    exact ite_self none

theorem sound_step (sound : Sound a) (act : Action U) {b : Spec U}
    (step : specStep a act = some b) : Sound b := by
  cases act with
  | acceptBackup accepted room =>
    simp only [specStep, Option.some.injEq] at step
    subst step
    split
    · exact sound
    · refine ⟨?_, sound.listed, sound.once, sound.apart, sound.fresh⟩
      intro i c here
      by_cases inside : i < a.backups.length
      · rw [List.getElem?_append_left inside] at here
        exact sound.locked i c here
      · obtain ⟨bound, last⟩ := List.getElem?_eq_some_iff.mp here
        rw [List.length_append, List.length_singleton] at bound
        obtain rfl : i = a.backups.length := by omega
        rw [List.getElem_concat_length rfl] at last
        rw [← last]
  | newClient thread accepted =>
    cases phase : a.threads thread <;> simp only [specStep, phase, Option.some.injEq,
      reduceCtorEq] at step
    subst step
    split
    · exact sound_same sound rfl rfl rfl (Nat.le_refl _)
    · exact sound_same sound rfl rfl rfl (Nat.le_refl _)
  | readUsername thread operation =>
    cases phase : a.threads thread <;> simp only [specStep, phase, Option.some.injEq,
      reduceCtorEq] at step
    subst step
    exact sound_same sound rfl rfl rfl (Nat.le_refl _)
  | emplace thread username throws =>
    cases phase : a.threads thread <;> simp only [specStep, phase, Option.some.injEq,
      reduceCtorEq] at step
    subst step
    split
    · exact sound_same sound rfl rfl rfl (Nat.le_refl _)
    · split
      · exact sound_same sound rfl rfl rfl (Nat.le_succ _)
      · exact sound_hired sound username _ _
  | endThread thread =>
    cases phase : a.threads thread <;> simp only [specStep, phase, Option.some.injEq,
      reduceCtorEq] at step
    · subst step
      exact sound_same sound rfl rfl rfl (Nat.le_refl _)
    · subst step
      exact sound_same sound rfl rfl rfl (Nat.le_refl _)
  | remove username clientId => exact sound_removed sound username clientId step
  | exchange node role operation path => exact sound_use sound step
  | stream node role operation => exact sound_use sound step
  | syncBackup index operation path =>
    simp only [specStep, Option.map_eq_some_iff] at step
    obtain ⟨c, here, rfl⟩ := step
    refine ⟨?_, sound.listed, sound.once, sound.apart, sound.fresh⟩
    intro i d there
    by_cases same : i = index
    · subst same
      obtain ⟨inside, _⟩ := List.getElem?_eq_some_iff.mp here
      rw [List.getElem?_set_self inside] at there
      rw [← Option.some.inj there]
      exact sound.locked i c here
    · rw [List.getElem?_set_ne (Ne.symm same)] at there
      exact sound.locked i d there

end steps

/-- What an exchange comes to when its references are followed. -/
def reach (m : Memory) (p : Place) : Option Connection := do
  let exchange ← (m p).exchange
  let stream ← (m exchange.stream).stream
  let below ← (m stream.rdbuf).stream
  let buffer ← below.buffer
  let socket ← (m below.socket).socket
  some ⟨socket.socket, ⟨buffer, stream.eofbit, stream.failbit, stream.badbit⟩, exchange.path,
    (m p).mutex⟩

theorem reach_seat {m : Memory} {p : Place} {c : Option Connection} (there : m p = seat p c) :
    reach m p = c := by
  cases c with
  | none =>
    rw [reach, there]
    rfl
  | some c =>
    simp only [reach, there, seat, wired, Option.bind_eq_bind, Option.bind_some]

theorem wired_runs {actions : List (Action U)} {a : Spec U}
    (run : runs specStep .start actions = some a) :
    ∃ s, runs wiringStep start actions = some s ∧ Depicts s a ∧ Sound a :=
  runs_follow (fun s a => Depicts s a ∧ Sound a)
    (by
      rintro s a act b ⟨depicts, sound⟩ step
      obtain ⟨t, taken, pictured⟩ := depicts_step depicts sound act step
      exact ⟨t, taken, pictured, sound_step sound act step⟩)
    run ⟨depicts_start, sound_start⟩

/-- In every run the references of every handler lead to its own connections, however often
    backups_ has moved its elements: what is sent for a recipient is written to the recipient's
    socket, under its own mutex, with what its stream held before, and no reference is followed
    to an object that is gone. No move closes a socket, and the others are closed as their
    handlers go. -/
theorem handlers_keep_connections (actions : List (Action U)) {a : Spec U}
    (run : runs specStep .start actions = some a) :
    ∃ s, runs wiringStep start actions = some s ∧ s.talks = a.talks ∧ s.closed = a.closed ∧
      (∀ i, reach s.memory (.backup s.storage i) = a.backups[i]?) ∧
      ∀ node role, reach s.memory (.handler node role) =
        (a.handlers node).map fun h => h role := by
  obtain ⟨s, ran, depicts, _⟩ := wired_runs run
  exact ⟨s, ran, depicts.talks, depicts.closed, fun i => reach_seat (depicts.backups i),
    fun node role => reach_seat (depicts.handlers node role)⟩

def ports : SocketRole → SocketType
  | .payload => 6
  | .clientSync => 7
  | .serverSync => 8

/-- The second backup makes backups_ move the first one. -/
def servedRun : List (Action Nat) :=
  [.acceptBackup 4 0, .syncBackup 0 (fun x => x) none, .acceptBackup 5 0, .newClient 0 ports,
    .readUsername 0 (fun x => x), .emplace 0 1 false, .exchange 0 .serverSync (fun x => x) none,
    .syncBackup 0 (fun x => x) none, .syncBackup 1 (fun x => x) none, .remove 1 6, .endThread 0]

theorem handlers_keep_connections_grown : ∃ s : State Nat,
    runs wiringStep start servedRun = some s ∧
    s.talks = [⟨some 0, 4⟩, ⟨none, 6⟩, ⟨none, 8⟩, ⟨some 0, 4⟩, ⟨some 1, 5⟩] ∧
    s.closed = [8, 7, 6] := by
  obtain ⟨s, ran, talks, closed, _⟩ := handlers_keep_connections servedRun rfl
  exact ⟨s, ran, talks, closed⟩

end DropboxWiredRuns
