import Dropbox.General.RingOrder
import Dropbox.Election
import Mathlib.Data.Fin.VecNotation

/-!
Agreement on the elected id. A kUnderway message that sits behind server `p` has
passed every server from its owner up to `p`, and its id exceeds all of theirs.
Failed reads and writes and restarted elections only lose or repeat messages.
-/
namespace DropboxElectionSafety
open RingOrder Transitions DropboxElection
variable {n : Nat} [NeZero n] {ids : Fin n → IdType}

def Passed (ids : Fin n → IdType) (p : Fin n) (id : IdType) : Prop :=
  ∃ o, ids o = id ∧ ∀ j, gap o j ≤ gap o p → ids j ≤ id

def MessageOk (ids : Fin n → IdType) (p : Fin n) (m : ElectionData) : Prop :=
  match m.status with
  | .kUnderway => Passed ids p m.id
  | .kElected => IsMaximum ids m.id

def ServerOk (ids : Fin n → IdType) (i : Fin n) : Progress → Prop
  | .idle => True
  | .starting e => e = construct (ids i)
  | .replying e => e.id = ids i
  | .returned (.error _) => True
  | .returned (.ok id) => IsMaximum ids id

structure Safe (ids : Fin n → IdType) (s : RingState n) : Prop where
  messages : ∀ p, ∀ m ∈ s.channel p, MessageOk ids p m
  servers : ∀ i, ServerOk ids i (s.server i)

theorem passed_own (i : Fin n) : Passed ids i (ids i) := by
  refine ⟨i, rfl, ?_⟩
  intro j within
  rw [gap_self] at within
  rw [gap_eq_zero.mp (Nat.le_zero.mp within)]
  exact UInt8.le_refl _

theorem passed_forward {i : Fin n} {id : IdType} (passed : Passed ids (i - 1) id)
    (above : ids i < id) : Passed ids i id := by
  obtain ⟨o, owner, below⟩ := passed
  refine ⟨o, owner, ?_⟩
  have here : i - 1 + 1 = i := sub_add_cancel i 1
  have stays : i - 1 + 1 ≠ o := by
    intro home
    rw [here] at home
    rw [← owner, home] at above
    exact UInt8.lt_irrefl _ above
  intro j within
  rw [← here] at within
  rcases le_gap_succ stays within with earlier | same
  · exact below j earlier
  · rw [same, here]
    exact UInt8.le_of_lt above

/-- A message that is back at its owner has passed the whole ring. -/
theorem passed_home {i : Fin n} (distinct : Function.Injective ids)
    (passed : Passed ids (i - 1) (ids i)) : IsMaximum ids (ids i) := by
  obtain ⟨o, owner, below⟩ := passed
  have home : i - 1 + 1 = o := (sub_add_cancel i 1).trans (distinct owner).symm
  exact ⟨⟨i, rfl⟩, fun j => below j (gap_le_of_closing home j)⟩

theorem start_safe {i : Fin n} {e : Election} (writes : Bool) (own : e.id = ids i) :
    ServerOk ids i (afterStart (startElection e writes)) ∧
      ∀ m ∈ (startElection e writes).sent, MessageOk ids i m := by
  cases writes
  · simp [startElection, afterStart, ServerOk]
  · simp [startElection, afterStart, ServerOk, MessageOk, own, passed_own]

omit [NeZero n] in
theorem send_safe {i : Fin n} {e : Election} {data : ElectionData} {result : Option IdType}
    (writes : Bool) (own : e.id = ids i) (sound : MessageOk ids i data)
    (final : ∀ id ∈ result, IsMaximum ids id) :
    ServerOk ids i (afterReply (sendElection writes e data result)) ∧
      ∀ m ∈ (sendElection writes e data result).sent, MessageOk ids i m := by
  cases writes
  · simp [sendElection, afterReply, ServerOk]
  · cases result with
    | none => simpa [sendElection, afterReply, ServerOk, own] using sound
    | some id =>
      have maximum := final id rfl
      simpa [sendElection, afterReply, ServerOk, maximum] using sound

/-- What ReplyElection does with each kind of message keeps its outcome sound. -/
theorem reply_safe {i : Fin n} {e : Election} {data : ElectionData} (writes : Bool)
    (distinct : Function.Injective ids) (own : e.id = ids i)
    (sound : MessageOk ids (i - 1) data) :
    ServerOk ids i (afterReply (replyElection e (some data) writes)) ∧
      ∀ m ∈ (replyElection e (some data) writes).sent, MessageOk ids i m := by
  obtain ⟨status, id⟩ := data
  cases status with
  | kUnderway =>
    rcases UInt8.lt_or_le id e.id with lower | atLeast
    · -- a lower id is swallowed, or replaced by the server's own
      cases started : e.electionStarted with
      | true =>
        rw [reply_swallows lower started]
        exact ⟨own, by simp⟩
      | false =>
        rw [reply_substitutes lower started]
        refine send_safe writes own ?_ (by simp)
        rw [own]
        exact passed_own i
    · rcases UInt8.lt_or_eq_of_le atLeast with higher | same
      · rw [reply_forwards higher]
        rw [own] at higher
        exact send_safe writes own (passed_forward sound higher) (by simp)
      · subst same
        rw [reply_wins]
        refine send_safe writes own ?_ (by simp)
        simp only [MessageOk] at sound ⊢
        rw [own] at sound ⊢
        exact passed_home distinct sound
  | kElected =>
    by_cases home : id = e.id
    · subst home
      rw [reply_finishes]
      exact ⟨sound, by simp⟩
    · rw [reply_announces home]
      refine send_safe writes own sound ?_
      intro elected same
      cases same
      exact sound

omit [NeZero n] in
theorem become_safe {s : RingState n} {i : Fin n} {p : Progress} {sent : Option ElectionData}
    (safe : Safe ids s) (server : ServerOk ids i p) (message : ∀ m ∈ sent, MessageOk ids i m) :
    Safe ids (s.become i p sent) := by
  constructor
  · intro q m member
    by_cases same : q = i
    · subst q
      simp only [RingState.become, Function.update_self, List.mem_append,
        Option.mem_toList] at member
      rcases member with old | new
      · exact safe.messages i m old
      · exact message m new
    · simp only [RingState.become, Function.update_of_ne same] at member
      exact safe.messages q m member
  · intro j
    by_cases same : j = i
    · subst j
      simpa [RingState.become] using server
    · simpa [RingState.become, Function.update_of_ne same] using safe.servers j

omit [NeZero n] in
theorem consume_safe {s : RingState n} (safe : Safe ids s) (p : Fin n) :
    Safe ids (s.consume p) := by
  constructor
  · intro q m member
    by_cases same : q = p
    · subst q
      simp only [RingState.consume, Function.update_self] at member
      exact safe.messages p m (List.mem_of_mem_tail member)
    · simp only [RingState.consume, Function.update_of_ne same] at member
      exact safe.messages q m member
  · exact safe.servers

omit [NeZero n] in
theorem safe_quiet : Safe ids (RingState.quiet n) := by
  constructor <;> simp [RingState.quiet, ServerOk]

theorem step_safe (distinct : Function.Injective ids) (s : RingState n) (a : Action n)
    (t : RingState n) (safe : Safe ids s) (step : ringStep ids s a = some t) : Safe ids t := by
  rcases step_cases step with ⟨i, p, _, _, fresh, rfl⟩ | ⟨i, writes, e, _, found, rfl⟩ |
    ⟨i, writes, e, data, rest, _, found, waiting, rfl⟩ | ⟨i, e, _, _, rfl⟩
  · refine become_safe safe ?_ (by simp)
    rcases fresh with rfl | rfl
    · rfl
    · rfl
  · have own : e.id = ids i := by
      have sound := safe.servers i
      rw [found] at sound
      rw [sound]
      rfl
    obtain ⟨server, message⟩ := start_safe writes own
    exact become_safe safe server message
  · have own : e.id = ids i := by
      have sound := safe.servers i
      rwa [found] at sound
    have sound := safe.messages (i - 1) data (by rw [waiting]; exact List.mem_cons_self)
    obtain ⟨server, message⟩ := reply_safe writes distinct own sound
    exact become_safe (consume_safe safe (i - 1)) server message
  · exact become_safe safe (by simp [ServerOk]) (by simp)

theorem reachable_safe (distinct : Function.Injective ids) {s : RingState n}
    (reach : Reachable (ringStep ids) (RingState.quiet n) s) : Safe ids s :=
  invariant_of_reachable (step_safe distinct) reach safe_quiet

/-- Every id returned anywhere, in any run with any losses and restarts, is the ring's maximum,
    so two results agree and only the maximum's own server becomes the primary. -/
theorem election_agrees (ids : Fin n → IdType) (distinct : Function.Injective ids)
    {s t : RingState n} (reachS : Reachable (ringStep ids) (RingState.quiet n) s)
    (reachT : Reachable (ringStep ids) (RingState.quiet n) t) {i j : Fin n} {a b : IdType}
    (first : s.server i = .returned (.ok a)) (second : t.server j = .returned (.ok b)) :
    IsMaximum ids a ∧ a = b ∧
      (handleElection (ids i) a = .primary ↔ ∀ k, ids k ≤ ids i) := by
  have maximumA : IsMaximum ids a := by
    have sound := (reachable_safe distinct reachS).servers i
    rwa [first] at sound
  have maximumB : IsMaximum ids b := by
    have sound := (reachable_safe distinct reachT).servers j
    rwa [second] at sound
  refine ⟨maximumA, maximum_unique maximumA maximumB, ?_⟩
  have branch : handleElection (ids i) a = .primary ↔ a = ids i := by
    unfold handleElection
    split <;> simp_all
  rw [branch]
  constructor
  · intro same
    rw [← same]
    exact maximumA.2
  · intro above
    exact maximum_unique maximumA ⟨⟨i, rfl⟩, above⟩

/-- Server 1 turns server 0's message into its own and is elected by both. -/
theorem election_agrees_pair :
    IsMaximum ![(1 : IdType), 2] 2 ∧ (2 : IdType) = 2 ∧
      (handleElection (![(1 : IdType), 2] 0) 2 = .primary ↔
        ∀ k, ![(1 : IdType), 2] k ≤ ![(1 : IdType), 2] 0) :=
  have run : Reachable (ringStep ![(1 : IdType), 2]) (RingState.quiet 2) _ :=
    ⟨[.perform 0, .listen 1, .start 0 true, .reply 1 true, .reply 0 true, .reply 1 true,
      .reply 0 true, .reply 1 true], rfl⟩
  election_agrees ![(1 : IdType), 2] (by decide) run run (i := 0) (j := 1) rfl rfl

end DropboxElectionSafety
