import Mathlib.Algebra.Order.BigOperators.Group.Finset
import Dropbox.ElectionPhases

/-!
Termination and the clean finish. Every call lowers a measure made of the hops
each token has left and of the tokens servers may still put on the ring.
-/
namespace DropboxElectionTermination
open RingOrder Transitions DropboxElection DropboxElectionSafety DropboxElectionPhases
variable {n : Nat} [NeZero n] {ids : Fin n → IdType}

/-- Where the server with this id stands. -/
noncomputable def owner (ids : Fin n → IdType) (id : IdType) : Fin n := Function.invFun ids id

theorem owner_of (distinct : Function.Injective ids) (i : Fin n) : owner ids (ids i) = i :=
  Function.leftInverse_invFun distinct i

-- A token may make a round as kUnderway and a second one as kElected.
noncomputable def hopsLeft (ids : Fin n → IdType) (p : Fin n) (m : ElectionData) : Nat :=
  match m.status with
  | .kUnderway => n + 1 + (n - gap (owner ids m.id) p)
  | .kElected => n - gap (owner ids m.id) p

noncomputable def channelShare (ids : Fin n → IdType) (p : Fin n) (messages : List ElectionData) :
    Nat := (messages.map (hopsLeft ids p)).sum

def serverShare (n : Nat) : Progress → Nat
  | .starting _ => 2 * n + 2
  | .replying e => if e.electionStarted then 0 else 2 * n + 2
  | .idle | .returned _ => 0

noncomputable def callsLeft (ids : Fin n → IdType) (s : RingState n) : Nat :=
  (∑ i, serverShare n (s.server i)) + ∑ p, channelShare ids p (s.channel p)

theorem callsLeft_become (ids : Fin n → IdType) (s : RingState n) (i : Fin n) (p : Progress) (sent : Option ElectionData) :
    callsLeft ids (s.become i p sent) + serverShare n (s.server i) =
      callsLeft ids s + serverShare n p + channelShare ids i sent.toList := by
  have servers := sum_update (fun _ => serverShare n) s.server i p
  have channels := sum_update (channelShare ids) s.channel i (s.channel i ++ sent.toList)
  have joined : channelShare ids i (s.channel i ++ sent.toList) =
      channelShare ids i (s.channel i) + channelShare ids i sent.toList := by
    simp [channelShare]
  simp only [callsLeft, RingState.become]
  omega

theorem callsLeft_consume (ids : Fin n → IdType) {s : RingState n} {r : Fin n} {data : ElectionData}
    {rest : List ElectionData} (waiting : s.channel r = data :: rest) :
    callsLeft ids (s.consume r) + hopsLeft ids r data = callsLeft ids s := by
  have channels := sum_update (channelShare ids) s.channel r (s.channel r).tail
  have head : channelShare ids r (s.channel r) =
      hopsLeft ids r data + channelShare ids r (s.channel r).tail := by
    simp [channelShare, waiting]
  simp only [callsLeft, RingState.consume]
  omega

/-- A token that moves on by one place has one hop less left. -/
theorem hopsLeft_forward {i : Fin n} (status : Status) {id : IdType} (other : owner ids id ≠ i) :
    hopsLeft ids i ⟨status, id⟩ < hopsLeft ids (i - 1) ⟨status, id⟩ := by
  have stays : i - 1 + 1 ≠ owner ids id := by
    rw [pred_succ]
    exact fun same => other same.symm
  have onward := gap_succ stays
  rw [pred_succ] at onward
  have bound := gap_lt (owner ids id) i
  cases status <;> simp only [hopsLeft] <;> omega

theorem hopsLeft_positive (ids : Fin n → IdType) (p : Fin n) (m : ElectionData) : 0 < hopsLeft ids p m := by
  have bound := gap_lt (owner ids m.id) p
  obtain ⟨status, id⟩ := m
  cases status <;> simp only [hopsLeft] at * <;> omega

theorem reply_decreases {s : RingState n} {i : Fin n} {started : Bool} {data : ElectionData}
    {rest : List ElectionData} (distinct : Function.Injective ids) (safe : Safe ids s)
    (found : s.server i = .replying ⟨ids i, started⟩) (waiting : s.channel (i - 1) = data :: rest) :
    callsLeft ids ((s.consume (i - 1)).become i
      (afterReply (replyElection ⟨ids i, started⟩ (some data) true))
      (replyElection ⟨ids i, started⟩ (some data) true).sent) < callsLeft ids s := by
  have read := callsLeft_consume ids waiting
  have written := callsLeft_become ids (s.consume (i - 1)) i
    (afterReply (replyElection ⟨ids i, started⟩ (some data) true))
    (replyElection ⟨ids i, started⟩ (some data) true).sent
  rw [RingState.consume_server, found] at written
  have sound : MessageOk ids (i - 1) data := safe.messages _ _ (by
    rw [waiting]
    exact List.mem_cons_self)
  -- it is enough that what is written outweighs what was read by less than the server gave up
  suffices pays : serverShare n (afterReply (replyElection ⟨ids i, started⟩ (some data) true)) +
      channelShare ids i (replyElection ⟨ids i, started⟩ (some data) true).sent.toList <
        serverShare n (.replying ⟨ids i, started⟩) + hopsLeft ids (i - 1) data by omega
  obtain ⟨status, id⟩ := data
  cases status with
  | kUnderway =>
    rcases UInt8.lt_or_le id (ids i) with lower | atLeast
    · cases started with
      | true =>
        rw [reply_swallows (e := ⟨ids i, true⟩) lower rfl]
        have some_hop := hopsLeft_positive ids (i - 1) ⟨.kUnderway, id⟩
        simpa [afterReply, serverShare, channelShare] using some_hop
      | false =>
        rw [reply_substitutes (e := ⟨ids i, false⟩) lower rfl]
        have some_hop := hopsLeft_positive ids (i - 1) ⟨.kUnderway, id⟩
        have own : hopsLeft ids i ⟨.kUnderway, ids i⟩ = n + 1 + n := by
          simp [hopsLeft, owner_of distinct, gap_self]
        simp only [sendElection, afterReply, serverShare, channelShare, Option.toList_some,
          List.map_cons, List.map_nil, List.sum_cons, List.sum_nil, own, if_true]
        simp only [Bool.false_eq_true, if_false]
        omega
    · rcases UInt8.lt_or_eq_of_le atLeast with higher | same
      · rw [reply_forwards (e := ⟨ids i, started⟩) higher]
        have other : owner ids id ≠ i := by
          obtain ⟨o, rfl, _⟩ := sound
          rw [owner_of distinct]
          rintro rfl
          exact UInt8.lt_irrefl _ higher
        have hop := hopsLeft_forward .kUnderway other
        simpa [sendElection, afterReply, channelShare] using hop
      · subst same
        rw [reply_wins (e := ⟨ids i, started⟩)]
        have last := gap_last (pred_succ i)
        simp only [sendElection, afterReply, channelShare, hopsLeft, if_true, Option.toList_some,
          List.map_cons, List.map_nil, List.sum_cons, List.sum_nil, owner_of distinct, gap_self]
        omega
  | kElected =>
    by_cases home : id = ids i
    · subst home
      rw [reply_finishes (e := ⟨ids i, started⟩)]
      have some_hop := hopsLeft_positive ids (i - 1) ⟨.kElected, ids i⟩
      simp only [afterReply, channelShare, Option.toList_none, List.map_nil, List.sum_nil]
      simp only [serverShare]
      omega
    · rw [reply_announces (e := ⟨ids i, started⟩) home]
      have other : owner ids id ≠ i := by
        obtain ⟨⟨o, rfl⟩, _⟩ := sound
        rw [owner_of distinct]
        rintro rfl
        exact home rfl
      have hop := hopsLeft_forward .kElected other
      simp only [sendElection, afterReply, channelShare, if_true, Option.toList_some,
        List.map_cons, List.map_nil, List.sum_cons, List.sum_nil]
      simp only [serverShare]
      omega

theorem start_decreases {s : RingState n} {i : Fin n} (distinct : Function.Injective ids)
    (found : s.server i = .starting (construct (ids i))) :
    callsLeft ids (s.become i (.replying ⟨ids i, true⟩) (some ⟨.kUnderway, ids i⟩)) <
      callsLeft ids s := by
  have written := callsLeft_become ids s i (.replying ⟨ids i, true⟩)
    (some ⟨.kUnderway, ids i⟩)
  have own : hopsLeft ids i ⟨.kUnderway, ids i⟩ = n + 1 + n := by
    simp [hopsLeft, owner_of distinct, gap_self]
  rw [found] at written
  simp only [serverShare, channelShare, Option.toList_some, List.map_cons, List.map_nil,
    List.sum_cons, List.sum_nil, own, if_true] at written
  omega

def Electable (ids : Fin n → IdType) (x : Fin n) (s : RingState n) : Prop :=
  Safe ids s ∧ Phase ids x s

theorem step_electable {x : Fin n} (distinct : Function.Injective ids) (top : ∀ j, ids j ≤ ids x)
    (s : RingState n) (a : Action n) (t : RingState n) (before : Electable ids x s)
    (step : reliableStep ids s a = some t) : Electable ids x t := by
  have plain : ringStep ids s a = some t := by
    simp only [reliableStep, Option.ite_none_right_eq_some] at step
    exact step.2
  exact ⟨step_safe distinct s a t before.1 plain, step_phase distinct top before.1 before.2 step⟩

theorem step_decreases {x : Fin n} (distinct : Function.Injective ids)
    (s : RingState n) (a : Action n) (t : RingState n) (before : Electable ids x s)
    (step : reliableStep ids s a = some t) : callsLeft ids t < callsLeft ids s := by
  rcases reliable_cases step with ⟨i, e, _, found, rfl⟩ | ⟨i, e, data, rest, _, found, waiting, rfl⟩
  · have fresh : e = construct (ids i) := by
      have sound := before.1.servers i
      rwa [found] at sound
    subst fresh
    exact start_decreases distinct found
  · have own : e.id = ids i := by
      have sound := before.1.servers i
      rwa [found] at sound
    obtain ⟨id, started⟩ := e
    simp only at own
    subst own
    exact reply_decreases distinct before.1 found waiting

omit [NeZero n] in
theorem entered_electable (ids : Fin n → IdType) (x : Fin n) {starts : Fin n → Bool} (someStarts : ∃ i, starts i = true) :
    Electable ids x (entered ids starts) := by
  have server : ∀ i, (entered ids starts).server i =
      if starts i then .starting (construct (ids i)) else .replying (construct (ids i)) := fun _ => rfl
  refine ⟨⟨by simp [entered], fun i => ?_⟩, Or.inl ⟨by simp [entered], fun i => ?_, ?_, ?_, ?_⟩⟩
  · rw [server]
    split
    · rfl
    · rfl
  · cases chosen : starts i with
    | true => exact Or.inl (by simp [server, chosen])
    | false => exact Or.inr ⟨false, by simp [server, chosen, construct]⟩
  · rw [Emitted, server]
    split <;> simp [construct]
  · obtain ⟨i, chosen⟩ := someStarts
    exact Or.inl ⟨i, by simp [server, chosen]⟩
  · intro j out
    rw [Emitted, server] at out
    split at out <;> simp [construct] at out

theorem entered_callsLeft (ids : Fin n → IdType) (starts : Fin n → Bool) :
    callsLeft ids (entered ids starts) ≤ n * (2 * n + 2) := by
  have servers : ∑ i, serverShare n ((entered ids starts).server i) ≤ ∑ _i : Fin n, (2 * n + 2) := by
    apply Finset.sum_le_sum
    intro i _
    simp only [entered]
    split <;> simp [serverShare, construct]
  have channels : ∑ p, channelShare ids p ((entered ids starts).channel p) = 0 := by
    simp [entered, channelShare]
  rw [callsLeft, channels]
  simpa using servers

theorem exists_top (ids : Fin n → IdType) : ∃ x, ∀ j, ids j ≤ ids x := by
  obtain ⟨x, _, above⟩ := Finset.exists_max_image Finset.univ (fun k => (ids k).toNat)
    ⟨0, Finset.mem_univ 0⟩
  exact ⟨x, fun j => UInt8.le_iff_toNat_le.mpr (above j (Finset.mem_univ j))⟩

theorem stuck_finished {x : Fin n} {s : RingState n} (phase : Phase ids x s)
    (stuck : Stuck (reliableStep ids) s) : Finished ids x s := by
  rcases phase with gathering | ⟨p, circling⟩ | ⟨p, announcing⟩ | finished
  · exact absurd stuck (gathering_moves gathering)
  · exact absurd stuck (circling_moves circling)
  · exact absurd stuck (announcing_moves announcing)
  · exact finished

theorem decided_of_elected {x : Fin n} {s : RingState n} (phase : Phase ids x s) {p : Fin n}
    {m : ElectionData} (member : m ∈ s.channel p) (elected : m.status = .kElected) :
    Decided ids x s := by
  rcases phase with gathering | ⟨q, circling⟩ | announcing | finished
  · rw [(gathering.messages p m member).1] at elected
    cases elected
  · rcases Nat.lt_trichotomy (gap x p) (gap x q) with closer | same | further
    · rw [circling.behind p closer] at member
      cases member
    · rw [gap_injective same] at member
      obtain ⟨before, queue, others⟩ := circling.last
      rw [queue, List.mem_append, List.mem_singleton] at member
      rcases member with old | rfl
      · rw [(others m old).1] at elected
        cases elected
      · cases elected
    · rw [(circling.ahead p further m member).1] at elected
      cases elected
  · exact Or.inl announcing
  · exact Or.inr finished

omit [NeZero n] in
theorem decided_no_underway {x : Fin n} {s : RingState n} (decided : Decided ids x s) (p : Fin n)
    (m : ElectionData) (member : m ∈ s.channel p) : m.status = .kElected := by
  rcases decided with ⟨q, announcing⟩ | finished
  · by_cases here : p = q
    · subst q
      rw [announcing.message, List.mem_singleton] at member
      rw [member]
    · rw [announcing.empty p here] at member
      cases member
  · rw [finished.empty] at member
    cases member

omit [NeZero n] in
theorem decided_not_starting {x : Fin n} {s : RingState n} (decided : Decided ids x s) (i : Fin n)
    (e : Election) : s.server i ≠ .starting e := by
  intro starting
  rcases decided with ⟨q, announcing⟩ | finished
  · by_cases heard : i ≠ x ∧ gap x i ≤ gap x q
    · rw [announcing.heard i heard.1 heard.2] at starting
      cases starting
    · refine replying_not_starting (announcing.waiting i ?_) starting
      by_cases home : i = x
      · exact Or.inl home
      · exact Or.inr (by by_contra within; exact heard ⟨home, by omega⟩)
  · rw [finished.results] at starting
    cases starting

theorem step_decided {x : Fin n} (distinct : Function.Injective ids)
    (s : RingState n) (a : Action n) (t : RingState n)
    (before : Safe ids s ∧ Decided ids x s) (step : reliableStep ids s a = some t) :
    Safe ids t ∧ Decided ids x t := by
  obtain ⟨safe, decided⟩ := before
  have plain : ringStep ids s a = some t := by
    simp only [reliableStep, Option.ite_none_right_eq_some] at step
    exact step.2
  refine ⟨step_safe distinct s a t safe plain, ?_⟩
  rcases reliable_cases step with ⟨i, e, _, found, rfl⟩ | ⟨i, e, data, rest, _, found, waiting, rfl⟩
  · exact absurd found (decided_not_starting decided i e)
  · obtain ⟨id, started⟩ := e
    obtain rfl : id = ids i := by
      have sound := safe.servers i
      rwa [found] at sound
    rcases decided with ⟨q, announcing⟩ | finished
    · exact announcing_reply distinct announcing found waiting
    · rw [finished.empty] at waiting
      cases waiting

/-- One election over reliable empty channels: every order of calls ends, after at most
    `n * (2 * n + 2)` of them, with every server told the maximum id and nothing left to read,
    and once a winner is announced no kUnderway message is ever on the ring. -/
theorem election_completes (ids : Fin n → IdType) (distinct : Function.Injective ids)
    (starts : Fin n → Bool) (someStarts : ∃ i, starts i = true) :
    (∀ actions t, runs (reliableStep ids) (entered ids starts) actions = some t →
      actions.length ≤ n * (2 * n + 2)) ∧
    (∀ t, Reachable (reliableStep ids) (entered ids starts) t → Stuck (reliableStep ids) t →
      (∀ i, ∃ id, t.server i = .returned (.ok id) ∧ IsMaximum ids id) ∧ ∀ p, t.channel p = []) ∧
    (∀ t u, Reachable (reliableStep ids) (entered ids starts) t →
      (∃ p, ∃ m ∈ t.channel p, m.status = .kElected) → Reachable (reliableStep ids) t u →
      ∀ p, ∀ m ∈ u.channel p, m.status ≠ .kUnderway) := by
  obtain ⟨x, top⟩ := exists_top ids
  have start := entered_electable ids x someStarts
  have reached : ∀ t, Reachable (reliableStep ids) (entered ids starts) t → Electable ids x t :=
    fun t reach => invariant_of_reachable (step_electable distinct top) reach start
  refine ⟨?_, ?_, ?_⟩
  · intro actions t run
    have bound := run_length_bounded (step_electable distinct top) (step_decreases distinct) run start
    have room := entered_callsLeft ids starts
    omega
  · intro t reach stuck
    have finished := stuck_finished (reached t reach).2 stuck
    exact ⟨fun i => ⟨ids x, finished.results i, ⟨x, rfl⟩, top⟩, finished.empty⟩
  · intro t u reach elected onward p m member underway
    obtain ⟨q, m', memberT, status⟩ := elected
    obtain ⟨safe, phase⟩ := reached t reach
    have decided := decided_of_elected phase memberT status
    have still := invariant_of_reachable (step_decided distinct) onward ⟨safe, decided⟩
    rw [decided_no_underway still.2 p m member] at underway
    cases underway

/-- The run of two servers of which the first starts the election. -/
def pairElection : List (Action 2) :=
  [.start 0 true, .reply 1 true, .reply 0 true, .reply 1 true, .reply 0 true, .reply 1 true]

theorem election_completes_pair :
    (runs (reliableStep ![(1 : IdType), 2]) (entered ![(1 : IdType), 2] ![true, false])
      pairElection).isSome ∧ pairElection.length ≤ 2 * (2 * 2 + 2) :=
  ⟨rfl, (election_completes ![(1 : IdType), 2] (by decide) ![true, false] ⟨0, rfl⟩).1 pairElection _
    rfl⟩

end DropboxElectionTermination
