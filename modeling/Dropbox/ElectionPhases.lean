import Mathlib.Data.Finset.Max
import Dropbox.ElectionSafety

/-!
The course of one election whose calls all succeed. First the tokens of lower
ids are out (gathering), then the maximum's own token circles the ring with all
other tokens ahead of it, then its announcement circles an otherwise empty ring.
-/
namespace DropboxElectionPhases
open RingOrder Transitions DropboxElection DropboxElectionSafety
variable {n : Nat} [NeZero n] {ids : Fin n → IdType} {x : Fin n}

def InFlight (s : RingState n) (id : IdType) : Prop :=
  ∃ p, (⟨.kUnderway, id⟩ : ElectionData) ∈ s.channel p

/-- The server has put its own id on the ring. -/
def Emitted (ids : Fin n → IdType) (s : RingState n) (j : Fin n) : Prop :=
  s.server j = .replying ⟨ids j, true⟩

def Replying (ids : Fin n → IdType) (s : RingState n) (i : Fin n) : Prop :=
  ∃ started, s.server i = .replying ⟨ids i, started⟩

def Electing (ids : Fin n → IdType) (s : RingState n) (i : Fin n) : Prop :=
  s.server i = .starting (construct (ids i)) ∨ Replying ids s i

/-- A message of a server that will lose. -/
def Losing (ids : Fin n → IdType) (x : Fin n) (m : ElectionData) : Prop :=
  m.status = .kUnderway ∧ m.id ≠ ids x

structure Gathering (ids : Fin n → IdType) (x : Fin n) (s : RingState n) : Prop where
  messages : ∀ p, ∀ m ∈ s.channel p, Losing ids x m
  servers : ∀ i, Electing ids s i
  holds : ¬ Emitted ids s x
  alive : (∃ i, s.server i = .starting (construct (ids i))) ∨ ∃ i, Emitted ids s i
  carried : ∀ j, Emitted ids s j → InFlight s (ids j) ∨ ∃ k, ids j < ids k ∧ Emitted ids s k

structure Circling (ids : Fin n → IdType) (x p : Fin n) (s : RingState n) : Prop where
  behind : ∀ q, gap x q < gap x p → s.channel q = []
  last : ∃ before, s.channel p = before ++ [⟨.kUnderway, ids x⟩] ∧ ∀ m ∈ before, Losing ids x m
  ahead : ∀ q, gap x p < gap x q → ∀ m ∈ s.channel q, Losing ids x m
  servers : ∀ i, Electing ids s i
  passed : ∀ i, gap x i ≤ gap x p → Replying ids s i
  top : Emitted ids s x

structure Announcing (ids : Fin n → IdType) (x p : Fin n) (s : RingState n) : Prop where
  message : s.channel p = [⟨.kElected, ids x⟩]
  empty : ∀ q, q ≠ p → s.channel q = []
  heard : ∀ i, i ≠ x → gap x i ≤ gap x p → s.server i = .returned (.ok (ids x))
  waiting : ∀ i, i = x ∨ gap x p < gap x i → Replying ids s i

structure Finished (ids : Fin n → IdType) (x : Fin n) (s : RingState n) : Prop where
  results : ∀ i, s.server i = .returned (.ok (ids x))
  empty : ∀ q, s.channel q = []

/-- The winner is being announced or everyone has heard of it. -/
def Decided (ids : Fin n → IdType) (x : Fin n) (s : RingState n) : Prop :=
  (∃ p, Announcing ids x p s) ∨ Finished ids x s

def Phase (ids : Fin n → IdType) (x : Fin n) (s : RingState n) : Prop :=
  Gathering ids x s ∨ (∃ p, Circling ids x p s) ∨ Decided ids x s

theorem pred_succ (i : Fin n) : i - 1 + 1 = i := sub_add_cancel i 1

section
omit [NeZero n]

theorem replying_not_starting {s : RingState n} {i : Fin n} {e : Election}
    (replying : Replying ids s i) (starting : s.server i = .starting e) : False := by
  obtain ⟨started, found⟩ := replying
  rw [starting] at found
  cases found

/-- Reading the head of a channel takes no other token off the ring. -/
theorem inFlight_consume {s : RingState n} {r : Fin n} {data : ElectionData}
    {rest : List ElectionData} {id : IdType} (waiting : s.channel r = data :: rest)
    (out : InFlight s id) : InFlight (s.consume r) id ∨ id = data.id := by
  obtain ⟨p, member⟩ := out
  by_cases here : p = r
  · subst p
    rw [waiting] at member
    rcases List.mem_cons.mp member with head | tail
    · exact Or.inr (congrArg ElectionData.id head)
    · exact Or.inl ⟨r, by simpa [waiting] using tail⟩
  · exact Or.inl ⟨p, by simpa [here] using member⟩

theorem inFlight_become {s : RingState n} {i : Fin n} {p : Progress} {sent : Option ElectionData}
    {id : IdType} (out : InFlight s id) : InFlight (s.become i p sent) id := by
  obtain ⟨q, member⟩ := out
  by_cases here : q = i
  · subst q
    exact ⟨i, by simp [member]⟩
  · exact ⟨q, by simpa [here] using member⟩

theorem inFlight_sent {s : RingState n} {i : Fin n} {p : Progress} {id : IdType} :
    InFlight (s.become i p (some ⟨.kUnderway, id⟩)) id := ⟨i, by simp⟩

theorem electing_become {s : RingState n} {i : Fin n} {started : Bool} {sent : Option ElectionData}
    (electing : ∀ j, Electing ids s j) (j : Fin n) :
    Electing ids (s.become i (.replying ⟨ids i, started⟩) sent) j := by
  by_cases same : j = i
  · subst j
    exact Or.inr ⟨started, by simp⟩
  · simpa [Electing, Replying, same] using electing j

theorem losing_become {s : RingState n} {i : Fin n} {p : Progress} {sent : Option ElectionData}
    {q : Fin n} (old : ∀ m ∈ s.channel q, Losing ids x m) (new : ∀ m ∈ sent, Losing ids x m) :
    ∀ m ∈ (s.become i p sent).channel q, Losing ids x m := by
  intro m member
  by_cases same : q = i
  · subst q
    rw [RingState.become_channel_self, List.mem_append, Option.mem_toList] at member
    rcases member with before | now
    · exact old m before
    · exact new m now
  · rw [RingState.become_channel_ne s p sent same] at member
    exact old m member

theorem losing_consume {s : RingState n} {r q : Fin n}
    (old : ∀ m ∈ s.channel q, Losing ids x m) : ∀ m ∈ (s.consume r).channel q, Losing ids x m := by
  intro m member
  by_cases same : q = r
  · subst q
    rw [RingState.consume_channel_self] at member
    exact old m (List.mem_of_mem_tail member)
  · rw [RingState.consume_channel_ne s same] at member
    exact old m member

/-- Gathering goes on when a server other than the maximum acts and every token it takes off
    the ring is outbid by a server that has put its own id on it. -/
theorem gathering_become {s u : RingState n} {i : Fin n} {started : Bool}
    {sent : Option ElectionData} (phase : Gathering ids x s) (same : u.server = s.server)
    (messages : ∀ p, ∀ m ∈ u.channel p, Losing ids x m) (new : ∀ m ∈ sent, Losing ids x m)
    (stays : Emitted ids s i → started = true) (holds : i = x → started = false)
    (alive : started = true ∨ s.server i ≠ .starting (construct (ids i)))
    (own : started = true → Emitted ids s i ∨ sent = some ⟨.kUnderway, ids i⟩)
    (kept : ∀ id, InFlight s id → InFlight (u.become i (.replying ⟨ids i, started⟩) sent) id ∨
      started = true ∧ id < ids i) :
    Gathering ids x (u.become i (.replying ⟨ids i, started⟩) sent) := by
  have electing : ∀ j, Electing ids u j := by
    intro j
    simpa [Electing, Replying, same] using phase.servers j
  have emits : ∀ j, Emitted ids s j → Emitted ids (u.become i (.replying ⟨ids i, started⟩) sent) j := by
    intro j out
    by_cases here : j = i
    · subst j
      simp [Emitted, stays out]
    · simpa [Emitted, here, same] using out
  refine ⟨fun p => losing_become (messages p) new, electing_become electing, ?_, ?_, ?_⟩
  · intro out
    by_cases here : x = i
    · subst i
      simp [Emitted, holds rfl] at out
    · exact phase.holds (by simpa [Emitted, here, same] using out)
  · cases started with
    | true => exact Or.inr ⟨i, by simp [Emitted]⟩
    | false =>
      rcases phase.alive with ⟨k, starting⟩ | ⟨k, out⟩
      · have apart : k ≠ i := by
          rintro rfl
          rcases alive with impossible | found
          · cases impossible
          · exact found starting
        exact Or.inl ⟨k, by simpa [apart, same] using starting⟩
      · exact Or.inr ⟨k, emits k out⟩
  · have covered : ∀ id, InFlight s id →
        InFlight (u.become i (.replying ⟨ids i, started⟩) sent) id ∨
          ∃ k, id < ids k ∧ Emitted ids (u.become i (.replying ⟨ids i, started⟩) sent) k := by
      intro id out
      rcases kept id out with still | ⟨begun, lower⟩
      · exact Or.inl still
      · exact Or.inr ⟨i, lower, by simp [Emitted, begun]⟩
    intro j out
    have old : Emitted ids s j ∨ (j = i ∧ started = true) := by
      by_cases here : j = i
      · subst j
        exact Or.inr ⟨rfl, by simpa [Emitted] using out⟩
      · exact Or.inl (by simpa [Emitted, here, same] using out)
    have before : Emitted ids s j → InFlight (u.become i (.replying ⟨ids i, started⟩) sent) (ids j) ∨
        ∃ k, ids j < ids k ∧ Emitted ids (u.become i (.replying ⟨ids i, started⟩) sent) k := by
      intro was
      rcases phase.carried j was with flying | ⟨k, higher, outK⟩
      · exact covered (ids j) flying
      · exact Or.inr ⟨k, higher, emits k outK⟩
    rcases old with was | ⟨rfl, begun⟩
    · exact before was
    · rcases own begun with was | rfl
      · exact before was
      · exact Or.inl inFlight_sent

end

/-- The maximum's token comes onto the ring behind every other one. -/
theorem gathering_top {s u : RingState n} (phase : Gathering ids x s) (same : u.server = s.server)
    (messages : ∀ p, ∀ m ∈ u.channel p, Losing ids x m) :
    Circling ids x x (u.become x (.replying ⟨ids x, true⟩) (some ⟨.kUnderway, ids x⟩)) := by
  have electing : ∀ j, Electing ids u j := by
    intro j
    simpa [Electing, Replying, same] using phase.servers j
  refine ⟨?_, ⟨u.channel x, by simp, messages x⟩, ?_, electing_become electing, ?_, by simp [Emitted]⟩
  · intro q closer
    rw [gap_self] at closer
    omega
  · intro q further m member
    have apart : q ≠ x := by
      rintro rfl
      exact Nat.lt_irrefl _ further
    rw [RingState.become_channel_ne _ _ _ apart] at member
    exact messages q m member
  · intro i within
    rw [gap_self] at within
    rw [gap_eq_zero.mp (Nat.le_zero.mp within)]
    exact ⟨true, by simp⟩

omit [NeZero n] in
theorem lower_of_losing {m : ElectionData} (top : ∀ j, ids j ≤ ids x) {p : Fin n}
    (sound : MessageOk ids p m) (losing : Losing ids x m) : m.id < ids x := by
  obtain ⟨status, id⟩ := m
  obtain ⟨rfl, apart⟩ := losing
  obtain ⟨o, owner, _⟩ := sound
  exact UInt8.lt_of_le_of_ne (by rw [← owner]; exact top o) apart

theorem gathering_start {s : RingState n} {i : Fin n} (distinct : Function.Injective ids)
    (phase : Gathering ids x s) (found : s.server i = .starting (construct (ids i))) :
    Phase ids x (s.become i (.replying ⟨ids i, true⟩) (some ⟨.kUnderway, ids i⟩)) := by
  by_cases here : i = x
  · subst i
    exact Or.inr (Or.inl ⟨x, gathering_top phase rfl phase.messages⟩)
  · refine Or.inl (gathering_become phase rfl phase.messages ?_ (fun _ => rfl)
      (fun same => absurd same here) (Or.inl rfl) (fun _ => Or.inr rfl)
      (fun id out => Or.inl (inFlight_become out)))
    intro m member
    cases member
    exact ⟨rfl, fun same => here (distinct same)⟩

theorem gathering_reply {s : RingState n} {i : Fin n} {started : Bool} {data : ElectionData}
    {rest : List ElectionData} (distinct : Function.Injective ids) (top : ∀ j, ids j ≤ ids x)
    (safe : Safe ids s) (phase : Gathering ids x s)
    (found : s.server i = .replying ⟨ids i, started⟩) (waiting : s.channel (i - 1) = data :: rest) :
    Phase ids x ((s.consume (i - 1)).become i
      (afterReply (replyElection ⟨ids i, started⟩ (some data) true))
      (replyElection ⟨ids i, started⟩ (some data) true).sent) := by
  have member : data ∈ s.channel (i - 1) := by
    rw [waiting]
    exact List.mem_cons_self
  have sound := safe.messages _ _ member
  have losing := phase.messages _ _ member
  have messages : ∀ p, ∀ m ∈ (s.consume (i - 1)).channel p, Losing ids x m :=
    fun p => losing_consume (phase.messages p)
  obtain ⟨status, id⟩ := data
  obtain ⟨rfl, apart⟩ := losing
  have quiet : s.server i ≠ .starting (construct (ids i)) := by
    rw [found]
    simp
  rcases UInt8.lt_or_le id (ids i) with lower | atLeast
  · cases started with
    | true =>
      rw [reply_swallows (e := ⟨ids i, true⟩) lower rfl]
      refine Or.inl (gathering_become phase rfl messages (by simp) (fun _ => rfl)
        (fun same => ?_) (Or.inl rfl) (fun _ => Or.inl found) ?_)
      · subst i
        exact absurd found phase.holds
      · intro other out
        rcases inFlight_consume waiting out with still | rfl
        · exact Or.inl (inFlight_become still)
        · exact Or.inr ⟨rfl, lower⟩
    | false =>
      rw [reply_substitutes (e := ⟨ids i, false⟩) lower rfl]
      by_cases here : i = x
      · subst i
        exact Or.inr (Or.inl ⟨x, gathering_top phase rfl messages⟩)
      · refine Or.inl (gathering_become phase rfl messages ?_ (fun _ => rfl)
          (fun same => absurd same here) (Or.inl rfl) (fun _ => Or.inr rfl) ?_)
        · intro m new
          cases new
          exact ⟨rfl, fun same => here (distinct same)⟩
        · intro other out
          rcases inFlight_consume waiting out with still | rfl
          · exact Or.inl (inFlight_become still)
          · exact Or.inr ⟨rfl, lower⟩
  · rcases UInt8.lt_or_eq_of_le atLeast with higher | same
    · rw [reply_forwards (e := ⟨ids i, started⟩) higher]
      refine Or.inl (gathering_become phase rfl messages ?_ ?_ ?_ (Or.inr quiet) ?_ ?_)
      · intro m new
        cases new
        exact ⟨rfl, apart⟩
      · intro out
        rw [Emitted, found] at out
        simpa using out
      · intro same
        subst i
        exact absurd (UInt8.lt_of_lt_of_le higher (UInt8.le_of_lt
          (lower_of_losing top sound ⟨rfl, apart⟩))) (UInt8.lt_irrefl _)
      · intro begun
        exact Or.inl (by rw [Emitted, found, begun])
      · intro other out
        rcases inFlight_consume waiting out with still | rfl
        · exact Or.inl (inFlight_become still)
        · exact Or.inl inFlight_sent
    · -- only the maximum's token comes home
      subst same
      have maximum := passed_home distinct sound
      exact absurd (maximum_unique maximum ⟨⟨x, rfl⟩, top⟩) apart

theorem gathering_moves {s : RingState n} (phase : Gathering ids x s) :
    ¬ Stuck (reliableStep ids) s := by
  intro stuck
  have reader : ∀ i, s.channel (i - 1) = [] := by
    intro i
    rcases phase.servers i with starting | ⟨started, replying⟩
    · have moves := stuck (.start i true)
      simp [reliableStep, reliable, ringStep, starting] at moves
    · cases pending : s.channel (i - 1) with
      | nil => rfl
      | cons data rest =>
        have moves := stuck (.reply i true)
        simp [reliableStep, reliable, ringStep, replying, pending] at moves
  have empty : ∀ p, s.channel p = [] := by
    intro p
    have at_next := reader (p + 1)
    rwa [add_sub_cancel_right] at at_next
  rcases phase.alive with ⟨i, starting⟩ | ⟨i, out⟩
  · have moves := stuck (.start i true)
    simp [reliableStep, reliable, ringStep, starting] at moves
  · -- the highest id put on the ring has no server that could have outbid it
    classical
    obtain ⟨j, memberJ, highest⟩ := Finset.exists_max_image
      (Finset.univ.filter (Emitted ids s)) (fun k => (ids k).toNat) ⟨i, by simpa using out⟩
    rcases phase.carried j (by simpa using memberJ) with ⟨p, flying⟩ | ⟨k, higher, outK⟩
    · rw [empty p] at flying
      cases flying
    · have bound := highest k (by simpa using outK)
      have less := UInt8.lt_iff_toNat_lt.mp higher
      omega

omit [NeZero n] in
/-- While the maximum's token is out, other servers only move losing tokens ahead of it. -/
theorem circling_become {s u : RingState n} {p i : Fin n} {started : Bool}
    {sent : Option ElectionData} (phase : Circling ids x p s) (same : u.server = s.server)
    (behind : ∀ q, gap x q < gap x p → u.channel q = [])
    (last : ∃ before, u.channel p = before ++ [⟨.kUnderway, ids x⟩] ∧ ∀ m ∈ before, Losing ids x m)
    (ahead : ∀ q, gap x p < gap x q → ∀ m ∈ u.channel q, Losing ids x m)
    (new : ∀ m ∈ sent, Losing ids x m) (place : sent = none ∨ gap x p < gap x i)
    (stays : i = x → started = true) :
    Circling ids x p (u.become i (.replying ⟨ids i, started⟩) sent) := by
  have electing : ∀ j, Electing ids u j := by
    intro j
    simpa [Electing, Replying, same] using phase.servers j
  have elsewhere : ∀ q, gap x q ≤ gap x p →
      (u.become i (.replying ⟨ids i, started⟩) sent).channel q = u.channel q := by
    intro q within
    by_cases here : q = i
    · subst q
      rcases place with rfl | further
      · simp
      · omega
    · exact RingState.become_channel_ne _ _ _ here
  refine ⟨?_, ?_, fun q further => losing_become (ahead q further) new,
    electing_become electing, ?_, ?_⟩
  · intro q closer
    rw [elsewhere q (Nat.le_of_lt closer)]
    exact behind q closer
  · rw [elsewhere p (Nat.le_refl _)]
    exact last
  · intro j within
    by_cases here : j = i
    · subst j
      exact ⟨started, by simp⟩
    · simpa [Replying, here, same] using phase.passed j within
  · by_cases here : x = i
    · subst i
      simp [Emitted, stays rfl]
    · simpa [Emitted, here, same] using phase.top

theorem circling_start {s : RingState n} {p i : Fin n} (distinct : Function.Injective ids)
    (phase : Circling ids x p s) (found : s.server i = .starting (construct (ids i))) :
    Circling ids x p (s.become i (.replying ⟨ids i, true⟩) (some ⟨.kUnderway, ids i⟩)) := by
  have further : gap x p < gap x i := by
    by_contra within
    exact replying_not_starting (phase.passed i (by omega)) found
  refine circling_become phase rfl phase.behind phase.last phase.ahead ?_ (Or.inr further)
    (fun _ => rfl)
  intro m member
  cases member
  refine ⟨rfl, fun same => ?_⟩
  rw [distinct same, gap_self] at further
  omega

/-- The maximum's token has come home, and its announcement is alone on the ring. -/
theorem circling_home {s : RingState n} {p : Fin n} {started : Bool} (phase : Circling ids x p s)
    (closes : p + 1 = x) (alone : s.channel p = [⟨.kUnderway, ids x⟩]) :
    Announcing ids x x
      ((s.consume p).become x (.replying ⟨ids x, started⟩) (some ⟨.kElected, ids x⟩)) := by
  have empty : ∀ q, (s.consume p).channel q = [] := by
    intro q
    by_cases same : q = p
    · subst q
      simp [alone]
    · have apart : gap x q ≠ gap x p := fun equal => same (gap_injective equal)
      have within := gap_le_of_closing closes q
      rw [RingState.consume_channel_ne s same]
      exact phase.behind q (by omega)
  refine ⟨?_, ?_, ?_, ?_⟩
  · simp [empty]
  · intro q apart
    rw [RingState.become_channel_ne _ _ _ apart]
    exact empty q
  · intro j apart within
    rw [gap_self] at within
    exact absurd (gap_eq_zero.mp (Nat.le_zero.mp within)) apart
  · intro j _
    by_cases same : j = x
    · subst j
      exact ⟨started, by simp⟩
    · simpa [Replying, same] using phase.passed j (gap_le_of_closing closes j)

/-- The maximum's token is read: it moves on one place, or has come home and won. -/
theorem circling_winner {s : RingState n} {p i : Fin n} {started : Bool}
    (distinct : Function.Injective ids) (top : ∀ j, ids j ≤ ids x) (phase : Circling ids x p s)
    (found : s.server i = .replying ⟨ids i, started⟩) (next : p = i - 1)
    (alone : s.channel p = [⟨.kUnderway, ids x⟩]) :
    Phase ids x ((s.consume p).become i
      (afterReply (replyElection ⟨ids i, started⟩ (some ⟨.kUnderway, ids x⟩) true))
      (replyElection ⟨ids i, started⟩ (some ⟨.kUnderway, ids x⟩) true).sent) := by
  have here : p + 1 = i := by rw [next, pred_succ]
  by_cases home : i = x
  · subst home
    rw [reply_wins (e := ⟨ids i, started⟩)]
    exact Or.inr (Or.inr (Or.inl ⟨i, circling_home phase here alone⟩))
  · have above : ids i < ids x := UInt8.lt_of_le_of_ne (top i) (fun same => home (distinct same))
    rw [reply_forwards (e := ⟨ids i, started⟩) above]
    have stays : p + 1 ≠ x := fun closes => home (here.symm.trans closes)
    have further : gap x i = gap x p + 1 := by rw [← here, gap_succ stays]
    have apart : i ≠ p := by
      rintro rfl
      omega
    refine Or.inr (Or.inl ⟨i, ?_, ⟨s.channel i, ?_, phase.ahead i (by omega)⟩, ?_, ?_, ?_, ?_⟩)
    · intro q closer
      have other : q ≠ i := by
        rintro rfl
        omega
      rw [RingState.become_channel_ne _ _ _ other]
      by_cases same : q = p
      · subst q
        simp [alone]
      · have distinctGap : gap x q ≠ gap x p := fun equal => same (gap_injective equal)
        rw [RingState.consume_channel_ne s same]
        exact phase.behind q (by omega)
    · simp [sendElection, apart]
    · intro q beyond
      have other : q ≠ i := by
        rintro rfl
        omega
      rw [RingState.become_channel_ne _ _ _ other]
      exact losing_consume (phase.ahead q (by omega))
    · exact electing_become phase.servers
    · intro j within
      by_cases same : j = i
      · subst j
        exact ⟨started, by simp [sendElection, afterReply]⟩
      · have earlier : gap x j ≤ gap x p := by
          rw [← here] at within same
          rcases le_gap_succ stays within with closer | equal
          · exact closer
          · exact absurd equal same
        simpa [Replying, same] using phase.passed j earlier
    · have other : x ≠ i := fun equal => home equal.symm
      simpa [Emitted, other] using phase.top

theorem circling_loser {s : RingState n} {p i : Fin n} {started : Bool} {data : ElectionData}
    {rest : List ElectionData} (top : ∀ j, ids j ≤ ids x) (distinct : Function.Injective ids)
    (safe : Safe ids s) (phase : Circling ids x p s)
    (found : s.server i = .replying ⟨ids i, started⟩) (waiting : s.channel (i - 1) = data :: rest)
    (beyond : gap x p ≤ gap x (i - 1)) (losing : Losing ids x data) :
    Circling ids x p ((s.consume (i - 1)).become i
      (afterReply (replyElection ⟨ids i, started⟩ (some data) true))
      (replyElection ⟨ids i, started⟩ (some data) true).sent) := by
  have sound : MessageOk ids (i - 1) data := safe.messages _ _ (by
    rw [waiting]
    exact List.mem_cons_self)
  have lowerTop := lower_of_losing top sound losing
  have behind : ∀ q, gap x q < gap x p → (s.consume (i - 1)).channel q = [] := by
    intro q closer
    have apart : q ≠ i - 1 := by
      rintro rfl
      omega
    rw [RingState.consume_channel_ne s apart]
    exact phase.behind q closer
  have last : ∃ before, (s.consume (i - 1)).channel p = before ++ [⟨.kUnderway, ids x⟩] ∧
      ∀ m ∈ before, Losing ids x m := by
    obtain ⟨before, queue, others⟩ := phase.last
    by_cases same : p = i - 1
    · rw [← same, queue] at waiting
      cases before with
      | nil =>
        cases waiting
        exact absurd rfl losing.2
      | cons first before =>
        refine ⟨before, by rw [← same]; simp [queue], fun m member => ?_⟩
        exact others m (List.mem_cons_of_mem _ member)
    · exact ⟨before, by rw [RingState.consume_channel_ne s same]; exact queue, others⟩
  have ahead : ∀ q, gap x p < gap x q → ∀ m ∈ (s.consume (i - 1)).channel q, Losing ids x m :=
    fun q further => losing_consume (phase.ahead q further)
  have begun : i = x → started = true := by
    rintro rfl
    have out := phase.top
    rw [Emitted, found] at out
    simpa using out
  have further : i ≠ x → gap x p < gap x i := by
    intro other
    have stays : i - 1 + 1 ≠ x := by rwa [pred_succ]
    have onward := gap_succ stays
    rw [pred_succ] at onward
    omega
  obtain ⟨status, id⟩ := data
  obtain ⟨rfl, apart⟩ := losing
  rcases UInt8.lt_or_le id (ids i) with lower | atLeast
  · cases started with
    | true =>
      rw [reply_swallows (e := ⟨ids i, true⟩) lower rfl]
      exact circling_become phase rfl behind last ahead (by simp) (Or.inl rfl) (fun _ => rfl)
    | false =>
      have other : i ≠ x := fun same => Bool.noConfusion (begun same)
      rw [reply_substitutes (e := ⟨ids i, false⟩) lower rfl]
      refine circling_become phase rfl behind last ahead ?_ (Or.inr (further other)) (fun _ => rfl)
      intro m member
      cases member
      exact ⟨rfl, fun same => other (distinct same)⟩
  · rcases UInt8.lt_or_eq_of_le atLeast with higher | same
    · have other : i ≠ x := by
        rintro rfl
        exact UInt8.lt_irrefl _ (UInt8.lt_trans higher lowerTop)
      rw [reply_forwards (e := ⟨ids i, started⟩) higher]
      refine circling_become phase rfl behind last ahead ?_ (Or.inr (further other))
        (fun home => absurd home other)
      intro m member
      cases member
      exact ⟨rfl, apart⟩
    · subst same
      have maximum := passed_home distinct sound
      exact absurd (maximum_unique maximum ⟨⟨x, rfl⟩, top⟩) apart

theorem circling_reply {s : RingState n} {p i : Fin n} {started : Bool} {data : ElectionData}
    {rest : List ElectionData} (top : ∀ j, ids j ≤ ids x) (distinct : Function.Injective ids)
    (safe : Safe ids s) (phase : Circling ids x p s)
    (found : s.server i = .replying ⟨ids i, started⟩) (waiting : s.channel (i - 1) = data :: rest) :
    Phase ids x ((s.consume (i - 1)).become i
      (afterReply (replyElection ⟨ids i, started⟩ (some data) true))
      (replyElection ⟨ids i, started⟩ (some data) true).sent) := by
  have beyond : gap x p ≤ gap x (i - 1) := by
    by_contra closer
    rw [phase.behind (i - 1) (by omega)] at waiting
    cases waiting
  obtain ⟨before, queue, others⟩ := phase.last
  by_cases same : p = i - 1
  · rw [← same, queue] at waiting
    cases before with
    | nil =>
      cases waiting
      rw [← same]
      exact circling_winner distinct top phase found same queue
    | cons first before =>
      have losing : Losing ids x data := by
        cases waiting
        exact others _ List.mem_cons_self
      rw [← queue, same] at waiting
      exact Or.inr (Or.inl ⟨p, circling_loser top distinct safe phase found waiting beyond losing⟩)
  · have further : gap x p < gap x (i - 1) := by
      have apart : gap x p ≠ gap x (i - 1) := fun equal => same (gap_injective equal)
      omega
    have losing : Losing ids x data := phase.ahead _ further data (by
      rw [waiting]
      exact List.mem_cons_self)
    exact Or.inr (Or.inl ⟨p, circling_loser top distinct safe phase found waiting beyond losing⟩)

/-- Its token is read by the maximum itself only when every other one is gone. -/
theorem phase_home {s t : RingState n} {rest : List ElectionData} (phase : Phase ids x s)
    (waiting : s.channel (x - 1) = ⟨.kUnderway, ids x⟩ :: rest)
    (step : reliableStep ids s (.reply x true) = some t) :
    Announcing ids x x t ∧ Emitted ids t x := by
  have own : ¬ Losing ids x ⟨.kUnderway, ids x⟩ := fun losing => losing.2 rfl
  have first : (⟨.kUnderway, ids x⟩ : ElectionData) ∈ s.channel (x - 1) := by
    rw [waiting]
    exact List.mem_cons_self
  have circles : ∃ p, Circling ids x p s := by
    rcases phase with gathering | circling | ⟨p, announcing⟩ | finished
    · exact absurd (gathering.messages _ _ first) own
    · exact circling
    · by_cases place : x - 1 = p
      · rw [place, announcing.message] at waiting
        cases waiting
      · rw [announcing.empty _ place] at waiting
        cases waiting
    · rw [finished.empty] at waiting
      cases waiting
  obtain ⟨p, circling⟩ := circles
  have here : x - 1 = p := by
    rcases Nat.lt_trichotomy (gap x (x - 1)) (gap x p) with closer | same | further
    · rw [circling.behind _ closer] at first
      cases first
    · exact gap_injective same
    · exact absurd (circling.ahead _ further _ first) own
  have alone : s.channel p = [⟨.kUnderway, ids x⟩] := by
    obtain ⟨before, queue, others⟩ := circling.last
    rw [here, queue] at waiting
    cases before with
    | nil => exact queue
    | cons m before =>
      cases waiting
      exact absurd (others _ List.mem_cons_self) own
  have closes : p + 1 = x := by rw [← here, pred_succ]
  have replying : s.server x = .replying ⟨ids x, true⟩ := circling.top
  simp only [reliableStep, reliable, if_true, ringStep, replying, here, alone] at step
  rw [reply_wins (e := ⟨ids x, true⟩)] at step
  cases step
  exact ⟨circling_home circling closes alone, by simp [Emitted, sendElection, afterReply]⟩

theorem circling_moves {s : RingState n} {p : Fin n} (phase : Circling ids x p s) :
    ¬ Stuck (reliableStep ids) s := by
  intro stuck
  obtain ⟨before, queue, _⟩ := phase.last
  rcases phase.servers (p + 1) with starting | ⟨started, replying⟩
  · have moves := stuck (.start (p + 1) true)
    simp [reliableStep, reliable, ringStep, starting] at moves
  · have moves := stuck (.reply (p + 1) true)
    cases before <;>
      simp [reliableStep, reliable, ringStep, replying, add_sub_cancel_right, queue] at moves

theorem announcing_reply {s : RingState n} {p i : Fin n} {started : Bool} {data : ElectionData}
    {rest : List ElectionData} (distinct : Function.Injective ids) (phase : Announcing ids x p s)
    (found : s.server i = .replying ⟨ids i, started⟩) (waiting : s.channel (i - 1) = data :: rest) :
    Decided ids x ((s.consume (i - 1)).become i
      (afterReply (replyElection ⟨ids i, started⟩ (some data) true))
      (replyElection ⟨ids i, started⟩ (some data) true).sent) := by
  have next : i - 1 = p := by
    by_contra apart
    rw [phase.empty _ apart] at waiting
    cases waiting
  have here : p + 1 = i := by rw [← next, pred_succ]
  rw [next, phase.message] at waiting
  cases waiting
  rw [next]
  have empty : ∀ q, (s.consume p).channel q = [] := by
    intro q
    by_cases same : q = p
    · subst q
      simp [phase.message]
    · rw [RingState.consume_channel_ne s same]
      exact phase.empty q same
  by_cases home : i = x
  · subst home
    rw [reply_finishes (e := ⟨ids i, started⟩)]
    refine Or.inr ⟨?_, ?_⟩
    · intro j
      by_cases same : j = i
      · subst j
        simp [afterReply]
      · simpa [same] using phase.heard j same (gap_le_of_closing here j)
    · intro q
      by_cases same : q = i
      · subst q
        simp [empty]
      · rw [RingState.become_channel_ne _ _ _ same]
        exact empty q
  · have other : ids x ≠ ids i := fun same => home (distinct same).symm
    rw [reply_announces (e := ⟨ids i, started⟩) other]
    have stays : p + 1 ≠ x := fun closes => home (here.symm.trans closes)
    have further : gap x i = gap x p + 1 := by rw [← here, gap_succ stays]
    refine Or.inl ⟨i, ?_, ?_, ?_, ?_⟩
    · simp [sendElection, empty]
    · intro q apart
      rw [RingState.become_channel_ne _ _ _ apart]
      exact empty q
    · intro j apart within
      by_cases same : j = i
      · subst j
        simp [sendElection, afterReply]
      · have earlier : gap x j ≤ gap x p := by
          rw [← here] at within same
          rcases le_gap_succ stays within with closer | equal
          · exact closer
          · exact absurd equal same
        simpa [same] using phase.heard j apart earlier
    · intro j beyond
      have apart : j ≠ i := by
        rintro rfl
        rcases beyond with same | more
        · exact home same
        · omega
      have still := phase.waiting j (beyond.imp_right (fun more => by omega))
      simpa [Replying, apart] using still

theorem announcing_moves {s : RingState n} {p : Fin n} (phase : Announcing ids x p s) :
    ¬ Stuck (reliableStep ids) s := by
  intro stuck
  have reader : Replying ids s (p + 1) := by
    refine phase.waiting (p + 1) ?_
    by_cases closes : p + 1 = x
    · exact Or.inl closes
    · exact Or.inr (by rw [gap_succ closes]; omega)
  obtain ⟨started, replying⟩ := reader
  have moves := stuck (.reply (p + 1) true)
  simp [reliableStep, reliable, ringStep, replying, add_sub_cancel_right, phase.message] at moves

/-- One call of one server keeps the election in one of its phases. -/
theorem step_phase (distinct : Function.Injective ids) (top : ∀ j, ids j ≤ ids x)
    {s t : RingState n} {a : Action n} (safe : Safe ids s) (phase : Phase ids x s)
    (step : reliableStep ids s a = some t) : Phase ids x t := by
  rcases reliable_cases step with ⟨i, e, _, found, rfl⟩ | ⟨i, e, data, rest, _, found, waiting, rfl⟩
  · have fresh : e = construct (ids i) := by
      have sound := safe.servers i
      rwa [found] at sound
    subst fresh
    rcases phase with gathering | ⟨p, circling⟩ | ⟨p, announcing⟩ | finished
    · exact gathering_start distinct gathering found
    · exact Or.inr (Or.inl ⟨p, circling_start distinct circling found⟩)
    · by_cases heard : i ≠ x ∧ gap x i ≤ gap x p
      · have done := announcing.heard i heard.1 heard.2
        rw [found] at done
        cases done
      · refine absurd (announcing.waiting i ?_) (fun replying => replying_not_starting replying found)
        by_cases home : i = x
        · exact Or.inl home
        · exact Or.inr (by by_contra within; exact heard ⟨home, by omega⟩)
    · have done := finished.results i
      rw [found] at done
      cases done
  · have own : ∃ started, e = ⟨ids i, started⟩ := by
      have sound := safe.servers i
      rw [found] at sound
      exact ⟨e.electionStarted, by rw [← sound]⟩
    obtain ⟨started, rfl⟩ := own
    rcases phase with gathering | ⟨p, circling⟩ | ⟨p, announcing⟩ | finished
    · exact gathering_reply distinct top safe gathering found waiting
    · exact circling_reply top distinct safe circling found waiting
    · exact Or.inr (Or.inr (announcing_reply distinct announcing found waiting))
    · rw [finished.empty] at waiting
      cases waiting

end DropboxElectionPhases
