import Dropbox.ElectionTermination
import Dropbox.Failover

/-!
The servers after their first takeover (server/main.cpp). A server that has lost its primary
performs an election with the others; the one that wins becomes primary and reads nothing
from the ring any more. The others handle the result and go on with the loop of main.
-/
namespace DropboxAfterTakeover
open RingOrder Transitions DropboxElection DropboxElectionPhases DropboxElectionTermination
open DropboxFailover
variable {n : Nat} {Ip : Type}

/-- `next i` is the server whose prev_ is at the other end of the next_ of server `i`, and
    `ring.channel i` is what waits at the prev_ of server `i + 1`. -/
structure Cluster (n : Nat) (Ip : Type) where
  ring : RingState n
  next : Fin n → Option (Fin n)
  main : Fin n → Main Ip

def token (ids : Fin n → IdType) (p : Fin n) : ElectionData := ⟨.kElected, ids p⟩

/-- Server `p` has its id back and has written that it is elected. Nothing else is on the way. -/
def won [NeZero n] (ids : Fin n → IdType) (p : Fin n) (started : Fin n → Bool)
    (main : Fin n → Main Ip) : Cluster n Ip where
  ring :=
    ⟨fun i => .replying ⟨ids i, started i⟩, Function.update (fun _ => []) p [token ids p]⟩
  next i := some (i + 1)
  main := main

/-- So it is whenever a server wins an election in which no call fails. -/
theorem election_won [NeZero n] {ids : Fin n → IdType} {p : Fin n} {starts : Fin n → Bool}
    {s t : RingState n} {rest : List ElectionData} (distinct : Function.Injective ids)
    (top : ∀ j, ids j ≤ ids p) (someStarts : ∃ i, starts i = true)
    (reach : Reachable (reliableStep ids) (entered ids starts) s)
    (waiting : s.channel (p - 1) = ⟨.kUnderway, ids p⟩ :: rest)
    (step : reliableStep ids s (.reply p true) = some t) (main : Fin n → Main Ip) :
    ∃ started, started p = true ∧ (won ids p started main).ring = t := by
  have electable := invariant_of_reachable (step_electable distinct top) reach
    (entered_electable ids p someStarts)
  obtain ⟨announcing, out⟩ := phase_home electable.2 waiting step
  have replying : ∀ i, Replying ids t i := by
    intro i
    refine announcing.waiting i ?_
    by_cases home : i = p
    · exact Or.inl home
    · rw [gap_self]
      exact Or.inr (Nat.pos_of_ne_zero fun zero => home (gap_eq_zero.mp zero))
  choose started replies using replying
  have begun : started p = true := by
    have same := Progress.replying.inj ((replies p).symm.trans out)
    exact congrArg Election.electionStarted same
  refine ⟨started, begun, ?_⟩
  have channels : (won ids p started main).ring.channel = t.channel := by
    funext q
    by_cases here : q = p
    · subst q
      simp [won, token, announcing.message]
    · simp [won, here, announcing.empty q here]
  have servers : (won ids p started main).ring.server = t.server :=
    funext fun i => (replies i).symm
  obtain ⟨_, _⟩ := t
  exact congrArg₂ RingState.mk servers channels

/-- `perform` and `renew` begin an iteration of the loop of main, which asks HasConnectionToNext:
    without a connection CreateNext is called, and ConnectNext comes upon a server or upon none. -/
inductive Act (n : Nat) where
  | perform (i : Fin n)
  | renew (i : Fin n) (reached : Option (Fin n))
  | start (i : Fin n) (writes : Bool)
  | reply (i : Fin n) (writes : Bool)
  | readFails (i : Fin n)
  | handle (i : Fin n) (r : Round)   -- what follows the election in main

/-- HasConnectionToNext is true whenever main asks. -/
def Act.keepsNext : Act n → Bool
  | .renew _ _ => false
  | _ => true

section Steps
variable [NeZero n]

/-- Server `i` goes on, and what it sends goes where its next_ leads. -/
def Cluster.become (c : Cluster n Ip) (i : Fin n) (s : Progress) (sent : Option ElectionData) :
    Cluster n Ip :=
  { c with ring :=
    ⟨Function.update c.ring.server i s,
      match c.next i with
      | some j => Function.update c.ring.channel (j - 1) (c.ring.channel (j - 1) ++ sent.toList)
      | none => c.ring.channel⟩ }

/-- AcceptPrev at server `j` closes the connection it had, with what it has not read. -/
def Cluster.connect (c : Cluster n Ip) (i j : Fin n) : Cluster n Ip :=
  { c with
    ring := { c.ring with channel := Function.update c.ring.channel (j - 1) [] }
    next := Function.update (fun q => if c.next q = some j then none else c.next q) i (some j) }

/-- The calls of `p` do not fail while it waits for the end of the election; then it is in
    Primary::MainLoop. -/
def clusterStep (ids : Fin n → IdType) (p : Fin n) (c : Cluster n Ip) :
    Act n → Option (Cluster n Ip)
  | .perform i =>
    match c.ring.server i, c.next i with
    | .idle, some _ =>
      if i = p then none else some (c.become i (.starting (construct (ids i))) none)
    | _, _ => none
  | .renew i reached =>
    match c.ring.server i with
    | .idle =>
      if i = p ∨ reached = some i then none
      else match reached with
        | some j => some ((c.connect i j).become i (.starting (construct (ids i))) none)
        | none =>
          -- the election is skipped, main takes its own id
          some (({ c with next := Function.update c.next i none } : Cluster n Ip).become i
            (.returned (.ok (ids i))) none)
    | _ => none
  | .start i writes =>
    match c.ring.server i with
    | .starting e =>
      if i = p then none
      else
        let o := startElection e writes
        some (c.become i (afterStart o) o.sent)
    | _ => none
  | .reply i writes =>
    match c.ring.server i, c.ring.channel (i - 1) with
    | .replying e, data :: _ =>
      if i = p ∧ writes = false then none
      else
        let o := replyElection e (some data) writes
        some (({ c with ring := c.ring.consume (i - 1) } : Cluster n Ip).become i (afterReply o)
          o.sent)
    | _, _ => none
  | .readFails i =>
    match c.ring.server i with
    | .replying e =>
      if i = p then none
      else
        let o := replyElection e none true
        some (c.become i (afterReply o) o.sent)
    | _ => none
  | .handle i r =>
    match c.ring.server i with
    | .returned result =>
      if i ≠ p ∧ r.result = result.toOption then
        (mainStep (c.main i) r).map fun m =>
          { c.become i .idle none with main := Function.update c.main i m }
      else none
    | _ => none

theorem become_linked {c : Cluster n Ip} {i : Fin n} (linked : c.next i = some (i + 1))
    (s : Progress) (sent : Option ElectionData) :
    c.become i s sent = { c with ring := c.ring.become i s sent } := by
  have here : i + 1 - 1 = i := add_sub_cancel_right i 1
  simp only [Cluster.become, linked, here]
  rfl

end Steps

/-- A message of one of the servers between `p` and the channel it is in. -/
def Behind (ids : Fin n → IdType) (p q : Fin n) (m : ElectionData) : Prop :=
  m.status = .kUnderway ∧ ∃ o, o ≠ p ∧ ids o = m.id ∧ gap p o ≤ gap p q

/-- The connection of a Backup that is not of this round. -/
def Stale (call : Call Ip) : Prop :=
  ∃ peer since, call.exchange = .connected peer since ∧ since < call.round

/-- A server that has followed a primary already. -/
structure Backs (id : IdType) (m : Main Ip) : Prop where
  settled : Settled m
  backup : ∃ b, m.server.replica = some (.backup b)
  own : m.server.getId = id

/-- What has become of the result at one server: not told, told, or handled. -/
inductive Told (id : IdType) (before now : Main Ip) (s : Progress) : Bool → Prop where
  | untold (same : now.calls = before.calls) (none : ∀ e, s ≠ .returned (.ok e)) :
    Told id before now s false
  | told (same : now.calls = before.calls) (only : ∀ e, s = .returned (.ok e) → e = id) :
    Told id before now s true
  | handled (call : Call Ip) (calls : now.calls = before.calls ++ [call]) (elected : call.id = id)
      (stale : Stale call) (none : ∀ e, s ≠ .returned (.ok e)) : Told id before now s true

/-- `k` is how far the winner's message has come; from `n` on it is not on the way any more. -/
structure Stranded [NeZero n] (ids : Fin n → IdType) (p : Fin n) (main : Fin n → Main Ip) (k : Nat)
    (c : Cluster n Ip) : Prop where
  linked : ∀ i, c.next i = some (i + 1)
  messages : ∀ q, ∀ m ∈ c.ring.channel q,
    Behind ids p q m ∨ (m = token ids p ∧ gap p q = k)
  single : ∀ q, (c.ring.channel q).count (token ids p) ≤ 1
  winner : c.ring.server p = .replying ⟨ids p, true⟩ ∨ ∃ id, c.ring.server p = .returned (.ok id)
  own : ∀ i, i ≠ p → ∀ e, (c.ring.server i = .starting e ∨ c.ring.server i = .replying e) →
    e.id = ids i
  backs : ∀ i, i ≠ p → Backs (ids i) (c.main i)
  told : ∀ i, i ≠ p → Told (ids p) (main i) (c.main i) (c.ring.server i) (decide (gap p i ≤ k))

section Ring
variable [NeZero n] {ids : Fin n → IdType} {p : Fin n} {main : Fin n → Main Ip} {k : Nat}
  {c : Cluster n Ip}

omit [NeZero n] in
theorem behind_own {i : Fin n} (other : i ≠ p) : Behind ids p i ⟨.kUnderway, ids i⟩ :=
  ⟨rfl, i, other, rfl, Nat.le_refl _⟩

theorem gap_before {i : Fin n} (other : i ≠ p) : gap p i = gap p (i - 1) + 1 := by
  have here : i - 1 + 1 = i := sub_add_cancel i 1
  have step := gap_succ (o := p) (p := i - 1) (by rwa [here])
  rwa [here] at step

theorem behind_forward {i : Fin n} {m : ElectionData} (other : i ≠ p)
    (behind : Behind ids p (i - 1) m) : Behind ids p i m := by
  obtain ⟨underway, o, apart, owner, within⟩ := behind
  refine ⟨underway, o, apart, owner, ?_⟩
  have step := gap_before other
  omega

omit [NeZero n] in
theorem behind_not_token {q : Fin n} {m : ElectionData} (behind : Behind ids p q m) :
    m ≠ token ids p := by
  intro same
  rw [same] at behind
  cases behind.1

/-- A message that comes to a server has passed others only. -/
theorem behind_not_home {i : Fin n} {m : ElectionData} (distinct : Function.Injective ids)
    (other : i ≠ p) (behind : Behind ids p (i - 1) m) : m.id ≠ ids i := by
  obtain ⟨_, o, _, owner, within⟩ := behind
  intro home
  rw [← owner] at home
  rw [distinct home, gap_before other] at within
  omega

/-- A step of another server in which it is not told of a result. -/
theorem stranded_quiet {i : Fin n} {s : Progress} {r : RingState n}
    (stranded : Stranded ids p main k c) (other : i ≠ p)
    (server : r.server = Function.update c.ring.server i s)
    (messages : ∀ q, ∀ m ∈ r.channel q, m ∈ c.ring.channel q ∨ Behind ids p q m)
    (single : ∀ q, (r.channel q).count (token ids p) ≤ (c.ring.channel q).count (token ids p))
    (own : ∀ e, (s = .starting e ∨ s = .replying e) → e.id = ids i)
    (silent : ∀ e, s ≠ .returned (.ok e)) : Stranded ids p main k { c with ring := r } := by
  obtain ⟨linked, messages', single', winner, own', backs, told⟩ := stranded
  refine ⟨linked, ?_, fun q => (single q).trans (single' q), ?_, ?_, backs, ?_⟩
  · intro q m member
    cases messages q m member with
    | inl old => exact messages' q m old
    | inr behind => exact Or.inl behind
  · have same : r.server p = c.ring.server p := by
      rw [server, Function.update_of_ne (Ne.symm other)]
    simpa only [same] using winner
  · intro j apart e here
    simp only [server] at here
    by_cases same : j = i
    · subst same
      rw [Function.update_self] at here
      exact own e here
    · rw [Function.update_of_ne same] at here
      exact own' j apart e here
  · intro j apart
    have before := told j apart
    simp only [server]
    by_cases same : j = i
    · subst same
      rw [Function.update_self]
      cases passed : decide (gap p j ≤ k) with
      | false =>
        rw [passed] at before
        cases before with
        | untold same _ => exact .untold same silent
      | true =>
        rw [passed] at before
        cases before with
        | told same _ => exact .told same fun e impossible => absurd impossible (silent e)
        | handled call calls elected stale _ => exact .handled call calls elected stale silent
    · rw [Function.update_of_ne same]
      exact before

/-- What a server does with a message of another one. -/
theorem reply_behind {i : Fin n} {e : Election} {m : ElectionData} (writes : Bool)
    (distinct : Function.Injective ids) (other : i ≠ p) (own : e.id = ids i)
    (behind : Behind ids p (i - 1) m) :
    (∀ m' ∈ (replyElection e (some m) writes).sent, Behind ids p i m') ∧
      (∀ f, (afterReply (replyElection e (some m) writes) = .starting f ∨
        afterReply (replyElection e (some m) writes) = .replying f) → f.id = ids i) ∧
      ∀ id, afterReply (replyElection e (some m) writes) ≠ .returned (.ok id) := by
  have apart := behind_not_home distinct other behind
  have forward := behind_forward other behind
  obtain ⟨status, id⟩ := m
  obtain rfl : status = .kUnderway := behind.1
  cases UInt8.lt_or_le id e.id with
  | inl lower =>
    cases started : e.electionStarted with
    | true =>
      rw [reply_swallows lower started]
      simp [afterReply, own]
    | false =>
      rw [reply_substitutes lower started]
      have mine : Behind ids p i ⟨.kUnderway, e.id⟩ := by
        rw [own]
        exact behind_own other
      cases writes with
      | true => simpa [sendElection, afterReply, own] using mine
      | false => simp [sendElection, afterReply]
  | inr atLeast =>
    have higher : e.id < id := by
      rcases UInt8.lt_or_eq_of_le atLeast with higher | same
      · exact higher
      · exact absurd (same.symm.trans own) apart
    rw [reply_forwards higher]
    cases writes with
    | true => simpa [sendElection, afterReply, own] using forward
    | false => simp [sendElection, afterReply]

/-- Where the winner's message is. -/
theorem token_place (stranded : Stranded ids p main k c) {q : Fin n}
    (member : token ids p ∈ c.ring.channel q) : gap p q = k := by
  cases stranded.messages q _ member with
  | inl behind => exact absurd rfl (behind_not_token behind)
  | inr here => exact here.2

/-- The result comes to a server, which passes it on. -/
theorem stranded_told {i : Fin n} {e : Election} {rest : List ElectionData} (writes : Bool)
    (distinct : Function.Injective ids) (stranded : Stranded ids p main k c) (other : i ≠ p)
    (server : c.ring.server i = .replying e) (waiting : c.ring.channel (i - 1) = token ids p :: rest) :
    Stranded ids p main (k + 1) { c with
      ring := (c.ring.consume (i - 1)).become i
        (afterReply (replyElection e (some (token ids p)) writes))
        (replyElection e (some (token ids p)) writes).sent } := by
  have place : gap p (i - 1) = k := token_place stranded (by rw [waiting]; exact List.mem_cons_self)
  have step := gap_before other
  have apart : i ≠ i - 1 := by
    intro same
    rw [← same] at step
    omega
  have own := stranded.own i other e (Or.inr server)
  have foreign : ids p ≠ e.id := by
    rw [own]
    exact fun same => other (distinct same).symm
  have replied : replyElection e (some (token ids p)) writes =
      sendElection writes ⟨e.id, false⟩ (token ids p) (some (ids p)) := reply_announces foreign
  rw [replied]
  obtain ⟨linked, messages, single, winner, own', backs, told⟩ := stranded
  -- the message was the only one of its kind
  have rest_behind : ∀ m ∈ rest, Behind ids p (i - 1) m := by
    intro m member
    cases messages (i - 1) m (by rw [waiting]; exact List.mem_cons_of_mem _ member) with
    | inl behind => exact behind
    | inr again =>
      have once := single (i - 1)
      rw [waiting, List.count_cons_self] at once
      have some_more := List.count_pos_iff.mpr (again.1 ▸ member)
      omega
  have here_behind : ∀ m ∈ c.ring.channel i, Behind ids p i m := by
    intro m member
    cases messages i m member with
    | inl behind => exact behind
    | inr there => omega
  have sent : ∀ m ∈ (sendElection writes ⟨e.id, false⟩ (token ids p) (some (ids p))).sent,
      m = token ids p := by
    cases writes <;> simp [sendElection]
  have alone : (sendElection writes ⟨e.id, false⟩ (token ids p) (some (ids p))).sent.toList.count
      (token ids p) ≤ 1 := by
    cases writes <;> simp [sendElection]
  refine ⟨linked, ?_, ?_, ?_, ?_, backs, ?_⟩
  · intro q m member
    by_cases here : q = i
    · subst here
      rw [RingState.become_channel_self, RingState.consume_channel_ne _ apart] at member
      rcases List.mem_append.mp member with old | new
      · exact Or.inl (here_behind m old)
      · exact Or.inr ⟨sent m (Option.mem_toList.mp new), by omega⟩
    · rw [RingState.become_channel_ne _ _ _ here] at member
      by_cases before : q = i - 1
      · subst before
        rw [RingState.consume_channel_self, waiting, List.tail_cons] at member
        exact Or.inl (rest_behind m member)
      · rw [RingState.consume_channel_ne _ before] at member
        cases messages q m member with
        | inl behind => exact Or.inl behind
        | inr there => exact absurd (gap_injective (there.2.trans place.symm)) before
  · intro q
    by_cases here : q = i
    · subst here
      have none_yet : (c.ring.channel q).count (token ids p) = 0 := by
        rw [List.count_eq_zero]
        exact fun member => behind_not_token (here_behind _ member) rfl
      rw [RingState.become_channel_self, RingState.consume_channel_ne _ apart, List.count_append,
        none_yet, Nat.zero_add]
      exact alone
    · rw [RingState.become_channel_ne _ _ _ here]
      by_cases before : q = i - 1
      · subst before
        rw [RingState.consume_channel_self, waiting, List.tail_cons]
        have once := single (i - 1)
        rw [waiting, List.count_cons_self] at once
        omega
      · rw [RingState.consume_channel_ne _ before]
        exact single q
  · dsimp only
    rw [RingState.become_server_ne _ _ _ (Ne.symm other)]
    exact winner
  · intro j apart' f here
    dsimp only at here
    by_cases same : j = i
    · subst same
      rw [RingState.become_server_self] at here
      cases writes <;> simp [sendElection, afterReply] at here
    · rw [RingState.become_server_ne _ _ _ same] at here
      exact own' j apart' f here
  · intro j apart'
    have before := told j apart'
    dsimp only
    by_cases same : j = i
    · subst same
      rw [RingState.become_server_self, decide_eq_true (by omega : gap p j ≤ k + 1)]
      rw [decide_eq_false (by omega : ¬ gap p j ≤ k)] at before
      cases before with
      | untold calls _ =>
        refine .told calls ?_
        cases writes <;> simp [sendElection, afterReply]
    · rw [RingState.become_server_ne _ _ _ same]
      have level : decide (gap p j ≤ k + 1) = decide (gap p j ≤ k) := by
        have elsewhere : gap p j ≠ gap p i := fun equal => same (gap_injective equal)
        rw [decide_eq_decide]
        omega
      rw [level]
      exact before

/-- The winner swallows what the others send, and ends with its own message. -/
theorem stranded_winner {e : Election} {m : ElectionData} {rest : List ElectionData}
    (highest : ∀ j, j ≠ p → ids j < ids p) (stranded : Stranded ids p main k c)
    (server : c.ring.server p = .replying e) (waiting : c.ring.channel (p - 1) = m :: rest) :
    ∃ k', Stranded ids p main k' { c with
      ring := (c.ring.consume (p - 1)).become p (afterReply (replyElection e (some m) true))
        (replyElection e (some m) true).sent } := by
  have place : ∀ q, token ids p ∈ c.ring.channel q → gap p q = k := fun q => token_place stranded
  obtain ⟨linked, messages, single, winner, own, backs, told⟩ := stranded
  have mine : e = ⟨ids p, true⟩ := by
    rcases winner with here | ⟨id, done⟩
    · rw [server] at here
      exact Progress.replying.inj here
    · rw [server] at done
      cases done
  subst mine
  -- nothing is sent, so the channels only lose this message
  have silent : ∀ (s : Progress) (q : Fin n), ((c.ring.consume (p - 1)).become p s none).channel q =
      (c.ring.consume (p - 1)).channel q := by
    intro s q
    by_cases here : q = p
    · subst here
      simp
    · exact RingState.become_channel_ne _ _ _ here
  have channels : ∀ (s : Progress) (q : Fin n), ∃ gone,
      c.ring.channel q = gone ++ (((c.ring.consume (p - 1)).become p s none).channel q) := by
    intro s q
    rw [silent]
    by_cases before : q = p - 1
    · subst before
      exact ⟨[m], by rw [RingState.consume_channel_self, waiting]; rfl⟩
    · exact ⟨[], by rw [RingState.consume_channel_ne _ before]; rfl⟩
  have fewer : ∀ (s : Progress) (q : Fin n),
      (((c.ring.consume (p - 1)).become p s none).channel q).count (token ids p) ≤ 1 := by
    intro s q
    obtain ⟨gone, split⟩ := channels s q
    have once := single q
    rw [split, List.count_append] at once
    omega
  have others : ∀ (s : Progress) (j : Fin n), j ≠ p →
      ((c.ring.consume (p - 1)).become p s none).server j = c.ring.server j :=
    fun s j apart => RingState.become_server_ne _ _ _ apart
  cases messages (p - 1) m (by rw [waiting]; exact List.mem_cons_self) with
  | inl behind =>
    obtain ⟨underway, o, apart, owner, _⟩ := behind
    have swallowed : replyElection ⟨ids p, true⟩ (some m) true = ⟨⟨ids p, true⟩, none, .ok none⟩ := by
      obtain ⟨status, id⟩ := m
      obtain rfl : status = .kUnderway := underway
      have lower := highest o apart
      rw [owner] at lower
      exact reply_swallows lower rfl
    rw [swallowed]
    refine ⟨k, linked, ?_, fewer _, Or.inl ?_, ?_, backs, ?_⟩
    · intro q m' member
      obtain ⟨gone, split⟩ := channels _ q
      exact messages q m' (by rw [split]; exact List.mem_append_right _ member)
    · exact RingState.become_server_self ..
    · intro j apart' f here
      dsimp only at here
      rw [others _ j apart'] at here
      exact own j apart' f here
    · intro j apart'
      dsimp only
      rw [others _ j apart']
      exact told j apart'
  | inr home =>
    obtain ⟨rfl, last⟩ := home
    have finished : replyElection ⟨ids p, true⟩ (some (token ids p)) true =
        ⟨⟨ids p, false⟩, none, .ok (some (ids p))⟩ := reply_finishes
    rw [finished]
    have whole : k + 1 = n := by
      rw [← last]
      exact gap_last (sub_add_cancel p 1)
    refine ⟨n, linked, ?_, fewer _, Or.inr ⟨ids p, ?_⟩, ?_, backs, ?_⟩
    · intro q m' member
      obtain ⟨gone, split⟩ := channels _ q
      cases messages q m' (by rw [split]; exact List.mem_append_right _ member) with
      | inl behind => exact Or.inl behind
      | inr there =>
        -- it was the one that has been read
        obtain ⟨rfl, here⟩ := there
        have same : q = p - 1 := gap_injective (here.trans last.symm)
        subst same
        have once := single (p - 1)
        have inside : token ids p ∈ rest := by
          have left := silent (.returned (.ok (ids p))) (p - 1)
          rw [RingState.consume_channel_self, waiting, List.tail_cons] at left
          rw [← left]
          exact member
        rw [waiting, List.count_cons_self] at once
        have more := List.count_pos_iff.mpr inside
        omega
    · exact RingState.become_server_self ..
    · intro j apart' f here
      dsimp only at here
      rw [others _ j apart'] at here
      exact own j apart' f here
    · intro j apart'
      dsimp only
      rw [others _ j apart']
      have bound := gap_lt p j
      have level : decide (gap p j ≤ n) = decide (gap p j ≤ k) := by
        rw [decide_eq_decide]
        omega
      rw [level]
      exact told j apart'

end Ring

section Handling
variable {id : IdType} {m t : Main Ip} {r : Round}

theorem step_own (m : Main Ip) (r : Round) (t : Main Ip) (own : m.server.getId = id)
    (step : mainStep m r = some t) : t.server.getId = id := by
  simp only [mainStep] at step
  split at step
  · cases step
  · split at step
    · cases step
      exact own
    · split at step
      · cases step
      · cases step
        exact own
      · rename_i s handled
        cases step
        rename_i e _ _
        unfold Server.handleElection at handled
        split at handled
        · cases handled
          exact own
        · split at handled
          · cases handled
          · dsimp only at handled
            split at handled
            · cases handled
            · cases handled
            · split at handled
              · cases handled
              · split at handled <;> cases handled
      · rename_i s exchange handled
        cases step
        exact (handled_backup handled).2.2.1.trans own

/-- A failed election changes nothing but the round. -/
theorem backs_failed (backs : Backs id m) (failed : r.result = none) (step : mainStep m r = some t) :
    Backs id t ∧ t.calls = m.calls := by
  have settled := step_settled m r t backs.settled step
  simp only [mainStep, failed] at step
  split at step
  · cases step
  · obtain rfl := Option.some.inj step
    exact ⟨⟨settled, backs.backup, backs.own⟩, rfl⟩

/-- Another primary is elected: Backup::MainLoop is called on the connection there has been. -/
theorem backs_elected {e : IdType} (backs : Backs id m) (elected : r.result = some e)
    (other : e ≠ id) (step : mainStep m r = some t) : Backs id t ∧
      (t.calls = m.calls ∨ ∃ call, t.calls = m.calls ++ [call] ∧ call.id = e ∧ Stale call) := by
  have settled := step_settled m r t backs.settled step
  obtain ⟨before, ⟨b, present⟩, own⟩ := backs
  obtain ⟨peer, since, connected, earlier⟩ := before.exchange b present
  simp only [mainStep, elected] at step
  split at step
  · cases step
  · split at step
    · cases step
    · obtain rfl := Option.some.inj step
      exact ⟨⟨settled, ⟨b, present⟩, own⟩, Or.inl rfl⟩
    · rename_i s handled
      exact absurd ((handled_primary handled).1.trans own) other
    · rename_i s exchange handled
      obtain rfl := Option.some.inj step
      obtain ⟨_, _, sameId, addr, _, b', present', same, origin⟩ := handled_backup handled
      refine ⟨⟨settled, ⟨b', present'⟩, sameId.trans own⟩, Or.inr ⟨_, rfl, rfl, ?_⟩⟩
      rcases origin with ⟨d, accepted, here, connects⟩ | ⟨absent, _⟩
      · rw [present] at here
        obtain rfl : b = d := by simpa using here
        refine ⟨peer, since, ?_, earlier⟩
        rw [connects, connected]
        rfl
      · rw [present] at absent
        cases absent

end Handling

section Runs
variable [NeZero n] {ids : Fin n → IdType} {p : Fin n} {main : Fin n → Main Ip} {k : Nat}

theorem handle_stranded {c : Cluster n Ip} {i : Fin n} {r : Round} {m : Main Ip}
    {result : Except Error IdType} (distinct : Function.Injective ids)
    (stranded : Stranded ids p main k c) (other : i ≠ p) (returned : c.ring.server i = .returned result)
    (same : r.result = result.toOption) (step : mainStep (c.main i) r = some m) :
    Stranded ids p main k { c with
      ring := c.ring.become i .idle none, main := Function.update c.main i m } := by
  obtain ⟨linked, messages, single, winner, own, backs, told⟩ := stranded
  have channel : ∀ q, (c.ring.become i .idle none).channel q = c.ring.channel q := by
    intro q
    by_cases here : q = i
    · subst here
      simp
    · exact RingState.become_channel_ne _ _ _ here
  have before := told i other
  have after : Backs (ids i) m ∧ Told (ids p) (main i) m .idle (decide (gap p i ≤ k)) := by
    cases result with
    | error e =>
      obtain ⟨backs', calls⟩ := backs_failed (backs i other) same step
      refine ⟨backs', ?_⟩
      cases passed : decide (gap p i ≤ k) with
      | false =>
        rw [passed] at before
        cases before with
        | untold kept _ => exact .untold (calls.trans kept) (by simp)
      | true =>
        rw [passed] at before
        cases before with
        | told kept _ => exact .told (calls.trans kept) (by simp)
        | handled call kept elected stale _ =>
          exact .handled call (calls.trans kept) elected stale (by simp)
    | ok id =>
      cases passed : decide (gap p i ≤ k) with
      | false =>
        rw [passed] at before
        cases before with
        | untold _ never => exact absurd returned (never id)
      | true =>
        rw [passed] at before
        cases before with
        | told kept only =>
          obtain rfl := only id returned
          have foreign : ids p ≠ ids i := fun equal => other (distinct equal).symm
          obtain ⟨backs', calls⟩ := backs_elected (backs i other) same foreign step
          refine ⟨backs', ?_⟩
          rcases calls with none_made | ⟨call, made, elected, stale⟩
          · exact .told (none_made.trans kept) (by simp)
          · exact .handled call (by rw [made, kept]) elected stale (by simp)
        | handled _ _ _ _ never => exact absurd returned (never id)
  refine ⟨linked, ?_, ?_, ?_, ?_, ?_, ?_⟩
  · intro q m' member
    rw [channel] at member
    exact messages q m' member
  · intro q
    rw [channel]
    exact single q
  · dsimp only
    rw [RingState.become_server_ne _ _ _ (Ne.symm other)]
    exact winner
  · intro j apart f here
    dsimp only at here
    by_cases same' : j = i
    · subst same'
      simp at here
    · rw [RingState.become_server_ne _ _ _ same'] at here
      exact own j apart f here
  · intro j apart
    dsimp only
    by_cases same' : j = i
    · subst same'
      rw [Function.update_self]
      exact after.1
    · rw [Function.update_of_ne same']
      exact backs j apart
  · intro j apart
    dsimp only
    by_cases same' : j = i
    · subst same'
      rw [Function.update_self, RingState.become_server_self]
      exact after.2
    · rw [Function.update_of_ne same', RingState.become_server_ne _ _ _ same']
      exact told j apart

theorem reply_stranded {c : Cluster n Ip} {i : Fin n} {e : Election} {m : ElectionData}
    {rest : List ElectionData} (writes : Bool) (distinct : Function.Injective ids)
    (stranded : Stranded ids p main k c) (other : i ≠ p) (server : c.ring.server i = .replying e)
    (waiting : c.ring.channel (i - 1) = m :: rest) :
    ∃ k', Stranded ids p main k' { c with
      ring := (c.ring.consume (i - 1)).become i (afterReply (replyElection e (some m) writes))
        (replyElection e (some m) writes).sent } := by
  cases stranded.messages (i - 1) m (by rw [waiting]; exact List.mem_cons_self) with
  | inr home =>
    obtain ⟨rfl, _⟩ := home
    exact ⟨k + 1, stranded_told writes distinct stranded other server waiting⟩
  | inl behind =>
    obtain ⟨sent, own, silent⟩ := reply_behind writes distinct other
      (stranded.own i other e (Or.inr server)) behind
    have step := gap_before other
    have apart : i ≠ i - 1 := by
      intro same
      rw [← same] at step
      omega
    refine ⟨k, stranded_quiet stranded other rfl ?_ ?_ own silent⟩
    · intro q m' member
      by_cases here : q = i
      · subst here
        rw [RingState.become_channel_self, RingState.consume_channel_ne _ apart] at member
        rcases List.mem_append.mp member with old | new
        · exact Or.inl old
        · exact Or.inr (sent m' (Option.mem_toList.mp new))
      · rw [RingState.become_channel_ne _ _ _ here] at member
        by_cases before : q = i - 1
        · subst before
          rw [RingState.consume_channel_self] at member
          exact Or.inl (List.mem_of_mem_tail member)
        · rw [RingState.consume_channel_ne _ before] at member
          exact Or.inl member
    · intro q
      by_cases here : q = i
      · subst here
        rw [RingState.become_channel_self, RingState.consume_channel_ne _ apart, List.count_append]
        have none_sent : (replyElection e (some m) writes).sent.toList.count (token ids p) = 0 := by
          rw [List.count_eq_zero]
          exact fun member => behind_not_token (sent _ (Option.mem_toList.mp member)) rfl
        omega
      · rw [RingState.become_channel_ne _ _ _ here]
        by_cases before : q = i - 1
        · subst before
          rw [RingState.consume_channel_self]
          exact (List.tail_sublist _).count_le _
        · rw [RingState.consume_channel_ne _ before]

/-- A step of another server that reads no message. -/
theorem become_stranded {c : Cluster n Ip} {i : Fin n} {s : Progress} {sent : Option ElectionData}
    (stranded : Stranded ids p main k c) (other : i ≠ p) (behind : ∀ m ∈ sent, Behind ids p i m)
    (own : ∀ e, (s = .starting e ∨ s = .replying e) → e.id = ids i)
    (silent : ∀ e, s ≠ .returned (.ok e)) :
    Stranded ids p main k { c with ring := c.ring.become i s sent } := by
  refine stranded_quiet stranded other rfl ?_ ?_ own silent
  · intro q m member
    by_cases here : q = i
    · subst here
      rw [RingState.become_channel_self] at member
      rcases List.mem_append.mp member with old | new
      · exact Or.inl old
      · exact Or.inr (behind m (Option.mem_toList.mp new))
    · rw [RingState.become_channel_ne _ _ _ here] at member
      exact Or.inl member
  · intro q
    by_cases here : q = i
    · subst here
      rw [RingState.become_channel_self, List.count_append]
      have none_sent : sent.toList.count (token ids p) = 0 := by
        rw [List.count_eq_zero]
        exact fun member => behind_not_token (behind _ (Option.mem_toList.mp member)) rfl
      omega
    · rw [RingState.become_channel_ne _ _ _ here]

theorem step_stranded (distinct : Function.Injective ids) (highest : ∀ j, j ≠ p → ids j < ids p)
    (c : Cluster n Ip) (a : Act n) (d : Cluster n Ip) (stranded : ∃ k, Stranded ids p main k c)
    (keeps : a.keepsNext = true) (step : clusterStep ids p c a = some d) :
    ∃ k, Stranded ids p main k d := by
  obtain ⟨k, stranded⟩ := stranded
  have goes := fun i => become_linked (stranded.linked i)
  cases a with
  | perform i =>
    simp only [clusterStep] at step
    split at step
    · split at step
      · cases step
      · rename_i other
        rw [goes] at step
        cases step
        refine ⟨k, become_stranded stranded other (by simp) ?_ (by simp)⟩
        rintro e (same | same)
        · obtain rfl := Progress.starting.inj same
          rfl
        · cases same
    · cases step
  | renew i reached => cases keeps
  | start i writes =>
    simp only [clusterStep] at step
    split at step
    · rename_i e server
      split at step
      · cases step
      · rename_i other
        rw [goes] at step
        cases step
        have own := stranded.own i other e (Or.inl server)
        refine ⟨k, become_stranded stranded other ?_ ?_ ?_⟩
        · intro m sent
          cases writes with
          | true =>
            obtain rfl : (⟨.kUnderway, e.id⟩ : ElectionData) = m := Option.some.inj sent
            rw [own]
            exact behind_own other
          | false => cases sent
        · cases writes <;> simp [startElection, afterStart, own]
        · cases writes <;> simp [startElection, afterStart]
    · cases step
  | reply i writes =>
    simp only [clusterStep] at step
    split at step
    · rename_i e m rest server waiting
      split at step
      · cases step
      · rename_i may
        rw [become_linked (c := { c with ring := c.ring.consume (i - 1) })
          (stranded.linked i)] at step
        cases step
        by_cases here : i = p
        · subst here
          obtain rfl : writes = true := by simpa using may
          exact stranded_winner highest stranded server waiting
        · exact reply_stranded writes distinct stranded here server waiting
    · cases step
  | readFails i =>
    simp only [clusterStep] at step
    split at step
    · split at step
      · cases step
      · rename_i other
        rw [goes] at step
        cases step
        exact ⟨k, become_stranded stranded other (by simp [replyElection])
          (by simp [replyElection, afterReply]) (by simp [replyElection, afterReply])⟩
    · cases step
  | handle i r =>
    simp only [clusterStep] at step
    split at step
    · rename_i result returned
      split at step
      · rename_i may
        obtain ⟨m, taken, rfl⟩ := Option.map_eq_some_iff.mp step
        rw [goes]
        exact ⟨k, handle_stranded distinct stranded may.1 returned may.2 taken⟩
      · cases step
    · cases step

theorem won_stranded {started : Fin n → Bool} (begun : started p = true)
    (backs : ∀ i, i ≠ p → Backs (ids i) (main i)) :
    Stranded ids p main 0 (won ids p started main) := by
  have place : ∀ q, q ≠ p → (won ids p started main).ring.channel q = [] := by
    intro q apart
    simp [won, apart]
  have here : (won ids p started main).ring.channel p = [token ids p] := by simp [won]
  refine ⟨fun _ => rfl, ?_, ?_, Or.inl ?_, ?_, backs, ?_⟩
  · intro q m member
    by_cases same : q = p
    · subst same
      rw [here] at member
      exact Or.inr ⟨List.mem_singleton.mp member, gap_self q⟩
    · rw [place q same] at member
      cases member
  · intro q
    by_cases same : q = p
    · subst same
      rw [here]
      simp
    · rw [place q same]
      simp
  · simp [won, begun]
  · rintro i _ e (same | same)
    · cases same
    · obtain rfl := Progress.replying.inj same
      rfl
  · intro i other
    have positive : ¬ gap p i ≤ 0 := by
      intro zero
      exact other (gap_eq_zero.mp (Nat.le_zero.mp zero))
    rw [decide_eq_false positive]
    exact .untold rfl (by simp [won])

/-- As long as the new primary lives and the ring stays connected no other server follows it:
    whatever the servers do from the moment it has won, each one that was a backup is told of no
    other result, and goes through Backup::MainLoop once more at most, on the connection it had to
    the lost primary. -/
theorem takeover_strands_backups {index : Fin n → Nat} {servers : List (Addr Ip)} {p : Fin n}
    {started : Fin n → Bool} {main : Fin n → Main Ip} {acts : List (Act n)} {c : Cluster n Ip}
    (highest : ∀ j, j ≠ p → UInt8.ofNat (index j) < UInt8.ofNat (index p))
    (distinct : Function.Injective fun i => UInt8.ofNat (index i)) (begun : started p = true)
    (history : ∀ i, i ≠ p → (main i).server.replica ≠ none ∧ (main i).shutdown = false ∧
      ∃ rounds, runs mainStep (start (index i) servers) rounds = some (main i))
    (run : runs (clusterStep (fun i => UInt8.ofNat (index i)) p)
      (won (fun i => UInt8.ofNat (index i)) p started main) acts = some c)
    (keeps : ∀ a ∈ acts, a.keepsNext = true) :
    ∀ i, i ≠ p →
      (∀ id, c.ring.server i = .returned (.ok id) → id = UInt8.ofNat (index p)) ∧
        ((c.main i).calls = (main i).calls ∨ ∃ call, (c.main i).calls = (main i).calls ++ [call] ∧
          call.id = UInt8.ofNat (index p) ∧ Stale call) := by
  have backs : ∀ i, i ≠ p → Backs (UInt8.ofNat (index i)) (main i) := by
    intro i other
    obtain ⟨present, running, rounds, ran⟩ := history i other
    have settled := invariant_of_runs step_settled ran (settled_start (index i) servers)
    refine ⟨settled, ?_, ?_⟩
    · cases replica : (main i).server.replica with
      | none => exact absurd replica present
      | some r =>
        cases r with
        | primary => exact absurd replica (settled.replica running)
        | backup b => exact ⟨b, rfl⟩
    · exact invariant_of_runs step_own ran rfl
  obtain ⟨k, stranded⟩ := invariant_of_allowed (step_stranded distinct highest)
    (allowed_of_mem keeps) run ⟨0, won_stranded begun backs⟩
  intro i other
  have told := stranded.told i other
  generalize decide (gap p i ≤ k) = passed at told
  cases told with
  | untold same never => exact ⟨fun id returned => absurd returned (never id), Or.inl same⟩
  | told same only => exact ⟨only, Or.inl same⟩
  | handled call calls elected stale never =>
    exact ⟨fun id returned => absurd returned (never id), Or.inr ⟨call, calls, elected, stale⟩⟩

-- A server that loses its next can leave the winner out of the ring: here 1 connects to 0.
example : ∃ c : Cluster 3 Nat, runs (clusterStep (fun i => UInt8.ofNat i.val) 2)
    (won (fun i => UInt8.ofNat i.val) 2 (fun _ => true) fun i => start i.val threeServers)
    [.reply 0 true, .reply 1 true,
      .handle 0 ⟨some 2, [true], true, .kLostConnectionToPrimary⟩,
      .handle 1 ⟨some 2, [true], true, .kLostConnectionToPrimary⟩,
      .perform 0, .start 0 true, .renew 1 (some 0), .start 1 true,
      .reply 1 true, .reply 0 true, .reply 1 true, .reply 0 true] = some c ∧
    c.ring.server 0 = .returned (.ok 1) ∧ c.ring.server 1 = .replying ⟨1, true⟩ :=
  ⟨_, rfl, rfl, rfl⟩

/-- Server 0 when it has lost its primary, server 2. -/
def bereaved : Main Nat where
  server := ⟨0, threeServers, some (.backup ⟨⟨12, kBackupPort⟩, .connected ⟨12, kBackupPort⟩ 0⟩)⟩
  round := 1
  offset := 2
  shutdown := false
  calls := [⟨0, 2, .connected ⟨12, kBackupPort⟩ 0⟩]

/-- It is told that server 1 has won, goes through MainLoop and starts another election. -/
def oneMore : List (Act n) :=
  [.reply 0 true, .handle 0 ⟨some 1, [true], true, .kLostConnectionToPrimary⟩, .reply 1 true,
    .perform 0, .start 0 true]

theorem takeover_strands_backups_three :
    ∃ c : Cluster 2 Nat, runs (clusterStep (fun i => UInt8.ofNat i.val) 1)
        (won (fun i => UInt8.ofNat i.val) 1 (fun _ => true) fun _ => bereaved) oneMore = some c ∧
      c.ring.server 0 = .replying ⟨0, true⟩ ∧
      ∃ call, (c.main 0).calls = bereaved.calls ++ [call] ∧ call.id = 1 ∧ Stale call := by
  have highest : ∀ j : Fin 2, j ≠ 1 → UInt8.ofNat j.val < UInt8.ofNat (1 : Fin 2).val := by decide
  have distinct : Function.Injective fun i : Fin 2 => UInt8.ofNat i.val := by decide
  have history : ∀ i : Fin 2, i ≠ 1 → bereaved.server.replica ≠ none ∧ bereaved.shutdown = false ∧
      ∃ rounds, runs mainStep (start i.val threeServers) rounds = some bereaved := by
    intro i other
    obtain rfl : i = 0 := by omega
    exact ⟨by decide, rfl, [⟨some 2, [true], true, .kLostConnectionToPrimary⟩], rfl⟩
  obtain ⟨c, run, waits, more⟩ : ∃ c : Cluster 2 Nat,
      runs (clusterStep (fun i => UInt8.ofNat i.val) 1)
        (won (fun i => UInt8.ofNat i.val) 1 (fun _ => true) fun _ => bereaved) oneMore = some c ∧
      c.ring.server 0 = .replying ⟨0, true⟩ ∧ (c.main 0).calls.length = 2 := ⟨_, rfl, rfl, rfl⟩
  have stranded :=
    takeover_strands_backups highest distinct rfl history run (by decide) 0 (by decide)
  refine ⟨c, run, waits, ?_⟩
  rcases stranded.2 with same | called
  · rw [same] at more
    cases more
  · exact called

end Runs

end DropboxAfterTakeover
