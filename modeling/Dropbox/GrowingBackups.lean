import Dropbox.WiredRuns

/-!
ClientComposite::BroadcastCommand in its loop over backups_ while AcceptBackupLoop adds to it:
the two share the vector without a lock, and the loop takes begin and end once.
-/
namespace DropboxGrowingBackups
open Transitions DropboxWiring DropboxWiredRuns
open DropboxFileStore (Path)
open DropboxSocketOwner (SocketType kInvalidSocket)
variable {U : Type} [DecidableEq U]

/-- The iterators of the loop: they point into one block of storage. -/
structure Loop where
  storage : Nat
  index : Nat
  finish : Nat
  deriving DecidableEq, Repr

def Loop.begin (s : State U) : Loop := ⟨s.storage, 0, s.size⟩

/-- A turn of AcceptBackupLoop, or the loop's next recipient, whose sending succeeds. -/
inductive Turn where
  | accept (accepted : SocketType) (room : Nat)
  | next (operation : Operation) (path : Option Path)

def overlapStep (p : Loop × State U) : Turn → Option (Loop × State U)
  | .accept accepted room => (p.2.acceptBackup accepted room).map fun s => (p.1, s)
  | .next operation path =>
    if p.1.index = p.1.finish then some p
    else (p.2.syncBackup (.backup p.1.storage p.1.index) operation path).map fun s =>
      ({ p.1 with index := p.1.index + 1 }, s)

def nexts : List Turn → Nat
  | [] => 0
  | .accept _ _ :: rest => nexts rest
  | .next _ _ :: rest => nexts rest + 1

/-- The backups that come. -/
def accepts : List Turn → Nat
  | [] => 0
  | .accept accepted _ :: rest =>
    if accepted = kInvalidSocket then accepts rest else accepts rest + 1
  | .next _ _ :: rest => accepts rest

section storage
variable {s t : State U}

section
omit [DecidableEq U]

theorem destroy_storage {p : Place} (gone : s.destroy p = some t) :
    t.storage = s.storage ∧ t.size = s.size ∧ t.capacity = s.capacity := by
  simp only [State.destroy, Option.bind_eq_bind, Option.bind_eq_some_iff, Option.some.injEq] at gone
  obtain ⟨_, _, rfl⟩ := gone
  exact ⟨rfl, rfl, rfl⟩

/-- backups_ keeps its storage as long as there is room. -/
theorem acceptBackup_storage {accepted : SocketType} {room : Nat}
    (valid : accepted ≠ kInvalidSocket) (step : s.acceptBackup accepted room = some t) :
    t.size = s.size + 1 ∧
      if s.size < s.capacity then t.storage = s.storage ∧ t.capacity = s.capacity
      else t.storage = s.storage + 1 := by
  rw [State.acceptBackup, if_neg valid] at step
  simp only [Option.bind_eq_bind, Option.bind_eq_some_iff] at step
  obtain ⟨u, emplaced, gone⟩ := step
  obtain ⟨storage, size, capacity⟩ := destroy_storage gone
  rw [storage, size, capacity]
  unfold State.emplaceBack at emplaced
  split at emplaced
  · rename_i space
    simp only [Option.bind_eq_bind, Option.bind_eq_some_iff, Option.some.injEq] at emplaced
    obtain ⟨_, _, rfl⟩ := emplaced
    have space' : s.size < s.capacity := space
    rw [if_pos space']
    exact ⟨rfl, rfl, rfl⟩
  · rename_i full
    simp only [Option.bind_eq_bind, Option.bind_eq_some_iff, Option.some.injEq] at emplaced
    obtain ⟨_, _, _, _, rfl⟩ := emplaced
    have full' : ¬ s.size < s.capacity := full
    rw [if_neg full']
    exact ⟨rfl, rfl⟩

theorem acceptBackup_invalid {room : Nat} (step : s.acceptBackup kInvalidSocket room = some t) :
    t.size = s.size ∧ t.storage = s.storage ∧ t.capacity = s.capacity := by
  rw [State.acceptBackup, if_pos rfl] at step
  obtain ⟨storage, size, capacity⟩ := destroy_storage step
  exact ⟨size, storage, capacity⟩

/-- Storage that was given back does not come again. -/
theorem acceptBackup_older {accepted : SocketType} {room : Nat}
    (step : s.acceptBackup accepted room = some t) : s.storage ≤ t.storage := by
  by_cases invalid : accepted = kInvalidSocket
  · subst invalid
    obtain ⟨_, storage, _⟩ := acceptBackup_invalid step
    omega
  · obtain ⟨_, storage⟩ := acceptBackup_storage invalid step
    split at storage <;> omega

end

end storage

section overlapping
variable {s : State U} {a : Spec U} {l : Loop}

/-- Every further recipient is reached through storage that is still there. -/
def Stays (l : Loop) (s : State U) (turns : List Turn) : Prop :=
  ∀ before operation path after, turns = before ++ .next operation path :: after →
    l.finish ≤ l.index + nexts before ∨
      l.storage = s.storage ∧ s.size + accepts before ≤ s.capacity

section
omit [DecidableEq U]

theorem stays_nil : Stays l s [] := by
  intro before operation path after same
  simp at same

theorem stays_next {operation : Operation} {path : Option Path} {rest : List Turn} {k : Loop}
    {t : State U} (storage : t.storage = s.storage) (size : t.size = s.size)
    (capacity : t.capacity = s.capacity) (same : k.storage = l.storage)
    (finish : k.finish = l.finish)
    (moved : l.finish ≤ l.index ∧ k.index = l.index ∨ k.index = l.index + 1) :
    Stays l s (.next operation path :: rest) ↔
      (l.finish ≤ l.index ∨ l.storage = s.storage ∧ s.size ≤ s.capacity) ∧ Stays k t rest := by
  constructor
  · intro stays
    refine ⟨stays [] operation path rest rfl, ?_⟩
    intro before operation' path' after split
    have later := stays (.next operation path :: before) operation' path' after (by rw [split]; rfl)
    simp only [nexts, accepts] at later
    rw [storage, size, capacity, same, finish]
    omega
  · rintro ⟨first, later⟩ before operation' path' after split
    cases before with
    | nil => exact first
    | cons turn before =>
      simp only [List.cons_append, List.cons.injEq] at split
      obtain ⟨rfl, split⟩ := split
      have more := later before operation' path' after split
      rw [storage, size, capacity, same, finish] at more
      simp only [nexts, accepts]
      omega

theorem stays_accept {accepted : SocketType} {room : Nat} {rest : List Turn} {t : State U}
    (older : l.storage ≤ s.storage) (fits : s.size ≤ s.capacity)
    (step : s.acceptBackup accepted room = some t) :
    Stays l s (.accept accepted room :: rest) ↔ Stays l t rest := by
  have shifted : ∀ before, (l.storage = s.storage ∧
      s.size + accepts (.accept accepted room :: before) ≤ s.capacity) ↔
      (l.storage = t.storage ∧ t.size + accepts before ≤ t.capacity) := by
    intro before
    by_cases invalid : accepted = kInvalidSocket
    · subst invalid
      obtain ⟨size, storage, capacity⟩ := acceptBackup_invalid step
      rw [size, storage, capacity, accepts, if_pos rfl]
    · obtain ⟨size, storage⟩ := acceptBackup_storage invalid step
      rw [size, accepts, if_neg invalid]
      split at storage
      · rw [storage.1, storage.2]
        omega
      · omega
  constructor
  · intro stays before operation path after split
    have later := stays (.accept accepted room :: before) operation path after (by rw [split]; rfl)
    rw [shifted] at later
    exact later
  · intro stays before operation path after split
    cases before with
    | nil => cases split
    | cons turn before =>
      simp only [List.cons_append, List.cons.injEq] at split
      obtain ⟨rfl, split⟩ := split
      rw [shifted]
      exact stays before operation path after split

end

/-- Whom the loop sends to, and under which mutex. -/
def recipients (a : Spec U) : List Talk := a.backups.map fun c => ⟨c.mutex, c.descriptor⟩

theorem recipients_accept (accepted : SocketType) (room : Nat) {b : Spec U}
    (step : specStep a (.acceptBackup accepted room) = some b) :
    recipients a <+: recipients b := by
  simp only [specStep, Option.some.injEq] at step
  subst step
  split
  · exact List.prefix_refl _
  · rw [recipients, recipients, List.map_append]
    exact List.prefix_append ..

theorem recipients_next {index : Nat} {operation : Operation} {path : Option Path} {b : Spec U}
    (step : specStep a (.syncBackup index operation path) = some b) :
    recipients b = recipients a := by
  simp only [specStep, Option.map_eq_some_iff] at step
  obtain ⟨c, here, rfl⟩ := step
  obtain ⟨inside, same⟩ := List.getElem?_eq_some_iff.mp here
  apply List.ext_getElem?
  intro i
  rw [recipients, recipients, List.getElem?_map, List.getElem?_map]
  by_cases own : i = index
  · subst own
    rw [List.getElem?_set_self inside, here]
    rfl
  · rw [List.getElem?_set_ne (Ne.symm own)]

omit [DecidableEq U] in
theorem recipient_of_prefix {known : List Talk} {i : Nat} (first : known <+: recipients a)
    (inside : i < known.length) :
    ∃ c : Connection, a.backups[i]? = some c ∧ known[i] = ⟨c.mutex, c.descriptor⟩ := by
  have there := List.prefix_iff_getElem?.mp first i inside
  rw [recipients, List.getElem?_map, Option.map_eq_some_iff] at there
  obtain ⟨c, here, same⟩ := there
  exact ⟨c, here, same.symm⟩

/-- Sending through storage that is there leaves the storage as it is. -/
theorem syncBackup_there {i : Nat} {c : Connection} (depicts : Depicts s a) (sound : Sound a)
    (here : a.backups[i]? = some c) (operation : Operation) (path : Option Path) :
    ∃ b, specStep a (.syncBackup i operation path) = some b ∧
      ∃ t, s.syncBackup (.backup s.storage i) operation path = some t ∧
        t.storage = s.storage ∧ t.size = s.size ∧ t.capacity = s.capacity ∧
        t.talks = s.talks ++ [⟨c.mutex, c.descriptor⟩] ∧ Depicts t b := by
  have step : specStep a (.syncBackup i operation path) = some { a with
      backups := a.backups.set i (c.after operation path),
      talks := a.talks ++ [⟨c.mutex, c.descriptor⟩] } := by
    rw [specStep, here]
    rfl
  obtain ⟨t, taken, pictured⟩ := depicts_step depicts sound (.syncBackup i operation path) step
  have there := depicts.backups i
  rw [here] at there
  have synced := syncBackup_wired operation path there (sound.locked i c here)
  obtain ⟨inside, _⟩ := List.getElem?_eq_some_iff.mp here
  have size := depicts.size
  rw [wiringStep, if_pos (by omega), synced] at taken
  cases taken
  exact ⟨_, step, _, synced, rfl, rfl, rfl, rfl, pictured⟩

section turns
variable {t : State U} {operation : Operation} {path : Option Path} {rest : List Turn}

section
omit [DecidableEq U]

theorem runs_accept {accepted : SocketType} {room : Nat}
    (accepts : s.acceptBackup accepted room = some t) :
    runs overlapStep (l, s) (.accept accepted room :: rest) = runs overlapStep (l, t) rest := by
  have step : overlapStep (l, s) (.accept accepted room) = some (l, t) := by
    rw [overlapStep, accepts]
    rfl
  rw [runs, step]
  rfl

/-- The loop is over. -/
theorem runs_past (past : l.index = l.finish) :
    runs overlapStep (l, s) (.next operation path :: rest) = runs overlapStep (l, s) rest := by
  rw [runs, overlapStep, if_pos past]
  rfl

theorem runs_next (before : l.index ≠ l.finish)
    (synced : s.syncBackup (.backup l.storage l.index) operation path = some t) :
    runs overlapStep (l, s) (.next operation path :: rest) =
      runs overlapStep ({ l with index := l.index + 1 }, t) rest := by
  have step : overlapStep (l, s) (.next operation path) =
      some ({ l with index := l.index + 1 }, t) := by
    rw [overlapStep, if_neg before, synced]
    rfl
  rw [runs, step]
  rfl

/-- The loop goes on in storage that was given back. -/
theorem runs_gone (depicts : Depicts s a) (before : l.index ≠ l.finish)
    (other : l.storage ≠ s.storage) :
    runs overlapStep (l, s) (.next operation path :: rest) = none := by
  have gone : s.syncBackup (.backup l.storage l.index) operation path = none := by
    rw [State.syncBackup, depicts.storages _ _ other]
    rfl
  rw [runs, overlapStep, if_neg before, gone]
  rfl

end

end turns

/-- The recipients the loop began with stay the first of backups_, whose storage is never older
    than the loop's. -/
theorem overlap_runs_iff (known : List Talk) (turns : List Turn) (depicts : Depicts s a)
    (sound : Sound a) (older : l.storage ≤ s.storage) (within : l.index ≤ l.finish)
    (size : known.length = l.finish) (first : known <+: recipients a) :
    ((∃ p, runs overlapStep (l, s) turns = some p) ↔ Stays l s turns) ∧
      ∀ k t, runs overlapStep (l, s) turns = some (k, t) →
        t.talks = s.talks ++ (known.drop l.index).take (nexts turns) := by
  induction turns generalizing s a l with
  | nil =>
    refine ⟨iff_of_true ⟨(l, s), rfl⟩ stays_nil, ?_⟩
    intro k t run
    cases run
    simp [nexts]
  | cons turn rest ih =>
    cases turn with
    | accept accepted room =>
      obtain ⟨t, taken, pictured⟩ := depicts_step depicts sound (.acceptBackup accepted room) rfl
      have accepts : s.acceptBackup accepted room = some t := taken
      have later : l.storage ≤ t.storage := older.trans (acceptBackup_older accepts)
      have kept := sound_step sound (.acceptBackup accepted room) rfl
      obtain ⟨goes, talks⟩ := ih pictured kept later within size
        (first.trans (recipients_accept accepted room rfl))
      have silent : t.talks = s.talks := by
        rw [pictured.talks, depicts.talks]
        split <;> rfl
      rw [runs_accept accepts, stays_accept older depicts.room accepts, ← silent]
      exact ⟨goes, talks⟩
    | next operation path =>
      by_cases past : l.index = l.finish
      · obtain ⟨goes, talks⟩ := ih depicts sound older within size first
        rw [runs_past past,
          stays_next (k := l) (t := s) rfl rfl rfl rfl rfl (Or.inl ⟨by omega, rfl⟩)]
        refine ⟨goes.trans (iff_and_self.mpr fun _ => Or.inl (by omega)), ?_⟩
        intro k t run
        have none_left : known.drop l.index = [] := List.drop_eq_nil_of_le (by omega)
        have same := talks k t run
        rw [none_left] at same ⊢
        simpa using same
      · have inside : l.index < known.length := by omega
        by_cases same : l.storage = s.storage
        · obtain ⟨c, here, talk⟩ := recipient_of_prefix first inside
          obtain ⟨b, spec, t, synced, storage, size', capacity, talks', pictured⟩ :=
            syncBackup_there depicts sound here operation path
          rw [← same] at synced
          have kept := sound_step sound _ spec
          obtain ⟨goes, talks⟩ := ih (l := { l with index := l.index + 1 }) pictured kept
            (by show l.storage ≤ t.storage; omega) (by show l.index + 1 ≤ l.finish; omega) size
            (by rw [recipients_next spec]; exact first)
          have stays : Stays l s (.next operation path :: rest) ↔ _ :=
            stays_next (k := { l with index := l.index + 1 }) storage size' capacity rfl rfl
              (Or.inr rfl)
          rw [runs_next past synced, stays]
          refine ⟨goes.trans (iff_and_self.mpr fun _ => Or.inr ⟨same, depicts.room⟩), ?_⟩
          intro k u run
          rw [talks k u run, talks', ← talk, List.drop_eq_getElem_cons inside, nexts,
            List.take_succ_cons, List.append_assoc]
          rfl
        · rw [runs_gone depicts past same]
          refine ⟨iff_of_false (by simp) ?_, fun k t run => by cases run⟩
          intro stays
          cases stays [] operation path rest rfl with
          | inl finished =>
            rw [nexts] at finished
            omega
          | inr there => exact same there.1

end overlapping

/-- In every run of the primary, a broadcast that AcceptBackupLoop overlaps gets through to every
    backup it began with, each on its own socket and under its own mutex, exactly when backups_
    has room for every backup that comes before the loop's last recipient; where it has not, the
    loop goes on in storage that was given back. The backups that come are not sent to. -/
theorem broadcast_overlapping_accepts (actions : List (Action U)) {a : Spec U}
    (run : runs specStep .start actions = some a) :
    ∃ s, runs wiringStep start actions = some s ∧ ∀ turns : List Turn,
      ((∃ p, runs overlapStep (.begin s, s) turns = some p) ↔
        ∀ before operation path after, turns = before ++ .next operation path :: after →
          nexts before < a.backups.length →
            a.backups.length + accepts before ≤ s.capacity) ∧
      ∀ l t, runs overlapStep (.begin s, s) turns = some (l, t) →
        t.talks = a.talks ++ ((a.backups.map fun c => ⟨c.mutex, c.descriptor⟩).take
          (nexts turns)) := by
  obtain ⟨s, ran, depicts, sound⟩ := wired_runs run
  have size := depicts.size
  refine ⟨s, ran, fun turns => ?_⟩
  obtain ⟨goes, talks⟩ := overlap_runs_iff (l := .begin s) (recipients a) turns depicts
    sound (Nat.le_refl _) (Nat.zero_le _) (by rw [recipients, List.length_map, ← size]; rfl)
    (List.prefix_refl _)
  constructor
  · rw [goes]
    constructor
    · intro stays before operation path after split short
      cases stays before operation path after split with
      | inl past =>
        simp only [Loop.begin] at past
        omega
      | inr room =>
        have fits := room.2
        omega
    · intro room before operation path after split
      by_cases short : nexts before < a.backups.length
      · have fits := room before operation path after split short
        exact Or.inr ⟨rfl, by omega⟩
      · refine Or.inl ?_
        simp only [Loop.begin]
        omega
  · intro l t run'
    rw [talks l t run', depicts.talks]
    rfl

/-- A third backup comes between the two recipients, and backups_ has room for it. -/
theorem broadcast_overlapping_accepts_room : ∃ (s : State Nat) (l : Loop) (t : State Nat),
    runs wiringStep start [.acceptBackup 4 0, .acceptBackup 5 1] = some s ∧
    runs overlapStep (.begin s, s)
      [.next (fun x => x) none, .accept 6 0, .next (fun x => x) none] = some (l, t) ∧
    t.talks = [⟨some 0, 4⟩, ⟨some 1, 5⟩] := by
  obtain ⟨s, ran, overlaps⟩ :=
    broadcast_overlapping_accepts (U := Nat) [.acceptBackup 4 0, .acceptBackup 5 1] rfl
  obtain ⟨goes, talks⟩ := overlaps [.next (fun x => x) none, .accept 6 0, .next (fun x => x) none]
  have capacity : s.capacity = 3 := by
    cases ran
    rfl
  obtain ⟨⟨l, t⟩, run⟩ := goes.mpr (by
    intro before operation path after split short
    rw [capacity]
    rcases before with _ | ⟨first, _ | ⟨second, _ | ⟨third, more⟩⟩⟩
    · decide
    · simp at split
    · simp only [List.cons_append, List.nil_append, List.cons.injEq] at split
      obtain ⟨rfl, rfl, _⟩ := split
      decide
    · simp at split)
  exact ⟨s, l, t, ran, run, talks l t run⟩

end DropboxGrowingBackups
