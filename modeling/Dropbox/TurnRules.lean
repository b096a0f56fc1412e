import Dropbox.ProtocolRules

/-!
Rules for a turn of a dialogue. The side that asks puts a request and obtains the
reply to it; the side that answers takes a request, while more input may already be
waiting, and then puts the reply.
-/
namespace DropboxTurnRules
open DropboxFileStore DropboxHost DropboxSocketStream DropboxStreamRules DropboxProtocol
open DropboxProtocolRules Programs
variable {K : Contract} {L A B : Type} {buf : L → SocketBuffer} {I J M : L → World → Prop}
variable {request reply first second : List Byte} {a : A} {b : B} {P : B → Prop}

/-- With no input unread, it puts these bytes to the output and then takes those of the input. -/
def Obtains (K : Contract) (buf : L → SocketBuffer) (I : L → World → Prop) (x : Io L A)
    (request reply : List Byte) (a : A) (J : L → World → Prop) : Prop :=
  ∀ ⦃taken written rest l w⦄, I l w → Linked K taken written (buf l) w → (buf l).unread = [] →
    K.input = taken ++ reply ++ rest →
    (∀ d, d <+: request → K.sending w.rcvd (written ++ d)) →
    (∀ d, d <+: reply → d ≠ reply → Asks K (taken ++ d) (written ++ request)) →
    Comp.ensures K.env x (fun r k v => r = .ok a ∧ J k v ∧
      Linked K (taken ++ reply) (written ++ request) (buf k) v) l w

theorem obtains_of_takes {x : Io L A} (takes : Takes K buf I x reply a J) :
    Obtains K buf I x [] reply a J := by
  intro taken written rest l w here linked _ input _ asks
  rw [List.append_nil] at asks ⊢
  exact takes here linked input asks

theorem obtains_of_puts {x : Io L A} (puts : Puts K buf I x request a J) :
    Obtains K buf I x request [] a J := by
  intro taken written rest l w here linked exhausted _ may _
  rw [List.append_nil]
  apply Comp.ensures_mono (puts here linked exhausted may)
  rintro r k v ⟨ended, there, linked', _⟩
  exact ⟨ended, there, linked'⟩

theorem obtains_puts {x : Io L A} {f : A → Io L B} (head : Puts K buf I x first a J)
    (tail : Obtains K buf J (f a) second reply b M) :
    Obtains K buf I (x >>= f) (first ++ second) reply b M := by
  intro taken written rest l w here linked exhausted input may asks
  rw [Comp.ensures_bind]
  apply Comp.ensures_mono (head here linked exhausted fun d within =>
    may d (within.trans (List.prefix_append ..)))
  rintro r k v ⟨rfl, there, linked', exhausted', same⟩
  have later : ∀ d, d <+: second → K.sending v.rcvd (written ++ first ++ d) := by
    intro d within
    rw [same, List.append_assoc]
    exact may (first ++ d) ((List.prefix_append_right_inj first).mpr within)
  rw [← List.append_assoc] at asks ⊢
  exact tail there linked' exhausted' input later asks

theorem obtains_after {x : Io L A} {f : A → Io L B} (head : Keeps K buf I x a J)
    (tail : Obtains K buf J (f a) request reply b M) : Obtains K buf I (x >>= f) request reply b M :=
  obtains_puts (puts_of_keeps head) tail

/-- A last part that leaves the connection alone. -/
theorem obtains_then {x : Io L A} {f : A → Io L B} (head : Obtains K buf I x request reply a J)
    (tail : Keeps K buf J (f a) b M) : Obtains K buf I (x >>= f) request reply b M := by
  intro taken written rest l w here linked exhausted input may asks
  rw [Comp.ensures_bind]
  apply Comp.ensures_mono (head here linked exhausted input may asks)
  rintro r k v ⟨rfl, there, linked'⟩
  rw [Comp.either_ok]
  apply Comp.ensures_mono (tail there)
  rintro r k' v' ⟨rfl, final, same, received, sent⟩
  exact ⟨rfl, final, linked_of_same linked' same received sent⟩

/-- It takes these bytes of the input and then puts those to the output; the value is one of `P`. -/
def Answers (K : Contract) (buf : L → SocketBuffer) (I : L → World → Prop) (x : Io L B)
    (request reply : List Byte) (P : B → Prop) (J : L → World → Prop) : Prop :=
  ∀ ⦃taken written rest l w⦄, I l w → Linked K taken written (buf l) w →
    K.input = taken ++ request ++ rest →
    (∀ d, d <+: request → d ≠ request → Asks K (taken ++ d) written) →
    (reply ≠ [] → ∀ b v, Linked K (taken ++ request) written b v → b.unread = []) →
    (∀ d, d <+: reply → K.sending (taken ++ request) (written ++ d)) →
    Comp.ensures K.env x (fun r k v => (∃ b, r = .ok b ∧ P b) ∧ J k v ∧
      Linked K (taken ++ request) (written ++ reply) (buf k) v) l w

theorem answers_takes {x : Io L A} {f : A → Io L B} (head : Takes K buf I x first a J)
    (tail : Answers K buf J (f a) second reply P M) :
    Answers K buf I (x >>= f) (first ++ second) reply P M := by
  intro taken written rest l w here linked input asks alone may
  have split : K.input = taken ++ first ++ (second ++ rest) := by simpa using input
  rw [Comp.ensures_bind]
  apply Comp.ensures_mono (head here linked split (proper_left asks))
  rintro r k v ⟨rfl, there, linked'⟩
  rw [← List.append_assoc] at input alone may ⊢
  refine tail there linked' input ?_ alone may
  intro d within proper
  rw [List.append_assoc]
  exact proper_right asks d within proper

theorem answers_after {x : Io L A} {f : A → Io L B} (head : Keeps K buf I x a J)
    (tail : Answers K buf J (f a) request reply P M) : Answers K buf I (x >>= f) request reply P M :=
  answers_takes (takes_of_keeps head) tail

/-- The reply to a request that has been taken. -/
theorem answers_of_puts {x : Io L B} (filled : reply ≠ []) (puts : Puts K buf I x reply b J)
    (holds : P b) : Answers K buf I x [] reply P J := by
  intro taken written rest l w here linked _ _ alone may
  rw [List.append_nil] at alone may ⊢
  have exhausted := alone filled _ _ linked
  have whole : w.rcvd = taken := by simpa [exhausted] using linked.received
  apply Comp.ensures_mono (puts here linked exhausted (by rwa [whole]))
  rintro r k v ⟨rfl, there, linked', _⟩
  exact ⟨⟨b, rfl, holds⟩, there, linked'⟩

theorem answers_of_keeps {x : Io L B} (keeps : Keeps K buf I x b J) (holds : P b) :
    Answers K buf I x [] [] P J := by
  intro taken written rest l w here linked _ _ _ _
  rw [List.append_nil, List.append_nil]
  apply Comp.ensures_mono (keeps here)
  rintro r k v ⟨rfl, there, same, received, sent⟩
  exact ⟨⟨b, rfl, holds⟩, there, linked_of_same linked same received sent⟩

/-- The value of a part does not matter to what follows it. -/
theorem answers_discard {x : Io L A} (head : Answers K buf I x request reply (fun _ => True) J)
    (holds : P b) : Answers K buf I (do let _ ← x; pure b) request reply P J := by
  intro taken written rest l w here linked input asks alone may
  rw [Comp.ensures_bind]
  apply Comp.ensures_mono (head here linked input asks alone may)
  rintro r k v ⟨⟨a, rfl, _⟩, there⟩
  exact ⟨⟨b, rfl, holds⟩, there⟩

variable {p : Path} {fs : Fs} {log : List Event} {e : Event}

theorem keeps_note (logs : K.logging log e) :
    Keeps K FileExchange.buf (At p fs log) (note e) () (At p fs (log ++ [e])) := by
  rintro fe w ⟨good, path, files, rfl⟩
  rw [ensures_note]
  exact ⟨logs, rfl, ⟨good, path, files, rfl⟩, rfl, rfl, rfl⟩

/-- A broadcast is logged, whatever it answers. -/
theorem answers_broadcast (logs : K.logging log e) :
    Answers K FileExchange.buf (At p fs log) (broadcast e) [] [] (fun _ => True)
      (At p fs (log ++ [e])) := by
  rintro taken written rest fe w ⟨good, path, files, rfl⟩ linked _ _ _ _
  rw [List.append_nil, List.append_nil, ensures_broadcast]
  refine ⟨logs, fun success => ⟨⟨success, rfl, trivial⟩, ⟨good, path, files, rfl⟩, ?_⟩⟩
  exact linked_of_same linked rfl rfl rfl

/-- The first part of a try block that raises nothing. -/
theorem keeps_try {x : Io L A} {f : A → Io L B} {handler : Fault → Io L B}
    (head : Keeps K buf I x a J) (tail : Keeps K buf J (tryCatch (f a) handler) b M) :
    Keeps K buf I (tryCatch (x >>= f) handler) b M := by
  intro l w here
  rw [ensures_tryCatch, Comp.ensures_bind]
  apply Comp.ensures_mono (head here)
  rintro r k v ⟨rfl, there, same, received, sent⟩
  have tried := tail there
  rw [ensures_tryCatch] at tried
  rw [same, received, sent] at tried
  exact tried

/-- A file-system call in a try block of its own. -/
theorem keeps_attempt {x : Io FileExchange (Option A)} {result : Option A} {after : Fs}
    (answered : Keeps K FileExchange.buf (At p fs log) x result (At p after log)) :
    Keeps K FileExchange.buf (At p fs log)
      (tryCatch (do let _ ← orThrow x; pure true) fun _ => pure false) result.isSome
      (At p after log) := by
  intro fe w here
  rw [ensures_tryCatch, Comp.ensures_bind, orThrow, Comp.ensures_bind]
  apply Comp.ensures_mono (answered here)
  rintro r k v ⟨rfl, there⟩
  cases result with
  | none => exact ⟨rfl, there⟩
  | some a => exact ⟨rfl, there⟩

end DropboxTurnRules
