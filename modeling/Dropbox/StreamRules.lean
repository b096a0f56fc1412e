import Dropbox.SocketStream

/-!
Rules for computations that take a given piece of the input, or put a given piece
to the output, of the one stream in their state. `buf` finds its buffer there; the
assertions before and after speak of the rest of the state and of the world.
-/
namespace DropboxStreamRules
open DropboxFileStore DropboxHost DropboxSocketStream Programs
variable {K : Contract} {L A B : Type} {buf : L → SocketBuffer} {I J M : L → World → Prop}

/-- The computation takes exactly these bytes of the input and ends with this value. -/
def Takes (K : Contract) (buf : L → SocketBuffer) (I : L → World → Prop) (x : Io L A)
    (bytes : List Byte) (a : A) (J : L → World → Prop) : Prop :=
  ∀ ⦃taken written rest l w⦄, I l w → Linked K taken written (buf l) w →
    K.input = taken ++ bytes ++ rest →
    (∀ d, d <+: bytes → d ≠ bytes → Asks K (taken ++ d) written) →
    Comp.ensures K.env x (fun r k v => r = .ok a ∧ J k v ∧
      Linked K (taken ++ bytes) written (buf k) v) l w

/-- With no input unread, it puts exactly these bytes to the output and ends with this value. -/
def Puts (K : Contract) (buf : L → SocketBuffer) (I : L → World → Prop) (x : Io L A)
    (bytes : List Byte) (a : A) (J : L → World → Prop) : Prop :=
  ∀ ⦃taken written l w⦄, I l w → Linked K taken written (buf l) w → (buf l).unread = [] →
    (∀ d, d <+: bytes → K.sending w.rcvd (written ++ d)) →
    Comp.ensures K.env x (fun r k v => r = .ok a ∧ J k v ∧
      Linked K taken (written ++ bytes) (buf k) v ∧ (buf k).unread = [] ∧ v.rcvd = w.rcvd) l w

theorem takes_pure (a : A) (weaker : ∀ l w, I l w → J l w) : Takes K buf I (pure a) [] a J := by
  intro taken written rest l w here linked _ _
  exact ⟨rfl, weaker l w here, by simpa using linked⟩

/-- A proper prefix of the first part is one of the whole. -/
theorem proper_left {P : List Byte → Prop} {first second : List Byte}
    (whole : ∀ d, d <+: first ++ second → d ≠ first ++ second → P d) :
    ∀ d, d <+: first → d ≠ first → P d := by
  intro d within proper
  refine whole d (within.trans (List.prefix_append ..)) ?_
  rintro rfl
  have longer := within.length_le
  rw [List.length_append] at longer
  have empty : second = [] := List.eq_nil_of_length_eq_zero (by omega)
  exact proper (by simp [empty])

/-- A proper prefix of the second part makes one of the whole. -/
theorem proper_right {P : List Byte → Prop} {first second : List Byte}
    (whole : ∀ d, d <+: first ++ second → d ≠ first ++ second → P d) :
    ∀ d, d <+: second → d ≠ second → P (first ++ d) := by
  intro d within proper
  refine whole (first ++ d) ((List.prefix_append_right_inj first).mpr within) ?_
  intro same
  exact proper (List.append_cancel_left same)

theorem takes_bind {x : Io L A} {f : A → Io L B} {first second : List Byte} {a : A} {b : B}
    (head : Takes K buf I x first a J) (tail : Takes K buf J (f a) second b M) :
    Takes K buf I (x >>= f) (first ++ second) b M := by
  intro taken written rest l w here linked input asks
  have early : ∀ d, d <+: first → d ≠ first → Asks K (taken ++ d) written := proper_left asks
  have late : ∀ d, d <+: second → d ≠ second → Asks K (taken ++ first ++ d) written := by
    intro d within proper
    rw [List.append_assoc]
    exact proper_right asks d within proper
  rw [Comp.ensures_bind]
  apply Comp.ensures_mono (head here linked (show K.input = _ ++ (second ++ rest) by simpa using input) early)
  rintro r k v ⟨rfl, there, linked'⟩
  rw [Comp.either_ok]
  apply Comp.ensures_mono (tail there linked' (show K.input = _ ++ rest by simpa using input) late)
  rintro r k' v' ⟨rfl, final, linked''⟩
  exact ⟨rfl, final, by simpa using linked''⟩

/-- A last part that takes nothing. -/
theorem takes_then {x : Io L A} {f : A → Io L B} {bytes : List Byte} {a : A} {b : B}
    (head : Takes K buf I x bytes a J) (tail : Takes K buf J (f a) [] b M) :
    Takes K buf I (x >>= f) bytes b M := by
  have whole := takes_bind head tail
  rwa [List.append_nil] at whole

theorem puts_pure (a : A) (weaker : ∀ l w, I l w → J l w) : Puts K buf I (pure a) [] a J := by
  intro taken written l w here linked exhausted _
  exact ⟨rfl, weaker l w here, by simpa using linked, exhausted, rfl⟩

theorem puts_bind {x : Io L A} {f : A → Io L B} {first second : List Byte} {a : A} {b : B}
    (head : Puts K buf I x first a J) (tail : Puts K buf J (f a) second b M) :
    Puts K buf I (x >>= f) (first ++ second) b M := by
  intro taken written l w here linked exhausted may
  rw [Comp.ensures_bind]
  apply Comp.ensures_mono (head here linked exhausted fun d within =>
    may d (within.trans (List.prefix_append ..)))
  rintro r k v ⟨rfl, there, linked', exhausted', same⟩
  have later : ∀ d, d <+: second → K.sending v.rcvd (written ++ first ++ d) := by
    intro d within
    rw [same, List.append_assoc]
    exact may (first ++ d) ((List.prefix_append_right_inj first).mpr within)
  rw [Comp.either_ok]
  apply Comp.ensures_mono (tail there linked' exhausted' later)
  rintro r k' v' ⟨rfl, final, linked'', exhausted'', same'⟩
  exact ⟨rfl, final, by simpa using linked'', exhausted'', same'.trans same⟩

/-- A last part that puts nothing. -/
theorem puts_then {x : Io L A} {f : A → Io L B} {bytes : List Byte} {a : A} {b : B}
    (head : Puts K buf I x bytes a J) (tail : Puts K buf J (f a) [] b M) :
    Puts K buf I (x >>= f) bytes b M := by
  have whole := puts_bind head tail
  rwa [List.append_nil] at whole

theorem puts_weaken {x : Io L A} {bytes : List Byte} {a : A} (puts : Puts K buf I x bytes a J)
    (weaker : ∀ l w, J l w → M l w) : Puts K buf I x bytes a M := by
  intro taken written l w here linked exhausted may
  apply Comp.ensures_mono (puts here linked exhausted may)
  rintro r k v ⟨ended, there, rest⟩
  exact ⟨ended, weaker k v there, rest⟩

theorem takes_tryCatch {x : Io L A} {handler : Fault → Io L A} {bytes : List Byte} {a : A}
    (tried : Takes K buf I x bytes a J) : Takes K buf I (tryCatch x handler) bytes a J := by
  intro taken written rest l w here linked input asks
  rw [ensures_tryCatch]
  apply Comp.ensures_mono (tried here linked input asks)
  rintro r k v ⟨rfl, there⟩
  exact ⟨rfl, there⟩

theorem puts_tryCatch {x : Io L A} {handler : Fault → Io L A} {bytes : List Byte} {a : A}
    (tried : Puts K buf I x bytes a J) : Puts K buf I (tryCatch x handler) bytes a J := by
  intro taken written l w here linked exhausted may
  rw [ensures_tryCatch]
  apply Comp.ensures_mono (tried here linked exhausted may)
  rintro r k v ⟨rfl, there⟩
  exact ⟨rfl, there⟩

/-- An exception caught after some output. -/
theorem puts_catch {x : Io L A} {handler : Fault → Io L A} {bytes : List Byte} {f : Fault} {a : A}
    (kind : f.isException)
    (raised : ∀ ⦃taken written l w⦄, I l w → Linked K taken written (buf l) w →
      (buf l).unread = [] → (∀ d, d <+: bytes → K.sending w.rcvd (written ++ d)) →
      Comp.ensures K.env x (fun r k v => r = .error f ∧ J k v ∧
        Linked K taken (written ++ bytes) (buf k) v ∧ (buf k).unread = [] ∧ v.rcvd = w.rcvd) l w)
    (handled : Puts K buf J (handler f) [] a M) :
    Puts K buf I (tryCatch x handler) bytes a M := by
  intro taken written l w here linked exhausted may
  rw [ensures_tryCatch]
  apply Comp.ensures_mono (raised here linked exhausted may)
  rintro r k v ⟨rfl, there, linked', exhausted', same⟩
  simp only [Comp.either_error, kind, if_true]
  have now : ∀ d, d <+: [] → K.sending v.rcvd (written ++ bytes ++ d) := by
    intro d within
    rw [List.prefix_nil.mp within, List.append_nil, same]
    exact may bytes (List.prefix_refl _)
  apply Comp.ensures_mono (handled there linked' exhausted' now)
  rintro r k' v' ⟨rfl, final, linked'', exhausted'', same'⟩
  exact ⟨rfl, final, by simpa using linked'', exhausted'', same'.trans same⟩

/-- The computation leaves the connection alone. -/
def Keeps (K : Contract) (buf : L → SocketBuffer) (I : L → World → Prop) (x : Io L A) (a : A)
    (J : L → World → Prop) : Prop :=
  ∀ ⦃l w⦄, I l w → Comp.ensures K.env x (fun r k v => r = .ok a ∧ J k v ∧ buf k = buf l ∧
    v.rcvd = w.rcvd ∧ v.sent = w.sent) l w

theorem linked_of_same {taken written : List Byte} {b c : SocketBuffer} {w v : World}
    (linked : Linked K taken written b w) (same : c = b) (received : v.rcvd = w.rcvd)
    (sent : v.sent = w.sent) : Linked K taken written c v := by
  subst same
  exact ⟨linked.get, linked.array, linked.put, received ▸ linked.received, sent ▸ linked.produced,
    by rw [received, sent]; exact linked.arrived⟩

theorem takes_of_keeps {x : Io L A} {a : A} (keeps : Keeps K buf I x a J) :
    Takes K buf I x [] a J := by
  intro taken written rest l w here linked _ _
  apply Comp.ensures_mono (keeps here)
  rintro r k v ⟨rfl, there, same, received, sent⟩
  exact ⟨rfl, there, by simpa using linked_of_same linked same received sent⟩

theorem puts_of_keeps {x : Io L A} {a : A} (keeps : Keeps K buf I x a J) :
    Puts K buf I x [] a J := by
  intro taken written l w here linked exhausted _
  apply Comp.ensures_mono (keeps here)
  rintro r k v ⟨rfl, there, same, received, sent⟩
  exact ⟨rfl, there, by simpa using linked_of_same linked same received sent,
    same ▸ exhausted, received⟩

/-- A first part that leaves the connection alone. -/
theorem takes_after {x : Io L A} {f : A → Io L B} {bytes : List Byte} {a : A} {b : B}
    (head : Keeps K buf I x a J) (tail : Takes K buf J (f a) bytes b M) :
    Takes K buf I (x >>= f) bytes b M := takes_bind (takes_of_keeps head) tail

theorem puts_after {x : Io L A} {f : A → Io L B} {bytes : List Byte} {a : A} {b : B}
    (head : Keeps K buf I x a J) (tail : Puts K buf J (f a) bytes b M) :
    Puts K buf I (x >>= f) bytes b M := puts_bind (puts_of_keeps head) tail

theorem keeps_pure (a : A) : Keeps K buf I (pure a) a I :=
  fun _ _ here => ⟨rfl, here, rfl, rfl, rfl⟩

theorem keeps_bind {x : Io L A} {f : A → Io L B} {a : A} {b : B} (head : Keeps K buf I x a J)
    (tail : Keeps K buf J (f a) b M) : Keeps K buf I (x >>= f) b M := by
  intro l w here
  rw [Comp.ensures_bind]
  apply Comp.ensures_mono (head here)
  rintro r k v ⟨rfl, there, same, received, sent⟩
  rw [Comp.either_ok]
  apply Comp.ensures_mono (tail there)
  rintro r k' v' ⟨rfl, final, same', received', sent'⟩
  exact ⟨rfl, final, same'.trans same, received'.trans received, sent'.trans sent⟩

/-- Files and log of the world. -/
def Files (fs : Fs) (log : List Event) (_ : L) (w : World) : Prop := w.fs = fs ∧ w.log = log

variable {fs : Fs} {log : List Event}

/-- A read that comes up short only at the end of the stream gets all that the input holds. -/
theorem got_all {taken written got bytes rest : List Byte} {b : SocketBuffer} {w : World}
    (now : Linked K (taken ++ got) written b w) (input : K.input = taken ++ bytes ++ rest)
    (fits : got.length ≤ bytes.length)
    (short : got.length < bytes.length → b.unread = [] ∧ K.ended w.rcvd) : got = bytes := by
  have received : taken ++ got <+: taken ++ bytes ++ rest := by
    rw [← input]
    refine List.IsPrefix.trans ?_ (K.arrived_prefix now.arrived)
    rw [now.received]
    exact List.prefix_append ..
  rw [List.append_assoc] at received
  have inside := (List.prefix_append_right_inj taken).mp received
  have within : got <+: bytes :=
    List.prefix_of_prefix_length_le inside (List.prefix_append ..) fits
  have full : got.length = bytes.length := by
    by_contra less
    obtain ⟨exhausted, ended⟩ := short (by omega)
    have all := K.ended_input now.arrived ended
    rw [now.received, exhausted, input] at all
    have sizes := congrArg List.length all
    simp only [List.length_append, List.length_nil] at sizes
    omega
  exact within.eq_of_length full

/-- Once the whole input has been taken nothing is unread. -/
theorem unread_of_complete {written : List Byte} {b : SocketBuffer} {w : World}
    (linked : Linked K K.input written b w) : b.unread = [] := by
  have within := (K.arrived_prefix linked.arrived).length_le
  rw [linked.received, List.length_append] at within
  exact List.eq_nil_of_length_eq_zero (by omega)

/-- Reading on is allowed as long as the piece is not complete. -/
theorem asking {taken written bytes rest : List Byte} (input : K.input = taken ++ bytes ++ rest)
    (asks : ∀ d, d <+: bytes → d ≠ bytes → Asks K (taken ++ d) written) :
    ∀ d, d.length < bytes.length → taken ++ d <+: K.input →
      AsksIn K fs log (taken ++ d) written := by
  intro d short within
  rw [input, List.append_assoc] at within
  have inside := (List.prefix_append_right_inj taken).mp within
  refine asks d ?_ (by rintro rfl; omega) fs log
  exact List.prefix_of_prefix_length_le inside (List.prefix_append ..) (by omega)

theorem takes_xsgetn (bytes : List Byte) :
    Takes K id (Files fs log) (xsgetn bytes.length) bytes bytes (Files fs log) := by
  intro taken written rest b w here linked input asks
  apply Comp.ensures_mono (ensures_xsgetn _ linked (asking input asks))
  rintro r c v ⟨quiet, got, rfl, fits, now, short⟩
  obtain rfl := got_all now input fits fun less => short less
  exact ⟨rfl, ⟨quiet.1.trans here.1, quiet.2.trans here.2⟩, now⟩

theorem puts_xsputn (bytes : List Byte) :
    Puts K id (Files fs log) (xsputn bytes) bytes bytes.length (Files fs log) := by
  intro taken written b w here linked exhausted may
  replace linked : Linked K taken written b w := linked
  have order : ¬ b.gptr < b.egptr := (unread_eq_nil_iff linked).mp exhausted
  have get := linked.get
  apply Comp.ensures_mono (ensures_xsputn bytes linked (spares_of_exhausted (by omega) _)
    (fun ready => absurd ready order) may)
  rintro r c v ⟨rfl, now, sameGet, sameEnd, noted⟩
  refine ⟨rfl, ⟨noted.1.trans here.1, (noted.2.2 (by omega)).trans here.2⟩, now, ?_, noted.2.1⟩
  apply (unread_eq_nil_iff now).mpr
  rwa [sameGet, sameEnd]

/-- A machine whose connection works, at a point where the owner has taken and written this much. -/
structure Live (input : List Byte) (buf : L → SocketBuffer) (taken written : List Byte) (l : L)
    (m : Machine) : Prop where
  sound : m.Sound
  whole : m.world.rcvd ++ m.coming = input
  linked : Linked (delivers input) taken written (buf l) m.world

variable {input taken written bytes : List Byte} {l : L} {m : Machine} {x : Io L A} {a : A}

theorem exec_ensures {Q : Except Fault A → L → World → Prop}
    (live : Live input buf taken written l m)
    (meets : Comp.ensures (delivers input).env x Q l m.world) :
    Q (exec x l m).1 (exec x l m).2.1 (exec x l m).2.2.world ∧ (exec x l m).2.2.Sound ∧
      (exec x l m).2.2.world.rcvd ++ (exec x l m).2.2.coming = input := by
  have whole := live.whole
  subst whole
  exact exec_meets live.sound meets

theorem exec_takes (takes : Takes (delivers input) buf I x bytes a J)
    (live : Live input buf taken written l m) (here : I l m.world)
    (within : taken ++ bytes <+: input) :
    (exec x l m).1 = .ok a ∧ J (exec x l m).2.1 (exec x l m).2.2.world ∧
      Live input buf (taken ++ bytes) written (exec x l m).2.1 (exec x l m).2.2 := by
  obtain ⟨rest, split⟩ := within
  have meets := takes here live.linked split.symm fun _ _ _ => delivers_asks _ _ _
  obtain ⟨⟨ended, there, linked⟩, sound, still⟩ := exec_ensures live meets
  exact ⟨ended, there, sound, still, linked⟩

theorem exec_puts (puts : Puts (delivers input) buf I x bytes a J)
    (live : Live input buf taken written l m) (here : I l m.world)
    (exhausted : (buf l).unread = []) :
    (exec x l m).1 = .ok a ∧ J (exec x l m).2.1 (exec x l m).2.2.world ∧
      Live input buf taken (written ++ bytes) (exec x l m).2.1 (exec x l m).2.2 ∧
      (buf (exec x l m).2.1).unread = [] := by
  have meets := puts here live.linked exhausted fun _ _ => trivial
  obtain ⟨⟨ended, there, linked, still, _⟩, sound, same⟩ := exec_ensures live meets
  exact ⟨ended, there, ⟨sound, same, linked⟩, still⟩

/-- Once the whole input has been taken there is nothing left anywhere. -/
theorem live_exhausted (live : Live input buf input written l m) :
    (buf l).unread = [] ∧ m.coming = [] := by
  have all := live.whole
  rw [live.linked.received] at all
  have sizes := congrArg List.length all
  simp only [List.length_append] at sizes
  constructor
  · apply List.eq_nil_of_length_eq_zero
    omega
  · apply List.eq_nil_of_length_eq_zero
    omega

end DropboxStreamRules
