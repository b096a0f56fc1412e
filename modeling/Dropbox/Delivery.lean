import Dropbox.ProtocolRules

/-!
Receive on a connection whose reads and writes may fail at any point. `available`
are the bytes it can still take: what the buffer holds and what comes before the
first read that fails or the end of the stream.
-/
namespace DropboxDelivery
open DropboxFileStore DropboxHost DropboxSocketStream DropboxProtocol DropboxProtocolRules
open Programs Codec

def deliverable : List (Option Segment) → List Byte
  | [] => []
  | none :: _ => []
  | some segment :: rest => segment.bytes ++ deliverable rest

def available (b : SocketBuffer) (m : Machine) : List Byte := b.unread ++ deliverable m.inbox

/-- The next `n` bytes end where a segment ends. -/
def EndsSegment (n : Nat) (b : SocketBuffer) (m : Machine) : Prop :=
  ∃ (whole : List Segment) (rest : List (Option Segment)), m.inbox = whole.map some ++ rest ∧
    n = b.unread.length + (whole.flatMap Segment.bytes).length

/-- The next `n` bytes have been taken. -/
structure Advances (n : Nat) (b c : SocketBuffer) (m k : Machine) : Prop where
  next : available c k = (available b m).drop n
  segment : ∀ j, EndsSegment (j + n) b m → EndsSegment j c k

section buffer
variable {b : SocketBuffer} {m : Machine}

theorem advances_refl (b : SocketBuffer) (m : Machine) : Advances 0 b b m m := ⟨rfl, fun _ => id⟩

theorem advances_trans {i j : Nat} {c d : SocketBuffer} {k l : Machine}
    (first : Advances i b c m k) (second : Advances j c d k l) : Advances (i + j) b d m l where
  next := by rw [second.next, first.next, List.drop_drop]
  segment n ends := second.segment n (first.segment (n + j) (by rwa [Nat.add_assoc, Nat.add_comm j i]))

/-- Only the get area and the reads to come count. -/
theorem advances_of_same {c : SocketBuffer} {k : Machine} (get : c.gptr = b.gptr)
    (finish : c.egptr = b.egptr) (same : c.buffer = b.buffer) (inbox : k.inbox = m.inbox) :
    Advances 0 b c m k := by
  have unread : c.unread = b.unread := by simp only [SocketBuffer.unread, get, finish, same]
  refine ⟨by simp only [available, unread, inbox, List.drop_zero], fun j ends => ?_⟩
  obtain ⟨whole, rest, split, size⟩ := ends
  exact ⟨whole, rest, inbox.trans split, by rw [unread]; exact size⟩

/-- Whatever the OS takes of the output, the input is as it was. -/
theorem sync_answers (b : SocketBuffer) (m : Machine) :
    Comp.ensures (answers host) sync (fun r c n => (∃ sent, r = .ok sent) ∧
      c.gptr = b.gptr ∧ c.egptr = b.egptr ∧ c.buffer = b.buffer ∧ n.inbox = m.inbox ∧
      n.world.fs = m.world.fs) b m := by
  obtain ⟨w, inbox, accepts⟩ := m
  simp only [sync, sendData, osWrite, Comp.ensures_bind, Comp.ensures_get, Comp.either_ok,
    Comp.ensures_call_answers]
  rcases accepts with _ | ⟨_ | n, rest⟩
  · simp [host, Machine.send]
  · simp [host, Machine.send]
  · simp [host, Machine.send]

theorem available_ready (ready : b.gptr < b.egptr) :
    available b m = b.buffer b.gptr :: available { b with gptr := b.gptr + 1 } m := by
  obtain ⟨n, size⟩ : ∃ n, b.egptr - b.gptr = n + 1 := ⟨b.egptr - b.gptr - 1, by omega⟩
  have rest : b.egptr - (b.gptr + 1) = n := by omega
  simp only [available, SocketBuffer.unread, size, rest, window_succ, List.cons_append]

theorem available_exhausted (exhausted : ¬ b.gptr < b.egptr) :
    available b m = deliverable m.inbox := by
  have none : b.egptr - b.gptr = 0 := by omega
  simp [available, SocketBuffer.unread, none]

/-- A read of the OS moves bytes to the get area. -/
theorem available_fill {segment : Segment} {rest : List (Option Segment)}
    (inbox : m.inbox = some segment :: rest) (b : SocketBuffer) :
    available (fill (segment.bytes.take kBufferSize) b) (m.recv kBufferSize).2 =
      segment.bytes ++ deliverable rest := by
  have area : (fill (segment.bytes.take kBufferSize) b).unread = segment.bytes.take kBufferSize :=
    window_fill _ b
  have halves := List.take_append_drop kBufferSize segment.bytes
  rw [available, area, Machine.recv, inbox]
  by_cases tail : segment.bytes.drop kBufferSize = []
  · rw [tail, List.append_nil] at halves
    simp [tail, halves]
  · simp only [tail, dite_false, deliverable]
    rw [← List.append_assoc, halves]

/-- So the end of a segment to come stays where it is. -/
theorem endsSegment_fill {n : Nat} {segment : Segment} {rest : List (Option Segment)}
    (inbox : m.inbox = some segment :: rest) (exhausted : b.unread = []) (c : SocketBuffer)
    (ends : EndsSegment (n + 1) b m) :
    EndsSegment (n + 1) (fill (segment.bytes.take kBufferSize) c) (m.recv kBufferSize).2 := by
  have area : (fill (segment.bytes.take kBufferSize) c).unread = segment.bytes.take kBufferSize :=
    window_fill _ c
  have halves := congrArg List.length (List.take_append_drop kBufferSize segment.bytes)
  rw [List.length_append] at halves
  obtain ⟨whole, later, split, size⟩ := ends
  rw [exhausted, List.length_nil, Nat.zero_add] at size
  cases whole with
  | nil => exact absurd size (Nat.succ_ne_zero n)
  | cons first whole =>
    rw [inbox, List.map_cons, List.cons_append] at split
    obtain ⟨same, rfl⟩ := List.cons.inj split
    obtain rfl := Option.some.inj same
    rw [List.flatMap_cons, List.length_append] at size
    rw [Machine.recv, inbox]
    by_cases tail : segment.bytes.drop kBufferSize = []
    · rw [tail, List.length_nil] at halves
      refine ⟨whole, later, by simp [tail], ?_⟩
      rw [area]
      omega
    · refine ⟨⟨_, tail⟩ :: whole, later, by simp [tail], ?_⟩
      rw [area, List.flatMap_cons, List.length_append]
      show n + 1 = (segment.bytes.take kBufferSize).length +
        ((segment.bytes.drop kBufferSize).length + (whole.flatMap Segment.bytes).length)
      omega

/-- The next character, if there is one; the end of the stream or an error, if not. -/
theorem underflow_answers (b : SocketBuffer) (m : Machine) :
    Comp.ensures (answers host) underflow (fun r c k => k.world.fs = m.world.fs ∧
      (available b m = [] ∧ (r = .ok none ∨ r = .error .system) ∨
        c.gptr < c.egptr ∧ r = .ok (some (c.buffer c.gptr)) ∧ available c k = available b m ∧
          ∀ n, EndsSegment (n + 1) b m → EndsSegment (n + 1) c k)) b m := by
  simp only [underflow, Comp.ensures_bind, Comp.ensures_get, Comp.either_ok]
  by_cases ready : b.gptr < b.egptr
  · rw [if_pos ready]
    exact ⟨rfl, .inr ⟨ready, rfl, rfl, fun _ => id⟩⟩
  · rw [if_neg ready, Comp.ensures_bind]
    refine Comp.ensures_mono (sync_answers b m) ?_
    rintro _ c ⟨w, inbox, accepts⟩ ⟨⟨sent, rfl⟩, get, finish, same, inbox', files⟩
    have exhausted := available_exhausted (m := m) ready
    have none_left : b.unread = [] := by
      have none : b.egptr - b.gptr = 0 := by omega
      simp [SocketBuffer.unread, none]
    obtain rfl : inbox = m.inbox := inbox'
    simp only [Comp.either_ok, Comp.ensures_bind, receiveData, osRead, Comp.ensures_call_answers]
    rw [exhausted]
    rcases coming : m.inbox with _ | ⟨_ | segment, rest⟩
    · exact ⟨files, .inl ⟨rfl, .inl rfl⟩⟩
    · exact ⟨files, .inl ⟨rfl, .inr rfl⟩⟩
    · have big : kBufferSize ≠ 0 := by decide
      have chunk : segment.bytes.take kBufferSize ≠ [] := by
        simp [List.take_eq_nil_iff, big, segment.nonempty]
      obtain ⟨first, more, cut⟩ := List.exists_cons_of_ne_nil chunk
      have filled := available_fill (m := ⟨w, some segment :: rest, accepts⟩) rfl c
      have ends : ∀ n, EndsSegment (n + 1) b m → _ := fun n ends =>
        endsSegment_fill (m := ⟨w, some segment :: rest, accepts⟩) (b := b) (n := n) rfl none_left c
          (by simpa only [EndsSegment, coming] using ends)
      have reply : (host ⟨w, some segment :: rest, accepts⟩ (.recv kBufferSize)).1 =
          some (first :: more) := congrArg some cut
      rw [reply]
      rw [cut] at filled ends
      exact ⟨files, .inr ⟨Nat.succ_pos _, rfl, filled, ends⟩⟩

theorem advances_bump {c : SocketBuffer} {k : Machine} (ready : c.gptr < c.egptr)
    (same : available c k = available b m)
    (ends : ∀ n, EndsSegment (n + 1) b m → EndsSegment (n + 1) c k) :
    Advances 1 b { c with gptr := c.gptr + 1 } m k where
  next := by
    rw [← same, available_ready ready]
    rfl
  segment n reaches := by
    obtain ⟨whole, rest, split, size⟩ := ends n reaches
    refine ⟨whole, rest, split, ?_⟩
    simp only [SocketBuffer.unread, window_length] at size ⊢
    omega

theorem sbumpc_answers (b : SocketBuffer) (m : Machine) :
    Comp.ensures (answers host) sbumpc (fun r c k => k.world.fs = m.world.fs ∧
      (available b m = [] ∧ (r = .ok none ∨ r = .error .system) ∨
        ∃ ch, r = .ok (some ch) ∧ (available b m).head? = some ch ∧ Advances 1 b c m k)) b m := by
  rw [sbumpc, Comp.ensures_bind]
  refine Comp.ensures_mono (underflow_answers b m) ?_
  rintro r c k ⟨files, ⟨empty, rfl | rfl⟩ | ⟨ready, rfl, same, ends⟩⟩
  · exact ⟨files, .inl ⟨empty, .inl rfl⟩⟩
  · exact ⟨files, .inl ⟨empty, .inr rfl⟩⟩
  · refine ⟨files, .inr ⟨_, rfl, ?_, advances_bump ready same ends⟩⟩
    rw [← same, available_ready ready]
    rfl

/-- As many characters as there are; if they are too few, an error may take their place. -/
theorem xsgetn_answers (n : Nat) (b : SocketBuffer) (m : Machine) :
    Comp.ensures (answers host) (xsgetn n) (fun r c k => k.world.fs = m.world.fs ∧
      (n ≤ (available b m).length ∧ r = .ok ((available b m).take n) ∧ Advances n b c m k ∨
        (available b m).length < n ∧ (r = .ok (available b m) ∨ r = .error .system))) b m := by
  induction n generalizing b m with
  | zero => exact ⟨rfl, .inl ⟨Nat.zero_le _, rfl, advances_refl b m⟩⟩
  | succ n ih =>
    rw [xsgetn, Comp.ensures_bind]
    refine Comp.ensures_mono (sbumpc_answers b m) ?_
    rintro r c k ⟨files, ⟨empty, rfl | rfl⟩ | ⟨ch, rfl, first, moved⟩⟩
    · refine ⟨files, .inr ⟨by simp [empty], .inl ?_⟩⟩
      rw [empty]
    · exact ⟨files, .inr ⟨by simp [empty], .inr rfl⟩⟩
    · have next : available b m = ch :: available c k := by
        rw [moved.next, List.drop_one]
        exact List.eq_cons_of_mem_head? first
      simp only [Comp.either_ok, Comp.ensures_bind]
      refine Comp.ensures_mono (ih c k) ?_
      rintro r d l ⟨files', ⟨enough, rfl, rest⟩ | ⟨short, rfl | rfl⟩⟩
      · refine ⟨files'.trans files, .inl ⟨by simp [next, enough], ?_, ?_⟩⟩
        · simp [next]
        · rw [Nat.add_comm]
          exact advances_trans moved rest
      · refine ⟨files'.trans files, .inr ⟨by simp [next, short], .inl ?_⟩⟩
        rw [next]
      · exact ⟨files'.trans files, .inr ⟨by simp [next, short], .inr rfl⟩⟩

/-- An archive needs all of its bytes. -/
theorem loadBinary_answers (n : Nat) (b : SocketBuffer) (m : Machine) :
    Comp.ensures (answers host) (loadBinary n) (fun r c k => k.world.fs = m.world.fs ∧
      (n ≤ (available b m).length ∧ r = .ok ((available b m).take n) ∧ Advances n b c m k ∨
        (available b m).length < n ∧ ∃ f, r = .error f ∧ f.isException)) b m := by
  rw [loadBinary, Comp.ensures_bind]
  refine Comp.ensures_mono (xsgetn_answers n b m) ?_
  rintro r c k ⟨files, ⟨enough, rfl, rest⟩ | ⟨short, rfl | rfl⟩⟩
  · have size : ((available b m).take n).length = n := by
      rw [List.length_take]
      omega
    simp only [Comp.either_ok, size, if_true]
    exact ⟨files, .inl ⟨enough, rfl, rest⟩⟩
  · simp only [Comp.either_ok, if_neg (Nat.ne_of_lt short)]
    exact ⟨files, .inr ⟨short, _, rfl, rfl⟩⟩
  · exact ⟨files, .inr ⟨short, _, rfl, rfl⟩⟩

/-- The size that nine bytes announce: a flag for the byte order, and a word. -/
def announced (header : List Byte) : Int :=
  toInt64 (ofLittle (if header.take 1 != [1] then ((header.drop 1).take 8).reverse
    else (header.drop 1).take 8))

/-- The word that these bytes hold after the flag. -/
def headerWord (header : List Byte) : Nat :=
  ofLittle (if header.take 1 != [1] then ((header.drop 1).take 8).reverse
    else (header.drop 1).take 8)

theorem headerWord_answers (b : SocketBuffer) (m : Machine) :
    Comp.ensures (answers host) (do let swap ← inputArchive; loadWord swap)
      (fun r c k => k.world.fs = m.world.fs ∧
        (9 ≤ (available b m).length ∧ Advances 9 b c m k ∧ r = .ok (headerWord (available b m)) ∨
          (available b m).length < 9 ∧ ∃ f, r = .error f ∧ f.isException)) b m := by
  simp only [inputArchive, loadWord, Comp.ensures_bind]
  refine Comp.ensures_mono (loadBinary_answers 1 b m) ?_
  rintro r c k ⟨files, ⟨some, rfl, moved⟩ | ⟨none, f, rfl, kind⟩⟩
  · simp only [Comp.either_ok, Comp.ensures_pure, Comp.ensures_bind]
    refine Comp.ensures_mono (loadBinary_answers 8 c k) ?_
    rintro r d l ⟨files', ⟨enough, rfl, moved'⟩ | ⟨short, f, rfl, kind⟩⟩
    · rw [moved.next, List.length_drop] at enough
      refine ⟨files'.trans files, .inl ⟨by omega, advances_trans moved moved', ?_⟩⟩
      rw [moved.next]
      rfl
    · rw [moved.next, List.length_drop] at short
      exact ⟨files'.trans files, .inr ⟨by omega, f, rfl, kind⟩⟩
  · exact ⟨files, .inr ⟨by omega, f, rfl, kind⟩⟩

/-- What Receive reads first. -/
theorem header_answers (b : SocketBuffer) (m : Machine) :
    Comp.ensures (answers host) (do let swap ← inputArchive; loadWord swap)
      (fun r c k => k.world.fs = m.world.fs ∧
        (9 ≤ (available b m).length ∧ Advances 9 b c m k ∧
            (∃ bits, r = .ok bits ∧ toInt64 bits = announced (available b m)) ∨
          (available b m).length < 9 ∧ ∃ f, r = .error f ∧ f.isException)) b m := by
  refine Comp.ensures_mono (headerWord_answers b m) ?_
  rintro r c k ⟨files, ⟨enough, moved, rfl⟩ | short⟩
  · exact ⟨files, .inl ⟨enough, moved, _, rfl, rfl⟩⟩
  · exact ⟨files, .inr short⟩

end buffer

section stream
variable {s : SocketStream} {fe : FileExchange} {m : Machine} {p : Path}

/-- All characters that are asked for, from a stream that stays good; or fewer, and no more. -/
theorem read_answers (n : Int) (s : SocketStream) (m : Machine) :
    Comp.ensures (answers host) (read n) (fun r t k => k.world.fs = m.world.fs ∧
      ∃ bytes, r = .ok bytes ∧
        ((s.good ∧ 0 ≤ n ∧ n ≤ (available s.buf m).length) ∧ t.good ∧ (bytes.length : Int) = n ∧
            Advances bytes.length s.buf t.buf m k ∨
          ¬ (s.good ∧ 0 ≤ n ∧ n ≤ (available s.buf m).length) ∧ t.good = false ∧
            (bytes = [] ∨ (bytes.length : Int) < n))) s m := by
  simp only [DropboxSocketStream.read, Comp.ensures_bind, Comp.ensures_get, Comp.either_ok]
  by_cases good : s.good
  · rw [if_pos good, ensures_tryCatch, Comp.ensures_bind, ensures_rdbuf]
    refine Comp.ensures_mono (xsgetn_answers n.toNat s.buf m) ?_
    rintro r c k ⟨files, ⟨enough, rfl, moved⟩ | ⟨short, rfl | rfl⟩⟩
    · have size : ((available s.buf m).take n.toNat).length = n.toNat := by
        rw [List.length_take]
        omega
      rw [← size] at moved
      by_cases asked : 0 ≤ n
      · have whole : (((available s.buf m).take n.toNat).length : Int) = n := by omega
        simp only [Comp.either_ok, if_pos whole, Comp.ensures_pure]
        exact ⟨files, _, rfl, .inl ⟨⟨good, asked, by omega⟩, good, whole, moved⟩⟩
      · have other : (((available s.buf m).take n.toNat).length : Int) ≠ n := by omega
        simp only [Comp.either_ok, if_neg other, Comp.ensures_bind, Comp.ensures_modify,
          Comp.ensures_pure]
        refine ⟨files, _, rfl, .inr ⟨fun all => asked all.2.1, by simp [SocketStream.good], .inl ?_⟩⟩
        exact List.eq_nil_of_length_eq_zero (by omega)
    · have other : ((available s.buf m).length : Int) ≠ n := by omega
      simp only [Comp.either_ok, if_neg other, Comp.ensures_bind, Comp.ensures_modify,
        Comp.ensures_pure]
      exact ⟨files, _, rfl, .inr ⟨by omega, by simp [SocketStream.good], .inr (by omega)⟩⟩
    · simp only [Comp.either_error, Fault.isException, if_true, Comp.ensures_bind,
        Comp.ensures_modify, Comp.either_ok, Comp.ensures_pure]
      exact ⟨files, _, rfl, .inr ⟨by omega, by simp [SocketStream.good], .inl rfl⟩⟩
  · rw [if_neg good]
    simp only [Comp.ensures_bind, Comp.ensures_modify, Comp.either_ok, Comp.ensures_pure]
    exact ⟨trivial, _, rfl, .inr ⟨fun all => good all.1, by simp [SocketStream.good], .inl rfl⟩⟩

/-- The rest of a file can be received: there is none, or it is all there for a good stream. -/
def Complete (fe : FileExchange) (m : Machine) (remaining : Int) : Prop :=
  remaining = 0 ∨ fe.stream.good ∧ 0 < remaining ∧ remaining ≤ (available fe.buf m).length

theorem ensures_onStream {A G : Type} {e : Env Sys Sys.Reply G} {x : Io SocketStream A}
    {Q : Except Fault A → FileExchange → G → Prop} {g : G} :
    Comp.ensures e (onStream x) Q fe g ↔
      Comp.ensures e x (fun r s h => Q r { fe with stream := s } h) fe.stream g := Comp.ensures_zoom

/-- The loop of Receive ends if and only if the rest of the file can be received, and has taken it. -/
theorem receiveLoop_answers (fuel : Nat) (remaining : Int) (fe : FileExchange) (m : Machine) :
    Comp.ensures (answers host) (receiveLoop p fuel remaining) (fun r fe' k =>
      (Complete fe m remaining → remaining < fuel → r = .ok ()) ∧
      (¬ Complete fe m remaining → r = .error .hang) ∧
      (r = .ok () ∧ Advances remaining.toNat fe.buf fe'.buf m k ∨ r = .error .hang)) fe m := by
  induction fuel generalizing remaining fe m with
  | zero =>
    refine ⟨fun complete enough => ?_, fun _ => rfl, .inr rfl⟩
    rcases complete with none | some <;> omega
  | succ fuel ih =>
    rw [receiveLoop]
    by_cases done : remaining = 0
    · rw [if_pos done]
      refine ⟨fun _ _ => rfl, fun more => absurd (.inl done) more, .inl ⟨rfl, ?_⟩⟩
      rw [done]
      exact advances_refl fe.buf m
    · have big : (0 : Int) < kPacketSize := by decide
      rw [if_neg done, Comp.ensures_bind, ensures_onStream]
      refine Comp.ensures_mono (read_answers (min remaining kPacketSize) fe.stream m) ?_
      rintro r t k ⟨_, bytes, rfl, result⟩
      simp only [Comp.either_ok, Comp.ensures_bind, onFiles, Comp.ensures_call_answers]
      refine Comp.ensures_mono (ih (remaining - bytes.length) _ _) ?_
      rintro r fe' l ⟨ends, hangs, either⟩
      rcases result with ⟨⟨good, asked, enough⟩, good', size, moved⟩ | ⟨lacks, failed, few⟩
      · have left : (((available fe.stream.buf m).drop bytes.length).length : Int) =
            (available fe.stream.buf m).length - bytes.length := by
          rw [List.length_drop]
          omega
        have same : Complete { fe with stream := t } (host k (.file (.writeOut p bytes))).2
            (remaining - bytes.length) ↔ Complete fe m remaining := by
          have coming : available t.buf (host k (.file (.writeOut p bytes))).2 =
              available t.buf k := rfl
          simp only [Complete, FileExchange.buf, coming, moved.next, left, good, good', true_and]
          omega
        refine ⟨fun complete more => ends (same.mpr complete) ?_, fun lacks => hangs ?_, ?_⟩
        · rcases complete with none | some <;> omega
        · exact fun complete => lacks (same.mp complete)
        · rcases either with ⟨rfl, moved'⟩ | rfl
          · have whole : remaining.toNat = bytes.length + (remaining - bytes.length).toNat := by
              omega
            refine .inl ⟨rfl, ?_⟩
            rw [whole]
            exact advances_trans moved ⟨moved'.next, moved'.segment⟩
          · exact .inr rfl
      · have never : ¬ Complete fe m remaining := by
          rintro (none | ⟨good, more, all⟩)
          · exact done none
          · exact lacks ⟨good, by omega, by rw [FileExchange.buf] at all; omega⟩
        have stuck : r = .error .hang := by
          refine hangs ?_
          rintro (none | ⟨good, _⟩)
          · rcases few with rfl | few
            · exact done (by simpa using none)
            · omega
          · rw [failed] at good
            cases good
        exact ⟨fun complete => absurd complete never, fun _ => stuck, .inr stuck⟩

/-- The machine with other files. -/
def withFiles (fs : Fs) (m : Machine) : Machine := { m with world := { m.world with fs := fs } }

theorem prepare_answers (p : Path) (fe : FileExchange) (m : Machine) :
    Comp.ensures (answers host) (prepare p) (fun r fe' k => fe' = fe ∧
      (openDestination m.world.fs p = none ∧ r = .error .filesystem ∨
        ∃ opened after, openDestination m.world.fs p = some (opened, after) ∧ r = .ok opened ∧
          k = withFiles after m)) fe m := by
  simp only [prepare, orThrow, onFiles, Comp.ensures_bind, Comp.ensures_call_answers,
    Comp.either_ok, openDestination]
  simp only [host, fileCall]
  cases isRegularFile m.world.fs p with
  | none => exact ⟨rfl, .inl ⟨rfl, rfl⟩⟩
  | some regular =>
    simp only [Comp.ensures_pure, Comp.either_ok]
    cases regular with
    | true =>
      simp only [if_true, Comp.ensures_call_answers]
      exact ⟨trivial, .inr ⟨_, _, rfl, rfl, rfl⟩⟩
    | false =>
      simp only [Bool.false_eq_true, if_false, Comp.ensures_bind, Comp.ensures_call_answers,
        Comp.either_ok, host, fileCall]
      cases removeAll m.world.fs p with
      | none => exact ⟨rfl, .inl ⟨rfl, rfl⟩⟩
      | some cleared =>
        simp only [orSame, Option.map_some, Comp.ensures_pure, Comp.either_ok,
          Comp.ensures_call_answers]
        exact ⟨trivial, .inr ⟨_, _, rfl, rfl, rfl⟩⟩

/-- The content that a header announces can be received: it is empty, or all there for a good
    stream. -/
def Arrives (fe : FileExchange) (m : Machine) : Prop :=
  announced (available fe.buf m) = 0 ∨ fe.stream.good ∧ 0 < announced (available fe.buf m) ∧
    announced (available fe.buf m) + 9 ≤ (available fe.buf m).length

/-- How Receive ends, by what becomes of the destination and by what the stream still brings. -/
inductive Received (fe : FileExchange) (m : Machine) (fuel : Nat) :
    Except Fault Bool → FileExchange → Machine → Prop
  | refused {fe' : FileExchange} {k : Machine}
      (refused : openDestination m.world.fs fe.path = none) :
      Received fe m fuel (.error .terminate) fe' k
  | closed {fe' : FileExchange} {k : Machine}
      (closed : openDestination m.world.fs fe.path = some (false, k.world.fs))
      (stays : Advances 0 fe.buf fe'.buf m k) : Received fe m fuel (.ok false) fe' k
  | headless {fe' : FileExchange} {k : Machine}
      (opens : openDestination m.world.fs fe.path = some (true, k.world.fs))
      (short : (available fe.buf m).length < 9) : Received fe m fuel (.ok false) fe' k
  | whole {fe' : FileExchange} {k : Machine} {opened : Fs}
      (opens : openDestination m.world.fs fe.path = some (true, opened)) (arrives : Arrives fe m)
      (taken : Advances (9 + (announced (available fe.buf m)).toNat) fe.buf fe'.buf m k) :
      Received fe m fuel (.ok true) fe' k
  | hangs {fe' : FileExchange} {k : Machine} {opened : Fs}
      (opens : openDestination m.world.fs fe.path = some (true, opened))
      (header : 9 ≤ (available fe.buf m).length)
      (lacks : Arrives fe m → fuel ≤ announced (available fe.buf m)) :
      Received fe m fuel (.error .hang) fe' k

theorem receive_answers (fuel : Nat) (fe : FileExchange) (m : Machine) :
    Comp.ensures (answers host) (receive fuel) (Received fe m fuel) fe m := by
  simp only [receive, noexcept, ensures_tryCatch, getPath, Comp.ensures_bind, Comp.ensures_get,
    Comp.either_ok, Comp.ensures_pure]
  refine Comp.ensures_mono (prepare_answers fe.path fe m) ?_
  rintro r fe' k ⟨same, result⟩
  rw [same]
  rcases result with ⟨refused, rfl⟩ | ⟨opened, after, dest, rfl, rfl⟩
  · exact .refused refused
  · cases opened with
    | false => exact .closed dest (advances_of_same rfl rfl rfl rfl)
    | true =>
      simp only [Comp.either_ok, if_true, ensures_tryCatch, Comp.ensures_bind, ensures_onRdbuf]
      rw [← Comp.ensures_bind]
      refine Comp.ensures_mono (header_answers fe.buf (withFiles after m)) ?_
      rintro r b k ⟨files, ⟨header, moved, bits, rfl, size⟩ | ⟨short, f, rfl, kind⟩⟩
      · simp only [Comp.either_ok, Comp.ensures_bind]
        refine Comp.ensures_mono (receiveLoop_answers fuel (toInt64 bits) _ k) ?_
        rintro r fe'' l ⟨ends, hangs, either⟩
        have start : Advances 9 fe.buf b m k := ⟨moved.next, moved.segment⟩
        have size' : toInt64 bits = announced (available fe.buf m) := size
        have all : 9 ≤ (available fe.buf m).length := header
        have same : Complete { fe with stream := { fe.stream with buf := b } } k (toInt64 bits) ↔
            Arrives fe m := by
          have left : ((available b k).length : Int) = (available fe.buf m).length - 9 := by
            rw [start.next, List.length_drop]
            omega
          show (toInt64 bits = 0 ∨ fe.stream.good ∧ 0 < toInt64 bits ∧
            toInt64 bits ≤ ((available b k).length : Int)) ↔ _
          rw [left, Arrives, size']
          exact or_congr Iff.rfl (and_congr Iff.rfl (and_congr Iff.rfl (by omega)))
        rw [size'] at ends either
        rcases either with ⟨rfl, moved'⟩ | rfl
        · have arrives : Arrives fe m := by
            by_contra lacks
            exact absurd (hangs fun all => lacks (same.mp all)) (by simp)
          exact .whole dest arrives (advances_trans start moved')
        · refine .hangs dest all fun arrives => ?_
          by_contra enough
          exact absurd (ends (by rw [← size']; exact same.mpr arrives) (by omega)) (by simp)
      · simp only [Comp.either_error, kind, if_true, Comp.ensures_pure, Comp.either_ok]
        have opens : openDestination m.world.fs fe.path = some (true, k.world.fs) := by
          rw [files]
          exact dest
        exact .headless opens short

/-- Receive returns unless its destination is refused with an exception, or it is opened and the
    header announces content that does not arrive. -/
theorem receive_returns (fe : FileExchange) (m : Machine) :
    (∃ fuel b, (exec (receive fuel) fe m).1 = .ok b) ↔
      ∃ opened after, openDestination m.world.fs fe.path = some (opened, after) ∧
        (opened = true → 9 ≤ (available fe.buf m).length → Arrives fe m) := by
  constructor
  · rintro ⟨fuel, b, returns⟩
    have received := Comp.ensures_answers.mp (receive_answers fuel fe m)
    rw [← exec, returns] at received
    cases received with
    | closed closed stays => exact ⟨_, _, closed, nofun⟩
    | headless opens short => exact ⟨_, _, opens, fun _ header => by omega⟩
    | whole opens arrives taken => exact ⟨_, _, opens, fun _ _ => arrives⟩
  · rintro ⟨opened, after, dest, all⟩
    have received := Comp.ensures_answers.mp
      (receive_answers ((announced (available fe.buf m)).toNat + 1) fe m)
    rw [← exec] at received
    refine ⟨(announced (available fe.buf m)).toNat + 1, ?_⟩
    generalize (exec (receive ((announced (available fe.buf m)).toNat + 1)) fe m).1 = r
      at received ⊢
    cases received with
    | refused refused =>
      rw [refused] at dest
      cases dest
    | closed closed stays => exact ⟨_, rfl⟩
    | headless opens short => exact ⟨_, rfl⟩
    | whole opens arrives taken => exact ⟨_, rfl⟩
    | hangs opens header lacks =>
      rw [opens] at dest
      obtain rfl := (Prod.mk.inj (Option.some.inj dest)).1
      exact absurd (lacks (all rfl header)) (by omega)

/-- A Receive that returns false has not come to the content: either it could not open the
    destination, or it has made it an empty file and the stream ended before the size. -/
theorem failed_receive_store {fe : FileExchange} {m : Machine} {fuel : Nat}
    (failed : (exec (receive fuel) fe m).1 = .ok false) :
    ∃ opened, (openDestination m.world.fs fe.path).map Prod.fst = some opened ∧
      (opened = true → (available fe.buf m).length < 9) ∧
      ∀ k, (exec (receive fuel) fe m).2.2.world.fs.entry k =
        if opened = true ∧ k = key fe.path then some (.file [])
        else afterClearing m.world.fs fe.path k := by
  have received := Comp.ensures_answers.mp (receive_answers fuel fe m)
  rw [← exec, failed] at received
  generalize (exec (receive fuel) fe m).2.2 = k at received ⊢
  cases received with
  | closed closed stays =>
    refine ⟨false, by rw [closed]; rfl, nofun, fun q => ?_⟩
    rw [if_neg (by simp)]
    exact openDestination_closed closed q
  | headless opens short =>
    obtain ⟨_, cleared, same⟩ := openDestination_opened opens
    have entries := openDestination_put [] opens
    have again : k.world.fs.put (key fe.path) (.file []) = k.world.fs := by rw [same, put_put]
    refine ⟨true, by rw [opens]; rfl, fun _ => short, fun q => ?_⟩
    rw [again] at entries
    rw [entries q]
    simp

/-- "a", with a byte in it. -/
def oneFile : Fs := Fs.empty.put (key [97]) (.file [9])

/-- Nothing comes before the stream ends. -/
def silent : Machine := ⟨⟨oneFile, [], [], []⟩, [], []⟩

theorem failed_receive_store_silent :
    ∃ opened, (openDestination oneFile [97]).map Prod.fst = some opened ∧
      (opened = true → (available (FileExchange.fresh (fun _ => 0) [97]).buf silent).length < 9) ∧
      ∀ k, (exec (receive 1) (.fresh (fun _ => 0) [97]) silent).2.2.world.fs.entry k =
        if opened = true ∧ k = key [97] then some (.file []) else afterClearing oneFile [97] k := by
  have failed : (exec (receive 1) (.fresh (fun _ => 0) [97]) silent).1 = .ok false := by
    decide +kernel
  exact failed_receive_store failed

/-- The old content is gone before the header has come. -/
theorem silent_receive_empties :
    (exec (receive 1) (.fresh (fun _ => 0) [97]) silent).1 = .ok false ∧
      oneFile.entry (key [97]) = some (.file [9]) ∧
      (exec (receive 1) (.fresh (fun _ => 0) [97]) silent).2.2.world.fs.entry (key [97]) =
        some (.file []) := by
  decide +kernel

end stream

end DropboxDelivery
