import Dropbox.Orders
import Dropbox.TurnRules

/-!
The handler of a session: MainLoop takes a request, which may have further ones behind
it, and answers it. It writes only where nothing is left unread.
-/
namespace DropboxServingHandler
open DropboxFileStore DropboxHost DropboxSocketStream DropboxStreamRules DropboxProtocol
open DropboxProtocolRules DropboxTurnRules DropboxDialogue DropboxOrders DropboxClientHandler
open Programs
variable {K : Contract} {fs client after : Fs} {log told : List Event} {fuel : Nat}
variable {user text table content : List Byte} {p q : Path}

theorem answers_upload (stores : storeFile fs text content = some after) (named : text.length < 2 ^ 63)
    (fits : content.length < 2 ^ 63) (enough : content.length < fuel)
    (logs : K.logging log (.broadcastUpload text)) :
    Answers K FileExchange.buf (At p fs log) (serve fuel user (some .kUpload))
      (encodeString text ++ encodeFile content) [] (· = true)
      (At text after (log ++ [.broadcastUpload text])) := by
  refine answers_discard ?_ rfl
  refine answers_takes (takes_receivePath named) ?_
  rw [if_pos rfl, ← List.append_nil (encodeFile content)]
  refine answers_takes (takes_receive stores fits enough) ?_
  rw [if_pos rfl]
  exact answers_after keeps_getPath (answers_broadcast logs)

theorem answers_delete {discarded : Fs × List Event} (discards : discard fs text = some discarded)
    (named : text.length < 2 ^ 63) (logs : ∀ e, discarded.2 = [e] → K.logging log e) :
    Answers K FileExchange.buf (At p fs log) (serve fuel user (some .kDelete)) (encodeString text) []
      (· = true) (At text discarded.1 (log ++ discarded.2)) := by
  obtain ⟨present, asked, rest⟩ := Option.bind_eq_some_iff.mp discards
  have asks : Keeps K FileExchange.buf (At text fs log) (orThrow (onFiles (.pathExists text))) present
      (At text fs log) := keeps_orThrow (keeps_onFiles (by simp [fileCall, asked]))
  refine answers_discard ?_ rfl
  rw [← List.append_nil (encodeString text)]
  refine answers_takes (takes_receivePath named) ?_
  rw [if_pos rfl]
  refine answers_after keeps_getPath ?_
  refine answers_after asks ?_
  cases present with
  | false =>
    obtain rfl := Option.some.inj rest
    rw [List.append_nil]
    exact answers_of_keeps (keeps_pure false) trivial
  | true =>
    obtain ⟨⟨removed, left⟩, removing, rfl⟩ := Option.map_eq_some_iff.mp rest
    have removes : Keeps K FileExchange.buf (At text fs log) (orThrow (onFiles (.remove text))) removed
        (At text left log) := keeps_orThrow (keeps_onFiles (by simp [fileCall, removing, orSame]))
    exact answers_after removes (answers_broadcast (logs _ rfl))

theorem answers_download {fetched : List Byte × Fs × Bool}
    (fetches : fetch fuel client fs p text = some fetched) (named : text.length < 2 ^ 63) :
    Answers K FileExchange.buf (At q fs log) (serve fuel user (some .kDownload)) (encodeString text)
      fetched.1 (· = true) (At text fs log) := by
  obtain ⟨present, asked, rest⟩ := Option.bind_eq_some_iff.mp fetches
  have asks : Keeps K FileExchange.buf (At text fs log) (orThrow (onFiles (.pathExists text))) present
      (At text fs log) := keeps_orThrow (keeps_onFiles (by simp [fileCall, asked]))
  refine answers_discard ?_ rfl
  rw [← List.append_nil (encodeString text)]
  refine answers_takes (takes_receivePath named) ?_
  rw [if_pos rfl]
  refine answers_after keeps_getPath ?_
  refine answers_after asks ?_
  cases present with
  | false =>
    obtain rfl := Option.some.inj rest
    have puts : Puts K FileExchange.buf (At text fs log) (do sendCommand .kError; pure false)
        (encodeCommand .kError) false (At text fs log) :=
      puts_then (puts_sendCommand .kError) (puts_pure false fun _ _ => id)
    exact answers_of_puts (by simp [encodeCommand]) puts trivial
  | true =>
    simp only [if_true, Option.bind_eq_some_iff, Option.ite_none_right_eq_some,
      Option.map_eq_some_iff] at rest
    obtain ⟨content, holds, enough, stored, _, rfl⟩ := rest
    have puts : Puts K FileExchange.buf (At text fs log) (do sendCommand .kSuccess; send fuel)
        (encodeCommand .kSuccess ++ encodeFile content) true (At text fs log) :=
      puts_bind (puts_sendCommand .kSuccess) (puts_send holds enough)
    exact answers_of_puts (by simp [encodeCommand]) puts trivial

theorem answers_list (lists : directoryTable fs (syncDirWithPrefix user) = some table) :
    Answers K FileExchange.buf (At p fs log) (serve fuel user (some .kListServer)) []
      (encodeString table) (· = true) (At p fs log) := by
  have listing : Keeps K FileExchange.buf (At p fs log)
      (orThrow (onFiles (.directoryTable (syncDirWithPrefix user)))) table (At p fs log) :=
    keeps_orThrow (keeps_onFiles (by simp [fileCall, lists]))
  have saves : Puts K id (Files fs log) (do outputArchive; saveString table) (encodeString table) ()
      (Files fs log) := puts_bind (puts_saveBinary [1]) (puts_saveString table)
  refine answers_discard ?_ rfl
  refine answers_of_puts (by simp [encodeString]) (b := true) ?_ trivial
  refine puts_tryCatch ?_
  refine puts_after listing ?_
  refine puts_tryCatch ?_
  exact puts_then (puts_onRdbuf saves) (puts_pure true fun _ _ => id)

section session
variable {es done : List Exchange} {e : Exchange} {finished : Fs → List Event → Prop}
variable {fe : FileExchange} {w : World} {t : Turn} {s : Script} {o : Order}

/-- What the handler does with a command after it has printed it. -/
theorem answers_order (planned : o.turn fuel user client fs = some t) (asked : t.exchange = some e) :
    ∃ body events, e.request = encodeCommand o.command ++ body ∧
      t.served = .ordered (some o.command) :: events ∧ ∀ log, log ++ events <+: told → ∀ p, ∃ q,
        Answers (serverContract es finished told) FileExchange.buf (At p fs log)
          (serve fuel user (some o.command)) body e.reply (· = decide (o ≠ .exit))
          (At q t.server (log ++ events)) := by
  cases o with
  | upload p =>
    simp only [Order.turn, uploadTurn, Option.ite_none_right_eq_some, Option.bind_eq_some_iff,
      Option.map_eq_some_iff] at planned
    obtain ⟨⟨_, _, named⟩, content, holds, enough, stored, stores, rfl⟩ := planned
    obtain rfl := Option.some.inj asked
    exact ⟨_, _, rfl, rfl, fun log tells _ =>
      ⟨_, answers_upload stores named (readable_eq_some holds).2.2.2 enough tells⟩⟩
  | delete p =>
    simp only [Order.turn, deleteTurn] at planned
    split at planned
    · obtain rfl := Option.some.inj planned
      cases asked
    · simp only [Option.ite_none_right_eq_some, Option.map_eq_some_iff] at planned
      obtain ⟨named, discarded, discards, rfl⟩ := planned
      obtain rfl := Option.some.inj asked
      refine ⟨_, _, rfl, rfl, fun log tells _ => ⟨_, answers_delete discards named fun e only => ?_⟩⟩
      rw [only] at tells
      exact tells
  | download p =>
    simp only [Order.turn, downloadTurn] at planned
    split at planned
    · obtain rfl := Option.some.inj planned
      cases asked
    · simp only [Option.ite_none_right_eq_some, Option.map_eq_some_iff] at planned
      obtain ⟨named, fetched, fetches, rfl⟩ := planned
      obtain rfl := Option.some.inj asked
      refine ⟨_, [], rfl, rfl, fun log _ _ => ⟨genericString (destination user p), ?_⟩⟩
      rw [List.append_nil]
      exact answers_download fetches named
  | listServer =>
    simp only [Order.turn, listTurn, Option.bind_eq_some_iff, Option.ite_none_right_eq_some] at planned
    obtain ⟨table, lists, fits, same⟩ := planned
    obtain rfl := Option.some.inj same
    obtain rfl := Option.some.inj asked
    refine ⟨_, [], rfl, rfl, fun log _ p => ⟨p, ?_⟩⟩
    rw [List.append_nil]
    exact answers_list lists
  | exit =>
    obtain rfl := Option.some.inj planned
    obtain rfl := Option.some.inj asked
    refine ⟨_, [], rfl, rfl, fun log _ p => ⟨p, ?_⟩⟩
    rw [List.append_nil]
    exact answers_of_keeps (keeps_pure false) rfl

/-- Between two requests. -/
structure Between (es : List Exchange) (finished : Fs → List Event → Prop) (told : List Event)
    (done : List Exchange) (fs : Fs) (log : List Event) (fe : FileExchange) (w : World) : Prop where
  here : Somewhere fs log fe w
  linked : Linked (serverContract es finished told) (requests done) (replies done) fe.buf w
  sent : w.sent = replies done

/-- After the last request nothing more comes. -/
theorem ensures_waits {Q : Except Fault (Except ErrorCode (Option Command)) → FileExchange → World →
      Prop}
    (linked : Linked (serverContract es finished told) (requests es) (replies es) fe.buf w)
    (final : finished w.fs w.log) :
    Comp.ensures (serverContract es finished told).env receiveCommand Q fe w := by
  have asks : ∀ d, d.length < 1 → requests es ++ d <+: requests es →
      AsksIn (serverContract es finished told) w.fs w.log (requests es ++ d) (replies es) := by
    intro d short _
    rw [List.eq_nil_of_length_eq_zero (Nat.lt_one_iff.mp short), List.append_nil]
    exact server_rests final
  rw [receiveCommand, ensures_tryCatch, Comp.ensures_bind, ensures_onRdbuf, Comp.ensures_bind,
    inputArchive, Comp.ensures_bind, loadBinary, Comp.ensures_bind]
  apply Comp.ensures_mono (ensures_xsgetn 1 linked asks)
  rintro r b v ⟨_, bytes, _, _, now, short⟩
  exfalso
  by_cases empty : bytes = []
  · subst empty
    exact (short Nat.zero_lt_one).2
  · have arrived : Requested es v.rcvd v.sent := now.arrived
    have most := arrived.1.length_le
    have some_bytes := List.length_pos_iff.mpr empty
    rw [now.received, List.length_append, List.length_append] at most
    omega

/-- A command without an exchange is not noticed by the handler. -/
theorem silent_order (planned : o.turn fuel user client fs = some t) (silent : t.exchange = none) :
    t.server = fs ∧ t.served = [] := by
  rcases turn_cases planned with ⟨_, rfl⟩ | ⟨_, ⟨e, exchanged⟩, _⟩
  · exact ⟨rfl, rfl⟩
  · rw [exchanged] at silent
    cases silent

/-- The flush at the end of a turn. -/
theorem ensures_flushed {B : Type} {next : Io FileExchange B}
    {Q : Except Fault B → FileExchange → World → Prop} (within : done <+: es)
    (onward : ∀ k v, Between es finished told done fs log k v →
      Comp.ensures (serverContract es finished told).env next Q k v) :
    ∀ fe w, At p fs log fe w →
      Linked (serverContract es finished told) (requests done) (replies done) fe.buf w →
      Comp.ensures (serverContract es finished told).env (do flushExchange; next) Q fe w := by
  intro fe w here linked
  have all : Replied es (replies done) w.rcvd := by
    rw [linked.received]
    exact replied_more (replied_all within) _
  rw [Comp.ensures_bind]
  refine Comp.ensures_mono (ensures_flushExchange here linked all) ?_
  rintro r k v ⟨rfl, there, now, _, rfl⟩
  exact onward k _ ⟨⟨p, there⟩, now, rfl⟩

attribute [local irreducible] Comp.ensures

/-- A turn of MainLoop with one request. -/
theorem ensures_turn {turns attempts : Nat} {Q : Except Fault Unit → FileExchange → World → Prop}
    (planned : o.turn fuel user client fs = some t) (asked : t.exchange = some e)
    (within : done ++ [e] <+: es) (tells : log ++ t.served <+: told)
    (onward : ∀ k v, Between es finished told (done ++ [e]) t.server (log ++ t.served) k v →
      Comp.ensures (serverContract es finished told).env
        (if decide (o ≠ .exit) then mainLoop fuel user turns kAttemptAmount else pure ()) Q k v) :
    ∀ fe w, Between es finished told done fs log fe w →
      Comp.ensures (serverContract es finished told).env (mainLoop fuel user (turns + 1) attempts) Q
        fe w := by
  obtain ⟨body, events, request, served, answering⟩ := answers_order planned asked
  have logged : log ++ t.served = log ++ [.ordered (some o.command)] ++ events := by
    rw [served, List.append_cons]
  rw [logged] at tells onward
  choose path answers using answering _ tells
  have asks : ∀ d, d <+: e.request → d ≠ e.request →
      Asks (serverContract es finished told) (requests done ++ d) (replies done) :=
    fun d some_of proper => server_asks within some_of proper
  have alone : e.reply ≠ [] → ∀ b v, Linked (serverContract es finished told)
      (requests done ++ e.request) (replies done) b v → b.unread = [] :=
    fun replying b v now => server_exhausted within replying now
  have may : ∀ d, d <+: e.reply → Replied es (replies done ++ d) (requests done ++ e.request) :=
    fun d some_of => replied_next within some_of
  obtain ⟨rest, input⟩ := prefix_requests within
  rw [requests_append, requests_single, request] at input
  rw [request] at asks
  have first : requests es = requests done ++ encodeCommand o.command ++ (body ++ rest) := by
    simpa using input.symm
  have later : ∀ d, d <+: body → d ≠ body →
      Asks (serverContract es finished told) (requests done ++ encodeCommand o.command ++ d)
        (replies done) := by
    intro d some_of proper
    rw [List.append_assoc]
    exact proper_right asks d some_of proper
  have whole : requests done ++ encodeCommand o.command ++ body = requests done ++ e.request := by
    rw [request, List.append_assoc]
  have second : requests es = requests done ++ encodeCommand o.command ++ body ++ rest := by
    simpa using input.symm
  rw [← whole] at alone may
  intro fe w between
  obtain ⟨⟨p, here⟩, linked, _⟩ := between
  rw [mainLoop, Comp.ensures_bind]
  refine Comp.ensures_mono (takes_receiveCommand o.command here linked first (proper_left asks)) ?_
  rintro r k v ⟨rfl, there, now⟩
  rw [Comp.either_ok, Comp.ensures_bind]
  refine Comp.ensures_mono (keeps_note ((List.prefix_append ..).trans tells) there) ?_
  rintro r k' v' ⟨rfl, printed, same, received, sent⟩
  rw [Comp.either_ok, Comp.ensures_bind]
  refine Comp.ensures_mono (answers p printed (linked_of_same now same received sent) second later
    alone may) ?_
  rintro r l u ⟨⟨receiving, rfl, rfl⟩, answered, replied⟩
  refine ensures_flushed within onward l u answered ?_
  rw [requests_append, replies_append, requests_single, replies_single, ← whole]
  exact replied

/-- MainLoop carries out the commands up to an exit; without an exit it then waits for more. -/
theorem ensures_mainLoop (orders : List Order) {turns attempts : Nat}
    (planned : script fuel user client fs orders = some s)
    (whole : done ++ s.exchanges = es) (all : log ++ s.served = told)
    (final : s.ended = false → finished s.server told) (room : s.exchanges.length < turns) :
    ∀ fe w, Between es finished told done fs log fe w →
      Comp.ensures (serverContract es finished told).env (mainLoop fuel user turns attempts)
        (fun r k v => r = .ok () ∧ s.ended = true ∧ Between es finished told es s.server told k v)
        fe w := by
  induction orders generalizing client fs s done log turns attempts with
  | nil =>
    obtain rfl := Option.some.inj planned
    obtain rfl : done = es := by simpa using whole
    obtain rfl : log = told := by simpa using all
    obtain ⟨turns, rfl⟩ := Nat.exists_eq_add_one_of_ne_zero (Nat.ne_of_gt room)
    intro fe w between
    obtain ⟨⟨p, here⟩, linked, _⟩ := between
    rw [mainLoop, Comp.ensures_bind]
    refine ensures_waits linked ?_
    rw [here.2.2.1, here.2.2.2]
    exact final rfl
  | cons o rest ih =>
    obtain ⟨t, turned, onward⟩ := Option.bind_eq_some_iff.mp planned
    obtain ⟨turns, rfl⟩ := Nat.exists_eq_add_one_of_ne_zero (Nat.ne_zero_of_lt room)
    by_cases last : o = .exit
    · obtain rfl := Option.some.inj ((if_pos last).symm.trans onward)
      subst last
      obtain rfl := Option.some.inj turned
      simp only [Turn.followedBy, exitTurn, Option.toList_some, List.append_nil] at whole all ⊢
      refine ensures_turn turned rfl (by rw [whole]) (by rw [exitTurn, all]) fun k v now => ?_
      rw [if_neg (by simp)]
      rw [exitTurn, whole, all] at now
      exact Comp.ensures_pure.mpr ⟨rfl, trivial, now⟩
    · obtain ⟨s', onwards, rfl⟩ := Option.map_eq_some_iff.mp ((if_neg last).symm.trans onward)
      simp only [Turn.followedBy, ← List.append_assoc] at whole all final room ⊢
      cases asked : t.exchange with
      | none =>
        obtain ⟨files, quiet⟩ := silent_order turned asked
        rw [asked, Option.toList_none, List.append_nil] at whole
        rw [quiet, List.append_nil] at all
        rw [files] at onwards
        exact ih onwards whole all final (by simpa [asked] using room)
      | some e =>
        rw [asked, Option.toList_some] at whole room
        rw [List.length_append, List.length_singleton] at room
        have fewer : s'.exchanges.length < turns := by omega
        refine ensures_turn turned asked ⟨_, whole⟩ ⟨_, all⟩ fun k v now => ?_
        rw [if_pos (by simpa using last)]
        exact ih onwards whole all final fewer k v now

end session

end DropboxServingHandler
