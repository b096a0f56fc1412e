import Dropbox.Orders
import Dropbox.TurnRules

/-!
The client of a session: HandleCommand puts the request of a command, obtains the reply
to it, and has sent all it has written when it returns.
-/
namespace DropboxOrderingClient
open DropboxFileStore DropboxHost DropboxSocketStream DropboxStreamRules DropboxProtocol
open DropboxProtocolRules DropboxTurnRules DropboxDialogue DropboxOrders Programs
variable {K : Contract} {fs server after : Fs} {log told : List Event} {fuel : Nat}
variable {user : List Byte} {p q dest : Path} {content : List Byte}

/-- What Download does after Flush. -/
def awaitFile (fuel : Nat) (fileName : Path) : Io FileExchange Bool := do
  match ← receiveCommand with
  | .error _ => pure false
  | .ok received =>
    if received = some .kError then pure false
    else
      setPath fileName
      receive fuel

section operations

theorem keeps_copyFile (p q : Path) :
    Keeps K FileExchange.buf (At p fs log)
      (tryCatch (do orThrow (onFiles (.copyFile p q)); pure true) fun _ => pure false)
      (copyFile fs p q).isSome (At p ((copyFile fs p q).getD fs) log) := by
  have answered : Keeps K FileExchange.buf (At p fs log) (onFiles (.copyFile p q))
      ((copyFile fs p q).map fun _ => ()) (At p ((copyFile fs p q).getD fs) log) :=
    keeps_onFiles (by cases copied : copyFile fs p q <;> simp [fileCall, copied, orSame])
  have tried := keeps_attempt answered
  rwa [Option.isSome_map] at tried

theorem keeps_remove :
    Keeps K FileExchange.buf (At p fs log)
      (tryCatch (do
        let path ← getPath
        let _ ← orThrow (onFiles (.remove path))
        pure true) fun _ => pure false)
      (remove fs p).isSome (At p (((remove fs p).map Prod.snd).getD fs) log) := by
  have answered : Keeps K FileExchange.buf (At p fs log) (onFiles (.remove p))
      ((remove fs p).map Prod.fst) (At p (((remove fs p).map Prod.snd).getD fs) log) :=
    keeps_onFiles (by cases removing : remove fs p <;> simp [fileCall, removing, orSame])
  have tried := keeps_attempt answered
  rw [Option.isSome_map] at tried
  exact keeps_try keeps_getPath tried

theorem puts_upload (holds : readable fs p = some content) (enough : content.length < fuel)
    (dest : Path) (same : dest = destination user (filename p)) :
    Puts K FileExchange.buf (At q fs log) (DropboxClient.upload fuel user p)
      (encodeCommand .kUpload ++ (encodePath dest ++ encodeFile content))
      (copyFile fs p dest).isSome (At p ((copyFile fs p dest).getD fs) log) := by
  subst same
  refine puts_bind (puts_sendCommand .kUpload) ?_
  refine puts_after (keeps_setPath _) ?_
  refine puts_bind puts_sendPath ?_
  rw [if_pos rfl]
  refine puts_after (keeps_setPath p) ?_
  refine puts_then (puts_send holds enough) ?_
  rw [if_pos rfl]
  exact puts_of_keeps (keeps_copyFile p _)

theorem puts_delete (p : Path) (same : dest = destination user (filename p)) :
    Puts K FileExchange.buf (At q fs log) (DropboxClient.delete user p)
      (encodeCommand .kDelete ++ encodePath dest) (remove fs dest).isSome
      (At dest (((remove fs dest).map Prod.snd).getD fs) log) := by
  subst same
  refine puts_bind (puts_sendCommand .kDelete) ?_
  refine puts_after (keeps_setPath _) ?_
  refine puts_then puts_sendPath ?_
  rw [if_pos rfl]
  exact puts_of_keeps keeps_remove

/-- The request of a download and the answer to it. -/
theorem obtains_download {reply : List Byte} {success : Bool} {r : Path} (p : Path)
    (same : dest = destination user p)
    (answered : Takes K FileExchange.buf (At dest fs log) (awaitFile fuel p) reply success
      (At q after log)) :
    Obtains K FileExchange.buf (At r fs log) (DropboxClient.download fuel user p)
      (encodeCommand .kDownload ++ encodePath dest) reply success (At q after log) := by
  subst same
  have asked : Obtains K FileExchange.buf (At (destination user p) fs log)
      (do flushExchange; awaitFile fuel p) [] reply success (At q after log) :=
    obtains_puts puts_flushExchange (obtains_of_takes answered)
  refine obtains_puts (puts_sendCommand .kDownload) ?_
  refine obtains_after (keeps_setPath _) ?_
  rw [← List.append_nil (encodePath _)]
  refine obtains_puts puts_sendPath ?_
  rw [if_pos rfl]
  exact asked

theorem takes_found {stored : Fs} (p : Path) (stores : storeFile fs p content = some stored)
    (fits : content.length < 2 ^ 63) (enough : content.length < fuel) :
    Takes K FileExchange.buf (At q fs log) (awaitFile fuel p)
      (encodeCommand .kSuccess ++ encodeFile content) true (At p stored log) := by
  refine takes_bind (takes_receiveCommand .kSuccess) ?_
  simp only [Option.some.injEq, reduceCtorEq, if_false]
  exact takes_after (keeps_setPath p) (takes_receive stores fits enough)

theorem takes_absent (p : Path) :
    Takes K FileExchange.buf (At q fs log) (awaitFile fuel p) (encodeCommand .kError) false
      (At q fs log) := by
  refine takes_then (takes_receiveCommand .kError) ?_
  exact takes_pure false fun _ _ => id

theorem obtains_listServer {table : List Byte} (fits : table.length < 2 ^ 63)
    (logs : K.logging log (.printed table)) :
    Obtains K FileExchange.buf (At p fs log) DropboxClient.listServer (encodeCommand .kListServer)
      (encodeString table) true (At p fs (log ++ [.printed table])) := by
  have loads : Takes K id (Files fs log) (do let swap ← inputArchive; loadString swap)
      (encodeString table) table (Files fs log) :=
    takes_bind takes_inputArchive (takes_loadString fits)
  rw [← List.append_nil (encodeCommand _)]
  refine obtains_puts (puts_sendCommand .kListServer) ?_
  refine obtains_of_takes ?_
  refine takes_tryCatch ?_
  refine takes_then (takes_onRdbuf loads) ?_
  exact takes_of_keeps (keeps_bind (keeps_note logs) (keeps_pure true))

theorem puts_exit (logs : K.logging log .clientSyncExit) :
    Puts K FileExchange.buf (At p fs log) DropboxClient.exit (encodeCommand .kExit) ()
      (At p fs (log ++ [.clientSyncExit])) :=
  puts_after (keeps_note logs) (puts_sendCommand .kExit)

end operations

section session
variable {es done : List Exchange} {e : Exchange} {later : List Event} {fe : FileExchange} {w : World}
variable {A B : Type} {a : A}

/-- Between two commands. -/
structure Between (es : List Exchange) (told : List Event) (done : List Exchange) (p : Path) (fs : Fs)
    (log : List Event) (fe : FileExchange) (w : World) : Prop where
  here : At p fs log fe w
  linked : Linked (clientContract es told) (replies done) (requests done) fe.buf w
  sent : w.sent = requests done

/-- What leaves the connection alone at the beginning of a command. -/
theorem ensures_after {x : Io FileExchange A} {f : A → Io FileExchange B}
    {Q : Except Fault B → FileExchange → World → Prop}
    (head : Keeps (clientContract es told) FileExchange.buf (At p fs log) x a (At q after later))
    (between : Between es told done p fs log fe w)
    (tail : ∀ k v, Between es told done q after later k v →
      Comp.ensures (clientContract es told).env (f a) Q k v) :
    Comp.ensures (clientContract es told).env (x >>= f) Q fe w := by
  rw [Comp.ensures_bind]
  apply Comp.ensures_mono (head between.here)
  rintro r k v ⟨rfl, there, same, received, sent⟩
  exact tail k v ⟨there, linked_of_same between.linked same received sent, sent.trans between.sent⟩

/-- The flush at the end of HandleCommand. -/
theorem ensures_finish (reading : Bool) (within : done <+: es) (here : At p fs log fe w)
    (linked : Linked (clientContract es told) (replies done) (requests done) fe.buf w) :
    Comp.ensures (clientContract es told).env (do
      let reading ← pure reading
      flushExchange
      pure reading) (fun r k v => r = .ok reading ∧ Between es told done p fs log k v) fe w := by
  have may : Requested es (requests done) w.rcvd := by
    rw [linked.received]
    exact requested_more (requested_all within) _
  rw [Comp.ensures_bind, Comp.ensures_pure, Comp.either_ok, Comp.ensures_bind]
  apply Comp.ensures_mono (ensures_flushExchange here linked may)
  rintro r k v ⟨rfl, there, linked', _, rfl⟩
  exact ⟨rfl, there, linked', rfl⟩

/-- A request, the reply to it and the flush. -/
theorem ensures_exchange {x : Io FileExchange A} (reading : Bool)
    (obtains : Obtains (clientContract es told) FileExchange.buf (At p fs log) x e.request e.reply a
      (At q after later))
    (within : done ++ [e] <+: es) (between : Between es told done p fs log fe w) :
    Comp.ensures (clientContract es told).env (do
      let _ ← x
      let reading ← pure reading
      flushExchange
      pure reading) (fun r k v => r = .ok reading ∧
        Between es told (done ++ [e]) q after later k v) fe w := by
  obtain ⟨here, linked, _⟩ := between
  have before : done <+: es := (List.prefix_append done [e]).trans within
  have exhausted := client_exhausted before linked
  have whole : w.rcvd = replies done := by simpa [exhausted] using linked.received
  obtain ⟨rest, input⟩ := prefix_replies within
  rw [replies_append, replies_single] at input
  have may : ∀ d, d <+: e.request → Requested es (requests done ++ d) w.rcvd := by
    rw [whole]
    exact fun d some_of => requested_next within some_of
  rw [Comp.ensures_bind]
  apply Comp.ensures_mono (obtains here linked exhausted input.symm may
    fun d some_of proper => client_asks within some_of proper)
  rintro r k v ⟨rfl, there, linked'⟩
  have now : Linked (clientContract es told) (replies (done ++ [e])) (requests (done ++ [e])) k.buf
      v := by
    rw [replies_append, replies_single, requests_append, requests_single]
    exact linked'
  exact ensures_finish reading within there now

variable {t : Turn} {s : Script}

/-- What HandleCommand comes to. -/
def Comes (es : List Exchange) (told : List Event) (done : List Exchange) (log : List Event) (t : Turn)
    (reading : Bool) (r : Except Fault Bool) (fe : FileExchange) (w : World) : Prop :=
  r = .ok reading ∧
    ∃ q, Between es told (done ++ t.exchange.toList) q t.client (log ++ t.shown) fe w

theorem comes_exchange {x : Io FileExchange A} (reading : Bool) (some_exchange : t.exchange = some e)
    (obtains : Obtains (clientContract es told) FileExchange.buf (At p fs log) x e.request e.reply a
      (At q t.client (log ++ t.shown)))
    (within : done ++ t.exchange.toList <+: es) (between : Between es told done p fs log fe w) :
    Comp.ensures (clientContract es told).env (do
      let _ ← x
      let reading ← pure reading
      flushExchange
      pure reading) (Comes es told done log t reading) fe w := by
  rw [some_exchange] at within
  apply Comp.ensures_mono (ensures_exchange reading obtains within between)
  rintro r k v ⟨ended, now⟩
  rw [Comes, some_exchange]
  exact ⟨ended, q, now⟩

/-- A command without its path. -/
theorem comes_missing (server : Fs) (within : done <+: es)
    (tells : log ++ [.missingPath] <+: told) (between : Between es told done p fs log fe w) :
    Comp.ensures (clientContract es told).env (do
      note .missingPath
      let reading ← pure true
      flushExchange
      pure reading) (Comes es told done log (missing fs server) true) fe w := by
  refine ensures_after (keeps_note tells) between fun k v now => ?_
  apply Comp.ensures_mono (ensures_finish true within now.here now.linked)
  rintro r k' v' ⟨ended, later⟩
  refine ⟨ended, p, ?_⟩
  rw [show (missing fs server).exchange.toList = [] from rfl, List.append_nil]
  exact later

attribute [local irreducible] Comp.ensures

theorem ensures_upload (planned : uploadTurn fuel user fs server p = some t)
    (within : done ++ t.exchange.toList <+: es) (tells : log ++ t.shown <+: told)
    (between : Between es told done q fs log fe w) :
    Comp.ensures (clientContract es told).env (DropboxClient.handleCommand fuel user .kUpload p)
      (Comes es told done log t true) fe w := by
  simp only [uploadTurn, Option.ite_none_right_eq_some, Option.bind_eq_some_iff,
    Option.map_eq_some_iff] at planned
  obtain ⟨⟨named, regular, _⟩, content, holds, enough, stored, _, rfl⟩ := planned
  have asks : Keeps (clientContract es told) FileExchange.buf (At q fs log)
      (orThrow (onFiles (.isRegularFile p))) true (At q fs log) :=
    keeps_orThrow (keeps_onFiles (by simp [fileCall, regular]))
  simp only [DropboxClient.handleCommand, if_neg named]
  refine ensures_after asks between fun k v now => ?_
  rw [if_pos rfl]
  have puts : Puts (clientContract es told) FileExchange.buf (At q fs log)
      (DropboxClient.upload fuel user p) _ _ _ := puts_upload holds enough _ rfl
  exact comes_exchange true rfl (obtains_then (obtains_of_puts puts) (keeps_note tells)) within now

theorem ensures_delete (planned : deleteTurn user fs server p = some t)
    (within : done ++ t.exchange.toList <+: es) (tells : log ++ t.shown <+: told)
    (between : Between es told done q fs log fe w) :
    Comp.ensures (clientContract es told).env (DropboxClient.handleCommand fuel user .kDelete p)
      (Comes es told done log t true) fe w := by
  rw [deleteTurn] at planned
  by_cases named : p = []
  · obtain rfl := Option.some.inj ((if_pos named).symm.trans planned)
    simp only [DropboxClient.handleCommand, if_pos named]
    exact comes_missing server (by simpa [missing] using within) tells between
  · simp only [if_neg named, Option.ite_none_right_eq_some, Option.map_eq_some_iff] at planned
    obtain ⟨_, discarded, _, rfl⟩ := planned
    simp only [DropboxClient.handleCommand, if_neg named]
    have puts : Puts (clientContract es told) FileExchange.buf (At q fs log)
        (DropboxClient.delete user p) _ _ _ := puts_delete p rfl
    exact comes_exchange true rfl (obtains_then (obtains_of_puts puts) (keeps_note tells)) within
      between

/-- What a download takes from the connection after its request. -/
theorem takes_fetched {fetched : List Byte × Fs × Bool} {source : Path}
    (planned : fetch fuel fs server p source = some fetched) :
    ∃ r, Takes K FileExchange.buf (At q fs log) (awaitFile fuel p) fetched.1 fetched.2.2
      (At r fetched.2.1 log) := by
  obtain ⟨present, _, rest⟩ := Option.bind_eq_some_iff.mp planned
  cases present with
  | false =>
    obtain rfl := Option.some.inj rest
    exact ⟨q, takes_absent p⟩
  | true =>
    simp only [if_true, Option.bind_eq_some_iff, Option.ite_none_right_eq_some,
      Option.map_eq_some_iff] at rest
    obtain ⟨content, holds, enough, stored, stores, rfl⟩ := rest
    exact ⟨p, takes_found p stores (readable_eq_some holds).2.2.2 enough⟩

theorem ensures_download (planned : downloadTurn fuel user fs server p = some t)
    (within : done ++ t.exchange.toList <+: es) (tells : log ++ t.shown <+: told)
    (between : Between es told done q fs log fe w) :
    Comp.ensures (clientContract es told).env (DropboxClient.handleCommand fuel user .kDownload p)
      (Comes es told done log t true) fe w := by
  rw [downloadTurn] at planned
  by_cases named : p = []
  · obtain rfl := Option.some.inj ((if_pos named).symm.trans planned)
    simp only [DropboxClient.handleCommand, if_pos named]
    exact comes_missing server (by simpa [missing] using within) tells between
  · simp only [if_neg named, Option.ite_none_right_eq_some, Option.map_eq_some_iff] at planned
    obtain ⟨_, fetched, fetches, rfl⟩ := planned
    simp only [DropboxClient.handleCommand, if_neg named]
    obtain ⟨r, takes⟩ := takes_fetched fetches
    exact comes_exchange true rfl (obtains_then (obtains_download p rfl takes) (keeps_note tells))
      within between

theorem ensures_list (planned : listTurn user fs server = some t)
    (within : done ++ t.exchange.toList <+: es) (tells : log ++ t.shown <+: told)
    (between : Between es told done q fs log fe w) :
    Comp.ensures (clientContract es told).env (DropboxClient.handleCommand fuel user .kListServer [])
      (Comes es told done log t true) fe w := by
  simp only [listTurn, Option.bind_eq_some_iff, Option.ite_none_right_eq_some] at planned
  obtain ⟨table, _, fits, same⟩ := planned
  obtain rfl := Option.some.inj same
  exact comes_exchange true rfl (obtains_listServer fits tells) within between

theorem ensures_exit (within : done ++ (exitTurn fs server).exchange.toList <+: es)
    (tells : log ++ (exitTurn fs server).shown <+: told)
    (between : Between es told done q fs log fe w) :
    Comp.ensures (clientContract es told).env (DropboxClient.handleCommand fuel user .kExit [])
      (Comes es told done log (exitTurn fs server) false) fe w :=
  comes_exchange false rfl (obtains_of_puts (puts_exit tells)) within between

theorem ensures_order {o : Order} (planned : o.turn fuel user fs server = some t)
    (within : done ++ t.exchange.toList <+: es) (tells : log ++ t.shown <+: told)
    (between : Between es told done q fs log fe w) :
    Comp.ensures (clientContract es told).env
      (DropboxClient.handleCommand fuel user o.command o.path)
      (Comes es told done log t (o ≠ .exit)) fe w := by
  cases o with
  | upload p => exact ensures_upload planned within tells between
  | delete p => exact ensures_delete planned within tells between
  | download p => exact ensures_download planned within tells between
  | listServer => exact ensures_list planned within tells between
  | exit =>
    obtain rfl := Option.some.inj planned
    exact ensures_exit within tells between

/-- The client issues its commands up to an exit, whatever the segmentation of the replies. -/
theorem ensures_issue (orders : List Order) (planned : script fuel user fs server orders = some s)
    (whole : done ++ s.exchanges = es) (all : log ++ s.shown = told)
    (between : Between es told done q fs log fe w) :
    Comp.ensures (clientContract es told).env (DropboxClient.issue fuel user (entered orders))
      (fun r k v => r = .ok () ∧ ∃ p, Between es told es p s.client told k v) fe w := by
  induction orders generalizing fs server s done log q fe w with
  | nil =>
    obtain rfl := Option.some.inj planned
    obtain rfl : done = es := by simpa using whole
    obtain rfl : log = told := by simpa using all
    exact Comp.ensures_pure.mpr ⟨rfl, q, between⟩
  | cons o rest ih =>
    obtain ⟨t, turned, onward⟩ := Option.bind_eq_some_iff.mp planned
    rw [entered, List.map_cons, DropboxClient.issue, Comp.ensures_bind]
    by_cases last : o = .exit
    · obtain rfl := Option.some.inj ((if_pos last).symm.trans onward)
      simp only [Turn.followedBy, List.append_nil] at whole all ⊢
      apply Comp.ensures_mono
        (ensures_order turned (by rw [whole]) (by rw [all]) between)
      rintro r k v ⟨rfl, p, now⟩
      rw [whole, all] at now
      simp only [last]
      exact Comp.ensures_pure.mpr ⟨rfl, p, now⟩
    · obtain ⟨s', onwards, rfl⟩ := Option.map_eq_some_iff.mp ((if_neg last).symm.trans onward)
      simp only [Turn.followedBy, ← List.append_assoc] at whole all ⊢
      apply Comp.ensures_mono (ensures_order turned ⟨_, whole⟩ ⟨_, all⟩ between)
      rintro r k v ⟨rfl, p, now⟩
      simp only [Comp.either_ok, last, ne_eq, not_false_eq_true, decide_true, if_true]
      exact ih onwards whole all now

end session

end DropboxOrderingClient
