import Dropbox.InitialSync
import Dropbox.OrderingClient
import Dropbox.ServingHandler

/-!
A client that issues its commands and the MainLoop of its handler, side by side on the
payload connection: reads may come in any portions and the steps of the two sides in
any order.
-/
namespace DropboxSession
open DropboxFileStore DropboxHost DropboxSocketStream DropboxProtocol DropboxDialogue DropboxOrders
open DropboxInitialSync Programs SideBySide Transitions

abbrev Sides :=
  Pair Sys Sys.Reply (Except Fault Unit × FileExchange) (Except Fault Unit × FileExchange) World World

/-- `turns` bounds the turns of MainLoop, `fuel` its file loops and those of the client. -/
def start (fuel turns : Nat) (user : List Byte) (orders : List Order) (client server : Fs)
    (fe fe' : FileExchange) : Sides where
  left := DropboxClient.issue fuel user (entered orders) fe
  lworld := ⟨client, [], [], []⟩
  right := DropboxClientHandler.mainLoop fuel user turns DropboxClientHandler.kAttemptAmount fe'
  rworld := ⟨server, [], [], []⟩

/-- Both sides have done so far what the script says, and all input has been read before output was
    stored in the array it came in. -/
structure InStep (orders : List Order) (s : Script) (q : Sides) : Prop where
  shown : q.lworld.log <+: s.shown
  served : q.rworld.log <+: s.served
  ordered : printed q.rworld.log <+: (issued orders).map Order.command
  hither : q.lworld.rcvd <+: q.rworld.sent
  thither : q.rworld.rcvd <+: q.lworld.sent
  client : .overUnread ∉ q.lworld.log
  handler : .overUnread ∉ q.rworld.log

/-- Every command has been carried out and every reply read; nothing is left on either stream. The
    handler has ended after an exit, and else waits for the next command. -/
structure Complete (orders : List Order) (s : Script) (q : Sides) : Prop where
  ordered : printed q.rworld.log = (issued orders).map Order.command
  issued : ∃ fe, q.left = .ret (.ok (), fe) ∧ fe.buf.unread = []
  ended : s.ended = true → ∃ fe, q.right = .ret (.ok (), fe) ∧ fe.buf.unread = []
  waits : s.ended = false → ∃ n next, q.right = .call (.recv n) next
  client : q.lworld = ⟨s.client, replies s.exchanges, requests s.exchanges, s.shown⟩
  server : q.rworld = ⟨s.server, requests s.exchanges, replies s.exchanges, s.served⟩

variable {fuel turns : Nat} {user : List Byte} {orders : List Order} {client server : Fs}
variable {fe fe' : FileExchange} {s : Script} {told : List Event} {w : World}

theorem linked_idle {K : Contract} (idle : Idle fe) (fs : Fs) (log : List Event)
    (arrived : K.arrived [] []) : Linked K [] [] fe.buf ⟨fs, [], [], log⟩ := by
  have unread : fe.buf.unread = [] := by
    rw [SocketBuffer.unread, idle.get, Nat.sub_self, window_zero]
  have pending : fe.buf.pending = [] := by
    rw [SocketBuffer.pending, idle.put, window_zero]
  have put := idle.put
  exact ⟨idle.get.le, idle.array, by omega, unread.symm, pending.symm, arrived⟩

/-- What the client ends with. -/
def ClientEnds (s : Script) (r : Except Fault Unit × FileExchange) (w : World) : Prop :=
  r.1 = .ok () ∧ r.2.buf.unread = [] ∧
    w = ⟨s.client, replies s.exchanges, requests s.exchanges, s.shown⟩

/-- What the handler ends with, if it ends. -/
def HandlerEnds (s : Script) (r : Except Fault Unit × FileExchange) (w : World) : Prop :=
  r.1 = .ok () ∧ s.ended = true ∧ r.2.buf.unread = [] ∧
    w = ⟨s.server, requests s.exchanges, replies s.exchanges, s.served⟩

/-- What the files and the log of a handler have come to when it waits after the last request. -/
def Waiting (s : Script) (fs : Fs) (log : List Event) : Prop :=
  s.ended = false ∧ fs = s.server ∧ log = s.served

abbrev clientSide (s : Script) : Contract := clientContract s.exchanges s.shown

abbrev handlerSide (s : Script) : Contract := serverContract s.exchanges (Waiting s) s.served

theorem client_meets (planned : script fuel user client server orders = some s) (idle : Idle fe) :
    wp (clientSide s).env (DropboxClient.issue fuel user (entered orders) fe) (ClientEnds s)
      ⟨client, [], [], []⟩ := by
  have nothing : Replied s.exchanges [] [] := replied_all (List.nil_prefix)
  have linked := linked_idle idle (K := clientSide s) client [] nothing
  have begins : DropboxOrderingClient.Between s.exchanges s.shown [] fe.path client [] fe
      ⟨client, [], [], []⟩ := ⟨⟨idle.good, rfl, rfl, rfl⟩, linked, rfl⟩
  refine wp_mono ?_ (DropboxOrderingClient.ensures_issue orders planned rfl rfl begins)
  rintro ⟨r, k⟩ ⟨fs, rcvd, sent, log⟩ ⟨rfl, p, ⟨_, _, rfl, rfl⟩, now, rfl⟩
  have exhausted := client_exhausted (List.prefix_refl _) now
  have received : rcvd = replies s.exchanges := by simpa [exhausted] using now.received
  exact ⟨rfl, exhausted, by rw [received]⟩

theorem handler_meets (planned : script fuel user client server orders = some s)
    (room : s.exchanges.length < turns) (idle : Idle fe') :
    wp (handlerSide s).env (DropboxClientHandler.mainLoop fuel user turns
      DropboxClientHandler.kAttemptAmount fe') (HandlerEnds s) ⟨server, [], [], []⟩ := by
  have nothing : Requested s.exchanges [] [] := requested_all (List.nil_prefix)
  have linked := linked_idle idle (K := handlerSide s) server [] nothing
  have begins : DropboxServingHandler.Between s.exchanges (Waiting s) s.served [] server [] fe'
      ⟨server, [], [], []⟩ := ⟨⟨fe'.path, idle.good, rfl, rfl, rfl⟩, linked, rfl⟩
  refine wp_mono ?_ (DropboxServingHandler.ensures_mainLoop orders planned (List.nil_append _)
    (List.nil_append _) (fun goes_on => ⟨goes_on, rfl, rfl⟩) room _ _ begins)
  rintro ⟨r, k⟩ ⟨fs, rcvd, sent, log⟩ ⟨rfl, ended, ⟨p, _, _, rfl, rfl⟩, now, rfl⟩
  have exhausted := DropboxStreamRules.unread_of_complete now
  have received : rcvd = requests s.exchanges := by simpa [exhausted] using now.received
  exact ⟨rfl, ended, exhausted, by rw [received]⟩

theorem start_meets (planned : script fuel user client server orders = some s)
    (room : s.exchanges.length < turns) (idle : Idle fe) (idle' : Idle fe') :
    Meets (clientSide s).env (handlerSide s).env (Link (clientSide s) (handlerSide s) s.shown s.served)
      (ClientEnds s) (HandlerEnds s) (start fuel turns user orders client server fe fe') where
  linked := ⟨List.nil_prefix, List.nil_prefix, requested_all List.nil_prefix,
    replied_all List.nil_prefix, List.nil_prefix, List.nil_prefix⟩
  left := client_meets planned idle
  right := handler_meets planned room idle'

theorem client_sound (s : Script) :
    Sound calls (clientSide s).env (Link (clientSide s) (handlerSide s) s.shown s.served) :=
  calls_sound client_fits fun _ _ => id

theorem handler_sound (s : Script) :
    Sound calls (handlerSide s).env fun w v =>
      Link (clientSide s) (handlerSide s) s.shown s.served v w := by
  have sound : Sound calls (handlerSide s).env
      (Link (handlerSide s) (clientSide s) s.served s.shown) := calls_sound server_fits fun _ _ => id
  intro w v call choice r w' link owed called
  obtain ⟨relied, still⟩ := sound (link_symm link) owed called
  exact ⟨relied, link_symm still⟩

/-- Where neither side can go on all commands have been carried out. -/
theorem complete_of_stuck {q : Sides} (meets : Meets (clientSide s).env (handlerSide s).env
      (Link (clientSide s) (handlerSide s) s.shown s.served) (ClientEnds s) (HandlerEnds s) q)
    (stuck : Stuck (pairStep calls calls) q)
    (commands : printed s.served = (issued orders).map Order.command) : Complete orders s q := by
  obtain ⟨left, v, right, w⟩ := q
  obtain ⟨⟨⟨r, k⟩, rfl, rfl, unread, rfl⟩, answered⟩ := dialogue_complete meets stuck
    (by rintro a v ⟨_, _, rfl⟩; exact ⟨rfl, rfl⟩) (by rintro b w ⟨_, _, _, rfl⟩; rfl)
  rcases answered with ⟨⟨r, k'⟩, rfl, rfl, exited, empty, rfl⟩ | ⟨call, waiting, rcvd, sent⟩
  · refine ⟨commands, ⟨k, rfl, unread⟩, fun _ => ⟨k', rfl, empty⟩, fun open_still => ?_, rfl, rfl⟩
    rw [exited] at open_still
    cases open_still
  · obtain ⟨fs, received, written, log⟩ := w
    obtain ⟨open_still, rfl, rfl⟩ := waiting
    obtain rfl : received = requests s.exchanges := rcvd
    obtain rfl : written = replies s.exchanges := sent
    refine ⟨commands, ⟨k, rfl, unread⟩, fun exited => ?_, fun _ => call, rfl, rfl⟩
    rw [open_still] at exited
    cases exited

/-- Client and handler stay in step: whatever the order of their steps and the portions of their
    reads, no run goes on for ever, every state is in step, and where no step is possible all
    commands have been carried out. -/
theorem session_stays_in_step (fuel turns : Nat) (user : List Byte) (orders : List Order)
    (client server : Fs) (fe fe' : FileExchange) (s : Script)
    (planned : script fuel user client server orders = some s) (room : s.exchanges.length < turns)
    (idle : Idle fe) (idle' : Idle fe') :
    (WellFounded fun q p : Sides => ∃ a, pairStep calls calls p a = some q) ∧
      ∀ q, Reachable (pairStep calls calls) (start fuel turns user orders client server fe fe') q →
        InStep orders s q ∧ (Stuck (pairStep calls calls) q → Complete orders s q) := by
  obtain ⟨commands, shown, served⟩ := script_logs orders planned
  refine ⟨step_wellFounded calls calls, fun q reach => ?_⟩
  have meets := meets_reachable (client_sound s) (handler_sound s)
    (start_meets planned room idle idle') reach
  obtain ⟨hither, thither, _, _, log, log'⟩ := meets.linked
  refine ⟨⟨log, log', ?_, hither, thither, fun noted => shown (log.subset noted),
    fun noted => served (log'.subset noted)⟩, fun stuck => complete_of_stuck meets stuck commands⟩
  rw [← commands]
  exact List.IsPrefix.filterMap isOrdered log'

/-- A client with one file next to its empty directory. -/
def oneClient : Fs := oneDirectory.put (key [102]) (.file [7])

/-- The file is uploaded, another one asked for in vain. -/
def oneOrders : List Order := [.upload [102], .download [103], .delete [], .listServer, .exit]

def oneSession : Sides :=
  start 2 5 [117] oneOrders oneClient oneDirectory (.fresh (fun _ => 0) []) (.fresh (fun _ => 0) [])

/-- Some interleaving of this session ends, with all commands carried out. -/
theorem session_stays_in_step_upload :
    ∃ s q, script 2 [117] oneClient oneDirectory oneOrders = some s ∧
      Reachable (pairStep calls calls) oneSession q ∧ Complete oneOrders s q := by
  have fresh : Idle (FileExchange.fresh (fun _ => 0) []) := ⟨rfl, rfl, Nat.zero_le _, rfl⟩
  have sizes : (script 2 [117] oneClient oneDirectory oneOrders).map
      (fun s => s.exchanges.length) = some 4 := by decide +kernel
  obtain ⟨s, planned, four⟩ := Option.map_eq_some_iff.mp sizes
  obtain ⟨q, reach, stuck⟩ := reaches_stuck calls calls oneSession
  have room : s.exchanges.length < 5 := by omega
  have stays := session_stays_in_step 2 5 [117] oneOrders oneClient oneDirectory _ _ s planned room
    fresh fresh
  exact ⟨s, q, planned, reach, (stays.2 q reach).2 stuck⟩

end DropboxSession
