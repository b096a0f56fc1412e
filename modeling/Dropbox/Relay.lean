import Dropbox.StreamCalls
import Dropbox.SyncLoops

/-!
SyncFromClient with its broadcasts carried out: BroadcastCommand calls Upload or Delete of
one recipient after the other, each on a connection of its own and on the files as they
are at that moment. What arrives on the own connection may come in any portions.
-/
namespace DropboxRelay
open Calls Programs DropboxFileStore DropboxHost DropboxSocketStream
open DropboxStreamRules DropboxProtocol DropboxProtocolRules DropboxStreamCalls DropboxSyncLoops

/-- A composite::Sender: the other device of a user, or a backup. The files of its machine are
    those of the server. -/
structure Recipient where
  exchange : FileExchange
  socket : Machine

/-- The method that BroadcastUpload or BroadcastDelete hands to BroadcastCommand. -/
def method (fuel : Nat) : Event → Io FileExchange Bool
  | .broadcastUpload p => senderUpload fuel p
  | .broadcastDelete p => senderDelete p
  | _ => pure true

def Recipient.machine (fs : Fs) (r : Recipient) : Machine :=
  { r.socket with world := { r.socket.world with fs := fs } }

def Recipient.call (fuel : Nat) (fs : Fs) (e : Event) (r : Recipient) :
    Except Fault Bool × Recipient :=
  let out := exec (method fuel e) r.exchange (r.machine fs)
  (out.1, ⟨out.2.1, out.2.2⟩)

/-- The two loops of BroadcastCommand, over the other devices and the backups. They end with the
    first method that does not return true. -/
def relay (fuel : Nat) (fs : Fs) (e : Event) : List Recipient → Bool × List Recipient
  | [] => (true, [])
  | r :: rest =>
    match r.call fuel fs e with
    | (.ok true, r') => ((relay fuel fs e rest).1, r' :: (relay fuel fs e rest).2)
    | (_, r') => (false, r' :: rest)

/-- The connection and the files of one handler, and the recipients of its broadcasts. -/
structure Server where
  own : Machine
  peers : List Recipient

def serverHost (fuel : Nat) (s : Server) : (c : Sys) → c.Reply × Server
  | .broadcast e => ((relay fuel s.own.world.fs e s.peers).1,
      ⟨s.own.note e, (relay fuel s.own.world.fs e s.peers).2⟩)
  | .recv n => ((host s.own (.recv n)).1, { s with own := (host s.own (.recv n)).2 })
  | .send bytes => ((host s.own (.send bytes)).1, { s with own := (host s.own (.send bytes)).2 })
  | .file c => ((host s.own (.file c)).1, { s with own := (host s.own (.file c)).2 })
  | .note e => ((host s.own (.note e)).1, { s with own := (host s.own (.note e)).2 })

/-- All that comes from the peer has been read, this has been sent to it, and nothing is left in the
    buffer. -/
structure Ready (heard written : List Byte) (r : Recipient) : Prop where
  live : Live heard FileExchange.buf heard written r.exchange r.socket
  good : r.exchange.stream.good = true
  settled : r.exchange.buf.pending = []

theorem sent_of_ready {heard written : List Byte} {r : Recipient} (ready : Ready heard written r) :
    r.socket.world.sent = written := by
  have produced := ready.live.linked.produced
  rw [ready.settled, List.append_nil] at produced
  exact produced.symm

/-- What the recipients are told of a message: its path goes on in generic format. -/
def relayed : Message → Message
  | .upload p content => .upload (genericString p) content
  | .delete p => .delete (genericString p)

/-- The file that a broadcast is to send can be opened and has the content that was received. -/
def Relayable (fs : Fs) : Message → Prop
  | .upload p content => readable fs p = some content
  | .delete _ => True

/-- The primary carries out the messages, and each can be passed on when it has been. -/
def Carries (fuel : Nat) : Point → List Message → Point → Prop
  | s, [], t => s = t
  | s, m :: rest, t => m.Sized fuel ∧ ∃ u, Loop.primary.apply s m = (u, .goes) ∧
      Relayable u.fs m ∧ Carries fuel u rest t

/-- What the recipients are sent for these messages. -/
def relayedBytes (msgs : List Message) : List Byte := (msgs.map relayed).flatMap encodeMessage

section sending
variable {K : Contract} {fs : Fs} {log : List Event} {fuel : Nat} {p : Path}

/-- Everything put to the output has been given to the connection. -/
def Settled (p : Path) (fs : Fs) (log : List Event) (fe : FileExchange) (w : World) : Prop :=
  At p fs log fe w ∧ fe.buf.pending = []

theorem puts_flush_settled :
    Puts K FileExchange.buf (At p fs log) flushExchange [] () (Settled p fs log) := by
  intro taken written fe w here linked exhausted may
  apply Comp.ensures_mono (ensures_flushExchange here linked (by simpa using may [] (by simp)))
  rintro r k v ⟨rfl, there, linked', same, rfl⟩
  refine ⟨rfl, ⟨there, ?_⟩, by simpa using linked', same.trans exhausted, rfl⟩
  have produced := linked'.produced
  simpa using produced

theorem puts_upload_settled (q : Path) {content : List Byte} (holds : readable fs p = some content)
    (enough : content.length < fuel) :
    Puts K FileExchange.buf (At q fs log) (senderUpload fuel p)
      (encodeMessage (.upload (genericString p) content)) true (Settled p fs log) := by
  refine puts_bind (puts_sendCommand .kUpload) ?_
  refine puts_after (keeps_setPath p) ?_
  refine puts_bind puts_sendPath ?_
  rw [if_pos rfl]
  refine puts_then (puts_send holds enough) ?_
  rw [if_pos rfl]
  exact puts_then puts_flush_settled (puts_pure true fun _ _ => id)

theorem puts_delete_settled (q : Path) :
    Puts K FileExchange.buf (At q fs log) (senderDelete p)
      (encodeMessage (.delete (genericString p))) true (Settled p fs log) := by
  refine puts_bind (puts_sendCommand .kDelete) ?_
  refine puts_after (keeps_setPath p) ?_
  have body : (Message.delete (genericString p)).path = genericString p := rfl
  rw [body]
  refine puts_bind puts_sendPath ?_
  rw [if_pos rfl]
  exact puts_then puts_flush_settled (puts_pure true fun _ _ => id)

end sending

section relaying
variable {heard written bytes : List Byte} {fs : Fs} {p : Path} {e : Event} {fuel : Nat}

/-- The method puts these bytes on the connection of any recipient. -/
def Sends (fuel : Nat) (fs : Fs) (e : Event) (bytes : List Byte) : Prop :=
  ∃ p, ∀ heard q log, Puts (delivers heard) FileExchange.buf (At q fs log) (method fuel e) bytes
    true (Settled p fs log)

theorem ready_after {A : Type} {x : Io FileExchange A} {a : A} {r : Recipient}
    (ready : Ready heard written r)
    (puts : ∀ q log, Puts (delivers heard) FileExchange.buf (At q fs log) x bytes a
      (Settled p fs log)) : (exec x r.exchange (r.machine fs)).1 = .ok a ∧
      Ready heard (written ++ bytes)
        ⟨(exec x r.exchange (r.machine fs)).2.1, (exec x r.exchange (r.machine fs)).2.2⟩ := by
  obtain ⟨live, good, settled⟩ := ready
  have linked : Linked (delivers heard) heard written r.exchange.buf (r.machine fs).world :=
    linked_of_same live.linked rfl rfl rfl
  have live' : Live heard FileExchange.buf heard written r.exchange (r.machine fs) :=
    ⟨live.sound, live.whole, linked⟩
  have exhausted := unread_of_complete live.linked
  obtain ⟨ended, there, sent, _⟩ := exec_puts (puts _ _) live' ⟨good, rfl, rfl, rfl⟩ exhausted
  exact ⟨ended, sent, there.1.1, there.2⟩

theorem call_ready {r : Recipient} (ready : Ready heard written r) (sends : Sends fuel fs e bytes) :
    ∃ r', r.call fuel fs e = (.ok true, r') ∧ Ready heard (written ++ bytes) r' := by
  obtain ⟨p, puts⟩ := sends
  obtain ⟨ended, ready'⟩ := ready_after ready (puts heard)
  exact ⟨_, Prod.ext ended rfl, ready'⟩

/-- The broadcast reaches every recipient. -/
theorem relay_ready (sends : Sends fuel fs e bytes) (peers : List Recipient)
    (ready : ∀ r ∈ peers, Ready heard written r) :
    (relay fuel fs e peers).1 = true ∧ (relay fuel fs e peers).2.length = peers.length ∧
      ∀ r ∈ (relay fuel fs e peers).2, Ready heard (written ++ bytes) r := by
  induction peers with
  | nil => exact ⟨rfl, rfl, by simp [relay]⟩
  | cons r rest ih =>
    obtain ⟨r', called, now⟩ := call_ready (ready r List.mem_cons_self) sends
    obtain ⟨success, length, later⟩ := ih fun other member =>
      ready other (List.mem_cons_of_mem _ member)
    have shape : relay fuel fs e (r :: rest) =
        ((relay fuel fs e rest).1, r' :: (relay fuel fs e rest).2) := by
      rw [relay, called]
    rw [shape]
    refine ⟨success, by simp [length], ?_⟩
    intro other member
    rcases List.mem_cons.mp member with rfl | behind
    · exact now
    · exact later other behind

theorem sends_upload {content : List Byte} (holds : readable fs p = some content)
    (enough : content.length < fuel) :
    Sends fuel fs (.broadcastUpload p) (encodeMessage (.upload (genericString p) content)) :=
  ⟨p, fun _ q _ => puts_upload_settled q holds enough⟩

theorem sends_delete :
    Sends fuel fs (.broadcastDelete p) (encodeMessage (.delete (genericString p))) :=
  ⟨p, fun _ q _ => puts_delete_settled q⟩

end relaying

-- From here on the rules alone take a computation apart.
attribute [local irreducible] Comp.ensures

section handler
variable {input taken written bytes rest heard sent : List Byte} {p q : Path} {fs after : Fs}
variable {log log' : List Event} {fuel : Nat} {fe : FileExchange} {s : Server} {A : Type}

/-- The handler has taken this much of its input. -/
structure Standing (input taken written : List Byte) (p : Path) (fs : Fs) (log : List Event)
    (fe : FileExchange) (m : Machine) : Prop where
  live : Live input FileExchange.buf taken written fe m
  point : At p fs log fe m.world

def NoBroadcast : Sys → Prop
  | .broadcast _ => False
  | _ => True

theorem network : Network NoBroadcast :=
  ⟨⟨fun _ => trivial, fun _ => trivial⟩, fun _ => trivial⟩

theorem writes (p : Path) : Writes NoBroadcast p := ⟨trivial, trivial, trivial, fun _ => trivial⟩

def Server.beside (peers : List Recipient) (m : Machine) : Server := ⟨m, peers⟩

theorem hosts_agree (fuel : Nat) (peers : List Recipient) (m : Machine) (c : Sys) (quiet : NoBroadcast c) :
    serverHost fuel (.beside peers m) c = ((host m c).1, .beside peers (host m c).2) := by
  cases c with
  | broadcast e => cases quiet
  | recv n | send bytes | file c | note e => rfl

/-- What takes a piece of the input and broadcasts nothing leaves the recipients alone. -/
theorem ensures_piece (fuel : Nat) (s : Server) (rest : List Byte) {x : Io FileExchange A} {a : A}
    (quiet : Makes NoBroadcast x)
    (takes : Takes (delivers input) FileExchange.buf (At p fs log) x bytes a (At q after log'))
    (standing : Standing input taken written p fs log fe s.own)
    (within : input = taken ++ bytes ++ rest) :
    Comp.ensures (answers (serverHost fuel)) x (fun r k v => r = .ok a ∧
      Standing input (taken ++ bytes) written q after log' k v.own ∧ v.peers = s.peers) fe s := by
  rw [Comp.ensures_answers]
  have same := exec_agrees (hosts_agree fuel s.peers) quiet fe s.own
  obtain ⟨ended, there, live⟩ := exec_takes takes standing.live standing.point ⟨rest, within.symm⟩
  rw [show s = .beside s.peers s.own from rfl, same]
  exact ⟨ended, ⟨live, there⟩, rfl⟩

/-- The handler and its recipients between two messages. -/
structure Abreast (input taken written heard sent : List Byte) (count : Nat) (t : Point)
    (fe : FileExchange) (s : Server) : Prop where
  standing : Standing input taken written t.path t.fs t.log fe s.own
  count : s.peers.length = count
  ready : ∀ r ∈ s.peers, Ready heard sent r

theorem ensures_broadcast {e : Event} {count : Nat} (sends : Sends fuel fs e bytes)
    (abreast : Abreast input taken written heard sent count ⟨fs, p, log⟩ fe s) :
    Comp.ensures (answers (serverHost fuel)) (broadcast e) (fun r k v => r = .ok true ∧
      Abreast input taken written heard (sent ++ bytes) count ⟨fs, p, log ++ [e]⟩ k v) fe s := by
  obtain ⟨⟨live, good, path, files, logged⟩, length, ready⟩ := abreast
  rw [broadcast, Comp.ensures_call_answers]
  have same : s.own.world.fs = fs := files
  obtain ⟨success, kept, now⟩ := relay_ready (same ▸ sends) s.peers ready
  have linked := linked_of_same (v := (s.own.note e).world) live.linked rfl rfl rfl
  refine ⟨by simp only [serverHost, success], ⟨⟨live.sound, live.whole, linked⟩, ?_⟩, ?_, now⟩
  · refine ⟨good, path, files, ?_⟩
    show s.own.world.log ++ [e] = log ++ [e]
    rw [logged]
  · exact kept.trans length

variable {t : Point} {count : Nat}

/-- A turn with an upload. -/
theorem ensures_turn_upload {content : List Byte} (sized : (Message.upload p content).Sized fuel)
    (stores : storeFile t.fs p content = some after) (holds : readable after p = some content)
    (abreast : Abreast input taken written heard sent count t fe s)
    (within : input = taken ++ encodeMessage (.upload p content) ++ rest) :
    Comp.ensures (answers (serverHost fuel)) (DropboxClientHandler.syncTurn fuel)
      (fun r k v => r = .ok () ∧ Abreast input (taken ++ encodeMessage (.upload p content)) written
        heard (sent ++ encodeMessage (.upload (genericString p) content)) count
        ⟨after, p, t.log ++ [.broadcastUpload p]⟩ k v) fe s := by
  obtain ⟨text, file, enough⟩ := sized
  obtain ⟨standing, length, ready⟩ := abreast
  have pieces : encodeMessage (.upload p content) =
      encodeCommand .kUpload ++ (encodeString p ++ encodeFile content) := rfl
  rw [DropboxClientHandler.syncTurn, Comp.ensures_bind]
  have first := ensures_piece fuel s (encodeString p ++ encodeFile content ++ rest)
    (makes_receiveCommand network.toWire) (takes_receiveCommand .kUpload) standing
    (by rw [within, pieces]; simp)
  apply Comp.ensures_mono first
  rintro r k v ⟨rfl, standing, same⟩
  rw [Comp.either_ok, Comp.ensures_bind]
  have second := ensures_piece fuel v (encodeFile content ++ rest)
    (makes_receivePath network.toWire) (takes_receivePath text) standing (by rw [within, pieces]; simp)
  apply Comp.ensures_mono second
  rintro r k v' ⟨rfl, standing, same'⟩
  rw [Comp.either_ok, Comp.ensures_bind]
  have third := ensures_piece fuel v' rest (makes_receive network.toWire writes fuel)
    (takes_receive stores file enough) standing (by rw [within, pieces]; simp)
  apply Comp.ensures_mono third
  rintro r k v'' ⟨rfl, standing, same''⟩
  have taken_all : taken ++ encodeCommand .kUpload ++ encodeString p ++ encodeFile content =
      taken ++ encodeMessage (.upload p content) := by
    rw [pieces]
    simp
  rw [taken_all] at standing
  have path : k.path = p := standing.point.2.1
  rw [Comp.either_ok, Comp.ensures_bind, getPath, Comp.ensures_bind, Comp.ensures_get,
    Comp.either_ok, Comp.ensures_pure, Comp.either_ok, Comp.ensures_bind, path]
  have peers : v''.peers = s.peers := same''.trans (same'.trans same)
  apply Comp.ensures_mono (ensures_broadcast (sends_upload holds enough)
    ⟨standing, by rw [peers, length], by rwa [peers]⟩)
  rintro r k w ⟨rfl, abreast⟩
  exact Comp.ensures_pure.mpr ⟨rfl, abreast⟩

/-- A turn with a delete. -/
theorem ensures_turn_delete {removed : Bool} (sized : (Message.delete p).Sized fuel)
    (removing : remove t.fs p = some (removed, after))
    (abreast : Abreast input taken written heard sent count t fe s)
    (within : input = taken ++ encodeMessage (.delete p) ++ rest) :
    Comp.ensures (answers (serverHost fuel)) (DropboxClientHandler.syncTurn fuel)
      (fun r k v => r = .ok () ∧ Abreast input (taken ++ encodeMessage (.delete p)) written
        heard (sent ++ encodeMessage (.delete (genericString p))) count
        ⟨after, p, t.log ++ [.broadcastDelete p]⟩ k v) fe s := by
  obtain ⟨standing, length, ready⟩ := abreast
  have pieces : encodeMessage (.delete p) = encodeCommand .kDelete ++ encodeString p :=
    congrArg (encodeCommand .kDelete ++ ·) (List.append_nil _)
  rw [DropboxClientHandler.syncTurn, Comp.ensures_bind]
  have first := ensures_piece fuel s (encodeString p ++ rest) (makes_receiveCommand network.toWire)
    (takes_receiveCommand .kDelete) standing (by rw [within, pieces]; simp)
  apply Comp.ensures_mono first
  rintro r k v ⟨rfl, standing, same⟩
  rw [Comp.either_ok, Comp.ensures_bind]
  have second := ensures_piece fuel v rest (makes_receivePath network.toWire)
    (takes_receivePath sized) standing (by rw [within, pieces]; simp)
  apply Comp.ensures_mono second
  rintro r k v' ⟨rfl, standing, same'⟩
  rw [List.append_assoc, ← pieces] at standing
  have path : k.path = p := standing.point.2.1
  rw [Comp.either_ok, Comp.ensures_bind, getPath, Comp.ensures_bind, Comp.ensures_get,
    Comp.either_ok, Comp.ensures_pure, Comp.either_ok, Comp.ensures_bind, path]
  have removes : Keeps (delivers input) FileExchange.buf (At p t.fs t.log)
      (orThrow (onFiles (.remove p))) removed (At p after t.log) :=
    keeps_orThrow (keeps_onFiles (by simp [fileCall, removing, orSame]))
  have quiet : Makes NoBroadcast (orThrow (onFiles (.remove p)) : Io FileExchange Bool) :=
    makes_orThrow (makes_call trivial)
  have third := ensures_piece fuel v' rest quiet
    (takes_of_keeps removes) standing (by rw [within]; simp)
  apply Comp.ensures_mono third
  rintro r k v'' ⟨rfl, standing, same''⟩
  rw [List.append_nil] at standing
  have peers : v''.peers = s.peers := same''.trans (same'.trans same)
  rw [Comp.either_ok, Comp.ensures_bind]
  apply Comp.ensures_mono (ensures_broadcast sends_delete
    ⟨standing, by rw [peers, length], by rwa [peers]⟩)
  rintro r k w ⟨rfl, abreast⟩
  exact Comp.ensures_pure.mpr ⟨rfl, abreast⟩

/-- A turn with a whole message. -/
theorem ensures_turn {m : Message} {u : Point} (sized : m.Sized fuel)
    (applied : Loop.primary.apply t m = (u, .goes)) (relayable : Relayable u.fs m)
    (abreast : Abreast input taken written heard sent count t fe s)
    (within : input = taken ++ encodeMessage m ++ rest) :
    Comp.ensures (answers (serverHost fuel)) (DropboxClientHandler.syncTurn fuel)
      (fun r k v => r = .ok () ∧ Abreast input (taken ++ encodeMessage m) written
        heard (sent ++ encodeMessage (relayed m)) count u k v) fe s := by
  cases m with
  | upload p content =>
    simp only [Loop.apply, Loop.store, Loop.enter] at applied
    cases opens : openDestination t.fs p with
    | none =>
      rw [opens] at applied
      cases applied
    | some reply =>
      obtain ⟨ok, opened⟩ := reply
      rw [opens] at applied
      cases ok with
      | false => cases applied
      | true =>
        cases applied
        have stores : storeFile t.fs p content = some (opened.put (key p) (.file content)) := by
          rw [storeFile, opens]
        exact ensures_turn_upload sized stores relayable abreast within
  | delete p =>
    simp only [Loop.apply, Loop.erase, Loop.enter, Loop.discard] at applied
    cases removing : remove t.fs p with
    | none =>
      rw [removing] at applied
      cases applied
    | some result =>
      rw [removing] at applied
      cases applied
      exact ensures_turn_delete sized removing abreast within

/-- One turn after the other. -/
theorem ensures_messages (msgs : List Message) {u : Point} (carries : Carries fuel t msgs u)
    (abreast : Abreast input taken written heard sent count t fe s)
    (within : input = taken ++ msgs.flatMap encodeMessage) :
    Comp.ensures (answers (serverHost fuel)) (DropboxClientHandler.syncLoop fuel msgs.length)
      (fun r k v => r = .ok () ∧
        Abreast input input written heard (sent ++ relayedBytes msgs) count u k v) fe s := by
  induction msgs generalizing taken sent t fe s with
  | nil =>
    obtain rfl : t = u := carries
    obtain rfl : input = taken := by simpa using within
    rw [relayedBytes, List.map_nil, List.flatMap_nil, List.append_nil]
    exact Comp.ensures_pure.mpr ⟨rfl, abreast⟩
  | cons m rest ih =>
    obtain ⟨sized, next, applied, relayable, later⟩ := carries
    rw [List.length_cons, DropboxClientHandler.syncLoop, Comp.ensures_bind]
    have whole : input = taken ++ encodeMessage m ++ rest.flatMap encodeMessage := by
      rw [within, List.flatMap_cons, List.append_assoc]
    apply Comp.ensures_mono (ensures_turn sized applied relayable abreast whole)
    rintro r k v ⟨rfl, abreast'⟩
    rw [Comp.either_ok]
    have bytes : sent ++ relayedBytes (m :: rest) =
        sent ++ encodeMessage (relayed m) ++ relayedBytes rest := by
      rw [relayedBytes, List.map_cons, List.flatMap_cons, List.append_assoc, relayedBytes]
    rw [bytes]
    exact ih later abreast' whole

/-- What SyncFromClient sends before its loop. -/
def greet (servers : List Byte) : Io FileExchange Unit := do
  onRdbuf do
    outputArchive
    saveString servers
  flushExchange

theorem syncFromClient_eq (fuel : Nat) (servers : List Byte) (turns : Nat) :
    DropboxClientHandler.syncFromClient fuel servers turns =
      greet servers >>= fun _ => DropboxClientHandler.syncLoop fuel turns := by
  rw [greet, Comp.bind_assoc]
  rfl

theorem puts_greet (servers : List Byte) :
    Puts (delivers input) FileExchange.buf (At p fs log) (greet servers) (encodeString servers) ()
      (At p fs log) := by
  have saves : Puts (delivers input) FileExchange.buf (At p fs log)
      (onRdbuf do outputArchive; saveString servers) (encodeString servers) () (At p fs log) :=
    puts_onRdbuf (puts_bind (puts_saveBinary [1]) (puts_saveString servers))
  exact puts_then saves puts_flushExchange

theorem makes_greet (servers : List Byte) : Makes NoBroadcast (greet servers) := by
  refine makes_bind (makes_onRdbuf ?_) fun _ => makes_flushExchange network.toWire
  exact makes_bind (makes_outputArchive network) fun _ => makes_saveString network servers

attribute [local irreducible] greet

/-- SyncFromClient carries out all messages that come from its device, and every recipient has then
    been sent just these messages, however the reads were cut. -/
theorem exec_relays {m : Machine} (mem : Nat → Byte) {peers : List Recipient} {u : Point}
    (msgs : List Message) (servers : List Byte) (sound : m.Sound) (nothing : m.world.rcvd = [])
    (silent : m.world.sent = []) (coming : m.coming = msgs.flatMap encodeMessage)
    (carries : Carries fuel ⟨m.world.fs, p, m.world.log⟩ msgs u)
    (ready : ∀ r ∈ peers, Ready heard sent r) : ∃ k v,
      Comp.exec (serverHost fuel) (DropboxClientHandler.syncFromClient fuel servers msgs.length)
        (.fresh mem p) ⟨m, peers⟩ = (.ok (), k, v) ∧ v.own.world.fs = u.fs ∧
      v.own.world.log = u.log ∧ v.peers.length = peers.length ∧
      ∀ r ∈ v.peers, Ready heard (sent ++ relayedBytes msgs) r := by
  have live := live_fresh mem p sound nothing silent
  have begins : At p m.world.fs m.world.log (FileExchange.fresh mem p) m.world :=
    ⟨rfl, rfl, rfl, rfl⟩
  have greets := exec_puts (puts_greet servers) live begins rfl
  have runs : Comp.ensures (answers (serverHost fuel))
      (DropboxClientHandler.syncFromClient fuel servers msgs.length) (fun r k v => r = .ok () ∧
        Abreast m.coming m.coming (encodeString servers) heard (sent ++ relayedBytes msgs)
          peers.length u k v) (.fresh mem p) ⟨m, peers⟩ := by
    rw [syncFromClient_eq, Comp.ensures_bind, Comp.ensures_answers]
    have same := exec_agrees (hosts_agree fuel peers) (makes_greet servers) (.fresh mem p) m
    obtain ⟨ended, there, live', _⟩ := greets
    rw [List.nil_append] at live'
    have started : Comp.exec (serverHost fuel) (greet servers) (.fresh mem p) ⟨m, peers⟩ =
        (.ok (), (exec (greet servers) (.fresh mem p) m).2.1,
          .beside peers (exec (greet servers) (.fresh mem p) m).2.2) := by
      rw [show (⟨m, peers⟩ : Server) = .beside peers m from rfl, same]
      exact Prod.ext ended rfl
    rw [started, Comp.either_ok]
    refine ensures_messages msgs carries ⟨⟨live', there⟩, rfl, ready⟩ ?_
    rw [List.nil_append, coming]
  have meets := Comp.ensures_answers.mp runs
  generalize Comp.exec (serverHost fuel)
    (DropboxClientHandler.syncFromClient fuel servers msgs.length) (.fresh mem p) ⟨m, peers⟩ = out
    at meets ⊢
  obtain ⟨r, k, v⟩ := out
  obtain ⟨rfl, abreast⟩ := meets
  obtain ⟨_, _, files, logged⟩ := abreast.standing.point
  exact ⟨k, v, rfl, files, logged, abreast.count, abreast.ready⟩

end handler

end DropboxRelay
