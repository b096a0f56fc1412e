import Dropbox.ProtocolRules

/-!
One FileExchange sends commands, paths and files and flushes; another receives them
in the same order, from any division of the byte stream into reads.
-/
namespace DropboxWireRoundTrip
open DropboxFileStore DropboxHost DropboxSocketStream DropboxStreamRules DropboxProtocol
open DropboxProtocolRules Programs

/-- A file is sent from `source` and received under `destination`. -/
inductive WireOp where
  | command (c : Command)
  | path (p : Path)
  | file (source destination : Path)
  deriving DecidableEq, Repr

def sendOp (fuel : Nat) : WireOp → Io FileExchange Unit
  | .command c => sendCommand c
  | .path p => do
    setPath p
    let _ ← sendPath
    pure ()
  | .file source _ => do
    setPath source
    let _ ← send fuel
    pure ()

def sendAll (fuel : Nat) : List WireOp → Io FileExchange Unit
  | [] => flushExchange
  | op :: rest => do
    sendOp fuel op
    sendAll fuel rest

inductive Received where
  | command (r : Except ErrorCode (Option Command))
  | path (success : Bool) (p : Path)
  | file (success : Bool)

def receiveOp (fuel : Nat) : WireOp → Io FileExchange Received
  | .command _ => do
    let r ← receiveCommand
    pure (.command r)
  | .path _ => do
    let success ← receivePath
    let p ← getPath
    pure (.path success p)
  | .file _ destination => do
    setPath destination
    let success ← receive fuel
    pure (.file success)

/-- What each operation of the receiver came to, with the store after it. -/
def receiveAll (fuel : Nat) : List WireOp → FileExchange → Machine →
    List (Except Fault Received × Fs) × FileExchange × Machine
  | [], fe, m => ([], fe, m)
  | op :: rest, fe, m =>
    let out := exec (receiveOp fuel op) fe m
    let later := receiveAll fuel rest out.2.1 out.2.2
    ((out.1, out.2.2.world.fs) :: later.1, later.2)

/-- The operation has delivered what the sender's files and arguments say. -/
def Delivered (sender : Fs) : WireOp → Except Fault Received × Fs → Prop
  | .command c, (r, _) => r = .ok (.command (.ok (some c)))
  | .path p, (r, _) => ∃ q, r = .ok (.path true q) ∧ components q = components p
  | .file source destination, (r, fs) => r = .ok (.file true) ∧
      ∃ content, readable sender source = some content ∧
        fs.entry (key destination) = some (.file content)

/-- Sizes that std::string and off_t can hold, files that can be read, and fuel for the loops. -/
def Sendable (fs : Fs) (fuel : Nat) : WireOp → Prop
  | .command _ => True
  | .path p => (genericString p).length < 2 ^ 63
  | .file source _ => ∃ content, readable fs source = some content ∧ content.length < fuel

def content (sender : Fs) (source : Path) : List Byte := (readable sender source).getD []

/-- Each destination can be opened when its turn comes. -/
def Storable (sender : Fs) : Fs → List WireOp → Prop
  | _, [] => True
  | fs, .file source destination :: rest =>
    ∃ after, storeFile fs destination (content sender source) = some after ∧
      Storable sender after rest
  | fs, _ :: rest => Storable sender fs rest

def encodeOp (sender : Fs) : WireOp → List Byte
  | .command c => encodeCommand c
  | .path p => encodePath p
  | .file source _ => encodeFile (content sender source)

variable {K : Contract} {fs sender : Fs} {log : List Event} {fuel : Nat}

theorem puts_sendOp (op : WireOp) (sendable : Sendable fs fuel op) :
    Puts K FileExchange.buf (Somewhere fs log) (sendOp fuel op) (encodeOp fs op) ()
      (Somewhere fs log) := by
  cases op with
  | command c =>
    rintro taken written fe w ⟨p, here⟩
    exact puts_weaken (puts_sendCommand c) (fun _ _ now => ⟨p, now⟩) here
  | path p =>
    refine puts_after (keeps_setPath_somewhere p) ?_
    exact puts_then puts_sendPath (puts_pure () fun _ _ now => ⟨p, now⟩)
  | file source destination =>
    obtain ⟨bytes, holds, enough⟩ := sendable
    have same : content fs source = bytes := by simp [content, holds]
    rw [encodeOp, same]
    refine puts_after (keeps_setPath_somewhere source) ?_
    exact puts_then (puts_send holds enough) (puts_pure () fun _ _ now => ⟨source, now⟩)

/-- The sender hands over the encodings, in order and completely. -/
theorem ensures_sendAll {taken written : List Byte} (ops : List WireOp) {fe : FileExchange}
    {w : World} (sendable : ∀ op ∈ ops, Sendable fs fuel op) (free : ∀ r s, K.sending r s)
    (here : Somewhere fs log fe w) (linked : Linked K taken written fe.buf w)
    (exhausted : fe.buf.unread = []) :
    Comp.ensures K.env (sendAll fuel ops) (fun r _ v => r = .ok () ∧
      v.sent = written ++ ops.flatMap (encodeOp fs)) fe w := by
  induction ops generalizing written fe w with
  | nil =>
    obtain ⟨p, here⟩ := here
    apply Comp.ensures_mono (ensures_flushExchange here linked (free _ _))
    rintro r k v ⟨rfl, _, _, _, rfl⟩
    exact ⟨rfl, by simp⟩
  | cons op rest ih =>
    have first := sendable op (List.mem_cons_self ..)
    rw [sendAll, Comp.ensures_bind]
    apply Comp.ensures_mono (puts_sendOp op first here linked exhausted fun _ _ => free _ _)
    rintro r k v ⟨rfl, there, linked', exhausted', _⟩
    rw [Comp.either_ok]
    apply Comp.ensures_mono
      (ih (fun op member => sendable op (List.mem_cons_of_mem _ member)) there linked' exhausted')
    rintro r k' v' ⟨rfl, sent⟩
    exact ⟨rfl, by simp [sent]⟩

/-- The store after an operation of the receiver. -/
def storedBy (sender fs : Fs) : WireOp → Fs
  | .file source destination => (storeFile fs destination (content sender source)).getD fs
  | _ => fs

/-- The result of an operation of the receiver. -/
def outcome : WireOp → Received
  | .command c => .command (.ok (some c))
  | .path p => .path true (genericString p)
  | .file _ _ => .file true

attribute [local irreducible] Comp.ensures

theorem takes_receiveOp (op : WireOp) {rest : List WireOp} (sendable : Sendable sender fuel op)
    (storable : Storable sender fs (op :: rest)) :
    Takes K FileExchange.buf (Somewhere fs log) (receiveOp fuel op) (encodeOp sender op)
      (outcome op) (Somewhere (storedBy sender fs op) log) := by
  cases op with
  | command c =>
    rintro taken written more fe w ⟨p, here⟩
    refine takes_then (takes_receiveCommand c) ?_ here
    exact takes_pure _ fun _ _ now => ⟨p, now⟩
  | path p =>
    rintro taken written more fe w ⟨q, here⟩
    have path : Keeps K FileExchange.buf (At (genericString p) fs log) getPath (genericString p)
      (At (genericString p) fs log) := keeps_getPath
    refine takes_then (takes_receivePath sendable) ?_ here
    refine takes_then (takes_of_keeps path) ?_
    exact takes_pure _ fun _ _ now => ⟨_, now⟩
  | file source destination =>
    obtain ⟨bytes, holds, enough⟩ := sendable
    obtain ⟨after, stores, _⟩ := storable
    have same : content sender source = bytes := by simp [content, holds]
    rw [same] at stores
    have stored : storedBy sender fs (.file source destination) = after := by
      simp [storedBy, same, stores]
    rw [stored, encodeOp, same]
    have fits := (readable_eq_some holds).2.2.2
    refine takes_after (keeps_setPath_somewhere destination) ?_
    exact takes_then (takes_receive stores fits enough) (takes_pure _ fun _ _ now => ⟨_, now⟩)

theorem delivered (op : WireOp) {rest : List WireOp} (sendable : Sendable sender fuel op)
    (storable : Storable sender fs (op :: rest)) :
    Delivered sender op (.ok (outcome op), storedBy sender fs op) ∧
      Storable sender (storedBy sender fs op) rest := by
  cases op with
  | command c => exact ⟨rfl, storable⟩
  | path p => exact ⟨⟨_, rfl, components_genericString p⟩, storable⟩
  | file source destination =>
    obtain ⟨bytes, holds, _⟩ := sendable
    obtain ⟨after, stores, later⟩ := storable
    have same : content sender source = bytes := by simp [content, holds]
    have stored : storedBy sender fs (.file source destination) = after := by
      simp [storedBy, stores]
    rw [stored]
    refine ⟨⟨rfl, bytes, holds, ?_⟩, later⟩
    obtain ⟨opened, opens, rfl⟩ := storeFile_eq_some stores
    rw [same]
    exact entry_put_self (openDestination_opened opens).1

theorem receiveAll_delivers {input taken : List Byte} (ops : List WireOp) {fe : FileExchange}
    {m : Machine} (sendable : ∀ op ∈ ops, Sendable sender fuel op)
    (storable : Storable sender m.world.fs ops) (live : Live input FileExchange.buf taken [] fe m)
    (good : fe.stream.good = true) (complete : input = taken ++ ops.flatMap (encodeOp sender)) :
    List.Forall₂ (Delivered sender) ops (receiveAll fuel ops fe m).1 ∧
      (receiveAll fuel ops fe m).2.1.buf.unread = [] ∧
      (receiveAll fuel ops fe m).2.2.coming = [] := by
  induction ops generalizing taken fe m with
  | nil =>
    rw [List.flatMap_nil, List.append_nil] at complete
    rw [complete] at live
    exact ⟨.nil, live_exhausted live⟩
  | cons op rest ih =>
    have first := sendable op (List.mem_cons_self ..)
    have here : Somewhere m.world.fs m.world.log fe m.world := ⟨fe.path, good, rfl, rfl, rfl⟩
    have within : taken ++ encodeOp sender op <+: input := by
      rw [complete, List.flatMap_cons, ← List.append_assoc]
      exact List.prefix_append ..
    obtain ⟨result, ⟨p, good', _, files, _⟩, live'⟩ :=
      exec_takes (takes_receiveOp op first storable) live here within
    obtain ⟨handed, later⟩ := delivered op first storable
    rw [receiveAll]
    have tail := ih (fun op member => sendable op (List.mem_cons_of_mem _ member))
      (files ▸ later) live' good' (by simpa using complete)
    refine ⟨.cons ?_ tail.1, tail.2⟩
    rwa [result, files]

/-- Whatever was written through one stream and flushed is received whole from the other, on every
    division of the bytes into reads; nothing is left over. -/
theorem wire_round_trip (ops : List WireOp) (fuel : Nat) (mem mem' : Nat → Byte) (p p' : Path)
    (sender receiver : Machine) (sound : sender.Sound) (sound' : receiver.Sound)
    (nothing : sender.world.rcvd = []) (silent : sender.world.sent = [])
    (nothing' : receiver.world.rcvd = []) (silent' : receiver.world.sent = [])
    (sendable : ∀ op ∈ ops, Sendable sender.world.fs fuel op)
    (storable : Storable sender.world.fs receiver.world.fs ops)
    (transmitted : receiver.coming =
      (exec (sendAll fuel ops) (.fresh mem p) sender).2.2.world.sent) :
    (exec (sendAll fuel ops) (.fresh mem p) sender).1 = .ok () ∧
      List.Forall₂ (Delivered sender.world.fs) ops
        (receiveAll fuel ops (.fresh mem' p') receiver).1 ∧
      (receiveAll fuel ops (.fresh mem' p') receiver).2.1.buf.unread = [] ∧
      (receiveAll fuel ops (.fresh mem' p') receiver).2.2.coming = [] := by
  have live := live_fresh mem p sound nothing silent
  have live' := live_fresh mem' p' sound' nothing' silent'
  obtain ⟨⟨done, sent⟩, _⟩ := exec_ensures live (ensures_sendAll ops sendable (fun _ _ => trivial)
    (fresh_somewhere mem p sender.world) live.linked rfl)
  rw [sent, List.nil_append] at transmitted
  exact ⟨done, receiveAll_delivers ops sendable storable live' rfl transmitted⟩

/-- An upload of a three-byte file; the reads cut its path and its size header. -/
theorem wire_round_trip_upload :
    let ops := [.command .kUpload, .path [97], .file [115] [100]]
    let sender : Machine := ⟨⟨Fs.empty.put (key [115]) (.file [1, 2, 3]), [], [], []⟩, [], []⟩
    let receiver : Machine := ⟨⟨.empty, [], [], []⟩, [some ⟨[1, 2, 1, 1, 0, 0], by decide⟩,
      some ⟨[0, 0, 0, 0, 0, 97, 1, 3, 0], by decide⟩,
      some ⟨[0, 0, 0, 0, 0, 0, 1, 2, 3], by decide⟩], []⟩
    (exec (sendAll 4 ops) (.fresh (fun _ => 0) []) sender).1 = .ok () ∧
      List.Forall₂ (Delivered sender.world.fs) ops
        (receiveAll 4 ops (.fresh (fun _ => 0) []) receiver).1 ∧
      (receiveAll 4 ops (.fresh (fun _ => 0) []) receiver).2.1.buf.unread = [] ∧
      (receiveAll 4 ops (.fresh (fun _ => 0) []) receiver).2.2.coming = [] := by
  intro ops sender receiver
  have opens : (storeFile .empty [100] (content sender.world.fs [115])).isSome := by decide +kernel
  obtain ⟨after, stores⟩ := Option.isSome_iff_exists.mp opens
  refine wire_round_trip ops 4 _ _ [] [] sender receiver (by simp [sender, Machine.Sound])
    (by simp [receiver, Machine.Sound]) rfl rfl rfl rfl ?_ ⟨after, stores, trivial⟩
    (by decide +kernel)
  intro op member
  simp only [ops, List.mem_cons, List.not_mem_nil, or_false] at member
  rcases member with rfl | rfl | rfl
  · trivial
  · exact (by decide : (genericString [97]).length < 2 ^ 63)
  · exact ⟨[1, 2, 3], by decide +kernel, by decide⟩

end DropboxWireRoundTrip
