import Dropbox.ClientHandler
import Dropbox.General.TextStream
import Dropbox.ProtocolRules

/-!
The list of servers a client reconnects with: Primary::SetServers joins the IPs, the
handler sends the text, the client takes it over and SyncFromServer splits it while
its attempts to reconnect fail (client/client.cpp). An IP is looked at up to its first
NUL, by Addr and by ReconnectToServer.
-/
namespace DropboxServerList
open DropboxFileStore DropboxHost DropboxSocketStream DropboxStreamRules DropboxProtocol
open DropboxProtocolRules DropboxClientHandler Programs TextStream

def blank : Byte := 32

/-- Primary::SetServers on what `servers_` has. -/
def setServers (servers : List Byte) (ips : List (List Byte)) : List Byte :=
  ips.foldl (fun servers ip => servers ++ (ip ++ [blank])) servers

/-- What Client::SyncFromClient does first. -/
def receiveServers : Io FileExchange (List Byte) :=
  onRdbuf do
    let swap ← inputArchive
    loadString swap

/-- The locals of SyncFromServer while it reconnects. -/
structure Reconnecting where
  iss : Istringstream Byte
  serverIpAddress : List Byte
  deriving DecidableEq, Repr

/-- std::getline(iss, server_ip_address, ' ') -/
def Reconnecting.next (r : Reconnecting) : Reconnecting :=
  let (iss, serverIpAddress) := r.iss.getline (· == blank) r.serverIpAddress
  ⟨iss, serverIpAddress⟩

def connecting (servers : List Byte) : Reconnecting := Reconnecting.next ⟨.over servers, []⟩

/-- After so many calls of ReconnectToServer that returned false. -/
def afterFailures (servers : List Byte) : Nat → Reconnecting
  | 0 => connecting servers
  | t + 1 => (afterFailures servers t).next

/-- The address that the call after these failures goes to. -/
def attempt (servers : List Byte) (t : Nat) : List Byte :=
  cString (afterFailures servers t).serverIpAddress

/-- Each of the first attempts goes to a listed address, and any `ips.length` of them in a row go
    to all. -/
structure KeepsTrying (ips : List (List Byte)) (servers : List Byte) (attempts : Nat) : Prop where
  listed : ∀ t < attempts, ∃ ip ∈ ips, attempt servers t = cString ip
  all : ∀ t, t + ips.length ≤ attempts → ∀ ip ∈ ips,
    ∃ k, t ≤ k ∧ k < t + ips.length ∧ attempt servers k = cString ip

theorem set_servers_append (servers : List Byte) (ips : List (List Byte)) :
    setServers servers ips = servers ++ setServers [] ips := by
  induction ips generalizing servers with
  | nil => simp [setServers]
  | cons ip ips ih =>
    have step : ∀ before, setServers before (ip :: ips) = setServers (before ++ (ip ++ [blank])) ips :=
      fun _ => rfl
    rw [step, step, ih, ih ([] ++ (ip ++ [blank]))]
    simp

theorem set_servers_cons (ip : List Byte) (ips : List (List Byte)) :
    setServers [] (ip :: ips) = ip ++ blank :: setServers [] ips := by
  have step : setServers [] (ip :: ips) = setServers (ip ++ [blank]) ips := rfl
  rw [step, set_servers_append]
  simp

/-- Where the loop is with these addresses to come: it has taken the first of them. -/
def reached : List (List Byte) → Reconnecting
  | [] => ⟨⟨[], false⟩, []⟩
  | ip :: left => ⟨.over (setServers [] left), ip⟩

theorem next_takes {left : List (List Byte)} (solid : ∀ ip ∈ left, blank ∉ ip) (old : List Byte) :
    Reconnecting.next ⟨.over (setServers [] left), old⟩ = reached left := by
  cases left with
  | nil =>
    unfold Reconnecting.next setServers
    rw [List.foldl_nil, getline_end]
    rfl
  | cons ip left =>
    have inside : ∀ c ∈ ip, (c == blank) = false := by
      intro c within
      have other : c ≠ blank := by
        rintro rfl
        exact solid ip List.mem_cons_self within
      simpa using other
    unfold Reconnecting.next
    rw [set_servers_cons, getline_field inside (by simp)]
    rfl

/-- Every failure moves on by one address; after the last one the string stays empty. -/
theorem after_failures {ips : List (List Byte)} (solid : ∀ ip ∈ ips, blank ∉ ip) (t : Nat) :
    afterFailures (setServers [] ips) t = reached (ips.drop t) := by
  induction t with
  | zero => exact next_takes solid []
  | succ t ih =>
    rw [afterFailures, ih, ← List.tail_drop]
    cases left : ips.drop t with
    | nil =>
      unfold reached Reconnecting.next
      rw [getline_done]
      rfl
    | cons ip rest =>
      refine next_takes (fun other within => solid other ?_) ip
      exact List.mem_of_mem_drop (left ▸ List.mem_cons_of_mem ip within)

theorem attempt_listed {ips : List (List Byte)} (solid : ∀ ip ∈ ips, blank ∉ ip) {t : Nat}
    (inside : t < ips.length) : attempt (setServers [] ips) t = cString ips[t] := by
  rw [attempt, after_failures solid, List.drop_eq_getElem_cons inside]
  rfl

theorem attempt_nowhere {ips : List (List Byte)} (solid : ∀ ip ∈ ips, blank ∉ ip) {t : Nat}
    (outside : ips.length ≤ t) : attempt (setServers [] ips) t = [] := by
  rw [attempt, after_failures solid, List.drop_eq_nil_of_le outside]
  rfl

/-- One pass over the list; after it the attempts go to the empty address, which would have to be
    in the list, and the others in what is left of the list. -/
theorem keeps_trying_iff {ips : List (List Byte)} (solid : ∀ ip ∈ ips, blank ∉ ip)
    (attempts : Nat) : KeepsTrying ips (setServers [] ips) attempts ↔ attempts ≤ ips.length ∨
      (∃ ip ∈ ips, cString ip = []) ∧ ∀ ip ∈ ips, cString ip ≠ [] →
        ∃ other ∈ ips.drop (attempts - ips.length), cString other = cString ip := by
  constructor
  · rintro ⟨listed, all⟩
    by_cases onePass : attempts ≤ ips.length
    · exact Or.inl onePass
    · refine Or.inr ⟨?_, fun ip within present => ?_⟩
      · obtain ⟨ip, within, same⟩ := listed ips.length (by omega)
        rw [attempt_nowhere solid (Nat.le_refl _)] at same
        exact ⟨ip, within, same.symm⟩
      · obtain ⟨k, late, early, same⟩ := all (attempts - ips.length) (by omega) ip within
        have inside : k < ips.length := by
          by_contra outside
          rw [attempt_nowhere solid (by omega)] at same
          exact present same.symm
        rw [attempt_listed solid inside] at same
        obtain ⟨j, rfl⟩ := Nat.exists_eq_add_of_le late
        exact ⟨_, List.mem_drop_iff_getElem.mpr ⟨j, by omega, rfl⟩, same⟩
  · rintro (onePass | ⟨⟨empty, isListed, isEmpty⟩, left⟩)
    · refine ⟨fun t before => ?_, fun t within ip member => ?_⟩
      · have inside : t < ips.length := by omega
        exact ⟨ips[t], List.getElem_mem inside, attempt_listed solid inside⟩
      · obtain ⟨k, inside, rfl⟩ := List.mem_iff_getElem.mp member
        exact ⟨k, by omega, by omega, attempt_listed solid inside⟩
    · refine ⟨fun t before => ?_, fun t within ip member => ?_⟩
      · by_cases inside : t < ips.length
        · exact ⟨ips[t], List.getElem_mem inside, attempt_listed solid inside⟩
        · exact ⟨empty, isListed, by rw [attempt_nowhere solid (by omega), isEmpty]⟩
      · obtain ⟨k, inside, rfl⟩ := List.mem_iff_getElem.mp member
        by_cases present : cString ips[k] = []
        · by_cases first : t = 0
          · exact ⟨k, by omega, by omega, attempt_listed solid inside⟩
          · refine ⟨t + ips.length - 1, by omega, by omega, ?_⟩
            rw [attempt_nowhere solid (by omega), present]
        · obtain ⟨other, inLeft, same⟩ := left _ member present
          obtain ⟨j, there, rfl⟩ := List.mem_drop_iff_getElem.mp inLeft
          refine ⟨attempts - ips.length + j, by omega, by omega, ?_⟩
          rw [attempt_listed solid (by omega), same]

theorem takes_receiveServers {servers : List Byte} {p : Path} {fs : Fs} {log : List Event}
    {K : Contract} (fits : servers.length < 2 ^ 63) :
    Takes K FileExchange.buf (At p fs log) receiveServers (encodeString servers) servers
      (At p fs log) :=
  takes_onRdbuf (takes_bind takes_inputArchive (takes_loadString fits))

theorem ensures_sendsServers {servers : List Byte} {fuel : Nat} {p : Path} {fs : Fs}
    {log : List Event} {K : Contract} {taken written : List Byte} {fe : FileExchange} {w : World}
    (free : ∀ r s, K.sending r s) (here : At p fs log fe w)
    (linked : Linked K taken written fe.buf w) (exhausted : fe.buf.unread = []) :
    Comp.ensures K.env (syncFromClient fuel servers 0)
      (fun r _ v => r = .ok () ∧ v.sent = written ++ encodeString servers) fe w := by
  have saves : Puts K id (Files fs log) (do outputArchive; saveString servers)
      (encodeString servers) () (Files fs log) :=
    puts_bind (puts_saveBinary [1]) (puts_saveString servers)
  rw [syncFromClient, Comp.ensures_bind]
  apply Comp.ensures_mono (puts_onRdbuf saves here linked exhausted fun _ _ => free _ _)
  rintro r k v ⟨rfl, there, linked', _, _⟩
  rw [Comp.either_ok, Comp.ensures_bind]
  apply Comp.ensures_mono (ensures_flushExchange there linked' (free _ _))
  rintro r k' v' ⟨rfl, _, _, _, rfl⟩
  exact ⟨rfl, rfl⟩

theorem fresh_at (mem : Nat → Byte) (p : Path) (w : World) :
    At p w.fs w.log (FileExchange.fresh mem p) w := ⟨rfl, rfl, rfl, rfl⟩

attribute [local irreducible] Comp.ensures

/-- The client has the text of the server, on every division of the bytes into reads. -/
theorem servers_arrive {servers : List Byte} (fuel : Nat) (mem mem' : Nat → Byte) (p p' : Path)
    {sender receiver : Machine} (sound : sender.Sound) (sound' : receiver.Sound)
    (nothing : sender.world.rcvd = []) (silent : sender.world.sent = [])
    (nothing' : receiver.world.rcvd = []) (silent' : receiver.world.sent = [])
    (fits : servers.length < 2 ^ 63)
    (transmitted : (exec (syncFromClient fuel servers 0) (.fresh mem p) sender).2.2.world.sent <+:
      receiver.coming) :
    (exec receiveServers (.fresh mem' p') receiver).1 = .ok servers := by
  have live := live_fresh mem p sound nothing silent
  have live' := live_fresh mem' p' sound' nothing' silent'
  have sends : Comp.ensures (delivers sender.coming).env (syncFromClient fuel servers 0)
      (fun r _ v => r = .ok () ∧ v.sent = [] ++ encodeString servers) (.fresh mem p) sender.world :=
    ensures_sendsServers (fun _ _ => trivial) (fresh_at mem p sender.world) live.linked rfl
  obtain ⟨⟨_, sent⟩, _⟩ := exec_ensures live sends
  rw [sent] at transmitted
  exact (exec_takes (takes_receiveServers fits) live' (fresh_at mem' p' receiver.world)
    transmitted).1

/-- The client tries the servers of the list it was sent, again and again, for as many attempts as
    the list is long; for more only where the empty address stands in it. -/
theorem retries_listed_iff (ips : List (List Byte)) (fuel : Nat) (mem mem' : Nat → Byte)
    (p p' : Path) (sender receiver : Machine) (sound : sender.Sound) (sound' : receiver.Sound)
    (nothing : sender.world.rcvd = []) (silent : sender.world.sent = [])
    (nothing' : receiver.world.rcvd = []) (silent' : receiver.world.sent = [])
    (solid : ∀ ip ∈ ips, blank ∉ ip) (fits : (setServers [] ips).length < 2 ^ 63)
    (transmitted : (exec (syncFromClient fuel (setServers [] ips) 0) (.fresh mem p)
      sender).2.2.world.sent <+: receiver.coming) :
    ∃ servers, (exec receiveServers (.fresh mem' p') receiver).1 = .ok servers ∧
      ∀ attempts, KeepsTrying ips servers attempts ↔ attempts ≤ ips.length ∨
        (∃ ip ∈ ips, cString ip = []) ∧ ∀ ip ∈ ips, cString ip ≠ [] →
          ∃ other ∈ ips.drop (attempts - ips.length), cString other = cString ip :=
  ⟨setServers [] ips, servers_arrive fuel mem mem' p p' sound sound' nothing silent nothing' silent'
    fits transmitted, keeps_trying_iff solid⟩

/-- The only server is not back when the first attempt is made. -/
theorem second_pass_goes_nowhere :
    ¬ ∀ (ips : List (List Byte)) (attempts : Nat), (∀ ip ∈ ips, blank ∉ ip) →
      KeepsTrying ips (setServers [] ips) attempts := by
  intro claim
  obtain ⟨ip, within, same⟩ := (claim [[49]] 2 (by decide)).listed 1 (by decide)
  obtain rfl := List.mem_singleton.mp within
  exact absurd same (by decide)

/-- Two servers; the reads cut the text. -/
theorem retries_listed_iff_two :
    let ips : List (List Byte) := [[49], [50]]
    let receiver : Machine := ⟨⟨.empty, [], [], []⟩, [some ⟨[1, 4, 0, 0, 0], by decide⟩,
      some ⟨[0, 0, 0, 0, 49, 32], by decide⟩, some ⟨[50, 32], by decide⟩], []⟩
    ∃ servers, (exec receiveServers (.fresh (fun _ => 0) []) receiver).1 = .ok servers ∧
      ∀ attempts, KeepsTrying ips servers attempts ↔ attempts ≤ ips.length ∨
        (∃ ip ∈ ips, cString ip = []) ∧ ∀ ip ∈ ips, cString ip ≠ [] →
          ∃ other ∈ ips.drop (attempts - ips.length), cString other = cString ip := by
  intro ips receiver
  exact retries_listed_iff ips 0 (fun _ => 0) (fun _ => 0) [] []
    ⟨⟨.empty, [], [], []⟩, [], []⟩ receiver (by simp [Machine.Sound])
    (by simp [receiver, Machine.Sound]) rfl rfl rfl rfl (by decide) (by decide) (by decide +kernel)

end DropboxServerList
