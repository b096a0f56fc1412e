import Dropbox.Failover

/-!
What main takes over from its argument and from config.toml (server/main.cpp)
before the first election. The TOML document is what toml::parse_file gives; its
accessors give no node where toml++ gives a null pointer, and what main does with
a null pointer is undefined.
-/
namespace DropboxConfiguration
open DropboxFailover

inductive Node where
  | table (entries : List (String × Node))
  | array (elements : List Node)
  | string (value : String)
  | integer (value : Int64)
  | other   -- a float, a boolean, a date or a time

/-- operator[] of a table -/
def get (table : List (String × Node)) (key : String) : Option Node := table.lookup key

def Node.asArray : Node → Option (List Node)
  | .array elements => some elements
  | _ => none

def Node.asTable : Node → Option (List (String × Node))
  | .table entries => some entries
  | _ => none

def Node.asString : Node → Option String
  | .string value => some value
  | _ => none

def Node.asInteger : Node → Option Int64
  | .integer value => some value
  | _ => none

/-- static_cast to in_port_t -/
def inPort (value : Int64) : Nat := (value.toInt % 2 ^ 16).toNat

/-- The constructor of Addr. -/
def makeAddr (i : Nat) (ip : String) (port : Nat) : Addr String :=
  ⟨UInt8.ofNat i, ip, port, ⟨ip, port⟩⟩

/-- An iteration of the loop, `none` when it dereferences a null pointer. -/
def serverAt (i : Nat) (server : Node) : Option (Addr String) := do
  let table ← server.asTable
  let ip ← (get table "ip").bind Node.asString
  let port ← (get table "port").bind Node.asInteger
  some (makeAddr i ip (inPort port))

/-- The loop of ParseConfig from position `i`. -/
def collect : Nat → List Node → List (Addr String) → Option (List (Addr String))
  | _, [], serverCollection => some serverCollection
  | i, server :: rest, serverCollection => do
    let addr ← serverAt i server
    collect (i + 1) rest (serverCollection ++ [addr])

inductive Parsed where
  | failed
  | undefined
  | collection (servers : List (Addr String))

/-- The document is `none` when a parse_error was thrown. -/
def parseConfig : Option (List (String × Node)) → Parsed
  | none => .failed
  | some config =>
    match (get config "servers").bind Node.asArray with
    | none => .undefined
    | some servers =>
      match collect 0 servers [] with
      | none => .undefined
      | some collection => .collection collection

/-- std::from_chars into a size_t, `none` for an error. -/
def fromChars (text : List Char) : Option Nat :=
  let digits := text.takeWhile Char.isDigit
  let value := digits.foldl (fun acc c => 10 * acc + (c.toNat - '0'.toNat)) 0
  if digits = [] then none else if value < 2 ^ 64 then some value else none

/-- What main is started with; `signals` says that both handlers were set and `ring` that the
    constructor of Ring, which is given GetAddr(), did not throw. -/
structure Launch where
  argv : List String
  signals : Bool
  document : Option (List (String × Node))
  ring : Bool

inductive Outcome where
  | exits
  | undefined
  | constructed (server : Server String)

/-- main up to its do-while loop. -/
def Launch.main (l : Launch) : Outcome :=
  match l.argv with
  | [_, argument] =>
    match fromChars argument.toList with
    | none => .exits
    | some index =>
      if !l.signals then .exits
      else
        match parseConfig l.document with
        | .failed => .exits
        | .undefined => .undefined
        | .collection servers =>
          match servers[index]? with
          | none => .undefined
          | some _ => if l.ring then .constructed ⟨index, servers, none⟩ else .exits
  | _ => .exits

/-- The number the document has as the port of its server at a position. -/
def portInDocument (config : List (String × Node)) (i : Nat) : Option Int64 := do
  let servers ← (get config "servers").bind Node.asArray
  let table ← (← servers[i]?).asTable
  (get table "port").bind Node.asInteger

/-- An own index below the number of servers, ids that are the positions, and the ports of the
    document. -/
structure TakenOver (document : Option (List (String × Node))) (s : Server String) : Prop where
  index : s.addrIndex < s.servers.length
  distinct : (s.servers.map Addr.id).Nodup
  positions : ∀ i (a : Addr String), s.servers[i]? = some a → a.id.toNat = i
  ports : ∀ i (a : Addr String), s.servers[i]? = some a →
    ∃ config value, document = some config ∧ portInDocument config i = some value ∧
      value.toInt = a.port

def Outcome.sound (document : Option (List (String × Node))) : Outcome → Prop
  | .exits => True
  | .undefined => False
  | .constructed s => TakenOver document s

/-- A document without servers. -/
theorem missing_servers_are_dereferenced :
    ¬ ∀ l : Launch, l.main.sound l.document := by
  intro claim
  exact claim ⟨["dropbox_server", "0"], true, some [], true⟩

theorem addr_id {i : Nat} {ip : String} {port : Nat} :
    (makeAddr i ip port).id.toNat = i ↔ i < 256 := by
  simp only [makeAddr, UInt8.toNat_ofNat']
  omega

theorem in_port_exact {value : Int64} :
    value.toInt = inPort value ↔ 0 ≤ value.toInt ∧ value.toInt < 2 ^ 16 := by
  unfold inPort
  omega

theorem server_at {i : Nat} {server : Node} {a : Addr String} :
    serverAt i server = some a ↔ ∃ table ip port, server.asTable = some table ∧
      (get table "ip").bind Node.asString = some ip ∧
      (get table "port").bind Node.asInteger = some port ∧ a = makeAddr i ip (inPort port) := by
  simp only [serverAt, Option.bind_eq_bind, Option.bind_eq_some_iff, Option.some.injEq]
  constructor
  · rintro ⟨table, isTable, ip, hasIp, port, hasPort, rfl⟩
    exact ⟨table, ip, port, isTable, hasIp, hasPort, rfl⟩
  · rintro ⟨table, ip, port, isTable, hasIp, hasPort, rfl⟩
    exact ⟨table, isTable, ip, hasIp, port, hasPort, rfl⟩

/-- The loop goes through exactly when each of its iterations does, and appends what they give. -/
theorem collect_some {i : Nat} {servers : List Node} {before out : List (Addr String)} :
    collect i servers before = some out ↔ ∃ added, out = before ++ added ∧
      added.length = servers.length ∧
      ∀ k server, servers[k]? = some server → serverAt (i + k) server = added[k]? := by
  induction servers generalizing i before with
  | nil =>
    simp only [collect, Option.some.injEq, List.length_nil, List.length_eq_zero_iff]
    constructor
    · rintro rfl
      exact ⟨[], by simp, rfl, by simp⟩
    · rintro ⟨added, rfl, rfl, _⟩
      simp
  | cons server rest ih =>
    simp only [collect, Option.bind_eq_bind, Option.bind_eq_some_iff]
    constructor
    · rintro ⟨addr, first, tail⟩
      obtain ⟨added, rfl, sameLength, each⟩ := ih.mp tail
      refine ⟨addr :: added, by simp, by simp [sameLength], fun k e found => ?_⟩
      cases k with
      | zero =>
        obtain rfl : server = e := by simpa using found
        simpa using first
      | succ k =>
        have later := each k e (by simpa using found)
        rw [show i + (k + 1) = i + 1 + k by omega, later]
        simp
    · rintro ⟨added, rfl, sameLength, each⟩
      cases added with
      | nil => simp at sameLength
      | cons addr added =>
        refine ⟨addr, by simpa using each 0 server rfl, ih.mpr ⟨added, by simp, ?_, ?_⟩⟩
        · simpa using sameLength
        · intro k e found
          have later := each (k + 1) e (by simpa using found)
          rw [show i + 1 + k = i + (k + 1) by omega, later]
          simp

/-- What a document and the start have to be for main to take them over exactly. -/
def Launch.WellFormed (l : Launch) : Prop :=
  ∀ program argument index config, l.argv = [program, argument] →
    fromChars argument.toList = some index → l.signals = true → l.document = some config →
    ∃ servers, (get config "servers").bind Node.asArray = some servers ∧
      index < servers.length ∧ (l.ring = true → servers.length ≤ 256) ∧
      ∀ server ∈ servers, ∃ table ip port, server.asTable = some table ∧
        (get table "ip").bind Node.asString = some ip ∧
        (get table "port").bind Node.asInteger = some port ∧
        (l.ring = true → 0 ≤ port.toInt ∧ port.toInt < 2 ^ 16)

theorem collect_goes_through {servers : List Node} {i : Nat} {before : List (Addr String)}
    (each : ∀ server ∈ servers, ∀ k, ∃ a, serverAt k server = some a) :
    ∃ out, collect i servers before = some out := by
  induction servers generalizing i before with
  | nil => exact ⟨before, rfl⟩
  | cons server rest ih =>
    obtain ⟨a, first⟩ := each server List.mem_cons_self i
    obtain ⟨out, tail⟩ : ∃ out, collect (i + 1) rest (before ++ [a]) = some out :=
      ih fun e within => each e (List.mem_cons_of_mem server within)
    exact ⟨out, by simp only [collect, first, Option.bind_eq_bind, Option.bind_some, tail]⟩

/-- The servers collected are those of the document, each at its position. -/
theorem collected {config : List (String × Node)} {servers : List Node} {out : List (Addr String)}
    (isArray : (get config "servers").bind Node.asArray = some servers)
    (loop : collect 0 servers [] = some out) :
    out.length = servers.length ∧ ∀ k server, servers[k]? = some server →
      ∃ table ip port, server.asTable = some table ∧
        (get table "ip").bind Node.asString = some ip ∧
        (get table "port").bind Node.asInteger = some port ∧
        out[k]? = some (makeAddr k ip (inPort port)) ∧ portInDocument config k = some port := by
  obtain ⟨added, same, sameLength, each⟩ := collect_some.mp loop
  obtain rfl : out = added := same
  refine ⟨sameLength, fun k server found => ?_⟩
  have there : k < out.length := sameLength ▸ (List.getElem?_eq_some_iff.mp found).1
  have this := each k server found
  rw [Nat.zero_add, List.getElem?_eq_getElem there] at this
  obtain ⟨table, ip, port, isTable, hasIp, hasPort, same⟩ := server_at.mp this
  refine ⟨table, ip, port, isTable, hasIp, hasPort, ?_, ?_⟩
  · rw [List.getElem?_eq_getElem there, same]
  · simp [portInDocument, isArray, found, isTable, hasPort]

theorem ids_distinct {servers : List (Addr String)}
    (positions : ∀ i (a : Addr String), servers[i]? = some a → a.id.toNat = i) :
    (servers.map Addr.id).Nodup := by
  rw [List.nodup_iff_pairwise_ne, List.pairwise_iff_getElem]
  intro i j hi hj before same
  simp only [List.length_map] at hi hj
  simp only [List.getElem_map] at same
  have atI := positions i _ (List.getElem?_eq_getElem hi)
  have atJ := positions j _ (List.getElem?_eq_getElem hj)
  rw [same] at atI
  omega

/-- The servers in memory are those of the document exactly when no narrowing wraps. -/
theorem taken_over_iff {config : List (String × Node)} {servers : List Node} {index : Nat}
    {out : List (Addr String)} (isArray : (get config "servers").bind Node.asArray = some servers)
    (loop : collect 0 servers [] = some out) (own : index < out.length) :
    TakenOver (some config) ⟨index, out, none⟩ ↔ servers.length ≤ 256 ∧
      ∀ k port, k < servers.length → portInDocument config k = some port →
        0 ≤ port.toInt ∧ port.toInt < 2 ^ 16 := by
  obtain ⟨sameLength, each⟩ := collected isArray loop
  constructor
  · rintro ⟨_, _, positions, ports⟩
    constructor
    · by_contra many
      have there : 256 < servers.length := by omega
      obtain ⟨table, ip, port, _, _, _, found, _⟩ :=
        each 256 _ (List.getElem?_eq_getElem there)
      have wrapped := addr_id.mp (positions 256 _ found)
      omega
    · intro k port inside written
      obtain ⟨table, ip, value, _, _, _, found, same⟩ :=
        each k _ (List.getElem?_eq_getElem inside)
      obtain ⟨_, number, isDocument, read, exact⟩ := ports k _ found
      cases isDocument
      obtain rfl : port = number := Option.some.inj (written.symm.trans read)
      obtain rfl : port = value := Option.some.inj (written.symm.trans same)
      exact in_port_exact.mp exact
  · rintro ⟨few, inRange⟩
    have positions : ∀ i (a : Addr String), out[i]? = some a → a.id.toNat = i := by
      intro i a found
      have inside : i < servers.length := sameLength ▸ (List.getElem?_eq_some_iff.mp found).1
      obtain ⟨table, ip, port, _, _, _, there, _⟩ := each i _ (List.getElem?_eq_getElem inside)
      obtain rfl := Option.some.inj (found.symm.trans there)
      exact addr_id.mpr (by omega)
    refine ⟨own, ids_distinct positions, positions, fun i a found => ?_⟩
    have inside : i < servers.length := sameLength ▸ (List.getElem?_eq_some_iff.mp found).1
    obtain ⟨table, ip, port, _, _, _, there, written⟩ :=
      each i _ (List.getElem?_eq_getElem inside)
    obtain rfl := Option.some.inj (found.symm.trans there)
    exact ⟨config, port, rfl, written, in_port_exact.mpr (inRange i port inside written)⟩

theorem well_formed_of_sound {l : Launch} (sound : l.main.sound l.document) : l.WellFormed := by
  intro program argument index config isArgv isIndex signals isDocument
  simp only [Launch.main, isArgv, isIndex, signals, isDocument, parseConfig] at sound
  cases isArray : (get config "servers").bind Node.asArray with
  | none => simp [isArray, Outcome.sound] at sound
  | some servers =>
    cases loop : collect 0 servers [] with
    | none => simp [isArray, loop, Outcome.sound] at sound
    | some out =>
      obtain ⟨sameLength, each⟩ := collected isArray loop
      have own : index < out.length := by
        by_contra outside
        simp [isArray, loop, List.getElem?_eq_none (by omega : out.length ≤ index),
          Outcome.sound] at sound
      simp only [isArray, loop, List.getElem?_eq_getElem own] at sound
      have numbers : l.ring = true → servers.length ≤ 256 ∧
          ∀ k port, k < servers.length → portInDocument config k = some port →
            0 ≤ port.toInt ∧ port.toInt < 2 ^ 16 := by
        intro ring
        simp only [ring, Bool.not_true, Bool.false_eq_true, if_false, if_true,
          Outcome.sound] at sound
        exact (taken_over_iff isArray loop own).mp sound
      refine ⟨servers, rfl, by omega, fun ring => (numbers ring).1, fun server within => ?_⟩
      obtain ⟨k, inside, rfl⟩ := List.mem_iff_getElem.mp within
      obtain ⟨table, ip, port, isTable, hasIp, hasPort, _, written⟩ :=
        each k _ (List.getElem?_eq_getElem inside)
      exact ⟨table, ip, port, isTable, hasIp, hasPort,
        fun ring => (numbers ring).2 k port inside written⟩

theorem sound_of_well_formed {l : Launch} (wellFormed : l.WellFormed) :
    l.main.sound l.document := by
  unfold Launch.main
  split
  · rename_i program argument isArgv
    split
    · trivial
    · rename_i index isIndex
      split
      · trivial
      · rename_i signals
        cases isDocument : l.document with
        | none => trivial
        | some config =>
          obtain ⟨servers, isArray, own, few, each⟩ := wellFormed program argument index config
            isArgv isIndex (by simpa using signals) isDocument
          obtain ⟨out, loop⟩ : ∃ out, collect 0 servers [] = some out :=
            collect_goes_through fun server within k => by
              obtain ⟨table, ip, port, isTable, hasIp, hasPort, _⟩ := each server within
              exact ⟨_, server_at.mpr ⟨table, ip, port, isTable, hasIp, hasPort, rfl⟩⟩
          obtain ⟨sameLength, found⟩ := collected isArray loop
          have own' : index < out.length := by omega
          simp only [parseConfig, isArray, loop, List.getElem?_eq_getElem own']
          split
          · rename_i ring
            refine (taken_over_iff isArray loop own').mpr ⟨few ring, fun k port inside written => ?_⟩
            obtain ⟨table, ip, value, isTable, hasIp, hasPort, inRange⟩ :=
              each servers[k] (List.getElem_mem inside)
            obtain ⟨table', ip', value', isTable', _, hasPort', _, written'⟩ :=
              found k _ (List.getElem?_eq_getElem inside)
            obtain rfl := Option.some.inj (isTable.symm.trans isTable')
            obtain rfl := Option.some.inj (hasPort.symm.trans hasPort')
            obtain rfl := Option.some.inj (written.symm.trans written')
            exact inRange ring
          · trivial
  · trivial

/-- A start is taken over exactly, or ends in time, when and only when it is well formed. -/
theorem configuration_taken_over_iff (l : Launch) :
    l.main.sound l.document ↔ l.WellFormed :=
  ⟨well_formed_of_sound, sound_of_well_formed⟩

/-- Then the id that goes around in an election stands for one server. -/
theorem own_id {document : Option (List (String × Node))} {s : Server String}
    (taken : TakenOver document s) : s.getId.toNat = s.addrIndex ∧
      ∃ a, s.servers[s.addrIndex]? = some a ∧ a.id = s.getId := by
  obtain ⟨a, found⟩ : ∃ a, s.servers[s.addrIndex]? = some a :=
    ⟨_, List.getElem?_eq_getElem taken.index⟩
  have position := taken.positions s.addrIndex a found
  have bound := a.id.toNat_lt
  have small : s.getId.toNat = s.addrIndex := by
    simp only [Server.getId, UInt8.toNat_ofNat']
    omega
  exact ⟨small, a, found, UInt8.toNat_inj.mp (position.trans small.symm)⟩

end DropboxConfiguration
