import Mathlib.Data.List.Infix
import Dropbox.General.SideBySide
import Dropbox.StreamRules

/-!
Two owners of the ends of one connection that exchange requests and replies. The
contract of each side is what the other side may rely on: the client does not send
past a request before it has the reply to it, and the server does not answer a
request before it has all of it. Requests without a reply may be sent ahead.
-/
namespace DropboxDialogue
open DropboxFileStore DropboxHost DropboxSocketStream DropboxStreamRules
open Programs SideBySide Transitions

/-- A request, never empty, and the reply to it, if any. -/
structure Exchange where
  request : List Byte
  reply : List Byte
  asks : request ≠ []

def requests (es : List Exchange) : List Byte := es.flatMap Exchange.request

def replies (es : List Exchange) : List Byte := es.flatMap Exchange.reply

/-- What the client may have sent when it has received this much. -/
def Requested (es : List Exchange) (sent rcvd : List Byte) : Prop :=
  sent <+: requests es ∧ ∀ done, done <+: es → (requests done).length < sent.length →
    (replies done).length ≤ rcvd.length

/-- What the server may have sent when it has received this much. -/
def Replied (es : List Exchange) (sent rcvd : List Byte) : Prop :=
  sent <+: replies es ∧ ∀ done e, done ++ [e] <+: es → (replies done).length < sent.length →
    (requests (done ++ [e])).length ≤ rcvd.length

/-- The client waits for the rest of a reply. -/
def ClientWaits (es : List Exchange) (rcvd sent : List Byte) : Prop :=
  ∃ done e, done ++ [e] <+: es ∧ sent = requests (done ++ [e]) ∧
    rcvd.length < (replies (done ++ [e])).length

/-- The server has answered all it has received, and waits for the rest of a request; when there are
    no more, its work is done. -/
def ServerWaits (es : List Exchange) (finished : Prop) (rcvd sent : List Byte) : Prop :=
  ∃ done todo, es = done ++ todo ∧ sent = replies done ∧ requests done <+: rcvd ∧
    (∀ e more, todo = e :: more → rcvd.length < (requests (done ++ [e])).length) ∧
    (todo = [] → finished)

variable {es done more : List Exchange} {e : Exchange} {sent rcvd extra : List Byte}

@[simp] theorem requests_append (xs ys : List Exchange) :
    requests (xs ++ ys) = requests xs ++ requests ys := List.flatMap_append ..

@[simp] theorem replies_append (xs ys : List Exchange) :
    replies (xs ++ ys) = replies xs ++ replies ys := List.flatMap_append ..

@[simp] theorem requests_single (e : Exchange) : requests [e] = e.request := by simp [requests]

@[simp] theorem replies_single (e : Exchange) : replies [e] = e.reply := by simp [replies]

theorem requests_longer (done : List Exchange) (e : Exchange) :
    (requests done).length < (requests (done ++ [e])).length := by
  have filled := List.length_pos_iff.mpr e.asks
  rw [requests_append, requests_single, List.length_append]
  omega

/-- Of two beginnings of the dialogue, the one with fewer request bytes comes first. -/
theorem earlier {xs ys : List Exchange} (first : xs <+: es) (second : ys <+: es)
    (fewer : (requests xs).length < (requests ys).length) : xs <+: ys := by
  rcases List.prefix_or_prefix_of_prefix first second with before | after
  · exact before
  · have longer := (List.IsPrefix.flatMap after Exchange.request).length_le
    exact absurd (Nat.lt_of_lt_of_le fewer longer) (Nat.lt_irrefl _)

theorem prefix_requests {xs ys : List Exchange} (within : xs <+: ys) : requests xs <+: requests ys :=
  List.IsPrefix.flatMap within _

theorem prefix_replies {xs ys : List Exchange} (within : xs <+: ys) : replies xs <+: replies ys :=
  List.IsPrefix.flatMap within _

theorem requested_all (within : done <+: es) : Requested es (requests done) (replies done) :=
  ⟨prefix_requests within, fun _ inside fewer =>
    (prefix_replies (earlier inside within fewer)).length_le⟩

/-- The client may send a request when it has all replies before it. -/
theorem requested_next (within : done ++ [e] <+: es) {part : List Byte} (some_of : part <+: e.request) :
    Requested es (requests done ++ part) (replies done) := by
  have inside : requests done ++ part <+: requests (done ++ [e]) := by
    rw [requests_append, requests_single]
    exact (List.prefix_append_right_inj _).mpr some_of
  refine ⟨inside.trans (prefix_requests within), fun xs early fewer => ?_⟩
  have shorter := Nat.lt_of_lt_of_le fewer inside.length_le
  rcases List.prefix_concat_iff.mp (earlier early within shorter) with rfl | before
  · exact absurd shorter (Nat.lt_irrefl _)
  · exact (prefix_replies before).length_le

theorem replied_all (within : done <+: es) : Replied es (replies done) (requests done) := by
  refine ⟨prefix_replies within, fun xs next inside fewer => ?_⟩
  rcases List.prefix_or_prefix_of_prefix inside within with before | after
  · exact (prefix_requests before).length_le
  · rcases List.prefix_concat_iff.mp after with rfl | shorter
    · exact Nat.le_refl _
    · have longer := (prefix_replies shorter).length_le
      omega

/-- The server may send a reply when it has all of the request. -/
theorem replied_next (within : done ++ [e] <+: es) {part : List Byte} (some_of : part <+: e.reply) :
    Replied es (replies done ++ part) (requests done ++ e.request) := by
  rw [← requests_single e, ← requests_append]
  have inside : replies done ++ part <+: replies (done ++ [e]) := by
    rw [replies_append, replies_single]
    exact (List.prefix_append_right_inj _).mpr some_of
  refine ⟨inside.trans (prefix_replies within), fun xs next early fewer => ?_⟩
  have whole := (replied_all within).2 xs next early
  exact whole (Nat.lt_of_lt_of_le fewer inside.length_le)

theorem requested_more (requested : Requested es sent rcvd) (more : List Byte) :
    Requested es sent (rcvd ++ more) := by
  refine ⟨requested.1, fun done within fewer => ?_⟩
  have answered := requested.2 done within fewer
  rw [List.length_append]
  omega

theorem replied_more (replied : Replied es sent rcvd) (more : List Byte) :
    Replied es sent (rcvd ++ more) := by
  refine ⟨replied.1, fun done e within fewer => ?_⟩
  have whole := replied.2 done e within fewer
  rw [List.length_append]
  omega

/-- A part of what was sent, received by the other side. -/
theorem requested_arrives {sent' rcvd' : List Byte} (requested : Requested es sent rcvd)
    (part : rcvd' <+: sent) (known : rcvd <+: sent') : Requested es rcvd' sent' := by
  refine ⟨part.trans requested.1, fun done within fewer => ?_⟩
  have answered := requested.2 done within (Nat.lt_of_lt_of_le fewer part.length_le)
  exact Nat.le_trans answered known.length_le

theorem replied_arrives {sent' rcvd' : List Byte} (replied : Replied es sent rcvd)
    (part : rcvd' <+: sent) (known : rcvd <+: sent') : Replied es rcvd' sent' := by
  refine ⟨part.trans replied.1, fun done e within fewer => ?_⟩
  have whole := replied.2 done e within (Nat.lt_of_lt_of_le fewer part.length_le)
  exact Nat.le_trans whole known.length_le

/-- The client's side; `told` is all it is going to log. -/
def clientContract (es : List Exchange) (told : List Event) : Contract where
  input := replies es
  arrived rcvd sent := Replied es rcvd sent
  ended _ := False
  waiting _ _ rcvd sent := ClientWaits es rcvd sent
  sending rcvd sent := Requested es sent rcvd
  logging log e := log ++ [e] <+: told
  arrived_prefix arrived := arrived.1
  arrived_mono more arrived := replied_more arrived more
  ended_input _ never := never.elim

/-- The server's side; `finished` is what its files and its log come to when all requests are
    answered. -/
def serverContract (es : List Exchange) (finished : Fs → List Event → Prop) (told : List Event) :
    Contract where
  input := requests es
  arrived rcvd sent := Requested es rcvd sent
  ended _ := False
  waiting now log rcvd sent := ServerWaits es (finished now log) rcvd sent
  sending rcvd sent := Replied es sent rcvd
  logging log e := log ++ [e] <+: told
  arrived_prefix arrived := arrived.1
  arrived_mono more arrived := requested_more arrived more
  ended_input _ never := never.elim

/-- How many bytes a read delivers, and whether a broadcast succeeds. -/
structure Choice where
  chunk : Nat
  success : Bool

/-- A call of one side. A read waits for bytes that the other side has sent. -/
def calls : Calls Sys Sys.Reply World World Choice
  | w, other, .recv n, c =>
    let coming := (other.sent.drop w.rcvd.length).take (min c.chunk n)
    if n = 0 ∨ coming ≠ [] then some (some coming, { w with rcvd := w.rcvd ++ coming }) else none
  | w, _, .send bytes, _ => some (some bytes.length, { w with sent := w.sent ++ bytes })
  | w, _, .file f, _ => some ((fileCall w.fs f).1, { w with fs := (fileCall w.fs f).2 })
  | w, _, .note e, _ => some ((), { w with log := w.log ++ [e] })
  | w, _, .broadcast e, c => some (c.success, { w with log := w.log ++ [e] })

/-- What one side may send is what the other side hears. -/
structure Fits (K K' : Contract) : Prop where
  hears : ∀ ⦃sent rcvd sent' rcvd'⦄, K'.sending rcvd' sent' → rcvd <+: sent' → rcvd' <+: sent →
    K.arrived rcvd sent
  more : ∀ ⦃sent rcvd⦄ (extra), K.sending rcvd sent → K.sending (rcvd ++ extra) sent

/-- What the two worlds have to do with each other. -/
structure Link (K K' : Contract) (told told' : List Event) (v w : World) : Prop where
  hither : v.rcvd <+: w.sent
  thither : w.rcvd <+: v.sent
  sent : K.sending v.rcvd v.sent
  sent' : K'.sending w.rcvd w.sent
  log : v.log <+: told
  log' : w.log <+: told'

theorem link_symm {K K' : Contract} {told told' : List Event} {v w : World}
    (link : Link K K' told told' v w) : Link K' K told' told w v :=
  ⟨link.thither, link.hither, link.sent', link.sent, link.log', link.log⟩

/-- The bytes of a read are the next ones the other side has sent. -/
theorem prefix_of_coming {rcvd sent : List Byte} (known : rcvd <+: sent) (n : Nat) :
    rcvd ++ (sent.drop rcvd.length).take n <+: sent := by
  obtain ⟨rest, rfl⟩ := known
  rw [List.drop_left]
  exact (List.prefix_append_right_inj rcvd).mpr (List.take_prefix n rest)

theorem calls_sound {K K' : Contract} {told told' : List Event} (fits : Fits K K')
    (logs : ∀ log e, K.logging log e → log ++ [e] <+: told) :
    Sound calls K.env (Link K K' told told') := by
  intro v w s c r v' link owed called
  obtain ⟨hither, thither, sent, sent', log, log'⟩ := link
  cases s with
  | recv n =>
    simp only [calls] at called
    split at called
    · rename_i delivered
      obtain ⟨rfl, rfl⟩ := Prod.mk.inj (Option.some.inj called)
      have known := prefix_of_coming hither (min c.chunk n)
      refine ⟨⟨_, rfl, ?_, rfl, fits.hears sent' known thither, ?_⟩, known, thither,
        fits.more _ sent, sent', log, log'⟩
      · exact Nat.le_trans (List.length_take_le _ _) (Nat.min_le_right _ _)
      · exact fun empty => delivered.imp_right fun some_left => absurd empty some_left
    · cases called
  | send bytes =>
    obtain ⟨rfl, rfl⟩ := Prod.mk.inj (Option.some.inj called)
    exact ⟨⟨rfl, rfl⟩, hither, thither.trans (List.prefix_append ..), owed, sent', log, log'⟩
  | file f =>
    obtain ⟨rfl, rfl⟩ := Prod.mk.inj (Option.some.inj called)
    exact ⟨rfl, hither, thither, sent, sent', log, log'⟩
  | note e =>
    obtain ⟨rfl, rfl⟩ := Prod.mk.inj (Option.some.inj called)
    exact ⟨rfl, hither, thither, sent, sent', logs _ e owed, log'⟩
  | broadcast e =>
    obtain ⟨rfl, rfl⟩ := Prod.mk.inj (Option.some.inj called)
    exact ⟨rfl, hither, thither, sent, sent', logs _ e owed, log'⟩

/-- A program that rests has ended, or waits for bytes that have not been sent. -/
theorem rests_cases {K : Contract} {A : Type} {Q : A → World → Prop} {v w : World}
    {prog : Prog Sys Sys.Reply A} (rests : Rests K.env calls Q v w prog) :
    (∃ a, prog = .ret a ∧ Q a v) ∨
      (∃ n next, prog = .call (.recv n) next) ∧ K.waiting v.fs v.log v.rcvd v.sent ∧
        w.sent.length ≤ v.rcvd.length := by
  cases prog with
  | ret a => exact .inl ⟨a, rfl, rests⟩
  | call s next =>
    obtain ⟨owed, waits⟩ := rests
    cases s with
    | recv n =>
      refine .inr ⟨⟨n, next, rfl⟩, owed, ?_⟩
      have nothing := waits ⟨n, true⟩
      simp only [calls, Nat.min_self, ite_eq_right_iff, reduceCtorEq, imp_false, not_or,
        not_not, ne_eq] at nothing
      obtain ⟨some_room, short⟩ := nothing
      rcases List.take_eq_nil_iff.mp short with none_asked | drained
      · exact absurd none_asked some_room
      · exact List.drop_eq_nil_iff.mp drained
    | send bytes => exact absurd (waits ⟨0, true⟩) (by simp [calls])
    | file f => exact absurd (waits ⟨0, true⟩) (by simp [calls])
    | note e => exact absurd (waits ⟨0, true⟩) (by simp [calls])
    | broadcast e => exact absurd (waits ⟨0, true⟩) (by simp [calls])

section contracts
variable {finished : Fs → List Event → Prop} {told told' : List Event}

theorem client_fits : Fits (clientContract es told) (serverContract es finished told') :=
  ⟨fun _ _ _ _ replied part known => replied_arrives replied part known,
    fun _ _ extra requested => requested_more requested extra⟩

theorem server_fits : Fits (serverContract es finished told') (clientContract es told) :=
  ⟨fun _ _ _ _ requested part known => requested_arrives requested part known,
    fun _ _ extra replied => replied_more replied extra⟩

variable {b : SocketBuffer} {w : World}

/-- A client that has read the replies to all its requests has nothing unread. -/
theorem client_exhausted (within : done <+: es)
    (linked : Linked (clientContract es told) (replies done) (requests done) b w) : b.unread = [] := by
  have arrived : Replied es w.rcvd w.sent := linked.arrived
  have sizes := congrArg List.length linked.received
  have written := congrArg List.length linked.produced
  simp only [List.length_append] at sizes written
  by_contra something
  have unread := List.length_pos_iff.mpr something
  obtain ⟨todo, rfl⟩ := within
  cases todo with
  | nil =>
    have most := arrived.1.length_le
    rw [List.append_nil] at most
    omega
  | cons next todo =>
    have asked := arrived.2 done next (by simp) (by omega)
    have longer := requests_longer done next
    omega

/-- A server that has read a request with a reply has nothing unread before it replies. -/
theorem server_exhausted (within : done ++ [e] <+: es) (replying : e.reply ≠ [])
    (linked : Linked (serverContract es finished told') (requests done ++ e.request) (replies done) b
      w) : b.unread = [] := by
  rw [← requests_single e, ← requests_append] at linked
  have arrived : Requested es w.rcvd w.sent := linked.arrived
  have sizes := congrArg List.length linked.received
  have written := congrArg List.length linked.produced
  rw [List.length_append] at sizes written
  by_contra something
  have unread := List.length_pos_iff.mpr something
  have answered := arrived.2 (done ++ [e]) within (by omega)
  have reply := List.length_pos_iff.mpr replying
  rw [replies_append, replies_single, List.length_append] at answered
  omega

/-- What the client owes when it reads on in a reply. -/
theorem client_asks (within : done ++ [e] <+: es) {part : List Byte} (some_of : part <+: e.reply)
    (proper : part ≠ e.reply) :
    Asks (clientContract es told) (replies done ++ part) (requests done ++ e.request) := by
  intro fs log
  constructor
  · refine ⟨done, e, within, by simp, ?_⟩
    have shorter : part.length < e.reply.length :=
      Nat.lt_of_le_of_ne some_of.length_le fun same => proper (some_of.eq_of_length same)
    rw [replies_append, replies_single, List.length_append, List.length_append]
    omega
  · exact requested_more (requested_next within (List.prefix_refl _)) part

/-- What the server owes when it reads on in a request. -/
theorem server_asks (within : done ++ [e] <+: es) {part : List Byte} (some_of : part <+: e.request)
    (proper : part ≠ e.request) :
    Asks (serverContract es finished told') (requests done ++ part) (replies done) := by
  intro fs log
  have before : done <+: es := (List.prefix_append done [e]).trans within
  constructor
  · obtain ⟨more, split⟩ := within
    refine ⟨done, e :: more, by rw [← split]; simp, rfl, List.prefix_append .., ?_, nofun⟩
    intro e' more' same
    obtain ⟨rfl, rfl⟩ := List.cons.inj same
    have shorter : part.length < e.request.length :=
      Nat.lt_of_le_of_ne some_of.length_le fun same => proper (some_of.eq_of_length same)
    rw [requests_append, requests_single, List.length_append, List.length_append]
    omega
  · exact replied_more (replied_all before) part

/-- What the server owes when it reads on after the last request. -/
theorem server_rests {fs : Fs} {log : List Event} (final : finished fs log) :
    AsksIn (serverContract es finished told') fs log (requests es) (replies es) := by
  refine ⟨⟨es, [], by simp, rfl, List.prefix_refl _, nofun, fun _ => final⟩, ?_⟩
  exact replied_all (List.prefix_refl _)

end contracts

/-- Where neither side can go on the dialogue is complete: the client has ended, and the server
    either has ended too or waits for a further request. -/
theorem dialogue_complete {finished : Fs → List Event → Prop} {told told' : List Event} {A B : Type}
    {Q : A → World → Prop} {Q' : B → World → Prop} {p : Pair Sys Sys.Reply A B World World}
    (meets : Meets (clientContract es told).env (serverContract es finished told').env
      (Link (clientContract es told) (serverContract es finished told') told told') Q Q' p)
    (stuck : Stuck (pairStep calls calls) p)
    (clientEnds : ∀ a v, Q a v → v.sent = requests es ∧ v.rcvd = replies es)
    (serverEnds : ∀ b w, Q' b w → w.sent = replies es) :
    (∃ a, p.left = .ret a ∧ Q a p.lworld) ∧
      ((∃ b, p.right = .ret b ∧ Q' b p.rworld) ∨
        (∃ n next, p.right = .call (.recv n) next) ∧ finished p.rworld.fs p.rworld.log ∧
          p.rworld.rcvd = requests es ∧ p.rworld.sent = replies es) := by
  obtain ⟨left, right⟩ := rests_of_stuck meets stuck
  obtain ⟨hither, thither, _⟩ := meets.linked
  have ended : ∃ a, p.left = .ret a ∧ Q a p.lworld := by
    rcases rests_cases left with ended | ⟨_, ⟨done, e, within, asked, short⟩, drained⟩
    · exact ended
    · exfalso
      have answered : (replies (done ++ [e])).length ≤ p.rworld.sent.length := by
        rcases rests_cases right with ⟨b, _, final⟩ | ⟨_, ⟨done', todo, split, sent, _, waits, _⟩, all⟩
        · rw [serverEnds b _ final]
          exact (prefix_replies within).length_le
        · rw [sent]
          refine (prefix_replies ?_).length_le
          cases todo with
          | nil => rwa [split, List.append_nil] at within
          | cons next more =>
            -- the server waits for bytes past this request, so it has answered it
            have fewer := waits next more rfl
            rw [asked] at all
            have later : done' ++ [next] <+: es := ⟨more, by rw [split]; simp⟩
            have shorter := Nat.lt_of_le_of_lt all fewer
            rcases List.prefix_concat_iff.mp (earlier within later shorter) with same | before
            · rw [same] at shorter
              exact absurd shorter (Nat.lt_irrefl _)
            · exact before
      omega
  refine ⟨ended, ?_⟩
  obtain ⟨a, _, final⟩ := ended
  obtain ⟨asked, answered⟩ := clientEnds a _ final
  rcases rests_cases right with ended | ⟨call, ⟨done, todo, split, sent, _, waits, idle⟩, drained⟩
  · exact .inl ended
  · have whole : p.rworld.rcvd = requests es := by
      rw [asked] at thither drained
      exact thither.eq_of_length (Nat.le_antisymm thither.length_le drained)
    cases todo with
    | nil =>
      rw [List.append_nil] at split
      exact .inr ⟨call, idle rfl, whole, by rw [sent, split]⟩
    | cons next more =>
      have fewer := waits next more rfl
      have within : done ++ [next] <+: es := ⟨more, by rw [split]; simp⟩
      have most := (prefix_requests within).length_le
      rw [whole] at fewer
      omega

end DropboxDialogue
