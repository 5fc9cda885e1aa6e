import VirtualSocket.Accounting
import VirtualSocket.Directory
import VirtualSocket.Traffic

/- The broker is a directory of offers. Its two tables and its descriptors come to the
   parties on offer and the parties asking (`Broker.directory`), and the text of a
   descriptor serves as a ticket: `atoi` finds the client again because a number is
   not given out while its text is pending. `refines_directory`: every run of the
   accept loop, whatever is received, is one of the directory, with the deeds it
   shows as events. So every peer sees one of the conversations of the directory
   and nothing else (`eventsOn_conversation`). -/
namespace VirtualSocket
open Json Protocol Server Function Refinement Tables

variable {κ : Type}

def Reply.text : Reply → Bytes
  | .ok => okResponse
  | .taken => idTaken
  | .unknown => idNotRegistered
  | .failed => couldNotConnect
  | .unexpected => unexpectedRequest

/-- How a deed of the directory shows. -/
def Deed.event : Deed Bytes κ → Event κ
  | .replied c r => .sent c r.text
  | .passed service ticket => .sent service (makeProxyConnectRequest ticket)
  | .joined client service => .spliced client service
  | .ended c => .closed c

def Server.Message.ask (m : Message) : Ask Bytes Bytes :=
  match m.kind with
  | some .register => .offer m.nodeId
  | some .unregister => .withdraw m.nodeId
  | some .connect => .request m.nodeId
  | some .connectionCreated => .settle m.nodeId true
  | some .connectionFailed => .settle m.nodeId false
  | none => .other

/-- The entry is the visit: its request is what was asked, its events are the deeds. -/
structure Entry.Shows (e : Entry κ) (v : Visit Bytes Bytes κ) : Prop where
  conn : v.conn = e.conn
  asked : ∀ m, e.message = some m → v.ask = m.ask
  unasked : e.message = none → v.ask = .other ∨ v.ask = .unread
  events : v.deeds.map Deed.event = e.events

/-- An entry without a message is the visit of a party that asked for nothing. -/
theorem Entry.Shows.silent {e : Entry κ} {v : Visit Bytes Bytes κ} (hm : e.message = none) (hc : v.conn = e.conn)
    (hask : v.ask = .other ∨ v.ask = .unread) (hev : v.deeds.map Deed.event = e.events) : e.Shows v := by
  refine ⟨hc, ?_, fun _ => hask, hev⟩
  intro m hm'
  rw [hm] at hm'
  cases hm'

theorem settling_events (client c : κ) (success told : Bool) :
    (settling client c success told).map Deed.event = Broker.reportEvents client c success told := by
  cases success <;> cases told <;> rfl

namespace Broker

/-- Who is on offer and who is asking, by the tables as the source reads them. -/
def directory (b : Broker κ) : Directory Bytes Bytes κ where
  offers id := (b.server.serverMap.lookup id).bind fun f => b.fds f
  asking s := if s ∈ b.server.pendingConnections then b.fds (atoi s) else none

variable [DecidableEq κ]

theorem Kept.offers {b : Broker κ} (h : Kept b) (id : Bytes) :
    b.directory.offers id = (registrant b.history id).map Entry.conn := by
  simp only [directory, h.registered]
  cases hr : registrant b.history id with
  | none => rfl
  | some e => exact h.registered_open id e hr

theorem Kept.asking {b : Broker κ} (h : Kept b) (s : Bytes) :
    b.directory.asking s = (waiting b.history s).map Entry.conn := by
  simp only [directory, h.pending]
  cases hw : waiting b.history s with
  | none => simp
  | some e =>
    obtain ⟨hs, hopen⟩ := h.pending_open s e hw
    simp [hs, atoi_toString, hopen]

/-- The tables are read off the history. -/
theorem Kept.directory_eq {b : Broker κ} (h : Kept b) : b.directory =
    ⟨fun id => (registrant b.history id).map Entry.conn, fun s => (waiting b.history s).map Entry.conn⟩ := by
  have ho : b.directory.offers = fun id => (registrant b.history id).map Entry.conn := funext h.offers
  have ha : b.directory.asking = fun s => (waiting b.history s).map Entry.conn := funext h.asking
  rw [← ho, ← ha]

omit [DecidableEq κ] in
theorem map_update {R : Bytes → Option (Entry κ)} (k : Bytes) (v : Option (Entry κ)) :
    (fun x => (update R k v x).map Entry.conn) = update (fun x => (R x).map Entry.conn) k (v.map Entry.conn) := by
  funext x
  by_cases hx : x = k <;> simp [hx]

/-! ## How one entry moves it -/

section
variable {b b' : Broker κ} {e : Entry κ} (h : Kept b) (h' : Kept b') (he : b'.history = e :: b.history)
include h h' he

theorem Kept.directory_same (hR : registrant (e :: b.history) = registrant b.history)
    (hW : waiting (e :: b.history) = waiting b.history) : b'.directory = b.directory := by
  rw [h'.directory_eq, h.directory_eq, he, hR, hW]

theorem Kept.directory_offers {id : Bytes} {v : Option (Entry κ)}
    (hR : registrant (e :: b.history) = update (registrant b.history) id v)
    (hW : waiting (e :: b.history) = waiting b.history) :
    b'.directory = { b.directory with offers := update b.directory.offers id (v.map Entry.conn) } := by
  rw [h'.directory_eq, h.directory_eq, he, hR, hW, map_update]

theorem Kept.directory_asking {s : Bytes} {v : Option (Entry κ)}
    (hR : registrant (e :: b.history) = registrant b.history)
    (hW : waiting (e :: b.history) = update (waiting b.history) s v) :
    b'.directory = { b.directory with asking := update b.directory.asking s (v.map Entry.conn) } := by
  rw [h'.directory_eq, h.directory_eq, he, hR, hW, map_update]

end

/-- One handling is one step of the directory. -/
theorem Handling.serves {b b' : Broker κ} {c : κ} {fd : Fd} {m : Message} {forked : Bool}
    (hh : Handling b c fd forked m b') (h : Kept b) (h' : Kept b') (hfd : b.fds fd = none) :
    ∃ e deeds, b'.history = e :: b.history ∧ e.conn = c ∧ e.message = some m ∧
      deeds.map Deed.event = e.events ∧ b.directory.Serves c m.ask deeds b'.directory := by
  have hnone : ∀ {id}, b.server.serverMap.lookup id = none → b.directory.offers id = none := by
    intro id hid
    simp only [directory, hid, Option.bind_none]
  have hsome : ∀ {id f r}, b.server.serverMap.lookup id = some f → b.fds f = some r →
      b.directory.offers id = some r := by
    intro id f r hid hr
    simp only [directory, hid, Option.bind_some, hr]
  cases hh with
  | @registered id hid =>
    refine ⟨_, [.replied c .ok], rfl, rfl, rfl, rfl, ?_⟩
    rw [h.directory_offers h' rfl (registrant_register ..) (waiting_other (by decide) (by decide) ..)]
    exact .offered (hnone hid)
  | @taken id f r hid hr =>
    refine ⟨_, [.replied c .taken], rfl, rfl, rfl, rfl, ?_⟩
    rw [h.directory_same h' rfl (registrant_taken ..) (waiting_other (by decide) (by decide) ..)]
    exact .taken (hsome hid hr)
  | @unregistered id f r hid hr =>
    refine ⟨_, [.ended r, .replied c .ok, .ended c], rfl, rfl, rfl, rfl, ?_⟩
    rw [h.directory_offers h' rfl (registrant_unregister ..) (waiting_other (by decide) (by decide) ..)]
    exact .withdrawn (hsome hid hr)
  | @unlisted id hid =>
    refine ⟨_, [.replied c .ok, .ended c], rfl, rfl, rfl, rfl, ?_⟩
    have hR : registrant (⟨c, fd, some ⟨some .unregister, id⟩, [.sent c okResponse, .closed c]⟩ :: b.history) =
        registrant b.history := by
      rw [registrant_unregister, update_none_self (h.not_registrant hid)]
    rw [h.directory_same h' rfl hR (waiting_other (by decide) (by decide) ..)]
    exact .absent (hnone hid)
  | @forwarded id f r hid hr =>
    refine ⟨_, [.passed r fd.toString], rfl, rfl, rfl, rfl, ?_⟩
    rw [h.directory_asking h' rfl (registrant_other (by decide) (by decide) ..) (waiting_forward ..)]
    refine .passed (hsome hid hr) ?_
    rw [h.asking, h.fresh_text hfd]
    rfl
  | @refused id hid =>
    refine ⟨_, [.replied c .unknown, .ended c], rfl, rfl, rfl, rfl, ?_⟩
    rw [h.directory_same h' rfl (registrant_other (by decide) (by decide) ..) (waiting_refused ..)]
    exact .refused (hnone hid)
  | @reported f client success hp hr =>
    refine ⟨_, settling client c success forked, rfl, rfl, rfl, settling_events .., ?_⟩
    rw [h.directory_asking h' rfl (registrant_other (reportKind_ne success).1 (reportKind_ne success).2 ..)
      (waiting_report ..)]
    have hask : b.directory.asking f.toString = some client := by
      simp only [directory, hp, if_true, atoi_toString, hr]
    cases success <;> exact .settled _ forked hask
  | @stray s success hp =>
    refine ⟨_, [.replied c .unknown, .ended c], rfl, rfl, rfl, rfl, ?_⟩
    have hW : waiting (⟨c, fd, some ⟨some (reportKind success), s⟩, [.sent c idNotRegistered, .closed c]⟩ ::
        b.history) = waiting b.history := by
      rw [waiting_report, update_none_self (h.not_waiting hp)]
    rw [h.directory_same h' rfl (registrant_other (reportKind_ne success).1 (reportKind_ne success).2 ..) hW]
    have hask : b.directory.asking s = none := by simp only [directory, hp, if_false]
    cases success <;> exact .stray _ hask
  | unexpected =>
    refine ⟨_, [.replied c .unexpected, .ended c], rfl, rfl, rfl, rfl, ?_⟩
    rw [h.directory_same h' rfl (registrant_other (by decide) (by decide) ..)
      (waiting_other (by decide) (by decide) ..)]
    exact .unexpected

/-! ## Every run is one of the directory -/

/-- The broker beside a directory that has come as far. -/
structure Matches (b : Broker κ) (log : List (Visit Bytes Bytes κ)) (d : Directory Bytes Bytes κ) : Prop where
  sound : Sound b
  directory : b.directory = d
  shows : List.Forall₂ Entry.Shows b.history log

omit [DecidableEq κ] in
theorem shows_conns {hist : List (Entry κ)} {log : List (Visit Bytes Bytes κ)}
    (h : List.Forall₂ Entry.Shows hist log) : log.map Visit.conn = hist.map Entry.conn := by
  induction h with
  | nil => rfl
  | cons hs _ ih => rw [List.map_cons, List.map_cons, hs.conn, ih]

/-- One turn of the accept loop is one visit to the directory. -/
theorem accept_visits (b : Broker κ) (a : Accepted κ) (b' : Broker κ) (log : List (Visit Bytes Bytes κ))
    (d : Directory Bytes Bytes κ) (h : Matches b log d) (hs : b.accept a = some b') :
    ∃ v d', Directory.Step log d v d' ∧ Matches b' (v :: log) d' := by
  obtain ⟨hfd, hc, ht⟩ := accept_turn hs
  have hsound := turn_sound h.sound hfd hc ht
  have hc' : a.conn ∉ log.map Visit.conn := by
    rw [shows_conns h.shows]
    exact hc
  obtain rfl := h.directory
  cases ht with
  | unread hr =>
    refine ⟨⟨a.conn, .unread, []⟩, _, ⟨hc', ?_⟩, hsound, rfl,
      .cons (.silent rfl rfl (Or.inr rfl) rfl) h.shows⟩
    rw [h.sound.kept.directory_same hsound.kept rfl (registrant_silent rfl _) (waiting_silent rfl _)]
    exact .unread
  | untyped hr hm =>
    refine ⟨⟨a.conn, .other, [.replied a.conn .unexpected, .ended a.conn]⟩, _, ⟨hc', ?_⟩, hsound, rfl,
      .cons (.silent rfl rfl (Or.inl rfl) rfl) h.shows⟩
    rw [h.sound.kept.directory_same hsound.kept rfl (registrant_silent rfl _) (waiting_silent rfl _)]
    exact .unexpected
  | @typed buf m hr hm =>
    have hh := next_cases h.sound.kept.tablesOpen hfd a.conn m a.forked
    obtain ⟨e, deeds, he, hec, hem, hev, hserves⟩ := hh.serves h.sound.kept hsound.kept hfd
    refine ⟨⟨a.conn, m.ask, deeds⟩, _, ⟨hc', hserves⟩, hsound, rfl, ?_⟩
    rw [he]
    refine .cons ⟨hec.symm, ?_, ?_, hev⟩ h.shows
    · intro m' hm'
      rw [hem] at hm'
      cases hm'
      rfl
    · intro hnone
      rw [hem] at hnone
      cases hnone

omit [DecidableEq κ] in
theorem directory_init : (init : Broker κ).directory = Directory.empty := by
  unfold directory Directory.empty init
  congr

/-- A run of the accept loop matches a run of the directory. -/
theorem exec_matches {as : List (Accepted κ)} {b : Broker κ} (h : Transition.exec accept init as = some b) :
    ∃ log d, Reaches Directory.Step Directory.empty log d ∧ Matches b log d :=
  exec_refines accept_visits ⟨sound_init, directory_init, .nil⟩ h

/-- On every sequence of connections, whatever is received on them: the directory comes to
the same offers and the same parties asking, and each entry shows its visit. -/
theorem refines_directory {as : List (Accepted κ)} {b : Broker κ} (h : Transition.exec accept init as = some b) :
    ∃ log, Reaches Directory.Step Directory.empty log b.directory ∧ List.Forall₂ Entry.Shows b.history log := by
  obtain ⟨log, d, hreach, hm⟩ := exec_matches h
  obtain rfl := hm.directory
  exact ⟨log, hreach, hm.shows⟩

theorem refines_directory_visits : ∃ b, Transition.exec accept init visits = some b ∧ ∃ log,
    Reaches Directory.Step Directory.empty log b.directory ∧ List.Forall₂ Entry.Shows b.history log := by
  have hs : (Transition.exec accept init visits).isSome = true := by decide +kernel
  obtain ⟨b, hb⟩ := Option.isSome_iff_exists.mp hs
  exact ⟨b, hb, refines_directory hb⟩

/-! ## What each peer sees -/

theorem touches_event (c : κ) (deed : Deed Bytes κ) : deed.event.touches c = deed.touches c := by
  cases deed <;> rfl

theorem eventsOn_shows {hist : List (Entry κ)} {log : List (Visit Bytes Bytes κ)}
    (h : List.Forall₂ Entry.Shows hist log) (c : κ) : eventsOn c hist = (deedsOn c log).map Deed.event := by
  induction h with
  | nil => rfl
  | @cons e v hist log hs _ ih =>
    have hfilter : Event.touches c ∘ Deed.event = Deed.touches (τ := Bytes) c := funext (touches_event c)
    rw [eventsOn, deedsOn_cons, ih, ← hs.events, List.filter_map, hfilter, List.map_append]

omit [DecidableEq κ] in
theorem shows_mem {hist : List (Entry κ)} {log : List (Visit Bytes Bytes κ)} (h : List.Forall₂ Entry.Shows hist log)
    {e : Entry κ} (he : e ∈ hist) : ∃ v ∈ log, e.Shows v := by
  induction h with
  | nil => cases he
  | cons hv _ ih =>
    cases he with
    | head => exact ⟨_, List.mem_cons_self, hv⟩
    | tail _ hin =>
      obtain ⟨v, hv', hs⟩ := ih hin
      exact ⟨v, List.mem_cons_of_mem _ hv', hs⟩

end Broker
end VirtualSocket
