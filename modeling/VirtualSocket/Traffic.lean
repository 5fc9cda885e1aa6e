import VirtualSocket.BrokerTables

/- What the broker sends on one connection over a run. A client that asked to
   connect is answered at most once and spliced at most once, and as long as it
   is waiting not at all (`next_answered`): the report that answers it also ends
   its wait, and a connection sends one request only. This needs no honest peer. -/
namespace VirtualSocket
open Json Protocol Server Function

variable {κ : Type} [DecidableEq κ]

def Event.touches (c : κ) : Event κ → Bool
  | .sent c' _ => c' = c
  | .closed c' => c' = c
  | .spliced client service => client = c ∨ service = c

/-- What happened on a connection, in order. -/
def eventsOn (c : κ) : List (Entry κ) → List (Event κ)
  | [] => []
  | e :: h => eventsOn c h ++ e.events.filter (Event.touches c)

def Event.message : Event κ → Option Bytes
  | .sent _ msg => some msg
  | _ => none

def Event.splice : Event κ → Option (κ × κ)
  | .spliced client service => some (client, service)
  | _ => none

def messagesOn (c : κ) (h : List (Entry κ)) : List Bytes := (eventsOn c h).filterMap Event.message

def splicesOn (c : κ) (h : List (Entry κ)) : List (κ × κ) := (eventsOn c h).filterMap Event.splice

/-! ## Clients are answered at most once -/

namespace Broker

theorem eventsOn_untouched {c : κ} {e : Entry κ} {h : List (Entry κ)}
    (hv : ∀ v ∈ e.events, v.touches c = false) : eventsOn c (e :: h) = eventsOn c h := by
  rw [eventsOn, List.filter_eq_nil_iff.mpr fun v hv' => by simp [hv v hv'], List.append_nil]

/-- An entry touches its own connection, the registration it names and the client it
reports on, and no other. -/
theorem ActsAsIntended.untouched {h : List (Entry κ)} {e : Entry κ} {c : κ} (hacts : ActsAsIntended h e)
    (hown : e.conn ≠ c)
    (hreg : ∀ id o, e.unregisters id ∨ e.connects id → registrant h id = some o → o.conn ≠ c)
    (hwait : ∀ s o, e.reports s → waiting h s = some o → o.conn ≠ c) :
    ∀ v ∈ e.events, v.touches c = false := by
  intro v hv
  have hact := hacts v hv
  cases v with
  | closed r =>
    rcases hact with rfl | ⟨id, o, hu, ho, rfl⟩ | ⟨s, o, hr, ho, rfl⟩
    · simpa [Event.touches] using hown
    · simpa [Event.touches] using hreg id o (Or.inl hu) ho
    · simpa [Event.touches] using hwait s o hr ho
  | sent r msg =>
    rcases hact with rfl | ⟨id, o, hu, ho, rfl, -⟩ | ⟨s, o, hr, ho, rfl⟩
    · simpa [Event.touches] using hown
    · simpa [Event.touches] using hreg id o (Or.inr hu) ho
    · simpa [Event.touches] using hwait s o hr ho
  | spliced client service =>
    obtain ⟨rfl, s, o, hm, ho, rfl⟩ := hact
    simpa [Event.touches] using ⟨hwait s o (Or.inl hm) ho, hown⟩

/-- A connection that has sent no request has seen nothing. -/
theorem eventsOn_unmet {h : List (Entry κ)} (hacts : ∀ e h', e :: h' <:+ h → ActsAsIntended h' e) {c : κ}
    (hc : c ∉ h.map Entry.conn) : eventsOn c h = [] := by
  induction h with
  | nil => rfl
  | cons e h ih =>
    rw [List.map_cons, List.mem_cons, not_or] at hc
    have hin : ∀ o ∈ h, o.conn ≠ c := fun o ho heq => hc.2 (heq ▸ List.mem_map_of_mem ho)
    have ih := ih (fun e' h' hs => hacts e' h' (hs.trans (List.suffix_cons e h))) hc.2
    rw [eventsOn_untouched, ih]
    apply (hacts e h List.suffix_rfl).untouched (Ne.symm hc.1)
    · intro id o _ ho
      exact hin o (registrant_some ho).1
    · intro s o _ ho
      exact hin o (waiting_some ho).1

/-- The connection has been answered and spliced at most once, and not at all while `waits`. -/
def AnsweredOnce (c : κ) (h : List (Entry κ)) (waits : Prop) : Prop :=
  (messagesOn c h).length ≤ 1 ∧ (splicesOn c h).length ≤ 1 ∧
    (waits → messagesOn c h = [] ∧ splicesOn c h = [])

/-- The same for all clients. -/
def ClientsAnsweredOnce (h : List (Entry κ)) : Prop :=
  ∀ o ∈ h, ∀ id, o.connects id → AnsweredOnce o.conn h (waiting h o.fd.toString = some o)

theorem AnsweredOnce.mono {c : κ} {h h' : List (Entry κ)} {waits waits' : Prop} (ha : AnsweredOnce c h waits)
    (he : eventsOn c h' = eventsOn c h) (hw : waits' → waits) : AnsweredOnce c h' waits' := by
  unfold AnsweredOnce messagesOn splicesOn at *
  rw [he]
  exact ⟨ha.1, ha.2.1, fun h => ha.2.2 (hw h)⟩

omit [DecidableEq κ] in
/-- An older request that waits now waited before. -/
theorem waiting_cons_old {h : List (Entry κ)} {e o : Entry κ} {s : Bytes} (hw : waiting (e :: h) s = some o)
    (hne : o ≠ e) : ¬ e.reports s ∧ waiting h s = some o := by
  unfold waiting at hw
  split_ifs at hw with hf hr
  · exact absurd (Option.some.inj hw).symm hne
  · exact ⟨hr, hw⟩

/-- Only a report on its client ID touches a client's connection after its request. -/
theorem untouched_client {h : List (Entry κ)} {e o : Entry κ} {id : Bytes} (hn : (h.map Entry.conn).Nodup)
    (hacts : ActsAsIntended h e) (ho : o ∈ h) (hid : o.connects id) (hne : e.conn ≠ o.conn)
    (hrep : ¬ e.reports o.fd.toString) : ∀ v ∈ e.events, v.touches o.conn = false := by
  apply hacts.untouched hne
  · intro id' o' _ ho' heq
    obtain ⟨hin, hreg⟩ := registrant_some ho'
    exact connects_not_registers hid (conn_inj hn hin ho heq ▸ hreg)
  · intro s o' hs ho' heq
    obtain ⟨hin, hfor⟩ := waiting_some ho'
    obtain rfl := conn_inj hn hin ho heq
    exact hrep (hfor.2.1 ▸ hs)

/-- What a report does on the client's connection: at most one message and one splice. -/
theorem reportEvents_client {client c : κ} (hne : client ≠ c) (success forked : Bool) :
    (((reportEvents client c success forked).filter (Event.touches client)).filterMap Event.message).length
        = (if forked then 1 else 0) ∧
      (((reportEvents client c success forked).filter (Event.touches client)).filterMap Event.splice).length
        = (if success && forked then 1 else 0) := by
  have hne' : ¬ c = client := fun h => hne h.symm
  cases success <;> cases forked <;>
    simp [reportEvents, Event.touches, Event.message, Event.splice, hne', List.filterMap_cons]

/-- A handling keeps the bound for the clients met before. -/
theorem Handling.answered_old {b b' : Broker κ} {c : κ} {fd : Fd} {m : Message} {forked : Bool}
    (hh : Handling b c fd forked m b') (hs : Sound b) (hc : c ∉ b.history.map Entry.conn)
    (ha : ClientsAnsweredOnce b.history) {o : Entry κ} (ho : o ∈ b.history) {id : Bytes}
    (hid : o.connects id) : AnsweredOnce o.conn b'.history (waiting b'.history o.fd.toString = some o) := by
  have hold := ha o ho id hid
  have hconn : c ≠ o.conn := fun heq => hc (heq ▸ List.mem_map_of_mem ho)
  obtain ⟨e, he, rfl, -, hem, hacts⟩ := hh.acts hs.kept
  have hne : o ≠ e := fun heq => hconn (heq ▸ rfl)
  by_cases hrep : e.reports o.fd.toString
  · have hm : ∃ success, m = ⟨some (reportKind success), o.fd.toString⟩ := by
      rcases hrep with hr | hr <;> rw [hem] at hr
      · exact ⟨true, Option.some.inj hr⟩
      · exact ⟨false, Option.some.inj hr⟩
    obtain ⟨success, rfl⟩ := hm
    have hgone : ¬ waiting b'.history o.fd.toString = some o := by
      rw [he]
      exact fun hw => (waiting_cons_old hw hne).1 hrep
    rcases hh.of_report with ⟨-, rfl⟩ | ⟨f, client, hf, hp, hr, rfl⟩
    · refine hold.mono (eventsOn_untouched ?_) fun hw => absurd hw hgone
      intro v hv
      rcases List.mem_pair.mp hv with rfl | rfl <;> simpa [Event.touches] using hconn
    · obtain rfl := toString_inj.mp hf
      obtain ⟨w, hw, hwf, rfl⟩ := hs.kept.waiting_of_pending hp hr
      by_cases how : w.conn = o.conn
      · -- the client reported on is this one, which has seen nothing so far
        obtain rfl := conn_inj hs.conns_nodup (waiting_some hw).1 ho how
        obtain ⟨hmsg, hspl⟩ := hold.2.2 hw
        obtain ⟨h1, h2⟩ := reportEvents_client hconn.symm success forked
        refine ⟨?_, ?_, fun hw => absurd hw hgone⟩
        · rw [messagesOn] at hmsg
          rw [messagesOn, after, eventsOn, List.filterMap_append, hmsg, List.nil_append, h1]
          split <;> omega
        · rw [splicesOn] at hspl
          rw [splicesOn, after, eventsOn, List.filterMap_append, hspl, List.nil_append, h2]
          split <;> omega
      · refine hold.mono (eventsOn_untouched ?_) fun hw => absurd hw hgone
        intro v hv
        rcases mem_reportEvents hv with rfl | ⟨msg, rfl⟩ | rfl | ⟨-, rfl⟩ <;>
          simp [Event.touches, how, hconn]
  · rw [he]
    exact hold.mono (eventsOn_untouched (untouched_client hs.conns_nodup hacts ho hid hconn hrep))
      fun hw => (waiting_cons_old hw hne).2

/-- The request itself is answered when it is refused, and not yet when it is passed along. -/
theorem Handling.answered_new {b b' : Broker κ} {c : κ} {fd : Fd} {id : Bytes} {forked : Bool}
    (hh : Handling b c fd forked ⟨some .connect, id⟩ b') (hs : Sound b) (hc : c ∉ b.history.map Entry.conn)
    {e : Entry κ} (he : b'.history = e :: b.history) :
    AnsweredOnce c b'.history (waiting b'.history e.fd.toString = some e) := by
  have hnil := eventsOn_unmet hs.acted hc
  rcases hh.of_connect with ⟨-, rfl⟩ | ⟨f, r, -, hr, rfl⟩
  · obtain ⟨rfl, -⟩ := List.cons.inj he
    refine ⟨?_, ?_, ?_⟩
    · simp [messagesOn, after, eventsOn, hnil, Event.touches, Event.message, List.filterMap_cons]
    · simp [splicesOn, after, eventsOn, hnil, Event.touches, Event.splice, List.filterMap_cons]
    · intro hw
      rw [after, waiting_refused] at hw
      exact absurd (List.mem_map_of_mem (waiting_some hw).1) hc
  · have hne : r ≠ c := fun heq => hc (heq ▸ hs.conns_met _ r hr)
    have hev : eventsOn c (e :: b.history) = [] := by
      rw [eventsOn_untouched, hnil]
      intro v hv
      obtain ⟨rfl, -⟩ := List.cons.inj he
      rw [List.mem_singleton.mp hv]
      simpa [Event.touches] using hne
    rw [AnsweredOnce, messagesOn, splicesOn, he, hev]
    exact ⟨by simp, by simp, fun _ => ⟨rfl, rfl⟩⟩

theorem next_answered {b : Broker κ} (hs : Sound b) (ha : ClientsAnsweredOnce b.history) {fd : Fd}
    (hfd : b.fds fd = none) {c : κ} (hc : c ∉ b.history.map Entry.conn) (m : Message) (forked : Bool) :
    ClientsAnsweredOnce (b.next c fd m forked).history := by
  have hh := next_cases hs.kept.tablesOpen hfd c m forked
  obtain ⟨e, he, rfl, -, hem, -⟩ := hh.acts hs.kept
  intro o ho id hid
  rw [he] at ho
  rcases List.mem_cons.mp ho with rfl | ho
  · have hm : m = ⟨some .connect, id⟩ := Option.some.inj (hem.symm.trans hid)
    subst hm
    exact hh.answered_new hs hc he
  · exact hh.answered_old hs hc ha ho hid

end Broker

end VirtualSocket
