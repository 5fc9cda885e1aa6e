import VirtualSocket.Lib.Sums
import VirtualSocket.Rendezvous

/- The client IDs on their way from the broker to a service and back. A connect line
   in an inbox, a request in hand, a child still connecting and a report that has
   not reached the broker each hold one: these are the tokens of a state. No step
   of a proxy makes a token (`Proxy.Moves.tokens_le`), though some lose one; a
   handling makes one when it passes a connect request on (`handling_sends`,
   `deliver_connect_tokens`), and no other. -/
namespace VirtualSocket.Rendezvous
open Json Protocol Server Broker ServiceProxy Function Sums

/-! ## Lines read back -/

theorem clientOf_connect (clientID : Bytes) : clientOf (makeProxyConnectRequest clientID) = some clientID := by
  unfold clientOf makeProxyConnectRequest
  rw [connectLoop_request (parse_request connect clientID)]
  rfl

/-- A response names no node, so the connect loop throws on it. -/
theorem clientOf_response (success : Bool) (errMsg : Bytes) :
    clientOf (makeResponse success errMsg) = none := by
  have hreq : Request.ofBytes (cstr (makeResponse success errMsg)) = .ok ⟨responseJson success errMsg⟩ := by
    simp only [Request.ofBytes, parse_response]
    rfl
  have hid : (Protocol.Request.mk (responseJson success errMsg)).getClientID = .error .domainError := by
    cases success <;> rfl
  simp only [clientOf, connectLoop, NetworkUtil.readRequest, hreq, hid, bind, Except.bind, pure, Except.pure]

theorem registered_ok : registered okResponse = true := by decide +kernel

theorem registered_taken : registered idTaken = false := by decide +kernel

/-! ## The tokens of a state -/

def Phase.tokens : Phase → Multiset Bytes
  | .handling clientID | .opened clientID => {clientID}
  | _ => 0

def Child.tokens (c : Child) : Multiset Bytes :=
  match c.stage with
  | .connecting => {c.clientID}
  | _ => 0

/-- The connect lines still to be read, as long as there is somebody to read them. -/
def Proxy.unread (p : Proxy) : Multiset Bytes :=
  if p.phase = .ended then 0 else (p.inbox.filterMap clientOf : List Bytes)

def Proxy.tokens (p : Proxy) : Multiset Bytes :=
  p.unread + p.phase.tokens + (p.children.map Child.tokens).sum

def Request.tokens : Request → Multiset Bytes
  | some (.connectionCreated, clientID) | some (.connectionFailed, clientID) => {clientID}
  | _ => 0

def Arrival.tokens (a : Arrival) : Multiset Bytes := Request.tokens a.request

def System.tokens (s : System) : Multiset Bytes :=
  (s.proxies.map Proxy.tokens).sum + (s.arrivals.map Arrival.tokens).sum

/-! ## A step of a proxy -/

theorem unread_of_running {p : Proxy} (h : p.phase ≠ .ended) :
    p.unread = (p.inbox.filterMap clientOf : List Bytes) := if_neg h

theorem unread_ended {p : Proxy} (h : p.phase = .ended) : p.unread = 0 := if_pos h

theorem interrupt_tokens (cs : List Child) : ((cs.map Proxy.interruptChild).map Child.tokens).sum = 0 := by
  induction cs with
  | nil => rfl
  | cons c cs ih =>
    obtain ⟨clientID, stage⟩ := c
    rw [List.map_cons, List.map_cons, List.sum_cons, ih, add_zero]
    cases stage <;> rfl

theorem farewell_tokens (p : Proxy) (unsent ok : Bool) :
    ((p.farewell unsent ok).map Request.tokens).sum = 0 := by
  cases unsent <;> cases ok <;> rfl

theorem tokens_idle {p : Proxy} (h : p.phase = .starting ∨ p.phase = .idle) :
    p.tokens = (p.inbox.filterMap clientOf : List Bytes) + (p.children.map Child.tokens).sum := by
  rcases h with h | h <;> simp [Proxy.tokens, Proxy.unread, Phase.tokens, h]

theorem tokens_hand {p : Proxy} {clientID : Bytes}
    (h : p.phase = .handling clientID ∨ p.phase = .opened clientID) :
    p.tokens = (p.inbox.filterMap clientOf : List Bytes) + {clientID} + (p.children.map Child.tokens).sum := by
  rcases h with h | h <;> simp [Proxy.tokens, Proxy.unread, Phase.tokens, h]

theorem tokens_ended {p : Proxy} (h : p.phase = .ended) : p.tokens = (p.children.map Child.tokens).sum := by
  simp [Proxy.tokens, Proxy.unread, Phase.tokens, h]

theorem tokens_stopping {p : Proxy} {unsent : Bool} (h : p.phase = .stopping unsent) :
    p.tokens = (p.inbox.filterMap clientOf : List Bytes) + (p.children.map Child.tokens).sum := by
  simp [Proxy.tokens, Proxy.unread, Phase.tokens, h]

/-- Whatever a proxy holds besides, its children hold their tokens. -/
theorem children_le_tokens (p : Proxy) : (p.children.map Child.tokens).sum ≤ p.tokens :=
  Multiset.le_add_left _ _

theorem inbox_tail_le {line : Bytes} {rest : List Bytes} :
    ((rest.filterMap clientOf : List Bytes) : Multiset Bytes) ≤
      ((line :: rest).filterMap clientOf : List Bytes) := by
  rw [List.filterMap_cons]
  cases clientOf line with
  | none => exact le_refl _
  | some clientID => exact Multiset.le_cons_self _ _

/-- A child hands its token on, if it holds one. -/
theorem children_moved {p : Proxy} {cs : List Child} {m : Multiset Bytes}
    (h : (cs.map Child.tokens).sum + m = (p.children.map Child.tokens).sum) :
    ({ p with children := cs } : Proxy).tokens + m = p.tokens := by
  have hsum : ({ p with children := cs } : Proxy).tokens + m =
      p.unread + p.phase.tokens + ((cs.map Child.tokens).sum + m) := add_assoc _ _ _
  rw [hsum, h]
  rfl

/-- No step of a proxy or of its children makes a token. -/
theorem Proxy.Moves.tokens_le {p p' : Proxy} {closed : Bool} {action : ProxyAction} {requests : List Request}
    (hm : Proxy.Moves p closed action p' requests) :
    p'.tokens + (requests.map Request.tokens).sum ≤ p.tokens := by
  cases hm with
  | @response line rest hp hi =>
    rw [List.map_nil, List.sum_nil, add_zero, tokens_idle (Or.inl hp), hi]
    cases registered line
    · rw [tokens_ended rfl]
      exact Multiset.le_add_left _ _
    · rw [tokens_idle (Or.inr rfl)]
      exact add_le_add_left inbox_tail_le _
  | request hp hi hc =>
    rw [List.map_nil, List.sum_nil, add_zero, tokens_idle (Or.inr hp), hi, tokens_hand (Or.inl rfl),
      List.filterMap_cons, hc, ← Multiset.cons_coe, ← Multiset.singleton_add]
    exact le_of_eq (by rw [add_comm {_}])
  | garbled hp hi hc =>
    rw [List.map_nil, List.sum_nil, add_zero, tokens_ended rfl]
    exact children_le_tokens p
  | hangup hc hi hp =>
    rw [List.map_nil, List.sum_nil, add_zero, tokens_ended rfl]
    exact children_le_tokens p
  | created ok hp =>
    rw [List.map_nil, List.sum_nil, add_zero, tokens_hand (Or.inl hp)]
    cases ok
    · rw [tokens_idle (Or.inr rfl), add_assoc]
      exact add_le_add_right (Multiset.le_add_left _ _) _
    · exact le_of_eq (tokens_hand (Or.inr rfl))
  | forked hp =>
    rw [List.map_nil, List.sum_nil, add_zero, tokens_hand (Or.inr hp), tokens_idle (Or.inr rfl),
      List.map_append, List.sum_append, add_assoc, add_comm {_}]
    exact le_of_eq rfl
  | unforked hp =>
    -- the request in hand is lost
    apply le_of_eq_of_le (add_zero _)
    rw [tokens_hand (Or.inr hp), tokens_idle (Or.inr rfl), add_right_comm]
    exact Multiset.le_add_right _ _
  | @connected k clientID hk =>
    exact le_of_eq (children_moved ((sum_map_set Child.tokens hk ⟨clientID, .session⟩).trans (add_zero _)))
  | failed hk | exited hk => exact le_of_eq (children_moved (sum_map_eraseIdx Child.tokens hk))
  | killed hp =>
    rw [List.map_nil, List.sum_nil, add_zero, tokens_ended rfl]
    exact children_le_tokens p
  | interrupted hp =>
    rw [List.map_nil, List.sum_nil, add_zero, tokens_stopping rfl, interrupt_tokens, add_zero]
    rcases hp with ⟨hp | ⟨_, hp⟩, -⟩ | ⟨⟨_, hp⟩, -⟩
    · exact le_of_le_of_eq (Multiset.le_add_right _ _) (tokens_idle (Or.inr hp)).symm
    · rw [tokens_hand (Or.inl hp), add_assoc]
      exact Multiset.le_add_right _ _
    · rw [tokens_hand (Or.inr hp), add_assoc]
      exact Multiset.le_add_right _ _
  | stopped ok hp =>
    rw [farewell_tokens, add_zero, tokens_ended rfl]
    exact children_le_tokens p
  | childStopped ok hk =>
    rw [farewell_tokens]
    exact le_of_eq (children_moved (sum_map_eraseIdx Child.tokens hk))

/-! ## A delivery -/

/-- Nothing sent is a connect line. -/
def Silent (events : List (Event Conn)) : Prop := ∀ r msg, .sent r msg ∈ events → clientOf msg = none

theorem mem_sentOn {c : Conn} {events : List (Event Conn)} {msg : Bytes} :
    msg ∈ sentOn c events ↔ .sent c msg ∈ events := by
  unfold sentOn
  rw [List.mem_filterMap]
  constructor
  · rintro ⟨v, hv, hm⟩
    cases v with
    | sent r m =>
      simp only [Option.ite_none_right_eq_some, Option.some.injEq] at hm
      obtain ⟨rfl, rfl⟩ := hm
      exact hv
    | _ => cases hm
  · exact fun h => ⟨_, h, by simp⟩

theorem silent_filterMap {events : List (Event Conn)} (h : Silent events) (c : Conn) :
    (sentOn c events).filterMap clientOf = [] := by
  rw [List.filterMap_eq_nil_iff]
  exact fun msg hm => h c msg (mem_sentOn.mp hm)

/-- What arrives in an inbox adds the tokens of its lines, if there is somebody to read them. -/
theorem inbox_append_tokens (p : Proxy) (ls : List Bytes) :
    ({ p with inbox := p.inbox ++ ls } : Proxy).tokens =
      p.tokens + (if p.phase = .ended then (0 : Multiset Bytes) else (ls.filterMap clientOf : List Bytes)) := by
  by_cases hp : p.phase = .ended
  · simp only [Proxy.tokens, Proxy.unread, hp, if_true, add_zero]
  · simp only [Proxy.tokens, Proxy.unread, hp, if_false, List.filterMap_append, ← Multiset.coe_add]
    rw [add_right_comm _ (Multiset.ofList (ls.filterMap clientOf)),
      add_right_comm _ (Multiset.ofList (ls.filterMap clientOf))]

theorem deliver_silent_tokens {events : List (Event Conn)} (h : Silent events) (ps : List Proxy) :
    ((deliver events ps).map Proxy.tokens).sum = (ps.map Proxy.tokens).sum := by
  induction ps with
  | nil => rfl
  | cons p ps ih =>
    rw [deliver, List.map_cons, List.map_cons, List.sum_cons, List.map_cons, List.sum_cons, ← ih,
      inbox_append_tokens, silent_filterMap h]
    simp [deliver]

/-- One message reaches the inbox on its connection and no other. -/
theorem deliver_cons (r : Conn) (msg : Bytes) (p : Proxy) (ps : List Proxy) :
    deliver [.sent r msg] (p :: ps) =
      { p with inbox := p.inbox ++ if r = p.control then [msg] else [] } :: deliver [.sent r msg] ps := by
  by_cases hr : r = p.control <;> simp [deliver, sentOn, hr]

theorem deliver_elsewhere {r : Conn} {ps : List Proxy} (h : r ∉ ps.map Proxy.control) (msg : Bytes) :
    deliver [.sent r msg] ps = ps := by
  induction ps with
  | nil => rfl
  | cons p ps ih =>
    rw [List.map_cons, List.mem_cons, not_or] at h
    rw [deliver_cons, if_neg h.1, List.append_nil, ih h.2]

/-- A connect line makes one token, or none if its reader is gone. -/
theorem deliver_connect_tokens {r : Conn} {x : Bytes} {ps : List Proxy}
    (hn : (ps.map Proxy.control).Nodup) :
    ((deliver [.sent r (makeProxyConnectRequest x)] ps).map Proxy.tokens).sum ≤
        (ps.map Proxy.tokens).sum + {x} ∧
      ((∃ p ∈ ps, p.control = r ∧ p.phase ≠ .ended) →
        ((deliver [.sent r (makeProxyConnectRequest x)] ps).map Proxy.tokens).sum =
          (ps.map Proxy.tokens).sum + {x}) := by
  induction ps with
  | nil => exact ⟨Multiset.zero_le _, fun ⟨_, hp, _⟩ => (List.not_mem_nil hp).elim⟩
  | cons p ps ih =>
    rw [List.map_cons, List.nodup_cons] at hn
    obtain ⟨hle, heq⟩ := ih hn.2
    rw [deliver_cons, List.map_cons, List.sum_cons, List.map_cons, List.sum_cons, inbox_append_tokens]
    by_cases hr : r = p.control
    · -- control connections are distinct, so nobody else gets the line
      rw [deliver_elsewhere (hr ▸ hn.1), if_pos hr]
      have hx : [makeProxyConnectRequest x].filterMap clientOf = [x] := by
        simp [clientOf_connect]
      rw [hx, add_right_comm]
      constructor
      · split_ifs
        · rw [add_zero]
          exact Multiset.le_add_right _ _
        · exact le_refl _
      · rintro ⟨q, hq, hqc, hqe⟩
        rcases List.mem_cons.mp hq with rfl | hq
        · rw [if_neg hqe]
          rfl
        · exact absurd (List.mem_map_of_mem hq) (hqc ▸ hr ▸ hn.1)
    · rw [if_neg hr]
      simp only [List.filterMap_nil, Multiset.coe_nil, ite_self, add_zero]
      constructor
      · rw [add_assoc]
        exact add_le_add_right hle _
      · rintro ⟨q, hq, hqc, hqe⟩
        rcases List.mem_cons.mp hq with rfl | hq
        · exact absurd hqc.symm hr
        · rw [heq ⟨q, hq, hqc, hqe⟩, add_assoc]

/-! ## What a handling sends -/

theorem silent_of_responses {events : List (Event Conn)}
    (h : ∀ r msg, .sent r msg ∈ events → ∃ success errMsg, msg = makeResponse success errMsg) :
    Silent events := by
  intro r msg hm
  obtain ⟨success, errMsg, rfl⟩ := h r msg hm
  exact clientOf_response success errMsg

theorem silent_answer (c : Conn) (success : Bool) (errMsg : Bytes) (tail : List (Event Conn))
    (ht : ∀ v ∈ tail, ∃ r, v = .closed r) : Silent (.sent c (makeResponse success errMsg) :: tail) := by
  apply silent_of_responses
  intro r msg hm
  rcases List.mem_cons.mp hm with heq | hm
  · cases heq
    exact ⟨success, errMsg, rfl⟩
  · obtain ⟨_, hv⟩ := ht _ hm
    cases hv

theorem silent_report (client c : Conn) (success forked : Bool) :
    Silent (reportEvents client c success forked) := by
  apply silent_of_responses
  intro r msg hm
  cases success <;> cases forked <;> simp [reportEvents] at hm
  · exact ⟨_, _, hm.2⟩
  · exact ⟨_, _, hm.2⟩

/-- The broker sends a connect line when it accepts a connect request, and otherwise only responses. -/
theorem handling_sends {b b' : Broker Conn} {c : Conn} {fd : Fd} {forked : Bool} {m : Message}
    (hh : Handling b c fd forked m b') :
    (∃ id f r, m = ⟨some .connect, id⟩ ∧ b.server.serverMap.lookup id = some f ∧ b.fds f = some r ∧
      System.latest b' = [.sent r (makeProxyConnectRequest fd.toString)]) ∨ Silent (System.latest b') := by
  have hclose : ∀ v ∈ [Event.closed c], ∃ r, v = Event.closed r := by
    intro v hv
    exact ⟨c, List.mem_singleton.mp hv⟩
  cases hh with
  | forwarded hid hr => exact Or.inl ⟨_, _, _, rfl, hid, hr, rfl⟩
  | registered | taken => exact Or.inr (silent_answer c _ _ [] nofun)
  | unregistered =>
    right
    apply silent_of_responses
    intro r msg hm
    simp [System.latest, after] at hm
    exact ⟨_, _, hm.2⟩
  | reported success => exact Or.inr (silent_report _ c success forked)
  | _ => exact Or.inr (silent_answer c _ _ [.closed c] hclose)

end VirtualSocket.Rendezvous
