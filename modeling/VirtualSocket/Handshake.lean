import VirtualSocket.Lines
import VirtualSocket.Malformed

/- The handshake line and the payload behind it share one stream, and the reader of
   the line makes one `recv`. `handshake_exact` says when that is enough: the first
   result must hold the whole line, nothing but blanks may follow it there before
   a NUL, and where a relay takes over afterwards it must be the line and nothing
   more, since what the reader has taken is not relayed. A line longer than a
   buffer, a line that arrives in two segments and a line with the first payload
   bytes behind it each break the session. -/
namespace VirtualSocket
open Json Protocol Server NetworkUtil

/-- The `recv` result holds the whole object and only blanks after it, up to a NUL. -/
def HoldsLine (kvs : List (Bytes × Bytes)) (received : Bytes) : Prop :=
  dump kvs <+: received ∧ blank (cstr (received.drop (dump kvs).length)) = true

/-- One of the calls is the relay, in a forked child. -/
def Splices (effects : List Effect) : Prop :=
  ∃ child clientFd serverFd, .fork child ∈ effects ∧ .facilitateConnection clientFd serverFd ∈ child

/-- A relay that reads on after the first `recv` passes on the payload, and then
whatever else comes. -/
def RelaysExactly (later : List Bytes) (payload : Bytes) : Prop :=
  ∀ more : List Bytes, (∀ c ∈ more, c ≠ []) →
    (exchangeData ((later ++ more).map fun c => (.bytes c, true))).flatten = payload ++ more.flatten

/-- The broker acts on the request that was sent, and a splice relays the payload behind it. -/
def ActsOn (s : Server) (requestFd : Fd) (forked : Bool) (k : Kind) (id payload : Bytes)
    (d : Division (makeRequest k.text id ++ payload)) : Prop :=
  let acted := s.dispatch requestFd ⟨some k, id⟩ forked
  s.handleRequest requestFd (.bytes d.first) forked = .ok ⟨acted.1, acted.2, 0⟩ ∧
    (Splices acted.2 → RelaysExactly d.later payload)

/-- The client takes the response that was sent, and after an OK its application
gets the payload behind it. -/
def ClientReads (success : Bool) (errMsg payload : Bytes)
    (d : Division (makeResponse success errMsg ++ payload)) : Prop :=
  sendRequest (.bytes d.first) = .ok ⟨responseJson success errMsg⟩ ∧
    (success = true → RelaysExactly d.later payload)

theorem relaysExactly_iff {line payload : Bytes} (d : Division (line ++ payload)) :
    RelaysExactly d.later payload ↔ d.first = line := by
  have hlater := exchangeData_all d.later_ne_nil
  constructor
  · intro h
    have h0 := h [] (fun c hc => (List.not_mem_nil hc).elim)
    rw [List.append_nil, hlater, List.flatten_nil, List.append_nil] at h0
    have := d.first_append
    rw [h0] at this
    exact List.append_cancel_right this
  · intro h more hmore
    have hp : d.later.flatten = payload := by
      have := d.first_append
      rw [h] at this
      exact List.append_cancel_left this
    have hne : ∀ c ∈ d.later ++ more, c ≠ [] := fun c hc =>
      (List.mem_append.mp hc).elim (d.later_ne_nil c) (hmore c)
    rw [exchangeData_all hne, List.flatten_append, hp]

/-- Parsing the first result of a line that begins the stream. -/
theorem parse_first_iff {kvs : List (Bytes × Bytes)} (hk : kvs ≠ []) {received tail : Bytes}
    (h : received <+: dump kvs ++ tail) (j : Json) :
    parse (cstr received) = .ok j ↔ HoldsLine kvs received ∧ j = .object (addMembers kvs []) := by
  have := parse_cut_cstr hk (b := []) rfl List.not_mem_nil h j
  rw [List.nil_append] at this
  rw [this, HoldsLine, and_assoc]

theorem splices_iff {s : Server} {requestFd : Fd} {forked : Bool} {k : Kind} {id : Bytes} :
    Splices (s.dispatch requestFd ⟨some k, id⟩ forked).2 ↔
      k = .connectionCreated ∧ id ∈ s.pendingConnections ∧ forked = true := by
  cases k with
  | connectionCreated =>
    by_cases hp : id ∈ s.pendingConnections <;> cases forked <;>
      simp [Splices, dispatch, updateConnectionStatus, notifyClient, hp]
  | connectionFailed =>
    by_cases hp : id ∈ s.pendingConnections <;> cases forked <;>
      simp [Splices, dispatch, updateConnectionStatus, notifyClient, hp]
  | register => by_cases hin : id ∈ s.serverMap <;> simp [Splices, dispatch, hin]
  | unregister | connect => cases hl : s.serverMap.lookup id <;> simp [Splices, dispatch, hl]

theorem request_first {t id payload : Bytes} (d : Division (makeRequest t id ++ payload)) :
    d.first <+: dump (requestMembers t id) ++ ([newline] ++ payload) := by
  rw [← List.append_assoc, ← makeRequest_eq]
  exact d.first_prefix

theorem response_first {success : Bool} {errMsg payload : Bytes}
    (d : Division (makeResponse success errMsg ++ payload)) :
    d.first <+: dump (responseMembers success errMsg) ++ ([newline] ++ payload) := by
  rw [← List.append_assoc, ← makeResponse_eq]
  exact d.first_prefix

/-- The handling is that of the request sent exactly when the first result holds its line. -/
theorem handleRequest_first_iff (s : Server) (requestFd : Fd) (forked : Bool) (k : Kind) {id payload : Bytes}
    (d : Division (makeRequest k.text id ++ payload)) :
    s.handleRequest requestFd (.bytes d.first) forked =
        .ok ⟨(s.dispatch requestFd ⟨some k, id⟩ forked).1, (s.dispatch requestFd ⟨some k, id⟩ forked).2, 0⟩ ↔
      HoldsLine (requestMembers k.text id) d.first := by
  have hiff := parse_first_iff (requestMembers_ne_nil k.text id) (request_first d)
  constructor
  · intro h
    cases hp : parse (cstr d.first) with
    | error e =>
      rw [handleRequest_unparsed hp] at h
      cases h
    | ok j => exact ((hiff j).mp hp).1
  · intro h
    have hp := (hiff _).mpr ⟨h, rfl⟩
    rw [addMembers_request] at hp
    have hm : messageOf d.first = some ⟨some k, id⟩ := by
      simp only [messageOf, hp, requestJson]
      rw [← kind_text_ofText k]
      rfl
    exact handleRequest_typed hm s requestFd forked

theorem sendRequest_first_iff {success : Bool} {errMsg payload : Bytes}
    (d : Division (makeResponse success errMsg ++ payload)) :
    sendRequest (.bytes d.first) = .ok ⟨responseJson success errMsg⟩ ↔
      HoldsLine (responseMembers success errMsg) d.first := by
  have hiff := parse_first_iff (responseMembers_ne_nil success errMsg) (response_first d)
    (responseJson success errMsg)
  rw [addMembers_response, and_iff_left rfl] at hiff
  rw [← hiff, sendRequest, Response.ofBytes]
  cases parse (cstr d.first) with
  | error e => exact ⟨nofun, nofun⟩
  | ok j => exact ⟨fun h => by cases h; rfl, fun h => by cases h; rfl⟩

/-- Exactly when one `recv` serves: at the broker for each of the five requests, and
at the client for the response. -/
theorem handshake_exact (s : Server) (requestFd : Fd) (forked : Bool) (k : Kind) (id payload : Bytes)
    (d : Division (makeRequest k.text id ++ payload)) (success : Bool) (errMsg response : Bytes)
    (d' : Division (makeResponse success errMsg ++ response)) :
    (ActsOn s requestFd forked k id payload d ↔
      HoldsLine (requestMembers k.text id) d.first ∧
        (k = .connectionCreated ∧ id ∈ s.pendingConnections ∧ forked = true →
          d.first = makeRequest k.text id)) ∧
    (ClientReads success errMsg response d' ↔
      HoldsLine (responseMembers success errMsg) d'.first ∧
        (success = true → d'.first = makeResponse success errMsg)) := by
  constructor
  · simp only [ActsOn]
    rw [handleRequest_first_iff, splices_iff, relaysExactly_iff]
  · unfold ClientReads
    rw [sendRequest_first_iff, relaysExactly_iff]

/-- The service greets first, and its greeting comes in the segment of the report. -/
def greeting : Division (makeRequest Kind.connectionCreated.text (str "5") ++ str "SSH-2.0") where
  chunks := [makeRequest Kind.connectionCreated.text (str "5") ++ str "SSH-2.0"]
  joined := by simp
  sized := by
    intro c hc
    rw [List.mem_singleton.mp hc]
    decide +kernel

theorem actsOn_fails_on_greeting :
    ¬ ActsOn ⟨∅, {str "5"}⟩ 6 true .connectionCreated (str "5") (str "SSH-2.0") greeting := by
  rintro ⟨h, -⟩
  have hp : (parse (cstr greeting.first)).toOption.isNone = true := by decide +kernel
  cases hr : parse (cstr greeting.first) with
  | error e =>
    rw [handleRequest_unparsed hr] at h
    cases h
  | ok j =>
    rw [hr] at hp
    cases hp

end VirtualSocket
