import Mathlib.Logic.Function.Basic
import Mathlib.Data.List.Nodup
import VirtualSocket.Lib.Refinement

/- What the broker is for, said without descriptors, texts or processes: a directory
   of offers. A party offers a service under an ID and stays; another asks for it and
   is passed to the offerer under a ticket that nobody waiting has; whoever then
   comes with the ticket is joined with the party waiting under it. IDs, tickets and
   connections are of any types. `Conversation` is all that a party can see of this,
   by what it asked, and `conversations` says that it never sees anything else,
   whatever the others do in between. -/
namespace VirtualSocket
open Function Refinement

/-- What the party on a new connection asks for. -/
inductive Ask (ι τ : Type*) where
  | offer (id : ι)
  | withdraw (id : ι)
  | request (id : ι)
  | settle (ticket : τ) (success : Bool)
  | other
  | unread

inductive Reply where
  | ok
  | taken
  | unknown
  | failed
  | unexpected
  deriving DecidableEq

/-- What the directory does to connections. -/
inductive Deed (τ κ : Type*) where
  | replied (c : κ) (r : Reply)
  | passed (service : κ) (ticket : τ)
  | joined (client service : κ)
  | ended (c : κ)

/-- The services on offer and the parties waiting, by ID and by ticket. -/
structure Directory (ι τ κ : Type*) where
  offers : ι → Option κ
  asking : τ → Option κ

/-- A connection, what was asked on it, and what came of that. -/
structure Visit (ι τ κ : Type*) where
  conn : κ
  ask : Ask ι τ
  deeds : List (Deed τ κ)

/-- What is done when someone comes with a ticket; `told` says whether there is anybody to
tell the client. An end may be put to a connection twice. -/
def settling {τ κ : Type*} (client c : κ) (success told : Bool) : List (Deed τ κ) :=
  match success, told with
  | true, true => [.replied client .ok, .joined client c, .ended client, .ended c]
  | false, true => [.replied client .failed, .ended client, .ended c, .ended client, .ended c]
  | _, false => [.ended client, .ended c]

namespace Directory

variable {ι τ κ : Type*} [DecidableEq ι] [DecidableEq τ]

def empty : Directory ι τ κ := ⟨fun _ => none, fun _ => none⟩

/-- The directory serves the party on `c`. -/
inductive Serves (d : Directory ι τ κ) (c : κ) : Ask ι τ → List (Deed τ κ) → Directory ι τ κ → Prop
  | offered {id} (h : d.offers id = none) :
      Serves d c (.offer id) [.replied c .ok] { d with offers := update d.offers id (some c) }
  | taken {id r} (h : d.offers id = some r) : Serves d c (.offer id) [.replied c .taken] d
  | withdrawn {id r} (h : d.offers id = some r) : Serves d c (.withdraw id)
      [.ended r, .replied c .ok, .ended c] { d with offers := update d.offers id none }
  | absent {id} (h : d.offers id = none) : Serves d c (.withdraw id) [.replied c .ok, .ended c] d
  | passed {id r ticket} (h : d.offers id = some r) (ht : d.asking ticket = none) :
      Serves d c (.request id) [.passed r ticket] { d with asking := update d.asking ticket (some c) }
  | refused {id} (h : d.offers id = none) : Serves d c (.request id) [.replied c .unknown, .ended c] d
  | settled {ticket client} (success told : Bool) (h : d.asking ticket = some client) :
      Serves d c (.settle ticket success) (settling client c success told)
        { d with asking := update d.asking ticket none }
  | stray {ticket} (success : Bool) (h : d.asking ticket = none) :
      Serves d c (.settle ticket success) [.replied c .unknown, .ended c] d
  | unexpected : Serves d c .other [.replied c .unexpected, .ended c] d
  | unread : Serves d c .unread [] d

/-- A visit on a connection not met before. -/
def Step (log : List (Visit ι τ κ)) (d : Directory ι τ κ) (v : Visit ι τ κ) (d' : Directory ι τ κ) : Prop :=
  v.conn ∉ log.map Visit.conn ∧ d.Serves v.conn v.ask v.deeds d'

end Directory

/-! ## What a party sees -/

section
variable {ι τ κ : Type*}

/-- All that can come of a visit on its own connection. -/
inductive Conversation (c : κ) : Ask ι τ → List (Deed τ κ) → Prop
  | offering {id} (tickets : List τ) : Conversation c (.offer id) (.replied c .ok :: tickets.map (.passed c))
  | offered {id} (tickets : List τ) :
      Conversation c (.offer id) (.replied c .ok :: tickets.map (.passed c) ++ [.ended c])
  | taken {id} : Conversation c (.offer id) [.replied c .taken]
  | withdrawn {id} : Conversation c (.withdraw id) [.replied c .ok, .ended c]
  | asking {id} : Conversation c (.request id) []
  | refused {id} : Conversation c (.request id) [.replied c .unknown, .ended c]
  | joined {id} (service : κ) (h : service ≠ c) :
      Conversation c (.request id) [.replied c .ok, .joined c service, .ended c]
  | failed {id} : Conversation c (.request id) [.replied c .failed, .ended c, .ended c]
  | dropped {id} : Conversation c (.request id) [.ended c]
  | joining {ticket} (client : κ) (h : client ≠ c) :
      Conversation c (.settle ticket true) [.joined client c, .ended c]
  | failing {ticket} : Conversation c (.settle ticket false) [.ended c, .ended c]
  | dropping {ticket success} : Conversation c (.settle ticket success) [.ended c]
  | stray {ticket success} : Conversation c (.settle ticket success) [.replied c .unknown, .ended c]
  | unexpected : Conversation c .other [.replied c .unexpected, .ended c]
  | unread : Conversation c .unread []

variable [DecidableEq κ]

def Deed.touches (c : κ) : Deed τ κ → Bool
  | .replied c' _ => c' = c
  | .passed service _ => service = c
  | .joined client service => client = c ∨ service = c
  | .ended c' => c' = c

/-- What was done on a connection, in order. -/
def deedsOn (c : κ) : List (Visit ι τ κ) → List (Deed τ κ)
  | [] => []
  | v :: log => deedsOn c log ++ v.deeds.filter (Deed.touches c)

theorem deedsOn_cons (c : κ) (v : Visit ι τ κ) (log : List (Visit ι τ κ)) :
    deedsOn c (v :: log) = deedsOn c log ++ v.deeds.filter (Deed.touches c) := rfl

/-- What a settling does on the client's connection. -/
theorem settling_client {client c : κ} (h : c ≠ client) (success told : Bool) :
    (settling (τ := τ) client c success told).filter (Deed.touches client) =
      match success, told with
      | true, true => [.replied client .ok, .joined client c, .ended client]
      | false, true => [.replied client .failed, .ended client, .ended client]
      | _, false => [.ended client] := by
  cases success <;> cases told <;> simp [settling, Deed.touches, h]

/-- And on the other one. -/
theorem settling_service {client c : κ} (h : client ≠ c) (success told : Bool) :
    (settling (τ := τ) client c success told).filter (Deed.touches c) =
      match success, told with
      | true, true => [.joined client c, .ended c]
      | false, true => [.ended c, .ended c]
      | _, false => [.ended c] := by
  cases success <;> cases told <;> simp [settling, Deed.touches, h]

theorem settling_other {client c x : κ} (hc : client ≠ x) (hx : c ≠ x) (success told : Bool) :
    (settling (τ := τ) client c success told).filter (Deed.touches x) = [] := by
  cases success <;> cases told <;> simp [settling, Deed.touches, hc, hx]

end

namespace Directory

variable {ι τ κ : Type*} [DecidableEq κ] {d d' : Directory ι τ κ} {log : List (Visit ι τ κ)}
  {v : Visit ι τ κ} {c : κ}

/-! ## The invariant -/

/-- A party on offer has been told OK and been passed tickets, a party asking has seen
nothing yet, and every conversation is one of the known kinds. -/
structure Coherent (log : List (Visit ι τ κ)) (d : Directory ι τ κ) : Prop where
  conns_nodup : (log.map Visit.conn).Nodup
  unmet : ∀ c, c ∉ log.map Visit.conn → deedsOn c log = []
  offering : ∀ id c, d.offers id = some c → ∃ v ∈ log, v.conn = c ∧ v.ask = .offer id ∧
    ∃ tickets : List τ, deedsOn c log = .replied c .ok :: tickets.map (.passed c)
  asking : ∀ ticket c, d.asking ticket = some c →
    ∃ v ∈ log, v.conn = c ∧ (∃ id, v.ask = .request id) ∧ deedsOn c log = []
  tickets : ∀ ticket ticket' c, d.asking ticket = some c → d.asking ticket' = some c → ticket = ticket'
  conversations : ∀ v ∈ log, Conversation v.conn v.ask (deedsOn v.conn log)

theorem coherent_empty : Coherent [] (empty : Directory ι τ κ) where
  conns_nodup := List.nodup_nil
  unmet _ _ := rfl
  offering _ _ h := nomatch h
  asking _ _ h := nomatch h
  tickets _ _ _ h := nomatch h
  conversations _ h := nomatch h

/-- Connections are told apart by the one visit on each. -/
theorem Coherent.visit_inj (h : Coherent log d) {v v' : Visit ι τ κ} (hv : v ∈ log) (hv' : v' ∈ log)
    (hc : v.conn = v'.conn) : v = v' :=
  List.inj_on_of_nodup_map h.conns_nodup hv hv' hc

/-- No party is on offer under two IDs. -/
theorem Coherent.offers_inj (h : Coherent log d) {id id' : ι} (hid : d.offers id = some c)
    (hid' : d.offers id' = some c) : id = id' := by
  obtain ⟨v, hv, hc, hask, -⟩ := h.offering id c hid
  obtain ⟨v', hv', hc', hask', -⟩ := h.offering id' c hid'
  obtain rfl := h.visit_inj hv hv' (hc.trans hc'.symm)
  rw [hask] at hask'
  exact Ask.offer.inj hask'

/-- Nor both on offer and asking. -/
theorem Coherent.apart (h : Coherent log d) {id : ι} {ticket : τ} (hid : d.offers id = some c)
    (ht : d.asking ticket = some c) : False := by
  obtain ⟨v, hv, hc, hask, -⟩ := h.offering id c hid
  obtain ⟨v', hv', hc', ⟨id', hask'⟩, -⟩ := h.asking ticket c ht
  obtain rfl := h.visit_inj hv hv' (hc.trans hc'.symm)
  rw [hask] at hask'
  cases hask'

theorem Coherent.offers_met (h : Coherent log d) {id : ι} (hid : d.offers id = some c) :
    c ∈ log.map Visit.conn := by
  obtain ⟨v, hv, rfl, -⟩ := h.offering id c hid
  exact List.mem_map_of_mem hv

theorem Coherent.asking_met (h : Coherent log d) {ticket : τ} (ht : d.asking ticket = some c) :
    c ∈ log.map Visit.conn := by
  obtain ⟨v, hv, rfl, -⟩ := h.asking ticket c ht
  exact List.mem_map_of_mem hv

/-! ## What one visit does -/

variable [DecidableEq ι] [DecidableEq τ]

/-- A visit on `c` touches `c`, the party on offer that it names, and the party asking. -/
theorem Serves.untouched {ask : Ask ι τ} {deeds : List (Deed τ κ)} (hs : d.Serves c ask deeds d') {x : κ}
    (hc : c ≠ x) (ho : ∀ id, d.offers id ≠ some x) (ha : ∀ ticket, d.asking ticket ≠ some x) :
    deeds.filter (Deed.touches x) = [] := by
  cases hs with
  | settled success told h => exact settling_other (fun heq => ha _ (heq ▸ h)) hc success told
  | @withdrawn id r h | @passed id r ticket h =>
    have hr : r ≠ x := fun heq => ho id (heq ▸ h)
    simp [Deed.touches, hc, hr]
  | _ => simp [Deed.touches, hc]

/-- The visit's own conversation is of a known kind from the start. -/
theorem Serves.own (h : Coherent log d) {ask : Ask ι τ} {deeds : List (Deed τ κ)} (hs : d.Serves c ask deeds d')
    (hc : c ∉ log.map Visit.conn) : Conversation c ask (deeds.filter (Deed.touches c)) := by
  have hoffer : ∀ {id r}, d.offers id = some r → r ≠ c := fun hr heq => hc (heq ▸ h.offers_met hr)
  cases hs with
  | offered => simpa [Deed.touches] using Conversation.offering []
  | taken => simpa [Deed.touches] using Conversation.taken
  | withdrawn hr => simpa [Deed.touches, hoffer hr] using Conversation.withdrawn
  | absent => simpa [Deed.touches] using Conversation.withdrawn
  | passed hr => simpa [Deed.touches, hoffer hr] using Conversation.asking
  | refused => simpa [Deed.touches] using Conversation.refused
  | settled success told hr =>
    have hne : _ ≠ c := fun heq => hc (heq ▸ h.asking_met hr)
    rw [settling_service hne]
    cases success <;> cases told
    · exact .dropping
    · exact .failing
    · exact .dropping
    · exact .joining _ hne
  | stray => simpa [Deed.touches] using Conversation.stray
  | unexpected => simpa [Deed.touches] using Conversation.unexpected
  | unread => exact .unread

/-- A party on offer is left alone, passed a ticket, or sent off for good. -/
theorem Serves.offerer (h : Coherent log d) {ask : Ask ι τ} {deeds : List (Deed τ κ)}
    (hs : d.Serves c ask deeds d') (hc : c ∉ log.map Visit.conn) {id : ι} {x : κ} (hx : d.offers id = some x) :
    (d'.offers id = some x ∧ (deeds.filter (Deed.touches x) = [] ∨
      ∃ ticket, deeds.filter (Deed.touches x) = [.passed x ticket])) ∨
    (∀ id', d'.offers id' ≠ some x) ∧ deeds.filter (Deed.touches x) = [.ended x] := by
  have hne : c ≠ x := fun heq => hc (heq ▸ h.offers_met hx)
  have hask : ∀ ticket, d.asking ticket ≠ some x := fun _ ht => h.apart hx ht
  cases hs with
  | @offered id' hid' =>
    have hid : id ≠ id' := fun heq => by rw [heq, hid'] at hx; cases hx
    exact Or.inl ⟨by simp [hid, hx], Or.inl (by simp [Deed.touches, hne])⟩
  | @withdrawn id' r hr =>
    by_cases hid : id' = id
    · subst hid
      obtain rfl := Option.some.inj (hr.symm.trans hx)
      refine Or.inr ⟨?_, by simp [Deed.touches, hne]⟩
      intro id'' hx'
      by_cases heq : id'' = id'
      · simp [heq] at hx'
      · exact heq (h.offers_inj (by simpa [heq] using hx') hx)
    · have hrx : r ≠ x := fun heq => hid (h.offers_inj hr (heq ▸ hx))
      exact Or.inl ⟨by simp [Ne.symm hid, hx], Or.inl (by simp [Deed.touches, hne, hrx])⟩
  | @passed id' r ticket hr ht =>
    by_cases hrx : r = x
    · subst hrx
      exact Or.inl ⟨hx, Or.inr ⟨ticket, by simp [Deed.touches]⟩⟩
    · exact Or.inl ⟨hx, Or.inl (by simp [Deed.touches, hrx])⟩
  | settled success told hr =>
    exact Or.inl ⟨hx, Or.inl (settling_other (fun heq => hask _ (heq ▸ hr)) hne success told)⟩
  | _ => exact Or.inl ⟨hx, Or.inl (by simp [Deed.touches, hne])⟩

/-- A party asking is left alone, or has its whole answer. -/
theorem Serves.asker (h : Coherent log d) {ask : Ask ι τ} {deeds : List (Deed τ κ)} (hs : d.Serves c ask deeds d')
    (hc : c ∉ log.map Visit.conn) {ticket : τ} {x : κ} (hx : d.asking ticket = some x) :
    (d'.asking ticket = some x ∧ deeds.filter (Deed.touches x) = []) ∨
    (∀ ticket', d'.asking ticket' ≠ some x) ∧
      ∀ id : ι, Conversation x (.request id) (deeds.filter (Deed.touches x)) := by
  have hne : c ≠ x := fun heq => hc (heq ▸ h.asking_met hx)
  have hoffer : ∀ id, d.offers id ≠ some x := fun _ hid => h.apart hid hx
  cases hs with
  | @settled t client success told hr =>
    by_cases ht : t = ticket
    · subst ht
      obtain rfl := Option.some.inj (hr.symm.trans hx)
      right
      constructor
      · intro t' hx'
        by_cases heq : t' = t
        · simp [heq] at hx'
        · exact heq (h.tickets t' t client (by simpa [heq] using hx') hr)
      · intro id
        rw [settling_client hne]
        cases success <;> cases told
        · exact .dropped
        · exact .failed
        · exact .dropped
        · exact .joined c hne
    · have hcx : client ≠ x := fun heq => ht (h.tickets t ticket x (heq ▸ hr) hx)
      exact Or.inl ⟨by simp [Ne.symm ht, hx], settling_other hcx hne success told⟩
  | @passed id r t hr ht =>
    have htt : ticket ≠ t := fun heq => by rw [heq, ht] at hx; cases hx
    have hrx : r ≠ x := fun heq => hoffer id (heq ▸ hr)
    exact Or.inl ⟨by simp [htt, hx], by simp [Deed.touches, hrx]⟩
  | @withdrawn id r hr =>
    have hrx : r ≠ x := fun heq => hoffer id (heq ▸ hr)
    exact Or.inl ⟨hx, by simp [Deed.touches, hne, hrx]⟩
  | _ => exact Or.inl ⟨hx, by simp [Deed.touches, hne]⟩

omit [DecidableEq κ] in
/-- Who is on offer afterwards was so before, or has just been told OK. -/
theorem Serves.offers_some {ask : Ask ι τ} {deeds : List (Deed τ κ)} (hs : d.Serves c ask deeds d') {id : ι} {x : κ}
    (hx : d'.offers id = some x) : d.offers id = some x ∨ x = c ∧ ask = .offer id ∧ deeds = [.replied c .ok] := by
  cases hs with
  | @offered id' h =>
    by_cases hid : id = id'
    · subst hid
      have hxc : update d.offers id (some c) id = some x := hx
      rw [update_self] at hxc
      exact Or.inr ⟨(Option.some.inj hxc).symm, rfl, rfl⟩
    · exact Or.inl (by simpa [hid] using hx)
  | @withdrawn id' r h =>
    by_cases hid : id = id'
    · simp [hid] at hx
    · exact Or.inl (by simpa [hid] using hx)
  | _ => exact Or.inl hx

omit [DecidableEq κ] in
/-- Who is asking afterwards was so before, or has just been passed on. -/
theorem Serves.asking_some {ask : Ask ι τ} {deeds : List (Deed τ κ)} (hs : d.Serves c ask deeds d') {ticket : τ}
    {x : κ} (hx : d'.asking ticket = some x) : d.asking ticket = some x ∨
      x = c ∧ ∃ id r, ask = .request id ∧ d.offers id = some r ∧ deeds = [.passed r ticket] ∧
        ∀ ticket', d'.asking ticket' = some x → ticket' = ticket ∨ d.asking ticket' = some x := by
  cases hs with
  | @passed id r t h ht =>
    by_cases htt : ticket = t
    · subst htt
      have hxc : update d.asking ticket (some c) ticket = some x := hx
      rw [update_self] at hxc
      obtain rfl := Option.some.inj hxc
      refine Or.inr ⟨rfl, id, r, rfl, h, rfl, ?_⟩
      intro ticket' hx'
      by_cases heq : ticket' = ticket
      · exact Or.inl heq
      · exact Or.inr (by simpa [heq] using hx')
    · exact Or.inl (by simpa [htt] using hx)
  | @settled t client success told h =>
    by_cases htt : ticket = t
    · simp [htt] at hx
    · exact Or.inl (by simpa [htt] using hx)
  | _ => exact Or.inl hx

/-! ## Runs -/

theorem Coherent.step (h : Coherent log d) (hs : Step log d v d') : Coherent (v :: log) d' := by
  obtain ⟨hc, hs⟩ := hs
  have hother : ∀ x, x ≠ v.conn → (∀ id, d.offers id ≠ some x) → (∀ ticket, d.asking ticket ≠ some x) →
      deedsOn x (v :: log) = deedsOn x log := by
    intro x hx ho ha
    rw [deedsOn_cons, hs.untouched (Ne.symm hx) ho ha, List.append_nil]
  have hown : deedsOn v.conn (v :: log) = v.deeds.filter (Deed.touches v.conn) := by
    rw [deedsOn_cons, h.unmet v.conn hc, List.nil_append]
  refine ⟨?_, ?_, ?_, ?_, ?_, ?_⟩
  · rw [List.map_cons, List.nodup_cons]
    exact ⟨hc, h.conns_nodup⟩
  · intro x hx
    rw [List.map_cons, List.mem_cons, not_or] at hx
    rw [hother x hx.1 (fun _ ho => hx.2 (h.offers_met ho)) (fun _ ha => hx.2 (h.asking_met ha)), h.unmet x hx.2]
  · intro id x hx
    cases hs.offers_some hx with
    | inl hold =>
      obtain ⟨w, hw, hwc, hask, tickets, hdeeds⟩ := h.offering id x hold
      refine ⟨w, List.mem_cons_of_mem v hw, hwc, hask, ?_⟩
      rw [deedsOn_cons, hdeeds]
      rcases hs.offerer h hc hold with ⟨-, hnil | ⟨ticket, hpassed⟩⟩ | ⟨hgone, -⟩
      · exact ⟨tickets, by rw [hnil, List.append_nil]⟩
      · exact ⟨tickets ++ [ticket], by rw [hpassed, List.map_append]; rfl⟩
      · exact absurd hx (hgone id)
    | inr hnew =>
      obtain ⟨rfl, hask, hdeeds⟩ := hnew
      refine ⟨v, List.mem_cons_self, rfl, hask, [], ?_⟩
      rw [hown, hdeeds]
      simp [Deed.touches]
  · intro ticket x hx
    cases hs.asking_some hx with
    | inl hold =>
      obtain ⟨w, hw, hwc, hask, hdeeds⟩ := h.asking ticket x hold
      refine ⟨w, List.mem_cons_of_mem v hw, hwc, hask, ?_⟩
      rcases hs.asker h hc hold with ⟨-, hnil⟩ | ⟨hgone, -⟩
      · rw [deedsOn_cons, hdeeds, hnil, List.append_nil]
      · exact absurd hx (hgone ticket)
    | inr hnew =>
      obtain ⟨rfl, id, r, hask, hr, hdeeds, -⟩ := hnew
      refine ⟨v, List.mem_cons_self, rfl, ⟨id, hask⟩, ?_⟩
      have hne : r ≠ v.conn := fun heq => hc (heq ▸ h.offers_met hr)
      rw [hown, hdeeds]
      simp [Deed.touches, hne]
  · intro ticket ticket' x hx hx'
    have hnot : x = v.conn → ∀ t, d.asking t ≠ some x := fun heq t ht => hc (heq ▸ h.asking_met ht)
    cases hs.asking_some hx with
    | inl hold =>
      cases hs.asking_some hx' with
      | inl hold' => exact h.tickets ticket ticket' x hold hold'
      | inr hnew => exact absurd hold (hnot hnew.1 ticket)
    | inr hnew =>
      obtain ⟨hxc, -, -, -, -, -, honly⟩ := hnew
      exact ((honly ticket' hx').resolve_right (hnot hxc ticket')).symm
  · intro w hw
    rcases List.mem_cons.mp hw with rfl | hw
    · rw [hown]
      exact hs.own h hc
    · have hne : w.conn ≠ v.conn := fun heq => hc (heq ▸ List.mem_map_of_mem hw)
      by_cases ho : ∃ id, d.offers id = some w.conn
      · obtain ⟨id, ho⟩ := ho
        obtain ⟨w', hw', hwc, hask, tickets, hdeeds⟩ := h.offering id _ ho
        obtain rfl := h.visit_inj hw' hw hwc
        rw [deedsOn_cons, hdeeds, hask]
        rcases hs.offerer h hc ho with ⟨-, hnil | ⟨ticket, hpassed⟩⟩ | ⟨-, hended⟩
        · rw [hnil, List.append_nil]
          exact .offering tickets
        · have hmore : Conversation w'.conn (.offer id) _ := .offering (tickets ++ [ticket])
          rw [hpassed, List.cons_append]
          simpa using hmore
        · rw [hended]
          exact .offered tickets
      · by_cases ha : ∃ ticket, d.asking ticket = some w.conn
        · obtain ⟨ticket, ha⟩ := ha
          obtain ⟨w', hw', hwc, ⟨id, hask⟩, hdeeds⟩ := h.asking ticket _ ha
          obtain rfl := h.visit_inj hw' hw hwc
          rw [deedsOn_cons, hdeeds, List.nil_append, hask]
          rcases hs.asker h hc ha with ⟨-, hnil⟩ | ⟨-, hanswer⟩
          · rw [hnil]
            exact .asking
          · exact hanswer id
        · rw [hother w.conn hne (fun id hid => ho ⟨id, hid⟩) fun t ht => ha ⟨t, ht⟩]
          exact h.conversations w hw

/-- In every run, every party's conversation is one of the known kinds. -/
theorem conversations (h : Reaches Step (empty : Directory ι τ κ) log d) (hv : v ∈ log) :
    Conversation v.conn v.ask (deedsOn v.conn log) :=
  (h.invariant coherent_empty fun _ _ _ _ => Coherent.step).conversations v hv

end Directory
end VirtualSocket
