import VirtualSocket.Traffic

/- Two services share the broker's containers and its descriptor numbers, but not
   each other's requests. `concerns A` says when a request is about service `A`,
   which for a report means that the client ID it names is pending for `A` at
   that moment. Leaving out of a run every request that does not concern `A`
   gives a run again, and its history is the part of the full history that
   concerns `A`, events included (`isolation`). The unwinding rule `exec_purge`
   reduces this to two steps: a kept request is handled alike in both runs, and
   one that is left out closes no connection of `A`, since connections are told
   apart by the one request each has sent. -/
namespace VirtualSocket
open Json Protocol Server Function

variable {κ : Type}

/-- The request is about service `A`, after the history `h`. -/
def concerns (A : Bytes) (h : List (Entry κ)) (m : Message) : Bool :=
  match m.kind with
  | some .register | some .unregister | some .connect => m.nodeId = A
  | some .connectionCreated | some .connectionFailed =>
    match waiting h m.nodeId with
    | some e => e.message = some ⟨some .connect, A⟩
    | none => false
  | none => false

/-- The part of a history that concerns `A`. -/
def relevant (A : Bytes) : List (Entry κ) → List (Entry κ)
  | [] => []
  | e :: h => if e.message.any (concerns A h) then e :: relevant A h else relevant A h

/-- The connections that `A`'s registrants, clients and reporters came in on. -/
def parties (A : Bytes) (h : List (Entry κ)) : List κ := (relevant A h).map Entry.conn

/-! ## The part of a history that concerns `A` -/

theorem relevant_sublist (A : Bytes) (h : List (Entry κ)) : (relevant A h).Sublist h := by
  induction h with
  | nil => exact List.Sublist.slnil
  | cons e h ih =>
    unfold relevant
    split_ifs
    · exact ih.cons_cons e
    · exact ih.cons e

/-- Registers, unregisters and connects in the relevant part name `A`. -/
theorem mem_relevant {A : Bytes} {h : List (Entry κ)} {e : Entry κ} (he : e ∈ relevant A h) :
    (∀ id, e.registers id → id = A) ∧ (∀ id, e.connects id → id = A) := by
  induction h with
  | nil => cases he
  | cons x h ih =>
    unfold relevant at he
    split_ifs at he with hx
    · rcases List.mem_cons.mp he with rfl | he
      · constructor
        · rintro id ⟨hm, -⟩
          simpa [hm, concerns] using hx
        · intro id hm
          have hm' : e.message = some ⟨some .connect, id⟩ := hm
          simpa [hm', concerns] using hx
      · exact ih he
    · exact ih he

theorem unregisters_concerns {A : Bytes} {e : Entry κ} {h : List (Entry κ)} (hu : e.unregisters A) :
    e.message.any (concerns A h) = true := by
  have hm : e.message = some ⟨some .unregister, A⟩ := hu
  simp [hm, concerns]

theorem connects_concerns {A : Bytes} {e : Entry κ} {h : List (Entry κ)} (hc : e.connects A) :
    e.message.any (concerns A h) = true := by
  have hm : e.message = some ⟨some .connect, A⟩ := hc
  simp [hm, concerns]

theorem registrant_relevant [DecidableEq κ] (A : Bytes) (h : List (Entry κ)) :
    registrant (relevant A h) A = registrant h A := by
  induction h with
  | nil => rfl
  | cons x h ih =>
    have hreg : x.registers A ∨ x.unregisters A → x.message.any (concerns A h) = true := by
      rintro (⟨hm, -⟩ | hu)
      · simp [hm, concerns]
      · exact unregisters_concerns hu
    unfold relevant
    split_ifs with hx
    · simp only [registrant, ih]
    · have hr : ¬ x.registers A := fun h => hx (hreg (Or.inl h))
      have hu : ¬ x.unregisters A := fun h => hx (hreg (Or.inr h))
      rw [ih, registrant, if_neg hr, if_neg hu]

theorem FreshClients.tail {e : Entry κ} {h : List (Entry κ)} (hf : FreshClients (e :: h)) : FreshClients h :=
  fun e' h' hs => hf e' h' (hs.trans (List.suffix_cons e h))

/-- The clients waiting in the relevant part are those waiting for `A`. -/
theorem waiting_relevant {A : Bytes} {h : List (Entry κ)} (hf : FreshClients h) (s : Bytes) (e : Entry κ) :
    waiting (relevant A h) s = some e ↔ waiting h s = some e ∧ e.connects A := by
  induction h with
  | nil => simp [relevant, waiting]
  | cons x h ih =>
    have ih := ih hf.tail
    by_cases hfor : x.forwards s
    · -- the text is given out for a connect request, to `A` or to another service
      obtain ⟨id, hid⟩ := hfor.connects
      have hm : x.message = some ⟨some .connect, id⟩ := hid
      have hnone := hf x h List.suffix_rfl s hfor
      by_cases hA : id = A
      · have hrel : x.message.any (concerns A h) = true := by simp [hm, concerns, hA]
        rw [relevant, if_pos hrel, waiting, if_pos hfor, waiting, if_pos hfor]
        constructor
        · intro h; cases h; exact ⟨rfl, hA ▸ hid⟩
        · exact And.left
      · have hrel : ¬ x.message.any (concerns A h) = true := by simp [hm, concerns, hA]
        rw [relevant, if_neg hrel, ih, hnone, waiting, if_pos hfor]
        constructor
        · rintro ⟨h, -⟩; cases h
        · rintro ⟨h, hc⟩
          cases h
          have hc' : e.message = some ⟨some .connect, A⟩ := hc
          rw [hm] at hc'
          exact absurd (Message.mk.inj (Option.some.inj hc')).2 hA
    · by_cases hrep : x.reports s
      · by_cases hrel : x.message.any (concerns A h) = true
        · rw [relevant, if_pos hrel, waiting, if_neg hfor, if_pos hrep, waiting, if_neg hfor, if_pos hrep]
          simp
        · rw [relevant, if_neg hrel, ih, waiting, if_neg hfor, if_pos hrep]
          constructor
          · rintro ⟨hw, hc⟩
            have hc' : e.message = some ⟨some .connect, A⟩ := hc
            refine absurd ?_ hrel
            rcases hrep with hm | hm <;> simp [hm, concerns, hw, hc']
          · rintro ⟨h, -⟩; cases h
      · have hskip : waiting (x :: h) s = waiting h s := by rw [waiting, if_neg hfor, if_neg hrep]
        rw [hskip, ← ih, relevant]
        split_ifs
        · rw [waiting, if_neg hfor, if_neg hrep]
        · rfl

/-! ## Connections are told apart by their requests -/

/-- The sender of a request of `h` that is not in the relevant part is no party. -/
theorem not_party {A : Bytes} {h : List (Entry κ)} (hn : (h.map Entry.conn).Nodup) {e : Entry κ}
    (he : e ∈ h) (hrel : e ∉ relevant A h) : e.conn ∉ parties A h := by
  intro hc
  obtain ⟨e', he', heq⟩ := List.mem_map.mp hc
  rw [conn_inj hn ((relevant_sublist A h).subset he') he heq] at he'
  exact hrel he'

theorem not_party_of_registers {A id : Bytes} {h : List (Entry κ)} (hn : (h.map Entry.conn).Nodup)
    {e : Entry κ} (he : e ∈ h) (hr : e.registers id) (hne : id ≠ A) : e.conn ∉ parties A h :=
  not_party hn he fun hm => hne ((mem_relevant hm).1 id hr)

theorem not_party_of_connects {A : Bytes} {h : List (Entry κ)} (hn : (h.map Entry.conn).Nodup)
    {e : Entry κ} {s : Bytes} (he : e ∈ h) (hf : e.forwards s) (hne : ¬ e.connects A) :
    e.conn ∉ parties A h := by
  obtain ⟨id, hid⟩ := hf.connects
  exact not_party hn he fun hm => hne ((mem_relevant hm).2 id hid ▸ hid)

/-- The same where the request stands earlier in the history. -/
theorem not_party_of_irrelevant {A : Bytes} {H : List (Entry κ)} (hn : (H.map Entry.conn).Nodup)
    {e : Entry κ} {h : List (Entry κ)} (hs : e :: h <:+ H) (hrel : ¬ e.message.any (concerns A h) = true) :
    e.conn ∉ parties A H := by
  induction H with
  | nil => exact absurd (List.suffix_nil.mp hs) (List.cons_ne_nil _ _)
  | cons x H ih =>
    rw [List.map_cons, List.nodup_cons] at hn
    rcases List.suffix_cons_iff.mp hs with heq | hs
    · obtain ⟨rfl, rfl⟩ := List.cons.inj heq
      rw [parties, relevant, if_neg hrel]
      intro hc
      exact hn.1 (((relevant_sublist A h).map Entry.conn).subset hc)
    · have he : e ∈ H := hs.subset (List.mem_cons_self ..)
      have hne : x.conn ≠ e.conn := fun h => hn.1 (h ▸ List.mem_map_of_mem he)
      have ih := ih hn.2 hs
      unfold parties relevant
      split_ifs
      · rw [List.map_cons, List.mem_cons, not_or]
        exact ⟨hne.symm, ih⟩
      · exact ih

namespace Broker

variable [DecidableEq κ]

/-! ## The two runs -/

/-- The second run has seen the relevant part of the first, and its open descriptors are open there. -/
structure Alike (A : Bytes) (b b' : Broker κ) : Prop where
  sound : Sound b
  sound' : Sound b'
  history : b'.history = relevant A b.history
  fds_le : ∀ f c, b'.fds f = some c → b.fds f = some c

/-- Whether a step is kept: its request concerns `A` in the state it meets. -/
def keep (A : Bytes) (b : Broker κ) (i : Input κ) : Bool := (messageOf i.buf).any (concerns A b.history)

variable {A : Bytes} {b b' : Broker κ}

theorem Alike.lookup (h : Alike A b b') : b'.server.serverMap.lookup A = b.server.serverMap.lookup A := by
  rw [h.sound'.kept.registered, h.sound.kept.registered, h.history, registrant_relevant]

theorem Alike.waiting_iff (h : Alike A b b') (s : Bytes) (e : Entry κ) :
    waiting b'.history s = some e ↔ waiting b.history s = some e ∧ e.connects A := by
  rw [h.history]
  exact waiting_relevant h.sound.clients_fresh s e

theorem update_le {α β : Type} [DecidableEq α] {g g' : α → Option β} (h : ∀ f c, g' f = some c → g f = some c)
    (k : α) (v : Option β) (f : α) (c : β) (hf : update g' k v f = some c) : update g k v f = some c := by
  by_cases hk : f = k
  · rwa [hk, update_self] at hf ⊢
  · rw [update_of_ne hk] at hf ⊢
    exact h f c hf

/-- A client pending for `A` is pending in both runs, and none else is pending in the second. -/
theorem Alike.pending_iff (h : Alike A b b') (s : Bytes) :
    s ∈ b'.server.pendingConnections ↔ ∃ e, waiting b.history s = some e ∧ e.connects A := by
  rw [h.sound'.kept.pending, Option.isSome_iff_exists]
  exact exists_congr fun e => h.waiting_iff s e

omit [DecidableEq κ] in
theorem concerns_report {h : List (Entry κ)} {success : Bool} {s : Bytes} :
    concerns A h ⟨some (reportKind success), s⟩ = true ↔ ∃ e, waiting h s = some e ∧ e.connects A := by
  cases success <;> cases hw : waiting h s <;> simp [concerns, reportKind, hw, Entry.connects]

theorem Alike.handled_report {c : κ} {fd : Fd} {s : Bytes} {forked : Bool} {b1 b1' : Broker κ}
    (h : Alike A b b') (success : Bool) (hm : concerns A b.history ⟨some (reportKind success), s⟩ = true)
    (h1 : Handling b c fd forked ⟨some (reportKind success), s⟩ b1)
    (h1' : Handling b' c fd forked ⟨some (reportKind success), s⟩ b1') :
    ∃ e, e.message = some ⟨some (reportKind success), s⟩ ∧ b1.history = e :: b.history ∧
      b1'.history = e :: b'.history ∧ ∀ f c, b1'.fds f = some c → b1.fds f = some c := by
  obtain ⟨e, he, hA⟩ := concerns_report.mp hm
  have hp : s ∈ b.server.pendingConnections := (h.sound.kept.pending s).mpr (by simp [he])
  have hp' : s ∈ b'.server.pendingConnections := (h.pending_iff s).mpr ⟨e, he, hA⟩
  rcases h1.of_report with ⟨hnp, -⟩ | ⟨f, client, rfl, -, hr, rfl⟩
  · exact absurd hp hnp
  rcases h1'.of_report with ⟨hnp, -⟩ | ⟨f', client', hf, -, hr', rfl⟩
  · exact absurd hp' hnp
  obtain rfl := toString_inj.mp hf
  obtain rfl := Option.some.inj (hr.symm.trans (h.fds_le _ _ hr'))
  exact ⟨_, rfl, rfl, rfl, update_le h.fds_le _ _⟩

/-- A request that concerns `A` is handled alike. -/
theorem Alike.handled {c : κ} {fd : Fd} {m : Message} {forked : Bool} {b1 b1' : Broker κ}
    (h : Alike A b b') (hm : concerns A b.history m = true) (h1 : Handling b c fd forked m b1)
    (h1' : Handling b' c fd forked m b1') :
    ∃ e, e.message = some m ∧ b1.history = e :: b.history ∧ b1'.history = e :: b'.history ∧
      ∀ f c, b1'.fds f = some c → b1.fds f = some c := by
  have hle := h.fds_le
  have hlook := h.lookup
  obtain ⟨kind, id⟩ := m
  match kind with
  | none => simp [concerns] at hm
  | some .register =>
    obtain rfl : id = A := by simpa [concerns] using hm
    rcases h1.of_register with ⟨hid, rfl⟩ | ⟨f, r, hid, hr, rfl⟩ <;>
      rcases h1'.of_register with ⟨hid', rfl⟩ | ⟨f', r', hid', hr', rfl⟩ <;> rw [hlook, hid] at hid'
    · exact ⟨_, rfl, rfl, rfl, update_le hle fd _⟩
    · cases hid'
    · cases hid'
    · exact ⟨_, rfl, rfl, rfl, update_le hle fd _⟩
  | some .unregister =>
    obtain rfl : id = A := by simpa [concerns] using hm
    rcases h1.of_unregister with ⟨hid, rfl⟩ | ⟨f, r, hid, hr, rfl⟩ <;>
      rcases h1'.of_unregister with ⟨hid', rfl⟩ | ⟨f', r', hid', hr', rfl⟩ <;> rw [hlook, hid] at hid'
    · exact ⟨_, rfl, rfl, rfl, hle⟩
    · cases hid'
    · cases hid'
    · obtain rfl := Option.some.inj hid'
      obtain rfl := Option.some.inj (hr.symm.trans (hle _ _ hr'))
      exact ⟨_, rfl, rfl, rfl, update_le hle _ _⟩
  | some .connect =>
    obtain rfl : id = A := by simpa [concerns] using hm
    rcases h1.of_connect with ⟨hid, rfl⟩ | ⟨f, r, hid, hr, rfl⟩ <;>
      rcases h1'.of_connect with ⟨hid', rfl⟩ | ⟨f', r', hid', hr', rfl⟩ <;> rw [hlook, hid] at hid'
    · exact ⟨_, rfl, rfl, rfl, hle⟩
    · cases hid'
    · cases hid'
    · obtain rfl := Option.some.inj hid'
      obtain rfl := Option.some.inj (hr.symm.trans (hle _ _ hr'))
      exact ⟨_, rfl, rfl, rfl, update_le hle fd _⟩
  | some .connectionCreated => exact h.handled_report true hm h1 h1'
  | some .connectionFailed => exact h.handled_report false hm h1 h1'

theorem Alike.party (h : Alike A b b') {f : Int} {c : κ} (hf : b'.fds f = some c) :
    c ∈ parties A b.history := by
  have hc := h.sound'.conns_met f c hf
  rwa [h.history] at hc

/-- A close of a connection that is no party is not seen in the second run. -/
theorem Alike.close_other (h : Alike A b b') {f : Int} {r : κ} (hr : b.fds f = some r)
    (hp : r ∉ parties A b.history) (g : Int) (c : κ) (hg : b'.fds g = some c) :
    update b.fds f none g = some c := by
  have hne : g ≠ f := by
    rintro rfl
    obtain rfl := Option.some.inj ((h.fds_le _ _ hg).symm.trans hr)
    exact hp (h.party hg)
  rw [update_of_ne hne]
  exact h.fds_le g c hg

/-- A request that does not concern `A` leaves what is open in the second run open in the first. -/
theorem Alike.dropped {c : κ} {fd : Fd} {m : Message} {forked : Bool} {b1 : Broker κ} (h : Alike A b b')
    (hfd : b.fds fd = none) (hm : concerns A b.history m = false) (h1 : Handling b c fd forked m b1) :
    ∀ f c, b'.fds f = some c → b1.fds f = some c := by
  cases h1 with
  | registered | taken | forwarded => exact fun g c' hg => update_old c hfd (h.fds_le g c' hg)
  | unlisted | refused | stray | unexpected => exact h.fds_le
  | @unregistered id f r hid hr =>
    have hne : id ≠ A := by simpa [concerns] using hm
    obtain ⟨o, ho, -, rfl⟩ := h.sound.kept.registrant_of_lookup hid hr
    obtain ⟨hin, hreg⟩ := registrant_some ho
    exact h.close_other hr (not_party_of_registers h.sound.conns_nodup hin hreg hne)
  | @reported f client success hp hr =>
    obtain ⟨o, ho, -, rfl⟩ := h.sound.kept.waiting_of_pending hp hr
    obtain ⟨hin, hfor⟩ := waiting_some ho
    have hne : ¬ o.connects A := fun hc =>
      Bool.eq_false_iff.mp hm (concerns_report.mpr ⟨o, ho, hc⟩)
    exact h.close_other hr (not_party_of_connects h.sound.conns_nodup hin hfor hne)

theorem alike_init : Alike A (Broker.init : Broker κ) Broker.init where
  sound := sound_init
  sound' := sound_init
  history := rfl
  fds_le _ _ h := h

theorem alike_keep (b b' : Broker κ) (i : Input κ) (b1 : Broker κ) (h : Alike A b b')
    (hk : keep A b i = true) (hs : b.step i = some b1) : ∃ b1', b'.step i = some b1' ∧ Alike A b1 b1' := by
  obtain ⟨hfd, hc, m, hm, rfl⟩ := step_some.mp hs
  have hcon : concerns A b.history m = true := by simpa [keep, hm] using hk
  have hfd' : b'.fds i.fd = none := by
    cases hf : b'.fds i.fd with
    | none => rfl
    | some c => rw [h.fds_le _ _ hf] at hfd; cases hfd
  have hc' : i.conn ∉ b'.history.map Entry.conn := by
    rw [h.history]
    exact fun hin => hc (((relevant_sublist A b.history).map Entry.conn).subset hin)
  have hs' := step_some.mpr ⟨hfd', hc', m, hm, rfl⟩
  obtain ⟨e, hem, he, he', hle⟩ := h.handled hcon (next_cases h.sound.kept.tablesOpen hfd i.conn m i.forked)
    (next_cases h.sound'.kept.tablesOpen hfd' i.conn m i.forked)
  refine ⟨_, hs', step_sound b i _ h.sound hs, step_sound b' i _ h.sound' hs', ?_, hle⟩
  calc (b'.next i.conn i.fd m i.forked).history = e :: relevant A b.history := by rw [he', h.history]
    _ = relevant A (e :: b.history) := by rw [relevant, hem, Option.any_some, if_pos hcon]
    _ = relevant A (b.next i.conn i.fd m i.forked).history := by rw [he]

theorem alike_drop (b b' : Broker κ) (i : Input κ) (b1 : Broker κ) (h : Alike A b b')
    (hk : keep A b i = false) (hs : b.step i = some b1) : Alike A b1 b' := by
  obtain ⟨hfd, hc, m, hm, rfl⟩ := step_some.mp hs
  have hcon : concerns A b.history m = false := by simpa [keep, hm] using hk
  have hh := next_cases h.sound.kept.tablesOpen hfd i.conn m i.forked
  refine ⟨step_sound b i _ h.sound hs, h.sound', ?_, h.dropped hfd hcon hh⟩
  obtain ⟨e, he, -, -, hem, -⟩ := hh.acts h.sound.kept
  rw [he, relevant, hem, Option.any_some, hcon, h.history]
  rfl

/-! ## What happened on the parties' connections -/

/-- What came of a request that does not concern `A` touched no party of `A`. -/
theorem irrelevant_events {H h : List (Entry κ)} {e : Entry κ} (hn : (H.map Entry.conn).Nodup)
    (hs : e :: h <:+ H) (hacts : ActsAsIntended h e) (hrel : ¬ e.message.any (concerns A h) = true) {c : κ}
    (hc : c ∈ parties A H) : ∀ v ∈ e.events, v.touches c = false := by
  have hown : e.conn ≠ c := fun heq => not_party_of_irrelevant hn hs hrel (heq ▸ hc)
  have hin : ∀ o ∈ h, o ∈ H := fun o ho => hs.subset (List.mem_cons_of_mem e ho)
  apply hacts.untouched hown
  · rintro id o hm ho rfl
    obtain ⟨hoh, hor⟩ := registrant_some ho
    refine not_party_of_registers hn (hin o hoh) hor (fun hA => hrel ?_) hc
    subst hA
    exact hm.elim unregisters_concerns connects_concerns
  · rintro s o hm ho rfl
    obtain ⟨hoh, hof⟩ := waiting_some ho
    refine not_party_of_connects hn (hin o hoh) hof (fun hA => hrel ?_) hc
    unfold Entry.connects at hA
    rcases hm with hm | hm <;> simp [hm, concerns, ho, hA]

theorem eventsOn_relevant {H h : List (Entry κ)} (hn : (H.map Entry.conn).Nodup)
    (hacts : ∀ e h, e :: h <:+ H → ActsAsIntended h e) (hs : h <:+ H) {c : κ} (hc : c ∈ parties A H) :
    eventsOn c (relevant A h) = eventsOn c h := by
  induction h with
  | nil => rfl
  | cons e h ih =>
    have ih := ih ((List.suffix_cons e h).trans hs)
    unfold relevant
    split_ifs with hrel
    · rw [eventsOn, eventsOn, ih]
    · rw [ih, eventsOn_untouched (irrelevant_events hn hs (hacts e h hs) hrel hc)]

/-- The clients pending because of a connect to `A`. -/
def pendingFor (A : Bytes) (b : Broker κ) : Set Bytes :=
  { s | s ∈ b.server.pendingConnections ∧ ∃ e, waiting b.history s = some e ∧ e.connects A }

/-- What service `A` and the connections of its requests see of two states. -/
structure SameService (A : Bytes) (b b' : Broker κ) : Prop where
  serverMap : b'.server.serverMap.lookup A = b.server.serverMap.lookup A
  pending : pendingFor A b' = pendingFor A b
  messages : ∀ c ∈ parties A b.history, messagesOn c b'.history = messagesOn c b.history
  splices : ∀ c ∈ parties A b.history, splicesOn c b'.history = splicesOn c b.history

theorem Alike.sameService (h : Alike A b b') : SameService A b b' where
  serverMap := h.lookup
  pending := by
    ext s
    simp only [pendingFor, Set.mem_ofPred_eq, h.waiting_iff, h.pending_iff, h.sound.kept.pending]
    constructor
    · rintro ⟨-, e, ⟨he, hA⟩, -⟩
      exact ⟨by simp [he], e, he, hA⟩
    · rintro ⟨-, e, he, hA⟩
      exact ⟨⟨e, he, hA⟩, e, ⟨he, hA⟩, hA⟩
  messages c hc := by
    rw [messagesOn, h.history, eventsOn_relevant h.sound.conns_nodup h.sound.acted List.suffix_rfl hc,
      messagesOn]
  splices c hc := by
    rw [splicesOn, h.history, eventsOn_relevant h.sound.conns_nodup h.sound.acted List.suffix_rfl hc,
      splicesOn]

/-- The requests that concern `A` alone make a run, and `A` cannot tell it from the full one. -/
theorem isolation {inputs : List (Input κ)} {b : Broker κ} (h : Transition.exec step init inputs = some b)
    (A : Bytes) : ∃ b', Transition.exec step init (Transition.purge step (keep A) init inputs) = some b' ∧
      SameService A b b' := by
  obtain ⟨b', hb', hR⟩ := Transition.exec_purge (alike_keep (A := A)) alike_drop alike_init h
  exact ⟨b', hb', hR.sameService⟩

/-- Services `a` and `b` with a client each: descriptor 6 is `b`'s client's until the
report on it, and `a`'s client's afterwards. -/
def twoServices : List (Input Nat) :=
  [⟨0, 4, makeRegisterRequest (str "a"), true⟩, ⟨1, 5, makeRegisterRequest (str "b"), true⟩,
    ⟨2, 6, makeConnectRequest (str "b"), true⟩, ⟨3, 7, makeConnectionFailedRequest (str "6"), true⟩,
    ⟨4, 6, makeConnectRequest (str "a"), true⟩, ⟨5, 7, makeConnectionCreatedRequest (str "6"), true⟩]

theorem isolation_twoServices : ∃ b b', Transition.exec step init twoServices = some b ∧
    Transition.exec step init (Transition.purge step (keep (str "a")) init twoServices) = some b' ∧
      SameService (str "a") b b' := by
  have hs : (Transition.exec step init twoServices).isSome = true := by decide +kernel
  obtain ⟨b, hb⟩ := Option.isSome_iff_exists.mp hs
  obtain ⟨b', hb', hA⟩ := isolation hb (str "a")
  exact ⟨b, b', hb, hb', hA⟩

end Broker

end VirtualSocket
