import VirtualSocket.Lines
import VirtualSocket.Clients

/- The control channel: one connection on which the broker writes the response to
   a register and then a line for each connect request it passes along, at times
   clients decide. The service proxy takes one `recv` for one message, so it keeps
   up exactly as long as every result is one message, newlines aside
   (`framing_exact`). Two lines in one result, or one line in two, throw: the
   parser accepts a newline on either side of a value, and nothing else
   (`piece_cases`). -/
namespace VirtualSocket
open Json Protocol NetworkUtil

def withoutNewlines (received : Bytes) : Bytes := received.filter (· ≠ newline)

/-- Dumped objects, each ended by a newline. -/
def lines (kvss : List (List (Bytes × Bytes))) : Bytes :=
  (kvss.map fun kvs => dump kvs ++ [newline]).flatten

/-! ## One piece of the stream -/

theorem dump_withoutNewlines (kvs : List (Bytes × Bytes)) : withoutNewlines (dump kvs) = dump kvs := by
  unfold withoutNewlines
  rw [List.filter_eq_self]
  intro x hx
  have := dump_printable kvs x hx
  have hne : x ≠ newline := by
    rintro rfl
    exact absurd this (by decide)
  simpa using hne

theorem dump_ne_nil (kvs : List (Bytes × Bytes)) : dump kvs ≠ [] := List.cons_ne_nil _ _

theorem parse_error_of_not_prefix {kvs : List (Bytes × Bytes)} (hk : kvs ≠ []) {b u t : Bytes}
    (hb : blank b = true) (hb0 : 0 ∉ b) (h : u <+: dump kvs ++ t)
    (hn : ¬ (dump kvs <+: u ∧ blank (cstr (u.drop (dump kvs).length)) = true)) :
    ∃ e, parse (cstr (b ++ u)) = .error e := by
  cases hp : parse (cstr (b ++ u)) with
  | error e => exact ⟨e, rfl⟩
  | ok j =>
    obtain ⟨h1, h2, -⟩ := (parse_cut_cstr hk hb hb0 h j).mp hp
    exact absurd ⟨h1, h2⟩ hn

/-- What may be left over of the line before: nothing, or its newline. -/
def Lead (lead : Bytes) : Prop := lead = [] ∨ lead = [newline]

theorem lead_blank {lead : Bytes} (h : Lead lead) : blank lead = true := by
  rcases h with rfl | rfl
  · rfl
  · decide +kernel

theorem lead_no_nul {lead : Bytes} (h : Lead lead) : 0 ∉ lead := by
  rcases h with rfl | rfl <;> decide

theorem lead_withoutNewlines {lead : Bytes} (h : Lead lead) (s : Bytes) :
    withoutNewlines (lead ++ s) = withoutNewlines s := by
  rcases h with rfl | rfl <;> rfl

theorem lead_error {lead c rest : Bytes} (hl : Lead lead) (hc : c ≠ []) (h : c ++ rest = lead) :
    withoutNewlines c = [] ∧ ∃ e, parse (cstr c) = .error e := by
  obtain rfl : c = [newline] := by
    rcases hl with rfl | rfl
    · exact absurd (List.append_eq_nil_iff.mp h).1 hc
    · cases c with
      | nil => exact absurd rfl hc
      | cons x xs =>
        rw [List.cons_append, List.cons.injEq, List.append_eq_nil_iff] at h
        obtain ⟨rfl, rfl, -⟩ := h
        rfl
  refine ⟨rfl, ?_⟩
  have hk := requestMembers_ne_nil [] []
  have := parse_error_of_not_prefix hk (b := [newline]) (u := []) (t := []) (lead_blank (Or.inr rfl))
    (lead_no_nul (Or.inr rfl)) List.nil_prefix fun h => dump_ne_nil _ (List.prefix_nil.mp h.1)
  simpa using this

/-- The stream after a line is over, or goes on with the next line. -/
def Onward (tail : Bytes) : Prop := tail = [] ∨ ∃ t, tail = lbrace :: t

theorem onward_lines (kvss : List (List (Bytes × Bytes))) : Onward (lines kvss) := by
  cases kvss with
  | nil => exact Or.inl rfl
  | cons kvs kvss => exact Or.inr ⟨_, rfl⟩

theorem not_blank_next (t : Bytes) : blank (cstr (newline :: lbrace :: t)) = false := by
  have hc : cstr (newline :: lbrace :: t) = newline :: lbrace :: cstr t :=
    cstr_append (s := [newline, lbrace]) (by decide)
  rw [hc, blank_whitespace (by decide), blank.eq_def]
  rfl

/-- A piece cut from where a line begins: it is that line and parses, or it is not and throws. -/
theorem piece_cases {kvs : List (Bytes × Bytes)} (hk : kvs ≠ []) {lead c rest tail : Bytes} (hl : Lead lead)
    (hc : c ≠ []) (ht : Onward tail) (h : c ++ rest = lead ++ (dump kvs ++ newline :: tail)) :
    (withoutNewlines c = dump kvs ∧ parse (cstr c) = .ok (.object (addMembers kvs [])) ∧
      ∃ lead', Lead lead' ∧ rest = lead' ++ tail) ∨
    (withoutNewlines c ≠ dump kvs ∧ ∃ e, parse (cstr c) = .error e) := by
  rcases List.append_eq_append_iff.mp h with ⟨a, hlead, -⟩ | ⟨u, rfl, hu⟩
  · obtain ⟨hw, he⟩ := lead_error hl hc hlead.symm
    exact Or.inr ⟨fun h => dump_ne_nil kvs (h ▸ hw), he⟩
  have hpre : u <+: dump kvs ++ newline :: tail := ⟨rest, hu.symm⟩
  rw [lead_withoutNewlines hl]
  have hparse := parse_cut_cstr hk (lead_blank hl) (lead_no_nul hl) hpre (.object (addMembers kvs []))
  have hfail := parse_error_of_not_prefix hk (lead_blank hl) (lead_no_nul hl) hpre
  have hwhole : withoutNewlines (dump kvs) = dump kvs := dump_withoutNewlines kvs
  have hin : ∀ {a}, u = dump kvs ++ a → blank (cstr a) = true →
      parse (cstr (lead ++ u)) = .ok (.object (addMembers kvs [])) := by
    rintro a rfl ha
    exact hparse.mpr ⟨List.prefix_append _ a, by rwa [List.drop_left], rfl⟩
  rcases List.append_eq_append_iff.mp hu with ⟨a, rfl, hrest⟩ | ⟨a, hdump, hrest⟩
  · cases a with
    | nil =>
      rw [List.append_nil] at hin ⊢
      exact Or.inl ⟨hwhole, hin (List.append_nil _).symm rfl, [newline], Or.inr rfl, hrest.symm⟩
    | cons x a =>
      rw [List.cons_append, List.cons.injEq] at hrest
      obtain ⟨rfl, hrest⟩ := hrest
      rw [withoutNewlines, List.filter_append, ← withoutNewlines, hwhole]
      cases a with
      | nil => exact Or.inl ⟨List.append_nil _, hin rfl (by decide +kernel), [], Or.inl rfl, hrest.symm⟩
      | cons y a =>
        -- the next line has begun within the piece
        right
        obtain rfl : y = lbrace := by
          rcases ht with rfl | ⟨t, rfl⟩
          · cases hrest
          · exact (List.cons.inj hrest).1.symm
        constructor
        · intro hw
          have := List.append_right_eq_self.mp hw
          cases this
        · apply hfail
          intro hno
          rw [List.drop_left, not_blank_next] at hno
          cases hno.2
  · cases a with
    | nil =>
      rw [List.append_nil] at hdump
      have hp := hin (hdump.symm.trans (List.append_nil _).symm) rfl
      rw [← hdump] at hp ⊢
      exact Or.inl ⟨hwhole, hp, [newline], Or.inr rfl, hrest⟩
    | cons x a =>
      -- the piece ends within the object
      right
      have hlen := congrArg List.length hdump
      rw [List.length_append, List.length_cons] at hlen
      constructor
      · intro hw
        have hle : (withoutNewlines u).length ≤ u.length := List.length_filter_le _ _
        rw [hw] at hle
        omega
      · apply hfail
        intro hno
        have := hno.1.length_le
        omega

/-! ## The service proxy on a whole stream -/

namespace ServiceProxy

/-- The loop hands on the client IDs of a stream of connect lines exactly when each
result is one line. -/
theorem connectLoop_iff {chunks : List Bytes} (hne : ∀ c ∈ chunks, c ≠ []) (ids : List Bytes) {lead : Bytes}
    (hl : Lead lead) (h : chunks.flatten = lead ++ lines (ids.map (requestMembers connect))) :
    connectLoop (chunks.map .bytes) = .ok ids ↔
      chunks.map withoutNewlines = ids.map fun id => dump (requestMembers connect id) := by
  induction chunks generalizing ids lead with
  | nil =>
    cases ids with
    | nil => exact ⟨fun _ => rfl, fun _ => rfl⟩
    | cons id ids => exact ⟨nofun, nofun⟩
  | cons c cs ih =>
    obtain ⟨hc, hcs⟩ := List.forall_mem_cons.mp hne
    rw [List.flatten_cons] at h
    cases ids with
    | nil =>
      obtain ⟨-, e, he⟩ := lead_error hl hc (h.trans (List.append_nil lead))
      rw [List.map_cons, connectLoop_error he]
      exact ⟨nofun, nofun⟩
    | cons id ids =>
      have hline : c ++ cs.flatten = lead ++ (dump (requestMembers connect id) ++
          newline :: lines (ids.map (requestMembers connect))) := by
        rw [h]
        simp [lines]
      rw [List.map_cons, List.map_cons, List.map_cons, List.cons.injEq]
      rcases piece_cases (requestMembers_ne_nil connect id) hl hc (onward_lines _) hline with
        ⟨hw, hp, lead', hl', hrest⟩ | ⟨hw, e, he⟩
      · rw [addMembers_request] at hp
        rw [connectLoop_request hp, ← ih hcs ids hl' hrest, and_iff_right hw]
        cases connectLoop (cs.map .bytes) with
        | error e => exact ⟨nofun, nofun⟩
        | ok handled => simp [bind, Except.bind, pure, Except.pure]
      · rw [connectLoop_error he]
        exact ⟨nofun, fun h => absurd h.1 hw⟩

/-- The bytes the broker writes to a service it has accepted: its response, and the
connect lines of the clients `ids`. -/
def controlStream (ids : List Bytes) : Bytes :=
  makeResponse true [] ++ (ids.map makeProxyConnectRequest).flatten

theorem controlStream_eq (ids : List Bytes) :
    controlStream ids =
      dump (responseMembers true []) ++ newline :: lines (ids.map (requestMembers connect)) := by
  have : ids.map makeProxyConnectRequest = ids.map fun id => dump (requestMembers connect id) ++ [newline] := rfl
  rw [controlStream, makeResponse_eq, this]
  simp [lines, Function.comp_def]

/-- The service proxy sees its registration as OK and handles the connect requests of
all the clients in order, exactly when each `recv` result is one message, newlines aside. -/
theorem framing_exact (connection : Fd) (ids : List Bytes) (d : Division (controlStream ids)) :
    start connection (d.chunks.map .bytes) = .ok (.serving ids) ↔
      d.chunks.map withoutNewlines =
        dump (responseMembers true []) :: ids.map fun id => dump (requestMembers connect id) := by
  obtain ⟨chunks, hjoin, hsized⟩ := d
  rw [controlStream_eq] at hjoin
  have hcon : ¬ (connection : Int) < 0 := by omega
  cases chunks with
  | nil =>
    refine ⟨?_, fun h => by cases h⟩
    intro h
    rw [List.map_nil, start, if_neg hcon] at h
    cases h
  | cons c cs =>
    obtain ⟨⟨hc, -⟩, hcs⟩ := List.forall_mem_cons.mp hsized
    rw [List.flatten_cons] at hjoin
    rw [List.map_cons, List.map_cons, List.cons.injEq]
    rcases piece_cases (responseMembers_ne_nil true []) (Or.inl rfl) hc (onward_lines _) hjoin with
      ⟨hw, hp, lead', hl', hrest⟩ | ⟨hw, e, he⟩
    · rw [addMembers_response] at hp
      rw [start_ok hp, and_iff_right hw, ← connectLoop_iff (fun c hc => (hcs c hc).1) ids hl' hrest]
      cases connectLoop (cs.map .bytes) with
      | error e => exact iff_of_false (fun h => by cases h) fun h => by cases h
      | ok handled => simp [bind, Except.bind, pure, Except.pure]
    · rw [start_refusing he]
      exact iff_of_false (fun h => by cases h) fun h => hw h.1

/-- Two clients ask at once, and their lines come in one segment behind the response. -/
def twoAtOnce : Division (controlStream [str "5", str "6"]) where
  chunks := [makeResponse true [], makeProxyConnectRequest (str "5") ++ makeProxyConnectRequest (str "6")]
  joined := by simp [controlStream]
  sized := by decide +kernel

theorem framing_fails_on_twoAtOnce :
    start 3 (twoAtOnce.chunks.map .bytes) ≠ .ok (.serving [str "5", str "6"]) := by
  decide +kernel

end ServiceProxy

end VirtualSocket
