import VirtualSocket.Json.Parser

/- What `json::parse` accepts, said without the parser: `Derives` gives the
   productions of a text's tokens and the value each stands for. `parse_iff` is
   soundness and completeness of the parser at once; the recursion bound and the
   token that is read ahead are gone from the statement. Two habits of the parser
   show in the productions: a comma is always followed by another element or
   member, and of two members with one key the last is kept. -/
namespace VirtualSocket.Json

/-- The tokens of a text, up to its end or the first that is none. -/
def tokens (s : Bytes) : List Token :=
  if _h : (scan s).1 = .endOfInput ∨ (scan s).1 = .parseError then [(scan s).1]
  else (scan s).1 :: tokens (scan s).2
termination_by s.length
decreasing_by exact (scan_length s).2 (fun e => _h (Or.inl e))

/-- The members of an object in the order the text gives them, as the parser stores them. -/
def store (ms members : List (Bytes × Json)) : List (Bytes × Json) :=
  ms.foldl (fun acc m => assign m.1 m.2 acc) members

/-- What a run of tokens spells: a value, the elements of an array or the members of an object. -/
inductive Shape where
  | value (j : Json)
  | elements (xs : List Json)
  | members (ms : List (Bytes × Json))

/-- The productions of the grammar. -/
inductive Derives : List Token → Shape → Prop
  | null : Derives [.literalNull] (.value .null)
  | true : Derives [.literalTrue] (.value (.boolean true))
  | false : Derives [.literalFalse] (.value (.boolean false))
  | number (raw : Bytes) : Derives [.valueNumber raw] (.value (.number raw))
  | string {raw s : Bytes} (h : getString raw = .ok s) : Derives [.valueString raw] (.value (.string s))
  | emptyArray : Derives [.beginArray, .endArray] (.value (.array []))
  | array {ts : List Token} {xs : List Json} (h : Derives ts (.elements xs)) :
      Derives (.beginArray :: (ts ++ [.endArray])) (.value (.array xs))
  | emptyObject : Derives [.beginObject, .endObject] (.value (.object []))
  | object {ts : List Token} {ms : List (Bytes × Json)} (h : Derives ts (.members ms)) :
      Derives (.beginObject :: (ts ++ [.endObject])) (.value (.object (store ms [])))
  | element {ts : List Token} {j : Json} (h : Derives ts (.value j)) : Derives ts (.elements [j])
  | elements {ts us : List Token} {j : Json} {xs : List Json} (h : Derives ts (.value j))
      (hs : Derives us (.elements xs)) : Derives (ts ++ .valueSeparator :: us) (.elements (j :: xs))
  | member {raw k : Bytes} {ts : List Token} {j : Json} (hk : getString raw = .ok k)
      (h : Derives ts (.value j)) : Derives (.valueString raw :: .nameSeparator :: ts) (.members [(k, j)])
  | members {raw k : Bytes} {ts us : List Token} {j : Json} {ms : List (Bytes × Json)}
      (hk : getString raw = .ok k) (h : Derives ts (.value j)) (hs : Derives us (.members ms)) :
      Derives (.valueString raw :: .nameSeparator :: (ts ++ .valueSeparator :: us)) (.members ((k, j) :: ms))

/-! ## The tokens of a text -/

theorem tokens_next {s : Bytes} {t : Token} (h : (scan s).1 = t) (h1 : t ≠ .endOfInput) (h2 : t ≠ .parseError) :
    tokens s = t :: tokens (scan s).2 := by
  rw [tokens]
  simp [h, h1, h2]

theorem tokens_stop {s : Bytes} (h : (scan s).1 = .endOfInput ∨ (scan s).1 = .parseError) :
    tokens s = [(scan s).1] := by
  rw [tokens]
  simp [h]

/-- What stands first among the tokens of a text is what `scan` reads there. -/
theorem scan_of_tokens {s : Bytes} {t : Token} {ts : List Token} (h : tokens s = t :: ts) :
    (scan s).1 = t ∧ (t ≠ .endOfInput → t ≠ .parseError → tokens (scan s).2 = ts) := by
  by_cases hs : (scan s).1 = .endOfInput ∨ (scan s).1 = .parseError
  · rw [tokens_stop hs] at h
    obtain ⟨rfl, -⟩ := List.cons.inj h
    exact ⟨rfl, fun h1 h2 => absurd hs (not_or.mpr ⟨h1, h2⟩)⟩
  · rw [not_or] at hs
    rw [tokens_next rfl hs.1 hs.2] at h
    exact ⟨(List.cons.inj h).1, fun _ _ => (List.cons.inj h).2⟩

/-! ## Soundness -/

theorem ok_of_bind {α β : Type} {x : Except Exn α} {f : α → Except Exn β} {b : β} (h : x >>= f = .ok b) :
    ∃ a, x = .ok a ∧ f a = .ok b := by
  cases x with
  | error e => cases h
  | ok a => exact ⟨a, rfl, h⟩

/-- The parser stands before a rest of the text, and the tokens up to there spell the value it returns. -/
def ReadsValue (s : Bytes) (p : Json × Token × Bytes) : Prop :=
  ∃ ts s', p.2 = scan s' ∧ tokens s = ts ++ tokens s' ∧ Derives ts (.value p.1)

/-- The same for the members still to be read, when `acc` are stored, and the brace behind them. -/
def ReadsMembers (acc : List (Bytes × Json)) (s : Bytes) (p : Json × Token × Bytes) : Prop :=
  ∃ ts s' ms, p.2 = scan s' ∧ tokens s = ts ++ .endObject :: tokens s' ∧ Derives ts (.members ms) ∧
    p.1 = .object (store ms acc)

def ReadsElements (acc : List Json) (s : Bytes) (p : Json × Token × Bytes) : Prop :=
  ∃ ts s' xs, p.2 = scan s' ∧ tokens s = ts ++ .endArray :: tokens s' ∧ Derives ts (.elements xs) ∧
    p.1 = .array (acc ++ xs)

/-- A production of one token. -/
theorem readsValue_single {s : Bytes} {t : Token} {j : Json} (h : (scan s).1 = t) (h1 : t ≠ .endOfInput)
    (h2 : t ≠ .parseError) (hd : Derives [t] (.value j)) : ReadsValue s (j, scan (scan s).2) :=
  ⟨[t], (scan s).2, rfl, by rw [tokens_next h h1 h2]; rfl, hd⟩

theorem parse_sound (fuel : Nat) :
    (∀ s p, parseInternal fuel (scan s).1 (scan s).2 = .ok p → ReadsValue s p) ∧
    (∀ acc s p, parseMembers fuel acc (scan s).1 (scan s).2 = .ok p → ReadsMembers acc s p) ∧
    (∀ acc s p, parseElements fuel acc (scan s).1 (scan s).2 = .ok p → ReadsElements acc s p) := by
  -- the three productions call each other, each time with less fuel
  induction fuel with
  | zero =>
    refine ⟨fun s p h => ?_, fun acc s p h => ?_, fun acc s p h => ?_⟩
    · rw [parseInternal] at h; cases h
    · rw [parseMembers] at h; cases h
    · rw [parseElements] at h; cases h
  | succ fuel ih =>
    obtain ⟨ihI, ihM, ihE⟩ := ih
    refine ⟨?_, ?_, ?_⟩
    · intro s p h
      unfold parseInternal at h
      split at h
      · next ht =>
        have hs := tokens_next ht (by simp) (by simp)
        simp only at h
        split at h
        · next he =>
          obtain rfl := Except.ok.inj h
          refine ⟨[.beginObject, .endObject], _, rfl, ?_, .emptyObject⟩
          rw [hs, tokens_next he (by simp) (by simp)]; rfl
        · split at h
          · cases h
          · obtain ⟨ts, s', ms, hp, htok, hd, hj⟩ := ihM _ _ _ h
            refine ⟨.beginObject :: (ts ++ [.endObject]), s', hp, ?_, ?_⟩
            · rw [hs, htok]; simp
            · rw [hj]; exact .object hd
      · next ht =>
        have hs := tokens_next ht (by simp) (by simp)
        simp only at h
        split at h
        · next he =>
          obtain rfl := Except.ok.inj h
          refine ⟨[.beginArray, .endArray], _, rfl, ?_, .emptyArray⟩
          rw [hs, tokens_next he (by simp) (by simp)]; rfl
        · split at h
          · cases h
          · obtain ⟨ts, s', xs, hp, htok, hd, hj⟩ := ihE _ _ _ h
            refine ⟨.beginArray :: (ts ++ [.endArray]), s', hp, ?_, ?_⟩
            · rw [hs, htok]; simp
            · rw [hj]; exact .array hd
      · next ht =>
        obtain rfl := Except.ok.inj h
        exact readsValue_single ht (by simp) (by simp) .null
      · next ht =>
        obtain ⟨b, hb, h⟩ := ok_of_bind h
        obtain rfl := Except.ok.inj h
        exact readsValue_single ht (by simp) (by simp) (.string hb)
      · next ht =>
        obtain rfl := Except.ok.inj h
        exact readsValue_single ht (by simp) (by simp) .true
      · next ht =>
        obtain rfl := Except.ok.inj h
        exact readsValue_single ht (by simp) (by simp) .false
      · next ht =>
        obtain rfl := Except.ok.inj h
        exact readsValue_single ht (by simp) (by simp) (.number _)
      · cases h
    · intro acc s p h
      unfold parseMembers at h
      split at h
      · next raw ht =>
        obtain ⟨key, hk, h⟩ := ok_of_bind h
        simp only at h
        split at h
        · next hc =>
          obtain ⟨⟨v, t, r⟩, hv, h⟩ := ok_of_bind h
          obtain ⟨ts, s1, hp1, htok, hd⟩ := ihI _ _ hv
          obtain ⟨rfl, rfl⟩ := Prod.mk.inj hp1
          have hs : tokens s = .valueString raw :: .nameSeparator :: (ts ++ tokens s1) := by
            rw [tokens_next ht (by simp) (by simp), tokens_next hc (by simp) (by simp), htok]
          simp only at h
          split at h
          · next ht1 =>
            obtain ⟨us, s', ms, hp, htok', hd', hj⟩ := ihM _ _ _ h
            refine ⟨_, s', _, hp, ?_, .members hk hd hd', hj⟩
            rw [hs, tokens_next ht1 (by simp) (by simp), htok']; simp
          · next ht1 =>
            obtain rfl := Except.ok.inj h
            refine ⟨_, _, _, rfl, ?_, .member hk hd, rfl⟩
            rw [hs, tokens_next ht1 (by simp) (by simp)]; simp
          · cases h
        · cases h
      · cases h
    · intro acc s p h
      unfold parseElements at h
      obtain ⟨⟨v, t, r⟩, hv, h⟩ := ok_of_bind h
      obtain ⟨ts, s1, hp1, htok, hd⟩ := ihI _ _ hv
      obtain ⟨rfl, rfl⟩ := Prod.mk.inj hp1
      simp only at h
      split at h
      · next ht1 =>
        obtain ⟨us, s', xs, hp, htok', hd', hj⟩ := ihE _ _ _ h
        refine ⟨_, s', _, hp, ?_, .elements hd hd', by rw [hj]; simp⟩
        rw [htok, tokens_next ht1 (by simp) (by simp), htok']; simp
      · next ht1 =>
        obtain rfl := Except.ok.inj h
        refine ⟨_, _, _, rfl, ?_, .element hd, rfl⟩
        rw [htok, tokens_next ht1 (by simp) (by simp)]
      · cases h

/-! ## Completeness -/

/-- Out of fuel, or a value and the rest of the text whose tokens are `us`. -/
def Finds (j : Json) (us : List Token) (x : Except Exn (Json × Token × Bytes)) : Prop :=
  x = .error .fuel ∨ ∃ s', tokens s' = us ∧ x = .ok (j, scan s')

/-- What the parser does on a text whose tokens begin with a run of the grammar, whatever follows it
    (behind the elements or members their closing bracket). -/
def Shape.Parses (ts : List Token) : Shape → Prop
  | .value j => ∀ fuel s us, tokens s = ts ++ us → Finds j us (parseInternal fuel (scan s).1 (scan s).2)
  | .elements xs => ∀ fuel acc s us, tokens s = ts ++ .endArray :: us →
      Finds (.array (acc ++ xs)) us (parseElements fuel acc (scan s).1 (scan s).2)
  | .members ms => ∀ fuel acc s us, tokens s = ts ++ .endObject :: us →
      Finds (.object (store ms acc)) us (parseMembers fuel acc (scan s).1 (scan s).2)

/-- The first token of a run opens a value or is a key: no closing bracket, no separator, not the end. -/
theorem Derives.first {ts : List Token} {shape : Shape} (h : Derives ts shape) :
    ∃ t us, ts = t :: us ∧ t ≠ .endArray ∧ t ≠ .endObject ∧ t ≠ .valueSeparator := by
  induction h with
  | element _ ih => exact ih
  | elements _ _ ih _ =>
    obtain ⟨t, us, rfl, ht⟩ := ih
    exact ⟨t, _, rfl, ht⟩
  | _ => exact ⟨_, _, rfl, by simp, by simp, by simp⟩

/-- The value at the front of a text and the separator behind it. -/
theorem Finds.then {j : Json} {t : Token} {us : List Token} {x : Except Exn (Json × Token × Bytes)}
    (h : Finds j (t :: us) x) (h1 : t ≠ .endOfInput) (h2 : t ≠ .parseError) :
    x = .error .fuel ∨ ∃ r, x = .ok (j, t, r) ∧ tokens r = us := by
  rcases h with h | ⟨s', htok, h⟩
  · exact Or.inl h
  · obtain ⟨ht, hu⟩ := scan_of_tokens htok
    exact Or.inr ⟨(scan s').2, by rw [h, ← ht], hu h1 h2⟩

theorem finds_scan {j : Json} {s : Bytes} {us : List Token} (h : tokens s = us) :
    Finds j us (.ok (j, scan s)) :=
  Or.inr ⟨s, h, rfl⟩

theorem parse_complete {ts : List Token} {shape : Shape} (h : Derives ts shape) : shape.Parses ts := by
  induction h with
  | null | true | false | number =>
    intro fuel s us htok
    cases fuel with
    | zero => exact Or.inl (by rw [parseInternal]; rfl)
    | succ fuel =>
      obtain ⟨ht, hu⟩ := scan_of_tokens htok
      rw [ht, parseInternal]
      exact finds_scan (hu (by simp) (by simp))
  | string hs =>
    intro fuel s us htok
    cases fuel with
    | zero => exact Or.inl (by rw [parseInternal]; rfl)
    | succ fuel =>
      obtain ⟨ht, hu⟩ := scan_of_tokens htok
      rw [ht, parseInternal, hs]
      exact finds_scan (hu (by simp) (by simp))
  | emptyArray =>
    intro fuel s us htok
    cases fuel with
    | zero => exact Or.inl (by rw [parseInternal]; rfl)
    | succ fuel =>
      obtain ⟨ht, hu⟩ := scan_of_tokens htok
      obtain ⟨ht', hu'⟩ := scan_of_tokens (hu (by simp) (by simp))
      rw [ht, parseInternal]
      simp only [ht', if_true]
      exact finds_scan (hu' (by simp) (by simp))
  | emptyObject =>
    intro fuel s us htok
    cases fuel with
    | zero => exact Or.inl (by rw [parseInternal]; rfl)
    | succ fuel =>
      obtain ⟨ht, hu⟩ := scan_of_tokens htok
      obtain ⟨ht', hu'⟩ := scan_of_tokens (hu (by simp) (by simp))
      rw [ht, parseInternal]
      simp only [ht', if_true]
      exact finds_scan (hu' (by simp) (by simp))
  | @array ts xs hd ih =>
    intro fuel s us htok
    cases fuel with
    | zero => exact Or.inl (by rw [parseInternal]; rfl)
    | succ fuel =>
      obtain ⟨ht, hu⟩ := scan_of_tokens htok
      have hrest : tokens (scan s).2 = ts ++ .endArray :: us := by simpa using hu (by simp) (by simp)
      -- the parser looks at the first token of the elements before it reads them
      obtain ⟨t, vs, rfl, hne, -, hsep⟩ := hd.first
      obtain ⟨ht', -⟩ := scan_of_tokens hrest
      have := ih fuel [] _ _ hrest
      rw [ht, parseInternal]
      simp only [ht', if_neg hne, if_neg hsep] at this ⊢
      exact this
  | @object ts ms hd ih =>
    intro fuel s us htok
    cases fuel with
    | zero => exact Or.inl (by rw [parseInternal]; rfl)
    | succ fuel =>
      obtain ⟨ht, hu⟩ := scan_of_tokens htok
      have hrest : tokens (scan s).2 = ts ++ .endObject :: us := by simpa using hu (by simp) (by simp)
      obtain ⟨t, vs, rfl, -, hne, hsep⟩ := hd.first
      obtain ⟨ht', -⟩ := scan_of_tokens hrest
      have := ih fuel [] _ _ hrest
      rw [ht, parseInternal]
      simp only [ht', if_neg hne, if_neg hsep] at this ⊢
      exact this
  | element _ ih =>
    intro fuel acc s us htok
    cases fuel with
    | zero => exact Or.inl (by rw [parseElements]; rfl)
    | succ fuel =>
      rw [parseElements]
      rcases (ih fuel s _ htok).then (by simp) (by simp) with hx | ⟨r, hx, hr⟩
      · rw [hx]; exact Or.inl rfl
      · rw [hx]; exact finds_scan hr
  | @elements ts us' j xs _ _ ih ihs =>
    intro fuel acc s us htok
    cases fuel with
    | zero => exact Or.inl (by rw [parseElements]; rfl)
    | succ fuel =>
      rw [parseElements]
      rw [List.append_assoc, List.cons_append] at htok
      rcases (ih fuel s _ htok).then (by simp) (by simp) with hx | ⟨r, hx, hr⟩
      · rw [hx]; exact Or.inl rfl
      · have := ihs fuel (acc ++ [j]) r us hr
        rw [List.append_assoc] at this
        rw [hx]; exact this
  | member hk _ ih =>
    intro fuel acc s us htok
    cases fuel with
    | zero => exact Or.inl (by rw [parseMembers]; rfl)
    | succ fuel =>
      obtain ⟨ht, hu⟩ := scan_of_tokens htok
      obtain ⟨ht', hu'⟩ := scan_of_tokens (hu (by simp) (by simp))
      rw [ht, parseMembers, hk]
      simp only [bind, Except.bind, ht', if_true]
      rcases (ih fuel _ _ (hu' (by simp) (by simp))).then (by simp) (by simp) with hx | ⟨r, hx, hr⟩
      · rw [hx]; exact Or.inl rfl
      · rw [hx]; exact finds_scan hr
  | @members raw k ts us' j ms hk _ _ ih ihs =>
    intro fuel acc s us htok
    cases fuel with
    | zero => exact Or.inl (by rw [parseMembers]; rfl)
    | succ fuel =>
      obtain ⟨ht, hu⟩ := scan_of_tokens htok
      obtain ⟨ht', hu'⟩ := scan_of_tokens (hu (by simp) (by simp))
      have hrest : tokens (scan (scan s).2).2 = ts ++ .valueSeparator :: (us' ++ .endObject :: us) := by
        simpa using hu' (by simp) (by simp)
      rw [ht, parseMembers, hk]
      simp only [bind, Except.bind, ht', if_true]
      rcases (ih fuel _ _ hrest).then (by simp) (by simp) with hx | ⟨r, hx, hr⟩
      · rw [hx]; exact Or.inl rfl
      · rw [hx]; exact ihs fuel (assign k j acc) r us hr

/-! ## The parser and the grammar -/

/-- The tokens of a text that is parsed derive its value. -/
theorem parse_derives {s : Bytes} {j : Json} (h : parse s = .ok j) :
    ∃ ts, tokens s = ts ++ [.endOfInput] ∧ Derives ts (.value j) := by
  obtain ⟨⟨v, t, r⟩, hv, h⟩ := ok_of_bind h
  obtain ⟨ts, s', hp, htok, hd⟩ := (parse_sound _).1 _ _ hv
  simp only at h
  split at h
  · next he =>
    obtain rfl := Except.ok.inj h
    obtain ⟨ht, -⟩ := Prod.mk.inj hp
    have hend : (scan s').1 = .endOfInput := by rw [← ht, he]
    exact ⟨ts, by rw [htok, tokens_stop (Or.inl hend), hend], hd⟩
  · cases h

/-- A text whose tokens derive a value is parsed to it. -/
theorem derives_parse {s : Bytes} {ts : List Token} {j : Json} (htok : tokens s = ts ++ [.endOfInput])
    (hd : Derives ts (.value j)) : parse s = .ok j := by
  have hfuel := parse_ne_fuel s
  unfold parse at hfuel ⊢
  rcases parse_complete hd (2 * s.length + 3) s _ htok with h | ⟨s', hs', h⟩
  · rw [h] at hfuel
    exact absurd rfl hfuel
  · obtain ⟨he, -⟩ := scan_of_tokens hs'
    rw [h]
    simp only [bind, Except.bind, he, if_true]
    rfl

/-- `json::parse` returns a value exactly for the texts whose tokens, up to the end of the input,
    the grammar derives, and returns the value they spell. -/
theorem parse_iff (s : Bytes) (j : Json) :
    parse s = .ok j ↔ ∃ ts, tokens s = ts ++ [.endOfInput] ∧ Derives ts (.value j) := by
  constructor
  · exact parse_derives
  · intro h
    obtain ⟨ts, htok, hd⟩ := h
    exact derives_parse htok hd

end VirtualSocket.Json
