import VirtualSocket.Json.Parser

/- What the protocol writes with `dump` and reads back with `parse`: objects
   whose members are all strings. The bytes of a member may be anything, since
   `escape_string` turns every control byte, quote and backslash into a
   printable escape.

   `parse_dump` reads a dumped object back as it was built, with blanks allowed
   around it and nothing else; `parse_cut` refuses every text that stops before
   the closing brace. Together (`parse_prefix`) they settle what one `recv` of a
   stream of such objects parses to, wherever the stream is cut. -/
namespace VirtualSocket.Json

/-! ## Escaping -/

/-- The table of `escape_string`: a number below 16 as a hexadecimal digit. -/
def hexify (d : UInt8) : UInt8 := if d < 10 then 0x30 + d else 0x57 + d

/-- One byte of `escape_string`. -/
def escapeByte (c : UInt8) : Bytes :=
  if c = dquote then [backslash, dquote]
  else if c = backslash then [backslash, backslash]
  else if c = 0x08 then [backslash, 0x62]
  else if c = 0x0c then [backslash, 0x66]
  else if c = 0x0a then [backslash, 0x6e]
  else if c = 0x0d then [backslash, 0x72]
  else if c = 0x09 then [backslash, 0x74]
  else if c ≤ 0x1f then [backslash, letterU, 0x30, 0x30, hexify (c >>> 4), hexify (c &&& 0x0f)]
  else [c]

theorem hexify_lt : ∀ n < 32,
    isHex (hexify (UInt8.ofNat n >>> 4)) = true ∧ isHex (hexify (UInt8.ofNat n &&& 0x0f)) = true ∧
      codepoint 0x30 0x30 (hexify (UInt8.ofNat n >>> 4)) (hexify (UInt8.ofNat n &&& 0x0f)) = n := by
  decide

theorem hexify_control {c : UInt8} (h : c ≤ 0x1f) :
    isHex (hexify (c >>> 4)) = true ∧ isHex (hexify (c &&& 0x0f)) = true ∧
      codepoint 0x30 0x30 (hexify (c >>> 4)) (hexify (c &&& 0x0f)) = c.toNat := by
  have := hexify_lt c.toNat (by
    have := UInt8.le_iff_toNat_le.mp h
    simpa using Nat.lt_succ_of_le this)
  rwa [UInt8.ofNat_toNat] at this

theorem scanString_quote (s : Bytes) : scanString (dquote :: s) = some ([], s) := by
  rw [scanString.eq_def]; simp

theorem scanString_escape {e : UInt8} (he : isEscape e = true) (s : Bytes) :
    scanString (backslash :: e :: s) = (scanString s).map fun p => (backslash :: e :: p.1, p.2) := by
  have hb : backslash ≠ dquote := by decide
  have hu : e ≠ letterU := by rintro rfl; simp [isEscape, letterU, dquote, backslash] at he
  rw [scanString.eq_def]
  simp [hb, hu, he]

theorem scanString_unicode {h1 h2 h3 h4 : UInt8} (hx1 : isHex h1 = true) (hx2 : isHex h2 = true)
    (hx3 : isHex h3 = true) (hx4 : isHex h4 = true) (s : Bytes) :
    scanString (backslash :: letterU :: h1 :: h2 :: h3 :: h4 :: s) =
      (scanString s).map fun p => (backslash :: letterU :: h1 :: h2 :: h3 :: h4 :: p.1, p.2) := by
  have hb : backslash ≠ dquote := by decide
  rw [scanString.eq_def]
  simp [hb, hx1, hx2, hx3, hx4]

theorem scanString_plain {c : UInt8} (h1 : c ≠ dquote) (h2 : c ≠ backslash) (h3 : ¬ c ≤ 0x1f)
    (s : Bytes) : scanString (c :: s) = (scanString s).map fun p => (c :: p.1, p.2) := by
  rw [scanString.eq_def]
  simp [h1, h2, h3]

theorem scanString_escapeByte (c : UInt8) (t : Bytes) :
    scanString (escapeByte c ++ t) = (scanString t).map fun p => (escapeByte c ++ p.1, p.2) := by
  unfold escapeByte
  split_ifs with h1 h2 h3 h4 h5 h6 h7 h8
  iterate 7 · exact scanString_escape (by decide) t
  · obtain ⟨hx3, hx4, -⟩ := hexify_control h8
    exact scanString_unicode (by decide) (by decide) hx3 hx4 t
  · exact scanString_plain h1 h2 h8 t

theorem getString_escape {e : UInt8} (he : e ≠ letterU) (s : Bytes) :
    getString (backslash :: e :: s) = (unescape e ++ ·) <$> getString s := by
  rw [getString.eq_def]
  simp [he]

theorem getString_plain {c : UInt8} (h : c ≠ backslash) (s : Bytes) :
    getString (c :: s) = (c :: ·) <$> getString s := by
  rw [getString.eq_def]
  simp [h]

/-- A code point below 0x80 is one byte. -/
theorem toUnicode_ascii {cp : Nat} (h : cp < 0x80) : toUnicode cp 0 = .ok [UInt8.ofNat cp] := by
  have hs : joinSurrogates cp 0 = .ok cp := by
    unfold joinSurrogates
    rw [if_neg (by omega)]; rfl
  unfold toUnicode
  rw [hs]
  simp [bind, Except.bind, h]; rfl

theorem getString_unicode {h1 h2 h3 h4 : UInt8} (h : codepoint h1 h2 h3 h4 < 0x80) (s : Bytes) :
    getString (backslash :: letterU :: h1 :: h2 :: h3 :: h4 :: s) =
      (UInt8.ofNat (codepoint h1 h2 h3 h4) :: ·) <$> getString s := by
  have hn : ¬ (0xd800 ≤ codepoint h1 h2 h3 h4 ∧ codepoint h1 h2 h3 h4 ≤ 0xdbff) := by omega
  rw [getString.eq_def]
  simp only [if_true, if_neg hn, toUnicode_ascii h]
  rfl

theorem getString_escapeByte (c : UInt8) (t : Bytes) :
    getString (escapeByte c ++ t) = (c :: ·) <$> getString t := by
  unfold escapeByte
  split_ifs with h1 h2 h3 h4 h5 h6 h7 h8
  iterate 7
    · subst_vars
      exact getString_escape (by decide) t
  · obtain ⟨-, -, hcp⟩ := hexify_control h8
    have hlt : c.toNat < 0x80 := by
      have := UInt8.le_iff_toNat_le.mp h8
      exact Nat.lt_of_le_of_lt this (by decide)
    simp only [List.cons_append, List.nil_append]
    rw [getString_unicode (by rw [hcp]; exact hlt), hcp, UInt8.ofNat_toNat]
  · exact getString_plain h2 t

/-- `escape_string`. -/
def escapeString (s : Bytes) : Bytes := s.flatMap escapeByte

theorem scanString_escapeString (s t : Bytes) :
    scanString (escapeString s ++ dquote :: t) = some (escapeString s, t) := by
  induction s with
  | nil => exact scanString_quote t
  | cons c s ih =>
    simp only [escapeString, List.flatMap_cons, List.append_assoc] at ih ⊢
    rw [scanString_escapeByte, ih]
    rfl

theorem getString_escapeString (s : Bytes) : getString (escapeString s) = .ok s := by
  induction s with
  | nil => rfl
  | cons c s ih =>
    simp only [escapeString, List.flatMap_cons] at ih ⊢
    rw [getString_escapeByte, ih]
    rfl

/-- A cut inside an escaped string leaves it unfinished. -/
theorem scanString_cut {u s : Bytes} (h : u <+: escapeString s) : scanString u = none := by
  -- a token found in the cut text would be the token of the whole text, which is longer
  cases hu : scanString u with
  | none => rfl
  | some p =>
    obtain ⟨v, hv⟩ := h
    obtain ⟨heq, hext⟩ := scanString_eq hu
    have hfull := hext (v ++ [dquote])
    rw [← List.append_assoc, hv, scanString_escapeString] at hfull
    have hraw : escapeString s = p.1 := congrArg Prod.fst (Option.some.inj hfull)
    have hlen := congrArg List.length hv
    rw [heq, hraw] at hlen
    simp at hlen

/-! ## Single tokens -/

theorem scan_dquote (s : Bytes) :
    scan (dquote :: s) =
      match scanString s with
      | some (raw, rest) => (.valueString raw, rest)
      | none => (.parseError, []) := by
  rw [scan.eq_def]; rfl

theorem scan_string (s t : Bytes) :
    scan (dquote :: (escapeString s ++ dquote :: t)) = (.valueString (escapeString s), t) := by
  rw [scan_dquote, scanString_escapeString]

theorem scan_string_cut {u s : Bytes} (h : u <+: escapeString s) :
    scan (dquote :: u) = (.parseError, []) := by
  rw [scan_dquote, scanString_cut h]

theorem scan_colon (s : Bytes) : scan (colon :: s) = (.nameSeparator, s) := by
  rw [scan.eq_def]; rfl

theorem scan_comma (s : Bytes) : scan (comma :: s) = (.valueSeparator, s) := by
  rw [scan.eq_def]; rfl

theorem scan_lbrace (s : Bytes) : scan (lbrace :: s) = (.beginObject, s) := by
  rw [scan.eq_def]; rfl

theorem scan_rbrace (s : Bytes) : scan (rbrace :: s) = (.endObject, s) := by
  rw [scan.eq_def]; rfl

/-! ## Flat objects -/

/-- `"key":"value"`. -/
def dumpMember (kv : Bytes × Bytes) : Bytes :=
  dquote :: (escapeString kv.1 ++ dquote :: colon :: dquote :: (escapeString kv.2 ++ [dquote]))

/-- The members and the closing brace. -/
def dumpMembers : List (Bytes × Bytes) → Bytes
  | [] => [rbrace]
  | [kv] => dumpMember kv ++ [rbrace]
  | kv :: kv' :: kvs => dumpMember kv ++ comma :: dumpMembers (kv' :: kvs)

/-- `dump()` of an object whose members are strings. -/
def dump (kvs : List (Bytes × Bytes)) : Bytes := lbrace :: dumpMembers kvs

mutual
/-- `dump()` of any value; `number` is the text that the value read from a number token is written with. -/
def dumpValue (number : Bytes → Bytes) : Json → Bytes
  | .null => str "null"
  | .boolean b => if b then str "true" else str "false"
  | .number raw => number raw
  | .string s => dquote :: (escapeString s ++ [dquote])
  | .array xs => lbracket :: (dumpElements number xs ++ [rbracket])
  | .object ms => lbrace :: (dumpPairs number ms ++ [rbrace])

def dumpElements (number : Bytes → Bytes) : List Json → Bytes
  | [] => []
  | [x] => dumpValue number x
  | x :: y :: xs => dumpValue number x ++ comma :: dumpElements number (y :: xs)

def dumpPairs (number : Bytes → Bytes) : List (Bytes × Json) → Bytes
  | [] => []
  | [(k, v)] => dquote :: (escapeString k ++ dquote :: colon :: dumpValue number v)
  | (k, v) :: m :: ms =>
    dquote :: (escapeString k ++ dquote :: colon :: dumpValue number v) ++ comma :: dumpPairs number (m :: ms)
end

theorem dumpPairs_strings (number : Bytes → Bytes) : ∀ kvs : List (Bytes × Bytes), kvs ≠ [] →
    dumpPairs number (kvs.map fun kv => (kv.1, .string kv.2)) ++ [rbrace] = dumpMembers kvs
  | [], h => absurd rfl h
  | [kv], _ => by simp [dumpPairs, dumpMembers, dumpMember, dumpValue]
  | kv :: kv' :: kvs, _ => by
    have ih := dumpPairs_strings number (kv' :: kvs) (List.cons_ne_nil _ _)
    simp only [List.map_cons] at ih
    simp [dumpPairs, dumpMembers, dumpMember, dumpValue, ← ih]

/-- On an object whose members are strings, the two agree. -/
theorem dumpValue_strings (number : Bytes → Bytes) {kvs : List (Bytes × Bytes)} (h : kvs ≠ []) :
    dumpValue number (.object (kvs.map fun kv => (kv.1, .string kv.2))) = dump kvs := by
  rw [dumpValue, dumpPairs_strings number kvs h, dump]

/-- The members as the parser stores them. -/
def addMembers (kvs : List (Bytes × Bytes)) (members : List (Bytes × Json)) : List (Bytes × Json) :=
  kvs.foldl (fun ms kv => assign kv.1 (.string kv.2) ms) members

/-- Parsing one member leaves the loop at the token after it. -/
theorem parseMembers_member (fuel : Nat) (ms : List (Bytes × Json)) (kv : Bytes × Bytes) (t : Bytes) :
    parseMembers (fuel + 2) ms (scan (dumpMember kv ++ t)).1 (scan (dumpMember kv ++ t)).2 =
      match (scan t).1 with
      | .valueSeparator =>
        parseMembers (fuel + 1) (assign kv.1 (.string kv.2) ms) (scan (scan t).2).1 (scan (scan t).2).2
      | .endObject => .ok (.object (assign kv.1 (.string kv.2) ms), scan (scan t).2)
      | _ => .error .invalidArgument := by
  have hm : dumpMember kv ++ t = dquote :: (escapeString kv.1 ++ dquote ::
      colon :: dquote :: (escapeString kv.2 ++ dquote :: t)) := by simp [dumpMember]
  rw [hm, scan_string, parseMembers]
  simp only [getString_escapeString, scan_colon, scan_string, parseInternal]
  rfl

theorem parseMembers_dumpMembers : ∀ (kvs : List (Bytes × Bytes)), kvs ≠ [] →
    ∀ (fuel : Nat) (ms : List (Bytes × Json)) (w : Bytes), kvs.length + 1 ≤ fuel →
    parseMembers fuel ms (scan (dumpMembers kvs ++ w)).1 (scan (dumpMembers kvs ++ w)).2 =
      .ok (.object (addMembers kvs ms), scan w)
  | [], h, _, _, _, _ => absurd rfl h
  | [kv], _, fuel, ms, w, hf => by
    obtain ⟨n, rfl⟩ : ∃ n, fuel = n + 2 := ⟨fuel - 2, by simp at hf; omega⟩
    rw [dumpMembers, List.append_assoc, parseMembers_member, List.singleton_append, scan_rbrace]
    rfl
  | kv :: kv' :: kvs, _, fuel, ms, w, hf => by
    obtain ⟨n, rfl⟩ : ∃ n, fuel = n + 2 := ⟨fuel - 2, by simp at hf; omega⟩
    rw [dumpMembers, List.append_assoc, parseMembers_member, List.cons_append, scan_comma]
    exact parseMembers_dumpMembers (kv' :: kvs) (by simp) (n + 1) _ w (by simp at hf ⊢; omega)

/-! ## Texts that stop early -/

theorem prefix_append_cases {u a b : Bytes} (h : u <+: a ++ b) :
    u <+: a ∨ ∃ u', u = a ++ u' ∧ u' <+: b := by
  rcases List.prefix_or_prefix_of_prefix h (List.prefix_append a b) with h' | ⟨u', rfl⟩
  · exact Or.inl h'
  · exact Or.inr ⟨u', rfl, (List.prefix_append_right_inj a).mp h⟩

/-- A parse step on the end of the input or on a parse error fails, whatever the fuel. -/
theorem parseInternal_stop {t : Token} (h : t = .endOfInput ∨ t = .parseError) (fuel : Nat) (r : Bytes) :
    ∃ e, parseInternal fuel t r = .error e := by
  cases fuel with
  | zero => exact ⟨_, rfl⟩
  | succ fuel => rcases h with rfl | rfl <;> exact ⟨.invalidArgument, by simp [parseInternal]; rfl⟩

theorem parseMembers_stop {t : Token} (h : t = .endOfInput ∨ t = .parseError) (fuel : Nat)
    (ms : List (Bytes × Json)) (r : Bytes) : ∃ e, parseMembers fuel ms t r = .error e := by
  cases fuel with
  | zero => exact ⟨_, rfl⟩
  | succ fuel => rcases h with rfl | rfl <;> exact ⟨.invalidArgument, by simp [parseMembers]; rfl⟩

/-- One unit of fuel is not enough for a member. -/
theorem parseMembers_one (ms : List (Bytes × Json)) (t : Token) (r : Bytes) :
    ∃ e, parseMembers 1 ms t r = .error e := by
  unfold parseMembers
  split
  · next raw =>
    cases getString raw with
    | error e => exact ⟨e, rfl⟩
    | ok key =>
      simp only [bind, Except.bind]
      split
      · exact ⟨.fuel, by rw [parseInternal]; rfl⟩
      · exact ⟨.invalidArgument, rfl⟩
  · exact ⟨.invalidArgument, rfl⟩

/-- After a key, the loop needs a colon and then a value. -/
theorem parseMembers_key (fuel : Nat) (ms : List (Bytes × Json)) (k u : Bytes)
    (h : (scan u).1 ≠ .nameSeparator ∨
      (scan (scan u).2).1 = .endOfInput ∨ (scan (scan u).2).1 = .parseError) :
    ∃ e, parseMembers fuel ms (.valueString (escapeString k)) u = .error e := by
  cases fuel with
  | zero => exact ⟨_, rfl⟩
  | succ fuel =>
    rw [parseMembers]
    simp only [getString_escapeString]
    by_cases hc : (scan u).1 = .nameSeparator
    · obtain ⟨e, he⟩ := parseInternal_stop (h.resolve_left (fun hn => hn hc)) fuel (scan (scan u).2).2
      refine ⟨e, ?_⟩
      simp only [bind, Except.bind, hc, if_true, he]
    · refine ⟨.invalidArgument, ?_⟩
      simp only [bind, Except.bind, hc, if_false]
      rfl

theorem parseMembers_cut_member {u : Bytes} {kv : Bytes × Bytes} (h : u <+: dumpMember kv)
    (hne : u ≠ dumpMember kv) (fuel : Nat) (ms : List (Bytes × Json)) :
    ∃ e, parseMembers fuel ms (scan u).1 (scan u).2 = .error e := by
  unfold dumpMember at h hne
  -- the cut falls before the key's quote, inside the key, before the colon, ...
  rcases List.prefix_cons_iff.mp h with rfl | ⟨u1, rfl, h1⟩
  · exact parseMembers_stop (Or.inl rfl) _ _ _
  rcases prefix_append_cases h1 with h1 | ⟨u2, rfl, h2⟩
  · exact parseMembers_stop (Or.inr (by rw [scan_string_cut h1])) _ _ _
  rcases List.prefix_cons_iff.mp h2 with rfl | ⟨u3, rfl, h3⟩
  · rw [List.append_nil]
    exact parseMembers_stop (Or.inr (by rw [scan_string_cut List.prefix_rfl])) _ _ _
  rw [scan_string]
  apply parseMembers_key
  rcases List.prefix_cons_iff.mp h3 with rfl | ⟨u4, rfl, h4⟩
  · exact Or.inl (by simp [scan])
  rw [scan_colon]
  rcases List.prefix_cons_iff.mp h4 with rfl | ⟨u5, rfl, h5⟩
  · exact Or.inr (Or.inl rfl)
  refine Or.inr (Or.inr ?_)
  rcases prefix_append_cases h5 with h5 | ⟨u6, rfl, h6⟩
  · rw [scan_string_cut h5]
  rcases List.prefix_cons_iff.mp h6 with rfl | ⟨u7, rfl, h7⟩
  · rw [List.append_nil, scan_string_cut List.prefix_rfl]
  · exact absurd (by rw [List.prefix_nil.mp h7]) hne

/-- After a whole member the loop fails if nothing follows, and else goes on with what does. -/
theorem parseMembers_after_member {u : Bytes} (kv : Bytes × Bytes)
    (h : u = [] ∨ ∃ v, u = comma :: v ∧
      ∀ fuel ms, ∃ e, parseMembers fuel ms (scan v).1 (scan v).2 = .error e)
    (fuel : Nat) (ms : List (Bytes × Json)) :
    ∃ e, parseMembers fuel ms (scan (dumpMember kv ++ u)).1 (scan (dumpMember kv ++ u)).2 =
      .error e := by
  match fuel with
  | 0 => exact ⟨.fuel, by rw [parseMembers]; rfl⟩
  | 1 => exact parseMembers_one _ _ _
  | n + 2 =>
    rw [parseMembers_member]
    rcases h with rfl | ⟨v, rfl, hv⟩
    · exact ⟨.invalidArgument, rfl⟩
    · rw [scan_comma]
      exact hv _ _

theorem parseMembers_cut : ∀ (kvs : List (Bytes × Bytes)), kvs ≠ [] →
    ∀ (u : Bytes), u <+: dumpMembers kvs → u ≠ dumpMembers kvs →
    ∀ (fuel : Nat) (ms : List (Bytes × Json)),
    ∃ e, parseMembers fuel ms (scan u).1 (scan u).2 = .error e
  | [], hn, _, _, _, _, _ => absurd rfl hn
  | [kv], _, u, h, hne, fuel, ms => by
    rw [dumpMembers] at h hne
    rcases prefix_append_cases h with h | ⟨u1, rfl, h1⟩
    · by_cases hu : u = dumpMember kv
      · subst hu
        simpa using parseMembers_after_member kv (Or.inl rfl) fuel ms
      · exact parseMembers_cut_member h hu fuel ms
    · rcases List.prefix_cons_iff.mp h1 with rfl | ⟨u2, rfl, h2⟩
      · exact parseMembers_after_member kv (Or.inl rfl) fuel ms
      · exact absurd (by rw [List.prefix_nil.mp h2]) hne
  | kv :: kv' :: kvs, _, u, h, hne, fuel, ms => by
    rw [dumpMembers] at h hne
    rcases prefix_append_cases h with h | ⟨u1, rfl, h1⟩
    · by_cases hu : u = dumpMember kv
      · subst hu
        simpa using parseMembers_after_member kv (Or.inl rfl) fuel ms
      · exact parseMembers_cut_member h hu fuel ms
    · rcases List.prefix_cons_iff.mp h1 with rfl | ⟨u2, rfl, h2⟩
      · exact parseMembers_after_member kv (Or.inl rfl) fuel ms
      · refine parseMembers_after_member kv (Or.inr ⟨u2, rfl, ?_⟩) fuel ms
        exact parseMembers_cut (kv' :: kvs) (by simp) u2 h2 (fun e => hne (by rw [e]))

/-! ## Whole texts -/

/-- Only whitespace and byte order marks. -/
def blank : Bytes → Bool
  | [] => true
  | c :: s =>
    if isWhitespace c then blank s
    else if c = 0xef then
      match s with
      | b1 :: b2 :: s => if b1 = 0xbb && b2 = 0xbf then blank s else false
      | _ => false
    else false

theorem scan_whitespace {c : UInt8} (h : isWhitespace c = true) (s : Bytes) :
    scan (c :: s) = scan s := by
  conv_lhs => rw [scan.eq_def]
  simp [h]

theorem scan_bom (s : Bytes) : scan (0xef :: 0xbb :: 0xbf :: s) = scan s := by
  conv_lhs => rw [scan.eq_def]
  rfl

theorem scan_blank_append {b : Bytes} (h : blank b = true) (s : Bytes) : scan (b ++ s) = scan s := by
  fun_induction blank b with
  | case1 => rfl
  | case2 c b hc ih => rw [List.cons_append, scan_whitespace hc, ih h]
  | case3 b1 b2 b hb hc ih =>
    simp only [Bool.and_eq_true, decide_eq_true_eq] at hb
    obtain ⟨rfl, rfl⟩ := hb
    rw [List.cons_append, List.cons_append, List.cons_append, scan_bom, ih h]
  | _ => simp at h

theorem scanNumber_ne_end (s : Bytes) : (scanNumber s).1 ≠ .endOfInput := by
  unfold scanNumber
  simp only
  split
  · simp
  · split <;> simp

theorem scanLiteral_ne_end {token : Token} (h : token ≠ .endOfInput) (word s : Bytes) :
    (scanLiteral word token s).1 ≠ .endOfInput := by
  unfold scanLiteral
  split
  · exact h
  · simp

theorem blank_whitespace {c : UInt8} (h : isWhitespace c = true) (s : Bytes) :
    blank (c :: s) = blank s := by
  conv_lhs => rw [blank.eq_def]
  simp [h]

theorem blank_bom (s : Bytes) : blank (0xef :: 0xbb :: 0xbf :: s) = blank s := by
  conv_lhs => rw [blank.eq_def]
  rfl

/-- In a text without NUL, only a blank rest reads as the end of the input. -/
theorem scan_end_iff {s : Bytes} (h0 : 0 ∉ s) : (scan s).1 = .endOfInput ↔ blank s = true := by
  constructor
  · intro h
    fun_induction scan s with
    | case1 => rfl
    | case2 c s hc ih => rw [blank_whitespace hc, ih (fun hm => h0 (List.mem_cons_of_mem c hm)) h]
    | case3 => simp at h0
    | case12 => exact absurd h (scanNumber_ne_end _)
    | case13 | case14 | case15 => exact absurd h (scanLiteral_ne_end (by simp) _ _)
    | case16 b1 b2 s hb =>
      next ih =>
      simp only [Bool.and_eq_true, decide_eq_true_eq] at hb
      obtain ⟨rfl, rfl⟩ := hb
      rw [blank_bom, ih (fun hm => h0 (by simp [hm])) h]
    | _ => cases h
  · intro h
    have := scan_blank_append h []
    rw [List.append_nil] at this
    rw [this]; rfl

theorem dumpMembers_length : ∀ kvs : List (Bytes × Bytes), kvs.length ≤ (dumpMembers kvs).length
  | [] => by simp
  | [kv] => by simp [dumpMembers]
  | kv :: kv' :: kvs => by
    have := dumpMembers_length (kv' :: kvs)
    simp [dumpMembers] at this ⊢
    omega

theorem scan_dumpMembers {kvs : List (Bytes × Bytes)} (h : kvs ≠ []) (w : Bytes) :
    ∃ raw, (scan (dumpMembers kvs ++ w)).1 = .valueString raw := by
  match kvs, h with
  | [kv], _ =>
    exact ⟨escapeString kv.1, by simp [dumpMembers, dumpMember, scan_string]⟩
  | kv :: kv' :: kvs, _ =>
    exact ⟨escapeString kv.1, by simp [dumpMembers, dumpMember, scan_string]⟩

/-- A dumped object is read back as it was built; it may stand between blanks, and
    nothing else may follow it. -/
theorem parse_dump {kvs : List (Bytes × Bytes)} (hk : kvs ≠ []) {b : Bytes} (hb : blank b = true)
    (w : Bytes) :
    parse (b ++ (dump kvs ++ w)) =
      if (scan w).1 = .endOfInput then .ok (.object (addMembers kvs []))
      else .error .invalidArgument := by
  have hlen := dumpMembers_length kvs
  obtain ⟨raw, hraw⟩ := scan_dumpMembers hk w
  unfold parse
  rw [scan_blank_append hb, dump, List.cons_append, scan_lbrace]
  rw [parseInternal]
  simp only [hraw]
  rw [← hraw, parseMembers_dumpMembers kvs hk _ _ _ (by simp; omega)]
  simp only [hraw]
  rfl

/-- The loop's first token, cut or not, is neither `}` nor a comma. -/
theorem scan_cut_ne {kvs : List (Bytes × Bytes)} (hk : kvs ≠ []) {u : Bytes}
    (h : u <+: dumpMembers kvs) :
    (scan u).1 ≠ .endObject ∧ (scan u).1 ≠ .valueSeparator := by
  obtain ⟨rest, hd⟩ : ∃ rest, dumpMembers kvs = dquote :: rest := by
    match kvs, hk with
    | [kv], _ => exact ⟨_, rfl⟩
    | kv :: kv' :: kvs, _ => exact ⟨_, rfl⟩
  rw [hd] at h
  rcases List.prefix_cons_iff.mp h with rfl | ⟨u1, rfl, -⟩
  · exact ⟨by simp [scan], by simp [scan]⟩
  · rw [scan_dquote]
    cases scanString u1 <;> exact ⟨by simp, by simp⟩

/-- A text that stops before the closing brace is not a value. -/
theorem parse_cut {kvs : List (Bytes × Bytes)} (hk : kvs ≠ []) {b : Bytes} (hb : blank b = true)
    {u : Bytes} (h : u <+: dump kvs) (hne : u ≠ dump kvs) : ∃ e, parse (b ++ u) = .error e := by
  unfold parse
  rw [scan_blank_append hb]
  unfold dump at h hne
  rcases List.prefix_cons_iff.mp h with rfl | ⟨u1, rfl, h1⟩
  · obtain ⟨e, he⟩ := parseInternal_stop (Or.inl rfl) (2 * (b ++ []).length + 3) []
    exact ⟨e, by simp only [scan, he]; rfl⟩
  · obtain ⟨hb, hc⟩ := scan_cut_ne hk h1
    obtain ⟨e, he⟩ := parseMembers_cut kvs hk u1 h1 (fun heq => hne (by rw [heq]))
      (2 * (b ++ lbrace :: u1).length + 2) []
    refine ⟨e, ?_⟩
    rw [scan_lbrace, parseInternal]
    simp only [hb, hc, if_false, he]
    rfl

/-- Reading the beginning of a stream that starts with a dumped object: the read
    must take in the whole object and, up to its end, only blanks after it. -/
theorem parse_prefix {kvs : List (Bytes × Bytes)} (hk : kvs ≠ []) {b : Bytes} (hb : blank b = true)
    {u t : Bytes} (h : u <+: dump kvs ++ t) (j : Json) :
    parse (b ++ u) = .ok j ↔
      dump kvs <+: u ∧ (scan (u.drop (dump kvs).length)).1 = .endOfInput ∧
        j = .object (addMembers kvs []) := by
  by_cases hd : dump kvs <+: u
  · obtain ⟨w, rfl⟩ := hd
    rw [parse_dump hk hb, List.drop_left]
    split
    · next he => simp [he, eq_comm]
    · next he => simp [he]
  · have hu : u <+: dump kvs := by
      rcases prefix_append_cases h with hu | ⟨u1, rfl, -⟩
      · exact hu
      · exact absurd (List.prefix_append _ _) hd
    obtain ⟨e, he⟩ := parse_cut hk hb hu (fun heq => hd (heq ▸ List.prefix_rfl))
    simp [he, hd]

/-! ## The bytes of a dumped object -/

theorem hexify_printable : ∀ n < 32, (0x1f : UInt8) < hexify (UInt8.ofNat n >>> 4) ∧
    0x1f < hexify (UInt8.ofNat n &&& 0x0f) := by
  decide

theorem escapeByte_printable (c : UInt8) : ∀ x ∈ escapeByte c, 0x1f < x := by
  unfold escapeByte
  split_ifs with h1 h2 h3 h4 h5 h6 h7 h8
  iterate 7 exact List.forall_mem_cons.mpr ⟨by decide, List.forall_mem_singleton.mpr (by decide)⟩
  · have hlt : c.toNat < 32 := by
      have := UInt8.le_iff_toNat_le.mp h8
      simpa using Nat.lt_succ_of_le this
    have hp := hexify_printable c.toNat hlt
    rw [UInt8.ofNat_toNat] at hp
    have hb : 0x1f < backslash ∧ 0x1f < letterU := by decide
    simp [hp, hb]
  · simpa using h8

theorem escapeString_printable (s : Bytes) : ∀ x ∈ escapeString s, 0x1f < x := by
  intro x hx
  obtain ⟨c, -, hc⟩ := List.mem_flatMap.mp hx
  exact escapeByte_printable c x hc

theorem dumpMember_printable (kv : Bytes × Bytes) : ∀ x ∈ dumpMember kv, 0x1f < x := by
  have hq : 0x1f < dquote := by decide
  have hc : 0x1f < colon := by decide
  intro x hx
  simp only [dumpMember, List.mem_cons, List.mem_append, List.not_mem_nil, or_false] at hx
  rcases hx with rfl | hx | rfl | rfl | rfl | hx | rfl
  · exact hq
  · exact escapeString_printable _ x hx
  · exact hq
  · exact hc
  · exact hq
  · exact escapeString_printable _ x hx
  · exact hq

theorem dumpMembers_printable : ∀ (kvs : List (Bytes × Bytes)), ∀ x ∈ dumpMembers kvs, 0x1f < x
  | [], x, hx => by
    rw [List.mem_singleton.mp hx]; decide
  | [kv], x, hx => by
    rcases List.mem_append.mp hx with hx | hx
    · exact dumpMember_printable kv x hx
    · rw [List.mem_singleton.mp hx]; decide
  | kv :: kv' :: kvs, x, hx => by
    rcases List.mem_append.mp hx with hx | hx
    · exact dumpMember_printable kv x hx
    · rcases List.mem_cons.mp hx with rfl | hx
      · decide
      · exact dumpMembers_printable (kv' :: kvs) x hx

/-- No control byte is left in a dumped object: neither NUL nor a newline. -/
theorem dump_printable (kvs : List (Bytes × Bytes)) : ∀ x ∈ dump kvs, 0x1f < x := by
  intro x hx
  rcases List.mem_cons.mp hx with rfl | hx
  · decide
  · exact dumpMembers_printable kvs x hx

theorem dump_no_nul (kvs : List (Bytes × Bytes)) : 0 ∉ dump kvs :=
  fun h => absurd (dump_printable kvs 0 h) (by decide)

theorem dump_no_newline (kvs : List (Bytes × Bytes)) : newline ∉ dump kvs :=
  fun h => absurd (dump_printable kvs newline h) (by decide)

end VirtualSocket.Json
