import VirtualSocket.Bytes

/- The lexer of the vendored json.hpp (class `lexer`): `scan` reads one token of
   a buffer the way the generated automaton does, skipping whitespace and byte
   order marks first, and `getString` turns the text of a string token into its
   bytes. A buffer's end and a NUL byte both read as the end of the input; the
   lexer does not look at UTF-8. Number tokens keep their text: no caller of
   this repository converts one. -/
namespace VirtualSocket.Json

/-- What the calls of json.hpp throw. `fuel` is no exception of the library: it
    marks a parse that ran out of its recursion bound, which `parse_ne_fuel`
    excludes. -/
inductive Exn where
  | invalidArgument
  | domainError
  | outOfRange
  | fuel
  deriving DecidableEq, Repr

/-- `lexer::token_type`; a string or number token carries its text between the quotes. -/
inductive Token where
  | literalTrue
  | literalFalse
  | literalNull
  | valueString (raw : Bytes)
  | valueNumber (raw : Bytes)
  | beginArray
  | beginObject
  | endArray
  | endObject
  | nameSeparator
  | valueSeparator
  | parseError
  | endOfInput
  deriving DecidableEq, Repr

def dquote : UInt8 := 0x22
def backslash : UInt8 := 0x5c
def comma : UInt8 := 0x2c
def colon : UInt8 := 0x3a
def lbrace : UInt8 := 0x7b
def rbrace : UInt8 := 0x7d
def lbracket : UInt8 := 0x5b
def rbracket : UInt8 := 0x5d
def letterU : UInt8 := 0x75

/-- The bytes `scan` skips (bit 32 of its table). -/
def isWhitespace (c : UInt8) : Bool := c == 0x20 || c == 0x09 || c == 0x0a || c == 0x0d

def isHex (c : UInt8) : Bool :=
  isDigit c || (0x41 ≤ c && c ≤ 0x46) || (0x61 ≤ c && c ≤ 0x66)

/-- The letters that may follow a backslash, the `u` of `\uXXXX` aside. -/
def isEscape (c : UInt8) : Bool :=
  c == dquote || c == backslash || c == 0x2f || c == 0x62 || c == 0x66 || c == 0x6e ||
    c == 0x72 || c == 0x74

/-- The rest of a string token after its opening quote: the text up to the
    closing quote and what follows it. A control byte, a bad escape or the end
    of the buffer is a parse error. -/
def scanString : Bytes → Option (Bytes × Bytes)
  | [] => none
  | c :: s =>
    if c = dquote then some ([], s)
    else if c = backslash then
      match s with
      | [] => none
      | e :: s =>
        if e = letterU then
          match s with
          | h1 :: h2 :: h3 :: h4 :: s =>
            if isHex h1 && isHex h2 && isHex h3 && isHex h4 then
              (scanString s).map fun p => (c :: e :: h1 :: h2 :: h3 :: h4 :: p.1, p.2)
            else none
          | _ => none
        else if isEscape e then (scanString s).map fun p => (c :: e :: p.1, p.2)
        else none
    else if c ≤ 0x1f then none
    else (scanString s).map fun p => (c :: p.1, p.2)

/-- `.` and at least one digit, or nothing: the automaton backs up to its marker. -/
def scanFraction (raw s : Bytes) : Bytes × Bytes :=
  match s with
  | p :: d :: t =>
    if p = 0x2e && isDigit d then (raw ++ p :: d :: t.takeWhile isDigit, t.dropWhile isDigit)
    else (raw, s)
  | _ => (raw, s)

/-- `e`, an optional sign and at least one digit, or nothing. -/
def scanExponent (raw s : Bytes) : Bytes × Bytes :=
  match s with
  | e :: t =>
    if e = 0x65 || e = 0x45 then
      let sign := (t.take 1).filter fun c => c == 0x2b || c == 0x2d
      let t := t.drop sign.length
      if (t.takeWhile isDigit).isEmpty then (raw, s)
      else (raw ++ e :: sign ++ t.takeWhile isDigit, t.dropWhile isDigit)
    else (raw, s)
  | [] => (raw, s)

/-- A number token: `0` or digits without a leading zero, after an optional minus. -/
def scanNumber (s : Bytes) : Token × Bytes :=
  let sign := (s.take 1).filter (· == 0x2d)
  match s.drop sign.length with
  | [] => (.parseError, [])
  | c :: t =>
    if isDigit c then
      -- nothing but a fraction or an exponent follows a leading zero
      let digits := if c = 0x30 then [] else t.takeWhile isDigit
      let (raw, t) := scanFraction (sign ++ c :: digits) (t.drop digits.length)
      let (raw, t) := scanExponent raw t
      (.valueNumber raw, t)
    else (.parseError, [])

/-- A keyword: every byte of it, or a parse error. -/
def scanLiteral (word : Bytes) (token : Token) (s : Bytes) : Token × Bytes :=
  if word.isPrefixOf s then (token, s.drop word.length) else (.parseError, [])

/-- `lexer::scan`: the next token and the bytes after it (none are read after a
    parse error). -/
def scan : Bytes → Token × Bytes
  | [] => (.endOfInput, [])
  | c :: s =>
    if isWhitespace c then scan s
    -- the buffer ends with a NUL, and the automaton takes any NUL for its end
    else if c = 0 then (.endOfInput, s)
    else if c = dquote then
      match scanString s with
      | some (raw, rest) => (.valueString raw, rest)
      | none => (.parseError, [])
    else if c = comma then (.valueSeparator, s)
    else if c = colon then (.nameSeparator, s)
    else if c = lbracket then (.beginArray, s)
    else if c = rbracket then (.endArray, s)
    else if c = lbrace then (.beginObject, s)
    else if c = rbrace then (.endObject, s)
    else if c = 0x2d || isDigit c then scanNumber (c :: s)
    else if c = 0x66 then scanLiteral (str "false") .literalFalse (c :: s)
    else if c = 0x6e then scanLiteral (str "null") .literalNull (c :: s)
    else if c = 0x74 then scanLiteral (str "true") .literalTrue (c :: s)
    -- a byte order mark is skipped wherever it stands
    else if c = 0xef then
      match s with
      | b1 :: b2 :: s => if b1 = 0xbb && b2 = 0xbf then scan s else (.parseError, [])
      | _ => (.parseError, [])
    else (.parseError, [])

/-! ## The value of a string token -/

def hexValue (c : UInt8) : Nat :=
  if isDigit c then c.toNat - 48 else if 0x61 ≤ c then c.toNat - 87 else c.toNat - 55

/-- `strtoul(.., 16)` on the four digits of a `\uXXXX`. -/
def codepoint (h1 h2 h3 h4 : UInt8) : Nat :=
  ((hexValue h1 * 16 + hexValue h2) * 16 + hexValue h3) * 16 + hexValue h4

/-- The code point of `to_unicode`'s arguments: the first, or a surrogate pair's. -/
def joinSurrogates (codepoint1 codepoint2 : Nat) : Except Exn Nat :=
  if 0xd800 ≤ codepoint1 ∧ codepoint1 ≤ 0xdbff then
    if 0xdc00 ≤ codepoint2 ∧ codepoint2 ≤ 0xdfff then
      pure (codepoint1 * 1024 + codepoint2 - 0x35fdc00)
    else throw .invalidArgument
  else pure codepoint1

/-- `lexer::to_unicode`: the UTF-8 bytes of a code point, or of a surrogate pair. -/
def toUnicode (codepoint1 codepoint2 : Nat) : Except Exn Bytes := do
  let cp ← joinSurrogates codepoint1 codepoint2
  if cp < 0x80 then pure [UInt8.ofNat cp]
  else if cp ≤ 0x7ff then
    pure [UInt8.ofNat (0xc0 + cp / 64 % 32), UInt8.ofNat (0x80 + cp % 64)]
  else if cp ≤ 0xffff then
    pure [UInt8.ofNat (0xe0 + cp / 4096 % 16), UInt8.ofNat (0x80 + cp / 64 % 64),
      UInt8.ofNat (0x80 + cp % 64)]
  else if cp ≤ 0x10ffff then
    pure [UInt8.ofNat (0xf0 + cp / 262144 % 8), UInt8.ofNat (0x80 + cp / 4096 % 64),
      UInt8.ofNat (0x80 + cp / 64 % 64), UInt8.ofNat (0x80 + cp % 64)]
  else throw .outOfRange

/-- The byte a one-letter escape stands for; `get_string` adds nothing for other letters. -/
def unescape (e : UInt8) : Bytes :=
  if e = 0x74 then [0x09]
  else if e = 0x62 then [0x08]
  else if e = 0x66 then [0x0c]
  else if e = 0x6e then [0x0a]
  else if e = 0x72 then [0x0d]
  else if e = backslash then [backslash]
  else if e = 0x2f then [0x2f]
  else if e = dquote then [dquote]
  else []

/-- `lexer::get_string` on the text between the quotes. The lexer has checked
    the escapes, so the short cases of a `\` or `\u` at the end never arise. -/
def getString : Bytes → Except Exn Bytes
  | [] => pure []
  | c :: s =>
    if c = backslash then
      match s with
      | [] => pure []
      | e :: s =>
        if e = letterU then
          match s with
          | h1 :: h2 :: h3 :: h4 :: s =>
            let cp := codepoint h1 h2 h3 h4
            -- a high surrogate needs a second escape right behind it
            if 0xd800 ≤ cp ∧ cp ≤ 0xdbff then
              match s with
              | b :: u :: g1 :: g2 :: g3 :: g4 :: s =>
                if b = backslash ∧ u = letterU then do
                  let x ← toUnicode cp (codepoint g1 g2 g3 g4)
                  let rest ← getString s
                  pure (x ++ rest)
                else throw .invalidArgument
              | _ => throw .invalidArgument
            else do
              let x ← toUnicode cp 0
              let rest ← getString s
              pure (x ++ rest)
          | _ => pure []
        else do
          let rest ← getString s
          pure (unescape e ++ rest)
    else do
      let rest ← getString s
      pure (c :: rest)

/-! ## What a token takes from the buffer -/

/-- A string token takes its text and the closing quote, and does not look past them. -/
theorem scanString_eq {s raw rest : Bytes} (h : scanString s = some (raw, rest)) :
    s = raw ++ dquote :: rest ∧ ∀ v, scanString (s ++ v) = some (raw, rest ++ v) := by
  fun_induction scanString s generalizing raw rest with
  | case2 s =>
    obtain ⟨rfl, rfl⟩ := Prod.mk.inj (Option.some.inj h)
    exact ⟨rfl, fun v => by rw [List.cons_append, scanString.eq_def]; rfl⟩
  | case4 h1 h2 h3 h4 s hx hd ih =>
    obtain ⟨⟨a, b⟩, hs, hp⟩ := Option.map_eq_some_iff.mp h
    obtain ⟨rfl, rfl⟩ := Prod.mk.inj hp
    obtain ⟨he, hv⟩ := ih hs
    refine ⟨by simp [he], ?_⟩
    intro v
    simp only [List.cons_append]
    rw [scanString.eq_def]
    simp [hd, hx, hv v]
  | case7 e s hu he hd ih =>
    obtain ⟨⟨a, b⟩, hs, hp⟩ := Option.map_eq_some_iff.mp h
    obtain ⟨rfl, rfl⟩ := Prod.mk.inj hp
    obtain ⟨heq, hv⟩ := ih hs
    refine ⟨by simp [heq], ?_⟩
    intro v
    simp only [List.cons_append]
    rw [scanString.eq_def]
    simp [hd, hu, he, hv v]
  | case10 c s h1 h2 h3 ih =>
    obtain ⟨⟨a, b⟩, hs, hp⟩ := Option.map_eq_some_iff.mp h
    obtain ⟨rfl, rfl⟩ := Prod.mk.inj hp
    obtain ⟨heq, hv⟩ := ih hs
    refine ⟨by simp [heq], ?_⟩
    intro v
    simp only [List.cons_append]
    rw [scanString.eq_def]
    simp [h1, h2, h3, hv v]
  | _ => simp at h

theorem scanString_length {s raw rest : Bytes} (h : scanString s = some (raw, rest)) :
    rest.length < s.length := by
  rw [(scanString_eq h).1]
  simp; omega

theorem scanFraction_length (raw s : Bytes) : (scanFraction raw s).2.length ≤ s.length := by
  unfold scanFraction
  split
  · next p d t =>
    have := List.length_dropWhile_le isDigit t
    split <;> simp; omega
  · simp

theorem scanExponent_length (raw s : Bytes) : (scanExponent raw s).2.length ≤ s.length := by
  unfold scanExponent
  split
  · next e t =>
    simp only
    split
    · have := List.length_dropWhile_le isDigit (t.drop ((t.take 1).filter fun c => c == 0x2b || c == 0x2d).length)
      rw [List.length_drop] at this
      split <;> simp; omega
    · simp
  · simp

theorem scanNumber_length (c : UInt8) (s : Bytes) : (scanNumber (c :: s)).2.length < (c :: s).length := by
  unfold scanNumber
  simp only
  split
  · simp
  · next d t ht =>
    have hd := congrArg List.length ht
    rw [List.length_drop, List.length_cons] at hd
    split
    · have h1 := scanExponent_length
      have h2 := scanFraction_length
      grind
    · simp

theorem scanLiteral_length {word s : Bytes} {token : Token} (hw : word ≠ []) (hs : s ≠ []) :
    (scanLiteral word token s).2.length < s.length := by
  have h1 := List.length_pos_iff.mpr hw
  have h2 := List.length_pos_iff.mpr hs
  unfold scanLiteral
  split
  · rw [List.length_drop]; omega
  · exact h2

/-- Every token but the end of the input takes at least one byte. -/
theorem scan_length (s : Bytes) :
    (scan s).2.length ≤ s.length ∧
      ((scan s).1 ≠ .endOfInput → (scan s).2.length < s.length) := by
  fun_induction scan s with
  | case2 c s hw ih =>
    exact ⟨Nat.le_succ_of_le ih.1, fun h => Nat.lt_succ_of_lt (ih.2 h)⟩
  | case4 s raw rest hs hw hc =>
    have := scanString_length hs
    simp; omega
  | case12 c s =>
    have := scanNumber_length c s
    exact ⟨this.le, fun _ => this⟩
  | case13 s =>
    have := @scanLiteral_length (str "false") (0x66 :: s) .literalFalse (by decide) (by simp)
    exact ⟨this.le, fun _ => this⟩
  | case14 s =>
    have := @scanLiteral_length (str "null") (0x6e :: s) .literalNull (by decide) (by simp)
    exact ⟨this.le, fun _ => this⟩
  | case15 s =>
    have := @scanLiteral_length (str "true") (0x74 :: s) .literalTrue (by decide) (by simp)
    exact ⟨this.le, fun _ => this⟩
  | case16 =>
    next ih =>
    simp only [List.length_cons]
    exact ⟨by omega, fun h => by have := ih.2 h; omega⟩
  | _ => simp

end VirtualSocket.Json
