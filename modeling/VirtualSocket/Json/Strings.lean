import VirtualSocket.Json.Flat

/- What a string token stands for. A literal is a row of pieces: bytes that stand for
   themselves, one-letter escapes, and characters spelled by their UTF-16 code units,
   which stand for the character's UTF-8 bytes. `string_iff`: the lexer takes a text
   up to a quote and `get_string` returns some bytes exactly when the text is such a
   literal and stands for these bytes. The one piece that stands for no character is a
   low surrogate by itself; a high one by itself is where `get_string` throws. -/
namespace VirtualSocket.Json

/-- Four hexadecimal digits and the number they spell. -/
inductive Hex4 : Bytes → Nat → Prop
  | digits {h1 h2 h3 h4 : UInt8} (hx1 : isHex h1 = true) (hx2 : isHex h2 = true) (hx3 : isHex h3 = true)
      (hx4 : isHex h4 = true) : Hex4 [h1, h2, h3, h4] (codepoint h1 h2 h3 h4)

abbrev HighSurrogate (n : Nat) : Prop := 0xd800 ≤ n ∧ n ≤ 0xdbff

abbrev LowSurrogate (n : Nat) : Prop := 0xdc00 ≤ n ∧ n ≤ 0xdfff

/-- `\uXXXX`. -/
def unicodeEscape (ds : Bytes) : Bytes := backslash :: letterU :: ds

/-- A piece of a literal and the bytes it stands for. -/
inductive Piece : Bytes → Bytes → Prop
  | plain {c : UInt8} (hq : c ≠ dquote) (hb : c ≠ backslash) (hc : ¬ c ≤ 0x1f) : Piece [c] [c]
  | short {e : UInt8} (he : isEscape e = true) : Piece [backslash, e] (unescape e)
  | char {ds : Bytes} {c : Char} (hd : Hex4 ds c.toNat) : Piece (unicodeEscape ds) (String.utf8EncodeChar c)
  | pair {ds es : Bytes} {hi lo : Nat} {c : Char} (hd : Hex4 ds hi) (he : Hex4 es lo) (hhi : HighSurrogate hi)
      (hlo : LowSurrogate lo) (hc : c.toNat = 0x10000 + (hi - 0xd800) * 0x400 + (lo - 0xdc00)) :
      Piece (unicodeEscape ds ++ unicodeEscape es) (String.utf8EncodeChar c)
  | lone {ds : Bytes} {n : Nat} (hd : Hex4 ds n) (hn : LowSurrogate n) :
      Piece (unicodeEscape ds) [0xed, UInt8.ofNat (0x80 + n / 64 % 64), UInt8.ofNat (0x80 + n % 64)]

inductive Literal : Bytes → Bytes → Prop
  | nil : Literal [] []
  | cons {raw out raws outs : Bytes} (hp : Piece raw out) (hl : Literal raws outs) :
      Literal (raw ++ raws) (out ++ outs)

/-- What the lexer takes for the text of a string: the same, with any two code units. -/
inductive Lexed : Bytes → Prop
  | nil : Lexed []
  | plain {c : UInt8} {s : Bytes} (hq : c ≠ dquote) (hb : c ≠ backslash) (hc : ¬ c ≤ 0x1f) (hs : Lexed s) :
      Lexed (c :: s)
  | short {e : UInt8} {s : Bytes} (he : isEscape e = true) (hs : Lexed s) : Lexed (backslash :: e :: s)
  | unicode {ds s : Bytes} {n : Nat} (hd : Hex4 ds n) (hs : Lexed s) : Lexed (unicodeEscape ds ++ s)

/-! ## The lexer -/

theorem scanString_lexed {raw : Bytes} (h : Lexed raw) (rest : Bytes) :
    scanString (raw ++ dquote :: rest) = some (raw, rest) := by
  induction h with
  | nil => exact scanString_quote rest
  | plain hq hb hc _ ih =>
    rw [List.cons_append, scanString_plain hq hb hc, ih]
    rfl
  | short he _ ih =>
    rw [List.cons_append, List.cons_append, scanString_escape he, ih]
    rfl
  | @unicode ds s n hd _ ih =>
    cases hd with
    | @digits h1 h2 h3 h4 hx1 hx2 hx3 hx4 =>
      show scanString (backslash :: letterU :: h1 :: h2 :: h3 :: h4 :: (s ++ dquote :: rest)) = _
      rw [scanString_unicode hx1 hx2 hx3 hx4, ih]
      rfl

theorem lexed_scanString {s raw rest : Bytes} (h : scanString s = some (raw, rest)) : Lexed raw := by
  fun_induction scanString s generalizing raw rest with
  | case2 s =>
    obtain ⟨rfl, -⟩ := Prod.mk.inj (Option.some.inj h)
    exact .nil
  | case4 h1 h2 h3 h4 s hx hd ih =>
    obtain ⟨⟨a, b⟩, hs, hp⟩ := Option.map_eq_some_iff.mp h
    obtain ⟨rfl, -⟩ := Prod.mk.inj hp
    simp only [Bool.and_eq_true] at hx
    exact .unicode (.digits hx.1.1.1 hx.1.1.2 hx.1.2 hx.2) (ih hs)
  | case7 e s hu he hd ih =>
    obtain ⟨⟨a, b⟩, hs, hp⟩ := Option.map_eq_some_iff.mp h
    obtain ⟨rfl, -⟩ := Prod.mk.inj hp
    exact .short he (ih hs)
  | case10 c s h1 h2 h3 ih =>
    obtain ⟨⟨a, b⟩, hs, hp⟩ := Option.map_eq_some_iff.mp h
    obtain ⟨rfl, -⟩ := Prod.mk.inj hp
    exact .plain h1 h2 h3 (ih hs)
  | _ => simp at h

/-! ## Code points -/

theorem hexValue_byte : ∀ n < 256, isHex (UInt8.ofNat n) = true → hexValue (UInt8.ofNat n) < 16 := by
  decide +kernel

theorem hexValue_lt {c : UInt8} (h : isHex c = true) : hexValue c < 16 := by
  have hb := hexValue_byte c.toNat c.toNat_lt
  rw [UInt8.ofNat_toNat] at hb
  exact hb h

theorem Hex4.lt {ds : Bytes} {n : Nat} (h : Hex4 ds n) : n < 0x10000 := by
  cases h with
  | digits hx1 hx2 hx3 hx4 =>
    have h1 := hexValue_lt hx1
    have h2 := hexValue_lt hx2
    have h3 := hexValue_lt hx3
    have h4 := hexValue_lt hx4
    unfold codepoint
    omega

theorem not_surrogate (c : Char) : ¬ HighSurrogate c.toNat ∧ ¬ LowSurrogate c.toNat ∧ c.toNat < 0x110000 := by
  have h := c.valid
  simp only [UInt32.isValidChar, Nat.isValidChar] at h
  unfold Char.toNat
  omega

theorem char_of_nat {n : Nat} (hh : ¬ HighSurrogate n) (hl : ¬ LowSurrogate n) (hn : n < 0x110000) :
    ∃ c : Char, c.toNat = n := by
  have hv : n.isValidChar := by
    unfold Nat.isValidChar
    omega
  have hs : n < UInt32.size := Nat.lt_trans hn (by decide)
  exact ⟨⟨UInt32.ofNatLT n hs, by rwa [UInt32.isValidChar, UInt32.toNat_ofNatLT]⟩, UInt32.toNat_ofNatLT⟩

theorem joinSurrogates_single {n : Nat} (h : ¬ HighSurrogate n) (m : Nat) : joinSurrogates n m = .ok n := by
  unfold joinSurrogates
  exact if_neg h

theorem joinSurrogates_pair {hi lo : Nat} (hhi : HighSurrogate hi) (hlo : LowSurrogate lo) :
    joinSurrogates hi lo = .ok (0x10000 + (hi - 0xd800) * 0x400 + (lo - 0xdc00)) := by
  have hsum : hi * 1024 + lo - 0x35fdc00 = 0x10000 + (hi - 0xd800) * 0x400 + (lo - 0xdc00) := by omega
  unfold joinSurrogates
  rw [if_pos hhi, if_pos hlo, hsum]
  rfl

theorem joinSurrogates_unpaired {hi n : Nat} (hhi : HighSurrogate hi) (hn : ¬ LowSurrogate n) :
    joinSurrogates hi n = .error .invalidArgument := by
  unfold joinSurrogates
  rw [if_pos hhi, if_neg hn]
  rfl

/-- The bytes of a code point that is a character's are the character's. -/
theorem toUnicode_char {n m : Nat} {c : Char} (h : joinSurrogates n m = .ok c.toNat) :
    toUnicode n m = .ok (String.utf8EncodeChar c) := by
  have hc := (not_surrogate c).2.2
  have hv : c.val.toNat = c.toNat := rfl
  unfold toUnicode String.utf8EncodeChar
  rw [h, hv]
  simp only [bind, Except.bind]
  split_ifs with h1 h2 h3 h4 h5 h6 h7 <;> first | omega | simp [pure, Except.pure, Nat.add_comm]

/-- A low surrogate by itself is written as if it were a character. -/
theorem toUnicode_lone {n : Nat} (h : LowSurrogate n) :
    toUnicode n 0 = .ok [0xed, UInt8.ofNat (0x80 + n / 64 % 64), UInt8.ofNat (0x80 + n % 64)] := by
  have hh : ¬ HighSurrogate n := by omega
  have hd : 0xe0 + n / 4096 % 16 = 0xed := by omega
  unfold toUnicode
  rw [joinSurrogates_single hh]
  simp only [bind, Except.bind]
  rw [if_neg (by omega), if_neg (by omega), if_pos (by omega), hd]
  rfl

/-! ## The bytes of a literal -/

/-- An escape whose code unit is no high surrogate. -/
theorem getString_unit {ds x : Bytes} {n : Nat} (hd : Hex4 ds n) (hh : ¬ HighSurrogate n)
    (hx : toUnicode n 0 = .ok x) (t : Bytes) :
    getString (unicodeEscape ds ++ t) = (x ++ ·) <$> getString t := by
  cases hd with
  | @digits h1 h2 h3 h4 =>
    show getString (backslash :: letterU :: h1 :: h2 :: h3 :: h4 :: t) = _
    rw [getString.eq_def]
    simp only [if_true, if_neg hh, hx]
    rfl

/-- A high surrogate takes the next escape with it. -/
theorem getString_pair {ds es : Bytes} {hi lo : Nat} (hd : Hex4 ds hi) (he : Hex4 es lo) (hh : HighSurrogate hi)
    (t : Bytes) : getString (unicodeEscape ds ++ (unicodeEscape es ++ t)) =
      toUnicode hi lo >>= fun x => (x ++ ·) <$> getString t := by
  cases hd with
  | @digits h1 h2 h3 h4 =>
    cases he with
    | @digits g1 g2 g3 g4 =>
      show getString (backslash :: letterU :: h1 :: h2 :: h3 :: h4 ::
        (backslash :: letterU :: g1 :: g2 :: g3 :: g4 :: t)) = _
      rw [getString.eq_def]
      simp only [if_true, if_pos hh, and_self]
      rfl

theorem getString_high {ds : Bytes} {hi : Nat} (hd : Hex4 ds hi) (hh : HighSurrogate hi) {t : Bytes}
    (ht : ∀ u, t ≠ backslash :: letterU :: u) :
    getString (unicodeEscape ds ++ t) = .error .invalidArgument := by
  cases hd with
  | @digits h1 h2 h3 h4 =>
    show getString (backslash :: letterU :: h1 :: h2 :: h3 :: h4 :: t) = _
    rw [getString.eq_def]
    simp only [if_true, if_pos hh]
    split
    · next b u g1 g2 g3 g4 s =>
      rw [if_neg]
      · rfl
      · intro hbu
        exact ht (g1 :: g2 :: g3 :: g4 :: s) (by rw [hbu.1, hbu.2])
    · rfl

theorem piece_getString {raw out : Bytes} (h : Piece raw out) (t : Bytes) :
    getString (raw ++ t) = (out ++ ·) <$> getString t := by
  cases h with
  | plain _ hb _ => exact getString_plain hb t
  | short he =>
    apply getString_escape
    intro hu
    subst hu
    exact absurd he (by decide)
  | @char _ c hd =>
    have hc := (not_surrogate c).1
    exact getString_unit hd hc (toUnicode_char (joinSurrogates_single hc 0)) t
  | pair hd he hhi hlo hc =>
    have hj := joinSurrogates_pair hhi hlo
    rw [← hc] at hj
    rw [List.append_assoc, getString_pair hd he hhi, toUnicode_char hj]
    rfl
  | lone hd hn => exact getString_unit hd (by omega) (toUnicode_lone hn) t

theorem literal_getString {raw out : Bytes} (h : Literal raw out) : getString raw = .ok out := by
  induction h with
  | nil => rfl
  | cons hp _ ih =>
    rw [piece_getString hp, ih]
    rfl

/-! ## Every lexed text -/

theorem piece_lexed {raw out s : Bytes} (h : Piece raw out) (hs : Lexed s) : Lexed (raw ++ s) := by
  cases h with
  | plain hq hb hc => exact .plain hq hb hc hs
  | short he => exact .short he hs
  | char hd => exact .unicode hd hs
  | pair hd he =>
    rw [List.append_assoc]
    exact .unicode hd (.unicode he hs)
  | lone hd => exact .unicode hd hs

theorem literal_lexed {raw out : Bytes} (h : Literal raw out) : Lexed raw := by
  induction h with
  | nil => exact .nil
  | cons hp _ ih => exact piece_lexed hp ih

/-- A literal, or a text with an unpaired high surrogate. -/
def Settled (raw : Bytes) : Prop := (∃ out, Literal raw out) ∨ getString raw = .error .invalidArgument

theorem settled_piece {raw out s : Bytes} (hp : Piece raw out) (hs : Settled s) : Settled (raw ++ s) := by
  cases hs with
  | inl h =>
    obtain ⟨outs, hl⟩ := h
    exact .inl ⟨out ++ outs, .cons hp hl⟩
  | inr h =>
    apply Or.inr
    rw [piece_getString hp, h]
    rfl

/-- A code unit that is no high surrogate is a piece. -/
theorem piece_unit {ds : Bytes} {n : Nat} (hd : Hex4 ds n) (hh : ¬ HighSurrogate n) :
    ∃ out, Piece (unicodeEscape ds) out := by
  by_cases hl : LowSurrogate n
  · exact ⟨_, .lone hd hl⟩
  · have hn := hd.lt
    obtain ⟨c, rfl⟩ := char_of_nat hh hl (by omega)
    exact ⟨_, .char hd⟩

theorem piece_pair {ds es : Bytes} {hi lo : Nat} (hd : Hex4 ds hi) (he : Hex4 es lo) (hhi : HighSurrogate hi)
    (hlo : LowSurrogate lo) : ∃ out, Piece (unicodeEscape ds ++ unicodeEscape es) out := by
  have hc : ∃ c : Char, c.toNat = 0x10000 + (hi - 0xd800) * 0x400 + (lo - 0xdc00) := by
    apply char_of_nat <;> omega
  obtain ⟨c, hc⟩ := hc
  exact ⟨_, .pair hd he hhi hlo hc⟩

theorem lexed_settled : ∀ {raw : Bytes}, Lexed raw → Settled raw := by
  -- on the length: a pair takes two escapes at once
  have go : ∀ n (raw : Bytes), raw.length ≤ n → Lexed raw → Settled raw := by
    intro n
    induction n with
    | zero =>
      intro raw hn _
      rw [List.eq_nil_of_length_eq_zero (Nat.le_zero.mp hn)]
      exact .inl ⟨[], .nil⟩
    | succ n ih =>
      intro raw hn h
      cases h with
      | nil => exact .inl ⟨[], .nil⟩
      | @plain c s hq hb hc hs =>
        exact settled_piece (.plain hq hb hc) (ih s (Nat.le_of_succ_le_succ hn) hs)
      | @short e s he hs =>
        have hlen : s.length ≤ n := by
          simp only [List.length_cons] at hn
          omega
        exact settled_piece (.short he) (ih s hlen hs)
      | @unicode ds s hi hd hs =>
        have hlen : s.length + 2 ≤ n + 1 := by
          simp only [unicodeEscape, List.length_append, List.length_cons] at hn
          omega
        by_cases hh : HighSurrogate hi
        · cases hs with
          | @unicode es t lo he ht =>
            by_cases hl : LowSurrogate lo
            · have ht' : t.length ≤ n := by
                simp only [unicodeEscape, List.length_append, List.length_cons] at hlen
                omega
              obtain ⟨out, hp⟩ := piece_pair hd he hh hl
              rw [← List.append_assoc]
              exact settled_piece hp (ih t ht' ht)
            · apply Or.inr
              rw [getString_pair hd he hh, toUnicode, joinSurrogates_unpaired hh hl]
              rfl
          | nil => exact .inr (getString_high hd hh (by simp))
          | @plain c s hq hb =>
            apply Or.inr
            apply getString_high hd hh
            intro u hu
            exact hb (List.cons.inj hu).1
          | @short e s he =>
            apply Or.inr
            apply getString_high hd hh
            intro u hu
            rw [(List.cons.inj (List.cons.inj hu).2).1] at he
            exact absurd he (by decide)
        · obtain ⟨out, hp⟩ := piece_unit hd hh
          exact settled_piece hp (ih s (by omega) hs)
  intro raw h
  exact go raw.length raw le_rfl h

/-- What `get_string` returns of a text the lexer took, the text stands for. -/
theorem literal_of_scan {s raw rest out : Bytes} (hs : scanString s = some (raw, rest))
    (hg : getString raw = .ok out) : Literal raw out := by
  cases lexed_settled (lexed_scanString hs) with
  | inl hl =>
    obtain ⟨out', hl⟩ := hl
    rw [literal_getString hl] at hg
    rwa [← Except.ok.inj hg]
  | inr he =>
    rw [he] at hg
    cases hg

/-- The lexer and `get_string` take a text up to a quote for some bytes exactly when the text is a
    literal that stands for them; on any other text the lexer takes, `get_string` throws. -/
theorem string_iff (s raw rest out : Bytes) :
    (scanString s = some (raw, rest) ∧ getString raw = .ok out ↔
      s = raw ++ dquote :: rest ∧ Literal raw out) ∧
    (scanString s = some (raw, rest) → (∀ out, ¬ Literal raw out) → getString raw = .error .invalidArgument) := by
  refine ⟨⟨?_, ?_⟩, ?_⟩
  · intro h
    obtain ⟨hs, hg⟩ := h
    exact ⟨(scanString_eq hs).1, literal_of_scan hs hg⟩
  · intro h
    obtain ⟨rfl, hl⟩ := h
    exact ⟨scanString_lexed (literal_lexed hl) rest, literal_getString hl⟩
  · intro hs hn
    cases lexed_settled (lexed_scanString hs) with
    | inl hl =>
      obtain ⟨out', hl⟩ := hl
      exact absurd hl (hn out')
    | inr he => exact he

end VirtualSocket.Json
