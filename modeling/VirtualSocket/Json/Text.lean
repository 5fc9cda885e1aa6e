import VirtualSocket.Json.RoundTrip
import VirtualSocket.Json.Strings

/- The texts `json::parse` accepts, byte by byte: `Text` is a grammar that names
   neither the lexer nor the parser, and `parse_text_iff` says that a text is
   parsed to a value exactly when the grammar gives it that value, up to the end
   of the buffer or its first NUL. It is the grammar of JSON with these habits of
   the source: a byte order mark is blank wherever it stands, bytes above 0x7f
   are copied unread, and a low surrogate may stand alone. -/
namespace VirtualSocket.Json

/-! ## Numerals -/

def DigitRun (ds : Bytes) : Prop := ds ≠ [] ∧ ∀ c ∈ ds, isDigit c = true

/-- `0`, or digits that begin with another one. -/
inductive Whole : Bytes → Prop
  | zero : Whole [0x30]
  | digits {c : UInt8} {ds : Bytes} (hc : c ≠ 0x30) (hd : DigitRun (c :: ds)) : Whole (c :: ds)

inductive Fraction : Bytes → Prop
  | none : Fraction []
  | some {ds : Bytes} (hd : DigitRun ds) : Fraction (0x2e :: ds)

inductive Exponent : Bytes → Prop
  | none : Exponent []
  | plain {e : UInt8} {ds : Bytes} (he : isExponent e = true) (hd : DigitRun ds) : Exponent (e :: ds)
  | signed {e sign : UInt8} {ds : Bytes} (he : isExponent e = true) (hs : isSign sign = true) (hd : DigitRun ds) :
      Exponent (e :: sign :: ds)

inductive Numeral : Bytes → Prop
  | mk {sign ds f x : Bytes} (hs : sign = [] ∨ sign = [0x2d]) (hd : Whole ds) (hf : Fraction f) (hx : Exponent x) :
      Numeral (sign ++ (ds ++ (f ++ x)))

theorem digitRun_takeWhile {c : UInt8} (h : isDigit c = true) (t : Bytes) : DigitRun (c :: t.takeWhile isDigit) := by
  refine ⟨List.cons_ne_nil _ _, ?_⟩
  intro b hb
  cases hb with
  | head => exact h
  | tail _ hb => exact List.mem_takeWhile_imp hb

theorem DigitRun.takeWhile {ds : Bytes} (h : DigitRun ds) : ds.takeWhile isDigit = ds ∧ ds.dropWhile isDigit = [] :=
  ⟨List.takeWhile_eq_self_iff.mpr h.2, List.dropWhile_eq_nil_iff.mpr h.2⟩

theorem scanFraction_split (raw s : Bytes) : ∃ f, Fraction f ∧ s = f ++ (scanFraction raw s).2 ∧
    (scanFraction raw s).1 = raw ++ f := by
  unfold scanFraction
  split
  · next p d t =>
    split
    · next hpd =>
      obtain ⟨hp, hd⟩ := (Bool.and_eq_true _ _).mp hpd
      obtain rfl := of_decide_eq_true hp
      exact ⟨_, .some (digitRun_takeWhile hd t), by simp [List.takeWhile_append_dropWhile], rfl⟩
    · exact ⟨[], .none, rfl, by simp⟩
  · exact ⟨[], .none, rfl, by simp⟩

theorem scanExponent_split (raw s : Bytes) : ∃ x, Exponent x ∧ s = x ++ (scanExponent raw s).2 ∧
    (scanExponent raw s).1 = raw ++ x := by
  cases s with
  | nil => exact ⟨[], .none, rfl, by simp [scanExponent]⟩
  | cons e t =>
    cases he : isExponent e with
    | false =>
      rw [scanExponent_other (ends_cons he)]
      exact ⟨[], .none, rfl, by simp⟩
    | true =>
      rw [scanExponent_cons he]
      simp only
      obtain ⟨hsplit, -⟩ := option_split isSign t
      have hsign : (t.take 1).filter isSign = [] ∨ ∃ c, (t.take 1).filter isSign = [c] ∧ isSign c = true := by
        cases t with
        | nil => exact Or.inl rfl
        | cons c t => cases hc : isSign c <;> simp [hc]
      generalize (t.take 1).filter isSign = sign at *
      generalize t.drop sign.length = u at *
      split
      · exact ⟨[], .none, rfl, by simp⟩
      · next hu =>
        have hd : DigitRun (u.takeWhile isDigit) :=
          ⟨fun hn => hu (by rw [hn]; rfl), fun b hb => List.mem_takeWhile_imp hb⟩
        refine ⟨e :: (sign ++ u.takeWhile isDigit), ?_, ?_, rfl⟩
        · cases hsign with
          | inl hn =>
            rw [hn]
            exact .plain he hd
          | inr hc =>
            obtain ⟨c, hc, hcs⟩ := hc
            rw [hc]
            exact .signed he hcs hd
        · rw [List.cons_append, List.append_assoc, List.takeWhile_append_dropWhile, hsplit]

/-- A number token takes a numeral from the front of the text. -/
theorem scanNumber_numeral {s raw rest : Bytes} (h : scanNumber s = (.valueNumber raw, rest)) :
    Numeral raw ∧ s = raw ++ rest := by
  obtain ⟨sign, c, t, hs, hc, rfl⟩ := scanNumber_some h
  rw [scanNumber_cons hs hc] at h
  simp only at h
  obtain ⟨f, hf, hsf, hrf⟩ := scanFraction_split (sign ++ c :: moreDigits c t) (t.drop (moreDigits c t).length)
  generalize scanFraction (sign ++ c :: moreDigits c t) (t.drop (moreDigits c t).length) = p at *
  obtain ⟨x, hx, hsx, hrx⟩ := scanExponent_split p.1 p.2
  generalize scanExponent p.1 p.2 = q at *
  obtain ⟨hraw, rfl⟩ := Prod.mk.inj h
  have hraw' : raw = sign ++ (c :: moreDigits c t ++ (f ++ x)) := by
    rw [← Token.valueNumber.inj hraw, hrx, hrf]
    simp
  have hwhole : Whole (c :: moreDigits c t) := by
    by_cases h0 : c = 0x30
    · rw [moreDigits, if_pos h0, h0]
      exact .zero
    · rw [moreDigits, if_neg h0]
      exact .digits h0 (digitRun_takeWhile hc t)
  constructor
  · rw [hraw']
    exact .mk hs hwhole hf hx
  · rw [hraw']
    have ht : t = moreDigits c t ++ (f ++ (x ++ q.2)) := by
      rw [← hsx, ← hsf, moreDigits_split]
    calc sign ++ c :: t = sign ++ c :: (moreDigits c t ++ (f ++ (x ++ q.2))) := by rw [← ht]
      _ = sign ++ (c :: moreDigits c t ++ (f ++ x)) ++ q.2 := by simp

theorem ends_digitRun {ds : Bytes} (h : DigitRun ds) : Ends isSign ds := by
  intro c t hc
  have hd : isDigit c = true := h.2 c (hc ▸ List.mem_cons_self)
  by_contra hs
  simp only [isSign, Bool.not_eq_false, Bool.or_eq_true, beq_iff_eq] at hs
  rcases hs with rfl | rfl <;> exact absurd hd (by decide)

theorem exponent_ends {x : Bytes} (h : Exponent x) : Ends (fun c => isDigit c || isPoint c) x := by
  cases h with
  | none => exact ends_nil _
  | plain he _ => exact ends_cons (by simp [isExponent_not he])
  | signed he _ _ => exact ends_cons (by simp [isExponent_not he])

theorem scanExponent_numeral {x : Bytes} (h : Exponent x) (raw : Bytes) : scanExponent raw x = (raw ++ x, []) := by
  cases h with
  | none => simp [scanExponent]
  | @plain e ds he hd =>
    obtain ⟨h1, h2⟩ := hd.takeWhile
    have hsign : (ds.take 1).filter isSign = [] := by
      have ho := (option_append (ends_digitRun hd) []).1
      simpa using ho
    rw [scanExponent_cons he, hsign]
    simp only [List.length_nil, List.drop_zero, h1, h2]
    rw [if_neg (by simpa using hd.1)]
    rfl
  | @signed e sign ds he hs hd =>
    obtain ⟨h1, h2⟩ := hd.takeWhile
    have hsign : ((sign :: ds).take 1).filter isSign = [sign] := by simp [hs]
    rw [scanExponent_cons he, hsign]
    simp only [List.length_singleton, List.drop_one, List.tail_cons, h1, h2]
    rw [if_neg (by simpa using hd.1)]
    rfl

theorem scanFraction_numeral {f x : Bytes} (h : Fraction f) (hx : Ends (fun c => isDigit c || isPoint c) x)
    (raw : Bytes) : scanFraction raw (f ++ x) = (raw ++ f, x) := by
  cases h with
  | none =>
    rw [scanFraction_append raw [] hx]
    simp [scanFraction]
  | @some ds hd =>
    obtain ⟨h1, h2⟩ := hd.takeWhile
    have hxd : Ends isDigit x := hx.mono fun c hc => (Bool.or_eq_false_iff.mp hc).1
    obtain ⟨hne, hall⟩ := hd
    cases ds with
    | nil => exact absurd rfl hne
    | cons d ds =>
      have hd' : isDigit d = true := hall d List.mem_cons_self
      have h3 : ds.takeWhile isDigit = ds :=
        List.takeWhile_eq_self_iff.mpr fun b hb => hall b (List.mem_cons_of_mem d hb)
      have h4 : ds.dropWhile isDigit = [] :=
        List.dropWhile_eq_nil_iff.mpr fun b hb => hall b (List.mem_cons_of_mem d hb)
      simp [scanFraction, hd', takeWhile_ends hxd, dropWhile_ends hxd, h3, h4]

/-- The numerals are the texts of the number tokens. -/
theorem isNumber_iff {raw : Bytes} : IsNumber raw ↔ Numeral raw := by
  constructor
  · intro h
    exact (scanNumber_numeral h).1
  · intro h
    cases h with
    | @mk sign ds f x hs hd hf hx =>
      have hfx : Ends isDigit (f ++ x) := by
        cases hf with
        | none => exact (exponent_ends hx).mono fun c hc => (Bool.or_eq_false_iff.mp hc).1
        | some => exact ends_cons (by decide)
      obtain ⟨c, u, rfl, hc, hmore⟩ : ∃ c u, ds = c :: u ∧ isDigit c = true ∧ moreDigits c (u ++ (f ++ x)) = u := by
        cases hd with
        | zero => exact ⟨0x30, [], rfl, by decide, by simp [moreDigits]⟩
        | @digits c ds h0 hd =>
          have hds : ds.takeWhile isDigit = ds :=
            List.takeWhile_eq_self_iff.mpr fun b hb => hd.2 b (List.mem_cons_of_mem c hb)
          exact ⟨c, ds, rfl, hd.2 c List.mem_cons_self,
            by rw [moreDigits_append c ds hfx, moreDigits, if_neg h0, hds]⟩
      unfold IsNumber
      rw [List.cons_append, scanNumber_cons hs hc, hmore]
      simp only [List.drop_left, scanFraction_numeral hf (exponent_ends hx), scanExponent_numeral hx]
      simp

/-! ## Blanks and tokens -/

/-- What `scan` skips. -/
inductive Blanks : Bytes → Prop
  | nil : Blanks []
  | space {c : UInt8} {b : Bytes} (hc : isWhitespace c = true) (hb : Blanks b) : Blanks (c :: b)
  | mark {b : Bytes} (hb : Blanks b) : Blanks (0xef :: 0xbb :: 0xbf :: b)

/-- The text is over, or what is left of it begins with a NUL. -/
def Ended (e : Bytes) : Prop := e = [] ∨ ∃ u, e = 0 :: u

def quoted (raw : Bytes) : Bytes := dquote :: (raw ++ [dquote])

/-- How a token is written. -/
inductive Writes : Token → Bytes → Prop
  | literalTrue : Writes .literalTrue (str "true")
  | literalFalse : Writes .literalFalse (str "false")
  | literalNull : Writes .literalNull (str "null")
  | valueString {raw : Bytes} (h : Lexed raw) : Writes (.valueString raw) (quoted raw)
  | valueNumber {raw : Bytes} (h : Numeral raw) : Writes (.valueNumber raw) raw
  | beginArray : Writes .beginArray [lbracket]
  | beginObject : Writes .beginObject [lbrace]
  | endArray : Writes .endArray [rbracket]
  | endObject : Writes .endObject [rbrace]
  | nameSeparator : Writes .nameSeparator [colon]
  | valueSeparator : Writes .valueSeparator [comma]

theorem scan_blanks {b : Bytes} (h : Blanks b) (s : Bytes) : scan (b ++ s) = scan s := by
  induction h with
  | nil => rfl
  | @space c b hc _ ih =>
    rw [List.cons_append, scan.eq_def]
    simp only [hc, if_true]
    exact ih
  | mark _ ih =>
    rw [List.cons_append, List.cons_append, List.cons_append, scan.eq_def]
    exact ih

theorem scanLiteral_writes {word rest : Bytes} {token t : Token} {s : Bytes}
    (h : scanLiteral word token s = (t, rest))
    (ht : t ≠ .parseError) : t = token ∧ s = word ++ rest := by
  unfold scanLiteral at h
  split at h
  · next hp =>
    obtain ⟨rfl, rfl⟩ := Prod.mk.inj h
    exact ⟨rfl, (List.prefix_iff_eq_append.mp (List.isPrefixOf_iff_prefix.mp hp)).symm⟩
  · exact absurd (Prod.mk.inj h).1.symm ht

/-- What `scan` takes from a text: blanks, and then a token or the end. -/
def Takes (s : Bytes) (t : Token) (rest : Bytes) : Prop :=
  ∃ b u, Blanks b ∧ s = b ++ u ∧ ((t = .endOfInput ∧ Ended u) ∨ ∃ w, Writes t w ∧ u = w ++ rest)

theorem takes_token {t : Token} {w : Bytes} (h : Writes t w) (rest : Bytes) : Takes (w ++ rest) t rest :=
  ⟨[], w ++ rest, .nil, rfl, Or.inr ⟨w, h, rfl⟩⟩

theorem takes_literal {word rest : Bytes} {token t : Token} {s : Bytes} (hw : Writes token word)
    (h : scanLiteral word token s = (t, rest)) (ht : t ≠ .parseError) : Takes s t rest := by
  obtain ⟨rfl, rfl⟩ := scanLiteral_writes h ht
  exact takes_token hw rest

theorem scanNumber_token (s : Bytes) :
    (∃ raw, (scanNumber s).1 = .valueNumber raw) ∨ (scanNumber s).1 = .parseError := by
  unfold scanNumber
  simp only
  split
  · exact Or.inr rfl
  · split
    · exact Or.inl ⟨_, rfl⟩
    · exact Or.inr rfl

theorem scan_takes {s rest : Bytes} {t : Token} (h : scan s = (t, rest)) (ht : t ≠ .parseError) :
    Takes s t rest := by
  fun_induction scan s with
  | case1 =>
    obtain ⟨rfl, rfl⟩ := Prod.mk.inj h
    exact ⟨[], [], .nil, rfl, Or.inl ⟨rfl, Or.inl rfl⟩⟩
  | case2 c s hc ih =>
    obtain ⟨b, u, hb, rfl, hu⟩ := ih h
    exact ⟨c :: b, u, .space hc hb, rfl, hu⟩
  | case3 s =>
    obtain ⟨rfl, rfl⟩ := Prod.mk.inj h
    exact ⟨[], 0 :: s, .nil, rfl, Or.inl ⟨rfl, Or.inr ⟨s, rfl⟩⟩⟩
  | case4 s raw rest hs =>
    obtain ⟨rfl, rfl⟩ := Prod.mk.inj h
    have hq : dquote :: s = quoted raw ++ rest := by
      rw [(scanString_eq hs).1]
      simp [quoted]
    rw [hq]
    exact takes_token (.valueString (lexed_scanString hs)) rest
  | case6 s =>
    obtain ⟨rfl, rfl⟩ := Prod.mk.inj h
    exact takes_token .valueSeparator s
  | case7 s =>
    obtain ⟨rfl, rfl⟩ := Prod.mk.inj h
    exact takes_token .nameSeparator s
  | case8 s =>
    obtain ⟨rfl, rfl⟩ := Prod.mk.inj h
    exact takes_token .beginArray s
  | case9 s =>
    obtain ⟨rfl, rfl⟩ := Prod.mk.inj h
    exact takes_token .endArray s
  | case10 s =>
    obtain ⟨rfl, rfl⟩ := Prod.mk.inj h
    exact takes_token .beginObject s
  | case11 s =>
    obtain ⟨rfl, rfl⟩ := Prod.mk.inj h
    exact takes_token .endObject s
  | case12 c s =>
    cases scanNumber_token (c :: s) with
    | inl hn =>
      obtain ⟨raw, hn⟩ := hn
      rw [h] at hn
      rw [show t = _ from hn] at h ⊢
      obtain ⟨hnum, hs⟩ := scanNumber_numeral h
      rw [hs]
      exact takes_token (.valueNumber hnum) rest
    | inr he =>
      rw [h] at he
      exact absurd he ht
  | case13 s => exact takes_literal .literalFalse h ht
  | case14 s => exact takes_literal .literalNull h ht
  | case15 s => exact takes_literal .literalTrue h ht
  | case16 =>
    next b1 b2 s hm _ _ _ _ _ _ _ _ _ _ _ _ _ ih =>
    simp only [Bool.and_eq_true, decide_eq_true_eq] at hm
    obtain ⟨rfl, rfl⟩ := hm
    obtain ⟨b, u, hb, rfl, hu⟩ := ih h
    exact ⟨_, u, .mark hb, rfl, hu⟩
  | _ => exact absurd (Prod.mk.inj h).1.symm ht

/-! ## The grammar -/

/-- The texts of values, of the elements of an array and of the members of an object. -/
inductive Text : Bytes → Shape → Prop
  | null : Text (str "null") (.value .null)
  | true : Text (str "true") (.value (.boolean true))
  | false : Text (str "false") (.value (.boolean false))
  | number {raw : Bytes} (h : Numeral raw) : Text raw (.value (.number raw))
  | string {raw s : Bytes} (h : Literal raw s) : Text (quoted raw) (.value (.string s))
  | emptyArray {b : Bytes} (hb : Blanks b) : Text (lbracket :: (b ++ [rbracket])) (.value (.array []))
  | array {s : Bytes} {xs : List Json} (h : Text s (.elements xs)) :
      Text (lbracket :: (s ++ [rbracket])) (.value (.array xs))
  | emptyObject {b : Bytes} (hb : Blanks b) : Text (lbrace :: (b ++ [rbrace])) (.value (.object []))
  | object {s : Bytes} {ms : List (Bytes × Json)} (h : Text s (.members ms)) :
      Text (lbrace :: (s ++ [rbrace])) (.value (.object (store ms [])))
  | element {s : Bytes} {j : Json} (h : Text s (.value j)) : Text s (.elements [j])
  | elements {s u : Bytes} {j : Json} {xs : List Json} (h : Text s (.value j)) (hs : Text u (.elements xs)) :
      Text (s ++ comma :: u) (.elements (j :: xs))
  | member {raw k b s : Bytes} {j : Json} (hk : Literal raw k) (hb : Blanks b) (h : Text s (.value j)) :
      Text (quoted raw ++ (b ++ colon :: s)) (.members [(k, j)])
  | members {raw k b s u : Bytes} {j : Json} {ms : List (Bytes × Json)} (hk : Literal raw k) (hb : Blanks b)
      (h : Text s (.value j)) (hs : Text u (.members ms)) :
      Text (quoted raw ++ (b ++ colon :: (s ++ comma :: u))) (.members ((k, j) :: ms))
  | padded {b s b' : Bytes} {shape : Shape} (hb : Blanks b) (h : Text s shape) (hb' : Blanks b') :
      Text (b ++ (s ++ b')) shape

/-! ## What is parsed is in the grammar -/

theorem Blanks.append {b b' : Bytes} (h : Blanks b) (h' : Blanks b') : Blanks (b ++ b') := by
  induction h with
  | nil => exact h'
  | space hc _ ih => exact .space hc ih
  | mark _ ih => exact .mark ih

/-- The front token of a text is written there behind blanks. -/
theorem tokens_takes {s : Bytes} {t : Token} {us : List Token} (h : tokens s = t :: us) (h1 : t ≠ .endOfInput)
    (h2 : t ≠ .parseError) : ∃ b w rest, Blanks b ∧ Writes t w ∧ s = b ++ (w ++ rest) ∧ tokens rest = us := by
  obtain ⟨ht, hus⟩ := scan_of_tokens h
  obtain ⟨b, u, hb, hs, hu⟩ := @scan_takes s (scan s).2 t (by rw [← ht]) h2
  cases hu with
  | inl he => exact absurd he.1 h1
  | inr hw =>
    obtain ⟨w, hw, rfl⟩ := hw
    exact ⟨b, w, _, hb, hw, hs, hus h1 h2⟩

theorem literal_of_lexed {raw s : Bytes} (h : Lexed raw) (hg : getString raw = .ok s) : Literal raw s :=
  literal_of_scan (scanString_lexed h []) hg

/-- The text of a run of tokens, from the front of a text. -/
def Cut (s : Bytes) (us : List Token) (shape : Shape) : Prop :=
  ∃ u rest, s = u ++ rest ∧ Text u shape ∧ tokens rest = us

/-- A value of one token. -/
theorem cut_single {s : Bytes} {us : List Token} {t : Token} {j : Json} (h : tokens s = t :: us)
    (h1 : t ≠ .endOfInput) (h2 : t ≠ .parseError) (ht : ∀ w, Writes t w → Text w (.value j)) :
    Cut s us (.value j) := by
  obtain ⟨b, w, rest, hb, hw, rfl, hr⟩ := tokens_takes h h1 h2
  exact ⟨b ++ (w ++ []), rest, by simp, .padded hb (ht w hw) .nil, hr⟩

theorem writes_brackets : (∀ w, Writes .beginArray w → w = [lbracket]) ∧
    ∀ w, Writes .endArray w → w = [rbracket] := by
  constructor <;> intro w hw <;> cases hw <;> rfl

theorem writes_braces : (∀ w, Writes .beginObject w → w = [lbrace]) ∧ ∀ w, Writes .endObject w → w = [rbrace] := by
  constructor <;> intro w hw <;> cases hw <;> rfl

/-- A value in brackets, whose inside is cut as `P`. -/
theorem cut_bracketed {P : Bytes → Prop} {ts us : List Token} {t t' : Token} {o c : UInt8}
    {s : Bytes} {shape : Shape}
    (h : tokens s = t :: (ts ++ t' :: us)) (ht : t ≠ .endOfInput ∧ t ≠ .parseError)
    (ht' : t' ≠ .endOfInput ∧ t' ≠ .parseError) (ho : ∀ w, Writes t w → w = [o]) (hc : ∀ w, Writes t' w → w = [c])
    (hin : ∀ r, tokens r = ts ++ t' :: us → ∃ u rest, r = u ++ rest ∧ P u ∧ tokens rest = t' :: us)
    (htext : ∀ u b, P u → Blanks b → Text (o :: (u ++ b ++ [c])) shape) : Cut s us shape := by
  obtain ⟨b, w, r, hb, hw, rfl, hr⟩ := tokens_takes h ht.1 ht.2
  obtain ⟨u, r', rfl, hu, hr'⟩ := hin r hr
  obtain ⟨b', w', rest, hb', hw', rfl, hrest⟩ := tokens_takes hr' ht'.1 ht'.2
  rw [ho w hw, hc w' hw']
  exact ⟨b ++ ((o :: (u ++ b' ++ [c])) ++ []), rest, by simp, .padded hb (htext u b' hu hb') .nil, hrest⟩

theorem text_trailed {s b : Bytes} {shape : Shape} (h : Text s shape) (hb : Blanks b) : Text (s ++ b) shape :=
  .padded .nil h hb

theorem derives_text {ts : List Token} {shape : Shape} (h : Derives ts shape) :
    ∀ {s : Bytes} {us : List Token}, tokens s = ts ++ us → Cut s us shape := by
  induction h with
  | null =>
    intro s us hs
    refine cut_single hs (by simp) (by simp) ?_
    intro w hw
    cases hw
    exact .null
  | true =>
    intro s us hs
    refine cut_single hs (by simp) (by simp) ?_
    intro w hw
    cases hw
    exact .true
  | false =>
    intro s us hs
    refine cut_single hs (by simp) (by simp) ?_
    intro w hw
    cases hw
    exact .false
  | number raw =>
    intro s us hs
    refine cut_single hs (by simp) (by simp) ?_
    intro w hw
    cases hw with
    | valueNumber hn => exact .number hn
  | string hg =>
    intro s us hs
    refine cut_single hs (by simp) (by simp) ?_
    intro w hw
    cases hw with
    | valueString hl => exact .string (literal_of_lexed hl hg)
  | emptyArray =>
    intro s us hs
    refine @cut_bracketed Blanks [] us .beginArray .endArray lbracket rbracket s _ hs (by simp) (by simp)
      writes_brackets.1 writes_brackets.2 ?_ ?_
    · intro r hr
      exact ⟨[], r, rfl, .nil, hr⟩
    · intro u b hu hb
      exact .emptyArray (hu.append hb)
  | emptyObject =>
    intro s us hs
    refine @cut_bracketed Blanks [] us .beginObject .endObject lbrace rbrace s _ hs (by simp) (by simp)
      writes_braces.1 writes_braces.2 ?_ ?_
    · intro r hr
      exact ⟨[], r, rfl, .nil, hr⟩
    · intro u b hu hb
      exact .emptyObject (hu.append hb)
  | @array ts xs _ ih =>
    intro s us hs
    have hs' : tokens s = .beginArray :: (ts ++ .endArray :: us) := by simpa using hs
    refine @cut_bracketed (Text · (.elements xs)) ts us .beginArray .endArray lbracket rbracket s _ hs' (by simp)
      (by simp) writes_brackets.1 writes_brackets.2 (fun r => ih) ?_
    intro u b hu hb
    exact .array (text_trailed hu hb)
  | @object ts ms _ ih =>
    intro s us hs
    have hs' : tokens s = .beginObject :: (ts ++ .endObject :: us) := by simpa using hs
    refine @cut_bracketed (Text · (.members ms)) ts us .beginObject .endObject lbrace rbrace s _ hs' (by simp)
      (by simp) writes_braces.1 writes_braces.2 (fun r => ih) ?_
    intro u b hu hb
    exact .object (text_trailed hu hb)
  | element _ ih =>
    intro s us hs
    obtain ⟨u, rest, rfl, hu, hr⟩ := ih hs
    exact ⟨u, rest, rfl, .element hu, hr⟩
  | @elements ts us' j xs _ _ ih ihs =>
    intro s us hs
    have hs' : tokens s = ts ++ .valueSeparator :: (us' ++ us) := by simpa using hs
    obtain ⟨u, r, rfl, hu, hr⟩ := ih hs'
    obtain ⟨b, w, r', hb, hw, rfl, hr'⟩ := tokens_takes hr (by simp) (by simp)
    obtain ⟨v, rest, rfl, hv, hrest⟩ := ihs hr'
    cases hw
    exact ⟨(u ++ b) ++ comma :: v, rest, by simp, .elements (text_trailed hu hb) hv, hrest⟩
  | @member raw k ts j hk _ ih =>
    intro s us hs
    obtain ⟨b, w, r, hb, hw, rfl, hr⟩ := tokens_takes hs (by simp) (by simp)
    obtain ⟨b', w', r', hb', hw', rfl, hr'⟩ := tokens_takes hr (by simp) (by simp)
    obtain ⟨u, rest, rfl, hu, hrest⟩ := ih hr'
    cases hw'
    cases hw with
    | valueString hl =>
      have hm := Text.member (literal_of_lexed hl hk) hb' hu
      exact ⟨b ++ (quoted raw ++ (b' ++ colon :: u) ++ []), rest, by simp, .padded hb hm .nil, hrest⟩
  | @members raw k ts us' j ms hk _ _ ih ihs =>
    intro s us hs
    obtain ⟨b, w, r, hb, hw, rfl, hr⟩ := tokens_takes hs (by simp) (by simp)
    obtain ⟨b', w', r', hb', hw', rfl, hr'⟩ := tokens_takes hr (by simp) (by simp)
    have hr'' : tokens r' = ts ++ .valueSeparator :: (us' ++ us) := by simpa using hr'
    obtain ⟨u, r3, rfl, hu, hr3⟩ := ih hr''
    obtain ⟨b'', w'', r4, hb'', hw'', rfl, hr4⟩ := tokens_takes hr3 (by simp) (by simp)
    obtain ⟨v, rest, rfl, hv, hrest⟩ := ihs hr4
    cases hw'
    cases hw''
    cases hw with
    | valueString hl =>
      have hm := Text.members (literal_of_lexed hl hk) hb' (text_trailed hu hb'') hv
      exact ⟨b ++ (quoted raw ++ (b' ++ colon :: (u ++ b'' ++ comma :: v)) ++ []), rest, by simp,
        .padded hb hm .nil, hrest⟩

/-! ## What is in the grammar is parsed -/

theorem ends_blanks {b w : Bytes} (hb : Blanks b) (hw : Ends isNumberByte w) : Ends isNumberByte (b ++ w) := by
  cases hb with
  | nil => exact hw
  | @space c _ hc =>
    apply ends_cons
    simp only [isWhitespace, Bool.or_eq_true, beq_iff_eq] at hc
    rcases hc with ((rfl | rfl) | rfl) | rfl <;> decide
  | mark => exact ends_cons (by decide)

theorem ends_ended {e : Bytes} (h : Ended e) : Ends isNumberByte e := by
  cases h with
  | inl h =>
    rw [h]
    exact ends_nil _
  | inr h =>
    obtain ⟨u, rfl⟩ := h
    exact ends_cons (by decide)

theorem tokens_ended {e : Bytes} (h : Ended e) : tokens e = [.endOfInput] := by
  have hs : (scan e).1 = .endOfInput := by
    cases h with
    | inl h =>
      rw [h]
      rfl
    | inr h =>
      obtain ⟨u, rfl⟩ := h
      rw [scan.eq_def]
      rfl
  rw [tokens_stop (Or.inl hs), hs]

theorem tokens_blanks {b : Bytes} (h : Blanks b) (s : Bytes) : tokens (b ++ s) = tokens s := by
  rw [tokens, tokens.eq_def s]
  simp only [scan_blanks h s]

theorem tokens_quoted {raw : Bytes} (h : Lexed raw) (w : Bytes) :
    tokens (quoted raw ++ w) = .valueString raw :: tokens w := by
  have hq : quoted raw ++ w = dquote :: (raw ++ dquote :: w) := by simp [quoted]
  apply tokens_of_scan _ (by simp) (by simp)
  rw [hq, scan_dquote, scanString_lexed h w]

/-- The text is read as this run of tokens, whatever follows that cannot continue a number. -/
def Runs (s : Bytes) (ts : List Token) : Prop := ∀ w, Ends isNumberByte w → tokens (s ++ w) = ts ++ tokens w

theorem text_derives {s : Bytes} {shape : Shape} (h : Text s shape) : ∃ ts, Runs s ts ∧ Derives ts shape := by
  induction h with
  | null => exact ⟨[.literalNull], fun w _ => tokens_of_scan (scan_null w) (by simp) (by simp), .null⟩
  | true => exact ⟨[.literalTrue], fun w _ => tokens_of_scan (scan_true w) (by simp) (by simp), .true⟩
  | false => exact ⟨[.literalFalse], fun w _ => tokens_of_scan (scan_false w) (by simp) (by simp), .false⟩
  | @number raw h =>
    refine ⟨[.valueNumber raw], ?_, .number raw⟩
    intro w hw
    exact tokens_of_scan (scan_isNumber (isNumber_iff.mpr h) hw) (by simp) (by simp)
  | @string raw s h =>
    refine ⟨[.valueString raw], ?_, .string (literal_getString h)⟩
    intro w _
    exact tokens_quoted (literal_lexed h) w
  | @emptyArray b hb =>
    refine ⟨[.beginArray, .endArray], ?_, .emptyArray⟩
    intro w _
    calc tokens (lbracket :: (b ++ [rbracket]) ++ w)
        = tokens (lbracket :: (b ++ rbracket :: w)) := by simp
      _ = .beginArray :: tokens (rbracket :: w) := by
        rw [tokens_of_scan (scan_lbracket _) (by simp) (by simp), tokens_blanks hb]
      _ = .beginArray :: .endArray :: tokens w := by rw [tokens_of_scan (scan_rbracket w) (by simp) (by simp)]
  | @emptyObject b hb =>
    refine ⟨[.beginObject, .endObject], ?_, .emptyObject⟩
    intro w _
    calc tokens (lbrace :: (b ++ [rbrace]) ++ w)
        = tokens (lbrace :: (b ++ rbrace :: w)) := by simp
      _ = .beginObject :: tokens (rbrace :: w) := by
        rw [tokens_of_scan (scan_lbrace _) (by simp) (by simp), tokens_blanks hb]
      _ = .beginObject :: .endObject :: tokens w := by rw [tokens_of_scan (scan_rbrace w) (by simp) (by simp)]
  | @array s xs _ ih =>
    obtain ⟨ts, hts, hd⟩ := ih
    refine ⟨.beginArray :: (ts ++ [.endArray]), ?_, .array hd⟩
    intro w _
    calc tokens (lbracket :: (s ++ [rbracket]) ++ w)
        = tokens (lbracket :: (s ++ rbracket :: w)) := by simp
      _ = .beginArray :: (ts ++ tokens (rbracket :: w)) := by
        rw [tokens_of_scan (scan_lbracket _) (by simp) (by simp), hts _ (ends_cons (by decide))]
      _ = .beginArray :: (ts ++ [.endArray]) ++ tokens w := by
        rw [tokens_of_scan (scan_rbracket w) (by simp) (by simp)]
        simp
  | @object s ms _ ih =>
    obtain ⟨ts, hts, hd⟩ := ih
    refine ⟨.beginObject :: (ts ++ [.endObject]), ?_, .object hd⟩
    intro w _
    calc tokens (lbrace :: (s ++ [rbrace]) ++ w)
        = tokens (lbrace :: (s ++ rbrace :: w)) := by simp
      _ = .beginObject :: (ts ++ tokens (rbrace :: w)) := by
        rw [tokens_of_scan (scan_lbrace _) (by simp) (by simp), hts _ (ends_cons (by decide))]
      _ = .beginObject :: (ts ++ [.endObject]) ++ tokens w := by
        rw [tokens_of_scan (scan_rbrace w) (by simp) (by simp)]
        simp
  | element _ ih =>
    obtain ⟨ts, hts, hd⟩ := ih
    exact ⟨ts, hts, .element hd⟩
  | @elements s u j xs _ _ ih ihs =>
    obtain ⟨ts, hts, hd⟩ := ih
    obtain ⟨us, hus, hds⟩ := ihs
    refine ⟨ts ++ .valueSeparator :: us, ?_, .elements hd hds⟩
    intro w hw
    calc tokens (s ++ comma :: u ++ w)
        = tokens (s ++ comma :: (u ++ w)) := by simp
      _ = ts ++ .valueSeparator :: tokens (u ++ w) := by
        rw [hts _ (ends_comma _), tokens_of_scan (scan_comma _) (by simp) (by simp)]
      _ = ts ++ .valueSeparator :: us ++ tokens w := by
        rw [hus w hw]
        simp
  | @member raw k b s j hk hb _ ih =>
    obtain ⟨ts, hts, hd⟩ := ih
    refine ⟨.valueString raw :: .nameSeparator :: ts, ?_, .member (literal_getString hk) hd⟩
    intro w hw
    calc tokens (quoted raw ++ (b ++ colon :: s) ++ w)
        = tokens (quoted raw ++ (b ++ colon :: (s ++ w))) := by simp
      _ = .valueString raw :: .nameSeparator :: tokens (s ++ w) := by
        rw [tokens_quoted (literal_lexed hk), tokens_blanks hb, tokens_of_scan (scan_colon _) (by simp) (by simp)]
      _ = .valueString raw :: .nameSeparator :: ts ++ tokens w := by
        rw [hts w hw]
        rfl
  | @members raw k b s u j ms hk hb _ _ ih ihs =>
    obtain ⟨ts, hts, hd⟩ := ih
    obtain ⟨us, hus, hds⟩ := ihs
    refine ⟨.valueString raw :: .nameSeparator :: (ts ++ .valueSeparator :: us), ?_,
      .members (literal_getString hk) hd hds⟩
    intro w hw
    calc tokens (quoted raw ++ (b ++ colon :: (s ++ comma :: u)) ++ w)
        = tokens (quoted raw ++ (b ++ colon :: (s ++ comma :: (u ++ w)))) := by simp
      _ = .valueString raw :: .nameSeparator :: tokens (s ++ comma :: (u ++ w)) := by
        rw [tokens_quoted (literal_lexed hk), tokens_blanks hb, tokens_of_scan (scan_colon _) (by simp) (by simp)]
      _ = .valueString raw :: .nameSeparator :: (ts ++ .valueSeparator :: tokens (u ++ w)) := by
        rw [hts _ (ends_comma _), tokens_of_scan (scan_comma _) (by simp) (by simp)]
      _ = .valueString raw :: .nameSeparator :: (ts ++ .valueSeparator :: us) ++ tokens w := by
        rw [hus w hw]
        simp
  | @padded b s b' shape hb _ hb' ih =>
    obtain ⟨ts, hts, hd⟩ := ih
    refine ⟨ts, ?_, hd⟩
    intro w hw
    calc tokens (b ++ (s ++ b') ++ w)
        = tokens (b ++ (s ++ (b' ++ w))) := by simp
      _ = ts ++ tokens (b' ++ w) := by rw [tokens_blanks hb, hts _ (ends_blanks hb' hw)]
      _ = ts ++ tokens w := by rw [tokens_blanks hb']

theorem parse_of_text {u e : Bytes} {j : Json} (h : Text u (.value j)) (he : Ended e) : parse (u ++ e) = .ok j := by
  obtain ⟨ts, hts, hd⟩ := text_derives h
  have htok := hts e (ends_ended he)
  rw [tokens_ended he] at htok
  exact derives_parse htok hd

theorem text_of_parse {s : Bytes} {j : Json} (h : parse s = .ok j) :
    ∃ u e, s = u ++ e ∧ Text u (.value j) ∧ Ended e := by
  obtain ⟨ts, hts, hd⟩ := parse_derives h
  obtain ⟨u, rest, rfl, hu, hr⟩ := derives_text hd hts
  obtain ⟨hend, -⟩ := scan_of_tokens hr
  obtain ⟨b, e, hb, rfl, he⟩ := @scan_takes rest (scan rest).2 .endOfInput (by rw [← hend]) (by simp)
  refine ⟨u ++ b, e, by simp, text_trailed hu hb, ?_⟩
  cases he with
  | inl he => exact he.2
  | inr hw =>
    obtain ⟨w, hw, -⟩ := hw
    cases hw

/-- No text has two values. -/
theorem text_unambiguous {u : Bytes} {j j' : Json} (h : Text u (.value j)) (h' : Text u (.value j')) : j = j' := by
  have hp := parse_of_text h (Or.inl rfl)
  rw [parse_of_text h' (Or.inl rfl)] at hp
  exact (Except.ok.inj hp).symm

/-- `json::parse` returns a value exactly when the bytes up to the end or the first NUL that
    follows are a text of that value. -/
theorem parse_text_iff (s : Bytes) (j : Json) :
    parse s = .ok j ↔ ∃ u e, s = u ++ e ∧ Text u (.value j) ∧ Ended e := by
  constructor
  · exact text_of_parse
  · intro h
    obtain ⟨u, e, rfl, hu, he⟩ := h
    exact parse_of_text hu he

end VirtualSocket.Json
