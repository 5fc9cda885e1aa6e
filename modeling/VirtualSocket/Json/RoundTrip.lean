import VirtualSocket.Json.Grammar
import VirtualSocket.Json.Flat

/- What `dump` writes is read back by `parse`, for every value that `parse` can
   return: `parse_canonical` says which these are, `parse_dumpValue` is the round
   trip. Numbers are the one place where `dump` need not write the text that was
   read: they come back as the text they were written with, as long as that is a
   number token (`parse_dump_iff`). -/
namespace VirtualSocket.Json

/-! ## Numbers -/

/-- The text ends a run of bytes that pass the test: it is empty or its first byte does not pass. -/
def Ends (test : UInt8 → Bool) (w : Bytes) : Prop := ∀ c t, w = c :: t → test c = false

theorem ends_nil (test : UInt8 → Bool) : Ends test [] := by
  intro c t h; cases h

theorem ends_cons {test : UInt8 → Bool} {c : UInt8} {t : Bytes} (h : test c = false) : Ends test (c :: t) := by
  intro c' t' e
  obtain ⟨rfl, -⟩ := List.cons.inj e
  exact h

theorem Ends.mono {p q : UInt8 → Bool} {w : Bytes} (h : Ends q w) (hpq : ∀ c, q c = false → p c = false) :
    Ends p w :=
  fun c t e => hpq c (h c t e)

theorem takeWhile_ends {test : UInt8 → Bool} {w : Bytes} (h : Ends test w) (t : Bytes) :
    (t ++ w).takeWhile test = t.takeWhile test := by
  induction t with
  | nil =>
    cases w with
    | nil => rfl
    | cons c w => simp [h c w rfl]
  | cons c t ih =>
    simp only [List.cons_append, List.takeWhile_cons, ih]

theorem dropWhile_ends {test : UInt8 → Bool} {w : Bytes} (h : Ends test w) (t : Bytes) :
    (t ++ w).dropWhile test = t.dropWhile test ++ w := by
  induction t with
  | nil =>
    cases w with
    | nil => rfl
    | cons c w => simp [h c w rfl]
  | cons c t ih =>
    simp only [List.cons_append, List.dropWhile_cons]
    split
    · exact ih
    · rfl

theorem takeWhile_takeWhile_self (test : UInt8 → Bool) (t : Bytes) :
    (t.takeWhile test).takeWhile test = t.takeWhile test ∧ (t.takeWhile test).dropWhile test = [] := by
  have hall : ∀ c ∈ t.takeWhile test, test c = true := fun c hc => List.mem_takeWhile_imp hc
  exact ⟨List.takeWhile_eq_self_iff.mpr hall, List.dropWhile_eq_nil_iff.mpr hall⟩

def isSign (c : UInt8) : Bool := c == 0x2b || c == 0x2d
def isExponent (c : UInt8) : Bool := c == 0x65 || c == 0x45
def isPoint (c : UInt8) : Bool := c == 0x2e

/-- The bytes that can continue a number token. -/
def isNumberByte (c : UInt8) : Bool := isDigit c || isPoint c || isExponent c || isSign c

theorem isNumberByte_digit {c : UInt8} (h : isDigit c = true) : isNumberByte c = true := by
  simp [isNumberByte, h]

theorem isExponent_not {c : UInt8} (h : isExponent c = true) : isDigit c = false ∧ isPoint c = false := by
  simp only [isExponent, Bool.or_eq_true, beq_iff_eq] at h
  rcases h with rfl | rfl <;> decide

/-- A fraction is followed by what follows it, and read alone it is the same. -/
theorem scanFraction_append (raw s : Bytes) {w : Bytes} (h : Ends (fun c => isDigit c || isPoint c) w) :
    scanFraction raw (s ++ w) = ((scanFraction raw s).1, (scanFraction raw s).2 ++ w) := by
  have hd : Ends isDigit w := h.mono fun c hc => (Bool.or_eq_false_iff.mp hc).1
  match s with
  | [] =>
    match w with
    | [] => rfl
    | [c] => rfl
    | p :: d :: w =>
      have hp : p ≠ 0x2e := by
        rintro rfl
        have := h _ _ rfl
        simp [isPoint] at this
      simp [scanFraction, hp]
  | [p] =>
    match w with
    | [] => rfl
    | d :: w =>
      have hd : isDigit d = false := hd d w rfl
      simp [scanFraction, hd]
  | p :: d :: t =>
    simp only [List.cons_append, scanFraction]
    split
    · rw [takeWhile_ends hd, dropWhile_ends hd]
    · rfl

theorem scanFraction_eq (raw s : Bytes) : ∃ f, scanFraction raw s = (raw ++ f, (scanFraction raw s).2) ∧
    s = f ++ (scanFraction raw s).2 ∧ scanFraction raw f = (raw ++ f, []) ∧ (f = [] ∨ ∃ t, f = 0x2e :: t) ∧
    ∀ b ∈ f, isNumberByte b = true := by
  unfold scanFraction
  split
  · next p d t =>
    split
    · next hpd =>
      obtain ⟨hp, hd⟩ := (Bool.and_eq_true _ _).mp hpd
      obtain rfl := of_decide_eq_true hp
      obtain ⟨h1, h2⟩ := takeWhile_takeWhile_self isDigit t
      refine ⟨0x2e :: d :: t.takeWhile isDigit, rfl, ?_, ?_, Or.inr ⟨_, rfl⟩, ?_⟩
      · simp [List.takeWhile_append_dropWhile]
      · simp [hd, h1, h2]
      · intro b hb
        rcases List.mem_cons.mp hb with rfl | hb
        · decide
        · rcases List.mem_cons.mp hb with rfl | hb
          · exact isNumberByte_digit hd
          · exact isNumberByte_digit (List.mem_takeWhile_imp hb)
    · exact ⟨[], by simp, rfl, by simp, Or.inl rfl, by simp⟩
  · exact ⟨[], by simp, rfl, by simp, Or.inl rfl, by simp⟩

/-! An optional byte, such as a sign, is the first byte of a text if it passes a test. -/

theorem option_append {test : UInt8 → Bool} {w : Bytes} (h : Ends test w) (t : Bytes) :
    ((t ++ w).take 1).filter test = (t.take 1).filter test ∧
      (t ++ w).drop ((t.take 1).filter test).length = t.drop ((t.take 1).filter test).length ++ w := by
  cases t with
  | nil =>
    cases w with
    | nil => exact ⟨rfl, rfl⟩
    | cons c w =>
      have hc : test c = false := h c w rfl
      simp [hc]
  | cons c t =>
    cases hc : test c <;> simp [hc]

theorem option_split (test : UInt8 → Bool) (t : Bytes) :
    (t.take 1).filter test ++ t.drop ((t.take 1).filter test).length = t ∧
      (((t.take 1).filter test).take 1).filter test = (t.take 1).filter test := by
  cases t with
  | nil => exact ⟨rfl, rfl⟩
  | cons c t => cases hc : test c <;> simp [hc]

theorem scanExponent_other {raw s : Bytes} (h : Ends isExponent s) : scanExponent raw s = (raw, s) := by
  cases s with
  | nil => rfl
  | cons e t =>
    have he : isExponent e = false := h e t rfl
    simp only [isExponent, Bool.or_eq_false_iff, beq_eq_false_iff_ne] at he
    simp [scanExponent, he]

/-- An exponent as the source reads it. -/
theorem scanExponent_cons {e : UInt8} (he : isExponent e = true) (raw t : Bytes) :
    scanExponent raw (e :: t) =
      let sign := (t.take 1).filter isSign
      let u := t.drop sign.length
      if (u.takeWhile isDigit).isEmpty then (raw, e :: t)
      else (raw ++ e :: (sign ++ u.takeWhile isDigit), u.dropWhile isDigit) := by
  simp only [isExponent, Bool.or_eq_true, beq_iff_eq] at he
  have hs : isSign = fun c => c == 0x2b || c == 0x2d := rfl
  simp [scanExponent, he, hs]

theorem scanExponent_append (raw s : Bytes) {w : Bytes} (h : Ends isNumberByte w) :
    scanExponent raw (s ++ w) = ((scanExponent raw s).1, (scanExponent raw s).2 ++ w) := by
  have hall : ∀ c, isNumberByte c = false →
      isDigit c = false ∧ isPoint c = false ∧ isExponent c = false ∧ isSign c = false := by
    intro c hc
    simpa [isNumberByte, and_assoc] using hc
  have hd : Ends isDigit w := h.mono fun c hc => (hall c hc).1
  have hx : Ends isExponent w := h.mono fun c hc => (hall c hc).2.2.1
  have hs : Ends isSign w := h.mono fun c hc => (hall c hc).2.2.2
  cases s with
  | nil => rw [List.nil_append, scanExponent_other hx]; rfl
  | cons e t =>
    cases he : isExponent e with
    | false =>
      rw [List.cons_append, scanExponent_other (ends_cons he), scanExponent_other (ends_cons he)]; rfl
    | true =>
      obtain ⟨h1, h2⟩ := option_append hs t
      rw [List.cons_append, scanExponent_cons he, scanExponent_cons he]
      simp only [h1, h2, takeWhile_ends hd, dropWhile_ends hd]
      split <;> rfl

theorem scanExponent_eq (raw s : Bytes) : ∃ x, scanExponent raw s = (raw ++ x, (scanExponent raw s).2) ∧
    s = x ++ (scanExponent raw s).2 ∧ scanExponent raw x = (raw ++ x, []) ∧
    Ends (fun c => isDigit c || isPoint c) x ∧ ∀ b ∈ x, isNumberByte b = true := by
  have hnone : scanExponent raw s = (raw, s) → ∃ x, scanExponent raw s = (raw ++ x, (scanExponent raw s).2) ∧
      s = x ++ (scanExponent raw s).2 ∧ scanExponent raw x = (raw ++ x, []) ∧
      Ends (fun c => isDigit c || isPoint c) x ∧ ∀ b ∈ x, isNumberByte b = true := by
    intro h
    exact ⟨[], by simp [h], by simp [h], by simp [scanExponent], ends_nil _, by simp⟩
  cases s with
  | nil => exact hnone rfl
  | cons e t =>
    cases he : isExponent e with
    | false => exact hnone (scanExponent_other (ends_cons he))
    | true =>
      rw [scanExponent_cons he] at hnone ⊢
      simp only at hnone ⊢
      obtain ⟨hsplit, hsign⟩ := option_split isSign t
      have hall : ∀ b ∈ (t.take 1).filter isSign, isSign b = true := fun b hb => (List.mem_filter.mp hb).2
      generalize (t.take 1).filter isSign = sign at *
      generalize t.drop sign.length = u at *
      obtain ⟨hdig, hrest⟩ := takeWhile_takeWhile_self isDigit u
      split
      · next hz =>
        rw [if_pos hz] at hnone
        exact hnone rfl
      · next hz =>
        refine ⟨e :: (sign ++ u.takeWhile isDigit), rfl, ?_, ?_, ends_cons ?_, ?_⟩
        · rw [List.cons_append, List.append_assoc, List.takeWhile_append_dropWhile, hsplit]
        · -- the digits end the sign, so that it is read again
          have hends : Ends isSign (u.takeWhile isDigit) := by
            intro c v hc
            have hdc : isDigit c = true := List.mem_takeWhile_imp (hc ▸ List.mem_cons_self)
            by_contra hsc
            simp only [isSign, Bool.not_eq_false, Bool.or_eq_true, beq_iff_eq] at hsc
            rcases hsc with rfl | rfl <;> exact absurd hdc (by decide)
          obtain ⟨h1, h2⟩ := option_append hends sign
          obtain ⟨h3, -⟩ := option_split isSign sign
          rw [hsign] at h1 h2 h3
          rw [scanExponent_cons he]
          simp only [h1, h2, List.drop_length, List.nil_append, hdig, hrest]
          rw [if_neg hz]
        · simp [isExponent_not he]
        · intro b hb
          rcases List.mem_cons.mp hb with rfl | hb
          · simp [isNumberByte, he]
          · rcases List.mem_append.mp hb with hb | hb
            · simp [isNumberByte, hall b hb]
            · exact isNumberByte_digit (List.mem_takeWhile_imp hb)

/-- The digits behind the first one: none follow a leading zero. -/
def moreDigits (c : UInt8) (t : Bytes) : Bytes := if c = 0x30 then [] else t.takeWhile isDigit

theorem moreDigits_split (c : UInt8) (t : Bytes) :
    moreDigits c t ++ t.drop (moreDigits c t).length = t := by
  unfold moreDigits
  split
  · rfl
  · have hp := List.takeWhile_prefix (p := isDigit) (l := t)
    exact List.prefix_iff_eq_append.mp hp

theorem moreDigits_append (c : UInt8) (t : Bytes) {w : Bytes} (h : Ends isDigit w) :
    moreDigits c (t ++ w) = moreDigits c t := by
  unfold moreDigits
  rw [takeWhile_ends h]

theorem moreDigits_digits (c : UInt8) (t : Bytes) : ∀ b ∈ moreDigits c t, isDigit b = true := by
  unfold moreDigits
  split
  · simp
  · exact fun b hb => List.mem_takeWhile_imp hb

theorem moreDigits_self (c : UInt8) (t : Bytes) : moreDigits c (moreDigits c t) = moreDigits c t := by
  unfold moreDigits
  split
  · rfl
  · exact (takeWhile_takeWhile_self isDigit t).1

/-- A number as the source reads it, behind its sign. -/
theorem scanNumber_cons {sign : Bytes} {c : UInt8} (hs : sign = [] ∨ sign = [0x2d]) (hc : isDigit c = true)
    (t : Bytes) :
    scanNumber (sign ++ c :: t) =
      let f := scanFraction (sign ++ c :: moreDigits c t) (t.drop (moreDigits c t).length)
      (.valueNumber (scanExponent f.1 f.2).1, (scanExponent f.1 f.2).2) := by
  rcases hs with rfl | rfl
  · have hne : c ≠ 0x2d := by rintro rfl; exact absurd hc (by decide)
    simp [scanNumber, hne, hc, moreDigits]
  · simp [scanNumber, hc, moreDigits]

theorem scanNumber_some {s raw rest : Bytes} (h : scanNumber s = (.valueNumber raw, rest)) :
    ∃ sign c t, (sign = [] ∨ sign = [0x2d]) ∧ isDigit c = true ∧ s = sign ++ c :: t := by
  have hsplit := (option_split (· == 0x2d) s).1
  have hsign : (s.take 1).filter (· == 0x2d) = [] ∨ (s.take 1).filter (· == 0x2d) = [0x2d] := by
    cases s with
    | nil => exact Or.inl rfl
    | cons c s => by_cases hc : c = 0x2d <;> simp [hc]
  unfold scanNumber at h
  simp only at h
  split at h
  · cases h
  · next c t ht =>
    split at h
    · next hc => exact ⟨_, c, t, hsign, hc, by rw [← ht, hsplit]⟩
    · cases h

theorem scanNumber_append {s raw rest : Bytes} (h : scanNumber s = (.valueNumber raw, rest)) {w : Bytes}
    (hw : Ends isNumberByte w) : scanNumber (s ++ w) = (.valueNumber raw, rest ++ w) := by
  obtain ⟨sign, c, t, hs, hc, rfl⟩ := scanNumber_some h
  have hd : Ends isDigit w := hw.mono fun c hc => by simp [isNumberByte] at hc; exact hc.1.1.1
  have hf : Ends (fun c => isDigit c || isPoint c) w := hw.mono fun c hc => by
    simp [isNumberByte] at hc; simp [hc]
  have hdrop : (t ++ w).drop (moreDigits c t).length = t.drop (moreDigits c t).length ++ w := by
    apply List.drop_append_of_le_length
    rw [← congrArg List.length (moreDigits_split c t), List.length_append]
    exact Nat.le_add_right _ _
  rw [scanNumber_cons hs hc] at h
  rw [List.append_assoc, List.cons_append, scanNumber_cons hs hc, moreDigits_append c t hd, hdrop,
    scanFraction_append _ _ hf]
  simp only at h ⊢
  rw [scanExponent_append _ _ hw, (Prod.mk.inj h).1, (Prod.mk.inj h).2]

/-- The text of a number token. -/
def IsNumber (raw : Bytes) : Prop := scanNumber raw = (.valueNumber raw, [])

instance (raw : Bytes) : Decidable (IsNumber raw) := inferInstanceAs (Decidable (_ = _))

/-- The text a number token is read with is a number token by itself, and holds nothing but its bytes. -/
theorem isNumber_of_scan {s raw rest : Bytes} (h : scanNumber s = (.valueNumber raw, rest)) :
    IsNumber raw ∧ ∀ b ∈ raw, isNumberByte b = true := by
  obtain ⟨sign, c, t, hs, hc, rfl⟩ := scanNumber_some h
  rw [scanNumber_cons hs hc] at h
  simp only at h
  obtain ⟨f, hf, -, hself, hpoint, hfb⟩ :=
    scanFraction_eq (sign ++ c :: moreDigits c t) (t.drop (moreDigits c t).length)
  rw [hf] at h
  obtain ⟨x, hx, -, hxself, hxends, hxb⟩ := scanExponent_eq (sign ++ c :: moreDigits c t ++ f)
    (scanFraction (sign ++ c :: moreDigits c t) (t.drop (moreDigits c t).length)).2
  rw [hx] at h
  obtain ⟨hraw, -⟩ := Prod.mk.inj h
  obtain rfl := Token.valueNumber.inj hraw
  -- neither a fraction nor an exponent goes on with the digits before it
  have hfx : Ends isDigit (f ++ x) := by
    rcases hpoint with rfl | ⟨u, rfl⟩
    · exact hxends.mono fun c hc => (Bool.or_eq_false_iff.mp hc).1
    · exact ends_cons (by decide)
  have hmore : moreDigits c (moreDigits c t ++ (f ++ x)) = moreDigits c t := by
    rw [moreDigits_append _ _ hfx, moreDigits_self]
  have htext : sign ++ c :: moreDigits c t ++ f ++ x = sign ++ c :: (moreDigits c t ++ (f ++ x)) := by simp
  constructor
  · unfold IsNumber
    rw [htext, scanNumber_cons hs hc, hmore]
    simp only [List.drop_left, scanFraction_append _ f hxends, hself, List.nil_append, hxself]
    simp
  · have hsign : ∀ b ∈ sign, isNumberByte b = true := by
      rcases hs with rfl | rfl
      · simp
      · intro b hb
        rw [List.mem_singleton.mp hb]; decide
    rw [htext]
    intro b hb
    simp only [List.mem_append, List.mem_cons] at hb
    rcases hb with hb | rfl | hb | hb | hb
    · exact hsign b hb
    · exact isNumberByte_digit hc
    · exact isNumberByte_digit (moreDigits_digits c t b hb)
    · exact hfb b hb
    · exact hxb b hb

theorem IsNumber.bytes {raw : Bytes} (h : IsNumber raw) : ∀ b ∈ raw, isNumberByte b = true :=
  (isNumber_of_scan h).2

/-! ## Values as `parse` returns them -/

/-- A value that `parse` can return: members in order of their keys, numbers with the text of a number token. -/
inductive Canonical : Json → Prop
  | null : Canonical .null
  | boolean (b : Bool) : Canonical (.boolean b)
  | string (s : Bytes) : Canonical (.string s)
  | number {raw : Bytes} (h : IsNumber raw) : Canonical (.number raw)
  | array {xs : List Json} (h : ∀ x ∈ xs, Canonical x) : Canonical (.array xs)
  | object {ms : List (Bytes × Json)} (hk : ms.Pairwise fun m n => m.1 < n.1) (h : ∀ m ∈ ms, Canonical m.2) :
      Canonical (.object ms)

theorem mem_assign {β : Type} {k : Bytes} {v : β} {ms : List (Bytes × β)} {m : Bytes × β}
    (h : m ∈ assign k v ms) : m = (k, v) ∨ m ∈ ms := by
  induction ms with
  | nil => exact Or.inl (List.mem_singleton.mp h)
  | cons n ms ih =>
    obtain ⟨k0, v0⟩ := n
    unfold assign at h
    split_ifs at h
    · exact (List.mem_cons.mp h).imp id (List.mem_cons_of_mem _)
    · exact List.mem_cons.mp h
    · rcases List.mem_cons.mp h with rfl | h
      · exact Or.inr List.mem_cons_self
      · exact (ih h).imp id (List.mem_cons_of_mem _)

theorem assign_sorted {β : Type} (k : Bytes) (v : β) {ms : List (Bytes × β)}
    (h : ms.Pairwise fun m n => m.1 < n.1) : (assign k v ms).Pairwise fun m n => m.1 < n.1 := by
  induction ms with
  | nil => simp [assign]
  | cons n ms ih =>
    obtain ⟨k0, v0⟩ := n
    obtain ⟨hfirst, hrest⟩ := List.pairwise_cons.mp h
    unfold assign
    split_ifs with he hlt
    · subst he
      exact List.pairwise_cons.mpr ⟨hfirst, hrest⟩
    · refine List.pairwise_cons.mpr ⟨fun m hm => ?_, h⟩
      rcases List.mem_cons.mp hm with rfl | hm
      · exact hlt
      · exact List.lt_trans hlt (hfirst m hm)
    · refine List.pairwise_cons.mpr ⟨fun m hm => ?_, ih hrest⟩
      rcases mem_assign hm with rfl | hm
      · -- the keys are in a linear order, and the new one is neither equal nor smaller
        rcases List.le_iff_lt_or_eq.mp (List.not_lt.mp hlt) with hgt | heq
        · exact hgt
        · exact absurd heq.symm he
      · exact hfirst m hm

/-- Stored members keep their order when the text gave them in it. -/
theorem store_sorted {ms acc : List (Bytes × Json)} (h : (acc ++ ms).Pairwise fun m n => m.1 < n.1) :
    store ms acc = acc ++ ms := by
  induction ms generalizing acc with
  | nil => simp [store]
  | cons m ms ih =>
    obtain ⟨k, v⟩ := m
    have hlast : assign k v acc = acc ++ [(k, v)] := by
      have hbefore : ∀ n ∈ acc, n.1 < k := fun n hn =>
        (List.pairwise_append.mp h).2.2 n hn (k, v) List.mem_cons_self
      clear h ih
      induction acc with
      | nil => rfl
      | cons n acc ih =>
        obtain ⟨k0, v0⟩ := n
        have hlt : k0 < k := hbefore (k0, v0) List.mem_cons_self
        have hne : k ≠ k0 := by rintro rfl; exact List.lt_irrefl _ hlt
        rw [assign, if_neg hne, if_neg (List.lt_asymm hlt), ih fun n hn => hbefore n (List.mem_cons_of_mem _ hn)]
        rfl
    show store ms (assign k v acc) = acc ++ (k, v) :: ms
    rw [hlast, ih (by simpa using h)]
    simp

theorem store_canonical {ms acc : List (Bytes × Json)} (hms : ∀ m ∈ ms, Canonical m.2)
    (hk : acc.Pairwise fun m n => m.1 < n.1) (hacc : ∀ m ∈ acc, Canonical m.2) :
    Canonical (.object (store ms acc)) := by
  induction ms generalizing acc with
  | nil => exact .object hk hacc
  | cons m ms ih =>
    apply ih (fun n hn => hms n (List.mem_cons_of_mem _ hn)) (assign_sorted _ _ hk)
    intro n hn
    rcases mem_assign hn with rfl | hn
    · exact hms m List.mem_cons_self
    · exact hacc n hn

/-- A run whose number tokens are number tokens spells canonical values. -/
theorem Derives.canonical {ts : List Token} {shape : Shape} (h : Derives ts shape)
    (hn : ∀ raw, .valueNumber raw ∈ ts → IsNumber raw) :
    match shape with
    | .value j => Canonical j
    | .elements xs => ∀ x ∈ xs, Canonical x
    | .members ms => ∀ m ∈ ms, Canonical m.2 := by
  induction h with
  | null => exact .null
  | true | false => exact .boolean _
  | number raw => exact .number (hn raw (by simp))
  | string _ => exact .string _
  | emptyArray => exact .array (by simp)
  | array _ ih => exact .array (ih fun raw hr => hn raw (by simp [hr]))
  | emptyObject => exact .object .nil (by simp)
  | object _ ih => exact store_canonical (ih fun raw hr => hn raw (by simp [hr])) .nil (by simp)
  | element _ ih =>
    intro x hx
    rw [List.mem_singleton.mp hx]
    exact ih hn
  | elements _ _ ih ihs =>
    intro x hx
    rcases List.mem_cons.mp hx with rfl | hx
    · exact ih fun raw hr => hn raw (by simp [hr])
    · exact ihs (fun raw hr => hn raw (by simp [hr])) x hx
  | member _ _ ih =>
    intro m hm
    rw [List.mem_singleton.mp hm]
    exact ih fun raw hr => hn raw (by simp [hr])
  | members _ _ _ ih ihs =>
    intro m hm
    rcases List.mem_cons.mp hm with rfl | hm
    · exact ih fun raw hr => hn raw (by simp [hr])
    · exact ihs (fun raw hr => hn raw (by simp [hr])) m hm

theorem scan_number {s raw : Bytes} (h : (scan s).1 = .valueNumber raw) : IsNumber raw := by
  fun_induction scan s with
  | case2 c s hc ih => exact ih h
  | case12 c s => exact (isNumber_of_scan (Prod.ext h rfl)).1
  | case13 | case14 | case15 =>
    unfold scanLiteral at h
    split at h <;> cases h
  | case16 =>
    next ih => exact ih h
  | _ => cases h

theorem tokens_number {s raw : Bytes} (h : .valueNumber raw ∈ tokens s) : IsNumber raw := by
  fun_induction tokens s with
  | case1 s _ => exact scan_number (List.mem_singleton.mp h).symm
  | case2 s _ ih =>
    rcases List.mem_cons.mp h with h | h
    · exact scan_number h.symm
    · exact ih h

/-- Whatever `parse` returns is canonical. -/
theorem parse_canonical {s : Bytes} {j : Json} (h : parse s = .ok j) : Canonical j := by
  obtain ⟨ts, htok, hd⟩ := parse_derives h
  exact hd.canonical fun raw hr => tokens_number (htok ▸ List.mem_append_left _ hr)

/-! ## The tokens of a dumped value -/

mutual
/-- The tokens `dump` writes a value with. -/
def spell : Json → List Token
  | .null => [.literalNull]
  | .boolean b => [if b then .literalTrue else .literalFalse]
  | .number raw => [.valueNumber raw]
  | .string s => [.valueString (escapeString s)]
  | .array xs => .beginArray :: (spellElements xs ++ [.endArray])
  | .object ms => .beginObject :: (spellMembers ms ++ [.endObject])

def spellElements : List Json → List Token
  | [] => []
  | [x] => spell x
  | x :: y :: xs => spell x ++ .valueSeparator :: spellElements (y :: xs)

def spellMembers : List (Bytes × Json) → List Token
  | [] => []
  | [(k, v)] => .valueString (escapeString k) :: .nameSeparator :: spell v
  | (k, v) :: m :: ms =>
    .valueString (escapeString k) :: .nameSeparator :: (spell v ++ .valueSeparator :: spellMembers (m :: ms))
end

theorem derives_elements : ∀ {xs : List Json}, xs ≠ [] → (∀ x ∈ xs, Derives (spell x) (.value x)) →
    Derives (spellElements xs) (.elements xs)
  | [], h, _ => absurd rfl h
  | [x], _, h => .element (h x List.mem_cons_self)
  | x :: y :: xs, _, h =>
    .elements (h x List.mem_cons_self)
      (derives_elements (List.cons_ne_nil y xs) fun z hz => h z (List.mem_cons_of_mem x hz))

theorem derives_members : ∀ {ms : List (Bytes × Json)}, ms ≠ [] → (∀ m ∈ ms, Derives (spell m.2) (.value m.2)) →
    Derives (spellMembers ms) (.members ms)
  | [], h, _ => absurd rfl h
  | [(k, v)], _, h => .member (getString_escapeString k) (h (k, v) List.mem_cons_self)
  | (k, v) :: m :: ms, _, h =>
    .members (getString_escapeString k) (h (k, v) List.mem_cons_self)
      (derives_members (List.cons_ne_nil m ms) fun n hn => h n (List.mem_cons_of_mem (k, v) hn))

/-- The written tokens of a canonical value spell that value. -/
theorem derives_spell {j : Json} (h : Canonical j) : Derives (spell j) (.value j) := by
  induction h with
  | null => exact .null
  | boolean b => cases b with
    | true => exact .true
    | false => exact .false
  | string s => exact .string (getString_escapeString s)
  | number _ => exact .number _
  | @array xs _ ih =>
    rw [spell]
    cases xs with
    | nil => exact .emptyArray
    | cons x xs => exact .array (derives_elements (List.cons_ne_nil x xs) ih)
  | @object ms hk _ ih =>
    rw [spell]
    cases ms with
    | nil => exact .emptyObject
    | cons m ms =>
      have hd := Derives.object (derives_members (List.cons_ne_nil m ms) ih)
      rwa [store_sorted (by simpa using hk), List.nil_append] at hd

theorem scan_lbracket (s : Bytes) : scan (lbracket :: s) = (.beginArray, s) := by
  rw [scan.eq_def]; rfl

theorem scan_rbracket (s : Bytes) : scan (rbracket :: s) = (.endArray, s) := by
  rw [scan.eq_def]; rfl

theorem scanLiteral_append (word : Bytes) (token : Token) (w : Bytes) :
    scanLiteral word token (word ++ w) = (token, w) := by
  have hp : word.isPrefixOf (word ++ w) = true := List.isPrefixOf_iff_prefix.mpr (List.prefix_append word w)
  simp [scanLiteral, hp]

theorem scan_null (w : Bytes) : scan (str "null" ++ w) = (.literalNull, w) := by
  rw [← scanLiteral_append (str "null") .literalNull w]
  conv_lhs => rw [scan.eq_def]
  rfl

theorem scan_true (w : Bytes) : scan (str "true" ++ w) = (.literalTrue, w) := by
  rw [← scanLiteral_append (str "true") .literalTrue w]
  conv_lhs => rw [scan.eq_def]
  rfl

theorem scan_false (w : Bytes) : scan (str "false" ++ w) = (.literalFalse, w) := by
  rw [← scanLiteral_append (str "false") .literalFalse w]
  conv_lhs => rw [scan.eq_def]
  rfl

/-- The first byte of a number is no other byte that `scan` looks for. -/
theorem numberStart_ne {c d : UInt8} (h : c = 0x2d ∨ isDigit c = true) (h1 : d ≠ 0x2d) (h2 : isDigit d = false) :
    c ≠ d := by
  rintro rfl
  rcases h with rfl | h
  · exact h1 rfl
  · rw [h2] at h
    cases h

theorem numberStart_whitespace {c : UInt8} (h : c = 0x2d ∨ isDigit c = true) : isWhitespace c = false := by
  have h1 := numberStart_ne h (d := 0x20) (by decide) (by decide)
  have h2 := numberStart_ne h (d := 0x09) (by decide) (by decide)
  have h3 := numberStart_ne h (d := 0x0a) (by decide) (by decide)
  have h4 := numberStart_ne h (d := 0x0d) (by decide) (by decide)
  simp [isWhitespace, h1, h2, h3, h4]

theorem scan_numberStart {c : UInt8} (h : c = 0x2d ∨ isDigit c = true) (s : Bytes) :
    scan (c :: s) = scanNumber (c :: s) := by
  have h0 := numberStart_whitespace h
  have h1 := numberStart_ne h (d := 0) (by decide) (by decide)
  have h2 := numberStart_ne h (d := dquote) (by decide) (by decide)
  have h3 := numberStart_ne h (d := comma) (by decide) (by decide)
  have h4 := numberStart_ne h (d := colon) (by decide) (by decide)
  have h5 := numberStart_ne h (d := lbracket) (by decide) (by decide)
  have h6 := numberStart_ne h (d := rbracket) (by decide) (by decide)
  have h7 := numberStart_ne h (d := lbrace) (by decide) (by decide)
  have h8 := numberStart_ne h (d := rbrace) (by decide) (by decide)
  have hc : (c = 0x2d || isDigit c) = true := by simpa using h
  conv_lhs => rw [scan.eq_def]
  simp [h0, h1, h2, h3, h4, h5, h6, h7, h8, hc]

/-- A number token is read whole, whatever stands behind it that cannot continue it. -/
theorem scan_isNumber {raw w : Bytes} (h : IsNumber raw) (hw : Ends isNumberByte w) :
    scan (raw ++ w) = (.valueNumber raw, w) := by
  have hr := scanNumber_append h hw
  obtain ⟨sign, c, t, hs, hc, rfl⟩ := scanNumber_some h
  have hfirst : scan (sign ++ c :: t ++ w) = scanNumber (sign ++ c :: t ++ w) := by
    rcases hs with rfl | rfl
    · exact scan_numberStart (Or.inr hc) (t ++ w)
    · exact scan_numberStart (Or.inl rfl) (c :: t ++ w)
  rw [hfirst, hr, List.nil_append]

/-- The tokens of a text that begins with one token's text. -/
theorem tokens_of_scan {s w : Bytes} {t : Token} (h : scan s = (t, w)) (h1 : t ≠ .endOfInput)
    (h2 : t ≠ .parseError) : tokens s = t :: tokens w := by
  have := tokens_next (s := s) (t := t) (by rw [h]) h1 h2
  rwa [h] at this

theorem tokens_member (k w : Bytes) :
    tokens (dquote :: (escapeString k ++ dquote :: colon :: w)) =
      .valueString (escapeString k) :: .nameSeparator :: tokens w := by
  rw [tokens_of_scan (scan_string k (colon :: w)) (by simp) (by simp),
    tokens_of_scan (scan_colon w) (by simp) (by simp)]

/-- Neither a separator nor a closing bracket continues a number. -/
theorem ends_comma (w : Bytes) : Ends isNumberByte (comma :: w) := ends_cons (by decide)

theorem tokens_dumpElements : ∀ {xs : List Json},
    (∀ x ∈ xs, ∀ w, Ends isNumberByte w → tokens (dumpValue id x ++ w) = spell x ++ tokens w) →
    ∀ w, Ends isNumberByte w → tokens (dumpElements id xs ++ w) = spellElements xs ++ tokens w
  | [], _, w, _ => rfl
  | [x], h, w, hw => h x List.mem_cons_self w hw
  | x :: y :: xs, h, w, hw => by
    have ih : tokens (dumpElements id (y :: xs) ++ w) = spellElements (y :: xs) ++ tokens w :=
      tokens_dumpElements (fun z hz => h z (List.mem_cons_of_mem x hz)) w hw
    rw [dumpElements, List.append_assoc, List.cons_append, h x List.mem_cons_self _ (ends_comma _),
      tokens_of_scan (scan_comma _) (by simp) (by simp), ih]
    simp [spellElements]

theorem tokens_dumpPairs : ∀ {ms : List (Bytes × Json)},
    (∀ m ∈ ms, ∀ w, Ends isNumberByte w → tokens (dumpValue id m.2 ++ w) = spell m.2 ++ tokens w) →
    ∀ w, Ends isNumberByte w → tokens (dumpPairs id ms ++ w) = spellMembers ms ++ tokens w
  | [], _, w, _ => rfl
  | [(k, v)], h, w, hw => by
    have hv := h (k, v) List.mem_cons_self w hw
    simp only [dumpPairs, List.cons_append, List.append_assoc, tokens_member]
    rw [hv]
    simp [spellMembers]
  | (k, v) :: m :: ms, h, w, hw => by
    have ih : tokens (dumpPairs id (m :: ms) ++ w) = spellMembers (m :: ms) ++ tokens w :=
      tokens_dumpPairs (fun z hz => h z (List.mem_cons_of_mem (k, v) hz)) w hw
    have hv := h (k, v) List.mem_cons_self (comma :: (dumpPairs id (m :: ms) ++ w)) (ends_comma _)
    simp only [dumpPairs, List.cons_append, List.append_assoc, tokens_member]
    rw [hv, tokens_of_scan (scan_comma _) (by simp) (by simp), ih]
    simp [spellMembers]

/-- A dumped value is read as the tokens it was written with, whatever follows that cannot continue a number. -/
theorem tokens_dumpValue {j : Json} (h : Canonical j) : ∀ w, Ends isNumberByte w →
    tokens (dumpValue id j ++ w) = spell j ++ tokens w := by
  induction h with
  | null =>
    intro w _
    rw [dumpValue, tokens_of_scan (scan_null w) (by simp) (by simp)]; rfl
  | boolean b =>
    intro w _
    cases b with
    | true => exact tokens_of_scan (scan_true w) (by simp) (by simp)
    | false => exact tokens_of_scan (scan_false w) (by simp) (by simp)
  | string s =>
    intro w _
    rw [dumpValue, List.cons_append, List.append_assoc, List.singleton_append,
      tokens_of_scan (scan_string s w) (by simp) (by simp)]
    rfl
  | number hn =>
    intro w hw
    rw [dumpValue, id, tokens_of_scan (scan_isNumber hn hw) (by simp) (by simp)]; rfl
  | array _ ih =>
    intro w _
    rw [dumpValue, List.cons_append, List.append_assoc, List.singleton_append,
      tokens_of_scan (scan_lbracket _) (by simp) (by simp), tokens_dumpElements ih _ (ends_cons (by decide)),
      tokens_of_scan (scan_rbracket w) (by simp) (by simp)]
    simp [spell]
  | object _ _ ih =>
    intro w _
    rw [dumpValue, List.cons_append, List.append_assoc, List.singleton_append,
      tokens_of_scan (scan_lbrace _) (by simp) (by simp), tokens_dumpPairs ih _ (ends_cons (by decide)),
      tokens_of_scan (scan_rbrace w) (by simp) (by simp)]
    simp [spell]

/-! ## The round trip -/

mutual
/-- The value with the text of every number rewritten. -/
def renumber (number : Bytes → Bytes) : Json → Json
  | .null => .null
  | .boolean b => .boolean b
  | .number raw => .number (number raw)
  | .string s => .string s
  | .array xs => .array (renumberElements number xs)
  | .object ms => .object (renumberMembers number ms)

def renumberElements (number : Bytes → Bytes) : List Json → List Json
  | [] => []
  | x :: xs => renumber number x :: renumberElements number xs

def renumberMembers (number : Bytes → Bytes) : List (Bytes × Json) → List (Bytes × Json)
  | [] => []
  | (k, v) :: ms => (k, renumber number v) :: renumberMembers number ms
end

mutual
/-- `dump` writes the numbers its own way, and all else as it would write them itself. -/
theorem dumpValue_renumber (number : Bytes → Bytes) : ∀ j, dumpValue number j = dumpValue id (renumber number j)
  | .null | .boolean _ | .number _ | .string _ => rfl
  | .array xs => by rw [renumber, dumpValue, dumpValue, dumpElements_renumber number xs]
  | .object ms => by rw [renumber, dumpValue, dumpValue, dumpPairs_renumber number ms]

theorem dumpElements_renumber (number : Bytes → Bytes) : ∀ xs,
    dumpElements number xs = dumpElements id (renumberElements number xs)
  | [] => rfl
  | [x] => dumpValue_renumber number x
  | x :: y :: xs => by
    have ih := dumpElements_renumber number (y :: xs)
    rw [renumberElements] at ih
    rw [renumberElements, renumberElements, dumpElements, dumpElements, dumpValue_renumber number x, ih]

theorem dumpPairs_renumber (number : Bytes → Bytes) : ∀ ms,
    dumpPairs number ms = dumpPairs id (renumberMembers number ms)
  | [] => rfl
  | [(k, v)] => by
    simp only [renumberMembers, dumpPairs, dumpValue_renumber number v]
  | (k, v) :: (k', v') :: ms => by
    have ih := dumpPairs_renumber number ((k', v') :: ms)
    rw [renumberMembers] at ih
    simp only [renumberMembers, dumpPairs, dumpValue_renumber number v] at ih ⊢
    rw [ih]
end

theorem renumberElements_eq (number : Bytes → Bytes) : ∀ xs : List Json,
    renumberElements number xs = xs.map (renumber number)
  | [] => rfl
  | x :: xs => by rw [renumberElements, renumberElements_eq number xs]; rfl

theorem renumberMembers_eq (number : Bytes → Bytes) : ∀ ms : List (Bytes × Json),
    renumberMembers number ms = ms.map fun m => (m.1, renumber number m.2)
  | [] => rfl
  | (k, v) :: ms => by rw [renumberMembers, renumberMembers_eq number ms]; rfl

/-- A number of that text stands somewhere in the value. -/
inductive HasNumber (raw : Bytes) : Json → Prop
  | number : HasNumber raw (.number raw)
  | array {xs : List Json} {x : Json} (hx : x ∈ xs) (h : HasNumber raw x) : HasNumber raw (.array xs)
  | object {ms : List (Bytes × Json)} {m : Bytes × Json} (hm : m ∈ ms) (h : HasNumber raw m.2) :
      HasNumber raw (.object ms)

/-- A value whose numbers are written as number tokens stays canonical. -/
theorem Canonical.renumber {number : Bytes → Bytes} {j : Json} (h : Canonical j)
    (hn : ∀ raw, HasNumber raw j → IsNumber (number raw)) : Canonical (renumber number j) := by
  induction h with
  | null => exact .null
  | boolean b => exact .boolean b
  | string s => exact .string s
  | number _ => exact .number (hn _ .number)
  | array _ ih =>
    rw [Json.renumber, renumberElements_eq]
    refine .array fun x hx => ?_
    obtain ⟨y, hy, rfl⟩ := List.mem_map.mp hx
    exact ih y hy fun raw hr => hn raw (.array hy hr)
  | object hk _ ih =>
    rw [Json.renumber, renumberMembers_eq]
    refine .object (List.pairwise_map.mpr hk) fun m hm => ?_
    obtain ⟨n, hin, rfl⟩ := List.mem_map.mp hm
    exact ih n hin fun raw hr => hn raw (.object hin hr)

/-- Rewriting again changes nothing where a rewritten number is written as it stands. -/
theorem Canonical.renumber_idem {number : Bytes → Bytes} {j : Json} (h : Canonical j)
    (hn : ∀ raw, HasNumber raw j → number (number raw) = number raw) :
    Json.renumber number (Json.renumber number j) = Json.renumber number j := by
  induction h with
  | null | boolean | string => rfl
  | number _ => rw [Json.renumber, Json.renumber, hn _ .number]
  | array _ ih =>
    simp only [Json.renumber, renumberElements_eq, List.map_map]
    congr 1
    exact List.map_congr_left fun x hx => ih x hx fun raw hr => hn raw (.array hx hr)
  | object _ _ ih =>
    simp only [Json.renumber, renumberMembers_eq, List.map_map]
    congr 1
    refine List.map_congr_left fun m hm => ?_
    show (m.1, Json.renumber number (Json.renumber number m.2)) = (m.1, Json.renumber number m.2)
    rw [ih m hm fun raw hr => hn raw (.object hm hr)]

/-- A blank text continues no number. -/
theorem ends_blank {w : Bytes} (h : blank w = true) : Ends isNumberByte w := by
  intro c t hc
  subst hc
  by_contra hn
  rw [Bool.not_eq_false] at hn
  have hne : isWhitespace c = false ∧ c ≠ 0xef := by
    constructor
    · by_contra hw
      simp only [Bool.not_eq_false, isWhitespace, Bool.or_eq_true, beq_iff_eq] at hw
      rcases hw with ((rfl | rfl) | rfl) | rfl <;> exact absurd hn (by decide)
    · rintro rfl
      exact absurd hn (by decide)
  rw [blank.eq_def] at h
  simp [hne] at h

/-- What `dump` writes for a canonical value is read back as that value. -/
theorem parse_dumpValue {number : Bytes → Bytes} {j : Json} (h : Canonical (renumber number j)) {w : Bytes}
    (hw : Ends isNumberByte w) (hend : (scan w).1 = .endOfInput) :
    parse (dumpValue number j ++ w) = .ok (renumber number j) := by
  have htok : tokens (dumpValue number j ++ w) = spell (renumber number j) ++ [.endOfInput] := by
    rw [dumpValue_renumber, tokens_dumpValue h w hw, tokens_stop (Or.inl hend), hend]
  exact derives_parse htok (derives_spell h)

/-- The numbers of a canonical value are number tokens. -/
theorem HasNumber.isNumber {raw : Bytes} {j : Json} (hraw : HasNumber raw j) (h : Canonical j) : IsNumber raw := by
  induction hraw with
  | number =>
    cases h with
    | number hn => exact hn
  | array hx _ ih =>
    cases h with
    | array hall => exact ih (hall _ hx)
  | object hm _ ih =>
    cases h with
    | object _ hall => exact ih (hall _ hm)

theorem HasNumber.renumber (number : Bytes → Bytes) {raw : Bytes} {j : Json} (h : HasNumber raw j) :
    HasNumber (number raw) (Json.renumber number j) := by
  induction h with
  | number => exact .number
  | array hx _ ih =>
    rw [Json.renumber, renumberElements_eq]
    exact .array (List.mem_map_of_mem hx) ih
  | object hm _ ih =>
    rw [Json.renumber, renumberMembers_eq]
    exact .object (List.mem_map_of_mem hm) ih

/-- A value `parse` has returned is read back as it is written, whatever blanks follow it, just if
    all its numbers are written as number tokens. -/
theorem parse_dump_iff {number : Bytes → Bytes} {s : Bytes} {j : Json} (h : parse s = .ok j) {w : Bytes}
    (hw : blank w = true) : parse (dumpValue number j ++ w) = .ok (renumber number j) ↔
      ∀ raw, HasNumber raw j → IsNumber (number raw) := by
  constructor
  · intro hp raw hraw
    exact (hraw.renumber number).isNumber (parse_canonical hp)
  · intro hn
    have hend : (scan w).1 = .endOfInput := by
      have := scan_blank_append hw []
      rw [List.append_nil] at this
      rw [this]; rfl
    exact parse_dumpValue ((parse_canonical h).renumber hn) (ends_blank hw) hend

/-! ## The bytes of a dumped value -/

theorem isNumberByte_printable {c : UInt8} (h : isNumberByte c = true) : 0x1f < c := by
  simp only [isNumberByte, isDigit, isPoint, isExponent, isSign, Bool.or_eq_true, Bool.and_eq_true,
    decide_eq_true_eq, beq_iff_eq] at h
  rcases h with ((⟨h, -⟩ | rfl) | (rfl | rfl)) | (rfl | rfl)
  · exact UInt8.lt_of_lt_of_le (by decide) h
  · decide
  · decide
  · decide
  · decide
  · decide

theorem dumpElements_printable : ∀ {xs : List Json}, (∀ x ∈ xs, ∀ b ∈ dumpValue id x, 0x1f < b) →
    ∀ b ∈ dumpElements id xs, 0x1f < b
  | [], _, b, hb => by cases hb
  | [x], h, b, hb => h x List.mem_cons_self b hb
  | x :: y :: xs, h, b, hb => by
    rcases List.mem_append.mp hb with hb | hb
    · exact h x List.mem_cons_self b hb
    · rcases List.mem_cons.mp hb with rfl | hb
      · decide
      · have hrest : ∀ z ∈ y :: xs, ∀ b ∈ dumpValue id z, 0x1f < b :=
          fun z hz => h z (List.mem_cons_of_mem x hz)
        exact dumpElements_printable hrest b hb

theorem member_printable (k : Bytes) {v : Json} (h : ∀ b ∈ dumpValue id v, 0x1f < b) :
    ∀ b ∈ dquote :: (escapeString k ++ dquote :: colon :: dumpValue id v), 0x1f < b := by
  intro b hb
  simp only [List.mem_cons, List.mem_append] at hb
  rcases hb with rfl | hb | rfl | rfl | hb
  · decide
  · exact escapeString_printable k b hb
  · decide
  · decide
  · exact h b hb

theorem dumpPairs_printable : ∀ {ms : List (Bytes × Json)}, (∀ m ∈ ms, ∀ b ∈ dumpValue id m.2, 0x1f < b) →
    ∀ b ∈ dumpPairs id ms, 0x1f < b
  | [], _, b, hb => by cases hb
  | [(k, v)], h, b, hb => by
    rw [dumpPairs] at hb
    exact member_printable k (h (k, v) List.mem_cons_self) b hb
  | (k, v) :: m :: ms, h, b, hb => by
    rw [dumpPairs] at hb
    rcases List.mem_append.mp hb with hb | hb
    · exact member_printable k (h (k, v) List.mem_cons_self) b hb
    · rcases List.mem_cons.mp hb with rfl | hb
      · decide
      · have hrest : ∀ z ∈ m :: ms, ∀ b ∈ dumpValue id z.2, 0x1f < b :=
          fun z hz => h z (List.mem_cons_of_mem (k, v) hz)
        exact dumpPairs_printable hrest b hb

/-- No control byte is left in a dumped value: it is a C string on one line. -/
theorem dumpValue_printable {j : Json} (h : Canonical j) : ∀ b ∈ dumpValue id j, 0x1f < b := by
  have hq : 0x1f < dquote := by decide
  have hl : 0x1f < lbracket ∧ 0x1f < rbracket ∧ 0x1f < lbrace ∧ 0x1f < rbrace := by decide
  induction h with
  | null => rw [dumpValue]; decide +kernel
  | boolean b => cases b <;> (rw [dumpValue]; decide +kernel)
  | string s =>
    intro b hb
    simp only [dumpValue, List.mem_cons, List.mem_append, List.not_mem_nil, or_false] at hb
    rcases hb with rfl | hb | rfl
    · exact hq
    · exact escapeString_printable s b hb
    · exact hq
  | number hn => exact fun b hb => isNumberByte_printable (hn.bytes b hb)
  | array _ ih =>
    intro b hb
    simp only [dumpValue, List.mem_cons, List.mem_append, List.not_mem_nil, or_false] at hb
    rcases hb with rfl | hb | rfl
    · exact hl.1
    · exact dumpElements_printable ih b hb
    · exact hl.2.1
  | object _ _ ih =>
    intro b hb
    simp only [dumpValue, List.mem_cons, List.mem_append, List.not_mem_nil, or_false] at hb
    rcases hb with rfl | hb | rfl
    · exact hl.2.2.1
    · exact dumpPairs_printable ih b hb
    · exact hl.2.2.2

end VirtualSocket.Json
