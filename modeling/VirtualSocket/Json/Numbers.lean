import VirtualSocket.Json.Text

/- What becomes of a number between `parse` and `dump`. `get_number` takes a token
   without fraction and exponent for an integer of 64 bits and adds its digits up
   modulo 2^64, with a test after each digit that is meant to find an overflow.
   `number_integral`: in range the integer is the one written, and out of range it
   is a float or, where a sum wraps around unseen, another integer. What `dump`
   writes for an integer is read back as it was, and so `reparse` puts a condition on
   the floats alone. These are `strtod`'s and the stream's: they stay a parameter. -/
namespace VirtualSocket.Json

/-- The value of a number token. A float keeps the text that `strtod` gets. -/
inductive NumberValue where
  | unsigned (value : Nat)
  | integer (value : Int)
  | float (raw : Bytes)
  deriving DecidableEq

/-- The loop of `get_number` over the digits; `none` when the type has become float. -/
def accumulate (max : Nat) : Nat → Bytes → Option Nat
  | value, [] => some value
  | value, c :: s =>
    if isDigit c then
      let temp := (value * 10 + (c.toNat - 48)) % 2 ^ 64
      if temp < value ∨ temp > max then none else accumulate max temp s
    -- a point or an exponent
    else none

/-- The largest magnitude of the type, behind a minus sign and without. -/
def integralMax (negative : Bool) : Nat := if negative then 2 ^ 63 else 2 ^ 64 - 1

def NumberValue.ofMagnitude (negative : Bool) (value : Nat) : NumberValue :=
  if negative then .integer (-(value : Int)) else .unsigned value

def signText (negative : Bool) : Bytes := if negative then [0x2d] else []

/-- `lexer::get_number`. -/
def getNumber (raw : Bytes) : NumberValue :=
  let negative := raw.head? == some 0x2d
  match accumulate (integralMax negative) 0 (raw.drop (signText negative).length) with
  | some value => .ofMagnitude negative value
  | none => .float raw

/-- What `dump` writes for a number. -/
def NumberValue.dump (float : Bytes → Bytes) : NumberValue → Bytes
  | .unsigned value => Fd.toString value
  | .integer value => signText (decide (value < 0)) ++ Fd.toString value.natAbs
  | .float raw => float raw

/-- What `dump` writes for the number read from a token. -/
def dumpNumber (float : Bytes → Bytes) (raw : Bytes) : Bytes := (getNumber raw).dump float

/-! ## The digits added up -/

theorem digitsFrom_cons (n : Nat) (c : UInt8) (s : Bytes) :
    digitsFrom n (c :: s) = digitsFrom (10 * n + (c.toNat - 48)) s := by
  unfold digitsFrom
  rw [List.foldl_cons]

theorem le_digitsFrom (n : Nat) (s : Bytes) : n ≤ digitsFrom n s := by
  induction s generalizing n with
  | nil => exact le_rfl
  | cons c s ih =>
    calc n ≤ 10 * n + (c.toNat - 48) := by omega
      _ ≤ digitsFrom n (c :: s) := ih _

/-- Up to the largest magnitude no test fires and no sum wraps around. -/
theorem accumulate_exact {max : Nat} (hmax : max < 2 ^ 64) {n : Nat} {s : Bytes} (hs : ∀ c ∈ s, isDigit c = true)
    (h : digitsFrom n s ≤ max) : accumulate max n s = some (digitsFrom n s) := by
  induction s generalizing n with
  | nil => rfl
  | cons c s ih =>
    have hle : 10 * n + (c.toNat - 48) ≤ max := (le_digitsFrom _ s).trans h
    have htemp : (n * 10 + (c.toNat - 48)) % 2 ^ 64 = 10 * n + (c.toNat - 48) := by
      rw [Nat.mul_comm, Nat.mod_eq_of_lt (by omega)]
    unfold accumulate
    simp only [hs c List.mem_cons_self, if_true, htemp]
    rw [if_neg (by omega)]
    exact ih (fun b hb => hs b (List.mem_cons_of_mem c hb)) h

theorem digitsFrom_congr {n m : Nat} (h : n % 2 ^ 64 = m % 2 ^ 64) (s : Bytes) :
    digitsFrom n s % 2 ^ 64 = digitsFrom m s % 2 ^ 64 := by
  induction s generalizing n m with
  | nil => exact h
  | cons c s ih =>
    rw [digitsFrom_cons, digitsFrom_cons]
    apply ih
    omega

/-- Whatever is added up is right modulo 2^64, and no larger than the largest magnitude. -/
theorem accumulate_some {max n v : Nat} {s : Bytes} (hn : n ≤ max) (h : accumulate max n s = some v) :
    v ≤ max ∧ v % 2 ^ 64 = digitsFrom n s % 2 ^ 64 := by
  induction s generalizing n with
  | nil =>
    obtain rfl := Option.some.inj h
    exact ⟨hn, rfl⟩
  | cons c s ih =>
    unfold accumulate at h
    split at h
    · simp only at h
      split at h
      · cases h
      · next ht =>
        obtain ⟨hv, hmod⟩ := ih (by omega) h
        refine ⟨hv, ?_⟩
        calc v % 2 ^ 64 = digitsFrom ((n * 10 + (c.toNat - 48)) % 2 ^ 64) s % 2 ^ 64 := hmod
          _ = digitsFrom (10 * n + (c.toNat - 48)) s % 2 ^ 64 := digitsFrom_congr (by omega) s
    · cases h

/-! ## Integral numerals -/

theorem integralMax_lt (negative : Bool) : integralMax negative < 2 ^ 64 := by
  cases negative <;> decide

theorem whole_digits {ds : Bytes} (h : Whole ds) : DigitRun ds := by
  cases h with
  | zero =>
    refine ⟨by simp, ?_⟩
    intro c hc
    rw [List.mem_singleton.mp hc]
    rfl
  | digits _ hd => exact hd

/-- `get_number` on a numeral that has neither fraction nor exponent. -/
theorem getNumber_signed (negative : Bool) {ds : Bytes} (hd : DigitRun ds) :
    getNumber (signText negative ++ ds) =
      match accumulate (integralMax negative) 0 ds with
      | some value => .ofMagnitude negative value
      | none => .float (signText negative ++ ds) := by
  have hhead : ((signText negative ++ ds).head? == some 0x2d) = negative := by
    cases negative with
    | true => rfl
    | false =>
      obtain ⟨hne, hall⟩ := hd
      cases ds with
      | nil => exact absurd rfl hne
      | cons c ds =>
        apply beq_eq_false_iff_ne.mpr
        intro hc
        have hdigit := hall c List.mem_cons_self
        rw [Option.some.inj hc] at hdigit
        exact absurd hdigit (by decide)
  unfold getNumber
  simp only [hhead, List.drop_left]

/-- What is written for an integer in range is a number token that is read as the integer. -/
theorem toString_whole (n : Nat) : Whole (Fd.toString n) := by
  have hdigits : ∀ c ∈ Fd.toString n, isDigit c = true := by
    intro c hc
    obtain ⟨d, hd, rfl⟩ := toString_digits n c hc
    exact isDigit_digit d hd
  by_cases h0 : n = 0
  · rw [h0]
    exact .zero
  · cases hs : Fd.toString n with
    | nil => exact absurd hs (toString_ne_nil n)
    | cons c t =>
      rw [hs] at hdigits
      refine .digits ?_ ⟨List.cons_ne_nil c t, hdigits⟩
      -- the first digit written is the last of `Nat.digits`
      rw [Fd.toString, if_neg h0] at hs
      obtain ⟨d, ds, hrev, hdc, -⟩ := List.map_eq_cons_iff.mp hs
      have hlist : Nat.digits 10 n = ds.reverse ++ [d] := by
        rw [← List.reverse_reverse (Nat.digits 10 n), hrev, List.reverse_cons]
      have hlast : d ≠ 0 := by
        have hne := Nat.getLast_digit_ne_zero 10 h0
        simpa [hlist] using hne
      have hlt : d < 10 := Nat.digits_lt_base (by omega) (hlist ▸ List.mem_append_right _ List.mem_cons_self)
      have hnat := digit_toNat hlt
      rintro rfl
      rw [hdc] at hnat
      have h48 : (48 : Nat) = 48 + d := hnat
      omega

/-- An integer is written as a number token, and read from it again it is written the same. -/
theorem dump_magnitude (float : Bytes → Bytes) {negative : Bool} {v : Nat} (hv : v ≤ integralMax negative) :
    IsNumber ((NumberValue.ofMagnitude negative v).dump float) ∧
      dumpNumber float ((NumberValue.ofMagnitude negative v).dump float) =
        (NumberValue.ofMagnitude negative v).dump float := by
  -- a minus sign is left in front of a zero by none of them
  have htext : ∃ sign : Bool, (NumberValue.ofMagnitude negative v).dump float = signText sign ++ Fd.toString v ∧
      v ≤ integralMax sign ∧ (NumberValue.ofMagnitude sign v).dump float = signText sign ++ Fd.toString v := by
    cases negative with
    | false => exact ⟨false, rfl, hv, rfl⟩
    | true =>
      by_cases h0 : v = 0
      · subst h0
        exact ⟨false, rfl, by decide, rfl⟩
      · have hneg : decide (-(v : Int) < 0) = true := decide_eq_true (by omega)
        have hd : (NumberValue.ofMagnitude true v).dump float = signText true ++ Fd.toString v := by
          show signText (decide (-(v : Int) < 0)) ++ Fd.toString (-(v : Int)).natAbs = _
          rw [hneg, Int.natAbs_neg, Int.natAbs_natCast]
        exact ⟨true, hd, hv, hd⟩
  obtain ⟨sign, htext, hle, hagain⟩ := htext
  have hwhole := toString_whole v
  have hdigits := whole_digits hwhole
  rw [htext]
  constructor
  · have hs : signText sign = [] ∨ signText sign = [0x2d] := by cases sign <;> simp [signText]
    have hn : Numeral (signText sign ++ (Fd.toString v ++ ([] ++ []))) := .mk hs hwhole .none .none
    rw [List.append_nil, List.append_nil] at hn
    exact isNumber_iff.mpr hn
  · have hread : getNumber (signText sign ++ Fd.toString v) = .ofMagnitude sign v := by
      have hvalue : digitsFrom 0 (Fd.toString v) = v := digitsValue_toString v
      rw [getNumber_signed sign hdigits, accumulate_exact (integralMax_lt sign) hdigits.2
        (by rw [hvalue]; exact hle), hvalue]
    unfold dumpNumber
    rw [hread, hagain]

/-- A number read as an integer is written as a number token, and read from it again it is written
    the same, whatever its text. -/
theorem dumpNumber_integer (float : Bytes → Bytes) (raw : Bytes) : getNumber raw = .float raw ∨
    IsNumber (dumpNumber float raw) ∧ dumpNumber float (dumpNumber float raw) = dumpNumber float raw := by
  obtain ⟨negative, hread⟩ : ∃ negative, getNumber raw =
      match accumulate (integralMax negative) 0 (raw.drop (signText negative).length) with
      | some value => .ofMagnitude negative value
      | none => .float raw := ⟨raw.head? == some 0x2d, rfl⟩
  cases ha : accumulate (integralMax negative) 0 (raw.drop (signText negative).length) with
  | none =>
    rw [ha] at hread
    exact Or.inl hread
  | some v =>
    rw [ha] at hread
    obtain ⟨hv, -⟩ := accumulate_some (Nat.zero_le _) ha
    unfold dumpNumber
    rw [hread]
    exact Or.inr (dump_magnitude float hv)

/-- A numeral without fraction and exponent. In range, the integer read is the one written; out of range,
    it is read as a float, or as what is left of it modulo 2^64. Whenever it is read as an integer, `dump`
    writes a number token that is read and written the same from then on. -/
theorem number_integral (float : Bytes → Bytes) (negative : Bool) {ds : Bytes} (hd : Whole ds) :
    (digitsValue ds ≤ integralMax negative →
      getNumber (signText negative ++ ds) = .ofMagnitude negative (digitsValue ds)) ∧
    (integralMax negative < digitsValue ds →
      getNumber (signText negative ++ ds) = .float (signText negative ++ ds) ∨
        getNumber (signText negative ++ ds) = .ofMagnitude negative (digitsValue ds % 2 ^ 64)) ∧
    (getNumber (signText negative ++ ds) = .float (signText negative ++ ds) ∨
      IsNumber (dumpNumber float (signText negative ++ ds)) ∧
        dumpNumber float (dumpNumber float (signText negative ++ ds)) =
          dumpNumber float (signText negative ++ ds)) := by
  have hrun := whole_digits hd
  have hread := getNumber_signed negative hrun
  have hmax := integralMax_lt negative
  cases ha : accumulate (integralMax negative) 0 ds with
  | none =>
    rw [ha] at hread
    refine ⟨?_, fun _ => Or.inl hread, dumpNumber_integer float _⟩
    intro hle
    rw [accumulate_exact hmax hrun.2 hle] at ha
    cases ha
  | some v =>
    rw [ha] at hread
    obtain ⟨hv, hmod⟩ := accumulate_some (Nat.zero_le _) ha
    have hvalue : v = digitsValue ds % 2 ^ 64 := by
      rw [← Nat.mod_eq_of_lt (show v < 2 ^ 64 by omega)]
      exact hmod
    refine ⟨?_, ?_, dumpNumber_integer float _⟩
    · intro hle
      rw [hread, hvalue, Nat.mod_eq_of_lt (by omega)]
    · intro _
      rw [hread, hvalue]
      exact Or.inr rfl

/-- 5 * 10^19 is out of range, and its last sum wraps around unseen. -/
theorem number_integral_wrapped :
    (getNumber (str "50000000000000000000") = .float (str "50000000000000000000") ∨
      getNumber (str "50000000000000000000") = .unsigned (50000000000000000000 % 2 ^ 64)) ∧
    getNumber (str "50000000000000000000") = .unsigned 13106511852580896768 := by
  have hd : Whole (str "50000000000000000000") := .digits (by decide) ⟨by simp, by decide +kernel⟩
  have hvalue : digitsValue (str "50000000000000000000") = 50000000000000000000 := by decide +kernel
  obtain ⟨-, hout, -⟩ := number_integral id false hd
  rw [hvalue] at hout
  exact ⟨hout (by decide), by decide +kernel⟩

/-! ## Values written and read again -/

theorem dumpNumber_float (float : Bytes → Bytes) {raw : Bytes} (h : getNumber raw = .float raw) :
    dumpNumber float raw = float raw := by
  unfold dumpNumber
  rw [h]
  rfl

/-- A value `parse` has returned is read back as `dump` writes it, whatever blanks follow it, just if
    every number in it that is read as a float is written as a number token. The stream writes an
    infinite one as `inf`. -/
theorem reparse {float : Bytes → Bytes} {s : Bytes} {j : Json} (h : parse s = .ok j) {w : Bytes}
    (hw : blank w = true) :
    parse (dumpValue (dumpNumber float) j ++ w) = .ok (renumber (dumpNumber float) j) ↔
      ∀ raw, HasNumber raw j → getNumber raw = .float raw → IsNumber (float raw) := by
  rw [parse_dump_iff h hw]
  constructor
  · intro hn raw hraw hfloat
    rw [← dumpNumber_float float hfloat]
    exact hn raw hraw
  · intro hn raw hraw
    cases dumpNumber_integer float raw with
    | inl hfloat =>
      rw [dumpNumber_float float hfloat]
      exact hn raw hraw hfloat
    | inr hinteger => exact hinteger.1

example : ¬ IsNumber (str "inf") := by decide

/-- The stream on some floats: it writes 15 digits, without the zeros that end them. -/
def written (raw : Bytes) : Bytes :=
  if raw = str "-0.5e+3" then str "-500"
  else if raw = str "-2e3" then str "-2000"
  else if raw = str "1.50" then str "1.5"
  else raw

/-- A value in a value: the stream writes -0.5e+3 as -500, and 7 is an integer. -/
theorem reparse_nested : ∃ j, parse (str "[\"a\",[-0.5e+3,\x7b\"b\":[7,null]\x7d],true]") = .ok j ∧
    parse (dumpValue (dumpNumber written) j ++ [newline]) = .ok (renumber (dumpNumber written) j) := by
  have hs : (parse (str "[\"a\",[-0.5e+3,\x7b\"b\":[7,null]\x7d],true]")).isOk = true := by decide +kernel
  obtain ⟨j, hj⟩ : ∃ j, parse (str "[\"a\",[-0.5e+3,\x7b\"b\":[7,null]\x7d],true]") = .ok j := by
    generalize parse _ = res at hs
    cases res with
    | error e => cases hs
    | ok j => exact ⟨j, rfl⟩
  refine ⟨j, hj, (reparse hj rfl).mpr ?_⟩
  intro raw hraw _
  have hn := hraw.isNumber (parse_canonical hj)
  unfold written
  split_ifs
  · decide
  · decide
  · decide
  · exact hn

end VirtualSocket.Json
