import Mathlib.Data.Nat.Digits.Lemmas
import Mathlib.Data.List.TakeWhile

/- Byte strings and the C and C++ string functions the daemon's code goes
   through: `std::string(buf)` of a NUL-terminated buffer, `std::to_string` of a
   descriptor, and `atoi`. A client waiting for its connection is known to every
   party only by the decimal text of its descriptor, so what carries the
   development is `atoi_toString`: the text names one descriptor and no other. -/
namespace VirtualSocket

abbrev Bytes := List UInt8

/-- A file descriptor as `accept` returns it. -/
abbrev Fd := Nat

/-- The bytes of a string literal of the source. -/
def str (s : String) : Bytes := s.toList.map Char.toUInt8

def newline : UInt8 := 0x0a

/-- `std::string(buf)`: a C string ends at its first NUL. -/
def cstr (buf : Bytes) : Bytes := buf.takeWhile (· != 0)

def digit (d : Nat) : UInt8 := UInt8.ofNat (48 + d)

def isDigit (c : UInt8) : Bool := 0x30 ≤ c && c ≤ 0x39

/-- C `isspace` in the default locale. -/
def isSpace (c : UInt8) : Bool := c == 0x20 || (0x09 ≤ c && c ≤ 0x0d)

/-- The lines that successive calls of `std::getline` give. -/
def getlines : Bytes → List Bytes
  | [] => []
  | c :: s =>
    if c = newline then [] :: getlines s
    else
      match getlines s with
      -- the last line need not be ended
      | [] => [[c]]
      | l :: ls => (c :: l) :: ls

/-- `std::to_string(fd)`. -/
def Fd.toString (fd : Fd) : Bytes :=
  if fd = 0 then [digit 0] else (Nat.digits 10 fd).reverse.map digit

/-- The value of decimal digits behind others of value `n`. -/
def digitsFrom (n : Nat) (s : Bytes) : Nat := s.foldl (fun n c => 10 * n + (c.toNat - 48)) n

/-- The value of a run of decimal digits. -/
def digitsValue (s : Bytes) : Nat := digitsFrom 0 s

/-- C `atoi`: leading space, an optional sign, then the digits up to the first other byte. -/
def atoi (s : Bytes) : Int :=
  match s.dropWhile isSpace with
  | [] => 0
  | c :: t =>
    if c = 0x2d then -(digitsValue (t.takeWhile isDigit) : Int)
    else if c = 0x2b then digitsValue (t.takeWhile isDigit)
    else digitsValue ((c :: t).takeWhile isDigit)

/-! ## C strings -/

theorem cstr_append {s t : Bytes} (h : 0 ∉ s) : cstr (s ++ t) = s ++ cstr t := by
  unfold cstr
  apply List.takeWhile_append_of_pos
  intro c hc
  have hne : c ≠ 0 := fun e => h (e ▸ hc)
  simpa using hne

theorem no_nul_cstr (s : Bytes) : 0 ∉ cstr s := by
  intro h
  have := List.mem_takeWhile_imp h
  simp at this

/-! ## Lines -/

theorem getlines_line {body : Bytes} (h : newline ∉ body) (rest : Bytes) :
    getlines (body ++ newline :: rest) = body :: getlines rest := by
  induction body with
  | nil => simp [getlines]
  | cons c body ih =>
    rw [List.mem_cons, not_or] at h
    rw [List.cons_append, getlines, ih h.2, if_neg fun hc => h.1 hc.symm]

/-! ## Decimal text -/

theorem digit_toNat {d : Nat} (h : d < 10) : (digit d).toNat = 48 + d := by
  unfold digit
  rw [UInt8.toNat_ofNat']
  omega

theorem isDigit_digit : ∀ d < 10, isDigit (digit d) = true := by decide

theorem isSpace_digit : ∀ d < 10, isSpace (digit d) = false := by decide

theorem digit_not_sign : ∀ d < 10, digit d ≠ 0x2d ∧ digit d ≠ 0x2b := by decide

theorem toString_digits (fd : Fd) : ∀ c ∈ Fd.toString fd, ∃ d < 10, c = digit d := by
  intro c hc
  unfold Fd.toString at hc
  split at hc
  · exact ⟨0, by omega, List.mem_singleton.mp hc⟩
  · obtain ⟨d, hd, rfl⟩ := List.mem_map.mp hc
    exact ⟨d, Nat.digits_lt_base (by omega) (List.mem_reverse.mp hd), rfl⟩

theorem toString_ne_nil (fd : Fd) : Fd.toString fd ≠ [] := by
  unfold Fd.toString
  split
  · simp
  · next h => simp [Nat.digits_ne_nil_iff_ne_zero.mpr h]

/-- Reading digits most significant first undoes `Nat.digits`, least significant first. -/
theorem digitsValue_reverse (ds : List Nat) (h : ∀ d ∈ ds, d < 10) :
    digitsValue (ds.reverse.map digit) = Nat.ofDigits 10 ds := by
  induction ds with
  | nil => rfl
  | cons d ds ih =>
    have hd := digit_toNat (h d List.mem_cons_self)
    have ih := ih (fun x hx => h x (List.mem_cons_of_mem d hx))
    unfold digitsValue digitsFrom at ih ⊢
    simp only [List.reverse_cons, List.map_append, List.map_cons, List.map_nil,
      List.foldl_append, List.foldl_cons, List.foldl_nil, ih, hd, Nat.ofDigits_cons]
    omega

theorem digitsValue_toString (fd : Fd) : digitsValue (Fd.toString fd) = fd := by
  unfold Fd.toString
  split
  · next h => rw [h]; rfl
  · rw [digitsValue_reverse _ (fun d hd => Nat.digits_lt_base (by omega) hd), Nat.ofDigits_digits]

/-- The text `to_string` writes for a descriptor is read back by `atoi` as that descriptor. -/
theorem atoi_toString (fd : Fd) : atoi (Fd.toString fd) = fd := by
  have hall : (Fd.toString fd).takeWhile isDigit = Fd.toString fd := by
    rw [List.takeWhile_eq_self_iff]
    intro c hc
    obtain ⟨d, hd, rfl⟩ := toString_digits fd c hc
    exact isDigit_digit d hd
  cases hs : Fd.toString fd with
  | nil => exact absurd hs (toString_ne_nil fd)
  | cons c t =>
    obtain ⟨d, hd, rfl⟩ := toString_digits fd c (by rw [hs]; exact List.mem_cons_self)
    have hsp : (digit d :: t).dropWhile isSpace = digit d :: t := by
      simp [isSpace_digit d hd]
    unfold atoi
    rw [hsp]
    simp only [(digit_not_sign d hd).1, (digit_not_sign d hd).2, if_false]
    rw [← hs, hall, digitsValue_toString]

theorem toString_injective : Function.Injective Fd.toString := by
  intro f g h
  have := congrArg atoi h
  rw [atoi_toString, atoi_toString] at this
  exact Int.ofNat_inj.mp this

@[simp] theorem toString_inj {f g : Fd} : Fd.toString f = Fd.toString g ↔ f = g :=
  toString_injective.eq_iff

end VirtualSocket
