import VirtualSocket.Json.Lexer

/- The parser of the vendored json.hpp (class `parser`, without a callback) and
   the two accessors the protocol uses on its result, `operator[]` on a key and
   the conversion to a string. The C++ recursion is bounded here by fuel; the
   bound `parse` starts with always suffices (`parse_ne_fuel`), so a parse ends
   with a value or with one of the library's exceptions. -/
namespace VirtualSocket

/-- `basic_json`. A number keeps its text; an object lists its members in byte
    order of their keys, as the `std::map` behind it does. -/
inductive Json where
  | null
  | boolean (b : Bool)
  | number (raw : Bytes)
  | string (s : Bytes)
  | array (xs : List Json)
  | object (members : List (Bytes × Json))

namespace Json

/-- `map[key] = value`, in byte order of the keys. -/
def assign {β : Type} (key : Bytes) (value : β) : List (Bytes × β) → List (Bytes × β)
  | [] => [(key, value)]
  | (k, v) :: rest =>
    if key = k then (key, value) :: rest
    else if key < k then (key, value) :: (k, v) :: rest
    else (k, v) :: assign key value rest

mutual
/-- `parser::parse_internal`: the value that starts at the last token read, and
    the token after it. -/
def parseInternal : Nat → Token → Bytes → Except Exn (Json × Token × Bytes)
  | 0, _, _ => throw .fuel
  | fuel + 1, token, rest =>
    match token with
    | .beginObject =>
      let (t, r) := scan rest
      if t = .endObject then pure (.object [], scan r)
      else if t = .valueSeparator then throw .invalidArgument
      else parseMembers fuel [] t r
    | .beginArray =>
      let (t, r) := scan rest
      if t = .endArray then pure (.array [], scan r)
      else if t = .valueSeparator then throw .invalidArgument
      else parseElements fuel [] t r
    | .literalNull => pure (.null, scan rest)
    | .valueString raw => do
      let s ← getString raw
      pure (.string s, scan rest)
    | .literalTrue => pure (.boolean true, scan rest)
    | .literalFalse => pure (.boolean false, scan rest)
    | .valueNumber raw => pure (.number raw, scan rest)
    | _ => throw .invalidArgument

/-- The loop over `key : value` pairs; a comma must be followed by another pair. -/
def parseMembers : Nat → List (Bytes × Json) → Token → Bytes → Except Exn (Json × Token × Bytes)
  | 0, _, _, _ => throw .fuel
  | fuel + 1, members, token, rest =>
    match token with
    | .valueString raw => do
      let key ← getString raw
      let (t, r) := scan rest
      if t = .nameSeparator then
        let (value, t, r) ← parseInternal fuel (scan r).1 (scan r).2
        let members := assign key value members
        match t with
        -- no closing brace is looked for behind a comma
        | .valueSeparator => parseMembers fuel members (scan r).1 (scan r).2
        | .endObject => pure (.object members, scan r)
        | _ => throw .invalidArgument
      else throw .invalidArgument
    | _ => throw .invalidArgument

/-- The loop over the elements of an array. -/
def parseElements : Nat → List Json → Token → Bytes → Except Exn (Json × Token × Bytes)
  | 0, _, _, _ => throw .fuel
  | fuel + 1, elements, token, rest => do
    let (value, t, r) ← parseInternal fuel token rest
    let elements := elements ++ [value]
    match t with
    | .valueSeparator => parseElements fuel elements (scan r).1 (scan r).2
    | .endArray => pure (.array elements, scan r)
    | _ => throw .invalidArgument
end

/-- `json::parse`: one value and then the end of the input. -/
def parse (s : Bytes) : Except Exn Json := do
  let (j, t, _) ← parseInternal (2 * s.length + 3) (scan s).1 (scan s).2
  if t = .endOfInput then pure j else throw .invalidArgument

/-- `operator[](key)` on a non-const value: the member, and the value afterwards.
    A missing member is added as null, and null becomes an object. -/
def subscript (j : Json) (key : Bytes) : Except Exn (Json × Json) :=
  match j with
  | .null => pure (.null, .object [(key, .null)])
  | .object members =>
    match members.lookup key with
    | some v => pure (v, .object members)
    | none => pure (.null, .object (assign key .null members))
  | _ => throw .domainError

/-- `operator==` against a string. -/
def eqString (j : Json) (s : Bytes) : Bool :=
  match j with
  | .string t => t == s
  | _ => false

/-- The conversion to `std::string`. -/
def toBytes (j : Json) : Except Exn Bytes :=
  match j with
  | .string s => pure s
  | _ => throw .domainError

/-! ## The fuel suffices -/

theorem bind_ne_fuel {α β : Type} {x : Except Exn α} {f : α → Except Exn β}
    (hx : x ≠ .error .fuel) (hf : ∀ a, f a ≠ .error .fuel) : (x >>= f) ≠ .error .fuel := by
  cases x with
  | error e => intro h; cases h; exact hx rfl
  | ok a => exact hf a

theorem pure_ne_fuel {α : Type} (a : α) : (pure a : Except Exn α) ≠ .error .fuel := by
  intro h; cases h

theorem joinSurrogates_ne_fuel (c1 c2 : Nat) : joinSurrogates c1 c2 ≠ .error .fuel := by
  unfold joinSurrogates
  split <;> [split; skip] <;> (intro h; cases h)

theorem toUnicode_ne_fuel (c1 c2 : Nat) : toUnicode c1 c2 ≠ .error .fuel := by
  unfold toUnicode
  apply bind_ne_fuel (joinSurrogates_ne_fuel c1 c2)
  intro cp
  split_ifs <;> (intro h; cases h)

theorem getString_ne_fuel (s : Bytes) : getString s ≠ .error .fuel := by
  fun_induction getString s with
  | case3 =>
    next ih =>
    exact bind_ne_fuel (toUnicode_ne_fuel _ _) fun _ => bind_ne_fuel ih fun _ => pure_ne_fuel _
  | case6 =>
    next ih =>
    exact bind_ne_fuel (toUnicode_ne_fuel _ _) fun _ => bind_ne_fuel ih fun _ => pure_ne_fuel _
  | case8 | case9 =>
    next ih => exact bind_ne_fuel ih fun _ => pure_ne_fuel _
  | _ => intro h; cases h

/-- A parse result that did not run out of fuel and left at most `n` bytes. -/
def Within (n : Nat) : Except Exn (Json × Token × Bytes) → Prop
  | .ok p => p.2.2.length ≤ n
  | .error e => e ≠ .fuel

theorem Within.ne_fuel {n : Nat} {x : Except Exn (Json × Token × Bytes)} (h : Within n x) :
    x ≠ .error .fuel := by
  intro e; rw [e] at h; exact h rfl

theorem Within.mono {m n : Nat} {x : Except Exn (Json × Token × Bytes)} (h : Within m x)
    (hmn : m ≤ n) : Within n x := by
  cases x with
  | error e => exact h
  | ok p => exact Nat.le_trans h hmn

theorem Within.bind_ok {α : Type} {n : Nat} {x : Except Exn α}
    {f : α → Except Exn (Json × Token × Bytes)} (hx : x ≠ .error .fuel)
    (hf : ∀ a, Within n (f a)) : Within n (x >>= f) := by
  cases x with
  | error e => exact fun h => hx (by rw [h])
  | ok a => exact hf a

theorem Within.bind {m n : Nat} {x : Except Exn (Json × Token × Bytes)}
    {f : Json × Token × Bytes → Except Exn (Json × Token × Bytes)} (hx : Within m x)
    (hf : ∀ p, p.2.2.length ≤ m → Within n (f p)) : Within n (x >>= f) := by
  cases x with
  | error e => exact hx
  | ok p => exact hf p hx

/-- The two kinds of step a parse takes: a token that is not the end leaves fewer
    bytes, and after the end of the input every production stops at once. -/
theorem scan_step (s : Bytes) : (scan s).2.length < s.length ∨ (scan s).1 = .endOfInput := by
  by_cases h : (scan s).1 = .endOfInput
  · exact Or.inr h
  · exact Or.inl ((scan_length s).2 h)

/-- One fuel unit per nesting level and per member suffices, two per byte left. -/
theorem parse_within (fuel : Nat) :
    (∀ t r, 2 * r.length + 3 ≤ fuel → Within r.length (parseInternal fuel t r)) ∧
    (∀ ms t r, 2 * r.length + 3 ≤ fuel ∨ t = .endOfInput ∧ 1 ≤ fuel →
      Within r.length (parseMembers fuel ms t r)) ∧
    (∀ es t r, 2 * r.length + 4 ≤ fuel ∨ t = .endOfInput ∧ 2 ≤ fuel →
      Within r.length (parseElements fuel es t r)) := by
  -- the three productions call each other, each time with less fuel
  induction fuel with
  | zero =>
    refine ⟨fun _ _ h => absurd h (by omega), fun _ _ _ h => absurd h (by omega),
      fun _ _ _ h => absurd h (by omega)⟩
  | succ fuel ih =>
    obtain ⟨ihI, ihM, ihE⟩ := ih
    refine ⟨?_, ?_, ?_⟩
    · intro t r hf
      have hs := (scan_length r).1
      have hss := (scan_length (scan r).2).1
      unfold parseInternal
      split
      · simp only
        split
        · exact Nat.le_trans hss hs
        · split
          · intro h; cases h
          · refine (ihM _ _ _ ?_).mono hs
            rcases scan_step r with h | h
            · exact Or.inl (by omega)
            · exact Or.inr ⟨h, by omega⟩
      · simp only
        split
        · exact Nat.le_trans hss hs
        · split
          · intro h; cases h
          · refine (ihE _ _ _ ?_).mono hs
            rcases scan_step r with h | h
            · exact Or.inl (by omega)
            · exact Or.inr ⟨h, by omega⟩
      · exact hs
      · exact Within.bind_ok (getString_ne_fuel _) fun _ => hs
      · exact hs
      · exact hs
      · exact hs
      · intro h; cases h
    · intro ms t r hf
      have hs := (scan_length r).1
      have hss := (scan_length (scan r).2).1
      unfold parseMembers
      split
      · next raw =>
        have hf : 2 * r.length + 3 ≤ fuel + 1 := by simpa using hf
        apply Within.bind_ok (getString_ne_fuel _)
        intro key
        simp only
        split
        · next hcolon =>
          -- the colon itself was a token, so the value starts with fewer bytes
          have hlt : (scan r).2.length < r.length := (scan_length r).2 (by simp [hcolon])
          apply (ihI _ _ (by omega)).bind
          intro p hp
          obtain ⟨v, t, r'⟩ := p
          have hs' := (scan_length r').1
          simp only at hp ⊢
          split
          · refine (ihM _ _ _ (Or.inl (by omega))).mono (by omega)
          · exact Nat.le_trans hs' (by omega)
          · intro h; cases h
        · intro h; cases h
      · intro h; cases h
    · intro es t r hf
      unfold parseElements
      rcases hf with hf | ⟨rfl, hf⟩
      · apply (ihI _ _ (by omega)).bind
        intro p hp
        obtain ⟨v, t, r'⟩ := p
        have hs' := (scan_length r').1
        simp only at hp ⊢
        split
        · refine (ihE _ _ _ ?_).mono (by omega)
          rcases scan_step r' with h | h
          · exact Or.inl (by omega)
          · exact Or.inr ⟨h, by omega⟩
        · exact Nat.le_trans hs' hp
        · intro h; cases h
      · obtain ⟨fuel, rfl⟩ : ∃ n, fuel = n + 1 := ⟨fuel - 1, by omega⟩
        unfold parseInternal
        intro h; cases h

/-- Parsing always ends with a value or with an exception of the library. -/
theorem parse_ne_fuel (s : Bytes) : parse s ≠ .error .fuel := by
  unfold parse
  have hs := (scan_length s).1
  apply bind_ne_fuel ((parse_within _).1 _ _ (by omega)).ne_fuel
  intro p
  obtain ⟨j, t, r⟩ := p
  simp only
  split <;> (intro h; cases h)

end Json
end VirtualSocket
