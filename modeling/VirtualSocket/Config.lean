import Mathlib.Data.List.TakeWhile
import VirtualSocket.Json.Lexer
import VirtualSocket.Lib.LastWins

/- client.cpp: `loadConfigFile`, and what a config file should mean. The loop cuts a
   line at fixed offsets behind its first colon, two bytes on, which is right for
   `key: value` only. A key that ends its line makes `substr` throw; a value with no
   space before it loses its first byte. The offset of the colon also goes through
   an `int`, so on a line of 4 GiB it may be any smaller number. As later lines win,
   only the last line taken for a key shows, and the file is read right exactly when
   none ends at its key and both last lines are cut right (`loads_iff`). -/
namespace VirtualSocket
open Json

/-- The settings of a client. -/
structure Client where
  proxyHost : Bytes
  proxyPort : Bytes
  deriving DecidableEq

namespace Client

def init : Client := ⟨[], str "6070"⟩

def hash : UInt8 := 0x23

def space : UInt8 := 0x20

/-- The text before the first colon, or the whole line. -/
def head (line : Bytes) : Bytes := line.takeWhile (· != colon)

/-- `line.find(":")`; `npos` is the greatest `size_t`. -/
def find (line : Bytes) : Nat := if colon ∈ line then (head line).length else 2 ^ 64 - 1

/-- A `size_t` converted to `int` keeps its low 32 bits. -/
def toInt (n : Nat) : Int := if n % 2 ^ 32 < 2 ^ 31 then n % 2 ^ 32 else (n : Int) % 2 ^ 32 - 2 ^ 32

/-- `substr(pos, n)`, or `substr(pos)`. -/
def substr (s : Bytes) (pos : Nat) (n : Option Nat) : Except Exn Bytes :=
  if pos ≤ s.length then
    match n with
    | some n => pure ((s.drop pos).take n)
    | none => pure (s.drop pos)
  else throw .outOfRange

/-- The body of the loop. -/
def readLine (c : Client) (line : Bytes) : Except Exn Client := do
  let first ← substr line 0 (some 1)
  let splitIdx := toInt (find line)
  if first = [hash] ∨ splitIdx < 0 then pure c
  else
    let field ← substr line 0 (some splitIdx.toNat)
    if field = str "ProxyHost" then
      let value ← substr line (splitIdx + 2).toNat none
      pure { c with proxyHost := value }
    else if field = str "ProxyPort" then
      let value ← substr line (splitIdx + 2).toNat none
      pure { c with proxyPort := value }
    else pure c

/-- `none` is a file that could not be opened. -/
def loadConfigFile (c : Client) (config : Option Bytes) : Except Exn (Client × Int) := do
  match config with
  | none => pure (c, -1)
  | some content =>
    let c ← (getlines content).foldlM readLine c
    if c.proxyHost = [] then pure (c, -1) else pure (c, 0)

/-! ## What a file means -/

/-- The text without the space it starts with, if it does. -/
def stripped (value : Bytes) : Bytes := if value.head? = some space then value.tail else value

/-- The key and the value of a line that has both. -/
def meaning (line : Bytes) : Option (Bytes × Bytes) :=
  if line.head? = some hash then none
  else
    match line.dropWhile (· != colon) with
    | [] => none
    | _ :: value => some (head line, stripped value)

/-- A line sets what its key names. -/
def applyLine (c : Client) (line : Bytes) : Client :=
  match meaning line with
  | none => c
  | some (key, value) =>
    if key = str "ProxyHost" then { c with proxyHost := value }
    else if key = str "ProxyPort" then { c with proxyPort := value }
    else c

/-- The reference meaning of a file. -/
def reference (content : Bytes) : Client := (getlines content).foldl applyLine init

/-- The file is read as it is meant, and the result says whether there is a host. -/
def Loads (content : Bytes) : Prop :=
  loadConfigFile init (some content) =
    .ok (reference content, if (reference content).proxyHost ≠ [] then 0 else -1)

/-! ## The two settings -/

inductive Setting where
  | host
  | port
  deriving DecidableEq

def Setting.key : Setting → Bytes
  | .host => str "ProxyHost"
  | .port => str "ProxyPort"

def get (k : Setting) (c : Client) : Bytes :=
  match k with
  | .host => c.proxyHost
  | .port => c.proxyPort

def set (c : Client) (k : Setting) (value : Bytes) : Client :=
  match k with
  | .host => { c with proxyHost := value }
  | .port => { c with proxyPort := value }

theorem set_get (c : Client) (k k' : Setting) (value : Bytes) :
    (c.set k value).get k' = if k' = k then value else c.get k' := by
  cases k <;> cases k' <;> rfl

theorem eq_of_get {c c' : Client} (h : ∀ k, c.get k = c'.get k) : c = c' := by
  obtain ⟨host, port⟩ := c
  obtain ⟨host', port'⟩ := c'
  have hh : host = host' := h .host
  have hp : port = port' := h .port
  rw [hh, hp]

/-! ## Lines with a colon -/

theorem head_append {line : Bytes} (h : colon ∈ line) : ∃ rest, line = head line ++ colon :: rest ∧
    line.dropWhile (· != colon) = colon :: rest := by
  have hsplit : head line ++ line.dropWhile (· != colon) = line := List.takeWhile_append_dropWhile
  cases hd : line.dropWhile (· != colon) with
  | nil =>
    rw [List.dropWhile_eq_nil_iff] at hd
    have := hd colon h
    simp at this
  | cons c rest =>
    have hc : c = colon := by
      have := List.head?_dropWhile_not (· != colon) line
      rw [hd] at this
      simpa using this
    subst hc
    rw [hd] at hsplit
    exact ⟨rest, hsplit.symm, rfl⟩

theorem key_no_colon (k : Setting) : ∀ c ∈ k.key, (c != colon) = true := by
  have hmem : colon ∉ k.key := by cases k <;> decide
  intro c hc
  rw [bne_iff_ne]
  exact fun heq => hmem (heq ▸ hc)

theorem key_length (k : Setting) : k.key.length = 9 := by cases k <;> rfl

theorem key_inj {k k' : Setting} (h : k.key = k'.key) : k = k' := by
  cases k <;> cases k' <;> first | rfl | exact absurd h (by decide)

/-- A line that starts like this is that key's. -/
theorem head_key (k : Setting) (rest : Bytes) : head (k.key ++ colon :: rest) = k.key := by
  unfold head
  rw [List.takeWhile_append_of_pos (key_no_colon k), List.takeWhile_cons_of_neg (by simp), List.append_nil]

/-! ## Which lines are taken -/

/-- The loop takes the line for the setting: its first colon is at offset 9, as an `int`,
and the key stands before that offset. -/
def Takes (k : Setting) (line : Bytes) : Prop :=
  colon ∈ line ∧ (head line).length % 2 ^ 32 = 9 ∧ line.take 9 = k.key

/-- The line is the setting's: its first colon ends the key. -/
def Names (k : Setting) (line : Bytes) : Prop := ∃ value, line = k.key ++ colon :: value

theorem Names.takes {k : Setting} {line : Bytes} (h : Names k line) : Takes k line := by
  obtain ⟨value, rfl⟩ := h
  refine ⟨by simp, ?_, ?_⟩
  · rw [head_key, key_length]
    rfl
  · rw [List.take_append_of_le_length (by rw [key_length]), List.take_of_length_le (by rw [key_length])]

/-- What is taken and is not the setting's has its colon 4 GiB further on. -/
theorem Takes.length {k : Setting} {line : Bytes} (h : Takes k line) (hn : ¬ Names k line) :
    2 ^ 32 ≤ (head line).length := by
  obtain ⟨hc, hmod, htake⟩ := h
  by_contra hlt
  have hlen : (head line).length = 9 := by omega
  obtain ⟨rest, hline, -⟩ := head_append hc
  apply hn
  refine ⟨rest, ?_⟩
  have hhead : head line = k.key := by
    rw [← htake]
    conv_rhs => rw [hline]
    rw [List.take_append_of_le_length (by omega), List.take_of_length_le (by omega)]
  rw [← hhead]
  exact hline

/-! ## The loop's body -/

theorem substr_start (s : Bytes) (n : Nat) : substr s 0 (some n) = .ok (s.take n) := by
  simp [substr, pure, Except.pure]

theorem substr_rest (s : Bytes) (pos : Nat) :
    substr s pos none = if pos ≤ s.length then .ok (s.drop pos) else .error .outOfRange := by
  simp [substr, pure, Except.pure, throw, throwThe, MonadExceptOf.throw]

/-- An `int` that is 9 came from an offset that is 9 up to multiples of 4 GiB. -/
theorem toInt_eq_nine {n : Nat} : toInt n = 9 ↔ n % 2 ^ 32 = 9 := by
  unfold toInt
  split <;> omega

theorem toInt_le (n : Nat) : (toInt n).toNat ≤ n := by
  unfold toInt
  split <;> omega

theorem Takes.not_comment {k : Setting} {line : Bytes} (h : Takes k line) : line.take 1 ≠ [hash] := by
  intro hone
  have hkey : k.key.take 1 = [hash] := by
    rw [← h.2.2, List.take_take]
    exact hone
  revert hkey
  cases k <;> decide

/-- A line that is taken is cut behind the byte that follows offset 9. -/
theorem readLine_takes (c : Client) {k : Setting} {line : Bytes} (h : Takes k line) : readLine c line =
    if 11 ≤ line.length then .ok (c.set k (line.drop 11)) else .error .outOfRange := by
  have hidx : toInt (find line) = 9 := by
    rw [find, if_pos h.1, toInt_eq_nine]
    exact h.2.1
  have hnot : ¬ (line.take 1 = [hash] ∨ (9 : Int) < 0) := by
    rw [not_or]
    exact ⟨h.not_comment, by omega⟩
  have hfield : line.take (9 : Int).toNat = k.key := h.2.2
  have hrest : substr line (9 + 2 : Int).toNat none =
      if 11 ≤ line.length then .ok (line.drop 11) else .error .outOfRange :=
    substr_rest line 11
  simp only [readLine, substr_start, hidx, bind, Except.bind]
  rw [if_neg hnot, hfield, hrest]
  by_cases hlen : 11 ≤ line.length
  · simp only [if_pos hlen]
    cases k <;> rfl
  · simp only [if_neg hlen]
    cases k <;> rfl

theorem toInt_npos : toInt (2 ^ 64 - 1) = -1 := by decide

theorem head_length_le (line : Bytes) : (head line).length ≤ line.length := (List.takeWhile_sublist _).length_le

/-- A key cut off at the offset is nine bytes long, so the offset is 9. -/
theorem takes_of_field {k : Setting} {line : Bytes} (hidx : ¬ toInt (find line) < 0)
    (hfield : line.take (toInt (find line)).toNat = k.key) : Takes k line := by
  have hc : colon ∈ line := by
    by_contra hc
    rw [find, if_neg hc, toInt_npos] at hidx
    exact hidx (by decide)
  have hlen := congrArg List.length hfield
  have hle := toInt_le (find line)
  rw [find, if_pos hc] at hidx hfield hlen hle
  rw [List.length_take, key_length, Nat.min_eq_left (hle.trans (head_length_le line))] at hlen
  rw [hlen] at hfield
  refine ⟨hc, toInt_eq_nine.mp ?_, hfield⟩
  omega

/-- No other line changes anything. -/
theorem readLine_other (c : Client) {line : Bytes} (h : ∀ k, ¬ Takes k line) : readLine c line = .ok c := by
  simp only [readLine, substr_start, bind, Except.bind]
  by_cases hskip : line.take 1 = [hash] ∨ toInt (find line) < 0
  · rw [if_pos hskip]
    rfl
  · have hfield : ∀ k : Setting, line.take (toInt (find line)).toNat ≠ k.key := by
      intro k hk
      exact h k (takes_of_field (fun hneg => hskip (Or.inr hneg)) hk)
    have hhost : line.take (toInt (find line)).toNat ≠ str "ProxyHost" := hfield .host
    have hport : line.take (toInt (find line)).toNat ≠ str "ProxyPort" := hfield .port
    rw [if_neg hskip, if_neg hhost, if_neg hport]
    rfl

/-! ## The meaning of a line -/

theorem applyLine_names (c : Client) (k : Setting) (value : Bytes) :
    applyLine c (k.key ++ colon :: value) = c.set k (stripped value) := by
  have hhash : (k.key ++ colon :: value).head? ≠ some hash := by
    cases k <;> exact fun h => absurd (Option.some.inj h) (by decide)
  have hdrop : (k.key ++ colon :: value).dropWhile (· != colon) = colon :: value := by
    rw [List.dropWhile_append_of_pos (key_no_colon k), List.dropWhile_cons_of_neg (by simp)]
  have hmeaning : meaning (k.key ++ colon :: value) = some (k.key, stripped value) := by
    rw [meaning, if_neg hhash, hdrop, head_key]
  rw [applyLine, hmeaning]
  cases k <;> rfl

theorem applyLine_other (c : Client) {line : Bytes} (h : ∀ k, ¬ Names k line) : applyLine c line = c := by
  unfold applyLine meaning
  by_cases hhash : line.head? = some hash
  · rw [if_pos hhash]
  rw [if_neg hhash]
  by_cases hc : colon ∈ line
  · obtain ⟨value, hline, hdrop⟩ := head_append hc
    have hkey : ∀ k : Setting, head line ≠ k.key := by
      intro k hk
      rw [hk] at hline
      exact h k ⟨value, hline⟩
    have hhost : head line ≠ str "ProxyHost" := hkey .host
    have hport : head line ≠ str "ProxyPort" := hkey .port
    rw [hdrop]
    simp only [if_neg hhost, if_neg hport]
  · have hdrop : line.dropWhile (· != colon) = [] := by
      rw [List.dropWhile_eq_nil_iff]
      intro c hin
      simp only [bne_iff_ne]
      exact fun heq => hc (heq ▸ hin)
    rw [hdrop]

/-! ## A whole file -/

open LastWins

instance (k : Setting) (line : Bytes) : Decidable (Takes k line) := inferInstanceAs (Decidable (_ ∧ _ ∧ _))

/-- What the loop makes of a line when nothing is thrown. -/
def cutLine (c : Client) (line : Bytes) : Client :=
  if Takes .host line then c.set .host (line.drop 11)
  else if Takes .port line then c.set .port (line.drop 11)
  else c

theorem Takes.unique {k k' : Setting} {line : Bytes} (h : Takes k line) (h' : Takes k' line) : k = k' :=
  key_inj (h.2.2.symm.trans h'.2.2)

theorem cutLine_takes (c : Client) {k : Setting} {line : Bytes} (h : Takes k line) :
    cutLine c line = c.set k (line.drop 11) := by
  unfold cutLine
  cases k with
  | host => rw [if_pos h]
  | port =>
    have hnot : ¬ Takes .host line := fun hhost => by cases hhost.unique h
    rw [if_neg hnot, if_pos h]

theorem cutLine_other (c : Client) {line : Bytes} (h : ∀ k, ¬ Takes k line) : cutLine c line = c := by
  rw [cutLine, if_neg (h .host), if_neg (h .port)]

/-- A line that is taken and too short to cut is a key with its colon. -/
theorem Takes.of_short {k : Setting} {line : Bytes} (h : Takes k line) (hlen : line.length < 11) :
    line = k.key ++ [colon] := by
  have hn : Names k line := by
    by_contra hn
    have := h.length hn
    have := head_length_le line
    omega
  obtain ⟨value, rfl⟩ := hn
  rw [List.length_append, key_length, List.length_cons] at hlen
  rw [List.eq_nil_of_length_eq_zero (l := value) (by omega)]

theorem readLine_cut (c : Client) {line : Bytes} (h : ∀ k : Setting, line ≠ k.key ++ [colon]) :
    readLine c line = .ok (cutLine c line) := by
  by_cases ht : ∃ k, Takes k line
  · obtain ⟨k, hk⟩ := ht
    have hlen : 11 ≤ line.length := Nat.le_of_not_lt fun hlt => h k (hk.of_short hlt)
    rw [readLine_takes c hk, if_pos hlen, cutLine_takes c hk]
  · have hno : ∀ k, ¬ Takes k line := fun k hk => ht ⟨k, hk⟩
    rw [readLine_other c hno, cutLine_other c hno]

theorem readLine_throws (c : Client) (k : Setting) : readLine c (k.key ++ [colon]) = .error .outOfRange := by
  have hlen : ¬ 11 ≤ (k.key ++ [colon]).length := by
    rw [List.length_append, key_length]
    decide
  rw [readLine_takes c (k := k) (Names.takes ⟨[], rfl⟩), if_neg hlen]

/-- The loop gets through a file in which no line ends at its key. -/
theorem foldlM_readLine {lines : List Bytes} (h : ∀ k : Setting, k.key ++ [colon] ∉ lines) (c : Client) :
    lines.foldlM readLine c = .ok (lines.foldl cutLine c) := by
  induction lines generalizing c with
  | nil => rfl
  | cons line lines ih =>
    have hline : ∀ k : Setting, line ≠ k.key ++ [colon] := fun k heq => h k (heq ▸ List.mem_cons_self)
    rw [List.foldlM_cons, readLine_cut c hline, List.foldl_cons]
    exact ih (fun k hk => h k (List.mem_cons_of_mem _ hk)) _

theorem foldlM_throws {lines : List Bytes} {k : Setting} (h : k.key ++ [colon] ∈ lines) (c : Client) :
    lines.foldlM readLine c = .error .outOfRange := by
  induction lines generalizing c with
  | nil => cases h
  | cons line lines ih =>
    rw [List.foldlM_cons]
    by_cases hline : ∃ k' : Setting, line = k'.key ++ [colon]
    · obtain ⟨k', rfl⟩ := hline
      rw [readLine_throws]
      rfl
    · have hcut : ∀ k' : Setting, line ≠ k'.key ++ [colon] := fun k' heq => hline ⟨k', heq⟩
      rw [readLine_cut c hcut]
      exact ih ((List.mem_cons.mp h).resolve_left fun heq => hcut k heq.symm) _

/-! ## The last lines -/

theorem cutLine_get_takes (k : Setting) (c : Client) (line : Bytes) (h : Takes k line) :
    (cutLine c line).get k = line.drop 11 := by
  rw [cutLine_takes c h, set_get, if_pos rfl]

theorem cutLine_get_other (k : Setting) (c : Client) (line : Bytes) (h : ¬ Takes k line) :
    (cutLine c line).get k = c.get k := by
  by_cases ht : ∃ k', Takes k' line
  · obtain ⟨k', hk'⟩ := ht
    have hne : k ≠ k' := fun heq => h (heq ▸ hk')
    rw [cutLine_takes c hk', set_get, if_neg hne]
  · rw [cutLine_other c fun k' hk' => ht ⟨k', hk'⟩]

theorem applyLine_get_other (k : Setting) (c : Client) (line : Bytes) (h : ¬ Names k line) :
    (applyLine c line).get k = c.get k := by
  by_cases hn : ∃ k', Names k' line
  · obtain ⟨k', value, rfl⟩ := hn
    have hne : k ≠ k' := fun heq => h (heq ▸ ⟨value, rfl⟩)
    rw [applyLine_names, set_get, if_neg hne]
  · rw [applyLine_other c fun k' hk' => hn ⟨k', hk'⟩]

/-- The last line taken for the setting is cut right: it is the setting's and a space follows
the colon, or else what is cut from it is what the lines before it have set. -/
def CutRight (k : Setting) (lines : List Bytes) : Prop :=
  ∀ before line, LastWhere (Takes k) lines before line →
    (∃ value, line = k.key ++ colon :: space :: value) ∨
      ¬ Names k line ∧ line.drop 11 = (before.foldl applyLine init).get k

/-- What the reference makes of the lines up to the last one taken. -/
theorem reference_last {k : Setting} {lines before : List Bytes} {line : Bytes}
    (h : LastWhere (Takes k) lines before line) :
    (lines.foldl applyLine init).get k = (applyLine (before.foldl applyLine init) line).get k := by
  obtain ⟨after, rfl, -, hafter⟩ := h
  have hkept : ∀ x ∈ after, ¬ Names k x := fun x hx hn => hafter x hx hn.takes
  rw [List.foldl_append, List.foldl_cons]
  exact foldl_kept (get k) (applyLine_get_other k) hkept _

/-- The text behind the colon is cut right when it starts with the space that is skipped. -/
theorem stripped_eq_tail {value : Bytes} (h : value ≠ []) :
    stripped value = value.tail ↔ ∃ rest, value = space :: rest := by
  cases value with
  | nil => exact absurd rfl h
  | cons x rest =>
    unfold stripped
    constructor
    · intro heq
      split at heq
      · next hx => exact ⟨rest, by rw [Option.some.inj hx]⟩
      · have := congrArg List.length heq
        simp at this
    · intro ⟨rest', heq⟩
      rw [heq]
      rfl

theorem drop_key (k : Setting) (value : Bytes) : (k.key ++ colon :: value).drop 11 = value.tail := by
  have hlen : 11 = k.key.length + 2 := by rw [key_length]
  rw [hlen, ← List.drop_drop, List.drop_left]
  cases value <;> rfl

/-- One line is cut as it is meant. -/
theorem cut_eq_iff {k : Setting} {line : Bytes} (h : line ≠ k.key ++ [colon]) (c : Client) :
    line.drop 11 = (applyLine c line).get k ↔
      (∃ value, line = k.key ++ colon :: space :: value) ∨ ¬ Names k line ∧ line.drop 11 = c.get k := by
  by_cases hn : Names k line
  · obtain ⟨value, rfl⟩ := hn
    have hvalue : value ≠ [] := fun hnil => h (by rw [hnil])
    rw [applyLine_names, set_get, if_pos rfl, drop_key, eq_comm, stripped_eq_tail hvalue]
    constructor
    · intro ⟨rest, hrest⟩
      exact Or.inl ⟨rest, by rw [hrest]⟩
    · intro hor
      cases hor with
      | inl hspace =>
        obtain ⟨rest, hrest⟩ := hspace
        exact ⟨rest, (List.cons.inj (List.append_cancel_left hrest)).2⟩
      | inr hother => exact absurd ⟨value, rfl⟩ hother.1
  · rw [applyLine_get_other k c line hn]
    constructor
    · exact fun heq => Or.inr ⟨hn, heq⟩
    · intro hor
      cases hor with
      | inl hspace =>
        obtain ⟨value, hline⟩ := hspace
        exact absurd ⟨_, hline⟩ hn
      | inr hother => exact hother.2

/-- The setting comes out as meant when its last line is cut right. -/
theorem get_eq_iff {k : Setting} {lines : List Bytes} (h : k.key ++ [colon] ∉ lines) :
    (lines.foldl cutLine init).get k = (lines.foldl applyLine init).get k ↔ CutRight k lines := by
  have hlast : ∀ {before line}, LastWhere (Takes k) lines before line →
      (lines.foldl cutLine init).get k = line.drop 11 :=
    fun hl => foldl_last (get k) (cutLine_get_other k) (cutLine_get_takes k) hl init
  have hne : ∀ {before line}, LastWhere (Takes k) lines before line → line ≠ k.key ++ [colon] :=
    fun hl heq => h (heq ▸ hl.mem)
  constructor
  · intro heq before line hl
    rw [hlast hl, reference_last hl] at heq
    exact (cut_eq_iff (hne hl) _).mp heq
  · intro hcut
    by_cases ht : ∃ line ∈ lines, Takes k line
    · obtain ⟨before, line, hl⟩ := exists_lastWhere ht
      rw [hlast hl, reference_last hl]
      exact (cut_eq_iff (hne hl) _).mpr (hcut before line hl)
    · have hno : ∀ line ∈ lines, ¬ Takes k line := fun line hin hk => ht ⟨line, hin, hk⟩
      have hno' : ∀ line ∈ lines, ¬ Names k line := fun line hin hn => hno line hin hn.takes
      calc (lines.foldl cutLine init).get k = init.get k := foldl_kept (get k) (cutLine_get_other k) hno init
        _ = (lines.foldl applyLine init).get k := (foldl_kept (get k) (applyLine_get_other k) hno' init).symm

/-- What the loop leaves decides, since the result is told from the host. -/
theorem loads_of_returns {content : Bytes} {c : Client} (h : (getlines content).foldlM readLine init = .ok c) :
    Loads content ↔ c = reference content := by
  rw [Loads, loadConfigFile, h]
  constructor
  · intro hloads
    by_cases hhost : c.proxyHost = []
    · simp only [bind, Except.bind, if_pos hhost] at hloads
      exact (Prod.mk.inj (Except.ok.inj hloads)).1
    · simp only [bind, Except.bind, if_neg hhost] at hloads
      exact (Prod.mk.inj (Except.ok.inj hloads)).1
  · intro hc
    subst hc
    by_cases hhost : (reference content).proxyHost = []
    · simp [hhost, bind, Except.bind, pure, Except.pure]
    · simp [hhost, bind, Except.bind, pure, Except.pure]

/-- A line that ends at its key is not got through. -/
theorem not_loads {content : Bytes} {k : Setting} (hk : k.key ++ [colon] ∈ getlines content) : ¬ Loads content := by
  intro hloads
  rw [Loads, loadConfigFile, foldlM_throws hk] at hloads
  cases hloads

/-- Of every file. -/
theorem loads_iff (content : Bytes) : Loads content ↔
    (∀ k : Setting, k.key ++ [colon] ∉ getlines content) ∧ ∀ k, CutRight k (getlines content) := by
  by_cases hthrow : ∃ k : Setting, k.key ++ [colon] ∈ getlines content
  · obtain ⟨k, hk⟩ := hthrow
    constructor
    · intro hloads
      exact absurd hloads (not_loads hk)
    · intro ⟨hno, _⟩
      exact absurd hk (hno k)
  · have hno : ∀ k : Setting, k.key ++ [colon] ∉ getlines content := fun k hk => hthrow ⟨k, hk⟩
    rw [loads_of_returns (foldlM_readLine hno init), and_iff_right hno]
    constructor
    · intro heq k
      rw [← get_eq_iff (hno k), heq]
      rfl
    · intro hcut
      exact eq_of_get fun k => (get_eq_iff (hno k)).mpr (hcut k)

/-- The file that comes with the program. -/
example : Loads (str "ProxyHost: localhost\nProxyPort: 6070\n") := rfl

/-- An empty value for the port. -/
theorem loads_fails_on_emptyPort : ¬ Loads (str "ProxyHost: localhost\nProxyPort:\n") :=
  not_loads (k := .port) (by decide +kernel)

end Client
end VirtualSocket
