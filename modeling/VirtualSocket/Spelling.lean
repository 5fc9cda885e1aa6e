import VirtualSocket.Json.Grammar
import VirtualSocket.Json.Strings
import VirtualSocket.Descriptors

/- One message, many texts. Between its tokens a line may have blanks, and each of its
   strings may be written in plain bytes or with escapes. None of this is seen: two
   texts that differ in nothing else parse to one value (`parse_respelled`), so a run
   of the broker comes to the same whichever of them each peer sends
   (`accept_respelled`). -/
namespace VirtualSocket
namespace Json

/-- Two tokens for one thing: the same token, or two literals for the same bytes. -/
inductive Token.Respells : Token → Token → Prop
  | same (t : Token) : Respells t t
  | string {raw raw' s : Bytes} (h : Literal raw s) (h' : Literal raw' s) :
      Respells (.valueString raw) (.valueString raw')

/-- Two texts that differ in blanks and in the spelling of their strings. -/
def Respelled (s s' : Bytes) : Prop := List.Forall₂ Token.Respells (tokens s) (tokens s')

/-- The tokens of a text of at most `n`. -/
def readTokens : Nat → Bytes → Option (List Token)
  | 0, _ => none
  | n + 1, s =>
    if (scan s).1 = .endOfInput ∨ (scan s).1 = .parseError then some [(scan s).1]
    else (readTokens n (scan s).2).map ((scan s).1 :: ·)

theorem readTokens_eq {n : Nat} {s : Bytes} {ts : List Token} (h : readTokens n s = some ts) : tokens s = ts := by
  induction n generalizing s ts with
  | zero => cases h
  | succ n ih =>
    unfold readTokens at h
    rw [tokens]
    split at h
    · next hs =>
      rw [dif_pos hs]
      exact Option.some.inj h
    · next hs =>
      obtain ⟨us, hu, rfl⟩ := Option.map_eq_some_iff.mp h
      rw [dif_neg hs, ih hu]

theorem Token.Respells.symm {t t' : Token} (h : Respells t t') : Respells t' t := by
  cases h with
  | same => exact .same t
  | string h h' => exact .string h' h

theorem Respelled.symm {s s' : Bytes} (h : Respelled s s') : Respelled s' s := by
  apply List.Forall₂.flip
  exact h.imp fun t t' => Token.Respells.symm

/-- A token that is no string is spelled in one way. -/
theorem Token.Respells.eq_left {t t' : Token} (h : Respells t t') (ht : ∀ raw, t' ≠ .valueString raw) : t = t' := by
  cases h with
  | same => rfl
  | string _ _ => exact absurd rfl (ht _)

/-- A string token and what stands for the same bytes. -/
theorem Token.Respells.string_left {t : Token} {raw s : Bytes} (h : Respells t (.valueString raw))
    (hs : getString raw = .ok s) : ∃ raw', t = .valueString raw' ∧ getString raw' = .ok s := by
  cases h with
  | same => exact ⟨raw, rfl, hs⟩
  | @string raw' _ out h h' =>
    rw [literal_getString h'] at hs
    exact ⟨raw', rfl, by rw [literal_getString h, hs]⟩

theorem respells_of_getString {raw raw' s : Bytes} (h : scanString (raw ++ [dquote]) = some (raw, []))
    (h' : scanString (raw' ++ [dquote]) = some (raw', [])) (hs : getString raw = .ok s)
    (hs' : getString raw' = .ok s) :
    Token.Respells (.valueString raw) (.valueString raw') :=
  .string (literal_of_scan h hs) (literal_of_scan h' hs')

theorem respells_append {us a b : List Token} (h : List.Forall₂ Token.Respells us (a ++ b)) :
    ∃ va vb, us = va ++ vb ∧ List.Forall₂ Token.Respells va a ∧ List.Forall₂ Token.Respells vb b :=
  ⟨us.take a.length, us.drop a.length, (List.take_append_drop a.length us).symm,
    List.forall₂_take_append us a b h, List.forall₂_drop_append us a b h⟩

theorem respells_single {us : List Token} {t : Token} (h : List.Forall₂ Token.Respells us [t])
    (ht : ∀ raw, t ≠ .valueString raw) : us = [t] := by
  cases h with
  | cons h1 h2 =>
    cases h2
    rw [h1.eq_left ht]

theorem respells_bracketed {us ts : List Token} {t t' : Token}
    (h : List.Forall₂ Token.Respells us (t :: (ts ++ [t']))) (ht : ∀ raw, t ≠ .valueString raw)
    (ht' : ∀ raw, t' ≠ .valueString raw) : ∃ va, us = t :: (va ++ [t']) ∧ List.Forall₂ Token.Respells va ts := by
  cases h with
  | cons h1 h2 =>
    obtain ⟨va, vb, rfl, hva, hvb⟩ := respells_append h2
    refine ⟨va, ?_, hva⟩
    rw [h1.eq_left ht, respells_single hvb ht']

/-- A production holds of every spelling of its tokens. -/
theorem derives_respelled {ts : List Token} {shape : Shape} (h : Derives ts shape) :
    ∀ {us : List Token}, List.Forall₂ Token.Respells us ts → Derives us shape := by
  induction h with
  | null => intro us hu; rw [respells_single hu (by simp)]; exact .null
  | true => intro us hu; rw [respells_single hu (by simp)]; exact .true
  | false => intro us hu; rw [respells_single hu (by simp)]; exact .false
  | number raw => intro us hu; rw [respells_single hu (by simp)]; exact .number raw
  | string hs =>
    intro us hu
    cases hu with
    | cons h1 h2 =>
      cases h2
      obtain ⟨raw', rfl, hs'⟩ := h1.string_left hs
      exact .string hs'
  | emptyArray =>
    intro us hu
    cases hu with
    | cons h1 h2 =>
      rw [h1.eq_left (by simp), respells_single h2 (by simp)]
      exact .emptyArray
  | emptyObject =>
    intro us hu
    cases hu with
    | cons h1 h2 =>
      rw [h1.eq_left (by simp), respells_single h2 (by simp)]
      exact .emptyObject
  | array _ ih =>
    intro us hu
    obtain ⟨va, rfl, hva⟩ := respells_bracketed hu (by simp) (by simp)
    exact .array (ih hva)
  | object _ ih =>
    intro us hu
    obtain ⟨va, rfl, hva⟩ := respells_bracketed hu (by simp) (by simp)
    exact .object (ih hva)
  | element _ ih => intro us hu; exact .element (ih hu)
  | elements _ _ ih ihs =>
    intro us hu
    obtain ⟨va, vb, rfl, hva, hvb⟩ := respells_append hu
    cases hvb with
    | cons h1 h2 =>
      rw [h1.eq_left (by simp)]
      exact .elements (ih hva) (ihs h2)
  | member hk _ ih =>
    intro us hu
    cases hu with
    | cons h1 h2 =>
      obtain ⟨raw', rfl, hk'⟩ := h1.string_left hk
      cases h2 with
      | cons h3 h4 =>
        rw [h3.eq_left (by simp)]
        exact .member hk' (ih h4)
  | members hk _ _ ih ihs =>
    intro us hu
    cases hu with
    | cons h1 h2 =>
      obtain ⟨raw', rfl, hk'⟩ := h1.string_left hk
      cases h2 with
      | cons h3 h4 =>
        obtain ⟨va, vb, rfl, hva, hvb⟩ := respells_append h4
        cases hvb with
        | cons h5 h6 =>
          rw [h3.eq_left (by simp), h5.eq_left (by simp)]
          exact .members hk' (ih hva) (ihs h6)

theorem parse_of_respelled {s s' : Bytes} (h : Respelled s s') {j : Json} (hp : parse s' = .ok j) :
    parse s = .ok j := by
  obtain ⟨ts, htok, hd⟩ := parse_derives hp
  unfold Respelled at h
  rw [htok] at h
  obtain ⟨va, vb, hv, hva, hvb⟩ := respells_append h
  rw [respells_single hvb (by simp)] at hv
  exact derives_parse hv (derives_respelled hd hva)

/-- Two spellings of a text parse to one value, or neither parses. -/
theorem parse_respelled {s s' : Bytes} (h : Respelled s s') : (parse s).toOption = (parse s').toOption := by
  cases hp : parse s' with
  | ok j => rw [parse_of_respelled h hp]
  | error e =>
    cases hq : parse s with
    | error e' => rfl
    | ok j =>
      rw [parse_of_respelled h.symm hq] at hp
      cases hp

end Json

open Json Protocol

/-! ## The broker -/

/-- Two results of `recv` with the same message in them. -/
inductive Recv.Respelled : Recv → Recv → Prop
  | same (received : Recv) : Respelled received received
  | bytes {buf buf' : Bytes} (h : Json.Respelled (cstr buf) (cstr buf')) : Respelled (.bytes buf) (.bytes buf')

/-- Two connections on which the same is said. -/
def Accepted.Respelled {κ : Type} (a a' : Accepted κ) : Prop :=
  a.conn = a'.conn ∧ a.fd = a'.fd ∧ a.received.Respelled a'.received ∧ a.forked = a'.forked

theorem toOption_bind {ε α β : Type} {x y : Except ε α} (h : x.toOption = y.toOption) (f : α → Except ε β) :
    (x >>= f).toOption = (y >>= f).toOption := by
  cases x <;> cases y <;> simp_all [Except.toOption, bind, Except.bind]

theorem handleRequest_respelled (s : Server) (requestFd : Fd) {buf buf' : Bytes}
    (h : Json.Respelled (cstr buf) (cstr buf')) (forked : Bool) :
    (s.handleRequest requestFd (.bytes buf) forked).toOption =
      (s.handleRequest requestFd (.bytes buf') forked).toOption := by
  have hreq : (Request.ofBytes (cstr buf)).toOption = (Request.ofBytes (cstr buf')).toOption :=
    toOption_bind (parse_respelled h) _
  exact toOption_bind hreq _

theorem messageOf_respelled {buf buf' : Bytes} (h : Json.Respelled (cstr buf) (cstr buf')) :
    Server.messageOf buf = Server.messageOf buf' := by
  have hp := parse_respelled h
  unfold Server.messageOf
  cases h1 : parse (cstr buf) <;> cases h2 : parse (cstr buf') <;> simp_all [Except.toOption]

namespace Broker

variable {κ : Type}

theorem handle_respelled (b : Broker κ) (c : κ) (fd : Fd) {received received' : Recv}
    (h : received.Respelled received') (forked : Bool) :
    (b.handle c fd received forked).toOption = (b.handle c fd received' forked).toOption := by
  cases h with
  | same => rfl
  | bytes h =>
    unfold handle
    rw [toOption_bind (handleRequest_respelled b.server fd h forked)]
    simp only [messageOf_respelled h]

theorem accept_same [DecidableEq κ] (b : Broker κ) (a a' : Accepted κ) (h : a.Respelled a') :
    b.accept a = b.accept a' := by
  obtain ⟨hconn, hfd, hreceived, hforked⟩ := h
  unfold accept
  rw [hconn, hfd, hforked, handle_respelled b a'.conn a'.fd hreceived a'.forked]

/-- `{"node_id":"A","type":"register"}`, and the same with blanks and escapes. -/
def plainRegister : Bytes := makeRegisterRequest (str "A")
def escapedRegister : Bytes := str " \x7b \"node\\u005fid\" : \"\\u0041\",\t\"type\": \"r\\u0065gister\" \x7d\r\n"

theorem escapedRegister_respelled : Json.Respelled (cstr escapedRegister) (cstr plainRegister) := by
  have h1 : readTokens 10 (cstr escapedRegister) = some [.beginObject, .valueString (str "node\\u005fid"),
      .nameSeparator, .valueString (str "\\u0041"), .valueSeparator, .valueString (str "type"), .nameSeparator,
      .valueString (str "r\\u0065gister"), .endObject, .endOfInput] := by decide +kernel
  have h2 : readTokens 10 (cstr plainRegister) = some [.beginObject, .valueString (str "node_id"),
      .nameSeparator, .valueString (str "A"), .valueSeparator, .valueString (str "type"), .nameSeparator,
      .valueString (str "register"), .endObject, .endOfInput] := by decide +kernel
  have hid : Token.Respells (.valueString (str "node\\u005fid")) (.valueString (str "node_id")) :=
    @respells_of_getString _ _ (str "node_id") (by decide +kernel) (by decide +kernel) (by decide +kernel)
      (by decide +kernel)
  have hname : Token.Respells (.valueString (str "\\u0041")) (.valueString (str "A")) :=
    @respells_of_getString _ _ (str "A") (by decide +kernel) (by decide +kernel) (by decide +kernel)
      (by decide +kernel)
  have htype : Token.Respells (.valueString (str "r\\u0065gister")) (.valueString (str "register")) :=
    @respells_of_getString _ _ (str "register") (by decide +kernel) (by decide +kernel) (by decide +kernel)
      (by decide +kernel)
  unfold Json.Respelled
  rw [readTokens_eq h1, readTokens_eq h2]
  exact .cons (.same _) (.cons hid (.cons (.same _) (.cons hname (.cons (.same _) (.cons (.same _) (.cons (.same _)
    (.cons htype (.cons (.same _) (.cons (.same _) .nil)))))))))

end Broker
end VirtualSocket
