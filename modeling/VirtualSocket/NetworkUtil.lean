import VirtualSocket.Protocol

/- network_util.cpp and the kernel calls around it. A call is data (`Call`): the
   three programs are modelled as functions from what the kernel answers them to
   the calls they make, so that what a call does to a connection can be said once,
   for all of them. One `recv` is one message for both readers here; nothing looks
   for the newline that ends a line. -/
namespace VirtualSocket
open Json Protocol

/-- What `recv` gives: -1, or the bytes received (none when the peer has closed). -/
inductive Recv where
  | error
  | bytes (buf : Bytes)
  deriving DecidableEq

/-- A call of the kernel, or of the relay that two threads run. -/
inductive Call where
  | send (fd : Int) (msg : Bytes)
  | close (fd : Int)
  | facilitateConnection (clientFd serverFd : Int)
  | exit
  deriving DecidableEq, Repr

/-- What a process does: a call of its own, or a fork whose child makes `child`. -/
inductive Effect where
  | call (c : Call)
  | fork (child : List Call)
  deriving DecidableEq, Repr

/-- The calls of a process, or those of the child it forks. -/
def Effect.calls : Effect → List Call
  | .call c => [c]
  | .fork child => child

namespace NetworkUtil

/-- The response read after a request has been sent. -/
def sendRequest (received : Recv) : Except Exn Response :=
  match received with
  | .error => Response.ofBytes (makeResponse false (str "Could not receive response"))
  | .bytes buf => Response.ofBytes (cstr buf)

/-- `none` is the null pointer returned when `recv` fails. -/
def readRequest (received : Recv) : Except Exn (Option Request) :=
  match received with
  | .error => pure none
  | .bytes buf => do
    let req ← Request.ofBytes (cstr buf)
    pure (some req)

/-- What one thread of `facilitateConnection` sends on, given what each `recv` on
its source returns and whether the `send` after it succeeds. -/
def exchangeData : List (Recv × Bool) → List Bytes
  | [] => []
  | (.error, _) :: _ => []
  | (.bytes buf, sent) :: rest =>
    -- the peer has closed its sending direction
    if buf = [] then []
    else if sent then buf :: exchangeData rest
    else []

/-- A thread none of whose calls fails sends on every chunk it receives. -/
theorem exchangeData_all {chunks : List Bytes} (h : ∀ c ∈ chunks, c ≠ []) :
    exchangeData (chunks.map fun c => (.bytes c, true)) = chunks := by
  induction chunks with
  | nil => rfl
  | cons c cs ih =>
    obtain ⟨hc, hcs⟩ := List.forall_mem_cons.mp h
    rw [List.map_cons, exchangeData, if_neg hc, if_pos rfl, ih hcs]

end NetworkUtil

end VirtualSocket
