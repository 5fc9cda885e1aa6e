import VirtualSocket.NetworkUtil

/- Lines on a byte stream. A sender writes whole lines; a receiver makes one `recv`
   for each and gets whatever part of the stream is there, up to 1024 bytes. A
   `Division` is one way the stream can come out of successive calls. What a
   `recv` result parses to is then a matter of where the divisions fall
   (`parse_cut_cstr`): a piece that begins where a line begins parses exactly
   when it holds the whole line and, up to its first NUL, only blanks after it. -/
namespace VirtualSocket
open Json Protocol

/-- A way the bytes of a stream may come out of successive calls of `recv`. -/
structure Division (stream : Bytes) where
  chunks : List Bytes
  joined : chunks.flatten = stream
  sized : ∀ c ∈ chunks, c ≠ [] ∧ c.length ≤ packetSize

namespace Division

variable {stream : Bytes}

/-- The first `recv`; it is 0 bytes only when there is nothing to receive. -/
def first (d : Division stream) : Bytes := d.chunks.headD []

/-- What is received later. -/
def later (d : Division stream) : List Bytes := d.chunks.tail

theorem first_append (d : Division stream) : d.first ++ d.later.flatten = stream := by
  obtain ⟨chunks, rfl, -⟩ := d
  cases chunks <;> rfl

theorem first_prefix (d : Division stream) : d.first <+: stream := ⟨_, d.first_append⟩

theorem later_ne_nil (d : Division stream) : ∀ c ∈ d.later, c ≠ [] :=
  fun c hc => (d.sized c (List.mem_of_mem_tail hc)).1

end Division

theorem parse_cut_cstr {kvs : List (Bytes × Bytes)} (hk : kvs ≠ []) {b : Bytes} (hb : blank b = true)
    (hb0 : 0 ∉ b) {u t : Bytes} (h : u <+: dump kvs ++ t) (j : Json) :
    parse (cstr (b ++ u)) = .ok j ↔
      dump kvs <+: u ∧ blank (cstr (u.drop (dump kvs).length)) = true ∧
        j = .object (addMembers kvs []) := by
  have hw : ∀ w, cstr (dump kvs ++ w) = dump kvs ++ cstr w := fun w => cstr_append (dump_no_nul kvs)
  have hpre : cstr u <+: dump kvs ++ t := (List.takeWhile_prefix _).trans h
  rw [cstr_append hb0, parse_prefix hk hb hpre]
  -- the object holds no NUL, so the C string it is read as is cut behind it if at all
  constructor
  · rintro ⟨⟨w, hw'⟩, hend, hj⟩
    have hu : dump kvs <+: u := (hw' ▸ List.prefix_append _ w : dump kvs <+: cstr u).trans (List.takeWhile_prefix _)
    obtain ⟨v, rfl⟩ := hu
    rw [hw, List.drop_left, scan_end_iff (no_nul_cstr v)] at hend
    exact ⟨List.prefix_append _ v, by rwa [List.drop_left], hj⟩
  · rintro ⟨⟨v, rfl⟩, hblank, hj⟩
    rw [List.drop_left] at hblank
    refine ⟨hw v ▸ List.prefix_append _ _, ?_, hj⟩
    rwa [hw, List.drop_left, scan_end_iff (no_nul_cstr v)]

end VirtualSocket
