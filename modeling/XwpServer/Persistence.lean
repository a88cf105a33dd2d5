/-
  XwpServer.Persistence

  Whether a connection is kept open (`http_process_header_line`).

  The server announces in a `Connection` header whether it keeps the connection, but it
  asks the request for a `Keep-Alive` header, and takes every beginning of `close` for
  `close`.  Without such a header the version alone decides (`keepAlive_eq_iff`).
-/

import XwpServer.AbsentFields

namespace XwpServer

open CString FirstMatch

/-! ## What the client asked for -/

section Lines

variable (h : Heap) (pairs : List (Str × Str))

/-- There is a header line with this name and this value, ignoring case. -/
def Heap.hasLine (name value : String) : Bool :=
  pairs.any fun p =>
    strcasecmpEq (h.str p.1.data) (bytes name) && strcasecmpEq (h.str p.2.data) (bytes value)

/-- The client wants the connection to be closed. -/
def Heap.asksClose : Bool := h.hasLine pairs "Connection" "close"

/-- The client wants the connection to be kept. -/
def Heap.asksKeepAlive : Bool := h.hasLine pairs "Connection" "keep-alive"

end Lines

/-- `keep_alive` by the `Connection` headers and the version. -/
def HttpRequest.persists (r : HttpRequest) (pairs : List (Str × Str)) : Bool :=
  if r.asksClose pairs then false
  else if r.asksKeepAlive pairs then true
  else decide (r.version = .v11)

/-! ## What the server asks for -/

/-- `strncasecmp(keep_alive->data, "CLOSE", keep_alive->len) == 0`. -/
def HttpRequest.startsClose (r : HttpRequest) (v : Str) : Bool :=
  strncasecmpEq (r.str v.data) (bytes "CLOSE") v.len

/-- Without a line for `Keep-Alive` the version has to agree with the `Connection` headers.
    With one, its value has to: a beginning of `close` where the client wants to close. -/
def HttpRequest.KeepAliveAgrees (r : HttpRequest) (pairs : List (Str × Str)) : Prop :=
  match (r.headerPuts "Keep-Alive" pairs).getLast? with
  | none =>
    (r.asksClose pairs = true → r.version ≠ .v11) ∧
      (r.asksClose pairs = false → r.asksKeepAlive pairs = true → r.version = .v11)
  | some v =>
    if r.startsClose v then
      r.asksClose pairs = true ∨ r.asksKeepAlive pairs = false ∧ r.version ≠ .v11
    else r.asksClose pairs = false ∧ (r.asksKeepAlive pairs = true ∨ r.version = .v11)

/-- The header lines set `keep_alive` from the table they leave. -/
theorem httpProcessHeaderLine_keepAlive {conf : Conf} {r₁ r₂ : HttpRequest} {io₁ io₂ : Io}
    (hlines : httpProcessHeaderLine conf .request r₁ io₁ = .ret (true, r₂, io₂)) :
    r₂.keepAlive = r₂.keepAliveOf := by
  obtain ⟨q, io', -, hdone⟩ := httpProcessHeaderLine_accepted hlines
  obtain ⟨n, -, rfl⟩ := HttpRequest.fillHeadersIn_eq_some (headersDone_request hdone).1
  rfl

/-- `keep_alive` of an accepted head by its lines. -/
theorem keepAlive_eq {conf : Conf} {r r₁ r₂ : HttpRequest} {io io₁ io₂ : Io}
    (hr : r.HeadReady .request) (hfirst : httpProcessRequestLine conf r io = .ret (true, r₁, io₁))
    (hlines : httpProcessHeaderLine conf .request r₁ io₁ = .ret (true, r₂, io₂)) :
    r₂.keepAlive =
      match (r₂.headerPuts "Keep-Alive" (handedPairs conf r₁ io₁)).getLast? with
      | none => decide (r₂.version = .v11)
      | some v => !r₂.startsClose v := by
  obtain ⟨hof, -, -⟩ := httpProcessHeaderLine_headersOf hr hfirst hlines
  rw [httpProcessHeaderLine_keepAlive hlines, HttpRequest.keepAliveOf, hof.headers,
    httpHeaderStr_setAll (by decide) (keyed_ends hof.names)]
  cases (r₂.headerPuts "Keep-Alive" (handedPairs conf r₁ io₁)).getLast? <;> rfl

/-- `keep_alive` follows the `Connection` headers exactly if the `Keep-Alive` line, or the
    version without one, agrees with them. -/
theorem keepAlive_eq_iff {conf : Conf} {r r₁ r₂ : HttpRequest} {io io₁ io₂ : Io}
    (hr : r.HeadReady .request) (hfirst : httpProcessRequestLine conf r io = .ret (true, r₁, io₁))
    (hlines : httpProcessHeaderLine conf .request r₁ io₁ = .ret (true, r₂, io₂)) :
    r₂.keepAlive = r₂.persists (handedPairs conf r₁ io₁) ↔
      r₂.KeepAliveAgrees (handedPairs conf r₁ io₁) := by
  rw [keepAlive_eq hr hfirst hlines]
  unfold HttpRequest.KeepAliveAgrees HttpRequest.persists
  cases (r₂.headerPuts "Keep-Alive" (handedPairs conf r₁ io₁)).getLast? with
  | none =>
      -- the version alone decides
      cases r₂.asksClose (handedPairs conf r₁ io₁) <;>
        cases r₂.asksKeepAlive (handedPairs conf r₁ io₁) <;> simp
  | some v =>
      cases hv : r₂.startsClose v <;> cases r₂.asksClose (handedPairs conf r₁ io₁) <;>
        cases r₂.asksKeepAlive (handedPairs conf r₁ io₁) <;> simp [hv]

/-- The head that one `recv` of `s` brings on a new connection. -/
def acceptedHead (conf : Conf) (s : List Byte) : Option (HttpRequest × Io × HttpRequest × Io) :=
  match httpProcessRequestLine conf {} { recvs := [.data s] } with
  | .ret (true, r₁, io₁) =>
    match httpProcessHeaderLine conf .request r₁ io₁ with
    | .ret (true, r₂, io₂) => some (r₁, io₁, r₂, io₂)
    | _ => none
  | _ => none

theorem acceptedHead_some {conf : Conf} {s : List Byte} {r₁ r₂ : HttpRequest} {io₁ io₂ : Io}
    (h : acceptedHead conf s = some (r₁, io₁, r₂, io₂)) :
    httpProcessRequestLine conf {} { recvs := [.data s] } = .ret (true, r₁, io₁) ∧
      httpProcessHeaderLine conf .request r₁ io₁ = .ret (true, r₂, io₂) := by
  unfold acceptedHead at h
  split at h
  case h_2 => cases h
  next q₁ i₁ hfirst =>
  split at h
  case h_2 => cases h
  next q₂ i₂ hlines =>
  simp only [Option.some.injEq, Prod.mk.injEq] at h
  obtain ⟨rfl, rfl, rfl, rfl⟩ := h
  exact ⟨hfirst, hlines⟩

/-- With `Connection: keep-alive` and HTTP/1.1 the connection is kept. -/
theorem keepAlive_persists_keep :
    ∃ r₁ io₁ r₂ io₂, acceptedHead exampleConf
        (bytes "GET / HTTP/1.1\nConnection: keep-alive\n\n") = some (r₁, io₁, r₂, io₂) ∧
      r₂.keepAlive = r₂.persists (handedPairs exampleConf r₁ io₁) := by
  have hrun : (acceptedHead exampleConf (bytes "GET / HTTP/1.1\nConnection: keep-alive\n\n")).map
      (fun x => ((x.2.2.1.headerPuts "Keep-Alive" (handedPairs exampleConf x.1 x.2.1)).getLast?,
        x.2.2.1.asksClose (handedPairs exampleConf x.1 x.2.1), x.2.2.1.version))
      = some (none, false, .v11) := by decide
  obtain ⟨⟨r₁, io₁, r₂, io₂⟩, h, hlines⟩ := Option.map_eq_some_iff.mp hrun
  simp only [Prod.mk.injEq] at hlines
  obtain ⟨hnone, hclose, hversion⟩ := hlines
  obtain ⟨hfirst, hheaders⟩ := acceptedHead_some h
  refine ⟨r₁, io₁, r₂, io₂, h, (keepAlive_eq_iff ⟨rfl, rfl, rfl⟩ hfirst hheaders).mpr ?_⟩
  rw [HttpRequest.KeepAliveAgrees, hnone]
  refine ⟨fun hasks => ?_, fun _ _ => hversion⟩
  rw [hclose] at hasks
  cases hasks

/-- `Connection: close` with HTTP/1.1 is kept open. -/
theorem keepAlive_ne_close :
    ¬ ∀ (conf : Conf) (r r₁ r₂ : HttpRequest) (io io₁ io₂ : Io), r.HeadReady .request →
      httpProcessRequestLine conf r io = .ret (true, r₁, io₁) →
      httpProcessHeaderLine conf .request r₁ io₁ = .ret (true, r₂, io₂) →
      r₂.keepAlive = r₂.persists (handedPairs conf r₁ io₁) := by
  intro hall
  obtain ⟨⟨r₁, io₁, r₂, io₂⟩, h⟩ : ∃ x, acceptedHead exampleConf
      (bytes "GET / HTTP/1.1\nConnection: close\n\n") = some x :=
    Option.isSome_iff_exists.mp (by decide)
  have hkept : (acceptedHead exampleConf
      (bytes "GET / HTTP/1.1\nConnection: close\n\n")).map (fun x =>
        (x.2.2.1.keepAlive, x.2.2.1.persists (handedPairs exampleConf x.1 x.2.1))) =
      some (true, false) := by
    decide +kernel
  simp only [h, Option.map_some, Option.some.injEq, Prod.mk.injEq] at hkept
  obtain ⟨hfirst, hlines⟩ := acceptedHead_some h
  have heq := hall _ _ r₁ r₂ _ io₁ io₂ ⟨rfl, rfl, rfl⟩ hfirst hlines
  rw [hkept.1, hkept.2] at heq
  cases heq

end XwpServer
