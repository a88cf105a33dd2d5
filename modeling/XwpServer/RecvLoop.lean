/-
  XwpServer.RecvLoop

  The receive loop of `http_process_request_line`, `http_process_status_line` and
  `http_process_header_line` (`http_request.c`), which the three functions share:
  parse what is there, make room for more, receive more.

  The outcomes of the `recv` calls are a list.  A run that uses up the list is
  blocked in its next `recv`; this is the state in which the other threads see
  it.
-/

import XwpServer.HeaderTable
import XwpServer.ParseLine
import XwpServer.Lib.Feed

namespace XwpServer

open CString Scan

/-! ## Outcomes of system calls -/

inductive Errno where
  | none | eintr | eagain | other
  deriving DecidableEq, Repr

/-- The outcome of one `recv`: the bytes it stored (none of them: the peer has
    closed), or `-1` and an `errno`. -/
inductive RecvEvent where
  | data (bs : List Byte)
  | error (e : Errno)
  deriving DecidableEq, Repr

/-- Why a run has no next state. -/
inductive Stop where
  /-- An access outside a block. -/
  | fault
  | nullDeref
  | assert
  /-- Not a run: more bytes than `recv` or `send` was asked for. -/
  | misfit
  deriving DecidableEq, Repr

theorem Except.bind_eq_ok {ε α β : Type} {x : Except ε α} {f : α → Except ε β} {b : β} :
    x >>= f = .ok b ↔ ∃ a, x = .ok a ∧ f a = .ok b := by
  cases x <;> simp [bind, Except.bind]

theorem Except.bind_eq_error {ε α β : Type} {x : Except ε α} {f : α → Except ε β} {e : ε} :
    x >>= f = .error e ↔ x = .error e ∨ ∃ a, x = .ok a ∧ f a = .error e := by
  cases x <;> simp [bind, Except.bind]

/-! ## Header buffers -/

/-- `http_alloc_client_header_buf`: one byte more than configured, which stays
    zero. -/
def httpAllocClientHeaderBuf (conf : Conf) (h : Heap) : Heap :=
  let b := bufCreate (conf.clientHeaderSize + 1)
  h.newHeaderBuf { b with mem := b.mem.set (b.end_ - 1) NUL, end_ := b.end_ - 1 }

/-- `http_alloc_large_client_header_buf`.  The new buffer is put into the request,
    but the pointer that is prepared is the one to the old buffer. -/
def httpAllocLargeClientHeaderBuf (conf : Conf) (h : Heap) : Option Heap :=
  let headerBuf := h.headerBuf
  let b := h.buf headerBuf
  if conf.largeClientHeaderSize ≤ b.end_ then none
  else
    let restLen := b.last - b.pos
    let h := h.newHeaderBuf (bufCreate (conf.largeClientHeaderSize + 1))
    let m := b.mem.set (b.end_ - 1) NUL
    let m := (m.drop b.pos).take restLen ++ m.drop restLen
    some (h.setBuf headerBuf { b with mem := m, last := b.last + restLen, end_ := b.end_ - 1 })

/-- `recv(fd, buf->last, buf->end - buf->last, 0)` that delivers `bs`; the size is
    a `size_t`. -/
def Buf.recv (b : Buf) (bs : List Byte) : Except Stop Buf :=
  if ptrDiff b.end_ b.last < bs.length then .error .misfit
  else if b.mem.length < b.last + bs.length then .error .fault
  else .ok { b with mem := writeAt b.mem b.last bs, last := b.last + bs.length }

/-! ## The loop -/

/-- How the loop is left. -/
inductive LoopExit where
  | done | badRequest | closed | noLargeBuf
  deriving DecidableEq, Repr

/-- The end of a loop: an exit with what the parser has recorded (`x`), or none. -/
inductive LoopEnd (σ : Type) where
  | exit (e : LoopExit) (x : σ) (h : Heap) (errno : Errno)
  | stop (s : Stop)

/-- The loop blocked in `recv`. -/
structure Waiting (σ : Type) where
  x : σ
  heap : Heap
  errno : Errno

variable {σ : Type}

/-- A line parser on the loop's buffer. -/
abbrev Parse (σ : Type) := σ → Heap → Option (ParseRet × σ × Heap)

/-- After `HTTP_PARSE_AGAIN`: a full buffer is switched for a larger one. -/
def makeRoom (conf : Conf) (k : Nat) (w : Waiting σ) : Waiting σ ⊕ LoopEnd σ :=
  if (w.heap.buf k).last = (w.heap.buf k).end_ then
    match httpAllocLargeClientHeaderBuf conf w.heap with
    | none => .inr (.exit .noLargeBuf w.x w.heap w.errno)
    | some h => .inl { w with heap := h }
  else .inl w

/-- One parser call and what follows it up to the next `recv`; `k` is the loop's
    `buf`. -/
def settle (conf : Conf) (parse : Parse σ) (k : Nat) (w : Waiting σ) :
    Waiting σ ⊕ LoopEnd σ :=
  match parse w.x w.heap with
  | none => .inr (.stop .fault)
  | some (.done, x, h) => .inr (.exit .done x h w.errno)
  | some (.fail, x, h) => .inr (.exit .badRequest x h w.errno)
  | some (.again, x, h) => makeRoom conf k ⟨x, h, w.errno⟩

/-- What the loop does with the outcome of a `recv`.  `errno` keeps its value when
    `recv` does not fail, so a close right after an interrupted call is taken for
    another interruption. -/
def onRecv (conf : Conf) (parse : Parse σ) (k : Nat) (w : Waiting σ) :
    RecvEvent → Waiting σ ⊕ LoopEnd σ
  | .error e =>
    if e = .eintr then .inl { w with errno := e } else .inr (.exit .closed w.x w.heap e)
  | .data bs =>
    if bs = [] then
      if w.errno = .eintr then .inl w else .inr (.exit .closed w.x w.heap w.errno)
    else
      match (w.heap.buf k).recv bs with
      | .error s => .inr (.stop s)
      | .ok b => settle conf parse k { w with heap := w.heap.setBuf k b }

/-- `for(;;)` of the three functions, on the outcomes `es` of its `recv` calls; the
    outcomes it has not used are left over. -/
def recvLoop (conf : Conf) (parse : Parse σ) (k : Nat) (w : Waiting σ) (es : List RecvEvent) :
    (Waiting σ ⊕ LoopEnd σ) × List RecvEvent :=
  Feed.feed (onRecv conf parse k) (settle conf parse k w) es

/-! ## The parsers on a buffer -/

/-- The parser of a first line: skip empty lines, then parse one line with `step`. -/
def parseFirstLine (step : σ → List Byte → Nat → Option (ParseRet × σ × List Byte × Nat))
    (k : Nat) : Parse σ := fun x h => do
  let b := h.buf k
  let pos ← skipSpace b.mem b.pos b.last
  let (ret, x, m, pos) ← step x b.mem pos
  return (ret, x, h.setBuf k { b with mem := m, pos := pos })

/-- `http_parse_request_line`. -/
def httpParseRequestLine (k : Nat) : Parse RequestLine := parseFirstLine (requestLineStep k) k

/-- `statusLineStep` on the status it stores through a pointer. -/
def statusLineStore (status : Int) (m : List Byte) (pos : Nat) :
    Option (ParseRet × Int × List Byte × Nat) :=
  (statusLineStep m pos).map fun y => (y.1, y.2.1.getD status, y.2.2)

/-- `http_parse_status_line`. -/
def httpParseStatusLine (k : Nat) : Parse Int := parseFirstLine statusLineStore k

/-- `http_header_set` as the header loop calls it. -/
abbrev HeaderSink (σ : Type) := Heap → σ → Str → Str → σ

/-- The loop of `http_parse_header_line` from `pos` on, for the bytes before
    `last`; each round consumes at least one byte, which `fuel` counts. -/
def headerLines (set : HeaderSink σ) (k last : Nat) :
    Nat → Nat → σ → Heap → Option (ParseRet × Nat × σ × Heap)
  | 0, pos, x, h => some (.again, pos, x, h)
  | fuel + 1, pos, x, h =>
    if last ≤ pos then some (.again, pos, x, h)
    else
      match headerStep (h.buf k).mem pos with
      | none => none
      | some .again => some (.again, pos, x, h)
      | some (.done pos) => some (.done, pos, x, h)
      | some (.skip pos) => headerLines set k last fuel pos x h
      | some (.fail m pos) => some (.fail, pos, x, h.setBuf k { h.buf k with mem := m })
      | some (.header m name value pos) =>
        let h := h.setBuf k { h.buf k with mem := m }
        let x := set h x (name.str k) ((value.map (Tok.str k)).getD .null)
        headerLines set k last fuel pos x h

/-- `http_parse_header_line`. -/
def httpParseHeaderLine (set : HeaderSink σ) (k : Nat) : Parse σ := fun x h => do
  let b := h.buf k
  let (ret, pos, x, h) ← headerLines set k b.last (b.last - b.pos) b.pos x h
  return (ret, x, h.setBuf k { h.buf k with pos := pos })

end XwpServer
