/-
  XwpServer.Basic

  The data model of the server: strings, buffers, the configuration values the
  request code reads, and the request record (`typedef.h`, `buf.h`, `http.h`).

  A `char*` that the request code stores points into one of the buffers of the
  request or to a string of its own (a literal or a copy made in the pool).  A
  buffer is identified by its allocation number, so `request->header_buf` and the
  local variables that alias it are numbers.
-/

import XwpServer.Lib.CString

namespace XwpServer

open CString

/-! ## Strings and buffers -/

/-- A `char*` as the request code stores it. -/
inductive Ptr where
  | null
  /-- Offset `off` in the header buffer number `id`. -/
  | buf (id off : Nat)
  /-- The start of a zero-terminated string of its own. -/
  | lit (s : List Byte)
  deriving DecidableEq, Repr

/-- `str_t`; `len` is a `size_t`. -/
structure Str where
  data : Ptr
  len : Nat
  deriving DecidableEq, Repr

namespace Str

def null : Str := ⟨.null, 0⟩

/-- `server_string`. -/
def serverString (s : String) : Str := ⟨.lit (bytes s), (bytes s).length⟩

end Str

/-- `pool_strndup`, with the length recorded next to the copy. -/
def poolStrndup (s : List Byte) : Str := if s = [] then .null else ⟨.lit s, s.length⟩

/-- `buf_t` with the block it was allocated with; `start` is offset 0. -/
structure Buf where
  mem : List Byte
  pos : Nat
  last : Nat
  end_ : Nat
  deriving DecidableEq, Repr

/-- `sizeof(buf_t)`, in front of the bytes of a buffer. -/
def BUF_SIZE : Nat := 32

/-- `buf_create`, where it returns a buffer; `pool_calloc` clears the block. -/
def bufCreate (size : Nat) : Buf :=
  { mem := List.replicate size NUL, pos := 0, last := 0, end_ := size }

/-- Bytes written into a block from offset `off` on. -/
def writeAt (m : List Byte) (off : Nat) (bs : List Byte) : List Byte :=
  m.take off ++ bs ++ m.drop (off + bs.length)

/-- The bytes received and not yet parsed. -/
def Buf.unread (b : Buf) : List Byte := (b.mem.drop b.pos).take (b.last - b.pos)

/-- The buffers a request has created, in the order of their creation, and
    `header_buf`, which is one of them.  Before the first one is created
    `header_buf` is NULL. -/
structure Heap where
  bufs : List Buf := []
  headerBuf : Nat := 0
  deriving DecidableEq, Repr

namespace Heap

def buf (h : Heap) (k : Nat) : Buf := h.bufs.getD k (bufCreate 0)

def setBuf (h : Heap) (k : Nat) (b : Buf) : Heap := { h with bufs := h.bufs.set k b }

/-- `request->header_buf = b` for a new buffer. -/
def newHeaderBuf (h : Heap) (b : Buf) : Heap :=
  { bufs := h.bufs ++ [b], headerBuf := h.bufs.length }

/-- The string a pointer denotes; `none` for NULL. -/
def cstr (h : Heap) : Ptr → Option (List Byte)
  | .null => none
  | .buf id off => some (CString.cstr (h.buf id).mem off)
  | .lit s => some (s.takeWhile (· != NUL))

@[simp] theorem setBuf_headerBuf (h : Heap) (k : Nat) (b : Buf) :
    (h.setBuf k b).headerBuf = h.headerBuf := rfl

@[simp] theorem setBuf_length (h : Heap) (k : Nat) (b : Buf) :
    (h.setBuf k b).bufs.length = h.bufs.length := by simp [setBuf]

theorem buf_setBuf {h : Heap} {k : Nat} (hk : k < h.bufs.length) (b : Buf) :
    (h.setBuf k b).buf k = b := by simp [buf, setBuf, hk]

theorem buf_setBuf_ne (h : Heap) {k j : Nat} (hj : j ≠ k) (b : Buf) :
    (h.setBuf k b).buf j = h.buf j := by
  simp [buf, setBuf, Ne.symm hj]

@[simp] theorem setBuf_setBuf (h : Heap) (k : Nat) (b b' : Buf) :
    (h.setBuf k b).setBuf k b' = h.setBuf k b' := by simp [setBuf]

@[simp] theorem newHeaderBuf_headerBuf (h : Heap) (b : Buf) :
    (h.newHeaderBuf b).headerBuf = h.bufs.length := rfl

theorem buf_newHeaderBuf (h : Heap) (b : Buf) : (h.newHeaderBuf b).buf h.bufs.length = b := by
  simp [buf, newHeaderBuf]

end Heap

/-! ## Configuration -/

/-- The fields of `conf_t` the request code reads.  The sizes of the header buffers
    are an `int`, and so is each plus one and the `buf_t` in front of it. -/
structure Conf where
  clientHeaderSize : Nat
  largeClientHeaderSize : Nat
  contentBodyBufSize : Int
  maxContentLen : Int
  clientHeaderSize_lt : BUF_SIZE + clientHeaderSize + 1 < 2 ^ 31 := by decide
  largeClientHeaderSize_lt : BUF_SIZE + largeClientHeaderSize + 1 < 2 ^ 31 := by decide
  deriving DecidableEq, Repr

/-! ## The request -/

inductive HttpMethod where
  | get | post | head | put
  deriving DecidableEq, Repr

inductive HttpVersion where
  | v10 | v11
  deriving DecidableEq, Repr

/-- `http_process_state_e`. -/
inductive ProcessState where
  | none | requestLine | headerLine | contentBody | statusLine
  deriving DecidableEq, Repr

/-- `url_t`. -/
structure Url where
  unparsedUrl : Str := .null
  schema : Str := .null
  host : Str := .null
  port : Int := 0
  path : Str := .null
  queryString : Str := .null
  deriving DecidableEq, Repr

/-- `http_header_t`. -/
structure Header where
  name : Str
  value : Str
  deriving DecidableEq, Repr

/-- What the request line leaves in the request. -/
structure RequestLine where
  methodStr : Str := .null
  method : HttpMethod := .get
  url : Url := {}
  versionStr : Str := .null
  version : HttpVersion := .v10
  deriving DecidableEq, Repr

/-- `http_headers_in_t`; the pointers into the table are copied out of it. -/
structure HeadersIn where
  headers : List Header := []
  headerHost : Option Str := none
  headerContentType : Option Str := none
  headerContentLen : Option Str := none
  contentLen : Int := 0
  deriving DecidableEq, Repr

/-- `http_headers_out_t`. -/
structure HeadersOut where
  headers : List Header := []
  contentLen : Int := 0
  deriving DecidableEq, Repr

/-- A `buf_t` that points into the block of the buffer number `block`. -/
structure BodyBuf where
  block : Nat
  pos : Nat
  last : Nat
  end_ : Nat
  deriving DecidableEq, Repr

/-- `http_content_body_t`. -/
structure ContentBody where
  contentLen : Int := 0
  content : Option BodyBuf := none
  contentFd : Int := -1
  deriving DecidableEq, Repr

/-- `http_request_t`. -/
structure HttpRequest extends RequestLine, Heap where
  state : ProcessState := .none
  status : Int := 200
  keepAlive : Bool := false
  headersIn : HeadersIn := {}
  headersOut : HeadersOut := {}
  bodyIn : ContentBody := {}
  bodyOut : ContentBody := {}
  deriving DecidableEq, Repr

/-- The three results of the line parsers. -/
inductive ParseRet where
  | done | fail | again
  deriving DecidableEq, Repr

/-! ## Status codes the request code sets -/

abbrev HTTP_STATUS_START : Int := 100
abbrev HTTP_STATUS_OK : Int := 200
abbrev HTTP_STATUS_SPECIAL_RESPONSE : Int := 300
abbrev HTTP_STATUS_BAD_REQUEST : Int := 400
abbrev HTTP_STATUS_FORBIDDEN : Int := 403
abbrev HTTP_STATUS_NOT_FOUND : Int := 404
abbrev HTTP_STATUS_CLOSE : Int := 444
abbrev HTTP_STATUS_INTERNAL_SERVER_ERROR : Int := 500
abbrev HTTP_STATUS_BAD_GATEWAY : Int := 502
abbrev HTTP_STATUS_END : Int := 599

end XwpServer
