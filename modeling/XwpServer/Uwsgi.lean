/-
  XwpServer.Uwsgi

  The packet `upstream_uwsgi_process` sends (`module_uwsgi.c`).

  `upstream_uwsgi_calc_packet_len` computes its size first, in a `uint16_t`; the
  packet is then written into a block of that size, the four bytes of its header and
  one byte for the terminator of the last `sprintf`.
-/

import XwpServer.Process
import XwpServer.Lib.KeyValue

namespace XwpServer

open CString

/-! ## Inputs -/

/-- What the module reads of the configuration: its own part, `loc_conf->root`,
    `loc_conf->parent->name`, and the address of the server. -/
structure UwsgiConf where
  modifier1 : Byte
  modifier2 : Byte
  root : Str
  name : Str
  ip : Str
  port : Int
  deriving DecidableEq, Repr

/-- The request with its peer's address. -/
structure UpstreamRequest extends HttpRequest where
  remoteIp : Str
  deriving DecidableEq, Repr

abbrev CGI_QUERY_STRING : List Byte := bytes "QUERY_STRING"
abbrev CGI_REQUEST_METHOD : List Byte := bytes "REQUEST_METHOD"
abbrev CGI_CONTENT_TYPE : List Byte := bytes "CONTENT_TYPE"
abbrev CGI_CONTENT_LENGTH : List Byte := bytes "CONTENT_LENGTH"
abbrev CGI_REQUEST_URI : List Byte := bytes "REQUEST_URI"
abbrev CGI_PATH_INFO : List Byte := bytes "PATH_INFO"
abbrev CGI_DOCUMENT_ROOT : List Byte := bytes "DOCUMENT_ROOT"
abbrev CGI_SERVER_PROTOCOL : List Byte := bytes "SERVER_PROTOCOL"
abbrev CGI_SERVER_SOFTWARE : List Byte := bytes "SERVER_SOFTWARE"
abbrev CGI_REMOTE_ADDR : List Byte := bytes "REMOTE_ADDR"
abbrev CGI_SERVER_ADDR : List Byte := bytes "SERVER_ADDR"
abbrev CGI_SERVER_PORT : List Byte := bytes "SERVER_PORT"
abbrev CGI_SERVER_NAME : List Byte := bytes "SERVER_NAME"

/-- The prefix of the variables made of headers. -/
abbrev HTTP_PREFIX : List Byte := bytes "HTTP_"

/-- `sprintf("%d")`. -/
def sprintfInt (n : Int) : List Byte := bytes (toString n)

/-- The `str_t` of the port. -/
def portStr (port : Int) : Str := ⟨.lit (sprintfInt port), (sprintfInt port).length⟩

/-- A header that has its own variable is skipped; both names are compared over the
    length of `Content-Type`. -/
def skipsHeader (h : Heap) (name : Str) : Bool :=
  strncasecmpEq (h.str name.data) (bytes "Content-Type") HTTP_HEADER_CONTENT_TYPE.len ||
    strncasecmpEq (h.str name.data) (bytes "Content-Length") HTTP_HEADER_CONTENT_TYPE.len

/-! ## `upstream_uwsgi_calc_packet_len` -/

/-- `len` of a string that may be NULL. -/
def Str.lenOr (s : Option Str) : Nat := (s.map (·.len)).getD 0

/-- `upstream_uwsgi_calc_packet_len`; the sums are `size_t`, the result is cut down to
    a `uint16_t` with each of them. -/
def upstreamUwsgiCalcPacketLen (conf : UwsgiConf) (r : UpstreamRequest) : Nat :=
  let fixed := [
    CGI_QUERY_STRING.length + r.url.queryString.len + 4,
    CGI_REQUEST_METHOD.length + r.methodStr.len + 4,
    CGI_CONTENT_TYPE.length + Str.lenOr r.headersIn.headerContentType + 4,
    CGI_CONTENT_LENGTH.length + Str.lenOr r.headersIn.headerContentLen + 4,
    CGI_REQUEST_URI.length + r.url.unparsedUrl.len + 4,
    CGI_PATH_INFO.length + r.url.path.len + 4,
    CGI_DOCUMENT_ROOT.length + conf.root.len + 4,
    CGI_SERVER_PROTOCOL.length + r.versionStr.len + 4,
    CGI_SERVER_SOFTWARE.length + HTTP_HEADER_XWP_VER.len + 4,
    CGI_REMOTE_ADDR.length + r.remoteIp.len + 4,
    CGI_SERVER_ADDR.length + conf.ip.len + 4,
    CGI_SERVER_PORT.length + (sprintfInt conf.port).length + 4,
    CGI_SERVER_NAME.length + conf.name.len + 4]
  let headers := r.headersIn.headers.map fun e =>
    if skipsHeader r.toHeap e.name then 0 else HTTP_PREFIX.length + e.name.len + e.value.len + 4
  (fixed ++ headers).foldl (fun datasize n => (datasize + n) % 2 ^ 16) 0

/-! ## Writing into the block -/

/-- A store of some bytes. -/
def store (m : List Byte) (pos : Nat) (bs : List Byte) : Except Stop (List Byte) :=
  if m.length < pos + bs.length then .error .fault else .ok (writeAt m pos bs)

/-- `uint16_little_endian`. -/
def uint16LittleEndian (m : List Byte) (pos n : Nat) : Except Stop (List Byte) :=
  store m pos (KeyValue.le16 n)

/-- `sprintf(buf + pos, "%s", s)`. -/
def sprintfStr (m : List Byte) (pos : Nat) (s : List Byte) : Except Stop (List Byte) :=
  store m pos (s ++ [NUL])

/-- The character `p[i]`. -/
def Heap.charAt (h : Heap) (p : Ptr) (i : Nat) : Option Byte :=
  match p with
  | .null => none
  | .buf id off => (h.buf id).mem[off + i]?
  | .lit s => (s ++ [NUL])[i]?

/-- `assert(value->data[value->len] == '\0' && value->data[value->len - 1] != '\0')`. -/
def assertEnds (h : Heap) (v : Str) : Except Stop Unit :=
  match h.charAt v.data v.len, h.charAt v.data (v.len - 1) with
  | some a, some b => if a = NUL ∧ b ≠ NUL then .ok () else .error .assert
  | _, _ => .error (if v.data = .null then .nullDeref else .fault)

/-- `upstream_uwsgi_add_param` on the block, at `pos`; the names are constants, for which
    its asserts hold. -/
def upstreamUwsgiAddParam (h : Heap) (m : List Byte) (pos : Nat) (name : List Byte)
    (value : Option Str) : Except Stop (List Byte × Nat) := do
  let m ← uint16LittleEndian m pos name.length
  let pos := pos + 2
  let m ← sprintfStr m pos name
  let pos := pos + name.length
  match value.filter (0 < ·.len) with
  | some v =>
    assertEnds h v
    let m ← uint16LittleEndian m pos v.len
    let pos := pos + 2
    let m ← sprintfStr m pos (h.str v.data)
    return (m, pos + v.len)
  | none =>
    let m ← uint16LittleEndian m pos 0
    return (m, pos + 2)

/-- A character of a header's name in the name of its variable. -/
def varByte (c : Byte) : Byte := if c = 45 then 95 else if 97 ≤ c && c ≤ 122 then c - 32 else c

/-- The loop that turns the name of a header into that of its variable, from `p` up to
    the terminator. -/
def upcase (m : List Byte) (p : Nat) : List Byte := writeAt m p ((CString.cstr m p).map varByte)

/-- One round of the loop over the headers. -/
def upstreamUwsgiAddHeader (h : Heap) (m : List Byte) (pos : Nat) (e : Header) :
    Except Stop (List Byte × Nat) :=
  if skipsHeader h e.name then .ok (m, pos)
  else do
    let m ← uint16LittleEndian m pos (e.name.len + HTTP_PREFIX.length)
    let pos := pos + 2
    let m ← sprintfStr m pos (HTTP_PREFIX ++ h.str e.name.data)
    let m := upcase m (pos + HTTP_PREFIX.length)
    let pos := pos + (HTTP_PREFIX ++ h.str e.name.data).length
    if 0 < e.value.len then
      let m ← uint16LittleEndian m pos e.value.len
      let pos := pos + 2
      let m ← sprintfStr m pos (h.str e.value.data)
      return (m, pos + (h.str e.value.data).length)
    else
      let m ← uint16LittleEndian m pos 0
      return (m, pos + 2)

/-! ## The packet -/

/-- The parameters `upstream_uwsgi_process` adds, in their order. -/
def uwsgiParams (conf : UwsgiConf) (r : UpstreamRequest) : List (List Byte × Option Str) := [
  (CGI_QUERY_STRING, some r.url.queryString),
  (CGI_REQUEST_METHOD, some r.methodStr),
  (CGI_CONTENT_TYPE, r.headersIn.headerContentType),
  (CGI_CONTENT_LENGTH, r.headersIn.headerContentLen),
  (CGI_REQUEST_URI, some r.url.path),
  (CGI_PATH_INFO, some r.url.unparsedUrl),
  (CGI_DOCUMENT_ROOT, some conf.root),
  (CGI_SERVER_PROTOCOL, some r.versionStr),
  (CGI_SERVER_SOFTWARE, some HTTP_HEADER_XWP_VER),
  (CGI_REMOTE_ADDR, some r.remoteIp),
  (CGI_SERVER_ADDR, some conf.ip),
  (CGI_SERVER_PORT, some (portStr conf.port)),
  (CGI_SERVER_NAME, some conf.name)]

/-- `upstream_uwsgi_process` up to its assert: the block and `pos`. -/
def uwsgiBuild (conf : UwsgiConf) (r : UpstreamRequest) : Except Stop (List Byte × Nat) := do
  let datasize := upstreamUwsgiCalcPacketLen conf r
  let m := List.replicate (datasize + 4 + 1) NUL
  let m ← store m 0 [conf.modifier1]
  let m ← uint16LittleEndian m 1 datasize
  let m ← store m 3 [conf.modifier2]
  let x ← (uwsgiParams conf r).foldlM
    (fun x p => upstreamUwsgiAddParam r.toHeap x.1 x.2 p.1 p.2) (m, 4)
  r.headersIn.headers.foldlM (fun x e => upstreamUwsgiAddHeader r.toHeap x.1 x.2 e) x

/-- The bytes `upstream_uwsgi_process` sends, behind `assert(pos == datasize + 4)`. -/
def uwsgiPacket (conf : UwsgiConf) (r : UpstreamRequest) : Except Stop (List Byte) := do
  let (m, pos) ← uwsgiBuild conf r
  if pos = upstreamUwsgiCalcPacketLen conf r + 4 then return m.take pos else .error .assert

/-! ## The receiver -/

/-- What a uwsgi server reads: the modifiers, and the variables in the bytes behind the
    header, whose number the header tells. -/
def uwsgiDecode : List Byte → Option (Byte × Byte × List (List Byte × List Byte))
  | m1 :: lo :: hi :: m2 :: body =>
    if body.length = KeyValue.ofLe16 lo hi then (KeyValue.decode body).map fun vs => (m1, m2, vs)
    else none
  | _ => none

end XwpServer
