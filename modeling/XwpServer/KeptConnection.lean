/-
  XwpServer.KeptConnection

  Requests on a connection that is kept.

  The client sends a request when it has the whole response to the one before, and what is
  left of a request on the socket is read as the beginning of the next head.  As long as
  every request is read to its end, or the connection closed, the heads that are parsed
  are the heads that were sent, one by one (`requests_inSync`).  The body of a `HEAD`
  request is never read, so its bytes are taken for a head.
-/

import XwpServer.Serving
import XwpServer.DeclaredLength
import XwpServer.AbsentFields
import XwpServer.StrInvariant

namespace XwpServer

open CString Transition FirstMatch

/-! ## Requests of a client -/

/-- The value is the number `n`; white space may follow it. -/
def IsLength (v : List Byte) (n : Nat) : Prop :=
  IsDecimal (v.rdropWhile isspace) ∧ decVal (v.rdropWhile isspace) = n

def HeaderField.isContentLength (f : HeaderField) : Bool :=
  strcasecmpEq f.name (bytes "Content-Length")

/-- The headers say that `n` bytes of a body follow. -/
def DeclaresLength (fs : List HeaderField) (n : Nat) : Prop :=
  (∀ f ∈ fs, f.isContentLength = true → IsLength f.value n) ∧
    (fs.any HeaderField.isContentLength = false → n = 0)

/-- A request, and the pieces in which it arrives. -/
structure ClientRequest where
  head : WellFormedHead
  body : List Byte
  declares : DeclaresLength head.fields body.length
  pieces : List (List Byte)
  cutting : IsCutting (head.bytes ++ body) pieces

/-- `headers_in.content_len` for the head: `http_header_str` stops at a name that begins with
    the one it looks for, and `http_header_set` has put there what it has taken for the same. -/
def WellFormedHead.contentLen (w : WellFormedHead) : Int :=
  match (puts nameHits (isNamed (CString.bytes "Content-Length"))
      (w.fields.map fun f => ((f.name, f.name.length), f.value))).getLast? with
  | none => 0
  | some v => max 0 (atoi v)

namespace ClientRequest

variable (conf : Conf) (q : ClientRequest)

/-- The head fits into the header buffer; no piece is longer than the space that is left when
    it is received. -/
def HeadFits : Prop :=
  ∀ i < q.pieces.length, (q.pieces.take i).flatten.length < q.head.bytes.length →
    (q.pieces.take (i + 1)).flatten.length ≤ conf.clientHeaderSize

/-- The piece that ends the head is the last one. -/
def ArrivesWithHead : Prop :=
  ∀ i < q.pieces.length, (q.pieces.take i).flatten.length < q.head.bytes.length

/-- The method has its body read, and the length that is read is not less than the length of
    the body, or is above the limit. -/
def BodyRead : Prop :=
  q.head.method ≠ .head ∧
    ((q.body.length : Int) ≤ q.head.contentLen ∨
      0 < q.head.contentLen ∧ conf.maxContentLen < q.head.contentLen)

/-- Nothing of the request is left on the socket of a connection that is kept. -/
structure ReadWhole : Prop where
  head : q.HeadFits conf
  body : q.BodyRead conf ∨ q.ArrivesWithHead

instance : Decidable (q.HeadFits conf) := inferInstanceAs (Decidable (∀ i < _, _))

instance : Decidable q.ArrivesWithHead := inferInstanceAs (Decidable (∀ i < _, _))

instance : Decidable (q.BodyRead conf) := inferInstanceAs (Decidable (_ ∧ _))

instance : Decidable (q.ReadWhole conf) :=
  decidable_of_iff (q.HeadFits conf ∧ (q.BodyRead conf ∨ q.ArrivesWithHead))
    ⟨fun ⟨h, hb⟩ => ⟨h, hb⟩, fun ⟨h, hb⟩ => ⟨h, hb⟩⟩

end ClientRequest

/-! ## Ordinary requests -/

theorem atoi_of_isLength {v : List Byte} {n : Nat} (hv : IsLength v n) (hn : n < 2 ^ 31) :
    atoi v = n := by
  obtain ⟨⟨hne, hdigits⟩, hval⟩ := hv
  have hsplit : v = v.rdropWhile isspace ++ (v.reverse.takeWhile isspace).reverse := by
    rw [List.rdropWhile, ← List.reverse_append, List.takeWhile_append_dropWhile, List.reverse_reverse]
  have hspace : ∀ c ∈ (v.reverse.takeWhile isspace).reverse.head?, isdigit c = false := by
    intro c hc
    have hmem := List.mem_reverse.mp (List.mem_of_mem_head? hc)
    exact isdigit_of_isspace (List.mem_takeWhile_imp hmem)
  have hmin : min (2 ^ 63 - 1) (n : Int) = n := by omega
  rw [hsplit, atoi_digits_append hne hdigits hspace, hval, hmin]
  exact toInt32_of_lt (by omega) (by omega)

/-- No field but `Content-Length` has a name that begins with it or begins it. -/
def LengthApart (fs : List HeaderField) : Prop :=
  ∀ f ∈ fs, f.isContentLength = false →
    ¬ (bytes "Content-Length").map tolower <+: f.name.map tolower ∧
      ¬ f.name.map tolower <+: (bytes "Content-Length").map tolower

namespace ClientRequest

/-- The length that is read for such a request is the length of its body. -/
theorem contentLen_eq {q : ClientRequest} (hapart : LengthApart q.head.fields)
    (hlen : q.body.length < 2 ^ 31) : q.head.contentLen = q.body.length := by
  have hname : NUL ∉ CString.bytes "Content-Length" := by decide
  have hisLength : ∀ f : HeaderField, f.isContentLength = true ↔
      f.name.map tolower = (CString.bytes "Content-Length").map tolower := by
    intro f
    rw [HeaderField.isContentLength, strcasecmpEq, beq_iff_eq]
  unfold WellFormedHead.contentLen
  split
  · next hnone =>
    -- no field at all
    have hnil := List.getLast?_eq_none_iff.mp hnone
    have hany : q.head.fields.any HeaderField.isContentLength = false := by
      rw [List.any_eq_false]
      intro f hf hlength
      have hnamed : isNamed (CString.bytes "Content-Length") (f.name, f.name.length) = true := by
        have heq := (hisLength f).mp hlength
        rw [isNamed_iff hname]
        exact heq ▸ List.prefix_rfl
      exact not_of_puts_nil hnil (List.mem_map_of_mem hf) hnamed
    rw [q.declares.2 hany]
    rfl
  · next v hv =>
    obtain ⟨p, hp, hnamed, g, hg, rfl, hhits⟩ := mem_puts (List.mem_of_getLast? hv)
    obtain ⟨f, hf, rfl⟩ := List.mem_map.mp hp
    obtain ⟨f', hf', rfl⟩ := List.mem_map.mp hg
    rw [isNamed_iff hname] at hnamed
    have hlength : f.isContentLength = true := by
      by_contra hno
      exact (hapart f hf (by simpa using hno)).1 hnamed
    -- the name of the field that gave the value begins the name of the one that is found
    have hlength' : f'.isContentLength = true := by
      rcases hhits with heq | hhits
      · rw [hisLength, ← (hisLength f).mp hlength]
        exact congrArg (fun x : NameKey × List Byte => x.1.1.map tolower) heq
      · by_contra hno
        have hz : NUL ∉ f'.name := fun h => (f'.name_bytes _ h).2.2 rfl
        have hpre := ((nameHits_iff ⟨rfl, hz⟩ _).mp hhits).map tolower
        rw [(hisLength f).mp hlength] at hpre
        exact (hapart f' hf' (by simpa using hno)).2 hpre
    rw [atoi_of_isLength (q.declares.1 f' hf' hlength') hlen]
    omega

theorem bodyRead_of_apart {conf : Conf} {q : ClientRequest} (hmethod : q.head.method ≠ .head)
    (hapart : LengthApart q.head.fields) (hlen : q.body.length < 2 ^ 31) : q.BodyRead conf :=
  ⟨hmethod, .inl (Int.le_of_eq (contentLen_eq hapart hlen).symm)⟩

end ClientRequest

/-! ## The connection and its client -/

/-- A head that `http_parse_header_line` has come to the end of. -/
structure HeadRead where
  pairs : List (Str × Str)
  r : HttpRequest
  io : Io

/-- `connection_run`, the requests its client has sent, and the heads that were parsed. -/
structure KeptConnection where
  serving : Serving
  before : List ClientRequest := []
  current : ClientRequest
  heads : List HeadRead := []

inductive KeptMove where
  /-- A move of the server. -/
  | server (m : ServingMove)
  /-- The response has been sent and the connection is kept; the client sends its next
      request. -/
  | client (q : ClientRequest) (errno : Errno) (sends : List SendEvent)

/-- A response is to be sent, and the connection to be kept behind it. -/
def HttpRequest.isKept (r : HttpRequest) : Bool :=
  match roundAnswer r with
  | .ok (some r) => r.keepAlive
  | _ => false

namespace KeptConnection

/-- The connection with its first request. -/
def start (q : ClientRequest) (errno : Errno) (sends : List SendEvent) : KeptConnection where
  serving := Serving.start { errno := errno, recvs := q.pieces.map .data, sends := sends }
  current := q

/-- The requests in the order in which they were sent. -/
def sent (s : KeptConnection) : List ClientRequest := s.before ++ [s.current]

/-- The head that a move comes to the end of. -/
def headRead (conf : Conf) : Serving → ServingMove → Option HeadRead
  | .round s, .round .next =>
    if s.pc = .headerLine then
      match httpHeaderLoop conf .request s.r s.io with
      | .ret (true, r, io) => some ⟨handedPairs conf s.r s.io, r, io⟩
      | _ => none
    else none
  | _, _ => none

def step (conf : Conf) (s : KeptConnection) : KeptMove → Option KeptConnection
  | .server (.round (.again _)) => none
  | .server m =>
    (s.serving.step conf m).map fun t =>
      { s with serving := t, heads := s.heads ++ (headRead conf s.serving m).toList }
  | .client q errno sends =>
    match s.serving with
    | .responded ok t =>
      -- what has not been read of the old request is in front of the new one
      let recvs := t.io.recvs ++ q.pieces.map .data
      let io := { t.io with errno := errno, sends := sends, recvs := recvs }
      ((Serving.responded ok t).step conf (.round (.again io))).map fun u =>
        { s with serving := u, before := s.before ++ [s.current], current := q }
    | _ => none

/-- The `k`-th head is that of the `k`-th request, and what is read for a head is the request
    that was sent last. -/
structure InSync (s : KeptConnection) : Prop where
  heads : ∀ (k : Nat) (h : HeadRead), s.heads[k]? = some h →
    ∃ q, s.sent[k]? = some q ∧ q.head.ParsedTo q.body h.pairs h.r h.io
  stream : ∀ t, s.serving = .round t → t.pc = .requestLine →
    t.io.recvs = s.current.pieces.map .data

/-- The request is read to its end; when `100 Continue` cannot be written its body is not read
    at all, so it has to have arrived. -/
def ReadsWhole (conf : Conf) (s : KeptConnection) : Prop :=
  match s.serving with
  | .round t => s.current.ReadWhole conf ∧ (t.ContinueFails conf → s.current.ArrivesWithHead)
  | _ => True

instance (conf : Conf) (s : KeptConnection) : Decidable (s.ReadsWhole conf) := by
  unfold ReadsWhole
  split <;> infer_instance

end KeptConnection

/-! ## What is left of a request -/

/-- What the parsed head of a request leaves: the bytes of its body are in the header buffer,
    or still to be received. -/
structure ClientRequest.HeadLeft (q : ClientRequest) (pairs : List (Str × Str)) (r : HttpRequest)
    (io : Io) : Prop where
  parsed : q.head.ParsedTo q.body pairs r io
  rest : ∃ rest, io.recvs = rest.map .data ∧ rest <:+ q.pieces ∧
    q.body = (r.buf r.headerBuf).unread ++ rest.flatten
  lt : r.headerBuf < r.bufs.length
  valid : (r.buf r.headerBuf).Valid

theorem headBuf_valid {cap : Nat} {done t : List Byte} (hcap : cap < 2 ^ 31)
    (hfit : done.length + t.length ≤ cap) : (headBuf cap done t done.length).Valid where
  pos_le := Nat.le_add_right _ _
  last_le := hfit
  end_le := by
    simp only [headBuf, List.length_append, List.length_replicate]
    omega
  end_lt := hcap

section Left

variable {conf : Conf} {q : ClientRequest} {r r' : HttpRequest} {io io' : Io}

theorem ClientRequest.HeadFits.headLeft (hfit : q.HeadFits conf) (hr : r.HeadReady .request)
    (hio : io.recvs = q.pieces.map .data) :
    ∃ r₁ io₁ r₂ io₂, httpProcessRequestLine conf r io = .ret (true, r₁, io₁) ∧
      httpHeaderLoop conf .request r₁ io₁ = .ret (true, r₂, io₂) ∧
      q.HeadLeft (handedPairs conf r₁ io₁) r₂ io₂ := by
  obtain ⟨ps₁, ps₂, b₁, hps, hlen, hb₁, hbody⟩ := q.head.exists_pieces q.cutting.2 hfit
  obtain ⟨r₁, io₁, r₂, io₂, rest, done, t, hfirst, hloop, hparsed, hrest, hsuffix, hlt, hbuf, hcap⟩ :=
    q.head.pieces_parsed hr (fun p hp => q.cutting.1 p (by simp [hps, hp])) hlen hb₁
      (by rw [hio, hps])
  refine ⟨r₁, io₁, r₂, io₂, hfirst, hloop, ?_⟩
  have hsize := conf.clientHeaderSize_lt
  obtain ⟨rest', hrest', hunread⟩ := hparsed.rest
  have hsame : rest' = rest :=
    List.map_injective_iff.mpr (fun _ _ h => RecvEvent.data.inj h) (hrest'.symm.trans hrest)
  exact {
    parsed := by rw [hbody]; exact hparsed
    rest := ⟨rest, hrest, by rw [hps]; exact hsuffix, by rw [hbody, hunread, hsame]⟩
    lt := hlt
    valid := by rw [hbuf]; exact headBuf_valid (by omega) hcap }

/-- The pieces behind the head are none when it ends the last one. -/
theorem ClientRequest.rest_eq_nil {rest : List (List Byte)} {unread : List Byte}
    (hsuffix : rest <:+ q.pieces) (hbody : q.body = unread ++ rest.flatten)
    (harrives : q.ArrivesWithHead) : rest = [] := by
  obtain ⟨a, ha⟩ := hsuffix
  by_contra hne
  have hpos := List.length_pos_of_ne_nil hne
  have htake : q.pieces.take a.length = a := by rw [← ha, List.take_left]
  have hshort := harrives a.length (by rw [← ha, List.length_append]; omega)
  rw [htake] at hshort
  -- what is in front of the rest is the head and the unread bytes
  have hlens := congrArg List.length q.cutting.2
  rw [← ha, hbody] at hlens
  simp only [List.flatten_append, List.length_append] at hlens
  omega

/-- Pieces without bytes are no pieces. -/
theorem ClientRequest.rest_eq_nil_of_flatten {rest : List (List Byte)}
    (hsuffix : rest <:+ q.pieces) (h : rest.flatten = []) : rest = [] := by
  rcases rest with _ | ⟨p, rest⟩
  · rfl
  · have hp := List.flatten_eq_nil_iff.mp h p (by simp)
    exact absurd hp (q.cutting.1 p (hsuffix.subset (by simp)))

/-- A status from 400 on closes the connection, unless the response has a body. -/
theorem HttpRequest.not_isKept (hstatus : HTTP_STATUS_BAD_REQUEST ≤ r.status)
    (hbody : r.bodyOut.contentLen ≤ 0) : r.isKept = false := by
  have hspecial : HTTP_STATUS_SPECIAL_RESPONSE ≤ r.status :=
    Int.le_trans (by decide) hstatus
  unfold isKept roundAnswer
  split
  next r' hr =>
    split at hr
    · cases hr
    rw [connectionSpecialResponse, if_neg (by omega)] at hr
    cases hpage : httpErrorPage r.status none with
    | error e =>
        rw [hpage] at hr
        cases hr
    | ok page =>
        rw [hpage] at hr
        cases page with
        | none =>
            simp only [bind, Except.bind, pure, Except.pure, Except.map, hstatus, if_true,
              Except.ok.injEq, Option.some.injEq] at hr
            rw [← hr]
        | some page =>
            have hstatus' : HTTP_STATUS_BAD_REQUEST ≤ (withPage r page).status := hstatus
            simp only [bind, Except.bind, pure, Except.pure, Except.map, hstatus', if_true,
              Except.ok.injEq, Option.some.injEq] at hr
            rw [← hr]
  · rfl

/-- Sending a response changes neither `keep_alive` nor what is to be received. -/
theorem sendBody_keeps {file : SentFile} {ok : Bool}
    (h : sendBody r io file = .ret (ok, r', io')) :
    r'.keepAlive = r.keepAlive ∧ io'.recvs = io.recvs := by
  simp only [sendBody] at h
  split at h
  · cases h
  split at h
  · split at h
    · cases h
      exact ⟨rfl, rfl⟩
    split at h
    · cases h
    · cases h
      exact ⟨rfl, rfl⟩
  split at h
  · cases h
    exact ⟨rfl, rfl⟩
  split at h
  · cases h
  obtain ⟨⟨ok', io''⟩, hw, hret⟩ := Outcome.bind_eq_ret.mp h
  cases hret
  exact ⟨rfl, nwrite_recvs hw⟩

theorem sendResponse_keeps {file : SentFile} {ok : Bool}
    (h : sendResponse r io file = .ret (ok, r', io')) :
    r'.keepAlive = r.keepAlive ∧ io'.recvs = io.recvs := by
  simp only [sendResponse, connectionSendResponse] at h
  split at h
  · cases h
  split at h
  · cases h
  obtain ⟨⟨ok', io''⟩, hw, hret⟩ := Outcome.bind_eq_ret.mp h
  cases ok' with
  | false =>
      cases hret
      exact ⟨rfl, nwrite_recvs hw⟩
  | true =>
      obtain ⟨hkeep, hrecvs⟩ := sendBody_keeps hret
      exact ⟨hkeep, hrecvs.trans (nwrite_recvs hw)⟩

theorem HttpRequest.not_isKept_close (hstatus : r.status = HTTP_STATUS_CLOSE) :
    r.isKept = false := by
  rw [isKept, roundAnswer, if_pos hstatus]

/-! ## The header lines -/

/-- What is found under `Content-Length`, by the texts of the fields. -/
theorem contentLen_read {w : WellFormedHead} {pairs : List (Str × Str)} {n : Int}
    (hof : HeadersOf r pairs)
    (htexts : pairs.map (fun p => (r.text p.1, r.text p.2))
      = w.fields.map fun f => ((some f.name, f.name.length), (some f.value, f.value.length)))
    (hn : httpHeaderInt r.toHeap r.headersIn.headers HTTP_HEADER_CONTENT_LEN = some n) :
    (if n < 0 then 0 else n) = w.contentLen := by
  have hputs : (r.toHeap.headerPuts "Content-Length" pairs).map (fun v => r.toHeap.cstr v.data)
      = (puts nameHits (isNamed (bytes "Content-Length"))
          (w.fields.map fun f => ((f.name, f.name.length), f.value))).map some := by
    rw [Heap.headerPuts, ← puts_map, ← puts_map, List.map_map, List.map_map]
    have hkeys := congrArg (List.map fun x : (Option (List Byte) × Nat) × (Option (List Byte) × Nat) =>
      (((x.1.1.getD [], x.1.2) : NameKey), x.2.1)) htexts
    simp only [List.map_map] at hkeys
    exact congrArg (puts nameHits (isNamed (bytes "Content-Length"))) hkeys
  have hlast := congrArg List.getLast? hputs
  rw [List.getLast?_map, List.getLast?_map] at hlast
  have hstr : httpHeaderStr r.toHeap r.headersIn.headers HTTP_HEADER_CONTENT_LEN
      = (r.toHeap.headerPuts "Content-Length" pairs).getLast? := by
    rw [hof.headers]
    exact httpHeaderStr_setAll (by decide) (keyed_ends hof.names)
  rw [httpHeaderInt, hstr] at hn
  unfold WellFormedHead.contentLen
  -- a field is found among the texts exactly if its string is found among the strings
  cases hv : (r.toHeap.headerPuts "Content-Length" pairs).getLast? with
  | none =>
      rw [hv] at hlast hn
      rw [Option.map_none, eq_comm, Option.map_eq_none_iff] at hlast
      rw [hlast]
      cases hn
      rfl
  | some v =>
      rw [hv] at hlast hn
      rw [Option.map_some, eq_comm, Option.map_eq_some_iff] at hlast
      obtain ⟨text, htext, hcstr⟩ := hlast
      rw [htext]
      simp only [← hcstr, Option.map_some, Option.some.injEq] at hn
      dsimp only
      rw [← hn]
      split <;> omega

/-- What the header lines leave of a request whose body is read next. -/
structure ClientRequest.BodyLeft (q : ClientRequest) (r : HttpRequest) (io : Io) : Prop where
  method : r.method = q.head.method
  contentLen : r.headersIn.contentLen = q.head.contentLen
  rest : ∃ rest, io.recvs = rest.map .data ∧ rest <:+ q.pieces ∧
    q.body = (r.buf r.headerBuf).unread ++ rest.flatten
  lt : r.headerBuf < r.bufs.length
  valid : (r.buf r.headerBuf).Valid
  bodyIn : r.bodyIn = {}
  bodyOut : r.bodyOut = {}

theorem ClientRequest.HeadLeft.headersDone {r₀ r₁ r₂ : HttpRequest} {io₀ io₁ io₂ : Io} {ok : Bool}
    (hleft : q.HeadLeft (handedPairs conf r₁ io₁) r₂ io₂) (hr : r₀.HeadReady .request)
    (hfirst : httpProcessRequestLine conf r₀ io₀ = .ret (true, r₁, io₁))
    (hin : r₁.bodyIn = {}) (hout : r₁.bodyOut = {})
    (hloop : httpHeaderLoop conf .request r₁ io₁ = .ret (true, r₂, io₂))
    (h : httpProcessHeaderLine conf .request r₁ io₁ = .ret (ok, r', io')) :
    io'.recvs = io₂.recvs ∧ (ok = true → q.BodyLeft r' io') := by
  obtain ⟨hfill, hexpect⟩ := headersDone_request (headersDone_of_loop hloop h)
  have hrecvs := answerExpect_recvs hexpect
  refine ⟨hrecvs, ?_⟩
  rintro rfl
  obtain ⟨hof, -, -⟩ := httpProcessHeaderLine_headersOf hr hfirst h
  -- the loop writes to neither body
  have hkeep : r₂.bodyIn = r₁.bodyIn ∧ r₂.bodyOut = r₁.bodyOut := by
    unfold httpHeaderLoop at hloop
    split at hloop
    · cases hloop
    have hkeep := processLines_keep hloop (fun q => (q.bodyIn, q.bodyOut)) fun _ _ _ _ => rfl
    exact Prod.mk.inj hkeep
  obtain ⟨n, hn, rfl⟩ := HttpRequest.fillHeadersIn_eq_some hfill
  exact {
    method := hleft.parsed.method
    contentLen := contentLen_read hof hleft.parsed.texts hn
    rest := by rw [hrecvs]; exact hleft.rest
    lt := hleft.lt
    valid := hleft.valid
    bodyIn := hkeep.1.trans hin
    bodyOut := hkeep.2.trans hout }

/-! ## The body -/

theorem WellFormedHead.contentLen_bounds (w : WellFormedHead) :
    0 ≤ w.contentLen ∧ w.contentLen < 2 ^ 31 := by
  unfold contentLen
  split
  · decide
  · next v _ =>
    have hlt : atoi v < 2 ^ 31 := by
      unfold atoi toInt32
      exact Int.bmod_lt (m := 2 ^ 32) (by decide)
    omega

/-- A body that is read leaves nothing of its request on the socket of a connection that goes
    on. -/
theorem ClientRequest.BodyLeft.read {ok : Bool} (hleft : q.BodyLeft r io)
    (hread : q.BodyRead conf ∨ q.ArrivesWithHead)
    (h : httpProcessContentBody conf .request r.headersIn.contentLen r io = .ret (ok, r', io')) :
    (r'.isKept = true → io'.recvs = []) ∧
      (r'.status < HTTP_STATUS_SPECIAL_RESPONSE → io'.recvs = []) := by
  obtain ⟨rest, hrest, hsuffix, hbody⟩ := hleft.rest
  have hstate : r.state = .headerLine := by
    by_contra hstate
    rw [httpProcessContentBody, if_pos hstate] at h
    cases h
  rcases hread with ⟨hmethod, hlen⟩ | harrives
  case inr =>
    -- there is nothing to receive
    have hnil : io'.recvs = [] := by
      have hsub := httpProcessContentBody_suffix h
      rw [hrest, q.rest_eq_nil hsuffix hbody harrives] at hsub
      exact List.suffix_nil.mp hsub
    exact ⟨fun _ => hnil, fun _ => hnil⟩
  have hhead : r.method ≠ .head := by
    rw [hleft.method]
    exact hmethod
  have hbounds := q.head.contentLen_bounds
  have hbodyLen := congrArg List.length hbody
  rw [List.length_append] at hbodyLen
  rw [hleft.contentLen] at h
  -- no body, one of the length, or one that is too long
  by_cases hzero : q.head.contentLen = 0
  · rw [hzero, httpProcessContentBody_empty hstate hhead] at h
    cases h
    have hnil : io.recvs = [] := by
      have hflat : rest.flatten = [] := List.length_eq_zero_iff.mp (by omega)
      rw [hrest, q.rest_eq_nil_of_flatten hsuffix hflat]
      rfl
    exact ⟨fun _ => hnil, fun _ => hnil⟩
  by_cases hmax : q.head.contentLen ≤ conf.maxContentLen
  case neg =>
    rw [httpProcessContentBody_tooLarge hstate hhead (by omega) (by omega)] at h
    cases h
    refine ⟨fun hkept => ?_, fun hlt => by cases hlt⟩
    rw [HttpRequest.not_isKept (Int.le_refl _) (by rw [hleft.bodyOut])] at hkept
    cases hkept
  rw [httpProcessContentBody_ofLength hstate hhead (by omega) hmax] at h
  by_cases hgrant : r.toHeap.GrantsBody q.head.contentLen.toNat
  case neg =>
    -- there is no buffer for the body
    have hbodyOut : r'.bodyOut.contentLen ≤ 0 := by
      obtain ⟨e, w, recvs, -, -, rfl, -⟩ := bodyOfLength_ret h
      show r.bodyOut.contentLen ≤ 0
      rw [hleft.bodyOut]
    have hstatus := (bodyOfLength_refused (r := { r with state := .contentBody }) hgrant h).2
    refine ⟨fun hkept => ?_, fun hlt => ?_⟩
    · rw [HttpRequest.not_isKept (by rw [hstatus]; decide) hbodyOut] at hkept
      cases hkept
    · rw [hstatus] at hlt
      cases hlt
  rcases bodyOfLength_cases (r := { r with state := .contentBody }) hgrant h with
    ⟨rfl, -⟩ | ⟨-, hclose, -⟩
  · have hfd : (HttpRequest.body { r with state := .contentBody } .request).contentFd < 0 := by
      show r.bodyIn.contentFd < 0
      rw [hleft.bodyIn]
      decide
    obtain ⟨used, b, hes, -, -, -, hle⟩ :=
      (bodyOfLength_bytes hfd hleft.lt hleft.valid).2 r' io' h
    rw [hrest] at hes
    obtain ⟨ps₁, ps₂, rfl, rfl, hps₂⟩ := List.map_eq_append_iff.mp hes
    rw [recvBytes_map_data, List.length_append] at hle
    rw [List.flatten_append, List.length_append] at hbodyLen
    have hnil : io'.recvs = [] := by
      have hflat : ps₂.flatten = [] := by
        apply List.length_eq_zero_iff.mp
        dsimp only at hle
        omega
      rw [← hps₂, q.rest_eq_nil_of_flatten ((List.suffix_append _ _).trans hsuffix) hflat]
      rfl
    exact ⟨fun _ => hnil, fun _ => hnil⟩
  · refine ⟨fun hkept => ?_, fun hlt => ?_⟩
    · rw [HttpRequest.not_isKept_close hclose] at hkept
      cases hkept
    · rw [hclose] at hlt
      cases hlt

end Left

/-! ## The rounds -/

namespace KeptConnection

/-- What is left of a request when a call is made, and how many heads the round has parsed. -/
def Left (conf : Conf) (q : ClientRequest) (n : Nat) (t : Round) : Prop :=
  match t.pc with
  | .requestLine => n = 0 ∧ t.r = {} ∧ t.io.recvs = q.pieces.map .data
  | .headerLine =>
    n = 0 ∧ t.r.bodyIn = {} ∧ t.r.bodyOut = {} ∧
      ∃ r₀ io₀ r₂ io₂, r₀.HeadReady .request ∧
        httpProcessRequestLine conf r₀ io₀ = .ret (true, t.r, t.io) ∧
        httpHeaderLoop conf .request t.r t.io = .ret (true, r₂, io₂) ∧
        q.HeadLeft (handedPairs conf t.r t.io) r₂ io₂
  | .contentBody => n = 1 ∧ q.BodyLeft t.r t.io
  | .answer => t.r.isKept = true → n = 1 ∧ t.io.recvs = []
  | .left => True
  | _ => n = 1 ∧ t.io.recvs = []

section Left

variable {conf : Conf} {q : ClientRequest} {n : Nat} {t t' : Round}

theorem headRead_next (hpc : t.pc ≠ .headerLine) :
    headRead conf (.round t) (.round .next) = none := if_neg hpc

/-- The head that a round comes to the end of is the one of its request. -/
theorem Left.headRead (hl : Left conf q n t) {m : ServingMove} {h : HeadRead}
    (hread : headRead conf (.round t) m = some h) :
    n = 0 ∧ q.head.ParsedTo q.body h.pairs h.r h.io := by
  unfold KeptConnection.headRead at hread
  split at hread
  case h_2 => cases hread
  next t heq =>
  cases heq
  split at hread
  case isFalse => cases hread
  next hpc =>
  simp only [Left, hpc] at hl
  obtain ⟨hn, -, -, r₀, io₀, r₂, io₂, -, -, hloop, hleft⟩ := hl
  rw [hloop] at hread
  cases hread
  exact ⟨hn, hleft.parsed⟩

theorem left_dispatch {r : HttpRequest} {io : Io} {t : Round} (hpc : t.pc = dispatchPc r)
    (hr : t.r = r) (hio : t.io = io)
    (hkept : r.isKept = true → io.recvs = [])
    (hlow : r.status < HTTP_STATUS_SPECIAL_RESPONSE → io.recvs = []) : Left conf q 1 t := by
  subst hr hio
  unfold dispatchPc at hpc
  split at hpc
  · simp only [Left, hpc]
    exact fun h => ⟨trivial, hkept h⟩
  · next hlt =>
    simp only [Left, hpc]
    exact ⟨trivial, hlow (by omega)⟩

/-- The next call of a round. -/
theorem Left.next (hl : Left conf q n t) (hq : q.ReadWhole conf)
    (hcontinue : t.ContinueFails conf → q.ArrivesWithHead) (h : t.step conf .next = some t') :
    Left conf q (n + (KeptConnection.headRead conf (.round t) (.round .next)).toList.length) t' := by
  simp only [Round.step] at h
  split at h
  case h_1 hpc =>
    simp only [Left, hpc] at hl
    obtain ⟨rfl, hr, hio⟩ := hl
    obtain ⟨ok, r, io, hcall, rfl⟩ := Round.call_eq_some h
    have hready : t.r.HeadReady .request := by
      rw [hr]
      exact ⟨rfl, rfl, rfl⟩
    obtain ⟨r₁, io₁, r₂, io₂, hfirst, hloop, hleft⟩ := hq.head.headLeft hready hio
    have hfirst' := hfirst
    rw [hcall, Outcome.ret.injEq, Prod.mk.injEq, Prod.mk.injEq] at hfirst'
    obtain ⟨rfl, rfl, rfl⟩ := hfirst'
    rw [headRead_next (by rw [hpc]; decide)]
    have hkeep : r.bodyIn = t.r.bodyIn ∧ r.bodyOut = t.r.bodyOut := by
      unfold httpProcessRequestLine at hcall
      split at hcall
      · cases hcall
      exact Prod.mk.inj (processLines_keep hcall (fun q => (q.bodyIn, q.bodyOut)) fun _ _ _ _ => rfl)
    exact ⟨rfl, hkeep.1.trans (by rw [hr]), hkeep.2.trans (by rw [hr]), t.r, t.io, r₂, io₂, hready,
      hfirst, hloop, hleft⟩
  case h_2 hpc =>
    simp only [Left, hpc] at hl
    obtain ⟨rfl, hin, hout, r₀, io₀, r₂, io₂, hready, hfirst, hloop, hleft⟩ := hl
    obtain ⟨ok, r, io, hcall, rfl⟩ := Round.call_eq_some h
    have hread : KeptConnection.headRead conf (.round t) (.round .next)
        = some ⟨handedPairs conf t.r t.io, r₂, io₂⟩ := by
      simp only [KeptConnection.headRead, hpc, if_true, hloop]
    rw [hread]
    obtain ⟨hrecvs, hbody⟩ := hleft.headersDone hready hfirst hin hout hloop hcall
    cases ok with
    | true => exact ⟨rfl, hbody rfl⟩
    | false =>
        -- what failed is the write of `100 Continue`; the body is not read any more
        have hfails : t.ContinueFails conf :=
          Round.continueFails_of_loop hpc hloop (headersDone_of_loop hloop hcall)
        obtain ⟨rest, hrest, hsuffix, hunread⟩ := hleft.rest
        have hnil : io.recvs = [] := by
          rw [hrecvs, hrest, q.rest_eq_nil hsuffix hunread (hcontinue hfails)]
          rfl
        exact left_dispatch rfl rfl rfl (fun _ => hnil) fun _ => hnil
  case h_3 hpc =>
    simp only [Left, hpc] at hl
    obtain ⟨rfl, hleft⟩ := hl
    obtain ⟨ok, r, io, hcall, rfl⟩ := Round.call_eq_some h
    obtain ⟨hkept, hlow⟩ := hleft.read hq.body hcall
    rw [headRead_next (by rw [hpc]; decide)]
    exact left_dispatch rfl rfl rfl hkept hlow
  -- the calls for the reply do not touch the client's socket
  case h_4 hpc =>
    simp only [Left, hpc] at hl
    obtain ⟨ok, r, io, hcall, rfl⟩ := Round.call_eq_some h
    rw [headRead_next (by rw [hpc]; decide)]
    cases ok with
    | true => exact hl
    | false => exact fun _ => hl
  case h_5 hpc =>
    simp only [Left, hpc] at hl
    obtain ⟨ok, r, io, hcall, rfl⟩ := Round.call_eq_some h
    rw [headRead_next (by rw [hpc]; decide)]
    cases ok with
    | true => exact hl
    | false => exact fun _ => hl
  case h_6 hpc =>
    simp only [Left, hpc] at hl
    obtain ⟨ok, r, io, hcall, rfl⟩ := Round.call_eq_some h
    rw [headRead_next (by rw [hpc]; decide)]
    exact fun _ => hl
  case h_7 => cases h

theorem Left.step (hl : Left conf q n t) (hq : q.ReadWhole conf)
    (hcontinue : t.ContinueFails conf → q.ArrivesWithHead) {m : RoundMove}
    (hm : ∀ io, m ≠ .again io) (h : t.step conf m = some t') :
    Left conf q (n + (KeptConnection.headRead conf (.round t) (.round m)).toList.length) t' := by
  cases m with
  | next => exact hl.next hq hcontinue h
  | upstream backend =>
      simp only [Round.step] at h
      split_ifs at h with hpc
      cases h
      simp only [Left, hpc] at hl
      exact hl
  | handled status =>
      simp only [Round.step] at h
      split_ifs at h with hpc
      cases h
      simp only [Left, hpc] at hl
      exact fun _ => hl
  | again io => exact absurd rfl (hm io)
  | leave =>
      simp only [Round.step] at h
      split_ifs at h
      cases h
      trivial

/-! ## The responses -/

/-- What is left of a request in `connection_run`. -/
def LeftServing (conf : Conf) (q : ClientRequest) (n : Nat) : Serving → Prop
  | .round t => Left conf q n t
  | .responding t => t.r.keepAlive = true → n = 1 ∧ t.io.recvs = []
  | .responded _ t => t.r.keepAlive = true → n = 1 ∧ t.io.recvs = []
  | .aborted _ => True

theorem LeftServing.headRead {s : Serving} (hl : LeftServing conf q n s) {m : ServingMove}
    {h : HeadRead} (hread : KeptConnection.headRead conf s m = some h) :
    n = 0 ∧ q.head.ParsedTo q.body h.pairs h.r h.io := by
  cases s with
  | round t => exact Left.headRead hl hread
  | responding t => cases hread
  | responded ok t => cases hread
  | aborted e => cases hread

/-- A move in a round. -/
theorem Left.serving {s : Serving} (hl : Left conf q n t) (hq : q.ReadWhole conf)
    (hcontinue : t.ContinueFails conf → q.ArrivesWithHead) {m : ServingMove}
    (hm : ∀ io, m ≠ .round (.again io)) (h : (Serving.round t).step conf m = some s) :
    LeftServing conf q (n + (KeptConnection.headRead conf (.round t) m).toList.length) s := by
  cases m with
  | round m =>
      simp only [Serving.step] at h
      split_ifs at h
      obtain ⟨t', hst, rfl⟩ := Option.map_eq_some_iff.mp h
      exact hl.step hq hcontinue (fun io he => hm io (by rw [he])) hst
  | served root fs =>
      simp only [Serving.step] at h
      split_ifs at h with hpc
      simp only [Left, hpc] at hl
      obtain ⟨x, -, rfl⟩ := Option.map_eq_some_iff.mp h
      exact fun _ => hl
  | timedOut =>
      simp only [Serving.step] at h
      split_ifs at h
      cases h
      trivial
  | special =>
      simp only [Serving.step] at h
      split_ifs at h with hpc
      simp only [Left, hpc] at hl
      split at h
      · cases h
        trivial
      · cases h
        trivial
      · next r hr =>
        cases h
        -- the request whose response is sent says whether the connection is kept
        have hkept : t.r.isKept = r.keepAlive := by rw [HttpRequest.isKept, hr]
        exact fun hkeep => hl (hkept.trans hkeep)
  | send file => cases h

theorem LeftServing.step {s s' : Serving} (hl : LeftServing conf q n s)
    (hq : ∀ t, s = .round t →
      q.ReadWhole conf ∧ (t.ContinueFails conf → q.ArrivesWithHead)) {m : ServingMove}
    (hm : ∀ io, m ≠ .round (.again io)) (h : s.step conf m = some s') :
    LeftServing conf q (n + (KeptConnection.headRead conf s m).toList.length) s' := by
  cases s with
  | round t => exact Left.serving hl (hq t rfl).1 (hq t rfl).2 hm h
  | aborted e => cases h
  | responding t =>
      have hnone : KeptConnection.headRead conf (.responding t) m = none := rfl
      rw [hnone]
      cases m with
      | send file =>
          simp only [Serving.step] at h
          split at h
          · next hcall =>
            cases h
            obtain ⟨hkeep, hrecvs⟩ := sendResponse_keeps hcall
            dsimp only [LeftServing]
            rw [hkeep, hrecvs]
            exact hl
          · cases h
          · split_ifs at h
            cases h
            trivial
      | round m => cases h
      | served root fs => cases h
      | timedOut => cases h
      | special => cases h
  | responded ok t =>
      have hnone : KeptConnection.headRead conf (.responded ok t) m = none := rfl
      rw [hnone]
      cases m with
      | round m =>
          cases m with
          | leave =>
              obtain ⟨t', hst, rfl⟩ := Option.map_eq_some_iff.mp h
              simp only [Round.step] at hst
              split_ifs at hst
              cases hst
              trivial
          | again io => exact absurd rfl (hm io)
          | next => cases h
          | upstream backend => cases h
          | handled status => cases h
      | served root fs => cases h
      | timedOut => cases h
      | special => cases h
      | send file => cases h

end Left

/-! ## Runs -/

/-- The heads so far are those of the requests so far, and what is left of the last one is
    what it should be. -/
structure Inv (conf : Conf) (s : KeptConnection) : Prop where
  heads : ∀ (k : Nat) (h : HeadRead), s.heads[k]? = some h →
    ∃ q, s.sent[k]? = some q ∧ q.head.ParsedTo q.body h.pairs h.r h.io
  left : ∃ n, s.heads.length = s.before.length + n ∧ LeftServing conf s.current n s.serving

theorem Inv.inSync {conf : Conf} {s : KeptConnection} (hs : s.Inv conf) : s.InSync where
  heads := hs.heads
  stream t ht hpc := by
    obtain ⟨n, -, hl⟩ := hs.left
    rw [ht] at hl
    simp only [LeftServing, Left, hpc] at hl
    exact hl.2.2

theorem inv_start (conf : Conf) (q : ClientRequest) (errno : Errno) (sends : List SendEvent) :
    (start q errno sends).Inv conf where
  heads k h hk := by cases hk
  left := ⟨0, rfl, rfl, rfl, rfl⟩

theorem Inv.server {conf : Conf} {s : KeptConnection} {u : Serving} {m : ServingMove}
    (hs : s.Inv conf) (hok : s.ReadsWhole conf) (hm : ∀ io, m ≠ .round (.again io))
    (h : s.serving.step conf m = some u) :
    Inv conf { s with serving := u, heads := s.heads ++ (headRead conf s.serving m).toList } := by
  obtain ⟨serving, before, current, heads⟩ := s
  obtain ⟨n, hn, hl⟩ := hs.left
  have hq : ∀ t, serving = .round t →
      current.ReadWhole conf ∧ (t.ContinueFails conf → current.ArrivesWithHead) := by
    rintro t rfl
    exact hok
  constructor
  · intro k p hk
    dsimp only at hk hn
    rcases Nat.lt_or_ge k heads.length with hlt | hge
    · rw [List.getElem?_append_left hlt] at hk
      exact hs.heads k p hk
    -- the new head is the one of the last request
    · rw [List.getElem?_append_right hge] at hk
      cases hread : headRead conf serving m with
      | none =>
          rw [hread] at hk
          cases hk
      | some p' =>
          rw [hread] at hk
          obtain ⟨hzero, hparsed⟩ := hl.headRead hread
          have hk0 : k - heads.length = 0 := by
            have := (List.getElem?_eq_some_iff.mp hk).1
            simp only [Option.toList_some, List.length_singleton] at this
            omega
          rw [hk0] at hk
          cases hk
          refine ⟨current, ?_, hparsed⟩
          have hkb : k = before.length := by omega
          rw [hkb, sent, List.getElem?_append_right (Nat.le_refl _), Nat.sub_self]
          rfl
  · refine ⟨_, ?_, hl.step hq hm h⟩
    dsimp only at hn ⊢
    rw [List.length_append, hn, Nat.add_assoc]

/-- The client's next request finds nothing in front of it. -/
theorem Inv.client {conf : Conf} {s : KeptConnection} {t : Round} {u : Serving} {ok : Bool}
    {q : ClientRequest} {io : Io} (hs : s.Inv conf) (ht : s.serving = .responded ok t)
    (hio : io.recvs = t.io.recvs ++ q.pieces.map .data)
    (h : (Serving.responded ok t).step conf (.round (.again io)) = some u) :
    Inv conf { s with serving := u, before := s.before ++ [s.current], current := q } := by
  obtain ⟨n, hn, hl⟩ := hs.left
  rw [ht] at hl
  simp only [Serving.step] at h
  split_ifs at h with hkept
  obtain ⟨t', hst, rfl⟩ := Option.map_eq_some_iff.mp h
  obtain ⟨rfl, hnil⟩ := hl hkept.2
  constructor
  · intro k p hk
    obtain ⟨q', hq', hparsed⟩ := hs.heads k p hk
    refine ⟨q', ?_, hparsed⟩
    have hlt := (List.getElem?_eq_some_iff.mp hq').1
    have hmore : sent { s with
        serving := .round t', before := s.before ++ [s.current], current := q } = s.sent ++ [q] := rfl
    rw [hmore, List.getElem?_append_left hlt]
    exact hq'
  · simp only [Round.step] at hst
    split_ifs at hst
    cases hst
    refine ⟨0, ?_, rfl, rfl, ?_⟩
    · dsimp only
      rw [hn, List.length_append, List.length_singleton]
    · dsimp only
      rw [hio, hnil, List.nil_append]

theorem Inv.step {conf : Conf} {s s' : KeptConnection} {m : KeptMove} (hs : s.Inv conf)
    (hok : s.ReadsWhole conf) (h : s.step conf m = some s') : s'.Inv conf := by
  unfold KeptConnection.step at h
  split at h
  · cases h
  · next m hm =>
    obtain ⟨u, hu, rfl⟩ := Option.map_eq_some_iff.mp h
    exact hs.server hok (fun io he => hm io he) hu
  · next q errno sends =>
    split at h
    · next ok t ht =>
      obtain ⟨u, hu, rfl⟩ := Option.map_eq_some_iff.mp h
      exact hs.client ht rfl hu
    · cases h

/-- In a run in which every request is read to its end, the `k`-th head that is parsed is the
    head of the `k`-th request, and no byte of a body is read for a head. -/
theorem requests_inSync {conf : Conf} {q : ClientRequest} {errno : Errno} {sends : List SendEvent}
    {s : KeptConnection}
    (h : Reaches (step conf) (fun s _ => s.ReadsWhole conf) (start q errno sends) s) :
    s.InSync := by
  have hinv : s.Inv conf :=
    h.invariant (fun s m s' hs hok hst => hs.step hok hst) (inv_start conf q errno sends)
  exact hinv.inSync

end KeptConnection

/-! ## Two runs -/

/-- A `Content-Length` header. -/
def lengthField (v : List Byte) (hne : v ≠ []) (hbytes : ∀ c ∈ v, c ≠ LF ∧ c ≠ NUL)
    (hhead : ∀ c ∈ v.head?, isspace c = false) : HeaderField where
  name := bytes "Content-Length"
  value := v
  name_ne := by decide
  name_bytes := by decide +kernel
  name_head := by decide +kernel
  name_last := by decide +kernel
  value_ne := hne
  value_bytes := hbytes
  value_head := hhead

/-- A head for `/a` with one header. -/
def headWith (me : HttpMethod) (f : HeaderField) : WellFormedHead :=
  { getHead with
    method := me
    methodToken := me.token
    methodToken_eq := beq_self_eq_true (me.token.map tolower)
    fields := [f] }

/-- A request with a body of five bytes, three of which arrive behind the head. -/
def postRequest : ClientRequest where
  head := headWith .post (lengthField (bytes "5") (by decide) (by decide +kernel) (by decide +kernel))
  body := bytes "hello"
  declares := by
    unfold DeclaresLength IsLength IsDecimal
    decide +kernel
  pieces := [
    bytes "POST /a HTTP/1.1" ++ [CR, LF] ++ bytes "Content-Length: 5" ++ [CR, LF, CR, LF]
      ++ bytes "he",
    bytes "llo"]
  cutting := by
    unfold IsCutting
    decide +kernel

/-- A `HEAD` request with a body that reads like another request. -/
def headRequest : ClientRequest where
  head := headWith .head (lengthField (bytes "19") (by decide) (by decide +kernel) (by decide +kernel))
  body := bytes "GET /b HTTP/1.1" ++ [CR, LF, CR, LF]
  declares := by
    unfold DeclaresLength IsLength IsDecimal
    decide +kernel
  pieces := [
    bytes "HEAD /a HTTP/1.1" ++ [CR, LF] ++ bytes "Content-Length: 19" ++ [CR, LF, CR, LF],
    bytes "GET /b HTTP/1.1" ++ [CR, LF, CR, LF]]
  cutting := by
    unfold IsCutting
    decide +kernel

def getRequest : ClientRequest where
  head := getHead
  body := []
  declares := by
    unfold DeclaresLength IsLength IsDecimal
    decide +kernel
  pieces := [getHead.bytes]
  cutting := by
    unfold IsCutting
    decide +kernel

namespace KeptConnection

/-- A request that is read, handed to a backend and answered with its reply. -/
def proxied : List KeptMove :=
  [.server (.round .next), .server (.round .next), .server (.round .next),
    .server (.round (.upstream
      { recvs := [.data (bytes "HTTP/1.1 200 OK" ++ [LF]),
          .data (bytes "Content-Length: 2" ++ [LF, LF] ++ bytes "ok")] })),
    .server (.round .next), .server (.round .next), .server (.round .next),
    .server .special, .server (.send {})]

set_option maxRecDepth 4000 in
theorem requests_inSync_post :
    ∃ s, Reaches (step exampleConf) (fun s _ => s.ReadsWhole exampleConf)
        (start postRequest .none [.sent 86, .sent 2]) s ∧ s.InSync := by
  obtain ⟨s, hs⟩ := Option.isSome_iff_exists.mp (by decide +kernel :
    (execOf (step exampleConf) (fun s _ => s.ReadsWhole exampleConf)
      (start postRequest .none [.sent 86, .sent 2])
      (proxied ++ [.client getRequest .none [.sent 86, .sent 2]] ++ proxied)).isSome = true)
  have hrun := reaches_of_execOf hs
  exact ⟨s, hrun, requests_inSync hrun⟩

/-- The body of a `HEAD` request is left on the socket, and parsed as the second head. -/
theorem requests_not_inSync :
    ¬ ∀ (conf : Conf) (q : ClientRequest) (errno : Errno) (sends : List SendEvent)
      (s : KeptConnection), Reaches (step conf) anyMove (start q errno sends) s → s.InSync := by
  intro hall
  obtain ⟨s, hs, hs'⟩ := Option.map_eq_some_iff.mp (by decide +kernel :
    (exec (step exampleConf) (start headRequest .none [.sent 86])
      (proxied ++ [.client getRequest .none [], .server (.round .next), .server (.round .next)])).map
        (fun s => (s.sent.map (·.head.url), s.heads.map fun h => h.r.text h.r.url.unparsedUrl))
      = some ([bytes "/a", bytes "/a"], [(some (bytes "/a"), 2), (some (bytes "/b"), 2)]))
  have hsync := hall _ _ _ _ s (reaches_of_exec hs)
  simp only [Prod.mk.injEq] at hs'
  obtain ⟨hsent, hheads⟩ := hs'
  -- the second of each
  have hheads₁ := congrArg (·[1]?) hheads
  have hsent₁ := congrArg (·[1]?) hsent
  simp only [List.getElem?_map] at hheads₁ hsent₁
  obtain ⟨h, hh, htext⟩ := Option.map_eq_some_iff.mp hheads₁
  obtain ⟨q, hq, hparsed⟩ := hsync.heads 1 h hh
  rw [hq] at hsent₁
  have hurl := hparsed.unparsedUrl
  have hqurl : q.head.url = bytes "/a" := Option.some.inj hsent₁
  rw [htext, hqurl] at hurl
  revert hurl
  decide

end KeptConnection

end XwpServer
