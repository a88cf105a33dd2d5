/-
  XwpServer.PacketSize

  The 16 bits in which `upstream_uwsgi_calc_packet_len` sums the variables of a packet.

  Nothing bounds the sum: the configured strings are of any length, and so are the headers
  but for the buffers they come in.  The sizes are the true ones just when what the module is
  given leaves room; otherwise the packet is written beyond its block.  For a well-formed
  head it is enough that four times its length leaves room (`trueSizes_of_head`).
-/

import XwpServer.ConfParse
import XwpServer.UrlSplit
import XwpServer.UwsgiContent
import XwpServer.UwsgiModule
import XwpServer.WellFormedHead
import Mathlib.Algebra.Order.BigOperators.Group.List
import Mathlib.Algebra.Order.Group.Nat

namespace XwpServer

open CString

/-! ## The sizes -/

/-- What is handed to `uint16_little_endian` for the variables. -/
def fieldSizes (conf : UwsgiConf) (r : UpstreamRequest) : List Nat :=
  (uwsgiParams conf r).flatMap (fun p => [p.1.length, Str.lenOr p.2]) ++
    (sentHeaders r).flatMap fun e => [e.name.len + HTTP_PREFIX.length, e.value.len]

/-- The block of `upstream_uwsgi_process`. -/
def packetBlock (conf : UwsgiConf) (r : UpstreamRequest) : List Byte :=
  List.replicate (upstreamUwsgiCalcPacketLen conf r + 4 + 1) NUL

/-- The packet is written into this block. -/
theorem uwsgiBuild_block (conf : UwsgiConf) (r : UpstreamRequest) :
    uwsgiBuild conf r = (do
      let m ← store (packetBlock conf r) 0 [conf.modifier1]
      let m ← uint16LittleEndian m 1 (upstreamUwsgiCalcPacketLen conf r)
      let m ← store m 3 [conf.modifier2]
      let x ← (uwsgiParams conf r).foldlM
        (fun x p => upstreamUwsgiAddParam r.toHeap x.1 x.2 p.1 p.2) (m, 4)
      r.headersIn.headers.foldlM (fun x e => upstreamUwsgiAddHeader r.toHeap x.1 x.2 e) x) :=
  rfl

/-- The sizes that are computed are the true ones. -/
structure TrueSizes (conf : UwsgiConf) (r : UpstreamRequest) : Prop where
  bound : variablesSize conf r ≤ 65535
  datasize : upstreamUwsgiCalcPacketLen conf r = variablesSize conf r
  fields : ∀ n ∈ fieldSizes conf r, n % 2 ^ 16 = n
  block : (packetBlock conf r).length = variablesSize conf r + 5

/-! ## What the module is given -/

/-- The configured strings: the root, the server's name, its address and its port. -/
def configLen (conf : UwsgiConf) : Nat :=
  conf.root.len + conf.name.len + conf.ip.len + (sprintfInt conf.port).length

/-- The request but its headers.  The URL is there with its path and its query. -/
def requestLen (r : UpstreamRequest) : Nat :=
  r.remoteIp.len + r.methodStr.len + r.versionStr.len + r.url.unparsedUrl.len + r.url.path.len +
    r.url.queryString.len + Str.lenOr r.headersIn.headerContentType +
    Str.lenOr r.headersIn.headerContentLen

/-- The headers that are sent, with their prefix and their lengths. -/
def headersLen (r : UpstreamRequest) : Nat :=
  ((sentHeaders r).map fun e => e.name.len + e.value.len + 9).sum

/-- The names of the parameters with their lengths, and the version of the server, take 225
    bytes; this is the rest. -/
theorem variablesSize_eq (conf : UwsgiConf) (r : UpstreamRequest) :
    variablesSize conf r = configLen conf + requestLen r + headersLen r + 225 := by
  have hheaders : ((sentHeaders r).map fun e =>
      HTTP_PREFIX.length + e.name.len + e.value.len + 4).sum = headersLen r := by
    refine congrArg List.sum (List.map_congr_left fun e _ => ?_)
    rw [show HTTP_PREFIX.length = 5 from by decide]
    omega
  -- what does not depend on the input; 52 are the lengths
  have hnames : CGI_QUERY_STRING.length + CGI_REQUEST_METHOD.length + CGI_CONTENT_TYPE.length +
      CGI_CONTENT_LENGTH.length + CGI_REQUEST_URI.length + CGI_PATH_INFO.length +
      CGI_DOCUMENT_ROOT.length + CGI_SERVER_PROTOCOL.length + CGI_SERVER_SOFTWARE.length +
      CGI_REMOTE_ADDR.length + CGI_SERVER_ADDR.length + CGI_SERVER_PORT.length +
      CGI_SERVER_NAME.length + HTTP_HEADER_XWP_VER.len + 52 = 225 := by decide
  rw [variablesSize, hheaders]
  simp only [uwsgiParams, List.map_cons, List.map_nil, List.sum_cons, List.sum_nil, Str.lenOr,
    Option.map_some, Option.getD_some, portStr, configLen, requestLen]
  omega

/-- Every size that is written is part of the sum. -/
theorem le_variablesSize {conf : UwsgiConf} {r : UpstreamRequest} {n : Nat}
    (hn : n ∈ fieldSizes conf r) : n ≤ variablesSize conf r := by
  -- a size is a part of the summand of its parameter, or of its header
  rcases List.mem_append.mp hn with h | h <;> obtain ⟨x, hx, hxn⟩ := List.mem_flatMap.mp h
  · have hle := List.single_le_sum (fun _ _ => Nat.zero_le _) _ (List.mem_map_of_mem
      (f := fun p => p.1.length + Str.lenOr p.2 + 4) hx)
    simp only [List.mem_cons, List.not_mem_nil, or_false] at hxn
    rw [variablesSize]
    omega
  · have hle := List.single_le_sum (fun _ _ => Nat.zero_le _) _ (List.mem_map_of_mem
      (f := fun e : Header => HTTP_PREFIX.length + e.name.len + e.value.len + 4) hx)
    simp only [List.mem_cons, List.not_mem_nil, or_false] at hxn
    rw [variablesSize]
    omega

/-- The sizes of a packet are the true ones just when the configuration and the request
    leave room in it. -/
theorem trueSizes_iff (conf : UwsgiConf) (r : UpstreamRequest) :
    TrueSizes conf r ↔ configLen conf + requestLen r + headersLen r ≤ 65310 := by
  have hsize := variablesSize_eq conf r
  constructor
  · intro h
    have := h.bound
    omega
  · intro hroom
    have hbound : variablesSize conf r ≤ 65535 := by omega
    have hdata : upstreamUwsgiCalcPacketLen conf r = variablesSize conf r := by
      rw [calcPacketLen_mod, Nat.mod_eq_of_lt (by omega)]
    refine ⟨hbound, hdata, fun n hn => Nat.mod_eq_of_lt ?_, ?_⟩
    · have := le_variablesSize hn
      omega
    · rw [packetBlock, List.length_replicate, hdata]

/-! ## From the length of the head -/

/-- What `headersLen` counts for a header. -/
def Header.size (e : Header) : Nat := e.name.len + e.value.len + 9

/-- A pair that is set adds no more than its own size. -/
theorem sum_httpHeaderSet (h : Heap) (es : List Header) (name value : Str) :
    ((httpHeaderSet h es name value).map Header.size).sum ≤
      (es.map Header.size).sum + Header.size ⟨name, value⟩ := by
  induction es with
  | nil => simp [httpHeaderSet]
  | cons e es ih =>
      simp only [httpHeaderSet]
      split
      -- the value of the entry is replaced
      · simp only [List.map_cons, List.sum_cons, Header.size]
        omega
      · simp only [List.map_cons, List.sum_cons]
        omega

/-- A table takes no more than the pairs that were set. -/
theorem sum_foldl_httpHeaderSet (h : Heap) (pairs : List (Str × Str)) (es : List Header) :
    ((pairs.foldl (fun hs p => httpHeaderSet h hs p.1 p.2) es).map Header.size).sum ≤
      (es.map Header.size).sum + (pairs.map fun p => Header.size ⟨p.1, p.2⟩).sum := by
  induction pairs generalizing es with
  | nil => simp
  | cons p pairs ih =>
      have hset := sum_httpHeaderSet h es p.1 p.2
      have hrest := ih (httpHeaderSet h es p.1 p.2)
      simp only [List.foldl_cons, List.map_cons, List.sum_cons]
      omega

/-- The path and the query of a URL are parts of it. -/
theorem SplitsUrl.path_query_le {id : Nat} {m s : List Byte} {out : Url} {u : UrlParts}
    (h : SplitsUrl id m s out u) : out.path.len + out.queryString.len ≤ s.length := by
  have hpath : out.path.len = u.path.length := by
    rcases h.path with ⟨hnil, hnull⟩ | ⟨-, -, -, -, hlen⟩
    · rw [hnull, hnil]
      rfl
    · exact hlen
  have hquery : out.queryString.len ≤ (marked QUESTION u.query).length := by
    cases hq : u.query with
    | none =>
        rw [h.noQuery hq]
        exact Nat.zero_le _
    | some q =>
        obtain ⟨⟨-, -, -, hlen⟩, -⟩ := h.query q hq
        rw [hlen]
        simp [marked]
  rw [h.text, text_before, UrlParts.pathText]
  simp only [List.length_append]
  omega

theorem Str.shift_len (n : Nat) (s : Str) : (s.shift n).len = s.len := by
  obtain ⟨data, len⟩ := s
  cases data <;> rfl

namespace WellFormedHead

variable {w : WellFormedHead} {body : List Byte} {pairs : List (Str × Str)} {q : HttpRequest}
  {io : Io}

theorem ParsedTo.path_query_le (h : w.ParsedTo body pairs q io) :
    q.url.path.len + q.url.queryString.len ≤ w.url.length := by
  have hret : (httpParseUrl q.headerBuf (w.url ++ [NUL]) {} ⟨0, w.url.length⟩).1 = .done := by
    rw [httpParseUrl_ret q.headerBuf 0]
    exact w.url_accepted
  obtain ⟨u, hu⟩ := splitsUrl_token w.url_ne w.url_bytes hret
  have hle := hu.path_query_le
  rw [h.url]
  show (Str.shift _ _).len + (Str.shift _ _).len ≤ _
  rw [Str.shift_len, Str.shift_len]
  exact hle

/-- The pairs are as long as the lines say. -/
theorem ParsedTo.pairs_sizes (h : w.ParsedTo body pairs q io) :
    (pairs.map fun p => Header.size ⟨p.1, p.2⟩)
      = w.fields.map fun f => f.name.length + f.value.length + 9 := by
  have htexts := congrArg (List.map fun x => x.1.2 + x.2.2 + 9) h.texts
  rw [List.map_map, List.map_map] at htexts
  exact htexts

end WellFormedHead

/-- A line holds its name, its value and four bytes more. -/
theorem HeaderField.line_length (f : HeaderField) :
    f.line.length = f.name.length + f.value.length + 4 := by
  simp only [HeaderField.line, List.length_append, List.length_cons, List.length_nil]
  omega

/-- The sizes of the pairs are within twice the lines. -/
theorem sum_sizes_le (fs : List HeaderField) :
    (fs.map fun f => f.name.length + f.value.length + 9).sum ≤
      2 * (fs.flatMap HeaderField.line).length := by
  induction fs with
  | nil => simp
  | cons f fs ih =>
      -- nine bytes more, but no name is empty
      have hname : 0 < f.name.length := List.length_pos_iff.mpr f.name_ne
      have hline := f.line_length
      simp only [List.map_cons, List.sum_cons, List.flatMap_cons, List.length_append]
      omega

theorem line_length_le {fs : List HeaderField} {f : HeaderField} (hf : f ∈ fs) :
    f.line.length ≤ (fs.flatMap HeaderField.line).length := by
  rw [List.length_flatMap]
  exact List.single_le_sum (fun _ _ => Nat.zero_le _) _ (List.mem_map_of_mem hf)

/-- A value that is looked up is one of a line. -/
theorem WellFormedHead.ParsedTo.value_le {w : WellFormedHead} {body : List Byte}
    {pairs : List (Str × Str)} {q : HttpRequest} {io : Io} (h : w.ParsedTo body pairs q io)
    (heap : Heap) (name : String) :
    Str.lenOr (httpHeaderStr heap (setAll heap pairs) (.serverString name)) ≤
      (w.fields.flatMap HeaderField.line).length := by
  rcases hfind : httpHeaderStr heap (setAll heap pairs) (.serverString name) with _ | v
  · exact Nat.zero_le _
  obtain ⟨e, he, rfl⟩ := Option.map_eq_some_iff.mp hfind
  obtain ⟨-, p, hp, hv⟩ := mem_setAll (List.mem_of_find?_eq_some he)
  have htext := List.mem_map_of_mem (f := fun p => (q.text p.1, q.text p.2)) hp
  rw [h.texts] at htext
  obtain ⟨f, hf, heq⟩ := List.mem_map.mp htext
  have hlen : p.2.len = f.value.length := congrArg (·.2.2) heq.symm
  have hle := line_length_le hf
  have hline := f.line_length
  show e.value.len ≤ _
  rw [hv, hlen]
  omega

/-- Of the table, which takes no more than the pairs, a part is sent. -/
theorem headersLen_le {r : UpstreamRequest} {pairs : List (Str × Str)}
    (hof : HeadersOf r.toHttpRequest pairs) :
    headersLen r ≤ (pairs.map fun p => Header.size ⟨p.1, p.2⟩).sum := by
  have hsent : headersLen r ≤ (r.headersIn.headers.map Header.size).sum :=
    (List.filter_sublist.map Header.size).sum_le_sum fun _ _ => Nat.zero_le _
  have hset := sum_foldl_httpHeaderSet r.toHeap pairs []
  rw [hof.headers] at hsent
  simp only [List.map_nil, List.sum_nil, Nat.zero_add] at hset
  exact hsent.trans hset

theorem WellFormedHead.bytes_length (w : WellFormedHead) :
    w.bytes.length = w.methodToken.length + w.url.length + w.version.token.length +
      (w.fields.flatMap HeaderField.line).length + 6 := by
  simp only [bytes, requestLine, fieldLines, List.length_append, List.length_cons, List.length_nil]
  omega

/-- What a head leaves for the packet, but for the peer's address: the URL is there twice,
    so is each header, and two values are there once more. -/
theorem requestLen_le {w : WellFormedHead} {body : List Byte} {pairs : List (Str × Str)}
    {q : HttpRequest} {io : Io} {r : UpstreamRequest} (h : w.ParsedTo body pairs q io)
    (hline : r.toRequestLine = q.toRequestLine) (hof : HeadersOf r.toHttpRequest pairs) :
    requestLen r + headersLen r ≤ r.remoteIp.len + 4 * w.bytes.length := by
  -- the strings of the request line
  have hmethod : r.methodStr.len = w.methodToken.length := by
    rw [show r.methodStr = q.methodStr from congrArg RequestLine.methodStr hline]
    exact congrArg Prod.snd h.methodStr
  have hversion : r.versionStr.len = w.version.token.length := by
    rw [show r.versionStr = q.versionStr from congrArg RequestLine.versionStr hline]
    exact congrArg Prod.snd h.versionStr
  have hurl : r.url = q.url := congrArg RequestLine.url hline
  have hunparsed : r.url.unparsedUrl.len = w.url.length := by
    rw [hurl]
    exact congrArg Prod.snd h.unparsedUrl
  have hpath : r.url.path.len + r.url.queryString.len ≤ w.url.length := by
    rw [hurl]
    exact h.path_query_le
  -- the header lines
  have htable := headersLen_le hof
  have hsizes := congrArg List.sum h.pairs_sizes
  have hlines := sum_sizes_le w.fields
  have htype := h.value_le r.toHeap "Content-Type"
  have hlength := h.value_le r.toHeap "Content-Length"
  rw [← hof.headers, ← hof.contentType] at htype
  rw [← hof.headers, ← hof.contentLen] at hlength
  have hbytes := w.bytes_length
  rw [requestLen]
  omega

/-- The request of a well-formed head, in whatever pieces it arrives and with whatever body:
    its packet has the true sizes if what is configured and four times its head leave room. -/
theorem trueSizes_of_head (w : WellFormedHead) (body : List Byte) {conf : Conf}
    {uconf : UwsgiConf} {r₀ r₁ r₂ : HttpRequest} {r : UpstreamRequest} {io₀ io₁ io₂ io₃ : Io}
    {ps : List (List Byte)} (hr : r₀.HeadReady .request)
    (hps : ∀ p ∈ ps, p ≠ []) (hs : ps.flatten = w.bytes ++ body)
    (hoffer : ∀ i < ps.length, (ps.take i).flatten.length < w.bytes.length →
      (ps.take (i + 1)).flatten.length ≤ conf.clientHeaderSize)
    (hio : io₀.recvs = ps.map .data)
    (hfirst : httpProcessRequestLine conf r₀ io₀ = .ret (true, r₁, io₁))
    (hlines : httpProcessHeaderLine conf .request r₁ io₁ = .ret (true, r₂, io₂))
    (hbody : httpProcessContentBody conf .request r₂.headersIn.contentLen r₂ io₂
      = .ret (true, r.toHttpRequest, io₃))
    (hroom : configLen uconf + r.remoteIp.len + 4 * w.bytes.length ≤ 65310) :
    TrueSizes uconf r := by
  -- the head was parsed to what it says
  obtain ⟨ps₁, ps₂, b₁, rfl, hfit, hb₁, rfl⟩ := w.exists_pieces hs hoffer
  obtain ⟨r₁', io₁', q, io', -, -, -, hfirst', hloop', hparsed, -⟩ :=
    w.pieces_parsed hr (fun p hp => hps p (by simp [hp])) hfit hb₁ hio
  rw [hfirst] at hfirst'
  cases hfirst'
  obtain ⟨q', io'', hloop, hdone⟩ := httpProcessHeaderLine_accepted hlines
  rw [hloop] at hloop'
  cases hloop'
  -- what follows leaves the request line and the table
  obtain ⟨n, -, rfl⟩ := HttpRequest.fillHeadersIn_eq_some (headersDone_request hdone).1
  have hof := AcceptedRequest.headersOf
    ⟨r₀, io₀, r₁, io₁, _, io₂, io₃, hr, hfirst, hlines, hbody, rfl⟩
  have hline := (httpProcessContentBody_keeps hbody).2.1
  have hle := requestLen_le hparsed hline hof
  exact (trueSizes_iff uconf r).mpr (by omega)

/-! ## Beyond the block -/

/-- A store that fails is out of the block. -/
theorem store_error {m bs : List Byte} {pos : Nat} {e : Stop} (h : store m pos bs = .error e) :
    e = .fault := by
  unfold store at h
  split at h
  · exact (Except.error.inj h).symm
  · cases h

/-- Behind a store that is in the block only the rest can fail. -/
theorem store_bind_error {α : Type} {m bs : List Byte} {pos : Nat}
    {rest : List Byte → Except Stop α} {e : Stop} (h : store m pos bs >>= rest = .error e)
    (hrest : ∀ m', rest m' = .error e → e = .fault) : e = .fault := by
  rcases Except.bind_eq_error.mp h with hstore | ⟨m', -, h⟩
  · exact store_error hstore
  · exact hrest m' h

/-- A parameter with a proper value is written, or its stores leave the block. -/
theorem addParam_error {h : Heap} {m : List Byte} {pos : Nat} {name : List Byte}
    {value : Option Str} (hv : ∀ v ∈ value, v.len = 0 ∨ h.Plain v) {e : Stop}
    (hadd : upstreamUwsgiAddParam h m pos name value = .error e) : e = .fault := by
  refine store_bind_error hadd fun m₁ hadd => store_bind_error hadd fun m₂ hadd => ?_
  split at hadd
  · next v hf =>
    obtain ⟨hmem, hlen⟩ : v ∈ value ∧ 0 < v.len := by simpa [Option.filter_eq_some_iff] using hf
    -- the assertion on the value holds
    have hplain := (hv v hmem).resolve_left (by omega)
    rw [hplain.assertEnds_ok hlen] at hadd
    refine store_bind_error hadd fun m₃ hadd => store_bind_error hadd fun m₄ hadd => ?_
    cases hadd
  · refine store_bind_error hadd fun m₃ hadd => ?_
    cases hadd

theorem addHeader_error {h : Heap} {m : List Byte} {pos : Nat} {x : Header} {e : Stop}
    (hadd : upstreamUwsgiAddHeader h m pos x = .error e) : e = .fault := by
  unfold upstreamUwsgiAddHeader at hadd
  split at hadd
  · cases hadd
  refine store_bind_error hadd fun m₁ hadd => store_bind_error hadd fun m₂ hadd => ?_
  dsimp only at hadd
  -- an empty value leaves its length only
  split at hadd
  · refine store_bind_error hadd fun m₃ hadd => store_bind_error hadd fun m₄ hadd => ?_
    cases hadd
  · refine store_bind_error hadd fun m₃ hadd => ?_
    cases hadd

theorem foldlM_error {α β : Type} {f : β → α → Except Stop β} (l : List α)
    (hf : ∀ a ∈ l, ∀ x e, f x a = .error e → e = .fault) {x : β} {e : Stop}
    (h : l.foldlM f x = .error e) : e = .fault := by
  induction l generalizing x with
  | nil => cases h
  | cons a l ih =>
      rw [List.foldlM_cons] at h
      rcases Except.bind_eq_error.mp h with h₁ | ⟨x₁, -, h⟩
      · exact hf a (by simp) _ _ h₁
      · exact ih (fun b hb => hf b (by simp [hb])) h

/-- Proper strings are written, or leave the block. -/
theorem uwsgiBuild_error {conf : UwsgiConf} {r : UpstreamRequest} (hstr : PlainStrs conf r)
    {e : Stop} (h : uwsgiBuild conf r = .error e) : e = .fault := by
  rw [uwsgiBuild_block] at h
  rcases Except.bind_eq_error.mp h with h₁ | ⟨m₁, -, h⟩
  · exact store_error h₁
  rcases Except.bind_eq_error.mp h with h₂ | ⟨m₂, -, h⟩
  · exact store_error h₂
  rcases Except.bind_eq_error.mp h with h₃ | ⟨m₃, -, h⟩
  · exact store_error h₃
  rcases Except.bind_eq_error.mp h with h₄ | ⟨x, -, h⟩
  · exact foldlM_error _ (fun p hp _ _ h => addParam_error (hstr.params p hp) h) h₄
  · exact foldlM_error _ (fun _ _ _ _ h => addHeader_error h) h

/-- A store that succeeds is in the block. -/
theorem store_within {m m' bs : List Byte} {pos : Nat} (h : store m pos bs = .ok m') :
    m'.length = m.length ∧ pos + bs.length ≤ m.length := by
  unfold store at h
  split at h
  · cases h
  · obtain rfl := Except.ok.inj h
    simp only [writeAt, List.length_append, List.length_take, List.length_drop]
    omega

theorem addParam_within {h : Heap} {m m' : List Byte} {pos pos' : Nat} {name : List Byte}
    {value : Option Str} (hv : ∀ v ∈ value, v.len = 0 ∨ h.Plain v)
    (hadd : upstreamUwsgiAddParam h m pos name value = .ok (m', pos')) :
    m'.length = m.length ∧ pos' ≤ m.length := by
  simp only [upstreamUwsgiAddParam, uint16LittleEndian, sprintfStr, Except.bind_eq_ok] at hadd
  obtain ⟨m₁, h₁, m₂, h₂, hadd⟩ := hadd
  have w₁ := store_within h₁
  have w₂ := store_within h₂
  split at hadd
  · next v hf =>
    obtain ⟨hmem, hlen⟩ : v ∈ value ∧ 0 < v.len := by simpa [Option.filter_eq_some_iff] using hf
    have hplain := (hv v hmem).resolve_left (by omega)
    simp only [Except.bind_eq_ok] at hadd
    obtain ⟨-, -, m₃, h₃, m₄, h₄, hadd⟩ := hadd
    have w₃ := store_within h₃
    have w₄ := store_within h₄
    rw [List.length_append, hplain.length] at w₄
    cases hadd
    omega
  · simp only [Except.bind_eq_ok] at hadd
    obtain ⟨m₃, h₃, hadd⟩ := hadd
    have w₃ := store_within h₃
    rw [KeyValue.le16_length] at w₃
    cases hadd
    omega

theorem upcase_length {m : List Byte} {p : Nat} (hp : p ≤ m.length) :
    (upcase m p).length = m.length := by
  have hle : (CString.cstr m p).length ≤ m.length - p := by
    rw [← List.length_drop]
    exact (List.takeWhile_prefix _).length_le
  apply writeAt_length
  rw [List.length_map]
  omega

theorem addHeader_within {h : Heap} {m m' : List Byte} {pos pos' : Nat} {x : Header}
    (hpos : pos ≤ m.length) (hadd : upstreamUwsgiAddHeader h m pos x = .ok (m', pos')) :
    m'.length = m.length ∧ pos' ≤ m.length := by
  unfold upstreamUwsgiAddHeader at hadd
  split at hadd
  · cases hadd
    exact ⟨rfl, hpos⟩
  simp only [uint16LittleEndian, sprintfStr, Except.bind_eq_ok] at hadd
  obtain ⟨m₁, h₁, m₂, h₂, hadd⟩ := hadd
  have w₁ := store_within h₁
  have w₂ := store_within h₂
  -- the name of the variable is as long as that of the header
  simp only [List.length_append] at w₂
  have hup : (upcase m₂ (pos + 2 + HTTP_PREFIX.length)).length = m₂.length :=
    upcase_length (by omega)
  split at hadd
  · simp only [Except.bind_eq_ok] at hadd
    obtain ⟨m₃, h₃, m₄, h₄, hadd⟩ := hadd
    have w₃ := store_within h₃
    have w₄ := store_within h₄
    simp only [List.length_append, List.length_singleton] at w₄ hadd
    cases hadd
    omega
  · simp only [Except.bind_eq_ok] at hadd
    obtain ⟨m₃, h₃, hadd⟩ := hadd
    have w₃ := store_within h₃
    rw [KeyValue.le16_length] at w₃
    simp only [List.length_append] at w₃ hadd
    cases hadd
    omega

/-- A loop each round of which stays in the block. -/
theorem foldlM_within {α : Type} {f : List Byte × Nat → α → Except Stop (List Byte × Nat)}
    (l : List α)
    (hf : ∀ a ∈ l, ∀ m pos m' pos', pos ≤ m.length → f (m, pos) a = .ok (m', pos') →
      m'.length = m.length ∧ pos' ≤ m.length)
    {m m' : List Byte} {pos pos' : Nat} (hpos : pos ≤ m.length)
    (h : l.foldlM f (m, pos) = .ok (m', pos')) : m'.length = m.length ∧ pos' ≤ m.length := by
  induction l generalizing m pos with
  | nil =>
      cases h
      exact ⟨rfl, hpos⟩
  | cons a l ih =>
      simp only [List.foldlM_cons, Except.bind_eq_ok] at h
      obtain ⟨⟨m₁, pos₁⟩, h₁, h⟩ := h
      have w₁ := hf a (by simp) _ _ _ _ hpos h₁
      have w := ih (fun b hb => hf b (by simp [hb])) (by omega) h
      omega

/-- What the packet is built in keeps its size, and what is written is in it. -/
theorem uwsgiBuild_within {conf : UwsgiConf} {r : UpstreamRequest} (hstr : PlainStrs conf r)
    {m : List Byte} {pos : Nat} (hok : uwsgiBuild conf r = .ok (m, pos)) :
    m.length = (packetBlock conf r).length ∧ pos ≤ (packetBlock conf r).length := by
  rw [uwsgiBuild_block] at hok
  simp only [uint16LittleEndian, Except.bind_eq_ok] at hok
  obtain ⟨m₁, h₁, m₂, h₂, m₃, h₃, ⟨m₄, pos₄⟩, h₄, h₅⟩ := hok
  -- the header of four bytes, the parameters, the headers
  have w₁ := store_within h₁
  have w₂ := store_within h₂
  have w₃ := store_within h₃
  have w₄ := foldlM_within (uwsgiParams conf r)
    (fun p hp m pos m' pos' _ h => addParam_within (hstr.params p hp) h)
    (by simp only [List.length_singleton] at w₃; omega) h₄
  have w₅ := foldlM_within r.headersIn.headers
    (fun e _ m pos m' pos' hpos h => addHeader_within hpos h) (by omega) h₅
  omega

/-- Proper strings that leave no room are written beyond the block. -/
theorem uwsgiBuild_fault {conf : UwsgiConf} {r : UpstreamRequest} (hstr : PlainStrs conf r)
    (hroom : 65310 < configLen conf + requestLen r + headersLen r) :
    uwsgiBuild conf r = .error .fault := by
  cases hbuild : uwsgiBuild conf r with
  | error e => rw [uwsgiBuild_error hstr hbuild]
  | ok x =>
      -- all variables would be in a block of their size in 16 bits
      have w := (uwsgiBuild_within hstr hbuild).2
      have hpos := uwsgiBuild_pos hstr hbuild
      rw [← variablesSize_plain hstr, variablesSize_eq] at hpos
      rw [packetBlock, List.length_replicate, calcPacketLen_mod, variablesSize_eq] at w
      omega

/-! ## A configured root -/

/-- A string of the configuration, as `pool_strdup2` leaves it. -/
def confStr (s : Option (List Byte)) : Str :=
  match s with
  | none => .null
  | some s => ⟨.lit s, (s.takeWhile (· != NUL)).length⟩

/-- What the module reads of a location's configuration. -/
def uwsgiConfOf {μ : Type} (thiz : ParsedConf μ) (vhost : VhostConf μ) (loc : VhostLocConf μ)
    (modifier1 modifier2 : Byte) : UwsgiConf where
  modifier1 := modifier1
  modifier2 := modifier2
  root := confStr loc.root
  name := confStr vhost.name
  ip := confStr thiz.ip
  port := thiz.port

/-- The sizes the server reads requests with are the configured ones. -/
def Conf.Of {μ : Type} (conf : Conf) (thiz : ParsedConf μ) : Prop :=
  conf.clientHeaderSize = thiz.clientHeaderSize ∧
    conf.largeClientHeaderSize = thiz.largeClientHeaderSize ∧
    conf.contentBodyBufSize = thiz.contentBodyBufSize ∧ conf.maxContentLen = thiz.maxContentLen

/-- What the module's create function stores; NULL when the node is refused. -/
def moduleUwsgiCreate (_ : VhostLocConf ModuleUwsgiConf) (xmlConfNode : Option XmlNode) :
    Option ModuleUwsgiConf :=
  if (moduleUwsgiConfInit {} xmlConfNode).1 then some (moduleUwsgiConfInit {} xmlConfNode).2
  else none

/-- A linker that finds the uwsgi module in any file. -/
def uwsgiLinker : Linker Unit ModuleUwsgiConf where
  dlopen _ := .ok ()
  dlsym _ := .ok ⟨bytes "uwsgi", moduleUwsgiCreate⟩

/-- A server with one location, below `root` and with a uwsgi backend. -/
def serverTree (root : List Byte) : XmlNode := ⟨.normal (bytes "server"), [
  leaf (bytes "client_header_size") (bytes "64"),
  leaf (bytes "large_client_header_size") (bytes "128"),
  leaf (bytes "content_body_buf_size") (bytes "16"),
  leaf (bytes "max_content_len") (bytes "64"),
  leaf (bytes "root") root,
  ⟨.normal (bytes "load_module"), [leaf (bytes "module") (bytes "uwsgi.so")]⟩,
  ⟨.normal (bytes "vhost"), [leaf (bytes "name") (bytes "localhost"),
    ⟨.normal (bytes "location"), [leaf (bytes "pattern") (bytes "/"),
      ⟨.normal (bytes "handler"), [leaf (bytes "name") (bytes "uwsgi"),
        ⟨.normal (bytes "handler_conf"), [
          ⟨.normal (bytes "uwsgi_pass"), [leaf (bytes "port") (bytes "9000")]⟩]⟩]⟩]⟩]⟩]⟩

theorem serverTree_accepted (root : List Byte) : ∃ thiz vhost loc module,
    confParse uwsgiLinker (some (serverTree root)) = .ret thiz ∧ exampleConf.Of thiz ∧
      vhost ∈ thiz.vhosts ∧ loc ∈ vhost.locs ∧ loc.handlerName = some (bytes "uwsgi") ∧
      loc.handler = some module ∧ loc.root = some root :=
  ⟨_, _, _, _, rfl, ⟨rfl, rfl, rfl, rfl⟩, List.mem_singleton.mpr rfl, List.mem_singleton.mpr rfl,
    rfl, rfl, rfl⟩

/-- A root of 70000 bytes is accepted, and no packet has room for it. -/
theorem not_trueSizes :
    ¬ ∀ (tree : XmlNode) (thiz : ParsedConf ModuleUwsgiConf) (vhost : VhostConf ModuleUwsgiConf)
        (loc : VhostLocConf ModuleUwsgiConf) (module : ModuleUwsgiConf) (conf : Conf)
        (r : UpstreamRequest) (pairs : List (Str × Str)),
      confParse uwsgiLinker (some tree) = .ret thiz → conf.Of thiz → vhost ∈ thiz.vhosts →
      loc ∈ vhost.locs → loc.handlerName = some (bytes "uwsgi") → loc.handler = some module →
      AcceptedRequest conf r.toHttpRequest pairs →
      TrueSizes (uwsgiConfOf thiz vhost loc module.modifier1 module.modifier2) r := by
  intro h
  obtain ⟨thiz, vhost, loc, module, hret, hof, hvhost, hloc, hname, hhandler, hroot⟩ :=
    serverTree_accepted (List.replicate 70000 114)
  obtain ⟨⟨r, pairs⟩, hr⟩ : ∃ x, receivedUpstream (bytes "GET /a HTTP/1.1\nX-Id: 7\n\n") = some x :=
    Option.isSome_iff_exists.mp (by decide)
  have hbound := (h _ thiz vhost loc module exampleConf r pairs hret hof hvhost hloc hname hhandler
    (receivedUpstream_accepted hr)).bound
  have hlen : (uwsgiConfOf thiz vhost loc module.modifier1 module.modifier2).root.len = 70000 := by
    show (confStr loc.root).len = 70000
    rw [hroot]
    show ((List.replicate 70000 (114 : Byte)).takeWhile (· != NUL)).length = 70000
    rw [List.takeWhile_replicate, if_pos (by decide), List.length_replicate]
  rw [variablesSize_eq, configLen, hlen] at hbound
  omega

end XwpServer
