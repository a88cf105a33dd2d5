/-
  XwpServer.WellFormedReply

  The reply of a well-behaved backend on its way to the client (`upstream_uwsgi_process` of
  `module_uwsgi.c` behind the request it has sent, `connection_send_response`).

  If the head of the reply fits the buffer, it is accepted in whatever pieces it arrives, and
  the response has the status and the length the reply says.  If its body is received too,
  what the client gets is printed from the lines of the reply and of the server, put into one
  table by the texts of their names, and the bytes of the body (`wellFormedReply_delivered`).
  It is received if the reply tells its length and keeps to it (`wellFormedReply_received`).
-/

import XwpServer.Relay
import XwpServer.BackendHeaders
import XwpServer.FailedExchange
import XwpServer.WellFormedHead
import XwpServer.KeptConnection

namespace XwpServer

open CString Scan LineParser FirstMatch

/-! ## Replies -/

/-- What the head of a reply says.  The parser takes any word for the version. -/
structure WellFormedReply where
  versionToken : List Byte
  version_ne : versionToken ≠ []
  version_bytes : ∀ c ∈ versionToken, c ≠ NUL ∧ isspace c = false
  statusToken : List Byte
  status_ne : statusToken ≠ []
  status_bytes : ∀ c ∈ statusToken, c ≠ NUL ∧ isspace c = false
  status_range : HTTP_STATUS_START ≤ atoi statusToken ∧ atoi statusToken ≤ HTTP_STATUS_END
  reason : List Byte
  reason_bytes : ∀ c ∈ reason, c ≠ LF ∧ c ≠ NUL
  fields : List HeaderField

/-- The table of the lines by the texts of their names: a name stands for the first entry whose
    name it begins. -/
def lineTable (lines : List (List Byte × List Byte)) : List (List Byte × List Byte) :=
  build List.isPrefixOf [] lines

/-- The value of the first entry with the name `Content-Length`, in any case, or with a longer
    one that begins so; negative without such an entry. -/
def declaredLength (table : List (List Byte × List Byte)) : Int :=
  ((table.find? fun l => strncasecmpEq (bytes "Content-Length") l.1 14).map (atoi ·.2)).getD (-1)

/-- What the lines say of the length of the body, with -1 for nothing: the number on each line
    for it, which an `int` can have. -/
inductive SaysLength (fields : List HeaderField) : Int → Prop
  | nothing (hnone : ∀ f ∈ fields, f.isContentLength = false) : SaysLength fields (-1)
  | number {n : Nat} (hsome : ∃ f ∈ fields, f.isContentLength = true)
      (hvalue : ∀ f ∈ fields, f.isContentLength = true → IsLength f.value n) (hlt : n < 2 ^ 31) :
      SaysLength fields n

namespace WellFormedReply

variable (w : WellFormedReply)

def statusLine : List Byte :=
  w.versionToken ++ SP :: (w.statusToken ++ SP :: (w.reason ++ [CR, LF]))

/-- The head as it is written. -/
def bytes : List Byte := w.statusLine ++ WellFormedHead.fieldLines w.fields

def status : Int := atoi w.statusToken

def lines : List (List Byte × List Byte) := w.fields.map fun f => (f.name, f.value)

/-- The length the lookup in the table of the lines gives. -/
def contentLen : Int := declaredLength (lineTable w.lines)

/-! ## The length -/

theorem isContentLength_iff (f : HeaderField) : f.isContentLength = true ↔
    f.name.map tolower = (CString.bytes "Content-Length").map tolower := by
  rw [HeaderField.isContentLength, strcasecmpEq, beq_iff_eq]

/-- An entry whose name begins with `Content-Length` has the value of a line for the length. -/
theorem mem_lineTable {fields : List HeaderField} (hapart : LengthApart fields)
    {l : List Byte × List Byte} (hl : l ∈ lineTable (fields.map fun f => (f.name, f.value)))
    (hname : (CString.bytes "Content-Length").map tolower <+: l.1.map tolower) :
    ∃ f ∈ fields, f.isContentLength = true ∧ f.value = l.2 := by
  obtain ⟨t, p, u, hsplit, hvalue, hkey⟩ := mem_build hl
  have hfield : ∀ x ∈ t ++ p :: u, ∃ f ∈ fields, (f.name, f.value) = x := fun x hx =>
    List.mem_map.mp (hsplit ▸ hx)
  -- a line whose name begins so is named so
  have hnamed : ∀ f ∈ fields, f.name = l.1 → f.isContentLength = true := by
    intro f hf heq
    by_contra hno
    exact (hapart f hf (by simpa using hno)).1 (heq ▸ hname)
  obtain ⟨f, hf, rfl⟩ := hfield p (by simp)
  rcases hkey with heq | ⟨hhit, q, hq, heq⟩
  · exact ⟨f, hf, hnamed f hf heq, hvalue⟩
  · obtain ⟨g, hg, rfl⟩ := hfield q (by simp [hq])
    have hlen := (isContentLength_iff g).mp (hnamed g hg heq)
    refine ⟨f, hf, ?_, hvalue⟩
    by_contra hno
    apply (hapart f hf (by simpa using hno)).2
    rw [← hlen, show g.name = l.1 from heq]
    exact (List.isPrefixOf_iff_prefix.mp hhit).map tolower

/-- The lookup gives what the lines say. -/
theorem contentLen_of_declared {n : Int} (hapart : LengthApart w.fields)
    (h : SaysLength w.fields n) : w.contentLen = n := by
  have hnamed : ∀ l : List Byte × List Byte,
      strncasecmpEq (CString.bytes "Content-Length") l.1 14 = true ↔
        (CString.bytes "Content-Length").map tolower <+: l.1.map tolower := fun l =>
    strncasecmpEq_length (k := CString.bytes "Content-Length") (by decide)
  rw [contentLen, declaredLength]
  cases hfind : (lineTable w.lines).find? fun l =>
      strncasecmpEq (CString.bytes "Content-Length") l.1 14 with
  | none =>
      rw [List.find?_eq_none] at hfind
      cases h with
      | nothing => rfl
      | number hsome hvalue hlt =>
          obtain ⟨f, hf, hlength⟩ := hsome
          -- its line makes an entry, or stands for one with a longer name
          obtain ⟨e, he, hpre⟩ : ∃ e ∈ (lineTable w.lines).map Prod.fst, f.name <+: e := by
            rw [lineTable, keys_build]
            have hkey : f.name ∈ w.lines.map Prod.fst := by
              simpa [lines] using ⟨f, hf, rfl⟩
            rcases @firsts_of_mem _ List.isPrefixOf _ _ hkey with hself | ⟨e, he, hhit⟩
            · exact ⟨f.name, hself, List.prefix_rfl⟩
            · exact ⟨e, he, List.isPrefixOf_iff_prefix.mp hhit⟩
          obtain ⟨l, hl, rfl⟩ := List.mem_map.mp he
          refine absurd ((hnamed l).mpr ?_) (hfind l hl)
          rw [← (isContentLength_iff f).mp hlength]
          exact hpre.map tolower
  | some l =>
      have hl := (hnamed l).mp (by simpa using List.find?_some hfind)
      obtain ⟨f, hf, hlength, hvalue⟩ := mem_lineTable hapart (List.mem_of_find?_eq_some hfind) hl
      cases h with
      | nothing hnone =>
          rw [hnone f hf] at hlength
          cases hlength
      | number _ hnumber hlt =>
          show atoi l.2 = _
          rw [← hvalue]
          exact atoi_of_isLength (hnumber f hf hlength) hlt

/-! ## The status line -/

theorem statusLine_isLine : IsLine w.statusLine := by
  have hword : ∀ {a : List Byte}, (∀ c ∈ a, c ≠ NUL ∧ isspace c = false) → LF ∉ a ∧ NUL ∉ a :=
    fun ha => ⟨fun h => by simpa using (ha _ h).2, fun h => (ha _ h).1 rfl⟩
  obtain ⟨hv₁, hv₂⟩ := hword w.version_bytes
  obtain ⟨hs₁, hs₂⟩ := hword w.status_bytes
  have hr₁ : LF ∉ w.reason := fun h => (w.reason_bytes _ h).1 rfl
  have hr₂ : NUL ∉ w.reason := fun h => (w.reason_bytes _ h).2 rfl
  refine ⟨⟨w.versionToken ++ SP :: (w.statusToken ++ SP :: (w.reason ++ [CR])), by
    simp [statusLine], ?_⟩, ?_⟩
  · simp [hv₁, hs₁, hr₁]
    decide
  · simp [statusLine, hv₂, hs₂, hr₂]
    decide

theorem statusLine_head : ∀ c ∈ w.statusLine.head?, isspace c = false := by
  obtain ⟨c, v, hv⟩ := List.exists_cons_of_ne_nil w.version_ne
  have := (w.version_bytes c (by simp [hv])).2
  simpa [statusLine, hv] using this

/-- The status line is accepted, with the status it says. -/
theorem statusLine_run (s : HeadState Int) (t : List Byte) :
    ∃ m, m.length = w.statusLine.length ∧
      statusLineMachine.run s (w.statusLine ++ t)
        = .halt ⟨.done, w.status, s.done ++ m, s.done.length + w.statusLine.length⟩ t := by
  have h₁ : TokenAt isspace w.statusLine [] w.versionToken SP
      (w.statusToken ++ SP :: (w.reason ++ [CR, LF])) :=
    WellFormedHead.tokenAt_word w.version_ne w.version_bytes isspace_SP
  have h₂ : TokenAt isspace (w.statusToken ++ SP :: (w.reason ++ [CR, LF])) [] w.statusToken SP
      (w.reason ++ [CR, LF]) :=
    WellFormedHead.tokenAt_word w.status_ne w.status_bytes isspace_SP
  obtain ⟨hlow, hhigh⟩ := w.status_range
  have hdone : ¬ (atoi w.statusToken < HTTP_STATUS_START ∨
      atoi w.statusToken > HTTP_STATUS_END) := by omega
  have hstore : statusLineStore s.x w.statusLine 0
      = some (.done, w.status, ([] ++ w.versionToken ++ [NUL] ++ [] ++ w.statusToken ++ [NUL]) ++
          (w.reason ++ [CR, LF]), w.statusLine.length) := by
    rw [statusLineStore, statusLineStep_words w.statusLine_isLine h₁ h₂, if_neg hdone]
    rfl
  have hrun := @firstLineMachine_line _ _ (fun _ x => x) s [] _ t _ _ _ _ (by simp)
    w.statusLine_isLine w.statusLine_head hstore (by decide)
  refine ⟨_, ?_, by simpa [statusLineMachine] using hrun⟩
  simp [statusLine]

/-- The response behind the status line: the line has become `m`, and `t` is unread. -/
def lineRead (conf : Conf) (r : HttpRequest) (m t : List Byte) : HttpRequest :=
  { r with
    state := .statusLine
    status := w.status
    toHeap := (headHeap conf r.toHeap).setBuf r.bufs.length
      (headBuf conf.clientHeaderSize m t m.length) }

section Line

variable {conf : Conf} {r : HttpRequest} {io : Io} {ps : List (List Byte)} {es : List RecvEvent}

theorem statusLine_parsed (hr : r.HeadReady .response) (hps : ∀ p ∈ ps, p ≠ [])
    (hfit : ps.flatten.length ≤ conf.clientHeaderSize) (hio : io.recvs = ps.map .data ++ es)
    {t : List Byte} (hs : ps.flatten = w.statusLine ++ t) :
    ∃ (m t₁ : List Byte) (rest : List (List Byte)), t = t₁ ++ rest.flatten ∧ rest <:+ ps ∧
      m.length = w.statusLine.length ∧
      httpProcessStatusLine conf r io
        = .ret (true, w.lineRead conf r m t₁, { io with recvs := rest.map .data ++ es }) := by
  obtain ⟨m, hm, hrun⟩ := w.statusLine_run ⟨r.status, []⟩ t
  have hline : firstLineRun .response r ps.flatten
      = .halt ⟨.done, r.setStatus w.status, m, m.length⟩ t := by
    simp only [firstLineRun, hs, hrun, Parsed.map, HeadResult.map, hm]
    simp
  obtain ⟨t₁, rest, ht, hrest, hcall⟩ := httpProcessFirstLine_halt hr hps hfit hio hline
  exact ⟨m, t₁, rest, ht, hrest, hm, hcall⟩

end Line

end WellFormedReply

/-! ## The texts of the lines -/

/-- The pairs read the lines in the bytes `m` of the block `k`. -/
def ReadLines (k : Nat) (m : List Byte) (pairs : List (Str × Str))
    (lines : List (List Byte × List Byte)) : Prop :=
  List.Forall₂ (fun p l => p.1.Reads k m l.1 ∧ p.2.Reads k m l.2) pairs lines

theorem readLines_calls {k : Nat} {m : List Byte} {calls : List SinkCall} {fs : List HeaderField}
    (h : List.Forall₂ (SinkCall.Reads k m) calls fs) :
    ReadLines k m (calls.map fun c => (c.name, c.value)) (fs.map fun f => (f.name, f.value)) := by
  rw [ReadLines, List.forall₂_map_left_iff, List.forall₂_map_right_iff]
  exact h.imp fun c f hc => ⟨hc.name, hc.value⟩

section Lines

variable {h : Heap} {k : Nat} {m q : List Byte}

theorem Str.Reads.cstr {x : Str} {s : List Byte} (hx : x.Reads k m s)
    (hb : (h.buf k).mem = m ++ q) :
    h.cstr x.data = some s ∧ h.str x.data = s ∧ x.len = s.length := by
  obtain ⟨off, rfl, hs⟩ := hx.append q
  have hcstr : h.cstr (.buf k off) = some s := by rw [Heap.cstr, hb, cstr_of_strAt hs]
  exact ⟨hcstr, by rw [Heap.str, hcstr]; rfl, rfl⟩

theorem ReadLines.textLines {pairs : List (Str × Str)} {lines : List (List Byte × List Byte)}
    (hread : ReadLines k m pairs lines) (hb : (h.buf k).mem = m ++ q) :
    pairs.map h.textLine = lines := by
  induction hread with
  | nil => rfl
  | cons hl _ ih =>
      rw [List.map_cons, ih, Heap.textLine, (hl.1.cstr hb).2.1, (hl.2.cstr hb).2.1]

/-- A table by the texts of its lines. -/
theorem lineTable_textLines {pairs : List (Str × Str)}
    (hplain : ∀ p ∈ pairs, (h.nameKey p.1).Plain) :
    lineTable (pairs.map h.textLine)
      = (setAll h pairs).map fun e => (h.str e.name.data, h.str e.value.data) := by
  have hlines : (setAll h pairs).map (fun e => (h.str e.name.data, h.str e.value.data))
      = ((setAll h pairs).map h.entry).map (Prod.map Prod.fst fun v => h.str v.data) := by
    rw [List.map_map]
    rfl
  rw [hlines, setAll_entries, build_map List.isPrefixOf Prod.fst (fun v : Str => h.str v.data),
    List.map_map]
  · rfl
  · intro e he k
    obtain ⟨p, hp, rfl⟩ := List.mem_map.mp he
    rw [Bool.eq_iff_iff, List.isPrefixOf_iff_prefix]
    exact (nameHits_iff (hplain p hp) k).symm

/-- The lines of a reply are lines `name: value`. -/
theorem ReadLines.fieldLine {pairs : List (Str × Str)} {fs : List HeaderField}
    (hread : ReadLines k m pairs (fs.map fun f => (f.name, f.value)))
    (hb : (h.buf k).mem = m ++ q) : ∀ p ∈ pairs, h.FieldLine p ∧ h.cstr p.2.data ≠ none := by
  rw [ReadLines, List.forall₂_map_right_iff] at hread
  induction hread with
  | nil => exact fun p hp => absurd hp List.not_mem_nil
  | @cons p f pairs fs hl _ ih =>
      intro p' hp'
      rcases List.mem_cons.mp hp' with rfl | hp'
      · obtain ⟨-, hname, hlen⟩ := hl.1.cstr hb
        obtain ⟨hsome, hvalue, -⟩ := hl.2.cstr hb
        refine ⟨⟨by rw [hname]; exact f.name_ne, by rw [hname]; exact hlen, ?_,
          by rw [hvalue]; exact f.value_ne, ?_⟩, by rw [hsome]; simp⟩
        · rw [hname]
          exact ⟨fun hc => (f.name_bytes _ hc).1 rfl, fun hc => (f.name_bytes _ hc).2.1 rfl⟩
        · rw [hvalue]
          exact fun hc => (f.value_bytes _ hc).1 rfl
      · exact ih p' hp'

theorem fieldLines_plain {pairs : List (Str × Str)} (hf : ∀ p ∈ pairs, h.FieldLine p) :
    ∀ p ∈ pairs, (h.nameKey p.1).Plain :=
  fun p hp => ⟨(hf p hp).name_len, Heap.notMem_str _ _⟩

/-- The declared length in a table of lines. -/
theorem httpHeaderInt_lines {pairs : List (Str × Str)}
    (hf : ∀ p ∈ pairs, h.FieldLine p ∧ h.cstr p.2.data ≠ none) :
    httpHeaderInt h (setAll h pairs) HTTP_HEADER_CONTENT_LEN
      = some (declaredLength (lineTable (pairs.map h.textLine))) := by
  have hname : h.str HTTP_HEADER_CONTENT_LEN.data = bytes "Content-Length" := by
    show ((bytes "Content-Length").takeWhile (· != NUL)) = _
    decide
  have hlen : HTTP_HEADER_CONTENT_LEN.len = 14 := by decide
  rw [declaredLength, lineTable_textLines (fieldLines_plain fun p hp => (hf p hp).1), List.find?_map,
    httpHeaderInt, httpHeaderStr, hname, hlen]
  simp only [Function.comp_def]
  cases hfind : (setAll h pairs).find? fun e =>
      strncasecmpEq (bytes "Content-Length") (h.str e.name.data) 14 with
  | none => rfl
  | some e =>
      obtain ⟨-, p, hp, hvalue⟩ := mem_setAll (List.mem_of_find?_eq_some hfind)
      obtain ⟨v, hv⟩ := Option.ne_none_iff_exists'.mp (hf p hp).2
      rw [← hvalue] at hv
      simp [Heap.str, hv]

end Lines

/-! ## The head of a reply -/

section Reply

variable {conf : Conf} {r : HttpRequest} {io : Io} {ps : List (List Byte)} {es : List RecvEvent}

/-- The response behind the head of a reply; `t` and what `io` will receive are left of the
    pieces. -/
structure WellFormedReply.HeadOf (w : WellFormedReply) (conf : Conf) (r : HttpRequest)
    (pairs : List (Str × Str)) (m t : List Byte) (r' : HttpRequest) : Prop where
  state : r'.state = .headerLine
  status : r'.status = w.status
  request : r'.toRequestLine = r.toRequestLine
  body : r'.bodyOut = r.bodyOut
  lt : r'.headerBuf < r'.bufs.length
  buf : r'.buf r'.headerBuf = headBuf conf.clientHeaderSize m t m.length
  fit : m.length + t.length ≤ conf.clientHeaderSize
  table : r'.headersOut.headers = setAll r'.toHeap pairs
  lines : ReadLines r'.headerBuf m pairs w.lines

theorem WellFormedReply.head_parsed (w : WellFormedReply) (hr : r.HeadReady .response)
    (hps : ∀ p ∈ ps, p ≠ []) (hfit : ps.flatten.length ≤ conf.clientHeaderSize)
    (hio : io.recvs = ps.map .data ++ es) {behind : List Byte}
    (hs : ps.flatten = w.bytes ++ behind) :
    ∃ (r₁ : HttpRequest) (io₁ : Io) (r₂ : HttpRequest) (m t : List Byte)
      (rest : List (List Byte)),
      httpProcessStatusLine conf r io = .ret (true, r₁, io₁) ∧
      httpHeaderLoop conf .response r₁ io₁
        = .ret (true, r₂, { io with recvs := rest.map .data ++ es }) ∧
      w.HeadOf conf r (handedPairs conf r₁ io₁) m t r₂ ∧ behind = t ++ rest.flatten ∧
      rest <:+ ps := by
  rw [bytes, List.append_assoc] at hs
  obtain ⟨m₁, t₁, rest₁, ht₁, hrest₁, hm₁, hfirst⟩ := w.statusLine_parsed hr hps hfit hio hs
  have hk := headHeap_length conf r.toHeap
  have hlens := congrArg List.length hs
  have htlens := congrArg List.length ht₁
  simp only [List.length_append] at hlens htlens
  have hcap := conf.clientHeaderSize_lt_64
  -- the header lines, on what the status line leaves
  obtain ⟨calls, m, hrun, ⟨x, hx⟩, hm, hreads⟩ :=
    headerRun_fieldLines r.bufs.length w.fields m₁ behind (by omega)
  rw [ht₁] at hrun
  have hps₁ : ∀ p ∈ rest₁, p ≠ [] := fun p hp => hps p (hrest₁.subset hp)
  have hfit₁ : m₁.length + t₁.length + rest₁.flatten.length ≤ conf.clientHeaderSize := by omega
  have hnames : NamesIn r.bufs.length ((w.lineRead conf r m₁ t₁).headers .response) m₁ := by
    show NamesIn r.bufs.length r.headersOut.headers m₁
    simp [NamesIn, hr.2]
  obtain ⟨t, rest, ht, hrest, hloop⟩ := @httpHeaderLoop_halt conf .response
    (w.lineRead conf r m₁ t₁) { io with recvs := rest₁.map .data ++ es } _ _ _ _ _ _ _ rfl hcap hk
    rfl rfl hnames hps₁ hfit₁ rfl _ _ _ hrun
  have hpairs := @handedPairs_halt conf (w.lineRead conf r m₁ t₁)
    { io with recvs := rest₁.map .data ++ es } _ _ _ _ _ _ _ hcap hk rfl rfl hps₁ hfit₁ rfl
    _ _ _ hrun
  obtain ⟨htable, -, -⟩ := @headTable conf .response _ _ _ _ _ _ hr hfirst hloop
  have htlen := congrArg List.length ht
  rw [List.length_append] at htlen
  refine ⟨_, _, _, m, t, rest, hfirst, hloop, ?_, ht, hrest.trans hrest₁⟩
  have hbuf := Heap.buf_setBuf hk (headBuf conf.clientHeaderSize m t m.length)
  exact {
    state := rfl
    status := rfl
    request := rfl
    body := rfl
    lt := by
      show r.bufs.length < _
      rw [Heap.setBuf_length]
      exact hk
    buf := hbuf
    fit := by omega
    table := htable
    lines := by
      rw [hpairs]
      exact readLines_calls hreads }

/-- Behind the lines the declared length is stored, and nothing else. -/
theorem WellFormedReply.HeadOf.headersDone {w : WellFormedReply} {pairs : List (Str × Str)}
    {m t : List Byte} {r' : HttpRequest} (hw : w.HeadOf conf r pairs m t r') :
    headersDone .response r' io
      = .ret (true,
          { r' with headersOut := { r'.headersOut with contentLen := w.contentLen } }, io) := by
  have hmem : (r'.buf r'.headerBuf).mem = m ++ (t ++ List.replicate
      (conf.clientHeaderSize + 1 - (m.length + t.length)) NUL) := by
    rw [hw.buf, headBuf, List.append_assoc]
  have hint := httpHeaderInt_lines (hw.lines.fieldLine hmem)
  rw [hw.lines.textLines hmem, ← hw.table] at hint
  simp only [XwpServer.headersDone, hint]
  rfl

/-- The status line and the header lines of a reply are accepted; what is left is its body. -/
theorem WellFormedReply.replyStatus_eq (w : WellFormedReply) (hr : r.HeadReady .response)
    (hps : ∀ p ∈ ps, p ≠ []) (hfit : ps.flatten.length ≤ conf.clientHeaderSize)
    (hio : io.recvs = ps.map .data ++ es) {behind : List Byte}
    (hs : ps.flatten = w.bytes ++ behind) :
    ∃ (r₀ : HttpRequest) (io₀ : Io) (r₁ : HttpRequest) (m t : List Byte)
      (rest : List (List Byte)),
      httpProcessStatusLine conf r io = .ret (true, r₀, io₀) ∧
      httpProcessHeaderLine conf .response r₀ io₀
        = .ret (true, r₁, { io with recvs := rest.map .data ++ es }) ∧
      replyStatus conf r io = replyBody conf r₁ { io with recvs := rest.map .data ++ es } ∧
      w.HeadOf conf r (handedPairs conf r₀ io₀) m t r₁ ∧ r₁.headersOut.contentLen = w.contentLen ∧
      behind = t ++ rest.flatten ∧ rest <:+ ps := by
  obtain ⟨r₀, io₀, q, m, t, rest, hfirst, hloop, hw, hbehind, hrest⟩ :=
    w.head_parsed hr hps hfit hio hs
  have hlines : httpProcessHeaderLine conf .response r₀ io₀
      = .ret (true, { q with headersOut := { q.headersOut with contentLen := w.contentLen } },
          { io with recvs := rest.map .data ++ es }) := by
    rw [httpProcessHeaderLine, hloop]
    exact hw.headersDone
  refine ⟨r₀, io₀, _, m, t, rest, hfirst, hlines, ?_, ⟨hw.state, hw.status, hw.request, hw.body,
    hw.lt, hw.buf, hw.fit, hw.table, hw.lines⟩, rfl, hbehind, hrest⟩
  rw [replyStatus, hfirst]
  show replyLines conf r₀ io₀ = _
  rw [replyLines, hlines]
  rfl

/-- A body that was received leaves the status. -/
theorem httpProcessContentBody_status {r' : HttpRequest} {io' : Io} {n : Int}
    (h : httpProcessContentBody conf .response n r io = .ret (true, r', io')) :
    r'.status = r.status := by
  simp only [httpProcessContentBody] at h
  split_ifs at h
  · cases h
    rfl
  · obtain ⟨e, w, recvs, -, hok, rfl, -⟩ := bodyUntilClose_ret h
    obtain rfl : e = .done := by simpa using hok.symm
    rfl
  · cases h
    rfl
  · cases h
  · obtain ⟨e, w, recvs, -, hok, rfl, -⟩ := bodyOfLength_ret h
    obtain rfl : e = .done := by simpa using hok.symm
    rfl

theorem replyBody_complete {r' : HttpRequest} (h : replyBody conf r io = .ret (.complete r')) :
    ∃ io', httpProcessContentBody conf .response r.headersOut.contentLen r io
      = .ret (true, r', io') := by
  obtain ⟨⟨ok, q, io'⟩, hbody, hend⟩ := Outcome.bind_eq_ret.mp h
  cases ok with
  | false => cases hend
  | true =>
      cases hend
      exact ⟨io', hbody⟩

/-- What the head of the response is printed from: the lines of the reply and the server's. -/
def WellFormedReply.printed (w : WellFormedReply) (r : HttpRequest) (statusLine : List Byte) :
    List Byte :=
  firstLineText r statusLine ++
    (lineTable (w.lines ++ (serverHeaders r).map r.textLine)).flatMap
      (fun l => headerText l.1 l.2) ++ [CR, LF]

/-- A response whose lines are still those of the reply is printed from them. -/
theorem WellFormedReply.head_printed (w : WellFormedReply) {pairs : List (Str × Str)} {k : Nat}
    {m q head : List Byte} (hread : ReadLines k m pairs w.lines) (hb : (r.buf k).mem = m ++ q)
    (htable : r.headersOut.headers = setAll r.toHeap pairs)
    (hhead : connectionResponseHead r = .ok head) :
    ∃ statusLine, httpStatusLine r.status = .ok statusLine ∧ head = w.printed r statusLine := by
  obtain ⟨statusLine, hline, htext⟩ := responseHead_lines hhead
  refine ⟨statusLine, hline, ?_⟩
  rw [htext, responseLines_eq htable fun p hp => (hread.fieldLine hb p hp).1, hread.textLines hb]
  rfl

/-! ## Behind the head -/

section HeadOf

variable {w : WellFormedReply} {pairs : List (Str × Str)} {m t : List Byte} {r₁ : HttpRequest}

theorem WellFormedReply.HeadOf.valid (hw : w.HeadOf conf r pairs m t r₁) :
    (r₁.buf r₁.headerBuf).Valid := by
  have hsize := conf.clientHeaderSize_lt
  rw [hw.buf]
  exact headBuf_valid (by omega) hw.fit

theorem WellFormedReply.HeadOf.unread (hw : w.HeadOf conf r pairs m t r₁) :
    (r₁.buf r₁.headerBuf).unread = t := by
  rw [hw.buf, headBuf_unread]

theorem WellFormedReply.HeadOf.method (hw : w.HeadOf conf r pairs m t r₁)
    (hmethod : r.method ≠ .head) : r₁.method ≠ .head := by
  rw [show r₁.method = r.method from congrArg (·.method) hw.request]
  exact hmethod

/-- The strings of the head are still there behind the body. -/
theorem WellFormedReply.HeadOf.kept (hw : w.HeadOf conf r pairs m t r₁) {h : Heap}
    (hkeeps : r₁.toHeap.Keeps h) : ∃ q, (h.buf r₁.headerBuf).mem = m ++ q := by
  have hsame := hkeeps.2 r₁.headerBuf hw.lt
  have hlast : (r₁.buf r₁.headerBuf).last = m.length + t.length := by
    rw [hw.buf]
    rfl
  have hfront : (r₁.buf r₁.headerBuf).mem.take (m.length + t.length) = m ++ t := by
    rw [hw.buf, headBuf, List.take_append_of_le_length (by simp), List.take_of_length_le (by simp)]
  rw [hlast, hfront] at hsame
  refine ⟨t ++ (h.buf r₁.headerBuf).mem.drop (m.length + t.length), ?_⟩
  rw [← List.append_assoc, ← hsame, List.take_append_drop]

/-- A reply whose body was received, when its response is sent. -/
theorem WellFormedReply.HeadOf.relays (hw : w.HeadOf conf r pairs m t r₁) {n : Int}
    {r₂ r₃ : HttpRequest} {io₁ io₂ client client' : Io} {body : List Byte} {file : SentFile}
    {ok : Bool} (hbody : httpProcessContentBody conf .response n r₁ io₁ = .ret (true, r₂, io₂))
    (htable : r₂.headersOut.headers = setAll r₂.toHeap pairs) (hheld : HoldsOut r₂ body)
    (hsend : connectionSendResponse r₂ client file = .ret (ok, r₃, client')) :
    ∃ statusLine, httpStatusLine w.status = .ok statusLine ∧
      Relays client client' ok (w.printed r₂ statusLine ++ body) := by
  obtain ⟨hkeeps, -, -, -⟩ := httpProcessContentBody_keeps hbody
  obtain ⟨q, hq⟩ := hw.kept hkeeps
  obtain ⟨head, hhead, hrelays, -⟩ := connectionSendResponse_relays hheld hsend
  obtain ⟨statusLine, hline, rfl⟩ := w.head_printed hw.lines hq htable hhead
  rw [httpProcessContentBody_status hbody, hw.status] at hline
  exact ⟨statusLine, hline, hrelays⟩

end HeadOf

/-- The head of a reply is accepted in whatever pieces it arrives, if it fits with them.  If its
    body is received too and the response begun, the client gets what is printed from the reply
    and behind it the body, as far as its connection lasts, and all of that if the response is
    sent. -/
theorem wellFormedReply_delivered (w : WellFormedReply) {n : Int} (hapart : LengthApart w.fields)
    (hdeclared : SaysLength w.fields n) (hconf : conf.GrowingBodies)
    (hr : r.HeadReady .response) (hmethod : r.method ≠ .head) (hfd : r.bodyOut.contentFd < 0)
    (hnone : r.bodyOut.content = none) (hps : ∀ p ∈ ps, p ≠ [])
    (hfit : ps.flatten.length ≤ conf.clientHeaderSize) (hio : io.recvs = ps.map .data ++ es)
    {behind : List Byte} (hs : ps.flatten = w.bytes ++ behind) :
    ∃ r₁ io₁, replyStatus conf r io = replyBody conf r₁ io₁ ∧ r₁.status = w.status ∧
      r₁.headersOut.contentLen = n ∧
      ∀ r₂, replyStatus conf r io = .ret (.complete r₂) →
        ∃ used left body, io.recvs = used ++ left ∧ recvBytes used = w.bytes ++ body ∧
          (n < 0 → ∃ before, used = before ++ [.data []]) ∧
          n ≤ body.length ∧
          ∀ client client' file ok r₃,
            connectionSendResponse r₂ client file = .ret (ok, r₃, client') →
            ∃ statusLine, httpStatusLine w.status = .ok statusLine ∧
              Relays client client' ok
                (w.printed r₂ statusLine ++ replyBytes n body) := by
  obtain rfl := w.contentLen_of_declared hapart hdeclared
  obtain ⟨r₀, io₀, r₁, m, t, rest, hfirst, hlines, hreply, hw, hlen, hbehind, hrest⟩ :=
    w.replyStatus_eq hr hps hfit hio hs
  refine ⟨r₁, _, hreply, hw.status, hlen, fun r₂ hcomplete => ?_⟩
  obtain ⟨io₂, hbody⟩ := replyBody_complete (hreply.symm.trans hcomplete)
  -- the body, behind what is left of the pieces
  obtain ⟨used, hused, hclose, hle, hheld, -⟩ :=
    replyBody_held hconf hw.state (hw.method hmethod) (by rw [hw.body]; exact hfd)
      (by rw [hw.body]; exact hnone) hw.lt hw.valid hbody
  rw [hw.unread, hlen] at hle hheld
  obtain ⟨taken, rfl⟩ := hrest
  have htaken : taken.flatten = w.bytes ++ t := by
    rw [List.flatten_append, hbehind, ← List.append_assoc] at hs
    exact List.append_cancel_right hs
  have haccepted : AcceptedReply conf r₂ (handedPairs conf r₀ io₀) :=
    ⟨r, io, r₀, io₀, r₁, _, true, r₂, io₂, r₂.keepAlive, r₂.bodyOut, hr, hfirst, hlines, hbody,
      rfl, rfl⟩
  refine ⟨taken.map .data ++ used, io₂.recvs, t ++ recvBytes used, ?_, ?_, fun hn => ?_, hle,
    fun client client' file ok r₃ hsend => hw.relays hbody haccepted.table hheld hsend⟩
  · have hused : rest.map .data ++ es = used ++ io₂.recvs := hused
    rw [hio, List.map_append, List.append_assoc, hused, List.append_assoc]
  · rw [recvBytes_append, recvBytes_map_data, htaken, List.append_assoc]
  · obtain ⟨before, hbefore⟩ := hclose (by rw [hlen]; exact hn)
    exact ⟨taken.map .data ++ before, by rw [hbefore, List.append_assoc]⟩

/-- `Server: b`. -/
def serverField : HeaderField where
  name := bytes "Server"
  value := bytes "b"
  name_ne := by decide
  name_bytes := by decide +kernel
  name_head := by decide +kernel
  name_last := by decide +kernel
  value_ne := by decide
  value_bytes := by decide +kernel
  value_head := by decide +kernel

/-- A small reply: `HTTP/1.0 200 OK`, its server and the length of its body. -/
def okReply : WellFormedReply where
  versionToken := bytes "HTTP/1.0"
  version_ne := by decide
  version_bytes := by decide +kernel
  statusToken := bytes "200"
  status_ne := by decide
  status_bytes := by decide +kernel
  status_range := by decide
  reason := bytes "OK"
  reason_bytes := by decide +kernel
  fields := [
    serverField, lengthField (bytes "2") (by decide) (by decide +kernel) (by decide +kernel)]

theorem okReply_apart : LengthApart okReply.fields := by
  unfold LengthApart
  decide +kernel

theorem okReply_declares : SaysLength okReply.fields (2 : Nat) := by
  refine .number ⟨_, List.mem_cons_of_mem _ List.mem_cons_self, by decide⟩ ?_ (by decide)
  unfold IsLength IsDecimal
  decide +kernel

/-- It comes in three pieces. -/
def okReplyIo : Io :=
  { recvs := [.data (okReply.bytes.take 7), .data (okReply.bytes.drop 7 ++ [97]), .data [98]] }

/-- A request that waits for its reply. -/
def okResponse : HttpRequest :=
  { state := .contentBody, versionStr := .serverString "HTTP/1.1" }

theorem wellFormedReply_delivered_okReply :
    ∃ r₁ io₁, replyStatus exampleConf okResponse okReplyIo = replyBody exampleConf r₁ io₁ ∧
      r₁.status = okReply.status ∧ r₁.headersOut.contentLen = 2 ∧
      ∀ r₂, replyStatus exampleConf okResponse okReplyIo = .ret (.complete r₂) →
        ∃ used left body, okReplyIo.recvs = used ++ left ∧ recvBytes used = okReply.bytes ++ body ∧
          ((2 : Int) < 0 → ∃ before, used = before ++ [.data []]) ∧
          (2 : Int) ≤ body.length ∧
          ∀ client client' file ok r₃,
            connectionSendResponse r₂ client file = .ret (ok, r₃, client') →
            ∃ statusLine, httpStatusLine okReply.status = .ok statusLine ∧
              Relays client client' ok
                (okReply.printed r₂ statusLine ++ replyBytes 2 body) :=
  @wellFormedReply_delivered exampleConf okResponse okReplyIo
    [okReply.bytes.take 7, okReply.bytes.drop 7 ++ [97]] [.data [98]] okReply
    _ okReply_apart okReply_declares ⟨by decide, by decide, by decide⟩ ⟨rfl, rfl⟩ (by decide) (by decide)
    rfl (by decide) (by decide) rfl [97] rfl

/-! ## A body that is there -/

/-- A piece that the buffer has space for is received. -/
theorem Holds.recv_fits {bs : List Byte} {v : Receiving} (hv : Holds bs v) (ds : List Byte)
    (hfit : ds.length ≤ v.cur.end_ - v.cur.last) :
    ∃ cur h, v.cur.recv v.heap ds = .ok (cur, h) ∧ cur.pos = v.cur.pos ∧ cur.end_ = v.cur.end_ ∧
      Holds (bs ++ ds) { v with cur := cur, heap := h, len := v.len + ds.length } := by
  rcases hv.recv ds with hmis | hok
  · have hspace : ptrDiff v.cur.end_ v.cur.last = v.cur.end_ - v.cur.last := by
      have := hv.last_le
      have := hv.end_lt
      unfold ptrDiff
      omega
    simp only [BodyBuf.recv, hspace, if_neg (Nat.not_lt.mpr hfit)] at hmis
    split at hmis <;> cases hmis
  · exact hok

/-- The pieces of a body of `n` bytes end its loop. -/
theorem bodyOfLength_pieces {n : Nat} {bs : List Byte} {v : Receiving} (hv : Holds bs v)
    (hroom : n - bs.length ≤ v.cur.end_ - v.cur.last) {qs : List (List Byte)}
    (hqs : ∀ q ∈ qs, q ≠ []) (hn : bs.length + qs.flatten.length = n) (es : List RecvEvent) :
    ∃ v', Feed.feed (onBodyOfLength n) (checkBody n v) (qs.map .data ++ es)
      = (.inr (.exit .done v'), es) := by
  induction qs generalizing bs v with
  | nil =>
      have hle : (n : Int) ≤ v.len := by
        rw [hv.len]
        simp only [List.flatten_nil, List.length_nil] at hn
        omega
      exact ⟨v, by rw [checkBody, if_pos hle]; exact Feed.feed_inr _ _ _⟩
  | cons q qs ih =>
      have hq := List.length_pos_of_ne_nil (hqs q (by simp))
      rw [List.flatten_cons, List.length_append] at hn
      have hmore : ¬ (n : Int) ≤ v.len := by
        rw [hv.len]
        omega
      obtain ⟨cur, h, hrecv, hpos, hend, hv'⟩ := hv.recv_fits q (by omega)
      have hold := hv.length
      have hnew : (bs ++ q).length = cur.last - cur.pos := hv'.length
      have hlast : cur.last ≤ cur.end_ := hv'.last_le
      have hle : cur.pos ≤ cur.last := hv'.pos_le
      have hvlast := hv.last_le
      have hvpos := hv.pos_le
      have hlen : v.len + q.length = ((bs ++ q).length : Nat) := hv'.len
      have hsum : (bs ++ q).length = bs.length + q.length := List.length_append
      obtain ⟨v', hfeed⟩ := ih hv' (by show n - (bs ++ q).length ≤ cur.end_ - cur.last; omega)
        (fun q hq => hqs q (by simp [hq])) (by omega)
      refine ⟨v', ?_⟩
      have hstep : onBodyOfLength n v (.data q)
          = checkBody n { v with cur := cur, heap := h, len := v.len + q.length } := by
        simp only [onBodyOfLength, hqs q (by simp), if_false, hrecv]
        rw [if_neg (by omega)]
      rw [checkBody, if_neg hmore, List.map_cons, List.cons_append, Feed.feed_cons, hstep]
      exact hfeed

theorem bodyOfLength_done {n : Nat} {v : Receiving} {rest : List RecvEvent}
    (hfd : r.bodyOut.contentFd < 0)
    (hfeed : ofLengthLoop n r.toHeap io.errno io.recvs = (.inr (.exit .done v), rest)) :
    ∃ r' io', bodyOfLength .response n r io = .ret (true, r', io') := by
  have hfd' : ¬ 0 ≤ (r.body .response).contentFd := Int.not_le.mpr hfd
  unfold bodyOfLength
  rw [hfeed]
  dsimp only
  rw [if_neg fun h => hfd' h.2]
  exact ⟨_, _, rfl⟩

/-- A body of the declared length that is there in pieces is received. -/
theorem httpProcessContentBody_pieces {n : Nat} (hstate : r.state = .headerLine)
    (hmethod : r.method ≠ .head) (hfd : r.bodyOut.contentFd < 0)
    (hk : r.headerBuf < r.bufs.length) (hbuf : (r.buf r.headerBuf).Valid)
    (hmax : (n : Int) ≤ conf.maxContentLen) (hsmall : ¬ BufRefused n) {qs : List (List Byte)}
    (hqs : ∀ q ∈ qs, q ≠ []) (hio : io.recvs = qs.map .data ++ es)
    (hn : (r.buf r.headerBuf).unread.length + qs.flatten.length = n) :
    ∃ r' io', httpProcessContentBody conf .response n r io = .ret (true, r', io') := by
  rcases Nat.eq_zero_or_pos n with rfl | hpos
  · exact ⟨_, _, httpProcessContentBody_empty hstate hmethod⟩
  · obtain ⟨b, h, hcreate⟩ := bodyBufOf_granted hk hbuf hsmall
    obtain ⟨hv, hroom⟩ := bodyBufOf_holds hk hbuf hcreate io.errno
    obtain ⟨v', hfeed⟩ := bodyOfLength_pieces hv hroom hqs hn es
    have hstart : startOfLength n r.toHeap io.errno = checkBody n (receivingOf b h io.errno) := by
      unfold startOfLength
      rw [hcreate]
    rw [← hio, ← hstart] at hfeed
    rw [httpProcessContentBody_ofLength hstate hmethod (by omega) hmax, Int.toNat_natCast]
    exact bodyOfLength_done (r := { r with state := .contentBody }) hfd hfeed

/-- Of two fronts of one stream the shorter one's bytes begin the longer one's. -/
theorem take_recvBytes {used left pieces es : List RecvEvent} {t : List Byte}
    (hsplit : used ++ left = pieces ++ es)
    (hle : (t ++ recvBytes pieces).length ≤ (t ++ recvBytes used).length) :
    (t ++ recvBytes used).take (t ++ recvBytes pieces).length = t ++ recvBytes pieces := by
  have hpieces : pieces <+: used ++ left := ⟨es, hsplit.symm⟩
  rcases List.prefix_or_prefix_of_prefix hpieces (List.prefix_append used left) with
    ⟨more, rfl⟩ | ⟨more, rfl⟩
  · rw [recvBytes_append, ← List.append_assoc, List.take_left]
  · rw [recvBytes_append, ← List.append_assoc, List.length_append] at hle
    have hmore : recvBytes more = [] := List.length_eq_zero_iff.mp (by omega)
    rw [recvBytes_append, hmore, List.append_nil, List.take_length]

/-- A reply with its length in its head and as many bytes behind it completes the exchange, in
    whatever pieces it arrives. -/
theorem wellFormedReply_received (w : WellFormedReply) {n : Nat} (hapart : LengthApart w.fields)
    (hdeclared : SaysLength w.fields n) (hconf : conf.GrowingBodies)
    (hr : r.HeadReady .response) (hmethod : r.method ≠ .head) (hfd : r.bodyOut.contentFd < 0)
    (hnone : r.bodyOut.content = none) {qs : List (List Byte)} (hps : ∀ p ∈ ps ++ qs, p ≠ [])
    (hfit : ps.flatten.length ≤ conf.clientHeaderSize)
    (hio : io.recvs = (ps ++ qs).map .data ++ es) {behind : List Byte}
    (hs : ps.flatten = w.bytes ++ behind)
    (hlen : n = (behind ++ qs.flatten).length) (hmax : (n : Int) ≤ conf.maxContentLen) :
    ∃ r₂, replyStatus conf r io = .ret (.complete r₂) ∧
      ∀ client client' file ok r₃,
        connectionSendResponse r₂ client file = .ret (ok, r₃, client') →
        ∃ statusLine, httpStatusLine w.status = .ok statusLine ∧
          Relays client client' ok (w.printed r₂ statusLine ++ (behind ++ qs.flatten)) := by
  have hcontent := w.contentLen_of_declared hapart hdeclared
  have hlen : w.contentLen = (behind ++ qs.flatten).length := by rw [hcontent, hlen]
  rw [← hcontent] at hmax
  rw [List.map_append, List.append_assoc] at hio
  obtain ⟨r₀, io₀, r₁, m, t, rest, hfirst, hlines, hreply, hw, hlen₁, hbehind, hrest⟩ :=
    w.replyStatus_eq hr (fun p hp => hps p (by simp [hp])) hfit hio hs
  have hmaxLt := hconf.max_le
  have hfd₁ : r₁.bodyOut.contentFd < 0 := by
    rw [hw.body]
    exact hfd
  have hstream : rest.map .data ++ (qs.map .data ++ es) = (rest ++ qs).map .data ++ es := by
    rw [List.map_append, List.append_assoc]
  have hbytes : behind ++ qs.flatten = t ++ recvBytes ((rest ++ qs).map .data) := by
    rw [recvBytes_map_data, List.flatten_append, hbehind, List.append_assoc]
  rw [hbytes] at hlen ⊢
  have hpieces : ∀ q ∈ rest ++ qs, q ≠ [] := by
    intro q hq
    rcases List.mem_append.mp hq with hq | hq
    · exact hps q (List.mem_append_left _ (hrest.subset hq))
    · exact hps q (List.mem_append_right _ hq)
  obtain ⟨r₂, io₂, hbody⟩ : ∃ r₂ io₂, httpProcessContentBody conf .response _ r₁
      { io with recvs := rest.map .data ++ (qs.map .data ++ es) } = .ret (true, r₂, io₂) :=
    httpProcessContentBody_pieces hw.state (hw.method hmethod) hfd₁ hw.lt hw.valid (hlen ▸ hmax)
      (fun hrefused => by unfold BufRefused BUF_SIZE at hrefused; omega) hpieces hstream
      (by rw [hw.unread, recvBytes_map_data, List.length_append])
  rw [← hlen] at hbody
  obtain ⟨used, hused, -, hle, hheld, -⟩ := replyBody_held hconf hw.state (hw.method hmethod) hfd₁
    (by rw [hw.body]; exact hnone) hw.lt hw.valid hbody
  rw [hw.unread] at hle hheld
  rw [hlen] at hle
  have hall : replyBytes w.contentLen (t ++ recvBytes used)
      = t ++ recvBytes ((rest ++ qs).map .data) := by
    rw [hlen, replyBytes, if_neg (by omega), Int.toNat_natCast]
    exact take_recvBytes (hused.symm.trans hstream) (by omega)
  rw [hall] at hheld
  have haccepted : AcceptedReply conf r₂ (handedPairs conf r₀ io₀) :=
    ⟨r, io, r₀, io₀, r₁, _, true, r₂, io₂, r₂.keepAlive, r₂.bodyOut, hr, hfirst, hlines,
      by rw [hlen₁]; exact hbody, rfl, rfl⟩
  refine ⟨r₂, ?_, fun client client' file ok r₃ hsend =>
    hw.relays hbody haccepted.table hheld hsend⟩
  rw [hreply, replyBody, hlen₁, hbody]
  rfl

theorem wellFormedReply_received_okReply :
    ∃ r₂, replyStatus exampleConf okResponse okReplyIo = .ret (.complete r₂) ∧
      ∀ client client' file ok r₃,
        connectionSendResponse r₂ client file = .ret (ok, r₃, client') →
        ∃ statusLine, httpStatusLine okReply.status = .ok statusLine ∧
          Relays client client' ok (okReply.printed r₂ statusLine ++ ([97] ++ [[98]].flatten)) :=
  @wellFormedReply_received exampleConf okResponse okReplyIo
    [okReply.bytes.take 7, okReply.bytes.drop 7 ++ [97]] [] okReply
    _ okReply_apart okReply_declares ⟨by decide, by decide, by decide⟩ ⟨rfl, rfl⟩ (by decide) (by decide)
    rfl [[98]] (by decide) (by decide) rfl [97] rfl (by decide +kernel) (by decide +kernel)

end Reply

end XwpServer
