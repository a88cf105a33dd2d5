/-
  XwpServer.WellFormedHead

  Request heads as a well-behaved client writes them, and what becomes of one.

  A head that fits into the header buffer is parsed to what it was written from,
  in whatever pieces it arrives and whatever comes behind it.
-/

import XwpServer.HeadProcess
import XwpServer.MissingDelim
import Mathlib.Data.Nat.Find

namespace XwpServer

open CString Scan LineParser

/-! ## Heads -/

def HttpMethod.token : HttpMethod → List Byte
  | .get => bytes "GET"
  | .post => bytes "POST"
  | .head => bytes "HEAD"
  | .put => bytes "PUT"

def HttpVersion.token : HttpVersion → List Byte
  | .v10 => bytes "HTTP/1.0"
  | .v11 => bytes "HTTP/1.1"

/-- A header a client may send. -/
structure HeaderField where
  name : List Byte
  value : List Byte
  name_ne : name ≠ []
  name_bytes : ∀ c ∈ name, c ≠ COLON ∧ c ≠ LF ∧ c ≠ NUL
  name_head : ∀ c ∈ name.head?, isspace c = false
  name_last : ∀ c ∈ name.getLast?, isspace c = false
  value_ne : value ≠ []
  value_bytes : ∀ c ∈ value, c ≠ LF ∧ c ≠ NUL
  value_head : ∀ c ∈ value.head?, isspace c = false

/-- `name: value` and a line end. -/
def HeaderField.line (f : HeaderField) : List Byte :=
  f.name ++ [COLON, SP] ++ f.value ++ [CR, LF]

/-- What a request head says. -/
structure WellFormedHead where
  method : HttpMethod
  /-- The method as the client spells it. -/
  methodToken : List Byte
  methodToken_eq : strcasecmpEq methodToken method.token = true
  url : List Byte
  url_ne : url ≠ []
  url_bytes : ∀ c ∈ url, c ≠ NUL ∧ isspace c = false
  url_accepted : UrlAccepted url
  version : HttpVersion
  fields : List HeaderField

namespace WellFormedHead

def requestLine (w : WellFormedHead) : List Byte :=
  w.methodToken ++ [SP] ++ w.url ++ [SP] ++ w.version.token ++ [CR, LF]

def fieldLines (fs : List HeaderField) : List Byte := fs.flatMap HeaderField.line ++ [CR, LF]

/-- The head as it is written. -/
def bytes (w : WellFormedHead) : List Byte := w.requestLine ++ fieldLines w.fields

end WellFormedHead

/-! ## The request line -/

theorem strncasecmpEq_congr {a a' : List Byte} (h : strcasecmpEq a a' = true) (b : List Byte)
    (n : Nat) : strncasecmpEq a b n = strncasecmpEq a' b n := by
  simp only [strcasecmpEq, beq_iff_eq] at h
  simp only [strncasecmpEq, h]

theorem length_eq_of_strcasecmpEq {a b : List Byte} (h : strcasecmpEq a b = true) :
    a.length = b.length := by
  simp only [strcasecmpEq, beq_iff_eq] at h
  simpa using congrArg List.length h

/-- The spelling of a method does not matter. -/
theorem httpMethod_token {w : List Byte} {me : HttpMethod}
    (h : strcasecmpEq w me.token = true) : httpMethod w w.length = some me := by
  simp only [httpMethod, strncasecmpEq_congr h, length_eq_of_strcasecmpEq h]
  cases me <;> decide

theorem tolower_of_lt {c : Byte} (h : c < 65) : tolower c = c := by
  have : ¬ 65 ≤ c := by simpa using h
  simp [tolower, this]

/-- A spelling of a method is one word. -/
theorem methodToken_word {w : List Byte} {me : HttpMethod}
    (h : strcasecmpEq w me.token = true) : ∀ c ∈ w, c ≠ NUL ∧ isspace c = false := by
  intro c hc
  simp only [strcasecmpEq, beq_iff_eq] at h
  have hmem : tolower c ∈ me.token.map tolower := h ▸ List.mem_map_of_mem hc
  have hword : ∀ x ∈ me.token.map tolower, x ≠ NUL ∧ isspace x = false := by
    cases me <;> decide +kernel
  rcases Nat.lt_or_ge c.toNat 65 with hlt | hge
  · rw [tolower_of_lt (by simpa [UInt8.lt_iff_toNat_lt] using hlt)] at hmem
    exact hword c hmem
  · constructor
    · rintro rfl
      simp at hge
    · simp only [isspace, Bool.or_eq_false_iff, beq_eq_false_iff_ne, Bool.and_eq_false_iff,
        decide_eq_false_iff_not, UInt8.le_iff_toNat_le, ne_eq, ← UInt8.toNat_inj]
      constructor
      · change ¬ c.toNat = 32
        omega
      · right
        change ¬ c.toNat ≤ 13
        omega

theorem httpVersion_token (v : HttpVersion) : httpVersion v.token = some v := by
  cases v <;> decide

namespace WellFormedHead

variable (w : WellFormedHead)

theorem tokenAt_word {a rest : List Byte} (hne : a ≠ [])
    (ha : ∀ c ∈ a, c ≠ NUL ∧ isspace c = false) {e : Byte} (he : isspace e = true) :
    TokenAt isspace (a ++ e :: rest) [] a e rest :=
  ⟨rfl, by simp, hne, ha, Or.inr he⟩

theorem methodToken_ne : w.methodToken ≠ [] := by
  intro h
  have := length_eq_of_strcasecmpEq w.methodToken_eq
  rw [h] at this
  revert this
  cases w.method <;> decide

theorem version_word (v : HttpVersion) :
    v.token ≠ [] ∧ ∀ c ∈ v.token, c ≠ NUL ∧ isspace c = false := by
  cases v <;> decide +kernel

theorem requestLine_isLine : IsLine w.requestLine := by
  have hword : ∀ {a : List Byte}, (∀ c ∈ a, c ≠ NUL ∧ isspace c = false) → LF ∉ a ∧ NUL ∉ a :=
    fun ha => ⟨fun h => by simpa using (ha _ h).2, fun h => (ha _ h).1 rfl⟩
  obtain ⟨hm₁, hm₂⟩ := hword (methodToken_word w.methodToken_eq)
  obtain ⟨hu₁, hu₂⟩ := hword w.url_bytes
  obtain ⟨hv₁, hv₂⟩ := hword (version_word w.version).2
  refine ⟨⟨w.methodToken ++ [SP] ++ w.url ++ [SP] ++ w.version.token ++ [CR], by
    simp [requestLine], ?_⟩, ?_⟩
  · simp [hm₁, hu₁, hv₁]
    decide
  · simp [requestLine, hm₂, hu₂, hv₂]
    decide

theorem requestLine_head : ∀ c ∈ w.requestLine.head?, isspace c = false := by
  obtain ⟨c, m, hm⟩ := List.exists_cons_of_ne_nil w.methodToken_ne
  have := (methodToken_word w.methodToken_eq c (by simp [hm])).2
  simpa [requestLine, hm] using this

/-- What the request line is parsed to. -/
theorem requestLineStep_eq_done (k : Nat) :
    ∃ x m, requestLineStep k {} w.requestLine 0 = some (.done, x, m, w.requestLine.length) ∧
      m.length = w.requestLine.length ∧ x.method = w.method ∧ x.version = w.version ∧
      x.methodStr.Reads k m w.methodToken ∧
      x.versionStr.Reads k m w.version.token ∧
      x.url = (httpParseUrl k (w.url ++ [NUL]) {} ⟨0, w.url.length⟩).2.2.shift
        (w.methodToken.length + 1) := by
  -- the three words, each with the byte that ends it
  have hver := version_word w.version
  have h₁ : TokenAt isspace w.requestLine [] w.methodToken SP
      (w.url ++ SP :: (w.version.token ++ CR :: [LF])) := by
    have := @tokenAt_word _ (w.url ++ SP :: (w.version.token ++ CR :: [LF])) w.methodToken_ne
      (methodToken_word w.methodToken_eq) _ isspace_SP
    simpa [requestLine] using this
  have h₂ := @tokenAt_word _ (w.version.token ++ CR :: [LF]) w.url_ne w.url_bytes _ isspace_SP
  have h₃ := @tokenAt_word _ [LF] hver.1 hver.2 _ isspace_CR
  obtain ⟨ret, x, m, hstep, -, hm, hin, hvs, hiff, hdone⟩ :=
    requestLineStep_words (k := k) w.requestLine_isLine h₁ h₂ h₃
  have hret : ret = .done := hiff.mpr ⟨by simp [httpVersion_token],
    by simp [httpMethod_token w.methodToken_eq], w.url_accepted⟩
  obtain ⟨hv, hme, hms, hurl⟩ := hdone hret
  rw [httpVersion_token, Option.some.injEq] at hv
  rw [httpMethod_token w.methodToken_eq, Option.some.injEq] at hme
  have hreads : ∀ {a b c : List Byte}, w.requestLine = a ++ (b ++ c) →
      (Tok.str k ⟨a.length, b.length⟩).InLine k w.requestLine m →
      (Tok.str k ⟨a.length, b.length⟩).Reads k m b := by
    rintro a b c hl ⟨-, -, hstr⟩
    refine ⟨_, rfl, ?_⟩
    rw [hl] at hstr
    simpa [Tok.str] using hstr
  subst hret
  refine ⟨x, m, hstep, hm, hme.symm, hv.symm, ?_, ?_, by simpa using hurl⟩
  · rw [hms]
    exact hreads (a := []) (by simp [requestLine]; rfl) (hms ▸ hin.methodStr)
  · rw [hvs]
    exact hreads (c := [CR, LF]) (by simp [requestLine]) (hvs ▸ hin.versionStr)

end WellFormedHead

/-! ## The header lines -/

namespace HeaderField

variable (f : HeaderField)

/-- The line once it has been parsed. -/
def parsed : List Byte := f.name ++ [NUL, SP] ++ f.value ++ [NUL, LF]

theorem parsed_length : f.parsed.length = f.line.length := by simp [parsed, line]

theorem line_isLine : IsLine f.line := by
  refine ⟨⟨f.name ++ [COLON, SP] ++ f.value ++ [CR], by simp [line], ?_⟩, ?_⟩
  · have h₁ : LF ∉ f.name := fun h => (f.name_bytes _ h).2.1 rfl
    have h₂ : LF ∉ f.value := fun h => (f.value_bytes _ h).1 rfl
    simp [h₁, h₂]
    decide
  · have h₁ : NUL ∉ f.name := fun h => (f.name_bytes _ h).2.2 rfl
    have h₂ : NUL ∉ f.value := fun h => (f.value_bytes _ h).2 rfl
    simp [line, h₁, h₂]
    decide

/-- A header line is parsed to its name and its value. -/
theorem headerStep_line (hlen : f.line.length < 2 ^ 64) :
    headerStep f.line 0 = some (.header f.parsed ⟨0, f.name.length⟩
      (some ⟨f.name.length + 2, f.value.length⟩) f.line.length) := by
  obtain ⟨c, n, hn⟩ := List.exists_cons_of_ne_nil f.name_ne
  obtain ⟨d, v, hv⟩ := List.exists_cons_of_ne_nil f.value_ne
  have hc : isspace c = false := f.name_head c (by simp [hn])
  have hd : isspace d = false := f.value_head d (by simp [hv])
  have hdz : d ≠ NUL := (f.value_bytes d (by simp [hv])).2
  -- neither the name nor the value is trimmed
  have htrim : f.name.rdropWhile isspace = f.name :=
    List.rdropWhile_eq_self_iff.mpr fun hne => by
      have := f.name_last _ (List.getLast?_eq_some_getLast hne)
      simp [this]
  have hpart : namePart [] [] f.name = f.name ++ [NUL] := by
    rw [namePart, htrim]
    simp
  have htok : TokenAt (· == COLON) (c :: (n ++ COLON :: ([SP] ++ f.value ++ [CR, LF]))) []
      f.name COLON ([SP] ++ f.value ++ [CR, LF]) := by
    refine ⟨by simp [hn], by simp, f.name_ne, fun x hx => ?_, Or.inr rfl⟩
    exact ⟨(f.name_bytes x hx).2.2, by simpa using (f.name_bytes x hx).1⟩
  have hline : f.line = [] ++ c :: (n ++ COLON :: ([SP] ++ f.value ++ [CR, LF])) := by
    simp [line, hn]
  have hrest := @headerRest_crlf (f.name ++ [NUL]) [SP] v ⟨0, f.name.length⟩ _ (by simp) hd hdz (by
      have : (f.name ++ [NUL] ++ [SP] ++ d :: v).length ≤ f.line.length := by simp [line, hv]
      omega)
  have heol : f.line.length - 1 = (f.name ++ [NUL] ++ [SP] ++ (d :: v) ++ [CR]).length := by
    simp [line, hv]
  have hpos : (f.name ++ [NUL] ++ [SP] ++ (d :: v) ++ [CR]).length + 1 = f.line.length := by
    simp [line, hv]
    omega
  have hstep := headerStep_colon_eq f.line_isLine hline (by simp) hc htok
  rw [hpart, htrim, heol] at hstep
  rw [hstep, hv]
  refine hrest.trans ?_
  simp only [hpos, parsed, hv]
  simp

end HeaderField

/-- The strings of a sink call read a header. -/
structure SinkCall.Reads (k : Nat) (m : List Byte) (c : SinkCall) (f : HeaderField) : Prop where
  name : c.name.Reads k m f.name
  value : c.value.Reads k m f.value

theorem SinkCall.Reads.texts {k : Nat} {m p : List Byte} {calls : List SinkCall}
    {fs : List HeaderField} (hreads : List.Forall₂ (SinkCall.Reads k m) calls fs) {h : Heap}
    (hk : k < h.bufs.length) {b : Buf} (hb : b.mem = m ++ p) :
    calls.map (fun c => ((h.setBuf k b).text c.name, (h.setBuf k b).text c.value))
      = fs.map fun f => ((some f.name, f.name.length), (some f.value, f.value.length)) := by
  induction hreads with
  | nil => rfl
  | cons hc _ ih => simp only [List.map_cons, ih, hc.name.text hk hb, hc.value.text hk hb]

/-- The header lines of a head hand out its headers in their order. -/
theorem headerRun_fieldLines (k : Nat) (fs : List HeaderField) (done t : List Byte)
    (hlen : (WellFormedHead.fieldLines fs).length < 2 ^ 64) :
    ∃ calls done', HeaderRun k done (WellFormedHead.fieldLines fs ++ t) calls done' t ∧
      done <+: done' ∧ done'.length = done.length + (WellFormedHead.fieldLines fs).length ∧
      List.Forall₂ (SinkCall.Reads k done') calls fs := by
  -- on the fields; `done` is what the lines in front of them have become
  induction fs generalizing done with
  | nil => exact ⟨[], done ++ [CR, LF], .finish (p := 2) rfl rfl, by simp, by
      simp [WellFormedHead.fieldLines], .nil⟩
  | cons f fs ih =>
      have hcons : WellFormedHead.fieldLines (f :: fs)
          = f.line ++ WellFormedHead.fieldLines fs := by simp [WellFormedHead.fieldLines]
      rw [hcons, List.length_append] at hlen
      obtain ⟨calls, done', hrun, hpre, hdone, hreads⟩ := ih (done ++ f.parsed) (by omega)
      have hstep := f.headerStep_line (by omega)
      have hsplit : splitLine (WellFormedHead.fieldLines (f :: fs) ++ t)
          = some (f.line, WellFormedHead.fieldLines fs ++ t) := by
        rw [hcons, List.append_assoc]
        exact f.line_isLine.split _
      refine ⟨_, done', .header hsplit hstep hrun, (List.prefix_append ..).trans hpre, ?_,
        .cons ?_ hreads⟩
      · rw [hdone, hcons]
        simp only [List.length_append, f.parsed_length]
        omega
      -- the strings of this line are not touched by the lines behind it
      · obtain ⟨q, hq⟩ := hpre
        have hz₁ : NUL ∉ f.name := fun h => (f.name_bytes _ h).2.2 rfl
        have hz₂ : NUL ∉ f.value := fun h => (f.value_bytes _ h).2 rfl
        constructor
        · refine ⟨done.length, rfl, strAt_eq_some_iff.mpr ⟨hz₁,
            [SP] ++ f.value ++ [NUL, LF] ++ q, ?_⟩⟩
          rw [← hq, List.append_assoc, List.drop_left]
          simp [HeaderField.parsed]
        · refine ⟨done.length + (f.name.length + 2), rfl, strAt_eq_some_iff.mpr ⟨hz₂,
            [LF] ++ q, ?_⟩⟩
          have hm : done' = (done ++ f.name ++ [NUL, SP]) ++ (f.value ++ NUL :: ([LF] ++ q)) := by
            rw [← hq]
            simp [HeaderField.parsed]
          have hoff : done.length + (f.name.length + 2) = (done ++ f.name ++ [NUL, SP]).length := by
            simp
          rw [hm, hoff, List.drop_left]

/-! ## The whole head -/

/-- The pieces that have to arrive until `n` bytes are there fit into `cap` bytes, if every
    piece that is received before fits. -/
theorem exists_covering {ps : List (List Byte)} {n cap : Nat} (hn : n ≤ ps.flatten.length)
    (hoffer : ∀ i < ps.length, (ps.take i).flatten.length < n →
      (ps.take (i + 1)).flatten.length ≤ cap) :
    ∃ ps₁ ps₂, ps = ps₁ ++ ps₂ ∧ n ≤ ps₁.flatten.length ∧ ps₁.flatten.length ≤ cap := by
  have hex : ∃ i, n ≤ (ps.take i).flatten.length := ⟨ps.length, by simpa using hn⟩
  refine ⟨ps.take (Nat.find hex), ps.drop (Nat.find hex), (List.take_append_drop ..).symm,
    Nat.find_spec hex, ?_⟩
  -- the first prefix that is long enough was offered its space while it was still too short
  rcases hi : Nat.find hex with _ | j
  · simp
  · have hlt : (ps.take j).flatten.length < n := by
      have := Nat.find_min hex (m := j) (by omega)
      omega
    refine hoffer j ?_ hlt
    have : Nat.find hex ≤ ps.length := Nat.find_min' hex (by simpa using hn)
    omega

theorem headBuf_unread (cap : Nat) (done t : List Byte) :
    (headBuf cap done t done.length).unread = t := by
  simp [headBuf, Buf.unread]

/-- The URL as it was sent is kept aside. -/
theorem httpParseUrl_unparsedUrl (id : Nat) (m : List Byte) (u : Url) (url : Tok) :
    (httpParseUrl id m u url).2.2.unparsedUrl
      = poolStrndup ((m.drop url.off).take url.len) := by
  unfold httpParseUrl
  simp only
  split
  · rfl
  · next k _ =>
    simp only [urlRecord, urlSchema, urlHost, urlPath, urlQuery]
    rcases k.schemaStart with _ | a <;> rcases k.schemaEnd with _ | b <;>
      rcases k.hostStart with _ | c <;> rcases k.hostEnd with _ | d <;>
      simp only [] <;> try rfl
    all_goals split
    all_goals first
      | rfl
      | (rcases k.pathStart with _ | e <;> rcases k.queryStart with _ | f <;> rfl)

theorem Heap.text_poolStrndup (h : Heap) {s : List Byte} (hne : s ≠ []) (hz : NUL ∉ s) :
    h.text (poolStrndup s) = (some s, s.length) := by
  have : s.takeWhile (· != NUL) = s := List.takeWhile_eq_self_iff.mpr fun c hc => by
    simpa using fun e : c = NUL => hz (e ▸ hc)
  simp [poolStrndup, hne, Heap.text, Heap.cstr, this]

section Calls

variable {conf : Conf} {r : HttpRequest} {io : Io} {ps : List (List Byte)} {es : List RecvEvent}

theorem WellFormedHead.requestLine_parsed (w : WellFormedHead) (hr : r.HeadReady .request)
    (hps : ∀ p ∈ ps, p ≠ []) (hfit : ps.flatten.length ≤ conf.clientHeaderSize)
    (hio : io.recvs = ps.map .data ++ es) {t : List Byte} (hs : ps.flatten = w.requestLine ++ t) :
    ∃ (r₁ : HttpRequest) (m t₁ : List Byte) (rest : List (List Byte)), httpProcessRequestLine conf r io
        = .ret (true, r₁, { io with recvs := rest.map .data ++ es }) ∧
      t = t₁ ++ rest.flatten ∧ rest <:+ ps ∧ m.length = w.requestLine.length ∧
      r₁.toHeap = (headHeap conf r.toHeap).setBuf r.bufs.length
        (headBuf conf.clientHeaderSize m t₁ m.length) ∧
      r₁.state = .requestLine ∧ r₁.headersIn = r.headersIn ∧
      r₁.method = w.method ∧ r₁.version = w.version ∧
      r₁.methodStr.Reads r.bufs.length m w.methodToken ∧
      r₁.versionStr.Reads r.bufs.length m w.version.token ∧
      r₁.url = (httpParseUrl r.bufs.length (w.url ++ [NUL]) {} ⟨0, w.url.length⟩).2.2.shift
        (w.methodToken.length + 1) := by
  obtain ⟨x, m, hstep, hm, hmethod, hversion, hms, hvs, hurl⟩ :=
    w.requestLineStep_eq_done r.bufs.length
  have hline : firstLineRun .request r ps.flatten
      = .halt ⟨.done, r.setRequestLine x, m, m.length⟩ t := by
    have hrun := @firstLineMachine_line _ _ RequestLine.shift ⟨r.toRequestLine, []⟩ [] _ t _ _ _ _
      (by simp) w.requestLine_isLine w.requestLine_head (by rw [hr.2.1]; exact hstep) (by simp)
    simp only [List.nil_append, List.length_nil, RequestLine.shift_zero, Nat.zero_add] at hrun
    simp only [firstLineRun, requestLineMachine, hs, hrun, Parsed.map, HeadResult.map, hm]
  obtain ⟨t₁, rest, ht, hrest, hcall⟩ := httpProcessFirstLine_halt hr hps hfit hio hline
  exact ⟨_, m, t₁, rest, hcall, ht, hrest, hm, rfl, rfl, rfl, hmethod, hversion, hms, hvs, hurl⟩

theorem fieldLines_parsed (fs : List HeaderField) {h : Heap} {k cap : Nat} {done u t : List Byte}
    (hready : r.headerLineReady .request = true) (hcap : cap < 2 ^ 64)
    (hk : k < h.bufs.length) (hh : h.headerBuf = k)
    (hheap : r.toHeap = h.setBuf k (headBuf cap done u done.length))
    (hempty : r.headersIn.headers = []) (hps : ∀ p ∈ ps, p ≠ [])
    (hfit : done.length + u.length + ps.flatten.length ≤ cap)
    (hio : io.recvs = ps.map .data ++ es)
    (hs : u ++ ps.flatten = WellFormedHead.fieldLines fs ++ t) :
    ∃ (r₂ : HttpRequest) (done' t₂ : List Byte) (rest : List (List Byte)), httpHeaderLoop conf .request r io
        = .ret (true, r₂, { io with recvs := rest.map .data ++ es }) ∧
      t = t₂ ++ rest.flatten ∧ rest <:+ ps ∧ done <+: done' ∧
      r₂.toHeap = h.setBuf k (headBuf cap done' t₂ done'.length) ∧
      done'.length + t₂.length ≤ cap ∧
      r₂.toRequestLine = r.toRequestLine ∧
      (handedPairs conf r io).map (fun p => (r₂.text p.1, r₂.text p.2))
        = fs.map (fun f => ((some f.name, f.name.length), (some f.value, f.value.length))) ∧
      r₂.headersIn.headers
        = (handedPairs conf r io).foldl (fun hs p => httpHeaderSet r₂.toHeap hs p.1 p.2) [] := by
  have hlens := congrArg List.length hs
  simp only [List.length_append] at hlens
  obtain ⟨calls, done', hrun, hpre, hdone, hreads⟩ := headerRun_fieldLines k fs done t (by omega)
  rw [← hs] at hrun
  have hnames : NamesIn k (r.headers .request) done := by
    change NamesIn k r.headersIn.headers done
    simp [NamesIn, hempty]
  obtain ⟨t₂, rest, ht, hrest, hloop⟩ := httpHeaderLoop_halt hready hcap hk hh hheap
    hnames hps hfit hio hrun
  have hpairs := @handedPairs_halt conf _ _ _ _ _ _ _ _ _ hcap hk hh hheap hps hfit hio _ _ _ hrun
  have hmem : (headBuf cap done' t₂ done'.length).mem
      = done' ++ (t₂ ++ zeros (cap + 1 - (done'.length + t₂.length))) := List.append_assoc ..
  have htable := hrun.table (h := h) (by simp only [List.length_append]; omega) hk hnames hmem
  have htlen := congrArg List.length ht
  rw [List.length_append] at htlen
  refine ⟨_, done', t₂, rest, hloop, ht, hrest, hpre, rfl, by omega, rfl, ?_, ?_⟩
  · rw [hpairs, List.map_map]
    exact SinkCall.Reads.texts hreads hk hmem
  · rw [hpairs, List.foldl_map]
    refine Eq.trans ?_ (htable.trans ?_)
    · rfl
    · rw [← hempty]
      rfl

end Calls

/-- The request and the descriptor `io` behind the head `w`, and the pairs that were handed
    to `http_header_set`, are what the head and the bytes behind it say. -/
structure WellFormedHead.ParsedTo (w : WellFormedHead) (body : List Byte)
    (pairs : List (Str × Str)) (r : HttpRequest) (io : Io) : Prop where
  method : r.method = w.method
  methodStr : r.text r.methodStr = (some w.methodToken, w.methodToken.length)
  version : r.version = w.version
  versionStr : r.text r.versionStr = (some w.version.token, w.version.token.length)
  unparsedUrl : r.text r.url.unparsedUrl = (some w.url, w.url.length)
  url : r.url = (httpParseUrl r.headerBuf (w.url ++ [NUL]) {} ⟨0, w.url.length⟩).2.2.shift
    (w.methodToken.length + 1)
  texts : pairs.map (fun p => (r.text p.1, r.text p.2))
    = w.fields.map fun f => ((some f.name, f.name.length), (some f.value, f.value.length))
  headers : r.headersIn.headers = pairs.foldl (fun hs p => httpHeaderSet r.toHeap hs p.1 p.2) []
  rest : ∃ rest : List (List Byte), io.recvs = rest.map .data ∧
    body = (r.buf r.headerBuf).unread ++ rest.flatten

/-- The pieces up to the one that ends the head. -/
theorem WellFormedHead.exists_pieces (w : WellFormedHead) {body : List Byte} {cap : Nat}
    {ps : List (List Byte)} (hs : ps.flatten = w.bytes ++ body)
    (hoffer : ∀ i < ps.length, (ps.take i).flatten.length < w.bytes.length →
      (ps.take (i + 1)).flatten.length ≤ cap) :
    ∃ ps₁ ps₂ b₁, ps = ps₁ ++ ps₂ ∧ ps₁.flatten.length ≤ cap ∧ ps₁.flatten = w.bytes ++ b₁ ∧
      body = b₁ ++ ps₂.flatten := by
  obtain ⟨ps₁, ps₂, rfl, hge, hfit⟩ := exists_covering (by simp [hs]) hoffer
  simp only [List.flatten_append] at hs
  obtain ⟨b₁, hb₁, hbody⟩ : ∃ b₁, ps₁.flatten = w.bytes ++ b₁ ∧ body = b₁ ++ ps₂.flatten := by
    rcases List.append_eq_append_iff.mp hs with ⟨c, hc, hc'⟩ | ⟨c, hc, hc'⟩
    · have hc0 : c = [] := by
        have := congrArg List.length hc
        simp only [List.length_append] at this
        exact List.length_eq_zero_iff.mp (by omega)
      subst hc0
      exact ⟨[], by simpa using hc.symm, by simpa using hc'.symm⟩
    · exact ⟨c, hc, hc'⟩
  exact ⟨ps₁, ps₂, b₁, rfl, hfit, hb₁, hbody⟩

/-- A head in the pieces `ps₁`, with pieces behind them.  The buffer keeps what is unread. -/
theorem WellFormedHead.pieces_parsed (w : WellFormedHead) {conf : Conf} {r : HttpRequest} {io : Io}
    {ps₁ ps₂ : List (List Byte)} {b₁ : List Byte} (hr : r.HeadReady .request)
    (hps₁ : ∀ p ∈ ps₁, p ≠ []) (hfit : ps₁.flatten.length ≤ conf.clientHeaderSize)
    (hb₁ : ps₁.flatten = w.bytes ++ b₁) (hio : io.recvs = (ps₁ ++ ps₂).map .data) :
    ∃ r₁ io₁ r₂ io₂ rest done t, httpProcessRequestLine conf r io = .ret (true, r₁, io₁) ∧
      httpHeaderLoop conf .request r₁ io₁ = .ret (true, r₂, io₂) ∧
      w.ParsedTo (b₁ ++ ps₂.flatten) (handedPairs conf r₁ io₁) r₂ io₂ ∧
      io₂.recvs = rest.map .data ∧ rest <:+ ps₁ ++ ps₂ ∧ r₂.headerBuf < r₂.bufs.length ∧
      r₂.buf r₂.headerBuf = headBuf conf.clientHeaderSize done t done.length ∧
      done.length + t.length ≤ conf.clientHeaderSize := by
  have hline : ps₁.flatten
      = w.requestLine ++ (WellFormedHead.fieldLines w.fields ++ b₁) := by
    rw [hb₁, WellFormedHead.bytes, List.append_assoc]
  -- the request line, and the header lines on what it leaves
  obtain ⟨r₁, m, t₁, rest₁, hfirst, ht₁, hrest₁, hm, hheap₁, hstate, hin, hmethod, hversion, hms,
    hvs, hurl⟩ := w.requestLine_parsed hr hps₁ hfit (by rw [hio, List.map_append]) hline
  have hk := headHeap_length conf r.toHeap
  have hlens := congrArg List.length ht₁
  rw [hline] at hfit
  simp only [List.length_append] at hlens hfit
  obtain ⟨r₂, done', t₂, rest₂, hloop, ht₂, hrest₂, ⟨q, hq⟩, hheap₂, hfit₂, hx, htexts, hheaders⟩ :=
    @fieldLines_parsed _ r₁ { io with recvs := rest₁.map .data ++ ps₂.map .data } _ _ w.fields _ _
      _ _ _ b₁ (by simp [HttpRequest.headerLineReady, hstate]) conf.clientHeaderSize_lt_64 hk rfl
      hheap₁ (by rw [hin]; exact hr.2.2) (fun p hp => hps₁ p (hrest₁.subset hp)) (by omega) rfl
      ht₁.symm
  have hbuf : r₂.headerBuf = r.bufs.length := by rw [hheap₂]; rfl
  have hheadBuf : r₂.buf r₂.headerBuf
      = headBuf conf.clientHeaderSize done' t₂ done'.length := by
    rw [hbuf, hheap₂, Heap.buf_setBuf hk]
  refine ⟨r₁, _, r₂, _, rest₂ ++ ps₂, done', t₂, hfirst, hloop, ?_, by simp, ?_, ?_, hheadBuf, hfit₂⟩
  · -- the strings of the request line are still there behind the header lines
    have htext : ∀ {y : Str} {s : List Byte}, y.Reads r.bufs.length m s →
        r₂.text y = (some s, s.length) := by
      intro y s hy
      have hmem : (headBuf conf.clientHeaderSize done' t₂ done'.length).mem
          = m ++ (q ++ (t₂ ++ zeros (conf.clientHeaderSize + 1 - (done'.length + t₂.length)))) := by
        simp [headBuf, ← hq]
      rw [hheap₂]
      exact hy.text hk hmem
    have hz : NUL ∉ w.url := fun h => (w.url_bytes _ h).1 rfl
    exact {
      method := by rw [hx]; exact hmethod
      methodStr := by rw [hx]; exact htext hms
      version := by rw [hx]; exact hversion
      versionStr := by rw [hx]; exact htext hvs
      unparsedUrl := by
        rw [hx, hurl, Url.shift, httpParseUrl_unparsedUrl]
        simpa using Heap.text_poolStrndup r₂.toHeap w.url_ne hz
      url := by rw [hx, hbuf]; exact hurl
      texts := htexts
      headers := hheaders
      rest := ⟨rest₂ ++ ps₂, by simp, by
        rw [hheadBuf, headBuf_unread, ht₂]
        simp⟩ }
  · obtain ⟨a, ha⟩ := hrest₂.trans hrest₁
    exact ⟨a, by rw [← ha, List.append_assoc]⟩
  · rw [hheap₂, Heap.setBuf_length]
    exact hk

/-- A well-formed head that fits into the header buffer is parsed to what it says, whatever
    comes behind it and in whatever pieces the stream arrives; a piece that `recv` returns
    is never longer than the space it was offered. -/
theorem wellFormedHead_parsed (w : WellFormedHead) (body : List Byte) {conf : Conf}
    {r : HttpRequest} {io : Io} {ps : List (List Byte)} (hr : r.HeadReady .request)
    (hps : ∀ p ∈ ps, p ≠ []) (hs : ps.flatten = w.bytes ++ body)
    (hoffer : ∀ i < ps.length, (ps.take i).flatten.length < w.bytes.length →
      (ps.take (i + 1)).flatten.length ≤ conf.clientHeaderSize)
    (hio : io.recvs = ps.map .data) :
    ∃ r₁ io₁ r₂ io₂, httpProcessRequestLine conf r io = .ret (true, r₁, io₁) ∧
      httpHeaderLoop conf .request r₁ io₁ = .ret (true, r₂, io₂) ∧
      w.ParsedTo body (handedPairs conf r₁ io₁) r₂ io₂ := by
  obtain ⟨ps₁, ps₂, b₁, rfl, hfit, hb₁, rfl⟩ := w.exists_pieces hs hoffer
  obtain ⟨r₁, io₁, r₂, io₂, -, -, -, hfirst, hloop, hparsed, -⟩ :=
    w.pieces_parsed hr (fun p hp => hps p (by simp [hp])) hfit hb₁ hio
  exact ⟨r₁, io₁, r₂, io₂, hfirst, hloop, hparsed⟩

/-- A small head: `get /a HTTP/1.1` with one header. -/
def getHead : WellFormedHead where
  method := .get
  methodToken := CString.bytes "get"
  methodToken_eq := by decide
  url := CString.bytes "/a"
  url_ne := by decide
  url_bytes := by decide +kernel
  url_accepted := by unfold UrlAccepted; decide
  version := .v11
  fields := [
    { name := CString.bytes "Host"
      value := CString.bytes "x"
      name_ne := by decide
      name_bytes := by decide +kernel
      name_head := by decide +kernel
      name_last := by decide +kernel
      value_ne := by decide
      value_bytes := by decide +kernel
      value_head := by decide +kernel }]

theorem wellFormedHead_parsed_getHead :
    ∃ r₁ io₁ r₂ io₂,
      httpProcessRequestLine ⟨32, 64, 16, 64, by decide, by decide⟩ {}
          { recvs := [.data (getHead.bytes.take 7), .data (getHead.bytes.drop 7 ++ [65])] }
        = .ret (true, r₁, io₁) ∧
      httpHeaderLoop ⟨32, 64, 16, 64, by decide, by decide⟩ .request r₁ io₁
        = .ret (true, r₂, io₂) ∧
      getHead.ParsedTo [65] (handedPairs ⟨32, 64, 16, 64, by decide, by decide⟩ r₁ io₁) r₂ io₂ :=
  @wellFormedHead_parsed getHead [65] _ _ _ [getHead.bytes.take 7, getHead.bytes.drop 7 ++ [65]]
    ⟨rfl, rfl, rfl⟩ (by decide) (by decide) (by decide) rfl

end XwpServer
