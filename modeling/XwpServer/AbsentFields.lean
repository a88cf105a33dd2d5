/-
  XwpServer.AbsentFields

  Fields of an accepted head that are NULL.

  `http_parse_url` accepts a URL without a path when it is a schema with slashes behind
  it, and a header without a value is recorded with a NULL pointer.  The code behind the
  head looks for absent headers only.
-/

import XwpServer.Accepted
import XwpServer.TableTexts

namespace XwpServer

open CString Scan FirstMatch

/-! ## URLs without a path -/

/-- A schema, its colon, and only slashes behind it. -/
def SchemaOnly (u : List Byte) : Prop :=
  ∃ s t, u = s ++ COLON :: t ∧ (∀ c ∈ s, isCharacter c = true) ∧ ∀ c ∈ t, c = SLASH

instance (u : List Byte) : Decidable (SchemaOnly u) :=
  decidable_of_iff ((u.dropWhile isCharacter).head? = some COLON ∧
      (u.dropWhile isCharacter).tail.all (· == SLASH) = true) <| by
  constructor
  · rintro ⟨hhead, htail⟩
    refine ⟨u.takeWhile isCharacter, (u.dropWhile isCharacter).tail, ?_,
      fun c hc => List.mem_takeWhile_imp hc, fun c hc => ?_⟩
    · rw [List.cons_head?_tail hhead, List.takeWhile_append_dropWhile]
    · exact beq_iff_eq.mp (List.all_eq_true.mp htail c hc)
  · rintro ⟨s, t, rfl, hs, ht⟩
    have hdrop : (s ++ COLON :: t).dropWhile isCharacter = COLON :: t := by
      rw [List.dropWhile_append_of_pos hs]
      rfl
    rw [hdrop]
    exact ⟨rfl, List.all_eq_true.mpr fun c hc => beq_iff_eq.mpr (ht c hc)⟩

theorem SchemaOnly.concat {w : List Byte} (h : SchemaOnly w) : SchemaOnly (w ++ [SLASH]) := by
  obtain ⟨s, t, rfl, hs, ht⟩ := h
  refine ⟨s, t ++ [SLASH], by simp, hs, fun c hc => ?_⟩
  rcases List.mem_append.mp hc with hc | hc
  · exact ht c hc
  · exact List.mem_singleton.mp hc

/-- What the automaton has marked and read of a token without white space, in state `s`. -/
def UrlRead (s : UrlState) (k : UrlMarks) (w : List Byte) : Prop :=
  match s with
  | .start => k = {} ∧ w = []
  | .schema =>
    k.schemaStart.isSome ∧ k.schemaEnd = none ∧ k.hostEnd = none ∧ k.portEnd = none ∧
      ∀ c ∈ w, isCharacter c = true
  | .schemaSlash => k.hostEnd = none ∧ k.portEnd = none ∧ SchemaOnly w
  | .host => k.hostStart.isSome ∧ k.hostEnd = none ∧ k.portEnd = none
  | .port => k.portStart.isSome ∧ k.portEnd = none
  | .path | .queryString | .done => k.pathStart.isSome

theorem urlStep_read {s s' : UrlState} {k k' : UrlMarks} {p : Nat} {c : Byte} {w : List Byte}
    (h : urlStep s k p c = some (s', k')) (hc : isspace c = false) (hk : UrlRead s k w) :
    UrlRead s' k' (w ++ [c]) := by
  -- the text read so far, by the state; the byte read now is its last
  unfold urlStep at h
  cases s with
  | start =>
      obtain ⟨rfl, rfl⟩ := hk
      simp only [hc, Bool.false_eq_true, if_false] at h
      split_ifs at h with hchar hslash <;> simp only [Option.some.injEq, Prod.mk.injEq] at h <;>
        obtain ⟨rfl, rfl⟩ := h
      · exact ⟨rfl, rfl, rfl, rfl, by simpa using hchar⟩
      · exact rfl
  | schema =>
      obtain ⟨hstart, hend, hhost, hport, hw⟩ := hk
      dsimp only at h
      split_ifs at h with hchar hcolon <;> simp only [Option.some.injEq, Prod.mk.injEq] at h <;>
        obtain ⟨rfl, rfl⟩ := h
      · refine ⟨hstart, hend, hhost, hport, fun x hx => ?_⟩
        rcases List.mem_append.mp hx with hx | hx
        · exact hw x hx
        · rwa [List.mem_singleton.mp hx]
      · exact ⟨hhost, hport, w, [], by rw [hcolon], hw, by simp⟩
  | schemaSlash =>
      obtain ⟨hhost, hport, hw⟩ := hk
      dsimp only at h
      split_ifs at h with hslash hchar <;> simp only [Option.some.injEq, Prod.mk.injEq] at h <;>
        obtain ⟨rfl, rfl⟩ := h
      · exact ⟨hhost, hport, hslash ▸ hw.concat⟩
      · exact ⟨rfl, hhost, hport⟩
  | host =>
      obtain ⟨hstart, hend, hport⟩ := hk
      dsimp only at h
      split_ifs at h <;> simp only [Option.some.injEq, Prod.mk.injEq] at h <;>
        obtain ⟨rfl, rfl⟩ := h
      · exact ⟨hstart, hend, hport⟩
      · exact ⟨hstart, hend, hport⟩
      · exact ⟨rfl, hport⟩
      · exact rfl
  | port =>
      obtain ⟨hstart, hend⟩ := hk
      simp only [hc, Bool.false_eq_true, if_false] at h
      split_ifs at h <;> simp only [Option.some.injEq, Prod.mk.injEq] at h <;>
        obtain ⟨rfl, rfl⟩ := h
      · exact ⟨hstart, hend⟩
      · exact rfl
  | path =>
      simp only [hc, Bool.false_eq_true, if_false] at h
      split_ifs at h <;> simp only [Option.some.injEq, Prod.mk.injEq] at h <;>
        obtain ⟨rfl, rfl⟩ := h <;> exact hk
  | queryString =>
      dsimp only at h
      split_ifs at h <;> simp only [Option.some.injEq, Prod.mk.injEq] at h <;>
        obtain ⟨rfl, rfl⟩ := h <;> exact hk
  | done => cases h

/-- A token that was read to its end, and has no path, is a schema with slashes. -/
theorem UrlRead.schemaOnly {s : UrlState} {k : UrlMarks} {w : List Byte} (h : UrlRead s k w)
    (hk : k.Complete) (hw : w ≠ []) (hpath : k.pathStart = none) : SchemaOnly w := by
  -- where the token may end without a path: `schemaSlash` is the only state without an open mark
  cases s with
  | start => exact absurd h.2 hw
  | schema =>
      obtain ⟨hstart, hend, -⟩ := h
      have := hk.schema hstart
      rw [hend] at this
      cases this
  | schemaSlash => exact h.2.2
  | host =>
      obtain ⟨hstart, hend, -⟩ := h
      have := hk.host hstart
      rw [hend] at this
      cases this
  | port =>
      obtain ⟨hstart, hend⟩ := h
      have := hk.port hstart
      rw [hend] at this
      cases this
  | path | queryString | done =>
      have h : k.pathStart.isSome := h
      rw [hpath] at h
      cases h

theorem urlScan_schemaOnly {u w : List Byte} {p : Nat} {s : UrlState} {k k' : UrlMarks}
    (h : urlScan u p s k = some k') (hu : ∀ c ∈ u, c ≠ NUL ∧ isspace c = false)
    (hs : UrlRead s k w) (hk : k'.Complete) (hw : w ++ u ≠ []) (hpath : k'.pathStart = none) :
    SchemaOnly (w ++ u) := by
  induction u generalizing p s k w with
  | nil =>
      simp only [urlScan, Option.some.injEq] at h
      subst h
      rw [List.append_nil] at hw ⊢
      exact hs.schemaOnly hk hw hpath
  | cons c cs ih =>
      obtain ⟨hc, hspace⟩ := hu c (by simp)
      simp only [urlScan, if_neg hc] at h
      split at h
      · cases h
      · -- the loop is only left early behind the path
        next k₁ hstep =>
        simp only [Option.some.injEq] at h
        subst h
        have hdone : k₁.pathStart.isSome := urlStep_read hstep hspace hs
        rw [hpath] at hdone
        cases hdone
      · next s₁ k₁ _ hstep =>
        have := ih h (fun x hx => hu x (List.mem_cons_of_mem _ hx)) (urlStep_read hstep hspace hs)
          (by simp)
        simpa using this

/-- The slashes behind a schema mark nothing. -/
theorem urlScan_slashes {t : List Byte} (ht : ∀ c ∈ t, c = SLASH) (p : Nat) (k : UrlMarks) :
    urlScan t p .schemaSlash k = some k := by
  induction t generalizing p with
  | nil => rfl
  | cons c t ih =>
      obtain rfl := ht c (by simp)
      exact ih (fun x hx => ht x (by simp [hx])) (p + 1)

theorem urlScan_schema {s t : List Byte} (hs : ∀ c ∈ s, isCharacter c = true)
    (ht : ∀ c ∈ t, c = SLASH) {p : Nat} {k k' : UrlMarks}
    (h : urlScan (s ++ COLON :: t) p .schema k = some k') : k'.pathStart = k.pathStart := by
  induction s generalizing p with
  | nil =>
      have hrun : urlScan (COLON :: t) p .schema k
          = urlScan t (p + 1) .schemaSlash { k with schemaEnd := some p } := rfl
      rw [List.nil_append, hrun, urlScan_slashes ht] at h
      rw [← Option.some.inj h]
  | cons c s ih =>
      have hc := hs c (by simp)
      have hnul : c ≠ NUL := by
        rintro rfl
        exact absurd hc (by decide)
      simp only [List.cons_append, urlScan, if_neg hnul, urlStep, hc, if_true] at h
      exact ih (fun x hx => hs x (by simp [hx])) h

theorem SchemaOnly.pathStart {u : List Byte} (hu : SchemaOnly u) {k : UrlMarks}
    (h : urlScan u 0 .start {} = some k) : k.pathStart = none := by
  obtain ⟨s, t, rfl, hs, ht⟩ := hu
  cases s with
  | nil =>
      have hfail : urlScan (COLON :: t) 0 .start {} = none := rfl
      rw [List.nil_append, hfail] at h
      cases h
  | cons c s =>
      have hc := hs c (by simp)
      have hnul : c ≠ NUL := by
        rintro rfl
        exact absurd hc (by decide)
      have hspace : isspace c = false := by
        by_contra hsp
        have hall : ∀ n < 256, isspace (UInt8.ofNat n) = true →
            isCharacter (UInt8.ofNat n) = false := by decide +kernel
        have := hall c.toNat c.toNat_lt (by rw [UInt8.ofNat_toNat]; simpa using hsp)
        rw [UInt8.ofNat_toNat, hc] at this
        cases this
      simp only [List.cons_append, urlScan, if_neg hnul, urlStep, hspace, Bool.false_eq_true,
        if_false, hc, if_true] at h
      exact urlScan_schema (fun x hx => hs x (by simp [hx])) ht h

/-! ## The URL of a request line -/

/-- A URL that is accepted has no path just when it is a schema with slashes. -/
theorem httpParseUrl_done {id : Nat} {m m' u : List Byte} {out out' : Url} {url : Tok}
    (h : httpParseUrl id m out url = (.done, m', out')) (hout : out.path = .null)
    (hu : (m.drop url.off).take url.len = u) (hne : u ≠ [])
    (hword : ∀ c ∈ u, c ≠ NUL ∧ isspace c = false) :
    out'.unparsedUrl = poolStrndup u ∧ (out'.path.data = .null ↔ SchemaOnly u) := by
  simp only [httpParseUrl, hu] at h
  split at h
  · cases h
  next k hscan =>
  obtain ⟨hk, hurl, hpath⟩ := urlRecord_done h hout
  have hdata : out'.path.data = .null ↔ k.pathStart = none := by
    rw [hpath, UrlMarks.path]
    split
    · next a ha => simp [ha, urlPart]
    · next ha => simp [ha, Str.null]
  refine ⟨hurl, hdata.trans ⟨fun hnone => ?_, fun hs => hs.pathStart hscan⟩⟩
  exact urlScan_schemaOnly hscan hword (w := []) ⟨rfl, rfl⟩ hk hne hnone

/-- The URL of a request line that is accepted is a word of the line. -/
theorem requestLineStep_done {k : Nat} {l l' : RequestLine} {m m' : List Byte} {pos p : Nat}
    (h : requestLineStep k l m pos = some (.done, l', m', p)) (hl : l.url.path = .null) :
    ∃ u, u ≠ [] ∧ NUL ∉ u ∧ l'.url.unparsedUrl = poolStrndup u ∧
      (l'.url.path.data = .null ↔ SchemaOnly u) := by
  simp only [requestLineStep, Option.bind_eq_bind, Option.bind_eq_some_iff] at h
  obtain ⟨e, heol, h⟩ := h
  cases e with
  | none => cases h
  | some eol =>
  simp only [Option.bind_eq_some_iff] at h
  obtain ⟨⟨t₁, m₁, p₁⟩, h₁, ⟨t₂, m₂, p₂⟩, h₂, ⟨t₃, m₃, p₃⟩, h₃, h⟩ := h
  dsimp only at h
  split at h
  case h_2 => cases h
  next method url version =>
  simp only [Option.bind_eq_some_iff] at h
  obtain ⟨⟨ret, l₄, m₄⟩, h₄, h⟩ := h
  simp only [Option.pure_def, Option.some.injEq, Prod.mk.injEq] at h
  obtain ⟨rfl, rfl, rfl, -⟩ := h
  simp only [requestLineFields, Option.bind_eq_bind, Option.bind_eq_some_iff] at h₄
  obtain ⟨vs, -, h₄⟩ := h₄
  split at h₄
  · cases h₄
  simp only [Option.bind_eq_some_iff] at h₄
  obtain ⟨ms, -, h₄⟩ := h₄
  split at h₄
  · cases h₄
  simp only [Option.pure_def, Option.some.injEq, Prod.mk.injEq] at h₄
  obtain ⟨hret, rfl, hm₄⟩ := h₄
  obtain ⟨ds, w, e, rest, hat, rfl, rfl, rfl⟩ := getToken_some h₂
  dsimp only at h₃ hat
  have hbytes : (m₃.drop (p₁ + ds.length)).take w.length = w := by
    -- the terminators of this token and the next stand behind it
    have hnul : NulSets (p₁ + ds.length + w.length) m₁ m₃ :=
      ((NulSets.refl _ _).set (Nat.le_refl _)).trans ((getToken_nulSets h₃).1.mono (by omega))
    have htake := congrArg (List.drop (p₁ + ds.length)) hnul.take_eq
    rw [List.drop_take, List.drop_take, Nat.add_sub_cancel_left] at htake
    rw [htake, ← List.drop_drop, hat.eq, List.drop_left, List.take_left]
  obtain ⟨hunparsed, hpath⟩ := httpParseUrl_done (Prod.ext hret (Prod.ext hm₄ rfl)) hl hbytes
    hat.ne_nil hat.word
  exact ⟨w, hat.ne_nil, fun hz => (hat.word _ hz).1 rfl, hunparsed, hpath⟩

/-! ## The first line of an accepted head -/

/-- What a call for a first line has recorded is what one step has, from the record it
    started with. -/
theorem processLines_done {σ : Type} {conf : Conf} {r r₁ : HttpRequest} {io io₁ : Io}
    {step : Nat → σ → List Byte → Nat → Option (ParseRet × σ × List Byte × Nat)}
    (hagain : ∀ k x m pos y m' p, step k x m pos = some (.again, y, m', p) → y = x)
    {get : HttpRequest → σ} {put : HttpRequest → σ → HttpRequest}
    (h : processLines conf (fun k => parseFirstLine (step k) k) get put r io
      = .ret (true, r₁, io₁)) :
    ∃ x m pos m' p, step r.headerBuf (get r) m pos = some (.done, x, m', p) ∧
      r₁ = { put r x with toHeap := r₁.toHeap, status := (put r x).status } := by
  have hsettle : ∀ w : Waiting σ, w.x = get r →
      Sum.elim (fun w => w.x = get r) (fun e => ∀ x h errno, e = .exit .done x h errno →
          ∃ m pos m' p, step r.headerBuf (get r) m pos = some (.done, x, m', p))
        (settle conf (parseFirstLine (step r.headerBuf) r.headerBuf) r.headerBuf w) := by
    intro w hw
    simp only [settle]
    split
    · exact fun x h errno he => by cases he
    · next x h hparse =>
      simp only [parseFirstLine, Option.bind_eq_bind, Option.bind_eq_some_iff, Option.pure_def,
        Option.some.injEq, Prod.mk.injEq] at hparse
      obtain ⟨pos, -, ⟨ret, y, m', p⟩, hstep, rfl, rfl, rfl⟩ := hparse
      intro x h errno he
      simp only [LoopEnd.exit.injEq, true_and] at he
      rw [hw] at hstep
      exact ⟨_, _, _, _, he.1 ▸ hstep⟩
    · exact fun x h errno he => by cases he
    · next x h hparse =>
      simp only [parseFirstLine, Option.bind_eq_bind, Option.bind_eq_some_iff, Option.pure_def,
        Option.some.injEq, Prod.mk.injEq] at hparse
      obtain ⟨pos, -, ⟨ret, y, m', p⟩, hstep, rfl, rfl, rfl⟩ := hparse
      have hy := (hagain _ _ _ _ _ _ _ hstep).trans hw
      simp only [makeRoom]
      split
      · split
        · exact fun x h errno he => by cases he
        · exact hy
      · exact hy
  have hloop := Feed.feed_invariant (onRecv conf (parseFirstLine (step r.headerBuf) r.headerBuf)
    r.headerBuf) (fun w e hw => ?_) (hsettle ⟨get r, r.toHeap, io.errno⟩ rfl) io.recvs
  · simp only [processLines, recvLoop] at h
    generalize Feed.feed (onRecv conf (parseFirstLine (step r.headerBuf) r.headerBuf) r.headerBuf)
      (settle conf (parseFirstLine (step r.headerBuf) r.headerBuf) r.headerBuf
        ⟨get r, r.toHeap, io.errno⟩) io.recvs = y at h hloop
    obtain ⟨w | s, recvs⟩ := y
    · cases h
    cases s with
    | stop s => cases h
    | exit e x h' errno =>
        simp only [finishLines, Outcome.ret.injEq, Prod.mk.injEq, decide_eq_true_eq] at h
        obtain ⟨rfl, rfl, -⟩ := h
        obtain ⟨m, pos, m', p, hstep⟩ := hloop x h' errno rfl
        exact ⟨x, m, pos, m', p, hstep, rfl⟩
  · -- what has arrived is parsed from the same record again
    cases e with
    | error e =>
        simp only [onRecv]
        split
        · exact hw
        · exact fun x h errno he => by cases he
    | data bs =>
        simp only [onRecv]
        split
        · split
          · exact hw
          · exact fun x h errno he => by cases he
        · split
          · exact fun x h errno he => by cases he
          · exact hsettle _ hw

theorem requestLineStep_again {k : Nat} {l l' : RequestLine} {m m' : List Byte} {pos p : Nat}
    (h : requestLineStep k l m pos = some (.again, l', m', p)) : l' = l := by
  simp only [requestLineStep, Option.bind_eq_bind, Option.bind_eq_some_iff] at h
  obtain ⟨e, heol, h⟩ := h
  cases e with
  | none =>
      simp only [Option.pure_def, Option.some.injEq, Prod.mk.injEq] at h
      exact h.2.1.symm
  | some eol =>
  simp only [Option.bind_eq_some_iff] at h
  obtain ⟨⟨t₁, m₁, p₁⟩, h₁, ⟨t₂, m₂, p₂⟩, h₂, ⟨t₃, m₃, p₃⟩, h₃, h⟩ := h
  dsimp only at h
  split at h
  · simp only [Option.bind_eq_some_iff] at h
    obtain ⟨⟨ret, l₄, m₄⟩, h₄, h⟩ := h
    simp only [Option.pure_def, Option.some.injEq, Prod.mk.injEq] at h
    exact absurd h.1 (requestLineFields_ne_again h₄)
  · simp only [Option.pure_def, Option.some.injEq, Prod.mk.injEq, reduceCtorEq, false_and] at h

/-- The URL of an accepted request line has no path just when it is a schema with slashes. -/
theorem httpProcessRequestLine_path {conf : Conf} {r r₁ : HttpRequest} {io io₁ : Io}
    (hr : r.HeadReady .request)
    (h : httpProcessRequestLine conf r io = .ret (true, r₁, io₁)) :
    ∀ h : Heap, r₁.url.path.data = .null ↔ SchemaOnly (h.str r₁.url.unparsedUrl.data) := by
  simp only [httpProcessRequestLine] at h
  split_ifs at h
  obtain ⟨x, m, pos, m', p, hstep, hr₁⟩ :=
    processLines_done (fun _ _ _ _ _ _ _ hs => requestLineStep_again hs) h
  obtain ⟨u, hne, hz, hurl, hpath⟩ := requestLineStep_done hstep (by
    show r.toRequestLine.url.path = .null
    rw [hr.2.1])
  intro h
  have hx : r₁.url = x.url := by rw [hr₁]
  have hstr : h.str (.lit u) = u := by
    have htake : u.takeWhile (· != NUL) = u :=
      List.takeWhile_eq_self_iff.mpr fun c hc => by
        simpa using fun e : c = NUL => hz (e ▸ hc)
    simp only [Heap.str, Heap.cstr, htake, Option.getD_some]
  rw [hx, hpath, hurl, poolStrndup, if_neg hne, hstr]

/-! ## Accepted heads -/

/-- The header loop keeps the request line. -/
theorem httpHeaderLoop_requestLine {conf : Conf} {phase : Phase} {r r' : HttpRequest}
    {io io' : Io} {ok : Bool} (h : httpHeaderLoop conf phase r io = .ret (ok, r', io')) :
    r'.toRequestLine = r.toRequestLine := by
  simp only [httpHeaderLoop] at h
  split_ifs at h
  simp only [processLines] at h
  generalize recvLoop conf (httpParseHeaderLine httpHeaderSet r.headerBuf) r.headerBuf
    ⟨HttpRequest.headers { r with state := .headerLine } phase, r.toHeap, io.errno⟩ io.recvs = y at h
  obtain ⟨w | s, recvs⟩ := y
  · cases h
  cases s with
  | stop s => cases h
  | exit e x h' errno =>
      simp only [finishLines, Outcome.ret.injEq, Prod.mk.injEq] at h
      rw [← h.2.1]
      cases phase <;> rfl

/-- The headers whose values are handed to a C string function without a test. -/
def dereferencedHeaders : List String := ["Host", "Content-Length", "Expect"]

/-- No field that is handed to a C string function behind the head is NULL. -/
def HttpRequest.NoNull (r : HttpRequest) : Prop :=
  r.url.path.data ≠ .null ∧ ∀ name ∈ dereferencedHeaders,
    ∀ v ∈ httpHeaderStr r.toHeap r.headersIn.headers (.serverString name), v.data ≠ .null

/-- The heads that leave no NULL field: the URL is more than a schema and slashes, and the
    last line that sets one of the headers has a value. -/
def HttpRequest.FieldsPresent (r : HttpRequest) (pairs : List (Str × Str)) : Prop :=
  ¬ SchemaOnly (r.str r.url.unparsedUrl.data) ∧ ∀ name ∈ dereferencedHeaders,
    ∀ v ∈ (r.headerPuts name pairs).getLast?, v.data ≠ .null

/-- The fields of an accepted head are present just when the URL and the header lines have
    them. -/
theorem noNull_iff {conf : Conf} {r r₁ r₂ : HttpRequest} {io io₁ io₂ : Io}
    (hr : r.HeadReady .request) (hfirst : httpProcessRequestLine conf r io = .ret (true, r₁, io₁))
    (hloop : httpHeaderLoop conf .request r₁ io₁ = .ret (true, r₂, io₂)) :
    r₂.NoNull ↔ r₂.FieldsPresent (handedPairs conf r₁ io₁) := by
  obtain ⟨htable, -, hnames⟩ := headTable hr hfirst hloop
  have hends := keyed_ends (h := r₂.toHeap) fun p hp => by
    obtain ⟨off, hoff, -, hlen⟩ := hnames p hp
    exact ⟨_, off, hoff, hlen⟩
  have hurl : r₂.url.path.data = .null ↔ SchemaOnly (r₂.str r₂.url.unparsedUrl.data) := by
    have := httpProcessRequestLine_path hr hfirst r₂.toHeap
    rwa [← httpHeaderLoop_requestLine hloop] at this
  have hheaders : r₂.headersIn.headers = setAll r₂.toHeap (handedPairs conf r₁ io₁) := htable
  have hlookup : ∀ name ∈ dereferencedHeaders,
      httpHeaderStr r₂.toHeap r₂.headersIn.headers (.serverString name)
        = (r₂.headerPuts name (handedPairs conf r₁ io₁)).getLast? := by
    intro name hname
    rw [hheaders]
    refine httpHeaderStr_setAll ?_ hends
    have hall : ∀ n ∈ dereferencedHeaders, NUL ∉ bytes n := by decide
    exact hall name hname
  rw [HttpRequest.NoNull, HttpRequest.FieldsPresent, ne_eq, hurl]
  refine and_congr_right fun _ => forall₂_congr fun name hname => ?_
  rw [hlookup name hname]

/-- The head that one `recv` of `s` brings on a new connection: behind its first line, and
    behind its header lines. -/
def receivedHead (conf : Conf) (s : List Byte) : Option (HttpRequest × Io × HttpRequest × Io) :=
  match httpProcessRequestLine conf {} { recvs := [.data s] } with
  | .ret (true, r₁, io₁) =>
    match httpHeaderLoop conf .request r₁ io₁ with
    | .ret (true, r₂, io₂) => some (r₁, io₁, r₂, io₂)
    | _ => none
  | _ => none

theorem receivedHead_some {conf : Conf} {s : List Byte} {r₁ r₂ : HttpRequest} {io₁ io₂ : Io}
    (h : receivedHead conf s = some (r₁, io₁, r₂, io₂)) :
    httpProcessRequestLine conf {} { recvs := [.data s] } = .ret (true, r₁, io₁) ∧
      httpHeaderLoop conf .request r₁ io₁ = .ret (true, r₂, io₂) := by
  unfold receivedHead at h
  split at h
  case h_2 => cases h
  next q₁ i₁ hfirst =>
  split at h
  case h_2 => cases h
  next q₂ i₂ hloop =>
  simp only [Option.some.injEq, Prod.mk.injEq] at h
  obtain ⟨rfl, rfl, rfl, rfl⟩ := h
  exact ⟨hfirst, hloop⟩

instance (r : HttpRequest) (pairs : List (Str × Str)) : Decidable (r.FieldsPresent pairs) :=
  inferInstanceAs (Decidable (¬ _ ∧ ∀ name ∈ dereferencedHeaders,
    ∀ v ∈ (r.headerPuts name pairs).getLast?, v.data ≠ .null))

theorem noNull_iff_get :
    ∃ r₁ io₁ r₂ io₂, receivedHead exampleConf
        (bytes "GET / HTTP/1.1\nHost: a\n\n") = some (r₁, io₁, r₂, io₂) ∧ r₂.NoNull := by
  obtain ⟨⟨r₁, io₁, r₂, io₂⟩, h⟩ : ∃ x, receivedHead exampleConf
      (bytes "GET / HTTP/1.1\nHost: a\n\n") = some x := Option.isSome_iff_exists.mp (by decide)
  have hpresent : (receivedHead exampleConf
      (bytes "GET / HTTP/1.1\nHost: a\n\n")).map (fun x => decide (x.2.2.1.FieldsPresent
        (handedPairs exampleConf x.1 x.2.1))) = some true := by
    decide +kernel
  simp only [h, Option.map_some, Option.some.injEq, decide_eq_true_eq] at hpresent
  obtain ⟨hfirst, hloop⟩ := receivedHead_some h
  exact ⟨r₁, io₁, r₂, io₂, h, (noNull_iff ⟨rfl, rfl, rfl⟩ hfirst hloop).mpr hpresent⟩

/-- `abc:` is a URL without a path. -/
theorem schemaOnly_head_null :
    ¬ ∀ (conf : Conf) (r r₁ r₂ : HttpRequest) (io io₁ io₂ : Io), r.HeadReady .request →
      httpProcessRequestLine conf r io = .ret (true, r₁, io₁) →
      httpHeaderLoop conf .request r₁ io₁ = .ret (true, r₂, io₂) → r₂.NoNull := by
  intro hall
  obtain ⟨⟨r₁, io₁, r₂, io₂⟩, h⟩ : ∃ x, receivedHead exampleConf
      (bytes "GET abc: HTTP/1.1\n\n") = some x := Option.isSome_iff_exists.mp (by decide)
  have hpath : (receivedHead exampleConf
      (bytes "GET abc: HTTP/1.1\n\n")).map (·.2.2.1.url.path.data) = some .null := by decide
  simp only [h, Option.map_some, Option.some.injEq] at hpath
  obtain ⟨hfirst, hloop⟩ := receivedHead_some h
  exact (hall _ _ r₁ r₂ _ io₁ io₂ ⟨rfl, rfl, rfl⟩ hfirst hloop).1 hpath

end XwpServer
