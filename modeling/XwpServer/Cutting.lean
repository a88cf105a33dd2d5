/-
  XwpServer.Cutting

  What a head comes to does not depend on how its stream is cut into pieces, as long
  as no line of it is read beyond its end and the headers looked up behind it have
  values.

  The situation of a run is what a caller can see of it: that it waits, or what it
  has returned, with the strings as texts.  `HeadSafe` is enough for all cuttings of
  a stream to come to one situation, in which the run waits or has returned.
-/

import XwpServer.RejectedLine

namespace XwpServer

open CString Scan LineParser

/-! ## Situations -/

/-- The strings of a request line. -/
def RequestLine.strs (l : RequestLine) : List Str :=
  [l.methodStr, l.url.unparsedUrl, l.url.schema, l.url.host, l.url.path, l.url.queryString,
    l.versionStr]

/-- What a caller sees of a head that has been processed; the offset is the one of the
    first byte behind the head. -/
structure HeadView where
  ok : Bool
  status : Int
  requestLine : RequestLine
  texts : List (Option (List Byte) × Nat)
  headers : List ((Option (List Byte) × Nat) × (Option (List Byte) × Nat))
  offset : Option Nat
  deriving DecidableEq

/-- The strings of the request line that a phase records. -/
def Phase.lineStrs : Phase → RequestLine → List Str
  | .request, l => l.strs
  | .response, _ => []

def HttpRequest.headView (r : HttpRequest) (phase : Phase) (ok : Bool) : HeadView where
  ok := ok
  status := r.status
  requestLine := r.toRequestLine
  texts := (phase.lineStrs r.toRequestLine).map r.toHeap.text
  headers := (r.headers phase).map fun e => (r.toHeap.text e.name, r.toHeap.text e.value)
  offset := if ok then some (r.buf r.headerBuf).pos else none

/-- The situation of a run: it waits for more bytes, it has returned, or it has stopped. -/
inductive Situation where
  | waiting
  | returned (v : HeadView)
  | stopped (s : Stop)
  deriving DecidableEq

/-- The run waits, or has returned. -/
def Situation.Settled (S : Situation) : Prop := S = .waiting ∨ ∃ v, S = .returned v

def situation (phase : Phase) : Outcome (Bool × HttpRequest × Io) → Situation
  | .wait _ => .waiting
  | .stop s => .stopped s
  | .ret (ok, r, _) => .returned (r.headView phase ok)

/-- `ps` is a way of cutting `s` into the pieces that successive `recv` calls return. -/
def IsCutting (s : List Byte) (ps : List (List Byte)) : Prop :=
  (∀ p ∈ ps, p ≠ []) ∧ ps.flatten = s

/-- The head on the pieces `ps`. -/
def cutRun (conf : Conf) (phase : Phase) (r : HttpRequest) (io : Io) (ps : List (List Byte)) :
    Outcome (Bool × HttpRequest × Io) :=
  httpProcessHead conf phase r { io with recvs := ps.map .data }

/-! ## Views of two heaps -/

/-- The strings a view shows. -/
def HttpRequest.headStrs (r : HttpRequest) (phase : Phase) : List Str :=
  phase.lineStrs r.toRequestLine ++ (r.headers phase).flatMap fun e => [e.name, e.value]

/-- Two buffers that agree on the bytes in which the strings of a request stand give the
    same view. -/
theorem HttpRequest.headView_setBuf (r : HttpRequest) (phase : Phase) (ok : Bool) {h : Heap}
    {k : Nat} (hk : k < h.bufs.length) (hh : h.headerBuf = k) {m p p' : List Byte}
    (hstrs : ∀ s ∈ r.headStrs phase, s.data.LiveIn k m) {b c : Buf} (hb : b.mem = m ++ p)
    (hc : c.mem = m ++ p') (hpos : ok = true → b.pos = c.pos) :
    headView { r with toHeap := h.setBuf k b } phase ok
      = headView { r with toHeap := h.setBuf k c } phase ok := by
  have htext : ∀ s ∈ r.headStrs phase, (h.setBuf k b).text s = (h.setBuf k c).text s := by
    intro s hs
    have := (hstrs s hs).agree hk hb hc
    simp only [Heap.text, show (h.setBuf k b).cstr s.data = (h.setBuf k c).cstr s.data from this]
  have hheaders : ∀ h', headers { r with toHeap := h' } phase = r.headers phase := by
    intro h'
    cases phase <;> rfl
  simp only [headView, hheaders, HeadView.mk.injEq, true_and]
  refine ⟨?_, ?_, ?_⟩
  · exact List.map_congr_left fun s hs => htext s (by simp [headStrs, hs])
  · refine List.map_congr_left fun e he => ?_
    rw [htext e.name, htext e.value]
    · exact List.mem_append_right _ (List.mem_flatMap.mpr ⟨e, he, by simp⟩)
    · exact List.mem_append_right _ (List.mem_flatMap.mpr ⟨e, he, by simp⟩)
  · cases ok with
    | false => rfl
    | true => simp only [if_true, Heap.setBuf_headerBuf, hh, Heap.buf_setBuf hk, hpos rfl]

/-! ## The end of the header lines -/

theorem httpHeaderInt_agree {h h' : Heap} {hs : List Header} (name : String)
    (hagree : ∀ e ∈ hs, h.Agree h' e.name.data ∧ h.Agree h' e.value.data) :
    httpHeaderInt h hs (.serverString name) = httpHeaderInt h' hs (.serverString name) := by
  have hstr := httpHeaderStr_agree (h := h) name fun e he => (hagree e he).1
  simp only [httpHeaderInt, ← hstr]
  rcases hv : httpHeaderStr h hs (.serverString name) with _ | v
  · rfl
  · obtain ⟨e, he, rfl⟩ := mem_of_httpHeaderStr hv
    simp only [show h.cstr e.value.data = h'.cstr e.value.data from (hagree e he).2]

/-- Put the outcome of a call on another heap and other outcomes of `recv`. -/
def Outcome.relocate (h : Heap) (recvs : List RecvEvent) :
    Outcome (Bool × HttpRequest × Io) → Outcome (Bool × HttpRequest × Io)
  | .ret (ok, r, io) => .ret (ok, { r with toHeap := h }, { io with recvs := recvs })
  | .wait _ => .wait h
  | .stop s => .stop s

theorem nwrite_relocate (h h' : Heap) (io : Io) (recvs : List RecvEvent) (bs : List Byte)
    (r : HttpRequest) :
    (nwrite h' { io with recvs := recvs } bs).bind (fun (ok, io) =>
        .ret (ok, { r with toHeap := h' }, io))
      = ((nwrite h io bs).bind fun (ok, io) => .ret (ok, r, io)).relocate h' recvs := by
  unfold nwrite
  by_cases hbs : bs = []
  · simp [hbs, Outcome.bind, Outcome.relocate]
  · simp only [hbs, if_false]
    rcases Feed.feed onSend (.inl ⟨bs, io.errno, io.sent⟩) io.sends with ⟨w | ⟨ok, e, sent⟩ | s, es⟩
      <;> rfl

section HeadersDone

variable {r : HttpRequest} {h' : Heap}

theorem keepAliveOf_agree (hagree : ∀ e ∈ r.headersIn.headers,
      h'.Agree r.toHeap e.name.data ∧ h'.Agree r.toHeap e.value.data) :
    HttpRequest.keepAliveOf { r with toHeap := h' } = r.keepAliveOf := by
  have hstr : httpHeaderStr h' r.headersIn.headers HTTP_HEADER_KEEPALIVE
      = httpHeaderStr r.toHeap r.headersIn.headers HTTP_HEADER_KEEPALIVE :=
    httpHeaderStr_agree _ fun e he => (hagree e he).1
  simp only [HttpRequest.keepAliveOf, hstr]
  rcases hv : httpHeaderStr r.toHeap r.headersIn.headers HTTP_HEADER_KEEPALIVE with _ | v
  · rfl
  · obtain ⟨e, he, rfl⟩ := mem_of_httpHeaderStr hv
    simp only [(hagree e he).2.str]

theorem fillHeadersIn_relocate (hagree : ∀ e ∈ r.headersIn.headers,
      h'.Agree r.toHeap e.name.data ∧ h'.Agree r.toHeap e.value.data) :
    HttpRequest.fillHeadersIn { r with toHeap := h' }
      = r.fillHeadersIn.map fun q => { q with toHeap := h' } := by
  have hstr : ∀ name, httpHeaderStr h' r.headersIn.headers (.serverString name)
      = httpHeaderStr r.toHeap r.headersIn.headers (.serverString name) :=
    fun name => httpHeaderStr_agree name fun e he => (hagree e he).1
  have hint : httpHeaderInt h' r.headersIn.headers HTTP_HEADER_CONTENT_LEN
      = httpHeaderInt r.toHeap r.headersIn.headers HTTP_HEADER_CONTENT_LEN :=
    httpHeaderInt_agree _ hagree
  simp only [HttpRequest.fillHeadersIn, hint, keepAliveOf_agree hagree, hstr]
  rcases httpHeaderInt r.toHeap r.headersIn.headers HTTP_HEADER_CONTENT_LEN with _ | n <;> rfl

theorem answerExpect_relocate (io : Io) (recvs : List RecvEvent)
    (hagree : ∀ e ∈ r.headersIn.headers,
      h'.Agree r.toHeap e.name.data ∧ h'.Agree r.toHeap e.value.data) :
    answerExpect { r with toHeap := h' } { io with recvs := recvs }
      = (answerExpect r io).relocate h' recvs := by
  have hstr : httpHeaderStr h' r.headersIn.headers HTTP_HEADER_EXPECT
      = httpHeaderStr r.toHeap r.headersIn.headers HTTP_HEADER_EXPECT :=
    httpHeaderStr_agree _ fun e he => (hagree e he).1
  simp only [answerExpect, hstr]
  rcases hv : httpHeaderStr r.toHeap r.headersIn.headers HTTP_HEADER_EXPECT with _ | v
  · rfl
  · obtain ⟨e, he, rfl⟩ := mem_of_httpHeaderStr hv
    simp only [show h'.cstr e.value.data = r.toHeap.cstr e.value.data from (hagree e he).2]
    rcases r.toHeap.cstr e.value.data with _ | s
    · rfl
    · simp only
      split
      · exact nwrite_relocate r.toHeap h' io recvs continueLine r
      · rfl

/-- What is done behind the header lines reads the header strings only. -/
theorem headersDone_relocate (phase : Phase) (io : Io) (recvs : List RecvEvent)
    (hagree : ∀ e ∈ r.headers phase,
      h'.Agree r.toHeap e.name.data ∧ h'.Agree r.toHeap e.value.data) :
    headersDone phase { r with toHeap := h' } { io with recvs := recvs }
      = (headersDone phase r io).relocate h' recvs := by
  cases phase with
  | response =>
      have hint : httpHeaderInt h' r.headersOut.headers HTTP_HEADER_CONTENT_LEN
          = httpHeaderInt r.toHeap r.headersOut.headers HTTP_HEADER_CONTENT_LEN :=
        httpHeaderInt_agree _ hagree
      simp only [headersDone]
      rw [hint]
      rcases httpHeaderInt r.toHeap r.headersOut.headers HTTP_HEADER_CONTENT_LEN with _ | n <;> rfl
  | request =>
      have hfill : ∀ q, r.fillHeadersIn = some q →
          q.headersIn.headers = r.headersIn.headers ∧ q.toHeap = r.toHeap := by
        intro q hq
        obtain ⟨n, -, rfl⟩ := HttpRequest.fillHeadersIn_eq_some hq
        exact ⟨rfl, rfl⟩
      simp only [headersDone, fillHeadersIn_relocate hagree]
      rcases hf : r.fillHeadersIn with _ | q
      · rfl
      · obtain ⟨hhs, hheap⟩ := hfill q hf
        exact answerExpect_relocate io recvs (by rw [hhs, hheap]; exact hagree)

end HeadersDone

/-! ## A first line with its words -/

theorem ParseRet.loopExit_done {ret : ParseRet} : ret.loopExit = .done ↔ ret = .done := by
  cases ret <;> simp [ParseRet.loopExit]

/-- What the machine of a first line comes to on a line `l` behind the white space `ws`. -/
structure FirstLineResult (phase : Phase) (r : HttpRequest) (ws l : List Byte)
    (q : HeadResult HttpRequest) : Prop where
  frame : ∃ x n, q.x = { r with toRequestLine := x, status := n }
  done_length : q.done.length = ws.length + l.length
  pos : q.pos = q.done.length
  accepted : q.ret.loopExit = .done ↔ FirstLineAccepted phase l
  strs : ∀ s ∈ phase.lineStrs q.x.toRequestLine, s.data.LiveIn r.bufs.length q.done

theorem RequestLine.InLine.strs {k : Nat} {l m : List Byte} {x : RequestLine}
    (h : x.InLine k l m) : ∀ s ∈ x.strs, s.InLine k l m := by
  intro s hs
  simp only [RequestLine.strs, List.mem_cons, List.not_mem_nil, or_false] at hs
  rcases hs with rfl | rfl | rfl | rfl | rfl | rfl | rfl
  · exact h.methodStr
  · exact h.url.unparsedUrl
  · exact h.url.schema
  · exact h.url.host
  · exact h.url.path
  · exact h.url.queryString
  · exact h.versionStr

theorem RequestLine.strs_shift (d : Nat) (x : RequestLine) :
    (x.shift d).strs = x.strs.map (Str.shift d) := rfl

theorem firstLineRun_line {phase : Phase} {r : HttpRequest} (hr : r.HeadReady phase)
    {ws l : List Byte} (hws : ∀ c ∈ ws, isspace c = true) (hl : IsLine l)
    (hc : ∀ c ∈ l.head?, isspace c = false) (hown : HasWords phase.words l) (t : List Byte) :
    ∃ q, firstLineRun phase r (ws ++ (l ++ t)) = .halt q t ∧ FirstLineResult phase r ws l q := by
  cases phase with
  | request =>
      obtain ⟨-, hx, -⟩ := hr
      -- three words: the step decides, and the other three are the same as these
      obtain ⟨s₁, w₁, e₁, r₁, h₁, s₂, w₂, e₂, r₂, h₂, s₃, w₃, e₃, r₃, h₃, -⟩ := hown
      obtain ⟨ret, x, m, hstep, hret, hm, hin, -, hdone, -⟩ :=
        requestLineStep_words (k := r.bufs.length) hl h₁ h₂ h₃
      have hrun := @firstLineMachine_line _ _ RequestLine.shift ⟨r.toRequestLine, []⟩ _ _ t _ _ _ _
        hws hl hc (by rw [hx]; exact hstep) hret
      refine ⟨_, by simp only [firstLineRun, requestLineMachine, hrun]; rfl, ?_⟩
      refine ⟨⟨_, _, rfl⟩, by simp [HeadResult.map, hm], by simp [HeadResult.map, hm], ?_, ?_⟩
      · rw [ParseRet.loopExit_done]
        constructor
        · intro h
          exact ⟨_, _, _, _, _, _, _, _, _, _, _, _, h₁, h₂, h₃, hdone.mp h⟩
        · rintro ⟨s₁', w₁', e₁', r₁', s₂', w₂', e₂', r₂', s₃', w₃', e₃', r₃', h₁', h₂', h₃', hok⟩
          obtain ⟨ret', x', m', hstep', -, -, -, -, hdone', -⟩ :=
            requestLineStep_words (k := r.bufs.length) hl h₁' h₂' h₃'
          rw [hstep, Option.some.injEq, Prod.mk.injEq] at hstep'
          exact hstep'.1.trans (hdone'.mpr hok)
      · intro s hs
        simp only [Phase.lineStrs, HeadResult.map, HttpRequest.setRequestLine, List.nil_append,
          RequestLine.strs_shift, List.mem_map] at hs
        obtain ⟨s, hs, rfl⟩ := hs
        have hof := (hin.strs s hs).ofLine (d := ws) rfl [] []
        simpa [HeadResult.map] using hof.live
  | response =>
      -- two words; the second one is the status
      obtain ⟨s₁, w₁, e₁, r₁, h₁, s₂, w₂, e₂, r₂, h₂, -⟩ := hown
      have hstep := statusLineStep_words hl h₁ h₂
      have hstore : statusLineStore r.status l 0
          = some (if atoi w₂ < HTTP_STATUS_START ∨ atoi w₂ > HTTP_STATUS_END then .fail else .done,
              atoi w₂, (s₁ ++ w₁ ++ [NUL] ++ s₂ ++ w₂ ++ [NUL]) ++ r₂, l.length) := by
        simp [statusLineStore, hstep]
      have hret : (if atoi w₂ < HTTP_STATUS_START ∨ atoi w₂ > HTTP_STATUS_END then ParseRet.fail
          else .done) ≠ .again := by
        split <;> simp
      have hrun := @firstLineMachine_line _ _ (fun _ x => x) ⟨r.status, []⟩ _ _ t _ _ _ _ hws hl hc
        hstore hret
      have hm : ((s₁ ++ w₁ ++ [NUL] ++ s₂ ++ w₂ ++ [NUL]) ++ r₂).length = l.length := by
        rw [h₁.eq, h₂.eq]
        simp
      refine ⟨_, by simp only [firstLineRun, statusLineMachine, hrun]; rfl, ?_⟩
      refine ⟨⟨_, _, rfl⟩, ?_, ?_, ?_, by simp [Phase.lineStrs]⟩
      · simp only [HeadResult.map, List.nil_append, List.length_append] at hm ⊢
        omega
      · simp only [HeadResult.map, List.nil_append, List.length_append] at hm ⊢
        omega
      · rw [ParseRet.loopExit_done]
        have hiff : ∀ w : List Byte, (if atoi w < HTTP_STATUS_START ∨ atoi w > HTTP_STATUS_END
            then ParseRet.fail else .done) = .done
            ↔ HTTP_STATUS_START ≤ atoi w ∧ atoi w ≤ HTTP_STATUS_END := by
          intro w
          split <;> simp <;> omega
        constructor
        · intro h
          exact ⟨_, _, _, _, _, _, _, _, h₁, h₂, (hiff w₂).mp h⟩
        · rintro ⟨s₁', w₁', e₁', r₁', s₂', w₂', e₂', r₂', h₁', h₂', hok⟩
          have hstep' := statusLineStep_words hl h₁' h₂'
          rw [hstep, Option.some.injEq, Prod.mk.injEq] at hstep'
          exact hstep'.1.trans ((hiff w₂').mpr hok)

/-! ## The strings of a header table -/

theorem Ptr.LiveIn.append {k : Nat} {m : List Byte} {p : Ptr} (h : p.LiveIn k m)
    (m' : List Byte) : p.LiveIn k (m ++ m') := by
  intro off hoff
  rw [strAt_append_isSome (h off hoff)]
  exact h off hoff

/-- The strings `ls` and those of a table, as far as they stand in the buffer `k`, are
    terminated in `m`. -/
structure TableLive (k : Nat) (ls : List Str) (hs : List Header) (m : List Byte) : Prop where
  line : ∀ s ∈ ls, s.data.LiveIn k m
  name : ∀ e ∈ hs, e.name.data.LiveIn k m
  value : ∀ e ∈ hs, e.value.data.LiveIn k m

namespace TableLive

variable {k : Nat} {ls : List Str} {hs : List Header} {m : List Byte}

theorem append (h : TableLive k ls hs m) (m' : List Byte) : TableLive k ls hs (m ++ m') where
  line s hs := (h.line s hs).append m'
  name e he := (h.name e he).append m'
  value e he := (h.value e he).append m'

theorem set (hl : TableLive k ls hs m) {name value : Str} (hname : name.data.LiveIn k m)
    (hvalue : value.data.LiveIn k m) (h : Heap) :
    TableLive k ls (httpHeaderSet h hs name value) m where
  line := hl.line
  name e he := by
    rcases mem_httpHeaderSet he with ⟨hn, -⟩ | ⟨e', he', hn, -⟩
    · rw [hn]
      exact hname
    · rw [hn]
      exact hl.name e' he'
  value e he := by
    rcases mem_httpHeaderSet he with ⟨-, hv⟩ | ⟨e', he', -, hv | hv⟩
    · rw [hv]
      exact hvalue
    · rw [hv]
      exact hl.value e' he'
    · rw [hv]
      exact hvalue

end TableLive

theorem TableLive.headStrs {k : Nat} {phase : Phase} {r : HttpRequest} {hs : List Header}
    {m : List Byte} (h : TableLive k (phase.lineStrs r.toRequestLine) hs m)
    (hhs : r.headers phase = hs) : ∀ s ∈ r.headStrs phase, s.data.LiveIn k m := by
  intro s hs'
  simp only [HttpRequest.headStrs, List.mem_append, hhs, List.mem_flatMap] at hs'
  rcases hs' with hs' | ⟨e, he, hs'⟩
  · exact h.line s hs'
  · rcases List.mem_cons.mp hs' with rfl | hs'
    · exact h.name e he
    · rw [List.mem_singleton.mp hs']
      exact h.value e he

/-- The table a head machine has recorded, wherever it has come to. -/
def Recorded (P : List Header → List Byte → Prop) :
    Parsed Byte (HeadState (List Header)) (HeadResult (List Header)) → Prop
  | .more s _ => P s.x s.done
  | .halt r _ => P r.x r.done
  | .stuck s _ => P s.x s.done

theorem headerMachine_tableLive {h : Heap} {k : Nat} {ls : List Str}
    {s : HeadState (List Header)} {u : List Byte} (hs : TableLive k ls s.x s.done)
    (hlen : u.length < 2 ^ 64) :
    Recorded (TableLive k ls) ((headerMachine httpHeaderSet h k).run s u) := by
  -- a line is put behind what was there; a header adds two strings of its own line
  refine Machine.run_induction (M := headerMachine httpHeaderSet h k)
    (P := fun s u y => TableLive k ls s.x s.done → u.length < 2 ^ 64 → Recorded (TableLive k ls) y)
    ?_ ?_ ?_ ?_ s u hs hlen
  · intro s u _ hs _
    exact hs
  · intro s u l t _ _ hs _
    exact hs
  · intro s u l t s' hline hstep ih hs hlen
    have hut := splitLine_eq hline
    have hl := IsLine.of_splitLine hline
    simp only [hut, List.length_append] at hlen
    simp only [headerMachine] at hstep
    split at hstep <;> simp only [Option.some.injEq, Verdict.next.injEq, reduceCtorEq] at hstep
    · subst hstep
      exact ih (hs.append l) (by omega)
    · next m name value p hst =>
      subst hstep
      refine ih ?_ (by omega)
      rcases headerStep_cases k hl (by omega) hst with h' | h' | ⟨m', name', value', h', -, hn, hv⟩
      · cases h'
      · cases h'
      · cases h'
        have live : ∀ x : Str, x.InLine k l m → (x.shift s.done.length).data.LiveIn k (s.done ++ m) := by
          intro x hx
          have := (hx.ofLine (d := s.done) rfl [] []).live
          simpa using this
        refine (hs.append m).set (live _ hn) ?_ _
        rcases value with _ | v
        · exact (Str.ofLine_null k (s.done ++ m) [] 0 0).live
        · exact live _ (hv v rfl)
  · intro s u l t r hline hstep hs hlen
    simp only [headerMachine] at hstep
    split at hstep <;> simp only [Option.some.injEq, Verdict.halt.injEq, reduceCtorEq] at hstep
    subst hstep
    exact hs.append l

/-! ## One situation for all cuttings -/

theorem finishLines_recvs {σ : Type} (put : HttpRequest → σ → HttpRequest) (r : HttpRequest)
    (io : Io) (rs : List RecvEvent) (y : (Waiting σ ⊕ LoopEnd σ) × List RecvEvent) :
    finishLines put r { io with recvs := rs } y = finishLines put r io y := by
  rcases y with ⟨w | ⟨e, x, h, errno⟩ | s, es⟩ <;> rfl

/-- A loop that has come to rest waits, or has no larger buffer to go on with. -/
theorem finishLines_makeRoom_cases {σ : Type} (conf : Conf) (put : HttpRequest → σ → HttpRequest)
    (r : HttpRequest) (io : Io) (k : Nat) (w : Waiting σ) (es : List RecvEvent) :
    (∃ h, finishLines put r io (makeRoom conf k w, es) = .wait h) ∨
      ∃ r' io', finishLines put r io (makeRoom conf k w, es) = .ret (false, r', io') := by
  unfold makeRoom
  split
  · rcases httpAllocLargeClientHeaderBuf conf w.heap with _ | h
    · exact Or.inr ⟨_, _, rfl⟩
    · exact Or.inl ⟨_, rfl⟩
  · exact Or.inl ⟨_, rfl⟩

/-- What is done behind the header lines changes neither the strings nor the status. -/
theorem headersDone_frame {phase : Phase} {r r' : HttpRequest} {io io' : Io} {ok : Bool}
    (h : headersDone phase r io = .ret (ok, r', io')) :
    r'.toHeap = r.toHeap ∧ r'.toRequestLine = r.toRequestLine ∧
      r'.headers phase = r.headers phase ∧ r'.status = r.status := by
  cases phase with
  | response =>
      obtain ⟨-, -, n, -, rfl⟩ := headersDone_response h
      exact ⟨rfl, rfl, rfl, rfl⟩
  | request =>
      obtain ⟨n, -, rfl⟩ := HttpRequest.fillHeadersIn_eq_some (headersDone_request h).1
      exact ⟨rfl, rfl, rfl, rfl⟩

@[simp] theorem HttpRequest.headers_toHeap (r : HttpRequest) (h : Heap) (phase : Phase) :
    headers { r with toHeap := h } phase = r.headers phase := by cases phase <;> rfl

@[simp] theorem HttpRequest.headerLineReady_toHeap (r : HttpRequest) (h : Heap) (phase : Phase) :
    headerLineReady { r with toHeap := h } phase = r.headerLineReady phase := by cases phase <;> rfl

/-- The call comes to one situation, however the bytes `t` arrive: those that are in the
    buffer, and the pieces behind them. -/
def OneSituation (phase : Phase) (t : List Byte)
    (call : List Byte → List (List Byte) → Outcome (Bool × HttpRequest × Io)) : Prop :=
  ∃ S : Situation, S.Settled ∧ ∀ t' ps, t = t' ++ ps.flatten → (∀ p ∈ ps, p ≠ []) →
    situation phase (call t' ps) = S

section HeaderPart

variable {conf : Conf} {phase : Phase} {h : Heap} {k cap i : Nat} {done t : List Byte}
  {r : HttpRequest}

/-- The request in front of its header lines, with the bytes `t'` of the head in the
    buffer. -/
def HttpRequest.atHeaders (r : HttpRequest) (h : Heap) (k cap : Nat) (done t' : List Byte) :
    HttpRequest :=
  { r with toHeap := h.setBuf k (headBuf cap done t' done.length) }

/-- The header lines wait for more. -/
theorem situation_headers_more (io : Io) (hready : r.headerLineReady phase = true)
    (hcap : cap < 2 ^ 64) (hk : k < h.bufs.length) (hh : h.headerBuf = k)
    (htable : TableLive k (phase.lineStrs r.toRequestLine) (r.headers phase) done)
    (hfit : done.length + t.length ≤ cap) {s' : HeadState (List Header)} {u' : List Byte}
    (hrun : (headerMachine httpHeaderSet h k).run ⟨r.headers phase, done⟩ t = .more s' u') :
    OneSituation phase t fun t' ps => httpProcessHeaderLine conf phase
      (r.atHeaders h k cap done t') { io with recvs := ps.map .data } := by
  have hloop : ∀ (t' : List Byte) (ps : List (List Byte)), t = t' ++ ps.flatten →
      (∀ p ∈ ps, p ≠ []) →
      httpHeaderLoop conf phase (r.atHeaders h k cap done t') { io with recvs := ps.map .data }
      = finishLines (·.setHeaders phase) { r with state := .headerLine } io
        (makeRoom conf k ⟨s'.x, s'.heap h k cap u', io.errno⟩, []) := by
    intro t' ps ht hps
    have hcall := @httpHeaderLoop_more conf _ (r.atHeaders h k cap done t')
      { io with recvs := ps.map .data } _ _ _ _ _ _
      ((r.headerLineReady_toHeap _ phase).trans hready) hcap hk hh rfl
      (by rw [HttpRequest.atHeaders, HttpRequest.headers_toHeap]; exact htable.name) hps
      (by simp only [ht, List.length_append] at hfit; omega) rfl _ _
      (by rw [HttpRequest.atHeaders, HttpRequest.headers_toHeap, ← ht]; exact hrun)
    rw [hcall, finishLines_recvs]
    exact finishLines_makeRoom fun _ _ => by cases phase <;> rfl
  rcases finishLines_makeRoom_cases conf (·.setHeaders phase) { r with state := .headerLine } io k
    ⟨s'.x, s'.heap h k cap u', io.errno⟩ [] with ⟨h', hw⟩ | ⟨r', io', hw⟩
  · refine ⟨.waiting, .inl rfl, fun t' ps ht hps => ?_⟩
    simp only [httpProcessHeaderLine, hloop t' ps ht hps, hw]
    rfl
  · refine ⟨.returned (r'.headView phase false), .inr ⟨_, rfl⟩, fun t' ps ht hps => ?_⟩
    simp only [httpProcessHeaderLine, hloop t' ps ht hps, hw]
    rfl

/-- The header lines come to their end. -/
theorem situation_headers_halt (io : Io) (hready : r.headerLineReady phase = true)
    (hcap : cap < 2 ^ 64) (hk : k < h.bufs.length) (hh : h.headerBuf = k)
    (htable : TableLive k (phase.lineStrs r.toRequestLine) (r.headers phase) done)
    (hnone : r.headers phase = []) (hvalues : ValuesGiven phase t)
    (hsend : io.SendsOf continueLine) (hfit : done.length + t.length ≤ cap)
    {q : HeadResult (List Header)} {t₁ : List Byte}
    (hrun : (headerMachine httpHeaderSet h k).run ⟨r.headers phase, done⟩ t = .halt q t₁) :
    OneSituation phase t fun t' ps => httpProcessHeaderLine conf phase
      (r.atHeaders h k cap done t') { io with recvs := ps.map .data } := by
  have hrec := headerMachine_tableLive (h := h) (s := ⟨r.headers phase, done⟩) (u := t) htable
    (by omega)
  rw [hrun] at hrec
  obtain ⟨calls, hcalls, hq⟩ := headerRun_of_run hrun
  generalize q.done = done' at hcalls hq hrec
  subst hq
  simp only [Recorded] at hrec
  generalize hhs : runCalls httpHeaderSet h k (r.headers phase) calls = hs at hrec
  -- the request behind the loop, with nothing received behind the empty line
  let rc : HttpRequest := { r.setHeaders phase hs with
    state := .headerLine
    toHeap := h.setBuf k (headBuf cap done' [] done'.length) }
  have hstrs : ∀ s ∈ rc.headStrs phase, s.data.LiveIn k done' := by
    refine @TableLive.headStrs _ _ _ hs _ ?_ (by cases phase <;> rfl)
    cases phase <;> exact hrec
  refine ⟨situation phase (headersDone phase rc io), ?_, fun t' ps ht hps => ?_⟩
  · -- the headers that are looked up are in the table, with their values
    have htab : rc.headers phase = runCalls httpHeaderSet h k [] calls := by
      rw [← hnone, hhs]
      cases phase <;> rfl
    obtain ⟨p, hp⟩ : ∃ p, (headBuf cap done' [] done'.length).mem = done' ++ p :=
      ⟨_, List.append_assoc ..⟩
    have hgiven : ∀ name ∈ phase.consulted, ∀ v ∈ httpHeaderStr rc.toHeap (rc.headers phase)
        (.serverString name), (rc.toHeap.cstr v.data).isSome := by
      rw [htab]
      exact hcalls.consulted (by omega) hvalues hk hp
    rcases hd : headersDone phase rc io with ⟨ok, r', io'⟩ | h' | s
    · exact .inr ⟨_, rfl⟩
    · exact .inl rfl
    · exact absurd hd (headersDone_settles hgiven hsend s)
  · obtain ⟨t₂, rest, ht₂, hrest, hcall⟩ := @httpHeaderLoop_halt conf _
      (r.atHeaders h k cap done t') { io with recvs := ps.map .data } _ [] _ _ _ _ _
      ((r.headerLineReady_toHeap _ phase).trans hready) hcap hk hh rfl
      (by rw [HttpRequest.atHeaders, HttpRequest.headers_toHeap]; exact htable.name) hps
      (by simp only [ht, List.length_append] at hfit; omega) (by simp) _ _ _
      (by rw [← ht]; exact hcalls)
    have hr₂ : ({ (HttpRequest.setHeaders (r.atHeaders h k cap done t') phase hs) with
        state := .headerLine
        toHeap := h.setBuf k (headBuf cap done' t₂ done'.length) } : HttpRequest)
        = { rc with toHeap := h.setBuf k (headBuf cap done' t₂ done'.length) } := by
      cases phase <;> rfl
    rw [HttpRequest.atHeaders, HttpRequest.headers_toHeap, hhs, ← HttpRequest.atHeaders, hr₂] at hcall
    have hmem : ∀ u, ∃ p, (headBuf cap done' u done'.length).mem = done' ++ p :=
      fun u => ⟨_, List.append_assoc ..⟩
    obtain ⟨p, hp⟩ := hmem t₂
    obtain ⟨p', hp'⟩ := hmem []
    -- what has arrived behind the head does not change the strings in it
    have hagree : ∀ s ∈ rc.headStrs phase,
        (h.setBuf k (headBuf cap done' t₂ done'.length)).Agree rc.toHeap s.data :=
      fun s hs => (hstrs s hs).agree hk hp hp'
    have hdone := headersDone_relocate (r := rc) phase io (rest.map .data ++ [])
      (fun e he => by
        constructor <;> refine hagree _ (List.mem_append_right _ (List.mem_flatMap.mpr
          ⟨e, he, by simp⟩)))
    simp only [httpProcessHeaderLine, hcall, Outcome.bind, if_true]
    rw [hdone]
    rcases hd : headersDone phase rc io with ⟨ok, r', io'⟩ | h' | s
    · obtain ⟨hheap, hl, hhdr, -⟩ := headersDone_frame hd
      simp only [Outcome.relocate, situation, Situation.returned.injEq]
      have hview := r'.headView_setBuf phase ok hk hh (m := done') (p := p)
        (b := headBuf cap done' t₂ done'.length)
        (fun s hs => hstrs s (by simpa only [HttpRequest.headStrs, hl, hhdr] using hs)) hp hp'
        (fun _ => rfl)
      rw [hview]
      congr 1
      rw [show h.setBuf k (headBuf cap done' [] done'.length) = r'.toHeap from hheap.symm]
    · rfl
    · rfl

/-- A header line is rejected. -/
theorem situation_headers_stuck (io : Io) (hready : r.headerLineReady phase = true)
    (hcap : cap < 2 ^ 64) (hk : k < h.bufs.length) (hh : h.headerBuf = k)
    (htable : TableLive k (phase.lineStrs r.toRequestLine) (r.headers phase) done)
    (hfit : done.length + t.length + i = cap) (hsafe : HeaderLinesSafe (zeros (i + 1)) t)
    {s' : HeadState (List Header)} {u' : List Byte}
    (hrun : (headerMachine httpHeaderSet h k).run ⟨r.headers phase, done⟩ t = .stuck s' u') :
    OneSituation phase t fun t' ps => httpProcessHeaderLine conf phase
      (r.atHeaders h k cap done t') { io with recvs := ps.map .data } := by
  have hrec := headerMachine_tableLive (h := h) (s := ⟨r.headers phase, done⟩) (u := t) htable
    (by omega)
  rw [hrun] at hrec
  let rc : HttpRequest := { r.setHeaders phase s'.x with
    state := .headerLine
    status := HTTP_STATUS_BAD_REQUEST }
  refine ⟨.returned (HttpRequest.headView { rc with toHeap := h.setBuf k ⟨s'.done, 0, 0, 0⟩ } phase
    false), .inr ⟨_, rfl⟩, fun t' ps ht hps => ?_⟩
  obtain ⟨b, m, rest, hm, -, hcall⟩ := @httpHeaderLoop_reject conf _ (r.atHeaders h k cap done t')
    { io with recvs := ps.map .data } _ [] _ _ _ i _ _
    ((r.headerLineReady_toHeap _ phase).trans hready) hcap hk hh rfl
    (by rw [HttpRequest.atHeaders, HttpRequest.headers_toHeap]; exact htable.name) hps
    (by rw [← ht]; exact hfit) (by simp) (by rw [← ht]; exact hsafe) _ _
    (by rw [HttpRequest.atHeaders, HttpRequest.headers_toHeap, ← ht]; exact hrun)
  have hview := rc.headView_setBuf phase false hk hh (m := s'.done) (b := b)
    (c := ⟨s'.done, 0, 0, 0⟩) (@TableLive.headStrs _ _ _ s'.x _ (by cases phase <;> exact hrec)
      (by cases phase <;> rfl)) hm (List.append_nil _).symm (by simp)
  simp only [httpProcessHeaderLine, hcall, Outcome.bind, Bool.false_eq_true, if_false, situation]
  rw [← hview]
  cases phase <;> rfl

/-- The header lines of a safe stream come to one situation. -/
theorem situation_headers (io : Io) (hready : r.headerLineReady phase = true)
    (hcap : cap < 2 ^ 64) (hk : k < h.bufs.length) (hh : h.headerBuf = k)
    (htable : TableLive k (phase.lineStrs r.toRequestLine) (r.headers phase) done)
    (hnone : r.headers phase = []) (hvalues : ValuesGiven phase t)
    (hsend : io.SendsOf continueLine) (hfit : done.length + t.length + i = cap)
    (hsafe : HeaderLinesSafe (zeros (i + 1)) t) :
    OneSituation phase t fun t' ps => httpProcessHeaderLine conf phase
      (r.atHeaders h k cap done t') { io with recvs := ps.map .data } := by
  -- the machine on the whole stream says what each cutting comes to
  rcases hrun : (headerMachine httpHeaderSet h k).run ⟨r.headers phase, done⟩ t with
    ⟨s', u'⟩ | ⟨q, t₁⟩ | ⟨s', u'⟩
  · exact situation_headers_more io hready hcap hk hh htable (by omega) hrun
  · exact situation_headers_halt io hready hcap hk hh htable hnone hvalues hsend (by omega) hrun
  · exact situation_headers_stuck io hready hcap hk hh htable hfit hsafe hrun

end HeaderPart

/-- Without a first line the machine waits. -/
theorem firstLineRun_rest (phase : Phase) (r : HttpRequest) {ws v : List Byte}
    (hws : ∀ c ∈ ws, isspace c = true) (hv : ∀ c ∈ v.head?, isspace c = false)
    (hline : splitLine v = none) : firstLineRun phase r (ws ++ v) = .more ⟨r, ws⟩ v := by
  cases phase with
  | request =>
      simp only [firstLineRun, requestLineMachine, firstLineMachine_skip hws]
      rw [Machine.run_of_split_none ((splitFirst_of_head hv).trans hline)]
      rfl
  | response =>
      simp only [firstLineRun, statusLineMachine, firstLineMachine_skip hws]
      rw [Machine.run_of_split_none ((splitFirst_of_head hv).trans hline)]
      rfl

section Safe

variable {conf : Conf} {phase : Phase} {r : HttpRequest} {io : Io} {ws l t v : List Byte} {i : Nat}

theorem situation_rest (hr : r.HeadReady phase) (hws : ∀ c ∈ ws, isspace c = true)
    (hv : ∀ c ∈ v.head?, isspace c = false) (hline : splitLine v = none)
    (hfit : (ws ++ v).length ≤ conf.clientHeaderSize) :
    ∃ S : Situation, S.Settled ∧ ∀ ps, IsCutting (ws ++ v) ps →
      situation phase (cutRun conf phase r io ps) = S := by
  -- all cuttings come to the same full or waiting buffer
  have hloop : ∀ ps, IsCutting (ws ++ v) ps →
      httpProcessFirstLine conf phase r { io with recvs := ps.map .data }
      = finishLines (fun _ q => { q with state := phase.firstState }) r io
          (makeRoom conf r.bufs.length ⟨r, (HeadState.mk r ws).heap (headHeap conf r.toHeap)
            r.bufs.length conf.clientHeaderSize v, io.errno⟩, []) := by
    rintro ps ⟨hps, hs⟩
    have hcall := @httpProcessFirstLine_more _ _ _ { io with recvs := ps.map .data } _ hr hps
      (by rw [hs]; exact hfit) rfl _ _ (by rw [hs]; exact firstLineRun_rest phase r hws hv hline)
    rw [hcall, finishLines_recvs]
  rcases finishLines_makeRoom_cases conf (fun _ q => { q with state := phase.firstState }) r io
    r.bufs.length ⟨r, (HeadState.mk r ws).heap (headHeap conf r.toHeap) r.bufs.length
      conf.clientHeaderSize v, io.errno⟩ [] with ⟨h', hw⟩ | ⟨r', io', hw⟩
  · refine ⟨.waiting, .inl rfl, fun ps hps => ?_⟩
    rw [cutRun, httpProcessHead, hloop ps hps, hw]
    rfl
  · refine ⟨.returned (r'.headView phase false), .inr ⟨_, rfl⟩, fun ps hps => ?_⟩
    rw [cutRun, httpProcessHead, hloop ps hps, hw]
    rfl

theorem situation_reject (hr : r.HeadReady phase) (hws : ∀ c ∈ ws, isspace c = true)
    (hl : IsLine l) (hc : ∀ c ∈ l.head?, isspace c = false) (hown : ¬ HasWords phase.words l)
    (hlacks : LacksWords phase.words (l ++ (t ++ zeros (i + 1))))
    (hfit : (ws ++ (l ++ t)).length + i = conf.clientHeaderSize) :
    ∃ S : Situation, S.Settled ∧ ∀ ps, IsCutting (ws ++ (l ++ t)) ps →
      situation phase (cutRun conf phase r io ps) = S := by
  have hstrs : ∀ s ∈ r.headStrs phase, s.data.LiveIn r.bufs.length [] := by
    refine TableLive.headStrs ⟨?_, by simp, by simp⟩ hr.headers
    cases phase with
    | request =>
        simp only [Phase.lineStrs, hr.2.1]
        intro s hs off hoff
        simp only [RequestLine.strs, List.mem_cons, List.not_mem_nil, or_false] at hs
        rcases hs with rfl | rfl | rfl | rfl | rfl | rfl | rfl <;> cases hoff
    | response => simp [Phase.lineStrs]
  let rc : HttpRequest := { r with state := phase.firstState, status := HTTP_STATUS_BAD_REQUEST }
  refine ⟨.returned (HttpRequest.headView { rc with
    toHeap := (headHeap conf r.toHeap).setBuf r.bufs.length ⟨[], 0, 0, 0⟩ } phase false), .inr ⟨_, rfl⟩,
    fun ps hps => ?_⟩
  obtain ⟨hne, hs⟩ := hps
  obtain ⟨b, rest, -, hcall⟩ := @httpProcessFirstLine_reject _ _ _
    { io with recvs := ps.map .data } _ [] hr hne _ (by rw [hs]; exact hfit) (by simp) _ _ _ hs hws
    hl hc hown hlacks
  have hview := rc.headView_setBuf phase false (headHeap_length conf r.toHeap) rfl (m := [])
    (b := b) (c := ⟨[], 0, 0, 0⟩) (by cases phase <;> exact hstrs) rfl rfl (by simp)
  rw [← hview, cutRun, httpProcessHead, hcall]
  rfl

theorem situation_line (hr : r.HeadReady phase) (hws : ∀ c ∈ ws, isspace c = true)
    (hl : IsLine l) (hc : ∀ c ∈ l.head?, isspace c = false) (hown : HasWords phase.words l)
    (hrest : FirstLineAccepted phase l → HeaderLinesSafe (zeros (i + 1)) t)
    (hvalues : FirstLineAccepted phase l → ValuesGiven phase t)
    (hsend : io.SendsOf continueLine)
    (hfit : (ws ++ (l ++ t)).length + i = conf.clientHeaderSize) :
    ∃ S : Situation, S.Settled ∧ ∀ ps, IsCutting (ws ++ (l ++ t)) ps →
      situation phase (cutRun conf phase r io ps) = S := by
  have hk := headHeap_length conf r.toHeap
  obtain ⟨q, hrun, ⟨x, n, hx⟩, hlen, hpos, haccept, hstrs⟩ := firstLineRun_line hr hws hl hc hown t
  -- the first line ends inside one of the pieces; `t'` is what came with it
  have hcall : ∀ ps, IsCutting (ws ++ (l ++ t)) ps → ∃ (t' : List Byte)
      (rest : List (List Byte)), t = t' ++ rest.flatten ∧ (∀ p ∈ rest, p ≠ []) ∧
      httpProcessFirstLine conf phase r { io with recvs := ps.map .data }
        = .ret (decide (q.ret.loopExit = .done),
            { q.x with
              state := phase.firstState
              status := q.ret.loopExit.status q.x.status
              toHeap := q.heap (headHeap conf r.toHeap) r.bufs.length conf.clientHeaderSize t' },
            { io with recvs := rest.map .data }) := by
    rintro ps ⟨hps, hs⟩
    obtain ⟨t', rest, ht, hsuffix, hcall⟩ := @httpProcessFirstLine_halt conf _ _
      { io with recvs := ps.map .data } _ [] hr hps (by rw [hs]; omega) (by simp) _ _
      (by rw [hs]; exact hrun)
    exact ⟨t', rest, ht, fun p hp => hps p (hsuffix.subset hp), by simpa using hcall⟩
  have hlive : TableLive r.bufs.length (phase.lineStrs q.x.toRequestLine) (r.headers phase) q.done :=
    ⟨hstrs, by simp [hr.headers], by simp [hr.headers]⟩
  -- only behind an accepted first line are the header lines looked at
  by_cases hdone : q.ret.loopExit = .done
  · let rc : HttpRequest := { q.x with state := phase.firstState }
    have hhdr : rc.headers phase = r.headers phase := by
      simp only [rc, hx]
      cases phase <;> rfl
    have hready : rc.headerLineReady phase = true := by cases phase <;> rfl
    have htable : TableLive r.bufs.length (phase.lineStrs rc.toRequestLine) (rc.headers phase)
        q.done := by
      rw [hhdr]
      exact hlive
    obtain ⟨S, hS, hall⟩ := @situation_headers conf _ _ _ _ i _ _ _ io hready
      conf.clientHeaderSize_lt_64 hk rfl htable (hhdr.trans hr.headers)
      (hvalues (haccept.mp hdone)) hsend (by simp only [List.length_append] at hfit; omega)
      (hrest (haccept.mp hdone))
    refine ⟨S, hS, fun ps hps => ?_⟩
    obtain ⟨t', rest, ht, hne, hfirst⟩ := hcall ps hps
    have hat : ({ q.x with
        state := phase.firstState
        status := q.ret.loopExit.status q.x.status
        toHeap := q.heap (headHeap conf r.toHeap) r.bufs.length conf.clientHeaderSize t' }
          : HttpRequest)
        = rc.atHeaders (headHeap conf r.toHeap) r.bufs.length conf.clientHeaderSize q.done t' := by
      simp only [HeadResult.heap, hpos, hdone, HttpRequest.atHeaders, LoopExit.status, rc]
    rw [cutRun, httpProcessHead, hfirst, hat, ← hall t' rest ht hne]
    simp only [hdone, decide_true, Outcome.bind, if_true]
  · let rc : HttpRequest := { q.x with
      state := phase.firstState
      status := q.ret.loopExit.status q.x.status }
    refine ⟨.returned (HttpRequest.headView { rc with
      toHeap := (headHeap conf r.toHeap).setBuf r.bufs.length ⟨q.done, 0, 0, 0⟩ } phase false),
      .inr ⟨_, rfl⟩, fun ps hps => ?_⟩
    obtain ⟨t', rest, ht, hne, hfirst⟩ := hcall ps hps
    have hview := rc.headView_setBuf phase false hk rfl (m := q.done)
      (b := headBuf conf.clientHeaderSize q.done t' q.pos) (c := ⟨q.done, 0, 0, 0⟩)
      (@TableLive.headStrs _ _ _ (r.headers phase) _ (by cases phase <;> exact hlive)
        (by simp only [rc, hx]; cases phase <;> rfl))
      (List.append_assoc ..) (List.append_nil _).symm (by simp)
    rw [← hview, cutRun, httpProcessHead, hfirst]
    simp only [hdone, decide_false, Outcome.bind, Bool.false_eq_true, if_false, situation,
      HeadResult.heap]
    rfl

end Safe

/-- All cuttings of a stream come to one situation, in which the run waits or has returned. -/
def CuttingsAlike (conf : Conf) (phase : Phase) (r : HttpRequest) (io : Io) (s : List Byte) :
    Prop :=
  ∃ S : Situation, S.Settled ∧ ∀ ps, IsCutting s ps → situation phase (cutRun conf phase r io ps) = S

/-- On a safe stream all cuttings come to one situation. -/
theorem cuttingsAlike_of_safe {conf : Conf} {phase : Phase} {r : HttpRequest} {io : Io}
    {s : List Byte} (hr : r.HeadReady phase) (hsend : io.SendsOf continueLine) {i : Nat}
    (hfit : s.length + i = conf.clientHeaderSize) (hsafe : HeadSafe phase (zeros (i + 1)) s) :
    CuttingsAlike conf phase r io s := by
  rcases hsafe with ⟨rfl, hws, hv, hline⟩ | ⟨rfl, hws, hc, hl, hown, hrest, hvalues⟩ |
    ⟨rfl, hws, hc, hl, hown, hlacks⟩
  · exact situation_rest hr hws hv hline (by omega)
  · exact situation_line hr hws hl hc hown hrest hvalues hsend hfit
  · exact situation_reject hr hws hl hc hown hlacks hfit

theorem hasWords_get : HasWords Phase.request.words (bytes "GET / HTTP/1.1\n") := by
  refine ⟨
    [], bytes "GET", 32, bytes "/ HTTP/1.1\n", ⟨by decide, by simp, by decide, by decide +kernel, ?_⟩,
    [], bytes "/", 32, bytes "HTTP/1.1\n", ⟨by decide, by simp, by decide, by decide +kernel, ?_⟩,
    [], bytes "HTTP/1.1", LF, [], ⟨by decide, by simp, by decide, by decide +kernel, ?_⟩,
    trivial⟩ <;> decide

/-- `GET / HTTP/1.1` and the empty line are safe. -/
theorem headSafe_get : HeadSafe .request (zeros 9) (bytes "GET / HTTP/1.1\n\n") :=
  @HeadSafe.line _ _ _ [] (bytes "GET / HTTP/1.1\n") [LF] rfl (by simp) (by decide +kernel)
    ⟨⟨bytes "GET / HTTP/1.1", rfl, by decide +kernel⟩, by decide⟩ hasWords_get
    (fun _ => .finish (t := []) rfl (.inl rfl))
    fun _ => valuesGiven_blank (t := []) rfl (.inl rfl) .request

theorem cuttingsAlike_of_safe_get :
    CuttingsAlike ⟨24, 48, 16, 64, by decide, by decide⟩ .request {} {}
      (bytes "GET / HTTP/1.1\n\n") :=
  cuttingsAlike_of_safe (r := {}) (i := 8) ⟨rfl, rfl, rfl⟩ (Io.sendsOf_nil rfl (by decide)) rfl
    headSafe_get

/-- A request line that lacks its version takes it from the next line, unless the next
    line has not arrived. -/
theorem brokenRequestLine_situations_differ :
    ¬ ∀ (conf : Conf) (s : List Byte) (ps qs : List (List Byte)),
      s.length ≤ conf.clientHeaderSize → IsCutting s ps → IsCutting s qs →
      situation .request (cutRun conf .request {} {} ps)
        = situation .request (cutRun conf .request {} {} qs) := by
  intro h
  have := h ⟨24, 48, 16, 64, by decide, by decide⟩ (bytes "GET /\nHTTP/1.1\n\n")
    [bytes "GET /\nHTTP/1.1\n\n"] [bytes "GET /\n", bytes "HTTP/1.1\n\n"] (by decide)
    ⟨by decide, rfl⟩ ⟨by decide, rfl⟩
  revert this
  decide

end XwpServer
