/-
  XwpServer.StrInvariant

  The strings of an accepted head.

  A `str_t` is zero terminated at its length, has no zero byte before, and is a piece of
  one line of the head.  This holds in every run that accepts a head whose lines have
  their words and colons within themselves, on whatever stream and in whatever pieces
  (`head_strRep`), as long as the buffer is not switched.  A name that runs on into the
  next line breaks it.
-/

import XwpServer.Growing
import XwpServer.WellFormedHead

namespace XwpServer

open CString Scan LineParser

/-! ## Heads whose lines stand alone -/

/-- Each header line up to the empty one is white space or has a colon of its own. -/
inductive HeaderLinesOwn : List Byte → Prop
  | finish {u l t} (hline : splitLine u = some (l, t)) (hblank : IsBlankLine l) : HeaderLinesOwn u
  | line {u l t} (hline : splitLine u = some (l, t))
      (hown : (∀ x ∈ l, isspace x = true) ∨ HasColon l) (hrest : HeaderLinesOwn t) :
      HeaderLinesOwn u

/-- The first line of the stream has three words, and the header lines stand alone. -/
def HeadLinesOwn (s : List Byte) : Prop :=
  ∃ l t, splitLine (s.dropWhile isspace) = some (l, t) ∧ HasWords Phase.request.words l ∧
    HeaderLinesOwn t

theorem splitLine_of_prefix {u v l t l' t' : List Byte} (hu : splitLine u = some (l, t))
    (hv : splitLine (u ++ v) = some (l', t')) : l = l' ∧ t' = t ++ v := by
  rw [splitLine_append hu v, Option.some.injEq, Prod.mk.injEq] at hv
  exact ⟨hv.1, hv.2.symm⟩

/-- What has arrived of such header lines never leaves the machine undecided. -/
theorem headerMachine_own {σ : Type} {set : HeaderSink σ} {h : Heap} {k : Nat} {t : List Byte}
    (hown : HeaderLinesOwn t) {u v : List Byte} (ht : t = u ++ v) (hlen : u.length < 2 ^ 64)
    (s : HeadState σ) :
    (∃ s' u', (headerMachine set h k).run s u = .more s' u') ∨
      ∃ q t', (headerMachine set h k).run s u = .halt q t' := by
  -- on the lines; what has arrived is cut off inside one of them, or the last one is there
  induction hown generalizing u s with
  | @finish t l t' hline hblank =>
      subst ht
      rcases hu : splitLine u with _ | ⟨l₁, t₁⟩
      · exact .inl ⟨s, u, Machine.run_of_split_none hu⟩
      obtain ⟨rfl, -⟩ := splitLine_of_prefix hu hline
      have hdone : headerStep l₁ 0 = some (.done l₁.length) := by
        rcases hblank with rfl | rfl <;> rfl
      exact .inr ⟨⟨.done, s.x, s.done ++ l₁, (s.done ++ l₁).length⟩, t₁,
        Machine.run_of_halt hu (by simp only [headerMachine, hdone])⟩
  | @line t l t' hline hown hrest ih =>
      subst ht
      rcases hu : splitLine u with _ | ⟨l₁, t₁⟩
      · exact .inl ⟨s, u, Machine.run_of_split_none hu⟩
      obtain ⟨rfl, rfl⟩ := splitLine_of_prefix hu hline
      have hl := IsLine.of_splitLine hu
      have hut := splitLine_eq hu
      have hlens : l₁.length < 2 ^ 64 ∧ t₁.length < 2 ^ 64 := by
        simp only [hut, List.length_append] at hlen
        omega
      have hsplit : (headerMachine set h k).split s u = some (l₁, t₁) := hu
      obtain ⟨st, hst⟩ := Option.isSome_iff_exists.mp ((headerStep_isSome_iff hl hlens.1).mpr hown)
      rcases headerStep_cases k hl hlens.1 hst with rfl | rfl | ⟨m, name, value, rfl, -⟩
      · exact .inr ⟨⟨.done, s.x, s.done ++ l₁, (s.done ++ l₁).length⟩, t₁,
          Machine.run_of_halt hsplit (by simp only [headerMachine, hst])⟩
      · rw [@Machine.run_of_next _ _ _ _ _ ⟨s.x, s.done ++ l₁⟩ _ _ _ hsplit
          (by simp only [headerMachine, hst])]
        exact ih rfl hlens.2 _
      · rw [@Machine.run_of_next _ _ _ _ _ ⟨set (h.setBuf k ⟨s.done ++ m, 0, 0, 0⟩) s.x
            ((name.shift s.done.length).str k)
            ((value.map fun v => (v.shift s.done.length).str k).getD .null), s.done ++ m⟩
            _ _ _ hsplit (by simp only [headerMachine, hst])]
        exact ih rfl hlens.2 _

/-- What has arrived of such a head: not the whole first line, or the line and a part of what
    comes behind it. -/
theorem HeadLinesOwn.arrived {s : List Byte} (hown : HeadLinesOwn s) (r : HttpRequest)
    {u v : List Byte} (hs : s = u ++ v) :
    (∃ q u', firstLineRun .request r u = .more q u') ∨
      ∃ ws l t, u = ws ++ (l ++ t) ∧ (∀ c ∈ ws, isspace c = true) ∧ IsLine l ∧
        (∀ c ∈ l.head?, isspace c = false) ∧ HasWords Phase.request.words l ∧
        HeaderLinesOwn (t ++ v) := by
  obtain ⟨l, t, hline, hwords, hrest⟩ := hown
  obtain ⟨ws, w, rfl, hws, hw⟩ := exists_skip u
  rcases hl : splitLine w with _ | ⟨l₁, t₁⟩
  · exact .inl ⟨_, _, firstLineRun_rest .request r hws hw hl⟩
  right
  -- the white space of the stream ends where that of the first pieces does
  have hskip : s.dropWhile isspace = w ++ v := by
    rw [hs, List.append_assoc, List.dropWhile_append_of_pos hws]
    rcases w with _ | ⟨c, w⟩
    · simp [splitLine] at hl
    · simp [hw c rfl]
  rw [hskip] at hline
  obtain ⟨rfl, rfl⟩ := splitLine_of_prefix hl hline
  have hwl := splitLine_eq hl
  have hl' := IsLine.of_splitLine hl
  refine ⟨ws, l₁, t₁, by rw [hwl], hws, hl', ?_, hwords, hrest⟩
  intro c hc
  refine hw c ?_
  rw [hwl]
  rcases l₁ with _ | ⟨d, l₁⟩
  · simp at hc
  · exact hc

/-! ## The pieces a head uses -/

section Used

variable {σ : Type} {conf : Conf} {parse : Parse σ} {k cap : Nat}

/-- A parser call that leaves the loop waiting on its own buffer keeps what was received. -/
theorem settle_small (hparse : PadsAlike parse k) {w w' : Waiting σ} (hs : w.heap.Small k cap)
    (h : settle conf parse k w = .inl w') (hun : w'.heap.headerBuf = k) :
    w'.heap.Small k cap ∧ (w'.heap.buf k).last = (w.heap.buf k).last := by
  unfold settle at h
  split at h
  case h_4 x h₁ hp =>
    obtain ⟨⟨m, p, rfl⟩, -⟩ := hparse _ _ _ _ _ hs.valid hp
    have hs' := hs.parsed m p
    have hbuf := Heap.buf_setBuf hs.valid { w.heap.buf k with mem := m, pos := p }
    rcases @makeRoom_inl _ conf _ ⟨x, _, w.errno⟩ _ hs'.own hs'.valid h with rfl | ⟨hne, -⟩
    · have hlast := congrArg Buf.last hbuf
      exact ⟨hs', hlast⟩
    · exact absurd (hun.trans hs'.own.symm) hne
  all_goals cases h

/-- A piece that `recv` takes fits into the buffer. -/
theorem recv_small (hcap : cap < 2 ^ 64) {h : Heap} (hs : h.Small k cap) {p : List Byte} {b : Buf}
    (hb : (h.buf k).recv p = .ok b) :
    (h.setBuf k b).Small k cap ∧ b.last = (h.buf k).last + p.length := by
  refine ⟨(@recv_pad k cap 0 h hs hcap p b hb).1, ?_⟩
  simp only [Buf.recv] at hb
  split_ifs at hb
  cases hb
  rfl

/-- A loop that ends uses pieces that fit into its buffer, and no others. -/
theorem feed_used (hparse : PadsAlike parse k) (hcap : cap < 2 ^ 64) {ps : List (List Byte)}
    (hps : ∀ p ∈ ps, p ≠ []) {w : Waiting σ} (hs : w.heap.Small k cap)
    (hun : ∀ es', es' <+: ps.map .data →
      Unswitched k (Feed.feed (onRecv conf parse k) (.inl w) es').1)
    {e : LoopEnd σ} {rest : List RecvEvent}
    (hend : Feed.feed (onRecv conf parse k) (.inl w) (ps.map .data) = (.inr e, rest))
    (hexit : ∀ s, e ≠ .stop s) :
    ∃ ps₁ ps₂, ps = ps₁ ++ ps₂ ∧ (w.heap.buf k).last + ps₁.flatten.length ≤ cap ∧
      Feed.feed (onRecv conf parse k) (.inl w) (ps₁.map .data) = (.inr e, []) := by
  -- on the pieces; each one is received into the room that the ones before it have left
  induction ps generalizing w with
  | nil => cases hend
  | cons p ps ih =>
      have hp : p ≠ [] := hps p (by simp)
      simp only [List.map_cons, Feed.feed_cons] at hend
      rcases hb : (w.heap.buf k).recv p with s | b
      · simp only [onRecv, hp, if_false, hb, Feed.feed_inr, Prod.mk.injEq, Sum.inr.injEq] at hend
        exact absurd hend.1.symm (hexit s)
      have hon : onRecv conf parse k w (.data p)
          = settle conf parse k { w with heap := w.heap.setBuf k b } := by
        simp only [onRecv, hp, if_false, hb]
      obtain ⟨hs', hlast⟩ := recv_small hcap hs hb
      have hbuf : (w.heap.setBuf k b).buf k = b := Heap.buf_setBuf hs.valid b
      rw [hon] at hend
      rcases hset : settle conf parse k { w with heap := w.heap.setBuf k b } with w' | e'
      · rw [hset] at hend hon
        have hun' : ∀ es', es' <+: ps.map .data →
            Unswitched k (Feed.feed (onRecv conf parse k) (.inl w') es').1 := by
          intro es' hes
          have := hun (.data p :: es') (by simpa using hes)
          rwa [Feed.feed_cons, hon] at this
        have hown : w'.heap.headerBuf = k := hun' [] List.nil_prefix
        obtain ⟨hsmall, hlast'⟩ := settle_small hparse hs' hset hown
        obtain ⟨ps₁, ps₂, rfl, hfit, hfeed⟩ := ih (fun q hq => hps q (by simp [hq])) hsmall hun' hend
        refine ⟨p :: ps₁, ps₂, rfl, ?_, ?_⟩
        · rw [hlast', hbuf] at hfit
          simp only [List.flatten_cons, List.length_append]
          omega
        · rw [List.map_cons, Feed.feed_cons, hon]
          exact hfeed
      · rw [hset, Feed.feed_inr, Prod.mk.injEq] at hend
        refine ⟨[p], ps, rfl, ?_, ?_⟩
        · have hle := hs'.last_le
          have hcapeq := hs'.end_eq
          rw [hbuf] at hle hcapeq
          simp only [List.flatten_cons, List.flatten_nil, List.append_nil]
          omega
        · rw [List.map_singleton, Feed.feed_cons, hon, hset, Feed.feed_nil, hend.1]

end Used

theorem finishLines_true {σ : Type} {put : HttpRequest → σ → HttpRequest} {r r' : HttpRequest}
    {io io' : Io} {y : (Waiting σ ⊕ LoopEnd σ) × List RecvEvent}
    (h : finishLines put r io y = .ret (true, r', io')) :
    ∃ x hp errno, y.1 = .inr (.exit .done x hp errno) := by
  rcases y with ⟨w | ⟨e, x, hp, errno⟩ | s, es⟩
  · cases h
  · simp only [finishLines, Outcome.ret.injEq, Prod.mk.injEq, decide_eq_true_eq] at h
    obtain ⟨rfl, -⟩ := h
    exact ⟨x, hp, errno, rfl⟩
  · cases h

/-- A loop over lines that ends well ends in the same way on the pieces it has used. -/
theorem processLines_used {σ : Type} {conf : Conf} {parse : Nat → Parse σ}
    {get : HttpRequest → σ} {put : HttpRequest → σ → HttpRequest} {r r' : HttpRequest}
    {io io' : Io} {cap : Nat} {ps : List (List Byte)}
    (hparse : PadsAlike (parse r.headerBuf) r.headerBuf) (hcap : cap < 2 ^ 64)
    (hs : r.toHeap.Small r.headerBuf cap) (hps : ∀ p ∈ ps, p ≠ []) (hio : io.recvs = ps.map .data)
    (hun : LoopUnswitched conf parse get r io)
    (h : processLines conf parse get put r io = .ret (true, r', io')) :
    ∃ ps₁ ps₂, ps = ps₁ ++ ps₂ ∧ (r.buf r.headerBuf).last + ps₁.flatten.length ≤ cap ∧
      ∃ q io'', processLines conf parse get put r { io with recvs := ps₁.map .data }
        = .ret (true, q, io'') := by
  obtain ⟨x, hp, errno, hexit⟩ := finishLines_true h
  rcases hend : recvLoop conf (parse r.headerBuf) r.headerBuf ⟨get r, r.toHeap, io.errno⟩ io.recvs
    with ⟨y, rest⟩
  rw [hend] at hexit
  obtain rfl : y = .inr (.exit .done x hp errno) := hexit
  have haccept : ∀ ps₁ : List (List Byte), recvLoop conf (parse r.headerBuf) r.headerBuf
      ⟨get r, r.toHeap, io.errno⟩ (ps₁.map .data) = (.inr (.exit .done x hp errno), []) →
      ∃ q io'', processLines conf parse get put r { io with recvs := ps₁.map .data }
        = .ret (true, q, io'') := by
    intro ps₁ hloop
    simp only [processLines, hloop]
    exact ⟨_, _, rfl⟩
  rw [recvLoop, hio] at hend
  have hun' : ∀ es', es' <+: ps.map .data → Unswitched r.headerBuf
      (Feed.feed (onRecv conf (parse r.headerBuf) r.headerBuf)
        (settle conf (parse r.headerBuf) r.headerBuf ⟨get r, r.toHeap, io.errno⟩) es').1 := by
    intro es' hes
    exact hun es' (by rw [hio]; exact hes)
  -- the first parser call ends the loop, or leaves it waiting for the pieces
  rcases hset : settle conf (parse r.headerBuf) r.headerBuf ⟨get r, r.toHeap, io.errno⟩ with w | e
  · rw [hset] at hend hun'
    have hown : w.heap.headerBuf = r.headerBuf := hun' [] List.nil_prefix
    obtain ⟨hsmall, hlast⟩ := @settle_small _ _ _ _ _ hparse ⟨get r, r.toHeap, io.errno⟩ _ hs hset
      hown
    obtain ⟨ps₁, ps₂, hsplit, hfit, hfeed⟩ := feed_used hparse hcap hps hsmall hun' hend
      (fun s => by simp)
    refine ⟨ps₁, ps₂, hsplit, by rw [hlast] at hfit; exact hfit, haccept ps₁ ?_⟩
    rw [recvLoop, hset, hfeed]
  · rw [hset, Feed.feed_inr, Prod.mk.injEq] at hend
    refine ⟨[], ps, rfl, ?_, haccept [] ?_⟩
    · have hle := hs.last_le
      have hcapeq := hs.end_eq
      simp only [List.flatten_nil, List.length_nil]
      omega
    · rw [recvLoop, hset, List.map_nil, Feed.feed_nil, hend.1]

/-! ## Lines of the head -/

/-- The line that ends with `l` behind some white space. -/
theorem exists_lineAt {ws l : List Byte} (hws : ∀ c ∈ ws, isspace c = true) (hl : IsLine l)
    (t : List Byte) : ∃ a, a ≤ ws.length ∧ LineAt (ws ++ (l ++ t)) a (ws.length + l.length) := by
  -- the white space belongs to the line from its last line feed on
  induction ws using List.reverseRecOn generalizing l with
  | nil => exact ⟨0, Nat.le_refl _, [], l, t, rfl, rfl, by simp, hl, .inl rfl⟩
  | append_singleton ws c ih =>
      by_cases hc : c = LF
      · exact ⟨(ws ++ [c]).length, Nat.le_refl _, ws ++ [c], l, t, rfl, rfl, rfl, hl,
          .inr ⟨ws, by rw [hc]⟩⟩
      have hcz : NUL ≠ c := by
        rintro rfl
        exact absurd (hws NUL (by simp)) (by decide)
      have hl' : IsLine (c :: l) := by
        obtain ⟨⟨a, rfl, hlf⟩, hz⟩ := hl
        refine ⟨⟨c :: a, rfl, ?_⟩, ?_⟩
        · simpa using ⟨Ne.symm hc, hlf⟩
        · simpa [hcz] using hz
      obtain ⟨a, ha, hline⟩ := ih (fun d hd => hws d (by simp [hd])) hl'
      have hlen : (ws ++ [c]).length + l.length = ws.length + (c :: l).length := by
        simp only [List.length_append, List.length_cons, List.length_nil]
        omega
      refine ⟨a, by simp only [List.length_append]; omega, ?_⟩
      rw [hlen]
      simpa using hline

/-- The header lines do not look at what comes behind the empty one. -/
theorem HeaderRun.trim {k : Nat} {done u done' t : List Byte} {calls : List SinkCall}
    (h : HeaderRun k done u calls done' t) :
    ∃ c, u = c ++ t ∧ HeaderRun k done c calls done' [] := by
  have hsplit : ∀ {u l t c : List Byte}, splitLine u = some (l, t) →
      splitLine (l ++ c) = some (l, c) := fun hline => (IsLine.of_splitLine hline).split _
  induction h with
  | finish hline hstep =>
      exact ⟨_, splitLine_eq hline, .finish (by simpa using hsplit (c := []) hline) hstep⟩
  | skip hline hstep hrest ih =>
      obtain ⟨c, rfl, hc⟩ := ih
      exact ⟨_ ++ c, by rw [splitLine_eq hline, List.append_assoc], .skip (hsplit hline) hstep hc⟩
  | header hline hstep hrest ih =>
      obtain ⟨c, rfl, hc⟩ := ih
      exact ⟨_ ++ c, by rw [splitLine_eq hline, List.append_assoc], .header (hsplit hline) hstep hc⟩

/-! ## The representation invariant -/

/-- What holds of the strings of an accepted head, for the stream `s`, the pairs handed to
    `http_header_set`, the request and its descriptor: each string is a piece of one line of
    the head with a terminator behind it, a name and its value stand in one line, and the
    bytes behind the head are the stream's. -/
structure StrRep (s : List Byte) (pairs : List (Str × Str)) (r : HttpRequest) (io : Io) :
    Prop where
  strs : ∀ x ∈ r.headStrs .request, ∃ a b, LineAt s a b ∧ b ≤ (r.buf r.headerBuf).pos ∧
    x.OfLine r.headerBuf (r.buf r.headerBuf).mem s a b
  pairs : ∀ p ∈ pairs, ∃ a b, LineAt s a b ∧ b ≤ (r.buf r.headerBuf).pos ∧
    p.1.OfLine r.headerBuf (r.buf r.headerBuf).mem s a b ∧
    p.2.OfLine r.headerBuf (r.buf r.headerBuf).mem s a b
  body : ∃ rest : List (List Byte), io.recvs = rest.map .data ∧
    s.drop (r.buf r.headerBuf).pos = (r.buf r.headerBuf).unread ++ rest.flatten

section Accepted

variable {conf : Conf} {r r₁ r₂ : HttpRequest} {io io₁ io₂ : Io} {ps : List (List Byte)}

theorem requestLineRun_words (hr : r.HeadReady .request) {ws l : List Byte}
    (hws : ∀ c ∈ ws, isspace c = true) (hl : IsLine l) (hc : ∀ c ∈ l.head?, isspace c = false)
    (hown : HasWords Phase.request.words l) (t : List Byte) :
    ∃ (ret : ParseRet) (x : RequestLine) (m : List Byte), firstLineRun .request r (ws ++ (l ++ t))
        = .halt ⟨ret, r.setRequestLine (x.shift ws.length), ws ++ m, (ws ++ m).length⟩ t ∧
      m.length = l.length ∧ x.InLine r.bufs.length l m := by
  obtain ⟨s₁, w₁, e₁, u₁, k₁, s₂, w₂, e₂, u₂, k₂, s₃, w₃, e₃, u₃, k₃, -⟩ := hown
  obtain ⟨ret, x, m, hstep, hret, hm, hin, -⟩ := requestLineStep_words (k := r.bufs.length) hl k₁ k₂ k₃
  have hrun := @firstLineMachine_line _ _ RequestLine.shift ⟨r.toRequestLine, []⟩ _ _ t _ _ _ _
    hws hl hc (by rw [hr.2.1]; exact hstep) hret
  refine ⟨ret, x, m, ?_, hm, hin⟩
  simp only [firstLineRun, requestLineMachine, hrun, Parsed.map, HeadResult.map, List.nil_append,
    List.length_append, hm]

/-- What an accepted request line with its own words leaves. -/
structure LineLeft (conf : Conf) (r r₁ : HttpRequest) (io₁ : Io) (s ws l m : List Byte)
    (x : RequestLine) (t : List Byte) (rest : List (List Byte)) : Prop where
  stream : s = ws ++ (l ++ (t ++ rest.flatten))
  white : ∀ c ∈ ws, isspace c = true
  line : IsLine l
  done_length : m.length = l.length
  inLine : x.InLine r.bufs.length l m
  fits : (ws ++ m).length + t.length ≤ conf.clientHeaderSize
  headerLines : HeaderLinesOwn (t ++ rest.flatten)
  pieces : ∀ p ∈ rest, p ≠ []
  requestLine : r₁.toRequestLine = x.shift ws.length
  headersIn : r₁.headersIn = r.headersIn
  state : r₁.state = .requestLine
  heap : r₁.toHeap = (headHeap conf r.toHeap).setBuf r.bufs.length
    (headBuf conf.clientHeaderSize (ws ++ m) t (ws ++ m).length)
  recvs : io₁.recvs = rest.map .data

theorem requestLine_left (hr : r.HeadReady .request) (hps : ∀ p ∈ ps, p ≠ [])
    (hio : io.recvs = ps.map .data) (h₁ : httpProcessRequestLine conf r io = .ret (true, r₁, io₁))
    (hun : FirstLoop (fun _ => LoopUnswitched conf) conf .request r io)
    (hown : HeadLinesOwn ps.flatten) :
    ∃ ws l m x t rest, LineLeft conf r r₁ io₁ ps.flatten ws l m x t rest := by
  have hstate : ¬ r.state ≠ .none := fun h => h hr.1
  -- the pieces the loop has used fit into its buffer
  have hcall := h₁
  rw [httpProcessRequestLine, if_neg hstate] at hcall
  obtain ⟨ps₁, ps₂, rfl, hfit, q, io', hused⟩ := processLines_used
    (r := firstRequest conf .request r) (httpParseRequestLine_padsAlike _)
    conf.clientHeaderSize_lt_64 (httpAllocClientHeaderBuf_small conf r.toHeap) hps hio hun hcall
  have hps₁ : ∀ p ∈ ps₁, p ≠ [] := fun p hp => hps p (by simp [hp])
  have hfit₁ : ps₁.flatten.length ≤ conf.clientHeaderSize := by omega
  have hused₁ : httpProcessFirstLine conf .request r { io with recvs := ps₁.map .data }
      = .ret (true, q, io') := by
    rw [httpProcessFirstLine, httpProcessRequestLine, if_neg hstate]
    exact hused
  rcases hown.arrived r List.flatten_append with
    ⟨s', u', hmore⟩ | ⟨ws, l, t, hu, hws, hl, hc, hwords, hrest⟩
  · -- an incomplete line is not accepted
    rw [httpProcessFirstLine_more hr hps₁ hfit₁ rfl hmore] at hused₁
    rcases finishLines_makeRoom_cases conf (fun _ q => { q with state := Phase.request.firstState })
      r { io with recvs := ps₁.map .data } r.bufs.length ⟨s'.x, s'.heap (headHeap conf r.toHeap)
        r.bufs.length conf.clientHeaderSize u', io.errno⟩ [] with ⟨h', hw⟩ | ⟨r', io'', hw⟩
    · rw [hw] at hused₁
      cases hused₁
    · rw [hw] at hused₁
      cases hused₁
  · obtain ⟨ret, x, m, hrun, hm, hin⟩ := requestLineRun_words hr hws hl hc hwords t
    rw [← hu] at hrun
    obtain ⟨t', rest, rfl, hsuffix, hret⟩ := @httpProcessFirstLine_halt conf _ r io ps₁
      (ps₂.map .data) hr hps₁ hfit₁ (by rw [hio, List.map_append]) _ _ hrun
    rw [httpProcessFirstLine, h₁] at hret
    simp only [Outcome.ret.injEq, Prod.mk.injEq] at hret
    obtain ⟨-, rfl, rfl⟩ := hret
    have hlen := congrArg List.length hu
    simp only [List.length_append] at hlen
    refine ⟨ws, l, m, x, t', rest ++ ps₂, ?_⟩
    exact {
      stream := by simp [hu]
      white := hws
      line := hl
      done_length := hm
      inLine := hin
      fits := by simp only [List.length_append]; omega
      headerLines := by simpa using hrest
      pieces := by
        intro p hp
        rcases List.mem_append.mp hp with hp | hp
        · exact hps₁ p (hsuffix.subset hp)
        · exact hps p (by simp [hp])
      requestLine := rfl
      headersIn := rfl
      state := rfl
      heap := rfl
      recvs := by simp }

/-- What accepted header lines that stand alone leave behind the request line. -/
structure LinesLeft (conf : Conf) (r r₁ r₂ : HttpRequest) (io₁ io₂ : Io) (done t : List Byte)
    (rest : List (List Byte)) (c : List Byte) (calls : List SinkCall) (done' t' : List Byte)
    (rest' : List (List Byte)) : Prop where
  stream : t ++ rest.flatten = c ++ (t' ++ rest'.flatten)
  length_lt : c.length < 2 ^ 64
  run : HeaderRun r.bufs.length done c calls done' []
  pairs : handedPairs conf r₁ io₁ = calls.map fun y => (y.name, y.value)
  requestLine : r₂.toRequestLine = r₁.toRequestLine
  headers : r₂.headers .request
    = runCalls httpHeaderSet (headHeap conf r.toHeap) r.bufs.length [] calls
  heap : r₂.toHeap = (headHeap conf r.toHeap).setBuf r.bufs.length
    (headBuf conf.clientHeaderSize done' t' done'.length)
  recvs : io₂.recvs = rest'.map .data

theorem headerLines_left (hr : r.HeadReady .request) {s ws l m t : List Byte} {x : RequestLine}
    {rest : List (List Byte)} (hl : LineLeft conf r r₁ io₁ s ws l m x t rest)
    (h₂ : httpHeaderLoop conf .request r₁ io₁ = .ret (true, r₂, io₂))
    (hun : LoopUnswitched conf (httpParseHeaderLine httpHeaderSet) (·.headers .request)
      { r₁ with state := .headerLine } io₁) :
    ∃ c calls done' t' rest',
      LinesLeft conf r r₁ r₂ io₁ io₂ (ws ++ m) t rest c calls done' t' rest' := by
  have hk := headHeap_length conf r.toHeap
  have hcap := conf.clientHeaderSize_lt_64
  have hready : r₁.headerLineReady .request = true := by
    simp [HttpRequest.headerLineReady, hl.state]
  have hempty : r₁.headers .request = [] := by
    show r₁.headersIn.headers = []
    rw [hl.headersIn]
    exact hr.2.2
  have hown : r₁.headerBuf = r.bufs.length := by
    rw [hl.heap]
    rfl
  have hbuf : r₁.buf r₁.headerBuf = headBuf conf.clientHeaderSize (ws ++ m) t (ws ++ m).length := by
    rw [hown, hl.heap]
    exact Heap.buf_setBuf hk _
  have hsmall : r₁.toHeap.Small r₁.headerBuf conf.clientHeaderSize := by
    constructor
    · rfl
    · rw [hown, hl.heap]
      simpa using hk
    · rw [hbuf]
      exact hl.fits
    · rw [hbuf]
      rfl
  -- the pieces the loop has used fit into the room behind the request line
  have hcall := h₂
  simp only [httpHeaderLoop, hready, Bool.not_true, Bool.false_eq_true, if_false] at hcall
  obtain ⟨ps₁, ps₂, hrest, hfit, q, io', hused⟩ := processLines_used
    (r := { r₁ with state := .headerLine }) (httpParseHeaderLine_padsAlike _) hcap hsmall hl.pieces
    hl.recvs hun hcall
  have hfit₁ : (ws ++ m).length + t.length + ps₁.flatten.length ≤ conf.clientHeaderSize := by
    have : (r₁.buf r₁.headerBuf).last + ps₁.flatten.length ≤ conf.clientHeaderSize := hfit
    rwa [hbuf] at this
  have hps₁ : ∀ p ∈ ps₁, p ≠ [] := fun p hp => hl.pieces p (by simp [hrest, hp])
  have hused₁ : httpHeaderLoop conf .request r₁ { io₁ with recvs := ps₁.map .data }
      = .ret (true, q, io') := by
    simp only [httpHeaderLoop, hready, Bool.not_true, Bool.false_eq_true, if_false]
    exact hused
  have hnames : NamesIn r.bufs.length (r₁.headers .request) (ws ++ m) := by
    simp [NamesIn, hempty]
  rcases @headerMachine_own _ httpHeaderSet (headHeap conf r.toHeap) r.bufs.length _
    hl.headerLines (t ++ ps₁.flatten) ps₂.flatten (by simp [hrest])
    (by simp only [List.length_append] at hfit₁ ⊢; omega) ⟨r₁.headers .request, ws ++ m⟩ with
    ⟨s', u', hmore⟩ | ⟨y, t', hhalt⟩
  · -- an incomplete head is not accepted
    rw [httpHeaderLoop_more hready hcap hk rfl hl.heap hnames hps₁ hfit₁ rfl hmore] at hused₁
    rcases finishLines_makeRoom_cases conf (·.setHeaders .request) { r₁ with state := .headerLine }
      { io₁ with recvs := ps₁.map .data } r.bufs.length ⟨s'.x, s'.heap (headHeap conf r.toHeap)
        r.bufs.length conf.clientHeaderSize u', io₁.errno⟩ [] with ⟨h', hw⟩ | ⟨r', io'', hw⟩
    · rw [hw] at hused₁
      cases hused₁
    · rw [hw] at hused₁
      cases hused₁
  · obtain ⟨calls, hcalls, -⟩ := headerRun_of_run hhalt
    have hrecvs : io₁.recvs = ps₁.map .data ++ ps₂.map .data := by
      rw [hl.recvs, hrest, List.map_append]
    obtain ⟨t₁, rest₁, rfl, -, hret⟩ := @httpHeaderLoop_halt conf _ r₁ io₁ ps₁ (ps₂.map .data) _ _
      _ _ _ hready hcap hk rfl hl.heap hnames hps₁ hfit₁ hrecvs _ _ _ hcalls
    have hpairs := @handedPairs_halt conf r₁ io₁ ps₁ (ps₂.map .data) _ _ _ _ _ hcap hk rfl hl.heap
      hps₁ hfit₁ hrecvs _ _ _ hcalls
    rw [h₂] at hret
    simp only [Outcome.ret.injEq, Prod.mk.injEq, true_and] at hret
    obtain ⟨rfl, rfl⟩ := hret
    obtain ⟨c, hc, hrun⟩ := hcalls.trim
    have hlen := congrArg List.length hc
    simp only [List.length_append] at hlen hfit₁
    refine ⟨c, calls, y.done, t₁, rest₁ ++ ps₂, ?_⟩
    exact {
      stream := by
        have := congrArg (· ++ ps₂.flatten) hc
        simpa [hrest] using this
      length_lt := by omega
      run := hrun
      pairs := hpairs
      requestLine := rfl
      headers := by rw [hempty]; rfl
      heap := rfl
      recvs := by simp }

/-- In an accepted head whose lines stand alone, and whose buffer has not been switched, the
    strings are what a `str_t` is to be. -/
theorem head_strRep (hr : r.HeadReady .request) (hps : ∀ p ∈ ps, p ≠ [])
    (hio : io.recvs = ps.map .data) (h₁ : httpProcessRequestLine conf r io = .ret (true, r₁, io₁))
    (h₂ : httpHeaderLoop conf .request r₁ io₁ = .ret (true, r₂, io₂))
    (hun : HeadUnswitched conf .request r io) (hown : HeadLinesOwn ps.flatten) :
    StrRep ps.flatten (handedPairs conf r₁ io₁) r₂ io₂ := by
  obtain ⟨ws, l, m, x, t, rest, hl⟩ := requestLine_left hr hps hio h₁ hun.1 hown
  obtain ⟨c, calls, done, t', rest', hc⟩ := headerLines_left hr hl h₂ (hun.2 r₁ io₁ h₁)
  have hk := headHeap_length conf r.toHeap
  have hbuf : r₂.buf r₂.headerBuf = headBuf conf.clientHeaderSize done t' done.length := by
    have hown : r₂.headerBuf = r.bufs.length := by
      rw [hc.heap]
      rfl
    rw [hown, hc.heap]
    exact Heap.buf_setBuf hk _
  -- the stream up to the end of the head, and the bytes of the buffer behind it
  have hstream : ps.flatten = (ws ++ l ++ c) ++ (t' ++ rest'.flatten) := by
    rw [hl.stream, hc.stream]
    simp
  have hlens : (ws ++ l).length = (ws ++ m).length := by
    simp only [List.length_append, hl.done_length]
  have hdone : done.length = (ws ++ l ++ c).length := by
    obtain ⟨c', hc', hlen⟩ := hc.run.consumed hc.length_lt
    rw [List.append_nil] at hc'
    subst hc'
    rw [List.length_append, hlens]
    exact hlen
  obtain ⟨z, hz⟩ : ∃ z, (headBuf conf.clientHeaderSize done t' done.length).mem = done ++ z :=
    ⟨_, List.append_assoc ..⟩
  have hown : r₂.headerBuf = r.bufs.length := by
    rw [hc.heap]
    rfl
  have hlift : ∀ {y : Str} {a b : Nat}, LineAt (ws ++ l ++ c) a b →
      y.OfLine r.bufs.length done (ws ++ l ++ c) a b →
      y.OfLine r₂.headerBuf (r₂.buf r₂.headerBuf).mem ps.flatten a b := by
    intro y a b hline hy
    rw [hbuf, hz, hstream, hown]
    exact hy.append hline.le_length z _
  have hhead : ∀ {a b : Nat}, LineAt (ws ++ l ++ c) a b →
      LineAt ps.flatten a b ∧ b ≤ (r₂.buf r₂.headerBuf).pos := by
    intro a b hline
    refine ⟨by rw [hstream]; exact hline.append _, ?_⟩
    rw [hbuf]
    show b ≤ done.length
    rw [hdone]
    exact hline.le_length
  -- the pairs stand in their lines
  have hcalls : ∀ y ∈ calls, y.OfLine r.bufs.length done (ws ++ l ++ c) :=
    hc.run.ofLine hlens (hl.line.lineStart ws) hc.length_lt
  obtain ⟨a, ha, hline⟩ := exists_lineAt hl.white hl.line c
  rw [← List.append_assoc] at hline
  constructor
  · intro y hy
    simp only [HttpRequest.headStrs, List.mem_append, List.mem_flatMap] at hy
    rcases hy with hy | ⟨e, he, hy⟩
    · -- a string of the request line; the header lines have not touched it
      rw [Phase.lineStrs, hc.requestLine, hl.requestLine, RequestLine.strs_shift] at hy
      obtain ⟨w, hw, rfl⟩ := List.mem_map.mp hy
      obtain ⟨q, hq⟩ := hc.run.prefix
      have hof := ((hl.inLine.strs w hw).ofLine (d := ws) rfl c q).mono ha
      rw [hq, ← List.append_assoc] at hof
      exact ⟨a, _, (hhead hline).1, (hhead hline).2, hlift hline hof⟩
    · rw [hc.headers] at he
      obtain ⟨hname, hvalue⟩ := mem_runCalls he
      have hfield : ∃ w ∈ calls, y = w.name ∨ y = w.value := by
        rcases List.mem_cons.mp hy with rfl | hy
        · obtain ⟨w, hw, heq⟩ := hname.resolve_left (by simp)
          exact ⟨w, hw, .inl heq⟩
        · rw [List.mem_singleton.mp hy]
          obtain ⟨w, hw, heq⟩ := hvalue.resolve_left (by simp)
          exact ⟨w, hw, .inr heq⟩
      obtain ⟨w, hw, heq⟩ := hfield
      obtain ⟨a', b', hline', hn, hv⟩ := hcalls w hw
      refine ⟨a', b', (hhead hline').1, (hhead hline').2, hlift hline' ?_⟩
      rcases heq with rfl | rfl
      · exact hn
      · exact hv
  · intro p hp
    rw [hc.pairs] at hp
    obtain ⟨w, hw, rfl⟩ := List.mem_map.mp hp
    obtain ⟨a', b', hline', hn, hv⟩ := hcalls w hw
    exact ⟨a', b', (hhead hline').1, (hhead hline').2, hlift hline' hn, hlift hline' hv⟩
  · refine ⟨rest', hc.recvs, ?_⟩
    rw [hbuf, headBuf_unread, hstream]
    show List.drop done.length _ = _
    rw [hdone, List.drop_left]

end Accepted

/-- A head whose lines stand alone. -/
theorem headLinesOwn_example : HeadLinesOwn (bytes "GET / HTTP/1.1\na: b\n\n") := by
  refine ⟨bytes "GET / HTTP/1.1\n", bytes "a: b\n\n", by decide +kernel, hasWords_get,
    .line (l := bytes "a: b\n") (t := [LF]) (by decide +kernel) (.inr ?_)
      (.finish (t := []) rfl (.inl rfl))⟩
  refine ⟨[], 97, bytes ": b\n", [], [97], COLON, bytes " b\n", by decide +kernel, by simp,
    by decide +kernel, ?_⟩
  exact ⟨by decide +kernel, by simp, by simp, by decide +kernel, by decide⟩

theorem head_strRep_example : ∃ r₁ io₁ r₂ io₂,
    httpProcessRequestLine exampleConf {} { recvs := [.data (bytes "GET / HTTP/1.1\na: b\n\n")] }
      = .ret (true, r₁, io₁) ∧
    httpHeaderLoop exampleConf .request r₁ io₁ = .ret (true, r₂, io₂) ∧
    StrRep (bytes "GET / HTTP/1.1\na: b\n\n") (handedPairs exampleConf r₁ io₁) r₂ io₂ := by
  obtain ⟨r₁, io₁, r₂, io₂, h₁, h₂⟩ : ∃ r₁ io₁ r₂ io₂, httpProcessRequestLine exampleConf {}
        { recvs := [.data (bytes "GET / HTTP/1.1\na: b\n\n")] } = .ret (true, r₁, io₁) ∧
      httpHeaderLoop exampleConf .request r₁ io₁ = .ret (true, r₂, io₂) := ⟨_, _, _, _, rfl, rfl⟩
  refine ⟨r₁, io₁, r₂, io₂, h₁, h₂, ?_⟩
  have := @head_strRep exampleConf {} r₁ r₂ _ io₁ io₂ [bytes "GET / HTTP/1.1\na: b\n\n"]
    ⟨rfl, rfl, rfl⟩ (by decide) rfl h₁ h₂ headUnswitched_example
    (by simpa using headLinesOwn_example)
  simpa using this

/-- A header line without a colon, in front of the empty line: its name runs on into the
    body, where a terminator is written over the colon. -/
theorem not_strRep :
    ¬ ∀ (conf : Conf) (r r₁ r₂ : HttpRequest) (io₁ io₂ : Io) (ps : List (List Byte)),
      r.HeadReady .request → (∀ p ∈ ps, p ≠ []) →
      httpProcessRequestLine conf r { recvs := ps.map .data } = .ret (true, r₁, io₁) →
      httpHeaderLoop conf .request r₁ io₁ = .ret (true, r₂, io₂) →
      StrRep ps.flatten (handedPairs conf r₁ io₁) r₂ io₂ := by
  intro h
  obtain ⟨r₁, io₁, r₂, io₂, h₁, h₂, hnil, hbody⟩ : ∃ r₁ io₁ r₂ io₂,
      httpProcessRequestLine exampleConf {}
        { recvs := [bytes "GET / HTTP/1.1\nfoo\n\n:x"].map .data } = .ret (true, r₁, io₁) ∧
      httpHeaderLoop exampleConf .request r₁ io₁ = .ret (true, r₂, io₂) ∧ io₂.recvs = [] ∧
      (bytes "GET / HTTP/1.1\nfoo\n\n:x").drop (r₂.buf r₂.headerBuf).pos
        ≠ (r₂.buf r₂.headerBuf).unread := ⟨_, _, _, _, rfl, rfl, rfl, by decide⟩
  have hrep := h exampleConf {} r₁ r₂ io₁ io₂ _ ⟨rfl, rfl, rfl⟩ (by decide) h₁ h₂
  obtain ⟨rest, hrest, hdrop⟩ := hrep.body
  rw [hnil] at hrest
  obtain rfl : rest = [] := List.map_eq_nil_iff.mp hrest.symm
  exact hbody (by simpa using hdrop)

end XwpServer
