/-
  XwpServer.Growing

  A head in a small header buffer and the same head in a large one.

  The two runs go hand in hand as long as the small buffer is neither switched for a
  larger one nor left by a parser: their buffers hold the same bytes, and the large one
  has more zero bytes behind its end.  A switch breaks the buffer the loop goes on with,
  so growing is invisible exactly in the runs that do not need it (`growing_iff`).
-/

import XwpServer.Accepted
import XwpServer.Cutting

namespace XwpServer

open CString Scan LineParser

/-! ## More room behind the end -/

/-- The heap with `n` more zero bytes behind the end of its header buffer. -/
def Heap.pad (n : Nat) (h : Heap) : Heap :=
  h.setBuf h.headerBuf
    { h.buf h.headerBuf with
      mem := (h.buf h.headerBuf).mem ++ zeros n, end_ := (h.buf h.headerBuf).end_ + n }

section Pad

variable {h : Heap} {k : Nat}

@[simp] theorem Heap.pad_headerBuf (n : Nat) : (h.pad n).headerBuf = h.headerBuf := rfl

@[simp] theorem Heap.pad_length (n : Nat) : (h.pad n).bufs.length = h.bufs.length := by
  simp [Heap.pad]

theorem Heap.pad_buf (hh : h.headerBuf = k) (hk : k < h.bufs.length) (n : Nat) :
    (h.pad n).buf k = { h.buf k with mem := (h.buf k).mem ++ zeros n, end_ := (h.buf k).end_ + n } := by
  subst hh
  exact Heap.buf_setBuf hk _

theorem Heap.pad_setBuf (hh : h.headerBuf = k) (hk : k < h.bufs.length) (b : Buf) (n : Nat) :
    (h.setBuf k b).pad n = h.setBuf k { b with mem := b.mem ++ zeros n, end_ := b.end_ + n } := by
  subst hh
  simp only [Heap.pad, Heap.setBuf_headerBuf, Heap.buf_setBuf hk, Heap.setBuf_setBuf]

theorem Heap.setBuf_pad (hh : h.headerBuf = k) (b : Buf) (n : Nat) :
    (h.pad n).setBuf k b = h.setBuf k b := by
  subst hh
  simp only [Heap.pad, Heap.setBuf_setBuf]

theorem takeWhile_zeros (m : List Byte) (n : Nat) :
    (m ++ zeros n).takeWhile (· != NUL) = m.takeWhile (· != NUL) := by
  induction m with
  | nil =>
      cases n with
      | zero => rfl
      | succ n => rfl
  | cons c cs ih =>
      simp only [List.cons_append, List.takeWhile_cons, ih]

/-- Zero bytes behind a block change none of its strings. -/
theorem cstr_zeros (m : List Byte) (n off : Nat) :
    CString.cstr (m ++ zeros n) off = CString.cstr m off := by
  rw [CString.cstr, CString.cstr, List.drop_append, List.drop_replicate, takeWhile_zeros]

theorem Heap.pad_agree (hk : h.headerBuf < h.bufs.length) (n : Nat) (p : Ptr) :
    (h.pad n).Agree h p := by
  unfold Heap.Agree
  rcases p with _ | ⟨j, off⟩ | s
  · rfl
  · simp only [Heap.cstr]
    by_cases hj : j = h.headerBuf
    · subst hj
      rw [Heap.pad_buf rfl hk, cstr_zeros]
    · rw [Heap.pad, Heap.buf_setBuf_ne _ hj]
  · rfl

end Pad

/-! ## The parsers -/

/-- A parser that changes nothing but the bytes and the position of its buffer, and does the
    same when there are more zero bytes behind it. -/
def PadsAlike {σ : Type} (parse : Parse σ) (k : Nat) : Prop :=
  ∀ x h ret x' h', k < h.bufs.length → parse x h = some (ret, x', h') →
    (∃ m p, h' = h.setBuf k { h.buf k with mem := m, pos := p }) ∧
      (h.headerBuf = k → ∀ n, parse x (h.pad n) = some (ret, x', h'.pad n))

theorem parseFirstLine_padsAlike {σ : Type} {k : Nat}
    {step : σ → List Byte → Nat → Option (ParseRet × σ × List Byte × Nat)}
    (hstep : ∀ x m pos ret x' m' pos', step x m pos = some (ret, x', m', pos') →
      ∀ post, step x (m ++ post) pos = some (ret, x', m' ++ post, pos')) :
    PadsAlike (parseFirstLine step k) k := by
  intro x h ret x' h' hk hparse
  simp only [parseFirstLine, Option.bind_eq_bind, Option.bind_eq_some_iff, Option.pure_def,
    Option.some.injEq, Prod.mk.injEq] at hparse
  obtain ⟨p, hskip, ⟨ret', x₁, m, q⟩, hs, rfl, rfl, rfl⟩ := hparse
  refine ⟨⟨m, q, rfl⟩, fun hh n => ?_⟩
  have hskip' := skipSpace_frame hskip [] (zeros n)
  simp only [List.nil_append, List.length_nil, Nat.zero_add] at hskip'
  simp only [parseFirstLine, Option.bind_eq_bind, Heap.pad_buf hh hk, hskip', Option.bind_some,
    hstep _ _ _ _ _ _ _ hs, Option.pure_def, Heap.setBuf_pad hh, Heap.pad_setBuf hh hk]

theorem httpParseRequestLine_padsAlike (k : Nat) : PadsAlike (httpParseRequestLine k) k := by
  refine parseFirstLine_padsAlike fun x m pos ret x' m' pos' h post => ?_
  have := requestLineStep_frame h [] post
  simpa only [List.nil_append, List.length_nil, Nat.zero_add, RequestLine.shift_zero] using this

theorem httpParseStatusLine_padsAlike (k : Nat) : PadsAlike (httpParseStatusLine k) k := by
  refine parseFirstLine_padsAlike fun x m pos ret x' m' pos' h post => ?_
  simp only [statusLineStore, Option.map_eq_some_iff, Prod.mk.injEq] at h ⊢
  obtain ⟨⟨ret', st, m₁, p⟩, hs, rfl, rfl, hmp⟩ := h
  cases hmp
  have := statusLineStep_frame hs [] post
  simp only [List.nil_append, List.length_nil, Nat.zero_add] at this
  exact ⟨_, this, rfl, rfl, rfl⟩

theorem headerLines_pad {σ : Type} {set : HeaderSink σ} {k last : Nat}
    (hset : ∀ x h n name value, h.headerBuf = k → k < h.bufs.length →
      set (h.pad n) x name value = set h x name value) (n : Nat) :
    ∀ fuel pos x h ret p x' h', k < h.bufs.length →
      headerLines set k last fuel pos x h = some (ret, p, x', h') →
      (∃ m, h' = h.setBuf k { h.buf k with mem := m }) ∧
        (h.headerBuf = k →
          headerLines set k last fuel pos x (h.pad n) = some (ret, p, x', h'.pad n)) := by
  intro fuel
  -- on the rounds; each one does the same on the padded buffer
  induction fuel with
  | zero =>
      intro pos x h ret p x' h' hk hlines
      simp only [headerLines, Option.some.injEq, Prod.mk.injEq] at hlines
      obtain ⟨rfl, rfl, rfl, rfl⟩ := hlines
      exact ⟨⟨(h.buf k).mem, (Heap.setBuf_self hk).symm⟩, fun _ => rfl⟩
  | succ fuel ih =>
      intro pos x h ret p x' h' hk hlines
      have hself : ∃ m, h = h.setBuf k { h.buf k with mem := m } :=
        ⟨(h.buf k).mem, (Heap.setBuf_self hk).symm⟩
      simp only [headerLines] at hlines
      by_cases hpos : last ≤ pos
      · simp only [hpos, if_true, Option.some.injEq, Prod.mk.injEq] at hlines
        obtain ⟨rfl, rfl, rfl, rfl⟩ := hlines
        exact ⟨hself, fun _ => by simp only [headerLines, hpos, if_true]⟩
      simp only [hpos, if_false] at hlines
      rcases hs : headerStep (h.buf k).mem pos with _ | s
      · simp [hs] at hlines
      have hpad := headerStep_frame hs [] (zeros n)
      simp only [List.nil_append, List.length_nil, Nat.zero_add] at hpad
      simp only [hs] at hlines
      -- what is found in the padded buffer
      have hround : h.headerBuf = k →
          headerStep ((h.pad n).buf k).mem pos = some (s.frame [] (zeros n)) := by
        intro hh
        rw [Heap.pad_buf hh hk]
        exact hpad
      cases s with
      | again =>
          simp only [Option.some.injEq, Prod.mk.injEq] at hlines
          obtain ⟨rfl, rfl, rfl, rfl⟩ := hlines
          exact ⟨hself, fun hh => by
            simp only [headerLines, hpos, if_false, hround hh, HeaderStep.frame]⟩
      | done q =>
          simp only [Option.some.injEq, Prod.mk.injEq] at hlines
          obtain ⟨rfl, rfl, rfl, rfl⟩ := hlines
          refine ⟨hself, fun hh => ?_⟩
          simp only [headerLines, hpos, if_false, hround hh, HeaderStep.frame, List.length_nil,
            Nat.zero_add]
      | skip q =>
          obtain ⟨hm, hrest⟩ := ih q x h ret p x' h' hk hlines
          refine ⟨hm, fun hh => ?_⟩
          simp only [headerLines, hpos, if_false, hround hh, HeaderStep.frame, List.length_nil,
            Nat.zero_add, hrest hh]
      | fail m q =>
          simp only [Option.some.injEq, Prod.mk.injEq] at hlines
          obtain ⟨rfl, rfl, rfl, rfl⟩ := hlines
          refine ⟨⟨m, rfl⟩, fun hh => ?_⟩
          simp only [headerLines, hpos, if_false, hround hh, HeaderStep.frame]
          simp only [List.length_nil, List.nil_append, Nat.zero_add, Heap.pad_buf hh hk,
            Heap.setBuf_pad hh, Heap.pad_setBuf hh hk]
      | header m name value q =>
          have htok : ∀ t : Tok, t.shift 0 = t := fun t => by simp [Tok.shift]
          have hvalue : value.map (Tok.shift 0) = value := by
            cases value with
            | none => rfl
            | some v => simp [htok]
          have hk' : k < (h.setBuf k { h.buf k with mem := m }).bufs.length := by
            simpa using hk
          obtain ⟨⟨m', hm'⟩, hrest⟩ :=
            ih q _ (h.setBuf k { h.buf k with mem := m }) ret p x' h' hk' hlines
          refine ⟨⟨m', by rw [hm', Heap.buf_setBuf hk, Heap.setBuf_setBuf]⟩, fun hh => ?_⟩
          have hbuf : (h.pad n).setBuf k
                { h.buf k with mem := m ++ zeros n, end_ := (h.buf k).end_ + n }
              = (h.setBuf k { h.buf k with mem := m }).pad n := by
            rw [Heap.setBuf_pad hh, Heap.pad_setBuf hh hk]
          simp only [headerLines, hpos, if_false, hround hh, HeaderStep.frame]
          simp only [List.length_nil, List.nil_append, Nat.zero_add, htok, hvalue,
            Heap.pad_buf hh hk, hbuf, hset x (h.setBuf k { h.buf k with mem := m }) n _ _ hh hk']
          exact hrest hh

theorem httpHeaderSet_pad {k : Nat} (x : List Header) (h : Heap) (n : Nat) (name value : Str)
    (hh : h.headerBuf = k) (hk : k < h.bufs.length) :
    httpHeaderSet (h.pad n) x name value = httpHeaderSet h x name value :=
  httpHeaderSet_agree value (Heap.pad_agree (hh ▸ hk) n _) fun _ _ => Heap.pad_agree (hh ▸ hk) n _

theorem httpParseHeaderLine_padsAlike (k : Nat) :
    PadsAlike (httpParseHeaderLine httpHeaderSet k) k := by
  intro x h ret x' h' hk hparse
  simp only [httpParseHeaderLine, Option.bind_eq_bind, Option.bind_eq_some_iff, Option.pure_def,
    Option.some.injEq, Prod.mk.injEq] at hparse
  obtain ⟨⟨ret', p, x₁, h₁⟩, hlines, rfl, rfl, rfl⟩ := hparse
  have hpad := fun n => headerLines_pad httpHeaderSet_pad n _ _ _ _ _ _ _ _ hk hlines
  obtain ⟨m, hm⟩ := (hpad 0).1
  refine ⟨⟨m, p, ?_⟩, fun hh n => ?_⟩
  · rw [hm, Heap.buf_setBuf hk, Heap.setBuf_setBuf]
  · have hh₁ : h₁.headerBuf = k := by rw [hm]; exact hh
    have hk₁ : k < h₁.bufs.length := by rw [hm]; simpa using hk
    simp only [httpParseHeaderLine, Heap.pad_buf hh hk, (hpad n).2 hh, Option.bind_eq_bind,
      Option.bind_some, Option.pure_def, Heap.pad_buf hh₁ hk₁, Heap.setBuf_pad hh₁,
      Heap.pad_setBuf hh₁ hk₁]

/-! ## The receive loops -/

/-- The header buffer is still the one of the loop, and nothing stands behind its end. -/
structure Heap.Small (k cap : Nat) (h : Heap) : Prop where
  own : h.headerBuf = k
  valid : k < h.bufs.length
  last_le : (h.buf k).last ≤ (h.buf k).end_
  end_eq : (h.buf k).end_ = cap

section Loop

variable {σ : Type} {conf conf' : Conf} {parse : Parse σ} {k cap n : Nat}

/-- Where a loop neither has switched its buffer nor has left it. -/
def Unswitched (k : Nat) : Waiting σ ⊕ LoopEnd σ → Prop
  | .inl w => w.heap.headerBuf = k
  | .inr (.exit ..) => True
  | .inr (.stop s) => s ≠ .fault ∧ s ≠ .misfit

def PadWaits (k cap n : Nat) (w w' : Waiting σ) : Prop :=
  w.heap.Small k cap ∧ w' = { w with heap := w.heap.pad n }

def PadEnds (k cap n : Nat) : LoopEnd σ → LoopEnd σ → Prop
  | .exit e x h errno, e' => h.Small k cap ∧ e' = .exit e x (h.pad n) errno
  | .stop s, e' => e' = .stop s

theorem Heap.Small.parsed {h : Heap} (hs : h.Small k cap) (m : List Byte) (p : Nat) :
    (h.setBuf k { h.buf k with mem := m, pos := p }).Small k cap := by
  have hbuf := Heap.buf_setBuf hs.valid { h.buf k with mem := m, pos := p }
  constructor
  · exact hs.own
  · simpa using hs.valid
  · rw [hbuf]
    exact hs.last_le
  · rw [hbuf]
    exact hs.end_eq

/-- A full small buffer is switched. -/
theorem makeRoom_switches {w : Waiting σ} (hs : w.heap.Small k cap)
    (hlt : cap < conf.largeClientHeaderSize) (hfull : (w.heap.buf k).last = (w.heap.buf k).end_) :
    ¬ Unswitched k (makeRoom conf k w) := by
  have hbuf : w.heap.buf w.heap.headerBuf = w.heap.buf k := by rw [hs.own]
  have hroom : ¬ conf.largeClientHeaderSize ≤ (w.heap.buf k).end_ := by
    have := hs.end_eq
    omega
  simp only [makeRoom, hfull, if_true, httpAllocLargeClientHeaderBuf, hbuf, hroom, if_false]
  intro h
  have hval := hs.valid
  simp only [Unswitched, Heap.setBuf_headerBuf, Heap.newHeaderBuf_headerBuf] at h
  omega

/-- The large buffer has room whenever the small one is not left. -/
theorem makeRoom_pad {w : Waiting σ} (hs : w.heap.Small k cap) (hn : 0 < n)
    (hlt : cap < conf.largeClientHeaderSize) (hok : Unswitched k (makeRoom conf k w)) :
    Sum.LiftRel (PadWaits k cap n) (PadEnds k cap n) (makeRoom conf k w)
      (makeRoom conf' k { w with heap := w.heap.pad n }) := by
  have hfull : (w.heap.buf k).last ≠ (w.heap.buf k).end_ :=
    fun hfull => makeRoom_switches hs hlt hfull hok
  have hfull' : ((w.heap.pad n).buf k).last ≠ ((w.heap.pad n).buf k).end_ := by
    rw [Heap.pad_buf hs.own hs.valid]
    have := hs.last_le
    dsimp only
    omega
  rw [makeRoom, if_neg hfull, makeRoom, if_neg hfull']
  exact .inl ⟨hs, rfl⟩

theorem settle_pad (hparse : PadsAlike parse k) {w : Waiting σ} (hs : w.heap.Small k cap)
    (hn : 0 < n) (hlt : cap < conf.largeClientHeaderSize)
    (hok : Unswitched k (settle conf parse k w)) :
    Sum.LiftRel (PadWaits k cap n) (PadEnds k cap n) (settle conf parse k w)
      (settle conf' parse k { w with heap := w.heap.pad n }) := by
  simp only [settle] at hok ⊢
  rcases hp : parse w.x w.heap with _ | ⟨ret, x, h⟩
  · simp only [hp] at hok
    exact absurd rfl hok.1
  obtain ⟨⟨m, p, rfl⟩, hpad⟩ := hparse _ _ _ _ _ hs.valid hp
  have hs' := hs.parsed m p
  simp only [hp] at hok
  simp only [hpad hs.own n]
  cases ret with
  | done => exact .inr ⟨hs', rfl⟩
  | fail => exact .inr ⟨hs', rfl⟩
  | again => exact @makeRoom_pad _ conf conf' _ _ _ ⟨x, _, w.errno⟩ hs' hn hlt hok

theorem writeAt_zeros {m bs : List Byte} {off : Nat} (h : off + bs.length ≤ m.length) (n : Nat) :
    writeAt (m ++ zeros n) off bs = writeAt m off bs ++ zeros n := by
  simp only [writeAt]
  rw [List.take_append_of_le_length (by omega), List.drop_append_of_le_length h]
  simp

theorem recv_pad {h : Heap} (hs : h.Small k cap) (hcap : cap + n < 2 ^ 64) {bs : List Byte}
    {b : Buf} (hb : (h.buf k).recv bs = .ok b) :
    (h.setBuf k b).Small k cap ∧
      ((h.pad n).buf k).recv bs
        = .ok { b with mem := b.mem ++ zeros n, end_ := b.end_ + n } := by
  have hlast := hs.last_le
  have hend := hs.end_eq
  -- neither `end - last` wraps
  have hdiff : ptrDiff (h.buf k).end_ (h.buf k).last = (h.buf k).end_ - (h.buf k).last :=
    ptrDiff_of_le hlast (by omega)
  have hdiff' : ptrDiff ((h.buf k).end_ + n) (h.buf k).last = (h.buf k).end_ + n - (h.buf k).last :=
    ptrDiff_of_le (by omega) (by omega)
  simp only [Buf.recv, hdiff] at hb
  split_ifs at hb with hmisfit hfault
  simp only [Except.ok.injEq] at hb
  subst hb
  constructor
  · constructor
    · exact hs.own
    · simpa using hs.valid
    · rw [Heap.buf_setBuf hs.valid]
      dsimp only
      omega
    · rw [Heap.buf_setBuf hs.valid]
      exact hend
  · simp only [Buf.recv, Heap.pad_buf hs.own hs.valid, hdiff']
    rw [if_neg (by omega), if_neg (by rw [List.length_append]; omega),
      writeAt_zeros (by omega)]

theorem onRecv_pad (hparse : PadsAlike parse k) {w w' : Waiting σ} (e : RecvEvent)
    (hw : PadWaits k cap n w w') (hn : 0 < n) (hlt : cap < conf.largeClientHeaderSize)
    (hcap : cap + n < 2 ^ 64) (hok : Unswitched k (onRecv conf parse k w e)) :
    Sum.LiftRel (PadWaits k cap n) (PadEnds k cap n) (onRecv conf parse k w e)
      (onRecv conf' parse k w' e) := by
  obtain ⟨hs, rfl⟩ := hw
  cases e with
  | error e =>
      simp only [onRecv]
      split
      · exact .inl ⟨hs, rfl⟩
      · exact .inr ⟨hs, rfl⟩
  | data bs =>
      simp only [onRecv] at hok ⊢
      by_cases hbs : bs = []
      · simp only [hbs, if_true]
        split
        · exact .inl ⟨hs, rfl⟩
        · exact .inr ⟨hs, rfl⟩
      simp only [hbs, if_false] at hok ⊢
      rcases hb : (w.heap.buf k).recv bs with s | b
      · -- a `recv` that does not fit, or writes outside the block
        simp only [hb, Unswitched] at hok
        simp only [Buf.recv] at hb
        split_ifs at hb
        · exact absurd (Except.error.inj hb).symm hok.2
        · exact absurd (Except.error.inj hb).symm hok.1
      · obtain ⟨hs', hb'⟩ := @recv_pad k cap n _ hs hcap _ _ hb
        simp only [hb] at hok
        simp only [hb']
        rw [Heap.setBuf_pad hs.own, ← Heap.pad_setBuf hs.own hs.valid]
        exact @settle_pad _ conf conf' _ _ _ _ hparse { w with heap := w.heap.setBuf k b } hs' hn
          hlt hok

/-- The loop on the small buffer and the loop on the large one. -/
theorem recvLoop_pad (hparse : PadsAlike parse k) {w : Waiting σ} (hs : w.heap.Small k cap)
    (hn : 0 < n) (hlt : cap < conf.largeClientHeaderSize) (hcap : cap + n < 2 ^ 64)
    {es : List RecvEvent}
    (hok : ∀ es', es' <+: es → Unswitched k (recvLoop conf parse k w es').1) :
    Sum.LiftRel (PadWaits k cap n) (PadEnds k cap n) (recvLoop conf parse k w es).1
        (recvLoop conf' parse k { w with heap := w.heap.pad n } es).1 ∧
      (recvLoop conf parse k w es).2
        = (recvLoop conf' parse k { w with heap := w.heap.pad n } es).2 := by
  have hfirst : Unswitched k (settle conf parse k w) := by
    have := hok [] (List.nil_prefix)
    rwa [recvLoop, Feed.feed_nil] at this
  exact Feed.feed_simulation_while _
    (fun w w' e hw hok => onRecv_pad hparse e hw hn hlt hcap hok)
    (settle_pad hparse hs hn hlt hfirst) es hok

end Loop

/-! ## The loops of a head -/

/-- The header size of the large buffer from the start. -/
def Conf.large (conf : Conf) : Conf :=
  { conf with
    clientHeaderSize := conf.largeClientHeaderSize
    clientHeaderSize_lt := conf.largeClientHeaderSize_lt }

/-- The request in front of the loop over the first line. -/
def firstRequest (conf : Conf) (phase : Phase) (r : HttpRequest) : HttpRequest :=
  { r with toHeap := httpAllocClientHeaderBuf conf r.toHeap, state := phase.firstState }

/-- `P` of the loop over the first line.  It is told the parser, the part of the request that is
    parsed into, and the request in front of the loop. -/
def FirstLoop (P : (σ : Type) → (Nat → Parse σ) → (HttpRequest → σ) → HttpRequest → Io → Prop)
    (conf : Conf) (phase : Phase) (r : HttpRequest) (io : Io) : Prop :=
  match phase with
  | .request => P _ httpParseRequestLine (·.toRequestLine) (firstRequest conf .request r) io
  | .response => P _ httpParseStatusLine (·.status) (firstRequest conf .response r) io

/-- `P` of that loop, and of the one over the header lines if it comes to that. -/
def EachLoop (P : (σ : Type) → (Nat → Parse σ) → (HttpRequest → σ) → HttpRequest → Io → Prop)
    (conf : Conf) (phase : Phase) (r : HttpRequest) (io : Io) : Prop :=
  FirstLoop P conf phase r io ∧
  ∀ r₁ io₁, httpProcessFirstLine conf phase r io = .ret (true, r₁, io₁) →
    P _ (httpParseHeaderLine httpHeaderSet) (·.headers phase) { r₁ with state := .headerLine } io₁

section Property

variable {σ : Type} (conf : Conf) (parse : Nat → Parse σ) (get : HttpRequest → σ)
  (r : HttpRequest) (io : Io)

/-- The loop, on some of the events. -/
def loopOn (es : List RecvEvent) : Waiting σ ⊕ LoopEnd σ :=
  (recvLoop conf (parse r.headerBuf) r.headerBuf ⟨get r, r.toHeap, io.errno⟩ es).1

/-- The loop never goes on with another buffer, and never leaves the one it has. -/
def LoopUnswitched : Prop :=
  ∀ es', es' <+: io.recvs → Unswitched r.headerBuf (loopOn conf parse get r io es')

/-- The states the parser is called in: the first one, and those behind a `recv`. -/
def Called (w₀ : Waiting σ) : Prop :=
  w₀ = ⟨get r, r.toHeap, io.errno⟩ ∨
    ∃ es' bs w b, bs ≠ [] ∧ es' ++ [.data bs] <+: io.recvs ∧ loopOn conf parse get r io es' = .inl w ∧
      (w.heap.buf r.headerBuf).recv bs = .ok b ∧
      w₀ = { w with heap := w.heap.setBuf r.headerBuf b }

/-- The buffer the loop goes on with holds what was unread, and has room. -/
structure RoomFor (b b' : Buf) : Prop where
  pos_le : b'.pos ≤ b'.last
  room : b'.last < b'.end_
  unread : b'.unread = b.unread

/-- Whenever the parser wants more and the buffer is switched, there is room. -/
def LoopSwitchesWell : Prop :=
  ∀ w₀ x h w₂, Called conf parse get r io w₀ →
    parse r.headerBuf w₀.x w₀.heap = some (.again, x, h) →
    makeRoom conf r.headerBuf ⟨x, h, w₀.errno⟩ = .inl w₂ → w₂.heap.headerBuf ≠ h.headerBuf →
    RoomFor (h.buf r.headerBuf) (w₂.heap.buf r.headerBuf)

end Property

/-- Neither buffer of the head is switched or left. -/
def HeadUnswitched (conf : Conf) (phase : Phase) (r : HttpRequest) (io : Io) : Prop :=
  EachLoop (fun _ => LoopUnswitched conf) conf phase r io

/-- Two calls end alike: with the same return value, and with requests that differ in their
    buffers only, the strings of the head being the same texts. -/
def SameEnd (phase : Phase) : Outcome (Bool × HttpRequest × Io) →
    Outcome (Bool × HttpRequest × Io) → Prop
  | .ret (ok, r, _), .ret (ok', r', _) =>
    r.headView phase ok = r'.headView phase ok' ∧ { r with toHeap := r'.toHeap } = r'
  | .wait _, .wait _ => True
  | .stop s, .stop s' => s = s' ∧ s ≠ .fault
  | _, _ => False

/-- Growing the header buffer is invisible. -/
structure GrowsInvisibly (conf : Conf) (phase : Phase) (r : HttpRequest) (io : Io) : Prop where
  alike : SameEnd phase (httpProcessHead conf phase r io) (httpProcessHead conf.large phase r io)
  switches : EachLoop (fun _ => LoopSwitchesWell conf) conf phase r io

/-! ## A head that needs no more room -/

/-- The outcome of a call with `n` more zero bytes behind the header buffer. -/
def PadOutcome (k cap n : Nat) :
    Outcome (Bool × HttpRequest × Io) → Outcome (Bool × HttpRequest × Io) → Prop
  | .ret (ok, r, io), y =>
    r.toHeap.Small k cap ∧ y = .ret (ok, { r with toHeap := r.toHeap.pad n }, io)
  | .wait _, y => ∃ h, y = .wait h
  | .stop s, y => s ≠ .fault ∧ y = .stop s

section Alike

variable {σ : Type} {conf conf' : Conf} {k cap n : Nat} {r : HttpRequest} {io : Io}

theorem processLines_pad {parse : Nat → Parse σ} {get : HttpRequest → σ}
    {put : HttpRequest → σ → HttpRequest} (hparse : PadsAlike (parse r.headerBuf) r.headerBuf)
    (hget : ∀ r h, get { r with toHeap := h } = get r)
    (hput : ∀ r h x, put { r with toHeap := h } x = { put r x with toHeap := h })
    (hs : r.toHeap.Small r.headerBuf cap) (hn : 0 < n) (hlt : cap < conf.largeClientHeaderSize)
    (hcap : cap + n < 2 ^ 64) (hok : LoopUnswitched conf parse get r io) :
    PadOutcome r.headerBuf cap n (processLines conf parse get put r io)
      (processLines conf' parse get put { r with toHeap := r.toHeap.pad n } io) := by
  have hend := hok io.recvs List.prefix_rfl
  obtain ⟨hrel, hrest⟩ := @recvLoop_pad _ conf conf' _ _ _ n hparse
    ⟨get r, r.toHeap, io.errno⟩ hs hn hlt hcap io.recvs hok
  simp only [loopOn] at hend
  simp only [processLines, hget, Heap.pad_headerBuf]
  -- both loops come to the same end, with the padding in one of them
  rcases h₁ : recvLoop conf (parse r.headerBuf) r.headerBuf ⟨get r, r.toHeap, io.errno⟩ io.recvs
    with ⟨a, rest⟩
  rcases h₂ : recvLoop conf' (parse r.headerBuf) r.headerBuf
    ⟨get r, r.toHeap.pad n, io.errno⟩ io.recvs with ⟨b, rest'⟩
  simp only [h₁] at hrel hrest hend
  simp only [h₂] at hrel hrest
  subst hrest
  cases hrel with
  | inl hw => exact ⟨_, rfl⟩
  | @inr x y hend' =>
      cases x with
      | stop s =>
          obtain rfl : y = .stop s := hend'
          exact ⟨hend.1, rfl⟩
      | exit e x h errno =>
          obtain ⟨hsmall, rfl⟩ := hend'
          refine ⟨hsmall, ?_⟩
          unfold finishLines
          dsimp only
          rw [hput]

/-- A new header buffer. -/
theorem httpAllocClientHeaderBuf_small (conf : Conf) (h : Heap) :
    (httpAllocClientHeaderBuf conf h).Small h.bufs.length conf.clientHeaderSize := by
  rw [httpAllocClientHeaderBuf_eq]
  constructor
  · rfl
  · simp [Heap.newHeaderBuf]
  · rw [Heap.buf_newHeaderBuf]
    simp [headBuf]
  · rw [Heap.buf_newHeaderBuf]
    rfl

/-- The loop over the first line. -/
theorem httpProcessFirstLine_pad {phase : Phase} (hr : r.HeadReady phase)
    (hlt : conf.clientHeaderSize < conf.largeClientHeaderSize)
    (hn : conf.clientHeaderSize + n = conf.largeClientHeaderSize)
    (hok : FirstLoop (fun _ => LoopUnswitched conf) conf phase r io) :
    PadOutcome r.bufs.length conf.clientHeaderSize n (httpProcessFirstLine conf phase r io)
      (httpProcessFirstLine conf.large phase r io) := by
  have hheap := httpAllocClientHeaderBuf_eq conf r.toHeap
  have hsmall := httpAllocClientHeaderBuf_small conf r.toHeap
  have hlarge : httpAllocClientHeaderBuf conf.large r.toHeap
      = (httpAllocClientHeaderBuf conf r.toHeap).pad n := by
    rw [httpAllocClientHeaderBuf_eq, hheap]
    -- both are empty, and the larger one has the zero bytes the smaller one is padded with
    have hbuf : headBuf conf.large.clientHeaderSize [] [] 0
        = { headBuf conf.clientHeaderSize [] [] 0 with
            mem := (headBuf conf.clientHeaderSize [] [] 0).mem ++ zeros n
            end_ := (headBuf conf.clientHeaderSize [] [] 0).end_ + n } := by
      simp only [headBuf, Conf.large, ← hn]
      simp
      omega
    rw [hbuf, Heap.pad, Heap.newHeaderBuf_headerBuf, Heap.buf_newHeaderBuf]
    simp [Heap.newHeaderBuf, Heap.setBuf]
  have hsize := conf.largeClientHeaderSize_lt
  cases phase with
  | request =>
      have hstate : ¬ r.state ≠ .none := fun h => h hr.1
      have hp := @processLines_pad _ conf conf.large conf.clientHeaderSize n
        (firstRequest conf .request r) io httpParseRequestLine (·.toRequestLine) (fun r l => { r with toRequestLine := l })
        (httpParseRequestLine_padsAlike _) (fun _ _ => rfl) (fun _ _ _ => rfl) hsmall
        (by omega) hlt (by omega) hok
      simp only [httpProcessFirstLine, httpProcessRequestLine, if_neg hstate, hlarge]
      exact hp
  | response =>
      have hstate : ¬ r.state ≠ .contentBody := fun h => h hr.1
      have hp := @processLines_pad _ conf conf.large conf.clientHeaderSize n
        (firstRequest conf .response r) io httpParseStatusLine (·.status) (fun r s => { r with status := s })
        (httpParseStatusLine_padsAlike _) (fun _ _ => rfl) (fun _ _ _ => rfl) hsmall
        (by omega) hlt (by omega) hok
      simp only [httpProcessFirstLine, httpProcessStatusLine, if_neg hstate, hlarge]
      exact hp

/-- What is done behind the header lines. -/
theorem headersDone_pad {phase : Phase} (hs : r.toHeap.Small k cap) :
    PadOutcome k cap n (headersDone phase r io)
      (headersDone phase { r with toHeap := r.toHeap.pad n } io) := by
  have hk : r.toHeap.headerBuf < r.toHeap.bufs.length := hs.own ▸ hs.valid
  have hself := @headersDone_relocate r r.toHeap phase io io.recvs
    fun _ _ => ⟨rfl, rfl⟩
  have hpad := @headersDone_relocate r (r.toHeap.pad n) phase io io.recvs
    fun e _ => ⟨Heap.pad_agree hk n _, Heap.pad_agree hk n _⟩
  have hfault := headersDone_ne_fault phase r io
  have hframe : ∀ ok r' io', headersDone phase r io = .ret (ok, r', io') → r'.toHeap = r.toHeap :=
    fun _ _ _ h => (headersDone_frame h).1
  rw [show headersDone phase { r with toHeap := r.toHeap.pad n } io = _ from hpad]
  rcases hd : headersDone phase r io with ⟨ok, r', io'⟩ | h | s
  · have hheap := hframe _ _ _ hd
    rw [hd] at hself
    simp only [Outcome.relocate, Outcome.ret.injEq, Prod.mk.injEq] at hself
    refine ⟨by rw [hheap]; exact hs, ?_⟩
    rw [Outcome.relocate, ← hheap, ← hself.2.2]
  · exact ⟨_, rfl⟩
  · exact ⟨fun h => hfault (by rw [hd, h]), rfl⟩

/-- A run whose buffer is neither switched nor left. -/
theorem httpProcessHead_pad {phase : Phase} (hr : r.HeadReady phase)
    (hlt : conf.clientHeaderSize < conf.largeClientHeaderSize)
    (hn : conf.clientHeaderSize + n = conf.largeClientHeaderSize)
    (hok : HeadUnswitched conf phase r io) :
    PadOutcome r.bufs.length conf.clientHeaderSize n (httpProcessHead conf phase r io)
      (httpProcessHead conf.large phase r io) := by
  obtain ⟨hfirst, hlines⟩ := hok
  have hp := httpProcessFirstLine_pad hr hlt hn hfirst
  unfold httpProcessHead
  rcases h₁ : httpProcessFirstLine conf phase r io with ⟨ok, r₁, io₁⟩ | h | s
  case wait =>
    rw [h₁] at hp
    obtain ⟨h', hp⟩ := hp
    rw [hp]
    exact ⟨h', rfl⟩
  case stop =>
    rw [h₁] at hp
    rw [hp.2]
    exact ⟨hp.1, rfl⟩
  rw [h₁] at hp
  obtain ⟨hs, hp⟩ := hp
  rw [hp]
  cases ok with
  | false => exact ⟨hs, rfl⟩
  | true =>
  simp only [Outcome.bind, if_true, httpProcessHeaderLine, httpHeaderLoop,
    HttpRequest.headerLineReady_toHeap]
  by_cases hready : r₁.headerLineReady phase = true
  case neg =>
    simp only [hready, Bool.not_false, if_true]
    exact ⟨by simp, rfl⟩
  simp only [hready, Bool.not_true, Bool.false_eq_true, if_false]
  have hsize := conf.largeClientHeaderSize_lt
  -- the loop over the header lines
  have hown : r₁.headerBuf = r.bufs.length := hs.own
  have hloop := @processLines_pad _ conf conf.large conf.clientHeaderSize n
    { r₁ with state := .headerLine } io₁ (httpParseHeaderLine httpHeaderSet) (·.headers phase)
    (·.setHeaders phase) (httpParseHeaderLine_padsAlike _) (fun r h => r.headers_toHeap h phase)
    (fun r h x => by cases phase <;> rfl) (hown ▸ hs) (by omega) hlt (by omega)
    (hlines r₁ io₁ h₁)
  simp only [hown] at hloop
  rcases h₂ : processLines conf (httpParseHeaderLine httpHeaderSet) (·.headers phase)
    (·.setHeaders phase) { r₁ with state := .headerLine } io₁ with ⟨ok, r₂, io₂⟩ | h | s
  case wait =>
    rw [h₂] at hloop
    obtain ⟨h', hloop⟩ := hloop
    rw [hloop]
    exact ⟨h', rfl⟩
  case stop =>
    rw [h₂] at hloop
    rw [hloop.2]
    exact ⟨hloop.1, rfl⟩
  rw [h₂] at hloop
  obtain ⟨hs₂, hloop⟩ := hloop
  rw [hloop]
  cases ok with
  | false => exact ⟨hs₂, rfl⟩
  | true => exact headersDone_pad hs₂

end Alike

/-- Zero bytes behind the header buffer are not seen. -/
theorem PadOutcome.sameEnd {phase : Phase} {k cap n : Nat}
    {x y : Outcome (Bool × HttpRequest × Io)} (h : PadOutcome k cap n x y) : SameEnd phase x y := by
  rcases x with ⟨ok, r, io⟩ | h' | s
  case wait =>
    obtain ⟨h₂, rfl⟩ := h
    trivial
  case stop =>
    obtain ⟨hs, rfl⟩ := h
    exact ⟨rfl, hs⟩
  obtain ⟨hs, rfl⟩ := h
  have hk : r.toHeap.headerBuf < r.toHeap.bufs.length := hs.own ▸ hs.valid
  have htext : (r.toHeap.pad n).text = r.toHeap.text := by
    funext s
    have := Heap.pad_agree hk n s.data
    simp only [Heap.text, show (r.toHeap.pad n).cstr s.data = r.toHeap.cstr s.data from this]
  refine ⟨?_, rfl⟩
  simp only [HttpRequest.headView, HttpRequest.headers_toHeap, htext, Heap.pad_headerBuf,
    Heap.pad_buf rfl hk]

/-! ## A head that is switched -/

section Switched

variable {σ : Type} {conf : Conf} {parse : Parse σ} {k : Nat}

/-- The loop goes on as it was, or with another buffer in the request; then its own, the old
    one, has no room. -/
theorem makeRoom_inl {w w₂ : Waiting σ} (hown : w.heap.headerBuf = k)
    (hk : k < w.heap.bufs.length) (h : makeRoom conf k w = .inl w₂) :
    w₂ = w ∨ w₂.heap.headerBuf ≠ w.heap.headerBuf ∧
      ¬ (w₂.heap.buf k).last < (w₂.heap.buf k).end_ := by
  unfold makeRoom at h
  split at h
  case isFalse => exact .inl (Sum.inl.inj h).symm
  next hfull =>
  split at h
  · cases h
  next h₂ halloc =>
  cases h
  subst hown
  simp only [httpAllocLargeClientHeaderBuf] at halloc
  split at halloc
  · cases halloc
  obtain rfl := Option.some.inj halloc
  refine .inr ⟨?_, ?_⟩
  · -- the new buffer is none of the old ones
    rw [Heap.setBuf_headerBuf, Heap.newHeaderBuf_headerBuf]
    omega
  · -- `last` was the end; it is moved further, and the end back
    rw [Heap.buf_setBuf (by simp [Heap.newHeaderBuf]; omega)]
    dsimp only
    omega

/-- Where the parser is called, what a good switch is. -/
def CallSwitchesWell (conf : Conf) (parse : Parse σ) (k : Nat) (w₀ : Waiting σ) : Prop :=
  ∀ x h w₂, parse w₀.x w₀.heap = some (.again, x, h) →
    makeRoom conf k ⟨x, h, w₀.errno⟩ = .inl w₂ → w₂.heap.headerBuf ≠ h.headerBuf →
    RoomFor (h.buf k) (w₂.heap.buf k)

/-- Good switches only are no switches. -/
theorem settle_own (hparse : PadsAlike parse k) {w₀ w' : Waiting σ} (hown : w₀.heap.headerBuf = k)
    (hk : k < w₀.heap.bufs.length) (hwell : CallSwitchesWell conf parse k w₀)
    (h : settle conf parse k w₀ = .inl w') :
    w'.heap.headerBuf = k ∧ k < w'.heap.bufs.length := by
  unfold settle at h
  split at h
  case h_4 x h₁ hp =>
    obtain ⟨⟨m, p, rfl⟩, -⟩ := hparse _ _ _ _ _ hk hp
    have hk' : k < (w₀.heap.setBuf k { w₀.heap.buf k with mem := m, pos := p }).bufs.length := by
      simpa using hk
    have hroom := @makeRoom_inl _ _ _ ⟨x, w₀.heap.setBuf k _, w₀.errno⟩ _ hown hk' h
    rcases hroom with rfl | ⟨hne, hfull⟩
    · exact ⟨hown, hk'⟩
    · exact absurd (hwell _ _ _ hp h hne).room hfull
  all_goals cases h

end Switched

section Loop

variable {σ : Type} {conf : Conf} {parse : Nat → Parse σ} {get : HttpRequest → σ}
  {r : HttpRequest} {io : Io}

theorem loopOn_own (hparse : PadsAlike (parse r.headerBuf) r.headerBuf)
    (hk : r.headerBuf < r.bufs.length) (hwell : LoopSwitchesWell conf parse get r io)
    {es' : List RecvEvent} (hes : es' <+: io.recvs) {w : Waiting σ}
    (h : loopOn conf parse get r io es' = .inl w) :
    w.heap.headerBuf = r.headerBuf ∧ r.headerBuf < w.heap.bufs.length := by
  -- by the events, of which the last one is the one the loop has gone on with
  induction es' using List.reverseRecOn generalizing w with
  | nil =>
      simp only [loopOn, recvLoop, Feed.feed_nil] at h
      exact settle_own hparse rfl hk (fun x h w₂ => hwell _ x h w₂ (.inl rfl)) h
  | append_singleton es' e ih =>
      have hes' : es' <+: io.recvs := (List.prefix_append es' [e]).trans hes
      simp only [loopOn, recvLoop, Feed.feed_append] at h
      rcases hl : Feed.feed (onRecv conf (parse r.headerBuf) r.headerBuf)
        (settle conf (parse r.headerBuf) r.headerBuf ⟨get r, r.toHeap, io.errno⟩) es'
        with ⟨w₀ | end₀, rest⟩
      case inr =>
        rw [hl] at h
        cases h
      have hw₀ : loopOn conf parse get r io es' = .inl w₀ := by rw [loopOn, recvLoop, hl]
      obtain ⟨hown₀, hk₀⟩ := ih hes' hw₀
      simp only [hl, Feed.feed_cons, Feed.feed_nil] at h
      cases e with
      | error e =>
          simp only [onRecv] at h
          split at h
          · cases h
            exact ⟨hown₀, hk₀⟩
          · cases h
      | data bs =>
          simp only [onRecv] at h
          by_cases hbs : bs = []
          · rw [if_pos hbs] at h
            split at h
            · cases h
              exact ⟨hown₀, hk₀⟩
            · cases h
          rw [if_neg hbs] at h
          split at h
          · cases h
          next b hb =>
          have hown' : (w₀.heap.setBuf r.headerBuf b).headerBuf = r.headerBuf := hown₀
          have hk' : r.headerBuf < (w₀.heap.setBuf r.headerBuf b).bufs.length := by
            simpa using hk₀
          refine @settle_own _ conf _ _ hparse { w₀ with heap := w₀.heap.setBuf r.headerBuf b } _
            hown' hk' (fun x h w₂ => ?_) h
          exact hwell _ x h w₂ (.inr ⟨es', bs, w₀, b, hbs, hes, hw₀, hb, rfl⟩)

/-- In a loop that switches well and does not stop, nothing is switched. -/
theorem LoopSwitchesWell.unswitched (hwell : LoopSwitchesWell conf parse get r io)
    (hparse : PadsAlike (parse r.headerBuf) r.headerBuf) (hk : r.headerBuf < r.bufs.length)
    (hstop : ∀ s, loopOn conf parse get r io io.recvs = .inr (.stop s) → s ≠ .fault ∧ s ≠ .misfit) :
    LoopUnswitched conf parse get r io := by
  intro es' hes
  rcases hl : loopOn conf parse get r io es' with w | ⟨e, x, h, errno⟩ | s
  · exact (loopOn_own hparse hk hwell hes hl).1
  · trivial
  · -- a loop that has stopped is not changed by further events
    apply hstop
    obtain ⟨rest, hrest⟩ := hes
    rw [← hrest, loopOn, recvLoop, Feed.feed_append]
    rw [loopOn, recvLoop] at hl
    rcases hf : Feed.feed (onRecv conf (parse r.headerBuf) r.headerBuf)
      (settle conf (parse r.headerBuf) r.headerBuf ⟨get r, r.toHeap, io.errno⟩) es' with ⟨a, left⟩
    rw [hf] at hl
    obtain rfl : a = .inr (.stop s) := hl
    rfl

/-- The buffer of the loop stays where it is. -/
theorem loopOn_valid (hparse : PadsAlike (parse r.headerBuf) r.headerBuf)
    (hk : r.headerBuf < r.bufs.length) {es' : List RecvEvent} {w : Waiting σ}
    (h : loopOn conf parse get r io es' = .inl w) : r.headerBuf < w.heap.bufs.length := by
  -- a parser keeps the list of the buffers, a switch adds one to it
  have hsettle : ∀ w : Waiting σ, r.headerBuf < w.heap.bufs.length →
      Sum.elim (fun w => r.headerBuf < w.heap.bufs.length) (fun _ => True)
        (settle conf (parse r.headerBuf) r.headerBuf w) := by
    intro w hw
    unfold settle
    split
    case h_4 x h hp =>
      obtain ⟨⟨m, p, rfl⟩, -⟩ := hparse _ _ _ _ _ hw hp
      simp only [makeRoom]
      split
      · split
        · trivial
        next h₂ halloc =>
        simp only [httpAllocLargeClientHeaderBuf] at halloc
        split at halloc
        · cases halloc
        obtain rfl := Option.some.inj halloc
        simp [Heap.newHeaderBuf]
        omega
      · simpa using hw
    all_goals trivial
  have hfeed := Feed.feed_invariant (onRecv conf (parse r.headerBuf) r.headerBuf)
    (P := fun w => r.headerBuf < w.heap.bufs.length) (Q := fun _ => True) (fun w e hw => by
      cases e with
      | error e =>
          simp only [onRecv]
          split
          · exact hw
          · trivial
      | data bs =>
          simp only [onRecv]
          split
          · split
            · exact hw
            · trivial
          · split
            · trivial
            · exact hsettle _ (by simpa using hw))
    (hsettle ⟨get r, r.toHeap, io.errno⟩ hk) es'
  rw [loopOn, recvLoop] at h
  rw [h] at hfeed
  exact hfeed

/-- The loop goes on with what a call of the parser comes to. -/
theorem Called.loopOn {w₀ : Waiting σ} (h : Called conf parse get r io w₀) :
    ∃ es', es' <+: io.recvs ∧
      XwpServer.loopOn conf parse get r io es' = settle conf (parse r.headerBuf) r.headerBuf w₀ := by
  rcases h with rfl | ⟨es', bs, w, b, hbs, hes, hw, hb, rfl⟩
  · exact ⟨[], List.nil_prefix, by rw [XwpServer.loopOn, recvLoop, Feed.feed_nil]⟩
  · refine ⟨_, hes, ?_⟩
    rw [XwpServer.loopOn, recvLoop] at hw ⊢
    rw [Feed.feed_append]
    rcases hf : Feed.feed (onRecv conf (parse r.headerBuf) r.headerBuf)
      (settle conf (parse r.headerBuf) r.headerBuf ⟨get r, r.toHeap, io.errno⟩) es' with ⟨a, left⟩
    rw [hf] at hw
    obtain rfl : a = .inl w := hw
    simp only [Feed.feed_cons, Feed.feed_nil, onRecv, if_neg hbs, hb]

/-- A loop that never switches has no switch that could be bad. -/
theorem LoopUnswitched.switchesWell (hok : LoopUnswitched conf parse get r io)
    (hparse : PadsAlike (parse r.headerBuf) r.headerBuf) (hk : r.headerBuf < r.bufs.length) :
    LoopSwitchesWell conf parse get r io := by
  intro w₀ x h w₂ hcall hp hroom hne
  exfalso
  -- the header buffer is the loop's in front of the call and behind it
  have hw₀ : w₀.heap.headerBuf = r.headerBuf ∧ r.headerBuf < w₀.heap.bufs.length := by
    rcases hcall with rfl | ⟨es', bs, w, b, -, hes, hw, -, rfl⟩
    · exact ⟨rfl, hk⟩
    · have hun := hok es' ((List.prefix_append _ _).trans hes)
      rw [hw] at hun
      exact ⟨hun, by simpa using loopOn_valid hparse hk hw⟩
  obtain ⟨es', hes, hloop⟩ := hcall.loopOn
  have hun := hok es' hes
  rw [hloop, settle, hp] at hun
  simp only [hroom] at hun
  obtain ⟨⟨m, p, rfl⟩, -⟩ := hparse _ _ _ _ _ hw₀.2 hp
  exact hne (hun.trans hw₀.1.symm)

theorem processLines_stop {put : HttpRequest → σ → HttpRequest} {s : Stop}
    (h : loopOn conf parse get r io io.recvs = .inr (.stop s)) :
    processLines conf parse get put r io = .stop s := by
  rw [loopOn] at h
  simp only [processLines]
  rcases hl : recvLoop conf (parse r.headerBuf) r.headerBuf ⟨get r, r.toHeap, io.errno⟩ io.recvs
    with ⟨a, rest⟩
  rw [hl] at h
  obtain rfl : a = .inr (.stop s) := h
  rfl

end Loop

/-! ## The whole head -/

theorem httpProcessFirstLine_ready {conf : Conf} {phase : Phase} {r r₁ : HttpRequest} {io io₁ : Io}
    {ok : Bool} (h : httpProcessFirstLine conf phase r io = .ret (ok, r₁, io₁)) :
    r₁.headerLineReady phase = true := by
  -- the loop changes the record, the heap and the status, and not the state
  have hfinish : ∀ {σ : Type} {parse : Nat → Parse σ} {get : HttpRequest → σ}
      {put : HttpRequest → σ → HttpRequest} {q : HttpRequest},
      (∀ x, (put q x).headerLineReady phase = true) →
      processLines conf parse get put q io = .ret (ok, r₁, io₁) →
      r₁.headerLineReady phase = true := by
    intro σ parse get put q hput hret
    simp only [processLines] at hret
    rcases hl : recvLoop conf (parse q.headerBuf) q.headerBuf ⟨get q, q.toHeap, io.errno⟩ io.recvs
      with ⟨w | ⟨e, x, h, errno⟩ | s, rest⟩ <;> rw [hl] at hret
    · cases hret
    · simp only [finishLines, Outcome.ret.injEq, Prod.mk.injEq] at hret
      obtain ⟨-, rfl, -⟩ := hret
      have := hput x
      cases phase <;> exact this
    · cases hret
  cases phase with
  | request =>
      simp only [httpProcessFirstLine, httpProcessRequestLine] at h
      split at h
      · cases h
      · exact hfinish (fun _ => rfl) h
  | response =>
      simp only [httpProcessFirstLine, httpProcessStatusLine] at h
      split at h
      · cases h
      · exact hfinish (fun _ => rfl) h

theorem firstRequest_valid (conf : Conf) (phase : Phase) (r : HttpRequest) :
    (firstRequest conf phase r).headerBuf < (firstRequest conf phase r).bufs.length := by
  show (httpAllocClientHeaderBuf conf r.toHeap).headerBuf
    < (httpAllocClientHeaderBuf conf r.toHeap).bufs.length
  rw [httpAllocClientHeaderBuf_eq]
  simp [Heap.newHeaderBuf]

/-- The first line of a head that switches well and does not stop. -/
theorem firstLoop_unswitched {conf : Conf} {phase : Phase} {r : HttpRequest} {io : Io}
    (hr : r.HeadReady phase)
    (hstop : ∀ s, httpProcessFirstLine conf phase r io = .stop s → s ≠ .fault ∧ s ≠ .misfit)
    (hwell : FirstLoop (fun _ => LoopSwitchesWell conf) conf phase r io) :
    FirstLoop (fun _ => LoopUnswitched conf) conf phase r io := by
  have hk := firstRequest_valid conf phase r
  cases phase with
  | request =>
      have hstate : ¬ r.state ≠ .none := fun h => h hr.1
      refine LoopSwitchesWell.unswitched hwell (httpParseRequestLine_padsAlike _) hk fun s hs => ?_
      apply hstop
      rw [httpProcessFirstLine, httpProcessRequestLine, if_neg hstate]
      exact processLines_stop hs
  | response =>
      have hstate : ¬ r.state ≠ .contentBody := fun h => h hr.1
      refine LoopSwitchesWell.unswitched hwell (httpParseStatusLine_padsAlike _) hk fun s hs => ?_
      apply hstop
      rw [httpProcessFirstLine, httpProcessStatusLine, if_neg hstate]
      exact processLines_stop hs

/-- A head that switches well and does not stop is one that does not switch. -/
theorem headUnswitched_of_well {conf : Conf} {phase : Phase} {r : HttpRequest} {io : Io}
    (hr : r.HeadReady phase) (hlt : conf.clientHeaderSize < conf.largeClientHeaderSize)
    (hstop : ∀ s, httpProcessHead conf phase r io = .stop s → s ≠ .fault ∧ s ≠ .misfit)
    (hwell : EachLoop (fun _ => LoopSwitchesWell conf) conf phase r io) :
    HeadUnswitched conf phase r io := by
  have hfirst := firstLoop_unswitched hr (fun s hs => hstop s (by rw [httpProcessHead, hs]; rfl))
    hwell.1
  refine ⟨hfirst, fun r₁ io₁ h₁ => ?_⟩
  obtain ⟨n, hn⟩ := Nat.exists_eq_add_of_lt hlt
  have hpad := httpProcessFirstLine_pad hr hlt (n := n + 1) (by omega) hfirst
  rw [h₁] at hpad
  have hs : r₁.toHeap.Small r.bufs.length conf.clientHeaderSize := hpad.1
  have hk : r₁.headerBuf < r₁.bufs.length := hs.own ▸ hs.valid
  refine LoopSwitchesWell.unswitched (hwell.2 r₁ io₁ h₁) (httpParseHeaderLine_padsAlike _) hk
    fun s hl => ?_
  apply hstop
  have hready := httpProcessFirstLine_ready h₁
  have hlines := @processLines_stop _ _ _ _ _ _ (·.setHeaders phase) _ hl
  simp only [httpProcessHead, h₁, Outcome.bind, if_true, httpProcessHeaderLine, httpHeaderLoop,
    hready, Bool.not_true, Bool.false_eq_true, if_false, hlines]

theorem SameEnd.ne_fault {phase : Phase} {x y : Outcome (Bool × HttpRequest × Io)}
    (h : SameEnd phase x y) : x ≠ .stop .fault := by
  rintro rfl
  rcases y with y | y | y
  · exact h
  · exact h
  · exact h.2 rfl

/-- A head that grows invisibly is not left. -/
theorem GrowsInvisibly.ne_fault {conf : Conf} {phase : Phase} {r : HttpRequest} {io : Io}
    (h : GrowsInvisibly conf phase r io) : httpProcessHead conf phase r io ≠ .stop .fault :=
  h.alike.ne_fault

/-- A head that never switches has no switch that could be bad. -/
theorem HeadUnswitched.switchesWell {conf : Conf} {phase : Phase} {r : HttpRequest} {io : Io}
    (hr : r.HeadReady phase) (hlt : conf.clientHeaderSize < conf.largeClientHeaderSize)
    (hok : HeadUnswitched conf phase r io) :
    EachLoop (fun _ => LoopSwitchesWell conf) conf phase r io := by
  obtain ⟨hfirst, hlines⟩ := hok
  obtain ⟨n, hn⟩ := Nat.exists_eq_add_of_lt hlt
  have hpad := httpProcessFirstLine_pad hr hlt (n := n + 1) (by omega) hfirst
  constructor
  · have hk := firstRequest_valid conf phase r
    cases phase with
    | request => exact LoopUnswitched.switchesWell hfirst (httpParseRequestLine_padsAlike _) hk
    | response => exact LoopUnswitched.switchesWell hfirst (httpParseStatusLine_padsAlike _) hk
  · intro r₁ io₁ h₁
    rw [h₁] at hpad
    have hs : r₁.toHeap.Small r.bufs.length conf.clientHeaderSize := hpad.1
    have hk : r₁.headerBuf < r₁.bufs.length := hs.own ▸ hs.valid
    exact (hlines r₁ io₁ h₁).switchesWell (httpParseHeaderLine_padsAlike _) hk

/-- Growing the header buffer is invisible just in the runs that never need it. -/
theorem growing_iff {conf : Conf} {phase : Phase} {r : HttpRequest} {io : Io}
    (hr : r.HeadReady phase) (hlt : conf.clientHeaderSize < conf.largeClientHeaderSize)
    (hfit : httpProcessHead conf phase r io ≠ .stop .misfit) :
    GrowsInvisibly conf phase r io ↔ HeadUnswitched conf phase r io := by
  constructor
  · intro h
    refine headUnswitched_of_well hr hlt (fun s hs => ⟨fun hf => ?_, fun hm => ?_⟩) h.switches
    · exact h.ne_fault (by rw [hs, hf])
    · exact hfit (by rw [hs, hm])
  · intro hok
    obtain ⟨n, hn⟩ := Nat.exists_eq_add_of_lt hlt
    have hpad := httpProcessHead_pad hr hlt (n := n + 1) (by omega) hok
    exact ⟨hpad.sameEnd, hok.switchesWell hr hlt⟩

instance {σ : Type} (k : Nat) (y : Waiting σ ⊕ LoopEnd σ) : Decidable (Unswitched k y) :=
  match y with
  | .inl w => inferInstanceAs (Decidable (w.heap.headerBuf = k))
  | .inr (.exit ..) => inferInstanceAs (Decidable True)
  | .inr (.stop s) => inferInstanceAs (Decidable (s ≠ .fault ∧ s ≠ .misfit))

/-- A head that is received at once, into a buffer that is large enough. -/
theorem headUnswitched_example : HeadUnswitched exampleConf .request {}
    { recvs := [.data (bytes "GET / HTTP/1.1\na: b\n\n")] } := by
  refine ⟨fun es' hes => ?_, ?_⟩
  · rcases List.prefix_cons_iff.mp hes with rfl | ⟨t, rfl, ht⟩
    · decide
    · obtain rfl := List.prefix_nil.mp ht
      decide
  · intro r₁ io₁ h₁ es' hes
    -- the first line has taken all there is
    obtain ⟨r₂, io₂, h₂, hnil, hun⟩ : ∃ r₂ io₂, httpProcessFirstLine exampleConf .request {}
        { recvs := [.data (bytes "GET / HTTP/1.1\na: b\n\n")] } = .ret (true, r₂, io₂) ∧
          io₂.recvs = [] ∧ Unswitched r₂.headerBuf
            (loopOn exampleConf (httpParseHeaderLine httpHeaderSet) (·.headers .request)
              { r₂ with state := .headerLine } io₂ []) := ⟨_, _, rfl, rfl, by decide⟩
    rw [h₂] at h₁
    cases h₁
    rw [hnil] at hes
    obtain rfl := List.prefix_nil.mp hes
    exact hun

theorem growing_iff_example : GrowsInvisibly exampleConf .request {}
    { recvs := [.data (bytes "GET / HTTP/1.1\na: b\n\n")] } := by
  have hready : HttpRequest.HeadReady {} .request := ⟨rfl, rfl, rfl⟩
  exact (growing_iff hready (by decide) (by decide)).mpr headUnswitched_example

def smallConf : Conf := ⟨8, 64, 16, 64, by decide, exampleConf.clientHeaderSize_lt⟩

/-- A head in two pieces, the first of which fills a buffer of 8 bytes. -/
def twoPieces : List (List Byte) := [bytes "GET / HT", bytes "TP/1.1\na: b\n\n"]

/-- The second piece is received behind the end of the block. -/
theorem not_growsInvisibly :
    ¬ ∀ (conf : Conf) (phase : Phase) (r : HttpRequest) (ps : List (List Byte)),
      r.HeadReady phase → conf.clientHeaderSize < conf.largeClientHeaderSize →
      (∀ p ∈ ps, p ≠ []) → ps.flatten.length ≤ conf.largeClientHeaderSize →
      httpProcessHead conf phase r { recvs := ps.map .data } ≠ .stop .misfit →
      GrowsInvisibly conf phase r { recvs := ps.map .data } := by
  intro h
  have hready : HttpRequest.HeadReady {} .request := ⟨rfl, rfl, rfl⟩
  have hfault : httpProcessHead smallConf .request {} { recvs := twoPieces.map .data }
      = .stop .fault := by
    decide
  exact (h smallConf .request {} twoPieces hready (by decide) (by decide) (by decide)
    (by rw [hfault]; nofun)).ne_fault hfault

end XwpServer
