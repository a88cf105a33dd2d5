/-
  XwpServer.HeadReading

  The reading of a head, step by step.

  The receive loop of the first line and the one of the header lines take turns of a
  parser call and a `recv`, on one header buffer until it is switched for a larger one.
  The positions of the buffer keep their order and no byte outside it is touched, in
  every run in which no word or name that is looked for ends at the last zero byte
  (`headReading_inside`).
-/

import XwpServer.Accepted
import XwpServer.HeadBounds
import XwpServer.Lib.Transition

namespace XwpServer

open CString Scan Transition

/-! ## States -/

/-- The loop at work. -/
inductive HeadLoop where
  | firstLine | headerLines
  deriving DecidableEq, Repr

/-- What comes next. -/
inductive HeadStage where
  | parse | receive | finished
  /-- A byte outside the block has been touched. -/
  | outside
  deriving DecidableEq, Repr

structure HeadReading where
  loop : HeadLoop
  stage : HeadStage
  req : HttpRequest

/-- A parser call, or a `recv` that delivers bytes. -/
inductive HeadMove where
  | parse
  | recv (bs : List Byte)
  deriving DecidableEq, Repr

/-- The parser call of a loop, on the request it works for. -/
def parserCall (phase : Phase) (loop : HeadLoop) (r : HttpRequest) :
    Option (ParseRet × HttpRequest) :=
  match loop, phase with
  | .firstLine, .request =>
    (httpParseRequestLine r.headerBuf r.toRequestLine r.toHeap).map fun y =>
      (y.1, { r with toRequestLine := y.2.1, toHeap := y.2.2 })
  | .firstLine, .response =>
    (httpParseStatusLine r.headerBuf r.status r.toHeap).map fun y =>
      (y.1, { r with status := y.2.1, toHeap := y.2.2 })
  | .headerLines, phase =>
    (httpParseHeaderLine httpHeaderSet r.headerBuf (r.headers phase) r.toHeap).map fun y =>
      (y.1, { r.setHeaders phase y.2.1 with toHeap := y.2.2 })

namespace HeadReading

def buf (s : HeadReading) : Buf := s.req.buf s.req.headerBuf

/-- What follows a parser call: `HTTP_PARSE_DONE` of the first line starts the header
    loop. -/
def onParse (loop : HeadLoop) : Option (ParseRet × HttpRequest) → HeadReading → HeadReading
  | none, s => { s with stage := .outside }
  | some (.again, r), _ => ⟨loop, .receive, r⟩
  | some (.fail, r), _ => ⟨loop, .finished, r⟩
  | some (.done, r), _ =>
    match loop with
    | .firstLine => ⟨.headerLines, .parse, r⟩
    | .headerLines => ⟨.headerLines, .finished, r⟩

/-- A full buffer is switched for another one, which ends the reading into this one. -/
def step (phase : Phase) (s : HeadReading) : HeadMove → Option HeadReading
  | .parse =>
    if s.stage = .parse then some (onParse s.loop (parserCall phase s.loop s.req) s) else none
  | .recv bs =>
    if s.stage = .receive ∧ s.buf.last ≠ s.buf.end_ ∧ bs ≠ [] then
      match s.buf.recv bs with
      | .ok b =>
        some { s with stage := .parse,
                      req := { s.req with toHeap := s.req.setBuf s.req.headerBuf b } }
      | .error .fault => some { s with stage := .outside }
      | .error _ => none
    else none

/-- With a new header buffer, before the first parser call. -/
def start (conf : Conf) (r : HttpRequest) : HeadReading :=
  ⟨.firstLine, .parse, { r with toHeap := httpAllocClientHeaderBuf conf r.toHeap }⟩

/-- No byte outside `start` to `end` has been touched, and the positions are in order. -/
structure Inside (s : HeadReading) : Prop where
  touched : s.stage ≠ .outside
  block : s.buf.mem.length = s.buf.end_ + 1
  pos_le : s.buf.pos ≤ s.buf.last
  last_le : s.buf.last ≤ s.buf.end_

/-- What a parser call looks for is ahead: the words of a first line, but for the last one,
    do not end at the sentinel, and no header line runs on behind the received bytes. -/
def Ahead (phase : Phase) (s : HeadReading) : HeadMove → Prop
  | .parse =>
    match s.loop with
    | .firstLine => ¬ WordBeyond (phase.words - 1) s.buf (s.buf.unread.dropWhile isspace)
    | .headerLines => ColonsAhead s.buf.unread
  | .recv _ => True

end HeadReading

/-! ## The parsers on a buffer in order -/

/-- A header buffer with its positions in order and zero bytes behind what it has received. -/
structure Buf.Tidy (b : Buf) : Prop where
  block : b.mem.length = b.end_ + 1
  pos_le : b.pos ≤ b.last
  last_le : b.last ≤ b.end_
  behind : b.mem.drop b.last = zeros (b.end_ + 1 - b.last)
  small : b.end_ < 2 ^ 63

section Parsers

variable {σ : Type} {h : Heap} {k : Nat} {b : Buf}

/-- A buffer in order is its parsed bytes, the bytes to parse, and zeros. -/
theorem Buf.Tidy.mem_eq (hb : b.Tidy) :
    b.mem = b.mem.take b.pos ++ (b.unread ++ zeros (b.end_ - b.last + 1)) := by
  have hz : b.mem.drop b.last = zeros (b.end_ - b.last + 1) := by
    rw [hb.behind]
    congr 1
    have := hb.last_le
    omega
  have hlast : b.last = b.pos + (b.last - b.pos) := by
    have := hb.pos_le
    omega
  have hrest : b.mem.drop b.pos = b.unread ++ b.mem.drop b.last := by
    rw [Buf.unread]
    conv_rhs => rw [hlast, ← List.drop_drop]
    rw [Nat.add_sub_cancel_left]
    exact (List.take_append_drop _ _).symm
  conv_lhs => rw [← List.take_append_drop b.pos b.mem, hrest, hz]

theorem Buf.Tidy.take_length (hb : b.Tidy) : (b.mem.take b.pos).length = b.pos := by
  have := hb.block
  have := hb.pos_le
  have := hb.last_le
  rw [List.length_take]
  omega

theorem Buf.Tidy.unread_length (hb : b.Tidy) : b.pos + b.unread.length = b.last := by
  have := hb.block
  have := hb.pos_le
  have := hb.last_le
  rw [Buf.unread, List.length_take, List.length_drop]
  omega

/-- A parser call that stays inside the buffer. -/
def CallInside (parse : Parse σ) (k : Nat) (x : σ) (h : Heap) : Prop :=
  ∃ ret x' m p, parse x h = some (ret, x', h.setBuf k { h.buf k with mem := m, pos := p }) ∧
    Zeroed (h.buf k).mem m ∧ p ≤ (h.buf k).last

theorem parseFirstLine_inside
    {step : σ → List Byte → Nat → Option (ParseRet × σ × List Byte × Nat)} {x : σ} {n : Nat}
    (hb : (h.buf k).Tidy)
    (hstep : ∀ a v j, (LF ∈ v.takeWhile (· != NUL) → j = 0 → ¬ WordsRunOut n v) →
      ∃ ret x' m' p, step x (a ++ (v ++ zeros (j + 1))) a.length = some (ret, x', m', p) ∧
        Zeroed (a ++ (v ++ zeros (j + 1))) m' ∧ p ≤ (a ++ v).length)
    (hahead : ¬ WordBeyond n (h.buf k) ((h.buf k).unread.dropWhile isspace)) :
    CallInside (parseFirstLine step k) k x h := by
  generalize hbuf : h.buf k = b at hb hahead
  have hmem := hb.mem_eq
  have htake := hb.take_length
  have hunread := hb.unread_length
  generalize b.mem.take b.pos = a at hmem htake
  obtain ⟨ws, v, hv, hws, hhead⟩ := exists_span isspace b.unread
  have hdrop : b.unread.dropWhile isspace = v := by
    rw [hv, List.dropWhile_append_of_pos hws]
    cases v with
    | nil => rfl
    | cons c v => exact List.dropWhile_cons_of_neg (by simp [hhead c v rfl])
  rw [hdrop] at hahead
  rw [hv] at hmem hunread
  -- the white space in front of the line
  have hskip : skipSpace b.mem b.pos b.last = some (a ++ ws).length := by
    rw [hmem, ← htake, List.append_assoc]
    simp only [List.length_append] at hunread
    cases v with
    | nil =>
        exact skipSpace_append hws (by simp only [List.length_append]; omega) (.inl rfl)
    | cons c v =>
        exact skipSpace_append hws (by simp only [List.length_append]; omega)
          (.inl (hhead c v rfl))
  obtain ⟨ret, x', m', p, hs, hz, hp⟩ := hstep (a ++ ws) v (b.end_ - b.last) (by
    intro hlf hj hout
    have := hb.last_le
    exact hahead ⟨hlf, by omega, hout⟩)
  have hmem' : b.mem = a ++ ws ++ (v ++ zeros (b.end_ - b.last + 1)) := by
    rw [hmem]
    simp
  rw [← hmem'] at hs hz
  refine ⟨ret, x', m', p, ?_, hbuf ▸ hz, ?_⟩
  · simp only [parseFirstLine, hbuf, Option.bind_eq_bind, hskip, Option.bind_some, hs,
      Option.pure_def]
  · rw [hbuf]
    simp only [List.length_append] at hp hunread
    omega

theorem httpParseHeaderLine_inside {set : HeaderSink σ} {x : σ} (hk : k < h.bufs.length)
    (hb : (h.buf k).Tidy) (hahead : ColonsAhead (h.buf k).unread) :
    CallInside (httpParseHeaderLine set k) k x h := by
  have hlen := hb.unread_length
  have htake := hb.take_length
  have hsmall := hb.small
  have hle := hb.last_le
  obtain ⟨ret, p, x', m, hlines, hz, hp⟩ := @headerLines_inside σ set k
    ((h.buf k).last - (h.buf k).pos) x h _ _ _ hk hb.mem_eq
    (by rw [List.length_append, htake]; omega) hahead
  rw [List.length_append, htake, hlen] at hlines hp
  refine ⟨ret, x', m, p, ?_, hz, hp⟩
  simp only [httpParseHeaderLine, hlines, Option.bind_eq_bind, Option.bind_some, Option.pure_def,
    Heap.buf_setBuf hk, Heap.setBuf_setBuf]

theorem Buf.Tidy.parsed (hb : b.Tidy) {m : List Byte} {p : Nat} (hz : Zeroed b.mem m)
    (hp : p ≤ b.last) : Buf.Tidy { b with mem := m, pos := p } :=
  ⟨hz.length_eq.trans hb.block, hp, hb.last_le, hz.drop hb.behind, hb.small⟩

/-- `recv` writes behind what was received, and no further than to the sentinel. -/
theorem Buf.Tidy.recv (hb : b.Tidy) {bs : List Byte} {r : Except Stop Buf}
    (hr : b.recv bs = r) : (r = .error .misfit) ∨ ∃ b', r = .ok b' ∧ b'.Tidy := by
  subst hr
  unfold Buf.recv
  have hblock := hb.block
  have hpos := hb.pos_le
  have hlast := hb.last_le
  have hsmall := hb.small
  have hdiff : ptrDiff b.end_ b.last = b.end_ - b.last := ptrDiff_of_le hlast (by omega)
  rw [hdiff]
  -- `recv` is given the space in front of the sentinel, and never returns more
  split
  · exact .inl rfl
  · next hfit =>
    right
    rw [if_neg (by omega)]
    refine ⟨_, rfl, ?_, ?_, ?_, ?_, hsmall⟩
    · show (writeAt b.mem b.last bs).length = b.end_ + 1
      simp only [writeAt, List.length_append, List.length_take, List.length_drop]
      omega
    · show b.pos ≤ b.last + bs.length
      omega
    · show b.last + bs.length ≤ b.end_
      omega
    · show (writeAt b.mem b.last bs).drop (b.last + bs.length) = zeros (b.end_ + 1 - (b.last + bs.length))
      have hlen : (b.mem.take b.last ++ bs).length = b.last + bs.length := by
        rw [List.length_append, List.length_take]
        omega
      rw [writeAt, ← hlen, List.drop_left, hlen, ← List.drop_drop, hb.behind, List.drop_replicate]
      congr 1
      omega

end Parsers

/-! ## Runs -/

namespace HeadReading

/-- What the steps of a run keep. -/
structure Kept (s : HeadReading) : Prop where
  touched : s.stage ≠ .outside
  valid : s.req.headerBuf < s.req.bufs.length
  tidy : s.buf.Tidy

theorem Kept.inside {s : HeadReading} (h : s.Kept) : s.Inside :=
  ⟨h.touched, h.tidy.block, h.tidy.pos_le, h.tidy.last_le⟩

theorem start_kept (conf : Conf) (r : HttpRequest) : (start conf r).Kept := by
  have hheap : (start conf r).req.toHeap
      = r.toHeap.newHeaderBuf (headBuf conf.clientHeaderSize [] [] 0) :=
    httpAllocClientHeaderBuf_eq conf r.toHeap
  have hbuf : (start conf r).buf = headBuf conf.clientHeaderSize [] [] 0 := by
    rw [buf, hheap]
    exact Heap.buf_newHeaderBuf _ _
  have hsize := conf.clientHeaderSize_lt
  constructor
  case touched => exact nofun
  case valid =>
    rw [hheap]
    simp [Heap.newHeaderBuf]
  case tidy =>
    rw [hbuf]
    constructor <;> simp [headBuf]
    omega

/-- The heap of a request whose header buffer has been parsed up to `p`. -/
def after (r : HttpRequest) (m : List Byte) (p : Nat) : Heap :=
  r.toHeap.setBuf r.headerBuf { r.toHeap.buf r.headerBuf with mem := m, pos := p }

/-- A parser call whose words and colons are ahead. -/
theorem parserCall_inside {phase : Phase} {s : HeadReading} (h : s.Kept)
    (hahead : s.Ahead phase .parse) :
    ∃ ret r m p, parserCall phase s.loop s.req = some (ret, r) ∧
      r.toHeap = s.req.setBuf s.req.headerBuf { s.buf with mem := m, pos := p } ∧
      Zeroed s.buf.mem m ∧ p ≤ s.buf.last := by
  -- one case for each of the three parsers
  obtain ⟨loop, stage, r⟩ := s
  cases loop with
  | headerLines =>
      obtain ⟨ret, x, m, p, hcall, hz, hp⟩ :=
        @httpParseHeaderLine_inside _ _ _ httpHeaderSet (r.headers phase) h.valid h.tidy hahead
      refine ⟨ret, { r.setHeaders phase x with toHeap := after r m p }, m, p, ?_, rfl, hz, hp⟩
      simp only [parserCall, hcall, Option.map_some, after]
  | firstLine =>
      cases phase with
      | request =>
          obtain ⟨ret, x, m, p, hcall, hz, hp⟩ := @parseFirstLine_inside _ _ _
            (requestLineStep r.headerBuf) r.toRequestLine _ h.tidy
            (fun a v j hout => requestLineStep_inside r.headerBuf r.toRequestLine hout) hahead
          refine ⟨ret, { r with toRequestLine := x, toHeap := after r m p }, m, p, ?_, rfl, hz, hp⟩
          simp only [parserCall, httpParseRequestLine, hcall, Option.map_some, after]
      | response =>
          obtain ⟨ret, x, m, p, hcall, hz, hp⟩ := @parseFirstLine_inside _ _ _
            statusLineStore r.status _ h.tidy (fun a v j hout => by
              obtain ⟨ret, x, m, p, hs, hz, hp⟩ := statusLineStep_inside hout
              exact ⟨ret, x.getD r.status, m, p, by simp only [statusLineStore, hs, Option.map_some],
                hz, hp⟩) hahead
          refine ⟨ret, { r with status := x, toHeap := after r m p }, m, p, ?_, rfl, hz, hp⟩
          simp only [parserCall, httpParseStatusLine, hcall, Option.map_some, after]

theorem step_kept {phase : Phase} {s s' : HeadReading} {m : HeadMove} (h : s.Kept)
    (hahead : s.Ahead phase m) (hstep : s.step phase m = some s') : s'.Kept := by
  cases m with
  | parse =>
      simp only [step] at hstep
      split at hstep
      case isFalse => cases hstep
      obtain ⟨ret, r, m, p, hcall, hheap, hz, hp⟩ := parserCall_inside h hahead
      rw [hcall, Option.some.injEq] at hstep
      -- the parser has changed the header buffer only
      have hvalid : r.headerBuf < r.bufs.length := by
        have hlen : r.bufs.length = s.req.bufs.length := by rw [hheap, Heap.setBuf_length]
        have hbuf : r.headerBuf = s.req.headerBuf := by rw [hheap, Heap.setBuf_headerBuf]
        rw [hlen, hbuf]
        exact h.valid
      have htidy : (r.buf r.headerBuf).Tidy := by
        rw [hheap, Heap.setBuf_headerBuf, Heap.buf_setBuf h.valid]
        exact h.tidy.parsed hz hp
      have hreq : s'.req = r ∧ s'.stage ≠ .outside := by
        rw [← hstep]
        cases ret with
        | again => exact ⟨rfl, nofun⟩
        | fail => exact ⟨rfl, nofun⟩
        | done =>
            cases hloop : s.loop with
            | firstLine => exact ⟨rfl, nofun⟩
            | headerLines => exact ⟨rfl, nofun⟩
      refine ⟨hreq.2, ?_, ?_⟩
      · rw [hreq.1]
        exact hvalid
      · rw [buf, hreq.1]
        exact htidy
  | recv bs =>
      simp only [step] at hstep
      split at hstep
      case isFalse => cases hstep
      rcases @Buf.Tidy.recv _ h.tidy bs _ rfl with hmisfit | ⟨b, hb, htidy⟩
      · rw [hmisfit] at hstep
        cases hstep
      · simp only [hb, Option.some.injEq] at hstep
        subst hstep
        refine ⟨nofun, by simpa using h.valid, ?_⟩
        show (Heap.buf (s.req.setBuf s.req.headerBuf b) s.req.headerBuf).Tidy
        rw [Heap.buf_setBuf h.valid]
        exact htidy

/-- The reading of a head stays inside the buffer, on every stream and every way it is cut,
    as long as what each parser call looks for is ahead. -/
theorem headReading_inside {conf : Conf} {phase : Phase} {r : HttpRequest} {s : HeadReading}
    (h : Reaches (step phase) (Ahead phase) (start conf r) s) : s.Inside := by
  apply Kept.inside
  exact h.invariant (fun _ _ _ hs hm hst => step_kept hs hm hst) (start_kept conf r)

/-- A request with one header, whose empty line arrives in a piece of its own. -/
theorem headReading_inside_host :
    ∃ s, Reaches (step .request) (Ahead .request) (start exampleConf {}) s ∧
      s.loop = .headerLines ∧ s.stage = .finished ∧ s.Inside := by
  let run := fun ms => exec (step .request) (start exampleConf {}) ms
  have h₁ : ((run [.parse]).map fun _ => ()) = some () := by decide
  have h₂ : ((run [.parse, .recv (bytes "GET / HTTP/1.1\nHost: a\n")]).map fun s =>
      (s.loop, s.buf.last, s.buf.end_)) = some (.firstLine, 23, 64) := by decide
  have h₃ : ((run [.parse, .recv (bytes "GET / HTTP/1.1\nHost: a\n"), .parse]).map fun s =>
      (s.loop, s.buf.unread)) = some (.headerLines, bytes "Host: a\n") := by decide
  have h₄ : ((run [.parse, .recv (bytes "GET / HTTP/1.1\nHost: a\n"), .parse, .parse]).map fun _ =>
      ()) = some () := by decide
  have h₅ : ((run [.parse, .recv (bytes "GET / HTTP/1.1\nHost: a\n"), .parse, .parse,
      .recv [LF]]).map fun s => (s.loop, s.buf.unread)) = some (.headerLines, [LF]) := by decide
  have h₆ : ((run [.parse, .recv (bytes "GET / HTTP/1.1\nHost: a\n"), .parse, .parse,
      .recv [LF], .parse]).map fun s => (s.loop, s.stage)) = some (.headerLines, .finished) := by
    decide
  obtain ⟨s₁, h₁, -⟩ := Option.map_eq_some_iff.mp h₁
  obtain ⟨s₂, h₂, hs₂⟩ := Option.map_eq_some_iff.mp h₂
  obtain ⟨s₃, h₃, hs₃⟩ := Option.map_eq_some_iff.mp h₃
  obtain ⟨s₄, h₄, -⟩ := Option.map_eq_some_iff.mp h₄
  obtain ⟨s₅, h₅, hs₅⟩ := Option.map_eq_some_iff.mp h₅
  obtain ⟨s₆, h₆, hs₆⟩ := Option.map_eq_some_iff.mp h₆
  simp only [Prod.mk.injEq] at hs₂ hs₃ hs₅ hs₆
  -- the buffer is not full, and the header has a colon
  have hempty : (start exampleConf {}).Ahead .request .parse := by
    rintro ⟨-, hfull, -⟩
    exact absurd hfull (by decide)
  have hline : s₂.Ahead .request .parse := by
    simp only [Ahead, hs₂.1]
    rintro ⟨-, hfull, -⟩
    omega
  have hhost : s₃.Ahead .request .parse := by
    have hsplit : splitLine (bytes "Host: a\n") = some (bytes "Host: a\n", []) := by decide
    obtain ⟨r, hr⟩ : ∃ r, headerStep (bytes "Host: a\n") 0 = some r :=
      Option.isSome_iff_exists.mp (by decide)
    simp only [Ahead, hs₃.1, hs₃.2]
    exact .line hsplit (hasColon_of_headerStep (.of_splitLine hsplit) hr) (.rest (by decide))
  have hblank : s₅.Ahead .request .parse := by
    have hsplit : splitLine [LF] = some ([LF], []) := by decide
    simp only [Ahead, hs₅.1, hs₅.2]
    exact .finish hsplit (.inl rfl)
  have hpiece : ∀ s bs, Ahead .request s (.recv bs) := fun _ _ => trivial
  have hst₁ : (start exampleConf {}).step .request .parse = some s₁ := by simpa [run, exec] using h₁
  have hr₂ : Reaches (step .request) (Ahead .request) (start exampleConf {}) s₂ :=
    (Reaches.tail .refl hempty hst₁).tail (hpiece _ _) (step_of_exec h₁ h₂)
  have hr₄ := (hr₂.tail hline (step_of_exec h₂ h₃)).tail hhost (step_of_exec h₃ h₄)
  have hreach := (hr₄.tail (hpiece _ _) (step_of_exec h₄ h₅)).tail hblank (step_of_exec h₅ h₆)
  exact ⟨s₆, hreach, hs₆.1, hs₆.2, headReading_inside hreach⟩

/-- A request line that is cut by a line feed, in a buffer of five bytes: the second word ends
    at the sentinel, and the third one is looked for behind it. -/
theorem headReading_outside :
    ¬ ∀ (conf : Conf) (phase : Phase) (r : HttpRequest) (s : HeadReading),
      Reaches (step phase) anyMove (start conf r) s → s.Inside := by
  intro hall
  have hrun : (exec (step .request) (start ⟨5, 64, 16, 64, by decide, by decide⟩ {})
      [.parse, .recv (bytes "GET\nx"), .parse]).map (·.stage) = some .outside := by decide
  obtain ⟨s, hs, hstage⟩ := Option.map_eq_some_iff.mp hrun
  exact (hall _ _ _ s (reaches_of_exec hs)).touched hstage

end HeadReading

end XwpServer
