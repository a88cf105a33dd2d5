/-
  XwpServer.RejectedLine

  Heads with a line that lacks a delimiter.

  `HeadSafe` describes the streams on which every line of the head either has its
  delimiters or lacks them in all that was received behind it, and on which a head that
  is complete gives the headers looked up behind it.  On such a stream a parser call that
  the machines of `HeadLines.lean` leave open rejects the line, for every part of the
  rest that has arrived with it.
-/

import XwpServer.ConsultedHeaders
import XwpServer.MissingDelim

namespace XwpServer

open CString Scan LineParser

/-! ## Streams without a misread line -/

/-- No header line of `u` is read beyond its end: each one is white space, has a colon of
    its own, or lacks one in all the bytes behind it, of which `z` are the buffer's. -/
inductive HeaderLinesSafe (z : List Byte) : List Byte → Prop
  | rest {u} (hline : splitLine u = none) : HeaderLinesSafe z u
  | finish {u l t} (hline : splitLine u = some (l, t)) (hblank : IsBlankLine l) :
      HeaderLinesSafe z u
  | line {u l t} (hline : splitLine u = some (l, t)) (hblank : ¬ IsBlankLine l)
      (hown : (∀ x ∈ l, isspace x = true) ∨ HasColon l) (hrest : HeaderLinesSafe z t) :
      HeaderLinesSafe z u
  | reject {u l t sp c v} (hline : splitLine u = some (l, t)) (hl : l = sp ++ c :: v)
      (hsp : ∀ x ∈ sp, isspace x = true) (hc : isspace c = false) (hown : ¬ HasColon l)
      (hlacks : LacksColon (c :: (v ++ (t ++ z)))) : HeaderLinesSafe z u

/-- The number of words the parser of a first line looks for. -/
def Phase.words : Phase → Nat
  | .request => 3
  | .response => 2

/-- The first line is accepted for the words it starts with. -/
def FirstLineAccepted : Phase → List Byte → Prop
  | .request, l => ∃ s₁ w₁ e₁ r₁ s₂ w₂ e₂ r₂ s₃ w₃ e₃ r₃, TokenAt isspace l s₁ w₁ e₁ r₁ ∧
      TokenAt isspace r₁ s₂ w₂ e₂ r₂ ∧ TokenAt isspace r₂ s₃ w₃ e₃ r₃ ∧
      (httpVersion w₃).isSome ∧ (httpMethod w₁ w₁.length).isSome ∧ UrlAccepted w₂
  | .response, l => ∃ s₁ w₁ e₁ r₁ s₂ w₂ e₂ r₂, TokenAt isspace l s₁ w₁ e₁ r₁ ∧
      TokenAt isspace r₁ s₂ w₂ e₂ r₂ ∧ HTTP_STATUS_START ≤ atoi w₂ ∧ atoi w₂ ≤ HTTP_STATUS_END

/-- No line of the head of the stream `s` is read beyond its end, and no header that is
    looked up behind an accepted head lacks its value. -/
inductive HeadSafe (phase : Phase) (z : List Byte) (s : List Byte) : Prop
  | rest {ws v} (hs : s = ws ++ v) (hws : ∀ x ∈ ws, isspace x = true)
      (hv : ∀ x ∈ v.head?, isspace x = false) (hline : splitLine v = none)
  | line {ws l t} (hs : s = ws ++ (l ++ t)) (hws : ∀ x ∈ ws, isspace x = true)
      (hv : ∀ x ∈ l.head?, isspace x = false) (hl : IsLine l) (hown : HasWords phase.words l)
      (hrest : FirstLineAccepted phase l → HeaderLinesSafe z t)
      (hvalues : FirstLineAccepted phase l → ValuesGiven phase t)
  | reject {ws l t} (hs : s = ws ++ (l ++ t)) (hws : ∀ x ∈ ws, isspace x = true)
      (hv : ∀ x ∈ l.head?, isspace x = false) (hl : IsLine l)
      (hown : ¬ HasWords phase.words l) (hlacks : LacksWords phase.words (l ++ (t ++ z)))

/-! ## Where the machines are stuck -/

section Stuck

variable {σ : Type}

theorem firstLineMachine_stuck
    {step : σ → List Byte → Nat → Option (ParseRet × σ × List Byte × Nat)} {shift : Nat → σ → σ}
    {s : HeadState σ} {ws l t : List Byte} (hws : ∀ c ∈ ws, isspace c = true)
    (hl : IsLine l) (hc : ∀ c ∈ l.head?, isspace c = false) (hnone : step s.x l 0 = none) :
    (firstLineMachine step shift).run s (ws ++ (l ++ t))
      = .stuck ⟨s.x, s.done ++ ws⟩ (l ++ t) := by
  have hsplit : (firstLineMachine step shift).split ⟨s.x, s.done ++ ws⟩ (l ++ t) = some (l, t) :=
    (splitFirst_of_head (hl.head_append hc t)).trans (hl.split t)
  rw [firstLineMachine_skip hws]
  exact Machine.run_of_stuck hsplit (by rw [firstLineMachine_step hl hc, hnone]; rfl)

/-- The header lines of a safe stream stop the machine at a line that lacks a colon only. -/
theorem headerMachine_stuck {set : HeaderSink σ} {h : Heap} {k : Nat} {z u : List Byte}
    (hsafe : HeaderLinesSafe z u) (hlen : u.length < 2 ^ 64) {s s' : HeadState σ} {u' : List Byte}
    (hrun : (headerMachine set h k).run s u = .stuck s' u') :
    ∃ l t sp c v, u' = l ++ t ∧ IsLine l ∧ l = sp ++ c :: v ∧ (∀ x ∈ sp, isspace x = true) ∧
      isspace c = false ∧ LacksColon (c :: (v ++ (t ++ z))) := by
  -- on the lines that are safe; the machine takes each of them up to the one that is rejected
  induction hsafe generalizing s with
  | @rest u hline =>
      rw [Machine.run_of_split_none (show (headerMachine set h k).split s u = none from hline)]
        at hrun
      cases hrun
  | @finish u l t hline hblank =>
      have hl := IsLine.of_splitLine hline
      have hdone : headerStep l 0 = some (.done l.length) := by
        rcases hblank with rfl | rfl <;> rfl
      rw [Machine.run_of_halt (r := ⟨.done, s.x, s.done ++ l, (s.done ++ l).length⟩)
        (show (headerMachine set h k).split s u = some (l, t) from hline)
        (by simp only [headerMachine, hdone])] at hrun
      cases hrun
  | @line u l t hline hblank hown hrest ih =>
      have hl := IsLine.of_splitLine hline
      have hut := splitLine_eq hline
      have hlens : l.length < 2 ^ 64 ∧ t.length < 2 ^ 64 := by
        simp only [hut, List.length_append] at hlen
        omega
      obtain ⟨st, hst⟩ := Option.isSome_iff_exists.mp ((headerStep_isSome_iff hl hlens.1).mpr hown)
      have hsplit : (headerMachine set h k).split s u = some (l, t) := hline
      rcases headerStep_cases k hl hlens.1 hst with rfl | rfl | ⟨m, name, value, rfl, -⟩
      · rw [Machine.run_of_halt (r := ⟨.done, s.x, s.done ++ l, (s.done ++ l).length⟩) hsplit
          (by simp only [headerMachine, hst])] at hrun
        cases hrun
      · rw [@Machine.run_of_next _ _ _ _ _ ⟨s.x, s.done ++ l⟩ _ _ _ hsplit
          (by simp only [headerMachine, hst])] at hrun
        exact ih hlens.2 hrun
      · rw [@Machine.run_of_next _ _ _ _ _ ⟨set (h.setBuf k ⟨s.done ++ m, 0, 0, 0⟩) s.x
            ((name.shift s.done.length).str k)
            ((value.map fun v => (v.shift s.done.length).str k).getD .null), s.done ++ m⟩
            _ _ _ hsplit (by simp only [headerMachine, hst])] at hrun
        exact ih hlens.2 hrun
  | @reject u l t sp c v hline hlu hsp hc hown hlacks =>
      have hl := IsLine.of_splitLine hline
      have hut := splitLine_eq hline
      have hlens : l.length < 2 ^ 64 := by
        simp only [hut, List.length_append] at hlen
        omega
      have hnone : headerStep l 0 = none := by
        rw [← Option.not_isSome_iff_eq_none, headerStep_isSome_iff hl hlens, not_or]
        refine ⟨fun hall => ?_, hown⟩
        have := hall c (by simp [hlu])
        simp [hc] at this
      rw [Machine.run_of_stuck (show (headerMachine set h k).split s u = some (l, t) from hline)
        (by simp only [headerMachine, hnone])] at hrun
      cases hrun
      exact ⟨l, t, sp, c, v, hut, hl, hlu, hsp, hc, hlacks⟩

end Stuck

/-! ## Parser calls that reject -/

section Reject

variable {σ : Type} {h : Heap} {k cap i : Nat} {s : HeadState σ} {l t m : List Byte}

theorem headBuf_mem_zeros {done u : List Byte} {pos : Nat}
    (hfit : done.length + u.length + i = cap) :
    (headBuf cap done u pos).mem = done ++ (u ++ zeros (i + 1)) := by
  simp only [headBuf, List.append_assoc]
  congr 3
  omega

theorem parseFirstLine_reject
    {step : σ → List Byte → Nat → Option (ParseRet × σ × List Byte × Nat)} (hk : k < h.bufs.length)
    (hl : IsLine l) (hc : ∀ c ∈ l.head?, isspace c = false)
    (hfit : s.done.length + (l ++ t).length + i = cap)
    (hstep : step s.x (s.done ++ ((l ++ t) ++ zeros (i + 1))) s.done.length
      = some (.fail, s.x, s.done ++ m, s.done.length)) :
    ∃ b m, parseFirstLine step k s.x (s.heap h k cap (l ++ t)) = some (.fail, s.x, h.setBuf k b) ∧
      b.mem = s.done ++ m := by
  have hparse := @parseFirstLine_skip _ step s _ _ cap hk [] _ (by simp) (hl.head_append hc t)
    (by simp only [List.nil_append]; omega)
  simp only [List.nil_append, List.append_nil, headBuf_mem_zeros hfit, hstep,
    Option.map_some] at hparse
  exact ⟨_, m, hparse, rfl⟩

theorem httpParseHeaderLine_reject {set : HeaderSink σ} (hk : k < h.bufs.length)
    (hl : IsLine l) (hfit : s.done.length + (l ++ t).length + i = cap) {p : Nat}
    (hstep : headerStep (s.done ++ (l ++ (t ++ zeros (i + 1)))) s.done.length
      = some (.fail (s.done ++ m) p)) :
    ∃ b m, httpParseHeaderLine set k s.x (s.heap h k cap (l ++ t))
        = some (.fail, s.x, h.setBuf k b) ∧ b.mem = s.done ++ m := by
  have hmem := @headBuf_mem_zeros _ _ _ _ s.done.length hfit
  have hlen : (l ++ t).length ≠ 0 := by
    have := hl.length_pos
    simp only [List.length_append]
    omega
  obtain ⟨fuel, hfuel⟩ := Nat.exists_eq_succ_of_ne_zero hlen
  have hlast : (headBuf cap s.done (l ++ t) s.done.length).last
      = s.done.length + (l ++ t).length := rfl
  have hpos : (headBuf cap s.done (l ++ t) s.done.length).pos = s.done.length := rfl
  have hlt : ¬ s.done.length + (l ++ t).length ≤ s.done.length := by omega
  rw [List.append_assoc] at hmem
  have hlines : headerLines set k (s.done.length + (l ++ t).length) (l ++ t).length s.done.length
      s.x (h.setBuf k (headBuf cap s.done (l ++ t) s.done.length))
      = some (.fail, p, s.x, h.setBuf k
          { headBuf cap s.done (l ++ t) s.done.length with mem := s.done ++ m }) := by
    conv_lhs => rw [show (l ++ t).length = fuel + 1 from hfuel]
    rw [hfuel] at hlt
    simp only [headerLines, hlt, if_false, Heap.buf_setBuf hk, hmem, hstep, Heap.setBuf_setBuf]
  refine ⟨{ headBuf cap s.done (l ++ t) s.done.length with mem := s.done ++ m, pos := p }, m, ?_,
    rfl⟩
  simp only [httpParseHeaderLine, HeadState.heap, Heap.buf_setBuf hk, hlast, hpos,
    Nat.add_sub_cancel_left, hlines, Option.bind_eq_bind, Option.bind_some, Option.pure_def,
    Heap.setBuf_setBuf]

end Reject

/-! ## The calls on a rejected line -/

section Calls

variable {conf : Conf} {phase : Phase} {r : HttpRequest} {io : Io} {ps : List (List Byte)}
  {es : List RecvEvent}

/-- The line in front of a stuck parser is the one the stream has there. -/
theorem IsLine.unique {l l' t t' v : List Byte} (hl : IsLine l)
    (hsplit : splitLine (l' ++ t') = some (l', t')) (h : l ++ t = l' ++ t' ++ v) :
    l' = l ∧ t = t' ++ v := by
  have h' := splitLine_append hsplit v
  rw [← h, hl.split t, Option.some.injEq, Prod.mk.injEq] at h'
  exact ⟨h'.1.symm, h'.2⟩

theorem recvLoop_firstLine_reject {σ : Type}
    {step : σ → List Byte → Nat → Option (ParseRet × σ × List Byte × Nat)} {shift : Nat → σ → σ}
    {inv : σ → Prop} (F : FirstLineStep step shift inv) {n : Nat}
    (hmissing : ∀ {x a u eol}, findNextEol (a ++ u) a.length = some (some eol) → LacksWords n u →
      ∃ m, step x (a ++ u) a.length = some (.fail, x, a ++ m, a.length))
    {h : Heap} {k cap i : Nat} (hcap : cap < 2 ^ 64) (hk : k < h.bufs.length) (errno : Errno)
    (hps : ∀ p ∈ ps, p ≠ []) {x : σ} (hx : inv x) (hfit : ps.flatten.length + i = cap)
    {ws l t : List Byte} (hs : ps.flatten = ws ++ (l ++ t)) (hws : ∀ c ∈ ws, isspace c = true)
    (hl : IsLine l) (hc : ∀ c ∈ l.head?, isspace c = false) (hnone : step x l 0 = none)
    (hlacks : LacksWords n (l ++ (t ++ zeros (i + 1)))) :
    ∃ b rest, rest <:+ ps ∧
      recvLoop conf (parseFirstLine step k) k ⟨x, (HeadState.mk x []).heap h k cap [], errno⟩
          (ps.map .data ++ es)
        = (.inr (.exit .badRequest x (h.setBuf k b) errno), rest.map .data ++ es) := by
  -- on the whole stream the machine is stuck at the line
  have hrun : (firstLineMachine step shift).run ⟨x, []⟩ ([] ++ ps.flatten)
      = .stuck ⟨x, ws⟩ (l ++ t) := by
    rw [List.nil_append, hs]
    exact firstLineMachine_stuck (s := ⟨x, []⟩) hws hl hc hnone
  obtain ⟨b, m, rest, -, hrest, hloop⟩ := recvLoop_pieces_reject (simulates_firstLine F hk) conf
    errno hcap hk hps (s := ⟨x, []⟩) (u := []) hx (by simp only [List.length_nil]; omega) hrun
    (fun {l' t' v} hsplit hlt => by
      have hsplit' : splitLine (l' ++ t') = some (l', t') := by
        rw [← splitFirst_of_head]
        · exact hsplit
        · intro c hmem
          refine hl.head_append hc t c ?_
          rw [hlt, List.head?_append, hmem]
          rfl
      obtain ⟨rfl, rfl⟩ := hl.unique hsplit' hlt
      -- what has arrived when the parser is called is a front of the stream, and behind it are
      -- zero bytes
      have hlacks' := LacksWords.truncate (a := l' ++ t') (b := v) (i := i)
        (by simpa [List.append_assoc] using hlacks)
      have heol : findNextEol (ws ++ (l' ++ t' ++ zeros (v.length + (i + 1)))) ws.length
          = some (some (ws.length + (l'.length - 1))) := by
        have := findNextEol_frame hl.findNextEol ws (t' ++ zeros (v.length + (i + 1)))
        simpa [List.append_assoc] using this
      obtain ⟨m, hstep⟩ := hmissing (x := x) heol hlacks'
      refine parseFirstLine_reject (s := ⟨x, ws⟩) (i := v.length + i) (m := m) hk hl hc ?_ hstep
      simp only [hs, List.length_append] at hfit ⊢
      omega) es
  exact ⟨b, rest, hrest, hloop⟩

/-- A first line that lacks words, in whatever pieces it arrives, is a bad request; nothing
    has been recorded of it. -/
theorem httpProcessFirstLine_reject (hr : r.HeadReady phase) (hps : ∀ p ∈ ps, p ≠ []) {i : Nat}
    (hfit : ps.flatten.length + i = conf.clientHeaderSize) (hio : io.recvs = ps.map .data ++ es)
    {ws l t : List Byte} (hs : ps.flatten = ws ++ (l ++ t)) (hws : ∀ c ∈ ws, isspace c = true)
    (hl : IsLine l) (hc : ∀ c ∈ l.head?, isspace c = false) (hown : ¬ HasWords phase.words l)
    (hlacks : LacksWords phase.words (l ++ (t ++ zeros (i + 1)))) :
    ∃ b rest, rest <:+ ps ∧
      httpProcessFirstLine conf phase r io
        = .ret (false,
            { r with
              state := phase.firstState
              status := HTTP_STATUS_BAD_REQUEST
              toHeap := (headHeap conf r.toHeap).setBuf r.bufs.length b },
            { io with recvs := rest.map .data ++ es }) := by
  have hk := headHeap_length conf r.toHeap
  cases phase with
  | request =>
      obtain ⟨hstate, hx, -⟩ := hr
      have hnone : requestLineStep r.bufs.length r.toRequestLine l 0 = none := by
        rcases hst : requestLineStep r.bufs.length r.toRequestLine l 0 with _ | y
        · rfl
        · exact absurd (hasWords_of_requestLineStep hl hst) hown
      obtain ⟨b, rest, hrest, hloop⟩ := recvLoop_firstLine_reject
        (requestLineStep_firstLine r.bufs.length) (fun heol h => requestLineStep_missing _ _ heol h)
        conf.clientHeaderSize_lt_64 hk io.errno hps hx hfit hs hws hl hc hnone hlacks
      refine ⟨b, rest, hrest, ?_⟩
      rw [HeadState.heap_new] at hloop
      simp only [httpProcessFirstLine, httpProcessRequestLine, hstate, ne_eq, not_true_eq_false,
        if_false, httpAllocClientHeaderBuf_eq, processLines, hio]
      exact congrArg (finishLines _ _ _) hloop
  | response =>
      obtain ⟨hstate, -⟩ := hr
      have hnone : statusLineStore r.status l 0 = none := by
        rcases hst : statusLineStep l 0 with _ | y
        · simp [statusLineStore, hst]
        · exact absurd (hasWords_of_statusLineStep hl hst) hown
      obtain ⟨b, rest, hrest, hloop⟩ := recvLoop_firstLine_reject
        statusLineStore_firstLine
        (fun {x a u eol} heol h => by
          obtain ⟨m, hm⟩ := statusLineStep_missing heol h
          exact ⟨m, by simp [statusLineStore, hm]⟩)
        conf.clientHeaderSize_lt_64 hk io.errno hps trivial hfit hs hws hl hc hnone hlacks
      refine ⟨b, rest, hrest, ?_⟩
      rw [HeadState.heap_new] at hloop
      simp only [httpProcessFirstLine, httpProcessStatusLine, hstate, ne_eq, not_true_eq_false,
        if_false, httpAllocClientHeaderBuf_eq, processLines, hio]
      exact congrArg (finishLines _ _ _) hloop

/-- A header line that lacks its colon, in whatever pieces it arrives, is a bad request; the
    table is the one of the lines before it. -/
theorem httpHeaderLoop_reject {h : Heap} {k cap i : Nat} {done u : List Byte}
    (hready : r.headerLineReady phase = true) (hcap : cap < 2 ^ 64) (hk : k < h.bufs.length)
    (hh : h.headerBuf = k) (hheap : r.toHeap = h.setBuf k (headBuf cap done u done.length))
    (hnames : NamesIn k (r.headers phase) done) (hps : ∀ p ∈ ps, p ≠ [])
    (hfit : done.length + (u ++ ps.flatten).length + i = cap) (hio : io.recvs = ps.map .data ++ es)
    (hsafe : HeaderLinesSafe (zeros (i + 1)) (u ++ ps.flatten)) {s' : HeadState (List Header)}
    {u' : List Byte} (hrun : (headerMachine httpHeaderSet h k).run ⟨r.headers phase, done⟩
      (u ++ ps.flatten) = .stuck s' u') :
    ∃ b m rest, b.mem = s'.done ++ m ∧ rest <:+ ps ∧
      httpHeaderLoop conf phase r io
        = .ret (false,
            { r.setHeaders phase s'.x with
              state := .headerLine
              status := HTTP_STATUS_BAD_REQUEST
              toHeap := h.setBuf k b },
            { io with recvs := rest.map .data ++ es }) := by
  have hlen := hfit
  simp only [List.length_append] at hlen
  have S := simulates_header (localSink_httpHeaderSet hk) hk
  obtain ⟨-, hlen', -⟩ := S.stuck hcap hnames (by simp only [List.length_append]; omega) hrun
  obtain ⟨l, t, sp, c, v, rfl, hl, hlu, hsp, hc, hlacks⟩ :=
    headerMachine_stuck hsafe (by simp only [List.length_append]; omega) hrun
  obtain ⟨b, m, rest, hm, hrest, hloop⟩ := recvLoop_pieces_reject S conf io.errno hcap hk hps
    (s := ⟨r.headers phase, done⟩) (u := u) hnames (by simp only; omega) hrun
    (fun {l' t' w} hsplit hlt => by
      obtain ⟨rfl, rfl⟩ := hl.unique hsplit hlt
      have hlf : LF ∈ c :: (v ++ t') := by
        obtain ⟨⟨a, ha, -⟩, -⟩ := hl
        have hlast : (sp ++ c :: v).getLast? = some LF := by simp [← hlu, ha]
        rw [List.getLast?_append_of_ne_nil _ (by simp)] at hlast
        exact List.mem_append_left t' (List.mem_of_getLast? hlast)
      have hlacks' := LacksColon.truncate (a := c :: (v ++ t')) (b := w) (i := i) hlf
        (by simpa [List.append_assoc] using hlacks)
      obtain ⟨m, p, hstep⟩ := headerStep_missing hl hlu hsp hc s'.done
        (t' ++ zeros (w.length + (i + 1))) (by simpa [List.append_assoc] using hlacks')
      refine httpParseHeaderLine_reject (i := w.length + i) hk hl ?_ hstep
      simp only [List.length_append] at hlen' ⊢
      omega) es
  refine ⟨b, m, rest, hm, hrest, ?_⟩
  have hbuf : r.headerBuf = k := by
    have : r.toHeap.headerBuf = h.headerBuf := by rw [hheap]; rfl
    exact this.trans hh
  have hget : (HttpRequest.headers { r with state := .headerLine } phase) = r.headers phase := by
    cases phase <;> rfl
  simp only [httpHeaderLoop, hready, Bool.not_true, Bool.false_eq_true, if_false, processLines,
    hbuf, hio, hget]
  rw [hheap]
  simp only [HeadState.heap] at hloop
  rw [hloop]
  cases phase <;> rfl

end Calls

end XwpServer
