/-
  XwpServer.HeaderBuffer

  `header_buf` behind an accepted head.

  A loop that has switched its buffer goes on with the old one, whose `last` is behind its
  end.  What the request holds is then the large buffer, though, which nothing is written
  to before the next loop.  So the buffer that the body is looked for in is always in order.
-/

import XwpServer.BodyBytes

namespace XwpServer

open CString Scan

/-! ## The invariant of the receive loops -/

/-- A buffer whose bytes are inside its block. -/
structure Buf.Whole (b : Buf) : Prop where
  last_le : b.last ≤ b.end_
  end_le : b.end_ ≤ b.mem.length
  end_lt : b.end_ < 2 ^ 31

/-- The header buffer of a request whose loop has the buffer `k`. -/
structure HeaderWhole (conf : Conf) (k : Nat) (h : Heap) : Prop where
  lt : k < h.bufs.length
  own_lt : h.headerBuf < h.bufs.length
  whole : (h.buf h.headerBuf).Whole
  large : h.headerBuf ≠ k → (h.buf h.headerBuf).pos ≤ (h.buf h.headerBuf).last ∧
    conf.largeClientHeaderSize ≤ (h.buf h.headerBuf).end_

/-- A line parser writes into its own block only, and moves `pos`. -/
def ParseKeeps {σ : Type} (parse : Parse σ) (k : Nat) : Prop :=
  ∀ x h ret x' h', k < h.bufs.length → parse x h = some (ret, x', h') → ret ≠ .fail →
    ∃ m p, m.length = (h.buf k).mem.length ∧ h' = h.setBuf k { h.buf k with mem := m, pos := p }

section Loop

variable {σ : Type} {conf : Conf} {k : Nat} {h : Heap} {parse : Parse σ}

theorem HeaderWhole.ownBuf (hw : HeaderWhole conf k h) : OwnBuf conf k h := by
  by_cases hown : h.headerBuf = k
  · exact .inl hown
  · exact .inr ⟨hown, (hw.large hown).2⟩

theorem HeaderWhole.setBuf (hw : HeaderWhole conf k h) {b : Buf}
    (hb : (h.buf k).Whole → b.Whole) : HeaderWhole conf k (h.setBuf k b) where
  lt := by simpa using hw.lt
  own_lt := by simpa using hw.own_lt
  whole := by
    rw [Heap.setBuf_headerBuf]
    by_cases hown : h.headerBuf = k
    · rw [hown, Heap.buf_setBuf hw.lt]
      exact hb (hown ▸ hw.whole)
    · rw [Heap.buf_setBuf_ne h hown]
      exact hw.whole
  large hown := by
    rw [Heap.setBuf_headerBuf] at hown ⊢
    rw [Heap.buf_setBuf_ne h hown]
    exact hw.large hown

/-- The large buffer is put into the request as it was created. -/
theorem httpAllocLarge_whole {h' : Heap} (hw : HeaderWhole conf k h)
    (hfull : (h.buf k).last = (h.buf k).end_)
    (halloc : httpAllocLargeClientHeaderBuf conf h = some h') : HeaderWhole conf k h' := by
  obtain ⟨hk, -, hown, hlt, hnew, -⟩ := httpAllocLarge_buf hw.lt hw.ownBuf hfull halloc
  have hsize := conf.largeClientHeaderSize_lt
  refine ⟨hk, by omega, ?_, fun _ => ?_⟩
  · rw [hown, hnew]
    refine ⟨Nat.zero_le _, ?_, ?_⟩
    · simp [bufCreate]
    · show conf.largeClientHeaderSize + 1 < 2 ^ 31
      omega
  · rw [hown, hnew]
    exact ⟨Nat.le_refl 0, Nat.le_succ _⟩

/-- A loop that is left for the end of its lines. -/
def WholeEnd (conf : Conf) (k : Nat) (e : LoopEnd σ) : Prop :=
  ∀ x h errno, e = .exit .done x h errno → HeaderWhole conf k h

theorem makeRoom_whole {w : Waiting σ} (hw : HeaderWhole conf k w.heap) :
    Sum.elim (fun w' => HeaderWhole conf k w'.heap) (WholeEnd conf k) (makeRoom conf k w) := by
  unfold makeRoom
  split
  · next hfull =>
    rcases halloc : httpAllocLargeClientHeaderBuf conf w.heap with _ | h'
    · exact fun _ _ _ h => by cases h
    · exact httpAllocLarge_whole hw hfull halloc
  · exact hw

theorem settle_whole (hparse : ParseKeeps parse k) {w : Waiting σ}
    (hw : HeaderWhole conf k w.heap) :
    Sum.elim (fun w' => HeaderWhole conf k w'.heap) (WholeEnd conf k) (settle conf parse k w) := by
  unfold settle
  rcases hp : parse w.x w.heap with _ | ⟨ret, x, h'⟩
  · exact fun _ _ _ h => by cases h
  have hkeep : ret ≠ .fail → HeaderWhole conf k h' := by
    intro hret
    obtain ⟨m, p, hm, rfl⟩ := hparse _ _ _ _ _ hw.lt hp hret
    exact hw.setBuf fun hb => ⟨hb.last_le, hm ▸ hb.end_le, hb.end_lt⟩
  cases ret with
  | done =>
      rintro x' h'' errno ⟨⟩
      exact hkeep (by decide)
  | fail => exact fun _ _ _ h => by cases h
  | again => exact makeRoom_whole (w := ⟨x, h', w.errno⟩) (hkeep (by decide))

theorem Buf.Whole.recv {b b' : Buf} {bs : List Byte} (hb : b.Whole) (hrecv : b.recv bs = .ok b') :
    b'.Whole := by
  have hlast := hb.last_le
  unfold Buf.recv at hrecv
  split_ifs at hrecv with hmisfit hfault
  cases hrecv
  have hspace : ptrDiff b.end_ b.last = b.end_ - b.last := by
    have := hb.end_lt
    unfold ptrDiff
    omega
  have hmem : (writeAt b.mem b.last bs).length = b.mem.length := writeAt_length (by omega)
  refine ⟨?_, ?_, hb.end_lt⟩
  · show b.last + bs.length ≤ b.end_
    omega
  · exact hmem ▸ hb.end_le

theorem onRecv_whole (hparse : ParseKeeps parse k) (w : Waiting σ) (e : RecvEvent)
    (hw : HeaderWhole conf k w.heap) :
    Sum.elim (fun w' => HeaderWhole conf k w'.heap) (WholeEnd conf k) (onRecv conf parse k w e) := by
  cases e with
  | error e =>
      simp only [onRecv]
      split
      · exact hw
      · exact fun _ _ _ h => by cases h
  | data bs =>
      simp only [onRecv]
      split
      · split
        · exact hw
        · exact fun _ _ _ h => by cases h
      · rcases hr : (w.heap.buf k).recv bs with s | b
        · exact fun _ _ _ h => by cases h
        · exact settle_whole hparse (hw.setBuf fun hb => hb.recv hr)

/-- The buffer of a request behind a loop that it has come out of. -/
theorem processLines_whole {parse : Nat → Parse σ} {get : HttpRequest → σ}
    {put : HttpRequest → σ → HttpRequest} {r r' : HttpRequest} {io io' : Io}
    (hparse : ParseKeeps (parse r.headerBuf) r.headerBuf)
    (hw : HeaderWhole conf r.headerBuf r.toHeap)
    (hr : processLines conf parse get put r io = .ret (true, r', io')) :
    HeaderWhole conf r.headerBuf r'.toHeap := by
  have hloop := Feed.feed_invariant (onRecv conf (parse r.headerBuf) r.headerBuf)
    (fun w e hw => onRecv_whole hparse w e hw)
    (settle_whole (w := ⟨get r, r.toHeap, io.errno⟩) hparse hw) io.recvs
  simp only [processLines, recvLoop] at hr
  generalize Feed.feed (onRecv conf (parse r.headerBuf) r.headerBuf)
    (settle conf (parse r.headerBuf) r.headerBuf ⟨get r, r.toHeap, io.errno⟩) io.recvs = y
    at hr hloop
  obtain ⟨w | s, recvs⟩ := y
  · cases hr
  cases s with
  | stop s => cases hr
  | exit e x h' errno =>
      simp only [finishLines, Outcome.ret.injEq, Prod.mk.injEq, decide_eq_true_eq] at hr
      obtain ⟨rfl, rfl, -⟩ := hr
      exact hloop x h' errno rfl

end Loop

/-! ## The parsers -/

theorem parseFirstLine_keeps {σ : Type}
    {step : σ → List Byte → Nat → Option (ParseRet × σ × List Byte × Nat)}
    (hstep : TerminatesOnly step) (k : Nat) : ParseKeeps (parseFirstLine step k) k := by
  intro x h ret x' h' _ hp _
  simp only [parseFirstLine, Option.bind_eq_bind, Option.bind_eq_some_iff] at hp
  obtain ⟨q, -, ⟨ret', y, m, p⟩, hy, hp⟩ := hp
  simp only [Option.pure_def, Option.some.injEq, Prod.mk.injEq] at hp
  obtain ⟨rfl, rfl, rfl⟩ := hp
  exact ⟨m, p, (hstep _ _ _ _ _ _ _ hy).1.length, rfl⟩

theorem httpParseRequestLine_keeps (k : Nat) : ParseKeeps (httpParseRequestLine k) k :=
  parseFirstLine_keeps (requestLineStep_terminates k) k

theorem httpParseStatusLine_keeps (k : Nat) : ParseKeeps (httpParseStatusLine k) k :=
  parseFirstLine_keeps statusLineStore_terminates k

/-- Each round writes terminators only. -/
theorem headerLines_length {σ : Type} {set : HeaderSink σ} {k last : Nat} (fuel : Nat)
    {pos p : Nat} {x x' : σ} {h h' : Heap} {ret : ParseRet} (hk : k < h.bufs.length)
    (hp : headerLines set k last fuel pos x h = some (ret, p, x', h')) (hret : ret ≠ .fail) :
    ∃ m, m.length = (h.buf k).mem.length ∧ h' = h.setBuf k { h.buf k with mem := m } := by
  induction fuel generalizing pos x h with
  | zero =>
      cases hp
      exact ⟨_, rfl, (Heap.setBuf_self hk).symm⟩
  | succ fuel ih =>
      simp only [headerLines] at hp
      split at hp
      · cases hp
        exact ⟨_, rfl, (Heap.setBuf_self hk).symm⟩
      rcases hst : headerStep (h.buf k).mem pos with _ | st <;> rw [hst] at hp
      · cases hp
      cases st with
      | again =>
          cases hp
          exact ⟨_, rfl, (Heap.setBuf_self hk).symm⟩
      | done q =>
          cases hp
          exact ⟨_, rfl, (Heap.setBuf_self hk).symm⟩
      | skip q => exact ih hk hp
      | fail m q =>
          cases hp
          exact absurd rfl hret
      | header m name value q =>
          obtain ⟨-, -, -, hm, -⟩ := headerStep_header hst
          obtain ⟨m', hm', rfl⟩ := ih (by simpa using hk) hp
          rw [Heap.buf_setBuf hk] at hm' ⊢
          exact ⟨m', hm'.trans hm.length, Heap.setBuf_setBuf _ _ _ _⟩

theorem httpParseHeaderLine_keeps {σ : Type} (set : HeaderSink σ) (k : Nat) :
    ParseKeeps (httpParseHeaderLine set k) k := by
  intro x h ret x' h' hk hp hret
  simp only [httpParseHeaderLine, Option.bind_eq_bind, Option.bind_eq_some_iff] at hp
  obtain ⟨⟨ret', p, y, h₁⟩, hlines, hp⟩ := hp
  simp only [Option.pure_def, Option.some.injEq, Prod.mk.injEq] at hp
  obtain ⟨rfl, rfl, rfl⟩ := hp
  obtain ⟨m, hm, rfl⟩ := headerLines_length _ hk hlines hret
  exact ⟨m, p, hm, by rw [Heap.buf_setBuf hk, Heap.setBuf_setBuf]⟩

/-! ## Behind the head -/

section Head

variable {conf : Conf} {phase : Phase} {r r₁ r₂ : HttpRequest} {io io₁ io₂ : Io}

/-- A new header buffer. -/
theorem httpAllocClient_whole (conf : Conf) (h : Heap) :
    HeaderWhole conf h.bufs.length (httpAllocClientHeaderBuf conf h) := by
  have hsize := conf.clientHeaderSize_lt
  rw [httpAllocClientHeaderBuf_eq]
  have hlt : h.bufs.length
      < (h.newHeaderBuf (headBuf conf.clientHeaderSize [] [] 0)).bufs.length := by
    simp [Heap.newHeaderBuf]
  refine ⟨hlt, hlt, ?_, fun hne => absurd (Heap.newHeaderBuf_headerBuf _ _) hne⟩
  rw [Heap.newHeaderBuf_headerBuf, Heap.buf_newHeaderBuf]
  refine ⟨Nat.zero_le _, ?_, ?_⟩
  · simp [headBuf]
  · show conf.clientHeaderSize < 2 ^ 31
    omega

theorem httpProcessFirstLine_whole
    (h : httpProcessFirstLine conf phase r io = .ret (true, r₁, io₁)) :
    ∃ k, HeaderWhole conf k r₁.toHeap := by
  have hnew := httpAllocClient_whole conf r.toHeap
  have hk : (httpAllocClientHeaderBuf conf r.toHeap).headerBuf = r.bufs.length := by
    rw [httpAllocClientHeaderBuf_eq, Heap.newHeaderBuf_headerBuf]
  rw [← hk] at hnew
  cases phase with
  | request =>
      simp only [httpProcessFirstLine, httpProcessRequestLine] at h
      split_ifs at h
      exact ⟨_, processLines_whole (httpParseRequestLine_keeps _) hnew h⟩
  | response =>
      simp only [httpProcessFirstLine, httpProcessStatusLine] at h
      split_ifs at h
      exact ⟨_, processLines_whole (httpParseStatusLine_keeps _) hnew h⟩

/-- The header buffer of an accepted head is in order. -/
theorem httpHeaderLoop_valid (hr : r.HeadReady phase)
    (hfirst : httpProcessFirstLine conf phase r io = .ret (true, r₁, io₁))
    (hloop : httpHeaderLoop conf phase r₁ io₁ = .ret (true, r₂, io₂)) :
    r₂.headerBuf < r₂.bufs.length ∧ (r₂.buf r₂.headerBuf).Valid := by
  have htracked := (httpHeaderLoop_tracked hr hfirst hloop).2.pos_le
  obtain ⟨k, hfirst'⟩ := httpProcessFirstLine_whole hfirst
  have hstart : HeaderWhole conf r₁.headerBuf r₁.toHeap :=
    ⟨hfirst'.own_lt, hfirst'.own_lt, hfirst'.whole, fun hne => absurd rfl hne⟩
  simp only [httpHeaderLoop] at hloop
  split_ifs at hloop
  have hw := processLines_whole (r := { r₁ with state := .headerLine })
    (httpParseHeaderLine_keeps _ _) hstart hloop
  refine ⟨hw.own_lt, ?_, hw.whole.last_le, hw.whole.end_le, hw.whole.end_lt⟩
  by_cases hown : r₂.headerBuf = r₁.headerBuf
  · rw [hown]
    exact htracked
  · exact (hw.large hown).1

end Head

end XwpServer
