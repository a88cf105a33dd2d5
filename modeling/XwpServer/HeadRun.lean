/-
  XwpServer.HeadRun

  The head on a stream that arrives in pieces.

  `httpProcessHead` runs two receive loops on one header buffer.  When the stream
  fits into the buffer and its lines can be decided from their own bytes, both
  loops are machines, and what the head comes to is a function of the stream alone.
-/

import XwpServer.HeadLines
import XwpServer.Process

namespace XwpServer

open CString Scan LineParser

/-! ## `http_header_set` reads consumed bytes only -/

/-- The names of a table that stand in the buffer `k` are terminated in `m`. -/
def NamesIn (k : Nat) (hs : List Header) (m : List Byte) : Prop :=
  ∀ e ∈ hs, ∀ off, e.name.data = .buf k off → (strAt m off).isSome

theorem strAt_append_isSome {m : List Byte} {off : Nat} (h : (strAt m off).isSome)
    (post : List Byte) : strAt (m ++ post) off = strAt m off := by
  obtain ⟨s, hs⟩ := Option.isSome_iff_exists.mp h
  have := strAt_frame hs [] post
  simp only [List.nil_append, List.length_nil, Nat.zero_add] at this
  rw [this, hs]

theorem cstr_append_of_strAt {m : List Byte} {off : Nat} (h : (strAt m off).isSome)
    (post : List Byte) : CString.cstr (m ++ post) off = CString.cstr m off := by
  obtain ⟨s, hs⟩ := Option.isSome_iff_exists.mp h
  have hs' := strAt_append_isSome h post
  rw [hs] at hs'
  rw [cstr_of_strAt hs, cstr_of_strAt hs']

/-- A pointer whose string, if it stands in the buffer `k`, is terminated in `m`. -/
def Ptr.LiveIn (k : Nat) (m : List Byte) (p : Ptr) : Prop :=
  ∀ off, p = .buf k off → (strAt m off).isSome

/-- What a pointer denotes does not depend on the bytes behind its string. -/
theorem Ptr.LiveIn.agree {k : Nat} {m : List Byte} {p : Ptr} (hp : p.LiveIn k m) {h : Heap}
    (hk : k < h.bufs.length) {b b' : Buf} {post post' : List Byte} (hb : b.mem = m ++ post)
    (hb' : b'.mem = m ++ post') : (h.setBuf k b).Agree (h.setBuf k b') p := by
  unfold Heap.Agree
  cases p with
  | null => rfl
  | lit s => rfl
  | buf id off =>
      simp only [Heap.cstr]
      by_cases hid : id = k
      · subst hid
        rw [Heap.buf_setBuf hk, Heap.buf_setBuf hk, hb, hb', cstr_append_of_strAt (hp off rfl),
          cstr_append_of_strAt (hp off rfl)]
      · rw [Heap.buf_setBuf_ne h hid, Heap.buf_setBuf_ne h hid]

theorem Heap.agree_setBuf_pos {h : Heap} {k : Nat} (hk : k < h.bufs.length) (b : Buf) (pos : Nat)
    (p : Ptr) : (h.setBuf k { b with pos := pos }).Agree (h.setBuf k b) p := by
  unfold Heap.Agree
  rcases p with _ | ⟨id, off⟩ | s
  · rfl
  · simp only [Heap.cstr]
    by_cases hid : id = k
    · subst hid
      rw [Heap.buf_setBuf hk, Heap.buf_setBuf hk]
    · rw [Heap.buf_setBuf_ne h hid, Heap.buf_setBuf_ne h hid]
  · rfl

theorem localSink_httpHeaderSet {h : Heap} {k : Nat} (hk : k < h.bufs.length) :
    LocalSink httpHeaderSet h k (NamesIn k) where
  append {x m} hx m' e he off hoff := by
    rw [strAt_append_isSome (hx e he off hoff)]
    exact hx e he off hoff
  keeps {x m off len value} hx hstr e he off' hoff := by
    rcases mem_httpHeaderSet he with ⟨hname, -⟩ | ⟨e', he', hname, -⟩
    · rw [hname] at hoff
      simp only [Ptr.buf.injEq, true_and] at hoff
      exact hoff ▸ hstr
    · exact hx e' he' off' (hname ▸ hoff)
  reads {x m off len value} hx hstr post pos last end_ := by
    have hb' : (⟨m, 0, 0, 0⟩ : Buf).mem = m ++ [] := by simp
    refine httpHeaderSet_agree value ?_ fun e he => ?_
    · refine Ptr.LiveIn.agree (m := m) ?_ hk rfl hb'
      intro off' hoff
      simp only [Ptr.buf.injEq, true_and] at hoff
      exact hoff ▸ hstr
    · exact Ptr.LiveIn.agree (hx e he) hk rfl hb'
  blind {x name value b pos} :=
    httpHeaderSet_agree value (Heap.agree_setBuf_pos hk b pos _)
      fun _ _ => Heap.agree_setBuf_pos hk b pos _

/-- A sink that only notes what it is handed. -/
def noteHeader : HeaderSink (List (Str × Str)) := fun _ xs name value => xs ++ [(name, value)]

theorem localSink_noteHeader (h : Heap) (k : Nat) :
    LocalSink noteHeader h k fun _ _ => True where
  append _ _ := trivial
  keeps _ _ := trivial
  reads _ _ _ _ _ _ := rfl
  blind := rfl

/-! ## Two sinks -/

section Sinks

variable {σ τ : Type} {set : HeaderSink σ} {set' : HeaderSink τ} {R : σ → τ → Prop}

/-- Two loops that differ in what their sinks have recorded. -/
def SinksAlike (R : σ → τ → Prop) (w : Waiting σ) (w' : Waiting τ) : Prop :=
  w'.heap = w.heap ∧ w'.errno = w.errno ∧ R w.x w'.x

def EndsAlike (R : σ → τ → Prop) : LoopEnd σ → LoopEnd τ → Prop
  | .exit e x h errno, .exit e' x' h' errno' => e' = e ∧ h' = h ∧ errno' = errno ∧ R x x'
  | .stop s, .stop s' => s' = s
  | _, _ => False

theorem headerLines_sinks (hset : ∀ h x x' name value, R x x' →
      R (set h x name value) (set' h x' name value)) (k last fuel pos : Nat) {x : σ} {x' : τ}
    {h : Heap} (hx : R x x') :
    Option.Rel (fun y y' => y'.1 = y.1 ∧ y'.2.1 = y.2.1 ∧ y'.2.2.2 = y.2.2.2 ∧ R y.2.2.1 y'.2.2.1)
      (headerLines set k last fuel pos x h) (headerLines set' k last fuel pos x' h) := by
  induction fuel generalizing pos x x' h with
  | zero => exact .some ⟨rfl, rfl, rfl, hx⟩
  | succ fuel ih =>
      simp only [headerLines]
      split
      · exact .some ⟨rfl, rfl, rfl, hx⟩
      rcases headerStep (h.buf k).mem pos with _ | st
      · exact .none
      cases st with
      | again => exact .some ⟨rfl, rfl, rfl, hx⟩
      | done p => exact .some ⟨rfl, rfl, rfl, hx⟩
      | skip p => exact ih p hx
      | fail m p => exact .some ⟨rfl, rfl, rfl, hx⟩
      | header m name value p => exact ih p (hset _ _ _ _ _ hx)

theorem settle_sinks (hset : ∀ h x x' name value, R x x' →
      R (set h x name value) (set' h x' name value)) (conf : Conf) (k : Nat) {x : σ} {x' : τ}
    {h : Heap} {errno : Errno} (hx : R x x') :
    Sum.LiftRel (SinksAlike R) (EndsAlike R)
      (settle conf (httpParseHeaderLine set k) k ⟨x, h, errno⟩)
      (settle conf (httpParseHeaderLine set' k) k ⟨x', h, errno⟩) := by
  have hlines := headerLines_sinks hset k (h.buf k).last ((h.buf k).last - (h.buf k).pos)
    (h.buf k).pos (h := h) hx
  simp only [settle, httpParseHeaderLine, Option.bind_eq_bind]
  generalize headerLines set k (h.buf k).last ((h.buf k).last - (h.buf k).pos) (h.buf k).pos x h
    = y at hlines ⊢
  generalize headerLines set' k (h.buf k).last ((h.buf k).last - (h.buf k).pos) (h.buf k).pos x' h
    = y' at hlines ⊢
  cases hlines with
  | none => exact .inr rfl
  | @some y y' hy =>
      obtain ⟨ret, p, z, h₁⟩ := y
      obtain ⟨ret', p', z', h₁'⟩ := y'
      obtain ⟨rfl, rfl, rfl, hz⟩ := hy
      simp only [Option.bind_some, Option.pure_def]
      cases ret' with
      | done => exact .inr ⟨rfl, rfl, rfl, hz⟩
      | fail => exact .inr ⟨rfl, rfl, rfl, hz⟩
      | again =>
          simp only [makeRoom]
          split
          · split
            · exact .inr ⟨rfl, rfl, rfl, hz⟩
            · exact .inl ⟨rfl, rfl, hz⟩
          · exact .inl ⟨rfl, rfl, hz⟩

/-- The header loop does not depend on what its sink records. -/
theorem recvLoop_sinks (hset : ∀ h x x' name value, R x x' →
      R (set h x name value) (set' h x' name value)) (conf : Conf) (k : Nat) {x : σ} {x' : τ}
    (h : Heap) (errno : Errno) (hx : R x x') (es : List RecvEvent) :
    Sum.LiftRel (SinksAlike R) (EndsAlike R)
      (recvLoop conf (httpParseHeaderLine set k) k ⟨x, h, errno⟩ es).1
      (recvLoop conf (httpParseHeaderLine set' k) k ⟨x', h, errno⟩ es).1 := by
  refine (Feed.feed_simulation _ (fun w w' e hw => ?_) (settle_sinks hset conf k hx) es).1
  obtain ⟨y, _, _⟩ := w
  obtain ⟨y', h', errno'⟩ := w'
  obtain ⟨rfl, rfl, hy⟩ := hw
  dsimp only at hy
  cases e with
  | error e =>
      simp only [onRecv]
      split
      · exact .inl ⟨rfl, rfl, hy⟩
      · exact .inr ⟨rfl, rfl, rfl, hy⟩
  | data bs =>
      simp only [onRecv]
      split
      · split
        · exact .inl ⟨rfl, rfl, hy⟩
        · exact .inr ⟨rfl, rfl, rfl, hy⟩
      · cases (h'.buf k).recv bs with
        | error s => exact .inr rfl
        | ok b => exact settle_sinks hset conf k hy

end Sinks

/-! ## What the header lines consist of -/

/-- A call of the sink: the consumed bytes at that moment, the name and the value. -/
structure SinkCall where
  done : List Byte
  name : Str
  value : Str

/-- `HeaderRun k done u calls done' t`: behind the consumed bytes `done`, the header
    lines at the start of `u` hand the pairs `calls` to the sink and leave the consumed
    bytes `done'` and the unparsed bytes `t`. -/
inductive HeaderRun (k : Nat) :
    List Byte → List Byte → List SinkCall → List Byte → List Byte → Prop where
  | finish {done u l t p} (hline : splitLine u = some (l, t))
      (hstep : headerStep l 0 = some (.done p)) : HeaderRun k done u [] (done ++ l) t
  | skip {done u l t p calls done' t'} (hline : splitLine u = some (l, t))
      (hstep : headerStep l 0 = some (.skip p))
      (hrest : HeaderRun k (done ++ l) t calls done' t') : HeaderRun k done u calls done' t'
  | header {done u l t m name value p calls done' t'} (hline : splitLine u = some (l, t))
      (hstep : headerStep l 0 = some (.header m name value p))
      (hrest : HeaderRun k (done ++ m) t calls done' t') :
      HeaderRun k done u
        (⟨done ++ m, (name.shift done.length).str k,
          (value.map fun v => (v.shift done.length).str k).getD .null⟩ :: calls) done' t'

/-- The record of a sink after some calls. -/
def runCalls {σ : Type} (set : HeaderSink σ) (h : Heap) (k : Nat) (x : σ)
    (calls : List SinkCall) : σ :=
  calls.foldl (fun x c => set (h.setBuf k ⟨c.done, 0, 0, 0⟩) x c.name c.value) x

section HeaderRun

variable {σ : Type} {set : HeaderSink σ} {h : Heap} {k : Nat} {s : HeadState σ}
  {u done' t : List Byte} {calls : List SinkCall} {r : HeadResult σ}

theorem HeaderRun.run (hrun : HeaderRun k s.done u calls done' t) :
    (headerMachine set h k).run s u
      = .halt ⟨.done, runCalls set h k s.x calls, done', done'.length⟩ t := by
  generalize hdone : s.done = done at hrun
  induction hrun generalizing s with
  | finish hline hstep =>
      subst hdone
      exact Machine.run_of_halt hline (by simp only [headerMachine, hstep, runCalls, List.foldl_nil])
  | @skip _ _ l t p calls done' t' hline hstep hrest ih =>
      subst hdone
      rw [@Machine.run_of_next _ _ _ _ _ ⟨s.x, s.done ++ l⟩ _ _ _ hline
        (by simp only [headerMachine, hstep])]
      exact ih rfl
  | @header _ _ l t m name value p calls done' t' hline hstep hrest ih =>
      subst hdone
      rw [@Machine.run_of_next _ _ _ _ _ ⟨set (h.setBuf k ⟨s.done ++ m, 0, 0, 0⟩) s.x
          ((name.shift s.done.length).str k)
          ((value.map fun v => (v.shift s.done.length).str k).getD .null), s.done ++ m⟩
          _ _ _ hline (by simp only [headerMachine, hstep])]
      exact ih rfl

/-- A machine that has come to the end of the head has run through header lines. -/
theorem headerRun_of_run (hrun : (headerMachine set h k).run s u = .halt r t) :
    ∃ calls, HeaderRun k s.done u calls r.done t ∧
      r = ⟨.done, runCalls set h k s.x calls, r.done, r.done.length⟩ := by
  have key := Machine.run_induction (M := headerMachine set h k)
    (P := fun s u y => ∀ r t, y = .halt r t → ∃ calls, HeaderRun k s.done u calls r.done t ∧
      r = ⟨.done, runCalls set h k s.x calls, r.done, r.done.length⟩)
    (by intro s u _ r t h; cases h)
    (by intro s u l t' _ _ r t h; cases h)
    (by
      intro s u l t' s' hline hstep ih r t hy
      obtain ⟨calls, hcalls, hr⟩ := ih r t hy
      simp only [headerMachine] at hline hstep
      split at hstep <;> simp only [Option.some.injEq, Verdict.next.injEq, reduceCtorEq] at hstep
      · next hst =>
        subst hstep
        exact ⟨calls, .skip hline hst hcalls, hr⟩
      · next hst =>
        subst hstep
        exact ⟨_ :: calls, .header hline hst hcalls, hr⟩)
    (by
      intro s u l t' r' hline hstep r t hy
      simp only [Parsed.halt.injEq] at hy
      obtain ⟨rfl, rfl⟩ := hy
      simp only [headerMachine] at hline hstep
      split at hstep <;> simp only [Option.some.injEq, Verdict.halt.injEq, reduceCtorEq] at hstep
      next hst =>
        subst hstep
        exact ⟨[], .finish hline hst, rfl⟩)
  exact key s u r t hrun

end HeaderRun

end XwpServer
