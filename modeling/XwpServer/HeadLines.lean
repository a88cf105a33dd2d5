/-
  XwpServer.HeadLines

  The head as a sequence of lines.

  Each line parser is, on lines it can decide from their own bytes, a machine of
  `Lib/LineParser.lean`: the bytes in front of the line only move its positions
  (the frame lemmas of `ParseLine.lean`), and the bytes behind it do not matter.
  Such a machine gives the same result however the bytes arrive; the theorems here
  carry this over to the receive loop on the header buffer (`recvLoop_pieces`).
-/

import XwpServer.RecvLoop
import XwpServer.LineShape
import XwpServer.Lib.LineParser

namespace XwpServer

open CString Scan LineParser

/-! ## Lines -/

/-- Cut the first line off; there is none when a zero byte comes before its end. -/
def splitLine : List Byte → Option (List Byte × List Byte)
  | [] => none
  | c :: cs =>
    if c = LF then some ([c], cs)
    else if c = NUL then none
    else (splitLine cs).map fun x => (c :: x.1, x.2)

theorem splitLine_eq_some_iff {u l t : List Byte} :
    splitLine u = some (l, t) ↔ ∃ a, l = a ++ [LF] ∧ u = a ++ LF :: t ∧ LF ∉ a ∧ NUL ∉ a := by
  -- on the bytes: a line feed ends the line, a zero byte says there is none
  induction u generalizing l with
  | nil => simp [splitLine]
  | cons c cs ih =>
      simp only [splitLine]
      by_cases hlf : c = LF
      · subst hlf
        simp only [if_true, Option.some.injEq, Prod.mk.injEq]
        constructor
        · rintro ⟨rfl, rfl⟩
          exact ⟨[], by simp⟩
        · rintro ⟨a, rfl, hu, hlf, -⟩
          cases a with
          | nil => simpa using hu
          | cons x xs => simp_all
      · simp only [hlf, if_false]
        by_cases hz : c = NUL
        · subst hz
          simp only [if_true, reduceCtorEq, false_iff, not_exists]
          rintro a ⟨rfl, hu, -, hz⟩
          cases a with
          | nil => simp_all
          | cons x xs => simp_all
        · simp only [hz, if_false, Option.map_eq_some_iff, Prod.mk.injEq, Prod.exists]
          constructor
          · rintro ⟨l', t', h, rfl, rfl⟩
            obtain ⟨a, rfl, rfl, h₁, h₂⟩ := ih.mp h
            exact ⟨c :: a, by simp, by simp, by simp [Ne.symm hlf, h₁], by simp [Ne.symm hz, h₂]⟩
          · rintro ⟨a, rfl, hu, h₁, h₂⟩
            cases a with
            | nil => simp_all
            | cons x xs =>
                simp only [List.cons_append, List.cons.injEq] at hu
                obtain ⟨rfl, rfl⟩ := hu
                exact ⟨xs ++ [LF], t, ih.mpr ⟨xs, rfl, rfl, by simp_all, by simp_all⟩, rfl, rfl⟩

theorem splitLine_append {u l t : List Byte} (h : splitLine u = some (l, t)) (v : List Byte) :
    splitLine (u ++ v) = some (l, t ++ v) := by
  obtain ⟨a, rfl, rfl, h₁, h₂⟩ := splitLine_eq_some_iff.mp h
  exact splitLine_eq_some_iff.mpr ⟨a, rfl, by simp, h₁, h₂⟩

theorem splitLine_eq {u l t : List Byte} (h : splitLine u = some (l, t)) : u = l ++ t := by
  obtain ⟨a, rfl, rfl, -, -⟩ := splitLine_eq_some_iff.mp h
  simp

theorem splitLine_ne_nil {u l t : List Byte} (h : splitLine u = some (l, t)) : l ≠ [] := by
  obtain ⟨a, rfl, -, -, -⟩ := splitLine_eq_some_iff.mp h
  simp

/-- Without a line, the first zero byte comes before the first line feed. -/
theorem splitLine_none {u : List Byte} (h : splitLine u = none) (b : List Byte) :
    ∃ a b', u ++ NUL :: b = a ++ NUL :: b' ∧ LF ∉ a ∧ NUL ∉ a := by
  induction u with
  | nil => exact ⟨[], b, rfl, by simp, by simp⟩
  | cons c cs ih =>
      simp only [splitLine] at h
      split_ifs at h with hlf hz
      · exact ⟨[], cs ++ NUL :: b, by simp [hz], by simp, by simp⟩
      · obtain ⟨a, b', hab, h₁, h₂⟩ := ih (by simpa using h)
        exact ⟨c :: a, b', by simp [hab], by simp [Ne.symm hlf, h₁], by simp [Ne.symm hz, h₂]⟩

theorem findNextEol_of_splitLine_none {u : List Byte} (h : splitLine u = none)
    (pre b : List Byte) :
    findNextEol (pre ++ (u ++ NUL :: b)) pre.length = some none := by
  obtain ⟨a, b', hab, h₁, h₂⟩ := splitLine_none h b
  have hdrop : (pre ++ (u ++ NUL :: b)).drop pre.length = a ++ NUL :: b' := by
    rw [List.drop_left, hab]
  have hscan : scan (fun c => c != LF && c != NUL) ((pre ++ (u ++ NUL :: b)).drop pre.length)
      = some a.length := by
    rw [hdrop]
    refine scan_append_cons b' (fun x hx => ?_) (by simp)
    have hlf : x ≠ LF := fun e => h₁ (e ▸ hx)
    have hz : x ≠ NUL := fun e => h₂ (e ▸ hx)
    simp [hlf, hz]
  have hget : (pre ++ (u ++ NUL :: b))[pre.length + a.length]? = some NUL := by
    rw [← List.getElem?_drop, hdrop]
    simp
  simp only [findNextEol, Option.bind_eq_bind, hscan, Option.bind_some, hget, if_true,
    Option.pure_def]

/-! ## The header buffer during a run -/

/-- The header buffer of capacity `cap` that holds the parsed bytes `done` and the
    unparsed bytes `u`, and zeros behind them. -/
def headBuf (cap : Nat) (done u : List Byte) (pos : Nat) : Buf where
  mem := done ++ u ++ List.replicate (cap + 1 - (done.length + u.length)) NUL
  pos := pos
  last := done.length + u.length
  end_ := cap

/-- What is in front of the capacity is cleared. -/
theorem headBuf_eq {cap n : Nat} {m t : List Byte} (hn : m.length + t.length + n = cap)
    (pos : Nat) : headBuf cap m t pos
      = ⟨m ++ (t ++ NUL :: List.replicate n NUL), pos, m.length + t.length, cap⟩ := by
  have hz : cap + 1 - (m.length + t.length) = n + 1 := by omega
  simp only [headBuf, hz, List.replicate_succ, List.append_assoc]

/-- The buffer of `http_alloc_client_header_buf`. -/
theorem httpAllocClientHeaderBuf_eq (conf : Conf) (h : Heap) :
    httpAllocClientHeaderBuf conf h = h.newHeaderBuf (headBuf conf.clientHeaderSize [] [] 0) := by
  have hset : (List.replicate (conf.clientHeaderSize + 1) NUL).set conf.clientHeaderSize NUL
      = List.replicate (conf.clientHeaderSize + 1) NUL := by
    refine List.ext_getElem (by simp) fun i h₁ h₂ => ?_
    rw [List.getElem_set]
    split <;> simp
  simp [httpAllocClientHeaderBuf, bufCreate, headBuf, hset]

/-- Receiving a piece that fits. -/
theorem headBuf_recv {cap : Nat} {done u p : List Byte} {pos : Nat} (hcap : cap < 2 ^ 64)
    (hfit : done.length + u.length + p.length ≤ cap) :
    (headBuf cap done u pos).recv p = .ok (headBuf cap done (u ++ p) pos) := by
  have hspace : ptrDiff cap (done.length + u.length) = cap - (done.length + u.length) :=
    ptrDiff_of_le (by omega) hcap
  have hmem : writeAt (done ++ u ++ List.replicate (cap + 1 - (done.length + u.length)) NUL)
      (done.length + u.length) p
      = done ++ (u ++ p)
          ++ List.replicate (cap + 1 - (done.length + (u ++ p).length)) NUL := by
    have h₁ : (done ++ u).length = done.length + u.length := by simp
    rw [writeAt, ← h₁, List.take_left, ← List.drop_drop, List.drop_left, List.drop_replicate]
    simp only [List.length_append, List.append_assoc]
    congr 4
    omega
  have hoffer : ¬ ptrDiff cap (done.length + u.length) < p.length := by
    rw [hspace]
    omega
  have hblock : ¬ (done ++ u ++ List.replicate (cap + 1 - (done.length + u.length)) NUL).length
      < done.length + u.length + p.length := by
    simp only [List.length_append, List.length_replicate]
    omega
  simp only [Buf.recv, headBuf, hoffer, hblock, if_false, hmem]
  simp [Nat.add_assoc]

/-! ## Head machines -/

/-- The state of a head machine: what the parser has recorded, and the bytes it has
    consumed as they stand in the buffer. -/
structure HeadState (σ : Type) where
  x : σ
  done : List Byte

/-- What a head machine returns: the parser's result and record, the consumed bytes,
    and the position the parser leaves. -/
structure HeadResult (σ : Type) where
  ret : ParseRet
  x : σ
  done : List Byte
  pos : Nat

variable {σ : Type}

/-- The heap with the header buffer of a head machine. -/
def HeadState.heap (h : Heap) (k cap : Nat) (s : HeadState σ) (u : List Byte) : Heap :=
  h.setBuf k (headBuf cap s.done u s.done.length)

/-- The heap a head machine's result stands for, with the bytes `t` unparsed. -/
def HeadResult.heap (h : Heap) (k cap : Nat) (r : HeadResult σ) (t : List Byte) : Heap :=
  h.setBuf k (headBuf cap r.done t r.pos)

/-- The parser `parse` does on the buffer number `k` what the machine does, for the
    states that satisfy the invariant. -/
structure Simulates (M : Machine Byte (HeadState σ) (HeadResult σ)) (parse : Parse σ)
    (h : Heap) (k : Nat) (inv : HeadState σ → Prop) : Prop where
  more : ∀ {cap s u s' u'}, cap < 2 ^ 64 → inv s → s.done.length + u.length ≤ cap →
    M.run s u = .more s' u' →
    inv s' ∧ s'.done.length + u'.length = s.done.length + u.length ∧
      parse s.x (s.heap h k cap u) = some (.again, s'.x, s'.heap h k cap u')
  halt : ∀ {cap s u r t}, cap < 2 ^ 64 → inv s → s.done.length + u.length ≤ cap →
    M.run s u = .halt r t →
    r.ret ≠ .again ∧ r.done.length + t.length = s.done.length + u.length ∧
      parse s.x (s.heap h k cap u) = some (r.ret, r.x, r.heap h k cap t)
  stuck : ∀ {cap s u s' u'}, cap < 2 ^ 64 → inv s → s.done.length + u.length ≤ cap →
    M.run s u = .stuck s' u' →
    inv s' ∧ s'.done.length + u'.length = s.done.length + u.length ∧
      parse s.x (s.heap h k cap u) = parse s'.x (s'.heap h k cap u')

/-- It is enough to look at what each run of the machine comes to. -/
theorem Simulates.of_run {M : Machine Byte (HeadState σ) (HeadResult σ)} {parse : Parse σ}
    {h : Heap} {k : Nat} {inv : HeadState σ → Prop}
    (hrun : ∀ {cap s u}, cap < 2 ^ 64 → inv s → s.done.length + u.length ≤ cap →
      match M.run s u with
      | .more s' u' => inv s' ∧ s'.done.length + u'.length = s.done.length + u.length ∧
          parse s.x (s.heap h k cap u) = some (.again, s'.x, s'.heap h k cap u')
      | .halt r t => r.ret ≠ .again ∧ r.done.length + t.length = s.done.length + u.length ∧
          parse s.x (s.heap h k cap u) = some (r.ret, r.x, r.heap h k cap t)
      | .stuck s' u' => inv s' ∧ s'.done.length + u'.length = s.done.length + u.length ∧
          parse s.x (s.heap h k cap u) = parse s'.x (s'.heap h k cap u')) :
    Simulates M parse h k inv where
  more hcap hs hfit hM := by
    have h := hrun hcap hs hfit
    rwa [hM] at h
  halt hcap hs hfit hM := by
    have h := hrun hcap hs hfit
    rwa [hM] at h
  stuck hcap hs hfit hM := by
    have h := hrun hcap hs hfit
    rwa [hM] at h

/-! ## The receive loop on pieces -/

/-- The exit of the loop for a parser's result. -/
def ParseRet.loopExit : ParseRet → LoopExit
  | .done => .done
  | _ => .badRequest

/-- The loop behind what a machine has come to; where the machine is stuck it is the
    parser that decides. -/
def loopResult (conf : Conf) (parse : Parse σ) (h : Heap) (k cap : Nat) (errno : Errno) :
    (HeadState σ × List Byte) ⊕ ((HeadResult σ ⊕ HeadState σ) × List Byte) →
      Waiting σ ⊕ LoopEnd σ
  | .inl (s, u) => makeRoom conf k ⟨s.x, s.heap h k cap u, errno⟩
  | .inr (.inl r, t) => .inr (.exit r.ret.loopExit r.x (r.heap h k cap t) errno)
  | .inr (.inr s, u) => settle conf parse k ⟨s.x, s.heap h k cap u, errno⟩

section RecvLoopPieces

variable {M : Machine Byte (HeadState σ) (HeadResult σ)} {parse : Parse σ} {h : Heap} {k : Nat}
  {inv : HeadState σ → Prop}

/-- One parser call is one run of the machine. -/
theorem Simulates.settle (S : Simulates M parse h k inv) (conf : Conf) (errno : Errno)
    {cap : Nat} {s : HeadState σ} {u : List Byte} (hcap : cap < 2 ^ 64) (hs : inv s)
    (hfit : s.done.length + u.length ≤ cap) :
    settle conf parse k ⟨s.x, s.heap h k cap u, errno⟩
      = loopResult conf parse h k cap errno (Machine.resume (M.run s u)) := by
  rcases hrun : M.run s u with ⟨s', u'⟩ | ⟨r, t⟩ | ⟨s', u'⟩
  · obtain ⟨-, -, hparse⟩ := S.more hcap hs hfit hrun
    simp [XwpServer.settle, hparse, Machine.resume, loopResult]
  · obtain ⟨hne, -, hparse⟩ := S.halt hcap hs hfit hrun
    rcases hret : r.ret with _ | _ | _
    · simp [XwpServer.settle, hparse, Machine.resume, loopResult, hret, ParseRet.loopExit]
    · simp [XwpServer.settle, hparse, Machine.resume, loopResult, hret, ParseRet.loopExit]
    · exact absurd hret hne
  · obtain ⟨-, -, hparse⟩ := S.stuck hcap hs hfit hrun
    simp only [XwpServer.settle, hparse, Machine.resume, loopResult]

/-- A buffer with room is not switched. -/
theorem makeRoom_of_lt (conf : Conf) (errno : Errno) {cap : Nat} {s : HeadState σ}
    {u : List Byte} (hk : k < h.bufs.length) (hroom : s.done.length + u.length < cap) :
    makeRoom conf k ⟨s.x, s.heap h k cap u, errno⟩ = .inl ⟨s.x, s.heap h k cap u, errno⟩ := by
  have hne : (headBuf cap s.done u s.done.length).last
      ≠ (headBuf cap s.done u s.done.length).end_ := by
    simp only [headBuf]
    omega
  simp only [makeRoom, HeadState.heap, Heap.buf_setBuf hk, hne, if_false]

/-- The loop on pieces that fit into the buffer is the machine fed with them. -/
theorem recvLoop_pieces (S : Simulates M parse h k inv) (conf : Conf) (errno : Errno)
    {cap : Nat} (hcap : cap < 2 ^ 64) (hk : k < h.bufs.length) {ps : List (List Byte)}
    (hps : ∀ p ∈ ps, p ≠ []) {s : HeadState σ} {u : List Byte} (hs : inv s)
    (hfit : s.done.length + u.length + ps.flatten.length ≤ cap) (es : List RecvEvent) :
    recvLoop conf parse k ⟨s.x, s.heap h k cap u, errno⟩ (ps.map .data ++ es)
      = Feed.feed (onRecv conf parse k) (loopResult conf parse h k cap errno (M.feed s u ps).1)
          ((M.feed s u ps).2.map .data ++ es) := by
  -- on the pieces; `u` is what has been received and not parsed
  induction ps generalizing s u with
  | nil =>
      have hfit' : s.done.length + u.length ≤ cap := by simpa using hfit
      simp only [recvLoop, List.map_nil, Machine.feed_nil, S.settle conf errno hcap hs hfit']
  | cons p ps ih =>
      simp only [List.flatten_cons, List.length_append] at hfit
      have hp : p ≠ [] := hps p (by simp)
      have hplen : 0 < p.length := List.length_pos_of_ne_nil hp
      have hsettle := S.settle conf errno hcap hs (u := u) (by omega)
      simp only [recvLoop, hsettle]
      rcases hrun : M.run s u with ⟨s', u'⟩ | ⟨r, t⟩ | ⟨s', u'⟩
      · obtain ⟨hs', hlen, -⟩ := S.more hcap hs (by omega) hrun
        have hrecv : ((s'.heap h k cap u').buf k).recv p
            = .ok (headBuf cap s'.done (u' ++ p) s'.done.length) := by
          rw [HeadState.heap, Heap.buf_setBuf hk]
          exact headBuf_recv hcap (by omega)
        have hheap : (s'.heap h k cap u').setBuf k (headBuf cap s'.done (u' ++ p) s'.done.length)
            = s'.heap h k cap (u' ++ p) := by
          simp [HeadState.heap]
        rw [Machine.feed_of_more hrun, ← ih (fun q hq => hps q (by simp [hq])) hs' (u := u' ++ p)
          (by simp only [List.length_append]; omega)]
        simp only [Machine.resume, loopResult, makeRoom_of_lt conf errno hk
          (show s'.done.length + u'.length < cap by omega), List.map_cons, List.cons_append,
          Feed.feed_cons, onRecv, hp, if_false, hrecv, hheap, recvLoop]
      · rw [Machine.feed_of_halt hrun]
        rfl
      · rw [Machine.feed_of_stuck hrun]
        rfl

/-- A stream that the machine needs more of keeps the loop waiting. -/
theorem recvLoop_pieces_more (S : Simulates M parse h k inv) (conf : Conf) (errno : Errno)
    {cap : Nat} (hcap : cap < 2 ^ 64) (hk : k < h.bufs.length) {ps : List (List Byte)}
    (hps : ∀ p ∈ ps, p ≠ []) {s s' : HeadState σ} {u u' : List Byte} (hs : inv s)
    (hfit : s.done.length + u.length + ps.flatten.length ≤ cap)
    (hrun : M.run s (u ++ ps.flatten) = .more s' u') :
    recvLoop conf parse k ⟨s.x, s.heap h k cap u, errno⟩ (ps.map .data)
      = (makeRoom conf k ⟨s'.x, s'.heap h k cap u', errno⟩, []) := by
  have hloop := recvLoop_pieces S conf errno hcap hk hps hs hfit []
  rw [Machine.feed_of_run_more hrun] at hloop
  simpa [loopResult] using hloop

/-- A stream on which the machine halts ends the loop, whatever comes behind it. -/
theorem recvLoop_pieces_halt (S : Simulates M parse h k inv) (conf : Conf) (errno : Errno)
    {cap : Nat} (hcap : cap < 2 ^ 64) (hk : k < h.bufs.length) {ps : List (List Byte)}
    (hps : ∀ p ∈ ps, p ≠ []) {s : HeadState σ} {u t : List Byte} {r : HeadResult σ}
    (hs : inv s) (hfit : s.done.length + u.length + ps.flatten.length ≤ cap)
    (hrun : M.run s (u ++ ps.flatten) = .halt r t) (es : List RecvEvent) :
    ∃ t' rest, t = t' ++ rest.flatten ∧ rest <:+ ps ∧
      recvLoop conf parse k ⟨s.x, s.heap h k cap u, errno⟩ (ps.map .data ++ es)
        = (.inr (.exit r.ret.loopExit r.x (r.heap h k cap t') errno), rest.map .data ++ es) := by
  obtain ⟨t', rest, ht, hrest, hfeed⟩ :=
    Machine.feed_of_run_end (y := .inl r) (t := t) (by rw [hrun]; rfl)
  refine ⟨t', rest, ht, hrest, ?_⟩
  rw [recvLoop_pieces S conf errno hcap hk hps hs hfit es, hfeed]
  simp [loopResult]

/-- A stream on which the machine is stuck leaves the decision to the parser, which sees
    what has arrived of the undecided rest.  A line that the parser rejects with any part
    of the rest behind it ends the loop. -/
theorem recvLoop_pieces_reject (S : Simulates M parse h k inv) (conf : Conf) (errno : Errno)
    {cap : Nat} (hcap : cap < 2 ^ 64) (hk : k < h.bufs.length) {ps : List (List Byte)}
    (hps : ∀ p ∈ ps, p ≠ []) {s s' : HeadState σ} {u u' : List Byte} (hs : inv s)
    (hfit : s.done.length + u.length + ps.flatten.length ≤ cap)
    (hrun : M.run s (u ++ ps.flatten) = .stuck s' u')
    (hreject : ∀ {l t v}, M.split s' (l ++ t) = some (l, t) → u' = l ++ t ++ v →
      ∃ b m, parse s'.x (s'.heap h k cap (l ++ t)) = some (.fail, s'.x, h.setBuf k b) ∧
        b.mem = s'.done ++ m) (es : List RecvEvent) :
    ∃ b m rest, b.mem = s'.done ++ m ∧ rest <:+ ps ∧
      recvLoop conf parse k ⟨s.x, s.heap h k cap u, errno⟩ (ps.map .data ++ es)
        = (.inr (.exit .badRequest s'.x (h.setBuf k b) errno), rest.map .data ++ es) := by
  obtain ⟨t, rest, ht, hrest, hfeed⟩ :=
    Machine.feed_of_run_end (y := .inr s') (t := u') (by rw [hrun]; rfl)
  obtain ⟨l, t', hsplit, -⟩ := Machine.split_of_feed_stuck hfeed
  have hlt := M.split_eq hsplit
  rw [hlt] at hsplit ht
  obtain ⟨b, m, hparse, hm⟩ := hreject hsplit ht
  refine ⟨b, m, rest, hm, hrest, ?_⟩
  rw [recvLoop_pieces S conf errno hcap hk hps hs hfit es, hfeed, hlt]
  simp [loopResult, XwpServer.settle, hparse]

end RecvLoopPieces

/-! ## The machine of a first line -/

/-- The bytes a first line's machine takes at once: a byte of white space in front of
    the line, or the line. -/
def splitFirst : List Byte → Option (List Byte × List Byte)
  | [] => none
  | c :: cs => if isspace c then some ([c], cs) else splitLine (c :: cs)

/-- The machine of `parseFirstLine step`; `shift` moves the pointers of the record. -/
def firstLineMachine (step : σ → List Byte → Nat → Option (ParseRet × σ × List Byte × Nat))
    (shift : Nat → σ → σ) : Machine Byte (HeadState σ) (HeadResult σ) where
  split _ u := splitFirst u
  step s l :=
    match l with
    | [c] => some (.next ⟨s.x, s.done ++ [c]⟩)
    | l =>
      (step s.x l 0).bind fun y =>
        if y.1 = .again then none
        else some (.halt ⟨y.1, shift s.done.length y.2.1, s.done ++ y.2.2.1,
          s.done.length + y.2.2.2⟩)
  split_append := by
    intro s u l t h v
    cases u with
    | nil => simp [splitFirst] at h
    | cons c cs =>
        simp only [splitFirst, List.cons_append] at h ⊢
        split_ifs at h ⊢ with hc
        · simp only [Option.some.injEq, Prod.mk.injEq] at h ⊢
          exact ⟨h.1, by rw [h.2]⟩
        · exact splitLine_append h v
  split_eq := by
    intro s u l t h
    cases u with
    | nil => simp [splitFirst] at h
    | cons c cs =>
        simp only [splitFirst] at h
        split_ifs at h with hc
        · simp only [Option.some.injEq, Prod.mk.injEq] at h
          simp [← h.1, ← h.2]
        · exact splitLine_eq h
  split_ne_nil := by
    intro s u l t h
    cases u with
    | nil => simp [splitFirst] at h
    | cons c cs =>
        simp only [splitFirst] at h
        split_ifs at h with hc
        · simp only [Option.some.injEq, Prod.mk.injEq] at h
          simp [← h.1]
        · exact splitLine_ne_nil h

section FirstLine

variable {step : σ → List Byte → Nat → Option (ParseRet × σ × List Byte × Nat)}
  {shift : Nat → σ → σ} {s : HeadState σ}

/-- White space in front of the first line is consumed. -/
theorem firstLineMachine_skip {ws : List Byte} (hws : ∀ c ∈ ws, isspace c = true)
    (s : HeadState σ) (u : List Byte) :
    (firstLineMachine step shift).run s (ws ++ u)
      = (firstLineMachine step shift).run ⟨s.x, s.done ++ ws⟩ u := by
  induction ws generalizing s with
  | nil => simp
  | cons c ws ih =>
      have hsplit : (firstLineMachine step shift).split s (c :: ws ++ u) = some ([c], ws ++ u) := by
        simp [firstLineMachine, splitFirst, hws c (by simp)]
      have hstep : (firstLineMachine step shift).step s [c]
          = some (.next ⟨s.x, s.done ++ [c]⟩) := rfl
      rw [Machine.run_of_next hsplit hstep, ih (fun x hx => hws x (by simp [hx]))]
      simp

theorem IsLine.of_splitLine {u l t : List Byte} (h : splitLine u = some (l, t)) : IsLine l := by
  obtain ⟨a, rfl, -, hlf, hz⟩ := splitLine_eq_some_iff.mp h
  refine ⟨⟨a, rfl, hlf⟩, ?_⟩
  simp only [List.mem_append, hz, List.mem_singleton, false_or]
  decide

/-- A line that does not start with white space is not a single byte. -/
theorem splitLine_long {c : Byte} {cs l t : List Byte} (hc : isspace c = false)
    (h : splitLine (c :: cs) = some (l, t)) : ∃ d ds, l = c :: d :: ds := by
  obtain ⟨a, rfl, hu, -, -⟩ := splitLine_eq_some_iff.mp h
  cases a with
  | nil =>
      simp only [List.nil_append, List.cons.injEq] at hu
      rw [hu.1] at hc
      simp at hc
  | cons x xs =>
      simp only [List.cons_append, List.cons.injEq] at hu
      refine ⟨(xs ++ [LF]).head (by simp), (xs ++ [LF]).tail, ?_⟩
      simp [hu.1]

theorem IsLine.split {l : List Byte} (hl : IsLine l) (t : List Byte) :
    splitLine (l ++ t) = some (l, t) := by
  obtain ⟨⟨a, rfl, hlf⟩, hz⟩ := hl
  exact splitLine_eq_some_iff.mpr ⟨a, rfl, by simp, hlf, fun hmem => hz (by simp [hmem])⟩

theorem IsLine.head_append {l : List Byte} (hl : IsLine l)
    (hc : ∀ c ∈ l.head?, isspace c = false) (t : List Byte) :
    ∀ c ∈ (l ++ t).head?, isspace c = false := by
  cases l with
  | nil => exact absurd hl.length_pos (by simp)
  | cons c cs => exact hc

/-- A stream is white space and what does not start with it. -/
theorem exists_skip (u : List Byte) :
    ∃ ws v, u = ws ++ v ∧ (∀ c ∈ ws, isspace c = true) ∧ ∀ c ∈ v.head?, isspace c = false := by
  refine ⟨u.takeWhile isspace, u.dropWhile isspace, List.takeWhile_append_dropWhile.symm,
    fun c hc => List.mem_takeWhile_imp hc, fun c hc => ?_⟩
  have := List.head?_dropWhile_not isspace u
  rw [Option.mem_def.mp hc] at this
  simpa using this

theorem splitFirst_of_head {v : List Byte} (hv : ∀ c ∈ v.head?, isspace c = false) :
    splitFirst v = splitLine v := by
  cases v with
  | nil => rfl
  | cons c cs => simp [splitFirst, hv c rfl]

/-- What the machine does on a line. -/
theorem firstLineMachine_step {l : List Byte} (hl : IsLine l)
    (hc : ∀ c ∈ l.head?, isspace c = false) (s : HeadState σ) :
    (firstLineMachine step shift).step s l
      = (step s.x l 0).bind fun y => if y.1 = .again then none
        else some (.halt ⟨y.1, shift s.done.length y.2.1, s.done ++ y.2.2.1,
          s.done.length + y.2.2.2⟩) := by
  cases l with
  | nil => exact absurd hl.length_pos (by simp)
  | cons c cs =>
      obtain ⟨d, ds, hcs⟩ := splitLine_long (hc c rfl) (hl.split [])
      rw [hcs]
      rfl

/-- The machine on white space and a line that the step decides. -/
theorem firstLineMachine_line {ws l t m : List Byte} {ret : ParseRet} {x' : σ} {p : Nat}
    (hws : ∀ c ∈ ws, isspace c = true) (hl : IsLine l) (hc : ∀ c ∈ l.head?, isspace c = false)
    (hstep : step s.x l 0 = some (ret, x', m, p)) (hret : ret ≠ .again) :
    (firstLineMachine step shift).run s (ws ++ (l ++ t))
      = .halt ⟨ret, shift (s.done ++ ws).length x', s.done ++ ws ++ m,
          (s.done ++ ws).length + p⟩ t := by
  rw [firstLineMachine_skip hws]
  exact Machine.run_of_halt ((splitFirst_of_head (hl.head_append hc t)).trans (hl.split t))
    (by rw [firstLineMachine_step hl hc, hstep, Option.bind_some, if_neg hret])

theorem headBuf_mem_split {cap : Nat} {done ws u : List Byte}
    (hfit : done.length + (ws ++ u).length ≤ cap) :
    ∃ n, (headBuf cap done (ws ++ u) done.length).mem
      = (done ++ ws) ++ (u ++ NUL :: List.replicate n NUL) ∧
      n + 1 = cap + 1 - (done.length + (ws ++ u).length) := by
  refine ⟨cap - (done.length + (ws ++ u).length), ?_, by omega⟩
  have hn : cap + 1 - (done.length + (ws ++ u).length)
      = cap - (done.length + (ws ++ u).length) + 1 := by omega
  simp only [headBuf, hn, List.replicate_succ]
  simp

/-- The parser skips the white space. -/
theorem parseFirstLine_skip {h : Heap} {k cap : Nat} (hk : k < h.bufs.length) {ws u : List Byte}
    (hws : ∀ c ∈ ws, isspace c = true) (hu : ∀ c ∈ u.head?, isspace c = false)
    (hfit : s.done.length + (ws ++ u).length ≤ cap) :
    parseFirstLine step k s.x (s.heap h k cap (ws ++ u))
      = (step s.x (headBuf cap s.done (ws ++ u) s.done.length).mem (s.done ++ ws).length).map
          fun y => (y.1, y.2.1, h.setBuf k
            { headBuf cap s.done (ws ++ u) s.done.length with mem := y.2.2.1, pos := y.2.2.2 }) := by
  obtain ⟨n, hmem, -⟩ := headBuf_mem_split hfit
  have hskip : skipSpace (headBuf cap s.done (ws ++ u) s.done.length).mem s.done.length
      (s.done.length + (ws ++ u).length) = some (s.done ++ ws).length := by
    rw [hmem, List.append_assoc]
    cases u with
    | nil =>
        exact skipSpace_append hws (by simp) (Or.inr (by simp))
    | cons c cs =>
        exact skipSpace_append hws (by simp) (Or.inl (hu c rfl))
  have hpos : (headBuf cap s.done (ws ++ u) s.done.length).pos = s.done.length := rfl
  have hlast : (headBuf cap s.done (ws ++ u) s.done.length).last
      = s.done.length + (ws ++ u).length := rfl
  simp only [parseFirstLine, HeadState.heap, Heap.buf_setBuf hk, hpos, hlast, hskip,
    Option.bind_eq_bind, Option.bind_some, Option.pure_def, Heap.setBuf_setBuf]
  rcases step s.x (headBuf cap s.done (ws ++ u) s.done.length).mem (s.done ++ ws).length with _ | y
    <;> rfl

/-- Skipped white space may be taken for consumed bytes. -/
theorem parseFirstLine_consume {h : Heap} {k cap : Nat} (hk : k < h.bufs.length)
    {ws u : List Byte} (hws : ∀ c ∈ ws, isspace c = true) (hu : ∀ c ∈ u.head?, isspace c = false)
    (hfit : s.done.length + (ws ++ u).length ≤ cap) :
    parseFirstLine step k s.x (s.heap h k cap (ws ++ u))
      = parseFirstLine step k s.x ((HeadState.mk s.x (s.done ++ ws)).heap h k cap u) := by
  have hskip := @parseFirstLine_skip _ step ⟨s.x, s.done ++ ws⟩ _ _ _ hk [] _ (by simp) hu
    (by simpa [Nat.add_assoc] using hfit)
  simp only [List.nil_append, List.append_nil] at hskip
  rw [parseFirstLine_skip hk hws hu hfit, hskip]
  simp [headBuf, Nat.add_assoc]

/-- What a first line's step must satisfy: without a line end it asks for more, and on
    a line that it decides it does the same wherever the line stands. -/
structure FirstLineStep
    (step : σ → List Byte → Nat → Option (ParseRet × σ × List Byte × Nat))
    (shift : Nat → σ → σ) (inv : σ → Prop) : Prop where
  again : ∀ {x m pos}, findNextEol m pos = some none → step x m pos = some (.again, x, m, pos)
  length : ∀ {x l ret x' m p}, inv x → IsLine l → step x l 0 = some (ret, x', m, p) →
    m.length = l.length
  frame : ∀ {x l ret x' m p}, inv x → IsLine l → step x l 0 = some (ret, x', m, p) →
    ∀ pre post, step x (pre ++ l ++ post) pre.length
      = some (ret, shift pre.length x', pre ++ m ++ post, pre.length + p)

theorem simulates_firstLine {inv : σ → Prop} (F : FirstLineStep step shift inv) {h : Heap}
    {k : Nat} (hk : k < h.bufs.length) :
    Simulates (firstLineMachine step shift) (parseFirstLine step k) h k (fun s => inv s.x) := by
  refine .of_run fun {cap s u} hcap hs hfit => ?_
  obtain ⟨ws, u, rfl, hws, hu⟩ := exists_skip u
  obtain ⟨n, hmem, hn⟩ := headBuf_mem_split hfit
  have hparse := @parseFirstLine_skip _ step _ _ _ _ hk _ _ hws hu hfit
  rw [hmem] at hparse
  rw [firstLineMachine_skip hws]
  have hbuf : ∀ m t p, m.length + t.length = (s.done ++ ws ++ u).length →
      { headBuf cap s.done (ws ++ u) s.done.length with
        mem := m ++ (t ++ NUL :: List.replicate n NUL), pos := p } = headBuf cap m t p := by
    intro m t p hlen
    simp only [List.length_append] at hlen hn
    rw [@headBuf_eq cap n m t (by omega) p]
    simp only [headBuf, List.length_append, Buf.mk.injEq, true_and, and_true]
    omega
  -- behind the white space the machine and the parser look at the same line
  have hsplit := splitFirst_of_head hu
  rcases hline : splitLine u with _ | ⟨l, t⟩
  -- no line yet: both wait for more
  · have hnone : (firstLineMachine step shift).split ⟨s.x, s.done ++ ws⟩ u = none :=
      hsplit.trans hline
    rw [Machine.run_of_split_none hnone]
    refine ⟨hs, by simp [Nat.add_assoc], ?_⟩
    rw [hparse,
      F.again (findNextEol_of_splitLine_none hline (s.done ++ ws) (List.replicate n NUL))]
    simp only [Option.map_some, hbuf (s.done ++ ws) u _ (by simp [Nat.add_assoc]),
      HeadState.heap]
  · have hsome : (firstLineMachine step shift).split ⟨s.x, s.done ++ ws⟩ u = some (l, t) :=
      hsplit.trans hline
    have hl := IsLine.of_splitLine hline
    have hut := splitLine_eq hline
    have hc : ∀ c ∈ l.head?, isspace c = false := by
      cases l with
      | nil => simp
      | cons c cs =>
          rw [hut] at hu
          exact hu
    have hmstep := @firstLineMachine_step _ step shift _ hl hc ⟨s.x, s.done ++ ws⟩
    have hstuck := @parseFirstLine_consume _ step _ _ _ _ hk _ _ hws hu hfit
    -- a line is there; the step inside the block is the one on the line alone, moved
    rcases hstep : step s.x l 0 with _ | ⟨ret, x', m, p⟩
    · rw [Machine.run_of_stuck hsome (by rw [hmstep, hstep]; rfl)]
      exact ⟨hs, by simp [Nat.add_assoc], hstuck⟩
    · by_cases hret : ret = .again
      · rw [Machine.run_of_stuck hsome (by rw [hmstep, hstep]; simp [hret])]
        exact ⟨hs, by simp [Nat.add_assoc], hstuck⟩
      · rw [Machine.run_of_halt hsome (by rw [hmstep, hstep, Option.bind_some, if_neg hret])]
        have hmlen := F.length hs hl hstep
        have hframe := F.frame hs hl hstep (s.done ++ ws) (t ++ NUL :: List.replicate n NUL)
        have hmem' : s.done ++ ws ++ (u ++ NUL :: List.replicate n NUL)
            = s.done ++ ws ++ l ++ (t ++ NUL :: List.replicate n NUL) := by simp [hut]
        have hlen : (s.done ++ ws ++ m).length + t.length = (s.done ++ ws ++ u).length := by
          simp [hut, hmlen, Nat.add_assoc]
        refine ⟨hret, by simpa [Nat.add_assoc] using hlen, ?_⟩
        rw [hparse, hmem', hframe]
        simp only [Option.map_some, hbuf _ t _ hlen, HeadResult.heap]

end FirstLine

/-- The machine of the request line. -/
def requestLineMachine (k : Nat) : Machine Byte (HeadState RequestLine) (HeadResult RequestLine) :=
  firstLineMachine (requestLineStep k) RequestLine.shift

theorem requestLineStep_firstLine (k : Nat) :
    FirstLineStep (requestLineStep k) RequestLine.shift (· = {}) where
  again h := by simp [requestLineStep, h]
  length := by
    rintro _ l ret x' m p rfl hl h
    obtain ⟨s₁, w₁, e₁, r₁, h₁, s₂, w₂, e₂, r₂, h₂, s₃, w₃, e₃, r₃, h₃, -⟩ :=
      hasWords_of_requestLineStep hl h
    obtain ⟨ret', x'', m', h', -, hlen, -⟩ := requestLineStep_words (k := k) hl h₁ h₂ h₃
    rw [h, Option.some.injEq] at h'
    simp only [Prod.mk.injEq] at h'
    rw [h'.2.2.1, hlen]
  frame := by
    rintro _ l ret x' m p rfl - h pre post
    exact requestLineStep_frame h pre post

theorem simulates_requestLine {h : Heap} {k : Nat} (hk : k < h.bufs.length) :
    Simulates (requestLineMachine k) (httpParseRequestLine k) h k (fun s => s.x = {}) :=
  simulates_firstLine (requestLineStep_firstLine k) hk

/-- The machine of the status line. -/
def statusLineMachine : Machine Byte (HeadState Int) (HeadResult Int) :=
  firstLineMachine statusLineStore fun _ x => x

theorem statusLineStore_firstLine : FirstLineStep statusLineStore (fun _ x => x) fun _ => True where
  again h := by simp [statusLineStore, statusLineStep, h]
  length := by
    intro x l ret x' m p _ hl h
    simp only [statusLineStore, Option.map_eq_some_iff] at h
    obtain ⟨y, hy, h⟩ := h
    obtain ⟨s₁, w₁, e₁, r₁, h₁, s₂, w₂, e₂, r₂, h₂, -⟩ := hasWords_of_statusLineStep hl hy
    rw [statusLineStep_words hl h₁ h₂, Option.some.injEq] at hy
    subst hy
    simp only [Prod.mk.injEq] at h
    rw [← h.2.2.1, h₁.eq, h₂.eq]
    simp
  frame := by
    intro x l ret x' m p _ _ h pre post
    simp only [statusLineStore, Option.map_eq_some_iff] at h
    obtain ⟨⟨ret', st, m', p'⟩, hy, h⟩ := h
    simp only [Prod.mk.injEq] at h
    obtain ⟨rfl, rfl, rfl, rfl⟩ := h
    have := statusLineStep_frame hy pre post
    simp only [Nat.add_zero] at this
    simp only [statusLineStore, this, Option.map_some]

theorem simulates_statusLine {h : Heap} {k : Nat} (hk : k < h.bufs.length) :
    Simulates statusLineMachine (httpParseStatusLine k) h k (fun _ => True) :=
  simulates_firstLine statusLineStore_firstLine hk

/-! ## The machine of the header lines -/

/-- A sink that reads only strings of the bytes already consumed. -/
structure LocalSink (set : HeaderSink σ) (h : Heap) (k : Nat) (inv : σ → List Byte → Prop) :
    Prop where
  append : ∀ {x m}, inv x m → ∀ m', inv x (m ++ m')
  keeps : ∀ {x m off len value}, inv x m → (strAt m off).isSome →
    inv (set (h.setBuf k ⟨m, 0, 0, 0⟩) x ⟨.buf k off, len⟩ value) m
  reads : ∀ {x m off len value}, inv x m → (strAt m off).isSome → ∀ post pos last end_,
    set (h.setBuf k ⟨m ++ post, pos, last, end_⟩) x ⟨.buf k off, len⟩ value
      = set (h.setBuf k ⟨m, 0, 0, 0⟩) x ⟨.buf k off, len⟩ value
  blind : ∀ {x name value b pos}, set (h.setBuf k { b with pos := pos }) x name value
    = set (h.setBuf k b) x name value

/-- The machine of `http_parse_header_line` with the sink `set`.  A line alone never
    makes the parser fail. -/
def headerMachine (set : HeaderSink σ) (h : Heap) (k : Nat) :
    Machine Byte (HeadState σ) (HeadResult σ) where
  split _ u := splitLine u
  step s l :=
    match headerStep l 0 with
    | some (.done _) => some (.halt ⟨.done, s.x, s.done ++ l, (s.done ++ l).length⟩)
    | some (.skip _) => some (.next ⟨s.x, s.done ++ l⟩)
    | some (.header m name value _) =>
      some (.next ⟨set (h.setBuf k ⟨s.done ++ m, 0, 0, 0⟩) s.x
        ((name.shift s.done.length).str k)
        ((value.map fun v => (v.shift s.done.length).str k).getD .null), s.done ++ m⟩)
    | _ => none
  split_append h := splitLine_append h
  split_eq h := splitLine_eq h
  split_ne_nil h := splitLine_ne_nil h

/-- What a round of the header loop comes to on a line that it decides. -/
theorem headerStep_cases (k : Nat) {l : List Byte} (hl : IsLine l) (hlen : l.length < 2 ^ 64)
    {st : HeaderStep} (h : headerStep l 0 = some st) :
    st = .done l.length ∨ st = .skip l.length ∨
      ∃ m name value, st = .header m name value l.length ∧ m.length = l.length ∧
        (name.str k).InLine k l m ∧ ∀ v ∈ value, (v.str k).InLine k l m := by
  rcases hasColon_of_headerStep hl h with hb | ⟨sp, c, u, ds, w, e, rest, hlu, hsp, hc, htok⟩
  · rcases headerStep_blank hl hb with h' | h' <;> rw [h, Option.some.injEq] at h'
    · exact Or.inl h'
    · exact Or.inr (Or.inl h')
  · obtain ⟨m, value, h', hm, hname, hvalue, -⟩ := headerStep_colon k hl hlu hsp hc htok hlen
    rw [h, Option.some.injEq] at h'
    exact Or.inr (Or.inr ⟨m, _, value, h', hm, hname, hvalue⟩)

section HeaderLines

variable {set : HeaderSink σ} {h : Heap} {k : Nat} {inv : σ → List Byte → Prop}

/-- Fuel for the bytes left is enough. -/
theorem headerLines_fuel {last f₁ f₂ pos : Nat} {x : σ} {h : Heap} (h₁ : last - pos ≤ f₁)
    (h₂ : last - pos ≤ f₂) :
    headerLines set k last f₁ pos x h = headerLines set k last f₂ pos x h := by
  induction f₁ generalizing f₂ pos x h with
  | zero =>
      have hle : last ≤ pos := by omega
      cases f₂ <;> simp only [headerLines, hle, if_true]
  | succ f₁ ih =>
      cases f₂ with
      | zero =>
          have hle : last ≤ pos := by omega
          simp only [headerLines, hle, if_true]
      | succ f₂ =>
          simp only [headerLines]
          split
          · rfl
          · split <;> try rfl
            · next hst =>
              have := headerStep_advance hst rfl
              exact ih (by omega) (by omega)
            · next hst =>
              have := headerStep_advance hst rfl
              exact ih (by omega) (by omega)

/-- The loop does not look at the `pos` of the buffer. -/
theorem headerLines_pos (L : LocalSink set h k inv) (hk : k < h.bufs.length) {last fuel pos : Nat}
    {x : σ} (b : Buf) (p : Nat) :
    headerLines set k last fuel pos x (h.setBuf k { b with pos := p })
      = (headerLines set k last fuel pos x (h.setBuf k b)).map fun y =>
          (y.1, y.2.1, y.2.2.1, h.setBuf k { y.2.2.2.buf k with pos := p }) := by
  induction fuel generalizing pos x b with
  | zero => simp [headerLines, Heap.buf_setBuf hk]
  | succ fuel ih =>
      simp only [headerLines, Heap.buf_setBuf hk, Heap.setBuf_setBuf]
      split
      · simp [Heap.buf_setBuf hk]
      · rcases headerStep b.mem pos with _ | st
        · rfl
        · rcases st with _ | p' | p' | ⟨m, p'⟩ | ⟨m, name, value, p'⟩
          · simp [Heap.buf_setBuf hk]
          · simp [Heap.buf_setBuf hk]
          · exact ih b
          · simp [Heap.buf_setBuf hk]
          · have hset := @LocalSink.blind _ _ _ _ _ L x (name.str k)
              ((value.map (Tok.str k)).getD .null) { b with mem := m } p
            simp only [hset]
            exact ih { b with mem := m }

theorem headerLines_run (L : LocalSink set h k inv) (hk : k < h.bufs.length) (z : List Byte)
    (pos₀ last e : Nat) (hlast : last < 2 ^ 64) (fuel : Nat) {s : HeadState σ} {u : List Byte}
    (hs : inv s.x s.done) (hfit : s.done.length + u.length = last) (hfuel : u.length ≤ fuel) :
    match (headerMachine set h k).run s u with
    | .more s' u' => inv s'.x s'.done ∧ s'.done.length + u'.length = last ∧
        headerLines set k last fuel s.done.length s.x
            (h.setBuf k ⟨s.done ++ (u ++ NUL :: z), pos₀, last, e⟩)
          = some (.again, s'.done.length, s'.x,
              h.setBuf k ⟨s'.done ++ (u' ++ NUL :: z), pos₀, last, e⟩)
    | .halt r t => r.ret ≠ .again ∧ r.done.length + t.length = last ∧
        headerLines set k last fuel s.done.length s.x
            (h.setBuf k ⟨s.done ++ (u ++ NUL :: z), pos₀, last, e⟩)
          = some (r.ret, r.pos, r.x, h.setBuf k ⟨r.done ++ (t ++ NUL :: z), pos₀, last, e⟩)
    | .stuck s' u' => inv s'.x s'.done ∧ s'.done.length + u'.length = last ∧
        headerLines set k last fuel s.done.length s.x
            (h.setBuf k ⟨s.done ++ (u ++ NUL :: z), pos₀, last, e⟩)
          = headerLines set k last u'.length s'.done.length s'.x
              (h.setBuf k ⟨s'.done ++ (u' ++ NUL :: z), pos₀, last, e⟩) := by
  -- on the rounds of the loop; each takes one line, which the machine takes in one step
  induction fuel generalizing s u with
  | zero =>
      have hu : u = [] := List.length_eq_zero_iff.mp (by omega)
      subst hu
      rw [Machine.run_of_split_none (by rfl)]
      exact ⟨hs, hfit, rfl⟩
  | succ fuel ih =>
      rcases hline : splitLine u with _ | ⟨l, t⟩
      · rw [Machine.run_of_split_none (show (headerMachine set h k).split s u = none from hline)]
        refine ⟨hs, hfit, ?_⟩
        have hnone := findNextEol_of_splitLine_none hline s.done z
        have hagain : headerStep (s.done ++ (u ++ NUL :: z)) s.done.length = some .again := by
          simp [headerStep, hnone]
        simp only [headerLines, Heap.buf_setBuf hk, hagain]
        split <;> rfl
      · have hsome : (headerMachine set h k).split s u = some (l, t) := hline
        have hl := IsLine.of_splitLine hline
        have hut := splitLine_eq hline
        have hpos := hl.length_pos
        have hlens : u.length = l.length + t.length := by simp [hut]
        have hmem : s.done ++ (u ++ NUL :: z) = s.done ++ l ++ (t ++ NUL :: z) := by simp [hut]
        have hlt : ¬ last ≤ s.done.length := by omega
        -- the round sees the line inside the block; `headerStep_frame` moves it there
        rcases hst : headerStep l 0 with _ | st
        · rw [Machine.run_of_stuck hsome (by simp [headerMachine, hst])]
          exact ⟨hs, hfit, headerLines_fuel (by omega) (by omega)⟩
        · have hframe := headerStep_frame hst s.done (t ++ NUL :: z)
          simp only [Nat.add_zero] at hframe
          rcases headerStep_cases k hl (by omega) hst with rfl | rfl |
            ⟨m, name, value, rfl, hm, hname, hvalue⟩
          · rw [Machine.run_of_halt (r := ⟨.done, s.x, s.done ++ l, (s.done ++ l).length⟩) hsome
              (by simp only [headerMachine, hst])]
            refine ⟨by simp, by simp only [List.length_append]; omega, ?_⟩
            simp only [headerLines, Heap.buf_setBuf hk, hmem, hframe, HeaderStep.frame, hlt,
              if_false, List.length_append]
          · rw [@Machine.run_of_next _ _ _ _ _ ⟨s.x, s.done ++ l⟩ _ _ _ hsome
              (by simp only [headerMachine, hst])]
            have hstep : headerLines set k last (fuel + 1) s.done.length s.x
                (h.setBuf k ⟨s.done ++ (u ++ NUL :: z), pos₀, last, e⟩)
                = headerLines set k last fuel (s.done ++ l).length s.x
                  (h.setBuf k ⟨(s.done ++ l) ++ (t ++ NUL :: z), pos₀, last, e⟩) := by
              simp only [headerLines, Heap.buf_setBuf hk, hmem, hframe, HeaderStep.frame, hlt,
                if_false, List.length_append]
            rw [hstep]
            exact ih (s := ⟨s.x, s.done ++ l⟩) (L.append hs l)
              (by simp only [List.length_append]; omega) (by omega)
          · rw [@Machine.run_of_next _ _ _ _ _ ⟨set (h.setBuf k ⟨s.done ++ m, 0, 0, 0⟩) s.x
                ((name.shift s.done.length).str k)
                ((value.map fun v => (v.shift s.done.length).str k).getD .null), s.done ++ m⟩
                _ _ _ hsome (by simp only [headerMachine, hst])]
            -- the name is a string of the block
            have hstr : (strAt (s.done ++ m) (s.done.length + name.off)).isSome := by
              have := strAt_frame hname.2.2 s.done []
              simp only [List.append_nil] at this
              simp [this]
            -- the sink gets the strings of the line, which it can read in the block and in front of it
            have hinv := L.append hs m
            have hreads := @LocalSink.reads _ _ _ _ _ L _ _ _ name.len
              ((value.map fun v => (v.shift s.done.length).str k).getD .null) hinv hstr
              (t ++ NUL :: z) pos₀ last e
            have hstep : headerLines set k last (fuel + 1) s.done.length s.x
                (h.setBuf k ⟨s.done ++ (u ++ NUL :: z), pos₀, last, e⟩)
                = headerLines set k last fuel (s.done ++ m).length
                  (set (h.setBuf k ⟨s.done ++ m, 0, 0, 0⟩) s.x
                    ((name.shift s.done.length).str k)
                    ((value.map fun v => (v.shift s.done.length).str k).getD .null))
                  (h.setBuf k ⟨(s.done ++ m) ++ (t ++ NUL :: z), pos₀, last, e⟩) := by
              simp only [headerLines, Heap.buf_setBuf hk, hmem, hframe, HeaderStep.frame, hlt,
                if_false, Heap.setBuf_setBuf, List.length_append, hm, Option.map_map]
              congr 1
            rw [hstep]
            exact ih (s := ⟨_, s.done ++ m⟩) (L.keeps hinv hstr)
              (by simp only [List.length_append]; omega) (by omega)

theorem simulates_header (L : LocalSink set h k inv) (hk : k < h.bufs.length) :
    Simulates (headerMachine set h k) (httpParseHeaderLine set k) h k
      (fun s => inv s.x s.done) := by
  refine .of_run fun {cap s u} hcap hs hfit => ?_
  obtain ⟨n, hn⟩ := Nat.exists_eq_add_of_le hfit
  have hbuf := headBuf_eq hn.symm s.done.length
  have hresult : ∀ m t p, m.length + t.length = s.done.length + u.length →
      (⟨m ++ (t ++ NUL :: List.replicate n NUL), p, s.done.length + u.length, cap⟩ : Buf)
        = headBuf cap m t p := by
    intro m t p hlen
    rw [@headBuf_eq cap n m t (by omega) p, hlen]
  have hfuel : s.done.length + u.length - s.done.length = u.length := by omega
  have hrun := headerLines_run L hk (List.replicate n NUL) s.done.length
    (s.done.length + u.length) cap (by omega) u.length hs rfl (Nat.le_refl _)
  rcases hM : (headerMachine set h k).run s u with ⟨s', u'⟩ | ⟨r, t⟩ | ⟨s', u'⟩
  · rw [hM] at hrun
    obtain ⟨hinv, hlen, hlines⟩ := hrun
    refine ⟨hinv, hlen, ?_⟩
    simp only [httpParseHeaderLine, HeadState.heap, hbuf, Heap.buf_setBuf hk, hfuel, hlines,
      Option.bind_eq_bind, Option.bind_some, Option.pure_def, Heap.setBuf_setBuf,
      hresult s'.done u' _ hlen]
    rfl
  · rw [hM] at hrun
    obtain ⟨hne, hlen, hlines⟩ := hrun
    refine ⟨hne, hlen, ?_⟩
    simp only [httpParseHeaderLine, HeadState.heap, HeadResult.heap, hbuf, Heap.buf_setBuf hk,
      hfuel, hlines, Option.bind_eq_bind, Option.bind_some, Option.pure_def,
      Heap.setBuf_setBuf, hresult r.done t _ hlen]
    rfl
  · rw [hM] at hrun
    obtain ⟨hinv, hlen, hlines⟩ := hrun
    refine ⟨hinv, hlen, ?_⟩
    -- the rounds do not look at `pos`, which the parser has not moved here
    have hpos := @headerLines_pos _ _ _ _ _ L hk (s.done.length + u.length) u'.length
      s'.done.length s'.x (headBuf cap s'.done u' s'.done.length)
    have hbuf' : (⟨s'.done ++ (u' ++ NUL :: List.replicate n NUL), s.done.length,
        s.done.length + u.length, cap⟩ : Buf)
        = { headBuf cap s'.done u' s'.done.length with pos := s.done.length } :=
      hresult s'.done u' s.done.length hlen
    have hlast : (headBuf cap s'.done u' s'.done.length).last = s.done.length + u.length := hlen
    have hfuel' : s.done.length + u.length - s'.done.length = u'.length := by omega
    have hself := hpos s'.done.length
    have hrest := hpos s.done.length
    rw [← hbuf'] at hrest
    simp only [httpParseHeaderLine, HeadState.heap, Heap.buf_setBuf hk, hlast]
    simp only [hbuf, hfuel, hlines, hrest]
    rw [show (headBuf cap s'.done u' s'.done.length).pos = s'.done.length from rfl, hfuel',
      show h.setBuf k (headBuf cap s'.done u' s'.done.length)
        = h.setBuf k { headBuf cap s'.done u' s'.done.length with pos := s'.done.length } from rfl,
      hself]
    simp only [Option.bind_eq_bind, Option.bind_map, Function.comp_def, Heap.buf_setBuf hk,
      Heap.setBuf_setBuf]

end HeaderLines

end XwpServer
