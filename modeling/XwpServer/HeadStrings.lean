/-
  XwpServer.HeadStrings

  The strings of a parsed head.

  While the head is parsed the header buffer holds the bytes of the stream, except
  that terminators have been written over some of them.  A string that a parser has
  recorded is a piece of one line of the stream, and its terminator stands behind
  it (`Str.OfLine`); the bytes behind the head are the stream's own.
-/

import XwpServer.HeadRun

namespace XwpServer

open CString Scan LineParser

/-! ## Lines of a stream -/

/-- The bytes `a` to `b` of the stream `s` are one line with its line feed. -/
def LineAt (s : List Byte) (a b : Nat) : Prop :=
  ∃ pre l post, s = pre ++ (l ++ post) ∧ a = pre.length ∧ b = a + l.length ∧ IsLine l ∧
    (pre = [] ∨ ∃ p, pre = p ++ [LF])

theorem LineAt.append {s : List Byte} {a b : Nat} (h : LineAt s a b) (t : List Byte) :
    LineAt (s ++ t) a b := by
  obtain ⟨pre, l, post, rfl, ha, hb, hl, hpre⟩ := h
  exact ⟨pre, l, post ++ t, by simp, ha, hb, hl, hpre⟩

theorem LineAt.le_length {s : List Byte} {a b : Nat} (h : LineAt s a b) : b ≤ s.length := by
  obtain ⟨pre, l, post, rfl, rfl, rfl, -, -⟩ := h
  simp

/-! ## Strings of a line -/

/-- The string `x` consists of bytes of `s` between `a` and `b`; in the block `k`, which
    has become `m`, it has no zero byte and a terminator behind it. -/
def Str.OfLine (k : Nat) (m s : List Byte) (a b : Nat) (x : Str) : Prop :=
  match x.data with
  | .null => True
  | .lit c => x.len = c.length ∧ NUL ∉ c ∧ c <:+: (s.drop a).take (b - a)
  | .buf i off =>
    i = k ∧ a ≤ off ∧ off + x.len ≤ b ∧ strAt m off = some ((s.drop off).take x.len)

theorem Str.ofLine_null (k : Nat) (m s : List Byte) (a b : Nat) : Str.null.OfLine k m s a b :=
  trivial

section OfLine

variable {k : Nat} {m s : List Byte} {a b : Nat} {x : Str}

theorem Str.OfLine.append (h : x.OfLine k m s a b) (hb : b ≤ s.length) (p q : List Byte) :
    x.OfLine k (m ++ p) (s ++ q) a b := by
  rcases x with ⟨_ | ⟨i, off⟩ | c, len⟩
  · trivial
  · obtain ⟨hi, hoff, hlen, hstr⟩ := h
    change off + len ≤ b at hlen
    refine ⟨hi, hoff, hlen, ?_⟩
    change strAt (m ++ p) off = some (((s ++ q).drop off).take len)
    have hs : ((s ++ q).drop off).take len = (s.drop off).take len := by
      rw [List.drop_append_of_le_length (by omega), List.take_append_of_le_length]
      simp only [List.length_drop]
      omega
    change strAt m off = some ((s.drop off).take len) at hstr
    rw [hs, strAt_append_isSome (by simp [hstr]), hstr]
  · obtain ⟨hlen, hz, hin⟩ := h
    refine ⟨hlen, hz, ?_⟩
    rcases Nat.lt_or_ge s.length a with ha | ha
    · have h₁ : b - a = 0 := by omega
      simpa [h₁] using hin
    · rw [List.drop_append_of_le_length ha, List.take_append_of_le_length]
      · exact hin
      · simp only [List.length_drop]
        omega

/-- A line may be taken to start earlier. -/
theorem Str.OfLine.mono (h : x.OfLine k m s a b) {a' : Nat} (ha : a' ≤ a) :
    x.OfLine k m s a' b := by
  rcases x with ⟨_ | ⟨i, off⟩ | c, len⟩
  · trivial
  · obtain ⟨hi, hoff, hlen, hstr⟩ := h
    exact ⟨hi, Nat.le_trans ha hoff, hlen, hstr⟩
  · obtain ⟨hlen, hz, hin⟩ := h
    refine ⟨hlen, hz, hin.trans ?_⟩
    have hdrop : (s.drop a).take (b - a) = ((s.drop a').take (b - a')).drop (a - a') := by
      rw [List.drop_take, List.drop_drop, Nat.add_sub_cancel' ha,
        show b - a' - (a - a') = b - a by omega]
    rw [hdrop]
    exact (List.drop_suffix _ _).isInfix

/-- What a reader of the block sees of a string of a line: it is live, has no zero byte,
    and a terminator stands at its length. -/
theorem Str.OfLine.live (h : x.OfLine k m s a b) : x.data.LiveIn k m := by
  rcases x with ⟨_ | ⟨i, off⟩ | c, len⟩
  · intro off he
    cases he
  · obtain ⟨rfl, -, -, hstr⟩ := h
    intro off' he
    cases he
    change strAt m off = _ at hstr
    simp [hstr]
  · intro off he
    cases he

/-- `strlen(data) == len`. -/
theorem Str.OfLine.strlen (h : x.OfLine k m s a b) (hb : b ≤ s.length) {off : Nat}
    (hx : x.data = .buf k off) :
    ∃ c, strAt m off = some c ∧ c.length = x.len ∧ NUL ∉ c := by
  rcases x with ⟨_ | ⟨i, off'⟩ | c, len⟩ <;> cases hx
  obtain ⟨-, -, hlen, hstr⟩ := h
  change off + len ≤ b at hlen
  change strAt m off = some ((s.drop off).take len) at hstr
  refine ⟨_, hstr, ?_, (strAt_eq_some_iff.mp hstr).1⟩
  simp only [List.length_take, List.length_drop]
  omega

end OfLine

/-- A piece of a line that stands in the stream behind `pre`. -/
theorem Str.InLine.ofLine {k : Nat} {l m : List Byte} {x : Str} (h : x.InLine k l m)
    {pre d : List Byte} (hd : d.length = pre.length) (t t' : List Byte) :
    (x.shift d.length).OfLine k (d ++ m ++ t') (pre ++ (l ++ t)) pre.length
      (pre.length + l.length) := by
  have hf := h.frame hd t t'
  rw [hd]
  rcases x with ⟨_ | ⟨i, off⟩ | c, len⟩
  · trivial
  · obtain ⟨rfl, hlt, -⟩ := h
    obtain ⟨-, -, hstr⟩ := hf
    change off + len < l.length at hlt
    refine ⟨rfl, Nat.le_add_right .., ?_, ?_⟩
    · change pre.length + off + len ≤ _
      omega
    · rw [List.append_assoc] at hstr
      simpa [List.append_assoc] using hstr
  · obtain ⟨hlen, hz, hin⟩ := h
    refine ⟨hlen, hz, ?_⟩
    rw [List.drop_left, Nat.add_sub_cancel_left, List.take_left]
    exact hin

/-! ## Texts -/

/-- The text a string denotes, with its recorded length. -/
def Heap.text (h : Heap) (s : Str) : Option (List Byte) × Nat := (h.cstr s.data, s.len)

/-- The string `x` of the block `k`, which has become `m`, reads `s`. -/
def Str.Reads (k : Nat) (m s : List Byte) (x : Str) : Prop :=
  ∃ off, x = ⟨.buf k off, s.length⟩ ∧ strAt m off = some s

theorem Str.Reads.append {k : Nat} {m s : List Byte} {x : Str} (h : x.Reads k m s)
    (p : List Byte) : x.Reads k (m ++ p) s := by
  obtain ⟨off, rfl, hs⟩ := h
  exact ⟨off, rfl, by rw [strAt_append_isSome (by simp [hs]), hs]⟩

theorem Str.Reads.text {k : Nat} {m p s : List Byte} {x : Str} (hx : x.Reads k m s) {h : Heap}
    (hk : k < h.bufs.length) {b : Buf} (hb : b.mem = m ++ p) :
    (h.setBuf k b).text x = (some s, s.length) := by
  obtain ⟨off, rfl, hs⟩ := hx.append p
  simp only [Heap.text, Heap.cstr, Heap.buf_setBuf hk, hb, cstr_of_strAt hs]

/-! ## The header lines -/

/-- A stream position at the start of a line. -/
def LineStart (o : List Byte) : Prop := o = [] ∨ ∃ p, o = p ++ [LF]

theorem IsLine.lineStart {l : List Byte} (hl : IsLine l) (o : List Byte) : LineStart (o ++ l) := by
  obtain ⟨⟨a, rfl, -⟩, -⟩ := hl
  exact Or.inr ⟨o ++ a, by simp⟩

/-- The pair of a sink call stands in one line of the stream `s`. -/
def SinkCall.OfLine (k : Nat) (m s : List Byte) (c : SinkCall) : Prop :=
  ∃ a b, LineAt s a b ∧ c.name.OfLine k m s a b ∧ c.value.OfLine k m s a b

theorem HeaderRun.prefix {k : Nat} {done u done' t : List Byte} {calls : List SinkCall}
    (h : HeaderRun k done u calls done' t) : done <+: done' := by
  induction h with
  | finish => exact List.prefix_append ..
  | skip _ _ _ ih => exact (List.prefix_append ..).trans ih
  | header _ _ _ ih => exact (List.prefix_append ..).trans ih

/-- The header lines consume the bytes in front of `t`, which they leave as they are. -/
theorem HeaderRun.consumed {k : Nat} {done u done' t : List Byte} {calls : List SinkCall}
    (h : HeaderRun k done u calls done' t) (hlen : u.length < 2 ^ 64) :
    ∃ c, u = c ++ t ∧ done'.length = done.length + c.length := by
  -- a line is as long behind the parser as in front of it
  induction h with
  | finish hline _ => exact ⟨_, splitLine_eq hline, by simp⟩
  | @skip done u l t p calls done' t' hline hstep hrest ih =>
      have hu := splitLine_eq hline
      obtain ⟨c, rfl, hc⟩ := ih (by simp [hu] at hlen; omega)
      refine ⟨l ++ c, by simp [hu], ?_⟩
      simp only [List.length_append] at hc ⊢
      omega
  | @header done u l t m name value p calls done' t' hline hstep hrest ih =>
      have hu := splitLine_eq hline
      have hlen' : l.length < 2 ^ 64 ∧ t.length < 2 ^ 64 := by
        simp only [hu, List.length_append] at hlen
        omega
      rcases headerStep_cases k (IsLine.of_splitLine hline) hlen'.1 hstep with
        h | h | ⟨m', name', value', h, hm, -⟩
      · cases h
      · cases h
      · cases h
        obtain ⟨c, rfl, hc⟩ := ih hlen'.2
        refine ⟨l ++ c, by simp [hu], ?_⟩
        simp only [List.length_append] at hc ⊢
        omega

/-- Every pair the header lines hand out stands in its own line of the stream. -/
theorem HeaderRun.ofLine {k : Nat} {done u done' t : List Byte} {calls : List SinkCall}
    (h : HeaderRun k done u calls done' t) {o : List Byte} (ho : o.length = done.length)
    (hstart : LineStart o) (hlen : u.length < 2 ^ 64) :
    ∀ c ∈ calls, c.OfLine k done' (o ++ u) := by
  -- `o` is what the stream had where `done` stands now
  induction h generalizing o with
  | finish => simp
  | @skip done u l t p calls done' t' hline hstep hrest ih =>
      have hu := splitLine_eq hline
      have hl := IsLine.of_splitLine hline
      have := ih (o := o ++ l) (by simp [ho]) (hl.lineStart o) (by simp [hu] at hlen; omega)
      simpa [hu] using this
  | @header done u l t m name value p calls done' t' hline hstep hrest ih =>
      have hu := splitLine_eq hline
      have hl := IsLine.of_splitLine hline
      have hlen' : l.length < 2 ^ 64 ∧ t.length < 2 ^ 64 := by
        simp only [hu, List.length_append] at hlen
        omega
      rcases headerStep_cases k hl hlen'.1 hstep with h | h | ⟨m', name', value', h, hm, hn, hv⟩
      · cases h
      · cases h
      · cases h
        intro c hc
        rcases List.mem_cons.mp hc with rfl | hc
        · have hline : LineAt (o ++ (l ++ t)) o.length (o.length + l.length) :=
            ⟨o, l, t, rfl, rfl, rfl, hl, hstart⟩
          -- the lines behind this one do not touch its strings
          obtain ⟨q, hq⟩ := hrest.prefix
          rw [hu, ← hq]
          have hle := hline.le_length
          refine ⟨_, _, hline, ?_, ?_⟩
          · have := (hn.ofLine (d := done) ho.symm t []).append hle q []
            simpa using this
          · rcases value with _ | v
            · trivial
            · have := ((hv v rfl).ofLine (d := done) ho.symm t []).append hle q []
              simpa using this
        · have := ih (o := o ++ l) (by simp [ho, hm]) (hl.lineStart o) hlen'.2 c hc
          simpa [hu] using this

/-! ## The header table -/

/-- The names and values of the table are among those handed out. -/
theorem mem_runCalls {h : Heap} {k : Nat} {hs : List Header} {calls : List SinkCall} {e : Header}
    (he : e ∈ runCalls httpHeaderSet h k hs calls) :
    ((∃ e' ∈ hs, e.name = e'.name) ∨ ∃ c ∈ calls, e.name = c.name) ∧
      ((∃ e' ∈ hs, e.value = e'.value) ∨ ∃ c ∈ calls, e.value = c.value) := by
  induction calls generalizing hs with
  | nil => exact ⟨Or.inl ⟨e, he, rfl⟩, Or.inl ⟨e, he, rfl⟩⟩
  | cons c calls ih =>
      obtain ⟨hname, hvalue⟩ := ih he
      constructor
      · rcases hname with ⟨e', he', hn⟩ | ⟨c', hc', hn⟩
        · rcases mem_httpHeaderSet he' with ⟨hn', -⟩ | ⟨e'', he'', hn', -⟩
          · exact Or.inr ⟨c, by simp, hn.trans hn'⟩
          · exact Or.inl ⟨e'', he'', hn.trans hn'⟩
        · exact Or.inr ⟨c', by simp [hc'], hn⟩
      · rcases hvalue with ⟨e', he', hv⟩ | ⟨c', hc', hv⟩
        · rcases mem_httpHeaderSet he' with ⟨-, hv'⟩ | ⟨e'', he'', -, hv' | hv'⟩
          · exact Or.inr ⟨c, by simp, hv.trans hv'⟩
          · exact Or.inl ⟨e'', he'', hv.trans hv'⟩
          · exact Or.inr ⟨c, by simp, hv.trans hv'⟩
        · exact Or.inr ⟨c', by simp [hc'], hv⟩

/-- The table that the calls leave is the one they would leave with all terminators in
    place: each call looks at its own name and at the names in the table. -/
theorem HeaderRun.table {k : Nat} {done u done' t : List Byte} {calls : List SinkCall}
    (hrun : HeaderRun k done u calls done' t) (hlen : u.length < 2 ^ 64) {h : Heap}
    (hk : k < h.bufs.length) {hs : List Header} (hs' : NamesIn k hs done) {b : Buf}
    {p : List Byte} (hb : b.mem = done' ++ p) :
    runCalls httpHeaderSet h k hs calls
      = calls.foldl (fun x c => httpHeaderSet (h.setBuf k b) x c.name c.value) hs := by
  -- each call reads strings that end in the lines before it or in its own
  induction hrun generalizing hs with
  | finish => rfl
  | @skip done u l t q calls done' t' hline _ _ ih =>
      have hu := splitLine_eq hline
      simp only [hu, List.length_append] at hlen
      exact ih (by omega) ((localSink_httpHeaderSet hk).append hs' l) hb
  | @header done u l t m name value q calls done' t' hline hstep hrest ih =>
      have hu := splitLine_eq hline
      simp only [hu, List.length_append] at hlen
      have L := localSink_httpHeaderSet hk
      have hlive : (strAt (done ++ m) (done.length + name.off)).isSome := by
        rcases headerStep_cases k (IsLine.of_splitLine hline) (by omega) hstep with
          h' | h' | ⟨m', name', value', h', -, hn, -⟩
        · cases h'
        · cases h'
        · cases h'
          have := strAt_frame hn.2.2 done []
          simp only [List.append_nil] at this
          simp [this]
      have hinv := L.append hs' m
      obtain ⟨z, hz⟩ := hrest.prefix
      have hcall := @LocalSink.reads _ _ _ _ _ L _ _ _ name.len
        ((value.map fun v => (v.shift done.length).str k).getD .null) hinv hlive
        (z ++ p) b.pos b.last b.end_
      have hmem : (⟨(done ++ m) ++ (z ++ p), b.pos, b.last, b.end_⟩ : Buf) = b := by
        rw [← List.append_assoc, hz, ← hb]
      rw [hmem] at hcall
      have hkeep := @LocalSink.keeps _ _ _ _ _ L _ _ _ name.len
        ((value.map fun v => (v.shift done.length).str k).getD .null) hinv hlive
      simp only [runCalls, List.foldl_cons] at ih ⊢
      rw [show (name.shift done.length).str k = ⟨.buf k (done.length + name.off), name.len⟩ from rfl]
      rw [ih (by omega) hkeep hb, hcall]

theorem runCalls_noteHeader (h : Heap) (k : Nat) (xs : List (Str × Str))
    (calls : List SinkCall) :
    runCalls noteHeader h k xs calls = xs ++ calls.map fun c => (c.name, c.value) := by
  induction calls generalizing xs with
  | nil => simp [runCalls]
  | cons c calls ih =>
      simp only [runCalls, List.foldl_cons] at ih ⊢
      rw [ih]
      simp [noteHeader]

end XwpServer
