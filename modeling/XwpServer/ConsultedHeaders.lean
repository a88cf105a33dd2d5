/-
  XwpServer.ConsultedHeaders

  The headers that are looked up behind the header lines.

  A line with nothing but white space behind its colon is recorded with a NULL value,
  and `atoi` and `strcasecmp` are handed the values of `Content-Length` and `Expect`
  without a test.  `ValuesGiven` says of the bytes of the header lines alone that none
  of these values is NULL; behind such lines `http_process_header_line` waits or returns.
-/

import XwpServer.TableTexts

namespace XwpServer

open CString Scan FirstMatch

/-! ## The names of the header lines -/

/-- The end of the head. -/
def IsBlankLine (l : List Byte) : Prop := l = [LF] ∨ l = [CR, LF]

theorem headerRest_ne_done {m : List Byte} {name : Tok} {pos eol p : Nat} :
    headerRest m name pos eol ≠ some (.done p) := by
  intro hd
  simp only [headerRest, headerValue, Option.bind_eq_bind, Option.bind_eq_some_iff] at hd
  obtain ⟨q, -, c, -, hd⟩ := hd
  split_ifs at hd
  · simp at hd
  · simp at hd
  · simp only [Option.bind_eq_some_iff] at hd
    obtain ⟨e, -, hd⟩ := hd
    split_ifs at hd <;> simp at hd

/-- The round that ends the head is the one of an empty line. -/
theorem headerStep_done {m : List Byte} {pos p : Nat} (hd : headerStep m pos = some (.done p)) :
    ∃ eol, findNextEol m pos = some (some eol) ∧
      (eol = pos ∨ (eol = pos + 1 ∧ m[pos]? = some CR ∧ m[eol]? = some LF)) := by
  simp only [headerStep, Option.bind_eq_bind, Option.bind_eq_some_iff] at hd
  obtain ⟨e, he, hd⟩ := hd
  rcases e with _ | eol
  · simp at hd
  refine ⟨eol, he, ?_⟩
  by_contra hempty
  simp only [hempty, if_false, Option.bind_eq_some_iff] at hd
  obtain ⟨q, -, c, -, hd⟩ := hd
  split_ifs at hd
  · simp at hd
  · simp at hd
  · simp only [Option.bind_eq_some_iff] at hd
    obtain ⟨⟨_ | tok, m', q'⟩, -, hd⟩ := hd
    · simp at hd
    · exact headerRest_ne_done hd

theorem isBlankLine_of_done {l : List Byte} {p : Nat} (hl : IsLine l)
    (hd : headerStep l 0 = some (.done p)) : IsBlankLine l := by
  obtain ⟨eol, heol, hempty⟩ := headerStep_done hd
  rw [hl.findNextEol, Option.some.injEq, Option.some.injEq] at heol
  obtain ⟨⟨a, rfl, -⟩, -⟩ := hl
  simp only [List.length_append, List.length_singleton, Nat.add_sub_cancel] at heol
  rcases hempty with h0 | ⟨h1, hcr, -⟩
  · have ha : a = [] := List.eq_nil_of_length_eq_zero (by omega)
    exact .inl (by simp [ha])
  · obtain ⟨c, rfl⟩ := List.length_eq_one_iff.mp (show a.length = 1 by omega)
    have hc : c = CR := by simpa using hcr
    exact .inr (by simp [hc])

/-- The names of the header lines of `u`, up to the end of the head, each with whether a
    value stands behind its colon. -/
inductive NamedLines : List Byte → List (List Byte × Bool) → Prop
  | finish {u l t} (hline : splitLine u = some (l, t)) (hblank : IsBlankLine l) : NamedLines u []
  | white {u l t ns} (hline : splitLine u = some (l, t)) (hblank : ¬ IsBlankLine l)
      (hwhite : ∀ x ∈ l, isspace x = true) (hrest : NamedLines t ns) : NamedLines u ns
  | named {u l t sp c v ds w e rest ns} (hline : splitLine u = some (l, t))
      (hl : l = sp ++ c :: v) (hsp : ∀ x ∈ sp, isspace x = true) (hc : isspace c = false)
      (htok : TokenAt (· == COLON) (c :: v) ds w e rest) (hrest : NamedLines t ns) :
      NamedLines u ((w.rdropWhile isspace, rest.any (!isspace ·)) :: ns)

/-- The pair that a line hands on: its name, and NULL when no value stands behind the colon. -/
structure SinkCall.Named (k : Nat) (m : List Byte) (n : List Byte × Bool) (c : SinkCall) :
    Prop where
  name : c.name.Reads k m n.1
  given : n.2 = true → ∃ s, c.value.Reads k m s
  absent : n.2 = false → c.value = .null

theorem SinkCall.Named.append {k : Nat} {m : List Byte} {n : List Byte × Bool} {c : SinkCall}
    (h : c.Named k m n) (p : List Byte) : c.Named k (m ++ p) n where
  name := h.name.append p
  given hn := (h.given hn).imp fun _ hs => hs.append p
  absent := h.absent

theorem SinkCall.Named.value_ne_null {k : Nat} {m : List Byte} {n : List Byte × Bool}
    {c : SinkCall} (h : c.Named k m n) : (c.value.data != .null) = n.2 := by
  cases hn : n.2 with
  | false => rw [h.absent hn]; rfl
  | true =>
      obtain ⟨s, off, hoff, -⟩ := h.given hn
      rw [hoff]
      rfl

theorem SinkCall.Named.of_mem {k : Nat} {m : List Byte} {ns : List (List Byte × Bool)}
    {calls : List SinkCall} (hall : List.Forall₂ (SinkCall.Named k m) ns calls) {c : SinkCall}
    (hc : c ∈ calls) : ∃ n, c.Named k m n := by
  induction hall with
  | nil => cases hc
  | cons hn _ ih =>
      rcases List.mem_cons.mp hc with rfl | hc
      · exact ⟨_, hn⟩
      · exact ih hc

/-- The pair of a line with a colon. -/
theorem headerStep_named {k : Nat} {l : List Byte} {st : HeaderStep} (hl : IsLine l)
    (hlen : l.length < 2 ^ 64) (hown : HasColon l) (hst : headerStep l 0 = some st) :
    ∃ sp c v ds w e rest m name value, l = sp ++ c :: v ∧ (∀ x ∈ sp, isspace x = true) ∧
      isspace c = false ∧ TokenAt (· == COLON) (c :: v) ds w e rest ∧
      st = .header m name value l.length ∧ ∀ d,
        SinkCall.Named k (d ++ m) (w.rdropWhile isspace, rest.any (!isspace ·))
          ⟨d ++ m, (name.shift d.length).str k,
            (value.map fun v => (v.shift d.length).str k).getD .null⟩ := by
  obtain ⟨sp, c, v, ds, w, e, rest, hlu, hsp, hc, htok⟩ := hown
  obtain ⟨m, value, hstep, -, hname, hin, hvalue⟩ := headerStep_colon k hl hlu hsp hc htok hlen
  rw [hst, Option.some.injEq] at hstep
  have reads : ∀ (d : List Byte) (x : Tok), (x.str k).InLine k l m →
      ((x.shift d.length).str k).Reads k (d ++ m) ((l.drop x.off).take x.len) := by
    intro d x hx
    have hstr := strAt_frame hx.2.2 d []
    rw [List.append_nil] at hstr
    refine ⟨_, ?_, hstr⟩
    have hlen : ((l.drop x.off).take x.len).length = x.len := by
      have hlt : x.off + x.len < l.length := hx.2.1
      simp only [List.length_take, List.length_drop]
      omega
    rw [hlen]
    rfl
  refine ⟨sp, c, v, ds, w, e, rest, m, _, value, hlu, hsp, hc, htok, hstep,
    fun d => ⟨?_, fun hgiven => ?_, fun habsent => ?_⟩⟩
  · -- the name is the piece of the line in front of the white space and the colon
    obtain ⟨q, hq⟩ := List.rdropWhile_prefix isspace w
    have hpiece : (l.drop (sp ++ ds).length).take (w.rdropWhile isspace).length
        = w.rdropWhile isspace := by
      have hld : l = (sp ++ ds) ++ (w.rdropWhile isspace ++ (q ++ e :: rest)) := by
        rw [hlu, htok.eq]
        conv_lhs => rw [← hq]
        simp
      rw [hld, List.drop_left, List.take_left]
    have := reads d _ hname
    rwa [hpiece] at this
  · cases value with
    | none =>
        have hwhite : rest.any (!isspace ·) = false := by simpa using hvalue.mp rfl
        rw [hwhite] at hgiven
        cases hgiven
    | some y => exact ⟨_, reads d y (hin y rfl)⟩
  · cases value with
    | none => rfl
    | some y =>
        have hwhite : ∀ x ∈ rest, isspace x = true := by simpa using habsent
        cases hvalue.mpr hwhite

/-- The pairs that the header lines hand on are the names and values of the lines. -/
theorem HeaderRun.named {k : Nat} {done u done' t : List Byte} {calls : List SinkCall}
    (hrun : HeaderRun k done u calls done' t) (hlen : u.length < 2 ^ 64) :
    ∃ ns, NamedLines u ns ∧ List.Forall₂ (SinkCall.Named k done') ns calls := by
  induction hrun with
  | finish hline hstep =>
      exact ⟨[], .finish hline (isBlankLine_of_done (IsLine.of_splitLine hline) hstep), .nil⟩
  | @skip done u l t p calls done' t' hline hstep hrest ih =>
      have hl := IsLine.of_splitLine hline
      have hu := splitLine_eq hline
      simp only [hu, List.length_append] at hlen
      obtain ⟨ns, hns, hall⟩ := ih (by omega)
      refine ⟨ns, .white hline (fun hblank => ?_) ?_ hns, hall⟩
      · have hdone : headerStep l 0 = some (.done l.length) := by
          rcases hblank with rfl | rfl <;> rfl
        rw [hstep] at hdone
        cases hdone
      · rcases hasColon_of_headerStep hl hstep with hwhite | hown
        · exact hwhite
        · obtain ⟨_, _, _, _, _, _, _, _, _, _, -, -, -, -, h, -⟩ :=
            headerStep_named (k := k) hl (by omega) hown hstep
          cases h
  | @header done u l t m name value p calls done' t' hline hstep hrest ih =>
      have hl := IsLine.of_splitLine hline
      have hu := splitLine_eq hline
      simp only [hu, List.length_append] at hlen
      obtain ⟨ns, hns, hall⟩ := ih (by omega)
      rcases hasColon_of_headerStep hl hstep with hwhite | hown
      · rcases headerStep_blank hl hwhite with h | h <;> rw [hstep] at h <;> cases h
      · obtain ⟨sp, c, v, ds, w, e, rest, m', name', value', hlu, hsp, hc, htok, h, hnamed⟩ :=
          headerStep_named (k := k) hl (by omega) hown hstep
        cases h
        -- the lines behind this one do not touch its strings
        obtain ⟨q, rfl⟩ := hrest.prefix
        exact ⟨_, .named hline hlu hsp hc htok hns, .cons ((hnamed done).append q) hall⟩

/-! ## The values of the headers that are looked up -/

/-- The headers whose values are handed to a C string function behind the header lines. -/
def Phase.consulted : Phase → List String
  | .request => ["Content-Length", "Expect"]
  | .response => ["Content-Length"]

/-- When the header lines `u` come to the end of the head, the last line that sets one of the
    headers which are looked up then has a value. -/
def ValuesGiven (phase : Phase) (u : List Byte) : Prop :=
  ∀ ns, NamedLines u ns → ∀ name ∈ phase.consulted,
    ∀ given ∈ (puts nameHits (isNamed (bytes name))
      (ns.map fun n => ((n.1, n.1.length), n.2))).getLast?, given = true

/-- A head without header lines gives nothing to look up. -/
theorem valuesGiven_blank {u l t : List Byte} (hline : splitLine u = some (l, t))
    (hblank : IsBlankLine l) (phase : Phase) : ValuesGiven phase u := by
  intro ns hns name _ given hgiven
  cases hns with
  | finish => cases hgiven
  | white hline' hno =>
      cases hline.symm.trans hline'
      exact absurd hblank hno
  | @named u l' t' sp c v ds w e rest ns hline' hl hsp hc =>
      cases hline.symm.trans hline'
      -- a blank line has no byte that is not white space
      have hmem : c ∈ l := by simp [hl]
      have hwhite : isspace c = true := by
        have hall : (∀ x ∈ [LF], isspace x = true) ∧ ∀ x ∈ [CR, LF], isspace x = true := by
          decide +kernel
        rcases hblank with rfl | rfl
        · exact hall.1 c hmem
        · exact hall.2 c hmem
      rw [hc] at hwhite
      cases hwhite

/-- Whether a value is NULL is seen in the lines. -/
theorem headerPuts_named {h : Heap} {k : Nat} {m p : List Byte} {ns : List (List Byte × Bool)}
    {calls : List SinkCall} (hall : List.Forall₂ (SinkCall.Named k m) ns calls)
    (hk : k < h.bufs.length) {b : Buf} (hb : b.mem = m ++ p) (name : String) :
    ((h.setBuf k b).headerPuts name (calls.map fun c => (c.name, c.value))).map (·.data != .null)
      = puts nameHits (isNamed (bytes name)) (ns.map fun n => ((n.1, n.1.length), n.2)) := by
  rw [Heap.headerPuts, ← puts_map]
  congr 1
  rw [List.map_map, List.map_map]
  induction hall with
  | nil => rfl
  | @cons n c ns calls hn hall ih =>
      have htext := hn.name.text hk hb
      simp only [Heap.text, Prod.mk.injEq] at htext
      rw [List.map_cons, List.map_cons, ih]
      simp only [Function.comp_apply, Heap.keyed, Heap.nameKey, Heap.str, htext.1, htext.2,
        Option.getD_some, hn.value_ne_null]

/-- Behind lines that give the values, the lookups find no NULL, and what they find is
    terminated. -/
theorem HeaderRun.consulted {k : Nat} {done u done' t : List Byte} {calls : List SinkCall}
    (hrun : HeaderRun k done u calls done' t) (hlen : u.length < 2 ^ 64) {phase : Phase}
    (hvalues : ValuesGiven phase u) {h : Heap} (hk : k < h.bufs.length) {b : Buf} {p : List Byte}
    (hb : b.mem = done' ++ p) :
    ∀ name ∈ phase.consulted, ∀ v ∈ httpHeaderStr (h.setBuf k b)
      (runCalls httpHeaderSet h k [] calls) (.serverString name),
        ((h.setBuf k b).cstr v.data).isSome := by
  intro name hname v hv
  obtain ⟨ns, hns, hall⟩ := hrun.named hlen
  have hz : NUL ∉ bytes name := by
    have : ∀ phase : Phase, ∀ n ∈ phase.consulted, NUL ∉ bytes n := by
      rintro (_ | _) <;> decide
    exact this phase name hname
  -- the names that were handed on are texts with their lengths
  have hends : ∀ e ∈ (calls.map fun c => (c.name, c.value)).map (h.setBuf k b).keyed, e.1.Ends := by
    refine keyed_ends fun q hq => ?_
    obtain ⟨c, hc, rfl⟩ := List.mem_map.mp hq
    obtain ⟨n, hn⟩ := SinkCall.Named.of_mem hall hc
    obtain ⟨off, hoff, hstr⟩ := hn.name.append p
    refine ⟨k, off, by rw [hoff], n.1, ?_, by rw [hoff]; exact Nat.lt_succ_self _⟩
    rw [Heap.buf_setBuf hk, hb]
    exact hstr
  have htable : runCalls httpHeaderSet h k [] calls
      = setAll (h.setBuf k b) (calls.map fun c => (c.name, c.value)) := by
    rw [hrun.table hlen hk (by simp [NamesIn]) hb, setAll, List.foldl_map]
  rw [htable, httpHeaderStr_setAll hz hends] at hv
  have hgiven := congrArg List.getLast? (headerPuts_named hall hk hb name)
  rw [List.getLast?_map, hv, Option.map_some] at hgiven
  have hnull : v.data ≠ .null := by simpa using hvalues ns hns name hname _ hgiven.symm
  -- the value is the one of a line
  obtain ⟨_, -, -, q, hq, rfl, -⟩ := mem_puts (List.mem_of_getLast? hv)
  simp only [List.mem_map] at hq
  obtain ⟨_, ⟨c, hc, rfl⟩, rfl⟩ := hq
  obtain ⟨n, hn⟩ := SinkCall.Named.of_mem hall hc
  have hgiven : n.2 = true := by
    rw [← hn.value_ne_null]
    simpa [Heap.keyed] using hnull
  obtain ⟨s, hs⟩ := hn.given hgiven
  have htext := hs.text hk hb
  simp only [Heap.text, Prod.mk.injEq] at htext
  show ((h.setBuf k b).cstr c.value.data).isSome
  rw [htext.1]
  rfl

/-! ## Behind the header lines -/

/-- A read behind a string is none of the ends of the call. -/
theorem headersDone_ne_fault (phase : Phase) (r : HttpRequest) (io : Io) :
    headersDone phase r io ≠ .stop .fault := by
  cases phase with
  | response =>
      simp only [headersDone]
      split <;> simp
  | request =>
      simp only [headersDone]
      split
      · simp
      · next q _ =>
        simp only [answerExpect]
        split
        · simp
        split
        · simp
        split
        · rcases hw : nwrite q.toHeap io continueLine with a | h | s
          · simp [Outcome.bind]
          · simp [Outcome.bind]
          · rw [nwrite_stop (by decide) hw]
            simp [Outcome.bind]
        · simp

/-- No outcome of `send` takes more of `bs` than is left of it. -/
def Io.SendsOf (io : Io) (bs : List Byte) : Prop := ∀ h, nwrite h io bs ≠ .stop .misfit

theorem Io.sendsOf_nil {io : Io} (hio : io.sends = []) {bs : List Byte} (hbs : bs ≠ []) :
    io.SendsOf bs := by
  intro h
  rw [nwrite, if_neg hbs, hio]
  simp [Feed.feed]

/-- With the values at hand the call waits or returns. -/
theorem headersDone_settles {phase : Phase} {r : HttpRequest} {io : Io}
    (hvalues : ∀ name ∈ phase.consulted,
      ∀ v ∈ httpHeaderStr r.toHeap (r.headers phase) (.serverString name),
        (r.toHeap.cstr v.data).isSome)
    (hsend : io.SendsOf continueLine) (s : Stop) : headersDone phase r io ≠ .stop s := by
  have hint : httpHeaderInt r.toHeap (r.headers phase) HTTP_HEADER_CONTENT_LEN ≠ none := by
    have hmem : "Content-Length" ∈ phase.consulted := by cases phase <;> decide
    have hv := hvalues _ hmem
    rw [httpHeaderInt, HTTP_HEADER_CONTENT_LEN]
    split
    · simp
    · next v heq =>
      obtain ⟨t, ht⟩ := Option.isSome_iff_exists.mp (hv v heq)
      simp [ht]
  cases phase with
  | response =>
      rw [headersDone]
      split
      · next heq => exact absurd heq hint
      · simp
  | request =>
      rw [headersDone]
      split
      · next heq =>
        simp only [HttpRequest.fillHeadersIn, Option.bind_eq_bind, Option.pure_def,
          Option.bind_eq_none_iff, reduceCtorEq, imp_false] at heq
        exact absurd (Option.eq_none_iff_forall_ne_some.mpr heq) hint
      · next q hq =>
        obtain ⟨n, -, rfl⟩ := HttpRequest.fillHeadersIn_eq_some hq
        have hv := hvalues "Expect" (by decide)
        simp only [answerExpect]
        split
        · simp
        · next v heq =>
          obtain ⟨t, ht⟩ := Option.isSome_iff_exists.mp (hv v heq)
          simp only [ht]
          split
          · rcases hw : nwrite r.toHeap io continueLine with a | h | s'
            · simp [Outcome.bind]
            · simp [Outcome.bind]
            · rw [nwrite_stop (by decide) hw] at hw
              exact absurd hw (hsend _)
          · simp

end XwpServer
