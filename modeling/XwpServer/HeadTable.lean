/-
  XwpServer.HeadTable

  The header table of an accepted head.

  The header loop reads names in the table while it is still writing terminators into
  the buffer the names stand in, and a line without a colon lets it write into lines
  that come later.  It writes only from the line it is at on, though, and a name it has
  recorded ends before the next line.  So the names of an accepted head read in the end
  as they did when they were recorded, and the table is the one that the recorded pairs
  give in the final buffers.

  A buffer that is switched for a larger one is lost, unless all of it was parsed: the
  loop goes on with the old one, and the next `recv` writes behind its end.
-/

import XwpServer.HeadProcess
import XwpServer.Lib.Terminators

namespace XwpServer

open CString Scan

/-! ## What the line parsers write -/

theorem getToken_nulSets {isDelim : Byte → Bool} {m m' : List Byte} {pos p : Nat} {t : Option Tok}
    (h : getToken isDelim m pos = some (t, m', p)) : NulSets pos m m' ∧ pos ≤ p := by
  cases t with
  | none =>
      obtain ⟨rfl, rfl⟩ := getToken_none h
      exact ⟨NulSets.refl _ _, Nat.le_refl _⟩
  | some t =>
      obtain ⟨ds, w, e, rest, -, -, rfl, rfl⟩ := getToken_some h
      exact ⟨(NulSets.refl _ _).set (by omega), by omega⟩

theorem headerValue_header {m m' : List Byte} {name n : Tok} {value : Option Tok}
    {pos q eol p : Nat} (h : headerValue m name pos eol = some (.header m' n value p))
    (hlt : eol < m.length) (hq : q < eol) :
    n = name ∧ NulSets q m m' ∧ p = eol + 1 ∧
      ((m[eol - 1]? = some CR ∧ m'[eol - 1]? = some NUL) ∨ m'[eol]? = some NUL) := by
  simp only [headerValue, Option.bind_eq_bind, Option.bind_eq_some_iff] at h
  obtain ⟨e, he, h⟩ := h
  split_ifs at h with hcr
  · simp only [Option.pure_def, Option.some.injEq, HeaderStep.header.injEq] at h
    obtain ⟨rfl, rfl, rfl, rfl⟩ := h
    refine ⟨rfl, (NulSets.refl _ _).set (by omega), rfl, .inl ⟨hcr ▸ he, ?_⟩⟩
    rw [List.getElem?_set_self (by omega)]
  · simp only [Option.pure_def, Option.some.injEq, HeaderStep.header.injEq] at h
    obtain ⟨rfl, rfl, rfl, rfl⟩ := h
    refine ⟨rfl, (NulSets.refl _ _).set (by omega), rfl, .inr ?_⟩
    rw [List.getElem?_set_self hlt]

/-- A round that records a header only writes terminators from its line on; the name ends
    before the next line, and is no longer than it says. -/
theorem headerStep_header {m m' : List Byte} {pos p : Nat} {name : Tok} {value : Option Tok}
    (h : headerStep m pos = some (.header m' name value p)) :
    ∃ eol, findNextEol m pos = some (some eol) ∧ p = eol + 1 ∧ NulSets pos m m' ∧
      pos ≤ name.off ∧ EndsBefore m' name.off p ∧
      EndsBefore m' name.off (name.off + name.len + 1) := by
  simp only [headerStep, Option.bind_eq_bind, Option.bind_eq_some_iff] at h
  obtain ⟨e, heol, h⟩ := h
  cases e with
  | none => simp at h
  | some eol =>
  obtain ⟨hle, hlt, hlf⟩ := findNextEol_bound heol
  dsimp only at h
  split_ifs at h with hblank
  · simp at h
  simp only [Option.bind_eq_some_iff] at h
  obtain ⟨q, hskip, c, hc, h⟩ := h
  split_ifs at h with hz hq
  · simp at h
  · simp at h
  obtain ⟨hpq, hqe⟩ := skipSpace_ge hskip
  have hqlt : q < eol := by
    have := hqe hle
    omega
  simp only [Option.bind_eq_some_iff] at h
  obtain ⟨⟨t, m₁, p₁⟩, htok, h⟩ := h
  cases t with
  | none => simp at h
  | some tok =>
  obtain ⟨ds, w, e, rest, hat, rfl, rfl, rfl⟩ := getToken_some htok
  -- the name starts in the line: only colons are skipped in front of it
  have hds : ∀ i, q ≤ i → i < q + ds.length → m[i]? = some COLON := by
    intro i hqi hi
    have hget : (m.drop q)[i - q]? = ds[i - q]? := by
      rw [hat.eq, List.getElem?_append_left (by omega)]
    rw [List.getElem?_drop, Nat.add_sub_cancel' hqi] at hget
    have hi' : i - q < ds.length := by omega
    rw [hget, List.getElem?_eq_getElem hi']
    simpa using (hat.delims _ (List.getElem_mem hi')).2
  have hoff : q + ds.length ≤ eol := by
    by_contra hgt
    have := hds eol (by omega) (by omega)
    rw [hlf] at this
    exact absurd (Option.some.inj this) (by decide)
  have hw : 0 < w.length := List.length_pos_of_ne_nil hat.ne_nil
  have h₁ : NulSets (q + ds.length) m (m.set (q + ds.length + w.length) NUL) :=
    (NulSets.refl _ _).set (by omega)
  generalize hm₁ : m.set (q + ds.length + w.length) NUL = m₁ at h h₁
  obtain ⟨len, hlen⟩ : ∃ len, trimName m₁ ⟨q + ds.length, w.length⟩
      = (⟨q + ds.length, len⟩, m₁.set (q + ds.length + len) NUL) := ⟨_, rfl⟩
  have h₂ : NulSets (q + ds.length) m (m₁.set (q + ds.length + len) NUL) := h₁.set (by omega)
  have hle₁ : len ≤ w.length := by
    have := trimName_le m₁ ⟨q + ds.length, w.length⟩
    rwa [hlen] at this
  dsimp only at h
  rw [hlen] at h
  have hnul : (m₁.set (q + ds.length + len) NUL)[q + ds.length + len]? = some NUL := by
    have hlen₁ := congrArg List.length hat.eq
    simp only [List.length_drop, List.length_append, List.length_cons] at hlen₁
    rw [List.getElem?_set_self]
    rw [h₁.length]
    omega
  simp only [headerRest, Option.bind_eq_bind, Option.bind_eq_some_iff] at h
  obtain ⟨r, hr, d, hd, h⟩ := h
  have hlt₂ : eol < (m₁.set (q + ds.length + len) NUL).length := by rw [h₂.length]; exact hlt
  split_ifs at h with hdz hre
  · simp at h
  · -- no value: the colon, and with it the end of the name, is in the line
    simp only [Option.pure_def, Option.some.injEq, HeaderStep.header.injEq] at h
    obtain ⟨rfl, rfl, -, rfl⟩ := h
    have hle₂ := (skipSpace_ge hr).1
    have hends := endsBefore_of_nul hnul (Nat.le_add_right ..)
    refine ⟨eol, heol, rfl, h₂.mono (by omega), (by omega : pos ≤ q + ds.length), ?_, hends⟩
    exact hends.mono (by omega)
  · -- a value: a terminator is written at the end of the line or in front of it
    obtain ⟨rfl, h₃, rfl, hend⟩ := headerValue_header (q := q) h hlt₂ hqlt
    refine ⟨eol, heol, rfl, (h₂.mono (by omega)).trans (h₃.mono hpq),
      (by omega : pos ≤ q + ds.length), ?_,
      endsBefore_of_nul (h₃.nul hnul) (Nat.le_add_right ..)⟩
    rcases hend with ⟨hcr, hnul⟩ | hnul
    · -- a name at the line feed itself has a colon in front of it, not `\r`
      have hlt₁ : q + ds.length ≤ eol - 1 := by
        by_contra hgt
        have hcolon := hds (eol - 1) (by omega) (by omega)
        rw [h₂.of_ne_nul hcr (by decide)] at hcolon
        exact absurd (Option.some.inj hcolon) (by decide)
      exact (endsBefore_of_nul hnul hlt₁).mono (by omega)
    · exact endsBefore_of_nul hnul hoff

/-- The other rounds leave the block alone and end behind the line. -/
theorem headerStep_next {m : List Byte} {pos p : Nat} {s : HeaderStep}
    (h : headerStep m pos = some s) (hs : s = .done p ∨ s = .skip p) :
    ∃ eol, findNextEol m pos = some (some eol) ∧ p = eol + 1 := by
  simp only [headerStep, Option.bind_eq_bind, Option.bind_eq_some_iff] at h
  obtain ⟨e, heol, h⟩ := h
  cases e with
  | none =>
      simp only [Option.pure_def, Option.some.injEq] at h
      rcases hs with rfl | rfl <;> cases h
  | some eol =>
  refine ⟨eol, heol, ?_⟩
  dsimp only at h
  -- the empty line and a line of white space; the other exits are no `done` and no `skip`
  split_ifs at h with hblank
  · simp only [Option.pure_def, Option.some.injEq] at h
    rcases hs with rfl | rfl <;> cases h
    rfl
  simp only [Option.bind_eq_some_iff] at h
  obtain ⟨q, -, c, -, h⟩ := h
  split_ifs at h with hz hq
  · simp only [Option.pure_def, Option.some.injEq] at h
    rcases hs with rfl | rfl <;> cases h
  · simp only [Option.pure_def, Option.some.injEq] at h
    rcases hs with rfl | rfl <;> cases h
    rfl
  simp only [Option.bind_eq_some_iff] at h
  obtain ⟨⟨t, m₁, p₁⟩, -, h⟩ := h
  cases t with
  | none =>
      simp only [Option.pure_def, Option.some.injEq] at h
      rcases hs with rfl | rfl <;> cases h
  | some tok =>
  simp only [headerRest, headerValue, Option.bind_eq_bind, Option.bind_eq_some_iff] at h
  obtain ⟨r, -, d, -, h⟩ := h
  split_ifs at h
  · simp only [Option.pure_def, Option.some.injEq] at h
    rcases hs with rfl | rfl <;> cases h
  · simp only [Option.pure_def, Option.some.injEq] at h
    rcases hs with rfl | rfl <;> cases h
  · simp only [Option.bind_eq_some_iff] at h
    obtain ⟨x, -, h⟩ := h
    split_ifs at h <;> simp only [Option.pure_def, Option.some.injEq] at h <;>
      rcases hs with rfl | rfl <;> cases h

/-! ## The pairs of a table -/

/-- `http_header_set` for every pair, in their order. -/
def setAll (h : Heap) (pairs : List (Str × Str)) : List Header :=
  pairs.foldl (fun t p => httpHeaderSet h t p.1 p.2) []

theorem setAll_concat (h : Heap) (pairs : List (Str × Str)) (p : Str × Str) :
    setAll h (pairs ++ [p]) = httpHeaderSet h (setAll h pairs) p.1 p.2 := by
  simp [setAll]

/-- The names and values of a table are those of its pairs. -/
theorem mem_setAll {h : Heap} {pairs : List (Str × Str)} {e : Header} (he : e ∈ setAll h pairs) :
    (∃ p ∈ pairs, e.name = p.1) ∧ ∃ p ∈ pairs, e.value = p.2 := by
  induction pairs using List.reverseRecOn generalizing e with
  | nil => simp [setAll] at he
  | append_singleton pairs p ih =>
      rw [setAll_concat] at he
      rcases mem_httpHeaderSet he with ⟨hn, hv⟩ | ⟨e', he', hn, hv⟩
      · exact ⟨⟨p, by simp, hn⟩, ⟨p, by simp, hv⟩⟩
      · obtain ⟨⟨a, ha, hna⟩, ⟨b, hb, hvb⟩⟩ := ih he'
        refine ⟨⟨a, by simp [ha], hn.trans hna⟩, ?_⟩
        rcases hv with hv | hv
        · exact ⟨b, by simp [hb], hv.trans hvb⟩
        · exact ⟨p, by simp, hv⟩

/-- The table depends on the strings of its names only. -/
theorem setAll_agree {h h' : Heap} {pairs : List (Str × Str)}
    (hs : ∀ p ∈ pairs, h.Agree h' p.1.data) : setAll h pairs = setAll h' pairs := by
  induction pairs using List.reverseRecOn with
  | nil => rfl
  | append_singleton pairs p ih =>
      rw [setAll_concat, setAll_concat, ← ih fun q hq => hs q (by simp [hq])]
      refine httpHeaderSet_agree _ (hs p (by simp)) fun e he => ?_
      obtain ⟨⟨q, hq, hn⟩, -⟩ := mem_setAll he
      rw [hn]
      exact hs q (by simp [hq])

/-! ## The buffer of the header loop -/

theorem Heap.setBuf_self {h : Heap} {k : Nat} (hk : k < h.bufs.length) :
    h.setBuf k (h.buf k) = h := by
  simp [Heap.setBuf, Heap.buf, hk]

/-- The block has no room for another byte, so a `recv` that delivers one faults. -/
def Buf.Lost (b : Buf) : Prop := b.mem.length ≤ b.last

/-- The table at position `pos` of the buffer `k` is that of the pairs handed over so far,
    and their names end before `pos` and are no longer than they say. -/
structure Tracked (k pos : Nat) (h : Heap) (table : List Header) (pairs : List (Str × Str)) :
    Prop where
  pos_le : pos ≤ (h.buf k).last
  zero : ZeroFrom (h.buf k).last (h.buf k).mem
  room : (h.buf k).last ≤ (h.buf k).end_ → (h.buf k).mem.length ≤ (h.buf k).end_ + 1
  table : table = setAll h pairs
  names : ∀ p ∈ pairs, ∃ off, p.1.data = .buf k off ∧ EndsBefore (h.buf k).mem off pos ∧
    EndsBefore (h.buf k).mem off (off + p.1.len + 1)

section Tracked

variable {k pos : Nat} {h : Heap} {table : List Header} {pairs : List (Str × Str)}

/-- Whatever leaves the strings in front of `pos` as they are keeps the table. -/
theorem Tracked.of_strings (ht : Tracked k pos h table pairs) {h' : Heap} {pos' : Nat}
    (hpos : pos ≤ pos') (hlast : pos' ≤ (h'.buf k).last)
    (hzero : ZeroFrom (h'.buf k).last (h'.buf k).mem)
    (hroom : (h'.buf k).last ≤ (h'.buf k).end_ → (h'.buf k).mem.length ≤ (h'.buf k).end_ + 1)
    (hstr : ∀ off s, strAt (h.buf k).mem off = some s → off + s.length < pos →
      strAt (h'.buf k).mem off = some s) :
    Tracked k pos' h' table pairs where
  pos_le := hlast
  zero := hzero
  room := hroom
  table := by
    rw [ht.table]
    refine setAll_agree fun p hp => ?_
    obtain ⟨off, hoff, ⟨s, hs, hlt⟩, -⟩ := ht.names p hp
    rw [hoff, Heap.Agree, Heap.cstr, Heap.cstr, cstr_of_strAt hs, cstr_of_strAt (hstr off s hs hlt)]
  names p hp := by
    obtain ⟨off, hoff, ⟨s, hs, hlt⟩, t, ht', hlen⟩ := ht.names p hp
    obtain rfl : s = t := Option.some.inj (hs.symm.trans ht')
    have hs' := hstr off s hs hlt
    exact ⟨off, hoff, ⟨s, hs', by omega⟩, s, hs', hlen⟩

/-- Terminators written from `pos` on. -/
theorem Tracked.nulSets (ht : Tracked k pos h table pairs) (hk : k < h.bufs.length)
    {m : List Byte} (hm : NulSets pos (h.buf k).mem m) {pos' : Nat} (hpos : pos ≤ pos')
    (hlast : pos' ≤ (h.buf k).last) :
    Tracked k pos' (h.setBuf k { h.buf k with mem := m }) table pairs := by
  have hb := Heap.buf_setBuf hk { h.buf k with mem := m }
  apply ht.of_strings hpos <;> rw [hb]
  · exact hlast
  · exact ht.zero.nulSets hm
  · intro hle
    rw [hm.length]
    exact ht.room hle
  · intro off s hs hlt
    exact strAt_of_take_eq hs hlt hm.take_eq

/-- A pair whose name ends before the next line. -/
theorem Tracked.push (ht : Tracked k pos h table pairs) {name : Str} (value : Str) {off : Nat}
    (hname : name.data = .buf k off) (hend : EndsBefore (h.buf k).mem off pos)
    (hlen : EndsBefore (h.buf k).mem off (off + name.len + 1)) :
    Tracked k pos h (httpHeaderSet h table name value) (noteHeader h pairs name value) where
  pos_le := ht.pos_le
  zero := ht.zero
  room := ht.room
  table := by rw [ht.table, noteHeader, setAll_concat]
  names p hp := by
    rcases List.mem_append.mp hp with hp | hp
    · exact ht.names p hp
    · rw [List.mem_singleton.mp hp]
      exact ⟨off, hname, hend, hlen⟩

/-- The line end that a parser finds is in front of the zero bytes. -/
theorem Tracked.eol_lt (ht : Tracked k pos h table pairs) {eol : Nat}
    (heol : findNextEol (h.buf k).mem pos = some (some eol)) :
    pos ≤ eol ∧ eol + 1 ≤ (h.buf k).last :=
  ⟨(findNextEol_bound heol).1, ht.zero.lt (findNextEol_bound heol).2.2 (by decide)⟩

end Tracked

/-- Two runs of `http_parse_header_line` on one buffer, with a table and with the list of
    the pairs. -/
theorem headerLines_tracked {k : Nat} (fuel : Nat) {pos : Nat} {h : Heap} {table : List Header}
    {pairs : List (Str × Str)} (hk : k < h.bufs.length) (ht : Tracked k pos h table pairs) :
    Option.Rel (fun x y => y.1 = x.1 ∧ y.2.1 = x.2.1 ∧ y.2.2.2 = x.2.2.2 ∧
        (∃ m, x.2.2.2 = h.setBuf k { h.buf k with mem := m }) ∧
        (x.1 ≠ .fail → Tracked k x.2.1 x.2.2.2 x.2.2.1 y.2.2.1))
      (headerLines httpHeaderSet k (h.buf k).last fuel pos table h)
      (headerLines noteHeader k (h.buf k).last fuel pos pairs h) := by
  -- on the rounds of both runs, which look at the same block
  induction fuel generalizing pos h table pairs with
  | zero => exact .some ⟨rfl, rfl, rfl, ⟨_, (Heap.setBuf_self hk).symm⟩, fun _ => ht⟩
  | succ fuel ih =>
      simp only [headerLines]
      split
      · exact .some ⟨rfl, rfl, rfl, ⟨_, (Heap.setBuf_self hk).symm⟩, fun _ => ht⟩
      · rcases hst : headerStep (h.buf k).mem pos with _ | st
        · exact .none
        cases st with
        | again => exact .some ⟨rfl, rfl, rfl, ⟨_, (Heap.setBuf_self hk).symm⟩, fun _ => ht⟩
        | done p =>
            obtain ⟨eol, heol, rfl⟩ := headerStep_next hst (.inl rfl)
            obtain ⟨hle, hlt⟩ := ht.eol_lt heol
            have hnext := ht.nulSets hk (NulSets.refl _ _) (show pos ≤ eol + 1 by omega) hlt
            rw [Heap.setBuf_self hk] at hnext
            exact .some ⟨rfl, rfl, rfl, ⟨_, (Heap.setBuf_self hk).symm⟩, fun _ => hnext⟩
        | skip p =>
            obtain ⟨eol, heol, rfl⟩ := headerStep_next hst (.inr rfl)
            obtain ⟨hle, hlt⟩ := ht.eol_lt heol
            have hnext := ht.nulSets hk (NulSets.refl _ _) (show pos ≤ eol + 1 by omega) hlt
            rw [Heap.setBuf_self hk] at hnext
            exact ih hk hnext
        | fail m p => exact .some ⟨rfl, rfl, rfl, ⟨m, rfl⟩, fun hf => absurd rfl hf⟩
        -- one run sets the header in its table, the other one notes the pair
        | header m name value p =>
            obtain ⟨eol, heol, rfl, hm, -, hend, hlen⟩ := headerStep_header hst
            obtain ⟨hle, hlt⟩ := ht.eol_lt heol
            have hb := Heap.buf_setBuf hk { h.buf k with mem := m }
            have hnext := (ht.nulSets hk hm (show pos ≤ eol + 1 by omega) hlt).push
              ((value.map (Tok.str k)).getD .null) (show (name.str k).data = .buf k name.off from rfl)
              (by rw [hb]; exact hend) (by rw [hb]; exact hlen)
            have hrun := ih (by simpa using hk) hnext
            simp only [hb, Heap.setBuf_setBuf] at hrun ⊢
            exact hrun

/-! ## The header loop -/

/-- The request's header buffer is the loop's, or the large one. -/
def OwnBuf (conf : Conf) (k : Nat) (h : Heap) : Prop :=
  h.headerBuf = k ∨
    (h.headerBuf ≠ k ∧ conf.largeClientHeaderSize ≤ (h.buf h.headerBuf).end_)

theorem OwnBuf.setBuf {conf : Conf} {k : Nat} {h : Heap} (ho : OwnBuf conf k h) (b : Buf) :
    OwnBuf conf k (h.setBuf k b) := by
  rcases ho with ho | ⟨hne, hle⟩
  · exact .inl ho
  · refine .inr ⟨hne, ?_⟩
    rw [Heap.setBuf_headerBuf, Heap.buf_setBuf_ne h hne]
    exact hle

/-- What `http_alloc_large_client_header_buf` does to the loop's buffer, when it is full. -/
theorem httpAllocLarge_buf {conf : Conf} {k : Nat} {h h' : Heap} (hk : k < h.bufs.length)
    (ho : OwnBuf conf k h) (hfull : (h.buf k).last = (h.buf k).end_)
    (h₁ : httpAllocLargeClientHeaderBuf conf h = some h') :
    k < h'.bufs.length ∧ h.headerBuf = k ∧ h'.headerBuf = h.bufs.length ∧
      h.bufs.length < h'.bufs.length ∧ h'.buf h.bufs.length = bufCreate (conf.largeClientHeaderSize + 1) ∧
      (h'.buf k).pos = (h.buf k).pos ∧
      (h'.buf k).last = (h.buf k).last + ((h.buf k).last - (h.buf k).pos) ∧
      (h'.buf k).end_ = (h.buf k).end_ - 1 ∧
      (h'.buf k).mem.length
        ≤ max (h.buf k).mem.length ((h.buf k).last - (h.buf k).pos) ∧
      ((h.buf k).last ≤ (h.buf k).pos →
        (h'.buf k).mem = (h.buf k).mem.set ((h.buf k).end_ - 1) NUL) := by
  unfold httpAllocLargeClientHeaderBuf at h₁
  -- a large buffer is not switched again
  have hown : h.headerBuf = k := by
    rcases ho with ho | ⟨-, hle⟩
    · exact ho
    · simp [hle] at h₁
  simp only [hown] at h₁
  split_ifs at h₁
  simp only [Option.some.injEq] at h₁
  subst h₁
  have hk' : k < (h.newHeaderBuf (bufCreate (conf.largeClientHeaderSize + 1))).bufs.length := by
    simp only [Heap.newHeaderBuf, List.length_append, List.length_singleton]
    omega
  rw [Heap.buf_setBuf hk']
  refine ⟨by simpa using hk', hown, rfl, by simp [Heap.newHeaderBuf], ?_, rfl, rfl, rfl, ?_, ?_⟩
  · rw [Heap.buf_setBuf_ne _ (by omega), Heap.buf_newHeaderBuf]
  · simp only [List.length_append, List.length_take, List.length_drop, List.length_set]
    omega
  · intro hle
    rw [show (h.buf k).last - (h.buf k).pos = 0 by omega]
    simp

/-- A full buffer that is switched is lost, or all of it was parsed and the strings in it
    stay. -/
theorem httpAllocLarge_tracked {conf : Conf} {k : Nat} {h h' : Heap} {table : List Header}
    {pairs : List (Str × Str)} (hk : k < h.bufs.length) (ho : OwnBuf conf k h)
    (hfull : (h.buf k).last = (h.buf k).end_) (ht : Tracked k (h.buf k).pos h table pairs)
    (h₁ : httpAllocLargeClientHeaderBuf conf h = some h') :
    (h'.buf k).Lost ∨ Tracked k (h'.buf k).pos h' table pairs := by
  obtain ⟨-, -, -, -, -, hpos, hlast, hend, hlen, hmem⟩ := httpAllocLarge_buf hk ho hfull h₁
  have hroom := ht.room (Nat.le_of_eq hfull)
  have hposle := ht.pos_le
  rcases Nat.lt_or_ge (h.buf k).pos (h.buf k).last with hlt | hge
  · -- bytes not yet parsed: `last` has passed the end of the block
    left
    unfold Buf.Lost
    omega
  · right
    have hlen' := congrArg List.length (hmem hge)
    rw [List.length_set] at hlen'
    apply ht.of_strings (Nat.le_of_eq hpos.symm)
    · omega
    · rw [hmem hge, show (h'.buf k).last = (h.buf k).last by omega]
      exact ht.zero.nulSets ((NulSets.refl 0 _).set (Nat.zero_le _))
    · omega
    · intro off s hs hlt
      rw [hmem hge]
      exact strAt_set_from hs (by omega)

theorem httpAllocLarge_own {conf : Conf} {k : Nat} {h h' : Heap} (hk : k < h.bufs.length)
    (ho : OwnBuf conf k h) (hfull : (h.buf k).last = (h.buf k).end_)
    (h₁ : httpAllocLargeClientHeaderBuf conf h = some h') : OwnBuf conf k h' := by
  obtain ⟨-, -, hhb, -, hnew, -⟩ := httpAllocLarge_buf hk ho hfull h₁
  refine .inr ⟨by omega, ?_⟩
  rw [hhb, hnew]
  exact Nat.le_succ _

/-- Two loops at rest, with a table and with the list of the pairs.  A lost buffer is never
    parsed again. -/
def LoopRel (conf : Conf) (k : Nat) (w : Waiting (List Header)) (w' : Waiting (List (Str × Str))) :
    Prop :=
  w'.heap = w.heap ∧ w'.errno = w.errno ∧ k < w.heap.bufs.length ∧ OwnBuf conf k w.heap ∧
    ((w.heap.buf k).Lost ∨ Tracked k (w.heap.buf k).pos w.heap w.x w'.x)

/-- The ends of the two loops. -/
def EndRel (k : Nat) (e : LoopEnd (List Header)) (e' : LoopEnd (List (Str × Str))) : Prop :=
  match e, e' with
  | .exit a x h errno, .exit a' x' h' errno' =>
    a' = a ∧ h' = h ∧ errno' = errno ∧
      (a = .done → k < h.bufs.length ∧ Tracked k (h.buf k).pos h x x')
  | .stop s, .stop s' => s' = s
  | _, _ => False

section Loop

variable {conf : Conf} {k : Nat} {h : Heap} {table : List Header} {pairs : List (Str × Str)}

theorem makeRoom_tracked (errno : Errno) (hk : k < h.bufs.length) (ho : OwnBuf conf k h)
    (ht : Tracked k (h.buf k).pos h table pairs) :
    Sum.LiftRel (LoopRel conf k) (EndRel k) (makeRoom conf k ⟨table, h, errno⟩)
      (makeRoom conf k ⟨pairs, h, errno⟩) := by
  simp only [makeRoom]
  split
  · next hfull =>
    rcases h₁ : httpAllocLargeClientHeaderBuf conf h with _ | h'
    · exact .inr ⟨rfl, rfl, rfl, by simp⟩
    · exact .inl ⟨rfl, rfl, (httpAllocLarge_buf hk ho hfull h₁).1, httpAllocLarge_own hk ho hfull h₁,
        httpAllocLarge_tracked hk ho hfull ht h₁⟩
  · exact .inl ⟨rfl, rfl, hk, ho, .inr ht⟩

theorem settle_tracked (errno : Errno) (hk : k < h.bufs.length) (ho : OwnBuf conf k h)
    (ht : Tracked k (h.buf k).pos h table pairs) :
    Sum.LiftRel (LoopRel conf k) (EndRel k)
      (settle conf (httpParseHeaderLine httpHeaderSet k) k ⟨table, h, errno⟩)
      (settle conf (httpParseHeaderLine noteHeader k) k ⟨pairs, h, errno⟩) := by
  have hlines := headerLines_tracked ((h.buf k).last - (h.buf k).pos) hk ht
  simp only [settle, httpParseHeaderLine, Option.bind_eq_bind]
  generalize headerLines httpHeaderSet k (h.buf k).last ((h.buf k).last - (h.buf k).pos)
    (h.buf k).pos table h = x at hlines ⊢
  generalize headerLines noteHeader k (h.buf k).last ((h.buf k).last - (h.buf k).pos)
    (h.buf k).pos pairs h = y at hlines ⊢
  cases hlines with
  | none => exact .inr rfl
  | @some x y hxy =>
      obtain ⟨ret, p, t, h'⟩ := x
      obtain ⟨ret', p', n, h''⟩ := y
      obtain ⟨rfl, rfl, rfl, ⟨m, rfl⟩, htr⟩ := hxy
      dsimp only at htr
      have hk' : k < (h.setBuf k { h.buf k with mem := m }).bufs.length := by simpa using hk
      -- the parser stores its position
      have hstore : ret' ≠ .fail → Tracked k p' ((h.setBuf k { h.buf k with mem := m }).setBuf k
          { (h.setBuf k { h.buf k with mem := m }).buf k with pos := p' }) t n := by
        intro hr
        have htr := htr hr
        have hb := Heap.buf_setBuf hk' { (h.setBuf k { h.buf k with mem := m }).buf k with pos := p' }
        apply htr.of_strings (Nat.le_refl _) <;> rw [hb]
        · exact htr.pos_le
        · exact htr.zero
        · exact htr.room
        · exact fun off s hs _ => hs
      have hb := Heap.buf_setBuf hk' { (h.setBuf k { h.buf k with mem := m }).buf k with pos := p' }
      simp only [Option.bind_some, Option.pure_def]
      cases ret' with
      | done =>
          refine .inr ⟨rfl, rfl, rfl, fun _ => ⟨by simpa using hk, ?_⟩⟩
          rw [hb]
          exact hstore (by decide)
      | fail => exact .inr ⟨rfl, rfl, rfl, fun hd => by cases hd⟩
      | again =>
          refine makeRoom_tracked errno (by simpa using hk) ((ho.setBuf _).setBuf _) ?_
          rw [hb]
          exact hstore (by decide)

/-- A lost buffer takes no further byte. -/
theorem Buf.Lost.recv {b : Buf} (hl : b.Lost) {bs : List Byte} (hbs : bs ≠ []) :
    ∃ s, b.recv bs = .error s := by
  have := List.length_pos_of_ne_nil hbs
  simp only [Buf.Lost] at hl
  unfold Buf.recv
  split
  · exact ⟨_, rfl⟩
  · rw [if_pos (by omega)]
    exact ⟨_, rfl⟩

theorem Buf.recv_ok {b b' : Buf} {bs : List Byte} (hb : b.recv bs = .ok b') :
    b.last + bs.length ≤ b.mem.length ∧
      b' = { b with mem := writeAt b.mem b.last bs, last := b.last + bs.length } := by
  unfold Buf.recv at hb
  split_ifs at hb
  simp only [Except.ok.injEq] at hb
  exact ⟨by omega, hb.symm⟩

theorem writeAt_length {m bs : List Byte} {off : Nat} (h : off + bs.length ≤ m.length) :
    (writeAt m off bs).length = m.length := by
  simp only [writeAt, List.length_append, List.length_take, List.length_drop]
  omega

theorem take_writeAt {m bs : List Byte} {off i : Nat} (h : off ≤ m.length) (hi : i ≤ off) :
    (writeAt m off bs).take i = m.take i := by
  rw [writeAt, List.append_assoc, List.take_append_of_le_length (by simp; omega), List.take_take,
    Nat.min_eq_left hi]

theorem take_end_writeAt {m bs : List Byte} {off : Nat} (h : off ≤ m.length) :
    (writeAt m off bs).take (off + bs.length) = m.take off ++ bs := by
  have hlen : (m.take off ++ bs).length = off + bs.length := by
    simp only [List.length_append, List.length_take]
    omega
  rw [writeAt, ← hlen, List.take_left]

theorem zeroFrom_writeAt {m bs : List Byte} {off : Nat} (hz : ZeroFrom off m)
    (hoff : off ≤ m.length) : ZeroFrom (off + bs.length) (writeAt m off bs) := by
  intro i c hi hc
  rw [writeAt, List.getElem?_append_right (by simp; omega), List.getElem?_drop] at hc
  exact hz _ c (by simp; omega) hc

/-- Received bytes are written behind everything the table depends on. -/
theorem Tracked.recv (ht : Tracked k (h.buf k).pos h table pairs) (hk : k < h.bufs.length)
    {bs : List Byte} {b : Buf} (hb : (h.buf k).recv bs = .ok b) :
    Tracked k ((h.setBuf k b).buf k).pos (h.setBuf k b) table pairs := by
  obtain ⟨hfit, rfl⟩ := Buf.recv_ok hb
  have hpos := ht.pos_le
  have hlen := writeAt_length hfit
  rw [Heap.buf_setBuf hk]
  apply ht.of_strings (Nat.le_refl _) <;> rw [Heap.buf_setBuf hk] <;> dsimp only
  · omega
  · exact zeroFrom_writeAt ht.zero (by omega)
  · intro hle
    rw [hlen]
    exact ht.room (by omega)
  · intro off s hs hlt
    exact strAt_of_take_eq hs hlt (take_writeAt (by omega) hpos)

theorem onRecv_tracked {w : Waiting (List Header)} {w' : Waiting (List (Str × Str))} (e : RecvEvent)
    (hw : LoopRel conf k w w') :
    Sum.LiftRel (LoopRel conf k) (EndRel k)
      (onRecv conf (httpParseHeaderLine httpHeaderSet k) k w e)
      (onRecv conf (httpParseHeaderLine noteHeader k) k w' e) := by
  obtain ⟨table, _, _⟩ := w
  obtain ⟨pairs, h', errno'⟩ := w'
  obtain ⟨rfl, rfl, hk, ho, ht⟩ := hw
  dsimp only at hk ho ht
  cases e with
  | error e =>
      simp only [onRecv]
      split
      · exact .inl ⟨rfl, rfl, hk, ho, ht⟩
      · exact .inr ⟨rfl, rfl, rfl, by simp⟩
  | data bs =>
      simp only [onRecv]
      split
      · split
        · exact .inl ⟨rfl, rfl, hk, ho, ht⟩
        · exact .inr ⟨rfl, rfl, rfl, by simp⟩
      · next hbs =>
        rcases ht with hl | ht
        · obtain ⟨s, hs⟩ := hl.recv hbs
          rw [hs]
          exact .inr rfl
        · rcases hb : (h'.buf k).recv bs with s | b
          · exact .inr rfl
          · exact settle_tracked _ (by simpa using hk) (ho.setBuf b) (ht.recv hk hb)

/-- The header loop with a table and with the list of the pairs. -/
theorem recvLoop_tracked (errno : Errno) (es : List RecvEvent) (hk : k < h.bufs.length)
    (ho : OwnBuf conf k h) (ht : Tracked k (h.buf k).pos h table pairs) :
    Sum.LiftRel (LoopRel conf k) (EndRel k)
      (recvLoop conf (httpParseHeaderLine httpHeaderSet k) k ⟨table, h, errno⟩ es).1
      (recvLoop conf (httpParseHeaderLine noteHeader k) k ⟨pairs, h, errno⟩ es).1 :=
  (Feed.feed_simulation _ (fun _ _ e hw => onRecv_tracked e hw) (settle_tracked errno hk ho ht) es).1

end Loop

/-! ## The first line -/

theorem httpParseUrl_nulSets (id : Nat) (m : List Byte) (out : Url) (url : Tok) :
    NulSets 0 m (httpParseUrl id m out url).2.1 := by
  have hself := NulSets.refl 0 m
  unfold httpParseUrl
  dsimp only
  split
  · exact hself
  next k _ =>
  unfold urlRecord
  split
  · exact hself
  next m₁ out₁ hschema =>
  have h₁ : NulSets 0 m m₁ := by
    unfold urlSchema at hschema
    split at hschema <;> simp only [Option.some.injEq, Prod.mk.injEq, reduceCtorEq] at hschema
    · rw [← hschema.1]
      exact hself.set (Nat.zero_le _)
    · rw [← hschema.1]
      exact hself
  split
  · exact h₁
  split
  · exact h₁
  -- each part of the URL is closed by one terminator at most
  have hpath : ∀ (m' : List Byte) (out' : Url), NulSets 0 m m' →
      NulSets 0 m (urlPath id url k m' out').1 := by
    intro m' out' hm'
    unfold urlPath
    split
    · exact hm'.set (Nat.zero_le _)
    · exact hm'
  have hquery : ∀ (m' : List Byte) (out' : Url), NulSets 0 m m' →
      NulSets 0 m (urlQuery id url k m' out').1 := by
    intro m' out' hm'
    unfold urlQuery
    split
    · exact hm'.set (Nat.zero_le _)
    · exact hm'
  exact hquery _ _ (hpath _ _ h₁)

theorem requestLineFields_ne_again {id : Nat} {l l' : RequestLine} {m m' : List Byte}
    {method url version : Tok} {ret : ParseRet}
    (h : requestLineFields id l m method url version = some (ret, l', m')) : ret ≠ .again := by
  simp only [requestLineFields, Option.bind_eq_bind, Option.bind_eq_some_iff] at h
  obtain ⟨vs, -, h⟩ := h
  split at h
  · simp only [Option.pure_def, Option.some.injEq, Prod.mk.injEq] at h
    simp [← h.1]
  simp only [Option.bind_eq_some_iff] at h
  obtain ⟨ms, -, h⟩ := h
  split at h
  · simp only [Option.pure_def, Option.some.injEq, Prod.mk.injEq] at h
    simp [← h.1]
  · simp only [Option.pure_def, Option.some.injEq, Prod.mk.injEq] at h
    rw [← h.1]
    exact httpParseUrl_ne_again _ _ _ _

theorem requestLineFields_nulSets {id : Nat} {l l' : RequestLine} {m m' : List Byte}
    {method url version : Tok} {ret : ParseRet}
    (h : requestLineFields id l m method url version = some (ret, l', m')) : NulSets 0 m m' := by
  simp only [requestLineFields, Option.bind_eq_bind, Option.bind_eq_some_iff] at h
  obtain ⟨vs, -, h⟩ := h
  split at h
  · simp only [Option.pure_def, Option.some.injEq, Prod.mk.injEq] at h
    rw [← h.2.2]
    exact NulSets.refl _ _
  simp only [Option.bind_eq_some_iff] at h
  obtain ⟨ms, -, h⟩ := h
  split at h
  · simp only [Option.pure_def, Option.some.injEq, Prod.mk.injEq] at h
    rw [← h.2.2]
    exact NulSets.refl _ _
  · simp only [Option.pure_def, Option.some.injEq, Prod.mk.injEq] at h
    rw [← h.2.2]
    exact httpParseUrl_nulSets id m l.url url

/-- A first-line parser that writes terminators only and ends behind the line end. -/
def TerminatesOnly {σ : Type}
    (step : σ → List Byte → Nat → Option (ParseRet × σ × List Byte × Nat)) : Prop :=
  ∀ x m pos ret x' m' p, step x m pos = some (ret, x', m', p) → NulSets 0 m m' ∧
    (ret = .done → ∃ eol, findNextEol m pos = some (some eol) ∧ p = eol + 1) ∧
    (ret = .again → p = pos)

theorem requestLineStep_terminates (k : Nat) : TerminatesOnly (requestLineStep k) := by
  intro x m pos ret x' m' p h
  simp only [requestLineStep, Option.bind_eq_bind, Option.bind_eq_some_iff] at h
  obtain ⟨e, heol, h⟩ := h
  cases e with
  | none =>
      simp only [Option.pure_def, Option.some.injEq, Prod.mk.injEq] at h
      obtain ⟨rfl, -, rfl, rfl⟩ := h
      exact ⟨NulSets.refl _ _, fun hret => absurd hret (by decide), fun _ => rfl⟩
  | some eol =>
  simp only [Option.bind_eq_some_iff] at h
  obtain ⟨⟨t₁, m₁, p₁⟩, h₁, ⟨t₂, m₂, p₂⟩, h₂, ⟨t₃, m₃, p₃⟩, h₃, h⟩ := h
  have hm : NulSets 0 m m₃ := (((getToken_nulSets h₁).1.mono (Nat.zero_le _)).trans
    ((getToken_nulSets h₂).1.mono (Nat.zero_le _))).trans
    ((getToken_nulSets h₃).1.mono (Nat.zero_le _))
  dsimp only at h
  split at h
  · simp only [Option.bind_eq_some_iff] at h
    obtain ⟨⟨ret', l', m₄⟩, h₄, h⟩ := h
    simp only [Option.pure_def, Option.some.injEq, Prod.mk.injEq] at h
    obtain ⟨rfl, -, rfl, rfl⟩ := h
    exact ⟨hm.trans (requestLineFields_nulSets h₄), fun _ => ⟨eol, heol, rfl⟩,
      fun hr => absurd hr (requestLineFields_ne_again h₄)⟩
  · simp only [Option.pure_def, Option.some.injEq, Prod.mk.injEq] at h
    obtain ⟨rfl, -, rfl, rfl⟩ := h
    exact ⟨hm, fun hret => absurd hret (by decide), fun hret => absurd hret (by decide)⟩

theorem statusLineStore_terminates : TerminatesOnly statusLineStore := by
  intro x m pos ret x' m' p h
  simp only [statusLineStore, Option.map_eq_some_iff] at h
  obtain ⟨⟨ret', st, m'', p'⟩, h, heq⟩ := h
  simp only [Prod.mk.injEq] at heq
  obtain ⟨rfl, -, rfl, rfl⟩ := heq
  simp only [statusLineStep, Option.bind_eq_bind, Option.bind_eq_some_iff] at h
  obtain ⟨e, heol, h⟩ := h
  cases e with
  | none =>
      simp only [Option.pure_def, Option.some.injEq, Prod.mk.injEq] at h
      obtain ⟨rfl, -, rfl, rfl⟩ := h
      exact ⟨NulSets.refl _ _, fun hret => absurd hret (by decide), fun _ => rfl⟩
  | some eol =>
  simp only [Option.bind_eq_some_iff] at h
  obtain ⟨⟨t₁, m₁, p₁⟩, h₁, ⟨t₂, m₂, p₂⟩, h₂, h⟩ := h
  have hm : NulSets 0 m m₂ := ((getToken_nulSets h₁).1.mono (Nat.zero_le _)).trans
    ((getToken_nulSets h₂).1.mono (Nat.zero_le _))
  dsimp only at h
  split at h
  · simp only [Option.bind_eq_some_iff] at h
    obtain ⟨s, -, h⟩ := h
    split_ifs at h <;> simp only [Option.pure_def, Option.some.injEq, Prod.mk.injEq] at h <;>
      obtain ⟨rfl, -, rfl, rfl⟩ := h
    · exact ⟨hm, fun hret => absurd hret (by decide), fun hret => absurd hret (by decide)⟩
    · exact ⟨hm, fun _ => ⟨eol, heol, rfl⟩, fun hret => absurd hret (by decide)⟩
  · simp only [Option.pure_def, Option.some.injEq, Prod.mk.injEq] at h
    obtain ⟨rfl, -, rfl, rfl⟩ := h
    exact ⟨hm, fun hret => absurd hret (by decide), fun hret => absurd hret (by decide)⟩

/-- The buffers of a head while its first line is parsed: a buffer that the header loop may
    start with is ready for it. -/
structure HeadBufs (conf : Conf) (k : Nat) (h : Heap) : Prop where
  lt : k < h.bufs.length
  own : OwnBuf conf k h
  fresh : h.headerBuf ≠ k →
    h.headerBuf < h.bufs.length ∧ Tracked h.headerBuf (h.buf h.headerBuf).pos h [] []

/-- A table without entries asks nothing of the strings in the buffer. -/
theorem tracked_nil {k pos : Nat} {h : Heap} (hpos : pos ≤ (h.buf k).last)
    (hzero : ZeroFrom (h.buf k).last (h.buf k).mem)
    (hroom : (h.buf k).last ≤ (h.buf k).end_ → (h.buf k).mem.length ≤ (h.buf k).end_ + 1) :
    Tracked k pos h [] [] :=
  ⟨hpos, hzero, hroom, rfl, by simp⟩

theorem HeadBufs.setBuf {conf : Conf} {k : Nat} {h : Heap} (hb : HeadBufs conf k h) (b : Buf) :
    HeadBufs conf k (h.setBuf k b) where
  lt := by simpa using hb.lt
  own := hb.own.setBuf b
  fresh hne := by
    obtain ⟨hlt, ht⟩ := hb.fresh hne
    have hbuf := Heap.buf_setBuf_ne h hne b
    rw [Heap.setBuf_headerBuf] at hbuf ⊢
    exact ⟨by simpa using hlt, tracked_nil (by rw [hbuf]; exact ht.pos_le)
      (by rw [hbuf]; exact ht.zero) (by rw [hbuf]; exact ht.room)⟩

/-- What a call for a first line leaves for the header loop. -/
def HeadBufs.Waits {σ : Type} (conf : Conf) (k : Nat) (w : Waiting σ) : Prop :=
  HeadBufs conf k w.heap ∧
    ((w.heap.buf k).Lost ∨ Tracked k (w.heap.buf k).pos w.heap [] [])

def HeadBufs.Ends {σ : Type} : LoopEnd σ → Prop
  | .exit e _ h _ => e = .done →
    h.headerBuf < h.bufs.length ∧ Tracked h.headerBuf (h.buf h.headerBuf).pos h [] []
  | .stop _ => True

section FirstLine

variable {σ : Type} {conf : Conf} {k : Nat} {h : Heap}
  {step : σ → List Byte → Nat → Option (ParseRet × σ × List Byte × Nat)}

theorem makeRoom_headBufs (x : σ) (errno : Errno) (hb : HeadBufs conf k h)
    (ht : Tracked k (h.buf k).pos h [] []) :
    Sum.elim (HeadBufs.Waits conf k) HeadBufs.Ends (makeRoom conf k ⟨x, h, errno⟩) := by
  simp only [makeRoom]
  split
  · next hfull =>
    rcases h₁ : httpAllocLargeClientHeaderBuf conf h with _ | h'
    · exact fun hd => by cases hd
    · obtain ⟨hk', -, hhb, hlt, hnew, -⟩ := httpAllocLarge_buf hb.lt hb.own hfull h₁
      refine ⟨⟨hk', httpAllocLarge_own hb.lt hb.own hfull h₁, fun _ => ?_⟩,
        httpAllocLarge_tracked hb.lt hb.own hfull ht h₁⟩
      dsimp only
      rw [hhb, hnew]
      refine ⟨hlt, tracked_nil ?_ ?_ ?_⟩
      · rw [hnew]
        exact Nat.le_refl _
      · rw [hnew]
        exact zeroFrom_replicate _ _
      · intro _
        rw [hnew]
        simp [bufCreate]
  · exact ⟨hb, .inr ht⟩

theorem settle_headBufs (hstep : TerminatesOnly step) (x : σ) (errno : Errno)
    (hb : HeadBufs conf k h) (ht : Tracked k (h.buf k).pos h [] []) :
    Sum.elim (HeadBufs.Waits conf k) HeadBufs.Ends
      (settle conf (parseFirstLine step k) k ⟨x, h, errno⟩) := by
  rcases hp : parseFirstLine step k x h with _ | ⟨ret, x', h'⟩
  · simp only [settle, hp]
    exact trivial
  simp only [settle, hp]
  simp only [parseFirstLine, Option.bind_eq_bind, Option.bind_eq_some_iff] at hp
  obtain ⟨q, hskip, ⟨ret', y, m, p⟩, hy, hp⟩ := hp
  simp only [Option.pure_def, Option.some.injEq, Prod.mk.injEq] at hp
  obtain ⟨rfl, rfl, rfl⟩ := hp
  -- the step writes terminators only, and ends behind the line end
  obtain ⟨hm, hdone, hagain⟩ := hstep _ _ _ _ _ _ _ hy
  have hbuf := Heap.buf_setBuf hb.lt { h.buf k with mem := m, pos := p }
  have hstore : p ≤ (h.buf k).last → Tracked k
      ((h.setBuf k { h.buf k with mem := m, pos := p }).buf k).pos
      (h.setBuf k { h.buf k with mem := m, pos := p }) [] [] := by
    intro hle
    apply tracked_nil <;> rw [hbuf]
    · exact hle
    · exact ht.zero.nulSets hm
    · intro hr
      rw [hm.length]
      exact ht.room hr
  cases ret' with
  | done =>
      intro _
      obtain ⟨eol, heol, rfl⟩ := hdone rfl
      have hlt := ht.zero.lt (findNextEol_bound heol).2.2 (by decide)
      by_cases hown : h.headerBuf = k
      · rw [Heap.setBuf_headerBuf, hown]
        exact ⟨by simpa using hb.lt, hstore hlt⟩
      · exact (hb.setBuf _).fresh hown
  | fail => exact fun hd => by cases hd
  | again =>
      have hq := (skipSpace_ge hskip).2 ht.pos_le
      exact makeRoom_headBufs _ errno (hb.setBuf _) (hstore (by rw [hagain rfl]; exact hq))

theorem onRecv_headBufs (hstep : TerminatesOnly step) (w : Waiting σ) (e : RecvEvent)
    (hw : HeadBufs.Waits conf k w) :
    Sum.elim (HeadBufs.Waits conf k) HeadBufs.Ends
      (onRecv conf (parseFirstLine step k) k w e) := by
  obtain ⟨hb, ht⟩ := hw
  cases e with
  | error e =>
      simp only [onRecv]
      split
      · exact ⟨hb, ht⟩
      · exact fun hd => by cases hd
  | data bs =>
      simp only [onRecv]
      split
      · split
        · exact ⟨hb, ht⟩
        · exact fun hd => by cases hd
      · next hbs =>
        rcases ht with hl | ht
        · obtain ⟨s, hs⟩ := hl.recv hbs
          rw [hs]
          exact trivial
        · rcases hr : (w.heap.buf k).recv bs with s | b
          · exact trivial
          · exact settle_headBufs hstep _ _ (hb.setBuf b) (ht.recv hb.lt hr)

end FirstLine

/-! ## The table of an accepted head -/

/-- A first line on a new header buffer. -/
theorem processLines_headBufs {σ : Type} {conf : Conf} {r r₁ : HttpRequest} {io io₁ : Io}
    {step : Nat → σ → List Byte → Nat → Option (ParseRet × σ × List Byte × Nat)}
    (hstep : ∀ k, TerminatesOnly (step k)) {get : HttpRequest → σ}
    {put : HttpRequest → σ → HttpRequest} {h : Heap}
    (hheap : r.toHeap = httpAllocClientHeaderBuf conf h)
    (hr : processLines conf (fun k => parseFirstLine (step k) k) get put r io
      = .ret (true, r₁, io₁)) :
    ∃ x, r₁.headerBuf < r₁.bufs.length ∧
      Tracked r₁.headerBuf (r₁.buf r₁.headerBuf).pos r₁.toHeap [] [] ∧
      r₁ = { put r x with toHeap := r₁.toHeap, status := (put r x).status } := by
  have hk : r.headerBuf = h.bufs.length := by rw [hheap]; rfl
  have hbufs : HeadBufs conf r.headerBuf r.toHeap :=
    ⟨by rw [hk, hheap]; simp [httpAllocClientHeaderBuf, Heap.newHeaderBuf], .inl rfl,
      fun hne => absurd rfl hne⟩
  have hbuf : r.buf r.headerBuf = headBuf conf.clientHeaderSize [] [] 0 := by
    rw [hk, hheap, httpAllocClientHeaderBuf_eq]
    exact Heap.buf_newHeaderBuf _ _
  have ht : Tracked r.headerBuf (r.buf r.headerBuf).pos r.toHeap [] [] := by
    apply tracked_nil <;> rw [hbuf]
    · exact Nat.le_refl _
    · exact zeroFrom_replicate _ _
    · intro _
      simp [headBuf]
  -- what is kept by each `recv` holds at the end of the loop
  have hloop := Feed.feed_invariant (onRecv conf (parseFirstLine (step r.headerBuf) r.headerBuf)
    r.headerBuf) (fun w e hw => onRecv_headBufs (hstep _) w e hw)
    (settle_headBufs (hstep r.headerBuf) (get r) io.errno hbufs ht) io.recvs
  simp only [processLines, recvLoop] at hr
  generalize Feed.feed (onRecv conf (parseFirstLine (step r.headerBuf) r.headerBuf) r.headerBuf)
    (settle conf (parseFirstLine (step r.headerBuf) r.headerBuf) r.headerBuf
      ⟨get r, r.toHeap, io.errno⟩) io.recvs = y at hr hloop
  obtain ⟨w | s, recvs⟩ := y
  · cases hr
  cases s with
  | stop s => cases hr
  | exit e x h' errno =>
      simp only [finishLines, Outcome.ret.injEq, Prod.mk.injEq, decide_eq_true_eq] at hr
      obtain ⟨rfl, rfl, -⟩ := hr
      obtain ⟨hlt, htr⟩ := hloop rfl
      exact ⟨x, hlt, htr, rfl⟩

/-- Behind its first line a head is ready for the header loop. -/
theorem httpProcessFirstLine_headBufs {conf : Conf} {phase : Phase} {r r₁ : HttpRequest}
    {io io₁ : Io} (h : httpProcessFirstLine conf phase r io = .ret (true, r₁, io₁)) :
    r₁.headerBuf < r₁.bufs.length ∧
      Tracked r₁.headerBuf (r₁.buf r₁.headerBuf).pos r₁.toHeap [] [] ∧
      r₁.headers phase = r.headers phase := by
  cases phase with
  | request =>
      simp only [httpProcessFirstLine, httpProcessRequestLine] at h
      split_ifs at h
      obtain ⟨x, hlt, ht, hr₁⟩ := processLines_headBufs requestLineStep_terminates rfl h
      refine ⟨hlt, ht, ?_⟩
      rw [hr₁]
      rfl
  | response =>
      simp only [httpProcessFirstLine, httpProcessStatusLine] at h
      split_ifs at h
      obtain ⟨x, hlt, ht, hr₁⟩ :=
        processLines_headBufs (fun _ => statusLineStore_terminates) rfl h
      refine ⟨hlt, ht, ?_⟩
      rw [hr₁]
      rfl

/-- The header loop of an accepted head has tracked its table to the end. -/
theorem httpHeaderLoop_tracked {conf : Conf} {phase : Phase} {r r₁ r₂ : HttpRequest}
    {io io₁ io₂ : Io} (hr : r.HeadReady phase)
    (hfirst : httpProcessFirstLine conf phase r io = .ret (true, r₁, io₁))
    (hloop : httpHeaderLoop conf phase r₁ io₁ = .ret (true, r₂, io₂)) :
    r₁.headerBuf < r₂.bufs.length ∧
      Tracked r₁.headerBuf (r₂.buf r₁.headerBuf).pos r₂.toHeap (r₂.headers phase)
        (handedPairs conf r₁ io₁) := by
  obtain ⟨hk, ht, hheaders⟩ := httpProcessFirstLine_headBufs hfirst
  rw [hr.headers] at hheaders
  have hrel := @recvLoop_tracked conf _ _ _ _ io₁.errno io₁.recvs hk (.inl rfl) ht
  simp only [httpHeaderLoop] at hloop
  split_ifs at hloop
  have hget : HttpRequest.headers { r₁ with state := .headerLine } phase = [] := by
    rw [← hheaders]
    cases phase <;> rfl
  simp only [processLines, hget] at hloop
  simp only [handedPairs]
  generalize recvLoop conf (httpParseHeaderLine httpHeaderSet r₁.headerBuf) r₁.headerBuf
    ⟨[], r₁.toHeap, io₁.errno⟩ io₁.recvs = y at hloop hrel
  generalize recvLoop conf (httpParseHeaderLine noteHeader r₁.headerBuf) r₁.headerBuf
    ⟨[], r₁.toHeap, io₁.errno⟩ io₁.recvs = z at hrel
  obtain ⟨w | s, recvs⟩ := y
  · cases hloop
  obtain ⟨w' | s', recvs'⟩ := z
  · cases hrel
  -- both loops have come to the same exit
  cases hrel with
  | inr hrel =>
  cases s with
  | stop s => cases hloop
  | exit e x h errno =>
  cases s' with
  | stop s' => cases hrel
  | exit e' x' h' errno' =>
  simp only [finishLines, Outcome.ret.injEq, Prod.mk.injEq, decide_eq_true_eq] at hloop
  obtain ⟨rfl, rfl, -⟩ := hloop
  obtain ⟨-, -, -, htr⟩ := hrel
  obtain ⟨hlt, htr⟩ := htr rfl
  refine ⟨hlt, ?_⟩
  cases phase <;> exact htr

/-- The table of an accepted head is that of the pairs handed to `http_header_set`, read in
    the buffers the head is left in, and their names stand in front of the bytes behind the
    head. -/
theorem headTable {conf : Conf} {phase : Phase} {r r₁ r₂ : HttpRequest} {io io₁ io₂ : Io}
    (hr : r.HeadReady phase) (hfirst : httpProcessFirstLine conf phase r io = .ret (true, r₁, io₁))
    (hloop : httpHeaderLoop conf phase r₁ io₁ = .ret (true, r₂, io₂)) :
    r₂.headers phase = setAll r₂.toHeap (handedPairs conf r₁ io₁) ∧
      r₁.headerBuf < r₂.bufs.length ∧
      ∀ p ∈ handedPairs conf r₁ io₁, ∃ off, p.1.data = .buf r₁.headerBuf off ∧
        EndsBefore (r₂.buf r₁.headerBuf).mem off (r₂.buf r₁.headerBuf).last ∧
        EndsBefore (r₂.buf r₁.headerBuf).mem off (off + p.1.len + 1) := by
  obtain ⟨hlt, htr⟩ := httpHeaderLoop_tracked hr hfirst hloop
  refine ⟨htr.table, hlt, fun p hp => ?_⟩
  obtain ⟨off, hoff, hend, hlen⟩ := htr.names p hp
  exact ⟨off, hoff, hend.mono htr.pos_le, hlen⟩

end XwpServer
