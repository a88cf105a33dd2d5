/-
  XwpServer.DecidedHead

  Whether a header block with its empty line is decided.

  `http_parse_header_line` asks for more when a zero byte comes before the next line
  end.  It writes such bytes itself: a name without a colon ends at a colon of a later
  line, and that line is then cut in two.  So a header block that has arrived with its
  empty line is answered only if no line of it has a zero byte and none runs on into the
  lines behind it, but for a few shapes (`httpParseHeaderLine_answered_iff`).
-/

import XwpServer.RunOnLine

namespace XwpServer

open CString Scan

/-! ## Header blocks -/

/-- A line of white space. -/
def IsWhite (l : List Byte) : Prop := ∀ x ∈ l, isspace x = true

/-- A line of the text, before any zero byte in it, is a `P`. -/
inductive HasLine (P : List Byte → Prop) : List Byte → Prop
  | here {u l t} (hline : splitLine u = some (l, t)) (hp : P l) : HasLine P u
  | later {u l t} (hline : splitLine u = some (l, t)) (hrest : HasLine P t) : HasLine P u

/-- What stands behind a line without a colon, up to the next colon or zero byte and
    behind it, decides the head: the name is followed by a zero byte, or an empty line is
    met before the zero bytes the name has left, or one of these follows the other and a
    second line runs on into them. -/
def RunOnDecided (t : List Byte) : Prop :=
  ∃ r e c z, t = r ++ e :: c :: z ∧ Unended r ∧ EndsName e ∧
    (c = NUL ∨ HasLine IsBlankLine (keptLines r) ∨
      (∃ s, r = keptLines r ++ [s]) ∧ HasLine (fun l => ¬ IsWhite l) (keptLines r))

/-- The header lines of the text are decided: no line up to the empty one has a zero byte
    in it, and none lacks its colon unless what stands behind it decides the head. -/
inductive HeadDecided : List Byte → Prop
  | finish {u l t} (hline : splitLine u = some (l, t)) (hblank : IsBlankLine l) : HeadDecided u
  | line {u l t} (hline : splitLine u = some (l, t)) (hown : IsWhite l ∨ HasColon l)
      (hrest : HeadDecided t) : HeadDecided u
  | runOn {u l t} (hline : splitLine u = some (l, t)) (hown : ¬ (IsWhite l ∨ HasColon l))
      (ht : RunOnDecided t) : HeadDecided u

/-- An empty line ends within the first `n` bytes. -/
def EmptyLineWithin (n : Nat) (u : List Byte) : Prop :=
  ∃ a l t, u = a ++ (l ++ t) ∧ IsBlankLine l ∧ (a = [] ∨ a.getLast? = some LF) ∧
    (a ++ l).length ≤ n

/-- An empty line stands between `pos` and `last`. -/
def Buf.HasEmptyLine (b : Buf) : Prop := EmptyLineWithin (b.last - b.pos) (b.mem.drop b.pos)

theorem IsBlankLine.white {l : List Byte} (h : IsBlankLine l) : IsWhite l := by
  rcases h with rfl | rfl
  · intro x hx
    rw [List.mem_singleton.mp hx]
    rfl
  · intro x hx
    rcases List.mem_cons.mp hx with rfl | hx
    · rfl
    · rw [List.mem_singleton.mp hx]
      rfl

theorem hasLine_iff {P : List Byte → Prop} {u l t : List Byte} (hline : splitLine u = some (l, t)) :
    HasLine P u ↔ P l ∨ HasLine P t := by
  constructor
  · rintro (⟨hline', hp⟩ | ⟨hline', hrest⟩) <;> rw [hline] at hline' <;> cases hline'
    · exact .inl hp
    · exact .inr hrest
  · rintro (hp | hrest)
    · exact .here hline hp
    · exact .later hline hrest

theorem not_hasLine {P : List Byte → Prop} {u : List Byte} (hline : splitLine u = none) :
    ¬ HasLine P u := by
  rintro (⟨hline', -⟩ | ⟨hline', -⟩) <;> rw [hline] at hline' <;> cases hline'

theorem EmptyLineWithin.pos {n : Nat} {u : List Byte} (h : EmptyLineWithin n u) : 0 < n := by
  obtain ⟨a, l, t, -, hblank, -, hle⟩ := h
  rw [List.length_append] at hle
  rcases hblank with rfl | rfl <;> simp at hle <;> omega

/-- The first line is the empty one, or the empty one is behind it. -/
theorem EmptyLineWithin.tail {n : Nat} {u l t : List Byte} (h : EmptyLineWithin n u)
    (hline : splitLine u = some (l, t)) (hl : ¬ IsBlankLine l) :
    EmptyLineWithin (n - l.length) t := by
  obtain ⟨a, m, b, hu, hblank, ha, hle⟩ := h
  obtain ⟨y, rfl, hy, hlf, hz⟩ := splitLine_eq_some_iff.mp hline
  rcases ha with rfl | hlast
  · -- then the first line is empty
    have hm : splitLine u = some (m, b) := by
      rw [hu]
      rcases hblank with rfl | rfl <;> rfl
    rw [hline, Option.some.injEq, Prod.mk.injEq] at hm
    exact absurd (hm.1 ▸ hblank) hl
  · obtain ⟨a', rfl⟩ := List.getLast?_eq_some_iff.mp hlast
    have heq : y ++ LF :: t = a' ++ (LF :: (m ++ b)) := by
      rw [← hy, hu]
      simp
    rcases List.append_eq_append_iff.mp heq with ⟨a'', rfl, ht⟩ | ⟨c, rfl, ht⟩
    · cases a'' with
      | nil =>
          simp only [List.nil_append, List.cons.injEq, true_and] at ht
          refine ⟨[], m, b, ht, hblank, .inl rfl, ?_⟩
          simp only [List.append_nil, List.length_append, List.length_singleton,
            List.nil_append] at hle ⊢
          omega
      | cons x a'' =>
          simp only [List.cons_append, List.cons.injEq] at ht
          refine ⟨a'' ++ [LF], m, b, by simp [ht.2], hblank, .inr (by simp), ?_⟩
          simp only [List.length_append, List.length_cons, List.length_nil] at hle ⊢
          omega
    · cases c with
      | nil =>
          simp only [List.nil_append, List.cons.injEq, true_and, List.append_nil] at ht hle ⊢
          refine ⟨[], m, b, ht.symm, hblank, .inl rfl, ?_⟩
          simp only [List.length_append, List.length_singleton, List.nil_append] at hle ⊢
          omega
      | cons x c =>
          simp only [List.cons_append, List.cons.injEq] at ht
          exact absurd (by simp [← ht.1]) hlf

theorem EmptyLineWithin.mem {n : Nat} {u : List Byte} (h : EmptyLineWithin n u) : LF ∈ u := by
  obtain ⟨a, l, t, rfl, hblank, -⟩ := h
  rcases hblank with rfl | rfl <;> simp

/-! ## One round -/

section Rounds

variable {σ : Type} {set : HeaderSink σ} {k last fuel pos : Nat} {x : σ} {h : Heap}

/-- The rounds end with an answer. -/
def LinesAnswered (set : HeaderSink σ) (k last fuel pos : Nat) (x : σ) (h : Heap) : Prop :=
  ∃ ret pos' x' h', headerLines set k last fuel pos x h = some (ret, pos', x', h') ∧ ret ≠ .again

theorem answered_done (hpos : pos < last) {p : Nat}
    (hs : headerStep (h.buf k).mem pos = some (.done p)) :
    LinesAnswered set k last (fuel + 1) pos x h := by
  refine ⟨.done, p, x, h, ?_, by simp⟩
  simp only [headerLines, Nat.not_le.mpr hpos, hs, if_false]

theorem answered_fail (hpos : pos < last) {m : List Byte} {p : Nat}
    (hs : headerStep (h.buf k).mem pos = some (.fail m p)) :
    LinesAnswered set k last (fuel + 1) pos x h := by
  refine ⟨.fail, p, x, h.setBuf k { h.buf k with mem := m }, ?_, by simp⟩
  simp only [headerLines, Nat.not_le.mpr hpos, hs, if_false]

theorem not_answered_again (hpos : pos < last)
    (hs : headerStep (h.buf k).mem pos = some .again) :
    ¬ LinesAnswered set k last (fuel + 1) pos x h := by
  rintro ⟨ret, pos', x', h', heq, hret⟩
  simp only [headerLines, Nat.not_le.mpr hpos, hs, if_false, Option.some.injEq,
    Prod.mk.injEq] at heq
  exact hret heq.1.symm

theorem not_answered_fault (hpos : pos < last) (hs : headerStep (h.buf k).mem pos = none) :
    ¬ LinesAnswered set k last (fuel + 1) pos x h := by
  rintro ⟨ret, pos', x', h', heq, -⟩
  simp only [headerLines, Nat.not_le.mpr hpos, hs, if_false, reduceCtorEq] at heq

theorem answered_skip (hpos : pos < last) {p : Nat}
    (hs : headerStep (h.buf k).mem pos = some (.skip p)) :
    LinesAnswered set k last (fuel + 1) pos x h ↔ LinesAnswered set k last fuel p x h := by
  simp only [LinesAnswered, headerLines, Nat.not_le.mpr hpos, hs, if_false]

theorem answered_header (hpos : pos < last) {m : List Byte} {p : Nat} {name : Tok}
    {value : Option Tok} (hs : headerStep (h.buf k).mem pos = some (.header m name value p)) :
    LinesAnswered set k last (fuel + 1) pos x h ↔
      LinesAnswered set k last fuel p
        (set (h.setBuf k { h.buf k with mem := m }) x (name.str k)
          ((value.map (Tok.str k)).getD .null))
        (h.setBuf k { h.buf k with mem := m }) := by
  simp only [LinesAnswered, headerLines, Nat.not_le.mpr hpos, hs, if_false]

/-- A round on a line of white space, with anything around it. -/
theorem headerStep_white {l : List Byte} (hl : IsLine l) (hw : IsWhite l) (d t : List Byte) :
    (IsBlankLine l ∧ headerStep (d ++ (l ++ t)) d.length = some (.done (d ++ l).length)) ∨
      (¬ IsBlankLine l ∧ headerStep (d ++ (l ++ t)) d.length = some (.skip (d ++ l).length)) := by
  have hframe : ∀ s, headerStep l 0 = some s →
      headerStep (d ++ (l ++ t)) d.length = some (s.frame d t) := by
    intro s hs
    simpa [List.append_assoc] using headerStep_frame hs d t
  by_cases hblank : IsBlankLine l
  · refine .inl ⟨hblank, ?_⟩
    have hdone : headerStep l 0 = some (.done l.length) := by
      rcases hblank with rfl | rfl <;> rfl
    rw [hframe _ hdone, HeaderStep.frame, List.length_append]
  · refine .inr ⟨hblank, ?_⟩
    rcases headerStep_blank hl hw with hdone | hskip
    · exact absurd (isBlankLine_of_done hl hdone) hblank
    · rw [hframe _ hskip, HeaderStep.frame, List.length_append]

/-- A round on a line with a colon, with anything around it. -/
theorem headerStep_own {l : List Byte} (hl : IsLine l) (hlen : l.length < 2 ^ 64)
    (hown : HasColon l) (d t : List Byte) :
    ∃ d' name value, d'.length = (d ++ l).length ∧
      headerStep (d ++ (l ++ t)) d.length = some (.header (d' ++ t) name value d'.length) := by
  obtain ⟨sp, c, u, ds, w, e, rest, hlu, hsp, hc, htok⟩ := hown
  obtain ⟨m, value, hs, hm, -⟩ := headerStep_colon 0 hl hlu hsp hc htok hlen
  have hframe := headerStep_frame hs d t
  rw [List.append_assoc, Nat.add_zero, HeaderStep.frame, ← hm, ← List.length_append]
    at hframe
  exact ⟨d ++ m, _, _, by simp [hm], hframe⟩

/-- The first byte of a line that is not white space. -/
theorem exists_first {l : List Byte} (hw : ¬ IsWhite l) :
    ∃ sp c v, l = sp ++ c :: v ∧ (∀ x ∈ sp, isspace x = true) ∧ isspace c = false := by
  obtain ⟨sp, b, rfl, hsp, hb⟩ := exists_span isspace l
  cases b with
  | nil => exact absurd (by simpa [IsWhite] using hsp) hw
  | cons c v => exact ⟨sp, c, v, rfl, hsp, hb c v rfl⟩

theorem keptLines_eq_self_iff (r : List Byte) :
    keptLines r = r ↔ r.rdropWhile isspace = [] ∨ r.rdropWhile isspace = r := by
  unfold keptLines
  split <;> simp [*]

theorem keptLines_tail {l t : List Byte} (h : keptLines (l ++ t) = l ++ t) :
    keptLines t = t := by
  rw [keptLines_eq_self_iff] at h ⊢
  by_cases ht : t.rdropWhile isspace = []
  · exact .inl ht
  right
  rw [rdropWhile_append, if_neg ht] at h
  have hne := List.length_pos_iff.mpr ht
  rcases h with h | h
  · rw [List.append_eq_nil_iff] at h
    exact absurd h.2 ht
  · exact List.append_cancel_left h

theorem keptLines_keptLines (r : List Byte) : keptLines (keptLines r) = keptLines r := by
  rw [keptLines_eq_self_iff]
  unfold keptLines
  split
  · exact .inl ‹_›
  · exact .inr (List.rdropWhile_idempotent _ _)

/-! ## Behind a line that runs on -/

/-- The rounds on lines without a colon in front of a zero byte. -/
theorem answered_stranded {d r z z' : List Byte} {c : Byte} (hk : k < h.bufs.length)
    (hmem : (h.buf k).mem = d ++ (r ++ NUL :: c :: z)) (hr : Unended r) (hkept : keptLines r = r)
    (hempty : EmptyLineWithin (last - d.length) (r ++ z')) (hfuel : last ≤ d.length + fuel) :
    LinesAnswered set k last fuel d.length x h ↔
      HasLine IsBlankLine r ∨ (c = NUL ∧ HasLine (fun l => ¬ IsWhite l) r) := by
  -- on the rounds; the empty line that is still ahead says that there is one more
  induction fuel generalizing d r x h with
  | zero =>
      have := hempty.pos
      omega
  | succ fuel ih =>
      have hlt : d.length < last := by
        have := hempty.pos
        omega
      -- no line end in front of the zero byte: the round asks for more, and nothing is decided
      rcases hline : splitLine r with _ | ⟨l, t⟩
      · have hagain : headerStep (h.buf k).mem d.length = some .again := by
          rw [hmem]
          simp only [headerStep, findNextEol_of_splitLine_none hline, Option.bind_eq_bind,
            Option.bind_some, Option.pure_def]
        constructor
        · intro hans
          exact absurd hans (not_answered_again hlt hagain)
        · rintro (hblank | ⟨-, hword⟩)
          · exact absurd hblank (not_hasLine hline)
          · exact absurd hword (not_hasLine hline)
      have hl := IsLine.of_splitLine hline
      obtain rfl := splitLine_eq hline
      have ht : Unended t := fun x hx => hr x (by simp [hx])
      have hkt := keptLines_tail hkept
      have hlen := hl.length_pos
      rw [hasLine_iff hline, hasLine_iff hline]
      rw [List.append_assoc] at hmem hempty
      have hnext : ¬ IsBlankLine l → EmptyLineWithin (last - (d ++ l).length) (t ++ z') := by
        intro hblank
        have := hempty.tail (splitLine_append (v := z') hline |> fun h => by
          rwa [List.append_assoc] at h) hblank
        rwa [List.length_append, ← Nat.sub_sub]
      by_cases hw : IsWhite l
      · rcases headerStep_white hl hw d (t ++ NUL :: c :: z) with ⟨hblank, hs⟩ | ⟨hblank, hs⟩
        · rw [← hmem] at hs
          exact iff_of_true (answered_done hlt hs) (.inl (.inl hblank))
        · rw [← hmem] at hs
          rw [answered_skip hlt hs, ih hk (by rw [hmem]; simp) ht hkt (hnext hblank)
            (by rw [List.length_append]; omega)]
          simp only [hblank, hw, not_true_eq_false, false_or]
      · have hblank : ¬ IsBlankLine l := fun hb => hw hb.white
        obtain ⟨sp, y, v, hlu, hsp, hy⟩ := exists_first hw
        have hown : ¬ HasColon l := by
          rintro ⟨sp', c', u, ds, w, e, rest, rfl, -, -, htok⟩
          have hne := hr e (by rw [htok.eq]; simp)
          rcases htok.ends with he | he
          · exact hne.1 he
          · exact hne.2 (by simpa using he)
        obtain ⟨hfail, hgo⟩ := @headerStep_runOn l sp v t z y NUL c hl hlu hsp hy hown ht
          (.inl rfl) d
        rw [← hmem] at hfail hgo
        -- the name runs on to the zero byte; a second one behind it makes the round fail
        by_cases hc : c = NUL
        · obtain ⟨m, hs⟩ := hfail hc
          exact iff_of_true (answered_fail hlt hs) (.inr ⟨hc, .inl hw⟩)
        · obtain ⟨d', name, value, hd', hs⟩ := hgo hc
          -- otherwise the lines are cut to what is kept, and the same zero byte is behind them
          have hbehind : behindKept t (c :: z) = c :: z := by
            rw [behindKept_of_append (show keptLines t ++ [] = t by simp [hkt])]
            rfl
          rw [hkt, hbehind] at hs
          rw [answered_header hlt hs, ih (by simpa using hk) (by rw [Heap.buf_setBuf hk]) ht hkt
            (by rw [hd']; exact hnext hblank) (by rw [hd', List.length_append]; omega)]
          simp only [hblank, hc, false_and, or_false, false_or]

/-! ## The header block -/

theorem span_ended {r r' b b' : List Byte} {e e' : Byte} (heq : r ++ e :: b = r' ++ e' :: b')
    (hr : Unended r) (he : EndsName e) (hr' : Unended r') (he' : EndsName e') :
    r = r' ∧ e :: b = e' :: b' := by
  have hends : ∀ {e : Byte} {b : List Byte}, EndsName e → ∀ c l, e :: b = c :: l →
      (c != NUL && c != COLON) = false := by
    rintro e b he c l hx
    simp only [List.cons.injEq] at hx
    rcases he with h | h <;> simp [← hx.1, h]
  apply span_unique (p := fun x => x != NUL && x != COLON) heq _ (hends he) _ (hends he')
  · exact fun x hx => by simpa using hr x hx
  · exact fun x hx => by simpa using hr' x hx

/-- Without two bytes behind the line's name the block ends too soon. -/
theorem headerStep_short {l sp v t p₁ p₂ r z₁ z₂ : List Byte} {c c' e : Byte} (hl : IsLine l)
    (hlu : l = sp ++ c :: v) (hsp : ∀ x ∈ sp, isspace x = true) (hc : isspace c = false)
    (hown : ¬ HasColon l) (hr : Unended r) (he : EndsName e) (hc' : c' ≠ NUL)
    (h₁ : t ++ p₁ = r ++ e :: NUL :: z₁) (h₂ : t ++ p₂ = r ++ e :: c' :: z₂) (d : List Byte) :
    headerStep (d ++ (l ++ t)) d.length = none := by
  rcases hs : headerStep (d ++ (l ++ t)) d.length with _ | s
  · rfl
  exfalso
  -- with a zero byte behind the name the line is rejected, with another byte it is not
  have hframe : ∀ p, headerStep (d ++ (l ++ (t ++ p))) d.length = some (s.frame [] p) := by
    intro p
    simpa [List.append_assoc] using headerStep_frame hs [] p
  obtain ⟨m, hfail⟩ := (@headerStep_runOn l sp v r z₁ c e NUL hl hlu hsp hc hown hr he d).1 rfl
  obtain ⟨d', name, value, -, hgo⟩ :=
    (@headerStep_runOn l sp v r z₂ c e c' hl hlu hsp hc hown hr he d).2 hc'
  rw [← h₁, hframe, Option.some.injEq] at hfail
  rw [← h₂, hframe, Option.some.injEq] at hgo
  cases s <;> simp [HeaderStep.frame] at hfail hgo

theorem runOnDecided_iff {r z : List Byte} {e c : Byte} (hr : Unended r) (he : EndsName e) :
    RunOnDecided (r ++ e :: c :: z) ↔ (c = NUL ∨ HasLine IsBlankLine (keptLines r) ∨
      (∃ s, r = keptLines r ++ [s]) ∧ HasLine (fun l => ¬ IsWhite l) (keptLines r)) := by
  constructor
  · rintro ⟨r', e', c', z', heq, hr', he', hdec⟩
    have hspan := span_ended heq hr he hr' he'
    simp only [List.cons.injEq] at hspan
    obtain ⟨rfl, -, rfl, -⟩ := hspan
    exact hdec
  · intro hdec
    exact ⟨r, e, c, z, rfl, hr, he, hdec⟩

theorem headDecided_iff {u l t : List Byte} (hline : splitLine u = some (l, t)) :
    HeadDecided u ↔ IsBlankLine l ∨ ((IsWhite l ∨ HasColon l) ∧ HeadDecided t) ∨
      (¬ (IsWhite l ∨ HasColon l) ∧ RunOnDecided t) := by
  constructor
  · rintro (⟨hline', hblank⟩ | ⟨hline', hown, hrest⟩ | ⟨hline', hown, ht⟩) <;>
      rw [hline] at hline' <;> cases hline'
    · exact .inl hblank
    · exact .inr (.inl ⟨hown, hrest⟩)
    · exact .inr (.inr ⟨hown, ht⟩)
  · rintro (hblank | ⟨hown, hrest⟩ | ⟨hown, ht⟩)
    · exact .finish hline hblank
    · exact .line hline hown hrest
    · exact .runOn hline hown ht

/-- With a line feed somewhere, no line means a zero byte in front of it. -/
theorem exists_nul_of_splitLine_none {u : List Byte} (hlf : LF ∈ u) (hline : splitLine u = none) :
    ∃ a b, u = a ++ NUL :: b ∧ splitLine a = none := by
  obtain ⟨a, b, rfl, ha, hb⟩ := exists_span (fun c => c != LF && c != NUL) u
  have ha : LF ∉ a ∧ NUL ∉ a :=
    ⟨fun h => by simpa using ha LF h, fun h => by simpa using ha NUL h⟩
  cases b with
  | nil => exact absurd (by simpa using hlf) ha.1
  | cons c b =>
      by_cases hc : c = LF
      · rw [splitLine_eq_some_iff.mpr ⟨a, rfl, by rw [hc], ha⟩] at hline
        cases hline
      have hc : c = NUL := by simpa [hc] using hb c b rfl
      refine ⟨a, b, by rw [hc], ?_⟩
      apply Option.eq_none_iff_forall_ne_some.mpr
      rintro ⟨l, t⟩ hsome
      obtain ⟨a', -, rfl, -, -⟩ := splitLine_eq_some_iff.mp hsome
      exact ha.1 (by simp)

theorem behindKept_head {r z : List Byte} {c : Byte} (hc : c ≠ NUL) (hr : Unended r) :
    ∃ c' z', behindKept r (c :: z) = c' :: z' ∧ (c' = NUL ↔ ∃ s, r = keptLines r ++ [s]) := by
  obtain ⟨ws, hws⟩ := keptLines_front r
  rw [behindKept_of_append hws]
  have hone : (∃ s, r = keptLines r ++ [s]) ↔ ∃ s, ws = [s] := by
    constructor
    · rintro ⟨s, hs⟩
      exact ⟨s, List.append_cancel_left (hws.trans hs)⟩
    · rintro ⟨s, rfl⟩
      exact ⟨s, hws.symm⟩
  rw [hone]
  match ws, hws with
  | [], _ => exact ⟨c, z, rfl, by simp [hc]⟩
  | [s], _ => exact ⟨NUL, c :: z, rfl, by simp⟩
  | s :: s' :: ws, hws =>
    have hs' := (hr s' (by rw [← hws]; simp)).1
    exact ⟨s', ws ++ NUL :: c :: z, rfl, by simp [hs']⟩

/-- The rounds from a line without a colon on. -/
theorem answered_runOn {d l t : List Byte} (hk : k < h.bufs.length)
    (hmem : (h.buf k).mem = d ++ (l ++ t)) (hl : IsLine l) (hw : ¬ IsWhite l)
    (hown : ¬ HasColon l) (hempty : EmptyLineWithin (last - (d ++ l).length) t)
    (hfuel : last ≤ d.length + (fuel + 1)) (hlt : d.length < last) :
    LinesAnswered set k last (fuel + 1) d.length x h ↔ RunOnDecided t := by
  obtain ⟨sp, y, v, hlu, hsp, hy⟩ := exists_first hw
  obtain ⟨r, b, rfl, hr, hb⟩ := exists_span (fun x => x != NUL && x != COLON) t
  have hr : Unended r := by simpa [Unended] using hr
  have hends : ∀ e b', b = e :: b' → EndsName e := by
    intro e b' heq
    have := hb e b' heq
    by_cases he : e = NUL
    · exact .inl he
    · exact .inr (by simpa [he] using this)
  -- the token ends, with its delimiter, at least two bytes in front of the end of the block
  match b, hends with
  | [], _ =>
    rw [List.append_nil] at hmem ⊢
    have hs := @headerStep_short l sp v r [NUL, NUL] [NUL, COLON] r [] [] y COLON NUL hl hlu hsp hy
      hown hr (.inl rfl) (by decide) rfl rfl d
    rw [← hmem] at hs
    apply iff_of_false (not_answered_fault hlt hs)
    rintro ⟨r', e, c, z, rfl, -, he, -⟩
    have hne := hr e (by simp)
    rcases he with h | h
    · exact hne.1 h
    · exact hne.2 h
  | [e], hends =>
    have he := hends e [] rfl
    have hs := @headerStep_short l sp v (r ++ [e]) [NUL] [COLON] r [] [] y COLON e hl hlu hsp hy
      hown hr he (by decide) (by simp) (by simp) d
    rw [← hmem] at hs
    apply iff_of_false (not_answered_fault hlt hs)
    rintro ⟨r', e', c, z, heq, hr', he', -⟩
    have := (span_ended heq hr he hr' he').2
    simp at this
  | e :: c :: z, hends =>
    have he := hends e (c :: z) rfl
    obtain ⟨hfail, hgo⟩ := @headerStep_runOn l sp v r z y e c hl hlu hsp hy hown hr he d
    rw [← hmem] at hfail hgo
    rw [runOnDecided_iff hr he]
    by_cases hc : c = NUL
    · obtain ⟨m, hs⟩ := hfail hc
      exact iff_of_true (answered_fail hlt hs) (.inl hc)
    obtain ⟨d', name, value, hd', hs⟩ := hgo hc
    obtain ⟨c', z', hbehind, hc'⟩ := @behindKept_head r z c hc hr
    obtain ⟨ws, hws⟩ := keptLines_front r
    have hlpos := hl.length_pos
    have hrest : EmptyLineWithin (last - d'.length) (keptLines r ++ (ws ++ e :: c :: z)) := by
      rw [hd', ← List.append_assoc, hws]
      exact hempty
    rw [hbehind] at hs
    rw [answered_header hlt hs, answered_stranded (by simpa using hk) (by rw [Heap.buf_setBuf hk])
      (fun x hx => hr x ((keptLines_front r).subset hx)) (keptLines_keptLines r) hrest
      (by rw [hd', List.length_append]; omega)]
    simp only [hc, hc', false_or]

/-- The rounds end with an answer exactly when the header lines are decided. -/
theorem answered_iff {d u : List Byte} (hk : k < h.bufs.length) (hmem : (h.buf k).mem = d ++ u)
    (hlen : (d ++ u).length < 2 ^ 64) (hempty : EmptyLineWithin (last - d.length) u)
    (hfuel : last ≤ d.length + fuel) :
    LinesAnswered set k last fuel d.length x h ↔ HeadDecided u := by
  -- on the rounds, with the first line of what is left
  induction fuel generalizing d u x h with
  | zero =>
      have := hempty.pos
      omega
  | succ fuel ih =>
      have hlt : d.length < last := by
        have := hempty.pos
        omega
      rcases hline : splitLine u with _ | ⟨l, t⟩
      · have hnot : ¬ HeadDecided u := by
          rintro (⟨hline', -⟩ | ⟨hline', -, -⟩ | ⟨hline', -, -⟩) <;> rw [hline] at hline' <;>
            cases hline'
        obtain ⟨a, b, rfl, ha⟩ := exists_nul_of_splitLine_none hempty.mem hline
        have hagain : headerStep (h.buf k).mem d.length = some .again := by
          rw [hmem]
          simp only [headerStep, findNextEol_of_splitLine_none ha, Option.bind_eq_bind,
            Option.bind_some, Option.pure_def]
        exact iff_of_false (not_answered_again hlt hagain) hnot
      have hl := IsLine.of_splitLine hline
      have hlpos := hl.length_pos
      have hnext : ¬ IsBlankLine l → EmptyLineWithin (last - (d ++ l).length) t := by
        intro hblank
        have := hempty.tail hline hblank
        rwa [List.length_append, ← Nat.sub_sub]
      obtain rfl := splitLine_eq hline
      have hlenl : l.length < 2 ^ 64 := by
        simp only [List.length_append] at hlen
        omega
      rw [headDecided_iff hline]
      -- white space, a line with a colon, or a line that runs on
      by_cases hw : IsWhite l
      · rcases headerStep_white hl hw d t with ⟨hblank, hs⟩ | ⟨hblank, hs⟩
        · rw [← hmem] at hs
          exact iff_of_true (answered_done hlt hs) (.inl hblank)
        · rw [← hmem] at hs
          rw [answered_skip hlt hs, ih hk (by rw [hmem]; simp) (by rwa [List.append_assoc])
            (hnext hblank) (by rw [List.length_append]; omega)]
          simp [hblank, hw]
      have hblank : ¬ IsBlankLine l := fun hb => hw hb.white
      by_cases hown : HasColon l
      · obtain ⟨d', name, value, hd', hs⟩ := headerStep_own hl hlenl hown d t
        rw [← hmem] at hs
        rw [answered_header hlt hs, ih (by simpa using hk) (by rw [Heap.buf_setBuf hk])
          (by simp only [List.length_append, hd'] at hlen ⊢; omega) (by rw [hd']; exact hnext hblank)
          (by rw [hd', List.length_append]; omega)]
        simp [hblank, hown]
      · rw [answered_runOn hk hmem hl hw hown (hnext hblank) hfuel hlt]
        simp [hblank, hw, hown]

/-- `http_parse_header_line` returns `HTTP_PARSE_DONE` or `HTTP_PARSE_FAIL`. -/
def HeadAnswered (set : HeaderSink σ) (k : Nat) (x : σ) (h : Heap) : Prop :=
  ∃ ret x' h', httpParseHeaderLine set k x h = some (ret, x', h') ∧ ret ≠ .again

/-- A header block that has arrived with its empty line is answered exactly when its lines
    are decided. -/
theorem httpParseHeaderLine_answered_iff (hk : k < h.bufs.length)
    (hlen : (h.buf k).mem.length < 2 ^ 64) (hempty : (h.buf k).HasEmptyLine) :
    HeadAnswered set k x h ↔ HeadDecided ((h.buf k).mem.drop (h.buf k).pos) := by
  have hsplit : (h.buf k).mem = (h.buf k).mem.take (h.buf k).pos ++ (h.buf k).mem.drop (h.buf k).pos :=
    (List.take_append_drop _ _).symm
  -- the block behind `pos` holds the empty line, so `pos` is in the block
  have hlepos : (h.buf k).pos ≤ (h.buf k).mem.length := by
    by_contra hgt
    have hmem := hempty.mem
    rw [List.drop_eq_nil_of_le (by omega)] at hmem
    cases hmem
  have htake : ((h.buf k).mem.take (h.buf k).pos).length = (h.buf k).pos := by simp [hlepos]
  have hiff := @answered_iff σ set k (h.buf k).last ((h.buf k).last - (h.buf k).pos) x h
    ((h.buf k).mem.take (h.buf k).pos) ((h.buf k).mem.drop (h.buf k).pos) hk hsplit
    (by rw [← hsplit]; exact hlen) (by rw [htake]; exact hempty) (by omega)
  rw [htake] at hiff
  rw [← hiff]
  constructor
  · rintro ⟨ret, x', h', heq, hret⟩
    simp only [httpParseHeaderLine, Option.bind_eq_bind, Option.bind_eq_some_iff] at heq
    obtain ⟨⟨ret', pos', x'', h''⟩, hlines, heq⟩ := heq
    simp only [Option.pure_def, Option.some.injEq, Prod.mk.injEq] at heq
    exact ⟨ret', pos', x'', h'', hlines, heq.1 ▸ hret⟩
  · rintro ⟨ret, pos', x', h', hlines, hret⟩
    refine ⟨ret, x', h'.setBuf k { h'.buf k with pos := pos' }, ?_, hret⟩
    simp only [httpParseHeaderLine, hlines, Option.bind_eq_bind, Option.bind_some, Option.pure_def]

end Rounds

/-- A header buffer that holds a text and is full. -/
def fullBuf (text : List Byte) : Heap := { bufs := [⟨text, 0, text.length, text.length⟩] }

theorem httpParseHeaderLine_answered_host :
    HeadAnswered httpHeaderSet 0 [] (fullBuf (bytes "Host: a\n\n")) := by
  have hline : splitLine (bytes "Host: a\n\n") = some (bytes "Host: a\n", [LF]) := by decide
  have hblank : splitLine [LF] = some ([LF], []) := by decide
  obtain ⟨step, hstep⟩ : ∃ step, headerStep (bytes "Host: a\n") 0 = some step :=
    Option.isSome_iff_exists.mp (by decide)
  refine (httpParseHeaderLine_answered_iff (by decide) (by decide)
    ⟨bytes "Host: a\n", [LF], [], by decide, .inl rfl, .inr (by decide), by decide⟩).mpr ?_
  exact .line hline (hasColon_of_headerStep (.of_splitLine hline) hstep) (.finish hblank (.inl rfl))

/-- The name that starts in the first line ends at the colon of the second, which is then cut
    there; the empty line is never reached. -/
theorem httpParseHeaderLine_not_answered :
    ((fullBuf (bytes "foo\nbar: x\n\n")).buf 0).HasEmptyLine ∧
      ¬ HeadAnswered httpHeaderSet 0 [] (fullBuf (bytes "foo\nbar: x\n\n")) := by
  constructor
  · exact ⟨bytes "foo\nbar: x\n", [LF], [], by decide, .inl rfl, .inr (by decide), by decide⟩
  · rintro ⟨ret, x', h', heq, hret⟩
    have hagain : (httpParseHeaderLine httpHeaderSet 0 [] (fullBuf (bytes "foo\nbar: x\n\n"))).map
        (fun y => y.1) = some .again := by decide
    rw [heq, Option.map_some, Option.some.injEq] at hagain
    exact hret hagain

end XwpServer
