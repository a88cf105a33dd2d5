/-
  XwpServer.RunOnLine

  A header line without a colon.

  The name of such a line runs on into the lines behind it, up to the next colon or zero
  byte.  `get_token` ends it there, and behind the name's last character a second zero
  byte is written.  The parser then goes on with the next line, in which these zero
  bytes now stand (`headerStep_runOn`).
-/

import XwpServer.RejectedLine

namespace XwpServer

open CString Scan

/-! ## What a run-on name leaves -/

/-- The bytes of `r` in front of the first zero byte that a name ending in `r` leaves in
    it: the name is trimmed, unless `r` is white space altogether. -/
def keptLines (r : List Byte) : List Byte :=
  if r.rdropWhile isspace = [] then r else r.rdropWhile isspace

/-- A zero byte on the first byte of `ws`, and the name's own one behind `ws`. -/
def afterCut : List Byte → List Byte → List Byte
  | [], z => z
  | _ :: ws, z => ws ++ NUL :: z

/-- The bytes behind that zero byte, when `z` stands behind the name's own one. -/
def behindKept (r z : List Byte) : List Byte := afterCut (r.drop (keptLines r).length) z

/-- No colon and no zero byte. -/
def Unended (r : List Byte) : Prop := ∀ x ∈ r, x ≠ NUL ∧ x ≠ COLON

/-- The byte ends a name. -/
def EndsName (e : Byte) : Prop := e = NUL ∨ e = COLON

theorem keptLines_front (r : List Byte) : keptLines r <+: r := by
  unfold keptLines
  split
  · exact List.prefix_refl r
  · exact List.rdropWhile_prefix isspace r

theorem behindKept_of_append {r ws : List Byte} (h : keptLines r ++ ws = r) (z : List Byte) :
    behindKept r z = afterCut ws z := by
  have hdrop : r.drop (keptLines r).length = ws := by
    have := congrArg (List.drop (keptLines r).length) h
    rwa [List.drop_left, eq_comm] at this
  rw [behindKept, hdrop]

theorem rdropWhile_append (w r : List Byte) :
    (w ++ r).rdropWhile isspace
      = if r.rdropWhile isspace = [] then w.rdropWhile isspace else w ++ r.rdropWhile isspace := by
  induction r using List.reverseRecOn with
  | nil => simp
  | append_singleton r x ih =>
      rw [← List.append_assoc, List.rdropWhile_concat, List.rdropWhile_concat, ih]
      by_cases hx : isspace x = true <;> simp [hx]

/-- The second zero byte falls into the name's own line, or behind the last character of
    the name in the lines that follow. -/
theorem trim_runOn {p w r z : List Byte} (hw : (w.rdropWhile isspace).length < w.length) :
    ∃ p', p'.length = (p ++ w).length ∧
      (p ++ w ++ (r ++ NUL :: z)).set (p.length + ((w ++ r).rdropWhile isspace).length) NUL
        = p' ++ (keptLines r ++ NUL :: behindKept r z) := by
  rw [rdropWhile_append]
  -- where the lines behind are white space the name ends in its own line
  by_cases hr : r.rdropWhile isspace = []
  · have hkept : keptLines r = r := if_pos hr
    have hbehind : behindKept r z = z := by
      rw [behindKept_of_append (show keptLines r ++ [] = r by simp [hkept])]
      rfl
    refine ⟨(p ++ w).set (p.length + (w.rdropWhile isspace).length) NUL, by simp, ?_⟩
    rw [if_pos hr, hkept, hbehind, List.set_append_left _ _ (by simp; omega)]
  · have hkept : keptLines r = r.rdropWhile isspace := if_neg hr
    obtain ⟨ws, hws⟩ := keptLines_front r
    refine ⟨p ++ w, rfl, ?_⟩
    rw [if_neg hr, ← hkept, behindKept_of_append hws, List.length_append, ← Nat.add_assoc,
      ← List.length_append, List.set_append_right _ _ (by omega), Nat.add_sub_cancel_left]
    congr 1
    generalize keptLines r = r₁ at hws
    subst hws
    cases ws with
    | nil =>
        rw [List.append_nil, set_append_cons]
        rfl
    | cons x ws =>
        rw [List.append_assoc, List.cons_append, set_append_cons]
        rfl

/-! ## The round of such a line -/

/-- The rest of a round whose cursor is behind the line already. -/
theorem headerRest_behind {p q : List Byte} {name : Tok} {pos eol : Nat} {c : Byte}
    (h0 : 0 < eol) (heol : eol < p.length) (hpos : p.length ≤ pos)
    (hc : (p ++ q)[pos]? = some c) :
    (c = NUL → headerRest (p ++ q) name pos eol = some (.fail (p ++ q) pos)) ∧
      (c ≠ NUL → ∃ p' value, p'.length = p.length ∧
        headerRest (p ++ q) name pos eol = some (.header (p' ++ q) name (some value) (eol + 1))) := by
  -- the skip has nothing to do behind `eol`, and the value ends in front of where it starts
  have hskip : skipSpace (p ++ q) pos eol = some pos := by
    have hscan : scanUpTo isspace (eol - pos) ((p ++ q).drop pos) = some 0 := by
      obtain ⟨hlt, hget⟩ := List.getElem?_eq_some_iff.mp hc
      rw [show eol - pos = 0 by omega, List.drop_eq_getElem_cons hlt]
      rfl
    simp [skipSpace, hscan]
  have hne : pos ≠ eol := by omega
  constructor
  · rintro rfl
    simp [headerRest, hskip, hc]
  · intro hcz
    have hlt : eol - 1 < (p ++ q).length := by
      rw [List.length_append]
      omega
    have hlast := List.getElem?_eq_getElem hlt
    simp only [headerRest, hskip, hc, hcz, hne, headerValue, hlast, Option.bind_eq_bind,
      Option.bind_some, if_false, Option.pure_def]
    split
    · refine ⟨p.set (eol - 1) NUL, ⟨pos, ptrDiff (eol - 1) pos⟩, by simp, ?_⟩
      rw [List.set_append_left _ _ (by omega)]
    · refine ⟨p.set eol NUL, ⟨pos, ptrDiff eol pos⟩, by simp, ?_⟩
      rw [List.set_append_left _ _ heol]

/-- The name of a line without a colon: leading colons, and all behind them. -/
theorem exists_runOn {l sp v : List Byte} {c : Byte} (hl : IsLine l) (hlu : l = sp ++ c :: v)
    (hsp : ∀ x ∈ sp, isspace x = true) (hc : isspace c = false) (hown : ¬ HasColon l) :
    ∃ ds w, c :: v = ds ++ w ∧ (∀ x ∈ ds, x = COLON) ∧ w ≠ [] ∧ Unended w ∧
      (w.rdropWhile isspace).length < w.length := by
  -- the token starts behind the colons in front of it, and the line feed is one of its bytes
  obtain ⟨ds, w, hv, hds, hw⟩ := exists_span (· == COLON) (c :: v)
  have hds : ∀ x ∈ ds, x = COLON := by simpa using hds
  obtain ⟨⟨a, ha, -⟩, hz⟩ := hl
  have hlast : (c :: v).getLast? = some LF := by
    have : l.getLast? = some LF := by simp [ha]
    rw [hlu, List.getLast?_append] at this
    simpa using this
  have hne : w ≠ [] := by
    rintro rfl
    rw [hv, List.append_nil] at hlast
    exact absurd (hds LF (List.mem_of_getLast? hlast)) (by decide)
  obtain ⟨y, w', rfl⟩ := List.exists_cons_of_ne_nil hne
  have hy : y ≠ COLON := by simpa using hw y w' rfl
  have hzw : ∀ x ∈ y :: w', x ≠ NUL := by
    rintro x hx rfl
    apply hz
    rw [hlu, hv]
    simp only [List.mem_append]
    exact .inr (.inr hx)
  refine ⟨ds, y :: w', hv, hds, hne, fun x hx => ⟨hzw x hx, ?_⟩, ?_⟩
  · rintro rfl
    -- a further colon would be the end of a name
    obtain ⟨w₁, w₂, hw', hw₁⟩ := List.eq_append_cons_of_mem hx
    apply hown
    refine ⟨sp, c, v, ds, w₁, COLON, w₂, hlu, hsp, hc, ?_⟩
    constructor
    · rw [hv, hw']
    · intro x hx
      rw [hds x hx]
      decide
    · rintro rfl
      simp only [List.nil_append, List.cons.injEq] at hw'
      exact hy hw'.1
    · intro x hx
      refine ⟨hzw x (by rw [hw']; simp [hx]), ?_⟩
      simpa using fun h : x = COLON => hw₁ (h ▸ hx)
    · exact .inr (by decide)
  · rw [hv, List.getLast?_append_of_ne_nil _ hne] at hlast
    obtain ⟨w₀, hw₀⟩ : ∃ w₀, y :: w' = w₀ ++ [LF] := List.getLast?_eq_some_iff.mp hlast
    rw [hw₀, List.rdropWhile_concat_pos _ _ _ (by decide)]
    have := (List.rdropWhile_prefix isspace w₀).length_le
    simp
    omega

/-- The line end of a line with a character stands behind it. -/
theorem IsLine.one_lt_length {l sp v : List Byte} {c : Byte} (hl : IsLine l)
    (hlu : l = sp ++ c :: v) (hc : isspace c = false) : 1 < l.length := by
  obtain ⟨⟨a, ha, -⟩, -⟩ := hl
  rcases Nat.lt_or_ge 1 l.length with h | h
  · exact h
  have ha0 : a = [] := by
    apply List.eq_nil_of_length_eq_zero
    simp only [ha, List.length_append, List.length_singleton] at h
    omega
  have hsp0 : sp = [] := by
    apply List.eq_nil_of_length_eq_zero
    simp only [hlu, List.length_append, List.length_cons] at h
    omega
  have heq : [LF] = c :: v := by
    rw [ha, ha0, hsp0] at hlu
    simpa using hlu
  simp only [List.cons.injEq] at heq
  rw [← heq.1] at hc
  exact absurd hc (by decide)

/-- The round of a line without a colon, whose name ends at the byte `e` behind `r`: it is
    rejected when a zero byte stands behind `e`, and else a header is recorded and the zero
    bytes are in the next lines. -/
theorem headerStep_runOn {l sp v r z : List Byte} {c e c' : Byte} (hl : IsLine l)
    (hlu : l = sp ++ c :: v) (hsp : ∀ x ∈ sp, isspace x = true) (hc : isspace c = false)
    (hown : ¬ HasColon l) (hr : Unended r) (he : EndsName e) (d : List Byte) :
    (c' = NUL → ∃ m, headerStep (d ++ (l ++ (r ++ e :: c' :: z))) d.length
        = some (.fail m (d ++ (l ++ (r ++ [e]))).length)) ∧
      (c' ≠ NUL → ∃ d' name value, d'.length = (d ++ l).length ∧
        headerStep (d ++ (l ++ (r ++ e :: c' :: z))) d.length
          = some (.header (d' ++ (keptLines r ++ NUL :: behindKept r (c' :: z))) name (some value)
              d'.length)) := by
  obtain ⟨ds, w, hv, hds, hne, hw, htrim⟩ := exists_runOn hl hlu hsp hc hown
  have htok : TokenAt (· == COLON) (c :: (v ++ (r ++ e :: c' :: z))) ds (w ++ r) e (c' :: z) := by
    constructor
    · rw [← List.cons_append, hv]
      simp
    · intro x hx
      rw [hds x hx]
      decide
    · simp [hne]
    · intro x hx
      rcases List.mem_append.mp hx with hx | hx
      · simpa using hw x hx
      · simpa using hr x hx
    · exact he.imp id fun h => by simpa using h
  have hlw : l = sp ++ ds ++ w := by rw [hlu, hv, List.append_assoc]
  have hmem : d ++ (l ++ (r ++ e :: c' :: z)) = (d ++ sp) ++ (c :: (v ++ (r ++ e :: c' :: z))) := by
    simp [hlu]
  have ht := getToken_append (a := d ++ sp) htok
  rw [← hmem] at ht
  rw [headerStep_word_at hl hlu hsp hc, ht, Option.bind_some]
  -- the block after `get_token` and the trimming
  obtain ⟨d', hd', hset⟩ := @trim_runOn (d ++ sp ++ ds) w r (c' :: z) htrim
  have hblock : d ++ sp ++ ds ++ (w ++ r) ++ [NUL] ++ c' :: z
      = d ++ sp ++ ds ++ w ++ (r ++ NUL :: c' :: z) := by simp
  have hname : ((d ++ sp ++ ds ++ (w ++ r) ++ [NUL] ++ c' :: z).drop (d ++ sp ++ ds).length).take
      (w ++ r).length = w ++ r := by
    have hm : d ++ sp ++ ds ++ (w ++ r) ++ [NUL] ++ c' :: z
        = (d ++ sp ++ ds) ++ ((w ++ r) ++ ([NUL] ++ c' :: z)) := by simp
    rw [hm, List.drop_left, List.take_left]
  have hlen : d'.length = (d ++ l).length := by
    rw [hd', hlw]
    simp
  have hle : ((w ++ r).rdropWhile isspace).length ≤ (w ++ r).length :=
    (List.rdropWhile_prefix _ _).length_le
  have hget : (d' ++ (keptLines r ++ NUL :: behindKept r (c' :: z)))[
      (d ++ sp ++ ds ++ (w ++ r) ++ [NUL]).length]? = some c' := by
    rw [← hset, ← hblock, List.getElem?_set_ne, List.getElem?_append_right (Nat.le_refl _),
      Nat.sub_self]
    · rfl
    · simp only [List.length_append, List.length_singleton] at hle ⊢
      omega
  have htwo : 1 < l.length := hl.one_lt_length hlu hc
  have heol : d.length + (l.length - 1) + 1 = d'.length := by
    rw [hlen, List.length_append]
    omega
  obtain ⟨hfail, hnext⟩ := @headerRest_behind d' (keptLines r ++ NUL :: behindKept r (c' :: z))
    ⟨(d ++ sp ++ ds).length, ((w ++ r).rdropWhile isspace).length⟩ _ (d.length + (l.length - 1)) c'
    (by omega) (by omega) (by rw [hd']; simp only [List.length_append]; omega) hget
  simp only [trimName, hname]
  rw [hblock, hset]
  constructor
  · intro hz
    have hpos : (d ++ (l ++ (r ++ [e]))).length
        = (d ++ sp ++ ds ++ (w ++ r) ++ [NUL]).length := by
      rw [hlw]
      simp only [List.length_append, List.length_singleton]
      omega
    exact ⟨_, by rw [hpos]; exact hfail hz⟩
  · intro hz
    obtain ⟨d'', value, hd'', hrest⟩ := hnext hz
    exact ⟨d'', _, value, hd''.trans hlen, by rw [hrest, heol, hd'']⟩

end XwpServer
