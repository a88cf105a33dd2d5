/-
  XwpServer.Token

  The two scanners every line parser is made of: `find_next_eol`
  (`http_request.c`) and `get_token` (`utils.c`), and the loop that skips white
  space.

  Each is undefined when it would read outside the block.  The frame lemmas say
  that a call that stays inside a block does the same inside any larger block;
  they are what makes the parse of one line independent of the bytes around it.
-/

import XwpServer.Basic

namespace XwpServer

open CString Scan

/-- A token found in a block: where it starts and how long it is.  The length of
    a header value is a pointer difference in a `size_t`. -/
structure Tok where
  off : Nat
  len : Nat
  deriving DecidableEq, Repr

namespace Tok

def shift (d : Nat) (t : Tok) : Tok := ⟨d + t.off, t.len⟩

@[simp] theorem shift_off (d : Nat) (t : Tok) : (t.shift d).off = d + t.off := rfl
@[simp] theorem shift_len (d : Nat) (t : Tok) : (t.shift d).len = t.len := rfl

/-- The `str_t` of a token of the header buffer number `id`. -/
def str (id : Nat) (t : Tok) : Str := ⟨.buf id t.off, t.len⟩

end Tok

/-! ## The scanners -/

/-- `find_next_eol`: the position of the next line feed, `none` when a zero byte
    comes first. -/
def findNextEol (m : List Byte) (line : Nat) : Option (Option Nat) := do
  let n ← scan (fun c => c != LF && c != NUL) (m.drop line)
  let c ← m[line + n]?
  return if c = NUL then none else some (line + n)

/-- `while(isspace(*pos) && pos < bound && *pos != '\0') pos++`; `isspace` is
    false of the zero byte, so the last test never decides. -/
def skipSpace (m : List Byte) (pos bound : Nat) : Option Nat :=
  (scanUpTo isspace (bound - pos) (m.drop pos)).map (pos + ·)

/-- `get_token`: the token, the block with the token's terminator written, and
    the advanced cursor.  With no token left the cursor stays. -/
def getToken (isDelim : Byte → Bool) (m : List Byte) (pos : Nat) :
    Option (Option Tok × List Byte × Nat) := do
  let k ← scan (fun c => c != NUL && isDelim c) (m.drop pos)
  let pStart := pos + k
  let c ← m[pStart]?
  if c = NUL then
    return (none, m, pos)
  else
    let n ← scan (fun c => c != NUL && !isDelim c) (m.drop (pStart + 1))
    let p := pStart + 1 + n
    return (some ⟨pStart, p - pStart⟩, m.set p NUL, p + 1)

/-! ## Frame lemmas -/

theorem findNextEol_frame {m : List Byte} {line : Nat} {e : Option Nat}
    (h : findNextEol m line = some e) (pre post : List Byte) :
    findNextEol (pre ++ m ++ post) (pre.length + line) = some (e.map (pre.length + ·)) := by
  simp only [findNextEol, Option.bind_eq_bind, Option.bind_eq_some_iff, Option.pure_def,
    Option.some.injEq] at h
  obtain ⟨n, hn, c, hc, rfl⟩ := h
  simp only [findNextEol, Option.bind_eq_bind, Option.bind_eq_some_iff, Option.pure_def,
    Option.some.injEq]
  refine ⟨n, scan_frame hn pre post, c, ?_, ?_⟩
  · rw [Nat.add_assoc]
    exact getElem?_frame hc pre post
  · by_cases hz : c = NUL
    · simp [hz]
    · simp [hz, Nat.add_assoc]

theorem skipSpace_frame {m : List Byte} {pos bound p : Nat}
    (h : skipSpace m pos bound = some p) (pre post : List Byte) :
    skipSpace (pre ++ m ++ post) (pre.length + pos) (pre.length + bound)
      = some (pre.length + p) := by
  simp only [skipSpace, Option.map_eq_some_iff] at h ⊢
  obtain ⟨n, hn, rfl⟩ := h
  refine ⟨n, ?_, by omega⟩
  have hb : pre.length + bound - (pre.length + pos) = bound - pos := by omega
  rw [hb]
  exact scanUpTo_frame hn pre post

theorem getToken_frame {isDelim : Byte → Bool} {m m' : List Byte} {pos pos' : Nat}
    {t : Option Tok} (h : getToken isDelim m pos = some (t, m', pos'))
    (pre post : List Byte) :
    getToken isDelim (pre ++ m ++ post) (pre.length + pos)
      = some (t.map (Tok.shift pre.length), pre ++ m' ++ post, pre.length + pos') := by
  simp only [getToken, Option.bind_eq_bind, Option.bind_eq_some_iff] at h
  obtain ⟨k, hk, c, hc, h⟩ := h
  -- both scans stop inside the block, at the same places in the larger one
  have hk' := scan_frame hk pre post
  have hc' := getElem?_frame hc pre post
  simp only [getToken, Option.bind_eq_bind, hk', Option.bind_some, Nat.add_assoc, hc']
  by_cases hz : c = NUL
  · simp only [hz, if_true, Option.pure_def, Option.some.injEq, Prod.mk.injEq] at h ⊢
    obtain ⟨rfl, rfl, rfl⟩ := h
    simp
  · simp only [hz, if_false, Option.bind_eq_some_iff, Option.pure_def, Option.some.injEq,
      Prod.mk.injEq] at h ⊢
    obtain ⟨n, hn, rfl, rfl, rfl⟩ := h
    have hlt : pos + (k + (1 + n)) < m.length := by
      have := scan_lt hn
      simp only [List.length_drop] at this
      omega
    refine ⟨n, ?_, ?_, ?_, by omega⟩
    · simpa [Nat.add_assoc] using scan_frame hn pre post
    · simp only [Option.map_some, Option.some.injEq, Tok.shift, Tok.mk.injEq, true_and]
      omega
    · simpa [Nat.add_assoc] using set_frame pre m post hlt NUL

/-! ## What the scanners find -/

/-- The line end `find_next_eol` finds is the first line feed, and no zero byte
    comes before it. -/
theorem findNextEol_some_iff {m : List Byte} {line eol : Nat} :
    findNextEol m line = some (some eol) ↔
      ∃ a b, m.drop line = a ++ LF :: b ∧ eol = line + a.length ∧ LF ∉ a ∧ NUL ∉ a := by
  simp only [findNextEol, Option.bind_eq_bind, Option.bind_eq_some_iff, Option.pure_def,
    Option.some.injEq]
  constructor
  -- the scan stops at a line feed or a zero byte, and it is the former
  · rintro ⟨n, hn, c, hc, h⟩
    obtain ⟨a, d, b, hl, rfl, ha, hd⟩ := scan_split hn
    have hcd : c = d := by
      have : (m.drop line)[a.length]? = some c := by rw [List.getElem?_drop]; exact hc
      rw [hl] at this
      simpa using this.symm
    subst hcd
    by_cases hz : c = NUL
    · simp [hz] at h
    · have hlf : c = LF := by
        by_contra hne
        simp_all
      subst hlf
      simp only [hz, if_false, Option.some.injEq] at h
      refine ⟨a, b, hl, h.symm, fun hmem => ?_, fun hmem => ?_⟩
      · simpa using ha _ hmem
      · simpa using ha _ hmem
  · rintro ⟨a, b, hl, rfl, hlf, hz⟩
    refine ⟨a.length, ?_, LF, ?_, by rw [if_neg (by decide)]⟩
    · rw [hl]
      refine scan_append_cons b (fun x hx => ?_) (by simp)
      have h1 : x ≠ LF := fun h => hlf (h ▸ hx)
      have h2 : x ≠ NUL := fun h => hz (h ▸ hx)
      simp [h1, h2]
    · rw [← List.getElem?_drop, hl]
      simp

theorem findNextEol_bound {m : List Byte} {line eol : Nat}
    (h : findNextEol m line = some (some eol)) :
    line ≤ eol ∧ eol < m.length ∧ m[eol]? = some LF := by
  obtain ⟨a, b, hl, rfl, -, -⟩ := findNextEol_some_iff.mp h
  have hlen := congrArg List.length hl
  simp only [List.length_drop, List.length_append, List.length_cons] at hlen
  refine ⟨by omega, by omega, ?_⟩
  rw [← List.getElem?_drop, hl]
  simp

theorem skipSpace_ge {m : List Byte} {pos bound p : Nat} (h : skipSpace m pos bound = some p) :
    pos ≤ p ∧ (pos ≤ bound → p ≤ bound) := by
  simp only [skipSpace, Option.map_eq_some_iff] at h
  obtain ⟨n, hn, rfl⟩ := h
  obtain ⟨-, -, -, -, -, hle, -, -⟩ := scanUpTo_split hn
  omega

/-- The bytes at the cursor start with a token: delimiters `ds`, the token `w` and
    the byte `e` that ends it. -/
structure TokenAt (isDelim : Byte → Bool) (l ds w : List Byte) (e : Byte) (rest : List Byte) :
    Prop where
  eq : l = ds ++ (w ++ e :: rest)
  delims : ∀ x ∈ ds, x ≠ NUL ∧ isDelim x = true
  ne_nil : w ≠ []
  word : ∀ x ∈ w, x ≠ NUL ∧ isDelim x = false
  ends : e = NUL ∨ isDelim e = true

/-- `get_token` on a token: it is found, a terminator is written behind it, and the
    cursor is behind the terminator. -/
theorem getToken_of_tokenAt {isDelim : Byte → Bool} {m ds w rest : List Byte} {pos : Nat}
    {e : Byte} (h : TokenAt isDelim (m.drop pos) ds w e rest) :
    getToken isDelim m pos = some (some ⟨pos + ds.length, w.length⟩,
      m.set (pos + ds.length + w.length) NUL, pos + ds.length + w.length + 1) := by
  obtain ⟨hm, hds, hne, hw, he⟩ := h
  obtain ⟨c, w, rfl⟩ := List.exists_cons_of_ne_nil hne
  have hc := hw c (by simp)
  have hw : ∀ x ∈ w, x ≠ NUL ∧ isDelim x = false := fun x hx => hw x (by simp [hx])
  -- the first scan passes the delimiters, the second one the token behind its first byte
  have hk : scan (fun c => c != NUL && isDelim c) (m.drop pos) = some ds.length := by
    rw [hm]
    refine scan_append_cons _ (fun x hx => ?_) (by simp [hc.2])
    simpa using hds x hx
  have hget : m[pos + ds.length]? = some c := by
    rw [← List.getElem?_drop, hm]
    simp
  have hrest : m.drop (pos + ds.length + 1) = w ++ e :: rest := by
    rw [Nat.add_assoc, ← List.drop_drop, hm, List.drop_append]
    simp
  have hn : scan (fun c => c != NUL && !isDelim c) (m.drop (pos + ds.length + 1))
      = some w.length := by
    rw [hrest]
    refine scan_append_cons _ (fun x hx => ?_) ?_
    · simpa using hw x hx
    · rcases he with rfl | he <;> simp_all
  simp only [getToken, Option.bind_eq_bind, hk, Option.bind_some, hget, hc.1, if_false, hn,
    Option.pure_def, Option.some.injEq, Prod.mk.injEq, Tok.mk.injEq, true_and,
    List.length_cons]
  refine ⟨by omega, ?_, by omega⟩
  congr 1
  omega

/-- The converse: a token `get_token` finds is there. -/
theorem getToken_some {isDelim : Byte → Bool} {m m' : List Byte} {pos pos' : Nat} {t : Tok}
    (h : getToken isDelim m pos = some (some t, m', pos')) :
    ∃ ds w e rest, TokenAt isDelim (m.drop pos) ds w e rest ∧
      t = ⟨pos + ds.length, w.length⟩ ∧ m' = m.set (pos + ds.length + w.length) NUL ∧
      pos' = pos + ds.length + w.length + 1 := by
  have h' := h
  simp only [getToken, Option.bind_eq_bind, Option.bind_eq_some_iff] at h
  obtain ⟨k, hk, c, hc, h⟩ := h
  obtain ⟨ds, d, b, hl, rfl, hds, hd⟩ := scan_split hk
  have hcd : c = d := by
    have : (m.drop pos)[ds.length]? = some c := by rw [List.getElem?_drop]; exact hc
    rw [hl] at this
    simpa using this.symm
  subst hcd
  by_cases hz : c = NUL
  · simp [hz] at h
  · simp only [hz, if_false, Option.bind_eq_some_iff] at h
    obtain ⟨n, hn, -⟩ := h
    -- the second scan starts behind the first byte of the token
    have hb : m.drop (pos + ds.length + 1) = b := by
      rw [Nat.add_assoc, ← List.drop_drop, hl, List.drop_append]
      simp
    rw [hb] at hn
    obtain ⟨w, e, rest, rfl, rfl, hw, he⟩ := scan_split hn
    have hd : isDelim c = false := by simpa [hz] using hd
    have htok : TokenAt isDelim (m.drop pos) ds (c :: w) e rest := by
      refine ⟨by simpa using hl, fun x hx => by simpa using hds x hx, by simp, ?_, ?_⟩
      · intro x hx
        rcases List.mem_cons.mp hx with rfl | hx
        · exact ⟨hz, hd⟩
        · simpa using hw x hx
      · by_cases he0 : e = NUL
        · exact Or.inl he0
        · exact Or.inr (by simpa [he0] using he)
    rw [getToken_of_tokenAt htok] at h'
    simp only [Option.some.injEq, Prod.mk.injEq] at h'
    exact ⟨ds, c :: w, e, rest, htok, h'.1.symm, h'.2.1.symm, h'.2.2.symm⟩

theorem getToken_none {isDelim : Byte → Bool} {m m' : List Byte} {pos pos' : Nat}
    (h : getToken isDelim m pos = some (none, m', pos')) : m' = m ∧ pos' = pos := by
  simp only [getToken, Option.bind_eq_bind, Option.bind_eq_some_iff] at h
  obtain ⟨k, -, c, -, h⟩ := h
  by_cases hz : c = NUL
  · simp only [hz, if_true, Option.pure_def, Option.some.injEq, Prod.mk.injEq, true_and] at h
    exact ⟨h.1.symm, h.2.symm⟩
  · simp only [hz, if_false, Option.bind_eq_some_iff, Option.pure_def] at h
    obtain ⟨n, -, h⟩ := h
    simp at h

/-- A found token and its terminator lie inside the block. -/
theorem getToken_bound {isDelim : Byte → Bool} {m m' : List Byte} {pos pos' : Nat} {t : Tok}
    (h : getToken isDelim m pos = some (some t, m', pos')) :
    t.off + t.len < m.length ∧ m'.length = m.length := by
  obtain ⟨ds, w, e, rest, ⟨hm, -, -, -, -⟩, rfl, rfl, -⟩ := getToken_some h
  have := congrArg List.length hm
  simp only [List.length_drop, List.length_append, List.length_cons] at this
  simp only [List.length_set, and_true]
  omega

end XwpServer
