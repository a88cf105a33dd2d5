/-
  XwpServer.ParseLine

  The three line parsers of `http_request.c` on the block of a header buffer:
  one line of the request head (`requestLineStep`), of the status line
  (`statusLineStep`), and one round of the loop over the header lines
  (`headerStep`).  `RecvLoop.lean` runs them on a `buf_t`.

  Each returns `none` when the C code would read outside the block.
-/

import XwpServer.Url
import Mathlib.Data.List.DropRight

namespace XwpServer

open CString Scan

/-! ## The request line -/

/-- The version named after the first `HTTP/` in the version token. -/
def httpVersion (version : List Byte) : Option HttpVersion :=
  match strstr version (bytes "HTTP/") with
  | none => none
  | some v =>
    if v.drop 5 = bytes "1.0" then some .v10
    else if v.drop 5 = bytes "1.1" then some .v11
    else none

/-- The method, compared over the length of the client's token. -/
def httpMethod (method : List Byte) (len : Nat) : Option HttpMethod :=
  if strncasecmpEq method (bytes "GET") len then some .get
  else if strncasecmpEq method (bytes "POST") len then some .post
  else if strncasecmpEq method (bytes "HEAD") len then some .head
  else if strncasecmpEq method (bytes "PUT") len then some .put
  else none

/-- `http_parse_request_line` once its three tokens are there. -/
def requestLineFields (id : Nat) (l : RequestLine) (m : List Byte) (method url version : Tok) :
    Option (ParseRet × RequestLine × List Byte) := do
  let l := { l with versionStr := version.str id }
  let vs ← strAt m version.off
  match httpVersion vs with
  | none => return (.fail, l, m)
  | some v =>
    let l := { l with version := v }
    let ms ← strAt m method.off
    match httpMethod ms method.len with
    | none => return (.fail, l, m)
    | some me =>
      let (ret, m, u) := httpParseUrl id m l.url url
      return (ret, { l with method := me, methodStr := method.str id, url := u }, m)

/-- `http_parse_request_line` behind the white space it skips first. -/
def requestLineStep (id : Nat) (l : RequestLine) (m : List Byte) (pos : Nat) :
    Option (ParseRet × RequestLine × List Byte × Nat) := do
  match ← findNextEol m pos with
  | none => return (.again, l, m, pos)
  | some eol =>
    let (t1, m, p) ← getToken isspace m pos
    let (t2, m, p) ← getToken isspace m p
    let (t3, m, _) ← getToken isspace m p
    match t1, t2, t3 with
    | some method, some url, some version =>
      let (ret, l, m) ← requestLineFields id l m method url version
      return (ret, l, m, eol + 1)
    | _, _, _ => return (.fail, l, m, pos)

/-! ## The status line -/

/-- `http_parse_status_line` behind the white space it skips first; the status is
    the one it stores, if it stores one. -/
def statusLineStep (m : List Byte) (pos : Nat) :
    Option (ParseRet × Option Int × List Byte × Nat) := do
  match ← findNextEol m pos with
  | none => return (.again, none, m, pos)
  | some eol =>
    let (t1, m, p) ← getToken isspace m pos
    let (t2, m, _) ← getToken isspace m p
    match t1, t2 with
    | some _, some statusStr =>
      let s ← strAt m statusStr.off
      let status := atoi s
      if status < HTTP_STATUS_START ∨ status > HTTP_STATUS_END then
        return (.fail, some status, m, eol + 1)
      else
        return (.done, some status, m, eol + 1)
    | _, _ => return (.fail, none, m, pos)

/-! ## The header lines -/

/-- What one round of the loop of `http_parse_header_line` does. -/
inductive HeaderStep where
  /-- A partial line: leave the loop, ask for more. -/
  | again
  /-- The empty line: leave the loop, the head is complete. -/
  | done (pos : Nat)
  /-- A line with spaces only. -/
  | skip (pos : Nat)
  | fail (m : List Byte) (pos : Nat)
  /-- A name and a value (`none` for an empty one) for `http_header_set`. -/
  | header (m : List Byte) (name : Tok) (value : Option Tok) (pos : Nat)
  deriving DecidableEq, Repr

/-- Trim white space behind the name. -/
def trimName (m : List Byte) (name : Tok) : Tok × List Byte :=
  let len := (((m.drop name.off).take name.len).rdropWhile isspace).length
  (⟨name.off, len⟩, m.set (name.off + len) NUL)

/-- The value from `pos` on, with its terminator written over the line end. -/
def headerValue (m : List Byte) (name : Tok) (pos eol : Nat) : Option HeaderStep := do
  let e ← m[eol - 1]?
  if e = CR then
    return .header (m.set (eol - 1) NUL) name (some ⟨pos, ptrDiff (eol - 1) pos⟩) (eol + 1)
  else
    return .header (m.set eol NUL) name (some ⟨pos, ptrDiff eol pos⟩) (eol + 1)

/-- The part of the round behind the name's colon. -/
def headerRest (m : List Byte) (name : Tok) (pos eol : Nat) : Option HeaderStep := do
  let pos ← skipSpace m pos eol
  let c ← m[pos]?
  if c = NUL then
    return .fail m pos
  else if pos = eol then
    return .header m name none (eol + 1)
  else
    headerValue m name pos eol

/-- One round of the loop of `http_parse_header_line`, up to `http_header_set`. -/
def headerStep (m : List Byte) (pos : Nat) : Option HeaderStep := do
  match ← findNextEol m pos with
  | none => return .again
  | some eol =>
    if eol = pos ∨ (eol = pos + 1 ∧ m[pos]? = some CR ∧ m[eol]? = some LF) then
      return .done (eol + 1)
    else
      let pos ← skipSpace m pos eol
      let c ← m[pos]?
      if c = NUL then
        return .fail m pos
      else if pos = eol then
        return .skip (eol + 1)
      else
        match ← getToken (· == COLON) m pos with
        | (none, m, pos) => return .fail m pos
        | (some tok, m, pos) =>
          let (name, m) := trimName m tok
          headerRest m name pos eol

/-! ## Frame lemmas -/

theorem ptrDiff_shift (d a b : Nat) : ptrDiff (d + a) (d + b) = ptrDiff a b := by
  unfold ptrDiff
  congr 2
  omega

/-- Move all pointers of a request line into a header buffer by `d`. -/
def RequestLine.shift (d : Nat) (l : RequestLine) : RequestLine :=
  { methodStr := l.methodStr.shift d
    method := l.method
    url := l.url.shift d
    versionStr := l.versionStr.shift d
    version := l.version }

theorem RequestLine.shift_zero (x : RequestLine) : x.shift 0 = x := by
  have hs : ∀ s : Str, s.shift 0 = s := by
    rintro ⟨_ | _ | _, _⟩ <;> simp [Str.shift]
  simp [RequestLine.shift, Url.shift, hs]

theorem requestLineFields_frame {id : Nat} {l l' : RequestLine} {m m' : List Byte}
    {method url version : Tok} {ret : ParseRet} (hurl : url.off + url.len < m.length)
    (h : requestLineFields id l m method url version = some (ret, l', m'))
    (pre post : List Byte) :
    requestLineFields id (l.shift pre.length) (pre ++ m ++ post) (method.shift pre.length)
        (url.shift pre.length) (version.shift pre.length)
      = some (ret, l'.shift pre.length, pre ++ m' ++ post) := by
  simp only [requestLineFields, Option.bind_eq_bind, Option.bind_eq_some_iff] at h
  obtain ⟨vs, hvs, h⟩ := h
  have hvs' := strAt_frame hvs pre post
  simp only [requestLineFields, Option.bind_eq_bind, Tok.shift_off, hvs', Option.bind_some,
    Tok.str_shift]
  rcases hv : httpVersion vs with _ | v
  · simp only [hv, Option.pure_def, Option.some.injEq, Prod.mk.injEq] at h ⊢
    obtain ⟨rfl, rfl, rfl⟩ := h
    exact ⟨rfl, rfl, rfl⟩
  · simp only [hv, Option.bind_eq_some_iff] at h
    obtain ⟨ms, hms, h⟩ := h
    have hms' := strAt_frame hms pre post
    simp only [hms', Option.bind_some, Tok.shift_len]
    rcases hme : httpMethod ms method.len with _ | me
    · simp only [hme, Option.pure_def, Option.some.injEq, Prod.mk.injEq] at h ⊢
      obtain ⟨rfl, rfl, rfl⟩ := h
      exact ⟨rfl, rfl, rfl⟩
    · have hframe := httpParseUrl_frame id url l.url pre post hurl
      have hu : (l.shift pre.length).url = l.url.shift pre.length := rfl
      simp only [hme, Option.pure_def, Option.some.injEq, Prod.mk.injEq, hu, hframe] at h ⊢
      obtain ⟨rfl, rfl, rfl⟩ := h
      exact ⟨rfl, rfl, rfl⟩

theorem requestLineStep_frame {id : Nat} {l l' : RequestLine} {m m' : List Byte}
    {pos pos' : Nat} {ret : ParseRet}
    (h : requestLineStep id l m pos = some (ret, l', m', pos')) (pre post : List Byte) :
    requestLineStep id (l.shift pre.length) (pre ++ m ++ post) (pre.length + pos)
      = some (ret, l'.shift pre.length, pre ++ m' ++ post, pre.length + pos') := by
  simp only [requestLineStep, Option.bind_eq_bind, Option.bind_eq_some_iff] at h
  obtain ⟨e, he, h⟩ := h
  simp only [requestLineStep, Option.bind_eq_bind, findNextEol_frame he pre post,
    Option.bind_some]
  rcases e with _ | eol
  · simp only [Option.pure_def, Option.some.injEq, Prod.mk.injEq, Option.map_none] at h ⊢
    obtain ⟨rfl, rfl, rfl, rfl⟩ := h
    exact ⟨rfl, rfl, rfl, rfl⟩
  · simp only [Option.bind_eq_some_iff] at h
    obtain ⟨⟨t1, m₁, p₁⟩, h₁, ⟨t2, m₂, p₂⟩, h₂, ⟨t3, m₃, p₃⟩, h₃, h⟩ := h
    simp only [Option.map_some, getToken_frame h₁ pre post, getToken_frame h₂ pre post,
      getToken_frame h₃ pre post, Option.bind_some]
    rcases t1 with _ | method <;> rcases t2 with _ | url <;> rcases t3 with _ | version <;>
      simp only [Option.pure_def, Option.some.injEq, Prod.mk.injEq, Option.map_some,
        Option.map_none, Option.bind_eq_some_iff] at h ⊢ <;>
      try (obtain ⟨rfl, rfl, rfl, rfl⟩ := h; exact ⟨rfl, rfl, rfl, rfl⟩)
    obtain ⟨⟨ret', l₄, m₄⟩, h₄, rfl, rfl, rfl, rfl⟩ := h
    have hlen : m₃.length = m₂.length := (getToken_bound h₃).2
    have hurl := (getToken_bound h₂).1
    have hlen₂ : m₂.length = m₁.length := (getToken_bound h₂).2
    exact ⟨_, requestLineFields_frame (by simp only at hurl ⊢; omega) h₄ pre post, rfl, rfl, rfl, by omega⟩

theorem statusLineStep_frame {m m' : List Byte} {pos pos' : Nat} {ret : ParseRet}
    {st : Option Int} (h : statusLineStep m pos = some (ret, st, m', pos'))
    (pre post : List Byte) :
    statusLineStep (pre ++ m ++ post) (pre.length + pos)
      = some (ret, st, pre ++ m' ++ post, pre.length + pos') := by
  simp only [statusLineStep, Option.bind_eq_bind, Option.bind_eq_some_iff] at h
  obtain ⟨e, he, h⟩ := h
  simp only [statusLineStep, Option.bind_eq_bind, findNextEol_frame he pre post,
    Option.bind_some]
  rcases e with _ | eol
  · simp only [Option.pure_def, Option.some.injEq, Prod.mk.injEq, Option.map_none] at h ⊢
    obtain ⟨rfl, rfl, rfl, rfl⟩ := h
    exact ⟨rfl, rfl, rfl, rfl⟩
  · simp only [Option.bind_eq_some_iff] at h
    obtain ⟨⟨t1, m₁, p₁⟩, h₁, ⟨t2, m₂, p₂⟩, h₂, h⟩ := h
    simp only [Option.map_some, getToken_frame h₁ pre post, getToken_frame h₂ pre post,
      Option.bind_some]
    rcases t1 with _ | _ <;> rcases t2 with _ | statusStr <;>
      simp only [Option.pure_def, Option.some.injEq, Prod.mk.injEq, Option.map_some,
        Option.map_none, Option.bind_eq_some_iff] at h ⊢ <;>
      try (obtain ⟨rfl, rfl, rfl, rfl⟩ := h; exact ⟨rfl, rfl, rfl, rfl⟩)
    obtain ⟨s, hs, h⟩ := h
    refine ⟨s, strAt_frame hs pre post, ?_⟩
    split_ifs at h ⊢ <;> simp only [Option.some.injEq, Prod.mk.injEq] at h ⊢ <;>
      obtain ⟨rfl, rfl, rfl, rfl⟩ := h <;> exact ⟨rfl, rfl, rfl, by omega⟩

namespace HeaderStep

/-- The step seen from the larger block `pre ++ m ++ post`. -/
def frame (pre post : List Byte) : HeaderStep → HeaderStep
  | .again => .again
  | .done pos => .done (pre.length + pos)
  | .skip pos => .skip (pre.length + pos)
  | .fail m pos => .fail (pre ++ m ++ post) (pre.length + pos)
  | .header m name value pos =>
    .header (pre ++ m ++ post) (name.shift pre.length) (value.map (Tok.shift pre.length))
      (pre.length + pos)

end HeaderStep

theorem trimName_le (m : List Byte) (name : Tok) : (trimName m name).1.len ≤ name.len := by
  have hsub := (List.rdropWhile_prefix isspace
    ((m.drop name.off).take name.len)).length_le
  simp only [trimName]
  simp only [List.length_take, List.length_drop] at hsub ⊢
  omega

theorem trimName_frame {m : List Byte} {name : Tok} (hname : name.off + name.len < m.length)
    (pre post : List Byte) :
    trimName (pre ++ m ++ post) (name.shift pre.length)
      = ((trimName m name).1.shift pre.length, pre ++ (trimName m name).2 ++ post) := by
  have hle := trimName_le m name
  have htd : ((pre ++ m ++ post).drop (pre.length + name.off)).take name.len
      = (m.drop name.off).take name.len := take_drop_frame pre m post (by omega)
  simp only [trimName] at hle
  simp only [trimName, Tok.shift_off, Tok.shift_len, htd]
  refine Prod.ext rfl ?_
  rw [Nat.add_assoc]
  exact set_frame pre m post (by omega) NUL

theorem trimName_length (m : List Byte) (name : Tok) :
    (trimName m name).2.length = m.length := by simp [trimName]

theorem headerValue_frame {m : List Byte} {name : Tok} {pos eol : Nat} {s : HeaderStep}
    (h : headerValue m name pos eol = some s) (h0 : 0 < eol) (heol : eol < m.length)
    (pre post : List Byte) :
    headerValue (pre ++ m ++ post) (name.shift pre.length) (pre.length + pos)
        (pre.length + eol)
      = some (s.frame pre post) := by
  simp only [headerValue, Option.bind_eq_bind, Option.bind_eq_some_iff] at h
  obtain ⟨e, he, h⟩ := h
  have hsub : pre.length + eol - 1 = pre.length + (eol - 1) := by omega
  simp only [headerValue, Option.bind_eq_bind, hsub, getElem?_frame he pre post,
    Option.bind_some]
  split_ifs at h ⊢ <;> simp only [Option.pure_def, Option.some.injEq] at h ⊢ <;> subst h
  · rw [set_frame pre m post (by omega), ptrDiff_shift]
    rfl
  · rw [set_frame pre m post heol, ptrDiff_shift]
    rfl

theorem headerRest_frame {m : List Byte} {name : Tok} {pos eol : Nat} {s : HeaderStep}
    (h : headerRest m name pos eol = some s) (h0 : 0 < eol) (heol : eol < m.length)
    (pre post : List Byte) :
    headerRest (pre ++ m ++ post) (name.shift pre.length) (pre.length + pos)
        (pre.length + eol)
      = some (s.frame pre post) := by
  simp only [headerRest, Option.bind_eq_bind, Option.bind_eq_some_iff] at h
  obtain ⟨p, hp, c, hc, h⟩ := h
  simp only [headerRest, Option.bind_eq_bind, skipSpace_frame hp pre post, Option.bind_some,
    getElem?_frame hc pre post, Nat.add_left_cancel_iff]
  split_ifs at h ⊢
  · simp only [Option.pure_def, Option.some.injEq] at h ⊢
    subst h
    rfl
  · simp only [Option.pure_def, Option.some.injEq] at h ⊢
    subst h
    rfl
  · exact headerValue_frame h h0 heol pre post

/-- Where the next round starts. -/
def HeaderStep.next : HeaderStep → Option Nat
  | .skip pos | .header _ _ _ pos => some pos
  | _ => none

theorem headerRest_next {m : List Byte} {name : Tok} {pos eol p : Nat} {s : HeaderStep}
    (h : headerRest m name pos eol = some s) (hp : s.next = some p) : p = eol + 1 := by
  simp only [headerRest, headerValue, Option.bind_eq_bind, Option.bind_eq_some_iff] at h
  obtain ⟨q, -, c, -, h⟩ := h
  split_ifs at h
  · simp only [Option.pure_def, Option.some.injEq] at h
    simp [← h, HeaderStep.next] at hp
  · simp only [Option.pure_def, Option.some.injEq] at h
    simpa [← h, HeaderStep.next, eq_comm] using hp
  · simp only [Option.bind_eq_some_iff] at h
    obtain ⟨d, -, h⟩ := h
    split_ifs at h <;> simp only [Option.pure_def, Option.some.injEq] at h <;>
      simpa [← h, HeaderStep.next, eq_comm] using hp

/-- A round that goes on to the next line has moved on. -/
theorem headerStep_advance {m : List Byte} {pos p : Nat} {s : HeaderStep}
    (h : headerStep m pos = some s) (hp : s.next = some p) : pos < p := by
  simp only [headerStep, Option.bind_eq_bind, Option.bind_eq_some_iff] at h
  obtain ⟨e, he, h⟩ := h
  rcases e with _ | eol
  · simp only [Option.pure_def, Option.some.injEq] at h
    simp [← h, HeaderStep.next] at hp
  · have hle := (findNextEol_bound he).1
    suffices p = eol + 1 by omega
    simp only at h
    split_ifs at h
    · simp only [Option.pure_def, Option.some.injEq] at h
      simp [← h, HeaderStep.next] at hp
    · simp only [Option.bind_eq_some_iff] at h
      obtain ⟨q, -, c, -, h⟩ := h
      split_ifs at h
      · simp only [Option.pure_def, Option.some.injEq] at h
        simp [← h, HeaderStep.next] at hp
      · simp only [Option.pure_def, Option.some.injEq] at h
        simpa [← h, HeaderStep.next, eq_comm] using hp
      · simp only [Option.bind_eq_some_iff] at h
        obtain ⟨⟨_ | t, m₁, q₁⟩, -, h⟩ := h
        · simp only [Option.pure_def, Option.some.injEq] at h
          simp [← h, HeaderStep.next] at hp
        · exact headerRest_next h hp

/-- One round of the header loop on a block does the same inside a larger one. -/
theorem headerStep_frame {m : List Byte} {pos : Nat} {s : HeaderStep}
    (h : headerStep m pos = some s) (pre post : List Byte) :
    headerStep (pre ++ m ++ post) (pre.length + pos) = some (s.frame pre post) := by
  simp only [headerStep, Option.bind_eq_bind, Option.bind_eq_some_iff] at h
  obtain ⟨e, he, h⟩ := h
  simp only [headerStep, Option.bind_eq_bind, findNextEol_frame he pre post, Option.bind_some]
  rcases e with _ | eol
  · simp only [Option.pure_def, Option.some.injEq] at h
    subst h
    rfl
  · obtain ⟨hle, heol, -⟩ := findNextEol_bound he
    have hempty : (pre.length + eol = pre.length + pos ∨
        (pre.length + eol = pre.length + pos + 1 ∧
          (pre ++ m ++ post)[pre.length + pos]? = some CR ∧
          (pre ++ m ++ post)[pre.length + eol]? = some LF)) ↔
        (eol = pos ∨ (eol = pos + 1 ∧ m[pos]? = some CR ∧ m[eol]? = some LF)) := by
      rw [getElem?_frame_eq pre m post (by omega), getElem?_frame_eq pre m post heol]
      have h₁ : pre.length + eol = pre.length + pos ↔ eol = pos := by omega
      have h₂ : pre.length + eol = pre.length + pos + 1 ↔ eol = pos + 1 := by omega
      rw [h₁, h₂]
    simp only [Option.map_some, hempty]
    by_cases hd : eol = pos ∨ (eol = pos + 1 ∧ m[pos]? = some CR ∧ m[eol]? = some LF)
    · simp only [hd, if_true, Option.pure_def, Option.some.injEq] at h ⊢
      subst h
      rfl
    · have h0 : 0 < eol := by omega
      simp only [hd, if_false, Option.bind_eq_some_iff] at h ⊢
      obtain ⟨p, hp, c, hc, h⟩ := h
      refine ⟨_, skipSpace_frame hp pre post, c, getElem?_frame hc pre post, ?_⟩
      simp only [Nat.add_left_cancel_iff]
      split_ifs at h ⊢
      · simp only [Option.pure_def, Option.some.injEq] at h ⊢
        subst h
        rfl
      · simp only [Option.pure_def, Option.some.injEq] at h ⊢
        subst h
        rfl
      · simp only [Option.bind_eq_some_iff] at h ⊢
        obtain ⟨⟨t, m₁, p₁⟩, ht, h⟩ := h
        refine ⟨_, getToken_frame ht pre post, ?_⟩
        rcases t with _ | tok
        · simp only [Option.pure_def, Option.some.injEq, Option.map_none] at h ⊢
          subst h
          rfl
        · obtain ⟨htok, hlen⟩ := getToken_bound ht
          simp only [Option.map_some, trimName_frame (show tok.off + tok.len < m₁.length by omega)]
          simp only at h
          refine headerRest_frame h h0 ?_ pre post
          rw [trimName_length]
          omega

end XwpServer
