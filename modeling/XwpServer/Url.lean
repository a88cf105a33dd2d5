/-
  XwpServer.Url

  `http_parse_url` (`http_request.c`): the automaton over the bytes of the URL
  token, and the recording of the parts it marked, which writes terminators into
  the token.
-/

import XwpServer.Token

namespace XwpServer

open CString Scan

/-! ## The automaton -/

/-- `is_character`: an ASCII letter. -/
def isCharacter (c : Byte) : Bool := 97 ≤ (c ||| 32) && (c ||| 32) ≤ 122

inductive UrlState where
  | start | schema | schemaSlash | host | port | path | queryString | done
  deriving DecidableEq, Repr

/-- The `*_start` and `*_end` pointers, as offsets in the token. -/
structure UrlMarks where
  schemaStart : Option Nat := none
  schemaEnd : Option Nat := none
  hostStart : Option Nat := none
  hostEnd : Option Nat := none
  pathStart : Option Nat := none
  pathEnd : Option Nat := none
  queryStart : Option Nat := none
  queryEnd : Option Nat := none
  portStart : Option Nat := none
  portEnd : Option Nat := none
  deriving DecidableEq, Repr

/-- One round of the loop on the byte `c` at offset `p`; `none` is
    `return HTTP_PARSE_FAIL`. -/
def urlStep (s : UrlState) (k : UrlMarks) (p : Nat) (c : Byte) :
    Option (UrlState × UrlMarks) :=
  match s with
  | .start =>
    if isspace c then some (.start, k)
    else if isCharacter c then some (.schema, { k with schemaStart := some p })
    else if c = SLASH then some (.path, { k with pathStart := some p })
    else none
  | .schema =>
    if isCharacter c then some (.schema, k)
    else if c = COLON then some (.schemaSlash, { k with schemaEnd := some p })
    else none
  | .schemaSlash =>
    if c = SLASH then some (.schemaSlash, k)
    else if isCharacter c then some (.host, { k with hostStart := some p })
    else none
  | .host =>
    if isCharacter c then some (.host, k)
    else if isdigit c || c == 46 || c == 45 then some (.host, k)
    else if c = COLON then
      some (.port, { k with hostEnd := some p, portStart := some (p + 1) })
    else if c = SLASH then some (.path, { k with hostEnd := some p, pathStart := some p })
    else none
  | .port =>
    if isdigit c then some (.port, k)
    else if c = SLASH then some (.path, { k with portEnd := some p, pathStart := some p })
    else if isspace c then some (.done, { k with portEnd := some p })
    else none
  | .path =>
    if c = 63 then
      some (.queryString, { k with pathEnd := some p, queryStart := some (p + 1) })
    else if c = 35 then some (.done, { k with pathEnd := some p })
    else if isspace c then some (.done, { k with pathEnd := some p })
    else some (.path, k)
  | .queryString =>
    if c = 35 || isspace c then some (.done, { k with queryEnd := some p })
    else some (.queryString, k)
  | .done => none

/-- The loop over the token, from offset `p` on.  It is left at the first zero
    byte and in `STAT_DONE`. -/
def urlScan : List Byte → Nat → UrlState → UrlMarks → Option UrlMarks
  | [], _, _, k => some k
  | c :: cs, p, s, k =>
    if c = NUL then some k
    else
      match urlStep s k p c with
      | none => none
      | some (.done, k) => some k
      | some (s, k) => urlScan cs (p + 1) s k

/-! ## Recording the parts -/

/-- A part of the token that stays in the buffer. -/
def urlPart (id : Nat) (url : Tok) (s e : Nat) : Str := ⟨.buf id (url.off + s), e - s⟩

/-- `(int) strtod` on digits; an out-of-range conversion gives `INT_MIN`. -/
def strtodInt (digits : List Byte) : Int :=
  if decVal digits < 2 ^ 31 then decVal digits else -2 ^ 31

/-- `url->port`, read from the digits at `port_start`. -/
def urlPort (u : List Byte) (k : UrlMarks) : Int :=
  match k.portStart with
  | some s => strtodInt ((u.drop s).takeWhile isdigit)
  | none => 80

/-- `url->path`, with its terminator. -/
def urlPath (id : Nat) (url : Tok) (k : UrlMarks) (m : List Byte) (out : Url) :
    List Byte × Url :=
  match k.pathStart with
  | some s =>
    let e := k.pathEnd.getD url.len
    (m.set (url.off + e) NUL, { out with path := urlPart id url s e })
  | none => (m, out)

/-- `url->query_string`, with its terminator. -/
def urlQuery (id : Nat) (url : Tok) (k : UrlMarks) (m : List Byte) (out : Url) :
    List Byte × Url :=
  match k.queryStart with
  | some s =>
    let e := k.queryEnd.getD url.len
    (m.set (url.off + e) NUL, { out with queryString := urlPart id url s e })
  | none => (m, out)

/-- `url->schema`, with its terminator; `none` is the failing exit. -/
def urlSchema (id : Nat) (url : Tok) (k : UrlMarks) (m : List Byte) (out : Url) :
    Option (List Byte × Url) :=
  match k.schemaStart, k.schemaEnd with
  | some s, some e => some (m.set (url.off + e) NUL, { out with schema := urlPart id url s e })
  | some _, none => none
  | none, _ => some (m, out)

/-- `url->host`, a copy; `none` is the failing exit. -/
def urlHost (url : Tok) (k : UrlMarks) (m : List Byte) (out : Url) : Option Url :=
  match k.hostStart, k.hostEnd with
  | some s, some e =>
    some { out with host := poolStrndup ((m.drop (url.off + s)).take (e - s)) }
  | some _, none => none
  | none, _ => some out

/-- The part of `http_parse_url` after the loop. -/
def urlRecord (id : Nat) (url : Tok) (k : UrlMarks) (m : List Byte) (out : Url) :
    ParseRet × List Byte × Url :=
  match urlSchema id url k m out with
  | none => (.fail, m, out)
  | some (m, out) =>
    match urlHost url k m out with
    | none => (.fail, m, out)
    | some out =>
      if k.portStart.isSome && k.portEnd.isNone then (.fail, m, out)
      else
        let out := { out with port := urlPort ((m.drop url.off).take url.len) k }
        let (m, out) := urlPath id url k m out
        let (m, out) := urlQuery id url k m out
        (.done, m, out)

/-- `http_parse_url` on the token `url` of the block `m`. -/
def httpParseUrl (id : Nat) (m : List Byte) (out : Url) (url : Tok) :
    ParseRet × List Byte × Url :=
  let u := (m.drop url.off).take url.len
  let out := { out with unparsedUrl := poolStrndup u }
  match urlScan u 0 .start {} with
  | none => (.fail, m, out)
  | some k => urlRecord id url k m out

/-! ## The marks stay inside the token -/

/-- Every mark is an offset of the token or its end. -/
structure UrlMarks.Le (k : UrlMarks) (n : Nat) : Prop where
  schemaEnd : ∀ e ∈ k.schemaEnd, e ≤ n
  hostStart : ∀ s ∈ k.hostStart, s ≤ n
  hostEnd : ∀ e ∈ k.hostEnd, e ≤ n
  pathStart : ∀ s ∈ k.pathStart, s ≤ n
  pathEnd : ∀ e ∈ k.pathEnd, e ≤ n
  queryStart : ∀ s ∈ k.queryStart, s ≤ n
  queryEnd : ∀ e ∈ k.queryEnd, e ≤ n

theorem UrlMarks.Le.mono {k : UrlMarks} {n n' : Nat} (h : k.Le n) (hn : n ≤ n') : k.Le n' where
  schemaEnd e he := Nat.le_trans (h.schemaEnd e he) hn
  hostStart s hs := Nat.le_trans (h.hostStart s hs) hn
  hostEnd e he := Nat.le_trans (h.hostEnd e he) hn
  pathStart s hs := Nat.le_trans (h.pathStart s hs) hn
  pathEnd e he := Nat.le_trans (h.pathEnd e he) hn
  queryStart s hs := Nat.le_trans (h.queryStart s hs) hn
  queryEnd e he := Nat.le_trans (h.queryEnd e he) hn

theorem urlStep_le {s s' : UrlState} {k k' : UrlMarks} {p : Nat} {c : Byte}
    (h : urlStep s k p c = some (s', k')) (hk : k.Le p) : k'.Le (p + 1) := by
  have hk' := hk.mono (Nat.le_succ p)
  unfold urlStep at h
  cases s <;> simp only [] at h <;> (try split_ifs at h) <;>
    simp only [Option.some.injEq, Prod.mk.injEq, reduceCtorEq] at h <;>
    obtain ⟨-, rfl⟩ := h <;>
    constructor <;>
    first
      | exact hk'.schemaEnd | exact hk'.hostStart | exact hk'.hostEnd | exact hk'.pathStart
      | exact hk'.pathEnd | exact hk'.queryStart | exact hk'.queryEnd | simp

theorem urlScan_le {u : List Byte} {p : Nat} {s : UrlState} {k k' : UrlMarks}
    (h : urlScan u p s k = some k') (hk : k.Le p) : k'.Le (p + u.length) := by
  induction u generalizing p s k with
  | nil =>
      simp only [urlScan, Option.some.injEq] at h
      subst h
      simpa using hk
  | cons c cs ih =>
      simp only [urlScan] at h
      split_ifs at h with hc
      · simp only [Option.some.injEq] at h
        subst h
        exact hk.mono (Nat.le_add_right ..)
      · have hlen : p + (c :: cs).length = p + 1 + cs.length := by simp; omega
        rw [hlen]
        split at h
        · simp at h
        · next k₁ hstep =>
          simp only [Option.some.injEq] at h
          subst h
          exact (urlStep_le hstep hk).mono (Nat.le_add_right ..)
        · next s₁ k₁ _ hstep => exact ih h (urlStep_le hstep hk)

/-! ## Frame lemma -/

namespace Str

/-- Move a pointer into a header buffer by `d`. -/
def shift (d : Nat) (s : Str) : Str :=
  match s.data with
  | .buf id off => ⟨.buf id (d + off), s.len⟩
  | _ => s

@[simp] theorem shift_null (d : Nat) : Str.null.shift d = .null := rfl

@[simp] theorem shift_poolStrndup (d : Nat) (s : List Byte) :
    (poolStrndup s).shift d = poolStrndup s := by
  unfold poolStrndup
  split <;> rfl

end Str

@[simp] theorem Tok.str_shift (id d : Nat) (t : Tok) : (t.shift d).str id = (t.str id).shift d :=
  rfl

/-- Move all pointers of a URL into a header buffer by `d`. -/
def Url.shift (d : Nat) (u : Url) : Url :=
  { unparsedUrl := u.unparsedUrl.shift d
    schema := u.schema.shift d
    host := u.host.shift d
    port := u.port
    path := u.path.shift d
    queryString := u.queryString.shift d }

@[simp] theorem urlPart_shift (id d : Nat) (url : Tok) (s e : Nat) :
    urlPart id (url.shift d) s e = (urlPart id url s e).shift d := by
  simp [urlPart, Str.shift, Nat.add_assoc]

section Frame

variable (id : Nat) {m : List Byte} (url : Tok) (k : UrlMarks) (out : Url)
  (pre post : List Byte)

theorem urlSchema_frame (hurl : url.off + url.len < m.length) (hk : k.Le url.len) :
    urlSchema id (url.shift pre.length) k (pre ++ m ++ post) (out.shift pre.length)
      = (urlSchema id url k m out).map
          fun x => (pre ++ x.1 ++ post, x.2.shift pre.length) := by
  unfold urlSchema
  rcases hs : k.schemaStart with _ | s
  · rfl
  · rcases he : k.schemaEnd with _ | e
    · rfl
    · have hle := hk.schemaEnd e he
      simp only [Tok.shift_off, urlPart_shift, Option.map_some, Option.some.injEq,
        Prod.mk.injEq, Url.shift, and_true]
      rw [Nat.add_assoc]
      exact set_frame pre m post (by omega) NUL

theorem urlSchema_length {m' : List Byte} {out' : Url}
    (h : urlSchema id url k m out = some (m', out')) : m'.length = m.length := by
  unfold urlSchema at h
  split at h <;> simp_all
  all_goals (obtain ⟨rfl, -⟩ := h; simp)

theorem urlHost_frame (hurl : url.off + url.len < m.length) (hk : k.Le url.len) :
    urlHost (url.shift pre.length) k (pre ++ m ++ post) (out.shift pre.length)
      = (urlHost url k m out).map (Url.shift pre.length) := by
  unfold urlHost
  rcases hs : k.hostStart with _ | s
  · rfl
  · rcases he : k.hostEnd with _ | e
    · rfl
    · have hles := hk.hostStart s hs
      have hlee := hk.hostEnd e he
      simp only [Tok.shift_off, Option.map_some, Option.some.injEq, Url.shift,
        Str.shift_poolStrndup]
      rw [Nat.add_assoc, take_drop_frame pre m post (by omega)]

theorem urlPath_frame (hurl : url.off + url.len < m.length) (hk : k.Le url.len) :
    urlPath id (url.shift pre.length) k (pre ++ m ++ post) (out.shift pre.length)
      = (pre ++ (urlPath id url k m out).1 ++ post,
          (urlPath id url k m out).2.shift pre.length) := by
  unfold urlPath
  rcases hs : k.pathStart with _ | s
  · rfl
  · have hle : k.pathEnd.getD url.len ≤ url.len := by
      rcases he : k.pathEnd with _ | e
      · simp
      · simpa using hk.pathEnd e he
    simp only [Tok.shift_off, Tok.shift_len, urlPart_shift, Prod.mk.injEq, Url.shift, and_true]
    rw [Nat.add_assoc]
    exact set_frame pre m post (by omega) NUL

theorem urlPath_length : (urlPath id url k m out).1.length = m.length := by
  unfold urlPath
  split <;> simp

theorem urlQuery_frame (hurl : url.off + url.len < m.length) (hk : k.Le url.len) :
    urlQuery id (url.shift pre.length) k (pre ++ m ++ post) (out.shift pre.length)
      = (pre ++ (urlQuery id url k m out).1 ++ post,
          (urlQuery id url k m out).2.shift pre.length) := by
  unfold urlQuery
  rcases hs : k.queryStart with _ | s
  · rfl
  · have hle : k.queryEnd.getD url.len ≤ url.len := by
      rcases he : k.queryEnd with _ | e
      · simp
      · simpa using hk.queryEnd e he
    simp only [Tok.shift_off, Tok.shift_len, urlPart_shift, Prod.mk.injEq, Url.shift, and_true]
    rw [Nat.add_assoc]
    exact set_frame pre m post (by omega) NUL

theorem urlQuery_length : (urlQuery id url k m out).1.length = m.length := by
  unfold urlQuery
  split <;> simp

theorem urlRecord_frame (hurl : url.off + url.len < m.length) (hk : k.Le url.len) :
    urlRecord id (url.shift pre.length) k (pre ++ m ++ post) (out.shift pre.length)
      = ((urlRecord id url k m out).1, pre ++ (urlRecord id url k m out).2.1 ++ post,
          (urlRecord id url k m out).2.2.shift pre.length) := by
  unfold urlRecord
  rw [urlSchema_frame id url k out pre post hurl hk]
  rcases hs : urlSchema id url k m out with _ | ⟨m₁, out₁⟩
  · rfl
  · have hurl₁ : url.off + url.len < m₁.length := by
      rwa [urlSchema_length id url k out hs]
    simp only [Option.map_some]
    rw [urlHost_frame url k out₁ pre post hurl₁ hk]
    rcases hh : urlHost url k m₁ out₁ with _ | out₂
    · rfl
    · simp only [Option.map_some]
      by_cases hport : (k.portStart.isSome && k.portEnd.isNone) = true
      · simp [hport]
      · simp only [hport, Bool.false_eq_true, if_false, Tok.shift_off, Tok.shift_len]
        rw [take_drop_frame pre m₁ post (by omega)]
        have hshift : ∀ (o : Url) (n : Int),
            ({ o.shift pre.length with port := n } : Url)
              = ({ o with port := n } : Url).shift pre.length := fun _ _ => rfl
        rw [hshift]
        generalize hout₃ : ({ out₂ with
          port := urlPort ((m₁.drop url.off).take url.len) k } : Url) = out₃
        have hurl₂ : url.off + url.len < (urlPath id url k m₁ out₃).1.length := by
          rwa [urlPath_length]
        rw [urlPath_frame id url k out₃ pre post hurl₁ hk]
        simp only
        rw [urlQuery_frame id url k _ pre post hurl₂ hk]

theorem httpParseUrl_frame (hurl : url.off + url.len < m.length) :
    httpParseUrl id (pre ++ m ++ post) (out.shift pre.length) (url.shift pre.length)
      = ((httpParseUrl id m out url).1, pre ++ (httpParseUrl id m out url).2.1 ++ post,
          (httpParseUrl id m out url).2.2.shift pre.length) := by
  have hu : ((pre ++ m ++ post).drop (pre.length + url.off)).take url.len
      = (m.drop url.off).take url.len := take_drop_frame pre m post (by omega)
  have hout : ({ out.shift pre.length with
        unparsedUrl := poolStrndup ((m.drop url.off).take url.len) } : Url)
      = ({ out with unparsedUrl := poolStrndup ((m.drop url.off).take url.len) } : Url).shift
          pre.length := by
    simp [Url.shift]
  simp only [httpParseUrl, Tok.shift_off, Tok.shift_len, hu, hout]
  rcases hk : urlScan ((m.drop url.off).take url.len) 0 .start {} with _ | k
  · rfl
  · have hle : k.Le url.len := by
      have h0 : ({} : UrlMarks).Le 0 := by constructor <;> simp
      refine (urlScan_le hk h0).mono ?_
      rw [Nat.zero_add, List.length_take]
      exact Nat.min_le_left _ _
    exact urlRecord_frame id url k _ pre post hurl hle

end Frame

theorem httpParseUrl_length (id : Nat) (m : List Byte) (out : Url) (url : Tok) :
    (httpParseUrl id m out url).2.1.length = m.length := by
  unfold httpParseUrl
  simp only
  split
  · rfl
  · next k _ =>
    unfold urlRecord
    split
    · rfl
    · next m₁ out₁ hs =>
      have h₁ := urlSchema_length id url k _ hs
      split
      · exact h₁
      · split
        · exact h₁
        · simp only [urlQuery_length, urlPath_length, h₁]

theorem httpParseUrl_ne_again (id : Nat) (m : List Byte) (out : Url) (url : Tok) :
    (httpParseUrl id m out url).1 ≠ .again := by
  unfold httpParseUrl
  simp only
  split
  · simp
  · unfold urlRecord
    repeat' split
    all_goals simp

/-- The number of the block is only noted in the pointers. -/
theorem httpParseUrl_ret (id id' : Nat) (m : List Byte) (url : Tok) :
    (httpParseUrl id m {} url).1 = (httpParseUrl id' m {} url).1 := by
  unfold httpParseUrl
  simp only
  split
  · rfl
  · next k _ =>
    simp only [urlRecord, urlSchema, urlHost]
    rcases k.schemaStart with _ | a <;> rcases k.schemaEnd with _ | b <;>
      rcases k.hostStart with _ | c <;> rcases k.hostEnd with _ | d <;>
      simp only [] <;> try rfl
    all_goals split <;> rfl

/-! ## What the recorder has recorded -/

/-- The marks of a token with which the recorder does not fail. -/
structure UrlMarks.Complete (k : UrlMarks) : Prop where
  schema : k.schemaStart.isSome → k.schemaEnd.isSome
  host : k.hostStart.isSome → k.hostEnd.isSome
  port : k.portStart.isSome → k.portEnd.isSome

theorem urlSchema_some {id : Nat} {url : Tok} {k : UrlMarks} {m m' : List Byte} {out out' : Url}
    (h : urlSchema id url k m out = some (m', out')) :
    (k.schemaStart.isSome → k.schemaEnd.isSome) ∧ out'.unparsedUrl = out.unparsedUrl ∧
      out'.path = out.path := by
  unfold urlSchema at h
  split at h
  · next hs he =>
    simp only [Option.some.injEq, Prod.mk.injEq] at h
    rw [← h.2]
    exact ⟨fun _ => by rw [he]; rfl, rfl, rfl⟩
  · cases h
  · next hs =>
    simp only [Option.some.injEq, Prod.mk.injEq] at h
    rw [← h.2]
    refine ⟨fun hsome => ?_, rfl, rfl⟩
    rw [hs] at hsome
    cases hsome

theorem urlHost_some {url : Tok} {k : UrlMarks} {m : List Byte} {out out' : Url}
    (h : urlHost url k m out = some out') :
    (k.hostStart.isSome → k.hostEnd.isSome) ∧ out'.unparsedUrl = out.unparsedUrl ∧
      out'.path = out.path := by
  unfold urlHost at h
  split at h
  · next hs he =>
    rw [← Option.some.inj h]
    exact ⟨fun _ => by rw [he]; rfl, rfl, rfl⟩
  · cases h
  · next hs =>
    rw [← Option.some.inj h]
    refine ⟨fun hsome => ?_, rfl, rfl⟩
    rw [hs] at hsome
    cases hsome

/-- The path that is recorded. -/
def UrlMarks.path (id : Nat) (url : Tok) (k : UrlMarks) : Str :=
  match k.pathStart with
  | some s => urlPart id url s (k.pathEnd.getD url.len)
  | none => .null

theorem urlRecord_complete {id : Nat} {url : Tok} {k : UrlMarks} {m m' : List Byte} {out out' : Url}
    (h : urlRecord id url k m out = (.done, m', out')) : k.Complete := by
  unfold urlRecord at h
  split at h
  · cases h
  next m₁ out₁ h₁ =>
  split at h
  · cases h
  next out₂ h₂ =>
  split at h
  · cases h
  next hport =>
  refine ⟨(urlSchema_some h₁).1, (urlHost_some h₂).1, fun hs => ?_⟩
  simp only [hs, Bool.true_and, Bool.not_eq_true, Option.isNone_eq_false_iff] at hport
  exact hport

/-- A recorder that does not fail has complete marks, and records the path they mark. -/
theorem urlRecord_done {id : Nat} {url : Tok} {k : UrlMarks} {m m' : List Byte} {out out' : Url}
    (h : urlRecord id url k m out = (.done, m', out')) (hout : out.path = .null) :
    k.Complete ∧ out'.unparsedUrl = out.unparsedUrl ∧ out'.path = k.path id url := by
  have hk := urlRecord_complete h
  unfold urlRecord at h
  split at h
  · cases h
  next m₁ out₁ h₁ =>
  obtain ⟨-, hurl₁, hpath₁⟩ := urlSchema_some h₁
  split at h
  · cases h
  next out₂ h₂ =>
  obtain ⟨-, hurl₂, hpath₂⟩ := urlHost_some h₂
  split at h
  · cases h
  simp only [Prod.mk.injEq, true_and] at h
  refine ⟨hk, ?_, ?_⟩
  · -- the query is recorded next to the path
    rw [← hurl₁, ← hurl₂, ← h.2]
    unfold urlQuery urlPath
    split <;> split <;> rfl
  · have hquery : ∀ (x : List Byte × Url), (urlQuery id url k x.1 x.2).2.path = x.2.path := by
      intro x
      unfold urlQuery
      split <;> rfl
    rw [← h.2, hquery]
    unfold urlPath UrlMarks.path
    split
    · rfl
    · exact hpath₂.trans (hpath₁.trans hout)

end XwpServer
