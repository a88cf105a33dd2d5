/-
  XwpServer.UrlSplit

  What `http_parse_url` records of an accepted string.

  The marks of a string are those of its parts, and each recorded string is the part,
  with the terminator the recorder has written behind it.
-/

import XwpServer.LineStrings
import XwpServer.UrlGrammar

namespace XwpServer

open CString Scan

/-- The string `str` is `s`, in the block `id` with content `m`, and as long as it says. -/
def Str.Recorded (id : Nat) (m : List Byte) (str : Str) (s : List Byte) : Prop :=
  ∃ off, str.data = .buf id off ∧ strAt m off = some s ∧ str.len = s.length

/-- The record `out` of a URL is that of its parts `u`. -/
structure SplitsUrl (id : Nat) (m s : List Byte) (out : Url) (u : UrlParts) : Prop where
  /-- Nothing is lost. -/
  text : s = u.text
  unparsedUrl : out.unparsedUrl = ⟨.lit s, s.length⟩
  schema : ∀ a, u.authority = some a → out.schema.Recorded id m a.schema
  /-- The host is a copy. -/
  host : ∀ a, u.authority = some a → out.host = poolStrndup a.host
  noAuthority : u.authority = none → out.schema = .null ∧ out.host = .null ∧ out.port = 80
  noPort : ∀ a, u.authority = some a → a.port = none → out.port = 80
  port : ∀ a d, u.authority = some a → a.port = some d → (∀ c ∈ d, isdigit c = true) ∧
    (decVal d < 2 ^ 31 → out.port = decVal d)
  path : (u.path = [] ∧ out.path = .null) ∨
    ((∃ rest, u.path = SLASH :: rest) ∧ out.path.Recorded id m u.path)
  pathBytes : QUESTION ∉ u.path ∧ HASH ∉ u.path
  noQuery : u.query = none → out.queryString = .null
  query : ∀ q, u.query = some q → out.queryString.Recorded id m q ∧ HASH ∉ q

/-! ## The parts in the token -/

/-- A piece of a token that was recorded where it stands. -/
theorem recorded_urlPart {id : Nat} {a x b m : List Byte} {n : Nat}
    (h : (urlPart id ⟨0, n⟩ a.length (a.length + x.length)).InLine id (a ++ (x ++ b) ++ [NUL]) m) :
    (urlPart id ⟨0, n⟩ a.length (a.length + x.length)).Recorded id m x := by
  obtain ⟨-, -, hstr⟩ := h
  refine ⟨0 + a.length, rfl, ?_, Nat.add_sub_cancel_left ..⟩
  refine hstr.trans ?_
  show some ((List.drop (0 + a.length) (a ++ (x ++ b) ++ [NUL])).take
    (a.length + x.length - a.length)) = some x
  rw [Nat.zero_add, Nat.add_sub_cancel_left, List.append_assoc, List.drop_left, List.append_assoc,
    List.take_left]

/-- A recorded string is found in any larger block. -/
theorem Str.Recorded.shift {id : Nat} {m s : List Byte} {str : Str} (h : str.Recorded id m s)
    (pre post : List Byte) :
    (str.shift pre.length).Recorded id (pre ++ m ++ post) s := by
  obtain ⟨off, hoff, hstr, hlen⟩ := h
  obtain ⟨data, len⟩ := str
  cases hoff
  exact ⟨pre.length + off, rfl, strAt_frame hstr pre post, hlen⟩

theorem SplitsUrl.shift {id : Nat} {m s : List Byte} {out : Url} {u : UrlParts}
    (h : SplitsUrl id m s out u) (pre post : List Byte) :
    SplitsUrl id (pre ++ m ++ post) s (out.shift pre.length) u where
  text := h.text
  unparsedUrl := by
    show out.unparsedUrl.shift pre.length = _
    rw [h.unparsedUrl]
    rfl
  schema a ha := (h.schema a ha).shift pre post
  host a ha := by
    show out.host.shift pre.length = _
    rw [h.host a ha, Str.shift_poolStrndup]
  noAuthority ha := by
    obtain ⟨h₁, h₂, h₃⟩ := h.noAuthority ha
    show out.schema.shift pre.length = _ ∧ out.host.shift pre.length = _ ∧ _
    rw [h₁, h₂]
    exact ⟨rfl, rfl, h₃⟩
  noPort := h.noPort
  port := h.port
  path := by
    rcases h.path with ⟨h₁, h₂⟩ | ⟨h₁, h₂⟩
    · left
      show _ ∧ out.path.shift pre.length = _
      rw [h₂]
      exact ⟨h₁, rfl⟩
    · exact .inr ⟨h₁, h₂.shift pre post⟩
  pathBytes := h.pathBytes
  noQuery hq := by
    show out.queryString.shift pre.length = _
    rw [h.noQuery hq]
    rfl
  query q hq := ⟨(h.query q hq).1.shift pre post, (h.query q hq).2⟩

/-! ## The recorder on the marks of parts -/

section Record

variable {id : Nat} {url : Tok} {m : List Byte} {out : Url} {u : UrlParts}

/-- The path and the query of the parts, behind `n` bytes. -/
theorem urlPath_parts (n : Nat) (k : UrlMarks) (hlen : url.len = n + u.pathText.length) :
    (urlPath id url (u.pathMarks n k) m out).2
      = { out with path := urlPart id url n (n + u.path.length) } := by
  unfold urlPath
  show { out with path := urlPart id url n (Option.getD _ url.len) } = _
  congr 2
  unfold UrlParts.pathMarks
  dsimp only
  split
  · next h =>
    rw [hlen, UrlParts.pathText, h.1, h.2]
    simp [marked]
  · rfl

theorem urlQuery_parts (n : Nat) (k : UrlMarks) (hlen : url.len = n + u.pathText.length) :
    (urlQuery id url (u.pathMarks n k) m out).2
      = match u.query with
        | none => out
        | some q => { out with
            queryString := urlPart id url (n + u.path.length + 1)
              (n + u.path.length + 1 + q.length) } := by
  unfold urlQuery
  cases hq : u.query with
  | none => simp [UrlParts.pathMarks, hq]
  | some q =>
      simp only [UrlParts.pathMarks, hq, Option.map_some, Option.bind_some]
      congr 2
      cases hf : u.fragment with
      | none =>
          rw [Option.map_none, Option.getD_none, hlen, UrlParts.pathText, hq, hf]
          simp only [marked, List.append_nil, List.length_append, List.length_cons]
          omega
      | some f => rfl

/-- The length of what stands before the path. -/
def UrlParts.pathAt (u : UrlParts) : Nat :=
  match u.authority with
  | none => 0
  | some a => a.text.length

/-- The record of the parts of a token that starts its block. -/
def UrlParts.record (u : UrlParts) (id : Nat) (url : Tok) : Url :=
  { unparsedUrl := poolStrndup u.text
    schema := match u.authority with
      | none => .null
      | some a => urlPart id url 0 a.schema.length
    host := match u.authority with
      | none => .null
      | some a => poolStrndup a.host
    port := (u.authority.bind (·.port)).elim 80 strtodInt
    path := if u.path = [] then .null else urlPart id url u.pathAt (u.pathAt + u.path.length)
    queryString := match u.query with
      | none => .null
      | some q => urlPart id url (u.pathAt + u.path.length + 1)
          (u.pathAt + u.path.length + 1 + q.length) }

theorem text_length : u.text.length = u.pathAt + u.pathText.length := by
  unfold UrlParts.text UrlParts.pathAt
  cases u.authority with
  | none => simp
  | some a => simp

/-- The path and the query are recorded last. -/
theorem pathQuery_record (n : Nat) (k : UrlMarks) (hlen : url.len = n + u.pathText.length) :
    (urlQuery id url (u.pathMarks n k) (urlPath id url (u.pathMarks n k) m out).1
      (urlPath id url (u.pathMarks n k) m out).2).2
      = match u.query with
        | none => { out with path := urlPart id url n (n + u.path.length) }
        | some q => { out with
            path := urlPart id url n (n + u.path.length)
            queryString := urlPart id url (n + u.path.length + 1)
              (n + u.path.length + 1 + q.length) } := by
  rw [urlQuery_parts n k hlen, urlPath_parts n k hlen]

theorem take_token (s : List Byte) : ((s ++ [NUL]).drop 0).take s.length = s := by simp

/-- The bytes of the host, behind the terminator of the schema. -/
theorem host_bytes {a : Authority} (t : List Byte) :
    (((a.text ++ t).set a.schema.length NUL).drop a.hostAt).take a.host.length = a.host := by
  have hsplit : a.text ++ t = (a.schema ++ COLON :: List.replicate a.slashes SLASH) ++
      (a.host ++ (marked COLON a.port ++ t)) := by
    simp [Authority.text]
  have hat : a.hostAt = (a.schema ++ COLON :: List.replicate a.slashes SLASH).length := by
    simp only [Authority.hostAt, List.length_append, List.length_cons, List.length_replicate]
    omega
  rw [List.drop_set_of_lt (by unfold Authority.hostAt; omega), hsplit, hat, List.drop_left,
    List.take_left]

/-- The digits of the port. -/
theorem port_bytes {a : Authority} {d t : List Byte} (hd : ∀ c ∈ d, isdigit c = true)
    (hp : a.port = some d) :
    (((a.text ++ SLASH :: t).set a.schema.length NUL).drop
      (a.hostAt + a.host.length + 1)).takeWhile isdigit = d := by
  have hsplit : a.text ++ SLASH :: t
      = (a.schema ++ COLON :: (List.replicate a.slashes SLASH ++ (a.host ++ [COLON]))) ++
        (d ++ SLASH :: t) := by
    simp [Authority.text, hp, marked]
  have hat : a.hostAt + a.host.length + 1
      = (a.schema ++ COLON :: (List.replicate a.slashes SLASH ++ (a.host ++ [COLON]))).length := by
    simp only [Authority.hostAt, List.length_append, List.length_cons, List.length_replicate,
      List.length_nil]
    omega
  rw [List.drop_set_of_lt (by unfold Authority.hostAt; omega), hsplit, hat, List.drop_left,
    List.takeWhile_append_of_pos hd, List.takeWhile_cons_of_neg (by decide), List.append_nil]

/-- An authority with a host, recorded before the path. -/
theorem urlRecord_authority {a : Authority} (ha : a.WellFormed) {t : List Byte} {n : Nat}
    {rest : List Byte} (ht : t = SLASH :: rest) (hn : n = (a.text ++ t).length)
    (hlen : n = a.text.length + u.pathText.length) :
    (urlRecord id ⟨0, n⟩ (u.pathMarks a.text.length a.marks) (a.text ++ t ++ [NUL]) out).2.2
      = match u.query with
        | none => { out with
            schema := urlPart id ⟨0, n⟩ 0 a.schema.length, host := poolStrndup a.host
            port := a.port.elim 80 strtodInt
            path := urlPart id ⟨0, n⟩ a.text.length (a.text.length + u.path.length) }
        | some q => { out with
            schema := urlPart id ⟨0, n⟩ 0 a.schema.length, host := poolStrndup a.host
            port := a.port.elim 80 strtodInt
            path := urlPart id ⟨0, n⟩ a.text.length (a.text.length + u.path.length)
            queryString := urlPart id ⟨0, n⟩ (a.text.length + u.path.length + 1)
              (a.text.length + u.path.length + 1 + q.length) } := by
  -- the four parts are recorded one after the other; the schema's terminator is there before
  -- the host and the port are read
  have hcomplete : ¬ ((u.pathMarks a.text.length a.marks).portStart.isSome
      && (u.pathMarks a.text.length a.marks).portEnd.isNone) = true := by
    simp [UrlParts.pathMarks, Authority.marks]
    cases a.port <;> simp
  have hschema : urlSchema id ⟨0, n⟩ (u.pathMarks a.text.length a.marks) (a.text ++ t ++ [NUL]) out
      = some ((a.text ++ t ++ [NUL]).set a.schema.length NUL,
          { out with schema := urlPart id ⟨0, n⟩ 0 a.schema.length }) := by
    simp [urlSchema, UrlParts.pathMarks, Authority.marks, Authority.schemaMarks]
  have hhost : ∀ out, urlHost ⟨0, n⟩ (u.pathMarks a.text.length a.marks)
      ((a.text ++ t ++ [NUL]).set a.schema.length NUL) out
      = some { out with host := poolStrndup a.host } := by
    intro out
    simp only [urlHost, UrlParts.pathMarks, Authority.marks, Nat.zero_add, Nat.add_sub_cancel_left]
    rw [List.append_assoc, host_bytes]
  have hport : urlPort ((((a.text ++ t ++ [NUL]).set a.schema.length NUL).drop 0).take n)
      (u.pathMarks a.text.length a.marks) = a.port.elim 80 strtodInt := by
    simp only [urlPort, UrlParts.pathMarks, Authority.marks]
    cases hp : a.port with
    | none => rfl
    | some d =>
        have htake : ((((a.text ++ t ++ [NUL]).set a.schema.length NUL).drop 0).take n)
            = (a.text ++ t).set a.schema.length NUL := by
          have hlt : a.schema.length < (a.text ++ t).length := by
            simp only [Authority.text, List.length_append, List.length_cons]
            omega
          rw [List.drop_zero, List.set_append_left _ _ hlt, hn]
          exact List.take_left' (by simp)
        simp only [Option.map_some, Option.elim_some]
        rw [htake, ht, port_bytes (ha.port d hp) hp]
  simp only [urlRecord, hschema, hhost, hcomplete, Bool.false_eq_true, if_false, hport]
  rw [pathQuery_record (u := u) _ _ hlen]

/-- The recorder on the parts of an accepted URL. -/
theorem urlRecord_parts (hu : u.Accepted) :
    (urlRecord id ⟨0, u.text.length⟩ u.marks (u.text ++ [NUL])
      { unparsedUrl := poolStrndup u.text }).2.2 = u.record id ⟨0, u.text.length⟩ := by
  have hlen := text_length (u := u)
  -- a URL with a path, or a schema and slashes only
  rcases hu with ⟨hu, -⟩ | ⟨a, hu⟩
  · obtain ⟨rest, hpath⟩ := hu.slash
    have hne : u.path ≠ [] := by simp [hpath]
    -- without an authority there are no marks in front of the path
    cases hauth : u.authority with
    | none =>
        have hmarks : u.marks = u.pathMarks 0 {} := by simp [UrlParts.marks, hauth]
        have hat : u.pathAt = 0 := by simp [UrlParts.pathAt, hauth]
        rw [hat] at hlen
        have hport : urlPort (((u.text ++ [NUL]).drop 0).take u.text.length) (u.pathMarks 0 {})
            = 80 := rfl
        rw [hmarks]
        simp only [urlRecord, urlSchema, urlHost, UrlParts.pathMarks, Option.isSome_none,
          Bool.false_and, Bool.false_eq_true, if_false]
        refine (pathQuery_record 0 {} hlen).trans ?_
        unfold UrlParts.record
        rw [hauth, hat, if_neg hne]
        cases u.query <;> rfl
    | some a =>
        have ha := hu.authority a hauth
        have hmarks : u.marks = u.pathMarks a.text.length a.marks := by
          simp [UrlParts.marks, hauth, ha.host_ne]
        have hat : u.pathAt = a.text.length := by simp [UrlParts.pathAt, hauth]
        rw [hat] at hlen
        have htext : u.text = a.text ++ u.pathText := by simp [UrlParts.text, hauth]
        have hpathText : u.pathText
            = SLASH :: (rest ++ (marked QUESTION u.query ++ marked HASH u.fragment)) := by
          rw [UrlParts.pathText, hpath, List.cons_append]
        rw [hmarks]
        nth_rewrite 2 [htext]
        refine (urlRecord_authority ha hpathText (congrArg List.length htext) hlen).trans ?_
        unfold UrlParts.record
        rw [hauth, hat, if_neg hne]
        cases u.query <;> rfl
  · have hmarks : u.marks = a.schemaMarks := by simp [UrlParts.marks, hu.authority, hu.host]
    rw [hmarks]
    simp [urlRecord, urlSchema, urlHost, Authority.schemaMarks, UrlParts.record, hu.authority,
      hu.host, hu.port, hu.path, hu.query, poolStrndup, urlPort, urlPath, urlQuery, Str.null]

end Record

/-! ## The function -/

section Splits

variable {id : Nat} {u : UrlParts} {m : List Byte}

/-- What stands before the path. -/
def UrlParts.before (u : UrlParts) : List Byte :=
  match u.authority with
  | none => []
  | some a => a.text

theorem before_length : u.before.length = u.pathAt := by
  unfold UrlParts.before UrlParts.pathAt
  cases u.authority <;> rfl

theorem text_before : u.text = u.before ++ u.pathText := rfl

/-- A string recorded at its place in the text. -/
theorem recorded_at {a x b : List Byte} (htext : u.text = a ++ (x ++ b)) {i e : Nat}
    (hi : i = a.length) (he : e = a.length + x.length)
    (h : (urlPart id ⟨0, u.text.length⟩ i e).InLine id (u.text ++ [NUL]) m) :
    (urlPart id ⟨0, u.text.length⟩ i e).Recorded id m x := by
  subst hi he
  rw [htext] at h ⊢
  exact recorded_urlPart h

theorem Accepted.pathBytes (hu : u.Accepted) : QUESTION ∉ u.path ∧ HASH ∉ u.path := by
  rcases hu with ⟨hu, -⟩ | ⟨a, hu⟩
  · exact hu.path
  · rw [hu.path]
    exact ⟨List.not_mem_nil, List.not_mem_nil⟩

/-- The record of the parts is one of the text. -/
theorem splits_record (hu : u.Accepted)
    (hin : (u.record id ⟨0, u.text.length⟩).InLine id (u.text ++ [NUL]) m) :
    SplitsUrl id m u.text (u.record id ⟨0, u.text.length⟩) u where
  text := rfl
  unparsedUrl := by
    have hne : u.text ≠ [] := by
      intro h
      rcases hu with ⟨hu, -⟩ | ⟨a, hu⟩
      · obtain ⟨rest, hpath⟩ := hu.slash
        rw [text_before, UrlParts.pathText, hpath] at h
        simp at h
      · rw [text_before, UrlParts.before, hu.authority] at h
        simp [Authority.text] at h
    exact if_neg hne
  schema a ha := by
    have hs := hin.schema
    simp only [UrlParts.record, ha] at hs ⊢
    -- each string is the piece of the text that it names
    have htext : u.text = [] ++ (a.schema ++ (COLON :: (List.replicate a.slashes SLASH ++
        (a.host ++ marked COLON a.port)) ++ u.pathText)) := by
      simp [text_before, UrlParts.before, ha, Authority.text]
    exact recorded_at htext rfl (by simp) hs
  host a ha := by simp only [UrlParts.record, ha]
  noAuthority ha := by
    refine ⟨?_, ?_, ?_⟩ <;> simp [UrlParts.record, ha]
  noPort a ha hp := by simp [UrlParts.record, ha, hp]
  port a d ha hp := by
    -- a schema with slashes only has no port
    have hdigits : ∀ c ∈ d, isdigit c = true := by
      rcases hu with ⟨hu, -⟩ | ⟨a', hu⟩
      · exact (hu.authority a ha).port d hp
      · have hport := hu.port
        have hauth := hu.authority
        rw [ha] at hauth
        cases hauth
        rw [hp] at hport
        cases hport
    refine ⟨hdigits, fun hlt => ?_⟩
    simp only [UrlParts.record, ha, Option.bind_some, hp, Option.elim_some, strtodInt, if_pos hlt]
  path := by
    by_cases hpath : u.path = []
    · exact .inl ⟨hpath, if_pos hpath⟩
    right
    have hs := hin.path
    simp only [UrlParts.record, if_neg hpath] at hs ⊢
    have htext : u.text = u.before ++ (u.path ++ _) := rfl
    refine ⟨?_, recorded_at htext before_length.symm (by rw [before_length]) hs⟩
    rcases hu with ⟨hu, -⟩ | ⟨a, hu⟩
    · exact hu.slash
    · exact absurd hu.path hpath
  pathBytes := Accepted.pathBytes hu
  noQuery hq := by simp only [UrlParts.record, hq]
  query q hq := by
    have hs := hin.queryString
    simp only [UrlParts.record, hq] at hs ⊢
    have htext : u.text = (u.before ++ (u.path ++ [QUESTION])) ++
        (q ++ marked HASH u.fragment) := by
      rw [text_before, UrlParts.pathText, hq]
      simp [marked]
    have hlen : (u.before ++ (u.path ++ [QUESTION])).length = u.pathAt + u.path.length + 1 := by
      simp only [List.length_append, List.length_singleton, before_length]
      omega
    refine ⟨recorded_at htext hlen.symm (by rw [hlen]) hs, ?_⟩
    rcases hu with ⟨hu, -⟩ | ⟨a, hu⟩
    · exact hu.query q hq
    · rw [hu.query] at hq
      cases hq

end Splits

/-- A token in a block of its own. -/
theorem splitsUrl_token {id : Nat} {s : List Byte} (hne : s ≠ []) (hclean : Unbroken s)
    (hret : (httpParseUrl id (s ++ [NUL]) {} ⟨0, s.length⟩).1 = .done) :
    ∃ u, SplitsUrl id (httpParseUrl id (s ++ [NUL]) {} ⟨0, s.length⟩).2.1 s
      (httpParseUrl id (s ++ [NUL]) {} ⟨0, s.length⟩).2.2 u := by
  obtain ⟨u, hu, rfl⟩ := (httpParseUrl_accepts {} (take_token s) hne hclean).mp hret
  have hin := httpParseUrl_inLine id (fun h => (hclean NUL h).1 rfl) NUL (w := u.text)
  have hrec : (httpParseUrl id (u.text ++ [NUL]) {} ⟨0, u.text.length⟩).2.2
      = u.record id ⟨0, u.text.length⟩ := by
    simp only [httpParseUrl, take_token, urlScan_text hu hclean]
    exact urlRecord_parts hu
  rw [hrec] at hin ⊢
  exact ⟨u, splits_record hu hin⟩

/-- An accepted string is taken apart into parts that make it up, and each of them is
    recorded, in whatever block the token stands. -/
theorem httpParseUrl_splits {id : Nat} {s pre post m' : List Byte} {out : Url} (hne : s ≠ [])
    (hclean : Unbroken s)
    (h : httpParseUrl id (pre ++ (s ++ [NUL]) ++ post) {} ⟨pre.length, s.length⟩
      = (.done, m', out)) :
    ∃ u, SplitsUrl id m' s out u := by
  have hframe := httpParseUrl_frame id (m := s ++ [NUL]) ⟨0, s.length⟩ {} pre post (by simp)
  rw [show ({} : Url).shift pre.length = {} from rfl,
    show (⟨0, s.length⟩ : Tok).shift pre.length = ⟨pre.length, s.length⟩ from rfl, h] at hframe
  simp only [Prod.mk.injEq] at hframe
  obtain ⟨hret, rfl, rfl⟩ := hframe
  obtain ⟨u, hu⟩ := splitsUrl_token hne hclean hret.symm
  exact ⟨u, hu.shift pre post⟩

set_option maxRecDepth 4000 in
/-- A URL with all its parts, in a larger block. -/
theorem httpParseUrl_splits_all :
    ∃ u, SplitsUrl 0
      (httpParseUrl 0 (bytes "GET " ++ (bytes "http://h:80/p?q#f" ++ [NUL]) ++ bytes "HTTP/1.1") {}
        ⟨4, 17⟩).2.1 (bytes "http://h:80/p?q#f")
      (httpParseUrl 0 (bytes "GET " ++ (bytes "http://h:80/p?q#f" ++ [NUL]) ++ bytes "HTTP/1.1") {}
        ⟨4, 17⟩).2.2 u := by
  have hdone : (httpParseUrl 0
      (bytes "GET " ++ (bytes "http://h:80/p?q#f" ++ [NUL]) ++ bytes "HTTP/1.1") {} ⟨4, 17⟩).1
      = .done := by decide
  exact httpParseUrl_splits (by decide) (by decide) (Prod.ext hdone rfl)

end XwpServer
