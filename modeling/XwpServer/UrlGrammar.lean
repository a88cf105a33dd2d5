/-
  XwpServer.UrlGrammar

  The strings `http_parse_url` accepts.

  A string is taken apart into a schema, slashes, a host and a port, or none of these,
  and a path with a query and a fragment.  The automaton accepts the strings of the shape
  `UrlParts.Accepted`, and leaves the marks of their parts; the recorder fails exactly on
  incomplete marks.
-/

import XwpServer.Url

namespace XwpServer

open CString Scan

/-! ## The parts of a URL -/

/-- What stands before the path. -/
structure Authority where
  schema : List Byte
  slashes : Nat
  host : List Byte
  port : Option (List Byte)
  deriving DecidableEq, Repr

structure UrlParts where
  authority : Option Authority
  path : List Byte
  query : Option (List Byte)
  fragment : Option (List Byte)
  deriving DecidableEq, Repr

/-- A part that may be missing, behind the byte that introduces it. -/
def marked (c : Byte) : Option (List Byte) → List Byte
  | none => []
  | some s => c :: s

abbrev QUESTION : Byte := 63
abbrev HASH : Byte := 35

def Authority.text (a : Authority) : List Byte :=
  a.schema ++ (COLON :: (List.replicate a.slashes SLASH ++ (a.host ++ marked COLON a.port)))

/-- The path and what follows it. -/
def UrlParts.pathText (u : UrlParts) : List Byte :=
  u.path ++ (marked QUESTION u.query ++ marked HASH u.fragment)

def UrlParts.text (u : UrlParts) : List Byte :=
  (match u.authority with
    | none => []
    | some a => a.text) ++ u.pathText

/-- A byte of a host. -/
def isHostByte (c : Byte) : Bool := isCharacter c || (isdigit c || c == 46 || c == 45)

/-- A string without zero bytes and white space. -/
def Unbroken (s : List Byte) : Prop := ∀ c ∈ s, c ≠ NUL ∧ isspace c = false

instance (s : List Byte) : Decidable (Unbroken s) :=
  inferInstanceAs (Decidable (∀ c ∈ s, c ≠ NUL ∧ isspace c = false))

theorem Unbroken.append_left {s t : List Byte} (h : Unbroken (s ++ t)) : Unbroken s :=
  fun c hc => h c (by simp [hc])

theorem Unbroken.append_right {s t : List Byte} (h : Unbroken (s ++ t)) : Unbroken t :=
  fun c hc => h c (by simp [hc])

/-- A schema of letters, a host and a port of digits. -/
structure Authority.WellFormed (a : Authority) : Prop where
  schema_ne : a.schema ≠ []
  schema : ∀ c ∈ a.schema, isCharacter c = true
  host_ne : a.host ≠ []
  host : ∀ c ∈ a.host, isHostByte c = true
  port : ∀ d ∈ a.port, ∀ c ∈ d, isdigit c = true

/-- An absolute path with a query and a fragment. -/
structure UrlParts.Absolute (u : UrlParts) : Prop where
  slash : ∃ rest, u.path = SLASH :: rest
  path : QUESTION ∉ u.path ∧ HASH ∉ u.path
  query : ∀ q ∈ u.query, HASH ∉ q

/-- An absolute path, possibly behind an authority. -/
structure UrlParts.WellFormed (u : UrlParts) : Prop extends u.Absolute where
  authority : ∀ a ∈ u.authority, a.WellFormed

/-- A schema, a colon and slashes. -/
structure UrlParts.SchemaOnly (u : UrlParts) (a : Authority) : Prop where
  authority : u.authority = some a
  schema_ne : a.schema ≠ []
  schema : ∀ c ∈ a.schema, isCharacter c = true
  host : a.host = []
  port : a.port = none
  path : u.path = []
  query : u.query = none
  fragment : u.fragment = none

/-- A host that starts with a letter. -/
def Authority.LetterHost (a : Authority) : Prop := ∃ c cs, a.host = c :: cs ∧ isCharacter c = true

/-- The parts of an accepted URL. -/
def UrlParts.Accepted (u : UrlParts) : Prop :=
  (u.WellFormed ∧ ∀ a ∈ u.authority, a.LetterHost) ∨ ∃ a, u.SchemaOnly a

/-! ## The marks of the parts -/

/-- The marks of a path that starts at offset `n`. -/
def UrlParts.pathMarks (u : UrlParts) (n : Nat) (k : UrlMarks) : UrlMarks :=
  { k with
    pathStart := some n
    pathEnd := if u.query = none ∧ u.fragment = none then none else some (n + u.path.length)
    queryStart := u.query.map fun _ => n + u.path.length + 1
    queryEnd := u.query.bind fun q => u.fragment.map fun _ => n + u.path.length + 1 + q.length }

/-- The offset of the host. -/
def Authority.hostAt (a : Authority) : Nat := a.schema.length + 1 + a.slashes

def Authority.schemaMarks (a : Authority) : UrlMarks :=
  { schemaStart := some 0, schemaEnd := some a.schema.length }

def Authority.marks (a : Authority) : UrlMarks :=
  { a.schemaMarks with
    hostStart := some a.hostAt
    hostEnd := some (a.hostAt + a.host.length)
    portStart := a.port.map fun _ => a.hostAt + a.host.length + 1
    portEnd := a.port.map fun d => a.hostAt + a.host.length + 1 + d.length }

def UrlParts.marks (u : UrlParts) : UrlMarks :=
  match u.authority with
  | none => u.pathMarks 0 {}
  | some a => if a.host = [] then a.schemaMarks else u.pathMarks a.text.length a.marks

/-! ## The automaton on the parts -/

/-- A state that a run of bytes does not leave. -/
theorem urlScan_stay {a : List Byte} {s : UrlState} {k : UrlMarks} (hs : s ≠ .done)
    (h : ∀ c ∈ a, c ≠ NUL ∧ ∀ p, urlStep s k p c = some (s, k)) (rest : List Byte) (p : Nat) :
    urlScan (a ++ rest) p s k = urlScan rest (p + a.length) s k := by
  induction a generalizing p with
  | nil => rfl
  | cons c cs ih =>
      obtain ⟨hc, hstep⟩ := h c (by simp)
      have hrest := ih (fun x hx => h x (by simp [hx])) (p + 1)
      rw [List.cons_append, urlScan, if_neg hc, hstep p]
      split
      · next h => cases h
      · next h =>
        cases h
        exact absurd rfl hs
      · next s' k' _ h =>
        cases h
        rw [hrest, List.length_cons]
        congr 1
        omega

/-- A byte that moves the automaton to another state. -/
theorem urlScan_move {c : Byte} {s s' : UrlState} {k k' : UrlMarks} {p : Nat} (hs : s' ≠ .done)
    (hc : c ≠ NUL) (h : urlStep s k p c = some (s', k')) (rest : List Byte) :
    urlScan (c :: rest) p s k = urlScan rest (p + 1) s' k' := by
  rw [urlScan, if_neg hc, h]
  split
  · next h => cases h
  · next h =>
    cases h
    exact absurd rfl hs
  · next h =>
    cases h
    rfl

/-- A byte that ends the loop. -/
theorem urlScan_done {c : Byte} {s : UrlState} {k k' : UrlMarks} {p : Nat}
    (hc : c ≠ NUL) (h : urlStep s k p c = some (.done, k')) (rest : List Byte) :
    urlScan (c :: rest) p s k = some k' := by
  rw [urlScan, if_neg hc, h]

theorem urlScan_query {q : List Byte} {k : UrlMarks} {p : Nat} (f : Option (List Byte))
    (hq : HASH ∉ q) (hclean : Unbroken q) (hk : k.queryEnd = none) :
    urlScan (q ++ marked HASH f) p .queryString k
      = some { k with queryEnd := f.map fun _ => p + q.length } := by
  rw [urlScan_stay (by decide) (fun c hc => ?_)]
  · cases f with
    | none =>
        obtain ⟨⟩ := k
        cases hk
        rfl
    | some f => exact urlScan_done (by decide) rfl f
  · have hne : c ≠ HASH := fun h => hq (h ▸ hc)
    have := hclean c hc
    exact ⟨this.1, fun p => by simp [urlStep, hne, this.2]⟩

theorem urlScan_path {u : UrlParts} {k : UrlMarks} {n : Nat} (hu : u.Absolute)
    (hclean : Unbroken u.pathText) (hk : k.pathEnd = none ∧ k.queryStart = none ∧ k.queryEnd = none)
    {rest : List Byte} (hpath : u.path = SLASH :: rest) :
    urlScan (rest ++ (marked QUESTION u.query ++ marked HASH u.fragment)) (n + 1) .path
      { k with pathStart := some n } = some (u.pathMarks n k) := by
  obtain ⟨hq, hf⟩ := hu.path
  have hlen : n + 1 + rest.length = n + u.path.length := by
    rw [hpath, List.length_cons]
    omega
  -- the automaton stays in the path; what ends it is a `?`, a `#` or the end of the token
  rw [urlScan_stay (by decide) (fun c hc => ?_), hlen, UrlParts.pathMarks]
  · obtain ⟨hk₁, hk₂, hk₃⟩ := hk
    obtain ⟨⟩ := k
    cases hk₁
    cases hk₂
    cases hk₃
    cases hquery : u.query with
    | none =>
        cases hfrag : u.fragment with
        | none => rfl
        | some f => exact urlScan_done (by decide) rfl f
    | some q =>
        have hclean' : Unbroken q := fun c hc => hclean c (by
          simp [UrlParts.pathText, hquery, marked, hc])
        rw [show marked QUESTION (some q) ++ marked HASH u.fragment
          = QUESTION :: (q ++ marked HASH u.fragment) from rfl,
          urlScan_move (by decide) (by decide) rfl,
          urlScan_query u.fragment (hu.query q hquery) hclean' rfl]
        simp
  · have hmem : c ∈ u.path := by
      rw [hpath]
      simp [hc]
    have h₁ : c ≠ QUESTION := fun h => hq (h ▸ hmem)
    have h₂ : c ≠ HASH := fun h => hf (h ▸ hmem)
    have := hclean c (by simp [UrlParts.pathText, hmem])
    exact ⟨this.1, fun p => by simp [urlStep, h₁, h₂, this.2]⟩

theorem SLASH_not_hostByte : isHostByte SLASH = false := by decide

/-- The schema and the slashes behind it. -/
theorem urlScan_schemaPart {schema : List Byte} {n : Nat} (hne : schema ≠ [])
    (hs : ∀ c ∈ schema, isCharacter c = true) (hclean : Unbroken schema) (rest : List Byte) :
    urlScan (schema ++ (COLON :: (List.replicate n SLASH ++ rest))) 0 .start {}
      = urlScan rest (schema.length + 1 + n) .schemaSlash
          { schemaStart := some 0, schemaEnd := some schema.length } := by
  obtain ⟨c, cs, rfl⟩ := List.exists_cons_of_ne_nil hne
  have hc := hclean c (by simp)
  have hfirst : urlStep .start {} 0 c = some (.schema, { schemaStart := some 0 }) := by
    simp [urlStep, hc.2, hs c (by simp)]
  -- the first letter, the rest of the schema, the colon, the slashes
  rw [List.cons_append, urlScan_move (by decide) hc.1 hfirst,
    urlScan_stay (by decide) (fun d hd => ⟨(hclean d (by simp [hd])).1, fun p => by
      simp [urlStep, hs d (by simp [hd])]⟩),
    urlScan_move (by decide) (by decide) rfl,
    urlScan_stay (by decide) (fun d hd => ?_), List.length_replicate, List.length_cons]
  · congr 1
    · omega
    · congr 2
      omega
  · rw [List.eq_of_mem_replicate hd]
    exact ⟨by decide, fun _ => rfl⟩

/-- The automaton stays in the host on its bytes. -/
theorem urlStep_hostByte {c : Byte} (h : isHostByte c = true) (k : UrlMarks) (p : Nat) :
    urlStep .host k p c = some (.host, k) := by
  unfold isHostByte at h
  unfold urlStep
  by_cases hch : isCharacter c = true
  · simp [hch]
  · simp only [hch, Bool.false_or] at h
    simp [hch, h]

/-- The host and the port, up to the slash of the path. -/
theorem urlScan_host {a : Authority} (ha : a.WellFormed) (hletter : a.LetterHost)
    (hclean : Unbroken (a.host ++ marked COLON a.port)) (rest : List Byte) :
    urlScan (a.host ++ marked COLON a.port ++ SLASH :: rest) a.hostAt .schemaSlash a.schemaMarks
      = urlScan rest (a.text.length + 1) .path { a.marks with pathStart := some a.text.length } := by
  obtain ⟨c, cs, hhost, hc⟩ := hletter
  have hbyte : ∀ d ∈ a.host, d ≠ NUL ∧ ∀ k p, urlStep .host k p d = some (.host, k) := by
    intro d hd
    exact ⟨(hclean d (by simp [hd])).1, urlStep_hostByte (ha.host d hd)⟩
  have hslash : c ≠ SLASH := by
    rintro rfl
    exact absurd hc (by decide)
  -- the letter of the host is what leaves the slashes
  have hfirst : urlStep .schemaSlash a.schemaMarks a.hostAt c
      = some (.host, { a.schemaMarks with hostStart := some a.hostAt }) := by
    simp [urlStep, hslash, hc]
  have hlen : a.text.length = a.hostAt + a.host.length + (marked COLON a.port).length := by
    simp only [Authority.text, Authority.hostAt, List.length_append, List.length_cons,
      List.length_replicate]
    omega
  have hcs : a.hostAt + 1 + cs.length = a.hostAt + a.host.length := by
    rw [hhost, List.length_cons]
    omega
  have hrest : urlScan (cs ++ (marked COLON a.port ++ SLASH :: rest)) (a.hostAt + 1) .host
        { a.schemaMarks with hostStart := some a.hostAt }
      = urlScan (marked COLON a.port ++ SLASH :: rest) (a.hostAt + a.host.length) .host
        { a.schemaMarks with hostStart := some a.hostAt } := by
    rw [urlScan_stay (by decide) (fun d hd => ?_), hcs]
    obtain ⟨h₁, h₂⟩ := hbyte d (by rw [hhost]; simp [hd])
    exact ⟨h₁, h₂ _⟩
  -- behind the host comes the slash of the path, or a colon and the digits of the port
  rw [List.append_assoc]
  nth_rewrite 1 [hhost]
  rw [List.cons_append, urlScan_move (by decide) (hbyte c (by rw [hhost]; simp)).1 hfirst, hrest]
  cases hport : a.port with
  | none =>
      rw [hport] at hlen
      rw [show marked COLON none ++ SLASH :: rest = SLASH :: rest from rfl,
        urlScan_move (by decide) (by decide) rfl, hlen]
      simp [Authority.marks, Authority.schemaMarks, hport, marked]
  | some d =>
      have hd := ha.port d hport
      have hd' : ∀ x ∈ d, x ≠ NUL ∧ ∀ k p, urlStep .port k p x = some (.port, k) := by
        intro x hx
        refine ⟨(hclean x (by simp [hport, marked, hx])).1, fun k p => ?_⟩
        simp [urlStep, hd x hx]
      have htext : a.text.length = a.hostAt + a.host.length + 1 + d.length := by
        rw [hlen, hport, marked, List.length_cons]
        omega
      rw [show marked COLON (some d) ++ SLASH :: rest = COLON :: (d ++ SLASH :: rest) from rfl,
        urlScan_move (by decide) (by decide) rfl,
        urlScan_stay (by decide) (fun x hx => ⟨(hd' x hx).1, (hd' x hx).2 _⟩),
        urlScan_move (by decide) (by decide) rfl, ← htext]
      simp [Authority.marks, Authority.schemaMarks, hport, htext]

/-- The automaton accepts the parts of an accepted URL, and marks them. -/
theorem urlScan_text {u : UrlParts} (hu : u.Accepted) (hclean : Unbroken u.text) :
    urlScan u.text 0 .start {} = some u.marks := by
  -- a path alone, an authority and a path, a schema and slashes alone
  rcases hu with ⟨hu, hletter⟩ | ⟨a, hu⟩
  · obtain ⟨rest, hpath⟩ := hu.slash
    cases hauth : u.authority with
    | none =>
        have htext : u.text = u.pathText := by simp [UrlParts.text, hauth]
        rw [htext] at hclean ⊢
        have hsplit : u.pathText
            = SLASH :: (rest ++ (marked QUESTION u.query ++ marked HASH u.fragment)) := by
          rw [UrlParts.pathText, hpath, List.cons_append]
        rw [UrlParts.marks, hauth, hsplit, urlScan_move (by decide) (by decide) rfl]
        exact urlScan_path hu.toAbsolute hclean ⟨rfl, rfl, rfl⟩ hpath
    | some a =>
        have ha := hu.authority a hauth
        have htext : u.text = a.text ++ u.pathText := by simp [UrlParts.text, hauth]
        rw [htext] at hclean ⊢
        have hsplit : a.text ++ u.pathText
            = a.schema ++ (COLON :: (List.replicate a.slashes SLASH ++
                (a.host ++ marked COLON a.port ++ SLASH :: (rest ++
                  (marked QUESTION u.query ++ marked HASH u.fragment))))) := by
          rw [UrlParts.pathText, hpath, Authority.text]
          simp
        have hleft := hclean.append_left
        have hcleanHost : Unbroken (a.host ++ marked COLON a.port) :=
          fun c hc => hleft c (by
            rw [List.mem_append] at hc
            simp only [Authority.text, List.mem_append, List.mem_cons]
            tauto)
        rw [hsplit, urlScan_schemaPart ha.schema_ne ha.schema
          (fun c hc => hleft c (by simp [Authority.text, hc]))]
        have hhost := urlScan_host ha (hletter a hauth) hcleanHost
          (rest ++ (marked QUESTION u.query ++ marked HASH u.fragment))
        rw [show (a.schema.length + 1 + a.slashes) = a.hostAt from rfl]
        refine hhost.trans ?_
        rw [UrlParts.marks, hauth]
        simp only [ha.host_ne, if_false]
        exact urlScan_path hu.toAbsolute hclean.append_right ⟨rfl, rfl, rfl⟩ hpath
  · have htext : u.text = a.schema ++ (COLON :: (List.replicate a.slashes SLASH ++ [])) := by
      simp [UrlParts.text, UrlParts.pathText, hu.authority, hu.path, hu.query, hu.fragment,
        Authority.text, hu.host, hu.port, marked]
    rw [htext] at hclean ⊢
    rw [urlScan_schemaPart hu.schema_ne hu.schema hclean.append_left, UrlParts.marks, hu.authority]
    simp only [hu.host, if_true]
    rfl

/-! ## The parts of an accepted string -/

theorem exists_pathText (l : List Byte) :
    ∃ path query fragment, l = path ++ (marked QUESTION query ++ marked HASH fragment) ∧
      (QUESTION ∉ path ∧ HASH ∉ path) ∧ ∀ q ∈ query, HASH ∉ q := by
  obtain ⟨path, b, rfl, hpath, hb⟩ := exists_span (fun c => c != QUESTION && c != HASH) l
  have hpath' : QUESTION ∉ path ∧ HASH ∉ path := by
    refine ⟨fun h => ?_, fun h => ?_⟩
    · have := hpath _ h
      simp at this
    · have := hpath _ h
      simp at this
  rcases b with _ | ⟨c, b⟩
  · exact ⟨path, none, none, by simp [marked], hpath', nofun⟩
  have hc := hb c b rfl
  by_cases hhash : c = HASH
  · subst hhash
    exact ⟨path, none, some b, rfl, hpath', nofun⟩
  obtain rfl : c = QUESTION := by simpa [hhash] using hc
  obtain ⟨q, f, rfl, hq, hf⟩ := exists_span (fun c => c != HASH) b
  have hq' : HASH ∉ q := fun h => by simpa using hq _ h
  rcases f with _ | ⟨c, f⟩
  · refine ⟨path, some q, none, by simp [marked], hpath', fun q' h => ?_⟩
    cases h
    exact hq'
  · obtain rfl : c = HASH := by simpa using hf c f rfl
    refine ⟨path, some q, some f, by simp [marked], hpath', fun q' h => ?_⟩
    cases h
    exact hq'

/-- What follows a path does not start with a slash. -/
theorem path_slash {path rest : List Byte} {query fragment : Option (List Byte)}
    (h : SLASH :: rest = path ++ (marked QUESTION query ++ marked HASH fragment)) :
    ∃ tail, path = SLASH :: tail := by
  rcases path with _ | ⟨x, tail⟩
  · cases query with
    | none =>
        cases fragment with
        | none => cases h
        | some f => exact absurd (List.cons.inj h).1 (by decide)
    | some q => exact absurd (List.cons.inj h).1 (by decide)
  · exact ⟨tail, by rw [(List.cons.inj h).1]⟩

/-- A scan of the port that sets its end has come to a slash. -/
theorem of_urlScan_port {l : List Byte} {p : Nat} {k k' : UrlMarks} (hclean : Unbroken l)
    (h : urlScan l p .port k = some k') (hk : k.portEnd = none ∧ k.portStart.isSome)
    (hk' : k'.portStart.isSome → k'.portEnd.isSome) :
    ∃ d rest, l = d ++ SLASH :: rest ∧ ∀ c ∈ d, isdigit c = true := by
  obtain ⟨d, b, rfl, hd, hb⟩ := exists_span isdigit l
  rw [urlScan_stay (by decide) fun c hc => ⟨(hclean c (by simp [hc])).1, fun p => by
    simp [urlStep, hd c hc]⟩] at h
  rcases b with _ | ⟨c, rest⟩
  · cases h
    have := hk' hk.2
    rw [hk.1] at this
    cases this
  have hc := hb c rest rfl
  obtain ⟨hnul, hspace⟩ := hclean c (by simp)
  by_cases hslash : c = SLASH
  · exact ⟨d, rest, by rw [hslash], hd⟩
  · have hstep : urlStep .port k (p + d.length) c = none := by
      simp [urlStep, hc, hslash, hspace]
    rw [urlScan, if_neg hnul, hstep] at h
    cases h

/-- A scan of the host that sets the ends it needs has come to a slash. -/
theorem of_urlScan_host {l : List Byte} {p : Nat} {k k' : UrlMarks} (hclean : Unbroken l)
    (h : urlScan l p .host k = some k')
    (hk : k.hostEnd = none ∧ k.portEnd = none ∧ k.hostStart.isSome)
    (hk' : (k'.hostStart.isSome → k'.hostEnd.isSome) ∧ (k'.portStart.isSome → k'.portEnd.isSome)) :
    ∃ host port rest, l = host ++ marked COLON port ++ SLASH :: rest ∧
      (∀ c ∈ host, isHostByte c = true) ∧ ∀ d ∈ port, ∀ c ∈ d, isdigit c = true := by
  -- the host is the span of its bytes; a scan that ends in it leaves its end unset
  obtain ⟨host, b, rfl, hhost, hb⟩ := exists_span isHostByte l
  have hstay : ∀ c ∈ host, c ≠ NUL ∧ ∀ p, urlStep .host k p c = some (.host, k) := by
    intro c hc
    exact ⟨(hclean c (by simp [hc])).1, urlStep_hostByte (hhost c hc) k⟩
  rw [urlScan_stay (by decide) hstay] at h
  rcases b with _ | ⟨c, rest⟩
  · cases h
    have := hk'.1 hk.2.2
    rw [hk.1] at this
    cases this
  have hc := hb c rest rfl
  unfold isHostByte at hc
  rw [Bool.or_eq_false_iff] at hc
  obtain ⟨hnul, hspace⟩ := hclean c (by simp)
  by_cases hcolon : c = COLON
  · subst hcolon
    rw [urlScan_move (by decide) hnul rfl] at h
    have hclean' : Unbroken rest := fun x hx => hclean x (by simp [hx])
    obtain ⟨d, rest', rfl, hd⟩ := of_urlScan_port hclean' h ⟨hk.2.1, rfl⟩ hk'.2
    refine ⟨host, some d, rest', by simp [marked], hhost, fun d' h => ?_⟩
    cases h
    exact hd
  by_cases hslash : c = SLASH
  · subst hslash
    exact ⟨host, none, rest, by simp [marked], hhost, nofun⟩
  · have hstep : urlStep .host k (p + host.length) c = none := by
      simp [urlStep, hc.1, hc.2, hcolon, hslash]
    rw [urlScan, if_neg hnul, hstep] at h
    cases h

/-- A string the automaton accepts with complete marks has the parts of an accepted URL. -/
theorem exists_parts {s : List Byte} {k : UrlMarks} (hne : s ≠ []) (hclean : Unbroken s)
    (h : urlScan s 0 .start {} = some k) (hk : k.Complete) :
    ∃ u : UrlParts, u.Accepted ∧ s = u.text := by
  obtain ⟨c, rest, rfl⟩ := List.exists_cons_of_ne_nil hne
  obtain ⟨hnul, hspace⟩ := hclean c (by simp)
  by_cases hslash : c = SLASH
  · subst hslash
    obtain ⟨path, query, fragment, hs, hpath, hquery⟩ := exists_pathText (SLASH :: rest)
    exact ⟨⟨none, path, query, fragment⟩, .inl ⟨⟨⟨path_slash hs, hpath, hquery⟩, fun a ha => by cases ha⟩,
      fun a ha => by cases ha⟩, hs⟩
  by_cases hletter : isCharacter c = true
  case neg =>
      have hstep : urlStep .start {} 0 c = none := by
        simp [urlStep, hspace, hletter, hslash]
      rw [urlScan, if_neg hnul, hstep] at h
      cases h
  obtain ⟨schema, b, hs, hschema, hb⟩ := exists_span isCharacter (c :: rest)
  have hschema_ne : schema ≠ [] := by
    rintro rfl
    have := hb c rest hs.symm
    rw [hletter] at this
    cases this
  obtain ⟨x, xs, rfl⟩ := List.exists_cons_of_ne_nil hschema_ne
  rw [List.cons_append, List.cons.injEq] at hs
  obtain ⟨rfl, rfl⟩ := hs
  have hfirst : urlStep .start {} 0 c = some (.schema, { schemaStart := some 0 }) := by
    simp [urlStep, hspace, hletter]
  have h' := h
  rw [urlScan_move (by decide) hnul hfirst, urlScan_stay (by decide) fun d hd =>
    ⟨(hclean d (by simp [hd])).1, fun p => by simp [urlStep, hschema d (by simp [hd])]⟩] at h'
  rcases b with _ | ⟨d, b⟩
  · cases h'
    have := hk.schema rfl
    cases this
  have hd := hb d b rfl
  obtain ⟨hdnul, hdspace⟩ := hclean d (by simp)
  by_cases hcolon : d = COLON
  case neg =>
      have hstep : ∀ p k, urlStep .schema k p d = none := fun p k => by
        simp [urlStep, hd, hcolon]
      rw [urlScan, if_neg hdnul, hstep] at h'
      cases h'
  subst hcolon
  obtain ⟨slashes, tail, rfl, hslashes, htail⟩ := exists_span (· == SLASH) b
  obtain ⟨n, rfl⟩ : ∃ n, slashes = List.replicate n SLASH :=
    ⟨_, List.eq_replicate_of_mem fun y hy => by simpa using hslashes y hy⟩
  have htext : c :: (xs ++ COLON :: (List.replicate n SLASH ++ tail))
      = (c :: xs) ++ (COLON :: (List.replicate n SLASH ++ tail)) := rfl
  rw [htext] at h hclean ⊢
  rw [urlScan_schemaPart hschema_ne hschema hclean.append_left] at h
  rcases tail with _ | ⟨y, tail⟩
  · -- nothing behind the slashes
    refine ⟨⟨some ⟨c :: xs, n, [], none⟩, [], none, none⟩,
      .inr ⟨⟨c :: xs, n, [], none⟩, ?_⟩, ?_⟩
    · exact ⟨rfl, hschema_ne, hschema, rfl, rfl, rfl, rfl, rfl⟩
    · simp [UrlParts.text, UrlParts.pathText, Authority.text, marked]
  have hslash' : y ≠ SLASH := by simpa using htail y tail rfl
  obtain ⟨hynul, -⟩ := hclean y (by simp)
  by_cases hy : isCharacter y = true
  case neg =>
      have hstep : ∀ p k, urlStep .schemaSlash k p y = none := fun p k => by
        simp [urlStep, hy, hslash']
      rw [urlScan, if_neg hynul, hstep] at h
      cases h
  have hstep : ∀ p k, urlStep .schemaSlash k p y = some (.host, { k with hostStart := some p }) :=
    fun p k => by simp [urlStep, hy, hslash']
  rw [urlScan_move (by decide) hynul (hstep _ _)] at h
  have hclean' : Unbroken tail := fun x hx => hclean x (by simp [hx])
  obtain ⟨host, port, rest, rfl, hhost, hport⟩ :=
    of_urlScan_host hclean' h ⟨rfl, rfl, rfl⟩ ⟨hk.host, hk.port⟩
  obtain ⟨path, query, fragment, hs, hpath, hquery⟩ := exists_pathText (SLASH :: rest)
  refine ⟨⟨some ⟨c :: xs, n, y :: host, port⟩, path, query, fragment⟩, .inl ⟨?_, ?_⟩,
    ?_⟩
  · refine ⟨⟨path_slash hs, hpath, hquery⟩, fun a ha => ?_⟩
    cases ha
    refine ⟨hschema_ne, hschema, List.cons_ne_nil y host, fun x hx => ?_, hport⟩
    rcases List.mem_cons.mp hx with rfl | hx
    · simp [isHostByte, hy]
    · exact hhost x hx
  · intro a ha
    cases ha
    exact ⟨y, host, rfl, hy⟩
  · simp only [UrlParts.text, UrlParts.pathText, Authority.text, ← hs, List.append_assoc,
      List.cons_append]

/-! ## The recorder on complete marks -/

theorem UrlParts.marks_complete (u : UrlParts) : u.marks.Complete := by
  unfold UrlParts.marks
  split
  · exact ⟨nofun, nofun, nofun⟩
  · next a _ =>
    split
    · exact ⟨fun _ => rfl, nofun, nofun⟩
    · refine ⟨fun _ => rfl, fun _ => rfl, fun h => ?_⟩
      rw [show (u.pathMarks a.text.length a.marks).portStart
        = a.port.map fun _ => a.hostAt + a.host.length + 1 from rfl, Option.isSome_map] at h
      rw [show (u.pathMarks a.text.length a.marks).portEnd
        = a.port.map fun d => a.hostAt + a.host.length + 1 + d.length from rfl, Option.isSome_map]
      exact h

theorem urlRecord_of_complete {k : UrlMarks} (hk : k.Complete) (id : Nat) (url : Tok)
    (m : List Byte) (out : Url) : (urlRecord id url k m out).1 = .done := by
  have hschema : ∃ x, urlSchema id url k m out = some x := by
    unfold urlSchema
    split
    · exact ⟨_, rfl⟩
    · next hs he =>
      have := hk.schema (by rw [hs]; rfl)
      rw [he] at this
      cases this
    · exact ⟨_, rfl⟩
  obtain ⟨⟨m₁, out₁⟩, h₁⟩ := hschema
  have hhost : ∃ out₂, urlHost url k m₁ out₁ = some out₂ := by
    unfold urlHost
    split
    · exact ⟨_, rfl⟩
    · next hs he =>
      have := hk.host (by rw [hs]; rfl)
      rw [he] at this
      cases this
    · exact ⟨_, rfl⟩
  obtain ⟨out₂, h₂⟩ := hhost
  have hport : ¬ (k.portStart.isSome && k.portEnd.isNone) = true := by
    intro h
    rw [Bool.and_eq_true] at h
    have := hk.port h.1
    rw [Option.isNone_iff_eq_none.mp h.2] at this
    cases this
  simp only [urlRecord, h₁, h₂, hport, Bool.false_eq_true, if_false]

/-- `http_parse_url` accepts a string exactly when it has the parts of an accepted URL. -/
theorem httpParseUrl_accepts {id : Nat} {m s : List Byte} {url : Tok} (out : Url)
    (hs : (m.drop url.off).take url.len = s) (hne : s ≠ []) (hclean : Unbroken s) :
    (httpParseUrl id m out url).1 = .done ↔ ∃ u : UrlParts, u.Accepted ∧ s = u.text := by
  simp only [httpParseUrl, hs]
  constructor
  · intro h
    split at h
    · cases h
    next k hk =>
    refine exists_parts hne hclean hk ?_
    obtain ⟨⟨ret, m', out'⟩, hrec⟩ : ∃ x, urlRecord id url k m { out with
      unparsedUrl := poolStrndup s } = x := ⟨_, rfl⟩
    rw [hrec] at h
    cases h
    exact urlRecord_complete hrec
  · rintro ⟨u, hu, rfl⟩
    rw [urlScan_text hu hclean]
    exact urlRecord_of_complete u.marks_complete id url m _

/-! ## The grammar of URLs -/

/-- Two slashes, and a port that is a number of 16 bits. -/
def Authority.Standard (a : Authority) : Prop :=
  a.slashes = 2 ∧ ∀ d ∈ a.port, d ≠ [] ∧ decVal d ≤ 65535

/-- An absolute path, or `schema://host[:port]` before one. -/
def UrlParts.Proper (u : UrlParts) : Prop := u.WellFormed ∧ ∀ a ∈ u.authority, a.Standard

/-- The string is not a schema, a colon and slashes alone; and where it has a schema, its
    host starts with a letter exactly when it has two slashes and no strange port. -/
structure UrlPlain (s : List Byte) : Prop where
  notSchemaOnly : ∀ (u : UrlParts) a, u.SchemaOnly a → s ≠ u.text
  letter_iff : ∀ (u : UrlParts) a, u.WellFormed → u.authority = some a → s = u.text →
    (a.LetterHost ↔ a.Standard)

theorem schema_unique {schema schema' r r' : List Byte}
    (h : schema ++ (COLON :: r) = schema' ++ (COLON :: r'))
    (hs : ∀ c ∈ schema, isCharacter c = true) (hs' : ∀ c ∈ schema', isCharacter c = true) :
    schema = schema' ∧ r = r' := by
  obtain ⟨h₁, h₂⟩ := span_unique h hs (fun c l h => by cases h; decide) hs'
    fun c l h => by cases h; decide
  exact ⟨h₁, (List.cons.inj h₂).2⟩

theorem slashes_unique {n n' : Nat} {r r' : List Byte}
    (h : List.replicate n SLASH ++ r = List.replicate n' SLASH ++ r')
    (hr : ∀ c l, r = c :: l → c ≠ SLASH) (hr' : ∀ c l, r' = c :: l → c ≠ SLASH) :
    n = n' ∧ r = r' := by
  obtain ⟨h₁, h₂⟩ := span_unique (p := (· == SLASH)) h
    (fun c hc => by simp [List.eq_of_mem_replicate hc]) (fun c l h => by simp [hr c l h])
    (fun c hc => by simp [List.eq_of_mem_replicate hc]) fun c l h => by simp [hr' c l h]
  exact ⟨by simpa using congrArg List.length h₁, h₂⟩

theorem Authority.WellFormed.host_cons {a : Authority} (ha : a.WellFormed) :
    ∃ c cs, a.host = c :: cs ∧ c ≠ SLASH := by
  obtain ⟨c, cs, h⟩ := List.exists_cons_of_ne_nil ha.host_ne
  refine ⟨c, cs, h, ?_⟩
  rintro rfl
  have := ha.host SLASH (by simp [h])
  rw [SLASH_not_hostByte] at this
  cases this

/-- The host and the port before a path are found in one way only. -/
theorem hostPort_unique {a a' : Authority} {t t' : List Byte} (ha : a.WellFormed)
    (ha' : a'.WellFormed)
    (h : a.host ++ (marked COLON a.port ++ SLASH :: t)
      = a'.host ++ (marked COLON a'.port ++ SLASH :: t')) :
    a.host = a'.host ∧ a.port = a'.port := by
  -- neither a colon nor a slash is a byte of the host, so the two spans are the same
  have hnext : ∀ (port : Option (List Byte)) (t : List Byte) c l,
      marked COLON port ++ SLASH :: t = c :: l → isHostByte c = false := by
    intro port t c l h
    cases port with
    | none =>
        cases h
        decide
    | some d =>
        cases h
        decide
  obtain ⟨hhost, h⟩ := span_unique h ha.host (hnext _ _) ha'.host (hnext _ _)
  refine ⟨hhost, ?_⟩
  cases hp : a.port with
  | none =>
      cases hp' : a'.port with
      | none => rfl
      | some d' =>
          rw [hp, hp'] at h
          exact absurd (List.cons.inj h).1 (by decide)
  | some d =>
      cases hp' : a'.port with
      | none =>
          rw [hp, hp'] at h
          exact absurd (List.cons.inj h).1 (by decide)
      | some d' =>
          rw [hp, hp'] at h
          obtain ⟨hd, -⟩ := span_unique (List.cons.inj h).2 (ha.port d hp)
            (fun c l h => by cases h; decide) (ha'.port d' hp') fun c l h => by cases h; decide
          rw [hd]

/-- The first byte of a text with an authority is a letter. -/
theorem Authority.text_cons {a : Authority} (hne : a.schema ≠ [])
    (hs : ∀ c ∈ a.schema, isCharacter c = true) : ∃ c cs, a.text = c :: cs ∧ c ≠ SLASH := by
  obtain ⟨c, cs, h⟩ := List.exists_cons_of_ne_nil hne
  refine ⟨c, _, by rw [Authority.text, h, List.cons_append], ?_⟩
  rintro rfl
  exact absurd (hs SLASH (by simp [h])) (by decide)

/-- Well-formed parts of a text have one authority. -/
theorem UrlParts.WellFormed.authority_unique {u u' : UrlParts} {a : Authority}
    (hu : u.WellFormed) (hu' : u'.WellFormed) (h : u.text = u'.text)
    (ha : u.authority = some a) : u'.authority = some a := by
  have hwf := hu.authority a ha
  obtain ⟨rest, hpath⟩ := hu.slash
  obtain ⟨rest', hpath'⟩ := hu'.slash
  simp only [UrlParts.text, UrlParts.pathText, ha, hpath, hpath'] at h
  cases ha' : u'.authority with
  | none =>
      obtain ⟨c, cs, hcons, hc⟩ := Authority.text_cons hwf.schema_ne hwf.schema
      rw [ha', hcons] at h
      exact absurd (List.cons.inj h).1 hc
  | some a' =>
      have hwf' := hu'.authority a' ha'
      simp only [ha', Authority.text, List.append_assoc, List.cons_append] at h
      obtain ⟨hschema, h⟩ := schema_unique h hwf.schema hwf'.schema
      obtain ⟨c, cs, hhost, hc⟩ := hwf.host_cons
      obtain ⟨c', cs', hhost', hc'⟩ := hwf'.host_cons
      obtain ⟨hslashes, h⟩ := slashes_unique h
        (fun d l h => by rw [hhost] at h; cases h; exact hc)
        (fun d l h => by rw [hhost'] at h; cases h; exact hc')
      obtain ⟨hhost, hport⟩ := hostPort_unique hwf hwf' h
      obtain ⟨⟩ := a
      obtain ⟨⟩ := a'
      simp only at hschema hslashes hhost hport
      subst hschema hslashes hhost hport
      rfl

/-- A schema with slashes alone has no host. -/
theorem UrlParts.SchemaOnly.text_ne {u u' : UrlParts} {a : Authority} (hu : u.SchemaOnly a)
    (hu' : u'.WellFormed) : u.text ≠ u'.text := by
  intro h
  obtain ⟨rest', hpath'⟩ := hu'.slash
  have htext : u.text = a.schema ++ (COLON :: (List.replicate a.slashes SLASH ++ [])) := by
    simp [UrlParts.text, UrlParts.pathText, hu.authority, hu.path, hu.query, hu.fragment,
      Authority.text, hu.host, hu.port, marked]
  cases ha' : u'.authority with
  | none =>
      obtain ⟨c, cs, hcons, hc⟩ := Authority.text_cons hu.schema_ne hu.schema
      have hu'text : u'.text = SLASH :: (rest' ++
          (marked QUESTION u'.query ++ marked HASH u'.fragment)) := by
        simp [UrlParts.text, UrlParts.pathText, ha', hpath']
      have hutext : u.text = c :: (cs ++ u.pathText) := by
        simp [UrlParts.text, hu.authority, hcons]
      rw [hutext, hu'text] at h
      exact hc (List.cons.inj h).1
  | some a' =>
      have hwf' := hu'.authority a' ha'
      obtain ⟨c', cs', hhost', hc'⟩ := hwf'.host_cons
      rw [htext] at h
      simp only [UrlParts.text, ha', Authority.text, List.append_assoc, List.cons_append] at h
      obtain ⟨-, h⟩ := schema_unique h hu.schema hwf'.schema
      obtain ⟨-, h⟩ := slashes_unique h nofun
        (fun d l h => by rw [hhost'] at h; cases h; exact hc')
      rw [hhost'] at h
      cases h

/-- The accepted strings are the proper URLs, as far as `UrlPlain` goes. -/
theorem httpParseUrl_exact_iff {id : Nat} {m s : List Byte} {url : Tok} (out : Url)
    (hs : (m.drop url.off).take url.len = s) (hne : s ≠ []) (hclean : Unbroken s) :
    ((httpParseUrl id m out url).1 = .done ↔ ∃ u : UrlParts, u.Proper ∧ s = u.text) ↔
      UrlPlain s := by
  rw [httpParseUrl_accepts out hs hne hclean]
  constructor
  · intro h
    constructor
    · intro u a hu hsu
      obtain ⟨u', hu', hsu'⟩ := h.mp ⟨u, .inr ⟨a, hu⟩, hsu⟩
      exact hu.text_ne hu'.1 (hsu.symm.trans hsu')
    · intro u a hu ha hsu
      constructor
      · intro hletter
        -- an accepted string with these parts is proper, so they are
        have hacc : u.Accepted := .inl ⟨hu, fun a' ha' => by
          rw [ha] at ha'
          cases ha'
          exact hletter⟩
        obtain ⟨u', hu', hsu'⟩ := h.mp ⟨u, hacc, hsu⟩
        exact hu'.2 a (hu.authority_unique hu'.1 (hsu.symm.trans hsu') ha)
      · intro hstd
        have hproper : u.Proper := ⟨hu, fun a' ha' => by
          rw [ha] at ha'
          cases ha'
          exact hstd⟩
        obtain ⟨u', hu' | ⟨a', hu'⟩, hsu'⟩ := h.mpr ⟨u, hproper, hsu⟩
        · exact hu'.2 a (hu.authority_unique hu'.1 (hsu.symm.trans hsu') ha)
        · exact absurd (hsu'.symm.trans hsu) (hu'.text_ne hu)
  · intro h
    constructor
    · rintro ⟨u, ⟨hu, hletter⟩ | ⟨a, hu⟩, hsu⟩
      · exact ⟨u, ⟨hu, fun a ha => (h.letter_iff u a hu ha hsu).mp (hletter a ha)⟩, hsu⟩
      · exact absurd hsu (h.notSchemaOnly u a hu)
    · rintro ⟨u, hu, hsu⟩
      exact ⟨u, .inl ⟨hu.1, fun a ha => (h.letter_iff u a hu.1 ha hsu).mpr (hu.2 a ha)⟩, hsu⟩

/-- A proper URL whose host starts with a letter, or that has none, is plain. -/
theorem UrlParts.Proper.plain {u : UrlParts} (hu : u.Proper)
    (hletter : ∀ a ∈ u.authority, a.LetterHost) : UrlPlain u.text where
  notSchemaOnly _ _ hu' h := hu'.text_ne hu.1 h.symm
  letter_iff _ a hu' ha h := by
    have hauth := hu'.authority_unique hu.1 h.symm ha
    exact iff_of_true (hletter a hauth) (hu.2 a hauth)

def shortUrl : UrlParts :=
  ⟨some ⟨bytes "http", 2, bytes "a", none⟩, bytes "/b", some (bytes "c"), none⟩

set_option maxRecDepth 2000 in
theorem shortUrl_proper : shortUrl.Proper := by
  refine ⟨⟨⟨⟨bytes "b", rfl⟩, ⟨by decide, by decide⟩, ?_⟩, ?_⟩, ?_⟩
  all_goals rintro _ ⟨⟩
  · decide
  · exact ⟨by decide, by decide, by decide, by decide, by rintro _ ⟨⟩⟩
  · exact ⟨rfl, by rintro _ ⟨⟩⟩

set_option maxRecDepth 2000 in
theorem httpParseUrl_exact_short :
    (httpParseUrl 0 (bytes "http://a/b?c" ++ [NUL]) {} ⟨0, 12⟩).1 = .done ↔
      ∃ u : UrlParts, u.Proper ∧ bytes "http://a/b?c" = u.text := by
  refine (httpParseUrl_exact_iff {} rfl (by decide) (by decide)).mpr ?_
  apply shortUrl_proper.plain
  rintro _ ⟨⟩
  exact ⟨_, _, rfl, by decide⟩

set_option maxRecDepth 2000 in
/-- The parts of `http:/a/b`, where the host is `a`, are accepted; but there is one slash. -/
theorem not_exact_slash :
    ¬ ((httpParseUrl 0 (bytes "http:/a/b" ++ [NUL]) {} ⟨0, 9⟩).1 = .done ↔
      ∃ u : UrlParts, u.Proper ∧ bytes "http:/a/b" = u.text) := by
  intro h
  obtain ⟨u, hu, hs⟩ := h.mp (by decide)
  have hwf : (⟨some ⟨bytes "http", 1, bytes "a", none⟩, bytes "/b", none, none⟩ :
      UrlParts).WellFormed :=
    ⟨⟨⟨bytes "b", rfl⟩, ⟨by decide, by decide⟩, nofun⟩, fun a ha => by
      cases ha
      exact ⟨by decide, by decide, by decide, by decide, nofun⟩⟩
  have hauth := hwf.authority_unique hu.1 hs rfl
  have hslashes : (1 : Nat) = 2 := (hu.2 _ hauth).1
  cases hslashes

end XwpServer
