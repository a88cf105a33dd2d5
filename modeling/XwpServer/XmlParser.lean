/-
  XwpServer.XmlParser

  The reader of XML texts, `xml_parser.c`.

  The parser goes through the text once and calls a builder.  Names and values are kept in
  a buffer that grows; the strings of a tag live there until the next `<`.  A string of at
  most 127 bytes is always kept, without the spaces around it, and the strings kept before
  it stay as they are (`xmlParserStrdup_keeps`); a longer one can be refused, and what is
  handed over then is a pointer in front of the buffer.

  The pointer `read_ptr` is the rest of the text, up to the NUL.  A pointer `start` is the
  bytes from it up to `read_ptr`.  Sizes stay in the range of an `int`.
-/

import Mathlib.Data.List.DropRight
import XwpServer.XmlBuilder

namespace XwpServer

open CString

abbrev LT : Byte := 60
abbrev GT : Byte := 62
abbrev EQUALS : Byte := 61
abbrev DQUOTE : Byte := 34
abbrev SQUOTE : Byte := 39
abbrev QMARK : Byte := 63
abbrev BANG : Byte := 33
abbrev MINUS : Byte := 45
abbrev UNDERSCORE : Byte := 95

/-- `isalpha` in the C locale. -/
def isalpha (c : Byte) : Bool := (65 ≤ c && c ≤ 90) || (97 ≤ c && c ≤ 122)

def MAX_ATTR_NR : Nat := 64

/-! ## The buffer -/

/-- `buffer` is what was written to the buffer, from its first byte on, and `attrs` the
    offsets of the strings of `attrs`, -1 being `none`. -/
structure XmlParser where
  buffer : List Byte := []
  bufferUsed : Nat := 0
  bufferTotal : Nat := 0
  attrs : List (Option Nat) := []

def xmlParserResetBuffer (thiz : XmlParser) : XmlParser :=
  { thiz with bufferUsed := 0, attrs := [] }

/-- `while(p != str && isspace(*p)) { *p = '\0'; p--; }`, where `p` is in front of `q`. -/
def strtrimEnd (str : Nat) : List Byte → (q : Nat) → Option (List Byte)
  | _, 0 => none
  | m, p + 1 =>
      match m[p]? with
      | none => none
      | some c => if p ≠ str && isspace c then strtrimEnd str (m.set p NUL) p else some m

/-- Write bytes over those at an offset. -/
def poke (m : List Byte) (off : Nat) (s : List Byte) : List Byte :=
  m.take off ++ s ++ m.drop (off + s.length)

/-- `strtrim`; `none` is an access outside the buffer. -/
def strtrim (m : List Byte) (str : Nat) : Option (List Byte) := do
  let s ← strAt m str
  let m ← strtrimEnd str m (str + s.length)
  let s ← strAt m str
  let p := s.dropWhile isspace
  return if p.length = s.length then m else poke m str (p ++ [NUL])

/-- `xml_parser_strdup`, with the offset it returns. -/
def xmlParserStrdup (thiz : XmlParser) (s : List Byte) :
    Except XmlFault (Option Nat × XmlParser) :=
  let thiz :=
    if thiz.bufferUsed + s.length ≥ thiz.bufferTotal then
      { thiz with bufferTotal := thiz.bufferTotal + thiz.bufferTotal / 2 + 128 }
    else thiz
  if thiz.bufferUsed + s.length ≥ thiz.bufferTotal then .ok (none, thiz)
  else
    let offset := thiz.bufferUsed
    match strtrim (poke thiz.buffer offset (s ++ [NUL])) offset with
    | none => .error .memory
    | some buffer =>
        .ok (some offset, { thiz with buffer := buffer, bufferUsed := offset + s.length + 1 })

/-- The string at an offset as the builder sees it. -/
def XmlParser.string (thiz : XmlParser) (offset : Option Nat) : XmlStr :=
  match offset with
  | none => .wild
  | some offset =>
      if thiz.bufferTotal = 0 then .null
      else
        match strAt thiz.buffer offset with
        | none => .wild
        | some s => .str s

/-! ## Tags -/

inductive AttrStat where
  | preKey
  | key
  | preValue
  | value
  deriving DecidableEq, Repr

/-- Keep a string as the next one of `attrs`. -/
def XmlParser.pushAttr (thiz : XmlParser) (s : List Byte) : Except XmlFault XmlParser := do
  let (offset, thiz) ← xmlParserStrdup thiz s
  return { thiz with attrs := thiz.attrs ++ [offset] }

/-- The locals of `xml_parser_parse_attrs`. -/
structure AttrScan where
  state : AttrStat := .preKey
  valueEnd : Byte := DQUOTE
  start : List Byte := []

/-- A round of the loop of `xml_parser_parse_attrs`; at `STAT_END` it is `none`. -/
def attrsStep (endChar : Byte) (scan : AttrScan) (thiz : XmlParser) (c : Byte) :
    Except XmlFault (Option (AttrScan × XmlParser)) :=
  match scan.state with
  | .preKey =>
      if c = endChar || c = GT then .ok none
      else
        let scan := if !isspace c then { scan with state := .key, start := [] } else scan
        -- falls through
        if c = EQUALS then do
          let thiz ← thiz.pushAttr scan.start
          return some ({ scan with state := .preValue }, thiz)
        else .ok (some ({ scan with start := scan.start ++ [c] }, thiz))
  | .key =>
      if c = EQUALS then do
        let thiz ← thiz.pushAttr scan.start
        return some ({ scan with state := .preValue }, thiz)
      else .ok (some ({ scan with start := scan.start ++ [c] }, thiz))
  | .preValue =>
      if c = DQUOTE || c = SQUOTE then
        .ok (some ({ state := .value, valueEnd := c, start := [] }, thiz))
      else .ok (some (scan, thiz))
  | .value =>
      if c = scan.valueEnd then do
        let thiz ← thiz.pushAttr scan.start
        return some ({ scan with state := .preKey }, thiz)
      else .ok (some ({ scan with start := scan.start ++ [c] }, thiz))

/-- The loop of `xml_parser_parse_attrs`. -/
def parseAttrsLoop (endChar : Byte) (scan : AttrScan) (thiz : XmlParser) :
    List Byte → Except XmlFault (XmlParser × List Byte)
  | [] => .ok (thiz, [])
  | c :: rest =>
      if thiz.attrs.length < MAX_ATTR_NR then
        match attrsStep endChar scan thiz c with
        | .error e => .error e
        | .ok none => .ok (thiz, c :: rest)
        | .ok (some (scan, thiz)) => parseAttrsLoop endChar scan thiz rest
      else .ok (thiz, c :: rest)

def xmlParserParseAttrs (thiz : XmlParser) (endChar : Byte) (readPtr : List Byte) :
    Except XmlFault (XmlParser × List Byte) :=
  parseAttrsLoop endChar {} { thiz with attrs := [] } readPtr

/-- The loop over a name and its attributes of `xml_parser_parse_start_tag` and
    `xml_parser_parse_pi`: the offset of the name, and where it ends. -/
def parseNameLoop (nameEnd : Byte → Bool) (endChar : Byte) (thiz : XmlParser)
    (start : List Byte) : List Byte → Except XmlFault (Option Nat × XmlParser × List Byte)
  | [] => .ok (some 0, thiz, [])
  | c :: rest =>
      if isspace c || nameEnd c then do
        let (tagName, thiz) ← xmlParserStrdup thiz start
        if nameEnd c then .ok (tagName, thiz, c :: rest)
        else
          match rest with
          | [] => .ok (tagName, thiz, [])
          | c :: rest => do
              let (thiz, readPtr) ← xmlParserParseAttrs thiz endChar (c :: rest)
              return (tagName, thiz, readPtr)
      else parseNameLoop nameEnd endChar thiz (start ++ [c]) rest

/-- `for(; *read_ptr != '>' && *read_ptr != '\0'; read_ptr++);` -/
def skipToGt (readPtr : List Byte) : List Byte := readPtr.dropWhile (· ≠ GT)

/-- `xml_parser_parse_start_tag`; the name starts at the byte `prev` in front of `read_ptr`. -/
def xmlParserParseStartTag (thiz : XmlParser) (prev : Byte) (readPtr : List Byte) :
    Except XmlFault (List XmlEvent × XmlParser × List Byte) := do
  let (tagName, thiz, readPtr) ←
    parseNameLoop (fun c => c = GT || c = SLASH) SLASH thiz [prev] readPtr
  let tagName := thiz.string tagName
  let started := XmlEvent.startElement tagName (thiz.attrs.map thiz.string)
  let ended := if readPtr.head? = some SLASH then [XmlEvent.endElement tagName] else []
  return (started :: ended, thiz, skipToGt readPtr)

def xmlParserParsePi (thiz : XmlParser) (readPtr : List Byte) :
    Except XmlFault (List XmlEvent × XmlParser × List Byte) := do
  let (tagName, thiz, readPtr) ← parseNameLoop (fun c => c = GT) QMARK thiz [] readPtr
  return ([.piElement (thiz.string tagName) (thiz.attrs.map thiz.string)], thiz,
    skipToGt readPtr)

/-- `xml_parser_parse_end_tag`.  The buffer may be looked up before it grows. -/
def xmlParserParseEndTag (thiz : XmlParser) (start : List Byte) :
    List Byte → Except XmlFault (List XmlEvent × XmlParser × List Byte)
  | [] => .ok ([], thiz, [])
  | c :: rest =>
      if c = GT then do
        let (tagName, thiz') ← xmlParserStrdup thiz start
        let tagName := if thiz'.bufferTotal = thiz.bufferTotal then thiz'.string tagName else .wild
        return ([.endElement tagName], thiz', c :: rest)
      else xmlParserParseEndTag thiz (start ++ [c]) rest

/-! ## Comments and texts -/

inductive CommentStat where
  | comment
  | minus1
  | minus2
  deriving DecidableEq, Repr

/-- The loop of `xml_parser_parse_comment`. -/
def parseCommentLoop : CommentStat → (start : List Byte) → List Byte → List XmlEvent × List Byte
  | _, _, [] => ([], [])
  | .comment, start, c :: rest =>
      parseCommentLoop (if c = MINUS then .minus1 else .comment) (start ++ [c]) rest
  | .minus1, start, c :: rest =>
      parseCommentLoop (if c = MINUS then .minus2 else .comment) (start ++ [c]) rest
  | .minus2, start, c :: rest =>
      if c = GT then ([.comment (start.take (start.length - 2))], c :: rest)
      else parseCommentLoop .minus2 (start ++ [c]) rest

/-- `xml_parser_parse_comment`, which passes the byte at `read_ptr` first. -/
def xmlParserParseComment (readPtr : List Byte) : List XmlEvent × List Byte :=
  parseCommentLoop .comment [] readPtr.tail

/-- The loop of `xml_parser_parse_text`; it goes back to the byte `prev` in front of a `<`. -/
def parseTextLoop (start : List Byte) (prev : Byte) : List Byte → List XmlEvent × List Byte
  | [] => ([], [])
  | c :: rest =>
      if c = LT then ([.text start], prev :: c :: rest)
      else parseTextLoop (start ++ [c]) c rest

/-- `xml_parser_parse_text`; the text starts at the byte in front of `read_ptr`. -/
def xmlParserParseText (prev : Byte) (readPtr : List Byte) : List XmlEvent × List Byte :=
  parseTextLoop [prev] prev readPtr

/-! ## The text -/

/-- The state of `xml_parser_parse`, with the byte in front of `read_ptr` where it is needed. -/
inductive XmlStat where
  | none
  | afterLt
  | startTag (prev : Byte)
  | endTag
  | text (prev : Byte)
  | preComment1
  | preComment2
  | comment
  | processInstruction
  deriving DecidableEq, Repr

/-- A round of the loop of `xml_parser_parse`, with the calls it makes. -/
def xmlParserStep (thiz : XmlParser) (state : XmlStat) (c : Byte) (rest : List Byte) :
    Except XmlFault (List XmlEvent × XmlStat × XmlParser × List Byte) :=
  match state with
  | .none =>
      if c = LT then .ok ([], .afterLt, xmlParserResetBuffer thiz, c :: rest)
      else if !isspace c then .ok ([], .text c, thiz, c :: rest)
      else .ok ([], .none, thiz, c :: rest)
  | .afterLt =>
      if c = QMARK then .ok ([], .processInstruction, thiz, c :: rest)
      else if c = SLASH then .ok ([], .endTag, thiz, c :: rest)
      else if c = BANG then .ok ([], .preComment1, thiz, c :: rest)
      else if isalpha c || c = UNDERSCORE then .ok ([], .startTag c, thiz, c :: rest)
      else .ok ([.error 0 0 "unexpected char"], .afterLt, thiz, c :: rest)
  | .startTag prev => do
      let (calls, thiz, readPtr) ← xmlParserParseStartTag thiz prev (c :: rest)
      return (calls, .none, thiz, readPtr)
  | .endTag => do
      let (calls, thiz, readPtr) ← xmlParserParseEndTag thiz [] (c :: rest)
      return (calls, .none, thiz, readPtr)
  | .processInstruction => do
      let (calls, thiz, readPtr) ← xmlParserParsePi thiz (c :: rest)
      return (calls, .none, thiz, readPtr)
  | .text prev =>
      let (calls, readPtr) := xmlParserParseText prev (c :: rest)
      .ok (calls, .none, thiz, readPtr)
  | .preComment1 =>
      if c = MINUS then .ok ([], .preComment2, thiz, c :: rest)
      else .ok ([.error 0 0 "expected '-'"], .preComment1, thiz, c :: rest)
  | .preComment2 =>
      let complaint := if c = MINUS then [] else [XmlEvent.error 0 0 "expected '-'"]
      -- falls through
      let (calls, readPtr) := xmlParserParseComment (c :: rest)
      .ok (complaint ++ calls, .none, thiz, readPtr)
  | .comment =>
      let (calls, readPtr) := xmlParserParseComment (c :: rest)
      .ok (calls, .none, thiz, readPtr)

/-- In the state `STAT_TEXT` a round can leave `read_ptr` where it is. -/
def XmlStat.rank : XmlStat → Nat
  | .text _ => 1
  | _ => 0

/-! ## Where a round leaves off -/

theorem skipToGt_suffix (readPtr : List Byte) : skipToGt readPtr <:+ readPtr :=
  List.dropWhile_suffix _

theorem parseAttrsLoop_suffix {endChar : Byte} {scan : AttrScan} {thiz : XmlParser}
    {readPtr : List Byte} {r : XmlParser × List Byte}
    (h : parseAttrsLoop endChar scan thiz readPtr = .ok r) : r.2 <:+ readPtr := by
  induction readPtr generalizing scan thiz with
  | nil =>
      cases h
      exact List.suffix_rfl
  | cons c rest ih =>
      rw [parseAttrsLoop] at h
      split at h
      · split at h
        · cases h
        · cases h
          exact List.suffix_rfl
        · exact (ih h).trans (List.suffix_cons c rest)
      · cases h
        exact List.suffix_rfl

theorem parseNameLoop_suffix {nameEnd : Byte → Bool} {endChar : Byte} {thiz : XmlParser}
    {start readPtr : List Byte} {r : Option Nat × XmlParser × List Byte}
    (h : parseNameLoop nameEnd endChar thiz start readPtr = .ok r) : r.2.2 <:+ readPtr := by
  induction readPtr generalizing start with
  | nil =>
      cases h
      exact List.suffix_rfl
  | cons c rest ih =>
      rw [parseNameLoop] at h
      split at h
      · cases hdup : xmlParserStrdup thiz start with
        | error e =>
            rw [hdup] at h
            cases h
        | ok dup =>
            rw [hdup] at h
            by_cases hend : nameEnd c = true
            · replace h : (if nameEnd c = true then _ else _) = Except.ok r := h
              rw [if_pos hend] at h
              cases h
              exact List.suffix_rfl
            · replace h : (if nameEnd c = true then _ else _) = Except.ok r := h
              rw [if_neg hend] at h
              cases rest with
              | nil =>
                  cases h
                  exact List.nil_suffix
              | cons d rest =>
                  cases hattrs : xmlParserParseAttrs dup.2 endChar (d :: rest) with
                  | error e =>
                      simp only [hattrs] at h
                      cases h
                  | ok p =>
                      simp only [hattrs] at h
                      cases h
                      exact (parseAttrsLoop_suffix hattrs).trans (List.suffix_cons c _)
      · exact (ih h).trans (List.suffix_cons c rest)

theorem parseStartTag_suffix {thiz : XmlParser} {prev : Byte} {readPtr : List Byte}
    {r : List XmlEvent × XmlParser × List Byte}
    (h : xmlParserParseStartTag thiz prev readPtr = .ok r) : r.2.2 <:+ readPtr := by
  rw [xmlParserParseStartTag] at h
  cases hname : parseNameLoop (fun c => c = GT || c = SLASH) SLASH thiz [prev] readPtr with
  | error e =>
      rw [hname] at h
      cases h
  | ok n =>
      rw [hname] at h
      cases h
      exact (skipToGt_suffix _).trans (parseNameLoop_suffix hname)

theorem parsePi_suffix {thiz : XmlParser} {readPtr : List Byte}
    {r : List XmlEvent × XmlParser × List Byte} (h : xmlParserParsePi thiz readPtr = .ok r) :
    r.2.2 <:+ readPtr := by
  rw [xmlParserParsePi] at h
  cases hname : parseNameLoop (fun c => c = GT) QMARK thiz [] readPtr with
  | error e =>
      rw [hname] at h
      cases h
  | ok n =>
      rw [hname] at h
      cases h
      exact (skipToGt_suffix _).trans (parseNameLoop_suffix hname)

theorem parseEndTag_suffix {thiz : XmlParser} {start readPtr : List Byte}
    {r : List XmlEvent × XmlParser × List Byte}
    (h : xmlParserParseEndTag thiz start readPtr = .ok r) : r.2.2 <:+ readPtr := by
  induction readPtr generalizing start with
  | nil =>
      cases h
      exact List.suffix_rfl
  | cons c rest ih =>
      rw [xmlParserParseEndTag] at h
      split at h
      · cases hdup : xmlParserStrdup thiz start with
        | error e =>
            rw [hdup] at h
            cases h
        | ok dup =>
            rw [hdup] at h
            cases h
            exact List.suffix_rfl
      · exact (ih h).trans (List.suffix_cons c rest)

theorem parseCommentLoop_suffix (state : CommentStat) (start readPtr : List Byte) :
    (parseCommentLoop state start readPtr).2 <:+ readPtr := by
  induction readPtr generalizing state start with
  | nil =>
      cases state <;> exact List.suffix_rfl
  | cons c rest ih =>
      cases state with
      | comment => exact (ih _ _).trans (List.suffix_cons c rest)
      | minus1 => exact (ih _ _).trans (List.suffix_cons c rest)
      | minus2 =>
          rw [parseCommentLoop]
          split
          · exact List.suffix_rfl
          · exact (ih _ _).trans (List.suffix_cons c rest)

theorem parseTextLoop_suffix (start : List Byte) (prev : Byte) (readPtr : List Byte) :
    (parseTextLoop start prev readPtr).2.tail <:+ readPtr := by
  induction readPtr generalizing start prev with
  | nil => exact List.suffix_rfl
  | cons c rest ih =>
      rw [parseTextLoop]
      split
      · exact List.suffix_rfl
      · exact (ih _ _).trans (List.suffix_cons c rest)

/-- Where a round leaves off; it goes back to the byte in front of a `<` behind a text, and a start
    tag begins with the byte of the round. -/
theorem xmlParserStep_suffix {thiz : XmlParser} {state : XmlStat} {c : Byte} {rest : List Byte}
    {calls : List XmlEvent} {state' : XmlStat} {thiz' : XmlParser} {readPtr : List Byte}
    (h : xmlParserStep thiz state c rest = .ok (calls, state', thiz', readPtr)) :
    (readPtr <:+ c :: rest ∨
      state.rank = 1 ∧ state' = .none ∧ readPtr.tail <:+ c :: rest) ∧
    ∀ prev, state' = .startTag prev → prev = c ∧ readPtr = c :: rest := by
  have hcomment := (parseCommentLoop_suffix .comment [] rest).trans (List.suffix_cons c rest)
  have hbehind : readPtr <:+ c :: rest → state' = .none → (readPtr <:+ c :: rest ∨
      state.rank = 1 ∧ state' = .none ∧ readPtr.tail <:+ c :: rest) ∧
      ∀ prev, state' = .startTag prev → prev = c ∧ readPtr = c :: rest := by
    rintro hs rfl
    exact ⟨.inl hs, fun prev hst => by cases hst⟩
  unfold xmlParserStep at h
  cases state with
  | none =>
      simp only at h
      repeat' split at h
      all_goals
        cases h
        exact ⟨.inl List.suffix_rfl, fun prev hst => by cases hst⟩
  | afterLt =>
      simp only at h
      repeat' split at h
      all_goals
        cases h
        refine ⟨.inl List.suffix_rfl, fun prev hst => ?_⟩
        cases hst <;> exact ⟨rfl, rfl⟩
  | startTag prev =>
      simp only at h
      cases hr : xmlParserParseStartTag thiz prev (c :: rest) with
      | error e =>
          rw [hr] at h
          cases h
      | ok r =>
          rw [hr] at h
          cases h
          exact hbehind (parseStartTag_suffix hr) rfl
  | endTag =>
      simp only at h
      cases hr : xmlParserParseEndTag thiz [] (c :: rest) with
      | error e =>
          rw [hr] at h
          cases h
      | ok r =>
          rw [hr] at h
          cases h
          exact hbehind (parseEndTag_suffix hr) rfl
  | processInstruction =>
      simp only at h
      cases hr : xmlParserParsePi thiz (c :: rest) with
      | error e =>
          rw [hr] at h
          cases h
      | ok r =>
          rw [hr] at h
          cases h
          exact hbehind (parsePi_suffix hr) rfl
  | text prev =>
      cases h
      exact ⟨.inr ⟨rfl, rfl, parseTextLoop_suffix [prev] prev (c :: rest)⟩,
        fun prev hst => by cases hst⟩
  | preComment1 =>
      simp only at h
      repeat' split at h
      all_goals
        cases h
        exact ⟨.inl List.suffix_rfl, fun prev hst => by cases hst⟩
  | preComment2 =>
      cases h
      exact hbehind hcomment rfl
  | comment =>
      cases h
      exact hbehind hcomment rfl

/-- Every round goes on in the text, or leaves the state `STAT_TEXT`. -/
theorem xmlParserStep_decreases {thiz : XmlParser} {state : XmlStat} {c : Byte} {rest : List Byte}
    {calls : List XmlEvent} {state' : XmlStat} {thiz' : XmlParser} {readPtr : List Byte}
    (h : xmlParserStep thiz state c rest = .ok (calls, state', thiz', readPtr)) :
    2 * readPtr.tail.length + state'.rank < 2 * (c :: rest).length + state.rank := by
  obtain ⟨hs | ⟨hrank, rfl, hs⟩, -⟩ := xmlParserStep_suffix h
  · have hle := hs.length_le
    have hrank : state'.rank ≤ 1 := by
      cases state' <;> simp [XmlStat.rank]
    rw [List.length_tail, List.length_cons] at *
    omega
  · have hle := hs.length_le
    have hnone : XmlStat.none.rank = 0 := rfl
    omega

/-- `xml_parser_parse` with a builder whose calls are `on`. -/
def xmlParserLoop {σ : Type} (on : σ → XmlEvent → Except XmlFault σ) (state : XmlStat)
    (thiz : XmlParser) (builder : σ) (readPtr : List Byte) : Except XmlFault σ :=
  match readPtr with
  | [] => .ok builder
  | c :: rest =>
      match _hstep : xmlParserStep thiz state c rest with
      | .error e => .error e
      | .ok (calls, state', thiz', readPtr') =>
          match callBuilder on builder calls with
          | .error e => .error e
          | .ok builder => xmlParserLoop on state' thiz' builder readPtr'.tail
termination_by 2 * readPtr.length + state.rank
decreasing_by exact xmlParserStep_decreases _hstep

def xmlParserParse {σ : Type} (on : σ → XmlEvent → Except XmlFault σ) (builder : σ)
    (xml : List Byte) : Except XmlFault σ :=
  xmlParserLoop on .none {} builder xml

end XwpServer
