/-
  XwpServer.XmlPrint

  Printing XML trees, and reading them back.

  `printForest` writes a forest the way the parser reads it: tags, attributes in quotes,
  texts and comments as they are.  Of a forest that can be written so, `Printable`, the
  parser reads exactly the forest and the builder builds it (`xml_round_trip`): the spaces,
  the quotes and the buffer do not get in the way, and nothing is lost or joined.

  The proof follows the text: `Reads` says that the parser gets from one place of the text
  to another and makes these calls on the way, whatever the builder does with them.
-/

import XwpServer.XmlBuffer

namespace XwpServer

open CString LinkedForest Transition

/-! ## Printing -/

def attrQuote (value : List Byte) : Byte := if DQUOTE ∈ value then SQUOTE else DQUOTE

def printAttr (a : XmlAttr) : List Byte :=
  a.name ++ EQUALS :: attrQuote a.value :: (a.value ++ [attrQuote a.value])

def printAttrs (attrs : List XmlAttr) : List Byte := attrs.flatMap fun a => SP :: printAttr a

def printForest : Forest XmlData → List Byte
  | .nil => []
  | .node (.normal name attrs) c s =>
      LT :: (name ++ (printAttrs attrs ++ GT :: (printForest c ++
        LT :: SLASH :: (name ++ GT :: printForest s))))
  | .node (.pi name attrs) _ s =>
      LT :: QMARK :: (name ++ (printAttrs attrs ++ SP :: QMARK :: GT :: printForest s))
  | .node (.text t) _ s => t ++ printForest s
  | .node (.comment t) _ s =>
      LT :: BANG :: MINUS :: MINUS :: (t ++ MINUS :: MINUS :: GT :: printForest s)

def XmlData.isText : XmlData → Bool
  | .text _ => true
  | _ => false

def XmlData.isNormal : XmlData → Bool
  | .normal _ _ => true
  | _ => false

def startsWithText : Forest XmlData → Bool
  | .nil => false
  | .node d _ _ => d.isText

def endsWithText : Forest XmlData → Bool
  | .nil => false
  | .node d _ .nil => d.isText
  | .node _ _ (.node d c s) => endsWithText (.node d c s)

/-- A document.  A text at its end is read only if a `<` follows it. -/
def printDoc (f : Forest XmlData) : List Byte :=
  printForest f ++ if endsWithText f then [LT] else []

/-! ## What can be printed -/

/-- A word the parser keeps as it is. -/
structure Kept (s : List Byte) : Prop where
  length : s.length ≤ 127
  noNul : NUL ∉ s
  trimmed : trim s = s

/-- An attribute of a tag whose attributes end at `endChar`. -/
structure PrintableAttr (endChar : Byte) (a : XmlAttr) : Prop where
  name : Kept a.name
  value : Kept a.value
  noEquals : EQUALS ∉ a.name
  head : ∀ c, a.name.head? = some c → c ≠ endChar ∧ c ≠ GT
  quote : DQUOTE ∉ a.value ∨ SQUOTE ∉ a.value

/-- The attributes fit into the array of the parser. -/
structure PrintableAttrs (endChar : Byte) (attrs : List XmlAttr) : Prop where
  length : 2 * attrs.length ≤ MAX_ATTR_NR
  each : ∀ a ∈ attrs, PrintableAttr endChar a

/-- A byte inside a name that ends at a space or a byte of `nameEnd`. -/
def nameByte (nameEnd : Byte → Bool) (c : Byte) : Bool := !isspace c && !nameEnd c && c != NUL

/-- No `>` follows two `-` in a row. -/
def commentOk : CommentStat → List Byte → Bool
  | _, [] => true
  | .comment, c :: rest => commentOk (if c = MINUS then .minus1 else .comment) rest
  | .minus1, c :: rest => commentOk (if c = MINUS then .minus2 else .comment) rest
  | .minus2, c :: rest => c != GT && commentOk .minus2 rest

/-- The data of a node can be written. -/
def XmlData.Printable : XmlData → Prop
  | .normal name attrs =>
      name.length ≤ 127 ∧ PrintableAttrs SLASH attrs ∧
        ∃ c k, name = c :: k ∧ (isalpha c || c = UNDERSCORE) = true ∧
          ∀ d ∈ k, nameByte (fun c => c = GT || c = SLASH) d = true
  | .pi name attrs =>
      name.length ≤ 127 ∧ PrintableAttrs QMARK attrs ∧ name ≠ [] ∧
        ∀ d ∈ name, nameByte (fun c => c = GT) d = true
  | .text t => NUL ∉ t ∧ LT ∉ t ∧ ∃ c k, t = c :: k ∧ isspace c = false
  | .comment t => NUL ∉ t ∧ commentOk .comment t = true

/-- Only elements have something below them, no text is followed by another one, and the data
    meet the condition. -/
def Shaped (P : XmlData → Prop) : Forest XmlData → Prop
  | .nil => True
  | .node d c s =>
      P d ∧ (d.isNormal = false → c = .nil) ∧
        (d.isText = true → startsWithText s = false) ∧ Shaped P c ∧ Shaped P s

/-- A forest that can be written. -/
abbrev Printable : Forest XmlData → Prop := Shaped XmlData.Printable

/-! ## The calls of a forest -/

def attrStrings (attrs : List XmlAttr) : List (List Byte) :=
  attrs.flatMap fun a => [a.name, a.value]

theorem attrPairs_attrStrings (attrs : List XmlAttr) : attrPairs (attrStrings attrs) = attrs := by
  induction attrs with
  | nil => rfl
  | cons a attrs ih =>
      show _ :: attrPairs (attrStrings attrs) = _
      rw [ih]

/-- The calls that build a forest. -/
def forestCalls : Forest XmlData → List XmlCall
  | .nil => []
  | .node (.normal name attrs) c s =>
      .start name (attrStrings attrs) :: (forestCalls c ++ .close .null :: forestCalls s)
  | .node (.pi name attrs) c s => .pi name (attrStrings attrs) :: (forestCalls c ++ forestCalls s)
  | .node (.text t) c s => .text t :: (forestCalls c ++ forestCalls s)
  | .node (.comment t) c s => .comment t :: (forestCalls c ++ forestCalls s)

/-- A call without the name at the end of an element. -/
def XmlCall.blank : XmlCall → XmlCall
  | .close _ => .close .null
  | call => call

theorem docStep_blank (ls : List (Level XmlData)) (call : XmlCall) :
    docStep ls call.blank = docStep ls call := by
  cases call with
  | close tag =>
      cases ls with
      | nil => rfl
      | cons l ls => cases ls <;> rfl
  | _ => rfl

theorem exec_blank (ls : List (Level XmlData)) (calls : List XmlCall) :
    exec docStep ls (calls.map XmlCall.blank) = exec docStep ls calls := by
  induction calls generalizing ls with
  | nil => rfl
  | cons call calls ih =>
      show (docStep ls call.blank).bind _ = (docStep ls call).bind _
      rw [docStep_blank]
      exact congrArg _ (funext fun ls => ih ls)

theorem exec_append (ls : List (Level XmlData)) (as bs : List XmlCall) :
    exec docStep ls (as ++ bs) = (exec docStep ls as).bind (exec docStep · bs) := by
  induction as generalizing ls with
  | nil => rfl
  | cons call as ih =>
      show (docStep ls call).bind _ = ((docStep ls call).bind _).bind _
      cases docStep ls call with
      | none => rfl
      | some ds => exact ih ds

/-- No NUL is in a text or a comment. -/
def XmlData.NoNul : XmlData → Prop
  | .text t | .comment t => NUL ∉ t
  | .normal _ _ | .pi _ _ => True

theorem XmlData.Printable.noNul {d : XmlData} (h : d.Printable) : d.NoNul := by
  cases d with
  | normal name attrs => trivial
  | pi name attrs => trivial
  | text t => exact h.1
  | comment t => exact h.1

/-- Only elements have something below them, and the strings are as `strndup` makes them. -/
def Leafy : Forest XmlData → Prop
  | .nil => True
  | .node d c s => (d.isNormal = false → c = .nil) ∧ d.NoNul ∧ Leafy c ∧ Leafy s

theorem Shaped.leafy {P : XmlData → Prop} (hP : ∀ d, P d → d.NoNul) {f : Forest XmlData}
    (h : Shaped P f) : Leafy f := by
  induction f with
  | nil => trivial
  | node d c s ihc ihs => exact ⟨h.2.1, hP d h.1, ihc h.2.2.2.1, ihs h.2.2.2.2⟩

/-- The calls of a forest put it below the open node. -/
theorem exec_forestCalls {f : Forest XmlData} (hf : Leafy f) (l : Level XmlData)
    (ls : List (Level XmlData)) :
    exec docStep (l :: ls) (forestCalls f) = some (l.add f :: ls) := by
  induction f generalizing l ls with
  | nil =>
      show some _ = some _
      simp [Level.add]
  | node d c s ihc ihs =>
      obtain ⟨hleaf, hz, hc, hs⟩ := hf
      have hadd : ∀ d' : Forest XmlData, (l.add d').add s = l.add (d'.append s) := fun d' => by
        simp [Level.add, Forest.append_assoc]
      cases d with
      | normal name attrs =>
          show exec docStep (⟨.normal name (attrPairs (attrStrings attrs)), .nil⟩ :: l :: ls)
            (forestCalls c ++ _) = _
          rw [exec_append, ihc hc, attrPairs_attrStrings]
          show exec docStep (l.add (.node (.normal name attrs) c .nil) :: ls) (forestCalls s) = _
          rw [ihs hs, hadd]
          rfl
      | pi name attrs =>
          cases hleaf rfl
          show exec docStep (l.add (.node (.pi name (attrPairs (attrStrings attrs))) .nil .nil) :: ls)
            (forestCalls s) = _
          rw [ihs hs, hadd, attrPairs_attrStrings]
          rfl
      | text t =>
          cases hleaf rfl
          show exec docStep (l.add (.node (.text (strndup t)) .nil .nil) :: ls) (forestCalls s) = _
          rw [ihs hs, hadd, strndup_eq hz]
          rfl
      | comment t =>
          cases hleaf rfl
          show exec docStep (l.add (.node (.comment (strndup t)) .nil .nil) :: ls) (forestCalls s) = _
          rw [ihs hs, hadd, strndup_eq hz]
          rfl

/-! ## Reading on -/

/-- The parser gets from here to there and makes these calls, whatever the builder is. -/
def Reads (state : XmlStat) (thiz : XmlParser) (xml : List Byte) (calls : List XmlEvent)
    (state' : XmlStat) (thiz' : XmlParser) (xml' : List Byte) : Prop :=
  ∀ (σ : Type) (on : σ → XmlEvent → Except XmlFault σ) (builder : σ),
    xmlParserLoop on state thiz builder xml =
      callBuilder on builder calls >>= (xmlParserLoop on state' thiz' · xml')

section

variable {state state' state'' : XmlStat} {thiz thiz' thiz'' : XmlParser}
  {xml xml' xml'' : List Byte} {calls calls' : List XmlEvent}

theorem Reads.trans (h : Reads state thiz xml calls state' thiz' xml')
    (h' : Reads state' thiz' xml' calls' state'' thiz'' xml'') :
    Reads state thiz xml (calls ++ calls') state'' thiz'' xml'' := by
  intro σ on builder
  rw [h σ on builder, callBuilder_append]
  cases callBuilder on builder calls with
  | error e => rfl
  | ok b => exact h' σ on b

theorem Reads.refl (state : XmlStat) (thiz : XmlParser) (xml : List Byte) :
    Reads state thiz xml [] state thiz xml := fun _ _ _ => rfl

theorem reads_step {c : Byte} {rest readPtr : List Byte}
    (h : xmlParserStep thiz state c rest = .ok (calls, state', thiz', readPtr)) :
    Reads state thiz (c :: rest) calls state' thiz' readPtr.tail := by
  intro σ on builder
  rw [xmlParserLoop]
  split
  · next heq =>
      rw [h] at heq
      cases heq
  · next heq =>
      rw [h] at heq
      cases heq
      cases callBuilder on builder calls <;> rfl

theorem reads_round {c d : Byte} {rest r : List Byte}
    (h : xmlParserStep thiz state c rest = .ok (calls, state', thiz', d :: r)) :
    Reads state thiz (c :: rest) calls state' thiz' r := reads_step h

/-- The end of the text. -/
theorem Reads.finish (h : Reads state thiz xml calls state' thiz' []) {σ : Type}
    (on : σ → XmlEvent → Except XmlFault σ) (builder : σ) :
    xmlParserLoop on state thiz builder xml = callBuilder on builder calls := by
  rw [h σ on builder]
  cases callBuilder on builder calls with
  | error e => rfl
  | ok b =>
      show xmlParserLoop _ _ _ _ _ = _
      rw [xmlParserLoop]

end

/-! ## Words and attributes -/

theorem trim_of_noSpace {s : List Byte} (h : ∀ c ∈ s, isspace c = false) : trim s = s := by
  have hend : s.rdropWhile isspace = s := by
    refine List.rdropWhile_eq_self_iff.mpr fun hne => ?_
    rw [h _ (List.getLast_mem hne)]
    exact Bool.false_ne_true
  rw [trim, hend]
  cases s with
  | nil => rfl
  | cons c t =>
      rw [List.dropWhile_cons_of_neg]
      simp [h c]

/-- A word that is kept does not start with a space. -/
theorem Kept.head {c : Byte} {t : List Byte} (h : Kept (c :: t)) : isspace c = false := by
  by_contra hc
  have hc : isspace c = true := by simpa using hc
  have hlen := congrArg List.length h.trimmed
  rw [trim_cons, List.dropWhile_cons_of_pos hc] at hlen
  have h₁ := (List.dropWhile_sublist (l := t.rdropWhile isspace) isspace).length_le
  have h₂ := (List.rdropWhile_prefix isspace t).length_le
  rw [List.length_cons] at hlen
  omega

/-- The strings of `attrs` are these. -/
def XmlParser.KeepsAttrs (thiz : XmlParser) (strs : List (List Byte)) : Prop :=
  ∃ offsets, thiz.attrs = offsets.map some ∧ List.Forall₂ thiz.Keeps offsets strs

theorem XmlParser.KeepsAttrs.strings {thiz : XmlParser} {strs : List (List Byte)} (hok : thiz.Ok)
    (h : thiz.KeepsAttrs strs) : thiz.attrs.map thiz.string = strs.map .str := by
  obtain ⟨offsets, hattrs, hkeeps⟩ := h
  rw [hattrs]
  clear hattrs
  induction hkeeps with
  | nil => rfl
  | cons ho _ ih =>
      rw [List.map_cons, List.map_cons, List.map_cons, ih, ho.string hok]

theorem XmlParser.KeepsAttrs.length {thiz : XmlParser} {strs : List (List Byte)}
    (h : thiz.KeepsAttrs strs) : thiz.attrs.length = strs.length := by
  obtain ⟨offsets, hattrs, hkeeps⟩ := h
  rw [hattrs, List.length_map, hkeeps.length_eq]

/-- What a parser keeps, and what another one keeps too. -/
structure Later (thiz thiz' : XmlParser) : Prop where
  ok : thiz'.Ok
  used : thiz.bufferUsed ≤ thiz'.bufferUsed
  keeps : ∀ offset t, thiz.Keeps offset t → thiz'.Keeps offset t

theorem Later.refl {thiz : XmlParser} (h : thiz.Ok) : Later thiz thiz :=
  ⟨h, Nat.le_refl _, fun _ _ hk => hk⟩

theorem Later.trans {a b c : XmlParser} (hab : Later a b) (hbc : Later b c) : Later a c :=
  ⟨hbc.ok, Nat.le_trans hab.used hbc.used, fun o t hk => hbc.keeps o t (hab.keeps o t hk)⟩

theorem pushAttr_keeps {thiz : XmlParser} {strs : List (List Byte)} {s : List Byte} (hok : thiz.Ok)
    (hused : 0 < thiz.bufferUsed) (hattrs : thiz.KeepsAttrs strs) (hs : Kept s) :
    ∃ thiz', thiz.pushAttr s = .ok thiz' ∧ Later thiz thiz' ∧ thiz'.KeepsAttrs (strs ++ [s]) := by
  obtain ⟨thiz', hdup, hok', hsame, hused', hkeep, hkeeps, -⟩ :=
    xmlParserStrdup_keeps hok hs.length hs.noNul (.inr hused)
  obtain ⟨offsets, hoff, hall⟩ := hattrs
  refine ⟨{ thiz' with attrs := thiz'.attrs ++ [some thiz.bufferUsed] }, ?_,
    ⟨⟨hok'.used_le, hok'.le_total, hok'.ends⟩, ?_, hkeeps⟩, offsets ++ [thiz.bufferUsed], ?_, ?_⟩
  · rw [XmlParser.pushAttr, hdup]
    rfl
  · show thiz.bufferUsed ≤ thiz'.bufferUsed
    omega
  · show thiz'.attrs ++ _ = _
    rw [hsame, hoff, List.map_append]
    rfl
  · refine List.rel_append (hall.imp fun o t hk => hkeeps o t hk) (.cons ?_ .nil)
    rw [hs.trimmed] at hkeep
    exact hkeep

section

variable {endChar : Byte} {thiz : XmlParser}

/-- The bytes of a key. -/
theorem parseAttrsLoop_key {valueEnd : Byte} {k : List Byte} (hk : EQUALS ∉ k)
    (hnr : thiz.attrs.length < MAX_ATTR_NR) (start r : List Byte) :
    parseAttrsLoop endChar ⟨.key, valueEnd, start⟩ thiz (k ++ r) =
      parseAttrsLoop endChar ⟨.key, valueEnd, start ++ k⟩ thiz r := by
  induction k generalizing start with
  | nil => rw [List.append_nil, List.nil_append]
  | cons c k ih =>
      obtain ⟨hc, hk⟩ := not_or.mp fun h => hk (List.mem_cons.mpr h)
      rw [List.cons_append, parseAttrsLoop, if_pos hnr]
      have hstep : attrsStep endChar ⟨.key, valueEnd, start⟩ thiz c =
          .ok (some (⟨.key, valueEnd, start ++ [c]⟩, thiz)) := by
        simp [attrsStep, Ne.symm hc]
      rw [hstep]
      show parseAttrsLoop _ _ _ _ = _
      rw [ih hk, List.append_assoc]
      rfl

/-- The bytes of a value. -/
theorem parseAttrsLoop_value {valueEnd : Byte} {v : List Byte} (hv : valueEnd ∉ v)
    (hnr : thiz.attrs.length < MAX_ATTR_NR) (start r : List Byte) :
    parseAttrsLoop endChar ⟨.value, valueEnd, start⟩ thiz (v ++ r) =
      parseAttrsLoop endChar ⟨.value, valueEnd, start ++ v⟩ thiz r := by
  induction v generalizing start with
  | nil => rw [List.append_nil, List.nil_append]
  | cons c v ih =>
      obtain ⟨hc, hv⟩ := not_or.mp fun h => hv (List.mem_cons.mpr h)
      rw [List.cons_append, parseAttrsLoop, if_pos hnr]
      have hstep : attrsStep endChar ⟨.value, valueEnd, start⟩ thiz c =
          .ok (some (⟨.value, valueEnd, start ++ [c]⟩, thiz)) := by
        simp [attrsStep, Ne.symm hc]
      rw [hstep]
      show parseAttrsLoop _ _ _ _ = _
      rw [ih hv, List.append_assoc]
      rfl

theorem attrQuote_spec {value : List Byte} (h : DQUOTE ∉ value ∨ SQUOTE ∉ value) :
    (attrQuote value = DQUOTE ∨ attrQuote value = SQUOTE) ∧ attrQuote value ∉ value := by
  rw [attrQuote]
  by_cases hd : DQUOTE ∈ value
  · rw [if_pos hd]
    exact ⟨.inr rfl, h.resolve_left (fun hn => hn hd)⟩
  · rw [if_neg hd]
    exact ⟨.inl rfl, hd⟩

/-- A key up to its `=`, from the state in front of a key. -/
theorem parseAttrsLoop_name {a : XmlAttr} (ha : PrintableAttr endChar a) {thiz' : XmlParser}
    (hend : endChar ≠ EQUALS) (hnr : thiz.attrs.length < MAX_ATTR_NR)
    (hpush : thiz.pushAttr a.name = .ok thiz') (valueEnd : Byte) (start r : List Byte) :
    ∃ start', parseAttrsLoop endChar ⟨.preKey, valueEnd, start⟩ thiz (a.name ++ EQUALS :: r) =
      parseAttrsLoop endChar ⟨.preValue, valueEnd, start'⟩ thiz' r := by
  cases hname : a.name with
  | nil =>
      rw [hname] at hpush
      refine ⟨[], ?_⟩
      have hstep : attrsStep endChar ⟨.preKey, valueEnd, start⟩ thiz EQUALS =
          .ok (some (⟨.preValue, valueEnd, []⟩, thiz')) := by
        show (if (decide (EQUALS = endChar) || decide (EQUALS = GT)) = true then _ else _) = _
        have heg : (EQUALS : Byte) ≠ GT := by decide
        rw [if_neg (by simp [Ne.symm hend, heg])]
        show (thiz.pushAttr [] >>= _) = _
        rw [hpush]
        rfl
      rw [List.nil_append, parseAttrsLoop, if_pos hnr, hstep]
  | cons c k =>
      have hkept := ha.name
      rw [hname] at hkept hpush
      have hspace := hkept.head
      obtain ⟨hce, hcg⟩ := ha.head c (by rw [hname]; rfl)
      have heq := ha.noEquals
      rw [hname] at heq
      obtain ⟨hc, hk⟩ := not_or.mp fun h => heq (List.mem_cons.mpr h)
      refine ⟨c :: k, ?_⟩
      have hstep : attrsStep endChar ⟨.preKey, valueEnd, start⟩ thiz c =
          .ok (some (⟨.key, valueEnd, [c]⟩, thiz)) := by
        simp [attrsStep, hce, hcg, hspace, Ne.symm hc]
      rw [List.cons_append, parseAttrsLoop, if_pos hnr, hstep]
      show parseAttrsLoop _ _ _ _ = _
      rw [parseAttrsLoop_key hk hnr, parseAttrsLoop, if_pos hnr]
      have hlast : attrsStep endChar ⟨.key, valueEnd, [c] ++ k⟩ thiz EQUALS =
          .ok (some (⟨.preValue, valueEnd, c :: k⟩, thiz')) := by
        show (thiz.pushAttr (c :: k) >>= _) = _
        rw [hpush]
        rfl
      rw [hlast]

/-- An attribute: its key and its value are kept. -/
theorem parseAttrsLoop_attr {a : XmlAttr} (ha : PrintableAttr endChar a) (hend : endChar ≠ EQUALS)
    {strs : List (List Byte)} (hok : thiz.Ok) (hused : 0 < thiz.bufferUsed)
    (hattrs : thiz.KeepsAttrs strs) (hnr : strs.length + 1 < MAX_ATTR_NR) (valueEnd : Byte)
    (start r : List Byte) :
    ∃ thiz' valueEnd' start', Later thiz thiz' ∧ thiz'.KeepsAttrs (strs ++ [a.name, a.value]) ∧
      parseAttrsLoop endChar ⟨.preKey, valueEnd, start⟩ thiz (printAttr a ++ r) =
        parseAttrsLoop endChar ⟨.preKey, valueEnd', start'⟩ thiz' r := by
  obtain ⟨thiz₁, hpush₁, hlater₁, hattrs₁⟩ := pushAttr_keeps hok hused hattrs ha.name
  have hused₁ : 0 < thiz₁.bufferUsed := Nat.lt_of_lt_of_le hused hlater₁.used
  obtain ⟨thiz₂, hpush₂, hlater₂, hattrs₂⟩ := pushAttr_keeps hlater₁.ok hused₁ hattrs₁ ha.value
  have hnr₀ : thiz.attrs.length < MAX_ATTR_NR := by
    rw [hattrs.length]
    omega
  have hnr₁ : thiz₁.attrs.length < MAX_ATTR_NR := by
    rw [hattrs₁.length, List.length_append]
    exact hnr
  obtain ⟨hquote, hnot⟩ := attrQuote_spec ha.quote
  obtain ⟨start₁, hname⟩ := parseAttrsLoop_name ha hend hnr₀ hpush₁ valueEnd start
    (attrQuote a.value :: (a.value ++ attrQuote a.value :: r))
  have hopen : attrsStep endChar ⟨.preValue, valueEnd, start₁⟩ thiz₁ (attrQuote a.value) =
      .ok (some (⟨.value, attrQuote a.value, []⟩, thiz₁)) := by
    simp [attrsStep, hquote]
  have hclose : attrsStep endChar ⟨.value, attrQuote a.value, [] ++ a.value⟩ thiz₁
      (attrQuote a.value) = .ok (some (⟨.preKey, attrQuote a.value, a.value⟩, thiz₂)) := by
    show (if attrQuote a.value = attrQuote a.value then _ else _) = _
    rw [if_pos rfl]
    show (thiz₁.pushAttr a.value >>= _) = _
    rw [hpush₂]
    rfl
  refine ⟨thiz₂, attrQuote a.value, a.value, hlater₁.trans hlater₂, ?_, ?_⟩
  · rw [List.append_assoc] at hattrs₂
    exact hattrs₂
  · rw [printAttr, List.append_assoc, List.cons_append, List.cons_append, List.append_assoc]
    show parseAttrsLoop _ _ _ (a.name ++ EQUALS :: attrQuote a.value :: (a.value ++
      attrQuote a.value :: r)) = _
    rw [hname, parseAttrsLoop, if_pos hnr₁, hopen]
    show parseAttrsLoop _ _ _ _ = _
    rw [parseAttrsLoop_value hnot hnr₁, parseAttrsLoop, if_pos hnr₁, hclose]

/-- A space in front of a key. -/
theorem parseAttrsLoop_space (hend : endChar ≠ SP) (hnr : thiz.attrs.length < MAX_ATTR_NR)
    (valueEnd : Byte) (start r : List Byte) :
    parseAttrsLoop endChar ⟨.preKey, valueEnd, start⟩ thiz (SP :: r) =
      parseAttrsLoop endChar ⟨.preKey, valueEnd, start ++ [SP]⟩ thiz r := by
  rw [parseAttrsLoop, if_pos hnr]
  have hstep : attrsStep endChar ⟨.preKey, valueEnd, start⟩ thiz SP =
      .ok (some (⟨.preKey, valueEnd, start ++ [SP]⟩, thiz)) := by
    have hgt : (SP : Byte) ≠ GT := by decide
    have heq : (SP : Byte) ≠ EQUALS := by decide
    simp [attrsStep, Ne.symm hend, hgt, heq]
  rw [hstep]

/-- All attributes of a tag. -/
theorem parseAttrsLoop_attrs {attrs : List XmlAttr} (ha : ∀ a ∈ attrs, PrintableAttr endChar a)
    (hend : endChar ≠ EQUALS ∧ endChar ≠ SP) {strs : List (List Byte)} (hok : thiz.Ok)
    (hused : 0 < thiz.bufferUsed) (hattrs : thiz.KeepsAttrs strs)
    (hnr : strs.length + 2 * attrs.length ≤ MAX_ATTR_NR) (valueEnd : Byte) (start r : List Byte) :
    ∃ thiz' valueEnd' start', Later thiz thiz' ∧ thiz'.KeepsAttrs (strs ++ attrStrings attrs) ∧
      parseAttrsLoop endChar ⟨.preKey, valueEnd, start⟩ thiz (printAttrs attrs ++ r) =
        parseAttrsLoop endChar ⟨.preKey, valueEnd', start'⟩ thiz' r := by
  induction attrs generalizing thiz strs valueEnd start with
  | nil =>
      refine ⟨thiz, valueEnd, start, .refl hok, ?_, rfl⟩
      rw [attrStrings, List.flatMap_nil, List.append_nil]
      exact hattrs
  | cons a attrs ih =>
      rw [List.length_cons] at hnr
      have hnr₀ : thiz.attrs.length < MAX_ATTR_NR := by
        rw [hattrs.length]
        omega
      obtain ⟨thiz₁, ve₁, start₁, hlater₁, hattrs₁, hloop₁⟩ :=
        parseAttrsLoop_attr (ha a List.mem_cons_self) hend.1 hok hused hattrs (by omega) valueEnd
          (start ++ [SP]) (printAttrs attrs ++ r)
      obtain ⟨thiz₂, ve₂, start₂, hlater₂, hattrs₂, hloop₂⟩ :=
        ih (fun b hb => ha b (List.mem_cons_of_mem _ hb)) hlater₁.ok
          (Nat.lt_of_lt_of_le hused hlater₁.used) hattrs₁
          (by rw [List.length_append, List.length_cons, List.length_cons, List.length_nil]; omega)
          ve₁ start₁
      refine ⟨thiz₂, ve₂, start₂, hlater₁.trans hlater₂, ?_, ?_⟩
      · rw [List.append_assoc] at hattrs₂
        exact hattrs₂
      · show parseAttrsLoop _ _ _ (SP :: (printAttr a ++ printAttrs attrs) ++ r) = _
        rw [List.cons_append, List.append_assoc, parseAttrsLoop_space hend.2 hnr₀, hloop₁, hloop₂]

end

/-- Where the attributes of a tag end. -/
theorem parseAttrsLoop_stop {endChar c : Byte} {scan : AttrScan} {thiz : XmlParser}
    (hscan : scan.state = .preKey) (hc : c = endChar ∨ c = GT) (r : List Byte) :
    parseAttrsLoop endChar scan thiz (c :: r) = .ok (thiz, c :: r) := by
  rw [parseAttrsLoop]
  split
  · have hstep : attrsStep endChar scan thiz c = .ok none := by
      rw [attrsStep, hscan]
      simp [hc]
    rw [hstep]
  · rfl

/-! ## Names -/

/-- A name up to the byte that ends it. -/
theorem parseNameLoop_name {nameEnd : Byte → Bool} {endChar : Byte} {thiz : XmlParser}
    {k : List Byte} (hk : ∀ d ∈ k, nameByte nameEnd d = true) (start r : List Byte) :
    parseNameLoop nameEnd endChar thiz start (k ++ r) =
      parseNameLoop nameEnd endChar thiz (start ++ k) r := by
  induction k generalizing start with
  | nil => rw [List.append_nil, List.nil_append]
  | cons d k ih =>
      have hd := hk d List.mem_cons_self
      simp only [nameByte, Bool.and_eq_true, Bool.not_eq_true'] at hd
      rw [List.cons_append, parseNameLoop, if_neg (by simp [hd.1.1, hd.1.2]),
        ih fun e he => hk e (List.mem_cons_of_mem _ he), List.append_assoc]
      rfl

theorem parseNameLoop_space {nameEnd : Byte → Bool} {endChar : Byte} {thiz thiz₁ thiz₂ : XmlParser}
    {start body readPtr : List Byte} {offset : Option Nat} (hsp : nameEnd SP = false)
    (hdup : xmlParserStrdup thiz start = .ok (offset, thiz₁)) (hbody : body ≠ [])
    (hattrs : xmlParserParseAttrs thiz₁ endChar body = .ok (thiz₂, readPtr)) :
    parseNameLoop nameEnd endChar thiz start (SP :: body) = .ok (offset, thiz₂, readPtr) := by
  obtain ⟨c, body, rfl⟩ := List.exists_cons_of_ne_nil hbody
  rw [parseNameLoop, if_pos (by simp), hdup]
  show (if nameEnd SP = true then _ else _) = _
  rw [hsp, if_neg Bool.false_ne_true]
  show (xmlParserParseAttrs thiz₁ endChar (c :: body) >>= _) = _
  rw [hattrs]
  rfl

theorem skipToGt_cons {c : Byte} (hc : c ≠ GT) (r : List Byte) : skipToGt (c :: r) = skipToGt r := by
  rw [skipToGt, List.dropWhile_cons_of_pos (by simpa using hc)]
  rfl

theorem skipToGt_gt (r : List Byte) : skipToGt (GT :: r) = GT :: r := by
  rw [skipToGt, List.dropWhile_cons_of_neg (by simp)]

/-- How a tag ends behind its attributes: with `>`, or with a space, the byte at which attributes
    end, and `>`. -/
theorem parseAttrsLoop_tail {endChar : Byte} {thiz : XmlParser} (hend : endChar ≠ SP)
    (hgt : endChar ≠ GT) {tail rest : List Byte}
    (htail : tail = GT :: rest ∨ tail = SP :: endChar :: GT :: rest) (valueEnd : Byte)
    (start : List Byte) :
    ∃ readPtr, parseAttrsLoop endChar ⟨.preKey, valueEnd, start⟩ thiz tail = .ok (thiz, readPtr) ∧
      skipToGt readPtr = GT :: rest ∧ (tail = GT :: rest → readPtr = GT :: rest) := by
  rcases htail with rfl | rfl
  · exact ⟨GT :: rest, parseAttrsLoop_stop rfl (.inr rfl) rest, skipToGt_gt rest, fun _ => rfl⟩
  · have hspgt : (SP : Byte) ≠ GT := by decide
    by_cases hnr : thiz.attrs.length < MAX_ATTR_NR
    · refine ⟨endChar :: GT :: rest, ?_, ?_, fun h => ?_⟩
      · rw [parseAttrsLoop_space hend hnr]
        exact parseAttrsLoop_stop rfl (.inl rfl) _
      · rw [skipToGt_cons hgt, skipToGt_gt]
      · exact absurd (List.cons.inj h).1 hspgt
    · -- the array is full: the loop ends in front of the space
      refine ⟨SP :: endChar :: GT :: rest, ?_, ?_, id⟩
      · rw [parseAttrsLoop, if_neg hnr]
      · rw [skipToGt_cons hspgt, skipToGt_cons hgt, skipToGt_gt]

/-- The name of a tag and its attributes: what is kept, and where the tag ends. -/
theorem parseNameLoop_tag (nameEnd : Byte → Bool) {endChar : Byte} {thiz : XmlParser} (hok : thiz.Ok)
    (hused : thiz.bufferUsed = 0) (hthiz : thiz.attrs = []) {name : List Byte} (hname : Kept name)
    (hne : name ≠ []) {attrs : List XmlAttr} (ha : PrintableAttrs endChar attrs)
    (hend : endChar ≠ EQUALS ∧ endChar ≠ SP) (hgt : endChar ≠ GT) (hsp : nameEnd SP = false)
    (hgtEnd : nameEnd GT = true) (tail : List Byte) {rest : List Byte}
    (htail : tail = GT :: rest ∨ tail = SP :: endChar :: GT :: rest) :
    ∃ thiz' readPtr, thiz'.Ok ∧ thiz'.Keeps 0 name ∧ thiz'.KeepsAttrs (attrStrings attrs) ∧
      parseNameLoop nameEnd endChar thiz name (printAttrs attrs ++ tail) =
        .ok (some 0, thiz', readPtr) ∧ skipToGt readPtr = GT :: rest ∧
      (tail = GT :: rest → readPtr = GT :: rest) := by
  obtain ⟨thiz₁, hdup, hok₁, hsame, hused₁, hkeep, -, -⟩ :=
    xmlParserStrdup_keeps hok hname.length hname.noNul (.inl hne)
  rw [hused] at hdup hkeep
  rw [hname.trimmed] at hkeep
  -- the parser in front of the attributes
  have hok₂ : ({ thiz₁ with attrs := [] } : XmlParser).Ok := ⟨hok₁.used_le, hok₁.le_total, hok₁.ends⟩
  have hattrs₂ : ({ thiz₁ with attrs := [] } : XmlParser).KeepsAttrs [] := ⟨[], rfl, .nil⟩
  have hused₂ : 0 < ({ thiz₁ with attrs := [] } : XmlParser).bufferUsed := by
    show 0 < thiz₁.bufferUsed
    omega
  cases attrs with
  | nil =>
      rcases htail with rfl | rfl
      · refine ⟨thiz₁, GT :: rest, hok₁, hkeep, ?_, ?_, skipToGt_gt rest, fun _ => rfl⟩
        · exact ⟨[], by rw [hsame, hthiz]; rfl, .nil⟩
        · show parseNameLoop _ _ _ _ (GT :: rest) = _
          rw [parseNameLoop, if_pos (by simp [hgtEnd]), hdup]
          show (if nameEnd GT = true then _ else _) = _
          rw [if_pos hgtEnd]
      · refine ⟨{ thiz₁ with attrs := [] }, endChar :: GT :: rest, hok₂, hkeep, hattrs₂, ?_, ?_,
          fun h => ?_⟩
        · exact parseNameLoop_space hsp hdup (List.cons_ne_nil _ _)
            (parseAttrsLoop_stop rfl (.inl rfl) _)
        · rw [skipToGt_cons hgt, skipToGt_gt]
        · exact absurd (List.cons.inj h).1 (by decide)
  | cons a attrs =>
      have hlen := ha.length
      rw [List.length_cons] at hlen
      have hmax : ([] : List (List Byte)).length + 1 < MAX_ATTR_NR := by decide
      obtain ⟨thiz₃, ve₃, start₃, hlater₃, hattrs₃, hloop₃⟩ :=
        parseAttrsLoop_attr (ha.each a List.mem_cons_self) hend.1 hok₂ hused₂ hattrs₂ hmax DQUOTE []
          (printAttrs attrs ++ tail)
      obtain ⟨thiz₄, ve₄, start₄, hlater₄, hattrs₄, hloop₄⟩ :=
        parseAttrsLoop_attrs (fun b hb => ha.each b (List.mem_cons_of_mem _ hb)) hend hlater₃.ok
          (Nat.lt_of_lt_of_le hused₂ hlater₃.used) hattrs₃
          (by simp only [List.nil_append, List.length_cons, List.length_nil]; omega) ve₃ start₃ tail
      obtain ⟨readPtr, hstop, hskip, hread⟩ := parseAttrsLoop_tail hend.2 hgt htail ve₄ start₄
      refine ⟨thiz₄, readPtr, hlater₄.ok, (hlater₃.trans hlater₄).keeps 0 name hkeep, hattrs₄, ?_,
        hskip, hread⟩
      show parseNameLoop _ _ _ _ ((SP :: (printAttr a ++ printAttrs attrs)) ++ tail) = _
      rw [List.cons_append, List.append_assoc]
      refine parseNameLoop_space hsp hdup (fun h => ?_) ?_
      · have hnil := (List.append_eq_nil_iff.mp h).1
        simp [printAttr] at hnil
      · show parseAttrsLoop _ ⟨.preKey, DQUOTE, []⟩ _ _ = _
        rw [hloop₃, hloop₄, hstop]

/-! ## Markup -/

theorem isalpha_spec {c : Byte} (h : (isalpha c || c = UNDERSCORE) = true) :
    isspace c = false ∧ c ≠ NUL ∧ c ≠ QMARK ∧ c ≠ SLASH ∧ c ≠ BANG := by
  have hrange : (65 ≤ c.toNat ∧ c.toNat ≤ 90) ∨ (97 ≤ c.toNat ∧ c.toNat ≤ 122) ∨
      c.toNat = UNDERSCORE.toNat := by
    simpa [isalpha, UInt8.le_iff_toNat_le, ← UInt8.toNat_inj, or_assoc] using h
  have h95 : UNDERSCORE.toNat = 95 := rfl
  have hne : ∀ d : Byte, ¬ (65 ≤ d.toNat) → c ≠ d := by
    rintro d hd rfl
    omega
  refine ⟨?_, hne _ (by decide), hne _ (by decide), hne _ (by decide), hne _ (by decide)⟩
  · simp only [isspace, Bool.or_eq_false_iff, beq_eq_false_iff_ne, Bool.and_eq_false_iff,
      decide_eq_false_iff_not, UInt8.le_iff_toNat_le, ne_eq, ← UInt8.toNat_inj, UInt8.reduceToNat]
    omega

theorem kept_of_nameByte {s : List Byte} (hlen : s.length ≤ 127)
    (h : ∀ d ∈ s, isspace d = false ∧ d ≠ NUL) : Kept s where
  length := hlen
  noNul hm := (h NUL hm).2 rfl
  trimmed := trim_of_noSpace fun c hc => (h c hc).1

theorem nameByte_spec {nameEnd : Byte → Bool} {d : Byte} (h : nameByte nameEnd d = true) :
    isspace d = false ∧ d ≠ NUL := by
  simp only [nameByte, Bool.and_eq_true, Bool.not_eq_true', bne_iff_ne, ne_eq] at h
  exact ⟨h.1.1, h.2⟩

theorem nameByte_gt {nameEnd : Byte → Bool} {d : Byte} (h : nameByte nameEnd d = true)
    (hgt : nameEnd GT = true) : d ≠ GT := by
  rintro rfl
  simp [nameByte, hgt] at h

theorem reads_startTag {thiz thiz' : XmlParser} {prev : Byte} {xml rest : List Byte}
    {calls : List XmlEvent} (hne : xml ≠ [])
    (h : xmlParserParseStartTag thiz prev xml = .ok (calls, thiz', GT :: rest)) :
    Reads (.startTag prev) thiz xml calls .none thiz' rest := by
  obtain ⟨d, r, rfl⟩ := List.exists_cons_of_ne_nil hne
  have hstep : xmlParserStep thiz (.startTag prev) d r = .ok (calls, .none, thiz', GT :: rest) := by
    show (xmlParserParseStartTag thiz prev (d :: r) >>= _) = _
    rw [h]
    rfl
  exact reads_round hstep

theorem reads_endTag {thiz thiz' : XmlParser} {xml rest : List Byte} {calls : List XmlEvent}
    (hne : xml ≠ []) (h : xmlParserParseEndTag thiz [] xml = .ok (calls, thiz', GT :: rest)) :
    Reads .endTag thiz xml calls .none thiz' rest := by
  obtain ⟨d, r, rfl⟩ := List.exists_cons_of_ne_nil hne
  have hstep : xmlParserStep thiz .endTag d r = .ok (calls, .none, thiz', GT :: rest) := by
    show (xmlParserParseEndTag thiz [] (d :: r) >>= _) = _
    rw [h]
    rfl
  exact reads_round hstep

theorem reads_processInstruction {thiz thiz' : XmlParser} {xml rest : List Byte}
    {calls : List XmlEvent} (hne : xml ≠ [])
    (h : xmlParserParsePi thiz xml = .ok (calls, thiz', GT :: rest)) :
    Reads .processInstruction thiz xml calls .none thiz' rest := by
  obtain ⟨d, r, rfl⟩ := List.exists_cons_of_ne_nil hne
  have hstep : xmlParserStep thiz .processInstruction d r =
      .ok (calls, .none, thiz', GT :: rest) := by
    show (xmlParserParsePi thiz (d :: r) >>= _) = _
    rw [h]
    rfl
  exact reads_round hstep

/-- A `<` is read in the state `STAT_NONE`, with an empty buffer. -/
theorem reads_lt (thiz : XmlParser) (rest : List Byte) :
    Reads .none thiz (LT :: rest) [] .afterLt (xmlParserResetBuffer thiz) rest :=
  have hstep : xmlParserStep thiz .none LT rest =
      .ok ([], .afterLt, xmlParserResetBuffer thiz, LT :: rest) := rfl
  reads_round hstep

/-- The start of an element. -/
theorem reads_start {thiz : XmlParser} (hok : thiz.Ok) {name : List Byte} {attrs : List XmlAttr}
    (h : (XmlData.normal name attrs).Printable) (rest : List Byte) :
    ∃ thiz', thiz'.Ok ∧ Reads .none thiz (LT :: (name ++ (printAttrs attrs ++ GT :: rest)))
      [(XmlCall.start name (attrStrings attrs)).event] .none thiz' rest := by
  obtain ⟨hlen, hattrs, c, k, rfl, hc, hk⟩ := h
  obtain ⟨hspace, hnul, hq, hs, hb⟩ := isalpha_spec hc
  have hkept : Kept (c :: k) := by
    refine kept_of_nameByte hlen fun d hd => ?_
    rcases List.mem_cons.mp hd with rfl | hd
    · exact ⟨hspace, hnul⟩
    · exact nameByte_spec (hk d hd)
  obtain ⟨thiz', readPtr, hok', hkeep, hkattrs, hloop, hskip, hread⟩ :=
    parseNameLoop_tag (fun c => c = GT || c = SLASH) hok.reset rfl rfl hkept (List.cons_ne_nil _ _)
      hattrs (by decide) (by decide) (by decide) (by decide) (GT :: rest) (.inl rfl)
  have hafter : Reads .afterLt (xmlParserResetBuffer thiz)
      (c :: (k ++ (printAttrs attrs ++ GT :: rest))) [] (.startTag c) (xmlParserResetBuffer thiz)
      (k ++ (printAttrs attrs ++ GT :: rest)) := by
    have hstep : xmlParserStep (xmlParserResetBuffer thiz) .afterLt c
        (k ++ (printAttrs attrs ++ GT :: rest)) = .ok ([], .startTag c, xmlParserResetBuffer thiz,
          c :: (k ++ (printAttrs attrs ++ GT :: rest))) := by
      simp only [xmlParserStep]
      rw [if_neg hq, if_neg hs, if_neg hb, if_pos hc]
    exact reads_round hstep
  have htag : xmlParserParseStartTag (xmlParserResetBuffer thiz) c
      (k ++ (printAttrs attrs ++ GT :: rest)) =
      .ok ([(XmlCall.start (c :: k) (attrStrings attrs)).event], thiz', GT :: rest) := by
    rw [xmlParserParseStartTag, parseNameLoop_name hk]
    show (parseNameLoop _ _ _ (c :: k) _ >>= _) = _
    rw [hloop, hread rfl]
    show Except.ok _ = Except.ok _
    rw [hkeep.string hok', hkattrs.strings hok', skipToGt_gt]
    rfl
  -- the round that reads the tag starts behind the first byte of the name
  have hround : Reads (.startTag c) (xmlParserResetBuffer thiz)
      (k ++ (printAttrs attrs ++ GT :: rest))
      [(XmlCall.start (c :: k) (attrStrings attrs)).event] .none thiz' rest := by
    exact reads_startTag (by simp) htag
  exact ⟨thiz', hok', ((reads_lt thiz _).trans hafter).trans hround⟩

/-- The end of an element. -/
theorem parseEndTag_name {thiz : XmlParser} {k : List Byte} (hk : GT ∉ k) (start r : List Byte) :
    xmlParserParseEndTag thiz start (k ++ r) = xmlParserParseEndTag thiz (start ++ k) r := by
  induction k generalizing start with
  | nil => rw [List.append_nil, List.nil_append]
  | cons c k ih =>
      obtain ⟨hc, hk⟩ := not_or.mp fun h => hk (List.mem_cons.mpr h)
      rw [List.cons_append, xmlParserParseEndTag, if_neg (Ne.symm hc), ih hk, List.append_assoc]
      rfl

theorem reads_end {thiz : XmlParser} (hok : thiz.Ok) {name : List Byte} (hlen : name.length ≤ 127)
    (hnul : NUL ∉ name) (hne : name ≠ []) (hgt : GT ∉ name) (rest : List Byte) :
    ∃ thiz' tag, thiz'.Ok ∧ Reads .none thiz (LT :: SLASH :: (name ++ GT :: rest))
      [(XmlCall.close tag).event] .none thiz' rest := by
  obtain ⟨thiz', hdup, hok', -⟩ := xmlParserStrdup_keeps hok.reset hlen hnul (.inl hne)
  have htag : xmlParserParseEndTag (xmlParserResetBuffer thiz) [] (name ++ GT :: rest) =
      .ok ([.endElement (if thiz'.bufferTotal = (xmlParserResetBuffer thiz).bufferTotal then
        thiz'.string (some (xmlParserResetBuffer thiz).bufferUsed) else .wild)], thiz',
        GT :: rest) := by
    rw [parseEndTag_name hgt, xmlParserParseEndTag, if_pos rfl, List.nil_append, hdup]
    rfl
  have hafter : Reads .afterLt (xmlParserResetBuffer thiz) (SLASH :: (name ++ GT :: rest)) []
      .endTag (xmlParserResetBuffer thiz) (name ++ GT :: rest) := by
    have hstep : xmlParserStep (xmlParserResetBuffer thiz) .afterLt SLASH (name ++ GT :: rest) =
        .ok ([], .endTag, xmlParserResetBuffer thiz, SLASH :: (name ++ GT :: rest)) := rfl
    exact reads_round hstep
  exact ⟨thiz', _, hok', ((reads_lt thiz _).trans hafter).trans (reads_endTag (by simp) htag)⟩

/-- A processing instruction. -/
theorem reads_pi {thiz : XmlParser} (hok : thiz.Ok) {name : List Byte} {attrs : List XmlAttr}
    (h : (XmlData.pi name attrs).Printable) (rest : List Byte) :
    ∃ thiz', thiz'.Ok ∧ Reads .none thiz
      (LT :: QMARK :: (name ++ (printAttrs attrs ++ SP :: QMARK :: GT :: rest)))
      [(XmlCall.pi name (attrStrings attrs)).event] .none thiz' rest := by
  obtain ⟨hlen, hattrs, hne, hname⟩ := h
  have hkept : Kept name := kept_of_nameByte hlen fun d hd => nameByte_spec (hname d hd)
  obtain ⟨thiz', readPtr, hok', hkeep, hkattrs, hloop, hskip, -⟩ :=
    parseNameLoop_tag (fun c => c = GT) hok.reset rfl rfl hkept hne hattrs (by decide) (by decide)
      (by decide) (by decide) (SP :: QMARK :: GT :: rest) (.inr rfl)
  have htag : xmlParserParsePi (xmlParserResetBuffer thiz)
      (name ++ (printAttrs attrs ++ SP :: QMARK :: GT :: rest)) =
      .ok ([(XmlCall.pi name (attrStrings attrs)).event], thiz', GT :: rest) := by
    rw [xmlParserParsePi, parseNameLoop_name hname, List.nil_append, hloop]
    show Except.ok _ = Except.ok _
    rw [hkeep.string hok', hkattrs.strings hok', hskip]
    rfl
  have hafter : Reads .afterLt (xmlParserResetBuffer thiz)
      (QMARK :: (name ++ (printAttrs attrs ++ SP :: QMARK :: GT :: rest))) [] .processInstruction
      (xmlParserResetBuffer thiz) (name ++ (printAttrs attrs ++ SP :: QMARK :: GT :: rest)) := by
    have hstep : xmlParserStep (xmlParserResetBuffer thiz) .afterLt QMARK
        (name ++ (printAttrs attrs ++ SP :: QMARK :: GT :: rest)) =
        .ok ([], .processInstruction, xmlParserResetBuffer thiz,
          QMARK :: (name ++ (printAttrs attrs ++ SP :: QMARK :: GT :: rest))) := rfl
    exact reads_round hstep
  exact ⟨thiz', hok', ((reads_lt thiz _).trans hafter).trans (reads_processInstruction (by simp) htag)⟩

theorem parseTextLoop_text {k : List Byte} (hk : LT ∉ k) (start : List Byte) (prev : Byte)
    (r : List Byte) :
    ∃ prev', parseTextLoop start prev (k ++ LT :: r) = ([.text (start ++ k)], prev' :: LT :: r) := by
  induction k generalizing start prev with
  | nil => exact ⟨prev, by rw [List.nil_append, parseTextLoop, if_pos rfl, List.append_nil]⟩
  | cons c k ih =>
      obtain ⟨hc, hk⟩ := not_or.mp fun h => hk (List.mem_cons.mpr h)
      obtain ⟨prev', hloop⟩ := ih hk (start ++ [c]) c
      refine ⟨prev', ?_⟩
      rw [List.cons_append, parseTextLoop, if_neg (Ne.symm hc), hloop, List.append_assoc]
      rfl

/-- A text in front of a `<`. -/
theorem reads_text (thiz : XmlParser) {t : List Byte} (h : (XmlData.text t).Printable)
    (rest : List Byte) :
    Reads .none thiz (t ++ LT :: rest) [(XmlCall.text t).event] .none thiz (LT :: rest) := by
  obtain ⟨-, hlt, c, k, rfl, hc⟩ := h
  obtain ⟨hcl, hk⟩ := not_or.mp fun h => hlt (List.mem_cons.mpr h)
  have hbegin : Reads .none thiz (c :: (k ++ LT :: rest)) [] (.text c) thiz (k ++ LT :: rest) := by
    have hstep : xmlParserStep thiz .none c (k ++ LT :: rest) =
        .ok ([], .text c, thiz, c :: (k ++ LT :: rest)) := by
      simp only [xmlParserStep]
      rw [if_neg (Ne.symm hcl), if_pos (by simp [hc])]
    exact reads_round hstep
  obtain ⟨prev', hloop⟩ := parseTextLoop_text hk [c] c rest
  have htext : Reads (.text c) thiz (k ++ LT :: rest) [.text (c :: k)] .none thiz (LT :: rest) := by
    cases hx : k ++ LT :: rest with
    | nil => simp at hx
    | cons d r =>
        have hstep : xmlParserStep thiz (.text c) d r =
            .ok ([.text (c :: k)], .none, thiz, prev' :: LT :: rest) := by
          rw [hx] at hloop
          show Except.ok ((parseTextLoop [c] c (d :: r)).1, _, _, (parseTextLoop [c] c (d :: r)).2) = _
          rw [hloop]
          rfl
        exact reads_round hstep
  exact hbegin.trans htext

theorem parseCommentLoop_comment {state : CommentStat} {t : List Byte}
    (ht : commentOk state t = true) (start r : List Byte) :
    parseCommentLoop state start (t ++ MINUS :: MINUS :: GT :: r) =
      ([.comment (start ++ t)], GT :: r) := by
  induction t generalizing state start with
  | nil =>
      have hend : ∀ s : CommentStat, parseCommentLoop s start (MINUS :: MINUS :: GT :: r) =
          parseCommentLoop .minus2 (start ++ [MINUS, MINUS]) (GT :: r) := by
        intro s
        have happ : start ++ [MINUS] ++ [MINUS] = start ++ [MINUS, MINUS] := by simp
        rw [← happ]
        cases s <;> rfl
      rw [List.nil_append, hend, parseCommentLoop, if_pos rfl, List.append_nil]
      simp
  | cons c t ih =>
      rw [show start ++ c :: t = (start ++ [c]) ++ t by simp]
      cases state with
      | comment => exact ih ht _
      | minus1 => exact ih ht _
      | minus2 =>
          simp only [commentOk, Bool.and_eq_true, bne_iff_ne] at ht
          rw [List.cons_append, parseCommentLoop, if_neg ht.1]
          exact ih ht.2 _

theorem reads_comment (thiz : XmlParser) {t : List Byte} (h : (XmlData.comment t).Printable)
    (rest : List Byte) :
    Reads .none thiz (LT :: BANG :: MINUS :: MINUS :: (t ++ MINUS :: MINUS :: GT :: rest))
      [(XmlCall.comment t).event] .none (xmlParserResetBuffer thiz) rest := by
  have hbang : xmlParserStep (xmlParserResetBuffer thiz) .afterLt BANG
      (MINUS :: MINUS :: (t ++ MINUS :: MINUS :: GT :: rest)) =
      .ok ([], .preComment1, xmlParserResetBuffer thiz,
        BANG :: MINUS :: MINUS :: (t ++ MINUS :: MINUS :: GT :: rest)) := rfl
  have hminus : xmlParserStep (xmlParserResetBuffer thiz) .preComment1 MINUS
      (MINUS :: (t ++ MINUS :: MINUS :: GT :: rest)) =
      .ok ([], .preComment2, xmlParserResetBuffer thiz,
        MINUS :: MINUS :: (t ++ MINUS :: MINUS :: GT :: rest)) := rfl
  have hcomment : xmlParserStep (xmlParserResetBuffer thiz) .preComment2 MINUS
      (t ++ MINUS :: MINUS :: GT :: rest) =
      .ok ([.comment t], .none, xmlParserResetBuffer thiz, GT :: rest) := by
    show Except.ok ([] ++ (parseCommentLoop .comment [] (t ++ MINUS :: MINUS :: GT :: rest)).1, _, _,
      (parseCommentLoop .comment [] (t ++ MINUS :: MINUS :: GT :: rest)).2) = _
    rw [parseCommentLoop_comment h.2]
    rfl
  exact (((reads_lt thiz _).trans (reads_round hbang)).trans (reads_round hminus)).trans
    (reads_round hcomment)

/-! ## Forests -/

/-- In front of a `<`, or at the end of a forest that does not end with a text. -/
theorem printForest_lt {f : Forest XmlData} (hf : startsWithText f = false) (hne : f ≠ .nil)
    (rest : List Byte) : ∃ r, printForest f ++ rest = LT :: r := by
  cases f with
  | nil => exact absurd rfl hne
  | node d c s =>
      cases d with
      | text t => cases hf
      | normal name attrs => exact ⟨_, rfl⟩
      | pi name attrs => exact ⟨_, rfl⟩
      | comment t => exact ⟨_, rfl⟩

/-- The parser reads a printed forest, with the calls that build it, up to what is behind it. -/
theorem reads_forest {f : Forest XmlData} (hf : Printable f) {thiz : XmlParser} (hok : thiz.Ok)
    {rest : List Byte} (hrest : endsWithText f = true → ∃ r, rest = LT :: r) :
    ∃ (thiz' : XmlParser) (calls : List XmlCall), thiz'.Ok ∧
      calls.map XmlCall.blank = forestCalls f ∧
      Reads .none thiz (printForest f ++ rest) (calls.map XmlCall.event) .none thiz' rest := by
  induction f generalizing thiz rest with
  | nil => exact ⟨thiz, [], hok, rfl, .refl _ _ _⟩
  | node d c s ihc ihs =>
      obtain ⟨hd, hleaf, hapart, hc, hs⟩ := hf
      have hrest' : endsWithText s = true → ∃ r, rest = LT :: r := fun h => hrest (by
        cases s with
        | nil => cases h
        | node d' c' s' => exact h)
      cases d with
      | normal name attrs =>
          obtain ⟨thiz₁, hok₁, hstart⟩ := reads_start hok hd
            (printForest c ++ LT :: SLASH :: (name ++ GT :: (printForest s ++ rest)))
          obtain ⟨thiz₂, calls₂, hok₂, hcalls₂, hreads₂⟩ :=
            ihc hc hok₁ fun _ => ⟨SLASH :: (name ++ GT :: (printForest s ++ rest)), rfl⟩
          obtain ⟨hlen, -, c₀, k, rfl, halpha, hk⟩ := hd
          obtain ⟨-, hnul, -, -, -⟩ := isalpha_spec halpha
          have hgt : GT ∉ c₀ :: k := by
            intro h
            rcases List.mem_cons.mp h with rfl | h
            · exact absurd halpha (by decide)
            · exact nameByte_gt (hk GT h) (by decide) rfl
          have hnul : NUL ∉ c₀ :: k := by
            intro h
            rcases List.mem_cons.mp h with h | h
            · exact hnul h.symm
            · exact (nameByte_spec (hk NUL h)).2 rfl
          obtain ⟨thiz₃, tag, hok₃, hend⟩ :=
            reads_end hok₂ hlen hnul (List.cons_ne_nil _ _) hgt (printForest s ++ rest)
          obtain ⟨thiz₄, calls₄, hok₄, hcalls₄, hreads₄⟩ := ihs hs hok₃ hrest'
          refine ⟨thiz₄, .start (c₀ :: k) (attrStrings attrs) :: (calls₂ ++ .close tag :: calls₄),
            hok₄, ?_, ?_⟩
          · rw [List.map_cons, List.map_append, List.map_cons, hcalls₂, hcalls₄]
            rfl
          · have hall := ((hstart.trans hreads₂).trans hend).trans hreads₄
            simpa [printForest] using hall
      | pi name attrs =>
          cases hleaf rfl
          obtain ⟨thiz₁, hok₁, hpi⟩ := reads_pi hok hd (printForest s ++ rest)
          obtain ⟨thiz₂, calls₂, hok₂, hcalls₂, hreads₂⟩ := ihs hs hok₁ hrest'
          refine ⟨thiz₂, .pi name (attrStrings attrs) :: calls₂, hok₂, ?_, ?_⟩
          · rw [List.map_cons, hcalls₂]
            rfl
          · have hall := hpi.trans hreads₂
            simpa [printForest] using hall
      | text t =>
          cases hleaf rfl
          obtain ⟨r, hr⟩ : ∃ r, printForest s ++ rest = LT :: r := by
            cases s with
            | nil => exact hrest rfl
            | node d' c' s' => exact printForest_lt (hapart rfl) (by simp) rest
          have htext := reads_text thiz hd r
          rw [← hr] at htext
          obtain ⟨thiz₂, calls₂, hok₂, hcalls₂, hreads₂⟩ := ihs hs hok hrest'
          refine ⟨thiz₂, .text t :: calls₂, hok₂, ?_, ?_⟩
          · rw [List.map_cons, hcalls₂]
            rfl
          · have hall := htext.trans hreads₂
            simpa [printForest] using hall
      | comment t =>
          cases hleaf rfl
          have hcomment := reads_comment thiz hd (printForest s ++ rest)
          obtain ⟨thiz₂, calls₂, hok₂, hcalls₂, hreads₂⟩ := ihs hs hok.reset hrest'
          refine ⟨thiz₂, .comment t :: calls₂, hok₂, ?_, ?_⟩
          · rw [List.map_cons, hcalls₂]
            rfl
          · have hall := hcomment.trans hreads₂
            simpa [printForest] using hall

/-- The calls of a forest leave it below the root. -/
theorem exec_printed {f : Forest XmlData} (hf : Leafy f) {calls : List XmlCall}
    (hcalls : calls.map XmlCall.blank = forestCalls f) :
    ∃ ds, exec docStep docStart calls = some ds ∧ docForest ds = f := by
  refine ⟨[docStart[0].add f], ?_, ?_⟩
  · rw [← exec_blank, hcalls]
    exact exec_forestCalls hf _ _
  · show (Forest.append .nil f).append .nil = f
    rw [Forest.append_nil]
    rfl

theorem reads_doc {f : Forest XmlData} (hf : Printable f) :
    ∃ (state : XmlStat) (thiz : XmlParser) (calls : List XmlCall),
      calls.map XmlCall.blank = forestCalls f ∧
      Reads .none {} (printDoc f) (calls.map XmlCall.event) state thiz [] := by
  cases hends : endsWithText f with
  | false =>
      obtain ⟨thiz, calls, -, hcalls, hreads⟩ :=
        @reads_forest f hf {} XmlParser.ok_new [] fun h => by rw [hends] at h; cases h
      exact ⟨.none, thiz, calls, hcalls, by rw [printDoc, hends]; exact hreads⟩
  | true =>
      obtain ⟨thiz, calls, -, hcalls, hreads⟩ :=
        @reads_forest f hf {} XmlParser.ok_new [LT] fun _ => ⟨[], rfl⟩
      have hall := hreads.trans (reads_lt thiz [])
      rw [List.append_nil] at hall
      exact ⟨.afterLt, _, calls, hcalls, by rw [printDoc, hends]; exact hall⟩

/-- Of a printed document the parser and the builder make its forest. -/
theorem builds_printed {f : Forest XmlData} (hf : Printable f) :
    ∃ b ls, xmlParserParse XmlBuilder.on xmlBuilderTreeCreate (printDoc f) = .ok b ∧
      Builds b ls ∧ docForest (eraseLevels ls) = f := by
  obtain ⟨state, thiz, calls, hcalls, hreads⟩ := reads_doc hf
  obtain ⟨ds, hexec, hds⟩ := exec_printed (hf.leafy fun _ => XmlData.Printable.noNul) hcalls
  obtain ⟨b, ls, hrun, hb, rfl⟩ := builds_create.run_ok hexec
  exact ⟨b, ls, (hreads.finish _ _).trans hrun, hb, hds⟩

/-- Of a forest that is printed, the parser and the builder make this forest again. -/
theorem xml_round_trip (f : Forest XmlData) (hf : Printable f) :
    ∃ b tree b' g, xmlParserParse XmlBuilder.on xmlBuilderTreeCreate (printDoc f) = .ok b ∧
      xmlBuilderGetTree b = .ok (tree, b') ∧
      Linked b'.heap.cell (some b.root) tree g none ∧ g.map Prod.snd = f := by
  obtain ⟨b, ls, hparse, hb, rfl⟩ := builds_printed hf
  obtain ⟨tree, b', g, hget, hlinked, -, hmap⟩ := hb.taken
  exact ⟨b, tree, b', g, hparse, hget, hlinked, hmap⟩

/-- A small configuration, with a declaration, attributes and a comment. -/
def sampleDoc : Forest XmlData :=
  .node (.pi (bytes "xml") [⟨bytes "version", bytes "1.0"⟩]) .nil
    (.node (.normal (bytes "server") [⟨bytes "id", bytes "a 'b'"⟩])
      (.node (.normal (bytes "root") []) (.node (.text (bytes "/srv ")) .nil .nil)
        (.node (.comment (bytes " 1024 * 1024")) .nil .nil)) .nil)

theorem printableAttr_of {endChar : Byte} {a : XmlAttr}
    (h : (a.name.length ≤ 127 ∧ NUL ∉ a.name ∧ trim a.name = a.name) ∧
      (a.value.length ≤ 127 ∧ NUL ∉ a.value ∧ trim a.value = a.value) ∧ EQUALS ∉ a.name ∧
      (a.name.head? ≠ some endChar ∧ a.name.head? ≠ some GT) ∧
      (DQUOTE ∉ a.value ∨ SQUOTE ∉ a.value)) : PrintableAttr endChar a where
  name := ⟨h.1.1, h.1.2.1, h.1.2.2⟩
  value := ⟨h.2.1.1, h.2.1.2.1, h.2.1.2.2⟩
  noEquals := h.2.2.1
  head _ hc := ⟨fun hce => h.2.2.2.1.1 (hce ▸ hc), fun hcg => h.2.2.2.1.2 (hcg ▸ hc)⟩
  quote := h.2.2.2.2

theorem printable_sampleDoc : Printable sampleDoc := by
  have hdecl : (XmlData.pi (bytes "xml") [⟨bytes "version", bytes "1.0"⟩]).Printable := by
    refine ⟨by decide +kernel, ⟨by decide +kernel, fun a ha => ?_⟩, by decide +kernel, ?_⟩
    · rw [List.mem_singleton.mp ha]
      exact printableAttr_of (by decide +kernel)
    · decide +kernel
  have hserver : (XmlData.normal (bytes "server") [⟨bytes "id", bytes "a 'b'"⟩]).Printable := by
    refine ⟨by decide +kernel, ⟨by decide +kernel, fun a ha => ?_⟩, 115, bytes "erver", rfl, ?_, ?_⟩
    · rw [List.mem_singleton.mp ha]
      exact printableAttr_of (by decide +kernel)
    · decide +kernel
    · decide +kernel
  have hroot : (XmlData.normal (bytes "root") []).Printable := by
    refine ⟨by decide +kernel, ⟨by decide +kernel, fun _ h => absurd h List.not_mem_nil⟩,
      114, bytes "oot", rfl, ?_, ?_⟩
    · decide +kernel
    · decide +kernel
  have htext : (XmlData.text (bytes "/srv ")).Printable :=
    ⟨by decide +kernel, by decide +kernel, 47, bytes "srv ", rfl, by decide +kernel⟩
  have hcomment : (XmlData.comment (bytes " 1024 * 1024")).Printable :=
    ⟨by decide +kernel, by decide +kernel⟩
  exact ⟨hdecl, fun _ => rfl, nofun, trivial, hserver, nofun, nofun,
    ⟨hroot, nofun, nofun, ⟨htext, fun _ => rfl, fun _ => rfl, trivial, trivial⟩,
      hcomment, fun _ => rfl, nofun, trivial, trivial⟩, trivial⟩

theorem xml_round_trip_sampleDoc :
    ∃ b tree b' g, xmlParserParse XmlBuilder.on xmlBuilderTreeCreate (printDoc sampleDoc) = .ok b ∧
      xmlBuilderGetTree b = .ok (tree, b') ∧
      Linked b'.heap.cell (some b.root) tree g none ∧ g.map Prod.snd = sampleDoc :=
  xml_round_trip sampleDoc printable_sampleDoc

end XwpServer
