/-
  XwpServer.XmlFaults

  Where the parser leaves its buffer (`xml_parser_strdup` with `strtrim`, `xml_parser.c`).

  `strtrim` starts at the last byte of its string, which for an empty one is the byte in
  front of it.  That is a byte of the string before, but for the first string in the
  buffer it is no byte of the block.  In a text without a word of more than 127 bytes, the
  parser does so exactly in a round that finds a processing instruction or an end tag
  without a name (`xmlParserParse_faults_iff`).
-/

import XwpServer.XmlRead

namespace XwpServer

open CString

/-! ## Rounds -/

/-- A round of `xml_parser_parse` on a text: its state, the parser and what is left. -/
inductive XmlReached (xml : List Byte) : XmlStat → XmlParser → List Byte → Prop
  | start : XmlReached xml .none {} xml
  | round {state state' : XmlStat} {thiz thiz' : XmlParser} {c : Byte} {rest readPtr : List Byte}
      {calls : List XmlEvent} (h : XmlReached xml state thiz (c :: rest))
      (hstep : xmlParserStep thiz state c rest = .ok (calls, state', thiz', readPtr)) :
      XmlReached xml state' thiz' readPtr.tail

/-- `<?` and `</` with no name behind them. -/
def EmptyName (state : XmlStat) (c : Byte) : Prop :=
  state = .processInstruction ∧ (isspace c = true ∨ c = GT) ∨ state = .endTag ∧ c = GT

/-- Every stretch of 128 bytes has a space or a `>` in it. -/
def ShortWords (xml : List Byte) : Prop :=
  ∀ w, w <:+: xml → 127 < w.length → ∃ c ∈ w, isspace c = true ∨ c = GT

/-! ## Strings -/

section Strings

variable {thiz : XmlParser} {s : List Byte}

/-- Behind another string every string is kept or refused. -/
theorem strdup_behind (hok : thiz.Ok) (hs : NUL ∉ s) (hne : s ≠ [] ∨ 0 < thiz.bufferUsed) :
    ∃ offset thiz', xmlParserStrdup thiz s = .ok (offset, thiz') ∧ thiz'.Ok ∧
      thiz.bufferUsed ≤ thiz'.bufferUsed := by
  rcases xmlParserStrdup_cases hok hs with ⟨hnil, hzero, -⟩ | ⟨-, total, htotal, hdup⟩ | ⟨thiz', hk⟩
  · rcases hne with hne | hne
    · exact absurd hnil hne
    · omega
  · exact ⟨none, _, hdup, ⟨hok.used_le, Nat.le_trans hok.le_total htotal, hok.ends⟩, Nat.le_refl _⟩
  · refine ⟨_, thiz', hk.result, hk.ok, ?_⟩
    have hused := hk.used
    omega

/-- An empty string as the first one. -/
theorem strdup_empty (hok : thiz.Ok) (hused : thiz.bufferUsed = 0) :
    xmlParserStrdup thiz [] = .error .memory := by
  rcases xmlParserStrdup_cases hok (s := []) List.not_mem_nil with
    ⟨-, -, hdup⟩ | ⟨hlen, -⟩ | ⟨thiz', hk⟩
  · exact hdup
  · simp only [List.length_nil] at hlen
    omega
  · rcases hk.notFault with h | h
    · exact absurd rfl h
    · omega

theorem pushAttr_behind (hok : thiz.Ok) (hs : NUL ∉ s) (hused : 0 < thiz.bufferUsed) :
    ∃ thiz', thiz.pushAttr s = .ok thiz' ∧ thiz'.Ok ∧ 0 < thiz'.bufferUsed := by
  obtain ⟨offset, thiz', hdup, hok', hle⟩ := strdup_behind hok hs (.inr hused)
  refine ⟨{ thiz' with attrs := thiz'.attrs ++ [offset] }, ?_,
    ⟨hok'.used_le, hok'.le_total, hok'.ends⟩, Nat.lt_of_lt_of_le hused hle⟩
  rw [XmlParser.pushAttr, hdup]
  rfl

/-- Attributes behind a name do not fault. -/
theorem attrsStep_behind (endChar : Byte) {c : Byte} {scan : AttrScan} (hok : thiz.Ok)
    (hused : 0 < thiz.bufferUsed) (hc : NUL ≠ c) (hstart : NUL ∉ scan.start) :
    attrsStep endChar scan thiz c = .ok none ∨ ∃ scan' thiz',
      attrsStep endChar scan thiz c = .ok (some (scan', thiz')) ∧ thiz'.Ok ∧
        0 < thiz'.bufferUsed ∧ NUL ∉ scan'.start := by
  have hpush : ∀ (start : List Byte) (next : AttrScan), NUL ∉ start → NUL ∉ next.start →
      ∃ scan' thiz', (thiz.pushAttr start >>= fun thiz => Except.ok (some (next, thiz))) =
          .ok (some (scan', thiz')) ∧ thiz'.Ok ∧ 0 < thiz'.bufferUsed ∧ NUL ∉ scan'.start := by
    intro start next hs hn
    obtain ⟨thiz', hp, hok', hused'⟩ := pushAttr_behind hok hs hused
    rw [hp]
    exact ⟨next, thiz', rfl, hok', hused', hn⟩
  have hadd : NUL ∉ scan.start ++ [c] := by simp [hstart, hc]
  cases hstate : scan.state with
  | preKey =>
      rw [attrsStep, hstate]
      simp only
      split
      · exact .inl rfl
      · refine .inr ?_
        by_cases heq : c = EQUALS
        · rw [if_pos heq]
          by_cases hspace : isspace c = true
          · simp only [hspace, Bool.not_true, Bool.false_eq_true, if_false]
            exact hpush _ _ hstart hstart
          · simp only [hspace, Bool.not_false, if_true]
            exact hpush _ _ List.not_mem_nil List.not_mem_nil
        · rw [if_neg heq]
          by_cases hspace : isspace c = true
          · simp only [hspace, Bool.not_true, Bool.false_eq_true, if_false]
            exact ⟨_, thiz, rfl, hok, hused, hadd⟩
          · simp only [hspace, Bool.not_false, if_true]
            refine ⟨_, thiz, rfl, hok, hused, ?_⟩
            simpa using hc
  | key =>
      rw [attrsStep, hstate]
      simp only
      refine .inr ?_
      by_cases heq : c = EQUALS
      · rw [if_pos heq]
        exact hpush _ _ hstart hstart
      · rw [if_neg heq]
        exact ⟨_, thiz, rfl, hok, hused, hadd⟩
  | preValue =>
      rw [attrsStep, hstate]
      simp only
      refine .inr ?_
      split
      · exact ⟨_, thiz, rfl, hok, hused, List.not_mem_nil⟩
      · exact ⟨_, thiz, rfl, hok, hused, hstart⟩
  | value =>
      rw [attrsStep, hstate]
      simp only
      refine .inr ?_
      split
      · exact hpush _ _ hstart hstart
      · exact ⟨_, thiz, rfl, hok, hused, hadd⟩

theorem parseAttrsLoop_behind (endChar : Byte) {scan : AttrScan} {readPtr : List Byte}
    (hok : thiz.Ok) (hused : 0 < thiz.bufferUsed) (hnul : NUL ∉ readPtr)
    (hstart : NUL ∉ scan.start) : ∃ r, parseAttrsLoop endChar scan thiz readPtr = .ok r := by
  induction readPtr generalizing scan thiz with
  | nil => exact ⟨_, rfl⟩
  | cons c rest ih =>
      obtain ⟨hc, hrest⟩ := not_or.mp fun h => hnul (List.mem_cons.mpr h)
      rw [parseAttrsLoop]
      split
      · rcases attrsStep_behind endChar hok hused hc hstart with
          hstep | ⟨scan', thiz', hstep, hok', hused', hstart'⟩
        · rw [hstep]
          exact ⟨_, rfl⟩
        · rw [hstep]
          exact ih hok' hused' hrest hstart'
      · exact ⟨_, rfl⟩

end Strings

/-! ## Tags -/

section Tags

variable {thiz : XmlParser} {nameEnd : Byte → Bool} {endChar : Byte} {start readPtr : List Byte}

/-- A short name faults exactly if it is empty. -/
theorem parseNameLoop_faults_iff (hok : thiz.Ok) (hused : thiz.bufferUsed = 0)
    (hnulStart : NUL ∉ start) (hnul : NUL ∉ readPtr)
    (hstop : ∃ d ∈ readPtr, (isspace d || nameEnd d) = true)
    (hshort : (start ++ readPtr.takeWhile fun d => !(isspace d || nameEnd d)).length ≤ 127) :
    (∃ e, parseNameLoop nameEnd endChar thiz start readPtr = .error e) ↔
      start = [] ∧ ∃ c, readPtr.head? = some c ∧ (isspace c || nameEnd c) = true := by
  induction readPtr generalizing start with
  | nil =>
      obtain ⟨d, hd, -⟩ := hstop
      cases hd
  | cons c rest ih =>
      obtain ⟨hc, hrest⟩ := not_or.mp fun h => hnul (List.mem_cons.mpr h)
      rw [parseNameLoop]
      by_cases hstopc : (isspace c || nameEnd c) = true
      · rw [if_pos hstopc]
        by_cases hempty : start = []
        · rw [hempty, strdup_empty hok hused]
          exact ⟨fun _ => ⟨rfl, c, rfl, hstopc⟩, fun _ => ⟨.memory, rfl⟩⟩
        · refine iff_of_false ?_ fun h => hempty h.1
          rw [List.takeWhile_cons_of_neg (by simp [hstopc]), List.append_nil] at hshort
          obtain ⟨thiz₁, hk⟩ := xmlParserStrdup_keeps hok hshort hnulStart (.inl hempty)
          have hpos : 0 < thiz₁.bufferUsed := by
            have hused₁ := hk.used
            omega
          rw [hk.result]
          rintro ⟨e, h⟩
          replace h : (if nameEnd c = true then _ else _) = Except.error e := h
          by_cases hend : nameEnd c = true
          · rw [if_pos hend] at h
            cases h
          · rw [if_neg hend] at h
            cases rest with
            | nil => cases h
            | cons d rest =>
                have hok₁ : ({ thiz₁ with attrs := [] } : XmlParser).Ok :=
                  ⟨hk.ok.used_le, hk.ok.le_total, hk.ok.ends⟩
                obtain ⟨r, hattrs⟩ : ∃ r, xmlParserParseAttrs thiz₁ endChar (d :: rest) = .ok r :=
                  parseAttrsLoop_behind endChar hok₁ hpos hrest List.not_mem_nil
                simp only [hattrs] at h
                cases h
      · rw [if_neg hstopc]
        have hstop' : ∃ d ∈ rest, (isspace d || nameEnd d) = true := by
          obtain ⟨d, hd, hdstop⟩ := hstop
          rcases List.mem_cons.mp hd with rfl | hd
          · exact absurd hdstop hstopc
          · exact ⟨d, hd, hdstop⟩
        have hshort' : (start ++ [c] ++
            rest.takeWhile fun d => !(isspace d || nameEnd d)).length ≤ 127 := by
          rw [List.takeWhile_cons_of_pos (by simpa using hstopc)] at hshort
          simpa using hshort
        rw [ih (by simp [hnulStart, hc]) hrest hstop' hshort']
        refine iff_of_false (fun h => by simp at h) ?_
        rintro ⟨-, d, hd, hdstop⟩
        cases hd
        exact hstopc hdstop

theorem parseEndTag_faults_iff (hok : thiz.Ok) (hused : thiz.bufferUsed = 0)
    (hnulStart : NUL ∉ start) (hnul : NUL ∉ readPtr) :
    (∃ e, xmlParserParseEndTag thiz start readPtr = .error e) ↔
      start = [] ∧ readPtr.head? = some GT := by
  induction readPtr generalizing start with
  | nil => exact iff_of_false (fun ⟨e, h⟩ => by cases h) fun h => by cases h.2
  | cons c rest ih =>
      obtain ⟨hc, hrest⟩ := not_or.mp fun h => hnul (List.mem_cons.mpr h)
      rw [xmlParserParseEndTag]
      by_cases hgt : c = GT
      · rw [if_pos hgt]
        by_cases hempty : start = []
        · rw [hempty, strdup_empty hok hused]
          exact ⟨fun _ => ⟨rfl, congrArg some hgt⟩, fun _ => ⟨.memory, rfl⟩⟩
        · refine iff_of_false ?_ fun h => hempty h.1
          obtain ⟨offset, thiz', hdup, -⟩ := strdup_behind hok hnulStart (.inl hempty)
          rw [hdup]
          rintro ⟨e, h⟩
          cases h
      · rw [if_neg hgt, ih (by simp [hnulStart, hc]) hrest]
        refine iff_of_false (fun h => by simp at h) fun h => hgt ?_
        exact Option.some.inj h.2

/-- A name in a text of short words. -/
theorem ShortWords.name {xml : List Byte} (h : ShortWords xml) (nameEnd : Byte → Bool)
    (hgt : nameEnd GT = true) (hs : readPtr <:+ xml) :
    (readPtr.takeWhile fun d => !(isspace d || nameEnd d)).length ≤ 127 := by
  by_contra hlong
  have hinfix : (readPtr.takeWhile fun d => !(isspace d || nameEnd d)) <:+: xml :=
    (List.takeWhile_prefix _).isInfix.trans hs.isInfix
  obtain ⟨c, hc, hstop⟩ := h _ hinfix (by omega)
  have hin := List.mem_takeWhile_imp hc
  rcases hstop with hstop | rfl
  · simp [hstop] at hin
  · simp [hgt] at hin

end Tags

/-! ## The parser -/

section Run

variable {xml : List Byte}

theorem bind_faults_iff {ε α β : Type} {x : Except ε α} {f : α → Except ε β}
    (hf : ∀ a, ∃ b, f a = .ok b) : (∃ e, (x >>= f) = .error e) ↔ ∃ e, x = .error e := by
  cases x with
  | error e => exact ⟨fun _ => ⟨e, rfl⟩, fun _ => ⟨e, rfl⟩⟩
  | ok a =>
      obtain ⟨b, hb⟩ := hf a
      refine iff_of_false (fun ⟨e, h⟩ => ?_) fun ⟨e, h⟩ => by cases h
      rw [show (Except.ok a >>= f) = f a from rfl, hb] at h
      cases h

theorem no_fault_of_ok {ε α : Type} {x : Except ε α} {a : α} (h : x = .ok a) :
    ¬ ∃ e, x = .error e := by
  rintro ⟨e, he⟩
  rw [h] at he
  cases he

/-- A round faults exactly at an empty name. -/
theorem step_faults_iff {state : XmlStat} {thiz : XmlParser} {c : Byte} {rest : List Byte}
    {lastText : Bool} (hwords : ShortWords xml) (h : Reading state thiz (c :: rest) lastText)
    (hs : c :: rest <:+ xml) (hstart : ∀ prev, state = .startTag prev → prev :: c :: rest <:+ xml) :
    (∃ e, xmlParserStep thiz state c rest = .error e) ↔ EmptyName state c := by
  have hstop' : ∀ nameEnd : Byte → Bool, nameEnd GT = true →
      ∃ d ∈ c :: rest, (isspace d || nameEnd d) = true := by
    intro nameEnd hgt
    obtain ⟨d, hd, hds | rfl⟩ := h.stops
    · exact ⟨d, hd, by simp [hds]⟩
    · exact ⟨GT, hd, by simp [hgt]⟩
  cases state with
  | startTag prev =>
      have halpha := h.start prev rfl
      obtain ⟨hused, -⟩ := h.tag rfl
      obtain ⟨hspace, hnul, -, hslash, -⟩ := isalpha_spec halpha
      have hgt : prev ≠ GT := by
        rintro rfl
        exact absurd halpha (by decide)
      have hshort := hwords.name (fun c => c = GT || c = SLASH) rfl (hstart prev rfl)
      rw [List.takeWhile_cons_of_pos (by simp [hspace, hgt, hslash])] at hshort
      refine (bind_faults_iff fun r => ⟨_, rfl⟩).trans ?_
      refine (bind_faults_iff fun r => ⟨_, rfl⟩).trans ?_
      have hprev : NUL ∉ [prev] := by simpa using hnul.symm
      rw [parseNameLoop_faults_iff h.ok hused hprev h.noNul (hstop' _ rfl) hshort]
      simp [EmptyName]
  | endTag =>
      obtain ⟨hused, -⟩ := h.tag rfl
      refine (bind_faults_iff fun r => ⟨_, rfl⟩).trans ?_
      rw [parseEndTag_faults_iff h.ok hused List.not_mem_nil h.noNul]
      simp [EmptyName]
  | processInstruction =>
      obtain ⟨hused, -⟩ := h.tag rfl
      refine (bind_faults_iff fun r => ⟨_, rfl⟩).trans ?_
      refine (bind_faults_iff fun r => ⟨_, rfl⟩).trans ?_
      rw [parseNameLoop_faults_iff h.ok hused List.not_mem_nil h.noNul (hstop' _ rfl)
        (by simpa using hwords.name (fun c => c = GT) rfl hs)]
      simp [EmptyName]
  | text prev => exact iff_of_false (no_fault_of_ok rfl) (by simp [EmptyName])
  | comment => exact iff_of_false (no_fault_of_ok rfl) (by simp [EmptyName])
  | preComment2 => exact iff_of_false (no_fault_of_ok rfl) (by simp [EmptyName])
  | none =>
      refine iff_of_false ?_ (by simp [EmptyName])
      rintro ⟨e, h⟩
      simp only [xmlParserStep] at h
      repeat' split at h
      all_goals cases h
  | afterLt =>
      refine iff_of_false ?_ (by simp [EmptyName])
      rintro ⟨e, h⟩
      simp only [xmlParserStep] at h
      repeat' split at h
      all_goals cases h
  | preComment1 =>
      refine iff_of_false ?_ (by simp [EmptyName])
      rintro ⟨e, h⟩
      simp only [xmlParserStep] at h
      repeat' split at h
      all_goals cases h

/-- What is known of a round that is reached. -/
theorem XmlReached.reading (hnul : NUL ∉ xml)
    (hlast : ∀ c, xml.getLast? = some c → isspace c = true ∨ c = GT) {state : XmlStat}
    {thiz : XmlParser} {readPtr : List Byte} (h : XmlReached xml state thiz readPtr) :
    (∃ lastText, Reading state thiz readPtr lastText) ∧ readPtr <:+ xml ∧
      ∀ prev, state = .startTag prev → prev :: readPtr <:+ xml := by
  induction h with
  | start => exact ⟨⟨false, .begin hnul hlast⟩, List.suffix_rfl, fun prev h => by cases h⟩
  | round _ hstep ih =>
      obtain ⟨⟨lastText, hread⟩, hs, -⟩ := ih
      obtain ⟨lastText', -, hread'⟩ := step_reading hread hstep
      obtain ⟨htail, hprev⟩ := xmlParserStep_suffix hstep
      refine ⟨⟨lastText', hread'⟩, ?_, fun prev hst => ?_⟩
      · rcases htail with htail | ⟨-, -, htail⟩
        · exact ((List.tail_suffix _).trans htail).trans hs
        · exact htail.trans hs
      · obtain ⟨rfl, rfl⟩ := hprev prev hst
        exact hs

variable {σ : Type} {on : σ → XmlEvent → Except XmlFault σ}

theorem callBuilder_total (hon : ∀ b e, ∃ b', on b e = .ok b') (b : σ) (es : List XmlEvent) :
    ∃ b', callBuilder on b es = .ok b' := by
  induction es generalizing b with
  | nil => exact ⟨b, rfl⟩
  | cons e es ih =>
      obtain ⟨b', hb'⟩ := hon b e
      rw [callBuilder, hb']
      exact ih b'

theorem xmlParserLoop_round {thiz thiz' : XmlParser} {state state' : XmlStat} {c : Byte}
    {rest readPtr : List Byte} {calls : List XmlEvent} {b b' : σ}
    (hstep : xmlParserStep thiz state c rest = .ok (calls, state', thiz', readPtr))
    (hcall : callBuilder on b calls = .ok b') :
    xmlParserLoop on state thiz b (c :: rest) = xmlParserLoop on state' thiz' b' readPtr.tail := by
  rw [reads_step hstep σ on b, hcall]
  rfl

theorem xmlParserLoop_fault {thiz : XmlParser} {state : XmlStat} {c : Byte} {rest : List Byte}
    {e : XmlFault} {b : σ} (hstep : xmlParserStep thiz state c rest = .error e) :
    xmlParserLoop on state thiz b (c :: rest) = .error e := by
  rw [xmlParserLoop]
  split
  · next h =>
    rw [hstep] at h
    cases h
    rfl
  · next h =>
    rw [hstep] at h
    cases h

/-- The whole run is the rest of it from any round that is reached. -/
theorem XmlReached.run (hon : ∀ b e, ∃ b', on b e = .ok b') (b : σ) {state : XmlStat}
    {thiz : XmlParser} {readPtr : List Byte} (h : XmlReached xml state thiz readPtr) :
    ∃ b', xmlParserParse on b xml = xmlParserLoop on state thiz b' readPtr := by
  induction h with
  | start => exact ⟨b, rfl⟩
  | round _ hstep ih =>
      obtain ⟨b₁, hrun⟩ := ih
      obtain ⟨b₂, hcall⟩ := callBuilder_total hon b₁ _
      exact ⟨b₂, hrun.trans (xmlParserLoop_round hstep hcall)⟩

/-- A run that faults has a round that does. -/
theorem XmlReached.faults (hon : ∀ b e, ∃ b', on b e = .ok b') {n : Nat} {state : XmlStat}
    {thiz : XmlParser} {readPtr : List Byte} {b : σ} {e : XmlFault}
    (hn : 2 * readPtr.length + state.rank ≤ n) (h : XmlReached xml state thiz readPtr)
    (hfault : xmlParserLoop on state thiz b readPtr = .error e) :
    ∃ state thiz c rest e, XmlReached xml state thiz (c :: rest) ∧
      xmlParserStep thiz state c rest = .error e := by
  induction n generalizing state thiz readPtr b with
  | zero =>
      cases readPtr with
      | nil =>
          rw [xmlParserLoop] at hfault
          cases hfault
      | cons c rest =>
          rw [List.length_cons] at hn
          omega
  | succ n ih =>
      cases readPtr with
      | nil =>
          rw [xmlParserLoop] at hfault
          cases hfault
      | cons c rest =>
          cases hstep : xmlParserStep thiz state c rest with
          | error e => exact ⟨state, thiz, c, rest, e, h, hstep⟩
          | ok r =>
              obtain ⟨calls, state', thiz', readPtr'⟩ := r
              obtain ⟨b', hcall⟩ := callBuilder_total hon b calls
              rw [xmlParserLoop_round hstep hcall] at hfault
              have hdec := xmlParserStep_decreases hstep
              exact ih (by omega) (h.round hstep) hfault

/-- In a text of short words the parser leaves its buffer exactly at an empty name, whatever
    the builder that does not fail. -/
theorem xmlParserParse_faults_iff (hon : ∀ b e, ∃ b', on b e = .ok b') (builder : σ)
    (xml : List Byte) (hnul : NUL ∉ xml)
    (hlast : ∀ c, xml.getLast? = some c → isspace c = true ∨ c = GT) (hwords : ShortWords xml) :
    (∃ e, xmlParserParse on builder xml = .error e) ↔
      ∃ state thiz c rest, XmlReached xml state thiz (c :: rest) ∧ EmptyName state c := by
  have hround : ∀ {state thiz c rest}, XmlReached xml state thiz (c :: rest) →
      ((∃ e, xmlParserStep thiz state c rest = .error e) ↔ EmptyName state c) := by
    intro state thiz c rest h
    obtain ⟨⟨lastText, hread⟩, hs, hstart⟩ := h.reading hnul hlast
    exact step_faults_iff hwords hread hs hstart
  constructor
  · rintro ⟨e, h⟩
    obtain ⟨state, thiz, c, rest, e, hreached, hfault⟩ :=
      XmlReached.faults hon (Nat.le_refl _) .start h
    exact ⟨state, thiz, c, rest, hreached, (hround hreached).mp ⟨e, hfault⟩⟩
  · rintro ⟨state, thiz, c, rest, hreached, hempty⟩
    obtain ⟨e, hfault⟩ := (hround hreached).mpr hempty
    obtain ⟨b, hrun⟩ := hreached.run hon builder
    exact ⟨e, hrun.trans (xmlParserLoop_fault hfault)⟩

theorem xmlParserParse_faults_iff_endTag :
    ∃ e, xmlParserParse (fun (b : Unit) _ => .ok b) () (bytes "<a></>") = .error e := by
  -- `<`, `a`, the tag, `<` and `/`
  have hreached : ∃ thiz, XmlReached (bytes "<a></>") .endTag thiz [GT] :=
    ⟨_, @XmlReached.round _ _ _ _ _ SLASH (bytes ">") (bytes "/>") _
      (@XmlReached.round _ _ _ _ _ LT (bytes "/>") (bytes "</>") _
        (@XmlReached.round _ _ _ _ _ GT (bytes "</>") (bytes "></>") _
          (@XmlReached.round _ _ _ _ _ 97 (bytes "></>") (bytes "a></>") _
            (@XmlReached.round _ _ _ _ _ LT (bytes "a></>") (bytes "<a></>") _ .start rfl)
            rfl) rfl) rfl) rfl⟩
  obtain ⟨thiz, hreached⟩ := hreached
  refine (xmlParserParse_faults_iff (fun b _ => ⟨b, rfl⟩) () _ (by decide) ?_ fun w hw hlong => ?_).mpr
    ⟨.endTag, thiz, GT, [], hreached, .inr ⟨rfl, rfl⟩⟩
  · rintro c ⟨⟩
    exact .inr rfl
  · have hle := hw.length_le
    have hlen : (bytes "<a></>").length = 6 := by decide
    omega

end Run

end XwpServer
