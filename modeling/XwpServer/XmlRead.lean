/-
  XwpServer.XmlRead

  What the parser reads from any text.

  Whatever a text is, the trees that are built from it have a form: names and values are
  trimmed, a text starts with a byte that is no space and has no `<` in it, no two texts
  are neighbours, no `>` of a comment follows two `-`, and no element has more attributes
  than the array of the parser holds.  This is the form a tree needs to be printed, so
  printing what was read and reading it again gives the same trees
  (`read_print_read`), for every text that does not end inside a name.

  The invariant of the loop says what the state knows of the bytes around `read_ptr`; each
  round keeps it and makes calls of this form (`step_reading`).
-/

import XwpServer.XmlPrint

namespace XwpServer

open CString LinkedForest Transition

/-! ## Words -/

theorem trim_trim (s : List Byte) : trim (trim s) = trim s := by
  have hend : (trim s).rdropWhile isspace = trim s := by
    refine List.rdropWhile_eq_self_iff.mpr fun hne => ?_
    have hsuffix : trim s <:+ s.rdropWhile isspace := List.dropWhile_suffix _
    have hne' : s.rdropWhile isspace ≠ [] := fun h => hne (List.suffix_nil.mp (h ▸ hsuffix))
    rw [hsuffix.getLast hne]
    exact List.rdropWhile_last_not isspace s hne'
  show ((trim s).rdropWhile isspace).dropWhile isspace = trim s
  rw [hend]
  exact List.dropWhile_idempotent isspace _

/-- A word as it is kept, but for its length. -/
def Trimmed (s : List Byte) : Prop := NUL ∉ s ∧ trim s = s

theorem trimmed_trim {s : List Byte} (h : NUL ∉ s) : Trimmed (trim s) :=
  ⟨not_mem_trim h, trim_trim s⟩

/-- The strings of a key; the name of an attribute, or a pointer outside the buffer. -/
def KeyOk (endChar : Byte) : XmlStr → Prop
  | .null => False
  | .wild => True
  | .str s => Trimmed s ∧ EQUALS ∉ s ∧ ∀ c, s.head? = some c → c ≠ endChar ∧ c ≠ GT

def ValueOk : XmlStr → Prop
  | .null => False
  | .wild => True
  | .str s => Trimmed s ∧ (DQUOTE ∉ s ∨ SQUOTE ∉ s)

/-- Keys and values in turn; `key` says what the first one is. -/
def TurnsOk (endChar : Byte) : (key : Bool) → List XmlStr → Prop
  | _, [] => True
  | true, s :: rest => KeyOk endChar s ∧ TurnsOk endChar false rest
  | false, s :: rest => ValueOk s ∧ TurnsOk endChar true rest

/-- Whose turn it is behind a list. -/
def turn (key : Bool) (l : List XmlStr) : Bool := xor key (l.length % 2 == 1)

theorem turn_cons (key : Bool) (s : XmlStr) (l : List XmlStr) : turn key (s :: l) = turn (!key) l := by
  simp only [turn, List.length_cons]
  rcases Nat.mod_two_eq_zero_or_one l.length with h | h
  · have h' : (l.length + 1) % 2 = 1 := by omega
    cases key <;> simp [h, h']
  · have h' : (l.length + 1) % 2 = 0 := by omega
    cases key <;> simp [h, h']

theorem turn_append (key : Bool) (s : XmlStr) (l : List XmlStr) :
    turn key (l ++ [s]) = !turn key l := by
  induction l generalizing key with
  | nil => cases key <;> rfl
  | cons x l ih => rw [List.cons_append, turn_cons, turn_cons, ih]

theorem TurnsOk.append {endChar : Byte} {key : Bool} {l : List XmlStr} {s : XmlStr}
    (h : TurnsOk endChar key l) (hs : if turn key l = true then KeyOk endChar s else ValueOk s) :
    TurnsOk endChar key (l ++ [s]) := by
  induction l generalizing key with
  | nil =>
      cases key with
      | true => exact ⟨hs, trivial⟩
      | false => exact ⟨hs, trivial⟩
  | cons x l ih =>
      rw [turn_cons] at hs
      cases key with
      | true => exact ⟨h.1, ih h.2 hs⟩
      | false => exact ⟨h.1, ih h.2 hs⟩

/-! ## The strings of `attrs` -/

/-- What the offset of a string stands for. -/
def XmlParser.Holds (thiz : XmlParser) (offset : Option Nat) (s : XmlStr) : Prop :=
  (offset = none ∧ s = .wild) ∨ ∃ k t, offset = some k ∧ s = .str t ∧ thiz.Keeps k t

theorem XmlParser.Holds.string {thiz : XmlParser} {offset : Option Nat} {s : XmlStr} (hok : thiz.Ok)
    (h : thiz.Holds offset s) : thiz.string offset = s := by
  rcases h with ⟨rfl, rfl⟩ | ⟨k, t, rfl, rfl, hk⟩
  · rfl
  · exact hk.string hok

/-- A string is handed to the buffer: it is refused, or kept without the spaces around it. -/
theorem strdup_holds {thiz thiz' : XmlParser} {s : List Byte} {offset : Option Nat} (hok : thiz.Ok)
    (hs : NUL ∉ s) (h : xmlParserStrdup thiz s = .ok (offset, thiz')) :
    thiz'.Ok ∧ thiz'.attrs = thiz.attrs ∧ (s ≠ [] ∨ 0 < thiz.bufferUsed) ∧
      (∀ o t, thiz.Holds o t → thiz'.Holds o t) ∧
      (thiz'.Holds offset .wild ∨ thiz'.Holds offset (.str (trim s))) := by
  rcases xmlParserStrdup_cases hok hs with ⟨-, -, hdup⟩ | ⟨hlen, total, htotal, hdup⟩ | ⟨thiz₁, hk⟩
  · rw [hdup] at h
    cases h
  · rw [hdup] at h
    cases h
    refine ⟨⟨hok.used_le, Nat.le_trans hok.le_total htotal, hok.ends⟩, rfl, .inl ?_,
      fun o t ht => ht, .inl (.inl ⟨rfl, rfl⟩)⟩
    rintro rfl
    exact absurd hlen (by decide)
  · have hdup := hk.result
    rw [hdup] at h
    cases h
    refine ⟨hk.ok, hk.attrs, hk.notFault, ?_, .inr (.inr ⟨_, _, rfl, rfl, hk.keeps⟩)⟩
    · rintro o t (h | ⟨k, u, rfl, rfl, hu⟩)
      · exact .inl h
      · exact .inr ⟨k, u, rfl, rfl, hk.before k u hu⟩

/-- The strings of `attrs` are these. -/
def XmlParser.HoldsAttrs (thiz : XmlParser) (strs : List XmlStr) : Prop :=
  List.Forall₂ thiz.Holds thiz.attrs strs

theorem XmlParser.HoldsAttrs.strings {thiz : XmlParser} {strs : List XmlStr} (hok : thiz.Ok)
    (h : thiz.HoldsAttrs strs) : thiz.attrs.map thiz.string = strs := by
  have hall : ∀ {offsets : List (Option Nat)} {strs : List XmlStr},
      List.Forall₂ thiz.Holds offsets strs → offsets.map thiz.string = strs := by
    intro offsets strs h
    induction h with
    | nil => rfl
    | cons ho _ ih => rw [List.map_cons, ih, ho.string hok]
  exact hall h

theorem pushAttr_holds {thiz thiz' : XmlParser} {strs : List XmlStr} {s : List Byte} (hok : thiz.Ok)
    (hs : NUL ∉ s) (hattrs : thiz.HoldsAttrs strs) (h : thiz.pushAttr s = .ok thiz') :
    ∃ x, (x = .wild ∨ x = .str (trim s)) ∧ thiz'.Ok ∧ thiz'.HoldsAttrs (strs ++ [x]) ∧
      ∀ o t, thiz.Holds o t → thiz'.Holds o t := by
  rw [XmlParser.pushAttr] at h
  cases hdup : xmlParserStrdup thiz s with
  | error e =>
      rw [hdup] at h
      cases h
  | ok r =>
      obtain ⟨offset, thiz₁⟩ := r
      rw [hdup] at h
      cases h
      obtain ⟨hok₁, hsame, -, hmono, hnew⟩ := strdup_holds hok hs hdup
      have hpush : ∀ x, thiz₁.Holds offset x →
          List.Forall₂ thiz₁.Holds (thiz₁.attrs ++ [offset]) (strs ++ [x]) := by
        intro x hx
        rw [hsame]
        exact List.rel_append (hattrs.imp fun o t ht => hmono o t ht) (.cons hx .nil)
      have hok₂ : ({ thiz₁ with attrs := thiz₁.attrs ++ [offset] } : XmlParser).Ok :=
        ⟨hok₁.used_le, hok₁.le_total, hok₁.ends⟩
      rcases hnew with hx | hx
      · exact ⟨.wild, .inl rfl, hok₂, hpush _ hx, hmono⟩
      · exact ⟨_, .inr rfl, hok₂, hpush _ hx, hmono⟩

/-! ## Attributes -/

/-- What the state of `xml_parser_parse_attrs` knows of the bytes it has passed. -/
def ScanOk (endChar : Byte) (scan : AttrScan) (strs : List XmlStr) : Prop :=
  match scan.state with
  | .preKey => turn true strs = true
  | .key => turn true strs = true ∧ NUL ∉ scan.start ∧ EQUALS ∉ scan.start ∧
      ∃ c k, scan.start = c :: k ∧ isspace c = false ∧ c ≠ endChar ∧ c ≠ GT
  | .preValue => turn true strs = false
  | .value => turn true strs = false ∧ NUL ∉ scan.start ∧ scan.valueEnd ∉ scan.start ∧
      (scan.valueEnd = DQUOTE ∨ scan.valueEnd = SQUOTE)

theorem keyOk_trim {endChar c : Byte} {k : List Byte} (hnul : NUL ∉ c :: k) (heq : EQUALS ∉ c :: k)
    (hc : isspace c = false) (hce : c ≠ endChar) (hcg : c ≠ GT) :
    KeyOk endChar (.str (trim (c :: k))) := by
  refine ⟨trimmed_trim hnul, fun h => heq ((trim_sublist _).subset h), fun d hd => ?_⟩
  rw [trim_cons, List.dropWhile_cons_of_neg (by simp [hc])] at hd
  cases hd
  exact ⟨hce, hcg⟩

/-- What a round of the loop over the attributes leaves, from the strings `strs`. -/
def Scanned (endChar : Byte) (thiz : XmlParser) (strs : List XmlStr) (scan' : AttrScan)
    (thiz' : XmlParser) : Prop :=
  ∃ strs', ScanOk endChar scan' strs' ∧ thiz'.Ok ∧ thiz'.HoldsAttrs strs' ∧
    TurnsOk endChar true strs' ∧ strs'.length ≤ strs.length + 1 ∧
    ∀ o t, thiz.Holds o t → thiz'.Holds o t

/-- A string that is pushed, and the state behind it. -/
theorem pushAttr_scanned {endChar : Byte} {start : List Byte} {next scan' : AttrScan}
    {thiz thiz' : XmlParser} {strs : List XmlStr} (hok : thiz.Ok) (hnul : NUL ∉ start)
    (hattrs : thiz.HoldsAttrs strs) (hturns : TurnsOk endChar true strs)
    (hkind : if turn true strs = true then KeyOk endChar (.str (trim start))
      else ValueOk (.str (trim start)))
    (hnext : next.state = .preValue ∧ turn true strs = true ∨ next.state = .preKey ∧
      turn true strs = false)
    (hrun : (thiz.pushAttr start >>= fun thiz => Except.ok (some (next, thiz))) =
      .ok (some (scan', thiz'))) : Scanned endChar thiz strs scan' thiz' := by
  cases hp : thiz.pushAttr start with
  | error e =>
      rw [hp] at hrun
      cases hrun
  | ok thiz₁ =>
      rw [hp] at hrun
      cases hrun
      obtain ⟨x, hx, hok₁, hattrs₁, hmono⟩ := pushAttr_holds hok hnul hattrs hp
      refine ⟨strs ++ [x], ?_, hok₁, hattrs₁, hturns.append ?_, ?_, hmono⟩
      · rcases hnext with ⟨hn, ht⟩ | ⟨hn, ht⟩
        · rw [ScanOk, hn]
          show turn true (strs ++ [x]) = false
          rw [turn_append, ht]
          rfl
        · rw [ScanOk, hn]
          show turn true (strs ++ [x]) = true
          rw [turn_append, ht]
          rfl
      · rcases hx with rfl | rfl
        · split <;> trivial
        · exact hkind
      · rw [List.length_append, List.length_singleton]

/-- A round of the loop over the attributes keeps what is known. -/
theorem attrsStep_reading {endChar c : Byte} {scan scan' : AttrScan} {thiz thiz' : XmlParser}
    {strs : List XmlStr} (hok : thiz.Ok) (hc : c ≠ NUL) (hscan : ScanOk endChar scan strs)
    (hattrs : thiz.HoldsAttrs strs) (hturns : TurnsOk endChar true strs)
    (h : attrsStep endChar scan thiz c = .ok (some (scan', thiz'))) :
    Scanned endChar thiz strs scan' thiz' := by
  have hstay : ScanOk endChar scan' strs → thiz' = thiz →
      Scanned endChar thiz strs scan' thiz' := by
    rintro hs rfl
    exact ⟨strs, hs, hok, hattrs, hturns, Nat.le_succ _, fun _ _ h => h⟩
  cases hstate : scan.state with
  | preKey =>
      rw [ScanOk, hstate] at hscan
      rw [attrsStep, hstate] at h
      simp only at h
      split at h
      · cases h
      next hnotEnd =>
      simp only [Bool.or_eq_true, decide_eq_true_eq, not_or] at hnotEnd
      by_cases hspace : isspace c = true
      · have hne : c ≠ EQUALS := by
          rintro rfl
          exact absurd hspace (by decide)
        simp only [hspace, Bool.not_true, Bool.false_eq_true, if_false] at h
        rw [if_neg hne] at h
        cases h
        refine hstay ?_ rfl
        rw [ScanOk, hstate]
        exact hscan
      · have hspace : isspace c = false := by simpa using hspace
        simp only [hspace, Bool.not_false, if_true] at h
        by_cases heq : c = EQUALS
        · rw [if_pos heq] at h
          refine pushAttr_scanned hok List.not_mem_nil hattrs hturns ?_ (.inl ⟨rfl, hscan⟩) h
          rw [if_pos hscan]
          exact ⟨⟨List.not_mem_nil, rfl⟩, List.not_mem_nil, fun _ h => by cases h⟩
        · rw [if_neg heq] at h
          cases h
          refine hstay ⟨hscan, ?_, ?_, c, [], rfl, hspace, hnotEnd.1, hnotEnd.2⟩ rfl
          · simpa using Ne.symm hc
          · simpa using Ne.symm heq
  | key =>
      rw [ScanOk, hstate] at hscan
      obtain ⟨hturn, hnul, heq, d, k, hstart, hd, hde, hdg⟩ := hscan
      rw [attrsStep, hstate] at h
      simp only at h
      by_cases hc' : c = EQUALS
      · rw [if_pos hc'] at h
        refine pushAttr_scanned hok hnul hattrs hturns ?_ (.inl ⟨rfl, hturn⟩) h
        rw [if_pos hturn, hstart]
        exact keyOk_trim (hstart ▸ hnul) (hstart ▸ heq) hd hde hdg
      · rw [if_neg hc'] at h
        cases h
        refine hstay ⟨hturn, ?_, ?_, d, k ++ [c], ?_, hd, hde, hdg⟩ rfl
        · simp [hnul, Ne.symm hc]
        · simp [heq, Ne.symm hc']
        · show scan.start ++ [c] = _
          rw [hstart]
          rfl
  | preValue =>
      rw [ScanOk, hstate] at hscan
      rw [attrsStep, hstate] at h
      simp only at h
      split at h
      · next hq =>
        cases h
        refine hstay ⟨hscan, List.not_mem_nil, List.not_mem_nil, ?_⟩ rfl
        simpa using hq
      · cases h
        refine hstay ?_ rfl
        rw [ScanOk, hstate]
        exact hscan
  | value =>
      rw [ScanOk, hstate] at hscan
      obtain ⟨hturn, hnul, hend, hq⟩ := hscan
      rw [attrsStep, hstate] at h
      simp only at h
      by_cases hc' : c = scan.valueEnd
      · rw [if_pos hc'] at h
        refine pushAttr_scanned hok hnul hattrs hturns ?_ (.inr ⟨rfl, hturn⟩) h
        rw [if_neg (by simp [hturn])]
        refine ⟨trimmed_trim hnul, ?_⟩
        have hout : scan.valueEnd ∉ trim scan.start := fun h => hend ((trim_sublist _).subset h)
        rcases hq with hq | hq
        · exact .inl (hq ▸ hout)
        · exact .inr (hq ▸ hout)
      · rw [if_neg hc'] at h
        cases h
        refine hstay ⟨hturn, ?_, ?_, hq⟩ rfl
        · simp [hnul, Ne.symm hc]
        · simp [hend, Ne.symm hc']

theorem parseAttrsLoop_reading {endChar : Byte} {scan : AttrScan} {thiz thiz' : XmlParser}
    {strs : List XmlStr} {readPtr readPtr' : List Byte} (hok : thiz.Ok) (hnul : NUL ∉ readPtr)
    (hscan : ScanOk endChar scan strs) (hattrs : thiz.HoldsAttrs strs)
    (hturns : TurnsOk endChar true strs) (hlen : strs.length ≤ MAX_ATTR_NR)
    (h : parseAttrsLoop endChar scan thiz readPtr = .ok (thiz', readPtr')) :
    ∃ strs', thiz'.Ok ∧ thiz'.HoldsAttrs strs' ∧ TurnsOk endChar true strs' ∧
      strs'.length ≤ MAX_ATTR_NR ∧ ∀ o t, thiz.Holds o t → thiz'.Holds o t := by
  induction readPtr generalizing scan thiz strs with
  | nil =>
      cases h
      exact ⟨strs, hok, hattrs, hturns, hlen, fun _ _ h => h⟩
  | cons c rest ih =>
      obtain ⟨hc, hrest⟩ := not_or.mp fun h => hnul (List.mem_cons.mpr h)
      rw [parseAttrsLoop] at h
      split at h
      · next hnr =>
        rw [hattrs.length_eq] at hnr
        split at h
        · cases h
        · cases h
          exact ⟨strs, hok, hattrs, hturns, hlen, fun _ _ h => h⟩
        · next hstep =>
          obtain ⟨strs₁, hscan₁, hok₁, hattrs₁, hturns₁, hlen₁, hmono₁⟩ :=
            attrsStep_reading hok (Ne.symm hc) hscan hattrs hturns hstep
          obtain ⟨strs₂, hok₂, hattrs₂, hturns₂, hlen₂, hmono₂⟩ :=
            ih hok₁ hrest hscan₁ hattrs₁ hturns₁ (by omega) h
          exact ⟨strs₂, hok₂, hattrs₂, hturns₂, hlen₂, fun o t ht => hmono₂ o t (hmono₁ o t ht)⟩
      · cases h
        exact ⟨strs, hok, hattrs, hturns, hlen, fun _ _ h => h⟩

/-! ## Tags -/

/-- A name and its attributes, in a text in which the name ends. -/
theorem parseNameLoop_reading {nameEnd : Byte → Bool} {endChar : Byte} {thiz thiz' : XmlParser}
    {start readPtr readPtr' : List Byte} {offset : Option Nat} (hok : thiz.Ok)
    (hused : thiz.bufferUsed = 0) (hthiz : thiz.attrs = []) (hnulStart : NUL ∉ start)
    (hnul : NUL ∉ readPtr) (hstop : ∃ d ∈ readPtr, (isspace d || nameEnd d) = true)
    (h : parseNameLoop nameEnd endChar thiz start readPtr = .ok (offset, thiz', readPtr')) :
    ∃ k strs, (∀ d ∈ k, nameByte nameEnd d = true) ∧ start ++ k ≠ [] ∧
      (thiz'.Holds offset .wild ∨ thiz'.Holds offset (.str (trim (start ++ k)))) ∧ thiz'.Ok ∧
      thiz'.HoldsAttrs strs ∧ TurnsOk endChar true strs ∧ strs.length ≤ MAX_ATTR_NR := by
  induction readPtr generalizing start with
  | nil =>
      obtain ⟨d, hd, -⟩ := hstop
      cases hd
  | cons c rest ih =>
      obtain ⟨hc, hrest⟩ := not_or.mp fun h => hnul (List.mem_cons.mpr h)
      rw [parseNameLoop] at h
      by_cases hstopc : (isspace c || nameEnd c) = true
      · rw [if_pos hstopc] at h
        cases hdup : xmlParserStrdup thiz start with
        | error e =>
            rw [hdup] at h
            cases h
        | ok r =>
            obtain ⟨off, thiz₁⟩ := r
            rw [hdup] at h
            obtain ⟨hok₁, hsame, hne, -, hnew⟩ := strdup_holds hok hnulStart hdup
            have hne : start ++ [] ≠ [] := by
              rw [List.append_nil]
              exact hne.resolve_right (by omega)
            rw [← List.append_nil start] at hnew
            have hnil : thiz₁.HoldsAttrs [] := by
              rw [XmlParser.HoldsAttrs, hsame, hthiz]
              exact .nil
            replace h : (if nameEnd c = true then _ else _) = Except.ok (offset, thiz', readPtr') := h
            by_cases hend : nameEnd c = true
            · rw [if_pos hend] at h
              cases h
              exact ⟨[], [], fun _ h => absurd h List.not_mem_nil, hne, hnew, hok₁, hnil, trivial,
                Nat.zero_le _⟩
            · rw [if_neg hend] at h
              cases rest with
              | nil =>
                  cases h
                  exact ⟨[], [], fun _ h => absurd h List.not_mem_nil, hne, hnew, hok₁, hnil, trivial,
                Nat.zero_le _⟩
              | cons d rest =>
                  cases hattrs : xmlParserParseAttrs thiz₁ endChar (d :: rest) with
                  | error e =>
                      simp only [hattrs] at h
                      cases h
                  | ok q =>
                      obtain ⟨thiz₂, readPtr₂⟩ := q
                      simp only [hattrs] at h
                      cases h
                      have hscan : ScanOk endChar {} [] := rfl
                      have hempty : ({ thiz₁ with attrs := [] } : XmlParser).HoldsAttrs [] := .nil
                      have hok₁' : ({ thiz₁ with attrs := [] } : XmlParser).Ok :=
                        ⟨hok₁.used_le, hok₁.le_total, hok₁.ends⟩
                      obtain ⟨strs, hok₂, hholds, hturns, hlen, hmono⟩ :=
                        parseAttrsLoop_reading hok₁' hrest hscan hempty trivial (Nat.zero_le _) hattrs
                      exact ⟨[], strs, fun _ h => absurd h List.not_mem_nil, hne,
                        hnew.imp (hmono _ _) (hmono _ _), hok₂, hholds, hturns, hlen⟩
      · rw [if_neg hstopc] at h
        have hstop' : ∃ d ∈ rest, (isspace d || nameEnd d) = true := by
          obtain ⟨d, hd, hdstop⟩ := hstop
          rcases List.mem_cons.mp hd with rfl | hd
          · exact absurd hdstop hstopc
          · exact ⟨d, hd, hdstop⟩
        obtain ⟨k, strs, hk, hne, hnew, hrestk⟩ := ih (by simp [hnulStart, hc]) hrest hstop' h
        refine ⟨c :: k, strs, ?_, ?_, ?_, hrestk⟩
        · intro d hd
          rcases List.mem_cons.mp hd with rfl | hd
          · simp only [Bool.or_eq_true, not_or, Bool.not_eq_true] at hstopc
            simp [nameByte, hstopc.1, hstopc.2, Ne.symm hc]
          · exact hk d hd
        · simp
        · rw [List.append_assoc] at hnew
          exact hnew

/-! ## The form of what is read -/

/-- An attribute as it is read in a tag whose attributes end at `endChar`. -/
structure ReadAttr (endChar : Byte) (a : XmlAttr) : Prop where
  name : Trimmed a.name
  value : Trimmed a.value
  noEquals : EQUALS ∉ a.name
  head : ∀ c, a.name.head? = some c → c ≠ endChar ∧ c ≠ GT
  quote : DQUOTE ∉ a.value ∨ SQUOTE ∉ a.value

structure ReadAttrs (endChar : Byte) (attrs : List XmlAttr) : Prop where
  length : 2 * attrs.length ≤ MAX_ATTR_NR
  each : ∀ a ∈ attrs, ReadAttr endChar a

/-- The form of what is read, whatever the lengths are. -/
def XmlData.Readable : XmlData → Prop
  | .normal name attrs =>
      ReadAttrs SLASH attrs ∧ ∃ c k, name = c :: k ∧ (isalpha c || c = UNDERSCORE) = true ∧
        ∀ d ∈ k, nameByte (fun c => c = GT || c = SLASH) d = true
  | .pi name attrs =>
      ReadAttrs QMARK attrs ∧ name ≠ [] ∧ ∀ d ∈ name, nameByte (fun c => c = GT) d = true
  | .text t => NUL ∉ t ∧ LT ∉ t ∧ ∃ c k, t = c :: k ∧ isspace c = false
  | .comment t => NUL ∉ t ∧ commentOk .comment t = true

/-- Names and values are short enough for an empty buffer. -/
def XmlData.Short : XmlData → Prop
  | .pi name attrs => name.length ≤ 127 ∧ ∀ a ∈ attrs, a.name.length ≤ 127 ∧ a.value.length ≤ 127
  | .normal name attrs =>
      name.length ≤ 127 ∧ ∀ a ∈ attrs, a.name.length ≤ 127 ∧ a.value.length ≤ 127
  | _ => True

theorem ReadAttrs.printable {endChar : Byte} {attrs : List XmlAttr} (h : ReadAttrs endChar attrs)
    (hshort : ∀ a ∈ attrs, a.name.length ≤ 127 ∧ a.value.length ≤ 127) :
    PrintableAttrs endChar attrs where
  length := h.length
  each a ha := by
    obtain ⟨hn, hv⟩ := hshort a ha
    have hr := h.each a ha
    exact ⟨⟨hn, hr.name.1, hr.name.2⟩, ⟨hv, hr.value.1, hr.value.2⟩, hr.noEquals, hr.head, hr.quote⟩

/-- What is read and short can be written. -/
theorem XmlData.Readable.printable {d : XmlData} (h : d.Readable) (hshort : d.Short) :
    d.Printable := by
  cases d with
  | normal name attrs => exact ⟨hshort.1, h.1.printable hshort.2, h.2⟩
  | pi name attrs => exact ⟨hshort.1, h.1.printable hshort.2, h.2⟩
  | text t => exact h
  | comment t => exact h

/-! ## Calls -/

/-- The strings of the pairs of attributes; `none` if one of them is not there. -/
def strPairs : List XmlStr → Option (List (List Byte))
  | .str name :: .str value :: rest => (strPairs rest).map fun l => name :: value :: l
  | [] => some []
  | [_] => some []
  | _ => none

/-- The call with strings that a call is. -/
def XmlEvent.call? : XmlEvent → Option XmlCall
  | .startElement (.str tag) attrs => (strPairs attrs).map (.start tag)
  | .startElement _ _ => none
  | .endElement tag => some (.close tag)
  | .text t => some (.text t)
  | .comment t => some (.comment t)
  | .piElement (.str tag) attrs => (strPairs attrs).map (.pi tag)
  | .piElement _ _ => none
  | .error _ _ message => some (.error message)

/-- What a call adds to the tree. -/
def XmlCall.data? : XmlCall → Option XmlData
  | .start tag attrs => some (.normal tag (attrPairs attrs))
  | .pi tag attrs => some (.pi tag (attrPairs attrs))
  | .text t => some (.text (strndup t))
  | .comment t => some (.comment (strndup t))
  | _ => none

/-- Nothing that is handed over is `NULL`. -/
def XmlEvent.noNull : XmlEvent → Prop
  | .startElement tag attrs => tag ≠ .null ∧ ∀ s ∈ attrs, s ≠ .null
  | .piElement tag attrs => tag ≠ .null ∧ ∀ s ∈ attrs, s ≠ .null
  | _ => True

/-- The form of a call. -/
def EventOk (e : XmlEvent) : Prop :=
  e.noNull ∧ ∀ call d, e.call? = some call → call.data? = some d → d.Readable

theorem TurnsOk.ne_null {endChar : Byte} {key : Bool} {l : List XmlStr} (h : TurnsOk endChar key l) :
    ∀ s ∈ l, s ≠ .null := by
  induction l generalizing key with
  | nil => nofun
  | cons x l ih =>
      intro s hs
      cases key with
      | true =>
          rcases List.mem_cons.mp hs with rfl | hs
          · rintro rfl
            exact h.1
          · exact ih h.2 s hs
      | false =>
          rcases List.mem_cons.mp hs with rfl | hs
          · rintro rfl
            exact h.1
          · exact ih h.2 s hs

theorem TurnsOk.pairs {endChar : Byte} : ∀ {l : List XmlStr} {strs : List (List Byte)},
    TurnsOk endChar true l → strPairs l = some strs →
    2 * (attrPairs strs).length ≤ l.length ∧ ∀ a ∈ attrPairs strs,
      KeyOk endChar (.str a.name) ∧ ValueOk (.str a.value)
  | [], _, _, h => by
      cases h
      exact ⟨Nat.le_refl _, nofun⟩
  | [x], _, _, h => by
      have hone : strPairs [x] = some [] := by cases x <;> rfl
      rw [hone] at h
      cases h
      exact ⟨Nat.zero_le _, nofun⟩
  | .str name :: .str value :: rest, strs, hturns, h => by
      obtain ⟨l, hl, rfl⟩ := Option.map_eq_some_iff.mp h
      obtain ⟨hkey, hvalue, hrest⟩ := hturns
      obtain ⟨hlen, hall⟩ := TurnsOk.pairs hrest hl
      refine ⟨?_, fun a ha => ?_⟩
      · show 2 * ((attrPairs l).length + 1) ≤ rest.length + 1 + 1
        omega
      · rcases List.mem_cons.mp ha with rfl | ha
        · exact ⟨hkey, hvalue⟩
        · exact hall a ha
  | .null :: _ :: _, _, hturns, _ => hturns.1.elim
  | .wild :: _ :: _, _, _, h => by cases h
  | .str _ :: .null :: _, _, hturns, _ => hturns.2.1.elim
  | .str _ :: .wild :: _, _, _, h => by cases h

/-- The attributes of a tag have this form. -/
theorem readAttrs_of_turns {endChar : Byte} {l : List XmlStr} {strs : List (List Byte)}
    (hturns : TurnsOk endChar true l) (hlen : l.length ≤ MAX_ATTR_NR)
    (h : strPairs l = some strs) : ReadAttrs endChar (attrPairs strs) := by
  obtain ⟨hpairs, hall⟩ := hturns.pairs h
  refine ⟨Nat.le_trans hpairs hlen, fun a ha => ?_⟩
  obtain ⟨⟨hname, heq, hhead⟩, hvalue, hquote⟩ := hall a ha
  exact ⟨hname, hvalue, heq, hhead, hquote⟩

theorem startTag_reading {thiz thiz' : XmlParser} {prev : Byte} {readPtr readPtr' : List Byte}
    {calls : List XmlEvent} (hok : thiz.Ok) (hused : thiz.bufferUsed = 0) (hthiz : thiz.attrs = [])
    (hprev : (isalpha prev || prev = UNDERSCORE) = true) (hnul : NUL ∉ readPtr)
    (hstop : ∃ d ∈ readPtr, isspace d = true ∨ d = GT)
    (h : xmlParserParseStartTag thiz prev readPtr = .ok (calls, thiz', readPtr')) :
    thiz'.Ok ∧ ∃ tag attrs ended, calls = .startElement tag attrs :: ended ∧
      EventOk (.startElement tag attrs) ∧ (ended = [] ∨ ∃ t, ended = [.endElement t]) := by
  rw [xmlParserParseStartTag] at h
  cases hname : parseNameLoop (fun c => c = GT || c = SLASH) SLASH thiz [prev] readPtr with
  | error e =>
      rw [hname] at h
      cases h
  | ok n =>
      obtain ⟨offset, thiz₁, readPtr₁⟩ := n
      rw [hname] at h
      cases h
      have hnulPrev : NUL ∉ [prev] := by
        simpa using (isalpha_spec hprev).2.1.symm
      have hstop' : ∃ d ∈ readPtr, (isspace d || (fun c => c = GT || c = SLASH) d) = true := by
        obtain ⟨d, hd, hds | hdg⟩ := hstop
        · exact ⟨d, hd, by simp [hds]⟩
        · exact ⟨d, hd, by simp [hdg]⟩
      obtain ⟨k, strs, hk, -, hnew, hok₁, hholds, hturns, hlen⟩ :=
        parseNameLoop_reading hok hused hthiz hnulPrev hnul hstop' hname
      refine ⟨hok₁, _, _, _, rfl, ⟨⟨?_, ?_⟩, ?_⟩, ?_⟩
      · rcases hnew with hnew | hnew <;> rw [hnew.string hok₁] <;> intro h <;> cases h
      · rw [hholds.strings hok₁]
        exact hturns.ne_null
      · rw [hholds.strings hok₁]
        intro call d hcall hdata
        rcases hnew with hnew | hnew
        · rw [hnew.string hok₁] at hcall
          cases hcall
        · rw [hnew.string hok₁] at hcall
          obtain ⟨l, hl, rfl⟩ := Option.map_eq_some_iff.mp hcall
          cases hdata
          have hall : ∀ c ∈ prev :: k, isspace c = false := by
            intro c hc
            rcases List.mem_cons.mp hc with rfl | hc
            · exact (isalpha_spec hprev).1
            · exact (nameByte_spec (hk c hc)).1
          rw [List.singleton_append, trim_of_noSpace hall]
          exact ⟨readAttrs_of_turns hturns hlen hl, prev, k, rfl, hprev, hk⟩
      · split
        · exact .inr ⟨_, rfl⟩
        · exact .inl rfl

theorem pi_reading {thiz thiz' : XmlParser} {readPtr readPtr' : List Byte} {calls : List XmlEvent}
    (hok : thiz.Ok) (hused : thiz.bufferUsed = 0) (hthiz : thiz.attrs = []) (hnul : NUL ∉ readPtr)
    (hstop : ∃ d ∈ readPtr, isspace d = true ∨ d = GT)
    (h : xmlParserParsePi thiz readPtr = .ok (calls, thiz', readPtr')) :
    thiz'.Ok ∧ ∃ tag attrs, calls = [.piElement tag attrs] ∧ EventOk (.piElement tag attrs) := by
  rw [xmlParserParsePi] at h
  cases hname : parseNameLoop (fun c => c = GT) QMARK thiz [] readPtr with
  | error e =>
      rw [hname] at h
      cases h
  | ok n =>
      obtain ⟨offset, thiz₁, readPtr₁⟩ := n
      rw [hname] at h
      cases h
      have hstop' : ∃ d ∈ readPtr, (isspace d || (fun c => decide (c = GT)) d) = true := by
        obtain ⟨d, hd, hds | hdg⟩ := hstop
        · exact ⟨d, hd, by simp [hds]⟩
        · exact ⟨d, hd, by simp [hdg]⟩
      obtain ⟨k, strs, hk, hne, hnew, hok₁, hholds, hturns, hlen⟩ :=
        parseNameLoop_reading hok hused hthiz List.not_mem_nil hnul hstop' hname
      rw [List.nil_append] at hne hnew
      refine ⟨hok₁, _, _, rfl, ⟨?_, ?_⟩, ?_⟩
      · rcases hnew with hnew | hnew <;> rw [hnew.string hok₁] <;> intro h <;> cases h
      · rw [hholds.strings hok₁]
        exact hturns.ne_null
      · rw [hholds.strings hok₁]
        intro call d hcall hdata
        rcases hnew with hnew | hnew
        · rw [hnew.string hok₁] at hcall
          cases hcall
        · rw [hnew.string hok₁] at hcall
          obtain ⟨l, hl, rfl⟩ := Option.map_eq_some_iff.mp hcall
          cases hdata
          rw [trim_of_noSpace fun c hc => (nameByte_spec (hk c hc)).1]
          exact ⟨readAttrs_of_turns hturns hlen hl, hne, hk⟩

theorem endTag_reading {thiz thiz' : XmlParser} {start readPtr readPtr' : List Byte}
    {calls : List XmlEvent} (hok : thiz.Ok) (hstart : NUL ∉ start) (hnul : NUL ∉ readPtr)
    (h : xmlParserParseEndTag thiz start readPtr = .ok (calls, thiz', readPtr')) :
    thiz'.Ok ∧ ((calls = [] ∧ readPtr' = []) ∨ ∃ t, calls = [.endElement t]) := by
  induction readPtr generalizing start with
  | nil =>
      cases h
      exact ⟨hok, .inl ⟨rfl, rfl⟩⟩
  | cons c rest ih =>
      obtain ⟨hc, hrest⟩ := not_or.mp fun h => hnul (List.mem_cons.mpr h)
      rw [xmlParserParseEndTag] at h
      split at h
      · cases hdup : xmlParserStrdup thiz start with
        | error e =>
            rw [hdup] at h
            cases h
        | ok r =>
            rw [hdup] at h
            cases h
            exact ⟨(strdup_holds hok hstart hdup).1, .inr ⟨_, rfl⟩⟩
      · exact ih (by simp [hstart, hc]) hrest h

/-! ## Texts and comments -/

theorem text_reading {start readPtr : List Byte} (prev : Byte) (hstart : LT ∉ start)
    (hnulStart : NUL ∉ start) (hnul : NUL ∉ readPtr) :
    parseTextLoop start prev readPtr = ([], []) ∨
      ∃ k prev' r, parseTextLoop start prev readPtr = ([.text (start ++ k)], prev' :: LT :: r) ∧
        LT ∉ start ++ k ∧ NUL ∉ start ++ k ∧ LT :: r <:+ readPtr := by
  induction readPtr generalizing start prev with
  | nil => exact .inl rfl
  | cons c rest ih =>
      obtain ⟨hc, hrest⟩ := not_or.mp fun h => hnul (List.mem_cons.mpr h)
      rw [parseTextLoop]
      by_cases hlt : c = LT
      · rw [if_pos hlt]
        refine .inr ⟨[], prev, rest, ?_, ?_, ?_, ?_⟩
        · rw [List.append_nil, hlt]
        · rwa [List.append_nil]
        · rwa [List.append_nil]
        · exact hlt ▸ List.suffix_rfl
      · rw [if_neg hlt]
        refine (ih c (by simp [hstart, Ne.symm hlt]) (by simp [hnulStart, hc]) hrest).imp id ?_
        rintro ⟨k, prev', r, hloop, hk, hnk, hr⟩
        rw [List.append_assoc] at hloop hk hnk
        exact ⟨c :: k, prev', r, hloop, hk, hnk, hr.trans (List.suffix_cons c rest)⟩

/-- The state behind some bytes of a comment. -/
def commentAfter : CommentStat → List Byte → CommentStat
  | state, [] => state
  | .comment, c :: rest => commentAfter (if c = MINUS then .minus1 else .comment) rest
  | .minus1, c :: rest => commentAfter (if c = MINUS then .minus2 else .comment) rest
  | .minus2, _ :: rest => commentAfter .minus2 rest

theorem commentOk_append (state : CommentStat) (a b : List Byte) :
    commentOk state (a ++ b) = (commentOk state a && commentOk (commentAfter state a) b) := by
  induction a generalizing state with
  | nil => cases state <;> simp [commentOk, commentAfter]
  | cons c a ih =>
      cases state with
      | comment => exact ih _
      | minus1 => exact ih _
      | minus2 =>
          rw [List.cons_append, commentOk, commentOk, commentAfter, ih, Bool.and_assoc]

theorem commentAfter_append (state : CommentStat) (a b : List Byte) :
    commentAfter state (a ++ b) = commentAfter (commentAfter state a) b := by
  induction a generalizing state with
  | nil => cases state <;> rfl
  | cons c a ih => cases state <;> exact ih _

theorem comment_reading {state : CommentStat} {start readPtr : List Byte}
    (hstart : commentOk .comment start = true) (hstate : commentAfter .comment start = state)
    (hnulStart : NUL ∉ start) (hnul : NUL ∉ readPtr) :
    parseCommentLoop state start readPtr = ([], []) ∨
      ∃ t r, parseCommentLoop state start readPtr = ([.comment t], r) ∧
        (XmlData.comment t).Readable ∧ r <:+ readPtr := by
  induction readPtr generalizing state start with
  | nil =>
      left
      cases state <;> rfl
  | cons c rest ih =>
      obtain ⟨hc, hrest⟩ := not_or.mp fun h => hnul (List.mem_cons.mpr h)
      have hstep : ∀ next : CommentStat, commentOk state [c] = true → commentAfter state [c] = next →
          parseCommentLoop state start (c :: rest) = parseCommentLoop next (start ++ [c]) rest →
          parseCommentLoop state start (c :: rest) = ([], []) ∨
            ∃ t r, parseCommentLoop state start (c :: rest) = ([.comment t], r) ∧
              (XmlData.comment t).Readable ∧ r <:+ c :: rest := by
        intro next hok hafter hloop
        rw [hloop]
        refine (ih ?_ ?_ (by simp [hnulStart, hc]) hrest).imp id ?_
        · rw [commentOk_append, hstart, hstate, hok]
          rfl
        · rw [commentAfter_append, hstate, hafter]
        · rintro ⟨t, r, ht, hp, hr⟩
          exact ⟨t, r, ht, hp, hr.trans (List.suffix_cons c rest)⟩
      cases state with
      | comment => exact hstep _ rfl rfl rfl
      | minus1 => exact hstep _ rfl rfl rfl
      | minus2 =>
          by_cases hgt : c = GT
          · refine .inr ⟨start.take (start.length - 2), c :: rest, ?_, ⟨?_, ?_⟩, List.suffix_rfl⟩
            · rw [parseCommentLoop, if_pos hgt]
            · exact fun h => hnulStart (List.mem_of_mem_take h)
            · rw [← List.take_append_drop (start.length - 2) start, commentOk_append,
                Bool.and_eq_true] at hstart
              exact hstart.1
          · refine hstep .minus2 ?_ rfl ?_
            · simp [commentOk, hgt]
            · rw [parseCommentLoop, if_neg hgt]

/-! ## Rounds -/

def XmlEvent.isText : XmlEvent → Bool
  | .text _ => true
  | _ => false

/-- Whether a text is the last thing that was built, behind a call. -/
def XmlEvent.behind (lastText : Bool) : XmlEvent → Bool
  | .text _ => true
  | .error _ _ _ => lastText
  | _ => false

/-- Calls of this form, with no text behind a text; `lastText` says what is in front of them and
    behind them. -/
def CallsOk : Bool → List XmlEvent → Bool → Prop
  | lastText, [], lastText' => lastText' = lastText
  | lastText, e :: es, lastText' =>
      EventOk e ∧ (e.isText = true → lastText = false) ∧ CallsOk (e.behind lastText) es lastText'

/-- Between a `<` and its tag the buffer is empty. -/
def XmlStat.inTag : XmlStat → Bool
  | .none => false
  | .text _ => false
  | _ => true

/-- What the state knows of the bytes around `read_ptr`. -/
structure Reading (state : XmlStat) (thiz : XmlParser) (readPtr : List Byte) (lastText : Bool) :
    Prop where
  ok : thiz.Ok
  noNul : NUL ∉ readPtr
  last : ∀ c, readPtr.getLast? = some c → isspace c = true ∨ c = GT
  tag : state.inTag = true → thiz.bufferUsed = 0 ∧ thiz.attrs = []
  start : ∀ c, state = .startTag c → (isalpha c || c = UNDERSCORE) = true
  text : ∀ c, state = .text c → isspace c = false ∧ c ≠ LT ∧ c ≠ NUL ∧ lastText = false
  behind : state = .none → lastText = true → ∀ c, readPtr.head? = some c → c = LT

section

variable {thiz thiz' : XmlParser} {xml readPtr : List Byte} {lastText : Bool} {state : XmlStat}

theorem last_suffix (hlast : ∀ c, xml.getLast? = some c → isspace c = true ∨ c = GT)
    (hs : readPtr <:+ xml) : ∀ c, readPtr.getLast? = some c → isspace c = true ∨ c = GT := by
  intro c hc
  obtain ⟨p, rfl⟩ := hs
  refine hlast c ?_
  rw [List.getLast?_append, hc]
  rfl

/-- The start of a text. -/
theorem Reading.begin (hnul : NUL ∉ xml)
    (hlast : ∀ c, xml.getLast? = some c → isspace c = true ∨ c = GT) :
    Reading .none {} xml false where
  ok := XmlParser.ok_new
  noNul := hnul
  last := hlast
  tag := nofun
  start := nofun
  text := nofun
  behind := nofun

/-- The rest of a text, in the state `STAT_NONE` behind something that is no text. -/
theorem Reading.rest (h : Reading state thiz xml lastText) (hok : thiz'.Ok) (hs : readPtr <:+ xml) :
    Reading .none thiz' readPtr false where
  ok := hok
  noNul hm := h.noNul (hs.subset hm)
  last := last_suffix h.last hs
  tag := nofun
  start := nofun
  text := nofun
  behind := nofun

/-- The end of the text. -/
theorem Reading.atEnd (hok : thiz'.Ok) (lastText : Bool) : Reading .none thiz' [] lastText where
  ok := hok
  noNul := List.not_mem_nil
  last := nofun
  tag := nofun
  start := nofun
  text := nofun
  behind := nofun

/-- On in a tag. -/
theorem Reading.onward {state' : XmlStat} (h : Reading state thiz xml lastText)
    (hin : state.inTag = true) (hin' : state'.inTag = true) (hs : readPtr <:+ xml)
    (hstart : ∀ c, state' = .startTag c → (isalpha c || c = UNDERSCORE) = true) :
    Reading state' thiz readPtr lastText where
  ok := h.ok
  noNul hm := h.noNul (hs.subset hm)
  last := last_suffix h.last hs
  tag _ := h.tag hin
  start := hstart
  text c hc := by
    rw [hc] at hin'
    cases hin'
  behind hc := by
    rw [hc] at hin'
    cases hin'

theorem Reading.stops {c : Byte} {rest : List Byte} (h : Reading state thiz (c :: rest) lastText) :
    ∃ d ∈ c :: rest, isspace d = true ∨ d = GT :=
  ⟨_, List.getLast_mem (List.cons_ne_nil c rest), h.last _ (List.getLast?_eq_some_getLast _)⟩

theorem CallsOk.append {es fs : List XmlEvent} {a b d : Bool} (h : CallsOk a es b)
    (hfs : CallsOk b fs d) : CallsOk a (es ++ fs) d := by
  induction es generalizing a with
  | nil =>
      rw [show b = a from h] at hfs
      exact hfs
  | cons e es ih => exact ⟨h.1, h.2.1, ih h.2.2⟩

/-- Behind a comment, with the complaints in front of it. -/
theorem Reading.comment {c : Byte} {rest : List Byte} (h : Reading state thiz (c :: rest) lastText)
    {complaint : List XmlEvent} (hcomplaint : CallsOk lastText complaint lastText) :
    ∃ lastText', CallsOk lastText (complaint ++ (xmlParserParseComment (c :: rest)).1) lastText' ∧
      Reading .none thiz (xmlParserParseComment (c :: rest)).2.tail lastText' := by
  have hnul := (not_or.mp fun hm => h.noNul (List.mem_cons.mpr hm)).2
  rcases @comment_reading .comment [] rest rfl rfl List.not_mem_nil hnul with
    hnone | ⟨t, r, ht, hp, hr⟩
  · rw [show xmlParserParseComment (c :: rest) = _ from hnone]
    exact ⟨lastText, hcomplaint.append rfl, .atEnd h.ok _⟩
  · rw [show xmlParserParseComment (c :: rest) = _ from ht]
    refine ⟨false, hcomplaint.append ⟨⟨trivial, ?_⟩, nofun, rfl⟩, ?_⟩
    · intro call d hcall hdata
      cases hcall
      cases hdata
      rw [strndup_eq hp.1]
      exact hp
    · exact h.rest h.ok (((List.tail_suffix r).trans hr).trans (List.suffix_cons c rest))

theorem callsOk_error (lastText : Bool) (message : String) :
    CallsOk lastText [.error 0 0 message] lastText := by
  refine ⟨⟨trivial, ?_⟩, nofun, rfl⟩
  intro call d hcall hdata
  cases hcall
  cases hdata

theorem eventOk_endElement (t : XmlStr) : EventOk (.endElement t) := by
  refine ⟨trivial, ?_⟩
  intro call d hcall hdata
  cases hcall
  cases hdata

/-- Between the tags a tag or a text begins. -/
theorem none_reading {c : Byte} {rest : List Byte} {calls : List XmlEvent} {state' : XmlStat}
    (h : Reading .none thiz (c :: rest) lastText)
    (hstep : xmlParserStep thiz .none c rest = .ok (calls, state', thiz', readPtr)) :
    ∃ lastText', CallsOk lastText calls lastText' ∧ Reading state' thiz' readPtr.tail lastText' := by
  obtain ⟨hc, hrest⟩ := not_or.mp fun hm => h.noNul (List.mem_cons.mpr hm)
  have hsuffix : rest <:+ c :: rest := List.suffix_cons c rest
  unfold xmlParserStep at hstep
  simp only at hstep
  by_cases hlt : c = LT
  · rw [if_pos hlt] at hstep
    cases hstep
    exact ⟨lastText, rfl, ⟨h.ok.reset, hrest, last_suffix h.last hsuffix, fun _ => ⟨rfl, rfl⟩,
      nofun, nofun, nofun⟩⟩
  · rw [if_neg hlt] at hstep
    have hfalse : lastText = false := by
      by_contra htrue
      exact hlt (h.behind rfl (by simpa using htrue) c rfl)
    subst hfalse
    by_cases hspace : isspace c = true
    · rw [if_neg (by simp [hspace])] at hstep
      cases hstep
      exact ⟨false, rfl, h.rest h.ok hsuffix⟩
    · rw [if_pos (by simpa using hspace)] at hstep
      cases hstep
      refine ⟨false, rfl, ⟨h.ok, hrest, last_suffix h.last hsuffix, nofun, nofun, ?_, nofun⟩⟩
      intro d hd
      cases hd
      exact ⟨by simpa using hspace, hlt, Ne.symm hc, rfl⟩

theorem afterLt_reading {c : Byte} {rest : List Byte} {calls : List XmlEvent} {state' : XmlStat}
    (h : Reading .afterLt thiz (c :: rest) lastText)
    (hstep : xmlParserStep thiz .afterLt c rest = .ok (calls, state', thiz', readPtr)) :
    ∃ lastText', CallsOk lastText calls lastText' ∧ Reading state' thiz' readPtr.tail lastText' := by
  have hsuffix : rest <:+ c :: rest := List.suffix_cons c rest
  unfold xmlParserStep at hstep
  simp only at hstep
  split at hstep
  · cases hstep
    exact ⟨lastText, rfl, h.onward rfl rfl hsuffix nofun⟩
  · split at hstep
    · cases hstep
      exact ⟨lastText, rfl, h.onward rfl rfl hsuffix nofun⟩
    · split at hstep
      · cases hstep
        exact ⟨lastText, rfl, h.onward rfl rfl hsuffix nofun⟩
      · split at hstep
        · next halpha =>
          cases hstep
          refine ⟨lastText, rfl, h.onward rfl rfl hsuffix fun d hd => ?_⟩
          cases hd
          exact halpha
        · cases hstep
          exact ⟨lastText, callsOk_error _ _, h.onward rfl rfl hsuffix nofun⟩

theorem startTagStep_reading {c : Byte} {rest : List Byte} {calls : List XmlEvent} {state' : XmlStat}
    {prev : Byte} (h : Reading (.startTag prev) thiz (c :: rest) lastText)
    (hstep : xmlParserStep thiz (.startTag prev) c rest = .ok (calls, state', thiz', readPtr)) :
    ∃ lastText', CallsOk lastText calls lastText' ∧ Reading state' thiz' readPtr.tail lastText' := by
  unfold xmlParserStep at hstep
  simp only at hstep
  cases hr : xmlParserParseStartTag thiz prev (c :: rest) with
  | error e =>
      rw [hr] at hstep
      cases hstep
  | ok r =>
      obtain ⟨calls₁, thiz₁, readPtr₁⟩ := r
      rw [hr] at hstep
      cases hstep
      obtain ⟨hused, hthiz⟩ := h.tag rfl
      obtain ⟨hok₁, tag, attrs, ended, rfl, he, hended⟩ :=
        startTag_reading h.ok hused hthiz (h.start prev rfl) h.noNul h.stops hr
      have hs := (List.tail_suffix _).trans (parseStartTag_suffix hr)
      refine ⟨false, ⟨he, nofun, ?_⟩, h.rest hok₁ hs⟩
      rcases hended with rfl | ⟨t, rfl⟩
      · exact rfl
      · exact ⟨eventOk_endElement t, nofun, rfl⟩

theorem endTagStep_reading {c : Byte} {rest : List Byte} {calls : List XmlEvent} {state' : XmlStat}
    (h : Reading .endTag thiz (c :: rest) lastText)
    (hstep : xmlParserStep thiz .endTag c rest = .ok (calls, state', thiz', readPtr)) :
    ∃ lastText', CallsOk lastText calls lastText' ∧ Reading state' thiz' readPtr.tail lastText' := by
  unfold xmlParserStep at hstep
  simp only at hstep
  cases hr : xmlParserParseEndTag thiz [] (c :: rest) with
  | error e =>
      rw [hr] at hstep
      cases hstep
  | ok r =>
      obtain ⟨calls₁, thiz₁, readPtr₁⟩ := r
      rw [hr] at hstep
      cases hstep
      obtain ⟨hok₁, ⟨rfl, rfl⟩ | ⟨t, rfl⟩⟩ :=
        endTag_reading h.ok List.not_mem_nil h.noNul hr
      · exact ⟨lastText, rfl, .atEnd hok₁ _⟩
      · have hs := (List.tail_suffix _).trans (parseEndTag_suffix hr)
        exact ⟨false, ⟨eventOk_endElement t, nofun, rfl⟩, h.rest hok₁ hs⟩

theorem piStep_reading {c : Byte} {rest : List Byte} {calls : List XmlEvent} {state' : XmlStat}
    (h : Reading .processInstruction thiz (c :: rest) lastText)
    (hstep : xmlParserStep thiz .processInstruction c rest = .ok (calls, state', thiz', readPtr)) :
    ∃ lastText', CallsOk lastText calls lastText' ∧ Reading state' thiz' readPtr.tail lastText' := by
  unfold xmlParserStep at hstep
  simp only at hstep
  cases hr : xmlParserParsePi thiz (c :: rest) with
  | error e =>
      rw [hr] at hstep
      cases hstep
  | ok r =>
      obtain ⟨calls₁, thiz₁, readPtr₁⟩ := r
      rw [hr] at hstep
      cases hstep
      obtain ⟨hused, hthiz⟩ := h.tag rfl
      obtain ⟨hok₁, tag, attrs, rfl, he⟩ := pi_reading h.ok hused hthiz h.noNul h.stops hr
      have hs := (List.tail_suffix _).trans (parsePi_suffix hr)
      exact ⟨false, ⟨he, nofun, rfl⟩, h.rest hok₁ hs⟩

theorem textStep_reading {c : Byte} {rest : List Byte} {calls : List XmlEvent} {state' : XmlStat}
    {prev : Byte} (h : Reading (.text prev) thiz (c :: rest) lastText)
    (hstep : xmlParserStep thiz (.text prev) c rest = .ok (calls, state', thiz', readPtr)) :
    ∃ lastText', CallsOk lastText calls lastText' ∧ Reading state' thiz' readPtr.tail lastText' := by
  obtain ⟨hspace, hlt, hnul, rfl⟩ := h.text prev rfl
  replace hstep : Except.ok ((parseTextLoop [prev] prev (c :: rest)).1, XmlStat.none, thiz,
    (parseTextLoop [prev] prev (c :: rest)).2) = Except.ok (calls, state', thiz', readPtr) := hstep
  rcases @text_reading [prev] (c :: rest) prev (by simpa using Ne.symm hlt)
    (by simpa using Ne.symm hnul) h.noNul with hnone | ⟨k, prev', r, htext, hk, hnk, hr⟩
  · rw [hnone] at hstep
    cases hstep
    exact ⟨false, rfl, .atEnd h.ok _⟩
  · rw [htext] at hstep
    cases hstep
    refine ⟨true, ⟨⟨trivial, ?_⟩, fun _ => rfl, rfl⟩, ⟨h.ok, fun hm => h.noNul (hr.subset hm),
      last_suffix h.last hr, nofun, nofun, nofun, ?_⟩⟩
    · intro call d hcall hdata
      cases hcall
      cases hdata
      rw [strndup_eq hnk]
      exact ⟨hnk, hk, prev, k, rfl, hspace⟩
    · intro _ _ d hd
      cases hd
      rfl

/-- A round keeps what is known, and makes calls of this form. -/
theorem step_reading {c : Byte} {rest : List Byte} {calls : List XmlEvent} {state' : XmlStat}
    (h : Reading state thiz (c :: rest) lastText)
    (hstep : xmlParserStep thiz state c rest = .ok (calls, state', thiz', readPtr)) :
    ∃ lastText', CallsOk lastText calls lastText' ∧ Reading state' thiz' readPtr.tail lastText' := by
  cases state with
  | none => exact none_reading h hstep
  | afterLt => exact afterLt_reading h hstep
  | startTag prev => exact startTagStep_reading h hstep
  | endTag => exact endTagStep_reading h hstep
  | processInstruction => exact piStep_reading h hstep
  | text prev => exact textStep_reading h hstep
  | preComment1 =>
      have hsuffix : rest <:+ c :: rest := List.suffix_cons c rest
      unfold xmlParserStep at hstep
      simp only at hstep
      split at hstep
      · cases hstep
        exact ⟨lastText, rfl, h.onward rfl rfl hsuffix nofun⟩
      · cases hstep
        exact ⟨lastText, callsOk_error _ _, h.onward rfl rfl hsuffix nofun⟩
  | preComment2 =>
      cases hstep
      refine h.comment ?_
      split
      · exact rfl
      · exact callsOk_error _ _
  | comment =>
      cases hstep
      have hnone : CallsOk lastText [] lastText := rfl
      exact h.comment hnone

end

/-! ## Forests of this form -/

theorem endsWithText_append (f : Forest XmlData) (d : XmlData) (c : Forest XmlData) :
    endsWithText (f.append (.node d c .nil)) = d.isText := by
  induction f with
  | nil => rfl
  | node a c' s _ ih =>
      cases s with
      | nil => rfl
      | node a' c'' s' => exact ih

theorem Shaped.append {P : XmlData → Prop} {f g : Forest XmlData} (hf : Shaped P f)
    (hg : Shaped P g) (hfg : endsWithText f = true → startsWithText g = false) :
    Shaped P (f.append g) := by
  induction f with
  | nil => exact hg
  | node d c s _ ih =>
      obtain ⟨hd, hleaf, hapart, hc, hs⟩ := hf
      cases s with
      | nil => exact ⟨hd, hleaf, hfg, hc, hg⟩
      | node d' c' s' => exact ⟨hd, hleaf, hapart, hc, ih hs hfg⟩

theorem Shaped.imp {P Q : XmlData → Prop} {f : Forest XmlData} (hf : Shaped P f)
    {R : XmlData → Prop} (hR : f.All R) (h : ∀ d, P d → R d → Q d) : Shaped Q f := by
  induction f with
  | nil => trivial
  | node d c s ihc ihs =>
      obtain ⟨hd, hleaf, hapart, hc, hs⟩ := hf
      exact ⟨h d hd hR.1, hleaf, hapart, ihc hc hR.2.1, ihs hs hR.2.2⟩

/-- The open nodes are elements, and what is below them has this form. -/
structure LevelsOk (ds : List (Level XmlData)) (lastText : Bool) : Prop where
  each : ∀ l ∈ ds, l.label.Readable ∧ l.label.isNormal = true ∧ Shaped XmlData.Readable l.closed
  last : lastText = false → ∀ l, ds.head? = some l → endsWithText l.closed = false

theorem levelsOk_start : LevelsOk docStart false where
  each l hl := by
    rw [docStart, List.mem_singleton] at hl
    subst hl
    refine ⟨⟨⟨by decide, fun _ h => absurd h List.not_mem_nil⟩, UNDERSCORE, bytes "_root__", rfl,
      rfl, ?_⟩, rfl, trivial⟩
    decide +kernel
  last _ l hl := by
    cases hl
    rfl

/-- A tree behind those below the open node. -/
theorem LevelsOk.add {l : Level XmlData} {ls : List (Level XmlData)} {lastText lastText' : Bool}
    (h : LevelsOk (l :: ls) lastText) {d : XmlData} {c : Forest XmlData} (hd : d.Readable)
    (hleaf : d.isNormal = false → c = .nil) (hc : Shaped XmlData.Readable c)
    (htext : d.isText = true → lastText = false) (hafter : lastText' = d.isText) :
    LevelsOk (l.add (.node d c .nil) :: ls) lastText' where
  each m hm := by
    rcases List.mem_cons.mp hm with rfl | hm
    · obtain ⟨hlabel, hnormal, hclosed⟩ := h.each l List.mem_cons_self
      refine ⟨hlabel, hnormal, hclosed.append ⟨hd, hleaf, fun _ => rfl, hc, trivial⟩ fun hends => ?_⟩
      by_contra hstart
      have hstart : d.isText = true := (Bool.not_eq_false _).mp hstart
      rw [h.last (htext hstart) l rfl] at hends
      cases hends
    · exact h.each m (List.mem_cons_of_mem _ hm)
  last hlast m hm := by
    cases hm
    show endsWithText (l.closed.append _) = false
    rw [endsWithText_append, ← hafter, hlast]

/-- A call of this form keeps the form of the open nodes. -/
theorem LevelsOk.step {ds ds' : List (Level XmlData)} {call : XmlCall} {lastText : Bool}
    (h : LevelsOk ds lastText) (hdata : ∀ d, call.data? = some d → d.Readable)
    (htext : call.event.isText = true → lastText = false) (hstep : docStep ds call = some ds') :
    LevelsOk ds' (call.event.behind lastText) := by
  cases call with
  | start tag attrs =>
      cases hstep
      refine ⟨fun m hm => ?_, fun _ m hm => ?_⟩
      · rcases List.mem_cons.mp hm with rfl | hm
        · exact ⟨hdata _ rfl, rfl, trivial⟩
        · exact h.each m hm
      · cases hm
        rfl
  | close tag =>
      cases ds with
      | nil => cases hstep
      | cons l ds =>
          cases ds with
          | nil => cases hstep
          | cons m ds =>
              cases hstep
              obtain ⟨hlabel, hnormal, hclosed⟩ := h.each l List.mem_cons_self
              have hnotText : l.label.isText = false := by
                cases hl : l.label with
                | normal name attrs => rfl
                | pi name attrs => rfl
                | comment t => rfl
                | text t =>
                    rw [hl] at hnormal
                    cases hnormal
              -- below the node that is closed there may be a text at the end
              have hrest : LevelsOk (m :: ds) true :=
                ⟨fun k hk => h.each k (List.mem_cons_of_mem _ hk), nofun⟩
              refine hrest.add hlabel ?_ hclosed ?_ hnotText.symm
              · intro hn
                rw [hnormal] at hn
                cases hn
              · intro hn
                rw [hnotText] at hn
                cases hn
  | text t =>
      cases ds with
      | nil => cases hstep
      | cons l ds =>
          cases hstep
          exact h.add (hdata _ rfl) (fun _ => rfl) trivial (fun _ => htext rfl) rfl
  | comment t =>
      cases ds with
      | nil => cases hstep
      | cons l ds =>
          cases hstep
          exact h.add (hdata _ rfl) (fun _ => rfl) trivial nofun rfl
  | pi tag attrs =>
      cases ds with
      | nil => cases hstep
      | cons l ds =>
          cases hstep
          exact h.add (hdata _ rfl) (fun _ => rfl) trivial nofun rfl
  | error message =>
      cases ds with
      | nil =>
          cases hstep
          exact h
      | cons l ds =>
          cases hstep
          exact h

theorem LevelsOk.whole {inner : Forest XmlData} {ds : List (Level XmlData)} {lastText : Bool}
    (h : LevelsOk ds lastText) (hinner : Shaped XmlData.Readable inner)
    (hstart : startsWithText inner = false) : Shaped XmlData.Readable (Level.whole inner ds) := by
  induction ds generalizing inner lastText with
  | nil => exact hinner
  | cons l ds ih =>
      obtain ⟨hlabel, hnormal, hclosed⟩ := h.each l List.mem_cons_self
      have hrest : LevelsOk ds true := ⟨fun k hk => h.each k (List.mem_cons_of_mem _ hk), nofun⟩
      refine ih hrest ⟨hlabel, ?_, fun _ => rfl, hclosed.append hinner fun _ => hstart, trivial⟩ ?_
      · intro hn
        rw [hnormal] at hn
        cases hn
      · show l.label.isText = false
        cases hl : l.label with
        | normal name attrs => rfl
        | pi name attrs => rfl
        | comment t => rfl
        | text t =>
            rw [hl] at hnormal
            cases hnormal

theorem LevelsOk.forest {ds : List (Level XmlData)} {lastText : Bool} (h : LevelsOk ds lastText) :
    Shaped XmlData.Readable (docForest ds) := by
  have hwhole : Shaped XmlData.Readable (Level.whole .nil ds) := h.whole trivial rfl
  rw [docForest]
  cases hw : Level.whole .nil ds with
  | nil => trivial
  | node d c s =>
      rw [hw] at hwhole
      exact hwhole.2.2.2.1

/-! ## The builder -/

/-- The loop over the attributes takes the pairs of strings only. -/
theorem xmlNodeAppendAttrs_ok (i : Nat) : ∀ {l : List XmlStr} {heap : XmlHeap}
    {attrs : List XmlAttr} {r : XmlHeap × List XmlAttr}, (∀ s ∈ l, s ≠ .null) →
    xmlNodeAppendAttrs i l heap attrs = .ok r →
    ∃ strs, strPairs l = some strs ∧ xmlNodeAppendAttrs i (strs.map .str) heap attrs = .ok r
  | [], _, _, _, _, h => ⟨[], rfl, h⟩
  | [x], _, _, _, hn, h => by
      cases x with
      | null => exact absurd rfl (hn .null List.mem_cons_self)
      | wild =>
          cases h
          exact ⟨[], rfl, rfl⟩
      | str s =>
          cases h
          exact ⟨[], rfl, rfl⟩
  | .str name :: .str value :: rest, _, _, _, hn, h => by
      have hrest : ∀ s ∈ rest, s ≠ .null := fun s hs =>
        hn s (List.mem_cons_of_mem _ (List.mem_cons_of_mem _ hs))
      obtain ⟨strs, hstrs, hrun⟩ := xmlNodeAppendAttrs_ok i hrest h
      refine ⟨name :: value :: strs, ?_, hrun⟩
      show (strPairs rest).map _ = _
      rw [hstrs]
      rfl
  | .null :: _ :: _, _, _, _, hn, _ => absurd rfl (hn .null List.mem_cons_self)
  | .wild :: x :: _, _, _, _, hn, h => by
      cases x with
      | null => exact absurd rfl (hn .null (List.mem_cons_of_mem _ List.mem_cons_self))
      | wild => cases h
      | str s => cases h
  | .str _ :: .null :: _, _, _, _, hn, _ =>
      absurd rfl (hn .null (List.mem_cons_of_mem _ List.mem_cons_self))
  | .str _ :: .wild :: _, _, _, _, _, h => by cases h

theorem createNamed_ok {data : List Byte → List XmlAttr → XmlData} {heap : XmlHeap} {tag : XmlStr}
    {attrs : List XmlStr} {r : XmlHeap × Option Nat} (htag : tag ≠ .null)
    (hattrs : ∀ s ∈ attrs, s ≠ .null) (h : xmlNodeCreateNamed data heap tag attrs = .ok r) :
    ∃ name strs, tag = .str name ∧ strPairs attrs = some strs ∧
      xmlNodeCreateNamed data heap (.str name) (strs.map .str) = .ok r := by
  cases tag with
  | null => exact absurd rfl htag
  | wild => cases h
  | str name =>
      cases happ : xmlNodeAppendAttrs heap.brk attrs (heap.malloc heap.brk .string) [] with
      | error e =>
          simp only [xmlNodeCreateNamed, happ] at h
          cases h
      | ok l =>
          obtain ⟨strs, hstrs, hrun⟩ := xmlNodeAppendAttrs_ok heap.brk hattrs happ
          refine ⟨name, strs, rfl, hstrs, ?_⟩
          simp only [xmlNodeCreateNamed, happ] at h
          simp only [xmlNodeCreateNamed, hrun]
          exact h

/-- A call the builder accepts is one with strings. -/
theorem on_call {b b' : XmlBuilder} {e : XmlEvent} (hn : e.noNull) (h : b.on e = .ok b') :
    ∃ call, e.call? = some call ∧ b.on call.event = .ok b' ∧ call.event.isText = e.isText ∧
      ∀ lastText, call.event.behind lastText = e.behind lastText := by
  cases e with
  | startElement tag attrs =>
      cases hr : xmlNodeCreateNamed .normal b.heap tag attrs with
      | error e =>
          replace h : (xmlNodeCreateNamed .normal b.heap tag attrs >>= _) = Except.ok b' := h
          rw [hr] at h
          cases h
      | ok r =>
          obtain ⟨name, strs, rfl, hstrs, hr'⟩ := createNamed_ok hn.1 hn.2 hr
          refine ⟨.start name strs, ?_, ?_, rfl, fun _ => rfl⟩
          · show (strPairs attrs).map _ = _
            rw [hstrs]
            rfl
          · replace h : (xmlNodeCreateNamed .normal b.heap (.str name) attrs >>= _) = Except.ok b' := h
            rw [hr] at h
            show (xmlNodeCreateNamed .normal b.heap (.str name) (strs.map .str) >>= _) = _
            rw [hr']
            exact h
  | piElement tag attrs =>
      cases hr : xmlNodeCreateNamed .pi b.heap tag attrs with
      | error e =>
          replace h : (xmlNodeCreateNamed .pi b.heap tag attrs >>= _) = Except.ok b' := h
          rw [hr] at h
          cases h
      | ok r =>
          obtain ⟨name, strs, rfl, hstrs, hr'⟩ := createNamed_ok hn.1 hn.2 hr
          refine ⟨.pi name strs, ?_, ?_, rfl, fun _ => rfl⟩
          · show (strPairs attrs).map _ = _
            rw [hstrs]
            rfl
          · replace h : (xmlNodeCreateNamed .pi b.heap (.str name) attrs >>= _) = Except.ok b' := h
            rw [hr] at h
            show (xmlNodeCreateNamed .pi b.heap (.str name) (strs.map .str) >>= _) = _
            rw [hr']
            exact h
  | endElement tag => exact ⟨.close tag, rfl, h, rfl, fun _ => rfl⟩
  | text t => exact ⟨.text t, rfl, h, rfl, fun _ => rfl⟩
  | comment t => exact ⟨.comment t, rfl, h, rfl, fun _ => rfl⟩
  | error line row message => exact ⟨.error message, rfl, h, rfl, fun _ => rfl⟩

/-- Calls of this form keep the form of what is built. -/
theorem callBuilder_reading {b b' : XmlBuilder} {ls : List (Level (Nat × XmlData))}
    {es : List XmlEvent} {lastText lastText' : Bool} (hb : Builds b ls)
    (hls : LevelsOk (eraseLevels ls) lastText) (hes : CallsOk lastText es lastText')
    (h : callBuilder XmlBuilder.on b es = .ok b') :
    ∃ ls', Builds b' ls' ∧ LevelsOk (eraseLevels ls') lastText' := by
  induction es generalizing b ls lastText with
  | nil =>
      cases h
      rw [show lastText' = lastText from hes]
      exact ⟨ls, hb, hls⟩
  | cons e es ih =>
      obtain ⟨⟨hnull, hdata⟩, htext, hes⟩ := hes
      cases hon : b.on e with
      | error x =>
          replace h : (b.on e >>= _) = Except.ok b' := h
          rw [hon] at h
          cases h
      | ok b₁ =>
          replace h : (b.on e >>= _) = Except.ok b' := h
          rw [hon] at h
          obtain ⟨call, hcall, hon', hisText, hbehind⟩ := on_call hnull hon
          cases hstep : docStep (eraseLevels ls) call with
          | none =>
              rw [hb.on_fails hstep] at hon'
              cases hon'
          | some ds =>
              obtain ⟨b₂, ls₂, hon₂, hb₂, rfl⟩ := hb.on_ok hstep
              rw [hon₂] at hon'
              cases hon'
              have hls₂ := hls.step (fun d hd => hdata call d hcall hd)
                (fun ht => htext (hisText ▸ ht)) hstep
              rw [hbehind] at hls₂
              exact ih hb₂ hls₂ hes h

theorem loop_reading {n : Nat} {state : XmlStat} {thiz : XmlParser} {b b' : XmlBuilder}
    {readPtr : List Byte} {lastText : Bool} {ls : List (Level (Nat × XmlData))}
    (hn : 2 * readPtr.length + state.rank ≤ n) (hread : Reading state thiz readPtr lastText)
    (hb : Builds b ls) (hls : LevelsOk (eraseLevels ls) lastText)
    (h : xmlParserLoop XmlBuilder.on state thiz b readPtr = .ok b') :
    ∃ ls' lastText', Builds b' ls' ∧ LevelsOk (eraseLevels ls') lastText' := by
  induction n generalizing state thiz b readPtr lastText ls with
  | zero =>
      cases readPtr with
      | nil =>
          rw [xmlParserLoop] at h
          cases h
          exact ⟨ls, lastText, hb, hls⟩
      | cons c rest => simp only [List.length_cons] at hn; omega
  | succ n ih =>
      cases readPtr with
      | nil =>
          rw [xmlParserLoop] at h
          cases h
          exact ⟨ls, lastText, hb, hls⟩
      | cons c rest =>
          rw [xmlParserLoop] at h
          split at h
          · cases h
          · next hstep =>
            obtain ⟨lastText₁, hcalls, hread₁⟩ := step_reading hread hstep
            split at h
            · cases h
            · next hcall =>
              obtain ⟨ls₁, hb₁, hls₁⟩ := callBuilder_reading hb hls hcalls hcall
              have hdec := xmlParserStep_decreases hstep
              exact ih (by omega) hread₁ hb₁ hls₁ h

/-- What is built from any text that does not end inside a name has this form. -/
theorem builds_reading {xml : List Byte} {b : XmlBuilder} (hnul : NUL ∉ xml)
    (hlast : ∀ c, xml.getLast? = some c → isspace c = true ∨ c = GT)
    (h : xmlParserParse XmlBuilder.on xmlBuilderTreeCreate xml = .ok b) :
    ∃ ls, Builds b ls ∧ Shaped XmlData.Readable (docForest (eraseLevels ls)) := by
  have hread := Reading.begin hnul hlast
  obtain ⟨ls, lastText, hb, hls⟩ :=
    loop_reading (Nat.le_refl _) hread builds_create levelsOk_start h
  exact ⟨ls, hb, hls.forest⟩

theorem sampleDoc_last (c : Byte) (hc : (printDoc sampleDoc).getLast? = some c) :
    isspace c = true ∨ c = GT := by
  have hgt : (printDoc sampleDoc).getLast? = some GT := by decide +kernel
  rw [hgt] at hc
  cases hc
  exact .inr rfl

/-- The trees that are read from a text have the form a tree needs to be printed. -/
theorem read_readable (xml : List Byte) (b : XmlBuilder) (hnul : NUL ∉ xml)
    (hlast : ∀ c, xml.getLast? = some c → isspace c = true ∨ c = GT)
    (h : xmlParserParse XmlBuilder.on xmlBuilderTreeCreate xml = .ok b) :
    ∃ tree b' f, xmlBuilderGetTree b = .ok (tree, b') ∧
      Linked b'.heap.cell (some b.root) tree f none ∧ Shaped XmlData.Readable (f.map Prod.snd) := by
  obtain ⟨ls, hb, hls⟩ := builds_reading hnul hlast h
  obtain ⟨tree, b', f, hget, hlinked, -, hmap⟩ := hb.taken
  exact ⟨tree, b', f, hget, hlinked, hmap ▸ hls⟩

theorem read_readable_sampleDoc :
    ∃ b tree b' f, xmlParserParse XmlBuilder.on xmlBuilderTreeCreate (printDoc sampleDoc) = .ok b ∧
      xmlBuilderGetTree b = .ok (tree, b') ∧
      Linked b'.heap.cell (some b.root) tree f none ∧
      Shaped XmlData.Readable (f.map Prod.snd) := by
  obtain ⟨b, -, hparse, -⟩ := builds_printed printable_sampleDoc
  obtain ⟨tree, b', f, h⟩ :=
    read_readable (printDoc sampleDoc) b (by decide +kernel) sampleDoc_last hparse
  exact ⟨b, tree, b', f, hparse, h⟩

/-- Printing what was read from a text, and reading that, gives the same trees. -/
theorem read_print_read (xml : List Byte) (b : XmlBuilder) (hnul : NUL ∉ xml)
    (hlast : ∀ c, xml.getLast? = some c → isspace c = true ∨ c = GT)
    (h : xmlParserParse XmlBuilder.on xmlBuilderTreeCreate xml = .ok b) :
    ∃ tree b' f, xmlBuilderGetTree b = .ok (tree, b') ∧
      Linked b'.heap.cell (some b.root) tree f none ∧
      ((f.map Prod.snd).All XmlData.Short → ∃ b₂ tree₂ b₂' g,
        xmlParserParse XmlBuilder.on xmlBuilderTreeCreate (printDoc (f.map Prod.snd)) = .ok b₂ ∧
        xmlBuilderGetTree b₂ = .ok (tree₂, b₂') ∧
        Linked b₂'.heap.cell (some b₂.root) tree₂ g none ∧ g.map Prod.snd = f.map Prod.snd) := by
  obtain ⟨ls, hb, hls⟩ := builds_reading hnul hlast h
  obtain ⟨tree, b', f, hget, hlinked, -, hmap⟩ := hb.taken
  refine ⟨tree, b', f, hget, hlinked, fun hshort => ?_⟩
  rw [← hmap] at hls
  have hprint : Printable (f.map Prod.snd) := hls.imp hshort fun _ hd hs => hd.printable hs
  obtain ⟨b₂, ls₂, hparse, hb₂, hforest⟩ := builds_printed hprint
  obtain ⟨tree₂, b₂', g, hget₂, hlinked₂, -, hmap₂⟩ := hb₂.taken
  exact ⟨b₂, tree₂, b₂', g, hparse, hget₂, hlinked₂, hmap₂.trans hforest⟩

theorem short_sampleDoc : sampleDoc.All XmlData.Short := by
  refine ⟨⟨by decide +kernel, fun a ha => ?_⟩, trivial, ⟨by decide +kernel, fun a ha => ?_⟩,
    ⟨⟨by decide +kernel, nofun⟩, ⟨trivial, trivial, trivial⟩, trivial, trivial, trivial⟩, trivial⟩
  · rw [List.mem_singleton.mp ha]
    decide +kernel
  · rw [List.mem_singleton.mp ha]
    decide +kernel

theorem read_print_read_sampleDoc :
    ∃ b tree b' f b₂ tree₂ b₂' g,
      xmlParserParse XmlBuilder.on xmlBuilderTreeCreate (printDoc sampleDoc) = .ok b ∧
      xmlBuilderGetTree b = .ok (tree, b') ∧ Linked b'.heap.cell (some b.root) tree f none ∧
      f.map Prod.snd = sampleDoc ∧
      xmlParserParse XmlBuilder.on xmlBuilderTreeCreate (printDoc (f.map Prod.snd)) = .ok b₂ ∧
      xmlBuilderGetTree b₂ = .ok (tree₂, b₂') ∧
      Linked b₂'.heap.cell (some b₂.root) tree₂ g none ∧ g.map Prod.snd = f.map Prod.snd := by
  obtain ⟨b, ls, hparse, hb, hdoc⟩ := builds_printed printable_sampleDoc
  obtain ⟨tree, b', f, hget, hlinked, hagain⟩ :=
    read_print_read (printDoc sampleDoc) b (by decide +kernel) sampleDoc_last hparse
  -- the tree in memory is the document
  obtain ⟨tree₀, b₀, f₀, hget₀, hlinked₀, -, hmap₀⟩ := hb.taken
  cases hget.symm.trans hget₀
  obtain rfl := hlinked.unique hlinked₀
  have hdoc' : f.map Prod.snd = sampleDoc := hmap₀.trans hdoc
  obtain ⟨b₂, tree₂, b₂', g, h⟩ := hagain (hdoc' ▸ short_sampleDoc)
  exact ⟨b, tree, b', f, b₂, tree₂, b₂', g, hparse, hget, hlinked, hdoc', h⟩

end XwpServer
