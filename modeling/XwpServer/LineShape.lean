/-
  XwpServer.LineShape

  What the line parsers return on one line of the head that is a block of its own.

  A parser call on a line alone either finds what it needs in the line, or runs off
  its end and is undefined.  The first happens exactly when the request line has
  three words, the status line two, and a header line is blank or has a colon
  behind its name.
-/

import XwpServer.LineStrings

namespace XwpServer

open CString Scan

/-! ## Lines and words -/

/-- One line with its line end. -/
structure IsLine (l : List Byte) : Prop where
  ends : ∃ a, l = a ++ [LF] ∧ LF ∉ a
  noNul : NUL ∉ l

theorem IsLine.findNextEol {l : List Byte} (h : IsLine l) :
    findNextEol l 0 = some (some (l.length - 1)) := by
  obtain ⟨⟨a, rfl, hlf⟩, hz⟩ := h
  refine findNextEol_some_iff.mpr ⟨a, [], rfl, by simp, hlf, ?_⟩
  exact fun hmem => hz (by simp [hmem])

theorem IsLine.length_pos {l : List Byte} (h : IsLine l) : 0 < l.length := by
  obtain ⟨⟨a, rfl, -⟩, -⟩ := h
  simp

/-- The text starts with `n` words, each with white space behind it. -/
def HasWords : Nat → List Byte → Prop
  | 0, _ => True
  | n + 1, l => ∃ sp w e rest, TokenAt isspace l sp w e rest ∧ HasWords n rest

theorem set_append_cons {α : Type _} (a b : List α) (c x : α) :
    (a ++ c :: b).set a.length x = a ++ x :: b := by
  rw [List.set_append_right _ _ (Nat.le_refl _)]
  simp

/-- `get_token` at the end of `a`: the token is found, and its terminator replaces the
    byte that ended it. -/
theorem getToken_append {isDelim : Byte → Bool} {a l ds w rest : List Byte} {e : Byte}
    (h : TokenAt isDelim l ds w e rest) :
    getToken isDelim (a ++ l) a.length = some (some ⟨(a ++ ds).length, w.length⟩,
      (a ++ ds ++ w ++ [NUL]) ++ rest, (a ++ ds ++ w ++ [NUL]).length) := by
  have h' : TokenAt isDelim ((a ++ l).drop a.length) ds w e rest := by
    rw [List.drop_left]
    exact h
  rw [getToken_of_tokenAt h', h.eq]
  have hset : (a ++ (ds ++ (w ++ e :: rest))).set (a.length + ds.length + w.length) NUL
      = (a ++ ds ++ w ++ [NUL]) ++ rest := by
    have := set_append_cons (a ++ ds ++ w) rest e NUL
    simp only [List.length_append] at this
    simpa using this
  simp only [hset, List.length_append, List.length_singleton]

/-- On text without zero bytes `get_token` finds a token or runs off the end. -/
theorem getToken_append_some {isDelim : Byte → Bool} {a l : List Byte} (hz : NUL ∉ l)
    {y : Option Tok × List Byte × Nat} (h : getToken isDelim (a ++ l) a.length = some y) :
    ∃ ds w e rest, TokenAt isDelim l ds w e rest ∧ NUL ∉ rest := by
  rcases y with ⟨_ | t, m, p⟩
  · simp only [getToken, Option.bind_eq_bind, Option.bind_eq_some_iff] at h
    obtain ⟨k, hk, c, hc, h⟩ := h
    have hcl : c ∈ l := by
      rw [← List.getElem?_drop, List.drop_left] at hc
      exact List.mem_of_getElem? hc
    have hcz : c ≠ NUL := fun e => hz (e ▸ hcl)
    simp only [hcz, if_false, Option.bind_eq_some_iff, Option.pure_def] at h
    obtain ⟨n, -, h⟩ := h
    simp at h
  · obtain ⟨ds, w, e, rest, htok, -, -, -⟩ := getToken_some h
    rw [List.drop_left] at htok
    refine ⟨ds, w, e, rest, htok, fun hmem => hz ?_⟩
    rw [htok.eq]
    simp [hmem]

/-! ## The request line -/

/-- All strings of a request line are pieces of the line. -/
structure RequestLine.InLine (id : Nat) (l m : List Byte) (x : RequestLine) : Prop where
  methodStr : x.methodStr.InLine id l m
  url : x.url.InLine id l m
  versionStr : x.versionStr.InLine id l m

theorem RequestLine.InLine.frame {id : Nat} {l m : List Byte} {x : RequestLine}
    (h : x.InLine id l m) {pre pre' : List Byte} (hpre : pre'.length = pre.length)
    (post post' : List Byte) :
    (x.shift pre.length).InLine id (pre ++ l ++ post) (pre' ++ m ++ post') where
  methodStr := h.methodStr.frame hpre post post'
  url := h.url.frame hpre post post'
  versionStr := h.versionStr.frame hpre post post'

/-- A word of the text that is terminated is a piece of it. -/
theorem Tok.inLine_str (id : Nat) {a w b b' : List Byte} (a' : List Byte) (hw : NUL ∉ w)
    (e : Byte) (ha : a'.length = a.length) :
    (Tok.str id ⟨a.length, w.length⟩).InLine id (a ++ (w ++ e :: b)) (a' ++ (w ++ NUL :: b')) := by
  refine ⟨rfl, ?_, ?_⟩
  · change a.length + w.length < _
    simp only [List.length_append, List.length_cons]
    omega
  · change strAt _ a.length = some (((a ++ (w ++ e :: b)).drop a.length).take w.length)
    rw [List.drop_left, List.take_left, ← ha]
    exact strAt_eq_some_iff.mpr ⟨hw, b', by rw [List.drop_left]⟩

/-- `http_parse_url` accepts the token. -/
def UrlAccepted (w : List Byte) : Prop :=
  (httpParseUrl 0 (w ++ [NUL]) {} ⟨0, w.length⟩).1 = .done

section RequestLineStep

variable {k : Nat} {l s₁ w₁ r₁ s₂ w₂ r₂ s₃ w₃ r₃ : List Byte} {e₁ e₂ e₃ : Byte}

theorem TokenAt.notMem {isDelim : Byte → Bool} {l ds w rest : List Byte} {e : Byte}
    (h : TokenAt isDelim l ds w e rest) : NUL ∉ w :=
  fun hmem => (h.word NUL hmem).1 rfl

/-- The line once its three words have been found. -/
def wordsDone (s₁ w₁ s₂ w₂ s₃ w₃ r₃ : List Byte) : List Byte :=
  (s₁ ++ w₁ ++ [NUL] ++ s₂) ++ (w₂ ++ [NUL]) ++ (s₃ ++ w₃ ++ [NUL] ++ r₃)

/-- The three words are taken from the bytes at the end of `a`. -/
theorem requestLineStep_tokens {a u : List Byte} {eol : Nat} (x : RequestLine)
    (heol : findNextEol (a ++ u) a.length = some (some eol))
    (h₁ : TokenAt isspace u s₁ w₁ e₁ r₁) (h₂ : TokenAt isspace r₁ s₂ w₂ e₂ r₂)
    (h₃ : TokenAt isspace r₂ s₃ w₃ e₃ r₃) :
    requestLineStep k x (a ++ u) a.length
      = (requestLineFields k x (wordsDone (a ++ s₁) w₁ s₂ w₂ s₃ w₃ r₃)
          ⟨(a ++ s₁).length, w₁.length⟩ ⟨(a ++ s₁ ++ w₁ ++ [NUL] ++ s₂).length, w₂.length⟩
          ⟨(a ++ s₁ ++ w₁ ++ [NUL] ++ s₂ ++ w₂ ++ [NUL] ++ s₃).length, w₃.length⟩).map
          fun y => (y.1, y.2.1, y.2.2, eol + 1) := by
  have t₁ := getToken_append (a := a) h₁
  have t₂ := getToken_append (a := a ++ s₁ ++ w₁ ++ [NUL]) h₂
  have t₃ := getToken_append (a := a ++ s₁ ++ w₁ ++ [NUL] ++ s₂ ++ w₂ ++ [NUL]) h₃
  have hm : a ++ s₁ ++ w₁ ++ [NUL] ++ s₂ ++ w₂ ++ [NUL] ++ s₃ ++ w₃ ++ [NUL] ++ r₃
      = wordsDone (a ++ s₁) w₁ s₂ w₂ s₃ w₃ r₃ := by simp [wordsDone]
  simp only [requestLineStep, heol, Option.bind_eq_bind, Option.bind_some, t₁, t₂, t₃, hm,
    Option.pure_def]
  cases requestLineFields k x (wordsDone (a ++ s₁) w₁ s₂ w₂ s₃ w₃ r₃)
    ⟨(a ++ s₁).length, w₁.length⟩ ⟨(a ++ s₁ ++ w₁ ++ [NUL] ++ s₂).length, w₂.length⟩
    ⟨(a ++ s₁ ++ w₁ ++ [NUL] ++ s₂ ++ w₂ ++ [NUL] ++ s₃).length, w₃.length⟩ <;> rfl

theorem requestLineStep_eq (x : RequestLine) (hl : IsLine l)
    (h₁ : TokenAt isspace l s₁ w₁ e₁ r₁) (h₂ : TokenAt isspace r₁ s₂ w₂ e₂ r₂)
    (h₃ : TokenAt isspace r₂ s₃ w₃ e₃ r₃) :
    requestLineStep k x l 0
      = (requestLineFields k x (wordsDone s₁ w₁ s₂ w₂ s₃ w₃ r₃) ⟨s₁.length, w₁.length⟩
          ⟨(s₁ ++ w₁ ++ [NUL] ++ s₂).length, w₂.length⟩
          ⟨(s₁ ++ w₁ ++ [NUL] ++ s₂ ++ w₂ ++ [NUL] ++ s₃).length, w₃.length⟩).map
          fun y => (y.1, y.2.1, y.2.2, l.length) := by
  have hpos := hl.length_pos
  have heol : l.length - 1 + 1 = l.length := by omega
  have h := requestLineStep_tokens (k := k) (a := []) x hl.findNextEol h₁ h₂ h₃
  rw [heol] at h
  exact h

/-- A call that decides a line has found three words in it. -/
theorem hasWords_of_requestLineStep {x : RequestLine} (hl : IsLine l)
    {y : ParseRet × RequestLine × List Byte × Nat} (h : requestLineStep k x l 0 = some y) :
    HasWords 3 l := by
  simp only [requestLineStep, hl.findNextEol, Option.bind_eq_bind, Option.bind_some,
    Option.bind_eq_some_iff] at h
  obtain ⟨y₁, t₁, y₂, t₂, y₃, t₃, -⟩ := h
  obtain ⟨s₁, w₁, e₁, r₁, h₁, hz₁⟩ := getToken_append_some (a := []) hl.noNul t₁
  have t₁' := getToken_append (a := []) h₁
  simp only [List.nil_append, List.length_nil] at t₁'
  rw [t₁', Option.some.injEq] at t₁
  subst t₁
  obtain ⟨s₂, w₂, e₂, r₂, h₂, hz₂⟩ := getToken_append_some hz₁ t₂
  rw [getToken_append h₂, Option.some.injEq] at t₂
  subst t₂
  obtain ⟨s₃, w₃, e₃, r₃, h₃, -⟩ := getToken_append_some hz₂ t₃
  exact ⟨s₁, w₁, e₁, r₁, h₁, s₂, w₂, e₂, r₂, h₂, s₃, w₃, e₃, r₃, h₃, trivial⟩

theorem requestLineFields_words (hw₁ : NUL ∉ w₁) (hw₃ : NUL ∉ w₃) :
    let m := wordsDone s₁ w₁ s₂ w₂ s₃ w₃ r₃
    let method : Tok := ⟨s₁.length, w₁.length⟩
    let url : Tok := ⟨(s₁ ++ w₁ ++ [NUL] ++ s₂).length, w₂.length⟩
    let version : Tok := ⟨(s₁ ++ w₁ ++ [NUL] ++ s₂ ++ w₂ ++ [NUL] ++ s₃).length, w₃.length⟩
    requestLineFields k {} m method url version
      = match httpVersion w₃ with
        | none => some (.fail, { versionStr := version.str k }, m)
        | some v =>
          match httpMethod w₁ w₁.length with
          | none => some (.fail, { versionStr := version.str k, version := v }, m)
          | some me =>
            let p := httpParseUrl k (w₂ ++ [NUL]) {} ⟨0, w₂.length⟩
            some (p.1, { methodStr := method.str k, method := me, url := p.2.2.shift url.off,
                         versionStr := version.str k, version := v },
              (s₁ ++ w₁ ++ [NUL] ++ s₂) ++ p.2.1 ++ (s₃ ++ w₃ ++ [NUL] ++ r₃)) := by
  intro m method url version
  -- both words end at the terminators that were written behind them
  have hversion : strAt m version.off = some w₃ := by
    refine strAt_eq_some_iff.mpr ⟨hw₃, r₃, ?_⟩
    have hm : m = (s₁ ++ w₁ ++ [NUL] ++ s₂ ++ w₂ ++ [NUL] ++ s₃) ++ (w₃ ++ NUL :: r₃) := by
      simp [m, wordsDone]
    rw [hm]
    exact List.drop_left
  have hmethod : strAt m method.off = some w₁ := by
    refine strAt_eq_some_iff.mpr
      ⟨hw₁, s₂ ++ (w₂ ++ [NUL]) ++ (s₃ ++ w₃ ++ [NUL] ++ r₃), ?_⟩
    have hm : m = s₁ ++ (w₁ ++ NUL :: (s₂ ++ (w₂ ++ [NUL]) ++ (s₃ ++ w₃ ++ [NUL] ++ r₃))) := by
      simp [m, wordsDone]
    rw [hm]
    exact List.drop_left
  have hurl := httpParseUrl_frame k (m := w₂ ++ [NUL]) ⟨0, w₂.length⟩ {}
    (s₁ ++ w₁ ++ [NUL] ++ s₂) (s₃ ++ w₃ ++ [NUL] ++ r₃) (by simp)
  have hempty : ({} : Url).shift (s₁ ++ w₁ ++ [NUL] ++ s₂).length = {} := rfl
  have hshift : Tok.shift (s₁ ++ w₁ ++ [NUL] ++ s₂).length ⟨0, w₂.length⟩ = url := rfl
  rw [hempty, hshift] at hurl
  simp only [requestLineFields, Option.bind_eq_bind, hversion, Option.bind_some]
  rcases httpVersion w₃ with _ | v
  · rfl
  · simp only [hmethod, Option.bind_some]
    rcases httpMethod w₁ w₁.length with _ | me
    · rfl
    · simp only [m, wordsDone, hurl]
      rfl

/-- What a request line with three words is parsed to. -/
theorem requestLineStep_words (hl : IsLine l)
    (h₁ : TokenAt isspace l s₁ w₁ e₁ r₁) (h₂ : TokenAt isspace r₁ s₂ w₂ e₂ r₂)
    (h₃ : TokenAt isspace r₂ s₃ w₃ e₃ r₃) :
    ∃ ret x m, requestLineStep k {} l 0 = some (ret, x, m, l.length) ∧ ret ≠ .again ∧
      m.length = l.length ∧ x.InLine k l m ∧
      x.versionStr = Tok.str k ⟨(s₁ ++ w₁ ++ [e₁] ++ s₂ ++ w₂ ++ [e₂] ++ s₃).length, w₃.length⟩ ∧
      (ret = .done ↔ (httpVersion w₃).isSome ∧ (httpMethod w₁ w₁.length).isSome ∧
        UrlAccepted w₂) ∧
      (ret = .done → httpVersion w₃ = some x.version ∧
        httpMethod w₁ w₁.length = some x.method ∧ x.methodStr = Tok.str k ⟨s₁.length, w₁.length⟩ ∧
        x.url = (httpParseUrl k (w₂ ++ [NUL]) {} ⟨0, w₂.length⟩).2.2.shift
          (s₁ ++ w₁ ++ [e₁] ++ s₂).length) := by
  have hl₃ : l = (s₁ ++ w₁ ++ [e₁] ++ s₂ ++ w₂ ++ [e₂] ++ s₃) ++ (w₃ ++ e₃ :: r₃) := by
    rw [h₁.eq, h₂.eq, h₃.eq]
    simp
  have hl₂ : l = (s₁ ++ w₁ ++ [e₁] ++ s₂) ++ (w₂ ++ [e₂]) ++ (s₃ ++ w₃ ++ [e₃] ++ r₃) := by
    rw [h₁.eq, h₂.eq, h₃.eq]
    simp
  have hoff : (s₁ ++ w₁ ++ [NUL] ++ s₂ ++ w₂ ++ [NUL] ++ s₃).length
      = (s₁ ++ w₁ ++ [e₁] ++ s₂ ++ w₂ ++ [e₂] ++ s₃).length := by simp
  have hoff₂ : (s₁ ++ w₁ ++ [NUL] ++ s₂).length = (s₁ ++ w₁ ++ [e₁] ++ s₂).length := by simp
  have hm : wordsDone s₁ w₁ s₂ w₂ s₃ w₃ r₃
      = (s₁ ++ w₁ ++ [NUL] ++ s₂ ++ w₂ ++ [NUL] ++ s₃) ++ (w₃ ++ NUL :: r₃) := by
    simp [wordsDone]
  have hmlen : (wordsDone s₁ w₁ s₂ w₂ s₃ w₃ r₃).length = l.length := by
    rw [hm, hl₃]
    simp
  have hversion : (Tok.str k ⟨(s₁ ++ w₁ ++ [e₁] ++ s₂ ++ w₂ ++ [e₂] ++ s₃).length,
      w₃.length⟩).InLine k l (wordsDone s₁ w₁ s₂ w₂ s₃ w₃ r₃) := by
    rw [hm, hl₃]
    exact Tok.inLine_str k _ h₃.notMem e₃ (by simp)
  have hfields := @requestLineFields_words k s₁ _ s₂ w₂ s₃ _ r₃ h₁.notMem h₃.notMem
  have haccept : UrlAccepted w₂ ↔ (httpParseUrl k (w₂ ++ [NUL]) {} ⟨0, w₂.length⟩).1 = .done := by
    rw [UrlAccepted, httpParseUrl_ret 0 k]
  simp only [] at hfields
  -- the version is looked at first, then the method, then the URL
  rw [requestLineStep_eq {} hl h₁ h₂ h₃, hfields, hoff, hoff₂]
  rcases hv : httpVersion w₃ with _ | v
  · exact ⟨.fail, _, _, rfl, by simp, hmlen, ⟨trivial, ⟨trivial, trivial, trivial, trivial, trivial⟩,
      hversion⟩, rfl, by simp, by simp⟩
  · rcases hme : httpMethod w₁ w₁.length with _ | me
    · exact ⟨.fail, _, _, rfl, by simp, hmlen, ⟨trivial, ⟨trivial, trivial, trivial, trivial,
        trivial⟩, hversion⟩, rfl, by simp, by simp⟩
    -- `http_parse_url` decides; it changes bytes of its own word only
    · have hlen := httpParseUrl_length k (w₂ ++ [NUL]) {} ⟨0, w₂.length⟩
      have hin := httpParseUrl_inLine k h₂.notMem e₂
      have hne := httpParseUrl_ne_again k (w₂ ++ [NUL]) {} ⟨0, w₂.length⟩
      rcases hp : httpParseUrl k (w₂ ++ [NUL]) {} ⟨0, w₂.length⟩ with ⟨ret, m₂, u⟩
      simp only [hp] at hlen hin hne haccept
      refine ⟨ret, _, _, rfl, hne, ?_, ⟨?_, ?_, ?_⟩, rfl, by simp [haccept], fun _ => ⟨rfl, rfl, rfl, rfl⟩⟩
      · rw [hl₂]
        simp only [List.length_append, List.length_singleton] at hlen ⊢
        omega
      · have hl₁ : l = s₁ ++ (w₁ ++ e₁ :: r₁) := h₁.eq
        have hm₁ : s₁ ++ w₁ ++ [NUL] ++ s₂ ++ m₂ ++ (s₃ ++ w₃ ++ [NUL] ++ r₃)
            = s₁ ++ (w₁ ++ NUL :: (s₂ ++ m₂ ++ (s₃ ++ w₃ ++ [NUL] ++ r₃))) := by simp
        rw [hl₁, hm₁]
        exact Tok.inLine_str k _ h₁.notMem e₁ rfl
      · rw [hl₂]
        exact hin.frame hoff₂ _ _
      · have hm₃ : s₁ ++ w₁ ++ [NUL] ++ s₂ ++ m₂ ++ (s₃ ++ w₃ ++ [NUL] ++ r₃)
            = (s₁ ++ w₁ ++ [NUL] ++ s₂ ++ m₂ ++ s₃) ++ (w₃ ++ NUL :: r₃) := by simp
        rw [hl₃, hm₃]
        refine Tok.inLine_str k _ h₃.notMem e₃ ?_
        simp only [List.length_append, List.length_singleton] at hlen ⊢
        omega

end RequestLineStep

/-! ## The status line -/

/-- What a status line with two words is parsed to. -/
theorem statusLineStep_words {l s₁ w₁ r₁ s₂ w₂ r₂ : List Byte} {e₁ e₂ : Byte} (hl : IsLine l)
    (h₁ : TokenAt isspace l s₁ w₁ e₁ r₁) (h₂ : TokenAt isspace r₁ s₂ w₂ e₂ r₂) :
    statusLineStep l 0
      = some (if atoi w₂ < HTTP_STATUS_START ∨ atoi w₂ > HTTP_STATUS_END then .fail else .done,
          some (atoi w₂), (s₁ ++ w₁ ++ [NUL] ++ s₂ ++ w₂ ++ [NUL]) ++ r₂, l.length) := by
  have t₁ := getToken_append (a := []) h₁
  have t₂ := getToken_append (a := [] ++ s₁ ++ w₁ ++ [NUL]) h₂
  simp only [List.nil_append, List.length_nil] at t₁ t₂
  have hpos := hl.length_pos
  have heol : l.length - 1 + 1 = l.length := by omega
  have hstr : strAt (s₁ ++ w₁ ++ [NUL] ++ s₂ ++ w₂ ++ [NUL] ++ r₂)
      (s₁ ++ w₁ ++ [NUL] ++ s₂).length = some w₂ := by
    refine strAt_eq_some_iff.mpr ⟨h₂.notMem, r₂, ?_⟩
    have hm : s₁ ++ w₁ ++ [NUL] ++ s₂ ++ w₂ ++ [NUL] ++ r₂
        = (s₁ ++ w₁ ++ [NUL] ++ s₂) ++ (w₂ ++ NUL :: r₂) := by simp
    rw [hm]
    exact List.drop_left
  simp only [statusLineStep, hl.findNextEol, Option.bind_eq_bind, Option.bind_some, t₁, t₂,
    hstr, heol, Option.pure_def]
  split <;> rfl

theorem hasWords_of_statusLineStep {l : List Byte} (hl : IsLine l)
    {y : ParseRet × Option Int × List Byte × Nat} (h : statusLineStep l 0 = some y) :
    HasWords 2 l := by
  simp only [statusLineStep, hl.findNextEol, Option.bind_eq_bind, Option.bind_some,
    Option.bind_eq_some_iff] at h
  obtain ⟨y₁, t₁, y₂, t₂, -⟩ := h
  obtain ⟨s₁, w₁, e₁, r₁, h₁, hz₁⟩ := getToken_append_some (a := []) hl.noNul t₁
  have t₁' := getToken_append (a := []) h₁
  simp only [List.nil_append, List.length_nil] at t₁'
  rw [t₁', Option.some.injEq] at t₁
  subst t₁
  obtain ⟨s₂, w₂, e₂, r₂, h₂, -⟩ := getToken_append_some hz₁ t₂
  exact ⟨s₁, w₁, e₁, r₁, h₁, s₂, w₂, e₂, r₂, h₂, trivial⟩

/-! ## Header lines -/

/-- Skipping white space at the end of `a`. -/
theorem skipSpace_append {a sp b : List Byte} {c : Byte} {bound : Nat}
    (hsp : ∀ x ∈ sp, isspace x = true) (hbound : (a ++ sp).length ≤ bound)
    (hc : isspace c = false ∨ (a ++ sp).length = bound) :
    skipSpace (a ++ (sp ++ c :: b)) a.length bound = some (a ++ sp).length := by
  simp only [List.length_append] at hbound hc
  have hscan : scanUpTo isspace (bound - a.length) ((a ++ (sp ++ c :: b)).drop a.length)
      = some sp.length := by
    rw [List.drop_left]
    exact scanUpTo_append_cons b hsp (by omega) (hc.imp id (by omega))
  simp only [skipSpace, hscan, Option.map_some, List.length_append]

section HeaderRest

variable {a vsp v : List Byte} {name : Tok}

/-- Nothing behind the colon. -/
theorem headerRest_empty (hvsp : ∀ x ∈ vsp, isspace x = true) :
    headerRest (a ++ (vsp ++ [LF])) name a.length (a ++ vsp).length
      = some (.header (a ++ (vsp ++ [LF])) name none ((a ++ vsp).length + 1)) := by
  have hskip := skipSpace_append (a := a) (b := []) (c := LF) hvsp
    (Nat.le_refl _) (Or.inr rfl)
  have hget : (a ++ (vsp ++ [LF]))[(a ++ vsp).length]? = some LF := by
    rw [← List.append_assoc, List.getElem?_append_right (Nat.le_refl _)]
    simp
  simp only [headerRest, Option.bind_eq_bind, hskip, Option.bind_some, hget, if_true]
  rfl

/-- A value and a line end of two bytes. -/
theorem headerRest_crlf {c : Byte} (hvsp : ∀ x ∈ vsp, isspace x = true)
    (hc : isspace c = false) (hz : c ≠ NUL) (hlen : (a ++ vsp ++ c :: v).length < 2 ^ 64) :
    headerRest (a ++ (vsp ++ (c :: v) ++ [CR, LF])) name a.length
        (a ++ vsp ++ (c :: v) ++ [CR]).length
      = some (.header (a ++ (vsp ++ (c :: v) ++ [NUL, LF])) name
          (some ⟨(a ++ vsp).length, (c :: v).length⟩)
          ((a ++ vsp ++ (c :: v) ++ [CR]).length + 1)) := by
  -- the value starts behind the white space, and the carriage return becomes its terminator
  have hskip := @skipSpace_append a _ (v ++ [CR, LF]) c ((a ++ vsp ++ (c :: v) ++ [CR]).length)
    hvsp (by simp) (Or.inl hc)
  have hget : (a ++ (vsp ++ c :: (v ++ [CR, LF])))[(a ++ vsp).length]? = some c := by
    rw [← List.append_assoc, List.getElem?_append_right (Nat.le_refl _)]
    simp
  have hne : (a ++ vsp).length ≠ (a ++ vsp ++ (c :: v) ++ [CR]).length := by simp
  have hpred : (a ++ vsp ++ (c :: v) ++ [CR]).length - 1 = (a ++ vsp ++ (c :: v)).length := by
    simp only [List.length_append, List.length_singleton]
    omega
  have hcr : (a ++ (vsp ++ c :: (v ++ [CR, LF])))[(a ++ vsp ++ (c :: v)).length]? = some CR := by
    have hm : a ++ (vsp ++ c :: (v ++ [CR, LF])) = (a ++ vsp ++ (c :: v)) ++ [CR, LF] := by simp
    rw [hm, List.getElem?_append_right (Nat.le_refl _)]
    simp
  have hset : (a ++ (vsp ++ c :: (v ++ [CR, LF]))).set (a ++ vsp ++ (c :: v)).length NUL
      = a ++ (vsp ++ (c :: v) ++ [NUL, LF]) := by
    simp
  have hdiff : ptrDiff (a ++ vsp ++ (c :: v)).length (a ++ vsp).length = (c :: v).length := by
    rw [ptrDiff_of_le (by simp) hlen]
    simp only [List.length_append]
    omega
  have hm : a ++ (vsp ++ (c :: v) ++ [CR, LF]) = a ++ (vsp ++ c :: (v ++ [CR, LF])) := by simp
  rw [hm]
  simp only [headerRest, Option.bind_eq_bind, hskip, Option.bind_some, hget, hz, hne, if_false,
    headerValue, hpred, hcr, if_true, hset, hdiff, Option.pure_def]

/-- A value and a line feed. -/
theorem headerRest_lf {c d : Byte} (hvsp : ∀ x ∈ vsp, isspace x = true)
    (hc : isspace c = false) (hz : c ≠ NUL) (hd : (c :: v).getLast? = some d) (hcr : d ≠ CR)
    (hlen : (a ++ vsp ++ c :: v).length < 2 ^ 64) :
    headerRest (a ++ (vsp ++ (c :: v) ++ [LF])) name a.length (a ++ vsp ++ (c :: v)).length
      = some (.header (a ++ (vsp ++ (c :: v) ++ [NUL])) name
          (some ⟨(a ++ vsp).length, (c :: v).length⟩)
          ((a ++ vsp ++ (c :: v)).length + 1)) := by
  -- without a carriage return it is the line feed that becomes the terminator
  have hskip := @skipSpace_append a _ (v ++ [LF]) c ((a ++ vsp ++ (c :: v)).length) hvsp (by simp)
    (Or.inl hc)
  have hget : (a ++ (vsp ++ c :: (v ++ [LF])))[(a ++ vsp).length]? = some c := by
    rw [← List.append_assoc, List.getElem?_append_right (Nat.le_refl _)]
    simp
  have hne : (a ++ vsp).length ≠ (a ++ vsp ++ (c :: v)).length := by simp
  have hlast : (a ++ (vsp ++ c :: (v ++ [LF])))[(a ++ vsp ++ (c :: v)).length - 1]? = some d := by
    have hm : a ++ (vsp ++ c :: (v ++ [LF])) = (a ++ vsp ++ (c :: v)) ++ [LF] := by simp
    have hlt : (a ++ vsp ++ (c :: v)).length - 1 < (a ++ vsp ++ (c :: v)).length := by
      rw [List.length_append, List.length_cons]
      omega
    rw [hm, List.getElem?_append_left hlt, ← List.getLast?_eq_getElem?,
      List.getLast?_append, hd]
    rfl
  have hset : (a ++ (vsp ++ c :: (v ++ [LF]))).set (a ++ vsp ++ (c :: v)).length NUL
      = a ++ (vsp ++ (c :: v) ++ [NUL]) := by
    simp
  have hdiff : ptrDiff (a ++ vsp ++ (c :: v)).length (a ++ vsp).length = (c :: v).length := by
    rw [ptrDiff_of_le (by simp) hlen]
    simp only [List.length_append]
    omega
  have hm : a ++ (vsp ++ (c :: v) ++ [LF]) = a ++ (vsp ++ c :: (v ++ [LF])) := by simp
  rw [hm]
  simp only [headerRest, Option.bind_eq_bind, hskip, Option.bind_some, hget, hz, hne, if_false,
    headerValue, hlast, hcr, hset, hdiff, Option.pure_def]

end HeaderRest

/-- A line of white space. -/
theorem headerStep_blank {l : List Byte} (hl : IsLine l) (hsp : ∀ x ∈ l, isspace x = true) :
    headerStep l 0 = some (.done l.length) ∨ headerStep l 0 = some (.skip l.length) := by
  have hpos := hl.length_pos
  have heol : l.length - 1 + 1 = l.length := by omega
  by_cases hd : l.length - 1 = 0 ∨
      (l.length - 1 = 0 + 1 ∧ l[0]? = some CR ∧ l[l.length - 1]? = some LF)
  · left
    simp only [headerStep, hl.findNextEol, Option.bind_eq_bind, Option.bind_some, hd, if_true,
      heol, Option.pure_def]
  · right
    have heolf := hl.findNextEol
    obtain ⟨⟨a, ha, -⟩, -⟩ := hl
    have hskip := @skipSpace_append [] _ [] LF a.length (fun x hx => hsp x (by simp [ha, hx]))
      (Nat.le_refl _) (Or.inr rfl)
    have hlen : l.length - 1 = a.length := by simp [ha]
    have hget : l[a.length]? = some LF := by simp [ha]
    simp only [List.nil_append, List.length_nil, ← ha] at hskip
    rw [← hlen] at hskip hget
    have hne : LF ≠ NUL := by decide
    simp only [headerStep, heolf, Option.bind_eq_bind, Option.bind_some]
    rw [if_neg hd]
    simp only [hskip, Option.bind_some, hget, hne, if_false, if_true, Option.pure_def, heol]

section HeaderStep

variable {l sp u ds w rest : List Byte} {c e : Byte}

/-- The line up to and including its colon, once the name has been found and
    trimmed. -/
def namePart (sp ds w : List Byte) : List Byte :=
  (sp ++ ds ++ w ++ [NUL]).set (sp ++ ds ++ w.rdropWhile isspace).length NUL

theorem namePart_length (sp ds w : List Byte) :
    (namePart sp ds w).length = (sp ++ ds ++ w ++ [NUL]).length := by simp [namePart]

/-- A line that is not blank: from its first byte on, a name is looked for, in whatever
    stands in the block. -/
theorem headerStep_word_at (hl : IsLine l) (hlu : l = sp ++ c :: u)
    (hsp : ∀ x ∈ sp, isspace x = true) (hc : isspace c = false) (d b : List Byte) :
    headerStep (d ++ (l ++ b)) d.length
      = (getToken (· == COLON) (d ++ (l ++ b)) (d ++ sp).length).bind fun y =>
      match y with
      | (none, m, pos) => some (.fail m pos)
      | (some tok, m, pos) =>
        headerRest (trimName m tok).2 (trimName m tok).1 pos (d.length + (l.length - 1)) := by
  have hcz : c ≠ NUL := fun h => hl.noNul (by simp [hlu, h])
  -- the first byte that is no white space is not the line feed
  have hlt : sp.length < l.length - 1 := by
    obtain ⟨⟨a, ha, -⟩, -⟩ := hl
    have hlast : l[l.length - 1]? = some LF := by simp [ha]
    have hget : l[sp.length]? = some c := by simp [hlu]
    have hlen : sp.length < l.length := by simp [hlu]
    rcases Nat.lt_or_ge sp.length (l.length - 1) with h | h
    · exact h
    · have heq : sp.length = l.length - 1 := by omega
      rw [heq, hlast, Option.some.injEq] at hget
      simp [← hget] at hc
  have heol : findNextEol (d ++ (l ++ b)) d.length = some (some (d.length + (l.length - 1))) := by
    have := findNextEol_frame hl.findNextEol d b
    simpa [List.append_assoc] using this
  -- so the line is not empty
  have hd : ¬ (d.length + (l.length - 1) = d.length ∨
      (d.length + (l.length - 1) = d.length + 1 ∧ (d ++ (l ++ b))[d.length]? = some CR ∧
        (d ++ (l ++ b))[d.length + (l.length - 1)]? = some LF)) := by
    rintro (h | ⟨h, hcr, -⟩)
    · omega
    · have hsp0 : sp = [] := List.length_eq_zero_iff.mp (by omega)
      rw [List.getElem?_append_right (Nat.le_refl _)] at hcr
      simp only [hlu, hsp0, List.nil_append, List.cons_append, Nat.sub_self,
        List.getElem?_cons_zero, Option.some.injEq] at hcr
      simp [hcr] at hc
  have hmem : d ++ (l ++ b) = d ++ (sp ++ c :: (u ++ b)) := by simp [hlu]
  have hskip : skipSpace (d ++ (l ++ b)) d.length (d.length + (l.length - 1))
      = some (d ++ sp).length := by
    rw [hmem]
    refine skipSpace_append hsp ?_ (Or.inl hc)
    simp only [List.length_append]
    omega
  have hget : (d ++ (l ++ b))[(d ++ sp).length]? = some c := by
    rw [hmem, ← List.append_assoc, List.getElem?_append_right (Nat.le_refl _)]
    simp
  have hne : (d ++ sp).length ≠ d.length + (l.length - 1) := by
    simp only [List.length_append]
    omega
  simp only [headerStep, heol, Option.bind_eq_bind, Option.bind_some, hd, if_false, hskip, hget,
    hcz, hne]
  rfl

theorem headerStep_word (hl : IsLine l) (hlu : l = sp ++ c :: u)
    (hsp : ∀ x ∈ sp, isspace x = true) (hc : isspace c = false) :
    headerStep l 0 = (getToken (· == COLON) l sp.length).bind fun y =>
      match y with
      | (none, m, pos) => some (.fail m pos)
      | (some tok, m, pos) =>
        headerRest (trimName m tok).2 (trimName m tok).1 pos (l.length - 1) := by
  simpa using headerStep_word_at hl hlu hsp hc [] []

/-- A line with a colon behind its name: the name is found, the rest of the line is the
    value's. -/
theorem headerStep_colon_eq (hl : IsLine l) (hlu : l = sp ++ c :: u)
    (hsp : ∀ x ∈ sp, isspace x = true) (hc : isspace c = false)
    (htok : TokenAt (· == COLON) (c :: u) ds w e rest) :
    headerStep l 0 = headerRest (namePart sp ds w ++ rest)
      ⟨(sp ++ ds).length, (w.rdropWhile isspace).length⟩ (namePart sp ds w).length
      (l.length - 1) := by
  have ht := getToken_append (a := sp) htok
  rw [← hlu] at ht
  have htake : (((sp ++ ds ++ w ++ [NUL]) ++ rest).drop (sp ++ ds).length).take w.length = w := by
    have hm : (sp ++ ds ++ w ++ [NUL]) ++ rest = (sp ++ ds) ++ (w ++ ([NUL] ++ rest)) := by simp
    rw [hm, List.drop_left, List.take_left]
  have htrim : trimName ((sp ++ ds ++ w ++ [NUL]) ++ rest) ⟨(sp ++ ds).length, w.length⟩
      = (⟨(sp ++ ds).length, (w.rdropWhile isspace).length⟩, namePart sp ds w ++ rest) := by
    have hle : (w.rdropWhile isspace).length ≤ w.length := (List.rdropWhile_prefix _ _).length_le
    simp only [trimName, htake, namePart, Prod.mk.injEq, true_and]
    rw [List.set_append_left _ _ (by simp only [List.length_append, List.length_singleton]; omega)]
    simp only [List.length_append, Nat.add_assoc]
  rw [headerStep_word hl hlu hsp hc, ht, Option.bind_some]
  simp only [htrim, namePart_length]

theorem namePart_eq (sp ds w : List Byte) :
    ∃ q, namePart sp ds w = (sp ++ ds) ++ (w.rdropWhile isspace ++ NUL :: q) := by
  obtain ⟨t, ht⟩ := List.rdropWhile_prefix isspace w
  obtain ⟨y, q, hq⟩ : ∃ y q, t ++ [NUL] = y :: q := by cases t <;> simp
  refine ⟨q, ?_⟩
  have hm : sp ++ ds ++ w ++ [NUL] = (sp ++ ds ++ w.rdropWhile isspace) ++ y :: q := by
    conv_lhs => rw [← ht]
    rw [← hq]
    simp
  rw [namePart, hm, set_append_cons]
  simp

/-- The header name is a piece of the line. -/
theorem namePart_inLine (k : Nat) (hlu : l = sp ++ c :: u)
    (htok : TokenAt (· == COLON) (c :: u) ds w e rest) (rest' : List Byte) :
    (Tok.str k ⟨(sp ++ ds).length, (w.rdropWhile isspace).length⟩).InLine k l
      (namePart sp ds w ++ rest') := by
  obtain ⟨q, hq⟩ := namePart_eq sp ds w
  obtain ⟨t, ht⟩ := List.rdropWhile_prefix isspace w
  obtain ⟨y, z, hyz⟩ : ∃ y z, t ++ e :: rest = y :: z := by cases t <;> simp
  have hz : NUL ∉ w.rdropWhile isspace := fun hmem =>
    htok.notMem ((List.rdropWhile_prefix isspace w).subset hmem)
  have hl : l = (sp ++ ds) ++ (w.rdropWhile isspace ++ y :: z) := by
    rw [hlu, htok.eq, ← hyz]
    conv_lhs => rw [← ht]
    simp
  have hm : namePart sp ds w ++ rest'
      = (sp ++ ds) ++ (w.rdropWhile isspace ++ NUL :: (q ++ rest')) := by simp [hq]
  rw [hl, hm]
  exact Tok.inLine_str k _ hz y rfl

/-- What the rest of a line with a colon consists of. -/
theorem rest_cases (hl : IsLine l) (hlr : l = w ++ COLON :: rest) :
    ∃ vsp, (∀ x ∈ vsp, isspace x = true) ∧
      (rest = vsp ++ [LF] ∨ ∃ c v, isspace c = false ∧ c ≠ NUL ∧ NUL ∉ c :: v ∧
        (rest = vsp ++ (c :: v) ++ [CR, LF] ∨
          ∃ d, (c :: v).getLast? = some d ∧ d ≠ CR ∧ rest = vsp ++ (c :: v) ++ [LF])) := by
  obtain ⟨⟨a, ha, -⟩, hz⟩ := hl
  have hlast : rest.getLast? = some LF := by
    have h₁ : l.getLast? = some LF := by simp [ha]
    rw [hlr, List.getLast?_append, List.getLast?_cons] at h₁
    rcases hr : rest.getLast? with _ | x
    · simp [hr] at h₁
      exact absurd h₁ (by decide)
    · simpa [hr] using h₁
  -- the rest is white space, and a value that may end with a carriage return
  obtain ⟨b, rfl⟩ : ∃ b, rest = b ++ [LF] := by
    have hne : rest ≠ [] := by
      rintro rfl
      simp at hlast
    refine ⟨rest.dropLast, ?_⟩
    conv_lhs => rw [← List.dropLast_append_getLast hne]
    rw [List.getLast?_eq_some_getLast hne, Option.some.injEq] at hlast
    rw [hlast]
  refine ⟨b.takeWhile isspace, fun x hx => List.mem_takeWhile_imp hx, ?_⟩
  have hb : b.takeWhile isspace ++ b.dropWhile isspace = b := List.takeWhile_append_dropWhile
  rcases hv : b.dropWhile isspace with _ | ⟨c, v⟩
  · left
    rw [hv, List.append_nil] at hb
    rw [hb]
  · right
    have hc : isspace c = false := by
      have := List.head?_dropWhile_not isspace b
      simpa [hv] using this
    have hzv : NUL ∉ c :: v := by
      intro hmem
      refine hz ?_
      rw [hlr, ← hb, hv]
      simp only [List.mem_append, List.mem_cons] at hmem ⊢
      tauto
    have hcz : c ≠ NUL := fun h => hzv (by simp [h])
    rcases hd : (c :: v).getLast? with _ | d
    · simp at hd
    -- the byte in front of the line feed decides what is cut off
    · by_cases hcr : d = CR
      · subst hcr
        rcases List.eq_nil_or_concat v with rfl | ⟨v', x, rfl⟩
        · simp only [List.getLast?_singleton, Option.some.injEq] at hd
          subst hd
          simp at hc
        · have hx : x = CR := by simpa [List.getLast?_cons] using hd
          subst hx
          refine ⟨c, v', hc, hcz, fun hmem => hzv ?_, Or.inl ?_⟩
          · rcases List.mem_cons.mp hmem with h | h
            · simp [h]
            · simp [h]
          · conv_lhs => rw [← hb, hv]
            simp
      · refine ⟨c, v, hc, hcz, hzv, Or.inr ⟨d, hd, hcr, ?_⟩⟩
        conv_lhs => rw [← hb, hv]

/-- What a header line with a colon behind its name is parsed to: the name without the white
    space in front of the colon, and a value when there is more than white space behind it. -/
theorem headerStep_colon (k : Nat) (hl : IsLine l) (hlu : l = sp ++ c :: u)
    (hsp : ∀ x ∈ sp, isspace x = true) (hc : isspace c = false)
    (htok : TokenAt (· == COLON) (c :: u) ds w e rest) (hlen : l.length < 2 ^ 64) :
    ∃ m value, headerStep l 0
        = some (.header m ⟨(sp ++ ds).length, (w.rdropWhile isspace).length⟩ value l.length) ∧
      m.length = l.length ∧
      (Tok.str k ⟨(sp ++ ds).length, (w.rdropWhile isspace).length⟩).InLine k l m ∧
      (∀ v ∈ value, (v.str k).InLine k l m) ∧
      (value = none ↔ ∀ x ∈ rest, isspace x = true) := by
  have hcolon : e = COLON := by
    rcases htok.ends with rfl | h
    · exact absurd (by simp [hlu, htok.eq]) hl.noNul
    · simpa using h
  subst hcolon
  have hlr : l = (sp ++ ds ++ w) ++ COLON :: rest := by simp [hlu, htok.eq]
  have hplen := namePart_length sp ds w
  rw [headerStep_colon_eq hl hlu hsp hc htok]
  -- no value; one with a carriage return behind it; one without
  obtain ⟨vsp, hvsp, hrest | ⟨c', v, hc', hcz, hzv, hrest | ⟨d, hd, hcr, hrest⟩⟩⟩ :=
    rest_cases hl hlr
  · have heol : l.length - 1 = (namePart sp ds w ++ vsp).length := by
      simp [hlr, hrest, hplen]
      omega
    have hpos : (namePart sp ds w ++ vsp).length + 1 = l.length := by
      have := hl.length_pos
      omega
    rw [heol, hrest, headerRest_empty hvsp, hpos]
    refine ⟨_, _, rfl, ?_, namePart_inLine k hlu htok _, by simp, ?_⟩
    · rw [← hpos]
      simp [Nat.add_assoc]
    · have hlf : isspace LF = true := by decide
      simpa [hrest, or_imp, forall_and, hlf] using hvsp
  · have heol : l.length - 1 = (namePart sp ds w ++ vsp ++ (c' :: v) ++ [CR]).length := by
      simp [hlr, hrest, hplen]
      omega
    have hpos : (namePart sp ds w ++ vsp ++ (c' :: v) ++ [CR]).length + 1 = l.length := by
      have := hl.length_pos
      omega
    have hlt : (namePart sp ds w ++ vsp ++ c' :: v).length < 2 ^ 64 := by
      simp only [List.length_append, List.length_singleton] at hpos ⊢
      omega
    rw [heol, hrest, headerRest_crlf hvsp hc' hcz hlt, hpos]
    refine ⟨_, _, rfl, ?_, namePart_inLine k hlu htok _, ?_, by simpa [hrest] using ⟨c', by simp, hc'⟩⟩
    · rw [← hpos]
      simp [Nat.add_assoc]
    · rintro _ ⟨⟩
      have hl' : l = (sp ++ ds ++ w ++ [COLON] ++ vsp) ++ ((c' :: v) ++ CR :: [LF]) := by
        simp [hlr, hrest]
      have hm' : namePart sp ds w ++ (vsp ++ (c' :: v) ++ [NUL, LF])
          = (namePart sp ds w ++ vsp) ++ ((c' :: v) ++ NUL :: [LF]) := by simp
      rw [hm', hl']
      have ha : (namePart sp ds w ++ vsp).length = (sp ++ ds ++ w ++ [COLON] ++ vsp).length := by
        simp only [List.length_append, hplen, List.length_singleton]
      rw [ha]
      exact Tok.inLine_str k _ hzv CR ha
  · have heol : l.length - 1 = (namePart sp ds w ++ vsp ++ (c' :: v)).length := by
      simp [hlr, hrest, hplen]
      omega
    have hpos : (namePart sp ds w ++ vsp ++ (c' :: v)).length + 1 = l.length := by
      have := hl.length_pos
      omega
    have hlt : (namePart sp ds w ++ vsp ++ c' :: v).length < 2 ^ 64 := by omega
    rw [heol, hrest, headerRest_lf hvsp hc' hcz hd hcr hlt, hpos]
    refine ⟨_, _, rfl, ?_, namePart_inLine k hlu htok _, ?_, by simpa [hrest] using ⟨c', by simp, hc'⟩⟩
    · rw [← hpos]
      simp [Nat.add_assoc]
    · rintro _ ⟨⟩
      have hl' : l = (sp ++ ds ++ w ++ [COLON] ++ vsp) ++ ((c' :: v) ++ LF :: []) := by
        simp [hlr, hrest]
      have hm' : namePart sp ds w ++ (vsp ++ (c' :: v) ++ [NUL])
          = (namePart sp ds w ++ vsp) ++ ((c' :: v) ++ NUL :: []) := by simp
      rw [hm', hl']
      have ha : (namePart sp ds w ++ vsp).length = (sp ++ ds ++ w ++ [COLON] ++ vsp).length := by
        simp only [List.length_append, hplen, List.length_singleton]
      rw [ha]
      exact Tok.inLine_str k _ hzv LF ha

end HeaderStep

/-- The line has a colon behind the start of its name. -/
def HasColon (l : List Byte) : Prop :=
  ∃ sp c u ds w e rest, l = sp ++ c :: u ∧ (∀ x ∈ sp, isspace x = true) ∧ isspace c = false ∧
    TokenAt (· == COLON) (c :: u) ds w e rest

/-- A round that decides a line has found a line of white space or a colon in it. -/
theorem hasColon_of_headerStep {l : List Byte} (hl : IsLine l) {s : HeaderStep}
    (h : headerStep l 0 = some s) : (∀ x ∈ l, isspace x = true) ∨ HasColon l := by
  have hl' : l.takeWhile isspace ++ l.dropWhile isspace = l := List.takeWhile_append_dropWhile
  rcases hd : l.dropWhile isspace with _ | ⟨c, u⟩
  · left
    rw [hd, List.append_nil] at hl'
    intro x hx
    rw [← hl'] at hx
    exact List.mem_takeWhile_imp hx
  · right
    rw [hd] at hl'
    have hsp : ∀ x ∈ l.takeWhile isspace, isspace x = true := fun x hx =>
      List.mem_takeWhile_imp hx
    have hc : isspace c = false := by
      have := List.head?_dropWhile_not isspace l
      simpa [hd] using this
    clear hd
    generalize l.takeWhile isspace = sp at hl' hsp
    subst hl'
    -- the name ends at a colon of the line, since the line has no zero byte
    rw [headerStep_word hl rfl hsp hc, Option.bind_eq_some_iff] at h
    obtain ⟨y, ht, -⟩ := h
    have hz : NUL ∉ c :: u := fun hmem => hl.noNul (List.mem_append_right _ hmem)
    obtain ⟨ds, w, e, rest, htok, -⟩ := getToken_append_some hz ht
    exact ⟨sp, c, u, ds, w, e, rest, rfl, hsp, hc, htok⟩

/-- The rounds that decide a line. -/
theorem headerStep_isSome_iff {l : List Byte} (hl : IsLine l) (hlen : l.length < 2 ^ 64) :
    (headerStep l 0).isSome ↔ (∀ x ∈ l, isspace x = true) ∨ HasColon l := by
  constructor
  · intro h
    obtain ⟨s, hs⟩ := Option.isSome_iff_exists.mp h
    exact hasColon_of_headerStep hl hs
  · rintro (h | ⟨sp, c, u, ds, w, e, rest, hlu, hsp, hc, htok⟩)
    · rcases headerStep_blank hl h with h | h <;> simp [h]
    · obtain ⟨m, value, h, -⟩ := headerStep_colon 0 hl hlu hsp hc htok hlen
      simp [h]

end XwpServer
