/-
  XwpServer.RequestLine

  Which request lines are accepted.

  `http_parse_request_line` looks for its line end first, and then for three words, which
  it takes from wherever they come.  It compares the method over the length of the
  client's word, and looks for the version in the third word.  So it accepts what starts
  with three words of this kind (`LooseRequestLine`), while a request line consists of
  three words (`RequestLineOf`).
-/

import XwpServer.LineShape
import XwpServer.RecvLoop

namespace XwpServer

open CString Scan

/-! ## Tokens in front of a zero byte -/

section Tokens

variable {isDelim : Byte → Bool} {l ds w rest : List Byte} {e : Byte}

theorem TokenAt.append (h : TokenAt isDelim l ds w e rest) (z : List Byte) :
    TokenAt isDelim (l ++ z) ds w e (rest ++ z) :=
  ⟨by rw [h.eq]; simp, h.delims, h.ne_nil, h.word, h.ends⟩

/-- A token of `l` and what follows a zero byte behind `l` is one of `l`; it may be the
    zero byte that ends it. -/
theorem TokenAt.of_append {z : List Byte} (hl : NUL ∉ l)
    (h : TokenAt isDelim (l ++ NUL :: z) ds w e rest) :
    (∃ l', rest = l' ++ NUL :: z ∧ NUL ∉ l' ∧ TokenAt isDelim (l ++ [NUL]) ds w e (l' ++ [NUL])) ∨
      (rest = z ∧ TokenAt isDelim (l ++ [NUL]) ds w e []) := by
  obtain ⟨heq, hds, hne, hw, he⟩ := h
  have hz : NUL ∉ ds ++ w := by
    intro hmem
    rcases List.mem_append.mp hmem with hmem | hmem
    · exact (hds NUL hmem).1 rfl
    · exact (hw NUL hmem).1 rfl
  rw [← List.append_assoc] at heq
  rcases List.append_eq_append_iff.mp heq with ⟨c, hc, hc'⟩ | ⟨c, hc, hc'⟩
  · -- the token ends behind `l`: only at the zero byte
    rcases c with _ | ⟨x, c⟩
    · obtain ⟨rfl, rfl⟩ := List.cons.inj hc'
      rw [List.append_nil] at hc
      refine .inr ⟨rfl, ⟨?_, hds, hne, hw, he⟩⟩
      rw [← List.append_assoc, hc]
    · obtain ⟨rfl, -⟩ := List.cons.inj hc'
      exact absurd (by rw [hc]; simp) hz
  · rcases c with _ | ⟨x, c⟩
    · obtain ⟨rfl, rfl⟩ := List.cons.inj hc'
      rw [List.append_nil] at hc
      refine .inr ⟨rfl, ⟨?_, hds, hne, hw, he⟩⟩
      rw [← List.append_assoc, hc]
    · obtain ⟨rfl, rfl⟩ := List.cons.inj hc'
      refine .inl ⟨c, rfl, fun hmem => hl (by rw [hc]; simp [hmem]), ⟨?_, hds, hne, hw, he⟩⟩
      rw [hc]
      simp

end Tokens

/-! ## What the parser accepts -/

/-- The words with which a request line is accepted. -/
def WordsAccepted (w₁ w₂ w₃ : List Byte) : Prop :=
  (httpVersion w₃).isSome ∧ (httpMethod w₁ w₁.length).isSome ∧ UrlAccepted w₂

/-- Three words come first. -/
structure FirstWords (u : List Byte) (s₁ w₁ s₂ w₂ s₃ w₃ r₃ : List Byte) : Prop where
  words : ∃ e₁ r₁ e₂ r₂ e₃, TokenAt isspace u s₁ w₁ e₁ r₁ ∧ TokenAt isspace r₁ s₂ w₂ e₂ r₂ ∧
    TokenAt isspace r₂ s₃ w₃ e₃ r₃

section Step

variable {k : Nat} {a u s₁ w₁ s₂ w₂ s₃ w₃ r₃ : List Byte} {eol : Nat}

/-- What three words are parsed to. -/
theorem requestLineStep_firstWords (heol : findNextEol (a ++ u) a.length = some (some eol))
    (h : FirstWords u s₁ w₁ s₂ w₂ s₃ w₃ r₃) :
    ∃ ret x m, requestLineStep k {} (a ++ u) a.length = some (ret, x, m, eol + 1) ∧
      (ret = .done ↔ WordsAccepted w₁ w₂ w₃) ∧
      (ret = .done → httpMethod w₁ w₁.length = some x.method ∧ httpVersion w₃ = some x.version ∧
        ∃ v, v.length = w₂.length + 1 ∧
          m = (a ++ s₁ ++ w₁ ++ [NUL] ++ s₂) ++ v ++ (s₃ ++ w₃ ++ [NUL] ++ r₃)) := by
  obtain ⟨e₁, r₁, e₂, r₂, e₃, h₁, h₂, h₃⟩ := h.words
  have hstep := requestLineStep_tokens (k := k) {} heol h₁ h₂ h₃
  have hfields := @requestLineFields_words k (a ++ s₁) _ s₂ w₂ s₃ _ r₃ h₁.notMem h₃.notMem
  dsimp only at hfields
  rw [hfields] at hstep
  unfold WordsAccepted UrlAccepted
  -- in the order of the source: version, method, URL
  cases hv : httpVersion w₃ with
  | none =>
      simp only [hv] at hstep
      exact ⟨.fail, _, _, hstep, by simp, nofun⟩
  | some v =>
      cases hme : httpMethod w₁ w₁.length with
      | none =>
          simp only [hv, hme] at hstep
          exact ⟨.fail, _, _, hstep, by simp, nofun⟩
      | some me =>
          simp only [hv, hme] at hstep
          refine ⟨_, _, _, hstep, ?_, fun _ => ⟨rfl, rfl, _, ?_, rfl⟩⟩
          · rw [httpParseUrl_ret k 0]
            simp
          · rw [httpParseUrl_length]
            simp

/-- A parser call that accepts a line has found three words. -/
theorem firstWords_of_requestLineStep {x : RequestLine} {m : List Byte} {p : Nat}
    (h : requestLineStep k {} (a ++ u) a.length = some (.done, x, m, p)) :
    (∃ eol, findNextEol (a ++ u) a.length = some (some eol)) ∧
      ∃ s₁ w₁ s₂ w₂ s₃ w₃ r₃, FirstWords u s₁ w₁ s₂ w₂ s₃ w₃ r₃ := by
  simp only [requestLineStep, Option.bind_eq_bind, Option.bind_eq_some_iff] at h
  obtain ⟨e, heol, h⟩ := h
  rcases e with _ | eol
  · cases h
  simp only [Option.bind_eq_some_iff] at h
  obtain ⟨⟨t₁, m₁, p₁⟩, h₁, ⟨t₂, m₂, p₂⟩, h₂, ⟨t₃, m₃, p₃⟩, h₃, h⟩ := h
  rcases t₁ with _ | t₁ <;> rcases t₂ with _ | t₂ <;> rcases t₃ with _ | t₃ <;>
    simp only [Option.pure_def, Option.some.injEq, Prod.mk.injEq, reduceCtorEq, false_and] at h
  refine ⟨⟨eol, heol⟩, ?_⟩
  -- each call goes on behind the terminator of the one before
  obtain ⟨s₁, w₁, e₁, r₁, tok₁, -⟩ := getToken_some h₁
  rw [List.drop_left] at tok₁
  rw [getToken_append tok₁, Option.some.injEq, Prod.mk.injEq, Prod.mk.injEq] at h₁
  obtain ⟨-, rfl, rfl⟩ := h₁
  obtain ⟨s₂, w₂, e₂, r₂, tok₂, -⟩ := getToken_some h₂
  rw [List.drop_left] at tok₂
  rw [getToken_append tok₂, Option.some.injEq, Prod.mk.injEq, Prod.mk.injEq] at h₂
  obtain ⟨-, rfl, rfl⟩ := h₂
  obtain ⟨s₃, w₃, e₃, r₃, tok₃, -⟩ := getToken_some h₃
  rw [List.drop_left] at tok₃
  exact ⟨s₁, w₁, s₂, w₂, s₃, w₃, r₃, e₁, r₁, e₂, r₂, e₃, tok₁, tok₂, tok₃⟩

end Step

/-! ## Request lines -/

/-- The method a word names. -/
def methodNamed (w : List Byte) : Option HttpMethod :=
  if strcasecmpEq w (bytes "GET") then some .get
  else if strcasecmpEq w (bytes "POST") then some .post
  else if strcasecmpEq w (bytes "HEAD") then some .head
  else if strcasecmpEq w (bytes "PUT") then some .put
  else none

/-- The version a word names. -/
def versionNamed (w : List Byte) : Option HttpVersion :=
  if w = bytes "HTTP/1.0" then some .v10
  else if w = bytes "HTTP/1.1" then some .v11
  else none

theorem httpMethod_of_named {w : List Byte} {me : HttpMethod} (h : methodNamed w = some me) :
    httpMethod w w.length = some me := by
  -- a word that is the name has its length, so the comparison takes the whole of it
  have hname : ∀ name, strcasecmpEq w name = true →
      w.map tolower = name.map tolower ∧ w.length = name.length := by
    intro name hn
    have heq : w.map tolower = name.map tolower := by simpa [strcasecmpEq] using hn
    exact ⟨heq, by simpa using congrArg List.length heq⟩
  unfold methodNamed at h
  unfold httpMethod strncasecmpEq
  split_ifs at h with h₁ h₂ h₃ h₄
  · obtain ⟨hw, hlen⟩ := hname _ h₁
    cases h
    rw [hw, hlen]
    decide
  · obtain ⟨hw, hlen⟩ := hname _ h₂
    cases h
    rw [hw, hlen]
    decide
  · obtain ⟨hw, hlen⟩ := hname _ h₃
    cases h
    rw [hw, hlen]
    decide
  · obtain ⟨hw, hlen⟩ := hname _ h₄
    cases h
    rw [hw, hlen]
    decide

theorem httpVersion_of_named {w : List Byte} {v : HttpVersion} (h : versionNamed w = some v) :
    httpVersion w = some v := by
  unfold versionNamed at h
  split_ifs at h with h₁ h₂
  · cases h
    rw [h₁]
    decide
  · cases h
    rw [h₂]
    decide

/-- White space within a line. -/
def IsGap (s : List Byte) : Prop := ∀ c ∈ s, isspace c = true ∧ c ≠ LF

def IsWord (w : List Byte) : Prop := w ≠ [] ∧ ∀ c ∈ w, isspace c = false

/-- The string `s` starts with the request line `line`, white space before it included. -/
def RequestLineOf (s : List Byte) (me : HttpMethod) (v : HttpVersion) (line t : List Byte) : Prop :=
  ∃ ws w₁ s₂ w₂ s₃ w₃ s₄, s = line ++ t ∧
    line = ws ++ (w₁ ++ s₂ ++ w₂ ++ s₃ ++ w₃ ++ s₄) ++ [LF] ∧
    (∀ c ∈ ws, isspace c = true) ∧ (IsGap s₂ ∧ s₂ ≠ []) ∧ (IsGap s₃ ∧ s₃ ≠ []) ∧ IsGap s₄ ∧
    (IsWord w₁ ∧ methodNamed w₁ = some me) ∧ (IsWord w₂ ∧ UrlAccepted w₂) ∧
    (IsWord w₃ ∧ versionNamed w₃ = some v)

/-- What `http_parse_request_line` accepts of a string: a line end and three words. -/
def LooseRequestLine (s : List Byte) : Prop :=
  LF ∈ s.dropWhile isspace ∧ ∃ s₁ w₁ s₂ w₂ s₃ w₃ r₃,
    FirstWords (s.dropWhile isspace ++ [NUL]) s₁ w₁ s₂ w₂ s₃ w₃ r₃ ∧ WordsAccepted w₁ w₂ w₃

/-- The first three words of the string are not accepted, or they are the words of a request
    line: within the first line, the only ones in it, the first a whole method name and the
    third a version and nothing else. -/
def RequestLinePlain (s : List Byte) : Prop :=
  LooseRequestLine s → ∃ me v line t, RequestLineOf s me v line t

/-- The string `s` is what the buffer has of the stream; a zero byte follows. -/
structure Buf.Received (b : Buf) (pre s : List Byte) (n : Nat) : Prop where
  mem : b.mem = pre ++ (s ++ List.replicate (n + 1) NUL)
  pos : b.pos = pre.length
  last : b.last = pre.length + s.length

/-- Acceptance of the string `s` is exact. -/
structure RequestLineExact (k : Nat) (h : Heap) (s : List Byte) : Prop where
  done_iff : (∃ x h', httpParseRequestLine k {} h = some (.done, x, h')) ↔
    ∃ me v line t, RequestLineOf s me v line t
  result : ∀ x h' me v line t, httpParseRequestLine k {} h = some (.done, x, h') →
    RequestLineOf s me v line t → x.method = me ∧ x.version = v ∧
      (h'.buf k).pos = (h.buf k).pos + line.length ∧
      (h'.buf k).mem.drop ((h.buf k).pos + line.length)
        = (h.buf k).mem.drop ((h.buf k).pos + line.length)

section Words

variable {l s₁ w₁ s₂ w₂ s₃ w₃ r₃ : List Byte}

theorem FirstWords.of_zeros (hl : NUL ∉ l) {n : Nat}
    (h : FirstWords (l ++ List.replicate (n + 1) NUL) s₁ w₁ s₂ w₂ s₃ w₃ r₃) :
    ∃ r, FirstWords (l ++ [NUL]) s₁ w₁ s₂ w₂ s₃ w₃ r := by
  obtain ⟨e₁, r₁, e₂, r₂, e₃, h₁, h₂, h₃⟩ := h.words
  have hzeros : ∀ {n ds w e rest}, ¬ TokenAt isspace (List.replicate n NUL) ds w e rest := by
    intro n ds w e rest h
    have hmem : ∀ x ∈ ds ++ w, x = NUL := by
      intro x hx
      refine List.eq_of_mem_replicate (n := n) ?_
      rw [h.eq, ← List.append_assoc]
      exact List.mem_append_left _ hx
    obtain ⟨c, cs, hw⟩ := List.exists_cons_of_ne_nil h.ne_nil
    have hc : c ∈ w := by simp [hw]
    exact (h.word c hc).1 (hmem c (by simp [hc]))
  rw [List.replicate_succ] at h₁
  rcases h₁.of_append hl with ⟨l₁, rfl, hl₁, h₁'⟩ | ⟨rfl, -⟩
  case inr => exact absurd h₂ hzeros
  rcases h₂.of_append hl₁ with ⟨l₂, rfl, hl₂, h₂'⟩ | ⟨rfl, -⟩
  case inr => exact absurd h₃ hzeros
  rcases h₃.of_append hl₂ with ⟨l₃, -, -, h₃'⟩ | ⟨-, h₃'⟩
  · exact ⟨_, _, _, _, _, _, h₁', h₂', h₃'⟩
  · exact ⟨_, _, _, _, _, _, h₁', h₂', h₃'⟩

theorem FirstWords.zeros (h : FirstWords (l ++ [NUL]) s₁ w₁ s₂ w₂ s₃ w₃ r₃) (n : Nat) :
    ∃ r, FirstWords (l ++ List.replicate (n + 1) NUL) s₁ w₁ s₂ w₂ s₃ w₃ r := by
  obtain ⟨e₁, r₁, e₂, r₂, e₃, h₁, h₂, h₃⟩ := h.words
  have h₁' := h₁.append (List.replicate n NUL)
  rw [List.append_assoc, List.singleton_append, ← List.replicate_succ] at h₁'
  exact ⟨_, _, _, _, _, _, h₁', h₂.append _, h₃.append _⟩

end Words

/-! ## The words of a request line -/

/-- A request line without the white space before it: its words, and what they leave. -/
structure LineWords (l body t w₁ s₂ w₂ s₃ w₃ r : List Byte) : Prop where
  eq : l = body ++ LF :: t
  noLf : LF ∉ body
  first : ∀ z, FirstWords (l ++ z) [] w₁ s₂ w₂ s₃ w₃ (r ++ (t ++ z))
  length : body.length
    = w₁.length + s₂.length + w₂.length + s₃.length + w₃.length + r.length + 2

theorem RequestLineOf.words {s line t : List Byte} {me : HttpMethod} {v : HttpVersion}
    (hs : NUL ∉ s) (h : RequestLineOf s me v line t) :
    ∃ ws body w₁ s₂ w₂ s₃ w₃ r, line = ws ++ body ++ [LF] ∧ (∀ c ∈ ws, isspace c = true) ∧
      s = ws ++ s.dropWhile isspace ∧
      LineWords (s.dropWhile isspace) body t w₁ s₂ w₂ s₃ w₃ r ∧
      methodNamed w₁ = some me ∧ UrlAccepted w₂ ∧ versionNamed w₃ = some v := by
  obtain ⟨ws, w₁, s₂, w₂, s₃, w₃, s₄, rfl, rfl, hws, ⟨hs₂, hne₂⟩, ⟨hs₃, hne₃⟩, hs₄,
    ⟨hw₁, hme⟩, ⟨hw₂, hurl⟩, ⟨hw₃, hv⟩⟩ := h
  obtain ⟨e₁, s₂, rfl⟩ := List.exists_cons_of_ne_nil hne₂
  obtain ⟨e₂, s₃, rfl⟩ := List.exists_cons_of_ne_nil hne₃
  obtain ⟨e₃, r, hr⟩ : ∃ e₃ r, s₄ ++ [LF] = e₃ :: r := by
    rcases s₄ with _ | ⟨c, s₄⟩
    · exact ⟨LF, [], rfl⟩
    · exact ⟨c, s₄ ++ [LF], rfl⟩
  have he₃ : isspace e₃ = true := by
    rcases s₄ with _ | ⟨c, s₄⟩
    · cases hr
      rfl
    · cases hr
      exact (hs₄ e₃ (by simp)).1
  -- a word has neither white space nor a zero byte, a gap has white space only
  have hword : ∀ {w : List Byte}, IsWord w → (∀ c ∈ w, c ∈ w₁ ++ w₂ ++ w₃) →
      ∀ x ∈ w, x ≠ NUL ∧ isspace x = false := by
    intro w hw hsub x hx
    refine ⟨fun h => hs ?_, hw.2 x hx⟩
    have := hsub x hx
    subst h
    simp only [List.mem_append] at this
    simp only [List.mem_append, List.mem_cons]
    tauto
  have hgap : ∀ {g : List Byte}, IsGap g → ∀ x ∈ g, x ≠ NUL ∧ isspace x = true :=
    fun hg x hx => ⟨ne_NUL_of_isspace (hg x hx).1, (hg x hx).1⟩
  have hdrop : (ws ++ (w₁ ++ e₁ :: s₂ ++ w₂ ++ e₂ :: s₃ ++ w₃ ++ s₄) ++ [LF] ++ t).dropWhile isspace
      = (w₁ ++ e₁ :: s₂ ++ w₂ ++ e₂ :: s₃ ++ w₃ ++ s₄) ++ LF :: t := by
    obtain ⟨c, cs, rfl⟩ := List.exists_cons_of_ne_nil hw₁.1
    have hc := hw₁.2 c (by simp)
    rw [List.append_assoc, List.append_assoc, List.dropWhile_append_of_pos hws]
    simp [hc]
  -- so the first line feed is the end of the line
  have hlf : LF ∉ w₁ ++ e₁ :: s₂ ++ w₂ ++ e₂ :: s₃ ++ w₃ ++ s₄ := by
    have hw : ∀ {w : List Byte}, IsWord w → LF ∉ w := fun hw h => by
      have := hw.2 LF h
      cases this
    have hg : ∀ {g : List Byte}, IsGap g → LF ∉ g := fun hg h => (hg LF h).2 rfl
    simp only [List.mem_append, not_or]
    exact ⟨⟨⟨⟨⟨hw hw₁, hg hs₂⟩, hw hw₂⟩, hg hs₃⟩, hw hw₃⟩, hg hs₄⟩
  refine ⟨ws, _, w₁, s₂, w₂, s₃, w₃, r, rfl, hws, ?_, ⟨hdrop, hlf, fun z => ?_, ?_⟩, hme, hurl, hv⟩
  · rw [hdrop]
    simp
  · rw [hdrop]
    have hsplit : (w₁ ++ e₁ :: s₂ ++ w₂ ++ e₂ :: s₃ ++ w₃ ++ s₄) ++ LF :: t ++ z
        = w₁ ++ (e₁ :: (s₂ ++ (w₂ ++ (e₂ :: (s₃ ++ (w₃ ++ (e₃ :: (r ++ (t ++ z))))))))) := by
      rw [show e₃ :: (r ++ (t ++ z)) = (s₄ ++ [LF]) ++ (t ++ z) by rw [hr]; rfl]
      simp
    rw [hsplit]
    refine ⟨e₁, _, e₂, _, e₃, ⟨rfl, nofun, hw₁.1, ?_, .inr (hs₂ e₁ (by simp)).1⟩,
      ⟨rfl, hgap fun x hx => hs₂ x (by simp [hx]), hw₂.1, ?_, .inr (hs₃ e₂ (by simp)).1⟩,
      ⟨rfl, hgap fun x hx => hs₃ x (by simp [hx]), hw₃.1, ?_, .inr he₃⟩⟩
    · exact hword hw₁ fun c hc => by simp [hc]
    · exact hword hw₂ fun c hc => by simp [hc]
    · exact hword hw₃ fun c hc => by simp [hc]
  · have hlen := congrArg List.length hr
    simp only [List.length_append, List.length_cons, List.length_nil] at hlen ⊢
    omega

/-- The parts of a request line are accepted. -/
theorem RequestLineOf.loose {s line t : List Byte} {me : HttpMethod} {v : HttpVersion}
    (hs : NUL ∉ s) (h : RequestLineOf s me v line t) : LooseRequestLine s := by
  obtain ⟨ws, body, w₁, s₂, w₂, s₃, w₃, r, -, -, -, hl, hme, hurl, hv⟩ := h.words hs
  refine ⟨?_, [], w₁, s₂, w₂, s₃, w₃, _, hl.first [NUL], ?_, ?_, hurl⟩
  · rw [hl.eq]
    simp
  · rw [httpVersion_of_named hv]
    rfl
  · rw [httpMethod_of_named hme]
    rfl

/-! ## The parser on its buffer -/

section Buffer

variable {k n : Nat} {h : Heap} {pre s : List Byte}

/-- The parser skips the white space before the line. -/
theorem httpParseRequestLine_skip (hb : (h.buf k).Received pre s n) {ws l : List Byte}
    (hs : s = ws ++ l) (hws : ∀ c ∈ ws, isspace c = true) (hl : ∀ c b, l = c :: b → isspace c = false) :
    httpParseRequestLine k {} h
      = (requestLineStep k {} ((pre ++ ws) ++ (l ++ List.replicate (n + 1) NUL))
          (pre ++ ws).length).map fun y =>
          (y.1, y.2.1, h.setBuf k { h.buf k with mem := y.2.2.1, pos := y.2.2.2 }) := by
  obtain ⟨c, b, hcb⟩ : ∃ c b, l ++ List.replicate (n + 1) NUL = c :: b := by
    rcases l with _ | ⟨c, b⟩
    · exact ⟨_, _, rfl⟩
    · exact ⟨_, _, rfl⟩
  have hc : isspace c = false := by
    rcases l with _ | ⟨d, b⟩
    · cases hcb
      rfl
    · cases hcb
      exact hl c _ rfl
  have hmem : (h.buf k).mem = pre ++ (ws ++ c :: b) := by
    rw [hb.mem, hs, List.append_assoc, hcb]
  have hskip : skipSpace (h.buf k).mem (h.buf k).pos (h.buf k).last = some (pre ++ ws).length := by
    rw [hmem, hb.pos, hb.last]
    refine skipSpace_append hws ?_ (.inl hc)
    rw [hs]
    simp only [List.length_append]
    omega
  have hblock : (h.buf k).mem = (pre ++ ws) ++ (l ++ List.replicate (n + 1) NUL) := by
    rw [hmem, hcb]
    simp
  simp only [httpParseRequestLine, parseFirstLine, Option.bind_eq_bind, hskip, Option.bind_some]
  rw [hblock]
  cases requestLineStep k {} ((pre ++ ws) ++ (l ++ List.replicate (n + 1) NUL)) (pre ++ ws).length <;>
    rfl

/-- There is a line end if there is one among the bytes received. -/
theorem findNextEol_zeros {a l : List Byte} (hl : NUL ∉ l) :
    (∃ eol, findNextEol (a ++ (l ++ List.replicate (n + 1) NUL)) a.length = some (some eol)) ↔
      LF ∈ l := by
  constructor
  · rintro ⟨eol, h⟩
    obtain ⟨x, y, hxy, -⟩ := findNextEol_some_iff.mp h
    rw [List.drop_left] at hxy
    have hmem : LF ∈ l ++ List.replicate (n + 1) NUL := by
      rw [hxy]
      simp
    rcases List.mem_append.mp hmem with hmem | hmem
    · exact hmem
    · cases List.eq_of_mem_replicate hmem
  · intro h
    obtain ⟨x, y, rfl, hx⟩ := List.eq_append_cons_of_mem h
    refine ⟨_, findNextEol_some_iff.mpr ⟨x, y ++ List.replicate (n + 1) NUL, ?_, rfl, hx, ?_⟩⟩
    · rw [List.drop_left]
      simp
    · exact fun hmem => hl (by simp [hmem])

/-- The string as the parser finds it: white space, then the line. -/
theorem exists_whiteFront (s : List Byte) :
    ∃ ws, s = ws ++ s.dropWhile isspace ∧ (∀ c ∈ ws, isspace c = true) ∧
      ∀ c b, s.dropWhile isspace = c :: b → isspace c = false := by
  refine ⟨s.takeWhile isspace, (List.takeWhile_append_dropWhile).symm,
    fun c hc => List.mem_takeWhile_imp hc, fun c b hcb => ?_⟩
  have := List.head?_dropWhile_not isspace s
  rw [hcb] at this
  simpa using this

theorem notMem_dropWhile (hs : NUL ∉ s) : NUL ∉ s.dropWhile isspace :=
  fun hmem => hs ((List.dropWhile_suffix isspace).subset hmem)

/-- The parser accepts the strings with a line end and three accepted words. -/
theorem httpParseRequestLine_done_iff (hb : (h.buf k).Received pre s n) (hs : NUL ∉ s) :
    (∃ x h', httpParseRequestLine k {} h = some (.done, x, h')) ↔ LooseRequestLine s := by
  obtain ⟨ws, hsplit, hws, hl⟩ := exists_whiteFront s
  have hz := notMem_dropWhile hs
  rw [httpParseRequestLine_skip hb hsplit hws hl]
  constructor
  · rintro ⟨x, h', hcall⟩
    simp only [Option.map_eq_some_iff, Prod.mk.injEq] at hcall
    obtain ⟨⟨ret, x', m, p⟩, hstep, rfl, -, -⟩ := hcall
    obtain ⟨⟨eol, heol⟩, s₁, w₁, s₂, w₂, s₃, w₃, r₃, hwords⟩ := firstWords_of_requestLineStep hstep
    obtain ⟨ret', x'', m', hstep', hdone, -⟩ := requestLineStep_firstWords (k := k) heol hwords
    rw [hstep, Option.some.injEq, Prod.mk.injEq] at hstep'
    obtain ⟨r, hr⟩ := hwords.of_zeros hz
    refine ⟨?_, s₁, w₁, s₂, w₂, s₃, w₃, r, hr, hdone.mp hstep'.1.symm⟩
    exact (findNextEol_zeros hz).mp ⟨eol, heol⟩
  · rintro ⟨hlf, s₁, w₁, s₂, w₂, s₃, w₃, r, hwords, hacc⟩
    obtain ⟨r', hwords'⟩ := hwords.zeros n
    obtain ⟨eol, heol⟩ := (findNextEol_zeros (a := pre ++ ws) (n := n) hz).mpr hlf
    obtain ⟨ret, x, m, hstep, hdone, -⟩ := requestLineStep_firstWords (k := k) heol hwords'
    rw [hdone.mpr hacc] at hstep
    exact ⟨x, _, by rw [hstep]; rfl⟩

/-- On a request line the parser finds its method and its version, and leaves what follows
    the line as it is. -/
theorem httpParseRequestLine_result (hk : k < h.bufs.length) (hb : (h.buf k).Received pre s n)
    (hs : NUL ∉ s) {me : HttpMethod} {v : HttpVersion} {line t : List Byte} {x : RequestLine}
    {h' : Heap} (hline : RequestLineOf s me v line t)
    (hcall : httpParseRequestLine k {} h = some (.done, x, h')) :
    x.method = me ∧ x.version = v ∧ (h'.buf k).pos = (h.buf k).pos + line.length ∧
      (h'.buf k).mem.drop ((h.buf k).pos + line.length)
        = (h.buf k).mem.drop ((h.buf k).pos + line.length) := by
  obtain ⟨-, -, -, hl⟩ := exists_whiteFront s
  obtain ⟨ws, body, w₁, s₂, w₂, s₃, w₃, r, hline, hws, hsplit, hwords, hme, hurl, hv⟩ :=
    hline.words hs
  have heol : findNextEol ((pre ++ ws) ++ (s.dropWhile isspace ++ List.replicate (n + 1) NUL))
      (pre ++ ws).length = some (some ((pre ++ ws).length + body.length)) := by
    have hz := notMem_dropWhile hs
    rw [hwords.eq] at hz ⊢
    refine findNextEol_some_iff.mpr ⟨body, t ++ List.replicate (n + 1) NUL, ?_, rfl, hwords.noLf,
      fun hmem => hz (by simp [hmem])⟩
    rw [List.drop_left]
    simp
  obtain ⟨ret, x', m, hstep, -, hres⟩ :=
    requestLineStep_firstWords (k := k) heol (hwords.first (List.replicate (n + 1) NUL))
  rw [httpParseRequestLine_skip hb hsplit hws hl, hstep] at hcall
  simp only [Option.map_some, Option.some.injEq, Prod.mk.injEq] at hcall
  obtain ⟨rfl, rfl, rfl⟩ := hcall
  obtain ⟨hme', hv', u, hu, hm⟩ := hres rfl
  rw [httpMethod_of_named hme, Option.some.injEq] at hme'
  rw [httpVersion_of_named hv, Option.some.injEq] at hv'
  have hlen : (h.buf k).pos + line.length = (pre ++ ws).length + body.length + 1 := by
    rw [hb.pos, hline]
    simp only [List.length_append, List.length_singleton]
    omega
  refine ⟨hme'.symm, hv'.symm, ?_, ?_⟩
  · rw [Heap.buf_setBuf hk, hlen]
  · -- behind the line stands what stood there
    rw [Heap.buf_setBuf hk, hlen]
    dsimp only
    have hbefore : ((pre ++ ws) ++ [] ++ w₁ ++ [NUL] ++ s₂ ++ u ++ (s₃ ++ w₃ ++ [NUL] ++ r)).length
        = (pre ++ ws).length + body.length + 1 := by
      have := hwords.length
      simp only [List.length_append, List.length_singleton, List.length_nil, hu]
      omega
    have hmem : m = ((pre ++ ws) ++ [] ++ w₁ ++ [NUL] ++ s₂ ++ u ++ (s₃ ++ w₃ ++ [NUL] ++ r)) ++
        (t ++ List.replicate (n + 1) NUL) := by
      rw [hm]
      simp
    have hold : (h.buf k).mem = (pre ++ ws ++ body ++ [LF]) ++ (t ++ List.replicate (n + 1) NUL) := by
      rw [hb.mem, hsplit, hwords.eq]
      simp
    rw [hmem, List.drop_left' hbefore, hold, List.drop_left' (by simp only [List.length_append,
      List.length_singleton])]

/-- Acceptance is exact exactly when what is accepted of the string is a request line. -/
theorem httpParseRequestLine_exact_iff (hk : k < h.bufs.length)
    (hb : (h.buf k).Received pre s n) (hs : NUL ∉ s) :
    RequestLineExact k h s ↔ RequestLinePlain s := by
  have hdone := httpParseRequestLine_done_iff hb hs
  constructor
  · exact fun hexact hloose => hexact.done_iff.mp (hdone.mpr hloose)
  · intro hcond
    refine ⟨⟨fun h => hcond (hdone.mp h), ?_⟩, fun x h' me v line t hcall hline => ?_⟩
    · rintro ⟨me, v, line, t, hline⟩
      exact hdone.mpr (hline.loose hs)
    · exact httpParseRequestLine_result hk hb hs hline hcall

/-- A header buffer with the bytes `s`. -/
def bufferOf (s : List Byte) : Heap := { bufs := [⟨s ++ [NUL], 0, s.length, s.length⟩] }

set_option maxRecDepth 2000 in
/-- A request line alone. -/
theorem requestLineOf_get :
    RequestLineOf (bytes "GET / HTTP/1.1\r\n") .get .v11 (bytes "GET / HTTP/1.1\r\n") [] := by
  refine ⟨[], bytes "GET", [SP], bytes "/", [SP], bytes "HTTP/1.1", [CR], by decide, by decide,
    by simp, ⟨?_, by decide⟩, ⟨?_, by decide⟩, ?_, ⟨⟨by decide, by decide⟩, by decide⟩,
    ⟨⟨by decide, by decide⟩, ?_⟩, ⟨⟨by decide, by decide⟩, by decide⟩⟩
  · unfold IsGap; decide
  · unfold IsGap; decide
  · unfold IsGap; decide
  · unfold UrlAccepted; decide

theorem httpParseRequestLine_exact_get :
    RequestLineExact 0 (bufferOf (bytes "GET / HTTP/1.1\r\n")) (bytes "GET / HTTP/1.1\r\n") :=
  (httpParseRequestLine_exact_iff (by decide)
    (show Buf.Received _ [] _ 0 from ⟨rfl, rfl, by decide⟩) (by decide)).mpr
    fun _ => ⟨_, _, _, _, requestLineOf_get⟩

/-- `G` is taken for `GET`. -/
theorem not_exact_prefix :
    ¬ RequestLineExact 0 (bufferOf (bytes "G / HTTP/1.1\n")) (bytes "G / HTTP/1.1\n") := by
  intro h
  have hdone : (httpParseRequestLine 0 {} (bufferOf (bytes "G / HTTP/1.1\n"))).map (·.1)
      = some .done := by decide
  obtain ⟨⟨ret, x, h'⟩, hcall, rfl⟩ := Option.map_eq_some_iff.mp hdone
  obtain ⟨me, v, line, t, hline⟩ := h.done_iff.mp ⟨x, h', hcall⟩
  obtain ⟨-, body, w₁, s₂, w₂, s₃, w₃, r, -, -, -, hwords, hme, -⟩ := hline.words (by decide)
  obtain ⟨e₁, r₁, -, -, -, htok, -⟩ := (hwords.first []).words
  have heq : 71 :: 32 :: (bytes "/ HTTP/1.1\n" ++ []) = w₁ ++ e₁ :: r₁ := htok.eq
  -- the first word is `G`
  rcases w₁ with _ | ⟨a, _ | ⟨b, w⟩⟩
  · exact htok.ne_nil rfl
  · obtain rfl : a = 71 := (List.cons.inj heq).1.symm
    have hnone : methodNamed [71] = none := by decide
    rw [hnone] at hme
    cases hme
  · obtain rfl : b = 32 := (List.cons.inj (List.cons.inj heq).2).1.symm
    have := (htok.word 32 (by simp)).2
    cases this

end Buffer

end XwpServer
