/-
  XwpServer.HeadBounds

  Which bytes of the header buffer the line parsers touch.

  Behind the received bytes the buffer is zero up to and including its sentinel at
  `end`, and the parsers write zero bytes only.  A scan therefore stops at the sentinel
  at the latest.  But `get_token` leaves its cursor one byte behind the place where it
  stopped, and a token that stops at the sentinel leaves it behind the buffer.
-/

import XwpServer.DecidedHead
import XwpServer.HeadTable
import XwpServer.RequestLine

namespace XwpServer

open CString Scan

/-! ## Writing zero bytes -/

/-- `m'` is `m` with zero bytes written over some of its bytes. -/
structure Zeroed (m m' : List Byte) : Prop where
  length_eq : m'.length = m.length
  byte : ∀ i : Nat, m'[i]? = m[i]? ∨ m'[i]? = some NUL

theorem Zeroed.refl (m : List Byte) : Zeroed m m := ⟨rfl, fun _ => .inl rfl⟩

theorem Zeroed.trans {m m' m'' : List Byte} (h : Zeroed m m') (h' : Zeroed m' m'') :
    Zeroed m m'' := by
  refine ⟨h'.length_eq.trans h.length_eq, fun i => ?_⟩
  rcases h'.byte i with heq | hz
  · rw [heq]
    exact h.byte i
  · exact .inr hz

theorem Zeroed.set (m : List Byte) (i : Nat) : Zeroed m (m.set i NUL) := by
  refine ⟨List.length_set, fun j => ?_⟩
  rw [List.getElem?_set]
  split
  · split
    · exact .inr rfl
    · exact .inl (by rw [List.getElem?_eq_none]; omega)
  · exact .inl rfl

/-- Zero bytes stay zero. -/
theorem Zeroed.drop {m m' : List Byte} (h : Zeroed m m') {i n : Nat}
    (hz : m.drop i = zeros n) : m'.drop i = zeros n := by
  have hlen : (m'.drop i).length = n := by
    rw [List.length_drop, h.length_eq, ← List.length_drop, hz, List.length_replicate]
  apply List.eq_replicate_iff.mpr
  refine ⟨hlen, fun x hx => ?_⟩
  obtain ⟨j, hj⟩ := List.mem_iff_getElem?.mp hx
  rw [List.getElem?_drop] at hj
  rcases h.byte (i + j) with heq | hnul
  · rw [heq, ← List.getElem?_drop, hz] at hj
    exact List.eq_of_mem_replicate (List.mem_of_getElem? hj)
  · rw [hnul] at hj
    exact (Option.some.inj hj).symm

theorem getToken_zeroed {isDelim : Byte → Bool} {m m' : List Byte} {pos pos' : Nat}
    {t : Option Tok} (h : getToken isDelim m pos = some (t, m', pos')) : Zeroed m m' := by
  cases t with
  | none => rw [(getToken_none h).1]; exact .refl m
  | some t =>
      obtain ⟨ds, w, e, rest, -, -, rfl, -⟩ := getToken_some h
      exact .set _ _

theorem trimName_zeroed (m : List Byte) (name : Tok) : Zeroed m (trimName m name).2 := .set _ _

theorem headerRest_zeroed {m m' : List Byte} {name : Tok} {pos eol : Nat} {s : HeaderStep}
    (h : headerRest m name pos eol = some s)
    (hs : (∃ p, s = .fail m' p) ∨ ∃ n v p, s = .header m' n v p) : Zeroed m m' := by
  simp only [headerRest, headerValue, Option.bind_eq_bind, Option.bind_eq_some_iff] at h
  obtain ⟨q, -, c, -, h⟩ := h
  rcases hs with ⟨p, rfl⟩ | ⟨n, v, p, rfl⟩ <;> split_ifs at h
  · simp only [Option.pure_def, Option.some.injEq, HeaderStep.fail.injEq] at h
    exact h.1 ▸ .refl m
  · simp at h
  · simp only [Option.bind_eq_some_iff] at h
    obtain ⟨e, -, h⟩ := h
    split_ifs at h <;> simp at h
  · simp at h
  · simp only [Option.pure_def, Option.some.injEq, HeaderStep.header.injEq] at h
    exact h.1 ▸ .refl m
  · simp only [Option.bind_eq_some_iff] at h
    obtain ⟨e, -, h⟩ := h
    split_ifs at h <;>
      simp only [Option.pure_def, Option.some.injEq, HeaderStep.header.injEq] at h <;>
      exact h.1 ▸ .set _ _

/-- A round of the header loop writes zero bytes only. -/
theorem headerStep_zeroed {m m' : List Byte} {pos : Nat} {s : HeaderStep}
    (h : headerStep m pos = some s)
    (hs : (∃ p, s = .fail m' p) ∨ ∃ n v p, s = .header m' n v p) : Zeroed m m' := by
  -- the exits in their order; the first that writes is behind `get_token`
  simp only [headerStep, Option.bind_eq_bind, Option.bind_eq_some_iff] at h
  obtain ⟨e, -, h⟩ := h
  rcases e with _ | eol
  · rcases hs with ⟨p, rfl⟩ | ⟨n, v, p, rfl⟩ <;> simp at h
  simp only at h
  split at h
  · rcases hs with ⟨p, rfl⟩ | ⟨n, v, p, rfl⟩ <;> simp at h
  simp only [Option.bind_eq_some_iff] at h
  obtain ⟨q, -, c, -, h⟩ := h
  split at h
  · rcases hs with ⟨p, rfl⟩ | ⟨n, v, p, rfl⟩
    · simp only [Option.pure_def, Option.some.injEq, HeaderStep.fail.injEq] at h
      exact h.1 ▸ .refl m
    · simp at h
  split at h
  · rcases hs with ⟨p, rfl⟩ | ⟨n, v, p, rfl⟩ <;> simp at h
  simp only [Option.bind_eq_some_iff] at h
  obtain ⟨⟨_ | tok, m₁, p₁⟩, ht, h⟩ := h
  · rcases hs with ⟨p, rfl⟩ | ⟨n, v, p, rfl⟩
    · simp only [Option.pure_def, Option.some.injEq, HeaderStep.fail.injEq] at h
      exact h.1 ▸ getToken_zeroed ht
    · simp at h
  · exact (getToken_zeroed ht).trans ((trimName_zeroed _ _).trans (headerRest_zeroed h hs))

theorem httpParseUrl_zeroed (id : Nat) (m : List Byte) (out : Url) (url : Tok) :
    Zeroed m (httpParseUrl id m out url).2.1 := by
  -- a part of the URL writes its terminator, or nothing
  have hpath : ∀ k m out, Zeroed m (urlPath id url k m out).1 := by
    intro k m out
    unfold urlPath
    split
    · exact .set _ _
    · exact .refl m
  have hquery : ∀ k m out, Zeroed m (urlQuery id url k m out).1 := by
    intro k m out
    unfold urlQuery
    split
    · exact .set _ _
    · exact .refl m
  have hschema : ∀ k m out m' out', urlSchema id url k m out = some (m', out') → Zeroed m m' := by
    intro k m out m' out' h
    unfold urlSchema at h
    split at h
    · simp only [Option.some.injEq, Prod.mk.injEq] at h
      exact h.1 ▸ .set _ _
    · cases h
    · simp only [Option.some.injEq, Prod.mk.injEq] at h
      exact h.1 ▸ .refl m
  unfold httpParseUrl
  simp only
  split
  · exact .refl m
  · unfold urlRecord
    split
    · exact .refl m
    · next m₁ out₁ hs =>
      have h₁ := hschema _ _ _ _ _ hs
      split
      · exact h₁
      · split
        · exact h₁
        · exact (h₁.trans (hpath _ _ _)).trans (hquery _ _ _)

theorem Zeroed.nul {m m' : List Byte} (h : Zeroed m m') {i : Nat} (hi : m[i]? = some NUL) :
    m'[i]? = some NUL := by
  rcases h.byte i with heq | hz
  · rw [heq, hi]
  · exact hz

/-! ## Words up to the end of the text -/

/-- One of the first `n` words reaches the end of the text. -/
inductive WordsRunOut : Nat → List Byte → Prop
  | here {n ds w} (hds : ∀ x ∈ ds, isspace x = true) (hne : w ≠ [])
      (hw : ∀ x ∈ w, x ≠ NUL ∧ isspace x = false) : WordsRunOut (n + 1) (ds ++ w)
  | later {n v ds w e rest} (htok : TokenAt isspace v ds w e rest) (hrest : WordsRunOut n rest) :
      WordsRunOut (n + 1) v

/-- What a text starts with: a word and what ends it, a word up to its end, or no word. -/
theorem word_cases (v : List Byte) :
    (∃ ds w e rest, TokenAt isspace v ds w e rest) ∨
      (∃ ds w, v = ds ++ w ∧ (∀ x ∈ ds, isspace x = true) ∧ w ≠ [] ∧
        ∀ x ∈ w, x ≠ NUL ∧ isspace x = false) ∨
      ∃ ws b, v = ws ++ b ∧ (∀ x ∈ ws, isspace x = true) ∧ (b = [] ∨ ∃ b', b = NUL :: b') := by
  -- behind the white space: nothing, a zero byte, or the first byte of a word
  obtain ⟨ds, u, rfl, hds, hu⟩ := exists_span isspace v
  cases u with
  | nil => exact .inr (.inr ⟨ds, [], rfl, hds, .inl rfl⟩)
  | cons c u =>
      have hc := hu c u rfl
      by_cases hz : c = NUL
      · exact .inr (.inr ⟨ds, NUL :: u, by rw [hz], hds, .inr ⟨u, rfl⟩⟩)
      obtain ⟨w, b, rfl, hw, hb⟩ := exists_span (fun x => x != NUL && !isspace x) u
      have hword : ∀ x ∈ c :: w, x ≠ NUL ∧ isspace x = false := by
        intro x hx
        rcases List.mem_cons.mp hx with rfl | hx
        · exact ⟨hz, hc⟩
        · simpa using hw x hx
      cases b with
      | nil => exact .inr (.inl ⟨ds, c :: w, by simp, hds, by simp, hword⟩)
      | cons e b =>
          refine .inl ⟨ds, c :: w, e, b, by simp, ?_, by simp, hword, ?_⟩
          · exact fun x hx => ⟨ne_NUL_of_isspace (hds x hx), hds x hx⟩
          · have he := hb e b rfl
            by_cases hez : e = NUL
            · exact .inl hez
            · exact .inr (by simpa [hez] using he)

/-- A text in which no word starts. -/
theorem not_wordsRunOut {n : Nat} {ws b : List Byte} (hws : ∀ x ∈ ws, isspace x = true)
    (hb : b = [] ∨ ∃ b', b = NUL :: b') : ¬ WordsRunOut n (ws ++ b) := by
  -- white space and then a zero byte, or the end, is not white space and then a word
  have hstart : ∀ ds c u, (∀ x ∈ ds, isspace x = true) → c ≠ NUL → isspace c = false →
      ws ++ b ≠ ds ++ c :: u := by
    intro ds c u hds hz hc heq
    have hspan := span_unique (p := isspace) heq hws
      (by rintro y l rfl
          rcases hb with hb | ⟨b', hb⟩ <;> simp only [reduceCtorEq, List.cons.injEq] at hb
          rw [hb.1]
          rfl)
      hds (by
        intro y l hy
        simp only [List.cons.injEq] at hy
        rw [← hy.1]
        exact hc)
    rcases hb with rfl | ⟨b', rfl⟩
    · exact absurd hspan.2 (by simp)
    · simp only [List.cons.injEq] at hspan
      exact hz hspan.2.1.symm
  intro hout
  generalize hv : ws ++ b = v at hout
  cases hout with
  | @here n ds w hds hne hw =>
      obtain ⟨c, w, rfl⟩ := List.exists_cons_of_ne_nil hne
      exact hstart ds c w hds (hw c (by simp)).1 (hw c (by simp)).2 hv
  | @later n v ds w e rest htok hrest =>
      obtain ⟨heq, hds, hne, hw, -⟩ := htok
      obtain ⟨c, w, rfl⟩ := List.exists_cons_of_ne_nil hne
      exact hstart ds c _ (fun x hx => (hds x hx).2) (hw c (by simp)).1 (hw c (by simp)).2
        (hv.trans heq)

section Tokens

variable {a v : List Byte} {j n : Nat}

/-- A word that reaches the end of the text is ended by the first zero byte. -/
theorem tokenAt_runOut {ds w : List Byte} (hds : ∀ x ∈ ds, isspace x = true) (hne : w ≠ [])
    (hw : ∀ x ∈ w, x ≠ NUL ∧ isspace x = false) (j : Nat) :
    TokenAt isspace (ds ++ w ++ zeros (j + 1)) ds w NUL (zeros j) :=
  ⟨by rw [List.append_assoc]; rfl, fun x hx => ⟨ne_NUL_of_isspace (hds x hx), hds x hx⟩, hne, hw,
    .inl rfl⟩

/-- `get_token` on a text with zero bytes behind it finds their first one at the latest. -/
theorem getToken_total : ∃ y, getToken isspace (a ++ (v ++ zeros (j + 1))) a.length = some y := by
  rcases word_cases v with ⟨ds, w, e, rest, htok⟩ | ⟨ds, w, rfl, hds, hne, hw⟩ |
    ⟨ws, b, rfl, hws, hb⟩
  · exact ⟨_, getToken_append (htok.append _)⟩
  · exact ⟨_, getToken_append (tokenAt_runOut hds hne hw j)⟩
  · obtain ⟨b', hb'⟩ : ∃ b', b ++ zeros (j + 1) = NUL :: b' := by
      rcases hb with rfl | ⟨b', rfl⟩
      · exact ⟨zeros j, rfl⟩
      · exact ⟨_, rfl⟩
    rw [List.append_assoc, hb']
    exact ⟨_, getToken_missing hws⟩

/-- The next word can be looked for as well, if the first one does not end at the last zero
    byte. -/
theorem getToken_step (hout : j = 0 → ¬ WordsRunOut (n + 1) v) :
    ∃ t a' v' j', getToken isspace (a ++ (v ++ zeros (j + 1))) a.length
        = some (t, a' ++ (v' ++ zeros (j' + 1)), a'.length) ∧
      (j' = 0 → ¬ WordsRunOut n v') := by
  rcases word_cases v with ⟨ds, w, e, rest, htok⟩ | ⟨ds, w, rfl, hds, hne, hw⟩ |
    ⟨ws, b, rfl, hws, hb⟩
  · refine ⟨_, _, rest, j, getToken_append (htok.append _), ?_⟩
    exact fun hj hrest => hout hj (.later htok hrest)
  · cases j with
    | zero => exact absurd (.here hds hne hw) (hout rfl)
    | succ j =>
        refine ⟨_, _, [], j, getToken_append (tokenAt_runOut hds hne hw (j + 1)), ?_⟩
        exact fun _ => @not_wordsRunOut n [] [] (by simp) (.inl rfl)
  · obtain ⟨b', hb'⟩ : ∃ b', b ++ zeros (j + 1) = NUL :: b' := by
      rcases hb with rfl | ⟨b', rfl⟩
      · exact ⟨zeros j, rfl⟩
      · exact ⟨_, rfl⟩
    refine ⟨none, a, ws ++ b, j, ?_, fun _ => not_wordsRunOut hws hb⟩
    rw [List.append_assoc, hb']
    exact getToken_missing hws

theorem strAt_of_nul {m : List Byte} {off i : Nat} (hi : m[i]? = some NUL) (hle : off ≤ i) :
    ∃ s, strAt m off = some s := by
  obtain ⟨s, b, hs, hword, hb⟩ := exists_span (· != NUL) (m.drop off)
  have hz : NUL ∉ s := fun hmem => by simpa using hword NUL hmem
  cases b with
  | nil =>
      have hmem : NUL ∈ m.drop off := by
        apply List.mem_of_getElem? (i := i - off)
        rw [List.getElem?_drop, Nat.add_sub_cancel' hle, hi]
      rw [hs, List.append_nil] at hmem
      exact absurd hmem hz
  | cons c b =>
      have hc : c = NUL := by simpa using hb c b rfl
      exact ⟨s, strAt_eq_some_iff.mpr ⟨hz, b, by rw [hs, hc]⟩⟩

end Tokens

/-! ## First lines -/

/-- A call for a first line of `n` words may end the words at the sentinel: there is a
    complete line, the buffer is full, and a word that is not the last one reaches the end of
    what was received. -/
def WordBeyond (n : Nat) (b : Buf) (v : List Byte) : Prop :=
  LF ∈ v.takeWhile (· != NUL) ∧ b.last = b.end_ ∧ WordsRunOut n v

section FirstLine

variable {a v : List Byte} {j : Nat}

theorem sentinel_append : (a ++ (v ++ zeros (j + 1)))[(a ++ (v ++ zeros (j + 1))).length - 1]?
    = some NUL := by
  have hlast : a ++ (v ++ zeros (j + 1)) = (a ++ (v ++ zeros j)) ++ [NUL] := by
    simp [List.replicate_succ']
  rw [hlast, List.length_append, List.length_singleton, Nat.add_sub_cancel]
  exact List.getElem?_concat_length

/-- The line end that is found in front of the zero bytes is in the text. -/
theorem findNextEol_text : findNextEol (a ++ (v ++ zeros (j + 1))) a.length = some none ∨
    (LF ∈ v.takeWhile (· != NUL) ∧ ∃ eol,
      findNextEol (a ++ (v ++ zeros (j + 1))) a.length = some (some eol) ∧
        eol < (a ++ v).length) := by
  rcases hline : splitLine v with _ | ⟨l, t⟩
  · exact .inl (findNextEol_of_splitLine_none hline a (zeros j))
  · obtain ⟨y, rfl, rfl, hlf, hz⟩ := splitLine_eq_some_iff.mp hline
    right
    constructor
    · rw [List.takeWhile_append_of_pos fun x hx => by simpa using fun e : x = NUL => hz (e ▸ hx)]
      have hne : LF ≠ NUL := by decide
      simp [hne]
    · have hl : IsLine (y ++ [LF]) := IsLine.of_splitLine hline
      refine ⟨a.length + y.length, ?_, by simp⟩
      have := findNextEol_frame hl.findNextEol a (t ++ zeros (j + 1))
      simpa [List.append_assoc] using this

theorem requestLineFields_total {k : Nat} {l : RequestLine} {m : List Byte}
    {method url version : Tok} {i : Nat} (hi : m[i]? = some NUL) (hv : version.off ≤ i)
    (hm : method.off ≤ i) :
    ∃ ret l' m', requestLineFields k l m method url version = some (ret, l', m') ∧ Zeroed m m' := by
  obtain ⟨vs, hvs⟩ := strAt_of_nul hi hv
  obtain ⟨ms, hms⟩ := strAt_of_nul hi hm
  simp only [requestLineFields, hvs, hms, Option.bind_eq_bind, Option.bind_some]
  split
  · exact ⟨_, _, _, rfl, .refl m⟩
  · split
    · exact ⟨_, _, _, rfl, .refl m⟩
    · exact ⟨_, _, _, rfl, httpParseUrl_zeroed _ _ _ _⟩

/-- A request line is parsed inside the buffer, if none of its first two words ends at the
    sentinel. -/
theorem requestLineStep_inside (k : Nat) (x : RequestLine)
    (hout : LF ∈ v.takeWhile (· != NUL) → j = 0 → ¬ WordsRunOut 2 v) :
    ∃ ret x' m' p, requestLineStep k x (a ++ (v ++ zeros (j + 1))) a.length = some (ret, x', m', p) ∧
      Zeroed (a ++ (v ++ zeros (j + 1))) m' ∧ p ≤ (a ++ v).length := by
  rcases @findNextEol_text a v j with heol | ⟨hlf, eol, heol, hlt⟩
  · refine ⟨.again, x, _, a.length, ?_, .refl _, by simp⟩
    simp only [requestLineStep, heol, Option.bind_eq_bind, Option.bind_some, Option.pure_def]
  obtain ⟨t₁, a₁, v₁, j₁, h₁, hout₁⟩ := @getToken_step a v j 1 (hout hlf)
  obtain ⟨t₂, a₂, v₂, j₂, h₂, -⟩ := @getToken_step a₁ v₁ j₁ 0 hout₁
  obtain ⟨⟨t₃, m₃, p₃⟩, h₃⟩ := @getToken_total a₂ v₂ j₂
  have hz₁ := getToken_zeroed h₁
  have hz₂ := getToken_zeroed h₂
  have hz₃ := getToken_zeroed h₃
  have hz := hz₁.trans (hz₂.trans hz₃)
  simp only [requestLineStep, heol, Option.bind_eq_bind, Option.bind_some, h₁, h₂, h₃]
  have hfail : a.length ≤ (a ++ v).length := by simp
  rcases t₁ with _ | method
  · exact ⟨_, _, _, _, rfl, hz, hfail⟩
  rcases t₂ with _ | url
  · exact ⟨_, _, _, _, rfl, hz, hfail⟩
  rcases t₃ with _ | version
  · exact ⟨_, _, _, _, rfl, hz, hfail⟩
  · have hb₁ := (getToken_bound h₁).1
    have hb₃ := (getToken_bound h₃).1
    have hlen := hz₁.length_eq
    have hlen₂ := hz₂.length_eq
    obtain ⟨ret, l', m', hfields, hz'⟩ := @requestLineFields_total k x m₃ method url version _
      (hz₃.nul sentinel_append) (by omega) (by omega)
    simp only [hfields, Option.bind_some]
    exact ⟨ret, l', m', eol + 1, rfl, hz.trans hz', hlt⟩

theorem statusLineStep_inside (hout : LF ∈ v.takeWhile (· != NUL) → j = 0 → ¬ WordsRunOut 1 v) :
    ∃ ret x' m' p, statusLineStep (a ++ (v ++ zeros (j + 1))) a.length = some (ret, x', m', p) ∧
      Zeroed (a ++ (v ++ zeros (j + 1))) m' ∧ p ≤ (a ++ v).length := by
  rcases @findNextEol_text a v j with heol | ⟨hlf, eol, heol, hlt⟩
  · refine ⟨.again, none, _, a.length, ?_, .refl _, by simp⟩
    simp only [statusLineStep, heol, Option.bind_eq_bind, Option.bind_some, Option.pure_def]
  obtain ⟨t₁, a₁, v₁, j₁, h₁, -⟩ := @getToken_step a v j 0 (hout hlf)
  obtain ⟨⟨t₂, m₂, p₂⟩, h₂⟩ := @getToken_total a₁ v₁ j₁
  have hz₁ := getToken_zeroed h₁
  have hz₂ := getToken_zeroed h₂
  have hz := hz₁.trans hz₂
  simp only [statusLineStep, heol, Option.bind_eq_bind, Option.bind_some, h₁, h₂]
  have hfail : a.length ≤ (a ++ v).length := by simp
  rcases t₁ with _ | method
  · exact ⟨_, _, _, _, rfl, hz, hfail⟩
  rcases t₂ with _ | status
  · exact ⟨_, _, _, _, rfl, hz, hfail⟩
  · have hb₂ := (getToken_bound h₂).1
    have hlen := hz₁.length_eq
    obtain ⟨s, hs⟩ := @strAt_of_nul m₂ status.off _ (hz₂.nul sentinel_append) (by omega)
    simp only [hs, Option.bind_some]
    split
    · exact ⟨_, _, _, _, rfl, hz, hlt⟩
    · exact ⟨_, _, _, _, rfl, hz, hlt⟩

end FirstLine

/-! ## Header lines -/

/-- No line of the received text runs on behind its end: each line up to the empty one is
    white space, has a colon of its own, or has a colon or a zero byte behind it. -/
inductive ColonsAhead : List Byte → Prop
  | rest {v} (hline : splitLine v = none) : ColonsAhead v
  | finish {v l t} (hline : splitLine v = some (l, t)) (hblank : IsBlankLine l) : ColonsAhead v
  | line {v l t} (hline : splitLine v = some (l, t)) (hown : IsWhite l ∨ HasColon l)
      (hrest : ColonsAhead t) : ColonsAhead v
  | runOn {v l t} (hline : splitLine v = some (l, t)) (hown : ¬ (IsWhite l ∨ HasColon l))
      (hends : ∃ e ∈ t, EndsName e) : ColonsAhead v

/-- With a zero byte ahead nothing runs on. -/
theorem colonsAhead_of_nul {r : List Byte} (hr : Unended r) (z : List Byte) :
    ColonsAhead (r ++ NUL :: z) := by
  induction hn : r.length using Nat.strong_induction_on generalizing r with
  | _ n ih =>
    subst hn
    rcases hline : splitLine r with _ | ⟨l, t⟩
    · apply ColonsAhead.rest
      apply Option.eq_none_iff_forall_ne_some.mpr
      rintro ⟨l, t⟩ hsome
      obtain ⟨y, rfl, hy, hlf, hz⟩ := splitLine_eq_some_iff.mp hsome
      -- the line would end in front of the zero byte
      rcases List.append_eq_append_iff.mp hy with ⟨c, rfl, hc⟩ | ⟨c, rfl, hc⟩
      · cases c with
        | nil =>
            simp only [List.nil_append, List.cons.injEq] at hc
            exact absurd hc.1 (by decide)
        | cons x c =>
            simp only [List.cons_append, List.cons.injEq] at hc
            exact hz (by simp [← hc.1])
      · cases c with
        | nil =>
            simp only [List.nil_append, List.cons.injEq] at hc
            exact absurd hc.1 (by decide)
        | cons x c =>
            simp only [List.cons_append, List.cons.injEq] at hc
            rw [splitLine_eq_some_iff.mpr ⟨y, rfl, by rw [hc.1], hlf, hz⟩] at hline
            cases hline
    · obtain rfl := splitLine_eq hline
      have hsplit := splitLine_append hline (NUL :: z)
      by_cases hown : IsWhite l ∨ HasColon l
      · have hpos := (IsLine.of_splitLine hline).length_pos
        refine .line hsplit hown (ih t.length ?_ (fun x hx => hr x (by simp [hx])) rfl)
        rw [List.length_append]
        omega
      · exact .runOn hsplit hown ⟨NUL, by simp, .inl rfl⟩

section HeaderLines

variable {σ : Type} {set : HeaderSink σ} {k fuel : Nat} {x : σ} {h : Heap}

/-- What stands in front of the received text's end stays in front of it. -/
theorem exists_text {d r z v : List Byte} {j : Nat} {b : List Byte}
    (heq : d ++ (r ++ NUL :: z) = b) (hdrop : b.drop (d.length + v.length) = zeros (j + 1))
    (hlt : r.length < v.length) :
    ∃ z', r ++ NUL :: z = (r ++ NUL :: z') ++ zeros (j + 1) ∧
      (r ++ NUL :: z').length = v.length := by
  subst heq
  rw [← List.drop_drop, List.drop_left] at hdrop
  obtain ⟨n, hn⟩ : ∃ n, v.length = r.length + 1 + n := ⟨v.length - r.length - 1, by omega⟩
  refine ⟨z.take n, ?_, ?_⟩
  · have hsplit := List.take_append_drop v.length (r ++ NUL :: z)
    rw [hdrop] at hsplit
    have htake : (r ++ NUL :: z).take v.length = r ++ NUL :: z.take n := by
      rw [hn, Nat.add_assoc, List.take_append, List.take_of_length_le (by omega),
        Nat.add_sub_cancel_left, Nat.add_comm 1 n, List.take_succ_cons]
    rw [← htake]
    exact hsplit.symm
  · have hlen := congrArg List.length hdrop
    simp only [List.length_drop, List.length_append, List.length_cons, List.length_replicate] at hlen
    simp only [List.length_append, List.length_cons, List.length_take]
    omega

/-- The rounds from here on stay inside the buffer that ends its text at `last`. -/
def LinesInside (set : HeaderSink σ) (k last fuel pos : Nat) (x : σ) (h : Heap) : Prop :=
  ∃ ret p x' m', headerLines set k last fuel pos x h
      = some (ret, p, x', h.setBuf k { h.buf k with mem := m' }) ∧
    Zeroed (h.buf k).mem m' ∧ p ≤ last

theorem linesInside_stop {last pos : Nat} (hk : k < h.bufs.length) (ret : ParseRet) {p : Nat}
    (hp : p ≤ last)
    (heq : headerLines set k last fuel pos x h = some (ret, p, x, h)) :
    LinesInside set k last fuel pos x h := by
  refine ⟨ret, p, x, (h.buf k).mem, ?_, .refl _, hp⟩
  have hself : h.setBuf k { h.buf k with mem := (h.buf k).mem } = h := Heap.setBuf_self hk
  rw [heq, hself]

theorem linesInside_header {last pos p : Nat} {m : List Byte} {name : Tok} {value : Option Tok}
    (hk : k < h.bufs.length) (hlt : pos < last)
    (hs : headerStep (h.buf k).mem pos = some (.header m name value p))
    (hrest : LinesInside set k last fuel p
      (set (h.setBuf k { h.buf k with mem := m }) x (name.str k)
        ((value.map (Tok.str k)).getD .null)) (h.setBuf k { h.buf k with mem := m })) :
    LinesInside set k last (fuel + 1) pos x h := by
  obtain ⟨ret, p', x', m', heq, hz, hle⟩ := hrest
  have hz₁ := headerStep_zeroed hs (.inr ⟨_, _, _, rfl⟩)
  rw [Heap.buf_setBuf hk] at hz
  refine ⟨ret, p', x', m', ?_, hz₁.trans hz, hle⟩
  simp only [headerLines, Nat.not_le.mpr hlt, hs, if_false]
  rw [heq, Heap.buf_setBuf hk, Heap.setBuf_setBuf]

theorem linesInside_done {last pos p : Nat} (hk : k < h.bufs.length) (hlt : pos < last)
    (hp : p ≤ last) (hs : headerStep (h.buf k).mem pos = some (.done p)) :
    LinesInside set k last (fuel + 1) pos x h := by
  apply linesInside_stop hk .done hp
  simp only [headerLines, Nat.not_le.mpr hlt, hs, if_false]

/-- Some rounds stay inside the buffer, from any text whose lines do not run on behind
    its end, with `j + 1` zero bytes behind it. -/
def RoundsInside (set : HeaderSink σ) (k j fuel : Nat) : Prop :=
  ∀ {d v : List Byte} {x : σ} {h : Heap}, k < h.bufs.length →
    (h.buf k).mem = d ++ (v ++ zeros (j + 1)) → (d ++ v).length < 2 ^ 64 → ColonsAhead v →
    LinesInside set k (d ++ v).length fuel d.length x h

/-- A line with a colon of its own, or a white one. -/
theorem RoundsInside.own {d l t : List Byte} {j : Nat} (ih : RoundsInside set k j fuel)
    (hk : k < h.bufs.length) (hmem : (h.buf k).mem = d ++ (l ++ (t ++ zeros (j + 1))))
    (hlen : (d ++ (l ++ t)).length < 2 ^ 64) (hl : IsLine l) (hown : IsWhite l ∨ HasColon l)
    (hrest : ColonsAhead t) :
    LinesInside set k (d ++ (l ++ t)).length (fuel + 1) d.length x h := by
  have hpos := hl.length_pos
  have hlt : d.length < (d ++ (l ++ t)).length := by
    simp only [List.length_append]
    omega
  by_cases hw : IsWhite l
  · rcases headerStep_white hl hw d (t ++ zeros (j + 1)) with ⟨-, hs⟩ | ⟨-, hs⟩
    · rw [← hmem] at hs
      apply linesInside_done hk hlt ?_ hs
      simp only [List.length_append]
      omega
    · -- the line is skipped
      rw [← hmem] at hs
      have hlast : (d ++ (l ++ t)).length = (d ++ l ++ t).length := by rw [List.append_assoc]
      have hskip := ih (x := x) hk (d := d ++ l) (by rw [hmem, List.append_assoc])
        (hlast ▸ hlen) hrest
      rw [← hlast] at hskip
      unfold LinesInside at hskip ⊢
      simpa only [headerLines, Nat.not_le.mpr hlt, hs, if_false] using hskip
  · have hlenl : l.length < 2 ^ 64 := by
      simp only [List.length_append] at hlen
      omega
    obtain ⟨d', name, value, hd', hs⟩ :=
      headerStep_own hl hlenl (hown.resolve_left hw) d (t ++ zeros (j + 1))
    rw [← hmem] at hs
    have hlast' : (d ++ (l ++ t)).length = (d' ++ t).length := by
      simp only [List.length_append] at hd' ⊢
      omega
    rw [hlast'] at hlen hlt ⊢
    exact linesInside_header hk hlt hs
      (ih (by simpa using hk) (by rw [Heap.buf_setBuf hk]) hlen hrest)

/-- A line without a colon, whose name ends in the text behind it. -/
theorem RoundsInside.runOn {d l r b : List Byte} {e : Byte} {j : Nat}
    (ih : RoundsInside set k j fuel) (hk : k < h.bufs.length)
    (hmem : (h.buf k).mem = d ++ (l ++ (r ++ e :: b ++ zeros (j + 1))))
    (hlen : (d ++ (l ++ (r ++ e :: b))).length < 2 ^ 64) (hl : IsLine l) (hw : ¬ IsWhite l)
    (hcolon : ¬ HasColon l) (hr : Unended r) (he : EndsName e) :
    LinesInside set k (d ++ (l ++ (r ++ e :: b))).length (fuel + 1) d.length x h := by
  have hlt : d.length < (d ++ (l ++ (r ++ e :: b))).length := by
    simp only [List.length_append, List.length_cons]
    omega
  obtain ⟨sp, y, w, hlu, hsp, hy⟩ := exists_first hw
  obtain ⟨c, z, hcz⟩ : ∃ c z, b ++ zeros (j + 1) = c :: z := by
    cases b with
    | nil => exact ⟨NUL, zeros j, rfl⟩
    | cons c b => exact ⟨c, _, rfl⟩
  have hmem' : (h.buf k).mem = d ++ (l ++ (r ++ e :: c :: z)) := by
    rw [hmem, List.append_assoc, List.cons_append, hcz]
  obtain ⟨hfail, hgo⟩ := @headerStep_runOn l sp w r z y e c hl hlu hsp hy hcolon hr he d
  rw [← hmem'] at hfail hgo
  by_cases hc : c = NUL
  · obtain ⟨m, hs⟩ := hfail hc
    refine ⟨.fail, (d ++ (l ++ (r ++ [e]))).length, x, m, ?_,
      headerStep_zeroed hs (.inl ⟨_, rfl⟩), ?_⟩
    · simp only [headerLines, Nat.not_le.mpr hlt, hs, if_false]
    · simp only [List.length_append, List.length_cons, List.length_nil]
      omega
  · obtain ⟨d', name, value, hd', hs⟩ := hgo hc
    have hz := headerStep_zeroed hs (.inr ⟨_, _, _, rfl⟩)
    have hkept := (keptLines_front r).length_le
    -- the rest of the text has a zero byte in it now
    have hdrop : (h.buf k).mem.drop (d'.length + (r ++ e :: b).length) = zeros (j + 1) := by
      have hsplit : (h.buf k).mem = (d ++ (l ++ (r ++ e :: b))) ++ zeros (j + 1) := by
        rw [hmem]
        simp
      rw [hsplit]
      apply List.drop_left'
      rw [hd']
      simp only [List.length_append]
      omega
    obtain ⟨z', hz', hlen'⟩ := @exists_text d' (keptLines r) _ (r ++ e :: b) j _ rfl
      (hz.drop hdrop) (by simp; omega)
    have hlast : (d ++ (l ++ (r ++ e :: b))).length
        = (d' ++ (keptLines r ++ NUL :: z')).length := by
      simp only [List.length_append] at hd' hlen' ⊢
      omega
    rw [hlast] at hlen hlt ⊢
    apply linesInside_header hk hlt hs
    apply ih (by simpa using hk) (by rw [Heap.buf_setBuf hk, hz']) hlen
    exact colonsAhead_of_nul (fun x hx => hr x ((keptLines_front r).subset hx)) z'

/-- The rounds stay inside the buffer, if no line of the text runs on behind its end. -/
theorem headerLines_inside {d v : List Byte} {j : Nat} (hk : k < h.bufs.length)
    (hmem : (h.buf k).mem = d ++ (v ++ zeros (j + 1))) (hlen : (d ++ v).length < 2 ^ 64)
    (hv : ColonsAhead v) : LinesInside set k (d ++ v).length fuel d.length x h := by
  -- one line a round; the text it leaves has its colons ahead again
  induction fuel generalizing d v x h with
  | zero => exact linesInside_stop hk .again (by simp) rfl
  | succ fuel ih =>
      have hrounds : RoundsInside set k j fuel := fun hk hmem hlen hv => ih hk hmem hlen hv
      rcases Nat.lt_or_ge d.length (d ++ v).length with hlt | hge
      case inr =>
        apply linesInside_stop hk .again (p := d.length) (by simp)
        simp only [headerLines, hge, if_true]
      cases hv with
      | rest hline =>
          apply linesInside_stop hk .again (p := d.length) (by simp)
          have hagain : headerStep (h.buf k).mem d.length = some .again := by
            rw [hmem]
            simp only [headerStep, zeros, List.replicate_succ, findNextEol_of_splitLine_none hline,
              Option.bind_eq_bind, Option.bind_some, Option.pure_def]
          simp only [headerLines, Nat.not_le.mpr hlt, hagain, if_false]
      | @finish v l t hline hblank =>
          have hl := IsLine.of_splitLine hline
          obtain rfl := splitLine_eq hline
          rw [List.append_assoc] at hmem
          rcases headerStep_white hl hblank.white d (t ++ zeros (j + 1)) with ⟨-, hs⟩ | ⟨hnot, -⟩
          · rw [← hmem] at hs
            apply linesInside_done hk hlt ?_ hs
            simp only [List.length_append]
            omega
          · exact absurd hblank hnot
      | @line v l t hline hown hrest =>
          have hl := IsLine.of_splitLine hline
          obtain rfl := splitLine_eq hline
          rw [List.append_assoc] at hmem
          exact hrounds.own hk hmem hlen hl hown hrest
      | @runOn v l t hline hown hends =>
          have hl := IsLine.of_splitLine hline
          obtain rfl := splitLine_eq hline
          rw [List.append_assoc] at hmem
          obtain ⟨r, b, rfl, hr, hb⟩ := exists_span (fun x => x != NUL && x != COLON) t
          have hr : Unended r := by simpa [Unended] using hr
          cases b with
          | nil =>
              obtain ⟨e, he, hends⟩ := hends
              rw [List.append_nil] at he
              exact absurd hends (by simpa [EndsName] using hr e he)
          | cons e b =>
              have he : EndsName e := by
                have := hb e b rfl
                by_cases hz : e = NUL
                · exact .inl hz
                · exact .inr (by simpa [hz] using this)
              exact hrounds.runOn hk hmem hlen hl (fun hw => hown (.inl hw))
                (fun hc => hown (.inr hc)) hr he

end HeaderLines

end XwpServer
