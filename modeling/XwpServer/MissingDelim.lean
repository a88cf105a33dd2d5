/-
  XwpServer.MissingDelim

  Lines that lack a word or a colon.

  On such a line the tokenizer runs on into the bytes behind the line.  If it comes
  to a zero byte before it finds what it looks for, the line is rejected; received
  bytes are followed by at least one zero byte of the buffer.  Whether that happens
  does not depend on how much of what follows the line has been received
  (`LacksWords.truncate`, `LacksColon.truncate`).
-/

import XwpServer.HeadLines

namespace XwpServer

open CString Scan LineParser

/-- Zero bytes of the buffer. -/
abbrev zeros (n : Nat) : List Byte := List.replicate n NUL

/-! ## Tokens that reach the zero bytes -/

/-- A token of a text that has been received in part: all of it is there, or a part of
    it, or a part of the delimiters in front of it. -/
theorem TokenAt.truncate {isDelim : Byte → Bool} {a b ds w rest : List Byte} {e : Byte} {n : Nat}
    (h : TokenAt isDelim (a ++ (b ++ zeros (n + 1))) ds w e rest) :
    (∃ a', a = ds ++ (w ++ e :: a') ∧ rest = a' ++ (b ++ zeros (n + 1)) ∧
      TokenAt isDelim (a ++ zeros (b.length + (n + 1))) ds w e
        (a' ++ zeros (b.length + (n + 1)))) ∨
    (∃ w', TokenAt isDelim (a ++ zeros (b.length + (n + 1))) ds w' NUL (zeros (b.length + n)) ∧
      rest.length ≤ b.length + n) ∨
    (∀ x ∈ a, x ≠ NUL ∧ isDelim x = true) := by
  obtain ⟨heq, hds, hne, hw, he⟩ := h
  -- a part of the token is ended by the zero bytes
  have partly : ∀ w', a = ds ++ w' → w' <+: w → w' ≠ [] →
      TokenAt isDelim (a ++ zeros (b.length + (n + 1))) ds w' NUL (zeros (b.length + n)) ∧
        rest.length ≤ b.length + n := by
    intro w' ha hpre hne'
    refine ⟨⟨?_, hds, hne', fun x hx => hw x (hpre.subset hx), Or.inl rfl⟩, ?_⟩
    · simp [ha, ← List.replicate_succ, Nat.add_assoc]
    · have hlen := congrArg List.length heq
      have hle := hpre.length_le
      simp only [ha, List.length_append, List.length_cons, List.length_replicate] at hlen
      omega
  rcases List.append_eq_append_iff.mp heq with ⟨c, hc, -⟩ | ⟨c, hc, hc'⟩
  -- where `a` ends: in the delimiters, in the token, or behind it
  · exact Or.inr (Or.inr fun x hx => hds x (by simp [hc, hx]))
  · rcases List.append_eq_append_iff.mp hc' with ⟨c₂, rfl, hc₂⟩ | ⟨w₂, hw₂, -⟩
    · cases c₂ with
      | nil =>
          refine Or.inr (Or.inl ⟨w, partly w (by simpa using hc) (List.prefix_refl w) hne⟩)
      | cons x c₂ =>
          simp only [List.cons_append, List.cons.injEq] at hc₂
          obtain ⟨rfl, rfl⟩ := hc₂
          exact Or.inl ⟨c₂, by simp [hc], rfl, ⟨by simp [hc], hds, hne, hw, he⟩⟩
    · by_cases hc0 : c = []
      · exact Or.inr (Or.inr fun x hx => hds x (by simpa [hc, hc0] using hx))
      · exact Or.inr (Or.inl ⟨c, partly c hc ⟨w₂, hw₂.symm⟩ hc0⟩)

/-! ## Missing words -/

/-- Fewer than `n` words come before a zero byte where a word should start. -/
inductive LacksWords : Nat → List Byte → Prop
  | none {n ws b} (hws : ∀ x ∈ ws, isspace x = true) : LacksWords (n + 1) (ws ++ NUL :: b)
  | next {n u ds w e rest} (htok : TokenAt isspace u ds w e rest) (hrest : LacksWords n rest) :
      LacksWords (n + 1) u

theorem LacksWords.ne_nil {n : Nat} {u : List Byte} (h : LacksWords n u) : u ≠ [] := by
  cases h with
  | none => simp
  | next htok => simp [htok.eq]

theorem lacksWords_zeros (n i : Nat) : LacksWords (n + 1) (zeros (i + 1)) :=
  @LacksWords.none n [] (zeros i) (by simp)

/-- A text that lacks words lacks them as well when less of it has been received. -/
theorem LacksWords.truncate {n i : Nat} {a b : List Byte}
    (h : LacksWords n (a ++ (b ++ zeros (i + 1)))) :
    LacksWords n (a ++ zeros (b.length + (i + 1))) := by
  generalize hu : a ++ (b ++ zeros (i + 1)) = u at h
  induction h generalizing a with
  | @none n ws c hws =>
      rcases List.append_eq_append_iff.mp hu with ⟨d, rfl, -⟩ | ⟨d, rfl, hd⟩
      · exact .none fun x hx => hws x (by simp [hx])
      · cases d with
        | nil => exact .none (by simpa using hws)
        | cons x d =>
            simp only [List.cons_append, List.cons.injEq] at hd
            rw [← hd.1]
            simpa using LacksWords.none (n := n) (b := d ++ zeros (b.length + (i + 1))) hws
  | @next n u ds w e rest htok hrest ih =>
      subst hu
      rcases htok.truncate with ⟨a', -, hr, htok'⟩ | ⟨w', htok', hle⟩ | hall
      · exact .next htok' (ih hr.symm)
      · obtain ⟨j, hj⟩ : ∃ j, b.length + i = j + 1 := by
          have := List.length_pos_of_ne_nil hrest.ne_nil
          exact ⟨b.length + i - 1, by omega⟩
        rw [hj] at htok'
        cases n with
        | zero => cases hrest
        | succ n => exact .next htok' (lacksWords_zeros n j)
      · exact .none (b := zeros (b.length + i)) fun x hx => (hall x hx).2

/-- `get_token` at a zero byte. -/
theorem getToken_missing {a ws b : List Byte} (hws : ∀ x ∈ ws, isspace x = true) :
    getToken isspace (a ++ (ws ++ NUL :: b)) a.length
      = some (none, a ++ (ws ++ NUL :: b), a.length) := by
  have hscan : scan (fun c => c != NUL && isspace c) ((a ++ (ws ++ NUL :: b)).drop a.length)
      = some ws.length := by
    rw [List.drop_left]
    refine scan_append_cons b (fun x hx => ?_) (by simp)
    simp [hws x hx, ne_NUL_of_isspace (hws x hx)]
  have hget : (a ++ (ws ++ NUL :: b))[a.length + ws.length]? = some NUL := by
    rw [← List.getElem?_drop, List.drop_left]
    simp
  simp only [getToken, hscan, Option.bind_eq_bind, Option.bind_some, hget, if_true,
    Option.pure_def]

section Reject

variable {a u : List Byte} {eol : Nat}

/-- A request line without its three words is rejected before anything is recorded. -/
theorem requestLineStep_missing (k : Nat) (x : RequestLine)
    (heol : findNextEol (a ++ u) a.length = some (some eol)) (h : LacksWords 3 u) :
    ∃ m, requestLineStep k x (a ++ u) a.length = some (.fail, x, a ++ m, a.length) := by
  cases h with
  | @none _ ws b hws =>
      refine ⟨ws ++ NUL :: b, ?_⟩
      simp only [requestLineStep, heol, Option.bind_eq_bind, Option.bind_some,
        getToken_missing hws]
      rfl
  | @next _ _ ds w e rest htok hrest =>
      cases hrest with
      | @none _ ws b hws =>
          have h₂ := getToken_missing (a := a ++ ds ++ w ++ [NUL]) (b := b) hws
          refine ⟨ds ++ w ++ [NUL] ++ (ws ++ NUL :: b), ?_⟩
          simp only [requestLineStep, heol, Option.bind_eq_bind, Option.bind_some,
            getToken_append htok, h₂]
          simp
      | @next _ _ ds₂ w₂ e₂ rest₂ htok₂ hrest₂ =>
          cases hrest₂ with
          | @none _ ws b hws =>
              have h₃ := getToken_missing (a := a ++ ds ++ w ++ [NUL] ++ ds₂ ++ w₂ ++ [NUL])
                (b := b) hws
              refine ⟨ds ++ w ++ [NUL] ++ ds₂ ++ w₂ ++ [NUL] ++ (ws ++ NUL :: b), ?_⟩
              simp only [requestLineStep, heol, Option.bind_eq_bind, Option.bind_some,
                getToken_append htok, getToken_append htok₂, h₃]
              simp
          | next htok₃ hrest₃ => cases hrest₃

/-- A status line without its two words is rejected before a status is stored. -/
theorem statusLineStep_missing (heol : findNextEol (a ++ u) a.length = some (some eol))
    (h : LacksWords 2 u) :
    ∃ m, statusLineStep (a ++ u) a.length = some (.fail, none, a ++ m, a.length) := by
  cases h with
  | @none _ ws b hws =>
      refine ⟨ws ++ NUL :: b, ?_⟩
      simp only [statusLineStep, heol, Option.bind_eq_bind, Option.bind_some,
        getToken_missing hws]
      rfl
  | @next _ _ ds w e rest htok hrest =>
      cases hrest with
      | @none _ ws b hws =>
          have h₂ := getToken_missing (a := a ++ ds ++ w ++ [NUL]) (b := b) hws
          refine ⟨ds ++ w ++ [NUL] ++ (ws ++ NUL :: b), ?_⟩
          simp only [statusLineStep, heol, Option.bind_eq_bind, Option.bind_some,
            getToken_append htok, h₂]
          simp
      | next htok₂ hrest₂ => cases hrest₂

end Reject

/-! ## A missing colon -/

/-- The name that starts here is followed by a zero byte behind its end. -/
def LacksColon (u : List Byte) : Prop :=
  ∃ ds w e b, TokenAt (· == COLON) u ds w e (NUL :: b)

theorem LacksColon.truncate {i : Nat} {a b : List Byte} (hlf : LF ∈ a)
    (h : LacksColon (a ++ (b ++ zeros (i + 1)))) :
    LacksColon (a ++ zeros (b.length + (i + 1))) := by
  obtain ⟨ds, w, e, c, htok⟩ := h
  rcases htok.truncate with ⟨a', -, hr, htok'⟩ | ⟨w', htok', hle⟩ | hall
  · cases a' with
    | nil =>
        have hz : zeros (b.length + (i + 1)) = NUL :: zeros (b.length + i) := by
          rw [← Nat.add_assoc]
          rfl
        exact ⟨ds, w, e, _, by simpa [hz] using htok'⟩
    | cons x a' =>
        simp only [List.cons_append, List.cons.injEq] at hr
        rw [← hr.1] at htok'
        exact ⟨ds, w, e, _, htok'⟩
  · obtain ⟨j, hj⟩ : ∃ j, b.length + i = j + 1 := ⟨b.length + i - 1, by simp at hle; omega⟩
    rw [hj] at htok'
    exact ⟨ds, w', NUL, zeros j, htok'⟩
  · exact absurd (hall LF hlf).2 (by decide)

/-- A header line without a colon is rejected before a header is recorded. -/
theorem headerStep_missing {l sp v : List Byte} {c : Byte} (hl : IsLine l) (hlu : l = sp ++ c :: v)
    (hsp : ∀ x ∈ sp, isspace x = true) (hc : isspace c = false) (d b : List Byte)
    (h : LacksColon (c :: (v ++ b))) :
    ∃ m p, headerStep (d ++ (l ++ b)) d.length = some (.fail (d ++ m) p) := by
  obtain ⟨ds, w, e, z, htok⟩ := h
  have hmem : d ++ (l ++ b) = (d ++ sp) ++ (c :: (v ++ b)) := by simp [hlu]
  have ht := getToken_append (a := d ++ sp) htok
  rw [← hmem] at ht
  rw [headerStep_word_at hl hlu hsp hc, ht, Option.bind_some]
  simp only [trimName]
  generalize hlen : ((((d ++ sp ++ ds ++ w ++ [NUL] ++ NUL :: z).drop (d ++ sp ++ ds).length).take
    w.length).rdropWhile isspace).length = len
  -- the name is trimmed, and its terminator is not behind the token's
  have hle : len ≤ w.length := by
    rw [← hlen]
    refine (List.rdropWhile_prefix _ _).length_le.trans ?_
    simp only [List.length_take]
    omega
  have hset : (d ++ sp ++ ds ++ w ++ [NUL] ++ NUL :: z).set ((d ++ sp ++ ds).length + len) NUL
      = d ++ ((sp ++ ds ++ w ++ [NUL]).set ((sp ++ ds).length + len) NUL ++ NUL :: z) := by
    have hm : d ++ sp ++ ds ++ w ++ [NUL] ++ NUL :: z
        = d ++ ((sp ++ ds ++ w ++ [NUL]) ++ NUL :: z) := by simp
    have hi : (d ++ sp ++ ds).length + len = d.length + ((sp ++ ds).length + len) := by
      simp only [List.length_append]
      omega
    rw [hm, hi, List.set_append_right _ _ (by omega), Nat.add_sub_cancel_left,
      List.set_append_left _ _ (by simp only [List.length_append, List.length_singleton]; omega)]
  have hpos : (d ++ sp ++ ds ++ w ++ [NUL]).length
      = (d ++ (sp ++ ds ++ w ++ [NUL]).set ((sp ++ ds).length + len) NUL).length := by simp
  have hrest : ∀ (q : List Byte) (name : Tok) (eol : Nat),
      headerRest (q ++ NUL :: z) name q.length eol = some (.fail (q ++ NUL :: z) q.length) := by
    intro q name eol
    have hskip : skipSpace (q ++ NUL :: z) q.length eol = some q.length := by
      have hscan : scanUpTo isspace (eol - q.length) (NUL :: z) = some 0 := by
        cases eol - q.length <;> simp [scanUpTo]
      simp [skipSpace, hscan]
    simp [headerRest, hskip]
  rw [hset, hpos, ← List.append_assoc, hrest]
  exact ⟨_, _, by rw [List.append_assoc]⟩

end XwpServer
