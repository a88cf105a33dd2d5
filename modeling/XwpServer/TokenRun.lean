/-
  XwpServer.TokenRun

  The tokens of a string: `get_token` (`utils.c`) called on the advancing cursor until
  it returns 0.

  The byte a token stops at is overwritten and the cursor is set behind it, whether it is
  a delimiter or the terminator of the string.  A string that ends with a delimiter is
  taken apart into its words; after a last word the cursor is behind the terminator, and
  the next call reads what is there.
-/

import XwpServer.Token
import XwpServer.Lib.Words

namespace XwpServer

open CString Scan Words

/-! ## The delimiters -/

/-- `strchr(s, c) != NULL`; the terminator of `s` is one of its characters. -/
def strchrFinds (s : List Byte) (c : Byte) : Bool :=
  (s.takeWhile (· != NUL) ++ [NUL]).contains c

/-- `IS_DELIM`, with `none` for a NULL. -/
def isDelim (delimFunc : Option (Byte → Bool)) (s : Option (List Byte)) (c : Byte) : Bool :=
  delimFunc.any (fun f => f c) || s.any (fun s => strchrFinds s c)

/-! ## The loop -/

/-- `while(get_token(&str, &pos, ...))`: the tokens, each with the cursor behind it, and
    the block they leave.  `none` when the loop reads outside the block, or is not at its
    end after `fuel` calls. -/
def getTokens (delim : Byte → Bool) :
    (fuel : Nat) → (m : List Byte) → (pos : Nat) → Option (List (Tok × Nat) × List Byte)
  | 0, _, _ => none
  | fuel + 1, m, pos =>
      match getToken delim m pos with
      | none => none
      | some (none, m, _) => some ([], m)
      | some (some t, m, pos) =>
          (getTokens delim fuel m pos).map fun r => ((t, pos) :: r.1, r.2)

/-- The loop over `s`, behind `before` in a block, finds the tokens `calls` and leaves
    `after` in the place of `s` and its terminator: the tokens are the words of `s`, each
    is terminated where it ends, and no cursor is behind the terminator.  Whatever `post`
    is behind that, and if nothing is, the loop does the same, so it is not read. -/
structure Tokenized (delim : Byte → Bool) (before s : List Byte) (calls : List (Tok × Nat))
    (after : List Byte) (ws : List (Nat × List Byte)) : Prop where
  run : ∀ post, ∃ fuel, getTokens delim fuel (before ++ (s ++ NUL :: post)) before.length
    = some (calls, before ++ (after ++ post))
  words : AllWords delim s ws
  tokens : calls.map Prod.fst = ws.map fun a => ⟨before.length + a.1, a.2.length⟩
  terminated : ∀ a ∈ ws, strAt (before ++ after) (before.length + a.1) = some a.2
  cursor : ∀ c ∈ calls, c.2 ≤ before.length + s.length

/-- The words of `s` are taken out of it. -/
def TokensExact (delim : Byte → Bool) (before s : List Byte) : Prop :=
  ∃ calls after ws, Tokenized delim before s calls after ws

section Steps

variable {delim : Byte → Bool} {before ds w s post : List Byte} {e : Byte}

/-- A string of delimiters: the loop is at its end. -/
theorem getTokens_delims (hds : ∀ c ∈ ds, delim c = true) (hz : NUL ∉ ds) (fuel : Nat) :
    getTokens delim (fuel + 1) (before ++ (ds ++ NUL :: post)) before.length
      = some ([], before ++ (ds ++ NUL :: post)) := by
  have hscan : scan (fun c => c != NUL && delim c) (ds ++ NUL :: post) = some ds.length := by
    refine scan_append_cons post (fun c hc => ?_) (by simp)
    have hne : c ≠ NUL := fun h => hz (h ▸ hc)
    simp [hne, hds c hc]
  have hget : (before ++ (ds ++ NUL :: post))[before.length + ds.length]? = some NUL := by
    rw [← List.append_assoc, ← List.length_append]
    simp
  have htok : getToken delim (before ++ (ds ++ NUL :: post)) before.length
      = some (none, before ++ (ds ++ NUL :: post), before.length) := by
    simp only [getToken, Option.bind_eq_bind, List.drop_left, hscan, Option.bind_some, hget,
      if_true, Option.pure_def]
  rw [getTokens, htok]

/-- A token is found, the byte behind it is overwritten, and the cursor is behind that. -/
theorem getTokens_word (hds : ∀ c ∈ ds, delim c = true) (hne : w ≠ [])
    (hw : ∀ c ∈ w, delim c = false) (hz : NUL ∉ ds ++ w) (he : e = NUL ∨ delim e = true)
    (fuel : Nat) :
    getTokens delim (fuel + 1) (before ++ (ds ++ (w ++ e :: post))) before.length
      = (getTokens delim fuel (before ++ (ds ++ (w ++ [NUL])) ++ post)
          (before ++ (ds ++ (w ++ [NUL]))).length).map fun r =>
            ((⟨before.length + ds.length, w.length⟩, (before ++ (ds ++ (w ++ [NUL]))).length)
              :: r.1, r.2) := by
  have hzero : ∀ c ∈ ds ++ w, c ≠ NUL := fun c hc h => hz (h ▸ hc)
  have hat : TokenAt delim ((before ++ (ds ++ (w ++ e :: post))).drop before.length) ds w e
      post := by
    refine ⟨List.drop_left .., fun c hc => ⟨hzero c ?_, hds c hc⟩, hne,
      fun c hc => ⟨hzero c ?_, hw c hc⟩, he⟩
    · exact List.mem_append_left _ hc
    · exact List.mem_append_right _ hc
  have hset : (before ++ (ds ++ (w ++ e :: post))).set
      (before.length + ds.length + w.length) NUL = before ++ (ds ++ (w ++ [NUL])) ++ post := by
    rw [Nat.add_assoc, List.set_append_right _ _ (Nat.le_add_right ..), Nat.add_sub_cancel_left,
      List.set_append_right _ _ (Nat.le_add_right ..), Nat.add_sub_cancel_left]
    simp
  have hlen : (before ++ (ds ++ (w ++ [NUL]))).length
      = before.length + ds.length + w.length + 1 := by
    simp only [List.length_append, List.length_singleton]
    omega
  rw [getTokens, getToken_of_tokenAt hat, hset, hlen]

/-- Nothing is read behind the block. -/
theorem getTokens_outside {m : List Byte} {pos : Nat} (h : m.length ≤ pos) (fuel : Nat) :
    getTokens delim fuel m pos = none := by
  cases fuel with
  | zero => rfl
  | succ fuel =>
      have htok : getToken delim m pos = none := by
        rw [getToken, List.drop_eq_nil_of_le h]
        rfl
      rw [getTokens, htok]

end Steps

/-! ## The words of a string -/

section Words

variable {delim : Byte → Bool} {before ds w s after : List Byte} {e : Byte}
  {calls : List (Tok × Nat)} {ws : List (Nat × List Byte)}

theorem Tokenized.delims (hds : ∀ c ∈ ds, delim c = true) (hz : NUL ∉ ds) :
    Tokenized delim before ds [] (ds ++ [NUL]) [] where
  run post := by
    refine ⟨1, (getTokens_delims hds hz 0).trans ?_⟩
    rw [List.append_assoc]
    rfl
  words := allWords_nil hds
  tokens := rfl
  terminated := nofun
  cursor := nofun

/-- The first word, when the loop goes on behind it. -/
theorem Tokenized.word (hds : ∀ c ∈ ds, delim c = true) (hne : w ≠ [])
    (hw : ∀ c ∈ w, delim c = false) (he : delim e = true) (hz : NUL ∉ ds ++ w)
    (h : Tokenized delim (before ++ (ds ++ (w ++ [NUL]))) s calls after ws) :
    Tokenized delim before (ds ++ (w ++ e :: s))
      ((⟨before.length + ds.length, w.length⟩, (before ++ (ds ++ (w ++ [NUL]))).length) :: calls)
      (ds ++ (w ++ NUL :: after))
      ((ds.length, w) :: ws.map fun a => (ds.length + w.length + 1 + a.1, a.2)) := by
  have hlen : (before ++ (ds ++ (w ++ [NUL]))).length
      = before.length + (ds.length + w.length + 1) := by
    simp only [List.length_append, List.length_singleton]
    omega
  have hshift : ∀ n, before.length + (ds.length + w.length + 1 + n)
      = (before ++ (ds ++ (w ++ [NUL]))).length + n := fun n => by omega
  have hafter : ∀ post, before ++ (ds ++ (w ++ NUL :: after) ++ post)
      = before ++ (ds ++ (w ++ [NUL])) ++ (after ++ post) := fun post => by simp
  constructor
  case run =>
    intro post
    -- one call for the word, and those of the rest
    obtain ⟨fuel, hrun⟩ := h.run post
    refine ⟨fuel + 1, ?_⟩
    have hs : ds ++ (w ++ e :: s) ++ NUL :: post = ds ++ (w ++ e :: (s ++ NUL :: post)) := by
      simp
    rw [hs, getTokens_word hds hne hw hz (.inr he), hrun, hafter]
    rfl
  case words => exact h.words.cons hds hne hw he
  case tokens =>
    rw [List.map_cons, List.map_cons, List.map_map, h.tokens]
    refine congrArg _ (List.map_congr_left fun a _ => ?_)
    rw [← hshift]
    rfl
  case terminated =>
    intro a ha
    rcases List.mem_cons.mp ha with rfl | ha
    · -- its terminator is written here, and the calls behind leave it alone
      have hzw : NUL ∉ w := fun hmem => hz (List.mem_append_right _ hmem)
      refine strAt_eq_some_iff.mpr ⟨hzw, after, ?_⟩
      rw [← List.append_assoc, ← List.length_append, List.drop_left]
    · obtain ⟨b, hb, rfl⟩ := List.mem_map.mp ha
      have hterm := h.terminated b hb
      rw [← hshift] at hterm
      have hmem := hafter []
      rw [List.append_nil, List.append_nil] at hmem
      rwa [hmem]
  case cursor =>
    intro c hc
    have hend : (ds ++ (w ++ e :: s)).length = ds.length + w.length + 1 + s.length := by
      simp only [List.length_append, List.length_cons]
      omega
    rw [hend, hshift]
    rcases List.mem_cons.mp hc with rfl | hc
    · exact Nat.le_add_right _ _
    · exact h.cursor c hc

/-- A string that ends with a delimiter is taken apart into its words. -/
theorem tokensExact_of_last (hz : NUL ∉ s) (hlast : ∀ c ∈ s.getLast?, delim c = true) :
    TokensExact delim before s := by
  induction s using words_induction delim generalizing before with
  | delims ds hds => exact ⟨_, _, _, Tokenized.delims hds hz⟩
  | last ds w hds hne hw =>
      -- the last character is one of the word
      obtain ⟨w, c, rfl⟩ := (List.eq_nil_or_concat w).resolve_left hne
      have hc := hlast c (by simp)
      rw [hw c (by simp)] at hc
      cases hc
  | word ds w e s hds hne hw he ih =>
      simp only [List.mem_append, List.mem_cons, not_or] at hz
      have hlast' : ∀ c ∈ s.getLast?, delim c = true := fun c hc => hlast c (by
        rw [getLast?_behind, Option.mem_def.mp hc]
        exact rfl)
      obtain ⟨calls, after, ws, h⟩ := @ih (before ++ (ds ++ (w ++ [NUL]))) hz.2.2.2 hlast'
      have hzw : NUL ∉ ds ++ w := by
        rw [List.mem_append, not_or]
        exact ⟨hz.1, hz.2.1⟩
      exact ⟨_, _, _, h.word hds hne hw he hzw⟩

/-- One that ends with a word is read behind its terminator. -/
theorem getTokens_of_last (hz : NUL ∉ s) {c : Byte} (hc : c ∈ s.getLast?)
    (hlast : delim c = false) (fuel : Nat) :
    getTokens delim fuel (before ++ (s ++ [NUL])) before.length = none := by
  induction s using words_induction delim generalizing before fuel with
  | delims ds hds =>
      rw [hds c (List.mem_of_getLast? hc)] at hlast
      cases hlast
  | last ds w hds hne hw =>
      cases fuel with
      | zero => rfl
      | succ fuel =>
          -- the token is found, and the cursor is behind the block
          rw [List.append_assoc, getTokens_word hds hne hw hz (.inl rfl), List.append_nil,
            getTokens_outside (Nat.le_refl _)]
          rfl
  | word ds w e s hds hne hw he ih =>
      cases fuel with
      | zero => rfl
      | succ fuel =>
          simp only [List.mem_append, List.mem_cons, not_or] at hz
          have hzw : NUL ∉ ds ++ w := by
            rw [List.mem_append, not_or]
            exact ⟨hz.1, hz.2.1⟩
          have hc' : c ∈ s.getLast? := by
            rw [getLast?_behind, Option.mem_some_iff] at hc
            cases hs : s.getLast? with
            | none =>
                rw [hs, Option.getD_none] at hc
                rw [← hc, he] at hlast
                cases hlast
            | some d =>
                rw [hs, Option.getD_some] at hc
                exact congrArg some hc
          have hs : ds ++ (w ++ e :: s) ++ [NUL] = ds ++ (w ++ e :: (s ++ [NUL])) := by simp
          rw [hs, getTokens_word hds hne hw hzw (.inr he), ih hz.2.2.2 hc']
          rfl

end Words

/-- The tokens of a string are its words, and nothing behind it is read, exactly if no word
    is at its end. -/
theorem tokensExact_iff (delimFunc : Option (Byte → Bool)) (set : Option (List Byte))
    (before : List Byte) {s : List Byte} (hz : NUL ∉ s) :
    TokensExact (isDelim delimFunc set) before s ↔
      ∀ c ∈ s.getLast?, isDelim delimFunc set c = true := by
  constructor
  · -- with nothing behind the terminator the loop would leave the block
    rintro ⟨calls, after, ws, h⟩ c hc
    by_contra hlast
    obtain ⟨fuel, hrun⟩ := h.run []
    rw [getTokens_of_last hz hc (by simpa using hlast)] at hrun
    cases hrun
  · exact tokensExact_of_last hz

/-- A line that ends with a space. -/
theorem tokensExact_line : TokensExact (isDelim (some isspace) none) [] (bytes "GET /a ") :=
  (tokensExact_iff (some isspace) none [] (by decide)).mpr fun c hc => by
    obtain rfl : SP = c := Option.some.inj hc
    rfl

/-- The tokens of `ab` are `ab` and what is behind its terminator; with nothing there the
    loop leaves the block. -/
theorem not_tokensExact_word :
    getTokens (isDelim (some isspace) none) 3 (bytes "ab" ++ NUL :: (bytes "cd " ++ [NUL])) 0 =
        some ([(⟨0, 2⟩, 3), (⟨3, 2⟩, 6)], bytes "ab" ++ NUL :: (bytes "cd" ++ [NUL, NUL])) ∧
      ¬ TokensExact (isDelim (some isspace) none) [] (bytes "ab") := by
  refine ⟨by decide, ?_⟩
  rintro ⟨calls, after, ws, h⟩
  obtain ⟨fuel, hrun⟩ := h.run []
  have hlast : UInt8.ofNat 98 ∈ (bytes "ab").getLast? := by decide
  have hout := @getTokens_of_last (isDelim (some isspace) none) [] _ (by decide) _ hlast
    (by decide) fuel
  exact absurd (hout.symm.trans hrun) nofun

end XwpServer
