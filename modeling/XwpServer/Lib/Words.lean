/-
  XwpServer.Lib.Words

  The words of a list: its maximal non-empty runs of elements that are no delimiters.

  A list is delimiters only, or its last word ends it, or it begins with a word and a
  delimiter (`words_induction`).  What reads a list word by word is followed along this
  split; the words of a list of the third kind are the first one and those of the rest
  (`isWord_append_iff`).
-/

import XwpServer.Lib.Scan

namespace Words

variable {α : Type _} (isDelim : α → Bool)

/-- `w` is a word of `s`, behind `x` and in front of `y`. -/
structure IsWord (s x w y : List α) : Prop where
  eq : s = x ++ (w ++ y)
  ne_nil : w ≠ []
  word : ∀ c ∈ w, isDelim c = false
  left : ∀ c ∈ x.getLast?, isDelim c = true
  right : ∀ c ∈ y.head?, isDelim c = true

/-- The words of `s`, in their order, with their positions. -/
structure AllWords (s : List α) (ws : List (Nat × List α)) : Prop where
  ordered : ws.Pairwise fun a b => a.1 + a.2.length < b.1
  exact : ∀ n w, (n, w) ∈ ws ↔ ∃ x y, IsWord isDelim s x w y ∧ x.length = n

/-! ## The split -/

/-- A list is delimiters only, or its last word ends it, or it begins with a word and a
    delimiter. -/
@[elab_as_elim]
theorem words_induction {P : List α → Prop} (delims : ∀ ds, (∀ c ∈ ds, isDelim c = true) → P ds)
    (last : ∀ ds w, (∀ c ∈ ds, isDelim c = true) → w ≠ [] → (∀ c ∈ w, isDelim c = false) →
      P (ds ++ w))
    (word : ∀ ds w e s, (∀ c ∈ ds, isDelim c = true) → w ≠ [] → (∀ c ∈ w, isDelim c = false) →
      isDelim e = true → P s → P (ds ++ (w ++ e :: s))) (s : List α) : P s := by
  induction hn : s.length using Nat.strongRecOn generalizing s with
  | ind n ih =>
  obtain ⟨ds, s₁, rfl, hds, hs₁⟩ := Scan.exists_span isDelim s
  obtain ⟨w, s₂, rfl, hw, hs₂⟩ := Scan.exists_span (fun c => !isDelim c) s₁
  have hw : ∀ c ∈ w, isDelim c = false := fun c hc => by simpa using hw c hc
  cases w with
  | nil =>
      -- then nothing is behind the delimiters
      cases s₂ with
      | nil => exact delims _ (by simpa using hds)
      | cons c s₂ =>
          have hc := hs₁ c s₂ rfl
          have hc' := hs₂ c s₂ rfl
          rw [hc] at hc'
          cases hc'
  | cons c w =>
      have hne : c :: w ≠ [] := List.cons_ne_nil c w
      cases s₂ with
      | nil =>
          rw [List.append_nil]
          exact last ds _ hds hne hw
      | cons e s' =>
          have he : isDelim e = true := by simpa using hs₂ e s' rfl
          refine word ds _ e s' hds hne hw he (ih s'.length ?_ s' rfl)
          simp only [List.length_append, List.length_cons] at hn
          omega

variable {isDelim} {s s' ds w : List α} {e : α}

/-! ## Delimiters only -/

theorem allWords_nil (hs : ∀ c ∈ s, isDelim c = true) : AllWords isDelim s [] where
  ordered := List.Pairwise.nil
  exact n w := by
    constructor
    · rintro ⟨⟩
    · rintro ⟨x, y, h, -⟩
      obtain ⟨c, w, rfl⟩ := List.exists_cons_of_ne_nil h.ne_nil
      have hc := hs c (by simp [h.eq])
      rw [h.word c (by simp)] at hc
      cases hc

/-! ## A word in front -/

theorem getLast?_behind (ds w : List α) (e : α) (s : List α) :
    (ds ++ (w ++ e :: s)).getLast? = some (s.getLast?.getD e) := by
  simp [List.getLast?_append, List.getLast?_cons]

theorem IsWord.first (hds : ∀ c ∈ ds, isDelim c = true) (hne : w ≠ [])
    (hw : ∀ c ∈ w, isDelim c = false) (he : isDelim e = true) :
    IsWord isDelim (ds ++ (w ++ e :: s')) ds w (e :: s') where
  eq := rfl
  ne_nil := hne
  word := hw
  left := fun c hc => hds c (List.mem_of_getLast? hc)
  right := by simpa using he

theorem IsWord.behind {x w' y : List α} (h : IsWord isDelim s' x w' y) (he : isDelim e = true) :
    IsWord isDelim (ds ++ (w ++ e :: s')) (ds ++ (w ++ e :: x)) w' y where
  eq := by simp [h.eq]
  ne_nil := h.ne_nil
  word := h.word
  left := by
    intro c hc
    rw [getLast?_behind, Option.mem_some_iff] at hc
    cases hx : x.getLast? with
    | none => rwa [← hc, hx]
    | some d =>
        rw [hx, Option.getD_some] at hc
        exact h.left c (hx.trans (congrArg some hc))
  right := h.right

/-- The words of a list that begins with delimiters, a word and a delimiter. -/
theorem isWord_append_iff (hds : ∀ c ∈ ds, isDelim c = true) (hne : w ≠ [])
    (hw : ∀ c ∈ w, isDelim c = false) (he : isDelim e = true) {x w' y : List α} :
    IsWord isDelim (ds ++ (w ++ e :: s')) x w' y ↔
      (x = ds ∧ w' = w ∧ y = e :: s') ∨
        ∃ x', x = ds ++ (w ++ e :: x') ∧ IsWord isDelim s' x' w' y := by
  constructor
  · rintro ⟨heq, hne', hw', hleft, hright⟩
    have hend : ∀ c l, e :: s' = c :: l → (!isDelim c) = false := by
      rintro c l h
      rw [← (List.cons.inj h).1, he]
      rfl
    have hwords : ∀ v : List α, (∀ c ∈ v, isDelim c = false) → ∀ c ∈ v, (!isDelim c) = true :=
      fun v hv c hc => by simp [hv c hc]
    rcases List.append_eq_append_iff.mp heq with ⟨x₁, rfl, hx₁⟩ | ⟨d₁, rfl, hd₁⟩
    · -- the word begins behind the leading delimiters
      rcases List.eq_nil_or_concat x₁ with rfl | ⟨x₂, d, rfl⟩
      · rw [List.nil_append] at hx₁
        obtain ⟨rfl, rfl⟩ := Scan.span_unique hx₁.symm (hwords w' hw')
          (fun c l hy => by simpa using hright c (by simp [hy])) (hwords w hw) hend
        exact .inl ⟨by simp, rfl, rfl⟩
      have hd : isDelim d = true := hleft d (by simp)
      rcases List.append_eq_append_iff.mp hx₁ with ⟨v, hv, hv'⟩ | ⟨v, hv, hv'⟩
      · -- and behind the first word
        cases v with
        | nil =>
            rw [List.append_nil] at hv
            have hlast := hw d (by simp [← hv])
            rw [hd] at hlast
            cases hlast
        | cons f v =>
            obtain ⟨rfl, rfl⟩ := List.cons.inj hv'
            refine .inr ⟨v, by rw [hv], rfl, hne', hw', fun c hc => hleft c ?_, hright⟩
            rw [hv, getLast?_behind, Option.mem_def.mp hc]
            exact rfl
      · -- it does not begin inside that
        have hlast := hw d (by simp [hv])
        rw [hd] at hlast
        cases hlast
    · cases d₁ with
      | nil =>
          rw [List.nil_append] at hd₁
          obtain ⟨rfl, rfl⟩ := Scan.span_unique hd₁ (hwords w' hw')
            (fun c l hy => by simpa using hright c (by simp [hy])) (hwords w hw) hend
          exact .inl ⟨by simp, rfl, rfl⟩
      | cons d d₁ =>
          -- no delimiter is the first element of a word
          obtain ⟨c, w', rfl⟩ := List.exists_cons_of_ne_nil hne'
          obtain ⟨rfl, -⟩ := List.cons.inj hd₁
          have hc := hds c (by simp)
          rw [hw' c (by simp)] at hc
          cases hc
  · rintro (⟨rfl, rfl, rfl⟩ | ⟨x', rfl, h⟩)
    · exact IsWord.first hds hne hw he
    · exact h.behind he

/-- The words of such a list are the first one and those of the rest. -/
theorem AllWords.cons (hds : ∀ c ∈ ds, isDelim c = true) (hne : w ≠ [])
    (hw : ∀ c ∈ w, isDelim c = false) (he : isDelim e = true) {ws : List (Nat × List α)}
    (h : AllWords isDelim s' ws) :
    AllWords isDelim (ds ++ (w ++ e :: s'))
      ((ds.length, w) :: ws.map fun a => (ds.length + w.length + 1 + a.1, a.2)) where
  ordered := by
    rw [List.pairwise_cons, List.pairwise_map]
    refine ⟨fun b hb => ?_, h.ordered.imp fun hab => by dsimp only; omega⟩
    obtain ⟨a, -, rfl⟩ := List.mem_map.mp hb
    dsimp only
    omega
  exact n w' := by
    rw [List.mem_cons, List.mem_map]
    constructor
    · rintro (hfirst | ⟨⟨k, v⟩, hmem, heq⟩)
      · obtain ⟨rfl, rfl⟩ := Prod.mk.inj hfirst
        exact ⟨_, _, IsWord.first hds hne hw he, rfl⟩
      · obtain ⟨rfl, rfl⟩ := Prod.mk.inj heq
        obtain ⟨x, y, hword, rfl⟩ := (h.exact k v).mp hmem
        refine ⟨_, y, hword.behind he, ?_⟩
        simp only [List.length_append, List.length_cons]
        omega
    · rintro ⟨x, y, hword, rfl⟩
      rcases (isWord_append_iff hds hne hw he).mp hword with
        ⟨rfl, rfl, -⟩ | ⟨x', rfl, hrest⟩
      · exact .inl rfl
      · refine .inr ⟨(x'.length, w'), (h.exact _ _).mpr ⟨x', y, hrest, rfl⟩, ?_⟩
        simp only [List.length_append, List.length_cons, Prod.mk.injEq, and_true]
        omega

end Words
