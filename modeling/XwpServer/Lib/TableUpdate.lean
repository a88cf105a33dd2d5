/-
  XwpServer.Lib.TableUpdate

  What further pairs do to a table in which a new key may stand for an old one.

  A pair that hits a key of the table changes the value of the first such entry, and
  nothing behind the table.  The other pairs make a table of their own behind it
  (`build_append_left`).
-/

import XwpServer.Lib.FirstMatch

namespace FirstMatch

variable {κ ν : Type _} (hits : κ → κ → Bool)

/-- The entries of a table behind the keys `before`, when the pairs of `l` have been put. -/
def update (before : List κ) : List (κ × ν) → List (κ × ν) → List (κ × ν)
  | [], _ => []
  | (k, v) :: t, l => (k, lastValue hits before k v l) :: update (before ++ [k]) t l

variable {hits} {t l : List (κ × ν)} {before : List κ}

theorem lastValue_cons (before : List κ) (k : κ) (v : ν) (p : κ × ν) (l : List (κ × ν)) :
    lastValue hits before k v (p :: l)
      = lastValue hits before k (if reaches hits before k p then p.2 else v) l := by
  unfold lastValue
  rw [List.filter_cons]
  split <;> simp only [List.map_cons, List.getLastD_cons]

/-- The value of an entry is its own, or that of a pair that reaches it. -/
theorem lastValue_cases (before : List κ) (k : κ) (v : ν) (l : List (κ × ν)) :
    ((∀ p ∈ l, reaches hits before k p = false) ∧ lastValue hits before k v l = v) ∨
      ∃ p ∈ l, reaches hits before k p = true ∧ lastValue hits before k v l = p.2 := by
  induction l generalizing v with
  | nil => exact .inl ⟨by simp, rfl⟩
  | cons p l ih =>
      rw [lastValue_cons]
      rcases ih (if reaches hits before k p then p.2 else v) with ⟨hno, hv⟩ | ⟨q, hq, hr, hv⟩
      · rw [hv]
        by_cases hp : reaches hits before k p = true
        · exact .inr ⟨p, by simp, hp, if_pos hp⟩
        · refine .inl ⟨?_, if_neg hp⟩
          simpa using ⟨by simpa using hp, by simpa using hno⟩
      · exact .inr ⟨q, by simp [hq], hr, hv⟩

@[simp] theorem update_keys (before : List κ) (t l : List (κ × ν)) :
    (update hits before t l).map Prod.fst = t.map Prod.fst := by
  induction t generalizing before with
  | nil => rfl
  | cons e t ih => rw [update, List.map_cons, List.map_cons, ih]

theorem update_nil (before : List κ) (t : List (κ × ν)) : update hits before t [] = t := by
  induction t generalizing before with
  | nil => rfl
  | cons e t ih =>
      rw [update, ih]
      rfl

/-- A pair that hits a key in front changes nothing, and neither does one that hits none. -/
theorem update_cons_of_not_reaches {p : κ × ν}
    (h : before.any (hits p.1) = true ∨ (t.map Prod.fst).any (hits p.1) = false) :
    update hits before t (p :: l) = update hits before t l := by
  induction t generalizing before with
  | nil => rfl
  | cons e t ih =>
      have hr : reaches hits before e.1 p = false := by
        rcases h with h | h
        · simp [reaches, h]
        · simp only [List.map_cons, List.any_cons, Bool.or_eq_false_iff] at h
          simp [reaches, h.1]
      have ih := @ih (before ++ [e.1]) <| h.imp (fun h => by simp [List.any_append, h])
        fun h => by simp only [List.map_cons, List.any_cons, Bool.or_eq_false_iff] at h; exact h.2
      rw [update, update, ih, lastValue_cons, if_neg (by simp [hr])]

/-- Putting a pair first and the others then. -/
theorem update_put {p : κ × ν} (hb : before.any (hits p.1) = false)
    (ht : (t.map Prod.fst).any (hits p.1) = true) :
    update hits before (put hits t p.1 p.2) l = update hits before t (p :: l) := by
  induction t generalizing before with
  | nil => cases ht
  | cons e t ih =>
      rw [put]
      by_cases he : hits p.1 e.1 = true
      · have hr : reaches hits before e.1 p = true := by simp [reaches, he, hb]
        rw [if_pos he, update, update, lastValue_cons, if_pos hr,
          update_cons_of_not_reaches (.inl (by simp [List.any_append, he]))]
      · have he : hits p.1 e.1 = false := by simpa using he
        have hr : reaches hits before e.1 p = false := by simp [reaches, he]
        simp only [List.map_cons, List.any_cons, he, Bool.false_or] at ht
        rw [he, if_neg (by simp), update, update, lastValue_cons, if_neg (by simp [hr]),
          ih (by simp [List.any_append, hb, he]) ht]

/-- The pairs that hit a key of the table change its values; the others make a table of
    their own behind it. -/
theorem build_append_left (t u l : List (κ × ν)) :
    build hits (t ++ u) l = update hits [] t l ++
      build hits u (l.filter fun p => !(t.map Prod.fst).any (hits p.1)) := by
  induction l generalizing t u with
  | nil => rw [update_nil, List.filter_nil, build_nil, build_nil]
  | cons p l ih =>
      rw [build_cons, List.filter_cons]
      by_cases hp : (t.map Prod.fst).any (hits p.1) = true
      · have hhit : ∃ e ∈ t, hits p.1 e.1 = true := by simpa using hp
        rw [put_append_of_hit hhit, ih, put_keys, if_pos hp, update_put rfl hp,
          if_neg (by simp [hp])]
      · have hp : (t.map Prod.fst).any (hits p.1) = false := by simpa using hp
        have hmiss : ∀ e ∈ t, hits p.1 e.1 = false := by simpa using hp
        rw [put_append_of_miss hmiss, ih, if_pos (by simp [hp]), build_cons,
          update_cons_of_not_reaches (.inr hp)]

theorem mem_update {e : κ × ν} :
    e ∈ update hits before t l ↔ ∃ t₁ v t₂, t = t₁ ++ (e.1, v) :: t₂ ∧
      e.2 = lastValue hits (before ++ t₁.map Prod.fst) e.1 v l := by
  induction t generalizing before with
  | nil => simp [update]
  | cons x t ih =>
      obtain ⟨k, v⟩ := x
      rw [update, List.mem_cons, ih]
      constructor
      · rintro (rfl | ⟨t₁, w, t₂, rfl, hw⟩)
        · exact ⟨[], v, t, rfl, by simp⟩
        · exact ⟨(k, v) :: t₁, w, t₂, rfl, by simpa using hw⟩
      · rintro ⟨t₁, w, t₂, heq, hw⟩
        cases t₁ with
        | nil =>
            obtain ⟨hx, -⟩ := List.cons.inj heq
            obtain ⟨rfl, rfl⟩ := Prod.mk.inj hx
            exact .inl (Prod.ext rfl (by simpa using hw))
        | cons y t₁ =>
            obtain ⟨rfl, rfl⟩ := List.cons.inj heq
            exact .inr ⟨t₁, w, t₂, rfl, by simpa using hw⟩

theorem filter_update_eq_nil {kind : κ → Bool} :
    (update hits before t l).filter (kind ·.1) = [] ↔ ∀ x ∈ t, kind x.1 = false := by
  induction t generalizing before with
  | nil => simp [update]
  | cons x t ih =>
      rw [update, List.filter_cons, List.forall_mem_cons, ← @ih (before ++ [x.1])]
      cases kind x.1 <;> simp

/-- The one entry of a kind. -/
theorem filter_update_eq_singleton {kind : κ → Bool} {e : κ × ν} :
    (update hits before t l).filter (kind ·.1) = [e] ↔
      ∃ t₁ v t₂, t = t₁ ++ (e.1, v) :: t₂ ∧ kind e.1 = true ∧
        (∀ x ∈ t₁ ++ t₂, kind x.1 = false) ∧
        e.2 = lastValue hits (before ++ t₁.map Prod.fst) e.1 v l := by
  induction t generalizing before with
  | nil => simp [update]
  | cons x t ih =>
      obtain ⟨k, v⟩ := x
      rw [update, List.filter_cons]
      by_cases hk : kind k = true
      · rw [if_pos hk, List.cons_eq_cons, filter_update_eq_nil]
        constructor
        · rintro ⟨rfl, hrest⟩
          exact ⟨[], v, t, rfl, hk, hrest, by simp⟩
        · rintro ⟨t₁, w, t₂, heq, -, hrest, hw⟩
          cases t₁ with
          | nil =>
              obtain ⟨hx, rfl⟩ := List.cons.inj heq
              obtain ⟨rfl, rfl⟩ := Prod.mk.inj hx
              exact ⟨Prod.ext rfl (by simpa using hw.symm), hrest⟩
          | cons y t₁ =>
              obtain ⟨rfl, rfl⟩ := List.cons.inj heq
              exact absurd (hrest (k, v) (by simp)) (by simp [hk])
      · have ih := @ih (before ++ [k])
        rw [if_neg hk]
        refine ih.trans ?_
        constructor
        · rintro ⟨t₁, w, t₂, rfl, he, hrest, hw⟩
          refine ⟨(k, v) :: t₁, w, t₂, rfl, he, ?_, by simpa using hw⟩
          simpa [hk] using hrest
        · rintro ⟨t₁, w, t₂, heq, he, hrest, hw⟩
          cases t₁ with
          | nil =>
              obtain ⟨hx, -⟩ := List.cons.inj heq
              obtain ⟨rfl, rfl⟩ := Prod.mk.inj hx
              exact absurd he hk
          | cons y t₁ =>
              obtain ⟨rfl, rfl⟩ := List.cons.inj heq
              exact ⟨t₁, w, t₂, rfl, he, fun x hx => hrest x (by simp at hx ⊢; tauto),
                by simpa using hw⟩

end FirstMatch
