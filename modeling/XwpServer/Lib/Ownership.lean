/-
  XwpServer.Lib.Ownership

  A stock of tokens: each is free or held by one owner, and an owner holds at most
  one.
-/

import Mathlib.Data.List.Nodup
import Mathlib.Logic.Function.Basic
import Mathlib.SetTheory.Cardinal.Finite

namespace Ownership

variable {α ω : Type _}

/-- The tokens of `l` are held by nobody, and every other token by one owner. -/
structure Owned (own : ω → Option α) (l : List α) : Prop where
  nodup : l.Nodup
  free : ∀ a ∈ l, ∀ w, own w ≠ some a
  held : ∀ a ∉ l, ∃ w, own w = some a
  unique : ∀ w w' a, own w = some a → own w' = some a → w = w'

variable {own : ω → Option α} {a : α} {l : List α} {w : ω}

/-- An owner without a token takes one. -/
theorem Owned.take [DecidableEq ω] (h : Owned own (a :: l)) (hw : own w = none) :
    Owned (Function.update own w (some a)) l := by
  obtain ⟨hnodup, hfree, hheld, huniq⟩ := h
  have ha : ∀ v, own v ≠ some a := hfree a (by simp)
  obtain ⟨hal, hnodup⟩ := List.nodup_cons.mp hnodup
  constructor
  · exact hnodup
  · intro b hb v
    rw [Function.update_apply]
    split
    · rintro ⟨⟩
      exact hal hb
    · exact hfree b (by simp [hb]) v
  · intro b hb
    by_cases hba : b = a
    · exact ⟨w, by simp [hba]⟩
    obtain ⟨v, hv⟩ := hheld b (by simp [hba, hb])
    refine ⟨v, ?_⟩
    rwa [Function.update_of_ne]
    rintro rfl
    rw [hw] at hv
    cases hv
  · intro v v' b hv hv'
    rw [Function.update_apply] at hv hv'
    grind -ring -linarith

/-- An owner gives its token back. -/
theorem Owned.give [DecidableEq ω] (h : Owned own l) (hw : own w = some a) :
    Owned (Function.update own w none) (a :: l) := by
  obtain ⟨hnodup, hfree, hheld, huniq⟩ := h
  have ha : a ∉ l := fun ha => hfree a ha w hw
  constructor
  · exact List.nodup_cons.mpr ⟨ha, hnodup⟩
  · intro b hb v
    rw [Function.update_apply]
    split
    · simp
    · next hv =>
      intro hvb
      rcases List.mem_cons.mp hb with rfl | hb
      · exact hv (huniq v w b hvb hw)
      · exact hfree b hb v hvb
  · intro b hb
    simp only [List.mem_cons, not_or] at hb
    obtain ⟨v, hv⟩ := hheld b hb.2
    refine ⟨v, ?_⟩
    rwa [Function.update_of_ne]
    rintro rfl
    rw [hw] at hv
    cases hv
    exact hb.1 rfl
  · intro v v' b hv hv'
    rw [Function.update_apply] at hv hv'
    grind -ring -linarith

/-- Where there are no more owners than tokens, an owner without a token leaves one free. -/
theorem Owned.ne_nil [Finite ω] (h : Owned own l) (hcard : Nat.card ω ≤ Nat.card α)
    (hw : own w = none) : l ≠ [] := by
  rintro rfl
  choose holder hholder using fun a => h.held a (by simp)
  have hinj : Function.Injective holder := fun a b hab => by
    have ha := hholder a
    rw [hab, hholder b] at ha
    cases ha
    rfl
  obtain ⟨a, ha⟩ := (hinj.bijective_of_nat_card_le hcard).surjective w
  have hb := hholder a
  rw [ha, hw] at hb
  cases hb

/-- A token is free, and once, or held by one owner. -/
theorem Owned.one [DecidableEq α] (h : Owned own l) (a : α) :
    (l.count a = 1 ∧ ∀ w, own w ≠ some a) ∨ (a ∉ l ∧ ∃! w, own w = some a) := by
  by_cases ha : a ∈ l
  · exact .inl ⟨List.count_eq_one_of_mem h.nodup ha, h.free a ha⟩
  · obtain ⟨w, hw⟩ := h.held a ha
    exact .inr ⟨ha, w, hw, fun v hv => h.unique v w a hv hw⟩

end Ownership
