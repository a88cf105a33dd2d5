/-
  XwpServer.Lib.LinkedList

  Linked lists through a `next` field.

  `Chain next head l` says that the nodes reached from `head` are those of `l`, in
  its order, and that the last one has no successor.
-/

import Mathlib.Data.List.Nodup
import Mathlib.Logic.Function.Basic

namespace LinkedList

variable {α : Type _}

/-- The list `l` is linked through `next`, and `head` points to its first node. -/
def Chain (next : α → Option α) : Option α → List α → Prop
  | head, [] => head = none
  | head, a :: l => head = some a ∧ Chain next (next a) l

variable {next next' : α → Option α} {head : Option α} {a : α} {l : List α}

@[simp] theorem chain_nil : Chain next head [] ↔ head = none := Iff.rfl

@[simp] theorem chain_cons : Chain next head (a :: l) ↔ head = some a ∧ Chain next (next a) l :=
  Iff.rfl

/-- The links of other nodes do not matter. -/
theorem Chain.congr (h : Chain next head l) (hnext : ∀ b ∈ l, next' b = next b) :
    Chain next' head l := by
  induction l generalizing head with
  | nil => exact h
  | cons b l ih =>
      refine ⟨h.1, ?_⟩
      rw [hnext b (by simp)]
      exact ih h.2 fun c hc => hnext c (by simp [hc])

theorem Chain.update [DecidableEq α] (h : Chain next head l) (ha : a ∉ l) (x : Option α) :
    Chain (Function.update next a x) head l :=
  h.congr fun b hb => by
    rw [Function.update_of_ne]
    rintro rfl
    exact ha hb

/-- Put a node in front whose link is the old head. -/
theorem Chain.push (h : Chain next head l) (ha : next a = head) : Chain next (some a) (a :: l) :=
  ⟨rfl, by rwa [ha]⟩

/-- Take the first node off. -/
theorem Chain.pop (h : Chain next (some a) l) : ∃ t, l = a :: t ∧ Chain next (next a) t := by
  cases l with
  | nil => cases h
  | cons b t =>
      obtain ⟨hb, ht⟩ := h
      cases hb
      exact ⟨t, rfl, ht⟩

theorem Chain.head_ne_none (h : Chain next head l) (hl : l ≠ []) : head ≠ none := by
  cases l with
  | nil => exact absurd rfl hl
  | cons b t => simp [h.1]

/-- A list each of whose nodes points to the one behind it. -/
theorem chain_of_getElem? {l : List α} (h : ∀ i (hi : i < l.length), next l[i] = l[i + 1]?) :
    Chain next l.head? l := by
  induction l with
  | nil => rfl
  | cons a l ih =>
      refine ⟨rfl, ?_⟩
      have h0 : next a = l[0]? := h 0 (Nat.succ_pos _)
      rw [h0, ← List.head?_eq_getElem?]
      exact ih fun i hi => h (i + 1) (Nat.succ_lt_succ hi)

end LinkedList
