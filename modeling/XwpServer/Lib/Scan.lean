/-
  XwpServer.Lib.Scan

  Scanning loops over a block of memory.

  A C loop `while (p(*q)) q++` reads one element after the other and stops at
  the first one that fails `p`.  Over a block given as a list it either stops
  inside the block (`some k`, the number of elements passed) or runs off its
  end (`none`, an access outside the block).

  The file also holds the frame rules every reader of such a block obeys: a
  computation that stays inside the block `m` does the same, at shifted
  positions, inside any larger block `pre ++ m ++ post`.  A sequence of reads
  and writes is framed by framing its members one by one.
-/

import Mathlib.Algebra.Group.Int.Defs
import Mathlib.Algebra.Group.Nat.Defs
import Mathlib.Data.List.Basic

namespace Scan

variable {α : Type _}

/-- Number of leading elements that satisfy `p`; `none` when all of them do,
    that is when the loop leaves the block. -/
def scan (p : α → Bool) : List α → Option Nat
  | [] => none
  | c :: cs => if p c then (scan p cs).map (· + 1) else some 0

/-- `scan` with a bound on the number of elements it may pass. -/
def scanUpTo (p : α → Bool) : Nat → List α → Option Nat
  | _, [] => none
  | 0, _ :: _ => some 0
  | n + 1, c :: cs => if p c then (scanUpTo p n cs).map (· + 1) else some 0

/-! ## Where a scan stops -/

theorem scan_append_cons {p : α → Bool} {a : List α} {c : α} (b : List α)
    (ha : ∀ x ∈ a, p x = true) (hc : p c = false) :
    scan p (a ++ c :: b) = some a.length := by
  induction a with
  | nil => simp [scan, hc]
  | cons x xs ih =>
      have hx : p x = true := ha x (by simp)
      have hxs := ih fun y hy => ha y (by simp [hy])
      simp [scan, hx, hxs]

/-- A scan that stops splits the block at the element it stopped at. -/
theorem scan_split {p : α → Bool} {l : List α} {k : Nat} (h : scan p l = some k) :
    ∃ a c b, l = a ++ c :: b ∧ a.length = k ∧ (∀ x ∈ a, p x = true) ∧ p c = false := by
  induction l generalizing k with
  | nil => simp [scan] at h
  | cons d ds ih =>
      by_cases hd : p d = true
      · simp only [scan, hd, if_true, Option.map_eq_some_iff] at h
        obtain ⟨j, hj, rfl⟩ := h
        obtain ⟨a, c, b, rfl, rfl, ha, hc⟩ := ih hj
        refine ⟨d :: a, c, b, rfl, rfl, ?_, hc⟩
        simpa [hd] using ha
      · have hd' : p d = false := by simpa using hd
        simp only [scan, hd', Bool.false_eq_true, if_false, Option.some.injEq] at h
        exact ⟨[], d, ds, rfl, h, by simp, hd'⟩

theorem scan_lt {p : α → Bool} {l : List α} {k : Nat} (h : scan p l = some k) :
    k < l.length := by
  obtain ⟨a, c, b, rfl, rfl, -, -⟩ := scan_split h
  simp

theorem scanUpTo_append_cons {p : α → Bool} {a : List α} {c : α} {n : Nat} (b : List α)
    (ha : ∀ x ∈ a, p x = true) (hn : a.length ≤ n) (hc : p c = false ∨ a.length = n) :
    scanUpTo p n (a ++ c :: b) = some a.length := by
  induction a generalizing n with
  | nil =>
      cases n with
      | zero => simp [scanUpTo]
      | succ n =>
          have hc' : p c = false := by simpa using hc
          simp [scanUpTo, hc']
  | cons x xs ih =>
      cases n with
      | zero => simp at hn
      | succ n =>
          have hx : p x = true := ha x (by simp)
          have hxs := ih (n := n) (fun y hy => ha y (by simp [hy]))
            (by simpa using hn) (by simpa using hc)
          simp [scanUpTo, hx, hxs]

/-- A bounded scan stops at the bound or at the first element that fails `p`. -/
theorem scanUpTo_split {p : α → Bool} {n : Nat} {l : List α} {k : Nat}
    (h : scanUpTo p n l = some k) :
    ∃ a c b, l = a ++ c :: b ∧ a.length = k ∧ k ≤ n ∧ (∀ x ∈ a, p x = true) ∧
      (p c = false ∨ k = n) := by
  induction l generalizing n k with
  | nil => simp [scanUpTo] at h
  | cons d ds ih =>
      cases n with
      | zero =>
          simp only [scanUpTo, Option.some.injEq] at h
          exact ⟨[], d, ds, rfl, h, by omega, by simp, Or.inr h.symm⟩
      | succ n =>
          by_cases hd : p d = true
          · simp only [scanUpTo, hd, if_true, Option.map_eq_some_iff] at h
            obtain ⟨j, hj, rfl⟩ := h
            obtain ⟨a, c, b, rfl, rfl, hle, ha, hc⟩ := ih hj
            refine ⟨d :: a, c, b, rfl, rfl, by omega, by simpa [hd] using ha, ?_⟩
            exact hc.imp id (by omega)
          · have hd' : p d = false := by simpa using hd
            simp only [scanUpTo, hd', Bool.false_eq_true, if_false, Option.some.injEq] at h
            exact ⟨[], d, ds, rfl, h, by omega, by simp, Or.inl hd'⟩

/-- The leading elements that satisfy `p`, and the rest. -/
theorem exists_span (p : α → Bool) (l : List α) :
    ∃ a b, l = a ++ b ∧ (∀ x ∈ a, p x = true) ∧ ∀ c b', b = c :: b' → p c = false := by
  induction l with
  | nil => exact ⟨[], [], rfl, by simp, nofun⟩
  | cons x xs ih =>
      by_cases hx : p x = true
      · obtain ⟨a, b, rfl, ha, hb⟩ := ih
        exact ⟨x :: a, b, rfl, by simpa [hx] using ha, hb⟩
      · refine ⟨[], x :: xs, rfl, by simp, fun c b' h => ?_⟩
        cases h
        simpa using hx

/-- There is only one such split. -/
theorem span_unique {p : α → Bool} {a a' b b' : List α} (h : a ++ b = a' ++ b')
    (ha : ∀ x ∈ a, p x = true) (hb : ∀ c l, b = c :: l → p c = false)
    (ha' : ∀ x ∈ a', p x = true) (hb' : ∀ c l, b' = c :: l → p c = false) :
    a = a' ∧ b = b' := by
  induction a generalizing a' with
  | nil =>
      cases a' with
      | nil => exact ⟨rfl, h⟩
      | cons y ys =>
          have hy := hb y _ h
          rw [ha' y (by simp)] at hy
          cases hy
  | cons x xs ih =>
      cases a' with
      | nil =>
          have hx := hb' x _ h.symm
          rw [ha x (by simp)] at hx
          cases hx
      | cons y ys =>
          simp only [List.cons_append, List.cons.injEq] at h
          obtain ⟨rfl, rfl⟩ := ih h.2 (fun z hz => ha z (by simp [hz]))
            fun z hz => ha' z (by simp [hz])
          exact ⟨by rw [h.1], rfl⟩

/-! ## Frame rules -/

theorem scan_append {p : α → Bool} {l : List α} {k : Nat} (h : scan p l = some k)
    (post : List α) : scan p (l ++ post) = some k := by
  obtain ⟨a, c, b, rfl, rfl, ha, hc⟩ := scan_split h
  simpa using scan_append_cons (b ++ post) ha hc

theorem scanUpTo_append {p : α → Bool} {n : Nat} {l : List α} {k : Nat}
    (h : scanUpTo p n l = some k) (post : List α) :
    scanUpTo p n (l ++ post) = some k := by
  obtain ⟨a, c, b, rfl, rfl, hle, ha, hc⟩ := scanUpTo_split h
  simpa using scanUpTo_append_cons (b ++ post) ha hle hc

theorem drop_frame (pre m post : List α) {i : Nat} (hi : i ≤ m.length) :
    (pre ++ m ++ post).drop (pre.length + i) = m.drop i ++ post := by
  rw [List.append_assoc, ← List.drop_drop, List.drop_left, List.drop_append_of_le_length hi]

theorem getElem?_frame_eq (pre m post : List α) {i : Nat} (hi : i < m.length) :
    (pre ++ m ++ post)[pre.length + i]? = m[i]? := by
  rw [List.append_assoc, List.getElem?_append_right (by omega), Nat.add_sub_cancel_left,
    List.getElem?_append_left hi]

theorem getElem?_frame {m : List α} {i : Nat} {c : α} (h : m[i]? = some c)
    (pre post : List α) : (pre ++ m ++ post)[pre.length + i]? = some c := by
  rw [getElem?_frame_eq pre m post (List.getElem?_eq_some_iff.mp h).1, h]

theorem set_frame (pre m post : List α) {i : Nat} (hi : i < m.length) (c : α) :
    (pre ++ m ++ post).set (pre.length + i) c = pre ++ m.set i c ++ post := by
  rw [List.append_assoc, List.set_append_right _ _ (by omega), Nat.add_sub_cancel_left,
    List.set_append_left _ _ hi, List.append_assoc]

theorem take_drop_frame (pre m post : List α) {i n : Nat} (hin : i + n ≤ m.length) :
    ((pre ++ m ++ post).drop (pre.length + i)).take n = (m.drop i).take n := by
  rw [drop_frame pre m post (by omega), List.take_append_of_le_length]
  simp only [List.length_drop]
  omega

theorem scan_frame {p : α → Bool} {m : List α} {i k : Nat}
    (h : scan p (m.drop i) = some k) (pre post : List α) :
    scan p ((pre ++ m ++ post).drop (pre.length + i)) = some k := by
  have hi : i ≤ m.length := by
    have := scan_lt h
    simp only [List.length_drop] at this
    omega
  rw [drop_frame pre m post hi]
  exact scan_append h post

theorem scanUpTo_frame {p : α → Bool} {n : Nat} {m : List α} {i k : Nat}
    (h : scanUpTo p n (m.drop i) = some k) (pre post : List α) :
    scanUpTo p n ((pre ++ m ++ post).drop (pre.length + i)) = some k := by
  have hi : i ≤ m.length := by
    obtain ⟨a, c, b, hl, -, -, -, -⟩ := scanUpTo_split h
    have := congrArg List.length hl
    simp only [List.length_drop, List.length_append, List.length_cons] at this
    omega
  rw [drop_frame pre m post hi]
  exact scanUpTo_append h post

end Scan
