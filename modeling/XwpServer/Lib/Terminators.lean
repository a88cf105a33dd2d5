/-
  XwpServer.Lib.Terminators

  Writing terminators into a block.

  A tokenizer that works in place only writes zero bytes.  What has been written from
  `pos` on leaves the strings that end before `pos` as they are.
-/

import XwpServer.Lib.CString

namespace CString

open Scan

/-! ## Strings and the bytes they depend on -/

/-- A string starts at `off` and its terminator stands before `b`. -/
def EndsBefore (m : List Byte) (off b : Nat) : Prop :=
  ∃ s, strAt m off = some s ∧ off + s.length < b

theorem EndsBefore.mono {m : List Byte} {off b b' : Nat} (h : EndsBefore m off b) (hb : b ≤ b') :
    EndsBefore m off b' := by
  obtain ⟨s, hs, hlt⟩ := h
  exact ⟨s, hs, by omega⟩

/-- A scan for the zero byte goes no further than to one that is there. -/
theorem exists_scan_le {l : List Byte} {i : Nat} (h : l[i]? = some NUL) :
    ∃ k, scan (· != NUL) l = some k ∧ k ≤ i := by
  induction l generalizing i with
  | nil => simp at h
  | cons c cs ih =>
      by_cases hc : c = NUL
      · exact ⟨0, by simp [scan, hc], Nat.zero_le _⟩
      · cases i with
        | zero => simp [hc] at h
        | succ i =>
            obtain ⟨k, hk, hle⟩ := ih (by simpa using h)
            exact ⟨k + 1, by simp [scan, hc, hk], by omega⟩

/-- The string at `off` ends at the first zero byte, so at `j` if not before. -/
theorem endsBefore_of_nul {m : List Byte} {off j : Nat} (hj : m[j]? = some NUL) (hoff : off ≤ j) :
    EndsBefore m off (j + 1) := by
  have hjm : (m.drop off)[j - off]? = some NUL := by
    rw [List.getElem?_drop, Nat.add_sub_cancel' hoff]
    exact hj
  obtain ⟨k, hk, hle⟩ := exists_scan_le hjm
  have hlt := scan_lt hk
  refine ⟨(m.drop off).take k, by simp [strAt, hk], ?_⟩
  rw [List.length_take]
  omega

/-- A string depends on the bytes up to its terminator only. -/
theorem strAt_of_take_eq {m m' s : List Byte} {off b : Nat} (hs : strAt m off = some s)
    (hb : off + s.length < b) (h : m'.take b = m.take b) : strAt m' off = some s := by
  obtain ⟨hz, rest, hrest⟩ := strAt_eq_some_iff.mp hs
  refine strAt_eq_some_iff.mpr ⟨hz, m'.drop (off + s.length + 1), ?_⟩
  have hlt := length_lt_of_strAt hs
  have htake : (m'.drop off).take (s.length + 1) = s ++ [NUL] := by
    have h₁ : (m'.take b).drop off = (m.take b).drop off := by rw [h]
    rw [List.drop_take, List.drop_take] at h₁
    have h₂ := congrArg (List.take (s.length + 1)) h₁
    rw [List.take_take, List.take_take, Nat.min_eq_left (by omega)] at h₂
    rw [h₂, hrest, show s ++ NUL :: rest = (s ++ [NUL]) ++ rest by simp]
    exact List.take_left' (by simp)
  have hsplit := List.take_append_drop (s.length + 1) (m'.drop off)
  rw [htake, List.drop_drop] at hsplit
  rw [← hsplit]
  simp [Nat.add_assoc]

/-- The string also ends where it did before. -/
theorem EndsBefore.of_take_eq_end {m m' : List Byte} {off b e : Nat} (h : EndsBefore m off b)
    (he : EndsBefore m off e) (htake : m'.take b = m.take b) : EndsBefore m' off e := by
  obtain ⟨s, hs, hlt⟩ := h
  obtain ⟨t, ht, hlte⟩ := he
  obtain rfl : s = t := Option.some.inj (hs.symm.trans ht)
  exact ⟨s, strAt_of_take_eq hs hlt htake, hlte⟩

theorem EndsBefore.cstr_eq {m m' : List Byte} {off b : Nat} (h : EndsBefore m off b)
    (htake : m'.take b = m.take b) : cstr m' off = cstr m off := by
  obtain ⟨s, hs, hlt⟩ := h
  rw [cstr_of_strAt hs, cstr_of_strAt (strAt_of_take_eq hs hlt htake)]

/-- A terminator behind a string, or on its own terminator, does not change it. -/
theorem strAt_set_from {m s : List Byte} {off i : Nat} (h : strAt m off = some s)
    (hi : off + s.length ≤ i) : strAt (m.set i NUL) off = some s := by
  rcases Nat.lt_or_eq_of_le hi with hlt | heq
  · exact strAt_set_after h hlt NUL
  · obtain ⟨hz, b, hb⟩ := strAt_eq_some_iff.mp h
    rw [← heq]
    exact strAt_set_end hb hz

/-! ## Writing zero bytes only -/

/-- `m'` is `m` with zero bytes written at some places from `pos` on. -/
structure NulSets (pos : Nat) (m m' : List Byte) : Prop where
  length : m'.length = m.length
  byte : ∀ i, m'[i]? = m[i]? ∨ (pos ≤ i ∧ m'[i]? = some NUL)

namespace NulSets

variable {pos : Nat} {m m' m'' : List Byte}

theorem refl (pos : Nat) (m : List Byte) : NulSets pos m m := ⟨rfl, fun _ => .inl rfl⟩

theorem trans (h : NulSets pos m m') (h' : NulSets pos m' m'') : NulSets pos m m'' where
  length := h'.length.trans h.length
  byte i := by
    rcases h'.byte i with hi | hi
    · rw [hi]
      exact h.byte i
    · exact .inr hi

theorem set (h : NulSets pos m m') {i : Nat} (hi : pos ≤ i) : NulSets pos m (m'.set i NUL) := by
  refine h.trans ⟨List.length_set, fun j => ?_⟩
  rw [List.getElem?_set]
  by_cases hij : i = j
  · subst hij
    by_cases hlt : i < m'.length
    · exact .inr ⟨hi, by simp [hlt]⟩
    · simp [hlt]
  · simp [hij]

theorem mono (h : NulSets pos m m') {pos' : Nat} (hp : pos' ≤ pos) : NulSets pos' m m' where
  length := h.length
  byte i := (h.byte i).imp_right fun hi => ⟨Nat.le_trans hp hi.1, hi.2⟩

/-- The bytes in front of `pos` are kept. -/
theorem take_eq (h : NulSets pos m m') : m'.take pos = m.take pos := by
  apply List.ext_getElem?
  intro i
  rw [List.getElem?_take, List.getElem?_take]
  split
  · next hi =>
    rcases h.byte i with hb | hb
    · exact hb
    · omega
  · rfl

/-- Zero bytes stay. -/
theorem nul (h : NulSets pos m m') {i : Nat} (hi : m[i]? = some NUL) : m'[i]? = some NUL := by
  rcases h.byte i with hb | hb
  · rw [hb, hi]
  · exact hb.2

/-- A byte that is not zero has been there before. -/
theorem of_ne_nul (h : NulSets pos m m') {i : Nat} {c : Byte} (hi : m'[i]? = some c)
    (hc : c ≠ NUL) : m[i]? = some c := by
  rcases h.byte i with hb | hb
  · rw [← hb, hi]
  · rw [hb.2] at hi
    exact absurd (Option.some.inj hi).symm hc

end NulSets

/-! ## Zero bytes behind the received ones -/

/-- Every byte from `n` on is zero. -/
def ZeroFrom (n : Nat) (m : List Byte) : Prop := ∀ i c, n ≤ i → m[i]? = some c → c = NUL

theorem ZeroFrom.nulSets {n pos : Nat} {m m' : List Byte} (h : ZeroFrom n m)
    (hs : NulSets pos m m') : ZeroFrom n m' := by
  intro i c hi hc
  by_contra hne
  exact hne (h i c hi (hs.of_ne_nul hc hne))

/-- A byte that is not zero stands in front of the zero bytes. -/
theorem ZeroFrom.lt {n i : Nat} {m : List Byte} {c : Byte} (h : ZeroFrom n m)
    (hi : m[i]? = some c) (hc : c ≠ NUL) : i < n := by
  by_contra hle
  exact hc (h i c (by omega) hi)

theorem zeroFrom_replicate (n k : Nat) : ZeroFrom n (List.replicate k NUL) := by
  intro i c _ hc
  exact (List.mem_replicate.mp (List.mem_of_getElem? hc)).2

end CString
