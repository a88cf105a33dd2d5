/-
  XwpServer.Lib.BinarySearch

  Binary search with closed windows, on a table that need not be sorted.

  The first window may reach one index behind the table.  What is found is always there.
  The index behind the table is read only for keys above the last entry
  (`search_outside`), and for keys above all entries it is (`search_above`).  An entry is
  found when its key compares with the middles on the way to it as their positions do
  (`search_guided`); in a sorted table every entry is such a one.
-/

import Mathlib.Data.List.Basic

namespace BinarySearch

/-- How a search ends: at an entry, without one, or by a read outside the table.  A search
    that is cut off is `pending`. -/
inductive Found where
  | index (i : Nat)
  | missing
  | outside
  | pending
  deriving DecidableEq, Repr

/-- `while (low <= high)`, for at most `fuel` rounds. -/
def search (t : List Int) (key : Int) : (fuel : Nat) → (low high : Int) → Found
  | 0, _, _ => .pending
  | fuel + 1, low, high =>
      if high < low then .missing
      else
        let mid := (low + high) / 2
        match t[mid.toNat]? with
        | none => .outside
        | some x =>
            if x = key then .index mid.toNat
            else if x < key then search t key fuel (mid + 1) high
            else search t key fuel low (mid - 1)

/-- The middles of the windows that are left on the way to the index `q`. -/
def pathTo (q : Int) : (fuel : Nat) → (low high : Int) → List Int
  | 0, _, _ => []
  | fuel + 1, low, high =>
      if high < low then []
      else
        let mid := (low + high) / 2
        if mid = q then []
        else mid :: if mid < q then pathTo q fuel (mid + 1) high else pathTo q fuel low (mid - 1)

/-- The entry at `q` compares with the middles on the way to it as their positions do. -/
def Guided (t : List Int) (q : Nat) : Prop :=
  ∀ m ∈ pathTo q (t.length + 2) 0 t.length, ∀ x ∈ t[m.toNat]?, ∀ y ∈ t[q]?,
    (m < q → x ≤ y) ∧ (q < m → y ≤ x)

instance (t : List Int) (q : Nat) : Decidable (Guided t q) :=
  inferInstanceAs (Decidable (∀ m ∈ _, ∀ x ∈ _, ∀ y ∈ _, _))

section Search

variable {t : List Int} {key : Int}

/-- A window of the table, or of the table and the index behind it. -/
structure Window (t : List Int) (low high : Int) : Prop where
  low_nonneg : 0 ≤ low
  high_le : high ≤ t.length

theorem Window.right {low high : Int} (h : Window t low high) (hle : low ≤ high) :
    Window t ((low + high) / 2 + 1) high :=
  ⟨by have := h.low_nonneg; omega, h.high_le⟩

theorem Window.left {low high : Int} (h : Window t low high) (hle : low ≤ high) :
    Window t low ((low + high) / 2 - 1) :=
  ⟨h.low_nonneg, by have := h.high_le; omega⟩

/-- Every round leaves fewer indices. -/
theorem search_ends {fuel : Nat} {low high : Int} (h : (high + 1 - low).toNat < fuel) :
    search t key fuel low high ≠ .pending := by
  induction fuel generalizing low high with
  | zero => cases h
  | succ fuel ih =>
      rw [search]
      split
      · nofun
      dsimp only
      split
      · nofun
      split
      · nofun
      split
      · exact ih (by omega)
      · exact ih (by omega)

/-- More rounds than are needed make no difference. -/
theorem search_fuel {fuel fuel' : Nat} {low high : Int} (h : (high + 1 - low).toNat < fuel)
    (hle : fuel ≤ fuel') : search t key fuel' low high = search t key fuel low high := by
  induction fuel generalizing fuel' low high with
  | zero => cases h
  | succ fuel ih =>
      obtain ⟨n, rfl⟩ : ∃ n, fuel' = n + 1 := ⟨fuel' - 1, by omega⟩
      rw [search, search]
      split
      · rfl
      dsimp only
      split
      · rfl
      rw [@ih n ((low + high) / 2 + 1) high (by omega) (by omega),
        @ih n low ((low + high) / 2 - 1) (by omega) (by omega)]

/-- What is found is there. -/
theorem search_found {fuel : Nat} {low high : Int} {i : Nat}
    (h : search t key fuel low high = .index i) : t[i]? = some key := by
  induction fuel generalizing low high with
  | zero => cases h
  | succ fuel ih =>
      rw [search] at h
      split at h
      · cases h
      dsimp only at h
      split at h
      · cases h
      next x hx =>
      split at h
      · next hkey =>
        cases h
        rw [hx, hkey]
      split at h
      · exact ih h
      · exact ih h

/-- The index behind the table is read only when the window has shrunk to it, so behind an
    entry that is below the key. -/
theorem search_outside_from {fuel : Nat} {low high : Int} (hw : Window t low high)
    (hlow : low = t.length → ∀ x ∈ t.getLast?, x < key)
    (h : search t key fuel low high = .outside) : ∀ x ∈ t.getLast?, x < key := by
  induction fuel generalizing low high with
  | zero => cases h
  | succ fuel ih =>
      rw [search] at h
      split at h
      · cases h
      next hle =>
      have hle : low ≤ high := by omega
      have hnonneg := hw.low_nonneg
      have hhigh := hw.high_le
      dsimp only at h
      split at h
      · next hnone =>
        have := List.getElem?_eq_none_iff.mp hnone
        exact hlow (by omega)
      next x hx =>
      split at h
      · cases h
      split at h
      · next hlt =>
        refine ih (hw.right hle) (fun hend y hy => ?_) h
        -- the middle was the last entry
        have hmid : ((low + high) / 2).toNat = t.length - 1 := by omega
        rw [List.getLast?_eq_getElem?, ← hmid, hx] at hy
        cases hy
        exact hlt
      · refine ih (hw.left hle) (fun hend => ?_) h
        have hlt := (List.getElem?_eq_some_iff.mp hx).1
        omega

/-- The index behind the table is read only for keys above the last entry. -/
theorem search_outside {fuel : Nat} (h : search t key fuel 0 t.length = .outside) :
    ∀ x ∈ t.getLast?, x < key := by
  refine search_outside_from ⟨Int.le_refl _, Int.le_refl _⟩ (fun hend x hx => ?_) h
  have hnil : t = [] := List.eq_nil_of_length_eq_zero (by omega)
  subst hnil
  cases hx

theorem search_above_from {fuel : Nat} {low : Int} (hlow : 0 ≤ low) (hle : low ≤ t.length)
    (hall : ∀ x ∈ t, x < key) (hfuel : ((t.length : Int) + 1 - low).toNat < fuel) :
    search t key fuel low t.length = .outside := by
  induction fuel generalizing low with
  | zero => cases hfuel
  | succ fuel ih =>
      rw [search, if_neg (by omega)]
      dsimp only
      split
      · rfl
      next x hx =>
      have hlt := hall x (List.mem_of_getElem? hx)
      have hmid := (List.getElem?_eq_some_iff.mp hx).1
      rw [if_neg (by omega), if_pos hlt]
      exact ih (by omega) (by omega) (by omega)

/-- For a key above all entries the index behind the table is read. -/
theorem search_above {fuel : Nat} (hall : ∀ x ∈ t, x < key) (hfuel : t.length + 1 < fuel) :
    search t key fuel 0 t.length = .outside :=
  search_above_from (Int.le_refl _) (by omega) hall (by omega)

theorem search_guided_from {fuel : Nat} {low high : Int} {q : Nat} (hw : Window t low high)
    (hq : t[q]? = some key) (hlow : low ≤ q) (hhigh : q ≤ high)
    (hpath : ∀ m ∈ pathTo q fuel low high, ∀ x ∈ t[m.toNat]?,
      (m < q → x ≤ key) ∧ (q < m → key ≤ x))
    (hfuel : (high + 1 - low).toNat < fuel) : ∃ i, search t key fuel low high = .index i := by
  -- on the rounds; the window keeps the place `q`, since each entry looked at on the way
  -- points towards it
  induction fuel generalizing low high with
  | zero => cases hfuel
  | succ fuel ih =>
      have hqlt := (List.getElem?_eq_some_iff.mp hq).1
      have hnonneg := hw.low_nonneg
      rw [pathTo, if_neg (by omega)] at hpath
      rw [search, if_neg (by omega)]
      dsimp only at hpath ⊢
      by_cases hmid : (low + high) / 2 = q
      · rw [hmid, Int.toNat_natCast, hq]
        exact ⟨q, by simp⟩
      rw [if_neg hmid] at hpath
      have hle : low ≤ high := by omega
      have hbound := hw.high_le
      have hmidlt : ((low + high) / 2).toNat < t.length := by omega
      obtain ⟨x, hx⟩ : ∃ x, t[((low + high) / 2).toNat]? = some x :=
        ⟨_, List.getElem?_eq_getElem hmidlt⟩
      have hcmp := hpath _ List.mem_cons_self x hx
      rw [hx]
      dsimp only
      by_cases hkey : x = key
      · exact ⟨_, if_pos hkey⟩
      rw [if_neg hkey]
      by_cases hlt : (low + high) / 2 < q
      · have := hcmp.1 hlt
        rw [if_pos (show x < key by omega)]
        rw [if_pos hlt] at hpath
        exact ih (hw.right hle) (by omega) hhigh
          (fun m hm => hpath m (List.mem_cons_of_mem _ hm)) (by omega)
      · have := hcmp.2 (by omega)
        rw [if_neg (show ¬ x < key by omega)]
        rw [if_neg hlt] at hpath
        exact ih (hw.left hle) hlow (by omega)
          (fun m hm => hpath m (List.mem_cons_of_mem _ hm)) (by omega)

/-- The key of an entry that is guided is found. -/
theorem search_guided {q : Nat} (hq : t[q]? = some key) (h : Guided t q) :
    ∃ i, search t key (t.length + 2) 0 t.length = .index i := by
  have hqlt := (List.getElem?_eq_some_iff.mp hq).1
  exact search_guided_from ⟨Int.le_refl _, Int.le_refl _⟩ hq (by omega) (by omega)
    (fun m hm x hx => h m hm x hx key hq) (by omega)

/-- In a sorted table every entry is guided. -/
theorem guided_of_sorted (hs : t.Pairwise (· < ·)) (q : Nat) : Guided t q := by
  intro m _ x hx y hy
  obtain ⟨hm, rfl⟩ := List.getElem?_eq_some_iff.mp hx
  obtain ⟨hq, rfl⟩ := List.getElem?_eq_some_iff.mp hy
  have hpair := List.pairwise_iff_getElem.mp hs
  constructor
  · intro hlt
    by_cases hneg : m.toNat = q
    · simp [hneg]
    · exact Int.le_of_lt (hpair _ _ hm hq (by omega))
  · intro hlt
    exact Int.le_of_lt (hpair _ _ hq hm (by omega))

end Search

end BinarySearch
