/-
  XwpServer.Lib.Ledger

  Accounts of resources that are acquired and released.

  Every acquisition gets the next number; the ledger keeps the numbers that have
  been released, as often as they have been.  `Accounts` says that a number is
  held or released, and only once: with nothing held, everything that has been
  acquired has been released exactly once.
-/

import Mathlib.Data.List.Count

/-- What has been acquired and released so far. -/
structure Ledger where
  /-- The number of the next acquisition. -/
  next : Nat := 0
  released : List Nat := []
  deriving DecidableEq, Repr

namespace Ledger

def acquire (l : Ledger) : Ledger := { l with next := l.next + 1 }

def release (l : Ledger) (h : Nat) : Ledger := { l with released := h :: l.released }

/-- Release what a handle that may be empty denotes. -/
def releaseOpt (l : Ledger) : Option Nat → Ledger
  | some h => l.release h
  | none => l

@[simp] theorem releaseOpt_none (l : Ledger) : l.releaseOpt none = l := rfl
@[simp] theorem releaseOpt_some (l : Ledger) (h : Nat) : l.releaseOpt (some h) = l.release h := rfl

@[simp] theorem acquire_next (l : Ledger) : l.acquire.next = l.next + 1 := rfl
@[simp] theorem acquire_released (l : Ledger) : l.acquire.released = l.released := rfl
@[simp] theorem release_next (l : Ledger) (h : Nat) : (l.release h).next = l.next := rfl
@[simp] theorem release_released (l : Ledger) (h : Nat) :
    (l.release h).released = h :: l.released := rfl

/-- Each acquired resource is in `held` or has been released, exactly once. -/
def Accounts (l : Ledger) (held : List Nat) : Prop :=
  ∀ h, (h < l.next → l.released.count h + held.count h = 1) ∧
    (l.next ≤ h → l.released.count h + held.count h = 0)

/-- Everything acquired has been released exactly once. -/
def Balanced (l : Ledger) : Prop := ∀ h < l.next, l.released.count h = 1

theorem accounts_empty : Accounts {} [] := fun h => by simp

namespace Accounts

variable {l : Ledger} {held held' : List Nat} {h : Nat}

theorem balanced (ha : l.Accounts []) : l.Balanced := fun h hlt => by
  simpa using (ha h).1 hlt

theorem perm (ha : l.Accounts held) (hp : held.Perm held') : l.Accounts held' := fun h => by
  rw [← hp.count_eq h]
  exact ha h

theorem lt (ha : l.Accounts held) (hh : h ∈ held) : h < l.next := by
  have hpos : 0 < held.count h := List.count_pos_iff.mpr hh
  by_contra hge
  have := (ha h).2 (Nat.le_of_not_lt hge)
  omega

/-- What is held has not been released. -/
theorem not_released (ha : l.Accounts held) (hh : h ∈ held) : h ∉ l.released := by
  intro hmem
  have := (ha h).1 (ha.lt hh)
  have h₁ : 0 < held.count h := List.count_pos_iff.mpr hh
  have h₂ : 0 < l.released.count h := List.count_pos_iff.mpr hmem
  omega

theorem acquire (ha : l.Accounts held) : l.acquire.Accounts (l.next :: held) := fun h => by
  obtain ⟨h₁, h₂⟩ := ha h
  simp only [acquire_next, acquire_released, List.count_cons, beq_iff_eq]
  rcases eq_or_ne l.next h with rfl | hne
  · have := h₂ (Nat.le_refl _)
    simp only [if_true]
    omega
  · simp only [hne, if_false]
    omega

theorem release (ha : l.Accounts (h :: held)) : (l.release h).Accounts held := fun x => by
  have := ha x
  simp only [release_next, release_released, List.count_cons] at this ⊢
  omega

theorem releaseOpt {o : Option Nat} (ha : l.Accounts (o.toList ++ held)) :
    (l.releaseOpt o).Accounts held := by
  cases o with
  | none => exact ha
  | some h => exact ha.release

/-- Release all that is held. -/
theorem releaseAll {o : Option Nat} (ha : l.Accounts o.toList) : (l.releaseOpt o).Accounts [] :=
  releaseOpt (by rwa [List.append_nil])

theorem acquireLast (ha : l.Accounts held) : l.acquire.Accounts (held ++ [l.next]) :=
  ha.acquire.perm (List.perm_append_singleton _ _).symm

theorem releaseLast {o : Option Nat} (ha : l.Accounts (held ++ o.toList)) :
    (l.releaseOpt o).Accounts held :=
  releaseOpt (ha.perm List.perm_append_comm)

end Accounts

end Ledger
