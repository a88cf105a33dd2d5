/-
  XwpServer.Lib.Transition

  Transition systems given by a partial step function.

  A move is enabled in a state when the step function is defined there.  A run
  takes enabled moves only; `Reaches ok` are the runs whose every move also meets
  the condition `ok`, which may look at the state the move is made in.
-/

import Mathlib.Logic.Relation

namespace Transition

variable {σ μ : Type _} (step : σ → μ → Option σ)

/-- One move that meets the condition `ok`. -/
def StepOf (ok : σ → μ → Prop) (s s' : σ) : Prop := ∃ m, ok s m ∧ step s m = some s'

/-- A run whose every move meets the condition `ok`. -/
def Reaches (ok : σ → μ → Prop) : σ → σ → Prop := Relation.ReflTransGen (StepOf step ok)

/-- The condition every move meets. -/
def anyMove (_ : σ) (_ : μ) : Prop := True

instance (s : σ) (m : μ) : Decidable (anyMove s m) := inferInstanceAs (Decidable True)

/-- Make the moves of a list. -/
def exec (s : σ) : List μ → Option σ
  | [] => some s
  | m :: ms => (step s m).bind fun s => exec s ms

/-- Make the moves of a list, each of which has to meet the condition `ok`. -/
def execOf (ok : σ → μ → Prop) [∀ s m, Decidable (ok s m)] (s : σ) : List μ → Option σ
  | [] => some s
  | m :: ms => if ok s m then (step s m).bind fun s => execOf ok s ms else none

variable {step} {ok : σ → μ → Prop}

/-- An invariant that the permitted moves keep holds at the end of every run. -/
theorem Reaches.invariant {I : σ → Prop} {s t : σ} (h : Reaches step ok s t)
    (hstep : ∀ s m s', I s → ok s m → step s m = some s' → I s') (hs : I s) : I t := by
  induction h with
  | refl => exact hs
  | tail _ hst ih =>
      obtain ⟨m, hm, hst⟩ := hst
      exact hstep _ m _ ih hm hst

theorem Reaches.tail {s t u : σ} {m : μ} (h : Reaches step ok s t) (hm : ok t m)
    (hst : step t m = some u) : Reaches step ok s u :=
  Relation.ReflTransGen.tail h ⟨m, hm, hst⟩

theorem Reaches.mono {ok' : σ → μ → Prop} (hok : ∀ s m, ok s m → ok' s m) {s t : σ}
    (h : Reaches step ok s t) : Reaches step ok' s t := by
  induction h with
  | refl => exact Relation.ReflTransGen.refl
  | tail _ hst ih =>
      obtain ⟨m, hm, hst⟩ := hst
      exact ih.tail (hok _ m hm) hst

/-- The last one of some moves. -/
theorem step_of_exec {s t u : σ} {ms : List μ} {m : μ} (ht : exec step s ms = some t)
    (hu : exec step s (ms ++ [m]) = some u) : step t m = some u := by
  induction ms generalizing s with
  | nil =>
      cases ht
      obtain ⟨u', hst, hu⟩ := Option.bind_eq_some_iff.mp hu
      exact hst.trans hu
  | cons m' ms ih =>
      obtain ⟨s', hst, ht⟩ := Option.bind_eq_some_iff.mp ht
      obtain ⟨s'', hst', hu⟩ := Option.bind_eq_some_iff.mp hu
      obtain rfl := Option.some.inj (hst.symm.trans hst')
      exact ih ht hu

/-- A list of permitted moves is a run. -/
theorem reaches_of_execOf [∀ s m, Decidable (ok s m)] {s t : σ} {ms : List μ}
    (h : execOf step ok s ms = some t) : Reaches step ok s t := by
  induction ms generalizing s with
  | nil =>
      cases h
      exact Relation.ReflTransGen.refl
  | cons m ms ih =>
      simp only [execOf] at h
      split at h
      · next hm =>
        obtain ⟨s', hst, h⟩ := Option.bind_eq_some_iff.mp h
        exact (ih h).head ⟨m, hm, hst⟩
      · cases h

theorem reaches_of_exec {s t : σ} {ms : List μ} (h : exec step s ms = some t) :
    Reaches step anyMove s t := by
  induction ms generalizing s with
  | nil =>
      cases h
      exact Relation.ReflTransGen.refl
  | cons m ms ih =>
      obtain ⟨s', hst, h⟩ := Option.bind_eq_some_iff.mp h
      exact (ih h).head ⟨m, trivial, hst⟩

end Transition
