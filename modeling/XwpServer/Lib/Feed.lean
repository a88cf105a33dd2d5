/-
  XwpServer.Lib.Feed

  Machines driven by events.

  A machine rests in a state `σ` until an event arrives, and then either comes to
  rest again or ends with a result `ρ`.  `feed` runs it on a list of events and
  returns the events it did not need.  What a run does on two lists in a row is
  the run on the second list from where the first one ended.
-/

import Mathlib.Data.List.Basic

namespace Feed

variable {σ ρ ε : Type _} (on : σ → ε → σ ⊕ ρ)

/-- Run the machine on a list of events. -/
def feed : σ ⊕ ρ → List ε → (σ ⊕ ρ) × List ε
  | s, [] => (s, [])
  | .inr r, es => (.inr r, es)
  | .inl s, e :: es => feed (on s e) es

@[simp] theorem feed_nil (s : σ ⊕ ρ) : feed on s [] = (s, []) := by cases s <;> rfl

@[simp] theorem feed_inr (r : ρ) (es : List ε) : feed on (.inr r) es = (.inr r, es) := by
  cases es <;> rfl

@[simp] theorem feed_cons (s : σ) (e : ε) (es : List ε) :
    feed on (.inl s) (e :: es) = feed on (on s e) es := rfl

/-- A machine that has come to rest has used all its events. -/
theorem feed_rest {s : σ ⊕ ρ} {t : σ} {es rest : List ε}
    (h : feed on s es = (.inl t, rest)) : rest = [] := by
  induction es generalizing s with
  | nil => simpa using (Prod.mk.inj h).2.symm
  | cons e es ih =>
      cases s with
      | inl s => exact ih h
      | inr r => simp at h

/-- The events a machine has not used are the last ones. -/
theorem feed_suffix (s : σ ⊕ ρ) (es : List ε) : (feed on s es).2 <:+ es := by
  induction es generalizing s with
  | nil => simp
  | cons e es ih =>
      cases s with
      | inl s => exact (ih (on s e)).trans (List.suffix_cons e es)
      | inr r => simp

theorem feed_append (s : σ ⊕ ρ) (es fs : List ε) :
    feed on s (es ++ fs)
      = match feed on s es with
        | (.inl t, _) => feed on (.inl t) fs
        | (.inr r, rest) => (.inr r, rest ++ fs) := by
  induction es generalizing s with
  | nil => cases s <;> simp
  | cons e es ih =>
      cases s with
      | inl s => exact ih (on s e)
      | inr r => simp

/-- What holds in every state the machine comes to rest in. -/
theorem feed_invariant {P : σ → Prop} {Q : ρ → Prop}
    (hstep : ∀ s e, P s → Sum.elim P Q (on s e)) {s : σ ⊕ ρ} (hs : Sum.elim P Q s)
    (es : List ε) : Sum.elim P Q (feed on s es).1 := by
  induction es generalizing s with
  | nil => simpa using hs
  | cons e es ih =>
      cases s with
      | inl s => exact ih (hstep s e hs)
      | inr r => simpa using hs

/-- What holds of every state with the events that led to it. -/
theorem feed_history {P : List ε → σ → Prop} {Q : List ε → ρ → Prop}
    (hstep : ∀ us s e, P us s → Sum.elim (P (us ++ [e])) (Q (us ++ [e])) (on s e)) {s : σ ⊕ ρ}
    (us : List ε) (hs : Sum.elim (P us) (Q us) s) (es : List ε) :
    ∃ used, es = used ++ (feed on s es).2 ∧
      Sum.elim (P (us ++ used)) (Q (us ++ used)) (feed on s es).1 := by
  induction es generalizing s us with
  | nil => exact ⟨[], by simp, by simpa using hs⟩
  | cons e es ih =>
      cases s with
      | inl s =>
          obtain ⟨used, hes, hend⟩ := ih _ (hstep us s e hs)
          refine ⟨e :: used, congrArg (e :: ·) hes, ?_⟩
          rw [List.append_assoc] at hend
          exact hend
      | inr r => exact ⟨[], by simp, by simpa using hs⟩

/-- Two machines whose states stay related while the first one meets a condition. -/
theorem feed_simulation_while {σ' ρ' : Type _} {on' : σ' → ε → σ' ⊕ ρ'}
    {R : σ → σ' → Prop} {Q : ρ → ρ' → Prop} {ok : σ ⊕ ρ → Prop}
    (hstep : ∀ s s' e, R s s' → ok (on s e) → Sum.LiftRel R Q (on s e) (on' s' e))
    {s : σ ⊕ ρ} {s' : σ' ⊕ ρ'} (hs : Sum.LiftRel R Q s s') (es : List ε)
    (hok : ∀ es', es' <+: es → ok (feed on s es').1) :
    Sum.LiftRel R Q (feed on s es).1 (feed on' s' es).1 ∧
      (feed on s es).2 = (feed on' s' es).2 := by
  induction es generalizing s s' with
  | nil => simpa using hs
  | cons e es ih =>
      cases hs with
      | @inl s s' h =>
          have hfirst : ok (on s e) := by simpa using hok [e] (by simp)
          exact ih (hstep _ _ e h hfirst) fun es' hes =>
            hok (e :: es') (List.cons_prefix_cons.mpr ⟨rfl, hes⟩)
      | inr h => exact ⟨by simpa using h, by simp⟩

/-- Two machines whose states stay related on the same events end related. -/
theorem feed_simulation {σ' ρ' : Type _} {on' : σ' → ε → σ' ⊕ ρ'}
    {R : σ → σ' → Prop} {Q : ρ → ρ' → Prop}
    (hstep : ∀ s s' e, R s s' → Sum.LiftRel R Q (on s e) (on' s' e))
    {s : σ ⊕ ρ} {s' : σ' ⊕ ρ'} (hs : Sum.LiftRel R Q s s') (es : List ε) :
    Sum.LiftRel R Q (feed on s es).1 (feed on' s' es).1 ∧
      (feed on s es).2 = (feed on' s' es).2 := by
  apply @feed_simulation_while _ _ _ on _ _ on' R Q fun _ => True
  · exact fun s s' e h _ => hstep s s' e h
  · exact hs
  · exact fun _ _ => trivial

/-- An event that leaves a state alone leaves the machine there however often it comes. -/
theorem feed_stuck {s : σ} {e : ε} (h : on s e = .inl s) (n : Nat) :
    feed on (.inl s) (List.replicate n e) = (.inl s, []) := by
  induction n with
  | zero => rfl
  | succ n ih =>
      rw [List.replicate_succ, feed_cons, h]
      exact ih

end Feed
