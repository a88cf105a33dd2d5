/-
  XwpServer.Lib.LineParser

  Parsers that work unit by unit (line by line, say) on input that arrives in
  pieces.

  A machine cuts the next complete unit off the input and takes a step on it, for
  which it sees that unit only.  Where the cut is does not depend on what follows
  the unit, so neither does anything the machine does: parsing `u ++ v` is parsing
  `u` and going on with `v` (`run_append`), and feeding the pieces one by one gives
  what parsing them all at once gives (`feed_more_iff`, `feed_halt`).

  A step may leave a unit undecided; it stands for a reader that would have to look
  behind the unit.  There the machine is stuck.
-/

import XwpServer.Lib.Feed

namespace LineParser

variable {α σ ρ : Type _}

/-- What a step on a unit leads to. -/
inductive Verdict (σ ρ : Type _) where
  | next (s : σ)
  | halt (r : ρ)

/-- A parser that works unit by unit. -/
structure Machine (α σ ρ : Type _) where
  /-- Cut off the next unit, when it is complete. -/
  split : σ → List α → Option (List α × List α)
  /-- The step on a unit; `none` leaves it undecided. -/
  step : σ → List α → Option (Verdict σ ρ)
  split_append : ∀ {s u l t}, split s u = some (l, t) → ∀ v, split s (u ++ v) = some (l, t ++ v)
  split_eq : ∀ {s u l t}, split s u = some (l, t) → u = l ++ t
  split_ne_nil : ∀ {s u l t}, split s u = some (l, t) → l ≠ []

/-- The end of a parse: more input needed with `u` left to parse, a result with `t`
    behind it, or a unit at the start of `u` that is not decided. -/
inductive Parsed (α σ ρ : Type _) where
  | more (s : σ) (u : List α)
  | halt (r : ρ) (t : List α)
  | stuck (s : σ) (u : List α)

/-- Translate the states and results of a parse. -/
def Parsed.map {σ' ρ' : Type _} (f : σ → σ') (g : ρ → ρ') : Parsed α σ ρ → Parsed α σ' ρ'
  | .more s u => .more (f s) u
  | .halt r t => .halt (g r) t
  | .stuck s u => .stuck (f s) u

@[simp] theorem Parsed.map_eq_halt {σ' ρ' : Type _} {f : σ → σ'} {g : ρ → ρ'}
    {x : Parsed α σ ρ} {r' : ρ'} {t : List α} :
    x.map f g = .halt r' t ↔ ∃ r, x = .halt r t ∧ g r = r' := by
  cases x <;> simp [Parsed.map, and_comm]

@[simp] theorem Parsed.map_eq_more {σ' ρ' : Type _} {f : σ → σ'} {g : ρ → ρ'}
    {x : Parsed α σ ρ} {s' : σ'} {u : List α} :
    x.map f g = .more s' u ↔ ∃ s, x = .more s u ∧ f s = s' := by
  cases x <;> simp [Parsed.map, and_comm]

@[simp] theorem Parsed.map_eq_stuck {σ' ρ' : Type _} {f : σ → σ'} {g : ρ → ρ'}
    {x : Parsed α σ ρ} {s' : σ'} {u : List α} :
    x.map f g = .stuck s' u ↔ ∃ s, x = .stuck s u ∧ f s = s' := by
  cases x <;> simp [Parsed.map, and_comm]

namespace Machine

variable (M : Machine α σ ρ)

/-- Parse the units of `u` from state `s` on. -/
def run (s : σ) (u : List α) : Parsed α σ ρ :=
  match _h : M.split s u with
  | none => .more s u
  | some (l, t) =>
    match M.step s l with
    | none => .stuck s u
    | some (.next s) => run s t
    | some (.halt r) => .halt r t
termination_by u.length
decreasing_by
  have hl := List.length_pos_of_ne_nil (M.split_ne_nil _h)
  have hu := congrArg List.length (M.split_eq _h)
  simp only [List.length_append] at hu
  omega

variable {M} {s s' : σ} {u u' l t v : List α} {r : ρ}

theorem run_of_split_none (h : M.split s u = none) : M.run s u = .more s u := by
  rw [run]
  split
  · rfl
  · simp_all

theorem run_of_next (h : M.split s u = some (l, t)) (hs : M.step s l = some (.next s')) :
    M.run s u = M.run s' t := by
  rw [run]
  split <;> simp_all

theorem run_of_halt (h : M.split s u = some (l, t)) (hs : M.step s l = some (.halt r)) :
    M.run s u = .halt r t := by
  rw [run]
  split <;> simp_all

theorem run_of_stuck (h : M.split s u = some (l, t)) (hs : M.step s l = none) :
    M.run s u = .stuck s u := by
  rw [run]
  split <;> simp_all

/-- Induction along a parse. -/
theorem run_induction {P : σ → List α → Parsed α σ ρ → Prop}
    (hmore : ∀ s u, M.split s u = none → P s u (.more s u))
    (hstuck : ∀ s u l t, M.split s u = some (l, t) → M.step s l = none → P s u (.stuck s u))
    (hnext : ∀ s u l t s', M.split s u = some (l, t) → M.step s l = some (.next s') →
      P s' t (M.run s' t) → P s u (M.run s' t))
    (hhalt : ∀ s u l t r, M.split s u = some (l, t) → M.step s l = some (.halt r) →
      P s u (.halt r t)) (s : σ) (u : List α) : P s u (M.run s u) := by
  rcases h : M.split s u with _ | ⟨l, t⟩
  · rw [run_of_split_none h]
    exact hmore s u h
  · rcases hs : M.step s l with _ | ⟨s' | r⟩
    · rw [run_of_stuck h hs]
      exact hstuck s u l t h hs
    · have hlt : t.length < u.length := by
        have hl := List.length_pos_of_ne_nil (M.split_ne_nil h)
        have hu := congrArg List.length (M.split_eq h)
        simp only [List.length_append] at hu
        omega
      rw [run_of_next h hs]
      exact hnext s u l t s' h hs (run_induction hmore hstuck hnext hhalt s' t)
    · rw [run_of_halt h hs]
      exact hhalt s u l t r h hs
termination_by u.length

/-- Parsing `u ++ v` is parsing `u` and going on with `v`. -/
theorem run_append (s : σ) (u v : List α) :
    M.run s (u ++ v)
      = match M.run s u with
        | .more s u => M.run s (u ++ v)
        | .halt r t => .halt r (t ++ v)
        | .stuck s u => .stuck s (u ++ v) := by
  refine run_induction (P := fun s u x => M.run s (u ++ v) = match x with
    | .more s u => M.run s (u ++ v)
    | .halt r t => .halt r (t ++ v)
    | .stuck s u => .stuck s (u ++ v)) ?_ ?_ ?_ ?_ s u
  · intro s u _
    rfl
  · intro s u l t h hs
    exact run_of_stuck (M.split_append h v) hs
  · intro s u l t s' h hs ih
    rw [run_of_next (M.split_append h v) hs]
    exact ih
  · intro s u l t r h hs
    exact run_of_halt (M.split_append h v) hs

/-! ## Input in pieces -/

/-- A unit that a parse is stuck at. -/
theorem step_of_stuck (h : M.run s u = .stuck s' u') :
    ∃ l t, M.split s' u' = some (l, t) ∧ M.step s' l = none := by
  have key : ∀ x, x = M.run s u → x = .stuck s' u' →
      ∃ l t, M.split s' u' = some (l, t) ∧ M.step s' l = none := by
    refine fun x hx => ?_
    subst hx
    refine run_induction (P := fun _ _ x => x = .stuck s' u' →
      ∃ l t, M.split s' u' = some (l, t) ∧ M.step s' l = none) ?_ ?_ ?_ ?_ s u
    · intro _ _ _ he
      cases he
    · intro s u l t hs hl he
      cases he
      exact ⟨l, t, hs, hl⟩
    · intro _ _ _ _ _ _ _ ih
      exact ih
    · intro _ _ _ _ _ _ _ he
      cases he
  exact key _ rfl h

/-- The machine as one that rests when it needs more input; otherwise it ends with a
    result, or at the state it is stuck in. -/
def resume : Parsed α σ ρ → (σ × List α) ⊕ ((ρ ⊕ σ) × List α)
  | .more s u => .inl (s, u)
  | .halt r t => .inr (.inl r, t)
  | .stuck s u => .inr (.inr s, u)

variable (M) in
/-- Parse `u` and then the pieces `ps`, each as it arrives. -/
def feed (s : σ) (u : List α) (ps : List (List α)) :
    ((σ × List α) ⊕ ((ρ ⊕ σ) × List α)) × List (List α) :=
  Feed.feed (fun x p => resume (M.run x.1 (x.2 ++ p))) (resume (M.run s u)) ps

theorem feed_nil (s : σ) (u : List α) : M.feed s u [] = (resume (M.run s u), []) := by
  simp [feed]

theorem feed_of_more {p : List α} {ps : List (List α)} (h : M.run s u = .more s' u') :
    M.feed s u (p :: ps) = M.feed s' (u' ++ p) ps := by
  simp [feed, h, resume]

theorem feed_of_halt {ps : List (List α)} (h : M.run s u = .halt r t) :
    M.feed s u ps = (.inr (.inl r, t), ps) := by
  simp [feed, h, resume]

theorem feed_of_stuck {ps : List (List α)} (h : M.run s u = .stuck s' u') :
    M.feed s u ps = (.inr (.inr s', u'), ps) := by
  simp [feed, h, resume]

/-- Feeding the pieces gives what parsing all of them gives; a machine that ends
    before the last piece leaves the others unparsed. -/
theorem feed_eq (s : σ) (u : List α) (ps : List (List α)) :
    resume (M.run s (u ++ ps.flatten))
      = match M.feed s u ps with
        | (.inl x, _) => .inl x
        | (.inr (y, t), rest) => .inr (y, t ++ rest.flatten) := by
  induction ps generalizing s u with
  | nil =>
      simp only [feed, List.flatten_nil, List.append_nil]
      rcases M.run s u with ⟨s', u'⟩ | ⟨r, t⟩ | ⟨s', u'⟩ <;> simp [resume]
  | cons p ps ih =>
      rw [List.flatten_cons, run_append]
      simp only [feed]
      rcases M.run s u with ⟨s', u'⟩ | ⟨r, t⟩ | ⟨s', u'⟩
      · simp only [resume, Feed.feed_cons, ← List.append_assoc]
        exact ih s' (u' ++ p)
      · simp [resume]
      · simp [resume]

theorem feed_of_run_more {ps : List (List α)} (h : M.run s (u ++ ps.flatten) = .more s' u') :
    M.feed s u ps = (.inl (s', u'), []) := by
  have heq := feed_eq (M := M) s u ps
  rw [h] at heq
  rcases hf : M.feed s u ps with ⟨x | ⟨y, t⟩, rest⟩
  · have hrest : rest = [] := Feed.feed_rest _ hf
    simp only [hf, resume, Sum.inl.injEq] at heq
    rw [← heq, hrest]
  · simp [hf, resume] at heq

/-- A machine that ends on the whole input ends when it is fed, and leaves what it has
    not parsed. -/
theorem feed_of_run_end {ps : List (List α)} {y : ρ ⊕ σ} {t : List α}
    (h : resume (M.run s (u ++ ps.flatten)) = .inr (y, t)) :
    ∃ t' rest, t = t' ++ rest.flatten ∧ rest <:+ ps ∧ M.feed s u ps = (.inr (y, t'), rest) := by
  have heq := feed_eq (M := M) s u ps
  have hsuffix : (M.feed s u ps).2 <:+ ps := Feed.feed_suffix _ _ _
  rw [h] at heq
  rcases hf : M.feed s u ps with ⟨x | ⟨y', t'⟩, rest⟩
  · simp [hf] at heq
  · simp only [hf, Sum.inr.injEq, Prod.mk.injEq] at heq
    obtain ⟨rfl, rfl⟩ := heq
    rw [hf] at hsuffix
    exact ⟨t', rest, rfl, hsuffix, rfl⟩

/-- A machine that is fed and gets stuck has the undecided unit in front of it. -/
theorem split_of_feed_stuck {ps rest : List (List α)} {t : List α}
    (h : M.feed s u ps = (.inr (.inr s', t), rest)) :
    ∃ l t', M.split s' t = some (l, t') ∧ M.step s' l = none := by
  have hresume : ∀ (s : σ) (u : List α), Sum.elim (fun _ => True)
      (fun y : (ρ ⊕ σ) × List α => ∀ s', y.1 = .inr s' →
        ∃ l t', M.split s' y.2 = some (l, t') ∧ M.step s' l = none) (resume (M.run s u)) := by
    intro s u
    rcases hrun : M.run s u with ⟨s', u'⟩ | ⟨r, t⟩ | ⟨s', u'⟩
    · trivial
    · simp [resume]
    · simp only [resume, Sum.elim_inr, Sum.inr.injEq]
      rintro _ rfl
      exact step_of_stuck hrun
  have key := Feed.feed_invariant (fun x p => resume (M.run x.1 (x.2 ++ p)))
    (fun s p _ => hresume s.1 (s.2 ++ p)) (hresume s u) ps
  rw [show Feed.feed _ _ ps = M.feed s u ps from rfl, h] at key
  exact key s' rfl

end Machine

end LineParser
