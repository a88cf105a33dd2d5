/-
  XwpServer.Lib.Walk

  Walks along a partial function.

  A loop that leaves each place by a function of that place alone follows a walk: from a
  place the next one is determined, so a walk that ends never comes back to a place.
  The loop itself needs fuel; it ends with some fuel exactly if the walk does.
-/

import Mathlib.Data.List.Nodup

namespace Walk

variable {α : Type} {next : α → Option α}

/-! ## Walks that end -/

/-- The places from `a` on, up to one that is outside. -/
inductive Ends (next : α → Option α) : α → List α → Prop
  | outside {a : α} : next a = none → Ends next a []
  | step {a b : α} {l : List α} : next a = some b → Ends next b l → Ends next a (a :: l)

/-- The walk from a place is determined. -/
theorem Ends.unique {a : α} {l l' : List α} (h : Ends next a l) (h' : Ends next a l') : l = l' := by
  induction h generalizing l' with
  | outside hn =>
      cases h' with
      | outside _ => rfl
      | step hs _ =>
          rw [hn] at hs
          cases hs
  | step hs _ ih =>
      cases h' with
      | outside hn =>
          rw [hn] at hs
          cases hs
      | step hs' hrest =>
          rw [hs] at hs'
          cases hs'
          rw [ih hrest]

/-- From a place of the walk, the rest of it is no longer. -/
theorem Ends.from_mem {a b : α} {l : List α} (h : Ends next a l) (hb : b ∈ l) :
    ∃ l', Ends next b l' ∧ l'.length ≤ l.length := by
  induction h with
  | outside _ => cases hb
  | @step a c l hs hrest ih =>
      rcases List.mem_cons.mp hb with rfl | hb
      · exact ⟨b :: l, .step hs hrest, Nat.le_refl _⟩
      · obtain ⟨l', hl', hle⟩ := ih hb
        exact ⟨l', hl', Nat.le_succ_of_le hle⟩

/-- A walk that ends does not come back to a place. -/
theorem Ends.nodup {a : α} {l : List α} (h : Ends next a l) : l.Nodup := by
  induction h with
  | outside _ => exact List.nodup_nil
  | @step a b rest hs hrest ih =>
      suffices hnew : a ∉ rest from List.nodup_cons.mpr ⟨hnew, ih⟩
      intro hback
      -- a second walk from `a`, which is shorter than the first
      obtain ⟨short, hshort, hle⟩ := hrest.from_mem hback
      have hsame : a :: rest = short := (Ends.step hs hrest).unique hshort
      rw [← hsame, List.length_cons] at hle
      omega

theorem Ends.inside {a b : α} {l : List α} (h : Ends next a l) (hb : b ∈ l) : next b ≠ none := by
  induction h with
  | outside _ => cases hb
  | step hs _ ih =>
      rcases List.mem_cons.mp hb with rfl | hb
      · rw [hs]
        exact Option.some_ne_none _
      · exact ih hb

/-! ## The loop -/

/-- `while(inside(a)) { visit(a); a = next(a); }` with the trace of its visits. -/
def loop {β : Type} (next : α → Option α) (visit : α → List β) :
    (fuel : Nat) → α → List β → Option (List β)
  | 0, _, _ => none
  | fuel + 1, a, seen =>
      match next a with
      | none => some seen
      | some b => loop next visit fuel b (seen ++ visit a)

theorem Ends.loop_eq {β : Type} {visit : α → List β} {a : α} {l : List α} (h : Ends next a l)
    (seen : List β) : loop next visit (l.length + 1) a seen = some (seen ++ l.flatMap visit) := by
  induction h generalizing seen with
  | outside hn =>
      rw [List.length_nil, loop, hn, List.flatMap_nil, List.append_nil]
  | step hs _ ih =>
      rw [List.length_cons, loop, hs]
      show loop next visit _ _ _ = _
      rw [ih, List.flatMap_cons, List.append_assoc]

/-- The loop ends exactly if the walk does, and then it has visited the walk. -/
theorem loop_eq_some_iff {β : Type} {visit : α → List β} {a : α} {seen out : List β} :
    (∃ fuel, loop next visit fuel a seen = some out) ↔
      ∃ l, Ends next a l ∧ out = seen ++ l.flatMap visit := by
  constructor
  · rintro ⟨fuel, h⟩
    induction fuel generalizing a seen with
    | zero => cases h
    | succ fuel ih =>
        rw [loop] at h
        cases hn : next a with
        | none =>
            rw [hn] at h
            cases h
            refine ⟨[], .outside hn, ?_⟩
            rw [List.flatMap_nil, List.append_nil]
        | some b =>
            rw [hn] at h
            obtain ⟨l, hl, rfl⟩ := ih h
            refine ⟨a :: l, .step hn hl, ?_⟩
            rw [List.flatMap_cons, List.append_assoc]
  · rintro ⟨l, hl, rfl⟩
    exact ⟨l.length + 1, hl.loop_eq seen⟩

end Walk
