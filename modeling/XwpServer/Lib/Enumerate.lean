/-
  XwpServer.Lib.Enumerate

  Loops that count through what a lookup by index returns.

  `for(i = 0;;) { x = get(i++); if(x == none) break; body(x); }` visits the items a
  lookup has below its first gap.  The counter is stepped before the loop is left, so
  it ends one above the number of items.  A body that adds what it makes of an item to
  what is built already makes the image of the visited list.
-/

import Mathlib.Data.List.Basic

namespace Enumerate

variable {α β σ ε : Type}

/-! ## The loop -/

/-- A lookup by index that has nothing from some index on. -/
structure Lookup (α : Type) where
  get : Nat → Option α
  bound : Nat
  ends : ∀ i, bound ≤ i → get i = none

/-- The loop from the index `i` on, with the index it leaves `i` at.  No more than
    `fuel` items are left, so at 0 the lookup has nothing and the loop breaks. -/
def Lookup.loopFrom (L : Lookup α) (body : σ → α → Except ε σ) :
    (fuel : Nat) → (i : Nat) → L.bound ≤ i + fuel → σ → Except ε (Nat × σ)
  | 0, i, _, s => .ok (i + 1, s)
  | fuel + 1, i, h, s =>
      match L.get i with
      | none => .ok (i + 1, s)
      | some a => do
          let s' ← body s a
          L.loopFrom body fuel (i + 1) (by omega) s'

def Lookup.loop (L : Lookup α) (body : σ → α → Except ε σ) (s : σ) : Except ε (Nat × σ) :=
  L.loopFrom body L.bound 0 (by omega) s

/-- The items of the lookup below its first gap, from the index `i` on. -/
def Lookup.ListsFrom (L : Lookup α) (i : Nat) : List α → Prop
  | [] => L.get i = none
  | a :: l => L.get i = some a ∧ L.ListsFrom (i + 1) l

def Lookup.Lists (L : Lookup α) (l : List α) : Prop := L.ListsFrom 0 l

/-- Whatever is left of the bound, a round of the loop looks the item up, and either
    breaks or runs the body. -/
theorem Lookup.loopFrom_eq {L : Lookup α} {body : σ → α → Except ε σ} {fuel i : Nat}
    (h : L.bound ≤ i + fuel) (s : σ) :
    L.loopFrom body fuel i h s
      = match L.get i with
        | none => .ok (i + 1, s)
        | some a => body s a >>= L.loopFrom body (fuel - 1) (i + 1) (by omega) := by
  cases fuel with
  | zero =>
      rw [L.ends i (by omega)]
      rfl
  | succ fuel => rfl

/-- The loop folds the body over the visited items. -/
theorem Lookup.loopFrom_lists {L : Lookup α} {body : σ → α → Except ε σ} {l : List α}
    (fuel : Nat) {i : Nat} (hl : L.ListsFrom i l) (h : L.bound ≤ i + fuel) (s : σ) :
    L.loopFrom body fuel i h s
      = (l.foldlM body s).map fun s' => (i + l.length + 1, s') := by
  induction l generalizing fuel i s with
  | nil =>
      rw [loopFrom_eq, show L.get i = none from hl]
      rfl
  | cons a l ih =>
      rw [loopFrom_eq, hl.1, List.foldlM_cons]
      show (body s a >>= L.loopFrom body (fuel - 1) (i + 1) _) = _
      cases hbody : body s a with
      | error e => rfl
      | ok s' =>
          have hrest := ih (fuel - 1) hl.2 (by omega) s'
          have hidx : i + 1 + l.length + 1 = i + (a :: l).length + 1 := by
            rw [List.length_cons]
            omega
          rw [hidx] at hrest
          exact hrest

theorem Lookup.loop_lists {L : Lookup α} {l : List α} (hl : L.Lists l)
    (body : σ → α → Except ε σ) (s : σ) :
    L.loop body s = (l.foldlM body s).map fun s' => (l.length + 1, s') := by
  have h : L.loop body s = _ := loopFrom_lists L.bound hl (by omega) s
  rw [h, Nat.zero_add]

/-- The counter is never 0 when the loop is left, so a check for that does nothing. -/
theorem Lookup.loop_check {L : Lookup α} {l : List α} (hl : L.Lists l)
    (body : σ → α → Except ε σ) (s : σ) (e : ε) (k : σ → Except ε β) :
    (L.loop body s >>= fun x => if x.1 = 0 then .error e else k x.2) = l.foldlM body s >>= k := by
  rw [loop_lists hl]
  cases l.foldlM body s with
  | error e' => rfl
  | ok t =>
      show (if l.length + 1 = 0 then Except.error e else k t) = k t
      rw [if_neg (Nat.succ_ne_zero _)]

/-! ## What is visited -/

/-- The values in front of the first `none`. -/
def someFront : List (Option α) → List α
  | some a :: l => a :: someFront l
  | _ => []

theorem Lookup.listsFrom_someFront {L : Lookup α} {l : List (Option α)} {i : Nat}
    (hget : ∀ k, L.get (i + k) = (l[k]?).join) : L.ListsFrom i (someFront l) := by
  induction l generalizing i with
  | nil => exact hget 0
  | cons a l ih =>
      cases a with
      | none => exact hget 0
      | some a =>
          refine ⟨hget 0, ih fun k => ?_⟩
          have h := hget (k + 1)
          rw [List.getElem?_cons_succ] at h
          rw [← h, Nat.add_assoc, Nat.add_comm 1 k]

/-- A lookup in a list of which some items have no value stops at the first of these. -/
theorem Lookup.lists_someFront {L : Lookup α} {l : List (Option α)}
    (hget : ∀ k, L.get k = (l[k]?).join) : L.Lists (someFront l) :=
  listsFrom_someFront fun k => by rw [Nat.zero_add, hget]

theorem someFront_map_some (l : List α) : someFront (l.map some) = l := by
  induction l with
  | nil => rfl
  | cons a l ih =>
      rw [List.map_cons, someFront, ih]

/-- A lookup that is the one of a list visits all of it. -/
theorem Lookup.lists_getElem {L : Lookup α} {l : List α} (hget : ∀ k, L.get k = l[k]?) :
    L.Lists l := by
  have h : L.Lists (someFront (l.map some)) := by
    apply lists_someFront
    intro k
    rw [hget, List.getElem?_map]
    cases l[k]? <;> rfl
  rwa [someFront_map_some] at h

/-! ## What is built -/

/-- If the state is `built bs` once `bs` is built, and a round accepts an item when `P`
    holds of it and adds what `f` makes of it, then the loop accepts a list when `P`
    holds of all its items, and adds what `f` makes of them, in their order. -/
theorem foldlM_ok_iff {body : σ → α → Except ε σ} {built : List β → σ} {P : α → Prop}
    {f : α → β} (hbody : ∀ bs a s', body (built bs) a = .ok s' ↔ P a ∧ s' = built (bs ++ [f a]))
    {l : List α} {bs : List β} {s' : σ} :
    l.foldlM body (built bs) = .ok s' ↔ (∀ a ∈ l, P a) ∧ s' = built (bs ++ l.map f) := by
  induction l generalizing bs with
  | nil =>
      rw [List.map_nil, List.append_nil]
      exact ⟨fun h => ⟨nofun, (Except.ok.inj h).symm⟩, fun h => congrArg Except.ok h.2.symm⟩
  | cons a l ih =>
      rw [List.foldlM_cons, List.forall_mem_cons, List.map_cons]
      constructor
      · intro h
        cases hb : body (built bs) a with
        | error e =>
            rw [hb] at h
            cases h
        | ok t =>
            rw [hb] at h
            obtain ⟨ha, rfl⟩ := (hbody bs a t).mp hb
            have hrest := ih.mp h
            rw [List.append_assoc, List.singleton_append] at hrest
            exact ⟨⟨ha, hrest.1⟩, hrest.2⟩
      · rintro ⟨⟨ha, hl⟩, rfl⟩
        rw [(hbody bs a _).mpr ⟨ha, rfl⟩]
        show l.foldlM body (built (bs ++ [f a])) = _
        apply ih.mpr
        rw [List.append_assoc, List.singleton_append]
        exact ⟨hl, rfl⟩

/-- The same of a loop that starts with nothing built. -/
theorem foldlM_ok_iff_map {body : σ → α → Except ε σ} {built : List β → σ} {P : α → Prop}
    {f : α → β} (hbody : ∀ bs a s', body (built bs) a = .ok s' ↔ P a ∧ s' = built (bs ++ [f a]))
    {l : List α} {s s' : σ} (hs : built [] = s) :
    l.foldlM body s = .ok s' ↔ (∀ a ∈ l, P a) ∧ s' = built (l.map f) := by
  rw [← hs, foldlM_ok_iff hbody, List.nil_append]

end Enumerate
