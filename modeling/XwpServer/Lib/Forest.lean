/-
  XwpServer.Lib.Forest

  Forests, and how they are linked through pointers.

  A node of a linked forest points to its parent, to its first child and to its next
  sibling.  As a term a forest so has two recursive places, the children of its first
  tree and the siblings behind it.  `Linked heap up head f tail` says that the cells from
  `head` on, up to the pointer `tail`, are the nodes of `f` and that the parent of its
  trees is `up`: a list segment, so a forest can be linked up to a tree that is still
  being built.
-/

import Mathlib.Data.List.Nodup
import Mathlib.Logic.Function.Basic

/-- A forest: its first tree, and the trees behind it. -/
inductive Forest (α : Type _) where
  | nil
  | node (a : α) (children sibling : Forest α)
  deriving DecidableEq, Repr

namespace Forest

variable {α β : Type _}

/-- Put trees behind those of a forest. -/
def append : Forest α → Forest α → Forest α
  | nil, g => g
  | node a c s, g => node a c (s.append g)

/-- The labels, those of a node in front of those below it. -/
def labels : Forest α → List α
  | nil => []
  | node a c s => a :: (c.labels ++ s.labels)

def map (k : α → β) : Forest α → Forest β
  | nil => nil
  | node a c s => node (k a) (c.map k) (s.map k)

@[simp] theorem append_nil (f : Forest α) : f.append nil = f := by
  induction f with
  | nil => rfl
  | node a c s _ ih => rw [append, ih]

theorem append_assoc (f g k : Forest α) : (f.append g).append k = f.append (g.append k) := by
  induction f with
  | nil => rfl
  | node a c s _ ih => rw [append, append, append, ih]

@[simp] theorem labels_append (f g : Forest α) : (f.append g).labels = f.labels ++ g.labels := by
  induction f with
  | nil => rfl
  | node a c s _ ih =>
      rw [append, labels, labels, ih, List.cons_append, List.append_assoc]

@[simp] theorem map_append (k : α → β) (f g : Forest α) :
    (f.append g).map k = (f.map k).append (g.map k) := by
  induction f with
  | nil => rfl
  | node a c s _ ih => rw [append, map, map, append, ih]

/-- Every label meets the condition. -/
def All (P : α → Prop) : Forest α → Prop
  | nil => True
  | node a c s => P a ∧ c.All P ∧ s.All P

theorem All.append {P : α → Prop} {f g : Forest α} (hf : f.All P) (hg : g.All P) :
    (f.append g).All P := by
  induction f with
  | nil => exact hg
  | node a c s _ ih => exact ⟨hf.1, hf.2.1, ih hf.2.2⟩

end Forest

namespace LinkedForest

variable {ι δ : Type _}

/-- A cell of the heap. -/
structure Cell (ι δ : Type _) where
  data : δ
  parent : Option ι := none
  children : Option ι := none
  sibling : Option ι := none

/-- The heap; a cell that is not allocated, or freed, is `none`. -/
abbrev Cells (ι δ : Type _) := ι → Option (Cell ι δ)

/-- The forest with the places of its nodes is linked from `head` up to `tail`. -/
def Linked (heap : Cells ι δ) (up : Option ι) : Option ι → Forest (ι × δ) → Option ι → Prop
  | head, .nil, tail => head = tail
  | head, .node (i, d) c s, tail =>
      head = some i ∧ ∃ child next, heap i = some ⟨d, up, child, next⟩ ∧
        Linked heap (some i) child c none ∧ Linked heap up next s tail

/-- The places of the nodes. -/
def places (f : Forest (ι × δ)) : List ι := f.labels.map Prod.fst

@[simp] theorem places_nil : places (.nil : Forest (ι × δ)) = [] := rfl

@[simp] theorem places_node (i : ι) (d : δ) (c s : Forest (ι × δ)) :
    places (.node (i, d) c s) = i :: (places c ++ places s) := by
  simp [places, Forest.labels]

@[simp] theorem places_append (f g : Forest (ι × δ)) :
    places (f.append g) = places f ++ places g := by
  simp [places]

variable {heap heap' : Cells ι δ} {up head mid tail : Option ι} {f g : Forest (ι × δ)}

/-- Cells at other places do not matter. -/
theorem Linked.congr (h : Linked heap up head f tail) (heq : ∀ i ∈ places f, heap' i = heap i) :
    Linked heap' up head f tail := by
  induction f generalizing up head tail with
  | nil => exact h
  | node a c s ihc ihs =>
      obtain ⟨i, d⟩ := a
      obtain ⟨hhead, child, next, hi, hc, hs⟩ := h
      refine ⟨hhead, child, next, ?_, ihc hc fun j hj => heq j ?_, ihs hs fun j hj => heq j ?_⟩
      · rw [heq i (by simp), hi]
      · simp [hj]
      · simp [hj]

theorem Linked.update [DecidableEq ι] (h : Linked heap up head f tail) {i : ι} (hi : i ∉ places f)
    (c : Option (Cell ι δ)) : Linked (Function.update heap i c) up head f tail :=
  h.congr fun j hj => by
    rw [Function.update_of_ne]
    rintro rfl
    exact hi hj

/-- The cells say which forest it is. -/
theorem Linked.unique (hf : Linked heap up head f none) (hg : Linked heap up head g none) :
    f = g := by
  induction f generalizing up head g with
  | nil =>
      cases g with
      | nil => rfl
      | node a c s =>
          cases hf
          cases hg.1
  | node a c s ihc ihs =>
      obtain ⟨hhead, child, next, hi, hc, hs⟩ := hf
      cases g with
      | nil =>
          cases hg
          cases hhead
      | node b c' s' =>
          obtain ⟨hhead', child', next', hi', hc', hs'⟩ := hg
          rw [hhead, Option.some.injEq] at hhead'
          rw [← hhead', hi, Option.some.injEq, Cell.mk.injEq] at hi'
          obtain ⟨hd, -, rfl, rfl⟩ := hi'
          rw [← hhead'] at hc'
          rw [ihc hc hc', ihs hs hs', show a = b from Prod.ext hhead' hd]

/-- Segments one behind the other. -/
theorem Linked.append (hf : Linked heap up head f mid) (hg : Linked heap up mid g tail) :
    Linked heap up head (f.append g) tail := by
  induction f generalizing head with
  | nil =>
      cases hf
      exact hg
  | node a c s _ ih =>
      obtain ⟨i, d⟩ := a
      obtain ⟨hhead, child, next, hi, hc, hs⟩ := hf
      exact ⟨hhead, child, next, hi, hc, ih hs⟩

/-! ## The last sibling -/

/-- `while(iter->sibling != NULL) iter = iter->sibling;` -/
def lastSibling (heap : Cells ι δ) : (fuel : Nat) → ι → Option ι
  | 0, _ => none
  | fuel + 1, iter =>
      match heap iter with
      | none => none
      | some c =>
          match c.sibling with
          | none => some iter
          | some next => lastSibling heap fuel next

/-- The loop ends at the last tree of the forest, and a pointer put there links the
    forest up to that pointer. -/
theorem Linked.extend [DecidableEq ι] {i : ι} {fuel : Nat}
    (h : Linked heap up (some i) f none) (hnd : (places f).Nodup)
    (hfuel : (places f).length ≤ fuel) (n : ι) :
    ∃ l c, lastSibling heap fuel i = some l ∧ heap l = some c ∧ l ∈ places f ∧
      Linked (Function.update heap l (some { c with sibling := some n })) up (some i) f (some n) := by
  induction f generalizing i fuel with
  | nil => cases h
  | node a c s _ ih =>
      obtain ⟨j, d⟩ := a
      obtain ⟨hhead, child, next, hj, hc, hs⟩ := h
      cases hhead
      rw [places_node] at hnd hfuel
      obtain ⟨hout, hnd⟩ := List.nodup_cons.mp hnd
      obtain ⟨hic, his⟩ := not_or.mp fun h => hout (List.mem_append.mpr h)
      obtain ⟨-, hnds, hdisj⟩ := List.nodup_append.mp hnd
      cases fuel with
      | zero => simp at hfuel
      | succ fuel =>
          simp only [List.length_cons, List.length_append] at hfuel
          cases next with
          | none =>
              have hsn : s = .nil := by
                cases s with
                | nil => rfl
                | node a c s => cases hs.1
              subst hsn
              refine ⟨i, ⟨d, up, child, none⟩, by rw [lastSibling, hj], hj, by simp, rfl, child,
                some n, by rw [Function.update_self], hc.update hic _, rfl⟩
          | some k =>
              obtain ⟨l, cell, hlast, hcell, hl, hext⟩ :=
                ih hs hnds (show (places s).length ≤ fuel by omega)
              have hli : i ≠ l := fun h => his (h ▸ hl)
              have hlc : l ∉ places c := fun h => hdisj l h l hl rfl
              refine ⟨l, cell, ?_, hcell, by simp [hl], rfl, child, some k, ?_, hc.update hlc _, hext⟩
              · rw [lastSibling, hj]
                exact hlast
              · rw [Function.update_of_ne hli, hj]

/-! ## A tree that is being built -/

/-- An open node: its label, and the trees below it that are done. -/
structure Level (α : Type _) where
  label : α
  closed : Forest α := .nil

namespace Level

variable {α β : Type _}

def map (k : α → β) (l : Level α) : Level β := ⟨k l.label, l.closed.map k⟩

/-- Put a tree behind those that are done. -/
def add (l : Level α) (f : Forest α) : Level α := { l with closed := l.closed.append f }

/-- The tree the open nodes, the innermost first, are the right edge of, with `inner` below the
    innermost. -/
def whole (inner : Forest α) : List (Level α) → Forest α
  | [] => inner
  | l :: ls => whole (.node l.label (l.closed.append inner) .nil) ls

theorem whole_map (k : α → β) (inner : Forest α) (ls : List (Level α)) :
    (whole inner ls).map k = whole (inner.map k) (ls.map (map k)) := by
  induction ls generalizing inner with
  | nil => rfl
  | cons l ls ih =>
      show (whole _ ls).map k = _
      rw [ih, Forest.map, Forest.map_append]
      rfl

theorem whole_labels (inner : Forest α) (ls : List (Level α)) :
    (whole inner ls).labels.Perm
      (inner.labels ++ ls.flatMap fun l => l.label :: l.closed.labels) := by
  induction ls generalizing inner with
  | nil =>
      rw [List.flatMap_nil, List.append_nil]
      exact .refl _
  | cons l ls ih =>
      refine (ih _).trans ?_
      rw [List.flatMap_cons, ← List.append_assoc]
      refine .append_right _ ?_
      rw [Forest.labels, Forest.labels, List.append_nil, Forest.labels_append]
      refine (List.Perm.cons _ List.perm_append_comm).trans ?_
      exact List.perm_middle.symm

end Level

/-- The open nodes are linked: each is the last child of the next one, behind the trees that
    are done, and `inner` is what the last child of the innermost points to. -/
def Spine (heap : Cells ι δ) : List (Level (ι × δ)) → Option ι → Prop
  | [], _ => True
  | l :: ls, inner =>
      (∃ child, heap l.label.1 =
          some ⟨l.label.2, ls.head?.map (·.label.1), child, none⟩ ∧
        Linked heap (some l.label.1) child l.closed inner) ∧
      Spine heap ls (some l.label.1)

/-- The places of the open nodes, and of those below them that are done. -/
def levelPlaces (ls : List (Level (ι × δ))) : List ι :=
  ls.flatMap fun l => l.label.1 :: places l.closed

@[simp] theorem levelPlaces_nil : levelPlaces ([] : List (Level (ι × δ))) = [] := rfl

@[simp] theorem levelPlaces_cons (l : Level (ι × δ)) (ls : List (Level (ι × δ))) :
    levelPlaces (l :: ls) = l.label.1 :: (places l.closed ++ levelPlaces ls) := by
  simp [levelPlaces]

theorem Spine.congr {ls : List (Level (ι × δ))} {inner : Option ι} (h : Spine heap ls inner)
    (heq : ∀ i ∈ levelPlaces ls, heap' i = heap i) : Spine heap' ls inner := by
  induction ls generalizing inner with
  | nil => trivial
  | cons l ls ih =>
      obtain ⟨⟨child, hl, hc⟩, hs⟩ := h
      refine ⟨⟨child, ?_, hc.congr fun j hj => heq j ?_⟩, ih hs fun j hj => heq j ?_⟩
      · rw [heq _ (by simp), hl]
      · simp [hj]
      · simp [hj]

/-- Open nodes with something linked below the innermost are a linked tree. -/
theorem Spine.whole {l : Level (ι × δ)} {ls : List (Level (ι × δ))} {inner : Option ι}
    {g : Forest (ι × δ)} (h : Spine heap (l :: ls) inner)
    (hg : Linked heap (some l.label.1) inner g none) :
    Linked heap none (((l :: ls).getLast?).map (·.label.1)) (Level.whole g (l :: ls)) none := by
  induction ls generalizing l inner g with
  | nil =>
      obtain ⟨⟨child, hl, hc⟩, -⟩ := h
      exact ⟨rfl, child, none, hl, hc.append hg, rfl⟩
  | cons m ls ih =>
      obtain ⟨⟨child, hl, hc⟩, hs⟩ := h
      rw [List.getLast?_cons_cons]
      exact ih hs ⟨rfl, child, none, hl, hc.append hg, rfl⟩

theorem places_whole (g : Forest (ι × δ)) (ls : List (Level (ι × δ))) :
    (places (Level.whole g ls)).Perm (places g ++ levelPlaces ls) := by
  have h := (Level.whole_labels g ls).map Prod.fst
  rw [List.map_append, List.map_flatMap] at h
  exact h

end LinkedForest
