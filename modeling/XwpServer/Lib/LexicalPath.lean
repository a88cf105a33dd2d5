/-
  XwpServer.Lib.LexicalPath

  Lexical resolution of paths.

  A path is a string of segments with a separator between them.  An empty segment and
  `.` stay where they are, `..` goes up, and any other segment is a name.  A directory is
  the list of the names that lead to it from the top.

  A list of components goes up some directories and then down some names (`Relative`),
  and this says from any directory where it leads, and whether that is below it.
-/

import Mathlib.Data.List.Induction
import Mathlib.Data.List.TakeDrop

namespace LexicalPath

/-! ## Walking from a directory -/

inductive Component (ν : Type _) where
  | stay | up | name (n : ν)
  deriving DecidableEq, Repr

section Walk

variable {ν : Type _}

def step (dir : List ν) : Component ν → List ν
  | .stay => dir
  | .up => dir.dropLast
  | .name n => dir ++ [n]

/-- The directory that the components lead to. -/
def walk (dir : List ν) (cs : List (Component ν)) : List ν := cs.foldl step dir

/-- `p` is below the directory `d`. -/
def Below (d p : List ν) : Prop := d <+: p ∧ d.length < p.length

instance [DecidableEq ν] (d p : List ν) : Decidable (Below d p) :=
  inferInstanceAs (Decidable (_ ∧ _))

theorem walk_append (dir : List ν) (cs ds : List (Component ν)) :
    walk dir (cs ++ ds) = walk (walk dir cs) ds := List.foldl_append

@[simp] theorem walk_nil (dir : List ν) : walk dir [] = dir := rfl

theorem walk_concat (dir : List ν) (cs : List (Component ν)) (c : Component ν) :
    walk dir (cs ++ [c]) = step (walk dir cs) c := by
  rw [walk_append]
  rfl

/-- Up some directories, and then down some names. -/
structure Relative (ν : Type _) where
  ups : Nat
  names : List ν
  deriving DecidableEq, Repr

def Relative.step (r : Relative ν) : Component ν → Relative ν
  | .stay => r
  | .up => match r.names with
    | [] => { r with ups := r.ups + 1 }
    | n :: ns => { r with names := (n :: ns).dropLast }
  | .name n => { r with names := r.names ++ [n] }

/-- Where the components lead, from any directory. -/
def relative (cs : List (Component ν)) : Relative ν := cs.foldl Relative.step ⟨0, []⟩

theorem relative_concat (cs : List (Component ν)) (c : Component ν) :
    relative (cs ++ [c]) = (relative cs).step c := by simp [relative]

theorem walk_relative (dir : List ν) (cs : List (Component ν)) :
    walk dir cs = dir.take (dir.length - (relative cs).ups) ++ (relative cs).names := by
  induction cs using List.reverseRecOn with
  | nil =>
      show dir = dir.take (dir.length - 0) ++ []
      rw [Nat.sub_zero, List.take_length, List.append_nil]
  | append_singleton cs c ih =>
      rw [walk_concat, relative_concat, ih]
      cases c with
      | stay => rfl
      | name n => exact List.append_assoc _ _ _
      | up =>
          generalize relative cs = r
          obtain ⟨ups, names⟩ := r
          cases names with
          | nil =>
              show ((dir.take (dir.length - ups)) ++ []).dropLast
                = dir.take (dir.length - (ups + 1)) ++ []
              rw [List.append_nil, List.append_nil, List.dropLast_eq_take, List.take_take,
                List.length_take]
              congr 1
              omega
          | cons n ns =>
              show (dir.take (dir.length - ups) ++ (n :: ns)).dropLast
                = dir.take (dir.length - ups) ++ (n :: ns).dropLast
              exact List.dropLast_append_of_ne_nil (List.cons_ne_nil n ns)

/-- Components lead below a directory just when the names they go down are those of the
    directories they have left, and more. -/
theorem below_walk_iff (dir : List ν) (cs : List (Component ν)) :
    Below dir (walk dir cs)
      ↔ Below (dir.drop (dir.length - (relative cs).ups)) (relative cs).names := by
  rw [walk_relative]
  have hsplit := List.take_append_drop (dir.length - (relative cs).ups) dir
  generalize dir.take (dir.length - (relative cs).ups) = t at hsplit
  generalize dir.drop (dir.length - (relative cs).ups) = d at hsplit
  subst hsplit
  rw [Below, Below, List.prefix_append_right_inj, List.length_append, List.length_append,
    Nat.add_lt_add_iff_left]

end Walk

/-! ## Strings -/

section Strings

variable {α : Type _} [DecidableEq α] (sep dot : α)

def component (s : List α) : Component (List α) :=
  if s = [] ∨ s = [dot] then .stay else if s = [dot, dot] then .up else .name s

def components (s : List α) : List (Component (List α)) := (s.splitOn sep).map (component dot)

/-- The resolution of a path in the working directory `cwd`. -/
def resolve (cwd : List (List α)) (s : List α) : List (List α) :=
  walk (if s.head? = some sep then [] else cwd) (components sep dot s)

/-- The segment behind the last separator. -/
def lastSegment (s : List α) : List α := (s.splitOn sep).getLastD []

variable {sep dot}

theorem components_append_cons (s t : List α) :
    components sep dot (s ++ sep :: t) = components sep dot s ++ components sep dot t := by
  rw [components, List.splitOn_append_cons_self, List.map_append]
  rfl

theorem resolve_append_cons (cwd : List (List α)) {s : List α} (hs : s ≠ []) (t : List α) :
    resolve sep dot cwd (s ++ sep :: t)
      = walk (resolve sep dot cwd s) (components sep dot t) := by
  have hhead : (s ++ sep :: t).head? = s.head? := by
    cases s with
    | nil => exact absurd rfl hs
    | cons c s => rfl
  rw [resolve, resolve, hhead, components_append_cons, walk_append]

/-- A path in a directory. -/
theorem below_resolve_append_cons (cwd : List (List α)) {s : List α} (hs : s ≠ []) (t : List α) :
    Below (resolve sep dot cwd s) (resolve sep dot cwd (s ++ sep :: t))
      ↔ Below ((resolve sep dot cwd s).drop
          ((resolve sep dot cwd s).length - (relative (components sep dot t)).ups))
        (relative (components sep dot t)).names := by
  rw [resolve_append_cons cwd hs, below_walk_iff]

/-- A string without a separator goes on with the last segment. -/
theorem splitOn_append {t : List α} (ht : sep ∉ t) (s : List α) :
    ∃ init, s.splitOn sep = init ++ [lastSegment sep s] ∧
      (s ++ t).splitOn sep = init ++ [lastSegment sep s ++ t] := by
  suffices h : ∃ init l, s.splitOn sep = init ++ [l] ∧ (s ++ t).splitOn sep = init ++ [l ++ t] by
    obtain ⟨init, l, hs, hst⟩ := h
    have hl : lastSegment sep s = l := by rw [lastSegment, hs, List.getLastD_concat]
    exact ⟨init, by rw [hl, hs], by rw [hl, hst]⟩
  induction s with
  | nil => exact ⟨[], [], by simp, by simpa using List.splitOn_eq_singleton ht⟩
  | cons c s ih =>
      obtain ⟨init, l, hs, hst⟩ := ih
      rw [List.cons_append, List.splitOn_cons_eq_if_modifyHead, List.splitOn_cons_eq_if_modifyHead,
        hs, hst]
      split
      · exact ⟨[] :: init, l, rfl, rfl⟩
      · cases init with
        | nil => exact ⟨[], c :: l, rfl, rfl⟩
        | cons h init => exact ⟨(c :: h) :: init, l, rfl, rfl⟩

/-- A name that goes on with the last segment of a directory is below the directory just
    when that segment names no directory itself. -/
theorem below_resolve_append (cwd : List (List α)) {t : List α} (ht : sep ∉ t) (hne : t ≠ [])
    (hname : ∀ l, component dot (l ++ t) = .name (l ++ t)) (s : List α) :
    Below (resolve sep dot cwd s) (resolve sep dot cwd (s ++ t))
      ↔ ∀ n, component dot (lastSegment sep s) ≠ .name n := by
  obtain ⟨init, hs, hst⟩ := splitOn_append ht s
  have hbase : (if (s ++ t).head? = some sep then [] else cwd)
      = if s.head? = some sep then [] else cwd := by
    cases s with
    | cons c s => rfl
    | nil =>
        cases t with
        | nil => exact absurd rfl hne
        | cons c t =>
            have hc : c ≠ sep := fun h => ht (h ▸ List.mem_cons_self)
            simp [hc]
  rw [resolve, resolve, hbase, components, components, hs, hst, List.map_append, List.map_append,
    List.map_singleton, List.map_singleton, walk_concat, walk_concat, hname]
  generalize walk _ (init.map (component dot)) = dir
  rcases component dot (lastSegment sep s) with _ | _ | n
  · -- the last segment stays
    show Below dir (dir ++ [_]) ↔ _
    simp [Below]
  · -- the last segment goes up
    show Below dir.dropLast (dir ++ [_]) ↔ _
    have hpre : dir.dropLast <+: dir ++ [lastSegment sep s ++ t] :=
      (List.dropLast_prefix dir).trans (List.prefix_append _ _)
    simp only [Below, hpre, true_and, List.length_append, List.length_dropLast,
      List.length_singleton, reduceCtorEq, ne_eq, not_false_eq_true, implies_true, iff_true]
    omega
  · -- the last segment is a name of its own
    show Below (dir ++ [n]) (dir ++ [_]) ↔ _
    simp [Below]

end Strings

end LexicalPath
