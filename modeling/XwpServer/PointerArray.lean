/-
  XwpServer.PointerArray

  The growable array of pointers (`array.c`), which holds the header tables, the virtual
  hosts and the locations.

  A full array moves into a block of half as many entries more, half rounded down, so one
  of a single entry moves into a block of a single entry.  The sizes of the blocks are cut
  to an `int`.  An array of two entries or more whose first block has its size stays one
  that holds what has been pushed (`Inv`).
-/

import XwpServer.Pool

namespace XwpServer

open CString Blocks Transition

namespace PointerArray

/-! ## The array -/

/-- `sizeof(void*)`. -/
def POINTER_SIZE : Nat := 8

/-- `array_t`.  `cells` are the entries from `elts` to the end of its block, `none` where
    nothing has been written since `malloc`.  `nalloc` grows to a value for which a block
    has been allocated, and is not near the end of an `int`. -/
structure PtrArray where
  pool : Pool.Proc
  elts : Nat
  cells : List (Option Nat)
  count : Nat
  nalloc : Nat

/-- The size `array_create` allocates, as an `int`. -/
def createSize (nalloc : Nat) : Int := toInt32 (Pool.ARRAY_SIZE + nalloc * 8)

/-- `array_create`; the entries are behind the record. -/
def arrayCreate (pool : Pool.Proc) (nalloc p : Nat) : Except Stop (Option PtrArray) := do
  let x ← Pool.arrayCreate pool nalloc p
  if x.2 = 0 then return none
  else
    return some {
      pool := x.1
      elts := x.2 + Pool.ARRAY_SIZE
      cells := List.replicate (((createSize nalloc).toNat - Pool.ARRAY_SIZE) / POINTER_SIZE) (some 0)
      count := 0
      nalloc := nalloc }

/-- `thiz->elts[thiz->count] = data`, and the new count. -/
def store (s : PtrArray) (data : Nat) : Except Stop PtrArray := do
  if s.count < s.cells.length then
    let pool ← Pool.write s.pool (s.elts + s.count * POINTER_SIZE) POINTER_SIZE
    return { s with pool := pool, cells := s.cells.set s.count (some data), count := s.count + 1 }
  else .error .fault

/-- The entries are copied to `new`, a block of `size` bytes. -/
def moveTo (s : PtrArray) (pool : Pool.Proc) (new size : Nat) : Except Stop PtrArray := do
  if s.nalloc ≤ s.cells.length ∧ s.nalloc * POINTER_SIZE ≤ size then
    let pool ← Pool.write pool new (s.nalloc * POINTER_SIZE)
    return { s with
      pool := pool
      elts := new
      cells := s.cells.take s.nalloc ++ List.replicate (size / POINTER_SIZE - s.nalloc) none
      nalloc := s.nalloc + s.nalloc / 2 }
  else .error .fault

/-- The size a full array allocates, as an `int`. -/
def growSize (nalloc : Nat) : Int := toInt32 ((nalloc + nalloc / 2 : Nat) * POINTER_SIZE)

/-- `array_push`, with the pointer `p` that its `malloc` returns if it gets there. -/
def arrayPush (s : PtrArray) (data p : Nat) : Except Stop (PtrArray × Nat) := do
  if s.count = s.nalloc then
    let x := Pool.poolAlloc s.pool (growSize s.nalloc) p
    if x.2 = 0 then return (s, 0)
    else
      let s ← moveTo s x.1 x.2 (growSize s.nalloc).toNat
      let s ← store s data
      return (s, 1)
  else
    let s ← store s data
    return (s, 1)

/-! ## Runs -/

/-- An array, and the pointers that have been pushed. -/
structure State where
  array : PtrArray
  pushed : List Nat

/-- A push of a pointer with the result of its `malloc`. -/
def step (s : State) (m : Nat × Nat) : Option State :=
  match arrayPush s.array m.1 m.2 with
  | .ok (a, r) => some ⟨a, if r = 0 then s.pushed else s.pushed ++ [m.1]⟩
  | .error _ => none

/-- If the push gets to `malloc`, that succeeds. -/
def mallocSucceeds (s : State) (m : Nat × Nat) : Prop :=
  s.array.count = s.array.nalloc → 0 < growSize s.array.nalloc → m.2 ≠ 0

/-- The array holds what has been pushed. -/
structure Holds (s : State) : Prop where
  count_le : s.array.count ≤ s.array.nalloc
  count : s.array.count = s.pushed.length
  elts : s.array.cells.take s.array.count = s.pushed.map some

/-- A push writes to the entries of the array only, and leaves it as it was if it fails. -/
def Answers (a : PtrArray) (data p : Nat) : Prop :=
  ∃ a' r, arrayPush a data p = .ok (a', r) ∧ (r = 0 → a' = a)

/-- An array that `array_create` makes holds what is pushed, for as long as `malloc`
    succeeds. -/
def HoldsAll (pool : Pool.Proc) (nalloc p : Nat) : Prop :=
  ∃ x, arrayCreate pool nalloc p = .ok x ∧ ∀ a ∈ x, ∀ s, Reaches step mallocSucceeds ⟨a, []⟩ s →
    Holds s ∧ ∀ data q, mallocSucceeds s (data, q) → Answers s.array data q

/-- Enough entries to grow, in a block whose size is an `int`. -/
def CanGrow (nalloc : Nat) : Prop := 2 ≤ nalloc ∧ Pool.ARRAY_SIZE + nalloc * 8 < 2 ^ 31

instance (nalloc : Nat) : Decidable (CanGrow nalloc) := inferInstanceAs (Decidable (_ ∧ _))

/-! ## The first block -/

theorem create_eq (pool : Pool.Proc) (nalloc p : Nat) :
    Pool.arrayCreate pool nalloc p =
      Pool.filled (Pool.poolAlloc pool (createSize nalloc) p) (createSize nalloc).toNat >>=
        fun x => Pool.filled x Pool.ARRAY_SIZE := by
  rw [Pool.arrayCreate, Pool.createRecord, Pool.poolCalloc, ← createSize]
  cases Pool.filled (Pool.poolAlloc pool (createSize nalloc) p) (createSize nalloc).toNat <;> rfl

/-- `array_create` returns NULL if the size is cut to one that is not positive. -/
theorem arrayCreate_null {pool : Pool.Proc} {nalloc p : Nat} (h : createSize nalloc ≤ 0) :
    arrayCreate pool nalloc p = .ok none := by
  have hfilled : ∀ n, Pool.filled (pool, 0) n = .ok (pool, 0) := fun _ => if_pos rfl
  have hnull : Pool.arrayCreate pool nalloc p = .ok (pool, 0) := by
    rw [create_eq, Pool.poolAlloc_null h, hfilled]
    exact hfilled Pool.ARRAY_SIZE
  rw [arrayCreate, hnull]
  rfl

/-- What else it makes is an array with the entries that fit into the size. -/
theorem arrayCreate_some {pool : Pool.Proc} {nalloc p : Nat} {x : Option PtrArray}
    (h : 0 < createSize nalloc) (hp : p ≠ 0) (hx : arrayCreate pool nalloc p = .ok x) :
    ∃ a, x = some a ∧ a.count = 0 ∧ a.nalloc = nalloc ∧
      a.cells.length = ((createSize nalloc).toNat - Pool.ARRAY_SIZE) / POINTER_SIZE := by
  rw [arrayCreate] at hx
  obtain ⟨y, hy, hx⟩ := Except.bind_eq_ok.mp hx
  rw [create_eq, Pool.poolAlloc_ok h hp] at hy
  obtain ⟨z, hz, hy⟩ := Except.bind_eq_ok.mp hy
  have hne : y.2 ≠ 0 := by
    rw [Pool.filled_snd hy, Pool.filled_snd hz]
    exact Nat.succ_ne_zero _
  rw [if_neg hne] at hx
  cases hx
  exact ⟨_, rfl, rfl, rfl, List.length_replicate⟩

/-- A size that is not cut is that of the record and the entries. -/
theorem CanGrow.createSize {nalloc : Nat} (h : CanGrow nalloc) :
    createSize nalloc = (Pool.ARRAY_SIZE + nalloc * POINTER_SIZE : Nat) := by
  have hcut := Pool.toInt32_nat h.2
  push_cast at hcut
  exact hcut

theorem CanGrow.createSize_pos {nalloc : Nat} (h : CanGrow nalloc) :
    0 < PointerArray.createSize nalloc := by
  rw [h.createSize]
  exact Int.natCast_pos.mpr (Nat.add_pos_left (by decide) _)

/-- The block of an array whose size is not cut. -/
theorem CanGrow.create_ok {nalloc p : Nat} (h : CanGrow nalloc) (hp : p ≠ 0) (pool : Pool.Proc) :
    ∃ s, Pool.arrayCreate pool nalloc p = .ok (s, p + Pool.NODE_SIZE) ∧
      ⟨p, Pool.ARRAY_SIZE + nalloc * POINTER_SIZE + Pool.NODE_SIZE⟩ ∈ s.blocks := by
  have hnat : (PointerArray.createSize nalloc).toNat
      = Pool.ARRAY_SIZE + nalloc * POINTER_SIZE := by
    rw [h.createSize, Int.toNat_natCast]
  have hne : p + Pool.NODE_SIZE ≠ 0 := Nat.succ_ne_zero _
  have hb : ⟨p, Pool.ARRAY_SIZE + nalloc * POINTER_SIZE + Pool.NODE_SIZE⟩ ∈
      (Pool.link pool p (Pool.ARRAY_SIZE + nalloc * POINTER_SIZE + Pool.NODE_SIZE)).blocks :=
    List.mem_cons_self
  -- the block is cleared, and the record is written in front
  obtain ⟨s₁, hs₁, hblocks₁⟩ := Pool.filled_ok hb (Pool.covers_of_le (Nat.le_refl _)) hne
  rw [← hblocks₁] at hb
  obtain ⟨s₂, hs₂, hblocks₂⟩ :=
    Pool.filled_ok hb (Pool.covers_of_le (Nat.le_add_right _ _)) hne
  refine ⟨s₂, ?_, hblocks₂ ▸ hb⟩
  rw [create_eq, Pool.poolAlloc_ok h.createSize_pos hp, hnat]
  exact Except.bind_eq_ok.mpr ⟨_, hs₁, hs₂⟩

/-! ## The invariant -/

/-- Two entries or more, the memory for them, and the pushed pointers in front. -/
structure Inv (s : PtrArray) (pushed : List Nat) : Prop where
  two_le : 2 ≤ s.nalloc
  lt : s.nalloc * POINTER_SIZE < 2 ^ 31
  count : s.count = pushed.length
  count_le : s.count ≤ s.nalloc
  nalloc_le : s.nalloc ≤ s.cells.length
  elts : s.cells.take s.count = pushed.map some
  covered : ∃ b ∈ s.pool.blocks, b.Covers s.elts (s.cells.length * POINTER_SIZE)

theorem Inv.holds {s : PtrArray} {pushed : List Nat} (hi : Inv s pushed) : Holds ⟨s, pushed⟩ :=
  ⟨hi.count_le, hi.count, hi.elts⟩

theorem CanGrow.inv_create {nalloc p : Nat} (h : CanGrow nalloc) (hp : p ≠ 0)
    (pool : Pool.Proc) : ∃ a, arrayCreate pool nalloc p = .ok (some a) ∧ Inv a [] := by
  obtain ⟨s, hcreate, hb⟩ := h.create_ok hp pool
  have hcells : ((PointerArray.createSize nalloc).toNat - Pool.ARRAY_SIZE) / POINTER_SIZE
      = nalloc := by
    rw [h.createSize, Int.toNat_natCast, Nat.add_sub_cancel_left]
    exact Nat.mul_div_cancel nalloc (by decide)
  refine ⟨⟨s, p + Pool.NODE_SIZE + Pool.ARRAY_SIZE, List.replicate nalloc (some 0), 0, nalloc⟩,
    ?_, ?_⟩
  · rw [arrayCreate, hcreate, hcells]
    rfl
  · refine ⟨h.1, ?_, rfl, Nat.zero_le _, ?_, rfl, _, hb, ?_⟩
    · exact Nat.lt_of_le_of_lt (Nat.le_add_left _ _) h.2
    · exact Nat.le_of_eq List.length_replicate.symm
    · show p ≤ _ ∧ _ ≤ _
      rw [List.length_replicate]
      dsimp only
      omega

section Step

variable {s : PtrArray} {pushed : List Nat}

/-- A store in front of the end. -/
theorem Inv.store (hi : Inv s pushed) (hlt : s.count < s.nalloc) (data : Nat) :
    ∃ s', store s data = .ok s' ∧ Inv s' (pushed ++ [data]) := by
  obtain ⟨b, hb, hlow, hhigh⟩ := hi.covered
  have hcell : s.count < s.cells.length := Nat.lt_of_lt_of_le hlt hi.nalloc_le
  have hend : (s.count + 1) * POINTER_SIZE ≤ s.cells.length * POINTER_SIZE :=
    Nat.mul_le_mul_right _ hcell
  rw [Nat.succ_mul] at hend
  have hcovers : b.Covers (s.elts + s.count * POINTER_SIZE) POINTER_SIZE := by
    unfold Block.Covers
    omega
  obtain ⟨pool, hwrite, hblocks⟩ := Pool.write_ok hb hcovers
  refine ⟨{ s with
    pool := pool, cells := s.cells.set s.count (some data), count := s.count + 1 }, ?_, ?_⟩
  · rw [PointerArray.store, if_pos hcell, hwrite]
    rfl
  · refine { hi with
      count := ?_
      count_le := hlt
      nalloc_le := ?_
      elts := ?_
      covered := ⟨b, hblocks ▸ hb, ?_⟩ }
    · show s.count + 1 = _
      rw [hi.count, List.length_append, List.length_singleton]
    · show s.nalloc ≤ (s.cells.set _ _).length
      rw [List.length_set]
      exact hi.nalloc_le
    · show (s.cells.set s.count (some data)).take (s.count + 1) = _
      rw [List.take_add_one, List.take_set_of_le (Nat.le_refl _), hi.elts,
        List.getElem?_set_self hcell, List.map_append]
      rfl
    · show b.Covers s.elts ((s.cells.set _ _).length * POINTER_SIZE)
      rw [List.length_set]
      exact ⟨hlow, hhigh⟩

/-- The array moves into a block of `nalloc + nalloc / 2` entries. -/
theorem Inv.moveTo (hi : Inv s pushed) {p size : Nat}
    (hsize : size = (s.nalloc + s.nalloc / 2) * POINTER_SIZE) (hlt : size < 2 ^ 31)
    (hfull : s.count = s.nalloc) :
    ∃ s', moveTo s (Pool.link s.pool p (size + Pool.NODE_SIZE)) (p + Pool.NODE_SIZE) size = .ok s' ∧
      Inv s' pushed ∧ s'.count < s'.nalloc := by
  have hfits : s.nalloc * POINTER_SIZE ≤ size := by
    rw [hsize]
    exact Nat.mul_le_mul_right _ (Nat.le_add_right _ _)
  have hcells : size / POINTER_SIZE = s.nalloc + s.nalloc / 2 := by
    rw [hsize]
    exact Nat.mul_div_cancel _ (by decide)
  have hb : ⟨p, size + Pool.NODE_SIZE⟩ ∈
      (Pool.link s.pool p (size + Pool.NODE_SIZE)).blocks := List.mem_cons_self
  obtain ⟨pool, hwrite, hblocks⟩ := Pool.write_ok hb (Pool.covers_of_le hfits)
  -- the old entries, and as many new ones as half of them
  have htake : (s.cells.take s.nalloc).length = s.nalloc := by
    rw [List.length_take]
    exact Nat.min_eq_left hi.nalloc_le
  have hlength : (s.cells.take s.nalloc ++
      List.replicate (size / POINTER_SIZE - s.nalloc) none).length
        = s.nalloc + s.nalloc / 2 := by
    rw [List.length_append, htake, List.length_replicate, hcells, Nat.add_sub_cancel_left]
  have htwo := hi.two_le
  refine ⟨{ s with
    pool := pool
    elts := p + Pool.NODE_SIZE
    cells := s.cells.take s.nalloc ++ List.replicate (size / POINTER_SIZE - s.nalloc) none
    nalloc := s.nalloc + s.nalloc / 2 }, ?_, ?_, ?_⟩
  · rw [PointerArray.moveTo, if_pos ⟨hi.nalloc_le, hfits⟩, hwrite]
    rfl
  · refine ⟨?_, hsize ▸ hlt, hi.count, ?_, Nat.le_of_eq hlength.symm, ?_, _, hblocks ▸ hb, ?_⟩
    · exact Nat.le_add_right_of_le htwo
    · exact Nat.le_add_right_of_le hi.count_le
    · show List.take s.count (_ ++ _) = _
      rw [List.take_append_of_le_length (by rw [htake, hfull]), List.take_take, hfull,
        Nat.min_self, ← hfull]
      exact hi.elts
    · show Block.Covers _ _ (_ * _)
      rw [hlength, ← hsize]
      exact Pool.covers_of_le (Nat.le_refl _)
  · show s.count < s.nalloc + s.nalloc / 2
    omega

/-- The size of the next block, which is negative as an `int` if it is too large for one. -/
theorem growSize_cases {nalloc : Nat} (htwo : 2 ≤ nalloc) (hlt : nalloc * POINTER_SIZE < 2 ^ 31) :
    growSize nalloc ≤ 0 ∨ 0 < growSize nalloc ∧ (growSize nalloc).toNat < 2 ^ 31 ∧
      (growSize nalloc).toNat = (nalloc + nalloc / 2) * POINTER_SIZE := by
  have hint : ((nalloc + nalloc / 2 : Nat) : Int) * POINTER_SIZE
      = ((nalloc + nalloc / 2) * POINTER_SIZE : Nat) := (Int.natCast_mul _ _).symm
  rw [growSize, hint]
  by_cases hsize : (nalloc + nalloc / 2) * POINTER_SIZE < 2 ^ 31
  · rw [Pool.toInt32_nat hsize, Int.toNat_natCast]
    refine .inr ⟨?_, hsize, rfl⟩
    exact Int.natCast_pos.mpr (Nat.mul_pos (by omega) (by decide))
  · -- the size is below 2 ^ 32, so the cut makes it negative
    left
    unfold toInt32 POINTER_SIZE at *
    rw [Int.bmod_def]
    omega

/-- A push into a full array that has got `new`. -/
theorem arrayPush_full {pool : Pool.Proc} {data p new : Nat} (hfull : s.count = s.nalloc)
    (halloc : Pool.poolAlloc s.pool (growSize s.nalloc) p = (pool, new)) (hnew : new ≠ 0) :
    arrayPush s data p = (do
      let s ← moveTo s pool new (growSize s.nalloc).toNat
      let s ← store s data
      return (s, 1)) := by
  rw [arrayPush, if_pos hfull, halloc]
  exact if_neg hnew

/-- A push stores the pointer, or fails and leaves the array as it was. -/
theorem Inv.arrayPush (hi : Inv s pushed) (data : Nat) {p : Nat}
    (hp : s.count = s.nalloc → 0 < growSize s.nalloc → p ≠ 0) :
    arrayPush s data p = .ok (s, 0) ∨
      ∃ s', arrayPush s data p = .ok (s', 1) ∧ Inv s' (pushed ++ [data]) := by
  by_cases hfull : s.count = s.nalloc
  · rcases growSize_cases hi.two_le hi.lt with hnull | ⟨hpos, hlt, hsize⟩
    · -- the next block would be too large
      left
      rw [PointerArray.arrayPush, if_pos hfull, Pool.poolAlloc_null hnull]
      rfl
    · right
      obtain ⟨s₁, hmove, hi₁, hroom⟩ := hi.moveTo (p := p) hsize hlt hfull
      obtain ⟨s₂, hstore, hi₂⟩ := hi₁.store hroom data
      refine ⟨s₂, ?_, hi₂⟩
      rw [arrayPush_full hfull (Pool.poolAlloc_ok hpos (hp hfull hpos)) (Nat.succ_ne_zero _)]
      exact Except.bind_eq_ok.mpr ⟨s₁, hmove, Except.bind_eq_ok.mpr ⟨s₂, hstore, rfl⟩⟩
  · rw [PointerArray.arrayPush, if_neg hfull]
    obtain ⟨s', hstore, hi'⟩ := hi.store (Nat.lt_of_le_of_ne hi.count_le hfull) data
    exact .inr ⟨s', Except.bind_eq_ok.mpr ⟨s', hstore, rfl⟩, hi'⟩

end Step

theorem inv_of_reaches {a : PtrArray} (hi : Inv a []) {s : State}
    (h : Reaches step mallocSucceeds ⟨a, []⟩ s) : Inv s.array s.pushed := by
  refine h.invariant (I := fun s => Inv s.array s.pushed) ?_ hi
  rintro s ⟨data, p⟩ s' hi hp hstep
  rw [step] at hstep
  rcases hi.arrayPush data hp with hpush | ⟨a, hpush, hi'⟩
  · rw [hpush] at hstep
    cases hstep
    exact hi
  · rw [hpush] at hstep
    cases hstep
    exact hi'

theorem CanGrow.holdsAll {pool : Pool.Proc} {nalloc p : Nat} (h : CanGrow nalloc) (hp : p ≠ 0) :
    HoldsAll pool nalloc p := by
  obtain ⟨a, hcreate, hi⟩ := h.inv_create hp pool
  refine ⟨_, hcreate, fun b hb s hs => ?_⟩
  obtain rfl := Option.mem_some_iff.mp hb
  have hi := inv_of_reaches hi hs
  refine ⟨hi.holds, fun data q hq => ?_⟩
  rcases hi.arrayPush data hq with hpush | ⟨a', hpush, -⟩
  · exact ⟨_, _, hpush, fun _ => rfl⟩
  · exact ⟨_, _, hpush, nofun⟩

/-! ## Arrays that are written behind -/

theorem store_some {s s' : PtrArray} {data : Nat} (h : store s data = .ok s') :
    s.count < s.cells.length ∧ s'.count = s.count + 1 ∧ s'.nalloc = s.nalloc ∧
      s'.cells.length = s.cells.length := by
  rw [store] at h
  split at h
  · next hlt =>
    obtain ⟨pool, -, h⟩ := Except.bind_eq_ok.mp h
    cases h
    exact ⟨hlt, rfl, rfl, List.length_set⟩
  · cases h

/-- A push into an array that is not full is a store. -/
theorem store_of_arrayPush {s s' : PtrArray} {data p r : Nat} (hroom : s.count ≠ s.nalloc)
    (h : arrayPush s data p = .ok (s', r)) : store s data = .ok s' ∧ r = 1 := by
  rw [arrayPush, if_neg hroom] at h
  obtain ⟨t, hstore, h⟩ := Except.bind_eq_ok.mp h
  cases h
  exact ⟨hstore, rfl⟩

theorem moveTo_some {s s' : PtrArray} {pool : Pool.Proc} {new size : Nat}
    (h : moveTo s pool new size = .ok s') :
    (∃ pool', Pool.write pool new (s.nalloc * POINTER_SIZE) = .ok pool') ∧
      s'.count = s.count ∧ s'.cells.length ≤ s.nalloc + (size / POINTER_SIZE - s.nalloc) := by
  rw [moveTo] at h
  split at h
  · obtain ⟨pool', hwrite, h⟩ := Except.bind_eq_ok.mp h
    cases h
    refine ⟨⟨pool', hwrite⟩, rfl, ?_⟩
    rw [List.length_append, List.length_take, List.length_replicate]
    omega
  · cases h

/-- The block of an array of one entry is followed by one of one entry. -/
theorem not_answers_one {s : PtrArray} (hcount : s.count = 1) (hnalloc : s.nalloc = 1)
    (data : Nat) {p : Nat} (hp : p ≠ 0) : ¬ Answers s data p := by
  rintro ⟨s', r, hpush, -⟩
  have hsize : growSize s.nalloc = 8 := by
    rw [hnalloc]
    rfl
  have halloc := @Pool.poolAlloc_ok s.pool p (growSize s.nalloc) (by rw [hsize]; decide) hp
  rw [arrayPush_full (hcount.trans hnalloc.symm) halloc (Nat.succ_ne_zero _)] at hpush
  obtain ⟨t, hmove, hpush⟩ := Except.bind_eq_ok.mp hpush
  obtain ⟨u, hstore, -⟩ := Except.bind_eq_ok.mp hpush
  -- the pointer goes to index 1
  obtain ⟨-, hcount', hcells⟩ := moveTo_some hmove
  have hlt := (store_some hstore).1
  rw [hcount', hcount] at hlt
  rw [hsize, hnalloc] at hcells
  exact absurd (Nat.lt_of_lt_of_le hlt hcells) (by decide)

/-- A full array whose `malloc` fails is copied to where `pool_alloc` puts its header behind
    NULL. -/
theorem not_answers_null {s : PtrArray} (hfull : s.count = s.nalloc)
    (hsize : 0 < growSize s.nalloc)
    (hlow : ∀ b ∈ s.pool.blocks, Pool.NODE_SIZE < b.addr) (data : Nat) : ¬ Answers s data 0 := by
  rintro ⟨s', r, hpush, -⟩
  have halloc : Pool.poolAlloc s.pool (growSize s.nalloc) 0 = (s.pool, Pool.NODE_SIZE) := by
    rw [Pool.poolAlloc, if_neg (Int.not_le.mpr hsize), if_neg (not_not.mpr rfl), Nat.zero_add]
  rw [arrayPush_full hfull halloc (Nat.succ_ne_zero 7)] at hpush
  obtain ⟨t, hmove, -⟩ := Except.bind_eq_ok.mp hpush
  obtain ⟨⟨pool, hwrite⟩, -, -⟩ := moveTo_some hmove
  -- no block is there
  rw [Pool.write] at hwrite
  split at hwrite
  · next hcovers =>
    obtain ⟨b, hb, hstart, -⟩ := hcovers
    exact absurd (hlow b hb) (Nat.not_lt.mpr hstart)
  · cases hwrite

/-- The entries there are get filled. -/
theorem reaches_full {a : PtrArray} (hcount : a.count = 0) (hle : a.cells.length ≤ a.nalloc)
    (hanswers : ∀ s, Reaches step mallocSucceeds ⟨a, []⟩ s →
      ∀ data p, mallocSucceeds s (data, p) → Answers s.array data p)
    (k : Nat) (hk : k ≤ a.cells.length) :
    ∃ s, Reaches step mallocSucceeds ⟨a, []⟩ s ∧ s.array.count = k ∧
      s.array.nalloc = a.nalloc ∧ s.array.cells.length = a.cells.length := by
  induction k with
  | zero => exact ⟨_, Relation.ReflTransGen.refl, hcount, rfl, rfl⟩
  | succ k ih =>
      obtain ⟨s, hs, rfl, hnalloc, hcells⟩ := ih (Nat.le_of_succ_le hk)
      -- there is room, so that `malloc` is not called
      have hroom : s.array.count ≠ s.array.nalloc := by omega
      have hok : mallocSucceeds s (0, 0) := fun hfull => absurd hfull hroom
      obtain ⟨a', r, hpush, -⟩ := hanswers s hs 0 0 hok
      obtain ⟨hstore, rfl⟩ := store_of_arrayPush hroom hpush
      obtain ⟨-, hcount', hnalloc', hcells'⟩ := store_some hstore
      have hstep : step s (0, 0) = some ⟨a', s.pushed ++ [0]⟩ := by
        rw [step, hpush]
        rfl
      exact ⟨_, hs.tail hok hstep, hcount', hnalloc'.trans hnalloc, hcells'.trans hcells⟩

/-- If there are fewer entries than the array has in mind, or there is only one, a write
    behind them is reached. -/
theorem not_holdsAll {pool : Pool.Proc} {nalloc p : Nat} (hpos : 0 < nalloc) (hp : p ≠ 0)
    (hgrow : ¬ CanGrow nalloc) (hsize : 0 < createSize nalloc) : ¬ HoldsAll pool nalloc p := by
  rintro ⟨x, hcreate, hall⟩
  obtain ⟨a, rfl, hcount, hnalloc, hcells⟩ := arrayCreate_some hsize hp hcreate
  have hanswers := fun s hs => (hall a rfl s hs).2
  by_cases hone : nalloc = 1
  · -- the first push fills the array, and the second one moves it
    subst hone
    have hlength : a.cells.length = 1 := hcells
    obtain ⟨s, hs, hcount, hnalloc', -⟩ :=
      reaches_full hcount (by omega) hanswers 1 (Nat.le_of_eq hlength.symm)
    exact not_answers_one hcount (hnalloc'.trans hnalloc) 0 Nat.one_ne_zero
      (hanswers s hs 0 1 fun _ _ => Nat.one_ne_zero)
  · -- the size is cut, and the block has fewer entries than `nalloc`
    have hlarge : 2 ^ 31 ≤ Pool.ARRAY_SIZE + nalloc * 8 := by
      by_contra hlt
      exact hgrow ⟨by omega, by omega⟩
    have hcut : createSize nalloc < 2 ^ 31 := by
      unfold createSize toInt32
      rw [Int.bmod_def]
      omega
    have hless : a.cells.length < a.nalloc := by
      rw [hcells, hnalloc]
      unfold Pool.ARRAY_SIZE POINTER_SIZE at *
      omega
    obtain ⟨s, hs, hfull, hnalloc', hcells'⟩ :=
      reaches_full hcount (Nat.le_of_lt hless) hanswers _ (Nat.le_refl _)
    -- the array is not full, so that the pointer goes behind the last entry
    have hroom : s.array.count ≠ s.array.nalloc := by omega
    obtain ⟨a', r, hpush, -⟩ := hanswers s hs 0 0 fun hcount => absurd hcount hroom
    have hlt := (store_some (store_of_arrayPush hroom hpush).1).1
    omega

/-- An array that `array_create` makes holds what is pushed, and is written to inside its
    block only, exactly if it has two entries or more and its size is not cut, or if the
    size is cut so far that there is no array. -/
theorem holdsAll_iff {pool : Pool.Proc} {nalloc p : Nat} (hpos : 0 < nalloc)
    (hp : 0 < createSize nalloc → p ≠ 0) :
    HoldsAll pool nalloc p ↔ CanGrow nalloc ∨ createSize nalloc ≤ 0 := by
  constructor
  · intro hall
    by_contra hno
    rw [not_or, Int.not_le] at hno
    exact not_holdsAll hpos (hp hno.2) hno.1 hno.2 hall
  · rintro (hgrow | hnull)
    · exact hgrow.holdsAll (hp hgrow.createSize_pos)
    · exact ⟨none, arrayCreate_null hnull, nofun⟩

/-- The virtual hosts of a configuration. -/
theorem holdsAll_ten : HoldsAll (Pool.poolCreate 4096) 10 8192 :=
  (holdsAll_iff (by decide) fun _ => by decide).mpr (.inl (by decide))

/-- The second push into an array of one entry writes behind its new block. -/
theorem not_holdsAll_one :
    (∃ a s, arrayCreate (Pool.poolCreate 4096) 1 8192 = .ok (some a) ∧
      step ⟨a, []⟩ (7, 0) = some s ∧ arrayPush s.array 9 12288 = .error .fault) ∧
    ¬ ∀ pool nalloc p, 0 < nalloc → p ≠ 0 → HoldsAll pool nalloc p :=
  ⟨⟨_, _, rfl, rfl, rfl⟩, fun h => not_holdsAll (by decide) (by decide) (by decide) (by decide)
    (h (Pool.poolCreate 4096) 1 8192 (by decide) (by decide))⟩

end PointerArray

end XwpServer
