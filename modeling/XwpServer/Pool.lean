/-
  XwpServer.Pool

  The memory pool (`pool.c`), and what allocates from it (`buf.c`, `array.c`).

  A pool is two linked lists through blocks of `malloc`: the blocks it hands out, each
  behind a header that it skips, and the cleanups.  The invariant is that of both lists
  (`PoolInv`).  It is kept by every call whose `malloc` succeeds; `pool_alloc` adds the
  size of the header to a NULL as well, so a failure looks like a block.
-/

import XwpServer.RecvLoop
import XwpServer.Lib.Blocks
import XwpServer.Lib.LinkedList
import XwpServer.Lib.Transition
import Mathlib.Data.List.Perm.Subperm

namespace XwpServer

open CString Blocks LinkedList Transition

namespace Pool

/-! ## The process -/

/-- `sizeof(pool_node_t)`. -/
def NODE_SIZE : Nat := 8

/-- `sizeof(pool_cleanup_node_t)`. -/
def CLEANUP_NODE_SIZE : Nat := 24

/-- `sizeof(array_t)`. -/
def ARRAY_SIZE : Nat := 24

/-- `malloc` returns no address below. -/
def PAGE_SIZE : Nat := 4096

/-- The blocks of `malloc`, and the pool in them: `next` and `cleanupNext` are the links
    at an address, and `cleanup` the registration a cleanup node holds.  `granted` are the
    results of the calls with the sizes that were asked for, the last one first, and
    `registered` the cleanups in their order. -/
structure Proc where
  blocks : List Block
  thiz : Nat
  head : Option Nat := none
  next : Nat → Option Nat := fun _ => none
  cleanupHead : Option Nat := none
  cleanupNext : Nat → Option Nat := fun _ => none
  cleanup : Nat → Nat := fun _ => 0
  granted : List (Nat × Nat) := []
  registered : List Nat := []

/-- `pool_create`, with the address of the `pool_t`. -/
def poolCreate (thiz : Nat) : Proc := { blocks := [⟨thiz, 16⟩], thiz := thiz }

/-- What a write of `n` bytes at `p` leaves of a field of `size` bytes at each address. -/
def spoil {α : Type} (p n size : Nat) (zero : α) (f : Nat → α) : Nat → α := fun x =>
  if (⟨p, n⟩ : Block).Apart ⟨x, size⟩ then f x else zero

/-- A write of `n` bytes at `p`. -/
def write (s : Proc) (p n : Nat) : Except Stop Proc :=
  if ∃ b ∈ s.blocks, b.Covers p n then
    .ok { s with
      next := spoil p n NODE_SIZE none s.next
      cleanupNext := spoil p n CLEANUP_NODE_SIZE none s.cleanupNext
      cleanup := spoil p n CLEANUP_NODE_SIZE 0 s.cleanup }
  else .error .fault

/-! ## Calls -/

/-- A `malloc` of `n` bytes that succeeded, in front of the list. -/
def link (s : Proc) (p n : Nat) : Proc :=
  { s with
    blocks := ⟨p, n⟩ :: s.blocks, next := Function.update s.next p s.head, head := some p }

/-- `pool_alloc` with the pointer `p` that its `malloc` returns, 0 for NULL. -/
def poolAlloc (s : Proc) (size : Int) (p : Nat) : Proc × Nat :=
  if size ≤ 0 then (s, 0)
  else (if p ≠ 0 then link s p (size.toNat + NODE_SIZE) else s, p + NODE_SIZE)

/-- A caller that writes `n` bytes into what it has got. -/
def filled (x : Proc × Nat) (n : Nat) : Except Stop (Proc × Nat) :=
  if x.2 = 0 then .ok x
  else
    match write x.1 x.2 n with
    | .ok s => .ok (s, x.2)
    | .error e => .error e

/-- `pool_calloc`. -/
def poolCalloc (s : Proc) (size : Int) (p : Nat) : Except Stop (Proc × Nat) :=
  filled (poolAlloc s size p) size.toNat

/-- `pool_strdup` of a string of `slen` characters. -/
def poolStrdup (s : Proc) (slen : Nat) (p : Nat) : Except Stop (Proc × Nat) :=
  filled (poolAlloc s (toInt32 (slen + 1)) p) (slen + 1)

/-- `pool_strndup`. -/
def poolStrndup (s : Proc) (len : Int) (p : Nat) : Except Stop (Proc × Nat) :=
  if len ≤ 0 then .ok (s, 0)
  else filled (poolAlloc s (toInt32 (len + 1)) p) (len.toNat + 1)

/-- What `buf_create` and `array_create` do with a block: `pool_calloc` of the sum in an
    `int`, and a write of the record at its front. -/
def createRecord (s : Proc) (record : Nat) (size : Int) (p : Nat) : Except Stop (Proc × Nat) :=
  match poolCalloc s (toInt32 size) p with
  | .ok x => filled x record
  | .error e => .error e

/-- `buf_create`. -/
def bufCreateIn (s : Proc) (size : Nat) (p : Nat) : Except Stop (Proc × Nat) :=
  createRecord s BUF_SIZE (BUF_SIZE + size) p

/-- `array_create`. -/
def arrayCreate (s : Proc) (nalloc : Nat) (p : Nat) : Except Stop (Proc × Nat) :=
  createRecord s ARRAY_SIZE (ARRAY_SIZE + nalloc * 8) p

/-- `pool_add_cleanup`; it does check its `malloc`. -/
def poolAddCleanup (s : Proc) (cleanup : Nat) (p : Nat) : Proc × Nat :=
  if p ≠ 0 then
    ({ s with
        blocks := ⟨p, CLEANUP_NODE_SIZE⟩ :: s.blocks
        cleanupNext := Function.update s.cleanupNext p s.cleanupHead
        cleanup := Function.update s.cleanup p cleanup
        cleanupHead := some p
        registered := s.registered ++ [cleanup] }, 1)
  else (s, 0)

/-- The calls, with their `int` and `size_t` arguments; `buf_create` and `array_create`
    assert that theirs are not negative. -/
inductive Call where
  | alloc (size : Int)
  | calloc (size : Int)
  | strdup (slen : Nat)
  | strndup (len : Int)
  | bufCreate (size : Nat)
  | arrayCreate (nalloc : Nat)
  | addCleanup (cleanup : Nat)
  deriving DecidableEq, Repr

/-- The size a call asks for, 0 if it asks for nothing. -/
def Call.request : Call → Nat
  | .alloc size | .calloc size => size.toNat
  | .strdup slen => slen + 1
  | .strndup len => if len ≤ 0 then 0 else len.toNat + 1
  | .bufCreate size => BUF_SIZE + size
  | .arrayCreate nalloc => ARRAY_SIZE + nalloc * 8
  | .addCleanup _ => CLEANUP_NODE_SIZE

/-- It asks for a block of the pool. -/
def Call.grants : Call → Bool
  | .addCleanup _ => false
  | _ => true

/-- The code of a call, with the pointer its `malloc` returns if it gets there. -/
def Call.code (s : Proc) (p : Nat) : Call → Except Stop (Proc × Nat)
  | .alloc size => .ok (poolAlloc s size p)
  | .calloc size => poolCalloc s size p
  | .strdup slen => poolStrdup s slen p
  | .strndup len => poolStrndup s len p
  | .bufCreate size => bufCreateIn s size p
  | .arrayCreate nalloc => Pool.arrayCreate s nalloc p
  | .addCleanup cleanup => .ok (poolAddCleanup s cleanup p)

/-- The result of a call is kept in mind. -/
def Call.keep (c : Call) (x : Proc × Nat) : Proc × Nat :=
  (if c.grants ∧ x.2 ≠ 0 then { x.1 with granted := (x.2, c.request) :: x.1.granted } else x.1,
    x.2)

/-- A call. -/
def Call.run (s : Proc) (c : Call) (p : Nat) : Except Stop (Proc × Nat) :=
  (c.code s p).map c.keep

/-- The bytes of the `malloc` of a call, as it computes them. -/
def Call.mallocSize : Call → Nat
  | .alloc size | .calloc size => size.toNat + NODE_SIZE
  | .strdup slen => (toInt32 (slen + 1)).toNat + NODE_SIZE
  | .strndup len => (toInt32 (len + 1)).toNat + NODE_SIZE
  | .bufCreate size => (toInt32 (BUF_SIZE + size)).toNat + NODE_SIZE
  | .arrayCreate nalloc => (toInt32 (ARRAY_SIZE + nalloc * 8)).toNat + NODE_SIZE
  | .addCleanup _ => CLEANUP_NODE_SIZE

/-- `malloc` fails, or returns a block apart from the others. -/
def Mallocs (s : Proc) (c : Call) (p : Nat) : Prop :=
  p = 0 ∨ PAGE_SIZE ≤ p ∧ ∀ b ∈ s.blocks, (⟨p, c.mallocSize⟩ : Block).Apart b

instance (s : Proc) (c : Call) (p : Nat) : Decidable (Mallocs s c p) :=
  inferInstanceAs (Decidable (_ ∨ _))

/-- A call with the result of its `malloc`. -/
def step (s : Proc) (m : Call × Nat) : Option Proc :=
  if Mallocs s m.1 m.2 then
    match m.1.run s m.2 with
    | .ok (s, _) => some s
    | .error _ => none
  else none

/-! ## `pool_destroy` -/

/-- What `pool_destroy` does. -/
inductive Event where
  | cleanup (cleanup : Nat)
  | free (p : Nat)
  deriving DecidableEq, Repr

/-- `free`. -/
def free (s : Proc) (p : Nat) : Except Stop Proc :=
  if p ∈ s.blocks.map Block.addr then .ok { s with blocks := without s.blocks p }
  else .error .fault

/-- A loop that does something at each node of a list and frees it, where `next` has been
    read before.  Each round frees a block, so there are no more than `fuel` rounds. -/
def freeList (next : Nat → Option Nat) (does : Nat → List Event) :
    (fuel : Nat) → Proc → Option Nat → Except Stop (Proc × List Event)
  | _, s, none => .ok (s, [])
  | 0, _, some _ => .error .fault
  | fuel + 1, s, some n =>
      match free s n with
      | .error e => .error e
      | .ok s =>
        match freeList next does fuel s (next n) with
        | .error e => .error e
        | .ok (s, events) => .ok (s, does n ++ .free n :: events)

/-- The loop over the cleanups. -/
def runCleanups (s : Proc) : Except Stop (Proc × List Event) :=
  freeList s.cleanupNext (fun c => [.cleanup (s.cleanup c)]) s.blocks.length s s.cleanupHead

/-- The loop over the blocks. -/
def freeNodes (s : Proc) : Except Stop (Proc × List Event) :=
  freeList s.next (fun _ => []) s.blocks.length s s.head

/-- `pool_destroy`: what the loop over the cleanups does, and what is done behind it. -/
def poolDestroy (s : Proc) : Except Stop (List Event × List Event) :=
  match runCleanups s with
  | .error e => .error e
  | .ok (s, cleanups) =>
    match freeNodes s with
    | .error e => .error e
    | .ok (s, frees) =>
      match free s s.thiz with
      | .error e => .error e
      | .ok _ => .ok (cleanups, frees ++ [.free s.thiz])

/-! ## The discipline -/

def Event.ran : Event → Option Nat
  | .cleanup f => some f
  | .free _ => none

def Event.freed : Event → Option Nat
  | .cleanup _ => none
  | .free p => some p

/-- The node is once in the list of the pool. -/
def LinkedOnce (s : Proc) (a : Nat) : Prop := ∃ nodes, Chain s.next s.head nodes ∧ nodes.count a = 1

/-- `pool_destroy` runs the cleanups, the last one first, and then frees every block once. -/
structure Destroyed (s : Proc) (cleanups frees : List Event) : Prop where
  ran : cleanups.filterMap Event.ran = s.registered.reverse
  behind : frees.filterMap Event.ran = []
  freed : ((cleanups ++ frees).filterMap Event.freed).Perm (s.blocks.map Block.addr)
  once : (s.blocks.map Block.addr).Nodup
  granted : ∀ g ∈ s.granted, .free (g.1 - NODE_SIZE) ∈ frees

/-- The results so far are different blocks of the sizes that were asked for, and the pool
    can be destroyed. -/
structure WellKept (s : Proc) : Prop where
  granted : ∀ g ∈ s.granted, ∃ a, g.1 = a + NODE_SIZE ∧ LinkedOnce s a ∧
    ∃ b ∈ s.blocks, b.addr = a ∧ g.2 + NODE_SIZE ≤ b.size
  distinct : (s.granted.map Prod.fst).Nodup
  separate : s.blocks.Pairwise Block.Apart
  destroyed : ∃ cleanups frees, poolDestroy s = .ok (cleanups, frees) ∧ Destroyed s cleanups frees

/-- A call returns NULL exactly if it has not got what it asked for, and then it leaves the
    pool as it was. -/
def Answers (s : Proc) (c : Call) (p : Nat) : Prop :=
  ∃ s' r, c.run s p = .ok (s', r) ∧ (r = 0 ↔ ¬ (0 < c.request ∧ p ≠ 0)) ∧ (r = 0 → s' = s)

/-- The `malloc` of `pool_alloc` succeeds, and the size is one of an `int`. -/
def CallOk (c : Call) (p : Nat) : Prop :=
  c.request < 2 ^ 31 ∧ (p = 0 → c.grants = true → c.request = 0)

instance (c : Call) (p : Nat) : Decidable (CallOk c p) := inferInstanceAs (Decidable (_ ∧ _))

/-! ## Blocks -/

section Blocks

variable {s : Proc} {b : Block} {p n : Nat}

/-- A write into a block. -/
theorem write_ok (hb : b ∈ s.blocks) (hcovers : b.Covers p n) :
    ∃ s', write s p n = .ok s' ∧ s'.blocks = s.blocks :=
  ⟨_, if_pos ⟨b, hb, hcovers⟩, rfl⟩

theorem filled_ok (hb : b ∈ s.blocks) (hcovers : b.Covers p n) (hp : p ≠ 0) :
    ∃ s', filled (s, p) n = .ok (s', p) ∧ s'.blocks = s.blocks := by
  obtain ⟨s', hwrite, hblocks⟩ := write_ok hb hcovers
  refine ⟨s', ?_, hblocks⟩
  simp only [filled, if_neg hp, hwrite]

/-- Filling a block does not change what the caller returns. -/
theorem filled_snd {x y : Proc × Nat} (h : filled x n = .ok y) : y.2 = x.2 := by
  unfold filled at h
  split at h
  · rw [← Except.ok.inj h]
  · split at h
    · rw [← Except.ok.inj h]
    · cases h

/-- What is behind the header of a node. -/
theorem covers_of_le {size : Nat} (hn : n ≤ size) :
    (⟨p, size + NODE_SIZE⟩ : Block).Covers (p + NODE_SIZE) n := by
  show p ≤ p + NODE_SIZE ∧ p + NODE_SIZE + n ≤ p + (size + NODE_SIZE)
  omega

/-- The block that `pool_alloc` returns a pointer into. -/
theorem poolAlloc_ok {size : Int} (hsize : 0 < size) (hp : p ≠ 0) :
    poolAlloc s size p = (link s p (size.toNat + NODE_SIZE), p + NODE_SIZE) := by
  rw [poolAlloc, if_neg (Int.not_le.mpr hsize), if_pos hp]

theorem poolAlloc_null {size : Int} (hsize : size ≤ 0) : poolAlloc s size p = (s, 0) :=
  if_pos hsize

end Blocks

/-! ## The invariant -/

/-- The lists of the pool are `nodes` and `cleanups`, and there are no other blocks. -/
structure PoolInv (s : Proc) (nodes cleanups : List Nat) : Prop where
  chain : Chain s.next s.head nodes
  cleanupChain : Chain s.cleanupNext s.cleanupHead cleanups
  separate : Separate s.blocks
  owned : (s.blocks.map Block.addr).Perm (cleanups ++ nodes ++ [s.thiz])
  nodeSize : ∀ a ∈ nodes, ∃ b ∈ s.blocks, b.addr = a ∧ NODE_SIZE ≤ b.size
  cleanupSize : ∀ c ∈ cleanups, ∃ b ∈ s.blocks, b.addr = c ∧ CLEANUP_NODE_SIZE ≤ b.size
  registered : cleanups.map s.cleanup = s.registered.reverse
  granted : ∀ g ∈ s.granted, ∃ a ∈ nodes, g.1 = a + NODE_SIZE ∧
    ∃ b ∈ s.blocks, b.addr = a ∧ g.2 + NODE_SIZE ≤ b.size
  distinct : (s.granted.map Prod.fst).Nodup

theorem poolInv_create (thiz : Nat) : PoolInv (poolCreate thiz) [] [] where
  chain := rfl
  cleanupChain := rfl
  separate := Separate.nil.cons (Nat.succ_pos 15) nofun
  owned := List.Perm.refl _
  nodeSize := nofun
  cleanupSize := nofun
  registered := rfl
  granted := nofun
  distinct := List.nodup_nil

section Invariant

variable {s : Proc} {nodes cleanups : List Nat} {p n : Nat}

theorem PoolInv.nodup (hi : PoolInv s nodes cleanups) : (cleanups ++ nodes ++ [s.thiz]).Nodup :=
  hi.owned.nodup_iff.mp hi.separate.nodup

theorem PoolInv.mem_blocks (hi : PoolInv s nodes cleanups) {a : Nat}
    (ha : a ∈ cleanups ++ nodes ++ [s.thiz]) : a ∈ s.blocks.map Block.addr :=
  hi.owned.mem_iff.mpr ha

/-- A new block starts where no other one does. -/
theorem PoolInv.fresh (hi : PoolInv s nodes cleanups) (hn : 0 < n)
    (hapart : ∀ b ∈ s.blocks, (⟨p, n⟩ : Block).Apart b) : p ∉ cleanups ++ nodes ++ [s.thiz] := by
  intro hp
  obtain ⟨b, hb, rfl⟩ := List.mem_map.mp (hi.mem_blocks hp)
  exact addr_ne_of_apart hn (hi.separate.nonempty b hb) (hapart b hb) rfl

/-- A new node in front of the list. -/
theorem PoolInv.link (hi : PoolInv s nodes cleanups)
    (hapart : ∀ b ∈ s.blocks, (⟨p, n + NODE_SIZE⟩ : Block).Apart b) :
    PoolInv (link s p (n + NODE_SIZE)) (p :: nodes) cleanups := by
  have hfresh := hi.fresh (Nat.add_pos_right n (by decide)) hapart
  simp only [List.mem_append, not_or] at hfresh
  have hold : ∀ {a : Nat} {P : Block → Prop}, (∃ b ∈ s.blocks, b.addr = a ∧ P b) →
      ∃ b ∈ (Pool.link s p (n + NODE_SIZE)).blocks, b.addr = a ∧ P b :=
    fun ⟨b, hb, h⟩ => ⟨b, List.mem_cons_of_mem _ hb, h⟩
  refine { hi with
    chain := (hi.chain.update hfresh.1.2 s.head).push (Function.update_self ..)
    separate := hi.separate.cons (Nat.add_pos_right n (by decide)) hapart
    owned := ?_
    nodeSize := fun a ha => ?_
    cleanupSize := fun c hc => hold (hi.cleanupSize c hc)
    granted := fun g hg => ?_ }
  · have hperm := hi.owned.cons p
    refine hperm.trans ?_
    rw [List.append_assoc, List.append_assoc]
    exact List.perm_middle.symm
  · rcases List.mem_cons.mp ha with rfl | ha
    · exact ⟨_, List.mem_cons_self, rfl, Nat.le_add_left _ _⟩
    · exact hold (hi.nodeSize a ha)
  · obtain ⟨a, ha, hg, hb⟩ := hi.granted g hg
    exact ⟨a, List.mem_cons_of_mem _ ha, hg, hold hb⟩

/-- The blocks and the accounts are the same. -/
def SameBooks (s s' : Proc) : Prop :=
  s'.blocks = s.blocks ∧ s'.granted = s.granted

/-- A write behind the header of a node leaves the links of all nodes alone. -/
theorem PoolInv.write (hi : PoolInv s nodes cleanups) {b : Block} (hb : b ∈ s.blocks)
    (hnode : b.addr ∈ nodes) {k : Nat} (hp : p = b.addr + NODE_SIZE)
    (hk : k + NODE_SIZE ≤ b.size) :
    ∃ s', write s p k = .ok s' ∧ PoolInv s' nodes cleanups ∧ SameBooks s s' := by
  have hcovers : b.Covers p k := by
    unfold Block.Covers
    omega
  -- the header of the node itself, and those of the others
  have hnodes : ∀ x ∈ nodes, (⟨p, k⟩ : Block).Apart ⟨x, NODE_SIZE⟩ := by
    intro x hx
    obtain ⟨c, hc, rfl, hsize⟩ := hi.nodeSize x hx
    by_cases hbc : b.addr = c.addr
    · right
      show c.addr + NODE_SIZE ≤ p
      omega
    · have happ := hcovers.apart (hi.separate.apart_of_ne hb hc hbc)
      unfold Block.Apart at happ ⊢
      dsimp only at happ ⊢
      omega
  have hcleanups : ∀ x ∈ cleanups, (⟨p, k⟩ : Block).Apart ⟨x, CLEANUP_NODE_SIZE⟩ := by
    intro x hx
    obtain ⟨c, hc, rfl, hsize⟩ := hi.cleanupSize x hx
    have hbc : b.addr ≠ c.addr := fun heq => by
      have hnd := hi.nodup
      rw [List.append_assoc] at hnd
      exact List.disjoint_of_nodup_append hnd hx
        (List.mem_append_left _ (heq ▸ hnode))
    have happ := hcovers.apart (hi.separate.apart_of_ne hb hc hbc)
    unfold Block.Apart at happ ⊢
    dsimp only at happ ⊢
    omega
  refine ⟨_, if_pos ⟨b, hb, hcovers⟩, { hi with
    chain := hi.chain.congr fun x hx => if_pos (hnodes x hx)
    cleanupChain := hi.cleanupChain.congr fun x hx => if_pos (hcleanups x hx)
    registered := ?_ }, rfl, rfl⟩
  rw [← hi.registered]
  exact List.map_congr_left fun x hx => if_pos (hcleanups x hx)

/-- A caller that writes no more than it has asked for. -/
theorem PoolInv.filled (hi : PoolInv s (p :: nodes) cleanups) {size k : Nat}
    (hb : ⟨p, size + NODE_SIZE⟩ ∈ s.blocks) (hk : k ≤ size) :
    ∃ s', filled (s, p + NODE_SIZE) k = .ok (s', p + NODE_SIZE) ∧
      PoolInv s' (p :: nodes) cleanups ∧ SameBooks s s' := by
  obtain ⟨s', hwrite, hi', hbooks⟩ := hi.write hb List.mem_cons_self rfl
    (Nat.add_le_add_right hk NODE_SIZE)
  refine ⟨s', ?_, hi', hbooks⟩
  have hne : p + NODE_SIZE ≠ 0 := Nat.succ_ne_zero _
  simp only [Pool.filled, if_neg hne, hwrite]

/-- A result is one more block of the pool. -/
theorem PoolInv.grant (hi : PoolInv s (p :: nodes) cleanups) {size k : Nat}
    (hb : ⟨p, size + NODE_SIZE⟩ ∈ s.blocks) (hk : k ≤ size)
    (hnew : p + NODE_SIZE ∉ s.granted.map Prod.fst) :
    PoolInv { s with granted := (p + NODE_SIZE, k) :: s.granted } (p :: nodes) cleanups :=
  { hi with
    granted := fun g hg => by
      rcases List.mem_cons.mp hg with rfl | hg
      · exact ⟨p, List.mem_cons_self, rfl, _, hb, rfl, Nat.add_le_add_right hk NODE_SIZE⟩
      · exact hi.granted g hg
    distinct := List.nodup_cons.mpr ⟨hnew, hi.distinct⟩ }

/-- A new cleanup in front of the list. -/
theorem PoolInv.addCleanup (hi : PoolInv s nodes cleanups) (hp : p ≠ 0) {f : Nat}
    (hapart : ∀ b ∈ s.blocks, (⟨p, CLEANUP_NODE_SIZE⟩ : Block).Apart b) :
    PoolInv (poolAddCleanup s f p).1 nodes (p :: cleanups) := by
  have hfresh := hi.fresh (by decide : 0 < CLEANUP_NODE_SIZE) hapart
  simp only [List.mem_append, not_or] at hfresh
  -- the new cleanup is in no list yet
  obtain ⟨⟨hcleanups, -⟩, -⟩ := hfresh
  have hold : ∀ {a : Nat} {P : Block → Prop}, (∃ b ∈ s.blocks, b.addr = a ∧ P b) →
      ∃ b ∈ (poolAddCleanup s f p).1.blocks, b.addr = a ∧ P b := by
    rintro a P ⟨b, hb, h⟩
    refine ⟨b, ?_, h⟩
    rw [poolAddCleanup, if_pos hp]
    exact List.mem_cons_of_mem _ hb
  rw [poolAddCleanup, if_pos hp] at hold ⊢
  refine { hi with
    cleanupChain := (hi.cleanupChain.update hcleanups s.cleanupHead).push (Function.update_self ..)
    separate := hi.separate.cons (by decide : 0 < CLEANUP_NODE_SIZE) hapart
    owned := hi.owned.cons p
    nodeSize := fun a ha => hold (hi.nodeSize a ha)
    cleanupSize := fun c hc => ?_
    registered := ?_
    granted := fun g hg => ?_ }
  · rcases List.mem_cons.mp hc with rfl | hc
    · exact ⟨_, List.mem_cons_self, rfl, Nat.le_refl _⟩
    · exact hold (hi.cleanupSize c hc)
  · rw [List.reverse_append, ← hi.registered, List.map_cons]
    show Function.update s.cleanup p f p :: _ = _
    rw [Function.update_self]
    refine congrArg (f :: ·) (List.map_congr_left fun x hx => ?_)
    have hne : x ≠ p := fun heq => hcleanups (by rwa [← heq])
    exact Function.update_of_ne hne ..
  · obtain ⟨a, ha, hg, hb⟩ := hi.granted g hg
    exact ⟨a, ha, hg, hold hb⟩

end Invariant

/-! ## What the calls do -/

section Calls

variable {s : Proc} {nodes cleanups : List Nat} {p : Nat}

theorem toInt32_nat {n : Nat} (h : n < 2 ^ 31) : toInt32 (n : Int) = n :=
  toInt32_of_lt (Int.natCast_nonneg n) (by omega)

/-- A size that is one of an `int` is the one that is allocated. -/
theorem mallocSize_eq {c : Call} (hc : c.grants = true) (hreq : 0 < c.request)
    (hmax : c.request < 2 ^ 31) : c.mallocSize = c.request + NODE_SIZE := by
  -- three calls add to their size in an `int`, which the bound keeps from being cut
  cases c with
  | addCleanup f => cases hc
  | alloc size => rfl
  | calloc size => rfl
  | strdup slen =>
      have hcut := toInt32_nat (n := slen + 1) hmax
      push_cast at hcut
      show (toInt32 ((slen : Int) + 1)).toNat + NODE_SIZE = slen + 1 + NODE_SIZE
      rw [hcut]
      omega
  | strndup len =>
      have hpos : ¬ len ≤ 0 := fun hle => by
        have h0 : (Call.strndup len).request = 0 := if_pos hle
        omega
      have hreq' : (Call.strndup len).request = len.toNat + 1 := if_neg hpos
      rw [hreq'] at hmax ⊢
      show (toInt32 (len + 1)).toNat + NODE_SIZE = _
      rw [toInt32_of_lt (by omega) (by omega)]
      omega
  | bufCreate size =>
      have hcut := toInt32_nat (n := BUF_SIZE + size) hmax
      push_cast at hcut
      show (toInt32 ((BUF_SIZE : Int) + size)).toNat + NODE_SIZE = BUF_SIZE + size + NODE_SIZE
      rw [hcut]
      omega
  | arrayCreate nalloc =>
      have hcut := toInt32_nat (n := ARRAY_SIZE + nalloc * 8) hmax
      push_cast at hcut
      show (toInt32 ((ARRAY_SIZE : Int) + nalloc * 8)).toNat + NODE_SIZE =
        ARRAY_SIZE + nalloc * 8 + NODE_SIZE
      rw [hcut]
      omega

/-- The code of a call that gets a block: it links it, and writes no more than it asked for. -/
theorem code_grants {c : Call} (hi : PoolInv s nodes cleanups) (hc : c.grants = true)
    (hreq : 0 < c.request) (hmax : c.request < 2 ^ 31) (hp : p ≠ 0) (hm : Mallocs s c p) :
    ∃ s', c.code s p = .ok (s', p + NODE_SIZE) ∧ PoolInv s' (p :: nodes) cleanups ∧
      ⟨p, c.request + NODE_SIZE⟩ ∈ s'.blocks ∧ s'.granted = s.granted := by
  obtain ⟨-, hapart⟩ := hm.resolve_left hp
  rw [mallocSize_eq hc hreq hmax] at hapart
  -- the block of `pool_alloc`, and a write into it
  have halloc : ∀ size : Nat, 0 < size →
      poolAlloc s size p = (Pool.link s p (size + NODE_SIZE), p + NODE_SIZE) := by
    intro size hsize
    rw [poolAlloc_ok (Int.natCast_pos.mpr hsize) hp, Int.toNat_natCast]
  have hfilled : ∀ {t : Proc} {size k : Nat}, PoolInv t (p :: nodes) cleanups →
      ⟨p, size + NODE_SIZE⟩ ∈ t.blocks → t.granted = s.granted → k ≤ size →
      ∃ s', filled (t, p + NODE_SIZE) k = .ok (s', p + NODE_SIZE) ∧
        PoolInv s' (p :: nodes) cleanups ∧ ⟨p, size + NODE_SIZE⟩ ∈ s'.blocks ∧
        s'.granted = s.granted := by
    intro t size k hi hb hg hk
    obtain ⟨s', hs', hi', hblocks, hgranted⟩ := hi.filled hb hk
    exact ⟨s', hs', hi', hblocks ▸ hb, hgranted.trans hg⟩
  have hcalloc : ∀ {size : Nat}, 0 < size →
      (∀ b ∈ s.blocks, (⟨p, size + NODE_SIZE⟩ : Block).Apart b) →
      ∃ s', filled (poolAlloc s size p) size = .ok (s', p + NODE_SIZE) ∧
        PoolInv s' (p :: nodes) cleanups ∧ ⟨p, size + NODE_SIZE⟩ ∈ s'.blocks ∧
        s'.granted = s.granted := by
    intro size hpos hapart
    rw [halloc size hpos]
    exact hfilled (hi.link hapart) List.mem_cons_self rfl (Nat.le_refl size)
  have hrecord : ∀ {record size : Nat}, record ≤ size → 0 < size → size < 2 ^ 31 →
      (∀ b ∈ s.blocks, (⟨p, size + NODE_SIZE⟩ : Block).Apart b) →
      ∃ s', createRecord s record size p = .ok (s', p + NODE_SIZE) ∧
        PoolInv s' (p :: nodes) cleanups ∧ ⟨p, size + NODE_SIZE⟩ ∈ s'.blocks ∧
        s'.granted = s.granted := by
    intro record size hle hpos hlt hapart
    obtain ⟨t, ht, hit, hbt, hgt⟩ := hcalloc hpos hapart
    obtain ⟨s', hs', h'⟩ := hfilled hit hbt hgt hle
    refine ⟨s', ?_, h'⟩
    rw [createRecord, toInt32_nat hlt, poolCalloc, Int.toNat_natCast, ht]
    exact hs'
  cases c with
  | addCleanup f => cases hc
  | alloc size =>
      obtain ⟨n, rfl⟩ : ∃ n : Nat, size = n := Int.eq_ofNat_of_zero_le (by
        have : 0 < size.toNat := hreq
        omega)
      exact ⟨_, congrArg Except.ok (halloc n hreq), hi.link hapart, List.mem_cons_self, rfl⟩
  | calloc size =>
      obtain ⟨n, rfl⟩ : ∃ n : Nat, size = n := Int.eq_ofNat_of_zero_le (by
        have : 0 < size.toNat := hreq
        omega)
      exact hcalloc hreq hapart
  | strdup slen =>
      have hcut := toInt32_nat (n := slen + 1) hmax
      push_cast at hcut
      obtain ⟨s', hs', h'⟩ := hcalloc hreq hapart
      refine ⟨s', ?_, h'⟩
      show filled (poolAlloc s (toInt32 ((slen : Int) + 1)) p) (slen + 1) = _
      rw [hcut]
      exact hs'
  | strndup len =>
      have hpos : ¬ len ≤ 0 := fun hle => by
        have h0 : (Call.strndup len).request = 0 := if_pos hle
        omega
      obtain ⟨n, rfl⟩ : ∃ n : Nat, len = n := Int.eq_ofNat_of_zero_le (by omega)
      have hreq' : (Call.strndup n).request = n + 1 := if_neg hpos
      rw [hreq'] at hmax hapart ⊢
      have hcut := toInt32_nat (n := n + 1) hmax
      push_cast at hcut
      obtain ⟨s', hs', h'⟩ := hcalloc (Nat.succ_pos n) hapart
      refine ⟨s', ?_, h'⟩
      show poolStrndup s n p = _
      rw [poolStrndup, if_neg hpos, hcut]
      exact hs'
  | bufCreate size =>
      have h := hrecord (Nat.le_add_right BUF_SIZE size) hreq hmax hapart
      push_cast at h
      exact h
  | arrayCreate nalloc =>
      have h := hrecord (Nat.le_add_right ARRAY_SIZE (nalloc * 8)) hreq hmax hapart
      push_cast at h
      exact h

/-- A call that asks for nothing. -/
theorem code_nothing {c : Call} (hreq : c.request = 0) : c.code s p = .ok (s, 0) := by
  have halloc : ∀ size : Int, size.toNat = 0 → poolAlloc s size p = (s, 0) :=
    fun size hsize => poolAlloc_null (Int.toNat_eq_zero.mp hsize)
  cases c with
  | alloc size => exact congrArg Except.ok (halloc size hreq)
  | calloc size =>
      show filled (poolAlloc s size p) size.toNat = _
      rw [halloc size hreq]
      rfl
  | strndup len =>
      have hle : len ≤ 0 := by
        by_contra hpos
        have hreq' : (Call.strndup len).request = len.toNat + 1 := if_neg hpos
        omega
      exact if_pos hle
  | strdup slen => cases hreq
  | bufCreate size =>
      have h0 : BUF_SIZE + size = 0 := hreq
      unfold BUF_SIZE at h0
      omega
  | arrayCreate nalloc =>
      have h0 : ARRAY_SIZE + nalloc * 8 = 0 := hreq
      unfold ARRAY_SIZE at h0
      omega
  | addCleanup f => cases hreq

/-- What a call comes to: it asks for nothing, or the `malloc` of a cleanup has failed, or
    the pool has one more block or cleanup. -/
theorem run_cases {c : Call} (hi : PoolInv s nodes cleanups) (hok : CallOk c p)
    (hm : Mallocs s c p) :
    (c.run s p = .ok (s, 0) ∧ ¬ (0 < c.request ∧ p ≠ 0)) ∨
      ∃ s' r nodes' cleanups', c.run s p = .ok (s', r) ∧ r ≠ 0 ∧ (0 < c.request ∧ p ≠ 0) ∧
        PoolInv s' nodes' cleanups' := by
  by_cases hreq : c.request = 0
  · refine .inl ⟨?_, by omega⟩
    have hnull : ¬ (c.grants = true ∧ (0 : Nat) ≠ 0) := fun h => h.2 rfl
    rw [Call.run, code_nothing hreq]
    show Except.ok (c.keep (s, 0)) = _
    simp only [Call.keep, hnull, if_false]
  have hpos : 0 < c.request := Nat.pos_of_ne_zero hreq
  by_cases hc : c.grants = true
  · have hp : p ≠ 0 := fun h0 => hreq (hok.2 h0 hc)
    obtain ⟨s', hcode, hi', hb, hgranted⟩ := code_grants hi hc hpos hok.1 hp hm
    have hne : p + NODE_SIZE ≠ 0 := Nat.succ_ne_zero _
    refine .inr ⟨_, p + NODE_SIZE, p :: nodes, cleanups, ?_, hne, ⟨hpos, hp⟩, hi'.grant hb
      (Nat.le_refl _) ?_⟩
    · rw [Call.run, hcode]
      show Except.ok (c.keep (s', p + NODE_SIZE)) = _
      rw [Call.keep, if_pos ⟨hc, hne⟩]
    · -- the older results are behind other nodes
      rw [hgranted]
      intro hmem
      obtain ⟨g, hg, hgp⟩ := List.mem_map.mp hmem
      obtain ⟨a, ha, hga, -⟩ := hi.granted g hg
      obtain rfl : a = p := Nat.add_right_cancel (hga.symm.trans hgp)
      have hnd := hi'.nodup
      simp only [List.nodup_append, List.nodup_cons] at hnd
      exact hnd.1.2.1.1 ha
  · cases c with
    | addCleanup f =>
        by_cases hp : p = 0
        · refine .inl ⟨?_, fun h => h.2 hp⟩
          subst hp
          rfl
        · obtain ⟨-, hapart⟩ := hm.resolve_left hp
          refine .inr ⟨_, 1, nodes, p :: cleanups, ?_, Nat.one_ne_zero, ⟨hpos, hp⟩,
            hi.addCleanup (f := f) hp hapart⟩
          show Except.ok ((poolAddCleanup s f p).1, (poolAddCleanup s f p).2) = _
          have hres : (poolAddCleanup s f p).2 = 1 := by
            rw [poolAddCleanup, if_pos hp]
          rw [hres]
    | alloc | calloc | strdup | strndup | bufCreate | arrayCreate => exact absurd rfl hc

end Calls

/-! ## The destruction -/

section Destruction

variable {s : Proc}

/-- The rounds over the nodes of the list `l`. -/
theorem freeList_eq {next : Nat → Option Nat} {does : Nat → List Event} {l : List Nat}
    {head : Option Nat} (hl : Chain next head l) (hnd : l.Nodup)
    (hblocks : ∀ n ∈ l, n ∈ s.blocks.map Block.addr) {fuel : Nat} (hfuel : l.length ≤ fuel) :
    freeList next does fuel s head = .ok ({ s with blocks := l.foldl without s.blocks },
      l.flatMap fun n => does n ++ [.free n]) := by
  induction l generalizing s head fuel with
  | nil =>
      rw [chain_nil.mp hl]
      cases fuel <;> rfl
  | cons n l ih =>
      obtain ⟨rfl, hrest⟩ := chain_cons.mp hl
      obtain ⟨hn, hnd⟩ := List.nodup_cons.mp hnd
      match fuel, hfuel with
      | fuel + 1, hfuel =>
          -- the nodes behind are still there when this one has been freed
          have hstill : ∀ x ∈ l, x ∈ (without s.blocks n).map Block.addr := by
            intro x hx
            rw [map_without, List.mem_filter]
            have hne : x ≠ n := fun heq => hn (by rwa [← heq])
            exact ⟨hblocks x (List.mem_cons_of_mem _ hx), by simpa using hne⟩
          have hfree : free s n = .ok { s with blocks := without s.blocks n } :=
            if_pos (hblocks n List.mem_cons_self)
          have hgo := @ih { s with blocks := without s.blocks n } _ hrest hnd hstill fuel
            (Nat.le_of_succ_le_succ hfuel)
          rw [freeList, hfree]
          dsimp only
          rw [hgo, List.flatMap_cons, List.append_assoc]
          rfl

theorem length_le_blocks {l : List Nat} {bs : List Block} (hnd : l.Nodup)
    (hblocks : ∀ c ∈ l, c ∈ bs.map Block.addr) : l.length ≤ bs.length := by
  have h := (List.subperm_of_subset hnd hblocks).length_le
  rwa [List.length_map] at h

/-- What the loop over the cleanups in the list `l` does. -/
def cleanupEvents (s : Proc) (l : List Nat) : List Event :=
  l.flatMap fun c => [.cleanup (s.cleanup c)] ++ [.free c]

/-- What is done behind it. -/
def freeEvents (s : Proc) (l : List Nat) : List Event :=
  (l.flatMap fun n => [] ++ [.free n]) ++ [.free s.thiz]

theorem cleanupEvents_ran (l : List Nat) :
    (cleanupEvents s l).filterMap Event.ran = l.map s.cleanup := by
  induction l with
  | nil => rfl
  | cons c l ih => exact congrArg (s.cleanup c :: ·) ih

theorem cleanupEvents_freed (l : List Nat) : (cleanupEvents s l).filterMap Event.freed = l := by
  induction l with
  | nil => rfl
  | cons c l ih => exact congrArg (c :: ·) ih

theorem freeEvents_ran (l : List Nat) : (freeEvents s l).filterMap Event.ran = [] := by
  induction l with
  | nil => rfl
  | cons n l ih => exact ih

theorem freeEvents_freed (l : List Nat) :
    (freeEvents s l).filterMap Event.freed = l ++ [s.thiz] := by
  induction l with
  | nil => rfl
  | cons n l ih => exact congrArg (n :: ·) ih

theorem mem_freeEvents {l : List Nat} {n : Nat} (hn : n ∈ l) : .free n ∈ freeEvents s l :=
  List.mem_append_left _ (List.mem_flatMap.mpr ⟨n, hn, List.mem_singleton_self _⟩)

/-- The pool is destroyed: the cleanups, the nodes, and the pool itself. -/
theorem PoolInv.poolDestroy {nodes cleanups : List Nat} (hi : PoolInv s nodes cleanups) :
    Pool.poolDestroy s = .ok (cleanupEvents s cleanups, freeEvents s nodes) := by
  obtain ⟨hcn, -, hd⟩ := List.nodup_append.mp hi.nodup
  obtain ⟨hcnd, hnnd, hcd⟩ := List.nodup_append.mp hcn
  have hthiz : s.thiz ∈ [s.thiz] := List.mem_singleton_self _
  have hcblocks : ∀ c ∈ cleanups, c ∈ s.blocks.map Block.addr := fun c hc =>
    hi.mem_blocks (List.mem_append_left _ (List.mem_append_left _ hc))
  -- what the first loop frees is none of the nodes, and what both free is not the pool
  have hnblocks : ∀ a ∈ nodes, a ∈ (cleanups.foldl without s.blocks).map Block.addr := fun a ha =>
    (mem_foldl_without _ _ _).mpr
      ⟨hi.mem_blocks (List.mem_append_left _ (List.mem_append_right _ ha)),
        fun hc => hcd a hc a ha rfl⟩
  have hpool : s.thiz ∈ (nodes.foldl without (cleanups.foldl without s.blocks)).map Block.addr := by
    rw [mem_foldl_without, mem_foldl_without]
    refine ⟨⟨hi.mem_blocks (List.mem_append_right _ hthiz), fun hc => ?_⟩, fun hn => ?_⟩
    · exact hd _ (List.mem_append_left _ hc) _ hthiz rfl
    · exact hd _ (List.mem_append_right _ hn) _ hthiz rfl
  have hruns : runCleanups s =
      .ok ({ s with blocks := cleanups.foldl without s.blocks }, cleanupEvents s cleanups) :=
    freeList_eq hi.cleanupChain hcnd hcblocks (length_le_blocks hcnd hcblocks)
  have hfrees : freeNodes { s with blocks := cleanups.foldl without s.blocks } =
      .ok ({ s with blocks := nodes.foldl without (cleanups.foldl without s.blocks) },
        nodes.flatMap fun n => [] ++ [.free n]) :=
    freeList_eq hi.chain hnnd hnblocks (length_le_blocks hnnd hnblocks)
  rw [Pool.poolDestroy, hruns]
  dsimp only
  rw [hfrees]
  dsimp only
  rw [free, if_pos hpool]
  rfl

theorem PoolInv.destroyed {nodes cleanups : List Nat} (hi : PoolInv s nodes cleanups) :
    Destroyed s (cleanupEvents s cleanups) (freeEvents s nodes) where
  ran := (cleanupEvents_ran _).trans hi.registered
  behind := freeEvents_ran _
  freed := by
    rw [List.filterMap_append, cleanupEvents_freed, freeEvents_freed, ← List.append_assoc]
    exact hi.owned.symm
  once := hi.separate.nodup
  granted g hg := by
    obtain ⟨a, ha, hga, -⟩ := hi.granted g hg
    rw [hga, Nat.add_sub_cancel]
    exact mem_freeEvents ha

theorem PoolInv.wellKept {nodes cleanups : List Nat} (hi : PoolInv s nodes cleanups) :
    WellKept s where
  granted g hg := by
    obtain ⟨a, ha, hga, hb⟩ := hi.granted g hg
    obtain ⟨-, hnodes, -⟩ := List.nodup_append.mp (List.nodup_append.mp hi.nodup).1
    exact ⟨a, hga, ⟨nodes, hi.chain, List.count_eq_one_of_mem hnodes ha⟩, hb⟩
  distinct := hi.distinct
  separate := hi.separate.apart
  destroyed := ⟨_, _, hi.poolDestroy, hi.destroyed⟩

end Destruction

/-! ## Runs -/

/-- The calls of which each gets its block. -/
def getsBlock (_ : Proc) (m : Call × Nat) : Prop := CallOk m.1 m.2

instance (s : Proc) (m : Call × Nat) : Decidable (getsBlock s m) :=
  inferInstanceAs (Decidable (CallOk m.1 m.2))

theorem inv_of_reaches {thiz : Nat} {s : Proc}
    (h : Reaches step getsBlock (poolCreate thiz) s) :
    ∃ nodes cleanups, PoolInv s nodes cleanups := by
  refine h.invariant (I := fun s => ∃ nodes cleanups, PoolInv s nodes cleanups) ?_
    ⟨[], [], poolInv_create thiz⟩
  rintro s ⟨c, p⟩ s' ⟨nodes, cleanups, hi⟩ hok hstep
  unfold step at hstep
  split at hstep
  case isFalse => cases hstep
  next hm =>
  rcases run_cases hi hok hm with ⟨hrun, -⟩ | ⟨t, r, nodes', cleanups', hrun, -, -, hi'⟩
  · rw [hrun] at hstep
    cases hstep
    exact ⟨nodes, cleanups, hi⟩
  · rw [hrun] at hstep
    cases hstep
    exact ⟨nodes', cleanups', hi'⟩

/-- The discipline of the pool, in every run in which no `malloc` of `pool_alloc` fails and
    the sizes are those of an `int`. -/
theorem pool_discipline {thiz : Nat} {s : Proc}
    (h : Reaches step getsBlock (poolCreate thiz) s) :
    WellKept s ∧ ∀ c p, CallOk c p → Mallocs s c p → Answers s c p := by
  obtain ⟨nodes, cleanups, hi⟩ := inv_of_reaches h
  refine ⟨hi.wellKept, fun c p hok hm => ?_⟩
  rcases run_cases hi hok hm with ⟨hrun, hno⟩ | ⟨s', r, -, -, hrun, hr, hyes, -⟩
  · exact ⟨s, 0, hrun, ⟨fun _ => hno, fun _ => rfl⟩, fun _ => rfl⟩
  · exact ⟨s', r, hrun, ⟨fun h0 => absurd h0 hr, fun hno => absurd hyes hno⟩,
      fun h0 => absurd h0 hr⟩

/-- A string, a cleanup and a buffer. -/
theorem pool_discipline_three :
    ∃ s, Reaches step getsBlock (poolCreate 4096) s ∧ s.granted = [(8456, 132), (8200, 6)] ∧
      s.registered = [7] ∧ WellKept s := by
  obtain ⟨s, hrun, hgranted, hregistered⟩ : ∃ s, execOf step getsBlock (poolCreate 4096)
      [(.strdup 5, 8192), (.addCleanup 7, 8320), (.bufCreate 100, 8448)] = some s ∧
      s.granted = [(8456, 132), (8200, 6)] ∧ s.registered = [7] := ⟨_, rfl, rfl, rfl⟩
  have hreach := reaches_of_execOf hrun
  exact ⟨s, hreach, hgranted, hregistered, (pool_discipline hreach).1⟩

/-- When the first `malloc` fails, `pool_alloc` returns the size of its header. -/
theorem not_pool_discipline :
    ¬ ∀ thiz s, Reaches step anyMove (poolCreate thiz) s →
      WellKept s ∧ ∀ c p, Mallocs s c p → Answers s c p := by
  intro h
  obtain ⟨s', r, hrun, hnull, -⟩ :=
    (h 4096 (poolCreate 4096) Relation.ReflTransGen.refl).2 (.alloc 10) 0 (.inl rfl)
  have hr : r = 8 := by
    cases hrun
    rfl
  exact absurd (hnull.mpr fun hgot => hgot.2 rfl) (by rw [hr]; decide)

end Pool

end XwpServer
