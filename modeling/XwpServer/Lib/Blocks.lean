/-
  XwpServer.Lib.Blocks

  Blocks of an address space.

  An allocator hands out blocks that have no address in common.  Blocks are then told
  apart by where they start, and an access inside of one leaves the others alone.
-/

import Mathlib.Data.List.Nodup
import Mathlib.Data.List.Pairwise

namespace Blocks

/-- The addresses from `addr` on. -/
structure Block where
  addr : Nat
  size : Nat
  deriving DecidableEq, Repr

namespace Block

/-- The `n` addresses from `p` on are in the block. -/
def Covers (b : Block) (p n : Nat) : Prop := b.addr ≤ p ∧ p + n ≤ b.addr + b.size

instance (b : Block) (p n : Nat) : Decidable (b.Covers p n) := inferInstanceAs (Decidable (_ ∧ _))

/-- No address is in both blocks. -/
def Apart (b c : Block) : Prop := b.addr + b.size ≤ c.addr ∨ c.addr + c.size ≤ b.addr

instance (b c : Block) : Decidable (b.Apart c) := inferInstanceAs (Decidable (_ ∨ _))

theorem Apart.symm {b c : Block} (h : b.Apart c) : c.Apart b := Or.symm h

/-- An access in a block does not meet a block apart from it. -/
theorem Covers.apart {b c : Block} {p n : Nat} (h : b.Covers p n) (hc : b.Apart c) :
    (⟨p, n⟩ : Block).Apart c := by
  obtain ⟨hlow, hhigh⟩ := h
  rcases hc with hc | hc
  · exact .inl (Nat.le_trans hhigh hc)
  · exact .inr (Nat.le_trans hc hlow)

end Block

open Block

/-- Blocks that are not empty and have no address in common. -/
structure Separate (bs : List Block) : Prop where
  nonempty : ∀ b ∈ bs, 0 < b.size
  apart : bs.Pairwise Apart

variable {bs : List Block}

theorem Separate.nil : Separate [] := ⟨nofun, .nil⟩

theorem Separate.cons (h : Separate bs) {b : Block} (hb : 0 < b.size) (hn : ∀ c ∈ bs, b.Apart c) :
    Separate (b :: bs) := by
  refine ⟨fun c hc => ?_, List.pairwise_cons.mpr ⟨hn, h.apart⟩⟩
  rcases List.mem_cons.mp hc with rfl | hc
  · exact hb
  · exact h.nonempty c hc

/-- Blocks apart from each other start at different addresses. -/
theorem addr_ne_of_apart {b c : Block} (hb : 0 < b.size) (hc : 0 < c.size) (h : b.Apart c) :
    b.addr ≠ c.addr := by
  unfold Apart at h
  omega

theorem Separate.nodup (h : Separate bs) : (bs.map Block.addr).Nodup := by
  obtain ⟨hne, hapart⟩ := h
  refine List.pairwise_map.mpr (hapart.imp_of_mem fun hb hc hbc => ?_)
  exact addr_ne_of_apart (hne _ hb) (hne _ hc) hbc

/-- Two blocks of the list that start at different addresses are apart. -/
theorem Separate.apart_of_ne (h : Separate bs) {b c : Block} (hb : b ∈ bs) (hc : c ∈ bs)
    (haddr : b.addr ≠ c.addr) : b.Apart c := by
  have hne : b ≠ c := fun heq => haddr (by rw [heq])
  have hsymm : Std.Symm Block.Apart := ⟨fun _ _ => Apart.symm⟩
  exact h.apart.forall hb hc hne

/-- Take the block out that starts at an address. -/
def without (bs : List Block) (a : Nat) : List Block := bs.filter fun b => b.addr ≠ a

theorem Separate.without (h : Separate bs) (a : Nat) : Separate (without bs a) :=
  ⟨fun b hb => h.nonempty b (List.mem_filter.mp hb).1, h.apart.filter _⟩

theorem map_without (bs : List Block) (a : Nat) :
    (without bs a).map Block.addr = (bs.map Block.addr).filter (· ≠ a) := by
  rw [Blocks.without, List.filter_map]
  rfl

/-- What is left when the blocks that start at the addresses `l` have been taken out. -/
theorem mem_foldl_without (l : List Nat) (bs : List Block) (a : Nat) :
    a ∈ (l.foldl without bs).map Block.addr ↔ a ∈ bs.map Block.addr ∧ a ∉ l := by
  induction l generalizing bs with
  | nil => simp
  | cons c l ih =>
      rw [List.foldl_cons, ih, map_without, List.mem_filter, List.mem_cons, not_or]
      simp [and_assoc]

end Blocks
