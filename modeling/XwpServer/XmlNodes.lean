/-
  XwpServer.XmlNodes

  The nodes of an XML tree in memory, as `xml_tree.c` makes, links, visits and frees them.

  A node is a cell with pointers to its parent, its first child and its next sibling.
  Appending a child walks to the last one, so what it does is said of linked forests
  (`appendChild_linked`), and freeing a tree frees each of its cells once and reads none
  after that (`xmlNodeDestroy_linked`).

  The strings of a node and its attributes are blocks of their own.  They are freed by the
  type of the node; what keeps this in step with what was allocated is that the blocks in
  memory are those of the nodes (`XmlHeap.Owned`).

  A read of a cell that is not allocated is a fault, and so is a `free` of a block that is
  not; allocations are total.  The list of the attributes of a node is the one linked
  through their `next` pointers.
-/

import Mathlib.Data.List.TakeWhile
import XwpServer.Lib.CString
import XwpServer.Lib.Forest

namespace XwpServer

open CString LinkedForest

/-! ## Nodes -/

structure XmlAttr where
  name : List Byte
  value : List Byte
  deriving DecidableEq, Repr

/-- The type of a node and what its union holds. -/
inductive XmlData where
  | pi (name : List Byte) (attrs : List XmlAttr)
  | text (text : List Byte)
  | normal (name : List Byte) (attrs : List XmlAttr)
  | comment (comment : List Byte)
  deriving DecidableEq, Repr

/-- How a call can go wrong: an assertion fails, or memory is read or freed that is not
    there. -/
inductive XmlFault where
  | assertion
  | memory
  deriving DecidableEq, Repr

/-- The blocks of a node besides its own: the string of its union, and for each attribute the
    record and its two strings. -/
inductive XmlBlock where
  | string
  | attr (k : Nat)
  | attrName (k : Nat)
  | attrValue (k : Nat)
  deriving DecidableEq, Repr

/-- The cells, the number of those that were allocated, and the blocks of the nodes that are
    allocated. -/
structure XmlHeap where
  cell : Cells Nat XmlData := fun _ => none
  brk : Nat := 0
  block : Nat → XmlBlock → Bool := fun _ _ => false

def XmlHeap.read (heap : XmlHeap) (i : Nat) : Except XmlFault (Cell Nat XmlData) :=
  match heap.cell i with
  | none => .error .memory
  | some c => .ok c

def XmlHeap.write (heap : XmlHeap) (i : Nat) (c : Option (Cell Nat XmlData)) : XmlHeap :=
  { heap with cell := Function.update heap.cell i c }

/-- `calloc` of a node. -/
def XmlHeap.alloc (heap : XmlHeap) (data : XmlData) : XmlHeap :=
  { heap with
    cell := Function.update heap.cell heap.brk (some { data := data })
    brk := heap.brk + 1 }

def XmlHeap.setBlock (heap : XmlHeap) (i : Nat) (b : XmlBlock) (live : Bool) : XmlHeap :=
  { heap with block := Function.update heap.block i (Function.update (heap.block i) b live) }

/-- `strdup`, `strndup` or `calloc` of a block of the node `i`. -/
def XmlHeap.malloc (heap : XmlHeap) (i : Nat) (b : XmlBlock) : XmlHeap := heap.setBlock i b true

/-- `free` of a block of the node `i`. -/
def XmlHeap.free (heap : XmlHeap) (i : Nat) (b : XmlBlock) : Except XmlFault XmlHeap :=
  if heap.block i b then .ok (heap.setBlock i b false) else .error .memory

/-- A string that is handed over: `NULL`, a pointer outside its buffer, or a string. -/
inductive XmlStr where
  | null
  | wild
  | str (s : List Byte)
  deriving DecidableEq, Repr

/-! ## Making nodes -/

/-- The bytes that `strndup(s, length)` copies. -/
def strndup (s : List Byte) : List Byte := s.takeWhile (· != NUL)

theorem strndup_eq {s : List Byte} (h : NUL ∉ s) : strndup s = s :=
  List.takeWhile_eq_self_iff.mpr fun c hc => by simpa using fun e : c = NUL => h (e ▸ hc)

theorem notMem_strndup (s : List Byte) : NUL ∉ strndup s := by
  intro hmem
  simpa using List.mem_takeWhile_imp hmem

/-- `xml_node_append_attr`, for the node `i` with the attributes `attrs`. -/
def xmlNodeAppendAttr (heap : XmlHeap) (i : Nat) (attrs : List XmlAttr) (name value : List Byte) :
    XmlHeap × List XmlAttr :=
  let k := attrs.length
  (((heap.malloc i (.attr k)).malloc i (.attrName k)).malloc i (.attrValue k),
    attrs ++ [⟨name, value⟩])

/-- The loop over the attributes of `xml_node_create_pi` and `xml_node_create_normal`. -/
def xmlNodeAppendAttrs (i : Nat) :
    List XmlStr → XmlHeap → List XmlAttr → Except XmlFault (XmlHeap × List XmlAttr)
  | .str name :: .str value :: rest, heap, attrs =>
      let (heap, attrs) := xmlNodeAppendAttr heap i attrs name value
      xmlNodeAppendAttrs i rest heap attrs
  | .null :: _, heap, attrs => .ok (heap, attrs)
  | _ :: .null :: _, heap, attrs => .ok (heap, attrs)
  | _ :: _ :: _, _, _ => .error .memory
  | _, heap, attrs => .ok (heap, attrs)

/-- The common part of `xml_node_create_pi` and `xml_node_create_normal`. -/
def xmlNodeCreateNamed (data : List Byte → List XmlAttr → XmlData) (heap : XmlHeap)
    (name : XmlStr) (attrs : List XmlStr) : Except XmlFault (XmlHeap × Option Nat) :=
  match name with
  | .null => .ok (heap, none)
  | .wild => .error .memory
  | .str name => do
      let node := heap.brk
      let (heap, attrs) ← xmlNodeAppendAttrs node attrs (heap.malloc node .string) []
      return (heap.alloc (data name attrs), some node)

def xmlNodeCreatePi : XmlHeap → XmlStr → List XmlStr → Except XmlFault (XmlHeap × Option Nat) :=
  xmlNodeCreateNamed .pi

def xmlNodeCreateNormal :
    XmlHeap → XmlStr → List XmlStr → Except XmlFault (XmlHeap × Option Nat) :=
  xmlNodeCreateNamed .normal

def xmlNodeCreateText (heap : XmlHeap) (text : List Byte) : XmlHeap × Option Nat :=
  ((heap.malloc heap.brk .string).alloc (.text (strndup text)), some heap.brk)

def xmlNodeCreateComment (heap : XmlHeap) (comment : List Byte) : XmlHeap × Option Nat :=
  ((heap.malloc heap.brk .string).alloc (.comment (strndup comment)), some heap.brk)

/-! ## Linking nodes -/

/-- `iter = first; while(iter->sibling != NULL) iter = iter->sibling; iter->sibling = node;`.
    The loop passes no cell twice, so their number is enough fuel. -/
def linkLast (heap : XmlHeap) (first node : Nat) : Except XmlFault XmlHeap :=
  match lastSibling heap.cell heap.brk first with
  | none => .error .memory
  | some iter => do
      let c ← heap.read iter
      return heap.write iter (some { c with sibling := some node })

def XmlHeap.setParent (heap : XmlHeap) (i : Nat) (parent : Option Nat) : Except XmlFault XmlHeap := do
  let c ← heap.read i
  return heap.write i (some { c with parent := parent })

def xmlNodeAppendChild (heap : XmlHeap) (node child : Option Nat) : Except XmlFault XmlHeap :=
  match node, child with
  | some node, some child => do
      let c ← heap.read node
      let heap ← match c.children with
        | none => .ok (heap.write node (some { c with children := some child }))
        | some first => linkLast heap first child
      heap.setParent child (some node)
  | _, _ => .ok heap

/-! ## Freeing nodes -/

/-- `xml_attr_destroy`, from the attribute `k` of the node `i` on. -/
def xmlAttrDestroy (i : Nat) : List XmlAttr → (k : Nat) → XmlHeap → Except XmlFault XmlHeap
  | [], _, heap => .ok heap
  | _ :: next, k, heap => do
      let heap ← heap.free i (.attrName k)
      let heap ← heap.free i (.attrValue k)
      let heap ← heap.free i (.attr k)
      xmlAttrDestroy i next (k + 1) heap

/-- The `switch` of `xml_node_destroy`. -/
def xmlNodeFreeData (heap : XmlHeap) (i : Nat) : XmlData → Except XmlFault XmlHeap
  | .text _ => heap.free i .string
  | .comment _ => heap.free i .string
  | .pi _ attrs => do
      let heap ← heap.free i .string
      xmlAttrDestroy i attrs 0 heap
  | .normal _ attrs => do
      let heap ← heap.free i .string
      xmlAttrDestroy i attrs 0 heap

/-- `xml_node_destroy`; the fuel bounds the nesting of the calls. -/
def xmlNodeDestroy : (fuel : Nat) → XmlHeap → Option Nat → Except XmlFault XmlHeap
  | _, heap, none => .ok heap
  | 0, _, some _ => .error .memory
  | fuel + 1, heap, some node => do
      let c ← heap.read node
      let heap ← xmlNodeDestroy fuel heap c.children
      let c ← heap.read node
      let heap := heap.write node (some { c with children := none })
      let heap ← xmlNodeDestroy fuel heap c.sibling
      let c ← heap.read node
      let heap := heap.write node (some { c with sibling := none })
      let heap ← xmlNodeFreeData heap node c.data
      return heap.write node none

/-! ## The blocks of the nodes -/

@[simp] theorem XmlHeap.write_brk (heap : XmlHeap) (i : Nat) (c : Option (Cell Nat XmlData)) :
    (heap.write i c).brk = heap.brk := rfl

@[simp] theorem XmlHeap.write_cell (heap : XmlHeap) (i : Nat) (c : Option (Cell Nat XmlData)) :
    (heap.write i c).cell = Function.update heap.cell i c := rfl

@[simp] theorem XmlHeap.write_block (heap : XmlHeap) (i : Nat) (c : Option (Cell Nat XmlData)) :
    (heap.write i c).block = heap.block := rfl

theorem XmlHeap.read_eq {heap : XmlHeap} {i : Nat} {c : Cell Nat XmlData} (h : heap.cell i = some c) :
    heap.read i = .ok c := by rw [XmlHeap.read, h]

theorem XmlHeap.read_ok {heap : XmlHeap} {i : Nat} {c : Cell Nat XmlData} (h : heap.read i = .ok c) :
    heap.cell i = some c := by
  unfold XmlHeap.read at h
  split at h
  · cases h
  · next hc =>
    cases h
    exact hc

/-- The string of a node and the blocks of `n` attributes. -/
def nodeBlocks (n : Nat) : XmlBlock → Bool
  | .string => true
  | .attr j | .attrName j | .attrValue j => decide (j < n)

/-- The blocks of `n` attributes from `k` on. -/
def attrBlocks (k n : Nat) : XmlBlock → Bool
  | .string => false
  | .attr j | .attrName j | .attrValue j => decide (k ≤ j ∧ j < k + n)

/-- The attributes of a node. -/
def XmlData.attrs : XmlData → List XmlAttr
  | .pi _ attrs | .normal _ attrs => attrs
  | .text _ | .comment _ => []

/-- The blocks a node has while it is in memory. -/
def cellBlocks : Option (Cell Nat XmlData) → XmlBlock → Bool
  | none => fun _ => false
  | some c => nodeBlocks c.data.attrs.length

/-- The blocks in memory are those of the nodes. -/
def XmlHeap.Owned (heap : XmlHeap) : Prop := ∀ i, heap.block i = cellBlocks (heap.cell i)

theorem XmlHeap.Owned.of_cell {heap : XmlHeap} (h : heap.Owned) {i : Nat} {c : Cell Nat XmlData}
    (hi : heap.cell i = some c) : heap.block i = nodeBlocks c.data.attrs.length := by
  rw [h i, hi]
  rfl

/-- Linking a node elsewhere leaves its blocks. -/
theorem XmlHeap.Owned.write {heap : XmlHeap} (h : heap.Owned) {i : Nat} {c c' : Cell Nat XmlData}
    (hi : heap.cell i = some c) (hdata : c'.data = c.data) : (heap.write i (some c')).Owned := by
  intro j
  rw [XmlHeap.write_block, XmlHeap.write_cell]
  by_cases hj : j = i
  · subst hj
    rw [Function.update_self, h.of_cell hi, ← hdata]
    rfl
  · rw [Function.update_of_ne hj]
    exact h j

/-- A node with its blocks. -/
def XmlHeap.make (heap : XmlHeap) (d : XmlData) : XmlHeap where
  cell := Function.update heap.cell heap.brk (some { data := d })
  brk := heap.brk + 1
  block := Function.update heap.block heap.brk (nodeBlocks d.attrs.length)

@[simp] theorem XmlHeap.make_brk (heap : XmlHeap) (d : XmlData) :
    (heap.make d).brk = heap.brk + 1 := rfl

@[simp] theorem XmlHeap.make_cell (heap : XmlHeap) (d : XmlData) :
    (heap.make d).cell = Function.update heap.cell heap.brk (some { data := d }) := rfl

theorem XmlHeap.Owned.make {heap : XmlHeap} (h : heap.Owned) (d : XmlData) :
    (heap.make d).Owned := by
  intro j
  simp only [XmlHeap.make]
  by_cases hj : j = heap.brk
  · subst hj
    rw [Function.update_self, Function.update_self]
    rfl
  · rw [Function.update_of_ne hj, Function.update_of_ne hj]
    exact h j

/-- The attributes of the strings that are handed over; a name without a value is left. -/
def attrPairs : List (List Byte) → List XmlAttr
  | name :: value :: rest => ⟨name, value⟩ :: attrPairs rest
  | _ => []

/-! ## Allocating and freeing the blocks -/

theorem nodeBlocks_zero : Function.update (fun _ => false) .string true = nodeBlocks 0 := by
  funext b
  cases b <;> simp [nodeBlocks]

/-- An attribute more has its three blocks more. -/
theorem nodeBlocks_succ (n : Nat) :
    Function.update (Function.update (Function.update (nodeBlocks n) (.attr n) true)
      (.attrName n) true) (.attrValue n) true = nodeBlocks (n + 1) := by
  funext b
  cases b with
  | string => rfl
  | attr j => by_cases hj : j = n <;> simp [nodeBlocks, hj]; omega
  | attrName j => by_cases hj : j = n <;> simp [nodeBlocks, hj]; omega
  | attrValue j => by_cases hj : j = n <;> simp [nodeBlocks, hj]; omega

/-- The loop over the attributes allocates their blocks. -/
theorem xmlNodeAppendAttrs_eq (i : Nat) : ∀ (l : List (List Byte)) (heap : XmlHeap)
    (attrs : List XmlAttr), heap.block i = nodeBlocks attrs.length →
    xmlNodeAppendAttrs i (l.map .str) heap attrs = .ok ({ heap with
      block := Function.update heap.block i (nodeBlocks (attrs ++ attrPairs l).length) },
      attrs ++ attrPairs l)
  | [], heap, attrs, h => by simp [xmlNodeAppendAttrs, attrPairs, ← h]
  | [_], heap, attrs, h => by simp [xmlNodeAppendAttrs, attrPairs, ← h]
  | name :: value :: rest, heap, attrs, h => by
      simp only [List.map_cons, xmlNodeAppendAttrs, xmlNodeAppendAttr, XmlHeap.malloc]
      have hblock : (((heap.setBlock i (.attr attrs.length) true).setBlock i
          (.attrName attrs.length) true).setBlock i (.attrValue attrs.length) true).block i
          = nodeBlocks (attrs ++ [(⟨name, value⟩ : XmlAttr)]).length := by
        simp only [XmlHeap.setBlock, Function.update_self, h, nodeBlocks_succ, List.length_append,
          List.length_singleton]
      rw [xmlNodeAppendAttrs_eq i rest _ _ hblock, attrPairs, List.append_assoc]
      simp [XmlHeap.setBlock]

/-- A node made of strings takes the next cell. -/
theorem xmlNodeCreateNamed_str {data : List Byte → List XmlAttr → XmlData}
    (hdata : ∀ name attrs, (data name attrs).attrs = attrs) {heap : XmlHeap} (hown : heap.Owned)
    (hfresh : heap.cell heap.brk = none) (name : List Byte) (attrs : List (List Byte)) :
    xmlNodeCreateNamed data heap (.str name) (attrs.map .str) =
      .ok (heap.make (data name (attrPairs attrs)), some heap.brk) := by
  have hblock : (heap.malloc heap.brk .string).block heap.brk = nodeBlocks 0 := by
    simp only [XmlHeap.malloc, XmlHeap.setBlock, Function.update_self]
    rw [hown, hfresh]
    exact nodeBlocks_zero
  show (xmlNodeAppendAttrs _ _ _ _ >>= _) = _
  rw [xmlNodeAppendAttrs_eq _ _ _ [] hblock]
  show Except.ok (_, _) = Except.ok (_, _)
  simp [XmlHeap.alloc, XmlHeap.malloc, XmlHeap.setBlock, XmlHeap.make, hdata]

theorem xmlNodeCreateText_eq {heap : XmlHeap} (hown : heap.Owned)
    (hfresh : heap.cell heap.brk = none) (text : List Byte) :
    xmlNodeCreateText heap text = (heap.make (.text (strndup text)), some heap.brk) := by
  have hblock : Function.update (heap.block heap.brk) .string true = nodeBlocks 0 := by
    rw [hown, hfresh]
    exact nodeBlocks_zero
  simp [xmlNodeCreateText, XmlHeap.alloc, XmlHeap.malloc, XmlHeap.setBlock, XmlHeap.make, hblock,
    XmlData.attrs]

theorem xmlNodeCreateComment_eq {heap : XmlHeap} (hown : heap.Owned)
    (hfresh : heap.cell heap.brk = none) (comment : List Byte) :
    xmlNodeCreateComment heap comment = (heap.make (.comment (strndup comment)), some heap.brk) := by
  have hblock : Function.update (heap.block heap.brk) .string true = nodeBlocks 0 := by
    rw [hown, hfresh]
    exact nodeBlocks_zero
  simp [xmlNodeCreateComment, XmlHeap.alloc, XmlHeap.malloc, XmlHeap.setBlock, XmlHeap.make, hblock,
    XmlData.attrs]

theorem XmlHeap.free_eq {heap : XmlHeap} {i : Nat} {b : XmlBlock} (h : heap.block i b = true) :
    heap.free i b = .ok (heap.setBlock i b false) := by rw [XmlHeap.free, if_pos h]

/-- The blocks of the first attribute are taken away. -/
theorem attrBlocks_succ (k n : Nat) :
    Function.update (Function.update (Function.update (attrBlocks k (n + 1)) (.attrName k) false)
      (.attrValue k) false) (.attr k) false = attrBlocks (k + 1) n := by
  have hrest : ∀ j, j ≠ k →
      (decide (k ≤ j ∧ j < k + (n + 1)) : Bool) = decide (k + 1 ≤ j ∧ j < k + 1 + n) :=
    fun j hj => decide_eq_decide.mpr (by omega)
  funext b
  cases b with
  | string => rfl
  | attr j => by_cases hj : j = k <;> simp [attrBlocks, hj, hrest, Nat.not_succ_le_self]
  | attrName j => by_cases hj : j = k <;> simp [attrBlocks, hj, hrest, Nat.not_succ_le_self]
  | attrValue j => by_cases hj : j = k <;> simp [attrBlocks, hj, hrest, Nat.not_succ_le_self]

/-- The attributes of a node are freed, each of their blocks once. -/
theorem xmlAttrDestroy_eq (i : Nat) (attrs : List XmlAttr) : ∀ (k : Nat) (heap : XmlHeap),
    heap.block i = attrBlocks k attrs.length →
    xmlAttrDestroy i attrs k heap
      = .ok { heap with block := Function.update heap.block i fun _ => false } := by
  induction attrs with
  | nil =>
      intro k heap h
      have hnone : (fun _ => false) = heap.block i := by
        rw [h]
        funext b
        cases b <;> simp [attrBlocks]
      rw [hnone, Function.update_eq_self]
      rfl
  | cons a attrs ih =>
      intro k heap h
      show (heap.free i (.attrName k) >>= _) = _
      rw [XmlHeap.free_eq (by rw [h]; simp [attrBlocks])]
      show (XmlHeap.free _ i (.attrValue k) >>= _) = _
      rw [XmlHeap.free_eq (by simp [XmlHeap.setBlock, h, attrBlocks])]
      show (XmlHeap.free _ i (.attr k) >>= _) = _
      rw [XmlHeap.free_eq (by simp [XmlHeap.setBlock, h, attrBlocks])]
      show xmlAttrDestroy i attrs (k + 1) _ = _
      rw [ih (k + 1) _ (by
        simp only [XmlHeap.setBlock, Function.update_self]
        rw [h, List.length_cons, attrBlocks_succ])]
      simp [XmlHeap.setBlock]

/-- The blocks of a node are freed, whatever its type, each of them once. -/
theorem xmlNodeFreeData_eq {heap : XmlHeap} {i : Nat} {d : XmlData}
    (h : heap.block i = nodeBlocks d.attrs.length) :
    xmlNodeFreeData heap i d
      = .ok { heap with block := Function.update heap.block i fun _ => false } := by
  have hfree : heap.free i .string = .ok (heap.setBlock i .string false) :=
    XmlHeap.free_eq (by rw [h]; rfl)
  have hattrs : ∀ n, Function.update (nodeBlocks n) .string false = attrBlocks 0 n := by
    intro n
    funext b
    cases b <;> simp [nodeBlocks, attrBlocks]
  have hstring : (heap.setBlock i .string false).block i = attrBlocks 0 d.attrs.length := by
    simp only [XmlHeap.setBlock, Function.update_self]
    rw [h, hattrs]
  have hnone : attrBlocks 0 0 = fun _ => false := by
    funext b
    cases b <;> simp [attrBlocks]
  cases d with
  | text t =>
      show heap.free i .string = _
      rw [hfree, XmlHeap.setBlock, h, hattrs, ← hnone]
      rfl
  | comment t =>
      show heap.free i .string = _
      rw [hfree, XmlHeap.setBlock, h, hattrs, ← hnone]
      rfl
  | pi name attrs =>
      show (heap.free i .string >>= _) = _
      rw [hfree]
      show xmlAttrDestroy i attrs 0 _ = _
      rw [xmlAttrDestroy_eq i attrs 0 _ hstring]
      simp [XmlHeap.setBlock]
  | normal name attrs =>
      show (heap.free i .string >>= _) = _
      rw [hfree]
      show xmlAttrDestroy i attrs 0 _ = _
      rw [xmlAttrDestroy_eq i attrs 0 _ hstring]
      simp [XmlHeap.setBlock]

/-! ## What the operations do to linked forests -/

/-- What `xml_node_append_child` does with a fresh node: the children of the node are linked up to
    it, and the other cells stay. -/
theorem appendChild_linked {heap : XmlHeap} {i n : Nat} {d : XmlData} {up child : Option Nat}
    {dn : XmlData} {f : Forest (Nat × XmlData)}
    (hi : heap.cell i = some ⟨d, up, child, none⟩) (hf : Linked heap.cell (some i) child f none)
    (hn : heap.cell n = some { data := dn }) (hnd : (i :: n :: places f).Nodup)
    (hbrk : (places f).length ≤ heap.brk) :
    ∃ heap' child', xmlNodeAppendChild heap (some i) (some n) = .ok heap' ∧
      heap'.brk = heap.brk ∧ heap'.cell i = some ⟨d, up, child', none⟩ ∧
      Linked heap'.cell (some i) child' f (some n) ∧
      heap'.cell n = some { data := dn, parent := some i } ∧
      ∀ j, j ≠ i → j ≠ n → j ∉ places f → heap'.cell j = heap.cell j := by
  obtain ⟨hout, hnd⟩ := List.nodup_cons.mp hnd
  obtain ⟨hnf, hnd⟩ := List.nodup_cons.mp hnd
  have hin : i ≠ n := fun h => hout (h ▸ List.mem_cons_self)
  have hif : i ∉ places f := fun h => hout (List.mem_cons_of_mem _ h)
  cases child with
  | none =>
      have hnil : f = .nil := by
        cases f with
        | nil => rfl
        | node a c s => cases hf.1
      subst hnil
      have hn' : Function.update heap.cell i (some ⟨d, up, some n, none⟩) n = some { data := dn } := by
        rw [Function.update_of_ne hin.symm, hn]
      refine ⟨(heap.write i (some ⟨d, up, some n, none⟩)).write n
        (some { data := dn, parent := some i }), some n, ?_, rfl, ?_, rfl, ?_, ?_⟩
      · show (heap.read i >>= _) = _
        rw [XmlHeap.read_eq hi]
        show (XmlHeap.read _ n >>= _) = _
        rw [XmlHeap.read_eq hn']
        rfl
      · simp [Function.update_of_ne hin]
      · simp
      · intro j hji hjn _
        simp [Function.update_of_ne hji, Function.update_of_ne hjn]
  | some k =>
      obtain ⟨l, c, hlast, hc, hl, hext⟩ := hf.extend hnd hbrk n
      have hli : i ≠ l := fun h => hif (h ▸ hl)
      have hln : n ≠ l := fun h => hnf (h ▸ hl)
      have hn' : Function.update heap.cell l (some { c with sibling := some n }) n =
          some { data := dn } := by
        rw [Function.update_of_ne hln, hn]
      refine ⟨(heap.write l (some { c with sibling := some n })).write n
        (some { data := dn, parent := some i }), some k, ?_, rfl, ?_, ?_, ?_, ?_⟩
      · show (heap.read i >>= _) = _
        rw [XmlHeap.read_eq hi]
        show (linkLast heap k n >>= _) = _
        rw [linkLast, hlast]
        show ((heap.read l >>= _) >>= _) = _
        rw [XmlHeap.read_eq hc]
        show (XmlHeap.read _ n >>= _) = _
        rw [XmlHeap.read_eq hn']
        rfl
      · simp [Function.update_of_ne hin, Function.update_of_ne hli, hi]
      · exact hext.update hnf _
      · simp
      · intro j _ hjn hjf
        have hjl : j ≠ l := fun h => hjf (h ▸ hl)
        simp [Function.update_of_ne hjn, Function.update_of_ne hjl]

/-- The links that `xml_node_append_child` writes leave the nodes their blocks. -/
theorem appendChild_owned {heap heap' : XmlHeap} {node child : Option Nat} (hown : heap.Owned)
    (h : xmlNodeAppendChild heap node child = .ok heap') : heap'.Owned := by
  have hparent : ∀ {g g' : XmlHeap} {i : Nat} {up : Option Nat}, g.Owned →
      g.setParent i up = .ok g' → g'.Owned := by
    intro g g' i up hg hset
    unfold XmlHeap.setParent at hset
    cases hr : g.read i with
    | error e => rw [hr] at hset; cases hset
    | ok c =>
        rw [hr] at hset
        cases hset
        exact hg.write (XmlHeap.read_ok hr) rfl
  unfold xmlNodeAppendChild at h
  split at h
  case h_2 => cases h; exact hown
  next i n =>
  cases hr : heap.read i with
  | error e => rw [hr] at h; cases h
  | ok c =>
      rw [hr] at h
      have hc := XmlHeap.read_ok hr
      cases hchildren : c.children with
      | none =>
          simp only [bind, Except.bind, hchildren] at h
          refine hparent ?_ h
          exact hown.write hc rfl
      | some first =>
          simp only [bind, Except.bind, hchildren] at h
          cases hlast : linkLast heap first n with
          | error e => rw [hlast] at h; cases h
          | ok g =>
              rw [hlast] at h
              refine hparent ?_ h
              unfold linkLast at hlast
              split at hlast
              · cases hlast
              next iter _ =>
              cases hr' : heap.read iter with
              | error e => rw [hr'] at hlast; cases hlast
              | ok c' =>
                  rw [hr'] at hlast
                  cases hlast
                  exact hown.write (XmlHeap.read_ok hr') rfl

/-- The cells without those of some places, and without their blocks. -/
def XmlHeap.without (heap : XmlHeap) (l : List Nat) : XmlHeap :=
  { heap with
    cell := fun i => if i ∈ l then none else heap.cell i
    block := fun i => if i ∈ l then fun _ => false else heap.block i }

theorem XmlHeap.Owned.without {heap : XmlHeap} (h : heap.Owned) (l : List Nat) :
    (heap.without l).Owned := by
  intro i
  by_cases hi : i ∈ l
  · simp [XmlHeap.without, hi, cellBlocks]
  · simp [XmlHeap.without, hi, h i]

/-- A forest that is linked is freed, each cell of it once, and nothing else is. -/
theorem xmlNodeDestroy_linked {heap : XmlHeap} {up head : Option Nat} {f : Forest (Nat × XmlData)}
    {fuel : Nat} (hown : heap.Owned) (h : Linked heap.cell up head f none)
    (hnd : (places f).Nodup) (hfuel : (places f).length ≤ fuel) :
    xmlNodeDestroy fuel heap head = .ok (heap.without (places f)) := by
  induction f generalizing heap up head fuel with
  | nil =>
      cases h
      rw [xmlNodeDestroy]
      simp [XmlHeap.without]
  | node a c s ihc ihs =>
      obtain ⟨i, d⟩ := a
      obtain ⟨rfl, child, next, hi, hc, hs⟩ := h
      rw [places_node] at hnd hfuel
      obtain ⟨hout, hnd⟩ := List.nodup_cons.mp hnd
      obtain ⟨hic, his⟩ := not_or.mp fun h => hout (List.mem_append.mpr h)
      obtain ⟨hndc, hnds, hdisj⟩ := List.nodup_append.mp hnd
      simp only [List.length_cons, List.length_append] at hfuel
      obtain ⟨fuel, rfl⟩ : ∃ k, fuel = k + 1 := ⟨fuel - 1, by omega⟩
      -- the siblings are not touched while the children go
      have hi₁ : (heap.without (places c)).cell i = some ⟨d, up, child, next⟩ := by
        simp [XmlHeap.without, hic, hi]
      have hs₁ : Linked ((heap.without (places c)).write i (some ⟨d, up, none, next⟩)).cell
          up next s none := by
        refine hs.congr fun j hj => ?_
        have hji : j ≠ i := fun h => his (h ▸ hj)
        have hjc : j ∉ places c := fun h => hdisj j h j hj rfl
        simp [Function.update_of_ne hji, XmlHeap.without, hjc]
      have hown₁ : ((heap.without (places c)).write i (some ⟨d, up, none, next⟩)).Owned :=
        (hown.without _).write hi₁ rfl
      have hi₂ : (((heap.without (places c)).write i (some ⟨d, up, none, next⟩)).without
          (places s)).cell i = some ⟨d, up, none, next⟩ := by
        simp [XmlHeap.without, XmlHeap.write, his]
      rw [xmlNodeDestroy, XmlHeap.read_eq hi]
      show (xmlNodeDestroy fuel heap child >>= _) = _
      rw [ihc hown hc hndc (show (places c).length ≤ fuel by omega)]
      show (XmlHeap.read _ i >>= _) = _
      rw [XmlHeap.read_eq hi₁]
      show (xmlNodeDestroy fuel _ next >>= _) = _
      rw [ihs hown₁ hs₁ hnds (show (places s).length ≤ fuel by omega)]
      show (XmlHeap.read _ i >>= _) = _
      rw [XmlHeap.read_eq hi₂]
      -- the blocks of the node are still those it was made with
      show (xmlNodeFreeData _ i d >>= _) = _
      rw [xmlNodeFreeData_eq (by rw [XmlHeap.write_block]; exact (hown₁.without _).of_cell hi₂)]
      show Except.ok _ = Except.ok _
      congr 1
      simp only [XmlHeap.without, XmlHeap.write, XmlHeap.mk.injEq, true_and]
      constructor
      · funext j
        by_cases hji : j = i
        · subst hji
          simp
        · by_cases hjs : j ∈ places s
          · simp [Function.update_of_ne hji, hjs]
          · simp [hjs, hji]
      · funext j
        by_cases hji : j = i
        · subst hji
          simp
        · by_cases hjs : j ∈ places s
          · simp [Function.update_of_ne hji, hjs]
          · simp [hjs, hji]

end XwpServer
