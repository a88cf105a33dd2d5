/-
  XwpServer.XmlBuilder

  The builder that makes the tree of a configuration file, `xml_builder_tree.c`.

  The builder keeps a pointer to the node that is open and moves it along the pointers of
  the tree.  What it builds is said by a stack of open nodes: an element opens one, its end
  closes it, whatever its name is.  The builder follows the stack for every order of calls
  (`builder_follows`): it fails its assertion exactly when an end comes with no element
  open, and otherwise the tree it hands out is the one the stack has.  When the tree and
  the builder are freed, no cell is left and none is freed twice (`free_all`).
-/

import XwpServer.Lib.Transition
import XwpServer.XmlNodes

namespace XwpServer

open CString LinkedForest Transition

/-! ## The builder -/

/-- A call of the builder, with what is handed to it. -/
inductive XmlEvent where
  | startElement (tag : XmlStr) (attrs : List XmlStr)
  | endElement (tag : XmlStr)
  | text (text : List Byte)
  | comment (text : List Byte)
  | piElement (tag : XmlStr) (attrs : List XmlStr)
  | error (line row : Nat) (message : String)
  deriving DecidableEq, Repr

structure XmlBuilder where
  heap : XmlHeap
  root : Nat
  current : Option Nat

def xmlBuilderTreeOnStartElement (thiz : XmlBuilder) (tag : XmlStr) (attrs : List XmlStr) :
    Except XmlFault XmlBuilder := do
  let (heap, newNode) ← xmlNodeCreateNormal thiz.heap tag attrs
  let heap ← xmlNodeAppendChild heap thiz.current newNode
  return { thiz with heap := heap, current := newNode }

def xmlBuilderTreeOnEndElement (thiz : XmlBuilder) : Except XmlFault XmlBuilder :=
  match thiz.current with
  | none => .error .memory
  | some current => do
      let c ← thiz.heap.read current
      if c.parent = none then .error .assertion else return { thiz with current := c.parent }

def xmlBuilderTreeOnText (thiz : XmlBuilder) (text : List Byte) : Except XmlFault XmlBuilder := do
  let (heap, newNode) := xmlNodeCreateText thiz.heap text
  let heap ← xmlNodeAppendChild heap thiz.current newNode
  return { thiz with heap := heap }

def xmlBuilderTreeOnComment (thiz : XmlBuilder) (text : List Byte) :
    Except XmlFault XmlBuilder := do
  let (heap, newNode) := xmlNodeCreateComment thiz.heap text
  let heap ← xmlNodeAppendChild heap thiz.current newNode
  return { thiz with heap := heap }

def xmlBuilderTreeOnPiElement (thiz : XmlBuilder) (tag : XmlStr) (attrs : List XmlStr) :
    Except XmlFault XmlBuilder := do
  let (heap, newNode) ← xmlNodeCreatePi thiz.heap tag attrs
  let heap ← xmlNodeAppendChild heap thiz.current newNode
  return { thiz with heap := heap }

/-- The functions the builder hooks in; an error is printed. -/
def XmlBuilder.on (thiz : XmlBuilder) : XmlEvent → Except XmlFault XmlBuilder
  | .startElement tag attrs => xmlBuilderTreeOnStartElement thiz tag attrs
  | .endElement _ => xmlBuilderTreeOnEndElement thiz
  | .text s => xmlBuilderTreeOnText thiz s
  | .comment s => xmlBuilderTreeOnComment thiz s
  | .piElement tag attrs => xmlBuilderTreeOnPiElement thiz tag attrs
  | .error _ _ _ => .ok thiz

/-- The calls of a list, one after the other. -/
def callBuilder {σ : Type} (on : σ → XmlEvent → Except XmlFault σ) (builder : σ) :
    List XmlEvent → Except XmlFault σ
  | [] => .ok builder
  | e :: es => do
      let builder ← on builder e
      callBuilder on builder es

theorem callBuilder_append {σ : Type} (on : σ → XmlEvent → Except XmlFault σ) (builder : σ)
    (es fs : List XmlEvent) :
    callBuilder on builder (es ++ fs) = callBuilder on builder es >>= (callBuilder on · fs) := by
  induction es generalizing builder with
  | nil => rfl
  | cons e es ih =>
      show (on builder e >>= (callBuilder on · (es ++ fs))) = (on builder e >>= _) >>= _
      cases on builder e with
      | error x => rfl
      | ok b => exact ih b

def XmlBuilder.run (thiz : XmlBuilder) (es : List XmlEvent) : Except XmlFault XmlBuilder :=
  callBuilder XmlBuilder.on thiz es

def xmlBuilderTreeCreate : XmlBuilder where
  heap := (({} : XmlHeap).malloc 0 .string).alloc (.normal (bytes "__root__") [])
  root := 0
  current := some 0

/-- `xml_builder_get_tree`: the tree, and the builder it is taken from. -/
def xmlBuilderGetTree (thiz : XmlBuilder) : Except XmlFault (Option Nat × XmlBuilder) := do
  let c ← thiz.heap.read thiz.root
  return (c.children,
    { thiz with heap := thiz.heap.write thiz.root (some { c with children := none }) })

/-- `xml_builder_tree_destroy`: what is left of the cells. -/
def xmlBuilderTreeDestroy (thiz : XmlBuilder) : Except XmlFault XmlHeap :=
  xmlNodeDestroy thiz.heap.brk thiz.heap (some thiz.root)

/-! ## The stack of open nodes -/

/-- A call with strings.  The name at the end of an element is not looked at. -/
inductive XmlCall where
  | start (tag : List Byte) (attrs : List (List Byte))
  | close (tag : XmlStr)
  | text (text : List Byte)
  | comment (text : List Byte)
  | pi (tag : List Byte) (attrs : List (List Byte))
  | error (message : String)
  deriving DecidableEq, Repr

def XmlCall.event : XmlCall → XmlEvent
  | .start tag attrs => .startElement (.str tag) (attrs.map .str)
  | .close tag => .endElement tag
  | .text s => .text s
  | .comment s => .comment s
  | .pi tag attrs => .piElement (.str tag) (attrs.map .str)
  | .error message => .error 0 0 message

/-- What a call does to the open nodes. -/
def docStep : List (Level XmlData) → XmlCall → Option (List (Level XmlData))
  | ls, .start tag attrs => some (⟨.normal tag (attrPairs attrs), .nil⟩ :: ls)
  | l :: m :: ls, .close _ => some (m.add (.node l.label l.closed .nil) :: ls)
  | _, .close _ => none
  | l :: ls, .text s => some (l.add (.node (.text (strndup s)) .nil .nil) :: ls)
  | l :: ls, .comment s => some (l.add (.node (.comment (strndup s)) .nil .nil) :: ls)
  | l :: ls, .pi tag attrs => some (l.add (.node (.pi tag (attrPairs attrs)) .nil .nil) :: ls)
  | ls, .error _ => some ls
  | [], _ => none

/-- Nothing is open but the root. -/
def docStart : List (Level XmlData) := [⟨.normal (bytes "__root__") [], .nil⟩]

/-- The trees below the root when every open node is closed. -/
def docForest (ls : List (Level XmlData)) : Forest XmlData :=
  match Level.whole .nil ls with
  | .nil => .nil
  | .node _ f _ => f

/-! ## The builder follows the stack -/

/-- The builder has built what the stack says. -/
structure Builds (b : XmlBuilder) (ls : List (Level (Nat × XmlData))) : Prop where
  spine : Spine b.heap.cell ls none
  current : b.current = ls.head?.map (·.label.1)
  root : ls.getLast?.map (·.label.1) = some b.root
  cells : (levelPlaces ls).Perm (List.range b.heap.brk)
  fresh : ∀ i, b.heap.brk ≤ i → b.heap.cell i = none
  owned : b.heap.Owned

theorem Builds.nodup {b : XmlBuilder} {ls : List (Level (Nat × XmlData))} (h : Builds b ls) :
    (levelPlaces ls).Nodup := h.cells.nodup_iff.mpr List.nodup_range

theorem Builds.lt {b : XmlBuilder} {ls : List (Level (Nat × XmlData))} (h : Builds b ls) {i : Nat}
    (hi : i ∈ levelPlaces ls) : i < b.heap.brk := List.mem_range.mp (h.cells.mem_iff.mp hi)

theorem Builds.length {b : XmlBuilder} {ls : List (Level (Nat × XmlData))} (h : Builds b ls) :
    (levelPlaces ls).length = b.heap.brk := by
  rw [h.cells.length_eq, List.length_range]

theorem builds_create :
    Builds xmlBuilderTreeCreate [⟨(0, .normal (bytes "__root__") []), .nil⟩] where
  spine := ⟨⟨none, rfl, rfl⟩, trivial⟩
  current := rfl
  root := rfl
  cells := .refl _
  fresh i hi := by
    have hne : i ≠ 0 := Nat.pos_iff_ne_zero.mp hi
    exact Function.update_of_ne hne _ _
  owned i := by
    by_cases hi : i = 0
    · subst hi
      have hblock : xmlBuilderTreeCreate.heap.block 0
          = Function.update (fun _ => false) .string true := rfl
      rw [hblock, nodeBlocks_zero]
      rfl
    · have hblock : xmlBuilderTreeCreate.heap.block i = fun _ => false := Function.update_of_ne hi _ _
      have hcell : xmlBuilderTreeCreate.heap.cell i = none := Function.update_of_ne hi _ _
      rw [hblock, hcell]
      rfl

/-- A node that is made and appended to the one that is open: it is linked behind the trees that
    are done, and the other open nodes stay. -/
theorem Builds.append {b : XmlBuilder} {l : Level (Nat × XmlData)}
    {ls : List (Level (Nat × XmlData))} (h : Builds b (l :: ls)) (d : XmlData) :
    ∃ heap, xmlNodeAppendChild (b.heap.make d) b.current (some b.heap.brk) = .ok heap ∧
      heap.brk = b.heap.brk + 1 ∧ Spine heap.cell (l :: ls) (some b.heap.brk) ∧
      heap.cell b.heap.brk = some { data := d, parent := some l.label.1 } ∧
      (∀ i, heap.brk ≤ i → heap.cell i = none) ∧ heap.Owned := by
  obtain ⟨⟨child, hl, hc⟩, hs⟩ := h.spine
  have hfresh : ∀ i ∈ levelPlaces (l :: ls), i ≠ b.heap.brk := fun i hi => by
    have := h.lt hi
    omega
  have hnd := h.nodup
  rw [levelPlaces_cons] at hnd hfresh
  have hcells : ∀ i, i ≠ b.heap.brk → (b.heap.make d).cell i = b.heap.cell i :=
    fun i hi => Function.update_of_ne hi _ _
  have hl₁ := hcells _ (hfresh l.label.1 (by simp))
  have hc₁ : Linked (b.heap.make d).cell (some l.label.1) child l.closed none :=
    hc.congr fun i hi => hcells i (hfresh i (by simp [hi]))
  obtain ⟨hout, hrest⟩ := List.nodup_cons.mp hnd
  obtain ⟨hndc, -, hdisj⟩ := List.nodup_append.mp hrest
  have hnd₁ : (l.label.1 :: b.heap.brk :: places l.closed).Nodup := by
    refine List.nodup_cons.mpr ⟨?_, List.nodup_cons.mpr ⟨fun hm => ?_, hndc⟩⟩
    · rw [List.mem_cons, not_or]
      exact ⟨hfresh _ (by simp), fun hm => hout (by simp [hm])⟩
    · exact hfresh _ (by simp [hm]) rfl
  have hlen : (places l.closed).length ≤ (b.heap.make d).brk := by
    have hlen := h.length
    rw [levelPlaces_cons, List.length_cons, List.length_append] at hlen
    rw [XmlHeap.make_brk]
    omega
  obtain ⟨heap, child', happ, hbrk, hi', hlinked, hn', hframe⟩ :=
    appendChild_linked (hl₁.trans hl) hc₁ (Function.update_self _ _ _) hnd₁ hlen
  refine ⟨heap, ?_, hbrk, ⟨⟨child', hi', hlinked⟩, hs.congr fun i hi => ?_⟩, hn', ?_,
    appendChild_owned (h.owned.make d) happ⟩
  · rw [h.current]
    exact happ
  · have hni := hfresh i (by simp [hi])
    refine (hframe i ?_ hni ?_).trans (hcells i hni)
    · rintro rfl
      exact hout (by simp [hi])
    · exact fun hm => hdisj i hm i hi rfl
  · intro i hi
    rw [hbrk, XmlHeap.make_brk] at hi
    have hlt : ∀ j ∈ levelPlaces (l :: ls), j ≠ i := fun j hj => by
      have := h.lt hj
      omega
    rw [levelPlaces_cons] at hlt
    have hni : i ≠ b.heap.brk := by omega
    refine ((hframe i (hlt _ (by simp)).symm hni fun hm => ?_).trans (hcells i hni)).trans
      (h.fresh i (by omega))
    exact hlt i (by simp [hm]) rfl

/-- A leaf below the open node. -/
theorem Builds.leaf {b : XmlBuilder} {l : Level (Nat × XmlData)} {ls : List (Level (Nat × XmlData))}
    (h : Builds b (l :: ls)) (d : XmlData) :
    ∃ heap, xmlNodeAppendChild (b.heap.make d) b.current (some b.heap.brk) = .ok heap ∧
      Builds { b with heap := heap } (l.add (.node (b.heap.brk, d) .nil .nil) :: ls) := by
  obtain ⟨heap, happ, hbrk, ⟨⟨child, hl, hc⟩, hs⟩, hn, hfresh, hown⟩ := h.append d
  refine ⟨heap, happ, ⟨⟨⟨child, hl, hc.append ⟨rfl, none, none, hn, rfl, rfl⟩⟩, hs⟩, h.current, ?_, ?_,
    hfresh, hown⟩⟩
  · have hroot := h.root
    cases ls with
    | nil => exact hroot
    | cons m ls =>
        rw [List.getLast?_cons_cons] at hroot ⊢
        exact hroot
  · show (levelPlaces _).Perm (List.range heap.brk)
    rw [hbrk, List.range_succ, levelPlaces_cons]
    have hp := h.cells
    rw [levelPlaces_cons] at hp
    refine .trans ?_ (hp.append_right _)
    simp only [Level.add, places_append, places_node, places_nil, List.append_nil, List.append_assoc,
      List.cons_append, List.nil_append]
    refine .cons _ (.append_left _ ?_)
    exact @List.perm_append_comm _ [b.heap.brk] _

/-- An element below the open node, which then is open itself. -/
theorem Builds.openElement {b : XmlBuilder} {l : Level (Nat × XmlData)}
    {ls : List (Level (Nat × XmlData))} (h : Builds b (l :: ls)) (d : XmlData) :
    ∃ heap, xmlNodeAppendChild (b.heap.make d) b.current (some b.heap.brk) = .ok heap ∧
      Builds { b with heap := heap, current := some b.heap.brk }
        (⟨(b.heap.brk, d), .nil⟩ :: l :: ls) := by
  obtain ⟨heap, happ, hbrk, hs, hn, hfresh, hown⟩ := h.append d
  refine ⟨heap, happ, ⟨⟨⟨none, hn, rfl⟩, hs⟩, rfl, ?_, ?_, hfresh, hown⟩⟩
  · rw [List.getLast?_cons_cons]
    exact h.root
  · show (levelPlaces _).Perm (List.range heap.brk)
    rw [hbrk, List.range_succ, levelPlaces_cons, places_nil, List.nil_append]
    exact (h.cells.cons _).trans (@List.perm_append_comm _ [b.heap.brk] _)

/-- The end of an element moves to the parent. -/
theorem Builds.closeElement {b : XmlBuilder} {l m : Level (Nat × XmlData)}
    {ls : List (Level (Nat × XmlData))} (h : Builds b (l :: m :: ls)) :
    xmlBuilderTreeOnEndElement b = .ok { b with current := some m.label.1 } ∧
      Builds { b with current := some m.label.1 }
        (m.add (.node l.label l.closed .nil) :: ls) := by
  obtain ⟨⟨child, hl, hc⟩, ⟨child', hm, hcm⟩, hs⟩ := h.spine
  refine ⟨?_, ⟨⟨⟨child', hm, hcm.append ⟨rfl, child, none, hl, hc, rfl⟩⟩, hs⟩, rfl, ?_, ?_, h.fresh,
    h.owned⟩⟩
  · rw [xmlBuilderTreeOnEndElement, h.current]
    show (b.heap.read l.label.1 >>= _) = _
    rw [XmlHeap.read_eq hl]
    rfl
  · have hroot := h.root
    rw [List.getLast?_cons_cons] at hroot
    cases ls with
    | nil => exact hroot
    | cons k ls =>
        rw [List.getLast?_cons_cons] at hroot ⊢
        exact hroot
  · obtain ⟨⟨i, d⟩, f⟩ := l
    refine .trans ?_ h.cells
    simp only [Level.add, levelPlaces_cons, places_append, places_node, places_nil, List.append_nil,
      List.append_assoc]
    refine (List.Perm.cons _ (List.perm_append_comm_assoc _ _ _)).trans ?_
    refine (List.Perm.swap _ _ _).trans (.cons _ ?_)
    refine .trans ?_ List.perm_middle.symm
    exact .refl _

/-- With no element open, the end of one fails the assertion. -/
theorem Builds.closeRoot {b : XmlBuilder} {l : Level (Nat × XmlData)} (h : Builds b [l]) :
    xmlBuilderTreeOnEndElement b = .error .assertion := by
  obtain ⟨⟨child, hl, -⟩, -⟩ := h.spine
  rw [xmlBuilderTreeOnEndElement, h.current]
  show (b.heap.read l.label.1 >>= _) = _
  rw [XmlHeap.read_eq hl]
  rfl

/-! ## Runs -/

/-- The open nodes without their places. -/
def eraseLevels (ls : List (Level (Nat × XmlData))) : List (Level XmlData) :=
  ls.map (Level.map Prod.snd)

theorem Builds.ne_nil {b : XmlBuilder} {ls : List (Level (Nat × XmlData))} (h : Builds b ls) :
    ls ≠ [] := by
  rintro rfl
  cases h.root

theorem Builds.on_ok {b : XmlBuilder} {ls : List (Level (Nat × XmlData))} {t : XmlCall}
    {ds : List (Level XmlData)} (h : Builds b ls) (ht : docStep (eraseLevels ls) t = some ds) :
    ∃ b' ls', b.on t.event = .ok b' ∧ Builds b' ls' ∧ eraseLevels ls' = ds := by
  obtain ⟨l, ls, rfl⟩ := List.exists_cons_of_ne_nil h.ne_nil
  cases t with
  | start tag attrs =>
      cases ht
      obtain ⟨heap, happ, hb⟩ := h.openElement (.normal tag (attrPairs attrs))
      refine ⟨_, _, ?_, hb, rfl⟩
      show (xmlNodeCreateNamed _ _ _ _ >>= _) = _
      rw [xmlNodeCreateNamed_str (fun _ _ => rfl) h.owned (h.fresh _ (Nat.le_refl _))]
      show (xmlNodeAppendChild _ _ _ >>= _) = _
      rw [happ]
      rfl
  | close tag =>
      cases ls with
      | nil => cases ht
      | cons m ls =>
          cases ht
          refine ⟨_, _, h.closeElement.1, h.closeElement.2, ?_⟩
          simp [eraseLevels, Level.map, Level.add, Forest.map]
  | text s =>
      cases ht
      obtain ⟨heap, happ, hb⟩ := h.leaf (.text (strndup s))
      refine ⟨_, _, ?_, hb, ?_⟩
      · show xmlBuilderTreeOnText b s = _
        rw [xmlBuilderTreeOnText, xmlNodeCreateText_eq h.owned (h.fresh _ (Nat.le_refl _))]
        show (xmlNodeAppendChild _ _ _ >>= _) = _
        rw [happ]
        rfl
      · simp [eraseLevels, Level.map, Level.add, Forest.map]
  | comment s =>
      cases ht
      obtain ⟨heap, happ, hb⟩ := h.leaf (.comment (strndup s))
      refine ⟨_, _, ?_, hb, ?_⟩
      · show xmlBuilderTreeOnComment b s = _
        rw [xmlBuilderTreeOnComment, xmlNodeCreateComment_eq h.owned (h.fresh _ (Nat.le_refl _))]
        show (xmlNodeAppendChild _ _ _ >>= _) = _
        rw [happ]
        rfl
      · simp [eraseLevels, Level.map, Level.add, Forest.map]
  | pi tag attrs =>
      cases ht
      obtain ⟨heap, happ, hb⟩ := h.leaf (.pi tag (attrPairs attrs))
      refine ⟨_, _, ?_, hb, ?_⟩
      · show (xmlNodeCreateNamed _ _ _ _ >>= _) = _
        rw [xmlNodeCreateNamed_str (fun _ _ => rfl) h.owned (h.fresh _ (Nat.le_refl _))]
        show (xmlNodeAppendChild _ _ _ >>= _) = _
        rw [happ]
        rfl
      · simp [eraseLevels, Level.map, Level.add, Forest.map]
  | error message =>
      cases ht
      exact ⟨b, l :: ls, rfl, h, rfl⟩

/-- A call the stack has no answer to is the end of an element with none open. -/
theorem Builds.on_fails {b : XmlBuilder} {ls : List (Level (Nat × XmlData))} {t : XmlCall}
    (h : Builds b ls) (ht : docStep (eraseLevels ls) t = none) :
    b.on t.event = .error .assertion := by
  obtain ⟨l, ls, rfl⟩ := List.exists_cons_of_ne_nil h.ne_nil
  cases t with
  | close tag =>
      cases ls with
      | nil => exact h.closeRoot
      | cons m ls => cases ht
  | start tag attrs => cases ht
  | text s => cases ht
  | comment s => cases ht
  | pi tag attrs => cases ht
  | error message => cases ht

theorem Builds.run_ok {b : XmlBuilder} {ls : List (Level (Nat × XmlData))} {calls : List XmlCall}
    {ds : List (Level XmlData)} (h : Builds b ls)
    (hrun : exec docStep (eraseLevels ls) calls = some ds) :
    ∃ b' ls', b.run (calls.map XmlCall.event) = .ok b' ∧ Builds b' ls' ∧ eraseLevels ls' = ds := by
  induction calls generalizing b ls with
  | nil =>
      cases hrun
      exact ⟨b, ls, rfl, h, rfl⟩
  | cons t calls ih =>
      obtain ⟨ds₁, hstep, hrest⟩ := Option.bind_eq_some_iff.mp hrun
      obtain ⟨b₁, ls₁, hon, hb₁, rfl⟩ := h.on_ok hstep
      obtain ⟨b', ls', hrun', hb', hds⟩ := ih hb₁ hrest
      refine ⟨b', ls', ?_, hb', hds⟩
      show (b.on t.event >>= _) = _
      rw [hon]
      exact hrun'

theorem Builds.run_fails {b : XmlBuilder} {ls : List (Level (Nat × XmlData))}
    {calls : List XmlCall} (h : Builds b ls) (hrun : exec docStep (eraseLevels ls) calls = none) :
    b.run (calls.map XmlCall.event) = .error .assertion := by
  induction calls generalizing b ls with
  | nil => cases hrun
  | cons t calls ih =>
      show (b.on t.event >>= _) = _
      cases hstep : docStep (eraseLevels ls) t with
      | none =>
          rw [h.on_fails hstep]
          rfl
      | some ds =>
          obtain ⟨b₁, ls₁, hon, hb₁, rfl⟩ := h.on_ok hstep
          rw [exec, hstep] at hrun
          rw [hon]
          exact ih hb₁ hrun

def XmlCall.isStart : XmlCall → Bool
  | .start _ _ => true
  | _ => false

def XmlCall.isClose : XmlCall → Bool
  | .close _ => true
  | _ => false

/-- The stack has an answer to every order of calls that ends no element before it starts. -/
theorem exec_docStep_eq_none_iff (ls : List (Level XmlData)) (hls : ls ≠ []) (calls : List XmlCall) :
    exec docStep ls calls = none ↔
      ∃ p, p <+: calls ∧ ls.length + p.countP XmlCall.isStart ≤ p.countP XmlCall.isClose := by
  induction calls generalizing ls with
  | nil =>
      have hpos := List.length_pos_iff.mpr hls
      refine ⟨nofun, fun ⟨p, hp, hle⟩ => ?_⟩
      rw [List.prefix_nil.mp hp] at hle
      simp only [List.countP_nil] at hle
      omega
  | cons t calls ih =>
      -- a step that succeeds shifts the depth of every longer prefix
      have hstep : ∀ ds : List (Level XmlData), ds ≠ [] → docStep ls t = some ds →
          ds.length + (if t.isClose then 1 else 0) = ls.length + (if t.isStart then 1 else 0) →
          (exec docStep ls (t :: calls) = none ↔ ∃ p, p <+: t :: calls ∧
            ls.length + p.countP XmlCall.isStart ≤ p.countP XmlCall.isClose) := by
        intro ds hds ht hlen
        rw [exec, ht]
        show exec docStep ds calls = none ↔ _
        rw [ih ds hds]
        have hpos := List.length_pos_iff.mpr hls
        refine ⟨fun ⟨p, hp, hle⟩ => ⟨t :: p, (List.prefix_cons_inj t).mpr hp, ?_⟩, fun ⟨p, hp, hle⟩ => ?_⟩
        · rw [List.countP_cons, List.countP_cons]
          omega
        · cases p with
          | nil =>
              simp only [List.countP_nil] at hle
              omega
          | cons u p =>
              obtain ⟨rfl, hp'⟩ := List.cons_prefix_cons.mp hp
              rw [List.countP_cons, List.countP_cons] at hle
              exact ⟨p, hp', by omega⟩
      obtain ⟨l, ls, rfl⟩ := List.exists_cons_of_ne_nil hls
      cases t with
      | start tag attrs => exact hstep _ (List.cons_ne_nil _ _) rfl rfl
      | text s => exact hstep _ (List.cons_ne_nil _ _) rfl rfl
      | comment s => exact hstep _ (List.cons_ne_nil _ _) rfl rfl
      | pi tag attrs => exact hstep _ (List.cons_ne_nil _ _) rfl rfl
      | error message => exact hstep _ (List.cons_ne_nil _ _) rfl rfl
      | close tag =>
          cases ls with
          | nil =>
              refine ⟨fun _ => ⟨[.close tag], ?_, Nat.le_refl _⟩, fun _ => rfl⟩
              exact (List.prefix_cons_inj _).mpr List.nil_prefix
          | cons m ls => exact hstep _ (List.cons_ne_nil _ _) rfl rfl

/-- The tree that is built, when the open nodes are closed. -/
theorem Builds.linked {b : XmlBuilder} {ls : List (Level (Nat × XmlData))} (h : Builds b ls) :
    Linked b.heap.cell none (some b.root) (Level.whole .nil ls) none := by
  obtain ⟨l, ls, rfl⟩ := List.exists_cons_of_ne_nil h.ne_nil
  rw [← h.root]
  exact h.spine.whole rfl

/-- `xml_builder_get_tree` hands out the trees below the root. -/
theorem Builds.getTree {b : XmlBuilder} {ls : List (Level (Nat × XmlData))} (h : Builds b ls) :
    ∃ tree d f, xmlBuilderGetTree b =
        .ok (tree, { b with heap := b.heap.write b.root (some { data := d }) }) ∧
      Level.whole .nil ls = .node (b.root, d) f .nil ∧
      Linked b.heap.cell (some b.root) tree f none ∧ f.map Prod.snd = docForest (eraseLevels ls) := by
  have hlinked := h.linked
  have hmap := Level.whole_map Prod.snd .nil ls
  cases hw : Level.whole .nil ls with
  | nil =>
      rw [hw] at hlinked
      cases hlinked
  | node a f s =>
      rw [hw] at hlinked hmap
      obtain ⟨i, d⟩ := a
      obtain ⟨hroot, tree, next, hi, hf, hs⟩ := hlinked
      cases hroot
      -- the root is the only tree, so it has no sibling
      have hnext : s = .nil := by
        obtain ⟨l, ls, rfl⟩ := List.exists_cons_of_ne_nil h.ne_nil
        have hone : ∀ (ls : List (Level (Nat × XmlData))) (l : Level (Nat × XmlData)) g a f s,
            Level.whole g (l :: ls) = .node a f s → s = .nil := by
          intro ls
          induction ls with
          | nil =>
              intro l g a f s h
              cases h
              rfl
          | cons m ls ih => exact fun l g a f s h => ih m _ a f s h
        exact hone _ _ _ _ _ _ hw
      subst hnext
      cases hs
      refine ⟨tree, d, f, ?_, rfl, hf, ?_⟩
      · show (b.heap.read b.root >>= _) = _
        rw [XmlHeap.read_eq hi]
        rfl
      · rw [docForest, eraseLevels, ← show _ = Level.whole .nil _ from hmap]
        rfl

theorem Builds.whole_places {b : XmlBuilder} {ls : List (Level (Nat × XmlData))}
    (h : Builds b ls) : (places (Level.whole .nil ls)).Perm (List.range b.heap.brk) :=
  (places_whole .nil ls).trans h.cells

/-- The tree as it is once it is taken from the builder. -/
theorem Builds.taken {b : XmlBuilder} {ls : List (Level (Nat × XmlData))} (h : Builds b ls) :
    ∃ tree b' f, xmlBuilderGetTree b = .ok (tree, b') ∧
      Linked b'.heap.cell (some b.root) tree f none ∧ (places f).length ≤ b'.heap.brk ∧
      f.map Prod.snd = docForest (eraseLevels ls) := by
  obtain ⟨tree, d, f, hget, hw, hf, hmap⟩ := h.getTree
  have hp := h.whole_places
  rw [hw, places_node, places_nil, List.append_nil] at hp
  have hout := (List.nodup_cons.mp (hp.nodup_iff.mpr List.nodup_range)).1
  have hlen := hp.length_eq
  rw [List.length_cons, List.length_range] at hlen
  exact ⟨tree, _, f, hget, hf.update hout _, show _ ≤ b.heap.brk by omega, hmap⟩

/-- Either an end comes with no element open, and the assertion fails; or the builder follows the
    stack to its end and hands out the trees the stack has. -/
theorem builder_follows (calls : List XmlCall) :
    ((∃ p, p <+: calls ∧ p.countP XmlCall.isStart < p.countP XmlCall.isClose) ∧
        xmlBuilderTreeCreate.run (calls.map XmlCall.event) = .error .assertion) ∨
      ((∀ p, p <+: calls → p.countP XmlCall.isClose ≤ p.countP XmlCall.isStart) ∧
        ∃ ds b tree b' f, exec docStep docStart calls = some ds ∧
          xmlBuilderTreeCreate.run (calls.map XmlCall.event) = .ok b ∧
          xmlBuilderGetTree b = .ok (tree, b') ∧
          Linked b'.heap.cell (some b.root) tree f none ∧ f.map Prod.snd = docForest ds) := by
  have hiff := exec_docStep_eq_none_iff docStart (List.cons_ne_nil _ _) calls
  cases hrun : exec docStep docStart calls with
  | none =>
      obtain ⟨p, hp, hle⟩ := hiff.mp hrun
      refine .inl ⟨⟨p, hp, ?_⟩, builds_create.run_fails hrun⟩
      rw [docStart, List.length_singleton] at hle
      omega
  | some ds =>
      obtain ⟨b, ls, hb, hbuilds, rfl⟩ := builds_create.run_ok hrun
      obtain ⟨tree, b', f, hget, hlinked, -, hmap⟩ := hbuilds.taken
      refine .inr ⟨fun p hp => ?_, _, b, tree, b', f, rfl, hb, hget, hlinked, hmap⟩
      by_contra hlt
      have hnone := hiff.mpr ⟨p, hp, by rw [docStart, List.length_singleton]; omega⟩
      rw [hrun] at hnone
      cases hnone

/-! ## The end of the builder and of its tree -/

/-- What `conf_parse` does at its end: the tree has been taken from the builder, both are freed. -/
def xmlRelease (builder : XmlBuilder) : Except XmlFault XmlHeap := do
  let (tree, builder) ← xmlBuilderGetTree builder
  let heap ← xmlBuilderTreeDestroy builder
  xmlNodeDestroy heap.brk heap tree

/-- No cell is left, and no block. -/
theorem XmlHeap.without_all {heap : XmlHeap} {l : List Nat} (hown : heap.Owned)
    (hfresh : ∀ i, heap.brk ≤ i → heap.cell i = none)
    (hl : ∀ i, i < heap.brk → i ∉ l → heap.cell i = none) :
    heap.without l = { brk := heap.brk } := by
  have hcell : ∀ i, i ∉ l → heap.cell i = none := by
    intro i hi
    rcases Nat.lt_or_ge i heap.brk with hlt | hge
    · exact hl i hlt hi
    · exact hfresh i hge
  rw [XmlHeap.without, XmlHeap.mk.injEq]
  refine ⟨funext fun i => ?_, rfl, funext fun i => ?_⟩
  · by_cases hi : i ∈ l
    · rw [if_pos hi]
    · rw [if_neg hi]
      exact hcell i hi
  · by_cases hi : i ∈ l
    · rw [if_pos hi]
    · rw [if_neg hi, hown i, hcell i hi]
      rfl

theorem Builds.destroy {b : XmlBuilder} {ls : List (Level (Nat × XmlData))} (h : Builds b ls) :
    xmlBuilderTreeDestroy b = .ok { brk := b.heap.brk } := by
  have hp := h.whole_places
  have hlen : (places (Level.whole .nil ls)).length ≤ b.heap.brk :=
    Nat.le_of_eq (hp.length_eq.trans List.length_range)
  rw [xmlBuilderTreeDestroy,
    xmlNodeDestroy_linked h.owned h.linked (hp.nodup_iff.mpr List.nodup_range) hlen]
  rw [XmlHeap.without_all h.owned h.fresh fun i hi hni =>
    absurd (hp.mem_iff.mpr (List.mem_range.mpr hi)) hni]

theorem Builds.release {b : XmlBuilder} {ls : List (Level (Nat × XmlData))} (h : Builds b ls) :
    xmlRelease b = .ok { brk := b.heap.brk } := by
  obtain ⟨tree, d, f, hget, hw, hf, -⟩ := h.getTree
  have hp := h.whole_places
  rw [hw, places_node, places_nil, List.append_nil] at hp
  have hnd := hp.nodup_iff.mpr List.nodup_range
  obtain ⟨hout, hndf⟩ := List.nodup_cons.mp hnd
  have hlen := hp.length_eq
  rw [List.length_cons, List.length_range] at hlen
  -- the builder has the root only
  have hroot : Linked (b.heap.write b.root (some { data := d })).cell none (some b.root)
      (.node (b.root, d) .nil .nil) none :=
    ⟨rfl, none, none, Function.update_self _ _ _, rfl, rfl⟩
  have hown : (b.heap.write b.root (some { data := d })).Owned := by
    have hlinked := h.linked
    rw [hw] at hlinked
    obtain ⟨-, child, next, hi, -⟩ := hlinked
    exact h.owned.write hi rfl
  have hdestroy : xmlNodeDestroy b.heap.brk _ (some b.root) = _ :=
    xmlNodeDestroy_linked hown hroot (by simp) (by rw [places_node]; simp; omega)
  have htree : Linked ((b.heap.write b.root (some { data := d })).without
      (places (.node (b.root, d) .nil .nil))).cell (some b.root) tree f none := by
    refine hf.congr fun i hi => ?_
    have hne : i ≠ b.root := fun h => hout (h ▸ hi)
    simp [XmlHeap.without, hne]
  have hrest : xmlNodeDestroy b.heap.brk _ tree = _ :=
    xmlNodeDestroy_linked (hown.without _) htree hndf (show _ ≤ b.heap.brk by omega)
  rw [xmlRelease, hget]
  show (xmlNodeDestroy b.heap.brk _ (some b.root) >>= _) = _
  rw [hdestroy]
  show xmlNodeDestroy b.heap.brk _ tree = _
  rw [hrest]
  refine congrArg Except.ok (XmlHeap.without_all (hown.without _) (fun i hi => ?_)
    fun i hi hni => ?_)
  · have hi : b.heap.brk ≤ i := hi
    have hne : i ≠ b.root := by
      have := List.mem_range.mp (hp.mem_iff.mp List.mem_cons_self)
      omega
    simp [XmlHeap.without, hne, h.fresh i hi]
  · rcases List.mem_cons.mp (hp.mem_iff.mpr (List.mem_range.mpr hi)) with rfl | hi
    · simp [XmlHeap.without]
    · exact absurd hi hni

/-- Whatever was built, freeing it reads and frees no cell or block that is freed and leaves none:
    both when the tree was taken from the builder and when it was not. -/
theorem free_all (calls : List XmlCall) {b : XmlBuilder}
    (h : xmlBuilderTreeCreate.run (calls.map XmlCall.event) = .ok b) :
    xmlRelease b = .ok { brk := b.heap.brk } ∧
      xmlBuilderTreeDestroy b = .ok { brk := b.heap.brk } := by
  cases hrun : exec docStep docStart calls with
  | none =>
      rw [builds_create.run_fails hrun] at h
      cases h
  | some ds =>
      obtain ⟨b', ls, hb, hbuilds, -⟩ := builds_create.run_ok hrun
      rw [hb] at h
      cases h
      exact ⟨hbuilds.release, hbuilds.destroy⟩

/-- The calls of the builder's own test. -/
theorem free_all_test :
    ∃ b, xmlBuilderTreeCreate.run (([.pi (bytes "xml") [bytes "version", bytes "1.0"],
        .comment (bytes "comment"), .start (bytes "programmer") [], .text (bytes "text"),
        .close .null] : List XmlCall).map XmlCall.event) = .ok b ∧
      xmlRelease b = .ok { brk := b.heap.brk } ∧
      xmlBuilderTreeDestroy b = .ok { brk := b.heap.brk } := by
  refine ⟨_, rfl, ?_⟩
  exact free_all [.pi (bytes "xml") [bytes "version", bytes "1.0"],
    .comment (bytes "comment"), .start (bytes "programmer") [], .text (bytes "text"),
    .close .null] rfl

end XwpServer
