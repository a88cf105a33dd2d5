/-
  XwpServer.XmlVisit

  Visiting an XML tree, `xml_node_visit`.

  The visitor calls a builder for each node of a tree, with the attributes in an array of
  fixed size.  Visiting what one tree builder has built with another one copies it, but for
  the attributes of a node behind the 32nd (`visit_copies`); the array is never overrun.
-/

import XwpServer.XmlPrint

namespace XwpServer

open CString LinkedForest Transition

/-- The loop that fills the array; `i` is the next place in it. -/
def visitAttrs : List XmlAttr → (i : Nat) → List XmlStr
  | [], _ => []
  | iter :: next, i =>
      if i < MAX_ATTR_NR then .str iter.name :: .str iter.value :: visitAttrs next (i + 2) else []

/-- The call for a node itself. -/
def visitNode : XmlData → XmlEvent
  | .normal name attrs => .startElement (.str name) (visitAttrs attrs 0)
  | .pi name attrs => .piElement (.str name) (visitAttrs attrs 0)
  | .text t => .text t
  | .comment t => .comment t

/-- The call behind the children of a node. -/
def visitEnd : XmlData → List XmlEvent
  | .normal name _ => [.endElement (.str name)]
  | _ => []

/-- `xml_node_visit`, with the calls it makes; the fuel bounds the nesting of its calls. -/
def xmlNodeVisit (heap : XmlHeap) : (fuel : Nat) → Option Nat → Except XmlFault (List XmlEvent)
  | _, none => .ok []
  | 0, some _ => .error .memory
  | fuel + 1, some node => do
      let c ← heap.read node
      let children ← xmlNodeVisit heap fuel c.children
      let siblings ← xmlNodeVisit heap fuel c.sibling
      return visitNode c.data :: (children ++ (visitEnd c.data ++ siblings))

/-! ## The array -/

/-- The strings fit into the array, with the `NULL` behind them. -/
theorem visitAttrs_length (attrs : List XmlAttr) (i : Nat) (hi : i ≤ MAX_ATTR_NR) :
    i + (visitAttrs attrs i).length < 2 * MAX_ATTR_NR + 1 := by
  induction attrs generalizing i with
  | nil =>
      show i + 0 < 2 * MAX_ATTR_NR + 1
      omega
  | cons a attrs ih =>
      rw [visitAttrs]
      split
      · next hlt =>
        by_cases hfull : i + 2 ≤ MAX_ATTR_NR
        · have := ih (i + 2) hfull
          rw [List.length_cons, List.length_cons]
          omega
        · have hnone : visitAttrs attrs (i + 2) = [] := by
            cases attrs with
            | nil => rfl
            | cons b attrs => exact if_neg (by omega)
          rw [hnone, List.length_cons, List.length_cons, List.length_nil]
          omega
      · show i + 0 < 2 * MAX_ATTR_NR + 1
        omega

theorem visitAttrs_eq (attrs : List XmlAttr) {i k : Nat} (hi : i + 2 * k = MAX_ATTR_NR) :
    visitAttrs attrs i = (attrStrings (attrs.take k)).map .str := by
  induction attrs generalizing i k with
  | nil =>
      rw [List.take_nil]
      rfl
  | cons a attrs ih =>
      rw [visitAttrs]
      cases k with
      | zero =>
          rw [if_neg (by omega)]
          rfl
      | succ k =>
          rw [if_pos (by omega), ih (show i + 2 + 2 * k = MAX_ATTR_NR by omega)]
          rfl

/-! ## Copies -/

/-- A node with the attributes that fit into the array. -/
def XmlData.cut : XmlData → XmlData
  | .normal name attrs => .normal name (attrs.take 32)
  | .pi name attrs => .pi name (attrs.take 32)
  | d => d

/-- The calls for a forest, with the names at the ends of its elements. -/
def visitCalls : Forest XmlData → List XmlCall
  | .nil => []
  | .node (.normal name attrs) c s =>
      .start name (attrStrings (attrs.take 32)) ::
        (visitCalls c ++ .close (.str name) :: visitCalls s)
  | .node (.pi name attrs) c s =>
      .pi name (attrStrings (attrs.take 32)) :: (visitCalls c ++ visitCalls s)
  | .node (.text t) c s => .text t :: (visitCalls c ++ visitCalls s)
  | .node (.comment t) c s => .comment t :: (visitCalls c ++ visitCalls s)

theorem visitCalls_blank (f : Forest XmlData) :
    (visitCalls f).map XmlCall.blank = forestCalls (f.map XmlData.cut) := by
  induction f with
  | nil => rfl
  | node d c s ihc ihs =>
      cases d with
      | normal name attrs =>
          show _ :: List.map _ (_ ++ _ :: _) = _ :: (forestCalls (c.map _) ++ _ :: _)
          rw [List.map_append, List.map_cons, ihc, ihs]
          rfl
      | pi name attrs =>
          show _ :: List.map _ (_ ++ _) = _ :: (forestCalls (c.map _) ++ forestCalls (s.map _))
          rw [List.map_append, ihc, ihs]
          rfl
      | text t =>
          show _ :: List.map _ (_ ++ _) = _ :: (forestCalls (c.map _) ++ forestCalls (s.map _))
          rw [List.map_append, ihc, ihs]
          rfl
      | comment t =>
          show _ :: List.map _ (_ ++ _) = _ :: (forestCalls (c.map _) ++ forestCalls (s.map _))
          rw [List.map_append, ihc, ihs]
          rfl

theorem Leafy.cut {f : Forest XmlData} (h : Leafy f) : Leafy (f.map XmlData.cut) := by
  induction f with
  | nil => trivial
  | node d c s ihc ihs =>
      refine ⟨fun hd => ?_, ?_, ihc h.2.2.1, ihs h.2.2.2⟩
      case refine_2 =>
        cases d with
        | normal name attrs => trivial
        | pi name attrs => trivial
        | text t => exact h.2.1
        | comment t => exact h.2.1
      have hnormal : d.isNormal = false := by
        cases d with
        | normal name attrs => cases hd
        | _ => rfl
      rw [h.1 hnormal]
      rfl

theorem xmlNodeVisit_linked {heap : XmlHeap} {up head : Option Nat} {f : Forest (Nat × XmlData)}
    {fuel : Nat} (h : Linked heap.cell up head f none) (hfuel : (places f).length ≤ fuel) :
    xmlNodeVisit heap fuel head = .ok ((visitCalls (f.map Prod.snd)).map XmlCall.event) := by
  induction f generalizing up head fuel with
  | nil =>
      cases h
      rw [xmlNodeVisit]
      rfl
  | node a c s ihc ihs =>
      obtain ⟨i, d⟩ := a
      obtain ⟨rfl, child, next, hi, hc, hs⟩ := h
      rw [places_node, List.length_cons, List.length_append] at hfuel
      obtain ⟨fuel, rfl⟩ : ∃ k, fuel = k + 1 := ⟨fuel - 1, by omega⟩
      have hmax : 0 + 2 * 32 = MAX_ATTR_NR := rfl
      rw [xmlNodeVisit, XmlHeap.read_eq hi]
      show (xmlNodeVisit heap fuel child >>= _) = _
      rw [ihc hc (by omega)]
      show (xmlNodeVisit heap fuel next >>= _) = _
      rw [ihs hs (by omega)]
      show Except.ok _ = Except.ok _
      congr 1
      cases d with
      | normal name attrs => simp [visitNode, visitEnd, visitCalls, Forest.map, XmlCall.event,
          visitAttrs_eq attrs hmax]
      | pi name attrs => simp [visitNode, visitEnd, visitCalls, Forest.map, XmlCall.event,
          visitAttrs_eq attrs hmax]
      | text t => simp [visitNode, visitEnd, visitCalls, Forest.map, XmlCall.event]
      | comment t => simp [visitNode, visitEnd, visitCalls, Forest.map, XmlCall.event]

/-! ## What any builder has built -/

theorem Leafy.append {f g : Forest XmlData} (hf : Leafy f) (hg : Leafy g) : Leafy (f.append g) := by
  induction f with
  | nil => exact hg
  | node d c s _ ih => exact ⟨hf.1, hf.2.1, hf.2.2.1, ih hf.2.2.2⟩

theorem noNul_of_isNormal {d : XmlData} (h : d.isNormal = true) : d.NoNul := by
  cases d with
  | normal name attrs => trivial
  | pi name attrs => trivial
  | text t => cases h
  | comment t => cases h

/-- The open nodes are elements, and below them only elements have something below. -/
def LevelsLeafy (ds : List (Level XmlData)) : Prop :=
  ∀ l ∈ ds, l.label.isNormal = true ∧ Leafy l.closed

theorem LevelsLeafy.add {l : Level XmlData} {ls : List (Level XmlData)} (h : LevelsLeafy (l :: ls))
    {d : XmlData} {c : Forest XmlData} (hd : d.isNormal = false → c = .nil) (hz : d.NoNul)
    (hc : Leafy c) : LevelsLeafy (l.add (.node d c .nil) :: ls) := by
  intro m hm
  rcases List.mem_cons.mp hm with rfl | hm
  · obtain ⟨hnormal, hclosed⟩ := h l List.mem_cons_self
    exact ⟨hnormal, hclosed.append ⟨hd, hz, hc, trivial⟩⟩
  · exact h m (List.mem_cons_of_mem _ hm)

theorem LevelsLeafy.step {ds ds' : List (Level XmlData)} {call : XmlCall} (h : LevelsLeafy ds)
    (hstep : docStep ds call = some ds') : LevelsLeafy ds' := by
  cases call with
  | start tag attrs =>
      cases hstep
      intro m hm
      rcases List.mem_cons.mp hm with rfl | hm
      · exact ⟨rfl, trivial⟩
      · exact h m hm
  | close tag =>
      match ds, hstep with
      | l :: m :: ds, hstep =>
          cases hstep
          obtain ⟨hnormal, hclosed⟩ := h l List.mem_cons_self
          have hrest : LevelsLeafy (m :: ds) := fun k hk => h k (List.mem_cons_of_mem _ hk)
          refine hrest.add (fun hd => ?_) (noNul_of_isNormal hnormal) hclosed
          rw [hnormal] at hd
          cases hd
  | text t =>
      match ds, hstep with
      | l :: ds, hstep =>
          cases hstep
          exact h.add (fun _ => rfl) (notMem_strndup t) trivial
  | comment t =>
      match ds, hstep with
      | l :: ds, hstep =>
          cases hstep
          exact h.add (fun _ => rfl) (notMem_strndup t) trivial
  | pi tag attrs =>
      match ds, hstep with
      | l :: ds, hstep =>
          cases hstep
          exact h.add (fun _ => rfl) trivial trivial
  | error message =>
      match ds, hstep with
      | [], hstep =>
          cases hstep
          exact h
      | l :: ds, hstep =>
          cases hstep
          exact h

theorem LevelsLeafy.exec {ds ds' : List (Level XmlData)} {calls : List XmlCall} (h : LevelsLeafy ds)
    (hrun : exec docStep ds calls = some ds') : LevelsLeafy ds' := by
  induction calls generalizing ds with
  | nil =>
      cases hrun
      exact h
  | cons call calls ih =>
      obtain ⟨ds₁, hstep, hrest⟩ := Option.bind_eq_some_iff.mp hrun
      exact ih (h.step hstep) hrest

theorem LevelsLeafy.whole {inner : Forest XmlData} {ds : List (Level XmlData)} (h : LevelsLeafy ds)
    (hinner : Leafy inner) : Leafy (Level.whole inner ds) := by
  induction ds generalizing inner with
  | nil => exact hinner
  | cons l ds ih =>
      obtain ⟨hnormal, hclosed⟩ := h l List.mem_cons_self
      refine ih (fun m hm => h m (List.mem_cons_of_mem _ hm))
        ⟨fun hd => ?_, noNul_of_isNormal hnormal, hclosed.append hinner, trivial⟩
      rw [hnormal] at hd
      cases hd

theorem leafy_docForest {ds : List (Level XmlData)} {calls : List XmlCall}
    (hrun : exec docStep docStart calls = some ds) : Leafy (docForest ds) := by
  have hstart : LevelsLeafy docStart := by
    intro l hl
    rw [List.mem_singleton.mp hl]
    exact ⟨rfl, trivial⟩
  have hwhole : Leafy (Level.whole .nil ds) := (hstart.exec hrun).whole trivial
  rw [docForest]
  cases hw : Level.whole .nil ds with
  | nil => trivial
  | node d c s =>
      rw [hw] at hwhole
      exact hwhole.2.2.1

/-- Visiting what was built with a new builder copies it, up to the attributes that do not fit
    into the array. -/
theorem visit_copies (calls : List XmlCall) (b : XmlBuilder)
    (h : xmlBuilderTreeCreate.run (calls.map XmlCall.event) = .ok b) :
    ∃ tree b' f es b₂ tree₂ b₂' g, xmlBuilderGetTree b = .ok (tree, b') ∧
      Linked b'.heap.cell (some b.root) tree f none ∧
      xmlNodeVisit b'.heap b'.heap.brk tree = .ok es ∧ xmlBuilderTreeCreate.run es = .ok b₂ ∧
      xmlBuilderGetTree b₂ = .ok (tree₂, b₂') ∧
      Linked b₂'.heap.cell (some b₂.root) tree₂ g none ∧
      g.map Prod.snd = (f.map Prod.snd).map XmlData.cut := by
  cases hrun : exec docStep docStart calls with
  | none =>
      rw [builds_create.run_fails hrun] at h
      cases h
  | some ds =>
      obtain ⟨b₁, ls, hb, hbuilds, rfl⟩ := builds_create.run_ok hrun
      rw [hb] at h
      cases h
      obtain ⟨tree, b', f, hget, hlinked, hlen, hmap⟩ := hbuilds.taken
      have hleafy := leafy_docForest hrun
      rw [← hmap] at hleafy
      obtain ⟨ds₂, hexec, hds₂⟩ := exec_printed hleafy.cut (visitCalls_blank _)
      obtain ⟨b₂, ls₂, hrun₂, hb₂, rfl⟩ := builds_create.run_ok hexec
      obtain ⟨tree₂, b₂', g, hget₂, hlinked₂, -, hmap₂⟩ := hb₂.taken
      exact ⟨tree, b', f, _, b₂, tree₂, b₂', g, hget, hlinked, xmlNodeVisit_linked hlinked hlen, hrun₂,
        hget₂, hlinked₂, hmap₂.trans hds₂⟩

/-- An element with 33 attributes, and a comment and an element with a text below it. -/
def nestedCalls : List XmlCall :=
  [.start (bytes "a") (.replicate 66 (bytes "k")), .comment (bytes "c"), .start (bytes "b") [],
    .text (bytes "t"), .close .null, .close .null]

theorem visit_copies_nested :
    ∃ b tree b' f es b₂ tree₂ b₂' g, xmlBuilderTreeCreate.run (nestedCalls.map XmlCall.event) = .ok b ∧
      xmlBuilderGetTree b = .ok (tree, b') ∧ Linked b'.heap.cell (some b.root) tree f none ∧
      xmlNodeVisit b'.heap b'.heap.brk tree = .ok es ∧ xmlBuilderTreeCreate.run es = .ok b₂ ∧
      xmlBuilderGetTree b₂ = .ok (tree₂, b₂') ∧
      Linked b₂'.heap.cell (some b₂.root) tree₂ g none ∧
      g.map Prod.snd = .node (.normal (bytes "a") (.replicate 32 ⟨bytes "k", bytes "k"⟩))
        (.node (.comment (bytes "c")) .nil
          (.node (.normal (bytes "b") []) (.node (.text (bytes "t")) .nil .nil) .nil)) .nil := by
  obtain ⟨ds, hexec, hds⟩ : ∃ ds, exec docStep docStart nestedCalls = some ds ∧
      (docForest ds).map XmlData.cut = _ := ⟨_, rfl, rfl⟩
  obtain ⟨b, ls, hrun, hb, rfl⟩ := builds_create.run_ok hexec
  obtain ⟨tree, b', f, es, b₂, tree₂, b₂', g, hget, hlinked, hvisit, hrun₂, hget₂, hlinked₂, hmap₂⟩ :=
    visit_copies nestedCalls b hrun
  -- the tree that is visited is the one that was built
  obtain ⟨tree₀, b₀, f₀, hget₀, hlinked₀, -, hmap₀⟩ := hb.taken
  cases hget.symm.trans hget₀
  obtain rfl := hlinked.unique hlinked₀
  refine ⟨b, tree, b', f, es, b₂, tree₂, b₂', g, hrun, hget, hlinked, hvisit, hrun₂, hget₂, hlinked₂,
    ?_⟩
  rw [hmap₂, hmap₀, hds]
  rfl

end XwpServer
