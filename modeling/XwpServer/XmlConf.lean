/-
  XwpServer.XmlConf

  From the text of a configuration file to the configuration.

  The lookups of `xml_tree.c` follow the pointers of the tree that was built.  They find in
  the cells what they find in the tree these cells are (`xmlTreeFindCell_refines`,
  `xmlTreeStrCell_eq`), so `conf_parse` may be read as a function of that tree.  Of a tree
  that is printed, `conf_parse` of the text is `conf_parse` of the tree, from its first
  node on (`confParseFile_print`): a file that starts with a declaration or a comment is
  refused, whatever follows (`confParseFile_declaration`).
-/

import XwpServer.ConfParse
import XwpServer.XmlPrint

namespace XwpServer

open CString LinkedForest Enumerate Transition

/-! ## Lookups in the cells -/

def XmlData.content : XmlData → XmlContent
  | .pi name _ => .pi name
  | .text t => .text t
  | .normal name _ => .normal name
  | .comment t => .comment t

/-- The loop of `xml_tree_find`, with the number of the cells as fuel. -/
def xmlTreeFindCellLoop (heap : XmlHeap) (name : List Byte) (index : Int) :
    (fuel : Nat) → Option Nat → Int → Except XmlFault (Option Nat)
  | _, none, _ => .ok none
  | 0, some _, _ => .error .memory
  | fuel + 1, some curNode, i => do
      let c ← heap.read curNode
      let i := if c.data.content = .normal name then i + 1 else i
      if i = index then return some curNode
      else xmlTreeFindCellLoop heap name index fuel c.sibling i

def xmlTreeFindCell (heap : XmlHeap) (node : Option Nat) (name : List Byte) (index : Int) :
    Except XmlFault (Option Nat) :=
  match node with
  | none => .ok none
  | some node =>
      if 0 ≤ index then do
        let c ← heap.read node
        xmlTreeFindCellLoop heap name index heap.brk c.children (-1)
      else .ok none

def xmlTreeStrCell (heap : XmlHeap) (node : Option Nat) (name : List Byte) (index : Int) :
    Except XmlFault (Option (List Byte)) := do
  let curNode ← xmlTreeFindCell heap node name index
  match curNode with
  | none => return none
  | some curNode => do
      let c ← heap.read curNode
      match c.children with
      | none => return none
      | some first => do
          let c ← heap.read first
          match c.data with
          | .text t => return some t
          | _ => return none

/-! ## The tree the cells are -/

/-- The nodes of a forest. -/
def docNodes : Forest XmlData → List XmlNode
  | .nil => []
  | .node d c s => ⟨d.content, docNodes c⟩ :: docNodes s

/-- The cell and those below it are the node. -/
def NodeAt (heap : XmlHeap) (i : Nat) (node : XmlNode) : Prop :=
  ∃ d up child next f, heap.cell i = some ⟨d, up, child, next⟩ ∧
    Linked heap.cell (some i) child f none ∧ (places f).length ≤ heap.brk ∧
    node = ⟨d.content, docNodes (f.map Prod.snd)⟩

theorem xmlTreeFindCellLoop_refines {heap : XmlHeap} {up head : Option Nat}
    {f : Forest (Nat × XmlData)} {fuel : Nat} (h : Linked heap.cell up head f none)
    (hfuel : (places f).length ≤ fuel) (hbrk : (places f).length ≤ heap.brk) (name : List Byte)
    (index i : Int) :
    ∃ r, xmlTreeFindCellLoop heap name index fuel head i = .ok r ∧
      Option.Rel (NodeAt heap) r (xmlTreeFindLoop name index (docNodes (f.map Prod.snd)) i) := by
  induction f generalizing head fuel i with
  | nil =>
      cases h
      refine ⟨none, ?_, .none⟩
      rw [xmlTreeFindCellLoop]
  | node a c s _ ihs =>
      obtain ⟨j, d⟩ := a
      obtain ⟨rfl, child, next, hj, hc, hs⟩ := h
      rw [places_node, List.length_cons, List.length_append] at hfuel hbrk
      obtain ⟨fuel, rfl⟩ : ∃ k, fuel = k + 1 := ⟨fuel - 1, by omega⟩
      have hread : xmlTreeFindCellLoop heap name index (fuel + 1) (some j) i =
          (if (if d.content = .normal name then i + 1 else i) = index then .ok (some j)
            else xmlTreeFindCellLoop heap name index fuel next
              (if d.content = .normal name then i + 1 else i)) := by
        rw [xmlTreeFindCellLoop, XmlHeap.read_eq hj]
        rfl
      have hnormal : (XmlNode.mk d.content (docNodes (c.map Prod.snd))).isNormal name =
          decide (d.content = .normal name) := rfl
      rw [hread, Forest.map, docNodes, xmlTreeFindLoop, hnormal]
      simp only [decide_eq_true_eq]
      by_cases hi : (if d.content = .normal name then i + 1 else i) = index
      · rw [if_pos hi, if_pos hi]
        exact ⟨some j, rfl, .some ⟨d, up, child, next, c, hj, hc, by omega, rfl⟩⟩
      · rw [if_neg hi, if_neg hi]
        exact ihs hs (by omega) (by omega) _

/-- A lookup in the cells finds the cell of the node a lookup in the tree finds. -/
theorem xmlTreeFindCell_refines {heap : XmlHeap} {i : Nat} {node : XmlNode} (h : NodeAt heap i node)
    (name : List Byte) (index : Int) :
    ∃ r, xmlTreeFindCell heap (some i) name index = .ok r ∧
      Option.Rel (NodeAt heap) r (xmlTreeFind (some node) name index) := by
  obtain ⟨d, up, child, next, f, hi, hf, hbrk, rfl⟩ := h
  by_cases hindex : 0 ≤ index
  · obtain ⟨r, hr, hrel⟩ := xmlTreeFindCellLoop_refines hf hbrk hbrk name index (-1)
    refine ⟨r, ?_, ?_⟩
    · show (if 0 ≤ index then _ else _) = _
      rw [if_pos hindex, XmlHeap.read_eq hi]
      exact hr
    · show Option.Rel _ r (if 0 ≤ index then _ else _)
      rw [if_pos hindex]
      exact hrel
  · refine ⟨none, if_neg hindex, ?_⟩
    show Option.Rel _ none (if 0 ≤ index then _ else _)
    rw [if_neg hindex]
    exact .none

/-- And it reads the same text there. -/
theorem xmlTreeStrCell_eq {heap : XmlHeap} {i : Nat} {node : XmlNode} (h : NodeAt heap i node)
    (name : List Byte) (index : Int) :
    xmlTreeStrCell heap (some i) name index = .ok (xmlTreeStr (some node) name index) := by
  obtain ⟨r, hr, hrel⟩ := xmlTreeFindCell_refines h name index
  rw [xmlTreeStrCell, hr, xmlTreeStr]
  revert hrel
  cases xmlTreeFind (some node) name index with
  | none =>
      intro hrel
      cases hrel
      rfl
  | some n =>
      intro hrel
      cases hrel with
      | some hn =>
          obtain ⟨d, up, child, next, f, hj, hf, -, rfl⟩ := hn
          cases f with
          | nil =>
              cases hf
              show (heap.read _ >>= _) = _
              rw [XmlHeap.read_eq hj]
              rfl
          | node a c s =>
              obtain ⟨k, e⟩ := a
              obtain ⟨rfl, child', next', hk, -, -⟩ := hf
              show (heap.read _ >>= _) = _
              rw [XmlHeap.read_eq hj]
              show (heap.read k >>= _) = _
              rw [XmlHeap.read_eq hk]
              cases e <;> rfl

/-- `<server><root>/srv</root></server>`, one cell for each node. -/
def rootCells : XmlHeap where
  brk := 3
  cell
    | 0 => some ⟨.normal (bytes "server") [], none, some 1, none⟩
    | 1 => some ⟨.normal (bytes "root") [], some 0, some 2, none⟩
    | 2 => some ⟨.text (bytes "/srv"), some 1, none, none⟩
    | _ => none

theorem xmlTreeStrCell_eq_root :
    xmlTreeStrCell rootCells (some 0) (bytes "root") 0 =
      .ok (xmlTreeStr (some ⟨.normal (bytes "server"), [⟨.normal (bytes "root"),
        [⟨.text (bytes "/srv"), []⟩]⟩]⟩) (bytes "root") 0) := by
  refine xmlTreeStrCell_eq ⟨.normal (bytes "server") [], none, some 1, none,
    .node (1, .normal (bytes "root") []) (.node (2, .text (bytes "/srv")) .nil .nil) .nil, rfl,
    ⟨rfl, some 2, none, rfl, ⟨rfl, none, none, rfl, rfl, rfl⟩, rfl⟩, ?_, rfl⟩ (bytes "root") 0
  decide

/-! ## Files -/

/-- The nodes from a pointer on, as the lookups see them. -/
def XmlHeap.nodes (heap : XmlHeap) : (fuel : Nat) → Option Nat → Except XmlFault (List XmlNode)
  | _, none => .ok []
  | 0, some _ => .error .memory
  | fuel + 1, some i => do
      let c ← heap.read i
      let children ← heap.nodes fuel c.children
      let siblings ← heap.nodes fuel c.sibling
      return ⟨c.data.content, children⟩ :: siblings

theorem nodes_linked {heap : XmlHeap} {up head : Option Nat} {f : Forest (Nat × XmlData)}
    {fuel : Nat} (h : Linked heap.cell up head f none) (hfuel : (places f).length ≤ fuel) :
    heap.nodes fuel head = .ok (docNodes (f.map Prod.snd)) := by
  induction f generalizing up head fuel with
  | nil =>
      cases h
      rw [XmlHeap.nodes]
      rfl
  | node a c s ihc ihs =>
      obtain ⟨i, d⟩ := a
      obtain ⟨rfl, child, next, hi, hc, hs⟩ := h
      rw [places_node, List.length_cons, List.length_append] at hfuel
      obtain ⟨fuel, rfl⟩ : ∃ k, fuel = k + 1 := ⟨fuel - 1, by omega⟩
      rw [XmlHeap.nodes, XmlHeap.read_eq hi]
      show (heap.nodes fuel child >>= _) = _
      rw [ihc hc (by omega)]
      show (heap.nodes fuel next >>= _) = _
      rw [ihs hs (by omega)]
      rfl

section

variable {η μ : Type} (D : Linker η μ)

/-- `conf_parse` of the bytes of a file, which `read_file` ends with a NUL. -/
def confParseFile (file : List Byte) : Except XmlFault (ConfEnd μ) := do
  let builder ← xmlParserParse XmlBuilder.on xmlBuilderTreeCreate (cstr (file ++ [NUL]) 0)
  let (tree, builder) ← xmlBuilderGetTree builder
  let nodes ← builder.heap.nodes builder.heap.brk tree
  return confParse D nodes.head?

end

/-- What the lookups see of a tree that was built. -/
theorem Builds.nodes {b : XmlBuilder} {ls : List (Level (Nat × XmlData))} (h : Builds b ls) :
    ∃ tree b', xmlBuilderGetTree b = .ok (tree, b') ∧
      b'.heap.nodes b'.heap.brk tree = .ok (docNodes (docForest (eraseLevels ls))) := by
  obtain ⟨tree, b', f, hget, hlinked, hlen, hmap⟩ := h.taken
  rw [← hmap]
  exact ⟨tree, b', hget, nodes_linked hlinked hlen⟩

/-! ## Printed files -/

theorem Kept.ne_nul {s : List Byte} {c : Byte} (h : Kept s) (hc : c ∈ s) : c ≠ NUL := fun hn =>
  h.noNul (hn ▸ hc)

theorem printAttrs_ne_nul {endChar : Byte} {attrs : List XmlAttr}
    (h : ∀ a ∈ attrs, PrintableAttr endChar a) {c : Byte} (hc : c ∈ printAttrs attrs) :
    c ≠ NUL := by
  obtain ⟨a, ha, hc⟩ := List.mem_flatMap.mp hc
  have hq : attrQuote a.value ≠ NUL := by
    rcases (attrQuote_spec (h a ha).quote).1 with hq | hq <;> rw [hq] <;> decide
  simp only [printAttr, List.mem_cons, List.mem_append, List.not_mem_nil, or_false] at hc
  rcases hc with rfl | hc | rfl | rfl | hc | rfl
  · decide
  · exact (h a ha).name.ne_nul hc
  · decide
  · exact hq
  · exact (h a ha).value.ne_nul hc
  · exact hq

/-- A printed forest has no NUL in it. -/
theorem printForest_ne_nul {f : Forest XmlData} (hf : Printable f) :
    ∀ c ∈ printForest f, c ≠ NUL := by
  induction f with
  | nil => nofun
  | node d c s ihc ihs =>
      obtain ⟨hd, -, -, hc, hs⟩ := hf
      have hmark : ∀ b : Byte, b = LT ∨ b = GT ∨ b = SLASH ∨ b = SP ∨ b = QMARK ∨ b = BANG ∨
          b = MINUS → b ≠ NUL := by
        rintro b (rfl | rfl | rfl | rfl | rfl | rfl | rfl) <;> decide
      intro b hb
      cases d with
      | normal name attrs =>
          obtain ⟨-, hattrs, c₀, k, rfl, halpha, hk⟩ := hd
          have hname : ∀ x ∈ c₀ :: k, x ≠ NUL := by
            intro x hx
            rcases List.mem_cons.mp hx with rfl | hx
            · exact (isalpha_spec halpha).2.1
            · exact (nameByte_spec (hk x hx)).2
          simp only [printForest, List.mem_cons, List.mem_append] at hb
          rcases hb with hb | hb | hb | hb | hb | hb | hb | hb | hb | hb
          · exact hmark b (.inl hb)
          · exact hname b (List.mem_cons.mpr hb)
          · exact printAttrs_ne_nul hattrs.each hb
          · exact hmark b (by simp [hb])
          · exact ihc hc b hb
          · exact hmark b (.inl hb)
          · exact hmark b (by simp [hb])
          · exact hname b (List.mem_cons.mpr hb)
          · exact hmark b (by simp [hb])
          · exact ihs hs b hb
      | pi name attrs =>
          obtain ⟨-, hattrs, -, hname⟩ := hd
          simp only [printForest, List.mem_cons, List.mem_append] at hb
          rcases hb with hb | hb | hb | hb | hb | hb | hb | hb
          · exact hmark b (.inl hb)
          · exact hmark b (by simp [hb])
          · exact (nameByte_spec (hname b hb)).2
          · exact printAttrs_ne_nul hattrs.each hb
          · exact hmark b (by simp [hb])
          · exact hmark b (by simp [hb])
          · exact hmark b (by simp [hb])
          · exact ihs hs b hb
      | text t =>
          rcases List.mem_append.mp hb with hb | hb
          · exact fun h => hd.1 (h ▸ hb)
          · exact ihs hs b hb
      | comment t =>
          simp only [printForest, List.mem_cons, List.mem_append] at hb
          rcases hb with hb | hb | hb | hb | hb | hb | hb | hb | hb
          · exact hmark b (.inl hb)
          · exact hmark b (by simp [hb])
          · exact hmark b (by simp [hb])
          · exact hmark b (by simp [hb])
          · exact fun h => hd.1 (h ▸ hb)
          · exact hmark b (by simp [hb])
          · exact hmark b (by simp [hb])
          · exact hmark b (by simp [hb])
          · exact ihs hs b hb

section

variable {η μ : Type} (D : Linker η μ)

/-- The configuration of a file whose calls are these is the one of the tree they build. -/
theorem confParseFile_of_calls {file : List Byte} {calls : List XmlCall} {ds : List (Level XmlData)}
    (hread : ∀ (σ : Type) (on : σ → XmlEvent → Except XmlFault σ) (builder : σ),
      xmlParserParse on builder (cstr (file ++ [NUL]) 0) =
        callBuilder on builder (calls.map XmlCall.event))
    (hexec : exec docStep docStart calls = some ds) :
    confParseFile D file = .ok (confParse D (docNodes (docForest ds)).head?) := by
  obtain ⟨b, ls, hrun, hbuilds, rfl⟩ := builds_create.run_ok hexec
  obtain ⟨tree, b', hget, hnodes⟩ := hbuilds.nodes
  rw [confParseFile, hread, show callBuilder XmlBuilder.on _ _ = _ from hrun]
  show (xmlBuilderGetTree b >>= _) = _
  rw [hget]
  show (b'.heap.nodes b'.heap.brk tree >>= _) = _
  rw [hnodes]
  rfl

theorem cstr_printDoc {f : Forest XmlData} (hf : Printable f) :
    cstr (printDoc f ++ [NUL]) 0 = printDoc f := by
  have hall : ∀ c ∈ printDoc f, (c != NUL) = true := by
    intro c hc
    rcases List.mem_append.mp hc with hc | hc
    · simpa using printForest_ne_nul hf c hc
    · split at hc
      · rw [List.mem_singleton.mp hc]
        rfl
      · cases hc
  rw [cstr, List.drop_zero, List.takeWhile_append_of_pos hall]
  simp

/-- The configuration of a printed tree is the configuration of the tree.  If its first node is no
    element, the file has none: the children of that node are looked through, and it has no
    children. -/
theorem confParseFile_print (f : Forest XmlData) (hf : Printable f) :
    confParseFile D (printDoc f) = .ok (confParse D (docNodes f).head?) ∧
      ∀ d c s, f = .node d c s → d.isNormal = false →
        confParseFile D (printDoc f) = .ok (.exit ⟨"root directory needed.", []⟩) := by
  obtain ⟨state, thiz, calls, hcalls, hreads⟩ := reads_doc hf
  obtain ⟨ds, hexec, hds⟩ := exec_printed (hf.leafy fun _ => XmlData.Printable.noNul) hcalls
  have h := confParseFile_of_calls D (fun σ on builder => by
    rw [cstr_printDoc hf]
    exact hreads.finish on builder) hexec
  rw [h, hds]
  refine ⟨rfl, ?_⟩
  rintro d c s rfl hd
  rw [hf.2.1 hd]
  rfl

end

/-- An element with a text. -/
def leafElement (name text : String) (s : Forest XmlData) : Forest XmlData :=
  .node (.normal (bytes name) []) (.node (.text (bytes text)) .nil .nil) s

/-- A server with a module and a vhost, and nothing in front of it. -/
def serverDoc : Forest XmlData :=
  .node (.normal (bytes "server") []) (leafElement "root" "/srv"
    (.node (.normal (bytes "load_module") []) (leafElement "module" "default.so" .nil)
      (.node (.normal (bytes "vhost") []) (leafElement "name" "localhost"
        (.node (.normal (bytes "location") []) (leafElement "pattern" "/"
          (.node (.normal (bytes "handler") []) (leafElement "name" "default" .nil) .nil)) .nil))
        .nil))) .nil

theorem printable_element {name : String} {c s : Forest XmlData}
    (hname : (bytes name).length ≤ 127 ∧
      ((bytes name).head?.any fun c => isalpha c || c = UNDERSCORE) = true ∧
      (bytes name).tail.all (nameByte fun c => c = GT || c = SLASH) = true)
    (hc : Printable c) (hs : Printable s) : Printable (.node (.normal (bytes name) []) c s) := by
  obtain ⟨hlen, hhead, htail⟩ := hname
  refine ⟨⟨hlen, ⟨by decide, fun _ h => absurd h List.not_mem_nil⟩, ?_⟩, nofun, nofun, hc, hs⟩
  cases hb : bytes name with
  | nil => rw [hb] at hhead; cases hhead
  | cons d k =>
      rw [hb] at hhead htail
      exact ⟨d, k, rfl, hhead, fun x hx => List.all_eq_true.mp htail x hx⟩

theorem printable_leafElement {name text : String} {s : Forest XmlData}
    (hname : (bytes name).length ≤ 127 ∧
      ((bytes name).head?.any fun c => isalpha c || c = UNDERSCORE) = true ∧
      (bytes name).tail.all (nameByte fun c => c = GT || c = SLASH) = true)
    (htext : NUL ∉ bytes text ∧ LT ∉ bytes text ∧ ((bytes text).head?.any (!isspace ·)) = true)
    (hs : Printable s) : Printable (leafElement name text s) := by
  obtain ⟨hnul, hlt, hhead⟩ := htext
  refine printable_element hname ⟨⟨hnul, hlt, ?_⟩, fun _ => rfl, fun _ => rfl, trivial, trivial⟩ hs
  cases hb : bytes text with
  | nil => rw [hb] at hhead; cases hhead
  | cons d k =>
      rw [hb] at hhead
      exact ⟨d, k, rfl, by simpa using hhead⟩

theorem printable_serverDoc : Printable serverDoc := by
  refine printable_element (by decide +kernel) (printable_leafElement (by decide +kernel)
    (by decide +kernel) (printable_element (by decide +kernel) (printable_leafElement
      (by decide +kernel) (by decide +kernel) trivial) (printable_element (by decide +kernel)
        (printable_leafElement (by decide +kernel) (by decide +kernel) (printable_element
          (by decide +kernel) (printable_leafElement (by decide +kernel) (by decide +kernel)
            (printable_element (by decide +kernel) (printable_leafElement (by decide +kernel)
              (by decide +kernel) trivial) trivial)) trivial)) trivial))) trivial

/-- The declaration in front of the server hides it; without one the file is accepted. -/
theorem confParseFile_print_docs :
    confParseFile exampleLinker (printDoc sampleDoc) =
        .ok (.exit ⟨"root directory needed.", []⟩) ∧
      ∃ thiz, confParseFile exampleLinker (printDoc serverDoc) = .ok (.ret thiz) := by
  refine ⟨(confParseFile_print exampleLinker sampleDoc printable_sampleDoc).2 _ _ _ rfl rfl, ?_⟩
  obtain ⟨thiz, hret⟩ : ∃ thiz, confParse exampleLinker (docNodes serverDoc).head? = .ret thiz :=
    ⟨_, rfl⟩
  exact ⟨thiz, (confParseFile_print exampleLinker serverDoc printable_serverDoc).1.trans
    (congrArg Except.ok hret)⟩

end XwpServer
