/-
  XwpServer.XmlTree

  The tree of a configuration file, and the lookups of `xml_tree.c` in it.

  A lookup by name and index counts through the children of a node.  It is the indexing
  of the list of the elements of that name, so a loop that steps the index until the
  lookup fails visits exactly these elements, in the order of the document.
-/

import XwpServer.Lib.CString
import XwpServer.Lib.Enumerate

namespace XwpServer

open CString Enumerate

/-! ## The tree -/

/-- What a node is.  The characters of a string are those in front of its NUL. -/
inductive XmlContent where
  | none
  | pi (name : List Byte)
  | text (text : List Byte)
  | normal (name : List Byte)
  | comment (comment : List Byte)
  deriving DecidableEq, Repr

/-- A node with its children; the siblings of a node are the rest of such a list. -/
structure XmlNode where
  content : XmlContent
  children : List XmlNode

/-- An element of this name. -/
def XmlNode.isNormal (name : List Byte) (node : XmlNode) : Bool := node.content == .normal name

/-- The elements of a name below a node. -/
def XmlNode.elements (node : XmlNode) (name : List Byte) : List XmlNode :=
  node.children.filter (·.isNormal name)

/-! ## Lookups -/

/-- The loop of `xml_tree_find`; `i` is the index of the last element of the name. -/
def xmlTreeFindLoop (name : List Byte) (index : Int) : List XmlNode → Int → Option XmlNode
  | [], _ => .none
  | cur :: siblings, i =>
      let i := if cur.isNormal name then i + 1 else i
      if i = index then some cur else xmlTreeFindLoop name index siblings i

def xmlTreeFind (node : Option XmlNode) (name : List Byte) (index : Int) : Option XmlNode :=
  match node with
  | .none => .none
  | some node => if 0 ≤ index then xmlTreeFindLoop name index node.children (-1) else .none

def xmlTreeFindFirst (node : Option XmlNode) (name : List Byte) : Option XmlNode :=
  xmlTreeFind node name 0

/-- The text of a node, if it is its first child. -/
def XmlNode.text (node : XmlNode) : Option (List Byte) :=
  match node.children with
  | ⟨.text s, _⟩ :: _ => some s
  | _ => .none

def xmlTreeStr (node : Option XmlNode) (name : List Byte) (index : Int) : Option (List Byte) :=
  match xmlTreeFind node name index with
  | .none => .none
  | some cur => cur.text

def xmlTreeStrFirst (node : Option XmlNode) (name : List Byte) : Option (List Byte) :=
  xmlTreeStr node name 0

def xmlTreeInt (node : Option XmlNode) (name : List Byte) (index default : Int) : Int :=
  match xmlTreeStr node name index with
  | .none => default
  | some str => atoi str

def xmlTreeIntFirst (node : Option XmlNode) (name : List Byte) (default : Int) : Int :=
  xmlTreeInt node name 0 default

/-! ## Lookups as indexing -/

/-- `k` elements of the name are still to be passed when `index = i + 1 + k`. -/
theorem xmlTreeFindLoop_eq (name : List Byte) (l : List XmlNode) (i : Int) (k : Nat) :
    xmlTreeFindLoop name (i + 1 + k) l i = (l.filter (·.isNormal name))[k]? := by
  induction l generalizing i k with
  | nil => rfl
  | cons cur siblings ih =>
      unfold xmlTreeFindLoop
      by_cases hcur : cur.isNormal name = true
      · rw [if_pos hcur, List.filter_cons_of_pos hcur]
        cases k with
        | zero => simp
        | succ k =>
            have hne : ¬ i + 1 = i + 1 + ((k + 1 : Nat) : Int) := by omega
            have hidx : i + 1 + ((k + 1 : Nat) : Int) = (i + 1) + 1 + k := by
              push_cast
              omega
            rw [if_neg hne, List.getElem?_cons_succ, hidx]
            exact ih (i + 1) k
      · have hne : ¬ i = i + 1 + (k : Int) := by omega
        rw [if_neg hcur, List.filter_cons_of_neg hcur, if_neg hne]
        exact ih i k

/-- A lookup is the indexing of the elements of the name. -/
theorem xmlTreeFind_eq (node : XmlNode) (name : List Byte) (k : Nat) :
    xmlTreeFind (some node) name k = (node.elements name)[k]? := by
  have h := xmlTreeFindLoop_eq name node.children (-1) k
  rw [show (-1 : Int) + 1 + k = k by omega] at h
  show (if (0 : Int) ≤ k then xmlTreeFindLoop name k node.children (-1) else .none) = _
  rw [if_pos (by omega), h]
  rfl

theorem xmlTreeFindFirst_eq (node : XmlNode) (name : List Byte) :
    xmlTreeFindFirst (some node) name = (node.elements name).head? := by
  rw [List.head?_eq_getElem?]
  exact xmlTreeFind_eq node name 0

theorem xmlTreeStr_eq (node : XmlNode) (name : List Byte) (k : Nat) :
    xmlTreeStr (some node) name k = (((node.elements name).map XmlNode.text)[k]?).join := by
  unfold xmlTreeStr
  rw [xmlTreeFind_eq, List.getElem?_map]
  cases (node.elements name)[k]? <;> rfl

theorem elements_length_le (node : XmlNode) (name : List Byte) :
    (node.elements name).length ≤ node.children.length := List.length_filter_le _ _

/-! ## Lookups that are counted through -/

/-- The children a lookup below a node goes through. -/
def childCount (node : Option XmlNode) : Nat := (node.map (·.children.length)).getD 0

theorem xmlTreeFind_ends {node : Option XmlNode} {name : List Byte} {i : Nat}
    (h : childCount node ≤ i) : xmlTreeFind node name i = .none := by
  cases node with
  | none => rfl
  | some node =>
      rw [xmlTreeFind_eq]
      exact List.getElem?_eq_none (Nat.le_trans (elements_length_le node name) h)

/-- `xml_tree_find(node, name, i++)`. -/
def findLookup (node : Option XmlNode) (name : List Byte) : Lookup XmlNode where
  get i := xmlTreeFind node name i
  bound := childCount node
  ends _ h := xmlTreeFind_ends h

/-- `xml_tree_str(node, name, i++)`. -/
def strLookup (node : Option XmlNode) (name : List Byte) : Lookup (List Byte) where
  get i := xmlTreeStr node name i
  bound := childCount node
  ends i h := by rw [xmlTreeStr, xmlTreeFind_ends h]

/-- All elements of the name are visited. -/
theorem findLookup_lists (node : XmlNode) (name : List Byte) :
    (findLookup (some node) name).Lists (node.elements name) :=
  Lookup.lists_getElem fun k => xmlTreeFind_eq node name k

/-- The texts of the elements of a name, up to the first one without a text. -/
def textsOf (node : Option XmlNode) (name : List Byte) : List (List Byte) :=
  match node with
  | .none => []
  | some node => someFront ((node.elements name).map XmlNode.text)

/-- An element without a text hides those behind it. -/
theorem strLookup_lists (node : Option XmlNode) (name : List Byte) :
    (strLookup node name).Lists (textsOf node name) := by
  cases node with
  | none =>
      show (strLookup .none name).get 0 = .none
      rfl
  | some node => exact Lookup.lists_someFront fun k => xmlTreeStr_eq node name k

end XwpServer
