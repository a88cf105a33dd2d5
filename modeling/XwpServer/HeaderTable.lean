/-
  XwpServer.HeaderTable

  The header tables of a request (`http.c`): `http_header_set`,
  `http_header_set2`, `http_header_str`, `http_header_int`.

  A table is the list of its entries.  The names in it are pointers, so every
  lookup reads the heap; a name is never NULL, a value is when the header line
  has nothing behind its colon.
-/

import Mathlib.Data.List.Find
import Mathlib.Data.List.TakeWhile
import XwpServer.Basic

namespace XwpServer

open CString

/-! ## Header names -/

abbrev HTTP_HEADER_CONNECTION : Str := .serverString "Connection"
abbrev HTTP_HEADER_SERVER : Str := .serverString "Server"
abbrev HTTP_HEADER_HOST : Str := .serverString "Host"
abbrev HTTP_HEADER_CONTENT_TYPE : Str := .serverString "Content-Type"
abbrev HTTP_HEADER_CONTENT_LEN : Str := .serverString "Content-Length"
abbrev HTTP_HEADER_KEEPALIVE : Str := .serverString "Keep-Alive"
abbrev HTTP_HEADER_CLOSE : Str := .serverString "Close"
abbrev HTTP_HEADER_XWP_VER : Str := .serverString "xwp server 0.1"
abbrev HTTP_HEADER_EXPECT : Str := .serverString "Expect"

/-! ## Operations -/

/-- The string of a pointer that is not NULL. -/
def Heap.str (h : Heap) (p : Ptr) : List Byte := (h.cstr p).getD []

/-- `http_header_set`: the value replaces the one of the first entry whose name
    starts with `name`; without one a new entry is pushed. -/
def httpHeaderSet (h : Heap) (headers : List Header) (name value : Str) : List Header :=
  match headers with
  | [] => [⟨name, value⟩]
  | e :: es =>
    if strncmpEq (h.str name.data) (h.str e.name.data) name.len then { e with value := value } :: es
    else e :: httpHeaderSet h es name value

/-- `http_header_set2`: the value replaces the one of the first entry that has the
    name; without one a new entry is pushed, with the lengths `strlen` finds. -/
def httpHeaderSet2 (h : Heap) (headers : List Header) (name value : Ptr) : List Header :=
  match headers with
  | [] => [⟨⟨name, (h.str name).length⟩, ⟨value, (h.str value).length⟩⟩]
  | e :: es =>
    if h.str name == h.str e.name.data then
      { e with value := ⟨value, (h.str value).length⟩ } :: es
    else e :: httpHeaderSet2 h es name value

/-- `http_header_str`; `none` is the NULL it returns. -/
def httpHeaderStr (h : Heap) (headers : List Header) (name : Str) : Option Str :=
  (headers.find? fun e => strncasecmpEq (h.str name.data) (h.str e.name.data) name.len).map
    (·.value)

/-- `http_header_int`; `none` when `atoi` is handed the NULL of an empty value. -/
def httpHeaderInt (h : Heap) (headers : List Header) (name : Str) : Option Int :=
  match httpHeaderStr h headers name with
  | none => some (-1)
  | some value => (h.cstr value.data).map atoi

/-! ## Which strings a table operation reads -/

theorem Heap.notMem_str (h : Heap) (p : Ptr) : NUL ∉ h.str p := by
  have htake : ∀ l : List Byte, NUL ∉ l.takeWhile (· != NUL) := by
    intro l hmem
    simpa using List.mem_takeWhile_imp hmem
  cases p with
  | null => simp [Heap.str, Heap.cstr]
  | buf k off => exact htake _
  | lit s => exact htake _

/-- Two heaps in which `p` denotes the same string. -/
def Heap.Agree (h h' : Heap) (p : Ptr) : Prop := h.cstr p = h'.cstr p

theorem Heap.Agree.str {h h' : Heap} {p : Ptr} (hp : h.Agree h' p) : h.str p = h'.str p := by
  simp only [Heap.str, show h.cstr p = h'.cstr p from hp]

theorem httpHeaderSet_agree {h h' : Heap} {headers : List Header} {name : Str} (value : Str)
    (hname : h.Agree h' name.data) (hs : ∀ e ∈ headers, h.Agree h' e.name.data) :
    httpHeaderSet h headers name value = httpHeaderSet h' headers name value := by
  induction headers with
  | nil => rfl
  | cons e es ih =>
      have he := (hs e (by simp)).str
      have hes := ih fun x hx => hs x (by simp [hx])
      simp only [httpHeaderSet, hname.str, he, hes]

/-- The names after `http_header_set` are the old ones and possibly the new one. -/
theorem mem_httpHeaderSet {h : Heap} {headers : List Header} {name value : Str} {e : Header}
    (he : e ∈ httpHeaderSet h headers name value) :
    (e.name = name ∧ e.value = value) ∨
      ∃ e' ∈ headers, e.name = e'.name ∧ (e.value = e'.value ∨ e.value = value) := by
  induction headers with
  | nil =>
      simp only [httpHeaderSet, List.mem_singleton] at he
      subst he
      exact Or.inl ⟨rfl, rfl⟩
  | cons x xs ih =>
      simp only [httpHeaderSet] at he
      split at he
      · rcases List.mem_cons.mp he with rfl | hmem
        · exact Or.inr ⟨x, by simp, rfl, Or.inr rfl⟩
        · exact Or.inr ⟨e, by simp [hmem], rfl, Or.inl rfl⟩
      · rcases List.mem_cons.mp he with rfl | hmem
        · exact Or.inr ⟨e, by simp, rfl, Or.inl rfl⟩
        · rcases ih hmem with h' | ⟨e', he', h'⟩
          · exact Or.inl h'
          · exact Or.inr ⟨e', by simp [he'], h'⟩

theorem httpHeaderStr_agree {h h' : Heap} {hs : List Header} (name : String)
    (hnames : ∀ e ∈ hs, h.Agree h' e.name.data) :
    httpHeaderStr h hs (.serverString name) = httpHeaderStr h' hs (.serverString name) := by
  have hfind : ∀ e ∈ hs, (strncasecmpEq (h.str (Str.serverString name).data) (h.str e.name.data)
      (Str.serverString name).len)
      = strncasecmpEq (h'.str (Str.serverString name).data) (h'.str e.name.data)
        (Str.serverString name).len := by
    intro e he
    rw [(hnames e he).str]
    rfl
  simp only [httpHeaderStr, List.find?_congr hfind]

theorem mem_of_httpHeaderStr {h : Heap} {hs : List Header} {name v : Str}
    (hv : httpHeaderStr h hs name = some v) : ∃ e ∈ hs, e.value = v := by
  simp only [httpHeaderStr, Option.map_eq_some_iff] at hv
  obtain ⟨e, he, rfl⟩ := hv
  exact ⟨e, List.mem_of_find?_eq_some he, rfl⟩

end XwpServer
