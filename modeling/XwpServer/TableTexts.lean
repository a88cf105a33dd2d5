/-
  XwpServer.TableTexts

  The header table by the texts of its names.

  `http_header_set` compares over the length of the new name, so a name stands for the
  first entry whose name it is a prefix of.  The table is one in which a new key may
  stand for an old one (`FirstMatch`).
-/

import XwpServer.HeadTable
import XwpServer.Lib.FirstMatch

namespace XwpServer

open CString FirstMatch

/-! ## Comparisons over a length -/

theorem take_append_nul {k e : List Byte} (hk : NUL ∉ k) :
    (e ++ [NUL]).take k.length = k ↔ k <+: e := by
  constructor
  · intro h
    by_cases hle : k.length ≤ e.length
    · rw [List.take_append_of_le_length hle] at h
      rw [← h]
      exact List.take_prefix _ _
    · have hmem : NUL ∈ (e ++ [NUL]).take k.length := by
        rw [List.take_of_length_le (by simp; omega)]
        simp
      exact absurd (h ▸ hmem) hk
  · rintro ⟨t, rfl⟩
    rw [List.append_assoc, List.take_left]

/-- `strncmp` over the length of the first string asks whether it is a prefix. -/
theorem strncmpEq_length {k e : List Byte} (hk : NUL ∉ k) :
    strncmpEq k e k.length = true ↔ k <+: e := by
  rw [strncmpEq, beq_iff_eq, List.take_left, eq_comm]
  exact take_append_nul hk

theorem tolower_ne_nul {c : Byte} (h : c ≠ NUL) : tolower c ≠ NUL := by
  intro h0
  apply h
  have hall : ∀ n < 256, tolower (UInt8.ofNat n) = NUL → UInt8.ofNat n = NUL := by decide +kernel
  have := hall c.toNat c.toNat_lt (by rw [UInt8.ofNat_toNat]; exact h0)
  rwa [UInt8.ofNat_toNat] at this

theorem notMem_map_tolower {k : List Byte} (hk : NUL ∉ k) : NUL ∉ k.map tolower := by
  intro hmem
  obtain ⟨c, hc, h0⟩ := List.mem_map.mp hmem
  exact tolower_ne_nul (fun h => hk (h ▸ hc)) h0

theorem strncasecmpEq_length {k e : List Byte} (hk : NUL ∉ k) :
    strncasecmpEq k e k.length = true ↔ k.map tolower <+: e.map tolower := by
  have := @strncmpEq_length (k.map tolower) (e.map tolower) (notMem_map_tolower hk)
  rwa [List.length_map] at this

/-- A comparison over a part of the second string. -/
theorem strncasecmpEq_take {e k : List Byte} {n : Nat} (hn : n ≤ k.length) (hk : NUL ∉ k) :
    strncasecmpEq e k n = true ↔ (k.take n).map tolower <+: e.map tolower := by
  have hlen : ((k.take n).map tolower).length = n := by simp [hn]
  have hz : NUL ∉ (k.take n).map tolower :=
    notMem_map_tolower fun h => hk (List.take_subset _ _ h)
  have htake : ((k.map tolower) ++ [NUL]).take n = (k.take n).map tolower := by
    rw [List.take_append_of_le_length (by simpa using hn), List.map_take]
  have hiff := @take_append_nul _ (e.map tolower) hz
  rw [hlen] at hiff
  rw [strncasecmpEq, strncmpEq, beq_iff_eq, htake]
  exact hiff

/-! ## The table -/

/-- The key of a name: its string and the length recorded with it. -/
abbrev NameKey := List Byte × Nat

/-- The comparison of `http_header_set`. -/
def nameHits (k e : NameKey) : Bool := strncmpEq k.1 e.1 k.2

def Heap.nameKey (h : Heap) (name : Str) : NameKey := (h.str name.data, name.len)

/-- A pair that was handed to `http_header_set`, by the key of its name. -/
def Heap.keyed (h : Heap) (p : Str × Str) : NameKey × Str := (h.nameKey p.1, p.2)

/-- An entry of a table, by the key of its name. -/
def Heap.entry (h : Heap) (e : Header) : NameKey × Str := (h.nameKey e.name, e.value)

theorem httpHeaderSet_entries (h : Heap) (table : List Header) (name value : Str) :
    (httpHeaderSet h table name value).map h.entry
      = put nameHits (table.map h.entry) (h.nameKey name) value := by
  induction table with
  | nil => rfl
  | cons e t ih =>
      simp only [httpHeaderSet, List.map_cons, put]
      have hcond : nameHits (h.nameKey name) (h.entry e).1
          = strncmpEq (h.str name.data) (h.str e.name.data) name.len := rfl
      rw [hcond]
      split
      · rfl
      · rw [List.map_cons, ih]

/-- The table of the pairs of a head. -/
theorem setAll_entries (h : Heap) (pairs : List (Str × Str)) :
    (setAll h pairs).map h.entry = build nameHits [] (pairs.map h.keyed) := by
  induction pairs using List.reverseRecOn with
  | nil => rfl
  | append_singleton pairs p ih =>
      rw [setAll_concat, httpHeaderSet_entries, ih, List.map_append, List.map_singleton,
        build_concat]
      rfl

/-! ## Lookups -/

/-- The comparison of `http_header_str` with one of the server's own names. -/
def isNamed (name : List Byte) (e : NameKey) : Bool := strncasecmpEq name e.1 name.length

theorem httpHeaderStr_entries (h : Heap) (table : List Header) (name : String)
    (hname : NUL ∉ bytes name) :
    httpHeaderStr h table (.serverString name)
      = ((table.map h.entry).find? fun e => isNamed (bytes name) e.1).map Prod.snd := by
  have hstr : h.str (Str.serverString name).data = bytes name := by
    have : (bytes name).takeWhile (· != NUL) = bytes name :=
      List.takeWhile_eq_self_iff.mpr fun c hc => by
        simpa using fun e : c = NUL => hname (e ▸ hc)
    simp only [Str.serverString, Heap.str, Heap.cstr, this, Option.getD_some]
  rw [httpHeaderStr, hstr, List.find?_map, Option.map_map]
  rfl

/-! ## Names with their length -/

/-- The key of a string that has its length. -/
def NameKey.Plain (k : NameKey) : Prop := k.2 = k.1.length ∧ NUL ∉ k.1

theorem nameHits_iff {k : NameKey} (hk : k.Plain) (e : NameKey) :
    nameHits k e = true ↔ k.1 <+: e.1 := by
  rw [nameHits, hk.1]
  exact strncmpEq_length hk.2

/-- The key of a string that is no longer than it says. -/
def NameKey.Ends (k : NameKey) : Prop := k.1.length ≤ k.2 ∧ NUL ∉ k.1

/-- Names in a buffer whose terminator is not behind their length. -/
theorem keyed_ends {h : Heap} {pairs : List (Str × Str)}
    (hnames : ∀ p ∈ pairs, ∃ k off, p.1.data = .buf k off ∧
      EndsBefore (h.buf k).mem off (off + p.1.len + 1)) :
    ∀ e ∈ pairs.map h.keyed, e.1.Ends := by
  intro e he
  obtain ⟨p, hp, rfl⟩ := List.mem_map.mp he
  obtain ⟨k, off, hdata, s, hs, hlt⟩ := hnames p hp
  show (h.str p.1.data).length ≤ p.1.len ∧ NUL ∉ h.str p.1.data
  rw [hdata, Heap.str, Heap.cstr, cstr_of_strAt hs, Option.getD_some]
  exact ⟨by omega, (strAt_eq_some_iff.mp hs).1⟩

/-- Such a name only hits names that it is a prefix of. -/
theorem prefix_of_nameHits {k e : NameKey} (hk : k.Ends) (h : nameHits k e = true) :
    k.1 <+: e.1 := by
  rcases Nat.eq_or_lt_of_le hk.1 with hlen | hlt
  · exact (nameHits_iff ⟨hlen.symm, hk.2⟩ e).mp h
  · -- the comparison reaches the terminator, so the two names are the same
    rw [nameHits, strncmpEq, beq_iff_eq, List.take_of_length_le (by simp; omega)] at h
    have hpre : k.1 ++ [NUL] <+: e.1 ++ [NUL] := h ▸ List.take_prefix _ _
    have hle := hpre.length_le
    simp only [List.length_append, List.length_singleton] at hle
    exact List.prefix_of_prefix_length_le ((List.prefix_append _ _).trans hpre)
      (List.prefix_append _ _) (by omega)

theorem isNamed_iff {name : List Byte} (hname : NUL ∉ name) (e : NameKey) :
    isNamed name e = true ↔ name.map tolower <+: e.1.map tolower :=
  strncasecmpEq_length hname

/-! ## The value that is found -/

/-- A name that is hit by one with the server's name has it as well. -/
theorem isNamed_of_nameHits {name : List Byte} (hname : NUL ∉ name) {k e : NameKey}
    (hk : k.Ends) (hn : isNamed name k = true) (h : nameHits k e = true) :
    isNamed name e = true := by
  rw [isNamed_iff hname] at hn ⊢
  exact hn.trans ((prefix_of_nameHits hk h).map tolower)

/-- The values that the header lines set the header `name` to: that of the first line with
    the name, and those of the later lines that stand for this line. -/
def Heap.headerPuts (h : Heap) (name : String) (pairs : List (Str × Str)) : List Str :=
  puts nameHits (isNamed (bytes name)) (pairs.map h.keyed)

theorem httpHeaderStr_setAll {h : Heap} {pairs : List (Str × Str)} {name : String}
    (hname : NUL ∉ bytes name) (hends : ∀ e ∈ pairs.map h.keyed, e.1.Ends) :
    httpHeaderStr h (setAll h pairs) (.serverString name) = (h.headerPuts name pairs).getLast? := by
  rw [httpHeaderStr_entries _ _ _ hname, setAll_entries, Heap.headerPuts]
  exact find_build fun p hp q _ hn hh => isNamed_of_nameHits hname (hends p hp) hn hh

end XwpServer
