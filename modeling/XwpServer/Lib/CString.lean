/-
  XwpServer.Lib.CString

  Bytes, the character classes of the C locale and the string functions of the
  C library, on zero-terminated strings that live in a block of memory.

  A block is a list of bytes and a pointer into it is an offset.  `strAt` is the
  string at an offset as a reader of the block sees it: it is undefined when no
  terminator follows inside the block.  `cstr` is its total version.  The
  comparison functions take the strings themselves, without terminators.
-/

import XwpServer.Lib.Scan

namespace CString

open Scan

/-- A `char`; all comparisons the C code makes agree on the signed and the
    unsigned reading. -/
abbrev Byte := UInt8

/-- The bytes of a string literal. -/
def bytes (s : String) : List Byte := s.toList.map fun c => c.toNat.toUInt8

abbrev NUL : Byte := 0
abbrev LF : Byte := 10
abbrev CR : Byte := 13
abbrev SP : Byte := 32
abbrev COLON : Byte := 58
abbrev SLASH : Byte := 47

/-- `isspace` in the C locale. -/
def isspace (c : Byte) : Bool := c == 32 || (9 ≤ c && c ≤ 13)

/-- `isdigit`. -/
def isdigit (c : Byte) : Bool := 48 ≤ c && c ≤ 57

/-- `tolower` on ASCII letters. -/
def tolower (c : Byte) : Byte := if 65 ≤ c && c ≤ 90 then c + 32 else c

@[simp] theorem isspace_NUL : isspace NUL = false := rfl
@[simp] theorem isspace_LF : isspace LF = true := rfl
@[simp] theorem isspace_CR : isspace CR = true := rfl
@[simp] theorem isspace_SP : isspace SP = true := rfl

theorem ne_NUL_of_isspace {c : Byte} (h : isspace c = true) : c ≠ NUL := by
  rintro rfl
  simp at h

/-! ## Strings in a block -/

/-- The string at offset `off`: the bytes before the first zero byte, if there is
    one in the block. -/
def strAt (m : List Byte) (off : Nat) : Option (List Byte) :=
  (scan (· != NUL) (m.drop off)).map ((m.drop off).take ·)

/-- The string at offset `off`, ended by the block's end if need be. -/
def cstr (m : List Byte) (off : Nat) : List Byte := (m.drop off).takeWhile (· != NUL)

/-- `strAt` finds `s` exactly when `s` and a terminator follow the offset. -/
theorem strAt_eq_some_iff {m : List Byte} {off : Nat} {s : List Byte} :
    strAt m off = some s ↔ NUL ∉ s ∧ ∃ b, m.drop off = s ++ NUL :: b := by
  constructor
  · intro h
    simp only [strAt, Option.map_eq_some_iff] at h
    obtain ⟨k, hk, rfl⟩ := h
    obtain ⟨a, c, b, hl, rfl, ha, hc⟩ := scan_split hk
    have hc' : c = NUL := by simpa using hc
    subst hc'
    refine ⟨?_, b, ?_⟩
    · rw [hl, List.take_left]
      intro hmem
      simpa using ha NUL hmem
    · rw [hl, List.take_left]
  · rintro ⟨hs, b, hb⟩
    have hscan : scan (· != NUL) (m.drop off) = some s.length := by
      rw [hb]
      refine scan_append_cons b (fun x hx => ?_) (by simp)
      simpa using fun h : x = NUL => hs (h ▸ hx)
    rw [strAt, hscan, hb]
    simp

theorem cstr_of_strAt {m : List Byte} {off : Nat} {s : List Byte}
    (h : strAt m off = some s) : cstr m off = s := by
  obtain ⟨hs, b, hb⟩ := strAt_eq_some_iff.mp h
  rw [cstr, hb, List.takeWhile_append_of_pos]
  · simp
  · intro x hx
    simpa using fun h : x = NUL => hs (h ▸ hx)

theorem strAt_frame {m : List Byte} {off : Nat} {s : List Byte}
    (h : strAt m off = some s) (pre post : List Byte) :
    strAt (pre ++ m ++ post) (pre.length + off) = some s := by
  obtain ⟨hs, b, hb⟩ := strAt_eq_some_iff.mp h
  have hoff : off ≤ m.length := by
    have := congrArg List.length hb
    simp only [List.length_drop, List.length_append, List.length_cons] at this
    omega
  refine strAt_eq_some_iff.mpr ⟨hs, b ++ post, ?_⟩
  rw [drop_frame pre m post hoff, hb]
  simp

/-- Writing a terminator behind `s`. -/
theorem strAt_set_end {m s b : List Byte} {off : Nat} {c : Byte}
    (h : m.drop off = s ++ c :: b) (hs : NUL ∉ s) :
    strAt (m.set (off + s.length) NUL) off = some s := by
  refine strAt_eq_some_iff.mpr ⟨hs, b, ?_⟩
  rw [List.drop_set, if_neg (by omega), Nat.add_sub_cancel_left, h]
  simp

/-- A write behind the terminator of a string does not change it. -/
theorem strAt_set_after {m s : List Byte} {off i : Nat} (h : strAt m off = some s)
    (hi : off + s.length < i) (c : Byte) : strAt (m.set i c) off = some s := by
  obtain ⟨hs, b, hb⟩ := strAt_eq_some_iff.mp h
  refine strAt_eq_some_iff.mpr ⟨hs, b.set (i - off - s.length - 1) c, ?_⟩
  have hne : i - off ≠ 0 := by omega
  obtain ⟨j, hj⟩ : ∃ j, i = off + s.length + 1 + j := ⟨i - (off + s.length + 1), by omega⟩
  subst hj
  rw [List.drop_set, if_neg (by omega), hb, List.set_append_right _ _ (by omega)]
  have h₁ : off + s.length + 1 + j - off - s.length = j + 1 := by omega
  rw [h₁, List.set_cons_succ]
  congr 3

theorem length_lt_of_strAt {m s : List Byte} {off : Nat} (h : strAt m off = some s) :
    off + s.length < m.length := by
  obtain ⟨-, b, hb⟩ := strAt_eq_some_iff.mp h
  have := congrArg List.length hb
  simp only [List.length_drop, List.length_append, List.length_cons] at this
  omega

/-! ## Comparison -/

/-- `strncmp(a, b, n) == 0`. -/
def strncmpEq (a b : List Byte) (n : Nat) : Bool :=
  (a ++ [NUL]).take n == (b ++ [NUL]).take n

/-- `strncasecmp(a, b, n) == 0`. -/
def strncasecmpEq (a b : List Byte) (n : Nat) : Bool :=
  strncmpEq (a.map tolower) (b.map tolower) n

/-- `strcasecmp(a, b) == 0`. -/
def strcasecmpEq (a b : List Byte) : Bool := a.map tolower == b.map tolower

/-- `strstr`: the part of `h` that starts at the first occurrence of `n`. -/
def strstr (h n : List Byte) : Option (List Byte) :=
  match h with
  | [] => if n.isEmpty then some [] else none
  | c :: cs => if n.isPrefixOf (c :: cs) then some (c :: cs) else strstr cs n

/-! ## Numbers -/

/-- The number a string of decimal digits denotes. -/
def decVal (s : List Byte) : Nat := s.foldl (fun acc c => acc * 10 + (c.toNat - 48)) 0

/-- Conversion of a `long` to an `int`. -/
def toInt32 (x : Int) : Int := Int.bmod x (2 ^ 32)

/-- `atoi`: `strtol` saturating to a 64-bit `long`, then cut down to an `int`. -/
def atoi (s : List Byte) : Int :=
  let s := s.dropWhile isspace
  let neg := s.head? == some 45
  let s := if s.head? == some 45 || s.head? == some 43 then s.tail else s
  let n : Int := decVal (s.takeWhile isdigit)
  toInt32 (if neg then max (-2 ^ 63) (-n) else min (2 ^ 63 - 1) n)

theorem toInt32_of_lt {x : Int} (h₀ : 0 ≤ x) (h : x < 2 ^ 31) : toInt32 x = x := by
  unfold toInt32
  rw [Int.bmod_def]
  omega

theorem isdigit_of_isspace {c : Byte} (h : isspace c = true) : isdigit c = false := by
  simp only [isspace, Bool.or_eq_true, beq_iff_eq, Bool.and_eq_true, decide_eq_true_eq,
    UInt8.le_iff_toNat_le, ← UInt8.toNat_inj, UInt8.reduceToNat] at h
  simp only [isdigit, Bool.and_eq_false_iff, decide_eq_false_iff_not, UInt8.le_iff_toNat_le,
    UInt8.reduceToNat]
  omega

/-- `atoi` of decimal digits, up to the first byte that is none. -/
theorem atoi_digits_append {s t : List Byte} (hne : s ≠ []) (hs : ∀ c ∈ s, isdigit c = true)
    (ht : ∀ c ∈ t.head?, isdigit c = false) :
    atoi (s ++ t) = toInt32 (min (2 ^ 63 - 1) (decVal s)) := by
  obtain ⟨c, cs, rfl⟩ := List.exists_cons_of_ne_nil hne
  have hc := hs c (by simp)
  have hrange : 48 ≤ c.toNat ∧ c.toNat ≤ 57 := by
    simpa [isdigit, UInt8.le_iff_toNat_le] using hc
  have hspace : isspace c = false := by
    by_contra hspace
    rw [isdigit_of_isspace (by simpa using hspace)] at hc
    cases hc
  have hminus : c ≠ 45 := by
    rintro rfl
    simp at hrange
  have hplus : c ≠ 43 := by
    rintro rfl
    simp at hrange
  have hrest : t.takeWhile isdigit = [] := by
    rcases t with _ | ⟨d, t⟩
    · rfl
    · rw [List.takeWhile_cons, ht d rfl]
      rfl
  have htake : (c :: cs ++ t).takeWhile isdigit = c :: cs := by
    rw [List.takeWhile_append_of_pos hs, hrest, List.append_nil]
  rw [List.cons_append] at htake ⊢
  simp [atoi, hspace, hminus, hplus, htake]

/-- `atoi` of decimal digits. -/
theorem atoi_of_digits {s : List Byte} (hne : s ≠ []) (hs : ∀ c ∈ s, isdigit c = true) :
    atoi s = toInt32 (min (2 ^ 63 - 1) (decVal s)) := by
  have h := atoi_digits_append (t := []) hne hs (by simp)
  rwa [List.append_nil] at h

/-- The difference of two pointers stored in a `size_t`. -/
def ptrDiff (a b : Nat) : Nat := (((a : Int) - (b : Int)) % 2 ^ 64).toNat

theorem ptrDiff_of_le {a b : Nat} (h : b ≤ a) (ha : a < 2 ^ 64) : ptrDiff a b = a - b := by
  unfold ptrDiff
  omega

example : atoi (bytes " -12x") = -12 := by decide
example : atoi (bytes "4294967298") = 2 := by decide

end CString
