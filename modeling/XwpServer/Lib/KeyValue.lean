/-
  XwpServer.Lib.KeyValue

  Sequences of keys and values, each with a 16-bit little-endian length in front.

  The decoder takes pairs until the bytes run out; it fails when a length reaches
  beyond them.
-/

import Mathlib.Algebra.GroupWithZero.Nat

namespace KeyValue

/-- A 16-bit number, low byte first. -/
def le16 (n : Nat) : List UInt8 := [n.toUInt8, (n / 256).toUInt8]

/-- The number two bytes denote. -/
def ofLe16 (lo hi : UInt8) : Nat := lo.toNat + 256 * hi.toNat

def encodeStr (s : List UInt8) : List UInt8 := le16 s.length ++ s

def encodePair (p : List UInt8 × List UInt8) : List UInt8 := encodeStr p.1 ++ encodeStr p.2

def encode (ps : List (List UInt8 × List UInt8)) : List UInt8 := ps.flatMap encodePair

/-- One string and what follows it. -/
def decodeStr : List UInt8 → Option (List UInt8 × List UInt8)
  | lo :: hi :: rest =>
    let n := ofLe16 lo hi
    if n ≤ rest.length then some (rest.take n, rest.drop n) else none
  | _ => none

/-- All pairs; `fuel` counts the bytes that may be left. -/
def decodeFuel : Nat → List UInt8 → Option (List (List UInt8 × List UInt8))
  | _, [] => some []
  | 0, _ :: _ => none
  | fuel + 1, bs => do
    let (k, bs) ← decodeStr bs
    let (v, bs) ← decodeStr bs
    return (k, v) :: (← decodeFuel fuel bs)

def decode (bs : List UInt8) : Option (List (List UInt8 × List UInt8)) := decodeFuel bs.length bs

@[simp] theorem le16_length (n : Nat) : (le16 n).length = 2 := rfl

@[simp] theorem encodeStr_length (s : List UInt8) : (encodeStr s).length = s.length + 2 := by
  simp [encodeStr, Nat.add_comm]

@[simp] theorem encodePair_length (p : List UInt8 × List UInt8) :
    (encodePair p).length = p.1.length + p.2.length + 4 := by
  simp only [encodePair, List.length_append, encodeStr_length]
  omega

@[simp] theorem encode_nil : encode [] = [] := rfl

theorem encode_cons (p : List UInt8 × List UInt8) (ps) :
    encode (p :: ps) = encodePair p ++ encode ps := rfl

theorem encode_append (ps qs : List (List UInt8 × List UInt8)) :
    encode (ps ++ qs) = encode ps ++ encode qs := List.flatMap_append

theorem encode_length (ps : List (List UInt8 × List UInt8)) :
    (encode ps).length = (ps.map fun p => p.1.length + p.2.length + 4).sum := by
  induction ps with
  | nil => rfl
  | cons p ps ih =>
      simp only [encode_cons, List.length_append, encodePair_length, ih, List.map_cons,
        List.sum_cons]

theorem length_le_encode {ps : List (List UInt8 × List UInt8)} {p : List UInt8 × List UInt8}
    (h : p ∈ ps) : p.1.length + p.2.length + 4 ≤ (encode ps).length := by
  induction ps with
  | nil => cases h
  | cons q ps ih =>
      rw [encode_cons, List.length_append, encodePair_length]
      rcases List.mem_cons.mp h with rfl | h
      · omega
      · have := ih h
        omega

theorem ofLe16_le16 {n : Nat} (h : n < 2 ^ 16) : ofLe16 n.toUInt8 (n / 256).toUInt8 = n := by
  simp only [ofLe16, Nat.toUInt8_eq, UInt8.toNat_ofNat']
  omega

theorem decodeStr_encodeStr {s : List UInt8} (h : s.length < 2 ^ 16) (rest : List UInt8) :
    decodeStr (encodeStr s ++ rest) = some (s, rest) := by
  simp only [encodeStr, le16, List.cons_append, List.nil_append, decodeStr, ofLe16_le16 h]
  simp

/-- What is encoded is decoded to the same pairs, if every length fits. -/
theorem decodeFuel_encode {ps : List (List UInt8 × List UInt8)}
    (h : ∀ p ∈ ps, p.1.length < 2 ^ 16 ∧ p.2.length < 2 ^ 16) {fuel : Nat}
    (hfuel : ps.length ≤ fuel) : decodeFuel fuel (encode ps) = some ps := by
  induction ps generalizing fuel with
  | nil => simp [decodeFuel]
  | cons p ps ih =>
      obtain ⟨fuel, rfl⟩ : ∃ f, fuel = f + 1 := ⟨fuel - 1, by simp at hfuel; omega⟩
      obtain ⟨hk, hv⟩ := h p (by simp)
      have ih := ih (fun q hq => h q (by simp [hq])) (by simpa using hfuel)
      have hcons : ∃ b bs, encode (p :: ps) = b :: bs := ⟨_, _, rfl⟩
      obtain ⟨b, bs, hb⟩ := hcons
      rw [hb, decodeFuel, ← hb, encode_cons, encodePair, List.append_assoc,
        decodeStr_encodeStr hk]
      · simp only [Option.bind_eq_bind, Option.bind_some, decodeStr_encodeStr hv, ih,
          Option.pure_def]
      · simp

theorem decode_encode {ps : List (List UInt8 × List UInt8)}
    (h : ∀ p ∈ ps, p.1.length < 2 ^ 16 ∧ p.2.length < 2 ^ 16) : decode (encode ps) = some ps := by
  refine decodeFuel_encode h ?_
  rw [encode_length]
  clear h
  induction ps with
  | nil => simp
  | cons p ps ih =>
      simp only [List.length_cons, List.map_cons, List.sum_cons]
      omega

end KeyValue
