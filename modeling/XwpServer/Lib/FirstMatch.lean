/-
  XwpServer.Lib.FirstMatch

  Tables in which a new key may stand for an old one.

  A key hits some keys of a table.  Putting a value under a key replaces the value of
  the first entry the key hits, and keeps that entry's key; a key that hits none makes
  an entry of its own.
-/

import Mathlib.Data.List.Induction
import Mathlib.Data.List.TakeWhile

namespace FirstMatch

variable {κ ν : Type _} (hits : κ → κ → Bool)

def put : List (κ × ν) → κ → ν → List (κ × ν)
  | [], k, v => [(k, v)]
  | e :: t, k, v => if hits k e.1 then (e.1, v) :: t else e :: put t k v

/-- Put the pairs of a list, one after the other. -/
def build (t l : List (κ × ν)) : List (κ × ν) := l.foldl (fun t p => put hits t p.1 p.2) t

/-- The keys that make entries of their own. -/
def firsts (t l : List κ) : List κ := l.foldl (fun t k => if t.any (hits k) then t else t ++ [k]) t

/-- Whether a pair that is put replaces the value of the entry `k` behind the entries
    with the keys `before`. -/
def reaches (before : List κ) (k : κ) (p : κ × ν) : Bool := hits p.1 k && !before.any (hits p.1)

/-- The value of the entry `k` behind the entries with the keys `before`, when the pairs of
    `l` have been put. -/
def lastValue (before : List κ) (k : κ) (v : ν) (l : List (κ × ν)) : ν :=
  ((l.filter (reaches hits before k)).map Prod.snd).getLastD v

variable {hits} {t u l : List (κ × ν)} {k : κ} {v : ν}

@[simp] theorem build_nil (t : List (κ × ν)) : build hits t [] = t := rfl

@[simp] theorem build_cons (t l : List (κ × ν)) (p : κ × ν) :
    build hits t (p :: l) = build hits (put hits t p.1 p.2) l := rfl

theorem build_append (t l l' : List (κ × ν)) :
    build hits t (l ++ l') = build hits (build hits t l) l' := List.foldl_append

/-! ## One pair -/

theorem put_append_of_miss (h : ∀ e ∈ t, hits k e.1 = false) :
    put hits (t ++ u) k v = t ++ put hits u k v := by
  induction t with
  | nil => rfl
  | cons e t ih =>
      simp only [List.cons_append, put, h e (by simp), Bool.false_eq_true, if_false]
      rw [ih fun e he => h e (by simp [he])]

theorem put_of_miss (h : ∀ e ∈ t, hits k e.1 = false) : put hits t k v = t ++ [(k, v)] := by
  have := put_append_of_miss (u := []) (v := v) h
  simpa [put] using this

theorem put_append_of_hit (h : ∃ e ∈ t, hits k e.1 = true) :
    put hits (t ++ u) k v = put hits t k v ++ u := by
  induction t with
  | nil => simp at h
  | cons e t ih =>
      simp only [List.cons_append, put]
      by_cases he : hits k e.1 = true
      · simp [he]
      · simp only [he, Bool.false_eq_true, if_false, List.cons_append]
        rw [ih]
        obtain ⟨e', he', hh⟩ := h
        rcases List.mem_cons.mp he' with rfl | he'
        · exact absurd hh he
        · exact ⟨e', he', hh⟩

/-- Putting a pair adds an entry, or replaces the value of the first one that is hit. -/
theorem put_cases (t : List (κ × ν)) (k : κ) (v : ν) :
    (put hits t k v = t ++ [(k, v)] ∧ ∀ e ∈ t, hits k e.1 = false) ∨
      ∃ t₁ e w t₂, t = t₁ ++ (e, w) :: t₂ ∧ (∀ x ∈ t₁, hits k x.1 = false) ∧ hits k e = true ∧
        put hits t k v = t₁ ++ (e, v) :: t₂ := by
  induction t with
  | nil => exact .inl ⟨rfl, by simp⟩
  | cons x t ih =>
      by_cases hx : hits k x.1 = true
      · exact .inr ⟨[], x.1, x.2, t, rfl, by simp, hx, by simp [put, hx]⟩
      have hput : put hits (x :: t) k v = x :: put hits t k v := by simp [put, hx]
      have hx : hits k x.1 = false := by simpa using hx
      rcases ih with ⟨h, hmiss⟩ | ⟨t₁, e, w, t₂, rfl, hmiss, hh, h⟩
      · exact .inl ⟨by rw [hput, h]; rfl, by simpa [hx] using hmiss⟩
      · exact .inr ⟨x :: t₁, e, w, t₂, rfl, by simpa [hx] using hmiss, hh, by rw [hput, h]; rfl⟩

/-- An entry behind a put was there, or has the new value. -/
theorem mem_put {e : κ × ν} (he : e ∈ put hits t k v) :
    e ∈ t ∨ (v = e.2 ∧ (k = e.1 ∨ (hits k e.1 = true ∧ ∃ q ∈ t, q.1 = e.1))) := by
  rcases @put_cases _ _ hits t k v with ⟨h, -⟩ | ⟨t₁, e₁, w, t₂, rfl, -, hh, h⟩
  · rw [h] at he
    rcases List.mem_append.mp he with he | he
    · exact .inl he
    · rw [List.mem_singleton.mp he]
      exact .inr ⟨rfl, .inl rfl⟩
  · rw [h] at he
    rcases List.mem_append.mp he with he | he
    · exact .inl (List.mem_append_left _ he)
    rcases List.mem_cons.mp he with rfl | he
    · exact .inr ⟨rfl, .inr ⟨hh, (e₁, w), by simp, rfl⟩⟩
    · exact .inl (by simp [he])

/-- A pair that is not of a kind, and hits no entry of it, leaves the entries of that kind. -/
theorem filter_put {keep : κ → Bool} (hk : keep k = false)
    (ht : ∀ e ∈ t, hits k e.1 = true → keep e.1 = false) :
    (put hits t k v).filter (keep ·.1) = t.filter (keep ·.1) := by
  rcases @put_cases _ _ hits t k v with ⟨h, -⟩ | ⟨t₁, e, w, t₂, rfl, -, hh, h⟩
  · rw [h, List.filter_append]
    simp [hk]
  · have he : keep e = false := ht (e, w) (by simp) hh
    rw [h, List.filter_append, List.filter_append]
    simp [he]

/-- Putting a pair keeps the keys and may add one. -/
theorem put_keys (t : List (κ × ν)) (k : κ) (v : ν) :
    (put hits t k v).map Prod.fst
      = if (t.map Prod.fst).any (hits k) then t.map Prod.fst else t.map Prod.fst ++ [k] := by
  induction t with
  | nil => rfl
  | cons e t ih =>
      simp only [put, List.map_cons, List.any_cons]
      by_cases he : hits k e.1 = true
      · simp [he]
      · simp only [he, Bool.false_eq_true, if_false, List.map_cons, ih, Bool.false_or]
        split <;> rfl

/-- A table seen through a map of keys that respects `hits`. -/
theorem put_map {κ' ν' : Type _} {hits' : κ' → κ' → Bool} (f : κ → κ') (g : ν → ν')
    (h : ∀ e ∈ t, hits' (f k) (f e.1) = hits k e.1) :
    (put hits t k v).map (Prod.map f g) = put hits' (t.map (Prod.map f g)) (f k) (g v) := by
  induction t with
  | nil => rfl
  | cons e t ih =>
      simp only [put, List.map_cons, Prod.map_fst, h e (by simp)]
      by_cases he : hits k e.1 = true
      · simp [he]
      · simp only [he, Bool.false_eq_true, if_false, List.map_cons]
        rw [ih fun e he => h e (by simp [he])]

/-! ## Many pairs -/

theorem build_keys (t l : List (κ × ν)) :
    (build hits t l).map Prod.fst = firsts hits (t.map Prod.fst) (l.map Prod.fst) := by
  induction l generalizing t with
  | nil => rfl
  | cons p l ih =>
      rw [build_cons, ih, put_keys]
      rfl

/-- Keys that hit no earlier one are entries in their order. -/
theorem build_of_miss (h : (t ++ l).Pairwise fun p q => hits q.1 p.1 = false) :
    build hits t l = t ++ l := by
  induction l generalizing t with
  | nil => simp
  | cons p l ih =>
      have hp : ∀ e ∈ t, hits p.1 e.1 = false :=
        fun e he => (List.pairwise_append.mp h).2.2 e he p (by simp)
      rw [build_cons, put_of_miss hp, ih (by simpa using h)]
      simp

/-- What becomes of an entry when further pairs are put. -/
theorem build_entry (t u l : List (κ × ν)) (k : κ) (v : ν) :
    ∃ t' u', build hits (t ++ (k, v) :: u) l
        = t' ++ (k, lastValue hits (t.map Prod.fst) k v l) :: u' ∧
      t'.map Prod.fst = t.map Prod.fst := by
  -- on the pairs; each hits an entry in front, the entry itself, or one behind it
  induction l generalizing t u v with
  | nil => exact ⟨t, u, rfl, rfl⟩
  | cons p l ih =>
      rw [build_cons]
      by_cases ht : ∃ e ∈ t, hits p.1 e.1 = true
      · have hany : (t.map Prod.fst).any (hits p.1) = true := by simpa using ht
        rw [put_append_of_hit ht]
        obtain ⟨t', u', hb, hk⟩ := ih (put hits t p.1 p.2) u v
        rw [put_keys, if_pos hany] at hb hk
        refine ⟨t', u', ?_, hk⟩
        rw [hb]
        simp [lastValue, reaches, hany]
      · have hmiss : ∀ e ∈ t, hits p.1 e.1 = false := by simpa using ht
        have hany : (t.map Prod.fst).any (hits p.1) = false := by simpa using hmiss
        rw [put_append_of_miss hmiss]
        by_cases hh : hits p.1 k = true
        · obtain ⟨t', u', hb, hk⟩ := ih t u p.2
          refine ⟨t', u', ?_, hk⟩
          rw [put, if_pos hh, hb]
          have hr : reaches hits (t.map Prod.fst) k p = true := by simp [reaches, hh, hany]
          simp only [lastValue, List.filter_cons, hr, if_true, List.map_cons, List.getLastD_cons]
        · obtain ⟨t', u', hb, hk⟩ := ih t (put hits u p.1 p.2) v
          refine ⟨t', u', ?_, hk⟩
          rw [put, if_neg hh, hb]
          have hr : reaches hits (t.map Prod.fst) k p = false := by simp [reaches, hh]
          simp only [lastValue, List.filter_cons, hr, Bool.false_eq_true, if_false]

/-! ## Tables from nothing -/

theorem build_concat (l : List (κ × ν)) (p : κ × ν) :
    build hits [] (l ++ [p]) = put hits (build hits [] l) p.1 p.2 := by
  rw [build_append]
  rfl

theorem firsts_concat (l : List κ) (k : κ) :
    firsts hits [] (l ++ [k])
      = if (firsts hits [] l).any (hits k) then firsts hits [] l else firsts hits [] l ++ [k] := by
  rw [firsts, List.foldl_append]
  rfl

/-- A key makes an entry or hits one. -/
theorem firsts_of_mem {l : List κ} {k : κ} (hk : k ∈ l) :
    k ∈ firsts hits [] l ∨ ∃ e ∈ firsts hits [] l, hits k e = true := by
  induction l using List.reverseRecOn with
  | nil => simp at hk
  | append_singleton l x ih =>
      rw [firsts_concat]
      rcases List.mem_append.mp hk with hk | hk
      · rcases ih hk with h | ⟨e, he, hh⟩
        · left
          split
          · exact h
          · exact List.mem_append_left _ h
        · right
          refine ⟨e, ?_, hh⟩
          split
          · exact he
          · exact List.mem_append_left _ he
      · rw [List.mem_singleton.mp hk]
        split
        · next hany => exact .inr (by simpa using hany)
        · exact .inl (by simp)

theorem mem_of_mem_firsts {l : List κ} {k : κ} (hk : k ∈ firsts hits [] l) : k ∈ l := by
  induction l using List.reverseRecOn with
  | nil => simp [firsts] at hk
  | append_singleton l x ih =>
      rw [firsts_concat] at hk
      split at hk
      · exact List.mem_append_left _ (ih hk)
      · rcases List.mem_append.mp hk with hk | hk
        · exact List.mem_append_left _ (ih hk)
        · exact List.mem_append_right _ hk

theorem keys_build (l : List (κ × ν)) :
    (build hits [] l).map Prod.fst = firsts hits [] (l.map Prod.fst) := build_keys [] l

/-- An entry has the value of its own pair, or of a later pair that hits its key. -/
theorem mem_build {l : List (κ × ν)} {e : κ × ν} (he : e ∈ build hits [] l) :
    ∃ t p u, l = t ++ p :: u ∧ p.2 = e.2 ∧
      (p.1 = e.1 ∨ (hits p.1 e.1 = true ∧ ∃ q ∈ t, q.1 = e.1)) := by
  -- on the last pair
  induction l using List.reverseRecOn generalizing e with
  | nil => simp at he
  | append_singleton l x ih =>
      rw [build_concat] at he
      rcases mem_put he with h | ⟨hv, h⟩
      · obtain ⟨t, p, u, rfl, hpe⟩ := ih h
        exact ⟨t, p, u ++ [x], by simp, hpe⟩
      · refine ⟨l, x, [], rfl, hv, h.imp_right ?_⟩
        rintro ⟨hh, q, hq, hk⟩
        refine ⟨hh, ?_⟩
        have hmem : q.1 ∈ firsts hits [] (l.map Prod.fst) := by
          rw [← keys_build]
          exact List.mem_map_of_mem hq
        obtain ⟨y, hy, hyk⟩ := List.mem_map.mp (mem_of_mem_firsts hmem)
        exact ⟨y, hy, hyk.trans hk⟩

/-! ## Entries of a kind

Some keys are to be kept.  When each of them makes an entry of its own and no other key
hits one, the entries of the kept keys are their pairs. -/

section Keep

variable (keep : κ → Bool)

theorem build_filter {l : List (κ × ν)}
    (hmiss : l.Pairwise fun p q => keep q.1 = true → hits q.1 p.1 = false)
    (hdrop : ∀ p ∈ l, ∀ q ∈ l, keep p.1 = false → hits p.1 q.1 = true → keep q.1 = false) :
    (build hits [] l).filter (keep ·.1) = l.filter (keep ·.1) := by
  induction l using List.reverseRecOn with
  | nil => rfl
  | append_singleton l x ih =>
      obtain ⟨hl, -, hx⟩ := List.pairwise_append.mp hmiss
      have ih := ih hl fun p hp q hq =>
        hdrop p (List.mem_append_left _ hp) q (List.mem_append_left _ hq)
      have hkeys : ∀ e ∈ build hits [] l, ∃ p ∈ l, p.1 = e.1 := by
        intro e he
        have : e.1 ∈ firsts hits [] (l.map Prod.fst) := by
          rw [← keys_build]
          exact List.mem_map_of_mem he
        simpa using mem_of_mem_firsts this
      rw [build_concat, List.filter_append, ← ih]
      -- a kept key makes an entry of its own, and another key hits no kept one
      by_cases hk : keep x.1 = true
      · have hput : put hits (build hits [] l) x.1 x.2 = build hits [] l ++ [x] := by
          apply put_of_miss
          intro e he
          obtain ⟨p, hp, hpe⟩ := hkeys e he
          rw [← hpe]
          exact hx p hp x (by simp) hk
        rw [hput, List.filter_append]
      · have hk : keep x.1 = false := by simpa using hk
        rw [filter_put hk fun e he hh => ?_]
        · simp [hk]
        · obtain ⟨p, hp, hpe⟩ := hkeys e he
          rw [← hpe]
          refine hdrop x (by simp) p (List.mem_append_left _ hp) hk ?_
          rw [hpe]
          exact hh

variable {want : κ → Bool}

/-- There are no more entries to keep than keys that are wanted. -/
theorem countP_firsts_le {l : List κ} (hkeep : ∀ k ∈ l, keep k = true → want k = true) :
    (firsts hits [] l).countP keep ≤ l.countP want := by
  induction l using List.reverseRecOn with
  | nil => exact Nat.le_refl _
  | append_singleton l x ih =>
      have ih := ih fun k hk => hkeep k (List.mem_append_left _ hk)
      rw [firsts_concat, List.countP_append]
      split
      · exact Nat.le_trans ih (Nat.le_add_right _ _)
      · rw [List.countP_append, List.countP_singleton, List.countP_singleton]
        have hx := hkeep x (by simp)
        cases hk : keep x
        · exact Nat.le_trans ih (Nat.le_add_right _ _)
        · rw [hx hk]
          exact Nat.add_le_add_right ih _

/-- When there are as many, every wanted key is kept and hits no earlier one. -/
theorem kept_of_countP_firsts {l : List κ}
    (htrans : ∀ a ∈ l, want a = true → ∀ b ∈ l, ∀ c ∈ l, hits a b = true → hits b c = true →
      hits a c = true)
    (hkeep : ∀ k ∈ l, keep k = true → want k = true)
    (hcount : (firsts hits [] l).countP keep = l.countP want) :
    (∀ k ∈ l, want k = true → keep k = true) ∧
      l.Pairwise fun p q => want q = true → hits q p = false := by
  induction l using List.reverseRecOn with
  | nil => exact ⟨by simp, .nil⟩
  | append_singleton l x ih =>
      have hkeep' : ∀ k ∈ l, keep k = true → want k = true :=
        fun k hk => hkeep k (List.mem_append_left _ hk)
      have hle := @countP_firsts_le _ hits keep _ _ hkeep'
      have ih := ih (fun a ha hwa b hb c hc => htrans a (List.mem_append_left _ ha) hwa b
        (List.mem_append_left _ hb) c (List.mem_append_left _ hc)) hkeep'
      rw [firsts_concat, List.countP_append, List.countP_singleton] at hcount
      have hlast : ∀ k ∈ l ++ [x], k ∈ l ∨ k = x := fun k hk => by simpa using hk
      cases hx : want x
      · -- the new key is not wanted, and so it is not kept
        have hk : keep x = false := by
          by_contra h
          have := hkeep x (by simp) (by simpa using h)
          rw [hx] at this
          cases this
        have hold : (firsts hits [] l).countP keep = l.countP want := by
          split at hcount
          · simpa [hx] using hcount
          · simpa [hx, hk, List.countP_append, List.countP_singleton] using hcount
        obtain ⟨hw, hp⟩ := ih hold
        refine ⟨fun k hkm hkw => ?_, List.pairwise_append.mpr ⟨hp, by simp, ?_⟩⟩
        · rcases hlast k hkm with h | rfl
          · exact hw k h hkw
          · rw [hx] at hkw
            cases hkw
        · intro p _ q hq hqw
          rw [List.mem_singleton.mp hq, hx] at hqw
          cases hqw
      · -- the new key is wanted: it makes an entry of its own that is kept
        rw [hx, if_pos rfl] at hcount
        split at hcount
        · omega
        next hany =>
        rw [List.countP_append, List.countP_singleton] at hcount
        have hk : keep x = true := by
          by_contra h
          rw [if_neg h] at hcount
          omega
        rw [if_pos hk] at hcount
        obtain ⟨hw, hp⟩ := ih (by omega)
        refine ⟨fun k hkm hkw => ?_, List.pairwise_append.mpr ⟨hp, by simp, ?_⟩⟩
        · rcases hlast k hkm with h | rfl
          · exact hw k h hkw
          · exact hk
        · intro p hpm q hq _
          rw [List.mem_singleton.mp hq]
          by_contra hh
          have hh : hits x p = true := by simpa using hh
          apply hany
          rw [List.any_eq_true]
          rcases @firsts_of_mem _ hits _ _ hpm with he | ⟨e, he, hpe⟩
          · exact ⟨p, he, hh⟩
          · exact ⟨e, he, htrans x (by simp) hx p (List.mem_append_left _ hpm) e
              (List.mem_append_left _ (mem_of_mem_firsts he)) hh hpe⟩

end Keep

/-! ## Lookups -/

/-- The values that are put under the first key with a property: its own, and those that
    replace it later. -/
def puts (hits : κ → κ → Bool) (P : κ → Bool) (l : List (κ × ν)) : List ν :=
  let before := firsts hits [] ((l.takeWhile (!P ·.1)).map Prod.fst)
  match l.dropWhile (!P ·.1) with
  | [] => []
  | p :: u => p.2 :: (u.filter (reaches hits before p.1)).map Prod.snd

/-- The values may be translated before or after. -/
theorem puts_map {P : κ → Bool} {ν' : Type _} (g : ν → ν') (l : List (κ × ν)) :
    puts hits P (l.map fun x => (x.1, g x.2)) = (puts hits P l).map g := by
  have hkeys : ((l.map fun x => (x.1, g x.2)).takeWhile (!P ·.1)).map Prod.fst
      = (l.takeWhile (!P ·.1)).map Prod.fst := by
    rw [List.takeWhile_map, List.map_map]
    rfl
  have hrest : (l.map fun x => (x.1, g x.2)).dropWhile (!P ·.1)
      = (l.dropWhile (!P ·.1)).map fun x => (x.1, g x.2) := by
    rw [List.dropWhile_map]
    rfl
  simp only [puts, hkeys, hrest]
  cases l.dropWhile (!P ·.1) with
  | nil => rfl
  | cons p u =>
      simp only [List.map_cons, List.filter_map, List.map_map]
      rfl
/-- A value that is put under the first key with a property is that of its pair, or of a pair
    whose key hits it. -/
theorem mem_puts {P : κ → Bool} (h : v ∈ puts hits P l) :
    ∃ p ∈ l, P p.1 = true ∧ ∃ q ∈ l, q.2 = v ∧ (q = p ∨ hits q.1 p.1 = true) := by
  have hhead := List.head?_dropWhile_not (fun x : κ × ν => !P x.1) l
  have hsub := List.dropWhile_suffix (fun x : κ × ν => !P x.1) (l := l)
  unfold puts at h
  dsimp only at h
  cases hd : l.dropWhile (!P ·.1) with
  | nil =>
      rw [hd] at h
      cases h
  | cons p u =>
      rw [hd] at h hhead hsub
      have hp : P p.1 = true := by simpa using hhead
      refine ⟨p, hsub.subset (by simp), hp, ?_⟩
      rcases List.mem_cons.mp h with rfl | h
      · exact ⟨p, hsub.subset (by simp), rfl, .inl rfl⟩
      · obtain ⟨q, hq, rfl⟩ := List.mem_map.mp h
        obtain ⟨hq, hreach⟩ := List.mem_filter.mp hq
        simp only [reaches, Bool.and_eq_true] at hreach
        exact ⟨q, hsub.subset (by simp [hq]), rfl, .inr hreach.1⟩

/-- Nothing is put under a key with a property when there is none. -/
theorem not_of_puts_nil {P : κ → Bool} (h : puts hits P l = []) {p : κ × ν} (hp : p ∈ l) :
    P p.1 ≠ true := by
  unfold puts at h
  dsimp only at h
  cases hd : l.dropWhile (!P ·.1) with
  | nil =>
      have := List.dropWhile_eq_nil_iff.mp hd p hp
      simpa using this
  | cons q u =>
      rw [hd] at h
      cases h

/-- A property that no key of a list has is not found in its table. -/
theorem find_firsts_none {P : κ → Bool} {t t' : List (κ × ν)}
    (hkeys : t'.map Prod.fst = firsts hits [] (t.map Prod.fst)) (ht : ∀ q ∈ t, P q.1 = false) :
    t'.find? (fun e => P e.1) = none := by
  apply List.find?_eq_none.mpr
  intro e he
  have hkey : e.1 ∈ firsts hits [] (t.map Prod.fst) := by
    rw [← hkeys]
    exact List.mem_map_of_mem he
  obtain ⟨q, hq, hqe⟩ := List.mem_map.mp (mem_of_mem_firsts hkey)
  rw [← hqe, ht q hq]
  exact Bool.false_ne_true

/-- The entry that is found by a property which every key has that is hit by one with it
    has the last of these values. -/
theorem find_build {P : κ → Bool} {l : List (κ × ν)}
    (hhit : ∀ p ∈ l, ∀ q ∈ l, P p.1 = true → hits p.1 q.1 = true → P q.1 = true) :
    ((build hits [] l).find? fun e => P e.1).map Prod.snd = (puts hits P l).getLast? := by
  have hsplit := List.takeWhile_append_dropWhile (p := fun e : κ × ν => !P e.1) (l := l)
  have hbefore : ∀ q ∈ l.takeWhile (!P ·.1), P q.1 = false := fun q hq => by
    simpa using List.mem_takeWhile_imp hq
  generalize ht : l.takeWhile (!P ·.1) = t at hsplit hbefore
  rcases hd : l.dropWhile (!P ·.1) with _ | ⟨p, u⟩
  · -- no key has the property
    rw [hd, List.append_nil] at hsplit
    rw [← hsplit] at hd ⊢
    rw [find_firsts_none (keys_build t) hbefore, puts, hd]
    rfl
  · have hp : P p.1 = true := by
      have := List.head?_dropWhile_not (fun e : κ × ν => !P e.1) l
      simpa [hd] using this
    rw [hd] at hsplit
    -- the first key with the property makes an entry of its own
    have hmiss : ∀ e ∈ build hits [] t, hits p.1 e.1 = false := by
      intro e he
      by_contra hh
      have hkey : e.1 ∈ firsts hits [] (t.map Prod.fst) := by
        rw [← keys_build]
        exact List.mem_map_of_mem he
      obtain ⟨q, hq, hqe⟩ := List.mem_map.mp (mem_of_mem_firsts hkey)
      have hP := hhit p (by simp [← hsplit]) q (by simp [← hsplit, hq]) hp
        (by simpa [hqe] using hh)
      rw [hbefore q hq] at hP
      cases hP
    obtain ⟨t', u', hb, hkeys⟩ : ∃ t' u', build hits (build hits [] t ++ (p.1, p.2) :: []) u
        = t' ++ (p.1, lastValue hits ((build hits [] t).map Prod.fst) p.1 p.2 u) :: u' ∧
        t'.map Prod.fst = (build hits [] t).map Prod.fst := build_entry _ [] u p.1 p.2
    rw [keys_build] at hb hkeys
    have hfind : (build hits [] l).find? (fun e => P e.1)
        = some (p.1, lastValue hits (firsts hits [] (t.map Prod.fst)) p.1 p.2 u) := by
      rw [← hsplit, build_append, build_cons, put_of_miss hmiss, hb, List.find?_append,
        find_firsts_none hkeys hbefore, Option.none_or]
      exact List.find?_cons_of_pos hp
    rw [hfind, puts, ht, hd, Option.map_some, lastValue, List.getLast?_cons,
      List.getLastD_eq_getLast?]

end FirstMatch
