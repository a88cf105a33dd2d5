/-
  XwpServer.Lib.Survive

  Which pairs are left in a table in which a new key may stand for an old one.

  A pair is left if it has made an entry of its own and no later pair has put another
  value there.  With keys that hit themselves no key has two entries, so of two pairs
  with one key only one can be left.
-/

import Mathlib.Data.List.Nodup
import Mathlib.Data.List.Perm.Subperm
import XwpServer.Lib.FirstMatch

namespace FirstMatch

variable {κ ν : Type _} {hits : κ → κ → Bool}

/-! ## Entries -/

/-- A key hits one of the entries if it hits one of the keys that were put. -/
theorem any_firsts (htrans : ∀ a b c, hits a b = true → hits b c = true → hits a c = true)
    (l : List κ) (k : κ) : (firsts hits [] l).any (hits k) = l.any (hits k) := by
  rw [Bool.eq_iff_iff, List.any_eq_true, List.any_eq_true]
  constructor
  · rintro ⟨e, he, hhit⟩
    exact ⟨e, mem_of_mem_firsts he, hhit⟩
  · rintro ⟨e, he, hhit⟩
    rcases (firsts_of_mem he : e ∈ firsts hits [] l ∨ _) with hfirst | ⟨e', he', hhit'⟩
    · exact ⟨e, hfirst, hhit⟩
    · exact ⟨e', he', htrans _ _ _ hhit hhit'⟩

theorem firsts_pairwise (l : List κ) :
    (firsts hits [] l).Pairwise fun a b => hits b a = false := by
  induction l using List.reverseRecOn with
  | nil => exact .nil
  | append_singleton l k ih =>
      rw [firsts_concat]
      split
      case isTrue => exact ih
      case isFalse hany =>
        apply List.pairwise_append.mpr
        refine ⟨ih, List.pairwise_singleton _ _, fun e he x hx => ?_⟩
        rw [List.mem_singleton.mp hx]
        have hno : ¬ ∃ e ∈ firsts hits [] l, hits k e = true := by
          rwa [← List.any_eq_true]
        exact Bool.eq_false_iff.mpr fun hhit => hno ⟨e, he, hhit⟩

/-- No two entries have one key. -/
theorem keys_nodup (hrefl : ∀ k, hits k k = true) (l : List (κ × ν)) :
    ((build hits [] l).map Prod.fst).Nodup := by
  rw [keys_build]
  apply (firsts_pairwise (l.map Prod.fst)).imp
  rintro a b hab rfl
  rw [hrefl] at hab
  cases hab

/-- The value of the entry that a pair has made, once all pairs have been put. -/
theorem mem_build_of_fresh
    (htrans : ∀ a b c, hits a b = true → hits b c = true → hits a c = true)
    {before : List (κ × ν)} (after : List (κ × ν)) {p : κ × ν}
    (hfresh : ∀ e ∈ before, hits p.1 e.1 = false) :
    (p.1, lastValue hits (before.map Prod.fst) p.1 p.2 after)
      ∈ build hits [] (before ++ p :: after) := by
  have hmiss : ∀ e ∈ build hits [] before, hits p.1 e.1 = false := by
    intro e he
    have hkey : e.1 ∈ firsts hits [] (before.map Prod.fst) := by
      rw [← keys_build]
      exact List.mem_map_of_mem he
    obtain ⟨x, hx, hxe⟩ := List.mem_map.mp (mem_of_mem_firsts hkey)
    rw [← hxe]
    exact hfresh x hx
  obtain ⟨t', u', hbuild, -⟩ := @build_entry _ _ hits (build hits [] before) [] after p.1 p.2
  have hsame : lastValue hits ((build hits [] before).map Prod.fst) p.1 p.2 after
      = lastValue hits (before.map Prod.fst) p.1 p.2 after := by
    have hreach : reaches (ν := ν) hits ((build hits [] before).map Prod.fst) p.1
        = reaches hits (before.map Prod.fst) p.1 := by
      funext q
      rw [reaches, reaches, keys_build, any_firsts htrans]
    rw [lastValue, lastValue, hreach]
  rw [build_append, build_cons, put_of_miss hmiss, hbuild, hsame]
  simp

/-- A pair whose key is put once and is the key of an entry has made it. -/
theorem fresh_of_mem_keys
    (htrans : ∀ a b c, hits a b = true → hits b c = true → hits a c = true)
    {before after : List (κ × ν)} {p : κ × ν}
    (hbefore : ∀ e ∈ before, e.1 ≠ p.1) (hafter : ∀ e ∈ after, e.1 ≠ p.1)
    (hmem : p.1 ∈ (build hits [] (before ++ p :: after)).map Prod.fst) :
    ∀ e ∈ before, hits p.1 e.1 = false := by
  by_contra hhit
  have hany : (before.map Prod.fst).any (hits p.1) = true := by
    rw [List.any_eq_true]
    push Not at hhit
    obtain ⟨e, he, hne⟩ := hhit
    exact ⟨e.1, List.mem_map_of_mem he, by simpa using hne⟩
  -- no pair makes an entry with that key
  have hno : ∀ l : List κ, (∀ k ∈ l, k ≠ p.1) →
      p.1 ∉ firsts hits [] (before.map Prod.fst ++ p.1 :: l) := by
    intro l hl
    induction l using List.reverseRecOn with
    | nil =>
        rw [firsts_concat, any_firsts htrans, if_pos hany]
        intro h
        obtain ⟨e, he, heq⟩ := List.mem_map.mp (mem_of_mem_firsts h)
        exact hbefore e he heq
    | append_singleton l k ih =>
        have hsplit : before.map Prod.fst ++ p.1 :: (l ++ [k])
            = (before.map Prod.fst ++ p.1 :: l) ++ [k] := by simp
        rw [hsplit, firsts_concat]
        have hrest := ih fun x hx => hl x (by simp [hx])
        split
        · exact hrest
        · intro h
          rcases List.mem_append.mp h with h | h
          · exact hrest h
          · exact hl k (by simp) (List.mem_singleton.mp h).symm
  rw [keys_build, List.map_append, List.map_cons] at hmem
  refine hno (after.map Prod.fst) (fun k hk => ?_) hmem
  obtain ⟨e, he, rfl⟩ := List.mem_map.mp hk
  exact hafter e he

/-- Keys and values may be looked at through functions that keep the hits. -/
theorem build_map {κ' ν' : Type _} (hits' : κ' → κ' → Bool) (f : κ → κ') (g : ν → ν')
    {l : List (κ × ν)} (h : ∀ p ∈ l, ∀ k, hits' (f p.1) (f k) = hits p.1 k) :
    (build hits [] l).map (Prod.map f g) = build hits' [] (l.map (Prod.map f g)) := by
  induction l using List.reverseRecOn with
  | nil => rfl
  | append_singleton l p ih =>
      rw [build_concat, put_map f g fun e _ => h p (by simp) e.1,
        ih fun q hq => h q (by simp [hq]), List.map_append, List.map_singleton, build_concat]
      rfl

/-! ## Pairs -/

/-- Every wanted pair of `l` makes an entry, and the entry has its value when the pairs of
    `l` and those of `s` have been put. -/
def Survive (hits : κ → κ → Bool) (want : κ → Bool) (l s : List (κ × ν)) : Prop :=
  ∀ before p after, l = before ++ p :: after → want p.1 = true →
    (∀ e ∈ before, hits p.1 e.1 = false) ∧
      lastValue hits (before.map Prod.fst) p.1 p.2 (after ++ s) = p.2

variable [BEq κ] [LawfulBEq κ] [BEq ν] [LawfulBEq ν]

theorem count_filter_key_le {want : κ → Bool} {l t : List (κ × ν)}
    (hcount : ∀ p ∈ l, want p.1 = true → l.count p ≤ t.count p) {k : κ} (hk : want k = true) :
    l.countP (·.1 == k) ≤ t.countP (·.1 == k) := by
  have hsub : (l.filter (·.1 == k)).Subperm (t.filter (·.1 == k)) := by
    apply List.subperm_ext_iff.mpr
    intro p hmem
    obtain ⟨hmem, hp⟩ := List.mem_filter.mp hmem
    have hsame : ∀ u : List (κ × ν), (u.filter (·.1 == k)).count p = u.count p :=
      fun u => List.count_filter hp
    rw [hsame, hsame]
    have hkey : p.1 = k := by simpa using hp
    exact hcount p hmem (hkey ▸ hk)
  have hlen := hsub.length_le
  rwa [← List.countP_eq_length_filter, ← List.countP_eq_length_filter] at hlen

/-- The wanted pairs of `l` are among the entries, as often as they were put, just if they
    survive: with keys that hit themselves no key has two entries. -/
theorem survive_iff (hrefl : ∀ k, hits k k = true)
    (htrans : ∀ a b c, hits a b = true → hits b c = true → hits a c = true)
    {want : κ → Bool} {l s : List (κ × ν)} (hs : ∀ p ∈ s, want p.1 = false) :
    (∀ p ∈ l, want p.1 = true → l.count p ≤ (build hits [] (l ++ s)).count p) ↔
      Survive hits want l s := by
  have hnodup := keys_nodup hrefl (l ++ s)
  constructor
  · rintro hcount before p after rfl hp
    have hle := count_filter_key_le hcount hp
    have hone : (build hits [] (before ++ p :: after ++ s)).countP (·.1 == p.1) ≤ 1 := by
      have h := List.nodup_iff_count_le_one.mp hnodup p.1
      rw [List.count, List.countP_map] at h
      refine Nat.le_trans (List.countP_mono_left fun x _ hx => ?_) h
      simpa using hx
    have hzero : before.countP (·.1 == p.1) + after.countP (·.1 == p.1) = 0 := by
      rw [List.countP_append, List.countP_cons_of_pos (by simp)] at hle
      omega
    have hbefore : ∀ e ∈ before, e.1 ≠ p.1 := by
      have h : before.countP (·.1 == p.1) = 0 := by omega
      simpa using List.countP_eq_zero.mp h
    have hafter : ∀ e ∈ after ++ s, e.1 ≠ p.1 := by
      intro e he heq
      rcases List.mem_append.mp he with he | he
      · have h : after.countP (·.1 == p.1) = 0 := by omega
        simpa [heq] using List.countP_eq_zero.mp h e he
      · have h := hs e he
        rw [heq, hp] at h
        cases h
    have hpos : 0 < (build hits [] (before ++ p :: after ++ s)).count p := by
      refine Nat.lt_of_lt_of_le ?_ (hcount p (by simp) hp)
      exact List.count_pos_iff.mpr (by simp)
    have hmem := List.count_pos_iff.mp hpos
    rw [List.append_assoc, List.cons_append] at hmem hnodup
    have hfresh := fresh_of_mem_keys htrans hbefore hafter (List.mem_map_of_mem hmem)
    refine ⟨hfresh, ?_⟩
    have hentry := mem_build_of_fresh htrans (after ++ s) hfresh
    -- one entry with that key
    have heq := List.inj_on_of_nodup_map hnodup hmem hentry rfl
    exact (congrArg Prod.snd heq).symm
  · intro hsurv p hp hwant
    obtain ⟨before, after, rfl⟩ := List.append_of_mem hp
    obtain ⟨hfresh, hlast⟩ := hsurv before p after rfl hwant
    have hentry := mem_build_of_fresh htrans (after ++ s) hfresh
    rw [hlast, ← List.cons_append, ← List.append_assoc] at hentry
    have hpos := List.count_pos_iff.mpr hentry
    refine Nat.le_trans ?_ hpos
    have hb : before.count p = 0 := by
      apply List.count_eq_zero_of_not_mem
      intro hmem
      have h := hfresh p hmem
      rw [hrefl] at h
      cases h
    have ha : after.count p = 0 := by
      apply List.count_eq_zero_of_not_mem
      intro hmem
      obtain ⟨a₁, a₂, rfl⟩ := List.append_of_mem hmem
      have h := (hsurv (before ++ p :: a₁) p a₂ (by simp) hwant).1 p (by simp)
      rw [hrefl] at h
      cases h
    rw [List.count_append, List.count_cons_self, hb, ha]

end FirstMatch
