/-
  XwpServer.Lib.PrefixTable

  Tables of strings whose comparisons stop at the end of one of the strings.

  A call puts a value under a key: the key hits the first entry it is a prefix of, or,
  for an exact call, the first entry it is equal to.  A lookup takes the first entry
  whose key starts with the name, both folded.  Such a table is a map up to folding
  when the keys are closed in two respects, and for all values only then
  (`Closed.isMap`, `closed_of_isMap`): keys that fold to the same string are the same,
  and every part a key starts with is the key of an earlier call.
-/

import XwpServer.Lib.FirstMatch

namespace PrefixTable

open FirstMatch

variable {α ν : Type _} [DecidableEq α] (fold : α → α)

/-- A call that puts a value under a key. -/
structure Call (α ν : Type _) where
  exact : Bool
  key : List α
  value : ν

/-- Whether a key that is put replaces the value of an entry. -/
def hits (exact : Bool) (k e : List α) : Bool := if exact then k == e else k.isPrefixOf e

/-- The table after some calls. -/
def table (cs : List (Call α ν)) : List (List α × ν) :=
  cs.foldl (fun t c => put (hits c.exact) t c.key c.value) []

/-- The value of the first entry whose key starts with the name. -/
def lookup (t : List (List α × ν)) (n : List α) : Option ν :=
  (t.find? fun e => (n.map fold).isPrefixOf (e.1.map fold)).map Prod.snd

/-- The value of the last call for a name. -/
def lastOf (cs : List (Call α ν)) (n : List α) : Option ν :=
  ((cs.filter fun c => c.key.map fold = n.map fold).getLast?).map Call.value

/-- The table is a map up to folding, after each call. -/
structure IsMap (cs : List (Call α ν)) : Prop where
  found : ∀ ds, ds <+: cs → ∀ n ≠ [], lookup fold (table ds) n = lastOf fold ds n
  others : ∀ ds c, ds ++ [c] <+: cs → ∀ n ≠ [], c.key.map fold ≠ n.map fold →
    lookup fold (table (ds ++ [c])) n = lookup fold (table ds) n
  single : ∀ ds, ds <+: cs →
    ((table ds).map Prod.fst).Pairwise fun x y => x.map fold ≠ y.map fold

/-- Keys that fold to the same string are the same, and each part a key starts with is an
    earlier key. -/
structure Closed (ks : List (List α)) : Prop where
  fold_inj : ∀ x ∈ ks, ∀ y ∈ ks, x.map fold = y.map fold → x = y
  earlier : ∀ before y after, ks = before ++ y :: after → ∀ n ≠ [], n <+: y.map fold →
    n ≠ y.map fold → ∃ x ∈ before, x.map fold = n

variable {fold} {cs ds : List (Call α ν)} {c : Call α ν}

/-! ## One call -/

@[simp] theorem table_concat (cs : List (Call α ν)) (c : Call α ν) :
    table (cs ++ [c]) = put (hits c.exact) (table cs) c.key c.value := by
  rw [table, List.foldl_append]
  rfl

theorem lastOf_concat (cs : List (Call α ν)) (c : Call α ν) (n : List α) :
    lastOf fold (cs ++ [c]) n
      = if c.key.map fold = n.map fold then some c.value else lastOf fold cs n := by
  unfold lastOf
  rw [List.filter_append]
  by_cases h : c.key.map fold = n.map fold <;> simp [h]

theorem others_of_found
    (hfound : ∀ ds, ds <+: cs → ∀ n ≠ [], lookup fold (table ds) n = lastOf fold ds n) :
    ∀ ds c, ds ++ [c] <+: cs → ∀ n ≠ [], c.key.map fold ≠ n.map fold →
      lookup fold (table (ds ++ [c])) n = lookup fold (table ds) n := by
  intro ds c hds n hn hne
  rw [hfound _ hds n hn, hfound ds ((List.prefix_append ds [c]).trans hds) n hn,
    lastOf_concat, if_neg hne]

theorem prefix_of_hits {exact : Bool} {k e : List α} (h : hits exact k e = true) : k <+: e := by
  unfold hits at h
  split at h
  · have heq : k = e := beq_iff_eq.mp h
    exact heq ▸ List.prefix_refl k
  · exact List.isPrefixOf_iff_prefix.mp h

@[simp] theorem hits_self (exact : Bool) (k : List α) : hits exact k k = true := by
  unfold hits
  split
  · simp
  · exact List.isPrefixOf_iff_prefix.mpr (List.prefix_refl k)

/-- Later calls leave the keys of the table where they are. -/
theorem table_keys_front (cs ds : List (Call α ν)) :
    (table cs).map Prod.fst <+: (table (cs ++ ds)).map Prod.fst := by
  induction ds using List.reverseRecOn with
  | nil =>
      simp only [List.append_nil, List.prefix_refl]
  | append_singleton ds c ih =>
      apply ih.trans
      rw [← List.append_assoc, table_concat, put_keys]
      split
      · exact List.prefix_refl _
      · exact List.prefix_append _ _

theorem mem_table {e : List α × ν} (he : e ∈ table cs) :
    e.1 ∈ cs.map Call.key ∧ e.2 ∈ cs.map Call.value := by
  induction cs using List.reverseRecOn generalizing e with
  | nil => cases he
  | append_singleton cs c ih =>
      rw [table_concat] at he
      simp only [List.map_append, List.mem_append]
      rcases @put_cases _ _ (hits c.exact) (table cs) c.key c.value with
        ⟨hput, -⟩ | ⟨t₁, k, w, t₂, ht, -, -, hput⟩
      · rw [hput] at he
        rcases List.mem_append.mp he with hmem | hnew
        · exact ⟨.inl (ih hmem).1, .inl (ih hmem).2⟩
        · rw [List.mem_singleton.mp hnew]
          exact ⟨.inr (by simp), .inr (by simp)⟩
      · rw [ht] at ih
        rw [hput] at he
        rcases List.mem_append.mp he with hmem | hmem
        · exact ⟨.inl (ih (by simp [hmem])).1, .inl (ih (by simp [hmem])).2⟩
        rcases List.mem_cons.mp hmem with rfl | hmem
        · exact ⟨.inl (ih (e := (k, w)) (by simp)).1, .inr (by simp)⟩
        · exact ⟨.inl (ih (by simp [hmem])).1, .inl (ih (by simp [hmem])).2⟩

/-- A call leaves an entry that starts with its key. -/
theorem exists_entry (cs : List (Call α ν)) (c : Call α ν) :
    ∃ e ∈ table (cs ++ [c]), c.key <+: e.1 := by
  rw [table_concat]
  rcases @put_cases _ _ (hits c.exact) (table cs) c.key c.value with
    ⟨hput, -⟩ | ⟨t₁, k, w, t₂, -, -, hhit, hput⟩
  · exact ⟨(c.key, c.value), by simp [hput], List.prefix_refl _⟩
  · exact ⟨(k, c.value), by simp [hput], prefix_of_hits hhit⟩

/-! ## Closed keys make a map -/

/-- The table `t` has the last values of the calls. -/
structure Agrees (fold : α → α) (cs : List (Call α ν)) (t : List (List α × ν)) : Prop where
  single : (t.map Prod.fst).Pairwise fun x y => x.map fold ≠ y.map fold
  mem : ∀ k, k ∈ t.map Prod.fst ↔ k ∈ cs.map Call.key
  earlier : ∀ before y after, t.map Prod.fst = before ++ y :: after → ∀ n ≠ [],
    n <+: y.map fold → n ≠ y.map fold → ∃ x ∈ before, x.map fold = n
  value : ∀ e ∈ t, lastOf fold cs e.1 = some e.2

/-- No entry in front of one for a name starts with the name. -/
theorem Agrees.not_before {t₁ t₂ : List (List α × ν)} {e x : List α × ν} {n : List α}
    (h : Agrees fold cs (t₁ ++ e :: t₂)) (hn : n ≠ []) (he : e.1.map fold = n) (hx : x ∈ t₁) :
    ¬ n <+: x.1.map fold := by
  intro hpre
  obtain ⟨a, b, rfl⟩ := List.append_of_mem hx
  have hsingle := h.single
  simp only [List.map_append, List.map_cons] at hsingle
  have hne : ∀ y ∈ a.map Prod.fst ++ x.1 :: b.map Prod.fst, y.map fold ≠ n := by
    intro y hy
    exact he ▸ (List.pairwise_append.mp hsingle).2.2 y hy e.1 (by simp)
  by_cases heq : n = x.1.map fold
  · exact hne x.1 (by simp) heq.symm
  · obtain ⟨y, hy, hyn⟩ :=
      h.earlier (a.map Prod.fst) x.1 (b.map Prod.fst ++ e.1 :: t₂.map Prod.fst) (by simp)
        n hn hpre heq
    exact hne y (by simp [hy]) hyn

theorem Agrees.lookup {t : List (List α × ν)} (h : Agrees fold cs t) {n : List α} (hn : n ≠ []) :
    lookup fold t n = lastOf fold cs n := by
  have hn' : n.map fold ≠ [] := by simpa using hn
  -- an entry for the key is found, as what hits in front of it is no part of it; without one
  -- nothing hits, since the key would have been put before
  by_cases hmem : ∃ e ∈ t, e.1.map fold = n.map fold
  · obtain ⟨e, he, hen⟩ := hmem
    have hval := h.value e he
    obtain ⟨t₁, t₂, rfl⟩ := List.append_of_mem he
    have hnone : t₁.find? (fun e => (n.map fold).isPrefixOf (e.1.map fold)) = none := by
      apply List.find?_eq_none.mpr
      intro x hx hpre
      exact h.not_before hn' hen hx (List.isPrefixOf_iff_prefix.mp hpre)
    have hfound : (n.map fold).isPrefixOf (e.1.map fold) = true := by
      rw [hen]
      exact List.isPrefixOf_iff_prefix.mpr (List.prefix_refl _)
    rw [PrefixTable.lookup, List.find?_append, hnone, Option.none_or, List.find?_cons, hfound,
      Option.map_some, ← hval, lastOf, lastOf, hen]
  · have hnone : t.find? (fun e => (n.map fold).isPrefixOf (e.1.map fold)) = none := by
      apply List.find?_eq_none.mpr
      intro x hx hpre
      have hpre := List.isPrefixOf_iff_prefix.mp hpre
      obtain ⟨t₁, t₂, rfl⟩ := List.append_of_mem hx
      by_cases heq : n.map fold = x.1.map fold
      · exact hmem ⟨x, hx, heq.symm⟩
      · obtain ⟨y, hy, hyn⟩ :=
          h.earlier (t₁.map Prod.fst) x.1 (t₂.map Prod.fst) (by simp) _ hn' hpre heq
        obtain ⟨e, he, rfl⟩ := List.mem_map.mp hy
        exact hmem ⟨e, by simp [he], hyn⟩
    have hlast : cs.filter (fun c => c.key.map fold = n.map fold) = [] := by
      apply List.filter_eq_nil_iff.mpr
      intro c hc hcn
      have hkey : c.key ∈ t.map Prod.fst := (h.mem _).mpr (List.mem_map_of_mem hc)
      obtain ⟨e, he, hek⟩ := List.mem_map.mp hkey
      exact hmem ⟨e, he, by rw [hek]; simpa using hcn⟩
    rw [PrefixTable.lookup, hnone, lastOf, hlast]
    rfl

/-- The next key is the one of an entry it hits. -/
theorem Agrees.eq_of_hits {t₁ t₂ : List (List α × ν)} {e : List α} {w : ν}
    (h : Agrees fold cs (t₁ ++ (e, w) :: t₂)) (hkeys : Closed fold (cs.map Call.key ++ [c.key]))
    (hc : c.key ≠ []) (hmiss : ∀ x ∈ t₁, hits c.exact c.key x.1 = false)
    (hhit : hits c.exact c.key e = true) : c.key = e := by
  obtain ⟨r, hr⟩ := prefix_of_hits hhit
  by_contra hne
  have hproper : c.key.map fold ≠ e.map fold := by
    intro heq
    have hlen := congrArg List.length heq
    rw [← hr] at hlen hne
    simp only [List.map_append, List.length_append, List.length_map] at hlen
    have hnil : r = [] := List.eq_nil_of_length_eq_zero (by omega)
    exact hne (by simp [hnil])
  have hpre : c.key.map fold <+: e.map fold := by
    rw [← hr, List.map_append]
    exact List.prefix_append _ _
  obtain ⟨x, hx, hxk⟩ := h.earlier (t₁.map Prod.fst) e (t₂.map Prod.fst) (by simp)
    (c.key.map fold) (by simpa using hc) hpre hproper
  -- the entry for that part is the key's own, and stands in front
  have hmem : x ∈ cs.map Call.key := (h.mem x).mp (by simp [hx])
  have hxe : x = c.key := hkeys.fold_inj x (by simp [hmem]) c.key (by simp) hxk
  obtain ⟨y, hy, rfl⟩ := List.mem_map.mp hx
  have hfalse := hmiss y hy
  rw [hxe, hits_self] at hfalse
  cases hfalse

/-- A key that hits no entry gets one of its own, behind the others. -/
theorem Agrees.put_new {t : List (List α × ν)} (h : Agrees fold cs t)
    (hkeys : Closed fold (cs.map Call.key ++ [c.key]))
    (hmiss : ∀ x ∈ t, hits c.exact c.key x.1 = false) :
    Agrees fold (cs ++ [c]) (t ++ [(c.key, c.value)]) := by
  have hother : ∀ x ∈ t.map Prod.fst, x.map fold ≠ c.key.map fold := by
    intro x hx heq
    have hxk : x = c.key :=
      hkeys.fold_inj x (by simp [(h.mem x).mp hx]) c.key (by simp) heq
    obtain ⟨y, hy, rfl⟩ := List.mem_map.mp hx
    have hfalse := hmiss y hy
    rw [hxk, hits_self] at hfalse
    cases hfalse
  constructor
  case single =>
    rw [List.map_append]
    apply List.pairwise_append.mpr
    exact ⟨h.single, by simp, fun x hx y hy => by simp at hy; exact hy ▸ hother x hx⟩
  case mem =>
    intro k
    simp [← h.mem k]
  case earlier =>
    -- the new key is the last one, and all before it are those of the calls before
    intro before y after hks n hn hpre hne
    rw [List.map_append, List.map_singleton] at hks
    rcases List.eq_nil_or_concat after with rfl | ⟨after, z, rfl⟩
    · obtain ⟨hbefore, hy⟩ := List.append_inj' hks rfl
      cases hy
      obtain ⟨x, hx, hxn⟩ := hkeys.earlier _ c.key [] rfl n hn hpre hne
      exact ⟨x, hbefore ▸ (h.mem x).mpr hx, hxn⟩
    · rw [List.concat_eq_append, ← List.cons_append, ← List.append_assoc] at hks
      exact h.earlier before y after (List.append_inj' hks rfl).1 n hn hpre hne
  case value =>
    intro e he
    rw [lastOf_concat]
    rcases List.mem_append.mp he with hmem | hnew
    · rw [if_neg (hother e.1 (List.mem_map_of_mem hmem)).symm]
      exact h.value e hmem
    · rw [List.mem_singleton.mp hnew, if_pos rfl]

/-- A key with an entry of its own gets the new value there. -/
theorem Agrees.put_over {t₁ t₂ : List (List α × ν)} {w : ν}
    (h : Agrees fold cs (t₁ ++ (c.key, w) :: t₂)) :
    Agrees fold (cs ++ [c]) (t₁ ++ (c.key, c.value) :: t₂) := by
  have hsame : (t₁ ++ (c.key, c.value) :: t₂).map Prod.fst
      = (t₁ ++ (c.key, w) :: t₂).map Prod.fst := by simp
  constructor
  case single => rw [hsame]; exact h.single
  case mem =>
    intro k
    rw [hsame, h.mem k]
    have hin : c.key ∈ cs.map Call.key := (h.mem c.key).mp (by simp)
    simp only [List.map_append, List.map_singleton, List.mem_append, List.mem_singleton]
    constructor
    · exact Or.inl
    · rintro (hk | rfl)
      · exact hk
      · exact hin
  case earlier => rw [hsame]; exact h.earlier
  case value =>
    have hsingle := h.single
    simp only [List.map_append, List.map_cons] at hsingle
    obtain ⟨-, hright, hleft⟩ := List.pairwise_append.mp hsingle
    -- the key has one entry
    have hothers : ∀ x ∈ t₁ ++ t₂, c.key.map fold ≠ x.1.map fold := by
      intro x hx
      rcases List.mem_append.mp hx with hx | hx
      · exact (hleft x.1 (List.mem_map_of_mem hx) c.key (by simp)).symm
      · exact (List.pairwise_cons.mp hright).1 x.1 (List.mem_map_of_mem hx)
    intro x hx
    rw [lastOf_concat]
    by_cases hnew : x = (c.key, c.value)
    · rw [hnew, if_pos rfl]
    · have hold : x ∈ t₁ ++ t₂ := by simpa [hnew] using hx
      rw [if_neg (hothers x hold)]
      apply h.value x
      simp only [List.mem_append, List.mem_cons] at hold ⊢
      tauto

theorem Agrees.concat {t : List (List α × ν)} (h : Agrees fold cs t) (hc : c.key ≠ [])
    (hkeys : Closed fold (cs.map Call.key ++ [c.key])) :
    Agrees fold (cs ++ [c]) (put (hits c.exact) t c.key c.value) := by
  rcases @put_cases _ _ (hits c.exact) t c.key c.value with
    ⟨hput, hmiss⟩ | ⟨t₁, e, w, t₂, rfl, hmiss, hhit, hput⟩
  · rw [hput]
    exact h.put_new hkeys hmiss
  · have hke := h.eq_of_hits hkeys hc hmiss hhit
    subst hke
    rw [hput]
    exact h.put_over

omit [DecidableEq α] in
theorem Closed.of_append {ks ks' : List (List α)} (h : Closed fold (ks ++ ks')) :
    Closed fold ks where
  fold_inj x hx y hy := h.fold_inj x (by simp [hx]) y (by simp [hy])
  earlier before y after hks := h.earlier before y (after ++ ks') (by simp [hks])

/-- The table of calls whose keys are closed has their last values. -/
theorem table_agrees (hne : ∀ c ∈ cs, c.key ≠ []) (hkeys : Closed fold (cs.map Call.key)) :
    Agrees fold cs (table cs) := by
  induction cs using List.reverseRecOn with
  | nil => exact ⟨List.Pairwise.nil, fun k => Iff.rfl, by simp [table], by simp [table]⟩
  | append_singleton cs c ih =>
      rw [List.map_append, List.map_singleton] at hkeys
      rw [table_concat]
      apply Agrees.concat _ (hne c (by simp)) hkeys
      exact ih (fun d hd => hne d (by simp [hd])) hkeys.of_append

theorem Closed.isMap (hne : ∀ c ∈ cs, c.key ≠ []) (hkeys : Closed fold (cs.map Call.key)) :
    IsMap fold cs := by
  have hagrees : ∀ ds, ds <+: cs → Agrees fold ds (table ds) := by
    rintro ds ⟨es, rfl⟩
    rw [List.map_append] at hkeys
    exact table_agrees (fun c hc => hne c (by simp [hc])) hkeys.of_append
  have hfound : ∀ ds, ds <+: cs → ∀ n ≠ [], lookup fold (table ds) n = lastOf fold ds n :=
    fun ds hds n => (hagrees ds hds).lookup
  exact ⟨hfound, others_of_found hfound, fun ds hds => (hagrees ds hds).single⟩

/-! ## A map has closed keys -/

/-- A part a key starts with was an earlier key: the key's entry is found under it. -/
theorem IsMap.earlier {es : List (Call α ν)} (h : IsMap fold (ds ++ c :: es)) {n : List α}
    (hn : n ≠ []) (hpre : n <+: c.key.map fold) (hproper : n ≠ c.key.map fold) :
    ∃ d ∈ ds, d.key.map fold = n := by
  by_contra hnone
  -- the part, as it is spelled in the key
  obtain ⟨m, hm, hmn⟩ : ∃ m, m <+: c.key ∧ m.map fold = n := by
    refine ⟨c.key.take n.length, List.take_prefix _ _, ?_⟩
    rw [List.map_take]
    exact (List.prefix_iff_eq_take.mp hpre).symm
  have hm' : m ≠ [] := fun h0 => hn (by rw [← hmn, h0]; rfl)
  have hds : ds ++ [c] <+: ds ++ c :: es := ⟨es, by simp⟩
  have hlast : lastOf fold (ds ++ [c]) m = none := by
    rw [lastOf_concat, hmn, if_neg (Ne.symm hproper), lastOf,
      List.filter_eq_nil_iff.mpr fun d hd hdn =>
        hnone ⟨d, hd, by simpa [hmn] using hdn⟩]
    rfl
  obtain ⟨e, he, hce⟩ := exists_entry ds c
  have hfound := h.found _ hds m hm'
  rw [hlast, lookup, Option.map_eq_none_iff, List.find?_eq_none] at hfound
  apply hfound e he
  apply List.isPrefixOf_iff_prefix.mpr
  exact (hm.trans hce).map fold

/-- A name is found under the first spelling it was put with: a second spelling that has a
    value of its own is lost. -/
theorem IsMap.fold_inj {c d : Call α ν} {fs : List (Call α ν)}
    (h : IsMap fold (ds ++ c :: (es ++ d :: fs)))
    (hc : c.key ≠ []) (hfirst : ∀ x ∈ ds, x.key.map fold ≠ c.key.map fold)
    (hsame : d.key.map fold = c.key.map fold)
    (hvalue : ∀ x ∈ ds ++ c :: es, x.value ≠ d.value) : d.key = c.key := by
  by_contra hne
  -- no entry in front of the first spelling starts with it
  have hbefore : ∀ k ∈ (table ds).map Prod.fst, ¬ c.key.map fold <+: k.map fold := by
    intro k hk hpre
    obtain ⟨e, he, rfl⟩ := List.mem_map.mp hk
    obtain ⟨x, hx, hxe⟩ := List.mem_map.mp (mem_table he).1
    rw [← hxe] at hpre
    obtain ⟨a, b, rfl⟩ := List.append_of_mem hx
    rw [List.append_assoc, List.cons_append] at h
    obtain ⟨y, hy, hyc⟩ := h.earlier (by simpa using hc) hpre (hfirst x (by simp)).symm
    exact hfirst y (by simp [hy]) hyc
  have hentry : table (ds ++ [c]) = table ds ++ [(c.key, c.value)] := by
    rw [table_concat]
    apply put_of_miss
    intro e he
    apply Bool.eq_false_iff.mpr
    intro hhit
    exact hbefore e.1 (List.mem_map_of_mem he) ((prefix_of_hits hhit).map fold)
  -- its entry stays where it is, with the value of a call before `d`
  obtain ⟨t₁, v, t₂, htable, hkeys⟩ : ∃ t₁ v t₂, table (ds ++ c :: es) = t₁ ++ (c.key, v) :: t₂ ∧
      t₁.map Prod.fst = (table ds).map Prod.fst := by
    obtain ⟨r, hr⟩ := table_keys_front (ds ++ [c]) es
    rw [hentry, List.map_append, List.append_assoc, List.append_assoc] at hr
    obtain ⟨t₁, t', htable, hkeys, ht'⟩ := List.map_eq_append_iff.mp hr.symm
    obtain ⟨e, t₂, rfl, he, -⟩ := List.map_eq_cons_iff.mp ht'
    have hentry : e = (c.key, e.2) := Prod.ext he rfl
    exact ⟨t₁, e.2, t₂, hentry ▸ htable, hkeys⟩
  have hv : v ≠ d.value := by
    obtain ⟨x, hx, hxv⟩ := List.mem_map.mp
      (mem_table (e := (c.key, v)) (show _ ∈ table (ds ++ c :: es) by simp [htable])).2
    have hxv : x.value = v := hxv
    exact hxv ▸ hvalue x hx
  have hmiss : ∀ e ∈ t₁ ++ [(c.key, v)], hits d.exact d.key e.1 = false := by
    intro e he
    apply Bool.eq_false_iff.mpr
    intro hhit
    have hpre := prefix_of_hits hhit
    rcases List.mem_append.mp he with hmem | hnew
    · apply hbefore e.1 (hkeys ▸ List.mem_map_of_mem hmem)
      exact hsame ▸ hpre.map fold
    · rw [List.mem_singleton.mp hnew] at hpre
      apply hne
      apply hpre.eq_of_length
      simpa using congrArg List.length hsame
  have hlookup : lookup fold (table (ds ++ c :: es ++ [d])) c.key = some v := by
    rw [table_concat, htable, List.append_cons, put_append_of_miss hmiss, lookup, List.find?_append,
      List.find?_append]
    have hnone : t₁.find? (fun e => (c.key.map fold).isPrefixOf (e.1.map fold)) = none := by
      apply List.find?_eq_none.mpr
      intro e he hpre
      apply hbefore e.1 (hkeys ▸ List.mem_map_of_mem he)
      exact List.isPrefixOf_iff_prefix.mp hpre
    have hself : (c.key.map fold).isPrefixOf (c.key.map fold) = true :=
      List.isPrefixOf_iff_prefix.mpr (List.prefix_refl _)
    simp [hnone, hself]
  have hds : ds ++ c :: es ++ [d] <+: ds ++ c :: (es ++ d :: fs) := ⟨fs, by simp⟩
  have hfound := h.found _ hds c.key hc
  rw [hlookup, lastOf_concat, if_pos hsame] at hfound
  exact hv (Option.some.inj hfound)

/-! ## All values -/

/-- How a call puts its value. -/
def Call.name (c : Call α ν) : Bool × List α := (c.exact, c.key)

/-- The calls with these names and values. -/
def callsWith (names : List (Bool × List α)) (value : ν) : List (Call α ν) :=
  names.map fun p => ⟨p.1, p.2, value⟩

omit [DecidableEq α] in
theorem callsWith_name (names : List (Bool × List α)) (v : ν) :
    (callsWith names v).map Call.name = names := by
  simp [callsWith, Call.name, Function.comp_def]

omit [DecidableEq α] in
theorem mem_callsWith {names : List (Bool × List α)} {v : ν} (hc : c ∈ callsWith names v) :
    (c.exact, c.key) ∈ names ∧ c.value = v := by
  obtain ⟨p, hp, rfl⟩ := List.mem_map.mp hc
  exact ⟨hp, rfl⟩

/-- Calls that make a map with two values of one's choice have closed keys. -/
theorem closed_of_isMap {names : List (Bool × List α)} (hne : ∀ p ∈ names, p.2 ≠ []) {a b : ν}
    (hab : a ≠ b)
    (h : ∀ cs : List (Call α ν), cs.map Call.name = names →
      (∀ c ∈ cs, c.value = a ∨ c.value = b) → IsMap fold cs) :
    Closed fold (names.map Prod.snd) := by
  constructor
  case earlier =>
    intro before y after hks n hn hpre hproper
    obtain ⟨l₁, l', rfl, rfl, hl'⟩ := List.map_eq_append_iff.mp hks
    obtain ⟨p, l₂, rfl, rfl, -⟩ := List.map_eq_cons_iff.mp hl'
    have hmap := h (callsWith (l₁ ++ p :: l₂) a) (callsWith_name _ a)
      fun c hc => .inl (mem_callsWith hc).2
    simp only [callsWith, List.map_append, List.map_cons] at hmap
    obtain ⟨d, hd, hdn⟩ := hmap.earlier hn hpre hproper
    obtain ⟨q, hq, rfl⟩ := List.mem_map.mp hd
    exact ⟨q.2, List.mem_map_of_mem hq, hdn⟩
  case fold_inj =>
    -- any spelling of a name is the first one
    have hfirst : ∀ l₁ p l₂, names = l₁ ++ p :: l₂ →
        (∀ z ∈ l₁, z.2.map fold ≠ p.2.map fold) →
        ∀ k ∈ names.map Prod.snd, k.map fold = p.2.map fold → k = p.2 := by
      rintro l₁ p l₂ rfl hl₁ k hk hkp
      obtain ⟨q, hq, rfl⟩ := List.mem_map.mp hk
      rcases List.mem_append.mp hq with hmem | hmem
      · exact absurd hkp (hl₁ q hmem)
      rcases List.mem_cons.mp hmem with rfl | hmem
      · rfl
      obtain ⟨l₃, l₄, rfl⟩ := List.append_of_mem hmem
      -- every call has the value `a`, but the one for the later spelling
      have hmap := h (callsWith l₁ a ++ ⟨p.1, p.2, a⟩ ::
        (callsWith l₃ a ++ ⟨q.1, q.2, b⟩ :: callsWith l₄ a)) (by
          simp only [List.map_append, List.map_cons, callsWith_name]
          rfl) (by
          intro x hx
          simp only [List.mem_append, List.mem_cons] at hx
          rcases hx with hx | rfl | hx | rfl | hx
          · exact .inl (mem_callsWith hx).2
          · exact .inl rfl
          · exact .inl (mem_callsWith hx).2
          · exact .inr rfl
          · exact .inl (mem_callsWith hx).2)
      apply hmap.fold_inj (hne p (by simp)) _ hkp
      · intro x hx
        simp only [List.mem_append, List.mem_cons] at hx
        rcases hx with hx | rfl | hx
        · exact (mem_callsWith hx).2 ▸ hab
        · exact hab
        · exact (mem_callsWith hx).2 ▸ hab
      · intro x hx
        exact hl₁ _ (mem_callsWith hx).1
    intro x hx y hy hxy
    obtain ⟨q, hq, rfl⟩ := List.mem_map.mp hx
    obtain ⟨p, l₁, l₂, hl₁, hp, hnames, -⟩ := List.exists_of_eraseP
      (p := fun z => z.2.map fold = q.2.map fold) hq (by simp)
    have hp : p.2.map fold = q.2.map fold := by simpa using hp
    have hl₁ : ∀ z ∈ l₁, z.2.map fold ≠ p.2.map fold := by simpa [hp] using hl₁
    rw [hfirst l₁ p l₂ hnames hl₁ _ hx hp.symm]
    exact (hfirst l₁ p l₂ hnames hl₁ y hy (hp ▸ hxy.symm)).symm

end PrefixTable
