/-
  XwpServer.HeaderMap

  A header table as a map from names to values.

  `http_header_set` compares the new name with an entry over the length of the new name
  and minds the case, `http_header_set2` compares them whole and minds the case, and
  `http_header_str` compares over the length of the name it is given and does not.  So
  a name stands for any name that goes on behind it.  The table is a map that ignores
  case only for names that never meet in that way (`headerMap_iff`).
-/

import XwpServer.TableTexts
import XwpServer.Lib.PrefixTable

namespace XwpServer

open CString FirstMatch

/-! ## Calls -/

/-- A name, as the setter takes it that is called for it. -/
inductive SetName where
  | set (name : Str)
  | set2 (name : Ptr)
  deriving DecidableEq, Repr

/-- A call of a setter; `http_header_set2` takes the characters of the value only. -/
structure SetCall where
  name : SetName
  value : Str

/-- The table after a call. -/
def SetCall.run (h : Heap) (headers : List Header) (c : SetCall) : List Header :=
  match c.name with
  | .set name => httpHeaderSet h headers name c.value
  | .set2 name => httpHeaderSet2 h headers name c.value.data

/-- The table after some calls, from an empty one. -/
def headersAfter (h : Heap) (calls : List SetCall) : List Header := calls.foldl (SetCall.run h) []

/-- The value a call leaves in the table. -/
def SetCall.stored (h : Heap) (c : SetCall) : Str :=
  match c.name with
  | .set _ => c.value
  | .set2 _ => ⟨c.value.data, (h.str c.value.data).length⟩

def SetName.text (h : Heap) : SetName → List Byte
  | .set name => h.str name.data
  | .set2 name => h.str name

def SetName.exact : SetName → Bool
  | .set _ => false
  | .set2 _ => true

/-- A name that is a string, with its length. -/
def Heap.ProperStr (h : Heap) (name : Str) : Prop :=
  h.str name.data ≠ [] ∧ name.len = (h.str name.data).length

/-- A name that is a string, and has its length where it has one. -/
def SetName.Proper (h : Heap) : SetName → Prop
  | .set name => h.ProperStr name
  | .set2 name => h.str name ≠ []

/-- The last call for a name, in any case. -/
def lastFor (h : Heap) (calls : List SetCall) (name : Str) : Option SetCall :=
  (calls.filter fun c => strcasecmpEq (c.name.text h) (h.str name.data)).getLast?

/-- After each of the calls the table is a map that ignores case. -/
structure HeaderMap (h : Heap) (calls : List SetCall) : Prop where
  found : ∀ cs, cs <+: calls → ∀ name, h.ProperStr name →
    httpHeaderStr h (headersAfter h cs) name = (lastFor h cs name).map (SetCall.stored h)
  others : ∀ cs c, cs ++ [c] <+: calls → ∀ name, h.ProperStr name →
    strcasecmpEq (c.name.text h) (h.str name.data) = false →
    httpHeaderStr h (headersAfter h (cs ++ [c])) name = httpHeaderStr h (headersAfter h cs) name
  single : ∀ cs, cs <+: calls → (headersAfter h cs).Pairwise fun e e' =>
    strcasecmpEq (h.str e.name.data) (h.str e'.name.data) = false

/-- Names that are equal in any case are equal, and each part a name starts with is, in
    some case, an earlier name. -/
structure NamesApart (names : List (List Byte)) : Prop where
  oneCase : ∀ x ∈ names, ∀ y ∈ names, strcasecmpEq x y = true → x = y
  partBefore : ∀ before y after, names = before ++ y :: after → ∀ n ≠ [], n <+: y → n ≠ y →
    ∃ x ∈ before, strcasecmpEq x n = true

/-! ## The table of the calls -/

/-- A call with its name's string. -/
def SetCall.keyed (h : Heap) (c : SetCall) : PrefixTable.Call Byte Str :=
  ⟨c.name.exact, c.name.text h, c.stored h⟩

/-- An entry with its name's string. -/
def Heap.named (h : Heap) (e : Header) : List Byte × Str := (h.str e.name.data, e.value)

theorem httpHeaderSet_named {h : Heap} {name : Str} (hname : h.ProperStr name)
    (headers : List Header) (value : Str) :
    (httpHeaderSet h headers name value).map h.named
      = put (PrefixTable.hits false) (headers.map h.named) (h.str name.data) value := by
  have hmap : ∀ es : List Header, es.map h.named = (es.map h.entry).map (Prod.map Prod.fst id) := by
    intro es
    rw [List.map_map]
    rfl
  have hput : (put nameHits (headers.map h.entry) (h.nameKey name) value).map (Prod.map Prod.fst id)
      = put (PrefixTable.hits false) ((headers.map h.entry).map (Prod.map Prod.fst id))
          (h.str name.data) value := by
    apply put_map Prod.fst id
    intro e _
    apply Bool.eq_iff_iff.mpr
    rw [nameHits_iff ⟨hname.2, h.notMem_str _⟩]
    exact List.isPrefixOf_iff_prefix
  rw [hmap, httpHeaderSet_entries, hput, hmap]

theorem httpHeaderSet2_named (h : Heap) (headers : List Header) (name value : Ptr) :
    (httpHeaderSet2 h headers name value).map h.named
      = put (PrefixTable.hits true) (headers.map h.named) (h.str name)
          ⟨value, (h.str value).length⟩ := by
  induction headers with
  | nil => rfl
  | cons e es ih =>
      have hhits : PrefixTable.hits true (h.str name) (h.named e).1
          = (h.str name == h.str e.name.data) := rfl
      simp only [httpHeaderSet2, List.map_cons, put, hhits]
      split
      · rfl
      · rw [List.map_cons, ih]

theorem run_named {h : Heap} {c : SetCall} (hc : c.name.Proper h) (headers : List Header) :
    (c.run h headers).map h.named
      = put (PrefixTable.hits c.name.exact) (headers.map h.named) (c.name.text h) (c.stored h) := by
  obtain ⟨name, value⟩ := c
  cases name with
  | set name => exact httpHeaderSet_named hc headers value
  | set2 name => exact httpHeaderSet2_named h headers name value.data

theorem headersAfter_named {h : Heap} {calls : List SetCall} (hp : ∀ c ∈ calls, c.name.Proper h) :
    (headersAfter h calls).map h.named = PrefixTable.table (calls.map (SetCall.keyed h)) := by
  induction calls using List.reverseRecOn with
  | nil => rfl
  | append_singleton calls c ih =>
      have hrun : headersAfter h (calls ++ [c]) = c.run h (headersAfter h calls) := by
        simp [headersAfter]
      rw [hrun, run_named (hp c (by simp)), ih fun d hd => hp d (by simp [hd]), List.map_append,
        List.map_singleton, PrefixTable.table_concat]
      rfl

theorem httpHeaderStr_named {h : Heap} {name : Str} (hname : h.ProperStr name)
    (headers : List Header) :
    httpHeaderStr h headers name
      = PrefixTable.lookup tolower (headers.map h.named) (h.str name.data) := by
  have hcond : ∀ e : Header, strncasecmpEq (h.str name.data) (h.str e.name.data) name.len
      = ((h.str name.data).map tolower).isPrefixOf ((h.str e.name.data).map tolower) := by
    intro e
    apply Bool.eq_iff_iff.mpr
    rw [hname.2, strncasecmpEq_length (h.notMem_str _), List.isPrefixOf_iff_prefix]
  simp only [httpHeaderStr, hcond]
  rw [PrefixTable.lookup, List.find?_map, Option.map_map]
  rfl

theorem strcasecmpEq_iff (a b : List Byte) :
    strcasecmpEq a b = true ↔ a.map tolower = b.map tolower := beq_iff_eq

theorem strcasecmpEq_eq_false_iff (a b : List Byte) :
    strcasecmpEq a b = false ↔ a.map tolower ≠ b.map tolower := beq_eq_false_iff_ne

theorem lastFor_keyed (h : Heap) (calls : List SetCall) (name : Str) :
    (lastFor h calls name).map (SetCall.stored h)
      = PrefixTable.lastOf tolower (calls.map (SetCall.keyed h)) (h.str name.data) := by
  have hcond : ∀ c : SetCall, strcasecmpEq (c.name.text h) (h.str name.data)
      = decide ((c.keyed h).key.map tolower = (h.str name.data).map tolower) := by
    intro c
    apply Bool.eq_iff_iff.mpr
    rw [strcasecmpEq_iff, decide_eq_true_iff]
    rfl
  simp only [lastFor, hcond]
  rw [PrefixTable.lastOf, List.filter_map, List.getLast?_map, Option.map_map]
  rfl

/-- The string of a name of one's choice. -/
theorem exists_name (h : Heap) {n : List Byte} (hn : n ≠ []) (hz : NUL ∉ n) :
    ∃ name, h.ProperStr name ∧ h.str name.data = n := by
  have hstr : h.str (.lit n) = n := by
    have htake : n.takeWhile (· != NUL) = n :=
      List.takeWhile_eq_self_iff.mpr fun c hc => by
        simpa using fun e : c = NUL => hz (e ▸ hc)
    simp only [Heap.str, Heap.cstr, htake, Option.getD_some]
  exact ⟨⟨.lit n, n.length⟩, ⟨by rw [hstr]; exact hn, by rw [hstr]⟩, hstr⟩

/-! ## The two maps -/

theorem prefix_of_map {α β : Type _} {f : α → β} {l : List α} {ds : List β} (hds : ds <+: l.map f) :
    ∃ cs, cs <+: l ∧ ds = cs.map f := by
  refine ⟨l.take ds.length, List.take_prefix _ _, ?_⟩
  rw [List.map_take]
  exact List.prefix_iff_eq_take.mp hds

/-- A string with a zero byte in it is no name. -/
theorem found_of_nul {h : Heap} {calls : List SetCall} {n : List Byte} (hz : NUL ∈ n) :
    PrefixTable.lookup tolower (PrefixTable.table (calls.map (SetCall.keyed h))) n
      = PrefixTable.lastOf tolower (calls.map (SetCall.keyed h)) n := by
  have hkey : ∀ k ∈ (calls.map (SetCall.keyed h)).map PrefixTable.Call.key,
      ¬ n.map tolower <+: k.map tolower := by
    intro k hk hpre
    simp only [List.map_map, List.mem_map] at hk
    obtain ⟨c, -, rfl⟩ := hk
    have hmem : NUL ∈ n.map tolower := List.mem_map.mpr ⟨NUL, hz, rfl⟩
    apply notMem_map_tolower _ (hpre.subset hmem)
    show NUL ∉ c.name.text h
    cases c.name with
    | set name => exact h.notMem_str _
    | set2 name => exact h.notMem_str _
  rw [PrefixTable.lookup, PrefixTable.lastOf, List.find?_eq_none.mpr, List.filter_eq_nil_iff.mpr]
  · rfl
  · intro c hc heq
    apply hkey c.key (List.mem_map_of_mem hc)
    have hlow : c.key.map tolower = n.map tolower := by simpa using heq
    exact hlow ▸ List.prefix_refl _
  · intro e he hpre
    exact hkey e.1 (PrefixTable.mem_table he).1 (List.isPrefixOf_iff_prefix.mp hpre)

theorem headerMap_iff_isMap {h : Heap} {calls : List SetCall}
    (hp : ∀ c ∈ calls, c.name.Proper h) :
    HeaderMap h calls ↔ PrefixTable.IsMap tolower (calls.map (SetCall.keyed h)) := by
  have htable : ∀ cs, cs <+: calls →
      (headersAfter h cs).map h.named = PrefixTable.table (cs.map (SetCall.keyed h)) :=
    fun cs hcs => headersAfter_named fun c hc => hp c (hcs.subset hc)
  -- the table after each call, as texts, is the prefix table of the calls
  have hsingle : ∀ cs, cs <+: calls → ((headersAfter h cs).Pairwise (fun e e' =>
        strcasecmpEq (h.str e.name.data) (h.str e'.name.data) = false) ↔
      ((PrefixTable.table (cs.map (SetCall.keyed h))).map Prod.fst).Pairwise fun x y =>
        x.map tolower ≠ y.map tolower) := by
    intro cs hcs
    rw [← htable cs hcs, List.pairwise_map, List.pairwise_map]
    simp only [strcasecmpEq_eq_false_iff]
    rfl
  constructor
  · intro hmap
    -- a text with a zero byte is no string, and no key either
    have hfound : ∀ ds, ds <+: calls.map (SetCall.keyed h) → ∀ n ≠ [],
        PrefixTable.lookup tolower (PrefixTable.table ds) n = PrefixTable.lastOf tolower ds n := by
      intro ds hds n hn
      obtain ⟨cs, hcs, rfl⟩ := prefix_of_map hds
      by_cases hz : NUL ∈ n
      · exact found_of_nul hz
      obtain ⟨name, hname, rfl⟩ := exists_name h hn hz
      rw [← htable cs hcs, ← httpHeaderStr_named hname, ← lastFor_keyed]
      exact hmap.found cs hcs name hname
    refine ⟨hfound, PrefixTable.others_of_found hfound, ?_⟩
    intro ds hds
    obtain ⟨cs, hcs, rfl⟩ := prefix_of_map hds
    exact (hsingle cs hcs).mp (hmap.single cs hcs)
  · intro hmap
    constructor
    case found =>
      intro cs hcs name hname
      rw [httpHeaderStr_named hname, htable cs hcs, lastFor_keyed]
      exact hmap.found _ (hcs.map _) _ hname.1
    case others =>
      intro cs c hcs name hname hne
      rw [httpHeaderStr_named hname, httpHeaderStr_named hname, htable _ hcs,
        htable cs ((List.prefix_append cs [c]).trans hcs), List.map_append, List.map_singleton]
      apply hmap.others
      · simpa using hcs.map (SetCall.keyed h)
      · exact hname.1
      · exact (strcasecmpEq_eq_false_iff _ _).mp hne
    case single => exact fun cs hcs => (hsingle cs hcs).mpr (hmap.single _ (hcs.map _))

theorem namesApart_iff_closed (names : List (List Byte)) :
    NamesApart names ↔ PrefixTable.Closed tolower names := by
  constructor
  · rintro ⟨hcase, hpart⟩
    refine ⟨fun x hx y hy heq => hcase x hx y hy ((strcasecmpEq_iff x y).mpr heq), ?_⟩
    intro before y after hnames n hn hpre hne
    -- the part as the name spells it
    have hspell : (y.take n.length).map tolower = n := by
      rw [List.map_take]
      exact (List.prefix_iff_eq_take.mp hpre).symm
    obtain ⟨x, hx, heq⟩ := hpart before y after hnames (y.take n.length)
      (fun h0 => hn (by rw [← hspell, h0]; rfl)) (List.take_prefix _ _)
      (fun h0 => hne (by rw [← hspell, h0]))
    exact ⟨x, hx, by rw [← hspell]; exact (strcasecmpEq_iff x _).mp heq⟩
  · rintro ⟨hinj, hearlier⟩
    refine ⟨fun x hx y hy heq => hinj x hx y hy ((strcasecmpEq_iff x y).mp heq), ?_⟩
    intro before y after hnames n hn hpre hne
    obtain ⟨x, hx, heq⟩ := hearlier before y after hnames (n.map tolower) (by simpa using hn)
      (hpre.map tolower) (fun heq => hne (hpre.eq_of_length (by
        simpa using congrArg List.length heq)))
    exact ⟨x, hx, (strcasecmpEq_iff x n).mpr heq⟩

/-! ## Names that meet -/

/-- Calls with the names and values of one's choice. -/
theorem exists_calls {h : Heap} {names : List SetName} {cs : List (PrefixTable.Call Byte Str)}
    (hcs : cs.map PrefixTable.Call.name = names.map fun n => (n.exact, n.text h))
    (hvalues : ∀ c ∈ cs, c.value.len = (h.str c.value.data).length) :
    ∃ calls : List SetCall, calls.map SetCall.name = names ∧ calls.map (SetCall.keyed h) = cs := by
  induction cs generalizing names with
  | nil => exact ⟨[], (List.map_eq_nil_iff.mp hcs.symm).symm, rfl⟩
  | cons c cs ih =>
      obtain ⟨n, names, rfl, hn, hrest⟩ := List.map_eq_cons_iff.mp hcs.symm
      obtain ⟨calls, rfl, rfl⟩ := ih hrest.symm fun d hd => hvalues d (by simp [hd])
      have hstored : SetCall.stored h ⟨n, c.value⟩ = c.value := by
        cases n with
        | set name => rfl
        | set2 name =>
            show (⟨c.value.data, (h.str c.value.data).length⟩ : Str) = c.value
            rw [← hvalues c (by simp)]
      have hkeyed : SetCall.keyed h ⟨n, c.value⟩ = c := by
        obtain ⟨exact, key, value⟩ := c
        obtain ⟨rfl, rfl⟩ := Prod.mk.inj hn
        rw [SetCall.keyed, hstored]
      exact ⟨⟨n, c.value⟩ :: calls, rfl, by rw [List.map_cons, hkeyed]⟩

/-- Whatever the values, the table is a map that ignores case after every call exactly when
    no name is another spelling of an earlier one, and each part a name starts with is an
    earlier name. -/
theorem headerMap_iff {h : Heap} {names : List SetName} (hp : ∀ n ∈ names, n.Proper h) :
    (∀ calls : List SetCall, calls.map SetCall.name = names → HeaderMap h calls) ↔
      NamesApart (names.map (SetName.text h)) := by
  have hproper : ∀ calls : List SetCall, calls.map SetCall.name = names →
      ∀ c ∈ calls, c.name.Proper h :=
    fun calls hcalls c hc => hp c.name (hcalls ▸ List.mem_map_of_mem hc)
  have hne : ∀ n ∈ names, n.text h ≠ [] := by
    intro n hn
    have := hp n hn
    cases n with
    | set name => exact this.1
    | set2 name => exact this
  rw [namesApart_iff_closed]
  constructor
  · intro hmaps
    have hkeys : ∀ p ∈ names.map fun n => (n.exact, n.text h), p.2 ≠ [] := by
      intro p hp
      obtain ⟨n, hn, rfl⟩ := List.mem_map.mp hp
      exact hne n hn
    -- two values are enough to tell the entries apart
    have hclosed := @PrefixTable.closed_of_isMap _ _ _ tolower _ hkeys _ _
      (show Str.serverString "a" ≠ Str.serverString "b" by decide) (by
        intro cs hcs hvalues
        obtain ⟨calls, hcalls, rfl⟩ := exists_calls hcs (by
          intro c hc
          rcases hvalues c hc with hv | hv <;> rw [hv] <;> rfl)
        exact (headerMap_iff_isMap (hproper calls hcalls)).mp (hmaps calls hcalls))
    rw [List.map_map] at hclosed
    exact hclosed
  · intro hclosed calls hcalls
    apply (headerMap_iff_isMap (hproper calls hcalls)).mpr
    have hkeys : (calls.map (SetCall.keyed h)).map PrefixTable.Call.key
        = names.map (SetName.text h) := by
      rw [← hcalls, List.map_map, List.map_map]
      rfl
    apply PrefixTable.Closed.isMap
    · intro c hc
      obtain ⟨d, hd, rfl⟩ := List.mem_map.mp hc
      exact hne d.name (hcalls ▸ List.mem_map_of_mem hd)
    · rw [hkeys]
      exact hclosed

/-- `X` comes before `Xy`, which begins with it. -/
theorem namesApart_two : NamesApart [bytes "X", bytes "Xy"] := by
  refine ⟨by decide, fun before y after hnames n hn hpre hne => ?_⟩
  have htake : n = y.take n.length := List.prefix_iff_eq_take.mp hpre
  rcases before with _ | ⟨x, _ | ⟨x', before⟩⟩
  · obtain rfl : bytes "X" = y := (List.cons.inj hnames).1
    have hlen : n.length ≤ 1 := hpre.length_le
    obtain h | h : n.length = 0 ∨ n.length = 1 := by omega
    · exact absurd (List.length_eq_zero_iff.mp h) hn
    · exact absurd (htake.trans (by rw [h]; rfl)) hne
  · obtain ⟨rfl, htail⟩ := List.cons.inj hnames
    obtain rfl : bytes "Xy" = y := (List.cons.inj htail).1
    have hlen : n.length ≤ 2 := hpre.length_le
    obtain h | h | h : n.length = 0 ∨ n.length = 1 ∨ n.length = 2 := by omega
    · exact absurd (List.length_eq_zero_iff.mp h) hn
    · refine ⟨_, List.mem_singleton_self _, ?_⟩
      rw [htake, h]
      decide
    · exact absurd (htake.trans (by rw [h]; rfl)) hne
  · have := congrArg List.length hnames
    simp at this

theorem headerMap_of_two :
    HeaderMap {} [⟨.set (.serverString "X"), .serverString "1"⟩,
      ⟨.set2 (.lit (bytes "Xy")), .serverString "2"⟩] := by
  refine (@headerMap_iff {} [.set (.serverString "X"), .set2 (.lit (bytes "Xy"))]
    fun n hn => ?_).mpr namesApart_two _ rfl
  rcases List.mem_cons.mp hn with rfl | hn
  · exact ⟨by decide, by decide⟩
  · rw [List.mem_singleton.mp hn]
    show Heap.str {} _ ≠ []
    decide

/-- A header whose name starts the name of another takes that one's place. -/
theorem headerMap_not_content :
    ¬ HeaderMap {} [⟨.set (.serverString "Content-Length"), .serverString "5"⟩,
      ⟨.set (.serverString "Content"), .serverString "text"⟩] := by
  intro hmap
  have hname : Heap.ProperStr {} (.serverString "Content-Length") := ⟨by decide, by decide⟩
  have hfound := hmap.found _ (List.prefix_refl _) _ hname
  revert hfound
  decide

end XwpServer
