/-
  XwpServer.UwsgiFrame

  The framing of the uwsgi packet.

  The packet is written from the front: what has been written is a prefix of the block
  (`Filled`), and the terminator of a `sprintf` lies behind it, where the next store
  overwrites it.  The size computed before is the length of what is written.
-/

import XwpServer.Uwsgi

namespace XwpServer

open CString

/-! ## C strings of their length -/

/-- `strlen`; `none` for NULL and where the block ends first. -/
def Heap.strlen (h : Heap) (p : Ptr) : Option Nat :=
  match p with
  | .null => none
  | .buf id off => (strAt (h.buf id).mem off).map List.length
  | .lit s => some (s.takeWhile (· != NUL)).length

/-- `strlen(s->data) == s->len`. -/
def Heap.Plain (h : Heap) (s : Str) : Prop := h.strlen s.data = some s.len

instance (h : Heap) (s : Str) : Decidable (h.Plain s) := inferInstanceAs (Decidable (_ = _))

theorem Heap.Plain.length {h : Heap} {s : Str} (hs : h.Plain s) :
    (h.str s.data).length = s.len := by
  obtain ⟨data, len⟩ := s
  cases data with
  | null => cases hs
  | buf id off =>
      simp only [Heap.Plain, Heap.strlen, Option.map_eq_some_iff] at hs
      obtain ⟨t, ht, hlen⟩ := hs
      simp only [Heap.str, Heap.cstr, cstr_of_strAt ht, Option.getD_some]
      exact hlen
  | lit t =>
      simp only [Heap.Plain, Heap.strlen, Option.some.injEq] at hs
      exact hs

/-- The assert on a value holds of a C string of its length. -/
theorem Heap.Plain.assertEnds_ok {h : Heap} {s : Str} (hs : h.Plain s) (hlen : 0 < s.len) :
    assertEnds h s = .ok () := by
  -- the characters of the string and its terminator
  obtain ⟨t, hz, hlt, hat⟩ : ∃ t : List Byte, NUL ∉ t ∧ t.length = s.len ∧
      ∀ i ≤ t.length, h.charAt s.data i = (t ++ [NUL])[i]? := by
    obtain ⟨data, len⟩ := s
    cases data with
    | null => cases hs
    | buf id off =>
        simp only [Heap.Plain, Heap.strlen, Option.map_eq_some_iff] at hs
        obtain ⟨t, ht, hl⟩ := hs
        obtain ⟨hz, b, hb⟩ := strAt_eq_some_iff.mp ht
        refine ⟨t, hz, hl, fun i hi => ?_⟩
        simp only [Heap.charAt, ← List.getElem?_drop, hb]
        rw [show t ++ NUL :: b = (t ++ [NUL]) ++ b by simp]
        exact List.getElem?_append_left (by simp; omega)
    | lit u =>
        simp only [Heap.Plain, Heap.strlen, Option.some.injEq] at hs
        refine ⟨u.takeWhile (· != NUL), fun hz => by simpa using List.mem_takeWhile_imp hz, hs,
          fun i hi => ?_⟩
        have hu := List.takeWhile_append_dropWhile (p := (· != NUL)) (l := u)
        simp only [Heap.charAt]
        conv_lhs => rw [← hu]
        rcases hd : u.dropWhile (· != NUL) with _ | ⟨c, cs⟩
        · rw [List.append_nil]
        · have hc : c = NUL := by
            have := List.head_dropWhile_not (· != NUL) (l := u) (by rw [hd]; simp)
            simpa [hd] using this
          subst hc
          rw [List.append_assoc, List.cons_append,
            show ∀ x : List Byte, x ++ NUL :: (cs ++ [NUL]) = (x ++ [NUL]) ++ (cs ++ [NUL]) by simp]
          exact List.getElem?_append_left (by simp; omega)
  have hend : h.charAt s.data s.len = some NUL := by
    rw [hat _ (by omega), ← hlt]
    simp
  obtain ⟨c, hc, hne⟩ : ∃ c, h.charAt s.data (s.len - 1) = some c ∧ c ≠ NUL := by
    have hi : s.len - 1 < t.length := by omega
    refine ⟨t[s.len - 1], ?_, fun h0 => hz (h0 ▸ List.getElem_mem hi)⟩
    rw [hat _ (by omega), List.getElem?_append_left hi, List.getElem?_eq_getElem hi]
  simp [assertEnds, hend, hc, hne]

/-! ## The written part of the block -/

/-- A block of `n` bytes that starts with `w`. -/
def Filled (n : Nat) (w m : List Byte) : Prop := m.length = n ∧ w <+: m

section Filled

variable {n : Nat} {w m : List Byte}

theorem Filled.mono (h : Filled n w m) {w' : List Byte} (hw : w' <+: w) : Filled n w' m :=
  ⟨h.1, hw.trans h.2⟩

theorem Filled.of_writeAt (h : Filled n w m) {bs : List Byte} (hfit : w.length + bs.length ≤ n) :
    Filled n (w ++ bs) (writeAt m w.length bs) := by
  obtain ⟨hlen, rest, rfl⟩ := h
  simp only [List.length_append] at hlen
  refine ⟨?_, rest.drop bs.length, ?_⟩
  · simp only [writeAt, List.length_append, List.length_take, List.length_drop]
    omega
  · simp [writeAt, List.drop_append]

theorem Filled.of_store (h : Filled n w m) {pos : Nat} (hpos : pos = w.length) {b : List Byte}
    (hfit : w.length + b.length ≤ n) :
    ∃ m', store m pos b = .ok m' ∧ Filled n (w ++ b) m' := by
  subst hpos
  refine ⟨_, ?_, h.of_writeAt hfit⟩
  rw [store, if_neg]
  have := h.1
  omega

/-- The terminator is behind what counts as written. -/
theorem Filled.of_sprintfStr (h : Filled n w m) {pos : Nat} (hpos : pos = w.length) {s : List Byte}
    (hfit : w.length + s.length < n) :
    ∃ m', sprintfStr m pos s = .ok m' ∧ Filled n (w ++ s ++ [NUL]) m' := by
  have hfit' : w.length + (s ++ [NUL]).length ≤ n := by
    rw [List.length_append]
    exact hfit
  obtain ⟨m', hm, hf⟩ := h.of_store hpos hfit'
  exact ⟨m', hm, by rwa [List.append_assoc]⟩

/-- The name in front of a terminator becomes that of a variable. -/
theorem Filled.of_upcase {s : List Byte} (h : Filled n (w ++ s ++ [NUL]) m) (hs : NUL ∉ s) :
    Filled n (w ++ s.map varByte) (upcase m w.length) := by
  have hc : CString.cstr m w.length = s := by
    obtain ⟨rest, rfl⟩ := h.2
    refine cstr_of_strAt (strAt_eq_some_iff.mpr ⟨hs, rest, ?_⟩)
    simp
  have hw : Filled n w m := h.mono (by rw [List.append_assoc]; exact List.prefix_append ..)
  rw [upcase, hc]
  refine hw.of_writeAt ?_
  have hle := h.2.length_le
  simp only [List.length_append, List.length_cons, List.length_nil, h.1] at hle
  rw [List.length_map]
  omega

end Filled

/-! ## The variables -/

/-- The text of a parameter's value. -/
def paramText (h : Heap) (value : Option Str) : List Byte :=
  match value.filter (0 < ·.len) with
  | some v => h.str v.data
  | none => []

/-- The variable of a header. -/
def headerVar (h : Heap) (e : Header) : List Byte × List Byte :=
  (HTTP_PREFIX ++ (h.str e.name.data).map varByte, if 0 < e.value.len then h.str e.value.data else [])

/-- The variables of a packet. -/
def packetVars (conf : UwsgiConf) (r : UpstreamRequest) : List (List Byte × List Byte) :=
  (uwsgiParams conf r).map (fun p => (p.1, paramText r.toHeap p.2)) ++
    (r.headersIn.headers.filter fun e => !skipsHeader r.toHeap e.name).map (headerVar r.toHeap)

/-- Every string that is written has its length, or is empty. -/
structure PlainStrs (conf : UwsgiConf) (r : UpstreamRequest) : Prop where
  params : ∀ p ∈ uwsgiParams conf r, ∀ v ∈ p.2, v.len = 0 ∨ r.Plain v
  names : ∀ e ∈ r.headersIn.headers, skipsHeader r.toHeap e.name = false → r.Plain e.name
  values : ∀ e ∈ r.headersIn.headers, skipsHeader r.toHeap e.name = false →
    e.value.len = 0 ∨ r.Plain e.value

/-- A string with its length in front. -/
theorem Filled.of_encodeStr {n : Nat} {w m : List Byte} (hm : Filled n w m) {pos : Nat}
    (hpos : pos = w.length) {s : List Byte} (hfit : w.length + s.length + 2 < n) :
    ∃ m₁ m₂, uint16LittleEndian m pos s.length = .ok m₁ ∧ sprintfStr m₁ (pos + 2) s = .ok m₂ ∧
      Filled n (w ++ KeyValue.encodeStr s ++ [NUL]) m₂ := by
  obtain ⟨m₁, h₁, f₁⟩ := hm.of_store hpos (b := KeyValue.le16 s.length)
    (by rw [KeyValue.le16_length]; omega)
  obtain ⟨m₂, h₂, f₂⟩ := f₁.of_sprintfStr (s := s) (show pos + 2 = _ by simp [hpos])
    (by rw [List.length_append, KeyValue.le16_length]; omega)
  exact ⟨m₁, m₂, h₁, h₂, by simpa [KeyValue.encodeStr] using f₂⟩

/-- The value of a pair, which may be empty. -/
theorem Filled.of_encodeNil {n : Nat} {w m : List Byte} (hm : Filled n w m) {pos : Nat}
    (hpos : pos = w.length) (hfit : w.length + 2 < n) :
    ∃ m₁, uint16LittleEndian m pos 0 = .ok m₁ ∧ Filled n (w ++ KeyValue.encodeStr []) m₁ :=
  hm.of_store hpos (by rw [KeyValue.le16_length]; omega)

/-- `upstream_uwsgi_add_param` writes one pair. -/
theorem addParam_filled {h : Heap} {n : Nat} {w m : List Byte} (hm : Filled n w m) {pos : Nat}
    (hpos : pos = w.length) {name : List Byte} {value : Option Str}
    (hv : ∀ v ∈ value, v.len = 0 ∨ h.Plain v)
    (hfit : w.length + (KeyValue.encodePair (name, paramText h value)).length < n) :
    ∃ m', upstreamUwsgiAddParam h m pos name value
        = .ok (m', pos + (KeyValue.encodePair (name, paramText h value)).length) ∧
      Filled n (w ++ KeyValue.encodePair (name, paramText h value)) m' := by
  simp only [KeyValue.encodePair_length] at hfit
  obtain ⟨m₁, m₂, h₁, h₂, f₂⟩ := hm.of_encodeStr hpos (s := name) (by omega)
  have f₂ := f₂.mono (List.prefix_append _ _)
  have hpos₂ : pos + 2 + name.length = (w ++ KeyValue.encodeStr name).length := by
    simp only [List.length_append, KeyValue.encodeStr_length]
    omega
  simp only [upstreamUwsgiAddParam, h₁, h₂, bind, Except.bind, pure, Except.pure]
  -- a value of length 0 is written as none: two zero bytes
  rcases hf : value.filter (0 < ·.len) with _ | v
  · have htext : paramText h value = [] := by rw [paramText, hf]
    rw [htext] at hfit ⊢
    simp only [List.length_nil] at hfit
    obtain ⟨m₃, h₃, f₃⟩ := f₂.of_encodeNil hpos₂ (by rw [← hpos₂]; omega)
    simp only [hf, h₃, KeyValue.encodePair_length, List.length_nil]
    refine ⟨m₃, ?_, by simpa [KeyValue.encodePair] using f₃⟩
    simp only [Except.ok.injEq, Prod.mk.injEq, true_and]
    omega
  · obtain ⟨hmem, hlen⟩ : v ∈ value ∧ 0 < v.len := by simpa [Option.filter_eq_some_iff] using hf
    have htext : paramText h value = h.str v.data := by rw [paramText, hf]
    have hplain := (hv v hmem).resolve_left (by omega)
    rw [htext] at hfit ⊢
    obtain ⟨m₃, m₄, h₃, h₄, f₄⟩ := f₂.of_encodeStr hpos₂ (s := h.str v.data)
      (by rw [← hpos₂]; omega)
    rw [hplain.length] at h₃
    simp only [hf, hplain.assertEnds_ok hlen, h₃, h₄, KeyValue.encodePair_length, hplain.length]
    refine ⟨m₄, ?_, (f₄.mono (List.prefix_append _ _)).mono (by simp [KeyValue.encodePair])⟩
    simp only [Except.ok.injEq, Prod.mk.injEq, true_and]
    omega

/-- A header that is not skipped is written as one pair. -/
theorem addHeader_filled {h : Heap} {n : Nat} {w m : List Byte} (hm : Filled n w m) {pos : Nat}
    (hpos : pos = w.length) {e : Header} (hskip : skipsHeader h e.name = false)
    (hname : h.Plain e.name) (hvalue : e.value.len = 0 ∨ h.Plain e.value)
    (hfit : w.length + (KeyValue.encodePair (headerVar h e)).length < n) :
    ∃ m', upstreamUwsgiAddHeader h m pos e
        = .ok (m', pos + (KeyValue.encodePair (headerVar h e)).length) ∧
      Filled n (w ++ KeyValue.encodePair (headerVar h e)) m' := by
  have hfit' : w.length + (HTTP_PREFIX.length + e.name.len) + (headerVar h e).2.length + 4 < n := by
    simp only [KeyValue.encodePair_length, headerVar, List.length_append, List.length_map,
      hname.length] at hfit ⊢
    omega
  obtain ⟨m₁, m₂, h₁, h₂, f₂⟩ := hm.of_encodeStr hpos (s := HTTP_PREFIX ++ h.str e.name.data)
    (by rw [List.length_append, hname.length]; omega)
  have hlen : (HTTP_PREFIX ++ h.str e.name.data).length = e.name.len + HTTP_PREFIX.length := by
    rw [List.length_append, hname.length, Nat.add_comm]
  rw [hlen] at h₁
  -- the name is turned into that of the variable in the block
  have f₃ : Filled n (w ++ KeyValue.encodeStr (headerVar h e).1)
      (upcase m₂ (pos + 2 + HTTP_PREFIX.length)) := by
    have hp : pos + 2 + HTTP_PREFIX.length
        = (w ++ KeyValue.le16 (e.name.len + HTTP_PREFIX.length) ++ HTTP_PREFIX).length := by
      simp only [List.length_append, KeyValue.le16_length]
      omega
    rw [KeyValue.encodeStr, hlen] at f₂
    have := Filled.of_upcase (w := w ++ KeyValue.le16 (e.name.len + HTTP_PREFIX.length) ++ HTTP_PREFIX)
      (by simpa only [List.append_assoc] using f₂) (h.notMem_str e.name.data)
    rw [← hp] at this
    refine this.mono ?_
    have hvar : (headerVar h e).1.length = e.name.len + HTTP_PREFIX.length := by
      simp only [headerVar, List.length_append, List.length_map, hname.length]
      omega
    rw [KeyValue.encodeStr, hvar]
    simp [headerVar]
  have hpos₃ : pos + 2 + (HTTP_PREFIX ++ h.str e.name.data).length
      = (w ++ KeyValue.encodeStr (headerVar h e).1).length := by
    simp only [List.length_append, KeyValue.encodeStr_length, headerVar, List.length_map]
    omega
  simp only [upstreamUwsgiAddHeader, hskip, Bool.false_eq_true, if_false, h₁, h₂, bind,
    Except.bind, pure, Except.pure]
  have hpair : (KeyValue.encodePair (headerVar h e)).length
      = 2 + (HTTP_PREFIX ++ h.str e.name.data).length + 2 + (headerVar h e).2.length := by
    simp only [KeyValue.encodePair_length, headerVar, List.length_append, List.length_map]
    omega
  by_cases hv : 0 < e.value.len
  · have hplain := hvalue.resolve_left (by omega)
    have hval : (headerVar h e).2 = h.str e.value.data := by simp [headerVar, hv]
    obtain ⟨m₄, m₅, h₄, h₅, f₅⟩ := f₃.of_encodeStr hpos₃ (s := h.str e.value.data) (by
      rw [hval] at hfit'
      rw [← hpos₃, hlen]
      omega)
    rw [hplain.length] at h₄
    simp only [hv, if_true, h₄, h₅]
    refine ⟨m₅, ?_, (f₅.mono (List.prefix_append _ _)).mono (by simp [KeyValue.encodePair, hval])⟩
    rw [hpair, hval]
    simp only [Except.ok.injEq, Prod.mk.injEq, true_and]
    omega
  · have hval : (headerVar h e).2 = [] := by simp [headerVar, hv]
    obtain ⟨m₄, h₄, f₄⟩ := f₃.of_encodeNil hpos₃ (by rw [← hpos₃, hlen]; omega)
    simp only [hv, if_false, h₄]
    refine ⟨m₄, ?_, f₄.mono (by simp [KeyValue.encodePair, hval])⟩
    rw [hpair, hval]
    simp only [Except.ok.injEq, Prod.mk.injEq, true_and, List.length_nil]
    omega

/-! ## The whole packet -/

/-- A loop each round of which writes some pairs. -/
theorem foldlM_filled {α : Type} {f : List Byte × Nat → α → Except Stop (List Byte × Nat)}
    {vars : α → List (List Byte × List Byte)} {n : Nat} (l : List α)
    (hf : ∀ a ∈ l, ∀ w m pos, Filled n w m → pos = w.length →
      w.length + (KeyValue.encode (vars a)).length < n →
      ∃ m', f (m, pos) a = .ok (m', pos + (KeyValue.encode (vars a)).length) ∧
        Filled n (w ++ KeyValue.encode (vars a)) m')
    {w m : List Byte} {pos : Nat} (hm : Filled n w m) (hpos : pos = w.length)
    (hfit : w.length + (KeyValue.encode (l.flatMap vars)).length < n) :
    ∃ m', l.foldlM f (m, pos) = .ok (m', pos + (KeyValue.encode (l.flatMap vars)).length) ∧
      Filled n (w ++ KeyValue.encode (l.flatMap vars)) m' := by
  induction l generalizing w m pos with
  | nil => exact ⟨m, rfl, by simpa using hm⟩
  | cons a l ih =>
      simp only [List.flatMap_cons, KeyValue.encode_append, List.length_append] at hfit ⊢
      obtain ⟨m₁, h₁, f₁⟩ := hf a (by simp) w m pos hm hpos (by omega)
      obtain ⟨m₂, h₂, f₂⟩ := ih (fun b hb => hf b (by simp [hb])) f₁
        (show pos + (KeyValue.encode (vars a)).length = _ by rw [hpos, List.length_append])
        (by rw [List.length_append]; omega)
      refine ⟨m₂, ?_, by simpa [List.append_assoc] using f₂⟩
      simp only [List.foldlM_cons, h₁, bind, Except.bind, h₂, Nat.add_assoc]

theorem foldl_mod (l : List Nat) (d : Nat) :
    l.foldl (fun d n => (d + n) % 2 ^ 16) (d % 2 ^ 16) = (d + l.sum) % 2 ^ 16 := by
  induction l generalizing d with
  | nil => rfl
  | cons n l ih =>
      simp only [List.foldl_cons, List.sum_cons, Nat.mod_add_mod]
      rw [ih, Nat.add_assoc]

theorem lenOr_eq {h : Heap} {v : Option Str} (hv : ∀ s ∈ v, s.len = 0 ∨ h.Plain s) :
    Str.lenOr v = (paramText h v).length := by
  rcases v with _ | s
  · rfl
  · by_cases hs : 0 < s.len
    · have hplain := (hv s rfl).resolve_left (by omega)
      simp [Str.lenOr, paramText, Option.filter, hs, hplain.length]
    · simp [Str.lenOr, paramText, Option.filter, hs]
      omega

section Packet

variable {conf : UwsgiConf} {r : UpstreamRequest}

/-- The pairs of one header: one, or none. -/
def headerVars (h : Heap) (e : Header) : List (List Byte × List Byte) :=
  if skipsHeader h e.name then [] else [headerVar h e]

theorem packetVars_eq (conf : UwsgiConf) (r : UpstreamRequest) :
    packetVars conf r = (uwsgiParams conf r).flatMap (fun p => [(p.1, paramText r.toHeap p.2)]) ++
      r.headersIn.headers.flatMap (headerVars r.toHeap) := by
  have hheaders : ∀ l : List Header,
      (l.filter fun e => !skipsHeader r.toHeap e.name).map (headerVar r.toHeap)
        = l.flatMap (headerVars r.toHeap) := by
    intro l
    induction l with
    | nil => rfl
    | cons e l ih =>
        rw [List.flatMap_cons, ← ih, headerVars, List.filter_cons]
        cases skipsHeader r.toHeap e.name <;> rfl
  rw [packetVars, hheaders, List.map_eq_flatMap]

/-- The headers that are sent. -/
def sentHeaders (r : UpstreamRequest) : List Header :=
  r.headersIn.headers.filter fun e => !skipsHeader r.toHeap e.name

/-- What the variables take: names and values, each with two bytes in front. -/
def variablesSize (conf : UwsgiConf) (r : UpstreamRequest) : Nat :=
  ((uwsgiParams conf r).map fun p => p.1.length + Str.lenOr p.2 + 4).sum +
    ((sentHeaders r).map fun e => HTTP_PREFIX.length + e.name.len + e.value.len + 4).sum

/-- What is summed, in the order of the source, is the size of the variables. -/
theorem calcPacketLen_mod (conf : UwsgiConf) (r : UpstreamRequest) :
    upstreamUwsgiCalcPacketLen conf r = variablesSize conf r % 2 ^ 16 := by
  have hsent : ∀ l : List Header,
      (l.map fun e => if skipsHeader r.toHeap e.name then 0
        else HTTP_PREFIX.length + e.name.len + e.value.len + 4).sum
        = ((l.filter fun e => !skipsHeader r.toHeap e.name).map fun e =>
          HTTP_PREFIX.length + e.name.len + e.value.len + 4).sum := by
    intro l
    induction l with
    | nil => rfl
    | cons e l ih =>
        rw [List.map_cons, List.sum_cons, ih, List.filter_cons]
        cases skipsHeader r.toHeap e.name
        · rfl
        · exact Nat.zero_add _
  rw [upstreamUwsgiCalcPacketLen, variablesSize, sentHeaders, ← hsent]
  generalize (r.headersIn.headers.map fun e => if skipsHeader r.toHeap e.name then 0
    else HTTP_PREFIX.length + e.name.len + e.value.len + 4) = headers
  -- the path and the whole URL change places, which the sum does not show
  rw [show (0 : Nat) = 0 % 2 ^ 16 from rfl, foldl_mod, List.sum_append]
  simp only [uwsgiParams, List.map_cons, List.map_nil, List.sum_cons, List.sum_nil, Str.lenOr,
    Option.map_some, Option.getD_some, portStr]
  congr 1
  omega

/-- Proper strings are written with their lengths. -/
theorem variablesSize_plain (hstr : PlainStrs conf r) :
    variablesSize conf r = (KeyValue.encode (packetVars conf r)).length := by
  rw [variablesSize, KeyValue.encode_length, packetVars, List.map_append, List.sum_append,
    List.map_map, List.map_map]
  congr 1
  · refine congrArg List.sum (List.map_congr_left fun p hp => ?_)
    simp only [Function.comp, lenOr_eq (hstr.params p hp)]
  · refine congrArg List.sum (List.map_congr_left fun e he => ?_)
    obtain ⟨he, hskip⟩ := List.mem_filter.mp he
    have hskip : skipsHeader r.toHeap e.name = false := by simpa using hskip
    have hvalue : (headerVar r.toHeap e).2.length = e.value.len := by
      rcases hstr.values e he hskip with h | h
      · simp [headerVar, h]
      · by_cases hlen : 0 < e.value.len
        · simp [headerVar, hlen, h.length]
        · simp [headerVar, hlen]
          omega
    simp only [Function.comp, hvalue]
    simp only [headerVar, List.length_append, List.length_map, (hstr.names e he hskip).length]

/-- The size that is computed is that of the variables, in 16 bits. -/
theorem calcPacketLen_eq (hstr : PlainStrs conf r) :
    upstreamUwsgiCalcPacketLen conf r = (KeyValue.encode (packetVars conf r)).length % 2 ^ 16 := by
  rw [calcPacketLen_mod, variablesSize_plain hstr]

/-- The header of the packet. -/
theorem header_filled (conf : UwsgiConf) (datasize : Nat) :
    ∃ m₁ m₂ m₃, store (List.replicate (datasize + 4 + 1) NUL) 0 [conf.modifier1] = .ok m₁ ∧
      uint16LittleEndian m₁ 1 datasize = .ok m₂ ∧ store m₂ 3 [conf.modifier2] = .ok m₃ ∧
      Filled (datasize + 5) ([conf.modifier1] ++ KeyValue.le16 datasize ++ [conf.modifier2]) m₃ := by
  have f₀ : Filled (datasize + 5) [] (List.replicate (datasize + 4 + 1) NUL) :=
    ⟨by simp, List.nil_prefix⟩
  obtain ⟨m₁, h₁, f₁⟩ := f₀.of_store rfl (b := [conf.modifier1]) (by simp)
  obtain ⟨m₂, h₂, f₂⟩ := f₁.of_store rfl (b := KeyValue.le16 datasize) (by simp)
  obtain ⟨m₃, h₃, f₃⟩ := f₂.of_store rfl (b := [conf.modifier2]) (by simp)
  exact ⟨m₁, m₂, m₃, h₁, h₂, h₃, f₃⟩

/-- The bytes of a packet with the variables `vars`. -/
def packetBytes (conf : UwsgiConf) (vars : List (List Byte × List Byte)) : List Byte :=
  [conf.modifier1] ++ KeyValue.le16 (KeyValue.encode vars).length ++ [conf.modifier2] ++
    KeyValue.encode vars

theorem uwsgiDecode_packetBytes (conf : UwsgiConf) {vars : List (List Byte × List Byte)}
    (hsize : (KeyValue.encode vars).length ≤ 65535) :
    uwsgiDecode (packetBytes conf vars) = some (conf.modifier1, conf.modifier2, vars) := by
  have hfit : ∀ p ∈ vars, p.1.length < 2 ^ 16 ∧ p.2.length < 2 ^ 16 := by
    intro p hp
    have := KeyValue.length_le_encode hp
    omega
  simp only [packetBytes, KeyValue.le16, List.cons_append, List.nil_append, uwsgiDecode]
  rw [KeyValue.ofLe16_le16 (by omega), if_pos rfl, KeyValue.decode_encode hfit]
  rfl

/-- `upstream_uwsgi_process` fills its block with the packet. -/
theorem uwsgiBuild_filled (hstr : PlainStrs conf r)
    (hsize : (KeyValue.encode (packetVars conf r)).length ≤ 65535) :
    upstreamUwsgiCalcPacketLen conf r = (KeyValue.encode (packetVars conf r)).length ∧
      ∃ m, uwsgiBuild conf r = .ok (m, upstreamUwsgiCalcPacketLen conf r + 4) ∧
        m.length = upstreamUwsgiCalcPacketLen conf r + 5 ∧
        m.take (upstreamUwsgiCalcPacketLen conf r + 4) = packetBytes conf (packetVars conf r) := by
  have hlen : upstreamUwsgiCalcPacketLen conf r = (KeyValue.encode (packetVars conf r)).length := by
    rw [calcPacketLen_eq hstr, Nat.mod_eq_of_lt (by omega)]
  refine ⟨hlen, ?_⟩
  generalize hd : upstreamUwsgiCalcPacketLen conf r = datasize at hlen ⊢
  -- the four bytes of the header, then the parameters, then the headers
  obtain ⟨m₁, m₂, m₃, h₁, h₂, h₃, f₃⟩ := header_filled conf datasize
  have hencode : KeyValue.encode (packetVars conf r) = KeyValue.encode ((uwsgiParams conf r).flatMap
      fun p => [(p.1, paramText r.toHeap p.2)]) ++
        KeyValue.encode (r.headersIn.headers.flatMap (headerVars r.toHeap)) := by
    rw [packetVars_eq, KeyValue.encode_append]
  have hvars := congrArg List.length hencode
  rw [List.length_append, ← hlen] at hvars
  obtain ⟨m₄, h₄, f₄⟩ := @foldlM_filled _
    (fun x p => upstreamUwsgiAddParam r.toHeap x.1 x.2 p.1 p.2)
    (fun p => [(p.1, paramText r.toHeap p.2)]) _ (uwsgiParams conf r)
    (fun p hp w m pos hm hpos hfit => by
      have := addParam_filled hm hpos (hstr.params p hp) (by simpa [KeyValue.encode] using hfit)
      simpa [KeyValue.encode] using this) _ _ 4 f₃ (by simp) (by simp; omega)
  obtain ⟨m₅, h₅, f₅⟩ := @foldlM_filled _ (fun x e => upstreamUwsgiAddHeader r.toHeap x.1 x.2 e)
    (headerVars r.toHeap) _ r.headersIn.headers (fun e he w m pos hm hpos hfit => by
      rcases hskip : skipsHeader r.toHeap e.name with _ | _
      · simp only [headerVars, hskip, Bool.false_eq_true, if_false] at hfit ⊢
        have := addHeader_filled hm hpos hskip (hstr.names e he hskip) (hstr.values e he hskip)
          (by simpa [KeyValue.encode] using hfit)
        simpa [KeyValue.encode] using this
      · exact ⟨m, by simp [upstreamUwsgiAddHeader, headerVars, hskip],
          by simpa [headerVars, hskip] using hm⟩) _
    _ (4 + (KeyValue.encode ((uwsgiParams conf r).flatMap
      fun p => [(p.1, paramText r.toHeap p.2)])).length) f₄ (by simp; omega) (by simp; omega)
  have hbuild : uwsgiBuild conf r = .ok (m₅, datasize + 4) := by
    simp only [uwsgiBuild, hd, h₁, h₂, h₃, h₄, h₅, bind, Except.bind, Except.ok.injEq,
      Prod.mk.injEq, true_and]
    omega
  refine ⟨m₅, hbuild, f₅.1, ?_⟩
  obtain ⟨rest, hrest⟩ := f₅.2
  rw [packetBytes, ← hlen, hencode, ← hrest, ← List.append_assoc]
  refine List.take_left' ?_
  simp only [List.length_append, List.length_cons, List.length_nil, KeyValue.le16_length]
  omega

/-- When every string has its length and the variables fit into 16 bits, the packet is
    written inside its block, its size is the one computed before, and a receiver reads the
    variables that were written. -/
theorem uwsgiPacket_framed (hstr : PlainStrs conf r)
    (hsize : ((packetVars conf r).map fun p => p.1.length + p.2.length + 4).sum ≤ 65535) :
    ∃ m, uwsgiBuild conf r = .ok (m, upstreamUwsgiCalcPacketLen conf r + 4) ∧
      m.length = upstreamUwsgiCalcPacketLen conf r + 5 ∧
      uwsgiPacket conf r = .ok (m.take (upstreamUwsgiCalcPacketLen conf r + 4)) ∧
      uwsgiDecode (m.take (upstreamUwsgiCalcPacketLen conf r + 4))
        = some (conf.modifier1, conf.modifier2, packetVars conf r) := by
  rw [← KeyValue.encode_length] at hsize
  obtain ⟨-, m, hbuild, hlen, htake⟩ := uwsgiBuild_filled hstr hsize
  refine ⟨m, hbuild, hlen, ?_, ?_⟩
  · simp only [uwsgiPacket, hbuild, bind, Except.bind, if_true, pure, Except.pure]
  · rw [htake]
    exact uwsgiDecode_packetBytes conf hsize

/-- A request for `/a?b` with one header, behind a server on port 80. -/
def exampleUwsgiConf : UwsgiConf where
  modifier1 := 0
  modifier2 := 0
  root := .serverString "/srv"
  name := .serverString "xwp"
  ip := .serverString "10.0.0.1"
  port := 80

def exampleUpstreamRequest : UpstreamRequest where
  methodStr := .serverString "GET"
  versionStr := .serverString "HTTP/1.1"
  url := {
    unparsedUrl := .serverString "/a?b"
    path := .serverString "/a"
    queryString := .serverString "b" }
  headersIn := { headers := [⟨.serverString "X-Id", .serverString "7"⟩] }
  remoteIp := .serverString "10.0.0.2"

theorem uwsgiPacket_framed_example :
    ∃ m, uwsgiBuild exampleUwsgiConf exampleUpstreamRequest
        = .ok (m, upstreamUwsgiCalcPacketLen exampleUwsgiConf exampleUpstreamRequest + 4) ∧
      uwsgiDecode (m.take
          (upstreamUwsgiCalcPacketLen exampleUwsgiConf exampleUpstreamRequest + 4))
        = some (0, 0, packetVars exampleUwsgiConf exampleUpstreamRequest) := by
  obtain ⟨m, hm, -, -, hd⟩ := @uwsgiPacket_framed exampleUwsgiConf exampleUpstreamRequest
    ⟨by decide, by decide, by decide⟩ (by decide)
  exact ⟨m, hm, hd⟩

end Packet

end XwpServer
