/-
  XwpServer.XmlBuffer

  The buffer of the XML parser.

  Strings are kept one behind the other, each trimmed in place, in a buffer that grows at
  most once for a string.  One growth makes room for 128 bytes more, so a string of at most
  127 bytes is always kept (`xmlParserStrdup_keeps`); what was kept before it stays, also
  when the buffer moves.  Any number of such strings so reads back as what they are without
  the spaces around them (`keepAll_strings`).  A longer string can be refused, and is on a
  new parser (`xmlParserStrdup_refuses`).
-/

import XwpServer.XmlParser

namespace XwpServer

open CString Scan

/-! ## Trimming in place -/

/-- A string without the spaces around it. -/
def trim (s : List Byte) : List Byte := (s.rdropWhile isspace).dropWhile isspace

theorem trim_sublist (s : List Byte) : (trim s).Sublist s :=
  (List.dropWhile_sublist _).trans (List.rdropWhile_prefix _ _).sublist

theorem not_mem_trim {s : List Byte} (hs : NUL ∉ s) : NUL ∉ trim s :=
  fun h => hs ((trim_sublist s).subset h)

/-- Without its first byte a string can be trimmed at its end first. -/
theorem trim_cons (c : Byte) (t : List Byte) :
    trim (c :: t) = (c :: t.rdropWhile isspace).dropWhile isspace := by
  induction t using List.reverseRecOn with
  | nil =>
      rw [trim, List.rdropWhile_nil, List.rdropWhile_singleton]
      by_cases hc : isspace c = true
      · rw [if_pos hc, List.dropWhile_cons_of_pos hc]
      · rw [if_neg hc]
  | append_singleton t x ih =>
      by_cases hx : isspace x = true
      · rw [List.rdropWhile_concat_pos _ _ _ hx, ← ih, trim, ← List.cons_append,
          List.rdropWhile_concat_pos _ _ _ hx]
        rfl
      · rw [List.rdropWhile_concat_neg _ _ _ hx, trim, ← List.cons_append,
          List.rdropWhile_concat_neg _ _ _ hx]

/-- The loop at the end of a string puts terminators over the spaces there, but for the first
    byte of the string. -/
theorem strtrimEnd_eq (pre : List Byte) (c : Byte) (t post : List Byte) :
    ∃ zs, (∀ z ∈ zs, z = NUL) ∧ (t.rdropWhile isspace).length + zs.length = t.length ∧
      strtrimEnd pre.length (pre ++ (c :: t ++ NUL :: post)) (pre.length + (t.length + 1)) =
        some (pre ++ (c :: t.rdropWhile isspace ++ (zs ++ NUL :: post))) := by
  induction t using List.reverseRecOn generalizing post with
  | nil =>
      refine ⟨[], nofun, rfl, ?_⟩
      show strtrimEnd pre.length _ (pre.length + 1) = _
      rw [strtrimEnd, List.getElem?_append_right (Nat.le_refl _), Nat.sub_self]
      simp
  | append_singleton t x ih =>
      have hget : (pre ++ (c :: (t ++ [x]) ++ NUL :: post))[pre.length + (t.length + 1)]? = some x := by
        rw [List.getElem?_append_right (by omega), Nat.add_sub_cancel_left]
        simp
      rw [List.length_append, List.length_singleton, ← Nat.add_assoc, strtrimEnd, hget]
      have hne : pre.length + (t.length + 1) ≠ pre.length := by omega
      by_cases hx : isspace x = true
      · have hset : (pre ++ (c :: (t ++ [x]) ++ NUL :: post)).set (pre.length + (t.length + 1)) NUL =
            pre ++ (c :: t ++ NUL :: (NUL :: post)) := by
          rw [List.set_append_right _ _ (by omega), Nat.add_sub_cancel_left]
          simp
        obtain ⟨zs, hz, hlen, htrim⟩ := ih (NUL :: post)
        refine ⟨zs ++ [NUL], ?_, ?_, ?_⟩
        · intro z hm
          rcases List.mem_append.mp hm with hm | hm
          · exact hz z hm
          · simpa using hm
        · rw [List.rdropWhile_concat_pos _ _ _ hx, List.length_append, List.length_singleton]
          omega
        · simp only [hne, hx, ne_eq, not_false_eq_true, decide_true, Bool.and_self, if_true]
          rw [hset, htrim, List.rdropWhile_concat_pos _ _ _ hx]
          simp
      · refine ⟨[], nofun, ?_, ?_⟩
        · rw [List.rdropWhile_concat_neg _ _ _ hx, List.length_append]
          rfl
        · simp [hx]

/-- A string whose terminator is the next byte, or the first one of `zs`. -/
theorem strAt_terminated {pre u zs post : List Byte} (hu : NUL ∉ u)
    (hz : zs = [] ∨ zs.head? = some NUL) :
    strAt (pre ++ (u ++ (zs ++ NUL :: post))) pre.length = some u := by
  refine strAt_eq_some_iff.mpr ⟨hu, ?_⟩
  rw [List.drop_left]
  rcases hz with rfl | hz
  · exact ⟨post, rfl⟩
  · cases zs with
    | nil => cases hz
    | cons z zs =>
        cases hz
        exact ⟨zs ++ NUL :: post, rfl⟩

/-- An empty string behind another one is left as it is. -/
theorem strtrim_empty (p post : List Byte) :
    strtrim ((p ++ [NUL]) ++ NUL :: post) (p ++ [NUL]).length
      = some ((p ++ [NUL]) ++ NUL :: post) := by
  have hstr : strAt ((p ++ [NUL]) ++ NUL :: post) (p ++ [NUL]).length = some [] :=
    @strAt_terminated _ [] [] post List.not_mem_nil (.inl rfl)
  have hend : strtrimEnd (p ++ [NUL]).length ((p ++ [NUL]) ++ NUL :: post)
      ((p ++ [NUL]).length + 0) = some ((p ++ [NUL]) ++ NUL :: post) := by
    simp only [List.length_append, List.length_singleton, Nat.add_zero]
    rw [strtrimEnd]
    simp
  rw [strtrim, hstr]
  show (strtrimEnd _ _ ((p ++ [NUL]).length + 0) >>= _) = _
  rw [hend]
  show (strAt _ _ >>= _) = _
  rw [hstr]
  rfl

/-- Trimming a string leaves the bytes around it, and bytes behind the trimmed string that start
    with its terminator. -/
theorem strtrim_eq {pre s : List Byte} (post : List Byte) (hs : NUL ∉ s)
    (hpre : s ≠ [] ∨ ∃ p, pre = p ++ [NUL]) :
    ∃ junk, strtrim (pre ++ (s ++ NUL :: post)) pre.length =
        some (pre ++ (trim s ++ (junk ++ NUL :: post))) ∧
      (trim s).length + junk.length = s.length ∧ (junk = [] ∨ junk.head? = some NUL) := by
  cases s with
  | nil =>
      obtain ⟨p, rfl⟩ := hpre.resolve_left (fun h => h rfl)
      exact ⟨[], strtrim_empty p post, rfl, .inl rfl⟩
  | cons c t =>
      obtain ⟨zs, hz, hlen, hend⟩ := strtrimEnd_eq pre c t post
      have hu : NUL ∉ c :: t.rdropWhile isspace := by
        intro h
        rcases List.mem_cons.mp h with h | h
        · exact hs (h ▸ List.mem_cons_self)
        · exact hs (List.mem_cons_of_mem _ ((List.rdropWhile_prefix _ _).subset h))
      have hzs : zs = [] ∨ zs.head? = some NUL := by
        cases zs with
        | nil => exact .inl rfl
        | cons z zs => exact .inr (congrArg some (hz z List.mem_cons_self))
      have hbegin : strtrim (pre ++ (c :: t ++ NUL :: post)) pre.length =
          some (if (trim (c :: t)).length = (c :: t.rdropWhile isspace).length then
              pre ++ (c :: t.rdropWhile isspace ++ (zs ++ NUL :: post))
            else poke (pre ++ (c :: t.rdropWhile isspace ++ (zs ++ NUL :: post))) pre.length
              (trim (c :: t) ++ [NUL])) := by
        rw [strtrim]
        show (strAt (pre ++ (c :: t ++ ([] ++ NUL :: post))) _ >>= _) = _
        rw [strAt_terminated hs (.inl rfl)]
        show (strtrimEnd _ _ (pre.length + (t.length + 1)) >>= _) = _
        rw [hend]
        show (strAt _ _ >>= _) = _
        rw [strAt_terminated hu hzs, trim_cons]
        rfl
      have hsuffix : trim (c :: t) <:+ c :: t.rdropWhile isspace := by
        rw [trim_cons]
        exact List.dropWhile_suffix _
      rw [hbegin]
      by_cases heq : (trim (c :: t)).length = (c :: t.rdropWhile isspace).length
      · rw [if_pos heq, hsuffix.eq_of_length heq]
        refine ⟨zs, rfl, ?_, hzs⟩
        rw [List.length_cons, List.length_cons]
        omega
      · rw [if_neg heq]
        have hle := hsuffix.length_le
        generalize trim (c :: t) = u at *
        generalize huv : c :: t.rdropWhile isspace = v at *
        have hvl : v.length = (t.rdropWhile isspace).length + 1 := by rw [← huv, List.length_cons]
        refine ⟨NUL :: (v.drop (u.length + 1) ++ zs), ?_, ?_, .inr rfl⟩
        · rw [poke, List.take_left, List.length_append, List.length_singleton, ← List.drop_drop,
            List.drop_left, List.drop_append_of_le_length (by omega)]
          simp
        · rw [List.length_cons, List.length_append, List.length_drop, List.length_cons]
          omega

/-! ## Keeping strings -/

/-- What every operation keeps: the strings lie in the buffer, the last one is terminated, and no
    more was written than there is room for. -/
structure XmlParser.Ok (thiz : XmlParser) : Prop where
  used_le : thiz.bufferUsed ≤ thiz.buffer.length
  le_total : thiz.buffer.length ≤ thiz.bufferTotal
  ends : thiz.bufferUsed = 0 ∨ ∃ p, thiz.buffer.take thiz.bufferUsed = p ++ [NUL]

theorem XmlParser.ok_new : ({} : XmlParser).Ok where
  used_le := Nat.le_refl _
  le_total := Nat.le_refl _
  ends := .inl rfl

theorem XmlParser.Ok.reset {thiz : XmlParser} (h : thiz.Ok) : (xmlParserResetBuffer thiz).Ok where
  used_le := Nat.zero_le _
  le_total := h.le_total
  ends := .inl rfl

/-- The bytes of the strings that are kept. -/
def XmlParser.kept (thiz : XmlParser) : List Byte := thiz.buffer.take thiz.bufferUsed

/-- The string is kept at the offset. -/
def XmlParser.Keeps (thiz : XmlParser) (offset : Nat) (s : List Byte) : Prop :=
  strAt thiz.kept offset = some s

theorem XmlParser.Keeps.string {thiz : XmlParser} {offset : Nat} {s : List Byte} (h : thiz.Ok)
    (hk : thiz.Keeps offset s) : thiz.string (some offset) = .str s := by
  have hlt := length_lt_of_strAt hk
  have hframe := strAt_frame hk [] (thiz.buffer.drop thiz.bufferUsed)
  rw [List.nil_append, XmlParser.kept, List.take_append_drop, List.length_nil, Nat.zero_add] at hframe
  have htotal : thiz.bufferTotal ≠ 0 := by
    have hle := h.le_total
    have hkept : thiz.kept.length ≤ thiz.buffer.length := List.length_take_le' _ _
    omega
  rw [XmlParser.string]
  simp only [htotal, if_false, hframe]

/-- The buffer grows at most once for a string, by at least 128 bytes. -/
theorem grows (thiz : XmlParser) (s : List Byte) :
    ∃ total, (if thiz.bufferUsed + s.length ≥ thiz.bufferTotal then
        { thiz with bufferTotal := thiz.bufferTotal + thiz.bufferTotal / 2 + 128 } else thiz) =
        { thiz with bufferTotal := total } ∧ thiz.bufferTotal ≤ total ∧
      (thiz.bufferUsed ≤ thiz.bufferTotal → s.length ≤ 127 → thiz.bufferUsed + s.length < total) := by
  by_cases hfull : thiz.bufferUsed + s.length ≥ thiz.bufferTotal
  · exact ⟨_, if_pos hfull, by omega, by omega⟩
  · exact ⟨thiz.bufferTotal, if_neg hfull, Nat.le_refl _, by omega⟩

/-- What it is for a string to be kept behind those that were kept before. -/
structure KeptBehind (thiz : XmlParser) (s : List Byte) (thiz' : XmlParser) : Prop where
  result : xmlParserStrdup thiz s = .ok (some thiz.bufferUsed, thiz')
  ok : thiz'.Ok
  attrs : thiz'.attrs = thiz.attrs
  used : thiz'.bufferUsed = thiz.bufferUsed + s.length + 1
  keeps : thiz'.Keeps thiz.bufferUsed (trim s)
  before : ∀ offset t, thiz.Keeps offset t → thiz'.Keeps offset t
  notFault : s ≠ [] ∨ 0 < thiz.bufferUsed

theorem keptBehind_of_room {thiz : XmlParser} (h : thiz.Ok) {s : List Byte} {total : Nat}
    (hgrow : (if thiz.bufferUsed + s.length ≥ thiz.bufferTotal then
      { thiz with bufferTotal := thiz.bufferTotal + thiz.bufferTotal / 2 + 128 } else thiz) =
      { thiz with bufferTotal := total })
    (htotal : thiz.bufferTotal ≤ total) (hroom : thiz.bufferUsed + s.length < total)
    (hs : NUL ∉ s) (hne : s ≠ [] ∨ 0 < thiz.bufferUsed) : ∃ thiz', KeptBehind thiz s thiz' := by
  have hkept : thiz.kept.length = thiz.bufferUsed := by
    rw [XmlParser.kept, List.length_take]
    exact Nat.min_eq_left h.used_le
  have hpre : s ≠ [] ∨ ∃ p, thiz.kept = p ++ [NUL] := by
    rcases hne with hne | hpos
    · exact .inl hne
    · exact .inr (h.ends.resolve_left (Nat.pos_iff_ne_zero.mp hpos))
  obtain ⟨junk, htrim, hjunk, hhead⟩ :=
    strtrim_eq (thiz.buffer.drop (thiz.bufferUsed + (s ++ [NUL]).length)) hs hpre
  rw [hkept] at htrim
  have hpoke : poke thiz.buffer thiz.bufferUsed (s ++ [NUL]) = thiz.kept ++
      (s ++ NUL :: thiz.buffer.drop (thiz.bufferUsed + (s ++ [NUL]).length)) := by
    simp [poke, XmlParser.kept]
  have hdup : xmlParserStrdup thiz s = .ok (some thiz.bufferUsed, { thiz with
      bufferTotal := total
      buffer := thiz.kept ++ (trim s ++ (junk ++
        NUL :: thiz.buffer.drop (thiz.bufferUsed + (s ++ [NUL]).length)))
      bufferUsed := thiz.bufferUsed + s.length + 1 }) := by
    rw [xmlParserStrdup, hgrow]
    refine (if_neg (Nat.not_le.mpr hroom)).trans ?_
    dsimp only
    rw [hpoke, htrim]
  have htake : (thiz.kept ++ (trim s ++ (junk ++
      NUL :: thiz.buffer.drop (thiz.bufferUsed + (s ++ [NUL]).length)))).take
      (thiz.bufferUsed + s.length + 1) = thiz.kept ++ (trim s ++ (junk ++ [NUL])) := by
    rw [show thiz.bufferUsed + s.length + 1 = (thiz.kept ++ (trim s ++ (junk ++ [NUL]))).length by
      simp only [List.length_append, List.length_singleton, hkept]
      omega]
    rw [show thiz.kept ++ (trim s ++ (junk ++
        NUL :: thiz.buffer.drop (thiz.bufferUsed + (s ++ [NUL]).length))) =
      (thiz.kept ++ (trim s ++ (junk ++ [NUL]))) ++
        thiz.buffer.drop (thiz.bufferUsed + (s ++ [NUL]).length) by simp]
    exact List.take_left
  refine ⟨_, hdup, ⟨?_, ?_, .inr ⟨thiz.kept ++ (trim s ++ junk), ?_⟩⟩, rfl, rfl, ?_, ?_, hne⟩
  · simp only [List.length_append, List.length_cons, hkept]
    omega
  · have hle := h.le_total
    simp only [List.length_append, List.length_cons, List.length_nil, List.length_drop, hkept]
    omega
  · show List.take _ _ = _
    rw [htake]
    simp
  · show strAt (List.take _ _) _ = _
    rw [htake]
    refine strAt_eq_some_iff.mpr ⟨not_mem_trim hs, ?_⟩
    rw [← hkept, List.drop_left]
    rcases hhead with rfl | hhead
    · exact ⟨[], rfl⟩
    · cases junk with
      | nil => cases hhead
      | cons z junk =>
          cases hhead
          exact ⟨junk ++ [NUL], rfl⟩
  · intro offset t ht
    show strAt (List.take _ _) _ = _
    rw [htake]
    have hframe := strAt_frame ht [] (trim s ++ (junk ++ [NUL]))
    rwa [List.nil_append, List.length_nil, Nat.zero_add] at hframe

/-- A string is kept, or it is refused, which needs more than 127 bytes; only an empty string
    as the first one is a fault. -/
theorem xmlParserStrdup_cases {thiz : XmlParser} (h : thiz.Ok) {s : List Byte} (hs : NUL ∉ s) :
    (s = [] ∧ thiz.bufferUsed = 0 ∧ xmlParserStrdup thiz s = .error .memory) ∨
      (127 < s.length ∧ ∃ total, thiz.bufferTotal ≤ total ∧
        xmlParserStrdup thiz s = .ok (none, { thiz with bufferTotal := total })) ∨
      ∃ thiz', KeptBehind thiz s thiz' := by
  obtain ⟨total, hgrow, htotal, hsmall⟩ := grows thiz s
  have hle := Nat.le_trans h.used_le h.le_total
  by_cases hroom : thiz.bufferUsed + s.length < total
  · by_cases hne : s ≠ [] ∨ 0 < thiz.bufferUsed
    · exact .inr (.inr (keptBehind_of_room h hgrow htotal hroom hs hne))
    · obtain ⟨hnil, hzero⟩ := not_or.mp hne
      have hnil : s = [] := not_not.mp hnil
      have hzero : thiz.bufferUsed = 0 := Nat.eq_zero_of_not_pos hzero
      refine .inl ⟨hnil, hzero, ?_⟩
      rw [xmlParserStrdup, hgrow]
      refine (if_neg (Nat.not_le.mpr hroom)).trans ?_
      subst hnil
      -- the terminator is the first byte, so the end of the string is in front of the buffer
      dsimp only
      rw [hzero]
      rfl
  · refine .inr (.inl ⟨?_, total, htotal, ?_⟩)
    · by_contra hlen
      exact hroom (hsmall hle (by omega))
    · rw [xmlParserStrdup, hgrow]
      exact if_pos (Nat.not_lt.mp hroom)

/-- A string of at most 127 bytes is kept, trimmed, behind those that were kept before. -/
theorem xmlParserStrdup_keeps {thiz : XmlParser} (h : thiz.Ok) {s : List Byte}
    (hlen : s.length ≤ 127) (hs : NUL ∉ s) (hne : s ≠ [] ∨ 0 < thiz.bufferUsed) :
    ∃ thiz', KeptBehind thiz s thiz' := by
  obtain ⟨total, hgrow, htotal, hsmall⟩ := grows thiz s
  exact keptBehind_of_room h hgrow htotal (hsmall (Nat.le_trans h.used_le h.le_total) hlen) hs hne

/-! ## Many strings -/

/-- Keep strings one after the other; the offsets of those that are kept. -/
def keepAll (thiz : XmlParser) : List (List Byte) → Except XmlFault (List (Option Nat) × XmlParser)
  | [] => .ok ([], thiz)
  | s :: ss => do
      let (offset, thiz) ← xmlParserStrdup thiz s
      let (offsets, thiz) ← keepAll thiz ss
      return (offset :: offsets, thiz)

theorem keepAll_keeps {thiz : XmlParser} (h : thiz.Ok) {ss : List (List Byte)}
    (hss : ∀ s ∈ ss, s.length ≤ 127 ∧ NUL ∉ s)
    (hne : 0 < thiz.bufferUsed ∨ ∀ s ∈ ss.head?, s ≠ []) :
    ∃ offsets thiz', keepAll thiz ss = .ok (offsets.map some, thiz') ∧ thiz'.Ok ∧
      List.Forall₂ (fun offset s => thiz'.Keeps offset (trim s)) offsets ss ∧
      ∀ offset t, thiz.Keeps offset t → thiz'.Keeps offset t := by
  induction ss generalizing thiz with
  | nil => exact ⟨[], thiz, rfl, h, .nil, fun _ _ hk => hk⟩
  | cons s ss ih =>
      obtain ⟨hlen, hs⟩ := hss s List.mem_cons_self
      have hfirst : s ≠ [] ∨ 0 < thiz.bufferUsed := hne.symm.imp_left fun h => h s rfl
      obtain ⟨thiz₁, hkept⟩ := xmlParserStrdup_keeps h hlen hs hfirst
      have hpos : 0 < thiz₁.bufferUsed := by
        rw [hkept.used]
        exact Nat.succ_pos _
      obtain ⟨offsets, thiz', hall, hok', hkeeps, hbefore⟩ :=
        ih hkept.ok (fun t ht => hss t (List.mem_cons_of_mem _ ht)) (.inl hpos)
      refine ⟨thiz.bufferUsed :: offsets, thiz', ?_, hok', .cons (hbefore _ _ hkept.keeps) hkeeps,
        fun o t hk => hbefore o t (hkept.before o t hk)⟩
      rw [keepAll, hkept.result]
      show (keepAll thiz₁ ss >>= _) = _
      rw [hall]
      rfl

/-- Strings of at most 127 bytes are all kept, however often the buffer grows, and read back
    as what they are without the spaces around them. -/
theorem keepAll_strings (thiz : XmlParser) (ss : List (List Byte)) (h : thiz.Ok)
    (hss : ∀ s ∈ ss, s.length ≤ 127 ∧ NUL ∉ s) (hne : ∀ s, ss.head? = some s → s ≠ []) :
    ∃ offsets thiz', keepAll thiz ss = .ok (offsets, thiz') ∧
      offsets.map thiz'.string = ss.map fun s => .str (trim s) := by
  obtain ⟨offsets, thiz', hall, hok, hkeeps, -⟩ := keepAll_keeps h hss (.inr hne)
  refine ⟨offsets.map some, thiz', hall, ?_⟩
  clear hall hss hne
  induction hkeeps with
  | nil => rfl
  | cons ho _ ih => rw [List.map_cons, List.map_cons, List.map_cons, ih, ho.string hok]

/-- The buffer grows behind the first string. -/
theorem keepAll_strings_grown :
    ∃ offsets thiz', keepAll {} [bytes " a b ", .replicate 127 97, bytes "", .replicate 120 98]
        = .ok (offsets, thiz') ∧ offsets.map thiz'.string
        = [.str (bytes "a b"), .str (.replicate 127 97), .str [], .str (.replicate 120 98)] := by
  obtain ⟨offsets, thiz', hall, hstrings⟩ := keepAll_strings {}
    [bytes " a b ", .replicate 127 97, bytes "", .replicate 120 98] XmlParser.ok_new
    (by decide +kernel) fun s hs => by cases hs; decide
  refine ⟨offsets, thiz', hall, hstrings.trans ?_⟩
  decide +kernel

/-- A longer string is refused by a new parser. -/
theorem xmlParserStrdup_refuses {s : List Byte} (h : 127 < s.length) :
    xmlParserStrdup {} s = .ok (none, { bufferTotal := 128 }) := by
  have hroom : ¬ (0 + s.length < 128) := by omega
  rw [xmlParserStrdup]
  show (if 0 + s.length ≥ 128 then _ else _) = _
  rw [if_pos (Nat.not_lt.mp hroom)]
  rfl

end XwpServer
