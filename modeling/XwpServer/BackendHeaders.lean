/-
  XwpServer.BackendHeaders

  Which header lines of a backend reach the client.

  The lines of an accepted reply are put into the table of the response, and the server
  puts its own three behind them.  `http_header_set` takes a name that begins the name of
  an entry for that entry's, so a line is lost if its name begins an earlier one's, as it
  does when a name is repeated, or if a later name begins its own
  (`backendHeaders_carried_iff`).
-/

import XwpServer.Response
import XwpServer.Accepted
import XwpServer.TableTexts
import XwpServer.Lib.Survive

namespace XwpServer

open CString FirstMatch

/-! ## Replies -/

/-- A request whose exchange with a backend has come to a reply with an accepted head, as
    it is when the response is sent; `connection_special_response` may have put in another
    body and taken `keep_alive` back. -/
def AcceptedReply (conf : Conf) (r : HttpRequest) (pairs : List (Str × Str)) : Prop :=
  ∃ r₀ io₀ r₁ io₁ r₂ io₂ ok r₃ io₃ keepAlive bodyOut, r₀.HeadReady .response ∧
    httpProcessStatusLine conf r₀ io₀ = .ret (true, r₁, io₁) ∧
    httpProcessHeaderLine conf .response r₁ io₁ = .ret (true, r₂, io₂) ∧
    httpProcessContentBody conf .response r₂.headersOut.contentLen r₂ io₂ = .ret (ok, r₃, io₃) ∧
    pairs = handedPairs conf r₁ io₁ ∧
    r = { r₃ with keepAlive := keepAlive, bodyOut := bodyOut }

/-- A line, as the texts of its name and its value. -/
def Heap.textLine (h : Heap) (p : Str × Str) : List Byte × List Byte :=
  (h.str p.1.data, h.str p.2.data)

/-- The name and the value of a line `name: value`, neither of them empty. -/
structure Heap.FieldLine (h : Heap) (p : Str × Str) : Prop where
  name_ne : h.str p.1.data ≠ []
  name_len : p.1.len = (h.str p.1.data).length
  name_bytes : COLON ∉ h.str p.1.data ∧ LF ∉ h.str p.1.data
  value_ne : h.str p.2.data ≠ []
  value_bytes : LF ∉ h.str p.2.data

/-- The names of the headers the server sets itself, in any case. -/
def serverSets (name : List Byte) : Bool :=
  strcasecmpEq name (bytes "Connection") || strcasecmpEq name (bytes "Server") ||
    strcasecmpEq name (bytes "Content-Length")

/-- The text is a head of the response with the lines, each as often as it is in `lines`,
    except those of headers the server sets. -/
def HeadCarries (r : HttpRequest) (head : List Byte) (lines : List (List Byte × List Byte)) :
    Prop :=
  ∃ (statusLine : List Byte) (printed : List (List Byte × List Byte)),
    httpStatusLine r.status = .ok statusLine ∧
    head = firstLineText r statusLine ++ printed.flatMap (fun p => headerText p.1 p.2) ++
      [CR, LF] ∧
    (∀ p ∈ printed, (COLON ∉ p.1 ∧ LF ∉ p.1) ∧ LF ∉ p.2) ∧
    ∀ l ∈ lines, serverSets l.1 = false → lines.count l ≤ printed.count l

/-- The lines survive the ones behind them, and those of the server. -/
def LinesSurvive (r : HttpRequest) (lines : List (List Byte × List Byte)) : Prop :=
  Survive List.isPrefixOf (fun n => !serverSets n) lines ((serverHeaders r).map r.textLine)

/-! ## The table of an accepted reply -/

theorem AcceptedReply.table {conf : Conf} {r : HttpRequest} {pairs : List (Str × Str)}
    (h : AcceptedReply conf r pairs) : r.headersOut.headers = setAll r.toHeap pairs := by
  obtain ⟨r₀, io₀, r₁, io₁, r₂, io₂, ok, r₃, io₃, ka, bo, hr, hfirst, hlines, hbody, rfl, rfl⟩ := h
  obtain ⟨q, io', hloop, hdone⟩ := httpProcessHeaderLine_accepted hlines
  obtain ⟨htable, hlt, hnames⟩ := @headTable conf .response _ _ _ _ _ _ hr hfirst hloop
  obtain ⟨-, -, n, -, rfl⟩ := headersDone_response hdone
  obtain ⟨hkeeps, -, -, hout⟩ := httpProcessContentBody_keeps hbody
  show r₃.headersOut.headers = setAll r₃.toHeap _
  have hsame : r₃.headersOut.headers = q.headersOut.headers := by rw [hout]
  rw [hsame]
  refine Eq.trans htable (setAll_agree fun p hp => ?_)
  obtain ⟨off, hoff, hend, -⟩ := hnames p hp
  exact hkeeps.agree hoff hlt hend

/-! ## The lines that are printed -/

/-- The lines of the printed table. -/
def responseLines (r : HttpRequest) : List (List Byte × List Byte) :=
  (responseTable r).map fun e => (r.str e.name.data, r.str e.value.data)

theorem serverHeaders_plain (r : HttpRequest) :
    ∀ p ∈ serverHeaders r, (r.toHeap.nameKey p.1).Plain := by
  intro p hp
  simp only [serverHeaders, List.mem_cons, List.not_mem_nil, or_false] at hp
  have hz : ∀ s : Str, NUL ∉ (r.toHeap.nameKey s).1 := fun s => Heap.notMem_str r.toHeap s.data
  rcases hp with rfl | rfl | rfl
  · exact ⟨rfl, hz _⟩
  · exact ⟨rfl, hz _⟩
  · exact ⟨rfl, hz _⟩

/-- The printed lines are those of the reply and the server, put into a table by their
    texts. -/
theorem responseLines_eq {r : HttpRequest} {pairs : List (Str × Str)}
    (htable : r.headersOut.headers = setAll r.toHeap pairs)
    (hf : ∀ p ∈ pairs, r.toHeap.FieldLine p) :
    responseLines r = build List.isPrefixOf []
      (pairs.map r.textLine ++ (serverHeaders r).map r.textLine) := by
  have hset : responseTable r = setAll r.toHeap (pairs ++ serverHeaders r) := by
    rw [responseTable, htable, setAll, setAll, List.foldl_append]
  have hplain : ∀ p ∈ pairs ++ serverHeaders r, (r.toHeap.nameKey p.1).Plain := by
    intro p hp
    rcases List.mem_append.mp hp with hp | hp
    · exact ⟨(hf p hp).name_len, Heap.notMem_str _ _⟩
    · exact serverHeaders_plain r p hp
  have hlines : responseLines r = ((responseTable r).map r.toHeap.entry).map
      (Prod.map Prod.fst fun v => r.str v.data) := by
    rw [responseLines, List.map_map]
    rfl
  rw [hlines, hset, setAll_entries, ← List.map_append]
  rw [build_map List.isPrefixOf Prod.fst (fun v : Str => r.str v.data), List.map_map]
  · rfl
  · intro e he k
    obtain ⟨p, hp, rfl⟩ := List.mem_map.mp he
    rw [Bool.eq_iff_iff, List.isPrefixOf_iff_prefix]
    exact (nameHits_iff (hplain p hp) k).symm

/-! ## Reading a head -/

theorem append_cons_inj {α : Type} {a b x y : List α} {c : α} (ha : c ∉ a) (hb : c ∉ b)
    (h : a ++ c :: x = b ++ c :: y) : a = b ∧ x = y := by
  induction a generalizing b with
  | nil =>
      cases b with
      | nil => exact ⟨rfl, (List.cons.inj h).2⟩
      | cons d b => exact absurd (List.mem_cons.mpr (.inl (List.cons.inj h).1)) hb
  | cons d a ih =>
      cases b with
      | nil => exact absurd (List.mem_cons.mpr (.inl (List.cons.inj h).1.symm)) ha
      | cons d' b =>
          obtain ⟨hd, htail⟩ := List.cons.inj h
          rw [List.mem_cons, not_or] at ha hb
          obtain ⟨hab, hxy⟩ := ih ha.2 hb.2 htail
          exact ⟨by rw [hd, hab], hxy⟩

/-- A name and a value that make one line of a head. -/
def IsFieldLine (l : List Byte × List Byte) : Prop := (COLON ∉ l.1 ∧ LF ∉ l.1) ∧ LF ∉ l.2

/-- The bytes are a head with the first line and the header lines, and a body. -/
structure ReadsAs (wire first : List Byte) (lines : List (List Byte × List Byte))
    (body : List Byte) : Prop where
  text : wire = first ++ CR :: LF :: (lines.flatMap (fun l => headerText l.1 l.2) ++
    CR :: LF :: body)
  first : LF ∉ first
  lines : ∀ l ∈ lines, IsFieldLine l

/-- An empty line is no header line: its bytes would begin the name. -/
theorem emptyLine_ne {name t body : List Byte} (hname : LF ∉ name) :
    CR :: LF :: body ≠ name ++ COLON :: t := by
  intro h
  cases name with
  | nil => exact absurd (List.cons.inj h).1 (by decide)
  | cons c name =>
      obtain ⟨-, h⟩ := List.cons.inj h
      cases name with
      | nil => exact absurd (List.cons.inj h).1 (by decide)
      | cons d name =>
          obtain ⟨rfl, -⟩ := List.cons.inj h
          exact hname (by simp)

/-- The bytes are a head and a body in one way only. -/
theorem ReadsAs.unique {wire first first' body body' : List Byte}
    {lines lines' : List (List Byte × List Byte)} (h : ReadsAs wire first lines body)
    (h' : ReadsAs wire first' lines' body') :
    first = first' ∧ lines = lines' ∧ body = body' := by
  have hcr : ∀ {v : List Byte}, LF ∉ v → LF ∉ v ++ [CR] := fun hv => by simpa using ⟨hv, by decide⟩
  have htext := h.text.symm.trans h'.text
  -- the first line ends at the first line feed
  obtain ⟨hfirst, hrest⟩ := append_cons_inj (hcr h.first) (hcr h'.first)
    (show (first ++ [CR]) ++ LF :: _ = (first' ++ [CR]) ++ LF :: _ by simpa using htext)
  refine ⟨List.append_cancel_right hfirst, ?_⟩
  have hl := h.lines
  have hl' := h'.lines
  clear h h' htext hfirst
  induction lines generalizing lines' with
  | nil =>
      cases lines' with
      | nil => exact ⟨rfl, by simpa using hrest⟩
      | cons l' lines' =>
          exact absurd (by simpa [headerText] using hrest) (emptyLine_ne (hl' l' (by simp)).1.2)
  | cons l lines ih =>
      cases lines' with
      | nil =>
          exact absurd (by simpa [headerText] using hrest.symm) (emptyLine_ne (hl l (by simp)).1.2)
      | cons l' lines' =>
          simp only [List.flatMap_cons, headerText, List.append_assoc, List.cons_append] at hrest
          obtain ⟨hname, hrest⟩ :=
            append_cons_inj (hl l (by simp)).1.1 (hl' l' (by simp)).1.1 hrest
          have hrest := (List.cons.inj hrest).2
          obtain ⟨hvalue, hrest⟩ := append_cons_inj (hcr (hl l (by simp)).2)
            (hcr (hl' l' (by simp)).2)
            (show (l.2 ++ [CR]) ++ LF :: _ = (l'.2 ++ [CR]) ++ LF :: _ by simpa using hrest)
          obtain ⟨hlines, hbody⟩ := ih (by simpa [headerText] using hrest)
            (fun x hx => hl x (by simp [hx])) fun x hx => hl' x (by simp [hx])
          exact ⟨by rw [hlines, Prod.ext hname (List.append_cancel_right hvalue)], hbody⟩

/-- The lines of a head can be read off it. -/
theorem headerText_inj {ls ls' : List (List Byte × List Byte)} (h : ∀ p ∈ ls, IsFieldLine p)
    (h' : ∀ p ∈ ls', IsFieldLine p)
    (heq : ls.flatMap (fun p => headerText p.1 p.2) = ls'.flatMap fun p => headerText p.1 p.2) :
    ls = ls' := by
  have hreads : ReadsAs _ [] ls [] := ⟨rfl, nofun, h⟩
  have hreads' : ReadsAs _ [] ls' [] := ⟨rfl, nofun, h'⟩
  rw [heq] at hreads
  exact (hreads.unique hreads').2.1

/-! ## Lines that are carried -/

theorem responseHead_lines {r : HttpRequest} {head : List Byte}
    (hh : connectionResponseHead r = .ok head) :
    ∃ statusLine, httpStatusLine r.status = .ok statusLine ∧
      head = firstLineText r statusLine ++
        (responseLines r).flatMap (fun p => headerText p.1 p.2) ++ [CR, LF] := by
  obtain ⟨statusLine, hline, htext⟩ := connectionResponseHead_text hh
  refine ⟨statusLine, hline, ?_⟩
  rw [htext, responseLines, List.flatMap_map]
  rfl

theorem toDigits_of_pos {n : Int} (hn : 0 < n) :
    sprintfInt n = (Nat.toDigits 10 n.toNat).map fun c => c.toNat.toUInt8 := by
  obtain ⟨m, rfl⟩ := Int.eq_ofNat_of_zero_le (Int.le_of_lt hn)
  show (Nat.repr m).toList.map _ = _
  rw [Nat.toList_repr]
  rfl

/-- The byte of a digit. -/
theorem byte_of_isDigit {c : Char} (hc : c.isDigit = true) :
    c.toNat.toUInt8.toNat = c.toNat ∧ 48 ≤ c.toNat ∧ c.toNat ≤ 57 := by
  rw [Char.isDigit, Bool.and_eq_true, decide_eq_true_eq, decide_eq_true_eq] at hc
  have hlow : 48 ≤ c.toNat := hc.1
  have hhigh : c.toNat ≤ 57 := hc.2
  refine ⟨?_, hlow, hhigh⟩
  rw [Nat.toUInt8_eq, UInt8.toNat_ofNat']
  omega

theorem isdigit_of_mem_sprintfInt {n : Int} (hn : 0 < n) :
    ∀ c ∈ sprintfInt n, isdigit c = true := by
  rw [toDigits_of_pos hn]
  intro c hc
  obtain ⟨d, hd, rfl⟩ := List.mem_map.mp hc
  obtain ⟨hbyte, hlow, hhigh⟩ :=
    byte_of_isDigit (Nat.isDigit_of_mem_toDigits (by decide) (by decide) hd)
  simp only [isdigit, Bool.and_eq_true, decide_eq_true_eq, UInt8.le_iff_toNat_le, hbyte]
  exact ⟨hlow, hhigh⟩

/-- The value of decimal digits, as bytes and as characters. -/
theorem foldl_digits {cs : List Char} (acc : Nat) (hcs : ∀ c ∈ cs, c.isDigit = true) :
    (cs.map fun c => c.toNat.toUInt8).foldl (fun acc c => acc * 10 + (c.toNat - 48)) acc
      = Nat.ofDigitChars 10 cs acc := by
  induction cs generalizing acc with
  | nil => rfl
  | cons c cs ih =>
      rw [List.map_cons, List.foldl_cons, ih _ fun d hd => hcs d (by simp [hd]),
        (byte_of_isDigit (hcs c (by simp))).1, Nat.ofDigitChars_cons, Nat.mul_comm acc]
      rfl

/-- The digits of a number have its value. -/
theorem decVal_sprintfInt {n : Int} (hn : 0 < n) : decVal (sprintfInt n) = n.toNat := by
  rw [toDigits_of_pos hn, decVal,
    foldl_digits _ fun c hc => Nat.isDigit_of_mem_toDigits (by decide) (by decide) hc,
    Nat.ofDigitChars_ten_toDigits]

theorem lf_notMem_sprintfInt {n : Int} (hn : 0 < n) : LF ∉ sprintfInt n :=
  fun h => absurd (isdigit_of_mem_sprintfInt hn LF h) (by decide)

/-- The digits of a number have no zero byte among them. -/
theorem takeWhile_sprintfInt {n : Int} (hn : 0 < n) :
    (sprintfInt n).takeWhile (· != NUL) = sprintfInt n := by
  rw [List.takeWhile_eq_self_iff]
  intro c hc
  have := isdigit_of_mem_sprintfInt hn c hc
  rw [bne_iff_ne]
  rintro rfl
  cases this

theorem serverHeaders_bytes (r : HttpRequest) : ∀ p ∈ serverHeaders r,
    (COLON ∉ r.str p.1.data ∧ LF ∉ r.str p.1.data) ∧ LF ∉ r.str p.2.data := by
  intro p hp
  have hlit : ∀ s : String, r.str (Str.serverString s).data
      = (bytes s).takeWhile (· != NUL) := fun _ => rfl
  simp only [serverHeaders, List.mem_cons, List.not_mem_nil, or_false] at hp
  rcases hp with rfl | rfl | rfl
  · refine ⟨by simp only [hlit]; decide, ?_⟩
    dsimp only
    split
    · rw [hlit]
      decide
    · rw [hlit]
      decide
  · simp only [hlit]
    decide
  · refine ⟨by simp only [hlit]; decide, ?_⟩
    dsimp only
    split
    case isTrue hn =>
      exact fun h => lf_notMem_sprintfInt hn (List.takeWhile_subset _ h)
    case isFalse =>
      rw [hlit]
      decide

theorem responseLines_bytes {r : HttpRequest} {pairs : List (Str × Str)}
    (htable : r.headersOut.headers = setAll r.toHeap pairs)
    (hf : ∀ p ∈ pairs, r.toHeap.FieldLine p) :
    ∀ p ∈ responseLines r, (COLON ∉ p.1 ∧ LF ∉ p.1) ∧ LF ∉ p.2 := by
  have hset : responseTable r = setAll r.toHeap (pairs ++ serverHeaders r) := by
    rw [responseTable, htable, setAll, setAll, List.foldl_append]
  have hall : ∀ p ∈ pairs ++ serverHeaders r,
      (COLON ∉ r.str p.1.data ∧ LF ∉ r.str p.1.data) ∧ LF ∉ r.str p.2.data := by
    intro p hp
    rcases List.mem_append.mp hp with hp | hp
    · exact ⟨(hf p hp).name_bytes, (hf p hp).value_bytes⟩
    · exact serverHeaders_bytes r p hp
  intro p hp
  obtain ⟨e, he, rfl⟩ := List.mem_map.mp hp
  rw [hset] at he
  obtain ⟨⟨q, hq, hname⟩, q', hq', hvalue⟩ := mem_setAll he
  dsimp only
  rw [hname, hvalue]
  exact ⟨(hall q hq).1, (hall q' hq').2⟩

/-- The server's headers are among those it sets. -/
theorem serverSets_of_mem (r : HttpRequest) :
    ∀ p ∈ (serverHeaders r).map r.textLine, (!serverSets p.1) = false := by
  intro p hp
  obtain ⟨q, hq, rfl⟩ := List.mem_map.mp hp
  simp only [serverHeaders, List.mem_cons, List.not_mem_nil, or_false] at hq
  rcases hq with rfl | rfl | rfl
  · show (!serverSets ((bytes "Connection").takeWhile (· != NUL))) = false
    decide
  · show (!serverSets ((bytes "Server").takeWhile (· != NUL))) = false
    decide
  · show (!serverSets ((bytes "Content-Length").takeWhile (· != NUL))) = false
    decide

/-- The printed lines have the wanted ones just if these survive. -/
theorem responseLines_count_iff {r : HttpRequest} {pairs : List (Str × Str)}
    (htable : r.headersOut.headers = setAll r.toHeap pairs)
    (hf : ∀ p ∈ pairs, r.toHeap.FieldLine p) :
    (∀ l ∈ pairs.map r.textLine, serverSets l.1 = false →
        (pairs.map r.textLine).count l ≤ (responseLines r).count l) ↔
      LinesSurvive r (pairs.map r.textLine) := by
  rw [LinesSurvive, responseLines_eq htable hf, ← survive_iff]
  · simp only [Bool.not_eq_true']
  · intro k
    exact List.isPrefixOf_iff_prefix.mpr (List.prefix_refl k)
  · intro a b c hab hbc
    rw [List.isPrefixOf_iff_prefix] at hab hbc ⊢
    exact hab.trans hbc
  · exact serverSets_of_mem r

/-- The head that is written has the lines of the table if it has any. -/
theorem headCarries_iff {r : HttpRequest} {pairs : List (Str × Str)} {head : List Byte}
    (htable : r.headersOut.headers = setAll r.toHeap pairs)
    (hf : ∀ p ∈ pairs, r.toHeap.FieldLine p) (hh : connectionResponseHead r = .ok head) :
    HeadCarries r head (pairs.map r.textLine) ↔ LinesSurvive r (pairs.map r.textLine) := by
  rw [← responseLines_count_iff htable hf]
  obtain ⟨statusLine, hline, htext⟩ := responseHead_lines hh
  have hbytes := responseLines_bytes htable hf
  constructor
  · rintro ⟨statusLine', printed, hline', htext', hprinted, hcount⟩
    obtain rfl : statusLine = statusLine' := Except.ok.inj (hline.symm.trans hline')
    rw [htext] at htext'
    have hsame := List.append_cancel_left (List.append_cancel_right htext')
    rw [headerText_inj hbytes hprinted hsame]
    exact hcount
  · intro hcount
    exact ⟨statusLine, _, hline, htext, hbytes, hcount⟩

/-- A response that is sent has all lines of the reply just if every line has a name that
    begins no earlier line's, and no later name, the server's among them, puts another
    value where the line stands. -/
theorem backendHeaders_carried_iff {conf : Conf} {r : HttpRequest} {pairs : List (Str × Str)}
    {head : List Byte} (ha : AcceptedReply conf r pairs) (hf : ∀ p ∈ pairs, r.toHeap.FieldLine p)
    (hh : connectionResponseHead r = .ok head) :
    HeadCarries r head (pairs.map r.textLine) ↔ LinesSurvive r (pairs.map r.textLine) :=
  headCarries_iff ha.table hf hh

/-! ## Two replies -/

/-- The request whose backend answers with `s` and closes, and the lines of the answer. -/
def replied (s : List Byte) : Option (HttpRequest × List (Str × Str)) :=
  match httpProcessStatusLine exampleConf
      { state := .contentBody, versionStr := .serverString "HTTP/1.1" }
      { recvs := [.data s, .data []] } with
  | .ret (true, r₁, io₁) =>
    match httpProcessHeaderLine exampleConf .response r₁ io₁ with
    | .ret (true, r₂, io₂) =>
      match httpProcessContentBody exampleConf .response r₂.headersOut.contentLen r₂ io₂ with
      | .ret (_, r, _) => some (r, handedPairs exampleConf r₁ io₁)
      | _ => none
    | _ => none
  | _ => none

theorem acceptedReply_of_replied {s : List Byte} {r : HttpRequest} {pairs : List (Str × Str)}
    (h : replied s = some (r, pairs)) : AcceptedReply exampleConf r pairs := by
  unfold replied at h
  split at h
  case h_2 => cases h
  next r₁ io₁ hfirst =>
  split at h
  case h_2 => cases h
  next r₂ io₂ hlines =>
  split at h
  case h_2 => cases h
  next ok r₃ io₃ hbody =>
  simp only [Option.some.injEq, Prod.mk.injEq] at h
  obtain ⟨rfl, rfl⟩ := h
  exact ⟨_, _, r₁, io₁, r₂, io₂, ok, r₃, io₃, r₃.keepAlive, r₃.bodyOut, ⟨rfl, rfl⟩, hfirst,
    hlines, hbody, rfl, rfl⟩

instance (h : Heap) (p : Str × Str) : Decidable (h.FieldLine p) :=
  decidable_of_iff (h.str p.1.data ≠ [] ∧ p.1.len = (h.str p.1.data).length ∧
      (COLON ∉ h.str p.1.data ∧ LF ∉ h.str p.1.data) ∧ h.str p.2.data ≠ [] ∧
      LF ∉ h.str p.2.data)
    ⟨fun ⟨a, b, c, d, e⟩ => ⟨a, b, c, d, e⟩, fun ⟨a, b, c, d, e⟩ => ⟨a, b, c, d, e⟩⟩

theorem Except.exists_ok {ε α : Type} {x : Except ε α} (h : x.isOk = true) : ∃ a, x = .ok a := by
  cases x with
  | error e => cases h
  | ok a => exact ⟨a, rfl⟩

set_option maxRecDepth 4000 in
theorem backendHeaders_carried_two : ∃ r pairs head,
    AcceptedReply exampleConf r pairs ∧ connectionResponseHead r = .ok head ∧
      HeadCarries r head (pairs.map r.textLine) := by
  obtain ⟨⟨r, pairs⟩, h⟩ : ∃ x, replied (bytes "HTTP/1.0 200 OK\nX-A: 1\nX-B: 2\n\n") = some x :=
    Option.isSome_iff_exists.mp (by decide)
  have hfacts : (replied (bytes "HTTP/1.0 200 OK\nX-A: 1\nX-B: 2\n\n")).map
      (fun x => (decide (∀ p ∈ x.2, x.1.toHeap.FieldLine p), (connectionResponseHead x.1).isOk))
      = some (true, true) := by decide
  have htexts : (replied (bytes "HTTP/1.0 200 OK\nX-A: 1\nX-B: 2\n\n")).map
      (fun x => (x.2.map x.1.textLine, (serverHeaders x.1).map x.1.textLine))
      = some ([(bytes "X-A", bytes "1"), (bytes "X-B", bytes "2")],
        [(bytes "Connection", bytes "Close"), (bytes "Server", bytes "xwp server 0.1"),
          (bytes "Content-Length", bytes "0")]) := by
    decide
  simp only [h, Option.map_some, Option.some.injEq, Prod.mk.injEq, decide_eq_true_eq]
    at hfacts htexts
  obtain ⟨hf, hok⟩ := hfacts
  obtain ⟨hlines, hserver⟩ := htexts
  obtain ⟨head, hh⟩ := Except.exists_ok hok
  refine ⟨r, pairs, head, acceptedReply_of_replied h, hh,
    (backendHeaders_carried_iff (acceptedReply_of_replied h) hf hh).mpr ?_⟩
  rw [LinesSurvive, hlines, hserver]
  rintro before p after hsplit -
  rcases before with _ | ⟨l, _ | ⟨l', before⟩⟩
  · obtain ⟨rfl, rfl⟩ := List.cons.inj hsplit
    exact ⟨by simp, by decide⟩
  · obtain ⟨rfl, htail⟩ := List.cons.inj hsplit
    obtain ⟨rfl, rfl⟩ := List.cons.inj htail
    exact ⟨by decide, by decide⟩
  · have hlen := congrArg List.length hsplit
    simp at hlen

set_option maxRecDepth 4000 in
/-- Of two `Set-Cookie` lines one is lost. -/
theorem backendHeaders_not_carried :
    ¬ ∀ (conf : Conf) (r : HttpRequest) (pairs : List (Str × Str)) (head : List Byte),
      AcceptedReply conf r pairs → (∀ p ∈ pairs, r.toHeap.FieldLine p) →
      connectionResponseHead r = .ok head → HeadCarries r head (pairs.map r.textLine) := by
  intro hall
  obtain ⟨⟨r, pairs⟩, h⟩ : ∃ x,
      replied (bytes "HTTP/1.0 200 OK\nSet-Cookie: a\nSet-Cookie: b\n\n") = some x :=
    Option.isSome_iff_exists.mp (by decide)
  have hfacts : (replied (bytes "HTTP/1.0 200 OK\nSet-Cookie: a\nSet-Cookie: b\n\n")).map
      (fun x => (decide (∀ p ∈ x.2, x.1.toHeap.FieldLine p), (connectionResponseHead x.1).isOk))
      = some (true, true) := by decide
  have hlines : (replied (bytes "HTTP/1.0 200 OK\nSet-Cookie: a\nSet-Cookie: b\n\n")).map
      (fun x => x.2.map x.1.textLine)
      = some [(bytes "Set-Cookie", bytes "a"), (bytes "Set-Cookie", bytes "b")] := by decide
  simp only [h, Option.map_some, Option.some.injEq, Prod.mk.injEq, decide_eq_true_eq]
    at hfacts hlines
  obtain ⟨hf, hok⟩ := hfacts
  obtain ⟨head, hh⟩ := Except.exists_ok hok
  have ha := acceptedReply_of_replied h
  have hsurv := (headCarries_iff ha.table hf hh).mp (hall _ r pairs head ha hf hh)
  rw [LinesSurvive, hlines] at hsurv
  obtain ⟨hfresh, -⟩ := hsurv [(bytes "Set-Cookie", bytes "a")] (bytes "Set-Cookie", bytes "b") []
    rfl (by decide)
  have hmiss := hfresh (bytes "Set-Cookie", bytes "a") (by simp)
  exact absurd hmiss (by decide)

end XwpServer
