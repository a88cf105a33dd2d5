/-
  XwpServer.UwsgiContent

  What the uwsgi packet of an accepted request says.

  The variables are those of the convention when every string is as long as it says,
  the variables fit into a packet, the path is the whole URL, every header line has an
  entry of its own in the table and passes the filter of `upstream_uwsgi_process`.
  Otherwise there is no packet, or `REQUEST_URI` and `PATH_INFO` have changed places with
  different values, or a header is missing.
-/

import XwpServer.Accepted
import XwpServer.TableTexts
import XwpServer.UwsgiFrame

namespace XwpServer

open CString FirstMatch

/-! ## The convention -/

/-- The text of a value; the pointer of an empty one is NULL. -/
def Heap.valueText (h : Heap) (v : Str) : List Byte := if 0 < v.len then h.str v.data else []

/-- A header line, as the texts of its name and its value. -/
def Heap.line (h : Heap) (p : Str × Str) : List Byte × List Byte :=
  (h.str p.1.data, h.valueText p.2)

/-- A header line that has no variable of its own in the convention. -/
def ordinary (name : List Byte) : Bool :=
  !strcasecmpEq name (bytes "Content-Type") && !strcasecmpEq name (bytes "Content-Length")

/-- The variable of a header line. -/
def lineVar (l : List Byte × List Byte) : List Byte × List Byte :=
  (HTTP_PREFIX ++ l.1.map varByte, l.2)

/-- The variables with a name of their own, with the pairing of
    `upstream_uwsgi_calc_packet_len`. -/
def cgiParams (conf : UwsgiConf) (r : UpstreamRequest) : List (List Byte × Str) := [
  (CGI_QUERY_STRING, r.url.queryString),
  (CGI_REQUEST_METHOD, r.methodStr),
  (CGI_CONTENT_TYPE, r.headersIn.headerContentType.getD .null),
  (CGI_CONTENT_LENGTH, r.headersIn.headerContentLen.getD .null),
  (CGI_REQUEST_URI, r.url.unparsedUrl),
  (CGI_PATH_INFO, r.url.path),
  (CGI_DOCUMENT_ROOT, conf.root),
  (CGI_SERVER_PROTOCOL, r.versionStr),
  (CGI_SERVER_SOFTWARE, HTTP_HEADER_XWP_VER),
  (CGI_REMOTE_ADDR, r.remoteIp),
  (CGI_SERVER_ADDR, conf.ip),
  (CGI_SERVER_PORT, portStr conf.port),
  (CGI_SERVER_NAME, conf.name)]

/-- A string that has a value: it is empty, or as long as it says. -/
def Heap.HasValue (h : Heap) (v : Str) : Prop := v.len = 0 ∨ h.Plain v

/-- There is one variable with this name, and it has the value of the string. -/
def Heap.Carries (h : Heap) (vars : List (List Byte × List Byte)) (name : List Byte) (v : Str) :
    Prop :=
  h.HasValue v ∧ vars.filter (fun x => x.1 = name) = [(name, h.valueText v)]

/-- `v` is the value of a line with the name `name`, or NULL when there is none. -/
def Heap.ValueOf (h : Heap) (pairs : List (Str × Str)) (name : List Byte) (v : Str) : Prop :=
  (∃ p ∈ pairs, strcasecmpEq (h.str p.1.data) name = true ∧ p.2 = v) ∨
    (v = .null ∧ ∀ p ∈ pairs, strcasecmpEq (h.str p.1.data) name = false)

/-- The name and the value of a header line that needs a variable are strings with a
    value. -/
def Heap.LineStrs (h : Heap) (pairs : List (Str × Str)) : Prop :=
  ∀ p ∈ pairs, ordinary (h.str p.1.data) = true → h.Plain p.1 ∧ h.HasValue p.2

/-- The variables `vars` are those of the convention for a request with these header
    lines. -/
structure CgiConvention (conf : UwsgiConf) (r : UpstreamRequest) (pairs : List (Str × Str))
    (vars : List (List Byte × List Byte)) : Prop where
  params : ∀ p ∈ cgiParams conf r, r.Carries vars p.1 p.2
  contentType : r.ValueOf pairs (bytes "Content-Type") (r.headersIn.headerContentType.getD .null)
  contentLength : r.ValueOf pairs (bytes "Content-Length") (r.headersIn.headerContentLen.getD .null)
  lines : r.LineStrs pairs
  headers : (vars.filter fun v => HTTP_PREFIX.isPrefixOf v.1).Perm
    (((pairs.map r.line).filter (ordinary ·.1)).map lineVar)

/-- The comparison with which the module skips a header. -/
def skipsName (name : List Byte) : Bool :=
  strncasecmpEq name (bytes "Content-Type") HTTP_HEADER_CONTENT_TYPE.len ||
    strncasecmpEq name (bytes "Content-Length") HTTP_HEADER_CONTENT_TYPE.len

/-- No header line is taken for `Content-Type` or `Content-Length` that is neither, and
    none has a name that an earlier line's name starts with. -/
def LinesKept (lines : List (List Byte × List Byte)) : Prop :=
  (∀ l ∈ lines, ordinary l.1 = true → skipsName l.1 = false) ∧
    lines.Pairwise fun p q => ordinary q.1 = true → ¬ q.1 <+: p.1

instance (lines : List (List Byte × List Byte)) : Decidable (LinesKept lines) :=
  inferInstanceAs (Decidable (_ ∧ _))

/-- What the variables of the convention take in a packet. -/
def conventionSize (conf : UwsgiConf) (r : UpstreamRequest) (pairs : List (Str × Str)) : Nat :=
  ((cgiParams conf r).map fun p => p.1.length + p.2.len + 4).sum +
    ((pairs.filter fun p => ordinary (r.str p.1.data)).map fun p =>
      HTTP_PREFIX.length + p.1.len + p.2.len + 4).sum

/-- The requests for which the module keeps to the convention. -/
structure CgiSafe (conf : UwsgiConf) (r : UpstreamRequest) (pairs : List (Str × Str)) : Prop where
  params : ∀ p ∈ cgiParams conf r, r.HasValue p.2
  lines : r.LineStrs pairs
  size : conventionSize conf r pairs ≤ 65535
  path : r.valueText r.url.path = r.valueText r.url.unparsedUrl
  kept : LinesKept (pairs.map r.line)

instance (h : Heap) (v : Str) : Decidable (h.HasValue v) := inferInstanceAs (Decidable (_ ∨ _))

instance (h : Heap) (pairs : List (Str × Str)) : Decidable (h.LineStrs pairs) :=
  inferInstanceAs (Decidable (∀ p ∈ pairs, _ → _ ∧ _))

instance (conf : UwsgiConf) (r : UpstreamRequest) (pairs : List (Str × Str)) :
    Decidable (CgiSafe conf r pairs) :=
  decidable_of_iff ((∀ p ∈ cgiParams conf r, r.HasValue p.2) ∧ r.LineStrs pairs ∧
      conventionSize conf r pairs ≤ 65535 ∧
      r.valueText r.url.path = r.valueText r.url.unparsedUrl ∧ LinesKept (pairs.map r.line))
    ⟨fun ⟨a, b, c, d, e⟩ => ⟨a, b, c, d, e⟩, fun h => ⟨h.params, h.lines, h.size, h.path, h.kept⟩⟩

/-! ## The parts of a packet -/

theorem paramText_eq (h : Heap) (v : Option Str) : paramText h v = h.valueText (v.getD .null) := by
  cases v with
  | none => rfl
  | some v => by_cases hv : 0 < v.len <;> simp [paramText, Heap.valueText, Option.filter, hv]

theorem Heap.HasValue.length {h : Heap} {v : Str} (hv : h.HasValue v) :
    (h.valueText v).length = v.len := by
  rw [Heap.valueText]
  split
  · next hlen => exact (hv.resolve_left (by omega)).length
  · simp
    omega

/-- An entry of a list of pairs with different keys is found by its key. -/
theorem filter_key {κ ν : Type} [DecidableEq κ] {l : List (κ × ν)} (hl : (l.map Prod.fst).Nodup)
    {p : κ × ν} (hp : p ∈ l) : l.filter (fun v => v.1 = p.1) = [p] := by
  induction l with
  | nil => cases hp
  | cons e l ih =>
      rw [List.map_cons, List.nodup_cons] at hl
      rcases List.mem_cons.mp hp with rfl | hp
      · have hnil : l.filter (fun v => v.1 = p.1) = [] := by
          apply List.filter_eq_nil_iff.mpr
          intro v hv
          simp only [decide_eq_true_eq]
          intro h
          exact hl.1 (h ▸ List.mem_map_of_mem hv)
        simp [hnil]
      · have hne : e.1 ≠ p.1 := fun h => hl.1 (h ▸ List.mem_map_of_mem hp)
        simp [hne, ih hl.2 hp]

/-- The names of the variables that are not made of headers. -/
def cgiNames : List (List Byte) := [CGI_QUERY_STRING, CGI_REQUEST_METHOD, CGI_CONTENT_TYPE,
  CGI_CONTENT_LENGTH, CGI_REQUEST_URI, CGI_PATH_INFO, CGI_DOCUMENT_ROOT, CGI_SERVER_PROTOCOL,
  CGI_SERVER_SOFTWARE, CGI_REMOTE_ADDR, CGI_SERVER_ADDR, CGI_SERVER_PORT, CGI_SERVER_NAME]

theorem cgiNames_nodup : cgiNames.Nodup := by decide +kernel

theorem cgiNames_notPrefix : ∀ n ∈ cgiNames, HTTP_PREFIX.isPrefixOf n = false := by
  decide +kernel

section Parts

variable {conf : UwsgiConf} {r : UpstreamRequest}

/-- The part of a packet that does not come from the headers. -/
def paramVars (conf : UwsgiConf) (r : UpstreamRequest) : List (List Byte × List Byte) :=
  (uwsgiParams conf r).map fun p => (p.1, paramText r.toHeap p.2)

theorem paramVars_keys (conf : UwsgiConf) (r : UpstreamRequest) :
    (paramVars conf r).map Prod.fst = cgiNames := rfl

/-- The part that comes from the headers. -/
def headerPart (r : UpstreamRequest) : List (List Byte × List Byte) :=
  (r.headersIn.headers.filter fun e => !skipsHeader r.toHeap e.name).map (headerVar r.toHeap)

theorem headerPart_prefix {v : List Byte × List Byte} (hv : v ∈ headerPart r) :
    HTTP_PREFIX.isPrefixOf v.1 = true := by
  obtain ⟨e, -, rfl⟩ := List.mem_map.mp hv
  rw [List.isPrefixOf_iff_prefix]
  exact List.prefix_append _ _

theorem packetVars_parts : packetVars conf r = paramVars conf r ++ headerPart r := rfl

/-- A variable that is not made of a header is found by its name. -/
theorem packetVars_param {p : List Byte × List Byte} (hp : p ∈ paramVars conf r) :
    (packetVars conf r).filter (fun v => v.1 = p.1) = [p] := by
  have hname : p.1 ∈ cgiNames := by
    rw [← paramVars_keys conf r]
    exact List.mem_map_of_mem hp
  have hnil : (headerPart r).filter (fun v => v.1 = p.1) = [] := by
    apply List.filter_eq_nil_iff.mpr
    intro v hv
    simp only [decide_eq_true_eq]
    intro h
    have := headerPart_prefix hv
    rw [h, cgiNames_notPrefix _ hname] at this
    cases this
  rw [packetVars_parts, List.filter_append, hnil, List.append_nil]
  exact filter_key (by rw [paramVars_keys]; exact cgiNames_nodup) hp

theorem packetVars_headers :
    (packetVars conf r).filter (fun v => HTTP_PREFIX.isPrefixOf v.1) = headerPart r := by
  have hnil : (paramVars conf r).filter (fun v => HTTP_PREFIX.isPrefixOf v.1) = [] := by
    apply List.filter_eq_nil_iff.mpr
    intro v hv
    have hname : v.1 ∈ cgiNames := by
      rw [← paramVars_keys conf r]
      exact List.mem_map_of_mem hv
    rw [cgiNames_notPrefix _ hname]
    decide
  rw [packetVars_parts, List.filter_append, hnil, List.nil_append, List.filter_eq_self]
  exact fun v hv => headerPart_prefix hv

end Parts

/-! ## The headers of a packet and the header lines -/

/-- The variable of an entry. -/
def Heap.entryVar (h : Heap) (e : NameKey × Str) : List Byte × List Byte :=
  (HTTP_PREFIX ++ e.1.1.map varByte, h.valueText e.2)

theorem headerPart_entries (r : UpstreamRequest) :
    headerPart r = ((r.headersIn.headers.map r.entry).filter fun e => !skipsName e.1.1).map
      r.entryVar := by
  rw [headerPart, List.filter_map, List.map_map]
  rfl

theorem lineVars_keyed (h : Heap) (pairs : List (Str × Str)) :
    ((pairs.map h.line).filter (ordinary ·.1)).map lineVar
      = ((pairs.map h.keyed).filter fun e => ordinary e.1.1).map h.entryVar := by
  rw [List.filter_map, List.filter_map, List.map_map, List.map_map]
  rfl

theorem skipsName_iff (name : List Byte) : skipsName name = true ↔
    (bytes "Content-Type").map tolower <+: name.map tolower ∨
      ((bytes "Content-Length").take 12).map tolower <+: name.map tolower := by
  have htype := @strncasecmpEq_take name (bytes "Content-Type") 12 (by decide) (by decide)
  have hlength := @strncasecmpEq_take name (bytes "Content-Length") 12 (by decide) (by decide)
  rw [List.take_of_length_le (by decide)] at htype
  rw [skipsName, Bool.or_eq_true, ← htype, ← hlength]
  rfl

/-- What is skipped for its whole name is skipped. -/
theorem skipsName_of_not_ordinary {name : List Byte} (h : ordinary name = false) :
    skipsName name = true := by
  rw [skipsName_iff]
  simp only [ordinary, Bool.and_eq_false_iff, Bool.not_eq_false'] at h
  rcases h with h | h
  · left
    have heq := beq_iff_eq.mp h
    exact heq ▸ List.prefix_refl _
  · right
    rw [beq_iff_eq.mp h]
    exact (List.take_prefix _ _).map tolower

/-- A name with a variable of its own that starts like one of the two names is that
    name. -/
theorem strcasecmpEq_of_not_ordinary {k name : List Byte} (h : ordinary k = false)
    (hname : name = bytes "Content-Type" ∨ name = bytes "Content-Length")
    (hstart : name.map tolower <+: k.map tolower ∨ k.map tolower <+: name.map tolower) :
    strcasecmpEq k name = true := by
  have hapart : ¬ (bytes "Content-Type").map tolower <+: (bytes "Content-Length").map tolower ∧
      ¬ (bytes "Content-Length").map tolower <+: (bytes "Content-Type").map tolower := by
    decide
  simp only [ordinary, Bool.and_eq_false_iff, Bool.not_eq_false'] at h
  rcases h with h | h <;> rcases hname with rfl | rfl
  · exact h
  · rw [beq_iff_eq.mp h] at hstart
    exact absurd hstart (not_or.mpr ⟨hapart.2, hapart.1⟩)
  · rw [beq_iff_eq.mp h] at hstart
    exact absurd hstart (not_or.mpr hapart)
  · exact h

/-- A name that a skipped name is a prefix of is skipped. -/
theorem skipsName_mono {a b : List Byte} (h : skipsName a = true) (hab : a <+: b) :
    skipsName b = true := by
  rw [skipsName_iff] at h ⊢
  have hmap : a.map tolower <+: b.map tolower := hab.map tolower
  exact h.imp (·.trans hmap) (·.trans hmap)

section Lines

variable {r : UpstreamRequest} {pairs : List (Str × Str)}

/-- The key of a name that has its length. -/
theorem Heap.Plain.nameKey {h : Heap} {name : Str} (hname : h.Plain name) :
    (h.nameKey name).Plain :=
  ⟨hname.length.symm, h.notMem_str _⟩

theorem HeadersOf.ends (hr : HeadersOf r.toHttpRequest pairs) {e : NameKey × Str}
    (he : e ∈ pairs.map r.keyed) : e.1.Ends :=
  keyed_ends hr.names e he

theorem Heap.LineStrs.keyed (hlines : r.LineStrs pairs) {e : NameKey × Str}
    (he : e ∈ pairs.map r.keyed) (ho : ordinary e.1.1 = true) : e.1.Plain := by
  obtain ⟨p, hp, rfl⟩ := List.mem_map.mp he
  exact (hlines p hp ho).1.nameKey

theorem linesKept_keyed : LinesKept (pairs.map r.line) ↔
    (∀ e ∈ pairs.map r.keyed, ordinary e.1.1 = true → skipsName e.1.1 = false) ∧
      (pairs.map r.keyed).Pairwise fun p q => ordinary q.1.1 = true → ¬ q.1.1 <+: p.1.1 := by
  rw [LinesKept, List.forall_mem_map, List.forall_mem_map, List.pairwise_map, List.pairwise_map]
  rfl

/-- Lines that are kept have their variables. -/
theorem headerPart_of_kept (hr : HeadersOf r.toHttpRequest pairs) (hlines : r.LineStrs pairs)
    (hkept : LinesKept (pairs.map r.line)) :
    headerPart r = ((pairs.map r.line).filter (ordinary ·.1)).map lineVar := by
  obtain ⟨hskip, hapart⟩ := linesKept_keyed.mp hkept
  have hordinary : ∀ e ∈ pairs.map r.keyed, (!skipsName e.1.1) = ordinary e.1.1 := by
    intro e he
    cases ho : ordinary e.1.1
    · rw [skipsName_of_not_ordinary ho]
      rfl
    · rw [hskip e he ho]
      rfl
  rw [headerPart_entries, lineVars_keyed, hr.headers, setAll_entries,
    build_filter (fun k : NameKey => !skipsName k.1), List.filter_congr hordinary]
  · -- a line that is kept has an entry of its own
    refine hapart.imp_of_mem fun {p q} _ hq hpq hkeep => ?_
    rw [hordinary q hq] at hkeep
    have := hpq hkeep
    rw [← nameHits_iff (hlines.keyed hq hkeep)] at this
    simpa using this
  · -- and no other line changes it
    intro p hp q _ hkeep hhit
    rw [Bool.not_eq_false'] at hkeep ⊢
    exact skipsName_mono hkeep (prefix_of_nameHits (hr.ends hp) hhit)

/-- When every line has its variable, all lines are kept. -/
theorem kept_of_headerPart (hr : HeadersOf r.toHttpRequest pairs) (hlines : r.LineStrs pairs)
    (hperm : (headerPart r).Perm (((pairs.map r.line).filter (ordinary ·.1)).map lineVar)) :
    LinesKept (pairs.map r.line) := by
  have hlen := hperm.length_eq
  rw [headerPart_entries, lineVars_keyed, hr.headers, setAll_entries, List.length_map,
    List.length_map, ← List.countP_eq_length_filter, ← List.countP_eq_length_filter] at hlen
  -- as many entries are sent as there are lines to send, so no line has lost its own
  have hcount : (firsts nameHits [] ((pairs.map r.keyed).map Prod.fst)).countP
      (fun k => !skipsName k.1)
      = ((pairs.map r.keyed).map Prod.fst).countP (fun k => ordinary k.1) := by
    rw [← keys_build, List.countP_map, List.countP_map]
    exact hlen
  have hends : ∀ k ∈ (pairs.map r.keyed).map Prod.fst, k.Ends := by
    intro k hk
    obtain ⟨e, he, rfl⟩ := List.mem_map.mp hk
    exact hr.ends he
  obtain ⟨hw, hp⟩ := kept_of_countP_firsts (fun k : NameKey => !skipsName k.1)
    (fun a ha hwa b hb c _ hab hbc => by
      obtain ⟨e, he, rfl⟩ := List.mem_map.mp ha
      rw [nameHits_iff (hlines.keyed he hwa)] at hab ⊢
      exact hab.trans (prefix_of_nameHits (hends b hb) hbc))
    (fun k _ hk => by
      by_contra ho
      rw [skipsName_of_not_ordinary (by simpa using ho)] at hk
      cases hk) hcount
  refine linesKept_keyed.mpr ⟨fun e he ho => ?_, ?_⟩
  · simpa using hw e.1 (List.mem_map_of_mem he) ho
  · rw [List.pairwise_map] at hp
    refine hp.imp_of_mem fun {p q} _ hq hpq ho hpre => ?_
    have := hpq ho
    rw [(nameHits_iff (hlines.keyed hq ho) _).mpr hpre] at this
    cases this

/-- The header that has a variable of its own is that of a line with its name. -/
theorem valueOf_of_kept (hr : HeadersOf r.toHttpRequest pairs)
    (hkept : LinesKept (pairs.map r.line)) {name : String} (hname : NUL ∉ bytes name)
    (hstarts : ∀ k : List Byte, (bytes name).map tolower <+: k.map tolower →
      skipsName k = true ∧ (ordinary k = false → strcasecmpEq k (bytes name) = true))
    (hstart : ∀ k : List Byte, ordinary k = false → k.map tolower <+: (bytes name).map tolower →
      strcasecmpEq k (bytes name) = true) :
    r.ValueOf pairs (bytes name)
      ((httpHeaderStr r.toHeap r.headersIn.headers (.serverString name)).getD .null) := by
  obtain ⟨hs, hapart⟩ := linesKept_keyed.mp hkept
  rw [httpHeaderStr_entries _ _ _ hname, hr.headers, setAll_entries]
  rcases hf : (build nameHits [] (pairs.map r.keyed)).find? (fun e => isNamed (bytes name) e.1)
    with _ | e
  · right
    refine ⟨by rw [hf]; rfl, fun p hp => ?_⟩
    by_contra hh
    have hh : strcasecmpEq (r.str p.1.data) (bytes name) = true := by simpa using hh
    -- the line's key, or the one it hits, has an entry
    have hkeyed := List.mem_map_of_mem (f := r.keyed) hp
    have hentry : ∃ k ∈ firsts nameHits [] ((pairs.map r.keyed).map Prod.fst),
        (r.keyed p).1.1 <+: k.1 := by
      rcases @firsts_of_mem _ nameHits _ _ (List.mem_map_of_mem hkeyed) with h | ⟨k, hk, hhit⟩
      · exact ⟨_, h, List.prefix_refl _⟩
      · exact ⟨k, hk, prefix_of_nameHits (hr.ends hkeyed) hhit⟩
    obtain ⟨k, hk, hpre⟩ := hentry
    rw [← keys_build] at hk
    obtain ⟨e, he, rfl⟩ := List.mem_map.mp hk
    apply List.find?_eq_none.mp hf e he
    rw [isNamed_iff hname, ← beq_iff_eq.mp hh]
    exact hpre.map tolower
  · left
    have he := List.mem_of_find?_eq_some hf
    have hnamed : isNamed (bytes name) e.1 = true := by simpa using List.find?_some hf
    rw [isNamed_iff hname] at hnamed
    obtain ⟨hskip, hwhole⟩ := hstarts _ hnamed
    -- the key of the entry is that of a line, which has the whole name
    have hkey : ∃ q ∈ pairs.map r.keyed, q.1 = e.1 := by
      have : e.1 ∈ firsts nameHits [] ((pairs.map r.keyed).map Prod.fst) := by
        rw [← keys_build]
        exact List.mem_map_of_mem he
      exact List.mem_map.mp (mem_of_mem_firsts this)
    have hnot : ∀ q ∈ pairs.map r.keyed, q.1 = e.1 → ordinary e.1.1 = false := by
      intro q hq hqe
      by_contra ho
      have := hs q hq (by rw [hqe]; simpa using ho)
      rw [hqe, hskip] at this
      cases this
    obtain ⟨q, hq, hqe⟩ := hkey
    have hwhole := hwhole (hnot q hq hqe)
    -- its value is that of a line with a name that starts it, which is not ordinary either
    obtain ⟨t, p, u, hsplit, hval, hreach⟩ := mem_build he
    have hp : p ∈ pairs.map r.keyed := by simp [hsplit]
    have hpname : strcasecmpEq p.1.1 (bytes name) = true := by
      rcases hreach with hpe | ⟨hhit, q', hq', hqe'⟩
      · rw [hpe]
        exact hwhole
      · have hpre := prefix_of_nameHits (hr.ends hp) hhit
        have hno : ordinary p.1.1 = false := by
          by_contra ho
          rw [hsplit] at hapart
          have := (List.pairwise_append.mp hapart).2.2 q' hq' p (by simp) (by simpa using ho)
          rw [hqe'] at this
          exact this hpre
        refine hstart _ hno ?_
        rw [← beq_iff_eq.mp hwhole]
        exact hpre.map tolower
    obtain ⟨x, hx, rfl⟩ := List.mem_map.mp hp
    refine ⟨x, hx, hpname, ?_⟩
    rw [hf]
    exact hval

/-- The strings of the headers that are written have values when those of the lines have. -/
theorem plainStrs_of_lines {conf : UwsgiConf} (hr : HeadersOf r.toHttpRequest pairs)
    (hlines : r.LineStrs pairs) (hparams : ∀ p ∈ cgiParams conf r, r.HasValue p.2) :
    PlainStrs conf r := by
  -- a header that is written is not one of the two with a variable of their own
  have hwritten : ∀ name : List Byte, skipsName name = false → ordinary name = true := by
    intro name hname
    by_contra ho
    rw [skipsName_of_not_ordinary (by simpa using ho)] at hname
    cases hname
  have hentry : ∀ e ∈ r.headersIn.headers,
      r.entry e ∈ build nameHits [] (pairs.map r.keyed) := by
    intro e he
    rw [← setAll_entries, ← hr.headers]
    exact List.mem_map_of_mem he
  constructor
  · intro p hp v hv
    have hmem : p.2.getD .null ∈ (cgiParams conf r).map Prod.snd := by
      revert p
      simp [uwsgiParams, cgiParams]
    obtain ⟨q, hq, hqv⟩ := List.mem_map.mp hmem
    have := hparams q hq
    rwa [hqv, Option.mem_def.mp hv] at this
  · intro e he hskip
    rw [hr.headers] at he
    obtain ⟨⟨p, hp, hn⟩, -⟩ := mem_setAll he
    rw [hn] at hskip ⊢
    exact (hlines p hp (hwritten _ hskip)).1
  · intro e he hskip
    obtain ⟨t, p, u, hsplit, hval, hreach⟩ := mem_build (hentry e he)
    have hp : p ∈ pairs.map r.keyed := by simp [hsplit]
    have hpskip : skipsName p.1.1 = false := by
      rcases hreach with hpe | ⟨hhit, -⟩
      · rw [hpe]
        exact hskip
      · by_contra hps
        have := skipsName_mono (by simpa using hps) (prefix_of_nameHits (hr.ends hp) hhit)
        rw [show skipsName (r.entry e).1.1 = false from hskip] at this
        cases this
    obtain ⟨x, hx, rfl⟩ := List.mem_map.mp hp
    have := (hlines x hx (hwritten _ hpskip)).2
    rwa [show x.2 = e.value from hval] at this

end Lines

/-! ## The size of a packet that is sent -/

theorem addParam_pos {h : Heap} {m m' : List Byte} {pos pos' : Nat} {name : List Byte}
    {value : Option Str} (hv : ∀ v ∈ value, v.len = 0 ∨ h.Plain v)
    (hadd : upstreamUwsgiAddParam h m pos name value = .ok (m', pos')) :
    pos' = pos + (KeyValue.encodePair (name, paramText h value)).length := by
  simp only [upstreamUwsgiAddParam, Except.bind_eq_ok] at hadd
  obtain ⟨m₁, -, m₂, -, hadd⟩ := hadd
  rw [KeyValue.encodePair_length]
  rcases hf : value.filter (0 < ·.len) with _ | v
  · simp only [hf, Except.bind_eq_ok] at hadd
    obtain ⟨m₃, -, hadd⟩ := hadd
    simp only [pure, Except.pure, Except.ok.injEq, Prod.mk.injEq] at hadd
    simp only [paramText, hf, List.length_nil]
    omega
  · simp only [hf, Except.bind_eq_ok] at hadd
    obtain ⟨-, -, m₃, -, m₄, -, hadd⟩ := hadd
    simp only [pure, Except.pure, Except.ok.injEq, Prod.mk.injEq] at hadd
    obtain ⟨hmem, hlen⟩ : v ∈ value ∧ 0 < v.len := by simpa [Option.filter_eq_some_iff] using hf
    have hplain := (hv v hmem).resolve_left (by omega)
    simp only [paramText, hf, hplain.length]
    omega

theorem addHeader_pos {h : Heap} {m m' : List Byte} {pos pos' : Nat} {e : Header}
    (hname : skipsHeader h e.name = false → h.Plain e.name)
    (hvalue : skipsHeader h e.name = false → e.value.len = 0 ∨ h.Plain e.value)
    (hadd : upstreamUwsgiAddHeader h m pos e = .ok (m', pos')) :
    pos' = pos + (KeyValue.encode (headerVars h e)).length := by
  unfold upstreamUwsgiAddHeader at hadd
  cases hskip : skipsHeader h e.name with
  | true =>
      simp only [hskip, if_true, Except.ok.injEq, Prod.mk.injEq] at hadd
      simp [headerVars, hskip, hadd.2]
  | false =>
      have hname := hname hskip
      have hvalue := hvalue hskip
      simp only [hskip, Bool.false_eq_true, if_false, Except.bind_eq_ok] at hadd
      -- the cursor moves by what is written, which is the length of the pair
      obtain ⟨m₁, -, m₂, -, hadd⟩ := hadd
      simp only [headerVars, hskip, Bool.false_eq_true, if_false, KeyValue.encode_cons,
        KeyValue.encode_nil, List.append_nil, KeyValue.encodePair_length, headerVar,
        List.length_append, List.length_map]
      split at hadd
      · next hlen =>
        simp only [Except.bind_eq_ok] at hadd
        obtain ⟨m₃, -, m₄, -, hadd⟩ := hadd
        simp only [pure, Except.pure, Except.ok.injEq, Prod.mk.injEq, List.length_append] at hadd
        simp only [hlen, if_true]
        omega
      · next hlen =>
        simp only [Except.bind_eq_ok] at hadd
        obtain ⟨m₃, -, hadd⟩ := hadd
        simp only [pure, Except.pure, Except.ok.injEq, Prod.mk.injEq, List.length_append] at hadd
        simp only [hlen, if_false, List.length_nil]
        omega

theorem foldlM_pos {α : Type} {f : List Byte × Nat → α → Except Stop (List Byte × Nat)}
    {vars : α → List (List Byte × List Byte)} (l : List α)
    (hf : ∀ a ∈ l, ∀ m pos m' pos', f (m, pos) a = .ok (m', pos') →
      pos' = pos + (KeyValue.encode (vars a)).length)
    {m m' : List Byte} {pos pos' : Nat} (h : l.foldlM f (m, pos) = .ok (m', pos')) :
    pos' = pos + (KeyValue.encode (l.flatMap vars)).length := by
  induction l generalizing m pos with
  | nil =>
      simp only [List.foldlM_nil, pure, Except.pure, Except.ok.injEq, Prod.mk.injEq] at h
      simp [h.2]
  | cons a l ih =>
      simp only [List.foldlM_cons, Except.bind_eq_ok] at h
      obtain ⟨⟨m₁, pos₁⟩, h₁, h⟩ := h
      have hpos₁ := hf a (by simp) _ _ _ _ h₁
      have := ih (fun b hb => hf b (by simp [hb])) h
      simp only [List.flatMap_cons, KeyValue.encode_append, List.length_append]
      omega

section Convention

variable {uconf : UwsgiConf} {r : UpstreamRequest} {pairs : List (Str × Str)}
  {packet : List Byte}

/-- The packet ends behind its variables. -/
theorem uwsgiBuild_pos (hstr : PlainStrs uconf r) {m : List Byte} {pos : Nat}
    (hbuild : uwsgiBuild uconf r = .ok (m, pos)) :
    pos = (KeyValue.encode (packetVars uconf r)).length + 4 := by
  simp only [uwsgiBuild, Except.bind_eq_ok] at hbuild
  obtain ⟨m₁, -, m₂, -, m₃, -, ⟨m₄, pos₄⟩, h₄, h₅⟩ := hbuild
  have hp₄ := @foldlM_pos _ _ (fun p => [(p.1, paramText r.toHeap p.2)]) (uwsgiParams uconf r)
    (fun p hp m pos m' pos' h => by
      have := addParam_pos (hstr.params p hp) h
      simpa [KeyValue.encode] using this) _ _ _ _ h₄
  have hp₅ := @foldlM_pos _ _ (headerVars r.toHeap) r.headersIn.headers
    (fun e he m pos m' pos' h => addHeader_pos (hstr.names e he) (hstr.values e he) h) _ _ _ _ h₅
  rw [packetVars_eq, KeyValue.encode_append, List.length_append]
  omega

/-- A packet that is sent is no longer than its size in 16 bits says. -/
theorem packetVars_size (hstr : PlainStrs uconf r) (hok : uwsgiPacket uconf r = .ok packet) :
    ((packetVars uconf r).map fun p => p.1.length + p.2.length + 4).sum ≤ 65535 := by
  simp only [uwsgiPacket, Except.bind_eq_ok] at hok
  obtain ⟨⟨m, pos⟩, hbuild, hok⟩ := hok
  split at hok
  case isFalse => cases hok
  next hpos =>
  have hend := uwsgiBuild_pos hstr hbuild
  have hlt : upstreamUwsgiCalcPacketLen uconf r < 65536 := by
    rw [calcPacketLen_eq hstr]
    exact Nat.mod_lt _ (by decide)
  rw [← KeyValue.encode_length]
  omega

/-- The packet that is sent is decoded to the variables that were written. -/
theorem uwsgiDecode_packet (hstr : PlainStrs uconf r)
    (hsize : ((packetVars uconf r).map fun p => p.1.length + p.2.length + 4).sum ≤ 65535) :
    ∃ packet, uwsgiPacket uconf r = .ok packet ∧
      uwsgiDecode packet = some (uconf.modifier1, uconf.modifier2, packetVars uconf r) := by
  rw [← KeyValue.encode_length] at hsize
  obtain ⟨-, m, hbuild, -, htake⟩ := uwsgiBuild_filled hstr hsize
  refine ⟨_, ?_, uwsgiDecode_packetBytes uconf hsize⟩
  rw [← htake]
  simp only [uwsgiPacket, hbuild, bind, Except.bind, if_true, pure, Except.pure]

/-- A parameter is sent with its text. -/
theorem paramVars_mem {n : List Byte} {v : Option Str} (h : (n, v) ∈ uwsgiParams uconf r) :
    (n, r.valueText (v.getD .null)) ∈ paramVars uconf r := by
  rw [← paramText_eq]
  exact List.mem_map_of_mem h

/-- The packet sends the path as `REQUEST_URI`. -/
theorem requestUri_of_convention (hc : CgiConvention uconf r pairs (packetVars uconf r)) :
    r.valueText r.url.path = r.valueText r.url.unparsedUrl := by
  have hsent := packetVars_param (paramVars_mem (show (CGI_REQUEST_URI, some r.url.path)
    ∈ uwsgiParams uconf r by simp [uwsgiParams]))
  have hmeant := (hc.params (CGI_REQUEST_URI, r.url.unparsedUrl) (by simp [cgiParams])).2
  rw [hsent] at hmeant
  simpa using hmeant

/-- When the path is the whole URL, every parameter is sent as the convention has it. -/
theorem cgiParams_sent (hpath : r.valueText r.url.path = r.valueText r.url.unparsedUrl) :
    ∀ p ∈ cgiParams uconf r, (p.1, r.valueText p.2) ∈ paramVars uconf r := by
  have huri := paramVars_mem (show (CGI_REQUEST_URI, some r.url.path)
    ∈ uwsgiParams uconf r by simp [uwsgiParams])
  have hinfo := paramVars_mem (show (CGI_PATH_INFO, some r.url.unparsedUrl)
    ∈ uwsgiParams uconf r by simp [uwsgiParams])
  rw [Option.getD_some, hpath] at huri
  rw [Option.getD_some, ← hpath] at hinfo
  have hsome : ∀ n v, (n, some v) ∈ uwsgiParams uconf r → (n, r.valueText v) ∈ paramVars uconf r :=
    fun n v h => paramVars_mem h
  simp only [cgiParams, List.forall_mem_cons]
  refine ⟨hsome _ _ ?_, hsome _ _ ?_, paramVars_mem ?_, paramVars_mem ?_, huri, hinfo, hsome _ _ ?_,
    hsome _ _ ?_, hsome _ _ ?_, hsome _ _ ?_, hsome _ _ ?_, hsome _ _ ?_, hsome _ _ ?_,
    fun p hp => by cases hp⟩ <;>
    simp [uwsgiParams]

/-- The sum of the parameters does not tell `REQUEST_URI` from `PATH_INFO`. -/
theorem paramVars_size (hparams : ∀ p ∈ cgiParams uconf r, r.HasValue p.2) :
    ((paramVars uconf r).map fun p => p.1.length + p.2.length + 4).sum
      = ((cgiParams uconf r).map fun p => p.1.length + p.2.len + 4).sum := by
  have hsame : ((cgiParams uconf r).map fun p => p.1.length + p.2.len + 4).sum
      = ((cgiParams uconf r).map fun p => p.1.length + (r.valueText p.2).length + 4).sum := by
    refine congrArg List.sum (List.map_congr_left fun p hp => ?_)
    rw [(hparams p hp).length]
  rw [hsame]
  simp only [paramVars, uwsgiParams, cgiParams, List.map_cons, List.map_nil, List.sum_cons,
    List.sum_nil, paramText_eq, Option.getD_some]
  omega

theorem lineVars_size (hlines : r.LineStrs pairs) :
    ((((pairs.map r.line).filter (ordinary ·.1)).map lineVar).map fun p =>
        p.1.length + p.2.length + 4).sum
      = ((pairs.filter fun p => ordinary (r.str p.1.data)).map fun p =>
        HTTP_PREFIX.length + p.1.len + p.2.len + 4).sum := by
  rw [List.filter_map, List.map_map, List.map_map]
  refine congrArg List.sum (List.map_congr_left fun p hp => ?_)
  obtain ⟨hp, ho⟩ := List.mem_filter.mp hp
  obtain ⟨hname, hvalue⟩ := hlines p hp ho
  simp [lineVar, Heap.line, hname.length, hvalue.length]

/-- When its lines are kept the packet is as long as the variables of the convention. -/
theorem packetVars_conventionSize (hr : HeadersOf r.toHttpRequest pairs)
    (hparams : ∀ p ∈ cgiParams uconf r, r.HasValue p.2) (hlines : r.LineStrs pairs)
    (hkept : LinesKept (pairs.map r.line)) :
    ((packetVars uconf r).map fun p => p.1.length + p.2.length + 4).sum
      = conventionSize uconf r pairs := by
  rw [packetVars_parts, List.map_append, List.sum_append, paramVars_size hparams,
    headerPart_of_kept hr hlines hkept, lineVars_size hlines, conventionSize]

/-- Lines that are kept, and a path that is the whole URL, make the convention. -/
theorem CgiSafe.convention (hr : HeadersOf r.toHttpRequest pairs) (hs : CgiSafe uconf r pairs) :
    CgiConvention uconf r pairs (packetVars uconf r) where
  params p hp := ⟨hs.params p hp, packetVars_param (cgiParams_sent hs.path p hp)⟩
  contentType := by
    rw [hr.contentType]
    refine valueOf_of_kept hr hs.kept (by decide) (fun k hk => ⟨?_, fun ho => ?_⟩) ?_
    · exact (skipsName_iff k).mpr (.inl hk)
    · exact strcasecmpEq_of_not_ordinary ho (.inl rfl) (.inl hk)
    · exact fun k ho hk => strcasecmpEq_of_not_ordinary ho (.inl rfl) (.inr hk)
  contentLength := by
    rw [hr.contentLen]
    refine valueOf_of_kept hr hs.kept (by decide) (fun k hk => ⟨?_, fun ho => ?_⟩) ?_
    · apply (skipsName_iff k).mpr
      exact .inr (((List.take_prefix _ _).map tolower).trans hk)
    · exact strcasecmpEq_of_not_ordinary ho (.inr rfl) (.inl hk)
    · exact fun k ho hk => strcasecmpEq_of_not_ordinary ho (.inr rfl) (.inr hk)
  lines := hs.lines
  headers := by
    rw [packetVars_headers, headerPart_of_kept hr hs.lines hs.kept]

/-- A packet that keeps to the convention has only strings with values, and what is decoded
    is what was written. -/
theorem CgiConvention.sent {vars : List (List Byte × List Byte)}
    (hc : CgiConvention uconf r pairs vars) (hr : HeadersOf r.toHttpRequest pairs)
    (hok : uwsgiPacket uconf r = .ok packet)
    (hdecode : uwsgiDecode packet = some (uconf.modifier1, uconf.modifier2, vars)) :
    vars = packetVars uconf r ∧
      ((packetVars uconf r).map fun p => p.1.length + p.2.length + 4).sum ≤ 65535 := by
  have hstr := plainStrs_of_lines hr hc.lines fun p hp => (hc.params p hp).1
  have hsize := packetVars_size hstr hok
  obtain ⟨packet', hok', hdecode'⟩ := uwsgiDecode_packet hstr hsize
  obtain rfl : packet = packet' := Except.ok.inj (hok.symm.trans hok')
  rw [hdecode'] at hdecode
  simp only [Option.some.injEq, Prod.mk.injEq, true_and] at hdecode
  exact ⟨hdecode.symm, hsize⟩

/-- The packet of an accepted request keeps to the convention just for the safe ones. -/
theorem uwsgiPacket_convention {conf : Conf} (ha : AcceptedRequest conf r.toHttpRequest pairs) :
    (∃ packet vars, uwsgiPacket uconf r = .ok packet ∧
      uwsgiDecode packet = some (uconf.modifier1, uconf.modifier2, vars) ∧
      CgiConvention uconf r pairs vars) ↔ CgiSafe uconf r pairs := by
  have hr := ha.headersOf
  constructor
  · rintro ⟨packet, vars, hok, hdecode, hc⟩
    obtain ⟨rfl, hsize⟩ := hc.sent hr hok hdecode
    have hparams : ∀ p ∈ cgiParams uconf r, r.HasValue p.2 := fun p hp => (hc.params p hp).1
    have hperm := hc.headers
    rw [packetVars_headers] at hperm
    have hkept := kept_of_headerPart hr hc.lines hperm
    rw [packetVars_conventionSize hr hparams hc.lines hkept] at hsize
    exact ⟨hparams, hc.lines, hsize, requestUri_of_convention hc, hkept⟩
  · intro hs
    have hstr := plainStrs_of_lines hr hs.lines hs.params
    have hsize := hs.size
    rw [← packetVars_conventionSize hr hs.params hs.lines hs.kept] at hsize
    obtain ⟨packet, hok, hdecode⟩ := uwsgiDecode_packet hstr hsize
    exact ⟨packet, _, hok, hdecode, hs.convention hr⟩

end Convention

/-! ## A path with and without a query -/

/-- The request that one `recv` of `s` brings to the module. -/
def receivedUpstream (s : List Byte) : Option (UpstreamRequest × List (Str × Str)) :=
  (received exampleConf s).map fun x =>
    (⟨x.1, .serverString "10.0.0.2"⟩, x.2)

theorem receivedUpstream_accepted {s : List Byte} {r : UpstreamRequest}
    {pairs : List (Str × Str)} (h : receivedUpstream s = some (r, pairs)) :
    AcceptedRequest exampleConf r.toHttpRequest pairs := by
  obtain ⟨⟨q, ps⟩, hq, heq⟩ := Option.map_eq_some_iff.mp h
  simp only [Prod.mk.injEq] at heq
  obtain ⟨rfl, rfl⟩ := heq
  exact acceptedRequest_of_received hq

theorem uwsgiPacket_convention_query :
    ¬ ∀ (conf : Conf) (uconf : UwsgiConf) (r : UpstreamRequest) (pairs : List (Str × Str)),
      AcceptedRequest conf r.toHttpRequest pairs →
      ∃ packet vars, uwsgiPacket uconf r = .ok packet ∧
        uwsgiDecode packet = some (uconf.modifier1, uconf.modifier2, vars) ∧
        CgiConvention uconf r pairs vars := by
  intro h
  obtain ⟨⟨r, pairs⟩, hr⟩ : ∃ x, receivedUpstream (bytes "GET /a?b HTTP/1.1\nX-Id: 7\n\n") = some x :=
    Option.isSome_iff_exists.mp (by decide)
  have ha := receivedUpstream_accepted hr
  obtain ⟨packet, vars, hok, hdecode, hc⟩ := h _ exampleUwsgiConf r pairs ha
  obtain ⟨rfl, -⟩ := hc.sent ha.headersOf hok hdecode
  -- the packet has the path without its query as `REQUEST_URI`
  have hsent := requestUri_of_convention hc
  have hurl : (receivedUpstream (bytes "GET /a?b HTTP/1.1\nX-Id: 7\n\n")).map
      (fun x => (x.1.valueText x.1.url.path, x.1.valueText x.1.url.unparsedUrl))
      = some (bytes "/a", bytes "/a?b") := by decide
  simp only [hr, Option.map_some, Option.some.injEq, Prod.mk.injEq] at hurl
  rw [hurl.1, hurl.2] at hsent
  exact absurd hsent (by decide)

theorem uwsgiPacket_convention_path :
    ∃ r pairs, receivedUpstream (bytes "GET /a HTTP/1.1\nX-Id: 7\n\n") = some (r, pairs) ∧
      CgiSafe exampleUwsgiConf r pairs ∧
      ∃ packet vars, uwsgiPacket exampleUwsgiConf r = .ok packet ∧
        uwsgiDecode packet = some (0, 0, vars) ∧ CgiConvention exampleUwsgiConf r pairs vars := by
  obtain ⟨⟨r, pairs⟩, hr⟩ :
      ∃ x, receivedUpstream (bytes "GET /a HTTP/1.1\nX-Id: 7\n\n") = some x :=
    Option.isSome_iff_exists.mp (by decide)
  have hsafe : (receivedUpstream (bytes "GET /a HTTP/1.1\nX-Id: 7\n\n")).map
      (fun x => decide (CgiSafe exampleUwsgiConf x.1 x.2)) = some true := by decide
  simp only [hr, Option.map_some, Option.some.injEq, decide_eq_true_eq] at hsafe
  exact ⟨r, pairs, hr, hsafe,
    (uwsgiPacket_convention (receivedUpstream_accepted hr)).mpr hsafe⟩

end XwpServer
