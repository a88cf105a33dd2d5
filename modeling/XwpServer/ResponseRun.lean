/-
  XwpServer.ResponseRun

  What `connection_send_response` relies on.

  It computes the length of the head in one pass and prints the head in another, and
  asserts that they agree.  They do when the strings of the table have the lengths
  recorded with them and the version is as long as `HTTP/1.x` (`sendHead_ok`).  A body in
  memory is handed to `nwrite`, which asserts that there is something to send
  (`sendResponse_stop`).
-/

import XwpServer.Framing

namespace XwpServer

open CString

/-! ## What can be sent -/

/-- The string is not NULL, and its length is the recorded one. -/
def HttpRequest.Terminated (r : HttpRequest) (x : Str) : Prop :=
  (r.toHeap.cstr x.data).map List.length = some x.len

instance (r : HttpRequest) (x : Str) : Decidable (r.Terminated x) :=
  inferInstanceAs (Decidable (_ = _))

/-- The request that `connection_send_response` is called with: the version has the eight bytes
    of `HTTP/1.x`, the entries that the handler or a backend has left are terminated where their
    lengths say, content is not empty, and the two lengths are an `int` each. -/
structure HttpRequest.Printable (r : HttpRequest) : Prop where
  version : (r.toHeap.cstr r.versionStr.data).map List.length = some (bytes "HTTP/1.x").length
  entries : ∀ e ∈ r.headersOut.headers, r.Terminated e.name ∧ r.Terminated e.value
  fits : ∀ line ∈ (httpStatusLine r.status).toOption,
    connectionResponseHeadersLen line (responseTable r) < 2 ^ 31
  content : r.bodyOut.content ≠ none →
    0 < r.bodyOut.contentLen ∧ r.bodyOut.contentLen < 2 ^ 31

instance (r : HttpRequest) : Decidable r.Printable :=
  decidable_of_iff
    ((r.toHeap.cstr r.versionStr.data).map List.length = some (bytes "HTTP/1.x").length ∧
      (∀ e ∈ r.headersOut.headers, r.Terminated e.name ∧ r.Terminated e.value) ∧
      (∀ line ∈ (httpStatusLine r.status).toOption,
        connectionResponseHeadersLen line (responseTable r) < 2 ^ 31) ∧
      (r.bodyOut.content ≠ none → 0 < r.bodyOut.contentLen ∧ r.bodyOut.contentLen < 2 ^ 31))
    ⟨fun ⟨h₁, h₂, h₃, h₄⟩ => ⟨h₁, h₂, h₃, h₄⟩, fun ⟨h₁, h₂, h₃, h₄⟩ => ⟨h₁, h₂, h₃, h₄⟩⟩

/-- The body is a file, or the bytes of a block. -/
structure HttpRequest.BodyInPlace (r : HttpRequest) : Prop where
  file : 0 ≤ r.bodyOut.contentFd → r.bodyOut.content = none
  content : ∀ b, r.bodyOut.content = some b →
    b.pos + r.bodyOut.contentLen.toNat ≤ (r.buf b.block).mem.length

/-- The head, in the block that `connection_send_response` asks for. -/
def sendHead (r : HttpRequest) : Except Stop (List Byte) := do
  let head ← connectionResponseHead r
  if head.length < 2 ^ 31 then return head else .error .fault

/-- `connection_send_response`, which asks for the block with an `int`. -/
def sendResponse (r : HttpRequest) (io : Io) (file : SentFile) :
    Outcome (Bool × HttpRequest × Io) :=
  match sendHead r with
  | .error s => .stop s
  | .ok _ => connectionSendResponse r io file

theorem HttpRequest.Terminated.printed {r : HttpRequest} {x : Str} (h : r.Terminated x) :
    ∃ s, r.toHeap.printed x.data = .ok s ∧ s.length = x.len := by
  obtain ⟨s, hs, hlen⟩ := Option.map_eq_some_iff.mp h
  exact ⟨s, by rw [Heap.printed, hs], hlen⟩

theorem terminated_serverString (r : HttpRequest) {s : String} (hs : NUL ∉ bytes s) :
    r.Terminated (.serverString s) := by
  have hall : (bytes s).takeWhile (· != NUL) = bytes s := List.takeWhile_eq_self_iff.mpr
    fun c hc => by simpa using fun e : c = NUL => hs (e ▸ hc)
  show some ((bytes s).takeWhile (· != NUL)).length = some (bytes s).length
  rw [hall]

theorem serverHeaders_terminated (r : HttpRequest) :
    ∀ p ∈ serverHeaders r, r.Terminated p.1 ∧ r.Terminated p.2 := by
  intro p hp
  simp only [serverHeaders, List.mem_cons, List.not_mem_nil, or_false] at hp
  rcases hp with rfl | rfl | rfl
  · refine ⟨terminated_serverString r (by decide +kernel), ?_⟩
    dsimp only
    split
    · exact terminated_serverString r (by decide +kernel)
    · exact terminated_serverString r (by decide +kernel)
  · exact ⟨terminated_serverString r (by decide +kernel),
      terminated_serverString r (by decide +kernel)⟩
  · refine ⟨terminated_serverString r (by decide +kernel), ?_⟩
    dsimp only
    split
    · next hpos =>
      show some ((sprintfInt r.bodyOut.contentLen).takeWhile (· != NUL)).length = some _
      rw [takeWhile_sprintfInt hpos]
    · exact terminated_serverString r (by decide +kernel)

/-- Setting headers keeps all strings of a table as they are recorded. -/
theorem foldl_terminated {r : HttpRequest} (ps : List (Str × Str)) {table : List Header}
    (hps : ∀ p ∈ ps, r.Terminated p.1 ∧ r.Terminated p.2)
    (htable : ∀ e ∈ table, r.Terminated e.name ∧ r.Terminated e.value) :
    ∀ e ∈ ps.foldl (fun hs p => httpHeaderSet r.toHeap hs p.1 p.2) table,
      r.Terminated e.name ∧ r.Terminated e.value := by
  induction ps generalizing table with
  | nil => exact htable
  | cons p ps ih =>
      rw [List.foldl_cons]
      refine ih (fun q hq => hps q (by simp [hq])) fun e he => ?_
      have hp := hps p (by simp)
      rcases mem_httpHeaderSet he with ⟨hn, hv⟩ | ⟨e', he', hn, hv | hv⟩
      · rw [hn, hv]
        exact hp
      · rw [hn, hv]
        exact htable e' he'
      · rw [hn, hv]
        exact ⟨(htable e' he').1, hp.2⟩

theorem responseTable_terminated {r : HttpRequest} (h : r.Printable) :
    ∀ e ∈ responseTable r, r.Terminated e.name ∧ r.Terminated e.value :=
  foldl_terminated _ (serverHeaders_terminated r) h.entries

/-! ## Printing into a block of the computed length -/

/-- A text that leaves room behind it is printed. -/
theorem snprintf_fits {m text : List Byte} {pos n : Nat} (hm : m.length = n)
    (h : pos + text.length < n) :
    ∃ m', snprintf m pos (spaceLeft n pos) text = .ok (m', pos + text.length) ∧ m'.length = n := by
  have hspace : spaceLeft n pos = n - pos := by rw [spaceLeft, if_pos (by omega)]
  have hall : text.take (n - pos - 1) = text := List.take_of_length_le (by omega)
  have hstore : store m pos (text ++ [NUL]) = .ok (writeAt m pos (text ++ [NUL])) := by
    rw [store, if_neg]
    simp only [List.length_append, List.length_singleton]
    omega
  refine ⟨writeAt m pos (text ++ [NUL]), ?_, ?_⟩
  · rw [snprintf, hspace, if_neg (by omega), hall, hstore]
    rfl
  · rw [writeAt_length (by simp only [List.length_append, List.length_singleton]; omega), hm]

/-- The length of an entry's line, as it is computed. -/
def Header.lineLen (e : Header) : Nat := e.name.len + e.value.len + 4

theorem printHeader_fits {r : HttpRequest} {e : Header} {x : List Byte × Nat} {n : Nat}
    (he : r.Terminated e.name ∧ r.Terminated e.value) (hx : x.1.length = n)
    (h : x.2 + e.lineLen < n) :
    ∃ m', printHeader r.toHeap n x e = .ok (m', x.2 + e.lineLen) ∧ m'.length = n := by
  obtain ⟨name, hn, hnlen⟩ := he.1.printed
  obtain ⟨value, hv, hvlen⟩ := he.2.printed
  have hlen : (headerText name value).length = e.lineLen := by
    simp only [headerText, Header.lineLen, List.length_append, List.length_cons, List.length_nil]
    omega
  obtain ⟨m', hm', hlen'⟩ := @snprintf_fits x.1 (headerText name value) x.2 n hx (by omega)
  refine ⟨m', ?_, hlen'⟩
  rw [printHeader, hn, hv, ← hlen]
  exact hm'

theorem printHeaders_fit {r : HttpRequest} {headers : List Header} {x : List Byte × Nat} {n : Nat}
    (hs : ∀ e ∈ headers, r.Terminated e.name ∧ r.Terminated e.value) (hx : x.1.length = n)
    (h : x.2 + (headers.map Header.lineLen).sum < n) :
    ∃ m', headers.foldlM (printHeader r.toHeap n) x
        = .ok (m', x.2 + (headers.map Header.lineLen).sum) ∧ m'.length = n := by
  -- on the entries; each round leaves the room that the ones behind it need
  induction headers generalizing x with
  | nil => exact ⟨x.1, rfl, hx⟩
  | cons e headers ih =>
      rw [List.map_cons, List.sum_cons] at h ⊢
      obtain ⟨m', hm', hlen'⟩ := printHeader_fits (hs e (by simp)) hx (by omega)
      obtain ⟨m'', hm'', hlen''⟩ := @ih (m', x.2 + e.lineLen) (fun d hd => hs d (by simp [hd])) hlen'
        (by dsimp only; omega)
      refine ⟨m'', ?_, hlen''⟩
      rw [List.foldlM_cons, hm', ← Nat.add_assoc]
      exact hm''

theorem statusLine_found {status : Int} (h : status ∈ statuses httpStatusInfos) :
    ∃ line, httpStatusLine status = .ok line := by
  have hle : status ≤ 507 := by
    have hall : ∀ x ∈ statuses httpStatusInfos, x ≤ 507 := by decide
    exact hall status h
  obtain ⟨e, he, rfl⟩ := List.mem_map.mp h
  refine ⟨bytes e.2, httpStatusLine_eq.mpr ?_⟩
  rw [statusLine_correct hle (Nat.le_refl _), statusLineOf, statusInfos_lookup e he]

/-- Both passes agree. -/
theorem sendHead_ok {r : HttpRequest} (hstatus : r.status ∈ statuses httpStatusInfos)
    (h : r.Printable) : ∃ head, sendHead r = .ok head := by
  obtain ⟨line, hline⟩ := statusLine_found hstatus
  obtain ⟨version, hversion, hvlen⟩ := Option.map_eq_some_iff.mp h.version
  have hprinted : r.toHeap.printed r.versionStr.data = .ok version := by rw [Heap.printed, hversion]
  have hfits := h.fits line (by rw [hline]; rfl)
  have htable := responseTable_terminated h
  generalize hn : connectionResponseHeadersLen line (responseTable r) = n at hfits
  have hsum : n = version.length + 1 + line.length + 2 +
      ((responseTable r).map Header.lineLen).sum + 2 := by
    rw [← hn, hvlen]
    rfl
  -- the first line, the entries, and the empty line at the end of the block
  obtain ⟨m₁, h₁, hm₁⟩ := @snprintf_fits (List.replicate n NUL) (version ++ SP :: line ++ [CR, LF]) 0
    n (by simp) (by simp only [List.length_append, List.length_cons, List.length_nil]; omega)
  obtain ⟨m₂, h₂, hm₂⟩ := @printHeaders_fit r (responseTable r)
    (m₁, 0 + (version ++ SP :: line ++ [CR, LF]).length) n htable hm₁
    (by simp only [List.length_append, List.length_cons, List.length_nil]; omega)
  generalize hp : 0 + (version ++ SP :: line ++ [CR, LF]).length +
    ((responseTable r).map Header.lineLen).sum = p at h₂
  have hpos : p + 2 = n := by
    simp only [List.length_append, List.length_cons, List.length_nil] at hp
    omega
  have hcr : store m₂ p [CR] = .ok (writeAt m₂ p [CR]) := by
    rw [store, if_neg]
    simp only [List.length_singleton]
    omega
  have hm₃ : (writeAt m₂ p [CR]).length = n := by
    rw [writeAt_length (by simp only [List.length_singleton]; omega), hm₂]
  have hlf : store (writeAt m₂ p [CR]) (p + 1) [LF]
      = .ok (writeAt (writeAt m₂ p [CR]) (p + 1) [LF]) := by
    rw [store, if_neg]
    simp only [List.length_singleton]
    omega
  have hhead : connectionResponseHead r = .ok (writeAt (writeAt m₂ p [CR]) (p + 1) [LF]) := by
    simp only [connectionResponseHead, hline, hprinted, hn, h₁, h₂, hcr, hlf, hpos, if_true, bind,
      Except.bind, pure, Except.pure]
  refine ⟨writeAt (writeAt m₂ p [CR]) (p + 1) [LF], ?_⟩
  have hlen : (writeAt (writeAt m₂ p [CR]) (p + 1) [LF]).length < 2 ^ 31 := by
    rw [writeAt_length (by simp only [List.length_singleton]; omega), hm₃]
    exact hfits
  rw [sendHead, hhead]
  show (if _ then _ else _) = _
  rw [if_pos hlen]
  rfl

/-! ## Sending a response -/

/-- Content that is in its block is handed to `nwrite` as it is. -/
theorem contentBytes_ok {h : Heap} {b : BodyBuf} {n : Int} (hpos : 0 < n) (hlt : n < 2 ^ 31)
    (hmem : b.pos + n.toNat ≤ (h.buf b.block).mem.length) :
    ∃ bs, contentBytes h b (toSizeT n) = .ok bs ∧ bs ≠ [] := by
  have hsize : toSizeT n = n.toNat := by
    unfold toSizeT
    omega
  rw [hsize, contentBytes, if_neg (by rw [List.length_drop]; omega)]
  refine ⟨_, rfl, List.ne_nil_of_length_pos ?_⟩
  rw [List.length_take, List.length_drop]
  omega

theorem sendBody_stop {r : HttpRequest} {io : Io} {file : SentFile} {s : Stop}
    (hcontent : r.bodyOut.content ≠ none →
      0 < r.bodyOut.contentLen ∧ r.bodyOut.contentLen < 2 ^ 31) (hbody : r.BodyInPlace)
    (h : sendBody r io file = .stop s) : s = .misfit := by
  simp only [sendBody] at h
  rw [if_neg fun hboth => hboth.2 (hbody.file hboth.1)] at h
  split at h
  · split at h
    · cases h
    split at h
    · cases h
      rfl
    · cases h
  split at h
  · cases h
  next b hb =>
  obtain ⟨hpos, hlt⟩ := hcontent (by simp [hb])
  obtain ⟨bs, hbs, hne⟩ := contentBytes_ok hpos hlt (hbody.content b hb)
  rw [hbs] at h
  rcases Outcome.bind_eq_stop.mp h with hw | ⟨⟨ok, io'⟩, -, hret⟩
  · exact nwrite_stop hne hw
  · cases hret

/-- A response whose status has a line is sent as far as the client takes it. -/
theorem sendResponse_stop {r : HttpRequest} {io : Io} {file : SentFile} {s : Stop}
    (hstatus : r.status ∈ statuses httpStatusInfos) (hr : r.Printable) (hbody : r.BodyInPlace)
    (h : sendResponse r io file = .stop s) : s = .misfit := by
  obtain ⟨head, hhead⟩ := sendHead_ok hstatus hr
  simp only [sendResponse, hhead, connectionSendResponse] at h
  -- the head that is sent is the one that has been looked at
  split at h
  · next s' hstop =>
    rw [sendHead, hstop] at hhead
    cases hhead
  next head' hhead' =>
  have hne : head' ≠ [] := by
    obtain ⟨line, -, rfl⟩ := connectionResponseHead_text hhead'
    simp
  rcases Outcome.bind_eq_stop.mp h with hw | ⟨⟨ok, io'⟩, -, hrest⟩
  · exact nwrite_stop hne hw
  cases ok with
  | false => cases hrest
  | true =>
      rw [if_pos rfl] at hrest
      refine sendBody_stop ?_ ?_ hrest
      · exact hr.content
      · exact ⟨hbody.file, hbody.content⟩

end XwpServer
