/-
  XwpServer.StatusTables

  `http_status_line` and `http_error_page`.

  Both look a status up in a table by binary search, with the number of entries as the
  first upper index.  Each table's last entry is its greatest, so a status up to it never
  has the index behind the table read, and every greater one has.  The table of the error
  pages is not sorted, but the entry in the wrong place, a second one for 404, is in
  nobody's way (`errorPages_guided`).
-/

import XwpServer.Response
import XwpServer.Lib.BinarySearch

namespace XwpServer

open CString BinarySearch

/-! ## The error pages -/

/-- The lines of a page, each with its `CRLF`. -/
def pageLines (ls : List String) : List Byte := ls.flatMap fun l => bytes l ++ [CR, LF]

/-- A page that shows its title. -/
def errorPage (title : String) : List Byte := pageLines [
  "<html>", "<head><title>" ++ title ++ "</title></head>", "<body bgcolor=\"white\">",
  "<center><h1>" ++ title ++ "</h1></center>"]

/-- A page of a request that is answered as a bad one. -/
def badRequestPage (reason : String) : List Byte := pageLines [
  "<html>", "<head><title>400 " ++ reason ++ "</title></head>", "<body bgcolor=\"white\">",
  "<center><h1>400 Bad Request</h1></center>", "<center>" ++ reason ++ "</center>"]

/-- `http_error_pages`. -/
def httpErrorPages : List (Int × List Byte) := [
  (301, errorPage "301 Moved Permanently"), (302, errorPage "302 Found"),
  (303, errorPage "303 See Other"), (307, errorPage "307 Temporary Redirect"),
  (400, errorPage "400 Bad Request"), (401, errorPage "401 Authorization Required"),
  (402, errorPage "402 Payment Required"), (403, errorPage "403 Forbidden"),
  (404, errorPage "404 Not Found"), (405, errorPage "405 Not Allowed"),
  (406, errorPage "406 Not Acceptable"), (408, errorPage "408 Request Time-out"),
  (409, errorPage "409 Conflict"), (410, errorPage "410 Gone"),
  (411, errorPage "411 Length Required"), (412, errorPage "412 Precondition Failed"),
  (413, errorPage "413 Request Entity Too Large"), (414, errorPage "414 Request-URI Too Large"),
  (415, errorPage "415 Unsupported Media Type"),
  (416, errorPage "416 Requested Range Not Satisfiable"),
  (494, badRequestPage "Request Header Or Cookie Too Large"),
  (495, badRequestPage "The SSL certificate error"),
  (496, badRequestPage "No required SSL certificate was sent"),
  (497, badRequestPage "The plain HTTP request was sent to HTTPS port"),
  (404, errorPage "404 Not Found"), (500, errorPage "500 Internal Server Error"),
  (501, errorPage "501 Method Not Implemented"), (502, errorPage "502 Bad Gateway"),
  (503, errorPage "503 Service Temporarily Unavailable"),
  (504, errorPage "504 Gateway Time-out"), (507, errorPage "507 Insufficient Storage")]

/-- `http_error_full_tail`. -/
def httpErrorFullTail : List Byte :=
  pageLines ["<hr><center>xwp server 0.1</center>", "</body>", "</html>"]

/-- The statuses of a table. -/
def statuses {α : Type} (table : List (Int × α)) : List Int := table.map (·.1)

/-- `http_error_page` when its loop makes at most `fuel` rounds, `none` if it is cut off; an
    error message stands between the page and its tail. -/
def errorPageSearch (status : Int) (errMsg : Option (List Byte)) (fuel : Nat) :
    Option (Except Stop (Option (List Byte))) :=
  match search (statuses httpErrorPages) status fuel 0 (statuses httpErrorPages).length with
  | .index i =>
      some (.ok (httpErrorPages[i]?.map fun e => e.2 ++ errMsg.getD [] ++ httpErrorFullTail))
  | .missing => some (.ok none)
  | .outside => some (.error .fault)
  | .pending => none

theorem errorPageSearch_isSome (status : Int) (errMsg : Option (List Byte)) :
    (errorPageSearch status errMsg ((statuses httpErrorPages).length + 2)).isSome := by
  have hends : search (statuses httpErrorPages) status ((statuses httpErrorPages).length + 2) 0
      (statuses httpErrorPages).length ≠ .pending := search_ends (by omega)
  rw [errorPageSearch]
  split
  case h_4 hpending => exact absurd hpending hends
  all_goals rfl

/-- `http_error_page`. -/
def httpErrorPage (status : Int) (errMsg : Option (List Byte)) : Except Stop (Option (List Byte)) :=
  (errorPageSearch status errMsg ((statuses httpErrorPages).length + 2)).get
    (errorPageSearch_isSome status errMsg)

theorem httpErrorPage_eq {status : Int} {errMsg : Option (List Byte)}
    {x : Except Stop (Option (List Byte))} : httpErrorPage status errMsg = x ↔
      errorPageSearch status errMsg ((statuses httpErrorPages).length + 2) = some x := by
  rw [httpErrorPage, Option.eq_some_iff_get_eq]
  constructor
  · exact fun h => ⟨_, h⟩
  · rintro ⟨_, h⟩
    exact h

/-! ## What the lookups are for -/

/-- The line of a status; a status without one fails the assertion. -/
def statusLineOf (status : Int) : Except Stop (List Byte) :=
  match httpStatusInfos.lookup status with
  | some line => .ok (bytes line)
  | none => .error .assert

/-- The page of a status, if it has one. -/
def errorPageOf (status : Int) (errMsg : Option (List Byte)) : Option (List Byte) :=
  (httpErrorPages.lookup status).map fun page => page ++ errMsg.getD [] ++ httpErrorFullTail

/-- Both lookups end, within as many rounds as their tables have indices and two more, read
    their tables only, and find the entry of the status if there is one. -/
structure LookupsCorrect (status : Int) : Prop where
  line : ∀ fuel, httpStatusInfos.length + 2 ≤ fuel →
    statusLineSearch status fuel 0 httpStatusInfos.length = some (statusLineOf status)
  page : ∀ fuel errMsg, httpErrorPages.length + 2 ≤ fuel →
    errorPageSearch status errMsg fuel = some (.ok (errorPageOf status errMsg))

/-! ## Searching a table of entries -/

section Table

variable {α : Type} {table : List (Int × α)} {status : Int}

theorem statuses_length : (statuses table).length = table.length := List.length_map _

theorem statuses_getElem? (i : Nat) : (statuses table)[i]? = table[i]?.map (·.1) :=
  List.getElem?_map

theorem lookup_of_mem (hone : ∀ e ∈ table, table.lookup e.1 = some e.2) {i : Nat}
    (h : (statuses table)[i]? = some status) :
    ∃ e, table[i]? = some e ∧ table.lookup status = some e.2 := by
  rw [statuses_getElem?] at h
  obtain ⟨e, he, rfl⟩ := Option.map_eq_some_iff.mp h
  exact ⟨e, he, hone e (List.mem_of_getElem? he)⟩

theorem lookup_eq_none (h : ∀ i : Nat, (statuses table)[i]? ≠ some status) :
    table.lookup status = none := by
  rw [List.lookup_eq_none_iff]
  intro e he
  obtain ⟨i, hi⟩ := List.getElem?_of_mem he
  have hne := h i
  rw [statuses_getElem?, hi] at hne
  exact bne_iff_ne.mpr fun heq => hne (congrArg some heq.symm)

/-- What the search of a table comes to, for a status that is not above its last entry. -/
theorem search_lookup (hone : ∀ e ∈ table, table.lookup e.1 = some e.2)
    (hguided : ∀ key ∈ statuses table, ∃ q, (statuses table)[q]? = some key ∧
      Guided (statuses table) q)
    (hlast : ∃ x ∈ (statuses table).getLast?, status ≤ x) {fuel : Nat}
    (hfuel : table.length + 2 ≤ fuel) :
    (∃ i e, search (statuses table) status fuel 0 (statuses table).length = .index i ∧
      table[i]? = some e ∧ table.lookup status = some e.2) ∨
    (search (statuses table) status fuel 0 (statuses table).length = .missing ∧
      table.lookup status = none) := by
  have hlen : (statuses table).length = table.length := statuses_length
  have hfuel' : search (statuses table) status fuel 0 (statuses table).length
      = search (statuses table) status ((statuses table).length + 2) 0 (statuses table).length :=
    search_fuel (by omega) (by omega)
  rw [hfuel']
  -- a status of the table is found; another one ends the search with an empty window
  by_cases hmem : status ∈ statuses table
  · obtain ⟨q, hq, hguide⟩ := hguided status hmem
    obtain ⟨i, hi⟩ := search_guided hq hguide
    obtain ⟨e, he, hlook⟩ := lookup_of_mem hone (search_found hi)
    exact .inl ⟨i, e, hi, he, hlook⟩
  · have hnot : ∀ i : Nat, (statuses table)[i]? ≠ some status :=
      fun i hi => hmem (List.mem_of_getElem? hi)
    refine .inr ⟨?_, lookup_eq_none hnot⟩
    cases hs : search (statuses table) status ((statuses table).length + 2) 0
        (statuses table).length with
    | index i => exact absurd (search_found hs) (hnot i)
    | missing => rfl
    | outside =>
        obtain ⟨x, hx, hle⟩ := hlast
        have := search_outside hs x hx
        omega
    | pending => exact absurd hs (search_ends (by omega))

end Table

/-! ## The two tables -/

theorem statusInfos_lookup : ∀ e ∈ httpStatusInfos, httpStatusInfos.lookup e.1 = some e.2 := by
  decide

theorem errorPages_lookup : ∀ e ∈ httpErrorPages, httpErrorPages.lookup e.1 = some e.2 := by
  rw [← List.forall_iff_forall_mem]
  repeat' constructor

theorem statusInfos_sorted : (statuses httpStatusInfos).Pairwise (· < ·) := by decide

theorem errorPages_statuses : statuses httpErrorPages = [301, 302, 303, 307, 400, 401, 402, 403,
    404, 405, 406, 408, 409, 410, 411, 412, 413, 414, 415, 416, 494, 495, 496, 497, 404, 500,
    501, 502, 503, 504, 507] := rfl

/-- The second entry for 404 is on the way to no other one; the first is found. -/
theorem errorPages_guided : ∀ key ∈ statuses httpErrorPages,
    ∃ q, (statuses httpErrorPages)[q]? = some key ∧ Guided (statuses httpErrorPages) q := by
  have hall : ∀ key ∈ statuses httpErrorPages, ∃ q ∈ List.range 31,
      (statuses httpErrorPages)[q]? = some key ∧ Guided (statuses httpErrorPages) q := by
    rw [errorPages_statuses]
    decide
  intro key hkey
  obtain ⟨q, -, h⟩ := hall key hkey
  exact ⟨q, h⟩

/-! ## The lookups -/

/-- The loop of `http_status_line` is the search of the table's statuses. -/
theorem statusLineSearch_eq (status : Int) (fuel : Nat) (low high : Int) :
    statusLineSearch status fuel low high
      = match search (statuses httpStatusInfos) status fuel low high with
        | .index i => httpStatusInfos[i]?.map fun e => .ok (bytes e.2)
        | .missing => some (.error .assert)
        | .outside => some (.error .fault)
        | .pending => none := by
  -- round by round: the two compare the same middle entry
  induction fuel generalizing low high with
  | zero => rfl
  | succ fuel ih =>
      rw [statusLineSearch, search]
      by_cases hle : high < low
      · rw [if_pos hle, if_pos hle]
      rw [if_neg hle, if_neg hle]
      dsimp only
      rw [statuses_getElem?]
      cases he : httpStatusInfos[((low + high) / 2).toNat]? with
      | none => rfl
      | some e =>
          obtain ⟨s, line⟩ := e
          dsimp only [Option.map_some]
          by_cases hs : s = status
          · rw [if_pos hs, if_pos hs]
            dsimp only
            rw [he]
            rfl
          rw [if_neg hs, if_neg hs]
          by_cases hlt : s < status
          · rw [if_pos hlt, if_pos hlt, ih]
          · rw [if_neg hlt, if_neg hlt, ih]

theorem statusLine_correct {status : Int} (h : status ≤ 507) {fuel : Nat}
    (hfuel : httpStatusInfos.length + 2 ≤ fuel) :
    statusLineSearch status fuel 0 httpStatusInfos.length = some (statusLineOf status) := by
  rw [statusLineSearch_eq, statusLineOf]
  have hguided : ∀ key ∈ statuses httpStatusInfos, ∃ q, (statuses httpStatusInfos)[q]? = some key ∧
      Guided (statuses httpStatusInfos) q := by
    intro key hkey
    obtain ⟨q, hq⟩ := List.getElem?_of_mem hkey
    exact ⟨q, hq, guided_of_sorted statusInfos_sorted q⟩
  rcases search_lookup statusInfos_lookup hguided ⟨507, rfl, h⟩ hfuel with
    ⟨i, e, hs, he, hlook⟩ | ⟨hs, hlook⟩
  · rw [statuses_length] at hs
    rw [hs, hlook]
    dsimp only
    rw [he]
    rfl
  · rw [statuses_length] at hs
    rw [hs, hlook]

theorem errorPage_correct {status : Int} (h : status ≤ 507) (errMsg : Option (List Byte))
    {fuel : Nat} (hfuel : httpErrorPages.length + 2 ≤ fuel) :
    errorPageSearch status errMsg fuel = some (.ok (errorPageOf status errMsg)) := by
  rw [errorPageSearch, errorPageOf]
  rcases search_lookup errorPages_lookup errorPages_guided ⟨507, rfl, h⟩ hfuel with
    ⟨i, e, hs, he, hlook⟩ | ⟨hs, hlook⟩
  · rw [hs, hlook]
    dsimp only
    rw [he]
    rfl
  · rw [hs, hlook]
    rfl

/-- Above the last entry the search reads behind the table. -/
theorem statusLine_outside {status : Int} (h : 507 < status) :
    httpStatusLine status = .error .fault := by
  have hall : ∀ x ∈ statuses httpStatusInfos, x < status := by
    have hle : ∀ x ∈ statuses httpStatusInfos, x ≤ 507 := by decide
    exact fun x hx => by have := hle x hx; omega
  rw [httpStatusLine_eq, statusLineSearch_eq, ← statuses_length, search_above hall (by omega)]

/-- Both lookups are correct exactly for the statuses up to the last entries. -/
theorem lookupsCorrect_iff (status : Int) : LookupsCorrect status ↔ status ≤ 507 := by
  constructor
  · intro h
    by_contra hlt
    have hline := h.line _ (Nat.le_refl _)
    rw [httpStatusLine_eq.mp (statusLine_outside (by omega)), statusLineOf] at hline
    split at hline <;> cases hline
  · intro h
    exact ⟨fun fuel hfuel => statusLine_correct h hfuel,
      fun fuel errMsg hfuel => errorPage_correct h errMsg hfuel⟩

/-- A backend may send the status 599; both searches read behind their tables. -/
theorem not_lookupsCorrect : ¬ (∀ status : Int, LookupsCorrect status) ∧
    httpStatusLine 599 = .error .fault ∧ httpErrorPage 599 none = .error .fault := by
  refine ⟨fun h => ?_, by decide, by decide⟩
  have hline := (h 599).line _ (Nat.le_refl _)
  exact absurd hline (by decide)

end XwpServer
