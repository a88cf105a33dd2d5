/-
  XwpServer.DeclaredLength

  The body of a request with a `Content-Length`.

  The value passes through `atoi`, which cuts a `long` down to an `int`, and a negative
  result becomes 0, the length of no body at all.  So the number that is compared with
  `max_content_len` is the one of the header only up to the limit: from there on, and for
  a value that is no number, the request is rejected only if what `atoi` makes of it
  happens to be above the limit.  A body within the limit still needs a buffer, and the
  largest ones of an `int` get none.
-/

import XwpServer.BodyLimit

namespace XwpServer

open CString

/-! ## The value of the header -/

/-- `headers_in.content_len` is what `atoi` makes of the value, or 0. -/
theorem contentLen_of_header {conf : Conf} {r r' : HttpRequest} {io io' : Io} {value : Str}
    {v : List Byte} (h : httpProcessHeaderLine conf .request r io = .ret (true, r', io'))
    (hvalue : r'.headersIn.headerContentLen = some value) (hv : r'.toHeap.cstr value.data = some v) :
    r'.headersIn.contentLen = max 0 (atoi v) := by
  obtain ⟨q, io₁, -, hdone⟩ := httpProcessHeaderLine_accepted h
  obtain ⟨n, hn, rfl⟩ := HttpRequest.fillHeadersIn_eq_some (headersDone_request hdone).1
  have hvalue' : httpHeaderStr q.toHeap q.headersIn.headers HTTP_HEADER_CONTENT_LEN = some value :=
    hvalue
  have hv' : q.toHeap.cstr value.data = some v := hv
  simp only [httpHeaderInt, hvalue', hv', Option.map_some, Option.some.injEq] at hn
  show (if n < 0 then 0 else n) = max 0 (atoi v)
  rw [hn]
  split <;> omega

/-- A string of decimal digits. -/
def IsDecimal (v : List Byte) : Prop := v ≠ [] ∧ ∀ c ∈ v, isdigit c = true

/-- What is right for a request with the value `v` of `Content-Length`. -/
structure LengthHonoured (conf : Conf) (v : List Byte) (io : Io) (ok : Bool) (r' : HttpRequest)
    (io' : Io) : Prop where
  /-- The body has the length, unless the connection is lost before its end. -/
  within : IsDecimal v → (decVal v : Int) ≤ conf.maxContentLen →
    (ok = true ∧ r'.bodyIn.contentLen = decVal v ∧ (0 < decVal v → r'.bodyIn.content ≠ none)) ∨
    (ok = false ∧ r'.status = HTTP_STATUS_CLOSE ∧
      ∃ before e, io.recvs = before ++ e :: io'.recvs ∧ e.Lost)
  above : IsDecimal v → conf.maxContentLen < decVal v →
    ok = false ∧ r'.status = HTTP_STATUS_BAD_REQUEST
  other : ¬ IsDecimal v → ok = false ∧ r'.status = HTTP_STATUS_BAD_REQUEST

/-- The value is a number within the limit, for which there is a buffer, or `atoi` makes one
    of it that is not. -/
def LengthRead (conf : Conf) (h : Heap) (v : List Byte) : Prop :=
  (IsDecimal v ∧ (decVal v : Int) ≤ conf.maxContentLen ∧ h.GrantsBody (decVal v)) ∨
    (0 < atoi v ∧ conf.maxContentLen < atoi v)

theorem atoi_of_le {conf : Conf} (hconf : conf.maxContentLen < 2 ^ 31) {v : List Byte}
    (hv : IsDecimal v) (hle : (decVal v : Int) ≤ conf.maxContentLen) : atoi v = decVal v := by
  have hmin : min (2 ^ 63 - 1) (decVal v : Int) = decVal v := by omega
  rw [atoi_of_digits hv.1 hv.2, hmin]
  exact toInt32_of_lt (by omega) (by omega)

/-- What is answered to a positive length within the limit is not the status 400. -/
theorem bodyOfLength_notBad {r r' : HttpRequest} {io io' : Io} {ok : Bool} {n : Nat}
    (h : bodyOfLength .request n r io = .ret (ok, r', io')) :
    ¬ (ok = false ∧ r'.status = HTTP_STATUS_BAD_REQUEST) := by
  rintro ⟨hok, hbad⟩
  by_cases hgrant : r.toHeap.GrantsBody n
  · rcases bodyOfLength_cases hgrant h with ⟨hok', -⟩ | ⟨-, hclose, -⟩
    · rw [hok] at hok'
      cases hok'
    · rw [hbad] at hclose
      cases hclose
  · have hstatus := (bodyOfLength_refused hgrant h).2
    rw [hbad] at hstatus
    cases hstatus

/-- A length above the limit, as it is read, is rejected for it. -/
theorem honoured_of_above {conf : Conf} {r r' : HttpRequest} {io io' : Io} {ok : Bool}
    {v : List Byte} (hconf : conf.maxContentLen < 2 ^ 31) (hstate : r.state = .headerLine)
    (hhead : r.method ≠ .head) (hpos : 0 < atoi v) (hgt : conf.maxContentLen < atoi v)
    (h : httpProcessContentBody conf .request (max 0 (atoi v)) r io = .ret (ok, r', io')) :
    LengthHonoured conf v io ok r' io' := by
  rw [httpProcessContentBody_tooLarge hstate hhead (by omega) (by omega)] at h
  cases h
  refine ⟨fun hdec hle => ?_, fun _ _ => ⟨rfl, rfl⟩, fun _ => ⟨rfl, rfl⟩⟩
  have := atoi_of_le hconf hdec hle
  omega

/-- A number within the limit is honoured exactly if there is a buffer for the body. -/
theorem honoured_within_iff {conf : Conf} {r r' : HttpRequest} {io io' : Io} {ok : Bool}
    {v : List Byte} (hconf : conf.maxContentLen < 2 ^ 31) (hstate : r.state = .headerLine)
    (hhead : r.method ≠ .head) (hnew : r.bodyIn = {}) (hdec : IsDecimal v)
    (hle : (decVal v : Int) ≤ conf.maxContentLen)
    (h : httpProcessContentBody conf .request (max 0 (atoi v)) r io = .ret (ok, r', io')) :
    LengthHonoured conf v io ok r' io' ↔ r.toHeap.GrantsBody (decVal v) := by
  have hatoi := atoi_of_le hconf hdec hle
  have honly : LengthHonoured conf v io ok r' io' ↔
      (ok = true ∧ r'.bodyIn.contentLen = decVal v ∧
        (0 < decVal v → r'.bodyIn.content ≠ none)) ∨
      (ok = false ∧ r'.status = HTTP_STATUS_CLOSE ∧
        ∃ before e, io.recvs = before ++ e :: io'.recvs ∧ e.Lost) :=
    ⟨fun hhon => hhon.within hdec hle,
      fun h => ⟨fun _ _ => h, fun _ hgt => (by omega), fun hno => absurd hdec hno⟩⟩
  rw [honly]
  by_cases hzero : decVal v = 0
  · rw [show max 0 (atoi v) = 0 by omega, httpProcessContentBody_empty hstate hhead] at h
    cases h
    refine iff_of_true (.inl ⟨rfl, ?_, fun h => by omega⟩) (.inr ?_)
    · show r.bodyIn.contentLen = _
      rw [hnew, hzero]
      rfl
    · rw [hzero]
      decide
  · rw [httpProcessContentBody_ofLength hstate hhead (by omega) (by omega),
      show (max 0 (atoi v)).toNat = decVal v by omega] at h
    by_cases hgrant : r.toHeap.GrantsBody (decVal v)
    · refine iff_of_true ?_ hgrant
      rcases bodyOfLength_cases (r := { r with state := .contentBody }) hgrant h with
        ⟨hok, hlen, hcontent⟩ | hlost
      · exact .inl ⟨hok, hlen, fun _ => hcontent⟩
      · exact .inr hlost
    · refine iff_of_false (fun hhon => ?_) hgrant
      obtain ⟨hok, hstatus⟩ := bodyOfLength_refused (r := { r with state := .contentBody }) hgrant h
      rcases hhon with ⟨hok', -⟩ | ⟨-, hclose, -⟩
      · rw [hok] at hok'
        cases hok'
      · rw [hstatus] at hclose
        cases hclose

/-- A declared length is honoured exactly when it is within the limit and there is a buffer
    for the body, or what is read of it is above the limit. -/
theorem contentLength_honoured_iff {conf : Conf} {r₁ r₂ r₃ : HttpRequest} {io₁ io₂ io₃ : Io}
    {ok : Bool} {value : Str} {v : List Byte} (hconf : conf.maxContentLen < 2 ^ 31)
    (hlines : httpProcessHeaderLine conf .request r₁ io₁ = .ret (true, r₂, io₂))
    (hvalue : r₂.headersIn.headerContentLen = some value)
    (hv : r₂.toHeap.cstr value.data = some v) (hhead : r₂.method ≠ .head) (hnew : r₂.bodyIn = {})
    (h : httpProcessContentBody conf .request r₂.headersIn.contentLen r₂ io₂ = .ret (ok, r₃, io₃)) :
    LengthHonoured conf v io₂ ok r₃ io₃ ↔ LengthRead conf r₂.toHeap v := by
  rw [contentLen_of_header hlines hvalue hv] at h
  have hstate : r₂.state = .headerLine := by
    by_contra hstate
    rw [httpProcessContentBody, if_pos hstate] at h
    cases h
  by_cases hin : IsDecimal v ∧ (decVal v : Int) ≤ conf.maxContentLen
  · obtain ⟨hdec, hle⟩ := hin
    have hatoi := atoi_of_le hconf hdec hle
    rw [honoured_within_iff hconf hstate hhead hnew hdec hle h]
    refine ⟨fun hgrant => .inl ⟨hdec, hle, hgrant⟩, ?_⟩
    rintro (⟨-, -, hgrant⟩ | ⟨-, hgt⟩)
    · exact hgrant
    · omega
  · constructor
    · -- a value that is not a number within the limit is rejected for its length
      intro hhon
      have hbad : ok = false ∧ r₃.status = HTTP_STATUS_BAD_REQUEST := by
        by_cases hdec : IsDecimal v
        · exact hhon.above hdec (Int.not_le.mp fun hle => hin ⟨hdec, hle⟩)
        · exact hhon.other hdec
      by_cases hpos : 0 < atoi v
      case neg =>
        rw [show max 0 (atoi v) = 0 by omega, httpProcessContentBody_empty hstate hhead] at h
        cases h
        cases hbad.1
      refine .inr ⟨hpos, ?_⟩
      by_contra hle
      rw [httpProcessContentBody_ofLength hstate hhead (by omega) (by omega)] at h
      exact bodyOfLength_notBad h hbad
    · rintro (⟨hdec, hle, -⟩ | ⟨hpos, hgt⟩)
      · exact absurd ⟨hdec, hle⟩ hin
      · exact honoured_of_above hconf hstate hhead hpos hgt h

/-- A `POST` request behind its request line, with the lines `s` in its buffer. -/
def postWith (s : List Byte) : HttpRequest :=
  { state := .requestLine, method := .post
    bufs := [⟨s ++ List.replicate (65 - s.length) NUL, 0, s.length, 64⟩] }

/-- The request behind its header lines, and how its body ends. -/
def headAndBody (conf : Conf) (r : HttpRequest) (io : Io) :
    Option ((HttpRequest × Io) × Bool × HttpRequest × Io) :=
  match httpProcessHeaderLine conf .request r io with
  | .ret (true, r₂, io₂) =>
    match httpProcessContentBody conf .request r₂.headersIn.contentLen r₂ io₂ with
    | .ret body => some ((r₂, io₂), body)
    | _ => none
  | _ => none

theorem of_headAndBody {conf : Conf} {r r₂ : HttpRequest} {io io₂ : Io}
    {body : Bool × HttpRequest × Io} (h : headAndBody conf r io = some ((r₂, io₂), body)) :
    httpProcessHeaderLine conf .request r io = .ret (true, r₂, io₂) ∧
      httpProcessContentBody conf .request r₂.headersIn.contentLen r₂ io₂ = .ret body := by
  unfold headAndBody at h
  split at h
  case h_2 => cases h
  next r₂ io₂ hlines =>
  split at h
  case h_2 => cases h
  next body hbody =>
  cases h
  exact ⟨hlines, hbody⟩

/-- The text of the `Content-Length` header. -/
def HttpRequest.lengthText (r : HttpRequest) : Option (List Byte) :=
  r.headersIn.headerContentLen.bind fun value => r.toHeap.cstr value.data

/-- A body of three bytes behind the header lines: 3 is within the limit, and the body fits
    into the header buffer. -/
theorem contentLength_honoured_three :
    ∃ r₂ io₂ ok r₃ io₃, headAndBody exampleConf (postWith (bytes "Content-Length: 3\n\nabc")) {}
        = some ((r₂, io₂), ok, r₃, io₃) ∧ LengthHonoured exampleConf (bytes "3") io₂ ok r₃ io₃ := by
  obtain ⟨⟨⟨r₂, io₂⟩, ok, r₃, io₃⟩, h⟩ :
      ∃ x, headAndBody exampleConf (postWith (bytes "Content-Length: 3\n\nabc")) {} = some x :=
    Option.isSome_iff_exists.mp (by decide)
  have hfacts : (headAndBody exampleConf (postWith (bytes "Content-Length: 3\n\nabc")) {}).map
      (fun x => (x.1.1.lengthText, x.1.1.method, x.1.1.bodyIn))
      = some (some (bytes "3"), .post, {}) := by decide
  simp only [h, Option.map_some, Option.some.injEq, Prod.mk.injEq] at hfacts
  obtain ⟨hv, hmethod, hnew⟩ := hfacts
  obtain ⟨value, hvalue, hv⟩ := Option.bind_eq_some_iff.mp hv
  obtain ⟨hlines, hbody⟩ := of_headAndBody h
  exact ⟨r₂, io₂, ok, r₃, io₃, h, (contentLength_honoured_iff (by decide) hlines hvalue hv
    (by rw [hmethod]; decide) hnew hbody).mpr
      (.inl ⟨⟨by decide, by decide +kernel⟩, by decide, .inr (by decide)⟩)⟩

set_option maxRecDepth 2000 in
/-- The value 2³² + 3 is read as 3. -/
theorem not_honoured_wrapped :
    ∃ r₂ io₂ r₃ io₃,
      headAndBody exampleConf (postWith (bytes "Content-Length: 4294967299\n\nabc")) {}
        = some ((r₂, io₂), true, r₃, io₃) ∧
      r₂.lengthText = some (bytes "4294967299") ∧ r₃.bodyIn.contentLen = 3 ∧
      ¬ LengthHonoured exampleConf (bytes "4294967299") io₂ true r₃ io₃ := by
  obtain ⟨⟨⟨r₂, io₂⟩, ok, r₃, io₃⟩, h⟩ :
      ∃ x, headAndBody exampleConf (postWith (bytes "Content-Length: 4294967299\n\nabc")) {}
        = some x := Option.isSome_iff_exists.mp (by decide)
  have hfacts :
      (headAndBody exampleConf (postWith (bytes "Content-Length: 4294967299\n\nabc")) {}).map
        (fun x => (x.1.1.lengthText, x.2.1, x.2.2.1.bodyIn.contentLen))
      = some (some (bytes "4294967299"), true, 3) := by decide
  simp only [h, Option.map_some, Option.some.injEq, Prod.mk.injEq] at hfacts
  obtain ⟨hv, rfl, hlen⟩ := hfacts
  refine ⟨r₂, io₂, r₃, io₃, h, hv, hlen, fun hhon => ?_⟩
  have hbad := hhon.above ⟨by decide, by decide⟩ (by decide)
  cases hbad.1

end XwpServer
