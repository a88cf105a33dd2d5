/-
  XwpServer.Accepted

  An accepted request: its head was parsed and its body received.

  The body is received behind the head, or into a block of its own, so the strings of
  the head stay as they are.
-/

import XwpServer.Body
import XwpServer.HeadTable

namespace XwpServer

open CString

/-! ## What a body leaves alone -/

/-- The buffers of `h` keep, in `h'`, the bytes they had received. -/
def Heap.Keeps (h h' : Heap) : Prop :=
  h.bufs.length ≤ h'.bufs.length ∧
    ∀ j < h.bufs.length, (h'.buf j).mem.take (h.buf j).last = (h.buf j).mem.take (h.buf j).last

theorem Heap.Keeps.refl (h : Heap) : h.Keeps h := ⟨Nat.le_refl _, fun _ _ => rfl⟩

/-- Strings that end in front of the received bytes' end stay. -/
theorem Heap.Keeps.agree {h h' : Heap} (hk : h.Keeps h') {p : Ptr} {j off : Nat}
    (hp : p = .buf j off) (hj : j < h.bufs.length)
    (hend : EndsBefore (h.buf j).mem off (h.buf j).last) : h.Agree h' p := by
  rw [hp, Heap.Agree, Heap.cstr, Heap.cstr, hend.cstr_eq (hk.2 j hj)]

/-- A receive loop of the body fills a new block, or the header buffer from its end on. -/
structure Fills (h : Heap) (w : Receiving) : Prop where
  keeps : h.Keeps w.heap
  behind : w.cur.block < h.bufs.length → (h.buf w.cur.block).last ≤ w.cur.last

theorem Heap.buf_bodyCreate {h h' : Heap} {size : Nat} {bs : List Byte} {b : BodyBuf}
    (hb : h.bodyCreate size bs = .ok (some (b, h'))) {j : Nat} (hj : j < h.bufs.length) :
    h'.buf j = h.buf j := by
  obtain ⟨-, -, -, rfl⟩ := Heap.bodyCreate_some hb
  simp [Heap.buf, List.getElem?_append_left hj]

theorem Heap.Keeps.bodyCreate {h h' h'' : Heap} (hk : h.Keeps h') {size : Nat} {bs : List Byte}
    {b : BodyBuf} (hb : h'.bodyCreate size bs = .ok (some (b, h''))) : h.Keeps h'' := by
  refine ⟨?_, fun j hj => ?_⟩
  · have := hk.1
    obtain ⟨-, -, -, rfl⟩ := Heap.bodyCreate_some hb
    simp only [List.length_append, List.length_singleton]
    omega
  · rw [Heap.buf_bodyCreate hb (Nat.lt_of_lt_of_le hj hk.1)]
    exact hk.2 j hj

section Fills

variable {h : Heap} {w : Receiving}

theorem Fills.recv (hw : Fills h w) {bs : List Byte} {cur : BodyBuf} {h' : Heap}
    (hr : w.cur.recv w.heap bs = .ok (cur, h')) (len : Int) :
    Fills h { w with cur := cur, heap := h', len := len } := by
  simp only [BodyBuf.recv] at hr
  split_ifs at hr with hmis hfault
  simp only [Except.ok.injEq, Prod.mk.injEq] at hr
  obtain ⟨rfl, rfl⟩ := hr
  refine ⟨⟨by simpa using hw.keeps.1, fun j hj => ?_⟩, fun hb => ?_⟩
  · by_cases hjb : j = w.cur.block
    · subst hjb
      have hbehind := hw.behind hj
      dsimp only
      rw [Heap.buf_setBuf (Nat.lt_of_lt_of_le hj hw.keeps.1),
        take_writeAt (by omega) hbehind]
      exact hw.keeps.2 _ hj
    · dsimp only
      rw [Heap.buf_setBuf_ne _ hjb]
      exact hw.keeps.2 j hj
  · have := hw.behind hb
    dsimp only at hb this ⊢
    omega

/-- A new block is filled behind all the others. -/
theorem Fills.bodyCreate (hk : h.Keeps w.heap) {size : Nat} {bs : List Byte} {b : BodyBuf}
    {h' : Heap} (hb : w.heap.bodyCreate size bs = .ok (some (b, h'))) (errno : Errno) (len : Int) :
    Fills h ⟨b, h', errno, len⟩ := by
  refine ⟨hk.bodyCreate hb, fun hlt => ?_⟩
  have := hk.1
  obtain ⟨-, -, rfl, -⟩ := Heap.bodyCreate_some hb
  dsimp only at hlt
  omega

theorem growBody_fills (conf : Conf) (hw : Fills h w) :
    Sum.elim (Fills h) (fun e => ∀ a w, e = .exit a w → Fills h w) (growBody conf w) := by
  simp only [growBody]
  split
  · split
    · rintro a w' ⟨⟩
      exact hw
    split
    · rintro a w' ⟨⟩
    split
    · rintro a w' ⟨⟩
    · rintro a w' ⟨⟩
      exact hw
    · next hb => exact Fills.bodyCreate hw.keeps hb _ _
  · exact hw

theorem checkBody_fills (n : Int) (hw : Fills h w) :
    Sum.elim (Fills h) (fun e => ∀ a w, e = .exit a w → Fills h w) (checkBody n w) := by
  simp only [checkBody]
  split
  · rintro a w' ⟨⟩
    exact hw
  · exact hw

theorem onBodyUntilClose_fills (conf : Conf) (w : Receiving) (e : RecvEvent) (hw : Fills h w) :
    Sum.elim (Fills h) (fun e => ∀ a w, e = .exit a w → Fills h w) (onBodyUntilClose conf w e) := by
  cases e with
  | error e =>
      simp only [onBodyUntilClose]
      split
      · exact ⟨hw.keeps, hw.behind⟩
      · rintro a w' ⟨⟩
        exact ⟨hw.keeps, hw.behind⟩
  | data bs =>
      simp only [onBodyUntilClose]
      split
      · split
        · exact hw
        · rintro a w' ⟨⟩
          exact hw
      · rcases hr : w.cur.recv w.heap bs with s | ⟨cur, h'⟩
        · rintro a w' ⟨⟩
        · exact growBody_fills conf (hw.recv hr _)

theorem onBodyOfLength_fills (n : Int) (w : Receiving) (e : RecvEvent) (hw : Fills h w) :
    Sum.elim (Fills h) (fun e => ∀ a w, e = .exit a w → Fills h w) (onBodyOfLength n w e) := by
  cases e with
  | error e =>
      simp only [onBodyOfLength]
      split
      · exact ⟨hw.keeps, hw.behind⟩
      · rintro a w' ⟨⟩
        exact ⟨hw.keeps, hw.behind⟩
  | data bs =>
      simp only [onBodyOfLength]
      split
      · split
        · exact hw
        · rintro a w' ⟨⟩
          exact hw
      · rcases hr : w.cur.recv w.heap bs with s | ⟨cur, h'⟩
        · rintro a w' ⟨⟩
        · dsimp only
          split
          · rintro a w' ⟨⟩
          · exact checkBody_fills n (hw.recv hr _)

end Fills

/-- The buffer for a body of declared length is a new one, or the header buffer. -/
theorem startOfLength_fills (h : Heap) (n : Nat) (errno : Errno) :
    Sum.elim (Fills h) (fun e => ∀ a w, e = .exit a w → Fills h w) (startOfLength n h errno) := by
  have hold : Fills h (receivingOf h.unreadBody h errno) :=
    ⟨Heap.Keeps.refl _, fun _ => Nat.le_refl _⟩
  unfold startOfLength
  split
  · rintro a w' ⟨⟩
  · rintro a w' ⟨⟩
    exact hold
  next b h' hb =>
  apply checkBody_fills
  unfold bodyBufOf at hb
  dsimp only at hb
  split at hb
  · exact Fills.bodyCreate (w := receivingOf h.unreadBody h errno) (Heap.Keeps.refl _) hb _ _
  · cases hb
    exact hold

/-- Receiving a body keeps the head. -/
theorem httpProcessContentBody_keeps {conf : Conf} {phase : Phase} {n : Int} {r r' : HttpRequest}
    {io io' : Io} {ok : Bool} (hr : httpProcessContentBody conf phase n r io = .ret (ok, r', io')) :
    r.toHeap.Keeps r'.toHeap ∧ r'.toRequestLine = r.toRequestLine ∧
      r'.headersIn = r.headersIn ∧ r'.headersOut = r.headersOut := by
  have hset : ∀ (q : HttpRequest) (b : ContentBody), (q.setBody phase b).toRequestLine
      = q.toRequestLine ∧ (q.setBody phase b).headersIn = q.headersIn ∧
        (q.setBody phase b).headersOut = q.headersOut := by
    intro q b
    cases phase <;> exact ⟨rfl, rfl, rfl⟩
  simp only [httpProcessContentBody] at hr
  split_ifs at hr
  · cases hr
    exact ⟨Heap.Keeps.refl _, rfl, rfl, rfl⟩
  · have hw : Fills r.toHeap (receivingOf r.toHeap.unreadBody r.toHeap io.errno) :=
      ⟨Heap.Keeps.refl _, fun _ => Nat.le_refl _⟩
    have hfeed := Feed.feed_invariant (onBodyUntilClose conf)
      (fun w e hw => onBodyUntilClose_fills conf w e hw) (growBody_fills conf hw) io.recvs
    obtain ⟨e, w, recvs, hf, -, rfl, -⟩ := bodyUntilClose_ret hr
    rw [show Feed.feed _ _ io.recvs = _ from hf] at hfeed
    obtain ⟨h₁, h₂, h₃⟩ := hset { r with state := .contentBody }
      (e.body { r.body phase with contentLen := w.len } w w.len)
    exact ⟨(hfeed e w rfl).keeps, h₁, h₂, h₃⟩
  · cases hr
    exact ⟨Heap.Keeps.refl _, rfl, rfl, rfl⟩
  · cases hr
    exact ⟨Heap.Keeps.refl _, rfl, rfl, rfl⟩
  · have hfeed := Feed.feed_invariant (onBodyOfLength n.toNat)
      (fun w e hw => onBodyOfLength_fills _ w e hw)
      (startOfLength_fills r.toHeap n.toNat io.errno) io.recvs
    obtain ⟨e, w, recvs, hf, -, rfl, -⟩ := bodyOfLength_ret hr
    rw [show Feed.feed _ _ io.recvs = _ from hf] at hfeed
    obtain ⟨h₁, h₂, h₃⟩ := hset { r with state := .contentBody }
      (e.body (HttpRequest.body { r with state := .contentBody } phase) w n.toNat)
    exact ⟨(hfeed e w rfl).keeps, h₁, h₂, h₃⟩

/-! ## The request behind its body -/

/-- `r` is a request whose head and body were received, and `pairs` are the header lines
    that were handed to `http_header_set`. -/
def AcceptedRequest (conf : Conf) (r : HttpRequest) (pairs : List (Str × Str)) : Prop :=
  ∃ r₀ io₀ r₁ io₁ r₂ io₂ io₃, r₀.HeadReady .request ∧
    httpProcessRequestLine conf r₀ io₀ = .ret (true, r₁, io₁) ∧
    httpProcessHeaderLine conf .request r₁ io₁ = .ret (true, r₂, io₂) ∧
    httpProcessContentBody conf .request r₂.headersIn.contentLen r₂ io₂ = .ret (true, r, io₃) ∧
    pairs = handedPairs conf r₁ io₁

def exampleConf : Conf := ⟨64, 128, 16, 64, by decide, by decide⟩

/-- The request that one `recv` of `s` brings on a new connection, and its header lines. -/
def received (conf : Conf) (s : List Byte) : Option (HttpRequest × List (Str × Str)) :=
  match httpProcessRequestLine conf {} { recvs := [.data s] } with
  | .ret (true, r₁, io₁) =>
    match httpProcessHeaderLine conf .request r₁ io₁ with
    | .ret (true, r₂, io₂) =>
      match httpProcessContentBody conf .request r₂.headersIn.contentLen r₂ io₂ with
      | .ret (true, r, _) => some (r, handedPairs conf r₁ io₁)
      | _ => none
    | _ => none
  | _ => none

theorem acceptedRequest_of_received {conf : Conf} {s : List Byte} {r : HttpRequest}
    {pairs : List (Str × Str)} (h : received conf s = some (r, pairs)) :
    AcceptedRequest conf r pairs := by
  unfold received at h
  split at h
  case h_2 => cases h
  next r₁ io₁ hfirst =>
  split at h
  case h_2 => cases h
  next r₂ io₂ hlines =>
  split at h
  case h_2 => cases h
  next r₃ io₃ hbody =>
  simp only [Option.some.injEq, Prod.mk.injEq] at h
  obtain ⟨rfl, rfl⟩ := h
  exact ⟨{}, _, r₁, io₁, r₂, io₂, io₃, ⟨rfl, rfl, rfl⟩, hfirst, hlines, hbody, rfl⟩

/-- What `http_process_header_line` leaves in the request for a table of headers, whose
    names are no longer than they say. -/
structure HeadersOf (r : HttpRequest) (pairs : List (Str × Str)) : Prop where
  headers : r.headersIn.headers = setAll r.toHeap pairs
  host : r.headersIn.headerHost
    = httpHeaderStr r.toHeap r.headersIn.headers HTTP_HEADER_HOST
  contentType : r.headersIn.headerContentType
    = httpHeaderStr r.toHeap r.headersIn.headers HTTP_HEADER_CONTENT_TYPE
  contentLen : r.headersIn.headerContentLen
    = httpHeaderStr r.toHeap r.headersIn.headers HTTP_HEADER_CONTENT_LEN
  names : ∀ p ∈ pairs, ∃ k off, p.1.data = .buf k off ∧
    EndsBefore (r.buf k).mem off (off + p.1.len + 1)

theorem httpProcessHeaderLine_headersOf {conf : Conf} {r r₁ r₂ : HttpRequest} {io io₁ io₂ : Io}
    (hr : r.HeadReady .request) (hfirst : httpProcessRequestLine conf r io = .ret (true, r₁, io₁))
    (hlines : httpProcessHeaderLine conf .request r₁ io₁ = .ret (true, r₂, io₂)) :
    HeadersOf r₂ (handedPairs conf r₁ io₁) ∧ r₁.headerBuf < r₂.bufs.length ∧
      ∀ p ∈ handedPairs conf r₁ io₁, ∃ off, p.1.data = .buf r₁.headerBuf off ∧
        EndsBefore (r₂.buf r₁.headerBuf).mem off (r₂.buf r₁.headerBuf).last ∧
        EndsBefore (r₂.buf r₁.headerBuf).mem off (off + p.1.len + 1) := by
  obtain ⟨q, io', hloop, hdone⟩ := httpProcessHeaderLine_accepted hlines
  obtain ⟨htable, hlt, hnames⟩ := headTable hr hfirst hloop
  obtain ⟨n, -, rfl⟩ := HttpRequest.fillHeadersIn_eq_some (headersDone_request hdone).1
  refine ⟨⟨htable, rfl, rfl, rfl, fun p hp => ?_⟩, hlt, hnames⟩
  obtain ⟨off, hoff, -, hlen⟩ := hnames p hp
  exact ⟨_, off, hoff, hlen⟩

theorem HeadersOf.of_keeps {r r' : HttpRequest} {pairs : List (Str × Str)} (h : HeadersOf r pairs)
    (hin : r'.headersIn = r.headersIn) (hs : ∀ p ∈ pairs, r.toHeap.Agree r'.toHeap p.1.data)
    (hnames : ∀ p ∈ pairs, ∃ k off, p.1.data = .buf k off ∧
      EndsBefore (r'.buf k).mem off (off + p.1.len + 1)) :
    HeadersOf r' pairs := by
  have hstr : ∀ s : String, httpHeaderStr r.toHeap r.headersIn.headers (.serverString s)
      = httpHeaderStr r'.toHeap r.headersIn.headers (.serverString s) := by
    intro s
    refine httpHeaderStr_agree s fun e he => ?_
    rw [h.headers] at he
    obtain ⟨⟨p, hp, hn⟩, -⟩ := mem_setAll he
    rw [hn]
    exact hs p hp
  constructor
  · rw [hin, h.headers]
    exact setAll_agree hs
  · rw [hin, h.host]
    exact hstr _
  · rw [hin, h.contentType]
    exact hstr _
  · rw [hin, h.contentLen]
    exact hstr _
  · exact hnames

/-- The headers of an accepted request are those of its lines. -/
theorem AcceptedRequest.headersOf {conf : Conf} {r : HttpRequest} {pairs : List (Str × Str)}
    (h : AcceptedRequest conf r pairs) : HeadersOf r pairs := by
  obtain ⟨r₀, io₀, r₁, io₁, r₂, io₂, io₃, hr, hfirst, hlines, hbody, rfl⟩ := h
  obtain ⟨h₂, hlt, hnames⟩ := httpProcessHeaderLine_headersOf hr hfirst hlines
  obtain ⟨hkeeps, -, hin, -⟩ := httpProcessContentBody_keeps hbody
  refine h₂.of_keeps hin (fun p hp => ?_) fun p hp => ?_
  · obtain ⟨off, hoff, hend, -⟩ := hnames p hp
    exact hkeeps.agree hoff hlt hend
  · obtain ⟨off, hoff, hend, hlen⟩ := hnames p hp
    exact ⟨_, off, hoff, hend.of_take_eq_end hlen (hkeeps.2 _ hlt)⟩

end XwpServer
