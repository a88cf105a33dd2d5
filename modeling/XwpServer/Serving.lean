/-
  XwpServer.Serving

  `connection_run`, with the responses it sends.

  A round ends with `connection_special_response`, which may put a page in, and
  `connection_send_response`.  Every status that the server sets itself has a line, and the
  body is a file or lies in its block.  So a run in which the statuses of handlers and of
  replies have lines, and every response can be printed, is never aborted in the two
  (`never_aborted`).  A request line that is rejected before its version is enough to abort
  it.
-/

import XwpServer.ResponseRun

namespace XwpServer

open CString Round Transition

/-! ## Runs -/

/-- `connection_run`. -/
inductive Serving where
  | round (s : Round)
  /-- `connection_send_response` is called next. -/
  | responding (s : Round)
  /-- It has returned. -/
  | responded (ok : Bool) (s : Round)
  /-- The process was stopped in `connection_special_response` or in
      `connection_send_response`. -/
  | aborted (e : Stop)
  deriving DecidableEq

inductive ServingMove where
  /-- A move of the round; `again` and `leave` are made behind a response. -/
  | round (m : RoundMove)
  /-- `module_default_handle_request` has returned. -/
  | served (root : LocRoot) (fs : FileSystem)
  /-- `timedout` is found set behind the handler. -/
  | timedOut
  /-- `connection_special_response`, where the status asks for it. -/
  | special
  /-- `connection_send_response`, with the file it sends. -/
  | send (file : SentFile)

namespace Serving

def start (io : Io) : Serving := .round (Round.start io)

/-- A move of `connection_run`; a call that waits has no next state. -/
def step (conf : Conf) : Serving → ServingMove → Option Serving
  | .round s, .round m => if s.pc = .answer then none else (s.step conf m).map .round
  | .round s, .served root fs =>
    if s.pc = .process then
      (moduleDefaultHandleRequest root fs s.r).toOption.map fun x =>
        .round { s with r := x.1, pc := .answer }
    else none
  | .round s, .timedOut =>
    if s.pc = .answer then some (.round { s with pc := .left }) else none
  | .round s, .special =>
    if s.pc = .answer then
      match roundAnswer s.r with
      | .error e => some (.aborted e)
      | .ok none => some (.round { s with pc := .left })
      | .ok (some r) => some (.responding { s with r := r })
    else none
  | .responding s, .send file =>
    match sendResponse s.r s.io file with
    | .ret (ok, r, io) => some (.responded ok { s with r := r, io := io })
    | .wait _ => none
    | .stop e => if e = .misfit then none else some (.aborted e)
  | .responded ok s, .round (.again io) =>
    if ok = true ∧ s.r.keepAlive = true then (s.step conf (.again io)).map .round else none
  | .responded _ s, .round .leave => (s.step conf .leave).map .round
  | _, _ => none

end Serving

/-! ## Statuses -/

/-- The connection is closed for the status, or the status has a line. -/
def Answerable (status : Int) : Prop :=
  status = HTTP_STATUS_CLOSE ∨ status ∈ statuses httpStatusInfos

instance (status : Int) : Decidable (Answerable status) := inferInstanceAs (Decidable (_ ∨ _))

theorem answerable_ok : Answerable HTTP_STATUS_OK := .inr (by decide)

theorem answerable_badRequest : Answerable HTTP_STATUS_BAD_REQUEST := .inr (by decide)

theorem answerable_internalServerError : Answerable HTTP_STATUS_INTERNAL_SERVER_ERROR :=
  .inr (by decide)

theorem answerable_badGateway : Answerable HTTP_STATUS_BAD_GATEWAY := .inr (by decide)

theorem LoopExit.answerable {e : LoopExit} {status : Int} (h : e = .done → Answerable status) :
    Answerable (e.status status) := by
  cases e with
  | done => exact h rfl
  | badRequest => exact answerable_badRequest
  | closed => exact .inl rfl
  | noLargeBuf => exact answerable_internalServerError

theorem BodyExit.answerable {e : BodyExit} {status : Int} (h : e = .done → Answerable status) :
    Answerable (e.status status) := by
  cases e with
  | done => exact h rfl
  | badRequest => exact answerable_badRequest
  | closed => exact .inl rfl
  | noMemory => exact answerable_internalServerError

/-! ## In front of a response -/

/-- Nothing has been put into the response. -/
structure HttpRequest.Unanswered (r : HttpRequest) : Prop where
  status : Answerable r.status
  headers : r.headersOut.headers = []
  body : r.bodyOut = {}

/-- The request at the end of its round; a file is sent with a status of its own, so no page
    is put in beside it. -/
structure HttpRequest.Answered (r : HttpRequest) : Prop extends r.BodyInPlace where
  status : Answerable r.status
  plain : 0 ≤ r.bodyOut.contentFd → r.status < HTTP_STATUS_SPECIAL_RESPONSE

section Readers

variable {conf : Conf} {r r' : HttpRequest} {io io' : Io} {ok : Bool}

theorem HttpRequest.Unanswered.answered (h : r.Unanswered) : r.Answered where
  file := by
    rw [h.body]
    exact fun _ => rfl
  content b hb := by
    rw [h.body] at hb
    cases hb
  status := h.status
  plain hfd := by
    rw [h.body] at hfd
    exact absurd hfd (by decide)

theorem processLines_unanswered {σ : Type} {parse : Nat → Parse σ} {get : HttpRequest → σ}
    {put : HttpRequest → σ → HttpRequest} (hr : r.Unanswered)
    (h : processLines conf parse get put r io = .ret (ok, r', io'))
    (hput : ∀ q x, (put q x).status = q.status ∧ (put q x).headersOut = q.headersOut ∧
      (put q x).bodyOut = q.bodyOut) : r'.Unanswered := by
  have hout := processLines_keep h (fun q => (q.headersOut, q.bodyOut)) fun q x h s =>
    Prod.ext (hput q x).2.1 (hput q x).2.2
  rw [Prod.mk.injEq] at hout
  refine ⟨?_, by rw [hout.1, hr.headers], by rw [hout.2, hr.body]⟩
  simp only [processLines] at h
  rcases hl : recvLoop conf (parse r.headerBuf) r.headerBuf ⟨get r, r.toHeap, io.errno⟩ io.recvs
    with ⟨w | ⟨e, x, heap, errno⟩ | s, rest⟩ <;> rw [hl] at h
  · cases h
  · simp only [finishLines, Outcome.ret.injEq, Prod.mk.injEq] at h
    obtain ⟨-, rfl, -⟩ := h
    refine LoopExit.answerable fun _ => ?_
    show Answerable (put r x).status
    rw [(hput r x).1]
    exact hr.status
  · cases h

theorem httpProcessRequestLine_unanswered (hr : r.Unanswered)
    (h : httpProcessRequestLine conf r io = .ret (ok, r', io')) : r'.Unanswered := by
  unfold httpProcessRequestLine at h
  split at h
  · cases h
  refine processLines_unanswered ?_ h fun _ _ => ⟨rfl, rfl, rfl⟩
  exact ⟨hr.status, hr.headers, hr.body⟩

theorem httpProcessHeaderLine_unanswered (hr : r.Unanswered)
    (h : httpProcessHeaderLine conf .request r io = .ret (ok, r', io')) : r'.Unanswered := by
  obtain ⟨⟨okLoop, q, ioLoop⟩, hloop, hdone⟩ := Outcome.bind_eq_ret.mp h
  have hq : q.Unanswered := by
    unfold httpHeaderLoop at hloop
    split at hloop
    · cases hloop
    refine processLines_unanswered ?_ hloop fun _ _ => ⟨rfl, rfl, rfl⟩
    exact ⟨hr.status, hr.headers, hr.body⟩
  cases okLoop with
  | false =>
      cases hdone
      exact hq
  | true =>
      obtain ⟨hfill, -⟩ := headersDone_request hdone
      obtain ⟨n, -, rfl⟩ := HttpRequest.fillHeadersIn_eq_some hfill
      exact ⟨hq.status, hq.headers, hq.body⟩

theorem httpProcessContentBody_unanswered {n : Int} (hr : r.Unanswered)
    (h : httpProcessContentBody conf .request n r io = .ret (ok, r', io')) : r'.Unanswered := by
  simp only [httpProcessContentBody] at h
  split_ifs at h
  · cases h
    exact ⟨hr.status, hr.headers, hr.body⟩
  · obtain ⟨e, w, recvs, -, -, rfl, -⟩ := bodyUntilClose_ret h
    exact ⟨BodyExit.answerable fun _ => hr.status, hr.headers, hr.body⟩
  · cases h
    exact ⟨hr.status, hr.headers, hr.body⟩
  · cases h
    exact ⟨answerable_badRequest, hr.headers, hr.body⟩
  · obtain ⟨e, w, recvs, -, -, rfl, -⟩ := bodyOfLength_ret h
    exact ⟨BodyExit.answerable fun _ => hr.status, hr.headers, hr.body⟩

/-! ## The body of a reply -/

/-- The bytes a receive loop has counted are in its block. -/
theorem Holds.in_place {bs : List Byte} {w : Receiving} (hw : Holds bs w) {len : Int}
    (hlen : len ≤ bs.length) :
    w.cur.pos + len.toNat ≤ (w.heap.buf w.cur.block).mem.length := by
  have := hw.length
  have := hw.pos_le
  have := hw.last_le
  have := hw.end_le
  omega

/-- A body that is received is no file. -/
theorem httpProcessContentBody_fd {n : Int}
    (h : httpProcessContentBody conf .response n r io = .ret (ok, r', io')) :
    r'.bodyOut.contentFd = r.bodyOut.contentFd := by
  have hexit : ∀ (e : BodyExit) (old : ContentBody) (w : Receiving) (len : Int),
      (e.body old w len).contentFd = old.contentFd := by
    intro e old w len
    cases e <;> rfl
  simp only [httpProcessContentBody] at h
  split_ifs at h
  · cases h
    rfl
  · obtain ⟨e, w, recvs, -, -, rfl, -⟩ := bodyUntilClose_ret h
    exact hexit e _ w _
  · cases h
    rfl
  · cases h
    rfl
  · obtain ⟨e, w, recvs, -, -, rfl, -⟩ := bodyOfLength_ret h
    exact hexit e _ w _

theorem bodyUntilClose_inPlace (hk : r.headerBuf < r.bufs.length)
    (hbuf : (r.buf r.headerBuf).Valid)
    (h : bodyUntilClose conf .response r io = .ret (true, r', io')) {b : BodyBuf}
    (hb : r'.bodyOut.content = some b) :
    b.pos + r'.bodyOut.contentLen.toNat ≤ (r'.buf b.block).mem.length := by
  obtain ⟨e, w, recvs, hfeed, he, rfl, -⟩ := bodyUntilClose_ret h
  obtain rfl : e = .done := of_decide_eq_true he.symm
  have hrun : RunsToEnd conf r.toHeap.space (r.buf r.headerBuf).unread io.errno io.recvs
      (.exit .done w) := growBody_runsToEnd (holds_of_valid hk hbuf io.errno) hfeed
  obtain ⟨bs, ⟨hw, -⟩, -, -⟩ := hrun.limited
  cases hb
  exact hw.toHolds.in_place (Int.le_of_eq hw.len)

theorem bodyOfLength_inPlace {n : Nat} (hk : r.headerBuf < r.bufs.length)
    (hbuf : (r.buf r.headerBuf).Valid)
    (h : bodyOfLength .response n r io = .ret (true, r', io')) {b : BodyBuf}
    (hb : r'.bodyOut.content = some b) :
    b.pos + r'.bodyOut.contentLen.toNat ≤ (r'.buf b.block).mem.length := by
  obtain ⟨e, w, recvs, hfeed, he, rfl, -⟩ := bodyOfLength_ret h
  obtain rfl : e = .done := of_decide_eq_true he.symm
  obtain ⟨used, -, hend⟩ := ofLength_history (startOfLength_holds hk hbuf io.errno) io.recvs
  rw [show Feed.feed _ _ io.recvs = _ from hfeed] at hend
  obtain ⟨hw, hlen⟩ : Holds _ w ∧ _ := hend
  cases hb
  exact hw.in_place (Int.ofNat_le.mpr (hlen w rfl))

/-- Behind the body of a reply the response is ready. -/
theorem httpProcessContentBody_answered {n : Int} (hbody : r.bodyOut = {})
    (hk : r.headerBuf < r.bufs.length) (hbuf : (r.buf r.headerBuf).Valid)
    (h : httpProcessContentBody conf .response n r io = .ret (ok, r', io'))
    (hstatus : ok = true → Answerable r.status) : r'.Answered := by
  have hfd : ¬ 0 ≤ r'.bodyOut.contentFd := by
    rw [httpProcessContentBody_fd h, hbody]
    decide
  cases ok with
  | false =>
      have hnone := (httpProcessContentBody_failed (by rw [hbody]) h).1
      refine ⟨⟨fun h => absurd h hfd, fun b hb => by rw [hnone] at hb; cases hb⟩, ?_,
        fun h => absurd h hfd⟩
      rcases httpProcessContentBody_refused hbody hk hbuf h with ⟨hclose, -⟩ | ⟨hrefused, -⟩
      · exact .inl hclose
      · rcases hrefused with hst | hst <;> rw [hst]
        · exact answerable_badRequest
        · exact answerable_internalServerError
  | true =>
      have hnone : ∀ b, r.bodyOut.content ≠ some b := by
        rw [hbody]
        exact fun b hb => by cases hb
      suffices hplace : r'.status = r.status ∧ ∀ b, r'.bodyOut.content = some b →
          b.pos + r'.bodyOut.contentLen.toNat ≤ (r'.buf b.block).mem.length from
        ⟨⟨fun h => absurd h hfd, hplace.2⟩, hplace.1 ▸ hstatus rfl, fun h => absurd h hfd⟩
      simp only [httpProcessContentBody] at h
      split_ifs at h
      · cases h
        exact ⟨rfl, fun b hb => absurd hb (hnone b)⟩
      · obtain ⟨e, w, recvs, -, he, hr', -⟩ := bodyUntilClose_ret h
        obtain rfl : e = .done := of_decide_eq_true he.symm
        refine ⟨by rw [hr']; rfl, fun b hb => bodyUntilClose_inPlace ?_ ?_ h hb⟩
        · exact hk
        · exact hbuf
      · cases h
        exact ⟨rfl, fun b hb => absurd hb (hnone b)⟩
      · cases h
      · obtain ⟨e, w, recvs, -, he, hr', -⟩ := bodyOfLength_ret h
        obtain rfl : e = .done := of_decide_eq_true he.symm
        refine ⟨by rw [hr']; rfl, fun b hb => bodyOfLength_inPlace ?_ ?_ h hb⟩
        · exact hk
        · exact hbuf

end Readers

/-! ## The page -/

theorem mem_statuses_le {status : Int} (h : status ∈ statuses httpStatusInfos) : status ≤ 507 := by
  have hall : ∀ x ∈ statuses httpStatusInfos, x ≤ 507 := by decide
  exact hall status h

/-- A page that is put in has a block of its own. -/
theorem withPage_inPlace {r : HttpRequest} (page : List Byte) (hfd : ¬ 0 ≤ r.bodyOut.contentFd) :
    (withPage r page).BodyInPlace where
  file h := absurd h hfd
  content b hb := by
    cases hb
    show 0 + (page.length : Int).toNat ≤ (Heap.buf _ r.bufs.length).mem.length
    simp [Heap.buf, withPage]

/-- The end of a round finds a page for its status, or needs none. -/
theorem roundAnswer_answered {r : HttpRequest} (hr : r.Answered) :
    ∃ y, roundAnswer r = .ok y ∧
      ∀ r', y = some r' → r'.status ∈ statuses httpStatusInfos ∧ r'.BodyInPlace := by
  unfold roundAnswer
  by_cases hclose : r.status = HTTP_STATUS_CLOSE
  · rw [if_pos hclose]
    exact ⟨none, rfl, fun _ h => by cases h⟩
  have hstatus := hr.status.resolve_left hclose
  rw [if_neg hclose]
  by_cases hspecial : HTTP_STATUS_SPECIAL_RESPONSE ≤ r.status
  case neg =>
    rw [if_neg hspecial]
    refine ⟨some r, rfl, ?_⟩
    rintro r' ⟨⟩
    exact ⟨hstatus, hr.toBodyInPlace⟩
  rw [if_pos hspecial, connectionSpecialResponse]
  by_cases hlen : 0 < r.bodyOut.contentLen
  · rw [if_pos hlen]
    refine ⟨some r, rfl, ?_⟩
    rintro r' ⟨⟩
    exact ⟨hstatus, hr.toBodyInPlace⟩
  have hfd : ¬ 0 ≤ r.bodyOut.contentFd := fun h => by
    have := hr.plain h
    omega
  have hpage : httpErrorPage r.status none = .ok (errorPageOf r.status none) := httpErrorPage_eq.mpr
    (errorPage_correct (mem_statuses_le hstatus) none (Nat.le_of_eq (by rw [statuses_length])))
  rw [if_neg hlen, hpage]
  -- with the page or without one, `keep_alive` is all that may change besides
  have hkept : ∀ {q : HttpRequest}, q.status = r.status → q.BodyInPlace → ∀ r',
      (some (if HTTP_STATUS_BAD_REQUEST ≤ q.status then { q with keepAlive := false } else q)
        = some r') → r'.status ∈ statuses httpStatusInfos ∧ r'.BodyInPlace := by
    rintro q hq hplace r' ⟨⟩
    split
    · exact ⟨hq ▸ hstatus, hplace.file, hplace.content⟩
    · exact ⟨hq ▸ hstatus, hplace⟩
  cases htext : errorPageOf r.status none with
  | none => exact ⟨_, rfl, hkept rfl hr.toBodyInPlace⟩
  | some page => exact ⟨_, rfl, hkept rfl (withPage_inPlace page hfd)⟩

/-! ## What a run keeps -/

namespace Serving

/-- What there is of a response when a call of the round is made. -/
def Prepared (conf : Conf) (s : Round) : Prop :=
  match s.pc with
  | .replyLines => s.r.bodyOut = {} ∧ ∃ r₀ io₀, r₀.HeadReady .response ∧
      httpProcessStatusLine conf r₀ io₀ = .ret (true, s.r, s.backend)
  | .replyBody =>
    s.r.bodyOut = {} ∧ s.r.headerBuf < s.r.bufs.length ∧ (s.r.buf s.r.headerBuf).Valid
  | .answer => s.r.Answered
  | .left => True
  | _ => s.r.Unanswered

/-- The request that is answered has a status with a line, and a body to send. -/
def Inv (conf : Conf) : Serving → Prop
  | .round s => Prepared conf s
  | .responding s => s.r.status ∈ statuses httpStatusInfos ∧ s.r.BodyInPlace
  | .responded _ _ => True
  | .aborted _ => False

/-- A handler's status and the status of a reply that is read to its end are answerable; a
    response that is sent can be printed. -/
def Accords (conf : Conf) : Serving → ServingMove → Prop
  | .round _, .round (.handled status) => Answerable status
  | .round s, .round .next => s.pc = .replyBody →
    (match httpProcessContentBody conf .response s.r.headersOut.contentLen s.r s.backend with
      | .ret (ok, _) => ok
      | _ => false) = true → Answerable s.r.status
  | .responding s, .send _ => s.r.Printable
  | _, _ => True

instance (conf : Conf) (s : Serving) (m : ServingMove) : Decidable (s.Accords conf m) := by
  unfold Accords
  split <;> infer_instance

section Inv

variable {conf : Conf} {s s' : Round}

theorem prepared_dispatch (hr : s.r.Unanswered) (hpc : s.pc = dispatchPc s.r) :
    Prepared conf s := by
  unfold dispatchPc at hpc
  split at hpc
  · simp only [Prepared, hpc]
    exact hr.answered
  · simp only [Prepared, hpc]
    exact hr

/-- An exchange that fails in front of the body is answered with an error of the server's own. -/
theorem badGateway_answered {r : HttpRequest} (hbody : r.bodyOut = {}) :
    (badGateway r).Answered where
  file h := absurd (hbody ▸ h : (0 : Int) ≤ ({} : ContentBody).contentFd) (by decide)
  content b hb := by
    have hnone : r.bodyOut.content = some b := hb
    rw [hbody] at hnone
    cases hnone
  status := answerable_badGateway
  plain h := absurd (hbody ▸ h : (0 : Int) ≤ ({} : ContentBody).contentFd) (by decide)

theorem Prepared.next (hs : Prepared conf s) (hok : (Serving.round s).Accords conf (.round .next))
    (h : s.step conf .next = some s') : Prepared conf s' := by
  simp only [Round.step] at h
  split at h
  case h_1 hpc =>
    simp only [Prepared, hpc] at hs
    obtain ⟨ok, r, io, hcall, rfl⟩ := call_eq_some h
    have hr := httpProcessRequestLine_unanswered hs hcall
    cases ok with
    | false => exact prepared_dispatch hr rfl
    | true => exact hr
  case h_2 hpc =>
    simp only [Prepared, hpc] at hs
    obtain ⟨ok, r, io, hcall, rfl⟩ := call_eq_some h
    have hr := httpProcessHeaderLine_unanswered hs hcall
    cases ok with
    | false => exact prepared_dispatch hr rfl
    | true => exact hr
  case h_3 hpc =>
    simp only [Prepared, hpc] at hs
    obtain ⟨ok, r, io, hcall, rfl⟩ := call_eq_some h
    exact prepared_dispatch (httpProcessContentBody_unanswered hs hcall) rfl
  -- the reply is read into the response
  case h_4 hpc =>
    simp only [Prepared, hpc] at hs
    obtain ⟨ok, r, io, hcall, rfl⟩ := call_eq_some h
    have hbody : r.bodyOut = {} := by rw [(httpProcessStatusLine_keep hcall).2, hs.body]
    cases ok with
    | false => exact badGateway_answered hbody
    | true =>
        refine ⟨hbody, s.r, s.backend, ⟨?_, hs.headers⟩, hcall⟩
        by_contra hstate
        rw [httpProcessStatusLine, if_pos hstate] at hcall
        cases hcall
  case h_5 hpc =>
    simp only [Prepared, hpc] at hs
    obtain ⟨hbody, r₀, io₀, hready, hline⟩ := hs
    obtain ⟨ok, r, io, hcall, rfl⟩ := call_eq_some h
    have hbody' : r.bodyOut = {} := by rw [httpProcessHeaderLine_keep hcall, hbody]
    cases ok with
    | false => exact badGateway_answered hbody'
    | true =>
        obtain ⟨q, io₁, hloop, hdone⟩ := httpProcessHeaderLine_accepted hcall
        have hvalid := @httpHeaderLoop_valid conf .response _ _ _ _ _ _ hready hline hloop
        obtain ⟨-, -, n, -, rfl⟩ := headersDone_response hdone
        exact ⟨hbody', hvalid⟩
  case h_6 hpc =>
    simp only [Prepared, hpc] at hs
    obtain ⟨hbody, hk, hbuf⟩ := hs
    obtain ⟨ok, r, io, hcall, rfl⟩ := call_eq_some h
    refine httpProcessContentBody_answered hbody hk hbuf hcall fun he => hok hpc ?_
    rw [hcall]
    exact he
  case h_7 => cases h

theorem Prepared.step {m : RoundMove} (hs : Prepared conf s)
    (hok : (Serving.round s).Accords conf (.round m)) (hpc : s.pc ≠ .answer)
    (h : s.step conf m = some s') : Prepared conf s' := by
  cases m with
  | next => exact hs.next hok h
  | upstream backend =>
      simp only [Round.step] at h
      split_ifs at h with hproc
      cases h
      simp only [Prepared, hproc] at hs
      exact hs
  | handled status =>
      simp only [Round.step] at h
      split_ifs at h with hproc
      cases h
      simp only [Prepared, hproc] at hs
      have hr : ({ s.r with status := status } : HttpRequest).Unanswered :=
        ⟨hok, hs.headers, hs.body⟩
      exact hr.answered
  | again io =>
      simp only [Round.step] at h
      split_ifs at h with hanswer
      exact absurd hanswer hpc
  | leave =>
      simp only [Round.step] at h
      split_ifs at h
      cases h
      trivial

/-- The static files. -/
theorem moduleDefaultHandleRequest_answered {root : LocRoot} {fs : FileSystem}
    {r : HttpRequest} {x : HttpRequest × List FileCall} (hr : r.Unanswered)
    (h : moduleDefaultHandleRequest root fs r = .ok x) : x.1.Answered := by
  have hstatus : ∀ {n : Int}, Answerable n → ({ r with status := n } : HttpRequest).Answered :=
    fun hn => HttpRequest.Unanswered.answered ⟨hn, hr.headers, hr.body⟩
  unfold moduleDefaultHandleRequest at h
  split at h
  · cases h
    exact hstatus answerable_badRequest
  obtain ⟨path, -, h⟩ := Except.bind_eq_ok.mp h
  split at h
  · cases h
    exact hstatus (.inr (by decide))
  split at h
  · cases h
    exact hstatus (.inr (by decide))
  split at h
  · cases h
    exact hstatus (.inr (by decide))
  · cases h
    -- a file with its own status
    refine ⟨⟨fun _ => ?_, fun b hb => ?_⟩, answerable_ok,
      fun _ => (by decide : HTTP_STATUS_OK < HTTP_STATUS_SPECIAL_RESPONSE)⟩
    · show r.bodyOut.content = none
      rw [hr.body]
    · have hnone : r.bodyOut.content = some b := hb
      rw [hr.body] at hnone
      cases hnone

theorem prepared_start (conf : Conf) (io : Io) : Prepared conf (Round.start io) :=
  (⟨.inr (by decide), rfl, rfl⟩ : ({} : HttpRequest).Unanswered)

end Inv

theorem Inv.step {conf : Conf} {s t : Serving} {m : ServingMove} (hs : s.Inv conf)
    (hok : s.Accords conf m) (h : s.step conf m = some t) : t.Inv conf := by
  unfold Serving.step at h
  split at h
  case h_1 s m =>
    split_ifs at h with hpc
    obtain ⟨s', hst, rfl⟩ := Option.map_eq_some_iff.mp h
    exact Prepared.step hs hok hpc hst
  case h_2 s root fs =>
    split_ifs at h with hpc
    obtain ⟨x, hx, rfl⟩ := Option.map_eq_some_iff.mp h
    simp only [Inv, Prepared, hpc] at hs
    cases hcall : moduleDefaultHandleRequest root fs s.r with
    | error e =>
        rw [hcall] at hx
        cases hx
    | ok y =>
        rw [hcall] at hx
        cases hx
        exact moduleDefaultHandleRequest_answered hs hcall
  case h_3 =>
    split_ifs at h
    cases h
    trivial
  case h_4 s =>
    split_ifs at h with hpc
    simp only [Inv, Prepared, hpc] at hs
    obtain ⟨y, hy, hsome⟩ := roundAnswer_answered hs
    rw [hy] at h
    cases y with
    | none =>
        cases h
        trivial
    | some r =>
        cases h
        exact hsome r rfl
  case h_5 s file =>
    split at h
    · cases h
      trivial
    · cases h
    · next e hstop =>
      -- the call does not stop
      rw [if_pos (sendResponse_stop hs.1 hok hs.2 hstop)] at h
      cases h
  case h_6 ok s io =>
    split_ifs at h
    obtain ⟨s', hst, rfl⟩ := Option.map_eq_some_iff.mp h
    simp only [Round.step] at hst
    split_ifs at hst
    cases hst
    exact prepared_start conf io
  case h_7 ok s =>
    obtain ⟨s', hst, rfl⟩ := Option.map_eq_some_iff.mp h
    simp only [Round.step] at hst
    split_ifs at hst
    cases hst
    trivial
  case h_8 => cases h

/-- In a run whose handlers and replies have answerable statuses, and whose responses can be
    printed, no response is stopped: each status has a line, no NULL is printed, the length of
    each head is the one that was computed, and there is a body to send where one is sent. -/
theorem never_aborted {conf : Conf} {io : Io} {s : Serving}
    (h : Reaches (step conf) (Accords conf) (start io) s) : ∀ e, s ≠ .aborted e := by
  have hinv : s.Inv conf :=
    h.invariant (fun s m t hs hok hst => hs.step hok hst) (prepared_start conf io)
  rintro e rfl
  exact hinv

set_option maxRecDepth 4000 in
/-- A request that is read and answered with an error page. -/
theorem never_aborted_page :
    ∃ s, Reaches (step exampleConf) (Accords exampleConf)
        (start {
          recvs := [.data (bytes "GET / HTTP/1.1" ++ [LF, LF])]
          sends := [.sent 90, .sent 171] }) s ∧
      ∀ e, s ≠ .aborted e := by
  obtain ⟨s, hs⟩ := Option.isSome_iff_exists.mp (by decide +kernel :
    (execOf (step exampleConf) (Accords exampleConf)
      (start {
        recvs := [.data (bytes "GET / HTTP/1.1" ++ [LF, LF])]
        sends := [.sent 90, .sent 171] })
      [.round .next, .round .next, .round .next, .round (.handled HTTP_STATUS_NOT_FOUND),
        .special, .send {}, .round .leave]).isSome = true)
  have hrun := reaches_of_execOf hs
  exact ⟨s, hrun, never_aborted hrun⟩

set_option maxRecDepth 4000 in
/-- A request line that is rejected before its version is recorded. -/
theorem not_never_aborted :
    ¬ ∀ (conf : Conf) (io : Io) (s : Serving), Reaches (step conf) anyMove (start io) s →
      ∀ e, s ≠ .aborted e := by
  intro h
  have hrun : exec (step exampleConf) (start { recvs := [.data (bytes "GET /" ++ [LF])] })
      [.round .next, .special, .send {}] = some (.aborted .nullDeref) := by decide +kernel
  exact h exampleConf _ _ (reaches_of_exec hrun) .nullDeref rfl

end Serving

end XwpServer
