/-
  XwpServer.Dispatch

  The rounds of `connection_run`: a request is read by three functions, then handled,
  perhaps by a backend whose reply is read by three functions again, and answered.

  Each of the functions asserts the state the request is in, and `connection_run` looks
  only at the status to see whether the request has been read.  A reader that fails sets
  a status of 300 or more, with one exception: when the `100 Continue` line cannot be
  written, `http_process_header_line` returns 0 and leaves the status alone.  Where that
  write does not fail, only complete requests are handled and every assertion on the
  state holds (`rounds_respected`).
-/

import XwpServer.Accepted
import XwpServer.Lib.Transition

namespace XwpServer

open CString Transition

/-! ## Rounds -/

/-- The call a round makes next. -/
inductive RoundPc where
  | requestLine | headerLine | contentBody
  | process
  | statusLine | replyLines | replyBody
  | answer
  | left
  deriving DecidableEq, Repr

/-- `connection_run` in a round, with what its readers have returned for the request. -/
structure Round where
  pc : RoundPc := .requestLine
  r : HttpRequest := {}
  /-- The client's socket. -/
  io : Io
  /-- The backend's socket. -/
  backend : Io := {}
  lineOk : Bool := false
  headOk : Bool := false
  bodyOk : Bool := false
  deriving DecidableEq, Repr

inductive RoundMove where
  /-- The next call, with the outcomes the sockets have for it. -/
  | next
  /-- The handler has connected to a backend. -/
  | upstream (backend : Io)
  /-- Another handler has returned, or the request could not be sent to the backend.  What
      is left in the request is not read by a reader, so only its status is kept. -/
  | handled (status : Int)
  /-- The response has been sent, and the connection is kept. -/
  | again (io : Io)
  | leave

/-- Where `connection_run` goes behind `connection_gen_request`. -/
def dispatchPc (r : HttpRequest) : RoundPc :=
  if HTTP_STATUS_SPECIAL_RESPONSE ≤ r.status then .answer else .process

namespace Round

/-- What `upstream_uwsgi_process` makes of a reply whose head was not read. -/
def badGateway (r : HttpRequest) : HttpRequest := { r with status := HTTP_STATUS_BAD_GATEWAY }

/-- A call of a reader. -/
def call (x : Outcome (Bool × HttpRequest × Io)) (f : Bool → HttpRequest → Io → Round) :
    Option Round :=
  match x with
  | .ret (ok, r, io) => some (f ok r io)
  | _ => none

/-- A move of `connection_run`; a call that waits or stops has no next state. -/
def step (conf : Conf) (s : Round) : RoundMove → Option Round
  | .next =>
    match s.pc with
    | .requestLine =>
      call (httpProcessRequestLine conf s.r s.io) fun ok r io =>
        { s with r := r, io := io, lineOk := ok, pc := if ok then .headerLine else dispatchPc r }
    | .headerLine =>
      call (httpProcessHeaderLine conf .request s.r s.io) fun ok r io =>
        { s with r := r, io := io, headOk := ok, pc := if ok then .contentBody else dispatchPc r }
    | .contentBody =>
      call (httpProcessContentBody conf .request s.r.headersIn.contentLen s.r s.io)
        fun ok r io => { s with r := r, io := io, bodyOk := ok, pc := dispatchPc r }
    | .statusLine =>
      call (httpProcessStatusLine conf s.r s.backend) fun ok r io =>
        if ok then { s with r := r, backend := io, pc := .replyLines }
        else { s with r := badGateway r, backend := io, pc := .answer }
    | .replyLines =>
      call (httpProcessHeaderLine conf .response s.r s.backend) fun ok r io =>
        if ok then { s with r := r, backend := io, pc := .replyBody }
        else { s with r := badGateway r, backend := io, pc := .answer }
    | .replyBody =>
      call (httpProcessContentBody conf .response s.r.headersOut.contentLen s.r s.backend)
        fun _ r io => { s with r := r, backend := io, pc := .answer }
    | _ => none
  | .upstream backend =>
    if s.pc = .process then some { s with backend := backend, pc := .statusLine } else none
  | .handled status =>
    if s.pc = .process then some { s with r := { s.r with status := status }, pc := .answer }
    else none
  | .again io => if s.pc = .answer then some { io := io } else none
  | .leave => if s.pc = .answer ∨ s.pc = .process then some { s with pc := .left } else none

/-- The connection with its first request. -/
def start (io : Io) : Round := { io := io }

/-- The assertion on the state, in the call that is made next. -/
def Asserts (s : Round) : Prop :=
  match s.pc with
  | .requestLine => s.r.state = .none
  | .headerLine => s.r.headerLineReady .request = true
  | .contentBody => s.r.state = .headerLine
  | .statusLine => s.r.state = .contentBody
  | .replyLines => s.r.headerLineReady .response = true
  | .replyBody => s.r.state = .headerLine
  | _ => True

/-- A request that is handled has been read by all three functions, and the next call does
    not fail its assertion on the state. -/
structure Respected (s : Round) : Prop where
  complete : s.pc = .process → s.lineOk = true ∧ s.headOk = true ∧ s.bodyOk = true
  asserts : s.Asserts

/-- The client of the request asks for `100 Continue`, and the write of it fails. -/
def continueLost (r : HttpRequest) (io : Io) : Bool :=
  match httpHeaderStr r.toHeap r.headersIn.headers HTTP_HEADER_EXPECT with
  | none => false
  | some expect =>
    match r.toHeap.cstr expect.data with
    | none => false
    | some value =>
      strcasecmpEq value (bytes "100-continue") &&
        match nwrite r.toHeap io continueLine with
        | .ret (false, _) => true
        | _ => false

/-- The header lines of the request have been read, and the write behind them fails. -/
def ContinueFails (conf : Conf) (s : Round) : Prop :=
  s.pc = .headerLine ∧
    (match httpHeaderLoop conf .request s.r s.io with
      | .ret (true, r, io) => r.fillHeadersIn.any (continueLost · io)
      | _ => false) = true

instance (conf : Conf) (s : Round) : Decidable (s.ContinueFails conf) :=
  inferInstanceAs (Decidable (_ ∧ _ = true))

end Round

/-! ## What the readers leave in the request -/

theorem LoopExit.status_special {e : LoopExit} (h : e ≠ .done) (status : Int) :
    HTTP_STATUS_SPECIAL_RESPONSE ≤ e.status status := by
  cases e with
  | done => exact absurd rfl h
  | badRequest => exact (by decide : HTTP_STATUS_SPECIAL_RESPONSE ≤ HTTP_STATUS_BAD_REQUEST)
  | closed => exact (by decide : HTTP_STATUS_SPECIAL_RESPONSE ≤ HTTP_STATUS_CLOSE)
  | noLargeBuf =>
      exact (by decide : HTTP_STATUS_SPECIAL_RESPONSE ≤ HTTP_STATUS_INTERNAL_SERVER_ERROR)

theorem BodyExit.status_special {e : BodyExit} (h : e ≠ .done) (status : Int) :
    HTTP_STATUS_SPECIAL_RESPONSE ≤ e.status status := by
  cases e with
  | done => exact absurd rfl h
  | badRequest => exact (by decide : HTTP_STATUS_SPECIAL_RESPONSE ≤ HTTP_STATUS_BAD_REQUEST)
  | closed => exact (by decide : HTTP_STATUS_SPECIAL_RESPONSE ≤ HTTP_STATUS_CLOSE)
  | noMemory =>
      exact (by decide : HTTP_STATUS_SPECIAL_RESPONSE ≤ HTTP_STATUS_INTERNAL_SERVER_ERROR)

/-- A receive loop inside a request keeps its state, and sets a status if it fails. -/
theorem processLines_left {σ : Type} {conf : Conf} {parse : Nat → Parse σ}
    {get : HttpRequest → σ} {put : HttpRequest → σ → HttpRequest} {r r' : HttpRequest}
    {io io' : Io} {ok : Bool} (hput : ∀ r x, (put r x).state = r.state)
    (h : processLines conf parse get put r io = .ret (ok, r', io')) :
    r'.state = r.state ∧ (ok = false → HTTP_STATUS_SPECIAL_RESPONSE ≤ r'.status) := by
  simp only [processLines] at h
  generalize recvLoop conf (parse r.headerBuf) r.headerBuf ⟨get r, r.toHeap, io.errno⟩ io.recvs
    = y at h
  obtain ⟨w | e, rest⟩ := y
  · cases h
  cases e with
  | stop s => cases h
  | exit e x heap errno =>
      simp only [finishLines, Outcome.ret.injEq, Prod.mk.injEq] at h
      obtain ⟨rfl, rfl, -⟩ := h
      refine ⟨hput r x, fun hok => LoopExit.status_special ?_ _⟩
      exact of_decide_eq_false hok

theorem httpProcessRequestLine_left {conf : Conf} {r r' : HttpRequest} {io io' : Io} {ok : Bool}
    (h : httpProcessRequestLine conf r io = .ret (ok, r', io')) :
    r'.state = .requestLine ∧ (ok = false → HTTP_STATUS_SPECIAL_RESPONSE ≤ r'.status) := by
  unfold httpProcessRequestLine at h
  split at h
  · cases h
  have hput : ∀ (q : HttpRequest) l, ({ q with toRequestLine := l } : HttpRequest).state = q.state :=
    fun _ _ => rfl
  exact processLines_left hput h

theorem httpProcessStatusLine_left {conf : Conf} {r r' : HttpRequest} {io io' : Io} {ok : Bool}
    (h : httpProcessStatusLine conf r io = .ret (ok, r', io')) : r'.state = .statusLine := by
  unfold httpProcessStatusLine at h
  split at h
  · cases h
  have hput : ∀ (q : HttpRequest) n, ({ q with status := n } : HttpRequest).state = q.state :=
    fun _ _ => rfl
  exact (processLines_left hput h).1

theorem httpHeaderLoop_left {conf : Conf} {phase : Phase} {r r' : HttpRequest} {io io' : Io}
    {ok : Bool} (h : httpHeaderLoop conf phase r io = .ret (ok, r', io')) :
    r'.state = .headerLine ∧ (ok = false → HTTP_STATUS_SPECIAL_RESPONSE ≤ r'.status) := by
  unfold httpHeaderLoop at h
  split at h
  · cases h
  exact processLines_left (fun _ _ => by cases phase <;> rfl) h

/-- The status is not set only where the `100 Continue` line is not written. -/
theorem answerExpect_lost {r r' : HttpRequest} {io io' : Io}
    (h : answerExpect r io = .ret (false, r', io')) : Round.continueLost r io = true := by
  unfold answerExpect at h
  split at h
  · cases h
  next expect hexpect =>
  split at h
  · cases h
  next value hvalue =>
  split at h
  case isFalse => cases h
  next hcontinue =>
  obtain ⟨⟨ok, io₂⟩, hwrite, h⟩ := Outcome.bind_eq_ret.mp h
  cases h
  simp only [Round.continueLost, hexpect, hvalue, hcontinue, hwrite, Bool.and_self]

theorem fillHeadersIn_state {r r' : HttpRequest} (h : r.fillHeadersIn = some r') :
    r'.state = r.state := by
  obtain ⟨n, -, rfl⟩ := HttpRequest.fillHeadersIn_eq_some h
  rfl

/-- What fails behind the loop is the write of `100 Continue`. -/
theorem Round.continueFails_of_loop {conf : Conf} {s : Round} {q r' : HttpRequest}
    {ioLoop io' : Io} (hpc : s.pc = .headerLine)
    (hloop : httpHeaderLoop conf .request s.r s.io = .ret (true, q, ioLoop))
    (hdone : headersDone .request q ioLoop = .ret (false, r', io')) : s.ContinueFails conf := by
  obtain ⟨hfill, hexpect⟩ := headersDone_request hdone
  exact ⟨hpc, by simp only [hloop, hfill, Option.any_some, answerExpect_lost hexpect]⟩

/-- `http_process_header_line` for a request. -/
theorem httpProcessHeaderLine_left {conf : Conf} {s : Round} {r' : HttpRequest} {io' : Io}
    {ok : Bool} (hpc : s.pc = .headerLine) (hwrite : ¬ s.ContinueFails conf)
    (h : httpProcessHeaderLine conf .request s.r s.io = .ret (ok, r', io')) :
    r'.state = .headerLine ∧ (ok = false → HTTP_STATUS_SPECIAL_RESPONSE ≤ r'.status) := by
  obtain ⟨⟨okLoop, q, ioLoop⟩, hloop, hdone⟩ := Outcome.bind_eq_ret.mp h
  have hleft := httpHeaderLoop_left hloop
  cases okLoop with
  | false =>
      cases hdone
      exact hleft
  | true =>
      obtain ⟨hfill, -⟩ := headersDone_request hdone
      refine ⟨by rw [fillHeadersIn_state hfill, hleft.1], fun hok => ?_⟩
      -- The only failure behind the loop is the one that sets no status.
      subst hok
      exact absurd (Round.continueFails_of_loop hpc hloop hdone) hwrite

/-- `http_process_header_line` for a reply. -/
theorem httpProcessHeaderLine_response_left {conf : Conf} {r r' : HttpRequest} {io io' : Io}
    {ok : Bool} (h : httpProcessHeaderLine conf .response r io = .ret (ok, r', io')) :
    r'.state = .headerLine := by
  obtain ⟨⟨okLoop, q, ioLoop⟩, hloop, hdone⟩ := Outcome.bind_eq_ret.mp h
  have hleft := httpHeaderLoop_left hloop
  cases okLoop with
  | false =>
      cases hdone
      exact hleft.1
  | true =>
      obtain ⟨-, -, n, -, rfl⟩ := headersDone_response hdone
      exact hleft.1

theorem httpProcessContentBody_left {conf : Conf} {phase : Phase} {n : Int}
    {r r' : HttpRequest} {io io' : Io} {ok : Bool}
    (h : httpProcessContentBody conf phase n r io = .ret (ok, r', io')) :
    r'.state = .contentBody ∧ (ok = false → HTTP_STATUS_SPECIAL_RESPONSE ≤ r'.status) := by
  have hset : ∀ (q : HttpRequest) (b : ContentBody), (q.setBody phase b).state = q.state := by
    intro q b
    cases phase <;> rfl
  simp only [httpProcessContentBody] at h
  split_ifs at h
  · cases h
    exact ⟨rfl, fun hok => by cases hok⟩
  · obtain ⟨e, w, recvs, -, rfl, rfl, -⟩ := bodyUntilClose_ret h
    exact ⟨hset _ _, fun hok => BodyExit.status_special (of_decide_eq_false hok) _⟩
  · cases h
    exact ⟨rfl, fun hok => by cases hok⟩
  · cases h
    exact ⟨rfl, fun _ => (by decide : HTTP_STATUS_SPECIAL_RESPONSE ≤ HTTP_STATUS_BAD_REQUEST)⟩
  · obtain ⟨e, w, recvs, -, rfl, rfl, -⟩ := bodyOfLength_ret h
    exact ⟨hset _ _, fun hok => BodyExit.status_special (of_decide_eq_false hok) _⟩

/-! ## The invariant of a round -/

namespace Round

/-- What has been read when a call is made, and the state the request is in. -/
def Inv (s : Round) : Prop :=
  match s.pc with
  | .requestLine => s.r.state = .none
  | .headerLine => s.lineOk = true ∧ s.r.state = .requestLine
  | .contentBody => s.lineOk = true ∧ s.headOk = true ∧ s.r.state = .headerLine
  | .process =>
    s.lineOk = true ∧ s.headOk = true ∧ s.bodyOk = true ∧ s.r.state = .contentBody
  | .statusLine => s.r.state = .contentBody
  | .replyLines => s.r.state = .statusLine
  | .replyBody => s.r.state = .headerLine
  | .answer | .left => True

theorem Inv.respected {s : Round} (h : s.Inv) : s.Respected := by
  constructor
  · intro hpc
    simp only [Inv, hpc] at h
    exact ⟨h.1, h.2.1, h.2.2.1⟩
  · unfold Asserts
    unfold Inv at h
    split at h <;> simp_all [HttpRequest.headerLineReady]

theorem dispatchPc_special {r : HttpRequest} (h : HTTP_STATUS_SPECIAL_RESPONSE ≤ r.status) :
    dispatchPc r = .answer := if_pos h

theorem call_eq_some {x : Outcome (Bool × HttpRequest × Io)} {f : Bool → HttpRequest → Io → Round}
    {s : Round} (h : call x f = some s) : ∃ ok r io, x = .ret (ok, r, io) ∧ s = f ok r io := by
  unfold call at h
  split at h
  · next ok r io =>
    cases h
    exact ⟨ok, r, io, rfl, rfl⟩
  · cases h

theorem inv_start (io : Io) : (start io).Inv := show ({} : HttpRequest).state = .none from rfl

/-- The next call keeps the invariant, unless it fails to write `100 Continue`. -/
theorem step_next_inv {conf : Conf} {s s' : Round} (hs : s.Inv) (hwrite : ¬ s.ContinueFails conf)
    (h : step conf s .next = some s') : s'.Inv := by
  -- one case for each call; one that fails leaves a status that is not dispatched
  simp only [step] at h
  split at h
  case h_1 hpc =>
    obtain ⟨ok, r, io, hcall, rfl⟩ := call_eq_some h
    obtain ⟨hstate, hstatus⟩ := httpProcessRequestLine_left hcall
    cases ok with
    | false => simp [Inv, dispatchPc_special (hstatus rfl)]
    | true => simp [Inv, hstate]
  case h_2 hpc =>
    simp only [Inv, hpc] at hs
    obtain ⟨ok, r, io, hcall, rfl⟩ := call_eq_some h
    obtain ⟨hstate, hstatus⟩ := httpProcessHeaderLine_left hpc hwrite hcall
    cases ok with
    | false => simp [Inv, dispatchPc_special (hstatus rfl)]
    | true => simp [Inv, hstate, hs.1]
  case h_3 hpc =>
    simp only [Inv, hpc] at hs
    obtain ⟨ok, r, io, hcall, rfl⟩ := call_eq_some h
    obtain ⟨hstate, hstatus⟩ := httpProcessContentBody_left hcall
    cases ok with
    | false => simp [Inv, dispatchPc_special (hstatus rfl)]
    | true =>
        by_cases hspecial : HTTP_STATUS_SPECIAL_RESPONSE ≤ r.status
        · simp [Inv, dispatchPc_special hspecial]
        · simp [Inv, dispatchPc, hspecial, hs.1, hs.2.1, hstate]
  case h_4 hpc =>
    obtain ⟨ok, r, io, hcall, rfl⟩ := call_eq_some h
    cases ok with
    | false => simp [Inv]
    | true => simp [Inv, httpProcessStatusLine_left hcall]
  case h_5 hpc =>
    obtain ⟨ok, r, io, hcall, rfl⟩ := call_eq_some h
    cases ok with
    | false => simp [Inv]
    | true => simp [Inv, httpProcessHeaderLine_response_left hcall]
  case h_6 hpc =>
    obtain ⟨ok, r, io, -, rfl⟩ := call_eq_some h
    simp [Inv]
  case h_7 => cases h

/-- Every move keeps the invariant, unless it fails to write `100 Continue`. -/
theorem step_inv {conf : Conf} {s s' : Round} {m : RoundMove} (hs : s.Inv)
    (hwrite : ¬ s.ContinueFails conf) (h : step conf s m = some s') : s'.Inv := by
  cases m with
  | next => exact step_next_inv hs hwrite h
  | upstream backend =>
      simp only [step] at h
      split_ifs at h with hpc
      cases h
      simp only [Inv, hpc] at hs
      exact hs.2.2.2
  | handled status =>
      simp only [step] at h
      split_ifs at h
      cases h
      trivial
  | again io =>
      simp only [step] at h
      split_ifs at h
      cases h
      exact inv_start io
  | leave =>
      simp only [step] at h
      split_ifs at h
      cases h
      trivial

/-- In a run in which every `100 Continue` can be written, only complete requests are
    handled, and no reader fails its assertion on the state. -/
theorem rounds_respected {conf : Conf} {io : Io} {s : Round}
    (h : Reaches (step conf) (fun s _ => ¬ s.ContinueFails conf) (start io) s) : s.Respected := by
  have hinv : s.Inv := h.invariant (fun s m s' hs hwrite hst => step_inv hs hwrite hst) (inv_start io)
  exact hinv.respected

set_option maxRecDepth 4000 in
/-- A request that is read, handed to a backend and answered with its reply. -/
theorem rounds_respected_reply :
    ∃ s, Reaches (step exampleConf) (fun s _ => ¬ s.ContinueFails exampleConf)
        (start { recvs := [.data (bytes "GET / HTTP/1.0" ++ [LF, LF])] }) s ∧
      s.Respected := by
  obtain ⟨s, hs⟩ := Option.isSome_iff_exists.mp (by decide :
    (execOf (step exampleConf) (fun s _ => ¬ s.ContinueFails exampleConf)
      (start { recvs := [.data (bytes "GET / HTTP/1.0" ++ [LF, LF])] })
      [.next, .next, .next,
        .upstream { recvs := [.data (bytes "HTTP/1.0 200 OK" ++ [LF, LF]), .data []] },
        .next, .next, .next]).isSome = true)
  have hrun := reaches_of_execOf hs
  exact ⟨s, hrun, rounds_respected hrun⟩

/-- A client that asks for `100 Continue` and cannot be written to. -/
def silentIo : Io :=
  { recvs := [.data (bytes "PUT / HTTP/1.1" ++ [LF] ++ bytes "Expect: 100-continue" ++ [LF, LF])]
    sends := [.error .other] }

set_option maxRecDepth 4000 in
/-- Its request is handled although `http_process_header_line` has returned 0, and
    `http_process_status_line` fails its assertion. -/
theorem rounds_not_respected :
    ∃ s t, Reaches (step exampleConf) anyMove (start silentIo) s ∧
      s.pc = .process ∧ s.headOk = false ∧
      Reaches (step exampleConf) anyMove s t ∧ t.pc = .statusLine ∧ ¬ t.Asserts := by
  obtain ⟨s, hs, hs'⟩ := Option.map_eq_some_iff.mp (by decide :
    (exec (step exampleConf) (start silentIo) [.next, .next]).map
      (fun s => (s.pc, s.headOk, s.r.state)) = some (.process, false, .headerLine))
  simp only [Prod.mk.injEq] at hs'
  obtain ⟨hpc, hhead, hstate⟩ := hs'
  have hup : step exampleConf s (.upstream {}) = some { s with backend := {}, pc := .statusLine } :=
    if_pos hpc
  refine ⟨s, _, reaches_of_exec hs, hpc, hhead,
    Reaches.tail Relation.ReflTransGen.refl trivial hup, rfl, ?_⟩
  rw [Asserts, hstate]
  nofun

end Round

end XwpServer
