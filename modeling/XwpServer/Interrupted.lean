/-
  XwpServer.Interrupted

  Receive loops whose peer is gone.

  `while((count=recv(..))<=0 && errno==EINTR)` looks at an `errno` that a `recv` which
  returns 0 has not set.  Once a call has been interrupted, an orderly close is taken for
  another interruption, and the loop never ends (`RecvCall.endsAfter_iff`).
-/

import XwpServer.Body

namespace XwpServer

open Feed

/-! ## The retries -/

section RetryLoop

variable {σ ρ α : Type} {on : σ → RecvEvent → σ ⊕ ρ} {errno : σ → Errno} {closed : σ → ρ}

/-- What the loops of `http_request.c` do with the outcome of a `recv`: a call that was
    interrupted is made again, and `errno` is kept by a call that does not fail. -/
structure RetryLoop (on : σ → RecvEvent → σ ⊕ ρ) (errno : σ → Errno) (closed : σ → ρ) : Prop where
  interrupted : ∀ s, ∃ t, on s (.error .eintr) = .inl t ∧ errno t = .eintr
  failed : ∀ s e, e ≠ .eintr → ∃ r, on s (.error e) = .inr r
  spins : ∀ s, errno s = .eintr → on s (.data []) = .inl s
  closes : ∀ s, errno s ≠ .eintr → on s (.data []) = .inr (closed s)
  received : ∀ s bs t, bs ≠ [] → on s (.data bs) = .inl t → errno t = errno s

variable (L : RetryLoop on errno closed)
include L

/-- While the loop waits, `errno` tells of every interruption there has been. -/
theorem RetryLoop.errno_eq {e₀ : Errno} {s : σ ⊕ ρ} (hs : ∀ t, s = .inl t → errno t = e₀)
    {es rest : List RecvEvent} {t : σ} (h : feed on s es = (.inl t, rest)) :
    errno t = .eintr ↔ e₀ = .eintr ∨ .error .eintr ∈ es := by
  let P (us : List RecvEvent) (t : σ) : Prop := errno t = .eintr ↔ e₀ = .eintr ∨ .error .eintr ∈ us
  have hstep : ∀ us t e, P us t → Sum.elim (P (us ++ [e])) (fun _ => True) (on t e) := by
    intro us t e ht
    cases hon : on t e with
    | inr r => trivial
    | inl t' =>
        show errno t' = .eintr ↔ e₀ = .eintr ∨ .error .eintr ∈ us ++ [e]
        cases e with
        | error c =>
            by_cases hc : c = .eintr
            · subst hc
              obtain ⟨u, hu, hu'⟩ := L.interrupted t
              rw [hon] at hu
              cases hu
              simp [hu']
            · obtain ⟨r, hr⟩ := L.failed t c hc
              rw [hon] at hr
              cases hr
        | data bs =>
            -- the calls that do not fail keep `errno`
            have hkeep : errno t' = errno t := by
              by_cases hbs : bs = []
              · subst hbs
                by_cases he : errno t = .eintr
                · rw [L.spins t he] at hon
                  cases hon
                  rfl
                · rw [L.closes t he] at hon
                  cases hon
              · exact L.received t bs t' hbs hon
            rw [hkeep, List.mem_append]
            simpa [P] using ht
  have hs' : Sum.elim (P []) (fun _ => True) s := by
    cases s with
    | inr r => trivial
    | inl t₀ => simp [P, hs t₀ rfl]
  obtain ⟨used, hused, hend⟩ :=
    feed_history on (Q := fun _ _ => True) hstep [] hs' es
  rw [h] at hused hend
  obtain rfl : rest = [] := feed_rest on h
  rw [List.append_nil] at hused
  rw [hused]
  exact hend

/-- A loop that has been interrupted never ends on a peer that is gone. -/
theorem RetryLoop.feed_spins {s : σ ⊕ ρ} {es rest : List RecvEvent} {t : σ}
    (h : feed on s es = (.inl t, rest)) (ht : errno t = .eintr) (n : Nat) :
    feed on s (es ++ List.replicate n (.data [])) = (.inl t, []) := by
  rw [feed_append, h]
  exact feed_stuck on (L.spins t ht) n

/-- One that has not is left with the first close. -/
theorem RetryLoop.feed_closes {s : σ ⊕ ρ} {es rest : List RecvEvent} {t : σ}
    (h : feed on s es = (.inl t, rest)) (ht : errno t ≠ .eintr) :
    feed on s (es ++ List.replicate 1 (.data [])) = (.inr (closed t), []) := by
  rw [feed_append, h]
  show feed on (on t (.data [])) [] = _
  rw [L.closes t ht, feed_nil]

end RetryLoop

theorem makeRoom_errno {σ : Type} {conf : Conf} {k : Nat} {w w' : Waiting σ}
    (h : makeRoom conf k w = .inl w') : w'.errno = w.errno := by
  unfold makeRoom at h
  split at h
  · split at h
    · cases h
    · cases h
      rfl
  · cases h
    rfl

theorem settle_errno {σ : Type} {conf : Conf} {parse : Parse σ} {k : Nat} {w w' : Waiting σ}
    (h : settle conf parse k w = .inl w') : w'.errno = w.errno := by
  unfold settle at h
  split at h
  case h_4 =>
    have hkeep := makeRoom_errno h
    exact hkeep
  all_goals cases h

theorem onRecv_retry {σ : Type} (conf : Conf) (parse : Parse σ) (k : Nat) :
    RetryLoop (onRecv conf parse k) (·.errno) (fun w => .exit .closed w.x w.heap w.errno) where
  interrupted w := ⟨{ w with errno := .eintr }, by simp [onRecv], rfl⟩
  failed w e he := ⟨_, by simp only [onRecv, he, if_false]; rfl⟩
  spins w hw := by simp [onRecv, hw]
  closes w hw := by simp [onRecv, hw]
  received w bs w' hbs h := by
    simp only [onRecv, hbs, if_false] at h
    split at h
    · cases h
    · have hkeep := settle_errno h
      exact hkeep

theorem growBody_errno {conf : Conf} {w w' : Receiving} (h : growBody conf w = .inl w') :
    w'.errno = w.errno := by
  unfold growBody at h
  split at h
  · dsimp only at h
    split at h
    · cases h
    split at h
    · cases h
    split at h
    · cases h
    · cases h
    · cases h
      rfl
  · cases h
    rfl

theorem startOfLength_errno {n : Nat} {h : Heap} {errno : Errno} {w : Receiving}
    (hw : startOfLength n h errno = .inl w) : w.errno = errno := by
  unfold startOfLength at hw
  split at hw
  · cases hw
  · cases hw
  · unfold checkBody at hw
    split at hw
    · cases hw
    · cases hw
      rfl

theorem onBodyUntilClose_retry (conf : Conf) :
    RetryLoop (onBodyUntilClose conf) (·.errno) (.exit .done) where
  interrupted w := ⟨{ w with errno := .eintr }, by simp [onBodyUntilClose], rfl⟩
  failed w e he := ⟨_, by simp only [onBodyUntilClose, he, if_false]; rfl⟩
  spins w hw := by simp [onBodyUntilClose, hw]
  closes w hw := by simp [onBodyUntilClose, hw]
  received w bs w' hbs h := by
    simp only [onBodyUntilClose, hbs, if_false] at h
    split at h
    · cases h
    · have hkeep := growBody_errno h
      exact hkeep

theorem onBodyOfLength_retry (contentLen : Int) :
    RetryLoop (onBodyOfLength contentLen) (·.errno) (.exit .closed) where
  interrupted w := ⟨{ w with errno := .eintr }, by simp [onBodyOfLength], rfl⟩
  failed w e he := ⟨_, by simp only [onBodyOfLength, he, if_false]; rfl⟩
  spins w hw := by simp [onBodyOfLength, hw]
  closes w hw := by simp [onBodyOfLength, hw]
  received w bs w' hbs h := by
    simp only [onBodyOfLength, hbs, if_false] at h
    split at h
    · cases h
    · unfold checkBody at h
      split at h
      · cases h
      · split at h
        · cases h
        · cases h
          rfl

/-! ## Calls on a peer that is gone -/

/-- Blocked, or spinning, in a system call. -/
def Outcome.Waits {α : Type} (x : Outcome α) : Prop := ∃ h, x = .wait h

/-- After the outcomes `es` every `recv` returns 0, and the call returns; or it has been
    stopped before. -/
def EndsAfter {α : Type} (run : List RecvEvent → Outcome α) (es : List RecvEvent) : Prop :=
  ∃ n, match run (es ++ List.replicate n (.data [])) with
    | .ret _ => True
    | .wait _ => False
    | .stop s => run es = .stop s

section Finish

variable {σ ρ α : Type} {on : σ → RecvEvent → σ ⊕ ρ} {errno : σ → Errno} {closed : σ → ρ}
  {run : List RecvEvent → Outcome α} {finish : σ ⊕ ρ → List RecvEvent → Outcome α}

/-- What a call makes of the end of its loop. -/
structure Finishes (closed : σ → ρ) (finish : σ ⊕ ρ → List RecvEvent → Outcome α) : Prop where
  waits : ∀ t rest, (finish (.inl t) rest).Waits
  ends : ∀ r rest, ¬ (finish (.inr r) rest).Waits
  stops : ∀ r rest rest' x, finish (.inr r) rest = .stop x → finish (.inr r) rest' = .stop x
  returns : ∀ t rest, ∃ a, finish (.inr (closed t)) rest = .ret a

theorem endsAfter_of_ended {es : List RecvEvent} (h : ¬ (run es).Waits) : EndsAfter run es := by
  refine ⟨0, ?_⟩
  rw [List.replicate_zero, List.append_nil]
  cases hr : run es with
  | ret a => trivial
  | wait h' => exact h ⟨h', hr⟩
  | stop s => rfl

theorem endsAfter_loop_iff (L : RetryLoop on errno closed) (F : Finishes closed finish)
    {e₀ : Errno} {s : σ ⊕ ρ} (hs : ∀ t, s = .inl t → errno t = e₀)
    (hrun : ∀ es, run es = finish (feed on s es).1 (feed on s es).2) (es : List RecvEvent) :
    EndsAfter run es ↔ ¬ (run es).Waits ∨ (e₀ ≠ .eintr ∧ .error .eintr ∉ es) := by
  rcases hfeed : feed on s es with ⟨_ | r, rest⟩
  case inr =>
    -- the loop has been left before the peer was gone
    have hended : ¬ (run es).Waits := by
      rw [hrun, hfeed]
      exact F.ends r rest
    exact ⟨fun _ => .inl hended, fun _ => endsAfter_of_ended hended⟩
  next t =>
  have hwaits : (run es).Waits := by
    rw [hrun, hfeed]
    exact F.waits t rest
  have herrno := L.errno_eq hs hfeed
  have hquiet : (e₀ ≠ .eintr ∧ .error .eintr ∉ es) ↔ errno t ≠ .eintr :=
    ((not_congr herrno).trans not_or).symm
  rw [hquiet]
  constructor
  · rintro ⟨n, hn⟩
    refine .inr fun ht => ?_
    obtain ⟨h, hwait⟩ := F.waits t []
    rw [hrun, L.feed_spins hfeed ht, hwait] at hn
    exact hn
  · rintro (h | ht)
    · exact absurd hwaits h
    · obtain ⟨a, ha⟩ := F.returns t []
      refine ⟨1, ?_⟩
      rw [hrun, L.feed_closes hfeed ht, ha]
      trivial

end Finish

/-! ## The functions -/

/-- The calls that receive.  What `http_process_header_line` does behind its loop makes no
    `recv`. -/
inductive RecvCall where
  | requestLine
  | statusLine
  | headerLine (phase : Phase)
  | contentBody (phase : Phase) (contentLen : Int)

def RecvCall.run (conf : Conf) (r : HttpRequest) (io : Io) :
    RecvCall → Outcome (Bool × HttpRequest × Io)
  | .requestLine => httpProcessRequestLine conf r io
  | .statusLine => httpProcessStatusLine conf r io
  | .headerLine phase => httpHeaderLoop conf phase r io
  | .contentBody phase contentLen => httpProcessContentBody conf phase contentLen r io

/-- The call on the outcomes `es`. -/
def RecvCall.runOn (c : RecvCall) (conf : Conf) (r : HttpRequest) (io : Io)
    (es : List RecvEvent) : Outcome (Bool × HttpRequest × Io) :=
  c.run conf r { io with recvs := es }

theorem finishLines_finishes {σ : Type} (put : HttpRequest → σ → HttpRequest) (r : HttpRequest)
    (io : Io) : Finishes (fun w : Waiting σ => LoopEnd.exit .closed w.x w.heap w.errno)
      (fun s rest => finishLines put r io (s, rest)) where
  waits w _ := ⟨w.heap, rfl⟩
  ends e _ h := by cases e <;> cases h <;> contradiction
  stops e _ _ x h := by
    cases e with
    | exit e x h' c => cases h
    | stop s => exact h
  returns w _ := ⟨_, rfl⟩

/-- What a call does is the same for every list if it makes no `recv`. -/
theorem endsAfter_of_never {α : Type} {run : List RecvEvent → Outcome α} {P : Prop}
    (h : ∀ es, ¬ (run es).Waits) (es : List RecvEvent) :
    EndsAfter run es ↔ ¬ (run es).Waits ∨ P :=
  ⟨fun _ => .inl (h es), fun _ => endsAfter_of_ended (h es)⟩

section Calls

variable (conf : Conf) (r : HttpRequest) (io : Io) (es : List RecvEvent)

theorem endsAfter_processLines {σ : Type} (parse : Nat → Parse σ) (get : HttpRequest → σ)
    (put : HttpRequest → σ → HttpRequest) :
    EndsAfter (fun es => processLines conf parse get put r { io with recvs := es }) es ↔
      ¬ (processLines conf parse get put r { io with recvs := es }).Waits ∨
        (io.errno ≠ .eintr ∧ .error .eintr ∉ es) :=
  endsAfter_loop_iff (onRecv_retry conf (parse r.headerBuf) r.headerBuf)
    (finishLines_finishes put r io)
    (s := settle conf (parse r.headerBuf) r.headerBuf ⟨get r, r.toHeap, io.errno⟩)
    (fun _ ht => settle_errno ht) (fun _ => rfl) es

/-- What `bodyUntilClose` makes of the end of its loop. -/
def finishUntilClose (phase : Phase) : Receiving ⊕ BodyEnd → List RecvEvent →
    Outcome (Bool × HttpRequest × Io)
  | .inl w, _ => .wait w.heap
  | .inr (.stop s), _ => .stop s
  | .inr (.exit e w), recvs =>
    let old := { r.body phase with contentLen := w.len }
    .ret (decide (e = .done),
      { (r.setBody phase (e.body old w w.len)) with
        toHeap := w.heap, status := e.status r.status },
      { io with errno := w.errno, recvs := recvs })

theorem endsAfter_bodyUntilClose (phase : Phase) :
    EndsAfter (fun es => bodyUntilClose conf phase r { io with recvs := es }) es ↔
      ¬ (bodyUntilClose conf phase r { io with recvs := es }).Waits ∨
        (io.errno ≠ .eintr ∧ .error .eintr ∉ es) := by
  have hrun : ∀ es, bodyUntilClose conf phase r { io with recvs := es } =
      finishUntilClose r io phase (untilCloseLoop conf r.toHeap io.errno es).1
        (untilCloseLoop conf r.toHeap io.errno es).2 := by
    intro es
    rw [bodyUntilClose]
    dsimp only
    generalize untilCloseLoop conf r.toHeap io.errno es = y
    rcases y with ⟨_ | _ | _, _⟩ <;> rfl
  have hfin : Finishes (.exit .done) (finishUntilClose r io phase) := by
    refine ⟨fun w _ => ⟨w.heap, rfl⟩, fun e _ h => ?_, fun e _ _ x h => ?_, fun w _ => ⟨_, rfl⟩⟩
    · cases e <;> cases h <;> contradiction
    · cases e with
      | exit e w => cases h
      | stop s => exact h
  exact endsAfter_loop_iff (onBodyUntilClose_retry conf) hfin (fun _ ht => growBody_errno ht)
    hrun es

/-- What `bodyOfLength` makes of the end of its loop. -/
def finishOfLength (phase : Phase) (contentLen : Nat) : Receiving ⊕ BodyEnd → List RecvEvent →
    Outcome (Bool × HttpRequest × Io)
  | .inl w, _ => .wait w.heap
  | .inr (.stop s), _ => .stop s
  | .inr (.exit e w), recvs =>
    if e = .done ∧ 0 ≤ (r.body phase).contentFd then .stop .assert
    else
      .ret (decide (e = .done),
        { (r.setBody phase (e.body (r.body phase) w contentLen)) with
          toHeap := w.heap, status := e.status r.status },
        { io with errno := w.errno, recvs := recvs })

theorem endsAfter_bodyOfLength (phase : Phase) (contentLen : Nat) :
    EndsAfter (fun es => bodyOfLength phase contentLen r { io with recvs := es }) es ↔
      ¬ (bodyOfLength phase contentLen r { io with recvs := es }).Waits ∨
        (io.errno ≠ .eintr ∧ .error .eintr ∉ es) := by
  have hrun : ∀ es, bodyOfLength phase contentLen r { io with recvs := es } =
      finishOfLength r io phase contentLen (ofLengthLoop contentLen r.toHeap io.errno es).1
        (ofLengthLoop contentLen r.toHeap io.errno es).2 := by
    intro es
    rw [bodyOfLength]
    dsimp only
    generalize ofLengthLoop contentLen r.toHeap io.errno es = y
    rcases y with ⟨_ | _ | _, _⟩ <;> rfl
  -- what is made of the end of the loop waits exactly where the loop does
  have hfin : Finishes (.exit .closed) (finishOfLength r io phase contentLen) := by
    refine ⟨fun w _ => ⟨w.heap, rfl⟩, fun e _ h => ?_, fun e _ _ x h => ?_, fun w _ => ⟨_, rfl⟩⟩
    · obtain ⟨h', h⟩ := h
      cases e with
      | stop s => cases h
      | exit e w =>
          by_cases hc : e = .done ∧ 0 ≤ (r.body phase).contentFd
          · simp [finishOfLength, hc] at h
          · simp [finishOfLength, hc] at h
    · cases e with
      | stop s => exact h
      | exit e w =>
          by_cases hc : e = .done ∧ 0 ≤ (r.body phase).contentFd
          · simpa [finishOfLength, hc] using h
          · simp [finishOfLength, hc] at h
  exact endsAfter_loop_iff (onBodyOfLength_retry contentLen) hfin (fun _ ht => startOfLength_errno ht)
    hrun es

/-- A call that gets to no loop. -/
theorem endsAfter_early {run : List RecvEvent → Outcome (Bool × HttpRequest × Io)}
    (x : Io → Outcome (Bool × HttpRequest × Io)) (hx : ∀ io, ¬ (x io).Waits)
    (hrun : ∀ es, run es = x { io with recvs := es }) :
    EndsAfter run es ↔ ¬ (run es).Waits ∨ (io.errno ≠ .eintr ∧ .error .eintr ∉ es) := by
  refine endsAfter_of_never (fun es => ?_) es
  rw [hrun]
  exact hx _

theorem not_waits_stop (s : Stop) :
    ¬ (.stop s : Outcome (Bool × HttpRequest × Io)).Waits := by
  rintro ⟨h, h'⟩
  cases h'

theorem not_waits_ret (y : Bool × HttpRequest × Io) : ¬ (Outcome.ret y).Waits := by
  rintro ⟨h, h'⟩
  cases h'

/-- `http_process_content_body`. -/
theorem endsAfter_contentBody (phase : Phase) (contentLen : Int) :
    EndsAfter (RecvCall.runOn (.contentBody phase contentLen) conf r io) es ↔
      ¬ (RecvCall.runOn (.contentBody phase contentLen) conf r io es).Waits ∨
        (io.errno ≠ .eintr ∧ .error .eintr ∉ es) := by
  -- each branch that gets to no loop ends at once
  by_cases hstate : r.state = .headerLine
  case neg =>
    exact endsAfter_early io es (fun _ => .stop .assert) (fun _ => not_waits_stop _)
      (fun es => if_pos hstate)
  by_cases hmethod : r.method = .head
  case pos =>
    exact endsAfter_early io es (fun io => .ret (true, { r with state := .contentBody }, io))
      (fun _ => not_waits_ret _) fun es => by
        simp [RecvCall.runOn, RecvCall.run, httpProcessContentBody, hstate, hmethod]
  by_cases hneg : contentLen < 0
  case pos =>
    have hrun : ∀ es, RecvCall.runOn (.contentBody phase contentLen) conf r io es =
        bodyUntilClose conf phase { r with state := .contentBody } { io with recvs := es } := by
      intro es
      simp [RecvCall.runOn, RecvCall.run, httpProcessContentBody, hstate, hmethod, hneg]
    rw [funext hrun]
    exact endsAfter_bodyUntilClose conf _ io es phase
  by_cases hzero : contentLen = 0
  case pos =>
    exact endsAfter_early io es (fun io => .ret (true, { r with state := .contentBody }, io))
      (fun _ => not_waits_ret _) fun es => by
        simp [RecvCall.runOn, RecvCall.run, httpProcessContentBody, hstate, hmethod, hzero]
  by_cases hmax : contentLen > conf.maxContentLen
  case pos =>
    exact endsAfter_early io es
      (fun io => .ret (false,
        { r with state := .contentBody, status := HTTP_STATUS_BAD_REQUEST }, io))
      (fun _ => not_waits_ret _) fun es => by
        simp [RecvCall.runOn, RecvCall.run, httpProcessContentBody, hstate, hmethod, hneg,
          hzero, hmax]
  have hrun : ∀ es, RecvCall.runOn (.contentBody phase contentLen) conf r io es =
      bodyOfLength phase contentLen.toNat { r with state := .contentBody }
        { io with recvs := es } := by
    intro es
    simp [RecvCall.runOn, RecvCall.run, httpProcessContentBody, hstate, hmethod, hneg, hzero,
      hmax]
  rw [funext hrun]
  exact endsAfter_bodyOfLength _ io es phase contentLen.toNat

/-- A call ends on a peer that is gone exactly if it has ended before, or none of its calls
    has been interrupted. -/
theorem RecvCall.endsAfter_iff (c : RecvCall) :
    EndsAfter (c.runOn conf r io) es ↔
      ¬ (c.runOn conf r io es).Waits ∨ (io.errno ≠ .eintr ∧ .error .eintr ∉ es) := by
  cases c with
  | requestLine =>
      by_cases hstate : r.state = .none
      · have hrun : ∀ es, RecvCall.runOn .requestLine conf r io es = processLines conf
            httpParseRequestLine (·.toRequestLine) (fun r l => { r with toRequestLine := l })
            { r with toHeap := httpAllocClientHeaderBuf conf r.toHeap, state := .requestLine }
            { io with recvs := es } := fun es => if_neg (not_not_intro hstate)
        rw [funext hrun]
        exact endsAfter_processLines conf _ io es _ _ _
      · exact endsAfter_early io es (fun _ => .stop .assert) (fun _ => not_waits_stop _)
          fun _ => if_pos hstate
  | statusLine =>
      by_cases hstate : r.state = .contentBody
      · have hrun : ∀ es, RecvCall.runOn .statusLine conf r io es = processLines conf
            httpParseStatusLine (·.status) (fun r s => { r with status := s })
            { r with toHeap := httpAllocClientHeaderBuf conf r.toHeap, state := .statusLine }
            { io with recvs := es } := fun es => if_neg (not_not_intro hstate)
        rw [funext hrun]
        exact endsAfter_processLines conf _ io es _ _ _
      · exact endsAfter_early io es (fun _ => .stop .assert) (fun _ => not_waits_stop _)
          fun _ => if_pos hstate
  | headerLine phase =>
      cases hready : r.headerLineReady phase with
      | true =>
          have hrun : ∀ es, RecvCall.runOn (.headerLine phase) conf r io es = processLines conf
              (httpParseHeaderLine httpHeaderSet) (·.headers phase) (·.setHeaders phase)
              { r with state := .headerLine } { io with recvs := es } := by
            intro es
            simp [RecvCall.runOn, RecvCall.run, httpHeaderLoop, hready]
          rw [funext hrun]
          exact endsAfter_processLines conf _ io es _ _ _
      | false =>
          exact endsAfter_early io es (fun _ => .stop .assert) (fun _ => not_waits_stop _)
            fun es => by simp [RecvCall.runOn, RecvCall.run, httpHeaderLoop, hready]
  | contentBody phase contentLen => exact endsAfter_contentBody conf r io es phase contentLen

/-- The first `recv` is interrupted, and then the peer is gone. -/
theorem not_endsAfter : ¬ ∀ (c : RecvCall) (conf : Conf) (r : HttpRequest) (io : Io)
    (es : List RecvEvent), EndsAfter (c.runOn conf r io) es := by
  intro h
  let conf : Conf := ⟨64, 128, 16, 64, by decide, by decide⟩
  let r : HttpRequest :=
    { toHeap := httpAllocClientHeaderBuf conf {}, state := .requestLine }
  have hends : EndsAfter (fun es => processLines conf httpParseRequestLine (·.toRequestLine)
      (fun r l => { r with toRequestLine := l }) r { recvs := es }) [.error .eintr] :=
    h .requestLine conf {} {} [.error .eintr]
  rcases (endsAfter_processLines conf r {} _ _ _ _).mp hends with hended | ⟨-, hnever⟩
  · exact hended ⟨_, rfl⟩
  · exact hnever (List.mem_singleton_self _)

end Calls

end XwpServer
