/-
  XwpServer.Connection

  One connection (`connection.c`) with the two threads that use it: the worker that
  runs `connection_run` on it, and the guard in `connection_check_timeout`.

  A step is one access to what the two share (a lock, a flag, a field, a call on a
  descriptor) with the local work up to the next one.  What a request contains is
  left open: the results of the parsers, the handlers and the system calls are
  choices of the worker's moves, so a run of the model is a run over some
  sequence of requests and results.

  The ledgers are not in the source.  They number the request pools and the
  descriptors as they are acquired and count their releases.
-/

import XwpServer.Basic
import XwpServer.Lib.Ledger
import XwpServer.Lib.Transition

namespace XwpServer

/-! ## The state -/

/-- `connection_state_e`, without the state of a destroyed connection. -/
inductive ConnectionState where
  | reuseable | running | beforeReuseable
  deriving DecidableEq, Repr

/-- The holder of a mutex. -/
inductive Thread where
  | worker | guard
  deriving DecidableEq, Repr

/-- `upstream_uwsgi_priv_t`; a descriptor of -1 is `none`. -/
structure Upstream where
  fd : Option Nat
  running : Bool
  mutex : Option Thread := none
  deriving DecidableEq, Repr

/-- Where the worker is.  `idle` is outside `connection_run`, and `returned` is
    behind it in `server_listen_proc`. -/
inductive WorkerPc where
  | idle
  | createPool | createRequest | setStartTime | setFd | setRunning
  | loopTest | genRequest | processTest | processRequest
  | upstreamRun | upstreamExchange | upstreamDone | upstreamLock | upstreamClose | upstreamUnlock
  | doneTest | sendHead | sendBody | closeFile (ok : Bool) | keepAliveTest
  | finalizeLock | finalizeUpdate | finalizeUnlock | finalizeDestroy | finalizeTest
  | finalizeCreatePool | finalizeCreateRequest
  | setBefore | logClose | reusableLock | reusableClear | reusableUnlock | reusableDestroy
  | setReuseable | returned
  deriving DecidableEq, Repr

/-- Where the guard is; `away` is outside `connection_check_timeout`.  `now` is the
    time it has read. -/
inductive GuardPc where
  | away
  | readClock | lock (now : Nat) | recheck (now : Nat) | compare (now : Nat)
  | setTimedout | testFd | shutdownFd | closeFd | waitClient | clearFd
  | testUpstream | abortLock | abortTest | abortWait | abortUnlock | waitUpstream | clearUpstream
  | unlock
  deriving DecidableEq, Repr

/-- `connection_t` with its two threads.  `requestPool` and `r` are the numbers of the
    pools they point to or into. -/
structure Connection where
  state : ConnectionState := .reuseable
  timedout : Bool := false
  fd : Option Nat := none
  startTime : Nat := 0
  mutex : Option Thread := none
  requestPool : Option Nat := none
  r : Option Nat := none
  /-- `r->status`. -/
  status : Int := 200
  /-- `r->body_out.content_fd`. -/
  contentFd : Option Nat := none
  /-- `r->upstream`. -/
  upstream : Option Upstream := none
  worker : WorkerPc := .idle
  guard : GuardPc := .away
  /-- The parameter `fd` of `connection_run`. -/
  peer : Nat := 0
  /-- The time. -/
  clock : Nat := 0
  /-- The number of the call of `connection_run`, and that of the call in which the
      guard has taken the lock. -/
  run : Nat := 0
  lockRun : Nat := 0
  pools : Ledger := {}
  descs : Ledger := {}
  /-- A request has been read whose pool was destroyed. -/
  staleRead : Bool := false
  deriving DecidableEq, Repr

namespace Connection

/-- A read of a field of `*thiz->r`. -/
def deref (c : Connection) : Connection :=
  { c with staleRead := c.staleRead || c.r.any (c.pools.released.contains ·) }

/-- `pool_destroy(thiz->request_pool)`. -/
def destroyPool (c : Connection) : Connection :=
  { c with pools := c.pools.releaseOpt c.requestPool }

/-- `close` of a descriptor that is not -1. -/
def close (c : Connection) (fd : Option Nat) : Connection :=
  { c with descs := c.descs.releaseOpt fd }

end Connection

/-! ## The worker -/

/-- What is open at a move of the worker. -/
inductive Choice where
  | next
  /-- A call that succeeds or fails. -/
  | result (ok : Bool)
  /-- A `recv` or `send` after which the phase goes on. -/
  | io
  /-- The phase ends with this `r->status`. -/
  | status (s : Int)
  /-- The handler has opened a file. -/
  | openFile
  /-- The backend is connected; `running` is what the allocation has left there. -/
  | connect (running : Bool)
  | keepAlive (b : Bool)
  deriving DecidableEq, Repr

/-- The worker behind `DONE:`. -/
def WorkerPc.afterDone (status : Int) : WorkerPc :=
  if status = HTTP_STATUS_CLOSE then .setBefore else .sendHead

/-- `upstream_uwsgi_abort` of the worker's own thread; `none` when it blocks, or spins
    for a flag only it could clear. -/
def abortOwn : Option Upstream → Option (Option Upstream)
  | none => some none
  | some u => if u.mutex.isSome || (u.fd.isSome && u.running) then none else some none

@[grind →] theorem eq_none_of_abortOwn {o u : Option Upstream} (h : abortOwn o = some u) :
    u = none := by
  cases o with
  | none => simpa [abortOwn] using h.symm
  | some v =>
      simp only [abortOwn] at h
      split at h
      · cases h
      · simpa using h.symm

/-- A step of the worker; `none` when it is blocked or the choice is not one it has. -/
def workerStep (c : Connection) (x : Choice) : Option Connection :=
  match c.worker with
  | .idle =>
    match x with
    | .next => some { c with
        worker := .createPool, peer := c.descs.next, descs := c.descs.acquire, run := c.run + 1 }
    | _ => none
  | .createPool =>
    match x with
    | .result true => some { c with
        worker := .createRequest, requestPool := some c.pools.next, pools := c.pools.acquire }
    | .result false => some { c with worker := .returned, requestPool := none }
    | _ => none
  | .createRequest =>
    match x with
    | .result true => some { c with
        worker := .setStartTime, r := c.requestPool, status := 200, contentFd := none,
        upstream := none }
    | .result false =>
      let c := { c with r := none }.destroyPool
      some { c with worker := .returned, requestPool := none }
    | _ => none
  | .setStartTime =>
    match x with
    | .next => some { c with worker := .setFd, startTime := c.clock }
    | _ => none
  | .setFd =>
    match x with
    | .next => some { c with worker := .setRunning, fd := some c.peer }
    | _ => none
  | .setRunning =>
    match x with
    | .next => some { c.deref with worker := .loopTest, state := .running }
    | _ => none
  | .loopTest =>
    match x with
    | .next => some { c with worker := if c.timedout then .setBefore else .genRequest }
    | _ => none
  | .genRequest =>
    match x with
    | .io => some c.deref
    | .status s => some { c.deref with
        worker := if HTTP_STATUS_SPECIAL_RESPONSE ≤ s then .afterDone s else .processTest,
        status := s }
    | _ => none
  | .processTest =>
    match x with
    | .next => some { c with worker := if c.timedout then .setBefore else .processRequest }
    | _ => none
  | .processRequest =>
    match x with
    | .status s => some { c.deref with worker := .doneTest, status := s }
    | .openFile => some { c.deref with
        worker := .doneTest, status := HTTP_STATUS_OK, contentFd := some c.descs.next,
        descs := c.descs.acquire }
    | .connect running => some { c.deref with
        worker := .upstreamRun, upstream := some { fd := some c.descs.next, running := running },
        descs := c.descs.acquire }
    | _ => none
  | .upstreamRun =>
    match x with
    | .next => some { c with
        worker := .upstreamExchange, upstream := c.upstream.map ({ · with running := true }) }
    | _ => none
  | .upstreamExchange =>
    match x with
    | .io => some c.deref
    | .status s => some { c.deref with worker := .upstreamDone, status := s }
    | _ => none
  | .upstreamDone =>
    match x with
    | .next => some { c with
        worker := .upstreamLock, upstream := c.upstream.map ({ · with running := false }) }
    | _ => none
  | .upstreamLock =>
    match x with
    | .next =>
      if c.upstream.any (·.mutex.isNone) then some { c with
        worker := .upstreamClose, upstream := c.upstream.map ({ · with mutex := some .worker }) }
      else none
    | _ => none
  | .upstreamClose =>
    match x with
    | .next =>
      let c := c.close (c.upstream.bind (·.fd))
      some { c with
        worker := .upstreamUnlock, upstream := c.upstream.map ({ · with fd := none }) }
    | _ => none
  | .upstreamUnlock =>
    match x with
    | .next => some { c with
        worker := .doneTest, upstream := c.upstream.map ({ · with mutex := none }) }
    | _ => none
  | .doneTest =>
    match x with
    | .next => some { c.deref with
        worker := if c.timedout then .setBefore else .afterDone c.status }
    | _ => none
  | .sendHead =>
    match x with
    | .io => some c.deref
    | .result ok => some { c.deref with worker := if ok then .sendBody else .setBefore }
    | _ => none
  | .sendBody =>
    match x with
    | .io => if c.contentFd.isSome then none else some c.deref
    | .result ok => some { c.deref with
        worker :=
          if c.contentFd.isSome then .closeFile ok
          else if ok then .keepAliveTest else .setBefore }
    | _ => none
  | .closeFile ok =>
    match x with
    | .next =>
      let c := c.deref.close c.contentFd
      some { c with worker := if ok then .keepAliveTest else .setBefore, contentFd := none }
    | _ => none
  | .keepAliveTest =>
    match x with
    | .keepAlive b => some { c.deref with
        worker := if b && !c.timedout then .finalizeLock else .setBefore }
    | _ => none
  | .finalizeLock =>
    match x with
    | .next =>
      if c.mutex.isSome then none
      else some { c with worker := .finalizeUpdate, mutex := some .worker }
    | _ => none
  | .finalizeUpdate =>
    match x with
    | .next =>
      if c.timedout then some { c with worker := .finalizeUnlock }
      else (abortOwn c.upstream).map fun u =>
        { c.deref with worker := .finalizeUnlock, startTime := c.clock, upstream := u }
    | _ => none
  | .finalizeUnlock =>
    match x with
    | .next => some { c with worker := .finalizeDestroy, mutex := none }
    | _ => none
  | .finalizeDestroy =>
    match x with
    | .next => some { c.destroyPool with worker := .finalizeTest }
    | _ => none
  | .finalizeTest =>
    match x with
    | .next => some { c with worker := if c.timedout then .setBefore else .finalizeCreatePool }
    | _ => none
  | .finalizeCreatePool =>
    match x with
    | .result true => some { c with
        worker := .finalizeCreateRequest, requestPool := some c.pools.next,
        pools := c.pools.acquire }
    | .result false => some { c with worker := .setBefore, requestPool := none }
    | _ => none
  | .finalizeCreateRequest =>
    match x with
    | .result true => some { c with
        worker := .loopTest, r := c.requestPool, status := 200, contentFd := none,
        upstream := none }
    | .result false =>
      let c := { c with r := none }.destroyPool
      some { c with worker := .setBefore, requestPool := none }
    | _ => none
  | .setBefore =>
    match x with
    | .next => some { c with worker := .logClose, state := .beforeReuseable }
    | _ => none
  | .logClose =>
    match x with
    | .next => some { c.deref with worker := .reusableLock }
    | _ => none
  | .reusableLock =>
    match x with
    | .next =>
      if c.mutex.isSome then none
      else some { c with worker := .reusableClear, mutex := some .worker }
    | _ => none
  | .reusableClear =>
    match x with
    | .next =>
      -- without a request there is no upstream
      (if c.r.isSome then abortOwn c.upstream else some c.upstream).map fun u =>
        { (c.close c.fd).deref with
          worker := .reusableUnlock, timedout := false, startTime := 0, fd := none, upstream := u }
    | _ => none
  | .reusableUnlock =>
    match x with
    | .next => some { c with worker := .reusableDestroy, mutex := none }
    | _ => none
  | .reusableDestroy =>
    match x with
    | .next => some { c.destroyPool with worker := .setReuseable, requestPool := none, r := none }
    | _ => none
  | .setReuseable =>
    match x with
    | .next => some { c with worker := .returned, state := .reuseable }
    | _ => none
  | .returned =>
    match x with
    | .next => some { c with worker := .idle }
    | _ => none

/-! ## The guard -/

/-- A step of the guard; `none` when it is blocked.  A wait that goes on is a step
    that changes nothing. -/
def guardStep (timeout : Int) (c : Connection) : Option Connection :=
  match c.guard with
  | .away => some { c with guard := if c.state = .running then .readClock else .away }
  | .readClock => some { c with guard := .lock c.clock }
  | .lock now =>
    if c.mutex.isSome then none
    else some { c with guard := .recheck now, mutex := some .guard, lockRun := c.run }
  | .recheck now => some { c with guard := if c.state = .running then .compare now else .unlock }
  | .compare now =>
    if timeout ≤ (now : Int) - c.startTime then some { c.deref with guard := .setTimedout }
    else some { c with guard := .unlock }
  | .setTimedout => some { c with guard := .testFd, timedout := true }
  | .testFd => some { c with guard := if c.fd.isSome then .shutdownFd else .testUpstream }
  | .shutdownFd => some { c with guard := .closeFd }
  | .closeFd => some { c.close c.fd with guard := .waitClient }
  | .waitClient =>
    some { c with guard := if c.state = .beforeReuseable then .clearFd else .waitClient }
  | .clearFd => some { c with guard := .testUpstream, fd := none }
  | .testUpstream =>
    some { c.deref with guard := if c.upstream.isSome then .abortLock else .unlock }
  | .abortLock =>
    if c.upstream.any (·.mutex.isNone) then some { c.deref with
      guard := .abortTest, upstream := c.upstream.map ({ · with mutex := some .guard }) }
    else none
  | .abortTest =>
    if c.upstream.any fun u => u.fd.isSome && u.running then
      let c := c.close (c.upstream.bind (·.fd))
      some { c with guard := .abortWait, upstream := c.upstream.map ({ · with fd := none }) }
    else some { c with guard := .abortUnlock }
  | .abortWait =>
    some { c with guard := if c.upstream.any (·.running) then .abortWait else .abortUnlock }
  | .abortUnlock => some { c with
      guard := .waitUpstream, upstream := c.upstream.map ({ · with mutex := none }) }
  | .waitUpstream =>
    some { c with guard := if c.state = .beforeReuseable then .clearUpstream else .waitUpstream }
  | .clearUpstream => some { c.deref with guard := .unlock, upstream := none }
  | .unlock => some { c with guard := .away, mutex := none }

/-! ## Runs -/

/-- A step of the system. -/
inductive Move where
  | worker (x : Choice)
  | guard
  /-- Time passes. -/
  | tick (d : Nat)
  deriving DecidableEq, Repr

/-- The step function; `timeout` is `connection_timeout`. -/
def Connection.step (timeout : Int) (c : Connection) : Move → Option Connection
  | .worker x => workerStep c x
  | .guard => guardStep timeout c
  | .tick d => some { c with clock := c.clock + d }

/-- A connection as `connection_create` leaves it. -/
def Connection.created (clock : Nat) : Connection := { clock := clock }

/-! ## Pieces of runs -/

namespace Connection

/-- A connection is accepted and its first `recv` is made. -/
def acceptMoves : List Move :=
  [.worker .next, .worker (.result true), .worker (.result true), .worker .next, .worker .next,
    .worker .next, .worker .next]

/-- A request is answered and the connection is to be kept. -/
def answerMoves : List Move :=
  [.worker (.status 200), .worker .next, .worker (.status 200), .worker .next,
    .worker (.result true), .worker (.result true), .worker (.keepAlive true)]

/-- The connection is closed and `connection_run` returns. -/
def closeMoves : List Move := List.replicate 7 (.worker .next)

/-- The guard looks at the connection and finds a timeout. -/
def strikeMoves : List Move := [.guard, .guard, .guard, .guard, .guard]

end Connection

end XwpServer
