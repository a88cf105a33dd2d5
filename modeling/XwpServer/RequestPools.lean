/-
  XwpServer.RequestPools

  The request pools of a connection.

  `connection_run` gives a pool back in `connection_reusable`, and
  `connection_finalize_request` replaces it, and the request in it, by a new one.  In
  between the connection still points to the old request.
-/

import XwpServer.ConnectionInv

namespace XwpServer

open Transition

namespace WorkerPc

/-- `connection_finalize_request` between the end of its lock and the new request. -/
def renewing : WorkerPc → Bool
  | .finalizeDestroy | .finalizeTest | .finalizeCreatePool | .finalizeCreateRequest => true
  | _ => false

/-- `request_pool` is dangling. -/
def poolGone : WorkerPc → Bool
  | .finalizeTest | .finalizeCreatePool => true
  | _ => false

/-- `r` is not the request in `request_pool`. -/
def requestOpen : WorkerPc → Bool
  | .createRequest | .finalizeCreateRequest => true
  | w => w.poolGone

theorem requestOpen_of_exposed {w : WorkerPc} (h : w.exposed = true) (hr : w.renewing = false) :
    w.requestOpen = false := by
  cases w <;> first | rfl | exact absurd h (by decide) | exact absurd hr (by decide)

end WorkerPc

namespace Connection

variable {timeout : Int} {clock : Nat} {c c' : Connection}

/-- The guard finds the timeout. -/
def strikes (timeout : Int) (c : Connection) : GuardPc → Bool
  | .compare now => decide (timeout ≤ (now : Int) - c.startTime)
  | _ => false

/-- The guard finds no timeout while the worker replaces the request, and the worker gets
    a new pool for it. -/
def keepsRequest (timeout : Int) (c : Connection) (m : Move) : Prop :=
  (m = .guard → strikes timeout c c.guard = true → c.worker.renewing = false) ∧
    (m = .worker (.result false) → c.worker ≠ .finalizeCreatePool)

instance (timeout : Int) (c : Connection) (m : Move) : Decidable (keepsRequest timeout c m) :=
  inferInstanceAs (Decidable (_ ∧ _))

/-- The pools the connection holds. -/
def heldPools (c : Connection) : List Nat := if c.worker.poolGone then [] else c.requestPool.toList

structure PoolInv (c : Connection) : Prop where
  accounts : c.pools.Accounts c.heldPools
  request : c.worker.requestOpen = false → c.r = c.requestPool
  creating : c.worker = .createRequest → c.r = none
  empty : c.worker = .idle ∨ c.worker = .createPool ∨ c.worker = .setReuseable ∨
    c.worker = .returned → c.requestPool = none
  renewing : c.worker.renewing = true → c.guard.struck = false
  staleRead : c.staleRead = false

theorem deref_close (c : Connection) (fd : Option Nat) :
    (c.close fd).deref = c.deref.close fd := rfl

/-- A request that is there when it is read is live. -/
theorem PoolInv.deref_eq (hp : PoolInv c) (hw : c.worker.requestOpen = false) : c.deref = c := by
  have hgone : c.worker.poolGone = false := by
    cases hpc : c.worker <;> rw [hpc] at hw <;> first | rfl | cases hw
  have hacc := hp.accounts
  rw [heldPools, hgone, if_neg Bool.false_ne_true, ← hp.request hw] at hacc
  have hlive : (c.r.any fun p => c.pools.released.contains p) = false := by
    cases hr : c.r with
    | none => rfl
    | some p => simpa using hacc.not_released (h := p) (by simp [hr])
  rw [deref, hlive, Bool.or_false]

theorem PoolInv.worker {x : Choice} (hi : Inv c) (hp : PoolInv c)
    (hok : keepsRequest timeout c (.worker x)) (h : workerStep c x = some c') : PoolInv c' := by
  have hderef := hp.deref_eq
  have hfalse := hok.2
  obtain ⟨hacc, hreq, hcreating, hempty, hrenew, hstale⟩ := hp
  have htimed := hi.timedout
  have hwl := hi.workerLock
  have hgl := hi.guardLock
  unfold workerStep at h
  split at h <;> rename_i hpc <;> (split at h <;> try contradiction)
  all_goals (try split at h) <;> try contradiction
  all_goals
    simp only [Option.some.injEq, Option.map_eq_some_iff] at h
    first | subst h | obtain ⟨u, hu, rfl⟩ := h
    rw [hpc] at hreq hempty hrenew hderef hfalse htimed hwl hcreating
    simp only [heldPools, hpc] at hacc
    simp only [WorkerPc.requestOpen, WorkerPc.poolGone, WorkerPc.renewing, WorkerPc.closing,
      WorkerPc.locked, true_implies] at hreq hrenew hderef htimed hacc hwl
    try rw [deref_close]
    try rw [hderef]
    try simp only [WorkerPc.afterDone]
    try split
  all_goals constructor
  all_goals try simp only [heldPools, WorkerPc.requestOpen, WorkerPc.poolGone, WorkerPc.renewing,
    close, destroyPool, Bool.false_eq_true, if_false, if_true, Option.toList]
  all_goals first
    | assumption
    | exact hacc.acquire
    | exact hacc.releaseAll
    | exact Ledger.Accounts.acquire (by simpa [hempty] using hacc)
    | grind -ring -linarith

/-- The guard acts on a timeout only if it has found one. -/
theorem guardStep_struck (h : guardStep timeout c = some c') (hs : c'.guard.struck = true) :
    c.guard.struck = true ∨ strikes timeout c c.guard = true := by
  unfold guardStep at h
  split at h <;> rename_i hpc <;> rw [hpc] <;> (try exact .inl rfl) <;> (try split at h) <;>
    (try contradiction)
  all_goals
    simp only [Option.some.injEq] at h
    subst h
    first | exact .inr (by simpa [strikes]) | cases hs

theorem PoolInv.guard (hi : Inv c) (hp : PoolInv c) (hok : keepsRequest timeout c .guard)
    (h : guardStep timeout c = some c') : PoolInv c' := by
  obtain ⟨hworker, -, hpool, hr, hpools, -⟩ := guardStep_frame h
  -- the guard reads the request behind the test of the timeout only
  have hderef : (c.guard.struck = true ∨ strikes timeout c c.guard = true) →
      c.worker.renewing = false ∧ c.deref = c := by
    intro hs
    have hrenew : c.worker.renewing = false := by
      rcases hs with hs | hs
      · rw [← Bool.not_eq_true]
        intro hr
        rw [hp.renewing hr] at hs
        cases hs
      · exact hok.1 rfl hs
    have hseen : c.guard.seen = true := by
      rcases hs with hs | hs
      · exact GuardPc.seen_of_struck hs
      · cases hpc : c.guard <;> rw [hpc] at hs <;> first | rfl | cases hs
    exact ⟨hrenew, hp.deref_eq (WorkerPc.requestOpen_of_exposed (hi.seen hseen) hrenew)⟩
  have hstale : c'.staleRead = false := by
    have hp' := hp.staleRead
    unfold guardStep at h
    split at h <;> rename_i hpc <;> rw [hpc] at hderef <;> (try split at h) <;> try contradiction
    all_goals
      simp only [Option.some.injEq] at h
      subst h
      first
      | assumption
      | (rw [(hderef (.inl rfl)).2]; assumption)
      | (rw [(hderef (.inr (by simpa [strikes]))).2]; assumption)
  have hheld : c'.heldPools = c.heldPools := by simp only [heldPools, hworker, hpool]
  refine ⟨?_, ?_, ?_, ?_, ?_, hstale⟩
  · rw [hpools, hheld]; exact hp.accounts
  · rw [hworker, hr, hpool]; exact hp.request
  · rw [hworker, hr]; exact hp.creating
  · rw [hworker, hpool]; exact hp.empty
  · intro hrenew
    rw [← Bool.not_eq_true]
    intro hs
    rw [hworker, (hderef (guardStep_struck h hs)).1] at hrenew
    cases hrenew

theorem PoolInv.step (hi : Inv c) (hp : PoolInv c) {m : Move}
    (hok : keepsRequest timeout c m) (h : c.step timeout m = some c') : PoolInv c' := by
  cases m with
  | worker x => exact hp.worker hi hok h
  | guard => exact hp.guard hi hok h
  | tick d =>
      cases h
      exact ⟨hp.accounts, hp.request, hp.creating, hp.empty, hp.renewing, hp.staleRead⟩

theorem poolInv_created (clock : Nat) : PoolInv (created clock) := by
  constructor <;> simp [created, heldPools, Ledger.accounts_empty, WorkerPc.renewing, WorkerPc.poolGone]

/-- In every run in which the guard finds no timeout while the request is replaced and the
    new request gets its pool, no request is read behind its end, and when
    `connection_run` has returned every pool has been destroyed exactly once. -/
theorem pools_released_once (hr : Reaches (step timeout) (keepsRequest timeout) (created clock) c) :
    c.staleRead = false ∧ (c.worker = .returned → c.pools.Balanced) := by
  have hp : PoolInv c := (hr.invariant (I := fun c => Inv c ∧ PoolInv c)
    (fun _ _ _ h hok hst => ⟨h.1.step hst, h.2.step h.1 hok hst⟩)
    ⟨inv_created clock, poolInv_created clock⟩).2
  refine ⟨hp.staleRead, fun hpc => ?_⟩
  have hacc := hp.accounts
  rw [heldPools, hpc, hp.empty (by simp [hpc])] at hacc
  exact hacc.balanced

/-- A connection with two requests, the second of which ends it. -/
def twoRequestMoves : List Move :=
  acceptMoves ++ answerMoves ++
    [.worker .next, .worker .next, .worker .next, .worker .next, .worker .next,
      .worker (.result true), .worker (.result true), .worker .next, .worker (.status 444)] ++
    closeMoves

theorem pools_released_once_twoRequests : ∃ c : Connection,
    c.worker = .returned ∧ c.staleRead = false ∧ c.pools.Balanced := by
  have hrun : (execOf (step 5) (keepsRequest 5) (created 100) twoRequestMoves).map (·.worker)
      = some .returned := by decide
  obtain ⟨c, hc, hpc⟩ := Option.map_eq_some_iff.mp hrun
  have := pools_released_once (reaches_of_execOf hc)
  exact ⟨c, hpc, this.1, this.2 hpc⟩

/-- Without a pool for the second request, the close of the connection reads the first
    request, whose pool has been destroyed. -/
theorem staleRead_no_pool : ¬ ∀ (timeout : Int) (clock : Nat) (c : Connection),
    Reaches (step timeout) anyMove (created clock) c →
    c.staleRead = false ∧ (c.worker = .returned → c.pools.Balanced) := by
  intro h
  have hrun : (exec (step 5) (created 100) (acceptMoves ++ answerMoves ++
      [.worker .next, .worker .next, .worker .next, .worker .next, .worker .next,
        .worker (.result false)] ++ closeMoves)).map (·.staleRead) = some true := by decide
  obtain ⟨c, hc, hstale⟩ := Option.map_eq_some_iff.mp hrun
  rw [(h 5 100 c (reaches_of_exec hc)).1] at hstale
  cases hstale

end Connection

end XwpServer
